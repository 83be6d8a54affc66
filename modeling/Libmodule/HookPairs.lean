import Libmodule.TokenAccount

/-!
# Pairs of hooks

`start` calls `on_start` and `stop` calls `on_stop`, and neither looks at the state in
which it finds the module.  A start that finds the module idle or stopped, and a stop
that finds it running or paused, calls the hook in its turn; any other start or stop calls
it out of turn.
-/

namespace Libmodule

open RefHeap Reentrant

/-! ## Logs -/

/-- Of a module: whether `on_start` has been called since `on_stop` was, and the state in which the
last start, resume, pause or stop found it. -/
structure HookLog where
  started : Bool
  found : ModState

def HookLog.empty : HookLog := ⟨false, .unset⟩

def stateAt (w : World) (m : ℕ) : ModState := ((modAt w.heap m).map Mod.state).getD .unset

def hookNext (m : ℕ) (log : HookLog) (step : Step LibLang World) : HookLog :=
  match step.act with
  | .op (.markRunning p) => if p = m then { log with found := stateAt step.before m } else log
  | .op (.markStopped p _) => if p = m then { log with found := stateAt step.before m } else log
  | .op (.newMod ..) => if m = step.before.heap.length then .empty else log
  | .hook (.onStart p) => if p = m then { log with started := true } else log
  | .hook (.onStop p) => if p = m then { log with started := false } else log
  | _ => log

/-- A module that runs or is paused has been started, and one that is idle or stopped has not. -/
def FitsStart : ModState → Bool → Prop
  | .running, started => started = true
  | .paused, started => started = true
  | .zombie, _ => True
  | _, started => started = false

/-- The module has both hooks. -/
def Mod.Hooked (x : Mod) : Prop := x.hook.onStart = true ∧ x.hook.onStop = true

/-- A hook is called in its turn if and only if the module was found so. -/
def HookStep (m : ℕ) (log : HookLog) (step : Step LibLang World) : Prop :=
  step.act = .hook (.onStart m) ∨ step.act = .hook (.onStop m) →
    ∀ x, modAt step.before.heap m = some x → x.Hooked → FitsStart log.found log.started

def pairMonitor (m : ℕ) : Monitor LibLang World HookLog where
  next := hookNext m
  assumed := fun _ _ => True
  shown := HookStep m

/-- What holds of the state and the log of a module with both hooks. -/
def Holds (m : ℕ) (R : ModState → HookLog → Prop) (w : World) (log : HookLog) : Prop :=
  ∀ x, modAt w.heap m = some x → x.Hooked → R x.state log

abbrev HookRests (m : ℕ) : World → HookLog → Prop := Holds m (fun s log => FitsStart s log.started)

/-- `p` is in a new state, and its hook is about to be called. -/
def Expected (m p : ℕ) (state s : ModState) (log : HookLog) : Prop :=
  if p = m then s = state ∧ FitsStart log.found log.started else FitsStart s log.started

/-- Whatever is known of the state and the log. -/
abbrev KeepsState (m depth : ℕ) ⦃α : Type⦄ (p : Lm α) : Prop :=
  Respects depth (pairMonitor m) (Holds m) p

abbrev KeepsPairs (m depth : ℕ) ⦃α : Type⦄ (p : Lm α) : Prop :=
  Respects depth (pairMonitor m) (fun (_ : Unit) => HookRests m) p

/-! ## Operations -/

section Operations

variable {m p depth : ℕ} {w w' : World} {o : Op} {r : o.Resp} {log : HookLog} {x x' : Mod}
  {R R' : ModState → HookLog → Prop}

/-- An operation that neither makes a module nor changes its state. -/
def Op.Quiet : Op → Prop
  | .markRunning _ | .markStopped .. | .markZombie _ | .newMod .. => False
  | _ => True

/-- No operation on a module changes its hooks, and a quiet one leaves it in its state. -/
theorem hook_and_state_of_onMod (h : o.OnMod m x x') :
    x'.hook = x.hook ∧ (o.Quiet → x'.state = x.state) := by
  cases o with
  | setMod p field =>
      obtain rfl : x' = _ := h
      split
      next => cases field <;> exact ⟨rfl, fun _ => rfl⟩
      next => exact ⟨rfl, fun _ => rfl⟩
  | clear p queue =>
      obtain rfl : x' = _ := h
      split
      next => cases queue <;> exact ⟨rfl, fun _ => rfl⟩
      next => exact ⟨rfl, fun _ => rfl⟩
  | markRunning | markStopped | markZombie =>
      obtain rfl : x' = _ := h
      split <;> exact ⟨rfl, fun hquiet => hquiet.elim⟩
  | enqueueBatch | takeBatch | stash | unstash | bind =>
      obtain rfl : x' = _ := h
      split <;> exact ⟨rfl, fun _ => rfl⟩
  | subscriptionsPut | subscriptionsRemove | addSrc | bstRemove | bstItrRemove =>
      obtain ⟨-, _, rfl⟩ := h
      exact ⟨rfl, fun _ => rfl⟩
  | pipe =>
      obtain ⟨-, _, _, rfl⟩ := h
      exact ⟨rfl, fun _ => rfl⟩
  | _ =>
      obtain rfl : x' = x := h
      exact ⟨rfl, fun _ => rfl⟩

theorem hook_of_onMod (h : o.OnMod m x x') : x'.hook = x.hook := (hook_and_state_of_onMod h).1

theorem Op.Quiet.state_eq (ho : o.Quiet) (h : o.OnMod m x x') : x'.state = x.state :=
  (hook_and_state_of_onMod h).2 ho

theorem Op.Quiet.next_eq (ho : o.Quiet) : hookNext m log ⟨.op o, w⟩ = log := by
  cases o with
  | markRunning | markStopped | markZombie | newMod => exact ho.elim
  | _ => rfl

theorem hookStep_of_not_hook {act : Act LibLang} (h : ∀ hook, act ≠ .hook hook) :
    HookStep m log ⟨act, w⟩ := by
  rintro (hact | hact)
  · exact absurd hact (h _)
  · exact absurd hact (h _)

theorem hookStep_op : HookStep m log ⟨.op o, w⟩ := hookStep_of_not_hook (by simp)

theorem Op.Quiet.kept (ho : o.Quiet) : o.Kept (pairMonitor m) (Holds m) := by
  refine fun R w log hI _ => ⟨hookStep_op, fun r w' hexec x' hx' hhooked => ?_⟩
  rcases (Op.effect hexec).mods m x' hx' with ⟨x, hx, hon⟩ | ⟨-, c, name, flags, hook, rfl, -⟩
  · have hlog : (pairMonitor m).next log ⟨.op o, w⟩ = log := ho.next_eq
    rw [hlog, ho.state_eq hon]
    refine hI x hx ?_
    rwa [Mod.Hooked, hook_of_onMod hon] at hhooked
  · exact ho.elim

theorem keepsState_act (ho : o.Quiet) : KeepsState m depth (act o) := respects_act ho.kept

theorem keepsPairs_act (ho : o.Quiet) : KeepsPairs m depth (act o) :=
  respects_act (fun _ => ho.kept _)

/-- The operation puts `p` into a new state. -/
structure Op.Marks (o : Op) (m p : ℕ) (state : ModState) : Prop where
  onMod : ∀ x x', o.OnMod m x x' → x' = if p = m then { x with state := state } else x
  next : ∀ w log, hookNext m log ⟨.op o, w⟩ =
    if p = m then { log with found := stateAt w m } else log
  old : ∀ c name flags hook, o ≠ .newMod c name flags hook

theorem marks_markRunning : (Op.markRunning p).Marks m p .running :=
  ⟨fun _ _ h => h, fun _ _ => rfl, by simp⟩

theorem marks_markStopped (stopping : Bool) :
    (Op.markStopped p stopping).Marks m p (if stopping then .stopped else .paused) :=
  ⟨fun _ _ h => h, fun _ _ => rfl, by simp⟩

theorem Op.Marks.grants {state : ModState} (ho : o.Marks m p state)
    (hR : ∀ s log, R s log →
      R' (if p = m then state else s) (if p = m then { log with found := s } else log))
    (hI : Holds m R w log) :
    (act o).Grants (handler depth) (pairMonitor m) w log (fun _ => Holds m R') := by
  refine grants_act fun _ => ⟨hookStep_op, fun r w' hexec x' hx' hhooked => ?_⟩
  rcases (Op.effect hexec).mods m x' hx' with ⟨x, hx, hon⟩ | ⟨-, c, name, flags, hook, hnew, -⟩
  · rw [Mod.Hooked, hook_of_onMod hon] at hhooked
    have hbefore := hR x.state log (hI x hx hhooked)
    have hlog : (pairMonitor m).next log ⟨.op o, w⟩ =
        if p = m then { log with found := x.state } else log := by
      have hstate : stateAt w m = x.state := by simp [stateAt, hx]
      rw [← hstate]
      exact ho.next w log
    rw [hlog, ho.onMod x x' hon]
    split
    next hpm =>
      rw [if_pos hpm, if_pos hpm] at hbefore
      exact hbefore
    next hpm =>
      rw [if_neg hpm, if_neg hpm] at hbefore
      exact hbefore
  · exact absurd hnew (ho.old c name flags hook)

/-- Nothing is said of a zombie. -/
theorem keepsPairs_markZombie : KeepsPairs m depth (act (.markZombie p)) := by
  refine respects_act (fun _ w log hI _ => ⟨hookStep_op, fun r w' hexec x' hx' hhooked => ?_⟩)
  rcases (Op.effect hexec).mods m x' hx' with ⟨x, hx, hon⟩ | ⟨-, _, _, _, _, hnew, -⟩
  · rw [Mod.Hooked, hook_of_onMod hon] at hhooked
    rw [show x' = _ from hon]
    split
    next => trivial
    next => exact hI x hx hhooked
  · cases hnew

end Operations

section NewModules

variable {m depth c flags : ℕ} {w w' u : World} {name : String} {hook : Option ModHooks}
  {ret : ℤ × ℕ} {e : ℤ} {x : Mod}

/-- A new module is idle, unless its registration has failed. -/
theorem buildMod_state (h : w.buildMod e c name flags hook = some (ret, w'))
    (hx : modAt w'.heap w.heap.length = some x) : x.state = .unset ∨ x.state = .idle := by
  unfold World.buildMod at h
  simp only [Option.bind_eq_bind, Option.bind_eq_some_iff] at h
  obtain ⟨u, href, h⟩ := h
  have hnew : modAt (u.new (.mod (Mod.initial c name flags hook))).2.heap w.heap.length =
      some (Mod.initial c name flags hook) := by
    rw [World.new, modAt_alloc, World.length_ref href, if_pos rfl]
  split at h
  next =>
    simp only [Option.bind_eq_some_iff, Option.some.injEq] at h
    obtain ⟨v, hunref, h⟩ := h
    cases h
    have hbefore := World.modAt_of_unrefAll hunref hx
    rw [hnew] at hbefore
    cases hbefore
    exact .inl rfl
  next =>
    simp only [Option.bind_eq_some_iff] at h
    obtain ⟨⟨put, v⟩, hput, h⟩ := h
    have hmods := (World.modulesPut_back hput).1
    split at h
    next =>
      simp only [Option.bind_eq_some_iff, Option.some.injEq] at h
      obtain ⟨z, hunref, h⟩ := h
      cases h
      have hbefore := World.modAt_of_unrefAll hunref hx
      rw [hmods, hnew] at hbefore
      cases hbefore
      exact .inl rfl
    next =>
      simp only [Option.bind_eq_some_iff, Option.some.injEq] at h
      obtain ⟨z, hset, h⟩ := h
      cases h
      obtain ⟨-, rfl⟩ := World.setMod_eq_some.mp hset
      have hlength : u.heap.length = w.heap.length := World.length_ref href
      have hnew' : modAt v.heap w.heap.length = some (Mod.initial c name flags hook) := by
        rw [hmods, hnew]
      have hplace : (u.new (.mod (Mod.initial c name flags hook))).1 = w.heap.length := hlength
      rw [modAt_modify_mod, if_pos hplace, hnew'] at hx
      cases hx
      exact .inr rfl

theorem keepsPairs_newMod : KeepsPairs m depth (act (.newMod c name flags hook)) := by
  refine respects_act (fun _ w log hI _ => ⟨hookStep_op, fun r w' hexec x' hx' hhooked => ?_⟩)
  rcases (Op.effect hexec).mods m x' hx' with ⟨x, hx, rfl⟩ | ⟨rfl, -⟩
  · have hlog : (pairMonitor m).next log ⟨.op (.newMod c name flags hook), w⟩ = log :=
      if_neg (World.ne_length hx)
    rw [hlog]
    exact hI x' hx hhooked
  · have hlog : (pairMonitor w.heap.length).next log ⟨.op (.newMod c name flags hook), w⟩ =
        .empty := if_pos rfl
    have hstate : x'.state = .unset ∨ x'.state = .idle :=
      buildMod_state (w := { w with sys := w.sys.fault.2 }) hexec hx'
    rw [hlog]
    rcases hstate with hstate | hstate <;> rw [hstate] <;> rfl

end NewModules

/-! ## Programs -/

section Programs

variable {m p depth : ℕ} {w : World} {log : HookLog} {R : ModState → HookLog → Prop}

theorem composed_keepsState : Composed (KeepsState m depth) := by
  apply composed_respects
  · exact fun _ _ _ _ => hookStep_of_not_hook (by simp)
  · intro o ho
    apply Op.Quiet.kept
    cases o <;> first | exact trivial | exact ho.elim

theorem keepsState_resetModule : KeepsState m depth (resetModule p) := by
  have hG : Composed (KeepsState m depth) := composed_keepsState
  have hrest : KeepsState m depth (do
      act (.clear p .subscriptions)
      act (.setMod p (.recvs []))
      act (.clear p .stashed)
      act (.clear p .batchEvents)
      act (.clear p .boundMods)
      act (.setMod p (.batchLen 0))
      act (.setMod p (.batchTimer 0))
      act (.setMod p (.tb 0 UINT64_MAX UINT64_MAX 0))) := by
    refine hG.bind (keepsState_act trivial) (fun _ => ?_)
    refine hG.bind (keepsState_act trivial) (fun _ => ?_)
    refine hG.bind (keepsState_act trivial) (fun _ => ?_)
    refine hG.bind (keepsState_act trivial) (fun _ => ?_)
    refine hG.bind (keepsState_act trivial) (fun _ => ?_)
    refine hG.bind (keepsState_act trivial) (fun _ => ?_)
    exact hG.bind (keepsState_act trivial) (fun _ => keepsState_act trivial)
  refine hG.bind (hG.derefMod p) (fun x => ?_)
  split
  next =>
    exact hG.bind (keepsState_act trivial) (fun _ => hG.bind (keepsState_act trivial)
      (fun _ => hrest))
  next => exact hrest

/-- Sources are armed and disarmed without a callback. -/
theorem keepsState_manageSrcs {c : ℕ} {flag : OpType} :
    KeepsState m depth (manageSrcs p c flag false MSrcType.all 0) := by
  have hG : Composed (KeepsState m depth) := composed_keepsState
  refine hG.manageSrcs (fun type ts ret => hG.manageTree ?_ ?_ ?_ ts ret) _ _
  · exact fun _ _ => keepsState_act trivial
  · exact fun _ hstop => absurd hstop (by decide)
  · exact fun _ hstop => absurd hstop (by decide)

/-- The state of `p` is read, and stays as it is. -/
theorem grants_derefMod_holds (hI : Holds m R w log) :
    (derefMod p).Grants (handler depth) (pairMonitor m) w log
      (fun y w' log' => modAt w'.heap p = some y ∧ Holds m R w' log') := by
  have hget : Op.get.Kept (pairMonitor m) (Holds m) := Op.Quiet.kept trivial
  have hlook : (derefMod p).Grants (handler depth) (pairMonitor m) w log
      (fun y w' log' => modAt w.heap p = some y ∧ w' = w ∧ Holds m R w' log') :=
    grants_look (fun _ _ _ _ => hookStep_of_not_hook (by simp)) hget hI
  refine Out.Grants.mono hlook (fun y w' log' h => ?_)
  obtain ⟨hy, rfl, hI'⟩ := h
  exact ⟨hy, hI'⟩

end Programs

/-! ## Callbacks -/

theorem Op.Plain.quiet {o : Op} (ho : o.Plain) : o.Quiet := by
  cases o <;> first | exact trivial | exact ho.elim

section Callbacks

variable {m p depth : ℕ} {w : World} {log : HookLog}
  (hH : (machine.handler depth).Maintains (pairMonitor m) (fun (_ : Unit) => HookRests m)
    (fun _ _ => HookRests m))

include hH

theorem closed_keepsPairs : Closed (KeepsPairs m depth) :=
  closed_respects hH (fun _ _ _ _ => hookStep_of_not_hook (by simp))
    (fun _ ho _ => ho.quiet.kept _)
    (fun _ _ _ _ hI _ => ⟨hookStep_of_not_hook (by simp), hI⟩)

/-- A callback that is neither of the two hooks. -/
theorem keepsPairs_notify {h : Hook} (hstart : h ≠ .onStart m) (hstop : h ≠ .onStop m) :
    KeepsPairs m depth (notify h) := by
  refine respects_notify hH (fun _ w log hI _ => ?_)
  have hlog : (pairMonitor m).next log ⟨.hook h, w⟩ = log := by
    cases h with
    | onStart p =>
        have hpm : p ≠ m := fun hpm => hstart (congrArg Hook.onStart hpm)
        exact if_neg hpm
    | onStop p =>
        have hpm : p ≠ m := fun hpm => hstop (congrArg Hook.onStop hpm)
        exact if_neg hpm
    | _ => rfl
  refine ⟨?_, ?_⟩
  · rintro (hact | hact)
    · exact absurd (Act.hook.inj hact) hstart
    · exact absurd (Act.hook.inj hact) hstop
  · show HookRests m w ((pairMonitor m).next log ⟨.hook h, w⟩)
    rw [hlog]
    exact hI

/-- A hook of `p` that is called when `p` is in the state that it goes with. -/
theorem grants_notify_expected {h : Hook} {state : ModState} {b : Bool}
    (hnext : ∀ w log, hookNext m log ⟨.hook h, w⟩ =
      if p = m then { log with started := b } else log)
    (hact : h = .onStart m ∨ h = .onStop m → p = m) (hfits : FitsStart state b)
    (hI : Holds m (Expected m p state) w log) :
    (notify h).Grants (handler depth) (pairMonitor m) w log (fun _ => HookRests m) := by
  apply Prog.Grants.notify
  intro _
  refine ⟨fun hhook x hx hhooked => ?_, hH.onHook () h w _ (fun x hx hhooked => ?_)⟩
  · have hpm : p = m := hact (hhook.imp Act.hook.inj Act.hook.inj)
    have hexpected := hI x hx hhooked
    rw [Expected, if_pos hpm] at hexpected
    exact hexpected.2
  · have hexpected := hI x hx hhooked
    have hlog : (pairMonitor m).next log ⟨.hook h, w⟩ =
        if p = m then { log with started := b } else log := hnext w log
    rw [hlog]
    by_cases hpm : p = m
    · rw [Expected, if_pos hpm] at hexpected
      rw [if_pos hpm, hexpected.1]
      exact hfits
    · rw [Expected, if_neg hpm] at hexpected
      rw [if_neg hpm]
      exact hexpected

theorem keepsPairs_memLock {α : Type} {q : Lm α} (hq : KeepsPairs m depth q) :
    KeepsPairs m depth (memLock p q) :=
  (closed_keepsPairs hH).memLock (keepsPairs_act trivial) (keepsPairs_act trivial) hq

theorem keepsPairs_callPubsubCb (p : ℕ) (evts : List ℕ) :
    KeepsPairs m depth (callPubsubCb p evts) :=
  (closed_keepsPairs hH).callPubsubCb (keepsPairs_memLock hH) (fun _ _ => keepsPairs_act trivial)
    (fun _ _ => keepsPairs_notify hH (by simp) (by simp))

/-- What surrounds a hook. -/
theorem grants_optionalHook {R : ModState → HookLog → Prop} {req : ModHookReq}
    (hrun : ∀ y w log, modAt w.heap p = some y → Holds m R w log →
      (runHook p y.hook req).Grants (handler depth) (pairMonitor m) w log
        (fun _ => HookRests m))
    (hI : Holds m R w log) :
    (optionalHook p req).Grants (handler depth) (pairMonitor m) w log
      (fun _ => HookRests m) := by
  have hG := closed_keepsPairs hH
  have hcurr : KeepsState m depth (setCurrMod p (some p)) :=
    composed_keepsState.setCurrMod (fun _ _ => keepsState_act trivial)
  have hunlock : ∀ ret : ℤ, KeepsPairs m depth (do
      act (.unrefMod p)
      return ret) :=
    fun _ => hG.bind (keepsPairs_act trivial) (fun _ => hG.pure _)
  have hlock : KeepsState m depth (act (.refMod p)) := keepsState_act trivial
  unfold optionalHook memLock
  refine Prog.Grants.bind (hlock R w log hI) (fun _ w₁ log₁ h₁ => ?_)
  refine Prog.Grants.bind ?_ (fun ret w₂ log₂ h₂ => hunlock ret () w₂ log₂ h₂)
  refine Prog.Grants.bind (hcurr R w₁ log₁ h₁) (fun _ w₂ log₂ h₂ => ?_)
  refine Prog.Grants.bind (grants_derefMod_holds h₂) (fun y w₃ log₃ h₃ => ?_)
  refine Prog.Grants.bind (hrun y w₃ log₃ h₃.1 h₃.2) (fun b w₄ log₄ h₄ => ?_)
  exact hG.hookAnswer (fun _ _ => keepsPairs_act trivial) b () w₄ log₄ h₄

/-- Without the hook, the module is not one with both. -/
theorem rests_of_expected {y : Mod} {state : ModState} (hy : modAt w.heap p = some y)
    (hhook : ¬ y.Hooked) (hI : Holds m (Expected m p state) w log) : HookRests m w log := by
  intro x hx hhooked
  have hexpected := hI x hx hhooked
  rw [Expected, if_neg] at hexpected
  · exact hexpected
  · rintro rfl
    rw [hy] at hx
    obtain rfl := Option.some.inj hx
    exact hhook hhooked

theorem grants_startHook (hI : Holds m (Expected m p .running) w log) :
    (optionalHook p .start).Grants (handler depth) (pairMonitor m) w log
      (fun _ => HookRests m) := by
  refine grants_optionalHook hH (fun y w log hy hI => ?_) hI
  simp only [runHook]
  split
  next =>
    have hfits : FitsStart .running true := rfl
    refine grants_notify_expected hH (fun _ _ => rfl) ?_ hfits hI
    rintro (hh | hh)
    · exact Hook.onStart.inj hh
    · cases hh
  next hhook => exact Prog.Grants.pure (rests_of_expected hH hy (fun h => hhook h.1) hI)

theorem grants_stopHook (hI : Holds m (Expected m p .stopped) w log) :
    (optionalHook p .stop).Grants (handler depth) (pairMonitor m) w log
      (fun _ => HookRests m) := by
  refine grants_optionalHook hH (fun y w log hy hI => ?_) hI
  simp only [runHook]
  split
  next =>
    have hfits : FitsStart .stopped false := rfl
    refine Prog.Grants.bind (grants_notify_expected hH (fun _ _ => rfl) ?_ hfits hI)
      (fun _ _ _ h => Prog.Grants.pure h)
    rintro (hh | hh)
    · cases hh
    · exact Hook.onStop.inj hh
  next hhook => exact Prog.Grants.pure (rests_of_expected hH hy (fun h => hhook h.2) hI)

theorem keepsPairs_evalHook (p : ℕ) : KeepsPairs m depth (optionalHook p .eval) := by
  intro _ w log hI
  refine grants_optionalHook hH (fun y w log _ hI => ?_) hI
  simp only [runHook]
  split
  next => exact keepsPairs_notify hH (by simp) (by simp) () w log hI
  next => exact Prog.Grants.pure hI

end Callbacks

/-! ## Starting and stopping -/

/-- `p` has been started. -/
def StartedAt (m p : ℕ) (s : ModState) (log : HookLog) : Prop :=
  FitsStart s log.started ∧ (p = m → log.started = true)

section Lifecycle

variable {m p depth : ℕ} {w : World} {log : HookLog}
  (hH : (machine.handler depth).Maintains (pairMonitor m) (fun (_ : Unit) => HookRests m)
    (fun _ _ => HookRests m))

theorem expected_of_fits {state s : ModState} (h : FitsStart s log.started) :
    Expected m p state (if p = m then state else s)
      (if p = m then { log with found := s } else log) := by
  unfold Expected
  split
  next => exact ⟨rfl, h⟩
  next => exact h

theorem fits_of_startedAt {state s : ModState} (hstate : FitsStart state true)
    (h : StartedAt m p s log) : FitsStart (if p = m then state else s)
      (if p = m then { log with found := s } else log).started := by
  split
  next hpm =>
    show FitsStart state log.started
    rw [h.2 hpm]
    exact hstate
  next => exact h.1

theorem rests_of_startedAt (h : Holds m (StartedAt m p) w log) : HookRests m w log :=
  fun x hx hhooked => (h x hx hhooked).1

include hH

theorem keepsPairs_registerModSrc (mod : Option ℕ) (type : MSrcType) (key : Words) (flags : ℕ)
    (userptr : Userptr) : KeepsPairs m depth (registerModSrc mod type key flags userptr) :=
  (closed_keepsPairs hH).registerModSrc (fun _ _ => keepsPairs_act trivial)
    (fun _ _ => keepsPairs_act trivial)

theorem keepsPairs_initPubsubFd (p : ℕ) : KeepsPairs m depth (initPubsubFd p) := by
  have hG := closed_keepsPairs hH
  have herrno : KeepsPairs m depth (do return -(← getErrno)) :=
    hG.bind hG.getErrno (fun _ => hG.pure _)
  refine hG.bind (keepsPairs_act trivial) (fun ret => ?_)
  split
  next =>
    refine hG.bind (hG.derefMod p) (fun x => ?_)
    refine hG.bind (keepsPairs_registerModSrc hH _ _ _ _ _) (fun ret => ?_)
    split
    next => exact hG.pure _
    next =>
      refine hG.bind (keepsPairs_act trivial) (fun _ => hG.bind (keepsPairs_act trivial)
        (fun _ => ?_))
      exact hG.bind (keepsPairs_act trivial) (fun _ => herrno)
  next => exact herrno

/-- What follows the hook of `stop`. -/
theorem keepsPairs_tellStopped (c p : ℕ) (ret : ℤ) : KeepsPairs m depth (do
    if ret = -ENOENT then return ret
    let _ ← tellSystemPubsubMsg none c (some p) M_PS_MOD_STOPPED
    return 0) := by
  have hG := closed_keepsPairs hH
  split
  next => exact hG.pure _
  next => exact hG.bind (hG.tellSystemPubsubMsg _ _ _ _) (fun _ => hG.pure _)

theorem keepsPairs_stop (p : ℕ) : KeepsPairs m depth (stop p true) := by
  have hG := closed_keepsPairs hH
  refine hG.bind (hG.derefMod p) (fun x => hG.bind ?_ (fun ret => ?_))
  · exact hG.manageSrcs (fun _ => hG.manageTree (fun _ _ => keepsPairs_act trivial)
      (fun _ _ => keepsPairs_act trivial) (fun _ _ => keepsPairs_callPubsubCb hH p)) _ _
  · split
    next => exact hG.pure _
    next =>
      intro _ w log hI
      have hmark : (act (.markStopped p true)).Grants (handler depth) (pairMonitor m) w log
          (fun _ => Holds m (Expected m p .stopped)) :=
        (marks_markStopped true).grants (fun _ _ => expected_of_fits) hI
      refine Prog.Grants.bind hmark (fun _ w₁ log₁ h₁ => ?_)
      rw [if_pos rfl]
      refine Prog.Grants.bind (keepsState_resetModule _ w₁ log₁ h₁) (fun _ w₂ log₂ h₂ => ?_)
      refine Prog.Grants.bind (grants_stopHook hH h₂) (fun ret w₃ log₃ h₃ => ?_)
      exact keepsPairs_tellStopped hH x.ctx p ret () w₃ log₃ h₃

/-- What follows the hook of `start`. -/
theorem keepsPairs_tellStarted (c p : ℕ) (ret : ℤ) : KeepsPairs m depth (do
    if ret = 0 then
      let _ ← tellSystemPubsubMsg none c (some p) M_PS_MOD_STARTED
      return ret
    if ret = -1 then
      let _ ← stop p true
      return 0
    return ret) := by
  have hG := closed_keepsPairs hH
  split
  next => exact hG.bind (hG.tellSystemPubsubMsg _ _ _ _) (fun _ => hG.pure _)
  next =>
    split
    next => exact hG.bind (keepsPairs_stop hH p) (fun _ => hG.pure _)
    next => exact hG.pure _

theorem keepsPairs_start (p : ℕ) : KeepsPairs m depth (start p true) := by
  have hG := closed_keepsPairs hH
  unfold start
  rw [if_pos rfl]
  refine hG.bind (keepsPairs_initPubsubFd hH p) (fun ret => ?_)
  dsimp only
  split
  next => exact hG.pure _
  next =>
    refine hG.bind (hG.derefMod p) (fun x => ?_)
    refine hG.bind (fun _ => keepsState_manageSrcs _) (fun ret => ?_)
    split
    next => exact hG.pure _
    next =>
      intro _ w log hI
      have hmark : (act (.markRunning p)).Grants (handler depth) (pairMonitor m) w log
          (fun _ => Holds m (Expected m p .running)) :=
        marks_markRunning.grants (fun _ _ => expected_of_fits) hI
      refine Prog.Grants.bind hmark (fun _ w₁ log₁ h₁ => ?_)
      rw [if_pos rfl]
      refine Prog.Grants.bind (grants_startHook hH h₁) (fun ret w₂ log₂ h₂ => ?_)
      exact keepsPairs_tellStarted hH x.ctx p ret () w₂ log₂ h₂

/-- Pausing and resuming find a module that has been started. -/
theorem keepsPairs_ofStarted {mod : Option ℕ} {state : ModState} {rest : ℕ → Lm ℤ}
    (hstate : state = .running ∨ state = .paused)
    (hrest : ∀ p w log, Holds m (StartedAt m p) w log →
      (rest p).Grants (handler depth) (pairMonitor m) w log (fun _ => HookRests m)) :
    KeepsPairs m depth (modAssertState mod [state] fun p => consumeToken p (rest p)) := by
  have hS : Composed (KeepsState m depth) := composed_keepsState
  refine (closed_keepsPairs hH).modAssert (fun p => ?_)
  intro _ w log hI
  refine Prog.Grants.bind (grants_derefMod_holds hI) (fun y w₁ log₁ h₁ => ?_)
  split
  next => exact Prog.Grants.pure h₁.2
  next hin =>
    have hy : y.state = state := by simpa using hin
    have hstarted : Holds m (StartedAt m p) w₁ log₁ := by
      refine fun x hx hhooked => ⟨h₁.2 x hx hhooked, fun hpm => ?_⟩
      have hfits := h₁.2 x hx hhooked
      subst hpm
      obtain rfl := Option.some.inj (h₁.1.symm.trans hx)
      rw [hy] at hfits
      rcases hstate with rfl | rfl
      · exact hfits
      · exact hfits
    refine Prog.Grants.bind (hS.derefMod p _ w₁ log₁ hstarted) (fun x w₂ log₂ h₂ => ?_)
    split
    next => exact Prog.Grants.pure (rests_of_startedAt h₂)
    next =>
      have htoken : KeepsState m depth (act (.setMod p (.tbTokens (x.tbTokens - 1)))) :=
        keepsState_act trivial
      exact Prog.Grants.bind (htoken _ w₂ log₂ h₂) (fun _ w₃ log₃ h₃ => hrest p w₃ log₃ h₃)

end Lifecycle

/-! ## All functions -/

section Functions

variable {m depth : ℕ}
  (hH : (machine.handler depth).Maintains (pairMonitor m) (fun (_ : Unit) => HookRests m)
    (fun _ _ => HookRests m))

include hH

theorem keepsPairs_mModPause (mod : Option ℕ) : KeepsPairs m depth (mModPause mod) := by
  refine keepsPairs_ofStarted hH (.inl rfl) (fun p w log hI => ?_)
  have hstop : (stop p false).Grants (handler depth) (pairMonitor m) w log
      (fun _ => HookRests m) := by
    refine Prog.Grants.bind (grants_derefMod_holds hI) (fun x w₁ log₁ h₁ => ?_)
    refine Prog.Grants.bind (keepsState_manageSrcs _ w₁ log₁ h₁.2) (fun ret w₂ log₂ h₂ => ?_)
    split
    next => exact Prog.Grants.pure (rests_of_startedAt h₂)
    next =>
      have hmark : (act (.markStopped p false)).Grants (handler depth) (pairMonitor m) w₂ log₂
          (fun _ => HookRests m) :=
        (marks_markStopped false).grants (fun _ _ => fits_of_startedAt rfl) h₂
      refine Prog.Grants.bind hmark (fun _ w₃ log₃ h₃ => ?_)
      rw [if_neg (by decide)]
      exact keepsPairs_tellStopped hH x.ctx p ret () w₃ log₃ h₃
  refine Prog.Grants.bind hstop (fun ret w' log' h => ?_)
  exact (closed_keepsPairs hH).passOn .mModPause p ret () w' log' h

theorem keepsPairs_mModResume (mod : Option ℕ) : KeepsPairs m depth (mModResume mod) := by
  refine keepsPairs_ofStarted hH (.inr rfl) (fun p w log hI => ?_)
  have hstart : (start p false).Grants (handler depth) (pairMonitor m) w log
      (fun _ => HookRests m) := by
    unfold start
    rw [if_neg (by decide)]
    refine Prog.Grants.bind (composed_keepsState.pure 0 _ w log hI) (fun ret w₁ log₁ h₁ => ?_)
    dsimp only
    split
    next => exact Prog.Grants.pure (rests_of_startedAt h₁)
    next =>
      refine Prog.Grants.bind (grants_derefMod_holds h₁) (fun x w₂ log₂ h₂ => ?_)
      refine Prog.Grants.bind (keepsState_manageSrcs _ w₂ log₂ h₂.2) (fun ret w₃ log₃ h₃ => ?_)
      split
      next => exact Prog.Grants.pure (rests_of_startedAt h₃)
      next =>
        have hmark : (act (.markRunning p)).Grants (handler depth) (pairMonitor m) w₃ log₃
            (fun _ => HookRests m) :=
          marks_markRunning.grants (fun _ _ => fits_of_startedAt rfl) h₃
        refine Prog.Grants.bind hmark (fun _ w₄ log₄ h₄ => ?_)
        rw [if_neg (by decide)]
        exact keepsPairs_tellStarted hH x.ctx p ret () w₄ log₄ h₄
  refine Prog.Grants.bind hstart (fun ret w' log' h => ?_)
  exact (closed_keepsPairs hH).passOn .mModResume p ret () w' log' h

theorem keepsPairs_setTickEvt (c : ℕ) (flag : OpType) :
    KeepsPairs m depth (setTickEvt c flag) :=
  (closed_keepsPairs hH).setTickEvt (fun _ _ => keepsPairs_act trivial)

theorem keepsPairs_loopStart (c maxEvents : ℕ) : KeepsPairs m depth (loopStart c maxEvents) := by
  have hG := closed_keepsPairs hH
  refine hG.bind (keepsPairs_act trivial) (fun _ => hG.bind (keepsPairs_act trivial) (fun _ => ?_))
  refine hG.bind (keepsPairs_act trivial) (fun _ => hG.bind (keepsPairs_act trivial) (fun _ => ?_))
  refine hG.bind (hG.invoke _) (fun _ => hG.bind (hG.tellSystemPubsubMsg _ _ _ _) (fun _ => ?_))
  exact hG.bind (keepsPairs_setTickEvt hH c .add) (fun _ => hG.pure _)

theorem keepsPairs_loopStop (c : ℕ) : KeepsPairs m depth (loopStop c) := by
  have hG := closed_keepsPairs hH
  refine hG.bind (keepsPairs_act trivial) (fun _ => hG.bind (hG.tellSystemPubsubMsg _ _ _ _)
    (fun _ => ?_))
  refine hG.bind (hG.invoke _) (fun _ => hG.bind (keepsPairs_setTickEvt hH c .rm) (fun _ => ?_))
  refine hG.bind (keepsPairs_act trivial) (fun _ => hG.bind (hG.derefCtx c) (fun x => ?_))
  exact Closed.ite (fun _ => hG.bind (hG.invoke _) (fun _ => hG.pure _)) (fun _ => hG.pure _)

theorem keepsPairs_mCtxSetTick (ns : ℕ) : KeepsPairs m depth (mCtxSetTick ns) := by
  have hG := closed_keepsPairs hH
  refine hG.ctxAssert (fun c => hG.bind (keepsPairs_setTickEvt hH c .rm) (fun _ => ?_))
  refine hG.bind (keepsPairs_act trivial) (fun _ => Closed.ite (fun _ => ?_) (fun _ => hG.pure _))
  refine hG.bind (keepsPairs_act trivial) (fun _ => hG.bind (hG.derefCtx c) (fun x => ?_))
  exact Closed.ite (fun _ => hG.bind (keepsPairs_setTickEvt hH c .add) (fun _ => hG.pure _))
    (fun _ => hG.pure _)

theorem keepsPairs_modDeregister (mod : Option ℕ) (fromUser : Bool) :
    KeepsPairs m depth (modDeregister mod fromUser) :=
  (closed_keepsPairs hH).modDeregister (keepsPairs_memLock hH) (fun _ _ => keepsPairs_act trivial)
    (keepsPairs_stop hH) (fun _ => keepsPairs_markZombie) (fun _ _ => keepsPairs_act trivial)

theorem keepsPairs_mModRegister (name : String) (modRef : Bool) (hook : Option ModHooks)
    (flags : ℕ) : KeepsPairs m depth (mModRegister name modRef hook flags) := by
  have hG := closed_keepsPairs hH
  refine hG.mModRegister (fun p => keepsPairs_modDeregister hH (some p) false) (fun c hooks => ?_)
  refine hG.bind keepsPairs_newMod (fun r => ?_)
  refine Closed.ite (fun _ => hG.pure _) (fun _ => ?_)
  exact Closed.ite (fun _ => hG.bind (keepsPairs_act trivial) (fun _ => hG.pure _))
    (fun _ => hG.pure _)

theorem parts_keepsPairs : Parts (KeepsPairs m depth) := by
  have hG := closed_keepsPairs hH
  have hderegister : ∀ mod type key, KeepsPairs m depth (deregisterModSrc mod type key) :=
    fun _ _ _ => hG.deregisterModSrc (fun _ => keepsPairs_act trivial)
  exact
    { callPubsubCb := keepsPairs_callPubsubCb hH
      pushEvt := fun p e => hG.pushEvt (fun _ => keepsPairs_act trivial) (keepsPairs_act trivial)
        (hG.bind (keepsPairs_act trivial) (keepsPairs_callPubsubCb hH p))
      evalHook := keepsPairs_evalHook hH
      start := keepsPairs_start hH
      stop := keepsPairs_stop hH
      removeOneshot := fun _ _ => hG.removeOneshot (fun _ _ => keepsPairs_act trivial)
      loopStart := keepsPairs_loopStart hH
      loopStop := keepsPairs_loopStop hH
      mCtxRegister := fun _ _ => hG.mCtxRegister (hG.bind (keepsPairs_act trivial)
        (fun _ => hG.bind (keepsPairs_act trivial) (fun _ => hG.pure _)))
      mCtxDeregister := hG.mCtxDeregister (fun _ => hG.bind (keepsPairs_act trivial)
        (fun _ => hG.bind (hG.invoke _) (fun _ => hG.bind (keepsPairs_act trivial)
          (fun _ => hG.pure _))))
      mCtxSetTick := keepsPairs_mCtxSetTick hH
      mModRegister := keepsPairs_mModRegister hH
      modDeregister := keepsPairs_modDeregister hH
      mModPause := keepsPairs_mModPause hH
      mModResume := keepsPairs_mModResume hH
      mModSetTokenbucket := fun _ _ _ => hG.mModSetTokenbucket
        (fun _ _ _ _ => keepsPairs_act trivial) (keepsPairs_registerModSrc hH) hderegister
      mModSetBatchTimeout := fun _ _ => hG.mModSetBatchTimeout (fun _ _ => keepsPairs_act trivial)
        (keepsPairs_registerModSrc hH) hderegister
      mModPsSubscribe := fun _ _ _ _ => hG.mModPsSubscribe (fun _ _ => keepsPairs_act trivial)
      modSrcRegister := fun _ _ _ _ _ => hG.modSrcRegister (keepsPairs_registerModSrc hH _ _ _ _ _)
      modSrcDeregister := fun _ _ _ => hG.modSrcDeregister (hderegister _ _ _) }

end Functions

theorem maintains_pairs (m depth : ℕ) : (machine.handler depth).Maintains (pairMonitor m)
    (fun (_ : Unit) => HookRests m) (fun _ _ => HookRests m) := by
  apply machine.maintains
  · intro _ h w log hI x hx
    have hheap : (World.react h w).2.2.heap = w.heap := World.react_heap h w
    have hx' : modAt (World.react h w).2.2.heap m = some x := hx
    rw [hheap] at hx'
    exact hI x hx'
  · exact fun _ hH i c w log hI =>
      Parts.body (closed_keepsPairs hH) (parts_keepsPairs hH) c i w log hI

/-- In every run, when a hook of a module that has both is called by a start or stop that found it
running or paused, `on_start` has been called since `on_stop` was; when it found it idle or
stopped, it has not.  The same holds of the state of the module between any two calls. -/
theorem hookPairs_runCalls (host : Host) (script : List Reaction) (polls : List PollAnswer)
    (faults : List ℤ) (depth : ℕ) (calls : List Call) (m : ℕ) :
    let out := machine.runCalls depth calls (World.initial host script polls faults)
    Along (hookNext m) (HookStep m) .empty out.steps ∧
      (out.value = some () → HookRests m out.state (out.steps.foldl (hookNext m) .empty)) := by
  have hinitial : HookRests m (World.initial host script polls faults) .empty := by
    intro x hx
    exact absurd (modAt_lt_length hx) (by simp [World.initial])
  obtain ⟨halong, hends⟩ := (maintains_pairs m depth).runCalls () calls hinitial
    (along_of_forall (fun _ _ _ => trivial))
  exact ⟨halong, fun hvalue => hends () _ ⟨hvalue, rfl⟩⟩

end Libmodule
