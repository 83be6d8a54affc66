import Libmodule.Advancing
import Libmodule.Procedures

/-!
# Modules bound to a module that stops

`m_mod_stop` goes on to the modules bound to its module, but it does so after the module
has been reset, which empties their list.  Only a module that is bound to itself follows.
-/

namespace Libmodule

open RefHeap Reentrant

/-- The module `b` is bound to `ref`, runs or is paused, and has a token. -/
def Follows (w : World) (ref b : ℕ) : Prop :=
  ∃ x y, modAt w.heap ref = some x ∧ b ∈ x.boundMods ∧ modAt w.heap b = some y ∧
    y.state ∈ [.running, .paused] ∧ y.tbTokens ≠ 0

/-- The module is stopped in the run. -/
def StopsMod {α : Type} (x : Out LibLang World α) (b : ℕ) : Prop :=
  ∃ step ∈ x.steps, step.act = .op (.markStopped b true)

/-- The call stops all modules that should follow. -/
def StopsBound (depth : ℕ) (w : World) (ref : ℕ) : Prop :=
  ∀ b, Follows w ref b → StopsMod ((mModStop (some ref)).run (handler depth) w) b

/-- A callback calls nothing. -/
def CallsNothing (step : Step LibLang World) : Prop :=
  ∀ h, step.act = .hook h → (World.react h step.before).1 = []

/-! ## The module itself -/

section Itself

variable {α β : Type} {depth b m : ℕ} {w v : World} {p q : Lm α} {f : α → Lm β}

theorem StopsMod.bind_left (h : StopsMod (p.run (handler depth) w) b) :
    StopsMod ((p >>= f).run (handler depth) w) b := by
  obtain ⟨step, hstep, hact⟩ := h
  refine ⟨step, ?_, hact⟩
  rw [Prog.run_bind, Out.bind]
  cases (p.run (handler depth) w).value with
  | none => exact hstep
  | some a => exact List.mem_append_left _ hstep

theorem StopsMod.bind_right {a : α} (hp : p.Ends (handler depth) w a v)
    (h : StopsMod ((f a).run (handler depth) v) b) :
    StopsMod ((p >>= f).run (handler depth) w) b := by
  obtain ⟨step, hstep, hact⟩ := h
  refine ⟨step, ?_, hact⟩
  rw [Prog.steps_bind hp]
  exact List.mem_append_right _ hstep

theorem StopsMod.goesOn (hgoes : GoesOn depth p w q v) (h : StopsMod (q.run (handler depth) v) b) :
    StopsMod (p.run (handler depth) w) b := by
  obtain ⟨step, hstep, hact⟩ := h
  exact ⟨step, hgoes.mem_steps hstep, hact⟩

theorem stops_markStopped : StopsMod ((act (.markStopped b true)).run (handler depth) w) b := by
  refine ⟨⟨.op (.markStopped b true), w⟩, ?_, rfl⟩
  rw [act, Prog.run_perform]
  cases (handler depth).exec (.markStopped b true) w <;> simp

/-- What stops successfully is stopped. -/
theorem stops_of_stop (h : (stop m true).Ends (handler depth) w 0 v) :
    StopsMod ((stop m true).run (handler depth) w) m := by
  unfold stop at h ⊢
  rw [Prog.ends_bind] at h
  obtain ⟨x, u, hx, h⟩ := h
  rw [Prog.ends_bind] at h
  obtain ⟨ret, u', hmanage, h⟩ := h
  refine .bind_right hx (.bind_right hmanage ?_)
  split at h
  next hret => exact absurd (Prog.ends_pure.mp h).1.symm hret
  next hret =>
    rw [if_neg hret]
    exact stops_markStopped.bind_left

/-- A call that succeeds stops its module. -/
theorem stops_of_mModStop (h : (mModStop (some m)).Ends (handler depth) w 0 v) :
    StopsMod ((mModStop (some m)).run (handler depth) w) m := by
  unfold mModStop at h ⊢
  obtain ⟨m', x, hm, -, -, hassert⟩ := modAssertState_goesOn_of_ends (Int.le_refl 0) h
  cases hm
  obtain ⟨y, -, -, htoken⟩ := consumeToken_goesOn_of_ends (Int.le_refl 0) (hassert.ends_iff.mp h)
  apply StopsMod.goesOn (hassert.trans htoken)
  have hrest := (hassert.trans htoken).ends_iff.mp h
  rw [Prog.ends_bind] at hrest
  obtain ⟨ret, u, hstop, hrest⟩ := hrest
  have hret : ret = 0 := by
    by_contra hne
    rw [if_neg hne] at hrest
    exact hne (Prog.ends_pure.mp hrest).1.symm
  rw [hret] at hstop
  exact (stops_of_stop hstop).bind_left

end Itself

/-! ## Other modules -/

/-- Of all modules only `ref` is stopped, if callbacks call nothing. -/
def onlyStops (ref : ℕ) : Monitor LibLang World Unit where
  next := fun _ _ => ()
  assumed := fun _ => CallsNothing
  shown := fun _ step => ∀ b, step.act = .op (.markStopped b true) → b = ref

def NothingBound (w : World) (ref : ℕ) : Prop :=
  ∀ x, modAt w.heap ref = some x → x.boundMods = []

/-- Once the module has been reset, nothing is bound to it. -/
def Emptied (ref : ℕ) (isReset : Bool) (w : World) (_ : Unit) : Prop :=
  isReset = true → NothingBound w ref

section Others

variable {depth ref : ℕ} {w w' : World} {o : Op} {r : o.Resp}

theorem nothingBound_of_exec (hbind : ∀ p, o ≠ .bind p ref) (hnone : NothingBound w ref)
    (h : o.exec w = some (r, w')) : NothingBound w' ref := by
  intro x' hx'
  rcases (Op.effect h).mods ref x' hx' with ⟨x, hx, hon⟩ | ⟨-, c, name, flags, hook, -, hnew⟩
  · have hempty := hnone x hx
    cases o
    case bind p m =>
      have hm : m ≠ ref := by
        rintro rfl
        exact hbind p rfl
      rw [Op.OnMod, if_neg hm] at hon
      rw [hon, hempty]
    case setMod m field =>
      rw [Op.OnMod] at hon
      split at hon
      next => cases field <;> rw [hon] <;> exact hempty
      next => rw [hon, hempty]
    case clear m queue =>
      rw [Op.OnMod] at hon
      split at hon
      next => cases queue <;> rw [hon] <;> first | exact hempty | rfl
      next => rw [hon, hempty]
    case subscriptionsPut | subscriptionsRemove | addSrc | bstRemove | bstItrRemove =>
      obtain ⟨-, _, rfl⟩ := hon
      exact hempty
    case pipe =>
      obtain ⟨-, _, _, rfl⟩ := hon
      exact hempty
    case markRunning | markStopped | markZombie | enqueueBatch | takeBatch | stash | unstash =>
      rw [Op.OnMod] at hon
      split at hon <;> rw [hon] <;> exact hempty
    all_goals
      have hsame : x' = x := hon
      rw [hsame, hempty]
  · obtain ⟨state, -, rfl⟩ := hnew
    rfl

theorem kept_emptied (hbind : ∀ p, o ≠ .bind p ref)
    (hstop : ∀ b, o = .markStopped b true → b = ref) : o.Kept (onlyStops ref) (Emptied ref) := by
  intro isReset w g hempty _
  refine ⟨?_, fun r w' hexec hreset => nothingBound_of_exec hbind (hempty hreset) hexec⟩
  intro b hb
  exact hstop b (by simpa using hb)

theorem kept_of_common (ho : o.Common) : o.Kept (onlyStops ref) (Emptied ref) := by
  apply kept_emptied
  · rintro p rfl
    exact ho
  · rintro b rfl
    exact ho.elim

theorem composed_emptied : Composed (Respects depth (onlyStops ref) (Emptied ref)) :=
  composed_respects (by rintro _ _ _ _ _ ⟨⟩) (fun _ ho => kept_of_common ho)

/-- A callback that calls nothing does nothing. -/
theorem respects_emptied_notify (h : Hook) :
    Respects depth (onlyStops ref) (Emptied ref) (notify h) := by
  intro isReset w g hempty
  apply Prog.Grants.notify
  intro hcalls
  refine ⟨by rintro _ ⟨⟩, ?_⟩
  cases depth with
  | zero => exact Out.Grants.stopped
  | succ depth =>
      show ((Out.sequence (machine.handler depth).onCall (World.react h w).1
        (World.react h w).2.2).bind (fun _ s => Out.done (World.react h w).2.1 s)).Grants
          (onlyStops ref) () (fun _ => Emptied ref isReset)
      rw [hcalls h rfl]
      have hkept : Emptied ref isReset (World.react h w).2.2 () := by
        intro hreset
        rw [NothingBound, World.react_heap]
        exact hempty hreset
      exact Out.Grants.done hkept

theorem respects_emptied_act (hbind : ∀ p, o ≠ .bind p ref)
    (hstop : ∀ b, o = .markStopped b true → b = ref) :
    Respects depth (onlyStops ref) (Emptied ref) (act o) :=
  respects_act (kept_emptied hbind hstop)

theorem respects_emptied_lock {α : Type} {m : ℕ} {p : Lm α}
    (hp : Respects depth (onlyStops ref) (Emptied ref) p) :
    Respects depth (onlyStops ref) (Emptied ref) (memLock m p) :=
  composed_emptied.memLock (respects_emptied_act (by rintro _ ⟨⟩) (by rintro _ ⟨⟩))
    (respects_emptied_act (by rintro _ ⟨⟩) (by rintro _ ⟨⟩)) hp

theorem respects_emptied_manageSrcs {m c : ℕ} :
    Respects depth (onlyStops ref) (Emptied ref) (manageSrcs m c .rm true MSrcType.all 0) := by
  refine composed_emptied.manageSrcs (fun type => composed_emptied.manageTree ?_ ?_ ?_) _ _
  · exact fun _ _ => respects_emptied_act (by rintro _ ⟨⟩) (by rintro _ ⟨⟩)
  · exact fun _ _ => respects_emptied_act (by rintro _ ⟨⟩) (by rintro _ ⟨⟩)
  · exact fun _ _ _ => composed_emptied.callPubsubCb respects_emptied_lock
      (fun _ _ => respects_emptied_act (by rintro _ ⟨⟩) (by rintro _ ⟨⟩))
      (fun _ _ => respects_emptied_notify _)

theorem respects_emptied_stopHook {m : ℕ} :
    Respects depth (onlyStops ref) (Emptied ref) (optionalHook m .stop) :=
  composed_emptied.optionalHook respects_emptied_lock
    (fun _ _ => respects_emptied_act (by rintro _ ⟨⟩) (by rintro _ ⟨⟩)) respects_emptied_notify

theorem grants_clear_boundMods :
    (act (.clear ref .boundMods)).Grants (handler depth) (onlyStops ref) w ()
      (fun _ => Emptied ref true) := by
  refine grants_act (fun _ => ⟨by rintro _ ⟨⟩, fun r w' hexec _ x' hx' => ?_⟩)
  rcases (Op.effect hexec).mods ref x' hx' with ⟨x, -, hon⟩ | ⟨-, _, _, _, _, hnew, -⟩
  · rw [Op.OnMod, if_pos rfl] at hon
    rw [hon]
    rfl
  · cases hnew

/-- After a module has been reset nothing is bound to it. -/
theorem grants_resetModule :
    (resetModule ref).Grants (handler depth) (onlyStops ref) w () (fun _ => Emptied ref true) := by
  have hG := @composed_emptied depth ref
  have hact : ∀ o : Op, (∀ p, o ≠ .bind p ref) → (∀ b, o = .markStopped b true → b = ref) →
      Respects depth (onlyStops ref) (Emptied ref) (act o) := fun _ => respects_emptied_act
  have hrest : ∀ w, (do
      act (.clear ref .subscriptions)
      act (.setMod ref (.recvs []))
      act (.clear ref .stashed)
      act (.clear ref .batchEvents)
      act (.clear ref .boundMods)
      act (.setMod ref (.batchLen 0))
      act (.setMod ref (.batchTimer 0))
      act (.setMod ref (.tb 0 UINT64_MAX UINT64_MAX 0))).Grants (handler depth) (onlyStops ref)
        w () (fun _ => Emptied ref true) := by
    intro w
    have hbefore : Emptied ref false w () := by rintro ⟨⟩
    refine (hact _ (by rintro _ ⟨⟩) (by rintro _ ⟨⟩) false w () hbefore).bind (fun _ w _ h => ?_)
    refine (hact _ (by rintro _ ⟨⟩) (by rintro _ ⟨⟩) false w () h).bind (fun _ w _ h => ?_)
    refine (hact _ (by rintro _ ⟨⟩) (by rintro _ ⟨⟩) false w () h).bind (fun _ w _ h => ?_)
    refine (hact _ (by rintro _ ⟨⟩) (by rintro _ ⟨⟩) false w () h).bind (fun _ w _ _ => ?_)
    -- here the list of bound modules is emptied
    refine grants_clear_boundMods.bind (fun _ w _ h => ?_)
    refine (hact _ (by rintro _ ⟨⟩) (by rintro _ ⟨⟩) true w () h).bind (fun _ w _ h => ?_)
    refine (hact _ (by rintro _ ⟨⟩) (by rintro _ ⟨⟩) true w () h).bind (fun _ w _ h => ?_)
    exact hact _ (by rintro _ ⟨⟩) (by rintro _ ⟨⟩) true w () h
  have hbefore : Emptied ref false w () := by rintro ⟨⟩
  refine (hG.derefMod ref false w () hbefore).bind (fun x w _ h => ?_)
  split
  next =>
    refine (hact _ (by rintro _ ⟨⟩) (by rintro _ ⟨⟩) false w () h).bind (fun _ w _ h => ?_)
    refine (hact _ (by rintro _ ⟨⟩) (by rintro _ ⟨⟩) false w () h).bind (fun _ w _ _ => ?_)
    exact hrest w
  next => exact hrest w

/-- A module that is stopped has nothing bound to it, and takes no other module along. -/
theorem grants_stop :
    (stop ref true).Grants (handler depth) (onlyStops ref) w ()
      (fun ret v _ => ret = 0 → NothingBound v ref) := by
  have hG := @composed_emptied depth ref
  have hbefore : Emptied ref false w () := by rintro ⟨⟩
  refine (hG.derefMod ref false w () hbefore).bind (fun x w _ h => ?_)
  refine (respects_emptied_manageSrcs false w () h).bind (fun ret w _ h => ?_)
  split
  next hret => exact Prog.Grants.pure (fun hzero => absurd hzero hret)
  next =>
    have hmark : Respects depth (onlyStops ref) (Emptied ref) (act (.markStopped ref true)) :=
      respects_emptied_act (by rintro _ ⟨⟩) (by rintro _ ⟨⟩; rfl)
    refine (hmark false w () h).bind (fun _ w _ _ => ?_)
    rw [if_pos rfl]
    refine grants_resetModule.bind (fun _ w _ h => ?_)
    refine (respects_emptied_stopHook true w () h).bind (fun ret w _ h => ?_)
    dsimp only
    split
    next => exact Prog.Grants.pure (fun _ => h rfl)
    next =>
      refine (hG.tellSystemPubsubMsg _ _ _ _ true w () h).bind (fun _ w _ h => ?_)
      exact Prog.Grants.pure (fun _ => h rfl)

/-- There is no bound module left to go on to. -/
theorem grants_modBound (hnone : NothingBound w ref) :
    (invoke (.modBound .mModStop ref 0)).Grants (handler depth) (onlyStops ref) w ()
      (fun _ _ _ => True) := by
  apply Prog.Grants.invoke
  refine fun _ => ⟨by rintro _ ⟨⟩, ?_⟩
  cases depth with
  | zero => exact Out.Grants.stopped
  | succ depth =>
      show (modBound .mModStop ref 0).Grants (handler depth) (onlyStops ref) w () _
      have hread := (@composed_emptied depth ref).derefMod ref true w () (fun _ => hnone)
      refine hread.and_ends.bind (fun x v _ h => ?_)
      obtain ⟨hx, rfl⟩ := derefMod_ends.mp h.1
      rw [hnone x hx]
      exact Prog.Grants.pure trivial

theorem grants_mModStop :
    (mModStop (some ref)).Grants (handler depth) (onlyStops ref) w () (fun _ _ _ => True) := by
  have hG := @composed_emptied depth ref
  have hbefore : Emptied ref false w () := by rintro ⟨⟩
  have hstop : ∀ w, (do
      let ret ← stop ref true
      if ret = 0 then
        let _ ← invoke (.modBound .mModStop ref 0)
      return ret : Lm ℤ).Grants (handler depth) (onlyStops ref) w () (fun _ _ _ => True) := by
    intro w
    refine grants_stop.bind (fun ret w _ h => ?_)
    split
    next hret =>
      exact (grants_modBound (h hret)).bind (fun _ _ _ _ => Prog.Grants.pure trivial)
    next => exact Prog.Grants.pure trivial
  refine (hG.derefMod ref false w () hbefore).bind (fun x w _ h => ?_)
  split
  next => exact Prog.Grants.pure trivial
  next =>
    refine (hG.mCtx false w () h).bind (fun c w _ h => ?_)
    split
    next => exact Prog.Grants.pure trivial
    next =>
      refine (hG.derefMod ref false w () h).bind (fun y w _ h => ?_)
      split
      next => exact Prog.Grants.pure trivial
      next =>
        refine (hG.derefMod ref false w () h).bind (fun z w _ h => ?_)
        split
        next => exact Prog.Grants.pure trivial
        next =>
          have hpay := fun tokens => @respects_emptied_act depth ref
            (.setMod ref (.tbTokens tokens)) (by rintro _ ⟨⟩) (by rintro _ ⟨⟩)
          refine (hpay _ false w () h).bind ?_
          exact fun _ w _ _ => hstop w

/-- When callbacks call nothing, no other module is stopped. -/
theorem eq_of_stops
    (hcalls : ∀ step ∈ ((mModStop (some ref)).run (handler depth) w).steps, CallsNothing step)
    {b : ℕ} (h : StopsMod ((mModStop (some ref)).run (handler depth) w) b) : b = ref := by
  obtain ⟨step, hstep, hact⟩ := h
  have hshown := (@grants_mModStop depth ref w (along_iff_forall.mpr hcalls)).1
  exact along_iff_forall.mp hshown step hstep b hact

end Others

/-- Bound modules follow just when there is none besides the module itself, unless
callbacks stop them. -/
theorem stopsBound_iff {depth ref : ℕ} {w v : World}
    (hends : (mModStop (some ref)).Ends (handler depth) w 0 v) :
    ((∀ b, Follows w ref b → b = ref) → StopsBound depth w ref) ∧
      ((∀ step ∈ ((mModStop (some ref)).run (handler depth) w).steps, CallsNothing step) →
        StopsBound depth w ref → ∀ b, Follows w ref b → b = ref) := by
  constructor
  · intro hself b hb
    rw [hself b hb]
    exact stops_of_mModStop hends
  · intro hcalls hall b hb
    exact eq_of_stops hcalls (hall b hb)

/-! ## A module bound to another -/

def twoBound : World :=
  (machine.runCalls 4
    [.mCtxRegister "ctx" 0, .mModRegister "a" true (some onEvtOnly) 0,
      .mModRegister "b" true (some onEvtOnly) 0, .mModStart (some 1), .mModStart (some 2),
      .mModBind (some 2) (some 1)]
    (startFrom [] [])).state

def bindingMod : Mod := (modAt twoBound.heap 1).get (by decide +kernel)

def boundMod : Mod := (modAt twoBound.heap 2).get (by decide +kernel)

theorem stopsBound_twoBound :
    ((∀ b, Follows twoBound 1 b → b = 1) → StopsBound 4 twoBound 1) ∧
      ((∀ step ∈ ((mModStop (some 1)).run (handler 4) twoBound).steps, CallsNothing step) →
        StopsBound 4 twoBound 1 → ∀ b, Follows twoBound 1 b → b = 1) :=
  @stopsBound_iff 4 1 twoBound _ ⟨by decide +kernel, rfl⟩

/-- The module that is bound goes on running. -/
theorem not_stopsBound_twoBound :
    ¬ ∀ (depth ref : ℕ) (w v : World), (mModStop (some ref)).Ends (handler depth) w 0 v →
      StopsBound depth w ref := by
  intro hall
  have hscripts : (((mModStop (some 1)).run (handler 4) twoBound).steps.all
      fun step => step.before.script.isEmpty) = true := by decide +kernel
  have hcalls : ∀ step ∈ ((mModStop (some 1)).run (handler 4) twoBound).steps,
      CallsNothing step := by
    intro step hstep h _
    have hscript := List.isEmpty_iff.mp (List.all_eq_true.mp hscripts step hstep)
    rw [World.react, hscript]
  have hfollows : Follows twoBound 1 2 := by
    refine ⟨bindingMod, boundMod, (Option.some_get _).symm, ?_, (Option.some_get _).symm, ?_, ?_⟩
      <;> decide +kernel
  have hstops := hall 4 1 twoBound _ ⟨by decide +kernel, rfl⟩ 2 hfollows
  exact absurd (eq_of_stops hcalls hstops) (by decide)

end Libmodule
