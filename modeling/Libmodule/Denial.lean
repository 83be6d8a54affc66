import Libmodule.Procedures

/-!
# Modules that are denied the context

The flag `M_MOD_DENY_CTX` is checked for `curr_mod`, one field of the context that each
callback overwrites and clears.  So a denied module stays denied in its callback only
because nothing that it calls there gets as far as another callback: every public
function is refused, those of the module as well as those of the context.
-/

namespace Libmodule

open RefHeap Reentrant

/-- The module whose callback is called. -/
def Hook.mod : Hook → ℕ
  | .onEval m => m
  | .onStart m => m
  | .onStop m => m
  | .onEvt m _ _ => m

/-- A function of `module/ctx.h` or `module/mod.h`. -/
def Call.Public : Call → Prop
  | .setErrno _ => False
  | .iterate .. => False
  | .modBound .. => False
  | .loopRounds _ => False
  | _ => True

/-- What the user's code does: it calls public functions and sets `errno`. -/
def Call.FromUser (c : Call) : Prop := c.Public ∨ ∃ errno, c = .setErrno errno

/-- The module whose callback is in progress has no access to the context of the thread. -/
def World.Denied (w : World) : Prop :=
  ∃ c y m x, w.tls = some c ∧ ctxAt w.heap c = some y ∧ y.currMod = some m ∧
    modAt w.heap m = some x ∧ hasFlag x.flags M_MOD_DENY_CTX = true

def World.withErrno (w : World) (errno : ℤ) : World :=
  { w with sys := { w.sys with errno := errno } }

/-- The call does not succeed, and the world is as it was. -/
structure Refuses (w : World) (out : Out LibLang World ℤ) : Prop where
  state : out.state = w
  value : ∀ n, out.value = some n → n < 0

/-- From a callback of a denied module, whose context is that of the thread, nothing changes but
`errno`, and every call is refused, whatever has been called before it. -/
def DeniesCallback (step : Step LibLang World) : Prop :=
  ∀ h x, step.act = .hook h → modAt step.before.heap h.mod = some x →
    hasFlag x.flags M_MOD_DENY_CTX = true → step.before.tls = some x.ctx →
    ∀ (depth : ℕ) (calls : List Call), (∀ c ∈ calls, c.FromUser) →
      let start := (machine.react h step.before).2.2
      let out := Out.sequence (handler depth).onCall calls start
      (∃ errno, out.state = start.withErrno errno) ∧
        ∀ c : Call, c.Public → Refuses out.state ((handler depth).onCall c out.state)

/-! ## Refusals -/

section Refusals

variable {depth : ℕ} {w : World} {p : Lm ℤ} {n : ℤ}

abbrev Refused (depth : ℕ) (p : Lm ℤ) (w : World) : Prop := Refuses w (p.run (handler depth) w)

theorem refused_pure (hn : n < 0) : Refused depth (pure n) w where
  state := rfl
  value := by
    rintro _ ⟨⟩
    exact hn

theorem refused_bind {α : Type} {q : Lm α} {f : α → Lm ℤ}
    (hq : (q.run (handler depth) w).state = w)
    (hf : ∀ a, q.Ends (handler depth) w a w → Refused depth (f a) w) :
    Refused depth (q >>= f) w := by
  unfold Refused
  rw [Prog.run_bind, Out.bind]
  cases hvalue : (q.run (handler depth) w).value with
  | none => exact ⟨hq, by simp⟩
  | some a =>
      rw [hq]
      exact ⟨(hf a ⟨hvalue, hq⟩).state, (hf a ⟨hvalue, hq⟩).value⟩

theorem state_bind {α β : Type} {q : Lm α} {f : α → Lm β}
    (hq : (q.run (handler depth) w).state = w)
    (hf : ∀ a, ((f a).run (handler depth) w).state = w) :
    ((q >>= f).run (handler depth) w).state = w := by
  rw [Prog.run_bind, Out.bind]
  cases (q.run (handler depth) w).value with
  | none => exact hq
  | some a =>
      rw [hq]
      exact hf a

theorem getWorld_state : (getWorld.run (handler depth) w).state = w := by
  cases depth <;> rfl

theorem orHalt_state {α : Type} (x : Option α) :
    ((orHalt x).run (handler depth) w).state = w := by
  cases x <;> rfl

theorem derefMod_state (m : ℕ) : ((derefMod m).run (handler depth) w).state = w :=
  state_bind getWorld_state (fun _ => orHalt_state _)

theorem derefCtx_state (c : ℕ) : ((derefCtx c).run (handler depth) w).state = w :=
  state_bind getWorld_state (fun _ => orHalt_state _)

theorem mCtx_state : (mCtx.run (handler depth) w).state = w := by
  refine state_bind getWorld_state (fun v => ?_)
  cases v.tls with
  | none => rfl
  | some c =>
      refine state_bind (derefCtx_state c) (fun y => ?_)
      cases y.currMod with
      | none => rfl
      | some m => exact state_bind (derefMod_state m) (fun _ => rfl)

/-- `m_ctx()` finds no context for a denied module. -/
theorem World.Denied.mCtx_ends (hw : w.Denied) {c : Option ℕ}
    (h : mCtx.Ends (handler depth) w c w) : c = none := by
  obtain ⟨c', y, m, x, htls, hy, hcurr, hx, hdeny⟩ := hw
  simp only [mCtx, Prog.ends_bind, getWorld_ends] at h
  obtain ⟨_, _, ⟨rfl, rfl⟩, h⟩ := h
  simp only [htls, Prog.ends_bind, derefCtx_ends, hy, Option.some.injEq] at h
  obtain ⟨_, _, ⟨rfl, rfl⟩, h⟩ := h
  simp only [hcurr, Prog.ends_bind, derefMod_ends, hx, Option.some.injEq] at h
  obtain ⟨_, _, ⟨rfl, rfl⟩, h⟩ := h
  rw [if_pos hdeny] at h
  exact (Prog.ends_pure.mp h).1

variable (hw : w.Denied)

include hw

theorem refused_ctxAssert (rest : ℕ → Lm ℤ) : Refused depth (ctxAssert rest) w := by
  refine refused_bind mCtx_state (fun c hc => ?_)
  rw [hw.mCtx_ends hc]
  exact refused_pure (by decide)

theorem refused_modAssert (mod : Option ℕ) (rest : ℕ → Lm ℤ) :
    Refused depth (modAssert mod rest) w := by
  cases mod with
  | none => exact refused_pure (by decide)
  | some m =>
      refine refused_bind (derefMod_state m) (fun x _ => ?_)
      split
      next => exact refused_pure (by decide)
      next =>
        refine refused_bind mCtx_state (fun c hc => ?_)
        rw [hw.mCtx_ends hc]
        exact refused_pure (by decide)

theorem refused_modSrcRegister (mod : Option ℕ) (type : MSrcType) (key : Words) (flags : ℕ)
    (userptr : Userptr) : Refused depth (modSrcRegister mod type key flags userptr) w := by
  refine refused_bind getWorld_state (fun v _ => refused_bind (orHalt_state _) (fun ok _ => ?_))
  split
  next => exact refused_pure (by decide)
  next => exact refused_modAssert hw _ _

theorem refused_modSrcDeregister (mod : Option ℕ) (type : MSrcType) (key : Words) :
    Refused depth (modSrcDeregister mod type key) w := by
  unfold modSrcDeregister
  split
  next => exact refused_pure (by decide)
  next =>
    refine refused_bind getWorld_state (fun v _ => refused_bind (orHalt_state _) (fun ok _ => ?_))
    split
    next => exact refused_pure (by decide)
    next => exact refused_modAssert hw _ _

theorem refused_mModRegister (name : String) (modRef : Bool) (hook : Option ModHooks)
    (flags : ℕ) : Refused depth (mModRegister name modRef hook flags) w := by
  unfold mModRegister
  split
  next => exact refused_pure (by decide)
  next =>
    split
    next => exact refused_pure (by decide)
    next => exact refused_ctxAssert hw _

/-- A thread that has a context gets no other one. -/
theorem refused_mCtxRegister (name : String) (flags : ℕ) :
    Refused depth (mCtxRegister name flags) w := by
  unfold mCtxRegister
  split
  next => exact refused_pure (by decide)
  next =>
    refine refused_bind getWorld_state (fun v hv => ?_)
    obtain ⟨rfl, -⟩ := getWorld_ends.mp hv
    obtain ⟨c, _, _, _, htls, -⟩ := hw
    rw [if_pos (by simp [htls])]
    exact refused_pure (by decide)

/-- Every public function refuses a denied module. -/
theorem refused_body {c : Call} (hc : c.Public) : Refused depth (bodyOf c) w := by
  cases c with
  | mCtxRegister name flags => exact refused_mCtxRegister hw name flags
  | mCtxDeregister => exact refused_ctxAssert hw _
  | mCtxLoopEvents => exact refused_ctxAssert hw _
  | mCtxQuit => exact refused_ctxAssert hw _
  | mCtxDispatch => exact refused_ctxAssert hw _
  | mCtxFinalize => exact refused_ctxAssert hw _
  | mCtxSetTick => exact refused_ctxAssert hw _
  | mModRegister name modRef hook flags => exact refused_mModRegister hw name modRef hook flags
  | mModSrcRegister mod type key flags userptr =>
      exact refused_modSrcRegister hw mod type key flags _
  | mModSrcDeregister mod type key => exact refused_modSrcDeregister hw mod type key
  | setErrno => exact hc.elim
  | iterate => exact hc.elim
  | modBound => exact hc.elim
  | loopRounds => exact hc.elim
  | _ => exact refused_modAssert hw _ _

theorem refuses_onCall {c : Call} (hc : c.Public) : Refuses w ((handler depth).onCall c w) := by
  cases depth with
  | zero => exact ⟨rfl, by simp [Machine.onCall_zero, Out.stopped]⟩
  | succ depth => exact refused_body hw hc

end Refusals

/-! ## A whole callback -/

section Callback

variable {depth : ℕ} {w : World} {calls : List Call}

theorem World.Denied.withErrno (hw : w.Denied) (errno : ℤ) : (w.withErrno errno).Denied := hw

/-- One call of the user's code in a denied callback. -/
theorem onCall_state (hw : w.Denied) {c : Call} (hc : c.FromUser) :
    ∃ errno, ((handler depth).onCall c w).state = w.withErrno errno := by
  rcases hc with hc | ⟨errno, rfl⟩
  · exact ⟨w.sys.errno, (refuses_onCall hw hc).state⟩
  · cases depth with
    | zero => exact ⟨w.sys.errno, rfl⟩
    | succ depth => exact ⟨errno, by cases depth <;> rfl⟩

theorem sequence_state (hw : w.Denied) (hcalls : ∀ c ∈ calls, c.FromUser) :
    ∃ errno, (Out.sequence (handler depth).onCall calls w).state = w.withErrno errno := by
  induction calls generalizing w with
  | nil => exact ⟨w.sys.errno, rfl⟩
  | cons c calls ih =>
      obtain ⟨errno, hstate⟩ : ∃ errno, ((handler depth).onCall c w).state = w.withErrno errno :=
        onCall_state hw (hcalls c (by simp))
      rw [Out.sequence, Out.bind]
      cases ((handler depth).onCall c w).value with
      | none => exact ⟨errno, hstate⟩
      | some n =>
          rw [hstate]
          obtain ⟨errno', hrest⟩ := ih (hw.withErrno errno)
            (fun c' hc' => hcalls c' (List.mem_cons_of_mem c hc'))
          exact ⟨errno', hrest⟩

end Callback

/-! ## Callbacks -/

/-- The callback of a module is called while the context of the module has it as `curr_mod`. -/
def OnCurrMod (step : Step LibLang World) : Prop :=
  ∀ h x, step.act = .hook h → modAt step.before.heap h.mod = some x →
    ∃ y, ctxAt step.before.heap x.ctx = some y ∧ y.currMod = some h.mod

def hookMonitor : Monitor LibLang World Unit where
  next := fun _ _ => ()
  assumed := fun _ _ => True
  shown := fun _ => OnCurrMod

/-- Nothing has to hold between callbacks. -/
abbrev CallsOnCurr (depth : ℕ) ⦃α : Type⦄ (p : Lm α) : Prop :=
  Respects depth hookMonitor (fun (_ : Unit) _ _ => True) p

section Hooks

variable {depth m : ℕ}

theorem onCurrMod_of_not_hook {act : Act LibLang} {w : World} (h : ∀ hook, act ≠ .hook hook) :
    OnCurrMod ⟨act, w⟩ := fun hook _ hact _ => absurd hact (h hook)

theorem callsOnCurr_act (o : Op) : CallsOnCurr depth (act o) :=
  respects_act (fun _ _ _ _ _ => ⟨onCurrMod_of_not_hook (by simp), fun _ _ _ => trivial⟩)

variable (hH : (machine.handler depth).Maintains hookMonitor (fun (_ : Unit) _ _ => True)
  (fun _ _ _ _ => True))

include hH

theorem closed_callsOnCurr : Closed (CallsOnCurr depth) :=
  closed_respects hH (fun _ _ _ _ => onCurrMod_of_not_hook (by simp))
    (fun _ _ _ _ _ _ _ => ⟨onCurrMod_of_not_hook (by simp), fun _ _ _ => trivial⟩)
    (fun _ _ _ _ _ _ => ⟨onCurrMod_of_not_hook (by simp), trivial⟩)

/-- The context of the module has it as `curr_mod`. -/
def CurrIs (m : ℕ) (w : World) : Prop :=
  ∀ x, modAt w.heap m = some x → ∃ y, ctxAt w.heap x.ctx = some y ∧ y.currMod = some m

theorem grants_derefMod_curr {w : World} (hw : CurrIs m w) :
    (derefMod m).Grants (handler depth) hookMonitor w () (fun _ w' _ => CurrIs m w') := by
  have hread := ((closed_callsOnCurr hH).derefMod m () w () trivial).and_ends
  refine Out.Grants.mono hread (fun x w' _ h => ?_)
  obtain ⟨-, rfl⟩ := derefMod_ends.mp h.1
  exact hw

/-- What follows the first assignment to `curr_mod`. -/
theorem callsOnCurr_setCurrMod {α : Type} {body : Lm α}
    (hbody : ∀ w, CurrIs m w →
      body.Grants (handler depth) hookMonitor w () (fun _ _ _ => True)) :
    CallsOnCurr depth (setCurrMod m (some m) >>= fun _ => body) := by
  intro _ w _ _
  have hread := ((closed_callsOnCurr hH).derefMod m () w () trivial).and_ends
  have hset : (setCurrMod m (some m)).Grants (handler depth) hookMonitor w ()
      (fun _ w' _ => CurrIs m w') := by
    refine Prog.Grants.bind hread (fun x v _ h => grants_act (fun _ => ?_))
    obtain ⟨hx, rfl⟩ := derefMod_ends.mp h.1
    refine ⟨onCurrMod_of_not_hook (by simp), fun _ w' hexec x' hx' => ?_⟩
    simp only [Op.exec, Option.map_eq_some_iff, Prod.mk.injEq] at hexec
    obtain ⟨u, hctx, -, rfl⟩ := hexec
    obtain ⟨⟨y, hy⟩, rfl⟩ := World.setCtx_eq_some.mp hctx
    rw [modAt_modify_ctx, hx] at hx'
    obtain rfl := Option.some.inj hx'
    exact ⟨CtxField.set y (.currMod (some m)), by rw [ctxAt_modify_ctx, if_pos rfl, hy]; rfl, rfl⟩
  exact Prog.Grants.bind hset (fun _ w' _ h => hbody w' h)

theorem grants_notify_curr {h : Hook} {w : World} (hw : CurrIs h.mod w) :
    (notify h).Grants (handler depth) hookMonitor w () (fun _ _ _ => True) := by
  apply Prog.Grants.notify
  intro _
  refine ⟨fun h' x hact hx => ?_, hH.onHook () h w () trivial⟩
  obtain rfl := Act.hook.inj hact
  exact hw x hx

theorem callsOnCurr_memLock {α : Type} {p : Lm α} (hp : CallsOnCurr depth p) :
    CallsOnCurr depth (memLock m p) :=
  (closed_callsOnCurr hH).memLock (callsOnCurr_act _) (callsOnCurr_act _) hp

theorem callsOnCurr_callPubsubCb (m : ℕ) (evts : List ℕ) :
    CallsOnCurr depth (callPubsubCb m evts) := by
  have hG := closed_callsOnCurr hH
  unfold callPubsubCb
  split
  next =>
    refine hG.bind (callsOnCurr_memLock hH ?_) (fun _ => hG.freeEvts evts)
    refine callsOnCurr_setCurrMod hH (fun w hw => ?_)
    refine Prog.Grants.bind (grants_derefMod_curr hH hw) (fun x v _ hv => ?_)
    refine Prog.Grants.bind (grants_notify_curr hH (h := .onEvt m _ evts) hv)
      (fun _ u _ _ => ?_)
    exact hG.setCurrMod (fun _ _ => callsOnCurr_act _) () u () trivial
  next => exact hG.freeEvts evts

theorem grants_runHook_curr {hook : ModHooks} {req : ModHookReq} {w : World} (hw : CurrIs m w) :
    (runHook m hook req).Grants (handler depth) hookMonitor w () (fun _ _ _ => True) := by
  cases req with
  | eval =>
      simp only [runHook]
      split
      next => exact grants_notify_curr hH (h := .onEval m) hw
      next => exact Prog.Grants.pure trivial
  | start =>
      simp only [runHook]
      split
      next => exact grants_notify_curr hH (h := .onStart m) hw
      next => exact Prog.Grants.pure trivial
  | stop =>
      simp only [runHook]
      split
      next =>
        refine Prog.Grants.bind (grants_notify_curr hH (h := .onStop m) hw) (fun _ _ _ _ => ?_)
        exact Prog.Grants.pure trivial
      next => exact Prog.Grants.pure trivial

theorem callsOnCurr_optionalHook (m : ℕ) (req : ModHookReq) :
    CallsOnCurr depth (optionalHook m req) := by
  have hG := closed_callsOnCurr hH
  refine callsOnCurr_memLock hH (callsOnCurr_setCurrMod hH (fun w hw => ?_))
  refine Prog.Grants.bind (grants_derefMod_curr hH hw) (fun x v _ hv => ?_)
  refine Prog.Grants.bind (grants_runHook_curr hH hv) (fun b u _ _ => ?_)
  exact hG.hookAnswer (fun _ _ => callsOnCurr_act _) b () u () trivial

theorem callsOnCurr_body (c : Call) : CallsOnCurr depth (bodyOf c) := by
  have hG := closed_callsOnCurr hH
  have hinner : ∀ o : Op, o.Inner → o.Bare → CallsOnCurr depth (act o) :=
    fun _ _ _ => callsOnCurr_act _
  have hderegister : ∀ mod fromUser, CallsOnCurr depth (modDeregister mod fromUser) :=
    fun mod fromUser => hG.modDeregister (callsOnCurr_memLock hH) (fun _ _ => callsOnCurr_act _)
      (fun m => OfInner.stop hG hinner (callsOnCurr_callPubsubCb hH)
        (callsOnCurr_optionalHook hH))
      (fun _ => callsOnCurr_act _) (fun _ _ => callsOnCurr_act _)
  have hparts : OfInner (CallsOnCurr depth) :=
    { inner := hinner
      callPubsubCb := callsOnCurr_callPubsubCb hH
      pushEvt := fun m e => hG.pushEvt (fun _ => callsOnCurr_act _) (callsOnCurr_act _)
        (hG.bind (callsOnCurr_act _) (fun evts => callsOnCurr_callPubsubCb hH m evts))
      optionalHook := callsOnCurr_optionalHook hH
      mCtxRegister := fun name flags => hG.mCtxRegister (hG.bind (callsOnCurr_act _)
        (fun _ => hG.bind (callsOnCurr_act _) (fun _ => hG.pure _)))
      mCtxDeregister := hG.mCtxDeregister (fun c => hG.bind (callsOnCurr_act _)
        (fun _ => hG.bind (hG.invoke _) (fun _ => hG.bind (callsOnCurr_act _)
          (fun _ => hG.pure _))))
      mModRegister := by
        intro name modRef hook flags
        refine hG.mModRegister (fun m => hderegister (some m) false) (fun c hooks => ?_)
        refine hG.bind (callsOnCurr_act _) (fun r => ?_)
        refine Closed.ite (fun _ => hG.pure _) (fun _ => ?_)
        exact Closed.ite (fun _ => hG.bind (callsOnCurr_act _) (fun _ => hG.pure _))
          (fun _ => hG.pure _)
      modDeregister := hderegister }
  exact Parts.body hG (OfInner.parts hG hparts) c

end Hooks

theorem maintains_onCurr (depth : ℕ) : (machine.handler depth).Maintains hookMonitor
    (fun (_ : Unit) _ _ => True) (fun _ _ _ _ => True) :=
  machine.maintains (fun _ _ _ _ _ => trivial)
    (fun _ hH _ c w _ _ => callsOnCurr_body hH c () w () trivial) depth

theorem onCurrMod_runCalls (depth : ℕ) (calls : List Call) (w : World) :
    (machine.runCalls depth calls w).Every OnCurrMod := by
  have hgrants := (maintains_onCurr depth).runCalls () calls (s := w) (g := ()) trivial
  exact along_iff_forall.mp (hgrants (along_of_forall (fun _ _ _ => trivial))).1

/-- In every run, a callback of a module with `M_MOD_DENY_CTX` changes nothing but `errno`, and all
that it calls is refused, as long as the context of the module is that of the thread. -/
theorem denied_runCalls (depth : ℕ) (calls : List Call) (w : World) :
    (machine.runCalls depth calls w).Every DeniesCallback := by
  intro step hstep h x hact hx hdeny htls depth' calls' hcalls
  obtain ⟨y, hy, hcurr⟩ := onCurrMod_runCalls depth calls w step hstep h x hact hx
  have hdenied : (machine.react h step.before).2.2.Denied := by
    refine ⟨x.ctx, y, h.mod, x, ?_, ?_, hcurr, ?_, hdeny⟩
    · rw [← htls]
      show (World.react h step.before).2.2.tls = _
      unfold World.react
      cases step.before.script <;> rfl
    · rwa [← World.react_heap h step.before] at hy
    · rwa [← World.react_heap h step.before] at hx
  have hcallback := @sequence_state depth' _ calls' hdenied hcalls
  obtain ⟨errno, hstate⟩ := hcallback
  refine ⟨⟨errno, hstate⟩, fun c hc => ?_⟩
  rw [hstate]
  exact refuses_onCall (hdenied.withErrno errno) hc

end Libmodule
