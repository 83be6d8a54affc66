import Libmodule.Advancing
import Libmodule.Execution

/-!
# When an event calls the module

`push_evt` batches the events of the user and drops those of the internal timers, and then
hands the batch to `on_evt` if the event forces it or the batch is full.  An event of the
token bucket's timer is no exception to the second: it hands over a batch that events of
low priority have filled.
-/

namespace Libmodule

open RefHeap Reentrant

/-! ## Sources of events -/

/-- The source of an event. -/
def World.evtSrc (w : World) (e : ℕ) : Option (Option EvSource) := do
  match (← evtAt w.heap e).src with
  | none => some none
  | some p => (srcAt w.heap p).map some

def Internal (src : Option EvSource) : Prop :=
  (src.map fun s => hasFlag s.flags M_SRC_INTERNAL).getD false = true

instance (src : Option EvSource) : Decidable (Internal src) :=
  inferInstanceAs (Decidable (_ = true))

/-- The source is the timer of the module's batch. -/
def BatchTimer (m : ℕ) (src : Option EvSource) : Prop :=
  Internal src ∧ src.map EvSource.userptr = some (.batch m)

/-- The source is the timer of the module's token bucket. -/
def TbTimer (m : ℕ) (src : Option EvSource) : Prop :=
  Internal src ∧ src.map EvSource.userptr = some (.tb m)

instance (m : ℕ) (src : Option EvSource) : Decidable (TbTimer m src) :=
  inferInstanceAs (Decidable (_ ∧ _))

def HighPrio (src : Option EvSource) : Prop :=
  (src.map fun s => hasFlag s.flags M_SRC_PRIO_HIGH).getD false = true

instance (src : Option EvSource) : Decidable (HighPrio src) :=
  inferInstanceAs (Decidable (_ = true))

def LowPrio (src : Option EvSource) : Prop :=
  (src.map fun s => hasFlag s.flags M_SRC_PRIO_LOW).getD false = true

/-! ## What the step promises -/

/-- The batch that the event finds, or joins. -/
def batchWith (x : Mod) (e : ℕ) (src : Option EvSource) : List ℕ :=
  if Internal src then x.batchEvents else x.batchEvents ++ [e]

/-- The events for which the module is to be called. -/
def Triggers (m : ℕ) (x : Mod) (e : ℕ) (src : Option EvSource) : Prop :=
  batchWith x e src ≠ [] ∧
    (BatchTimer m src ∨
      ¬ TbTimer m src ∧
        (HighPrio src ∨ ¬ LowPrio src ∧ x.batchLen ≤ (batchWith x e src).length))

/-- The module is called with the whole batch for the events that trigger it, and for no
others; the timer of the token bucket adds a token and does nothing else to the module. -/
structure PushContract (m : ℕ) (x : Mod) (e : ℕ) (src : Option EvSource)
    (out : Out LibLang World Unit) : Prop where
  called : ∀ h, out.firstHook = some h ↔
    Triggers m x e src ∧ h = .onEvt m x.recvs.head? (batchWith x e src)
  refilled : TbTimer m src → out.value = some () ∧ modAt out.state.heap m =
    some { x with tbTokens := if x.tbTokens < x.tbBurst then x.tbTokens + 1 else x.tbTokens }

/-- An internal event hands over a batch only if it is that of the batch timer; any other
does so when the batch is full, as a normal event would. -/
def PushesWell (m : ℕ) (x : Mod) (src : Option EvSource) : Prop :=
  Internal src → ¬ BatchTimer m src → x.batchEvents ≠ [] →
    if TbTimer m src then x.batchEvents.length < x.batchLen
    else if HighPrio src then x.batchLen ≤ x.batchEvents.length
    else LowPrio src → x.batchEvents.length < x.batchLen

/-! ## The queue -/

section Queue

variable {depth m e : ℕ} {w v : World} {x : Mod} {force : Bool} {evts : List ℕ}

/-- The context of a module whose callback is reached is there. -/
theorem callPubsubCb_ctx (hx : modAt w.heap m = some x) (hevts : evts ≠ [])
    (h : (callPubsubCb m evts).Proceeds (handler depth) w) :
    ∃ y, ctxAt w.heap x.ctx = some y := by
  obtain ⟨v, href, hmods, hctxs⟩ := refMod_exec hx
  unfold callPubsubCb memLock at h
  rw [if_pos hevts] at h
  have hfunc := (act_goesOn href).proceeds_iff.mp h.of_bind
  have hcurr : (setCurrMod m (some m)).Proceeds (handler depth) v := hfunc.of_bind.of_bind
  rw [← hmods] at hx
  have hset := (derefMod_goesOn hx).proceeds_iff.mp hcurr
  obtain ⟨a, u, hexec⟩ := @Prog.exec_of_proceeds _ _ _ _ _ _ pure hset
  rw [machine.handler_exec depth] at hexec
  obtain ⟨u, hset, -⟩ := Option.map_eq_some_iff.mp hexec
  obtain ⟨⟨y, hy⟩, -⟩ := World.setCtx_eq_some.mp hset
  exact ⟨y, by rw [← hctxs]; exact hy⟩

/-- The batch is handed over, if it is not empty, when it is forced or full. -/
def HandsOver (x : Mod) (force : Prop) : Prop :=
  x.batchEvents ≠ [] ∧ (force ∨ x.batchLen ≤ x.batchEvents.length)

theorem pushQueue_handed (hx : modAt w.heap m = some x) (hover : HandsOver x (force = true))
    (h : (pushEvt.pushQueue m force).Proceeds (handler depth) w) :
    ((pushEvt.pushQueue m force).run (handler depth) w).firstHook =
      some (.onEvt m x.recvs.head? x.batchEvents) := by
  obtain ⟨v, htake, hx'⟩ : ∃ v, (Op.takeBatch m).exec w = some (x.batchEvents, v) ∧
      modAt v.heap m = some { x with batchEvents := [] } := by
    refine ⟨{ w with
      heap := modify w.heap m (Obj.mapMod fun y => { y with batchEvents := [] }) }, ?_, ?_⟩
    · simp only [Op.exec, World.setMod, hx, Option.bind_eq_bind, Option.bind_some]
    · rw [modAt_modify_mod, if_pos rfl, hx]
      rfl
  have hgoes : GoesOn depth (pushEvt.pushQueue m force) w (callPubsubCb m x.batchEvents) v := by
    unfold pushEvt.pushQueue
    apply (derefMod_goesOn hx).trans
    rw [if_neg hover.1, if_pos hover.2]
    exact act_goesOn htake
  obtain ⟨y, hy⟩ := callPubsubCb_ctx hx' hover.1 (hgoes.proceeds_iff.mp h)
  rw [hgoes.firstHook, callPubsubCb_firstHook hx' hy hover.1]

theorem pushQueue_kept (hx : modAt w.heap m = some x) (hover : ¬ HandsOver x (force = true)) :
    GoesOn depth (pushEvt.pushQueue m force) w (pure ()) w := by
  unfold pushEvt.pushQueue
  apply (derefMod_goesOn hx).trans
  split
  next => exact .refl
  next hne =>
    rw [if_neg fun hfull => hover ⟨hne, hfull⟩]
    exact .refl

/-- The run of `p` calls the module with its batch just when `handed` says so, and otherwise
ends with the module `y`. -/
structure PushOutcome (depth : ℕ) (p : Lm Unit) (w : World) (m : ℕ) (y : Mod) (handed : Prop) :
    Prop where
  called : ∀ h, (p.run (handler depth) w).firstHook = some h ↔
    handed ∧ h = .onEvt m y.recvs.head? y.batchEvents
  kept : ¬ handed → (p.run (handler depth) w).value = some () ∧
    modAt (p.run (handler depth) w).state.heap m = some y

theorem PushOutcome.of_goesOn {p q : Lm Unit} {handed : Prop} (hgoes : GoesOn depth p w q v)
    (h : PushOutcome depth q v m x handed) : PushOutcome depth p w m x handed := by
  have hfirst := hgoes.firstHook
  obtain ⟨steps, -, hrun⟩ := hgoes
  refine ⟨fun hook => by rw [hfirst, h.called], fun hnot => ?_⟩
  rw [hrun]
  exact h.kept hnot

theorem pushOutcome_pure {p : Lm Unit} (hgoes : GoesOn depth p w (pure ()) v)
    (hx : modAt v.heap m = some x) : PushOutcome depth p w m x False := by
  refine .of_goesOn hgoes ⟨fun h => ?_, fun _ => ⟨rfl, hx⟩⟩
  rw [Prog.firstHook_pure]
  exact iff_of_false (by rintro ⟨⟩) fun hboth => hboth.1

theorem pushOutcome_queue {p : Lm Unit}
    (hgoes : GoesOn depth p w (pushEvt.pushQueue m force) v) (hx : modAt v.heap m = some x)
    (h : p.Proceeds (handler depth) w) :
    PushOutcome depth p w m x (HandsOver x (force = true)) := by
  by_cases hover : HandsOver x (force = true)
  · have hfirst := hgoes.firstHook.trans (pushQueue_handed hx hover (hgoes.proceeds_iff.mp h))
    refine ⟨fun hook => ?_, fun hnot => absurd hover hnot⟩
    rw [hfirst]
    constructor
    · rintro ⟨rfl⟩
      exact ⟨hover, rfl⟩
    · rintro ⟨-, rfl⟩
      rfl
  · have hpure := pushOutcome_pure (hgoes.trans (pushQueue_kept hx hover)) hx
    exact ⟨fun hook => (hpure.called hook).trans (by simp [hover]), fun _ => hpure.kept id⟩

end Queue

/-! ## The event -/

/-- What `push_evt` does with an event whose source is known. -/
def pushSrc (m e : ℕ) (src : Option EvSource) : Lm Unit := do
  if Internal src then
    act (.unrefEvt e)
    if src.map EvSource.userptr = some (.tb m) then
      let x ← derefMod m
      if x.tbTokens < x.tbBurst then act (.setMod m (.tbTokens (x.tbTokens + 1)))
    pushEvt.pushQueue m (src.map EvSource.userptr = some (.batch m))
  else
    act (.enqueueBatch m e)
    match src with
    | none => pushEvt.pushQueue m false
    | some s =>
        act (.setEvtUserdata e s.userptr)
        if hasFlag s.flags M_SRC_PRIO_HIGH then pushEvt.pushQueue m true
        else if hasFlag s.flags M_SRC_PRIO_LOW then return ()
        else pushEvt.pushQueue m false

section Event

variable {depth m e : ℕ} {w v : World} {x y : Mod} {src : Option EvSource}

theorem pushEvt_src (hsrc : w.evtSrc e = some src) :
    GoesOn depth (pushEvt m e) w (pushSrc m e src) w := by
  obtain ⟨evt, hevt, hsrc⟩ := Option.bind_eq_some_iff.mp hsrc
  unfold pushEvt
  apply (derefEvt_goesOn hevt).trans
  cases hp : evt.src with
  | none =>
      rw [hp] at hsrc
      cases hsrc
      exact .refl
  | some p =>
      rw [hp] at hsrc
      obtain ⟨s, hs, rfl⟩ := Option.map_eq_some_iff.mp hsrc
      have hread : GoesOn depth (some <$> derefSrc p) w (pure (some s)) w :=
        derefSrc_goesOn (f := fun s => pure (some s)) hs
      exact hread.pure_bind

/-- The module once it has taken the event in. -/
def Mod.pushed (x : Mod) (m e : ℕ) (src : Option EvSource) : Mod :=
  { x with
    batchEvents := batchWith x e src
    tbTokens := if TbTimer m src ∧ x.tbTokens < x.tbBurst then x.tbTokens + 1 else x.tbTokens }

/-- The events for which the module is called. -/
def Calls (m : ℕ) (x : Mod) (e : ℕ) (src : Option EvSource) : Prop :=
  HandsOver (x.pushed m e src) (BatchTimer m src ∨ ¬ Internal src ∧ HighPrio src) ∧
    (LowPrio src → Internal src ∨ HighPrio src)

/-- A module that outlives an event is what it was. -/
theorem modAt_of_unrefEvt {r : Unit} (hexec : (Op.unrefEvt e).exec w = some (r, v))
    (hy : modAt v.heap m = some y) : modAt w.heap m = some y := by
  obtain ⟨-, -, hexec⟩ := Option.bind_eq_some_iff.mp hexec
  obtain ⟨u, hunref, heq⟩ := Option.bind_eq_some_iff.mp hexec
  obtain rfl := (Prod.mk.inj (Option.some.inj heq)).2
  exact World.modAt_of_unrefAll hunref hy

theorem pushQueue_mod {force : Bool} (h : (pushEvt.pushQueue m force).Proceeds (handler depth) w) :
    ∃ x, modAt w.heap m = some x := by
  unfold pushEvt.pushQueue at h
  obtain ⟨x, hx, -⟩ := derefMod_goesOn_of_proceeds h
  exact ⟨x, hx⟩

theorem pushSrc_internal (hx : modAt w.heap m = some x) (hinternal : Internal src)
    (h : (pushSrc m e src).Proceeds (handler depth) w) :
    PushOutcome depth (pushSrc m e src) w m (x.pushed m e src) (Calls m x e src) := by
  have hcalls : Calls m x e src ↔ HandsOver (x.pushed m e src)
      (decide (src.map EvSource.userptr = some (.batch m)) = true) := by
    unfold Calls HandsOver BatchTimer
    simp [hinternal]
  have hbatch : batchWith x e src = x.batchEvents := if_pos hinternal
  rw [hcalls]
  unfold pushSrc at h ⊢
  rw [if_pos hinternal] at h ⊢
  obtain ⟨_, u, hexec, hgoes⟩ := act_goesOn_of_proceeds h
  have hrest := hgoes.proceeds_iff.mp h
  by_cases htb : src.map EvSource.userptr = some (.tb m)
  · rw [if_pos htb] at hrest
    obtain ⟨y, hy, hread⟩ := derefMod_goesOn_of_proceeds hrest
    obtain rfl := Option.some.inj (hx.symm.trans (modAt_of_unrefEvt hexec hy))
    have hrest' := hread.proceeds_iff.mp hrest
    by_cases hburst : x.tbTokens < x.tbBurst
    · rw [if_pos hburst] at hrest'
      obtain ⟨_, v, hexec', hpaid⟩ := act_goesOn_of_proceeds hrest'
      obtain ⟨z, hset, heq⟩ := Option.map_eq_some_iff.mp hexec'
      obtain rfl : z = v := (Prod.mk.inj heq).2
      obtain ⟨-, hz⟩ := World.setMod_eq_some.mp hset
      have hpushed : modAt z.heap m = some (x.pushed m e src) := by
        rw [← hz, modAt_modify_mod, if_pos rfl, hy, Mod.pushed, hbatch,
          if_pos ⟨⟨hinternal, htb⟩, hburst⟩]
        rfl
      refine pushOutcome_queue (hgoes.trans ?_) hpushed h
      rw [if_pos htb]
      refine hread.trans ?_
      rw [if_pos hburst]
      exact hpaid
    · have hpushed : x.pushed m e src = x := by
        rw [Mod.pushed, hbatch, if_neg fun hboth => hburst hboth.2]
      rw [hpushed]
      refine pushOutcome_queue (hgoes.trans ?_) hy h
      rw [if_pos htb]
      refine hread.trans ?_
      rw [if_neg hburst]
      exact .refl
  · rw [if_neg htb] at hrest
    obtain ⟨y, hy⟩ := pushQueue_mod hrest
    obtain rfl := Option.some.inj (hx.symm.trans (modAt_of_unrefEvt hexec hy))
    have hpushed : x.pushed m e src = x := by
      rw [Mod.pushed, hbatch, if_neg fun hboth => htb hboth.1.2]
    rw [hpushed]
    refine pushOutcome_queue (hgoes.trans ?_) hy h
    rw [if_neg htb]
    exact .refl

theorem pushSrc_user (hx : modAt w.heap m = some x) (hinternal : ¬ Internal src)
    (h : (pushSrc m e src).Proceeds (handler depth) w) :
    PushOutcome depth (pushSrc m e src) w m (x.pushed m e src) (Calls m x e src) := by
  have hnottb : ¬ (TbTimer m src ∧ x.tbTokens < x.tbBurst) := fun hboth => hinternal hboth.1.1
  have hcalls : Calls m x e src ↔ HandsOver (x.pushed m e src) (HighPrio src) ∧
      (LowPrio src → HighPrio src) := by
    unfold Calls HandsOver BatchTimer
    simp [hinternal]
  rw [hcalls]
  unfold pushSrc at h ⊢
  rw [if_neg hinternal] at h ⊢
  obtain ⟨_, u, hexec, hgoes⟩ := act_goesOn_of_proceeds h
  have hrest := hgoes.proceeds_iff.mp h
  have hy : modAt u.heap m = some (x.pushed m e src) := by
    obtain ⟨-, -, hexec⟩ := Option.bind_eq_some_iff.mp hexec
    obtain ⟨u', hset, heq⟩ := Option.bind_eq_some_iff.mp hexec
    obtain rfl := (Prod.mk.inj (Option.some.inj heq)).2
    obtain ⟨-, rfl⟩ := World.setMod_eq_some.mp hset
    rw [modAt_modify_mod, if_pos rfl, hx, Mod.pushed, if_neg hnottb, batchWith, if_neg hinternal]
    rfl
  cases src with
  | none =>
      have hplain : (HandsOver (x.pushed m e none) (HighPrio none) ∧
          (LowPrio none → HighPrio none)) ↔ HandsOver (x.pushed m e none) (false = true) := by
        simp [HandsOver, HighPrio, LowPrio]
      rw [hplain]
      exact pushOutcome_queue hgoes hy h
  | some s =>
      obtain ⟨_, v, hexec', hdata⟩ := act_goesOn_of_proceeds hrest
      obtain ⟨z, hset, heq⟩ := Option.map_eq_some_iff.mp hexec'
      obtain rfl : z = v := (Prod.mk.inj heq).2
      obtain ⟨-, hz⟩ := World.setEvt_eq_some.mp hset
      have hy' : modAt z.heap m = some (x.pushed m e (some s)) := by
        rw [← hz, modAt_modify_evt, hy]
      by_cases hhigh : hasFlag s.flags M_SRC_PRIO_HIGH = true
      · have hplain : (HandsOver (x.pushed m e (some s)) (HighPrio (some s)) ∧
            (LowPrio (some s) → HighPrio (some s))) ↔
              HandsOver (x.pushed m e (some s)) (true = true) := by
          simp [HandsOver, HighPrio, LowPrio, hhigh]
        rw [hplain]
        refine pushOutcome_queue (hgoes.trans (hdata.trans ?_)) hy' h
        rw [if_pos hhigh]
        exact .refl
      · by_cases hlow : hasFlag s.flags M_SRC_PRIO_LOW = true
        · have hplain : (HandsOver (x.pushed m e (some s)) (HighPrio (some s)) ∧
              (LowPrio (some s) → HighPrio (some s))) ↔ False := by
            simp [HandsOver, HighPrio, LowPrio, hhigh, hlow]
          rw [hplain]
          refine pushOutcome_pure (hgoes.trans (hdata.trans ?_)) hy'
          rw [if_neg hhigh, if_pos hlow]
          exact .refl
        · have hplain : (HandsOver (x.pushed m e (some s)) (HighPrio (some s)) ∧
              (LowPrio (some s) → HighPrio (some s))) ↔
                HandsOver (x.pushed m e (some s)) (false = true) := by
            simp [HandsOver, HighPrio, LowPrio, hhigh, hlow]
          rw [hplain]
          refine pushOutcome_queue (hgoes.trans (hdata.trans ?_)) hy' h
          rw [if_neg hhigh, if_neg hlow]
          exact .refl

theorem pushEvt_outcome (hx : modAt w.heap m = some x) (hsrc : w.evtSrc e = some src)
    (h : (pushEvt m e).Proceeds (handler depth) w) :
    PushOutcome depth (pushEvt m e) w m (x.pushed m e src) (Calls m x e src) := by
  have hgoes := @pushEvt_src depth m e w src hsrc
  apply PushOutcome.of_goesOn hgoes
  have hrest := hgoes.proceeds_iff.mp h
  by_cases hinternal : Internal src
  · exact pushSrc_internal hx hinternal hrest
  · exact pushSrc_user hx hinternal hrest

theorem BatchTimer.not_tbTimer (h : BatchTimer m src) : ¬ TbTimer m src := by
  rintro ⟨-, htb⟩
  cases h.2.symm.trans htb

/-- The module is called for the events that it is to be called for. -/
theorem calls_iff_triggers : (Calls m x e src ↔ Triggers m x e src) ↔ PushesWell m x src := by
  have hbatch := @BatchTimer.not_tbTimer m src
  unfold Calls HandsOver Triggers PushesWell Mod.pushed
  by_cases hinternal : Internal src
  · have hsame : batchWith x e src = x.batchEvents := if_pos hinternal
    rw [hsame]
    by_cases htimer : BatchTimer m src
    · simp [hinternal, htimer]
    · by_cases hnil : x.batchEvents = []
      · simp [hnil]
      · by_cases htb : TbTimer m src
        · simp [hinternal, htimer, hnil, htb]
        · by_cases hhigh : HighPrio src
          · simp [hinternal, htimer, hnil, htb, hhigh]
          · simp only [hinternal, htimer, hnil, htb, hhigh, ne_eq, not_false_eq_true, true_and,
              not_true_eq_false, false_and, or_false, false_or, implies_true, and_true,
              if_false, forall_const]
            rw [← Nat.not_le]
            tauto
  · have htimer : ¬ BatchTimer m src := fun h => hinternal h.1
    have htb : ¬ TbTimer m src := fun h => hinternal h.1
    simp only [hinternal, htimer, htb, false_or, not_false_eq_true, true_and, false_implies,
      iff_true]
    tauto

/-- The step keeps its promise just when an internal event that is not the batch timer's
finds a batch that it may not hand over. -/
theorem pushContract_iff (hx : modAt w.heap m = some x) (hsrc : w.evtSrc e = some src)
    (h : (pushEvt m e).Proceeds (handler depth) w) :
    PushContract m x e src ((pushEvt m e).run (handler depth) w) ↔ PushesWell m x src := by
  have houtcome := pushEvt_outcome hx hsrc h
  rw [← calls_iff_triggers (e := e)]
  constructor
  · intro hcontract
    have hsame := (houtcome.called _).symm.trans (hcontract.called
      (.onEvt m x.recvs.head? (batchWith x e src)))
    exact ⟨fun hcalls => (hsame.mp ⟨hcalls, rfl⟩).1, fun htriggers => (hsame.mpr ⟨htriggers, rfl⟩).1⟩
  · intro hsame
    refine ⟨fun hook => (houtcome.called hook).trans (and_congr_left fun _ => hsame), fun htb => ?_⟩
    have hnot : ¬ Calls m x e src := by
      rw [hsame]
      rintro ⟨-, hbatch | ⟨hother, -⟩⟩
      · exact hbatch.not_tbTimer htb
      · exact hother htb
    have hkept := houtcome.kept hnot
    have hpushed : x.pushed m e src = { x with
        tbTokens := if x.tbTokens < x.tbBurst then x.tbTokens + 1 else x.tbTokens } := by
      simp only [Mod.pushed, batchWith, if_pos htb.1, htb, true_and]
    rw [hpushed] at hkept
    exact hkept

end Event

/-! ## A refill with an event of low priority in the batch -/

/-- A module with a timer of low priority and a token bucket; the timer has fired, and now
the bucket's has: the events of the two. -/
def fireTimers : Lm (ℕ × ℕ) := do
  let e : ℕ ← act (.newEvt (some 2))
  pushEvt 1 e
  let e' : ℕ ← act (.newEvt (some 3))
  return (e, e')

def ticked : World :=
  (fireTimers.run (handler 2) (machine.runCalls 2
    [.mCtxRegister "ctx" 0, .mModRegister "a" true (some onEvtOnly) 0,
      .mModSrcRegister (some 1) .tmr (tmrKey 5000) M_SRC_PRIO_LOW 0,
      .mModSetTokenbucket (some 1) 1 5]
    (startFrom [] [])).state).state

def tickedMod : Mod := (modAt ticked.heap 1).get (by decide +kernel)

def refillSrc : Option EvSource := (ticked.evtSrc 5).get (by decide +kernel)

theorem modAt_twoTimers : modAt ticked.heap 1 = some tickedMod := (Option.some_get _).symm

theorem evtSrc_twoTimers : ticked.evtSrc 5 = some refillSrc := (Option.some_get _).symm

theorem proceeds_twoTimers : (pushEvt 1 5).Proceeds (handler 2) ticked :=
  .inr (by decide +kernel)

theorem pushContract_twoTimers :
    PushContract 1 tickedMod 5 refillSrc ((pushEvt 1 5).run (handler 2) ticked) ↔
      PushesWell 1 tickedMod refillSrc :=
  pushContract_iff modAt_twoTimers evtSrc_twoTimers proceeds_twoTimers

/-- The module is called for an event of low priority. -/
theorem not_pushContract_twoTimers :
    ¬ ∀ (depth m e : ℕ) (w : World) (x : Mod) (src : Option EvSource),
      modAt w.heap m = some x → w.evtSrc e = some src →
      (pushEvt m e).Proceeds (handler depth) w →
      PushContract m x e src ((pushEvt m e).run (handler depth) w) := by
  intro hall
  have hcontract := hall 2 1 5 _ _ _ modAt_twoTimers evtSrc_twoTimers proceeds_twoTimers
  have hcalled : ((pushEvt 1 5).run (handler 2) ticked).firstHook =
      some (.onEvt 1 none [4]) := by decide +kernel
  obtain ⟨⟨-, hbatch | ⟨htb, -⟩⟩, -⟩ := (hcontract.called _).mp hcalled
  · have huser : refillSrc.map EvSource.userptr = some (.tb 1) := by decide +kernel
    cases huser.symm.trans hbatch.2
  · exact htb (by decide +kernel)

end Libmodule
