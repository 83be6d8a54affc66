import Libmodule.TokenAccount

/-!
# The account of batched events

`push_evt` adds the events of the user at the end of a queue, and now and then the whole queue
is taken out of the module and handed to its callback.  What the callbacks have had, and what
is still in the queue, is what was pushed, in the same order.
-/

namespace Libmodule

open RefHeap Reentrant

/-! ## Logs -/

/-- The events of a module since its queue was emptied last: those that were pushed, those
that its callbacks have had, and those that were taken out for the next callback. -/
structure BatchLog where
  pushed : List ℕ
  delivered : List ℕ
  taken : List ℕ

def BatchLog.empty : BatchLog := ⟨[], [], []⟩

def batchEvents (w : World) (m : ℕ) : List ℕ := ((modAt w.heap m).map Mod.batchEvents).getD []

def batchNext (m : ℕ) (log : BatchLog) (step : Step LibLang World) : BatchLog :=
  match step.act with
  | .op (.enqueueBatch p e) => if p = m then { log with pushed := log.pushed ++ [e] } else log
  | .op (.takeBatch p) => if p = m then { log with taken := batchEvents step.before m } else log
  | .op (.clear p .batchEvents) => if p = m then .empty else log
  | .op (.newMod ..) => if m = step.before.heap.length then .empty else log
  | .hook (.onEvt _ _ evts) =>
      if log.taken = [] then log else { log with delivered := log.delivered ++ evts, taken := [] }
  | _ => log

/-- Nothing is lost, duplicated or reordered. -/
def Accounted (m : ℕ) (log : BatchLog) (w : World) : Prop :=
  ∀ x, modAt w.heap m = some x → log.delivered ++ log.taken ++ x.batchEvents = log.pushed

/-- Before the step the events are accounted for.  Events of internal timers are not pushed.
A queue that was taken out goes to a callback of the module before anything else is called. -/
structure BatchStep (m : ℕ) (log : BatchLog) (step : Step LibLang World) : Prop where
  accounted : Accounted m log step.before
  pushes : ∀ e, step.act = .op (.enqueueBatch m e) →
    ∃ src, step.before.evtSrc e = some src ∧ ¬ Internal src
  calls : ∀ c, step.act = .call c → log.taken = []
  hooks : ∀ h, step.act = .hook h →
    log.taken = [] ∨ ∃ recv, h = .onEvt m recv log.taken

def batchMonitor (m : ℕ) : Monitor LibLang World BatchLog where
  next := batchNext m
  assumed := fun _ _ => True
  shown := BatchStep m

/-- Nothing is on its way to a callback. -/
def BatchRests (m : ℕ) (_ : Unit) (w : World) (log : BatchLog) : Prop :=
  log.taken = [] ∧ Accounted m log w

abbrev KeepsBatch (m depth : ℕ) ⦃α : Type⦄ (p : Lm α) : Prop :=
  Respects depth (batchMonitor m) (BatchRests m) p

/-! ## Operations -/

section Operations

variable {m depth : ℕ} {w w' : World} {o : Op} {r : o.Resp} {log : BatchLog} {x x' : Mod}

theorem batchEvents_eq (hx : modAt w.heap m = some x) : batchEvents w m = x.batchEvents := by
  simp [batchEvents, hx]

/-- No other operation changes a batch. -/
theorem batch_of_onMod (h : o.OnMod m x x') (henqueue : ∀ e, o ≠ .enqueueBatch m e)
    (htake : o ≠ .takeBatch m) (hclear : o ≠ .clear m .batchEvents) :
    x'.batchEvents = x.batchEvents := by
  cases o with
  | enqueueBatch p e =>
      have hpm : p ≠ m := fun h => henqueue e (h ▸ rfl)
      rw [show x' = _ from h, if_neg hpm]
  | takeBatch p =>
      have hpm : p ≠ m := fun h => htake (h ▸ rfl)
      rw [show x' = _ from h, if_neg hpm]
  | setMod p field =>
      obtain rfl : x' = _ := h
      split
      next => cases field <;> rfl
      next => rfl
  | clear p queue =>
      obtain rfl : x' = _ := h
      split
      next hpm =>
        subst hpm
        cases queue with
        | batchEvents => exact absurd rfl hclear
        | _ => rfl
      next => rfl
  | markRunning | markStopped | markZombie | stash | unstash | bind =>
      obtain rfl : x' = _ := h
      split <;> rfl
  | subscriptionsPut | subscriptionsRemove | addSrc | bstRemove | bstItrRemove =>
      obtain ⟨-, _, rfl⟩ := h
      rfl
  | pipe =>
      obtain ⟨-, _, _, rfl⟩ := h
      rfl
  | _ =>
      obtain rfl : x' = x := h
      rfl

theorem batchNext_other (henqueue : ∀ e, o ≠ .enqueueBatch m e) (htake : o ≠ .takeBatch m)
    (hclear : o ≠ .clear m .batchEvents) (hnew : m ≠ w.heap.length) :
    batchNext m log ⟨.op o, w⟩ = log := by
  cases o with
  | enqueueBatch p e =>
      have hpm : p ≠ m := fun h => henqueue e (h ▸ rfl)
      simp [batchNext, hpm]
  | takeBatch p =>
      have hpm : p ≠ m := fun h => htake (h ▸ rfl)
      simp [batchNext, hpm]
  | clear p queue =>
      cases queue with
      | batchEvents =>
          have hpm : p ≠ m := fun h => hclear (h ▸ rfl)
          simp [batchNext, hpm]
      | _ => rfl
  | newMod => simp [batchNext, hnew]
  | _ => rfl

/-- Every operation but the one that takes the queue out keeps the account. -/
theorem accounted_exec (hw : Accounted m log w) (htake : o ≠ .takeBatch m)
    (h : o.exec w = some (r, w')) : Accounted m (batchNext m log ⟨.op o, w⟩) w' := by
  intro x' hx'
  rcases (Op.effect h).mods m x' hx' with ⟨x, hx, hon⟩ | ⟨hm, c, name, flags, hook, rfl, hnew⟩
  · have hbefore := hw x hx
    by_cases henqueue : ∃ e, o = .enqueueBatch m e
    · obtain ⟨e, rfl⟩ := henqueue
      rw [Op.OnMod, if_pos rfl] at hon
      rw [hon]
      simp only [batchNext, if_true]
      rw [← hbefore]
      simp only [List.append_assoc]
    · by_cases hclear : o = .clear m .batchEvents
      · subst hclear
        rw [Op.OnMod, if_pos rfl] at hon
        rw [hon]
        simp [batchNext, BatchLog.empty, ModQueue.clear]
      · have hother : ∀ e, o ≠ .enqueueBatch m e := fun e h => henqueue ⟨e, h⟩
        rw [batchNext_other hother htake hclear (World.ne_length hx),
          batch_of_onMod hon hother htake hclear]
        exact hbefore
  · obtain ⟨state, -, rfl⟩ := hnew
    simp [batchNext, hm, BatchLog.empty, Mod.initial]

end Operations

section Kept

variable {m p e depth : ℕ} {w w' : World} {o : Op} {r : o.Resp} {log : BatchLog} {evts : List ℕ}

/-- The queue `evts` was taken out, for a callback. -/
def Handing (m : ℕ) (evts : List ℕ) (w : World) (log : BatchLog) : Prop :=
  log.taken = evts ∧ Accounted m log w

theorem batchStep_op (hw : Accounted m log w)
    (hpush : ∀ e, o = .enqueueBatch m e → ∃ src, w.evtSrc e = some src ∧ ¬ Internal src) :
    BatchStep m log ⟨.op o, w⟩ where
  accounted := hw
  pushes := fun e h => hpush e (Act.op.inj h)
  calls := fun _ h => by cases h
  hooks := fun _ h => by cases h

theorem batchNext_taken (htake : o ≠ .takeBatch m) (htaken : log.taken = []) :
    (batchNext m log ⟨.op o, w⟩).taken = [] := by
  cases o with
  | enqueueBatch p e =>
      simp only [batchNext]
      split <;> exact htaken
  | takeBatch p =>
      have hpm : p ≠ m := fun h => htake (h ▸ rfl)
      simpa [batchNext, hpm] using htaken
  | clear p queue =>
      cases queue with
      | batchEvents =>
          simp only [batchNext]
          split
          next => rfl
          next => exact htaken
      | _ => exact htaken
  | newMod =>
      simp only [batchNext]
      split
      next => rfl
      next => exact htaken
  | _ => exact htaken

/-- Between callbacks only the events of the user may be pushed, and no queue taken out. -/
theorem batchKept (htake : o ≠ .takeBatch m) (henqueue : ∀ e, o ≠ .enqueueBatch m e) :
    o.Kept (batchMonitor m) (BatchRests m) := by
  rintro _ w log ⟨htaken, hw⟩ -
  refine ⟨batchStep_op hw (fun e h => absurd h (henqueue e)), fun r w' hexec => ?_⟩
  exact ⟨batchNext_taken htake htaken, accounted_exec hw htake hexec⟩

theorem Op.Bare.keepsBatch (ho : o.Bare) : KeepsBatch m depth (act o) := by
  apply respects_act
  apply batchKept
  · rintro rfl
    exact ho
  · rintro e rfl
    exact ho

/-- On the way to the callback. -/
theorem grants_handing (h : Handing m evts w log) (htake : o ≠ .takeBatch m)
    (henqueue : ∀ e, o ≠ .enqueueBatch m e) (hnext : batchNext m log ⟨.op o, w⟩ = log) :
    (act o).Grants (handler depth) (batchMonitor m) w log (fun _ => Handing m evts) := by
  refine grants_act fun _ => ⟨batchStep_op h.2 (fun e h => absurd h (henqueue e)), ?_⟩
  intro r w' hexec
  exact ⟨(congrArg BatchLog.taken hnext).trans h.1, accounted_exec h.2 htake hexec⟩

/-- The queue is taken out as a whole. -/
theorem handing_of_takeBatch (htaken : log.taken = []) (hw : Accounted m log w)
    (hexec : (Op.takeBatch m).exec w = some (evts, w')) :
    Handing m evts w' (batchNext m log ⟨.op (.takeBatch m), w⟩) := by
  simp only [Op.exec, Option.bind_eq_bind, Option.bind_eq_some_iff] at hexec
  obtain ⟨x, hx, v, hset, heq⟩ := hexec
  obtain ⟨-, rfl⟩ := World.setMod_eq_some.mp hset
  obtain ⟨rfl, rfl⟩ := Prod.mk.inj (Option.some.inj heq)
  have hnext : batchNext m log ⟨.op (.takeBatch m), w⟩ = { log with taken := x.batchEvents } := by
    simp [batchNext, batchEvents_eq hx]
  rw [hnext]
  refine ⟨rfl, fun x' hx' => ?_⟩
  have hx'' : modAt (modify w.heap m (Obj.mapMod fun x => { x with batchEvents := [] })) m =
      some x' := hx'
  rw [modAt_modify_mod, if_pos rfl, hx] at hx''
  obtain rfl := Option.some.inj hx''
  have hbefore := hw x hx
  rw [htaken] at hbefore
  simpa using hbefore

theorem grants_derefMod_handing (h : Handing m evts w log) :
    (derefMod m).Grants (handler depth) (batchMonitor m) w log (fun _ => Handing m evts) := by
  refine (grants_handing h (by simp) (by simp) rfl).bind (fun w₁ w₂ log₂ h₂ => ?_)
  cases modAt w₁.heap m with
  | none =>
      refine Prog.Grants.halt ?_
      exact
        { accounted := h₂.2
          pushes := fun _ h => by cases h
          calls := fun _ h => by cases h
          hooks := fun _ h => by cases h }
  | some x => exact Prog.Grants.pure h₂

/-- Everything else may happen while no queue is taken out. -/
theorem batchStep_rests {act : Act LibLang} (hop : ∀ o, act ≠ .op o)
    (h : BatchRests m () w log) : BatchStep m log ⟨act, w⟩ where
  accounted := h.2
  pushes := fun _ ho => absurd ho (hop _)
  calls := fun _ _ => h.1
  hooks := fun _ _ => .inl h.1

end Kept

/-! ## The functions -/

section Functions

variable {m p e depth : ℕ} {w : World} {log : BatchLog} {evts : List ℕ}
  (hH : (machine.handler depth).Maintains (batchMonitor m) (BatchRests m)
    (fun _ _ => BatchRests m ()))

theorem composed_keepsBatch : Composed (KeepsBatch m depth) := by
  apply composed_respects
  · exact fun _ w log h => batchStep_rests (by simp) h
  · intro o ho
    apply batchKept
    · rintro rfl
      exact ho
    · rintro e rfl
      exact ho

include hH

theorem keepsBatch_invoke (c : Call) : KeepsBatch m depth (invoke c) := by
  apply respects_invoke hH
  exact fun _ c w log h _ => ⟨batchStep_rests (by simp) h, h⟩

theorem closed_keepsBatch : Closed (KeepsBatch m depth) where
  toComposed := composed_keepsBatch
  plain := fun _ _ ho => ho.keepsBatch
  invoke := keepsBatch_invoke hH

/-- Any callback may be called while no queue is taken out. -/
theorem keepsBatch_notify (h : Hook) : KeepsBatch m depth (notify h) := by
  apply respects_notify hH
  intro _ w log hrests _
  have hnext : batchNext m log ⟨.hook h, w⟩ = log := by
    cases h with
    | onEvt => exact if_pos hrests.1
    | _ => rfl
  refine ⟨batchStep_rests (by simp) hrests, ?_⟩
  show BatchRests m () w (batchNext m log ⟨.hook h, w⟩)
  rw [hnext]
  exact hrests

theorem keepsBatch_callPubsubCb (p : ℕ) (evts : List ℕ) :
    KeepsBatch m depth (callPubsubCb p evts) :=
  composed_keepsBatch.callPubsubCb
    (fun hp => composed_keepsBatch.memLock (Op.Bare.keepsBatch trivial)
      (Op.Bare.keepsBatch trivial) hp)
    (fun _ _ => Op.Bare.keepsBatch trivial) (fun _ _ => keepsBatch_notify hH _)

/-- The callback gets the queue that was taken out. -/
theorem grants_notify_handing {recv : Option ℕ} (hevts : evts ≠ [])
    (h : Handing m evts w log) :
    (notify (.onEvt m recv evts)).Grants (handler depth) (batchMonitor m) w log
      (fun _ => BatchRests m ()) := by
  obtain ⟨rfl, hw⟩ := h
  apply Prog.Grants.notify
  intro _
  have hnext : batchNext m log ⟨.hook (.onEvt m recv log.taken), w⟩ =
      { log with delivered := log.delivered ++ log.taken, taken := [] } := if_neg hevts
  refine ⟨?_, ?_⟩
  · exact
      { accounted := hw
        pushes := fun _ h => by cases h
        calls := fun _ h => by cases h
        hooks := fun _ h => .inr ⟨recv, (Act.hook.inj h).symm⟩ }
  · apply hH.onHook ()
    show BatchRests m () w (batchNext m log ⟨.hook (.onEvt m recv log.taken), w⟩)
    rw [hnext]
    refine ⟨rfl, fun x hx => ?_⟩
    simpa using hw x hx

omit hH in
theorem grants_setCurrMod_handing {curr : Option ℕ} (h : Handing m evts w log) :
    (setCurrMod m curr).Grants (handler depth) (batchMonitor m) w log
      (fun _ => Handing m evts) := by
  refine (grants_derefMod_handing h).bind (fun x w₁ log₁ h₁ => ?_)
  exact grants_handing h₁ (by simp) (by simp) rfl

/-- A queue that is not empty is handed to the callback. -/
theorem keepsBatch_handQueue : KeepsBatch m depth (do
    let evts ← act (.takeBatch m)
    callPubsubCb m evts) := by
  rintro _ w log ⟨htaken, hw⟩
  have htake : (act (.takeBatch m)).Grants (handler depth) (batchMonitor m) w log
      (fun evts => Handing m evts) := by
    exact grants_act fun _ =>
      ⟨batchStep_op hw (by simp), fun evts w' hexec => handing_of_takeBatch htaken hw hexec⟩
  refine htake.bind (fun evts w₁ log₁ h₁ => ?_)
  by_cases hevts : evts = []
  · subst hevts
    exact keepsBatch_callPubsubCb hH m [] () w₁ log₁ h₁
  · unfold callPubsubCb memLock
    rw [if_pos hevts]
    refine Prog.Grants.bind ?_ (fun _ => composed_keepsBatch.freeEvts evts ())
    refine (grants_handing h₁ (by simp) (by simp) rfl).bind (fun _ w₂ log₂ h₂ => ?_)
    have hunlock : KeepsBatch m depth (do
        act (.unrefMod m)
        return ()) :=
      composed_keepsBatch.bind (Op.Bare.keepsBatch trivial) (fun _ => composed_keepsBatch.pure _)
    refine Prog.Grants.bind ?_ (fun _ => hunlock ())
    refine (grants_setCurrMod_handing h₂).bind (fun _ w₃ log₃ h₃ => ?_)
    refine (grants_derefMod_handing h₃).bind (fun x w₄ log₄ h₄ => ?_)
    refine (grants_notify_handing hH hevts h₄).bind (fun _ w₅ log₅ h₅ => ?_)
    exact composed_keepsBatch.setCurrMod (fun _ _ => Op.Bare.keepsBatch trivial) () w₅ log₅ h₅

omit hH in
/-- Only events of the user are pushed. -/
theorem grants_enqueueBatch {src : Option EvSource} (hrests : BatchRests m () w log)
    (hsrc : w.evtSrc e = some src) (huser : ¬ Internal src) :
    (act (.enqueueBatch p e)).Grants (handler depth) (batchMonitor m) w log
      (fun _ => BatchRests m ()) := by
  refine grants_act fun _ => ⟨batchStep_op hrests.2 ?_, fun _ w' hexec => ?_⟩
  · rintro _ ⟨⟩
    exact ⟨src, hsrc, huser⟩
  · exact ⟨batchNext_taken (by simp) hrests.1, accounted_exec hrests.2 (by simp) hexec⟩

omit hH in
theorem keepsBatch_tbTokens (p tokens : ℕ) :
    KeepsBatch m depth (act (.setMod p (.tbTokens tokens))) :=
  respects_act (batchKept (by simp) (by simp))

theorem keepsBatch_pushQueue (p : ℕ) (force : Bool) :
    KeepsBatch m depth (pushEvt.pushQueue p force) := by
  have hG := closed_keepsBatch hH
  apply hG.pushQueue
  by_cases hpm : p = m
  · subst hpm
    exact keepsBatch_handQueue hH
  · have htake : KeepsBatch m depth (act (.takeBatch p)) :=
      respects_act (batchKept (by simp [hpm]) (by simp))
    exact hG.bind htake (keepsBatch_callPubsubCb hH p)

theorem grants_batched_pushSrc {src : Option EvSource} (hrests : BatchRests m () w log)
    (hsrc : w.evtSrc e = some src) :
    (pushSrc p e src).Grants (handler depth) (batchMonitor m) w log
      (fun _ => BatchRests m ()) := by
  have hG := closed_keepsBatch hH
  have hqueue := keepsBatch_pushQueue hH p
  unfold pushSrc
  split
  next =>
    have hinternal : KeepsBatch m depth (do
        act (.unrefEvt e)
        if src.map EvSource.userptr = some (.tb p) then
          let x ← derefMod p
          if x.tbTokens < x.tbBurst then act (.setMod p (.tbTokens (x.tbTokens + 1)))
        pushEvt.pushQueue p (src.map EvSource.userptr = some (.batch p))) := by
      refine hG.bind (Op.Bare.keepsBatch trivial) (fun _ => ?_)
      refine Closed.ite (fun _ => hG.bind (hG.derefMod p) (fun x => ?_)) (fun _ => hqueue _)
      refine Closed.ite (fun _ => ?_) (fun _ => hqueue _)
      exact hG.bind (keepsBatch_tbTokens p _) (fun _ => hqueue _)
    exact hinternal () w log hrests
  next huser =>
    refine (grants_enqueueBatch hrests hsrc huser).bind (fun _ w' log' hrests' => ?_)
    cases src with
    | none => exact hqueue false () w' log' hrests'
    | some s =>
        have huserptr : KeepsBatch m depth (do
            act (.setEvtUserdata e s.userptr)
            if hasFlag s.flags M_SRC_PRIO_HIGH then pushEvt.pushQueue p true
            else if hasFlag s.flags M_SRC_PRIO_LOW then return ()
            else pushEvt.pushQueue p false) := by
          refine hG.bind (Op.Bare.keepsBatch trivial) (fun _ => ?_)
          refine Closed.ite (fun _ => hqueue _) (fun _ => ?_)
          exact Closed.ite (fun _ => hG.pure _) (fun _ => hqueue _)
        exact huserptr () w' log' hrests'

end Functions

/-! ## Runs -/

theorem maintains_batch (m depth : ℕ) : (machine.handler depth).Maintains (batchMonitor m)
    (BatchRests m) (fun _ _ => BatchRests m ()) := by
  apply Machine.maintains
  · rintro _ h w log ⟨htaken, hw⟩
    refine ⟨htaken, fun x hx => hw x ?_⟩
    rwa [← World.react_heap h w]
  · intro depth hH
    have hG := closed_keepsBatch hH
    have hpush : ∀ p e, KeepsBatch m depth (pushEvt p e) := fun p e =>
      respects_pushEvt (fun _ _ _ h => batchStep_rests (by simp) h) (batchKept (by simp) (by simp))
        (fun _ _ _ _ hrests hsrc => grants_batched_pushSrc hH hrests hsrc)
    have hparts := OfInner.of_bare hG (fun _ ho => ho.keepsBatch) (keepsBatch_notify hH)
      (fun _ => hpush)
    exact fun i call w log h => Parts.body hG (hparts.parts hG) call i w log h

/-! ## One event, one callback -/

def isRead (step : Step LibLang World) : Bool :=
  match step.act with
  | .op .get => true
  | _ => false

/-- `push_evt` adds an event of the user to the queue before it does anything else.  An
internal event is dropped. -/
def PushesOnce : Prop :=
  ∀ (depth m e : ℕ) (w : World) (src : Option EvSource), w.evtSrc e = some src →
    (((pushEvt m e).run (handler depth) w).steps.find? fun step => !isRead step) =
      some ⟨.op (if Internal src then .unrefEvt e else .enqueueBatch m e), w⟩

/-- What `call_pubsub_cb` does before it releases the events. -/
def handEvts (m : ℕ) (evts : List ℕ) : Lm Unit := do
  if evts ≠ [] then
    memLock m do
      setCurrMod m (some m)
      let _ ← notify (.onEvt m (← derefMod m).recvs.head? evts)
      setCurrMod m none

/-- The queue of a callback is released once, after the callback. -/
def ReleasesOnce : Prop :=
  ∀ (depth m : ℕ) (evts : List ℕ) (w w' : World),
    (callPubsubCb m evts).Ends (handler depth) w () w' →
    ∃ v released, (handEvts m evts).Ends (handler depth) w () v ∧
      released.map Step.act = evts.map (fun e => .op (.unrefEvt e)) ∧
      ((callPubsubCb m evts).run (handler depth) w).steps =
        ((handEvts m evts).run (handler depth) w).steps ++ released

section Pushes

variable {α β : Type} {depth m e : ℕ} {w : World}

theorem look_advances {f : World → Option β} {k : β → Lm α} {b : β} (hb : f w = some b) :
    ((getWorld >>= fun w => orHalt (f w)) >>= k).Advances (handler depth)
      (fun step => isRead step = true) w (k b) w := by
  have hread : (getWorld >>= fun w => orHalt (f w)).Advances (handler depth)
      (fun step => isRead step = true) w (orHalt (f w)) w := by
    apply Prog.Advances.perform
    · rw [machine.handler_exec depth]
      rfl
    · rfl
  rw [hb] at hread
  exact hread.pure_bind

/-- The source of the event is all that `push_evt` looks at first. -/
theorem pushEvt_advances {src : Option EvSource} (hsrc : w.evtSrc e = some src) :
    (pushEvt m e).Advances (handler depth) (fun step => isRead step = true) w
      (pushSrc m e src) w := by
  obtain ⟨evt, hevt, hsrc⟩ := Option.bind_eq_some_iff.mp hsrc
  unfold pushEvt
  apply (look_advances hevt).trans
  cases hp : evt.src with
  | none =>
      rw [hp] at hsrc
      cases hsrc
      exact .refl
  | some p =>
      rw [hp] at hsrc
      obtain ⟨s, hs, rfl⟩ := Option.map_eq_some_iff.mp hsrc
      have hread : (some <$> derefSrc p).Advances (handler depth)
          (fun step => isRead step = true) w (pure (some s)) w :=
        look_advances (k := fun s => pure (some s)) hs
      exact hread.pure_bind

theorem act_first {o : Op} {k : o.Resp → Lm α} :
    ((act o >>= k).run (handler depth) w).steps.head? = some ⟨.op o, w⟩ := by
  rw [Prog.run_bind, act, Prog.run_perform]
  cases (handler depth).exec o w with
  | none => rfl
  | some next => rfl

theorem pushesOnce : PushesOnce := by
  intro depth m e w src hsrc
  obtain ⟨reads, hreads, hrun⟩ := @pushEvt_advances depth m e w src hsrc
  have hnone : reads.find? (fun step => !isRead step) = none :=
    List.find?_eq_none.mpr (fun step hstep => by simp [hreads step hstep])
  have hfirst : ((pushSrc m e src).run (handler depth) w).steps.head? =
      some ⟨.op (if Internal src then .unrefEvt e else .enqueueBatch m e), w⟩ := by
    unfold pushSrc
    split
    next => exact act_first
    next => exact act_first
  obtain ⟨rest, hrest⟩ := List.head?_eq_some_iff.mp hfirst
  rw [hrun, List.find?_append, hnone, Option.none_or, hrest, List.find?_cons_of_pos]
  split <;> rfl

end Pushes

section Releases

variable {depth m : ℕ} {evts : List ℕ} {w w' : World}

theorem callPubsubCb_eq : callPubsubCb m evts = handEvts m evts >>= fun _ => freeEvts evts := by
  unfold callPubsubCb handEvts
  split <;> rfl

theorem freeEvts_steps (h : (freeEvts evts).Ends (handler depth) w () w') :
    ((freeEvts evts).run (handler depth) w).steps.map Step.act =
      evts.map (fun e => .op (.unrefEvt e)) := by
  induction evts generalizing w with
  | nil => rfl
  | cons e evts ih =>
      obtain ⟨_, v, hdrop, hrest⟩ := Prog.ends_bind.mp h
      have hsteps : ((freeEvts (e :: evts)).run (handler depth) w).steps =
          ((act (.unrefEvt e)).run (handler depth) w).steps ++
            ((freeEvts evts).run (handler depth) v).steps := Prog.steps_bind hdrop
      have hone : ((act (.unrefEvt e)).run (handler depth) w).steps = [⟨.op (.unrefEvt e), w⟩] := by
        rw [act, Prog.run_perform_some (Prog.ends_perform.mp hdrop)]
        rfl
      rw [hsteps, hone, List.map_append, ih hrest]
      rfl

theorem releasesOnce : ReleasesOnce := by
  intro depth m evts w w' h
  rw [callPubsubCb_eq] at h ⊢
  obtain ⟨_, v, hhand, hfree⟩ := Prog.ends_bind.mp h
  exact ⟨v, _, hhand, freeEvts_steps hfree, Prog.steps_bind hhand⟩

end Releases

/-- In every run the events that a module's callbacks have had since its queue was emptied
last, and those still in the queue, are those of the user that were pushed, in their order;
each event joins the queue once, and each queue that is handed over is released once. -/
theorem batchAccounted_runCalls (host : Host) (script : List Reaction)
    (polls : List PollAnswer) (faults : List ℤ) (depth : ℕ) (calls : List Call) (m : ℕ) :
    let out := machine.runCalls depth calls (World.initial host script polls faults)
    Along (batchNext m) (BatchStep m) .empty out.steps ∧
      (out.value = some () → BatchRests m () out.state (out.steps.foldl (batchNext m) .empty)) ∧
      PushesOnce ∧ ReleasesOnce := by
  have hinitial : BatchRests m () (World.initial host script polls faults) .empty := by
    refine ⟨rfl, fun x hx => ?_⟩
    exact absurd (modAt_lt_length hx) (by simp [World.initial])
  obtain ⟨halong, hends⟩ := (maintains_batch m depth).runCalls () calls hinitial
    (along_of_forall (fun _ _ _ => trivial))
  exact ⟨halong, fun hvalue => hends () _ ⟨hvalue, rfl⟩, pushesOnce, releasesOnce⟩

end Libmodule
