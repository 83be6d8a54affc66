import Libmodule.Evolution
import Libmodule.Execution

/-!
# Events and `errno`

`recv_events` sets `errno` to zero once, before it waits, and looks at it after
the process function of every event of the batch.  What a callback of an earlier
event leaves there is taken for an error of the next one.
-/

namespace Libmodule

open RefHeap Reentrant

/-! ## One event on its own -/

/-- The event that a source has processed is pushed to its module, or stops it. -/
def pushOrStop (m e : ℕ) (p : Option ℕ) (recved : ℕ) : Lm (ℕ × ℤ) := do
  removeOneshot m p
  let x ← derefEvt e
  if ← isPoisonpill x then
    let _ ← stop m true
    act (.unrefEvt e)
  else pushEvt m e
  return (recved + 1, 0)

/-- The body of the loop of `recv_events` that does not look at `errno`. -/
def recvAlone (c recved : ℕ) : Lm (ℕ × ℤ) := do
  match ← act .pollRecv with
  | none => return (recved, EAGAIN)
  | some this =>
      match (← derefSrc this).mod with
      | none =>
          processTick c
          return (recved + 1, 0)
      | some m =>
          let e : ℕ ← act (.newEvt (some this))
          let p ← processSrc this e
          let _ ← getErrno
          pushOrStop m e p recved

/-- The next event of a batch, if a module has its source: the source, the module, the
event that is made for it, and the state in which the process function starts. -/
def nextEvt (w : World) : Option (ℕ × EvSource × ℕ × ℕ × World) := do
  let (this, w) ← w.pollRecv
  let this ← this
  let s ← srcAt w.heap this
  let m ← s.mod
  let (e, w) ← w.newEvt (some this)
  some (this, s, m, e, w)

/-- The process function of the source `s` makes no error in the state `u`: it reads
what it wants to read. -/
def ProcessSucceeds (s : EvSource) (e : ℕ) (u : World) : Prop :=
  match s.type with
  | .ps => (u.sys.readMsg s.fd).1.isSome ∧ (u.processPs e).isSome
  | .fd | .pid => True
  | .tmr | .sgn | .path | .task | .thresh => u.sys.readPriv.1 = 0

instance (s : EvSource) (e : ℕ) (u : World) : Decidable (ProcessSucceeds s e u) := by
  unfold ProcessSucceeds
  split <;> infer_instance

/-- In the state `w` the process step of the next event succeeds. -/
def SucceedsAlone (w : World) : Prop :=
  match nextEvt w with
  | none => False
  | some (_, s, _, e, u) => ProcessSucceeds s e u

instance (w : World) : Decidable (SucceedsAlone w) := by
  unfold SucceedsAlone
  split <;> infer_instance

/-- An event whose own process step succeeds is handled as if there were no `errno`. -/
def PushesEvent (step : Step LibLang World) : Prop :=
  step.act = .op .pollRecv → SucceedsAlone step.before → ∀ depth c recved,
    (recvEvent c recved).run (handler depth) step.before =
      (recvAlone c recved).run (handler depth) step.before

/-- Nothing is left in `errno` when an event comes whose process step succeeds. -/
def ErrnoClear (step : Step LibLang World) : Prop :=
  step.act = .op .pollRecv → SucceedsAlone step.before → step.before.sys.errno = 0

/-! ## Process functions -/

/-- The events of `w'` are events of `w`, with the same fields. -/
def EvtsKeep (w w' : World) : Prop :=
  ∀ e x, evtAt w'.heap e = some x → evtAt w.heap e = some x

section Frames

variable {w w' : World}

theorem evtsKeep_setMod {m : ℕ} {f : Mod → Mod} (h : w.setMod m f = some w') :
    EvtsKeep w w' := by
  obtain ⟨-, rfl⟩ := World.setMod_eq_some.mp h
  intro e x hx
  simp only [evtAt_eq_some, val_modify] at hx ⊢
  split at hx
  next =>
    obtain ⟨o, ho, hmap⟩ := Option.map_eq_some_iff.mp hx
    cases o <;> simp_all [Obj.mapMod]
  next => exact hx

theorem evtsKeep_unrefAll {ps : List ℕ} (hs : Settled w.heap) (h : w.unrefAll ps = some w') :
    EvtsKeep w w' := by
  unfold World.unrefAll at h
  simp only [Option.bind_eq_bind, Option.bind_eq_some_iff, Option.some.injEq] at h
  obtain ⟨⟨heap, sys⟩, hrelease, rfl⟩ := h
  intro e x hx
  obtain ⟨c', hc', hval'⟩ := Option.map_eq_some_iff.mp (evtAt_eq_some.mp hx)
  obtain ⟨c, hc, hval, -⟩ := (release_releasing hs hrelease).cells e c' hc'
  rw [evtAt_eq_some, val, hc, Option.map_some, ← hval, hval']

theorem settled_setMod {m : ℕ} {f : Mod → Mod} (hs : Settled w.heap)
    (h : w.setMod m f = some w') : Settled w'.heap := by
  obtain ⟨-, rfl⟩ := World.setMod_eq_some.mp h
  intro p c hc
  rw [get_modify] at hc
  split at hc
  next =>
    obtain ⟨c', hc', rfl⟩ := Option.map_eq_some_iff.mp hc
    exact hs p c' hc'
  next => exact hs p c hc

theorem evtsKeep_subscriptionsRemove {m : ℕ} {topic : String} {ret : ℤ} (hs : Settled w.heap)
    (h : w.subscriptionsRemove m topic = some (ret, w')) : EvtsKeep w w' := by
  unfold World.subscriptionsRemove at h
  simp only [Option.bind_eq_bind, Option.bind_eq_some_iff] at h
  obtain ⟨x, -, h⟩ := h
  split at h
  next =>
    cases h
    exact fun _ _ hx => hx
  next =>
    split at h
    next =>
      cases h
      exact fun _ _ hx => hx
    next =>
      simp only [Option.bind_eq_some_iff, Option.some.injEq] at h
      obtain ⟨u, hset, v, hunref, h⟩ := h
      cases h
      intro e x hx
      exact evtsKeep_setMod hset e x (evtsKeep_unrefAll (settled_setMod hs hset) hunref e x hx)

theorem evtsKeep_bstRemove {m : ℕ} {type : MSrcType} {data : Words} {ret : ℤ}
    (hs : Settled w.heap) (h : w.bstRemove m type data = some (ret, w')) : EvtsKeep w w' := by
  unfold World.bstRemove at h
  simp only [Option.bind_eq_bind, Option.bind_eq_some_iff, Option.some.injEq] at h
  obtain ⟨x, -, ⟨found, t, destroyed⟩, -, u, hset, v, hunref, h⟩ := h
  cases h
  intro e x hx
  exact evtsKeep_setMod hset e x (evtsKeep_unrefAll (settled_setMod hs hset) hunref e x hx)

/-- Dropping a reference that is not the last one only changes their number. -/
theorem unrefAll_shared {p k : ℕ} {o : Obj} (hp : get w.heap p = some ⟨k + 2, o⟩) :
    w.unrefAll [p] = some { w with heap := put w.heap p (some ⟨k + 1, o⟩) } := by
  have hbudget : budget w.heap ≠ 0 := by
    have hlt := lt_length hp
    unfold budget
    omega
  obtain ⟨fuel, hfuel⟩ := Nat.exists_eq_succ_of_ne_zero hbudget
  unfold World.unrefAll
  rw [hfuel]
  simp [release, hp]

theorem errno_readMsg {s : Sys} {fd : Option ℕ} (h : (s.readMsg fd).1.isSome) :
    (s.readMsg fd).2.errno = s.errno := by
  unfold Sys.readMsg at h ⊢
  split
  next p hp =>
    simp only [hp] at h
    split
    next hmsgs => simp [hmsgs] at h
    next => rfl
  next => simp at h

theorem errno_readPriv {s : Sys} (h : s.readPriv.1 = 0) : s.readPriv.2.errno = s.errno := by
  simp only [Sys.readPriv, Sys.fault_eq] at h ⊢
  split
  next hfault =>
    simp only [hfault, ne_eq, not_false_eq_true, if_true] at h
  next => rfl

end Frames

/-- An event that is new, with a source that the event is not alone to hold. -/
structure Prepared (u : World) (this : ℕ) (s : EvSource) (e : ℕ) : Prop where
  settled : Settled u.heap
  source : ∃ k, get u.heap this = some ⟨k + 2, .src s⟩
  event : ∃ x, evtAt u.heap e = some x ∧ x.src = some this

theorem received_of_nextEvt {w u : World} {this m e : ℕ} {s : EvSource}
    (h : nextEvt w = some (this, s, m, e, u)) :
    ∃ v, w.pollRecv = some (some this, v) ∧ srcAt v.heap this = some s ∧ s.mod = some m ∧
      v.newEvt (some this) = some (e, u) := by
  unfold nextEvt at h
  simp only [Option.bind_eq_bind, Option.bind_eq_some_iff, Option.some.injEq, Prod.mk.injEq] at h
  obtain ⟨⟨_, v⟩, hrecv, _, rfl, _, hsrc, _, hmod, ⟨_, _⟩, hnew, rfl, rfl, rfl, rfl, rfl⟩ := h
  exact ⟨v, hrecv, hsrc, hmod, hnew⟩

/-- The event whose process step succeeds is received in these steps. -/
theorem SucceedsAlone.received {w : World} (h : SucceedsAlone w) :
    ∃ this v s m e u, w.pollRecv = some (some this, v) ∧ srcAt v.heap this = some s ∧
      s.mod = some m ∧ v.newEvt (some this) = some (e, u) ∧ ProcessSucceeds s e u := by
  unfold SucceedsAlone at h
  split at h
  next => exact False.elim h
  next this s m e u hnext =>
    obtain ⟨v, hrecv, hsrc, hmod, hnew⟩ := received_of_nextEvt hnext
    exact ⟨this, v, s, m, e, u, hrecv, hsrc, hmod, hnew, h⟩

theorem World.pollRecv_same {w v : World} {r : Option ℕ} (hrecv : w.pollRecv = some (r, v)) :
    v.heap = w.heap ∧ v.sys = w.sys ∧ v.host = w.host := by
  unfold World.pollRecv at hrecv
  split at hrecv
  next => cases hrecv
  next batch batches _ =>
    simp only [Option.bind_eq_bind, Option.bind_eq_some_iff] at hrecv
    obtain ⟨x, -, slots, -, hrecv⟩ := hrecv
    split at hrecv
    next =>
      simp only [Option.some.injEq, Prod.mk.injEq] at hrecv
      exact hrecv.2 ▸ ⟨rfl, rfl, rfl⟩
    next => cases hrecv

theorem prepared_of_received {w v u : World} {this e : ℕ} {s : EvSource} (hs : Settled w.heap)
    (hrecv : w.pollRecv = some (some this, v)) (hsrc : srcAt v.heap this = some s)
    (hnew : v.newEvt (some this) = some (e, u)) : Prepared u this s e ∧ u.sys = w.sys := by
  have hsame := World.pollRecv_same hrecv
  have hevolves : Evolves none v u := .newEvt (hsame.1 ▸ hs) hnew
  unfold World.newEvt World.ref at hnew
  simp only [Option.bind_eq_bind, Option.bind_some, Option.bind_eq_some_iff, Option.some.injEq]
    at hnew
  obtain ⟨s', hs', _, ⟨c, hc, rfl⟩, hnew⟩ := hnew
  cases hsrc.symm.trans hs'
  cases hnew
  obtain ⟨refs, o⟩ := c
  have hval : o = .src s := by
    have hval := srcAt_eq_some.mp hsrc
    simpa [val, hc] using hval
  subst hval
  have hpos : 0 < refs := hs this _ (hsame.1 ▸ hc)
  have hne : this ≠ v.heap.length := (lt_length hc).ne
  refine ⟨⟨hevolves.settled, ⟨refs - 1, ?_⟩, ⟨⟨s.type, .null, some this, .user 0⟩, ?_, rfl⟩⟩,
    hsame.2.1⟩
  · simp only [get_alloc, length_put, hne, if_false, get_put_self hc]
    rw [show refs + 1 = refs - 1 + 2 by omega]
  · rw [evtAt_eq_some, val_alloc, if_pos (by simp)]

/-- What a process function that succeeds leaves: an event with data, and `errno` as it
was. -/
structure Processed (u : World) (this e : ℕ) (p : Option ℕ) (v : World) : Prop where
  ends : ∀ depth, (processSrc this e).Ends (handler depth) u p v
  settled : Settled v.heap
  errno : v.sys.errno = u.sys.errno
  data : ∃ x, evtAt v.heap e = some x ∧ x.data ≠ .null

theorem evtAt_modify_evt {h : Heap Obj} {e : ℕ} {x : EvtPriv} {f : EvtPriv → EvtPriv}
    (hx : evtAt h e = some x) : evtAt (modify h e (Obj.mapEvt f)) e = some (f x) := by
  rw [evtAt_eq_some, val_modify, if_pos rfl, evtAt_eq_some.mp hx]
  rfl

section Process

variable {u : World} {this e : ℕ} {s : EvSource}

theorem setEvtOther_exec (h : Prepared u this s e) :
    (Op.setEvtOther e).exec u = some ((), { u with
      heap := modify u.heap e (Obj.mapEvt (fun x => { x with data := .other })) }) := by
  obtain ⟨x, hx, -⟩ := h.event
  simp [Op.exec, World.setEvt, hx]

theorem srcAt_prepared (h : Prepared u this s e) : srcAt u.heap this = some s := by
  obtain ⟨k, hk⟩ := h.source
  simp [val, hk]

/-- Sources that have nothing to read from the library's own descriptor. -/
theorem processed_plain (h : Prepared u this s e) (htype : s.type = .fd ∨ s.type = .pid) :
    ∃ p v, Processed u this e p v := by
  have hexec := setEvtOther_exec h
  obtain ⟨x, hx, -⟩ := h.event
  refine ⟨some this, _, ?_, (Op.evolves h.settled hexec).settled, rfl,
    ⟨_, evtAt_modify_evt hx, by simp⟩⟩
  intro depth
  unfold processSrc
  simp only [Prog.ends_bind, derefSrc_ends]
  refine ⟨s, u, ⟨srcAt_prepared h, rfl⟩, ?_⟩
  rcases htype with htype | htype
  all_goals
    simp only [htype, Prog.ends_bind, act_ends, hexec]
    exact ⟨(), _, rfl, Prog.ends_pure.mpr ⟨rfl, rfl⟩⟩

theorem processed_read (h : Prepared u this s e)
    (htype : s.type = .tmr ∨ s.type = .sgn ∨ s.type = .path ∨ s.type = .task ∨
      s.type = .thresh) (hread : u.sys.readPriv.1 = 0) :
    ∃ p v, Processed u this e p v := by
  have hexec := setEvtOther_exec h
  obtain ⟨x, hx, -⟩ := h.event
  refine ⟨some this, { u with
      heap := modify u.heap e (Obj.mapEvt (fun x => { x with data := .other }))
      sys := u.sys.readPriv.2 }, ?_, (Op.evolves h.settled hexec).settled,
    errno_readPriv hread, ⟨_, evtAt_modify_evt hx, by simp⟩⟩
  intro depth
  unfold processSrc
  simp only [Prog.ends_bind, derefSrc_ends]
  refine ⟨s, u, ⟨srcAt_prepared h, rfl⟩, ?_⟩
  rcases htype with htype | htype | htype | htype | htype
  all_goals
    simp only [htype, Prog.ends_bind, act_ends, hexec]
    exact ⟨(), _, rfl, _, _, rfl, Prog.ends_pure.mpr ⟨rfl, rfl⟩⟩

/-- The message is read, and its subscription takes the place of the source. -/
theorem processed_ps (h : Prepared u this s e) (htype : s.type = .ps)
    (hread : (u.sys.readMsg s.fd).1.isSome) (hexec : (u.processPs e).isSome) :
    ∃ p v, Processed u this e p v := by
  obtain ⟨⟨p, v⟩, hexec⟩ := Option.isSome_iff_exists.mp hexec
  obtain ⟨x, hx, hxsrc⟩ := h.event
  obtain ⟨k, hk⟩ := h.source
  have hends : ∀ depth, (processSrc this e).Ends (handler depth) u p v := by
    intro depth
    unfold processSrc
    simp only [Prog.ends_bind, derefSrc_ends]
    refine ⟨s, u, ⟨srcAt_prepared h, rfl⟩, ?_⟩
    rw [htype]
    exact act_ends.mpr hexec
  have hsettled := (Op.evolves (o := .processPs e) h.settled hexec).settled
  unfold World.processPs at hexec
  simp only [Option.bind_eq_bind, hx, hxsrc, srcAt_prepared h, Option.bind_some] at hexec
  obtain ⟨mm, hmm⟩ := Option.isSome_iff_exists.mp hread
  simp only [hmm] at hexec
  simp only [Option.bind_eq_some_iff] at hexec
  obtain ⟨g, -, u₁, hset, u₂, hunref, hexec⟩ := hexec
  obtain ⟨-, rfl⟩ := World.setEvt_eq_some.mp hset
  -- the event itself is another object than the source
  have hne : e ≠ this := by
    rintro rfl
    have hval := evtAt_eq_some.mp hx
    simp [val, hk] at hval
  rw [unrefAll_shared (k := k) (o := .src s) (by simp only [get_modify, hne, if_false, hk])]
    at hunref
  cases hunref
  suffices hleft : v.sys.errno = u.sys.errno ∧ ∃ y, evtAt v.heap e = some y ∧ y.data ≠ .null from
    ⟨p, v, hends, hsettled, hleft.1, hleft.2⟩
  have hevt : evtAt (put (modify u.heap e
      (Obj.mapEvt (fun y => { y with data := .ps mm, src := none }))) this
      (some ⟨k + 1, .src s⟩)) e = some { x with data := .ps mm, src := none } := by
    rw [evtAt_eq_some, val, get_put_ne hne.symm]
    exact evtAt_eq_some.mp (evtAt_modify_evt hx)
  split at hexec
  next =>
    simp only [Option.bind_eq_some_iff, Option.some.injEq, Prod.mk.injEq] at hexec
    obtain ⟨u₃, hset', -, rfl⟩ := hexec
    obtain ⟨-, rfl⟩ := World.setEvt_eq_some.mp hset'
    exact ⟨errno_readMsg hread, _, evtAt_modify_evt hevt, by simp⟩
  next sub _ =>
    simp only [Option.bind_eq_some_iff, Option.some.injEq, Prod.mk.injEq] at hexec
    obtain ⟨u₃, href, u₄, hset', -, rfl⟩ := hexec
    obtain ⟨-, rfl⟩ := World.setEvt_eq_some.mp hset'
    unfold World.ref at href
    simp only [Option.bind_eq_bind, Option.bind_eq_some_iff, Option.some.injEq] at href
    obtain ⟨cell, hcell, rfl⟩ := href
    refine ⟨errno_readMsg hread, _, evtAt_modify_evt (x := { x with data := .ps mm, src := none })
      ?_, by simp⟩
    rw [evtAt_eq_some, val_put_same hcell]
    exact evtAt_eq_some.mp hevt

theorem processed_of_succeeds (h : Prepared u this s e) (hok : ProcessSucceeds s e u) :
    ∃ p v, Processed u this e p v := by
  unfold ProcessSucceeds at hok
  cases htype : s.type with
  | ps =>
      simp only [htype] at hok
      exact processed_ps h htype hok.1 hok.2
  | fd => exact processed_plain h (.inl htype)
  | pid => exact processed_plain h (.inr htype)
  | tmr | sgn | path | task | thresh =>
      simp only [htype] at hok
      exact processed_read h (by simp [htype]) hok

end Process

/-! ## After the process step -/

theorem getErrno_ends {depth : ℕ} {w w' : World} {errno : ℤ} :
    getErrno.Ends (handler depth) w errno w' ↔ errno = w.sys.errno ∧ w' = w := by
  simp [getErrno, and_comm]

theorem act_head? {depth : ℕ} {w : World} (o : Op) :
    (Prog.run (α := o.Resp) (handler depth) (act o) w).steps.head? = some ⟨.op o, w⟩ := by
  rw [act, Prog.run_perform]
  split <;> rfl

section After

variable {depth : ℕ} {v t : World} {m e : ℕ} {p : Option ℕ}

/-- The removal of a source that has fired leaves the events alone. -/
theorem removeOneshot_ends (hs : Settled v.heap)
    (h : (removeOneshot m p).Ends (handler depth) v () t) : EvtsKeep v t := by
  unfold removeOneshot at h
  cases p with
  | none =>
      obtain ⟨-, rfl⟩ := Prog.ends_pure.mp h
      exact fun _ _ hx => hx
  | some p =>
      simp only [Prog.ends_bind, derefSrc_ends] at h
      obtain ⟨s, u, ⟨-, rfl⟩, h⟩ := h
      split at h
      next =>
        split at h
        next =>
          simp only [Prog.ends_bind, act_ends, Prog.ends_pure] at h
          obtain ⟨ret, u', hexec, -, rfl⟩ := h
          exact evtsKeep_subscriptionsRemove hs hexec
        next =>
          simp only [Prog.ends_bind, act_ends, Prog.ends_pure] at h
          obtain ⟨ret, u', hexec, -, rfl⟩ := h
          exact evtsKeep_bstRemove hs hexec
      next =>
        obtain ⟨-, rfl⟩ := Prog.ends_pure.mp h
        exact fun _ _ hx => hx

/-- Without an error the event is pushed: it has data. -/
theorem consumeEvt_run {recved : ℕ} {x : EvtPriv} (hs : Settled v.heap)
    (hx : evtAt v.heap e = some x) (hdata : x.data ≠ .null) :
    (consumeEvt m e p recved 0).run (handler depth) v =
      (pushOrStop m e p recved).run (handler depth) v := by
  unfold consumeEvt pushOrStop
  rw [if_neg (by simp)]
  apply Prog.run_bind_congr
  intro _ t hends
  apply Prog.run_bind_congr
  intro y t' hy
  obtain ⟨hy, rfl⟩ := derefEvt_ends.mp hy
  cases hx.symm.trans (removeOneshot_ends hs hends e y hy)
  rw [if_neg hdata]

theorem pushOrStop_head? (recved : ℕ) :
    ((pushOrStop m e p recved).run (handler depth) v).steps.head? = some ⟨.op .get, v⟩ := by
  unfold pushOrStop
  cases p with
  | none =>
      show ((derefEvt e >>= _).run (handler depth) v).steps.head? = _
      exact Prog.head?_bind (Prog.head?_bind (act_head? .get))
  | some p => exact Prog.head?_bind (Prog.head?_bind (Prog.head?_bind (act_head? .get)))

/-- With an error the first step is to drop the event. -/
theorem consumeEvt_run_ne {recved : ℕ} {err : ℤ} (herr : err ≠ 0) :
    (consumeEvt m e p recved err).run (handler depth) v ≠
      (pushOrStop m e p recved).run (handler depth) v := by
  intro heq
  have hdrop : ((consumeEvt m e p recved err).run (handler depth) v).steps.head? =
      some ⟨.op (.unrefEvt e), v⟩ := by
    unfold consumeEvt
    rw [if_pos herr]
    exact Prog.head?_bind (act_head? (.unrefEvt e))
  rw [heq, pushOrStop_head?] at hdrop
  cases hdrop

end After

/-! ## Runs -/

/-- From a state with an event that succeeds, `recv_events` goes on as if there were no
`errno` exactly when it is zero. -/
theorem recvEvent_run_iff {depth : ℕ} {w : World} (hs : Settled w.heap)
    (hok : SucceedsAlone w) (c recved : ℕ) :
    (recvEvent c recved).run (handler depth) w = (recvAlone c recved).run (handler depth) w ↔
      w.sys.errno = 0 := by
  obtain ⟨this, w₁, s, m, e, u, hrecv, hsrc, hmod, hnew, hok⟩ := hok.received
  obtain ⟨hprepared, hsys⟩ := prepared_of_received hs hrecv hsrc hnew
  obtain ⟨p, v, hprocessed⟩ := processed_of_succeeds hprepared hok
  obtain ⟨x, hx, hdata⟩ := hprocessed.data
  have herrno : v.sys.errno = w.sys.errno := by rw [hprocessed.errno, hsys]
  have hpolled : Op.pollRecv.exec w = some (some this, w₁) := hrecv
  have hmade : (Op.newEvt (some this)).exec w₁ = some (e, u) := hnew
  unfold recvEvent recvAlone
  rw [Prog.run_bind_eq_iff (act_ends.mpr hpolled)]
  dsimp only
  rw [Prog.run_bind_eq_iff (derefSrc_ends.mpr ⟨hsrc, rfl⟩), hmod]
  dsimp only
  rw [Prog.run_bind_eq_iff (act_ends.mpr hmade), Prog.run_bind_eq_iff (hprocessed.ends depth),
    Prog.run_bind_eq_iff (getErrno_ends.mpr ⟨rfl, rfl⟩), ← herrno]
  constructor
  · intro heq
    by_contra herr
    exact consumeEvt_run_ne herr heq
  · intro hzero
    rw [hzero]
    exact consumeEvt_run hprocessed.settled hx hdata

/-- A module with two timers that elapse at once, whose callback leaves an error number
for the first. -/
def twoTimers : Out LibLang World Unit :=
  machine.runCalls 8
    [.mCtxRegister "ctx" 0, .mModRegister "a" true (some onEvtOnly) 0, .mModStart (some 1),
      .mModSrcRegister (some 1) .tmr (tmrKey 1000) 0 0,
      .mModSrcRegister (some 1) .tmr (tmrKey 2000) 0 0, .mCtxDispatch, .mCtxDispatch]
    (startFrom [⟨[.setErrno 5], true⟩] [⟨[(2, false), (3, false)], 0⟩])

/-- An event is received whose process step will succeed, with something left in `errno`. -/
def isLate (step : Step LibLang World) : Bool :=
  match step.act with
  | .op .pollRecv => step.before.sys.errno ≠ 0 ∧ SucceedsAlone step.before
  | _ => false

theorem isLate_iff {step : Step LibLang World} :
    isLate step ↔
      step.act = .op .pollRecv ∧ step.before.sys.errno ≠ 0 ∧ SucceedsAlone step.before := by
  unfold isLate
  split <;> simp_all

end Libmodule
