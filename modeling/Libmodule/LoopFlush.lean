import Libmodule.Delivery
import Libmodule.ModuleIteration

/-!
# Messages that are pending when a loop stops

`loop_stop` flushes the pipes of all modules of its context, and has a delivery
path of its own for that: it makes the event of a message from the subscription
the message came for, which a message without one does not have, and it leaves
the events alone that are already queued for a batch.
-/

namespace Libmodule

open RefHeap Reentrant

/-- The loop of `flush_pubsub_msgs`: the events that are then handed to the module. -/
def flushLoop (stoppingMod : Bool) (m : ℕ) : Lm (List ℕ) := do
  let fd := (← derefMod m).pubsubFd0
  let rounds := ((← getWorld).sys.waiting fd).length + 1
  flushRounds m stoppingMod rounds []

def IsRunning (w : World) (m : ℕ) : Prop := (modAt w.heap m).map Mod.state = some .running

instance (w : World) (m : ℕ) : Decidable (IsRunning w m) := inferInstanceAs (Decidable (_ = _))

/-- The message that a step of the flush of `m` reads from the pipe. -/
def readBy (m : ℕ) (step : Step LibLang World) : Option ℕ :=
  match step.act with
  | .op (.flushMsg m' _) => if m' = m then (step.before.inbox m).head? else none
  | _ => none

/-- The pipe that a module reads. -/
def World.pipeOf (w : World) (m : ℕ) : Option ℕ :=
  (modAt w.heap m).bind fun x =>
    match w.sys.file x.pubsubFd0 with
    | .pipeRead p => some p
    | _ => none

/-- The messages left in a pipe, also when its reader has been closed. -/
def World.left (w : World) (p : Option ℕ) : List ℕ := (p.bind (fun p => w.sys.pipes[p]?)).getD []

/-! ## One module -/

/-- What is pending for a running module is handed to its callback, each event once and
in the order in which it was sent: the batch queue, then the pipe. -/
structure Delivered (visit : Visit) : Prop where
  handed : ∃ evts u,
    (flushLoop false visit.mod).Ends (handler visit.depth) visit.state
      (visit.state.batched visit.mod ++ evts) u ∧
    evts.map u.carried = (visit.state.inbox visit.mod).map some ∧ evts.Nodup ∧
    u.inbox visit.mod = []
  called : ∀ evts u ret w',
    (flushLoop false visit.mod).Ends (handler visit.depth) visit.state evts u → evts ≠ [] →
    (flushPubsubMsgs false visit.mod).Ends (handler visit.depth) visit.state ret w' →
    ∃ step ∈ (visit.run .flushPubsubMsgs).steps, ∃ recv,
      step.act = .hook (.onEvt visit.mod recv evts)

/-- What is pending for a module that does not run is read and dropped, each message once. -/
def Released (visit : Visit) : Prop :=
  ∀ evts u, (flushLoop false visit.mod).Ends (handler visit.depth) visit.state evts u →
    evts = [] ∧ u.inbox visit.mod = [] ∧
    ((flushLoop false visit.mod).run (handler visit.depth) visit.state).steps.filterMap
      (readBy visit.mod) = visit.state.inbox visit.mod ∧
    ∀ g ∈ visit.state.inbox visit.mod, refs visit.state.heap g = 1 → ¬ Live u.heap g

/-- The flush of one module does with its pending messages what it is for. -/
structure FlushedRight (visit : Visit) : Prop where
  running : IsRunning visit.state visit.mod → Delivered visit
  other : ¬ IsRunning visit.state visit.mod → Released visit

/-- The message has come for a subscription that is still there. -/
def ForSubscription (w : World) (g : ℕ) : Prop :=
  ∃ y sub s, msgAt w.heap g = some y ∧ y.sub = some sub ∧ srcAt w.heap sub = some s

/-- A running module has no event in its batch queue and only messages for subscriptions in
its pipe; the pipe of another module is not closed before it is read to its end. -/
structure FlushReady (visit : Visit) : Prop where
  running : IsRunning visit.state visit.mod → visit.state.batched visit.mod = [] ∧
    ∀ g ∈ visit.state.inbox visit.mod, ForSubscription visit.state g
  other : ¬ IsRunning visit.state visit.mod → ∀ evts u,
    (flushLoop false visit.mod).Ends (handler visit.depth) visit.state evts u →
    u.left (visit.state.pipeOf visit.mod) = []

/-! ## A running module -/

/-- Objects keep their values, and new ones may come. -/
structure Keeps (w w' : World) : Prop where
  grows : w.heap.length ≤ w'.heap.length
  same : ∀ p < w.heap.length, val w'.heap p = val w.heap p

theorem Keeps.trans {w w₁ w₂ : World} (h₁ : Keeps w w₁) (h₂ : Keeps w₁ w₂) : Keeps w w₂ where
  grows := h₁.grows.trans h₂.grows
  same := fun p hp => (h₂.same p (hp.trans_le h₁.grows)).trans (h₁.same p hp)

theorem val_lt_length {h : Heap Obj} {p : ℕ} {o : Obj} (hp : val h p = some o) :
    p < h.length := by
  obtain ⟨cell, hcell, -⟩ := Option.map_eq_some_iff.mp hp
  exact lt_length hcell

section Running

variable {v u w' : World} {m g : ℕ} {msgs : List ℕ}

theorem inbox_eq {x : Mod} (hx : modAt v.heap m = some x) :
    v.inbox m = v.sys.waiting x.pubsubFd0 := by
  simp [World.inbox, hx]

theorem readMsg_of_waiting {s : Sys} {fd : Option ℕ} (h : s.waiting fd = g :: msgs) :
    ∃ p, s.file fd = .pipeRead p ∧ s.readMsg fd = (some g, { s with pipes := s.pipes.set p msgs }) ∧
      ({ s with pipes := s.pipes.set p msgs } : Sys).waiting fd = msgs := by
  unfold Sys.waiting at h
  split at h
  next p hp =>
    refine ⟨p, hp, ?_, ?_⟩
    · simp only [Sys.readMsg, hp, h]
    · have hlt : p < s.pipes.length := by
        by_contra hge
        simp [List.getElem?_eq_none (not_lt.mp hge)] at h
      have hfile : ({ s with pipes := s.pipes.set p msgs } : Sys).file fd = .pipeRead p := hp
      simp [Sys.waiting, hfile, hlt]
  next => cases h

theorem readMsg_of_nothing {s : Sys} {fd : Option ℕ} (h : s.waiting fd = []) :
    ∃ e, s.readMsg fd = (none, { s with errno := e }) := by
  unfold Sys.waiting at h
  split at h
  next p hp =>
    refine ⟨EAGAIN, ?_⟩
    simp only [Sys.readMsg, hp, h]
  next hp =>
    refine ⟨EBADF, ?_⟩
    unfold Sys.readMsg
    split
    next p hp' => exact absurd hp' (hp p)
    next => rfl

/-- Nothing is left to read. -/
theorem flushMsg_nothing {x : Mod} (stopping : Bool) (hx : modAt v.heap m = some x)
    (h : v.inbox m = []) :
    ∃ u, v.flushMsg m stopping = some (.empty, u) ∧ u.heap = v.heap ∧ u.inbox m = [] ∧
      u.sys.pipes = v.sys.pipes ∧ u.sys.files = v.sys.files := by
  unfold World.flushMsg
  simp only [Option.bind_eq_bind, hx, Option.bind_some]
  split
  next => exact ⟨v, rfl, rfl, h, rfl, rfl⟩
  next =>
    rw [inbox_eq hx] at h
    obtain ⟨e, hread⟩ := readMsg_of_nothing h
    rw [hread]
    exact ⟨_, rfl, rfl, (inbox_eq (x := x) hx).trans h, rfl, rfl⟩

theorem pubsubFd0_of_inbox {x : Mod} (hx : modAt v.heap m = some x)
    (h : v.inbox m = g :: msgs) : x.pubsubFd0 ≠ none := by
  intro hnone
  rw [inbox_eq hx, hnone] at h
  simp [Sys.waiting, Sys.file] at h

/-- What a round leaves that reads `g` for a running module: its event is new. -/
structure ReadEvent (v : World) (m g : ℕ) (msgs : List ℕ) (u : World) : Prop where
  keeps : Keeps v u
  new : u.heap.length = v.heap.length + 1
  carried : u.carried v.heap.length = some g
  inbox : u.inbox m = msgs

theorem keeps_newEvt {src : Option ℕ} {e : ℕ} (h : v.newEvt src = some (e, u)) :
    e = v.heap.length ∧ Keeps v u ∧ u.heap.length = v.heap.length + 1 ∧ u.sys = v.sys ∧
      ∃ x, evtAt u.heap e = some x := by
  unfold World.newEvt World.ref at h
  simp only [Option.bind_eq_bind, Option.bind_eq_some_iff, Option.some.injEq] at h
  obtain ⟨p, -, s, -, _, ⟨cell, hcell, rfl⟩, h⟩ := h
  cases h
  refine ⟨length_put _ _ _, ⟨?_, ?_⟩, ?_, rfl, ?_⟩
  · simp
  · intro q hq
    rw [val_alloc, if_neg (by simp; omega), val_put_same hcell]
  · simp
  · exact ⟨_, by rw [evtAt_eq_some, val_alloc, if_pos rfl]⟩

theorem flushMsg_event {fl : Flushed} (hrun : IsRunning v m) (h : v.inbox m = g :: msgs)
    (hexec : v.flushMsg m false = some (fl, u)) :
    ForSubscription v g ∧ fl = .event v.heap.length ∧ ReadEvent v m g msgs u := by
  obtain ⟨x, hx, hstate⟩ := Option.map_eq_some_iff.mp hrun
  have hfd := pubsubFd0_of_inbox hx h
  rw [inbox_eq hx] at h
  obtain ⟨p, hfile, hread, hrest⟩ := readMsg_of_waiting h
  unfold World.flushMsg at hexec
  simp only [Option.bind_eq_bind, hx, Option.bind_some, hfd, if_false, hread] at hexec
  simp only [Option.bind_eq_some_iff] at hexec
  obtain ⟨y, hy, hexec⟩ := hexec
  rw [if_pos (by simp [hstate])] at hexec
  simp only [Option.bind_eq_some_iff, Option.some.injEq] at hexec
  obtain ⟨⟨e, u₁⟩, hnew, u₂, hset, hexec⟩ := hexec
  cases hexec
  obtain ⟨rfl, hkeeps, hlength, hsys, z, hz⟩ := keeps_newEvt hnew
  obtain ⟨-, rfl⟩ := World.setEvt_eq_some.mp hset
  refine ⟨?_, rfl, ⟨?_, ?_⟩, ?_, ?_, ?_⟩
  · unfold World.newEvt at hnew
    simp only [Option.bind_eq_bind, Option.bind_eq_some_iff] at hnew
    obtain ⟨sub, hsub, s, hs, -⟩ := hnew
    exact ⟨y, sub, s, hy, hsub, hs⟩
  · simp only [length_modify, hlength]
    omega
  · intro q hq
    rw [val_modify, if_neg (ne_of_gt hq), hkeeps.same q hq]
  · simp only [length_modify, hlength]
  · have hcarried : evtAt (modify u₁.heap v.heap.length
        (Obj.mapEvt (fun y => { y with data := .ps g }))) v.heap.length =
        some { z with data := .ps g } := by
      rw [evtAt_eq_some, val_modify, if_pos rfl, evtAt_eq_some.mp hz]
      rfl
    simp only [World.carried, hcarried, Option.map_some]
  · have hlt := val_lt_length (modAt_eq_some.mp hx)
    have hmod : modAt (modify u₁.heap v.heap.length
        (Obj.mapEvt (fun y => { y with data := .ps g }))) m = some x := by
      rw [modAt_eq_some, val_modify, if_neg (ne_of_gt hlt), hkeeps.same m hlt]
      exact modAt_eq_some.mp hx
    refine (inbox_eq (x := x) hmod).trans ?_
    exact (congrArg (fun sys => sys.waiting x.pubsubFd0) hsys).trans hrest

theorem flushMsg_of_forSubscription (hrun : IsRunning v m) (h : v.inbox m = g :: msgs)
    (hg : ForSubscription v g) : ∃ fl u, v.flushMsg m false = some (fl, u) := by
  obtain ⟨x, hx, hstate⟩ := Option.map_eq_some_iff.mp hrun
  have hfd := pubsubFd0_of_inbox hx h
  rw [inbox_eq hx] at h
  obtain ⟨p, hfile, hread, hrest⟩ := readMsg_of_waiting h
  obtain ⟨y, sub, s, hy, hsub, hs⟩ := hg
  obtain ⟨cell, hcell, -⟩ := Option.map_eq_some_iff.mp (srcAt_eq_some.mp hs)
  unfold World.flushMsg
  simp only [Option.bind_eq_bind, hx, Option.bind_some, hfd, if_false, hread, hy]
  rw [if_pos (by simp [hstate])]
  have hnew : ∃ r, ({ v with sys := { v.sys with pipes := v.sys.pipes.set p msgs } } : World).newEvt
      y.sub = some r := by
    simp [World.newEvt, World.ref, hsub, hs, hcell]
  obtain ⟨⟨e, u⟩, hnew⟩ := hnew
  obtain ⟨-, -, -, -, z, hz⟩ := keeps_newEvt hnew
  simp [hnew, World.setEvt, hz]

theorem Keeps.val_eq {o : Obj} {p : ℕ} (h : Keeps v u) (hp : val v.heap p = some o) :
    val u.heap p = some o := by
  rw [h.same p (val_lt_length hp), hp]

theorem Keeps.isRunning (h : Keeps v u) (hrun : IsRunning v m) : IsRunning u m := by
  obtain ⟨x, hx, hstate⟩ := Option.map_eq_some_iff.mp hrun
  have hx' : modAt u.heap m = some x := modAt_eq_some.mpr (h.val_eq (modAt_eq_some.mp hx))
  simp [IsRunning, hx', hstate]

theorem Keeps.forSubscription (h : Keeps v u) (hg : ForSubscription v g) :
    ForSubscription u g := by
  obtain ⟨y, sub, s, hy, hsub, hs⟩ := hg
  exact ⟨y, sub, s, msgAt_eq_some.mpr (h.val_eq (msgAt_eq_some.mp hy)), hsub,
    srcAt_eq_some.mpr (h.val_eq (srcAt_eq_some.mp hs))⟩

theorem Keeps.carried {e : ℕ} (h : Keeps v u) (he : v.carried e = some g) :
    u.carried e = some g := by
  unfold World.carried at he ⊢
  cases hx : evtAt v.heap e with
  | none => simp [hx] at he
  | some x =>
      rw [evtAt_eq_some.mpr (h.val_eq (evtAt_eq_some.mp hx))]
      rwa [hx] at he

/-- The only object that is new is an event. -/
theorem ReadEvent.val_before {p : ℕ} {o : Obj} (h : ReadEvent v m g msgs u)
    (ho : ∀ x, o ≠ .evt x) (hp : val u.heap p = some o) : val v.heap p = some o := by
  have hlt := val_lt_length hp
  rw [h.new] at hlt
  by_cases hnew : p = v.heap.length
  · have hcarried := h.carried
    unfold World.carried at hcarried
    cases hx : evtAt u.heap v.heap.length with
    | none => simp [hx] at hcarried
    | some x =>
        rw [hnew, evtAt_eq_some.mp hx] at hp
        exact absurd (Option.some.inj hp).symm (ho x)
  · rw [← h.keeps.same p (by omega), hp]

theorem ReadEvent.forSubscription {g' : ℕ} (h : ReadEvent v m g msgs u)
    (hg : ForSubscription u g') : ForSubscription v g' := by
  obtain ⟨y, sub, s, hy, hsub, hs⟩ := hg
  exact ⟨y, sub, s, msgAt_eq_some.mpr (h.val_before nofun (msgAt_eq_some.mp hy)), hsub,
    srcAt_eq_some.mpr (h.val_before nofun (srcAt_eq_some.mp hs))⟩

variable {depth rounds : ℕ} {acc evts : List ℕ}

/-- Messages for subscriptions all become events. -/
theorem flushRounds_ready (depth : ℕ) (acc : List ℕ) (hrun : IsRunning v m)
    (hrounds : (v.inbox m).length < rounds)
    (hready : ∀ g ∈ v.inbox m, ForSubscription v g) :
    ∃ evts u, (flushRounds m false rounds acc).Ends (handler depth) v (acc ++ evts) u ∧
      evts.map u.carried = (v.inbox m).map some ∧ (∀ e ∈ evts, v.heap.length ≤ e) ∧
      evts.Nodup ∧ u.inbox m = [] ∧ Keeps v u := by
  induction rounds generalizing v acc with
  | zero => omega
  | succ rounds ih =>
      obtain ⟨x, hx, -⟩ := Option.map_eq_some_iff.mp hrun
      cases hmsgs : v.inbox m with
      | nil =>
          obtain ⟨u, hexec, hheap, hempty, -⟩ := flushMsg_nothing false hx hmsgs
          refine ⟨[], u, ?_, by simp, by simp, by simp, hempty, ?_⟩
          · rw [flushRounds]
            simp only [Prog.ends_bind, act_ends]
            exact ⟨.empty, u, hexec, by simp⟩
          · exact ⟨hheap ▸ le_rfl, fun p _ => by rw [hheap]⟩
      | cons g msgs =>
          rw [hmsgs] at hready hrounds
          obtain ⟨fl, u₁, hexec⟩ := flushMsg_of_forSubscription hrun hmsgs (hready g (by simp))
          obtain ⟨-, rfl, hread⟩ := flushMsg_event hrun hmsgs hexec
          obtain ⟨evts, u, hends, hcarried, hnew, hnodup, hempty, hkeeps⟩ :=
            ih (acc ++ [v.heap.length]) (hread.keeps.isRunning hrun)
              (by rw [hread.inbox]; simpa using hrounds)
              (fun g' hg' => hread.keeps.forSubscription
                (hready g' (List.mem_cons_of_mem _ (hread.inbox ▸ hg'))))
          refine ⟨v.heap.length :: evts, u, ?_, ?_, ?_, ?_, hempty, hread.keeps.trans hkeeps⟩
          · rw [flushRounds]
            simp only [Prog.ends_bind, act_ends]
            refine ⟨.event v.heap.length, u₁, hexec, ?_⟩
            simpa using hends
          · rw [List.map_cons, List.map_cons, hkeeps.carried hread.carried, hcarried, hread.inbox]
          · intro e he
            rcases List.mem_cons.mp he with rfl | he
            · exact le_rfl
            · exact hread.keeps.grows.trans (hnew e he)
          · rw [List.nodup_cons]
            refine ⟨fun he => ?_, hnodup⟩
            have hge := hnew _ he
            rw [hread.new] at hge
            omega

/-- Only messages for subscriptions become events, one event each. -/
theorem ready_of_flushRounds (hrun : IsRunning v m) (hrounds : (v.inbox m).length < rounds)
    (h : (flushRounds m false rounds acc).Ends (handler depth) v evts u) :
    (∀ g ∈ v.inbox m, ForSubscription v g) ∧ evts.length = acc.length + (v.inbox m).length := by
  induction rounds generalizing v acc with
  | zero => omega
  | succ rounds ih =>
      obtain ⟨x, hx, -⟩ := Option.map_eq_some_iff.mp hrun
      rw [flushRounds] at h
      simp only [Prog.ends_bind, act_ends] at h
      obtain ⟨fl, u₁, hexec, h⟩ := h
      have hflush : v.flushMsg m false = some (fl, u₁) := hexec
      cases hmsgs : v.inbox m with
      | nil =>
          obtain ⟨u', hempty, -⟩ := flushMsg_nothing false hx hmsgs
          cases hempty.symm.trans hflush
          obtain ⟨rfl, -⟩ := Prog.ends_pure.mp h
          simp
      | cons g msgs =>
          obtain ⟨hg, rfl, hread⟩ := flushMsg_event hrun hmsgs hflush
          rw [hmsgs] at hrounds
          obtain ⟨hrest, hlength⟩ := ih (v := u₁) (hread.keeps.isRunning hrun)
            (by rw [hread.inbox]; simpa using hrounds) h
          rw [hread.inbox] at hrest hlength
          refine ⟨?_, ?_⟩
          · intro g' hg'
            rcases List.mem_cons.mp hg' with rfl | hg'
            · exact hg
            · exact hread.forSubscription (hrest g' hg')
          · rw [hlength]
            simp
            omega

end Running

/-! ## A module that does not run -/

/-- Descriptors are only closed, and nothing is read or written. -/
structure Sys.Fades (s s' : Sys) : Prop where
  pipes : s'.pipes = s.pipes
  files : ∀ fd, s'.file fd = s.file fd ∨ s'.file fd = .closed

namespace Sys.Fades

theorem refl (s : Sys) : s.Fades s := ⟨rfl, fun _ => .inl rfl⟩

theorem trans {s s₁ s₂ : Sys} (h₁ : s.Fades s₁) (h₂ : s₁.Fades s₂) : s.Fades s₂ where
  pipes := h₂.pipes.trans h₁.pipes
  files := by
    intro fd
    rcases h₂.files fd with hsame | hclosed
    · rw [hsame]
      exact h₁.files fd
    · exact .inr hclosed

theorem of_eq {s s' : Sys} (hpipes : s'.pipes = s.pipes) (hfiles : s'.files = s.files) :
    s.Fades s' :=
  ⟨hpipes, fun fd => .inl (by simp only [Sys.file, hfiles])⟩

variable (s : Sys)

theorem close (fd : Option ℕ) : s.Fades (s.close fd) := by
  unfold Sys.close
  split
  next => exact of_eq rfl rfl
  next => exact of_eq rfl rfl
  next q _ =>
    refine ⟨rfl, fun fd' => ?_⟩
    cases fd' with
    | none => exact .inl rfl
    | some p =>
        simp only [Sys.file, Option.bind_some, List.getElem?_set]
        by_cases hp : q = p
        · subst hp
          by_cases hlt : q < s.files.length <;> simp [hlt]
        · simp [hp]

theorem epollDel (c : ℕ) (fd : Option ℕ) : s.Fades (s.epollDel c fd).2 := by
  unfold Sys.epollDel
  split
  next => exact of_eq rfl rfl
  next => exact of_eq rfl rfl
  next => split <;> exact of_eq rfl rfl

theorem pollSetNewEvt_rm (c p : ℕ) (src : EvSource) :
    s.Fades (pollSetNewEvt c p src .rm s).2.2 := by
  unfold pollSetNewEvt
  split
  next => exact refl s
  next =>
    have hreset : s.Fades { s with errno := 0 } := of_eq rfl rfl
    have hdel := hreset.trans (epollDel { s with errno := 0 } c src.fd)
    dsimp only
    split
    next => exact hdel.trans (close _ _)
    next => exact hdel

theorem srcDisarm {h : Heap Obj} {p : ℕ} {t : EvSource} {s' : Sys}
    (hdisarm : srcDisarm h p t s = some s') : s.Fades s' := by
  unfold Libmodule.srcDisarm at hdisarm
  split at hdisarm
  next => cases hdisarm; exact refl s
  next =>
    simp only [Option.bind_eq_bind, Option.bind_eq_some_iff] at hdisarm
    obtain ⟨mod, -, hdisarm⟩ := hdisarm
    split at hdisarm
    next =>
      obtain ⟨x, -, hdisarm⟩ := Option.bind_eq_some_iff.mp hdisarm
      cases hdisarm
      exact pollSetNewEvt_rm s _ _ _
    next => cases hdisarm; exact refl s

theorem srcAutoclose (t : EvSource) : s.Fades (srcAutoclose t s) := by
  unfold Libmodule.srcAutoclose
  split
  next => exact close s _
  next => exact refl s

theorem srcAutofree (p : ℕ) (t : EvSource) : s.Fades (srcAutofree p t s) := by
  unfold Libmodule.srcAutofree
  split <;> exact of_eq rfl rfl

theorem ctxDtor (h : Heap Obj) (p : ℕ) (c : Ctx) : s.Fades (ctxDtor h p c s) := by
  unfold Libmodule.ctxDtor
  dsimp only
  split
  next => exact of_eq rfl rfl
  next => exact (pollSetNewEvt_rm s _ _ _).trans (of_eq rfl rfl)

/-- A destructor reads no pipe and writes none. -/
theorem dtor {h : Heap Obj} {p : ℕ} {o : Obj} {s' : Sys}
    (hdtor : Obj.dtor h p o s = some s') : s.Fades s' := by
  cases o with
  | ctx c => cases hdtor; exact ctxDtor s _ _ _
  | mod m => cases hdtor; exact refl s
  | src t =>
      simp only [Obj.dtor] at hdtor
      split at hdtor
      next => cases hdtor; exact srcAutofree s _ _
      next =>
        obtain ⟨s₁, hs₁, rfl⟩ := Option.map_eq_some_iff.mp hdtor
        exact ((srcDisarm s hs₁).trans (srcAutoclose s₁ t)).trans (srcAutofree _ _ _)
  | msg g =>
      cases hdtor
      unfold psMsgDtor
      split <;> exact of_eq rfl rfl
  | evt e => cases hdtor; exact refl s

end Sys.Fades

/-- What dropping references leaves: the objects that are still there are as they were, and
descriptors have at most been closed. -/
structure Drops (w w' : World) : Prop where
  files : ∀ fd, w'.sys.file fd = w.sys.file fd ∨ w'.sys.file fd = .closed
  cells : ∀ p c', get w'.heap p = some c' →
    ∃ c, get w.heap p = some c ∧ c'.val = c.val ∧ c'.refs ≤ c.refs

theorem Drops.trans {w w₁ w₂ : World} (h₁ : Drops w w₁) (h₂ : Drops w₁ w₂) : Drops w w₂ where
  files := by
    intro fd
    rcases h₂.files fd with hsame | hclosed
    · rw [hsame]
      exact h₁.files fd
    · exact .inr hclosed
  cells := by
    intro p c₂ hc₂
    obtain ⟨c₁, hc₁, hval₁, hrefs₁⟩ := h₂.cells p c₂ hc₂
    obtain ⟨c, hc, hval, hrefs⟩ := h₁.cells p c₁ hc₁
    exact ⟨c, hc, hval₁.trans hval, hrefs₁.trans hrefs⟩

section Other

variable {v u : World} {m g : ℕ} {msgs : List ℕ}

theorem Drops.val_before {p : ℕ} {o : Obj} (h : Drops v u) (hp : val u.heap p = some o) :
    val v.heap p = some o := by
  obtain ⟨c', hc', rfl⟩ := Option.map_eq_some_iff.mp hp
  obtain ⟨c, hc, hval, -⟩ := h.cells p c' hc'
  simp [val, hc, hval]

theorem Drops.refs_le (h : Drops v u) (p : ℕ) : refs u.heap p ≤ refs v.heap p := by
  cases hc' : get u.heap p with
  | none => simp [refs, hc']
  | some c' =>
      obtain ⟨c, hc, -, hrefs⟩ := h.cells p c' hc'
      simpa [refs, hc, hc'] using hrefs

theorem Drops.not_isRunning (h : Drops v u) (hrun : ¬ IsRunning v m) : ¬ IsRunning u m := by
  intro hrun'
  obtain ⟨x, hx, hstate⟩ := Option.map_eq_some_iff.mp hrun'
  have hbefore : modAt v.heap m = some x :=
    modAt_eq_some.mpr (h.val_before (modAt_eq_some.mp hx))
  exact hrun (by simp [IsRunning, hbefore, hstate])

/-- A module keeps its pipe, or cannot read it any more. -/
theorem Drops.pipeOf (h : Drops v u) : u.pipeOf m = v.pipeOf m ∨ u.pipeOf m = none := by
  cases hx : modAt u.heap m with
  | none => simp [World.pipeOf, hx]
  | some x =>
      have hbefore : modAt v.heap m = some x :=
        modAt_eq_some.mpr (h.val_before (modAt_eq_some.mp hx))
      simp only [World.pipeOf, hx, hbefore, Option.bind_some]
      rcases h.files x.pubsubFd0 with hsame | hclosed
      · rw [hsame]
        exact .inl rfl
      · rw [hclosed]
        exact .inr rfl

theorem inbox_of_pipeOf {p : ℕ} (h : v.pipeOf m = some p) : v.inbox m = v.left (some p) := by
  obtain ⟨x, hx, hfile⟩ := Option.bind_eq_some_iff.mp h
  rw [inbox_eq hx, World.left]
  split at hfile
  next q hq =>
    cases hfile
    simp [Sys.waiting, hq]
  next => cases hfile

theorem inbox_of_no_pipe (h : v.pipeOf m = none) : v.inbox m = [] := by
  cases hx : modAt v.heap m with
  | none => simp [World.inbox, hx]
  | some x =>
      rw [inbox_eq hx]
      simp only [World.pipeOf, hx, Option.bind_some] at h
      cases hfile : v.sys.file x.pubsubFd0 with
      | pipeRead p => simp [hfile] at h
      | _ => simp [Sys.waiting, hfile]

/-- What a round leaves that reads `g` for a module that does not run. -/
structure ReadDropped (v : World) (m g p : ℕ) (msgs : List ℕ) (u : World) : Prop where
  drops : Drops v u
  left : u.left (some p) = msgs
  released : refs v.heap g = 1 → refs u.heap g = 0

theorem unrefAll_fades {ps : List ℕ} (h : v.unrefAll ps = some u) : v.sys.Fades u.sys := by
  unfold World.unrefAll at h
  simp only [Option.bind_eq_bind, Option.bind_eq_some_iff, Option.some.injEq] at h
  obtain ⟨⟨heap, sys⟩, hrelease, rfl⟩ := h
  exact release_induct (fun _ _ sys => v.sys.Fades sys) (fun _ _ _ _ hI => hI)
    (fun _ _ _ _ _ _ hI _ => hI)
    (fun _ _ _ _ _ _ hI _ hdtor => hI.trans (Sys.Fades.dtor _ hdtor))
    (Sys.Fades.refl v.sys) hrelease

theorem unrefAll_cells {ps : List ℕ} (h : v.unrefAll ps = some u) : ∀ p c', get u.heap p = some c' →
    ∃ c, get v.heap p = some c ∧ c'.val = c.val ∧ c'.refs ≤ c.refs := by
  unfold World.unrefAll at h
  simp only [Option.bind_eq_bind, Option.bind_eq_some_iff, Option.some.injEq] at h
  obtain ⟨⟨heap, sys⟩, hrelease, rfl⟩ := h
  exact release_cells hrelease

theorem refs_unrefAll_last (h : v.unrefAll [g] = some u) (hg : refs v.heap g = 1) :
    refs u.heap g = 0 := by
  unfold World.unrefAll at h
  simp only [Option.bind_eq_bind, Option.bind_eq_some_iff, Option.some.injEq] at h
  obtain ⟨⟨heap, sys⟩, hrelease, rfl⟩ := h
  cases hget : get v.heap g with
  | none => simp [refs, hget] at hg
  | some c =>
      obtain ⟨k, b⟩ := c
      obtain rfl : k = 1 := by simpa [refs, hget] using hg
      exact refs_release_last hget hrelease

theorem flushMsg_destroyed {fl : Flushed} {p : ℕ} (hrun : ¬ IsRunning v m)
    (hpipe : v.pipeOf m = some p) (h : v.left (some p) = g :: msgs)
    (hexec : v.flushMsg m false = some (fl, u)) :
    fl = .destroyed ∧ ReadDropped v m g p msgs u := by
  obtain ⟨x, hx, hfile⟩ := Option.bind_eq_some_iff.mp hpipe
  rw [← inbox_of_pipeOf hpipe] at h
  have hfd := pubsubFd0_of_inbox hx h
  have hstate : x.state ≠ .running := fun hstate => hrun (by simp [IsRunning, hx, hstate])
  rw [inbox_eq hx] at h
  obtain ⟨q, hq, hread, hrest⟩ := readMsg_of_waiting h
  rw [hq] at hfile
  cases hfile
  unfold World.flushMsg at hexec
  simp only [Option.bind_eq_bind, hx, Option.bind_some, hfd, if_false, hread] at hexec
  simp only [Option.bind_eq_some_iff] at hexec
  obtain ⟨y, hy, hexec⟩ := hexec
  rw [if_neg (by simp [hstate])] at hexec
  simp only [Option.bind_eq_some_iff, Option.some.injEq] at hexec
  obtain ⟨u₁, hunref, hexec⟩ := hexec
  cases hexec
  have hfades := unrefAll_fades hunref
  have hcells := unrefAll_cells hunref
  have hlast := refs_unrefAll_last hunref
  refine ⟨rfl, ⟨hfades.files, hcells⟩, ?_, hlast⟩
  simp only [World.left, Option.bind_some, hfades.pipes]
  have hfile : ({ v.sys with pipes := v.sys.pipes.set p msgs } : Sys).file x.pubsubFd0 =
      .pipeRead p := hq
  simpa only [Sys.waiting, hfile] using hrest

/-! ### The loop -/

variable {depth rounds : ℕ} {acc evts : List ℕ}

theorem act_bind_steps {o : Op} {r : o.Resp} {α : Type} {f : o.Resp → Lm α}
    (h : o.exec v = some (r, u)) :
    ((act o >>= f).run (handler depth) v).steps =
      ⟨.op o, v⟩ :: ((f r).run (handler depth) u).steps := by
  have hexec : (handler depth).exec o v = some (r, u) := by
    rw [handler, machine.handler_exec depth]
    exact h
  rw [Prog.run_bind, act, Prog.run_perform_some hexec, Out.after_bind, Out.bind_done,
    Out.after_steps]

/-- Messages for a module that does not run are read in their order and dropped, until the
pipe is empty or closed. -/
theorem flushRounds_other {p : Option ℕ} (hrun : ¬ IsRunning v m)
    (hpipe : v.pipeOf m = p ∨ v.pipeOf m = none) (hrounds : (v.left p).length < rounds)
    (h : (flushRounds m false rounds acc).Ends (handler depth) v evts u) :
    evts = acc ∧ u.inbox m = [] ∧
      (((flushRounds m false rounds acc).run (handler depth) v).steps.filterMap (readBy m)) ++
        u.left p = v.left p ∧ Drops v u ∧
      ∀ g ∈ ((flushRounds m false rounds acc).run (handler depth) v).steps.filterMap (readBy m),
        refs v.heap g = 1 → refs u.heap g = 0 := by
  induction rounds generalizing v acc with
  | zero => omega
  | succ rounds ih =>
      rw [flushRounds] at h ⊢
      simp only [Prog.ends_bind, act_ends] at h
      obtain ⟨fl, u₁, hexec, h⟩ := h
      rw [act_bind_steps hexec]
      have hflush : v.flushMsg m false = some (fl, u₁) := hexec
      have hx : ∃ x, modAt v.heap m = some x := by
        unfold World.flushMsg at hflush
        obtain ⟨x, hx, -⟩ := Option.bind_eq_some_iff.mp hflush
        exact ⟨x, hx⟩
      obtain ⟨x, hx⟩ := hx
      cases hinbox : v.inbox m with
      | nil =>
          obtain ⟨u', hempty, hheap, hnone, hpipes, hfiles⟩ :=
            flushMsg_nothing false hx hinbox
          cases hempty.symm.trans hflush
          obtain ⟨rfl, rfl⟩ := Prog.ends_pure.mp h
          have hread : readBy m ⟨.op (.flushMsg m false), v⟩ = none := by simp [readBy, hinbox]
          have hrest : ((pure evts : Lm (List ℕ)).run (handler depth) u).steps = [] := rfl
          refine ⟨rfl, hnone, ?_, ⟨?_, ?_⟩, ?_⟩
          · rw [List.filterMap_cons, hread, hrest]
            simp [World.left, hpipes]
          · exact fun fd => .inl (by simp only [Sys.file, hfiles])
          · rw [hheap]
            exact fun q c' hc' => ⟨c', hc', rfl, le_rfl⟩
          · rw [List.filterMap_cons, hread, hrest]
            simp
      | cons g msgs =>
          have hq : ∃ q, p = some q ∧ v.pipeOf m = some q := by
            rcases hpipe with hpipe | hpipe
            · cases hp : v.pipeOf m with
              | none => simp [inbox_of_no_pipe hp] at hinbox
              | some q => exact ⟨q, by rw [← hpipe, hp], rfl⟩
            · simp [inbox_of_no_pipe hpipe] at hinbox
          obtain ⟨q, rfl, hq⟩ := hq
          have hleft := hinbox
          rw [inbox_of_pipeOf hq] at hleft
          obtain ⟨rfl, hdropped⟩ := flushMsg_destroyed hrun hq hleft hflush
          have hread : readBy m ⟨.op (.flushMsg m false), v⟩ = some g := by
            simp [readBy, hinbox]
          rw [hleft] at hrounds
          obtain ⟨hevts, hempty, hsteps, hdrops, hdead⟩ := ih (v := u₁)
            (hdropped.drops.not_isRunning hrun) (by rw [← hq]; exact hdropped.drops.pipeOf)
            (by rw [hdropped.left]; simpa using hrounds) h
          refine ⟨hevts, hempty, ?_, hdropped.drops.trans hdrops, ?_⟩
          · rw [List.filterMap_cons, hread, hleft, List.cons_append]
            exact congrArg (g :: ·) (hsteps.trans hdropped.left)
          · intro g' hg' hone
            rw [List.filterMap_cons, hread] at hg'
            have hle := hdrops.refs_le g'
            rcases List.mem_cons.mp hg' with rfl | hg'
            · rw [hdropped.released hone] at hle
              omega
            · have hone' := hdropped.drops.refs_le g'
              rcases Nat.lt_or_ge (refs u₁.heap g') 1 with hzero | hpos
              · omega
              · exact hdead g' hg' (by omega)

end Other

/-! ## The flush of a module -/

section Flush

variable {depth : ℕ} {v u w' : World} {m : ℕ} {evts : List ℕ} {ret : ℤ}

theorem flushLoop_ends {stopping : Bool} :
    (flushLoop stopping m).Ends (handler depth) v evts u ↔
      ∃ x, modAt v.heap m = some x ∧
        (flushRounds m stopping ((v.inbox m).length + 1) []).Ends (handler depth) v evts u := by
  unfold flushLoop
  simp only [Prog.ends_bind, derefMod_ends, getWorld_ends]
  constructor
  · rintro ⟨x, _, ⟨hx, rfl⟩, _, _, ⟨rfl, rfl⟩, h⟩
    exact ⟨x, hx, by rw [inbox_eq hx]; exact h⟩
  · rintro ⟨x, hx, h⟩
    rw [inbox_eq hx] at h
    exact ⟨x, v, ⟨hx, rfl⟩, v, v, ⟨rfl, rfl⟩, h⟩

theorem ofReads_readBy (m : ℕ) : OfReads (fun step => readBy m step = none) where
  get := fun _ => rfl
  halt := fun _ => rfl

/-- Only the rounds of the loop read messages. -/
theorem flushLoop_reads {x : Mod} {stopping : Bool} (hx : modAt v.heap m = some x) :
    ((flushLoop stopping m).run (handler depth) v).steps.filterMap (readBy m) =
      ((flushRounds m stopping ((v.inbox m).length + 1) []).run
        (handler depth) v).steps.filterMap (readBy m) := by
  unfold flushLoop
  rw [Prog.steps_bind (derefMod_ends.mpr ⟨hx, rfl⟩),
    Prog.steps_bind (getWorld_ends.mpr ⟨rfl, rfl⟩), inbox_eq hx, List.filterMap_append,
    List.filterMap_append, List.filterMap_eq_nil_iff.mpr ((ofReads_readBy m).derefMod_every m),
    List.filterMap_eq_nil_iff.mpr (ofReads_readBy m).getWorld_every, List.nil_append,
    List.nil_append]

/-- Events that are handed over reach the callback. -/
theorem callPubsubCb_called {Q : Step LibLang World → Prop} (hevts : evts ≠ [])
    (h : (callPubsubCb m evts).Ends (handler depth) v () u)
    (hevery : (callPubsubCb m evts).Every (handler depth) Q v) :
    ∃ t recv, Q ⟨.hook (.onEvt m recv evts), t⟩ := by
  unfold callPubsubCb at h hevery
  rw [if_pos hevts] at h hevery
  simp only [Prog.ends_bind] at h
  simp only [Prog.every_bind] at hevery
  unfold memLock setCurrMod at h hevery
  simp only [Prog.ends_bind] at h
  obtain ⟨_, _, ⟨_, v₁, href, _, _, ⟨_, v₂, ⟨x, v₃, hx, hset⟩, y, v₄, hy, b, v₅, hnotify, -⟩, -⟩, -⟩ := h
  simp only [Prog.every_bind] at hevery
  have hinside := (hevery.1.2 _ _ href).1
  have hafter := hinside.2 _ _ (Prog.ends_bind.mpr ⟨x, v₃, hx, hset⟩)
  have hcall := (hafter.2 _ _ hy).1
  rw [notify, Prog.every_notify] at hcall
  exact ⟨_, _, hcall.1⟩

theorem flushPubsubMsgs_ends {stopping : Bool}
    (h : (flushPubsubMsgs stopping m).Ends (handler depth) v ret w') :
    ∃ flushed u, (flushLoop stopping m).Ends (handler depth) v flushed u ∧
      (callPubsubCb m flushed).Ends (handler depth) u () w' := by
  unfold flushPubsubMsgs at h
  simp only [Prog.ends_bind] at h
  obtain ⟨x, v₁, hx, v₂, v₃, hv, flushed, u, hrounds, _, w₁, hcall, hlast⟩ := h
  obtain ⟨-, rfl⟩ := Prog.ends_pure.mp hlast
  exact ⟨flushed, u, Prog.ends_bind.mpr ⟨x, v₁, hx, Prog.ends_bind.mpr ⟨v₂, v₃, hv, hrounds⟩⟩,
    hcall⟩

theorem flushPubsubMsgs_every {stopping : Bool} {Q : Step LibLang World → Prop}
    (hevery : (flushPubsubMsgs stopping m).Every (handler depth) Q v)
    (h : (flushLoop stopping m).Ends (handler depth) v evts u) :
    (callPubsubCb m evts).Every (handler depth) Q u := by
  unfold flushPubsubMsgs at hevery
  unfold flushLoop at h
  simp only [Prog.every_bind] at hevery
  simp only [Prog.ends_bind] at h
  obtain ⟨x, v₁, hx, v₂, v₃, hv, hrounds⟩ := h
  exact (((hevery.2 _ _ hx).2 _ _ hv).2 _ _ hrounds).1

theorem flushPubsubMsgs_called (hevts : evts ≠ [])
    (hloop : (flushLoop false m).Ends (handler depth) v evts u)
    (h : (flushPubsubMsgs false m).Ends (handler depth) v ret w') :
    ∃ step ∈ ((flushPubsubMsgs false m).run (handler depth) v).steps, ∃ recv,
      step.act = .hook (.onEvt m recv evts) := by
  by_contra hnone
  obtain ⟨flushed, u', hloop', hcall⟩ := flushPubsubMsgs_ends h
  obtain ⟨rfl, rfl⟩ := hloop.unique hloop'
  have hevery : (flushPubsubMsgs false m).Every (handler depth)
      (fun step => ∀ recv, step.act ≠ .hook (.onEvt m recv evts)) v :=
    fun step hstep recv hact => hnone ⟨step, hstep, recv, hact⟩
  obtain ⟨t, recv, hne⟩ := callPubsubCb_called hevts hcall (flushPubsubMsgs_every hevery hloop)
  exact hne recv rfl

end Flush

theorem delivered_iff {visit : Visit} (hrun : IsRunning visit.state visit.mod) :
    Delivered visit ↔ visit.state.batched visit.mod = [] ∧
      ∀ g ∈ visit.state.inbox visit.mod, ForSubscription visit.state g := by
  obtain ⟨x, hx, -⟩ := Option.map_eq_some_iff.mp hrun
  constructor
  · intro h
    obtain ⟨evts, u, hends, hcarried, -⟩ := h.handed
    obtain ⟨-, -, hrounds⟩ := flushLoop_ends.mp hends
    obtain ⟨hready, hlength⟩ := ready_of_flushRounds hrun (Nat.lt_succ_self _) hrounds
    refine ⟨?_, hready⟩
    -- as many events as messages leave no room for the batch queue
    have hsame := congrArg List.length hcarried
    simp only [List.length_map, List.length_append, List.length_nil] at hsame hlength
    exact List.eq_nil_of_length_eq_zero (by omega)
  · rintro ⟨hbatched, hready⟩
    obtain ⟨evts, u, hrounds, hcarried, -, hnodup, hempty, -⟩ :=
      flushRounds_ready visit.depth [] hrun
        (Nat.lt_succ_self (visit.state.inbox visit.mod).length) hready
    refine ⟨⟨evts, u, ?_, hcarried, hnodup, hempty⟩, ?_⟩
    · rw [hbatched]
      exact flushLoop_ends.mpr ⟨x, hx, hrounds⟩
    · intro evts' u' ret w' hloop hevts h
      exact flushPubsubMsgs_called hevts hloop h

theorem released_iff {visit : Visit} (hrun : ¬ IsRunning visit.state visit.mod) :
    Released visit ↔ ∀ evts u,
      (flushLoop false visit.mod).Ends (handler visit.depth) visit.state evts u →
      u.left (visit.state.pipeOf visit.mod) = [] := by
  have hloop : ∀ evts u,
      (flushLoop false visit.mod).Ends (handler visit.depth) visit.state evts u →
      evts = [] ∧ u.inbox visit.mod = [] ∧
        ((flushLoop false visit.mod).run (handler visit.depth) visit.state).steps.filterMap
          (readBy visit.mod) ++ u.left (visit.state.pipeOf visit.mod) =
            visit.state.inbox visit.mod ∧
        ∀ g ∈ ((flushLoop false visit.mod).run
            (handler visit.depth) visit.state).steps.filterMap (readBy visit.mod),
          refs visit.state.heap g = 1 → refs u.heap g = 0 := by
    intro evts u hends
    obtain ⟨x, hx, hrounds⟩ := flushLoop_ends.mp hends
    have hinbox : visit.state.inbox visit.mod =
        visit.state.left (visit.state.pipeOf visit.mod) := by
      cases hp : visit.state.pipeOf visit.mod with
      | none => rw [inbox_of_no_pipe hp]; rfl
      | some p => exact inbox_of_pipeOf hp
    obtain ⟨hevts, hempty, hsteps, -, hdead⟩ :=
      flushRounds_other hrun (.inl rfl) (by rw [← hinbox]; exact Nat.lt_succ_self _) hrounds
    rw [flushLoop_reads hx]
    exact ⟨hevts, hempty, hsteps.trans hinbox.symm, hdead⟩
  constructor
  · intro h evts u hends
    obtain ⟨-, -, hsteps, -⟩ := hloop evts u hends
    rw [(h evts u hends).2.2.1] at hsteps
    exact List.append_cancel_left (hsteps.trans (List.append_nil _).symm)
  · intro h evts u hends
    obtain ⟨hevts, hempty, hsteps, hdead⟩ := hloop evts u hends
    rw [h evts u hends, List.append_nil] at hsteps
    refine ⟨hevts, hempty, hsteps, fun g hg hone => ?_⟩
    rw [Live, hdead g (hsteps ▸ hg) hone]
    exact lt_irrefl 0

theorem flushedRight_iff (visit : Visit) : FlushedRight visit ↔ FlushReady visit := by
  constructor
  · intro h
    exact ⟨fun hrun => (delivered_iff hrun).mp (h.running hrun),
      fun hrun => (released_iff hrun).mp (h.other hrun)⟩
  · intro h
    exact ⟨fun hrun => (delivered_iff hrun).mpr (h.running hrun),
      fun hrun => (released_iff hrun).mpr (h.other hrun)⟩

/-! ## The loop stops -/

/-- The context `c` has the module `m`. -/
def RegisteredIn (w : World) (c m : ℕ) : Prop :=
  m ∈ ((ctxAt w.heap c).map (fun x => x.modules.values)).getD []

theorem RegisteredIn.ctx {w : World} {c m : ℕ} (h : RegisteredIn w c m) :
    ∃ x, ctxAt w.heap c = some x := by
  cases hx : ctxAt w.heap c with
  | none => simp [RegisteredIn, hx] at h
  | some x => exact ⟨x, rfl⟩

/-- A loop that stops flushes every module that stays registered, and each flush does with
the pending messages what it is for. -/
def FlushesAll (step : Step LibLang World) : Prop :=
  ∀ c, step.act = .call (.iterate .flushPubsubMsgs c 0) → ∀ depth,
    (∀ visit ∈ passVisits .flushPubsubMsgs c depth 0 step.before, FlushedRight visit) ∧
    ∀ ret w', (iterate .flushPubsubMsgs c 0).Ends (handler depth) step.before ret w' →
      ∀ m, RegisteredIn step.before c m → RegisteredIn w' c m →
        ∃ visit ∈ passVisits .flushPubsubMsgs c depth 0 step.before, visit.mod = m

/-- What ends a flush of all modules before the end of the table, at the entry of `m` at
`idx`: the callbacks register or deregister another module. -/
def StopsFlush (c depth idx m : ℕ) (v : World) (ret : ℤ) (u : World) : Prop :=
  ret = -EACCES ∧ (flushPubsubMsgs false m).Ends (handler depth) v 0 u ∧
    (∃ x, ctxAt u.heap c = some x) ∧ nextIdx v u c idx = none

/-- Every module is ready to be flushed when its turn comes, and the callbacks do not
register or deregister modules while one waits that is registered throughout. -/
def FlushesReady (step : Step LibLang World) : Prop :=
  ∀ c, step.act = .call (.iterate .flushPubsubMsgs c 0) → ∀ depth,
    (∀ visit ∈ passVisits .flushPubsubMsgs c depth 0 step.before, FlushReady visit) ∧
    LeavesNone .flushPubsubMsgs c (RegisteredIn · c) (StopsFlush c) depth 0 step.before
      (RegisteredIn step.before c)

theorem stopsFlush_iff {c depth idx m : ℕ} {v u : World} {ret : ℤ} :
    StopsFlush c depth idx m v ret u ↔ Halts .flushPubsubMsgs c depth idx m v ret u := by
  constructor
  · rintro ⟨rfl, hends, hctx, hnext⟩
    exact .changed hends hctx hnext
  · intro h
    cases h with
    | refused hrc hends =>
        have hzero := hends
        simp only [runIterFn, flushPubsubMsgs, Prog.ends_bind] at hzero
        obtain ⟨_, _, -, _, _, -, _, _, -, _, _, -, hlast⟩ := hzero
        exact absurd (Prog.ends_pure.mp hlast).1 hrc
    | changed hends hctx hnext => exact ⟨rfl, hends, hctx, hnext⟩

/-- A running module that is told something and quits the loop. -/
def toldBeforeQuit : Out LibLang World Unit :=
  machine.runCalls 8
    [.mCtxRegister "ctx" 0, .mModRegister "a" true (some onEvtOnly) 0, .mModStart (some 1),
      .mCtxDispatch, .mModPsTell (some 1) (some 1) (some 7) 0, .mCtxQuit 0, .mCtxDispatch]
    (startFrom [] [])

def startsFlush (step : Step LibLang World) : Bool :=
  match step.act with
  | .call (.iterate .flushPubsubMsgs 0 0) => true
  | _ => false

theorem startsFlush_iff {step : Step LibLang World} :
    startsFlush step ↔ step.act = .call (.iterate .flushPubsubMsgs 0 0) := by
  unfold startsFlush
  split <;> simp_all

def toldFlush : Step LibLang World := (toldBeforeQuit.steps.find? startsFlush).get (by decide +kernel)

end Libmodule
