import Libmodule.CallRun
import Libmodule.Queue

/-!
# The queue is a list

What a first-in first-out list with an iterator answers, and when the queue
answers the same.  The chain of elements is right after every call but one:
the tail pointer is cleared when an iterator removes the newest element, so an
enqueue that follows links its element to nothing.
-/

namespace Libmodule

open CallRun LinkedChain

inductive QueueCall (V : Type) where
  | enqueue (alloc : ElemAlloc V) (data : Option V)
  | dequeue
  | peek
  | remove
  | clear
  | len
  | itrNew (mem : Bool)
  | itrNext
  | itrRemove
  | itrGetData

inductive QueueAnswer (V : Type) where
  | code (ret : ℤ)
  | data (userptr : Option V)
  | itr (present : Bool)

/-- The queue, and the iterator in use; it is given up when the queue is changed in
another way. -/
structure QueueState (V : Type) where
  queue : Queue V
  itr : Option QueueItr

namespace QueueState

variable {V : Type}

def new (dtor : Bool) : QueueState V := ⟨Queue.mQueueNew dtor, none⟩

def exec (s : QueueState V) : QueueCall V → Option (QueueAnswer V × QueueState V)
  | .enqueue alloc data => do
      let (ret, q) ← s.queue.mQueueEnqueue alloc data
      some (.code ret, ⟨q, none⟩)
  | .dequeue => do
      let (data, q) ← s.queue.mQueueDequeue
      some (.data data, ⟨q, none⟩)
  | .peek => do
      let data ← s.queue.mQueuePeek
      some (.data data, s)
  | .remove => do
      let (ret, q) ← s.queue.mQueueRemove
      some (.code ret, ⟨q, none⟩)
  | .clear => do
      let (ret, q) ← s.queue.mQueueClear
      some (.code ret, ⟨q, none⟩)
  | .len => some (.code s.queue.mQueueLen, s)
  | .itrNew mem =>
      let itr := s.queue.mQueueItrNew mem
      some (.itr itr.isSome, { s with itr := itr })
  | .itrNext => do
      let (ret, itr) ← s.queue.mQueueItrNext s.itr
      some (.code ret, { s with itr := itr })
  | .itrRemove => do
      let (ret, q, itr) ← s.queue.mQueueItrRemove s.itr
      some (.code ret, ⟨q, itr⟩)
  | .itrGetData => do
      let data ← s.queue.mQueueItrGetData s.itr
      some (.data data, s)

end QueueState

/-! ## The list -/

/-- The elements, oldest first, and the place of an iterator; the flag says that
the element there was removed. -/
structure Fifo (V : Type) where
  elems : List V
  itr : Option (ℕ × Bool)

namespace Fifo

variable {V : Type}

def enqueue (f : Fifo V) (data : V) : Fifo V := ⟨f.elems ++ [data], none⟩

def dequeue (f : Fifo V) : Fifo V := ⟨f.elems.tail, none⟩

/-- The iterator at `pos`, gone when that is the end. -/
def moveTo (f : Fifo V) (pos : ℕ) : Fifo V :=
  { f with itr := if pos < f.elems.length then some (pos, false) else none }

/-- The element that the iterator shows. -/
def current (f : Fifo V) : Option V :=
  match f.itr with
  | some (pos, false) => f.elems[pos]?
  | _ => none

/-- What a list answers; `room` tells whether there is memory for the call. -/
def exec (f : Fifo V) (room : Bool) : QueueCall V → QueueAnswer V × Fifo V
  | .enqueue _ none => (.code (-EINVAL), { f with itr := none })
  | .enqueue _ (some data) =>
      if room then (.code 0, f.enqueue data) else (.code (-ENOMEM), { f with itr := none })
  | .dequeue => (.data f.elems.head?, f.dequeue)
  | .peek => (.data f.elems.head?, f)
  | .remove => (.code (if f.elems = [] then -EINVAL else 0), f.dequeue)
  | .clear => (.code (if f.elems = [] then -EINVAL else 0), ⟨[], none⟩)
  | .len => (.code f.elems.length, f)
  | .itrNew _ =>
      if room ∧ f.elems ≠ [] then (.itr true, { f with itr := some (0, false) })
      else (.itr false, { f with itr := none })
  | .itrNext =>
      match f.itr with
      | none => (.code (-EINVAL), f)
      | some (pos, removed) => (.code 0, f.moveTo (if removed then pos else pos + 1))
  | .itrRemove =>
      match f.itr with
      | none => (.code (-EINVAL), f)
      | some (_, true) => (.code (-EINVAL), f)
      | some (pos, false) => (.code 0, ⟨f.elems.eraseIdx pos, some (pos, true)⟩)
  | .itrGetData => (.data f.current, f)

end Fifo

/-- Whether the memory for a call is there. -/
def QueueCall.room {V : Type} (s : QueueState V) : QueueCall V → Bool
  | .enqueue alloc _ => (alloc.calloc s.queue.heap).isSome
  | .itrNew mem => mem
  | _ => true

/-! ## Representation -/

section Representation

variable {V : Type}

/-- The address of the pointer that follows the elements at `ns`. -/
def QueueState.slotOf (ns : List ℕ) : ElemSlot :=
  match ns.getLast? with
  | none => .head
  | some n => .prev n

open QueueState

/-- The elements `xs` of the queue are those of the list. -/
structure QueueState.Represents (s : QueueState V) (f : Fifo V)
    (xs : List (ℕ × QueueElem V)) : Prop where
  chain : Segment s.queue.heap QueueElem.prev s.queue.head none xs
  elems : xs.map (fun x => x.2.userptr) = f.elems
  len : s.queue.len = xs.length
  itr : s.itr = f.itr.map (fun i => ⟨slotOf ((addresses xs).take i.1), i.2⟩)
  itrAt : ∀ i, f.itr = some i → i.1 ≤ xs.length ∧ (i.2 = false → i.1 < xs.length)

/-- The tail is the newest element, or lost. -/
def TailOf (s : QueueState V) (xs : List (ℕ × QueueElem V)) : Prop :=
  s.queue.tail = none ∨ s.queue.tail = (addresses xs).getLast?

/-- The call answers as a list does, and leaves what the list is then. -/
def RefinesFifo (s : QueueState V) (call : QueueCall V) (ret : QueueAnswer V)
    (s' : QueueState V) : Prop :=
  ∃ f, (∃ xs, Represents s f xs) ∧ ret = (f.exec (call.room s) call).1 ∧
    ∃ xs, Represents s' (f.exec (call.room s) call).2 xs

/-- An enqueue finds the newest element of a queue that is not empty. -/
def EnqueuesAtTail (s : QueueState V) (call : QueueCall V) : Prop :=
  match call with
  | .enqueue _ (some _) => call.room s → s.queue.head.isSome → s.queue.tail.isSome
  | _ => True

variable {s : QueueState V} {f g : Fifo V} {xs ys zs : List (ℕ × QueueElem V)}

theorem QueueState.Represents.length (h : Represents s f xs) : xs.length = f.elems.length := by
  rw [← h.elems, List.length_map]

theorem length_addresses (xs : List (ℕ × QueueElem V)) : (addresses xs).length = xs.length :=
  List.length_map _

/-! ### Pointers of the chain -/

variable {q : Queue V}

theorem read_slotOf (h : Segment q.heap QueueElem.prev q.head none (xs ++ ys)) :
    q.read (slotOf (addresses xs)) = some (addresses ys).head? := by
  obtain ⟨p, hxs, hys⟩ := segment_append.mp h
  rcases List.eq_nil_or_concat xs with rfl | ⟨init, ⟨n, elem⟩, rfl⟩
  · obtain rfl : q.head = p := hxs
    simp only [slotOf, addresses_nil, List.getLast?_nil, Queue.read]
    rw [hys.head]
  · rw [List.concat_eq_append] at hxs ⊢
    obtain ⟨r, -, -, hn, hp⟩ := segment_append.mp hxs
    obtain rfl : elem.prev = p := hp
    simp [slotOf, Queue.read, hn, hys.head]

/-- Writing the pointer that follows `xs` replaces the rest of the chain. -/
theorem QueueState.write_slotOf {p : Option ℕ} (h : Segment q.heap QueueElem.prev q.head none (xs ++ ys))
    (hzs : Segment q.heap QueueElem.prev p none zs)
    (hdisjoint : ∀ n ∈ addresses xs, n ∉ addresses zs) :
    ∃ q' xs', q.write (slotOf (addresses xs)) p = some q' ∧
      Segment q'.heap QueueElem.prev q'.head none (xs' ++ zs) ∧
      addresses xs' = addresses xs ∧
      xs'.map (fun x => x.2.userptr) = xs.map (fun x => x.2.userptr) ∧
      q' = { q with head := q'.head, heap := q'.heap } := by
  obtain ⟨r, hxs, -⟩ := segment_append.mp h
  rcases List.eq_nil_or_concat xs with rfl | ⟨init, ⟨n, elem⟩, rfl⟩
  · exact ⟨{ q with head := p }, [], rfl, hzs, rfl, rfl, rfl⟩
  · rw [List.concat_eq_append] at h hxs hdisjoint ⊢
    have hnodup := h.nodup
    obtain ⟨t, hinit, rfl, hn, -⟩ := segment_append.mp hxs
    have hninit : n ∉ addresses init := by
      simp only [addresses_append, addresses_cons, addresses_nil] at hnodup
      rw [List.nodup_append, List.nodup_append] at hnodup
      intro hmem
      exact hnodup.1.2.2 n hmem n (by simp) rfl
    refine ⟨{ q with heap := Function.update q.heap n (some { elem with prev := p }) },
      init ++ [(n, { elem with prev := p })], ?_, ?_, by simp, by simp, rfl⟩
    · simp [slotOf, Queue.write, hn]
    · rw [List.append_assoc, segment_append]
      refine ⟨some n, hinit.update hninit _, rfl, by simp, ?_⟩
      exact hzs.update (hdisjoint n (by simp)) _

/-! ### One call -/

/-- The chain is right, and the tail where it should be or lost. -/
def Sound (s : QueueState V) : Prop := ∃ f xs, Represents s f xs ∧ TailOf s xs

def StepSpec (s : QueueState V) (call : QueueCall V) : Prop :=
  ∃ ret s', s.exec call = some (ret, s') ∧
    (RefinesFifo s call ret s' ↔ EnqueuesAtTail s call) ∧ (EnqueuesAtTail s call → Sound s')

theorem stepSpec_of_represents (s' : QueueState V) (ret : QueueAnswer V) {call : QueueCall V}
    (hs : Represents s f xs) (hexec : s.exec call = some (ret, s'))
    (hret : ret = (f.exec (call.room s) call).1)
    (hs' : Represents s' (f.exec (call.room s) call).2 ys) (htail : TailOf s' ys)
    (hcond : EnqueuesAtTail s call) : StepSpec s call :=
  ⟨ret, s', hexec, ⟨fun _ => hcond, fun _ => ⟨f, ⟨xs, hs⟩, hret, ys, hs'⟩⟩,
    fun _ => ⟨_, ys, hs', htail⟩⟩

/-- Giving up the iterator leaves the elements. -/
theorem QueueState.Represents.dropItr (h : Represents s f xs) :
    Represents { s with itr := none } { f with itr := none } xs :=
  { h with
    itr := rfl
    itrAt := nofun }

theorem TailOf.dropItr (h : TailOf s xs) : TailOf { s with itr := none } xs := h

theorem head?_ne_getLast? {n : ℕ} {ns : List ℕ} (hnodup : (n :: ns).Nodup) (hne : ns ≠ []) :
    some n ≠ (n :: ns).getLast? := by
  rw [List.getLast?_cons]
  intro heq
  obtain ⟨m, hm⟩ := Option.ne_none_iff_exists'.mp (mt List.getLast?_eq_none_iff.mp hne)
  rw [hm, Option.getD_some, Option.some.injEq] at heq
  subst heq
  exact (List.nodup_cons.mp hnodup).1 (List.mem_of_getLast? hm)

/-- The oldest element leaves the chain. -/
theorem mQueueDequeue_spec (h : Represents s f xs) (htail : TailOf s xs) :
    ∃ q' ys, s.queue.mQueueDequeue = some (f.elems.head?, q') ∧
      Represents ⟨q', none⟩ f.dequeue ys ∧ TailOf ⟨q', none⟩ ys ∧ q'.dtor = s.queue.dtor := by
  have hchain := h.chain
  cases xs with
  | nil =>
      have helems : f.elems = [] := by rw [← h.elems]; rfl
      have hlen : s.queue.len = 0 := h.len
      refine ⟨s.queue, [], by simp [Queue.mQueueDequeue, hlen, helems], ?_, htail, rfl⟩
      exact ⟨hchain, by simp [Fifo.dequeue, helems], hlen, rfl, nofun⟩
  | cons x xs =>
      obtain ⟨n, elem⟩ := x
      have helems : f.elems = elem.userptr :: xs.map (fun x => x.2.userptr) := h.elems.symm
      have hlen : s.queue.len = xs.length + 1 := h.len
      have hnodup : (n :: addresses xs).Nodup := hchain.nodup
      obtain ⟨hhead, hn, hrest⟩ := hchain
      refine ⟨{ s.queue with
          tail := if s.queue.tail = s.queue.head then none else s.queue.tail
          head := elem.prev
          heap := Function.update s.queue.heap n none
          len := xs.length }, xs, ?_, ?_, ?_, rfl⟩
      · simp only [Queue.mQueueDequeue, hlen, Nat.succ_pos, if_true, hhead, hn, helems,
          Option.bind_eq_bind, Option.bind_some, List.head?_cons, Queue.free]
        split <;> simp [hlen]
      · refine ⟨hrest.update (List.nodup_cons.mp hnodup).1 none, ?_, rfl, rfl, nofun⟩
        simp [Fifo.dequeue, helems]
      · simp only [TailOf, hhead]
        rcases htail with hnone | hlast
        · simp [hnone]
        · simp only [addresses_cons] at hlast
          cases xs with
          | nil => simp [hlast]
          | cons y ys =>
              right
              have hne := head?_ne_getLast? hnodup (by simp [addresses])
              rw [hlast, if_neg hne.symm, addresses, List.map_cons, List.getLast?_cons_cons]

/-- The address of a new element is none of the chain. -/
theorem fresh_notMem {alloc : ElemAlloc V} {elem : ℕ} {p : Option ℕ}
    (h : Segment q.heap QueueElem.prev p none xs) (halloc : alloc.calloc q.heap = some elem) :
    elem ∉ addresses xs := by
  intro hmem
  obtain ⟨node, hnode⟩ := h.allocated hmem
  rw [alloc.fresh q.heap elem halloc] at hnode
  cases hnode

/-- Behind its tail, the queue grows by the new element. -/
theorem mQueueEnqueue_spec {alloc : ElemAlloc V} {elem : ℕ} (data : V) (h : Represents s f xs)
    (htail : TailOf s xs) (halloc : alloc.calloc s.queue.heap = some elem)
    (hcond : s.queue.head.isSome → s.queue.tail.isSome) :
    ∃ q' ys, s.queue.mQueueEnqueue alloc (some data) = some (0, q') ∧
      Represents ⟨q', none⟩ (f.enqueue data) ys ∧ TailOf ⟨q', none⟩ ys := by
  have hfresh := fresh_notMem h.chain halloc
  have hchain := h.chain.update hfresh (some ⟨data, none⟩)
  have hlen := h.len
  cases htailEq : s.queue.tail with
  | none =>
      rw [htailEq] at hcond
      have hhead : s.queue.head = none := by simpa using hcond
      have hxs : addresses xs = [] := by
        rw [← List.head?_eq_none_iff, ← h.chain.head, hhead]
      obtain rfl : xs = [] := List.map_eq_nil_iff.mp hxs
      refine ⟨{ s.queue.newElem elem data with tail := some elem, head := some elem },
        [(elem, ⟨data, none⟩)], ?_, ?_, .inr rfl⟩
      · have htailNew : (s.queue.newElem elem data).tail = none := htailEq
        have hheadNew : (s.queue.newElem elem data).head = none := hhead
        simp [Queue.mQueueEnqueue, halloc, htailNew, hheadNew]
      · refine ⟨⟨rfl, by simp [Queue.newElem], rfl⟩, ?_, by simp [Queue.newElem, hlen], rfl, nofun⟩
        simp [Fifo.enqueue, ← h.elems]
  | some tail =>
      have hlast : (addresses xs).getLast? = some tail := by
        rcases htail with hnone | hlast
        · rw [htailEq] at hnone
          cases hnone
        · rw [← hlast, htailEq]
      have hslot : slotOf (addresses xs) = .prev tail := by rw [slotOf, hlast]
      have hzs : Segment (s.queue.newElem elem data).heap
          QueueElem.prev (some elem) none [(elem, ⟨data, none⟩)] :=
        ⟨rfl, by simp [Queue.newElem], rfl⟩
      have hdisjoint : ∀ n ∈ addresses xs, n ∉ addresses [(elem, (⟨data, none⟩ : QueueElem V))] := by
        intro n hn hmem
        obtain rfl : n = elem := by simpa using hmem
        exact hfresh hn
      obtain ⟨q', xs', hwrite, hsegment, haddresses, hvalues, hq'⟩ :=
        write_slotOf (q := s.queue.newElem elem data)
          (by rwa [List.append_nil xs]) hzs hdisjoint
      rw [hslot] at hwrite
      have hhead : q'.head.isSome := by
        rw [hsegment.head, addresses_append, haddresses]
        cases xs <;> simp
      refine ⟨{ q' with tail := some elem }, xs' ++ [(elem, ⟨data, none⟩)], ?_, ?_,
        .inr (by simp)⟩
      · have htailNew : (s.queue.newElem elem data).tail = some tail := htailEq
        obtain ⟨p, hp⟩ := Option.isSome_iff_exists.mp hhead
        simp [Queue.mQueueEnqueue, halloc, htailNew, hwrite, hp]
      · refine ⟨hsegment, ?_, ?_, rfl, nofun⟩
        · simp [hvalues, h.elems, Fifo.enqueue]
        · have hlength := congrArg List.length haddresses
          rw [length_addresses, length_addresses] at hlength
          rw [hq']
          simp [Queue.newElem, hlen, hlength]

/-- Without its tail, the queue counts an element that nothing leads to. -/
theorem mQueueEnqueue_lost {alloc : ElemAlloc V} {elem : ℕ} (data : V) (h : Represents s f xs)
    (halloc : alloc.calloc s.queue.heap = some elem) (hhead : s.queue.head.isSome)
    (htail : s.queue.tail = none) :
    ∃ q', s.queue.mQueueEnqueue alloc (some data) = some (0, q') ∧
      Segment q'.heap QueueElem.prev q'.head none xs ∧ q'.len = xs.length + 1 := by
  have hchain := h.chain.update (fresh_notMem h.chain halloc) (some ⟨data, none⟩)
  refine ⟨{ s.queue.newElem elem data with tail := some elem }, ?_, hchain,
    by simp [Queue.newElem, h.len]⟩
  obtain ⟨p, hp⟩ := Option.isSome_iff_exists.mp hhead
  have htailNew : (s.queue.newElem elem data).tail = none := htail
  have hheadNew : (s.queue.newElem elem data).head = some p := hp
  simp [Queue.mQueueEnqueue, halloc, htailNew, hheadNew]

/-- An iterator stands before the elements that it has not passed. -/
theorem QueueState.Represents.read_itr (h : Represents s f xs) {pos : ℕ} :
    s.queue.read (slotOf ((addresses xs).take pos)) = some (addresses xs)[pos]? := by
  have hchain := h.chain
  rw [← List.take_append_drop pos xs] at hchain
  have hread := read_slotOf hchain
  simp only [addresses, List.map_take, List.map_drop, List.head?_drop] at hread ⊢
  exact hread

theorem take_succ_slotOf {ns : List ℕ} {pos n : ℕ} (h : ns[pos]? = some n) :
    slotOf (ns.take (pos + 1)) = .prev n := by
  rw [List.take_add_one, h]
  simp [slotOf]

theorem QueueState.Represents.address (h : Represents s f xs) {pos : ℕ} (hpos : pos < xs.length) :
    ∃ n elem, xs[pos]? = some (n, elem) ∧ (addresses xs)[pos]? = some n ∧
      s.queue.heap n = some elem ∧ f.elems[pos]? = some elem.userptr := by
  have hchain := h.chain
  rw [← List.take_append_drop pos xs] at hchain
  obtain ⟨p, -, hdrop⟩ := segment_append.mp hchain
  rw [List.drop_eq_getElem_cons hpos] at hdrop
  have hget : xs[pos]? = some (xs[pos].1, xs[pos].2) := List.getElem?_eq_getElem hpos
  refine ⟨xs[pos].1, xs[pos].2, hget, ?_, hdrop.2.1, ?_⟩
  · simp [addresses, hget]
  · rw [← h.elems, List.getElem?_map, hget]
    rfl

theorem QueueState.Represents.itrElem (h : Represents s f xs) {pos : ℕ} {removed : Bool}
    (hpos : removed = false → pos < xs.length) :
    s.queue.itrElem ⟨slotOf ((addresses xs).take pos), removed⟩ =
      some (slotOf ((addresses xs).take (if removed then pos else pos + 1))) := by
  cases removed with
  | true => rfl
  | false =>
      obtain ⟨n, elem, -, hn, -⟩ := h.address (hpos rfl)
      simp [Queue.itrElem, h.read_itr, hn, take_succ_slotOf hn]

theorem QueueState.Represents.moveTo (h : Represents s f xs) (pos : ℕ) :
    Represents { s with itr :=
      if pos < xs.length then some ⟨slotOf ((addresses xs).take pos), false⟩ else none }
      (f.moveTo pos) xs := by
  rw [Fifo.moveTo, ← h.length]
  by_cases hpos : pos < xs.length
  · simp only [if_pos hpos]
    refine { h with itr := rfl, itrAt := ?_ }
    intro i hi
    cases hi
    exact ⟨Nat.le_of_lt hpos, fun _ => hpos⟩
  · simp only [if_neg hpos]
    exact h.dropItr

/-- The iterator moves on. -/
theorem mQueueItrNext_spec (h : Represents s f xs) :
    ∃ ret itr, s.queue.mQueueItrNext s.itr = some (ret, itr) ∧
      QueueAnswer.code ret = (f.exec true .itrNext).1 ∧
      Represents { s with itr := itr } (f.exec true .itrNext).2 xs := by
  have hitr := h.itr
  cases hf : f.itr with
  | none =>
      rw [hf] at hitr
      refine ⟨-EINVAL, none, by simp [hitr, Queue.mQueueItrNext], by simp [Fifo.exec, hf], ?_⟩
      simp only [Fifo.exec, hf]
      exact { h with itr := by simp [hf] }
  | some i =>
      obtain ⟨pos, removed⟩ := i
      rw [hf] at hitr
      have helem := h.itrElem (h.itrAt _ hf).2
      simp only [Fifo.exec, hf]
      refine ⟨0, _, ?_, rfl, h.moveTo _⟩
      rw [hitr]
      simp only [Queue.mQueueItrNext, Option.map_some, helem, Option.bind_eq_bind,
        Option.bind_some, h.read_itr]
      split
      next hnone =>
        have hge := List.getElem?_eq_none_iff.mp hnone
        rw [length_addresses] at hge
        rw [if_neg (Nat.not_lt.mpr hge)]
      next n hsome =>
        obtain ⟨hlt, -⟩ := List.getElem?_eq_some_iff.mp hsome
        rw [length_addresses] at hlt
        rw [if_pos hlt]

theorem exists_at {pos : ℕ} (hpos : pos < xs.length) :
    ∃ before x after, xs = before ++ x :: after ∧ pos = before.length := by
  refine ⟨xs.take pos, xs[pos], xs.drop (pos + 1), ?_, by simp [Nat.le_of_lt hpos]⟩
  rw [← List.drop_eq_getElem_cons hpos, List.take_append_drop]

theorem mQueueItrRemove_chain {before after : List (ℕ × QueueElem V)} {n : ℕ}
    {elem : QueueElem V} (h : Represents s f (before ++ (n, elem) :: after))
    (htail : TailOf s (before ++ (n, elem) :: after))
    (hitr : s.itr = some ⟨slotOf (addresses before), false⟩) :
    ∃ q' before', s.queue.mQueueItrRemove s.itr =
        some (0, q', some ⟨slotOf (addresses before), true⟩) ∧
      Segment q'.heap QueueElem.prev q'.head none (before' ++ after) ∧
      addresses before' = addresses before ∧
      before'.map (fun x => x.2.userptr) = before.map (fun x => x.2.userptr) ∧
      TailOf ⟨q', some ⟨slotOf (addresses before), true⟩⟩ (before' ++ after) ∧
      q'.len = (before' ++ after).length := by
  have hchain := h.chain
  have hnodup := hchain.nodup
  rw [addresses_append, addresses_cons, List.nodup_append, List.nodup_cons] at hnodup
  obtain ⟨hbefore, ⟨hnafter, hafter⟩, hdisjoint⟩ := hnodup
  have hnbefore : n ∉ addresses before := fun hn => hdisjoint n hn n (by simp) rfl
  obtain ⟨p, -, rfl, hn, hrest⟩ := segment_append.mp hchain
  obtain ⟨q', before', hwrite, hsegment, haddresses, hvalues, hq'⟩ :=
    write_slotOf hchain hrest
      (fun m hm hmem => hdisjoint m hm m (List.mem_cons_of_mem _ hmem) rfl)
  have hread := read_slotOf hchain
  rw [addresses_cons, List.head?_cons] at hread
  have hlength : before'.length = before.length := by
    rw [← length_addresses, haddresses, length_addresses]
  have hnotMem : n ∉ addresses (before' ++ after) := by
    rw [addresses_append, haddresses, List.mem_append]
    exact not_or_intro hnbefore hnafter
  refine ⟨{ s.queue with
      destroyed := if s.queue.dtor then s.queue.destroyed ++ [elem.userptr] else s.queue.destroyed
      head := q'.head
      tail := if some n = s.queue.tail then none else s.queue.tail
      heap := Function.update q'.heap n none
      len := s.queue.len - 1 }, before', ?_, hsegment.update hnotMem none, haddresses, hvalues,
    ?_, by simp [h.len, hlength]⟩
  · rw [hq'] at hwrite
    simp only [Queue.mQueueItrRemove, hitr, hread, hn, hwrite, Queue.free, Option.bind_eq_bind,
      Option.bind_some, Bool.false_eq_true, if_false]
    split <;> split <;> rfl
  · simp only [TailOf]
    split
    next => exact .inl rfl
    next hne =>
      rcases htail with hnone | hlast
      · exact .inl hnone
      · right
        rw [hlast, addresses_append, addresses_cons] at hne ⊢
        cases after with
        | nil => simp at hne
        | cons x after =>
            obtain ⟨m, other⟩ := x
            rw [addresses_append, addresses_cons, List.getLast?_append, List.getLast?_append,
              List.getLast?_cons_cons, haddresses]

/-- The element at the iterator leaves the chain. -/
theorem mQueueItrRemove_spec (h : Represents s f xs) (htail : TailOf s xs) :
    ∃ ret q' itr ys, s.queue.mQueueItrRemove s.itr = some (ret, q', itr) ∧
      QueueAnswer.code ret = (f.exec true .itrRemove).1 ∧
      Represents ⟨q', itr⟩ (f.exec true .itrRemove).2 ys ∧ TailOf ⟨q', itr⟩ ys := by
  have hitr := h.itr
  cases hf : f.itr with
  | none =>
      rw [hf] at hitr
      refine ⟨-EINVAL, s.queue, none, xs, by simp [hitr, Queue.mQueueItrRemove],
        by simp [Fifo.exec, hf], ?_, htail⟩
      simp only [Fifo.exec, hf]
      exact { h with itr := by simp [hf] }
  | some i =>
      obtain ⟨pos, removed⟩ := i
      rw [hf] at hitr
      cases removed with
      | true =>
          refine ⟨-EINVAL, s.queue, s.itr, xs, by simp [hitr, Queue.mQueueItrRemove],
            by simp [Fifo.exec, hf], ?_, htail⟩
          simp only [Fifo.exec, hf]
          exact h
      | false =>
          obtain ⟨hle, hlt⟩ := h.itrAt _ hf
          have hpos : pos < xs.length := hlt rfl
          obtain ⟨before, ⟨n, elem⟩, after, rfl, rfl⟩ := exists_at hpos
          have htake : (addresses (before ++ (n, elem) :: after)).take before.length =
              addresses before := by
            simp [← length_addresses]
          simp only [Option.map_some, htake] at hitr
          obtain ⟨q', before', hremove, hchain', haddresses, hvalues, htail', hlen'⟩ :=
            mQueueItrRemove_chain h htail hitr
          refine ⟨0, q', _, before' ++ after, hremove, by simp [Fifo.exec, hf], ?_, htail'⟩
          have hlength : before'.length = before.length := by
            rw [← length_addresses, haddresses, length_addresses]
          simp only [Fifo.exec, hf]
          refine ⟨hchain', ?_, hlen', ?_, ?_⟩
          · rw [List.map_append, hvalues, ← h.elems, List.map_append, List.map_cons,
              List.eraseIdx_append_of_length_le (by simp), List.length_map, Nat.sub_self]
            rfl
          · simp [haddresses, ← length_addresses]
          · intro i hi
            cases hi
            simp [hlength]

/-! ### Every call -/

theorem mQueueRemove_spec (h : Represents s f xs) (htail : TailOf s xs) :
    ∃ q' ys, s.queue.mQueueRemove = some (if f.elems = [] then -EINVAL else 0, q') ∧
      Represents ⟨q', none⟩ f.dequeue ys ∧ TailOf ⟨q', none⟩ ys := by
  obtain ⟨q', ys, hdequeue, hrep, htail', -⟩ := mQueueDequeue_spec h htail
  cases helems : f.elems with
  | nil =>
      rw [helems] at hdequeue
      exact ⟨q', ys, by simp [Queue.mQueueRemove, hdequeue], hrep, htail'⟩
  | cons v elems =>
      rw [helems] at hdequeue
      refine ⟨if q'.dtor then { q' with destroyed := q'.destroyed ++ [v] } else q', ys,
        by simp [Queue.mQueueRemove, hdequeue], ?_, ?_⟩
      · split
        next => exact ⟨hrep.chain, hrep.elems, hrep.len, hrep.itr, hrep.itrAt⟩
        next => exact hrep
      · split
        next => exact htail'
        next => exact htail'

theorem clearRounds_spec {elems : List V} (h : Represents s ⟨elems, none⟩ xs)
    (htail : TailOf s xs) :
    ∃ q' ys, Queue.clearRounds elems.length s.queue = some q' ∧
      Represents ⟨q', none⟩ ⟨[], none⟩ ys ∧ TailOf ⟨q', none⟩ ys := by
  induction elems generalizing s xs with
  | nil => exact ⟨s.queue, xs, rfl, h.dropItr, htail⟩
  | cons v elems ih =>
      obtain ⟨q₁, ys, hremove, hrep, htail₁⟩ := mQueueRemove_spec h htail
      obtain ⟨q', zs, hclear, hrep', htail'⟩ := ih hrep htail₁
      refine ⟨q', zs, ?_, hrep', htail'⟩
      simp [Queue.clearRounds, hremove, hclear]

theorem mQueueClear_spec (h : Represents s f xs) (htail : TailOf s xs) :
    ∃ q' ys, s.queue.mQueueClear = some (if f.elems = [] then -EINVAL else 0, q') ∧
      Represents ⟨q', none⟩ ⟨[], none⟩ ys ∧ TailOf ⟨q', none⟩ ys := by
  have hlen : s.queue.len = f.elems.length := by rw [h.len, h.length]
  by_cases helems : f.elems = []
  · have hrep := h.dropItr
    rw [helems] at hrep hlen
    exact ⟨s.queue, xs, by simp [Queue.mQueueClear, hlen, helems], hrep, htail⟩
  · obtain ⟨q', ys, hclear, hrep, htail'⟩ := clearRounds_spec h.dropItr htail.dropItr
    have hpos : s.queue.len > 0 := by
      rw [hlen]
      exact List.length_pos_iff.mpr helems
    refine ⟨q', ys, ?_, hrep, htail'⟩
    rw [Queue.mQueueClear, if_pos hpos, if_neg helems, hlen, hclear]
    rfl

theorem enqueue_stepSpec (h : Represents s f xs) (htail : TailOf s xs) (alloc : ElemAlloc V)
    (data : Option V) : StepSpec s (.enqueue alloc data) := by
  cases data with
  | none => exact stepSpec_of_represents _ _ h rfl rfl h.dropItr htail.dropItr trivial
  | some data =>
      cases halloc : alloc.calloc s.queue.heap with
      | none =>
          have hroom : (QueueCall.enqueue alloc (some data)).room s = false := by
            simp [QueueCall.room, halloc]
          refine stepSpec_of_represents ⟨s.queue, none⟩ (.code (-ENOMEM)) h
            ?_ ?_ ?_ htail.dropItr ?_
          · simp [QueueState.exec, Queue.mQueueEnqueue, halloc]
          · simp [Fifo.exec, hroom]
          · simp only [Fifo.exec, hroom]
            exact h.dropItr
          · intro hmem
            rw [hroom] at hmem
            cases hmem
      | some elem =>
          have hroom : (QueueCall.enqueue alloc (some data)).room s = true := by
            simp [QueueCall.room, halloc]
          by_cases hcond : s.queue.head.isSome → s.queue.tail.isSome
          · obtain ⟨q', ys, henqueue, hrep, htail'⟩ := mQueueEnqueue_spec data h htail halloc hcond
            refine stepSpec_of_represents ⟨q', none⟩ (.code 0) h
              (by simp [QueueState.exec, henqueue]) ?_ ?_ htail' (fun _ => hcond)
            · simp [Fifo.exec, hroom]
            · simp only [Fifo.exec, hroom]
              exact hrep
          · simp only [Classical.not_imp, Option.not_isSome_iff_eq_none] at hcond
            obtain ⟨q', henqueue, hsegment, hlen⟩ :=
              mQueueEnqueue_lost data h halloc hcond.1 hcond.2
            have hnot : ¬ EnqueuesAtTail s (.enqueue alloc (some data)) := by
              intro hat
              have hsome := hat hroom hcond.1
              rw [hcond.2] at hsome
              cases hsome
            refine ⟨.code 0, ⟨q', none⟩, by simp [QueueState.exec, henqueue],
              iff_of_false ?_ hnot, fun hat => absurd hat hnot⟩
            -- the chain is as long as before, and the count is not
            rintro ⟨g, -, -, ys, hys⟩
            obtain rfl := hsegment.unique hys.chain
            have hcount := hys.len
            simp only [hlen] at hcount
            omega

theorem itrNew_stepSpec (h : Represents s f xs) (htail : TailOf s xs) (mem : Bool) :
    StepSpec s (.itrNew mem) := by
  have hlen : s.queue.len = f.elems.length := by rw [h.len, h.length]
  have hdropped : Represents { s with itr := none } { f with itr := none } xs := h.dropItr
  cases mem with
  | false =>
      refine stepSpec_of_represents { s with itr := none } (.itr false) h
        ?_ ?_ hdropped htail trivial
      · simp [QueueState.exec, Queue.mQueueItrNew]
      · simp [Fifo.exec, QueueCall.room]
  | true =>
      by_cases helems : f.elems = []
      · refine stepSpec_of_represents { s with itr := none } (.itr false) h
          ?_ ?_ ?_ htail trivial
        · simp [QueueState.exec, Queue.mQueueItrNew, hlen, helems]
        · simp [Fifo.exec, helems]
        · simp only [Fifo.exec, helems, ne_eq, not_true_eq_false, and_false, if_false]
          rw [helems] at hdropped
          exact hdropped
      · have hpos : s.queue.len > 0 := by
          rw [hlen]
          exact List.length_pos_iff.mpr helems
        refine stepSpec_of_represents { s with itr := some ⟨.head, false⟩ } (.itr true) h
          ?_ ?_ ?_ htail trivial
        · simp [QueueState.exec, Queue.mQueueItrNew, hpos]
        · simp [Fifo.exec, QueueCall.room, helems]
        · simp only [Fifo.exec, QueueCall.room, helems, ne_eq, not_false_eq_true, and_self, if_true]
          refine { h with itr := rfl, itrAt := ?_ }
          intro i hi
          cases hi
          rw [← h.len]
          exact ⟨Nat.zero_le _, fun _ => hpos⟩

theorem itrGetData_stepSpec (h : Represents s f xs) (htail : TailOf s xs) :
    StepSpec s .itrGetData := by
  have hitr := h.itr
  have hspec : s.queue.mQueueItrGetData s.itr = some f.current := by
    cases hf : f.itr with
    | none => simp [hitr, hf, Queue.mQueueItrGetData, Fifo.current]
    | some i =>
        obtain ⟨pos, removed⟩ := i
        cases removed with
        | true => simp [hitr, hf, Queue.mQueueItrGetData, Fifo.current]
        | false =>
            obtain ⟨n, elem, -, hn, hcell, hvalue⟩ := h.address ((h.itrAt _ hf).2 rfl)
            simp [hitr, hf, Queue.mQueueItrGetData, Fifo.current, h.read_itr, hn, hcell, hvalue]
  exact stepSpec_of_represents s (.data f.current) h
    (by simp [QueueState.exec, hspec]) rfl h htail trivial

theorem call_stepSpec (hs : Sound s) (call : QueueCall V) : StepSpec s call := by
  obtain ⟨f, xs, h, htail⟩ := hs
  cases call with
  | enqueue alloc data => exact enqueue_stepSpec h htail alloc data
  | dequeue =>
      obtain ⟨q', ys, hdequeue, hrep, htail', -⟩ := mQueueDequeue_spec h htail
      exact stepSpec_of_represents _ (.data f.elems.head?) h
        (by simp [QueueState.exec, hdequeue]) rfl hrep htail' trivial
  | peek =>
      refine stepSpec_of_represents s (.data f.elems.head?) h ?_ rfl h htail trivial
      cases hxs : xs with
      | nil =>
          subst hxs
          have hlen : s.queue.len = 0 := h.len
          simp [QueueState.exec, Queue.mQueuePeek, hlen, ← h.elems]
      | cons x xs =>
          subst hxs
          have hlen : s.queue.len = xs.length + 1 := h.len
          simp [QueueState.exec, Queue.mQueuePeek, hlen, h.chain.1, h.chain.2.1, ← h.elems]
  | remove =>
      obtain ⟨q', ys, hremove, hrep, htail'⟩ := mQueueRemove_spec h htail
      exact stepSpec_of_represents _ (.code (if f.elems = [] then -EINVAL else 0)) h
        (by simp [QueueState.exec, hremove]) rfl hrep htail' trivial
  | clear =>
      obtain ⟨q', ys, hclear, hrep, htail'⟩ := mQueueClear_spec h htail
      exact stepSpec_of_represents _ (.code (if f.elems = [] then -EINVAL else 0)) h
        (by simp [QueueState.exec, hclear]) rfl hrep htail' trivial
  | len =>
      refine stepSpec_of_represents s _ h rfl ?_ h htail trivial
      simp [Fifo.exec, Queue.mQueueLen, h.len, h.length]
  | itrNew mem => exact itrNew_stepSpec h htail mem
  | itrNext =>
      obtain ⟨ret, itr, hnext, hret, hrep⟩ := mQueueItrNext_spec h
      exact stepSpec_of_represents _ _ h (by simp [QueueState.exec, hnext]) hret hrep htail trivial
  | itrRemove =>
      obtain ⟨ret, q', itr, ys, hremove, hret, hrep, htail'⟩ := mQueueItrRemove_spec h htail
      exact stepSpec_of_represents _ _ h (by simp [QueueState.exec, hremove]) hret hrep htail' trivial
  | itrGetData => exact itrGetData_stepSpec h htail

end Representation

/-! ## A whole iteration -/

section Iteration

variable {V : Type}

def QueueAnswer.userptr : QueueAnswer V → Option V
  | .data userptr => userptr
  | _ => none

/-- The elements that the calls on the list show, and what is left. -/
def Fifo.run : Fifo V → List (QueueCall V) → List V × Fifo V
  | f, [] => ([], f)
  | f, call :: calls =>
      let rest := (f.exec true call).2.run calls
      ((f.exec true call).1.userptr.toList ++ rest.1, rest.2)

/-- One round of the user's loop, which may remove the element it is shown. -/
def visit (remove : Bool) : List (QueueCall V) :=
  .itrGetData :: (if remove then [.itrRemove, .itrNext] else [.itrNext])

def iteration (removes : List Bool) : List (QueueCall V) :=
  .itrNew true :: removes.flatMap visit

/-- The elements that are not removed. -/
def keptBy (elems : List V) (removes : List Bool) : List V :=
  ((elems.zip removes).filter (fun e => !e.2)).map Prod.fst

theorem run_append (f : Fifo V) (calls calls' : List (QueueCall V)) :
    f.run (calls ++ calls') =
      ((f.run calls).1 ++ ((f.run calls).2.run calls').1, ((f.run calls).2.run calls').2) := by
  induction calls generalizing f with
  | nil => rfl
  | cons call calls ih => simp [Fifo.run, ih]

theorem run_visit_remove (before rest : List V) (v : V) :
    Fifo.run ⟨before ++ v :: rest, some (before.length, false)⟩ (visit true) =
      ([v], Fifo.moveTo ⟨before ++ rest, none⟩ before.length) := by
  have herase : (before ++ v :: rest).eraseIdx before.length = before ++ rest := by
    rw [List.eraseIdx_append_of_length_le (Nat.le_refl _), Nat.sub_self]
    rfl
  simp [visit, Fifo.run, Fifo.exec, Fifo.current, QueueAnswer.userptr, herase, Fifo.moveTo]

theorem run_visit_keep (before rest : List V) (v : V) :
    Fifo.run ⟨before ++ v :: rest, some (before.length, false)⟩ (visit false) =
      ([v], Fifo.moveTo ⟨(before ++ [v]) ++ rest, none⟩ (before ++ [v]).length) := by
  simp [visit, Fifo.run, Fifo.exec, Fifo.current, QueueAnswer.userptr, Fifo.moveTo]

theorem run_visits (before : List V) {rest : List V} {removes : List Bool}
    (hlength : removes.length = rest.length) :
    (Fifo.moveTo ⟨before ++ rest, none⟩ before.length).run (removes.flatMap visit) =
      (rest, ⟨before ++ keptBy rest removes, none⟩) := by
  induction rest generalizing before removes with
  | nil =>
      obtain rfl := List.length_eq_zero_iff.mp hlength
      simp [Fifo.moveTo, Fifo.run, keptBy]
  | cons v rest ih =>
      cases removes with
      | nil => cases hlength
      | cons remove removes =>
          have hlength' : removes.length = rest.length := Nat.succ.inj hlength
          have hthere : Fifo.moveTo ⟨before ++ v :: rest, none⟩ before.length =
              ⟨before ++ v :: rest, some (before.length, false)⟩ := by
            simp [Fifo.moveTo]
          rw [hthere, List.flatMap_cons, run_append]
          cases remove with
          | true =>
              rw [run_visit_remove, ih _ hlength']
              rfl
          | false =>
              rw [run_visit_keep, ih _ hlength']
              simp [keptBy]

/-- An iteration shows every element once, oldest first, and ends. -/
theorem run_iteration {f : Fifo V} {removes : List Bool} (helems : f.elems ≠ [])
    (hlength : removes.length = f.elems.length) :
    f.run (iteration removes) = (f.elems, ⟨keptBy f.elems removes, none⟩) := by
  have hvisits := run_visits [] hlength
  simp only [List.nil_append, List.length_nil, Fifo.moveTo,
    if_pos (List.length_pos_iff.mpr helems)] at hvisits
  simp [iteration, Fifo.run, Fifo.exec, helems, QueueAnswer.userptr, hvisits]

end Iteration

/-! ## Runs -/

theorem sound_new {V : Type} (dtor : Bool) : Sound (QueueState.new (V := V) dtor) := by
  refine ⟨⟨[], none⟩, [], ⟨rfl, rfl, rfl, rfl, nofun⟩, .inl rfl⟩

/-- In every run on a new queue each call answers as the list of the elements does,
whose iterations show every element once, if and only if no enqueue finds the tail of
a queue that is not empty lost. -/
theorem refinesFifo_iff {V : Type} (dtor : Bool) (calls : List (QueueCall V)) :
    (Always QueueState.exec RefinesFifo (.new dtor) calls ↔
      Meets QueueState.exec EnqueuesAtTail (.new dtor) calls) ∧
    ∀ (f : Fifo V) (removes : List Bool), f.elems ≠ [] → removes.length = f.elems.length →
      f.run (iteration removes) = (f.elems, ⟨keptBy f.elems removes, none⟩) := by
  refine ⟨always_iff_of_step Sound ?_ calls (sound_new dtor), fun f removes => run_iteration⟩
  intro s call hs
  exact call_stepSpec hs call

theorem refinesFifo_oldestRemoved :
    (Always QueueState.exec RefinesFifo (.new (V := ℕ) false)
        [.enqueue (.firstFree 8) (some 1), .enqueue (.firstFree 8) (some 2), .dequeue] ↔
      Meets QueueState.exec EnqueuesAtTail (.new (V := ℕ) false)
        [.enqueue (.firstFree 8) (some 1), .enqueue (.firstFree 8) (some 2), .dequeue]) ∧
    Fifo.run ⟨[1, 2], none⟩ (iteration [true, false]) = ([1, 2], ⟨[2], none⟩) :=
  ⟨(refinesFifo_iff false _).1,
    (refinesFifo_iff false []).2 ⟨[1, 2], none⟩ [true, false] (List.cons_ne_nil _ _) rfl⟩

/-- An iterator removes the newest of two elements; the one enqueued after that is
lost, and the second dequeue follows a null pointer. -/
theorem not_refinesFifo_newestRemoved :
    ¬ Always QueueState.exec RefinesFifo (.new (V := ℕ) false)
      [.enqueue (.firstFree 8) (some 1), .enqueue (.firstFree 8) (some 2), .itrNew true, .itrNext,
        .itrRemove, .enqueue (.firstFree 8) (some 3), .dequeue, .dequeue] := by
  rintro ⟨-, -, -, -, -, -, -, hfault⟩
  exact hfault

end Libmodule
