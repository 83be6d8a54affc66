import Libmodule.Simulation
import Libmodule.Stack

/-!
# The stack is a list

What a last-in first-out list with an iterator answers, and that the stack
answers every run of calls the same.  The destructor of the user sees what the
list drops, once and in order, and never what is popped.
-/

namespace Libmodule

open CallRun LinkedChain

/-- The function of `m_stack_iterate` is given what it has been shown so far. -/
inductive StackCall (V : Type) where
  | push (room : Bool) (data : Option V)
  | pop
  | peek
  | remove
  | clear
  | free
  | len
  | iterate (fn : Option (List V → V → ℤ))
  | itrNew (mem : Bool)
  | itrNext
  | itrRemove
  | itrGetData
  | itrSetData (value : Option V)

inductive StackAnswer (V : Type) where
  | code (ret : ℤ)
  | data (userptr : Option V)
  | itr (present : Bool)
  | shown (ret : ℤ) (userptrs : List V)

/-- The stack, and the iterator in use; it is given up when the stack is changed in
another way. -/
structure StackState (V : Type) where
  stack : Stack V
  itr : Option StackItr

namespace StackState

variable {V : Type}

def new (dtor : Bool) : StackState V := ⟨Stack.mStackNew dtor, none⟩

def exec (s : StackState V) : StackCall V → Option (StackAnswer V × StackState V)
  | .push room data =>
      some (.code (s.stack.mStackPush room data).1, ⟨(s.stack.mStackPush room data).2, none⟩)
  | .pop => do
      let (data, stack) ← s.stack.mStackPop
      some (.data data, ⟨stack, none⟩)
  | .peek => do
      let data ← s.stack.mStackPeek
      some (.data data, s)
  | .remove => do
      let (ret, stack) ← s.stack.mStackRemove
      some (.code ret, ⟨stack, none⟩)
  | .clear => do
      let (ret, stack) ← s.stack.mStackClear
      some (.code ret, ⟨stack, none⟩)
  | .free => do
      let (ret, stack) ← s.stack.mStackFree
      some (.code ret, ⟨stack, none⟩)
  | .len => some (.code s.stack.mStackLen, s)
  | .iterate fn => do
      let (ret, shown) ← s.stack.mStackIterate fn
      some (.shown ret shown, s)
  | .itrNew mem =>
      let itr := s.stack.mStackItrNew mem
      some (.itr itr.isSome, { s with itr := itr })
  | .itrNext => do
      let (ret, itr) ← s.stack.mStackItrNext s.itr
      some (.code ret, { s with itr := itr })
  | .itrRemove => do
      let (ret, stack, itr) ← s.stack.mStackItrRemove s.itr
      some (.code ret, ⟨stack, itr⟩)
  | .itrGetData => do
      let data ← s.stack.mStackItrGetData s.itr
      some (.data data, s)
  | .itrSetData value => do
      let (ret, stack) ← s.stack.mStackItrSetData s.itr value
      some (.code ret, { s with stack := stack })

end StackState

/-! ## The list -/

/-- The elements, newest first, and the place of an iterator; the flag says that
the element there was removed. -/
structure Lifo (V : Type) where
  live : Bool
  dtor : Bool
  elems : List V
  itr : Option (ℕ × Bool)
  destroyed : List V

namespace Lifo

variable {V : Type}

def new (dtor : Bool) : Lifo V := ⟨true, dtor, [], none, []⟩

def dropItr (f : Lifo V) : Lifo V := { f with itr := none }

def push (f : Lifo V) (v : V) : Lifo V := { f with elems := v :: f.elems, itr := none }

def pop (f : Lifo V) : Lifo V := { f with elems := f.elems.tail, itr := none }

def destroy (f : Lifo V) (l : List V) : Lifo V :=
  { f with destroyed := if f.dtor then f.destroyed ++ l else f.destroyed }

def clear (f : Lifo V) : Lifo V := { f.destroy f.elems with elems := [], itr := none }

/-- The iterator at `pos`, gone when that is the end. -/
def moveTo (f : Lifo V) (pos : ℕ) : Lifo V :=
  { f with itr := if pos < f.elems.length then some (pos, false) else none }

/-- The element that the iterator shows. -/
def current (f : Lifo V) : Option V :=
  match f.itr with
  | some (pos, false) => f.elems[pos]?
  | _ => none

/-- A visit of the elements in order, until the function stops it. -/
def visit (fn : List V → V → ℤ) : List V → List V → ℤ × List V
  | shown, [] => (0, shown)
  | shown, v :: vs =>
      if fn shown v < 0 then (fn shown v, shown ++ [v])
      else if fn shown v > 0 then (0, shown ++ [v])
      else visit fn (shown ++ [v]) vs

/-- What a list answers. -/
def exec (f : Lifo V) : StackCall V → StackAnswer V × Lifo V
  | .push room data =>
      match data with
      | none => (.code (-EINVAL), f.dropItr)
      | some v =>
          if f.live = false then (.code (-EINVAL), f.dropItr)
          else if room then (.code 0, f.push v) else (.code (-ENOMEM), f.dropItr)
  | .pop => (.data f.elems.head?, f.pop)
  | .peek => (.data f.elems.head?, f)
  | .remove => (.code (if f.elems = [] then -EINVAL else 0), f.pop.destroy f.elems.head?.toList)
  | .clear => (.code (if f.live then 0 else -EINVAL), f.clear)
  | .free => (.code (if f.live then 0 else -EINVAL), { f.clear with live := false })
  | .len => (.code (if f.live then f.elems.length else -EINVAL), f)
  | .iterate none => (.shown (-EINVAL) [], f)
  | .iterate (some fn) =>
      if f.elems = [] then (.shown (-EINVAL) [], f)
      else (.shown (visit fn [] f.elems).1 (visit fn [] f.elems).2, f)
  | .itrNew mem =>
      if mem ∧ f.elems ≠ [] then (.itr true, { f with itr := some (0, false) })
      else (.itr false, f.dropItr)
  | .itrNext =>
      match f.itr with
      | none => (.code (-EINVAL), f)
      | some (pos, removed) => (.code 0, f.moveTo (if removed then pos else pos + 1))
  | .itrRemove =>
      match f.itr with
      | some (pos, false) =>
          (.code 0, { f.destroy f.elems[pos]?.toList with
            elems := f.elems.eraseIdx pos
            itr := some (pos, true) })
      | _ => (.code (-EINVAL), f)
  | .itrGetData => (.data f.current, f)
  | .itrSetData value =>
      match f.itr, value with
      | some (pos, false), some v => (.code 0, { f with elems := f.elems.set pos v })
      | _, _ => (.code (-EINVAL), f)

end Lifo

/-! ## Representation -/

section Representation

variable {V : Type}

/-- The address of the pointer that follows the elements at `ns`. -/
def StackSlot.after (ns : List ℕ) : StackSlot :=
  match ns.getLast? with
  | none => .data
  | some n => .prev n

/-- The elements `xs` of the stack are those of the list. -/
structure StackState.Represents (s : StackState V) (f : Lifo V) (xs : List (ℕ × StackElem V)) :
    Prop where
  live : s.stack.live = f.live
  dtor : s.stack.dtor = f.dtor
  destroyed : s.stack.destroyed = f.destroyed
  chain : Segment s.stack.heap StackElem.prev s.stack.data none xs
  elems : xs.map (fun x => x.2.userptr) = f.elems
  len : s.stack.len = xs.length
  fresh : ∀ n, s.stack.created ≤ n → s.stack.heap n = none
  dead : f.live = false → f.elems = []
  itr : s.itr = f.itr.map (fun i => ⟨.after ((addresses xs).take i.1), i.2⟩)
  itrAt : ∀ i, f.itr = some i → i.1 ≤ xs.length ∧ (i.2 = false → i.1 < xs.length)

open StackState

variable {s : StackState V} {st : Stack V} {f : Lifo V} {xs ys zs : List (ℕ × StackElem V)}

theorem StackState.Represents.length (h : Represents s f xs) : xs.length = f.elems.length := by
  rw [← h.elems, List.length_map]

theorem StackState.Represents.elems_eq_nil (h : Represents s f xs) : f.elems = [] ↔ xs = [] := by
  rw [← List.length_eq_zero_iff, ← h.length, List.length_eq_zero_iff]

theorem StackState.Represents.mStackLen_pos (h : Represents s f xs) :
    s.stack.mStackLen > 0 ↔ f.elems ≠ [] := by
  have hlen := h.len
  rw [h.length] at hlen
  rw [Stack.mStackLen, h.live, hlen]
  cases hlive : f.live with
  | true => simp [List.length_pos_iff]
  | false => simp [h.dead hlive, EINVAL]

/-- Giving up the iterator leaves the elements. -/
theorem StackState.Represents.dropItr (h : Represents s f xs) :
    Represents ⟨s.stack, none⟩ f.dropItr xs :=
  { h with
    itr := rfl
    itrAt := by simp [Lifo.dropItr] }

/-- The stack answers the call as the list does. -/
def Simulates (s : StackState V) (f : Lifo V) (call : StackCall V) : Prop :=
  ∃ s', s.exec call = some ((f.exec call).1, s') ∧ ∃ ys, Represents s' (f.exec call).2 ys

/-! ### The end of the stack -/

theorem mStackPush_spec (h : Represents s f xs) (hlive : f.live = true) (v : V) :
    ∃ ys, Represents ⟨(s.stack.mStackPush true (some v)).2, none⟩ (f.push v) ys := by
  have hnew : s.stack.created ∉ addresses xs := by
    intro hmem
    obtain ⟨elem, helem⟩ := h.chain.allocated hmem
    rw [h.fresh _ (Nat.le_refl _)] at helem
    cases helem
  have hchain := h.chain.update hnew (some ⟨v, s.stack.data⟩)
  refine ⟨(s.stack.created, ⟨v, s.stack.data⟩) :: xs, ?_⟩
  simp only [Stack.mStackPush, h.live.trans hlive, if_true]
  refine ⟨hlive.symm, h.dtor, h.destroyed, ⟨rfl, Function.update_self _ _ _, hchain⟩, ?_, ?_,
    fun n hn => ?_, fun hdead => ?_, rfl, by simp [Lifo.push]⟩
  · simp [Lifo.push, h.elems]
  · simp [h.len]
  · simp only at hn
    have hne : n ≠ s.stack.created := by omega
    exact (Function.update_of_ne hne _ _).trans (h.fresh n (by omega))
  · exact absurd (hlive.symm.trans hdead) (by simp)

theorem push_simulates (h : Represents s f xs) (room : Bool) (data : Option V) :
    Simulates s f (.push room data) := by
  have hdropped := h.dropItr
  cases data with
  | none =>
      refine ⟨⟨s.stack, none⟩, ?_, xs, hdropped⟩
      simp [StackState.exec, Stack.mStackPush, Lifo.exec]
  | some v =>
      cases hlive : f.live with
      | false =>
          have hdead : s.stack.live = false := h.live.trans hlive
          refine ⟨⟨s.stack, none⟩, ?_, xs, ?_⟩
          · simp [StackState.exec, Stack.mStackPush, Lifo.exec, hdead, hlive]
          · simpa [Lifo.exec, hlive] using hdropped
      | true =>
          have halive : s.stack.live = true := h.live.trans hlive
          cases room with
          | false =>
              refine ⟨⟨s.stack, none⟩, ?_, xs, ?_⟩
              · simp [StackState.exec, Stack.mStackPush, Lifo.exec, halive, hlive]
              · simpa [Lifo.exec, hlive] using hdropped
          | true =>
              obtain ⟨xs', hrep⟩ := mStackPush_spec h hlive v
              refine ⟨⟨(s.stack.mStackPush true (some v)).2, none⟩, ?_, xs', ?_⟩
              · simp [StackState.exec, Stack.mStackPush, Lifo.exec, halive, hlive]
              · simpa [Lifo.exec, hlive] using hrep

/-- The newest element leaves the chain. -/
theorem mStackPop_spec (h : Represents s f xs) :
    ∃ st ys, s.stack.mStackPop = some (f.elems.head?, st) ∧ Represents ⟨st, none⟩ f.pop ys := by
  cases xs with
  | nil =>
      have helems : f.elems = [] := h.elems_eq_nil.mpr rfl
      have hlen : ¬ s.stack.mStackLen > 0 := by simp [h.mStackLen_pos, helems]
      refine ⟨s.stack, [], by simp [Stack.mStackPop, hlen, helems], ?_⟩
      have hpop : f.pop = f.dropItr := by simp [Lifo.pop, Lifo.dropItr, helems]
      rw [hpop]
      exact h.dropItr
  | cons x xs =>
      obtain ⟨n, elem⟩ := x
      have helems : f.elems = elem.userptr :: xs.map (fun x => x.2.userptr) := h.elems.symm
      have hlen : s.stack.mStackLen > 0 := by simp [h.mStackLen_pos, helems]
      have hnodup : (n :: addresses xs).Nodup := h.chain.nodup
      have hlength : s.stack.len = xs.length + 1 := h.len
      obtain ⟨hdata, hn, hrest⟩ := h.chain
      refine ⟨{ s.stack with
        data := elem.prev
        heap := Function.update s.stack.heap n none
        len := s.stack.len - 1 }, xs, ?_, ?_⟩
      · simp [Stack.mStackPop, hlen, hdata, hn, helems, Stack.freeElem]
      · refine ⟨h.live, h.dtor, h.destroyed, hrest.update (List.nodup_cons.mp hnodup).1 none, ?_,
          by simp [hlength], fun m hm => ?_, fun hdead => ?_, rfl, by simp [Lifo.pop]⟩
        · simp [Lifo.pop, helems]
        · simp only [Function.update_apply]
          split
          · rfl
          · exact h.fresh m hm
        · have hnil := h.dead hdead
          rw [helems] at hnil
          cases hnil

theorem StackState.Represents.destroy (h : Represents s f xs) (v : V) :
    Represents { s with stack := s.stack.destroy v } (f.destroy [v]) xs := by
  have hdtor := h.dtor
  have hdestroyed := h.destroyed
  unfold Stack.destroy
  split
  next htrue =>
    rw [hdtor] at htrue
    exact { h with destroyed := by simp [Lifo.destroy, htrue, hdestroyed] }
  next hfalse =>
    rw [hdtor] at hfalse
    exact { h with destroyed := by simp [Lifo.destroy, hfalse, hdestroyed] }

theorem mStackRemove_spec (h : Represents s f xs) :
    ∃ st ys, s.stack.mStackRemove = some (if f.elems = [] then -EINVAL else 0, st) ∧
      Represents ⟨st, none⟩ (f.pop.destroy f.elems.head?.toList) ys := by
  obtain ⟨st, ys, hpop, hrep⟩ := mStackPop_spec h
  cases helems : f.elems with
  | nil =>
      rw [helems] at hpop
      refine ⟨st, ys, by simp [Stack.mStackRemove, hpop], ?_⟩
      have hnothing : f.pop.destroy [] = f.pop := by simp [Lifo.destroy]
      simpa [hnothing] using hrep
  | cons v vs =>
      rw [helems] at hpop
      refine ⟨st.destroy v, ys, by simp [Stack.mStackRemove, hpop], ?_⟩
      exact hrep.destroy v

theorem Lifo.clear_pop {v : V} {vs : List V} (helems : f.elems = v :: vs) :
    (f.pop.destroy [v]).clear = f.clear := by
  simp only [Lifo.clear, Lifo.destroy, Lifo.pop, helems, List.tail_cons]
  cases f.dtor <;> simp

theorem clearRounds_represents (rounds : ℕ) (h : Represents s f xs) (hitr : f.itr = none)
    (hrounds : xs.length = rounds) :
    ∃ st ys, Stack.clearRounds rounds s.stack = some st ∧ Represents ⟨st, none⟩ f.clear ys := by
  induction rounds generalizing s f xs with
  | zero =>
      obtain rfl := List.length_eq_zero_iff.mp hrounds
      have helems : f.elems = [] := h.elems_eq_nil.mpr rfl
      have hlen : s.stack.len = 0 := h.len
      have hclear : f.clear = f.dropItr := by
        cases f
        simp_all [Lifo.clear, Lifo.destroy, Lifo.dropItr]
      exact ⟨s.stack, [], by simp [Stack.clearRounds, hlen], by rw [hclear]; exact h.dropItr⟩
  | succ rounds ih =>
      obtain ⟨v, vs, helems⟩ : ∃ v vs, f.elems = v :: vs := by
        apply List.exists_cons_of_length_pos
        rw [← h.length, hrounds]
        exact Nat.succ_pos rounds
      have hlen : s.stack.len > 0 := by rw [h.len, hrounds]; exact Nat.succ_pos rounds
      obtain ⟨st, ys, hremove, hrep⟩ := mStackRemove_spec h
      rw [helems] at hremove hrep
      have hlength : ys.length = rounds := by
        have hys := hrep.length
        simp only [Lifo.destroy, Lifo.pop, helems, List.tail_cons] at hys
        have hxs := h.length
        rw [helems, List.length_cons] at hxs
        omega
      obtain ⟨st', zs, hclear, hrep'⟩ := ih hrep rfl hlength
      refine ⟨st', zs, ?_, ?_⟩
      · rw [Stack.clearRounds, if_pos hlen, hremove]
        exact hclear
      · rw [← Lifo.clear_pop helems]
        exact hrep'

theorem mStackClear_spec (h : Represents s f xs) :
    ∃ st ys, s.stack.mStackClear = some (if f.live then 0 else -EINVAL, st) ∧
      Represents ⟨st, none⟩ f.clear ys := by
  have hdropped := h.dropItr
  cases hlive : f.live with
  | true =>
      have halive : s.stack.live = true := h.live.trans hlive
      obtain ⟨st, ys, hclear, hrep⟩ := clearRounds_represents xs.length hdropped rfl rfl
      refine ⟨st, ys, ?_, hrep⟩
      simp only at hclear
      rw [← h.len] at hclear
      simp [Stack.mStackClear, halive, hclear]
  | false =>
      have hdead : s.stack.live = false := h.live.trans hlive
      refine ⟨s.stack, xs, by simp [Stack.mStackClear, hdead], ?_⟩
      have hclear : f.clear = f.dropItr := by
        have helems := h.dead hlive
        cases f
        simp_all [Lifo.clear, Lifo.destroy, Lifo.dropItr]
      rw [hclear]
      exact hdropped

theorem mStackFree_spec (h : Represents s f xs) :
    ∃ st ys, s.stack.mStackFree = some (if f.live then 0 else -EINVAL, st) ∧
      Represents ⟨st, none⟩ { f.clear with live := false } ys := by
  obtain ⟨st, ys, hclear, hrep⟩ := mStackClear_spec h
  cases hlive : f.live with
  | true =>
      rw [hlive] at hclear
      exact ⟨{ st with live := false }, ys, by simp [Stack.mStackFree, hclear],
        { hrep with live := rfl, dead := fun _ => rfl }⟩
  | false =>
      rw [hlive] at hclear
      refine ⟨st, ys, by simp [Stack.mStackFree, hclear, EINVAL], ?_⟩
      exact { hrep with live := hrep.live.trans hlive, dead := fun _ => rfl }

/-! ### The function of the user -/

theorem iterateRounds_eq {heap : ℕ → Option (StackElem V)} {p : Option ℕ}
    (h : Segment heap StackElem.prev p none xs) (fn : List V → V → ℤ) (shown : List V) :
    Stack.iterateRounds heap fn xs.length p shown =
      some (Lifo.visit fn shown (xs.map (fun x => x.2.userptr))) := by
  induction xs generalizing p shown with
  | nil =>
      cases h
      rfl
  | cons x xs ih =>
      obtain ⟨n, elem⟩ := x
      obtain ⟨rfl, hn, hrest⟩ := h
      simp only [List.length_cons, Stack.iterateRounds, hn, Option.bind_eq_bind, Option.bind_some,
        List.map_cons, Lifo.visit, ih hrest]
      split
      · rfl
      · split <;> rfl

theorem iterate_simulates (h : Represents s f xs) (fn : Option (List V → V → ℤ)) :
    Simulates s f (.iterate fn) := by
  cases fn with
  | none => exact ⟨s, rfl, xs, h⟩
  | some fn =>
      by_cases helems : f.elems = []
      · have hlen : ¬ s.stack.mStackLen > 0 := by simp [h.mStackLen_pos, helems]
        refine ⟨s, ?_, xs, ?_⟩
        · simp [StackState.exec, Stack.mStackIterate, hlen, Lifo.exec, helems]
        · simpa [Lifo.exec, helems] using h
      · have hlen : s.stack.mStackLen > 0 := h.mStackLen_pos.mpr helems
        have hvisit := iterateRounds_eq h.chain fn []
        rw [h.elems, ← h.len] at hvisit
        refine ⟨s, ?_, xs, ?_⟩
        · simp [StackState.exec, Stack.mStackIterate, hlen, Lifo.exec, helems, hvisit]
        · simpa [Lifo.exec, helems] using h

/-! ### The iterator -/

theorem read_after (h : Segment st.heap StackElem.prev st.data none (xs ++ ys)) :
    st.read (.after (addresses xs)) = some (addresses ys).head? := by
  obtain ⟨p, hxs, hys⟩ := segment_append.mp h
  rcases List.eq_nil_or_concat xs with rfl | ⟨init, ⟨n, elem⟩, rfl⟩
  · obtain rfl : st.data = p := hxs
    simp only [StackSlot.after, addresses_nil, List.getLast?_nil, Stack.read]
    rw [hys.head]
  · rw [List.concat_eq_append] at hxs ⊢
    obtain ⟨r, -, -, hn, hp⟩ := segment_append.mp hxs
    obtain rfl : elem.prev = p := hp
    simp [StackSlot.after, Stack.read, hn, hys.head]

/-- An iterator stands before the elements that it has not passed. -/
theorem StackState.Represents.read_itr (h : Represents s f xs) (pos : ℕ) :
    s.stack.read (.after ((addresses xs).take pos)) = some (addresses xs)[pos]? := by
  have hchain := h.chain
  rw [← List.take_append_drop pos xs] at hchain
  have hread := read_after hchain
  simp only [addresses, List.map_take, List.map_drop, List.head?_drop] at hread ⊢
  exact hread

/-- The element at the iterator, between those before and behind it. -/
structure Splits (s : StackState V) (f : Lifo V) (xs : List (ℕ × StackElem V)) (pos : ℕ)
    (before : List (ℕ × StackElem V)) (n : ℕ) (elem : StackElem V)
    (rest : List (ℕ × StackElem V)) : Prop where
  split : xs = before ++ (n, elem) :: rest
  length : before.length = pos
  slot : StackSlot.after ((addresses xs).take pos) = .after (addresses before)
  read : s.stack.read (.after (addresses before)) = some (some n)
  heap : s.stack.heap n = some elem
  value : f.elems = before.map (fun x => x.2.userptr) ++
    elem.userptr :: rest.map (fun x => x.2.userptr)

theorem StackState.Represents.splits (h : Represents s f xs) {pos : ℕ} (hpos : pos < xs.length) :
    ∃ before n elem rest, Splits s f xs pos before n elem rest := by
  have hsplit : xs = xs.take pos ++ (xs[pos].1, xs[pos].2) :: xs.drop (pos + 1) := by
    rw [← List.drop_eq_getElem_cons hpos, List.take_append_drop]
  have hchain := h.chain
  rw [hsplit] at hchain
  have hread := read_after hchain
  obtain ⟨p, -, hp, hn, -⟩ := segment_append.mp hchain
  refine ⟨xs.take pos, xs[pos].1, xs[pos].2, xs.drop (pos + 1), hsplit,
    List.length_take_of_le (Nat.le_of_lt hpos), ?_, hread, hn, ?_⟩
  · rw [addresses, addresses, List.map_take]
  · rw [← h.elems]
    conv_lhs => rw [hsplit]
    rw [List.map_append, List.map_cons]

theorem Splits.current {before rest : List (ℕ × StackElem V)} {pos n : ℕ} {elem : StackElem V}
    (h : Splits s f xs pos before n elem rest) : f.elems[pos]? = some elem.userptr := by
  rw [h.value, ← h.length]
  simp

theorem Splits.after_succ {before rest : List (ℕ × StackElem V)} {pos n : ℕ} {elem : StackElem V}
    (h : Splits s f xs pos before n elem rest) :
    StackSlot.after ((addresses xs).take (pos + 1)) = .prev n := by
  have htake : (addresses xs).take (pos + 1) = addresses before ++ [n] := by
    rw [h.split, addresses_append, addresses_cons]
    have hlength : (addresses before).length = pos := by rw [addresses, List.length_map, h.length]
    rw [← hlength, List.take_length_add_append, List.take_succ_cons, List.take_zero]
  rw [htake]
  simp [StackSlot.after]

theorem StackState.Represents.moveTo (h : Represents s f xs) (pos : ℕ) :
    Represents { s with itr :=
      if pos < xs.length then some ⟨.after ((addresses xs).take pos), false⟩ else none }
      (f.moveTo pos) xs := by
  rw [Lifo.moveTo, ← h.length]
  by_cases hpos : pos < xs.length
  · simp only [if_pos hpos]
    refine { h with itr := rfl, itrAt := ?_ }
    intro i hi
    cases hi
    exact ⟨Nat.le_of_lt hpos, fun _ => hpos⟩
  · simp only [if_neg hpos]
    exact h.dropItr

theorem itrNext_simulates (h : Represents s f xs) : Simulates s f .itrNext := by
  have hitr := h.itr
  cases hf : f.itr with
  | none =>
      rw [hf] at hitr
      refine ⟨s, ?_, xs, by simpa [Lifo.exec, hf] using h⟩
      obtain ⟨st, i⟩ := s
      obtain rfl : i = none := hitr
      simp [StackState.exec, Stack.mStackItrNext, Lifo.exec, hf]
  | some i =>
      obtain ⟨pos, removed⟩ := i
      rw [hf] at hitr
      have helem : s.stack.itrElem ⟨.after ((addresses xs).take pos), removed⟩ =
          some (.after ((addresses xs).take (if removed then pos else pos + 1))) := by
        cases hremoved : removed with
        | true => rfl
        | false =>
            obtain ⟨before, n, elem, rest, hs⟩ := h.splits ((h.itrAt _ hf).2 hremoved)
            simp [Stack.itrElem, hs.slot, hs.read, hs.after_succ]
      have hnext : s.stack.mStackItrNext s.itr = some (0,
          if (if removed then pos else pos + 1) < xs.length then
            some ⟨.after ((addresses xs).take (if removed then pos else pos + 1)), false⟩
          else none) := by
        rw [hitr]
        simp only [Stack.mStackItrNext, Option.map_some, helem, Option.bind_eq_bind,
          Option.bind_some, h.read_itr]
        split
        next hnone =>
          have hge := List.getElem?_eq_none_iff.mp hnone
          rw [addresses, List.length_map] at hge
          rw [if_neg (Nat.not_lt.mpr hge)]
        next n hsome =>
          obtain ⟨hlt, -⟩ := List.getElem?_eq_some_iff.mp hsome
          rw [addresses, List.length_map] at hlt
          rw [if_pos hlt]
      refine ⟨_, by simp only [StackState.exec, hnext, Lifo.exec, hf]; rfl, xs, ?_⟩
      simp only [Lifo.exec, hf]
      exact h.moveTo _

theorem itrNew_simulates (h : Represents s f xs) (mem : Bool) : Simulates s f (.itrNew mem) := by
  by_cases hroom : mem = true ∧ f.elems ≠ []
  · obtain ⟨rfl, helems⟩ := hroom
    have hlen : s.stack.mStackLen > 0 := h.mStackLen_pos.mpr helems
    refine ⟨{ s with itr := some ⟨.data, false⟩ }, ?_, xs, ?_⟩
    · simp [StackState.exec, Stack.mStackItrNew, hlen, Lifo.exec, helems]
    · simp only [Lifo.exec, helems, ne_eq, not_false_eq_true, and_self, if_true]
      refine { h with itr := rfl, itrAt := ?_ }
      intro i hi
      cases hi
      rw [h.length]
      exact ⟨Nat.zero_le _, fun _ => List.length_pos_iff.mpr helems⟩
  · have hnew : s.stack.mStackItrNew mem = none := by
      rw [Stack.mStackItrNew]
      split
      next hlen =>
        have hmem : ¬ mem = true := fun hmem => hroom ⟨hmem, h.mStackLen_pos.mp hlen⟩
        rw [if_neg hmem]
      next => rfl
    refine ⟨⟨s.stack, none⟩, ?_, xs, ?_⟩
    · simp only [StackState.exec, hnew, Lifo.exec, if_neg hroom]
      rfl
    · simp only [Lifo.exec, if_neg hroom]
      exact h.dropItr

/-- Without an iterator on an element, the calls on one are refused. -/
theorem itr_cases (h : Represents s f xs) :
    (s.itr = none ∧ f.itr = none) ∨
      (∃ slot pos, s.itr = some ⟨slot, true⟩ ∧ f.itr = some (pos, true)) ∨
        ∃ pos before n elem rest, f.itr = some (pos, false) ∧
          s.itr = some ⟨.after (addresses before), false⟩ ∧
          Splits s f xs pos before n elem rest := by
  have hitr := h.itr
  cases hf : f.itr with
  | none => exact .inl ⟨by rw [hitr, hf]; rfl, rfl⟩
  | some i =>
      obtain ⟨pos, removed⟩ := i
      rw [hf] at hitr
      cases removed with
      | true => exact .inr (.inl ⟨_, pos, hitr, rfl⟩)
      | false =>
          obtain ⟨before, n, elem, rest, hs⟩ := h.splits ((h.itrAt _ hf).2 rfl)
          refine .inr (.inr ⟨pos, before, n, elem, rest, rfl, ?_, hs⟩)
          rw [hitr, Option.map_some, hs.slot]

theorem itrGetData_simulates (h : Represents s f xs) : Simulates s f .itrGetData := by
  refine ⟨s, ?_, xs, h⟩
  rcases itr_cases h with ⟨hs, hf⟩ | ⟨slot, pos, hs, hf⟩ |
    ⟨pos, before, n, elem, rest, hf, hs, hsplit⟩
  · simp [StackState.exec, hs, Stack.mStackItrGetData, Lifo.exec, Lifo.current, hf]
  · simp [StackState.exec, hs, Stack.mStackItrGetData, Lifo.exec, Lifo.current, hf]
  · simp [StackState.exec, hs, Stack.mStackItrGetData, Lifo.exec, Lifo.current, hf, hsplit.read,
      hsplit.heap, hsplit.current]

/-- Writing the pointer that follows `xs` replaces the rest of the chain. -/
theorem write_after {p : Option ℕ} (h : Segment st.heap StackElem.prev st.data none (xs ++ ys))
    (hzs : Segment st.heap StackElem.prev p none zs)
    (hdisjoint : ∀ n ∈ addresses xs, n ∉ addresses zs) :
    ∃ st' xs', st.write (.after (addresses xs)) p = some st' ∧
      Segment st'.heap StackElem.prev st'.data none (xs' ++ zs) ∧
      addresses xs' = addresses xs ∧
      xs'.map (fun x => x.2.userptr) = xs.map (fun x => x.2.userptr) ∧
      st' = { st with data := st'.data, heap := st'.heap } ∧
      ∀ n, st.heap n = none → st'.heap n = none := by
  obtain ⟨r, hxs, -⟩ := segment_append.mp h
  rcases List.eq_nil_or_concat xs with rfl | ⟨init, ⟨n, elem⟩, rfl⟩
  · exact ⟨{ st with data := p }, [], rfl, hzs, rfl, rfl, rfl, fun n hn => hn⟩
  · rw [List.concat_eq_append] at h hxs hdisjoint ⊢
    have hnodup := h.nodup
    obtain ⟨t, hinit, rfl, hn, -⟩ := segment_append.mp hxs
    have hninit : n ∉ addresses init := by
      simp only [addresses_append, addresses_cons, addresses_nil] at hnodup
      rw [List.nodup_append, List.nodup_append] at hnodup
      intro hmem
      exact hnodup.1.2.2 n hmem n (by simp) rfl
    refine ⟨{ st with heap := Function.update st.heap n (some { elem with prev := p }) },
      init ++ [(n, { elem with prev := p })], ?_, ?_, by simp, by simp, rfl, fun m hm => ?_⟩
    · simp [StackSlot.after, Stack.write, Stack.setElem, hn]
    · rw [List.append_assoc, segment_append]
      refine ⟨some n, hinit.update hninit _, rfl, by simp, ?_⟩
      exact hzs.update (hdisjoint n (by simp)) _
    · have hne : m ≠ n := by
        rintro rfl
        rw [hn] at hm
        cases hm
      exact (Function.update_of_ne hne _ _).trans hm

theorem itrRemove_simulates (h : Represents s f xs) : Simulates s f .itrRemove := by
  rcases itr_cases h with ⟨hs, hf⟩ | ⟨slot, pos, hs, hf⟩ |
    ⟨pos, before, n, elem, rest, hf, hs, hsplit⟩
  · refine ⟨s, ?_, xs, by simpa [Lifo.exec, hf] using h⟩
    obtain ⟨st, i⟩ := s
    obtain rfl : i = none := hs
    simp [StackState.exec, Stack.mStackItrRemove, Lifo.exec, hf]
  · refine ⟨s, ?_, xs, by simpa [Lifo.exec, hf] using h⟩
    obtain ⟨st, i⟩ := s
    obtain rfl : i = some ⟨slot, true⟩ := hs
    simp [StackState.exec, Stack.mStackItrRemove, Lifo.exec, hf]
  · have hchain := h.chain
    rw [hsplit.split] at hchain
    have hnodup := hchain.nodup
    rw [addresses_append, addresses_cons, List.nodup_append, List.nodup_cons] at hnodup
    obtain ⟨-, ⟨hnrest, -⟩, hdisjoint⟩ := hnodup
    have hnbefore : n ∉ addresses before := fun hn => hdisjoint n hn n (by simp) rfl
    obtain ⟨p, -, rfl, hn, hrest⟩ := segment_append.mp hchain
    obtain ⟨st', before', hwrite, hsegment, haddresses, hvalues, hst', hnone⟩ :=
      write_after hchain hrest
        (fun m hm hmem => hdisjoint m hm m (List.mem_cons_of_mem _ hmem) rfl)
    have hlength : before'.length = before.length := by
      simpa [addresses] using congrArg List.length haddresses
    have hnotMem : n ∉ addresses (before' ++ rest) := by
      rw [addresses_append, haddresses, List.mem_append]
      exact not_or_intro hnbefore hnrest
    have hdtor := h.dtor
    have hdestroyed := h.destroyed
    refine ⟨⟨{ s.stack with
      data := st'.data
      heap := Function.update st'.heap n none
      len := s.stack.len - 1
      destroyed := if s.stack.dtor then s.stack.destroyed ++ [elem.userptr]
        else s.stack.destroyed }, some ⟨.after (addresses before), true⟩⟩, ?_, before' ++ rest, ?_⟩
    · rw [hst'] at hwrite
      simp only [StackState.exec, Stack.mStackItrRemove, hs, hsplit.read, hn, hwrite,
        Stack.freeElem, Stack.destroy, Lifo.exec, hf, Option.bind_eq_bind, Option.bind_some,
        Bool.false_eq_true, if_false]
      split <;> rfl
    · simp only [Lifo.exec, hf, hsplit.current, Option.toList_some]
      have helems : f.elems.eraseIdx pos =
          (before' ++ rest).map (fun x => x.2.userptr) := by
        rw [hsplit.value, List.map_append, hvalues, ← hsplit.length,
          List.eraseIdx_append_of_length_le (by simp), List.length_map, Nat.sub_self]
        rfl
      refine ⟨h.live, hdtor, ?_, hsegment.update hnotMem none, helems.symm, ?_, fun m hm => ?_,
        fun hdead => ?_, ?_, ?_⟩
      · simp [Lifo.destroy, hdtor, hdestroyed]
      · have hlen := h.len
        rw [hsplit.split] at hlen
        simp only [List.length_append, List.length_cons] at hlen ⊢
        omega
      · simp only [Function.update_apply]
        split
        · rfl
        · exact hnone m (h.fresh m hm)
      · have hnil := h.dead hdead
        rw [hsplit.value] at hnil
        simp at hnil
      · have htake : (addresses (before' ++ rest)).take pos = addresses before := by
          rw [addresses_append, haddresses, ← hsplit.length]
          simp [addresses]
        simp only [Option.map_some, htake]
      · intro i hi
        cases hi
        rw [← hsplit.length, List.length_append, hlength]
        exact ⟨Nat.le_add_right _ _, by simp⟩

theorem itrSetData_refused (h : Represents s f xs) {value : Option V}
    (hset : s.stack.mStackItrSetData s.itr value = some (-EINVAL, s.stack))
    (hspec : f.exec (.itrSetData value) = (.code (-EINVAL), f)) :
    Simulates s f (.itrSetData value) := by
  refine ⟨s, ?_, xs, by rwa [hspec]⟩
  simp [StackState.exec, hset, hspec]

theorem itrSetData_simulates (h : Represents s f xs) (value : Option V) :
    Simulates s f (.itrSetData value) := by
  rcases itr_cases h with ⟨hs, hf⟩ | ⟨slot, pos, hs, hf⟩ |
    ⟨pos, before, n, elem, rest, hf, hs, hsplit⟩
  · exact itrSetData_refused h (by simp [Stack.mStackItrSetData, hs]) (by simp [Lifo.exec, hf])
  · exact itrSetData_refused h (by simp [Stack.mStackItrSetData, hs]) (by simp [Lifo.exec, hf])
  · cases value with
    | none =>
        exact itrSetData_refused h (by simp [Stack.mStackItrSetData, hs]) (by simp [Lifo.exec, hf])
    | some v =>
        have hchain := h.chain
        rw [hsplit.split] at hchain
        have hnodup := hchain.nodup
        rw [addresses_append, addresses_cons, List.nodup_append, List.nodup_cons] at hnodup
        obtain ⟨-, ⟨hnrest, -⟩, hdisjoint⟩ := hnodup
        have hnbefore : n ∉ addresses before := fun hn => hdisjoint n hn n (by simp) rfl
        obtain ⟨p, hbefore, rfl, hn, hrest⟩ := segment_append.mp hchain
        have hsame : addresses (before ++ (n, { elem with userptr := v }) :: rest) =
            addresses xs := by
          rw [hsplit.split]
          simp
        have hlength : (before ++ (n, { elem with userptr := v }) :: rest).length = xs.length := by
          rw [hsplit.split]
          simp
        refine ⟨{ s with stack := { s.stack with
          heap := Function.update s.stack.heap n (some { elem with userptr := v }) } }, ?_,
          before ++ (n, { elem with userptr := v }) :: rest, ?_⟩
        · simp [StackState.exec, Stack.mStackItrSetData, hs, hsplit.read, Stack.setElem, hn,
            Lifo.exec, hf]
        · simp only [Lifo.exec, hf]
          refine ⟨h.live, h.dtor, h.destroyed, ?_, ?_, h.len.trans hlength.symm, fun m hm => ?_,
            fun hdead => ?_, ?_, ?_⟩
          · refine segment_append.mpr ⟨some n, hbefore.update hnbefore _, rfl, by simp, ?_⟩
            exact hrest.update hnrest _
          · rw [hsplit.value, ← hsplit.length]
            simp
          · have hne : m ≠ n := by
              rintro rfl
              rw [h.fresh m hm] at hn
              cases hn
            exact (Function.update_of_ne hne _ _).trans (h.fresh m hm)
          · have hnil := h.dead hdead
            rw [hsplit.value] at hnil
            simp at hnil
          · have hitr := h.itr
            rw [hf] at hitr
            rw [hsame]
            exact hitr
          · rw [hlength]
            exact fun i hi => h.itrAt i (hf.trans hi)

/-! ### Every call -/

theorem exec_simulates (h : Represents s f xs) (call : StackCall V) : Simulates s f call := by
  cases call with
  | push room data => exact push_simulates h room data
  | pop =>
      obtain ⟨st, ys, hpop, hrep⟩ := mStackPop_spec h
      exact ⟨⟨st, none⟩, by simp [StackState.exec, hpop, Lifo.exec], ys, hrep⟩
  | peek =>
      refine ⟨s, ?_, xs, h⟩
      cases xs with
      | nil =>
          have helems : f.elems = [] := h.elems_eq_nil.mpr rfl
          have hlen : ¬ s.stack.mStackLen > 0 := by simp [h.mStackLen_pos, helems]
          simp [StackState.exec, Stack.mStackPeek, hlen, Lifo.exec, helems]
      | cons x xs =>
          have helems : f.elems = x.2.userptr :: xs.map (fun x => x.2.userptr) := h.elems.symm
          have hlen : s.stack.mStackLen > 0 := by simp [h.mStackLen_pos, helems]
          simp [StackState.exec, Stack.mStackPeek, hlen, Lifo.exec, helems, h.chain.1, h.chain.2.1]
  | remove =>
      obtain ⟨st, ys, hremove, hrep⟩ := mStackRemove_spec h
      exact ⟨⟨st, none⟩, by simp [StackState.exec, hremove, Lifo.exec], ys, hrep⟩
  | clear =>
      obtain ⟨st, ys, hclear, hrep⟩ := mStackClear_spec h
      exact ⟨⟨st, none⟩, by simp [StackState.exec, hclear, Lifo.exec], ys, hrep⟩
  | free =>
      obtain ⟨st, ys, hfree, hrep⟩ := mStackFree_spec h
      exact ⟨⟨st, none⟩, by simp [StackState.exec, hfree, Lifo.exec], ys, hrep⟩
  | len =>
      refine ⟨s, ?_, xs, h⟩
      simp [StackState.exec, Stack.mStackLen, Lifo.exec, h.live, h.len, h.length]
  | iterate fn => exact iterate_simulates h fn
  | itrNew mem => exact itrNew_simulates h mem
  | itrNext => exact itrNext_simulates h
  | itrRemove => exact itrRemove_simulates h
  | itrGetData => exact itrGetData_simulates h
  | itrSetData value => exact itrSetData_simulates h value

theorem represents_new (dtor : Bool) : Represents (StackState.new (V := V) dtor) (.new dtor) [] :=
  ⟨rfl, rfl, rfl, rfl, rfl, rfl, fun _ _ => rfl, fun _ => rfl, rfl, by simp [Lifo.new]⟩

end Representation

end Libmodule
