import Libmodule.BstCalls

/-!
# Iterations that remove

A loop over a tree with an iterator, which may remove the element it shows.  A
removal keeps the nodes before the current one as they are, so the element that
was passed last is where the iterator goes on from.
-/

namespace Libmodule
namespace Bst

open SearchTree

variable {V : Type}

/-! ## The loop of the user -/

/-- A round of `while (itr) { ... m_bst_itr_next(&itr); }`, which removes the element that
it is shown if `removes` says so. -/
def round (removes : V → Bool) (l : Bst V) (i : BstItr) : Option (V × Bst V × Option BstItr) := do
  let v ← ← l.mBstItrGetData (some i)
  let (_, l, itr) ← if removes v then l.mBstItrRemove (some i) else some (0, l, some i)
  let (_, itr) ← l.mBstItrNext itr
  some (v, l, itr)

/-- The rest of the loop: the elements shown, and the tree that is left.  `none` is a fault,
or a loop that has not ended after so many rounds. -/
def iterateFrom (removes : V → Bool) : ℕ → Bst V → BstItr → Option (List V × Bst V)
  | 0, _, _ => none
  | rounds + 1, l, i => do
      match ← round removes l i with
      | (v, l, none) => some ([v], l)
      | (v, l, some i) => do
          let (shown, l) ← iterateFrom removes rounds l i
          some (v :: shown, l)

/-- The whole loop, from `m_bst_itr_new` on. -/
def iterate (removes : V → Bool) (rounds : ℕ) (l : Bst V) : Option (List V × Bst V) := do
  match ← l.mBstItrNew true with
  | none => some ([], l)
  | some i => iterateFrom removes rounds l i

/-! ## Where an iterator stands -/

/-- The iterator stands before the nodes `ys`, after the nodes `xs`. -/
def StandsAt (l : Bst V) (xs ys : List (ℕ × V)) (itr : Option BstItr) : Prop :=
  match ys with
  | [] => itr = none
  | (n, _) :: _ =>
      ∃ slot, itr = some ⟨false, slot, xs.getLast?.map Prod.fst⟩ ∧ l.read slot = some (some n)

section Iterate

variable {l : Bst V} {t : NodeTree V} {xs ys : List (ℕ × V)} {n : ℕ} {v : V}

/-- A node has one place among the nodes. -/
theorem split_unique {xs' ys' : List (ℕ × V)} {v' : V}
    (hnodup : ((xs ++ (n, v) :: ys).map Prod.fst).Nodup)
    (h : xs ++ (n, v) :: ys = xs' ++ (n, v') :: ys') : xs = xs' ∧ v = v' ∧ ys = ys' := by
  induction xs generalizing xs' with
  | nil =>
      cases xs' with
      | nil =>
          simp only [List.nil_append, List.cons.injEq, Prod.mk.injEq, true_and] at h
          exact ⟨rfl, h.1, h.2⟩
      | cons x xs' =>
          rw [List.nil_append, List.cons_append, List.cons.injEq] at h
          obtain ⟨rfl, rfl⟩ := h
          simp at hnodup
  | cons x xs ih =>
      cases xs' with
      | nil =>
          rw [List.nil_append, List.cons_append, List.cons.injEq] at h
          obtain ⟨rfl, -⟩ := h
          simp at hnodup
      | cons x' xs' =>
          rw [List.cons_append, List.cons_append, List.cons.injEq] at h
          obtain ⟨rfl, h⟩ := h
          rw [List.cons_append, List.map_cons, List.nodup_cons] at hnodup
          obtain ⟨rfl, hv, hys⟩ := ih hnodup.2 h
          exact ⟨rfl, hv, hys⟩

/-- The tree around one of its nodes. -/
theorem exists_plug_at (h : Represents l t) (hnodes : t.nodes = xs ++ (n, v) :: ys) :
    ∃ c left right, t = plug c (.node n left v right) ∧ xs = before c ++ left.nodes ∧
      ys = right.nodes ++ after c := by
  have hn : n ∈ t.ids := by
    rw [NodeTree.ids, hnodes]
    simp
  obtain ⟨c, left, v', right, rfl⟩ := exists_plug hn
  have hnodup := h.nodup
  rw [NodeTree.ids, hnodes] at hnodup
  have hsplit : xs ++ (n, v) :: ys =
      (before c ++ left.nodes) ++ (n, v') :: (right.nodes ++ after c) := by
    rw [← hnodes, nodes_plug, NodeTree.nodes_node]
    simp
  obtain ⟨hxs, rfl, hys⟩ := split_unique hnodup hsplit
  exact ⟨c, left, right, rfl, hxs, hys⟩

/-- `bst_next` leads to the node that follows. -/
theorem bstNext_at (h : Represents l t) (hnodes : t.nodes = xs ++ (n, v) :: ys) (slot : NodeSlot)
    (hslot : l.read slot = some (some n)) :
    ∃ next, l.bstNext slot = some next ∧ l.read next = some (ys.head?.map Prod.fst) := by
  obtain ⟨c, left, right, rfl, -, rfl⟩ := exists_plug_at h hnodes
  exact bstNext_spec h hslot

/-- From a node that stays, the iterator goes to the one that follows. -/
theorem itrStep_kept (h : Represents l t) (hnodes : t.nodes = xs ++ (n, v) :: ys) {i : BstItr}
    (hlive : i.removed = false) (hread : l.read i.curr = some (some n)) :
    ∃ itr, l.itrStep i = some itr ∧ StandsAt l (xs ++ [(n, v)]) ys itr := by
  obtain ⟨next, hnext, hreadNext⟩ := bstNext_at h hnodes _ hread
  cases ys with
  | nil => exact ⟨none, by simp [itrStep, hlive, hread, hnext, hreadNext], rfl⟩
  | cons y ys =>
      obtain ⟨m, w⟩ := y
      refine ⟨some ⟨false, next, some n⟩, ?_, next, by simp, hreadNext⟩
      simp [itrStep, hlive, hread, hnext, hreadNext]

/-- After a removal, the iterator goes to the node that follows the one passed last. -/
theorem itrStep_removed (h : Represents l t) (hnodes : t.nodes = xs ++ ys) {i : BstItr}
    (hremoved : i.removed = true) (hprev : i.prev = xs.getLast?.map Prod.fst) :
    ∃ itr, l.itrStep i = some itr ∧ StandsAt l xs ys itr := by
  rcases List.eq_nil_or_concat xs with rfl | ⟨init, ⟨p, w⟩, rfl⟩
  · rw [List.nil_append] at hnodes
    have hnone : i.prev = none := hprev
    cases ys with
    | nil =>
        have hleaf : t = .leaf := by
          cases t with
          | leaf => rfl
          | node _ _ _ _ => simp at hnodes
        have hroot : l.root = none := by rw [h.root, hleaf]; rfl
        exact ⟨none, by simp [itrStep, hremoved, hnone, hroot, read], rfl⟩
    | cons y ys =>
        obtain ⟨m, w⟩ := y
        have hne : t ≠ .leaf := by
          rintro rfl
          cases hnodes
        obtain ⟨first, hfirst, hread⟩ := findMinSubtree_root h hne
        rw [hnodes] at hread
        have hroot : l.root.isSome = true := by
          rw [h.root, Option.isSome_iff_ne_none, Ne, NodeTree.ptr_eq_none]
          exact hne
        have hreadm : l.read first = some (some m) := hread
        refine ⟨some ⟨false, first, none⟩, ?_, first, rfl, hreadm⟩
        simp [itrStep, hremoved, hnone, hroot, hfirst, hreadm]
  · rw [List.concat_eq_append] at hnodes hprev ⊢
    rw [List.append_assoc, List.singleton_append] at hnodes
    have hsome : i.prev = some p := by rw [hprev]; simp
    obtain ⟨next, hnext, hreadNext⟩ :=
      bstNext_at h hnodes (.prev (some p)) rfl
    cases ys with
    | nil => exact ⟨none, by simp [itrStep, hremoved, hsome, hnext, hreadNext], rfl⟩
    | cons y ys =>
        obtain ⟨m, w'⟩ := y
        refine ⟨some ⟨false, next, some p⟩, ?_, next, by simp, hreadNext⟩
        simp [itrStep, hremoved, hsome, hnext, hreadNext]

/-- A removal leaves the nodes before the current one, and the pointers after it. -/
theorem nodes_removeRoot (id : ℕ) (left right : NodeTree V) (value : V) :
    ∃ ys, (removeRoot (.node id left value right)).nodes = left.nodes ++ ys ∧
      ys.map Prod.snd = right.values := by
  by_cases h : left = .leaf ∨ right = .leaf
  · rcases removeRoot_of_leaf id value h with ⟨hleft, heq⟩ | ⟨hleft, heq⟩
    · exact ⟨right.nodes, by rw [heq, hleft]; rfl, rfl⟩
    · exact ⟨[], by rw [heq]; simp, by rw [h.resolve_left hleft]; rfl⟩
  · push Not at h
    obtain ⟨d, m, w, r, hplug, hbefore, -, heq⟩ := removeRoot_of_two id value h.1 h.2
    refine ⟨(id, w) :: (plug d r).nodes, by rw [heq]; rfl, ?_⟩
    rw [hplug]
    simp [NodeTree.values, nodes_plug, hbefore]

theorem mBstItrRemove_at (h : Represents l t) (hnodes : t.nodes = xs ++ (n, v) :: ys)
    {i : BstItr} (hlive : i.removed = false) (hread : l.read i.curr = some (some n)) :
    ∃ l' t' ys', l.mBstItrRemove (some i) = some (0, l', some { i with removed := true }) ∧
      Represents l' t' ∧ t'.nodes = xs ++ ys' ∧ ys'.map Prod.snd = ys.map Prod.snd := by
  obtain ⟨c, left, right, rfl, rfl, rfl⟩ := exists_plug_at h hnodes
  obtain ⟨l', w, hremove, hrep, -⟩ := removeNode_spec h
  obtain ⟨ys', hroot, hvalues⟩ := nodes_removeRoot n left right v
  refine ⟨l', _, ys' ++ after c, ?_, hrep, ?_, ?_⟩
  · simp [mBstItrRemove, hlive, hread, normalizedSlot_spec h, hremove]
  · rw [nodes_plug, hroot]
    simp
  · rw [List.map_append, List.map_append, hvalues]
    rfl

theorem mBstItrGetData_at (h : Represents l t) (hnodes : t.nodes = xs ++ (n, v) :: ys)
    {i : BstItr} (hlive : i.removed = false) (hread : l.read i.curr = some (some n)) :
    l.mBstItrGetData (some i) = some (some v) := by
  obtain ⟨c, left, right, rfl, -, -⟩ := exists_plug_at h hnodes
  simp [mBstItrGetData, hlive, hread, h.node_eq]

/-- A round shows the node that the iterator stands before, and keeps the rest. -/
theorem round_spec (removes : V → Bool) {i : BstItr} (h : Represents l t)
    (hnodes : t.nodes = xs ++ (n, v) :: ys) (hitr : StandsAt l xs ((n, v) :: ys) (some i)) :
    ∃ l' t' xs' ys' itr, round removes l i = some (v, l', itr) ∧ Represents l' t' ∧
      t'.nodes = xs' ++ ys' ∧ StandsAt l' xs' ys' itr ∧
      xs'.map Prod.snd = xs.map Prod.snd ++ [v].filter (fun v => !removes v) ∧
      ys'.map Prod.snd = ys.map Prod.snd := by
  obtain ⟨slot, hi, hread⟩ := hitr
  obtain rfl := Option.some.inj hi
  have hdata : l.mBstItrGetData (some ⟨false, slot, xs.getLast?.map Prod.fst⟩) = some (some v) :=
    mBstItrGetData_at h hnodes rfl hread
  cases hremove : removes v with
  | true =>
      obtain ⟨l', t', ys', hremoved, hrep, hnodes', hvalues⟩ :=
        mBstItrRemove_at h hnodes (i := ⟨false, slot, xs.getLast?.map Prod.fst⟩) rfl hread
      obtain ⟨itr, hstep, hstands⟩ := itrStep_removed hrep hnodes'
        (i := ⟨true, slot, xs.getLast?.map Prod.fst⟩) rfl rfl
      refine ⟨l', t', xs, ys', itr, ?_, hrep, hnodes', hstands, by simp [hremove], hvalues⟩
      simp [round, hdata, hremove, hremoved, mBstItrNext, hstep]
  | false =>
      obtain ⟨itr, hstep, hstands⟩ := itrStep_kept h hnodes
        (i := ⟨false, slot, xs.getLast?.map Prod.fst⟩) rfl hread
      refine ⟨l, t, xs ++ [(n, v)], ys, itr, ?_, h, by simp [hnodes], hstands,
        by simp [hremove], rfl⟩
      simp [round, hdata, hremove, mBstItrNext, hstep]

/-- The loop shows what the iterator still stands before, and leaves what it does not
remove of it. -/
theorem iterateFrom_spec (removes : V → Bool) {rounds : ℕ} {i : BstItr} (h : Represents l t)
    (hnodes : t.nodes = xs ++ (n, v) :: ys) (hrounds : ys.length < rounds)
    (hitr : StandsAt l xs ((n, v) :: ys) (some i)) :
    ∃ l' t', iterateFrom removes rounds l i = some (v :: ys.map Prod.snd, l') ∧
      Represents l' t' ∧
      t'.values = xs.map Prod.snd ++ (v :: ys.map Prod.snd).filter (fun v => !removes v) := by
  induction rounds generalizing l t xs ys n v i with
  | zero => omega
  | succ rounds ih =>
      obtain ⟨l₁, t₁, xs₁, ys₁, itr, hround, hrep, hnodes₁, hstands, hxs, hys⟩ :=
        round_spec removes h hnodes hitr
      have hlength := congrArg List.length hys
      rw [List.length_map, List.length_map] at hlength
      have hsplit : (v :: ys.map Prod.snd).filter (fun v => !removes v) =
          [v].filter (fun v => !removes v) ++ (ys₁.map Prod.snd).filter (fun v => !removes v) := by
        rw [hys, ← List.filter_append]
        rfl
      rw [hsplit, ← List.append_assoc, ← hxs, ← hys]
      cases ys₁ with
      | nil =>
          have hnone : itr = none := hstands
          refine ⟨l₁, t₁, by simp [iterateFrom, hround, hnone], hrep, ?_⟩
          simp [NodeTree.values, hnodes₁]
      | cons y ys₁ =>
          obtain ⟨m, w⟩ := y
          obtain ⟨slot, rfl, hread⟩ := hstands
          rw [List.length_cons] at hlength
          obtain ⟨l', t', hrest, hrep', hvalues⟩ := ih hrep hnodes₁ (by omega) ⟨slot, rfl, hread⟩
          exact ⟨l', t', by simp [iterateFrom, hround, hrest], hrep', hvalues⟩

/-- In every tree that is not empty, whatever it removes, the loop ends after as many
rounds as there are elements, and not on a fault.  It shows the elements that were in the
tree, each once and in increasing order, and leaves those it did not remove. -/
theorem iterate_spec (comp : V → V → ℤ) (removes : V → Bool) (l : Bst V) (t : NodeTree V)
    (h : Represents l t) (hsorted : Sorted comp t) (hne : t ≠ .leaf) (rounds : ℕ)
    (hrounds : l.len ≤ rounds) :
    l.stored.Pairwise (fun a b => comp a b < 0) ∧
      ∃ l' t', iterate removes rounds l = some (l.stored, l') ∧ Represents l' t' ∧
        Sorted comp t' ∧ l'.stored = l.stored.filter (fun v => !removes v) := by
  have hstored := h.stored_eq
  refine ⟨by rw [hstored]; exact hsorted, ?_⟩
  obtain ⟨first, hfirst, n, hread, hhead, -⟩ := first_valid h hne
  cases hnodes : t.nodes with
  | nil =>
      rw [hnodes] at hhead
      cases hhead
  | cons x ys =>
      obtain ⟨m, v⟩ := x
      rw [hnodes] at hhead
      obtain rfl : m = n := Option.some.inj hhead
      have hlen : l.len = ys.length + 1 := by rw [h.len, hnodes]; rfl
      have hys : ys.length < rounds := by omega
      obtain ⟨l', t', hloop, hrep, hvalues⟩ := iterateFrom_spec removes
        (i := ⟨false, first, none⟩) h (hnodes.trans (List.nil_append _).symm) hys
        ⟨first, rfl, hread⟩
      have htvalues : t.values = v :: ys.map Prod.snd := by rw [NodeTree.values, hnodes]; rfl
      rw [← htvalues] at hloop hvalues
      rw [List.map_nil, List.nil_append] at hvalues
      refine ⟨l', t', ?_, hrep, ?_, ?_⟩
      · rw [hstored]
        simp [iterate, mBstItrNew, hlen, hfirst, hloop]
      · rw [Sorted, hvalues]
        exact hsorted.sublist List.filter_sublist
      · rw [hrep.stored_eq, hstored, hvalues]

end Iterate

/-- A tree of three nodes, the root of which has two children. -/
def threeNodes : Bst ℤ where
  len := 3
  root := some 0
  heap := fun n =>
    match n with
    | 0 => some ⟨2, none, some 2, some 1⟩
    | 1 => some ⟨1, some 0, none, none⟩
    | 2 => some ⟨3, some 0, none, none⟩
    | _ => none
  comp := fun a b => some (a - b)
  dtor := false

theorem represents_threeNodes : Represents threeNodes
    (.node 0 (.node 1 .leaf 1 .leaf) 2 (.node 2 .leaf 3 .leaf)) where
  root := rfl
  holds := ⟨rfl, ⟨rfl, trivial, trivial⟩, rfl, trivial, trivial⟩
  nodup := by decide
  live := by
    intro n
    match n with
    | 0 | 1 | 2 => simp [threeNodes]
    | n + 3 => simp [threeNodes]
  len := rfl

theorem iterate_threeNodes :
    threeNodes.stored.Pairwise (fun a b => a - b < 0) ∧
      ∃ l' t', iterate (fun v => v == 2) 3 threeNodes = some (threeNodes.stored, l') ∧
        Represents l' t' ∧ Sorted (fun a b => a - b) t' ∧
        l'.stored = threeNodes.stored.filter (fun v => !(v == 2)) :=
  iterate_spec _ _ _ _ represents_threeNodes (by simp [Sorted]) (by simp) 3 (le_refl 3)

end Bst
end Libmodule
