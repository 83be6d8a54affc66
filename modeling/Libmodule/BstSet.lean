import Libmodule.BstCalls

/-!
# The tree is a finite set

Whatever its destructor does, a tree holds a finite set of pointers in the
order of its comparator.  Every call changes the set as its name says, except
for a clear that gets no memory for its iterator: it drops the root of the tree
and keeps the count.
-/

namespace Libmodule
namespace Bst

open SearchTree CallRun

variable {V : Type}

open Classical in
/-- The pointers stored in the tree. -/
noncomputable def elements (l : Bst V) : Finset V := l.stored.toFinset

/-- An element that the comparator takes for `x` is stored. -/
def Has (comp : V → V → ℤ) (l : Bst V) (x : V) : Prop := ∃ v ∈ l.elements, comp x v = 0

/-- The nodes form a search tree, linked from parent to child and back, as many as
the tree says, and `m_bst_find` finds in it what it holds. -/
structure IsSet (comp : V → V → ℤ) (l : Bst V) : Prop where
  tree : ∃ t, Represents l t ∧ Sorted comp t
  card : l.elements.card = l.len
  find : ∀ x, (∃ v ∈ l.elements, comp x v = 0 ∧ l.mBstFind (some x) = some (some v)) ∨
    (¬ Has comp l x ∧ l.mBstFind (some x) = some none)

open Classical in
/-- What a call does to the set. -/
def ChangesSet (comp : V → V → ℤ) (s : BstState V) (call : BstCall V) (ret : ℤ)
    (s' : BstState V) : Prop :=
  match call with
  | .insert alloc (some x) =>
      (ret = -EEXIST ↔ Has comp s.bst x) ∧ (ret = -EEXIST → s'.bst = s.bst) ∧
        (¬ Has comp s.bst x →
          (ret = 0 ∧ s'.bst.elements = insert x s.bst.elements) ∨
            (alloc.calloc s.bst.heap = none ∧ ret = -ENOMEM ∧ s'.bst = s.bst))
  | .remove (some x) =>
      (∀ v ∈ s.bst.elements, comp x v = 0 →
        ret = 0 ∧ s'.bst.elements = s.bst.elements.erase v) ∧
        (¬ Has comp s.bst x → ret < 0 ∧ s'.bst = s.bst)
  | .itrRemove =>
      (∀ v, call.target s = some v →
        v ∈ s.bst.elements ∧ ret = 0 ∧ s'.bst.elements = s.bst.elements.erase v) ∧
        (call.target s = none → ret < 0 ∧ s'.bst = s.bst)
  | .clear _ => s'.bst.elements = ∅
  | _ => s'.bst = s.bst

/-- The call does to the set what it should, and leaves a set. -/
def RefinesSet (comp : V → V → ℤ) (s : BstState V) (call : BstCall V) (ret : ℤ)
    (s' : BstState V) : Prop :=
  ChangesSet comp s call ret s' ∧ IsSet comp s'.bst

/-! ## Trees are sets -/

section Sets

variable {comp : V → V → ℤ} {dtor : Bool} {s s' : BstState V} {t t' : NodeTree V}

theorem RunInvariant.mem_elements (h : RunInvariant comp dtor s t) {v : V} :
    v ∈ s.bst.elements ↔ v ∈ t.values := by
  classical
  rw [elements, List.mem_toFinset, h.represents.stored_eq]

theorem RunInvariant.isSet (h : RunInvariant comp dtor s t) (hcomp : TotalPreorder comp) :
    IsSet comp s.bst where
  tree := ⟨t, h.represents, h.sorted⟩
  card := by
    classical
    rw [elements, h.represents.stored_eq, h.represents.len,
      List.toFinset_card_of_nodup (h.sorted.nodup hcomp), NodeTree.values, List.length_map]
  find := by
    intro x
    obtain ⟨c, r, hfind, rfl, hread, hlocated, hcase⟩ := h.search hcomp x
    rcases hcase with rfl | ⟨n, left, v, right, rfl, heq⟩
    · refine .inr ⟨?_, by simp [mBstFind, hfind, hread]⟩
      rintro ⟨v, hv, heq⟩
      exact absent_of_located hlocated v (h.mem_elements.mp hv) heq
    · refine .inl ⟨v, h.mem_elements.mpr ?_, heq, ?_⟩
      · rw [values_plug]
        simp
      · simp [mBstFind, hfind, hread, h.represents.node_eq]

/-- At most one stored element is equal to a given one. -/
theorem eq_of_equal (hcomp : TotalPreorder comp) (hsorted : Sorted comp t) {x v w : V}
    (hv : v ∈ t.values) (hw : w ∈ t.values) (hxv : comp x v = 0) (hxw : comp x w = 0) : v = w := by
  obtain ⟨xs, ys, hsplit⟩ := List.append_of_mem hv
  rw [Sorted, hsplit, List.pairwise_append, List.pairwise_cons] at hsorted
  obtain ⟨-, ⟨hafter, -⟩, hbefore⟩ := hsorted
  rw [hsplit, List.mem_append, List.mem_cons] at hw
  rcases hw with hw | rfl | hw
  · have hlt := hcomp.lt_of_le_of_lt hxw.le (hbefore w hw v List.mem_cons_self)
    omega
  · rfl
  · have hlt := hcomp.lt_of_le_of_lt hxv.le (hafter w hw)
    omega

theorem RunInvariant.not_has_iff (h : RunInvariant comp dtor s t) {x : V} :
    ¬ Has comp s.bst x ↔ ∀ v ∈ t.values, comp x v ≠ 0 := by
  simp only [Has, h.mem_elements, not_exists, not_and]

/-- Taking out a node takes its pointer out of the set. -/
theorem removed_elements {c : List (Frame V)} {n : ℕ} {left right : NodeTree V} {v : V}
    (h : RunInvariant comp dtor s (plug c (.node n left v right))) (hcomp : TotalPreorder comp)
    (h' : RunInvariant comp dtor s' (plug c (removeRoot (.node n left v right)))) :
    ∀ w, w ∈ s'.bst.elements ↔ w ≠ v ∧ w ∈ s.bst.elements := by
  intro w
  have hnodup := h.sorted.nodup hcomp
  rw [values_plug, NodeTree.values_node, List.append_assoc, List.append_assoc, List.cons_append,
    ← List.append_assoc, List.nodup_middle, List.nodup_cons] at hnodup
  rw [h'.mem_elements, h.mem_elements, values_plug, values_plug, values_removeRoot,
    NodeTree.values_node]
  have hv := hnodup.1
  simp only [List.mem_append, List.mem_cons] at hv ⊢
  constructor
  · intro hw
    refine ⟨?_, by tauto⟩
    rintro rfl
    exact hv (by tauto)
  · tauto

/-! ## One call -/

variable {call : BstCall V} {ret : ℤ}

theorem refused_changesSet (h : RunInvariant comp dtor s t) (itr : Option BstItr)
    (hrefuse : Refuses comp s t call ret) : ChangesSet comp s call ret ⟨s.bst, itr⟩ := by
  cases call with
  | insert alloc data =>
      cases data with
      | none => rfl
      | some x =>
          rcases hrefuse with ⟨rfl, v, hv, heq⟩ | ⟨rfl, hnone, habsent⟩
          · have hhas : Has comp s.bst x := ⟨v, h.mem_elements.mpr hv, heq⟩
            exact ⟨iff_of_true rfl hhas, fun _ => rfl, fun hnot => absurd hhas hnot⟩
          · have hnot := h.not_has_iff.mpr habsent
            exact ⟨iff_of_false (by decide) hnot, fun _ => rfl, fun _ => .inr ⟨hnone, rfl, rfl⟩⟩
  | remove data =>
      cases data with
      | none => rfl
      | some x =>
          obtain ⟨hret, habsent⟩ := hrefuse
          refine ⟨fun v hv heq => absurd heq (habsent v (h.mem_elements.mp hv)),
            fun _ => ⟨?_, rfl⟩⟩
          rcases hret with rfl | rfl <;> decide
  | itrNew mem => rfl
  | itrNext => rfl
  | itrRemove =>
      obtain ⟨rfl, hremoved⟩ := hrefuse
      have hnone : BstCall.target s .itrRemove = none := by
        cases hitr : s.itr with
        | none => simp [BstCall.target, mBstItrGetData, hitr]
        | some i => simp [BstCall.target, mBstItrGetData, hitr, hremoved i hitr]
      refine ⟨fun v hv => ?_, fun _ => ⟨by decide, rfl⟩⟩
      rw [hnone] at hv
      cases hv
  | clear mem =>
      obtain ⟨rfl, hlen⟩ := hrefuse
      have hempty : s.bst.elements = ∅ := by
        rw [h.represents.len, List.length_eq_zero_iff] at hlen
        ext v
        simp [h.mem_elements, NodeTree.values, hlen]
      exact hempty

theorem Takes.target {c : List (Frame V)} {n : ℕ} {left right : NodeTree V} {v : V}
    (h : Represents s.bst (plug c (.node n left v right)))
    (htakes : Takes comp s c n v .itrRemove) : BstCall.target s .itrRemove = some v := by
  cases htakes with
  | itrRemove i hitr hlive hcurr =>
      simp [BstCall.target, mBstItrGetData, hitr, hlive, hcurr, h.node_eq]

theorem removed_changesSet {c : List (Frame V)} {n : ℕ} {left right : NodeTree V} {v : V}
    (h : RunInvariant comp dtor s (plug c (.node n left v right))) (hcomp : TotalPreorder comp)
    (h' : RunInvariant comp dtor s' (plug c (removeRoot (.node n left v right))))
    (htakes : Takes comp s c n v call) : ChangesSet comp s call 0 s' := by
  classical
  have hmem : v ∈ (plug c (.node n left v right)).values := by
    rw [values_plug]
    simp
  have herase : s'.bst.elements = s.bst.elements.erase v := by
    ext w
    rw [removed_elements h hcomp h', Finset.mem_erase]
  cases htakes with
  | remove x heq hfind =>
      refine ⟨fun w hw hxw => ?_, fun hnot => ?_⟩
      · obtain rfl := eq_of_equal hcomp h.sorted hmem (h.mem_elements.mp hw) heq hxw
        exact ⟨rfl, by convert herase⟩
      · exact absurd ⟨v, h.mem_elements.mpr hmem, heq⟩ hnot
  | itrRemove i hitr hlive hcurr =>
      have htakes : Takes comp s c n v .itrRemove := .itrRemove i hitr hlive hcurr
      have hv := htakes.target h.represents
      refine ⟨fun w hw => ?_, fun hnone => ?_⟩
      · obtain rfl : v = w := Option.some.inj (hv.symm.trans hw)
        exact ⟨h.mem_elements.mpr hmem, rfl, by convert herase⟩
      · rw [hv] at hnone
        cases hnone

theorem Outcome.refinesSet (h : RunInvariant comp dtor s t) (hcomp : TotalPreorder comp)
    (h' : RunInvariant comp dtor s' t') (houtcome : Outcome comp s t call ret s' t') :
    RefinesSet comp s call ret s' := by
  refine ⟨?_, h'.isSet hcomp⟩
  cases houtcome with
  | refused itr hrefuse => exact refused_changesSet h itr hrefuse
  | itrNew mem itr => rfl
  | itrNext itr => rfl
  | @inserted c alloc x bst n hlocated hlog =>
      have hnot : ¬ Has comp s.bst x := h.not_has_iff.mpr (absent_of_located hlocated)
      refine ⟨iff_of_false (by decide) hnot, fun hret => absurd hret (by decide),
        fun _ => .inl ⟨rfl, ?_⟩⟩
      classical
      ext w
      rw [h'.mem_elements, Finset.mem_insert, h.mem_elements, values_plug, values_plug]
      simp only [NodeTree.values_node, NodeTree.values_leaf, List.mem_append, List.mem_cons,
        List.nil_append, List.append_nil]
      tauto
  | removed w itr htakes hlog hone htwo => exact removed_changesSet h hcomp h' htakes
  | cleared hlog =>
      ext v
      simp [h'.mem_elements]

/-- A leak leaves a count without nodes. -/
theorem LeaksNodes.not_refinesSet (hleaks : LeaksNodes s call) :
    ¬ RefinesSet comp s call 0 ⟨{ s.bst with root := none }, none⟩ := by
  classical
  rintro ⟨-, hset⟩
  have hcard := hset.card
  rw [elements, stored_root_none] at hcard
  have hlen := hleaks.2
  simp at hcard
  omega

end Sets

/-! ## Runs -/

/-- For every comparator that orders its elements, with or without a destructor, in every
run on a new tree each call does to a finite set what it should if and only if every clear
of a tree that is not empty gets its iterator. -/
theorem refinesSet_iff (comp : V → V → ℤ) (hcomp : TotalPreorder comp) (dtor : Bool)
    (calls : List (BstCall V)) :
    Always BstCall.exec (RefinesSet comp) ⟨mBstNew (fun a b => some (comp a b)) dtor, none⟩ calls ↔
      Meets BstCall.exec (fun s call => ¬ LeaksNodes s call)
        ⟨mBstNew (fun a b => some (comp a b)) dtor, none⟩ calls := by
  apply always_iff_of_step (fun s => ∃ t, RunInvariant comp dtor s t) _ calls
    ⟨_, runInvariant_new comp dtor⟩
  rintro s call ⟨t, h⟩
  by_cases hleaks : LeaksNodes s call
  · exact ⟨0, _, exec_leaks hleaks, iff_of_false hleaks.not_refinesSet (not_not.mpr hleaks),
      fun hnot => absurd hleaks hnot⟩
  · obtain ⟨ret, s', t', hexec, houtcome, h'⟩ := call_ends h hcomp call hleaks
    exact ⟨ret, s', hexec, iff_of_true (houtcome.refinesSet h hcomp h') hleaks,
      fun _ => ⟨t', h'⟩⟩

theorem refinesSet_twoChildren :
    Always BstCall.exec (RefinesSet fun a b : ℤ => a - b)
        ⟨mBstNew (fun a b => some (a - b)) false, none⟩
        [.insert (.firstFree 8) (some 2), .insert (.firstFree 8) (some 1),
          .insert (.firstFree 8) (some 3), .remove (some 2)] ↔
      Meets BstCall.exec (fun s call => ¬ LeaksNodes s call)
        ⟨mBstNew (fun a b : ℤ => some (a - b)) false, none⟩
        [.insert (.firstFree 8) (some 2), .insert (.firstFree 8) (some 1),
          .insert (.firstFree 8) (some 3), .remove (some 2)] :=
  refinesSet_iff _ totalPreorder_sub false _

/-- A clear without memory for its iterator leaves the count of a tree of one. -/
theorem not_refinesSet_clear :
    ¬ Always BstCall.exec (RefinesSet fun a b : ℤ => a - b)
      ⟨mBstNew (fun a b => some (a - b)) false, none⟩
      [.insert (.firstFree 8) (some 1), .clear false] := by
  rintro ⟨-, ⟨-, hset⟩, -⟩
  obtain ⟨t, hrep, -⟩ := hset.tree
  obtain rfl : t = .leaf := NodeTree.ptr_eq_none.mp hrep.root.symm
  exact absurd hrep.len (by decide)

end Bst
end Libmodule
