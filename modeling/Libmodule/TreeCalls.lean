import Libmodule.BstDestruction

/-!
# Tree calls without the heap of nodes

`m_bst_insert`, `m_bst_remove` and the removal of the first element by an
iterator, as functions of the tree that the nodes represent.  A removal also
tells which pointer the destructor gets.
-/

namespace SearchTree

variable {α : Type}

/-- Descend by comparisons that may fail. -/
def seekBy (actual : α → Option ℤ) :
    List (Frame α) → NodeTree α → Option (List (Frame α) × NodeTree α)
  | c, .leaf => some (c, .leaf)
  | c, .node id left value right => do
      let ret ← actual value
      if ret ≠ 0 then
        if ret > 0 then seekBy actual (.right id left value :: c) right
        else seekBy actual (.left id value right :: c) left
      else some (c, .node id left value right)

/-- The value that the destructor gets when the root is removed. -/
def destroyedRoot : NodeTree α → Option α
  | .leaf => none
  | .node _ .leaf value _ => some value
  | .node _ _ value .leaf => some value
  | .node _ _ _ right => right.values.head?

/-- The tree without its first element. -/
def removeFirst (t : NodeTree α) : NodeTree α :=
  plug (leftmost [] t).1 (removeRoot (leftmost [] t).2)

theorem seekBy_agrees {actual : α → Option ℤ} {c d : List (Frame α)} {t r : NodeTree α}
    (hseek : seekBy actual c t = some (d, r)) :
    Agrees (fun value => (actual value).getD 0) actual t ∧
      seek (fun value => (actual value).getD 0) c t = (d, r) := by
  induction t generalizing c with
  | leaf =>
      cases hseek
      exact ⟨trivial, rfl⟩
  | node id left value right ihl ihr =>
      rw [seekBy] at hseek
      obtain ⟨ret, hret, hseek⟩ := Option.bind_eq_some_iff.mp hseek
      rw [Agrees, seek]
      simp only [hret, Option.getD_some]
      split at hseek
      next hne =>
        rw [if_pos hne]
        split at hseek
        next hpos =>
          rw [if_pos hpos]
          have hright := ihr hseek
          exact ⟨⟨⟨ret, rfl, rfl⟩, fun _ => hright.1, fun hneg => by omega⟩, hright.2⟩
        next hpos =>
          rw [if_neg hpos]
          have hleft := ihl hseek
          exact ⟨⟨⟨ret, rfl, rfl⟩, fun h => absurd h hpos, fun _ => hleft.1⟩, hleft.2⟩
      next heq =>
        rw [if_neg heq]
        cases hseek
        refine ⟨⟨⟨ret, rfl, rfl⟩, ?_, ?_⟩, rfl⟩
        · intro hpos
          omega
        · intro hneg
          omega

theorem seekBy_total (compare : α → ℤ) (c : List (Frame α)) (t : NodeTree α) :
    ∃ d r, seekBy (fun value => some (compare value)) c t = some (d, r) := by
  induction t generalizing c with
  | leaf => exact ⟨c, .leaf, rfl⟩
  | node id left value right ihl ihr =>
      rw [seekBy, Option.bind_eq_bind, Option.bind_some]
      split
      next =>
        split
        next => exact ihr _
        next => exact ihl _
      next => exact ⟨_, _, rfl⟩

theorem destroyedRoot_eq {id : ℕ} {left right : NodeTree α} {value w : α}
    (hone : left = .leaf ∨ right = .leaf → w = value)
    (htwo : left ≠ .leaf → right ≠ .leaf → right.values.head? = some w) :
    destroyedRoot (.node id left value right) = some w := by
  cases left with
  | leaf => rw [hone (Or.inl rfl)]; rfl
  | node i l v r =>
      cases right with
      | leaf => rw [hone (Or.inr rfl)]; rfl
      | node j x y z => exact htwo (by simp) (by simp)

end SearchTree

namespace Libmodule

open SearchTree

section

variable {α : Type}

def treeInsert (actual : α → Option ℤ) (id : ℕ) (data : α) (t : NodeTree α) :
    Option (ℤ × NodeTree α) := do
  match ← seekBy actual [] t with
  | (c, .leaf) => some (0, plug c (.node id .leaf data .leaf))
  | _ => some (-EEXIST, t)

def treeRemove (actual : α → Option ℤ) (t : NodeTree α) :
    Option (ℤ × NodeTree α × Option α) :=
  match t with
  | .leaf => some (-EINVAL, t, none)
  | t => do
      match ← seekBy actual [] t with
      | (_, .leaf) => some (-ENOENT, t, none)
      | (c, r) => some (0, plug c (removeRoot r), destroyedRoot r)

/-- Comparisons that do not fail find a place for a value, or one that compares equal. -/
theorem treeInsert_total (compare : α → ℤ) (id : ℕ) (data : α) (t : NodeTree α) :
    ∃ ret t', treeInsert (fun value => some (compare value)) id data t = some (ret, t') ∧
      (ret = 0 ∧ (∀ p, p ∈ t'.values ↔ p = data ∨ p ∈ t.values) ∨ ret = -EEXIST ∧ t' = t) := by
  obtain ⟨c, r, hseek⟩ := seekBy_total compare [] t
  have hplug := plug_seek (fun value => compare value) [] t
  have hside := (seekBy_agrees hseek).2
  simp only [Option.getD_some] at hside
  rw [hside] at hplug
  change plug c r = t at hplug
  cases r with
  | leaf =>
      refine ⟨0, _, by simp [treeInsert, hseek]; rfl, .inl ⟨rfl, fun p => ?_⟩⟩
      rw [← hplug, Bst.values_plug, Bst.values_plug]
      simp only [NodeTree.values_node, NodeTree.values_leaf, List.nil_append, List.append_nil,
        List.mem_append, List.mem_singleton]
      tauto
  | node => exact ⟨-EEXIST, t, by simp [treeInsert, hseek], .inr ⟨rfl, rfl⟩⟩

theorem treeRemove_total (compare : α → ℤ) (t : NodeTree α) :
    ∃ ret t' gone, treeRemove (fun value => some (compare value)) t = some (ret, t', gone) := by
  cases t with
  | leaf => exact ⟨_, _, _, rfl⟩
  | node id left value right =>
      obtain ⟨c, r, hseek⟩ := seekBy_total compare [] (.node id left value right)
      cases r with
      | leaf => exact ⟨-ENOENT, .node id left value right, none, by simp [treeRemove, hseek]⟩
      | node n x v y =>
          exact ⟨0, plug c (removeRoot (.node n x v y)), destroyedRoot (.node n x v y),
            by simp [treeRemove, hseek]⟩

end

namespace Bst

theorem values_removeFirst (t : NodeTree α) : (removeFirst t).values = t.values.tail := by
  cases t with
  | leaf => rfl
  | node id left value right =>
      obtain ⟨d, n, v, r, hmost, hplug, hbefore⟩ := leftmost_spec id left value right
      have hfirst := hmost []
      rw [List.append_nil] at hfirst
      rw [removeFirst, hfirst, ← hplug, values_plug, values_plug, values_removeRoot]
      simp [hbefore]

variable {V : Type} {l : Bst V} {t t' : NodeTree V}

/-- On a tree of nodes, `m_bst_insert` is `treeInsert`. -/
theorem mBstInsert_treeInsert (h : Represents l t) (alloc : NodeAlloc V) {id : ℕ}
    (halloc : alloc.calloc l.heap = some id) {data : V} {ret : ℤ}
    (hcall : treeInsert (l.comp data) id data t = some (ret, t')) :
    ∃ l', l.mBstInsert alloc (some data) = some (ret, l') ∧ Represents l' t' ∧
      l'.destroyed = l.destroyed := by
  obtain ⟨⟨c, r⟩, hseek, hcall⟩ := Option.bind_eq_some_iff.mp hcall
  obtain ⟨hagrees, hside⟩ := seekBy_agrees hseek
  have hfind := bstFind_spec h data hagrees
  have hplug := plug_seek (fun value => (l.comp data value).getD 0) [] t
  rw [hside] at hfind hplug
  change plug c r = t at hplug
  subst hplug
  have hread := h.read_slotOf
  cases r with
  | leaf =>
      cases hcall
      rcases insertNode_spec h alloc data with
        ⟨hnone, _⟩ | ⟨n, l', hn, hinsert, hrep, _, _, _, _, hlog⟩
      · rw [halloc] at hnone
        cases hnone
      · rw [halloc, Option.some.injEq] at hn
        subst hn
        exact ⟨l', by simp [mBstInsert, hfind, hread, hinsert], hrep, hlog⟩
  | node n left value right =>
      cases hcall
      exact ⟨l, by simp [mBstInsert, hfind, hread], h, rfl⟩

/-- On a tree of nodes, `m_bst_remove` is `treeRemove`. -/
theorem mBstRemove_treeRemove (h : Represents l t) (hdtor : l.dtor = true) {data : V} {ret : ℤ}
    {gone : Option V} (hcall : treeRemove (l.comp data) t = some (ret, t', gone)) :
    ∃ l', l.mBstRemove (some data) = some (ret, l') ∧ Represents l' t' ∧
      l'.destroyed = l.destroyed ++ gone.toList := by
  have hlen := h.len
  cases t with
  | leaf =>
      cases hcall
      refine ⟨l, ?_, h, by simp⟩
      simp [mBstRemove, hlen]
  | node i x v y =>
      have hpos : l.len > 0 := by
        rw [hlen, NodeTree.nodes_node, List.length_append, List.length_cons]
        omega
      obtain ⟨⟨c, r⟩, hseek, hcall⟩ := Option.bind_eq_some_iff.mp hcall
      obtain ⟨hagrees, hside⟩ := seekBy_agrees hseek
      have hfind := bstFind_spec h data hagrees
      have hplug := plug_seek (fun value => (l.comp data value).getD 0) [] (.node i x v y)
      rw [hside] at hfind hplug
      change plug c r = .node i x v y at hplug
      rw [← hplug] at h hcall
      have hread := h.read_slotOf
      cases r with
      | leaf =>
          cases hcall
          refine ⟨l, ?_, h, by simp⟩
          have hremove : l.removeNode (slotOf c) = some (-ENOENT, l) := by
            rw [removeNode, removeFrom]
            simp [hread]
          simp [mBstRemove, hpos, hfind, hremove]
      | node n left value right =>
          obtain ⟨l', w, hremove, hrep, _, _, hlog, hone, htwo⟩ := removeNode_spec h
          rw [afterDtor_eq hdtor] at hlog
          cases hcall
          refine ⟨l', by simp [mBstRemove, hpos, hfind, hremove], hrep, ?_⟩
          rw [hlog, destroyedRoot_eq hone htwo]
          rfl

end Bst

end Libmodule
