import Libmodule.BstCalls
import Libmodule.BstIteration
import Libmodule.StoppingWalk

/-!
# Traversals of the tree

`m_bst_traverse` and its three recursions on the heap of nodes.  The result is
`none` when a node is read that is not allocated.  The callback works on the
memory behind its user pointer, and its calls are recorded.
-/

namespace SearchTree
namespace NodeTree

variable {α : Type}

def preorder : NodeTree α → List α
  | leaf => []
  | node _ left value right => value :: (left.preorder ++ right.preorder)

def postorder : NodeTree α → List α
  | leaf => []
  | node _ left value right => left.postorder ++ (right.postorder ++ [value])

end NodeTree

variable {α : Type}

/-- Each value is above all values on its left and below all on its right. -/
def IsSearchTree (comp : α → α → ℤ) : NodeTree α → Prop
  | .leaf => True
  | .node _ left value right =>
      IsSearchTree comp left ∧ IsSearchTree comp right ∧
        (∀ x ∈ left.values, 0 < comp value x) ∧ ∀ x ∈ right.values, comp value x < 0

theorem IsSearchTree.sorted {comp : α → α → ℤ} (hcomp : TotalPreorder comp) {t : NodeTree α}
    (h : IsSearchTree comp t) : Sorted comp t := by
  induction t with
  | leaf => simp [Sorted]
  | node n left value right ihl ihr =>
      obtain ⟨hl, hr, hbelow, habove⟩ := h
      have hlow : ∀ x ∈ left.values, comp x value < 0 := fun x hx =>
        (hcomp.swap value x).mp (hbelow x hx)
      rw [Sorted, NodeTree.values_node, List.pairwise_append, List.pairwise_cons]
      refine ⟨ihl hl, ⟨habove, ihr hr⟩, ?_⟩
      intro x hx y hy
      rcases List.mem_cons.mp hy with rfl | hy
      · exact hlow x hx
      · exact hcomp.lt_of_lt_of_le (hlow x hx) (habove y hy).le

end SearchTree

namespace Libmodule

open SearchTree StoppingWalk

inductive BstOrder where
  | pre
  | post
  | inOrder
  deriving DecidableEq, Repr

namespace Bst

variable {V S : Type}

def traversePreorder (h : ℕ → Option (BstNode V)) (cb : S → V → ℤ × S) :
    ℕ → Option ℕ → Calls S V → Option (ℤ × Calls S V)
  | _, none, c => some (0, c)
  | 0, some _, _ => none
  | rounds + 1, some n, c => do
      let node ← h n
      let (ret, c) := call cb node.userptr c
      if ret = 0 then
        let (ret, c) ← traversePreorder h cb rounds node.left c
        if ret = 0 then traversePreorder h cb rounds node.right c
        else some (ret, c)
      else some (ret, c)

def traversePostorder (h : ℕ → Option (BstNode V)) (cb : S → V → ℤ × S) :
    ℕ → Option ℕ → Calls S V → Option (ℤ × Calls S V)
  | _, none, c => some (0, c)
  | 0, some _, _ => none
  | rounds + 1, some n, c => do
      let node ← h n
      let (ret, c) ← traversePostorder h cb rounds node.left c
      if ret = 0 then
        let (ret, c) ← traversePostorder h cb rounds node.right c
        if ret = 0 then some (call cb node.userptr c)
        else some (ret, c)
      else some (ret, c)

def traverseInorder (h : ℕ → Option (BstNode V)) (cb : S → V → ℤ × S) :
    ℕ → Option ℕ → Calls S V → Option (ℤ × Calls S V)
  | _, none, c => some (0, c)
  | 0, some _, _ => none
  | rounds + 1, some n, c => do
      let node ← h n
      let (ret, c) ← traverseInorder h cb rounds node.left c
      if ret = 0 then
        let (ret, c) := call cb node.userptr c
        if ret = 0 then traverseInorder h cb rounds node.right c
        else some (ret, c)
      else some (ret, c)

/-- `m_bst_traverse`; the order is `none` for a value outside the enumeration. -/
def mBstTraverse (l : Bst V) (type : Option BstOrder) (cb : Option (S → V → ℤ × S)) (s : S) :
    Option (ℤ × Calls S V) :=
  match cb with
  | none => some (-EINVAL, ⟨s, []⟩)
  | some cb => do
      let (ret, c) ←
        match type with
        | some .pre => traversePreorder l.heap cb l.len l.root ⟨s, []⟩
        | some .post => traversePostorder l.heap cb l.len l.root ⟨s, []⟩
        | some .inOrder => traverseInorder l.heap cb l.len l.root ⟨s, []⟩
        | none => some (-EINVAL, ⟨s, []⟩)
      some (if ret ≥ 0 then 0 else ret, c)

/-! ## The recursions and the walk over the elements -/

/-- The standard traversals of a tree. -/
def sequence : BstOrder → NodeTree V → List V
  | .pre, t => t.preorder
  | .post, t => t.postorder
  | .inOrder, t => t.values

section Recursion

variable {h : ℕ → Option (BstNode V)} (cb : S → V → ℤ × S)

theorem traversePreorder_spec (rounds : ℕ) {parent : Option ℕ} {t : NodeTree V}
    (hholds : Holds h parent t) (hrounds : t.nodes.length ≤ rounds) (c : Calls S V) :
    traversePreorder h cb rounds t.ptr c = some (walk cb t.preorder c) := by
  induction t generalizing rounds parent c with
  | leaf => cases rounds <;> rfl
  | node n left value right ihl ihr =>
      obtain ⟨hnode, hleft, hright⟩ := hholds
      cases rounds with
      | zero => simp at hrounds
      | succ rounds =>
          simp only [NodeTree.nodes_node, List.length_append, List.length_cons] at hrounds
          simp only [NodeTree.ptr_node, traversePreorder, hnode, Option.bind_eq_bind,
            Option.bind_some, NodeTree.preorder, walk]
          by_cases hcall : (call cb value c).1 = 0
          · rw [if_pos hcall, ihl rounds hleft (by omega), Option.bind_some]
            by_cases hl : (walk cb left.preorder (call cb value c).2).1 = 0
            · rw [if_pos hl, ihr rounds hright (by omega)]
              simp [andThen, hcall, hl, walk_append]
            · simp [andThen, hcall, hl, walk_append]
          · simp [andThen, hcall]

theorem traversePostorder_spec (rounds : ℕ) {parent : Option ℕ} {t : NodeTree V}
    (hholds : Holds h parent t) (hrounds : t.nodes.length ≤ rounds) (c : Calls S V) :
    traversePostorder h cb rounds t.ptr c = some (walk cb t.postorder c) := by
  induction t generalizing rounds parent c with
  | leaf => cases rounds <;> rfl
  | node n left value right ihl ihr =>
      obtain ⟨hnode, hleft, hright⟩ := hholds
      cases rounds with
      | zero => simp at hrounds
      | succ rounds =>
          simp only [NodeTree.nodes_node, List.length_append, List.length_cons] at hrounds
          simp only [NodeTree.ptr_node, traversePostorder, hnode, Option.bind_eq_bind,
            Option.bind_some, NodeTree.postorder, walk_append]
          rw [ihl rounds hleft (by omega), Option.bind_some]
          by_cases hl : (walk cb left.postorder c).1 = 0
          · rw [if_pos hl, ihr rounds hright (by omega), Option.bind_some]
            by_cases hr : (walk cb right.postorder (walk cb left.postorder c).2).1 = 0
            · simp [andThen, hl, hr, walk_append, walk_singleton]
            · simp [andThen, hl, hr, walk_append]
          · simp [andThen, hl]

theorem traverseInorder_spec (rounds : ℕ) {parent : Option ℕ} {t : NodeTree V}
    (hholds : Holds h parent t) (hrounds : t.nodes.length ≤ rounds) (c : Calls S V) :
    traverseInorder h cb rounds t.ptr c = some (walk cb t.values c) := by
  induction t generalizing rounds parent c with
  | leaf => cases rounds <;> rfl
  | node n left value right ihl ihr =>
      obtain ⟨hnode, hleft, hright⟩ := hholds
      cases rounds with
      | zero => simp at hrounds
      | succ rounds =>
          simp only [NodeTree.nodes_node, List.length_append, List.length_cons] at hrounds
          simp only [NodeTree.ptr_node, traverseInorder, hnode, Option.bind_eq_bind,
            Option.bind_some, NodeTree.values_node, walk_append]
          rw [ihl rounds hleft (by omega), Option.bind_some]
          by_cases hl : (walk cb left.values c).1 = 0
          · by_cases hcall : (call cb value (walk cb left.values c).2).1 = 0
            · rw [if_pos hl, if_pos hcall, ihr rounds hright (by omega)]
              simp [andThen, hl, hcall, walk]
            · simp [andThen, hl, hcall, walk]
          · simp [andThen, hl]

end Recursion

/-- What the caller gets for the answer that stopped the traversal. -/
def resultOf : Option ℤ → ℤ
  | some ret => if ret < 0 then ret else 0
  | none => 0

theorem mBstTraverse_eq {l : Bst V} {t : NodeTree V} (h : Represents l t) (order : BstOrder)
    (cb : S → V → ℤ × S) (s : S) :
    l.mBstTraverse (some order) (some cb) s =
      some (if (walk cb (sequence order t) ⟨s, []⟩).1 ≥ 0 then 0
        else (walk cb (sequence order t) ⟨s, []⟩).1, (walk cb (sequence order t) ⟨s, []⟩).2) := by
  have hrounds : t.nodes.length ≤ l.len := h.len.ge
  cases order with
  | pre => simp [mBstTraverse, sequence, h.root, traversePreorder_spec cb l.len h.holds hrounds]
  | post => simp [mBstTraverse, sequence, h.root, traversePostorder_spec cb l.len h.holds hrounds]
  | inOrder => simp [mBstTraverse, sequence, h.root, traverseInorder_spec cb l.len h.holds hrounds]

/-- A traversal calls the callback on the standard sequence of the tree, cut
after the first answer other than zero, and that sequence increases in order on
a search tree. -/
theorem mBstTraverse_cut (l : Bst V) (t : NodeTree V) (h : Represents l t) (order : BstOrder)
    (cb : S → V → ℤ × S) (s : S) :
    (∃ c : Calls S V,
        l.mBstTraverse (some order) (some cb) s =
          some (resultOf (stop cb (sequence order t) s), c) ∧
        c.visited = cut cb (sequence order t) s) ∧
      ∀ comp : V → V → ℤ, TotalPreorder comp → IsSearchTree comp t →
        (sequence .inOrder t).Pairwise (fun a b => comp a b < 0) := by
  obtain ⟨hret, hvisited⟩ := walk_spec cb (sequence order t) ⟨s, []⟩
  refine ⟨⟨(walk cb (sequence order t) ⟨s, []⟩).2, ?_, by simpa using hvisited⟩, ?_⟩
  · rw [mBstTraverse_eq h, hret]
    cases hstop : stop cb (sequence order t) s with
    | none => simp [resultOf]
    | some ret =>
        rcases lt_or_ge ret 0 with hneg | hpos
        · simp [resultOf, hneg]
        · simp [resultOf, hpos, not_lt.mpr hpos]
  · intro comp hcomp htree
    exact htree.sorted hcomp

/-- The callback counts its calls and stops the traversal at 2. -/
theorem mBstTraverse_cut_threeNodes :
    (∃ c : Calls ℕ ℤ,
        threeNodes.mBstTraverse (some .inOrder)
            (some (fun n v => (if v = 2 then -7 else 0, n + 1))) 0 = some (-7, c) ∧
        c.visited = [1, 2]) ∧
      ([1, 2, 3] : List ℤ).Pairwise (fun a b => a - b < 0) := by
  obtain ⟨hvisits, hsorted⟩ := mBstTraverse_cut threeNodes _ represents_threeNodes .inOrder
    (fun n v => (if v = 2 then -7 else 0, n + 1)) 0
  exact ⟨hvisits, hsorted (fun a b => a - b) totalPreorder_sub (by simp [IsSearchTree])⟩

end Bst
end Libmodule
