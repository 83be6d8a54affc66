import Mathlib.Data.List.Nodup
import Mathlib.Data.List.Perm.Basic
import Mathlib.Tactic

/-!
# Binary search trees with identified nodes

A tree whose nodes carry an identity besides their value, with the context of
a subtree as a list of frames, innermost first.  Descents of a search return
the context they stop in, so that a change of the subtree is a `plug` of
another tree in the same context.
-/

namespace SearchTree

variable {α : Type}

inductive NodeTree (α : Type) where
  | leaf
  | node (id : ℕ) (left : NodeTree α) (value : α) (right : NodeTree α)

namespace NodeTree

def ptr : NodeTree α → Option ℕ
  | leaf => none
  | node id _ _ _ => some id

/-- The nodes of a tree from left to right. -/
def nodes : NodeTree α → List (ℕ × α)
  | leaf => []
  | node id left value right => left.nodes ++ (id, value) :: right.nodes

def ids (t : NodeTree α) : List ℕ := t.nodes.map Prod.fst

def values (t : NodeTree α) : List α := t.nodes.map Prod.snd

@[simp] theorem nodes_leaf : (leaf : NodeTree α).nodes = [] := rfl

@[simp] theorem nodes_node (id : ℕ) (left right : NodeTree α) (value : α) :
    (node id left value right).nodes = left.nodes ++ (id, value) :: right.nodes := rfl

@[simp] theorem ids_leaf : (leaf : NodeTree α).ids = [] := rfl

@[simp] theorem ids_node (id : ℕ) (left right : NodeTree α) (value : α) :
    (node id left value right).ids = left.ids ++ id :: right.ids := by
  simp [ids]

@[simp] theorem values_leaf : (leaf : NodeTree α).values = [] := rfl

@[simp] theorem values_node (id : ℕ) (left right : NodeTree α) (value : α) :
    (node id left value right).values = left.values ++ value :: right.values := by
  simp [values]

@[simp] theorem ptr_leaf : (leaf : NodeTree α).ptr = none := rfl

@[simp] theorem ptr_node (id : ℕ) (left right : NodeTree α) (value : α) :
    (node id left value right).ptr = some id := rfl

theorem ptr_eq_none {t : NodeTree α} : t.ptr = none ↔ t = leaf := by
  cases t with
  | leaf => simp
  | node id left value right => simp

theorem ptr_mem {t : NodeTree α} {id : ℕ} (h : t.ptr = some id) : id ∈ t.ids := by
  cases t with
  | leaf => simp at h
  | node id' left value right =>
      rw [ptr_node, Option.some.injEq] at h
      simp [h]

end NodeTree

/-! ## Contexts -/

/-- One step up from a subtree: the parent, with the other child. -/
inductive Frame (α : Type) where
  | left (id : ℕ) (value : α) (right : NodeTree α)
  | right (id : ℕ) (left : NodeTree α) (value : α)

namespace Frame

def id : Frame α → ℕ
  | .left n _ _ => n
  | .right n _ _ => n

def fill : Frame α → NodeTree α → NodeTree α
  | .left n v r, t => .node n t v r
  | .right n l v, t => .node n l v t

end Frame

def plug : List (Frame α) → NodeTree α → NodeTree α
  | [], t => t
  | frame :: c, t => plug c (frame.fill t)

/-- The nodes to the left of the hole of a context. -/
def before : List (Frame α) → List (ℕ × α)
  | [] => []
  | .left _ _ _ :: c => before c
  | .right id left value :: c => before c ++ (left.nodes ++ [(id, value)])

/-- The nodes to the right of the hole of a context. -/
def after : List (Frame α) → List (ℕ × α)
  | [] => []
  | .left id value right :: c => (id, value) :: right.nodes ++ after c
  | .right _ _ _ :: c => after c

theorem nodes_plug (c : List (Frame α)) (t : NodeTree α) :
    (plug c t).nodes = before c ++ t.nodes ++ after c := by
  induction c generalizing t with
  | nil => simp [plug, before, after]
  | cons frame c ih =>
      cases frame with
      | left id value right => simp [plug, Frame.fill, ih, before, after]
      | right id left value => simp [plug, Frame.fill, ih, before, after]

theorem plug_append (c d : List (Frame α)) (t : NodeTree α) :
    plug (c ++ d) t = plug d (plug c t) := by
  induction c generalizing t with
  | nil => rfl
  | cons frame c ih => exact ih _

def ctxIds (c : List (Frame α)) : List ℕ := (before c ++ after c).map Prod.fst

theorem ids_plug_perm (c : List (Frame α)) (t : NodeTree α) :
    (plug c t).ids.Perm (t.ids ++ ctxIds c) := by
  unfold NodeTree.ids ctxIds
  rw [nodes_plug, ← List.map_append]
  apply List.Perm.map
  rw [List.append_assoc, ← List.append_assoc t.nodes]
  exact (List.perm_append_comm_assoc _ _ _).trans (by simp)

theorem mem_ids_plug {c : List (Frame α)} {t : NodeTree α} {n : ℕ} :
    n ∈ (plug c t).ids ↔ n ∈ t.ids ∨ n ∈ ctxIds c := by
  rw [(ids_plug_perm c t).mem_iff, List.mem_append]

theorem nodup_plug {c : List (Frame α)} {t : NodeTree α} :
    (plug c t).ids.Nodup ↔
      t.ids.Nodup ∧ (ctxIds c).Nodup ∧ ∀ n ∈ t.ids, n ∉ ctxIds c := by
  rw [(ids_plug_perm c t).nodup_iff, List.nodup_append']
  rfl

theorem length_plug (c : List (Frame α)) (t : NodeTree α) :
    (plug c t).nodes.length = t.nodes.length + (before c ++ after c).length := by
  rw [nodes_plug]
  simp only [List.length_append]
  omega

/-- Every node of a tree is the root of a subtree in some context. -/
theorem exists_plug {t : NodeTree α} {n : ℕ} (h : n ∈ t.ids) :
    ∃ c left value right, t = plug c (.node n left value right) := by
  induction t with
  | leaf => simp at h
  | node id left value right ihl ihr =>
      rw [NodeTree.ids_node, List.mem_append, List.mem_cons] at h
      rcases h with h | h | h
      · obtain ⟨c, l, v, r, heq⟩ := ihl h
        refine ⟨c ++ [.left id value right], l, v, r, ?_⟩
        rw [plug_append, ← heq]
        rfl
      · subst h
        exact ⟨[], left, value, right, rfl⟩
      · obtain ⟨c, l, v, r, heq⟩ := ihr h
        refine ⟨c ++ [.right id left value], l, v, r, ?_⟩
        rw [plug_append, ← heq]
        rfl

/-! ## Descents -/

/-- Descend by the sign of `side`, positive to the right, until it is zero or
the tree ends. -/
def seek (side : α → ℤ) : List (Frame α) → NodeTree α → List (Frame α) × NodeTree α
  | c, .leaf => (c, .leaf)
  | c, .node id left value right =>
      if side value ≠ 0 then
        if side value > 0 then seek side (.right id left value :: c) right
        else seek side (.left id value right :: c) left
      else (c, .node id left value right)

theorem plug_seek (side : α → ℤ) (c : List (Frame α)) (t : NodeTree α) :
    plug (seek side c t).1 (seek side c t).2 = plug c t := by
  induction t generalizing c with
  | leaf => rfl
  | node id left value right ihl ihr =>
      rw [seek]
      split
      · split
        · rw [ihr]
          rfl
        · rw [ihl]
          rfl
      · rfl

/-- At every node that `seek side` passes, `actual` answers with the sign of
`side`. -/
def Agrees (side : α → ℤ) (actual : α → Option ℤ) : NodeTree α → Prop
  | .leaf => True
  | .node _ left value right =>
      (∃ ret, actual value = some ret ∧ ret.sign = (side value).sign) ∧
        (side value > 0 → Agrees side actual right) ∧
        (side value < 0 → Agrees side actual left)

theorem agrees_of_forall {side : α → ℤ} {actual : α → Option ℤ} (t : NodeTree α)
    (h : ∀ value ∈ t.values, ∃ ret, actual value = some ret ∧ ret.sign = (side value).sign) :
    Agrees side actual t := by
  induction t with
  | leaf => trivial
  | node id left value right ihl ihr =>
      simp only [NodeTree.values_node, List.mem_append, List.mem_cons] at h
      exact ⟨h value (Or.inr (Or.inl rfl)), fun _ => ihr (fun v hv => h v (Or.inr (Or.inr hv))),
        fun _ => ihl (fun v hv => h v (Or.inl hv))⟩

theorem agrees_some (side : α → ℤ) (t : NodeTree α) :
    Agrees side (fun value => some (side value)) t :=
  agrees_of_forall t (fun _ _ => ⟨_, rfl, rfl⟩)

/-- Descend to the left as far as possible. -/
def leftmost : List (Frame α) → NodeTree α → List (Frame α) × NodeTree α
  | c, .leaf => (c, .leaf)
  | c, .node id .leaf value right => (c, .node id .leaf value right)
  | c, .node id (.node i l v r) value right =>
      leftmost (.left id value right :: c) (.node i l v r)

theorem leftmost_spec (id : ℕ) (left : NodeTree α) (value : α) (right : NodeTree α) :
    ∃ d n v r, (∀ c, leftmost c (.node id left value right) = (d ++ c, .node n .leaf v r)) ∧
      plug d (.node n .leaf v r) = .node id left value right ∧ before d = [] := by
  induction left generalizing id value right with
  | leaf => exact ⟨[], id, value, right, fun _ => rfl, rfl, rfl⟩
  | node i l x y ihl _ =>
      obtain ⟨d, n, v, r, hmost, hplug, hbefore⟩ := ihl i x y
      refine ⟨d ++ [.left id value right], n, v, r, ?_, ?_, ?_⟩
      · intro c
        rw [leftmost, hmost, List.append_assoc]
        rfl
      · rw [plug_append, hplug]
        rfl
      · clear hmost hplug
        induction d with
        | nil => rfl
        | cons frame d ih =>
            cases frame with
            | left _ _ _ => exact ih hbefore
            | right _ _ _ => simp [before] at hbefore

/-! ## Removal of a root -/

/-- A tree without its root.  With two children the root takes the value of
its successor, whose node goes instead. -/
def removeRoot : NodeTree α → NodeTree α
  | .leaf => .leaf
  | .node _ .leaf _ right => right
  | .node _ left _ .leaf => left
  | .node id left _ right =>
      match leftmost [] right with
      | (d, .node _ _ v r) => .node id left v (plug d r)
      | (_, .leaf) => left

theorem removeRoot_of_leaf {left right : NodeTree α} (id : ℕ) (value : α)
    (h : left = .leaf ∨ right = .leaf) :
    (left = .leaf ∧ removeRoot (.node id left value right) = right) ∨
      (left ≠ .leaf ∧ removeRoot (.node id left value right) = left) := by
  cases left with
  | leaf => exact Or.inl ⟨rfl, by cases right <;> rfl⟩
  | node i l v r =>
      right
      rcases h with h | h
      · cases h
      · subst h
        exact ⟨by simp, rfl⟩

/-- How a root with two children is removed: its successor is spliced out. -/
theorem removeRoot_of_two {left right : NodeTree α} (id : ℕ) (value : α)
    (hleft : left ≠ .leaf) (hright : right ≠ .leaf) :
    ∃ d n v r, right = plug d (.node n .leaf v r) ∧ before d = [] ∧
      (∀ c, leftmost c right = (d ++ c, .node n .leaf v r)) ∧
      removeRoot (.node id left value right) = .node id left v (plug d r) := by
  cases right with
  | leaf => exact absurd rfl hright
  | node i l x y =>
      obtain ⟨d, n, v, r, hmost, hplug, hbefore⟩ := leftmost_spec i l x y
      refine ⟨d, n, v, r, hplug.symm, hbefore, hmost, ?_⟩
      cases left with
      | leaf => exact absurd rfl hleft
      | node i' l' x' y' => simp only [removeRoot, hmost, List.append_nil]

theorem values_removeRoot (id : ℕ) (left right : NodeTree α) (value : α) :
    (removeRoot (.node id left value right)).values = left.values ++ right.values := by
  by_cases h : left = .leaf ∨ right = .leaf
  · rcases removeRoot_of_leaf id value h with ⟨hleft, heq⟩ | ⟨hleft, heq⟩
    · rw [heq, hleft]
      rfl
    · rw [heq, h.resolve_left hleft]
      simp
  · push Not at h
    obtain ⟨d, n, v, r, hplug, hbefore, _, heq⟩ := removeRoot_of_two id value h.1 h.2
    rw [heq, hplug]
    simp [NodeTree.values, nodes_plug, hbefore]

theorem left_ids_removeRoot (id : ℕ) (left right : NodeTree α) (value : α) :
    left.ids.Sublist (removeRoot (.node id left value right)).ids := by
  by_cases h : left = .leaf ∨ right = .leaf
  · rcases removeRoot_of_leaf id value h with ⟨hleft, heq⟩ | ⟨_, heq⟩
    · rw [hleft]
      exact List.nil_sublist _
    · rw [heq]
  · push Not at h
    obtain ⟨d, n, v, r, _, _, _, heq⟩ := removeRoot_of_two id value h.1 h.2
    rw [heq, NodeTree.ids_node]
    exact List.sublist_append_left _ _

/-! ## Search order -/

/-- The sign of `comp` is that of a total preorder. -/
structure TotalPreorder (comp : α → α → ℤ) : Prop where
  refl : ∀ a, comp a a = 0
  swap : ∀ a b, 0 < comp a b ↔ comp b a < 0
  trans : ∀ a b c, comp a b ≤ 0 → comp b c ≤ 0 → comp a c ≤ 0

theorem TotalPreorder.lt_of_lt_of_le {comp : α → α → ℤ} (h : TotalPreorder comp)
    {a b c : α} (hab : comp a b < 0) (hbc : comp b c ≤ 0) : comp a c < 0 := by
  have hac := h.trans a b c hab.le hbc
  by_contra hcon
  have hca : comp c a ≤ 0 := by
    have hswap := (h.swap c a).mp
    omega
  have hba := h.trans b c a hbc hca
  have hswap := (h.swap b a).mpr hab
  omega

theorem TotalPreorder.lt_of_le_of_lt {comp : α → α → ℤ} (h : TotalPreorder comp)
    {a b c : α} (hab : comp a b ≤ 0) (hbc : comp b c < 0) : comp a c < 0 := by
  have hac := h.trans a b c hab hbc.le
  by_contra hcon
  have hca : comp c a ≤ 0 := by
    have hswap := (h.swap c a).mp
    omega
  have hcb := h.trans c a b hca hab
  have hswap := (h.swap c b).mpr hbc
  omega

theorem TotalPreorder.comap {β : Type} {comp : α → α → ℤ} (h : TotalPreorder comp)
    (f : β → α) : TotalPreorder (fun a b => comp (f a) (f b)) :=
  ⟨fun a => h.refl (f a), fun a b => h.swap (f a) (f b),
    fun a b c => h.trans (f a) (f b) (f c)⟩

/-- The values of a tree increase from left to right. -/
def Sorted (comp : α → α → ℤ) (t : NodeTree α) : Prop :=
  t.values.Pairwise (fun a b => comp a b < 0)

theorem Sorted.nodup {comp : α → α → ℤ} (hcomp : TotalPreorder comp) {t : NodeTree α}
    (h : Sorted comp t) : t.values.Nodup := by
  refine List.Pairwise.imp ?_ h
  intro a b hab heq
  rw [heq, hcomp.refl] at hab
  exact absurd hab (lt_irrefl 0)

/-- The place of `x` in the order is the hole of the context. -/
structure Located (comp : α → α → ℤ) (x : α) (c : List (Frame α)) : Prop where
  before : ∀ p ∈ before c, 0 < comp x p.2
  after : ∀ p ∈ after c, comp x p.2 < 0

theorem sorted_plug {comp : α → α → ℤ} {c : List (Frame α)} {t : NodeTree α} :
    Sorted comp (plug c t) ↔
      ((before c).map Prod.snd ++ t.values ++ (after c).map Prod.snd).Pairwise
        (fun a b => comp a b < 0) := by
  rw [Sorted, NodeTree.values, nodes_plug, List.map_append, List.map_append]
  rfl

theorem seek_located {comp : α → α → ℤ} (hcomp : TotalPreorder comp) {x : α}
    (c : List (Frame α)) (t : NodeTree α) (hsorted : Sorted comp (plug c t))
    (hlocated : Located comp x c) :
    Located comp x (seek (comp x) c t).1 ∧
      ((seek (comp x) c t).2 = .leaf ∨
        ∃ n l v r, (seek (comp x) c t).2 = .node n l v r ∧ comp x v = 0) := by
  induction t generalizing c with
  | leaf => exact ⟨hlocated, Or.inl rfl⟩
  | node id left value right ihl ihr =>
      have hpair := sorted_plug.mp hsorted
      rw [NodeTree.values_node] at hpair
      simp only [List.pairwise_append, List.pairwise_cons, List.mem_append, List.mem_cons]
        at hpair
      obtain ⟨⟨_, ⟨_, ⟨hright, _⟩, hleft⟩, _⟩, _⟩ := hpair
      rw [seek]
      split
      next hne =>
        split
        next hpos =>
          apply ihr (.right id left value :: c) hsorted
          refine ⟨?_, hlocated.after⟩
          intro p hp
          have hneg := (hcomp.swap x value).mp hpos
          rw [before, List.mem_append, List.mem_append, List.mem_singleton] at hp
          rcases hp with hp | hp | hp
          · exact hlocated.before p hp
          · have hval := hleft p.2 (List.mem_map_of_mem hp) value (Or.inl rfl)
            exact (hcomp.swap _ _).mpr (hcomp.lt_of_lt_of_le hval hneg.le)
          · rw [hp]
            exact hpos
        next hpos =>
          have hneg : comp x value < 0 := by omega
          apply ihl (.left id value right :: c) hsorted
          refine ⟨hlocated.before, ?_⟩
          intro p hp
          rw [after, List.mem_append, List.mem_cons] at hp
          rcases hp with (hp | hp) | hp
          · rw [hp]
            exact hneg
          · have hval := hright p.2 (List.mem_map_of_mem hp)
            exact hcomp.lt_of_lt_of_le hneg hval.le
          · exact hlocated.after p hp
      next hzero => exact ⟨hlocated, Or.inr ⟨_, _, _, _, rfl, by omega⟩⟩

theorem sorted_insert {comp : α → α → ℤ} (hcomp : TotalPreorder comp) {x : α}
    {c : List (Frame α)} (hsorted : Sorted comp (plug c .leaf))
    (hlocated : Located comp x c) (n : ℕ) :
    Sorted comp (plug c (.node n .leaf x .leaf)) := by
  rw [sorted_plug] at hsorted ⊢
  simp only [NodeTree.values_leaf, NodeTree.values_node, List.append_nil, List.nil_append,
    List.append_assoc, List.singleton_append] at hsorted ⊢
  rw [List.pairwise_append] at hsorted ⊢
  obtain ⟨hbefore, hafter, hcross⟩ := hsorted
  refine ⟨hbefore, List.pairwise_cons.mpr ⟨?_, hafter⟩, ?_⟩
  · intro y hy
    obtain ⟨p, hp, rfl⟩ := List.mem_map.mp hy
    exact hlocated.after p hp
  · intro y hy z hz
    obtain ⟨p, hp, rfl⟩ := List.mem_map.mp hy
    rcases List.mem_cons.mp hz with hz | hz
    · rw [hz]
      exact (hcomp.swap _ _).mp (hlocated.before p hp)
    · exact hcross _ hy z hz

theorem sorted_removeRoot {comp : α → α → ℤ} {c : List (Frame α)} {id : ℕ}
    {left right : NodeTree α} {value : α}
    (hsorted : Sorted comp (plug c (.node id left value right))) :
    Sorted comp (plug c (removeRoot (.node id left value right))) := by
  rw [sorted_plug] at hsorted ⊢
  rw [values_removeRoot]
  rw [NodeTree.values_node] at hsorted
  refine List.Pairwise.sublist ?_ hsorted
  apply List.Sublist.append_right
  apply List.Sublist.append_left
  exact List.Sublist.append_left (List.sublist_cons_self _ _) _

end SearchTree
