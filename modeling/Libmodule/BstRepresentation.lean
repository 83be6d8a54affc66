import Libmodule.Bst
import Libmodule.SearchTree

/-!
# The heap of a tree

A heap represents a tree when its live nodes are the nodes of the tree and
their pointers are those of the tree, the parent pointers included.  Each
operation on the heap is described here by what it does to the tree.
-/

namespace Libmodule
namespace Bst

open SearchTree

variable {V : Type}

/-- The node above the hole of a context. -/
def ctxParent : List (Frame V) → Option ℕ
  | [] => none
  | frame :: _ => some frame.id

/-- The slot through which the hole of a context is seen. -/
def slotOf : List (Frame V) → NodeSlot
  | [] => .root
  | .left n _ _ :: _ => .left n
  | .right n _ _ :: _ => .right n

def Holds (h : ℕ → Option (BstNode V)) (parent : Option ℕ) : NodeTree V → Prop
  | .leaf => True
  | .node n left value right =>
      h n = some ⟨value, parent, right.ptr, left.ptr⟩ ∧
        Holds h (some n) left ∧ Holds h (some n) right

def HoldsAround (h : ℕ → Option (BstNode V)) : List (Frame V) → Option ℕ → Prop
  | [], _ => True
  | .left n value right :: c, hole =>
      h n = some ⟨value, ctxParent c, right.ptr, hole⟩ ∧
        Holds h (some n) right ∧ HoldsAround h c (some n)
  | .right n left value :: c, hole =>
      h n = some ⟨value, ctxParent c, hole, left.ptr⟩ ∧
        Holds h (some n) left ∧ HoldsAround h c (some n)

structure Represents (l : Bst V) (t : NodeTree V) : Prop where
  root : l.root = t.ptr
  holds : Holds l.heap none t
  nodup : t.ids.Nodup
  live : ∀ n, l.heap n ≠ none ↔ n ∈ t.ids
  len : l.len = t.nodes.length

theorem holds_plug {h : ℕ → Option (BstNode V)} {c : List (Frame V)} {t : NodeTree V} :
    Holds h none (plug c t) ↔ HoldsAround h c t.ptr ∧ Holds h (ctxParent c) t := by
  induction c generalizing t with
  | nil => simp [plug, HoldsAround, ctxParent]
  | cons frame c ih =>
      cases frame with
      | left n value right =>
          simp only [plug, ih, Frame.fill, NodeTree.ptr_node, Holds, HoldsAround, ctxParent,
            Frame.id]
          tauto
      | right n left value =>
          simp only [plug, ih, Frame.fill, NodeTree.ptr_node, Holds, HoldsAround, ctxParent,
            Frame.id]
          tauto

theorem Holds.congr {h h' : ℕ → Option (BstNode V)} {parent : Option ℕ} {t : NodeTree V}
    (hholds : Holds h parent t) (hsame : ∀ n ∈ t.ids, h' n = h n) :
    Holds h' parent t := by
  induction t generalizing parent with
  | leaf => trivial
  | node n left value right ihl ihr =>
      obtain ⟨hnode, hleft, hright⟩ := hholds
      simp only [NodeTree.ids_node, List.mem_append, List.mem_cons] at hsame
      refine ⟨?_, ihl hleft (fun m hm => hsame m (Or.inl hm)),
        ihr hright (fun m hm => hsame m (Or.inr (Or.inr hm)))⟩
      rw [hsame n (Or.inr (Or.inl rfl)), hnode]

theorem Holds.update {h : ℕ → Option (BstNode V)} {parent : Option ℕ} {t : NodeTree V}
    (hholds : Holds h parent t) {n : ℕ} (hn : n ∉ t.ids) (x : Option (BstNode V)) :
    Holds (Function.update h n x) parent t := by
  apply hholds.congr
  intro m hm
  exact Function.update_of_ne (by rintro rfl; exact hn hm) _ _

theorem mem_ctxIds_left {n m : ℕ} {value : V} {right : NodeTree V} {c : List (Frame V)} :
    m ∈ ctxIds (.left n value right :: c) ↔ m = n ∨ m ∈ right.ids ∨ m ∈ ctxIds c := by
  simp only [ctxIds, before, after, NodeTree.ids, List.map_append, List.map_cons, List.mem_append,
    List.mem_cons]
  tauto

theorem mem_ctxIds_right {n m : ℕ} {value : V} {left : NodeTree V} {c : List (Frame V)} :
    m ∈ ctxIds (.right n left value :: c) ↔ m = n ∨ m ∈ left.ids ∨ m ∈ ctxIds c := by
  simp only [ctxIds, before, after, NodeTree.ids, List.map_append, List.map_cons, List.map_nil,
    List.mem_append, List.mem_singleton]
  tauto

theorem HoldsAround.congr {h h' : ℕ → Option (BstNode V)} {c : List (Frame V)}
    {hole : Option ℕ} (hholds : HoldsAround h c hole) (hsame : ∀ n ∈ ctxIds c, h' n = h n) :
    HoldsAround h' c hole := by
  induction c generalizing hole with
  | nil => trivial
  | cons frame c ih =>
      cases frame with
      | left n value right =>
          obtain ⟨hnode, hright, hup⟩ := hholds
          simp only [mem_ctxIds_left] at hsame
          refine ⟨?_, hright.congr (fun m hm => hsame m (Or.inr (Or.inl hm))),
            ih hup (fun m hm => hsame m (Or.inr (Or.inr hm)))⟩
          rw [hsame n (Or.inl rfl), hnode]
      | right n left value =>
          obtain ⟨hnode, hleft, hup⟩ := hholds
          simp only [mem_ctxIds_right] at hsame
          refine ⟨?_, hleft.congr (fun m hm => hsame m (Or.inr (Or.inl hm))),
            ih hup (fun m hm => hsame m (Or.inr (Or.inr hm)))⟩
          rw [hsame n (Or.inl rfl), hnode]

theorem HoldsAround.update {h : ℕ → Option (BstNode V)} {c : List (Frame V)}
    {hole : Option ℕ} (hholds : HoldsAround h c hole) {n : ℕ} (hn : n ∉ ctxIds c)
    (x : Option (BstNode V)) : HoldsAround (Function.update h n x) c hole := by
  apply hholds.congr
  intro m hm
  exact Function.update_of_ne (by rintro rfl; exact hn hm) _ _

theorem nodup_ctx_left {n : ℕ} {value : V} {right : NodeTree V} {c : List (Frame V)}
    (h : (ctxIds (.left n value right :: c)).Nodup) :
    n ∉ right.ids ∧ n ∉ ctxIds c ∧ (ctxIds c).Nodup := by
  have hperm : (ctxIds (.left n value right :: c)).Perm (n :: (right.ids ++ ctxIds c)) := by
    simp only [ctxIds, before, after, NodeTree.ids, List.map_append, List.map_cons,
      List.cons_append]
    refine List.perm_middle.trans (List.Perm.cons _ ?_)
    exact List.perm_append_comm_assoc _ _ _
  rw [hperm.nodup_iff, List.nodup_cons, List.mem_append, not_or] at h
  exact ⟨h.1.1, h.1.2, (List.nodup_append'.mp h.2).2.1⟩

theorem nodup_ctx_right {n : ℕ} {value : V} {left : NodeTree V} {c : List (Frame V)}
    (h : (ctxIds (.right n left value :: c)).Nodup) :
    n ∉ left.ids ∧ n ∉ ctxIds c ∧ (ctxIds c).Nodup := by
  have hperm : (ctxIds (.right n left value :: c)).Perm (n :: (left.ids ++ ctxIds c)) := by
    simp only [ctxIds, before, after, NodeTree.ids, List.map_append, List.map_cons,
      List.append_assoc, List.singleton_append]
    refine (List.perm_append_comm_assoc _ _ _).trans ?_
    refine (List.Perm.append_left _ List.perm_middle).trans ?_
    exact List.perm_middle
  rw [hperm.nodup_iff, List.nodup_cons, List.mem_append, not_or] at h
  exact ⟨h.1.1, h.1.2, (List.nodup_append'.mp h.2).2.1⟩

theorem ptr_plug_cons (frame : Frame V) (c : List (Frame V)) (t t' : NodeTree V) :
    (plug (frame :: c) t).ptr = (plug (frame :: c) t').ptr := by
  induction c generalizing frame t t' with
  | nil => cases frame <;> rfl
  | cons up c ih => exact ih up (frame.fill t) (frame.fill t')

/-! ## Reading and writing through slots -/

section Slots

variable {l : Bst V} {c : List (Frame V)} {t : NodeTree V} {n : ℕ}

theorem Represents.around (h : Represents l (plug c t)) : HoldsAround l.heap c t.ptr :=
  (holds_plug.mp h.holds).1

theorem Represents.under (h : Represents l (plug c t)) : Holds l.heap (ctxParent c) t :=
  (holds_plug.mp h.holds).2

theorem Represents.read_slotOf (h : Represents l (plug c t)) :
    l.read (slotOf c) = some t.ptr := by
  have haround := h.around
  cases c with
  | nil => exact congrArg some h.root
  | cons frame c =>
      cases frame with
      | left n value right => simp [slotOf, read, haround.1]
      | right n left value => simp [slotOf, read, haround.1]

/-- Writing through the slot of a hole changes the hole and nothing else. -/
theorem write_slotOf {hole : Option ℕ} (haround : HoldsAround l.heap c hole)
    (hnodup : (ctxIds c).Nodup) (q : Option ℕ) :
    ∃ r h', l.write (slotOf c) q = some { l with root := r, heap := h' } ∧
      HoldsAround h' c q ∧ (∀ m, m ∉ ctxIds c → h' m = l.heap m) ∧
      (∀ m, h' m ≠ none ↔ l.heap m ≠ none) ∧ (c = [] → r = q) ∧ (c ≠ [] → r = l.root) := by
  cases c with
  | nil => exact ⟨q, l.heap, rfl, trivial, fun _ _ => rfl, fun _ => Iff.rfl, fun _ => rfl,
      fun h => absurd rfl h⟩
  | cons frame c =>
      have hlive : ∀ (n : ℕ) (x y : BstNode V), l.heap n = some x →
          ∀ m, Function.update l.heap n (some y) m ≠ none ↔ l.heap m ≠ none := by
        intro n x y hx m
        by_cases hm : m = n
        · subst hm
          simp [hx]
        · rw [Function.update_of_ne hm]
      cases frame with
      | left n value right =>
          obtain ⟨hnode, hright, hup⟩ := haround
          obtain ⟨hnr, hnc, _⟩ := nodup_ctx_left hnodup
          refine ⟨l.root, Function.update l.heap n (some ⟨value, ctxParent c, right.ptr, q⟩),
            ?_, ⟨?_, ?_, ?_⟩, ?_, hlive n _ _ hnode, by simp, fun _ => rfl⟩
          · simp [slotOf, write, setNode, hnode]
          · exact Function.update_self _ _ _
          · exact hright.update hnr _
          · exact hup.update hnc _
          · intro m hm
            rw [mem_ctxIds_left, not_or] at hm
            exact Function.update_of_ne hm.1 _ _
      | right n left value =>
          obtain ⟨hnode, hleft, hup⟩ := haround
          obtain ⟨hnl, hnc, _⟩ := nodup_ctx_right hnodup
          refine ⟨l.root, Function.update l.heap n (some ⟨value, ctxParent c, q, left.ptr⟩),
            ?_, ⟨?_, ?_, ?_⟩, ?_, hlive n _ _ hnode, by simp, fun _ => rfl⟩
          · simp [slotOf, write, setNode, hnode]
          · exact Function.update_self _ _ _
          · exact hleft.update hnl _
          · exact hup.update hnc _
          · intro m hm
            rw [mem_ctxIds_right, not_or] at hm
            exact Function.update_of_ne hm.1 _ _

theorem read_of_write {l l' : Bst V} {slot other : NodeSlot} {q : Option ℕ}
    (hwrite : l.write slot q = some l') (hne : other ≠ slot) :
    l'.read other = l.read other := by
  have hset : ∀ {n : ℕ} {f : BstNode V → BstNode V}, l.setNode n f = some l' →
      ∃ node, l.heap n = some node ∧ l'.root = l.root ∧
        l'.heap = Function.update l.heap n (some (f node)) := by
    intro n f hf
    obtain ⟨node, hnode, rfl⟩ := Option.map_eq_some_iff.mp hf
    exact ⟨node, hnode, rfl, rfl⟩
  cases slot with
  | root =>
      rw [write, Option.some.injEq] at hwrite
      subst hwrite
      cases other with
      | root => exact absurd rfl hne
      | _ => rfl
  | prev value => simp [write] at hwrite
  | left n =>
      obtain ⟨node, hnode, hroot, hheap⟩ := hset hwrite
      cases other with
      | root => simp [read, hroot]
      | prev value => rfl
      | left m =>
          have hm : m ≠ n := fun heq => hne (by rw [heq])
          simp [read, hheap, Function.update_of_ne hm]
      | right m => by_cases hm : m = n <;> simp [read, hheap, hm, hnode]
      | parent m => by_cases hm : m = n <;> simp [read, hheap, hm, hnode]
  | right n =>
      obtain ⟨node, hnode, hroot, hheap⟩ := hset hwrite
      cases other with
      | root => simp [read, hroot]
      | prev value => rfl
      | right m =>
          have hm : m ≠ n := fun heq => hne (by rw [heq])
          simp [read, hheap, Function.update_of_ne hm]
      | left m => by_cases hm : m = n <;> simp [read, hheap, hm, hnode]
      | parent m => by_cases hm : m = n <;> simp [read, hheap, hm, hnode]
  | parent n =>
      obtain ⟨node, hnode, hroot, hheap⟩ := hset hwrite
      cases other with
      | root => simp [read, hroot]
      | prev value => rfl
      | parent m =>
          have hm : m ≠ n := fun heq => hne (by rw [heq])
          simp [read, hheap, Function.update_of_ne hm]
      | left m => by_cases hm : m = n <;> simp [read, hheap, hm, hnode]
      | right m => by_cases hm : m = n <;> simp [read, hheap, hm, hnode]

theorem ptr_of_write {r q : Option ℕ} {t' : NodeTree V} (hroot : l.root = (plug c t).ptr)
    (hq : q = t'.ptr) (hnil : c = [] → r = q) (hcons : c ≠ [] → r = l.root) :
    r = (plug c t').ptr := by
  cases c with
  | nil => rw [hnil rfl, hq]; rfl
  | cons frame c => rw [hcons (by simp), hroot, ptr_plug_cons frame c t t']

end Slots

/-! ## Removal -/

section Remove

variable {l : Bst V} {c : List (Frame V)}

/-- A subtree hangs from another parent once its root says so. -/
theorem setParent_spec {t : NodeTree V} {p : Option ℕ} (hholds : Holds l.heap p t)
    (hnodup : t.ids.Nodup) (q : Option ℕ) :
    ∃ h', l.setParent t.ptr q = some { l with heap := h' } ∧
      Holds h' q t ∧ (∀ m, m ∉ t.ids → h' m = l.heap m) ∧
      (∀ m, h' m ≠ none ↔ l.heap m ≠ none) := by
  cases t with
  | leaf => exact ⟨l.heap, rfl, trivial, fun _ _ => rfl, fun _ => Iff.rfl⟩
  | node n left value right =>
      obtain ⟨hnode, hleft, hright⟩ := hholds
      rw [NodeTree.ids_node, List.nodup_middle, List.nodup_cons, List.mem_append, not_or]
        at hnodup
      refine ⟨Function.update l.heap n (some ⟨value, q, right.ptr, left.ptr⟩), ?_,
        ⟨?_, ?_, ?_⟩, ?_, ?_⟩
      · simp [setParent, setNode, hnode]
      · exact Function.update_self _ _ _
      · exact hleft.update hnodup.1.1 _
      · exact hright.update hnodup.1.2 _
      · intro m hm
        rw [NodeTree.ids_node, List.mem_append, List.mem_cons, not_or, not_or] at hm
        exact Function.update_of_ne hm.2.1 _ _
      · intro m
        by_cases hm : m = n
        · subst hm
          simp [hnode]
        · rw [Function.update_of_ne hm]

/-- The call of the destructor when a node is unlinked. -/
def afterDtor (l : Bst V) (value : V) : List V :=
  if l.dtor then l.destroyed ++ [value] else l.destroyed

theorem unlinkNode_spec {n : ℕ} {left right : NodeTree V} {value : V}
    (h : Represents l (plug c (.node n left value right)))
    (hone : left = .leaf ∨ right = .leaf) :
    ∃ l', l.unlinkNode (slotOf c) n ⟨value, ctxParent c, right.ptr, left.ptr⟩ = some (0, l') ∧
      Represents l' (plug c (removeRoot (.node n left value right))) ∧
      l'.comp = l.comp ∧ l'.dtor = l.dtor ∧ l'.destroyed = l.afterDtor value := by
  obtain ⟨t, ht, hchild, hids⟩ : ∃ t : NodeTree V, removeRoot (.node n left value right) = t ∧
      (if left.ptr.isSome then left.ptr else right.ptr) = t.ptr ∧
      left.ids ++ right.ids = t.ids := by
    rcases removeRoot_of_leaf n value hone with ⟨rfl, heq⟩ | ⟨hleft, heq⟩
    · exact ⟨right, heq, rfl, rfl⟩
    · refine ⟨left, heq, ?_, by simp [hone.resolve_left hleft]⟩
      cases left with
      | leaf => exact absurd rfl hleft
      | node i x v y => rfl
  have hnodup := nodup_plug.mp h.nodup
  rw [NodeTree.ids_node, List.nodup_middle, hids, List.nodup_cons] at hnodup
  obtain ⟨⟨hnt, htnodup⟩, hcnodup, hdisj⟩ := hnodup
  have hmem : ∀ m, m ∈ left.ids ++ n :: right.ids ↔ m = n ∨ m ∈ t.ids := by
    intro m
    rw [← hids]
    simp only [List.mem_append, List.mem_cons]
    tauto
  have hunder : Holds l.heap (some n) t := by
    obtain ⟨_, hl, hr⟩ := h.under
    rcases removeRoot_of_leaf n value hone with ⟨_, heq⟩ | ⟨_, heq⟩
    · rw [← ht, heq]
      exact hr
    · rw [← ht, heq]
      exact hl
  obtain ⟨r, h₁, hwrite, haround₁, hsame₁, hlive₁, hnil, hcons⟩ :=
    write_slotOf h.around hcnodup t.ptr
  have hunder₁ : Holds h₁ (some n) t := by
    apply hunder.congr
    intro m hm
    exact hsame₁ m (hdisj m ((hmem m).mpr (Or.inr hm)))
  obtain ⟨h₂, hset, hunder₂, hsame₂, hlive₂⟩ := setParent_spec
    (l := { l with root := r, heap := h₁ }) hunder₁ htnodup (ctxParent c)
  have haround₂ : HoldsAround h₂ c t.ptr := by
    apply haround₁.congr
    intro m hm
    exact hsame₂ m (fun hmt => hdisj m ((hmem m).mpr (Or.inr hmt)) hm)
  refine ⟨{ l with
    root := r
    heap := Function.update h₂ n none
    len := l.len - 1
    destroyed := l.afterDtor value }, ?_, ?_, rfl, rfl, rfl⟩
  · simp only [unlinkNode, hchild, hwrite, Option.bind_eq_bind, Option.bind_some, hset]
    rfl
  · rw [ht]
    have hnc : n ∉ ctxIds c := hdisj n ((hmem n).mpr (Or.inl rfl))
    refine ⟨ptr_of_write h.root rfl hnil hcons, ?_, ?_, ?_, ?_⟩
    · exact holds_plug.mpr ⟨haround₂.update hnc _, hunder₂.update hnt _⟩
    · exact nodup_plug.mpr ⟨htnodup, hcnodup,
        fun m hm => hdisj m ((hmem m).mpr (Or.inr hm))⟩
    · intro m
      by_cases hm : m = n
      · subst hm
        simp [mem_ids_plug, hnt, hnc]
      · have hlive := h.live m
        rw [mem_ids_plug, NodeTree.ids_node, hmem] at hlive
        simp only [Function.update_of_ne hm, hlive₂, hlive₁, hlive, mem_ids_plug]
        tauto
    · have hlen := h.len
      have hcard := congrArg List.length hids
      simp only [NodeTree.ids, List.length_append, List.length_map] at hcard
      rw [length_plug] at hlen ⊢
      simp only [NodeTree.nodes_node, List.length_append, List.length_cons] at hlen ⊢
      omega

theorem Represents.node_eq {n : ℕ} {left right : NodeTree V} {value : V}
    (h : Represents l (plug c (.node n left value right))) :
    l.heap n = some ⟨value, ctxParent c, right.ptr, left.ptr⟩ :=
  h.under.1

/-- Overwriting the user pointer of a node. -/
theorem setUserptr_spec {n : ℕ} {left right : NodeTree V} {value : V}
    (h : Represents l (plug c (.node n left value right))) (w : V) :
    ∃ h', l.setNode n (fun node => { node with userptr := w }) = some { l with heap := h' } ∧
      Represents { l with heap := h' } (plug c (.node n left w right)) := by
  have hnode := h.node_eq
  have hnodup := nodup_plug.mp h.nodup
  rw [NodeTree.ids_node, List.nodup_middle, List.nodup_cons, List.mem_append, not_or]
    at hnodup
  obtain ⟨⟨⟨hnl, hnr⟩, _⟩, _, hdisj⟩ := hnodup
  have hnc : n ∉ ctxIds c := hdisj n (by simp)
  have hids : (plug c (.node n left w right)).ids =
      (plug c (.node n left value right)).ids := by
    simp [NodeTree.ids, nodes_plug]
  refine ⟨Function.update l.heap n (some ⟨w, ctxParent c, right.ptr, left.ptr⟩), ?_,
    ⟨?_, ?_, ?_, ?_, ?_⟩⟩
  · simp [setNode, hnode]
  · exact ptr_of_write h.root rfl (fun hc => by rw [h.root, hc]; rfl) (fun _ => rfl)
  · obtain ⟨_, hleft, hright⟩ := h.under
    refine holds_plug.mpr ⟨h.around.update hnc _, ?_, hleft.update hnl _,
      hright.update hnr _⟩
    exact Function.update_self _ _ _
  · rw [hids]
    exact h.nodup
  · intro m
    rw [hids, ← h.live]
    by_cases hm : m = n
    · subst hm
      simp [hnode]
    · simp only [Function.update_of_ne hm]
  · have hlen := h.len
    rw [length_plug] at hlen ⊢
    simpa using hlen

theorem minFrom_spec (rounds : ℕ) {t : NodeTree V} (h : Represents l (plug c t))
    (hne : t ≠ .leaf) (hrounds : t.nodes.length ≤ rounds) :
    l.minFrom rounds (slotOf c) = some (slotOf (leftmost c t).1) := by
  induction rounds generalizing c t with
  | zero =>
      cases t with
      | leaf => exact absurd rfl hne
      | node n left value right => simp at hrounds
  | succ rounds ih =>
      cases t with
      | leaf => exact absurd rfl hne
      | node n left value right =>
          have hread := h.read_slotOf
          have hnode := h.node_eq
          rw [minFrom]
          simp only [hread, NodeTree.ptr_node, hnode, Option.bind_eq_bind, Option.bind_some]
          cases left with
          | leaf => rfl
          | node i x v y =>
              have hinner := ih (c := .left n value right :: c) h (by simp) (by
                simp only [NodeTree.nodes_node, List.length_append, List.length_cons] at hrounds ⊢
                omega)
              rw [leftmost]
              exact hinner

theorem findMinSubtree_spec {t : NodeTree V} (h : Represents l (plug c t))
    (hne : t ≠ .leaf) :
    l.findMinSubtree (slotOf c) = some (slotOf (leftmost c t).1) := by
  apply minFrom_spec l.len h hne
  rw [h.len, length_plug]
  omega

theorem one_child_iff {left right : NodeTree V} :
    (left.ptr.isNone || right.ptr.isNone) = true ↔ left = .leaf ∨ right = .leaf := by
  rw [Bool.or_eq_true, Option.isNone_iff_eq_none, Option.isNone_iff_eq_none,
    NodeTree.ptr_eq_none, NodeTree.ptr_eq_none]

theorem removeFrom_of_one {n : ℕ} {left right : NodeTree V} {value : V}
    (h : Represents l (plug c (.node n left value right)))
    (hone : left = .leaf ∨ right = .leaf) {rounds : ℕ} (hrounds : 0 < rounds) :
    l.removeFrom rounds (slotOf c) =
      l.unlinkNode (slotOf c) n ⟨value, ctxParent c, right.ptr, left.ptr⟩ := by
  have hread := h.read_slotOf
  rw [NodeTree.ptr_node] at hread
  cases rounds with
  | zero => omega
  | succ rounds =>
      rw [removeFrom]
      simp only [hread, h.node_eq, Option.bind_eq_bind, Option.bind_some,
        one_child_iff.mpr hone, if_true]

/-- Removal at a slot removes the root of the subtree there.  The destructor
gets the removed pointer when the root has at most one child, and the pointer
of its successor when it has two. -/
theorem removeNode_spec {n : ℕ} {left right : NodeTree V} {value : V}
    (h : Represents l (plug c (.node n left value right))) :
    ∃ l' w, l.removeNode (slotOf c) = some (0, l') ∧
      Represents l' (plug c (removeRoot (.node n left value right))) ∧
      l'.comp = l.comp ∧ l'.dtor = l.dtor ∧ l'.destroyed = l.afterDtor w ∧
      (left = .leaf ∨ right = .leaf → w = value) ∧
      (left ≠ .leaf → right ≠ .leaf → right.values.head? = some w) := by
  have hread := h.read_slotOf
  have hnode := h.node_eq
  rw [NodeTree.ptr_node] at hread
  by_cases hone : left = .leaf ∨ right = .leaf
  · obtain ⟨l', hunlink, hrep, hcomp, hdtor, hlog⟩ := unlinkNode_spec h hone
    refine ⟨l', value, ?_, hrep, hcomp, hdtor, hlog, fun _ => rfl, ?_⟩
    · rw [removeNode, removeFrom_of_one h hone (by omega)]
      exact hunlink
    · intro hl hr
      exact absurd hone (by simp [hl, hr])
  · obtain ⟨hleft, hright⟩ := not_or.mp hone
    obtain ⟨d, s, w, r, hplug, hbefore, hmost, hremove⟩ := removeRoot_of_two n value hleft hright
    have hmin := findMinSubtree_spec (c := .right n left value :: c) (t := right) h hright
    rw [hmost] at hmin
    change l.findMinSubtree (.right n) = _ at hmin
    -- the tree as seen from the successor, before and after the pointer is copied
    have hfocus : ∀ x, plug c (.node n left x right) =
        plug (d ++ .right n left x :: c) (.node s .leaf w r) := by
      intro x
      rw [plug_append, ← hplug]
      rfl
    have hsucc : Represents l (plug (d ++ .right n left value :: c) (.node s .leaf w r)) := by
      rw [← hfocus]
      exact h
    obtain ⟨h', hset, hrep'⟩ := setUserptr_spec h w
    rw [hfocus] at hrep'
    have hslot : slotOf (d ++ .right n left w :: c) = slotOf (d ++ .right n left value :: c) := by
      cases d with
      | nil => rfl
      | cons frame d => cases frame <;> rfl
    obtain ⟨l', hunlink, hrep'', hcomp, hdtor, hlog⟩ := unlinkNode_spec hrep' (Or.inl rfl)
    have hread'' := hsucc.read_slotOf
    rw [NodeTree.ptr_node] at hread''
    refine ⟨l', w, ?_, ?_, hcomp, hdtor, hlog, fun h => absurd h hone, ?_⟩
    · have hpos : 0 < l.len := by
        rw [h.len, length_plug, NodeTree.nodes_node, List.length_append, List.length_cons]
        omega
      have hrec := removeFrom_of_one hrep' (Or.inl rfl) hpos
      rw [hunlink, hslot] at hrec
      rw [removeNode, removeFrom]
      simp only [hread, hnode, Option.bind_eq_bind, Option.bind_some, mt one_child_iff.mp hone,
        Bool.false_eq_true, if_false, hmin, hread'', hsucc.node_eq, hset]
      exact hrec
    · rcases removeRoot_of_leaf s w (Or.inl rfl : (.leaf : NodeTree V) = .leaf ∨ r = .leaf) with
        ⟨_, heq⟩ | ⟨hcon, _⟩
      · rw [heq, plug_append] at hrep''
        rw [hremove]
        exact hrep''
      · exact absurd rfl hcon
    · intro _ _
      rw [hplug, NodeTree.values, nodes_plug, hbefore]
      rfl

end Remove

/-! ## Insertion and lookup -/

section Search

variable {l : Bst V} {c : List (Frame V)} {t : NodeTree V}

/-- A search whose comparisons have the signs of `side` descends by `side`. -/
theorem findFrom_spec (data : V) {side : V → ℤ} (rounds : ℕ) (h : Represents l (plug c t))
    (hagrees : Agrees side (l.comp data) t) (hrounds : t.nodes.length < rounds) :
    l.findFrom data rounds (slotOf c) (ctxParent c) =
      some (slotOf (seek side c t).1, ctxParent (seek side c t).1) := by
  induction t generalizing c rounds with
  | leaf =>
      obtain ⟨rounds, rfl⟩ : ∃ k, rounds = k + 1 := ⟨rounds - 1, by omega⟩
      rw [findFrom]
      simp only [h.read_slotOf, NodeTree.ptr_leaf, Option.bind_eq_bind, Option.bind_some, seek]
  | node n left value right ihl ihr =>
      obtain ⟨rounds, rfl⟩ : ∃ k, rounds = k + 1 := ⟨rounds - 1, by omega⟩
      obtain ⟨⟨ret, hret, hsign⟩, hright, hleft⟩ := hagrees
      simp only [NodeTree.nodes_node, List.length_append, List.length_cons] at hrounds
      have hzero : ret = 0 ↔ side value = 0 := by
        rw [← Int.sign_eq_zero_iff_zero, hsign, Int.sign_eq_zero_iff_zero]
      have hpos : ret > 0 ↔ side value > 0 := by
        rw [gt_iff_lt, gt_iff_lt, ← Int.sign_eq_one_iff_pos, hsign, Int.sign_eq_one_iff_pos]
      rw [findFrom, seek]
      simp only [h.read_slotOf, NodeTree.ptr_node, h.node_eq, hret, Option.bind_eq_bind,
        Option.bind_some, ne_eq, hzero, hpos]
      split
      next hne =>
        split
        next hgt => exact ihr (c := .right n left value :: c) rounds h (hright hgt) (by omega)
        next hgt =>
          exact ihl (c := .left n value right :: c) rounds h (hleft (by omega)) (by omega)
      next => rfl

theorem bstFind_spec (h : Represents l t) (data : V) {side : V → ℤ}
    (hagrees : Agrees side (l.comp data) t) :
    l.bstFind data = some (slotOf (seek side [] t).1, ctxParent (seek side [] t).1) :=
  findFrom_spec (c := []) data (l.len + 1) h hagrees (by rw [h.len]; omega)

/-- A node allocated at the place of a leaf. -/
theorem insertNode_spec (h : Represents l (plug c .leaf)) (alloc : NodeAlloc V) (data : V) :
    (alloc.calloc l.heap = none ∧
      l.insertNode alloc (slotOf c) (ctxParent c) data = some (-ENOMEM, l)) ∨
    ∃ n l', alloc.calloc l.heap = some n ∧
      l.insertNode alloc (slotOf c) (ctxParent c) data = some (0, l') ∧
      Represents l' (plug c (.node n .leaf data .leaf)) ∧ n ∉ (plug c .leaf).ids ∧
      (∀ slot m, l.read slot = some (some m) → l'.read slot = some (some m)) ∧
      l'.comp = l.comp ∧ l'.dtor = l.dtor ∧ l'.destroyed = l.destroyed := by
  cases hcalloc : alloc.calloc l.heap with
  | none => exact Or.inl ⟨rfl, by rw [insertNode, hcalloc]⟩
  | some n =>
      right
      have hfree := alloc.fresh _ n hcalloc
      have hn : n ∉ (plug c .leaf).ids := by
        rw [← h.live, hfree]
        simp
      have hnodup := nodup_plug.mp h.nodup
      have hnc : n ∉ ctxIds c := by
        rw [mem_ids_plug] at hn
        tauto
      set node : BstNode V := ⟨data, ctxParent c, none, none⟩ with hnode
      have haround := h.around.update hnc (some node)
      obtain ⟨r, h', hwrite, haround', hsame, hlive, hnil, hcons⟩ :=
        write_slotOf (l := { l with heap := Function.update l.heap n (some node) })
          haround hnodup.2.1 (some n)
      refine ⟨n, { l with root := r, heap := h', len := l.len + 1 }, rfl, ?_,
        ⟨?_, ?_, ?_, ?_, ?_⟩, hn, ?_, rfl, rfl, rfl⟩
      · simp only [insertNode, hcalloc]
        rw [← hnode, hwrite]
        rfl
      · exact ptr_of_write h.root rfl hnil hcons
      · refine holds_plug.mpr ⟨haround', ?_, trivial, trivial⟩
        exact (hsame n hnc).trans (Function.update_self _ _ _)
      · refine nodup_plug.mpr ⟨by simp, hnodup.2.1, ?_⟩
        intro m hm
        have heq : m = n := by simpa using hm
        rw [heq]
        exact hnc
      · intro m
        have hm := h.live m
        rw [mem_ids_plug] at hm ⊢
        rw [hlive]
        by_cases hmn : m = n
        · subst hmn
          simp
        · simp only [Function.update_of_ne hmn, hm, NodeTree.ids_node, NodeTree.ids_leaf]
          simp [hmn]
      · have hlen := h.len
        rw [length_plug] at hlen ⊢
        simp only [NodeTree.nodes_node, NodeTree.nodes_leaf, List.length_append, List.length_cons,
          List.length_nil] at hlen ⊢
        omega
      · intro slot m hread
        have hne : slot ≠ slotOf c := by
          rintro rfl
          rw [h.read_slotOf] at hread
          cases hread
        change read { l with root := r, heap := h' } slot = _
        rw [read_of_write hwrite hne, ← hread]
        -- the new node is read through none of its own fields
        cases slot with
        | root => rfl
        | prev value => rfl
        | left k =>
            have hk : k ≠ n := by
              rintro rfl
              simp [read, hfree] at hread
            simp [read, Function.update_of_ne hk]
        | right k =>
            have hk : k ≠ n := by
              rintro rfl
              simp [read, hfree] at hread
            simp [read, Function.update_of_ne hk]
        | parent k =>
            have hk : k ≠ n := by
              rintro rfl
              simp [read, hfree] at hread
            simp [read, Function.update_of_ne hk]

end Search

/-! ## Iteration -/

section Iterate

variable {l : Bst V} {c : List (Frame V)} {t : NodeTree V}

/-- Climbing out of right subtrees reaches the next node to the right. -/
theorem climb_spec (rounds : ℕ) (h : Represents l (plug c t)) {n : ℕ} (hn : t.ptr = some n)
    {slot : NodeSlot} (hslot : l.read slot = some (some n)) (hrounds : c.length < rounds) :
    ∃ next, l.climb rounds slot (.parent n) = some next ∧
      l.read next = some ((after c).head?.map Prod.fst) := by
  induction rounds generalizing c t n slot with
  | zero => omega
  | succ rounds ih =>
      obtain ⟨left, value, right, rfl⟩ : ∃ x v y, t = .node n x v y := by
        cases t with
        | leaf => simp at hn
        | node i x v y =>
            rw [NodeTree.ptr_node, Option.some.injEq] at hn
            exact ⟨x, v, y, by rw [hn]⟩
      have hparent : l.read (.parent n) = some (ctxParent c) := by
        simp [read, h.node_eq]
      rw [climb]
      simp only [hparent, Option.bind_eq_bind, Option.bind_some]
      cases c with
      | nil => exact ⟨.parent n, rfl, hparent⟩
      | cons frame c =>
          cases frame with
          | left p v sibling =>
              have hp := Represents.node_eq (c := c) h
              have hne : some n ≠ sibling.ptr := by
                intro heq
                have hmem := NodeTree.ptr_mem heq.symm
                have hdisj := (nodup_plug.mp h.nodup).2.2 n (by simp)
                exact hdisj (mem_ctxIds_left.mpr (Or.inr (Or.inl hmem)))
              refine ⟨.parent n, ?_, hparent⟩
              simp [ctxParent, Frame.id, hp, hslot, hne]
          | right p sibling v =>
              have hp := Represents.node_eq (c := c) h
              obtain ⟨next, hclimb, hread⟩ := ih (c := c) h rfl hparent (by
                simpa using hrounds)
              refine ⟨next, ?_, hread⟩
              simpa [ctxParent, Frame.id, hp, hslot] using hclimb

/-- `bst_next` leads to the next node from left to right, or to `NULL`. -/
theorem bstNext_spec {n : ℕ} {left right : NodeTree V} {value : V}
    (h : Represents l (plug c (.node n left value right))) {slot : NodeSlot}
    (hslot : l.read slot = some (some n)) :
    ∃ next, l.bstNext slot = some next ∧
      l.read next = some ((right.nodes ++ after c).head?.map Prod.fst) := by
  rw [bstNext]
  simp only [hslot, h.node_eq, Option.bind_eq_bind, Option.bind_some]
  cases right with
  | leaf =>
      have hlen := h.len
      rw [length_plug, NodeTree.nodes_node, List.length_append, List.length_cons] at hlen
      have hdepth : c.length ≤ (before c ++ after c).length := by
        clear h hslot hlen
        induction c with
        | nil => simp
        | cons frame c ih =>
            cases frame with
            | left _ _ _ => simp [before, after] at ih ⊢; omega
            | right _ _ _ => simp [before, after] at ih ⊢; omega
      exact climb_spec l.len h rfl hslot (by omega)
  | node i x v y =>
      have hmin := findMinSubtree_spec (c := .right n left value :: c) h (by simp)
      obtain ⟨d, s, w, r, hmost, hplug, hbefore⟩ := leftmost_spec i x v y
      rw [hmost] at hmin
      refine ⟨_, hmin, ?_⟩
      have hsucc : Represents l (plug (d ++ .right n left value :: c) (.node s .leaf w r)) := by
        rw [plug_append, hplug]
        exact h
      rw [hsucc.read_slotOf, ← hplug, nodes_plug, hbefore]
      rfl

theorem findMinSubtree_root (h : Represents l t) (hne : t ≠ .leaf) :
    ∃ first, l.findMinSubtree .root = some first ∧
      l.read first = some (t.nodes.head?.map Prod.fst) := by
  cases t with
  | leaf => exact absurd rfl hne
  | node i x v y =>
      have hmin := findMinSubtree_spec (c := []) h hne
      obtain ⟨d, s, w, r, hmost, hplug, hbefore⟩ := leftmost_spec i x v y
      rw [hmost, List.append_nil] at hmin
      rw [← hplug] at h
      refine ⟨_, hmin, ?_⟩
      rw [h.read_slotOf, ← hplug, nodes_plug, hbefore]
      rfl

theorem normalizedSlot_spec {n : ℕ} {left right : NodeTree V} {value : V}
    (h : Represents l (plug c (.node n left value right))) :
    l.normalizedSlot n = some (slotOf c) := by
  rw [normalizedSlot]
  simp only [h.node_eq, Option.bind_eq_bind, Option.bind_some]
  cases c with
  | nil => rfl
  | cons frame c =>
      cases frame with
      | left p v sibling =>
          have hp := Represents.node_eq (c := c) h
          have hne : sibling.ptr ≠ some n := by
            intro heq
            have hmem := NodeTree.ptr_mem heq
            have hdisj := (nodup_plug.mp h.nodup).2.2 n (by simp)
            exact hdisj (mem_ctxIds_left.mpr (Or.inr (Or.inl hmem)))
          simp [ctxParent, Frame.id, hp, hne, slotOf]
      | right p sibling v =>
          have hp := Represents.node_eq (c := c) h
          simp [ctxParent, Frame.id, hp, slotOf]

end Iterate

end Bst
end Libmodule
