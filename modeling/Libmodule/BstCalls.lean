import Libmodule.BstRepresentation
import Libmodule.CallRun

/-!
# Calls on a tree

The public calls that change a tree or an iterator, and all that one of them
can do to a tree of nodes.
-/

namespace Libmodule
namespace Bst

open SearchTree

variable {V : Type}

/-- A tree and the iterator running on it. -/
structure BstState (V : Type) where
  bst : Bst V
  itr : Option BstItr

/-- The public calls that change a tree or an iterator.  A direct removal and
a clear end the running iteration. -/
inductive BstCall (V : Type) where
  | insert (alloc : NodeAlloc V) (data : Option V)
  | remove (data : Option V)
  | itrNew (mem : Bool)
  | itrNext
  | itrRemove
  | clear (mem : Bool)

def BstCall.exec (s : BstState V) : BstCall V → Option (ℤ × BstState V)
  | .insert alloc data => do
      let (ret, bst) ← s.bst.mBstInsert alloc data
      some (ret, ⟨bst, s.itr⟩)
  | .remove data => do
      let (ret, bst) ← s.bst.mBstRemove data
      some (ret, ⟨bst, if ret = 0 then none else s.itr⟩)
  | .itrNew mem => do
      some (0, ⟨s.bst, ← s.bst.mBstItrNew mem⟩)
  | .itrNext => do
      let (ret, itr) ← s.bst.mBstItrNext s.itr
      some (ret, ⟨s.bst, itr⟩)
  | .itrRemove => do
      let (ret, bst, itr) ← s.bst.mBstItrRemove s.itr
      some (ret, ⟨bst, itr⟩)
  | .clear mem => do
      let (ret, bst) ← s.bst.mBstClear mem
      some (ret, ⟨bst, none⟩)

def storedFrom (h : ℕ → Option (BstNode V)) : ℕ → Option ℕ → List V
  | 0, _ => []
  | _ + 1, none => []
  | depth + 1, some n =>
      match h n with
      | none => []
      | some node =>
          storedFrom h depth node.left ++ node.userptr :: storedFrom h depth node.right

/-- The pointers stored in a tree, from left to right. -/
def stored (l : Bst V) : List V := storedFrom l.heap l.len l.root

def newState (comp : V → V → ℤ) : BstState V :=
  ⟨mBstNew (fun a b => some (comp a b)) true, none⟩

/-- The stored pointer that a removal takes out. -/
def BstCall.target (s : BstState V) : BstCall V → Option V
  | .remove data => (s.bst.mBstFind data).join
  | .itrRemove => (s.bst.mBstItrGetData s.itr).join
  | _ => none

/-! ## Stored pointers -/

theorem storedFrom_spec {h : ℕ → Option (BstNode V)} {p : Option ℕ} {t : NodeTree V}
    (hholds : Holds h p t) (depth : ℕ) (hdepth : t.nodes.length ≤ depth) :
    storedFrom h depth t.ptr = t.values := by
  induction t generalizing p depth with
  | leaf => cases depth <;> rfl
  | node n left value right ihl ihr =>
      obtain ⟨hnode, hleft, hright⟩ := hholds
      simp only [NodeTree.nodes_node, List.length_append, List.length_cons] at hdepth
      obtain ⟨depth, rfl⟩ : ∃ k, depth = k + 1 := ⟨depth - 1, by omega⟩
      rw [NodeTree.ptr_node, storedFrom, hnode]
      simp only [ihl hleft depth (by omega), ihr hright depth (by omega),
        NodeTree.values_node]

theorem Represents.stored_eq {l : Bst V} {t : NodeTree V} (h : Represents l t) :
    l.stored = t.values := by
  rw [stored, h.root]
  exact storedFrom_spec h.holds l.len h.len.ge

theorem values_plug (c : List (Frame V)) (t : NodeTree V) :
    (plug c t).values =
      (before c).map Prod.snd ++ t.values ++ (after c).map Prod.snd := by
  simp only [NodeTree.values, nodes_plug, List.map_append]

/-! ## The state of a run -/

/-- A live iterator points at a node of the tree, or has removed it; the node
it last passed is still there, and lies before the current one. -/
def ItrValid (l : Bst V) (t : NodeTree V) (i : BstItr) : Prop :=
  (i.removed = true → ∀ p, i.prev = some p → p ∈ t.ids) ∧
  (i.removed = false → ∃ n, l.read i.curr = some (some n) ∧ n ∈ t.ids ∧
    ∀ p, i.prev = some p → [p, n].Sublist t.ids)

structure RunInvariant (comp : V → V → ℤ) (dtor : Bool) (s : BstState V) (t : NodeTree V) :
    Prop where
  represents : Represents s.bst t
  sorted : Sorted comp t
  itr : ∀ i, s.itr = some i → ItrValid s.bst t i
  comp_eq : s.bst.comp = fun a b => some (comp a b)
  dtor_eq : s.bst.dtor = dtor

theorem afterDtor_eq {l : Bst V} (hdtor : l.dtor = true) (value : V) :
    l.afterDtor value = l.destroyed ++ [value] := by
  rw [afterDtor, if_pos hdtor]

theorem mem_before_of_sublist {α : Type} {p n : α} {xs ys : List α}
    (hnodup : (xs ++ n :: ys).Nodup) (h : [p, n].Sublist (xs ++ n :: ys)) : p ∈ xs := by
  rw [List.nodup_middle, List.nodup_cons, List.mem_append, not_or] at hnodup
  obtain ⟨u, v, heq, hu, hv⟩ := List.sublist_append_iff.mp h
  cases u with
  | nil =>
      rw [List.nil_append] at heq
      subst heq
      cases hv with
      | cons _ hv =>
          have hn := hv.subset (show n ∈ [p, n] by simp)
          exact absurd hn hnodup.1.2
      | cons_cons _ hv => exact absurd (hv.subset List.mem_cons_self) hnodup.1.2
  | cons q u =>
      rw [List.cons_append, List.cons.injEq] at heq
      rw [heq.1]
      exact hu.subset List.mem_cons_self

/-- Where the search for `data` ends, when its comparisons order it as `x`. -/
theorem search_spec {l : Bst V} {t : NodeTree V} (h : Represents l t)
    {order : V → V → ℤ} (horder : TotalPreorder order) (hsorted : Sorted order t)
    (x data : V) (hagrees : Agrees (order x) (l.comp data) t) :
    ∃ c r, l.bstFind data = some (slotOf c, ctxParent c) ∧ t = plug c r ∧
      l.read (slotOf c) = some r.ptr ∧ Located order x c ∧
      (r = .leaf ∨ ∃ n left v right, r = .node n left v right ∧ order x v = 0) := by
  have hfind := bstFind_spec h data hagrees
  have hplug := plug_seek (order x) [] t
  have hlocated := seek_located horder (x := x) [] t hsorted
    ⟨by simp [before], by simp [after]⟩
  refine ⟨_, _, hfind, hplug.symm, ?_, hlocated⟩
  apply Represents.read_slotOf
  rw [hplug]
  exact h

/-! ## What a call can do -/

section Outcome

variable {comp : V → V → ℤ} {dtor : Bool} {s : BstState V} {t : NodeTree V}

/-- The call is refused, and with this answer. -/
def Refuses (comp : V → V → ℤ) (s : BstState V) (t : NodeTree V) : BstCall V → ℤ → Prop
  | .insert _ none, ret => ret = -EINVAL
  | .insert alloc (some x), ret =>
      (ret = -EEXIST ∧ ∃ v ∈ t.values, comp x v = 0) ∨
        (ret = -ENOMEM ∧ alloc.calloc s.bst.heap = none ∧ ∀ v ∈ t.values, comp x v ≠ 0)
  | .remove none, ret => ret = -EINVAL
  | .remove (some x), ret =>
      (ret = -EINVAL ∨ ret = -ENOENT) ∧ ∀ v ∈ t.values, comp x v ≠ 0
  | .itrNew _, _ => False
  | .itrNext, ret => ret = -EINVAL
  | .itrRemove, ret => ret = -EINVAL ∧ ∀ i, s.itr = some i → i.removed = true
  | .clear _, ret => ret = -EINVAL ∧ s.bst.len = 0

/-- The call takes out the node `n` at the hole of `c`, which holds `v`. -/
inductive Takes (comp : V → V → ℤ) (s : BstState V) (c : List (Frame V)) (n : ℕ) (v : V) :
    BstCall V → Prop where
  | remove (x : V) (heq : comp x v = 0)
      (hfind : s.bst.bstFind x = some (slotOf c, ctxParent c)) : Takes comp s c n v (.remove (some x))
  | itrRemove (i : BstItr) (hitr : s.itr = some i) (hlive : i.removed = false)
      (hread : s.bst.read i.curr = some (some n)) : Takes comp s c n v .itrRemove

/-- What a call answers and leaves, on a tree `t` that becomes `t'`. -/
inductive Outcome (comp : V → V → ℤ) (s : BstState V) :
    NodeTree V → BstCall V → ℤ → BstState V → NodeTree V → Prop where
  | refused {t : NodeTree V} {call : BstCall V} {ret : ℤ} (itr : Option BstItr)
      (hrefuse : Refuses comp s t call ret) : Outcome comp s t call ret ⟨s.bst, itr⟩ t
  | itrNew {t : NodeTree V} (mem : Bool) (itr : Option BstItr) :
      Outcome comp s t (.itrNew mem) 0 ⟨s.bst, itr⟩ t
  | itrNext {t : NodeTree V} (itr : Option BstItr) : Outcome comp s t .itrNext 0 ⟨s.bst, itr⟩ t
  | inserted {c : List (Frame V)} {alloc : NodeAlloc V} {x : V} {bst : Bst V} (n : ℕ)
      (hlocated : Located comp x c) (hlog : bst.destroyed = s.bst.destroyed) :
      Outcome comp s (plug c .leaf) (.insert alloc (some x)) 0 ⟨bst, s.itr⟩
        (plug c (.node n .leaf x .leaf))
  | removed {c : List (Frame V)} {n : ℕ} {left right : NodeTree V} {v : V} {call : BstCall V}
      {bst : Bst V} (w : V) (itr : Option BstItr) (htakes : Takes comp s c n v call)
      (hlog : bst.destroyed = s.bst.afterDtor w)
      (hone : left = .leaf ∨ right = .leaf → w = v)
      (htwo : left ≠ .leaf → right ≠ .leaf → right.values.head? = some w) :
      Outcome comp s (plug c (.node n left v right)) call 0 ⟨bst, itr⟩
        (plug c (removeRoot (.node n left v right)))
  | cleared {t : NodeTree V} {bst : Bst V} 
      (hlog : s.bst.dtor = true → bst.destroyed = s.bst.destroyed ++ t.values) :
      Outcome comp s t (.clear true) 0 ⟨bst, none⟩ .leaf

/-- The call ends with one of the outcomes. -/
def Ends (comp : V → V → ℤ) (dtor : Bool) (s : BstState V) (t : NodeTree V) (call : BstCall V) : Prop :=
  ∃ ret s' t', call.exec s = some (ret, s') ∧ Outcome comp s t call ret s' t' ∧
    RunInvariant comp dtor s' t'

theorem RunInvariant.ends_of_same (h : RunInvariant comp dtor s t) {call : BstCall V} {r : ℤ}
    {itr : Option BstItr} (hexec : call.exec s = some (r, ⟨s.bst, itr⟩))
    (houtcome : Outcome comp s t call r ⟨s.bst, itr⟩ t)
    (hitr : ∀ i, itr = some i → ItrValid s.bst t i) : Ends comp dtor s t call :=
  ⟨r, ⟨s.bst, itr⟩, t, hexec, houtcome,
    { represents := h.represents
      sorted := h.sorted
      itr := hitr
      comp_eq := h.comp_eq
      dtor_eq := h.dtor_eq }⟩

theorem absent_of_located {c : List (Frame V)} {x : V}
    (hlocated : Located comp x c) : ∀ v ∈ (plug c .leaf).values, comp x v ≠ 0 := by
  intro v hv
  rw [values_plug] at hv
  simp only [NodeTree.values_leaf, List.append_nil, List.mem_append] at hv
  rcases hv with hv | hv
  · obtain ⟨p, hp, rfl⟩ := List.mem_map.mp hv
    exact (hlocated.before p hp).ne'
  · obtain ⟨p, hp, rfl⟩ := List.mem_map.mp hv
    exact (hlocated.after p hp).ne

theorem RunInvariant.search (h : RunInvariant comp dtor s t) (hcomp : TotalPreorder comp)
    (data : V) :
    ∃ c r, s.bst.bstFind data = some (slotOf c, ctxParent c) ∧ t = plug c r ∧
      s.bst.read (slotOf c) = some r.ptr ∧ Located comp data c ∧
      (r = .leaf ∨ ∃ n l v y, r = .node n l v y ∧ comp data v = 0) := by
  apply search_spec h.represents hcomp h.sorted data data
  rw [h.comp_eq]
  exact agrees_some _ _

theorem insert_ends (h : RunInvariant comp dtor s t) (hcomp : TotalPreorder comp)
    (alloc : NodeAlloc V) (data : Option V) : Ends comp dtor s t (.insert alloc data) := by
  cases data with
  | none => exact h.ends_of_same rfl (.refused s.itr rfl) h.itr
  | some data =>
      obtain ⟨c, r, hfind, rfl, hread, hlocated, hcase⟩ := h.search hcomp data
      rcases hcase with rfl | ⟨n, left, v, right, rfl, heq⟩
      · rcases insertNode_spec h.represents alloc data with
          ⟨hnone, hinsert⟩ | ⟨n, bst, _, hinsert, hrep', hfresh, hkept, hcomp', hdtor', hlog⟩
        · refine h.ends_of_same (r := -ENOMEM) ?_
            (.refused s.itr (.inr ⟨rfl, hnone, absent_of_located hlocated⟩)) h.itr
          simp [BstCall.exec, mBstInsert, hfind, hread, hinsert]
        · have hexec : BstCall.exec s (.insert alloc (some data)) = some (0, ⟨bst, s.itr⟩) := by
            simp [BstCall.exec, mBstInsert, hfind, hread, hinsert]
          refine ⟨0, _, _, hexec, .inserted n hlocated hlog, hrep',
            sorted_insert hcomp h.sorted hlocated n, ?_, hcomp'.trans h.comp_eq,
            hdtor'.trans h.dtor_eq⟩
          intro i hi
          have hids : (plug c .leaf).ids.Sublist (plug c (.node n .leaf data .leaf)).ids := by
            rw [NodeTree.ids, NodeTree.ids, nodes_plug, nodes_plug]
            apply List.Sublist.map
            apply List.Sublist.append_right
            exact List.Sublist.append_left (List.nil_sublist _) _
          obtain ⟨hremoved, hlive⟩ := h.itr i hi
          refine ⟨fun hr p hp => hids.subset (hremoved hr p hp), fun hr => ?_⟩
          obtain ⟨m, hm, hmem, hprev⟩ := hlive hr
          exact ⟨m, hkept _ _ hm, hids.subset hmem, fun p hp => (hprev p hp).trans hids⟩
      · have hmem : v ∈ (plug c (.node n left v right)).values := by
          rw [values_plug]
          simp
        refine h.ends_of_same (r := -EEXIST) ?_ (.refused s.itr (.inl ⟨rfl, v, hmem, heq⟩))
          h.itr
        simp [BstCall.exec, mBstInsert, hfind, hread]

theorem remove_ends (h : RunInvariant comp dtor s t) (hcomp : TotalPreorder comp)
    (data : Option V) : Ends comp dtor s t (.remove data) := by
  by_cases hlen : s.bst.len > 0
  · cases data with
    | none =>
        refine h.ends_of_same (r := -EINVAL) ?_ (.refused s.itr rfl) h.itr
        simp [BstCall.exec, mBstRemove, hlen, EINVAL]
    | some data =>
        obtain ⟨c, r, hfind, rfl, hread, hlocated, hcase⟩ := h.search hcomp data
        rcases hcase with rfl | ⟨n, left, v, right, rfl, heq⟩
        · refine h.ends_of_same (r := -ENOENT) ?_
            (.refused s.itr ⟨.inr rfl, absent_of_located hlocated⟩) h.itr
          have hremove : s.bst.removeNode (slotOf c) = some (-ENOENT, s.bst) := by
            rw [removeNode, removeFrom]
            simp [hread]
          simp [BstCall.exec, mBstRemove, hlen, hfind, hremove, ENOENT]
        · obtain ⟨bst, w, hremove, hrep, hcomp', hdtor', hlog, hone, htwo⟩ :=
            removeNode_spec h.represents
          have hexec : BstCall.exec s (.remove (some data)) = some (0, ⟨bst, none⟩) := by
            simp [BstCall.exec, mBstRemove, hlen, hfind, hremove]
          exact ⟨0, _, _, hexec, .removed w none (.remove data heq hfind) hlog hone htwo, hrep,
            sorted_removeRoot h.sorted, by simp, hcomp'.trans h.comp_eq, hdtor'.trans h.dtor_eq⟩
  · have hrefuse : Refuses comp s t (.remove data) (-EINVAL) := by
      cases data with
      | none => rfl
      | some data =>
          refine ⟨.inl rfl, ?_⟩
          have hzero := h.represents.len
          have hnil : t.nodes = [] := List.length_eq_zero_iff.mp (by omega)
          simp [NodeTree.values, hnil]
    refine h.ends_of_same (r := -EINVAL) ?_ (.refused s.itr hrefuse) h.itr
    simp [BstCall.exec, mBstRemove, hlen, EINVAL]

/-- The node an iterator may be moved to. -/
theorem itrValid_of_head {l : Bst V} {n m : ℕ} {slot : NodeSlot} {xs ys : List (ℕ × V)}
    {v : V} (hnodes : t.nodes = xs ++ (n, v) :: ys) (hread : l.read slot = some (some m))
    (hhead : ys.head?.map Prod.fst = some m) :
    ItrValid l t ⟨false, slot, some n⟩ := by
  cases ys with
  | nil => simp at hhead
  | cons p ys =>
      rw [List.head?_cons, Option.map_some, Option.some.injEq] at hhead
      subst hhead
      have hids : t.ids = xs.map Prod.fst ++ n :: p.1 :: ys.map Prod.fst := by
        rw [NodeTree.ids, hnodes]
        simp
      refine ⟨fun hr => Bool.noConfusion hr, fun _ => ⟨p.1, hread, ?_, ?_⟩⟩
      · rw [hids]
        simp
      · intro q hq
        cases hq
        rw [hids]
        refine List.Sublist.trans ?_ (List.sublist_append_right _ _)
        exact ((List.nil_sublist _).cons_cons _).cons_cons _

/-- One step of an iterator that has a node to start from. -/
theorem bstNext_valid (h : Represents s.bst t) {n : ℕ} (hn : n ∈ t.ids) (slot : NodeSlot)
    (hslot : s.bst.read slot = some (some n)) :
    ∃ next, s.bst.bstNext slot = some next ∧
      (s.bst.read next = some none ∨
        ∃ m, s.bst.read next = some (some m) ∧ ItrValid s.bst t ⟨false, next, some n⟩) := by
  obtain ⟨c, left, v, right, ht⟩ := exists_plug hn
  have hrep := h
  rw [ht] at hrep
  obtain ⟨next, hnext, hread⟩ := bstNext_spec hrep hslot
  refine ⟨next, hnext, ?_⟩
  have hnodes : t.nodes = (before c ++ left.nodes) ++ (n, v) :: (right.nodes ++ after c) := by
    rw [ht, nodes_plug, NodeTree.nodes_node]
    simp
  cases hhead : (right.nodes ++ after c).head?.map Prod.fst with
  | none => exact Or.inl (hread.trans (congrArg some hhead))
  | some m =>
      rw [hhead] at hread
      exact Or.inr ⟨m, hread, itrValid_of_head hnodes hread hhead⟩

theorem first_valid {l : Bst V} (h : Represents l t) (hne : t ≠ .leaf) :
    ∃ first, l.findMinSubtree .root = some first ∧
      ∃ n, l.read first = some (some n) ∧ t.nodes.head?.map Prod.fst = some n ∧
        ItrValid l t ⟨false, first, none⟩ := by
  obtain ⟨first, hfirst, hread⟩ := findMinSubtree_root h hne
  cases hnodes : t.nodes with
  | nil => cases t <;> simp at hnodes hne
  | cons p rest =>
      rw [hnodes] at hread
      refine ⟨first, hfirst, p.1, hread, rfl, fun hr => Bool.noConfusion hr,
        fun _ => ⟨p.1, hread, ?_, fun q hq => by cases hq⟩⟩
      rw [NodeTree.ids, hnodes]
      simp

theorem itrStep_spec (h : Represents s.bst t) {i : BstItr} (hi : ItrValid s.bst t i) :
    ∃ itr, s.bst.itrStep i = some itr ∧ ∀ j, itr = some j → ItrValid s.bst t j := by
  obtain ⟨hremoved, hlive⟩ := hi
  cases hr : i.removed with
  | false =>
      obtain ⟨n, hread, hn, _⟩ := hlive hr
      obtain ⟨next, hnext, hcase⟩ := bstNext_valid h hn i.curr hread
      rcases hcase with hnone | ⟨m, hsome, hvalid⟩
      · exact ⟨none, by simp [itrStep, hr, hread, hnext, hnone], fun j hj => by cases hj⟩
      · refine ⟨some ⟨false, next, some n⟩, ?_, ?_⟩
        · simp [itrStep, hr, hread, hnext, hsome]
        · rintro j ⟨⟩
          exact hvalid
  | true =>
      cases hprev : i.prev with
      | some n =>
          obtain ⟨next, hnext, hcase⟩ :=
            bstNext_valid h (hremoved hr n hprev) (.prev (some n)) rfl
          rcases hcase with hnone | ⟨m, hsome, hvalid⟩
          · exact ⟨none, by simp [itrStep, hr, hprev, hnext, hnone], fun j hj => by cases hj⟩
          · refine ⟨some ⟨false, next, some n⟩, ?_, ?_⟩
            · simp [itrStep, hr, hprev, hnext, hsome]
            · rintro j ⟨⟩
              exact hvalid
      | none =>
          by_cases hne : t = .leaf
          · have hroot : s.bst.root = none := by rw [h.root, hne]; rfl
            exact ⟨none, by simp [itrStep, hr, hprev, hroot, read], fun j hj => by cases hj⟩
          · obtain ⟨first, hfirst, n, hread, _, hvalid⟩ := first_valid h hne
            have hroot : s.bst.root.isSome = true := by
              rw [h.root, Option.isSome_iff_ne_none, Ne, NodeTree.ptr_eq_none]
              exact hne
            refine ⟨some ⟨false, first, none⟩, ?_, ?_⟩
            · simp [itrStep, hr, hprev, hroot, hfirst, hread]
            · rintro j ⟨⟩
              exact hvalid

theorem itrNew_ends (h : RunInvariant comp dtor s t) (mem : Bool) :
    Ends comp dtor s t (.itrNew mem) := by
  by_cases hlen : s.bst.len > 0
  · cases mem with
    | false =>
        refine h.ends_of_same ?_ (.itrNew false none) nofun
        simp [BstCall.exec, mBstItrNew, hlen]
    | true =>
        have hne : t ≠ .leaf := by
          rintro rfl
          rw [h.represents.len] at hlen
          simp at hlen
        obtain ⟨first, hfirst, n, _, _, hvalid⟩ := first_valid h.represents hne
        refine h.ends_of_same ?_ (.itrNew true (some ⟨false, first, none⟩)) ?_
        · simp [BstCall.exec, mBstItrNew, hlen, hfirst]
        · rintro i ⟨⟩
          exact hvalid
  · refine h.ends_of_same ?_ (.itrNew mem none) nofun
    simp [BstCall.exec, mBstItrNew, hlen]

theorem itrNext_ends (h : RunInvariant comp dtor s t) : Ends comp dtor s t .itrNext := by
  cases hitr : s.itr with
  | none =>
      refine h.ends_of_same (r := -EINVAL) ?_ (.refused none rfl) nofun
      simp [BstCall.exec, mBstItrNext, hitr]
  | some i =>
      obtain ⟨itr, hstep, hvalid⟩ := itrStep_spec h.represents (h.itr i hitr)
      refine h.ends_of_same ?_ (.itrNext itr) hvalid
      simp [BstCall.exec, mBstItrNext, hitr, hstep]

theorem itrRemove_ends (h : RunInvariant comp dtor s t) : Ends comp dtor s t .itrRemove := by
  cases hitr : s.itr with
  | none =>
      have hrefuse : Refuses comp s t .itrRemove (-EINVAL) := by
        refine ⟨rfl, fun i hi => ?_⟩
        rw [hitr] at hi
        cases hi
      refine h.ends_of_same ?_ (.refused none hrefuse) nofun
      simp [BstCall.exec, mBstItrRemove, hitr]
  | some i =>
      cases hr : i.removed with
      | true =>
          have hrefuse : Refuses comp s t .itrRemove (-EINVAL) := by
            refine ⟨rfl, fun j hj => ?_⟩
            rw [hitr, Option.some.injEq] at hj
            rw [← hj, hr]
          refine h.ends_of_same ?_ (.refused (some i) hrefuse) (fun j hj => h.itr j (hitr.trans hj))
          simp [BstCall.exec, mBstItrRemove, hitr, hr]
      | false =>
          obtain ⟨n, hread, hn, hprev⟩ := (h.itr i hitr).2 hr
          obtain ⟨c, left, v, right, rfl⟩ := exists_plug hn
          obtain ⟨bst, w, hremove, hrep, hcomp', hdtor', hlog, hone, htwo⟩ :=
            removeNode_spec h.represents
          have hslot := normalizedSlot_spec h.represents
          have hexec : BstCall.exec s .itrRemove =
              some (0, ⟨bst, some { i with removed := true }⟩) := by
            simp [BstCall.exec, mBstItrRemove, hitr, hr, hread, hslot, hremove]
          refine ⟨0, _, _, hexec, .removed w _ (.itrRemove i hitr hr hread) hlog hone htwo, hrep,
            sorted_removeRoot h.sorted, ?_, hcomp'.trans h.comp_eq, hdtor'.trans h.dtor_eq⟩
          rintro j ⟨⟩
          refine ⟨fun _ p hp => ?_, fun hlive => Bool.noConfusion hlive⟩
          -- the node passed before the removed one is in its left part
          have hids : (plug c (.node n left v right)).ids = (before c ++ left.nodes).map Prod.fst ++
              n :: (right.nodes ++ after c).map Prod.fst := by
            rw [NodeTree.ids, nodes_plug, NodeTree.nodes_node]
            simp
          have hbefore : p ∈ (before c ++ left.nodes).map Prod.fst := by
            have hsub := hprev p hp
            have hnodup := h.represents.nodup
            rw [hids] at hsub hnodup
            exact mem_before_of_sublist hnodup hsub
          have hleft : left.ids.Sublist (removeRoot (.node n left v right)).ids :=
            left_ids_removeRoot n left right v
          rw [List.map_append, List.mem_append] at hbefore
          rw [mem_ids_plug]
          rcases hbefore with hmem | hmem
          · right
            rw [ctxIds, List.map_append]
            exact List.mem_append_left _ hmem
          · exact Or.inl (hleft.subset hmem)

/-- The first node has no left child, so that a clear unlinks it and not a successor. -/
theorem mBstItrRemove_first {l : Bst V} {i : BstItr} {n : ℕ} {v : V} {rest : List (ℕ × V)}
    (h : Represents l t) (hnodes : t.nodes = (n, v) :: rest) (hlive : i.removed = false)
    (hread : l.read i.curr = some (some n)) :
    ∃ l' t', l.mBstItrRemove (some i) = some (0, l', some { i with removed := true }) ∧
      Represents l' t' ∧ t'.nodes = rest ∧ l'.comp = l.comp ∧ l'.dtor = l.dtor ∧
      l'.destroyed = l.afterDtor v := by
  obtain ⟨c, left, value, right, ht⟩ := exists_plug (t := t) (n := n) (by
    rw [NodeTree.ids, hnodes]
    simp)
  -- nothing lies before the first node
  have hsplit : (before c ++ left.nodes) ++ (n, value) :: (right.nodes ++ after c) =
      (n, v) :: rest := by
    rw [← hnodes, ht, nodes_plug, NodeTree.nodes_node]
    simp
  have hfirst : before c ++ left.nodes = [] := by
    cases hxs : before c ++ left.nodes with
    | nil => rfl
    | cons p xs =>
        have hnodup := h.nodup
        rw [NodeTree.ids, hnodes, ← hsplit, hxs] at hnodup
        rw [hxs, List.cons_append, List.cons.injEq] at hsplit
        rw [hsplit.1, List.cons_append, List.map_cons, List.nodup_cons] at hnodup
        simp at hnodup
  obtain ⟨hbefore, hleft⟩ := List.append_eq_nil_iff.mp hfirst
  have hleaf : left = .leaf := by
    cases left with
    | leaf => rfl
    | node _ _ _ _ => simp at hleft
  subst hleaf
  rw [hfirst, List.nil_append, List.cons.injEq, Prod.mk.injEq] at hsplit
  obtain ⟨⟨_, rfl⟩, hrest⟩ := hsplit
  have hrep := h
  rw [ht] at hrep
  obtain ⟨l₁, w, hremove, hrep₁, hcomp₁, hdtor₁, hlog₁, hone, _⟩ := removeNode_spec hrep
  rw [hone (Or.inl rfl)] at hlog₁
  have hright : removeRoot (.node n .leaf value right) = right := by cases right <;> rfl
  rw [hright] at hrep₁
  refine ⟨l₁, plug c right, ?_, hrep₁, ?_, hcomp₁, hdtor₁, hlog₁⟩
  · simp [mBstItrRemove, hlive, hread, normalizedSlot_spec hrep, hremove]
  · rw [nodes_plug, hbefore, List.nil_append, hrest]

/-- The loop of a clear destroys what is stored, from left to right. -/
theorem clearFrom_spec (rounds : ℕ) {l : Bst V} {i : BstItr} (h : Represents l t)
    (hne : t ≠ .leaf) (hrounds : t.nodes.length ≤ rounds) (hlive : i.removed = false)
    (hprev : i.prev = none) (hread : l.read i.curr = some (t.nodes.head?.map Prod.fst)) :
    ∃ l', clearFrom rounds l i = some l' ∧ Represents l' .leaf ∧ l'.comp = l.comp ∧
      l'.dtor = l.dtor ∧ (l.dtor = true → l'.destroyed = l.destroyed ++ t.values) := by
  induction rounds generalizing l i t with
  | zero => cases t <;> simp at hrounds hne
  | succ rounds ih =>
      obtain ⟨n, v, rest, hnodes⟩ : ∃ n v rest, t.nodes = (n, v) :: rest := by
        cases hnodes : t.nodes with
        | nil => cases t <;> simp at hnodes hne
        | cons p rest => exact ⟨p.1, p.2, rest, rfl⟩
      rw [hnodes] at hread
      change l.read i.curr = some (some n) at hread
      obtain ⟨l₁, t₁, hitr, hrep₁, hnodes₁, hcomp₁, hdtor₁, hlog₁⟩ :=
        mBstItrRemove_first h hnodes hlive hread
      have hvalues : t.values = v :: t₁.values := by
        rw [NodeTree.values, NodeTree.values, hnodes, hnodes₁]
        rfl
      rw [clearFrom, hitr]
      by_cases hdone : t₁ = .leaf
      · rw [hdone] at hrep₁ hvalues
        have hroot : l₁.root = none := by rw [hrep₁.root]; rfl
        refine ⟨l₁, ?_, hrep₁, hcomp₁, hdtor₁, fun hdtor => ?_⟩
        · simp [mBstItrNext, itrStep, hprev, hroot, read]
        · rw [hlog₁, hvalues, afterDtor_eq hdtor]
          rfl
      · obtain ⟨first, hmin, m, hreadm, hhead, _⟩ := first_valid hrep₁ hdone
        have hroot : l₁.root.isSome = true := by
          rw [hrep₁.root, Option.isSome_iff_ne_none, Ne, NodeTree.ptr_eq_none]
          exact hdone
        have hlen : t.nodes.length = rest.length + 1 := by rw [hnodes]; rfl
        obtain ⟨l', hclear, hrep', hcomp', hdtor', hlog'⟩ :=
          ih (i := ⟨false, first, none⟩) hrep₁ hdone (by rw [hnodes₁]; omega) rfl rfl
            (by rw [hreadm, hhead])
        refine ⟨l', ?_, hrep', hcomp'.trans hcomp₁, hdtor'.trans hdtor₁, fun hdtor => ?_⟩
        · simpa [mBstItrNext, itrStep, hprev, hroot, hmin, hreadm] using hclear
        · rw [hlog' (hdtor₁.trans hdtor), hlog₁, hvalues, afterDtor_eq hdtor]
          simp

/-- A clear that gets no iterator drops the root and leaves the rest. -/
def LeaksNodes (s : BstState V) (call : BstCall V) : Prop :=
  call = .clear false ∧ s.bst.len > 0

theorem clear_ends (h : RunInvariant comp dtor s t) (mem : Bool)
    (hleaks : ¬ LeaksNodes s (.clear mem)) : Ends comp dtor s t (.clear mem) := by
  by_cases hlen : s.bst.len > 0
  · have hne : t ≠ .leaf := by
      rintro rfl
      rw [h.represents.len] at hlen
      simp at hlen
    cases mem with
    | false => exact absurd ⟨rfl, hlen⟩ hleaks
    | true =>
        obtain ⟨first, hmin, n, hread, hhead, _⟩ := first_valid h.represents hne
        obtain ⟨bst, hclear, hrep, hcomp', hdtor', hlog⟩ :=
          clearFrom_spec s.bst.len (i := ⟨false, first, none⟩) h.represents hne
            h.represents.len.ge rfl rfl (by rw [hread, hhead])
        have hroot : { bst with root := none } = bst := by
          have hnone : bst.root = none := hrep.root
          rw [← hnone]
        have hexec : BstCall.exec s (.clear true) = some (0, ⟨bst, none⟩) := by
          simp [BstCall.exec, mBstClear, mBstItrNew, hlen, hmin, hclear, hroot]
        exact ⟨0, _, _, hexec, .cleared hlog, hrep, List.Pairwise.nil, nofun,
          hcomp'.trans h.comp_eq, hdtor'.trans h.dtor_eq⟩
  · refine h.ends_of_same (r := -EINVAL) ?_ (.refused none ⟨rfl, by omega⟩) nofun
    simp [BstCall.exec, mBstClear, hlen]

/-- Every call but one ends well. -/
theorem call_ends (h : RunInvariant comp dtor s t) (hcomp : TotalPreorder comp) (call : BstCall V)
    (hleaks : ¬ LeaksNodes s call) : Ends comp dtor s t call := by
  cases call with
  | insert alloc data => exact insert_ends h hcomp alloc data
  | remove data => exact remove_ends h hcomp data
  | itrNew mem => exact itrNew_ends h mem
  | itrNext => exact itrNext_ends h
  | itrRemove => exact itrRemove_ends h
  | clear mem => exact clear_ends h mem hleaks

theorem exec_leaks {call : BstCall V} (hleaks : LeaksNodes s call) :
    call.exec s = some (0, ⟨{ s.bst with root := none }, none⟩) := by
  obtain ⟨rfl, hlen⟩ := hleaks
  simp [BstCall.exec, mBstClear, mBstItrNew, hlen]

theorem stored_root_none (l : Bst V) : stored { l with root := none } = [] := by
  change storedFrom l.heap l.len none = []
  cases l.len <;> rfl

end Outcome

theorem runInvariant_new (comp : V → V → ℤ) (dtor : Bool) :
    RunInvariant comp dtor ⟨mBstNew (fun a b => some (comp a b)) dtor, none⟩ .leaf := by
  refine ⟨⟨rfl, trivial, List.nodup_nil, fun n => ?_, rfl⟩, List.Pairwise.nil, ?_, rfl, rfl⟩
  · simp [mBstNew]
  · intro i hi
    cases hi

/-- The comparator of `test_bst.c`. -/
theorem totalPreorder_sub : TotalPreorder (fun a b : ℤ => a - b) where
  refl := by intro a; omega
  swap := by intro a b; omega
  trans := by intro a b c; omega

end Bst
end Libmodule
