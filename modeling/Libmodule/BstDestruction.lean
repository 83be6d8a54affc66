import Libmodule.BstCalls

/-!
# What the destructor of a tree is called on

A ledger over runs of public calls: the pointers that enter a tree are, at
every moment, those destroyed so far and those still stored.  Removing a node
with two children breaks it, because the pointer of the successor is the one
that is destroyed while it moves into the removed node.
-/

namespace Libmodule
namespace Bst

open SearchTree CallRun

variable {V : Type}

/-- The pointer a call adds to the tree. -/
def BstCall.entered : BstCall V → ℤ → List V
  | .insert _ (some data), ret => if ret = 0 then [data] else []
  | _, _ => []

def BstCall.IsRemoval : BstCall V → Prop
  | .remove _ => True
  | .itrRemove => True
  | _ => False

/-- A step destroys the pointers that leave the tree and no others; a removal
destroys the one it takes out. -/
def DestroysLeaving (s : BstState V) (call : BstCall V) (ret : ℤ) (s' : BstState V) : Prop :=
  ∃ log, s'.bst.destroyed = s.bst.destroyed ++ log ∧
    (call.entered ret ++ s.bst.stored).Perm (log ++ s'.bst.stored) ∧
    (∀ p ∈ log, p ∉ s'.bst.stored) ∧
    (call.IsRemoval → ret = 0 → ∃ x, call.target s = some x ∧ log = [x])

def HasOneChild (l : Bst V) (slot : NodeSlot) : Prop :=
  ∀ n node, l.read slot = some (some n) → l.heap n = some node →
    node.left = none ∨ node.right = none

/-- The node a removal takes out has at most one child, and a clear gets its
iterator. -/
def RemovesOuterNode (s : BstState V) : BstCall V → Prop
  | .remove (some data) =>
      ∀ found, s.bst.bstFind data = some found → s.bst.HasOneChild found.1
  | .itrRemove => ∀ i, s.itr = some i → i.removed = false → s.bst.HasOneChild i.curr
  | .clear mem => mem = true ∨ s.bst.len = 0
  | _ => True

theorem hasOneChild_iff {l : Bst V} {c : List (Frame V)} {n : ℕ} {left right : NodeTree V}
    {value : V} (h : Represents l (plug c (.node n left value right))) :
    l.HasOneChild (slotOf c) ↔ left = .leaf ∨ right = .leaf := by
  have hread := h.read_slotOf
  have hnode := h.node_eq
  rw [HasOneChild]
  constructor
  · intro hall
    have hcase := hall n _ hread hnode
    simpa [NodeTree.ptr_eq_none] using hcase
  · intro hcase m node hm hmnode
    rw [hread, NodeTree.ptr_node, Option.some.injEq, Option.some.injEq] at hm
    subst hm
    rw [hnode, Option.some.injEq] at hmnode
    rw [← hmnode]
    simpa [NodeTree.ptr_eq_none] using hcase

/-- What is stored when the node at the hole of a context is out. -/
theorem removed_stored {l bst : Bst V} {c : List (Frame V)} {n : ℕ} {left right : NodeTree V}
    {value : V} (h : Represents l (plug c (.node n left value right)))
    (h' : Represents bst (plug c (removeRoot (.node n left value right)))) :
    l.stored.Perm (value :: bst.stored) ∧ ∀ x ∈ right.values, x ∈ bst.stored := by
  have hstored' : bst.stored = (before c).map Prod.snd ++ left.values ++
      (right.values ++ (after c).map Prod.snd) := by
    rw [h'.stored_eq, values_plug, values_removeRoot]
    simp
  rw [h.stored_eq, values_plug, NodeTree.values_node, hstored']
  refine ⟨?_, fun x hx => by simp [hx]⟩
  simp only [List.append_assoc, List.cons_append]
  rw [← List.append_assoc, ← List.append_assoc ((before c).map Prod.snd)]
  exact List.perm_middle

/-- The pointer that goes is the one taken out, if its node has at most one child. -/
theorem removed_right {l bst : Bst V} {order : V → V → ℤ} (horder : TotalPreorder order)
    {c : List (Frame V)} {n : ℕ} {left right : NodeTree V} {value w : V}
    (h : Represents l (plug c (.node n left value right)))
    (hsorted : Sorted order (plug c (.node n left value right)))
    (h' : Represents bst (plug c (removeRoot (.node n left value right))))
    (hone : left = .leaf ∨ right = .leaf → w = value)
    (htwo : left ≠ .leaf → right ≠ .leaf → right.values.head? = some w) :
    (w = value ∧ w ∉ bst.stored) ↔ l.HasOneChild (slotOf c) := by
  obtain ⟨hperm, hkept⟩ := removed_stored h h'
  have hnodup : (value :: bst.stored).Nodup := by
    rw [← hperm.nodup_iff, h.stored_eq]
    exact hsorted.nodup horder
  rw [hasOneChild_iff h]
  constructor
  · rintro ⟨_, hgone⟩
    by_contra hcon
    obtain ⟨hl, hr⟩ := not_or.mp hcon
    exact hgone (hkept w (List.mem_of_mem_head? (htwo hl hr)))
  · intro hcase
    rw [hone hcase]
    exact ⟨rfl, (List.nodup_cons.mp hnodup).1⟩

/-- Taking out the node at the hole of a context. -/
theorem removal_step {l : Bst V} {order : V → V → ℤ} (horder : TotalPreorder order)
    {c : List (Frame V)} {n : ℕ} {left right : NodeTree V} {value : V}
    (h : Represents l (plug c (.node n left value right)))
    (hsorted : Sorted order (plug c (.node n left value right))) (hdtor : l.dtor = true) :
    ∃ bst w, l.removeNode (slotOf c) = some (0, bst) ∧
      Represents bst (plug c (removeRoot (.node n left value right))) ∧
      bst.comp = l.comp ∧ bst.dtor = true ∧ bst.destroyed = l.destroyed ++ [w] ∧
      l.stored.Perm (value :: bst.stored) ∧
      ((w = value ∧ w ∉ bst.stored) ↔ l.HasOneChild (slotOf c)) := by
  obtain ⟨bst, w, hremove, hrep', hcomp', hdtor', hlog, hone, htwo⟩ := removeNode_spec h
  rw [afterDtor_eq hdtor] at hlog
  exact ⟨bst, w, hremove, hrep', hcomp', hdtor'.trans hdtor, hlog, (removed_stored h hrep').1,
    removed_right horder h hsorted hrep' hone htwo⟩

/-! ## One call -/

section Steps

variable {comp : V → V → ℤ} {s s' : BstState V} {t t' : NodeTree V} {call : BstCall V} {ret : ℤ}

theorem RunInvariant.stored_eq (h : RunInvariant comp true s t) : s.bst.stored = t.values :=
  h.represents.stored_eq

/-- A refused call leaves the ledger as it is, and takes out nothing. -/
theorem refused_destroysLeaving (h : RunInvariant comp true s t) (hcomp : TotalPreorder comp) (itr : Option BstItr)
    (hrefuse : Refuses comp s t call ret) :
    DestroysLeaving s call ret ⟨s.bst, itr⟩ ∧ RemovesOuterNode s call := by
  have hsame (hentered : call.entered ret = []) (hret : call.IsRemoval → ret ≠ 0) :
      DestroysLeaving s call ret ⟨s.bst, itr⟩ := by
    refine ⟨[], by simp, by simp [hentered], by simp, ?_⟩
    intro hremoval hzero
    exact absurd hzero (hret hremoval)
  cases call with
  | insert alloc data =>
      cases data with
      | none => exact ⟨hsame rfl (fun hr => hr.elim), trivial⟩
      | some x =>
          refine ⟨hsame ?_ (fun hr => hr.elim), trivial⟩
          rcases hrefuse with ⟨rfl, -⟩ | ⟨rfl, -⟩ <;> rfl
  | remove data =>
      cases data with
      | none =>
          obtain rfl : ret = -EINVAL := hrefuse
          exact ⟨hsame rfl (fun _ => by decide), trivial⟩
      | some x =>
          obtain ⟨hret, habsent⟩ := hrefuse
          refine ⟨hsame rfl (fun _ => ?_), ?_⟩
          · rcases hret with rfl | rfl <;> decide
          · -- the search ends at a leaf
            intro found hfound m node hm _
            obtain ⟨c, r, hfind, rfl, hread, -, hcase⟩ := h.search hcomp x
            rw [hfind, Option.some.injEq] at hfound
            rcases hcase with rfl | ⟨n, left, v, right, rfl, heq⟩
            · rw [← hfound, hread] at hm
              simp at hm
            · refine absurd heq (habsent v ?_)
              rw [values_plug]
              simp
  | itrNew mem => exact hrefuse.elim
  | itrNext => exact ⟨hsame rfl (fun hr => hr.elim), trivial⟩
  | itrRemove =>
      obtain ⟨rfl, hremoved⟩ := hrefuse
      refine ⟨hsame rfl (fun _ => by decide), fun i hi hlive => ?_⟩
      rw [hremoved i hi] at hlive
      cases hlive
  | clear mem =>
      obtain ⟨rfl, hlen⟩ := hrefuse
      exact ⟨hsame rfl (fun hr => hr.elim), .inr hlen⟩

/-- The node that a call takes out, as the call sees it. -/
theorem Takes.spec {c : List (Frame V)} {n : ℕ} {left right : NodeTree V} {v : V}
    (h : Represents s.bst (plug c (.node n left v right))) (htakes : Takes comp s c n v call) :
    call.IsRemoval ∧ call.entered 0 = [] ∧ call.target s = some v ∧
      (RemovesOuterNode s call ↔ s.bst.HasOneChild (slotOf c)) := by
  have hread := h.read_slotOf
  cases htakes with
  | remove x heq hfind =>
      refine ⟨trivial, rfl, ?_, ?_⟩
      · simp [BstCall.target, mBstFind, hfind, hread, h.node_eq]
      · simp [RemovesOuterNode, hfind]
  | itrRemove i hitr hlive hcurr =>
      refine ⟨trivial, rfl, ?_, ?_⟩
      · simp [BstCall.target, mBstItrGetData, hitr, hlive, hcurr, h.node_eq]
      · simp [RemovesOuterNode, hitr, hlive, HasOneChild, hcurr, hread]

/-- A removal destroys the pointer it takes out if its node has at most one child, and
else one that stays. -/
theorem removed_destroysLeaving {c : List (Frame V)} {n : ℕ} {left right : NodeTree V} {v w : V}
    {bst : Bst V} {itr : Option BstItr} (h : RunInvariant comp true s (plug c (.node n left v right)))
    (hcomp : TotalPreorder comp)
    (h' : RunInvariant comp true ⟨bst, itr⟩ (plug c (removeRoot (.node n left v right))))
    (htakes : Takes comp s c n v call) (hlog : bst.destroyed = s.bst.afterDtor w)
    (hone : left = .leaf ∨ right = .leaf → w = v)
    (htwo : left ≠ .leaf → right ≠ .leaf → right.values.head? = some w) :
    DestroysLeaving s call 0 ⟨bst, itr⟩ ↔ RemovesOuterNode s call := by
  obtain ⟨hremoval, hentered, htarget, hmeets⟩ := htakes.spec h.represents
  have hperm := (removed_stored h.represents h'.represents).1
  rw [afterDtor_eq h.dtor_eq] at hlog
  rw [hmeets, ← removed_right hcomp h.represents h.sorted h'.represents hone htwo]
  constructor
  · rintro ⟨log, heq, _, hgone, htaken⟩
    obtain ⟨x, hx, rfl⟩ := htaken hremoval rfl
    rw [htarget, Option.some.injEq] at hx
    rw [hlog, List.append_cancel_left_eq, List.cons.injEq] at heq
    refine ⟨heq.1.trans hx.symm, ?_⟩
    apply hgone
    simp [heq.1]
  · rintro ⟨rfl, hgone⟩
    refine ⟨[w], hlog, ?_, ?_, fun _ _ => ⟨w, htarget, rfl⟩⟩
    · rw [hentered]
      exact hperm
    · simpa using hgone

/-- Every outcome is right exactly when the call meets the condition. -/
theorem Outcome.step_iff (h : RunInvariant comp true s t) (hcomp : TotalPreorder comp)
    (h' : RunInvariant comp true s' t') (houtcome : Outcome comp s t call ret s' t') :
    DestroysLeaving s call ret s' ↔ RemovesOuterNode s call := by
  have hstored' := h'.stored_eq
  cases houtcome with
  | refused itr hrefuse =>
      obtain ⟨hdestroys, hmeets⟩ := refused_destroysLeaving h hcomp itr hrefuse
      exact iff_of_true hdestroys hmeets
  | itrNew mem itr =>
      exact iff_of_true ⟨[], by simp, by simp [BstCall.entered], by simp, fun hr => hr.elim⟩ trivial
  | itrNext itr =>
      exact iff_of_true ⟨[], by simp, by simp [BstCall.entered], by simp, fun hr => hr.elim⟩ trivial
  | inserted n hlocated hlog =>
      refine iff_of_true ⟨[], by simpa using hlog, ?_, by simp, fun hr => hr.elim⟩ trivial
      rw [h.stored_eq, hstored', values_plug, values_plug]
      simpa [BstCall.entered] using List.perm_middle.symm
  | removed w itr htakes hlog hone htwo =>
      exact removed_destroysLeaving h hcomp h' htakes hlog hone htwo
  | cleared hlog =>
      refine iff_of_true ⟨t.values, hlog h.dtor_eq, ?_, ?_, fun hr => hr.elim⟩ (.inl rfl)
      · rw [h.stored_eq, hstored']
        simp [BstCall.entered]
      · rw [hstored']
        simp

/-- A leak destroys nothing of what leaves the tree. -/
theorem LeaksNodes.not_destroysLeaving (h : RunInvariant comp true s t)
    (hleaks : LeaksNodes s call) :
    ¬ DestroysLeaving s call 0 ⟨{ s.bst with root := none }, none⟩ ∧ ¬ RemovesOuterNode s call := by
  obtain ⟨rfl, hlen⟩ := hleaks
  refine ⟨?_, ?_⟩
  · rintro ⟨log, hlog, hperm, -⟩
    have hnil : log = [] := List.append_right_eq_self.mp hlog.symm
    rw [hnil, stored_root_none, h.stored_eq] at hperm
    have hcount := hperm.length_eq
    rw [h.represents.len] at hlen
    simp [BstCall.entered, NodeTree.values] at hcount
    simp [hcount] at hlen
  · rintro (hmem | hzero)
    · cases hmem
    · omega

/-- What one call leaves: the invariant for some tree, and a log that is right
exactly when the condition on the call is met. -/
theorem call_destroysLeaving (h : RunInvariant comp true s t) (hcomp : TotalPreorder comp)
    (call : BstCall V) :
    ∃ ret s', call.exec s = some (ret, s') ∧
      (DestroysLeaving s call ret s' ↔ RemovesOuterNode s call) ∧
      (RemovesOuterNode s call → ∃ t', RunInvariant comp true s' t') := by
  by_cases hleaks : LeaksNodes s call
  · obtain ⟨hnot, hnotMeets⟩ := hleaks.not_destroysLeaving h
    exact ⟨0, _, exec_leaks hleaks, iff_of_false hnot hnotMeets,
      fun hmeets => absurd hmeets hnotMeets⟩
  · obtain ⟨ret, s', t', hexec, houtcome, h'⟩ := call_ends h hcomp call hleaks
    exact ⟨ret, s', hexec, houtcome.step_iff h hcomp h', fun _ => ⟨t', h'⟩⟩

end Steps

/-- A run, with all the pointers that entered the tree. -/
def runEntered : BstState V → List (BstCall V) → Option (List V × BstState V)
  | s, [] => some ([], s)
  | s, call :: calls => do
      let (ret, s') ← call.exec s
      let (entered, last) ← runEntered s' calls
      some (call.entered ret ++ entered, last)

/-! ## Runs -/

/-- The ledger of a run whose removals meet the condition. -/
theorem RunInvariant.ledger {comp : V → V → ℤ} (hcomp : TotalPreorder comp)
    {s : BstState V} {t : NodeTree V} (h : RunInvariant comp true s t) (calls : List (BstCall V))
    (hmeets : Meets BstCall.exec RemovesOuterNode s calls) :
    ∃ entered last, runEntered s calls = some (entered, last) ∧
      (entered ++ (s.bst.destroyed ++ s.bst.stored)).Perm
        (last.bst.destroyed ++ last.bst.stored) := by
  induction calls generalizing s t with
  | nil => exact ⟨[], s, rfl, List.Perm.refl _⟩
  | cons call calls ih =>
      obtain ⟨ret, s', hexec, hiff, hinv⟩ := call_destroysLeaving h hcomp call
      obtain ⟨t', h'⟩ := hinv hmeets.1
      obtain ⟨log, hlog, hstep, _⟩ := hiff.mpr hmeets.1
      simp only [Meets, hexec] at hmeets
      obtain ⟨entered, last, hrun, hperm⟩ := ih h' hmeets.2
      refine ⟨call.entered ret ++ entered, last, ?_, List.Perm.trans ?_ hperm⟩
      · simp [runEntered, hexec, hrun]
      · -- move the pointers of this step past those destroyed before it
        rw [hlog, List.append_assoc, List.append_assoc]
        refine (List.perm_append_comm_assoc _ _ _).trans (List.Perm.append_left _ ?_)
        refine (List.perm_append_comm_assoc _ _ _).trans (List.Perm.append_left _ ?_)
        exact hstep

/-- For every comparator that orders its elements and every run on a new tree,
each step destroys exactly what leaves the tree if and only if each removal
takes out a node with at most one child; and then, over the whole run, the
pointers that entered are those destroyed together with those stored. -/
theorem destroysLeaving_iff (comp : V → V → ℤ) (hcomp : TotalPreorder comp)
    (calls : List (BstCall V)) :
    (Always BstCall.exec DestroysLeaving (newState comp) calls ↔
      Meets BstCall.exec RemovesOuterNode (newState comp) calls) ∧
    (Meets BstCall.exec RemovesOuterNode (newState comp) calls → ∃ entered last,
      runEntered (newState comp) calls = some (entered, last) ∧
        entered.Perm (last.bst.destroyed ++ last.bst.stored)) := by
  refine ⟨always_iff_of_step (fun s => ∃ t, RunInvariant comp true s t) ?_ calls
    ⟨_, runInvariant_new comp true⟩, fun hcalls => ?_⟩
  · rintro s call ⟨t, h⟩
    exact call_destroysLeaving h hcomp call
  obtain ⟨entered, last, hrun, hperm⟩ := (runInvariant_new comp true).ledger hcomp calls hcalls
  refine ⟨entered, last, hrun, ?_⟩
  simpa [newState, mBstNew, stored, storedFrom] using hperm

theorem destroysLeaving_leaf :
    let calls : List (BstCall ℤ) :=
      [.insert (.firstFree 8) (some 2), .insert (.firstFree 8) (some 1), .remove (some 2)]
    (Always BstCall.exec DestroysLeaving (newState fun a b => a - b) calls ↔
      Meets BstCall.exec RemovesOuterNode (newState fun a b => a - b) calls) ∧
    (Meets BstCall.exec RemovesOuterNode (newState fun a b => a - b) calls → ∃ entered last,
      runEntered (newState fun a b => a - b) calls = some (entered, last) ∧
        entered.Perm (last.bst.destroyed ++ last.bst.stored)) :=
  destroysLeaving_iff _ totalPreorder_sub _

/-- Removing the root of a tree of three destroys the pointer of its
successor, which stays stored. -/
theorem not_destroysLeaving_two_children :
    ¬ Always BstCall.exec DestroysLeaving (newState fun a b : ℤ => a - b)
      [.insert (.firstFree 8) (some 2), .insert (.firstFree 8) (some 1), .insert (.firstFree 8) (some 3),
        .remove (some 2)] := by
  rintro ⟨_, _, _, ⟨log, hlog, _, hgone, _⟩, _⟩
  have hthree : log = [3] := hlog.symm
  apply hgone 3
  · rw [hthree]
    exact List.mem_singleton.mpr rfl
  · exact List.mem_cons_of_mem 1 List.mem_cons_self

end Bst
end Libmodule
