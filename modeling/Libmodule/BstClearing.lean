import Libmodule.BstIteration

/-!
# Clearing a tree

Each round of `m_bst_clear` removes the first node that is left, which has no left child: so
the node of the element itself is freed, and never that of its successor.
-/

namespace Libmodule
namespace Bst

open SearchTree

variable {V : Type} {l l' : Bst V} {t : NodeTree V}

/-- The node, and no other, is freed. -/
def Frees (l l' : Bst V) (n : ℕ) : Prop :=
  l.heap n ≠ none ∧ ∀ p, l'.heap p ≠ none ↔ l.heap p ≠ none ∧ p ≠ n

/-- The rounds of the loop of `m_bst_clear` until its iterator is gone, with the nodes that
they free. -/
inductive ClearRounds : Bst V → BstItr → List ℕ → Bst V → Prop where
  | last {l l' : Bst V} {i i' : BstItr} {n : ℕ}
      (hremove : l.mBstItrRemove (some i) = some (0, l', some i')) (hfrees : Frees l l' n)
      (hnext : l'.mBstItrNext (some i') = some (0, none)) : ClearRounds l i [n] l'
  | round {l l' last : Bst V} {i i' next : BstItr} {n : ℕ} {ns : List ℕ}
      (hremove : l.mBstItrRemove (some i) = some (0, l', some i')) (hfrees : Frees l l' n)
      (hnext : l'.mBstItrNext (some i') = some (0, some next))
      (hrest : ClearRounds l' next ns last) : ClearRounds l i (n :: ns) last

/-- A round frees the first node and leads to the one that follows. -/
theorem clearRound_spec {i : BstItr} {n : ℕ} {v : V} {rest : List (ℕ × V)}
    (h : Represents l t) (hnodes : t.nodes = (n, v) :: rest)
    (hitr : StandsAt l [] ((n, v) :: rest) (some i)) :
    ∃ l' t' i' next, l.mBstItrRemove (some i) = some (0, l', some i') ∧ Frees l l' n ∧
      Represents l' t' ∧ t'.nodes = rest ∧ l'.mBstItrNext (some i') = some (0, next) ∧
      StandsAt l' [] rest next := by
  obtain ⟨slot, hi, hread⟩ := hitr
  obtain rfl := Option.some.inj hi
  obtain ⟨l', t', hremove, hrep, hnodes', -, -, -⟩ :=
    mBstItrRemove_first (i := ⟨false, slot, none⟩) h hnodes rfl hread
  have hsplit : t'.nodes = [] ++ rest := hnodes'
  obtain ⟨next, hstep, hstands⟩ := itrStep_removed hrep hsplit
    (i := ⟨true, slot, none⟩) rfl rfl
  refine ⟨l', t', _, next, hremove, ?_, hrep, hnodes', by simp [mBstItrNext, hstep], hstands⟩
  have hids : t.ids = n :: t'.ids := by
    rw [NodeTree.ids, NodeTree.ids, hnodes, hnodes']
    rfl
  have hnodup := h.nodup
  rw [hids, List.nodup_cons] at hnodup
  have hlive : ∀ p, l.heap p ≠ none ↔ p = n ∨ p ∈ t'.ids := fun p => by
    rw [h.live p, hids, List.mem_cons]
  refine ⟨(hlive n).mpr (.inl rfl), fun p => ?_⟩
  rw [hrep.live p, hlive p]
  constructor
  · exact fun hp => ⟨.inr hp, fun hpn => hnodup.1 (hpn ▸ hp)⟩
  · exact fun hp => hp.1.resolve_left hp.2

/-- The rounds free the nodes of the tree, from left to right. -/
theorem clearRounds_spec {i : BstItr} {n : ℕ} {v : V} {rest : List (ℕ × V)}
    (h : Represents l t) (hnodes : t.nodes = (n, v) :: rest)
    (hitr : StandsAt l [] ((n, v) :: rest) (some i)) :
    ∃ last, ClearRounds l i t.ids last := by
  induction rest generalizing l t i n v with
  | nil =>
      obtain ⟨l', t', i', next, hremove, hfrees, -, -, hnext, hstands⟩ :=
        clearRound_spec h hnodes hitr
      have hnone : next = none := hstands
      rw [NodeTree.ids, hnodes]
      exact ⟨l', .last hremove hfrees (hnone ▸ hnext)⟩
  | cons y rest ih =>
      obtain ⟨l', t', i', next, hremove, hfrees, hrep, hnodes', hnext, hstands⟩ :=
        clearRound_spec h hnodes hitr
      obtain ⟨m, w⟩ := y
      obtain ⟨slot, rfl, -⟩ := id hstands
      obtain ⟨last, hrest⟩ := ih hrep hnodes' hstands
      have hids : t.ids = n :: t'.ids := by
        rw [NodeTree.ids, NodeTree.ids, hnodes, hnodes']
        rfl
      rw [hids]
      exact ⟨last, .round hremove hfrees hnext hrest⟩

/-- Every element goes to the destructor once, in increasing order, and every node is freed
once. -/
structure ClearsTree (comp : V → V → ℤ) (mem : Bool) (l : Bst V) : Prop where
  cleared : ∃ l', l.mBstClear mem = some (0, l') ∧ l'.len = 0 ∧ l'.root = none ∧
    l'.destroyed = l.destroyed ++ l.stored
  increasing : l.stored.Pairwise (fun a b => comp a b < 0)
  freed : ∃ i ns last, l.mBstItrNew mem = some (some i) ∧ ClearRounds l i ns last ∧
    ns.Nodup ∧ ∀ n, n ∈ ns ↔ l.heap n ≠ none

/-- A tree that is not empty is cleared if and only if there is memory for the iterator. -/
theorem clearsTree_iff (comp : V → V → ℤ) (mem : Bool) (l : Bst V) (t : NodeTree V)
    (h : Represents l t) (hsorted : Sorted comp t) (hne : t ≠ .leaf) (hdtor : l.dtor = true) :
    ClearsTree comp mem l ↔ mem = true := by
  have hstored := h.stored_eq
  obtain ⟨n, v, rest, hnodes⟩ : ∃ n v rest, t.nodes = (n, v) :: rest := by
    cases hnodes : t.nodes with
    | nil => cases t <;> simp at hnodes hne
    | cons p rest => exact ⟨p.1, p.2, rest, rfl⟩
  have hlen : l.len = rest.length + 1 := by rw [h.len, hnodes]; rfl
  cases mem with
  | false =>
      refine iff_of_false (fun hclears => ?_) (by simp)
      obtain ⟨l', hclear, hzero, -⟩ := hclears.cleared
      simp only [mBstClear, mBstItrNew, hlen, gt_iff_lt, Nat.zero_lt_succ, if_true] at hclear
      obtain rfl : { l with root := none } = l' := by simpa using hclear
      exact absurd (hlen.symm.trans hzero) (Nat.succ_ne_zero _)
  | true =>
      refine iff_of_true ?_ rfl
      obtain ⟨first, hfirst, m, hread, hhead, -⟩ := first_valid h hne
      have hnew : l.mBstItrNew true = some (some ⟨false, first, none⟩) := by
        simp [mBstItrNew, hlen, hfirst]
      rw [hnodes] at hhead
      obtain rfl : n = m := Option.some.inj hhead
      refine ⟨?_, by rw [hstored]; exact hsorted, ?_⟩
      · obtain ⟨l', hclear, hrep, -, -, hlog⟩ := clearFrom_spec l.len
          (i := ⟨false, first, none⟩) h hne h.len.ge rfl rfl (by rw [hread, hnodes]; rfl)
        refine ⟨{ l' with root := none }, ?_, hrep.len, rfl, ?_⟩
        · rw [mBstClear, if_pos (by omega), hnew]
          simp [hclear]
        · rw [hstored]
          exact hlog hdtor
      · obtain ⟨last, hrounds⟩ := clearRounds_spec (i := ⟨false, first, none⟩) h hnodes
          ⟨first, rfl, hread⟩
        exact ⟨_, t.ids, last, hnew, hrounds, h.nodup, fun p => (h.live p).symm⟩

/-- The tree of three nodes with a destructor. -/
def ownedNodes : Bst ℤ := { threeNodes with dtor := true }

theorem clearsTree_iff_ownedNodes :
    ClearsTree (fun a b => a - b) true ownedNodes ↔ true = true :=
  clearsTree_iff _ true ownedNodes (.node 0 (.node 1 .leaf 1 .leaf) 2 (.node 2 .leaf 3 .leaf))
    ⟨represents_threeNodes.root, represents_threeNodes.holds, represents_threeNodes.nodup,
      represents_threeNodes.live, represents_threeNodes.len⟩ (by simp [Sorted]) (by simp) rfl

/-- Without memory for the iterator the tree is dropped, and its length stays. -/
theorem not_clearsTree_ownedNodes : ¬ ClearsTree (fun a b => a - b) false ownedNodes := by
  intro h
  obtain ⟨l', hclear, hzero, -⟩ := h.cleared
  obtain rfl : { ownedNodes with root := none } = l' :=
    (Prod.mk.inj (Option.some.inj hclear)).2
  cases hzero

end Bst
end Libmodule
