import Libmodule.ListRepresentation
import Mathlib.Algebra.Order.Group.Multiset
import Mathlib.Tactic.Abel

/-!
# Editing a list while iterating

An iterator stands between the nodes it has passed and those it has still to
reach; what is inserted and removed through it changes the latter.  The step to
the next node goes right as long as no inserted node is left before a current one
that stays, and the current one is not taken for one that stays when it is gone.
-/

namespace Libmodule

open LinkedChain

/-- A call of `m_list_itr_insert` or `m_list_itr_remove`. -/
inductive ListEdit (V : Type) where
  | insert (value : Option V) (mem : Bool)
  | remove

/-- A list during an iteration, with the nodes that were inserted, those that were removed,
and those that were current, at first and after each step. -/
structure ListWalk (V : Type) where
  list : MList V
  itr : Option ListItr
  inserted : List (ℕ × V)
  removed : List (ℕ × V)
  visits : List ℕ

namespace ListWalk

variable {V : Type}

/-- The current node. -/
def current (w : ListWalk V) : Option ℕ := (w.itr.bind fun i => w.list.read i.elem).join

def currentEntry (w : ListWalk V) : Option (ℕ × V) := do
  let n ← w.current
  let node ← w.list.heap n
  some (n, node.userptr)

def edit (w : ListWalk V) : ListEdit V → Option (ListWalk V)
  | .insert value mem => do
      let (ret, l, itr) ← w.list.mListItrInsert w.itr value mem
      let w' := { w with list := l, itr := itr }
      -- the new node is the current one
      some { w' with
        inserted := if ret = 0 then w.inserted ++ w'.currentEntry.toList else w.inserted }
  | .remove => do
      let (ret, l, itr) ← w.list.mListItrRemove w.itr
      some { w with
        list := l
        itr := itr
        removed := if ret = 0 then w.removed ++ w.currentEntry.toList else w.removed }

def edits (w : ListWalk V) : List (ListEdit V) → Option (ListWalk V)
  | [] => some w
  | e :: es => do
      let w ← w.edit e
      edits w es

def next (w : ListWalk V) : Option (ListWalk V) := do
  let (_, itr) ← w.list.mListItrNext w.itr
  let w' := { w with itr := itr }
  some { w' with visits := w.visits ++ w'.current.toList }

def start (l : MList V) : ListWalk V :=
  let w : ListWalk V := ⟨l, l.mListItrNew true, [], [], []⟩
  { w with visits := w.current.toList }

/-- After `n` steps, with the edits of the script at each position. -/
def walk (script : ℕ → List (ListEdit V)) (w : ListWalk V) : ℕ → Option (ListWalk V)
  | 0 => some w
  | n + 1 => do
      let w ← walk script w n
      let w ← w.edits (script n)
      w.next

/-- The iteration over the nodes `nodes`, all older than `old`, is over: each one that was not
removed was current once, and the list is the old one but for what was inserted and removed. -/
structure Iterated (old : ℕ) (nodes : List (ℕ × V)) (w : ListWalk V) : Prop where
  ended : w.itr = none
  once : ∀ n ∈ addresses nodes, n ∉ addresses w.removed → w.visits.count n = 1
  final : ∃ es, w.list.Represents es ∧
    es.filter (fun x => x.1 < old) = nodes.filter (fun x => x.1 ∉ addresses w.removed) ∧
    (es : Multiset (ℕ × V)) + w.removed = nodes + w.inserted

/-- When the iterator goes on, a current node that is still in the list is still the current
one, and if the current node is gone, `diff` tells so unless an inserted node is in its
place.  Only the nodes that are older than `old` matter. -/
def InStep (w : ListWalk V) (old : ℕ) (edits : List (ListEdit V)) : Prop :=
  ∀ w' c, w.edits edits = some w' → w.current = some c →
    (c < old → w'.list.heap c ≠ none → w'.current = some c) ∧
      (w'.list.heap c = none → ∀ d i, w'.current = some d → d < old → w'.itr = some i →
        i.diff < 0)

/-- No node that was inserted at this position is left when the iterator goes on. -/
def TakesBack (w : ListWalk V) (edits : List (ListEdit V)) : Prop :=
  ∀ w', w.edits edits = some w' → ∀ n, w.list.created ≤ n → n < w'.list.created →
    w'.list.heap n = none

/-! ## Edits at one position -/

/-- The iterator has passed the nodes `before`; the nodes `after` come next. -/
structure At (w : ListWalk V) (before after : List (ℕ × V)) (diff : ℤ) : Prop where
  rep : w.list.Represents (before ++ after)
  itr : w.itr = some ⟨MList.slotOf (addresses before), diff⟩

variable {w w₀ w' : ListWalk V} {before after ins gone left : List (ℕ × V)} {diff diff₀ : ℤ}

theorem At.current_eq (h : w.At before after diff) : w.current = (addresses after).head? := by
  simp [current, h.itr, h.rep.read_slotOf]

theorem At.currentEntry_eq (h : w.At before after diff) : w.currentEntry = after.head? := by
  rw [currentEntry, h.current_eq]
  cases after with
  | nil => rfl
  | cons x after =>
      obtain ⟨n, v⟩ := x
      obtain ⟨next, hnode⟩ := h.rep.allocated (List.mem_append_right before List.mem_cons_self)
      simp [hnode]

/-- What an edit does to the nodes that come next, and to the records of the walk. -/
inductive Edited (w w' : ListWalk V) (after : List (ℕ × V)) (diff : ℤ) :
    List (ℕ × V) → ℤ → Prop where
  | refused {diff' : ℤ} (hdiff : diff ≤ diff') (hcreated : w'.list.created = w.list.created)
      (hinserted : w'.inserted = w.inserted) (hremoved : w'.removed = w.removed) :
      Edited w w' after diff after diff'
  | inserted (x : ℕ × V) (hx : x.1 = w.list.created) (hcreated : w'.list.created = x.1 + 1)
      (hinserted : w'.inserted = w.inserted ++ [x]) (hremoved : w'.removed = w.removed) :
      Edited w w' after diff (x :: after) (diff + 1)
  | removed {x : ℕ × V} {rest : List (ℕ × V)} (hafter : after = x :: rest)
      (hcreated : w'.list.created = w.list.created) (hinserted : w'.inserted = w.inserted)
      (hremoved : w'.removed = w.removed ++ [x]) : Edited w w' after diff rest (diff - 1)

theorem At.edit (h : w.At before after diff) (e : ListEdit V) :
    ∃ w' after' diff', w.edit e = some w' ∧ w'.At before after' diff' ∧ w'.visits = w.visits ∧
      Edited w w' after diff after' diff' := by
  have hitr := h.itr
  have hread := h.rep.read_slotOf
  cases e with
  | insert value mem =>
      cases value with
      | none =>
          refine ⟨w, after, diff, ?_, h, rfl, .refused le_rfl rfl rfl rfl⟩
          simp only [ListWalk.edit, MList.mListItrInsert, hitr, Option.bind_eq_bind,
            Option.bind_some]
          rw [if_neg (by decide), ← hitr]
      | some v =>
          cases mem with
          | false =>
              refine ⟨{ w with itr := some ⟨MList.slotOf (addresses before), diff + 1⟩ }, after,
                diff + 1, ?_, ⟨h.rep, rfl⟩, rfl, .refused (by omega) rfl rfl rfl⟩
              simp [ListWalk.edit, MList.mListItrInsert, MList.insertNode, hitr, ENOMEM]
          | true =>
              obtain ⟨l', hinsert, hrep', hcreated, -⟩ := MList.insertNode_spec h.rep v
              have hplace : At { w with
                  list := l'
                  itr := some ⟨MList.slotOf (addresses before), diff + 1⟩ } before
                  ((w.list.created, v) :: after) (diff + 1) := ⟨hrep', rfl⟩
              refine ⟨{ w with
                  list := l'
                  itr := some ⟨MList.slotOf (addresses before), diff + 1⟩
                  inserted := w.inserted ++ [(w.list.created, v)] }, _, _, ?_, ⟨hrep', rfl⟩, rfl,
                .inserted (w.list.created, v) rfl hcreated rfl rfl⟩
              simp [ListWalk.edit, MList.mListItrInsert, hitr, hinsert, hplace.currentEntry_eq]
  | remove =>
      cases after with
      | nil =>
          refine ⟨w, [], diff, ?_, h, rfl, .refused le_rfl rfl rfl rfl⟩
          simp only [ListWalk.edit, MList.mListItrRemove, hitr, hread, addresses_nil,
            List.head?_nil, Option.bind_eq_bind, Option.bind_some]
          rw [if_neg (by decide), ← hitr]
      | cons x rest =>
          obtain ⟨l', hremove, hrep', hcreated, -⟩ := MList.removeNode_spec h.rep
          refine ⟨{ w with
              list := l'
              itr := some ⟨MList.slotOf (addresses before), diff - 1⟩
              removed := w.removed ++ [x] }, rest, diff - 1, ?_, ⟨hrep', rfl⟩, rfl,
            .removed rfl hcreated rfl rfl⟩
          obtain ⟨n, v⟩ := x
          simp [ListWalk.edit, MList.mListItrRemove, hitr, hread, hremove, h.currentEntry_eq]

/-- Between two steps: of the nodes `after`, the nodes `gone` have been removed, and the nodes
`ins` stand before the others. -/
structure Editing (w₀ w : ListWalk V) (before after ins gone left : List (ℕ × V))
    (diff : ℤ) : Prop where
  place : w.At before (ins ++ left) diff
  split : after = gone ++ left
  diff : (ins.length : ℤ) ≤ diff + gone.length
  fresh : ∀ n ∈ addresses ins, w₀.list.created ≤ n
  created : w₀.list.created ≤ w.list.created
  visits : w.visits = w₀.visits
  removed : ∃ rs, w.removed = w₀.removed ++ rs ∧ (∀ x ∈ gone, x ∈ rs) ∧
    ∀ x ∈ rs, x ∈ gone ∨ w₀.list.created ≤ x.1
  account : (ins : Multiset (ℕ × V)) + left + w.removed + w₀.inserted =
    after + w₀.removed + w.inserted

theorem Editing.edit (h : Editing w₀ w before after ins gone left diff) (e : ListEdit V) :
    ∃ w' ins' gone' left' diff', w.edit e = some w' ∧
      Editing w₀ w' before after ins' gone' left' diff' := by
  obtain ⟨w', rest, diff', hedit, hplace, hvisits, hedited⟩ := h.place.edit e
  obtain ⟨rs, hrs, hgone, hback⟩ := h.removed
  have hdiff := h.diff
  have haccount := h.account
  cases hedited with
  | refused hle hcreated hinserted hremoved =>
      refine ⟨w', ins, gone, left, diff', hedit, hplace, h.split, by omega, h.fresh,
        hcreated ▸ h.created, hvisits.trans h.visits, ⟨rs, hremoved.trans hrs, hgone, hback⟩, ?_⟩
      rw [hremoved, hinserted, haccount]
  | inserted x hx hcreated hinserted hremoved =>
      refine ⟨w', x :: ins, gone, left, _, hedit, hplace, h.split, ?_, ?_, ?_,
        hvisits.trans h.visits, ⟨rs, hremoved.trans hrs, hgone, hback⟩, ?_⟩
      · simp only [List.length_cons]
        omega
      · intro n hn
        rcases List.mem_cons.mp hn with rfl | hn
        · exact hx ▸ h.created
        · exact h.fresh n hn
      · have := h.created
        omega
      · rw [hremoved, hinserted, ← Multiset.coe_add, ← add_assoc, ← haccount,
          ← Multiset.cons_coe, ← Multiset.singleton_add, Multiset.coe_singleton]
        abel
  | @removed x _ hafter hcreated hinserted hremoved =>
      have hx : (([x] : List (ℕ × V)) : Multiset (ℕ × V)) = {x} := Multiset.coe_singleton x
      cases ins with
      | nil =>
          -- the first of the nodes that come next is removed
          obtain rfl : left = x :: rest := hafter
          refine ⟨w', [], gone ++ [x], rest, _, hedit, hplace, by simp [h.split], ?_, nofun,
            hcreated ▸ h.created, hvisits.trans h.visits, ⟨rs ++ [x], ?_, ?_, ?_⟩, ?_⟩
          · simp only [List.length_nil, List.length_append, List.length_singleton] at hdiff ⊢
            push_cast
            omega
          · rw [hremoved, hrs, List.append_assoc]
          · intro y hy
            rw [List.mem_append] at hy ⊢
            exact hy.imp_left (hgone y)
          · intro y hy
            rcases List.mem_append.mp hy with hy | hy
            · exact (hback y hy).imp_left (List.mem_append_left _)
            · exact .inl (List.mem_append_right _ hy)
          · rw [hremoved, hinserted, ← haccount, ← Multiset.coe_add, hx, ← Multiset.cons_coe x rest,
              ← Multiset.singleton_add]
            abel
      | cons y ins =>
          -- a node that was inserted here is removed again
          obtain ⟨rfl, rfl⟩ := List.cons.inj hafter
          refine ⟨w', ins, gone, left, _, hedit, hplace, h.split, ?_,
            fun n hn => h.fresh n (List.mem_cons_of_mem _ hn), hcreated ▸ h.created,
            hvisits.trans h.visits, ⟨rs ++ [y], ?_, ?_, ?_⟩, ?_⟩
          · simp only [List.length_cons] at hdiff
            push_cast at hdiff
            omega
          · rw [hremoved, hrs, List.append_assoc]
          · exact fun z hz => List.mem_append_left _ (hgone z hz)
          · intro z hz
            rcases List.mem_append.mp hz with hz | hz
            · exact hback z hz
            · rw [List.mem_singleton.mp hz]
              exact .inr (h.fresh y.1 List.mem_cons_self)
          · rw [hremoved, hinserted, ← haccount, ← Multiset.coe_add, hx, ← Multiset.cons_coe y ins,
              ← Multiset.singleton_add]
            abel

theorem Editing.edits (h : Editing w₀ w before after ins gone left diff)
    (es : List (ListEdit V)) :
    ∃ w' ins' gone' left' diff', w.edits es = some w' ∧
      Editing w₀ w' before after ins' gone' left' diff' := by
  induction es generalizing w ins gone left diff with
  | nil => exact ⟨w, ins, gone, left, diff, rfl, h⟩
  | cons e es ih =>
      obtain ⟨w₁, ins₁, gone₁, left₁, diff₁, hedit, h₁⟩ := h.edit e
      obtain ⟨w', ins', gone', left', diff', hedits, h'⟩ := ih h₁
      exact ⟨w', ins', gone', left', diff', by simp [ListWalk.edits, hedit, hedits], h'⟩

theorem editing_self (h : w.At before after 0) : Editing w w before after [] [] after 0 where
  place := h
  split := rfl
  diff := le_rfl
  fresh := nofun
  created := le_rfl
  visits := rfl
  removed := ⟨[], (List.append_nil _).symm, nofun, nofun⟩
  account := by rw [Multiset.coe_nil, zero_add]

/-! ## The step to the next node -/

/-- What the step passes of the nodes that come next. -/
def passes (after : List (ℕ × V)) (diff : ℤ) : List (ℕ × V) :=
  if 0 ≤ diff then after.take 1 else []

def comes (after : List (ℕ × V)) (diff : ℤ) : List (ℕ × V) :=
  if 0 ≤ diff then after.drop 1 else after

theorem passes_append_comes (after : List (ℕ × V)) (diff : ℤ) :
    passes after diff ++ comes after diff = after := by
  unfold passes comes
  split
  next => exact List.take_append_drop 1 after
  next => rfl

/-- The walk after a step, at the nodes `after` or at the end. -/
def stepped (w : ListWalk V) (before after : List (ℕ × V)) : ListWalk V :=
  { w with
    itr := if after = [] then none else some ⟨MList.slotOf (addresses before), 0⟩
    visits := w.visits ++ (addresses after).head?.toList }

@[simp] theorem stepped_list (w : ListWalk V) (before after : List (ℕ × V)) :
    (w.stepped before after).list = w.list := rfl

@[simp] theorem stepped_inserted (w : ListWalk V) (before after : List (ℕ × V)) :
    (w.stepped before after).inserted = w.inserted := rfl

@[simp] theorem stepped_removed (w : ListWalk V) (before after : List (ℕ × V)) :
    (w.stepped before after).removed = w.removed := rfl

@[simp] theorem stepped_visits (w : ListWalk V) (before after : List (ℕ × V)) :
    (w.stepped before after).visits = w.visits ++ (addresses after).head?.toList := rfl

theorem At.next (h : w.At before after diff) :
    w.next = some (w.stepped (before ++ passes after diff) (comes after diff)) := by
  have hitr := h.itr
  have hread := h.rep.read_slotOf
  cases after with
  | nil => simp [ListWalk.next, MList.mListItrNext, hitr, hread, ListWalk.stepped, comes, current]
  | cons x rest =>
      obtain ⟨n, v⟩ := x
      by_cases hdiff : 0 ≤ diff
      · have hrep : w.list.Represents ((before ++ [(n, v)]) ++ rest) := by
          rw [List.append_assoc]
          exact h.rep
        have hslot : MList.slotOf (addresses (before ++ [(n, v)])) = .next n := by
          rw [addresses_append, addresses_cons, addresses_nil, MList.slotOf_concat]
        have hread' := hrep.read_slotOf
        rw [hslot] at hread'
        cases rest with
        | nil =>
            simp [ListWalk.next, MList.mListItrNext, hitr, hread, hread', ListWalk.stepped, comes,
              current, hdiff]
        | cons y rest =>
            obtain ⟨m, u⟩ := y
            have hslot' : MList.slotOf (addresses before ++ [n]) = .next n :=
              MList.slotOf_concat _ _
            simp [ListWalk.next, MList.mListItrNext, hitr, hread, hread', hslot', ListWalk.stepped, passes,
              comes, current, hdiff]
      · simp [ListWalk.next, MList.mListItrNext, hitr, hread, ListWalk.stepped, passes, comes, current,
          hdiff]
/-! ## One position after the other -/

/-- The nodes `before` have been current, the first of the nodes `after` is, and the others
are still to come. -/
structure Passing (old : ℕ) (nodes : List (ℕ × V)) (w : ListWalk V)
    (before after : List (ℕ × V)) : Prop where
  place : w.At before after 0
  young : old ≤ w.list.created
  passed : ∀ n ∈ addresses before, n < old → w.visits.count n = 1
  here : ∀ n ∈ (addresses after).head?, n < old → w.visits.count n = 1
  ahead : ∀ n ∈ addresses after.tail, n < old → w.visits.count n = 0
  kept : (before ++ after).filter (fun x => x.1 < old) =
    nodes.filter (fun x => x.1 ∉ addresses w.removed)
  account : (before : Multiset (ℕ × V)) + after + w.removed = nodes + w.inserted

variable {old : ℕ} {nodes : List (ℕ × V)}

/-- What is left of the old nodes after the edits at a position. -/
theorem Editing.kept (h : Editing w₀ w before after ins gone left diff)
    (hold : old ≤ w₀.list.created) (hnodup : (addresses (before ++ after)).Nodup)
    (hkept : (before ++ after).filter (fun x => x.1 < old) =
      nodes.filter (fun x => x.1 ∉ addresses w₀.removed)) :
    (before ++ (ins ++ left)).filter (fun x => x.1 < old) =
      nodes.filter (fun x => x.1 ∉ addresses w.removed) := by
  obtain ⟨rs, hrs, hgone, hback⟩ := h.removed
  obtain rfl := h.split
  simp only [addresses_append] at hnodup
  -- an old node that is still there is none of those removed at this position
  have hout : ∀ n, n < old → n ∈ addresses before ∨ n ∈ addresses left → n ∉ addresses rs := by
    intro n hn hmem hrem
    obtain ⟨x, hx, rfl⟩ := List.mem_map.mp hrem
    rcases hback x hx with hxgone | hnew
    · have hx' : x.1 ∈ addresses gone := List.mem_map_of_mem hxgone
      rw [List.nodup_append, List.nodup_append] at hnodup
      rcases hmem with hmem | hmem
      · exact hnodup.2.2 x.1 hmem x.1 (List.mem_append_left _ hx') rfl
      · exact hnodup.2.1.2.2 x.1 hx' x.1 hmem rfl
    · omega
  have hkeep : ∀ xs : List (ℕ × V), (∀ x ∈ xs, x.1 < old → x.1 ∉ addresses rs) →
      (xs.filter (fun x => x.1 < old)).filter (fun x => x.1 ∉ addresses rs) =
        xs.filter (fun x => x.1 < old) := by
    intro xs hxs
    rw [List.filter_eq_self]
    intro x hx
    simp only [List.mem_filter, decide_eq_true_eq] at hx ⊢
    exact hxs x hx.1 hx.2
  have hins : ins.filter (fun x => x.1 < old) = [] := by
    rw [List.filter_eq_nil_iff]
    intro x hx
    have hfresh := h.fresh x.1 (List.mem_map_of_mem hx)
    simp only [decide_eq_true_eq]
    omega
  have hnone : (gone.filter (fun x => x.1 < old)).filter (fun x => x.1 ∉ addresses rs) = [] := by
    rw [List.filter_eq_nil_iff]
    intro x hx
    have hmem : x.1 ∈ addresses rs := List.mem_map_of_mem (hgone x (List.mem_filter.mp hx).1)
    simp [hmem]
  calc
    (before ++ (ins ++ left)).filter (fun x => x.1 < old) =
        ((before ++ (gone ++ left)).filter (fun x => x.1 < old)).filter
          (fun x => x.1 ∉ addresses rs) := by
      rw [List.filter_append, List.filter_append, List.filter_append, List.filter_append, hins,
        List.filter_append, List.filter_append, hnone,
        hkeep before fun x hx hn => hout x.1 hn (.inl (List.mem_map_of_mem hx)),
        hkeep left fun x hx hn => hout x.1 hn (.inr (List.mem_map_of_mem hx))]
    _ = nodes.filter (fun x => x.1 ∉ addresses w.removed) := by
      rw [hkept, List.filter_filter, hrs]
      congr 1
      funext x
      simp [and_comm]

/-- An old node that the next step passes has been the current one, and an old node that is
still to come is none of the former. -/
theorem Editing.inStep {c : ℕ} {v : V} {rest : List (ℕ × V)}
    (h : Editing w₀ w before ((c, v) :: rest) ins gone left diff)
    (hold : old ≤ w₀.list.created) (hnodup : (addresses (before ++ (c, v) :: rest)).Nodup)
    (hstays : c < old → w.list.heap c ≠ none → w.current = some c)
    (hgone : w.list.heap c = none → ∀ d i, w.current = some d → d < old → w.itr = some i →
      i.diff < 0) :
    (∀ n ∈ addresses (passes (ins ++ left) diff), n < old → n = c) ∧
      ∀ n ∈ addresses (comes (ins ++ left) diff), n < old → n ∈ addresses rest := by
  have hdiff := h.diff
  have hsplit := h.split
  have hcurrent := h.place.current_eq
  have hyoung : ∀ n ∈ addresses ins, ¬ n < old := fun n hn => by
    have hfresh := h.fresh n hn
    omega
  rw [addresses_append, List.nodup_append] at hnodup
  have hc : c ∉ addresses before ∧ c ∉ addresses rest :=
    ⟨fun hmem => hnodup.2.2 c hmem c List.mem_cons_self rfl, (List.nodup_cons.mp hnodup.2.1).1⟩
  constructor
  · intro n hn hlt
    unfold passes at hn
    split at hn
    case isFalse => simp at hn
    case isTrue hpos =>
      cases ins with
      | cons y ins =>
          obtain ⟨m, u⟩ := y
          have hm : n = m := by simpa using hn
          exact absurd hlt (hyoung n (hm ▸ List.mem_cons_self))
      | nil =>
          cases gone with
          | nil =>
              rw [← hsplit] at hn
              simpa using hn
          | cons g gone =>
              have hrest : rest = gone ++ left := (List.cons.inj hsplit).2
              subst hrest
              cases left with
              | nil => simp at hn
              | cons d left =>
                  obtain ⟨m, u⟩ := d
                  obtain rfl : n = m := by simpa using hn
                  -- the current node is gone, so `diff` is negative
                  have hnone : w.list.heap c = none := by
                    by_contra hsome
                    have hmem := (h.place.rep.heap_iff c).mp hsome
                    rw [List.nil_append, addresses_append, List.mem_append] at hmem
                    rcases hmem with hmem | hmem
                    · exact hc.1 hmem
                    · exact hc.2 (by rw [addresses_append]; exact List.mem_append_right _ hmem)
                  have hneg := hgone hnone n _ hcurrent hlt h.place.itr
                  simp only at hneg
                  omega
  · intro n hn hlt
    have hleft : n ∈ addresses left := by
      have hmem : n ∈ addresses (ins ++ left) := by
        rw [← passes_append_comes (ins ++ left) diff, addresses_append]
        exact List.mem_append_right _ hn
      rw [addresses_append, List.mem_append] at hmem
      exact hmem.resolve_left fun hins => hyoung n hins hlt
    cases gone with
    | cons g gone =>
        have hrest : rest = gone ++ left := (List.cons.inj hsplit).2
        rw [hrest, addresses_append]
        exact List.mem_append_right _ hleft
    | nil =>
        obtain rfl : (c, v) :: rest = left := hsplit
        rcases List.mem_cons.mp hleft with rfl | hrest
        · -- the current node stays, and is passed
          have hsome : w.list.heap n ≠ none := by
            rw [h.place.rep.heap_iff]
            simp
          have hhead := hstays hlt hsome
          rw [hcurrent] at hhead
          cases ins with
          | nil =>
              have hpos : 0 ≤ diff := by simpa using hdiff
              rw [comes, if_pos hpos] at hn
              exact hn
          | cons y ins =>
              obtain ⟨m, u⟩ := y
              have hm : m = n := by simpa using hhead
              exact absurd hlt (hm ▸ hyoung m List.mem_cons_self)
        · exact hrest

/-- A position at which the iterator stays in step. -/
theorem Passing.round {c : ℕ} {v : V} {rest : List (ℕ × V)}
    (h : Passing old nodes w before ((c, v) :: rest)) {es : List (ListEdit V)}
    (hstep : w.InStep old es) :
    ∃ w₁ w' before' after', w.edits es = some w₁ ∧ w₁.next = some w' ∧
      (after' = [] → Iterated old nodes w') ∧
      (after' ≠ [] → Passing old nodes w' before' after') ∧
      (w.TakesBack es → after'.length < rest.length + 1) := by
  obtain ⟨w₁, ins, gone, left, diff, hedits, hE⟩ := (editing_self h.place).edits es
  have hnodup := h.place.rep.nodup
  obtain ⟨hstays, hgone⟩ := hstep w₁ c hedits h.place.current_eq
  obtain ⟨hpassed, hcomes⟩ := hE.inStep h.young hnodup hstays hgone
  have hkept := hE.kept h.young hnodup h.kept
  have haccount : (before : Multiset (ℕ × V)) + (ins ++ left : List (ℕ × V)) + w₁.removed =
      nodes + w₁.inserted := by
    apply add_right_cancel (b := (w.inserted : Multiset (ℕ × V)))
    calc
      (before : Multiset (ℕ × V)) + (ins ++ left : List (ℕ × V)) + w₁.removed + w.inserted =
          before + (ins + left + w₁.removed + w.inserted) := by
        rw [← Multiset.coe_add]
        abel
      _ = before + ((c, v) :: rest : List (ℕ × V)) + w.removed + w₁.inserted := by
        rw [hE.account]
        abel
      _ = nodes + w₁.inserted + w.inserted := by
        rw [h.account]
        abel
  have hrep := hE.place.rep
  have hvisits := hE.visits
  have hnext := hE.place.next
  have hsplit := passes_append_comes (ins ++ left) diff
  -- the step divides what comes next in two
  generalize hps : passes (ins ++ left) diff = ps at hpassed hnext hsplit
  generalize hcs : comes (ins ++ left) diff = cs at hcomes hnext hsplit
  rw [← hsplit, ← List.append_assoc] at hrep hkept
  rw [← hsplit, ← Multiset.coe_add, ← add_assoc, Multiset.coe_add] at haccount
  have hbefore : ∀ n ∈ addresses (before ++ ps), n < old → w₁.visits.count n = 1 := by
    intro n hn hlt
    rw [addresses_append, List.mem_append] at hn
    rw [hvisits]
    rcases hn with hn | hn
    · exact h.passed n hn hlt
    · exact h.here n (by simp [hpassed n hn hlt]) hlt
  have hafter : ∀ n ∈ addresses cs, n < old → w₁.visits.count n = 0 := by
    intro n hn hlt
    rw [hvisits]
    exact h.ahead n (hcomes n hn hlt) hlt
  have hnodup' := hrep.nodup
  rw [addresses_append, List.nodup_append] at hnodup'
  refine ⟨w₁, w₁.stepped (before ++ ps) cs, before ++ ps, cs, hedits, hnext, ?_, ?_, ?_⟩
  · rintro rfl
    rw [List.append_nil] at hrep hkept
    rw [Multiset.coe_nil, add_zero] at haccount
    refine ⟨rfl, fun n hn hrem => ?_, before ++ ps, hrep, hkept, haccount⟩
    obtain ⟨x, hx, rfl⟩ := List.mem_map.mp hn
    rw [stepped_removed] at hrem
    have hmem : x ∈ nodes.filter (fun x => x.1 ∉ addresses w₁.removed) :=
      List.mem_filter.mpr ⟨hx, by simpa using hrem⟩
    rw [← hkept, List.mem_filter] at hmem
    rw [stepped_visits, addresses_nil, List.head?_nil, Option.toList_none, List.append_nil]
    exact hbefore x.1 (List.mem_map_of_mem hmem.1) (by simpa using hmem.2)
  · intro hne
    obtain ⟨d, cs, rfl⟩ := List.exists_cons_of_ne_nil hne
    obtain ⟨m, u⟩ := d
    have hvisit : ∀ n, (w₁.stepped (before ++ ps) ((m, u) :: cs)).visits.count n =
        w₁.visits.count n + if m = n then 1 else 0 := by
      intro n
      rw [stepped_visits, List.count_append]
      simp [List.count_cons]
    rw [addresses_cons, List.nodup_cons] at hnodup'
    refine ⟨⟨hrep, rfl⟩, h.young.trans hE.created, ?_, ?_, ?_, hkept, haccount⟩
    · intro n hn hlt
      have hmn : m ≠ n := (hnodup'.2.2 n hn m List.mem_cons_self).symm
      rw [hvisit, if_neg hmn, hbefore n hn hlt]
    · intro n hn hlt
      obtain rfl : m = n := by simpa using hn
      rw [hvisit, if_pos rfl, hafter m List.mem_cons_self hlt]
    · intro n hn hlt
      have hmn : m ≠ n := by
        rintro rfl
        exact hnodup'.2.1.1 hn
      rw [hvisit, if_neg hmn, hafter n (List.mem_cons_of_mem _ hn) hlt]
  · intro htakes
    -- nothing inserted is left, so the step comes nearer to the end
    have hins : ins = [] := by
      rw [List.eq_nil_iff_forall_not_mem]
      intro x hx
      have hmem : x.1 ∈ addresses ins := List.mem_map_of_mem hx
      have hthere : x.1 ∈ addresses (before ++ ([] ++ (ins ++ left))) := by simp [hmem]
      exact (hE.place.rep.heap_iff x.1).mpr hthere
        (htakes w₁ hedits x.1 (hE.fresh x.1 hmem) (hE.place.rep.named x.1 hthere))
    subst hins
    have hlength := congrArg List.length hE.split
    have hdiff := hE.diff
    rw [← hcs, comes]
    simp only [List.length_cons, List.length_append, List.length_nil, List.nil_append]
      at hlength hdiff ⊢
    split
    next => rw [List.length_drop]; omega
    next => omega
/-! ## The whole iteration -/

theorem walk_succ {script : ℕ → List (ListEdit V)} {s w₁ : ListWalk V} {n : ℕ}
    (hwalk : walk script s n = some w) (hedits : w.edits (script n) = some w₁)
    (hnext : w₁.next = some w') : walk script s (n + 1) = some w' := by
  simp [walk, hwalk, hedits, hnext]

/-- The walk has come to its end, or is at a node. -/
theorem walk_cases {script : ℕ → List (ListEdit V)} {s : ListWalk V}
    (hstart : Passing old nodes s before after) (hne : after ≠ [])
    (hstep : ∀ n w, walk script s n = some w → w.InStep old (script n)) (n : ℕ) :
    (∃ m w, walk script s m = some w ∧ Iterated old nodes w) ∨
      ∃ w before after, walk script s n = some w ∧ Passing old nodes w before after ∧
        after ≠ [] := by
  induction n with
  | zero => exact .inr ⟨s, before, after, rfl, hstart, hne⟩
  | succ n ih =>
      rcases ih with hended | ⟨w, before, after, hwalk, hpassing, hne⟩
      · exact .inl hended
      · obtain ⟨⟨c, v⟩, rest, rfl⟩ := List.exists_cons_of_ne_nil hne
        obtain ⟨w₁, w', before', after', hedits, hnext, hended, hgoes, -⟩ :=
          hpassing.round (hstep n w hwalk)
        have hwalk' := walk_succ hwalk hedits hnext
        by_cases hafter' : after' = []
        · exact .inl ⟨n + 1, w', hwalk', hended hafter'⟩
        · exact .inr ⟨w', before', after', hwalk', hgoes hafter', hafter'⟩

/-- From a position on from which nothing inserted is left, the end is as many steps away as
there are nodes to come. -/
theorem walk_ends {script : ℕ → List (ListEdit V)} {s : ListWalk V} {n : ℕ}
    (hstep : ∀ n w, walk script s n = some w → w.InStep old (script n))
    (htakes : ∀ m, n ≤ m → ∀ w, walk script s m = some w → w.TakesBack (script m))
    (hwalk : walk script s n = some w) (hpassing : Passing old nodes w before after)
    (hne : after ≠ []) : ∃ m w, walk script s m = some w ∧ Iterated old nodes w := by
  induction hlength : after.length using Nat.strongRecOn generalizing n w before after with
  | ind len ih =>
      obtain ⟨⟨c, v⟩, rest, rfl⟩ := List.exists_cons_of_ne_nil hne
      obtain ⟨w₁, w', before', after', hedits, hnext, hended, hgoes, hless⟩ :=
        hpassing.round (hstep n w hwalk)
      have hwalk' := walk_succ hwalk hedits hnext
      by_cases hafter' : after' = []
      · exact ⟨n + 1, w', hwalk', hended hafter'⟩
      · have hlt : after'.length < len := by
          rw [← hlength, List.length_cons]
          exact hless (htakes n le_rfl w hwalk)
        exact ih after'.length hlt (fun m hm => htakes m (Nat.le_of_succ_le hm)) hwalk'
          (hgoes hafter') hafter' rfl

theorem itrNew_of_represents {l : MList V} (h : l.Represents nodes) :
    l.mListItrNew true = if nodes = [] then none else some ⟨.data, 0⟩ := by
  cases nodes with
  | nil => simp [MList.mListItrNew, h.len]
  | cons x rest => simp [MList.mListItrNew, h.len]

theorem passing_start {l : MList V} {c : ℕ} {v : V} {rest : List (ℕ × V)}
    (h : l.Represents ((c, v) :: rest)) :
    Passing l.created ((c, v) :: rest) (start l) [] ((c, v) :: rest) := by
  have hitr := itrNew_of_represents h
  rw [if_neg (List.cons_ne_nil _ _)] at hitr
  have hplace : At ⟨l, l.mListItrNew true, [], [], []⟩ [] ((c, v) :: rest) 0 := ⟨h, hitr⟩
  have hvisits : (start l).visits = [c] := by
    rw [start, hplace.current_eq, addresses_cons, List.head?_cons, Option.toList_some]
  refine ⟨⟨h, hitr⟩, le_rfl, nofun, ?_, ?_, ?_, rfl⟩
  · intro n hn _
    obtain rfl : c = n := by simpa using hn
    simp [hvisits]
  · intro n hn _
    have hnodup := h.nodup
    rw [addresses_cons, List.nodup_cons] at hnodup
    have hcn : c ≠ n := by
      rintro rfl
      exact hnodup.1 hn
    simp [hvisits, hcn]
  · have hnamed : ∀ x ∈ (c, v) :: rest, x.1 < l.created :=
      fun x hx => h.named x.1 (List.mem_map_of_mem hx)
    rw [List.nil_append, List.filter_eq_self.mpr (by simpa using hnamed),
      List.filter_eq_self.mpr (by simp [start])]

/-! Nothing changes after the end. -/

theorem edits_ended (hended : w.itr = none) (es : List (ListEdit V)) : w.edits es = some w := by
  induction es with
  | nil => rfl
  | cons e es ih =>
      have hedit : w.edit e = some w := by
        obtain ⟨list, itr, inserted, removed, visits⟩ := w
        obtain rfl : itr = none := hended
        cases e with
        | insert value mem => rfl
        | remove => rfl
      simp [ListWalk.edits, hedit, ih]

theorem walk_ended {script : ℕ → List (ListEdit V)} {s : ListWalk V} {m : ℕ}
    (hwalk : walk script s m = some w) (hended : w.itr = none) {n : ℕ} (hn : m ≤ n) :
    walk script s n = some w := by
  have hnext : w.next = some w := by
    obtain ⟨list, itr, inserted, removed, visits⟩ := w
    obtain rfl : itr = none := hended
    simp [ListWalk.next, MList.mListItrNext, current]
  induction n, hn using Nat.le_induction with
  | base => exact hwalk
  | succ n _ ih => exact walk_succ ih (edits_ended hended _) hnext

theorem inStep_ended (hended : w.itr = none) (old : ℕ) (es : List (ListEdit V)) :
    w.InStep old es := by
  intro w' c _ hcurrent
  simp [current, hended] at hcurrent

theorem takesBack_ended (hended : w.itr = none) (es : List (ListEdit V)) : w.TakesBack es := by
  intro w' hedits n hn hlt
  rw [edits_ended hended es] at hedits
  cases hedits
  omega

/-- Whatever list has been made, and whatever is inserted and removed at each position of an
iteration over it. -/
theorem iterated_of_inStep [DecidableEq V] (comp : Option (V → V → ℤ)) (dtor : Bool)
    (calls : List (MList.Call V)) {l : MList V}
    (hrun : (MList.mListNew comp dtor).runCalls calls = some l)
    (script : ℕ → List (ListEdit V))
    (hstep : ∀ n w, walk script (start l) n = some w → w.InStep l.created (script n))
    (htakes : ∃ N, ∀ n, N ≤ n → ∀ w, walk script (start l) n = some w →
      w.TakesBack (script n)) :
    ∃ nodes, l.Represents nodes ∧
      ∃ n w, walk script (start l) n = some w ∧ Iterated l.created nodes w := by
  obtain ⟨l', nodes, hrun', hrep⟩ :=
    MList.represents_runCalls calls (MList.represents_new comp dtor)
  obtain rfl : l = l' := Option.some.inj (hrun.symm.trans hrun')
  refine ⟨nodes, hrep, ?_⟩
  cases nodes with
  | nil =>
      have hended : (start l).itr = none := itrNew_of_represents hrep
      exact ⟨0, start l, rfl, hended, nofun, [], hrep, rfl, rfl⟩
  | cons x rest =>
      obtain ⟨N, htakes⟩ := htakes
      have hstart := passing_start hrep
      rcases walk_cases hstart (List.cons_ne_nil _ _) hstep N with
        hended | ⟨w, before, after, hwalk, hpassing, hne⟩
      · exact hended
      · exact walk_ends hstep htakes hwalk hpassing hne

/-- A list of one node. -/
def oneNode : MList ℕ := ((MList.mListNew none false).runCalls [.insert (some 5) true]).getD
  (MList.mListNew none false)

/-- At each position a node is inserted, and removed again. -/
def insertRemove (_ : ℕ) : List (ListEdit ℕ) := [.insert (some 7) true, .remove]

theorem iterated_insertRemove :
    ∃ nodes, oneNode.Represents nodes ∧
      ∃ n w, walk insertRemove (start oneNode) n = some w ∧
        Iterated oneNode.created nodes w := by
  obtain ⟨w₁, hwalk, hended⟩ : ∃ w₁, walk insertRemove (start oneNode) 1 = some w₁ ∧
      w₁.itr = none := ⟨_, rfl, rfl⟩
  have hrun : (MList.mListNew none false).runCalls [.insert (some 5) true] = some oneNode := rfl
  refine iterated_of_inStep none false _ hrun insertRemove ?_ ?_
  · intro n w hw
    cases n with
    | zero =>
        cases hw
        intro w' c hedits hcurrent
        cases hedits
        cases hcurrent
        exact ⟨fun _ _ => rfl, nofun⟩
    | succ n =>
        rw [walk_ended hwalk hended (Nat.le_add_left 1 n)] at hw
        cases hw
        exact inStep_ended hended _ _
  · refine ⟨1, fun n hn w hw => ?_⟩
    rw [walk_ended hwalk hended hn] at hw
    cases hw
    exact takesBack_ended hended _

/-- A node is inserted at the first position. -/
def insertOnce : ℕ → List (ListEdit ℕ)
  | 0 => [.insert (some 7) true]
  | _ + 1 => []

theorem not_iterated_insertOnce :
    ¬ ∀ (comp : Option (ℕ → ℕ → ℤ)) dtor calls l,
      (MList.mListNew comp dtor).runCalls calls = some l → ∀ script,
        ∃ nodes, l.Represents nodes ∧
          ∃ n w, walk script (start l) n = some w ∧ Iterated l.created nodes w := by
  intro h
  obtain ⟨nodes, hrep, n, w, hwalk, hiterated⟩ :=
    h none false [.insert (some 5) true] oneNode rfl insertOnce
  obtain ⟨w₂, hwalk₂, hended, hremoved, hvisits⟩ : ∃ w₂,
      walk insertOnce (start oneNode) 2 = some w₂ ∧ w₂.itr = none ∧ w₂.removed = [] ∧
        w₂.visits = [0, 0] := ⟨_, rfl, rfl, rfl, rfl⟩
  have hzero : 0 ∈ addresses nodes := (hrep.heap_iff 0).mp nofun
  match n, hwalk with
  | 0, hwalk =>
      cases hwalk
      cases hiterated.ended
  | 1, hwalk =>
      cases hwalk
      cases hiterated.ended
  | n + 2, hwalk =>
      rw [walk_ended hwalk₂ hended (Nat.le_add_left 2 n)] at hwalk
      cases hwalk
      have honce := hiterated.once 0 hzero (by simp [hremoved])
      rw [hvisits] at honce
      cases honce

end ListWalk

end Libmodule
