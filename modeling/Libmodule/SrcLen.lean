import Libmodule.BstIteration
import Libmodule.HashMapVisits
import Libmodule.World

/-!
# The number of sources

`m_mod_src_len` over the containers of a module: the map of its subscriptions
and one tree for each type of source.  Each loop is the one of `m_itr_foreach`,
with the counter of the function.
-/

namespace Libmodule

open SearchTree

/-- An argument of type `m_src_types`. -/
inductive SrcTypeArg where
  | type (t : MSrcType)
  | typeEnd
  | other
  deriving DecidableEq, Repr

/-- The part of a module that `m_mod_src_len` reads, with the flags of the sources. -/
structure SrcOwner (S : Type) where
  zombie : Bool
  sameCtx : Bool
  subscriptions : Option (HashMap S ℕ)
  srcs : MSrcType → Bst ℕ
  flags : ℕ → ℕ
  roomy : ∀ map, subscriptions = some map → map.Roomy
  trees : ∀ t, ∃ tree, Bst.Represents (srcs t) tree

namespace SrcOwner

variable {S : Type}

def nonInternal (m : SrcOwner S) (src : ℕ) : Bool := !hasFlag (m.flags src) M_SRC_INTERNAL

/-- `if (!(src->flags & M_SRC_INTERNAL)) len++;` -/
def counted (m : SrcOwner S) (src len : ℕ) : ℕ := if m.nonInternal src then len + 1 else len

/-- The loop over the subscriptions; `none` is a fault, or a loop that has not ended. -/
def countSubs (m : SrcOwner S) (map : HashMap S ℕ) : ℕ → Option MapItr → ℕ → Option ℕ
  | _, none, len => some len
  | 0, some _, _ => none
  | rounds + 1, some itr, len => do
      let src ← map.mMapItrGetData itr
      countSubs m map rounds (map.mMapItrNext itr) (m.counted src len)

/-- The loop over a tree. -/
def countTree (m : SrcOwner S) : ℕ → Bst ℕ → BstItr → ℕ → Option ℕ
  | 0, _, _, _ => none
  | rounds + 1, l, i, len => do
      match ← Bst.round (fun _ => false) l i with
      | (src, _, none) => some (m.counted src len)
      | (src, l, some i) => countTree m rounds l i (m.counted src len)

def subsLen (m : SrcOwner S) (len : ℕ) : Option ℕ :=
  match m.subscriptions with
  | none => some len
  | some map => m.countSubs map map.tableSize map.mMapItrNew len

def treeLen (m : SrcOwner S) (t : MSrcType) (len : ℕ) : Option ℕ := do
  match ← (m.srcs t).mBstItrNew true with
  | none => some len
  | some i => m.countTree (m.srcs t).len (m.srcs t) i len

/-- The loop from `M_SRC_TYPE_FD` up to the last type. -/
def treesLen (m : SrcOwner S) : List MSrcType → ℕ → Option ℕ
  | [], len => some len
  | t :: ts, len => do
      let len ← m.treeLen t len
      treesLen m ts len

def mModSrcLen (m : SrcOwner S) (type : SrcTypeArg) : Option ℤ :=
  if m.zombie then some (-EACCES)
  else if !m.sameCtx then some (-EPERM)
  else
    match type with
    | .other => some (-EINVAL)
    | .type _ | .typeEnd => do
        let len ← m.subsLen 0
        let len ← m.treesLen (MSrcType.all.drop 1) len
        some (len : ℤ)

/-! ## What is counted -/

/-- The sources of a type that are not internal; those of the first type are the
subscriptions. -/
def srcsOf (m : SrcOwner S) (t : MSrcType) : ℕ :=
  if t = .ps then
    ((m.subscriptions.map HashMap.entries).getD 0).countP (fun e => m.nonInternal e.data = true)
  else (m.srcs t).stored.countP m.nonInternal

def CountsType (m : SrcOwner S) (t : MSrcType) : Prop :=
  m.mModSrcLen (.type t) = some (m.srcsOf t : ℤ)

/-- The length for the end of the types is the sum of those for each type. -/
def SumsTypes (m : SrcOwner S) : Prop :=
  ∃ lens : MSrcType → ℤ, (∀ t, m.mModSrcLen (.type t) = some (lens t)) ∧
    m.mModSrcLen .typeEnd = some (MSrcType.all.map lens).sum

/-! ## The loops -/

theorem counted_eq (m : SrcOwner S) (src len : ℕ) (rest : List ℕ) :
    m.counted src len + rest.countP m.nonInternal = len + (src :: rest).countP m.nonInternal := by
  rw [counted, List.countP_cons]
  split <;> omega

theorem countTree_eq (m : SrcOwner S) (rounds : ℕ) (l : Bst ℕ) (i : BstItr) (len : ℕ) :
    m.countTree rounds l i len =
      (Bst.iterateFrom (fun _ => false) rounds l i).map
        (fun shown => len + shown.1.countP m.nonInternal) := by
  induction rounds generalizing l i len with
  | zero => rfl
  | succ rounds ih =>
      rw [countTree, Bst.iterateFrom]
      cases hround : Bst.round (fun _ => false) l i with
      | none => rfl
      | some r =>
          obtain ⟨src, l', itr⟩ := r
          cases itr with
          | none =>
              have hone := m.counted_eq src len []
              simpa using hone
          | some i' =>
              simp only [Option.bind_eq_bind, Option.bind_some, ih]
              cases Bst.iterateFrom (fun _ => false) rounds l' i' with
              | none => rfl
              | some shown => simp [m.counted_eq src len shown.1]

theorem treeLen_eq (m : SrcOwner S) (t : MSrcType) (len : ℕ) :
    m.treeLen t len = some (len + (m.srcs t).stored.countP m.nonInternal) := by
  obtain ⟨tree, hrep⟩ := m.trees t
  cases tree with
  | leaf =>
      have hlen : (m.srcs t).len = 0 := hrep.len
      have hstored : (m.srcs t).stored = [] := hrep.stored_eq
      simp [treeLen, Bst.mBstItrNew, hlen, hstored]
  | node n left value right =>
      have hsorted : Sorted (fun _ _ : ℕ => -1) (.node n left value right) :=
        List.pairwise_of_forall (by simp)
      obtain ⟨-, l', t', hshown, -⟩ := Bst.iterate_spec (fun _ _ : ℕ => -1) (fun _ => false)
        (m.srcs t) _ hrep hsorted (by simp) (m.srcs t).len le_rfl
      rw [Bst.iterate] at hshown
      rw [treeLen]
      cases hnew : (m.srcs t).mBstItrNew true with
      | none => simp [hnew] at hshown
      | some itr =>
          cases itr with
          | none =>
              simp only [hnew, Option.bind_eq_bind, Option.bind_some, Option.some.injEq,
                Prod.mk.injEq] at hshown
              simp [← hshown.1]
          | some i =>
              simp only [hnew, Option.bind_eq_bind, Option.bind_some] at hshown
              simp [countTree_eq, hshown]

theorem treesLen_eq (m : SrcOwner S) (ts : List MSrcType) (len : ℕ) :
    m.treesLen ts len =
      some (len + (ts.map (fun t => (m.srcs t).stored.countP m.nonInternal)).sum) := by
  induction ts generalizing len with
  | nil => rfl
  | cons t ts ih =>
      simp [treesLen, treeLen_eq, ih, add_assoc]

open HashMap in
theorem countSubs_eq (m : SrcOwner S) {hash : S → ℕ} {map last : HashMap S ℕ}
    {itr : Option MapItr} {visits : List (MapVisit S ℕ)} (h : Iterates hash map itr visits last)
    (hkept : ∀ visit ∈ visits, visit.removed = false)
    (hfound : ∀ visit ∈ visits, visit.entry ≠ none) (rounds len : ℕ)
    (hrounds : visits.length ≤ rounds) :
    m.countSubs map rounds itr len =
      some (len + (visits.filterMap (fun visit => visit.entry.map MapElem.data)).countP
        m.nonInternal) := by
  induction h generalizing rounds len with
  | done map => cases rounds <;> rfl
  | @keep map last p visits hrest ih =>
      cases rounds with
      | zero => simp at hrounds
      | succ rounds =>
          have hentry := hfound _ List.mem_cons_self
          obtain ⟨e, he⟩ : ∃ e, map.table p = some e := Option.ne_none_iff_exists'.mp hentry
          have hdata : map.mMapItrGetData ⟨some p, false⟩ = some e.data := by
            simp [mMapItrGetData, he]
          have hrest := ih (fun v hv => hkept v (List.mem_cons_of_mem _ hv))
            (fun v hv => hfound v (List.mem_cons_of_mem _ hv)) rounds (m.counted e.data len)
            (by simpa using hrounds)
          rw [counted_eq] at hrest
          simp [countSubs, hdata, hrest, MapVisit.entry, he]
  | @remove map m' last p visits itr ret hremove hrest ih =>
      have hremoved := hkept _ List.mem_cons_self
      cases hremoved

open HashMap in
/-- A loop that removes nothing finds the entries of the map. -/
theorem visits_of_kept {map last : HashMap S ℕ} (hash : S → ℕ) (hroomy : map.Roomy)
    {visits : List (MapVisit S ℕ)} (h : Iterates hash map map.mMapItrNew visits last)
    (hkept : ∀ visit ∈ visits, visit.removed = false) :
    (visits.map MapVisit.entry : Multiset (Option (MapElem S ℕ))) = map.entries.map some := by
  obtain ⟨k, -, hk⟩ := hroomy.size
  have hvisited := (itrNew_visited hash hk hroomy.entries).2 visits last h
  have hremovals : removals visits = [] := by
    rw [removals, List.map_eq_nil_iff, List.filter_eq_nil_iff]
    intro visit hvisit
    simp [hkept visit hvisit]
  rw [hvisited, hremovals]
  simp [carriedBy]

open HashMap in
theorem subsLen_eq (m : SrcOwner S) (len : ℕ) : m.subsLen len = some (len + m.srcsOf .ps) := by
  rw [subsLen, srcsOf, if_pos rfl]
  cases hmap : m.subscriptions with
  | none => rfl
  | some map =>
      have hroomy := m.roomy map hmap
      obtain ⟨k, -, hk⟩ := hroomy.size
      obtain ⟨visits, last, hvisits, hfollows⟩ :=
        (itrNew_visited (fun _ : S => 0) hk hroomy.entries).1 (fun _ => false)
      have hkept : ∀ visit ∈ visits, visit.removed = false := by
        intro visit hvisit
        obtain ⟨n, hn⟩ := List.mem_iff_getElem?.mp hvisit
        exact hfollows n visit hn
      have hentries := visits_of_kept _ hroomy hvisits hkept
      have hfound : ∀ visit ∈ visits, visit.entry ≠ none := by
        intro visit hvisit hnone
        have hmem : visit.entry ∈ (visits.map MapVisit.entry : Multiset _) :=
          List.mem_map_of_mem hvisit
        rw [hentries, hnone] at hmem
        simp at hmem
      have hrounds : visits.length ≤ map.tableSize := by
        have hcard := congrArg Multiset.card hentries
        rw [Multiset.coe_card, List.length_map, Multiset.card_map, card_entries] at hcard
        have hcount := hroomy.entries
        have hbelow := hroomy.below
        omega
      have hdata : (visits.filterMap (fun visit => visit.entry.map MapElem.data) : Multiset ℕ) =
          map.entries.map MapElem.data := by
        have hmapped := congrArg (Multiset.filterMap (Option.map MapElem.data)) hentries
        rw [Multiset.filterMap_coe, List.filterMap_map] at hmapped
        rw [Multiset.filterMap_map] at hmapped
        refine hmapped.trans ?_
        exact Multiset.filterMap_eq_map MapElem.data ▸ rfl
      have hcount := congrArg (Multiset.countP (fun src => m.nonInternal src = true)) hdata
      rw [Multiset.coe_countP, Multiset.countP_map] at hcount
      have hloop := m.countSubs_eq hvisits hkept hfound map.tableSize len hrounds
      refine hloop.trans ?_
      simp only [Option.map_some, Option.getD_some, Option.some.injEq, Nat.add_left_cancel_iff]
      rw [Multiset.countP_eq_card_filter, ← hcount]
      simp

/-! ## Which calls count right -/

/-- The function counts the sources of every type, whatever type it is asked for. -/
theorem mModSrcLen_eq (m : SrcOwner S) (hzombie : m.zombie = false) (hctx : m.sameCtx = true)
    {type : SrcTypeArg} (htype : type ≠ .other) :
    m.mModSrcLen type = some (((MSrcType.all.map m.srcsOf).sum : ℕ) : ℤ) := by
  have hsrcs : ∀ t ∈ MSrcType.all.drop 1,
      (m.srcs t).stored.countP m.nonInternal = m.srcsOf t := by
    intro t ht
    have hne : t ≠ .ps := by
      rintro rfl
      simp [MSrcType.all] at ht
    rw [srcsOf, if_neg hne]
  have hsum : m.srcsOf .ps + ((MSrcType.all.drop 1).map m.srcsOf).sum =
      (MSrcType.all.map m.srcsOf).sum := rfl
  cases type with
  | other => exact absurd rfl htype
  | type t =>
      simp only [mModSrcLen, hzombie, hctx, subsLen_eq, treesLen_eq, List.map_congr_left hsrcs,
        ← hsum]
      simp
  | typeEnd =>
      simp only [mModSrcLen, hzombie, hctx, subsLen_eq, treesLen_eq, List.map_congr_left hsrcs,
        ← hsum]
      simp

/-- The sources of a type are counted if and only if no other type has any, and
the lengths of the types sum up if and only if there is no source at all. -/
theorem mModSrcLen_iff (m : SrcOwner S) (hzombie : m.zombie = false) (hctx : m.sameCtx = true) :
    (∀ t, m.CountsType t ↔ ∀ t', t' ≠ t → m.srcsOf t' = 0) ∧
      (m.SumsTypes ↔ ∀ t, m.srcsOf t = 0) := by
  have hlen : ∀ type, type ≠ .other → m.mModSrcLen type =
      some (((MSrcType.all.map m.srcsOf).sum : ℕ) : ℤ) := fun type => m.mModSrcLen_eq hzombie hctx
  have hall : (∀ t, m.srcsOf t = 0) ↔ (MSrcType.all.map m.srcsOf).sum = 0 := by
    rw [List.sum_eq_zero_iff, List.forall_mem_map]
    exact forall_congr' fun t => by cases t <;> simp [MSrcType.all]
  refine ⟨fun t => ?_, ?_⟩
  · rw [CountsType, hlen _ (by simp), Option.some.injEq, Nat.cast_inj]
    constructor
    · intro hcount t' hne
      simp only [MSrcType.all, List.map_cons, List.map_nil, List.sum_cons, List.sum_nil] at hcount
      cases t <;> cases t' <;> first | exact absurd rfl hne | omega
    · intro hothers
      simp only [MSrcType.all, List.map_cons, List.map_nil, List.sum_cons, List.sum_nil]
      cases t <;> simp [hothers]
  · rw [hall]
    constructor
    · rintro ⟨lens, hlens, hend⟩
      have heach : ∀ t, lens t = (((MSrcType.all.map m.srcsOf).sum : ℕ) : ℤ) := by
        intro t
        have hsame := (hlens t).symm.trans (hlen (.type t) (by simp))
        exact Option.some.inj hsame
      rw [hlen .typeEnd (by simp), Option.some.injEq] at hend
      generalize (MSrcType.all.map m.srcsOf).sum = total at heach hend ⊢
      simp only [MSrcType.all, List.map_cons, List.map_nil, List.sum_cons, List.sum_nil,
        heach] at hend
      omega
    · intro htotal
      refine ⟨fun _ => 0, fun t => ?_, ?_⟩
      · rw [hlen _ (by simp), htotal]
        rfl
      · rw [hlen _ (by simp), htotal]
        rfl

/-- A module with one descriptor as its only source. -/
def oneFd : SrcOwner ℕ where
  zombie := false
  sameCtx := true
  subscriptions := none
  srcs := fun t =>
    { (Bst.mBstNew (fun a b => some ((a : ℤ) - b)) true : Bst ℕ) with
      len := if t = .fd then 1 else 0
      root := if t = .fd then some 0 else none
      heap := fun n => if t = .fd ∧ n = 0 then some ⟨7, none, none, none⟩ else none }
  flags := fun _ => M_SRC_PRIO_HIGH
  roomy := by simp
  trees := by
    intro t
    by_cases ht : t = .fd
    · refine ⟨.node 0 .leaf 7 .leaf, ?_⟩
      subst ht
      exact ⟨rfl, ⟨rfl, trivial, trivial⟩, by simp, fun n => by simp, rfl⟩
    · refine ⟨.leaf, ?_⟩
      exact ⟨by simp [ht], trivial, List.nodup_nil, fun n => by simp [ht], by simp [ht]⟩

theorem mModSrcLen_iff_oneFd :
    (∀ t, oneFd.CountsType t ↔ ∀ t', t' ≠ t → oneFd.srcsOf t' = 0) ∧
      (oneFd.SumsTypes ↔ ∀ t, oneFd.srcsOf t = 0) :=
  mModSrcLen_iff oneFd rfl rfl

/-- It is counted as a timer too, and eight times in the sum of the types. -/
theorem not_countsType_oneFd : ¬ oneFd.CountsType .tmr ∧ ¬ oneFd.SumsTypes := by
  have hlen : ∀ t, oneFd.mModSrcLen (.type t) = some 1 := fun t => by cases t <;> decide +kernel
  refine ⟨?_, ?_⟩
  · rw [CountsType, hlen]
    decide +kernel
  · rintro ⟨lens, hlens, hend⟩
    have heach : ∀ t, lens t = 1 := fun t => Option.some.inj ((hlens t).symm.trans (hlen t))
    have hone : oneFd.mModSrcLen .typeEnd = some 1 := by decide +kernel
    simp [hone, MSrcType.all, heach] at hend


end SrcOwner

end Libmodule
