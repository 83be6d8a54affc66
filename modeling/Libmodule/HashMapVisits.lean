import Libmodule.HashMapIterate

/-!
# Visited entries

Removing the entry of a slot moves entries of its chain towards that slot, and a chain may
go on at the first slots of the table.  An entry that has been visited there can be carried
over the end of the table to a slot that the iteration has still to look at; it is then
visited again.  No other entry is missed or met twice.
-/

namespace Libmodule
namespace HashMap

open ProbeTable

variable {S V : Type} {hash : S → ℕ} {m : HashMap S V} {k r p : ℕ} {e : MapElem S V}

/-! ## Entries still to visit -/

def fromSlot (p : ℕ) (T : ℕ → Option (MapElem S V)) : ℕ → Option (MapElem S V) :=
  fun i => if i < p then none else T i

/-- The entries in the slots from `p` on. -/
def pending (m : HashMap S V) (p : ℕ) : Multiset (MapElem S V) :=
  entriesOf m.tableSize (fromSlot p m.table)

theorem fromSlot_update_of_lt {i : ℕ} (hi : i < p) (T : ℕ → Option (MapElem S V))
    (new : Option (MapElem S V)) : fromSlot p (Function.update T i new) = fromSlot p T := by
  funext j
  by_cases hj : j < p
  · simp [fromSlot, hj]
  · rw [fromSlot, fromSlot, if_neg hj, if_neg hj, Function.update_of_ne (by omega)]

theorem fromSlot_update_of_le {i : ℕ} (hi : p ≤ i) (T : ℕ → Option (MapElem S V))
    (new : Option (MapElem S V)) :
    fromSlot p (Function.update T i new) = Function.update (fromSlot p T) i new := by
  funext j
  by_cases hj : j = i
  · subst hj
    simp [fromSlot, not_lt.mpr hi]
  · simp [fromSlot, Function.update_of_ne hj]

theorem pending_skip {start : ℕ} (hstart : start ≤ p)
    (hskip : ∀ i, start ≤ i → i < p → m.table i = none) : m.pending start = m.pending p := by
  have hsame : fromSlot start m.table = fromSlot p m.table := by
    funext i
    by_cases hi : i < start
    · rw [fromSlot, fromSlot, if_pos hi, if_pos (by omega)]
    · by_cases hip : i < p
      · rw [fromSlot, fromSlot, if_neg hi, if_pos hip, hskip i (by omega) hip]
      · rw [fromSlot, fromSlot, if_neg hi, if_neg hip]
  rw [pending, hsame, pending]

theorem pending_succ (hp : p < m.tableSize) (he : m.table p = some e) :
    m.pending p = e ::ₘ m.pending (p + 1) := by
  have hnext : fromSlot (p + 1) m.table = Function.update (fromSlot p m.table) p none := by
    funext i
    by_cases hi : i = p
    · subst hi
      simp [fromSlot]
    · rw [Function.update_of_ne hi, fromSlot, fromSlot]
      by_cases hip : i < p
      · rw [if_pos hip, if_pos (by omega)]
      · rw [if_neg hip, if_neg (by omega)]
  have hentry : fromSlot p m.table p = some e := by simp [fromSlot, he]
  have hblank := entriesOf_update (fromSlot p m.table) hp none
  rw [hentry, Option.toList_none, Option.toList_some, Multiset.coe_nil, zero_add,
    Multiset.coe_singleton, Multiset.singleton_add, ← hnext] at hblank
  exact hblank.symm

theorem pending_none {start : ℕ} (hnone : ∀ i, start ≤ i → i < m.tableSize → m.table i = none) :
    m.pending start = 0 := by
  rw [Multiset.eq_zero_iff_forall_notMem]
  intro e he
  rw [pending, entriesOf] at he
  obtain ⟨i, hi, hentry⟩ := (Multiset.mem_filterMap _ _).mp he
  rw [fromSlot] at hentry
  split at hentry
  next => cases hentry
  next hstart =>
    rw [hnone i (by omega) (Multiset.mem_range.mp hi)] at hentry
    cases hentry

/-! ## Removal -/

/-- The loop of `clear_elem` for slot `r`, up to the entry that it moves from a slot before
`r` to a slot that is not before `r`. -/
def carriedLoop (hash : S → ℕ) (m : HashMap S V) (r : ℕ) :
    ℕ → ℕ → ℕ → Option (MapElem S V)
  | 0, _, _ => none
  | left + 1, removed, index =>
      match m.table index with
      | none => none
      | some entry =>
          if m.indexLe removed (m.hashmapCalcIndex hash entry.key.text) then
            if index < r ∧ r ≤ removed then some entry
            else carriedLoop hash m r left index (m.probeNext index)
          else carriedLoop hash m r left removed (m.probeNext index)

/-- The visited entry that the removal of slot `r` puts back among those to visit. -/
def carried (hash : S → ℕ) (m : HashMap S V) (r : ℕ) : Option (MapElem S V) :=
  carriedLoop hash m r m.probeLen r (m.probeNext r)

/-- Past the end of the table the hole stays before `r`. -/
theorem carriedLoop_wrapped (hash : S → ℕ) (hk : m.tableSize = 2 ^ k) (hr : r < m.tableSize)
    (left g t : ℕ) (hgt : g < t) (hleft : left + t ≤ m.tableSize) (hg : m.tableSize ≤ r + g) :
    carriedLoop hash m r left (slotAt m.tableSize r g) (slotAt m.tableSize r t) = none := by
  induction left generalizing g t with
  | zero => rfl
  | succ left ih =>
      have hbefore : ¬ r ≤ slotAt m.tableSize r g := by
        rw [slotAt, if_neg (by omega)]
        omega
      rw [carriedLoop]
      cases m.table (slotAt m.tableSize r t) with
      | none => rfl
      | some e =>
          simp only
          rw [probeNext_slotAt hk hr (by omega)]
          split
          · rw [if_neg (fun h => hbefore h.2)]
            exact ih t (t + 1) (by omega) (by omega) (by omega)
          · exact ih g (t + 1) (by omega) (by omega) hg

/-- Moving an entry into the hole, seen from slot `r` on. -/
theorem entriesOf_move {s g t : ℕ} {T : ℕ → Option (MapElem S V)} (hg : g < s) (ht : t < s)
    (hne : g ≠ t) (he : T t = some e) (hback : g < r → t < r) :
    entriesOf s (fromSlot r (Function.update (Function.update T g (some e)) t none)) =
      (if t < r ∧ r ≤ g then [e] else [] : List (MapElem S V)) +
        entriesOf s (fromSlot r (Function.update T g none)) := by
  by_cases hgr : g < r
  · have htr := hback hgr
    rw [if_neg (by omega), fromSlot_update_of_lt htr, fromSlot_update_of_lt hgr,
      fromSlot_update_of_lt hgr, Multiset.coe_nil, zero_add]
  · by_cases htr : t < r
    · have hfill := entriesOf_update (Function.update (fromSlot r T) g none) hg (some e)
      rw [Function.update_self, Function.update_idem, Option.toList_none, Multiset.coe_nil,
        zero_add, Option.toList_some] at hfill
      rw [if_pos ⟨htr, by omega⟩, fromSlot_update_of_lt htr,
        fromSlot_update_of_le (by omega), fromSlot_update_of_le (by omega), hfill]
    · have hentry : fromSlot r T t = some e := by simp [fromSlot, htr, he]
      rw [if_neg (fun h => htr h.1), fromSlot_update_of_le (by omega),
        fromSlot_update_of_le (by omega), fromSlot_update_of_le (by omega),
        (Rearranges.move hg ht hne hentry).entriesOf_eq, Multiset.coe_nil, zero_add]

theorem clearLoop_pending (hash : S → ℕ) (hk : m.tableSize = 2 ^ k) (hr : r < m.tableSize)
    (left g t : ℕ) (hgt : g < t) (hleft : left + t ≤ m.tableSize)
    (T : ℕ → Option (MapElem S V))
    (hT : ∀ d, t ≤ d → d < m.tableSize →
      T (slotAt m.tableSize r d) = m.table (slotAt m.tableSize r d)) :
    let shifted := clearLoop hash m left T (slotAt m.tableSize r g) (slotAt m.tableSize r t)
    entriesOf m.tableSize (fromSlot r (Function.update shifted.1 shifted.2 none)) =
      (carriedLoop hash m r left (slotAt m.tableSize r g) (slotAt m.tableSize r t)).toList +
        entriesOf m.tableSize (fromSlot r (Function.update T (slotAt m.tableSize r g) none)) := by
  induction left generalizing g t T with
  | zero => simp [clearLoop, carriedLoop]
  | succ left ih =>
      have hsame := hT t le_rfl (by omega)
      have hne : slotAt m.tableSize r g ≠ slotAt m.tableSize r t := by
        intro heq
        have := slotAt_inj (by omega) (by omega) heq
        omega
      have hg := slotAt_cases m.tableSize r g
      have ht := slotAt_cases m.tableSize r t
      rw [clearLoop, carriedLoop, ← hsame]
      cases hslot : T (slotAt m.tableSize r t) with
      | none => simp
      | some e =>
          simp only
          rw [probeNext_slotAt hk hr (by omega)]
          split
          next =>
            have hrest := ih t (t + 1) (by omega) (by omega)
              (Function.update T (slotAt m.tableSize r g) (some e)) (by
                intro d hd hsize
                rw [Function.update_of_ne, hT d (by omega) hsize]
                intro heq
                have := slotAt_inj (by omega) (by omega) heq
                omega)
            have hmove := entriesOf_move (r := r) (slotAt_lt hr (by omega))
              (slotAt_lt hr (by omega)) hne hslot (by omega)
            simp only at hrest
            rw [hrest, hmove]
            split
            next hcross =>
              rw [carriedLoop_wrapped hash hk hr left t (t + 1) (by omega) (by omega) (by omega)]
              simp
            next => simp
          next =>
            exact ih g (t + 1) (by omega) (by omega) T
              (fun d hd hsize => hT d (by omega) hsize)

/-- Of the entries to visit, the removed one goes, and a visited one may come back. -/
theorem pending_clearElem (hash : S → ℕ) (hk : m.tableSize = 2 ^ (k + 1)) (hr : r < m.tableSize)
    (he : m.table r = some e) :
    e ::ₘ (m.clearElem hash r).pending r = (m.carried hash r).toList + m.pending r := by
  have hpos : 2 ≤ m.tableSize := by
    rw [hk, pow_succ]
    have : 0 < 2 ^ k := by positivity
    omega
  have hnext : m.probeNext r = slotAt m.tableSize r 1 := by
    conv_lhs => rw [← slotAt_zero hr]
    exact probeNext_slotAt hk hr (by omega)
  have hloop := clearLoop_pending hash hk hr m.probeLen 0 1 (by omega)
    (by rw [probeLen_eq]; omega) (Function.update m.table r none) (by
      intro d hd hsize
      rw [Function.update_of_ne]
      intro heq
      have := slotAt_inj hsize (by omega) (heq.trans (slotAt_zero hr).symm)
      omega)
  simp only [slotAt_zero hr, Function.update_idem, ← hnext] at hloop
  have hblank := entriesOf_update (fromSlot r m.table) hr none
  have hentry : fromSlot r m.table r = some e := by simp [fromSlot, he]
  rw [hentry, Option.toList_none, Option.toList_some, Multiset.coe_nil, zero_add,
    Multiset.coe_singleton, Multiset.singleton_add, ← fromSlot_update_of_le le_rfl] at hblank
  have hsame : (m.clearElem hash r).pending r =
      (m.carried hash r).toList +
        entriesOf m.tableSize (fromSlot r (Function.update m.table r none)) := hloop
  rw [hsame, ← Multiset.add_cons, hblank]
  rfl

/-! ## The iterator -/

/-- A visit of an iteration: the map, the slot of the iterator, and whether the entry is
removed there. -/
structure MapVisit (S V : Type) where
  map : HashMap S V
  slot : ℕ
  removed : Bool

def MapVisit.entry (visit : MapVisit S V) : Option (MapElem S V) := visit.map.table visit.slot

/-- The loop over an iterator, from a map and what `m_map_itr_new` or `m_map_itr_next` gave to
the map when the iterator is gone. -/
inductive Iterates (hash : S → ℕ) :
    HashMap S V → Option MapItr → List (MapVisit S V) → HashMap S V → Prop where
  | done (m : HashMap S V) : Iterates hash m none [] m
  | keep {m last : HashMap S V} {p : ℕ} {visits : List (MapVisit S V)}
      (hrest : Iterates hash m (m.mMapItrNext ⟨some p, false⟩) visits last) :
      Iterates hash m (some ⟨some p, false⟩) (⟨m, p, false⟩ :: visits) last
  | remove {m m' last : HashMap S V} {p : ℕ} {visits : List (MapVisit S V)} {itr : MapItr}
      {ret : ℤ} (hremove : m.mMapItrRemove hash (some ⟨some p, false⟩) = (ret, m', some itr))
      (hrest : Iterates hash m' (m'.mMapItrNext itr) visits last) :
      Iterates hash m (some ⟨some p, false⟩) (⟨m, p, true⟩ :: visits) last

/-- The `n`-th visited entry is removed if `choice n` says so. -/
def Follows (choice : ℕ → Bool) (visits : List (MapVisit S V)) : Prop :=
  ∀ n visit, visits[n]? = some visit → visit.removed = choice n

/-- The visits find the entries of the map, each of them once. -/
def VisitsOnce (m : HashMap S V) (visited : List (Option (MapElem S V))) : Prop :=
  (visited : Multiset (Option (MapElem S V))) = m.entries.map some

theorem Follows.cons {choice : ℕ → Bool} {visit : MapVisit S V} {visits : List (MapVisit S V)}
    (hfirst : visit.removed = choice 0) (hrest : Follows (fun n => choice (n + 1)) visits) :
    Follows choice (visit :: visits) := by
  intro n v hv
  cases n with
  | zero =>
      obtain rfl := Option.some.inj hv
      exact hfirst
  | succ n => exact hrest n v hv

theorem card_occupied_pos (hp : p < m.tableSize) (he : m.table p = some e) :
    0 < m.occupied.card :=
  Finset.card_pos.mpr ⟨p, by simp [occupied, hp, he]⟩

/-- Every step either takes an entry out or moves the iterator on. -/
theorem iterates_total (hash : S → ℕ) (left : ℕ) (choice : ℕ → Bool) (m : HashMap S V)
    (hk : m.tableSize = 2 ^ (k + 1)) (itr : MapItr) (hstart : itr.start ≤ m.tableSize)
    (hleft : m.occupied.card + (m.tableSize - itr.start) < left) :
    ∃ visits last, Iterates hash m (m.mMapItrNext itr) visits last ∧ Follows choice visits := by
  induction left generalizing choice m itr with
  | zero => omega
  | succ left ih =>
      rcases itrNext_cases (m := m) itr hstart with
        ⟨p, hp, hnext, hle, ⟨e, he⟩, -⟩ | ⟨hnext, -⟩
      · rw [hnext]
        cases hchoice : choice 0 with
        | false =>
            obtain ⟨visits, last, hrest, hfollows⟩ := ih (fun n => choice (n + 1)) m hk
              ⟨some p, false⟩ (by simp only [MapItr.start, Bool.toNat_false]; omega)
              (by simp only [MapItr.start, Bool.toNat_false]; omega)
            exact ⟨_, last, .keep hrest, hfollows.cons hchoice.symm⟩
        | true =>
            have hcard := card_clearElem hash hk hp he
            have hpos := card_occupied_pos hp he
            have hsize : (m.clearElem hash p).tableSize = m.tableSize := rfl
            obtain ⟨visits, last, hrest, hfollows⟩ := ih (fun n => choice (n + 1))
              (m.clearElem hash p) hk ⟨some p, true⟩
              (by simp only [MapItr.start, Bool.toNat_true]; omega)
              (by simp only [MapItr.start, Bool.toNat_true]; omega)
            exact ⟨_, last, .remove rfl hrest, hfollows.cons hchoice.symm⟩
      · rw [hnext]
        exact ⟨[], m, .done m, fun n v hv => by simp at hv⟩

/-- The entries that the removals of an iteration put back among those to visit. -/
def carriedBy (hash : S → ℕ) (removals : List (HashMap S V × ℕ)) : Multiset (MapElem S V) :=
  (removals.filterMap (fun removal => removal.1.carried hash removal.2) : List (MapElem S V))

theorem carriedBy_cons (hash : S → ℕ) (m : HashMap S V) (r : ℕ)
    (removals : List (HashMap S V × ℕ)) :
    carriedBy hash ((m, r) :: removals) =
      (m.carried hash r).toList + carriedBy hash removals := by
  rw [carriedBy, carriedBy, List.filterMap_cons]
  cases m.carried hash r <;> rfl

theorem carriedBy_eq_zero_iff (hash : S → ℕ) (removals : List (HashMap S V × ℕ)) :
    carriedBy hash removals = 0 ↔
      ∀ removal ∈ removals, removal.1.carried hash removal.2 = none := by
  rw [carriedBy, Multiset.coe_eq_zero, List.filterMap_eq_nil_iff]

/-- What was visited besides the entries of the map was carried back. -/
theorem visitsOnce_of_carriedBy {visited : List (Option (MapElem S V))}
    {removals : List (HashMap S V × ℕ)}
    (hvisited : (visited : Multiset (Option (MapElem S V))) =
      (m.entries + carriedBy hash removals).map some) :
    VisitsOnce m visited ↔ ∀ removal ∈ removals, removal.1.carried hash removal.2 = none := by
  rw [VisitsOnce, hvisited, Multiset.map_add, add_eq_left, Multiset.map_eq_zero,
    carriedBy_eq_zero_iff]

def removals (visits : List (MapVisit S V)) : List (HashMap S V × ℕ) :=
  (visits.filter MapVisit.removed).map (fun visit => (visit.map, visit.slot))

/-- The entry an iterator gets to is the first one that was still to be visited. -/
theorem itrNext_visit {before : MapItr} (hstart : before.start ≤ m.tableSize)
    (hnext : m.mMapItrNext before = some ⟨some p, false⟩) :
    p < m.tableSize ∧ m.pending before.start = m.pending p ∧ ∃ e, m.table p = some e := by
  rcases itrNext_cases (m := m) before hstart with
    ⟨q, hq, hsome, hle, hentry, hskip⟩ | ⟨hnone, -⟩
  · rw [hsome] at hnext
    obtain rfl : q = p := by
      injection hnext with hitr
      injection hitr with hcurr
      injection hcurr
    exact ⟨hq, pending_skip hle hskip, hentry⟩
  · rw [hnone] at hnext
    cases hnext

theorem Iterates.visited {itr : Option MapItr} {visits : List (MapVisit S V)}
    {last : HashMap S V} (h : Iterates hash m itr visits last)
    (hk : m.tableSize = 2 ^ (k + 1)) {before : MapItr} (hstart : before.start ≤ m.tableSize)
    (hitr : m.mMapItrNext before = itr) :
    (visits.map MapVisit.entry : Multiset (Option (MapElem S V))) =
      (m.pending before.start + carriedBy hash (removals visits)).map some := by
  induction h generalizing before with
  | done m =>
      rcases itrNext_cases (m := m) before hstart with ⟨p, -, hnext, -⟩ | ⟨-, hnone⟩
      · rw [hnext] at hitr
        cases hitr
      · rw [pending_none hnone]
        rfl
  | @keep m last p visits hrest ih =>
      obtain ⟨hp, hpending, e, he⟩ := itrNext_visit hstart hitr
      have hstart' : MapItr.start ⟨some p, false⟩ ≤ m.tableSize := hp
      have hvisited := ih hk hstart' rfl
      have hentry : MapVisit.entry ⟨m, p, false⟩ = some e := he
      rw [List.map_cons, ← Multiset.cons_coe, hvisited, hentry, hpending, pending_succ hp he,
        Multiset.cons_add, Multiset.map_cons]
      rfl
  | @remove m m' last p visits itr ret hremove hrest ih =>
      obtain ⟨hp, hpending, e, he⟩ := itrNext_visit hstart hitr
      obtain ⟨-, rfl, hitr'⟩ : ret = 0 ∧ m.clearElem hash p = m' ∧ some ⟨some p, true⟩ = some itr :=
        by simpa [mMapItrRemove, eq_comm] using hremove
      obtain rfl := Option.some.inj hitr'
      have hstart' : MapItr.start ⟨some p, true⟩ = p := rfl
      have hvisited := ih hk (hstart'.trans_le hp.le) rfl
      have hentry : MapVisit.entry ⟨m, p, true⟩ = some e := he
      have hremovals : removals (⟨m, p, true⟩ :: visits) = (m, p) :: removals visits := rfl
      rw [List.map_cons, ← Multiset.cons_coe, hvisited, hentry, hpending, hremovals,
        carriedBy_cons, hstart', ← Multiset.map_cons, ← Multiset.cons_add,
        pending_clearElem hash hk hp he, add_assoc, add_left_comm]

/-! ## The callback -/

section Callback

variable [DecidableEq S] [DecidableEq V]

/-- A callback that removes the current entry or does nothing. -/
def removeCurrent (remove : Bool) : MapCb S V :=
  fun e => (if remove then [.remove (some e.key.text)] else [], 0)

def MapTurn.found (turn : MapTurn S V) : Option (MapElem S V) := turn.map.table turn.slot

/-- The map in which a callback made calls, and the slot of its entry. -/
def callbackRemovals (turns : List (MapTurn S V)) : List (HashMap S V × ℕ) :=
  (turns.filter (fun turn => !turn.calls.isEmpty)).map (fun turn => (turn.map, turn.slot))

/-- What the callback removes is the current entry, and its key pointer is in no other slot. -/
structure MapTurn.RemovesCurrent (hash : S → ℕ) (turn : MapTurn S V) : Prop where
  current : turn.map.hashmapEntryFind hash turn.entry.key.text false = some turn.slot
  key : ∀ slot < turn.map.tableSize, ∀ e, turn.map.table slot = some e →
    e.key.addr = turn.entry.key.addr → slot = turn.slot

omit [DecidableEq S] [DecidableEq V] in
theorem entryFrom_cases {slot : ℕ} (hslot : slot ≤ m.tableSize) :
    (∃ p e, m.entryFrom slot = some (p, e) ∧ slot ≤ p ∧ p < m.tableSize ∧ m.table p = some e ∧
      m.pending slot = m.pending p) ∨
    (m.entryFrom slot = none ∧ m.pending slot = 0) := by
  rw [entryFrom]
  rcases occupiedFrom_cases (m := m) (m.tableSize - slot) slot with
    ⟨p, hp, hle, hlt, ⟨e, he⟩, hskip⟩ | ⟨hnone, hall⟩
  · exact .inl ⟨p, e, by simp [hp, he], hle, by omega, he, pending_skip hle hskip⟩
  · exact .inr ⟨by rw [hnone]; rfl, pending_none (fun i h0 h1 => hall i h0 (by omega))⟩

omit [DecidableEq S] [DecidableEq V] in
/-- After a removal the slot of the removed entry has another key, or none. -/
theorem key_clearElem (hash : S → ℕ) (hk : m.tableSize = 2 ^ (k + 1)) (hp : p < m.tableSize)
    (hkey : ∀ slot < m.tableSize, ∀ x, m.table slot = some x → x.key.addr = e.key.addr →
      slot = p) :
    ((m.clearElem hash p).table p).map (fun e => e.key.addr) ≠ some e.key.addr := by
  obtain ⟨σ, hσ, htable⟩ := (clearElem_rearranges hash hk hp).1
  rw [htable, Function.comp]
  by_cases hσp : σ p = p
  · rw [hσp, Function.update_self]
    simp
  · rw [Function.update_of_ne hσp]
    intro haddr
    obtain ⟨x, hx, hxe⟩ := Option.map_eq_some_iff.mp haddr
    exact hσp (hkey (σ p) ((hσ p).mpr hp) x hx hxe)

/-- What a callback that removes nothing else than the current entry does to the map. -/
theorem removeCurrent_cases (hash : S → ℕ) (remove : Bool)
    (hk : m.tableSize = 2 ^ (k + 1)) :
    (runCalls hash m (removeCurrent (V := V) remove e).1).2 = m ∨
      ∃ slot < m.tableSize, (∃ x, m.table slot = some x) ∧
        m.hashmapEntryFind hash e.key.text false = some slot ∧
        (runCalls hash m (removeCurrent (V := V) remove e).1).2 = m.clearElem hash slot := by
  cases remove with
  | false => exact .inl rfl
  | true =>
      have hcall : (runCalls hash m (removeCurrent (V := V) true e).1).2 =
          (m.mMapRemove hash (some e.key.text)).2 := rfl
      rw [hcall, mMapRemove]
      split
      next =>
        cases hfind : m.hashmapEntryFind hash e.key.text false with
        | none => exact .inl rfl
        | some slot =>
            obtain ⟨hslot, hentry⟩ := find_slot hk hfind
            exact .inr ⟨slot, hslot, hentry rfl, rfl, rfl⟩
      next => exact .inl rfl

theorem next_cases (hash : S → ℕ) (turn : MapTurn S V) :
    (∃ ret, turn.next hash = .error (.returned ret)) ∨ turn.next hash = .error .freedTable ∨
      (turn.next hash = .ok turn.slot ∧
        ((turn.after hash).table turn.slot).map (fun e => e.key.addr) ≠
          some turn.entry.key.addr) ∨
      turn.next hash = .ok (turn.slot + 1) := by
  rw [MapTurn.next]
  split
  next => exact .inl ⟨_, rfl⟩
  split
  next => exact .inl ⟨_, rfl⟩
  split
  next => exact .inr (.inl rfl)
  split
  next hkey => exact .inr (.inr (.inl ⟨rfl, hkey⟩))
  split
  next => exact .inl ⟨_, rfl⟩
  next => exact .inr (.inr (.inr rfl))

/-- Every turn either takes an entry out or moves the loop on. -/
theorem iterateLoop_total (hash : S → ℕ) (choices : List Bool) (m : HashMap S V) (slot : ℕ)
    (hk : m.tableSize = 2 ^ (k + 1)) (hslot : slot ≤ m.tableSize)
    (hleft : m.occupied.card + (m.tableSize - slot) < choices.length) :
    (iterateLoop hash (choices.map removeCurrent) m slot).2 ≠ .calling := by
  induction choices generalizing m slot with
  | nil => exact absurd hleft (Nat.not_lt_zero _)
  | cons remove choices ih =>
      rw [List.length_cons] at hleft
      rw [List.map_cons]
      rcases entryFrom_cases (m := m) hslot with ⟨p, e, hentry, hle, hp, he, -⟩ | ⟨hentry, -⟩
      · have hpos := card_occupied_pos hp he
        rcases next_cases hash ⟨m, p, e, (removeCurrent remove e).1, (removeCurrent remove e).2⟩
          with ⟨ret, hnext⟩ | hnext | ⟨hnext, hkey⟩ | hnext
        · rw [iterateLoop_stop _ hentry hnext]
          exact IterateEnd.noConfusion
        · rw [iterateLoop_stop _ hentry hnext]
          exact IterateEnd.noConfusion
        · rw [iterateLoop_go _ hentry hnext]
          rcases removeCurrent_cases (e := e) hash remove hk with hsame | ⟨q, hq, ⟨x, hx⟩, -, hafter⟩
          · refine absurd ?_ hkey
            rw [MapTurn.after, hsame, he]
            rfl
          · have hcard := card_clearElem hash hk hq hx
            have hsize : (m.clearElem hash q).tableSize = m.tableSize := rfl
            rw [hafter]
            exact ih (m.clearElem hash q) p hk hp.le (by omega)
        · rw [iterateLoop_go _ hentry hnext]
          rcases removeCurrent_cases (e := e) hash remove hk with hsame | ⟨q, hq, ⟨x, hx⟩, -, hafter⟩
          · rw [hsame]
            exact ih m (p + 1) hk hp (by omega)
          · have hcard := card_clearElem hash hk hq hx
            have hsize : (m.clearElem hash q).tableSize = m.tableSize := rfl
            rw [hafter]
            exact ih (m.clearElem hash q) (p + 1) hk hp (by omega)
      · rw [iterateLoop_none _ hentry]
        exact IterateEnd.noConfusion

theorem mem_iterateLoop_head {fn : MapCb S V} {slot : ℕ} (fns : List (MapCb S V))
    (hentry : m.entryFrom slot = some (p, e)) :
    (⟨m, p, e, (fn e).1, (fn e).2⟩ : MapTurn S V) ∈ (iterateLoop hash (fn :: fns) m slot).1 := by
  cases hnext : (⟨m, p, e, (fn e).1, (fn e).2⟩ : MapTurn S V).next hash with
  | error last =>
      rw [iterateLoop_stop fns hentry hnext]
      exact List.mem_cons_self
  | ok next =>
      rw [iterateLoop_go fns hentry hnext]
      exact List.mem_cons_self

/-- The callback was called for the entries from `slot` on, and for those carried back. -/
structure Accounts (hash : S → ℕ) (m : HashMap S V) (slot : ℕ)
    (run : List (MapTurn S V) × IterateEnd) : Prop where
  returned : run.2 = .returned 0
  visited : (run.1.map MapTurn.found : Multiset (Option (MapElem S V))) =
    (m.pending slot + carriedBy hash (callbackRemovals run.1)).map some

omit [DecidableEq S] [DecidableEq V] in
theorem Accounts.keep {slot : ℕ} {rest : List (MapTurn S V) × IterateEnd} {ret : ℤ}
    (h : Accounts hash m (p + 1) rest) (hp : p < m.tableSize) (he : m.table p = some e)
    (hpending : m.pending slot = m.pending p) :
    Accounts hash m slot (⟨m, p, e, [], ret⟩ :: rest.1, rest.2) := by
  refine ⟨h.returned, ?_⟩
  have hfound : MapTurn.found (⟨m, p, e, [], ret⟩ : MapTurn S V) = some e := he
  rw [List.map_cons, ← Multiset.cons_coe, h.visited, hfound, hpending, pending_succ hp he,
    Multiset.cons_add, Multiset.map_cons]
  rfl

omit [DecidableEq S] [DecidableEq V] in
theorem Accounts.remove {slot : ℕ} {rest : List (MapTurn S V) × IterateEnd}
    {call : MapCall S V} {ret : ℤ} (h : Accounts hash (m.clearElem hash p) p rest)
    (hk : m.tableSize = 2 ^ (k + 1)) (hp : p < m.tableSize) (he : m.table p = some e)
    (hpending : m.pending slot = m.pending p) :
    Accounts hash m slot (⟨m, p, e, [call], ret⟩ :: rest.1, rest.2) := by
  refine ⟨h.returned, ?_⟩
  have hfound : MapTurn.found (⟨m, p, e, [call], ret⟩ : MapTurn S V) = some e := he
  have hremovals : callbackRemovals (⟨m, p, e, [call], ret⟩ :: rest.1) =
      (m, p) :: callbackRemovals rest.1 := rfl
  rw [List.map_cons, ← Multiset.cons_coe, h.visited, hfound, hpending, hremovals,
    carriedBy_cons, ← Multiset.map_cons, ← Multiset.cons_add,
    pending_clearElem hash hk hp he, add_assoc, add_left_comm]

theorem iterateLoop_accounts (hash : S → ℕ) (choices : List Bool) (m : HashMap S V) (slot : ℕ)
    (hk : m.tableSize = 2 ^ (k + 1)) (hslot : slot ≤ m.tableSize)
    (hcount : m.occupied.card ≤ m.length)
    (hends : (iterateLoop hash (choices.map removeCurrent) m slot).2 ≠ .calling)
    (hremoves : ∀ turn ∈ (iterateLoop hash (choices.map removeCurrent) m slot).1,
      turn.calls ≠ [] → turn.RemovesCurrent hash) :
    Accounts hash m slot (iterateLoop hash (choices.map removeCurrent) m slot) := by
  induction choices generalizing m slot with
  | nil =>
      rcases entryFrom_cases (m := m) hslot with ⟨p, e, hentry, -⟩ | ⟨hentry, hpending⟩
      · rw [List.map_nil, iterateLoop, hentry] at hends
        exact absurd rfl hends
      · rw [List.map_nil, iterateLoop_none _ hentry]
        exact ⟨rfl, by rw [hpending]; rfl⟩
  | cons remove choices ih =>
      rw [List.map_cons] at hends hremoves ⊢
      rcases entryFrom_cases (m := m) hslot with
        ⟨p, e, hentry, hle, hp, he, hpending⟩ | ⟨hentry, hpending⟩
      · have hturn := hremoves _ (mem_iterateLoop_head _ hentry)
        cases remove with
        | false =>
            have hafter : (runCalls hash m (removeCurrent (V := V) false e).1).2 = m := rfl
            have hnext : (⟨m, p, e, (removeCurrent false e).1, (removeCurrent false e).2⟩ :
                MapTurn S V).next hash = .ok (p + 1) := by
              simp [MapTurn.next, MapTurn.after, removeCurrent, runCalls, he]
            rw [iterateLoop_go _ hentry hnext, hafter] at hends hremoves ⊢
            exact (ih m (p + 1) hk hp hcount hends
              (fun turn hmem => hremoves turn (List.mem_cons_of_mem _ hmem))).keep hp he hpending
        | true =>
            have hcurrent := hturn (List.cons_ne_nil _ _)
            have hpos := card_occupied_pos hp he
            have hafter : (runCalls hash m (removeCurrent (V := V) true e).1).2 =
                m.clearElem hash p := by
              have hfind : m.hashmapEntryFind hash e.key.text false = some p := hcurrent.current
              have hlength : 0 < m.length := by omega
              simp [removeCurrent, runCalls, MapCall.exec, mMapRemove, hfind, hlength]
            have hnext : (⟨m, p, e, (removeCurrent true e).1, (removeCurrent true e).2⟩ :
                MapTurn S V).next hash = .ok p := by
              have hkey := key_clearElem hash hk hp hcurrent.key
              have hsize : (m.clearElem hash p).tableSize = m.tableSize := rfl
              have hzero : ¬ (removeCurrent (V := V) true e).2 < 0 := lt_irrefl 0
              have hzero' : ¬ (removeCurrent (V := V) true e).2 > 0 := lt_irrefl 0
              rw [MapTurn.next, MapTurn.after, hafter, if_neg hzero, if_neg hzero',
                if_neg (not_not.mpr hsize), if_pos hkey]
            rw [iterateLoop_go _ hentry hnext, hafter] at hends hremoves ⊢
            exact (ih (m.clearElem hash p) p hk hp.le
              (by rw [card_clearElem hash hk hp he]; exact Nat.sub_le_sub_right hcount 1) hends
              (fun turn hmem => hremoves turn (List.mem_cons_of_mem _ hmem))).remove hk hp he
              hpending
      · rw [iterateLoop_none _ hentry]
        exact ⟨rfl, by rw [hpending]; rfl⟩

end Callback

/-! ## Every map -/

theorem entries_eq_zero (hcount : m.occupied.card ≤ m.length) (hlength : m.length = 0) :
    m.entries = 0 := by
  rw [← Multiset.card_eq_zero, card_entries]
  omega

section Maps

variable [DecidableEq S] [DecidableEq V]

omit [DecidableEq S] [DecidableEq V] in
theorem itrNew_visited (hash : S → ℕ) (hk : m.tableSize = 2 ^ (k + 1))
    (hcount : m.occupied.card ≤ m.length) :
    (∀ choice : ℕ → Bool, ∃ visits last,
      Iterates hash m m.mMapItrNew visits last ∧ Follows choice visits) ∧
    ∀ visits last, Iterates hash m m.mMapItrNew visits last →
      (visits.map MapVisit.entry : Multiset (Option (MapElem S V))) =
        (m.entries + carriedBy hash (removals visits)).map some := by
  rw [mMapItrNew]
  split
  next =>
    exact ⟨fun choice => iterates_total hash _ choice m hk ⟨none, false⟩ (Nat.zero_le _)
        (Nat.lt_succ_self _),
      fun visits last h => h.visited hk (Nat.zero_le _) rfl⟩
  next hlength =>
    refine ⟨fun choice => ⟨[], m, .done m, fun n v hv => by simp at hv⟩, fun visits last h => ?_⟩
    cases h
    rw [entries_eq_zero hcount (by omega)]
    rfl

theorem mMapIterate_total (hash : S → ℕ) (hk : m.tableSize = 2 ^ (k + 1))
    (choice : ℕ → Bool) :
    ∃ n, (mMapIterate hash (((List.range n).map choice).map removeCurrent) m).2 ≠ .calling := by
  refine ⟨m.occupied.card + m.tableSize + 1, ?_⟩
  rw [mMapIterate]
  split
  next => exact iterateLoop_total hash _ m 0 hk (Nat.zero_le _) (by simp)
  next => exact IterateEnd.noConfusion

theorem mMapIterate_visited (hash : S → ℕ) (hk : m.tableSize = 2 ^ (k + 1))
    (hcount : m.occupied.card ≤ m.length) (choices : List Bool)
    (hends : (mMapIterate hash (choices.map removeCurrent) m).2 ≠ .calling)
    (hremoves : ∀ turn ∈ (mMapIterate hash (choices.map removeCurrent) m).1,
      turn.calls ≠ [] → turn.RemovesCurrent hash) :
    ((mMapIterate hash (choices.map removeCurrent) m).1.map MapTurn.found :
        Multiset (Option (MapElem S V))) =
      (m.entries + carriedBy hash (callbackRemovals
        (mMapIterate hash (choices.map removeCurrent) m).1)).map some := by
  rw [mMapIterate] at hends hremoves ⊢
  split at hends
  next hlength =>
    rw [if_pos hlength] at hremoves ⊢
    exact (iterateLoop_accounts hash choices m 0 hk (Nat.zero_le _) hcount hends hremoves).visited
  next hlength =>
    rw [if_neg hlength, entries_eq_zero hcount (by omega)]
    rfl

/-- Whatever calls have made the map, an iteration that removes current entries ends, and it
visits each entry once if and only if no removal moves an entry from a slot before the removed
one to a slot that is not before it.  So does `m_map_iterate`. -/
theorem visitsOnce_iff (hash : S → ℕ) (flags : MapFlags) (dtor : Bool)
    (calls : List (MapCall S V)) :
    let m := (runCalls hash (mMapNew flags dtor) calls).2
    ((∀ choice : ℕ → Bool, ∃ visits last,
        Iterates hash m m.mMapItrNew visits last ∧ Follows choice visits) ∧
      ∀ visits last, Iterates hash m m.mMapItrNew visits last →
        (VisitsOnce m (visits.map MapVisit.entry) ↔
          ∀ removal ∈ removals visits, removal.1.carried hash removal.2 = none)) ∧
    (∀ choice : ℕ → Bool, ∃ n,
        (mMapIterate hash (((List.range n).map choice).map removeCurrent) m).2 ≠ .calling) ∧
      ∀ choices : List Bool, (mMapIterate hash (choices.map removeCurrent) m).2 ≠ .calling →
        (∀ turn ∈ (mMapIterate hash (choices.map removeCurrent) m).1,
          turn.calls ≠ [] → turn.RemovesCurrent hash) →
        (VisitsOnce m ((mMapIterate hash (choices.map removeCurrent) m).1.map MapTurn.found) ↔
          ∀ removal ∈ callbackRemovals (mMapIterate hash (choices.map removeCurrent) m).1,
            removal.1.carried hash removal.2 = none) := by
  have hroomy := (roomy_new (S := S) (V := V) flags dtor).runCalls hash calls
  obtain ⟨k, -, hk⟩ := hroomy.size
  obtain ⟨htotal, hvisited⟩ := itrNew_visited hash hk hroomy.entries
  exact ⟨⟨htotal, fun visits last h => visitsOnce_of_carriedBy (hvisited visits last h)⟩,
    mMapIterate_total hash hk, fun choices hends hremoves =>
      visitsOnce_of_carriedBy (mMapIterate_visited hash hk hroomy.entries choices hends hremoves)⟩

end Maps

/-- Two entries whose chain starts at the last slot: the second one is in the first slot. -/
def wrappedPair : HashMap ℕ ℕ where
  tableSize := 256
  length := 2
  flags := ⟨false, false, false⟩
  table := Function.update (Function.update (fun _ => none) 255 (some ⟨⟨1, 255⟩, 7⟩)) 0
    (some ⟨⟨2, 511⟩, 8⟩)
  dtor := false

set_option maxRecDepth 4000 in
/-- Removing the entry of the last slot moves the other one there, where it is visited again. -/
theorem not_visitsOnce_wrappedPair :
    ¬ ∀ visits last, Iterates id wrappedPair wrappedPair.mMapItrNew visits last →
      VisitsOnce wrappedPair (visits.map MapVisit.entry) := by
  intro hvisits
  have hnew : wrappedPair.mMapItrNew = some ⟨some 0, false⟩ := by rfl
  have hsecond : wrappedPair.mMapItrNext ⟨some 0, false⟩ = some ⟨some 255, false⟩ := by
    rfl
  have hagain : (wrappedPair.clearElem id 255).mMapItrNext ⟨some 255, true⟩ =
      some ⟨some 255, false⟩ := by rfl
  have hend : (wrappedPair.clearElem id 255).mMapItrNext ⟨some 255, false⟩ = none := by
    rfl
  have hrun : Iterates id wrappedPair wrappedPair.mMapItrNew
      [⟨wrappedPair, 0, false⟩, ⟨wrappedPair, 255, true⟩,
        ⟨wrappedPair.clearElem id 255, 255, false⟩] (wrappedPair.clearElem id 255) := by
    rw [hnew]
    refine .keep ?_
    rw [hsecond]
    refine .remove rfl ?_
    rw [hagain]
    refine .keep ?_
    rw [hend]
    exact .done _
  have hcard := congrArg Multiset.card (hvisits _ _ hrun)
  exact absurd hcard (by decide)

end HashMap
end Libmodule
