import Libmodule.HashMap
import Mathlib.Data.Nat.Bitwise

/-!
# The table invariant of the hash map

The table size is a power of two, every entry is reachable from its home slot
within half a table, and keys are distinct.  Under it a lookup finds exactly
the stored keys, and doubling succeeds and keeps every entry, for every hash
function.
-/

namespace Libmodule
namespace HashMap

open ProbeTable

variable {S V : Type} {hash : S → ℕ}

/-- The home slot of an entry. -/
def home (hash : S → ℕ) (m : HashMap S V) (entry : MapElem S V) : ℕ :=
  m.hashmapCalcIndex hash entry.key.text

def occupied (m : HashMap S V) : Finset ℕ :=
  (Finset.range m.tableSize).filter (fun slot => m.table slot ≠ none)

structure TableInvariant (hash : S → ℕ) (m : HashMap S V) : Prop where
  size : ∃ k, 7 ≤ k ∧ k ≤ 60 ∧ m.tableSize = 2 ^ (k + 1)
  chained : Chained m.tableSize (m.tableSize / 2) (m.home hash) m.table
  keysDistinct : ∀ p q e e', p < m.tableSize → q < m.tableSize →
    m.table p = some e → m.table q = some e' → e.key.text = e'.key.text → p = q
  length_eq : m.length = m.occupied.card
  length_lt : m.length < m.tableSize

/-! ## Index arithmetic -/

theorem sizeMod_eq {m : HashMap S V} {k : ℕ} (hk : m.tableSize = 2 ^ k) (val : ℕ) :
    m.sizeMod val = val % m.tableSize := by
  rw [sizeMod, hk, Nat.and_two_pow_sub_one_eq_mod]

theorem probeLen_eq (m : HashMap S V) : m.probeLen = m.tableSize / 2 := by
  simp [probeLen, Nat.shiftRight_eq_div_pow]

theorem probeNext_slotAt {m : HashMap S V} {k : ℕ} (hk : m.tableSize = 2 ^ k)
    {r i : ℕ} (hr : r < m.tableSize) (hi : i < m.tableSize) :
    m.probeNext (slotAt m.tableSize r i) = slotAt m.tableSize r (i + 1) := by
  have hlt : slotAt m.tableSize r i < m.tableSize := slotAt_lt hr hi.le
  rw [probeNext, sizeMod_eq hk, slotAt_succ hr hi]
  split
  next hnext => exact Nat.mod_eq_of_lt hnext
  next hlast =>
    have heq : slotAt m.tableSize r i + 1 = m.tableSize := by omega
    rw [heq, Nat.mod_self]

theorem calcIndex_lt (hash : S → ℕ) {m : HashMap S V} {k : ℕ} (hk : m.tableSize = 2 ^ k) (key : S) :
    m.hashmapCalcIndex hash key < m.tableSize := by
  rw [hashmapCalcIndex, sizeMod_eq hk]
  exact Nat.mod_lt _ (by rw [hk]; positivity)

private theorem and_two_pow_ne_zero {x k : ℕ} :
    x &&& 2 ^ k ≠ 0 ↔ 2 ^ k ≤ x % 2 ^ (k + 1) := by
  have hbit : x.testBit k = (x % 2 ^ (k + 1)).testBit k := by
    simp [Nat.testBit_mod_two_pow]
  have hlt : x % 2 ^ (k + 1) < 2 ^ (k + 1) := Nat.mod_lt _ (by positivity)
  rw [Nat.and_comm, Nat.two_pow_and, hbit, Nat.testBit_eq_decide_div_mod_eq]
  generalize x % 2 ^ (k + 1) = y at hlt ⊢
  have hpos : 0 < 2 ^ k := by positivity
  have hdiv : y / 2 ^ k < 2 := by
    rw [Nat.div_lt_iff_lt_mul hpos]
    rw [pow_succ] at hlt
    omega
  by_cases hle : 2 ^ k ≤ y
  · have h1 : 1 ≤ y / 2 ^ k := (Nat.one_le_div_iff hpos).mpr hle
    have heq : y / 2 ^ k = 1 := by omega
    simp [heq, hle]
  · have heq : y / 2 ^ k = 0 := Nat.div_eq_of_lt (by omega)
    simp [heq, hle]

/-- The mask test of `MAP_INDEX_LE` reads the top bit of the cyclic distance. -/
theorem indexLe_iff {m : HashMap S V} {k : ℕ} (hk : m.tableSize = 2 ^ (k + 1))
    (hk60 : k ≤ 60) {a b : ℕ} (ha : a < m.tableSize) (hb : b < m.tableSize) :
    m.indexLe a b = true ↔ a = b ∨ m.tableSize / 2 ≤ dist m.tableSize a b := by
  have hhalf : m.tableSize >>> 1 = 2 ^ k := by
    rw [hk, Nat.shiftRight_eq_div_pow, pow_one, pow_succ, Nat.mul_div_cancel _ (by omega)]
  have hhalf' : m.tableSize / 2 = 2 ^ k := by
    rw [← hhalf, Nat.shiftRight_eq_div_pow, pow_one]
  have hdvd : m.tableSize ∣ 2 ^ 64 := by
    rw [hk]
    exact pow_dvd_pow 2 (by omega)
  obtain ⟨c, hc⟩ := hdvd
  have hcpos : 0 < c := by
    by_contra hcon
    have : c = 0 := by omega
    simp [this] at hc
  have hmod : (b + 2 ^ 64 - a) % 2 ^ 64 % 2 ^ (k + 1) = dist m.tableSize a b := by
    rw [← hk, Nat.mod_mod_of_dvd _ ⟨c, hc⟩]
    obtain ⟨d, rfl⟩ : ∃ d, c = d + 1 := ⟨c - 1, by omega⟩
    rcases dist_cases m.tableSize a b with ⟨hab, hd⟩ | ⟨hab, hd⟩
    · have heq : b + 2 ^ 64 - a = (b - a) + m.tableSize * (d + 1) := by omega
      rw [heq, Nat.add_mul_mod_self_left, Nat.mod_eq_of_lt (by omega), hd]
    · have heq : b + 2 ^ 64 - a = (b + m.tableSize - a) + m.tableSize * d := by
        rw [hc, Nat.mul_succ]
        omega
      rw [heq, Nat.add_mul_mod_self_left, Nat.mod_eq_of_lt (by omega), hd]
  have hmask := and_two_pow_ne_zero (x := (b + 2 ^ 64 - a) % 2 ^ 64) (k := k)
  rw [hmod] at hmask
  rw [indexLe, hhalf, hhalf', Bool.or_eq_true, beq_iff_eq, bne_iff_ne]
  exact or_congr Iff.rfl hmask

/-! ## Lookup -/

section Lookup

variable [DecidableEq S] {m : HashMap S V} {k : ℕ} {key : S}

/-- The probe at offset `i` from slot `h` meets an entry with another key. -/
def Passes (m : HashMap S V) (key : S) (h i : ℕ) : Prop :=
  ∃ e, m.table (slotAt m.tableSize h i) = some e ∧ key ≠ e.key.text

theorem entryFindFrom_passes (hk : m.tableSize = 2 ^ k) (findEmpty : Bool)
    (left i : ℕ) {h j : ℕ} (hh : h < m.tableSize) (hij : i + j ≤ m.tableSize)
    (hj : j ≤ left) (hpass : ∀ n < j, m.Passes key h (i + n)) :
    m.entryFindFrom key findEmpty left (slotAt m.tableSize h i) =
      m.entryFindFrom key findEmpty (left - j) (slotAt m.tableSize h (i + j)) := by
  induction j generalizing left i with
  | zero => simp
  | succ j ih =>
      obtain ⟨left, rfl⟩ : ∃ n, left = n + 1 := ⟨left - 1, by omega⟩
      obtain ⟨e, he, hne⟩ := hpass 0 (by omega)
      rw [Nat.add_zero] at he
      rw [entryFindFrom, he]
      simp only [hne, if_false]
      rw [probeNext_slotAt hk hh (by omega), ih left (i + 1) (by omega) (by omega)]
      · rw [show left + 1 - (j + 1) = left - j by omega,
          show i + 1 + j = i + (j + 1) by omega]
      · intro n hn
        rw [show i + 1 + n = i + (n + 1) by omega]
        exact hpass (n + 1) (by omega)

/-- How a bounded probe can end: on the key, on an empty slot, or at its
bound. -/
theorem probe_cases (key : S) (h bound : ℕ) :
    (∃ j < bound, (∀ n < j, m.Passes key h n) ∧
      ((∃ e, m.table (slotAt m.tableSize h j) = some e ∧ e.key.text = key) ∨
        m.table (slotAt m.tableSize h j) = none)) ∨
    ∀ n < bound, m.Passes key h n := by
  induction bound with
  | zero => exact Or.inr (by intro n hn; omega)
  | succ bound ih =>
      rcases ih with ⟨j, hj, hrest⟩ | hall
      · exact Or.inl ⟨j, by omega, hrest⟩
      · cases hslot : m.table (slotAt m.tableSize h bound) with
        | none => exact Or.inl ⟨bound, by omega, hall, Or.inr hslot⟩
        | some e =>
            by_cases hkey : e.key.text = key
            · exact Or.inl ⟨bound, by omega, hall, Or.inl ⟨e, hslot, hkey⟩⟩
            · right
              intro n hn
              by_cases hnb : n = bound
              · exact ⟨e, hnb ▸ hslot, fun heq => hkey heq.symm⟩
              · exact hall n (by omega)

theorem find_of_hit (hash : S → ℕ) (hk : m.tableSize = 2 ^ k) (findEmpty : Bool) {j : ℕ}
    {e : MapElem S V} (hj : j < m.tableSize / 2)
    (hpass : ∀ n < j, m.Passes key (m.hashmapCalcIndex hash key) n)
    (he : m.table (slotAt m.tableSize (m.hashmapCalcIndex hash key) j) = some e)
    (hkey : e.key.text = key) :
    m.hashmapEntryFind hash key findEmpty =
      some (slotAt m.tableSize (m.hashmapCalcIndex hash key) j) := by
  have hh := calcIndex_lt hash hk key
  have hstep := entryFindFrom_passes hk findEmpty (m.tableSize / 2) 0
    (j := j) hh (by omega) hj.le (by simpa using hpass)
  rw [slotAt_zero hh, Nat.zero_add] at hstep
  rw [hashmapEntryFind, probeLen_eq, hstep]
  obtain ⟨left, hleft⟩ : ∃ n, m.tableSize / 2 - j = n + 1 :=
    ⟨m.tableSize / 2 - j - 1, by omega⟩
  rw [hleft, entryFindFrom, he]
  simp [hkey]

theorem find_of_empty (hk : m.tableSize = 2 ^ k) (findEmpty : Bool) {j : ℕ}
    (hj : j < m.tableSize / 2)
    (hpass : ∀ n < j, m.Passes key (m.hashmapCalcIndex hash key) n)
    (hnone : m.table (slotAt m.tableSize (m.hashmapCalcIndex hash key) j) = none) :
    m.hashmapEntryFind hash key findEmpty =
      if findEmpty then some (slotAt m.tableSize (m.hashmapCalcIndex hash key) j)
      else none := by
  have hh := calcIndex_lt hash hk key
  have hstep := entryFindFrom_passes hk findEmpty (m.tableSize / 2) 0
    (j := j) hh (by omega) hj.le (by simpa using hpass)
  rw [slotAt_zero hh, Nat.zero_add] at hstep
  rw [hashmapEntryFind, probeLen_eq, hstep]
  obtain ⟨left, hleft⟩ : ∃ n, m.tableSize / 2 - j = n + 1 :=
    ⟨m.tableSize / 2 - j - 1, by omega⟩
  rw [hleft, entryFindFrom, hnone]

theorem find_of_full (hk : m.tableSize = 2 ^ k) (findEmpty : Bool)
    (hpass : ∀ n < m.tableSize / 2, m.Passes key (m.hashmapCalcIndex hash key) n) :
    m.hashmapEntryFind hash key findEmpty = none := by
  have hh := calcIndex_lt hash hk key
  have hstep := entryFindFrom_passes hk findEmpty (m.tableSize / 2) 0
    (j := m.tableSize / 2) hh (by omega) le_rfl (by simpa using hpass)
  rw [slotAt_zero hh] at hstep
  rw [hashmapEntryFind, probeLen_eq, hstep, Nat.sub_self, entryFindFrom]

theorem find_of_stored (hT : Chained m.tableSize (m.tableSize / 2) (m.home hash) m.table)
    (hk : m.tableSize = 2 ^ k)
    (hkeys : ∀ p q e e', p < m.tableSize → q < m.tableSize → m.table p = some e →
      m.table q = some e' → e.key.text = e'.key.text → p = q)
    (findEmpty : Bool) {p : ℕ} {e : MapElem S V} (hp : p < m.tableSize)
    (he : m.table p = some e) :
    m.hashmapEntryFind hash e.key.text findEmpty = some p := by
  have hhome := hT.home_lt p e hp he
  have hslot : slotAt m.tableSize (m.home hash e) (dist m.tableSize (m.home hash e) p) = p :=
    slotAt_dist hhome hp
  have hd := hT.dist_lt p e hp he
  have hpass : ∀ n < dist m.tableSize (m.home hash e) p,
      m.Passes e.key.text (m.home hash e) n := by
    intro n hn
    have hfilled := hT.filled p e hp he n hn
    obtain ⟨x, hx⟩ := Option.ne_none_iff_exists'.mp hfilled
    refine ⟨x, hx, ?_⟩
    intro hkey
    have hnlt : slotAt m.tableSize (m.home hash e) n < m.tableSize :=
      slotAt_lt hhome (by omega)
    have heq := hkeys p _ e x hp hnlt he hx hkey
    rw [← hslot] at heq
    have := slotAt_inj (by omega) (by omega) heq
    omega
  have hfind := find_of_hit hash hk findEmpty hd hpass (by rw [← home, hslot, he]) rfl
  rw [hfind]
  exact congrArg some hslot

omit [DecidableEq S] in
/-- A probe that reaches its bound has met half a table of entries. -/
theorem half_le_card_of_passes (hash : S → ℕ) (hk : m.tableSize = 2 ^ k)
    (hall : ∀ n < m.tableSize / 2, m.Passes key (m.hashmapCalcIndex hash key) n) :
    m.tableSize / 2 ≤ m.occupied.card := by
  have hh := calcIndex_lt hash hk key
  have himage : (Finset.range (m.tableSize / 2)).image
      (slotAt m.tableSize (m.hashmapCalcIndex hash key)) ⊆ m.occupied := by
    intro slot hslot
    obtain ⟨n, hn, rfl⟩ := Finset.mem_image.mp hslot
    rw [Finset.mem_range] at hn
    obtain ⟨e, he, _⟩ := hall n hn
    rw [occupied, Finset.mem_filter, Finset.mem_range]
    exact ⟨slotAt_lt hh (by omega), by simp [he]⟩
  have hcard := Finset.card_le_card himage
  rwa [Finset.card_image_of_injOn, Finset.card_range] at hcard
  intro a ha b hb heq
  simp only [Finset.coe_range, Set.mem_Iio] at ha hb
  exact slotAt_inj (by omega) (by omega) heq

/-- A table with fewer entries than probes has, for an absent key, an empty
slot that keeps the key's chain. -/
theorem find_of_absent (hash : S → ℕ) (key : S) (hk : m.tableSize = 2 ^ k) (findEmpty : Bool)
    (habsent : ∀ p e, p < m.tableSize → m.table p = some e → e.key.text ≠ key) :
    (∃ j < m.tableSize / 2, (∀ n < j, m.table (slotAt m.tableSize
        (m.hashmapCalcIndex hash key) n) ≠ none) ∧
      m.table (slotAt m.tableSize (m.hashmapCalcIndex hash key) j) = none ∧
      m.hashmapEntryFind hash key findEmpty =
        if findEmpty then some (slotAt m.tableSize (m.hashmapCalcIndex hash key) j)
        else none) ∨
    (m.tableSize / 2 ≤ m.occupied.card ∧ m.hashmapEntryFind hash key findEmpty = none) := by
  have hh := calcIndex_lt hash hk key
  rcases probe_cases (m := m) key (m.hashmapCalcIndex hash key) (m.tableSize / 2) with
    ⟨j, hj, hpass, ⟨e, he, hkey⟩ | hnone⟩ | hall
  · exact absurd hkey (habsent _ e (slotAt_lt hh (by omega)) he)
  · refine Or.inl ⟨j, hj, ?_, hnone, find_of_empty hk findEmpty hj hpass hnone⟩
    intro n hn
    obtain ⟨e, he, _⟩ := hpass n hn
    simp [he]
  · exact Or.inr ⟨half_le_card_of_passes hash hk hall, find_of_full hk findEmpty hall⟩

end Lookup

/-! ## Changing one slot -/

theorem occupied_update_some {m : HashMap S V} {slot : ℕ} (hslot : slot < m.tableSize)
    (e : MapElem S V) :
    ({ m with table := Function.update m.table slot (some e) } : HashMap S V).occupied =
      insert slot m.occupied := by
  ext p
  by_cases heq : p = slot
  · subst heq
    simp [occupied, hslot]
  · simp [occupied, heq]

theorem card_occupied_fill {m : HashMap S V} {slot : ℕ} (hslot : slot < m.tableSize)
    (hnone : m.table slot = none) (e : MapElem S V) :
    ({ m with table := Function.update m.table slot (some e) } : HashMap S V).occupied.card =
      m.occupied.card + 1 := by
  rw [occupied_update_some hslot, Finset.card_insert_of_notMem]
  simp [occupied, hnone]

/-- Entries with distinct keys and a chain for each of them. -/
structure Probed (hash : S → ℕ) (m : HashMap S V) : Prop where
  chained : Chained m.tableSize (m.tableSize / 2) (m.home hash) m.table
  keysDistinct : ∀ p q e e', p < m.tableSize → q < m.tableSize →
    m.table p = some e → m.table q = some e' → e.key.text = e'.key.text → p = q

theorem TableInvariant.probed {m : HashMap S V} (h : TableInvariant hash m) :
    Probed hash m := ⟨h.chained, h.keysDistinct⟩

/-- An entry is stored somewhere in the table. -/
def Stored (m : HashMap S V) (e : MapElem S V) : Prop :=
  ∃ p < m.tableSize, m.table p = some e

theorem Probed.fill {m : HashMap S V} (h : Probed hash m) {k j : ℕ}
    (hk : m.tableSize = 2 ^ k) {e : MapElem S V}
    (habsent : ∀ x, m.Stored x → x.key.text ≠ e.key.text)
    (hj : j < m.tableSize / 2)
    (hbefore : ∀ n < j, m.table (slotAt m.tableSize (m.home hash e) n) ≠ none) :
    Probed hash { m with
      table := Function.update m.table (slotAt m.tableSize (m.home hash e) j) (some e) } := by
  constructor
  · exact h.chained.insert (calcIndex_lt _ hk _) hj (by omega) hbefore
  · intro p q x y hp hq hx hy hkey
    simp only at hp hq hx hy
    by_cases hpe : p = slotAt m.tableSize (m.home hash e) j
    · by_cases hqe : q = slotAt m.tableSize (m.home hash e) j
      · rw [hpe, hqe]
      · rw [Function.update_of_ne hqe] at hy
        subst hpe
        simp only [Function.update_self, Option.some.injEq] at hx
        subst hx
        exact absurd hkey.symm (habsent y ⟨q, hq, hy⟩)
    · rw [Function.update_of_ne hpe] at hx
      by_cases hqe : q = slotAt m.tableSize (m.home hash e) j
      · subst hqe
        simp only [Function.update_self, Option.some.injEq] at hy
        subst hy
        exact absurd hkey (habsent x ⟨p, hp, hx⟩)
      · rw [Function.update_of_ne hqe] at hy
        exact h.keysDistinct p q x y hp hq hx hy hkey

theorem stored_fill {m : HashMap S V} {slot : ℕ} (hslot : slot < m.tableSize)
    (hnone : m.table slot = none) (e x : MapElem S V) :
    ({ m with table := Function.update m.table slot (some e) } : HashMap S V).Stored x ↔
      x = e ∨ m.Stored x := by
  constructor
  · rintro ⟨p, hp, hx⟩
    simp only at hp hx
    by_cases heq : p = slot
    · subst heq
      simp only [Function.update_self, Option.some.injEq] at hx
      exact Or.inl hx.symm
    · rw [Function.update_of_ne heq] at hx
      exact Or.inr ⟨p, hp, hx⟩
  · rintro (rfl | ⟨p, hp, hx⟩)
    · exact ⟨slot, hslot, by simp⟩
    · refine ⟨p, hp, ?_⟩
      have hne : p ≠ slot := by
        rintro rfl
        rw [hnone] at hx
        simp at hx
      simpa [Function.update_of_ne hne] using hx

/-! ## Doubling -/

section Rehash

variable [DecidableEq S]

theorem rehashLoop_spec (hash : S → ℕ) {oldTable : ℕ → Option (MapElem S V)} {oldSize k : ℕ}
    (hkeys : ∀ p q e e', p < oldSize → q < oldSize → oldTable p = some e →
      oldTable q = some e' → e.key.text = e'.key.text → p = q)
    (left : ℕ) (hleft : left ≤ oldSize) (m : HashMap S V)
    (hk : m.tableSize = 2 ^ k) (hsize : m.tableSize = 2 * oldSize)
    (hcount : ∀ done ≤ oldSize, ((Finset.range done).filter
      (fun p => oldTable p ≠ none)).card < oldSize)
    (hprobed : Probed hash m)
    (hcard : m.occupied.card = ((Finset.range (oldSize - left)).filter
      (fun p => oldTable p ≠ none)).card)
    (hstored : ∀ x, m.Stored x ↔ ∃ p < oldSize - left, oldTable p = some x) :
    ∃ T, rehashLoop hash oldTable oldSize left m = some { m with table := T } ∧
      Probed hash { m with table := T } ∧
      ({ m with table := T } : HashMap S V).occupied.card =
        ((Finset.range oldSize).filter (fun p => oldTable p ≠ none)).card ∧
      ∀ x, ({ m with table := T } : HashMap S V).Stored x ↔
        ∃ p < oldSize, oldTable p = some x := by
  induction left generalizing m with
  | zero =>
      refine ⟨m.table, rfl, hprobed, ?_, ?_⟩
      · simpa using hcard
      · simpa using hstored
  | succ left ih =>
      have hrange : Finset.range (oldSize - left) =
          insert (oldSize - (left + 1)) (Finset.range (oldSize - (left + 1))) := by
        rw [← Finset.range_add_one]
        congr 1
        omega
      cases hslot : oldTable (oldSize - (left + 1)) with
      | none =>
          rw [rehashLoop, hslot]
          apply ih (by omega) m hk hsize hprobed
          · rw [hcard, hrange, Finset.filter_insert]
            simp [hslot]
          · intro x
            rw [hstored x]
            constructor
            · rintro ⟨p, hp, hx⟩
              exact ⟨p, by omega, hx⟩
            · rintro ⟨p, hp, hx⟩
              refine ⟨p, ?_, hx⟩
              by_contra hcon
              have : p = oldSize - (left + 1) := by omega
              rw [this, hslot] at hx
              simp at hx
      | some e =>
          have habsent : ∀ x, m.Stored x → x.key.text ≠ e.key.text := by
            intro x hx hkey
            obtain ⟨p, hp, hpx⟩ := (hstored x).mp hx
            have := hkeys p _ x e (by omega) (by omega) hpx hslot hkey
            omega
          rcases find_of_absent hash e.key.text hk true
              (fun p x hp hx => habsent x ⟨p, hp, hx⟩) with
            ⟨j, hj, hbefore, hnone, hfind⟩ | ⟨hfull, _⟩
          · have hlt : slotAt m.tableSize (m.hashmapCalcIndex hash e.key.text) j <
                m.tableSize := slotAt_lt (calcIndex_lt _ hk _) (by omega)
            rw [rehashLoop, hslot]
            simp only [hfind, if_true]
            have hfill := ih (by omega)
              { m with
                table := Function.update m.table
                  (slotAt m.tableSize (m.hashmapCalcIndex hash e.key.text) j) (some e) }
              hk hsize (hprobed.fill hk habsent hj hbefore)
              (by
                rw [card_occupied_fill hlt hnone, hcard, hrange, Finset.filter_insert]
                simp [hslot])
              (by
                intro x
                rw [stored_fill hlt hnone, hstored x]
                constructor
                · rintro (rfl | ⟨p, hp, hx⟩)
                  · exact ⟨_, by omega, hslot⟩
                  · exact ⟨p, by omega, hx⟩
                · rintro ⟨p, hp, hx⟩
                  by_cases heq : p = oldSize - (left + 1)
                  · rw [heq, hslot] at hx
                    exact Or.inl (by simpa using hx.symm)
                  · exact Or.inr ⟨p, by omega, hx⟩)
            exact hfill
          · have hlt := hcount (oldSize - (left + 1)) (by omega)
            omega

/-- Doubling succeeds whenever the allocator does, and keeps every entry. -/
theorem hashmapRehash_spec {m : HashMap S V} (h : TableInvariant hash m)
    {mem : MapMem} (hmem : mem.calloc ((m.tableSize <<< 1) * sizeofMapElem) = true) :
    ∃ T, m.hashmapRehash hash mem =
        (0, { m with tableSize := 2 * m.tableSize, table := T }) ∧
      TableInvariant hash { m with tableSize := 2 * m.tableSize, table := T } ∧
      2 * m.length < 2 * m.tableSize ∧
      ∀ x, ({ m with tableSize := 2 * m.tableSize, table := T } : HashMap S V).Stored x ↔
        m.Stored x := by
  obtain ⟨k, hk7, hk60, hk⟩ := h.size
  have hshift : m.tableSize <<< 1 = 2 * m.tableSize := by
    rw [Nat.shiftLeft_eq, pow_one, Nat.mul_comm]
  have hpow : 2 * m.tableSize = 2 ^ (k + 2) := by
    rw [hk]
    ring
  have hbytes := mem.calloc_lt _ hmem
  have hk59 : k + 1 ≤ 60 := by
    rw [hshift, hpow, sizeofMapElem] at hbytes
    by_contra hcon
    have hle : (2 : ℕ) ^ 62 ≤ 2 ^ (k + 2) := Nat.pow_le_pow_right (by omega) (by omega)
    omega
  have hempty : Probed hash ({ m with
      tableSize := 2 * m.tableSize, table := fun _ => none } : HashMap S V) :=
    ⟨chained_empty _ _ _, by intro p q e e' _ _ hp; simp at hp⟩
  obtain ⟨T, hloop, hprobed, hcard, hstored⟩ :=
    rehashLoop_spec hash (k := k + 2) h.keysDistinct m.tableSize le_rfl
      { m with tableSize := 2 * m.tableSize, table := fun _ => none } hpow rfl
      (by
        intro done hdone
        refine lt_of_le_of_lt (Finset.card_le_card ?_) (h.length_eq ▸ h.length_lt)
        exact Finset.filter_subset_filter _ (Finset.range_mono hdone))
      hempty
      (by simp [occupied])
      (by
        intro x
        simp [Stored])
  refine ⟨T, ?_, ?_, ?_, hstored⟩
  · rw [hashmapRehash, if_pos hmem, hshift, hloop]
  · refine ⟨⟨k + 1, by omega, hk59, hpow⟩, hprobed.chained, hprobed.keysDistinct, ?_, ?_⟩
    · rw [hcard]
      exact h.length_eq
    · have := h.length_lt
      simp only
      omega
  · have := h.length_lt
    omega

end Rehash

end HashMap
end Libmodule
