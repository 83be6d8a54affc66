import Libmodule.HashMapInvariant

/-!
# Deletion and clearing

Back-shift deletion permutes the slots that remain, whatever the table holds.
It keeps the table invariant when its bounded loop reaches the end of the
chain it repairs, which is the condition `ShiftEnds`.  Clearing removes entry
by entry in table order and needs no such condition.
-/

namespace Libmodule
namespace HashMap

open ProbeTable

variable {S V : Type} {hash : S → ℕ}

/-- The slots of a table after back-shift deletion are those of the table
without the removed entry, up to a permutation. -/
def Rearranges (s : ℕ) (T T' : ℕ → Option (MapElem S V)) : Prop :=
  ∃ σ : Equiv.Perm ℕ, (∀ i, σ i < s ↔ i < s) ∧ T' = T ∘ σ

theorem Rearranges.refl (s : ℕ) (T : ℕ → Option (MapElem S V)) : Rearranges s T T :=
  ⟨Equiv.refl ℕ, fun _ => Iff.rfl, rfl⟩

theorem Rearranges.trans {s : ℕ} {T T' T'' : ℕ → Option (MapElem S V)}
    (h : Rearranges s T T') (h' : Rearranges s T' T'') : Rearranges s T T'' := by
  obtain ⟨σ, hσ, rfl⟩ := h
  obtain ⟨τ, hτ, rfl⟩ := h'
  exact ⟨τ.trans σ, fun i => (hσ (τ i)).trans (hτ i), rfl⟩

/-- Moving an entry into the hole, seen on the tables with the hole blanked. -/
theorem Rearranges.move {s a b : ℕ} {T : ℕ → Option (MapElem S V)} {e : MapElem S V}
    (ha : a < s) (hb : b < s) (hne : a ≠ b) (he : T b = some e) :
    Rearranges s (Function.update T a none)
      (Function.update (Function.update T a (some e)) b none) := by
  refine ⟨Equiv.swap a b, ?_, ?_⟩
  · intro i
    by_cases hia : i = a
    · subst hia
      simp [ha, hb]
    · by_cases hib : i = b
      · subst hib
        simp [ha, hb]
      · rw [Equiv.swap_apply_of_ne_of_ne hia hib]
  · funext i
    by_cases hia : i = a
    · subst hia
      simp [Function.update_of_ne hne, Function.update_of_ne hne.symm, he]
    · by_cases hib : i = b
      · subst hib
        simp
      · simp [Equiv.swap_apply_of_ne_of_ne hia hib, Function.update_of_ne hia,
          Function.update_of_ne hib]

theorem Rearranges.stored (m m' : HashMap S V) {T : ℕ → Option (MapElem S V)}
    (hsize : m'.tableSize = m.tableSize) (h : Rearranges m.tableSize T m'.table)
    (e : MapElem S V) :
    m'.Stored e ↔ ∃ p < m.tableSize, T p = some e := by
  obtain ⟨σ, hσ, htable⟩ := h
  constructor
  · rintro ⟨p, hp, he⟩
    rw [htable] at he
    exact ⟨σ p, (hσ p).mpr (hsize ▸ hp), he⟩
  · rintro ⟨p, hp, he⟩
    refine ⟨σ.symm p, ?_, ?_⟩
    · rw [hsize, ← hσ, Equiv.apply_symm_apply]
      exact hp
    · rw [htable, Function.comp, Equiv.apply_symm_apply, he]

theorem Rearranges.card (m m' : HashMap S V)
    (hsize : m'.tableSize = m.tableSize) (h : Rearranges m.tableSize m.table m'.table) :
    m'.occupied.card = m.occupied.card := by
  obtain ⟨σ, hσ, htable⟩ := h
  have hmap : m'.occupied.map σ.toEmbedding = m.occupied := by
    ext p
    simp only [occupied, Finset.mem_map, Finset.mem_filter, Finset.mem_range,
      Equiv.coe_toEmbedding]
    constructor
    · rintro ⟨i, ⟨hi, hne⟩, rfl⟩
      rw [htable] at hne
      exact ⟨(hσ i).mpr (hsize ▸ hi), hne⟩
    · rintro ⟨hp, hne⟩
      refine ⟨σ.symm p, ⟨?_, ?_⟩, Equiv.apply_symm_apply σ p⟩
      · rw [hsize, ← hσ, Equiv.apply_symm_apply]
        exact hp
      · rw [htable, Function.comp, Equiv.apply_symm_apply]
        exact hne
  rw [← hmap, Finset.card_map]

section Delete

variable {m : HashMap S V} {k r : ℕ}

theorem clearLoop_rearranges (hash : S → ℕ) (hk : m.tableSize = 2 ^ k) (hr : r < m.tableSize)
    (left g t : ℕ) (hgt : g < t) (hleft : left + t ≤ m.tableSize)
    (T : ℕ → Option (MapElem S V)) :
    let shifted := clearLoop hash m left T (slotAt m.tableSize r g)
      (slotAt m.tableSize r t)
    Rearranges m.tableSize (Function.update T (slotAt m.tableSize r g) none)
        (Function.update shifted.1 shifted.2 none) ∧
      ∀ i, Function.update T (slotAt m.tableSize r g) none i = none →
        i ≠ slotAt m.tableSize r g →
        Function.update shifted.1 shifted.2 none i = none := by
  induction left generalizing g t T with
  | zero => exact ⟨Rearranges.refl _ _, fun i hi _ => hi⟩
  | succ left ih =>
      rw [clearLoop]
      cases hslot : T (slotAt m.tableSize r t) with
      | none => exact ⟨Rearranges.refl _ _, fun i hi _ => hi⟩
      | some e =>
          have hne : slotAt m.tableSize r g ≠ slotAt m.tableSize r t := by
            intro heq
            have := slotAt_inj (by omega) (by omega) heq
            omega
          simp only
          rw [probeNext_slotAt hk hr (by omega)]
          split
          · obtain ⟨hperm, hnone⟩ := ih t (t + 1) (by omega) (by omega)
              (Function.update T (slotAt m.tableSize r g) (some e))
            refine ⟨(Rearranges.move (slotAt_lt hr (by omega)) (slotAt_lt hr (by omega))
              hne hslot).trans hperm, ?_⟩
            intro i hi hig
            rw [Function.update_of_ne hig] at hi
            have hit : i ≠ slotAt m.tableSize r t := by
              rintro rfl
              rw [hslot] at hi
              simp at hi
            apply hnone i _ hit
            rw [Function.update_of_ne hit, Function.update_of_ne hig, hi]
          · exact ih g (t + 1) (by omega) (by omega) T

theorem clearElem_rearranges (hash : S → ℕ) (hk : m.tableSize = 2 ^ (k + 1)) (hr : r < m.tableSize) :
    Rearranges m.tableSize (Function.update m.table r none) (m.clearElem hash r).table ∧
      ∀ i, m.table i = none → (m.clearElem hash r).table i = none ∨ i = r := by
  have hpos : 2 ≤ m.tableSize := by
    rw [hk, pow_succ]
    have : 0 < 2 ^ k := by positivity
    omega
  have hnext : m.probeNext r = slotAt m.tableSize r 1 := by
    conv_lhs => rw [← slotAt_zero hr]
    exact probeNext_slotAt hk hr (by omega)
  have hloop := clearLoop_rearranges hash hk hr m.probeLen 0 1 (by omega)
    (by rw [probeLen_eq]; omega) (Function.update m.table r none)
  simp only [slotAt_zero hr, Function.update_idem] at hloop
  rw [clearElem, hnext]
  refine ⟨hloop.1, ?_⟩
  intro i hi
  by_cases hir : i = r
  · exact Or.inr hir
  · refine Or.inl (hloop.2 i ?_ hir)
    rw [Function.update_of_ne hir, hi]

/-- The back-shift loop for the entry in slot `r` stops at the end of the
chain it repairs.  Some slot at most half a table after `r` is crossed by no
chain of the occupied run that follows `r`; and if that run reaches half a
table and the entry there is at home, some entry before it has moved. -/
structure ShiftEnds (hash : S → ℕ) (m : HashMap S V) (r : ℕ) : Prop where
  barrier : ∃ j ≤ m.tableSize / 2, ∀ d e, j < d → d < m.tableSize →
    (∀ i, 0 < i → i ≤ d → m.table (slotAt m.tableSize r i) ≠ none) →
    m.table (slotAt m.tableSize r d) = some e →
    dist m.tableSize (m.home hash e) (slotAt m.tableSize r d) < d - j
  halfway : ∀ e,
    (∀ i, 0 < i → i ≤ m.tableSize / 2 → m.table (slotAt m.tableSize r i) ≠ none) →
    m.table (slotAt m.tableSize r (m.tableSize / 2)) = some e →
    m.home hash e = slotAt m.tableSize r (m.tableSize / 2) →
    ∃ i e', 0 < i ∧ i < m.tableSize / 2 ∧
      m.table (slotAt m.tableSize r i) = some e' ∧
      i ≤ dist m.tableSize (m.home hash e') (slotAt m.tableSize r i)

theorem clearLoop_chained (hk : m.tableSize = 2 ^ (k + 1)) (hk60 : k ≤ 60)
    (hends : ShiftEnds hash m r) (left g t j : ℕ)
    (T : ℕ → Option (MapElem S V)) (hleft : left + t = m.tableSize / 2 + 1)
    (hhole : Hole m.tableSize (m.tableSize / 2) (m.home hash) m.table
      (Function.update T (slotAt m.tableSize r g) none) r g t)
    (hgj : g ≤ j) (hj : j ≤ m.tableSize / 2)
    (hbarrier : ∀ d e, j < d → d < m.tableSize →
      (∀ i, 0 < i → i ≤ d → m.table (slotAt m.tableSize r i) ≠ none) →
      m.table (slotAt m.tableSize r d) = some e →
      dist m.tableSize (m.home hash e) (slotAt m.tableSize r d) < d - j) :
    let shifted := clearLoop hash m left T (slotAt m.tableSize r g)
      (slotAt m.tableSize r t)
    Chained m.tableSize (m.tableSize / 2) (m.home hash)
      (Function.update shifted.1 shifted.2 none) := by
  have heven : m.tableSize = 2 * (m.tableSize / 2) := by
    rw [hk, pow_succ]
    omega
  have hr := hhole.r_lt
  induction left generalizing g t T with
  | zero => exact hhole.close_barrier heven hgj (by omega) hbarrier
  | succ left ih =>
      have hgt := hhole.g_lt
      have hne : slotAt m.tableSize r t ≠ slotAt m.tableSize r g := by
        intro heq
        have := slotAt_inj (by omega) (by omega) heq
        omega
      rw [clearLoop]
      cases hslot : T (slotAt m.tableSize r t) with
      | none =>
          exact hhole.close_empty heven (by omega)
            (by rw [Function.update_of_ne hne, hslot])
      | some e =>
          have he : Function.update T (slotAt m.tableSize r g) none
              (slotAt m.tableSize r t) = some e := by
            rw [Function.update_of_ne hne, hslot]
          have htlt : slotAt m.tableSize r t < m.tableSize := slotAt_lt hr (by omega)
          have hglt : slotAt m.tableSize r g < m.tableSize := slotAt_lt hr (by omega)
          have hdist := hhole.dist_lt _ e htlt he
          have hhome := hhole.home_lt _ e htlt he
          have horig : m.table (slotAt m.tableSize r t) = some e := by
            rw [← hhole.same_at heven (by omega), he]
          have hle := indexLe_iff (m := m) hk hk60 hglt hhome
          have hgap := dist_between hr hgt.le (by omega : t < m.tableSize)
          simp only
          rw [probeNext_slotAt hk hr (by omega)]
          split
          next hshift =>
            have hge : t - g ≤ dist m.tableSize (m.home hash e)
                (slotAt m.tableSize r t) := by
              by_contra hcon
              have hafter := dist_of_le hglt hhome htlt (by omega)
              rcases hle.mp hshift with heq | hfar
              · rw [heq] at hgap
                omega
              · -- the other reading of the top bit is the halfway entry at home
                have ht : t = m.tableSize / 2 ∧ g = 0 := by omega
                obtain ⟨ht, hg⟩ := ht
                have hathome : m.home hash e = slotAt m.tableSize r t := by
                  rw [eq_slotAt_of_dist hhome htlt (by omega : _ = 0), slotAt_zero hhome]
                rw [ht] at horig hathome
                obtain ⟨i, e', hi0, hi, he', hcross⟩ := hends.halfway e
                  (by
                    intro i hi0 hi
                    by_cases hit : i = m.tableSize / 2
                    · rw [hit, horig]
                      simp
                    · exact hhole.run i hi0 (by omega))
                  horig hathome
                have := hhole.unmoved hg i e' hi0 (by omega) he'
                omega
            have htj : t ≤ j := by
              by_contra hcon
              have hcontig : ∀ i, 0 < i → i ≤ t →
                  m.table (slotAt m.tableSize r i) ≠ none := by
                intro i hi0 hi
                by_cases hit : i = t
                · rw [hit, horig]
                  simp
                · exact hhole.run i hi0 (by omega)
              have := hbarrier t e (by omega) (by omega) hcontig horig
              omega
            have hmove := hhole.move heven (by omega) he hge
            rw [Function.update_idem] at hmove
            exact ih t (t + 1) _ (by omega) hmove htj
          next hstay =>
            have hlt : dist m.tableSize (m.home hash e) (slotAt m.tableSize r t) <
                t - g := by
              by_contra hcon
              have hbefore := dist_of_le hhome hglt htlt (by omega)
              refine hstay (hle.mpr ?_)
              by_cases hathome : slotAt m.tableSize r g = m.home hash e
              · exact .inl hathome
              · have hround := dist_add_dist hathome hglt hhome
                exact .inr (by omega)
            exact ih g (t + 1) T (by omega) (hhole.skip heven (by omega) he hlt) hgj

theorem card_occupied_blank {e : MapElem S V} (hr : r < m.tableSize)
    (he : m.table r = some e) :
    ({ m with table := Function.update m.table r none } : HashMap S V).occupied.card =
      m.occupied.card - 1 := by
  have heq : ({ m with table := Function.update m.table r none } : HashMap S V).occupied =
      m.occupied.erase r := by
    ext p
    by_cases hp : p = r
    · subst hp
      simp [occupied]
    · simp [occupied, hp]
  rw [heq, Finset.card_erase_of_mem]
  simp [occupied, hr, he]

theorem card_clearElem (hash : S → ℕ) {e : MapElem S V} (hk : m.tableSize = 2 ^ (k + 1))
    (hr : r < m.tableSize) (he : m.table r = some e) :
    (m.clearElem hash r).occupied.card = m.occupied.card - 1 := by
  have hperm := (clearElem_rearranges hash hk hr).1
  rw [← card_occupied_blank hr he]
  exact Rearranges.card { m with table := Function.update m.table r none }
    (m.clearElem hash r) rfl hperm

/-- Deletion keeps the invariant and takes out exactly the removed entry. -/
theorem clearElem_spec (h : TableInvariant hash m) {e : MapElem S V}
    (hr : r < m.tableSize) (he : m.table r = some e) (hends : ShiftEnds hash m r) :
    TableInvariant hash (m.clearElem hash r) ∧
      ∀ x, (m.clearElem hash r).Stored x ↔ m.Stored x ∧ x.key.text ≠ e.key.text := by
  obtain ⟨k, hk7, hk60, hk⟩ := h.size
  have hperm := (clearElem_rearranges hash hk hr).1
  obtain ⟨j, hj, hbarrier⟩ := hends.barrier
  have hpos : 2 ≤ m.tableSize := by
    rw [hk, pow_succ]
    have : 0 < 2 ^ k := by positivity
    omega
  have hnext : m.probeNext r = slotAt m.tableSize r 1 := by
    conv_lhs => rw [← slotAt_zero hr]
    exact probeNext_slotAt hk hr (by omega)
  have hchained : Chained m.tableSize (m.tableSize / 2) (m.home hash)
      (m.clearElem hash r).table := by
    have hloop := clearLoop_chained hk hk60 hends m.probeLen 0 1 j
      (Function.update m.table r none) (by rw [probeLen_eq])
      (by simpa [slotAt_zero hr] using h.chained.remove hr) (by omega) hj hbarrier
    simp only [slotAt_zero hr] at hloop
    rw [clearElem, hnext]
    exact hloop
  have hcard : m.length = m.occupied.card := h.length_eq
  have hocc : r ∈ m.occupied := by simp [occupied, hr, he]
  have hpos' : 0 < m.occupied.card := Finset.card_pos.mpr ⟨r, hocc⟩
  refine ⟨⟨⟨k, hk7, hk60, hk⟩, hchained, ?_, ?_, ?_⟩, ?_⟩
  · obtain ⟨σ, hσ, htable⟩ := hperm
    have hback : ∀ p x, (m.clearElem hash r).table p = some x →
        m.table (σ p) = some x := by
      intro p x hx
      rw [htable, Function.comp] at hx
      by_cases hpr : σ p = r
      · rw [hpr] at hx
        simp at hx
      · rwa [Function.update_of_ne hpr] at hx
    intro p q x y hp hq hx hy hkey
    exact σ.injective (h.keysDistinct (σ p) (σ q) x y ((hσ p).mpr hp) ((hσ q).mpr hq)
      (hback p x hx) (hback q y hy) hkey)
  · rw [card_clearElem _ hk hr he, ← hcard]
    rfl
  · have := h.length_lt
    simp only [clearElem]
    omega
  · intro x
    rw [Rearranges.stored m (m.clearElem hash r) rfl hperm]
    constructor
    · rintro ⟨p, hp, hx⟩
      by_cases hpr : p = r
      · rw [hpr] at hx
        simp at hx
      · rw [Function.update_of_ne hpr] at hx
        exact ⟨⟨p, hp, hx⟩, fun hkey => hpr (h.keysDistinct p r x e hp hr hx he hkey)⟩
    · rintro ⟨⟨p, hp, hx⟩, hkey⟩
      refine ⟨p, hp, ?_⟩
      have hpr : p ≠ r := by
        rintro rfl
        rw [he] at hx
        exact hkey (by simp [Option.some.inj hx])
      rw [Function.update_of_ne hpr, hx]

end Delete

/-! ## Iteration and clearing -/

section Iterate

variable {m : HashMap S V}

theorem occupiedFrom_cases (left index : ℕ) :
    (∃ p, m.occupiedFrom left index = some p ∧ index ≤ p ∧ p < index + left ∧
      (∃ e, m.table p = some e) ∧ ∀ i, index ≤ i → i < p → m.table i = none) ∨
    (m.occupiedFrom left index = none ∧
      ∀ i, index ≤ i → i < index + left → m.table i = none) := by
  induction left generalizing index with
  | zero => exact Or.inr ⟨rfl, fun i h0 h1 => by omega⟩
  | succ left ih =>
      rw [occupiedFrom]
      cases hslot : m.table index with
      | some e =>
          exact Or.inl ⟨index, rfl, le_rfl, by omega, ⟨e, hslot⟩, fun i h0 h1 => by omega⟩
      | none =>
          rcases ih (index + 1) with ⟨p, hp, h0, h1, he, hbefore⟩ | ⟨hnone, hall⟩
          · refine Or.inl ⟨p, hp, by omega, by omega, he, ?_⟩
            intro i hi0 hi1
            by_cases hii : i = index
            · rw [hii, hslot]
            · exact hbefore i (by omega) hi1
          · refine Or.inr ⟨hnone, ?_⟩
            intro i hi0 hi1
            by_cases hii : i = index
            · rw [hii, hslot]
            · exact hall i (by omega) (by omega)

/-- Where the iterator stands after a step. -/
theorem itrNext_cases (itr : MapItr) (hstart : itr.start ≤ m.tableSize) :
    (∃ p < m.tableSize, m.mMapItrNext itr = some ⟨some p, false⟩ ∧ itr.start ≤ p ∧
      (∃ e, m.table p = some e) ∧ ∀ i, itr.start ≤ i → i < p → m.table i = none) ∨
    (m.mMapItrNext itr = none ∧
      ∀ i, itr.start ≤ i → i < m.tableSize → m.table i = none) := by
  rw [mMapItrNext]
  rcases occupiedFrom_cases (m := m) (m.tableSize - itr.start) itr.start with
    ⟨p, hp, h0, h1, he, hbefore⟩ | ⟨hnone, hall⟩
  · exact Or.inl ⟨p, by omega, by simp [hp], h0, he, hbefore⟩
  · exact Or.inr ⟨by simp [hnone], fun i h0 h1 => hall i h0 (by omega)⟩

/-- The iterator is at the first entry of the map; there is none when the map is empty. -/
def AtFirst (m : HashMap S V) (itr : Option MapItr) : Prop :=
  (∃ p < m.tableSize, itr = some ⟨some p, false⟩ ∧ (∃ e, m.table p = some e) ∧
      ∀ i < p, m.table i = none) ∨
    (itr = none ∧ ∀ i < m.tableSize, m.table i = none)

theorem atFirst_new (hlen : m.length = m.occupied.card) : m.AtFirst m.mMapItrNew := by
  rw [mMapItrNew]
  split
  · rcases itrNext_cases (m := m) ⟨none, false⟩ (Nat.zero_le _) with
      ⟨p, hp, hnext, _, he, hskip⟩ | ⟨hnext, hrest⟩
    · exact Or.inl ⟨p, hp, hnext, he, fun i hi => hskip i (Nat.zero_le i) hi⟩
    · exact Or.inr ⟨hnext, fun i hi => hrest i (Nat.zero_le i) hi⟩
  next hzero =>
    refine Or.inr ⟨rfl, ?_⟩
    have hcard : m.occupied.card = 0 := by omega
    rw [Finset.card_eq_zero, occupied, Finset.filter_eq_empty_iff] at hcard
    intro i hi
    simpa using hcard (Finset.mem_range.mpr hi)

/-- Once the first entry is removed, the next is again the first: no entry is shifted to a
slot before it. -/
theorem atFirst_clearElem (hash : S → ℕ) {k p : ℕ} (hk : m.tableSize = 2 ^ (k + 1))
    (hp : p < m.tableSize) (hbefore : ∀ i < p, m.table i = none) :
    (m.clearElem hash p).AtFirst ((m.clearElem hash p).mMapItrNext ⟨some p, true⟩) := by
  have hnone := (clearElem_rearranges hash hk hp).2
  have hbefore' : ∀ i < p, (m.clearElem hash p).table i = none := by
    intro i hi
    rcases hnone i (hbefore i hi) with h | h
    · exact h
    · omega
  rcases itrNext_cases (m := m.clearElem hash p) ⟨some p, true⟩ hp.le with
    ⟨q, hq, hnext, h0, hq', hskip⟩ | ⟨hnext, hrest⟩
  · refine Or.inl ⟨q, hq, hnext, hq', ?_⟩
    intro i hi
    by_cases hip : i < p
    · exact hbefore' i hip
    · exact hskip i (by simp only [MapItr.start, Bool.toNat_true]; omega) hi
  · refine Or.inr ⟨hnext, ?_⟩
    intro i hi
    by_cases hip : i < p
    · exact hbefore' i hip
    · exact hrest i (by simp only [MapItr.start, Bool.toNat_true]; omega) hi

theorem clearAll_spec {k : ℕ} (left : ℕ) (m : HashMap S V)
    (hk : m.tableSize = 2 ^ (k + 1)) (hlen : m.length = m.occupied.card)
    (hleft : m.occupied.card < left) (itr : Option MapItr) (hitr : m.AtFirst itr) :
    let m' := clearAll hash left m itr
    m'.tableSize = m.tableSize ∧ m'.flags = m.flags ∧ m'.length = 0 ∧
      ∀ i < m.tableSize, m'.table i = none := by
  induction left generalizing m itr with
  | zero => omega
  | succ left ih =>
      rcases hitr with ⟨p, hp, rfl, ⟨e, he⟩, hbefore⟩ | ⟨rfl, hall⟩
      · have hcard := card_clearElem hash hk hp he
        have hocc : p ∈ m.occupied := by simp [occupied, hp, he]
        have hpos : 0 < m.occupied.card := Finset.card_pos.mpr ⟨p, hocc⟩
        simp only [clearAll, mMapItrRemove]
        apply ih (m.clearElem hash p) hk
        · rw [hcard, ← hlen]
          rfl
        · omega
        · exact atFirst_clearElem hash hk hp hbefore
      · have hzero : m.occupied.card = 0 := by
          rw [Finset.card_eq_zero, occupied, Finset.filter_eq_empty_iff]
          intro i hi
          simp [hall i (Finset.mem_range.mp hi)]
        simp only [clearAll, mMapItrRemove]
        exact ⟨trivial, trivial, by omega, hall⟩

/-- Clearing empties the table, whatever the placement of its entries. -/
theorem mMapClear_spec (hash : S → ℕ) {k : ℕ} (hk : m.tableSize = 2 ^ (k + 1))
    (hlen : m.length = m.occupied.card) :
    let cleared := m.mMapClear hash
    cleared.1 = 0 ∧ cleared.2.tableSize = m.tableSize ∧ cleared.2.flags = m.flags ∧
      cleared.2.length = 0 ∧ ∀ i < m.tableSize, cleared.2.table i = none := by
  have hcard : m.occupied.card ≤ m.tableSize := by
    have := Finset.card_filter_le (Finset.range m.tableSize)
      (fun slot => m.table slot ≠ none)
    simpa [occupied] using this
  exact ⟨rfl, clearAll_spec (m.tableSize + 1) m hk hlen (by omega) _ (atFirst_new hlen)⟩

end Iterate

end HashMap
end Libmodule
