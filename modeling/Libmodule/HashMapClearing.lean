import Libmodule.HashMapDeletion
import Mathlib.Data.Multiset.Filter

/-!
# What a map owns

The entries of a table as a multiset: back-shift deletion takes one entry out and moves the
others, whatever the table holds.  So clearing a map hands each value to the destructor once
and frees each key once.
-/

namespace Libmodule
namespace HashMap

open ProbeTable

variable {S V : Type} {hash : S → ℕ} {m : HashMap S V} {k r : ℕ} {e : MapElem S V}

/-! ## Entries -/

def entriesOf (s : ℕ) (T : ℕ → Option (MapElem S V)) : Multiset (MapElem S V) :=
  (Multiset.range s).filterMap T

/-- The entries of the occupied slots. -/
def entries (m : HashMap S V) : Multiset (MapElem S V) := entriesOf m.tableSize m.table

theorem mem_entries {e : MapElem S V} : e ∈ m.entries ↔ m.Stored e := by
  simp [entries, entriesOf, Stored, Multiset.mem_filterMap]

theorem card_entries (m : HashMap S V) : m.entries.card = m.occupied.card := by
  have hslots : Multiset.range m.tableSize = (List.range m.tableSize : List ℕ) := rfl
  have hoccupied : m.occupied.card =
      ((List.range m.tableSize).filter (fun slot => m.table slot ≠ none)).length := rfl
  rw [entries, entriesOf, hslots, Multiset.filterMap_coe, Multiset.coe_card,
    List.length_filterMap_eq_countP, hoccupied, List.countP_eq_length_filter]
  congr 2
  funext slot
  cases m.table slot <;> rfl

/-- What is put in a slot replaces what was there. -/
theorem entriesOf_update {s : ℕ} (T : ℕ → Option (MapElem S V)) (hr : r < s)
    (new : Option (MapElem S V)) :
    (T r).toList + entriesOf s (Function.update T r new) = new.toList + entriesOf s T := by
  have hsplit : ∀ T' : ℕ → Option (MapElem S V),
      entriesOf s T' = (T' r).toList + ((Multiset.range s).erase r).filterMap T' := by
    intro T'
    have hrange : Multiset.range s = r ::ₘ (Multiset.range s).erase r :=
      (Multiset.cons_erase (Multiset.mem_range.mpr hr)).symm
    rw [entriesOf]
    conv_lhs => rw [hrange]
    rw [Multiset.filterMap_cons]
    cases T' r <;> rfl
  have hrest : ((Multiset.range s).erase r).filterMap (Function.update T r new) =
      ((Multiset.range s).erase r).filterMap T := by
    have hslots : (Multiset.range s).erase r = ((List.range s).erase r : List ℕ) := rfl
    rw [hslots, Multiset.filterMap_coe, Multiset.filterMap_coe]
    apply congrArg
    apply List.filterMap_congr
    intro slot hslot
    have hne : slot ≠ r := by
      rintro rfl
      exact (List.Nodup.not_mem_erase List.nodup_range) hslot
    rw [Function.update_of_ne hne]
  rw [hsplit (Function.update T r new), hsplit T, hrest, Function.update_self]
  exact add_left_comm _ _ _

theorem Rearranges.entriesOf_eq {s : ℕ} {T T' : ℕ → Option (MapElem S V)}
    (h : Rearranges s T T') : entriesOf s T' = entriesOf s T := by
  obtain ⟨σ, hσ, rfl⟩ := h
  have hrange : (Multiset.range s).map σ = Multiset.range s := by
    apply (Multiset.Nodup.ext ((Multiset.nodup_map_iff_of_injective σ.injective).mpr
      (Multiset.nodup_range s)) (Multiset.nodup_range s)).mpr
    intro slot
    rw [Multiset.mem_map, Multiset.mem_range]
    constructor
    · rintro ⟨i, hi, rfl⟩
      exact (hσ i).mpr (Multiset.mem_range.mp hi)
    · intro hslot
      refine ⟨σ.symm slot, Multiset.mem_range.mpr ?_, σ.apply_symm_apply slot⟩
      rw [← hσ, σ.apply_symm_apply]
      exact hslot
  rw [entriesOf, ← Multiset.filterMap_map, hrange]
  rfl

/-- Back-shift deletion takes out the entry of the slot, and no other. -/
theorem entries_clearElem (hash : S → ℕ) (hk : m.tableSize = 2 ^ (k + 1)) (hr : r < m.tableSize)
    (he : m.table r = some e) : m.entries = e ::ₘ (m.clearElem hash r).entries := by
  have hperm := (clearElem_rearranges hash hk hr).1.entriesOf_eq
  have hblank := entriesOf_update m.table hr none
  rw [he, Option.toList_none, Option.toList_some, Multiset.coe_nil, zero_add,
    Multiset.coe_singleton, Multiset.singleton_add] at hblank
  have hsame : (m.clearElem hash r).entries =
      entriesOf m.tableSize (m.clearElem hash r).table := rfl
  rw [hsame, hperm, hblank]
  rfl

theorem entries_fill {slot : ℕ} (hslot : slot < m.tableSize) (hnone : m.table slot = none)
    (e : MapElem S V) :
    ({ m with table := Function.update m.table slot (some e) } : HashMap S V).entries =
      e ::ₘ m.entries := by
  have hfill := entriesOf_update m.table hslot (some e)
  rw [hnone, Option.toList_none, Option.toList_some, Multiset.coe_nil, zero_add,
    Multiset.coe_singleton, Multiset.singleton_add] at hfill
  exact hfill

/-! ## Clearing -/

/-- The loop of `m_map_clear`, from a map and an iterator to the map when the iterator is
gone. -/
inductive Clears (hash : S → ℕ) : HashMap S V → Option MapItr → HashMap S V → Prop where
  | done (m : HashMap S V) : Clears hash m none m
  | round {m m' last : HashMap S V} {itr itr' : MapItr} {ret : ℤ}
      (hremove : m.mMapItrRemove hash (some itr) = (ret, m', some itr'))
      (hrest : Clears hash m' (m'.mMapItrNext itr') last) : Clears hash m (some itr) last

/-- What the map has released since `m`: the entries of `removed`, one after the other. -/
structure Released (m m' : HashMap S V) (removed : List (MapElem S V)) : Prop where
  destroyed : m'.destroyed = m.destroyed ++ if m.dtor then removed.map MapElem.data else []
  freedKeys : m'.freedKeys =
    m.freedKeys ++ if m.flags.keyAutofree then removed.map (fun e => e.key.addr) else []

theorem released_refl (m : HashMap S V) : Released m m [] :=
  ⟨by simp, by simp⟩

theorem Released.trans {m m' m'' : HashMap S V} {removed removed' : List (MapElem S V)}
    (h : Released m m' removed) (h' : Released m' m'' removed') (hdtor : m'.dtor = m.dtor)
    (hflags : m'.flags = m.flags) : Released m m'' (removed ++ removed') := by
  have hdestroyed := h'.destroyed
  have hfreed := h'.freedKeys
  rw [h.destroyed, hdtor] at hdestroyed
  rw [h.freedKeys, hflags] at hfreed
  constructor
  · rw [hdestroyed]
    split <;> simp
  · rw [hfreed]
    split <;> simp

theorem released_clearElem (hash : S → ℕ) (he : m.table r = some e) :
    Released m (m.clearElem hash r) [e] := by
  constructor
  · simp only [clearElem, he]
    split <;> simp
  · simp only [clearElem, he]
    split <;> simp

/-- The loop ends, and it has released the entries of the map. -/
theorem clearAll_released (hash : S → ℕ) (left : ℕ) (m : HashMap S V)
    (hk : m.tableSize = 2 ^ (k + 1)) (hleft : m.occupied.card < left) (itr : Option MapItr)
    (hitr : m.AtFirst itr) : Clears hash m itr (clearAll hash left m itr) ∧
      ∃ removed : List (MapElem S V), (removed : Multiset (MapElem S V)) = m.entries ∧
        Released m (clearAll hash left m itr) removed := by
  induction left generalizing m itr with
  | zero => omega
  | succ left ih =>
      rcases hitr with ⟨p, hp, rfl, ⟨e, he⟩, hbefore⟩ | ⟨rfl, hall⟩
      · have hcard := card_clearElem hash hk hp he
        have hpos : 0 < m.occupied.card :=
          Finset.card_pos.mpr ⟨p, by simp [occupied, hp, he]⟩
        obtain ⟨hclears, removed, hentries, hreleased⟩ := ih (m.clearElem hash p) hk (by omega) _
          (atFirst_clearElem hash hk hp hbefore)
        refine ⟨.round rfl hclears, e :: removed, ?_, ?_⟩
        · rw [entries_clearElem hash hk hp he, ← hentries]
          rfl
        · exact (released_clearElem hash he).trans hreleased rfl rfl
      · refine ⟨.done m, [], ?_, released_refl m⟩
        rw [entries, entriesOf, Multiset.coe_nil, eq_comm, Multiset.eq_zero_iff_forall_notMem]
        intro e he
        obtain ⟨slot, hslot, hentry⟩ := (Multiset.mem_filterMap _ _).mp he
        rw [hall slot (Multiset.mem_range.mp hslot)] at hentry
        cases hentry

/-- `m_map_clear`; `mem` tells whether `calloc` gives `m_map_itr_new` an iterator. -/
def clearWith (hash : S → ℕ) (mem : Bool) (m : HashMap S V) : ℤ × HashMap S V :=
  (0, clearAll hash (m.tableSize + 1) m (if mem then m.mMapItrNew else none))

/-- The map is cleared in finitely many rounds: each value goes to the destructor once, and
each key is freed once if the map frees its keys. -/
structure ClearContract (hash : S → ℕ) (mem : Bool) (m : HashMap S V) : Prop where
  ends : Clears hash m (if mem then m.mMapItrNew else none) (m.clearWith hash mem).2
  length : (m.clearWith hash mem).2.length = 0
  empty : ∀ slot < (m.clearWith hash mem).2.tableSize, (m.clearWith hash mem).2.table slot = none
  releases : ∃ removed : List (MapElem S V), (removed : Multiset (MapElem S V)) = m.entries ∧
    Released m (m.clearWith hash mem).2 removed

theorem clearContract_of_memory (hash : S → ℕ) (hk : m.tableSize = 2 ^ (k + 1))
    (hlen : m.length = m.occupied.card) : ClearContract hash true m := by
  have hcard : m.occupied.card < m.tableSize + 1 := by
    have := Finset.card_filter_le (Finset.range m.tableSize) (fun slot => m.table slot ≠ none)
    rw [Finset.card_range] at this
    exact Nat.lt_succ_of_le this
  have hfirst : m.AtFirst m.mMapItrNew := atFirst_new hlen
  obtain ⟨hsize, -, hlength, hempty⟩ :=
    clearAll_spec (m.tableSize + 1) m hk hlen hcard _ hfirst
  obtain ⟨hclears, hremoved⟩ :=
    clearAll_released hash (m.tableSize + 1) m hk hcard _ hfirst
  exact ⟨hclears, hlength, fun slot hslot => hempty slot (hsize ▸ hslot), hremoved⟩

/-- Whatever the placement of its entries, a map is cleared if and only if there is memory
for the iterator, or nothing to clear. -/
theorem clearContract_iff (hash : S → ℕ) (mem : Bool) (hk : m.tableSize = 2 ^ (k + 1))
    (hlen : m.length = m.occupied.card) :
    ClearContract hash mem m ↔ mem = true ∨ m.length = 0 := by
  cases mem with
  | true => exact iff_of_true (clearContract_of_memory hash hk hlen) (.inl rfl)
  | false =>
      constructor
      · exact fun h => .inr h.length
      · rintro (hmem | hzero)
        · cases hmem
        · have hnone : m.mMapItrNew = none := by
            rw [mMapItrNew, hzero]
            rfl
          have h := clearContract_of_memory hash hk hlen
          obtain ⟨hends, hlength, hempty, hreleases⟩ := h
          simp only [clearWith, if_true, hnone] at hends hlength hempty hreleases
          exact ⟨hends, hlength, hempty, hreleases⟩

/-- A table with one entry, whose chain starts at the last slot. -/
def wrappedEntry : HashMap ℕ ℕ where
  tableSize := 256
  length := 1
  flags := ⟨true, true, false⟩
  table := Function.update (fun _ => none) 0 (some ⟨⟨1, 255⟩, 7⟩)
  dtor := true

theorem clearContract_iff_wrapped :
    ClearContract id true wrappedEntry ↔ true = true ∨ wrappedEntry.length = 0 :=
  clearContract_iff (k := 7) id true rfl (by decide)

/-- Without memory for the iterator nothing is removed. -/
theorem not_clearContract_wrapped :
    wrappedEntry.length = wrappedEntry.occupied.card ∧ ¬ ClearContract id false wrappedEntry := by
  refine ⟨by decide, fun h => ?_⟩
  have hlength := h.length
  exact absurd hlength (by decide)

end HashMap
end Libmodule
