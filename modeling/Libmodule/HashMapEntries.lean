import Libmodule.HashMapCapacity
import Libmodule.HashMapClearing
import Mathlib.Data.List.Pairwise

/-!
# What calls do to the entries

A map that counts its entries, none of which has the key of another one: doubling its table
keeps them, a put adds an entry or replaces the value of one, and a removal takes one out.
Only the values and keys of what goes are released.
-/

namespace Libmodule
namespace HashMap

variable {S V : Type} {hash : S → ℕ} {m m' m'' : HashMap S V} {k p : ℕ} {e : MapElem S V}

/-! ## Lookup -/

theorem entries_eq_zero_of_empty (hnone : ∀ slot < m.tableSize, m.table slot = none) :
    m.entries = 0 := by
  rw [Multiset.eq_zero_iff_forall_notMem]
  intro e he
  obtain ⟨slot, hslot, hentry⟩ := mem_entries.mp he
  rw [hnone slot hslot] at hentry
  cases hentry

/-- No two entries have the same key. -/
theorem distinct_iff : (m.entries.map (fun e => e.key.text)).Nodup ↔
    ∀ p q e e', p < m.tableSize → q < m.tableSize → m.table p = some e →
      m.table q = some e' → e.key.text = e'.key.text → p = q := by
  have hslots : m.entries.map (fun e => e.key.text) =
      (((List.range m.tableSize).filterMap m.table).map (fun e => e.key.text) : List S) := rfl
  rw [hslots, Multiset.coe_nodup, List.Nodup, List.pairwise_map, List.pairwise_filterMap]
  constructor
  · intro hpairs p q e e' hp hq he he' hkey
    by_contra hne
    have hsymm : Std.Symm (fun a a' => ∀ b, m.table a = some b → ∀ b', m.table a' = some b' →
        b.key.text ≠ b'.key.text) := ⟨fun a a' h b hb b' hb' hkey => h b' hb' b hb hkey.symm⟩
    exact hpairs.forall (List.mem_range.mpr hp) (List.mem_range.mpr hq) hne e he e' he' hkey
  · intro h
    refine List.Pairwise.imp_of_mem ?_ List.nodup_range
    intro p q hp hq hne e he e' he' hkey
    exact hne (h p q e e' (List.mem_range.mp hp) (List.mem_range.mp hq) he he' hkey)

section Lookup

variable [DecidableEq S]

/-- A lookup finds the entry with the key, or an empty slot if it may. -/
theorem find_cases (hk : m.tableSize = 2 ^ k) {key : S} {findEmpty : Bool} {slot : ℕ}
    (hfind : m.hashmapEntryFind hash key findEmpty = some slot) :
    (∃ e, m.table slot = some e ∧ e.key.text = key) ∨
      (m.table slot = none ∧ findEmpty = true) := by
  rcases probe_cases (m := m) key (m.hashmapCalcIndex hash key) (m.tableSize / 2) with
    ⟨j, hj, hpass, ⟨e, he, hkey⟩ | hnone⟩ | hall
  · rw [find_of_hit hash hk findEmpty hj hpass he hkey] at hfind
    rw [← Option.some.inj hfind]
    exact .inl ⟨e, he, hkey⟩
  · rw [find_of_empty hk findEmpty hj hpass hnone] at hfind
    cases findEmpty with
    | false => cases hfind
    | true =>
        rw [← Option.some.inj hfind]
        exact .inr ⟨hnone, rfl⟩
  · rw [find_of_full hk findEmpty hall] at hfind
    cases hfind

/-- An entry that is found is also found by a lookup that may stop at an empty slot. -/
theorem find_empty_of_find (hk : m.tableSize = 2 ^ k) {key : S} {slot : ℕ}
    (hfind : m.hashmapEntryFind hash key false = some slot) :
    m.hashmapEntryFind hash key true = some slot := by
  rcases probe_cases (m := m) key (m.hashmapCalcIndex hash key) (m.tableSize / 2) with
    ⟨j, hj, hpass, ⟨e, he, hkey⟩ | hnone⟩ | hall
  · rw [find_of_hit hash hk false hj hpass he hkey] at hfind
    rw [find_of_hit hash hk true hj hpass he hkey, hfind]
  · rw [find_of_empty hk false hj hpass hnone] at hfind
    cases hfind
  · rw [find_of_full hk false hall] at hfind
    cases hfind

end Lookup

/-! ## Counted entries -/

/-- The map counts its entries, and no key is there twice. -/
structure Counted (m : HashMap S V) : Prop where
  roomy : m.Roomy
  length : m.length = m.entries.card
  distinct : (m.entries.map (fun e => e.key.text)).Nodup

/-- What the map has released since `m` are `values` and `keys`; it is still the same kind of
map. -/
structure Releases (m m' : HashMap S V) (values : List V) (keys : List ℕ) : Prop where
  flags : m'.flags = m.flags
  dtor : m'.dtor = m.dtor
  destroyed : m'.destroyed = m.destroyed ++ values
  freedKeys : m'.freedKeys = m.freedKeys ++ keys

theorem releases_refl (m : HashMap S V) : m.Releases m [] [] :=
  ⟨rfl, rfl, (List.append_nil _).symm, (List.append_nil _).symm⟩

theorem Releases.trans {values : List V} {keys : List ℕ} (h : m.Releases m' [] [])
    (h' : m'.Releases m'' values keys) : m.Releases m'' values keys where
  flags := h'.flags.trans h.flags
  dtor := h'.dtor.trans h.dtor
  destroyed := by rw [h'.destroyed, h.destroyed, List.append_nil]
  freedKeys := by rw [h'.freedKeys, h.freedKeys, List.append_nil]

theorem Counted.length_eq_zero_iff (h : m.Counted) : m.length = 0 ↔ m.entries = 0 := by
  rw [h.length, Multiset.card_eq_zero]

/-- An entry of the map is in one slot. -/
theorem Counted.eq_of_text (h : m.Counted) {e e' : MapElem S V} (he : e ∈ m.entries)
    (he' : e' ∈ m.entries) (hkey : e.key.text = e'.key.text) : e = e' := by
  obtain ⟨p, hp, hpe⟩ := mem_entries.mp he
  obtain ⟨q, hq, hqe⟩ := mem_entries.mp he'
  obtain rfl := distinct_iff.mp h.distinct p q e e' hp hq hpe hqe hkey
  exact Option.some.inj (hpe.symm.trans hqe)

/-- Removal takes out the entry of the slot. -/
theorem Counted.clearElem (h : m.Counted) (hash : S → ℕ) (hp : p < m.tableSize)
    (he : m.table p = some e) :
    (m.clearElem hash p).Counted ∧ m.entries = e ::ₘ (m.clearElem hash p).entries ∧
      m.Releases (m.clearElem hash p) (if m.dtor then [e.data] else [])
        (if m.flags.keyAutofree then [e.key.addr] else []) := by
  obtain ⟨k, -, hk⟩ := h.roomy.size
  have hentries := entries_clearElem hash hk hp he
  have hreleased := released_clearElem hash he
  have hlength := h.length
  have hdistinct := h.distinct
  rw [hentries, Multiset.card_cons] at hlength
  rw [hentries, Multiset.map_cons, Multiset.nodup_cons] at hdistinct
  refine ⟨⟨h.roomy.clearElem hash hp he, ?_, hdistinct.2⟩, hentries,
    ⟨rfl, rfl, hreleased.destroyed, hreleased.freedKeys⟩⟩
  change m.length - 1 = _
  omega

theorem clearAll_dtor (hash : S → ℕ) (left : ℕ) (m : HashMap S V) (itr : Option MapItr) :
    (clearAll hash left m itr).dtor = m.dtor := by
  induction left generalizing m itr with
  | zero => rfl
  | succ left ih =>
      have hremove : (m.mMapItrRemove hash itr).2.1.dtor = m.dtor := by
        unfold mMapItrRemove
        split <;> rfl
      rw [clearAll]
      split
      next hm =>
        rw [hm] at hremove
        rw [ih, hremove]
      next hm =>
        rw [hm] at hremove
        exact hremove

/-- Clearing takes out all entries. -/
theorem Counted.clearWith (h : m.Counted) (hash : S → ℕ) :
    (m.clearWith hash true).2.Counted ∧ (m.clearWith hash true).2.entries = 0 ∧
      ∃ removed : List (MapElem S V), (removed : Multiset (MapElem S V)) = m.entries ∧
        m.Releases (m.clearWith hash true).2 (if m.dtor then removed.map MapElem.data else [])
          (if m.flags.keyAutofree then removed.map (fun e => e.key.addr) else []) := by
  obtain ⟨k, -, hk⟩ := h.roomy.size
  have hcount : m.length = m.occupied.card := h.length.trans (card_entries m)
  have hclear := clearContract_of_memory hash hk hcount
  have hentries : (m.clearWith hash true).2.entries = 0 := entries_eq_zero_of_empty hclear.empty
  obtain ⟨removed, hremoved, hreleased⟩ := hclear.releases
  have hroomy : (m.clearWith hash true).2.Roomy := Roomy.clearAll hash _ h.roomy itrAt_new
  have hflags : (m.clearWith hash true).2.flags = m.flags :=
    (clearAll_spec (m.tableSize + 1) m hk hcount
      (by have := h.roomy.entries; have := h.roomy.below; omega) _ (atFirst_new hcount)).2.1
  refine ⟨⟨hroomy, ?_, ?_⟩, hentries, removed, hremoved,
    ⟨hflags, clearAll_dtor hash _ m _, hreleased.destroyed, hreleased.freedKeys⟩⟩
  · rw [hclear.length, hentries]
    rfl
  · rw [hentries]
    exact Multiset.nodup_zero

/-! ## Puts -/

section Rehash

variable [DecidableEq S]

/-- A put has to make the table larger. -/
def Grows (hash : S → ℕ) (m : HashMap S V) (key : S) : Prop :=
  m.tableSize ≤ hashmapTableMinSizeCalc m.length ∨ m.hashmapEntryFind hash key true = none

/-- Every entry is found by its key. -/
def Found (hash : S → ℕ) (m : HashMap S V) : Prop :=
  ∀ p e, p < m.tableSize → m.table p = some e →
    m.hashmapEntryFind hash e.key.text true = some p

/-- Doubling keeps the entries, and they are found in the new table. -/
theorem Counted.rehash (h : m.Counted) (hash : S → ℕ) {mem : MapMem}
    (hmem : mem.calloc ((m.tableSize <<< 1) * sizeofMapElem) = true) :
    ∃ m', m.hashmapRehash hash mem = (0, m') ∧ m'.Counted ∧ m'.entries = m.entries ∧
      m.Releases m' [] [] ∧ m'.Found hash ∧ m'.length = m.length ∧
      m'.tableSize = 2 * m.tableSize ∧ m'.occupied.card < m'.tableSize / 2 := by
  obtain ⟨k, -, hk⟩ := h.roomy.size
  have hpow : 2 * m.tableSize = 2 ^ (k + 2) := by
    rw [hk]
    ring
  have hshift : m.tableSize <<< 1 = 2 * m.tableSize := by
    rw [Nat.shiftLeft_eq, pow_one, Nat.mul_comm]
  have hsmall := lt_of_le_of_lt h.roomy.entries h.roomy.below
  obtain ⟨T, hloop, hprobed, hcard, hstored⟩ :=
    rehashLoop_spec (k := k + 2) hash (distinct_iff.mp h.distinct) m.tableSize le_rfl
      { m with tableSize := 2 * m.tableSize, table := fun _ => none } hpow rfl
      (fun done hdone => lt_of_le_of_lt (Finset.card_le_card
        (Finset.filter_subset_filter _ (Finset.range_mono hdone))) hsmall)
      ⟨ProbeTable.chained_empty _ _ _, fun p q e e' _ _ hp => by simp at hp⟩
      (by simp [occupied]) (by simp [Stored])
  rw [← hshift] at hloop
  have heq : m.hashmapRehash hash mem =
      (0, { m with tableSize := 2 * m.tableSize, table := T }) := by
    rw [hashmapRehash, if_pos hmem, hloop, hshift]
  have hdistinct := distinct_iff.mpr hprobed.keysDistinct
  have hentries : ({ m with tableSize := 2 * m.tableSize, table := T } : HashMap S V).entries =
      m.entries := by
    refine (Multiset.Nodup.ext (Multiset.Nodup.of_map _ hdistinct)
      (Multiset.Nodup.of_map _ h.distinct)).mpr fun x => ?_
    exact (mem_entries.trans (hstored x)).trans mem_entries.symm
  have hroomy : ({ m with tableSize := 2 * m.tableSize, table := T } : HashMap S V).Roomy := by
    rcases h.roomy.rehash hash mem with ⟨hno, -⟩ | ⟨T', heq', hroomy, -⟩
    · rw [hmem] at hno
      cases hno
    · rw [heq'] at heq
      rwa [(Prod.mk.inj heq).2] at hroomy
  have hsize : ({ m with tableSize := 2 * m.tableSize, table := T } : HashMap S V).tableSize =
      2 ^ (k + 2) := hpow
  refine ⟨_, heq, ⟨hroomy, ?_, hdistinct⟩, hentries, ⟨rfl, rfl, ?_, ?_⟩, ?_, rfl, rfl, ?_⟩
  · rw [hentries, ← h.length]
  · exact (List.append_nil _).symm
  · exact (List.append_nil _).symm
  · exact fun p e hp he => find_of_stored hprobed.chained hsize hprobed.keysDistinct true hp he
  · rw [hcard]
    change _ < 2 * m.tableSize / 2
    rw [Nat.mul_div_cancel_left _ (by omega)]
    exact hsmall

end Rehash

section Put

variable [DecidableEq S] [DecidableEq V]

/-- A put that gets the memory it needs comes to a slot, in the table it has or in a larger
one. -/
theorem Counted.hashmapPut_slot (h : m.Counted) (hash : S → ℕ) (mem : MapMem) (key : CString S)
    (value : V) (hmem : m.Grows hash key.text →
      mem.calloc ((m.tableSize <<< 1) * sizeofMapElem) = true) :
    ∃ m₁ slot, m₁.Counted ∧ m₁.entries = m.entries ∧ m.Releases m₁ [] [] ∧
      (m₁ = m ∨ m₁.Found hash) ∧ slot < m₁.tableSize ∧ m₁.length + 1 < m₁.tableSize ∧
      m₁.hashmapEntryFind hash key.text true = some slot ∧
      m.hashmapPut hash mem (some key) value = m₁.putAt slot key value := by
  obtain ⟨k, -, hk⟩ := h.roomy.size
  have hbelow := h.roomy.below
  -- after a doubling there is a slot for the key
  have hgrown : m.Grows hash key.text → ∃ m₁ slot, m.hashmapRehash hash mem = (0, m₁) ∧
      m₁.Counted ∧ m₁.entries = m.entries ∧ m.Releases m₁ [] [] ∧ m₁.Found hash ∧
      slot < m₁.tableSize ∧ m₁.length + 1 < m₁.tableSize ∧
      m₁.hashmapEntryFind hash key.text true = some slot := by
    intro hgrows
    obtain ⟨m₁, hrehash, hcounted, hentries, hreleases, hfound, hlength, hsize, hroom⟩ :=
      h.rehash hash (hmem hgrows)
    have hpow : m₁.tableSize = 2 ^ (k + 2) := by
      rw [hsize, hk]
      ring
    obtain ⟨slot, hslot, hfind⟩ := find_of_room hash hpow key.text hroom
    exact ⟨m₁, slot, hrehash, hcounted, hentries, hreleases, hfound, hslot, by omega, hfind⟩
  simp only [HashMap.hashmapPut]
  by_cases hload : m.tableSize ≤ hashmapTableMinSizeCalc m.length
  · obtain ⟨m₁, slot, hrehash, hcounted, hentries, hreleases, hfound, hslot, hmore, hfind⟩ :=
      hgrown (.inl hload)
    exact ⟨m₁, slot, hcounted, hentries, hreleases, .inr hfound, hslot, hmore, hfind,
      by simp [hload, hrehash, hfind]⟩
  · cases hfind : m.hashmapEntryFind hash key.text true with
    | some slot =>
        exact ⟨m, slot, h, rfl, releases_refl m, .inl rfl, (find_slot hk hfind).1,
          h.roomy.one_more (not_le.mp hload), hfind, by simp [hload, hfind]⟩
    | none =>
        obtain ⟨m₁, slot, hrehash, hcounted, hentries, hreleases, hfound, hslot, hmore,
          hfind'⟩ := hgrown (.inr hfind)
        exact ⟨m₁, slot, hcounted, hentries, hreleases, .inr hfound, hslot, hmore, hfind',
          by simp [hload, hfind, hrehash, hfind']⟩

omit [DecidableEq S] in
theorem Counted.putAt_new (h : m.Counted) (hp : p < m.tableSize) (hnone : m.table p = none)
    (hmore : m.length + 1 < m.tableSize) (key : CString S) (value : V)
    (habsent : ∀ e ∈ m.entries, e.key.text ≠ key.text) :
    ∃ m', m.putAt p key value = (0, m') ∧ m'.Counted ∧
      m'.entries = ⟨key, value⟩ ::ₘ m.entries ∧ m.Releases m' [] [] := by
  have hput : m.putAt p key value = (0, { m with
      table := Function.update m.table p (some ⟨key, value⟩)
      length := m.length + 1 }) := by
    simp [putAt, hnone]
  have hnew : ({ m with
      table := Function.update m.table p (some ⟨key, value⟩)
      length := m.length + 1 } : HashMap S V).entries = ⟨key, value⟩ ::ₘ m.entries :=
    entries_fill hp hnone ⟨key, value⟩
  have hroomy := (h.roomy.putAt hp hmore key value).2
  rw [hput] at hroomy
  refine ⟨_, hput, ⟨hroomy, ?_, ?_⟩, hnew,
    ⟨rfl, rfl, (List.append_nil _).symm, (List.append_nil _).symm⟩⟩
  · rw [hnew, Multiset.card_cons, ← h.length]
  · rw [hnew, Multiset.map_cons, Multiset.nodup_cons]
    refine ⟨fun hmem => ?_, h.distinct⟩
    obtain ⟨e, he, hkey⟩ := Multiset.mem_map.mp hmem
    exact habsent e he hkey

omit [DecidableEq S] in
theorem Counted.putAt_update (h : m.Counted) (hp : p < m.tableSize) (he : m.table p = some e)
    (hmore : m.length + 1 < m.tableSize) (hallow : m.flags.valAllowUpdate = true)
    (key : CString S) (value : V) :
    ∃ m', m.putAt p key value = (0, m') ∧ m'.Counted ∧
      e ::ₘ m'.entries = ⟨e.key, value⟩ ::ₘ m.entries ∧
      m.Releases m' (if m.dtor ∧ e.data ≠ value then [e.data] else []) [] := by
  obtain ⟨released, hreleased⟩ : ∃ released,
      released = if m.dtor ∧ e.data ≠ value then [e.data] else [] := ⟨_, rfl⟩
  have hput : m.putAt p key value = (0, { m with
      table := Function.update m.table p (some { e with data := value })
      destroyed := m.destroyed ++ released }) := by
    rw [hreleased]
    simp only [putAt, he, hallow, if_true]
    split <;> simp
  have hcons := entriesOf_update m.table hp (some { e with data := value })
  rw [he, Option.toList_some, Option.toList_some, Multiset.coe_singleton,
    Multiset.coe_singleton, Multiset.singleton_add, Multiset.singleton_add] at hcons
  have hnew : e ::ₘ ({ m with
      table := Function.update m.table p (some { e with data := value })
      destroyed := m.destroyed ++ released } : HashMap S V).entries =
        ⟨e.key, value⟩ ::ₘ m.entries := hcons
  have hcard := congrArg Multiset.card hnew
  have htexts := congrArg (Multiset.map (fun e => e.key.text)) hnew
  rw [Multiset.card_cons, Multiset.card_cons] at hcard
  rw [Multiset.map_cons, Multiset.map_cons, Multiset.cons_inj_right] at htexts
  have hroomy := (h.roomy.putAt hp hmore key value).2
  rw [hput] at hroomy
  refine ⟨_, hput, ⟨hroomy, h.length.trans (Nat.succ.inj hcard).symm, ?_⟩, hnew,
    ⟨rfl, rfl, by rw [hreleased], (List.append_nil _).symm⟩⟩
  rw [htexts]
  exact h.distinct

/-- A key that the map does not hold becomes a new entry. -/
theorem Counted.hashmapPut_new (h : m.Counted) (hash : S → ℕ) (mem : MapMem) (key : CString S)
    (value : V) (habsent : ∀ e ∈ m.entries, e.key.text ≠ key.text)
    (hmem : m.Grows hash key.text →
      mem.calloc ((m.tableSize <<< 1) * sizeofMapElem) = true) :
    ∃ m', m.hashmapPut hash mem (some key) value = (0, m') ∧ m'.Counted ∧
      m'.entries = ⟨key, value⟩ ::ₘ m.entries ∧ m.Releases m' [] [] := by
  obtain ⟨m₁, slot, hcounted, hentries, hreleases, -, hslot, hmore, hfind, hput⟩ :=
    h.hashmapPut_slot hash mem key value hmem
  obtain ⟨k, -, hk⟩ := hcounted.roomy.size
  have hnone : m₁.table slot = none := by
    rcases find_cases hk hfind with ⟨e, he, hkey⟩ | ⟨hnone, -⟩
    · exact absurd hkey (habsent e (hentries ▸ mem_entries.mpr ⟨slot, hslot, he⟩))
    · exact hnone
  obtain ⟨m', hat, hcounted', hentries', hreleases'⟩ :=
    hcounted.putAt_new hslot hnone hmore key value (hentries.symm ▸ habsent)
  exact ⟨m', hput.trans hat, hcounted', hentries ▸ hentries', hreleases.trans hreleases'⟩

/-- A put for a key that is found gives its entry another value; the entry keeps its key. -/
theorem Counted.hashmapPut_held (h : m.Counted) (hash : S → ℕ) (mem : MapMem) (key : CString S)
    (value : V) (hp : p < m.tableSize) (he : m.table p = some e)
    (hfound : m.hashmapEntryFind hash key.text false = some p)
    (hallow : m.flags.valAllowUpdate = true)
    (hmem : m.Grows hash key.text →
      mem.calloc ((m.tableSize <<< 1) * sizeofMapElem) = true) :
    ∃ m', m.hashmapPut hash mem (some key) value = (0, m') ∧ m'.Counted ∧
      e ::ₘ m'.entries = ⟨e.key, value⟩ ::ₘ m.entries ∧
      m.Releases m' (if m.dtor ∧ e.data ≠ value then [e.data] else []) [] := by
  obtain ⟨m₁, slot, hcounted, hentries, hreleases, hsame, hslot, hmore, hfind, hput⟩ :=
    h.hashmapPut_slot hash mem key value hmem
  obtain ⟨k, -, hk⟩ := h.roomy.size
  have hkey : e.key.text = key.text := by
    rcases find_cases hk hfound with ⟨x, hx, hxkey⟩ | ⟨-, hempty⟩
    · rw [he] at hx
      rwa [Option.some.inj hx]
    · cases hempty
  have hentry : m₁.table slot = some e := by
    rcases hsame with rfl | hall
    · rw [find_empty_of_find hk hfound] at hfind
      rwa [← Option.some.inj hfind]
    · obtain ⟨q, hq, hqe⟩ := mem_entries.mp (hentries.symm ▸ mem_entries.mpr ⟨p, hp, he⟩)
      have hat := hall q e hq hqe
      rw [hkey, hfind] at hat
      rwa [Option.some.inj hat]
  obtain ⟨m', hat, hcounted', hentries', hreleases'⟩ :=
    hcounted.putAt_update hslot hentry hmore (hreleases.flags ▸ hallow) key value
  rw [hreleases.dtor] at hreleases'
  exact ⟨m', hput.trans hat, hcounted', hentries ▸ hentries', hreleases.trans hreleases'⟩

/-- Without memory for the larger table a put leaves the map alone. -/
theorem hashmapPut_nomem {mem : MapMem} {key : CString S} {value : V}
    (hgrows : m.Grows hash key.text)
    (hmem : mem.calloc ((m.tableSize <<< 1) * sizeofMapElem) = false) :
    m.hashmapPut hash mem (some key) value = (-ENOMEM, m) := by
  have hrehash : m.hashmapRehash hash mem = (-ENOMEM, m) := by simp [hashmapRehash, hmem]
  have hret : -ENOMEM ≠ 0 := by decide
  simp only [HashMap.hashmapPut]
  by_cases hload : m.tableSize ≤ hashmapTableMinSizeCalc m.length
  · rw [if_pos hload, hrehash, if_pos hret]
  · rw [if_neg hload, if_neg (by simp), hgrows.resolve_left hload, hrehash]
    simp only
    rw [if_pos hret]

end Put

end HashMap
end Libmodule
