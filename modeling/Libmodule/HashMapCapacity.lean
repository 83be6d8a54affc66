import Libmodule.HashMapRefinement

/-!
# The table never fills up

A put first doubles the table when its load approaches three quarters.  So there are
always fewer entries than slots, and in the doubled table fewer entries than probes: there a
lookup finds a slot for every key, whatever the hash function and however keys cluster.  The
order of the entries in the table plays no part, so this holds after every deletion.
-/

namespace Libmodule
namespace HashMap

open ProbeTable

variable {S V : Type} {hash : S → ℕ}

/-- The table has more slots than the map counts entries, and the map counts every entry. -/
structure Roomy (m : HashMap S V) : Prop where
  size : ∃ k, 7 ≤ k ∧ m.tableSize = 2 ^ (k + 1)
  entries : m.occupied.card ≤ m.length
  below : m.length < m.tableSize

/-! ## Lookup and doubling -/

section Counting

variable {m : HashMap S V}

theorem card_update_le {slot : ℕ} (hslot : slot < m.tableSize) (e : MapElem S V) :
    ({ m with table := Function.update m.table slot (some e) } : HashMap S V).occupied.card ≤
      m.occupied.card + 1 := by
  rw [occupied_update_some hslot]
  exact Finset.card_insert_le slot m.occupied

/-- The entries of the slots that a rehash has still to move. -/
def waiting (oldTable : ℕ → Option (MapElem S V)) (oldSize left : ℕ) : Finset ℕ :=
  (Finset.Ico (oldSize - left) oldSize).filter (fun slot => oldTable slot ≠ none)

theorem waiting_succ {oldTable : ℕ → Option (MapElem S V)} {oldSize left : ℕ}
    (hleft : left + 1 ≤ oldSize) :
    waiting oldTable oldSize (left + 1) =
      if oldTable (oldSize - (left + 1)) ≠ none then
        insert (oldSize - (left + 1)) (waiting oldTable oldSize left)
      else waiting oldTable oldSize left := by
  have hrange : Finset.Ico (oldSize - (left + 1)) oldSize =
      insert (oldSize - (left + 1)) (Finset.Ico (oldSize - left) oldSize) := by
    ext slot
    simp only [Finset.mem_Ico, Finset.mem_insert]
    omega
  rw [waiting, hrange, Finset.filter_insert]
  rfl

end Counting

section Rehash

variable [DecidableEq S] {m : HashMap S V} {k : ℕ}

/-- Fewer entries than probes leave a slot for every key. -/
theorem find_of_room (hash : S → ℕ) (hk : m.tableSize = 2 ^ k) (key : S)
    (hroom : m.occupied.card < m.tableSize / 2) :
    ∃ slot < m.tableSize, m.hashmapEntryFind hash key true = some slot := by
  have hh := calcIndex_lt hash hk key
  rcases probe_cases (m := m) key (m.hashmapCalcIndex hash key) (m.tableSize / 2) with
    ⟨j, hj, hpass, ⟨e, he, hkey⟩ | hnone⟩ | hall
  · exact ⟨_, slotAt_lt hh (by omega), find_of_hit hash hk true hj hpass he hkey⟩
  · exact ⟨_, slotAt_lt hh (by omega), find_of_empty hk true hj hpass hnone⟩
  · have hfull := half_le_card_of_passes hash hk hall
    omega

/-- What a lookup finds is a slot, and an entry if it was not to be an empty slot. -/
theorem find_slot (hk : m.tableSize = 2 ^ k) {key : S} {findEmpty : Bool} {slot : ℕ}
    (hfind : m.hashmapEntryFind hash key findEmpty = some slot) :
    slot < m.tableSize ∧ (findEmpty = false → ∃ e, m.table slot = some e) := by
  have hh := calcIndex_lt hash hk key
  have hslot : ∀ j, j < m.tableSize / 2 →
      slotAt m.tableSize (m.hashmapCalcIndex hash key) j < m.tableSize :=
    fun j hj => slotAt_lt hh (by omega)
  rcases probe_cases (m := m) key (m.hashmapCalcIndex hash key) (m.tableSize / 2) with
    ⟨j, hj, hpass, ⟨e, he, hkey⟩ | hnone⟩ | hall
  · rw [find_of_hit hash hk findEmpty hj hpass he hkey] at hfind
    obtain rfl := Option.some.inj hfind
    exact ⟨hslot j hj, fun _ => ⟨e, he⟩⟩
  · rw [find_of_empty hk findEmpty hj hpass hnone] at hfind
    cases findEmpty with
    | false => cases hfind
    | true =>
        obtain rfl := Option.some.inj hfind
        exact ⟨hslot j hj, fun h => by cases h⟩
  · rw [find_of_full hk findEmpty hall] at hfind
    cases hfind

/-- A table twice as large takes all entries of the old one, of which there are fewer than
its probes. -/
theorem rehashLoop_of_room (hash : S → ℕ) {oldTable : ℕ → Option (MapElem S V)}
    {oldSize n : ℕ} (hn : n < oldSize) (left : ℕ) (hleft : left ≤ oldSize) (m : HashMap S V)
    (hk : m.tableSize = 2 ^ k) (hsize : m.tableSize = 2 * oldSize)
    (hcount : m.occupied.card + (waiting oldTable oldSize left).card ≤ n) :
    ∃ T, rehashLoop hash oldTable oldSize left m = some { m with table := T } ∧
      ({ m with table := T } : HashMap S V).occupied.card ≤ n := by
  induction left generalizing m with
  | zero => exact ⟨m.table, rfl, (Nat.le_add_right _ _).trans hcount⟩
  | succ left ih =>
      rw [waiting_succ hleft] at hcount
      cases hslot : oldTable (oldSize - (left + 1)) with
      | none =>
          rw [rehashLoop, hslot]
          rw [hslot, if_neg (by simp)] at hcount
          exact ih (by omega) m hk hsize hcount
      | some e =>
          rw [hslot, if_pos (by simp), Finset.card_insert_of_notMem] at hcount
          · obtain ⟨slot, hlt, hfind⟩ :=
              find_of_room hash hk e.key.text (by omega : m.occupied.card < m.tableSize / 2)
            have hcard := card_update_le hlt e
            rw [rehashLoop, hslot]
            simp only [hfind]
            exact ih (by omega) { m with table := Function.update m.table slot (some e) } hk
              hsize (by omega)
          · simp only [waiting, Finset.mem_filter, Finset.mem_Ico, not_and]
            omega

/-- Doubling fails only when the allocator does. -/
theorem Roomy.rehashLoop (h : m.Roomy) (hash : S → ℕ) :
    ∃ T, HashMap.rehashLoop hash m.table m.tableSize
      m.tableSize { m with tableSize := m.tableSize <<< 1, table := fun _ => none } =
        some { m with tableSize := 2 * m.tableSize, table := T } ∧
      ({ m with tableSize := 2 * m.tableSize, table := T } : HashMap S V).occupied.card ≤
        m.length := by
  obtain ⟨k, -, hk⟩ := h.size
  have hshift : m.tableSize <<< 1 = 2 * m.tableSize := by
    rw [Nat.shiftLeft_eq, pow_one, Nat.mul_comm]
  have hpow : 2 * m.tableSize = 2 ^ (k + 2) := by
    rw [hk]
    ring
  rw [hshift]
  apply rehashLoop_of_room hash h.below m.tableSize le_rfl
    { m with tableSize := 2 * m.tableSize, table := fun _ => none } hpow rfl
  have hempty : ({ m with tableSize := 2 * m.tableSize, table := fun _ => none } :
      HashMap S V).occupied = ∅ := by
    simp [occupied]
  have hwaiting : waiting m.table m.tableSize m.tableSize = m.occupied := by
    rw [waiting, occupied, Nat.sub_self, Finset.range_eq_Ico]
  rw [hempty, hwaiting, Finset.card_empty, Nat.zero_add]
  exact h.entries

/-- A map after a call of `hashmap_rehash`: the same, or with twice the slots and room for
every key. -/
theorem Roomy.rehash (h : m.Roomy) (hash : S → ℕ) (mem : MapMem) :
    (mem.calloc ((m.tableSize <<< 1) * sizeofMapElem) = false ∧
      m.hashmapRehash hash mem = (-ENOMEM, m)) ∨
    ∃ T, m.hashmapRehash hash mem = (0, { m with tableSize := 2 * m.tableSize, table := T }) ∧
      ({ m with tableSize := 2 * m.tableSize, table := T } : HashMap S V).Roomy ∧
      ({ m with tableSize := 2 * m.tableSize, table := T } : HashMap S V).occupied.card <
        m.tableSize := by
  cases hmem : mem.calloc ((m.tableSize <<< 1) * sizeofMapElem) with
  | false => exact .inl ⟨rfl, by simp [hashmapRehash, hmem]⟩
  | true =>
      obtain ⟨T, hloop, hcard⟩ := h.rehashLoop hash
      obtain ⟨k, hk7, hk⟩ := h.size
      have hpow : 2 * m.tableSize = 2 ^ (k + 2) := by
        rw [hk]
        ring
      have hbelow := h.below
      refine .inr ⟨T, ?_, ⟨⟨k + 1, by omega, hpow⟩, hcard, ?_⟩, by omega⟩
      · rw [hashmapRehash, if_pos hmem, hloop]
      · show m.length < 2 * m.tableSize
        omega

end Rehash

/-! ## Calls -/

section Calls

variable [DecidableEq S] [DecidableEq V] {m : HashMap S V}

omit [DecidableEq S] [DecidableEq V] in
/-- There is room for one more entry as long as the load is below three quarters. -/
theorem Roomy.one_more (h : m.Roomy) (hload : hashmapTableMinSizeCalc m.length < m.tableSize) :
    m.length + 1 < m.tableSize := by
  obtain ⟨k, hk7, hk⟩ := h.size
  have hlarge : 2 ^ 8 ≤ m.tableSize := by
    rw [hk]
    exact Nat.pow_le_pow_right (by omega) (by omega)
  rw [hashmapTableMinSizeCalc] at hload
  omega

omit [DecidableEq S] in
theorem Roomy.putAt (h : m.Roomy) {slot : ℕ} (hslot : slot < m.tableSize)
    (hmore : m.length + 1 < m.tableSize) (key : CString S) (value : V) :
    ((m.putAt slot key value).1 = 0 ∨ (m.putAt slot key value).1 = -EPERM) ∧
      (m.putAt slot key value).2.Roomy := by
  cases he : m.table slot with
  | none =>
      have hcard := card_occupied_fill hslot he ⟨key, value⟩
      have hentries := h.entries
      simp only [HashMap.putAt, he]
      exact ⟨.inl trivial, h.size, hcard.le.trans (Nat.add_le_add_right hentries 1), hmore⟩
  | some e =>
      cases hflag : m.flags.valAllowUpdate with
      | false =>
          simp only [HashMap.putAt, he, hflag]
          exact ⟨.inr rfl, h⟩
      | true =>
          have hsame : ({ m with
              table := Function.update m.table slot (some { e with data := value })
            } : HashMap S V).occupied = m.occupied := by
            rw [occupied_update_some hslot]
            exact Finset.insert_eq_of_mem (by simp [occupied, hslot, he])
          simp only [HashMap.putAt, he, hflag, if_true]
          exact ⟨.inl trivial, h.size, (congrArg Finset.card hsame).le.trans h.entries, h.below⟩

/-- A put keeps the room, and fails only when the allocator does. -/
theorem Roomy.hashmapPut (h : m.Roomy) (hash : S → ℕ) (mem : MapMem) (key : CString S)
    (value : V) : (m.hashmapPut hash mem (some key) value).2.Roomy ∧
      (mem.calloc ((m.tableSize <<< 1) * sizeofMapElem) = true →
        (m.hashmapPut hash mem (some key) value).1 = 0 ∨
          (m.hashmapPut hash mem (some key) value).1 = -EPERM) := by
  obtain ⟨k, -, hk⟩ := h.size
  have hpow : 2 * m.tableSize = 2 ^ (k + 2) := by
    rw [hk]
    ring
  have hbelow := h.below
  have hrehash := h.rehash hash mem
  -- after a doubling there is a slot for the key
  have hgrown : ∀ T, ({ m with tableSize := 2 * m.tableSize, table := T } :
        HashMap S V).Roomy →
      ({ m with tableSize := 2 * m.tableSize, table := T } : HashMap S V).occupied.card <
        m.tableSize →
      ∃ slot, ({ m with tableSize := 2 * m.tableSize, table := T } :
          HashMap S V).hashmapEntryFind hash key.text true = some slot ∧
        let put := ({ m with tableSize := 2 * m.tableSize, table := T } :
          HashMap S V).putAt slot key value
        (put.1 = 0 ∨ put.1 = -EPERM) ∧ put.2.Roomy := by
    intro T hroomy hcard
    obtain ⟨slot, hslot, hfind⟩ := find_of_room hash
      (m := { m with tableSize := 2 * m.tableSize, table := T }) hpow key.text
      (by show _ < 2 * m.tableSize / 2; omega)
    exact ⟨slot, hfind, hroomy.putAt hslot (by show m.length + 1 < 2 * m.tableSize; omega) key
      value⟩
  simp only [HashMap.hashmapPut]
  by_cases hload : m.tableSize ≤ hashmapTableMinSizeCalc m.length
  · rcases hrehash with ⟨hno, heq⟩ | ⟨T, heq, hroomy, hcard⟩
    · simp only [if_pos hload, heq, hno]
      exact ⟨h, fun hmem => by cases hmem⟩
    · obtain ⟨slot, hfind, hret, hput⟩ := hgrown T hroomy hcard
      simp only [if_pos hload, heq, hfind]
      exact ⟨hput, fun _ => hret⟩
  · have hmore := h.one_more (not_le.mp hload)
    cases hfind : m.hashmapEntryFind hash key.text true with
    | some slot =>
        obtain ⟨hret, hput⟩ := h.putAt (find_slot hk hfind).1 hmore key value
        simp only [if_neg hload, hfind]
        exact ⟨hput, fun _ => hret⟩
    | none =>
        rcases hrehash with ⟨hno, heq⟩ | ⟨T, heq, hroomy, hcard⟩
        · simp only [if_neg hload, hfind, heq, hno]
          exact ⟨h, fun hmem => by cases hmem⟩
        · obtain ⟨slot, hfind', hret, hput⟩ := hgrown T hroomy hcard
          simp only [if_neg hload, hfind, heq, hfind']
          exact ⟨hput, fun _ => hret⟩

omit [DecidableEq S] [DecidableEq V] in
theorem Roomy.clearElem (h : m.Roomy) (hash : S → ℕ) {r : ℕ} {e : MapElem S V}
    (hr : r < m.tableSize) (he : m.table r = some e) : (m.clearElem hash r).Roomy := by
  obtain ⟨k, -, hk⟩ := h.size
  have hcard := card_clearElem hash hk hr he
  have hentries := h.entries
  have hbelow := h.below
  have hlength : (m.clearElem hash r).length = m.length - 1 := rfl
  exact ⟨h.size, by omega, by rw [hlength]; exact lt_of_le_of_lt (Nat.sub_le _ _) hbelow⟩

/-- The iterator is at an entry, or there is none. -/
def ItrAt (m : HashMap S V) (itr : Option MapItr) : Prop :=
  itr = none ∨ ∃ p < m.tableSize, itr = some ⟨some p, false⟩ ∧ ∃ e, m.table p = some e

omit [DecidableEq S] [DecidableEq V] in
theorem itrAt_next {itr : MapItr} (hstart : itr.start ≤ m.tableSize) :
    m.ItrAt (m.mMapItrNext itr) := by
  rcases itrNext_cases itr hstart with ⟨p, hp, hnext, -, he, -⟩ | ⟨hnext, -⟩
  · exact .inr ⟨p, hp, hnext, he⟩
  · exact .inl hnext

omit [DecidableEq S] [DecidableEq V] in
theorem itrAt_new : m.ItrAt m.mMapItrNew := by
  rw [mMapItrNew]
  split
  next => exact itrAt_next (Nat.zero_le _)
  next => exact .inl rfl

omit [DecidableEq V] in
theorem itrAt_seek {key : S} (left : ℕ) {itr : Option MapItr} (hitr : m.ItrAt itr) :
    m.ItrAt (m.itrSeek key left itr) := by
  induction left generalizing itr with
  | zero => exact .inl rfl
  | succ left ih =>
      rcases hitr with rfl | ⟨p, hp, rfl, e, he⟩
      · exact .inl rfl
      · rw [itrSeek]
        split
        next => exact .inr ⟨p, hp, rfl, e, he⟩
        next => exact ih (itrAt_next (by simpa [MapItr.start] using hp))

omit [DecidableEq S] [DecidableEq V] in
theorem Roomy.mMapItrRemove (h : m.Roomy) (hash : S → ℕ) {itr : Option MapItr}
    (hitr : m.ItrAt itr) : (m.mMapItrRemove hash itr).2.1.Roomy := by
  rcases hitr with rfl | ⟨p, hp, rfl, e, he⟩
  · exact h
  · exact h.clearElem hash hp he

omit [DecidableEq S] [DecidableEq V] in
theorem Roomy.clearAll (hash : S → ℕ) (left : ℕ) {m : HashMap S V} (h : m.Roomy)
    {itr : Option MapItr} (hitr : m.ItrAt itr) : (HashMap.clearAll hash left m itr).Roomy := by
  induction left generalizing m itr with
  | zero => exact h
  | succ left ih =>
      rcases hitr with rfl | ⟨p, hp, rfl, e, he⟩
      · exact h
      · exact ih (h.clearElem hash hp he)
          (itrAt_next (by simpa [MapItr.start, HashMap.clearElem] using hp.le))

/-- Every public call keeps the room. -/
theorem Roomy.exec (h : m.Roomy) (hash : S → ℕ) (call : MapCall S V) :
    (call.exec hash m).2.Roomy := by
  obtain ⟨k, -, hk⟩ := h.size
  cases call with
  | put mem key value =>
      simp only [MapCall.exec, HashMap.mMapPut]
      cases key with
      | none => exact h
      | some key =>
          cases value with
          | none => exact h
          | some value =>
              dsimp only
              cases hstored : (if m.flags.keyDup then
                mem.strdup.map (fun addr => (⟨addr, key.text⟩ : CString S)) else some key) with
              | none => exact h
              | some stored => exact (h.hashmapPut hash mem stored value).1
  | remove key =>
      simp only [MapCall.exec, HashMap.mMapRemove]
      cases key with
      | none => exact h
      | some key =>
          dsimp only
          split
          next =>
            cases hfind : m.hashmapEntryFind hash key false with
            | none => exact h
            | some slot =>
                obtain ⟨hslot, hentry⟩ := find_slot hk hfind
                obtain ⟨e, he⟩ := hentry rfl
                exact h.clearElem hash hslot he
          next => exact h
  | itrRemove key => exact h.mMapItrRemove hash (itrAt_seek _ itrAt_new)
  | clear => exact Roomy.clearAll hash _ h itrAt_new

/-! ## Runs -/

omit [DecidableEq S] [DecidableEq V] in
theorem roomy_new (flags : MapFlags) (dtor : Bool) :
    (mMapNew flags dtor : HashMap S V).Roomy := by
  have hempty : (mMapNew flags dtor : HashMap S V).occupied = ∅ := by
    simp [occupied, mMapNew]
  exact ⟨⟨7, le_rfl, rfl⟩, by rw [hempty]; exact Nat.zero_le _, Nat.zero_lt_succ _⟩

theorem Roomy.runCalls (hash : S → ℕ) (calls : List (MapCall S V)) {m : HashMap S V}
    (h : m.Roomy) : (HashMap.runCalls hash m calls).2.Roomy := by
  induction calls generalizing m with
  | nil => exact h
  | cons call calls ih => exact ih (h.exec hash call)

end Calls

/-- There are fewer entries than slots, doubling never goes back to the old table and leaves a
slot for every key, and a put is refused only for an entry that is not to be updated. -/
structure KeepsRoom [DecidableEq S] [DecidableEq V] (hash : S → ℕ) (m : HashMap S V) : Prop where
  entries : m.occupied.card ≤ m.length
  below : m.length < m.tableSize
  rehash : ∀ mem : MapMem, mem.calloc ((m.tableSize <<< 1) * sizeofMapElem) = true →
    (m.hashmapRehash hash mem).1 = 0 ∧
      ∀ key, (m.hashmapRehash hash mem).2.hashmapEntryFind hash key true ≠ none
  put : ∀ (mem : MapMem) (key : CString S) (value : V),
    AllocsSucceed m (.put mem (some key) (some value)) →
      (m.mMapPut hash mem (some key) (some value)).1 = 0 ∨
        (m.mMapPut hash mem (some key) (some value)).1 = -EPERM

/-- Whatever has been put, removed and cleared before, for every hash function. -/
theorem keepsRoom_runCalls [DecidableEq S] [DecidableEq V] (hash : S → ℕ) (flags : MapFlags)
    (dtor : Bool) (calls : List (MapCall S V)) :
    KeepsRoom hash (runCalls hash (mMapNew flags dtor) calls).2 := by
  have h := (roomy_new flags dtor).runCalls hash calls
  generalize (runCalls hash (mMapNew flags dtor) calls).2 = m at h
  refine ⟨h.entries, h.below, fun mem hmem => ?_, fun mem key value halloc => ?_⟩
  · rcases h.rehash hash mem with ⟨hno, -⟩ | ⟨T, heq, hroomy, hcard⟩
    · rw [hmem] at hno
      cases hno
    · refine ⟨by rw [heq], fun key => ?_⟩
      obtain ⟨k, -, hk⟩ := hroomy.size
      obtain ⟨slot, -, hfind⟩ := find_of_room hash hk key
        (by show _ < 2 * m.tableSize / 2; omega)
      rw [heq, hfind]
      exact Option.some_ne_none slot
  · obtain ⟨hdup, hmem⟩ := halloc
    obtain ⟨addr, haddr⟩ := Option.ne_none_iff_exists'.mp hdup
    simp only [mMapPut]
    cases m.flags.keyDup with
    | false => exact (h.hashmapPut hash mem key value).2 hmem
    | true =>
        rw [haddr]
        exact (h.hashmapPut hash mem ⟨addr, key.text⟩ value).2 hmem

end HashMap
end Libmodule
