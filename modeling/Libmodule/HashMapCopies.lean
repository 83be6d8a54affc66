import Libmodule.CallRun
import Libmodule.HashMapEntries

/-!
# Copies of keys

A map that duplicates its keys owns the copies: each one is the key of an entry, or has been
freed.  `m_map_put` makes the copy before it knows whether the entry is a new one, and gives
it to the map only then; the copy for an update, for a refused put and for one that finds no
memory is nobody's.
-/

namespace Libmodule
namespace HashMap

open CallRun

variable {S V : Type} {hash : S → ℕ} {m m' : HashMap S V}

/-- A call of the public functions; `mem` of a clear is the memory for its iterator. -/
inductive KeyCall (S V : Type) where
  | put (mem : MapMem) (key : Option (CString S)) (value : Option V)
  | remove (key : Option S)
  | itrRemove (key : S)
  | clear (mem : Bool)

/-- A map with the copies that `mem_strdup` has made for it. -/
structure CopyMap (S V : Type) where
  map : HashMap S V
  copies : List ℕ

/-- The copy that a call makes. -/
def KeyCall.copies (m : HashMap S V) : KeyCall S V → List ℕ
  | .put mem (some _) (some _) => if m.flags.keyDup then mem.strdup.toList else []
  | _ => []

/-- `m_map_free`: nothing is left of the table. -/
def mMapFree (hash : S → ℕ) (mem : Bool) (m : HashMap S V) : ℤ × HashMap S V :=
  let (ret, m) := m.clearWith hash mem
  (ret, if ret = 0 then { m with table := fun _ => none } else m)

section Calls

variable [DecidableEq S] [DecidableEq V]

def KeyCall.exec (hash : S → ℕ) (m : HashMap S V) : KeyCall S V → ℤ × HashMap S V
  | .put mem key value => m.mMapPut hash mem key value
  | .remove key => m.mMapRemove hash key
  | .itrRemove key => MapCall.exec hash m (.itrRemove key)
  | .clear mem => m.clearWith hash mem

def CopyMap.exec (hash : S → ℕ) (s : CopyMap S V) (call : KeyCall S V) :
    Option (ℤ × CopyMap S V) :=
  let (ret, m) := call.exec hash s.map
  some (ret, ⟨m, s.copies ++ call.copies s.map⟩)

/-- A put that makes a copy is for a key that the map does not hold, and finds the memory it
needs. -/
def StoresCopy (hash : S → ℕ) (s : CopyMap S V) : KeyCall S V → Prop
  | .put mem (some key) (some _) =>
      mem.strdup = none ∨
        (∀ e ∈ s.map.entries, e.key.text ≠ key.text) ∧
          (s.map.Grows hash key.text →
            mem.calloc ((s.map.tableSize <<< 1) * sizeofMapElem) = true)
  | _ => True

/-- Every copy is the key of one entry, or has been freed once; and `m_map_free` frees the
others if it finds memory for its iterator, or nothing to free. -/
structure OwnsCopies (hash : S → ℕ) (s : CopyMap S V) : Prop where
  balance : (s.copies : Multiset ℕ) =
    s.map.entries.map (fun e => e.key.addr) + (s.map.freedKeys : Multiset ℕ)
  freed : ∀ mem, (s.copies : Multiset ℕ) = (s.map.mMapFree hash mem).2.freedKeys ↔
    mem = true ∨ s.map.length = 0

end Calls

/-! ## Calls -/

/-- The map counts its entries, and keys are copied and freed. -/
structure Kept (m : HashMap S V) : Prop where
  counted : m.Counted
  keyDup : m.flags.keyDup = true
  keyAutofree : m.flags.keyAutofree = true

theorem Kept.of_releases {values : List V} {keys : List ℕ} (h : m.Kept)
    (hreleases : m.Releases m' values keys) (hcounted : m'.Counted) : m'.Kept :=
  ⟨hcounted, hreleases.flags ▸ h.keyDup, hreleases.flags ▸ h.keyAutofree⟩

/-- A key that the map does not hold becomes a new entry. -/
theorem Kept.hashmapPut [DecidableEq S] [DecidableEq V] (h : m.Kept) (hash : S → ℕ)
    (mem : MapMem) (key : CString S) (value : V)
    (habsent : ∀ e ∈ m.entries, e.key.text ≠ key.text)
    (hmem : m.Grows hash key.text →
      mem.calloc ((m.tableSize <<< 1) * sizeofMapElem) = true) :
    ∃ m', m.hashmapPut hash mem (some key) value = (0, m') ∧ m'.Kept ∧
      m'.entries = ⟨key, value⟩ ::ₘ m.entries ∧ m'.freedKeys = m.freedKeys := by
  obtain ⟨m', hput, hcounted, hentries, hreleases⟩ :=
    h.counted.hashmapPut_new hash mem key value habsent hmem
  exact ⟨m', hput, h.of_releases hreleases hcounted, hentries,
    hreleases.freedKeys.trans (List.append_nil _)⟩

/-- Of the keys that the map had, one is freed. -/
theorem Kept.clearElem (h : m.Kept) (hash : S → ℕ) {r : ℕ} {e : MapElem S V}
    (hr : r < m.tableSize) (he : m.table r = some e) :
    (m.clearElem hash r).Kept ∧ m.entries = e ::ₘ (m.clearElem hash r).entries ∧
      (m.clearElem hash r).freedKeys = m.freedKeys ++ [e.key.addr] := by
  obtain ⟨hcounted, hentries, hreleases⟩ := h.counted.clearElem hash hr he
  have hfreed := hreleases.freedKeys
  rw [h.keyAutofree, if_pos rfl] at hfreed
  exact ⟨h.of_releases hreleases hcounted, hentries, hfreed⟩

theorem Kept.clearWith (h : m.Kept) (hash : S → ℕ) :
    (m.clearWith hash true).2.Kept ∧ (m.clearWith hash true).2.entries = 0 ∧
      ((m.clearWith hash true).2.freedKeys : Multiset ℕ) =
        m.freedKeys + m.entries.map (fun e => e.key.addr) := by
  obtain ⟨hcounted, hentries, removed, hremoved, hreleases⟩ := h.counted.clearWith hash
  have hfreed := hreleases.freedKeys
  rw [h.keyAutofree, if_pos rfl] at hfreed
  refine ⟨h.of_releases hreleases hcounted, hentries, ?_⟩
  rw [hfreed, ← hremoved, ← Multiset.coe_add, Multiset.map_coe]

/-- What a map owns is freed with it, when the iterator of `m_map_clear` is there. -/
theorem Kept.ownsCopies (h : m.Kept) (hash : S → ℕ) {copies : List ℕ}
    (hbalance : (copies : Multiset ℕ) =
      m.entries.map (fun e => e.key.addr) + (m.freedKeys : Multiset ℕ)) :
    OwnsCopies hash ⟨m, copies⟩ := by
  refine ⟨hbalance, fun mem => ?_⟩
  have hsame : (m.mMapFree hash mem).2.freedKeys = (m.clearWith hash mem).2.freedKeys := rfl
  rw [hsame, hbalance, h.counted.length_eq_zero_iff]
  cases mem with
  | true =>
      have hfreed := (h.clearWith hash).2.2
      exact iff_of_true (by rw [hfreed, add_comm]) (.inl rfl)
  | false =>
      have hkeep : (m.clearWith hash false).2.freedKeys = m.freedKeys := rfl
      rw [hkeep]
      simp
/-! ## Runs -/

section Runs

variable [DecidableEq S] [DecidableEq V]

/-- The copies are accounted for. -/
structure CopyMap.Balanced (s : CopyMap S V) : Prop where
  kept : s.map.Kept
  balance : (s.copies : Multiset ℕ) =
    s.map.entries.map (fun e => e.key.addr) + (s.map.freedKeys : Multiset ℕ)

omit [DecidableEq S] [DecidableEq V] in
theorem CopyMap.Balanced.clearElem {s : CopyMap S V} (h : s.Balanced) (hash : S → ℕ) {r : ℕ}
    {e : MapElem S V} (hr : r < s.map.tableSize) (he : s.map.table r = some e) :
    CopyMap.Balanced ⟨s.map.clearElem hash r, s.copies⟩ := by
  obtain ⟨hkept, hentries, hfreed⟩ := h.kept.clearElem hash hr he
  refine ⟨hkept, ?_⟩
  rw [h.balance, hentries, hfreed, Multiset.map_cons, ← Multiset.coe_add, Multiset.coe_singleton,
    ← Multiset.singleton_add]
  abel

theorem CopyMap.Balanced.put {s : CopyMap S V} (h : s.Balanced) {mem : MapMem}
    {key : Option (CString S)} {value : Option V}
    (hstores : StoresCopy hash s (.put mem key value)) :
    ∃ ret s', s.exec hash (.put mem key value) = some (ret, s') ∧ s'.Balanced := by
  obtain ⟨m, copies⟩ := s
  have hsame : CopyMap.Balanced ⟨m, copies ++ []⟩ := by rwa [List.append_nil]
  cases key with
  | none => exact ⟨_, _, rfl, hsame⟩
  | some key =>
      cases value with
      | none => exact ⟨_, _, rfl, hsame⟩
      | some value =>
          have hdup : m.flags.keyDup = true := h.kept.keyDup
          cases hstrdup : mem.strdup with
          | none =>
              refine ⟨-EINVAL, ⟨m, copies ++ []⟩, ?_, hsame⟩
              simp [CopyMap.exec, KeyCall.exec, KeyCall.copies, mMapPut, hashmapPut, hdup, hstrdup]
          | some addr =>
              obtain ⟨habsent, hmem⟩ := hstores.resolve_left (by simp [hstrdup])
              obtain ⟨m', hput, hkept, hentries, hfreed⟩ :=
                h.kept.hashmapPut hash mem ⟨addr, key.text⟩ value habsent hmem
              refine ⟨0, ⟨m', copies ++ [addr]⟩, ?_, hkept, ?_⟩
              · simp [CopyMap.exec, KeyCall.exec, KeyCall.copies, mMapPut, hdup, hstrdup, hput]
              · have hbalance := h.balance
                simp only at hbalance ⊢
                rw [← Multiset.coe_add, hbalance, hentries, hfreed, Multiset.map_cons,
                  Multiset.coe_singleton, ← Multiset.singleton_add]
                abel

omit [DecidableEq V] in
theorem CopyMap.Balanced.remove {copies : List ℕ} (h : CopyMap.Balanced ⟨m, copies⟩)
    (hash : S → ℕ) (key : S) :
    CopyMap.Balanced ⟨(m.mMapRemove hash (some key)).2, copies⟩ := by
  obtain ⟨k, -, hk⟩ := h.kept.counted.roomy.size
  simp only [mMapRemove]
  split
  next =>
    cases hfind : m.hashmapEntryFind hash key false with
    | none => exact h
    | some slot =>
        obtain ⟨hslot, hentry⟩ := find_slot hk hfind
        obtain ⟨e, he⟩ := hentry rfl
        exact h.clearElem hash hslot he
  next => exact h

theorem CopyMap.Balanced.itrRemove {copies : List ℕ} (h : CopyMap.Balanced ⟨m, copies⟩)
    (hash : S → ℕ) (key : S) :
    CopyMap.Balanced ⟨(MapCall.exec hash m (.itrRemove key)).2, copies⟩ := by
  simp only [MapCall.exec]
  have hnew : m.ItrAt m.mMapItrNew := itrAt_new
  rcases itrAt_seek (m.tableSize + 1) hnew with hitr | ⟨p, hp, hitr, e, he⟩
  · rw [hitr]
    exact h
  · rw [hitr]
    exact h.clearElem hash hp he

omit [DecidableEq S] [DecidableEq V] in
theorem CopyMap.Balanced.clear {copies : List ℕ} (h : CopyMap.Balanced ⟨m, copies⟩)
    (hash : S → ℕ) (mem : Bool) : CopyMap.Balanced ⟨(m.clearWith hash mem).2, copies⟩ := by
  cases mem with
  | false => exact h
  | true =>
      obtain ⟨hkept, hentries, hfreed⟩ := h.kept.clearWith hash
      refine ⟨hkept, ?_⟩
      have hbalance := h.balance
      simp only at hbalance ⊢
      rw [hbalance, hentries, hfreed, Multiset.map_zero, zero_add, add_comm]

theorem CopyMap.Balanced.exec {s : CopyMap S V} (h : s.Balanced) {call : KeyCall S V}
    (hstores : StoresCopy hash s call) :
    ∃ ret s', s.exec hash call = some (ret, s') ∧ s'.Balanced := by
  obtain ⟨m, copies⟩ := s
  -- only a put makes a copy
  have hexec : call.copies m = [] → CopyMap.exec hash ⟨m, copies⟩ call =
      some ((call.exec hash m).1, ⟨(call.exec hash m).2, copies⟩) := by
    intro hnil
    simp [CopyMap.exec, hnil]
  cases call with
  | put mem key value => exact h.put hstores
  | remove key =>
      refine ⟨_, _, hexec rfl, ?_⟩
      cases key with
      | none => exact h
      | some key => exact h.remove hash key
  | itrRemove key => exact ⟨_, _, hexec rfl, h.itrRemove hash key⟩
  | clear mem => exact ⟨_, _, hexec rfl, h.clear hash mem⟩

omit [DecidableEq S] [DecidableEq V] in
theorem balanced_new (flags : MapFlags) (hdup : flags.keyDup = true) (dtor : Bool) :
    CopyMap.Balanced (⟨mMapNew flags dtor, []⟩ : CopyMap S V) := by
  have hentries : (mMapNew flags dtor : HashMap S V).entries = 0 :=
    entries_eq_zero_of_empty fun _ _ => rfl
  refine ⟨⟨⟨roomy_new flags dtor, ?_, ?_⟩, hdup, ?_⟩, ?_⟩
  · rw [hentries]
    rfl
  · rw [hentries]
    exact Multiset.nodup_zero
  · simp [mMapNew, hdup]
  · simp only [hentries]
    rfl

/-- A map that duplicates its keys owns every copy after every call, as long as each put that
makes a copy gives it to a new entry. -/
theorem ownsCopies_of_storesCopy (hash : S → ℕ) (flags : MapFlags) (hdup : flags.keyDup = true)
    (dtor : Bool) (calls : List (KeyCall S V))
    (hmeets : Meets (CopyMap.exec hash) (StoresCopy hash) ⟨mMapNew flags dtor, []⟩ calls) :
    Always (CopyMap.exec hash) (fun _ _ _ s' => OwnsCopies hash s')
      ⟨mMapNew flags dtor, []⟩ calls := by
  refine always_of_step CopyMap.Balanced ?_ calls (balanced_new flags hdup dtor) hmeets
  intro s call hs hstores
  obtain ⟨ret, s', hexec, hs'⟩ := hs.exec hstores
  exact ⟨ret, s', hexec, hs'.kept.ownsCopies hash hs'.balance, hs'⟩

end Runs

def copyMem (strdup : Option ℕ) : MapMem where
  strdup := strdup
  calloc := fun bytes => bytes < 2 ^ 64
  calloc_lt := fun _ h => of_decide_eq_true h

def dupFlags : MapFlags := ⟨true, false, true⟩

theorem ownsCopies_putRemove :
    Always (CopyMap.exec id) (fun _ _ _ s' => OwnsCopies id s')
      (⟨mMapNew dupFlags true, []⟩ : CopyMap ℕ ℕ)
      [.put (copyMem (some 1)) (some ⟨0, 5⟩) (some 7), .remove (some 5),
        .put (copyMem none) (some ⟨0, 5⟩) (some 8), .clear true] :=
  ownsCopies_of_storesCopy id dupFlags rfl true _ <| by
    have hempty : (mMapNew dupFlags true : HashMap ℕ ℕ).entries = 0 := by decide
    refine ⟨.inr ⟨fun e he => ?_, fun _ => by decide⟩, trivial, .inl rfl, trivial, trivial⟩
    simp [hempty] at he

/-- The copy that is made for an update has no owner. -/
theorem not_ownsCopies_update :
    ¬ Always (CopyMap.exec id) (fun _ _ _ s' => OwnsCopies id s')
      (⟨mMapNew dupFlags true, []⟩ : CopyMap ℕ ℕ)
      [.put (copyMem (some 1)) (some ⟨0, 5⟩) (some 7),
        .put (copyMem (some 2)) (some ⟨0, 5⟩) (some 8)] := by
  intro h
  obtain ⟨-, h, -⟩ := h
  exact absurd h.balance (by decide)

end HashMap
end Libmodule
