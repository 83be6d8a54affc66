import Libmodule.HashMapDeletion
import Mathlib.Data.Set.Card

/-!
# The hash map refines a finite partial function

A run of public calls on a new map is compared with the same calls on a
partial function from keys to values.  The two agree, return code by return
code, as long as every removal ends its back-shift loop at the end of a chain.
-/

namespace Libmodule
namespace HashMap

open ProbeTable

variable {S V : Type} {hash : S → ℕ}

/-- The public calls that change a map.  `itrRemove key` walks an iterator to
the entry with that key and removes it there. -/
inductive MapCall (S V : Type) where
  | put (mem : MapMem) (key : Option (CString S)) (value : Option V)
  | remove (key : Option S)
  | itrRemove (key : S)
  | clear

def itrSeek [DecidableEq S] (m : HashMap S V) (key : S) : ℕ → Option MapItr → Option MapItr
  | 0, _ => none
  | _ + 1, none => none
  | left + 1, some itr =>
      if (m.mMapItrGetKey itr).map CString.text = some key then some itr
      else itrSeek m key left (m.mMapItrNext itr)

def MapCall.exec [DecidableEq S] [DecidableEq V] (hash : S → ℕ) (m : HashMap S V) :
    MapCall S V → ℤ × HashMap S V
  | .put mem key value => m.mMapPut hash mem key value
  | .remove key => m.mMapRemove hash key
  | .itrRemove key =>
      let removal :=
        m.mMapItrRemove hash (m.itrSeek key (m.tableSize + 1) m.mMapItrNew)
      (removal.1, removal.2.1)
  | .clear => m.mMapClear hash

def runCalls [DecidableEq S] [DecidableEq V] (hash : S → ℕ) (m : HashMap S V) :
    List (MapCall S V) → List ℤ × HashMap S V
  | [] => ([], m)
  | call :: calls =>
      let next := call.exec hash m
      let rest := runCalls hash next.2 calls
      (next.1 :: rest.1, rest.2)

/-- Every call of a run meets `P` in the state it is made in. -/
def RunMeets [DecidableEq S] [DecidableEq V] (hash : S → ℕ)
    (P : HashMap S V → MapCall S V → Prop) : HashMap S V → List (MapCall S V) → Prop
  | _, [] => True
  | m, call :: calls => P m call ∧ RunMeets hash P (call.exec hash m).2 calls

/-- The allocations a call asks for succeed. -/
def AllocsSucceed (m : HashMap S V) : MapCall S V → Prop
  | .put mem _ _ =>
      mem.strdup ≠ none ∧ mem.calloc ((m.tableSize <<< 1) * sizeofMapElem) = true
  | _ => True

/-- A removal ends its back-shift loop at the end of a chain. -/
def ShiftsEnd (hash : S → ℕ) (m : HashMap S V) : MapCall S V → Prop
  | .remove (some key) | .itrRemove key =>
      ∀ r < m.tableSize, ∀ e, m.table r = some e → e.key.text = key →
        ShiftEnds hash m r
  | _ => True

/-! ## The specification -/

/-- One call on a partial function from keys to values. -/
inductive SpecStep [DecidableEq S] (allowUpdate : Bool) :
    (S → Option V) → MapCall S V → ℤ → (S → Option V) → Prop where
  | putNew {f mem key value} (habsent : f key.text = none) :
      SpecStep allowUpdate f (.put mem (some key) (some value)) 0
        (Function.update f key.text (some value))
  | putUpdate {f mem key value} (hpresent : f key.text ≠ none)
      (hallow : allowUpdate = true) :
      SpecStep allowUpdate f (.put mem (some key) (some value)) 0
        (Function.update f key.text (some value))
  | putRefused {f mem key value} (hpresent : f key.text ≠ none)
      (hdeny : allowUpdate = false) :
      SpecStep allowUpdate f (.put mem (some key) (some value)) (-EPERM) f
  | putInvalid {f mem key value} (hnull : key = none ∨ value = none) :
      SpecStep allowUpdate f (.put mem key value) (-EINVAL) f
  | removed {f key} (hpresent : f key ≠ none) :
      SpecStep allowUpdate f (.remove (some key)) 0 (Function.update f key none)
  | removeAbsent {f key ret} (habsent : f key = none) (hret : ret ≠ 0) :
      SpecStep allowUpdate f (.remove (some key)) ret f
  | removeInvalid {f} : SpecStep allowUpdate f (.remove none) (-EINVAL) f
  | itrRemoved {f key} (hpresent : f key ≠ none) :
      SpecStep allowUpdate f (.itrRemove key) 0 (Function.update f key none)
  | itrRemoveAbsent {f key ret} (habsent : f key = none) (hret : ret ≠ 0) :
      SpecStep allowUpdate f (.itrRemove key) ret f
  | clear {f} : SpecStep allowUpdate f .clear 0 (fun _ => none)

inductive SpecRun [DecidableEq S] (allowUpdate : Bool) :
    (S → Option V) → List (MapCall S V) → List ℤ → (S → Option V) → Prop where
  | nil {f} : SpecRun allowUpdate f [] [] f
  | cons {f g f' call calls ret rets} (hstep : SpecStep allowUpdate f call ret g)
      (hrest : SpecRun allowUpdate g calls rets f') :
      SpecRun allowUpdate f (call :: calls) (ret :: rets) f'

/-- The map answers queries as the partial function does, and the lookup of
every stored key stops at its entry. -/
structure Refines [DecidableEq S] (hash : S → ℕ) (m : HashMap S V)
    (f : S → Option V) : Prop where
  get : ∀ key, m.mMapGet hash (some key) = f key
  len : m.mMapLen = ({key | f key ≠ none} : Set S).ncard
  found : ∀ slot e, slot < m.tableSize → m.table slot = some e →
    m.hashmapEntryFind hash e.key.text false = some slot ∧
      dist m.tableSize (m.home hash e) slot < m.tableSize / 2 ∧
      ∀ i < dist m.tableSize (m.home hash e) slot,
        m.table (slotAt m.tableSize (m.home hash e) i) ≠ none

/-- The calls on a new map return what the specification returns and lead to
a map that refines its result. -/
def MapContract [DecidableEq S] [DecidableEq V] (hash : S → ℕ) (flags : MapFlags) (dtor : Bool)
    (calls : List (MapCall S V)) : Prop :=
  let run := runCalls hash (mMapNew flags dtor) calls
  ∃ f, SpecRun flags.valAllowUpdate (fun _ => none) calls run.1 f ∧
    Refines hash run.2 f

/-! ## The simulation -/

/-- The map satisfies its invariant and stores exactly the bindings of `f`. -/
structure Models (hash : S → ℕ) (m : HashMap S V) (f : S → Option V) : Prop where
  inv : TableInvariant hash m
  bind : ∀ key value, f key = some value ↔
    ∃ e, m.Stored e ∧ e.key.text = key ∧ e.data = value

section Simulation

variable {m : HashMap S V} {f : S → Option V}

theorem Models.of_stored (h : Models hash m f) {e : MapElem S V} (he : m.Stored e) :
    f e.key.text = some e.data :=
  (h.bind _ _).mpr ⟨e, he, rfl, rfl⟩

theorem Models.absent_iff (h : Models hash m f) (key : S) :
    f key = none ↔ ∀ e, m.Stored e → e.key.text ≠ key := by
  constructor
  · rintro hnone e he rfl
    rw [h.of_stored he] at hnone
    simp at hnone
  · intro hall
    by_contra hsome
    obtain ⟨value, hvalue⟩ := Option.ne_none_iff_exists'.mp hsome
    obtain ⟨e, he, hkey, _⟩ := (h.bind key value).mp hvalue
    exact hall e he hkey

theorem Models.present (h : Models hash m f) {key : S} (hpresent : f key ≠ none) :
    ∃ p e, p < m.tableSize ∧ m.table p = some e ∧ e.key.text = key := by
  obtain ⟨value, hvalue⟩ := Option.ne_none_iff_exists'.mp hpresent
  obtain ⟨e, ⟨p, hp, he⟩, hkey, _⟩ := (h.bind key value).mp hvalue
  exact ⟨p, e, hp, he, hkey⟩

theorem TableInvariant.find [DecidableEq S] (h : TableInvariant hash m) (findEmpty : Bool) {p : ℕ}
    {e : MapElem S V} (hp : p < m.tableSize) (he : m.table p = some e) :
    m.hashmapEntryFind hash e.key.text findEmpty = some p := by
  obtain ⟨k, _, _, hk⟩ := h.size
  exact find_of_stored h.chained hk h.keysDistinct findEmpty hp he

theorem TableInvariant.find_absent [DecidableEq S] (h : TableInvariant hash m) {key : S}
    (habsent : ∀ e, m.Stored e → e.key.text ≠ key) :
    m.hashmapEntryFind hash key false = none := by
  obtain ⟨k, _, _, hk⟩ := h.size
  rcases find_of_absent hash key hk false
      (fun p e hp he => habsent e ⟨p, hp, he⟩) with ⟨j, _, _, _, hfind⟩ | ⟨_, hfind⟩
  · simpa using hfind
  · exact hfind

theorem TableInvariant.length_pos (h : TableInvariant hash m) {p : ℕ} {e : MapElem S V}
    (hp : p < m.tableSize) (he : m.table p = some e) : m.length > 0 := by
  rw [h.length_eq]
  exact Finset.card_pos.mpr ⟨p, by simp [occupied, hp, he]⟩

theorem Models.get_eq [DecidableEq S] (h : Models hash m f) (key : S) :
    m.mMapGet hash (some key) = f key := by
  by_cases hpresent : f key = none
  · rw [hpresent, mMapGet]
    split
    · rw [h.inv.find_absent ((h.absent_iff key).mp hpresent)]
      rfl
    · rfl
  · obtain ⟨p, e, hp, he, rfl⟩ := h.present hpresent
    rw [h.of_stored ⟨p, hp, he⟩, mMapGet, if_pos (h.inv.length_pos hp he),
      h.inv.find false hp he]
    simp [he]

theorem Models.len_eq (h : Models hash m f) :
    m.length = ({key | f key ≠ none} : Set S).ncard := by
  rw [h.inv.length_eq, ← Set.ncard_coe_finset]
  refine Set.ncard_congr
    (fun slot hslot => ((m.table slot).get (by
      have hne : m.table slot ≠ none := by
        have := Finset.mem_coe.mp hslot
        rw [occupied, Finset.mem_filter] at this
        exact this.2
      exact Option.isSome_iff_ne_none.mpr hne)).key.text) ?_ ?_ ?_
  · intro slot hslot
    have hmem := Finset.mem_coe.mp hslot
    rw [occupied, Finset.mem_filter, Finset.mem_range] at hmem
    obtain ⟨e, he⟩ := Option.ne_none_iff_exists'.mp hmem.2
    have hbound := h.of_stored ⟨slot, hmem.1, he⟩
    simp [he, hbound]
  · intro p q hp hq hkey
    have hp' := Finset.mem_coe.mp hp
    have hq' := Finset.mem_coe.mp hq
    rw [occupied, Finset.mem_filter, Finset.mem_range] at hp' hq'
    obtain ⟨e, he⟩ := Option.ne_none_iff_exists'.mp hp'.2
    obtain ⟨e', he'⟩ := Option.ne_none_iff_exists'.mp hq'.2
    exact h.inv.keysDistinct p q e e' hp'.1 hq'.1 he he' (by simpa [he, he'] using hkey)
  · intro key hkey
    obtain ⟨p, e, hp, he, rfl⟩ := h.present hkey
    refine ⟨p, ?_, by simp [he]⟩
    simp [occupied, hp, he]

theorem Models.refines [DecidableEq S] (h : Models hash m f) : Refines hash m f where
  get := h.get_eq
  len := by rw [mMapLen, h.len_eq]
  found := fun _ e hslot he =>
    ⟨h.inv.find false hslot he, h.inv.chained.dist_lt _ e hslot he,
      h.inv.chained.filled _ e hslot he⟩

theorem models_new (flags : MapFlags) (dtor : Bool) :
    Models hash (mMapNew flags dtor : HashMap S V) (fun _ => none) := by
  have hempty : (mMapNew flags dtor : HashMap S V).occupied = ∅ := by
    simp [occupied, mMapNew]
  refine ⟨⟨⟨7, le_rfl, by omega, rfl⟩, chained_empty _ _ _, ?_, ?_, ?_⟩, ?_⟩
  · intro p q e e' _ _ hp
    simp [mMapNew] at hp
  · rw [hempty]
    rfl
  · exact Nat.zero_lt_succ _
  · intro key value
    constructor
    · intro h
      simp at h
    · rintro ⟨e, ⟨p, _, he⟩, _⟩
      simp [mMapNew] at he

/-! ### Insertion -/

/-- Storing at the slot of a present key. -/
theorem Models.putAt_present [DecidableEq S] [DecidableEq V] (h : Models hash m f) {p : ℕ} {e : MapElem S V}
    (hp : p < m.tableSize) (he : m.table p = some e) {key : CString S}
    (hkey : e.key.text = key.text) (value : V) :
    (m.flags.valAllowUpdate = true ∧ (m.putAt p key value).1 = 0 ∧
      Models hash (m.putAt p key value).2 (Function.update f key.text (some value))) ∨
    (m.flags.valAllowUpdate = false ∧ m.putAt p key value = (-EPERM, m)) := by
  cases hflag : m.flags.valAllowUpdate with
  | false => exact Or.inr ⟨rfl, by simp [putAt, he, hflag]⟩
  | true =>
      left
      refine ⟨rfl, by simp [putAt, he, hflag], ?_⟩
      simp only [putAt, he, hflag, if_true]
      have hocc : ∀ destroyed : List V, ({ m with
          table := Function.update m.table p (some { e with data := value })
          destroyed := destroyed } : HashMap S V).occupied = m.occupied := by
        intro destroyed
        have hins := occupied_update_some hp { e with data := value }
        rw [Finset.insert_eq_of_mem (by simp [occupied, hp, he])] at hins
        exact hins
      have hcases : ∀ q x,
          Function.update m.table p (some { e with data := value }) q = some x →
          ∃ y, m.table q = some y ∧ y.key = x.key := by
        intro q x hx
        by_cases hq : q = p
        · subst hq
          simp only [Function.update_self, Option.some.injEq] at hx
          exact ⟨e, he, by rw [← hx]⟩
        · rw [Function.update_of_ne hq] at hx
          exact ⟨x, hx, rfl⟩
      refine ⟨⟨h.inv.size, h.inv.chained.replace hp he rfl, ?_, ?_, h.inv.length_lt⟩, ?_⟩
      · intro q r x y hq hr hx hy hxy
        obtain ⟨x', hx', hxk⟩ := hcases q x hx
        obtain ⟨y', hy', hyk⟩ := hcases r y hy
        exact h.inv.keysDistinct q r x' y' hq hr hx' hy' (by rw [hxk, hyk, hxy])
      · rw [hocc]
        exact h.inv.length_eq
      · intro other v
        by_cases hother : other = key.text
        · subst hother
          rw [Function.update_self]
          constructor
          · intro hv
            refine ⟨{ e with data := value }, ⟨p, hp, by simp⟩, hkey, by simpa using hv⟩
          · rintro ⟨x, ⟨q, hq, hx⟩, hxk, rfl⟩
            obtain ⟨y, hy, hyk⟩ := hcases q x hx
            have hqp := h.inv.keysDistinct q p y e hq hp hy he (by rw [hyk, hxk, hkey])
            subst hqp
            simp only [Function.update_self, Option.some.injEq] at hx
            rw [← hx]
        · rw [Function.update_of_ne hother, h.bind]
          constructor
          · rintro ⟨x, ⟨q, hq, hx⟩, hxk, hxv⟩
            refine ⟨x, ⟨q, hq, ?_⟩, hxk, hxv⟩
            have hqp : q ≠ p := by
              rintro rfl
              rw [he] at hx
              rw [← Option.some.inj hx, hkey] at hxk
              exact hother hxk.symm
            simpa [Function.update_of_ne hqp] using hx
          · rintro ⟨x, ⟨q, hq, hx⟩, hxk, hxv⟩
            refine ⟨x, ⟨q, hq, ?_⟩, hxk, hxv⟩
            have hqp : q ≠ p := by
              rintro rfl
              simp only [Function.update_self, Option.some.injEq] at hx
              rw [← hx] at hxk
              exact hother (by rw [← hxk, hkey])
            simpa [Function.update_of_ne hqp] using hx

/-- Storing at the first empty slot of the chain of an absent key. -/
theorem Models.putAt_absent [DecidableEq S] [DecidableEq V] (h : Models hash m f) {key : CString S} {j : ℕ}
    (habsent : f key.text = none) (hroom : m.length + 1 < m.tableSize)
    (hj : j < m.tableSize / 2)
    (hbefore : ∀ n < j,
      m.table (slotAt m.tableSize (m.hashmapCalcIndex hash key.text) n) ≠ none)
    (hnone : m.table (slotAt m.tableSize (m.hashmapCalcIndex hash key.text) j) = none)
    (value : V) :
    let stored := m.putAt (slotAt m.tableSize (m.hashmapCalcIndex hash key.text) j) key value
    stored.1 = 0 ∧ Models hash stored.2 (Function.update f key.text (some value)) := by
  obtain ⟨k, hk7, hk60, hk⟩ := h.inv.size
  have hslot : slotAt m.tableSize (m.hashmapCalcIndex hash key.text) j < m.tableSize :=
    slotAt_lt (calcIndex_lt _ hk _) (by omega)
  have hother : ∀ x, m.Stored x → x.key.text ≠ key.text := (h.absent_iff _).mp habsent
  have hprobed := h.inv.probed.fill (e := ⟨key, value⟩) hk hother hj hbefore
  have hcard := card_occupied_fill hslot hnone ⟨key, value⟩
  have hstored := stored_fill hslot hnone ⟨key, value⟩
  simp only [putAt, hnone]
  refine ⟨trivial, ⟨⟨k, hk7, hk60, hk⟩, hprobed.chained, hprobed.keysDistinct, ?_, hroom⟩, ?_⟩
  · have hlen := h.inv.length_eq
    exact (congrArg (· + 1) hlen).trans hcard.symm
  · intro other v
    have hbind : (∃ e, m.Stored e ∧ e.key.text = other ∧ e.data = v) ↔ f other = some v :=
      (h.bind other v).symm
    by_cases heq : other = key.text
    · subst heq
      rw [Function.update_self]
      constructor
      · intro hv
        exact ⟨⟨key, value⟩, (hstored _).mpr (Or.inl rfl), rfl, by simpa using hv⟩
      · rintro ⟨x, hx, hxk, rfl⟩
        rcases (hstored x).mp hx with rfl | hold
        · rfl
        · exact absurd hxk (hother x hold)
    · rw [Function.update_of_ne heq, ← hbind]
      constructor
      · rintro ⟨x, hx, hrest⟩
        exact ⟨x, (hstored x).mpr (Or.inr hx), hrest⟩
      · rintro ⟨x, hx, hxk, hxv⟩
        rcases (hstored x).mp hx with rfl | hold
        · exact absurd hxk.symm heq
        · exact ⟨x, hold, hxk, hxv⟩

/-- Doubling keeps the bindings and leaves at least half of the table free. -/
theorem Models.rehash [DecidableEq S] (h : Models hash m f) (mem : MapMem)
    (hmem : mem.calloc ((m.tableSize <<< 1) * sizeofMapElem) = true) :
    ∃ m', m.hashmapRehash hash mem = (0, m') ∧ Models hash m' f ∧
      m'.tableSize = 2 * m.tableSize ∧ m'.length = m.length ∧ m'.flags = m.flags := by
  obtain ⟨T, hrehash, hinv, _, hstored⟩ := hashmapRehash_spec h.inv hmem
  refine ⟨_, hrehash, ⟨hinv, ?_⟩, rfl, rfl, rfl⟩
  intro key value
  rw [h.bind]
  constructor
  · rintro ⟨e, he, hrest⟩
    exact ⟨e, (hstored e).mpr he, hrest⟩
  · rintro ⟨e, he, hrest⟩
    exact ⟨e, (hstored e).mp he, hrest⟩

/-- The part of `hashmap_put` after the load check. -/
def putProbe [DecidableEq S] [DecidableEq V] (hash : S → ℕ) (mem : MapMem)
    (m : HashMap S V) (key : CString S) (value : V) : ℤ × HashMap S V :=
  match m.hashmapEntryFind hash key.text true with
  | some slot => m.putAt slot key value
  | none =>
      let (ret, m) := m.hashmapRehash hash mem
      if ret ≠ 0 then (ret, m)
      else
        match m.hashmapEntryFind hash key.text true with
        | some slot => m.putAt slot key value
        | none => (-ENOMEM, m)

theorem putAt_flags [DecidableEq V] (m : HashMap S V) (slot : ℕ) (key : CString S)
    (value : V) : (m.putAt slot key value).2.flags = m.flags := by
  rw [putAt]
  split
  · split <;> rfl
  · rfl

/-- Where the probe of a put ends when its key is present or its chain has an
empty slot. -/
theorem Models.put_slot [DecidableEq S] [DecidableEq V] (h : Models hash m f)
    (hroom : m.length + 1 < m.tableSize) (mem : MapMem) (key : CString S) (value : V) :
    (∃ slot g, m.hashmapEntryFind hash key.text true = some slot ∧
      SpecStep m.flags.valAllowUpdate f (.put mem (some key) (some value))
        (m.putAt slot key value).1 g ∧
      Models hash (m.putAt slot key value).2 g) ∨
    (m.tableSize / 2 ≤ m.length ∧ m.hashmapEntryFind hash key.text true = none) := by
  obtain ⟨k, _, _, hk⟩ := h.inv.size
  by_cases habsent : f key.text = none
  · rcases find_of_absent hash key.text hk true
        (fun p e hp he => (h.absent_iff _).mp habsent e ⟨p, hp, he⟩) with
      ⟨j, hj, hbefore, hnone, hfind⟩ | ⟨hfull, hfind⟩
    · have hput := h.putAt_absent habsent hroom hj hbefore hnone value
      rw [if_pos rfl] at hfind
      refine Or.inl ⟨_, _, hfind, ?_, hput.2⟩
      rw [hput.1]
      exact .putNew habsent
    · rw [← h.inv.length_eq] at hfull
      exact Or.inr ⟨hfull, hfind⟩
  · obtain ⟨p, e, hp, he, hkey⟩ := h.present habsent
    have hfind := h.inv.find true hp he
    rw [hkey] at hfind
    rcases h.putAt_present hp he hkey value with ⟨hallow, hret, hmodels⟩ | ⟨hdeny, hput⟩
    · refine Or.inl ⟨p, _, hfind, ?_, hmodels⟩
      rw [hret]
      exact .putUpdate habsent hallow
    · refine Or.inl ⟨p, f, hfind, ?_, ?_⟩
      · rw [hput]
        exact .putRefused habsent hdeny
      · rw [hput]
        exact h

theorem Models.putProbe_spec [DecidableEq S] [DecidableEq V] (h : Models hash m f)
    (hroom : m.length + 1 < m.tableSize) (mem : MapMem)
    (hmem : mem.calloc ((m.tableSize <<< 1) * sizeofMapElem) = true ∨
      m.length < m.tableSize / 2) (key : CString S) (value : V) :
    ∃ g, SpecStep m.flags.valAllowUpdate f (.put mem (some key) (some value))
        (putProbe hash mem m key value).1 g ∧
      Models hash (putProbe hash mem m key value).2 g ∧
      (putProbe hash mem m key value).2.flags = m.flags := by
  rcases h.put_slot hroom mem key value with ⟨slot, g, hfind, hstep, hmodels⟩ | ⟨hfull, hfind⟩
  · rw [putProbe, hfind]
    exact ⟨g, hstep, hmodels, putAt_flags m slot key value⟩
  · obtain ⟨m', hrehash, h', hsize', hlen', hflags'⟩ := h.rehash mem (by
      rcases hmem with hmem | hlt
      · exact hmem
      · omega)
    rw [putProbe, hfind, hrehash]
    simp only [ne_eq, not_true_eq_false, if_false]
    have hlt := h.inv.length_lt
    rcases h'.put_slot (by omega) mem key value with
      ⟨slot, g, hfind', hstep, hmodels⟩ | ⟨hfull', _⟩
    · rw [hfind', ← hflags']
      exact ⟨g, hstep, hmodels, putAt_flags m' slot key value⟩
    · omega

theorem Models.put_spec [DecidableEq S] [DecidableEq V] (h : Models hash m f)
    {mem : MapMem} (hdup : mem.strdup ≠ none)
    (hmem : mem.calloc ((m.tableSize <<< 1) * sizeofMapElem) = true)
    (key : Option (CString S)) (value : Option V) :
    ∃ g, SpecStep m.flags.valAllowUpdate f (.put mem key value)
        (m.mMapPut hash mem key value).1 g ∧
      Models hash (m.mMapPut hash mem key value).2 g ∧
      (m.mMapPut hash mem key value).2.flags = m.flags := by
  match key, value with
  | none, _ => exact ⟨f, .putInvalid (Or.inl rfl), h, rfl⟩
  | some _, none => exact ⟨f, .putInvalid (Or.inr rfl), h, rfl⟩
  | some key, some value =>
      obtain ⟨addr, haddr⟩ := Option.ne_none_iff_exists'.mp hdup
      -- a duplicated key has the text of the key it copies
      obtain ⟨stored, hstored, htext⟩ : ∃ stored : CString S,
          (if m.flags.keyDup then mem.strdup.map (fun addr => ⟨addr, key.text⟩)
            else some key) = some stored ∧ stored.text = key.text := by
        cases m.flags.keyDup with
        | false => exact ⟨key, rfl, rfl⟩
        | true => exact ⟨⟨addr, key.text⟩, by simp [haddr], rfl⟩
      have hswap : ∀ {ret g}, SpecStep m.flags.valAllowUpdate f
          (.put mem (some stored) (some value)) ret g →
          SpecStep m.flags.valAllowUpdate f (.put mem (some key) (some value)) ret g := by
        intro ret g hstep
        cases hstep with
        | putNew habsent => rw [htext] at habsent ⊢; exact .putNew habsent
        | putUpdate hpresent hallow =>
            rw [htext] at hpresent ⊢; exact .putUpdate hpresent hallow
        | putRefused hpresent hdeny =>
            rw [htext] at hpresent; exact .putRefused hpresent hdeny
        | putInvalid hnull => simp at hnull
      have hlt := h.inv.length_lt
      simp only [mMapPut, hstored, hashmapPut]
      split
      next hload =>
        obtain ⟨m', hrehash, h', hsize', hlen', hflags'⟩ := h.rehash mem hmem
        rw [hrehash]
        simp only [ne_eq, not_true_eq_false, if_false]
        have hpos : 256 ≤ m.tableSize := by
          obtain ⟨k, hk7, _, hk⟩ := h.inv.size
          rw [hk]
          exact (Nat.pow_le_pow_right (by omega) (by omega) : 2 ^ 8 ≤ 2 ^ (k + 1))
        obtain ⟨g, hstep, hmodels, hflags⟩ :=
          h'.putProbe_spec (by omega) mem (Or.inr (by omega)) stored value
        rw [hflags'] at hstep hflags
        exact ⟨g, hswap hstep, hmodels, hflags⟩
      next hload =>
        simp only [ne_eq, not_true_eq_false, if_false]
        have hpos : 256 ≤ m.tableSize := by
          obtain ⟨k, hk7, _, hk⟩ := h.inv.size
          rw [hk]
          exact (Nat.pow_le_pow_right (by omega) (by omega) : 2 ^ 8 ≤ 2 ^ (k + 1))
        obtain ⟨g, hstep, hmodels, hflags⟩ :=
          h.putProbe_spec (by rw [hashmapTableMinSizeCalc] at hload; omega) mem
            (Or.inl hmem) stored value
        exact ⟨g, hswap hstep, hmodels, hflags⟩

/-! ### Removal -/

theorem Models.erase [DecidableEq S] (h : Models hash m f) {p : ℕ} {e : MapElem S V}
    (hp : p < m.tableSize) (he : m.table p = some e) (hends : ShiftEnds hash m p) :
    Models hash (m.clearElem hash p) (Function.update f e.key.text none) := by
  obtain ⟨hinv, hstored⟩ := clearElem_spec h.inv hp he hends
  refine ⟨hinv, ?_⟩
  intro key value
  by_cases hkey : key = e.key.text
  · subst hkey
    rw [Function.update_self]
    constructor
    · intro hv
      simp at hv
    · rintro ⟨x, hx, hxk, _⟩
      exact absurd hxk ((hstored x).mp hx).2
  · rw [Function.update_of_ne hkey, h.bind]
    constructor
    · rintro ⟨x, hx, rfl, hxv⟩
      exact ⟨x, (hstored x).mpr ⟨hx, hkey⟩, rfl, hxv⟩
    · rintro ⟨x, hx, hrest⟩
      exact ⟨x, ((hstored x).mp hx).1, hrest⟩

theorem Models.remove_spec [DecidableEq S] (h : Models hash m f) (key : Option S)
    (hends : ShiftsEnd hash m (.remove key)) :
    ∃ g, SpecStep m.flags.valAllowUpdate f (.remove key) (m.mMapRemove hash key).1 g ∧
      Models hash (m.mMapRemove hash key).2 g ∧
      (m.mMapRemove hash key).2.flags = m.flags := by
  cases key with
  | none => exact ⟨f, .removeInvalid, h, rfl⟩
  | some key =>
      by_cases habsent : f key = none
      · refine ⟨f, .removeAbsent habsent ?_, ?_, ?_⟩ <;> rw [mMapRemove] <;> split
        · rw [h.inv.find_absent ((h.absent_iff key).mp habsent)]
          exact (by decide : (-ENOENT : ℤ) ≠ 0)
        · exact (by decide : (-EINVAL : ℤ) ≠ 0)
        · rw [h.inv.find_absent ((h.absent_iff key).mp habsent)]
          exact h
        · exact h
        · rw [h.inv.find_absent ((h.absent_iff key).mp habsent)]
        · rfl
      · obtain ⟨p, e, hp, he, rfl⟩ := h.present habsent
        have hremove : m.mMapRemove hash (some e.key.text) = (0, m.clearElem hash p) := by
          rw [mMapRemove, if_pos (h.inv.length_pos hp he), h.inv.find false hp he]
        rw [hremove]
        exact ⟨_, .removed habsent, h.erase hp he (hends p hp e he rfl), rfl⟩

theorem itrSeek_spec [DecidableEq S] (key : S)
    (left : ℕ) (itr : Option MapItr)
    (hitr : (∃ p < m.tableSize, itr = some ⟨some p, false⟩ ∧ m.tableSize < left + p ∧
        (∃ e, m.table p = some e) ∧
        ∀ i e, i < p → m.table i = some e → e.key.text ≠ key) ∨
      (itr = none ∧ ∀ e, m.Stored e → e.key.text ≠ key)) :
    (∃ p < m.tableSize, ∃ e, m.itrSeek key left itr = some ⟨some p, false⟩ ∧
      m.table p = some e ∧ e.key.text = key) ∨
    (m.itrSeek key left itr = none ∧ ∀ e, m.Stored e → e.key.text ≠ key) := by
  induction left generalizing itr with
  | zero =>
      rcases hitr with ⟨p, hp, _, hleft, _⟩ | ⟨_, habsent⟩
      · omega
      · exact Or.inr ⟨rfl, habsent⟩
  | succ left ih =>
      rcases hitr with ⟨p, hp, rfl, hleft, ⟨e, he⟩, hbefore⟩ | ⟨rfl, habsent⟩
      · by_cases hkey : e.key.text = key
        · refine Or.inl ⟨p, hp, e, ?_, he, hkey⟩
          simp [itrSeek, mMapItrGetKey, he, hkey]
        · have hseek : m.itrSeek key (left + 1) (some ⟨some p, false⟩) =
              m.itrSeek key left (m.mMapItrNext ⟨some p, false⟩) := by
            simp [itrSeek, mMapItrGetKey, he, hkey]
          have hbefore' : ∀ i x, i < p + 1 → m.table i = some x → x.key.text ≠ key := by
            intro i x hi hx
            by_cases hip : i = p
            · rw [hip, he] at hx
              rwa [← Option.some.inj hx]
            · exact hbefore i x (by omega) hx
          rw [hseek]
          apply ih
          have hstart : (⟨some p, false⟩ : MapItr).start = p + 1 := rfl
          rcases itrNext_cases (m := m) ⟨some p, false⟩ (by rw [hstart]; omega) with
            ⟨q, hq, hnext, hpq, hq', hskip⟩ | ⟨hnext, hrest⟩
          · rw [hstart] at hpq hskip
            refine Or.inl ⟨q, hq, hnext, by omega, hq', ?_⟩
            intro i x hi hx
            by_cases hip : i < p + 1
            · exact hbefore' i x hip hx
            · rw [hskip i (by omega) hi] at hx
              simp at hx
          · rw [hstart] at hrest
            refine Or.inr ⟨hnext, ?_⟩
            rintro x ⟨i, hi, hx⟩
            by_cases hip : i < p + 1
            · exact hbefore' i x hip hx
            · rw [hrest i (by omega) hi] at hx
              simp at hx
      · exact Or.inr ⟨rfl, habsent⟩

theorem Models.itrRemove_spec [DecidableEq S] [DecidableEq V] (h : Models hash m f)
    (key : S) (hends : ShiftsEnd hash m (.itrRemove key)) :
    ∃ g, SpecStep m.flags.valAllowUpdate f (.itrRemove key)
        ((MapCall.itrRemove key).exec hash m).1 g ∧
      Models hash ((MapCall.itrRemove key).exec hash m).2 g ∧
      ((MapCall.itrRemove key).exec hash m).2.flags = m.flags := by
  have hstart : (∃ p < m.tableSize, m.mMapItrNew = some ⟨some p, false⟩ ∧
        m.tableSize < m.tableSize + 1 + p ∧ (∃ e, m.table p = some e) ∧
        ∀ i e, i < p → m.table i = some e → e.key.text ≠ key) ∨
      (m.mMapItrNew = none ∧ ∀ e, m.Stored e → e.key.text ≠ key) := by
    rcases atFirst_new h.inv.length_eq with ⟨p, hp, hnew, he, hbefore⟩ | ⟨hnew, hall⟩
    · refine Or.inl ⟨p, hp, hnew, by omega, he, ?_⟩
      intro i e hi hie
      rw [hbefore i hi] at hie
      simp at hie
    · refine Or.inr ⟨hnew, ?_⟩
      rintro e ⟨i, hi, he⟩
      rw [hall i hi] at he
      simp at he
  simp only [MapCall.exec]
  rcases itrSeek_spec key (m.tableSize + 1) m.mMapItrNew hstart with
    ⟨p, hp, e, hseek, he, rfl⟩ | ⟨hseek, habsent⟩
  · rw [hseek]
    simp only [mMapItrRemove]
    have hpresent : f e.key.text ≠ none := by
      rw [h.of_stored ⟨p, hp, he⟩]
      simp
    exact ⟨_, .itrRemoved hpresent, h.erase hp he (hends p hp e he rfl), rfl⟩
  · rw [hseek]
    exact ⟨f, .itrRemoveAbsent ((h.absent_iff key).mpr habsent)
      (by decide : (-EINVAL : ℤ) ≠ 0), h, rfl⟩

theorem Models.clear_spec [DecidableEq S] (h : Models hash m f) :
    ∃ g, SpecStep m.flags.valAllowUpdate f .clear (m.mMapClear hash).1 g ∧
      Models hash (m.mMapClear hash).2 g ∧ (m.mMapClear hash).2.flags = m.flags := by
  obtain ⟨k, hk7, hk60, hk⟩ := h.inv.size
  obtain ⟨hret, hsize, hflags, hlen, hempty⟩ :=
    mMapClear_spec hash hk h.inv.length_eq
  have hnone : ∀ p e, p < (m.mMapClear hash).2.tableSize →
      (m.mMapClear hash).2.table p ≠ some e := by
    intro p e hp
    rw [hempty p (hsize ▸ hp)]
    simp
  have hpos : 0 < m.tableSize := by
    rw [hk]
    positivity
  refine ⟨fun _ => none, ?_, ⟨⟨⟨k, hk7, hk60, hsize.trans hk⟩, ?_, ?_, ?_, ?_⟩, ?_⟩, hflags⟩
  · rw [hret]
    exact .clear
  · constructor <;> intro p e hp he <;> exact absurd he (hnone p e hp)
  · intro p q e e' hp _ he
    exact absurd he (hnone p e hp)
  · rw [hlen, eq_comm, Finset.card_eq_zero, occupied, Finset.filter_eq_empty_iff]
    intro p hp
    rw [Finset.mem_range, hsize] at hp
    simp [hempty p hp]
  · rw [hlen, hsize]
    exact hpos
  · intro key value
    constructor
    · intro hv
      simp at hv
    · rintro ⟨e, ⟨p, hp, he⟩, _⟩
      exact absurd he (hnone p e hp)

/-! ### Runs -/

theorem Models.step [DecidableEq S] [DecidableEq V] (h : Models hash m f)
    (call : MapCall S V) (hmem : AllocsSucceed m call) (hends : ShiftsEnd hash m call) :
    ∃ g, SpecStep m.flags.valAllowUpdate f call (call.exec hash m).1 g ∧
      Models hash (call.exec hash m).2 g ∧ (call.exec hash m).2.flags = m.flags := by
  cases call with
  | put mem key value => exact h.put_spec hmem.1 hmem.2 key value
  | remove key => exact h.remove_spec key hends
  | itrRemove key => exact h.itrRemove_spec key hends
  | clear => exact h.clear_spec

theorem Models.run [DecidableEq S] [DecidableEq V] (calls : List (MapCall S V))
    (h : Models hash m f) (hmem : RunMeets hash AllocsSucceed m calls)
    (hends : RunMeets hash (ShiftsEnd hash) m calls) :
    ∃ g, SpecRun m.flags.valAllowUpdate f calls (runCalls hash m calls).1 g ∧
      Models hash (runCalls hash m calls).2 g := by
  induction calls generalizing m f with
  | nil => exact ⟨f, .nil, h⟩
  | cons call calls ih =>
      obtain ⟨g, hstep, hmodels, hflags⟩ := h.step call hmem.1 hends.1
      obtain ⟨g', hrun, hmodels'⟩ := ih hmodels hmem.2 hends.2
      rw [hflags] at hrun
      exact ⟨g', .cons hstep hrun, hmodels'⟩

end Simulation

/-- Every run on a new map whose removals all end their back-shift loop at the
end of a chain refines the partial function, for every hash function. -/
theorem mapContract_of_shiftsEnd [DecidableEq S] [DecidableEq V] (hash : S → ℕ)
    (flags : MapFlags) (dtor : Bool) (calls : List (MapCall S V))
    (hmem : RunMeets hash AllocsSucceed (mMapNew flags dtor) calls)
    (hends : RunMeets hash (ShiftsEnd hash) (mMapNew flags dtor) calls) :
    MapContract hash flags dtor calls := by
  obtain ⟨f, hrun, hmodels⟩ := (models_new flags dtor).run calls hmem hends
  exact ⟨f, hrun, hmodels.refines⟩

private def plainFlags : MapFlags := ⟨false, false, false⟩

private def roomyMem : MapMem where
  strdup := some 1
  calloc := fun bytes => decide (bytes < 2 ^ 64)
  calloc_lt := by simp

theorem mapContract_put_remove :
    MapContract (fun key : ℕ => key) plainFlags true
      [.put roomyMem (some ⟨1, 300⟩) (some 7), .remove (some 300)] := by
  refine mapContract_of_shiftsEnd _ _ _ _ ?_ ?_
  · exact ⟨⟨by decide, by decide⟩, trivial, trivial⟩
  · refine ⟨trivial, ?_, trivial⟩
    have hstate : ((MapCall.put roomyMem (some ⟨1, 300⟩) (some 7)).exec (fun key : ℕ => key)
        (mMapNew plainFlags true)).2 =
        { (mMapNew plainFlags true : HashMap ℕ ℕ) with
          table := Function.update (fun _ => none) 44 (some ⟨⟨1, 300⟩, 7⟩)
          length := 1 } := rfl
    rw [hstate]
    intro r _ e he _
    have hr : r = 44 := by
      by_contra hne
      have hnone : Function.update (fun _ => none) 44 (some ⟨⟨1, 300⟩, 7⟩) r = some e := he
      rw [Function.update_of_ne hne] at hnone
      simp at hnone
    subst hr
    have hempty : ∀ i, 0 < i → i < 256 →
        Function.update (fun _ => none : ℕ → Option (MapElem ℕ ℕ)) 44
          (some ⟨⟨1, 300⟩, 7⟩) (slotAt 256 44 i) = none := by
      intro i hi hlt
      rw [Function.update_of_ne]
      have hslot := slotAt_cases 256 44 i
      omega
    refine ⟨⟨0, by decide, ?_⟩, ?_⟩
    · intro d x hd hlt hfull
      exact absurd (hempty 1 (by omega) (by omega)) (hfull 1 (by omega) (by omega))
    · intro x hfull
      exact absurd (hempty 1 (by omega) (by omega)) (hfull 1 (by omega) (by decide))

/-! ## A removal that breaks a chain -/

private def keyOf (i : ℕ) : CString String :=
  ⟨i + 1, String.ofList (List.replicate i 'a')⟩

private def putKey (i : ℕ) : MapCall String ℕ :=
  .put roomyMem (some (keyOf i)) (some i)

/-- The table in which each of the first `n` slots holds a key at home. -/
private def atHome (n : ℕ) : HashMap String ℕ where
  tableSize := 256
  length := n
  flags := plainFlags
  table := fun i => if i < n then some ⟨keyOf i, i⟩ else none
  dtor := false

private theorem probeLen_default {m : HashMap String ℕ} (hsize : m.tableSize = 256) :
    m.probeLen = 127 + 1 := by
  rw [probeLen_eq, hsize]

private theorem keyOf_home {m : HashMap String ℕ} (hsize : m.tableSize = 256) {i : ℕ}
    (hi : i < 256) : m.hashmapCalcIndex String.length (keyOf i).text = i := by
  rw [hashmapCalcIndex, sizeMod_eq (k := 8) hsize, hsize, keyOf, String.length_ofList,
    List.length_replicate]
  exact Nat.mod_eq_of_lt hi

private theorem atHome_put {n : ℕ} (hn : n < 129) :
    (putKey n).exec String.length (atHome n) = (0, atHome (n + 1)) := by
  have hfind : (atHome n).hashmapEntryFind String.length (keyOf n).text true = some n := by
    rw [hashmapEntryFind, keyOf_home rfl (by omega), probeLen_default rfl, entryFindFrom]
    simp [atHome]
  have hload : ¬ 256 ≤ hashmapTableMinSizeCalc n := by
    rw [hashmapTableMinSizeCalc]
    omega
  have hslot : (atHome n).table n = none := by simp [atHome]
  have hsize : (atHome n).tableSize = 256 := rfl
  have hlength : (atHome n).length = n := rfl
  have hdup : (atHome n).flags.keyDup = false := rfl
  simp only [putKey, MapCall.exec, mMapPut, hdup, hashmapPut, hsize, hlength, if_neg hload,
    hfind, putAt, hslot, Bool.false_eq_true, if_false, ne_eq, not_true_eq_false]
  have htable : Function.update (atHome n).table n (some ⟨keyOf n, n⟩) =
      (atHome (n + 1)).table := by
    funext i
    by_cases hi : i = n
    · subst hi
      simp [atHome]
    · have hiff : i < n ↔ i < n + 1 := by omega
      simp [atHome, Function.update_of_ne hi, hiff]
  rw [htable]
  rfl

private theorem atHome_allocs (n : ℕ) : AllocsSucceed (atHome n) (putKey n) := by
  refine ⟨by simp [roomyMem], ?_⟩
  have hlt : (256 <<< 1) * sizeofMapElem < 2 ^ 64 := by decide
  simp only [roomyMem, atHome]
  exact decide_eq_true hlt

private theorem atHome_fill (count n : ℕ) (hcount : n + count ≤ 129)
    (rest : List (MapCall String ℕ)) :
    (runCalls String.length (atHome n) ((List.range' n count).map putKey ++ rest)).2 =
      (runCalls String.length (atHome (n + count)) rest).2 ∧
    (RunMeets String.length AllocsSucceed (atHome n)
        ((List.range' n count).map putKey ++ rest) ↔
      RunMeets String.length AllocsSucceed (atHome (n + count)) rest) := by
  induction count generalizing n with
  | zero => simp
  | succ count ih =>
      have hput := atHome_put (n := n) (by omega)
      obtain ⟨hrun, hmeets⟩ := ih (n + 1) (by omega)
      rw [Nat.add_right_comm, Nat.add_assoc] at hrun hmeets
      simp only [List.range'_succ, List.map_cons, List.cons_append, runCalls, RunMeets, hput,
        atHome_allocs n, hrun, hmeets, true_and, and_self]

private theorem atHome_loop (left t : ℕ) (hleft : left + t = 129) (ht : 1 ≤ t) :
    clearLoop String.length (atHome 129) left
      (Function.update (atHome 129).table 0 none) 0 t =
    if left = 0 then (Function.update (atHome 129).table 0 none, 0)
    else (Function.update (Function.update (atHome 129).table 0 none) 0
      (some ⟨keyOf 128, 128⟩), 128) := by
  induction left generalizing t with
  | zero => rfl
  | succ left ih =>
      have hentry : Function.update (atHome 129).table 0 none t = some ⟨keyOf t, t⟩ := by
        rw [Function.update_of_ne (by omega)]
        simp [atHome, show t < 129 by omega]
      have hle := indexLe_iff (m := atHome 129) (k := 7) rfl (by omega)
        (a := 0) (b := t) (show 0 < 256 by omega) (show t < 256 by omega)
      have hdist : dist 256 0 t = t := by
        have hcases := dist_cases 256 0 t
        omega
      change _ ↔ 0 = t ∨ 128 ≤ dist 256 0 t at hle
      rw [hdist] at hle
      have hnext : (atHome 129).probeNext t = t + 1 := by
        rw [probeNext, sizeMod_eq (k := 8) rfl]
        exact Nat.mod_eq_of_lt (show t + 1 < 256 by omega)
      rw [clearLoop, hentry]
      simp only [keyOf_home (m := atHome 129) rfl (show t < 256 by omega), hnext]
      by_cases hlast : left = 0
      · have ht' : t = 128 := by omega
        subst hlast ht'
        rw [if_pos (hle.mpr (Or.inr le_rfl))]
        rfl
      · rw [if_neg (fun h => by rcases hle.mp h with h | h <;> omega), ih (t + 1) (by omega)
          (by omega), if_neg hlast, if_neg (by omega)]

private theorem atHome_lost :
    ((MapCall.remove (some (keyOf 0).text)).exec String.length (atHome 129)).2.mMapGet
      String.length (some (keyOf 128).text) = none := by
  have hfind : (atHome 129).hashmapEntryFind String.length (keyOf 0).text false = some 0 := by
    rw [hashmapEntryFind, keyOf_home rfl (by omega), probeLen_default rfl, entryFindFrom]
    simp [atHome]
  have hloop := atHome_loop 128 1 rfl le_rfl
  have hremove : (MapCall.remove (some (keyOf 0).text)).exec String.length (atHome 129) =
      (0, (atHome 129).clearElem String.length 0) := by
    simp only [MapCall.exec, mMapRemove, hfind]
    rfl
  have hslot : ((atHome 129).clearElem String.length 0).table 128 = none := by
    have hnext : (atHome 129).probeNext 0 = 1 := rfl
    simp only [clearElem, hnext, probeLen_default (m := atHome 129) rfl, hloop,
      Nat.succ_ne_zero, if_false]
    simp only [Function.update_self]
  rw [hremove, mMapGet, hashmapEntryFind]
  have hsize : ((atHome 129).clearElem String.length 0).tableSize = 256 := rfl
  rw [keyOf_home hsize (by omega), probeLen_default hsize, entryFindFrom, hslot]
  simp

/-- A key that is put and never removed stays bound. -/
theorem SpecRun.kept [DecidableEq S] {allowUpdate : Bool} {f f' : S → Option V}
    {calls : List (MapCall S V)} {rets : List ℤ} (h : SpecRun allowUpdate f calls rets f')
    {key : S}
    (hcalls : ∀ call ∈ calls, (∃ mem k v, call = .put mem (some k) (some v)) ∨
      ∃ other, call = .remove (some other) ∧ other ≠ key)
    (hput : f key ≠ none ∨
      ∃ mem k v, .put mem (some k) (some v) ∈ calls ∧ k.text = key) :
    f' key ≠ none := by
  induction h with
  | nil =>
      rcases hput with hbound | ⟨_, _, _, hmem, _⟩
      · exact hbound
      · simp at hmem
  | @cons f g f' call calls ret rets hstep _ ih =>
      apply ih (fun c hc => hcalls c (List.mem_cons_of_mem _ hc))
      have hkept : f key ≠ none ∨ (∃ mem k v, call = .put mem (some k) (some v) ∧ k.text = key) →
          g key ≠ none := by
        intro hcase
        rcases hcalls call List.mem_cons_self with ⟨mem, k, v, rfl⟩ | ⟨other, rfl, hne⟩
        · by_cases hk : k.text = key
          · subst hk
            cases hstep with
            | putNew _ => simp
            | putUpdate _ _ => simp
            | putRefused hpresent _ => exact hpresent
            | putInvalid hnull => simp at hnull
          · have hbound : f key ≠ none := by
              rcases hcase with hbound | ⟨_, _, _, heq, hkey⟩
              · exact hbound
              · cases heq
                exact absurd hkey hk
            cases hstep with
            | putNew _ => rwa [Function.update_of_ne (Ne.symm hk)]
            | putUpdate _ _ => rwa [Function.update_of_ne (Ne.symm hk)]
            | putRefused _ _ => exact hbound
            | putInvalid _ => exact hbound
        · have hbound : f key ≠ none := by
            rcases hcase with hbound | ⟨_, _, _, heq, _⟩
            · exact hbound
            · cases heq
          cases hstep with
          | removed _ => rwa [Function.update_of_ne (Ne.symm hne)]
          | removeAbsent _ _ => exact hbound
      rcases hput with hbound | ⟨mem, k, v, hmem, hkey⟩
      · exact Or.inl (hkept (Or.inl hbound))
      · rcases List.mem_cons.mp hmem with heq | hmem
        · exact Or.inl (hkept (Or.inr ⟨mem, k, v, heq.symm, hkey⟩))
        · exact Or.inr ⟨mem, k, v, hmem, hkey⟩

/-- After 129 keys are stored at home, removing the first one takes the key
half a table away out of its slot, and it is no longer found. -/
theorem not_mapContract_of_halfTable :
    let calls := (List.range' 0 129).map putKey ++ [.remove (some (keyOf 0).text)]
    RunMeets String.length AllocsSucceed (mMapNew plainFlags false) calls ∧
      ¬ MapContract String.length plainFlags false calls := by
  have hnew : (mMapNew plainFlags false : HashMap String ℕ) = atHome 0 := by
    simp [mMapNew, atHome, plainFlags, mapSizeDefault]
  intro calls
  obtain ⟨hrun, hmeets⟩ := atHome_fill 129 0 le_rfl [.remove (some (keyOf 0).text)]
  rw [MapContract, hnew]
  refine ⟨hmeets.mpr ⟨trivial, trivial⟩, ?_⟩
  rintro ⟨f, hspec, hrefines⟩
  have hbound : f (keyOf 128).text ≠ none := by
    refine hspec.kept ?_ (Or.inr ⟨roomyMem, keyOf 128, 128, ?_, rfl⟩)
    · intro call hcall
      rcases List.mem_append.mp hcall with hcall | hcall
      · obtain ⟨i, _, rfl⟩ := List.mem_map.mp hcall
        exact Or.inl ⟨roomyMem, keyOf i, i, rfl⟩
      · rw [List.mem_singleton.mp hcall]
        refine Or.inr ⟨_, rfl, ?_⟩
        intro heq
        have hlen := congrArg String.length heq
        rw [keyOf, keyOf, String.length_ofList, String.length_ofList, List.length_replicate,
          List.length_replicate] at hlen
        omega
    · refine List.mem_append_left _ (List.mem_map.mpr ⟨128, ?_, rfl⟩)
      simp [List.mem_range']
  apply hbound
  rw [← hrefines.get, hrun]
  exact atHome_lost

end HashMap
end Libmodule
