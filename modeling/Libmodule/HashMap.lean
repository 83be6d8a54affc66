import Libmodule.Errno
import Libmodule.ProbeTable

/-!
# The string-keyed hash map

The open-addressing table of `structs/map.c`: linear probing bounded by half
the table, doubling near a load of three quarters, and back-shift deletion.
The hash of a string is a parameter, a function into `size_t`.

A slot with a `NULL` key is `none`.  Calls of the user's destructor and of
`free` on keys are recorded in the map, in the order they are made.
-/

namespace Libmodule

/-- A C string: the pointer and the characters it points to. -/
structure CString (S : Type) where
  addr : ℕ
  text : S
  deriving DecidableEq, Repr

structure MapElem (S V : Type) where
  key : CString S
  data : V
  deriving DecidableEq, Repr

structure MapFlags where
  keyDup : Bool
  keyAutofree : Bool
  valAllowUpdate : Bool
  deriving DecidableEq, Repr

structure HashMap (S V : Type) where
  tableSize : ℕ
  length : ℕ
  flags : MapFlags
  table : ℕ → Option (MapElem S V)
  dtor : Bool
  destroyed : List V := []
  freedKeys : List ℕ := []

structure MapItr where
  curr : Option ℕ
  removed : Bool
  deriving DecidableEq, Repr

/-- The slot from which `m_map_itr_next` looks for an entry. -/
def MapItr.start (itr : MapItr) : ℕ :=
  match itr.curr with
  | none => 0
  | some curr => curr + 1 - itr.removed.toNat

/-- What the allocator answers during one call: the address `mem_strdup`
returns, and whether `calloc` has room for a given number of bytes. -/
structure MapMem where
  strdup : Option ℕ
  calloc : ℕ → Bool
  calloc_lt : ∀ bytes, calloc bytes = true → bytes < 2 ^ 64

namespace HashMap

variable {S V : Type} (hash : S → ℕ)

def mapSizeDefault : ℕ := 1 <<< 8

def sizeofMapElem : ℕ := 16

def sizeMod (m : HashMap S V) (val : ℕ) : ℕ := val &&& (m.tableSize - 1)

def probeLen (m : HashMap S V) : ℕ := m.tableSize >>> 1

def probeNext (m : HashMap S V) (index : ℕ) : ℕ := m.sizeMod (index + 1)

/-- `MAP_INDEX_LE(m, a, b)`: index `b` is at or before index `a`, cyclically.
The subtraction is that of `size_t`. -/
def indexLe (m : HashMap S V) (a b : ℕ) : Bool :=
  a == b || ((b + 2 ^ 64 - a) % 2 ^ 64) &&& (m.tableSize >>> 1) != 0

def hashmapCalcIndex (m : HashMap S V) (key : S) : ℕ := m.sizeMod (hash key)

def hashmapTableMinSizeCalc (numEntries : ℕ) : ℕ := numEntries + numEntries / 3

section

variable [DecidableEq S]

def entryFindFrom (m : HashMap S V) (key : S) (findEmpty : Bool) :
    ℕ → ℕ → Option ℕ
  | 0, _ => none
  | left + 1, index =>
      match m.table index with
      | none => if findEmpty then some index else none
      | some entry =>
          if key = entry.key.text then some index
          else entryFindFrom m key findEmpty left (m.probeNext index)

def hashmapEntryFind (m : HashMap S V) (key : S) (findEmpty : Bool) : Option ℕ :=
  m.entryFindFrom key findEmpty m.probeLen (m.hashmapCalcIndex hash key)

/-- The body of the rehash loop over the `left` last slots of the old table;
`none` when an entry finds no slot in the new one. -/
def rehashLoop (oldTable : ℕ → Option (MapElem S V)) (oldSize : ℕ) :
    ℕ → HashMap S V → Option (HashMap S V)
  | 0, m => some m
  | left + 1, m =>
      match oldTable (oldSize - (left + 1)) with
      | none => rehashLoop oldTable oldSize left m
      | some entry =>
          match m.hashmapEntryFind hash entry.key.text true with
          | none => none
          | some slot =>
              rehashLoop oldTable oldSize left
                { m with table := Function.update m.table slot (some entry) }

def hashmapRehash (mem : MapMem) (m : HashMap S V) : ℤ × HashMap S V :=
  if mem.calloc ((m.tableSize <<< 1) * sizeofMapElem) then
    match rehashLoop hash m.table m.tableSize m.tableSize
        { m with tableSize := m.tableSize <<< 1, table := fun _ => none } with
    | some grown => (0, grown)
    | none => (-ENOMEM, m)
  else (-ENOMEM, m)

end

/-- The end of `hashmap_put`, once the slot for the key is known. -/
def putAt [DecidableEq V] (m : HashMap S V) (slot : ℕ) (key : CString S) (value : V) :
    ℤ × HashMap S V :=
  match m.table slot with
  | some entry =>
      if m.flags.valAllowUpdate then
        (0, { m with
          table := Function.update m.table slot (some { entry with data := value })
          destroyed :=
            if m.dtor ∧ entry.data ≠ value then m.destroyed ++ [entry.data]
            else m.destroyed })
      else (-EPERM, m)
  | none =>
      (0, { m with
        table := Function.update m.table slot (some ⟨key, value⟩)
        length := m.length + 1 })

def hashmapPut [DecidableEq S] [DecidableEq V] (mem : MapMem) (m : HashMap S V)
    (key : Option (CString S)) (value : V) : ℤ × HashMap S V :=
  match key with
  | none => (-EINVAL, m)
  | some key =>
      let (ret, m) :=
        if m.tableSize ≤ hashmapTableMinSizeCalc m.length then
          m.hashmapRehash hash mem
        else (0, m)
      if ret ≠ 0 then (ret, m)
      else
        match m.hashmapEntryFind hash key.text true with
        | some slot => m.putAt slot key value
        | none =>
            let (ret, m) := m.hashmapRehash hash mem
            if ret ≠ 0 then (ret, m)
            else
              match m.hashmapEntryFind hash key.text true with
              | some slot => m.putAt slot key value
              | none => (-ENOMEM, m)

/-- The back-shift loop of `clear_elem`; it returns the table and the slot
that is left to blank. -/
def clearLoop (m : HashMap S V) :
    ℕ → (ℕ → Option (MapElem S V)) → ℕ → ℕ → (ℕ → Option (MapElem S V)) × ℕ
  | 0, table, removed, _ => (table, removed)
  | left + 1, table, removed, index =>
      match table index with
      | none => (table, removed)
      | some entry =>
          if m.indexLe removed (m.hashmapCalcIndex hash entry.key.text) then
            clearLoop m left (Function.update table removed (some entry)) index
              (m.probeNext index)
          else clearLoop m left table removed (m.probeNext index)

def clearElem (m : HashMap S V) (removed : ℕ) : HashMap S V :=
  let shifted := clearLoop hash m m.probeLen
    (Function.update m.table removed none) removed (m.probeNext removed)
  { m with
    table := Function.update shifted.1 shifted.2 none
    length := m.length - 1
    destroyed :=
      if m.dtor then m.destroyed ++ ((m.table removed).map MapElem.data).toList
      else m.destroyed
    freedKeys :=
      if m.flags.keyAutofree then
        m.freedKeys ++ ((m.table removed).map (fun e => e.key.addr)).toList
      else m.freedKeys }

/-! ## Public functions -/

def mMapNew (flags : MapFlags) (dtor : Bool) : HashMap S V where
  tableSize := mapSizeDefault
  length := 0
  flags := { flags with keyAutofree := flags.keyAutofree || flags.keyDup }
  table := fun _ => none
  dtor := dtor

def mMapLen (m : HashMap S V) : ℤ := m.length

/-- The first occupied slot among the `left` slots from `index` on. -/
def occupiedFrom (m : HashMap S V) : ℕ → ℕ → Option ℕ
  | 0, _ => none
  | left + 1, index =>
      match m.table index with
      | some _ => some index
      | none => occupiedFrom m left (index + 1)

def mMapItrNext (m : HashMap S V) (itr : MapItr) : Option MapItr :=
  (m.occupiedFrom (m.tableSize - itr.start) itr.start).map
    (fun slot => ⟨some slot, false⟩)

def mMapItrNew (m : HashMap S V) : Option MapItr :=
  if m.length > 0 then m.mMapItrNext ⟨none, false⟩ else none

def mMapItrGetKey (m : HashMap S V) (itr : MapItr) : Option (CString S) :=
  if itr.removed then none
  else itr.curr.bind (fun curr => (m.table curr).map MapElem.key)

def mMapItrGetData (m : HashMap S V) (itr : MapItr) : Option V :=
  if itr.removed then none
  else itr.curr.bind (fun curr => (m.table curr).map MapElem.data)

def mMapItrRemove (m : HashMap S V) (itr : Option MapItr) :
    ℤ × HashMap S V × Option MapItr :=
  match itr with
  | some ⟨some curr, false⟩ => (0, m.clearElem hash curr, some ⟨some curr, true⟩)
  | _ => (-EINVAL, m, itr)

def mMapPut [DecidableEq S] [DecidableEq V] (mem : MapMem) (m : HashMap S V)
    (key : Option (CString S)) (value : Option V) : ℤ × HashMap S V :=
  match key, value with
  | some key, some value =>
      let stored :=
        if m.flags.keyDup then mem.strdup.map (fun addr => ⟨addr, key.text⟩)
        else some key
      m.hashmapPut hash mem stored value
  | _, _ => (-EINVAL, m)

def mMapGet [DecidableEq S] (m : HashMap S V) (key : Option S) : Option V :=
  match key with
  | none => none
  | some key =>
      if m.length > 0 then
        (m.hashmapEntryFind hash key false).bind
          (fun slot => (m.table slot).map MapElem.data)
      else none

def mMapRemove [DecidableEq S] (m : HashMap S V) (key : Option S) : ℤ × HashMap S V :=
  match key with
  | none => (-EINVAL, m)
  | some key =>
      if m.length > 0 then
        match m.hashmapEntryFind hash key false with
        | none => (-ENOENT, m)
        | some slot => (0, m.clearElem hash slot)
      else (-EINVAL, m)

/-- The loop of `m_map_clear`: remove the current entry, then advance. -/
def clearAll : ℕ → HashMap S V → Option MapItr → HashMap S V
  | 0, m, _ => m
  | left + 1, m, itr =>
      match m.mMapItrRemove hash itr with
      | (_, m, some itr) => clearAll left m (m.mMapItrNext itr)
      | (_, m, none) => m

def mMapClear (m : HashMap S V) : ℤ × HashMap S V :=
  (0, clearAll hash (m.tableSize + 1) m m.mMapItrNew)

end HashMap

end Libmodule
