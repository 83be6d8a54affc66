import Libmodule.HashMapCapacity
import Libmodule.HashMapClearing

/-!
# Iteration with a callback

`m_map_iterate` compares the key pointer of the slot and the number of entries before and
after each call of the callback.  Other keys in the slot make it look at the slot again, and
another number of entries makes it stop.  It does not see entries that come and go in equal
number, and after a rehash the slot it compares is in the table that has been freed.
-/

namespace Libmodule
namespace HashMap

variable {S V : Type} {hash : S → ℕ}

/-- What a callback does for an entry: its calls on the map, and the code it returns. -/
abbrev MapCb (S V : Type) := MapElem S V → List (MapCall S V) × ℤ

/-- A call of the callback, for the entry of a slot. -/
structure MapTurn (S V : Type) where
  map : HashMap S V
  slot : ℕ
  entry : MapElem S V
  calls : List (MapCall S V)
  ret : ℤ

/-- How `m_map_iterate` ends; `freedTable` is a read of a slot of the table that
`hashmap_rehash` has freed, and `calling` is the call of a callback that is still to come. -/
inductive IterateEnd where
  | returned (ret : ℤ)
  | freedTable
  | calling
  deriving DecidableEq, Repr

/-- The first entry in a slot from `slot` on. -/
def entryFrom (m : HashMap S V) (slot : ℕ) : Option (ℕ × MapElem S V) :=
  (m.occupiedFrom (m.tableSize - slot) slot).bind (fun p => (m.table p).map (fun e => (p, e)))

section Iterate

variable [DecidableEq S] [DecidableEq V]

/-- The map that the callback leaves. -/
def MapTurn.after (hash : S → ℕ) (turn : MapTurn S V) : HashMap S V :=
  (runCalls hash turn.map turn.calls).2

/-- The loop body after the callback: the end, or the slot to go on from.  Only a rehash
changes the size of the table, and it frees the old one. -/
def MapTurn.next (hash : S → ℕ) (turn : MapTurn S V) : Except IterateEnd ℕ :=
  if turn.ret < 0 then .error (.returned turn.ret)
  else if turn.ret > 0 then .error (.returned 0)
  else if (turn.after hash).tableSize ≠ turn.map.tableSize then .error .freedTable
  else if ((turn.after hash).table turn.slot).map (fun e => e.key.addr) ≠
      some turn.entry.key.addr then .ok turn.slot
  else if turn.map.length ≠ (turn.after hash).length then .error (.returned (-EACCES))
  else .ok (turn.slot + 1)

/-- The loop of `m_map_iterate`, with what the callback does in each of its calls. -/
def iterateLoop (hash : S → ℕ) :
    List (MapCb S V) → HashMap S V → ℕ → List (MapTurn S V) × IterateEnd
  | [], m, slot =>
      match m.entryFrom slot with
      | none => ([], .returned 0)
      | some _ => ([], .calling)
  | fn :: fns, m, slot =>
      match m.entryFrom slot with
      | none => ([], .returned 0)
      | some (p, e) =>
          let turn : MapTurn S V := ⟨m, p, e, (fn e).1, (fn e).2⟩
          match turn.next hash with
          | .error last => ([turn], last)
          | .ok next =>
              let rest := iterateLoop hash fns (turn.after hash) next
              (turn :: rest.1, rest.2)

def mMapIterate (hash : S → ℕ) (fns : List (MapCb S V)) (m : HashMap S V) :
    List (MapTurn S V) × IterateEnd :=
  if m.length > 0 then iterateLoop hash fns m 0 else ([], .returned (-EINVAL))

/-! ## Changes by the callback -/

/-- The call puts a new entry, or removes an entry whose key is not `key`. -/
def Disturbs (hash : S → ℕ) (key : CString S) (m : HashMap S V) (call : MapCall S V) : Prop :=
  m.length < (call.exec hash m).2.length ∨
    ∃ e ∈ m.entries, e.key ≠ key ∧ ∀ e' ∈ (call.exec hash m).2.entries, e'.key ≠ e.key

/-- The callback puts new entries or removes other entries than the current one. -/
def MapTurn.Changes (hash : S → ℕ) (turn : MapTurn S V) : Prop :=
  ∃ before call after, turn.calls = before ++ call :: after ∧
    Disturbs hash turn.entry.key (runCalls hash turn.map before).2 call

/-- The new entries of some calls. -/
def added (hash : S → ℕ) : HashMap S V → List (MapCall S V) → ℕ
  | _, [] => 0
  | m, call :: calls =>
      ((call.exec hash m).2.length - m.length) + added hash (call.exec hash m).2 calls

/-- The entries that some calls remove. -/
def taken (hash : S → ℕ) : HashMap S V → List (MapCall S V) → ℕ
  | _, [] => 0
  | m, call :: calls =>
      (m.length - (call.exec hash m).2.length) + taken hash (call.exec hash m).2 calls

/-- `m_map_iterate` returns `-EACCES` right after a callback that changes the map. -/
def StopsAfterChange (hash : S → ℕ) (run : List (MapTurn S V) × IterateEnd) : Prop :=
  ∀ before turn after, run.1 = before ++ turn :: after → turn.ret = 0 → turn.Changes hash →
    after = [] ∧ run.2 = .returned (-EACCES)

/-- The callback leaves the table in place and the current entry in its slot, and it does not
put as many entries as it removes. -/
structure MapTurn.Noticed (hash : S → ℕ) (turn : MapTurn S V) : Prop where
  table : (turn.after hash).tableSize = turn.map.tableSize
  current : ((turn.after hash).table turn.slot).map (fun e => e.key.addr) =
    some turn.entry.key.addr
  count : added hash turn.map turn.calls ≠ taken hash turn.map turn.calls

theorem length_runCalls (hash : S → ℕ) (calls : List (MapCall S V)) (m : HashMap S V) :
    (runCalls hash m calls).2.length + taken hash m calls = m.length + added hash m calls := by
  induction calls generalizing m with
  | nil => rfl
  | cons call calls ih =>
      have hrest := ih (call.exec hash m).2
      simp only [runCalls, taken, added]
      omega

/-- The callback returned 0: what makes the loop stop with an error. -/
theorem next_eq_eacces_iff (hash : S → ℕ) {turn : MapTurn S V} (hret : turn.ret = 0) :
    turn.next hash = .error (.returned (-EACCES)) ↔ turn.Noticed hash := by
  have hlength := length_runCalls hash turn.calls turn.map
  have hsame : (turn.after hash).length = (runCalls hash turn.map turn.calls).2.length := rfl
  have hzero : ¬ (0 : ℤ) < 0 := lt_irrefl 0
  rw [MapTurn.next, hret, if_neg hzero, if_neg hzero]
  constructor
  · intro hnext
    split at hnext
    next => cases hnext
    next htable =>
    split at hnext
    next => cases hnext
    next hcurrent =>
    split at hnext
    next hcount => exact ⟨not_not.mp htable, not_not.mp hcurrent, by omega⟩
    next => cases hnext
  · intro h
    have hcount : turn.map.length ≠ (turn.after hash).length := by
      have := h.count
      omega
    simp [h.table, h.current, hcount]

section Loop

variable {m : HashMap S V} {fn : MapCb S V} {slot p : ℕ} {e : MapElem S V}

theorem iterateLoop_stop (fns : List (MapCb S V)) {last : IterateEnd}
    (hentry : m.entryFrom slot = some (p, e))
    (hnext : (⟨m, p, e, (fn e).1, (fn e).2⟩ : MapTurn S V).next hash = .error last) :
    iterateLoop hash (fn :: fns) m slot = ([⟨m, p, e, (fn e).1, (fn e).2⟩], last) := by
  rw [iterateLoop, hentry]
  simp only [hnext]

theorem iterateLoop_go (fns : List (MapCb S V)) {next : ℕ}
    (hentry : m.entryFrom slot = some (p, e))
    (hnext : (⟨m, p, e, (fn e).1, (fn e).2⟩ : MapTurn S V).next hash = .ok next) :
    iterateLoop hash (fn :: fns) m slot =
      (⟨m, p, e, (fn e).1, (fn e).2⟩ ::
          (iterateLoop hash fns (runCalls hash m (fn e).1).2 next).1,
        (iterateLoop hash fns (runCalls hash m (fn e).1).2 next).2) := by
  rw [iterateLoop, hentry]
  simp only [hnext]
  rfl

theorem iterateLoop_none (fns : List (MapCb S V)) (hentry : m.entryFrom slot = none) :
    iterateLoop hash fns m slot = ([], .returned 0) := by
  cases fns with
  | nil => rw [iterateLoop, hentry]
  | cons fn fns => rw [iterateLoop, hentry]

end Loop

/-- Each call of the callback is followed by the end, or by the loop from the next slot. -/
theorem iterateLoop_split (hash : S → ℕ) (fns : List (MapCb S V)) (m : HashMap S V) (slot : ℕ)
    {before : List (MapTurn S V)} {turn : MapTurn S V} {after : List (MapTurn S V)}
    (hrun : (iterateLoop hash fns m slot).1 = before ++ turn :: after) :
    (turn.next hash = .error (iterateLoop hash fns m slot).2 ∧ after = []) ∨
      ∃ next fns', turn.next hash = .ok next ∧
        (after, (iterateLoop hash fns m slot).2) =
          iterateLoop hash fns' (turn.after hash) next := by
  induction fns generalizing m slot before with
  | nil =>
      rw [iterateLoop] at hrun
      split at hrun <;> simp at hrun
  | cons fn fns ih =>
      cases hentry : m.entryFrom slot with
      | none =>
          rw [iterateLoop_none _ hentry] at hrun
          simp at hrun
      | some found =>
          obtain ⟨p, e⟩ := found
          cases hnext : (⟨m, p, e, (fn e).1, (fn e).2⟩ : MapTurn S V).next hash with
          | error last =>
              rw [iterateLoop_stop fns hentry hnext] at hrun ⊢
              cases before with
              | nil =>
                  obtain ⟨rfl, rfl⟩ := List.cons.inj hrun
                  exact .inl ⟨hnext, rfl⟩
              | cons first before =>
                  have hnil := (List.cons.inj hrun).2
                  simp at hnil
          | ok next =>
              rw [iterateLoop_go fns hentry hnext] at hrun ⊢
              cases before with
              | nil =>
                  obtain ⟨rfl, rfl⟩ := List.cons.inj hrun
                  exact .inr ⟨next, fns, hnext, rfl⟩
              | cons first before => exact ih _ _ (List.cons.inj hrun).2

/-- Without a call of the callback the loop does not fail. -/
theorem iterateLoop_nil (hash : S → ℕ) (fns : List (MapCb S V)) (m : HashMap S V) (slot : ℕ)
    (hrun : (iterateLoop hash fns m slot).1 = []) :
    (iterateLoop hash fns m slot).2 ≠ .returned (-EACCES) := by
  cases fns with
  | nil =>
      rw [iterateLoop]
      split <;> simp [EACCES]
  | cons fn fns =>
      cases hentry : m.entryFrom slot with
      | none =>
          rw [iterateLoop_none _ hentry]
          simp [EACCES]
      | some found =>
          obtain ⟨p, e⟩ := found
          cases hnext : (⟨m, p, e, (fn e).1, (fn e).2⟩ : MapTurn S V).next hash with
          | error last =>
              rw [iterateLoop_stop fns hentry hnext] at hrun
              cases hrun
          | ok next =>
              rw [iterateLoop_go fns hentry hnext] at hrun
              cases hrun

/-- In every run, `m_map_iterate` stops after each callback that changes the map if and only
if each of them can be noticed. -/
theorem stopsAfterChange_iff (hash : S → ℕ) (fns : List (MapCb S V)) (m : HashMap S V) :
    StopsAfterChange hash (mMapIterate hash fns m) ↔
      ∀ turn ∈ (mMapIterate hash fns m).1, turn.ret = 0 → turn.Changes hash →
        turn.Noticed hash := by
  rw [mMapIterate]
  split
  next =>
    constructor
    · intro hstops turn hturn hret hchanges
      obtain ⟨before, after, hrun⟩ := List.append_of_mem hturn
      obtain ⟨rfl, hlast⟩ := hstops before turn after hrun hret hchanges
      rcases iterateLoop_split hash fns m 0 hrun with ⟨hnext, -⟩ | ⟨next, fns', -, hrest⟩
      · rw [hlast] at hnext
        exact (next_eq_eacces_iff hash hret).mp hnext
      · have hnil := congrArg Prod.fst hrest
        have hend := congrArg Prod.snd hrest
        exact absurd (hend.symm.trans hlast) (iterateLoop_nil hash fns' _ next hnil.symm)
    · intro hnoticed before turn after hrun hret hchanges
      have hturn := hnoticed turn (hrun ▸ List.mem_append_right before List.mem_cons_self) hret
        hchanges
      have hstop := (next_eq_eacces_iff hash hret).mpr hturn
      rcases iterateLoop_split hash fns m 0 hrun with ⟨hnext, hafter⟩ | ⟨next, fns', hnext, -⟩
      · exact ⟨hafter, Except.error.inj (hnext.symm.trans hstop)⟩
      · rw [hstop] at hnext
        cases hnext
  next =>
    refine iff_of_true (fun before turn after hrun => ?_) (fun turn hturn => ?_)
    · cases before <;> cases hrun
    · cases hturn

end Iterate

def noMem : MapMem where
  strdup := none
  calloc := fun _ => false
  calloc_lt := fun _ h => Bool.noConfusion h

def twoEntries : HashMap ℕ ℕ where
  tableSize := 256
  length := 2
  flags := ⟨false, false, false⟩
  table := Function.update (Function.update (fun _ => none) 5 (some ⟨⟨1, 5⟩, 10⟩)) 7
    (some ⟨⟨2, 7⟩, 11⟩)
  dtor := false

/-- The first entry's callback puts an entry and removes the other one. -/
def swapOther : MapTurn ℕ ℕ where
  map := twoEntries
  slot := 5
  entry := ⟨⟨1, 5⟩, 10⟩
  calls := [.put noMem (some ⟨3, 9⟩) (some 12), .remove (some 7)]
  ret := 0

/-- The iteration goes on when a put and a removal cancel out. -/
theorem not_stopsAfterChange_swapOther :
    ¬ StopsAfterChange id (mMapIterate id [fun _ => (swapOther.calls, 0)] twoEntries) := by
  intro hstops
  have hentry : twoEntries.entryFrom 0 = some (5, ⟨⟨1, 5⟩, 10⟩) := by rfl
  have hnext : swapOther.next id = .ok 6 := by rfl
  have hrun : mMapIterate id [fun _ => (swapOther.calls, 0)] twoEntries =
      (swapOther :: (iterateLoop id [] (swapOther.after id) 6).1,
        (iterateLoop id [] (swapOther.after id) 6).2) := by
    rw [mMapIterate, if_pos (by decide)]
    exact iterateLoop_go [] hentry hnext
  have hchanges : swapOther.Changes id := ⟨[], _, _, rfl, .inl (by decide)⟩
  rw [hrun] at hstops
  obtain ⟨hnil, hlast⟩ := hstops [] swapOther _ rfl rfl hchanges
  exact iterateLoop_nil id [] _ 6 hnil hlast

end HashMap
end Libmodule
