import Libmodule.CallRun
import Libmodule.Errno
import Libmodule.SrcLayout

/-!
# The records of a path source

`poll_consume_pt` reads the inotify descriptor of a path source into a buffer
on the stack, and looks at the first record of the buffer.  `process_path`
makes the event of a module from it, and `recv_events` pushes the event to the
module unless `errno` is set.

The kernel writes as many whole records as fit in the buffer, and takes them
off its queue.
-/

namespace Libmodule

open CallRun

def NAME_MAX : ℕ := 255

/-- `sizeof(struct inotify_event)` -/
def INOTIFY_EVENT_SIZE : ℕ := 16

def BUF_LEN : ℕ := INOTIFY_EVENT_SIZE + NAME_MAX + 1

/-- `struct inotify_event`, with the name as words; the kernel pads it. -/
structure InotifyRecord where
  wd : BitVec 32
  mask : BitVec 32
  cookie : BitVec 32
  name : List (BitVec 32)
  event : mask ≠ 0
  short : 4 * name.length ≤ NAME_MAX + 1

namespace InotifyRecord

def len (r : InotifyRecord) : ℕ := 4 * r.name.length

def size (r : InotifyRecord) : ℕ := INOTIFY_EVENT_SIZE + r.len

def words (r : InotifyRecord) : List (BitVec 32) :=
  [r.wd, r.mask, r.cookie, BitVec.ofNat 32 r.len] ++ r.name

/-- The whole records that fit in `room` bytes. -/
def fitting : ℕ → List InotifyRecord → List InotifyRecord
  | _, [] => []
  | room, r :: rs => if r.size ≤ room then r :: fitting (room - r.size) rs else []

end InotifyRecord

/-- `m_evt_path_t` -/
structure MEvtPath where
  path : Option ℕ := none
  events : BitVec 32 := 0
  deriving DecidableEq

/-- An error of a system call. -/
structure SysFault where
  errno : ℤ
  pos : 0 < errno

/-- A path source with the queue of its descriptor, what was read from it, and the path
events that the module was notified of. -/
structure PathSrc where
  path : ℕ
  pending : List InotifyRecord
  consumed : List InotifyRecord := []
  notified : List MEvtPath := []

/-- The source is ready: the value of `errno`, the words in the buffer of
`poll_consume_pt`, and an error of `read` if there is one. -/
structure PathReady where
  errno : ℤ
  buffer : Words
  fault : Option SysFault

inductive PathCall where
  | arrive (records : List InotifyRecord)
  | ready (r : PathReady)

namespace PathSrc

open InotifyRecord

/-- `read` of the descriptor: its result, and `errno`. -/
def sysRead (s : PathSrc) (r : PathReady) : ℤ × ℤ :=
  match r.fault with
  | some fault => (-1, fault.errno)
  | none =>
      if s.pending = [] then (-1, EAGAIN)
      else if fitting BUF_LEN s.pending = [] then (-1, EINVAL)
      else (((((fitting BUF_LEN s.pending).map size).sum : ℕ) : ℤ), r.errno)

/-- The records that `read` takes. -/
def taken (s : PathSrc) (r : PathReady) : List InotifyRecord :=
  if (s.sysRead r).1 < 0 then [] else fitting BUF_LEN s.pending

/-- The buffer after `read`. -/
def bufferAfter (s : PathSrc) (r : PathReady) : Words :=
  fun i => (((s.taken r).flatMap words)[i]?).getD (r.buffer i)

/-- `poll_consume_pt`: its result and the message it fills in; the length is unsigned. -/
def pollConsumePt (s : PathSrc) (r : PathReady) (msg : MEvtPath) : ℤ × MEvtPath :=
  let length := ((s.sysRead r).1 % 2 ^ 64).toNat
  let buffer := s.bufferAfter r
  if length > 0 then
    if buffer 3 ≠ 0 then (0, { msg with events := buffer 1 })
    else (-(s.sysRead r).2, msg)
  else (-(s.sysRead r).2, msg)

def processPath (s : PathSrc) (r : PathReady) : MEvtPath :=
  let (ret, msg) := s.pollConsumePt r {}
  if ret = 0 then { msg with path := some s.path } else msg

/-- What `recv_events` does with the source. -/
def recvPath (s : PathSrc) (r : PathReady) : PathSrc :=
  let msg := s.processPath r
  { s with
    pending := s.pending.drop (s.taken r).length
    consumed := s.consumed ++ s.taken r
    notified := if (s.sysRead r).2 = 0 then s.notified ++ [msg] else s.notified }

def exec (s : PathSrc) : PathCall → Option (Unit × PathSrc)
  | .arrive records => some ((), { s with pending := s.pending ++ records })
  | .ready r => some ((), s.recvPath r)

/-! ## What the module is notified of -/

def evtOf (s : PathSrc) (r : InotifyRecord) : MEvtPath := ⟨some s.path, r.mask⟩

/-- The module was notified of the masks of the records that were read, and of nothing else. -/
def Notified (s : PathSrc) : Prop := s.notified = s.consumed.map s.evtOf

/-- If `read` succeeds, there is one record in the buffer, it has a name, and `errno` is not
set. -/
def ReadsOne (s : PathSrc) : PathCall → Prop
  | .arrive _ => True
  | .ready r => r.fault = none → s.pending ≠ [] →
      r.errno = 0 ∧ ∃ x, x.name ≠ [] ∧ fitting BUF_LEN s.pending = [x]

/-! ## What one read gives -/

theorem size_le (x : InotifyRecord) : x.size ≤ BUF_LEN := by
  have hshort := x.short
  simp only [size, len, BUF_LEN, INOTIFY_EVENT_SIZE, NAME_MAX] at *
  omega

theorem fitting_ne_nil {records : List InotifyRecord} (h : records ≠ []) :
    fitting BUF_LEN records ≠ [] := by
  cases records with
  | nil => exact absurd rfl h
  | cons x rest => simp [fitting, size_le x]

theorem sum_fitting_le (room : ℕ) (records : List InotifyRecord) :
    ((fitting room records).map size).sum ≤ room := by
  induction records generalizing room with
  | nil => simp [fitting]
  | cons x rest ih =>
      rw [fitting]
      split
      next hfits =>
        have hrest := ih (room - x.size)
        rw [List.map_cons, List.sum_cons]
        omega
      next => simp

/-- `read` either fails and sets `errno`, or gives some of the records. -/
theorem sysRead_cases (s : PathSrc) (r : PathReady) :
    ((r.fault = none → s.pending = []) ∧ (s.sysRead r).1 = -1 ∧ 0 < (s.sysRead r).2 ∧
        s.taken r = []) ∨
      (r.fault = none ∧ s.pending ≠ [] ∧ ∃ x rest, fitting BUF_LEN s.pending = x :: rest ∧
        0 < (s.sysRead r).1 ∧ (s.sysRead r).1 < 2 ^ 64 ∧ (s.sysRead r).2 = r.errno ∧
        s.taken r = x :: rest) := by
  cases hfault : r.fault with
  | some fault =>
      have hread : s.sysRead r = (-1, fault.errno) := by rw [sysRead, hfault]
      refine .inl ⟨fun h => (nomatch h), by rw [hread], by rw [hread]; exact fault.pos, ?_⟩
      rw [taken, hread]
      exact if_pos (by norm_num)
  | none =>
      by_cases hempty : s.pending = []
      · have hread : s.sysRead r = (-1, EAGAIN) := by rw [sysRead, hfault, if_pos hempty]
        refine .inl ⟨fun _ => hempty, by rw [hread], by rw [hread]; decide, ?_⟩
        rw [taken, hread]
        exact if_pos (by norm_num)
      · have hfits := fitting_ne_nil hempty
        have hread : s.sysRead r =
            (((((fitting BUF_LEN s.pending).map size).sum : ℕ) : ℤ), r.errno) := by
          rw [sysRead, hfault, if_neg hempty, if_neg hfits]
        cases hfitting : fitting BUF_LEN s.pending with
        | nil => exact absurd hfitting hfits
        | cons x rest =>
            have hsum := sum_fitting_le BUF_LEN s.pending
            have hpos : 0 < ((fitting BUF_LEN s.pending).map size).sum := by
              rw [hfitting, List.map_cons, List.sum_cons, size, INOTIFY_EVENT_SIZE]
              omega
            have hbuf : BUF_LEN < 2 ^ 64 := by decide
            refine .inr ⟨rfl, hempty, x, rest, rfl, ?_, ?_, by rw [hread], ?_⟩
            · rw [hread]
              exact Int.natCast_pos.mpr hpos
            · rw [hread]
              exact Int.ofNat_lt.mpr (hsum.trans_lt hbuf)
            · rw [taken, hread, if_neg (Int.natCast_nonneg _).not_gt, hfitting]

section Message

variable {s : PathSrc} {r : PathReady}

/-- After a failure the buffer is what it was, and its length counts as positive. -/
theorem pollConsumePt_failed (hret : (s.sysRead r).1 = -1) (htaken : s.taken r = [])
    (msg : MEvtPath) :
    s.pollConsumePt r msg =
      if r.buffer 3 ≠ 0 then (0, { msg with events := r.buffer 1 })
      else (-(s.sysRead r).2, msg) := by
  have hbuffer : s.bufferAfter r = r.buffer := by
    funext i
    simp [bufferAfter, htaken]
  rw [pollConsumePt, hret, hbuffer]
  exact if_pos (by decide)

theorem len_ne_zero_iff (x : InotifyRecord) : BitVec.ofNat 32 x.len ≠ 0 ↔ x.name ≠ [] := by
  have hshort := x.short
  have hlt : x.len < 2 ^ 32 := by
    simp only [NAME_MAX] at hshort
    simp only [len]
    omega
  rw [ne_eq, ← BitVec.toNat_inj, BitVec.toNat_ofNat, Nat.mod_eq_of_lt hlt]
  simp [len]

theorem pollConsumePt_read {x : InotifyRecord} {rest : List InotifyRecord}
    (hpos : 0 < (s.sysRead r).1) (hlt : (s.sysRead r).1 < 2 ^ 64) (htaken : s.taken r = x :: rest)
    (msg : MEvtPath) :
    s.pollConsumePt r msg =
      if x.name ≠ [] then (0, { msg with events := x.mask }) else (-(s.sysRead r).2, msg) := by
  have hlength : 0 < ((s.sysRead r).1 % 2 ^ 64).toNat := by omega
  have hlen : s.bufferAfter r 3 = BitVec.ofNat 32 x.len := by simp [bufferAfter, htaken, words]
  have hmask : s.bufferAfter r 1 = x.mask := by simp [bufferAfter, htaken, words]
  simp only [pollConsumePt, hlen, hmask, len_ne_zero_iff, if_pos hlength, gt_iff_lt]

end Message

theorem recvPath_failed {s : PathSrc} {r : PathReady} (herrno : 0 < (s.sysRead r).2)
    (htaken : s.taken r = []) : s.recvPath r = s := by
  simp [recvPath, htaken, herrno.ne']

/-- The module is still notified of what was read exactly if one record was, with a name. -/
theorem notified_recvPath_iff {s : PathSrc} (h : s.Notified) (r : PathReady) :
    (s.recvPath r).Notified ↔ s.ReadsOne (.ready r) := by
  rcases s.sysRead_cases r with ⟨hnone, -, herrno, htaken⟩ |
    ⟨hfault, hpending, x, rest, hfitting, hpos, hlt, herrno, htaken⟩
  · rw [recvPath_failed herrno htaken]
    exact iff_of_true h fun hfault hpending => absurd (hnone hfault) hpending
  · have hconsumed : (s.recvPath r).consumed = s.consumed ++ x :: rest := by
      rw [recvPath, htaken]
    have hmsg := pollConsumePt_read hpos hlt htaken {}
    have hreads : s.ReadsOne (.ready r) ↔ r.errno = 0 ∧ rest = [] ∧ x.name ≠ [] := by
      simp only [ReadsOne, hfitting, hfault, forall_const]
      constructor
      · intro hone
        obtain ⟨hclear, y, hname, hy⟩ := hone hpending
        rw [List.cons.injEq] at hy
        exact ⟨hclear, hy.2, hy.1 ▸ hname⟩
      · rintro ⟨hclear, rfl, hname⟩ -
        exact ⟨hclear, x, hname, rfl⟩
    rw [hreads, Notified, hconsumed, List.map_append, List.map_cons]
    have hevt : (s.recvPath r).evtOf = s.evtOf := rfl
    rw [hevt, ← h]
    by_cases hclear : r.errno = 0
    · have hnotified : (s.recvPath r).notified = s.notified ++ [s.processPath r] := by
        rw [recvPath, herrno, if_pos hclear]
      rw [hnotified, List.append_cancel_left_eq, List.cons.injEq]
      rw [herrno, hclear] at hmsg
      by_cases hname : x.name = []
      · rw [if_neg (not_not.mpr hname)] at hmsg
        have hempty : s.processPath r = ⟨some s.path, 0⟩ := by
          rw [processPath, hmsg]
          rfl
        rw [hempty]
        refine iff_of_false (fun hsame => x.event ?_) (fun hone => hone.2.2 hname)
        exact (congrArg MEvtPath.events hsame.1).symm
      · rw [if_pos hname] at hmsg
        have hfull : s.processPath r = s.evtOf x := by
          rw [processPath, hmsg]
          rfl
        rw [hfull]
        constructor
        · rintro ⟨-, hrest⟩
          exact ⟨hclear, List.map_eq_nil_iff.mp hrest.symm, hname⟩
        · rintro ⟨-, rfl, -⟩
          exact ⟨rfl, rfl⟩
    · have hnotified : (s.recvPath r).notified = s.notified := by
        rw [recvPath, herrno, if_neg hclear]
      rw [hnotified]
      exact iff_of_false (by simp) (fun hone => hclear hone.1)

/-! ## Runs -/

/-- After a failed read the event is empty exactly if the buffer happens to have no length there. -/
theorem processPath_failed_iff {s : PathSrc} {r : PathReady} (hret : (s.sysRead r).1 = -1)
    (herrno : 0 < (s.sysRead r).2) (htaken : s.taken r = []) :
    s.processPath r = {} ↔ r.buffer 3 = 0 := by
  have hmsg := pollConsumePt_failed hret htaken {}
  by_cases hlen : r.buffer 3 = 0
  · rw [if_neg (not_not.mpr hlen)] at hmsg
    have hempty : s.processPath r = {} := by
      rw [processPath, hmsg]
      exact if_neg (by simp only [neg_eq_zero]; exact herrno.ne')
    exact iff_of_true hempty hlen
  · rw [if_pos hlen] at hmsg
    have hfull : s.processPath r = ⟨some s.path, r.buffer 1⟩ := by
      rw [processPath, hmsg]
      rfl
    rw [hfull]
    exact iff_of_false (fun h => Option.some_ne_none _ (congrArg MEvtPath.path h)) hlen

/-- In every run, the module is notified of each record that was read, and of nothing else, if
and only if every read that succeeds gives one record, with a name, while `errno` is not set.
After a failed read nothing is pushed; the event made for it is empty if and only if the
buffer on the stack has a zero for the length of the name. -/
theorem notified_iff (path : ℕ) (pending : List InotifyRecord) (calls : List PathCall) :
    (Always exec (fun _ _ _ s' => s'.Notified) ⟨path, pending, [], []⟩ calls ↔
        Meets exec ReadsOne ⟨path, pending, [], []⟩ calls) ∧
      ∀ (s : PathSrc) (r : PathReady), (s.sysRead r).1 < 0 →
        (s.processPath r = {} ↔ r.buffer 3 = 0) ∧ (s.recvPath r).notified = s.notified := by
  refine ⟨always_iff_of_step Notified ?_ calls rfl, ?_⟩
  · intro s call hs
    cases call with
    | arrive records =>
        have hkept : ({ s with pending := s.pending ++ records } : PathSrc).Notified := hs
        exact ⟨(), _, rfl, iff_of_true hkept trivial, fun _ => hkept⟩
    | ready r =>
        have hiff := notified_recvPath_iff hs r
        exact ⟨(), s.recvPath r, rfl, hiff, hiff.mpr⟩
  · intro s r hneg
    rcases s.sysRead_cases r with ⟨-, hret, herrno, htaken⟩ | ⟨-, -, x, rest, -, hpos, -⟩
    · exact ⟨processPath_failed_iff hret herrno htaken, by rw [recvPath_failed herrno htaken]⟩
    · exact absurd hneg hpos.not_gt

/-- `IN_CREATE`, with a name of four words. -/
def namedRecord : InotifyRecord where
  wd := 1
  mask := 0x100
  cookie := 0
  name := [0x61, 0, 0, 0]
  event := by decide
  short := by decide

theorem notified_namedRecord :
    Always exec (fun _ _ _ s' => s'.Notified) ⟨0, [namedRecord], [], []⟩
      [.ready ⟨0, fun _ => 0, none⟩] :=
  (notified_iff 0 [namedRecord] _).1.mpr
    ⟨fun _ _ => ⟨rfl, namedRecord, by decide, rfl⟩, trivial⟩

/-- `IN_MODIFY`, of a watch on a plain file. -/
def namelessRecord : InotifyRecord where
  wd := 1
  mask := 0x2
  cookie := 0
  name := []
  event := by decide
  short := by decide

/-- The second of two records is lost, and so is the mask of a record without a name. -/
theorem not_notified_records :
    ¬ Always exec (fun _ _ _ s' => s'.Notified) ⟨0, [namedRecord, namedRecord], [], []⟩
        [.ready ⟨0, fun _ => 0, none⟩] ∧
      ¬ Always exec (fun _ _ _ s' => s'.Notified) ⟨0, [namelessRecord], [], []⟩
        [.ready ⟨0, fun _ => 0, none⟩] := by
  refine ⟨fun h => ?_, fun h => ?_⟩
  · have hlength := congrArg List.length h.1
    revert hlength
    decide +kernel
  · have hmasks := congrArg (List.map MEvtPath.events) h.1
    revert hmasks
    decide +kernel

end PathSrc
end Libmodule
