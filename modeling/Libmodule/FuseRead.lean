import Libmodule.Errno
import Libmodule.Simulation
import Mathlib.Data.List.Basic
import Mathlib.Logic.Function.Basic

/-!
# Reading the file of a module

`fs_read` puts its own logger and user data in place of those of the context
and of the module, dumps the module into the buffer of the reader, and puts the
old ones back.  The lines of the dump are given.  A write outside of the buffer,
or a line of the dump that is not logged for a client, is a fault, written
`none`.
-/

namespace Libmodule

open CallRun

inductive FsLogger where
  | user
  | fsLogger
  deriving DecidableEq, Repr

inductive FsUserdata where
  | user
  | client (file : ℕ)
  deriving DecidableEq, Repr

/-- The part of `fs_client_t` that a read uses. -/
structure FsReadClient where
  readBuf : List UInt8 := []
  readLen : ℕ := 0
  writeLen : ℕ := 0
  readAll : Bool := false

/-- A module and its context; `clients` are those of the open files. -/
structure FuseRead where
  logger : FsLogger := .user
  userdata : FsUserdata := .user
  clients : ℕ → Option FsReadClient := fun _ => none

/-- A read has a buffer, and the lines that a dump logs at that time. -/
inductive FsReadCall where
  | fsOpen (file : ℕ)
  | fsRead (file : ℕ) (buf : List UInt8) (lines : List (List UInt8))
  | fsRelease (file : ℕ)

/-- `vsnprintf` of a text at `pos` of a buffer, with room for `room` bytes. -/
def vsnprintf (buf : List UInt8) (pos room : ℕ) (text : List UInt8) : Option (ℕ × List UInt8) :=
  if room = 0 then some (text.length, buf)
  else
    let bytes := text.take (room - 1) ++ [0]
    if pos + bytes.length ≤ buf.length then
      some (text.length, buf.take pos ++ bytes ++ buf.drop (pos + bytes.length))
    else none

def FsReadClient.fsLogger (cl : FsReadClient) (text : List UInt8) : Option FsReadClient :=
  if cl.writeLen < cl.readLen then do
    let (len, buf) ← vsnprintf cl.readBuf cl.writeLen (cl.readLen - cl.writeLen) text
    some { cl with readBuf := buf, writeLen := cl.writeLen + len }
  else some cl

namespace FuseRead

def setClient (s : FuseRead) (file : ℕ) (cl : FsReadClient) : FuseRead :=
  { s with clients := Function.update s.clients file (some cl) }

/-- A line of `m_mod_dump`; what the logger of the user does with it is left out. -/
def log (s : FuseRead) (line : List UInt8) : Option FuseRead :=
  match s.logger, s.userdata with
  | .user, _ => some s
  | .fsLogger, .user => none
  | .fsLogger, .client file => do
      let cl ← s.clients file
      let cl ← cl.fsLogger line
      some (s.setClient file cl)

def mModDump (s : FuseRead) (lines : List (List UInt8)) : Option FuseRead := lines.foldlM log s

/-- What is written is cut to the size of the buffer. -/
def clamp (cl : FsReadClient) : FsReadClient :=
  if cl.writeLen > cl.readLen then { cl with writeLen := cl.readLen } else cl

/-- The dump, with the logger and the user data replaced. -/
def dumpFor (s : FuseRead) (file : ℕ) (lines : List (List UInt8)) : Option FuseRead := do
  let oldLog := s.logger
  let oldUserdata := s.userdata
  let s ← mModDump { s with logger := .fsLogger, userdata := .client file } lines
  let cl ← s.clients file
  let s := s.setClient file { clamp cl with readAll := true }
  some { s with logger := oldLog, userdata := oldUserdata }

/-- `fs_read`; the answer comes with the buffer. -/
def fsRead (s : FuseRead) (file : ℕ) (buf : List UInt8) (lines : List (List UInt8)) :
    Option ((ℤ × List UInt8) × FuseRead) :=
  match s.clients file with
  | none => some ((-ENOENT, buf), s)
  | some cl => do
      let s := s.setClient file { cl with readBuf := buf, readLen := buf.length, writeLen := 0 }
      let s ← if cl.readAll then
          some (s.setClient file
            { readBuf := buf, readLen := buf.length, writeLen := 0, readAll := false })
        else s.dumpFor file lines
      let cl ← s.clients file
      some ((cl.writeLen, cl.readBuf), s.setClient file { cl with readBuf := [], readLen := 0 })

def exec (s : FuseRead) : FsReadCall → Option ((ℤ × List UInt8) × FuseRead)
  | .fsOpen file => some ((0, []), s.setClient file {})
  | .fsRead file buf lines => s.fsRead file buf lines
  | .fsRelease file =>
      some ((0, []), { s with clients := Function.update s.clients file none })

/-! ## What a read gives -/

/-- The text is in the buffer, as far as there is room for it and a null byte. -/
structure Holds (buf : List UInt8) (size : ℕ) (text : List UInt8) : Prop where
  length : buf.length = size
  content : buf.take (min text.length (size - 1)) = text.take (size - 1)
  cut : 0 < size → size ≤ text.length → buf[size - 1]? = some 0

/-- Reads of an open file give a dump and the end of the file in turn; the logger of the context
and the user data of the module are those of before. -/
structure Reads (s : FuseRead) (file : ℕ) (buf : List UInt8) (lines : List (List UInt8))
    (ret : ℤ × List UInt8) (s' : FuseRead) : Prop where
  closed : s.clients file = none → ret = (-ENOENT, buf) ∧ s' = s
  dump : ∀ cl, s.clients file = some cl → cl.readAll = false →
    ret.1 = min lines.flatten.length buf.length ∧ Holds ret.2 buf.length lines.flatten ∧
      (s'.clients file).map FsReadClient.readAll = some true
  again : ∀ cl, s.clients file = some cl → cl.readAll = true →
    ret = (0, buf) ∧ (s'.clients file).map FsReadClient.readAll = some false
  others : ∀ other ≠ file, s'.clients other = s.clients other
  logger : s'.logger = s.logger
  userdata : s'.userdata = s.userdata

def ReadsWell (s : FuseRead) (call : FsReadCall) (ret : ℤ × List UInt8) (s' : FuseRead) : Prop :=
  s'.logger = .user ∧ s'.userdata = .user ∧
    match call with
    | .fsRead file buf lines => s.Reads file buf lines ret s'
    | _ => True

/-! ## The buffer -/

/-- What has been logged so far is in the buffer, and `write_len` counts it until the buffer is
full. -/
structure Logged (cl : FsReadClient) (size : ℕ) (text : List UInt8) : Prop where
  readLen : cl.readLen = size
  holds : Holds cl.readBuf size text
  writeLen : (text.length < size ∧ cl.writeLen = text.length) ∨
    (size ≤ text.length ∧ size ≤ cl.writeLen)

theorem Logged.fsLogger {cl : FsReadClient} {size : ℕ} {text : List UInt8}
    (h : Logged cl size text) (line : List UInt8) :
    ∃ cl', cl.fsLogger line = some cl' ∧ Logged cl' size (text ++ line) ∧
      cl'.readAll = cl.readAll := by
  obtain ⟨hreadLen, ⟨hlength, hcontent, hcut⟩, hwriteLen⟩ := h
  rcases hwriteLen with ⟨hroom, hwriteLen⟩ | ⟨hfull, hwriteLen⟩
  · have hmin : min text.length (size - 1) = text.length := by omega
    have hwhole : text.take (size - 1) = text := List.take_of_length_le (by omega)
    rw [hmin, hwhole] at hcontent
    have hpos : text.length ≤ cl.readBuf.length := by omega
    have hbytes : (line.take (size - text.length - 1) ++ [0]).length =
        min (size - text.length - 1) line.length + 1 := by simp
    have hfits : text.length + (line.take (size - text.length - 1) ++ [0]).length ≤
        cl.readBuf.length := by omega
    have hlogged : cl.fsLogger line = some { cl with
        readBuf := text ++ (line.take (size - text.length - 1) ++ [0]) ++
          cl.readBuf.drop (text.length + (line.take (size - text.length - 1) ++ [0]).length)
        writeLen := text.length + line.length } := by
      have hlt : cl.writeLen < cl.readLen := by omega
      have hne : size - text.length ≠ 0 := by omega
      rw [FsReadClient.fsLogger, if_pos hlt, hreadLen, hwriteLen, vsnprintf, if_neg hne,
        if_pos hfits, hcontent]
      rfl
    refine ⟨_, hlogged, ⟨hreadLen, ⟨?_, ?_, fun hpos hle => ?_⟩, ?_⟩, rfl⟩
    · simp only [List.length_append, List.length_drop] at hfits ⊢
      omega
    · -- the line is written behind the text, as far as it fits
      have htake : (text ++ line).take (size - 1) =
          text ++ line.take (size - text.length - 1) := by
        have hrest : size - 1 - text.length = size - text.length - 1 := by omega
        rw [List.take_append, hwhole, hrest]
      rw [htake]
      have hlen : (text ++ line.take (size - text.length - 1)).length =
          min (text ++ line).length (size - 1) := by
        simp only [List.length_append, List.length_take]
        omega
      rw [← hlen, ← List.append_assoc, List.append_assoc, List.take_left]
    · have hlen : (text ++ line.take (size - text.length - 1)).length = size - 1 := by
        simp only [List.length_append, List.length_take] at hle ⊢
        omega
      have hshape : ∀ rest : List UInt8,
          text ++ (line.take (size - text.length - 1) ++ [0]) ++ rest =
            (text ++ line.take (size - text.length - 1)) ++ 0 :: rest := by simp
      rw [hshape, List.getElem?_append_right (Nat.le_of_eq hlen), hlen, Nat.sub_self]
      rfl
    · have hlen : (text ++ line).length = text.length + line.length := List.length_append
      by_cases hfit : (text ++ line).length < size
      · exact .inl ⟨hfit, hlen.symm⟩
      · have hover := Nat.le_of_not_lt hfit
        exact .inr ⟨hover, hlen ▸ hover⟩
  · have hlt : ¬ cl.writeLen < cl.readLen := by omega
    refine ⟨cl, by rw [FsReadClient.fsLogger, if_neg hlt], ⟨hreadLen, ⟨hlength, ?_,
      fun hpos _ => hcut hpos hfull⟩, .inr ⟨?_, hwriteLen⟩⟩, rfl⟩
    · have hmin : min (text ++ line).length (size - 1) = min text.length (size - 1) := by
        rw [List.length_append]
        omega
      rw [hmin, hcontent, List.take_append_of_le_length (by omega)]
    · rw [List.length_append]
      omega

theorem Logged.start (buf : List UInt8) (readAll : Bool) :
    Logged { readBuf := buf, readLen := buf.length, writeLen := 0, readAll := readAll }
      buf.length [] := by
  refine ⟨rfl, ⟨rfl, by simp, fun hpos hle => ?_⟩, ?_⟩
  · simp only [List.length_nil] at hle
    omega
  · rcases Nat.eq_zero_or_pos buf.length with hzero | hpos
    · exact .inr ⟨by simp [hzero], by simp [hzero]⟩
    · exact .inl ⟨hpos, rfl⟩

theorem Logged.clamp {cl : FsReadClient} {size : ℕ} {text : List UInt8}
    (h : Logged cl size text) : (clamp cl).writeLen = min text.length size ∧
      (FuseRead.clamp cl).readBuf = cl.readBuf := by
  have hreadLen := h.readLen
  have hwriteLen := h.writeLen
  unfold FuseRead.clamp
  split
  · exact ⟨by simp only; omega, rfl⟩
  · exact ⟨by omega, rfl⟩

/-! ## The dump -/

/-- The dump goes to the buffer of its client, and changes nothing else. -/
theorem mModDump_spec {s : FuseRead} {file size : ℕ} {cl : FsReadClient} {text : List UInt8}
    (hlogger : s.logger = .fsLogger) (huserdata : s.userdata = .client file)
    (hcl : s.clients file = some cl) (h : Logged cl size text) (lines : List (List UInt8)) :
    ∃ cl', s.mModDump lines = some (s.setClient file cl') ∧
      Logged cl' size (text ++ lines.flatten) := by
  induction lines generalizing s cl text with
  | nil =>
      refine ⟨cl, ?_, by simpa using h⟩
      have hsame : s.setClient file cl = s := by
        rw [setClient, ← hcl, Function.update_eq_self]
      rw [hsame]
      rfl
  | cons line lines ih =>
      obtain ⟨cl', hfsLogger, hlogged, -⟩ := h.fsLogger line
      have hlog : s.log line = some (s.setClient file cl') := by
        simp [log, hlogger, huserdata, hcl, hfsLogger]
      obtain ⟨cl'', hdump, hlogged'⟩ := ih (s := s.setClient file cl') hlogger huserdata
        (Function.update_self file _ _) hlogged
      refine ⟨cl'', ?_, by simpa using hlogged'⟩
      have hrest : mModDump (s.setClient file cl') lines = some (s.setClient file cl'') := by
        rw [hdump]
        simp [setClient]
      rw [mModDump, List.foldlM_cons, hlog, Option.bind_eq_bind, Option.bind_some]
      exact hrest

theorem fsRead_spec (s : FuseRead) (file : ℕ) (buf : List UInt8) (lines : List (List UInt8)) :
    ∃ ret s', s.fsRead file buf lines = some (ret, s') ∧ s.Reads file buf lines ret s' := by
  cases hcl : s.clients file with
  | none =>
      refine ⟨(-ENOENT, buf), s, by simp [fsRead, hcl], fun _ => ⟨rfl, rfl⟩, ?_, ?_,
        fun _ _ => rfl, rfl, rfl⟩
      · intro cl hcl'
        rw [hcl] at hcl'
        cases hcl'
      · intro cl hcl'
        rw [hcl] at hcl'
        cases hcl'
  | some cl =>
      have hclosed : ∀ P : Prop, s.clients file = none → P := by
        intro P hnone
        rw [hcl] at hnone
        cases hnone
      cases hall : cl.readAll with
      | true =>
          refine ⟨(0, buf), s.setClient file { readAll := false }, ?_, hclosed _, ?_, ?_,
            fun other hne => Function.update_of_ne hne _ _, rfl, rfl⟩
          · simp [fsRead, hcl, hall, setClient]
          · intro cl' hcl' hnot
            rw [hcl] at hcl'
            cases hcl'
            rw [hall] at hnot
            cases hnot
          · exact fun _ _ _ => ⟨rfl, by simp [setClient]⟩
      | false =>
          obtain ⟨cl', hdump, hlogged⟩ := mModDump_spec
            (s := { s.setClient file ⟨buf, buf.length, 0, false⟩ with
              logger := .fsLogger, userdata := .client file })
            rfl rfl (Function.update_self file _ _) (Logged.start buf false) lines
          obtain ⟨hwriteLen, hreadBuf⟩ := hlogged.clamp
          rw [List.nil_append] at hlogged hwriteLen
          refine ⟨((FuseRead.clamp cl').writeLen, cl'.readBuf),
            s.setClient file
              { FuseRead.clamp cl' with readBuf := [], readLen := 0, readAll := true }, ?_,
            hclosed _, ?_, ?_, fun other hne => Function.update_of_ne hne _ _, rfl, rfl⟩
          · simp only [setClient] at hdump
            simp [fsRead, hcl, hall, setClient, dumpFor, hdump, hreadBuf]
          · intro cl'' _ _
            refine ⟨?_, hlogged.holds, by simp [setClient]⟩
            rw [hwriteLen]
          · intro cl'' hcl'' hover
            rw [hcl] at hcl''
            cases hcl''
            rw [hall] at hover
            cases hover

/-- In every run of opens, reads and releases no byte is written outside of a buffer, each read of
an open file gives the dump, cut to the buffer, or the end of the file in turn, and the
logger of the user is back in place. -/
theorem readsWell (calls : List FsReadCall) : Always exec ReadsWell {} calls := by
  refine always_of_invariant (fun s => s.logger = .user ∧ s.userdata = .user)
    (fun s call h => ?_) calls ⟨rfl, rfl⟩
  obtain ⟨hlogger, huserdata⟩ := h
  cases call with
  | fsOpen file => exact ⟨_, _, rfl, ⟨hlogger, huserdata, trivial⟩, hlogger, huserdata⟩
  | fsRead file buf lines =>
      obtain ⟨ret, s', hread, hreads⟩ := fsRead_spec s file buf lines
      have hlogger' := hreads.logger.trans hlogger
      have huserdata' := hreads.userdata.trans huserdata
      exact ⟨ret, s', hread, ⟨hlogger', huserdata', hreads⟩, hlogger', huserdata'⟩
  | fsRelease file => exact ⟨_, _, rfl, ⟨hlogger, huserdata, trivial⟩, hlogger, huserdata⟩

end FuseRead

end Libmodule
