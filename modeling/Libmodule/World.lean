import Libmodule.RefHeap
import Libmodule.SrcRegistration

/-!
# The objects of the core

Contexts, modules, event sources, messages and events, as `core/*.h` declares
them, in one heap of reference-counted objects, next to what the library sees
of the operating system: descriptors, pipes, epoll sets and `errno`.

Pointers are addresses of the heap, `NULL` is `none`, and a descriptor is never
used twice.  The fallible system calls answer from a list of error numbers,
where 0 and the end of the list mean success; memory is always available.
-/

namespace Libmodule

open RefHeap SearchTree

/-- `m_src_types` -/
inductive MSrcType where
  | ps
  | fd
  | tmr
  | sgn
  | path
  | pid
  | task
  | thresh
  deriving DecidableEq, Repr

namespace MSrcType

def all : List MSrcType := [ps, fd, tmr, sgn, path, pid, task, thresh]

/-- The word of `ev_src_t` at which the key structure of a source starts. -/
def keyOffset : MSrcType → ℕ
  | ps => 0
  | fd => 0
  | tmr => 2
  | sgn => 1
  | path => 2
  | pid => 1
  | task => 2
  | thresh => 2

def keySize : MSrcType → ℕ
  | ps => 1
  | fd => 1
  | tmr => 4
  | sgn => 1
  | path => 4
  | pid => 2
  | task => 4
  | thresh => 4

/-- The types whose descriptor the poll plugin creates and closes. -/
def privFd : MSrcType → Bool
  | ps => false
  | fd => false
  | _ => true

end MSrcType

/-- `m_mod_states`; a module that is still being registered has none of them. -/
inductive ModState where
  | unset
  | idle
  | running
  | paused
  | stopped
  | zombie
  deriving DecidableEq, Repr

/-! ## Flags -/

def M_SRC_PRIO_LOW : ℕ := 1 <<< 0
def M_SRC_AUTOFREE : ℕ := 1 <<< 3
def M_SRC_ONESHOT : ℕ := 1 <<< 4
def M_SRC_INTERNAL : ℕ := 1 <<< 7
def M_SRC_FD_AUTOCLOSE : ℕ := 1 <<< 16

def M_MOD_ALLOW_REPLACE : ℕ := 1 <<< 8
def M_MOD_PERSIST : ℕ := 1 <<< 9
def M_MOD_DENY_CTX : ℕ := 1 <<< 16
def M_MOD_DENY_PUB : ℕ := 1 <<< 17
def M_MOD_DENY_SUB : ℕ := 1 <<< 18

def M_CTX_PERSIST : ℕ := 1 <<< 2

def M_PS_AUTOFREE : ℕ := 1 <<< 0

/-- `flags & flag` -/
def hasFlag (flags flag : ℕ) : Bool := flags &&& flag != 0

def M_PS_CTX_STARTED : String := "LIBMODULE_CTX_STARTED"
def M_PS_CTX_STOPPED : String := "LIBMODULE_CTX_STOPPED"
def M_PS_CTX_TICK : String := "LIBMODULE_CTX_TICK"
def M_PS_MOD_STARTED : String := "LIBMODULE_MOD_STARTED"
def M_PS_MOD_STOPPED : String := "LIBMODULE_MOD_STOPPED"
def M_PS_MOD_POISONPILL : String := "LIBMODULE_MOD_POISONPILL"

def SIZE_MAX : ℕ := 2 ^ 64 - 1
def UINT64_MAX : ℕ := 2 ^ 64 - 1
def BILLION : ℕ := 1000000000

/-! ## Objects -/

/-- A user pointer; the timers of batching and of the token bucket point into
their module. -/
inductive Userptr where
  | user (p : ℕ)
  | batch (m : ℕ)
  | tb (m : ℕ)
  deriving DecidableEq, Repr

/-- `ev_src_t`; a subscription has a topic, any other source a key. -/
structure EvSource where
  type : MSrcType
  flags : ℕ
  fd : Option ℕ
  key : Words
  topic : Option String
  ev : Bool
  mod : Option ℕ
  userptr : Userptr

/-- `ps_priv_t` -/
structure PsPriv where
  system : Bool
  sender : Option ℕ
  topic : Option String
  data : Option ℕ
  flags : ℕ
  sub : Option ℕ
  deriving DecidableEq, Repr

/-- The union of event data. -/
inductive EvtData where
  | null
  | ps (msg : ℕ)
  | other
  deriving DecidableEq, Repr

/-- `evt_priv_t` -/
structure EvtPriv where
  type : MSrcType
  data : EvtData
  src : Option ℕ
  userdata : Userptr
  deriving DecidableEq, Repr

/-- The functions of `m_mod_hook_t` that a module has. -/
structure ModHooks where
  onEval : Bool
  onStart : Bool
  onEvt : Bool
  onStop : Bool
  deriving DecidableEq, Repr

/-- A string-keyed map, in the order of its table. -/
abbrev NameTable := List (String × ℕ)

/-- `struct _mod` -/
structure Mod where
  state : ModState
  flags : ℕ
  name : String
  hook : ModHooks
  pubsubFd0 : Option ℕ
  pubsubFd1 : Option ℕ
  recvs : List ℕ
  batchLen : ℕ
  batchTimer : ℕ
  batchEvents : List ℕ
  tbRate : ℕ
  tbBurst : ℕ
  tbTokens : ℕ
  tbTimer : ℕ
  srcs : MSrcType → NodeTree ℕ
  subscriptions : NameTable
  stashed : List ℕ
  boundMods : List ℕ
  ctx : ℕ

/-- `struct _ctx`, with the events that the last `poll_wait` stored. -/
structure Ctx where
  flags : ℕ
  looping : Bool
  quit : Bool
  quitCode : ℤ
  finalized : Bool
  modules : NameTable
  currMod : Option ℕ
  maxEvents : ℕ
  pevents : Option (List (Option ℕ × Bool))
  runningModules : ℕ
  tick : Option ℕ

inductive Obj where
  | ctx (c : Ctx)
  | mod (m : Mod)
  | src (s : EvSource)
  | msg (g : PsPriv)
  | evt (e : EvtPriv)

/-! ## The operating system -/

inductive File where
  | closed
  | pipeRead (pipe : ℕ)
  | pipeWrite (pipe : ℕ)
  | other
  deriving DecidableEq, Repr

/-- An entry of the epoll set of a context. -/
structure Watch where
  ctx : ℕ
  fd : ℕ
  src : ℕ
  deriving DecidableEq, Repr

/-- The state outside of the heap, with a ledger of the user's memory that the
library frees, and for which object. -/
structure Sys where
  errno : ℤ
  files : List File
  pipes : List (List ℕ)
  epoll : List Watch
  faults : List ℤ
  freedData : List (ℕ × ℕ)
  freedUserptr : List (ℕ × Userptr)

/-- What the code runs on: comparators of sources, regular expressions, the
place of a new key in a table, the place of an iteration in a table that a callback
has changed, loadable modules, the strings of the user, and the room in a pipe. -/
structure Host where
  srcCmp : MSrcType → Words → Words → Option ℤ
  regcomp : String → ℤ
  regexec : String → String → Bool
  place : List String → String → ℕ
  slot : List String → ℕ → List String → ℕ
  plugin : String → Option ModHooks
  mem : UserMem
  pipeCapacity : ℕ

/-- What `epoll_wait` finds: ready sources, some of them in error, or an error. -/
structure PollAnswer where
  ready : List (ℕ × Bool)
  errno : ℤ
  deriving DecidableEq, Repr

/-- The variables of a `recv_events` in progress: the context whose events it
handles, the index of the next one, and how many there are. -/
structure Batch where
  ctx : ℕ
  next : ℕ
  nfds : ℕ
  deriving DecidableEq, Repr

/-! ## Reading objects -/

def ctxAt (h : Heap Obj) (c : ℕ) : Option Ctx :=
  match val h c with
  | some (.ctx x) => some x
  | _ => none

def modAt (h : Heap Obj) (m : ℕ) : Option Mod :=
  match val h m with
  | some (.mod x) => some x
  | _ => none

def srcAt (h : Heap Obj) (s : ℕ) : Option EvSource :=
  match val h s with
  | some (.src x) => some x
  | _ => none

def msgAt (h : Heap Obj) (g : ℕ) : Option PsPriv :=
  match val h g with
  | some (.msg x) => some x
  | _ => none

def evtAt (h : Heap Obj) (e : ℕ) : Option EvtPriv :=
  match val h e with
  | some (.evt x) => some x
  | _ => none

section Views

variable {h : Heap Obj} {p : ℕ}

@[simp] theorem ctxAt_eq_some {x : Ctx} : ctxAt h p = some x ↔ val h p = some (.ctx x) := by
  unfold ctxAt
  split <;> simp_all

@[simp] theorem modAt_eq_some {x : Mod} : modAt h p = some x ↔ val h p = some (.mod x) := by
  unfold modAt
  split <;> simp_all

@[simp] theorem srcAt_eq_some {x : EvSource} : srcAt h p = some x ↔ val h p = some (.src x) := by
  unfold srcAt
  split <;> simp_all

@[simp] theorem msgAt_eq_some {x : PsPriv} : msgAt h p = some x ↔ val h p = some (.msg x) := by
  unfold msgAt
  split <;> simp_all

@[simp] theorem evtAt_eq_some {x : EvtPriv} : evtAt h p = some x ↔ val h p = some (.evt x) := by
  unfold evtAt
  split <;> simp_all

theorem ctxAt_lt_length {x : Ctx} (hx : ctxAt h p = some x) : p < h.length := by
  obtain ⟨cell, hcell, -⟩ := Option.map_eq_some_iff.mp (ctxAt_eq_some.mp hx)
  exact lt_length hcell

theorem modAt_lt_length {x : Mod} (hx : modAt h p = some x) : p < h.length := by
  obtain ⟨cell, hcell, -⟩ := Option.map_eq_some_iff.mp (modAt_eq_some.mp hx)
  exact lt_length hcell

end Views

namespace Obj

def mapCtx (f : Ctx → Ctx) : Obj → Obj
  | .ctx c => .ctx (f c)
  | o => o

def mapMod (f : Mod → Mod) : Obj → Obj
  | .mod m => .mod (f m)
  | o => o

def mapSrc (f : EvSource → EvSource) : Obj → Obj
  | .src s => .src (f s)
  | o => o

def mapEvt (f : EvtPriv → EvtPriv) : Obj → Obj
  | .evt e => .evt (f e)
  | o => o

end Obj

section Modify

variable (h : Heap Obj) (m p : ℕ)

theorem modAt_modify_mod (f : Mod → Mod) :
    modAt (modify h m (Obj.mapMod f)) p =
      if m = p then (modAt h p).map f else modAt h p := by
  unfold modAt
  by_cases hmp : m = p
  · simp only [val_modify, hmp, if_true]
    cases val h p with
    | none => rfl
    | some o => cases o <;> rfl
  · simp only [val_modify, hmp, if_false]

theorem ctxAt_modify_ctx (f : Ctx → Ctx) :
    ctxAt (modify h m (Obj.mapCtx f)) p =
      if m = p then (ctxAt h p).map f else ctxAt h p := by
  unfold ctxAt
  by_cases hmp : m = p
  · simp only [val_modify, hmp, if_true]
    cases val h p with
    | none => rfl
    | some o => cases o <;> rfl
  · simp only [val_modify, hmp, if_false]

theorem modAt_modify_ctx (f : Ctx → Ctx) :
    modAt (modify h m (Obj.mapCtx f)) p = modAt h p := by
  unfold modAt
  rw [val_modify]
  by_cases hmp : m = p
  · rw [if_pos hmp]
    cases val h p with
    | none => rfl
    | some o => cases o <;> rfl
  · rw [if_neg hmp]

theorem ctxAt_modify_mod (f : Mod → Mod) :
    ctxAt (modify h m (Obj.mapMod f)) p = ctxAt h p := by
  unfold ctxAt
  rw [val_modify]
  by_cases hmp : m = p
  · rw [if_pos hmp]
    cases val h p with
    | none => rfl
    | some o => cases o <;> rfl
  · rw [if_neg hmp]

theorem srcAt_modify_mod (f : Mod → Mod) :
    srcAt (modify h m (Obj.mapMod f)) p = srcAt h p := by
  unfold srcAt
  rw [val_modify]
  by_cases hmp : m = p
  · rw [if_pos hmp]
    cases val h p with
    | none => rfl
    | some o => cases o <;> rfl
  · rw [if_neg hmp]

end Modify

/-! ## Tables -/

namespace NameTable

def get (t : NameTable) (name : String) : Option ℕ := (t.find? (fun e => e.1 == name)).map Prod.snd

def contains (t : NameTable) (name : String) : Bool := t.any (fun e => e.1 == name)

def put (host : Host) (t : NameTable) (name : String) (value : ℕ) : NameTable :=
  if t.contains name then t.map (fun e => if e.1 == name then (name, value) else e)
  else t.insertIdx (min (host.place (t.map Prod.fst) name) t.length) (name, value)

def remove (t : NameTable) (name : String) : NameTable := t.filter (fun e => e.1 != name)

def values (t : NameTable) : List ℕ := t.map Prod.snd

end NameTable

/-! ## The words of a source -/

def fdWord : Option ℕ → BitVec 32
  | none => -1
  | some fd => BitVec.ofNat 32 fd

/-- The first words of an `ev_src_t`: its descriptor, then its key. -/
def EvSource.words (s : EvSource) : Words :=
  if s.type.privFd then
    memcpy (Function.update (fun _ => 0) 0 (fdWord s.fd)) s.type.keyOffset s.key s.type.keySize
  else fun _ => fdWord s.fd

/-- The key structure `m_src_tmr_t` for the monotonic clock. -/
def tmrKey (ns : ℕ) : Words := fun i =>
  if i = 0 then 1
  else if i = 2 then BitVec.ofNat 32 ns
  else if i = 3 then BitVec.ofNat 32 (ns >>> 32)
  else 0

def taskcmp (my node : Words) : Option ℤ := some (my 0 - node 2).toInt

/-- The comparators of the library; the one for thresholds works on floating
point numbers and is a parameter. -/
def srcCmpTable (mem : UserMem) (threshcmp : Words → Words → Option ℤ) :
    MSrcType → Words → Words → Option ℤ
  | .ps => fdcmp
  | .fd => srcCmpMap mem .fd
  | .tmr => srcCmpMap mem .tmr
  | .sgn => srcCmpMap mem .sgn
  | .path => srcCmpMap mem .path
  | .pid => srcCmpMap mem .pid
  | .task => taskcmp
  | .thresh => threshcmp

end Libmodule
