import Libmodule.CallRun
import Libmodule.Errno
import Mathlib.Logic.Function.Basic
import Mathlib.Tactic

/-!
# The files of modules

The part of the FUSE file system that opens and releases the file of a module:
every open file has a client, which holds a reference on the module, and the
module has a list of its clients.  With it go the deregistration of a module
and the stop of the loop of the context.

An access to a module, to the list of a module or to a client that has been
freed is a fault, written `none`.  Addresses are not used again, and a file is
named by the address of its client.  Poll handles are left out: they hold no
reference.
-/

namespace Libmodule

/-- `struct _mod`; `fs` tells whether `mod->fs` is set. -/
structure FsMod where
  refs : ℕ
  name : String
  zombie : Bool := false
  fs : Bool := false

/-- Modules, the lists of clients in their `fs_priv_t`, and the module of each client.  The map
of the context comes with the references that users, messages and events hold.  `fh` has the
files whose handle is set, and `openFiles` those that FUSE has open. -/
structure FuseFs where
  mods : ℕ → Option FsMod := fun _ => none
  privs : ℕ → Option (List ℕ) := fun _ => none
  clients : ℕ → Option ℕ := fun _ => none
  modules : List (String × ℕ) := []
  held : ℕ → ℕ := fun _ => 0
  fh : Finset ℕ := ∅
  openFiles : Finset ℕ := ∅
  nextMod : ℕ := 0
  nextClient : ℕ := 0

/-- The memory that `fs_open` gets. -/
structure FsOpenMem where
  client : Bool
  priv : Bool
  list : Bool
  node : Bool

inductive FsCall where
  | register (name : String)
  | ref (m : ℕ)
  | unref (m : ℕ)
  | deregister (m : ℕ) (fromUser : Bool)
  | fsOpen (mem : FsOpenMem) (path : Option String)
  | fsRelease (file : ℕ)
  | loopStop

def EISDIR : ℤ := 21

namespace FuseFs

def setMod (s : FuseFs) (m : ℕ) (f : FsMod → FsMod) : Option FuseFs := do
  let x ← s.mods m
  some { s with mods := Function.update s.mods m (some (f x)) }

def ref (s : FuseFs) (m : ℕ) : Option FuseFs := s.setMod m (fun x => { x with refs := x.refs + 1 })

/-- `m_mem_unref` of a module, which frees it with the last reference. -/
def unref (s : FuseFs) (m : ℕ) : Option FuseFs := do
  let x ← s.mods m
  some { s with
    mods := Function.update s.mods m
      (if x.refs = 1 then none else some { x with refs := x.refs - 1 }) }

def find (s : FuseFs) (name : String) : Option (String × ℕ) :=
  s.modules.find? (fun e => e.1 = name)

/-- `m_mod_register`, with a reference for the user. -/
def mModRegister (s : FuseFs) (name : String) : ℤ × FuseFs :=
  if (s.find name).isSome then (-EEXIST, s)
  else
    (0, { s with
      mods := Function.update s.mods s.nextMod (some { refs := 2, name := name })
      modules := s.modules ++ [(name, s.nextMod)]
      held := Function.update s.held s.nextMod 1
      nextMod := s.nextMod + 1 })

def clientDtor (s : FuseFs) (cl : ℕ) : Option FuseFs := do
  let m ← s.clients cl
  let s ← s.unref m
  some { s with clients := Function.update s.clients cl none }

/-- `m_list_remove` of the list of a module, with `client_dtor` as its destructor. -/
def listRemove (s : FuseFs) (m cl : ℕ) : Option FuseFs := do
  let l ← s.privs m
  if cl ∈ l then
    clientDtor { s with privs := Function.update s.privs m (some (l.erase cl)) } cl
  else some s

/-- The list and `fs_priv_t` of a module are freed, and `mod->fs` is reset. -/
def freeFs (s : FuseFs) (m : ℕ) : Option FuseFs := do
  let l ← s.privs m
  let s ← l.foldlM clientDtor s
  setMod { s with privs := Function.update s.privs m none } m (fun x => { x with fs := false })

/-- The list of clients of a module, a new one if it has none. -/
def clientList (s : FuseFs) (m : ℕ) (x : FsMod) : Option (List ℕ) :=
  if x.fs then s.privs m else some []

/-- `fs_open`; the path is `none` if it is empty, and otherwise the name after the slash.  The
result of `m_list_insert` is not looked at. -/
def fsOpen (s : FuseFs) (mem : FsOpenMem) (path : Option String) : Option (ℤ × FuseFs) :=
  match path with
  | none => some (-EISDIR, s)
  | some name =>
      match s.find name with
      | none => some (-ENOENT, s)
      | some (_, m) => do
          let x ← s.mods m
          if mem.client && (x.fs || mem.priv && mem.list) then
            let l ← s.clientList m x
            let s ← s.setMod m (fun x => { x with refs := x.refs + 1, fs := true })
            some (0, { s with
              privs := Function.update s.privs m (some (if mem.node then s.nextClient :: l else l))
              clients := Function.update s.clients s.nextClient (some m)
              fh := insert s.nextClient s.fh
              openFiles := insert s.nextClient s.openFiles
              nextClient := s.nextClient + 1 })
          else some (-ENOMEM, s)

def fsRelease (s : FuseFs) (file : ℕ) : Option (ℤ × FuseFs) :=
  if file ∉ s.fh then some (-ENOENT, s)
  else do
    let m ← s.clients file
    let s := { s with fh := s.fh.erase file, openFiles := s.openFiles.erase file }
    let x ← s.mods m
    if x.fs then
      let s ← s.listRemove m file
      let l ← s.privs m
      if l.length = 0 then
        let s ← s.freeFs m
        some (0, s)
      else some (0, s)
    else some (-ENOENT, s)

/-- `fs_cleanup`, which wakes up the clients of a module. -/
def fsCleanup (s : FuseFs) (m : ℕ) : Option FuseFs := do
  let x ← s.mods m
  if x.fs then
    let l ← s.privs m
    let _ ← l.mapM s.clients
    some s
  else some s

/-- `mod_deregister`; the module is locked meanwhile, and the reference of the user goes. -/
def modDeregister (s : FuseFs) (m : ℕ) (fromUser : Bool) : Option (ℤ × FuseFs) := do
  let x ← s.mods m
  if x.zombie then some (-EACCES, s)
  else
    let s ← s.ref m
    match s.find x.name with
    | none =>
        let s ← s.unref m
        some (-ENOENT, s)
    | some e =>
        let s ← unref { s with modules := s.modules.erase e } e.2
        let s ← s.setMod m (fun x => { x with zombie := true })
        let s ← s.fsCleanup m
        let s ← if fromUser then
            unref { s with held := Function.update s.held m (s.held m - 1) } m
          else some s
        let s ← s.unref m
        some (0, s)

def fsCtxStopped (s : FuseFs) (m : ℕ) : Option FuseFs := do
  let x ← s.mods m
  if x.fs then s.freeFs m else some s

/-- `loop_stop`: the modules of the context are told, and then `fs_stop` destroys the handler of
FUSE, which closes its files.  The handles keep their values. -/
def loopStop (s : FuseFs) : Option FuseFs := do
  let s ← s.modules.foldlM (fun s e => s.fsCtxStopped e.2) s
  some { s with openFiles := ∅ }

/-- A user can only pass a module on which there is a reference, and the context one of its own. -/
def exec (s : FuseFs) : FsCall → Option (ℤ × FuseFs)
  | .register name => some (s.mModRegister name)
  | .ref m =>
      if s.held m = 0 then some (-EINVAL, s)
      else do
        let s ← s.ref m
        some (0, { s with held := Function.update s.held m (s.held m + 1) })
  | .unref m =>
      if s.held m = 0 then some (-EINVAL, s)
      else do
        let s ← s.unref m
        some (0, { s with held := Function.update s.held m (s.held m - 1) })
  | .deregister m fromUser =>
      if fromUser = true ∧ s.held m = 0 ∨ fromUser = false ∧ m ∉ s.modules.map Prod.snd then
        some (-EINVAL, s)
      else s.modDeregister m fromUser
  | .fsOpen mem path => s.fsOpen mem path
  | .fsRelease file => s.fsRelease file
  | .loopStop => do
      let s ← s.loopStop
      some (0, s)

end FuseFs
end Libmodule
