import Libmodule.Interface
import Libmodule.TreeCalls

/-!
# Operations

What the code of the core does in one step: it reads and writes the fields of
objects, calls the containers and the reference counts, makes system calls, and
works on the epoll set through the poll plugin.  An operation that follows a
`NULL` or dangling pointer has no result.
-/

namespace Libmodule

open RefHeap SearchTree Reentrant

/-! ## System calls -/

def EBADF : ℤ := 9

namespace Sys

/-- The error number of the next fallible system call, 0 for success. -/
def fault (s : Sys) : ℤ × Sys :=
  match s.faults with
  | [] => (0, s)
  | e :: faults => (e, { s with faults := faults })

theorem fault_eq (s : Sys) :
    s.fault = (s.faults.headD 0, { s with faults := s.faults.tail }) := by
  obtain ⟨errno, files, pipes, epoll, faults, freedData, freedUserptr⟩ := s
  cases faults <;> rfl

def file (s : Sys) (fd : Option ℕ) : File := (fd.bind (fun fd => s.files[fd]?)).getD .closed

/-- A closed descriptor also leaves every epoll set. -/
def close (s : Sys) (fd : Option ℕ) : Sys :=
  match fd, s.file fd with
  | none, _ => { s with errno := EBADF }
  | some _, .closed => { s with errno := EBADF }
  | some fd, _ =>
      { s with
        files := s.files.set fd .closed
        epoll := s.epoll.filter (fun watch => watch.fd != fd) }

def pipe (s : Sys) : Option (ℕ × ℕ) × Sys :=
  let (e, s) := s.fault
  if e ≠ 0 then (none, { s with errno := e })
  else
    (some (s.files.length, s.files.length + 1),
      { s with
        files := s.files ++ [.pipeRead s.pipes.length, .pipeWrite s.pipes.length]
        pipes := s.pipes ++ [[]] })

/-- The messages that wait in the pipe a descriptor reads from. -/
def waiting (s : Sys) (fd : Option ℕ) : List ℕ :=
  match s.file fd with
  | .pipeRead p => (s.pipes[p]?).getD []
  | _ => []

/-- `read` of one message pointer. -/
def readMsg (s : Sys) (fd : Option ℕ) : Option ℕ × Sys :=
  match s.file fd with
  | .pipeRead p =>
      match (s.pipes[p]?).getD [] with
      | [] => (none, { s with errno := EAGAIN })
      | msg :: msgs => (some msg, { s with pipes := s.pipes.set p msgs })
  | _ => (none, { s with errno := EBADF })

/-- `write` of one message pointer; whether it fits. -/
def writeMsg (s : Sys) (capacity : ℕ) (fd : Option ℕ) (msg : ℕ) : Bool × Sys :=
  match s.file fd with
  | .pipeWrite p =>
      let msgs := (s.pipes[p]?).getD []
      if msgs.length < capacity then (true, { s with pipes := s.pipes.set p (msgs ++ [msg]) })
      else (false, { s with errno := EAGAIN })
  | _ => (false, { s with errno := EBADF })

/-- `read` of the descriptor that the poll plugin made for a source. -/
def readPriv (s : Sys) : ℤ × Sys :=
  let (e, s) := s.fault
  if e ≠ 0 then (e, { s with errno := e }) else (0, s)

def createPrivFd (s : Sys) : Option ℕ × Sys :=
  let (e, s) := s.fault
  if e ≠ 0 then (none, { s with errno := e })
  else (some s.files.length, { s with files := s.files ++ [.other] })

/-- `dup`, which fails on what is not open. -/
def dup (s : Sys) (fd : Option ℕ) : Option ℕ × Sys :=
  match s.file fd with
  | .closed => (none, { s with errno := EBADF })
  | file =>
      let (e, s) := s.fault
      if e ≠ 0 then (none, { s with errno := e })
      else (some s.files.length, { s with files := s.files ++ [file] })

def epollAdd (s : Sys) (c : ℕ) (fd : Option ℕ) (src : ℕ) : ℤ × Sys :=
  match fd, s.file fd with
  | none, _ => (-1, { s with errno := EBADF })
  | some _, .closed => (-1, { s with errno := EBADF })
  | some fd, _ =>
      if s.epoll.any (fun watch => watch.ctx == c && watch.fd == fd) then
        (-1, { s with errno := EEXIST })
      else
        let (e, s) := s.fault
        if e ≠ 0 then (-1, { s with errno := e })
        else (0, { s with epoll := s.epoll ++ [⟨c, fd, src⟩] })

def epollDel (s : Sys) (c : ℕ) (fd : Option ℕ) : ℤ × Sys :=
  match fd, s.file fd with
  | none, _ => (-1, { s with errno := EBADF })
  | some _, .closed => (-1, { s with errno := EBADF })
  | some fd, _ =>
      if s.epoll.any (fun watch => watch.ctx == c && watch.fd == fd) then
        (0, { s with
          epoll := s.epoll.filter (fun watch => !(watch.ctx == c && watch.fd == fd)) })
      else (-1, { s with errno := ENOENT })

end Sys

inductive OpType where
  | add
  | rm
  deriving DecidableEq

/-- `poll_set_new_evt` of the epoll plugin, on the source `src` at `p`. -/
def pollSetNewEvt (c p : ℕ) (src : EvSource) (flag : OpType) (s : Sys) :
    ℤ × EvSource × Sys :=
  if src.ev = false ∧ flag = .rm then (0, src, s)
  else
    let src := { src with ev := true }
    let s := { s with errno := 0 }
    match flag with
    | .add =>
        let (fd, s) := if src.type.privFd then s.createPrivFd else (src.fd, s)
        let src := { src with fd := fd }
        let (ret, s) := s.epollAdd c fd p
        (if ret = -1 ∧ fd = some 0 ∧ s.errno = EPERM then 0 else ret, src, s)
    | .rm =>
        let (ret, s) := s.epollDel c src.fd
        let ret := if ret = -1 ∧ src.fd = some 0 ∧ s.errno = EPERM then 0 else ret
        let src := { src with ev := false }
        if src.type.privFd then (ret, { src with fd := none }, s.close src.fd)
        else (ret, src, s)

/-! ## Destructors -/

/-- The references an object holds, in the order its destructor drops them. -/
def Obj.owns : Obj → List ℕ
  | .ctx c => c.tick.toList ++ c.modules.values
  | .mod m =>
      m.ctx :: m.subscriptions.values ++ m.stashed ++ m.batchEvents ++ m.boundMods ++
        MSrcType.all.flatMap (fun type => (m.srcs type).values)
  | .src _ => []
  | .msg g => g.sender.toList
  | .evt e =>
      e.src.toList ++
        match e.data with
        | .ps g => [g]
        | _ => []

/-- A source of a running module leaves the epoll set. -/
def srcDisarm (h : Heap Obj) (p : ℕ) (t : EvSource) (s : Sys) : Option Sys :=
  match t.mod with
  | none => some s
  | some m => do
      let mod ← modAt h m
      if mod.state = .running then
        let _ ← ctxAt h mod.ctx
        some (pollSetNewEvt mod.ctx p t .rm s).2.2
      else some s

def srcAutoclose (t : EvSource) (s : Sys) : Sys :=
  if hasFlag t.flags M_SRC_FD_AUTOCLOSE && !t.type.privFd && t.fd.isSome then s.close t.fd else s

def srcAutofree (p : ℕ) (t : EvSource) (s : Sys) : Sys :=
  if hasFlag t.flags M_SRC_AUTOFREE then
    { s with freedUserptr := s.freedUserptr ++ [(p, t.userptr)] }
  else s

def srcPrivDtor (h : Heap Obj) (p : ℕ) (t : EvSource) (s : Sys) : Option Sys :=
  (srcDisarm h p t s).map (fun s => srcAutofree p t (srcAutoclose t s))

def subscribtionsDtor (p : ℕ) (sub : EvSource) (s : Sys) : Sys := srcAutofree p sub s

def psMsgDtor (p : ℕ) (g : PsPriv) (s : Sys) : Sys :=
  if hasFlag g.flags M_PS_AUTOFREE then
    { s with freedData := s.freedData ++ g.data.toList.map (fun data => (p, data)) }
  else s

/-- `ctx_dtor`: the tick stops, and the epoll set is closed. -/
def ctxDtor (h : Heap Obj) (p : ℕ) (c : Ctx) (s : Sys) : Sys :=
  let s := match c.tick.bind (fun tick => (srcAt h tick).map (fun t => (tick, t))) with
    | none => s
    | some (tick, t) => (pollSetNewEvt p tick t .rm s).2.2
  { s with epoll := s.epoll.filter (fun watch => watch.ctx != p) }

/-- What the destructor of an object does besides dropping references. -/
def Obj.dtor (h : Heap Obj) (p : ℕ) (o : Obj) (s : Sys) : Option Sys :=
  match o with
  | .ctx c => some (ctxDtor h p c s)
  | .mod _ => some s
  | .src t => if t.topic.isSome then some (subscribtionsDtor p t s) else srcPrivDtor h p t s
  | .msg g => some (psMsgDtor p g s)
  | .evt _ => some s

/-! ## Fields -/

inductive CtxField where
  | looping (b : Bool)
  | quit (b : Bool)
  | quitCode (code : ℤ)
  | finalized (b : Bool)
  | currMod (m : Option ℕ)

def CtxField.set (c : Ctx) : CtxField → Ctx
  | .looping b => { c with looping := b }
  | .quit b => { c with quit := b }
  | .quitCode code => { c with quitCode := code }
  | .finalized b => { c with finalized := b }
  | .currMod m => { c with currMod := m }

inductive ModField where
  | noPubsubFd
  | recvs (recvs : List ℕ)
  | batchLen (len : ℕ)
  | batchTimer (ns : ℕ)
  | tb (rate burst tokens timer : ℕ)
  | tbTokens (tokens : ℕ)

def ModField.set (m : Mod) : ModField → Mod
  | .noPubsubFd => { m with pubsubFd0 := none, pubsubFd1 := none }
  | .recvs cbs => { m with recvs := cbs }
  | .batchLen len => { m with batchLen := len }
  | .batchTimer ns => { m with batchTimer := ns }
  | .tb rate burst tokens timer =>
      { m with tbRate := rate, tbBurst := burst, tbTokens := tokens, tbTimer := timer }
  | .tbTokens tokens => { m with tbTokens := tokens }

/-- The containers of a module that hold references. -/
inductive ModQueue where
  | subscriptions
  | stashed
  | batchEvents
  | boundMods
  deriving DecidableEq

def ModQueue.elems (m : Mod) : ModQueue → List ℕ
  | .subscriptions => m.subscriptions.values
  | .stashed => m.stashed
  | .batchEvents => m.batchEvents
  | .boundMods => m.boundMods

def ModQueue.clear (m : Mod) : ModQueue → Mod
  | .subscriptions => { m with subscriptions := [] }
  | .stashed => { m with stashed := [] }
  | .batchEvents => { m with batchEvents := [] }
  | .boundMods => { m with boundMods := [] }

/-! ## New objects -/

def Ctx.initial (flags : ℕ) : Ctx where
  flags := flags
  looping := false
  quit := false
  quitCode := 0
  finalized := false
  modules := []
  currMod := none
  maxEvents := 0
  pevents := none
  runningModules := 0
  tick := none

def Mod.initial (c : ℕ) (name : String) (flags : ℕ) (hook : Option ModHooks) : Mod where
  state := .unset
  flags := flags
  name := name
  hook := hook.getD ⟨false, false, false, false⟩
  pubsubFd0 := none
  pubsubFd1 := none
  recvs := []
  batchLen := 0
  batchTimer := 0
  batchEvents := []
  tbRate := 0
  tbBurst := UINT64_MAX
  tbTokens := UINT64_MAX
  tbTimer := 0
  srcs := fun _ => .leaf
  subscriptions := []
  stashed := []
  boundMods := []
  ctx := c

def EvSource.subscription (m : ℕ) (topic : String) (flags : ℕ) (userptr : Userptr) :
    EvSource where
  type := .ps
  flags := flags
  fd := none
  key := fun _ => 0
  topic := some topic
  ev := false
  mod := some m
  userptr := userptr

/-! ## Operations -/

/-- What became of a message that `flush_pubsub_msgs` read. -/
inductive Flushed where
  | empty
  | destroyed
  | event (e : ℕ)
  deriving DecidableEq

inductive Op where
  | get
  | setErrno (errno : ℤ)
  | setTls (c : Option ℕ)
  | refMod (m : ℕ)
  | unrefMod (m : ℕ)
  | unrefCtx (c : ℕ)
  | unrefEvt (e : ℕ)
  | setCtx (c : ℕ) (field : CtxField)
  | setMod (m : ℕ) (field : ModField)
  | markRunning (m : ℕ)
  | markStopped (m : ℕ) (stopping : Bool)
  | markZombie (m : ℕ)
  | newCtx (flags : ℕ)
  | newMod (c : ℕ) (name : String) (flags : ℕ) (hook : Option ModHooks)
  | newTick (c ns : ℕ)
  | dropTick (c : ℕ)
  | newEvt (src : Option ℕ)
  | setEvtOther (e : ℕ)
  | setEvtUserdata (e : ℕ) (userdata : Userptr)
  | processPs (e : ℕ)
  | setSrcUserptr (src : ℕ) (userptr : Userptr)
  | modulesRemove (c : ℕ) (name : String)
  | subscriptionsPut (m : ℕ) (topic : String) (flags : ℕ) (userptr : Userptr)
  | subscriptionsRemove (m : ℕ) (topic : String)
  | tell (m : ℕ) (msg : PsPriv) (sub : Option String)
  | flushMsg (m : ℕ) (stopping : Bool)
  | enqueueBatch (m e : ℕ)
  | takeBatch (m : ℕ)
  | stash (m e : ℕ)
  | unstash (m : ℕ)
  | bind (m ref : ℕ)
  | clear (m : ℕ) (queue : ModQueue)
  | addSrc (m : ℕ) (type : MSrcType) (key : Words) (flags : ℕ) (userptr : Userptr)
  | bstRemove (m : ℕ) (type : MSrcType) (data : Words)
  | bstItrRemove (m : ℕ) (type : MSrcType)
  | pipe (m : ℕ)
  | close (fd : Option ℕ)
  | readPriv
  | threadAdd
  | pollSetNewEvt (c src : ℕ) (flag : OpType)
  | pollInit (c maxEvents : ℕ)
  | pollWait (c : ℕ) (blocking : Bool)
  | pollRecv
  | pollDone
  | pollClear (c : ℕ)

@[reducible] def Op.Resp : Op → Type
  | .get => World
  | .newCtx _ => ℕ
  | .newMod .. => ℤ × ℕ
  | .newEvt _ => ℕ
  | .processPs _ => Option ℕ
  | .modulesRemove .. => ℤ
  | .subscriptionsPut .. => ℤ
  | .subscriptionsRemove .. => ℤ
  | .flushMsg .. => Flushed
  | .takeBatch _ => List ℕ
  | .unstash _ => Option ℕ
  | .addSrc .. => ℤ × ℕ
  | .bstRemove .. => ℤ
  | .bstItrRemove .. => ℤ
  | .pipe _ => ℤ
  | .readPriv => ℤ
  | .threadAdd => ℤ
  | .pollSetNewEvt .. => ℤ
  | .pollWait .. => Option ℕ
  | .pollRecv => Option ℕ
  | _ => Unit

namespace World

/-- Drops references, one after the other. -/
def unrefAll (w : World) (ps : List ℕ) : Option World := do
  let (heap, sys) ← release Obj.owns Obj.dtor (budget w.heap) (ps.map .unref) w.heap w.sys
  some { w with heap := heap, sys := sys }

def ref (w : World) (p : ℕ) : Option World := do
  let c ← RefHeap.get w.heap p
  some { w with heap := put w.heap p (some { c with refs := c.refs + 1 }) }

def setCtx (w : World) (c : ℕ) (f : Ctx → Ctx) : Option World := do
  let _ ← ctxAt w.heap c
  some { w with heap := modify w.heap c (Obj.mapCtx f) }

def setMod (w : World) (m : ℕ) (f : Mod → Mod) : Option World := do
  let _ ← modAt w.heap m
  some { w with heap := modify w.heap m (Obj.mapMod f) }

def setSrc (w : World) (s : ℕ) (f : EvSource → EvSource) : Option World := do
  let _ ← srcAt w.heap s
  some { w with heap := modify w.heap s (Obj.mapSrc f) }

def setEvt (w : World) (e : ℕ) (f : EvtPriv → EvtPriv) : Option World := do
  let _ ← evtAt w.heap e
  some { w with heap := modify w.heap e (Obj.mapEvt f) }

/-- A new object, and its address. -/
def new (w : World) (o : Obj) : ℕ × World :=
  (w.heap.length, { w with heap := alloc w.heap o })

def newEvt (w : World) (src : Option ℕ) : Option (ℕ × World) := do
  let p ← src
  let s ← srcAt w.heap p
  let w ← w.ref p
  some (w.new (.evt { type := s.type, data := .null, src := src, userdata := .user 0 }))

/-- `alloc_ps_msg`: the copy holds a reference to the sender, but none to the
subscription. -/
def allocPsMsg (w : World) (msg : PsPriv) (sub : Option ℕ) : Option (ℕ × World) := do
  let w ← match msg.sender with
    | none => some w
    | some sender => w.ref sender
  some (w.new (.msg { msg with sub := sub }))

/-- Allocates a copy of a message and writes it to the pipe of a module.  The
subscription is given by its topic in the table of the module.  When the write
fails the code drops a reference to the message on its stack, which is none. -/
def tell (w : World) (m : ℕ) (msg : PsPriv) (sub : Option String) : Option World := do
  let x ← modAt w.heap m
  let (g, w) ← w.allocPsMsg msg (sub.bind x.subscriptions.get)
  let written := w.sys.writeMsg w.host.pipeCapacity x.pubsubFd1 g
  if written.1 then some { w with sys := written.2 } else none

/-- One round of the loop of `flush_pubsub_msgs`. -/
def flushMsg (w : World) (m : ℕ) (stopping : Bool) : Option (Flushed × World) := do
  let x ← modAt w.heap m
  if x.pubsubFd0 = none then some (.empty, w)
  else
    let (read, sys) := w.sys.readMsg x.pubsubFd0
    let w := { w with sys := sys }
    match read with
    | none => some (.empty, w)
    | some mm => do
        let g ← msgAt w.heap mm
        if !stopping && x.state = .running then
          let (e, w) ← w.newEvt g.sub
          let w ← w.setEvt e (fun y => { y with data := .ps mm })
          some (.event e, w)
        else
          let w ← w.unrefAll [mm]
          some (.destroyed, w)

/-- `process_ps`: the event takes the message, and its subscription in place of
the source; the answer is the source that the event now has. -/
def processPs (w : World) (e : ℕ) : Option (Option ℕ × World) := do
  let x ← evtAt w.heap e
  let this ← x.src
  let s ← srcAt w.heap this
  let (read, sys) := w.sys.readMsg s.fd
  let w := { w with sys := sys }
  match read with
  | none => some (some this, w)
  | some mm => do
      let g ← msgAt w.heap mm
      let w ← w.setEvt e (fun y => { y with data := .ps mm, src := none })
      let w ← w.unrefAll [this]
      let w ← match g.sub with
        | none => some w
        | some sub => w.ref sub
      let w ← w.setEvt e (fun y => { y with src := g.sub })
      some (g.sub, w)

def modulesPut (w : World) (c : ℕ) (name : String) (m : ℕ) : Option (ℤ × World) := do
  let x ← ctxAt w.heap c
  let _ ← modAt w.heap m
  if x.modules.contains name then some (-EPERM, w)
  else
    let w ← w.setCtx c (fun x => { x with modules := x.modules.put w.host name m })
    some (0, w)

/-- A module is built for a context; it is destroyed again when an allocation fails with
`e`, when it has no hooks, or when the map has its name. -/
def buildMod (w : World) (e : ℤ) (c : ℕ) (name : String) (flags : ℕ) (hook : Option ModHooks) :
    Option ((ℤ × ℕ) × World) := do
  let w ← w.ref c
  let (m, w) := w.new (.mod (Mod.initial c name flags hook))
  if e ≠ 0 ∨ hook = none then
    let w ← w.unrefAll [m]
    some ((if e ≠ 0 then -ENOMEM else -EINVAL, m), w)
  else
    let (ret, w) ← w.modulesPut c name m
    if ret ≠ 0 then
      let w ← w.unrefAll [m]
      some ((-ENOMEM, m), w)
    else
      let w ← w.setMod m (fun x => { x with state := .idle })
      some ((0, m), w)

/-- A new module of a context. -/
def newMod (w : World) (c : ℕ) (name : String) (flags : ℕ) (hook : Option ModHooks) :
    Option ((ℤ × ℕ) × World) :=
  { w with sys := w.sys.fault.2 }.buildMod w.sys.fault.1 c name flags hook

def modulesRemove (w : World) (c : ℕ) (name : String) : Option (ℤ × World) := do
  let x ← ctxAt w.heap c
  if x.modules = [] then some (-EINVAL, w)
  else
    match x.modules.get name with
    | none => some (-ENOENT, w)
    | some m =>
        let w ← w.setCtx c (fun x => { x with modules := x.modules.remove name })
        let w ← w.unrefAll [m]
        some (0, w)

/-- A new subscription, stored under its topic; an old one is destroyed. -/
def subscriptionsPut (w : World) (m : ℕ) (topic : String) (flags : ℕ) (userptr : Userptr) :
    Option (ℤ × World) := do
  let x ← modAt w.heap m
  let old := x.subscriptions.get topic
  let (sub, w) := w.new (.src (EvSource.subscription m topic flags userptr))
  let w ← w.setMod m (fun x => { x with subscriptions := x.subscriptions.put w.host topic sub })
  let w ← w.unrefAll old.toList
  some (0, w)

def subscriptionsRemove (w : World) (m : ℕ) (topic : String) : Option (ℤ × World) := do
  let x ← modAt w.heap m
  if x.subscriptions = [] then some (-EINVAL, w)
  else
    match x.subscriptions.get topic with
    | none => some (-ENOENT, w)
    | some sub =>
        let w ← w.setMod m (fun x => { x with subscriptions := x.subscriptions.remove topic })
        let w ← w.unrefAll [sub]
        some (0, w)

/-- The comparisons of a search for `data` in a tree of sources. -/
def compareWith (w : World) (type : MSrcType) (data : Words) (node : ℕ) : Option ℤ := do
  let s ← srcAt w.heap node
  w.host.srcCmp type data s.words

def setTree (w : World) (m : ℕ) (type : MSrcType) (t : NodeTree ℕ) : Option World :=
  w.setMod m (fun x => { x with srcs := Function.update x.srcs type t })

/-- `create_src`, which may change the flags of the user. -/
def createSrc (m : Option ℕ) (type : MSrcType) (key : Words) (flags : ℕ) (userptr : Userptr)
    (sys : Sys) : EvSource × Sys :=
  let src : EvSource :=
    { type := type
      flags := flags
      fd := none
      key := key
      topic := none
      ev := false
      mod := m
      userptr := userptr }
  match type with
  | .ps =>
      let fd := some (key 0).toNat
      if hasFlag flags M_SRC_DUP then
        let (fd, sys) := sys.dup fd
        ({ src with fd := fd, flags := flags ||| M_SRC_FD_AUTOCLOSE }, sys)
      else ({ src with fd := fd }, sys)
  | .fd =>
      let fd := some (key 0).toNat
      if hasFlag flags M_SRC_DUP then
        let (fd, sys) := sys.dup fd
        ({ src with fd := fd, flags := flags ||| M_SRC_FD_AUTOCLOSE ||| M_SRC_PRIO_HIGH }, sys)
      else ({ src with fd := fd, flags := flags ||| M_SRC_PRIO_HIGH }, sys)
  | .task => ({ src with flags := flags ||| M_SRC_ONESHOT }, sys)
  | .thresh => ({ src with flags := flags ||| M_SRC_ONESHOT }, sys)
  | _ => (src, sys)

/-- A new source is inserted into its tree, or else destroyed. -/
def addSrc (w : World) (m : ℕ) (type : MSrcType) (key : Words) (flags : ℕ)
    (userptr : Userptr) : Option ((ℤ × ℕ) × World) := do
  let (src, sys) := createSrc (some m) type key flags userptr w.sys
  let (p, w) := { w with sys := sys }.new (.src src)
  let x ← modAt w.heap m
  let (ret, t) ← treeInsert (w.compareWith type src.words) p p (x.srcs type)
  if ret = 0 then
    let w ← w.setTree m type t
    some ((0, p), w)
  else
    let w ← w.unrefAll [p]
    some ((ret, p), w)

def bstRemove (w : World) (m : ℕ) (type : MSrcType) (data : Words) : Option (ℤ × World) := do
  let x ← modAt w.heap m
  let (ret, t, destroyed) ← treeRemove (w.compareWith type data) (x.srcs type)
  let w ← w.setTree m type t
  let w ← w.unrefAll destroyed.toList
  some (ret, w)

/-- Removal of the first source by an iterator. -/
def bstItrRemove (w : World) (m : ℕ) (type : MSrcType) : Option (ℤ × World) := do
  let x ← modAt w.heap m
  let w ← w.setTree m type (removeFirst (x.srcs type))
  let w ← w.unrefAll (destroyedRoot (leftmost [] (x.srcs type)).2).toList
  some (0, w)

/-- `_pipe`: both ends of a new pipe become those of the module. -/
def pipe (w : World) (m : ℕ) : Option (ℤ × World) := do
  match w.sys.pipe with
  | (none, sys) => some (-1, { w with sys := sys })
  | (some (fd0, fd1), sys) =>
      let w ← { w with sys := sys }.setMod m
        (fun x => { x with pubsubFd0 := some fd0, pubsubFd1 := some fd1 })
      some (0, w)

def pollSetEvt (w : World) (c src : ℕ) (flag : OpType) : Option (ℤ × World) := do
  let s ← srcAt w.heap src
  let _ ← ctxAt w.heap c
  let (ret, s, sys) := pollSetNewEvt c src s flag w.sys
  let w ← { w with sys := sys }.setSrc src (fun _ => s)
  some (ret, w)

/-- `poll_wait`: the number of events stored, or `none` when it waits forever. -/
def pollWait (w : World) (c : ℕ) (blocking : Bool) : Option (Option ℕ × World) := do
  let x ← ctxAt w.heap c
  let slots ← x.pevents
  match w.polls with
  | [] =>
      if blocking then some (none, w)
      else some (some 0, { w with batches := ⟨c, 0, 0⟩ :: w.batches })
  | answer :: polls =>
      let w := { w with polls := polls }
      if answer.errno ≠ 0 then
        some (some 0,
          { w with
            sys := { w.sys with errno := answer.errno }
            batches := ⟨c, 0, 0⟩ :: w.batches })
      else
        let ready := answer.ready.filterMap (fun event =>
          (w.sys.epoll.find? (fun watch => watch.ctx == c && watch.fd == event.1)).map
            (fun watch => (some watch.src, event.2)))
        let ready := ready.take x.maxEvents
        let w ← w.setCtx c (fun x =>
          { x with pevents := some (ready ++ slots.drop ready.length) })
        some (some ready.length, { w with batches := ⟨c, 0, ready.length⟩ :: w.batches })

/-- `poll_recv` of the next event of the loop in progress; `NULL` for an error
event. -/
def pollRecv (w : World) : Option (Option ℕ × World) := do
  match w.batches with
  | [] => none
  | batch :: batches => do
      let x ← ctxAt w.heap batch.ctx
      let slots ← x.pevents
      if batch.next < batch.nfds then
        let slot := (slots[batch.next]?).getD (none, false)
        some (if slot.2 then none else slot.1,
          { w with batches := { batch with next := batch.next + 1 } :: batches })
      else none

end World

section Fields

variable {w w' : World} {p : ℕ}

theorem World.setCtx_eq_some {f : Ctx → Ctx} : w.setCtx p f = some w' ↔
    (∃ x, ctxAt w.heap p = some x) ∧
      { w with heap := modify w.heap p (Obj.mapCtx f) } = w' := by
  unfold World.setCtx
  cases ctxAt w.heap p <;> simp

theorem World.setMod_eq_some {f : Mod → Mod} : w.setMod p f = some w' ↔
    (∃ x, modAt w.heap p = some x) ∧
      { w with heap := modify w.heap p (Obj.mapMod f) } = w' := by
  unfold World.setMod
  cases modAt w.heap p <;> simp

theorem World.setSrc_eq_some {f : EvSource → EvSource} : w.setSrc p f = some w' ↔
    (∃ x, srcAt w.heap p = some x) ∧
      { w with heap := modify w.heap p (Obj.mapSrc f) } = w' := by
  unfold World.setSrc
  cases srcAt w.heap p <;> simp

theorem World.setEvt_eq_some {f : EvtPriv → EvtPriv} : w.setEvt p f = some w' ↔
    (∃ x, evtAt w.heap p = some x) ∧
      { w with heap := modify w.heap p (Obj.mapEvt f) } = w' := by
  unfold World.setEvt
  cases evtAt w.heap p <;> simp

end Fields

/-- The step of an operation; `none` when it follows an invalid pointer. -/
def Op.exec (o : Op) (w : World) : Option (o.Resp × World) :=
  match o with
  | .get => some (w, w)
  | .setErrno errno => some ((), { w with sys := { w.sys with errno := errno } })
  | .setTls c => some ((), { w with tls := c })
  | .refMod m => do
      let _ ← modAt w.heap m
      let w ← w.ref m
      some ((), w)
  | .unrefMod m => do
      let _ ← modAt w.heap m
      let w ← w.unrefAll [m]
      some ((), w)
  | .unrefCtx c => do
      let _ ← ctxAt w.heap c
      let w ← w.unrefAll [c]
      some ((), w)
  | .unrefEvt e => do
      let _ ← evtAt w.heap e
      let w ← w.unrefAll [e]
      some ((), w)
  | .setCtx c field => (w.setCtx c field.set).map (fun w => ((), w))
  | .setMod m field => (w.setMod m field.set).map (fun w => ((), w))
  | .markRunning m => do
      let x ← modAt w.heap m
      let w ← w.setMod m (fun x => { x with state := .running })
      let w ← w.setCtx x.ctx (fun c => { c with runningModules := c.runningModules + 1 })
      some ((), w)
  | .markStopped m stopping => do
      let x ← modAt w.heap m
      let w ← if x.state = .running then
          w.setCtx x.ctx (fun c => { c with runningModules := c.runningModules - 1 })
        else some w
      let w ← w.setMod m (fun x => { x with state := if stopping then .stopped else .paused })
      some ((), w)
  | .markZombie m => (w.setMod m (fun x => { x with state := .zombie })).map (fun w => ((), w))
  | .newCtx flags => some (w.new (.ctx (Ctx.initial flags)))
  | .newMod c name flags hook => w.newMod c name flags hook
  | .newTick c ns => do
      let (src, sys) := World.createSrc none .tmr (tmrKey ns) 0 (.user 0) w.sys
      let (p, w) := { w with sys := sys }.new
        (.src { src with flags := M_SRC_PRIO_HIGH ||| M_SRC_INTERNAL })
      let w ← w.setCtx c (fun x => { x with tick := some p })
      some ((), w)
  | .dropTick c => do
      let x ← ctxAt w.heap c
      let w ← w.setCtx c (fun x => { x with tick := none })
      let w ← w.unrefAll x.tick.toList
      some ((), w)
  | .newEvt src => w.newEvt src
  | .setEvtOther e => (w.setEvt e (fun x => { x with data := .other })).map (fun w => ((), w))
  | .setEvtUserdata e userdata =>
      (w.setEvt e (fun x => { x with userdata := userdata })).map (fun w => ((), w))
  | .processPs e => w.processPs e
  | .setSrcUserptr src userptr =>
      (w.setSrc src (fun x => { x with userptr := userptr })).map (fun w => ((), w))
  | .modulesRemove c name => w.modulesRemove c name
  | .subscriptionsPut m topic flags userptr => w.subscriptionsPut m topic flags userptr
  | .subscriptionsRemove m topic => w.subscriptionsRemove m topic
  | .tell m msg sub => (w.tell m msg sub).map (fun w => ((), w))
  | .flushMsg m stopping => w.flushMsg m stopping
  | .enqueueBatch m e => do
      let _ ← evtAt w.heap e
      let w ← w.setMod m (fun x => { x with batchEvents := x.batchEvents ++ [e] })
      some ((), w)
  | .takeBatch m => do
      let x ← modAt w.heap m
      let w ← w.setMod m (fun x => { x with batchEvents := [] })
      some (x.batchEvents, w)
  | .stash m e => do
      let _ ← evtAt w.heap e
      let w ← w.ref e
      let w ← w.setMod m (fun x => { x with stashed := x.stashed ++ [e] })
      some ((), w)
  | .unstash m => do
      let x ← modAt w.heap m
      let w ← w.setMod m (fun x => { x with stashed := x.stashed.tail })
      some (x.stashed.head?, w)
  | .bind m ref => do
      let _ ← modAt w.heap m
      let w ← w.ref m
      let w ← w.setMod ref (fun x => { x with boundMods := m :: x.boundMods })
      some ((), w)
  | .clear m queue => do
      let x ← modAt w.heap m
      let w ← w.setMod m queue.clear
      let w ← w.unrefAll (queue.elems x)
      some ((), w)
  | .addSrc m type key flags userptr => w.addSrc m type key flags userptr
  | .bstRemove m type data => w.bstRemove m type data
  | .bstItrRemove m type => w.bstItrRemove m type
  | .pipe m => w.pipe m
  | .close fd => some ((), { w with sys := w.sys.close fd })
  | .readPriv => some (w.sys.readPriv.1, { w with sys := w.sys.readPriv.2 })
  | .threadAdd => some (w.sys.fault.1, { w with sys := w.sys.fault.2 })
  | .pollSetNewEvt c src flag => w.pollSetEvt c src flag
  | .pollInit c maxEvents =>
      (w.setCtx c (fun x => { x with maxEvents := maxEvents, pevents := some [] })).map
        (fun w => ((), w))
  | .pollWait c blocking => w.pollWait c blocking
  | .pollRecv => w.pollRecv
  | .pollDone => some ((), { w with batches := w.batches.tail })
  | .pollClear c => (w.setCtx c (fun x => { x with pevents := none })).map (fun w => ((), w))

end Libmodule
