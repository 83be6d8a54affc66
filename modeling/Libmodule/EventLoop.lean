import Libmodule.Lifecycle

/-!
# The loop

The functions of `core/ctx.c` and `core/evts.c` that receive events, hand them
to modules, and start and stop the loop of a context.
-/

namespace Libmodule

open RefHeap Reentrant

/-! ## Events -/

/-- `push_evt` -/
def pushEvt (m e : ℕ) : Lm Unit := do
  let src ← match (← derefEvt e).src with
    | none => pure none
    | some s => some <$> derefSrc s
  let isInternal := (src.map (fun s => hasFlag s.flags M_SRC_INTERNAL)).getD false
  let userptr := src.map EvSource.userptr
  if isInternal then
    act (.unrefEvt e)
    if userptr = some (.tb m) then
      let x ← derefMod m
      if x.tbTokens < x.tbBurst then act (.setMod m (.tbTokens (x.tbTokens + 1)))
    pushQueue m (userptr = some (.batch m))
  else
    act (.enqueueBatch m e)
    match src with
    | none => pushQueue m false
    | some s =>
        act (.setEvtUserdata e s.userptr)
        if hasFlag s.flags M_SRC_PRIO_HIGH then pushQueue m true
        else if hasFlag s.flags M_SRC_PRIO_LOW then return ()
        else pushQueue m false
where
  /-- Hands the queue to the module if it is forced or full. -/
  pushQueue (m : ℕ) (force : Bool) : Lm Unit := do
    let x ← derefMod m
    if x.batchEvents = [] then return ()
    if force ∨ x.batchEvents.length ≥ x.batchLen then
      let evts ← act (.takeBatch m)
      callPubsubCb m evts

/-- The process function of a source of a module: the source its event then
has. -/
def processSrc (p e : ℕ) : Lm (Option ℕ) := do
  match (← derefSrc p).type with
  | .ps => act (.processPs e)
  | .fd | .pid =>
      act (.setEvtOther e)
      return some p
  | .tmr | .sgn | .path | .task | .thresh =>
      act (.setEvtOther e)
      let _ ← act .readPriv
      return some p

def processTick (c : ℕ) : Lm Unit := do
  let _ ← act .readPriv
  let _ ← tellSystemPubsubMsg none c none M_PS_CTX_TICK

/-- A source that fires once is removed when it has fired. -/
def removeOneshot (m : ℕ) (p : Option ℕ) : Lm Unit := do
  match p with
  | none => return ()
  | some p =>
      let s ← derefSrc p
      if hasFlag s.flags M_SRC_ONESHOT then
        match s.type, s.topic with
        | .ps, some topic => let _ ← act (.subscriptionsRemove m topic)
        | type, _ => let _ ← act (.bstRemove m type s.words)

def isPoisonpill (x : EvtPriv) : Lm Bool := do
  match x.type, x.data with
  | .ps, .ps g => return (← derefMsg g).topic = some M_PS_MOD_POISONPILL
  | _, _ => return false

/-- The body of the loop of `recv_events` for a source of a module, from the
point where the source has processed its event and left `err` in `errno`. -/
def consumeEvt (m e : ℕ) (p : Option ℕ) (recved : ℕ) (err : ℤ) : Lm (ℕ × ℤ) := do
  if err ≠ 0 then
    act (.unrefEvt e)
    return (recved, err)
  removeOneshot m p
  let x ← derefEvt e
  if x.data = .null then
    act (.unrefEvt e)
    return (recved, err)
  if ← isPoisonpill x then
    let _ ← stop m true
    act (.unrefEvt e)
  else pushEvt m e
  return (recved + 1, err)

/-- The body of the loop of `recv_events`, with the number of events received
so far; it answers with their new number and the value of `err`. -/
def recvEvent (c recved : ℕ) : Lm (ℕ × ℤ) := do
  match ← act .pollRecv with
  | none => return (recved, EAGAIN)
  | some p =>
      match (← derefSrc p).mod with
      | none =>
          processTick c
          return (recved + 1, 0)
      | some m =>
          let e : ℕ ← act (.newEvt (some p))
          let p ← processSrc p e
          consumeEvt m e p recved (← getErrno)

def recvRounds (c : ℕ) : ℕ → ℕ → ℤ → Lm (ℕ × ℤ)
  | 0, recved, err => return (recved, err)
  | left + 1, recved, err => do
      if err ≠ 0 then return (recved, err)
      let (recved, err) ← recvEvent c recved
      recvRounds c left recved err

/-! ## Iterations over the modules of a context -/

def runIterFn (fn : IterFn) (m : ℕ) : Lm ℤ :=
  match fn with
  | .evaluateModule => evaluateModule m
  | .flushPubsubMsgs => flushPubsubMsgs false m
  | .ctxDestroyMods => modDeregister (some m) false

/-- `m_map_iterate` on the modules of a context, from an index on.  A callback that changes
the table may move its entries; the iteration stays at its slot, which is then at the
index that the host tells. -/
def iterate (fn : IterFn) (c idx : ℕ) : Lm ℤ := do
  let modules := (← derefCtx c).modules
  match modules[idx]? with
  | none => return 0
  | some (key, m) =>
      let rc ← runIterFn fn m
      if rc < 0 then return rc
      if rc > 0 then return 0
      let after := (← derefCtx c).modules
      let slot := (← getWorld).host.slot (modules.map Prod.fst) idx (after.map Prod.fst)
      if (after[slot]?).map Prod.fst ≠ some key then invoke (.iterate fn c slot)
      else if after.length ≠ modules.length then return -EACCES
      else invoke (.iterate fn c (slot + 1))

/-! ## The loop of a context -/

def loopQuit (c : ℕ) (quitCode : ℤ) : Lm ℤ := do
  act (.setCtx c (.quit true))
  act (.setCtx c (.quitCode (quitCode % 256)))
  return 0

def recvEvents (c : ℕ) (blocking : Bool) : Lm ℤ := do
  act (.setErrno 0)
  match ← act (.pollWait c blocking) with
  | none => Prog.halt
  | some nfds =>
      let (recved, err) ← recvRounds c nfds 0 (← getErrno)
      act .pollDone
      if recved > 0 ∧ err = 0 then
        let _ ← invoke (.iterate .evaluateModule c 0)
        return recved
      if err ≠ 0 ∧ err ≠ EINTR ∧ err ≠ EAGAIN then
        let _ ← loopQuit c err
        return -1
      return recved

/-- Arms or disarms the tick of a context. -/
def setTickEvt (c : ℕ) (flag : OpType) : Lm Unit := do
  match (← derefCtx c).tick with
  | none => return ()
  | some tick => let _ ← act (.pollSetNewEvt c tick flag)

def loopStart (c maxEvents : ℕ) : Lm ℤ := do
  act (.pollInit c maxEvents)
  act (.setCtx c (.looping true))
  act (.setCtx c (.quit false))
  act (.setCtx c (.quitCode 0))
  let _ ← invoke (.iterate .evaluateModule c 0)
  let _ ← tellSystemPubsubMsg none c none M_PS_CTX_STARTED
  setTickEvt c .add
  return 0

def loopStop (c : ℕ) : Lm ℤ := do
  act (.setCtx c (.looping false))
  let _ ← tellSystemPubsubMsg none c none M_PS_CTX_STOPPED
  let _ ← invoke (.iterate .flushPubsubMsgs c 0)
  setTickEvt c .rm
  act (.pollClear c)
  let x ← derefCtx c
  if x.modules = [] ∧ !hasFlag x.flags M_CTX_PERSIST then
    let _ ← invoke .mCtxDeregister
  return x.quitCode

/-- The loop of `m_ctx_loop_events`, with what follows it. -/
def loopRounds (c : ℕ) : Lm ℤ := do
  let x ← derefCtx c
  if x.quit = false ∧ x.runningModules > 0 then
    let _ ← recvEvents c true
    invoke (.loopRounds c)
  else loopStop c

/-! ## Public functions -/

def mCtxRegister (name : String) (flags : ℕ) : Lm ℤ := do
  if name = "" then return -EINVAL
  if (← getWorld).tls ≠ none then return -EEXIST
  let c : ℕ ← act (.newCtx flags)
  act (.setTls (some c))
  return 0

def mCtxDeregister : Lm ℤ :=
  ctxAssert fun c => do
    if (← derefCtx c).looping then return -EINVAL
    act (.setTls none)
    let _ ← invoke (.iterate .ctxDestroyMods c 0)
    act (.unrefCtx c)
    return 0

def mCtxLoopEvents (maxEvents : ℕ) : Lm ℤ :=
  ctxAssert fun c => do
    if maxEvents = 0 then return -EINVAL
    if (← derefCtx c).looping then return -EINVAL
    let ret ← loopStart c maxEvents
    if ret = 0 then invoke (.loopRounds c) else return ret

def mCtxQuit (quitCode : ℤ) : Lm ℤ :=
  ctxAssert fun c => do
    if !(← derefCtx c).looping then return -EINVAL
    loopQuit c quitCode

def M_CTX_DEFAULT_EVENTS : ℕ := 64

def mCtxDispatch : Lm ℤ :=
  ctxAssert fun c => do
    let x ← derefCtx c
    if !x.looping then loopStart c M_CTX_DEFAULT_EVENTS
    else if x.quit ∨ x.runningModules = 0 then loopStop c
    else recvEvents c false

def mCtxFinalize : Lm ℤ :=
  ctxAssert fun c => do
    act (.setCtx c (.finalized true))
    return 0

def mCtxSetTick (ns : ℕ) : Lm ℤ :=
  ctxAssert fun c => do
    setTickEvt c .rm
    act (.dropTick c)
    if ns ≠ 0 then
      act (.newTick c ns)
      if (← derefCtx c).looping then setTickEvt c .add
    return 0

def mModBecome (mod : Option ℕ) (onEvt : ℕ) : Lm ℤ :=
  modAssertState mod [.running] fun m => consumeToken m do
    act (.setMod m (.recvs (onEvt :: (← derefMod m).recvs)))
    return 0

def mModUnbecome (mod : Option ℕ) : Lm ℤ :=
  modAssertState mod [.running] fun m => consumeToken m do
    match (← derefMod m).recvs with
    | [] => return -EINVAL
    | _ :: recvs =>
        act (.setMod m (.recvs recvs))
        return 0

def mModStash (mod evt : Option ℕ) : Lm ℤ :=
  modAssertState mod [.running] fun m => do
    match evt with
    | none => return -EINVAL
    | some e => consumeToken m do
        let flags ← match (← derefEvt e).src with
          | none => pure 0
          | some s => EvSource.flags <$> derefSrc s
        if hasFlag flags M_SRC_PRIO_HIGH then return -EPERM
        act (.stash m e)
        return 0

/-- The loop of `m_mod_unstash` over the `left` events still stashed, from the
index `idx` on. -/
def unstashRounds (m len : ℕ) : ℕ → ℕ → List ℕ → Lm (List ℕ)
  | 0, _, unstashed => return unstashed
  | left + 1, idx, unstashed => do
      if idx + 1 = len then return unstashed
      match ← act (.unstash m) with
      | none => return unstashed
      | some e => unstashRounds m len left (idx + 1) (unstashed ++ [e])

def mModUnstash (mod : Option ℕ) (len : ℕ) : Lm ℤ :=
  modAssertState mod [.running] fun m => do
    if len = 0 then return -EINVAL
    consumeToken m do
      let unstashed ← unstashRounds m len (← derefMod m).stashed.length 0 []
      callPubsubCb m unstashed
      return unstashed.length

def mModSetBatchSize (mod : Option ℕ) (len : ℕ) : Lm ℤ :=
  modAssert mod fun m => consumeToken m do
    act (.setMod m (.batchLen len))
    return 0

def mModSetBatchTimeout (mod : Option ℕ) (ns : ℕ) : Lm ℤ :=
  modAssert mod fun m => do
    let x ← derefMod m
    if x.batchTimer ≠ 0 then
      let _ ← modSrcDeregister (some m) .tmr (tmrKey x.batchTimer)
    act (.setMod m (.batchTimer ns))
    if ns = 0 then return 0
    if (← derefMod m).batchLen = 0 then act (.setMod m (.batchLen SIZE_MAX))
    modSrcRegister (some m) .tmr (tmrKey ns) (M_SRC_INTERNAL ||| M_SRC_PRIO_HIGH) (.batch m)

/-! ## The machine -/

def bodyOf : Call → Lm ℤ
  | .mCtxRegister name flags => mCtxRegister name flags
  | .mCtxDeregister => mCtxDeregister
  | .mCtxLoopEvents maxEvents => mCtxLoopEvents maxEvents
  | .mCtxQuit quitCode => mCtxQuit quitCode
  | .mCtxDispatch => mCtxDispatch
  | .mCtxFinalize => mCtxFinalize
  | .mCtxSetTick ns => mCtxSetTick ns
  | .mModRegister name modRef hook flags => mModRegister name modRef hook flags
  | .mModDeregister mod => modDeregister mod true
  | .mModStart mod => mModStart mod
  | .mModPause mod => mModPause mod
  | .mModResume mod => mModResume mod
  | .mModStop mod => mModStop mod
  | .mModBind mod ref => mModBind mod ref
  | .mModSetTokenbucket mod rate burst => mModSetTokenbucket mod rate burst
  | .mModBecome mod onEvt => mModBecome mod onEvt
  | .mModUnbecome mod => mModUnbecome mod
  | .mModStash mod evt => mModStash mod evt
  | .mModUnstash mod len => mModUnstash mod len
  | .mModSetBatchSize mod len => mModSetBatchSize mod len
  | .mModSetBatchTimeout mod ns => mModSetBatchTimeout mod ns
  | .mModPsSubscribe mod topic flags userptr => mModPsSubscribe mod topic flags userptr
  | .mModPsUnsubscribe mod topic => mModPsUnsubscribe mod topic
  | .mModPsTell mod recipient message flags => mModPsTell mod recipient message flags
  | .mModPsPublish mod topic message flags => mModPsPublish mod topic message flags
  | .mModPsPoisonpill mod recipient => mModPsPoisonpill mod recipient
  | .mModSrcRegister mod type key flags userptr =>
      modSrcRegister mod type key flags (.user userptr)
  | .mModSrcDeregister mod type key => modSrcDeregister mod type key
  | .setErrno errno => do
      act (.setErrno errno)
      return 0
  | .iterate fn c idx => iterate fn c idx
  | .modBound fn m idx => modBound fn m idx
  | .loopRounds c => loopRounds c

/-- The library, with the user's code as its state gives it. -/
def machine : Machine LibLang World where
  exec := Op.exec
  body := bodyOf
  react := World.react

end Libmodule
