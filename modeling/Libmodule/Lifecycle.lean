import Libmodule.PubSub

/-!
# Modules

The functions of `core/mod.c` and `core/src.c` that register, start, pause,
stop and deregister modules and their sources.
-/

namespace Libmodule

open RefHeap Reentrant

/-! ## Sources -/

def registerModSrc (mod : Option ℕ) (type : MSrcType) (key : Words) (flags : ℕ)
    (userptr : Userptr) : Lm ℤ :=
  modAssert mod fun m => consumeToken m do
    if prioFlags flags ∉ [0, 1, 2, 4] then return -EINVAL
    let flags := if prioFlags flags = 0 then flags ||| M_SRC_PRIO_NORM else flags
    let (ret, src) : ℤ × ℕ ← act (.addSrc m type key flags userptr)
    if ret ≠ 0 then return ret
    let x ← derefMod m
    if x.state = .running then
      let ret : ℤ ← act (.pollSetNewEvt x.ctx src .add)
      let ret : ℤ ← if ret = 0 ∧ type = .task then act .threadAdd else pure ret
      let errno ← getErrno
      return if ret = 0 then 0 else -errno
    return 0

def deregisterModSrc (mod : Option ℕ) (type : MSrcType) (key : Words) : Lm ℤ :=
  modAssert mod fun m => consumeToken m (act (.bstRemove m type key))

/-- The checks that the public functions of a type make on a key; `none` where
they follow an invalid pointer. -/
def srcKeyOk (mem : UserMem) : MSrcType → Words → Option Bool
  | .ps, _ => some false
  | .fd, key => keyOk mem .fd key
  | .tmr, key => keyOk mem .tmr key
  | .sgn, key => keyOk mem .sgn key
  | .path, key => keyOk mem .path key
  | .pid, key => keyOk mem .pid key
  | .task, key => some (decide (word64 key 2 ≠ 0))
  | .thresh, key =>
      -- a frequency is positive when its bits are those of 0 < f ≤ ∞
      some (decide ((0 < (word64 key 2).toNat ∧ (word64 key 2).toNat ≤ 0x7FF0000000000000) ∨
        word64 key 0 ≠ 0))

/-- What the registration of a type checks besides. -/
def srcRegisterOk : MSrcType → Words → ℕ → Bool
  | .fd, key, flags => registerOk .fd key flags
  | .path, key, flags => registerOk .path key flags
  | _, _, _ => true

/-- `m_mod_src_register_X` for the type of `X`. -/
def modSrcRegister (mod : Option ℕ) (type : MSrcType) (key : Words) (flags : ℕ)
    (userptr : Userptr) : Lm ℤ := do
  let ok ← orHalt (srcKeyOk (← getWorld).host.mem type key)
  if !(ok && srcRegisterOk type key flags) then return -EINVAL
  registerModSrc mod type key flags userptr

/-- `m_mod_src_deregister_X` for the type of `X`. -/
def modSrcDeregister (mod : Option ℕ) (type : MSrcType) (key : Words) : Lm ℤ := do
  if type = .task then return -EPERM
  let ok ← orHalt (srcKeyOk (← getWorld).host.mem type key)
  if !ok then return -EINVAL
  deregisterModSrc mod type key

def initPubsubFd (m : ℕ) : Lm ℤ := do
  let ret : ℤ ← act (.pipe m)
  if ret = 0 then
    let x ← derefMod m
    let ret ← registerModSrc (some m) .ps (fun _ => fdWord x.pubsubFd0)
      (M_SRC_FD_AUTOCLOSE ||| M_SRC_PRIO_HIGH) (.user 0)
    if ret = 0 then return 0
    act (.close x.pubsubFd0)
    act (.close x.pubsubFd1)
    act (.setMod m .noPubsubFd)
  return -(← getErrno)

/-- `manage_srcs` on the sources of one tree. -/
def manageTree (m c : ℕ) (type : MSrcType) (flag : OpType) (stop : Bool) :
    List ℕ → ℤ → Lm ℤ
  | [], ret => return ret
  | t :: ts, _ => do
      if flag = .rm ∧ stop then
        if (← derefSrc t).type = .ps then
          let _ ← flushPubsubMsgs true m
        let ret : ℤ ← act (.bstItrRemove m type)
        manageTree m c type flag stop ts ret
      else
        let ret : ℤ ← act (.pollSetNewEvt c t flag)
        let ret : ℤ ← if ret = 0 ∧ (← derefSrc t).type = .task ∧ flag = .add then act .threadAdd
          else pure ret
        manageTree m c type flag stop ts ret

/-- `manage_srcs`; the result is that of the last source. -/
def manageSrcs (m c : ℕ) (flag : OpType) (stop : Bool) : List MSrcType → ℤ → Lm ℤ
  | [], ret => return ret
  | type :: types, ret => do
      let ret ← manageTree m c type flag stop ((← derefMod m).srcs type).values ret
      manageSrcs m c flag stop types ret

/-! ## States -/

inductive ModHookReq where
  | eval
  | start
  | stop
  deriving DecidableEq

/-- The hook's answer; `on_stop` has none, and so has a missing hook. -/
def runHook (m : ℕ) (hook : ModHooks) : ModHookReq → Lm Bool
  | .eval => if hook.onEval then notify (.onEval m) else pure true
  | .start => if hook.onStart then notify (.onStart m) else pure true
  | .stop => do
      if hook.onStop then
        let _ ← notify (.onStop m)
      return true

def optionalHook (m : ℕ) (reqHook : ModHookReq) : Lm ℤ :=
  memLock m do
    setCurrMod m (some m)
    let boolRet ← runHook m (← derefMod m).hook reqHook
    setCurrMod m none
    if (← derefMod m).state = .zombie then return -ENOENT
    return if boolRet then 0 else -1

def resetModule (m : ℕ) : Lm Unit := do
  let x ← derefMod m
  if x.pubsubFd1 ≠ none then
    act (.close x.pubsubFd1)
    act (.setMod m .noPubsubFd)
  act (.clear m .subscriptions)
  act (.setMod m (.recvs []))
  act (.clear m .stashed)
  act (.clear m .batchEvents)
  act (.clear m .boundMods)
  act (.setMod m (.batchLen 0))
  act (.setMod m (.batchTimer 0))
  act (.setMod m (.tb 0 UINT64_MAX UINT64_MAX 0))

def stop (m : ℕ) (stopping : Bool) : Lm ℤ := do
  let c := (← derefMod m).ctx
  let ret ← manageSrcs m c .rm stopping MSrcType.all 0
  if ret ≠ 0 then return ret
  act (.markStopped m stopping)
  let ret ← if stopping then do
      resetModule m
      optionalHook m .stop
    else pure ret
  if ret = -ENOENT then return ret
  let _ ← tellSystemPubsubMsg none c (some m) M_PS_MOD_STOPPED
  return 0

def start (m : ℕ) (starting : Bool) : Lm ℤ := do
  let ret ← if starting then initPubsubFd m else pure 0
  if ret ≠ 0 then return ret
  let c := (← derefMod m).ctx
  let ret ← manageSrcs m c .add false MSrcType.all 0
  if ret ≠ 0 then return ret
  act (.markRunning m)
  let ret ← if starting then optionalHook m .start else pure ret
  if ret = 0 then
    let _ ← tellSystemPubsubMsg none c (some m) M_PS_MOD_STARTED
    return ret
  if ret = -1 then
    let _ ← stop m true
    return 0
  return ret

/-- `evaluate_module`, without the alarms of thresholds. -/
def evaluateModule (m : ℕ) : Lm ℤ := do
  if (← derefMod m).state = .idle then
    let ret ← optionalHook m .eval
    if ret = 0 then
      let _ ← start m true
    return ret
  return 0

def modDeregister (mod : Option ℕ) (fromUser : Bool) : Lm ℤ :=
  modAssert mod fun m => do
    let x ← derefMod m
    let c := x.ctx
    if hasFlag x.flags M_MOD_PERSIST ∧ (← derefCtx c).looping then return -EPERM
    memLock m do
      let ret : ℤ ← act (.modulesRemove c x.name)
      if ret ≠ 0 then return ret
      let _ ← stop m true
      act (.markZombie m)
      if fromUser then act (.unrefMod m)
      let y ← derefCtx c
      if y.looping = false ∧ y.modules = [] ∧ !hasFlag y.flags M_CTX_PERSIST then
        invoke .mCtxDeregister
      else return ret

/-- Whether `hook` is given or `dlopen` finds the functions of a plugin. -/
def findHooks (host : Host) (name : String) (hook : Option ModHooks) : Option ModHooks :=
  match hook with
  | some hook => some hook
  | none => (host.plugin name).filter ModHooks.onEvt

def mModRegister (name : String) (modRef : Bool) (hook : Option ModHooks) (flags : ℕ) :
    Lm ℤ := do
  if name = "" then return -EINVAL
  if (hook.map ModHooks.onEvt) = some false then return -EINVAL
  ctxAssert fun c => do
    let x ← derefCtx c
    if x.finalized then return -EPERM
    let ret ← match x.modules.get name with
      | none => pure 0
      | some old => do
          if !hasFlag (← derefMod old).flags M_MOD_ALLOW_REPLACE then pure (-EEXIST)
          else modDeregister (some old) false
    if ret ≠ 0 then return ret
    let hooks := findHooks (← getWorld).host name hook
    let (ret, m) : ℤ × ℕ ← act (.newMod c name flags hooks)
    if ret ≠ 0 then return ret
    if modRef then act (.refMod m)
    return 0

/-! ## Public functions -/

def mModStart (mod : Option ℕ) : Lm ℤ :=
  modAssertState mod [.idle, .stopped] fun m => consumeToken m do
    let ret ← start m true
    if ret = 0 then
      let _ ← invoke (.modBound .mModStart m 0)
    return ret

def mModPause (mod : Option ℕ) : Lm ℤ :=
  modAssertState mod [.running] fun m => consumeToken m do
    let ret ← stop m false
    if ret = 0 then
      let _ ← invoke (.modBound .mModPause m 0)
    return ret

def mModResume (mod : Option ℕ) : Lm ℤ :=
  modAssertState mod [.paused] fun m => consumeToken m do
    let ret ← start m false
    if ret = 0 then
      let _ ← invoke (.modBound .mModResume m 0)
    return ret

def mModStop (mod : Option ℕ) : Lm ℤ :=
  modAssertState mod [.running, .paused] fun m => consumeToken m do
    let ret ← stop m true
    if ret = 0 then
      let _ ← invoke (.modBound .mModStop m 0)
    return ret

def BoundFn.call (fn : BoundFn) (m : ℕ) : Call :=
  match fn with
  | .mModStart => .mModStart (some m)
  | .mModPause => .mModPause (some m)
  | .mModResume => .mModResume (some m)
  | .mModStop => .mModStop (some m)

/-- `M_MOD_BOUND(fn)` from the bound module at `idx` on. -/
def modBound (fn : BoundFn) (m idx : ℕ) : Lm ℤ := do
  match (← derefMod m).boundMods[idx]? with
  | none => return 0
  | some b =>
      let _ ← invoke (fn.call b)
      invoke (.modBound fn m (idx + 1))

def mModBind (mod ref : Option ℕ) : Lm ℤ :=
  modAssert mod fun m => modAssert ref fun r => consumeToken m do
    act (.bind m r)
    return 0

def mModSetTokenbucket (mod : Option ℕ) (rate burst : ℕ) : Lm ℤ :=
  modAssert mod fun m => do
    if rate > BILLION then return -EINVAL
    let x ← derefMod m
    if x.tbTimer ≠ 0 then
      let _ ← modSrcDeregister (some m) .tmr (tmrKey x.tbTimer)
    if rate = 0 then
      act (.setMod m (.tb 0 UINT64_MAX UINT64_MAX 0))
      return 0
    act (.setMod m (.tb rate burst burst (BILLION / rate)))
    modSrcRegister (some m) .tmr (tmrKey (BILLION / rate)) (M_SRC_INTERNAL ||| M_SRC_PRIO_HIGH)
      (.tb m)

end Libmodule
