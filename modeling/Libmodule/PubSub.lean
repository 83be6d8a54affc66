import Libmodule.Operation

/-!
# Messages

Access to objects, the checks that start every public function, and the
functions of `core/ps.c` that send messages and hand events to a module.
-/

namespace Libmodule

open RefHeap Reentrant

abbrev LibLang : Lang where
  Op := Op
  Resp := Op.Resp
  Hook := Hook
  Call := Call

abbrev Lm := Prog LibLang

def act (o : Op) : Lm o.Resp := Prog.perform (L := LibLang) o

def invoke (c : Call) : Lm ℤ := Prog.invoke (L := LibLang) c

def notify (h : Hook) : Lm Bool := Prog.notify (L := LibLang) h

/-! ## Following pointers -/

def getWorld : Lm World := act .get

def orHalt {α : Type} : Option α → Lm α
  | none => Prog.halt
  | some a => pure a

def derefCtx (c : ℕ) : Lm Ctx := do orHalt (ctxAt (← getWorld).heap c)

def derefMod (m : ℕ) : Lm Mod := do orHalt (modAt (← getWorld).heap m)

def derefSrc (s : ℕ) : Lm EvSource := do orHalt (srcAt (← getWorld).heap s)

def derefMsg (g : ℕ) : Lm PsPriv := do orHalt (msgAt (← getWorld).heap g)

def derefEvt (e : ℕ) : Lm EvtPriv := do orHalt (evtAt (← getWorld).heap e)

def getErrno : Lm ℤ := do return (← getWorld).sys.errno

/-! ## Checks -/

def mCtx : Lm (Option ℕ) := do
  match (← getWorld).tls with
  | none => return none
  | some c =>
      match (← derefCtx c).currMod with
      | none => return some c
      | some m =>
          let x ← derefMod m
          return if hasFlag x.flags M_MOD_DENY_CTX then none else some c

/-- `M_CTX_ASSERT` before the rest of a function. -/
def ctxAssert (rest : ℕ → Lm ℤ) : Lm ℤ := do
  match ← mCtx with
  | none => return -EPIPE
  | some c => rest c

/-- `M_MOD_ASSERT` before the rest of a function. -/
def modAssert (mod : Option ℕ) (rest : ℕ → Lm ℤ) : Lm ℤ := do
  match mod with
  | none => return -EINVAL
  | some m =>
      let x ← derefMod m
      if x.state = .zombie then return -EACCES
      if (← mCtx) ≠ some x.ctx then return -EPERM
      rest m

/-- `M_MOD_ASSERT_PERM` -/
def modAssertPerm (mod : Option ℕ) (perm : ℕ) (rest : ℕ → Lm ℤ) : Lm ℤ :=
  modAssert mod fun m => do
    if hasFlag (← derefMod m).flags perm then return -EPERM
    rest m

/-- `M_MOD_ASSERT_STATE` -/
def modAssertState (mod : Option ℕ) (states : List ModState) (rest : ℕ → Lm ℤ) : Lm ℤ :=
  modAssert mod fun m => do
    if (← derefMod m).state ∉ states then return -EACCES
    rest m

/-- `M_MOD_CONSUME_TOKEN` -/
def consumeToken (m : ℕ) (rest : Lm ℤ) : Lm ℤ := do
  let x ← derefMod m
  if x.tbTokens = 0 then return -EAGAIN
  act (.setMod m (.tbTokens (x.tbTokens - 1)))
  rest

/-- `M_MEM_LOCK` on a module. -/
def memLock {α : Type} (m : ℕ) (func : Lm α) : Lm α := do
  act (.refMod m)
  let a ← func
  act (.unrefMod m)
  return a

/-- `mod->ctx->curr_mod = curr` -/
def setCurrMod (m : ℕ) (curr : Option ℕ) : Lm Unit := do
  act (.setCtx (← derefMod m).ctx (.currMod curr))

/-! ## Sending -/

/-- The first subscription of a table whose expression matches a topic. -/
def fetchRegex (topic : String) : NameTable → Lm (Option String)
  | [] => return none
  | (key, sub) :: subs => do
      let s ← derefSrc sub
      if (← getWorld).host.regexec (s.topic.getD "") topic then return some key
      fetchRegex topic subs

/-- The key under which a module stores its subscription to a topic. -/
def fetchSub (m : ℕ) (topic : String) : Lm (Option String) := do
  let x ← derefMod m
  if x.subscriptions.contains topic then return some topic
  fetchRegex topic x.subscriptions

def isSystemMessage : Option String → Bool
  | none => false
  | some topic => "LIBMODULE_".toList.isPrefixOf topic.toList

def tellIf (msg : PsPriv) (key : Option String) (m : ℕ) : Lm ℤ := do
  let x ← derefMod m
  let sub := if msg.topic.isSome then key else none
  if x.state ∈ [.running, .paused] ∧ (msg.topic = none ∨ sub ≠ none) then
    act (.tell m msg sub)
  return 0

/-- `tell_subscribers` on the modules of a list. -/
def tellSubscribers (msg : PsPriv) (topic : String) : List ℕ → Lm Unit
  | [] => return ()
  | m :: ms => do
      let x ← derefMod m
      if x.state ∈ [.running, .paused] then
        match ← fetchSub m topic with
        | none => pure ()
        | some key => let _ ← tellIf msg (some key) m
      tellSubscribers msg topic ms

/-- `m_map_iterate` of `tell_if`, which neither fails nor changes the map. -/
def tellModules (msg : PsPriv) : NameTable → Lm Unit
  | [] => return ()
  | (key, m) :: ms => do
      let _ ← tellIf msg (some key) m
      tellModules msg ms

def tellPubsubMsg (msg : PsPriv) (recipient : Option ℕ) (c : ℕ) : Lm ℤ := do
  match recipient with
  | some m => let _ ← tellIf msg none m
  | none =>
      let x ← derefCtx c
      match msg.topic with
      | none => tellModules msg x.modules
      | some topic => tellSubscribers msg topic x.modules.values
  return 0

def sendMsg (m : ℕ) (recipient : Option ℕ) (topic : Option String) (message : Option ℕ)
    (flags : ℕ) : Lm ℤ := do
  if message = none then return -EINVAL
  tellPubsubMsg
    { system := false
      sender := some m
      topic := topic
      data := message
      flags := flags
      sub := none }
    recipient (← derefMod m).ctx

def tellSystemPubsubMsg (recipient : Option ℕ) (c : ℕ) (sender : Option ℕ) (topic : String) :
    Lm ℤ :=
  tellPubsubMsg
    { system := true
      sender := sender
      topic := some topic
      data := none
      flags := 0
      sub := none }
    recipient c

/-! ## Receiving -/

/-- `m_queue_free` on a queue of events. -/
def freeEvts : List ℕ → Lm Unit
  | [] => return ()
  | e :: evts => do
      act (.unrefEvt e)
      freeEvts evts

def callPubsubCb (m : ℕ) (evts : List ℕ) : Lm Unit := do
  if evts ≠ [] then
    memLock m do
      setCurrMod m (some m)
      let _ ← notify (.onEvt m (← derefMod m).recvs.head? evts)
      setCurrMod m none
  freeEvts evts

/-- The loop of `flush_pubsub_msgs`, at most `rounds` times. -/
def flushRounds (m : ℕ) (stopping : Bool) : ℕ → List ℕ → Lm (List ℕ)
  | 0, flushed => return flushed
  | rounds + 1, flushed => do
      match ← act (.flushMsg m stopping) with
      | .empty => return flushed
      | .destroyed => flushRounds m stopping rounds flushed
      | .event e => flushRounds m stopping rounds (flushed ++ [e])

def flushPubsubMsgs (stoppingMod : Bool) (m : ℕ) : Lm ℤ := do
  let fd := (← derefMod m).pubsubFd0
  let rounds := ((← getWorld).sys.waiting fd).length + 1
  let flushed ← flushRounds m stoppingMod rounds []
  callPubsubCb m flushed
  return 0

/-! ## Public functions -/

def mModPsSubscribe (mod : Option ℕ) (topic : Option String) (flags userptr : ℕ) : Lm ℤ :=
  modAssertPerm mod M_MOD_DENY_SUB fun m => do
    match topic with
    | none => return -EINVAL
    | some topic =>
        if prioFlags flags ∉ [0, 1, 2, 4] then return -EINVAL
        let flags := if prioFlags flags = 0 then flags ||| M_SRC_PRIO_NORM else flags
        consumeToken m do
          let ret := (← getWorld).host.regcomp topic
          if ret ≠ 0 then return ret
          match (← derefMod m).subscriptions.get topic with
          | none => act (.subscriptionsPut m topic flags (.user userptr))
          | some old =>
              if (← derefSrc old).flags = flags then
                act (.setSrcUserptr old (.user userptr))
                return 0
              act (.subscriptionsPut m topic flags (.user userptr))

def mModPsUnsubscribe (mod : Option ℕ) (topic : Option String) : Lm ℤ :=
  modAssertPerm mod M_MOD_DENY_SUB fun m => do
    match topic with
    | none => return -EINVAL
    | some topic => consumeToken m (act (.subscriptionsRemove m topic))

/-- `M_PARAM_ASSERT` that the recipient is in the context of the sender. -/
def sameCtx (m : ℕ) (recipient : Option ℕ) (rest : ℕ → Lm ℤ) : Lm ℤ := do
  match recipient with
  | none => return -EINVAL
  | some r =>
      if (← derefMod m).ctx ≠ (← derefMod r).ctx then return -EINVAL
      rest r

def mModPsTell (mod recipient message : Option ℕ) (flags : ℕ) : Lm ℤ :=
  modAssertPerm mod M_MOD_DENY_PUB fun m =>
    sameCtx m recipient fun r => consumeToken m (sendMsg m (some r) none message flags)

def mModPsPublish (mod : Option ℕ) (topic : Option String) (message : Option ℕ) (flags : ℕ) :
    Lm ℤ :=
  modAssertPerm mod M_MOD_DENY_PUB fun m => do
    if isSystemMessage topic then return -EPERM
    consumeToken m (sendMsg m none topic message flags)

def mModPsPoisonpill (mod recipient : Option ℕ) : Lm ℤ :=
  modAssertPerm mod M_MOD_DENY_PUB fun m =>
    sameCtx m recipient fun r => do
      if (← derefMod r).state ≠ .running then return -EINVAL
      consumeToken m do
        tellSystemPubsubMsg (some r) (← derefMod m).ctx (some m) M_PS_MOD_POISONPILL

end Libmodule
