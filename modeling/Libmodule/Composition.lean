import Libmodule.Execution

/-!
# How the functions are composed

A property of programs that is kept when programs are put together holds of the body of
every procedure, once it holds of the parts that do something particular.  Of the
operations, some are plain: those that read, send, receive and keep events.
-/

namespace Libmodule

open RefHeap Reentrant

/-- Operations that neither start nor stop anything, nor change who may call what. -/
def Op.Plain : Op → Prop
  | .get | .setErrno _ | .unrefEvt _ | .newEvt _ | .setEvtOther _ | .setEvtUserdata .. => True
  | .processPs _ | .subscriptionsPut .. | .subscriptionsRemove .. | .tell .. => True
  | .flushMsg .. | .enqueueBatch .. | .takeBatch _ | .stash .. | .unstash _ | .bind .. => True
  | .readPriv | .threadAdd | .pollWait .. | .pollRecv | .pollDone => True
  | .setCtx _ (.quit _) | .setCtx _ (.quitCode _) | .setCtx _ (.finalized _) => True
  | .setMod _ (.recvs _) | .setMod _ (.batchLen _) | .setMod _ (.tbTokens _) => True
  | _ => False

/-- Operations that create and drop no object but sources, messages and events. -/
def Op.Inner : Op → Prop
  | .setTls _ | .refMod _ | .unrefMod _ | .unrefCtx _ | .newCtx _ | .newMod .. => False
  | .markZombie _ | .modulesRemove .. | .setCtx _ (.currMod _) => False
  | _ => True

/-- The plain operations that checks, messages and the sources of a module take. -/
def Op.Common : Op → Prop
  | .get | .unrefEvt _ | .tell .. | .flushMsg .. | .threadAdd | .setMod _ (.tbTokens _) => True
  | _ => False

theorem Op.Common.plain {o : Op} (ho : o.Common) : o.Plain := by
  cases o
  case setMod m field => cases field <;> first | exact trivial | exact ho.elim
  all_goals first | exact trivial | exact ho.elim

/-- Operations that leave the tokens of all modules, or fill a bucket, and that neither add
to a batch nor take it. -/
def Op.Bare : Op → Prop
  | .enqueueBatch .. | .takeBatch _ | .setMod _ (.tbTokens _) => False
  | .setMod _ (.tb _ burst tokens _) => tokens = burst
  | _ => True

/-- A property that programs made of programs that have it have. -/
structure Composed (G : ∀ ⦃α : Type⦄, Lm α → Prop) : Prop where
  pure : ∀ {α : Type} (a : α), G (Pure.pure a : Lm α)
  halt : ∀ {α : Type}, G (Prog.halt : Lm α)
  bind : ∀ {α β : Type} {p : Lm α} {f : α → Lm β}, G p → (∀ a, G (f a)) → G (p >>= f)
  common : ∀ o : Op, o.Common → o.Bare → G (act o)
  consume : ∀ {m : ℕ} {rest : Lm ℤ}, G rest → G (consumeToken m rest)

/-- One that all plain operations and the procedures have. -/
structure Closed (G : ∀ ⦃α : Type⦄, Lm α → Prop) : Prop extends Composed G where
  plain : ∀ o : Op, o.Plain → o.Bare → G (act o)
  invoke : ∀ c : Call, G (invoke c)

namespace Composed

variable {G : ∀ ⦃α : Type⦄, Lm α → Prop} (hG : Composed G)

include hG

/-! ## Reading and checking -/

theorem getWorld : G getWorld := hG.common .get trivial trivial

theorem orHalt {α : Type} (x : Option α) : G (orHalt x) := by
  cases x with
  | none => exact hG.halt
  | some a => exact hG.pure a

theorem derefCtx (c : ℕ) : G (derefCtx c) := hG.bind hG.getWorld (fun _ => hG.orHalt _)

theorem derefMod (m : ℕ) : G (derefMod m) := hG.bind hG.getWorld (fun _ => hG.orHalt _)

theorem derefSrc (s : ℕ) : G (derefSrc s) := hG.bind hG.getWorld (fun _ => hG.orHalt _)

theorem derefMsg (g : ℕ) : G (derefMsg g) := hG.bind hG.getWorld (fun _ => hG.orHalt _)

theorem derefEvt (e : ℕ) : G (derefEvt e) := hG.bind hG.getWorld (fun _ => hG.orHalt _)

theorem getErrno : G getErrno := hG.bind hG.getWorld (fun _ => hG.pure _)

theorem mCtx : G mCtx := by
  unfold Libmodule.mCtx
  refine hG.bind hG.getWorld (fun w => ?_)
  split
  next => exact hG.pure _
  next c _ =>
    refine hG.bind (hG.derefCtx c) (fun x => ?_)
    split
    next => exact hG.pure _
    next m _ => exact hG.bind (hG.derefMod m) (fun _ => hG.pure _)

theorem ctxAssert {rest : ℕ → Lm ℤ} (hrest : ∀ c, G (rest c)) : G (ctxAssert rest) := by
  unfold Libmodule.ctxAssert
  refine hG.bind hG.mCtx (fun c => ?_)
  cases c with
  | none => exact hG.pure _
  | some c => exact hrest c

theorem modAssert {mod : Option ℕ} {rest : ℕ → Lm ℤ} (hrest : ∀ m, G (rest m)) :
    G (modAssert mod rest) := by
  unfold Libmodule.modAssert
  cases mod with
  | none => exact hG.pure _
  | some m =>
      refine hG.bind (hG.derefMod m) (fun x => ?_)
      split
      next => exact hG.pure _
      next =>
        refine hG.bind hG.mCtx (fun c => ?_)
        split
        next => exact hG.pure _
        next => exact hrest m

theorem modAssertPerm {mod : Option ℕ} {perm : ℕ} {rest : ℕ → Lm ℤ}
    (hrest : ∀ m, G (rest m)) : G (modAssertPerm mod perm rest) := by
  refine hG.modAssert (fun m => hG.bind (hG.derefMod m) (fun x => ?_))
  split
  next => exact hG.pure _
  next => exact hrest m

theorem modAssertState {mod : Option ℕ} {states : List ModState} {rest : ℕ → Lm ℤ}
    (hrest : ∀ m, G (rest m)) : G (modAssertState mod states rest) := by
  refine hG.modAssert (fun m => hG.bind (hG.derefMod m) (fun x => ?_))
  split
  next => exact hG.pure _
  next => exact hrest m

theorem consumeToken {m : ℕ} {rest : Lm ℤ} (hrest : G rest) : G (consumeToken m rest) :=
  hG.consume hrest

theorem sameCtx {m : ℕ} {recipient : Option ℕ} {rest : ℕ → Lm ℤ} (hrest : ∀ r, G (rest r)) :
    G (sameCtx m recipient rest) := by
  unfold Libmodule.sameCtx
  cases recipient with
  | none => exact hG.pure _
  | some r =>
      refine hG.bind (hG.derefMod m) (fun x => hG.bind (hG.derefMod r) (fun y => ?_))
      split
      next => exact hG.pure _
      next => exact hrest r

/-! ## Messages -/

theorem fetchRegex (topic : String) (subs : NameTable) : G (fetchRegex topic subs) := by
  induction subs with
  | nil => exact hG.pure _
  | cons entry subs ih =>
      refine hG.bind (hG.derefSrc _) (fun s => hG.bind hG.getWorld (fun w => ?_))
      split
      next => exact hG.pure _
      next => exact ih

theorem fetchSub (m : ℕ) (topic : String) : G (fetchSub m topic) := by
  refine hG.bind (hG.derefMod m) (fun x => ?_)
  split
  next => exact hG.pure _
  next => exact hG.fetchRegex topic _

theorem tellIf (msg : PsPriv) (key : Option String) (m : ℕ) : G (tellIf msg key m) := by
  unfold Libmodule.tellIf
  refine hG.bind (hG.derefMod m) (fun x => ?_)
  generalize (if msg.topic.isSome then key else none) = sub
  dsimp only
  split
  next => exact hG.bind (hG.common _ trivial trivial) (fun _ => hG.pure _)
  next => exact hG.pure _

theorem tellSubscribers (msg : PsPriv) (topic : String) (ms : List ℕ) :
    G (tellSubscribers msg topic ms) := by
  induction ms with
  | nil => exact hG.pure _
  | cons m ms ih =>
      refine hG.bind (hG.derefMod m) (fun x => ?_)
      split
      next =>
        refine hG.bind (hG.fetchSub m topic) (fun key => ?_)
        cases key with
        | none => exact ih
        | some key => exact hG.bind (hG.tellIf msg (some key) m) (fun _ => ih)
      next => exact ih

theorem tellModules (msg : PsPriv) (ms : NameTable) : G (tellModules msg ms) := by
  induction ms with
  | nil => exact hG.pure _
  | cons entry ms ih => exact hG.bind (hG.tellIf msg _ _) (fun _ => ih)

theorem tellPubsubMsg (msg : PsPriv) (recipient : Option ℕ) (c : ℕ) :
    G (tellPubsubMsg msg recipient c) := by
  unfold Libmodule.tellPubsubMsg
  cases recipient with
  | some m => exact hG.bind (hG.tellIf msg none m) (fun _ => hG.pure _)
  | none =>
      refine hG.bind (hG.derefCtx c) (fun x => ?_)
      split
      next => exact hG.bind (hG.tellModules msg _) (fun _ => hG.pure _)
      next => exact hG.bind (hG.tellSubscribers msg _ _) (fun _ => hG.pure _)

theorem sendMsg (m : ℕ) (recipient : Option ℕ) (topic : Option String) (message : Option ℕ)
    (flags : ℕ) : G (sendMsg m recipient topic message flags) := by
  unfold Libmodule.sendMsg
  split
  next => exact hG.pure _
  next => exact hG.bind (hG.derefMod m) (fun _ => hG.tellPubsubMsg _ _ _)

theorem tellSystemPubsubMsg (recipient : Option ℕ) (c : ℕ) (sender : Option ℕ)
    (topic : String) : G (tellSystemPubsubMsg recipient c sender topic) :=
  hG.tellPubsubMsg _ _ _

theorem freeEvts (evts : List ℕ) : G (freeEvts evts) := by
  induction evts with
  | nil => exact hG.pure _
  | cons e evts ih => exact hG.bind (hG.common _ trivial trivial) (fun _ => ih)

theorem flushRounds (m : ℕ) (stopping : Bool) (rounds : ℕ) (flushed : List ℕ) :
    G (flushRounds m stopping rounds flushed) := by
  induction rounds generalizing flushed with
  | zero => exact hG.pure _
  | succ rounds ih =>
      refine hG.bind (hG.common _ trivial trivial) (fun r => ?_)
      cases r with
      | empty => exact hG.pure _
      | destroyed => exact ih flushed
      | event e => exact ih _

theorem flushPubsubMsgs {stoppingMod : Bool} {m : ℕ} (hcb : ∀ evts, G (callPubsubCb m evts)) :
    G (flushPubsubMsgs stoppingMod m) := by
  refine hG.bind (hG.derefMod m) (fun x => hG.bind hG.getWorld (fun w => ?_))
  refine hG.bind (hG.flushRounds m stoppingMod _ _) (fun flushed => ?_)
  exact hG.bind (hcb flushed) (fun _ => hG.pure _)

theorem memLock {α : Type} {m : ℕ} {p : Lm α} (href : G (act (.refMod m)))
    (hunref : G (act (.unrefMod m))) (hp : G p) : G (memLock m p) :=
  hG.bind href (fun _ => hG.bind hp (fun _ => hG.bind hunref (fun _ => hG.pure _)))

theorem setCurrMod {m : ℕ} {curr : Option ℕ}
    (hcurr : ∀ c curr, G (act (.setCtx c (.currMod curr)))) : G (setCurrMod m curr) :=
  hG.bind (hG.derefMod m) (fun _ => hcurr _ _)

/-- A callback between the two assignments to `curr_mod`. -/
theorem callPubsubCb {m : ℕ} {evts : List ℕ}
    (hlock : ∀ {α : Type} {p : Lm α}, G p → G (Libmodule.memLock m p))
    (hcurr : ∀ c curr, G (act (.setCtx c (.currMod curr))))
    (hnotify : ∀ recv evts, G (notify (.onEvt m recv evts))) : G (callPubsubCb m evts) := by
  unfold Libmodule.callPubsubCb
  split
  next =>
    refine hG.bind (hlock ?_) (fun _ => hG.freeEvts evts)
    refine hG.bind (hG.setCurrMod hcurr) (fun _ => hG.bind (hG.derefMod m) (fun x => ?_))
    exact hG.bind (hnotify _ _) (fun _ => hG.setCurrMod hcurr)
  next => exact hG.freeEvts evts

theorem runHook {m : ℕ} {hook : ModHooks} {req : ModHookReq}
    (hnotify : ∀ h, G (notify h)) : G (runHook m hook req) := by
  cases req with
  | eval =>
      simp only [Libmodule.runHook]
      split
      next => exact hnotify _
      next => exact hG.pure _
  | start =>
      simp only [Libmodule.runHook]
      split
      next => exact hnotify _
      next => exact hG.pure _
  | stop =>
      simp only [Libmodule.runHook]
      split
      next => exact hG.bind (hnotify _) (fun _ => hG.pure _)
      next => exact hG.pure _

/-- What `optional_hook` does after the hook has answered. -/
theorem hookAnswer {m : ℕ} (hcurr : ∀ c curr, G (act (.setCtx c (.currMod curr)))) (b : Bool) :
    G (do
      Libmodule.setCurrMod m none
      if (← Libmodule.derefMod m).state = .zombie then return -ENOENT
      return if b then 0 else -1) := by
  refine hG.bind (hG.setCurrMod hcurr) (fun _ => hG.bind (hG.derefMod m) (fun y => ?_))
  split
  next => exact hG.pure _
  next => exact hG.pure _

theorem optionalHook {m : ℕ} {req : ModHookReq}
    (hlock : ∀ {α : Type} {p : Lm α}, G p → G (Libmodule.memLock m p))
    (hcurr : ∀ c curr, G (act (.setCtx c (.currMod curr))))
    (hnotify : ∀ h, G (notify h)) : G (optionalHook m req) := by
  refine hlock (hG.bind (hG.setCurrMod hcurr) (fun _ => hG.bind (hG.derefMod m) (fun x => ?_)))
  exact hG.bind (hG.runHook hnotify) (fun b => hG.hookAnswer hcurr b)

/-! ## Sources -/

theorem manageTree {m c : ℕ} {type : MSrcType} {flag : OpType} {stop : Bool}
    (hpoll : flag = .add ∨ stop = false → ∀ src, G (act (.pollSetNewEvt c src flag)))
    (hremove : flag = .rm → stop = true → G (act (.bstItrRemove m type)))
    (hcb : flag = .rm → stop = true → ∀ evts, G (Libmodule.callPubsubCb m evts))
    (ts : List ℕ) (ret : ℤ) : G (manageTree m c type flag stop ts ret) := by
  induction ts generalizing ret with
  | nil => exact hG.pure _
  | cons t ts ih =>
      unfold Libmodule.manageTree
      split
      next hstop =>
        refine hG.bind (hG.derefSrc t) (fun s => ?_)
        split
        next =>
          refine hG.bind (hG.flushPubsubMsgs (hcb hstop.1 hstop.2)) (fun _ => ?_)
          exact hG.bind (hremove hstop.1 hstop.2) ih
        next => exact hG.bind (hremove hstop.1 hstop.2) ih
      next hkeep =>
        have hflag : flag = .add ∨ stop = false := by
          cases flag with
          | add => exact .inl rfl
          | rm => exact .inr (by simpa using hkeep)
        refine hG.bind (hpoll hflag t) (fun ret => hG.bind (hG.derefSrc t) (fun s => ?_))
        split
        next => exact hG.bind (hG.common _ trivial trivial) ih
        next => exact hG.bind (hG.pure _) ih

theorem manageSrcs {m c : ℕ} {flag : OpType} {stop : Bool}
    (htree : ∀ type ts ret, G (Libmodule.manageTree m c type flag stop ts ret))
    (types : List MSrcType) (ret : ℤ) : G (manageSrcs m c flag stop types ret) := by
  induction types generalizing ret with
  | nil => exact hG.pure _
  | cons type types ih =>
      exact hG.bind (hG.derefMod m) (fun x => hG.bind (htree type _ _) ih)

end Composed

namespace Closed

variable {G : ∀ ⦃α : Type⦄, Lm α → Prop} (hG : Closed G)

theorem ite {α : Type} {c : Prop} [Decidable c] {p q : Lm α} (hp : c → G p) (hq : ¬ c → G q) :
    G (if c then p else q) := by
  split
  next hc => exact hp hc
  next hc => exact hq hc

include hG

/-! ## Public functions for messages -/

theorem mModPsSubscribe {mod : Option ℕ} {topic : Option String} {flags userptr : ℕ}
    (hset : ∀ s u, G (act (.setSrcUserptr s u))) :
    G (mModPsSubscribe mod topic flags userptr) := by
  refine hG.modAssertPerm (fun m => ?_)
  cases topic with
  | none => exact hG.pure _
  | some topic =>
      dsimp only
      split
      next => exact hG.pure _
      next =>
        refine hG.consumeToken (hG.bind hG.getWorld (fun w => ?_))
        split
        next => exact hG.pure _
        next =>
          refine hG.bind (hG.derefMod m) (fun x => ?_)
          split
          next => exact hG.plain _ trivial trivial
          next old _ =>
            refine hG.bind (hG.derefSrc old) (fun s => ?_)
            generalize (if prioFlags flags = 0 then flags ||| M_SRC_PRIO_NORM else flags) = flags
            split
            next => exact hG.bind (hset _ _) (fun _ => hG.pure _)
            next => exact hG.plain _ trivial trivial

theorem mModPsUnsubscribe (mod : Option ℕ) (topic : Option String) :
    G (mModPsUnsubscribe mod topic) := by
  refine hG.modAssertPerm (fun m => ?_)
  cases topic with
  | none => exact hG.pure _
  | some topic => exact hG.consumeToken (hG.plain _ trivial trivial)

theorem mModPsTell (mod recipient message : Option ℕ) (flags : ℕ) :
    G (mModPsTell mod recipient message flags) :=
  hG.modAssertPerm (fun m =>
    hG.sameCtx (fun _ => hG.consumeToken (hG.sendMsg m _ _ _ _)))

theorem mModPsPublish (mod : Option ℕ) (topic : Option String) (message : Option ℕ)
    (flags : ℕ) : G (mModPsPublish mod topic message flags) := by
  refine hG.modAssertPerm (fun m => ?_)
  split
  next => exact hG.pure _
  next => exact hG.consumeToken (hG.sendMsg m _ _ _ _)

theorem mModPsPoisonpill (mod recipient : Option ℕ) : G (mModPsPoisonpill mod recipient) := by
  refine hG.modAssertPerm (fun m => hG.sameCtx (fun r => hG.bind (hG.derefMod r) (fun x => ?_)))
  split
  next => exact hG.pure _
  next =>
    exact hG.consumeToken (hG.bind (hG.derefMod m) (fun _ => hG.tellSystemPubsubMsg _ _ _ _))

/-! ## Registering sources -/

theorem registerModSrc {mod : Option ℕ} {type : MSrcType} {key : Words} {flags : ℕ}
    {userptr : Userptr} (hadd : ∀ m flags, G (act (.addSrc m type key flags userptr)))
    (hpoll : ∀ c src, G (act (.pollSetNewEvt c src .add))) :
    G (registerModSrc mod type key flags userptr) := by
  have hlast : ∀ ret : ℤ, G (do
      let errno ← Libmodule.getErrno
      return if ret = 0 then 0 else -errno) :=
    fun _ => hG.bind hG.getErrno (fun _ => hG.pure _)
  refine hG.modAssert (fun m => hG.consumeToken ?_)
  split
  next => exact hG.pure _
  next =>
    refine hG.bind (hadd m _) (fun r => ?_)
    obtain ⟨ret, src⟩ := r
    dsimp only
    split
    next => exact hG.pure _
    next =>
      refine hG.bind (hG.derefMod m) (fun x => ?_)
      split
      next =>
        refine hG.bind (hpoll _ _) (fun ret => ?_)
        split
        next => exact hG.bind (hG.plain _ trivial trivial) hlast
        next => exact hG.bind (hG.pure _) hlast
      next => exact hG.pure _

theorem deregisterModSrc {mod : Option ℕ} {type : MSrcType} {key : Words}
    (hremove : ∀ m, G (act (.bstRemove m type key))) : G (deregisterModSrc mod type key) :=
  hG.modAssert (fun m => hG.consumeToken (hremove m))

theorem modSrcRegister {mod : Option ℕ} {type : MSrcType} {key : Words} {flags : ℕ}
    {userptr : Userptr} (h : G (Libmodule.registerModSrc mod type key flags userptr)) :
    G (modSrcRegister mod type key flags userptr) := by
  refine hG.bind hG.getWorld (fun w => hG.bind (hG.orHalt _) (fun ok => ?_))
  split
  next => exact hG.pure _
  next => exact h

theorem modSrcDeregister {mod : Option ℕ} {type : MSrcType} {key : Words}
    (h : G (Libmodule.deregisterModSrc mod type key)) : G (modSrcDeregister mod type key) := by
  unfold Libmodule.modSrcDeregister
  split
  next => exact hG.pure _
  next =>
    refine hG.bind hG.getWorld (fun w => hG.bind (hG.orHalt _) (fun ok => ?_))
    split
    next => exact hG.pure _
    next => exact h

theorem initPubsubFd {m : ℕ} (hinner : ∀ o : Op, o.Inner → o.Bare → G (act o)) :
    G (initPubsubFd m) := by
  refine hG.bind (hinner (.pipe m) trivial trivial) (fun ret => ?_)
  split
  next =>
    refine hG.bind (hG.derefMod m) (fun x => ?_)
    refine hG.bind (hG.registerModSrc (fun _ _ => hinner _ trivial trivial) (fun _ _ => hinner _ trivial trivial))
      (fun ret => ?_)
    split
    next => exact hG.pure _
    next =>
      refine hG.bind (hinner _ trivial trivial) (fun _ => hG.bind (hinner _ trivial trivial) (fun _ => ?_))
      exact hG.bind (hinner _ trivial trivial) (fun _ => hG.bind hG.getErrno (fun _ => hG.pure _))
  next => exact hG.bind hG.getErrno (fun _ => hG.pure _)

/-! ## States -/

theorem resetModule {m : ℕ} (hinner : ∀ o : Op, o.Inner → o.Bare → G (act o)) : G (resetModule m) := by
  have hrest : G (do
      act (.clear m .subscriptions)
      act (.setMod m (.recvs []))
      act (.clear m .stashed)
      act (.clear m .batchEvents)
      act (.clear m .boundMods)
      act (.setMod m (.batchLen 0))
      act (.setMod m (.batchTimer 0))
      act (.setMod m (.tb 0 UINT64_MAX UINT64_MAX 0))) := by
    refine hG.bind (hinner _ trivial trivial) (fun _ => hG.bind (hinner _ trivial trivial) (fun _ => ?_))
    refine hG.bind (hinner _ trivial trivial) (fun _ => hG.bind (hinner _ trivial trivial) (fun _ => ?_))
    refine hG.bind (hinner _ trivial trivial) (fun _ => hG.bind (hinner _ trivial trivial) (fun _ => ?_))
    exact hG.bind (hinner _ trivial trivial) (fun _ => hinner _ trivial rfl)
  refine hG.bind (hG.derefMod m) (fun x => ?_)
  split
  next => exact hG.bind (hinner _ trivial trivial) (fun _ => hG.bind (hinner _ trivial trivial) (fun _ => hrest))
  next => exact hrest

theorem stop {m : ℕ} {stopping : Bool}
    (hmanage : ∀ c, G (Libmodule.manageSrcs m c .rm stopping MSrcType.all 0))
    (hmark : G (act (.markStopped m stopping))) (hreset : G (Libmodule.resetModule m))
    (hhook : G (Libmodule.optionalHook m .stop)) : G (stop m stopping) := by
  refine hG.bind (hG.derefMod m) (fun x => hG.bind (hmanage _) (fun ret => ?_))
  split
  next => exact hG.pure _
  next =>
    refine hG.bind hmark (fun _ => ?_)
    have hrest : ∀ ret : ℤ, G (do
        if ret = -ENOENT then return ret
        let _ ← Libmodule.tellSystemPubsubMsg none x.ctx (some m) M_PS_MOD_STOPPED
        return 0) := by
      intro ret
      split
      next => exact hG.pure _
      next => exact hG.bind (hG.tellSystemPubsubMsg _ _ _ _) (fun _ => hG.pure _)
    split
    next => exact hG.bind hreset (fun _ => hG.bind hhook hrest)
    next => exact hG.bind (hG.pure _) hrest

theorem start {m : ℕ} {starting : Bool}
    (hinit : starting = true → G (Libmodule.initPubsubFd m))
    (hmanage : ∀ c, G (Libmodule.manageSrcs m c .add false MSrcType.all 0))
    (hmark : G (act (.markRunning m)))
    (hhook : starting = true → G (Libmodule.optionalHook m .start))
    (hstop : G (Libmodule.stop m true)) : G (start m starting) := by
  have hlast : ∀ (c : ℕ) (ret : ℤ), G (do
      if ret = 0 then
        let _ ← Libmodule.tellSystemPubsubMsg none c (some m) M_PS_MOD_STARTED
        return ret
      if ret = -1 then
        let _ ← Libmodule.stop m true
        return 0
      return ret) := by
    intro c ret
    split
    next => exact hG.bind (hG.tellSystemPubsubMsg _ _ _ _) (fun _ => hG.pure _)
    next =>
      split
      next => exact hG.bind hstop (fun _ => hG.pure _)
      next => exact hG.pure _
  have hrest : ∀ hook : ℤ → Lm ℤ, (∀ ret, G (hook ret)) → ∀ ret : ℤ, G (do
      if ret ≠ 0 then return ret
      let c := (← Libmodule.derefMod m).ctx
      let ret ← Libmodule.manageSrcs m c .add false MSrcType.all 0
      if ret ≠ 0 then return ret
      act (.markRunning m)
      let ret ← hook ret
      if ret = 0 then
        let _ ← Libmodule.tellSystemPubsubMsg none c (some m) M_PS_MOD_STARTED
        return ret
      if ret = -1 then
        let _ ← Libmodule.stop m true
        return 0
      return ret) := by
    intro hook hhook ret
    split
    next => exact hG.pure _
    next =>
      refine hG.bind (hG.derefMod m) (fun x => hG.bind (hmanage _) (fun ret => ?_))
      split
      next => exact hG.pure _
      next => exact hG.bind hmark (fun _ => hG.bind (hhook ret) (hlast _))
  unfold Libmodule.start
  split
  next hstarting =>
    exact hG.bind (hinit hstarting) (hrest (fun _ => _) (fun _ => hhook hstarting))
  next => exact hG.bind (hG.pure _) (hrest Pure.pure (fun _ => hG.pure _))

theorem evaluateModule {m : ℕ} (hhook : G (Libmodule.optionalHook m .eval))
    (hstart : G (Libmodule.start m true)) : G (evaluateModule m) := by
  refine hG.bind (hG.derefMod m) (fun x => ?_)
  split
  next =>
    refine hG.bind hhook (fun ret => ?_)
    split
    next => exact hG.bind hstart (fun _ => hG.pure _)
    next => exact hG.pure _
  next => exact hG.pure _

end Closed

end Libmodule
