import Libmodule.Boundary
import Libmodule.Composition

/-!
# Procedures and their parts

What the public functions are made of: those that start, stop, register or deregister
something are parts, for which a property has to be shown, and then it holds of all.
-/

namespace Libmodule

open RefHeap Reentrant

namespace Closed

variable {G : ∀ ⦃α : Type⦄, Lm α → Prop} (hG : Closed G)

include hG

/-! ## Modules -/

theorem modDeregister {mod : Option ℕ} {fromUser : Bool}
    (hlock : ∀ {α : Type} {m : ℕ} {p : Lm α}, G p → G (Libmodule.memLock m p))
    (hremove : ∀ c name, G (act (.modulesRemove c name)))
    (hstop : ∀ m, G (Libmodule.stop m true)) (hmark : ∀ m, G (act (.markZombie m)))
    (hunref : fromUser = true → ∀ m, G (act (.unrefMod m))) :
    G (modDeregister mod fromUser) := by
  refine hG.modAssert (fun m => hG.bind (hG.derefMod m) (fun x => ?_))
  have hlast : ∀ ret : ℤ, G (do
      let y ← Libmodule.derefCtx x.ctx
      if y.looping = false ∧ y.modules = [] ∧ !hasFlag y.flags M_CTX_PERSIST then
        Libmodule.invoke .mCtxDeregister
      else return ret) := by
    intro ret
    refine hG.bind (hG.derefCtx _) (fun y => ?_)
    split
    next => exact hG.invoke _
    next => exact hG.pure _
  have hbody : G (do
      let ret : ℤ ← act (.modulesRemove x.ctx x.name)
      if ret ≠ 0 then return ret
      let _ ← Libmodule.stop m true
      act (.markZombie m)
      if fromUser then act (.unrefMod m)
      let y ← Libmodule.derefCtx x.ctx
      if y.looping = false ∧ y.modules = [] ∧ !hasFlag y.flags M_CTX_PERSIST then
        Libmodule.invoke .mCtxDeregister
      else return ret) := by
    refine hG.bind (hremove _ _) (fun ret => ?_)
    split
    next => exact hG.pure _
    next =>
      refine hG.bind (hstop m) (fun _ => hG.bind (hmark m) (fun _ => ?_))
      split
      next huser => exact hG.bind (hunref huser m) (fun _ => hlast ret)
      next => exact hlast ret
  refine hG.bind (hG.derefCtx _) (fun y => ?_)
  exact Closed.ite (fun _ => hG.pure _) (fun _ => hlock hbody)

theorem mModRegister {name : String} {modRef : Bool} {hook : Option ModHooks} {flags : ℕ}
    (hderegister : ∀ m, G (Libmodule.modDeregister (some m) false))
    (hnew : ∀ c hooks, G (do
      let (ret, m) : ℤ × ℕ ← act (.newMod c name flags hooks)
      if ret ≠ 0 then return ret
      if modRef then act (.refMod m)
      return 0)) : G (mModRegister name modRef hook flags) := by
  have hrest : ∀ c (ret : ℤ), G (do
      if ret ≠ 0 then return ret
      let hooks := findHooks (← Libmodule.getWorld).host name hook
      let (ret, m) : ℤ × ℕ ← act (.newMod c name flags hooks)
      if ret ≠ 0 then return ret
      if modRef then act (.refMod m)
      return 0) := by
    intro c ret
    split
    next => exact hG.pure _
    next => exact hG.bind hG.getWorld (fun w => hnew c _)
  refine Closed.ite (fun _ => hG.pure _) (fun _ => Closed.ite (fun _ => hG.pure _) (fun _ => ?_))
  refine hG.ctxAssert (fun c => hG.bind (hG.derefCtx c) (fun x => ?_))
  refine Closed.ite (fun _ => hG.pure _) (fun _ => ?_)
  cases x.modules.get name with
  | none => exact hG.bind (hG.pure _) (hrest c)
  | some old =>
      refine hG.bind (hG.derefMod old) (fun y => ?_)
      refine Closed.ite (fun _ => hG.bind (hG.pure _) (hrest c)) (fun _ => ?_)
      exact hG.bind (hderegister old) (hrest c)

/-- A call that has succeeded goes on to the bound modules. -/
theorem passOn (fn : BoundFn) (m : ℕ) (ret : ℤ) : G (do
    if ret = 0 then
      let _ ← Libmodule.invoke (.modBound fn m 0)
    return ret) := by
  split
  next => exact hG.bind (hG.invoke _) (fun _ => hG.pure _)
  next => exact hG.pure _

theorem mModStart {mod : Option ℕ} (hstart : ∀ m, G (Libmodule.start m true)) :
    G (mModStart mod) :=
  hG.modAssertState (fun m => hG.consumeToken (hG.bind (hstart m) (hG.passOn _ m)))

theorem mModPause {mod : Option ℕ} (hstop : ∀ m, G (Libmodule.stop m false)) :
    G (mModPause mod) :=
  hG.modAssertState (fun m => hG.consumeToken (hG.bind (hstop m) (hG.passOn _ m)))

theorem mModResume {mod : Option ℕ} (hstart : ∀ m, G (Libmodule.start m false)) :
    G (mModResume mod) :=
  hG.modAssertState (fun m => hG.consumeToken (hG.bind (hstart m) (hG.passOn _ m)))

theorem mModStop {mod : Option ℕ} (hstop : ∀ m, G (Libmodule.stop m true)) :
    G (mModStop mod) :=
  hG.modAssertState (fun m => hG.consumeToken (hG.bind (hstop m) (hG.passOn _ m)))

theorem modBound (fn : BoundFn) (m idx : ℕ) : G (modBound fn m idx) := by
  refine hG.bind (hG.derefMod m) (fun x => ?_)
  split
  next => exact hG.pure _
  next => exact hG.bind (hG.invoke _) (fun _ => hG.invoke _)

theorem mModBind (mod ref : Option ℕ) : G (mModBind mod ref) :=
  hG.modAssert (fun _ => hG.modAssert (fun _ =>
    hG.consumeToken (hG.bind (hG.plain _ trivial trivial) (fun _ => hG.pure _))))

theorem mModSetTokenbucket {mod : Option ℕ} {rate burst : ℕ}
    (hset : ∀ m rate burst timer, G (act (.setMod m (.tb rate burst burst timer))))
    (hregister : ∀ mod type key flags userptr,
      G (Libmodule.registerModSrc mod type key flags userptr))
    (hderegister : ∀ mod type key, G (Libmodule.deregisterModSrc mod type key)) :
    G (mModSetTokenbucket mod rate burst) := by
  refine hG.modAssert (fun m => ?_)
  have hrest : G (do
      if rate = 0 then
        act (.setMod m (.tb 0 UINT64_MAX UINT64_MAX 0))
        return 0
      act (.setMod m (.tb rate burst burst (BILLION / rate)))
      Libmodule.modSrcRegister (some m) .tmr (tmrKey (BILLION / rate))
        (M_SRC_INTERNAL ||| M_SRC_PRIO_HIGH) (.tb m)) := by
    split
    next => exact hG.bind (hset _ _ _ _) (fun _ => hG.pure _)
    next => exact hG.bind (hset _ _ _ _) (fun _ => hG.modSrcRegister (hregister _ _ _ _ _))
  refine Closed.ite (fun _ => hG.pure _) (fun _ => hG.bind (hG.derefMod m) (fun x => ?_))
  refine Closed.ite (fun _ => ?_) (fun _ => hrest)
  exact hG.bind (hG.modSrcDeregister (hderegister _ _ _)) (fun _ => hrest)

theorem mModSetBatchTimeout {mod : Option ℕ} {ns : ℕ}
    (hset : ∀ m ns, G (act (.setMod m (.batchTimer ns))))
    (hregister : ∀ mod type key flags userptr,
      G (Libmodule.registerModSrc mod type key flags userptr))
    (hderegister : ∀ mod type key, G (Libmodule.deregisterModSrc mod type key)) :
    G (mModSetBatchTimeout mod ns) := by
  refine hG.modAssert (fun m => hG.bind (hG.derefMod m) (fun x => ?_))
  have hrest : G (do
      act (.setMod m (.batchTimer ns))
      if ns = 0 then return 0
      if (← Libmodule.derefMod m).batchLen = 0 then act (.setMod m (.batchLen SIZE_MAX))
      Libmodule.modSrcRegister (some m) .tmr (tmrKey ns) (M_SRC_INTERNAL ||| M_SRC_PRIO_HIGH)
        (.batch m)) := by
    refine hG.bind (hset _ _) (fun _ => ?_)
    split
    next => exact hG.pure _
    next =>
      refine hG.bind (hG.derefMod m) (fun y => ?_)
      split
      next =>
        exact hG.bind (hG.plain _ trivial trivial) (fun _ => hG.modSrcRegister (hregister _ _ _ _ _))
      next => exact hG.modSrcRegister (hregister _ _ _ _ _)
  refine Closed.ite (fun _ => ?_) (fun _ => hrest)
  exact hG.bind (hG.modSrcDeregister (hderegister _ _ _)) (fun _ => hrest)

/-! ## Events -/

theorem pushQueue {m : ℕ} {force : Bool}
    (hhand : G (do
      let evts ← act (.takeBatch m)
      Libmodule.callPubsubCb m evts)) : G (Libmodule.pushEvt.pushQueue m force) :=
  hG.bind (hG.derefMod m) (fun _ => Closed.ite (fun _ => hG.pure _) (fun _ =>
    Closed.ite (fun _ => hhand) (fun _ => hG.pure _)))

theorem pushEvt {m e : ℕ} (htokens : ∀ tokens, G (act (.setMod m (.tbTokens tokens))))
    (henqueue : G (act (.enqueueBatch m e)))
    (hhand : G (do
      let evts ← act (.takeBatch m)
      Libmodule.callPubsubCb m evts)) : G (pushEvt m e) := by
  refine hG.bind (hG.derefEvt e) (fun x => ?_)
  rcases x.src with _ | s
  on_goal 1 => refine hG.bind (hG.pure _) (fun src => ?_)
  on_goal 2 => refine hG.bind (hG.bind (hG.derefSrc s) (fun _ => hG.pure _)) (fun src => ?_)
  all_goals
    refine Closed.ite (fun _ => hG.bind (hG.plain _ trivial trivial) (fun _ => ?_)) (fun _ => ?_)
    · refine Closed.ite (fun _ => hG.bind (hG.derefMod m) (fun x => ?_))
        (fun _ => hG.pushQueue hhand)
      refine Closed.ite (fun _ => ?_) (fun _ => hG.pushQueue hhand)
      exact hG.bind (htokens _) (fun _ => hG.pushQueue hhand)
    · refine hG.bind henqueue (fun _ => ?_)
      cases src with
      | none => exact hG.pushQueue hhand
      | some s =>
          refine hG.bind (hG.plain _ trivial trivial) (fun _ => ?_)
          refine Closed.ite (fun _ => hG.pushQueue hhand) (fun _ => ?_)
          exact Closed.ite (fun _ => hG.pure _) (fun _ => hG.pushQueue hhand)

theorem processSrc (p e : ℕ) : G (processSrc p e) := by
  refine hG.bind (hG.derefSrc p) (fun s => ?_)
  cases s.type
  case ps => exact hG.plain _ trivial trivial
  case fd => exact hG.bind (hG.plain _ trivial trivial) (fun _ => hG.pure _)
  case pid => exact hG.bind (hG.plain _ trivial trivial) (fun _ => hG.pure _)
  all_goals
    exact hG.bind (hG.plain _ trivial trivial) (fun _ =>
      hG.bind (hG.plain _ trivial trivial) (fun _ => hG.pure _))

theorem processTick (c : ℕ) : G (processTick c) :=
  hG.bind (hG.plain _ trivial trivial) (fun _ =>
    hG.bind (hG.tellSystemPubsubMsg _ _ _ _) (fun _ => hG.pure _))

theorem removeOneshot {m : ℕ} {p : Option ℕ}
    (hremove : ∀ type data, G (act (.bstRemove m type data))) : G (removeOneshot m p) := by
  cases p with
  | none => exact hG.pure _
  | some p =>
      refine hG.bind (hG.derefSrc p) (fun s => Closed.ite (fun _ => ?_) (fun _ => hG.pure _))
      split
      next => exact hG.bind (hG.plain _ trivial trivial) (fun _ => hG.pure _)
      next => exact hG.bind (hremove _ _) (fun _ => hG.pure _)

theorem isPoisonpill (x : EvtPriv) : G (isPoisonpill x) := by
  unfold Libmodule.isPoisonpill
  split
  next => exact hG.bind (hG.derefMsg _) (fun _ => hG.pure _)
  next => exact hG.pure _

theorem consumeEvt {m e recved : ℕ} {p : Option ℕ} {err : ℤ}
    (honeshot : G (Libmodule.removeOneshot m p)) (hstop : G (Libmodule.stop m true))
    (hpush : G (Libmodule.pushEvt m e)) : G (consumeEvt m e p recved err) := by
  refine Closed.ite (fun _ => hG.bind (hG.plain _ trivial trivial) (fun _ => hG.pure _)) (fun _ => ?_)
  refine hG.bind honeshot (fun _ => hG.bind (hG.derefEvt e) (fun x => ?_))
  refine Closed.ite (fun _ => hG.bind (hG.plain _ trivial trivial) (fun _ => hG.pure _)) (fun _ => ?_)
  refine hG.bind (hG.isPoisonpill x) (fun b => Closed.ite (fun _ => ?_) (fun _ => ?_))
  · exact hG.bind hstop (fun _ => hG.bind (hG.plain _ trivial trivial) (fun _ => hG.pure _))
  · exact hG.bind hpush (fun _ => hG.pure _)

theorem recvEvent {c recved : ℕ} (honeshot : ∀ m p, G (Libmodule.removeOneshot m p))
    (hstop : ∀ m, G (Libmodule.stop m true))
    (hpush : ∀ m e, G (Libmodule.pushEvt m e)) : G (recvEvent c recved) := by
  refine hG.bind (hG.plain _ trivial trivial) (fun p => ?_)
  cases p with
  | none => exact hG.pure _
  | some p =>
      refine hG.bind (hG.derefSrc p) (fun s => ?_)
      cases s.mod with
      | none => exact hG.bind (hG.processTick c) (fun _ => hG.pure _)
      | some m =>
          refine hG.bind (hG.plain _ trivial trivial) (fun e => hG.bind (hG.processSrc p e) (fun p => ?_))
          exact hG.bind hG.getErrno (fun err => hG.consumeEvt (honeshot m p) (hstop m) (hpush m e))

theorem recvRounds {c : ℕ} (hrecv : ∀ recved, G (Libmodule.recvEvent c recved)) (left : ℕ)
    (recved : ℕ) (err : ℤ) : G (recvRounds c left recved err) := by
  induction left generalizing recved err with
  | zero => exact hG.pure _
  | succ left ih =>
      refine Closed.ite (fun _ => hG.pure _) (fun _ => hG.bind (hrecv recved) (fun r => ?_))
      exact ih r.1 r.2

theorem loopQuit (c : ℕ) (quitCode : ℤ) : G (loopQuit c quitCode) :=
  hG.bind (hG.plain _ trivial trivial) (fun _ => hG.bind (hG.plain _ trivial trivial) (fun _ => hG.pure _))

theorem recvEvents {c : ℕ} {blocking : Bool}
    (hrecv : ∀ recved, G (Libmodule.recvEvent c recved)) : G (recvEvents c blocking) := by
  refine hG.bind (hG.plain _ trivial trivial) (fun _ => hG.bind (hG.plain _ trivial trivial) (fun nfds => ?_))
  cases nfds with
  | none => exact hG.halt
  | some nfds =>
      refine hG.bind hG.getErrno (fun err => hG.bind (hG.recvRounds hrecv _ _ _) (fun r => ?_))
      obtain ⟨recved, err⟩ := r
      refine hG.bind (hG.plain _ trivial trivial) (fun _ => Closed.ite (fun _ => ?_) (fun _ => ?_))
      · exact hG.bind (hG.invoke _) (fun _ => hG.pure _)
      · exact Closed.ite (fun _ => hG.bind (hG.loopQuit c err) (fun _ => hG.pure _))
          (fun _ => hG.pure _)

theorem iterate {fn : IterFn} {c idx : ℕ} (hfn : ∀ m, G (runIterFn fn m)) :
    G (iterate fn c idx) := by
  refine hG.bind (hG.derefCtx c) (fun x => ?_)
  dsimp only
  cases x.modules[idx]? with
  | none => exact hG.pure _
  | some entry =>
      obtain ⟨key, m⟩ := entry
      refine hG.bind (hfn m) (fun rc => Closed.ite (fun _ => hG.pure _) (fun _ => ?_))
      refine Closed.ite (fun _ => hG.pure _) (fun _ => hG.bind (hG.derefCtx c) (fun y => ?_))
      refine hG.bind hG.getWorld (fun w => Closed.ite (fun _ => hG.invoke _) (fun _ => ?_))
      exact Closed.ite (fun _ => hG.pure _) (fun _ => hG.invoke _)

/-! ## Loops -/

theorem setTickEvt {c : ℕ} {flag : OpType}
    (hpoll : ∀ c src, G (act (.pollSetNewEvt c src flag))) : G (setTickEvt c flag) := by
  refine hG.bind (hG.derefCtx c) (fun x => ?_)
  cases x.tick with
  | none => exact hG.pure _
  | some tick => exact hG.bind (hpoll _ _) (fun _ => hG.pure _)

theorem loopStart {c maxEvents : ℕ} (hinner : ∀ o : Op, o.Inner → o.Bare → G (act o)) :
    G (loopStart c maxEvents) := by
  refine hG.bind (hinner _ trivial trivial) (fun _ => hG.bind (hinner _ trivial trivial) (fun _ => ?_))
  refine hG.bind (hinner _ trivial trivial) (fun _ => hG.bind (hinner _ trivial trivial) (fun _ => ?_))
  refine hG.bind (hG.invoke _) (fun _ => hG.bind (hG.tellSystemPubsubMsg _ _ _ _) (fun _ => ?_))
  exact hG.bind (hG.setTickEvt (fun _ _ => hinner _ trivial trivial)) (fun _ => hG.pure _)

theorem loopStop {c : ℕ} (hinner : ∀ o : Op, o.Inner → o.Bare → G (act o)) : G (loopStop c) := by
  refine hG.bind (hinner _ trivial trivial) (fun _ => hG.bind (hG.tellSystemPubsubMsg _ _ _ _) (fun _ => ?_))
  refine hG.bind (hG.invoke _) (fun _ =>
    hG.bind (hG.setTickEvt (fun _ _ => hinner _ trivial trivial)) (fun _ => ?_))
  refine hG.bind (hinner _ trivial trivial) (fun _ => hG.bind (hG.derefCtx c) (fun x => ?_))
  exact Closed.ite (fun _ => hG.bind (hG.invoke _) (fun _ => hG.pure _)) (fun _ => hG.pure _)

theorem mCtxRegister {name : String} {flags : ℕ} (hnew : G (do
      let c : ℕ ← act (.newCtx flags)
      act (.setTls (some c))
      return (0 : ℤ))) : G (mCtxRegister name flags) := by
  refine Closed.ite (fun _ => hG.pure _) (fun _ => hG.bind hG.getWorld (fun w => ?_))
  exact Closed.ite (fun _ => hG.pure _) (fun _ => hnew)

theorem mCtxDeregister (hrest : ∀ c, G (do
      act (.setTls none)
      let _ ← Libmodule.invoke (.iterate .ctxDestroyMods c 0)
      act (.unrefCtx c)
      return (0 : ℤ))) : G mCtxDeregister := by
  refine hG.ctxAssert (fun c => hG.bind (hG.derefCtx c) (fun x => ?_))
  exact Closed.ite (fun _ => hG.pure _) (fun _ => hrest c)

theorem mCtxSetTick {ns : ℕ} (hinner : ∀ o : Op, o.Inner → o.Bare → G (act o)) : G (mCtxSetTick ns) := by
  refine hG.ctxAssert (fun c => hG.bind (hG.setTickEvt (fun _ _ => hinner _ trivial trivial)) (fun _ => ?_))
  refine hG.bind (hinner _ trivial trivial) (fun _ => Closed.ite (fun _ => ?_) (fun _ => hG.pure _))
  refine hG.bind (hinner _ trivial trivial) (fun _ => hG.bind (hG.derefCtx c) (fun x => ?_))
  refine Closed.ite (fun _ => ?_) (fun _ => hG.pure _)
  exact hG.bind (hG.setTickEvt (fun _ _ => hinner _ trivial trivial)) (fun _ => hG.pure _)

/-! ## Other public functions -/

theorem mModBecome (mod : Option ℕ) (onEvt : ℕ) : G (mModBecome mod onEvt) :=
  hG.modAssertState (fun m => hG.consumeToken (hG.bind (hG.derefMod m) (fun _ =>
    hG.bind (hG.plain _ trivial trivial) (fun _ => hG.pure _))))

theorem mModUnbecome (mod : Option ℕ) : G (mModUnbecome mod) := by
  refine hG.modAssertState (fun m => hG.consumeToken (hG.bind (hG.derefMod m) (fun x => ?_)))
  cases x.recvs with
  | nil => exact hG.pure _
  | cons recv recvs => exact hG.bind (hG.plain _ trivial trivial) (fun _ => hG.pure _)

theorem mModStash (mod evt : Option ℕ) : G (mModStash mod evt) := by
  refine hG.modAssertState (fun m => ?_)
  cases evt with
  | none => exact hG.pure _
  | some e =>
      have hrest : ∀ flags : ℕ, G (do
          if hasFlag flags M_SRC_PRIO_HIGH then return -EPERM
          act (.stash m e)
          return 0) :=
        fun flags => Closed.ite (fun _ => hG.pure _)
          (fun _ => hG.bind (hG.plain _ trivial trivial) (fun _ => hG.pure _))
      refine hG.consumeToken (hG.bind (hG.derefEvt e) (fun x => ?_))
      cases x.src with
      | none => exact hG.bind (hG.pure _) hrest
      | some s => exact hG.bind (hG.bind (hG.derefSrc s) (fun _ => hG.pure _)) hrest

theorem unstashRounds (m len left idx : ℕ) (unstashed : List ℕ) :
    G (unstashRounds m len left idx unstashed) := by
  induction left generalizing idx unstashed with
  | zero => exact hG.pure _
  | succ left ih =>
      refine Closed.ite (fun _ => hG.pure _) (fun _ => hG.bind (hG.plain _ trivial trivial) (fun e => ?_))
      cases e with
      | none => exact hG.pure _
      | some e => exact ih _ _

theorem mModUnstash {mod : Option ℕ} {len : ℕ}
    (hcb : ∀ m evts, G (Libmodule.callPubsubCb m evts)) : G (mModUnstash mod len) := by
  refine hG.modAssertState (fun m => Closed.ite (fun _ => hG.pure _) (fun _ => ?_))
  refine hG.consumeToken (hG.bind (hG.derefMod m) (fun x => ?_))
  refine hG.bind (hG.unstashRounds m len _ _ _) (fun unstashed => ?_)
  exact hG.bind (hcb m unstashed) (fun _ => hG.pure _)

theorem mModSetBatchSize (mod : Option ℕ) (len : ℕ) : G (mModSetBatchSize mod len) :=
  hG.modAssert (fun _ => hG.consumeToken (hG.bind (hG.plain _ trivial trivial) (fun _ => hG.pure _)))

theorem mCtxQuit (quitCode : ℤ) : G (mCtxQuit quitCode) :=
  hG.ctxAssert (fun c => hG.bind (hG.derefCtx c) (fun _ =>
    Closed.ite (fun _ => hG.pure _) (fun _ => hG.loopQuit c quitCode)))

theorem mCtxFinalize : G mCtxFinalize :=
  hG.ctxAssert (fun _ => hG.bind (hG.plain _ trivial trivial) (fun _ => hG.pure _))

theorem mCtxLoopEvents {maxEvents : ℕ} (hstart : ∀ c, G (Libmodule.loopStart c maxEvents)) :
    G (mCtxLoopEvents maxEvents) := by
  refine hG.ctxAssert (fun c => Closed.ite (fun _ => hG.pure _) (fun _ => ?_))
  refine hG.bind (hG.derefCtx c) (fun x => Closed.ite (fun _ => hG.pure _) (fun _ => ?_))
  refine hG.bind (hstart c) (fun ret => ?_)
  exact Closed.ite (fun _ => hG.invoke _) (fun _ => hG.pure _)

theorem mCtxDispatch (hstart : ∀ c, G (Libmodule.loopStart c M_CTX_DEFAULT_EVENTS))
    (hstop : ∀ c, G (Libmodule.loopStop c))
    (hrecv : ∀ c recved, G (Libmodule.recvEvent c recved)) : G mCtxDispatch := by
  refine hG.ctxAssert (fun c => hG.bind (hG.derefCtx c) (fun x => ?_))
  refine Closed.ite (fun _ => hstart c) (fun _ => ?_)
  exact Closed.ite (fun _ => hstop c) (fun _ => hG.recvEvents (hrecv c))

theorem loopRounds {c : ℕ} (hstop : G (Libmodule.loopStop c))
    (hrecv : ∀ recved, G (Libmodule.recvEvent c recved)) : G (loopRounds c) := by
  refine hG.bind (hG.derefCtx c) (fun x => Closed.ite (fun _ => ?_) (fun _ => hstop))
  exact hG.bind (hG.recvEvents hrecv) (fun _ => hG.invoke _)

end Closed

/-! ## All of them -/

/-- The parts of the procedures that do something particular. -/
structure Parts (G : ∀ ⦃α : Type⦄, Lm α → Prop) : Prop where
  callPubsubCb : ∀ m evts, G (callPubsubCb m evts)
  pushEvt : ∀ m e, G (pushEvt m e)
  evalHook : ∀ m, G (optionalHook m .eval)
  start : ∀ m, G (start m true)
  stop : ∀ m, G (stop m true)
  removeOneshot : ∀ m p, G (removeOneshot m p)
  loopStart : ∀ c maxEvents, G (loopStart c maxEvents)
  loopStop : ∀ c, G (loopStop c)
  mCtxRegister : ∀ name flags, G (mCtxRegister name flags)
  mCtxDeregister : G mCtxDeregister
  mCtxSetTick : ∀ ns, G (mCtxSetTick ns)
  mModRegister : ∀ name modRef hook flags, G (mModRegister name modRef hook flags)
  modDeregister : ∀ mod fromUser, G (modDeregister mod fromUser)
  mModPause : ∀ mod, G (mModPause mod)
  mModResume : ∀ mod, G (mModResume mod)
  mModSetTokenbucket : ∀ mod rate burst, G (mModSetTokenbucket mod rate burst)
  mModSetBatchTimeout : ∀ mod ns, G (mModSetBatchTimeout mod ns)
  mModPsSubscribe : ∀ mod topic flags userptr, G (mModPsSubscribe mod topic flags userptr)
  modSrcRegister : ∀ mod type key flags userptr,
    G (modSrcRegister mod type key flags (.user userptr))
  modSrcDeregister : ∀ mod type key, G (modSrcDeregister mod type key)

namespace Parts

variable {G : ∀ ⦃α : Type⦄, Lm α → Prop} (hG : Closed G) (hp : Parts G)

include hG hp

theorem runIterFn (fn : IterFn) (m : ℕ) : G (runIterFn fn m) := by
  cases fn with
  | evaluateModule => exact hG.evaluateModule (hp.evalHook m) (hp.start m)
  | flushPubsubMsgs => exact hG.flushPubsubMsgs (hp.callPubsubCb m)
  | ctxDestroyMods => exact hp.modDeregister (some m) false

theorem recvEvent (c recved : ℕ) : G (recvEvent c recved) :=
  hG.recvEvent hp.removeOneshot hp.stop hp.pushEvt

/-- The property holds of every procedure if it does of the parts. -/
theorem body (c : Call) : G (bodyOf c) := by
  cases c with
  | mCtxRegister name flags => exact hp.mCtxRegister name flags
  | mCtxDeregister => exact hp.mCtxDeregister
  | mCtxLoopEvents maxEvents => exact hG.mCtxLoopEvents (fun c => hp.loopStart c maxEvents)
  | mCtxQuit quitCode => exact hG.mCtxQuit quitCode
  | mCtxDispatch =>
      exact hG.mCtxDispatch (fun c => hp.loopStart c _) hp.loopStop (recvEvent hG hp)
  | mCtxFinalize => exact hG.mCtxFinalize
  | mCtxSetTick ns => exact hp.mCtxSetTick ns
  | mModRegister name modRef hook flags => exact hp.mModRegister name modRef hook flags
  | mModDeregister mod => exact hp.modDeregister mod true
  | mModStart mod => exact hG.mModStart hp.start
  | mModPause mod => exact hp.mModPause mod
  | mModResume mod => exact hp.mModResume mod
  | mModStop mod => exact hG.mModStop hp.stop
  | mModBind mod ref => exact hG.mModBind mod ref
  | mModSetTokenbucket mod rate burst => exact hp.mModSetTokenbucket mod rate burst
  | mModBecome mod onEvt => exact hG.mModBecome mod onEvt
  | mModUnbecome mod => exact hG.mModUnbecome mod
  | mModStash mod evt => exact hG.mModStash mod evt
  | mModUnstash mod len => exact hG.mModUnstash hp.callPubsubCb
  | mModSetBatchSize mod len => exact hG.mModSetBatchSize mod len
  | mModSetBatchTimeout mod ns => exact hp.mModSetBatchTimeout mod ns
  | mModPsSubscribe mod topic flags userptr => exact hp.mModPsSubscribe mod topic flags _
  | mModPsUnsubscribe mod topic => exact hG.mModPsUnsubscribe mod topic
  | mModPsTell mod recipient message flags => exact hG.mModPsTell mod recipient message flags
  | mModPsPublish mod topic message flags => exact hG.mModPsPublish mod topic message flags
  | mModPsPoisonpill mod recipient => exact hG.mModPsPoisonpill mod recipient
  | mModSrcRegister mod type key flags userptr => exact hp.modSrcRegister mod type key flags _
  | mModSrcDeregister mod type key => exact hp.modSrcDeregister mod type key
  | setErrno errno => exact hG.bind (hG.plain _ trivial trivial) (fun _ => hG.pure _)
  | iterate fn c idx => exact hG.iterate (runIterFn hG hp fn)
  | modBound fn m idx => exact hG.modBound fn m idx
  | loopRounds c => exact hG.loopRounds (hp.loopStop c) (recvEvent hG hp c)

end Parts

/-- The parts that only start and stop modules have the property when it is one of all
operations that do that. -/
structure OfInner (G : ∀ ⦃α : Type⦄, Lm α → Prop) : Prop where
  inner : ∀ o : Op, o.Inner → o.Bare → G (act o)
  callPubsubCb : ∀ m evts, G (callPubsubCb m evts)
  pushEvt : ∀ m e, G (pushEvt m e)
  optionalHook : ∀ m req, G (optionalHook m req)
  mCtxRegister : ∀ name flags, G (mCtxRegister name flags)
  mCtxDeregister : G mCtxDeregister
  mModRegister : ∀ name modRef hook flags, G (mModRegister name modRef hook flags)
  modDeregister : ∀ mod fromUser, G (modDeregister mod fromUser)

namespace OfInner

variable {G : ∀ ⦃α : Type⦄, Lm α → Prop} (hG : Closed G)

include hG

theorem manageSrcs {m c : ℕ} {flag : OpType} {stop : Bool}
    (hinner : ∀ o : Op, o.Inner → o.Bare → G (act o)) (hcb : ∀ m evts, G (Libmodule.callPubsubCb m evts)) :
    G (manageSrcs m c flag stop MSrcType.all 0) :=
  hG.manageSrcs (fun _ => hG.manageTree (fun _ _ => hinner _ trivial trivial)
    (fun _ _ => hinner _ trivial trivial) (fun _ _ => hcb m)) _ _

theorem stop {m : ℕ} {stopping : Bool} (hinner : ∀ o : Op, o.Inner → o.Bare → G (act o))
    (hcb : ∀ m evts, G (Libmodule.callPubsubCb m evts))
    (hhook : ∀ m req, G (Libmodule.optionalHook m req)) : G (stop m stopping) :=
  hG.stop (fun _ => manageSrcs hG hinner hcb) (hinner _ trivial trivial) (hG.resetModule hinner)
    (hhook m .stop)

theorem start {m : ℕ} {starting : Bool} (hinner : ∀ o : Op, o.Inner → o.Bare → G (act o))
    (hcb : ∀ m evts, G (Libmodule.callPubsubCb m evts))
    (hhook : ∀ m req, G (Libmodule.optionalHook m req)) : G (start m starting) :=
  hG.start (fun _ => hG.initPubsubFd hinner) (fun _ => manageSrcs hG hinner hcb)
    (hinner _ trivial trivial) (fun _ => hhook m .start) (stop hG hinner hcb hhook)

theorem parts (hp : OfInner G) : Parts G where
  callPubsubCb := hp.callPubsubCb
  pushEvt := hp.pushEvt
  evalHook := fun m => hp.optionalHook m .eval
  start := fun _ => start hG hp.inner hp.callPubsubCb hp.optionalHook
  stop := fun _ => stop hG hp.inner hp.callPubsubCb hp.optionalHook
  removeOneshot := fun _ _ => hG.removeOneshot (fun _ _ => hp.inner _ trivial trivial)
  loopStart := fun _ _ => hG.loopStart hp.inner
  loopStop := fun _ => hG.loopStop hp.inner
  mCtxRegister := hp.mCtxRegister
  mCtxDeregister := hp.mCtxDeregister
  mCtxSetTick := fun _ => hG.mCtxSetTick hp.inner
  mModRegister := hp.mModRegister
  modDeregister := hp.modDeregister
  mModPause := fun _ => hG.mModPause (fun _ => stop hG hp.inner hp.callPubsubCb hp.optionalHook)
  mModResume := fun _ =>
    hG.mModResume (fun _ => start hG hp.inner hp.callPubsubCb hp.optionalHook)
  mModSetTokenbucket := fun _ _ _ => hG.mModSetTokenbucket (fun _ _ _ _ => hp.inner _ trivial rfl)
    (fun _ _ _ _ _ => hG.registerModSrc (fun _ _ => hp.inner _ trivial trivial)
      (fun _ _ => hp.inner _ trivial trivial))
    (fun _ _ _ => hG.deregisterModSrc (fun _ => hp.inner _ trivial trivial))
  mModSetBatchTimeout := fun _ _ => hG.mModSetBatchTimeout (fun _ _ => hp.inner _ trivial trivial)
    (fun _ _ _ _ _ => hG.registerModSrc (fun _ _ => hp.inner _ trivial trivial)
      (fun _ _ => hp.inner _ trivial trivial))
    (fun _ _ _ => hG.deregisterModSrc (fun _ => hp.inner _ trivial trivial))
  mModPsSubscribe := fun _ _ _ _ => hG.mModPsSubscribe (fun _ _ => hp.inner _ trivial trivial)
  modSrcRegister := fun _ _ _ _ _ => hG.modSrcRegister (hG.registerModSrc
    (fun _ _ => hp.inner _ trivial trivial) (fun _ _ => hp.inner _ trivial trivial))
  modSrcDeregister := fun _ _ _ =>
    hG.modSrcDeregister (hG.deregisterModSrc (fun _ => hp.inner _ trivial trivial))

/-- A property of all bare operations and of the callbacks. -/
theorem of_bare (hbare : ∀ o : Op, o.Bare → G (act o)) (hnotify : ∀ h, G (notify h))
    (hpush : (∀ m evts, G (Libmodule.callPubsubCb m evts)) → ∀ m e, G (Libmodule.pushEvt m e)) :
    OfInner G := by
  have hlock : ∀ {α : Type} {m : ℕ} {p : Lm α}, G p → G (Libmodule.memLock m p) :=
    fun hp => hG.memLock (hbare _ trivial) (hbare _ trivial) hp
  have hcb : ∀ m evts, G (Libmodule.callPubsubCb m evts) := fun m evts =>
    hG.callPubsubCb hlock (fun _ _ => hbare _ trivial) (fun _ _ => hnotify _)
  have hhook : ∀ m req, G (Libmodule.optionalHook m req) := fun m req =>
    hG.optionalHook hlock (fun _ _ => hbare _ trivial) hnotify
  have hinner : ∀ o : Op, o.Inner → o.Bare → G (act o) := fun _ _ ho => hbare _ ho
  have hderegister : ∀ mod fromUser, G (Libmodule.modDeregister mod fromUser) :=
    fun mod fromUser => hG.modDeregister hlock (fun _ _ => hbare _ trivial)
      (fun m => stop hG hinner hcb hhook) (fun _ => hbare _ trivial) (fun _ _ => hbare _ trivial)
  exact
    { inner := hinner
      callPubsubCb := hcb
      pushEvt := hpush hcb
      optionalHook := hhook
      mCtxRegister := fun name flags => hG.mCtxRegister (hG.bind (hbare _ trivial)
        (fun _ => hG.bind (hbare _ trivial) (fun _ => hG.pure _)))
      mCtxDeregister := hG.mCtxDeregister (fun c => hG.bind (hbare _ trivial)
        (fun _ => hG.bind (hG.invoke _) (fun _ => hG.bind (hbare _ trivial)
          (fun _ => hG.pure _))))
      mModRegister := by
        intro name modRef hook flags
        refine hG.mModRegister (fun m => hderegister (some m) false) (fun c hooks => ?_)
        refine hG.bind (hbare _ trivial) (fun r => ?_)
        refine Closed.ite (fun _ => hG.pure _) (fun _ => ?_)
        exact Closed.ite (fun _ => hG.bind (hbare _ trivial) (fun _ => hG.pure _))
          (fun _ => hG.pure _)
      modDeregister := hderegister }

end OfInner

/-! ## Invariants at the boundary -/

section Respects

variable {γ ι : Type} {depth : ℕ} {W : Monitor LibLang World γ} {I : ι → World → γ → Prop}
  {P : ι → Hook → World → γ → Prop}

/-- The program, begun where the invariant holds, ends where it holds. -/
def Respects (depth : ℕ) (W : Monitor LibLang World γ) (I : ι → World → γ → Prop) ⦃α : Type⦄
    (p : Lm α) : Prop :=
  ∀ i w g, I i w g → p.Grants (handler depth) W w g (fun _ => I i)

/-- A step that is as shown and keeps the invariant. -/
def Op.Kept (W : Monitor LibLang World γ) (I : ι → World → γ → Prop) (o : Op) : Prop :=
  ∀ i w g, I i w g → W.assumed g ⟨.op o, w⟩ → W.shown g ⟨.op o, w⟩ ∧
    ∀ r w', o.exec w = some (r, w') → I i w' (W.next g ⟨.op o, w⟩)

theorem grants_act {o : Op} {w : World} {g : γ} {post : o.Resp → World → γ → Prop}
    (h : W.assumed g ⟨.op o, w⟩ → W.shown g ⟨.op o, w⟩ ∧
      ∀ r w', o.exec w = some (r, w') → post r w' (W.next g ⟨.op o, w⟩)) :
    (act o).Grants (handler depth) W w g post := by
  apply Prog.Grants.perform
  intro hassumed
  refine ⟨(h hassumed).1, fun r w' hexec => (h hassumed).2 r w' ?_⟩
  rwa [machine.handler_exec depth] at hexec

theorem respects_act {o : Op} (ho : o.Kept W I) : Respects depth W I (act o) :=
  fun i w g hI => grants_act (ho i w g hI)

theorem respects_bind {α β : Type} {p : Lm α} {f : α → Lm β} (hp : Respects depth W I p)
    (hf : ∀ a, Respects depth W I (f a)) : Respects depth W I (p >>= f) :=
  fun i w g hI => (hp i w g hI).bind (fun a w' g' hI' => hf a i w' g' hI')

theorem composed_of_consume (hhalt : ∀ i w g, I i w g → W.shown g ⟨.halt, w⟩)
    (hcommon : ∀ o : Op, o.Common → o.Bare → o.Kept W I)
    (hconsume : ∀ {m : ℕ} {rest : Lm ℤ}, Respects depth W I rest →
      Respects depth W I (consumeToken m rest)) : Composed (Respects depth W I) where
  pure := fun _ _ _ _ hI => Prog.Grants.pure hI
  halt := fun i w g hI => Prog.Grants.halt (hhalt i w g hI)
  bind := respects_bind
  common := fun o ho hbare => respects_act (hcommon o ho hbare)
  consume := hconsume

theorem composed_respects (hhalt : ∀ i w g, I i w g → W.shown g ⟨.halt, w⟩)
    (hcommon : ∀ o : Op, o.Common → o.Kept W I) : Composed (Respects depth W I) := by
  apply composed_of_consume hhalt (fun o ho _ => hcommon o ho)
  intro m rest hrest
  refine respects_bind (respects_bind (respects_act (hcommon .get trivial)) (fun w => ?_))
    (fun x => ?_)
  · cases modAt w.heap m with
    | none => exact fun i w g hI => Prog.Grants.halt (hhalt i w g hI)
    | some x => exact fun _ _ _ hI => Prog.Grants.pure hI
  · split
    next => exact fun _ _ _ hI => Prog.Grants.pure hI
    next => exact respects_bind (respects_act (hcommon _ trivial)) (fun _ => hrest)

theorem respects_invoke (hH : (machine.handler depth).Maintains W I P)
    (hcall : ∀ i c w g, I i w g → W.assumed g ⟨.call c, w⟩ →
      W.shown g ⟨.call c, w⟩ ∧ I i w (W.next g ⟨.call c, w⟩)) (c : Call) :
    Respects depth W I (invoke c) := by
  intro i w g hI
  apply Prog.Grants.invoke
  intro hassumed
  obtain ⟨hshown, hnext⟩ := hcall i c w g hI hassumed
  exact ⟨hshown, hH.onCall i c w _ hnext⟩

theorem closed_respects (hH : (machine.handler depth).Maintains W I P)
    (hhalt : ∀ i w g, I i w g → W.shown g ⟨.halt, w⟩)
    (hplain : ∀ o : Op, o.Plain → o.Kept W I)
    (hcall : ∀ i c w g, I i w g → W.assumed g ⟨.call c, w⟩ →
      W.shown g ⟨.call c, w⟩ ∧ I i w (W.next g ⟨.call c, w⟩)) :
    Closed (Respects depth W I) where
  toComposed := composed_respects hhalt (fun o ho => hplain o ho.plain)
  plain := fun o ho _ => respects_act (hplain o ho)
  invoke := respects_invoke hH hcall

/-- A callback that begins as `P` says. -/
theorem respects_notify (hH : (machine.handler depth).Maintains W I P) {h : Hook}
    (hbegin : ∀ i w g, I i w g → W.assumed g ⟨.hook h, w⟩ →
      W.shown g ⟨.hook h, w⟩ ∧ P i h w (W.next g ⟨.hook h, w⟩)) :
    Respects depth W I (notify h) := by
  intro i w g hI
  apply Prog.Grants.notify
  intro hassumed
  obtain ⟨hshown, hP⟩ := hbegin i w g hI hassumed
  exact ⟨hshown, hH.onHook i h w _ hP⟩

end Respects

end Libmodule
