import Libmodule.Reentrant
import Libmodule.World

/-!
# The interface of the library

The public functions of `module/ctx.h` and `module/mod.h` as calls, the places
where the library calls the user's code, and the state in which it all runs.
The user's code is a list of reactions: each time a callback runs, it makes the
calls of the next one and returns its answer.  Past the end of the list a
callback does nothing and returns true.
-/

namespace Libmodule

open RefHeap

/-- The functions that the library passes to `m_iterate` and that run callbacks. -/
inductive IterFn where
  | evaluateModule
  | flushPubsubMsgs
  | ctxDestroyMods
  deriving DecidableEq

/-- The functions that `M_MOD_BOUND` calls on bound modules. -/
inductive BoundFn where
  | mModStart
  | mModPause
  | mModResume
  | mModStop
  deriving DecidableEq

inductive Call where
  | mCtxRegister (name : String) (flags : ℕ)
  | mCtxDeregister
  | mCtxLoopEvents (maxEvents : ℕ)
  | mCtxQuit (quitCode : ℤ)
  | mCtxDispatch
  | mCtxFinalize
  | mCtxSetTick (ns : ℕ)
  | mModRegister (name : String) (modRef : Bool) (hook : Option ModHooks) (flags : ℕ)
  | mModDeregister (mod : Option ℕ)
  | mModStart (mod : Option ℕ)
  | mModPause (mod : Option ℕ)
  | mModResume (mod : Option ℕ)
  | mModStop (mod : Option ℕ)
  | mModBind (mod ref : Option ℕ)
  | mModSetTokenbucket (mod : Option ℕ) (rate burst : ℕ)
  | mModBecome (mod : Option ℕ) (onEvt : ℕ)
  | mModUnbecome (mod : Option ℕ)
  | mModStash (mod evt : Option ℕ)
  | mModUnstash (mod : Option ℕ) (len : ℕ)
  | mModSetBatchSize (mod : Option ℕ) (len : ℕ)
  | mModSetBatchTimeout (mod : Option ℕ) (ns : ℕ)
  | mModPsSubscribe (mod : Option ℕ) (topic : Option String) (flags : ℕ) (userptr : ℕ)
  | mModPsUnsubscribe (mod : Option ℕ) (topic : Option String)
  | mModPsTell (mod recipient : Option ℕ) (message : Option ℕ) (flags : ℕ)
  | mModPsPublish (mod : Option ℕ) (topic : Option String) (message : Option ℕ) (flags : ℕ)
  | mModPsPoisonpill (mod recipient : Option ℕ)
  | mModSrcRegister (mod : Option ℕ) (type : MSrcType) (key : Words) (flags : ℕ) (userptr : ℕ)
  | mModSrcDeregister (mod : Option ℕ) (type : MSrcType) (key : Words)
  /-- The user's code leaves a value in `errno`. -/
  | setErrno (errno : ℤ)
  /-- The rest of an iteration over the modules of a context. -/
  | iterate (fn : IterFn) (c idx : ℕ)
  /-- The rest of `M_MOD_BOUND`. -/
  | modBound (fn : BoundFn) (mod idx : ℕ)
  /-- The rest of the loop of `m_ctx_loop_events`. -/
  | loopRounds (c : ℕ)

inductive Hook where
  | onEval (mod : ℕ)
  | onStart (mod : ℕ)
  | onStop (mod : ℕ)
  | onEvt (mod : ℕ) (recv : Option ℕ) (evts : List ℕ)
  deriving DecidableEq

structure Reaction where
  calls : List Call
  ret : Bool

structure World where
  heap : Heap Obj
  sys : Sys
  tls : Option ℕ
  host : Host
  script : List Reaction
  polls : List PollAnswer
  batches : List Batch

namespace World

/-- The state before the first call of a thread. -/
def initial (host : Host) (script : List Reaction) (polls : List PollAnswer)
    (faults : List ℤ) : World where
  heap := []
  sys :=
    { errno := 0
      files := []
      pipes := []
      epoll := []
      faults := faults
      freedData := []
      freedUserptr := [] }
  tls := none
  host := host
  script := script
  polls := polls
  batches := []

def react (_ : Hook) (w : World) : List Call × Bool × World :=
  match w.script with
  | [] => ([], true, w)
  | r :: script => (r.calls, r.ret, { w with script := script })

theorem react_heap (h : Hook) (w : World) : (react h w).2.2.heap = w.heap := by
  unfold react
  cases w.script <;> rfl

end World

end Libmodule
