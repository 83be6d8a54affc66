import Mathlib.Data.List.Basic
import Libmodule.Errno

/-!
# The thread pool

`thpool.c` as parties that take steps: the owner of the pool, who runs
`m_thpool_new` and later `m_thpool_free`, any number of callers of the other
functions, and the workers.  A step ends where another thread can come in
between: at every operation on the mutex and the condition variable, and at every
access to the pool outside of the mutex.
-/

namespace Libmodule

structure ThpoolFlags where
  lazy : Bool
  detached : Bool
  deriving DecidableEq

inductive Shutdown where
  | no
  | waitCurr
  | waitAll
  deriving DecidableEq

/-! The bits of `init_state`. -/

def initedThreads : ℕ := 0x01
def initedTasks : ℕ := 0x02
def initedMut : ℕ := 0x04
def initedCond : ℕ := 0x08
def initedStarted : ℕ := 0x10

inductive Party where
  | owner
  | caller (a : ℕ)
  | worker (w : ℕ)
  deriving DecidableEq

/-- The pool; threads and tasks are named by the order of their creation. -/
structure Thpool where
  maxThreads : ℕ
  initState : ℕ
  shutdown : Shutdown
  lock : Option Party
  threads : List ℕ
  tasks : List ℕ
  runningTasks : ℕ
  flags : ThpoolFlags
  deriving DecidableEq

/-- Where a worker is in `thpool_thread`. -/
inductive WorkerPc where
  | lock
  | testWait
  | waiting
  | relock
  | testQuit
  | dequeue
  | unlock (task : Option ℕ)
  | startTask (task : Option ℕ)
  | callTask (task : Option ℕ)
  | endTask
  | leave
  | exited
  deriving DecidableEq

inductive ThpoolCall where
  | add
  | length
  | clear
  deriving DecidableEq

/-- Where a caller is in `m_thpool_add`, `m_thpool_length` or `m_thpool_clear`. -/
inductive CallerPc where
  | idle
  | assertRunning (call : ThpoolCall)
  | assertStarted (call : ThpoolCall)
  | lock (call : ThpoolCall)
  | grow
  | create
  | insert (th : ℕ)
  | newTask
  | enqueue (task : ℕ)
  | signal (task : ℕ)
  | readLength
  | clearTasks
  | unlock (task : Option ℕ)
  deriving DecidableEq

/-- Where a call goes on when it has taken the mutex. -/
def ThpoolCall.locked (isLazy : Bool) : ThpoolCall → CallerPc
  | .add => if isLazy then .grow else .newTask
  | .length => .readLength
  | .clear => .clearTasks

/-- The calls of `m_thpool_free`: by `m_thpool_new` on its error path, or by the user. -/
inductive FreeCall where
  | newFailed
  | user (waitAll : Bool)
  deriving DecidableEq

def FreeCall.waitAll : FreeCall → Bool
  | .newFailed => false
  | .user waitAll => waitAll

/-- Where the owner is in `m_thpool_new` or `m_thpool_free`. -/
inductive OwnerPc where
  | newPool
  | newThreads
  | newTasks
  | initMut
  | initCond
  | create (i : ℕ)
  | insert (i th : ℕ)
  | started
  | ready
  | stage (free : FreeCall) (i : ℕ)
  | lock (free : FreeCall)
  | setShutdown (free : FreeCall)
  | broadcast (free : FreeCall)
  | unlock (free : FreeCall)
  | newItr (free : FreeCall)
  | join (free : FreeCall) (rest : List ℕ)
  | clearStarted (free : FreeCall)
  | freePool (free : FreeCall)
  | returned (free : FreeCall)
  | failed
  deriving DecidableEq

/-- The whole process.  The last fields record what happened: the tasks whose
`m_thpool_add` returned 0, those a worker took, those whose function has returned, those
the queue freed and those it had no element for. -/
structure PoolState where
  pool : Thpool
  owner : OwnerPc
  callers : List CallerPc
  workers : List WorkerPc
  created : ℕ
  destroyed : Bool
  crashed : Bool
  added : List ℕ
  dequeued : List ℕ
  executed : List ℕ
  cleared : List ℕ
  lost : List ℕ
  deriving DecidableEq

/-- What a step gets from outside: the success of a pthread call, memory, and the worker
that `pthread_cond_signal` wakes up. -/
structure Answer where
  ok : Bool
  mem : Bool
  woken : ℕ
  deriving DecidableEq

namespace Thpool

def acquire (pool : Thpool) (party : Party) : Option Thpool :=
  match pool.lock with
  | none => some { pool with lock := some party }
  | some _ => none

def release (pool : Thpool) : Thpool := { pool with lock := none }

def hasSpace (pool : Thpool) : Bool := pool.runningTasks < pool.threads.length

end Thpool

namespace PoolState

def initial (threadCount : ℕ) (flags : ThpoolFlags) (callers : ℕ) : PoolState where
  pool := ⟨threadCount, 0, .no, none, [], [], 0, flags⟩
  owner := .newPool
  callers := List.replicate callers .idle
  workers := []
  created := 0
  destroyed := false
  crashed := false
  added := []
  dequeued := []
  executed := []
  cleared := []
  lost := []

def moveOwner (s : PoolState) (pc : OwnerPc) : PoolState := { s with owner := pc }

def moveCaller (s : PoolState) (a : ℕ) (pc : CallerPc) : PoolState :=
  { s with callers := s.callers.set a pc }

def moveWorker (s : PoolState) (w : ℕ) (pc : WorkerPc) : PoolState :=
  { s with workers := s.workers.set w pc }

def crash (s : PoolState) : PoolState := { s with crashed := true }

/-- `pthread_create`: a new worker at the head of its function. -/
def spawn (s : PoolState) : PoolState := { s with workers := s.workers ++ [.lock] }

/-- `m_list_insert` puts the thread first; without memory for a node it returns an error,
which `add_threads` ignores. -/
def listInsert (s : PoolState) (th : ℕ) (mem : Bool) : PoolState :=
  if mem then { s with pool := { s.pool with threads := th :: s.pool.threads } } else s

def wakeUp : WorkerPc → WorkerPc
  | .waiting => .relock
  | pc => pc

/-- `m_queue_clear`, with `free` as the queue's destructor. -/
def clearTasks (s : PoolState) : PoolState :=
  { s with
    pool := { s.pool with tasks := [] }
    cleared := s.cleared ++ s.pool.tasks }

/-- One step of a worker in `thpool_thread`. -/
def workerStep (s : PoolState) (w : ℕ) : WorkerPc → Option PoolState
  | .lock | .relock => do
      let pool ← s.pool.acquire (.worker w)
      some ({ s with pool := pool }.moveWorker w .testWait)
  | .testWait =>
      if s.pool.tasks = [] ∧ s.pool.shutdown = .no then
        some ({ s with pool := s.pool.release }.moveWorker w .waiting)
      else some (s.moveWorker w .testQuit)
  | .waiting => none
  | .testQuit =>
      if s.pool.shutdown ≠ .no ∧ (s.pool.shutdown = .waitCurr ∨ s.pool.tasks = []) then
        some (s.moveWorker w .leave)
      else some (s.moveWorker w .dequeue)
  | .dequeue =>
      match s.pool.tasks with
      | [] => some (s.moveWorker w (.unlock none))
      | task :: tasks =>
          some ({ s with
            pool := { s.pool with tasks := tasks }
            dequeued := s.dequeued ++ [task] }.moveWorker w (.unlock (some task)))
  | .unlock task => some ({ s with pool := s.pool.release }.moveWorker w (.startTask task))
  | .startTask task =>
      some ({ s with
        pool := { s.pool with runningTasks := s.pool.runningTasks + 1 } }.moveWorker w
          (.callTask task))
  | .callTask none => some s.crash
  | .callTask (some task) =>
      some ({ s with executed := s.executed ++ [task] }.moveWorker w .endTask)
  | .endTask =>
      some ({ s with
        pool := { s.pool with runningTasks := s.pool.runningTasks - 1 } }.moveWorker w .lock)
  | .leave => some ({ s with pool := s.pool.release }.moveWorker w .exited)
  | .exited => none

/-- `pthread_cond_signal` wakes up a worker that waits, if there is one. -/
def signal (s : PoolState) (woken : ℕ) : Option PoolState :=
  if .waiting ∈ s.workers then
    if s.workers[woken]? = some .waiting then some (s.moveWorker woken .relock) else none
  else some s

/-- One step of a caller. -/
def callerStep (s : PoolState) (a : ℕ) (answer : Answer) : CallerPc → Option PoolState
  | .idle => none
  | .assertRunning call =>
      if s.pool.shutdown = .no then some (s.moveCaller a (.assertStarted call))
      else some (s.moveCaller a .idle)
  | .assertStarted call =>
      if s.pool.initState &&& initedStarted ≠ 0 then some (s.moveCaller a (.lock call))
      else some (s.moveCaller a .idle)
  | .lock call => do
      let pool ← s.pool.acquire (.caller a)
      some ({ s with pool := pool }.moveCaller a (call.locked s.pool.flags.lazy))
  | .grow =>
      if ¬ s.pool.hasSpace ∧ s.pool.threads.length < s.pool.maxThreads then
        some (s.moveCaller a .create)
      else some (s.moveCaller a .newTask)
  | .create =>
      if ¬ answer.mem then some s.crash
      else if answer.ok then some (s.spawn.moveCaller a (.insert s.workers.length))
      -- the error of pthread_create is returned at once, with the mutex taken
      else some (s.moveCaller a .idle)
  | .insert th => some ((s.listInsert th answer.mem).moveCaller a .newTask)
  | .newTask =>
      if answer.mem then
        some ({ s with created := s.created + 1 }.moveCaller a (.enqueue s.created))
      else some s.crash
  | .enqueue task =>
      -- the result of m_queue_enqueue is not looked at
      if answer.mem then
        some ({ s with pool := { s.pool with tasks := s.pool.tasks ++ [task] } }.moveCaller a
          (.signal task))
      else some ({ s with lost := s.lost ++ [task] }.moveCaller a (.signal task))
  | .signal task => do
      let s ← s.signal answer.woken
      some (s.moveCaller a (.unlock (some task)))
  | .readLength => some (s.moveCaller a (.unlock none))
  | .clearTasks => some (s.clearTasks.moveCaller a (.unlock none))
  | .unlock task =>
      some ({ s with
        pool := s.pool.release
        added := task.toList ++ s.added }.moveCaller a .idle)

/-- `init_state` with one more bit, when the stage succeeds; else `m_thpool_free`. -/
def inited (s : PoolState) (ok : Bool) (bit : ℕ) (pc : OwnerPc) : PoolState :=
  if ok then
    { s with pool := { s.pool with initState := s.pool.initState ||| bit }, owner := pc }
  else s.moveOwner (.stage .newFailed ((s.pool.initState + 1) >>> 1))

/-- A stage of `m_thpool_free`: `ok` is the result of the pthread call in it. -/
def freeStage (s : PoolState) (free : FreeCall) (i : ℕ) (ok : Bool) : PoolState :=
  if i = 0 then s.moveOwner (.freePool free)
  else if i = initedStarted then s.moveOwner (.lock free)
  else if i = initedCond ∨ i = initedMut then
    if ok then { s with destroyed := true, owner := .stage free (i >>> 1) }
    else s.moveOwner (.freePool free)
  else if i = initedTasks then
    { s.clearTasks with destroyed := true, owner := .stage free (i >>> 1) }
  else if i = initedThreads then
    { s with pool := { s.pool with threads := [] }, owner := .stage free (i >>> 1) }
  else s.moveOwner (.stage free (i >>> 1))

/-- One step of the owner in `m_thpool_new` or `m_thpool_free`. -/
def ownerStep (s : PoolState) (answer : Answer) : OwnerPc → Option PoolState
  | .newPool =>
      if 0 < s.pool.maxThreads ∧ answer.mem then some (s.moveOwner .newThreads)
      else some (s.moveOwner .failed)
  | .newThreads => some (s.inited answer.mem initedThreads .newTasks)
  | .newTasks => some (s.inited answer.mem initedTasks .initMut)
  | .initMut => some (s.inited answer.ok initedMut .initCond)
  | .initCond =>
      some (s.inited answer.ok initedCond (if s.pool.flags.lazy then .started else .create 0))
  | .create i =>
      if i < s.pool.maxThreads then
        if ¬ answer.mem then some s.crash
        else if answer.ok then some (s.spawn.moveOwner (.insert i s.workers.length))
        else some (s.moveOwner (.stage .newFailed ((s.pool.initState + 1) >>> 1)))
      else some (s.moveOwner .started)
  | .insert i th => some ((s.listInsert th answer.mem).moveOwner (.create (i + 1)))
  | .started => some (s.inited true initedStarted .ready)
  | .ready => none
  | .stage free i => some (s.freeStage free i answer.ok)
  | .lock free => do
      let pool ← s.pool.acquire .owner
      some { s with pool := pool, owner := .setShutdown free }
  | .setShutdown free =>
      some { s with
        pool := { s.pool with shutdown := if free.waitAll then .waitAll else .waitCurr }
        owner := .broadcast free }
  | .broadcast free =>
      some { s with workers := s.workers.map wakeUp, owner := .unlock free }
  | .unlock free =>
      some { s with
        pool := s.pool.release
        owner := if s.pool.flags.detached then .clearStarted free else .newItr free }
  | .newItr free =>
      -- without an iterator the loop of m_itr_foreach has no rounds
      if s.pool.threads ≠ [] ∧ answer.mem then some (s.moveOwner (.join free s.pool.threads))
      else some (s.moveOwner (.clearStarted free))
  | .join free [] => some (s.moveOwner (.clearStarted free))
  | .join free (th :: rest) =>
      if s.workers[th]? = some .exited then some (s.moveOwner (.join free rest)) else none
  | .clearStarted free =>
      some { s with
        pool := { s.pool with
          initState := s.pool.initState ^^^ (s.pool.initState &&& initedStarted) }
        owner := .stage free (initedStarted >>> 1) }
  | .freePool free => some { s with destroyed := true, owner := .returned free }
  | .returned _ => none
  | .failed => none

end PoolState

/-- What the scheduler chooses: the next step of a party, a call, or a wake-up of a waiting
worker that nobody signalled. -/
inductive PoolEvent where
  | owner (answer : Answer)
  | free (waitAll : Bool)
  | call (a : ℕ) (call : ThpoolCall)
  | caller (a : ℕ) (answer : Answer)
  | worker (w : ℕ)
  | wake (w : ℕ)
  deriving DecidableEq

namespace PoolState

/-- Callers have the pool from the return of `m_thpool_new` on, until the owner calls
`m_thpool_free`; what they have begun by then goes on. -/
def step (s : PoolState) (e : PoolEvent) : Option PoolState :=
  if s.crashed then none
  else match e with
  | .owner answer => s.ownerStep answer s.owner
  | .free waitAll =>
      if s.owner = .ready then
        some (s.moveOwner (.stage (.user waitAll) ((s.pool.initState + 1) >>> 1)))
      else none
  | .call a call =>
      if s.owner = .ready ∧ s.callers[a]? = some .idle then
        some (s.moveCaller a (.assertRunning call))
      else none
  | .caller a answer => s.callers[a]? >>= s.callerStep a answer
  | .worker w => s.workers[w]? >>= s.workerStep w
  | .wake w =>
      if s.workers[w]? = some .waiting then some (s.moveWorker w .relock) else none

end PoolState

end Libmodule
