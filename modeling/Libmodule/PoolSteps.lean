import Libmodule.Interleaving
import Libmodule.ThreadPool

/-!
# What a step of the thread pool can do

The fields that a step of a worker, of a caller and of the owner leaves alone, and the
mutex: who is between its lock and its unlock holds it.
-/

namespace Libmodule

open Interleaving

/-! ## Critical sections -/

def WorkerPc.critical : WorkerPc → Bool
  | .testWait | .testQuit | .dequeue | .unlock _ | .leave => true
  | _ => false

def CallerPc.critical : CallerPc → Bool
  | .idle | .assertRunning _ | .assertStarted _ | .lock _ => false
  | _ => true

def OwnerPc.critical : OwnerPc → Bool
  | .setShutdown _ | .broadcast _ | .unlock _ => true
  | _ => false

namespace PoolState

/-- The party is in a critical section. -/
def Critical (s : PoolState) : Party → Prop
  | .owner => s.owner.critical
  | .caller a => ∃ pc, s.callers[a]? = some pc ∧ pc.critical
  | .worker w => ∃ pc, s.workers[w]? = some pc ∧ pc.critical

variable {s s' : PoolState} {w a : ℕ} {answer : Answer}

/-! ## Steps of a worker -/

/-- What a step of the worker `w` to `pc` leaves alone. -/
structure WorkerFrame (s s' : PoolState) (w : ℕ) (pc : WorkerPc) : Prop where
  workers : s'.workers = s.workers.set w pc
  owner : s'.owner = s.owner
  callers : s'.callers = s.callers
  threads : s'.pool.threads = s.pool.threads
  initState : s'.pool.initState = s.pool.initState
  shutdown : s'.pool.shutdown = s.pool.shutdown
  maxThreads : s'.pool.maxThreads = s.pool.maxThreads
  flags : s'.pool.flags = s.pool.flags
  created : s'.created = s.created
  destroyed : s'.destroyed = s.destroyed
  added : s'.added = s.added
  cleared : s'.cleared = s.cleared
  lost : s'.lost = s.lost

theorem WorkerFrame.moved {pc pc' q : WorkerPc} (hframe : WorkerFrame s s' w pc')
    (hpc : s.workers[w]? = some pc) (hq : s'.workers = s.workers.set w q) : pc' = q := by
  have hw := getElem?_set_of_some (y := pc') hpc
  rw [← hframe.workers, hq, getElem?_set_of_some hpc] at hw
  exact (Option.some.inj hw).symm

theorem acquire_eq_some {pool pool' : Thpool} {p : Party} :
    pool.acquire p = some pool' ↔ pool.lock = none ∧ { pool with lock := some p } = pool' := by
  unfold Thpool.acquire
  cases pool.lock with
  | none => simp
  | some q => simp

theorem workerStep_frame {pc : WorkerPc} (hpc : s.workers[w]? = some pc)
    (hstep : s.workerStep w pc = some s') :
    ∃ pc', WorkerFrame s s' w pc' ∧
      Handover (.worker w) pc.critical pc'.critical s.pool.lock s'.pool.lock := by
  cases pc with
  | lock | relock =>
      simp only [workerStep, Option.bind_eq_bind, Option.bind_eq_some_iff, acquire_eq_some] at hstep
      obtain ⟨_, ⟨hfree, rfl⟩, hs'⟩ := hstep
      cases hs'
      exact ⟨.testWait, by constructor <;> rfl, .take hfree rfl⟩
  | testWait =>
      simp only [workerStep] at hstep
      split at hstep
      next =>
        cases hstep
        exact ⟨.waiting, by constructor <;> rfl, .release rfl rfl nofun⟩
      next =>
        cases hstep
        exact ⟨.testQuit, by constructor <;> rfl, .keep rfl fun _ => rfl⟩
  | waiting => cases hstep
  | testQuit =>
      simp only [workerStep] at hstep
      split at hstep
      next =>
        cases hstep
        exact ⟨.leave, by constructor <;> rfl, .keep rfl fun _ => rfl⟩
      next =>
        cases hstep
        exact ⟨.dequeue, by constructor <;> rfl, .keep rfl fun _ => rfl⟩
  | dequeue =>
      simp only [workerStep] at hstep
      split at hstep
      next =>
        cases hstep
        exact ⟨.unlock none, by constructor <;> rfl, .keep rfl fun _ => rfl⟩
      next task tasks _ =>
        cases hstep
        exact ⟨.unlock (some task), by constructor <;> rfl, .keep rfl fun _ => rfl⟩
  | unlock task =>
      cases hstep
      exact ⟨.startTask task, by constructor <;> rfl, .release rfl rfl nofun⟩
  | startTask task =>
      cases hstep
      exact ⟨.callTask task, by constructor <;> rfl, .keep rfl nofun⟩
  | callTask task =>
      cases task with
      | none =>
          cases hstep
          refine ⟨.callTask none, ?_, .keep rfl nofun⟩
          constructor
          case workers => exact (set_self hpc).symm
          all_goals rfl
      | some task =>
          cases hstep
          exact ⟨.endTask, by constructor <;> rfl, .keep rfl nofun⟩
  | endTask =>
      cases hstep
      exact ⟨.lock, by constructor <;> rfl, .keep rfl nofun⟩
  | leave =>
      cases hstep
      exact ⟨.exited, by constructor <;> rfl, .release rfl rfl nofun⟩
  | exited => cases hstep

/-! ## Steps of a caller -/

/-- Workers that wait may have been woken up. -/
def Woken (l l' : List WorkerPc) : Prop :=
  ∀ w : ℕ, l'[w]? = l[w]? ∨ l[w]? = some .waiting ∧ l'[w]? = some .relock

theorem Woken.refl (l : List WorkerPc) : Woken l l := fun _ => .inl rfl

theorem woken_set {l : List WorkerPc} (h : l[w]? = some .waiting) :
    Woken l (l.set w .relock) := by
  intro v
  by_cases hv : v = w
  · subst hv
    obtain ⟨hlt, -⟩ := List.getElem?_eq_some_iff.mp h
    exact .inr ⟨h, List.getElem?_set_self hlt⟩
  · exact .inl (List.getElem?_set_ne (Ne.symm hv))

theorem woken_map (l : List WorkerPc) : Woken l (l.map wakeUp) := by
  intro w
  rw [List.getElem?_map]
  cases hw : l[w]? with
  | none => exact .inl rfl
  | some pc =>
      cases pc with
      | waiting => exact .inr ⟨rfl, rfl⟩
      | _ => exact .inl rfl

theorem woken_length {l l' : List WorkerPc} (h : Woken l l') : l'.length = l.length := by
  have hnone : ∀ i : ℕ, l'[i]? = none ↔ l[i]? = none := by
    intro i
    rcases h i with hsame | ⟨hl, hl'⟩
    · rw [hsame]
    · simp [hl, hl']
  simp only [List.getElem?_eq_none_iff] at hnone
  exact Nat.le_antisymm ((hnone l.length).mpr (Nat.le_refl _)) ((hnone l'.length).mp (Nat.le_refl _))

/-- A kind of workers that does not tell the two places apart is as large as before. -/
theorem Woken.countP {l l' : List WorkerPc} (h : Woken l l') {p : WorkerPc → Bool}
    (hp : p .relock = p .waiting) : l'.countP p = l.countP p := by
  have hmap : l'.map p = l.map p := by
    apply List.ext_getElem?
    intro i
    rw [List.getElem?_map, List.getElem?_map]
    rcases h i with hsame | ⟨hl, hl'⟩
    · rw [hsame]
    · rw [hl, hl', Option.map_some, Option.map_some, hp]
  have hcount := congrArg (List.countP id) hmap
  rwa [List.countP_map, List.countP_map] at hcount

/-- What a step of the caller `a` from `pc` to `pc'` leaves alone. -/
structure CallerFrame (s s' : PoolState) (a : ℕ) (pc pc' : CallerPc) : Prop where
  callers : s'.callers = s.callers.set a pc'
  owner : s'.owner = s.owner
  workers : (pc = .create ∧ s'.workers = s.workers ++ [.lock]) ∨ Woken s.workers s'.workers
  threads : (∃ th, pc = .insert th) ∨ s'.pool.threads = s.pool.threads
  inserts : ∀ th, pc' = .insert th → pc = .create ∨ pc = pc'
  initState : s'.pool.initState = s.pool.initState
  shutdown : s'.pool.shutdown = s.pool.shutdown
  maxThreads : s'.pool.maxThreads = s.pool.maxThreads
  flags : s'.pool.flags = s.pool.flags
  runningTasks : s'.pool.runningTasks = s.pool.runningTasks
  destroyed : s'.destroyed = s.destroyed
  dequeued : s'.dequeued = s.dequeued
  executed : s'.executed = s.executed

theorem CallerFrame.moved {pc pc' q : CallerPc} (hframe : CallerFrame s s' a pc pc')
    (hpc : s.callers[a]? = some pc) (hq : s'.callers = s.callers.set a q) : pc' = q := by
  have ha := getElem?_set_of_some (y := pc') hpc
  rw [← hframe.callers, hq, getElem?_set_of_some hpc] at ha
  exact (Option.some.inj ha).symm

/-- The frame of a step that leaves workers and threads alone. -/
theorem quietFrame {pc pc' : CallerPc} {lock : Option Party} {tasks added cleared lost : List ℕ}
    {created : ℕ} {crashed : Bool}
    (hinserts : ∀ th, pc' = .insert th → pc = .create ∨ pc = pc') :
    CallerFrame s
      { s with
        pool := { s.pool with lock := lock, tasks := tasks }
        callers := s.callers.set a pc'
        created := created
        added := added
        cleared := cleared
        lost := lost
        crashed := crashed } a pc pc' where
  callers := rfl
  owner := rfl
  workers := .inr (Woken.refl _)
  threads := .inr rfl
  inserts := hinserts
  initState := rfl
  shutdown := rfl
  maxThreads := rfl
  flags := rfl
  runningTasks := rfl
  destroyed := rfl
  dequeued := rfl
  executed := rfl

/-- A step that crashes moves nobody. -/
theorem crashFrame {pc : CallerPc} (hpc : s.callers[a]? = some pc) :
    CallerFrame s s.crash a pc pc := by
  have h : CallerFrame s (s.crash.moveCaller a pc) a pc pc := quietFrame fun _ _ => .inr rfl
  unfold moveCaller at h
  rwa [show s.crash.callers = s.callers from rfl, set_self hpc] at h

theorem signal_woken {woken : ℕ} (h : s.signal woken = some s') :
    ∃ workers, Woken s.workers workers ∧ s' = { s with workers := workers } := by
  unfold signal at h
  split at h
  next =>
    split at h
    next hw =>
      cases h
      exact ⟨_, woken_set hw, rfl⟩
    next => cases h
  next =>
    cases h
    exact ⟨_, Woken.refl _, rfl⟩

theorem locked_ne_insert (call : ThpoolCall) (isLazy : Bool) (th : ℕ) :
    call.locked isLazy ≠ .insert th := by
  cases call with
  | add => cases isLazy <;> nofun
  | length | clear => nofun

theorem callerStep_frame {pc : CallerPc} (hpc : s.callers[a]? = some pc)
    (hstep : s.callerStep a answer pc = some s') :
    ∃ pc', CallerFrame s s' a pc pc' ∧
      Handover (.caller a) pc.critical pc'.critical s.pool.lock s'.pool.lock := by
  cases pc with
  | idle => cases hstep
  | assertRunning call =>
      simp only [callerStep] at hstep
      split at hstep
      next =>
        cases hstep
        exact ⟨.assertStarted call, quietFrame nofun, .keep rfl nofun⟩
      next =>
        cases hstep
        exact ⟨.idle, quietFrame nofun, .keep rfl nofun⟩
  | assertStarted call =>
      simp only [callerStep] at hstep
      split at hstep
      next =>
        cases hstep
        exact ⟨.lock call, quietFrame nofun, .keep rfl nofun⟩
      next =>
        cases hstep
        exact ⟨.idle, quietFrame nofun, .keep rfl nofun⟩
  | lock call =>
      simp only [callerStep, Option.bind_eq_bind, Option.bind_eq_some_iff, acquire_eq_some] at hstep
      obtain ⟨_, ⟨hfree, rfl⟩, hs'⟩ := hstep
      cases hs'
      exact ⟨_, quietFrame fun th hth => absurd hth (locked_ne_insert call _ th), .take hfree rfl⟩
  | grow =>
      simp only [callerStep] at hstep
      split at hstep
      next =>
        cases hstep
        exact ⟨.create, quietFrame nofun, .keep rfl fun _ => rfl⟩
      next =>
        cases hstep
        exact ⟨.newTask, quietFrame nofun, .keep rfl fun _ => rfl⟩
  | create =>
      simp only [callerStep] at hstep
      split at hstep
      next =>
        cases hstep
        exact ⟨.create, crashFrame hpc, .keep rfl id⟩
      split at hstep
      next =>
        cases hstep
        refine ⟨.insert s.workers.length, ?_, .keep rfl fun _ => rfl⟩
        constructor
        case workers => exact .inl ⟨rfl, rfl⟩
        case threads => exact .inr rfl
        case inserts => exact fun _ _ => .inl rfl
        all_goals rfl
      next =>
        cases hstep
        exact ⟨.idle, quietFrame nofun, .keep rfl nofun⟩
  | insert th =>
      cases hstep
      unfold listInsert
      split
      next =>
        refine ⟨.newTask, ?_, .keep rfl fun _ => rfl⟩
        constructor
        case workers => exact .inr (Woken.refl _)
        case threads => exact .inl ⟨th, rfl⟩
        case inserts => exact nofun
        all_goals rfl
      next => exact ⟨.newTask, quietFrame nofun, .keep rfl fun _ => rfl⟩
  | newTask =>
      simp only [callerStep] at hstep
      split at hstep
      next =>
        cases hstep
        exact ⟨.enqueue s.created, quietFrame nofun, .keep rfl fun _ => rfl⟩
      next =>
        cases hstep
        exact ⟨.newTask, crashFrame hpc, .keep rfl id⟩
  | enqueue task =>
      simp only [callerStep] at hstep
      split at hstep
      next =>
        cases hstep
        exact ⟨.signal task, quietFrame nofun, .keep rfl fun _ => rfl⟩
      next =>
        cases hstep
        exact ⟨.signal task, quietFrame nofun, .keep rfl fun _ => rfl⟩
  | signal task =>
      simp only [callerStep, Option.bind_eq_bind, Option.bind_eq_some_iff] at hstep
      obtain ⟨_, hsignal, hs'⟩ := hstep
      obtain ⟨workers, hwoken, rfl⟩ := signal_woken hsignal
      cases hs'
      refine ⟨.unlock (some task), ?_, .keep rfl fun _ => rfl⟩
      constructor
      case workers => exact .inr hwoken
      case threads => exact .inr rfl
      case inserts => exact nofun
      all_goals rfl
  | readLength =>
      cases hstep
      exact ⟨.unlock none, quietFrame nofun, .keep rfl fun _ => rfl⟩
  | clearTasks =>
      cases hstep
      exact ⟨.unlock none, quietFrame nofun, .keep rfl fun _ => rfl⟩
  | unlock task =>
      cases hstep
      exact ⟨.idle, quietFrame nofun, .release rfl rfl nofun⟩

/-! ## Steps of the owner -/

/-- What a step of the owner leaves alone. -/
structure OwnerFrame (s s' : PoolState) : Prop where
  callers : s'.callers = s.callers
  workers : (∃ i, s.owner = .create i ∧ s'.workers = s.workers ++ [.lock]) ∨
    Woken s.workers s'.workers
  maxThreads : s'.pool.maxThreads = s.pool.maxThreads
  flags : s'.pool.flags = s.pool.flags
  runningTasks : s'.pool.runningTasks = s.pool.runningTasks
  threads : (∃ i th, s.owner = .insert i th) ∨ (s.pool.threads = [] → s'.pool.threads = [])
  shutdown : (∃ free, s.owner = .setShutdown free) ∨ s'.pool.shutdown = s.pool.shutdown
  tasks : s'.cleared ++ s'.pool.tasks = s.cleared ++ s.pool.tasks
  emptied : s.pool.tasks = [] → s'.pool.tasks = []
  created : s'.created = s.created
  added : s'.added = s.added
  dequeued : s'.dequeued = s.dequeued
  executed : s'.executed = s.executed
  lost : s'.lost = s.lost

/-- The frame of a step that leaves workers, threads and tasks alone. -/
theorem quietOwner {pc : OwnerPc} {lock : Option Party} {initState : ℕ}
    {destroyed crashed : Bool} :
    OwnerFrame s
      { s with
        pool := { s.pool with
          lock := lock
          initState := initState }
        owner := pc
        destroyed := destroyed
        crashed := crashed } where
  callers := rfl
  workers := .inr (Woken.refl _)
  maxThreads := rfl
  flags := rfl
  runningTasks := rfl
  threads := .inr id
  shutdown := .inr rfl
  tasks := rfl
  emptied := id
  created := rfl
  added := rfl
  dequeued := rfl
  executed := rfl
  lost := rfl

theorem inited_frame (ok : Bool) (bit : ℕ) (pc : OwnerPc) :
    OwnerFrame s (s.inited ok bit pc) := by
  unfold inited
  split
  next => exact quietOwner
  next => exact quietOwner

theorem freeStage_frame (free : FreeCall) (i : ℕ) (ok : Bool) :
    OwnerFrame s (s.freeStage free i ok) := by
  unfold freeStage
  split
  next => exact quietOwner
  split
  next => exact quietOwner
  split
  next =>
    split
    next => exact quietOwner
    next => exact quietOwner
  split
  next =>
    constructor
    case workers => exact .inr (Woken.refl _)
    case threads => exact .inr id
    case shutdown => exact .inr rfl
    case tasks => exact List.append_nil _
    case emptied => exact fun _ => rfl
    all_goals rfl
  split
  next =>
    constructor
    case workers => exact .inr (Woken.refl _)
    case threads => exact .inr fun _ => rfl
    case shutdown => exact .inr rfl
    case emptied => exact id
    all_goals rfl
  next => exact quietOwner

theorem listInsert_frame {i th : ℕ} (hpc : s.owner = .insert i th) (mem : Bool) (pc : OwnerPc) :
    OwnerFrame s ((s.listInsert th mem).moveOwner pc) := by
  unfold listInsert
  split
  next =>
    constructor
    case workers => exact .inr (Woken.refl _)
    case threads => exact .inl ⟨i, th, hpc⟩
    case shutdown => exact .inr rfl
    case emptied => exact id
    all_goals rfl
  next => exact quietOwner

theorem ownerStep_frame (hstep : s.ownerStep answer s.owner = some s') : OwnerFrame s s' := by
  cases hpc : s.owner with
  | newPool =>
      simp only [hpc, ownerStep] at hstep
      split at hstep
      next =>
        cases hstep
        exact quietOwner
      next =>
        cases hstep
        exact quietOwner
  | newThreads | newTasks | initMut | initCond | started =>
      rw [hpc] at hstep
      cases hstep
      exact inited_frame _ _ _
  | create i =>
      simp only [hpc, ownerStep] at hstep
      split at hstep
      next =>
        split at hstep
        next =>
          cases hstep
          exact quietOwner
        split at hstep
        next =>
          cases hstep
          constructor
          case workers => exact .inl ⟨i, hpc, rfl⟩
          case threads => exact .inr id
          case shutdown => exact .inr rfl
          case emptied => exact id
          all_goals rfl
        next =>
          cases hstep
          exact quietOwner
      next =>
        cases hstep
        exact quietOwner
  | insert i th =>
      rw [hpc] at hstep
      cases hstep
      exact listInsert_frame hpc _ _
  | ready | returned free | failed =>
      rw [hpc] at hstep
      cases hstep
  | stage free i =>
      rw [hpc] at hstep
      cases hstep
      exact freeStage_frame _ _ _
  | lock free =>
      simp only [hpc, ownerStep, Option.bind_eq_bind, Option.bind_eq_some_iff, acquire_eq_some]
        at hstep
      obtain ⟨_, ⟨hfree, rfl⟩, hs'⟩ := hstep
      cases hs'
      exact quietOwner
  | broadcast free =>
      rw [hpc] at hstep
      cases hstep
      constructor
      case workers => exact .inr (woken_map _)
      case threads => exact .inr id
      case shutdown => exact .inr rfl
      case emptied => exact id
      all_goals rfl
  | newItr free =>
      simp only [hpc, ownerStep] at hstep
      split at hstep
      next =>
        cases hstep
        exact quietOwner
      next =>
        cases hstep
        exact quietOwner
  | join free rest =>
      rw [hpc] at hstep
      cases rest with
      | nil =>
          cases hstep
          exact quietOwner
      | cons th rest =>
          simp only [ownerStep] at hstep
          split at hstep
          next =>
            cases hstep
            exact quietOwner
          next => cases hstep
  | setShutdown free =>
      rw [hpc] at hstep
      cases hstep
      constructor
      case workers => exact .inr (Woken.refl _)
      case threads => exact .inr id
      case shutdown => exact .inl ⟨free, hpc⟩
      case emptied => exact id
      all_goals rfl
  | unlock free | clearStarted free | freePool free =>
      rw [hpc] at hstep
      cases hstep
      exact quietOwner

/-- The step neither takes the mutex nor gives it back. -/
def OffLock (s s' : PoolState) : Prop := s'.pool.lock = s.pool.lock ∧ s'.owner.critical = false

theorem inited_offLock {ok : Bool} {bit : ℕ} {pc : OwnerPc} (hpc : pc.critical = false) :
    OffLock s (s.inited ok bit pc) := by
  unfold inited
  split
  next => exact ⟨rfl, hpc⟩
  next => exact ⟨rfl, rfl⟩

theorem freeStage_offLock (free : FreeCall) (i : ℕ) (ok : Bool) :
    OffLock s (s.freeStage free i ok) := by
  unfold freeStage
  repeat' split
  all_goals exact ⟨rfl, rfl⟩

theorem listInsert_offLock (th : ℕ) (mem : Bool) {pc : OwnerPc} (hpc : pc.critical = false) :
    OffLock s ((s.listInsert th mem).moveOwner pc) := by
  unfold listInsert
  split
  next => exact ⟨rfl, hpc⟩
  next => exact ⟨rfl, hpc⟩

theorem OffLock.handover (h : OffLock s s') :
    Handover .owner s.owner.critical s'.owner.critical s.pool.lock s'.pool.lock :=
  .keep h.1 (by simp [h.2])

theorem ownerStep_handover (hstep : s.ownerStep answer s.owner = some s') :
    Handover .owner s.owner.critical s'.owner.critical s.pool.lock s'.pool.lock := by
  cases hpc : s.owner with
  | lock free =>
      simp only [hpc, ownerStep, Option.bind_eq_bind, Option.bind_eq_some_iff, acquire_eq_some]
        at hstep
      obtain ⟨_, ⟨hfree, rfl⟩, hs'⟩ := hstep
      cases hs'
      exact .take hfree rfl
  | setShutdown free | broadcast free =>
      rw [hpc] at hstep
      cases hstep
      exact .keep rfl fun _ => rfl
  | unlock free =>
      rw [hpc] at hstep
      cases hstep
      refine .release rfl rfl ?_
      dsimp only
      split <;> nofun
  | newPool =>
      simp only [hpc, ownerStep] at hstep
      split at hstep
      next =>
        cases hstep
        exact .keep rfl nofun
      next =>
        cases hstep
        exact .keep rfl nofun
  | newThreads | newTasks | initMut | started =>
      rw [hpc] at hstep
      cases hstep
      exact hpc ▸ (inited_offLock rfl).handover
  | initCond =>
      rw [hpc] at hstep
      cases hstep
      refine hpc ▸ (inited_offLock ?_).handover
      split <;> rfl
  | create i =>
      simp only [hpc, ownerStep] at hstep
      split at hstep
      next =>
        split at hstep
        next =>
          cases hstep
          exact .keep rfl (by simp [crash, hpc])
        split at hstep
        next =>
          cases hstep
          exact .keep rfl nofun
        next =>
          cases hstep
          exact .keep rfl nofun
      next =>
        cases hstep
        exact .keep rfl nofun
  | insert i th =>
      rw [hpc] at hstep
      cases hstep
      exact hpc ▸ (listInsert_offLock _ _ rfl).handover
  | ready | returned free | failed =>
      rw [hpc] at hstep
      cases hstep
  | stage free i =>
      rw [hpc] at hstep
      cases hstep
      exact hpc ▸ (freeStage_offLock _ _ _).handover
  | newItr free =>
      simp only [hpc, ownerStep] at hstep
      split at hstep
      next =>
        cases hstep
        exact .keep rfl nofun
      next =>
        cases hstep
        exact .keep rfl nofun
  | join free rest =>
      rw [hpc] at hstep
      cases rest with
      | nil =>
          cases hstep
          exact .keep rfl nofun
      | cons th rest =>
          simp only [ownerStep] at hstep
          split at hstep
          next =>
            cases hstep
            exact .keep rfl nofun
          next => cases hstep
  | clearStarted free | freePool free =>
      rw [hpc] at hstep
      cases hstep
      exact .keep rfl nofun

/-! ## The mutex -/

theorem critical_caller {pc : CallerPc} (hpc : s.callers[a]? = some pc) :
    s.Critical (.caller a) ↔ pc.critical := by
  simp [Critical, hpc]

theorem critical_worker {pc : WorkerPc} (hpc : s.workers[w]? = some pc) :
    s.Critical (.worker w) ↔ pc.critical := by
  simp [Critical, hpc]

theorem Woken.critical {l l' : List WorkerPc} {pc : WorkerPc} (h : Woken l l')
    (hpc : l'[w]? = some pc) (hcritical : pc.critical) : l[w]? = some pc := by
  rcases h w with hsame | ⟨-, hrelock⟩
  · rw [← hsame, hpc]
  · rw [hrelock] at hpc
    cases hpc
    cases hcritical

theorem spawn_critical {l : List WorkerPc} {pc : WorkerPc}
    (hpc : (l ++ [.lock])[w]? = some pc) (hcritical : pc.critical) : l[w]? = some pc := by
  rw [List.getElem?_append] at hpc
  split at hpc
  next => exact hpc
  next =>
    rw [List.getElem?_singleton] at hpc
    split at hpc
    next =>
      cases hpc
      cases hcritical
    next => cases hpc

/-- What each event stands for. -/
inductive Taken (s : PoolState) : PoolEvent → PoolState → Prop where
  | owner {answer : Answer} {s' : PoolState} (hstep : s.ownerStep answer s.owner = some s') :
      Taken s (.owner answer) s'
  | free {waitAll : Bool} (hready : s.owner = .ready) :
      Taken s (.free waitAll)
        (s.moveOwner (.stage (.user waitAll) ((s.pool.initState + 1) >>> 1)))
  | call {a : ℕ} {call : ThpoolCall} (hready : s.owner = .ready)
      (hidle : s.callers[a]? = some .idle) :
      Taken s (.call a call) (s.moveCaller a (.assertRunning call))
  | caller {a : ℕ} {answer : Answer} {pc : CallerPc} {s' : PoolState}
      (hpc : s.callers[a]? = some pc) (hstep : s.callerStep a answer pc = some s') :
      Taken s (.caller a answer) s'
  | worker {w : ℕ} {pc : WorkerPc} {s' : PoolState} (hpc : s.workers[w]? = some pc)
      (hstep : s.workerStep w pc = some s') : Taken s (.worker w) s'
  | wake {w : ℕ} (hpc : s.workers[w]? = some .waiting) : Taken s (.wake w) (s.moveWorker w .relock)

theorem step_taken {e : PoolEvent} (hstep : s.step e = some s') : Taken s e s' := by
  unfold step at hstep
  split at hstep
  next => cases hstep
  cases e with
  | owner answer => exact .owner hstep
  | free waitAll =>
      dsimp only at hstep
      split at hstep
      next hready =>
        cases hstep
        exact .free hready
      next => cases hstep
  | call a call =>
      dsimp only at hstep
      split at hstep
      next h =>
        cases hstep
        exact .call h.1 h.2
      next => cases hstep
  | caller a answer =>
      obtain ⟨pc, hpc, hs'⟩ := Option.bind_eq_some_iff.mp hstep
      exact .caller hpc hs'
  | worker w =>
      obtain ⟨pc, hpc, hs'⟩ := Option.bind_eq_some_iff.mp hstep
      exact .worker hpc hs'
  | wake w =>
      dsimp only at hstep
      split at hstep
      next hpc =>
        cases hstep
        exact .wake hpc
      next => cases hstep

/-- Nobody but `party` comes into a critical section. -/
def OthersOut (s s' : PoolState) (party : Party) : Prop :=
  ∀ q, q ≠ party → s'.Critical q → s.Critical q

theorem WorkerFrame.othersOut {pc : WorkerPc} (h : WorkerFrame s s' w pc) :
    OthersOut s s' (.worker w) := by
  intro q hne hq
  cases q with
  | owner => rwa [Critical, h.owner] at hq
  | caller a => rwa [Critical, h.callers] at hq
  | worker v =>
      have hv : w ≠ v := fun hwv => hne (congrArg Party.worker hwv.symm)
      rwa [Critical, h.workers, List.getElem?_set_ne hv] at hq

theorem CallerFrame.othersOut {pc pc' : CallerPc} (h : CallerFrame s s' a pc pc') :
    OthersOut s s' (.caller a) := by
  intro q hne hq
  cases q with
  | owner => rwa [Critical, h.owner] at hq
  | caller b =>
      have hb : a ≠ b := fun hab => hne (congrArg Party.caller hab.symm)
      rwa [Critical, h.callers, List.getElem?_set_ne hb] at hq
  | worker v =>
      obtain ⟨pc, hpc, hcritical⟩ := hq
      rcases h.workers with ⟨-, hspawn⟩ | hwoken
      · rw [hspawn] at hpc
        exact ⟨pc, spawn_critical hpc hcritical, hcritical⟩
      · exact ⟨pc, hwoken.critical hpc hcritical, hcritical⟩

theorem OwnerFrame.othersOut (h : OwnerFrame s s') : OthersOut s s' .owner := by
  intro q hne hq
  cases q with
  | owner => exact absurd rfl hne
  | caller b => rwa [Critical, h.callers] at hq
  | worker v =>
      obtain ⟨pc, hpc, hcritical⟩ := hq
      rcases h.workers with ⟨i, -, hspawn⟩ | hwoken
      · rw [hspawn] at hpc
        exact ⟨pc, spawn_critical hpc hcritical, hcritical⟩
      · exact ⟨pc, hwoken.critical hpc hcritical, hcritical⟩

/-- Who is in a critical section holds the mutex, in every state that is reached. -/
theorem exclusive_step {e : PoolEvent} (h : Exclusive s.Critical s.pool.lock)
    (hstep : s.step e = some s') : Exclusive s'.Critical s'.pool.lock := by
  cases step_taken hstep with
  | owner hstep => exact h.handover (ownerStep_frame hstep).othersOut (ownerStep_handover hstep)
  | @free waitAll hready =>
      refine h.handover (p := .owner) ?_ (.keep rfl nofun)
      exact (quietOwner (s := s)).othersOut
  | @call a call hready hidle =>
      have hframe : CallerFrame s (s.moveCaller a (.assertRunning call)) a .idle
        (.assertRunning call) := quietFrame nofun
      refine h.handover hframe.othersOut (.keep rfl ?_)
      rw [critical_caller hidle, critical_caller (getElem?_set_of_some hidle)]
      nofun
  | @caller a answer pc s' hpc hstep =>
      obtain ⟨pc', hframe, hhandover⟩ := callerStep_frame hpc hstep
      have hpc' : s'.callers[a]? = some pc' := by
        rw [hframe.callers, getElem?_set_of_some hpc]
      refine h.handover hframe.othersOut ?_
      rwa [critical_caller hpc, critical_caller hpc']
  | @worker w pc s' hpc hstep =>
      obtain ⟨pc', hframe, hhandover⟩ := workerStep_frame hpc hstep
      have hpc' : s'.workers[w]? = some pc' := by
        rw [hframe.workers, getElem?_set_of_some hpc]
      refine h.handover hframe.othersOut ?_
      rwa [critical_worker hpc, critical_worker hpc']
  | @wake w hpc =>
      have hframe : WorkerFrame s (s.moveWorker w .relock) w .relock := by constructor <;> rfl
      refine h.handover hframe.othersOut (.keep rfl ?_)
      rw [critical_worker hpc, critical_worker (getElem?_set_of_some hpc)]
      nofun

end PoolState

end Libmodule
