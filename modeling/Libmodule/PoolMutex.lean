import Libmodule.PoolRetirement

/-!
# The mutex of the thread pool

A party that holds the mutex is on its way to the unlock, unless it is a caller that
returned in between: `m_thpool_add` does so when it cannot create a thread.  As long as
`pthread_create` does not fail there, whoever waits for the mutex can get it.
-/

namespace Libmodule

open Interleaving

/-- The caller is in `m_thpool_add`, and has not made a task yet: on failing to create a
thread, the call returns from there. -/
def CallerPc.beforeTask : CallerPc → Bool
  | .assertRunning .add | .assertStarted .add | .lock .add | .grow | .create => true
  | _ => false

/-! How many steps a party in its critical section is from the unlock, at most. -/

@[simp] def WorkerPc.toUnlock : WorkerPc → ℕ
  | .testWait => 3
  | .testQuit => 2
  | .dequeue => 1
  | _ => 0

@[simp] def CallerPc.toUnlock : CallerPc → ℕ
  | .grow => 6
  | .create => 5
  | .insert _ => 4
  | .newTask => 3
  | .enqueue _ => 2
  | .signal _ | .readLength | .clearTasks => 1
  | _ => 0

@[simp] def OwnerPc.toUnlock : OwnerPc → ℕ
  | .setShutdown _ => 2
  | .broadcast _ => 1
  | _ => 0

namespace PoolState

/-- The party is about to take the mutex. -/
def AtLock (s : PoolState) : Party → Prop
  | .owner => ∃ free, s.owner = .lock free
  | .caller a => ∃ call, s.callers[a]? = some (.lock call)
  | .worker w => s.workers[w]? = some .lock ∨ s.workers[w]? = some .relock

/-- A thread that `m_thpool_add` wants to create is created. -/
def CreatesThreads (s : PoolState) : PoolEvent → Prop
  | .caller a answer => s.callers[a]? = some .create → answer.ok = true
  | _ => True

instance (s : PoolState) : (e : PoolEvent) → Decidable (s.CreatesThreads e)
  | .caller _ _ =>
      @forall_prop_decidable _ _ inferInstance fun _ => inferInstanceAs (Decidable (_ = _))
  | .owner _ | .free _ | .call _ _ | .worker _ | .wake _ => isTrue trivial

/-- The mutex is free between the calls of a caller, a caller that gets no thread leaves the
queue alone, and who waits for the mutex can get it. -/
structure MutexContract (s : PoolState) : Prop where
  returned : ∀ a, s.callers[a]? = some .idle → s.pool.lock ≠ some (.caller a)
  queue : ∀ a pc answer s', s.callers[a]? = some pc → pc.beforeTask →
    s.step (.caller a answer) = some s' → s'.pool.tasks = s.pool.tasks
  available : s.crashed = false → ∀ p, s.AtLock p →
    ∃ events t, run step s events = some t ∧ t.pool.lock = some p

variable {s s' : PoolState} {w a : ℕ} {answer : Answer} {p : Party}

/-! ## Who holds the mutex -/

/-- Nobody but `party` leaves a critical section. -/
def OthersIn (s s' : PoolState) (party : Party) : Prop :=
  ∀ q, q ≠ party → s.Critical q → s'.Critical q

theorem Woken.stays {l l' : List WorkerPc} {pc : WorkerPc} (h : Woken l l')
    (hpc : l[w]? = some pc) (hne : pc ≠ .waiting) : l'[w]? = some pc := by
  rcases h w with hsame | ⟨hwaiting, -⟩
  · rw [hsame, hpc]
  · rw [hpc] at hwaiting
    exact absurd (Option.some.inj hwaiting) hne

theorem spawn_stays {l : List WorkerPc} {pc : WorkerPc} (hpc : l[w]? = some pc) :
    (l ++ [.lock])[w]? = some pc := by
  obtain ⟨hw, -⟩ := List.getElem?_eq_some_iff.mp hpc
  rw [List.getElem?_append_left hw, hpc]

theorem ne_waiting_of_critical {pc : WorkerPc} (h : pc.critical) : pc ≠ .waiting := by
  rintro rfl
  cases h

theorem WorkerFrame.othersIn {pc : WorkerPc} (h : WorkerFrame s s' w pc) :
    OthersIn s s' (.worker w) := by
  intro q hne hq
  cases q with
  | owner => rwa [Critical, h.owner]
  | caller a => rwa [Critical, h.callers]
  | worker v =>
      have hv : w ≠ v := fun hwv => hne (congrArg Party.worker hwv.symm)
      rwa [Critical, h.workers, List.getElem?_set_ne hv]

theorem CallerFrame.othersIn {pc pc' : CallerPc} (h : CallerFrame s s' a pc pc') :
    OthersIn s s' (.caller a) := by
  intro q hne hq
  cases q with
  | owner => rwa [Critical, h.owner]
  | caller b =>
      have hb : a ≠ b := fun hab => hne (congrArg Party.caller hab.symm)
      rwa [Critical, h.callers, List.getElem?_set_ne hb]
  | worker v =>
      obtain ⟨pc, hpc, hcritical⟩ := hq
      refine ⟨pc, ?_, hcritical⟩
      rcases h.workers with ⟨-, hspawn⟩ | hwoken
      · rw [hspawn]
        exact spawn_stays hpc
      · exact hwoken.stays hpc (ne_waiting_of_critical hcritical)

theorem OwnerFrame.othersIn (h : OwnerFrame s s') : OthersIn s s' .owner := by
  intro q hne hq
  cases q with
  | owner => exact absurd rfl hne
  | caller b => rwa [Critical, h.callers]
  | worker v =>
      obtain ⟨pc, hpc, hcritical⟩ := hq
      refine ⟨pc, ?_, hcritical⟩
      rcases h.workers with ⟨i, -, hspawn⟩ | hwoken
      · rw [hspawn]
        exact spawn_stays hpc
      · exact hwoken.stays hpc (ne_waiting_of_critical hcritical)

theorem worker_critical {pc pc' : WorkerPc} (hpc : s.workers[w]? = some pc)
    (hmove : s'.workers = s.workers.set w pc') (hcritical : pc'.critical) :
    s'.Critical (.worker w) := by
  rw [critical_worker (hmove ▸ getElem?_set_of_some hpc)]
  exact hcritical

theorem caller_critical {pc pc' : CallerPc} (hpc : s.callers[a]? = some pc)
    (hmove : s'.callers = s.callers.set a pc') (hcritical : pc'.critical) :
    s'.Critical (.caller a) := by
  rw [critical_caller (hmove ▸ getElem?_set_of_some hpc)]
  exact hcritical

theorem workerStep_held {pc : WorkerPc} (hpc : s.workers[w]? = some pc)
    (hheld : s.pool.lock = some (.worker w) → pc.critical) (hstep : s.workerStep w pc = some s')
    (hlock : s'.pool.lock = some (.worker w)) : s'.Critical (.worker w) := by
  cases pc with
  | lock | relock =>
      simp only [workerStep, Option.bind_eq_bind, Option.bind_eq_some_iff, acquire_eq_some] at hstep
      obtain ⟨_, ⟨hfree, rfl⟩, hs'⟩ := hstep
      cases hs'
      exact worker_critical hpc rfl rfl
  | testWait =>
      simp only [workerStep] at hstep
      split at hstep
      next =>
        cases hstep
        cases hlock
      next =>
        cases hstep
        exact worker_critical hpc rfl rfl
  | testQuit =>
      simp only [workerStep] at hstep
      split at hstep
      next =>
        cases hstep
        exact worker_critical hpc rfl rfl
      next =>
        cases hstep
        exact worker_critical hpc rfl rfl
  | dequeue =>
      simp only [workerStep] at hstep
      split at hstep
      next =>
        cases hstep
        exact worker_critical hpc rfl rfl
      next =>
        cases hstep
        exact worker_critical hpc rfl rfl
  | waiting | exited => cases hstep
  | unlock task | leave =>
      cases hstep
      cases hlock
  | startTask task | endTask =>
      cases hstep
      cases hheld hlock
  | callTask task =>
      cases task with
      | none =>
          cases hstep
          cases hheld hlock
      | some task =>
          cases hstep
          cases hheld hlock

/-- A caller keeps the mutex only while it is in its critical section, when it gets the
thread it wants to create. -/
theorem callerStep_held {pc : CallerPc} (hpc : s.callers[a]? = some pc)
    (hheld : s.pool.lock = some (.caller a) → pc.critical)
    (hcreates : pc = .create → answer.ok = true) (hstep : s.callerStep a answer pc = some s')
    (hlock : s'.pool.lock = some (.caller a)) : s'.Critical (.caller a) := by
  cases pc with
  | idle => cases hstep
  | assertRunning call | assertStarted call =>
      simp only [callerStep] at hstep
      split at hstep
      next =>
        cases hstep
        cases hheld hlock
      next =>
        cases hstep
        cases hheld hlock
  | lock call =>
      simp only [callerStep, Option.bind_eq_bind, Option.bind_eq_some_iff, acquire_eq_some] at hstep
      obtain ⟨_, ⟨hfree, rfl⟩, hs'⟩ := hstep
      cases hs'
      refine caller_critical hpc rfl ?_
      cases call with
      | add =>
          simp only [ThpoolCall.locked]
          split <;> rfl
      | length | clear => rfl
  | grow =>
      simp only [callerStep] at hstep
      split at hstep
      next =>
        cases hstep
        exact caller_critical hpc rfl rfl
      next =>
        cases hstep
        exact caller_critical hpc rfl rfl
  | create =>
      simp only [callerStep, hcreates rfl, if_true] at hstep
      split at hstep
      next =>
        cases hstep
        exact ⟨.create, hpc, rfl⟩
      next =>
        cases hstep
        exact caller_critical hpc rfl rfl
  | insert th =>
      cases hstep
      have hmove : ((s.listInsert th answer.mem).moveCaller a .newTask).callers =
          s.callers.set a .newTask := by
        unfold listInsert
        split <;> rfl
      exact caller_critical hpc hmove rfl
  | newTask =>
      simp only [callerStep] at hstep
      split at hstep
      next =>
        cases hstep
        exact caller_critical hpc rfl rfl
      next =>
        cases hstep
        exact ⟨.newTask, hpc, rfl⟩
  | enqueue task =>
      simp only [callerStep] at hstep
      split at hstep
      next =>
        cases hstep
        exact caller_critical hpc rfl rfl
      next =>
        cases hstep
        exact caller_critical hpc rfl rfl
  | signal task =>
      simp only [callerStep, Option.bind_eq_bind, Option.bind_eq_some_iff] at hstep
      obtain ⟨_, hsignal, hs'⟩ := hstep
      obtain ⟨workers, -, rfl⟩ := signal_woken hsignal
      cases hs'
      exact caller_critical hpc rfl rfl
  | readLength | clearTasks =>
      cases hstep
      exact caller_critical hpc rfl rfl
  | unlock task =>
      cases hstep
      cases hlock

theorem ownerStep_held (hheld : s.pool.lock = some .owner → s.owner.critical)
    (hstep : s.ownerStep answer s.owner = some s') (hlock : s'.pool.lock = some .owner) :
    s'.Critical .owner := by
  have hoff : s.owner.critical = false → s'.pool.lock = s.pool.lock → s'.Critical .owner := by
    intro hout hsame
    rw [hheld (hsame ▸ hlock)] at hout
    cases hout
  cases hpc : s.owner with
  | lock free =>
      simp only [hpc, ownerStep, Option.bind_eq_bind, Option.bind_eq_some_iff, acquire_eq_some]
        at hstep
      obtain ⟨_, ⟨hfree, rfl⟩, hs'⟩ := hstep
      cases hs'
      rfl
  | setShutdown free | broadcast free =>
      rw [hpc] at hstep
      cases hstep
      rfl
  | unlock free =>
      rw [hpc] at hstep
      cases hstep
      cases hlock
  | newPool | newItr free =>
      simp only [hpc, ownerStep] at hstep
      split at hstep
      next =>
        cases hstep
        exact hoff (by rw [hpc]; rfl) rfl
      next =>
        cases hstep
        exact hoff (by rw [hpc]; rfl) rfl
  | newThreads | newTasks | initMut | initCond | started =>
      rw [hpc] at hstep
      cases hstep
      refine hoff (by rw [hpc]; rfl) ?_
      unfold inited
      split <;> rfl
  | create i =>
      simp only [hpc, ownerStep] at hstep
      refine hoff (by rw [hpc]; rfl) ?_
      split at hstep
      next =>
        split at hstep
        next =>
          cases hstep
          rfl
        split at hstep
        next =>
          cases hstep
          rfl
        next =>
          cases hstep
          rfl
      next =>
        cases hstep
        rfl
  | insert i th =>
      rw [hpc] at hstep
      cases hstep
      refine hoff (by rw [hpc]; rfl) ?_
      unfold listInsert
      split <;> rfl
  | ready | returned free | failed =>
      rw [hpc] at hstep
      cases hstep
  | stage free i =>
      rw [hpc] at hstep
      cases hstep
      exact hoff (by rw [hpc]; rfl) (freeStage_offLock free i _).1
  | join free rest =>
      rw [hpc] at hstep
      cases rest with
      | nil =>
          cases hstep
          exact hoff (by rw [hpc]; rfl) rfl
      | cons th rest =>
          simp only [ownerStep] at hstep
          split at hstep
          next =>
            cases hstep
            exact hoff (by rw [hpc]; rfl) rfl
          next => cases hstep
  | clearStarted free | freePool free =>
      rw [hpc] at hstep
      cases hstep
      exact hoff (by rw [hpc]; rfl) rfl

/-- Who has the mutex can give it back, in every state that is reached. -/
theorem held_step {e : PoolEvent} (h : Held s.Critical s.pool.lock) (hcreates : s.CreatesThreads e)
    (hstep : s.step e = some s') : Held s'.Critical s'.pool.lock := by
  cases step_taken hstep with
  | owner hstep =>
      exact h.handover (ownerStep_frame hstep).othersIn (ownerStep_handover hstep).lock_cases
        (ownerStep_held (h .owner) hstep)
  | @free waitAll hready =>
      refine h.handover (p := .owner) ?_ (.inl rfl) fun hlock => ?_
      · exact (quietOwner (s := s)).othersIn
      · have hcritical := h .owner hlock
        rw [Critical, hready] at hcritical
        cases hcritical
  | @call a call hready hidle =>
      have hframe : CallerFrame s (s.moveCaller a (.assertRunning call)) a .idle
        (.assertRunning call) := quietFrame fun _ hinsert => by cases hinsert
      refine h.handover hframe.othersIn (.inl rfl) fun hlock => ?_
      have hcritical := h (.caller a) hlock
      rw [critical_caller hidle] at hcritical
      cases hcritical
  | @caller a answer pc s' hpc hstep =>
      obtain ⟨pc', hframe, hhandover⟩ := callerStep_frame hpc hstep
      refine h.handover hframe.othersIn hhandover.lock_cases
        (callerStep_held hpc (fun hlock => (critical_caller hpc).mp (h _ hlock)) ?_ hstep)
      rintro rfl
      exact hcreates hpc
  | @worker w pc s' hpc hstep =>
      obtain ⟨pc', hframe, hhandover⟩ := workerStep_frame hpc hstep
      exact h.handover hframe.othersIn hhandover.lock_cases
        (workerStep_held hpc (fun hlock => (critical_worker hpc).mp (h _ hlock)) hstep)
  | @wake w hpc =>
      have hframe : WorkerFrame s (s.moveWorker w .relock) w .relock := by constructor <;> rfl
      refine h.handover hframe.othersIn (.inl rfl) fun hlock => ?_
      have hcritical := h (.worker w) hlock
      rw [critical_worker hpc] at hcritical
      cases hcritical

/-! ## The way to the unlock -/

/-- The steps of a worker in its critical section, counted down. -/
theorem worker_nears {pc : WorkerPc} (hcritical : pc.critical) :
    ∃ s', s.workerStep w pc = some s' ∧ s'.crashed = s.crashed ∧ (s'.pool.lock = none ∨
      ∃ pc', s'.workers = s.workers.set w pc' ∧ pc'.critical ∧ pc'.toUnlock < pc.toUnlock) := by
  cases pc with
  | testWait =>
      simp only [workerStep]
      split
      next => exact ⟨_, rfl, rfl, .inl rfl⟩
      next => exact ⟨_, rfl, rfl, .inr ⟨.testQuit, rfl, rfl, by simp⟩⟩
  | testQuit =>
      simp only [workerStep]
      split
      next => exact ⟨_, rfl, rfl, .inr ⟨.leave, rfl, rfl, by simp⟩⟩
      next => exact ⟨_, rfl, rfl, .inr ⟨.dequeue, rfl, rfl, by simp⟩⟩
  | dequeue =>
      simp only [workerStep]
      split
      next => exact ⟨_, rfl, rfl, .inr ⟨.unlock none, rfl, rfl, by simp⟩⟩
      next task _ _ => exact ⟨_, rfl, rfl, .inr ⟨.unlock (some task), rfl, rfl, by simp⟩⟩
  | unlock task | leave => exact ⟨_, rfl, rfl, .inl rfl⟩
  | _ => cases hcritical

/-- `pthread_cond_signal` can always choose whom it wakes up. -/
theorem exists_signal (s : PoolState) : ∃ woken workers,
    s.signal woken = some { s with workers := workers } := by
  by_cases hwaiting : .waiting ∈ s.workers
  · obtain ⟨woken, hw⟩ := List.getElem?_of_mem hwaiting
    exact ⟨woken, _, by rw [signal, if_pos hwaiting, if_pos hw, moveWorker]⟩
  · exact ⟨0, s.workers, by rw [signal, if_neg hwaiting]⟩

theorem caller_nears {pc : CallerPc} (hcritical : pc.critical) :
    ∃ answer s', s.callerStep a answer pc = some s' ∧ s'.crashed = s.crashed ∧
      (s'.pool.lock = none ∨ ∃ pc', s'.callers = s.callers.set a pc' ∧ pc'.critical ∧
        pc'.toUnlock < pc.toUnlock) := by
  cases pc with
  | grow =>
      refine ⟨⟨true, true, 0⟩, ?_⟩
      simp only [callerStep]
      split
      next => exact ⟨_, rfl, rfl, .inr ⟨.create, rfl, rfl, by simp⟩⟩
      next => exact ⟨_, rfl, rfl, .inr ⟨.newTask, rfl, rfl, by simp⟩⟩
  | create =>
      exact ⟨⟨true, true, 0⟩, _, rfl, rfl, .inr ⟨.insert s.workers.length, rfl, rfl, by simp⟩⟩
  | insert th =>
      exact ⟨⟨true, true, 0⟩, _, rfl, rfl, .inr ⟨.newTask, rfl, rfl, by simp⟩⟩
  | newTask =>
      exact ⟨⟨true, true, 0⟩, _, rfl, rfl, .inr ⟨.enqueue s.created, rfl, rfl, by simp⟩⟩
  | enqueue task =>
      exact ⟨⟨true, true, 0⟩, _, rfl, rfl, .inr ⟨.signal task, rfl, rfl, by simp⟩⟩
  | signal task =>
      obtain ⟨woken, workers, hsignal⟩ := exists_signal s
      refine ⟨⟨true, true, woken⟩,
        { s with workers := workers }.moveCaller a (.unlock (some task)), ?_, rfl,
        .inr ⟨.unlock (some task), rfl, rfl, by simp⟩⟩
      simp only [callerStep, hsignal]
      rfl
  | readLength | clearTasks =>
      exact ⟨⟨true, true, 0⟩, _, rfl, rfl, .inr ⟨.unlock none, rfl, rfl, by simp⟩⟩
  | unlock task => exact ⟨⟨true, true, 0⟩, _, rfl, rfl, .inl rfl⟩
  | _ => cases hcritical

theorem owner_nears (hcritical : s.owner.critical) :
    ∃ s', s.ownerStep ⟨true, true, 0⟩ s.owner = some s' ∧ s'.crashed = s.crashed ∧
      (s'.pool.lock = none ∨
        s'.owner.critical ∧ s'.owner.toUnlock < s.owner.toUnlock) := by
  cases hpc : s.owner with
  | setShutdown free | broadcast free => exact ⟨_, rfl, rfl, .inr ⟨rfl, by simp⟩⟩
  | unlock free => exact ⟨_, rfl, rfl, .inl rfl⟩
  | _ =>
      rw [hpc] at hcritical
      cases hcritical

/-! ## Who waits for the mutex -/

theorem not_critical_of_atLock (hat : s.AtLock p) : ¬ s.Critical p := by
  cases p with
  | owner =>
      obtain ⟨free, hpc⟩ := hat
      simp [Critical, hpc, OwnerPc.critical]
  | caller a =>
      obtain ⟨call, hpc⟩ := hat
      simp [critical_caller hpc, CallerPc.critical]
  | worker w => rcases hat with hpc | hpc <;> simp [critical_worker hpc, WorkerPc.critical]

theorem atLock_frame (howner : p = .owner → s'.owner = s.owner)
    (hcallers : ∀ a, p = .caller a → s'.callers[a]? = s.callers[a]?)
    (hworkers : ∀ w pc, p = .worker w → s.workers[w]? = some pc → pc ≠ .waiting →
      s'.workers[w]? = some pc) (hat : s.AtLock p) : s'.AtLock p := by
  cases p with
  | owner => rwa [AtLock, howner rfl]
  | caller a => rwa [AtLock, hcallers a rfl]
  | worker w =>
      rcases hat with hpc | hpc
      · exact .inl (hworkers w _ rfl hpc nofun)
      · exact .inr (hworkers w _ rfl hpc nofun)

theorem WorkerFrame.atLock {pc : WorkerPc} (h : WorkerFrame s s' w pc) (hne : p ≠ .worker w)
    (hat : s.AtLock p) : s'.AtLock p := by
  refine atLock_frame (fun _ => h.owner) (fun a _ => by rw [h.callers]) ?_ hat
  rintro v q rfl hpc -
  have hv : w ≠ v := fun hwv => hne (congrArg Party.worker hwv.symm)
  rw [h.workers, List.getElem?_set_ne hv, hpc]

theorem CallerFrame.atLock {pc pc' : CallerPc} (h : CallerFrame s s' a pc pc')
    (hne : p ≠ .caller a) (hat : s.AtLock p) : s'.AtLock p := by
  refine atLock_frame (fun _ => h.owner) ?_ ?_ hat
  · rintro b rfl
    have hb : a ≠ b := fun hab => hne (congrArg Party.caller hab.symm)
    rw [h.callers, List.getElem?_set_ne hb]
  · rintro v q - hpc hwaiting
    rcases h.workers with ⟨-, hspawn⟩ | hwoken
    · rw [hspawn]
      exact spawn_stays hpc
    · exact hwoken.stays hpc hwaiting

theorem OwnerFrame.atLock (h : OwnerFrame s s') (hne : p ≠ .owner) (hat : s.AtLock p) :
    s'.AtLock p := by
  refine atLock_frame (fun howner => absurd howner hne) (fun a _ => by rw [h.callers]) ?_ hat
  rintro v q - hpc hwaiting
  rcases h.workers with ⟨i, -, hspawn⟩ | hwoken
  · rw [hspawn]
    exact spawn_stays hpc
  · exact hwoken.stays hpc hwaiting

/-- How far the party is from its unlock. -/
def toUnlock (s : PoolState) : Party → ℕ
  | .owner => s.owner.toUnlock
  | .caller a => (s.callers[a]?.map CallerPc.toUnlock).getD 0
  | .worker w => (s.workers[w]?.map WorkerPc.toUnlock).getD 0

/-- Someone waits for the mutex, and its holder goes on to the unlock. -/
structure Nearing (s : PoolState) (p q : Party) : Prop where
  atLock : s.AtLock p
  running : s.crashed = false
  critical : s.Critical q

/-- Someone waits for a mutex that is free. -/
structure Arrived (s : PoolState) (p : Party) : Prop where
  atLock : s.AtLock p
  running : s.crashed = false
  free : s.pool.lock = none

theorem step_owner (hrunning : s.crashed = false) :
    s.step (.owner answer) = s.ownerStep answer s.owner := by
  simp [step, hrunning]

theorem step_caller {pc : CallerPc} (hrunning : s.crashed = false)
    (hpc : s.callers[a]? = some pc) :
    s.step (.caller a answer) = s.callerStep a answer pc := by
  simp [step, hrunning, hpc]

theorem step_worker {pc : WorkerPc} (hrunning : s.crashed = false)
    (hpc : s.workers[w]? = some pc) : s.step (.worker w) = s.workerStep w pc := by
  simp [step, hrunning, hpc]

/-- The holder can always take a step towards its unlock. -/
theorem Nearing.advances {q : Party} (h : s.Nearing p q) :
    ∃ e s', s.step e = some s' ∧
      (s'.Arrived p ∨ s'.Nearing p q ∧ s'.toUnlock q < s.toUnlock q) := by
  have hne : p ≠ q := by
    rintro rfl
    exact not_critical_of_atLock h.atLock h.critical
  cases q with
  | owner =>
      obtain ⟨s', hstep, hrunning, hlock⟩ := owner_nears h.critical
      have hat := (ownerStep_frame hstep).atLock hne h.atLock
      refine ⟨.owner ⟨true, true, 0⟩, s', by rw [step_owner h.running, hstep], ?_⟩
      rcases hlock with hfree | ⟨hcritical, hless⟩
      · exact .inl ⟨hat, hrunning.trans h.running, hfree⟩
      · exact .inr ⟨⟨hat, hrunning.trans h.running, hcritical⟩, hless⟩
  | caller a =>
      obtain ⟨pc, hpc, hcritical⟩ := h.critical
      obtain ⟨answer, s', hstep, hrunning, hlock⟩ := caller_nears hcritical
      obtain ⟨_, hframe, -⟩ := callerStep_frame hpc hstep
      have hat := hframe.atLock hne h.atLock
      refine ⟨.caller a answer, s', by rw [step_caller h.running hpc, hstep], ?_⟩
      rcases hlock with hfree | ⟨pc', hmove, hcritical', hless⟩
      · exact .inl ⟨hat, hrunning.trans h.running, hfree⟩
      · refine .inr ⟨⟨hat, hrunning.trans h.running, caller_critical hpc hmove hcritical'⟩, ?_⟩
        simpa [toUnlock, hpc, hmove ▸ getElem?_set_of_some hpc] using hless
  | worker w =>
      obtain ⟨pc, hpc, hcritical⟩ := h.critical
      obtain ⟨s', hstep, hrunning, hlock⟩ := worker_nears hcritical
      obtain ⟨_, hframe, -⟩ := workerStep_frame hpc hstep
      have hat := hframe.atLock hne h.atLock
      refine ⟨.worker w, s', by rw [step_worker h.running hpc, hstep], ?_⟩
      rcases hlock with hfree | ⟨pc', hmove, hcritical', hless⟩
      · exact .inl ⟨hat, hrunning.trans h.running, hfree⟩
      · refine .inr ⟨⟨hat, hrunning.trans h.running, worker_critical hpc hmove hcritical'⟩, ?_⟩
        simpa [toUnlock, hpc, hmove ▸ getElem?_set_of_some hpc] using hless

/-- Who waits for a free mutex takes it with its next step. -/
theorem Arrived.takes (h : s.Arrived p) :
    ∃ e t, s.step e = some t ∧ t.pool.lock = some p := by
  have hfree := h.free
  cases p with
  | owner =>
      obtain ⟨free, hpc⟩ := h.atLock
      exact ⟨.owner ⟨true, true, 0⟩, _,
        by rw [step_owner h.running, hpc, ownerStep, Thpool.acquire, hfree]; rfl, rfl⟩
  | caller a =>
      obtain ⟨call, hpc⟩ := h.atLock
      exact ⟨.caller a ⟨true, true, 0⟩, _,
        by rw [step_caller h.running hpc, callerStep, Thpool.acquire, hfree]; rfl, rfl⟩
  | worker w =>
      rcases h.atLock with hpc | hpc
      · exact ⟨.worker w, _,
          by rw [step_worker h.running hpc, workerStep, Thpool.acquire, hfree]; rfl, rfl⟩
      · exact ⟨.worker w, _,
          by rw [step_worker h.running hpc, workerStep, Thpool.acquire, hfree]; rfl, rfl⟩

/-- The holder gives the mutex back, and the party that waits takes it. -/
theorem available_of_held (h : Held s.Critical s.pool.lock) (hrunning : s.crashed = false)
    (hat : s.AtLock p) : ∃ events t, run step s events = some t ∧ t.pool.lock = some p := by
  obtain ⟨events, u, hrun, harrived⟩ : ∃ events u, run step s events = some u ∧ u.Arrived p := by
    cases hlock : s.pool.lock with
    | none => exact ⟨[], s, rfl, hat, hrunning, hlock⟩
    | some q =>
        have hnearing : s.Nearing p q := ⟨hat, hrunning, h q hlock⟩
        exact run_of_rank (toUnlock · q) (fun _ => Nearing.advances) hnearing
  obtain ⟨e, t, hstep, htaken⟩ := harrived.takes
  exact ⟨events ++ [e], t, run_concat.mpr ⟨u, hrun, hstep⟩, htaken⟩

/-! ## Runs of the pool -/

theorem held_initial (threadCount : ℕ) (flags : ThpoolFlags) (callers : ℕ) :
    Held (initial threadCount flags callers).Critical
      (initial threadCount flags callers).pool.lock := nofun

/-- Up to the creation of the thread, `m_thpool_add` does not touch the queue. -/
theorem tasks_of_beforeTask {pc : CallerPc} (hpc : s.callers[a]? = some pc)
    (hbefore : pc.beforeTask) (hstep : s.step (.caller a answer) = some s') :
    s'.pool.tasks = s.pool.tasks := by
  cases step_taken hstep with
  | @caller _ _ q _ hq hstep =>
      obtain rfl := Option.some.inj (hq.symm.trans hpc)
      cases q with
      | assertRunning call | assertStarted call | grow =>
          simp only [callerStep] at hstep
          split at hstep
          next =>
            cases hstep
            rfl
          next =>
            cases hstep
            rfl
      | lock call =>
          simp only [callerStep, Option.bind_eq_bind, Option.bind_eq_some_iff, acquire_eq_some]
            at hstep
          obtain ⟨_, ⟨-, rfl⟩, hs'⟩ := hstep
          cases hs'
          rfl
      | create =>
          simp only [callerStep] at hstep
          split at hstep
          next =>
            cases hstep
            rfl
          split at hstep
          next =>
            cases hstep
            rfl
          next =>
            cases hstep
            rfl
      | _ => cases hbefore

/-- Whatever the interleaving, and whichever other call fails, the mutex comes back as long
as the threads of `m_thpool_add` are created. -/
theorem mutexContract_of_createsThreads (threadCount : ℕ) (flags : ThpoolFlags) (callers : ℕ)
    (events : List PoolEvent)
    (hmeets : Meets step CreatesThreads (initial threadCount flags callers) events)
    {s : PoolState} (hrun : run step (initial threadCount flags callers) events = some s) :
    s.MutexContract := by
  have hheld : Held s.Critical s.pool.lock :=
    invariant_of_run (fun _ _ _ => held_step) events (held_initial threadCount flags callers)
      hmeets hrun
  refine ⟨fun a hidle hlock => ?_, fun a pc answer s' => tasks_of_beforeTask,
    fun hrunning p hat => available_of_held hheld hrunning hat⟩
  have hcritical := hheld _ hlock
  rw [critical_caller hidle] at hcritical
  cases hcritical

/-- Two callers of a lazy pool: the first one creates a thread and adds its task, the second
one waits for the mutex. -/
def lazyAdds (created : Bool) : List PoolEvent :=
  let owner := PoolEvent.owner ⟨true, true, 0⟩
  List.replicate 6 owner ++ [.call 0 .add, .call 1 .add] ++
    List.replicate 4 (.caller 0 ⟨true, true, 0⟩) ++ [.caller 0 ⟨created, true, 0⟩] ++
    List.replicate 2 (.caller 1 ⟨true, true, 0⟩)

def lazyAddsEnd (created : Bool) : PoolState :=
  (run step (initial 1 ⟨true, false⟩ 2) (lazyAdds created)).getD (initial 1 ⟨true, false⟩ 2)

theorem mutexContract_lazyAdds :
    (lazyAddsEnd true).pool.lock = some (.caller 0) ∧ (lazyAddsEnd true).AtLock (.caller 1) ∧
      (lazyAddsEnd true).MutexContract :=
  ⟨by decide, ⟨.add, by decide⟩,
    mutexContract_of_createsThreads 1 ⟨true, false⟩ 2 (lazyAdds true) (by decide) (by decide)⟩

theorem not_mutexContract_lazyAdds :
    ¬ ∀ threadCount flags callers events s,
      run step (initial threadCount flags callers) events = some s → s.MutexContract := by
  intro h
  have hend := h 1 ⟨true, false⟩ 2 (lazyAdds false) (lazyAddsEnd false) (by decide)
  exact hend.returned 0 (by decide) (by decide)

end PoolState

end Libmodule
