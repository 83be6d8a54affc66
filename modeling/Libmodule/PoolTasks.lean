import Libmodule.PoolRetirement

/-!
# What happens to a task

A task is on its way to the queue, in the queue, with a worker, executed, or
given up, and in one of these places only.  Under `m_thpool_free(pool, true)` a
worker leaves when the queue is empty, so nothing is given up.
-/

namespace Libmodule

open Interleaving

/-- The task that a worker has taken and not finished. -/
def WorkerPc.task : WorkerPc → Option ℕ
  | .unlock task | .startTask task | .callTask task => task
  | _ => none

/-- The task that a caller has not put into the queue yet. -/
def CallerPc.carried : CallerPc → Option ℕ
  | .enqueue task => some task
  | _ => none

/-- The task of the call in progress. -/
def CallerPc.task : CallerPc → Option ℕ
  | .enqueue task | .signal task => some task
  | .unlock task => task
  | _ => none

namespace PoolState

/-- One, if the place holds the task. -/
def one (place : Option ℕ) (t : ℕ) : ℕ := if place = some t then 1 else 0

@[simp] theorem one_none (t : ℕ) : one none t = 0 := rfl

theorem count_singleton (t u : ℕ) : [u].count t = one (some u) t := by
  simp [one, List.count_singleton]

/-- The workers that hold the task. -/
def held (s : PoolState) (t : ℕ) : ℕ := s.workers.countP fun pc => pc.task = some t

def carried (s : PoolState) (t : ℕ) : ℕ := s.callers.countP fun pc => pc.carried = some t

def adding (s : PoolState) (t : ℕ) : ℕ := s.callers.countP fun pc => pc.task = some t

/-- One, if the task has been allocated. -/
def issued (created t : ℕ) : ℕ := if t < created then 1 else 0

/-- Where the tasks are: every one that was allocated is in one place. -/
structure Accounts (s : PoolState) : Prop where
  placed : ∀ t, s.carried t + (s.cleared ++ s.pool.tasks).count t + s.held t +
    s.executed.count t + s.lost.count t = issued s.created t
  taken : ∀ t, s.dequeued.count t = s.held t + s.executed.count t
  returned : ∀ t, s.added.count t + s.adding t = issued s.created t

variable {s s' : PoolState} {w a : ℕ} {answer : Answer}

theorem held_set {pc pc' : WorkerPc} (hpc : s.workers[w]? = some pc)
    (hworkers : s'.workers = s.workers.set w pc') (t : ℕ) :
    s'.held t + one pc.task t = s.held t + one pc'.task t := by
  have h := countP_set_add (fun pc : WorkerPc => decide (pc.task = some t)) pc' hpc
  simp only [decide_eq_true_eq] at h
  simpa only [held, one, hworkers] using h

theorem carried_set {pc pc' : CallerPc} (hpc : s.callers[a]? = some pc)
    (hcallers : s'.callers = s.callers.set a pc') (t : ℕ) :
    s'.carried t + one pc.carried t = s.carried t + one pc'.carried t := by
  have h := countP_set_add (fun pc : CallerPc => decide (pc.carried = some t)) pc' hpc
  simp only [decide_eq_true_eq] at h
  simpa only [carried, one, hcallers] using h

theorem adding_set {pc pc' : CallerPc} (hpc : s.callers[a]? = some pc)
    (hcallers : s'.callers = s.callers.set a pc') (t : ℕ) :
    s'.adding t + one pc.task t = s.adding t + one pc'.task t := by
  have h := countP_set_add (fun pc : CallerPc => decide (pc.task = some t)) pc' hpc
  simp only [decide_eq_true_eq] at h
  simpa only [adding, one, hcallers] using h

theorem Woken.held {l l' : List WorkerPc} (h : Woken l l') (t : ℕ) :
    l'.countP (fun pc => pc.task = some t) = l.countP (fun pc => pc.task = some t) :=
  h.countP rfl

/-! ## A step of a worker -/

/-- What a step of a worker from `pc` to `pc'` does to the tasks. -/
structure WorkerLedger (s s' : PoolState) (pc pc' : WorkerPc) : Prop where
  placed : ∀ t, s'.pool.tasks.count t + one pc'.task t + s'.executed.count t =
    s.pool.tasks.count t + one pc.task t + s.executed.count t
  taken : ∀ t, s'.dequeued.count t + s'.pool.tasks.count t =
    s.dequeued.count t + s.pool.tasks.count t
  emptied : s.pool.tasks = [] → s'.pool.tasks = []
  left : pc' = .leave ∨ pc' = .exited → pc = .leave ∨
    s.pool.shutdown ≠ .no ∧ (s.pool.shutdown = .waitCurr ∨ s'.pool.tasks = [])

theorem workerStep_ledger {pc : WorkerPc} (hpc : s.workers[w]? = some pc)
    (hstep : s.workerStep w pc = some s') :
    ∃ pc', s'.workers[w]? = some pc' ∧ WorkerLedger s s' pc pc' := by
  cases pc with
  | lock | relock =>
      simp only [workerStep, Option.bind_eq_bind, Option.bind_eq_some_iff, acquire_eq_some] at hstep
      obtain ⟨_, ⟨hfree, rfl⟩, hs'⟩ := hstep
      cases hs'
      exact ⟨.testWait, getElem?_set_of_some hpc, fun _ => rfl, fun _ => rfl, id, by simp⟩
  | testWait =>
      simp only [workerStep] at hstep
      split at hstep
      next =>
        cases hstep
        exact ⟨.waiting, getElem?_set_of_some hpc, fun _ => rfl, fun _ => rfl, id, by simp⟩
      next =>
        cases hstep
        exact ⟨.testQuit, getElem?_set_of_some hpc, fun _ => rfl, fun _ => rfl, id, by simp⟩
  | waiting => cases hstep
  | testQuit =>
      simp only [workerStep] at hstep
      split at hstep
      next hquit =>
        cases hstep
        exact ⟨.leave, getElem?_set_of_some hpc, fun _ => rfl, fun _ => rfl, id, fun _ => .inr hquit⟩
      next =>
        cases hstep
        exact ⟨.dequeue, getElem?_set_of_some hpc, fun _ => rfl, fun _ => rfl, id, by simp⟩
  | dequeue =>
      simp only [workerStep] at hstep
      split at hstep
      next =>
        cases hstep
        exact ⟨.unlock none, getElem?_set_of_some hpc, fun _ => rfl, fun _ => rfl, id, by simp⟩
      next task tasks htasks =>
        cases hstep
        refine ⟨.unlock (some task), getElem?_set_of_some hpc, ?_, ?_, ?_, by simp⟩
        · intro t
          simp only [moveWorker, htasks, ← List.singleton_append (l := tasks), List.count_append,
            count_singleton, WorkerPc.task, one_none]
          omega
        · intro t
          simp only [moveWorker, htasks, ← List.singleton_append (l := tasks), List.count_append]
          omega
        · intro hempty
          rw [hempty] at htasks
          cases htasks
  | unlock task =>
      cases hstep
      exact ⟨.startTask task, getElem?_set_of_some hpc, fun _ => rfl, fun _ => rfl, id, by simp⟩
  | startTask task =>
      cases hstep
      exact ⟨.callTask task, getElem?_set_of_some hpc, fun _ => rfl, fun _ => rfl, id, by simp⟩
  | callTask task =>
      cases task with
      | none =>
          cases hstep
          exact ⟨.callTask none, hpc, fun _ => rfl, fun _ => rfl, id, by simp⟩
      | some task =>
          cases hstep
          refine ⟨.endTask, getElem?_set_of_some hpc, ?_, fun _ => rfl, id, by simp⟩
          intro t
          simp only [moveWorker, List.count_append, count_singleton, WorkerPc.task, one_none]
          omega
  | endTask =>
      cases hstep
      exact ⟨.lock, getElem?_set_of_some hpc, fun _ => rfl, fun _ => rfl, id, by simp⟩
  | leave =>
      cases hstep
      exact ⟨.exited, getElem?_set_of_some hpc, fun _ => rfl, fun _ => rfl, id, fun _ => .inl rfl⟩
  | exited => cases hstep

theorem accounts_worker {pc : WorkerPc} (h : s.Accounts) (hpc : s.workers[w]? = some pc)
    (hstep : s.workerStep w pc = some s') : s'.Accounts := by
  obtain ⟨pc', hframe, -⟩ := workerStep_frame hpc hstep
  obtain ⟨pc'', hpc'', hledger⟩ := workerStep_ledger hpc hstep
  have hsame : pc'' = pc' := by
    rw [hframe.workers, getElem?_set_of_some hpc] at hpc''
    exact (Option.some.inj hpc'').symm
  subst hsame
  have hheld := held_set hpc hframe.workers
  constructor
  · intro t
    have hplaced := h.placed t
    have hnew := hledger.placed t
    have hheld := hheld t
    simp only [List.count_append, carried, hframe.callers, hframe.cleared, hframe.lost,
      hframe.created] at hplaced ⊢
    omega
  · intro t
    have htaken := h.taken t
    have hnew := hledger.placed t
    have htaken' := hledger.taken t
    have hheld := hheld t
    omega
  · intro t
    have hreturned := h.returned t
    simpa only [adding, hframe.callers, hframe.added, hframe.created] using hreturned

/-! ## A step of a caller -/

/-- What a step of a caller from `pc` to `pc'` does to the tasks. -/
structure CallerLedger (s s' : PoolState) (mem : Bool) (pc pc' : CallerPc) : Prop where
  placed : ∀ t, one pc'.carried t + (s'.cleared ++ s'.pool.tasks).count t + s'.lost.count t +
    issued s.created t = one pc.carried t + (s.cleared ++ s.pool.tasks).count t + s.lost.count t +
    issued s'.created t
  returned : ∀ t, s'.added.count t + one pc'.task t + issued s.created t =
    s.added.count t + one pc.task t + issued s'.created t
  cleared : pc ≠ .clearTasks → s'.cleared = s.cleared
  lost : pc.carried = none ∨ mem = true → s'.lost = s.lost

theorem issued_succ (created t : ℕ) :
    issued (created + 1) t = issued created t + one (some created) t := by
  unfold issued one
  simp only [Option.some.injEq]
  rcases Nat.lt_trichotomy t created with hlt | heq | hgt
  · rw [if_pos (Nat.lt_succ_of_lt hlt), if_pos hlt, if_neg (Nat.ne_of_gt hlt)]
  · rw [heq, if_pos (Nat.lt_succ_self _), if_neg (Nat.lt_irrefl _), if_pos rfl]
  · rw [if_neg (Nat.not_lt.mpr hgt), if_neg (Nat.not_lt.mpr (Nat.le_of_lt hgt)), if_neg (Nat.ne_of_lt hgt)]

/-- A step that handles no task. -/
theorem callerLedger_of_same {mem : Bool} {pc pc' : CallerPc} (htask : pc'.task = pc.task)
    (hcarried : pc'.carried = pc.carried) (hcleared : s'.cleared = s.cleared)
    (htasks : s'.pool.tasks = s.pool.tasks) (hlost : s'.lost = s.lost)
    (hadded : s'.added = s.added) (hcreated : s'.created = s.created) :
    CallerLedger s s' mem pc pc' where
  placed := by
    intro t
    rw [hcarried, hcleared, htasks, hlost, hcreated]
  returned := by
    intro t
    rw [htask, hadded, hcreated]
  cleared := fun _ => hcleared
  lost := fun _ => hlost

theorem locked_task (call : ThpoolCall) (isLazy : Bool) : (call.locked isLazy).task = none := by
  cases call with
  | add => cases isLazy <;> rfl
  | length | clear => rfl

theorem locked_carried (call : ThpoolCall) (isLazy : Bool) :
    (call.locked isLazy).carried = none := by
  cases call with
  | add => cases isLazy <;> rfl
  | length | clear => rfl

theorem callerStep_ledger {pc : CallerPc} (hpc : s.callers[a]? = some pc)
    (hstep : s.callerStep a answer pc = some s') :
    ∃ pc', s'.callers[a]? = some pc' ∧ CallerLedger s s' answer.mem pc pc' := by
  cases pc with
  | idle => cases hstep
  | assertRunning call =>
      simp only [callerStep] at hstep
      split at hstep
      next =>
        cases hstep
        exact ⟨.assertStarted call, getElem?_set_of_some hpc,
          callerLedger_of_same rfl rfl rfl rfl rfl rfl rfl⟩
      next =>
        cases hstep
        exact ⟨.idle, getElem?_set_of_some hpc,
          callerLedger_of_same rfl rfl rfl rfl rfl rfl rfl⟩
  | assertStarted call =>
      simp only [callerStep] at hstep
      split at hstep
      next =>
        cases hstep
        exact ⟨.lock call, getElem?_set_of_some hpc,
          callerLedger_of_same rfl rfl rfl rfl rfl rfl rfl⟩
      next =>
        cases hstep
        exact ⟨.idle, getElem?_set_of_some hpc,
          callerLedger_of_same rfl rfl rfl rfl rfl rfl rfl⟩
  | lock call =>
      simp only [callerStep, Option.bind_eq_bind, Option.bind_eq_some_iff, acquire_eq_some] at hstep
      obtain ⟨_, ⟨hfree, rfl⟩, hs'⟩ := hstep
      cases hs'
      refine ⟨_, getElem?_set_of_some hpc, callerLedger_of_same ?_ ?_ rfl rfl rfl rfl rfl⟩
      · exact locked_task call _
      · exact locked_carried call _
  | grow =>
      simp only [callerStep] at hstep
      split at hstep
      next =>
        cases hstep
        exact ⟨.create, getElem?_set_of_some hpc,
          callerLedger_of_same rfl rfl rfl rfl rfl rfl rfl⟩
      next =>
        cases hstep
        exact ⟨.newTask, getElem?_set_of_some hpc,
          callerLedger_of_same rfl rfl rfl rfl rfl rfl rfl⟩
  | create =>
      simp only [callerStep] at hstep
      split at hstep
      next =>
        cases hstep
        exact ⟨.create, hpc, callerLedger_of_same rfl rfl rfl rfl rfl rfl rfl⟩
      split at hstep
      next =>
        cases hstep
        exact ⟨.insert s.workers.length, getElem?_set_of_some hpc,
          callerLedger_of_same rfl rfl rfl rfl rfl rfl rfl⟩
      next =>
        cases hstep
        exact ⟨.idle, getElem?_set_of_some hpc,
          callerLedger_of_same rfl rfl rfl rfl rfl rfl rfl⟩
  | insert th =>
      cases hstep
      unfold listInsert
      split
      next =>
        exact ⟨.newTask, getElem?_set_of_some hpc,
          callerLedger_of_same rfl rfl rfl rfl rfl rfl rfl⟩
      next =>
        exact ⟨.newTask, getElem?_set_of_some hpc,
          callerLedger_of_same rfl rfl rfl rfl rfl rfl rfl⟩
  | newTask =>
      simp only [callerStep] at hstep
      split at hstep
      next =>
        cases hstep
        refine ⟨.enqueue s.created, getElem?_set_of_some hpc, ?_, ?_, fun _ => rfl, fun _ => rfl⟩
        · intro t
          simp only [moveCaller, issued_succ, CallerPc.carried, one_none]
          omega
        · intro t
          simp only [moveCaller, issued_succ, CallerPc.task, one_none]
          omega
      next =>
        cases hstep
        exact ⟨.newTask, hpc, callerLedger_of_same rfl rfl rfl rfl rfl rfl rfl⟩
  | enqueue task =>
      simp only [callerStep] at hstep
      split at hstep
      next =>
        cases hstep
        refine ⟨.signal task, getElem?_set_of_some hpc, ?_, fun _ => rfl, fun _ => rfl, fun _ => rfl⟩
        intro t
        simp only [moveCaller, CallerPc.carried, List.count_append, count_singleton, one_none]
        omega
      next hmem =>
        cases hstep
        refine ⟨.signal task, getElem?_set_of_some hpc, ?_, fun _ => rfl, fun _ => rfl, ?_⟩
        · intro t
          simp only [moveCaller, CallerPc.carried, List.count_append, count_singleton, one_none]
          omega
        · intro h
          rcases h with h | h
          · cases h
          · exact absurd h hmem
  | signal task =>
      simp only [callerStep, Option.bind_eq_bind, Option.bind_eq_some_iff] at hstep
      obtain ⟨_, hsignal, hs'⟩ := hstep
      obtain ⟨workers, -, rfl⟩ := signal_woken hsignal
      cases hs'
      exact ⟨.unlock (some task), getElem?_set_of_some hpc,
        callerLedger_of_same rfl rfl rfl rfl rfl rfl rfl⟩
  | readLength =>
      cases hstep
      exact ⟨.unlock none, getElem?_set_of_some hpc,
        callerLedger_of_same rfl rfl rfl rfl rfl rfl rfl⟩
  | clearTasks =>
      cases hstep
      refine ⟨.unlock none, getElem?_set_of_some hpc, ?_, fun _ => rfl, fun h => absurd rfl h,
        fun _ => rfl⟩
      intro t
      simp only [moveCaller, PoolState.clearTasks, CallerPc.carried, List.append_nil]
  | unlock task =>
      cases hstep
      refine ⟨.idle, getElem?_set_of_some hpc, fun _ => rfl, ?_, fun _ => rfl, fun _ => rfl⟩
      intro t
      cases task with
      | none => rfl
      | some task =>
          simp only [moveCaller, CallerPc.task, Option.toList_some, List.count_append,
            count_singleton, one_none]
          omega

theorem accounts_caller {pc : CallerPc} (h : s.Accounts) (hpc : s.callers[a]? = some pc)
    (hstep : s.callerStep a answer pc = some s') : s'.Accounts := by
  obtain ⟨pc', hframe, -⟩ := callerStep_frame hpc hstep
  obtain ⟨pc'', hpc'', hledger⟩ := callerStep_ledger hpc hstep
  have hsame : pc'' = pc' := by
    rw [hframe.callers, getElem?_set_of_some hpc] at hpc''
    exact (Option.some.inj hpc'').symm
  subst hsame
  have hheld : ∀ t, s'.held t = s.held t := by
    intro t
    unfold held
    rcases hframe.workers with ⟨-, hspawn⟩ | hwoken
    · rw [hspawn, List.countP_append]
      rfl
    · exact hwoken.held t
  constructor
  · intro t
    have hplaced := h.placed t
    have hnew := hledger.placed t
    have hcarried := carried_set hpc hframe.callers t
    rw [hheld t, hframe.executed]
    omega
  · intro t
    rw [hheld t, hframe.executed, hframe.dequeued]
    exact h.taken t
  · intro t
    have hreturned := h.returned t
    have hnew := hledger.returned t
    have hadding := adding_set hpc hframe.callers t
    omega

/-! ## All steps -/

theorem accounts_owner (h : s.Accounts) (hstep : s.ownerStep answer s.owner = some s') :
    s'.Accounts := by
  have hframe := ownerStep_frame hstep
  have hheld : ∀ t, s'.held t = s.held t := by
    intro t
    unfold held
    rcases hframe.workers with ⟨i, -, hspawn⟩ | hwoken
    · rw [hspawn, List.countP_append]
      rfl
    · exact hwoken.held t
  constructor
  · intro t
    rw [hheld t, hframe.tasks, hframe.executed, hframe.lost, hframe.created]
    unfold carried
    rw [hframe.callers]
    exact h.placed t
  · intro t
    rw [hheld t, hframe.executed, hframe.dequeued]
    exact h.taken t
  · intro t
    unfold adding
    rw [hframe.callers, hframe.added, hframe.created]
    exact h.returned t

theorem accounts_step {e : PoolEvent} (h : s.Accounts) (hstep : s.step e = some s') :
    s'.Accounts := by
  cases step_taken hstep with
  | owner hstep => exact accounts_owner h hstep
  | free hready => exact ⟨h.placed, h.taken, h.returned⟩
  | @call a call hready hidle =>
      have hmoved : (s.moveCaller a (.assertRunning call)).callers =
          s.callers.set a (.assertRunning call) := rfl
      refine ⟨?_, h.taken, ?_⟩
      · intro t
        have hcarried := carried_set hidle hmoved t
        have hplaced := h.placed t
        simp only [CallerPc.carried, one_none] at hcarried
        simp only [moveCaller, held] at hplaced hcarried ⊢
        omega
      · intro t
        have hadding := adding_set hidle hmoved t
        have hreturned := h.returned t
        simp only [CallerPc.task, one_none] at hadding
        simp only [moveCaller] at hreturned hadding ⊢
        omega
  | caller hpc hstep => exact accounts_caller h hpc hstep
  | worker hpc hstep => exact accounts_worker h hpc hstep
  | @wake w hpc =>
      have hheld : ∀ t, (s.moveWorker w .relock).held t = s.held t := (woken_set hpc).held
      exact ⟨fun t => hheld t ▸ h.placed t, fun t => hheld t ▸ h.taken t, h.returned⟩

theorem accounts_initial (threadCount : ℕ) (flags : ThpoolFlags) (callers : ℕ) :
    (initial threadCount flags callers).Accounts where
  placed := by simp [initial, carried, held, issued, CallerPc.carried]
  taken := fun _ => rfl
  returned := by simp [initial, adding, issued, CallerPc.task]

end PoolState

end Libmodule
