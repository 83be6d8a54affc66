import Libmodule.PoolSteps

/-!
# Wake-ups of workers

While the pool is not shut down a task in the queue does not wait for nobody: either the
call that put it there has not signalled yet, or some worker is awake.  A lazy pool has a
worker by the time it has a task.
-/

namespace Libmodule

open Interleaving

/-- The caller has put a task into the queue and not signalled yet. -/
def CallerPc.signals : CallerPc → Bool
  | .signal _ => true
  | _ => false

/-- The caller is in `m_thpool_add` and holds the mutex. -/
def CallerPc.adds : CallerPc → Bool
  | .grow | .create | .insert _ | .newTask | .enqueue _ | .signal _ | .unlock (some _) => true
  | _ => false

/-- The caller has seen to it that there is a thread. -/
def CallerPc.grown : CallerPc → Bool
  | .insert _ | .newTask | .enqueue _ | .signal _ => true
  | _ => false

/-- The worker is on its way out. -/
def WorkerPc.gone : WorkerPc → Bool
  | .leave | .exited => true
  | _ => false

namespace PoolState

/-- What a pool has before it is used: a thread, unless it creates threads later. -/
def Staffed (s : PoolState) : Prop :=
  0 < s.pool.maxThreads ∧ (s.pool.flags.lazy = false → s.workers ≠ [])

def Staffing (s : PoolState) : OwnerPc → Prop
  | .newThreads | .newTasks | .initMut | .initCond => 0 < s.pool.maxThreads
  | .create i => 0 < s.pool.maxThreads ∧ (0 < i → s.workers ≠ [])
  | .insert _ _ => 0 < s.pool.maxThreads ∧ s.workers ≠ []
  | .started | .ready => s.Staffed
  | _ => True

/-- Some worker does not wait for a signal. -/
def Awake (s : PoolState) : Prop := ∃ pc ∈ s.workers, pc ≠ .waiting

structure Alert (s : PoolState) : Prop where
  owner : s.Staffing s.owner
  callers : ∀ pc ∈ s.callers, pc ≠ .idle → s.Staffed
  grown : ∀ pc ∈ s.callers, pc.grown → s.workers ≠ []
  listed : s.pool.threads ≠ [] → s.workers ≠ []
  staying : s.pool.shutdown = .no → ∀ pc ∈ s.workers, pc.gone = false
  alert : s.pool.shutdown = .no → s.pool.tasks ≠ [] →
    (∃ pc ∈ s.callers, pc.signals) ∨ s.Awake

/-- No wake-up is lost: a task in the queue has a worker that does not wait for a signal,
once no `m_thpool_add` holds the mutex. -/
def NoLostWakeup (s : PoolState) : Prop :=
  s.pool.shutdown = .no → s.pool.tasks ≠ [] → (∀ pc ∈ s.callers, pc.adds = false) →
    ∃ pc ∈ s.workers, pc ≠ .waiting ∧ pc ≠ .exited

theorem Alert.noLostWakeup {s : PoolState} (h : s.Alert) : s.NoLostWakeup := by
  intro hshutdown htasks hadds
  rcases h.alert hshutdown htasks with ⟨pc, hpc, hsignals⟩ | ⟨pc, hpc, hne⟩
  · have hfalse := hadds pc hpc
    cases pc <;> cases hsignals
    cases hfalse
  · refine ⟨pc, hpc, hne, ?_⟩
    rintro rfl
    cases h.staying hshutdown _ hpc

section Steps

variable {s s' : PoolState} {w a : ℕ} {answer : Answer}

/-! ## Workers -/

theorem Woken.ne_nil {l l' : List WorkerPc} (h : Woken l l') (hl : l ≠ []) : l' ≠ [] := by
  obtain ⟨pc, rest, rfl⟩ := List.exists_cons_of_ne_nil hl
  rintro rfl
  rcases h 0 with hsame | ⟨-, hrelock⟩
  · cases hsame
  · cases hrelock

theorem Woken.mem {l l' : List WorkerPc} {pc : WorkerPc} (h : Woken l l') (hpc : pc ∈ l') :
    pc ∈ l ∨ pc = .relock := by
  obtain ⟨w, hw⟩ := List.getElem?_of_mem hpc
  rcases h w with hsame | ⟨-, hrelock⟩
  · exact .inl (List.mem_of_getElem? (hsame.symm.trans hw))
  · exact .inr (Option.some.inj (hw.symm.trans hrelock))

theorem Woken.awake {l l' : List WorkerPc} (h : Woken l l') (hl : ∃ pc ∈ l, pc ≠ .waiting) :
    ∃ pc ∈ l', pc ≠ .waiting := by
  obtain ⟨pc, hpc, hne⟩ := hl
  obtain ⟨w, hw⟩ := List.getElem?_of_mem hpc
  rcases h w with hsame | ⟨hwaiting, -⟩
  · exact ⟨pc, List.mem_of_getElem? (hsame.trans hw), hne⟩
  · exact absurd (Option.some.inj (hw.symm.trans hwaiting)) hne

/-- What matters of a step of a worker to `pc'`: it goes to sleep on an empty queue only, and
stays until the pool is shut down. -/
structure Dozes (s s' : PoolState) (pc pc' : WorkerPc) : Prop where
  tasks : s.pool.tasks = [] → s'.pool.tasks = []
  sleeps : pc' = .waiting → s.pool.tasks = []
  stays : s.pool.shutdown = .no → pc.gone = false → pc'.gone = false

theorem workerStep_dozes {pc pc' : WorkerPc} (hpc : s.workers[w]? = some pc)
    (hstep : s.workerStep w pc = some s') (hframe : WorkerFrame s s' w pc') :
    Dozes s s' pc pc' := by
  have hmoved := fun q => hframe.moved (q := q) hpc
  cases pc with
  | lock | relock =>
      simp only [workerStep, Option.bind_eq_bind, Option.bind_eq_some_iff, acquire_eq_some] at hstep
      obtain ⟨_, ⟨-, rfl⟩, hs'⟩ := hstep
      cases hs'
      cases hmoved .testWait rfl
      exact ⟨id, by rintro ⟨⟩, fun _ _ => rfl⟩
  | testWait =>
      simp only [workerStep] at hstep
      split at hstep
      next hempty =>
        cases hstep
        cases hmoved .waiting rfl
        exact ⟨id, fun _ => hempty.1, fun _ _ => rfl⟩
      next =>
        cases hstep
        cases hmoved .testQuit rfl
        exact ⟨id, by rintro ⟨⟩, fun _ _ => rfl⟩
  | waiting => cases hstep
  | testQuit =>
      simp only [workerStep] at hstep
      split at hstep
      next hquit =>
        cases hstep
        cases hmoved .leave rfl
        exact ⟨id, by rintro ⟨⟩, fun hno => absurd hno hquit.1⟩
      next =>
        cases hstep
        cases hmoved .dequeue rfl
        exact ⟨id, by rintro ⟨⟩, fun _ _ => rfl⟩
  | dequeue =>
      simp only [workerStep] at hstep
      split at hstep
      next hempty =>
        cases hstep
        cases hmoved (.unlock none) rfl
        exact ⟨id, by rintro ⟨⟩, fun _ _ => rfl⟩
      next task tasks hcons =>
        cases hstep
        cases hmoved (.unlock (some task)) rfl
        exact ⟨by simp [hcons], by rintro ⟨⟩, fun _ _ => rfl⟩
  | unlock task =>
      cases hstep
      cases hmoved (.startTask task) rfl
      exact ⟨id, by rintro ⟨⟩, fun _ _ => rfl⟩
  | startTask task =>
      cases hstep
      cases hmoved (.callTask task) rfl
      exact ⟨id, by rintro ⟨⟩, fun _ _ => rfl⟩
  | callTask task =>
      cases task with
      | none =>
          cases hstep
          cases hmoved (.callTask none) (set_self hpc).symm
          exact ⟨id, by rintro ⟨⟩, fun _ _ => rfl⟩
      | some task =>
          cases hstep
          cases hmoved .endTask rfl
          exact ⟨id, by rintro ⟨⟩, fun _ _ => rfl⟩
  | endTask =>
      cases hstep
      cases hmoved .lock rfl
      exact ⟨id, by rintro ⟨⟩, fun _ _ => rfl⟩
  | leave =>
      cases hstep
      cases hmoved .exited rfl
      exact ⟨id, by rintro ⟨⟩, fun _ hgone => by cases hgone⟩
  | exited => cases hstep

/-- The pool keeps its size, and its threads. -/
structure KeepsStaff (s s' : PoolState) : Prop where
  maxThreads : s'.pool.maxThreads = s.pool.maxThreads
  flags : s'.pool.flags = s.pool.flags
  workers : s.workers ≠ [] → s'.workers ≠ []

theorem KeepsStaff.staffed (hkeeps : KeepsStaff s s') (h : s.Staffed) : s'.Staffed := by
  refine ⟨hkeeps.maxThreads ▸ h.1, fun hlazy => hkeeps.workers (h.2 ?_)⟩
  rwa [hkeeps.flags] at hlazy

theorem KeepsStaff.staffing (hkeeps : KeepsStaff s s') {pc : OwnerPc} (h : s.Staffing pc) :
    s'.Staffing pc := by
  cases pc with
  | newThreads | newTasks | initMut | initCond =>
      rw [Staffing, hkeeps.maxThreads]
      exact h
  | create i => exact ⟨hkeeps.maxThreads ▸ h.1, fun hi => hkeeps.workers (h.2 hi)⟩
  | insert i th => exact ⟨hkeeps.maxThreads ▸ h.1, hkeeps.workers h.2⟩
  | started | ready => exact hkeeps.staffed h
  | _ => trivial

theorem Alert.worker {pc : WorkerPc} (h : s.Alert) (hpc : s.workers[w]? = some pc)
    (hstep : s.workerStep w pc = some s') : s'.Alert := by
  obtain ⟨pc', hframe, -⟩ := workerStep_frame hpc hstep
  have hdozes := workerStep_dozes hpc hstep hframe
  have hmem : pc ∈ s.workers := List.mem_of_getElem? hpc
  have hmem' : pc' ∈ s'.workers := by
    rw [hframe.workers]
    exact List.mem_of_getElem? (getElem?_set_of_some hpc)
  have hworkers : s'.workers ≠ [] := List.ne_nil_of_mem hmem'
  have hkeeps : KeepsStaff s s' := ⟨hframe.maxThreads, hframe.flags, fun _ => hworkers⟩
  refine ⟨?_, ?_, fun _ _ _ => hworkers, fun _ => hworkers, ?_, ?_⟩
  · rw [hframe.owner]
    exact hkeeps.staffing h.owner
  · intro pc hpc hne
    rw [hframe.callers] at hpc
    exact hkeeps.staffed (h.callers pc hpc hne)
  · intro hshutdown q hq
    rw [hframe.shutdown] at hshutdown
    rw [hframe.workers] at hq
    rcases List.mem_or_eq_of_mem_set hq with hold | rfl
    · exact h.staying hshutdown q hold
    · exact hdozes.stays hshutdown (h.staying hshutdown pc hmem)
  · intro hshutdown htasks
    refine .inr ⟨pc', hmem', ?_⟩
    intro hwaiting
    exact htasks (hdozes.tasks (hdozes.sleeps hwaiting))

/-! ## Callers -/

/-- What matters of a step of a caller from `pc` to `pc'`: it has a thread before it has a
task, and a task in the queue is followed by a signal. -/
structure Alerts (s s' : PoolState) (pc pc' : CallerPc) : Prop where
  active : pc ≠ .idle
  grown : pc'.grown → s.Staffed → (pc.grown → s.workers ≠ []) →
    (s.pool.threads ≠ [] → s.workers ≠ []) → s'.workers ≠ []
  listed : s'.pool.threads ≠ [] → s.pool.threads ≠ [] ∨ pc.grown
  tasks : s'.pool.tasks ≠ [] → s.pool.tasks ≠ [] ∨ pc'.signals
  signals : pc.signals → s.workers ≠ [] → s'.Awake

theorem signal_awake {woken : ℕ} (hworkers : s.workers ≠ []) (hstep : s.signal woken = some s') :
    s'.Awake := by
  unfold signal at hstep
  split at hstep
  next =>
    split at hstep
    next hw =>
      cases hstep
      exact ⟨.relock, List.mem_of_getElem? (getElem?_set_of_some hw), by rintro ⟨⟩⟩
    next => cases hstep
  next hnone =>
    cases hstep
    obtain ⟨pc, hpc⟩ := List.exists_mem_of_ne_nil _ hworkers
    exact ⟨pc, hpc, by rintro rfl; exact hnone hpc⟩

/-- A lazy pool that does not create a thread has one. -/
theorem listed_of_not_grow (hmax : 0 < s.pool.maxThreads)
    (hgrow : ¬ (¬ s.pool.hasSpace ∧ s.pool.threads.length < s.pool.maxThreads)) :
    s.pool.threads ≠ [] := by
  intro hnil
  apply hgrow
  simp [Thpool.hasSpace, hnil, hmax]

theorem callerStep_alerts {pc pc' : CallerPc} (hpc : s.callers[a]? = some pc)
    (hstep : s.callerStep a answer pc = some s') (hframe : CallerFrame s s' a pc pc') :
    Alerts s s' pc pc' := by
  have hmoved := fun q => hframe.moved (q := q) hpc
  cases pc with
  | idle => cases hstep
  | assertRunning call =>
      simp only [callerStep] at hstep
      split at hstep
      next =>
        cases hstep
        cases hmoved (.assertStarted call) rfl
        exact ⟨by rintro ⟨⟩, by rintro ⟨⟩, .inl, .inl, by rintro ⟨⟩⟩
      next =>
        cases hstep
        cases hmoved .idle rfl
        exact ⟨by rintro ⟨⟩, by rintro ⟨⟩, .inl, .inl, by rintro ⟨⟩⟩
  | assertStarted call =>
      simp only [callerStep] at hstep
      split at hstep
      next =>
        cases hstep
        cases hmoved (.lock call) rfl
        exact ⟨by rintro ⟨⟩, by rintro ⟨⟩, .inl, .inl, by rintro ⟨⟩⟩
      next =>
        cases hstep
        cases hmoved .idle rfl
        exact ⟨by rintro ⟨⟩, by rintro ⟨⟩, .inl, .inl, by rintro ⟨⟩⟩
  | lock call =>
      simp only [callerStep, Option.bind_eq_bind, Option.bind_eq_some_iff, acquire_eq_some] at hstep
      obtain ⟨_, ⟨-, rfl⟩, hs'⟩ := hstep
      cases hs'
      cases hmoved (call.locked s.pool.flags.lazy) rfl
      refine ⟨by rintro ⟨⟩, fun hgrown hstaffed _ _ => hstaffed.2 ?_, .inl, .inl, by rintro ⟨⟩⟩
      cases hlazy : s.pool.flags.lazy with
      | false => rfl
      | true =>
          rw [hlazy] at hgrown
          cases call <;> cases hgrown
  | grow =>
      simp only [callerStep] at hstep
      split at hstep
      next =>
        cases hstep
        cases hmoved .create rfl
        exact ⟨by rintro ⟨⟩, by rintro ⟨⟩, .inl, .inl, by rintro ⟨⟩⟩
      next hgrow =>
        cases hstep
        cases hmoved .newTask rfl
        exact ⟨by rintro ⟨⟩, fun _ hstaffed _ hlisted => hlisted (listed_of_not_grow hstaffed.1 hgrow),
          .inl, .inl, by rintro ⟨⟩⟩
  | create =>
      simp only [callerStep] at hstep
      split at hstep
      next =>
        cases hstep
        cases hmoved .create (set_self hpc).symm
        exact ⟨by rintro ⟨⟩, by rintro ⟨⟩, .inl, .inl, by rintro ⟨⟩⟩
      split at hstep
      next =>
        cases hstep
        cases hmoved (.insert s.workers.length) rfl
        exact ⟨by rintro ⟨⟩, fun _ _ _ _ => List.append_ne_nil_of_right_ne_nil _ (by simp), .inl,
          .inl, by rintro ⟨⟩⟩
      next =>
        cases hstep
        cases hmoved .idle rfl
        exact ⟨by rintro ⟨⟩, by rintro ⟨⟩, .inl, .inl, by rintro ⟨⟩⟩
  | insert th =>
      cases hstep
      have hpool : ((s.listInsert th answer.mem).moveCaller a .newTask).pool.tasks =
          s.pool.tasks := by
        unfold listInsert
        split <;> rfl
      have hworkers : ((s.listInsert th answer.mem).moveCaller a .newTask).workers =
          s.workers := by
        unfold listInsert
        split <;> rfl
      exact ⟨by rintro ⟨⟩, fun _ _ hgrown _ => hworkers ▸ hgrown rfl, fun _ => .inr rfl,
        fun htasks => .inl (hpool ▸ htasks), by rintro ⟨⟩⟩
  | newTask =>
      simp only [callerStep] at hstep
      split at hstep
      next =>
        cases hstep
        cases hmoved (.enqueue s.created) rfl
        exact ⟨by rintro ⟨⟩, fun _ _ hgrown _ => hgrown rfl, .inl, .inl, by rintro ⟨⟩⟩
      next =>
        cases hstep
        exact ⟨by rintro ⟨⟩, fun _ _ hgrown _ => hgrown rfl, .inl, .inl, by rintro ⟨⟩⟩
  | enqueue task =>
      simp only [callerStep] at hstep
      split at hstep
      next =>
        cases hstep
        cases hmoved (.signal task) rfl
        exact ⟨by rintro ⟨⟩, fun _ _ hgrown _ => hgrown rfl, .inl, fun _ => .inr rfl, by rintro ⟨⟩⟩
      next =>
        cases hstep
        cases hmoved (.signal task) rfl
        exact ⟨by rintro ⟨⟩, fun _ _ hgrown _ => hgrown rfl, .inl, .inl, by rintro ⟨⟩⟩
  | signal task =>
      simp only [callerStep, Option.bind_eq_bind, Option.bind_eq_some_iff] at hstep
      obtain ⟨t, hsignal, hs'⟩ := hstep
      have hawake := fun hworkers => signal_awake hworkers hsignal
      obtain ⟨workers, hwoken, rfl⟩ := signal_woken hsignal
      cases hs'
      cases hmoved (.unlock (some task)) rfl
      exact ⟨by rintro ⟨⟩, by rintro ⟨⟩, .inl, .inl, fun _ => hawake⟩
  | readLength =>
      cases hstep
      cases hmoved (.unlock none) rfl
      exact ⟨by rintro ⟨⟩, by rintro ⟨⟩, .inl, .inl, by rintro ⟨⟩⟩
  | clearTasks =>
      cases hstep
      cases hmoved (.unlock none) rfl
      exact ⟨by rintro ⟨⟩, by rintro ⟨⟩, .inl, fun htasks => absurd rfl htasks, by rintro ⟨⟩⟩
  | unlock task =>
      cases hstep
      cases hmoved .idle rfl
      exact ⟨by rintro ⟨⟩, by rintro ⟨⟩, .inl, .inl, by rintro ⟨⟩⟩

theorem Alert.caller {pc : CallerPc} (h : s.Alert) (hpc : s.callers[a]? = some pc)
    (hstep : s.callerStep a answer pc = some s') : s'.Alert := by
  obtain ⟨pc', hframe, -⟩ := callerStep_frame hpc hstep
  have halerts := callerStep_alerts hpc hstep hframe
  have hmem : pc ∈ s.callers := List.mem_of_getElem? hpc
  have hstaffed : s.Staffed := h.callers pc hmem halerts.active
  have hworkers : s.workers ≠ [] → s'.workers ≠ [] := by
    intro hne
    rcases hframe.workers with ⟨-, hspawn⟩ | hwoken
    · rw [hspawn]
      exact List.append_ne_nil_of_left_ne_nil hne _
    · exact hwoken.ne_nil hne
  have hkeeps : KeepsStaff s s' := ⟨hframe.maxThreads, hframe.flags, hworkers⟩
  have hawake : s.Awake → s'.Awake := by
    rintro ⟨q, hq, hne⟩
    rcases hframe.workers with ⟨-, hspawn⟩ | hwoken
    · exact ⟨q, by rw [hspawn]; exact List.mem_append_left _ hq, hne⟩
    · exact hwoken.awake ⟨q, hq, hne⟩
  constructor
  · rw [hframe.owner]
    exact hkeeps.staffing h.owner
  · intro q _ _
    exact hkeeps.staffed hstaffed
  · intro q hq hgrown
    rw [hframe.callers] at hq
    rcases List.mem_or_eq_of_mem_set hq with hold | rfl
    · exact hworkers (h.grown q hold hgrown)
    · exact halerts.grown hgrown hstaffed (h.grown pc hmem) h.listed
  · intro hthreads
    rcases halerts.listed hthreads with hold | hgrown
    · exact hworkers (h.listed hold)
    · exact hworkers (h.grown pc hmem hgrown)
  · intro hshutdown q hq
    rw [hframe.shutdown] at hshutdown
    rcases hframe.workers with ⟨-, hspawn⟩ | hwoken
    · rw [hspawn] at hq
      rcases List.mem_append.mp hq with hold | hnew
      · exact h.staying hshutdown q hold
      · rw [List.mem_singleton.mp hnew]
        rfl
    · rcases hwoken.mem hq with hold | rfl
      · exact h.staying hshutdown q hold
      · rfl
  · intro hshutdown htasks
    rw [hframe.shutdown] at hshutdown
    have hmem' : pc' ∈ s'.callers := by
      rw [hframe.callers]
      exact List.mem_of_getElem? (getElem?_set_of_some hpc)
    rcases halerts.tasks htasks with hold | hsignals
    · rcases h.alert hshutdown hold with ⟨q, hq, hsignals⟩ | hold
      · by_cases heq : q = pc
        · subst heq
          have hgrown : q.grown := by
            cases q <;> first | rfl | cases hsignals
          exact .inr (halerts.signals hsignals (h.grown q hmem hgrown))
        · refine .inl ⟨q, ?_, hsignals⟩
          rw [hframe.callers]
          exact mem_set_of_ne hpc hq heq
      · exact .inr (hawake hold)
    · exact .inl ⟨pc', hmem', hsignals⟩

/-! ## The owner -/

theorem inited_staffing {ok : Bool} {bit : ℕ} {pc : OwnerPc}
    (h : (s.inited ok bit pc).Staffing pc) :
    (s.inited ok bit pc).Staffing (s.inited ok bit pc).owner := by
  unfold inited at h ⊢
  split
  next hok =>
    rw [if_pos hok] at h
    exact h
  next => trivial

theorem freeStage_staffing (free : FreeCall) (i : ℕ) (ok : Bool) :
    (s.freeStage free i ok).Staffing (s.freeStage free i ok).owner := by
  unfold freeStage
  repeat' split
  all_goals trivial

/-- The owner creates a thread, or leaves that to the calls, before the pool is ready. -/
theorem ownerStep_staffing (h : s.Staffing s.owner) (hkeeps : KeepsStaff s s')
    (hstep : s.ownerStep answer s.owner = some s') : s'.Staffing s'.owner := by
  cases hs : s.owner with
  | newPool =>
      simp only [hs, ownerStep] at hstep
      split at hstep
      next hmax =>
        cases hstep
        exact hmax.1
      next =>
        cases hstep
        trivial
  | newThreads | newTasks | initMut =>
      rw [hs] at h hstep
      cases hstep
      apply inited_staffing
      rw [Staffing, hkeeps.maxThreads]
      exact h
  | initCond =>
      rw [hs] at h hstep
      cases hstep
      apply inited_staffing
      revert hkeeps
      split
      next hlazy =>
        intro hkeeps
        refine ⟨hkeeps.maxThreads ▸ h, fun hfalse => ?_⟩
        rw [hkeeps.flags, hlazy] at hfalse
        cases hfalse
      next =>
        intro hkeeps
        exact ⟨hkeeps.maxThreads ▸ h, fun hi => absurd hi (Nat.lt_irrefl 0)⟩
  | create i =>
      rw [hs] at h
      simp only [hs, ownerStep] at hstep
      split at hstep
      next =>
        split at hstep
        next =>
          cases hstep
          rw [show s.crash.owner = .create i from hs]
          exact hkeeps.staffing h
        split at hstep
        next =>
          cases hstep
          exact ⟨h.1, List.append_ne_nil_of_right_ne_nil _ (by simp)⟩
        next =>
          cases hstep
          trivial
      next hlast =>
        cases hstep
        exact ⟨h.1, fun _ => h.2 (Nat.lt_of_lt_of_le h.1 (Nat.le_of_not_lt hlast))⟩
  | insert i th =>
      rw [hs] at h hstep
      cases hstep
      exact ⟨hkeeps.maxThreads ▸ h.1, fun _ => hkeeps.workers h.2⟩
  | started =>
      rw [hs] at h hstep
      cases hstep
      exact inited_staffing (hkeeps.staffed h)
  | ready | returned free | failed =>
      rw [hs] at hstep
      cases hstep
  | stage free i =>
      rw [hs] at hstep
      cases hstep
      exact freeStage_staffing _ _ _
  | lock free =>
      simp only [hs, ownerStep, Option.bind_eq_bind, Option.bind_eq_some_iff, acquire_eq_some]
        at hstep
      obtain ⟨_, ⟨-, rfl⟩, hs'⟩ := hstep
      cases hs'
      trivial
  | newItr free =>
      simp only [hs, ownerStep] at hstep
      split at hstep
      next =>
        cases hstep
        trivial
      next =>
        cases hstep
        trivial
  | join free rest =>
      rw [hs] at hstep
      cases rest with
      | nil =>
          cases hstep
          trivial
      | cons th rest =>
          simp only [ownerStep] at hstep
          split at hstep
          next =>
            cases hstep
            trivial
          next => cases hstep
  | unlock free =>
      rw [hs] at hstep
      cases hstep
      dsimp only
      split <;> trivial
  | setShutdown free | broadcast free | clearStarted free | freePool free =>
      rw [hs] at hstep
      cases hstep
      trivial

theorem Alert.ownerStep (h : s.Alert) (hstep : s.ownerStep answer s.owner = some s') :
    s'.Alert := by
  have hframe := ownerStep_frame hstep
  have hworkers : s.workers ≠ [] → s'.workers ≠ [] := by
    intro hne
    rcases hframe.workers with ⟨i, -, hspawn⟩ | hwoken
    · rw [hspawn]
      exact List.append_ne_nil_of_left_ne_nil hne _
    · exact hwoken.ne_nil hne
  have hkeeps : KeepsStaff s s' := ⟨hframe.maxThreads, hframe.flags, hworkers⟩
  have hshut : s'.pool.shutdown = .no → s.pool.shutdown = .no := by
    intro hno
    rcases hframe.shutdown with ⟨free, hset⟩ | hsame
    · rw [hset] at hstep
      cases hstep
      dsimp only at hno
      split at hno <;> cases hno
    · rwa [hsame] at hno
  constructor
  · exact ownerStep_staffing h.owner hkeeps hstep
  · intro pc hpc hne
    rw [hframe.callers] at hpc
    exact hkeeps.staffed (h.callers pc hpc hne)
  · intro pc hpc hgrown
    rw [hframe.callers] at hpc
    exact hworkers (h.grown pc hpc hgrown)
  · intro hthreads
    rcases hframe.threads with ⟨i, th, hinsert⟩ | hempty
    · have howner := h.owner
      rw [hinsert] at howner
      exact hworkers howner.2
    · exact hworkers (h.listed (fun hnil => hthreads (hempty hnil)))
  · intro hshutdown q hq
    have hstaying := h.staying (hshut hshutdown)
    rcases hframe.workers with ⟨i, -, hspawn⟩ | hwoken
    · rw [hspawn] at hq
      rcases List.mem_append.mp hq with hold | hnew
      · exact hstaying q hold
      · rw [List.mem_singleton.mp hnew]
        rfl
    · rcases hwoken.mem hq with hold | rfl
      · exact hstaying q hold
      · rfl
  · intro hshutdown htasks
    have hold : s.pool.tasks ≠ [] := fun hnil => htasks (hframe.emptied hnil)
    rcases h.alert (hshut hshutdown) hold with ⟨pc, hpc, hsignals⟩ | ⟨pc, hpc, hne⟩
    · exact .inl ⟨pc, hframe.callers ▸ hpc, hsignals⟩
    · rcases hframe.workers with ⟨i, -, hspawn⟩ | hwoken
      · exact .inr ⟨pc, by rw [hspawn]; exact List.mem_append_left _ hpc, hne⟩
      · exact .inr (hwoken.awake ⟨pc, hpc, hne⟩)

/-! ## Runs -/

theorem alert_step {e : PoolEvent} (h : s.Alert) (hstep : s.step e = some s') : s'.Alert := by
  cases step_taken hstep with
  | owner hstep => exact h.ownerStep hstep
  | free hready =>
      exact
        { owner := trivial
          callers := h.callers
          grown := h.grown
          listed := h.listed
          staying := h.staying
          alert := h.alert }
  | @call a call hready hidle =>
      have hstaffed : s.Staffed := by
        have howner := h.owner
        rwa [hready] at howner
      constructor
      · exact h.owner
      · exact fun _ _ _ => hstaffed
      · intro pc hpc hgrown
        rcases List.mem_or_eq_of_mem_set hpc with hold | rfl
        · exact h.grown pc hold hgrown
        · cases hgrown
      · exact h.listed
      · exact h.staying
      · intro hshutdown htasks
        rcases h.alert hshutdown htasks with ⟨pc, hpc, hsignals⟩ | hawake
        · refine .inl ⟨pc, mem_set_of_ne hidle hpc ?_, hsignals⟩
          rintro rfl
          cases hsignals
        · exact .inr hawake
  | caller hpc hstep => exact h.caller hpc hstep
  | worker hpc hstep => exact h.worker hpc hstep
  | @wake w hpc =>
      have hworkers : (s.moveWorker w .relock).workers ≠ [] :=
        (woken_set hpc).ne_nil (List.ne_nil_of_mem (List.mem_of_getElem? hpc))
      have hkeeps : KeepsStaff s (s.moveWorker w .relock) := ⟨rfl, rfl, fun _ => hworkers⟩
      constructor
      · exact hkeeps.staffing h.owner
      · exact fun pc hpc hne => hkeeps.staffed (h.callers pc hpc hne)
      · exact fun _ _ _ => hworkers
      · exact fun _ => hworkers
      · intro hshutdown pc hpc'
        rcases (woken_set hpc).mem hpc' with hold | rfl
        · exact h.staying hshutdown pc hold
        · rfl
      · intro _ _
        exact .inr ⟨.relock, List.mem_of_getElem? (getElem?_set_of_some hpc), by rintro ⟨⟩⟩

theorem alert_initial (threadCount : ℕ) (flags : ThpoolFlags) (callers : ℕ) :
    (initial threadCount flags callers).Alert where
  owner := trivial
  callers := fun _ hpc hne => absurd (List.eq_of_mem_replicate hpc) hne
  grown := by
    intro pc hpc hgrown
    rw [List.eq_of_mem_replicate hpc] at hgrown
    cases hgrown
  listed := fun hthreads => absurd rfl hthreads
  staying := fun _ _ hpc => absurd hpc List.not_mem_nil
  alert := fun _ htasks => absurd rfl htasks

end Steps

/-- No order of the steps of callers and workers loses a wake-up, whichever threads the pool
has, and however often workers wake up on their own. -/
theorem noLostWakeup_of_run (threadCount : ℕ) (flags : ThpoolFlags) (callers : ℕ)
    (events : List PoolEvent) {s : PoolState}
    (hrun : run step (initial threadCount flags callers) events = some s) : s.NoLostWakeup := by
  have halert : s.Alert :=
    invariant_of_run (C := fun _ _ => True) (fun _ _ _ h _ => alert_step h) events
      (alert_initial threadCount flags callers) (meets_of_forall (fun _ _ _ => trivial) _) hrun
  exact halert.noLostWakeup

/-- A caller of a lazy pool adds two tasks before the first worker has taken a step. -/
def twoTasks : List PoolEvent :=
  List.replicate 6 (.owner ⟨true, true, 0⟩) ++
    [.call 0 .add] ++ List.replicate 10 (.caller 0 ⟨true, true, 0⟩) ++
    [.call 0 .add] ++ List.replicate 8 (.caller 0 ⟨true, true, 0⟩)

def twoTasksEnd : PoolState :=
  (run step (initial 2 ⟨true, false⟩ 1) twoTasks).getD (initial 2 ⟨true, false⟩ 1)

theorem noLostWakeup_twoTasks : twoTasksEnd.pool.tasks = [0, 1] ∧ twoTasksEnd.NoLostWakeup :=
  ⟨by decide, noLostWakeup_of_run 2 ⟨true, false⟩ 1 twoTasks (by decide)⟩

end PoolState

end Libmodule
