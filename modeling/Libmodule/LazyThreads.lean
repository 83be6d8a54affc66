import Libmodule.PoolRetirement
import Libmodule.PoolWakeups

/-!
# The threads of a lazy pool

`m_thpool_add` creates a thread for a lazy pool when as many tasks run as the pool has
threads.  Tasks that wait in the queue, and those that a worker has taken but not counted,
are not looked at; where these have a thread each, no task waits for one while another
could be created.
-/

namespace Libmodule

open Interleaving

/-- The worker has a task. -/
def WorkerPc.busy : WorkerPc → Bool
  | .unlock (some _) | .startTask (some _) | .callTask (some _) | .endTask => true
  | _ => false

/-- The worker runs a task. -/
def WorkerPc.running : WorkerPc → Bool
  | .callTask (some _) | .endTask => true
  | _ => false

/-- The caller has still to put its task into the queue, and need not look for a thread. -/
def CallerPc.pending : CallerPc → Bool
  | .insert _ | .newTask | .enqueue _ => true
  | _ => false

def CallerPc.inserts : CallerPc → Bool
  | .insert _ => true
  | _ => false

/-- The caller is about to make the list of threads longer. -/
def CallerPc.grows : CallerPc → Bool
  | .create | .insert _ => true
  | _ => false

def OwnerPc.creates : OwnerPc → Bool
  | .create _ | .insert _ _ => true
  | _ => false

namespace PoolState

/-- The workers that have a task. -/
def busy (s : PoolState) : ℕ := s.workers.countP WorkerPc.busy

def pending (s : PoolState) : ℕ := s.callers.countP CallerPc.pending

/-- The number of threads never exceeds the maximum, and reaches it when a task waits behind
running ones between two calls of `m_thpool_add`. -/
structure LazyContract (s : PoolState) : Prop where
  bounded : s.pool.threads.length ≤ s.pool.maxThreads
  full : (∀ pc ∈ s.callers, pc.adds = false) → (∀ pc ∈ s.workers, pc.running) →
    s.pool.tasks ≠ [] → s.pool.threads.length = s.pool.maxThreads

/-- A call that finds fewer running tasks than threads, and could create one, leaves a thread
for its own task: fewer tasks are in the queue or taken. -/
def LeavesThread (s : PoolState) : PoolEvent → Prop
  | .caller a _ =>
      s.callers[a]? = some .grow → s.pool.hasSpace → s.pool.threads.length < s.pool.maxThreads →
        s.pool.tasks.length + s.busy < s.pool.threads.length
  | _ => True

instance (s : PoolState) : (e : PoolEvent) → Decidable (s.LeavesThread e)
  | .caller _ _ =>
      @forall_prop_decidable _ _ inferInstance fun _ =>
        @forall_prop_decidable _ _ inferInstance fun _ =>
          @forall_prop_decidable _ _ inferInstance fun _ => inferInstanceAs (Decidable (_ < _))
  | .owner _ | .free _ | .call _ _ | .worker _ | .wake _ => isTrue trivial

/-- A lazy pool that is not freed; `R` says that every call has left a thread. -/
structure Growing (R : Prop) (s : PoolState) : Prop where
  exclusive : Exclusive s.Critical s.pool.lock
  isLazy : s.pool.flags.lazy = true
  owner : s.owner.creates = false
  unused : s.owner ≠ .ready →
    (∀ pc ∈ s.callers, pc = .idle) ∧ s.workers = [] ∧ s.pool.threads = [] ∧ s.pool.tasks = []
  bounded : s.pool.threads.length ≤ s.pool.maxThreads
  growing : ∀ pc ∈ s.callers, pc.grows → s.pool.threads.length < s.pool.maxThreads
  listed : s.pool.threads.length + s.callers.countP CallerPc.inserts ≤ s.workers.length
  room : R → s.pool.threads.length < s.pool.maxThreads →
    s.pool.tasks.length + s.busy + s.pending ≤ s.workers.length

theorem busy_of_running {pc : WorkerPc} (h : pc.running) : pc.busy := by
  unfold WorkerPc.running at h
  split at h
  next => rfl
  next => rfl
  next => cases h

theorem Growing.lazyContract {s : PoolState} (h : s.Growing True) : s.LazyContract where
  bounded := h.bounded
  full := by
    intro _ hrunning htasks
    by_contra hne
    have hroom := h.room trivial (Nat.lt_of_le_of_ne h.bounded hne)
    have hbusy : s.busy = s.workers.length :=
      List.countP_eq_length.mpr (fun pc hpc => busy_of_running (hrunning pc hpc))
    have hpos := List.length_pos_iff.mpr htasks
    omega

section Steps

variable {R : Prop} {s s' : PoolState} {w a : ℕ} {answer : Answer}

/-! ## Workers -/

/-- A worker that takes a task takes it out of the queue. -/
theorem workerStep_busy {pc pc' : WorkerPc} (hpc : s.workers[w]? = some pc)
    (hstep : s.workerStep w pc = some s') (hframe : WorkerFrame s s' w pc') :
    s'.pool.tasks.length + (if pc'.busy then 1 else 0) ≤
      s.pool.tasks.length + (if pc.busy then 1 else 0) := by
  have hmoved := fun q => hframe.moved (q := q) hpc
  cases pc with
  | lock | relock =>
      simp only [workerStep, Option.bind_eq_bind, Option.bind_eq_some_iff, acquire_eq_some] at hstep
      obtain ⟨_, ⟨-, rfl⟩, hs'⟩ := hstep
      cases hs'
      cases hmoved .testWait rfl
      exact Nat.le_refl _
  | testWait =>
      simp only [workerStep] at hstep
      split at hstep
      next =>
        cases hstep
        cases hmoved .waiting rfl
        exact Nat.le_refl _
      next =>
        cases hstep
        cases hmoved .testQuit rfl
        exact Nat.le_refl _
  | waiting => cases hstep
  | testQuit =>
      simp only [workerStep] at hstep
      split at hstep
      next =>
        cases hstep
        cases hmoved .leave rfl
        exact Nat.le_refl _
      next =>
        cases hstep
        cases hmoved .dequeue rfl
        exact Nat.le_refl _
  | dequeue =>
      simp only [workerStep] at hstep
      split at hstep
      next =>
        cases hstep
        cases hmoved (.unlock none) rfl
        exact Nat.le_refl _
      next task tasks hcons =>
        cases hstep
        cases hmoved (.unlock (some task)) rfl
        simp [moveWorker, hcons, WorkerPc.busy]
  | unlock task =>
      cases hstep
      cases hmoved (.startTask task) rfl
      cases task <;> exact Nat.le_refl _
  | startTask task =>
      cases hstep
      cases hmoved (.callTask task) rfl
      cases task <;> exact Nat.le_refl _
  | callTask task =>
      cases task with
      | none =>
          cases hstep
          cases hmoved (.callTask none) (set_self hpc).symm
          exact Nat.le_refl _
      | some task =>
          cases hstep
          cases hmoved .endTask rfl
          exact Nat.le_refl _
  | endTask =>
      cases hstep
      cases hmoved .lock rfl
      exact Nat.le_succ _
  | leave =>
      cases hstep
      cases hmoved .exited rfl
      exact Nat.le_refl _
  | exited => cases hstep

theorem Growing.worker {pc : WorkerPc} (h : s.Growing R) (hexclusive : Exclusive s'.Critical s'.pool.lock)
    (hpc : s.workers[w]? = some pc) (hstep : s.workerStep w pc = some s') : s'.Growing R := by
  obtain ⟨pc', hframe, -⟩ := workerStep_frame hpc hstep
  have hbusy := workerStep_busy hpc hstep hframe
  have hcount := countP_set_add WorkerPc.busy pc' hpc
  rw [← hframe.workers] at hcount
  have hlength : s'.workers.length = s.workers.length := by rw [hframe.workers, List.length_set]
  constructor
  · exact hexclusive
  · rw [hframe.flags]
    exact h.isLazy
  · rw [hframe.owner]
    exact h.owner
  · intro howner
    rw [hframe.owner] at howner
    rw [(h.unused howner).2.1] at hpc
    cases hpc
  · rw [hframe.threads, hframe.maxThreads]
    exact h.bounded
  · rw [hframe.threads, hframe.maxThreads, hframe.callers]
    exact h.growing
  · rw [hframe.threads, hframe.callers, hlength]
    exact h.listed
  · rw [hframe.threads, hframe.maxThreads, hlength]
    intro hR hroom
    have hold := h.room hR hroom
    simp only [busy, pending, hframe.callers] at hold ⊢
    omega

/-! ## Callers -/

/-- What a step of a caller of a lazy pool does to its tasks and threads. -/
inductive CallerMove (s s' : PoolState) : CallerPc → CallerPc → Prop where
  | create (hfew : s.pool.threads.length < s.pool.maxThreads)
      (htasks : s'.pool.tasks = s.pool.tasks) (hthreads : s'.pool.threads = s.pool.threads)
      (hworkers : s'.workers = s.workers) : CallerMove s s' .grow .create
  | enough (henough : s.pool.hasSpace ∨ s.pool.maxThreads ≤ s.pool.threads.length)
      (htasks : s'.pool.tasks = s.pool.tasks) (hthreads : s'.pool.threads = s.pool.threads)
      (hworkers : s'.workers = s.workers) : CallerMove s s' .grow .newTask
  | spawn (th : ℕ) (htasks : s'.pool.tasks = s.pool.tasks)
      (hthreads : s'.pool.threads = s.pool.threads)
      (hworkers : s'.workers = s.workers ++ [.lock]) : CallerMove s s' .create (.insert th)
  | insert (th : ℕ) (htasks : s'.pool.tasks = s.pool.tasks)
      (hthreads : s'.pool.threads = th :: s.pool.threads ∨ s'.pool.threads = s.pool.threads)
      (hworkers : s'.workers = s.workers) : CallerMove s s' (.insert th) .newTask
  | enqueue (task : ℕ) (htasks : s'.pool.tasks.length ≤ s.pool.tasks.length + 1)
      (hthreads : s'.pool.threads = s.pool.threads) (hworkers : s'.workers = s.workers) :
      CallerMove s s' (.enqueue task) (.signal task)
  | other {pc pc' : CallerPc} (hpending : pc'.pending = pc.pending)
      (hinserts : pc'.inserts = pc.inserts) (hgrows : pc'.grows → pc.grows)
      (htasks : s'.pool.tasks.length ≤ s.pool.tasks.length)
      (hthreads : s'.pool.threads = s.pool.threads) (hworkers : Woken s.workers s'.workers) :
      CallerMove s s' pc pc'

/-- The move of a step that leaves tasks, threads and workers alone. -/
theorem quietMove {pc pc' : CallerPc} {lock : Option Party} {callers : List CallerPc}
    {added lost : List ℕ} {created : ℕ} {crashed : Bool} (hpending : pc'.pending = pc.pending)
    (hinserts : pc'.inserts = pc.inserts) (hgrows : pc'.grows → pc.grows) :
    CallerMove s
      { s with
        pool := { s.pool with lock := lock }
        callers := callers
        created := created
        added := added
        lost := lost
        crashed := crashed } pc pc' :=
  .other hpending hinserts hgrows (Nat.le_refl _) rfl (Woken.refl _)

theorem callerStep_move {pc pc' : CallerPc} (hlazy : s.pool.flags.lazy = true)
    (hpc : s.callers[a]? = some pc) (hstep : s.callerStep a answer pc = some s')
    (hframe : CallerFrame s s' a pc pc') : CallerMove s s' pc pc' := by
  have hmoved := fun q => hframe.moved (q := q) hpc
  cases pc with
  | idle => cases hstep
  | assertRunning call =>
      simp only [callerStep] at hstep
      split at hstep
      next =>
        cases hstep
        cases hmoved (.assertStarted call) rfl
        exact quietMove rfl rfl id
      next =>
        cases hstep
        cases hmoved .idle rfl
        exact quietMove rfl rfl id
  | assertStarted call =>
      simp only [callerStep] at hstep
      split at hstep
      next =>
        cases hstep
        cases hmoved (.lock call) rfl
        exact quietMove rfl rfl id
      next =>
        cases hstep
        cases hmoved .idle rfl
        exact quietMove rfl rfl id
  | lock call =>
      simp only [callerStep, Option.bind_eq_bind, Option.bind_eq_some_iff, acquire_eq_some] at hstep
      obtain ⟨_, ⟨-, rfl⟩, hs'⟩ := hstep
      cases hs'
      cases hmoved (call.locked s.pool.flags.lazy) rfl
      rw [hlazy]
      cases call <;> exact quietMove rfl rfl id
  | grow =>
      simp only [callerStep] at hstep
      split at hstep
      next hgrow =>
        cases hstep
        cases hmoved .create rfl
        exact .create hgrow.2 rfl rfl rfl
      next hgrow =>
        cases hstep
        cases hmoved .newTask rfl
        refine .enough ?_ rfl rfl rfl
        by_cases hspace : s.pool.hasSpace
        · exact .inl hspace
        · exact .inr (Nat.le_of_not_lt (fun hlt => hgrow ⟨hspace, hlt⟩))
  | create =>
      simp only [callerStep] at hstep
      split at hstep
      next =>
        cases hstep
        cases hmoved .create (set_self hpc).symm
        exact quietMove rfl rfl id
      split at hstep
      next =>
        cases hstep
        cases hmoved (.insert s.workers.length) rfl
        exact .spawn _ rfl rfl rfl
      next =>
        cases hstep
        cases hmoved .idle rfl
        exact quietMove rfl rfl (by rintro ⟨⟩)
  | insert th =>
      cases hstep
      unfold listInsert at hframe hmoved ⊢
      split at hmoved
      next hmem =>
        cases hmoved .newTask rfl
        rw [if_pos hmem]
        exact .insert th rfl (.inl rfl) rfl
      next hmem =>
        cases hmoved .newTask rfl
        rw [if_neg hmem]
        exact .insert th rfl (.inr rfl) rfl
  | newTask =>
      simp only [callerStep] at hstep
      split at hstep
      next =>
        cases hstep
        cases hmoved (.enqueue s.created) rfl
        exact quietMove rfl rfl id
      next =>
        cases hstep
        cases hmoved .newTask (set_self hpc).symm
        exact quietMove rfl rfl id
  | enqueue task =>
      simp only [callerStep] at hstep
      split at hstep
      next =>
        cases hstep
        cases hmoved (.signal task) rfl
        exact .enqueue task (by simp [moveCaller]) rfl rfl
      next =>
        cases hstep
        cases hmoved (.signal task) rfl
        exact .enqueue task (Nat.le_succ _) rfl rfl
  | signal task =>
      simp only [callerStep, Option.bind_eq_bind, Option.bind_eq_some_iff] at hstep
      obtain ⟨t, hsignal, hs'⟩ := hstep
      obtain ⟨workers, hwoken, rfl⟩ := signal_woken hsignal
      cases hs'
      cases hmoved (.unlock (some task)) rfl
      exact .other rfl rfl id (Nat.le_refl _) rfl hwoken
  | readLength =>
      cases hstep
      cases hmoved (.unlock none) rfl
      exact quietMove rfl rfl id
  | clearTasks =>
      cases hstep
      cases hmoved (.unlock none) rfl
      exact .other rfl rfl id (Nat.zero_le _) rfl (Woken.refl _)
  | unlock task =>
      cases hstep
      cases hmoved .idle rfl
      exact quietMove rfl rfl id

theorem sole_caller {b : ℕ} {pc q : CallerPc} (h : Exclusive s.Critical s.pool.lock)
    (hpc : s.callers[a]? = some pc) (hcritical : pc.critical) (hq : s.callers[b]? = some q)
    (hcritical' : q.critical) : b = a := by
  have hsame := h.eq ((critical_caller hq).mpr hcritical') ((critical_caller hpc).mpr hcritical)
  exact Party.caller.inj hsame

theorem critical_of_pending {pc : CallerPc} (h : pc.pending) : pc.critical := by
  cases pc <;> first | rfl | cases h

theorem critical_of_grows {pc : CallerPc} (h : pc.grows) : pc.critical := by
  cases pc <;> first | rfl | cases h

/-- Nobody else has a task to put into the queue while a caller looks for a thread. -/
theorem pending_eq_zero (h : Exclusive s.Critical s.pool.lock)
    (hpc : s.callers[a]? = some .grow) : s.pending = 0 := by
  rw [pending, List.countP_eq_zero]
  intro q hq hpending
  obtain ⟨b, hb⟩ := List.getElem?_of_mem hq
  obtain rfl := sole_caller h hpc rfl hb (critical_of_pending hpending)
  cases hpc.symm.trans hb
  cases hpending

theorem Growing.caller {pc : CallerPc} (h : s.Growing R)
    (hexclusive : Exclusive s'.Critical s'.pool.lock) (hleaves : R → s.LeavesThread (.caller a answer))
    (hpc : s.callers[a]? = some pc) (hstep : s.callerStep a answer pc = some s') :
    s'.Growing R := by
  obtain ⟨pc', hframe, -⟩ := callerStep_frame hpc hstep
  have hpending := countP_set_add CallerPc.pending pc' hpc
  have hinserts := countP_set_add CallerPc.inserts pc' hpc
  rw [← hframe.callers] at hpending hinserts
  have hlisted := h.listed
  have hroom := h.room
  have hactive : pc ≠ .idle := by
    rintro rfl
    cases hstep
  have hused : s.owner = .ready := by
    by_contra howner
    exact hactive ((h.unused howner).1 pc (List.mem_of_getElem? hpc))
  -- whoever is about to add a thread still is, or has just looked for one
  have hgrowing : (pc'.grows → pc.grows ∨ s.pool.threads.length < s.pool.maxThreads) →
      s'.pool.threads = s.pool.threads → ∀ q ∈ s'.callers, q.grows →
        s'.pool.threads.length < s'.pool.maxThreads := by
    intro hgrows hthreads q hq hq'
    rw [hthreads, hframe.maxThreads]
    rw [hframe.callers] at hq
    rcases List.mem_or_eq_of_mem_set hq with hold | rfl
    · exact h.growing q hold hq'
    · rcases hgrows hq' with hpc' | hfew
      · exact h.growing pc (List.mem_of_getElem? hpc) hpc'
      · exact hfew
  suffices hkeeps : s'.pool.threads.length ≤ s'.pool.maxThreads ∧
      (∀ q ∈ s'.callers, q.grows → s'.pool.threads.length < s'.pool.maxThreads) ∧
      s'.pool.threads.length + s'.callers.countP CallerPc.inserts ≤ s'.workers.length ∧
      (R → s'.pool.threads.length < s'.pool.maxThreads →
        s'.pool.tasks.length + s'.busy + s'.pending ≤ s'.workers.length) by
    obtain ⟨hbounded', hgrowing', hlisted', hroom'⟩ := hkeeps
    exact
      { exclusive := hexclusive
        isLazy := by rw [hframe.flags]; exact h.isLazy
        owner := by rw [hframe.owner]; exact h.owner
        unused := fun howner => absurd (hframe.owner.trans hused) howner
        bounded := hbounded'
        growing := hgrowing'
        listed := hlisted'
        room := hroom' }
  have hbounded := h.bounded
  have hmax := hframe.maxThreads
  unfold pending busy at hroom
  cases callerStep_move h.isLazy hpc hstep hframe with
  | create hfew htasks hthreads hworkers =>
      simp only [CallerPc.pending, CallerPc.inserts, Bool.false_eq_true, if_false] at hpending hinserts
      refine ⟨by rw [hthreads, hmax]; exact hbounded, hgrowing (fun _ => .inr hfew) hthreads, ?_, ?_⟩
      · rw [hthreads, hworkers]
        omega
      · rw [hthreads, hmax]
        intro hR hless
        have hold := hroom hR hless
        simp only [pending, busy, htasks, hworkers]
        omega
  | enough henough htasks hthreads hworkers =>
      simp only [CallerPc.pending, CallerPc.inserts, Bool.false_eq_true, if_false, if_true]
        at hpending hinserts
      refine ⟨by rw [hthreads, hmax]; exact hbounded, hgrowing (by rintro ⟨⟩) hthreads, ?_, ?_⟩
      · rw [hthreads, hworkers]
        omega
      · intro hR hfew
        rw [hthreads, hmax] at hfew
        have hnone := pending_eq_zero h.exclusive hpc
        rcases henough with hspace | hmany
        · have hleft := hleaves hR hpc hspace hfew
          simp only [pending, busy, htasks, hworkers] at hleft hnone ⊢
          omega
        · omega
  | spawn th htasks hthreads hworkers =>
      simp only [CallerPc.pending, CallerPc.inserts, Bool.false_eq_true, if_false, if_true]
        at hpending hinserts
      refine ⟨by rw [hthreads, hmax]; exact hbounded, hgrowing (fun _ => .inl rfl) hthreads, ?_, ?_⟩
      · rw [hthreads, hworkers, List.length_append]
        simp only [List.length_singleton]
        omega
      · rw [hthreads, hmax]
        intro hR hfew
        have hold := hroom hR hfew
        simp only [pending, busy, htasks, hworkers, List.countP_append, List.length_append,
          List.length_singleton, List.countP_singleton, WorkerPc.busy, Bool.false_eq_true, if_false]
        omega
  | insert th htasks hthreads hworkers =>
      simp only [CallerPc.pending, CallerPc.inserts, Bool.false_eq_true, if_false, if_true]
        at hpending hinserts
      have hfew := h.growing _ (List.mem_of_getElem? hpc) rfl
      have hlength : s'.pool.threads.length ≤ s.pool.threads.length + 1 := by
        rcases hthreads with hnew | hsame
        · exact Nat.le_of_eq (by rw [hnew, List.length_cons])
        · rw [hsame]
          exact Nat.le_succ _
      refine ⟨by omega, ?_, ?_, ?_⟩
      · intro q hq hq'
        obtain ⟨b, hb⟩ := List.getElem?_of_mem hq
        by_cases hba : b = a
        · subst hba
          rw [hframe.callers, getElem?_set_of_some hpc] at hb
          cases hb
          cases hq'
        · rw [hframe.callers, List.getElem?_set_ne (Ne.symm hba)] at hb
          exact absurd (sole_caller h.exclusive hpc rfl hb (critical_of_grows hq')) hba
      · rw [hworkers]
        omega
      · intro hR _
        have hold := hroom hR hfew
        simp only [pending, busy, htasks, hworkers]
        omega
  | enqueue task htasks hthreads hworkers =>
      simp only [CallerPc.pending, CallerPc.inserts, Bool.false_eq_true, if_false, if_true]
        at hpending hinserts
      refine ⟨by rw [hthreads, hmax]; exact hbounded, hgrowing (by rintro ⟨⟩) hthreads, ?_, ?_⟩
      · rw [hthreads, hworkers]
        omega
      · rw [hthreads, hmax]
        intro hR hfew
        have hold := hroom hR hfew
        simp only [pending, busy, hworkers]
        omega
  | other hpending' hinserts' hgrows htasks hthreads hworkers =>
      refine ⟨by rw [hthreads, hmax]; exact hbounded,
        hgrowing (fun hpc' => .inl (hgrows hpc')) hthreads, ?_, ?_⟩
      · rw [hthreads, woken_length hworkers]
        rw [hinserts'] at hinserts
        omega
      · rw [hthreads, hmax]
        intro hR hfew
        have hold := hroom hR hfew
        simp only [pending, busy, hworkers.countP (p := WorkerPc.busy) rfl, woken_length hworkers]
        rw [hpending'] at hpending
        omega

/-! ## The owner -/

theorem inited_creates {ok : Bool} {bit : ℕ} {pc : OwnerPc} (hpc : pc.creates = false) :
    (s.inited ok bit pc).owner.creates = false := by
  unfold inited
  split
  next => exact hpc
  next => rfl

theorem freeStage_creates (free : FreeCall) (i : ℕ) (ok : Bool) :
    (s.freeStage free i ok).owner.creates = false := by
  unfold freeStage
  repeat' split
  all_goals rfl

/-- The owner of a lazy pool creates no threads. -/
theorem ownerStep_creates (hlazy : s.pool.flags.lazy = true) (howner : s.owner.creates = false)
    (hstep : s.ownerStep answer s.owner = some s') : s'.owner.creates = false := by
  cases hs : s.owner with
  | create i | insert i th =>
      rw [hs] at howner
      cases howner
  | newPool =>
      simp only [hs, ownerStep] at hstep
      split at hstep <;> cases hstep <;> rfl
  | newThreads | newTasks | initMut | started =>
      rw [hs] at hstep
      cases hstep
      exact inited_creates rfl
  | initCond =>
      rw [hs] at hstep
      cases hstep
      exact inited_creates (by rw [hlazy]; rfl)
  | ready | returned free | failed =>
      rw [hs] at hstep
      cases hstep
  | stage free i =>
      rw [hs] at hstep
      cases hstep
      exact freeStage_creates _ _ _
  | lock free =>
      simp only [hs, ownerStep, Option.bind_eq_bind, Option.bind_eq_some_iff, acquire_eq_some]
        at hstep
      obtain ⟨_, ⟨-, rfl⟩, hs'⟩ := hstep
      cases hs'
      rfl
  | newItr free =>
      simp only [hs, ownerStep] at hstep
      split at hstep <;> cases hstep <;> rfl
  | join free rest =>
      rw [hs] at hstep
      cases rest with
      | nil =>
          cases hstep
          rfl
      | cons th rest =>
          simp only [ownerStep] at hstep
          split at hstep <;> cases hstep
          rfl
  | unlock free =>
      rw [hs] at hstep
      cases hstep
      dsimp only
      split <;> rfl
  | setShutdown free | broadcast free | clearStarted free | freePool free =>
      rw [hs] at hstep
      cases hstep
      rfl

theorem Growing.ownerStep (h : s.Growing R) (hexclusive : Exclusive s'.Critical s'.pool.lock)
    (hstep : s.ownerStep answer s.owner = some s') : s'.Growing R := by
  have hframe := ownerStep_frame hstep
  have hready : s.owner ≠ .ready := by
    intro hready
    rw [hready] at hstep
    cases hstep
  obtain ⟨hidle, hworkers, hthreads, htasks⟩ := h.unused hready
  have howner := h.owner
  have hworkers' : s'.workers = [] := by
    rcases hframe.workers with ⟨i, hcreate, -⟩ | hwoken
    · rw [hcreate] at howner
      cases howner
    · rw [← List.length_eq_zero_iff, woken_length hwoken, hworkers, List.length_nil]
  have hthreads' : s'.pool.threads = [] := by
    rcases hframe.threads with ⟨i, th, hinsert⟩ | hempty
    · rw [hinsert] at howner
      cases howner
    · exact hempty hthreads
  have htasks' : s'.pool.tasks = [] := hframe.emptied htasks
  have hidle' : ∀ pc ∈ s'.callers, pc = .idle := by
    rw [hframe.callers]
    exact hidle
  have hnone : ∀ p : CallerPc → Bool, p .idle = false → s'.callers.countP p = 0 := by
    intro p hp
    rw [List.countP_eq_zero]
    intro pc hpc
    rw [hidle' pc hpc, hp]
    exact Bool.false_ne_true
  constructor
  · exact hexclusive
  · rw [hframe.flags]
    exact h.isLazy
  · exact ownerStep_creates h.isLazy h.owner hstep
  · exact fun _ => ⟨hidle', hworkers', hthreads', htasks'⟩
  · rw [hthreads']
    exact Nat.zero_le _
  · intro pc hpc hgrows
    rw [hidle' pc hpc] at hgrows
    cases hgrows
  · simp [hthreads', hworkers', hnone CallerPc.inserts rfl]
  · intro _ _
    simp [busy, pending, htasks', hworkers', hnone CallerPc.pending rfl]

/-! ## Runs -/

theorem growing_step {e : PoolEvent} (h : s.Growing R) (hleaves : R → s.LeavesThread e)
    (hfree : ∀ waitAll, e ≠ .free waitAll) (hstep : s.step e = some s') : s'.Growing R := by
  have hexclusive := exclusive_step h.exclusive hstep
  cases step_taken hstep with
  | owner hstep => exact h.ownerStep hexclusive hstep
  | @free waitAll hready => exact absurd rfl (hfree waitAll)
  | @call a call hready hidle =>
      have hkept : ∀ p : CallerPc → Bool, p .idle = false → p (.assertRunning call) = false →
          (s.callers.set a (.assertRunning call)).countP p = s.callers.countP p := by
        intro p hp hp'
        have hcount := countP_set_add p (.assertRunning call) hidle
        rwa [hp, hp'] at hcount
      constructor
      · exact hexclusive
      · exact h.isLazy
      · exact h.owner
      · exact fun howner => absurd hready howner
      · exact h.bounded
      · intro pc hpc hgrows
        rcases List.mem_or_eq_of_mem_set hpc with hold | rfl
        · exact h.growing pc hold hgrows
        · cases hgrows
      · have hlisted := h.listed
        rwa [← hkept CallerPc.inserts rfl rfl] at hlisted
      · have hroom := h.room
        rwa [pending, ← hkept CallerPc.pending rfl rfl] at hroom
  | caller hpc hstep => exact h.caller hexclusive hleaves hpc hstep
  | worker hpc hstep => exact h.worker hexclusive hpc hstep
  | @wake w hpc =>
      have hwoken := woken_set hpc
      constructor
      · exact hexclusive
      · exact h.isLazy
      · exact h.owner
      · intro howner
        rw [(h.unused howner).2.1] at hpc
        cases hpc
      · exact h.bounded
      · exact h.growing
      · have hlisted := h.listed
        rwa [← woken_length hwoken] at hlisted
      · have hroom := h.room
        rwa [← woken_length hwoken, busy, ← hwoken.countP (p := WorkerPc.busy) rfl] at hroom

theorem growing_initial (threadCount : ℕ) {flags : ThpoolFlags} (hlazy : flags.lazy = true)
    (callers : ℕ) : (initial threadCount flags callers).Growing R := by
  have hidle : ∀ pc ∈ (initial threadCount flags callers).callers, pc = .idle :=
    fun _ hpc => List.eq_of_mem_replicate hpc
  constructor
  · exact (retiring_initial threadCount flags callers).exclusive
  · exact hlazy
  · rfl
  · exact fun _ => ⟨hidle, rfl, rfl, rfl⟩
  · exact Nat.zero_le _
  · intro pc hpc hgrows
    rw [hidle pc hpc] at hgrows
    cases hgrows
  · simp [initial, CallerPc.inserts]
  · intro _ _
    simp [pending, busy, initial, CallerPc.pending]

end Steps

theorem growing_of_run (R : Prop) (threadCount : ℕ) {flags : ThpoolFlags}
    (hlazy : flags.lazy = true) (callers : ℕ) {events : List PoolEvent}
    (hfree : ∀ e ∈ events, ∀ waitAll, e ≠ .free waitAll) {s : PoolState}
    (hmeets : Meets step (fun s e => R → s.LeavesThread e) (initial threadCount flags callers)
      events)
    (hrun : run step (initial threadCount flags callers) events = some s) : s.Growing R := by
  have hkept : Meets step (fun _ e => ∀ waitAll, e ≠ .free waitAll)
      (initial threadCount flags callers) events :=
    meets_of_forall (fun _ => hfree) _
  exact invariant_of_run (fun _ _ _ h hC => growing_step h hC.1 hC.2) events
    (growing_initial threadCount hlazy callers) (hmeets.and hkept) hrun

/-- The second task comes while the first one runs, and gets a thread of its own. -/
def taskWhileRunning : List PoolEvent :=
  List.replicate 6 (.owner ⟨true, true, 0⟩) ++
    [.call 0 .add] ++ List.replicate 10 (.caller 0 ⟨true, true, 0⟩) ++
    List.replicate 6 (.worker 0) ++
    [.call 0 .add] ++ List.replicate 10 (.caller 0 ⟨true, true, 0⟩)

def taskWhileRunningEnd : PoolState :=
  (run step (initial 2 ⟨true, false⟩ 1) taskWhileRunning).getD (initial 2 ⟨true, false⟩ 1)

/-- Two tasks come before the worker of the first one takes a step; then it runs that one. -/
def taskBehindTask : List PoolEvent := twoTasks ++ List.replicate 6 (.worker 0)

def taskBehindTaskEnd : PoolState :=
  (run step (initial 2 ⟨true, false⟩ 1) taskBehindTask).getD (initial 2 ⟨true, false⟩ 1)

end PoolState

end Libmodule
