import Libmodule.PoolTasks
import Mathlib.Data.List.Nodup

/-!
# Every task is executed

A pool that tasks are added to, and that is freed when all adds have returned.
With `wait_all` every task is executed once; without it no task is executed twice
and those that were taken are finished.
-/

namespace Libmodule

open Interleaving

def FreeCall.target (free : FreeCall) : Shutdown := if free.waitAll then .waitAll else .waitCurr

/-- The caller has seen that there is a worker, or has made one. -/
def CallerPc.manned : CallerPc → Bool
  | .insert _ | .newTask | .enqueue _ => true
  | _ => false

/-- The caller is in `m_thpool_add`. -/
def CallerPc.inAdd : CallerPc → Bool
  | .assertRunning call | .assertStarted call | .lock call => call = .add
  | .readLength | .clearTasks => false
  | _ => true

namespace PoolState

/-- Tasks are added and the pool is freed when no call is in progress; the pthread functions
succeed. -/
def AddsThenFree (s : PoolState) : PoolEvent → Prop
  | .call _ call => call = .add
  | .free _ => s.Idle
  | .owner answer | .caller _ answer => answer.ok = true
  | _ => True

/-- The pool has memory for what it keeps of its tasks and threads: the queue for its
elements, the list of threads for its nodes, and its iterator. -/
def KeepsRecords (s : PoolState) : PoolEvent → Prop
  | .owner answer =>
      match s.owner with
      | .insert _ _ | .newItr _ => answer.mem = true
      | _ => True
  | .caller a answer =>
      match s.callers[a]? with
      | some (.insert _) | some (.enqueue _) => answer.mem = true
      | _ => True
  | _ => True

instance (s : PoolState) (e : PoolEvent) : Decidable (s.AddsThenFree e) := by
  refine e.casesOn ?_ ?_ ?_ ?_ ?_ ?_ <;> intros <;> unfold AddsThenFree Idle <;> infer_instance

instance (s : PoolState) (e : PoolEvent) : Decidable (s.KeepsRecords e) := by
  unfold KeepsRecords
  refine e.casesOn ?_ ?_ ?_ ?_ ?_ ?_ <;> intros <;> try infer_instance
  case refine_1 =>
    refine s.owner.casesOn ?_ ?_ ?_ ?_ ?_ ?_ ?_ ?_ ?_ ?_ ?_ ?_ ?_ ?_ ?_ ?_ ?_ ?_ ?_ ?_
      <;> intros <;> infer_instance
  case refine_4 a answer =>
    dsimp only
    refine Option.casesOn s.callers[a]? ?_ fun pc => ?_
    · infer_instance
    · refine pc.casesOn ?_ ?_ ?_ ?_ ?_ ?_ ?_ ?_ ?_ ?_ ?_ ?_ ?_ <;> intros <;> infer_instance

/-! ## The course of the owner -/

/-- The pool is open to its callers, and no task was given up. -/
structure Open (s : PoolState) : Prop where
  shutdown : s.pool.shutdown = .no
  cleared : s.cleared = []
  positive : 0 < s.pool.maxThreads

/-- `m_thpool_free` has set `shutdown`. -/
structure Ending (s : PoolState) (free : FreeCall) : Prop where
  shutdown : s.pool.shutdown = free.target
  cleared : s.cleared = []

/-- The workers have left, and under `wait_all` they have left no task. -/
def Ended (s : PoolState) (free : FreeCall) : Prop :=
  free = .user true → s.cleared ++ s.pool.tasks = []

/-- What holds when the owner is at `pc`. -/
def Course (s : PoolState) : OwnerPc → Prop
  | .newPool => s.pool.shutdown = .no ∧ s.cleared = []
  | .newThreads | .newTasks | .initMut | .initCond => s.Open
  | .create i => s.Open ∧ i ≤ s.workers.length
  | .insert i _ => s.Open ∧ i < s.workers.length
  | .started | .ready => s.Open ∧ (s.pool.flags.lazy = true ∨ 0 < s.workers.length)
  | .stage free i =>
      i < initedStarted ∧ s.Ended free ∨ i = initedStarted ∧ s.pool.shutdown = .no ∧ s.cleared = []
  | .lock _ | .setShutdown _ => s.pool.shutdown = .no ∧ s.cleared = []
  | .broadcast free | .unlock free | .newItr free | .join free _ => s.Ending free
  | .clearStarted free | .freePool free | .returned free => s.Ended free
  | .failed => True

structure Working (s : PoolState) : Prop where
  retiring : s.Retiring
  accounts : s.Accounts
  joinable : s.pool.flags.detached = false
  course : s.Course s.owner
  idle : s.owner ≠ .ready → s.Idle
  inAdd : ∀ pc ∈ s.callers, pc.inAdd
  gone : ∀ pc ∈ s.workers, pc = .leave ∨ pc = .exited →
    s.pool.shutdown ≠ .no ∧ (s.pool.shutdown = .waitAll → s.pool.tasks = [])
  lost : s.lost = []
  threads : s.pool.threads ≠ [] → 0 < s.workers.length
  tasks : s.pool.tasks ≠ [] → 0 < s.workers.length
  manned : ∀ pc ∈ s.callers, pc.manned → 0 < s.workers.length

variable {s s' : PoolState} {w a : ℕ} {answer : Answer} {e : PoolEvent}

/-- Only while the pool is open can a call be in progress. -/
theorem Working.ready (h : s.Working) {pc : CallerPc} (hpc : s.callers[a]? = some pc)
    (hbusy : pc ≠ .idle) : s.owner = .ready := by
  by_contra hready
  exact hbusy (h.idle hready pc (List.mem_of_getElem? hpc))

theorem Working.open (h : s.Working) (hready : s.owner = .ready) : s.Open := by
  have hcourse := h.course
  rw [hready] at hcourse
  exact hcourse.1

theorem callerStep_busy {pc : CallerPc} (hstep : s.callerStep a answer pc = some s') :
    pc ≠ .idle := by
  rintro rfl
  cases hstep

theorem Working.keepsWorkers (h : s.Working) (husage : s.AddsThenFree e)
    (hrecords : s.KeepsRecords e) (hstep : s.step e = some s') : s.KeepsWorkers e := by
  cases step_taken hstep with
  | owner hstep =>
      unfold KeepsWorkers
      unfold KeepsRecords at hrecords
      cases hpc : s.owner with
      | create i => exact fun _ => .inl husage
      | insert i th =>
          rw [hpc] at hrecords
          exact hrecords
      | unlock free =>
          intro hdetached
          rw [h.joinable] at hdetached
          cases hdetached
      | newItr free =>
          rw [hpc] at hrecords
          exact .inl hrecords
      | _ => trivial
  | @caller a answer pc s' hpc hstep =>
      have hopen := h.open (h.ready hpc (callerStep_busy hstep))
      unfold KeepsWorkers
      unfold KeepsRecords at hrecords
      simp only [hpc] at hrecords ⊢
      cases pc with
      | create => exact hopen.shutdown
      | insert th => exact hrecords
      | _ => trivial
  | free | call | worker | wake => trivial

/-! ## Steps of a worker -/

theorem Course.worker {pc : OwnerPc} (h : s.Course pc)
    (hshutdown : s'.pool.shutdown = s.pool.shutdown) (hcleared : s'.cleared = s.cleared)
    (hmax : s'.pool.maxThreads = s.pool.maxThreads) (hflags : s'.pool.flags = s.pool.flags)
    (hworkers : s'.workers.length = s.workers.length)
    (htasks : s.pool.tasks = [] → s'.pool.tasks = []) : s'.Course pc := by
  have hended : ∀ free, s.Ended free → s'.Ended free := by
    intro free hs huser
    obtain ⟨hnone, hempty⟩ := List.append_eq_nil_iff.mp (hs huser)
    rw [hcleared, hnone, htasks hempty]
    rfl
  have hopen : s.Open → s'.Open := fun hs =>
    ⟨hshutdown.trans hs.shutdown, hcleared.trans hs.cleared, hmax ▸ hs.positive⟩
  cases pc with
  | newPool | lock free | setShutdown free => exact ⟨hshutdown.trans h.1, hcleared.trans h.2⟩
  | newThreads | newTasks | initMut | initCond => exact hopen h
  | create i | insert i th => exact ⟨hopen h.1, hworkers ▸ h.2⟩
  | started | ready => exact ⟨hopen h.1, hflags ▸ hworkers ▸ h.2⟩
  | stage free i =>
      rcases h with ⟨hi, hs⟩ | ⟨hi, hno, hnone⟩
      · exact .inl ⟨hi, hended free hs⟩
      · exact .inr ⟨hi, hshutdown.trans hno, hcleared.trans hnone⟩
  | broadcast free | unlock free | newItr free | join free rest =>
      exact ⟨hshutdown.trans h.shutdown, hcleared.trans h.cleared⟩
  | clearStarted free | freePool free | returned free => exact hended free h
  | failed => trivial

theorem Working.worker {pc : WorkerPc} (h : s.Working) (hretiring : s'.Retiring)
    (haccounts : s'.Accounts) (hpc : s.workers[w]? = some pc)
    (hstep : s.workerStep w pc = some s') : s'.Working := by
  obtain ⟨pc', hframe, -⟩ := workerStep_frame hpc hstep
  obtain ⟨pc'', hpc'', hledger⟩ := workerStep_ledger hpc hstep
  have hsame : pc'' = pc' := by
    rw [hframe.workers, getElem?_set_of_some hpc] at hpc''
    exact (Option.some.inj hpc'').symm
  subst hsame
  have hlength : s'.workers.length = s.workers.length := by rw [hframe.workers, List.length_set]
  constructor
  case retiring => exact hretiring
  case accounts => exact haccounts
  case joinable => exact hframe.flags ▸ h.joinable
  case course =>
    rw [hframe.owner]
    exact h.course.worker hframe.shutdown hframe.cleared hframe.maxThreads hframe.flags hlength
      hledger.emptied
  case idle =>
    unfold Idle
    rw [hframe.owner, hframe.callers]
    exact h.idle
  case inAdd => exact hframe.callers ▸ h.inAdd
  case gone =>
    intro pc hmem hgone
    rw [hframe.workers] at hmem
    rw [hframe.shutdown]
    rcases List.mem_or_eq_of_mem_set hmem with hold | rfl
    · obtain ⟨hshut, hempty⟩ := h.gone pc hold hgone
      exact ⟨hshut, fun hall => hledger.emptied (hempty hall)⟩
    · rcases hledger.left hgone with rfl | ⟨hshut, hcurr | hempty⟩
      · obtain ⟨hshut, hempty⟩ := h.gone _ (List.mem_of_getElem? hpc) (.inl rfl)
        exact ⟨hshut, fun hall => hledger.emptied (hempty hall)⟩
      · refine ⟨hshut, fun hall => ?_⟩
        rw [hcurr] at hall
        cases hall
      · exact ⟨hshut, fun _ => hempty⟩
  case lost => exact hframe.lost ▸ h.lost
  case threads =>
    rw [hframe.threads, hlength]
    exact h.threads
  case tasks =>
    rw [hlength]
    exact fun hne => h.tasks fun hempty => hne (hledger.emptied hempty)
  case manned =>
    rw [hframe.callers, hlength]
    exact h.manned

/-! ## Steps of a caller -/

/-- How a caller of `m_thpool_add` that goes from `pc` to `pc'` knows that there is a worker. -/
structure Crew (s s' : PoolState) (pc pc' : CallerPc) : Prop where
  inAdd : pc.inAdd → pc'.inAdd
  manned : pc'.manned → pc.manned ∨ 0 < s'.workers.length ∨ s.pool.threads ≠ [] ∨
    s.pool.maxThreads ≤ s.pool.threads.length ∨ s.pool.flags.lazy = false
  threads : s'.pool.threads ≠ [] → pc.manned ∨ s.pool.threads ≠ []
  tasks : s'.pool.tasks ≠ [] → pc.manned ∨ s.pool.tasks ≠ []

theorem threads_of_hasSpace {pool : Thpool} (h : pool.hasSpace) : pool.threads ≠ [] := by
  intro hempty
  simp [Thpool.hasSpace, hempty] at h

theorem callerStep_crew {pc : CallerPc} (hpc : s.callers[a]? = some pc)
    (hstep : s.callerStep a answer pc = some s') :
    ∃ pc', s'.callers[a]? = some pc' ∧ Crew s s' pc pc' := by
  cases pc with
  | idle => cases hstep
  | assertRunning call =>
      simp only [callerStep] at hstep
      split at hstep
      next =>
        cases hstep
        exact ⟨.assertStarted call, getElem?_set_of_some hpc, id, by simp [CallerPc.manned], .inr, .inr⟩
      next =>
        cases hstep
        exact ⟨.idle, getElem?_set_of_some hpc, fun _ => rfl, by simp [CallerPc.manned], .inr, .inr⟩
  | assertStarted call =>
      simp only [callerStep] at hstep
      split at hstep
      next =>
        cases hstep
        exact ⟨.lock call, getElem?_set_of_some hpc, id, by simp [CallerPc.manned], .inr, .inr⟩
      next =>
        cases hstep
        exact ⟨.idle, getElem?_set_of_some hpc, fun _ => rfl, by simp [CallerPc.manned], .inr, .inr⟩
  | lock call =>
      simp only [callerStep, Option.bind_eq_bind, Option.bind_eq_some_iff, acquire_eq_some] at hstep
      obtain ⟨_, ⟨hfree, rfl⟩, hs'⟩ := hstep
      cases hs'
      refine ⟨_, getElem?_set_of_some hpc, ?_, ?_, .inr, .inr⟩
      · intro hadd
        rw [CallerPc.inAdd, decide_eq_true_eq] at hadd
        subst hadd
        cases s.pool.flags.lazy <;> rfl
      · intro hmanned
        cases hlazy : s.pool.flags.lazy with
        | false => exact .inr (.inr (.inr (.inr rfl)))
        | true =>
            rw [hlazy] at hmanned
            cases call <;> cases hmanned
  | grow =>
      simp only [callerStep] at hstep
      split at hstep
      next =>
        cases hstep
        exact ⟨.create, getElem?_set_of_some hpc, id, by simp [CallerPc.manned], .inr, .inr⟩
      next hfull =>
        cases hstep
        refine ⟨.newTask, getElem?_set_of_some hpc, id, ?_, .inr, .inr⟩
        intro _
        by_cases hspace : s.pool.hasSpace
        · exact .inr (.inr (.inl (threads_of_hasSpace hspace)))
        · exact .inr (.inr (.inr (.inl (Nat.not_lt.mp fun hlt => hfull ⟨hspace, hlt⟩))))
  | create =>
      simp only [callerStep] at hstep
      split at hstep
      next =>
        cases hstep
        exact ⟨.create, hpc, id, by simp [CallerPc.manned], .inr, .inr⟩
      split at hstep
      next =>
        cases hstep
        refine ⟨.insert s.workers.length, getElem?_set_of_some hpc, id, ?_, .inr, .inr⟩
        intro _
        refine .inr (.inl ?_)
        simp only [spawn, moveCaller, List.length_append, List.length_singleton]
        exact Nat.succ_pos _
      next =>
        cases hstep
        exact ⟨.idle, getElem?_set_of_some hpc, id, by simp [CallerPc.manned], .inr, .inr⟩
  | insert th =>
      cases hstep
      refine ⟨.newTask, ?_, id, fun _ => .inl rfl, fun _ => .inl rfl, fun _ => .inl rfl⟩
      unfold listInsert
      split
      next => exact getElem?_set_of_some hpc
      next => exact getElem?_set_of_some hpc
  | newTask =>
      simp only [callerStep] at hstep
      split at hstep
      next =>
        cases hstep
        exact ⟨.enqueue s.created, getElem?_set_of_some hpc, id, .inl, .inr, .inr⟩
      next =>
        cases hstep
        exact ⟨.newTask, hpc, id, .inl, .inr, .inr⟩
  | enqueue task =>
      simp only [callerStep] at hstep
      split at hstep
      next =>
        cases hstep
        exact ⟨.signal task, getElem?_set_of_some hpc, id, by simp [CallerPc.manned], .inr, fun _ => .inl rfl⟩
      next =>
        cases hstep
        exact ⟨.signal task, getElem?_set_of_some hpc, id, by simp [CallerPc.manned], .inr, .inr⟩
  | signal task =>
      simp only [callerStep, Option.bind_eq_bind, Option.bind_eq_some_iff] at hstep
      obtain ⟨_, hsignal, hs'⟩ := hstep
      obtain ⟨workers, -, rfl⟩ := signal_woken hsignal
      cases hs'
      exact ⟨.unlock (some task), getElem?_set_of_some hpc, id, by simp [CallerPc.manned], .inr, .inr⟩
  | readLength =>
      cases hstep
      exact ⟨.unlock none, getElem?_set_of_some hpc, fun _ => rfl, by simp [CallerPc.manned], .inr, .inr⟩
  | clearTasks =>
      cases hstep
      exact ⟨.unlock none, getElem?_set_of_some hpc, fun _ => rfl, by simp [CallerPc.manned], .inr,
        fun hne => absurd rfl hne⟩
  | unlock task =>
      cases hstep
      exact ⟨.idle, getElem?_set_of_some hpc, id, by simp [CallerPc.manned], .inr, .inr⟩

theorem spawn_left {l : List WorkerPc} {pc : WorkerPc} (hpc : pc ∈ l ++ [.lock])
    (hleft : pc = .leave ∨ pc = .exited) : pc ∈ l := by
  rcases List.mem_append.mp hpc with hold | hnew
  · exact hold
  · obtain rfl := List.mem_singleton.mp hnew
    rcases hleft with hleft | hleft <;> cases hleft

theorem Woken.left {l l' : List WorkerPc} {pc : WorkerPc} (h : Woken l l') (hpc : pc ∈ l')
    (hleft : pc = .leave ∨ pc = .exited) : pc ∈ l := by
  obtain ⟨i, hi⟩ := List.getElem?_of_mem hpc
  rcases h i with hsame | ⟨-, hrelock⟩
  · rw [hsame] at hi
    exact List.mem_of_getElem? hi
  · rw [hrelock] at hi
    cases hi
    rcases hleft with hleft | hleft <;> cases hleft

theorem Working.caller {pc : CallerPc} (h : s.Working) (hretiring : s'.Retiring)
    (haccounts : s'.Accounts) (hrecords : s.KeepsRecords (.caller a answer))
    (hpc : s.callers[a]? = some pc) (hstep : s.callerStep a answer pc = some s') :
    s'.Working := by
  obtain ⟨pc', hframe, -⟩ := callerStep_frame hpc hstep
  have hpc' : s'.callers[a]? = some pc' := by rw [hframe.callers, getElem?_set_of_some hpc]
  obtain ⟨pc'', hpc'', hledger⟩ := callerStep_ledger hpc hstep
  obtain rfl : pc'' = pc' := Option.some.inj (hpc''.symm.trans hpc')
  obtain ⟨pc'', hpc'', hcrew⟩ := callerStep_crew hpc hstep
  obtain rfl := Option.some.inj (hpc''.symm.trans hpc')
  have hmem := List.mem_of_getElem? hpc
  have hready := h.ready hpc (callerStep_busy hstep)
  have hopen := h.open hready
  have hcourse := h.course
  rw [hready] at hcourse
  have hgrow : s.workers.length ≤ s'.workers.length := by
    rcases hframe.workers with ⟨-, hspawn⟩ | hwoken
    · rw [hspawn, List.length_append]
      exact Nat.le_add_right _ _
    · exact Nat.le_of_eq (woken_length hwoken).symm
  have hcleared : s'.cleared = s.cleared := by
    apply hledger.cleared
    rintro rfl
    cases h.inAdd _ hmem
  have hgone : ∀ pc ∈ s.workers, ¬ (pc = .leave ∨ pc = .exited) :=
    fun pc hmem hgone => (h.gone pc hmem hgone).1 hopen.shutdown
  constructor
  case retiring => exact hretiring
  case accounts => exact haccounts
  case joinable => exact hframe.flags ▸ h.joinable
  case course =>
    rw [hframe.owner, hready]
    refine ⟨⟨hframe.shutdown.trans hopen.shutdown, hcleared.trans hopen.cleared, ?_⟩, ?_⟩
    · exact hframe.maxThreads ▸ hopen.positive
    · rw [hframe.flags]
      exact hcourse.2.imp_right fun hpos => Nat.lt_of_lt_of_le hpos hgrow
  case idle =>
    rw [hframe.owner, hready]
    exact fun hne => absurd rfl hne
  case inAdd =>
    rw [hframe.callers]
    intro pc hpc
    rcases List.mem_or_eq_of_mem_set hpc with hold | rfl
    · exact h.inAdd pc hold
    · exact hcrew.inAdd (h.inAdd _ hmem)
  case gone =>
    intro pc hpc hleft
    rcases hframe.workers with ⟨-, hspawn⟩ | hwoken
    · rw [hspawn] at hpc
      exact absurd hleft (hgone pc (spawn_left hpc hleft))
    · exact absurd hleft (hgone pc (hwoken.left hpc hleft))
  case lost =>
    rw [hledger.lost, h.lost]
    cases pc with
    | enqueue task =>
        simp only [KeepsRecords, hpc] at hrecords
        exact .inr hrecords
    | _ => exact .inl rfl
  case threads =>
    intro hne
    rcases hcrew.threads hne with hmanned | hthreads
    · exact Nat.lt_of_lt_of_le (h.manned pc hmem hmanned) hgrow
    · exact Nat.lt_of_lt_of_le (h.threads hthreads) hgrow
  case tasks =>
    intro hne
    rcases hcrew.tasks hne with hmanned | htasks
    · exact Nat.lt_of_lt_of_le (h.manned pc hmem hmanned) hgrow
    · exact Nat.lt_of_lt_of_le (h.tasks htasks) hgrow
  case manned =>
    rw [hframe.callers]
    intro pc'' hpc'' hmanned
    rcases List.mem_or_eq_of_mem_set hpc'' with hold | rfl
    · exact Nat.lt_of_lt_of_le (h.manned pc'' hold hmanned) hgrow
    · rcases hcrew.manned hmanned with hmanned | hpos | hthreads | hfull | hlazy
      · exact Nat.lt_of_lt_of_le (h.manned pc hmem hmanned) hgrow
      · exact hpos
      · exact Nat.lt_of_lt_of_le (h.threads hthreads) hgrow
      · have hthreads := List.length_pos_iff.mp (Nat.lt_of_lt_of_le hopen.positive hfull)
        exact Nat.lt_of_lt_of_le (h.threads hthreads) hgrow
      · have hpos := hcourse.2
        rw [hlazy] at hpos
        exact Nat.lt_of_lt_of_le (hpos.resolve_left (by simp)) hgrow

/-! ## Steps of the owner -/

theorem inited_course (h : s.Open) (ok : Bool) (bit : ℕ) {pc : OwnerPc} {initState : ℕ}
    (hinit : s.pool.initState = initState) (hsmall : (initState + 1) >>> 1 < initedStarted)
    (hnext : ∀ t : PoolState, t.Open → t.workers = s.workers → t.pool.flags = s.pool.flags →
      t.Course pc) :
    (s.inited ok bit pc).Course (s.inited ok bit pc).owner := by
  unfold inited
  split
  next => exact hnext _ ⟨h.shutdown, h.cleared, h.positive⟩ rfl rfl
  next => exact .inl ⟨by rw [hinit]; exact hsmall, nofun⟩

theorem freeStage_course {free : FreeCall} (h : s.Ended free) {i : ℕ} (hi : i < initedStarted)
    (ok : Bool) : (s.freeStage free i ok).Course (s.freeStage free i ok).owner := by
  have hhalf : i >>> 1 < initedStarted := by
    rw [Nat.shiftRight_eq_div_pow]
    exact Nat.lt_of_le_of_lt (Nat.div_le_self _ _) hi
  unfold freeStage
  split
  next => exact h
  split
  next hstarted => exact absurd hstarted (Nat.ne_of_lt hi)
  split
  next =>
    split
    next => exact .inl ⟨hhalf, h⟩
    next => exact h
  split
  next =>
    refine .inl ⟨hhalf, fun huser => ?_⟩
    simp only [PoolState.clearTasks, List.append_nil]
    exact h huser
  split
  next => exact .inl ⟨hhalf, h⟩
  next => exact .inl ⟨hhalf, h⟩

/-- When the workers have left under `wait_all`, the queue is empty. -/
theorem Working.ended (h : s.Working) {free : FreeCall} (hending : s.Ending free)
    (hleft : ∀ w < s.workers.length, s.workers[w]? = some .exited) : s.Ended free := by
  rintro rfl
  rw [hending.cleared, List.nil_append]
  by_contra htasks
  have hpos := h.tasks htasks
  have hexited := List.mem_of_getElem? (hleft 0 hpos)
  exact htasks ((h.gone _ hexited (.inr rfl)).2 hending.shutdown)

theorem ownerStep_course (h : s.Working) (husage : answer.ok = true)
    (hrecords : s.KeepsRecords (.owner answer))
    (hstep : s.ownerStep answer s.owner = some s') : s'.Course s'.owner := by
  have hcourse := h.course
  have hphase := h.retiring.phase
  unfold KeepsRecords at hrecords
  cases hpc : s.owner with
  | newPool =>
      rw [hpc] at hcourse
      simp only [hpc, ownerStep] at hstep
      split at hstep
      next hpos =>
        cases hstep
        exact ⟨hcourse.1, hcourse.2, hpos.1⟩
      next =>
        cases hstep
        trivial
  | newThreads | newTasks | initMut =>
      rw [hpc] at hstep hcourse hphase
      cases hstep
      exact inited_course hcourse _ _ hphase.initState (by decide) fun _ ht _ _ => ht
  | initCond =>
      rw [hpc] at hstep hcourse hphase
      cases hstep
      refine inited_course hcourse _ _ hphase.initState (by decide) fun t ht hworkers hflags => ?_
      split
      next hlazy => exact ⟨ht, .inl (hflags ▸ hlazy)⟩
      next => exact ⟨ht, Nat.zero_le _⟩
  | create i =>
      rw [hpc] at hcourse
      obtain ⟨hopen, hi⟩ := hcourse
      simp only [hpc, ownerStep] at hstep
      split at hstep
      next =>
        split at hstep
        next =>
          cases hstep
          simp only [crash, hpc]
          exact ⟨⟨hopen.shutdown, hopen.cleared, hopen.positive⟩, hi⟩
        cases hstep
        refine ⟨⟨hopen.shutdown, hopen.cleared, hopen.positive⟩, ?_⟩
        simp only [spawn, moveOwner, List.length_append, List.length_singleton]
        exact Nat.lt_succ_of_le hi
      next hmax =>
        cases hstep
        refine ⟨⟨hopen.shutdown, hopen.cleared, hopen.positive⟩, .inr ?_⟩
        exact Nat.lt_of_lt_of_le hopen.positive (Nat.le_trans (Nat.not_lt.mp hmax) hi)
  | insert i th =>
      rw [hpc] at hcourse hstep
      obtain ⟨hopen, hi⟩ := hcourse
      cases hstep
      unfold listInsert
      split
      next => exact ⟨⟨hopen.shutdown, hopen.cleared, hopen.positive⟩, hi⟩
      next => exact ⟨⟨hopen.shutdown, hopen.cleared, hopen.positive⟩, hi⟩
  | started =>
      rw [hpc] at hcourse hstep
      cases hstep
      obtain ⟨hopen, hmanned⟩ := hcourse
      exact ⟨⟨hopen.shutdown, hopen.cleared, hopen.positive⟩, hmanned⟩
  | ready | returned free | failed =>
      rw [hpc] at hstep
      cases hstep
  | stage free i =>
      rw [hpc] at hcourse hstep
      cases hstep
      rcases hcourse with ⟨hi, hended⟩ | ⟨rfl, hno, hcleared⟩
      · exact freeStage_course hended hi _
      · exact ⟨hno, hcleared⟩
  | lock free =>
      rw [hpc] at hcourse
      simp only [hpc, ownerStep, Option.bind_eq_bind, Option.bind_eq_some_iff, acquire_eq_some]
        at hstep
      obtain ⟨_, ⟨hfree, rfl⟩, hs'⟩ := hstep
      cases hs'
      exact hcourse
  | setShutdown free =>
      rw [hpc] at hcourse hstep
      cases hstep
      exact ⟨rfl, hcourse.2⟩
  | broadcast free =>
      rw [hpc] at hcourse hstep
      cases hstep
      exact ⟨hcourse.shutdown, hcourse.cleared⟩
  | unlock free =>
      rw [hpc] at hcourse hstep
      cases hstep
      simp only [h.joinable]
      exact ⟨hcourse.shutdown, hcourse.cleared⟩
  | newItr free =>
      rw [hpc] at hcourse hphase hrecords
      simp only [hpc, ownerStep] at hstep
      split at hstep
      next =>
        cases hstep
        exact ⟨hcourse.shutdown, hcourse.cleared⟩
      next hnone =>
        cases hstep
        refine h.ended hcourse fun w hw => ?_
        rcases hphase.listed w hw with hthread | hcaller | howner
        · have hthreads : s.pool.threads = [] := by
            by_contra hne
            exact hnone ⟨hne, hrecords⟩
          rw [hthreads] at hthread
          cases hthread
        · exact absurd hcaller (hphase.inserted w)
        · cases howner
  | join free rest =>
      rw [hpc] at hcourse hphase hstep
      cases rest with
      | nil =>
          cases hstep
          refine h.ended hcourse fun w hw => ?_
          exact (hphase.1.left w hw).resolve_left List.not_mem_nil
      | cons th rest =>
          simp only [ownerStep] at hstep
          split at hstep
          next =>
            cases hstep
            exact ⟨hcourse.shutdown, hcourse.cleared⟩
          next => cases hstep
  | clearStarted free =>
      rw [hpc] at hcourse hstep
      cases hstep
      exact .inl ⟨by decide, hcourse⟩
  | freePool free =>
      rw [hpc] at hcourse hstep
      cases hstep
      exact hcourse

theorem Working.owner (h : s.Working) (hretiring : s'.Retiring) (haccounts : s'.Accounts)
    (husage : answer.ok = true) (hrecords : s.KeepsRecords (.owner answer))
    (hstep : s.ownerStep answer s.owner = some s') : s'.Working := by
  have hframe := ownerStep_frame hstep
  have hgrow : s.workers.length ≤ s'.workers.length := by
    rcases hframe.workers with ⟨i, -, hspawn⟩ | hwoken
    · rw [hspawn, List.length_append]
      exact Nat.le_add_right _ _
    · exact Nat.le_of_eq (woken_length hwoken).symm
  have hidle : s.Idle := by
    apply h.idle
    intro hready
    rw [hready] at hstep
    cases hstep
  constructor
  case retiring => exact hretiring
  case accounts => exact haccounts
  case joinable => exact hframe.flags ▸ h.joinable
  case course => exact ownerStep_course h husage hrecords hstep
  case idle =>
    unfold Idle
    rw [hframe.callers]
    exact fun _ => hidle
  case inAdd => exact hframe.callers ▸ h.inAdd
  case gone =>
    intro pc hpc hleft
    have hold : pc ∈ s.workers := by
      rcases hframe.workers with ⟨i, -, hspawn⟩ | hwoken
      · rw [hspawn] at hpc
        exact spawn_left hpc hleft
      · exact hwoken.left hpc hleft
    obtain ⟨hshut, hempty⟩ := h.gone pc hold hleft
    rcases hframe.shutdown with ⟨free, hset⟩ | hsame
    · have hcourse := h.course
      rw [hset] at hcourse
      exact absurd hcourse.1 hshut
    · rw [hsame]
      exact ⟨hshut, fun hall => hframe.emptied (hempty hall)⟩
  case lost => exact hframe.lost ▸ h.lost
  case threads =>
    intro hne
    rcases hframe.threads with ⟨i, th, hinsert⟩ | hnone
    · have hcourse := h.course
      rw [hinsert] at hcourse
      exact Nat.lt_of_lt_of_le (Nat.zero_lt_of_lt hcourse.2) hgrow
    · exact Nat.lt_of_lt_of_le (h.threads fun hempty => hne (hnone hempty)) hgrow
  case tasks =>
    exact fun hne => Nat.lt_of_lt_of_le (h.tasks fun hempty => hne (hframe.emptied hempty)) hgrow
  case manned =>
    rw [hframe.callers]
    intro pc hpc hmanned
    rw [hidle pc hpc] at hmanned
    cases hmanned

/-! ## Runs -/

theorem working_step (h : s.Working) (husage : s.AddsThenFree e) (hrecords : s.KeepsRecords e)
    (hstep : s.step e = some s') : s'.Working := by
  have hretiring := retiring_step h.retiring (h.keepsWorkers husage hrecords hstep) hstep
  have haccounts := accounts_step h.accounts hstep
  cases step_taken hstep with
  | owner hstep => exact h.owner hretiring haccounts husage hrecords hstep
  | @free waitAll hready =>
      have hopen := h.open hready
      have hphase := h.retiring.phase
      rw [hready] at hphase
      constructor
      case retiring => exact hretiring
      case accounts => exact haccounts
      case joinable => exact h.joinable
      case course =>
        refine .inr ⟨?_, hopen.shutdown, hopen.cleared⟩
        rw [hphase.1]
        rfl
      case idle => exact fun _ => husage
      case inAdd => exact h.inAdd
      case gone => exact h.gone
      case lost => exact h.lost
      case threads => exact h.threads
      case tasks => exact h.tasks
      case manned => exact h.manned
  | @call a call hready hidle =>
      constructor
      case retiring => exact hretiring
      case accounts => exact haccounts
      case joinable => exact h.joinable
      case course =>
        have hcourse := h.course
        simp only [moveCaller, hready] at hcourse ⊢
        exact ⟨⟨hcourse.1.shutdown, hcourse.1.cleared, hcourse.1.positive⟩, hcourse.2⟩
      case idle => exact fun hne => absurd hready hne
      case inAdd =>
        intro pc hpc
        rcases List.mem_or_eq_of_mem_set hpc with hold | rfl
        · exact h.inAdd pc hold
        · exact decide_eq_true husage
      case gone => exact h.gone
      case lost => exact h.lost
      case threads => exact h.threads
      case tasks => exact h.tasks
      case manned =>
        intro pc hpc hmanned
        rcases List.mem_or_eq_of_mem_set hpc with hold | rfl
        · exact h.manned pc hold hmanned
        · cases hmanned
  | caller hpc hstep => exact h.caller hretiring haccounts hrecords hpc hstep
  | worker hpc hstep => exact h.worker hretiring haccounts hpc hstep
  | @wake w hpc =>
      have hlength : (s.moveWorker w .relock).workers.length = s.workers.length :=
        List.length_set
      constructor
      case retiring => exact hretiring
      case accounts => exact haccounts
      case joinable => exact h.joinable
      case course => exact h.course.worker rfl rfl rfl rfl hlength id
      case idle => exact h.idle
      case inAdd => exact h.inAdd
      case gone => exact fun pc hmem hleft => h.gone pc ((woken_set hpc).left hmem hleft) hleft
      case lost => exact h.lost
      case threads => exact hlength ▸ h.threads
      case tasks => exact hlength ▸ h.tasks
      case manned => exact hlength ▸ h.manned

theorem working_initial {threadCount : ℕ} {flags : ThpoolFlags} {callers : ℕ}
    (hjoinable : flags.detached = false) : (initial threadCount flags callers).Working where
  retiring := retiring_initial threadCount flags callers
  accounts := accounts_initial threadCount flags callers
  joinable := hjoinable
  course := ⟨rfl, rfl⟩
  idle := fun _ pc hpc => List.eq_of_mem_replicate hpc
  inAdd := by
    intro pc hpc
    rw [List.eq_of_mem_replicate hpc]
    rfl
  gone := nofun
  lost := rfl
  threads := fun hne => absurd rfl hne
  tasks := fun hne => absurd rfl hne
  manned := by
    intro pc hpc hmanned
    rw [List.eq_of_mem_replicate hpc] at hmanned
    cases hmanned

/-- What `m_thpool_free` promises: with `wait_all` every task is executed once, without it the
tasks that were taken are finished and none is executed twice. -/
structure FreeContract (s : PoolState) : Prop where
  distinct : s.added.Nodup
  all : s.owner = .returned (.user true) → ∀ t ∈ s.added, s.executed.count t = 1
  once : ∀ t, s.executed.count t ≤ 1
  current : s.owner = .returned (.user false) → ∀ t ∈ s.dequeued, t ∈ s.executed

theorem issued_le (created t : ℕ) : issued created t ≤ 1 := by
  unfold issued
  split
  next => exact Nat.le_refl 1
  next => exact Nat.zero_le 1

theorem Working.freeContract (h : s.Working) : s.FreeContract := by
  have hcourse := h.course
  have hphase := h.retiring.phase
  have hheld : ∀ free, s.owner = .returned free → ∀ t, s.held t = 0 := by
    intro free hfree t
    rw [hfree] at hphase
    have hleaving : s.Leaving [] := hphase
    refine List.countP_eq_zero.mpr fun pc hpc => ?_
    obtain ⟨w, hw⟩ := List.getElem?_of_mem hpc
    have hlt := (List.getElem?_eq_some_iff.mp hw).1
    rw [(hleaving.left w hlt).resolve_left List.not_mem_nil] at hw
    cases hw
    nofun
  constructor
  case distinct =>
    refine List.nodup_iff_count_le_one.mpr fun t => ?_
    have hreturned := h.accounts.returned t
    have hissued := issued_le s.created t
    omega
  case all =>
    intro howner t ht
    have hidle := h.idle (by rw [howner]; nofun)
    have hcarried : s.carried t = 0 := by
      refine List.countP_eq_zero.mpr fun pc hpc => ?_
      rw [hidle pc hpc]
      nofun
    have hadded := List.count_pos_iff.mpr ht
    have hreturned := h.accounts.returned t
    have hissued := issued_le s.created t
    have hplaced := h.accounts.placed t
    rw [howner] at hcourse
    rw [hcourse rfl, hheld _ howner t, hcarried, h.lost, List.count_nil] at hplaced
    omega
  case once =>
    intro t
    have hplaced := h.accounts.placed t
    have hissued := issued_le s.created t
    omega
  case current =>
    intro howner t ht
    have htaken := h.accounts.taken t
    rw [hheld _ howner t] at htaken
    have hdequeued := List.count_pos_iff.mpr ht
    exact List.count_pos_iff.mp (by omega)

theorem freeContract_of_keepsRecords (threadCount : ℕ) (flags : ThpoolFlags) (callers : ℕ)
    (events : List PoolEvent) {s : PoolState} (hjoinable : flags.detached = false)
    (husage : Meets step AddsThenFree (initial threadCount flags callers) events)
    (hrecords : Meets step KeepsRecords (initial threadCount flags callers) events)
    (hrun : run step (initial threadCount flags callers) events = some s) : s.FreeContract := by
  have hworking : s.Working :=
    invariant_of_run (fun _ _ _ h hC => working_step h hC.1 hC.2) events
      (working_initial hjoinable) (husage.and hrecords) hrun
  exact hworking.freeContract

theorem freeContract_oneTask :
    oneTaskEnd.owner = .returned (.user true) ∧ oneTaskEnd.added = [0] ∧
      oneTaskEnd.FreeContract :=
  ⟨by decide, by decide, freeContract_of_keepsRecords 1 ⟨false, false⟩ 1 oneTask rfl (by decide)
    (by decide) (by decide)⟩

/-- The queue has no memory for the element of the only task. -/
def lostTask : List PoolEvent :=
  let owner := PoolEvent.owner ⟨true, true, 0⟩
  List.replicate 9 owner ++
    [.call 0 .add] ++ List.replicate 4 (.caller 0 ⟨true, true, 0⟩) ++
    [.caller 0 ⟨true, false, 0⟩] ++ List.replicate 2 (.caller 0 ⟨true, true, 0⟩) ++
    [.free true] ++ List.replicate 6 owner ++ List.replicate 4 (.worker 0) ++
    List.replicate 9 owner

def lostTaskEnd : PoolState :=
  (run step (initial 1 ⟨false, false⟩ 1) lostTask).getD (initial 1 ⟨false, false⟩ 1)

theorem not_freeContract_lostTask :
    ¬ ∀ threadCount flags callers events s, flags.detached = false →
      Meets step AddsThenFree (initial threadCount flags callers) events →
      run step (initial threadCount flags callers) events = some s → s.FreeContract := by
  intro h
  have hcontract := h 1 ⟨false, false⟩ 1 lostTask lostTaskEnd rfl (by decide) (by decide)
  have hcount : lostTaskEnd.executed.count 0 = 1 := hcontract.all (by decide) 0 (by decide)
  exact absurd hcount (by decide)

end PoolState

end Libmodule
