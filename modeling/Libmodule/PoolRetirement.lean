import Libmodule.PoolSteps

/-!
# The end of the workers

`m_thpool_free` waits for the workers in its list before it destroys what they
use.  A worker that is not in the list by then, or that cannot be joined, goes
on with a pool that is gone.
-/

namespace Libmodule

open Interleaving

namespace PoolState

/-! ## The phases of the owner -/

/-- No call of another thread is in progress. -/
def Idle (s : PoolState) : Prop := ∀ pc ∈ s.callers, pc = .idle

/-- There are no workers yet, and the stages of `initState` are done. -/
structure Unborn (s : PoolState) (initState : ℕ) : Prop where
  initState : s.pool.initState = initState
  workers : s.workers = []
  idle : s.Idle
  intact : s.destroyed = false

/-- Every worker is in the list of threads, or about to be put there. -/
def Listed (s : PoolState) (inserting : Option ℕ) : Prop :=
  ∀ w < s.workers.length, w ∈ s.pool.threads ∨ .insert w ∈ s.callers ∨ inserting = some w

/-- No thread is created any more, and all workers but those in `rest` have left. -/
structure Leaving (s : PoolState) (rest : List ℕ) : Prop where
  closed : s.pool.shutdown ≠ .no ∨ s.Idle
  left : ∀ w < s.workers.length, w ∈ rest ∨ s.workers[w]? = some .exited

/-- `shutdown` is set, and the list of threads is complete. -/
structure ShutDown (s : PoolState) : Prop where
  shutdown : s.pool.shutdown ≠ .no
  listed : s.Listed none
  inserted : ∀ th, .insert th ∉ s.callers
  intact : s.destroyed = false

/-- The threads of `m_thpool_new` are being created. -/
structure Starting (s : PoolState) (inserting : Option ℕ) : Prop where
  initState : s.pool.initState = 0x0f
  idle : s.Idle
  listed : s.Listed inserting
  intact : s.destroyed = false

/-- What holds when the owner is at `pc`. -/
def Phase (s : PoolState) : OwnerPc → Prop
  | .newPool | .newThreads | .failed => s.Unborn 0
  | .newTasks => s.Unborn 0x01
  | .initMut => s.Unborn 0x03
  | .initCond => s.Unborn 0x07
  | .create _ | .started => s.Starting none
  | .insert _ th => s.Starting (some th)
  | .ready => s.pool.initState = 0x1f ∧ s.Listed none ∧ s.destroyed = false
  | .stage _ i =>
      i < initedStarted ∧ s.Leaving [] ∨ i = initedStarted ∧ s.Listed none ∧ s.destroyed = false
  | .lock _ | .setShutdown _ => s.Listed none ∧ s.destroyed = false
  | .broadcast _ | .unlock _ | .newItr _ => s.ShutDown
  | .join _ rest => s.Leaving rest ∧ s.destroyed = false
  | .clearStarted _ | .freePool _ | .returned _ => s.Leaving []

/-- The workers are known to `m_thpool_free`, and have left before it destroys anything. -/
structure Retiring (s : PoolState) : Prop where
  exclusive : Exclusive s.Critical s.pool.lock
  phase : s.Phase s.owner

/-- Every worker is in the list of threads when `m_thpool_free` reads it, and can be
joined: `m_thpool_new` does not fail to create a thread after it has created one, the list of
threads gets its nodes and its iterator from `calloc`, no thread is created once
`shutdown` is set, and a pool that has workers is not detached. -/
def KeepsWorkers (s : PoolState) : PoolEvent → Prop
  | .owner answer =>
      match s.owner with
      | .create i => i < s.pool.maxThreads → answer.ok = true ∨ s.workers = []
      | .insert _ _ => answer.mem = true
      | .unlock _ => s.pool.flags.detached = true → s.workers = []
      | .newItr _ => answer.mem = true ∨ s.workers = []
      | _ => True
  | .caller a answer =>
      match s.callers[a]? with
      | some .create => s.pool.shutdown = .no
      | some (.insert _) => answer.mem = true
      | _ => True
  | _ => True

instance (s : PoolState) (e : PoolEvent) : Decidable (s.KeepsWorkers e) := by
  unfold KeepsWorkers
  split
  next => split <;> infer_instance
  next => split <;> infer_instance
  next => infer_instance

variable {s s' : PoolState} {w a : ℕ} {answer : Answer}

/-! ## Steps of the others keep the phase -/

/-- What a phase needs from a step of another party than the owner. -/
structure KeepsPhase (s s' : PoolState) : Prop where
  initState : s'.pool.initState = s.pool.initState
  shutdown : s'.pool.shutdown = s.pool.shutdown
  destroyed : s'.destroyed = s.destroyed
  unborn : s.Idle → s.workers = [] → s'.workers = []
  idle : s.Idle → s'.Idle
  listed : ∀ inserting, s.Listed inserting → s'.Listed inserting
  inserted : s.pool.shutdown ≠ .no → (∀ th, .insert th ∉ s.callers) →
    ∀ th, .insert th ∉ s'.callers
  leaving : ∀ rest, s.Leaving rest → s'.Leaving rest

namespace KeepsPhase

variable (h : KeepsPhase s s')
include h

theorem keepsUnborn {initState : ℕ} (hs : s.Unborn initState) : s'.Unborn initState :=
  ⟨h.initState.trans hs.initState, h.unborn hs.idle hs.workers, h.idle hs.idle,
    h.destroyed.trans hs.intact⟩

theorem keepsStarting {inserting : Option ℕ} (hs : s.Starting inserting) : s'.Starting inserting :=
  ⟨h.initState.trans hs.initState, h.idle hs.idle, h.listed _ hs.listed,
    h.destroyed.trans hs.intact⟩

theorem keepsShutDown (hs : s.ShutDown) : s'.ShutDown where
  shutdown := h.shutdown ▸ hs.shutdown
  listed := h.listed _ hs.listed
  inserted := h.inserted hs.shutdown hs.inserted
  intact := h.destroyed.trans hs.intact

theorem phase {pc : OwnerPc} (hs : s.Phase pc) : s'.Phase pc := by
  cases pc with
  | newPool | newThreads | failed | newTasks | initMut | initCond => exact h.keepsUnborn hs
  | create i | started | insert i th => exact h.keepsStarting hs
  | ready =>
      obtain ⟨hinit, hlisted, hintact⟩ := hs
      exact ⟨h.initState.trans hinit, h.listed _ hlisted, h.destroyed.trans hintact⟩
  | stage free i =>
      rcases hs with ⟨hi, hleaving⟩ | ⟨hi, hlisted, hintact⟩
      · exact .inl ⟨hi, h.leaving _ hleaving⟩
      · exact .inr ⟨hi, h.listed _ hlisted, h.destroyed.trans hintact⟩
  | lock free | setShutdown free => exact ⟨h.listed _ hs.1, h.destroyed.trans hs.2⟩
  | broadcast free | unlock free | newItr free => exact h.keepsShutDown hs
  | join free rest => exact ⟨h.leaving _ hs.1, h.destroyed.trans hs.2⟩
  | clearStarted free | freePool free | returned free => exact h.leaving _ hs

end KeepsPhase

/-- A phase reads the bits of `init_state`, `shutdown`, the threads, the callers and the workers. -/
theorem keepsPhase_of_same (hinit : s'.pool.initState = s.pool.initState)
    (hshutdown : s'.pool.shutdown = s.pool.shutdown) (hthreads : s'.pool.threads = s.pool.threads)
    (hcallers : s'.callers = s.callers) (hworkers : s'.workers = s.workers)
    (hdestroyed : s'.destroyed = s.destroyed) : KeepsPhase s s' where
  initState := hinit
  shutdown := hshutdown
  destroyed := hdestroyed
  unborn := fun _ hnone => hworkers.trans hnone
  idle := by
    unfold Idle
    rw [hcallers]
    exact id
  listed := by
    unfold Listed
    rw [hworkers, hthreads, hcallers]
    exact fun _ => id
  inserted := by
    rw [hcallers]
    exact fun _ => id
  leaving := by
    intro rest hs
    constructor
    · unfold Idle
      rw [hshutdown, hcallers]
      exact hs.closed
    · rw [hworkers]
      exact hs.left

theorem moveOwner_phase {pc pc' : OwnerPc} (h : s.Phase pc') : (s.moveOwner pc).Phase pc' := by
  have hkeeps : KeepsPhase s (s.moveOwner pc) := keepsPhase_of_same rfl rfl rfl rfl rfl rfl
  exact hkeeps.phase h

theorem crash_phase {pc : OwnerPc} (h : s.Phase pc) : s.crash.Phase pc := by
  have hkeeps : KeepsPhase s s.crash := keepsPhase_of_same rfl rfl rfl rfl rfl rfl
  exact hkeeps.phase h

theorem WorkerFrame.keepsPhase {pc pc' : WorkerPc} (hframe : WorkerFrame s s' w pc')
    (hpc : s.workers[w]? = some pc) (hexited : pc ≠ .exited) : KeepsPhase s s' := by
  have hlength : s'.workers.length = s.workers.length := by rw [hframe.workers, List.length_set]
  constructor
  case initState => exact hframe.initState
  case shutdown => exact hframe.shutdown
  case destroyed => exact hframe.destroyed
  case unborn =>
    intro _ hnone
    rw [hnone] at hpc
    cases hpc
  case idle =>
    unfold Idle
    rw [hframe.callers]
    exact id
  case listed =>
    intro inserting
    unfold Listed
    rw [hframe.callers, hframe.threads, hlength]
    exact id
  case inserted =>
    rw [hframe.callers]
    exact fun _ => id
  case leaving =>
    intro rest hs
    constructor
    · unfold Idle
      rw [hframe.callers, hframe.shutdown]
      exact hs.closed
    · intro v hv
      rw [hlength] at hv
      rcases hs.left v hv with hmem | hgone
      · exact .inl hmem
      · have hne : w ≠ v := by
          rintro rfl
          rw [hpc] at hgone
          exact hexited (Option.some.inj hgone)
        rw [hframe.workers, List.getElem?_set_ne hne]
        exact .inr hgone

theorem Woken.exited {l l' : List WorkerPc} (h : Woken l l') (hw : l[w]? = some .exited) :
    l'[w]? = some .exited := by
  rcases h w with hsame | ⟨hwaiting, -⟩
  · rw [hsame, hw]
  · rw [hw] at hwaiting
    cases hwaiting

theorem Listed.callerMove {pc pc' : CallerPc} {inserting : Option ℕ} (hs : s.Listed inserting)
    (hpc : s.callers[a]? = some pc) (hcallers : s'.callers = s.callers.set a pc')
    (hthreads : ∀ th ∈ s.pool.threads, th ∈ s'.pool.threads)
    (hinserted : ∀ th, pc = .insert th → th ∈ s'.pool.threads) (hw : w < s.workers.length) :
    w ∈ s'.pool.threads ∨ .insert w ∈ s'.callers ∨ inserting = some w := by
  rcases hs w hw with hthread | hcaller | howner
  · exact .inl (hthreads w hthread)
  · by_cases heq : pc = .insert w
    · exact .inl (hinserted w heq)
    · rw [hcallers]
      exact .inr (.inl (mem_set_of_ne hpc hcaller (Ne.symm heq)))
  · exact .inr (.inr howner)

theorem listed_caller {pc : CallerPc} {inserting : Option ℕ}
    (hkeeps : s.KeepsWorkers (.caller a answer)) (hpc : s.callers[a]? = some pc)
    (hstep : s.callerStep a answer pc = some s') (hs : s.Listed inserting) :
    s'.Listed inserting := by
  simp only [KeepsWorkers, hpc] at hkeeps
  by_cases hcreate : pc = .create
  · subst hcreate
    simp only [callerStep] at hstep
    split at hstep
    next =>
      cases hstep
      exact hs
    split at hstep
    next =>
      cases hstep
      intro w hw
      simp only [spawn, moveCaller, List.length_append, List.length_singleton] at hw
      rcases Nat.lt_succ_iff_lt_or_eq.mp hw with hlt | rfl
      · exact hs.callerMove hpc rfl (fun _ => id) (by simp) hlt
      · exact .inr (.inl (List.mem_of_getElem? (getElem?_set_of_some hpc)))
    next =>
      cases hstep
      exact fun w hw => hs.callerMove hpc rfl (fun _ => id) (by simp) hw
  · obtain ⟨pc', hframe, -⟩ := callerStep_frame hpc hstep
    have hlength : s'.workers.length = s.workers.length := by
      rcases hframe.workers with ⟨h, -⟩ | hwoken
      · exact absurd h hcreate
      · exact woken_length hwoken
    intro w hw
    rw [hlength] at hw
    by_cases hinsert : ∃ th, pc = .insert th
    · obtain ⟨th, rfl⟩ := hinsert
      cases hstep
      simp only [listInsert, hkeeps] at hframe ⊢
      refine hs.callerMove hpc hframe.callers (fun _ => List.mem_cons_of_mem th) ?_ hw
      intro th' heq
      cases heq
      exact List.mem_cons_self
    · have hthreads := hframe.threads.resolve_left hinsert
      refine hs.callerMove hpc hframe.callers (fun th => hthreads ▸ id) ?_ hw
      exact fun th heq => absurd ⟨th, heq⟩ hinsert

theorem callerStep_keepsPhase {pc : CallerPc} (hkeeps : s.KeepsWorkers (.caller a answer))
    (hpc : s.callers[a]? = some pc) (hstep : s.callerStep a answer pc = some s') :
    KeepsPhase s s' := by
  obtain ⟨pc', hframe, -⟩ := callerStep_frame hpc hstep
  have hmem := List.mem_of_getElem? hpc
  have hbusy : ¬ s.Idle := by
    intro hidle
    rw [hidle pc hmem] at hstep
    cases hstep
  have hlisted : ∀ inserting, s.Listed inserting → s'.Listed inserting :=
    fun _ => listed_caller hkeeps hpc hstep
  simp only [KeepsWorkers, hpc] at hkeeps
  constructor
  case listed => exact hlisted
  case initState => exact hframe.initState
  case shutdown => exact hframe.shutdown
  case destroyed => exact hframe.destroyed
  case unborn => exact fun hidle => absurd hidle hbusy
  case idle => exact fun hidle => absurd hidle hbusy
  case inserted =>
    intro hshut hnone th hth
    rw [hframe.callers] at hth
    rcases List.mem_or_eq_of_mem_set hth with hold | hnew
    · exact hnone th hold
    · rcases hframe.inserts th hnew.symm with hcreate | hsame
      · subst hcreate
        exact hshut hkeeps
      · rw [hsame, ← hnew] at hmem
        exact hnone th hmem
  case leaving =>
    intro rest hs
    rcases hs.closed with hshut | hidle
    · refine ⟨.inl (hframe.shutdown ▸ hshut), ?_⟩
      rcases hframe.workers with ⟨hcreate, -⟩ | hwoken
      · subst hcreate
        exact absurd hkeeps hshut
      · intro v hv
        rw [woken_length hwoken] at hv
        exact (hs.left v hv).imp_right hwoken.exited
    · exact absurd hidle hbusy

/-! ## Steps of the owner -/

theorem Unborn.listed {initState : ℕ} (h : s.Unborn initState) (inserting : Option ℕ) :
    s.Listed inserting := by
  intro w hw
  rw [h.workers] at hw
  cases hw

theorem Unborn.leaving {initState : ℕ} (h : s.Unborn initState) : s.Leaving [] := by
  refine ⟨.inr h.idle, ?_⟩
  intro w hw
  rw [h.workers] at hw
  cases hw

/-- A stage of `m_thpool_new`: the next stage, or `m_thpool_free`. -/
theorem Unborn.inited_phase {initState : ℕ} (h : s.Unborn initState) (ok : Bool) (bit : ℕ)
    {pc : OwnerPc} (hsmall : (initState + 1) >>> 1 < initedStarted)
    (hnext : ∀ t : PoolState, t.Unborn (initState ||| bit) → t.Phase pc) :
    (s.inited ok bit pc).Phase (s.inited ok bit pc).owner := by
  unfold inited
  split
  next =>
    apply hnext
    exact ⟨congrArg (· ||| bit) h.initState, h.workers, h.idle, h.intact⟩
  next =>
    apply moveOwner_phase
    refine .inl ⟨?_, h.leaving⟩
    rw [h.initState]
    exact hsmall

theorem Leaving.freeStage_phase (h : s.Leaving []) (free : FreeCall) {i : ℕ}
    (hi : i < initedStarted) (ok : Bool) :
    (s.freeStage free i ok).Phase (s.freeStage free i ok).owner := by
  have hhalf : i >>> 1 < initedStarted := by
    rw [Nat.shiftRight_eq_div_pow]
    exact Nat.lt_of_le_of_lt (Nat.div_le_self _ _) hi
  unfold freeStage
  split
  next => exact moveOwner_phase h
  split
  next hstarted => exact absurd hstarted (Nat.ne_of_lt hi)
  split
  next =>
    split
    next => exact .inl ⟨hhalf, h.closed, h.left⟩
    next => exact moveOwner_phase h
  split
  next => exact .inl ⟨hhalf, h.closed, h.left⟩
  split
  next => exact .inl ⟨hhalf, h.closed, h.left⟩
  next => exact moveOwner_phase (.inl ⟨hhalf, h⟩)

theorem ownerStep_phase (h : s.Retiring) (hkeeps : s.KeepsWorkers (.owner answer))
    (hstep : s.ownerStep answer s.owner = some s') : s'.Phase s'.owner := by
  have hphase := h.phase
  unfold KeepsWorkers at hkeeps
  cases hpc : s.owner with
  | newPool =>
      rw [hpc] at hphase
      simp only [hpc, ownerStep] at hstep
      split at hstep
      next =>
        cases hstep
        exact moveOwner_phase hphase
      next =>
        cases hstep
        exact moveOwner_phase hphase
  | newThreads =>
      rw [hpc] at hstep hphase
      cases hstep
      exact Unborn.inited_phase hphase _ _ (by decide) fun _ ht => ht
  | newTasks =>
      rw [hpc] at hstep hphase
      cases hstep
      exact Unborn.inited_phase hphase _ _ (by decide) fun _ ht => ht
  | initMut =>
      rw [hpc] at hstep hphase
      cases hstep
      exact Unborn.inited_phase hphase _ _ (by decide) fun _ ht => ht
  | initCond =>
      rw [hpc] at hstep hphase
      cases hstep
      refine Unborn.inited_phase hphase _ _ (by decide) fun t ht => ?_
      have hstart : t.Starting none := ⟨ht.initState, ht.idle, ht.listed _, ht.intact⟩
      split
      next => exact hstart
      next => exact hstart
  | create i =>
      rw [hpc] at hphase hkeeps
      simp only [hpc, ownerStep] at hstep
      split at hstep
      next hi =>
        split at hstep
        next =>
          cases hstep
          exact crash_phase (hpc ▸ hphase)
        split at hstep
        next =>
          cases hstep
          refine ⟨hphase.initState, hphase.idle, ?_, hphase.intact⟩
          intro w hw
          simp only [spawn, moveOwner, List.length_append, List.length_singleton] at hw
          rcases Nat.lt_succ_iff_lt_or_eq.mp hw with hlt | rfl
          · exact (hphase.listed w hlt).imp_right (Or.imp_right (by simp))
          · exact .inr (.inr rfl)
        next hfail =>
          cases hstep
          have hnone := (hkeeps hi).resolve_left hfail
          refine .inl ⟨?_, .inr hphase.idle, ?_⟩
          · rw [hphase.initState]
            decide
          · intro w hw
            rw [moveOwner, hnone] at hw
            cases hw
      next =>
        cases hstep
        exact moveOwner_phase hphase
  | insert i th =>
      rw [hpc] at hphase hkeeps hstep
      cases hstep
      simp only [listInsert, hkeeps]
      refine ⟨hphase.initState, hphase.idle, ?_, hphase.intact⟩
      intro w hw
      rcases hphase.listed w hw with hthread | hcaller | howner
      · exact .inl (List.mem_cons_of_mem th hthread)
      · exact .inr (.inl hcaller)
      · cases howner
        exact .inl List.mem_cons_self
  | started =>
      rw [hpc] at hphase hstep
      cases hstep
      exact ⟨congrArg (· ||| initedStarted) hphase.initState, hphase.listed, hphase.intact⟩
  | ready | returned free | failed =>
      rw [hpc] at hstep
      cases hstep
  | stage free i =>
      rw [hpc] at hstep hphase
      cases hstep
      rcases hphase with ⟨hi, hleaving⟩ | ⟨rfl, hlisted, hintact⟩
      · exact hleaving.freeStage_phase free hi _
      · exact ⟨hlisted, hintact⟩
  | lock free =>
      rw [hpc] at hphase
      simp only [hpc, ownerStep, Option.bind_eq_bind, Option.bind_eq_some_iff, acquire_eq_some]
        at hstep
      obtain ⟨_, ⟨hfree, rfl⟩, hs'⟩ := hstep
      cases hs'
      exact hphase
  | setShutdown free =>
      rw [hpc] at hphase hstep
      have hlock := h.exclusive .owner (by rw [Critical, hpc]; rfl)
      cases hstep
      refine ⟨?_, hphase.1, ?_, hphase.2⟩
      · dsimp only
        split <;> simp
      · -- who inserts a thread would hold the mutex
        intro th hth
        obtain ⟨a, ha⟩ := List.getElem?_of_mem hth
        have hcaller := h.exclusive (.caller a) ⟨_, ha, rfl⟩
        rw [hlock] at hcaller
        cases hcaller
  | broadcast free =>
      rw [hpc] at hphase hstep
      cases hstep
      refine ⟨hphase.shutdown, ?_, hphase.inserted, hphase.intact⟩
      intro w hw
      rw [List.length_map] at hw
      exact hphase.listed w hw
  | unlock free =>
      rw [hpc] at hphase hkeeps hstep
      cases hstep
      dsimp only
      split
      next hdetached =>
        refine ⟨.inl hphase.shutdown, ?_⟩
        intro w hw
        rw [hkeeps hdetached] at hw
        cases hw
      next => exact ⟨hphase.shutdown, hphase.listed, hphase.inserted, hphase.intact⟩
  | newItr free =>
      rw [hpc] at hphase hkeeps
      have hlisted : ∀ w < s.workers.length, w ∈ s.pool.threads := by
        intro w hw
        rcases hphase.listed w hw with hthread | hcaller | howner
        · exact hthread
        · exact absurd hcaller (hphase.inserted w)
        · cases howner
      simp only [hpc, ownerStep] at hstep
      split at hstep
      next =>
        cases hstep
        exact ⟨⟨.inl hphase.shutdown, fun w hw => .inl (hlisted w hw)⟩, hphase.intact⟩
      next hnone =>
        cases hstep
        refine ⟨.inl hphase.shutdown, ?_⟩
        intro w hw
        have hthread := hlisted w hw
        rcases hkeeps with hmem | hempty
        · have hempty : s.pool.threads = [] := by
            by_contra hthreads
            exact hnone ⟨hthreads, hmem⟩
          rw [hempty] at hthread
          cases hthread
        · rw [moveOwner, hempty] at hw
          cases hw
  | join free rest =>
      rw [hpc] at hphase hstep
      cases rest with
      | nil =>
          cases hstep
          exact moveOwner_phase hphase.1
      | cons th rest =>
          simp only [ownerStep] at hstep
          split at hstep
          next hexited =>
            cases hstep
            refine ⟨⟨hphase.1.closed, ?_⟩, hphase.2⟩
            intro w hw
            rcases hphase.1.left w hw with hmem | hleft
            · rcases List.mem_cons.mp hmem with rfl | hrest
              · exact .inr hexited
              · exact .inl hrest
            · exact .inr hleft
          next => cases hstep
  | clearStarted free =>
      rw [hpc] at hphase hstep
      cases hstep
      exact .inl ⟨by decide, hphase.closed, hphase.left⟩
  | freePool free =>
      rw [hpc] at hphase hstep
      cases hstep
      exact ⟨hphase.closed, hphase.left⟩

/-! ## Runs -/

theorem free_phase {pc : OwnerPc} {waitAll : Bool} (hready : s.owner = .ready)
    (h : s.Phase s.owner) (hpc : pc = .stage (.user waitAll) ((s.pool.initState + 1) >>> 1)) :
    (s.moveOwner pc).Phase pc := by
  rw [hready] at h
  obtain ⟨hinit, hlisted, hintact⟩ := h
  subst hpc
  apply moveOwner_phase
  refine .inr ⟨?_, hlisted, hintact⟩
  rw [hinit]
  rfl

theorem call_phase {call : ThpoolCall} (hready : s.owner = .ready) (h : s.Phase s.owner)
    (hidle : s.callers[a]? = some .idle) :
    (s.moveCaller a (.assertRunning call)).Phase s.owner := by
  rw [hready] at h ⊢
  obtain ⟨hinit, hlisted, hintact⟩ := h
  exact ⟨hinit, fun w hw => hlisted.callerMove hidle rfl (fun _ => id) nofun hw, hintact⟩

theorem retiring_step {e : PoolEvent} (h : s.Retiring) (hkeeps : s.KeepsWorkers e)
    (hstep : s.step e = some s') : s'.Retiring := by
  refine ⟨exclusive_step h.exclusive hstep, ?_⟩
  cases step_taken hstep with
  | owner hstep => exact ownerStep_phase h hkeeps hstep
  | free hready => exact free_phase hready h.phase rfl
  | call hready hidle => exact call_phase hready h.phase hidle
  | caller hpc hstep =>
      obtain ⟨pc', hframe, -⟩ := callerStep_frame hpc hstep
      rw [hframe.owner]
      exact (callerStep_keepsPhase hkeeps hpc hstep).phase h.phase
  | @worker w pc s' hpc hstep =>
      obtain ⟨pc', hframe, -⟩ := workerStep_frame hpc hstep
      have hexited : pc ≠ .exited := by
        rintro rfl
        cases hstep
      rw [hframe.owner]
      exact (hframe.keepsPhase hpc hexited).phase h.phase
  | @wake w hpc =>
      have hframe : WorkerFrame s (s.moveWorker w .relock) w .relock := by constructor <;> rfl
      exact (hframe.keepsPhase hpc nofun).phase h.phase

theorem retiring_initial (threadCount : ℕ) (flags : ThpoolFlags) (callers : ℕ) :
    (initial threadCount flags callers).Retiring where
  exclusive := by
    intro p hp
    cases p with
    | owner => cases hp
    | caller a =>
        obtain ⟨pc, hpc, hcritical⟩ := hp
        rw [List.eq_of_mem_replicate (List.mem_of_getElem? hpc)] at hcritical
        cases hcritical
    | worker w =>
        obtain ⟨pc, hpc, -⟩ := hp
        cases hpc
  phase := ⟨rfl, rfl, fun _ hpc => List.eq_of_mem_replicate hpc, rfl⟩

/-- Nothing is destroyed while a worker is there. -/
theorem Phase.left {pc : OwnerPc} (h : s.Phase pc) (hdestroyed : s.destroyed = true) :
    ∀ w < s.workers.length, s.workers[w]? = some .exited := by
  have hleaving : s.Leaving [] → ∀ w < s.workers.length, s.workers[w]? = some .exited := by
    intro hs w hw
    exact (hs.left w hw).resolve_left List.not_mem_nil
  have hintact : s.destroyed = false → ∀ w < s.workers.length, s.workers[w]? = some .exited := by
    intro hfalse
    rw [hfalse] at hdestroyed
    cases hdestroyed
  cases pc with
  | newPool | newThreads | failed | newTasks | initMut | initCond | create i | started
  | insert i th | broadcast free | unlock free | newItr free => exact hintact h.intact
  | ready => exact hintact h.2.2
  | stage free i =>
      rcases h with ⟨-, hs⟩ | ⟨-, -, hfalse⟩
      · exact hleaving hs
      · exact hintact hfalse
  | lock free | setShutdown free | join free rest => exact hintact h.2
  | clearStarted free | freePool free | returned free => exact hleaving h

/-- The step of a worker that uses the pool: all but the call of a task's function. -/
def WorkerUsesPool (s : PoolState) : PoolEvent → Bool
  | .worker w =>
      match s.workers[w]? with
      | some (.callTask _) => false
      | _ => true
  | .wake _ => true
  | _ => false

/-- No worker takes a step that uses a pool of which something is destroyed. -/
def NoUseAfterFree (s : PoolState) : Prop :=
  s.destroyed = true → ∀ e, s.WorkerUsesPool e → s.step e = none

theorem Retiring.noUseAfterFree (h : s.Retiring) : s.NoUseAfterFree := by
  intro hdestroyed e huses
  have hleft := h.phase.left hdestroyed
  cases hstep : s.step e with
  | none => rfl
  | some s' =>
      cases step_taken hstep with
      | worker hpc hstep =>
          rw [hleft _ (List.getElem?_eq_some_iff.mp hpc).1] at hpc
          cases hpc
          cases hstep
      | wake hpc =>
          rw [hleft _ (List.getElem?_eq_some_iff.mp hpc).1] at hpc
          cases hpc
      | owner | free | call | caller => cases huses

theorem noUseAfterFree_of_keepsWorkers (threadCount : ℕ) (flags : ThpoolFlags) (callers : ℕ)
    (events : List PoolEvent) {s : PoolState}
    (hmeets : Meets step KeepsWorkers (initial threadCount flags callers) events)
    (hrun : run step (initial threadCount flags callers) events = some s) : s.NoUseAfterFree := by
  have hretiring : s.Retiring :=
    invariant_of_run (fun _ _ _ => retiring_step) events
      (retiring_initial threadCount flags callers) hmeets hrun
  exact hretiring.noUseAfterFree

/-- One worker, one caller that adds one task, and `m_thpool_free(pool, true)`. -/
def oneTask : List PoolEvent :=
  let owner := PoolEvent.owner ⟨true, true, 0⟩
  List.replicate 9 owner ++
    [.call 0 .add] ++ List.replicate 7 (.caller 0 ⟨true, true, 0⟩) ++
    List.replicate 8 (.worker 0) ++
    [.free true] ++ List.replicate 6 owner ++ List.replicate 4 (.worker 0) ++
    List.replicate 9 owner

def oneTaskEnd : PoolState :=
  (run step (initial 1 ⟨false, false⟩ 1) oneTask).getD (initial 1 ⟨false, false⟩ 1)

theorem noUseAfterFree_oneTask : oneTaskEnd.destroyed = true ∧ oneTaskEnd.NoUseAfterFree :=
  ⟨by decide, noUseAfterFree_of_keepsWorkers 1 ⟨false, false⟩ 1 oneTask (by decide) (by decide)⟩

/-- A detached worker waits, and the owner frees the pool up to its condition variable. -/
def detachedWait : List PoolEvent :=
  let owner := PoolEvent.owner ⟨true, true, 0⟩
  List.replicate 9 owner ++ List.replicate 2 (.worker 0) ++
    [.free false] ++ List.replicate 7 owner

def detachedWaitEnd : PoolState :=
  (run step (initial 1 ⟨false, true⟩ 0) detachedWait).getD (initial 1 ⟨false, true⟩ 0)

theorem not_noUseAfterFree_detached :
    ¬ ∀ threadCount flags callers events s,
      run step (initial threadCount flags callers) events = some s → s.NoUseAfterFree := by
  intro h
  have hend := h 1 ⟨false, true⟩ 0 detachedWait detachedWaitEnd (by decide)
  have hstep : detachedWaitEnd.step (.worker 0) = none :=
    hend (by decide) (.worker 0) (by decide)
  exact absurd hstep (by decide)

end PoolState

end Libmodule
