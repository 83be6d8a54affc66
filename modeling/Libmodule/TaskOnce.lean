import Libmodule.TaskLifetime

/-!
# A task is executed once

Every pass that adds the sources of a module starts their tasks, also those that
were started before.  When no pass meets such a source, a task is executed at most
once and its module gets at most one event.
-/

namespace Libmodule

open Interleaving

def TaskPhase.begun : TaskPhase → Bool
  | .running | .returned | .finished => true
  | _ => false

def TaskPhase.notified : TaskPhase → Bool
  | .finished => true
  | _ => false

namespace TaskState

/-- The tasks of the source `i` in some phases. -/
def tasksOf (jobs : List TaskJob) (i : ℕ) (p : TaskPhase → Bool) : ℕ :=
  jobs.countP fun job => job.src = i ∧ p job.phase

/-- The function of every task is called at most once, and one event at most is made of it. -/
def ExecutedOnce (s : TaskState) : Prop := ∀ src ∈ s.srcs, src.executed ≤ 1 ∧ src.received ≤ 1

instance (s : TaskState) : Decidable s.ExecutedOnce := by
  unfold ExecutedOnce
  infer_instance

/-- A pass that adds a source finds that its task was not started before. -/
def StartsOnce (s : TaskState) : TaskEvent → Prop
  | .main _ =>
      match s.main with
      | .adding _ (i :: _) => (s.srcs[i]?).all (TaskSrc.starts · = 0)
      | _ => True
  | _ => True

instance (s : TaskState) (e : TaskEvent) : Decidable (s.StartsOnce e) := by
  unfold StartsOnce
  refine e.casesOn ?_ ?_ ?_ ?_ ?_ ?_ ?_ ?_ ?_ ?_ ?_ ?_ <;> intros <;> try infer_instance
  refine s.main.casesOn ?_ (fun m rest => ?_) ?_ ?_ <;> intros <;> try infer_instance
  refine rest.casesOn ?_ ?_ <;> intros <;> infer_instance

/-- What the source has counted is what its tasks in the pool tell. -/
structure Tally (jobs : List TaskJob) (i : ℕ) (src : TaskSrc) : Prop where
  starts : src.starts = tasksOf jobs i fun _ => true
  executed : src.executed = tasksOf jobs i TaskPhase.begun
  received : src.received + src.counter ≤ tasksOf jobs i TaskPhase.notified
  once : src.starts ≤ 1

def Tallied (s : TaskState) : Prop := ∀ i src, s.srcs[i]? = some src → Tally s.jobs i src

/-- No task was started for a source that does not exist yet. -/
def JobsKnown (s : TaskState) : Prop := ∀ job ∈ s.jobs, job.src < s.srcs.length

variable {s s' : TaskState} {i j m : ℕ} {e : TaskEvent} {answer : TaskAnswer}

theorem tasksOf_mono {p q : TaskPhase → Bool} (jobs : List TaskJob) (i : ℕ)
    (hpq : ∀ phase, p phase → q phase) : tasksOf jobs i p ≤ tasksOf jobs i q := by
  refine List.countP_mono_left fun job _ hjob => ?_
  simp only [decide_eq_true_eq] at hjob ⊢
  exact ⟨hjob.1, hpq _ hjob.2⟩

theorem Tally.executedOnce {jobs : List TaskJob} {src : TaskSrc} (h : Tally jobs i src) :
    src.executed ≤ 1 ∧ src.received ≤ 1 := by
  have hstarts := h.starts
  have honce := h.once
  have hexecuted := tasksOf_mono jobs i (p := TaskPhase.begun) (q := fun _ => true) fun _ _ => rfl
  have hreceived := tasksOf_mono jobs i (p := TaskPhase.notified) (q := fun _ => true)
    fun _ _ => rfl
  constructor
  · rw [h.executed]
    omega
  · have := h.received
    omega

/-! ## Changing a source or a task -/

theorem tallied_modify {f : TaskSrc → TaskSrc} (h : s.Tallied)
    (hf : ∀ src, s.srcs[i]? = some src → Tally s.jobs i src → Tally s.jobs i (f src)) :
    (s.modify i f).Tallied := by
  intro k src hsrc
  rw [modify_srcs] at hsrc
  obtain ⟨old, hold, rfl⟩ := Option.map_eq_some_iff.mp hsrc
  split
  next heq =>
    subst heq
    exact hf old hold (h _ old hold)
  next => exact h k old hold

theorem tasksOf_append {p : TaskPhase → Bool} (jobs : List TaskJob) (i k : ℕ) :
    tasksOf (jobs ++ [⟨i, .queued⟩]) k p =
      tasksOf jobs k p + if i = k ∧ p .queued then 1 else 0 := by
  unfold tasksOf
  rw [List.countP_append, List.countP_singleton]
  simp

theorem tasksOf_set {p : TaskPhase → Bool} {jobs : List TaskJob} {job : TaskJob} {k : ℕ}
    (phase : TaskPhase) (hjob : jobs[j]? = some job) :
    tasksOf (jobs.set j ⟨job.src, phase⟩) k p + (if job.src = k ∧ p job.phase then 1 else 0) =
      tasksOf jobs k p + if job.src = k ∧ p phase then 1 else 0 := by
  have h := countP_set_add (fun job : TaskJob => decide (job.src = k ∧ p job.phase))
    ⟨job.src, phase⟩ hjob
  simpa only [tasksOf, decide_eq_true_eq] using h

theorem tallied_job {job : TaskJob} (phase : TaskPhase) (f : TaskSrc → TaskSrc) (h : s.Tallied)
    (hjob : s.jobs[j]? = some job) (hstarts : ∀ src, (f src).starts = src.starts)
    (hexecuted : ∀ src, (f src).executed + (if job.phase.begun then 1 else 0) =
      src.executed + if phase.begun then 1 else 0)
    (hreceived : ∀ src, (f src).received + (f src).counter +
      (if job.phase.notified then 1 else 0) ≤
        src.received + src.counter + if phase.notified then 1 else 0) :
    ((s.modify job.src f).setJob j job.src phase).Tallied := by
  intro k src hsrc
  have hsrc : (s.modify job.src f).srcs[k]? = some src := hsrc
  rw [modify_srcs] at hsrc
  obtain ⟨old, hold, rfl⟩ := Option.map_eq_some_iff.mp hsrc
  have htally := h k old hold
  have hall := tasksOf_set (p := fun _ => true) (k := k) phase hjob
  have hbegun := tasksOf_set (p := TaskPhase.begun) (k := k) phase hjob
  have hnotified := tasksOf_set (p := TaskPhase.notified) (k := k) phase hjob
  have hsame := htally.starts
  have hexec := htally.executed
  have hrecv := htally.received
  have honce := htally.once
  change Tally (s.jobs.set j ⟨job.src, phase⟩) k _
  by_cases hk : job.src = k
  · simp only [hk, true_and, if_true] at hall hbegun hnotified ⊢
    have hstarts := hstarts old
    have hexecuted := hexecuted old
    have hreceived := hreceived old
    exact ⟨by omega, by omega, by omega, by omega⟩
  · simp only [hk, false_and, if_false] at hall hbegun hnotified ⊢
    exact ⟨by omega, by omega, by omega, by omega⟩

theorem modify_id (i : ℕ) : s.modify i id = s := by
  unfold modify
  rw [List.modify_id]

theorem jobStep_tallied {job : TaskJob} (h : s.Tallied) (hjob : s.jobs[j]? = some job)
    (hstep : s.jobStep j job = some s') : s'.Tallied := by
  unfold jobStep at hstep
  split at hstep
  next hphase =>
    cases hstep
    refine tallied_job _ _ h hjob (fun _ => rfl) (fun src => ?_) fun src => ?_
    · rw [hphase]
      rfl
    · rw [hphase]
      exact Nat.le_refl _
  next hphase =>
    cases hstep
    have hsame := tallied_job .returned id h hjob (fun _ => rfl)
      (fun src => by rw [hphase]; rfl) fun src => by rw [hphase]; exact Nat.le_refl _
    rwa [modify_id] at hsame
  next hphase =>
    cases hstep
    refine tallied_job _ _ h hjob (fun src => ?_) (fun src => ?_) fun src => ?_
    · split <;> rfl
    · rw [hphase]
      split <;> rfl
    · rw [hphase]
      split
      next => exact Nat.le_refl _
      next => exact Nat.le_succ _
  next => cases hstep
  next => cases hstep

/-! ## Starting a task -/

theorem startTask_tallied (h : s.Tallied)
    (hfirst : ∀ src, s.srcs[i]? = some src → src.starts = 0) : (s.startTask i).Tallied := by
  intro k src hsrc
  have hsrc : (s.modify i _).srcs[k]? = some src := hsrc
  rw [modify_srcs] at hsrc
  obtain ⟨old, hold, rfl⟩ := Option.map_eq_some_iff.mp hsrc
  have htally := h k old hold
  have hall := tasksOf_append (p := fun _ => true) s.jobs i k
  have hbegun := tasksOf_append (p := TaskPhase.begun) s.jobs i k
  have hnotified := tasksOf_append (p := TaskPhase.notified) s.jobs i k
  have hsame := htally.starts
  have hexec := htally.executed
  have hrecv := htally.received
  have honce := htally.once
  simp only [TaskPhase.begun, TaskPhase.notified, and_true, Bool.false_eq_true, and_false,
    if_false, Nat.add_zero] at hall hbegun hnotified
  change Tally (s.jobs ++ [⟨i, .queued⟩]) k _
  by_cases hk : i = k
  · subst hk
    have hfirst := hfirst old hold
    simp only [if_true] at hall ⊢
    refine ⟨?_, ?_, ?_, ?_⟩ <;> dsimp only <;> omega
  · simp only [hk, if_false, Nat.add_zero] at hall ⊢
    exact ⟨by omega, by omega, by omega, by omega⟩

theorem addSrc_tallied {src : TaskSrc} (h : s.Tallied) (hsrc : s.srcs[i]? = some src)
    (hfirst : src.starts = 0) : (s.addSrc i src answer).Tallied := by
  unfold addSrc
  split
  next => exact h
  next =>
    have hadded := tallied_modify (i := i) (f := fun src => { src with
      ev := true, fd := some answer.fd, counter := 0 }) h fun src _ ht =>
        ⟨ht.starts, ht.executed, Nat.le_trans (Nat.le_add_right _ _) ht.received, ht.once⟩
    dsimp only
    split
    next =>
      refine startTask_tallied hadded fun src' hsrc' => ?_
      rw [modify_srcs, hsrc] at hsrc'
      cases hsrc'
      dsimp only
      rw [if_pos rfl]
      exact hfirst
    next => exact hadded

/-! ## Every step -/

/-- The step keeps the tasks known, and the number of sources. -/
theorem JobsKnown.mono (h : s.JobsKnown) (hlength : s'.srcs.length = s.srcs.length)
    (hjobs : ∀ job ∈ s'.jobs, (∃ old ∈ s.jobs, job.src = old.src) ∨ job.src < s.srcs.length) :
    s'.JobsKnown := by
  intro job hjob
  rw [hlength]
  rcases hjobs job hjob with ⟨old, hold, hsrc⟩ | hlt
  · rw [hsrc]
    exact h old hold
  · exact hlt

@[simp] theorem modify_length {f : TaskSrc → TaskSrc} :
    (s.modify i f).srcs.length = s.srcs.length :=
  List.length_modify _ _ _

theorem modify_known {f : TaskSrc → TaskSrc} (h : s.JobsKnown) : (s.modify i f).JobsKnown :=
  h.mono modify_length fun job hjob => .inl ⟨job, hjob, rfl⟩

theorem addSrc_known {src : TaskSrc} (h : s.JobsKnown) (hi : i < s.srcs.length) :
    (s.addSrc i src answer).JobsKnown := by
  unfold addSrc
  split
  next => exact h
  next =>
    dsimp only
    split
    next =>
      refine (modify_known h).mono modify_length fun job hjob => ?_
      rcases List.mem_append.mp hjob with hold | hnew
      · exact .inl ⟨job, hold, rfl⟩
      · rw [List.mem_singleton.mp hnew, modify_length]
        exact .inr hi
    next => exact modify_known h

theorem jobStep_known {job : TaskJob} (h : s.JobsKnown) (hjob : s.jobs[j]? = some job)
    (hstep : s.jobStep j job = some s') : s'.JobsKnown := by
  have hset : ∀ phase, ∀ job' ∈ s.jobs.set j ⟨job.src, phase⟩, ∃ old ∈ s.jobs,
      job'.src = old.src := by
    intro phase job' hmem
    rcases List.mem_or_eq_of_mem_set hmem with hold | rfl
    · exact ⟨job', hold, rfl⟩
    · exact ⟨job, List.mem_of_getElem? hjob, rfl⟩
  unfold jobStep at hstep
  split at hstep
  next =>
    cases hstep
    exact h.mono modify_length fun job' hmem => .inl (hset _ job' hmem)
  next =>
    cases hstep
    exact h.mono rfl fun job' hmem => .inl (hset _ job' hmem)
  next =>
    cases hstep
    exact h.mono modify_length fun job' hmem => .inl (hset _ job' hmem)
  next => cases hstep
  next => cases hstep

structure Counting (s : TaskState) : Prop where
  tallied : s.Tallied
  known : s.JobsKnown

theorem Counting.modify {f : TaskSrc → TaskSrc} (h : s.Counting)
    (hf : ∀ src, Tally s.jobs i src → Tally s.jobs i (f src)) : (s.modify i f).Counting :=
  ⟨tallied_modify h.tallied fun src _ => hf src, modify_known h.known⟩

theorem tasksOf_new (h : s.JobsKnown) (p : TaskPhase → Bool) :
    tasksOf s.jobs s.srcs.length p = 0 := by
  refine List.countP_eq_zero.mpr fun job hjob => ?_
  have hlt := h job hjob
  simp only [decide_eq_true_eq]
  intro hnew
  exact absurd hnew.1 (Nat.ne_of_lt hlt)

theorem insert_counting (m : ℕ) (tid : ℤ) (h : s.Counting) :
    (s.insert (.new m tid)).Counting := by
  constructor
  · intro k src hsrc
    rw [insert, List.getElem?_append] at hsrc
    split at hsrc
    next => exact h.tallied k src hsrc
    next hk =>
      rw [List.getElem?_singleton] at hsrc
      split at hsrc
      next hzero =>
        cases hsrc
        obtain rfl : k = s.srcs.length := by omega
        exact ⟨(tasksOf_new h.known _).symm, (tasksOf_new h.known _).symm, Nat.zero_le _,
          Nat.zero_le _⟩
      next => cases hsrc
  · intro job hjob
    rw [insert, List.length_append]
    exact Nat.lt_of_lt_of_le (h.known job hjob) (Nat.le_add_right _ _)

theorem register_counting {tid : ℤ} {inserted : Bool} (h : s.Counting) :
    (s.register m tid inserted answer).Counting := by
  have hnew := insert_counting m tid h
  unfold register
  split
  next =>
    dsimp only
    split
    next =>
      refine ⟨addSrc_tallied hnew.tallied List.getElem?_concat_length rfl,
        addSrc_known hnew.known ?_⟩
      rw [insert, List.length_append]
      exact Nat.lt_succ_self _
    next => exact hnew
  next => exact h

theorem mainStep_counting (h : s.Counting) (hfirst : s.StartsOnce (.main answer))
    (hstep : s.mainStep answer s.main = some s') : s'.Counting := by
  unfold StartsOnce at hfirst
  cases hmain : s.main with
  | idle =>
      rw [hmain] at hstep
      cases hstep
  | adding m rest =>
      rw [hmain] at hstep hfirst
      cases rest with
      | nil =>
          cases hstep
          cases answer.ok <;> exact ⟨h.tallied, h.known⟩
      | cons i rest =>
          simp only [mainStep] at hstep
          split at hstep
          next => cases hstep
          next src hsrc =>
            cases hstep
            dsimp only at hfirst
            rw [hsrc] at hfirst
            have hlt := (List.getElem?_eq_some_iff.mp hsrc).1
            exact ⟨addSrc_tallied h.tallied hsrc (of_decide_eq_true hfirst),
              addSrc_known h.known hlt⟩
  | removing m rest =>
      rw [hmain] at hstep
      cases rest with
      | nil =>
          cases hstep
          cases answer.ok <;> exact ⟨h.tallied, h.known⟩
      | cons i rest =>
          cases hstep
          have hmodify : (s.rmSrc i).Counting := by
            refine h.modify fun src ht => ?_
            split
            next =>
              exact ⟨ht.starts, ht.executed, Nat.le_trans (Nat.le_add_right _ _) ht.received,
                ht.once⟩
            next => exact ht
          exact ⟨hmodify.tallied, hmodify.known⟩
  | stopping m next rest =>
      rw [hmain] at hstep
      cases rest with
      | nil =>
          cases hstep
          exact ⟨h.tallied, h.known⟩
      | cons i rest =>
          cases hstep
          have hmodify : (s.dropSrc i).Counting :=
            h.modify fun src ht => ⟨ht.starts, ht.executed, ht.received, ht.once⟩
          exact ⟨hmodify.tallied, hmodify.known⟩

theorem receive_counting {src : TaskSrc} {removed : Option ℕ} (h : s.Counting)
    (hcounter : ∀ src, s.srcs[i]? = some src → 0 < src.counter)
    (hstep : s.receive i src removed = some s') : s'.Counting := by
  have hpushed : ∀ t : TaskState, t.Counting →
      (∀ src, t.srcs[i]? = some src → 0 < src.counter) → (t.modify i fun src =>
        { src with counter := 0, events := src.events + 1, received := src.received + 1 }).Counting := by
    intro t ht hpos
    refine ⟨tallied_modify ht.tallied fun src hsrc htally => ?_, modify_known ht.known⟩
    have hpos := hpos src hsrc
    have hreceived := htally.received
    refine ⟨htally.starts, htally.executed, ?_, htally.once⟩
    dsimp only
    omega
  unfold receive at hstep
  cases removed with
  | none =>
      cases hstep
      exact hpushed s h hcounter
  | some r =>
      dsimp only at hstep
      split at hstep
      next => cases hstep
      next src' hsrc' =>
        split at hstep
        next =>
          cases hstep
          refine hpushed (s.dropSrc r)
            (h.modify fun src ht => ⟨ht.starts, ht.executed, ht.received, ht.once⟩) ?_
          intro src hsrc
          rw [dropSrc, modify_srcs] at hsrc
          obtain ⟨old, hold, rfl⟩ := Option.map_eq_some_iff.mp hsrc
          have hpos := hcounter old hold
          split
          next => exact hpos
          next => exact hpos
        next => cases hstep

theorem dropQueued_tasksOf {p : TaskPhase → Bool} (jobs : List TaskJob) (i : ℕ)
    (hp : p .queued = p .dropped) : tasksOf (jobs.map dropQueued) i p = tasksOf jobs i p := by
  unfold tasksOf
  rw [List.countP_map]
  congr 1
  funext job
  unfold dropQueued
  dsimp only [Function.comp]
  split
  next hphase => rw [hphase, hp]
  next => rfl

theorem counting_step (h : s.Counting) (hfirst : s.StartsOnce e) (hstep : s.step e = some s') :
    s'.Counting := by
  cases e with
  | register m tid inserted answer =>
      simp only [step] at hstep
      split at hstep
      next =>
        cases hstep
        exact register_counting h
      next => cases hstep
  | start m pass | resume m pass | pause m pass | stop m pass | deregister m pass =>
      simp only [step, call] at hstep
      split at hstep
      next =>
        cases hstep
        exact ⟨h.tallied, h.known⟩
      next => cases hstep
  | main answer => exact mainStep_counting h hfirst hstep
  | receive i removed =>
      simp only [step] at hstep
      split at hstep
      next => cases hstep
      next src hsrc =>
        split at hstep
        next hguard =>
          refine receive_counting h (fun src' hsrc' => ?_) hstep
          rw [hsrc] at hsrc'
          cases hsrc'
          exact hguard.2.2
        next => cases hstep
  | receiveError i =>
      simp only [step] at hstep
      split at hstep
      next => cases hstep
      next src hsrc =>
        split at hstep
        next =>
          cases hstep
          exact h.modify fun src ht =>
            ⟨ht.starts, ht.executed, Nat.le_trans (Nat.le_add_right _ _) ht.received, ht.once⟩
        next => cases hstep
  | release i =>
      simp only [step] at hstep
      split at hstep
      next => cases hstep
      next src hsrc =>
        split at hstep
        next =>
          cases hstep
          exact h.modify fun src ht => ⟨ht.starts, ht.executed, ht.received, ht.once⟩
        next => cases hstep
  | job j =>
      simp only [step] at hstep
      split at hstep
      next => cases hstep
      next job hjob =>
        exact ⟨jobStep_tallied h.tallied hjob hstep, jobStep_known h.known hjob hstep⟩
  | freePool =>
      simp only [step] at hstep
      split at hstep
      next =>
        cases hstep
        constructor
        · intro k src hsrc
          have htally := h.tallied k src hsrc
          constructor
          case starts => exact htally.starts.trans (dropQueued_tasksOf s.jobs k rfl).symm
          case executed => exact htally.executed.trans (dropQueued_tasksOf s.jobs k rfl).symm
          case received =>
            exact Nat.le_trans htally.received
              (Nat.le_of_eq (dropQueued_tasksOf s.jobs k rfl).symm)
          case once => exact htally.once
        · intro job hjob
          obtain ⟨old, hold, rfl⟩ := List.mem_map.mp hjob
          have hlt := h.known old hold
          unfold dropQueued
          split
          next => exact hlt
          next => exact hlt
      next => cases hstep

theorem counting_initial (mods : ℕ) : (initial mods).Counting where
  tallied := nofun
  known := nofun

theorem executedOnce_of_startsOnce (mods : ℕ) (events : List TaskEvent) {s : TaskState}
    (hmeets : Meets step StartsOnce (initial mods) events)
    (hrun : run step (initial mods) events = some s) : s.ExecutedOnce := by
  have hcounting : s.Counting :=
    invariant_of_run (fun _ _ _ => counting_step) events (counting_initial mods) hmeets hrun
  intro src hsrc
  obtain ⟨i, hi⟩ := List.getElem?_of_mem hsrc
  exact (hcounting.tallied i src hi).executedOnce

theorem executedOnce_finishedTask :
    finishedTaskEnd.srcs.map TaskSrc.executed = [1] ∧ finishedTaskEnd.ExecutedOnce :=
  ⟨by decide, executedOnce_of_startsOnce 1 finishedTask (by decide) (by decide)⟩

/-- The module is paused and resumed before a worker takes the task. -/
def resumedTask : List TaskEvent :=
  [.start 0 [], .main ⟨true, 0, true, true⟩, .register 0 5 true ⟨true, 9, true, true⟩,
    .pause 0 [0], .main ⟨true, 0, true, true⟩, .main ⟨true, 0, true, true⟩,
    .resume 0 [0], .main ⟨true, 9, true, true⟩, .main ⟨true, 0, true, true⟩,
    .job 0, .job 0, .job 0, .job 1, .job 1, .job 1]

def resumedTaskEnd : TaskState := (run step (initial 1) resumedTask).getD (initial 1)

theorem not_executedOnce_resumedTask :
    ¬ ∀ mods events s, run step (initial mods) events = some s → s.ExecutedOnce := by
  intro h
  have honce := h 1 resumedTask resumedTaskEnd (by decide)
  revert honce
  decide

end TaskState

end Libmodule
