import Libmodule.Interleaving
import Libmodule.TaskSources

/-!
# The source of a task in the pool

The pool has a raw pointer to the source of a task.  It stays valid as long as the
source is in the tree of its module, or an event refers to it.
-/

namespace Libmodule

open Interleaving

namespace TaskState

/-- A task of the source waits in the pool or is in progress. -/
def Unfinished (s : TaskState) (i : ℕ) : Prop :=
  ∃ job ∈ s.jobs, job.src = i ∧ job.phase.unfinished

instance (s : TaskState) (i : ℕ) : Decidable (s.Unfinished i) := by
  unfold Unfinished
  infer_instance

/-- The source has not been destroyed. -/
def Live (s : TaskState) (i : ℕ) : Prop := ∃ src, s.srcs[i]? = some src ∧ 0 < src.refs

/-- The source of every task that is not finished is there. -/
def SourcesLive (s : TaskState) : Prop := ∀ i, s.Unfinished i → s.Live i

/-- More than `n` events refer to the source. -/
def HasEvents (s : TaskState) (n i : ℕ) : Prop := ∃ src, s.srcs[i]? = some src ∧ n < src.events

def IsRegistered (s : TaskState) (i : ℕ) : Prop :=
  ∃ src, s.srcs[i]? = some src ∧ src.registered = true

/-- The step does not drop the last reference to a source with an unfinished task: a module
that is stopped or deregistered has no such source, `m_bst_remove` does not take one out in the
place of the source that was received, and the last event of a source is not released after
the source has left the tree. -/
def KeepsSources (s : TaskState) : TaskEvent → Prop
  | .main _ =>
      match s.main with
      | .stopping _ _ (i :: _) => s.Unfinished i → s.HasEvents 0 i
      | _ => True
  | .receive i (some r) => r ≠ i → s.Unfinished r → s.HasEvents 0 r
  | .release i => s.Unfinished i → s.IsRegistered i ∨ s.HasEvents 1 i
  | _ => True

instance (s : TaskState) (n i : ℕ) : Decidable (s.HasEvents n i) :=
  decidable_of_iff (s.srcs[i]?.any (n < TaskSrc.events ·)) (by simp [HasEvents, Option.any_eq_true])

instance (s : TaskState) (i : ℕ) : Decidable (s.IsRegistered i) :=
  decidable_of_iff (s.srcs[i]?.any TaskSrc.registered) (by simp [IsRegistered, Option.any_eq_true])

instance (s : TaskState) (e : TaskEvent) : Decidable (s.KeepsSources e) := by
  unfold KeepsSources
  split
  next => split <;> infer_instance
  all_goals infer_instance

structure Owned (s : TaskState) : Prop where
  live : s.SourcesLive
  pass : ∀ m rest, s.main = .adding m rest → ∀ i ∈ rest, s.IsRegistered i

variable {s s' : TaskState} {i r j m : ℕ} {e : TaskEvent} {answer : TaskAnswer}

theorem IsRegistered.live (h : s.IsRegistered i) : s.Live i := by
  obtain ⟨src, hsrc, hregistered⟩ := h
  refine ⟨src, hsrc, ?_⟩
  unfold TaskSrc.refs
  rw [if_pos hregistered]
  exact Nat.lt_of_lt_of_le Nat.zero_lt_one (Nat.le_add_right _ _)

theorem HasEvents.live {n : ℕ} (h : s.HasEvents n i) : s.Live i := by
  obtain ⟨src, hsrc, hevents⟩ := h
  exact ⟨src, hsrc, Nat.lt_of_lt_of_le (Nat.zero_lt_of_lt hevents) (Nat.le_add_left _ _)⟩

/-! ## Changing a source -/

theorem modify_srcs (f : TaskSrc → TaskSrc) (i k : ℕ) :
    (s.modify i f).srcs[k]? = (s.srcs[k]?).map fun src => if i = k then f src else src :=
  List.getElem?_modify f i s.srcs k

/-- A change that leaves the references alone. -/
def KeepsRefs (f : TaskSrc → TaskSrc) : Prop :=
  ∀ src, (f src).registered = src.registered ∧ (f src).events = src.events

theorem live_modify {f : TaskSrc → TaskSrc} {k : ℕ}
    (hf : ∀ src, s.srcs[k]? = some src → i = k → 0 < src.refs → 0 < (f src).refs)
    (h : s.Live k) : (s.modify i f).Live k := by
  obtain ⟨src, hsrc, hrefs⟩ := h
  refine ⟨_, by rw [modify_srcs, hsrc]; rfl, ?_⟩
  dsimp only
  split
  next heq => exact hf src hsrc heq hrefs
  next => exact hrefs

theorem KeepsRefs.live {f : TaskSrc → TaskSrc} (hf : KeepsRefs f) {k : ℕ} (h : s.Live k) :
    (s.modify i f).Live k := by
  refine live_modify (fun src _ _ hrefs => ?_) h
  unfold TaskSrc.refs at hrefs ⊢
  rwa [(hf src).1, (hf src).2]

theorem KeepsRefs.registered {f : TaskSrc → TaskSrc} (hf : KeepsRefs f) {k : ℕ}
    (h : s.IsRegistered k) : (s.modify i f).IsRegistered k := by
  obtain ⟨src, hsrc, hregistered⟩ := h
  refine ⟨_, by rw [modify_srcs, hsrc]; rfl, ?_⟩
  dsimp only
  split
  next => rw [(hf src).1, hregistered]
  next => exact hregistered

/-- A step that starts no task keeps the sources of the tasks. -/
theorem SourcesLive.mono (h : s.SourcesLive) (hjobs : ∀ k, s'.Unfinished k → s.Unfinished k)
    (hlive : ∀ k, s.Unfinished k → s.Live k → s'.Live k) : s'.SourcesLive :=
  fun k hk => hlive k (hjobs k hk) (h k (hjobs k hk))

/-! ## The steps -/

theorem startTask_live (h : s.SourcesLive) (hi : s.Live i) : (s.startTask i).SourcesLive := by
  have hkeeps : KeepsRefs fun src => { src with starts := src.starts + 1 } := fun _ => ⟨rfl, rfl⟩
  intro k hk
  obtain ⟨job, hjob, rfl, hphase⟩ := hk
  have hlive : s.Live job.src := by
    rcases List.mem_append.mp hjob with hold | hnew
    · exact h job.src ⟨job, hold, rfl, hphase⟩
    · rw [List.mem_singleton.mp hnew]
      exact hi
  exact hkeeps.live hlive

theorem addSrc_live {src : TaskSrc} (h : s.SourcesLive) (hi : s.Live i) :
    (s.addSrc i src answer).SourcesLive := by
  have hkeeps : KeepsRefs fun src : TaskSrc =>
    { src with ev := true, fd := some answer.fd, counter := 0 } := fun _ => ⟨rfl, rfl⟩
  unfold addSrc
  split
  next => exact h
  next =>
    have hlive : (s.modify i _).SourcesLive := h.mono (fun _ => id) fun _ _ => hkeeps.live
    dsimp only
    split
    next => exact startTask_live hlive (hkeeps.live hi)
    next => exact hlive

@[simp] theorem addSrc_main {src : TaskSrc} : (s.addSrc i src answer).main = s.main := by
  unfold addSrc
  split
  next => rfl
  next =>
    dsimp only
    split <;> rfl

theorem addSrc_registered {src : TaskSrc} {k : ℕ} (h : s.IsRegistered k) :
    (s.addSrc i src answer).IsRegistered k := by
  have hkeeps : KeepsRefs fun src : TaskSrc =>
    { src with ev := true, fd := some answer.fd, counter := 0 } := fun _ => ⟨rfl, rfl⟩
  have hstarts : KeepsRefs fun src => { src with starts := src.starts + 1 } := fun _ => ⟨rfl, rfl⟩
  unfold addSrc
  split
  next => exact h
  next =>
    dsimp only
    split
    next => exact hstarts.registered (hkeeps.registered h)
    next => exact hkeeps.registered h

theorem rmSrc_keepsRefs : KeepsRefs fun src : TaskSrc =>
    if src.ev then { src with ev := false, fd := none, counter := 0 } else src := by
  intro src
  dsimp only
  split
  next => exact ⟨rfl, rfl⟩
  next => exact ⟨rfl, rfl⟩

theorem dropSrc_live {k : ℕ} (hk : k = i → s.HasEvents 0 i) (h : s.Live k) :
    (s.dropSrc i).Live k := by
  refine live_modify (fun src hsrc heq _ => ?_) h
  obtain ⟨src', hsrc', hevents⟩ := hk heq.symm
  rw [heq, hsrc] at hsrc'
  cases hsrc'
  exact Nat.lt_of_lt_of_le hevents (Nat.le_add_left _ _)

theorem registered_sources {pass : List ℕ} (hpass : pass.Perm (s.sources m)) (hi : i ∈ pass) :
    s.IsRegistered i := by
  have hmem := (List.mem_filter.mp (hpass.mem_iff.mp hi)).2
  obtain ⟨src, hsrc, hbits⟩ := (Option.any_eq_true _ _).mp hmem
  exact ⟨src, hsrc, (of_decide_eq_true hbits).2⟩

theorem register_owned {tid : ℤ} {inserted : Bool} (h : s.Owned) (hmain : s.main = .idle) :
    (s.register m tid inserted answer).Owned := by
  unfold register
  split
  next =>
    have hold : ∀ k, s.Live k → (s.insert (.new m tid)).Live k := by
      intro k ⟨old, hk, hrefs⟩
      refine ⟨old, ?_, hrefs⟩
      rw [insert, List.getElem?_append_left (List.getElem?_eq_some_iff.mp hk).1, hk]
    have hlive : (s.insert (.new m tid)).SourcesLive :=
      h.live.mono (fun _ => id) fun k _ => hold k
    dsimp only
    split
    next =>
      refine ⟨addSrc_live hlive ⟨_, List.getElem?_concat_length, Nat.zero_lt_one⟩, ?_⟩
      intro m rest hadding
      rw [addSrc_main] at hadding
      cases hmain.symm.trans hadding
    next =>
      refine ⟨hlive, ?_⟩
      intro m rest hadding
      cases hmain.symm.trans hadding
  next => exact h

theorem mainStep_owned (h : s.Owned) (hkeeps : s.KeepsSources (.main answer))
    (hstep : s.mainStep answer s.main = some s') : s'.Owned := by
  unfold KeepsSources at hkeeps
  cases hmain : s.main with
  | idle =>
      rw [hmain] at hstep
      cases hstep
  | adding m rest =>
      rw [hmain] at hstep
      cases rest with
      | nil =>
          cases hstep
          refine ⟨h.live.mono ?_ ?_, nofun⟩
          · split <;> exact fun _ => id
          · split <;> exact fun _ _ => id
      | cons i rest =>
          have hpass := h.pass m (i :: rest) hmain
          simp only [mainStep] at hstep
          split at hstep
          next => cases hstep
          next src hsrc =>
            cases hstep
            refine ⟨addSrc_live h.live (hpass i List.mem_cons_self).live, ?_⟩
            intro m' rest' hadding k hk
            cases hadding
            exact addSrc_registered (hpass k (List.mem_cons_of_mem i hk))
  | removing m rest =>
      rw [hmain] at hstep
      cases rest with
      | nil =>
          cases hstep
          refine ⟨h.live.mono ?_ ?_, nofun⟩
          · split <;> exact fun _ => id
          · split <;> exact fun _ _ => id
      | cons i rest =>
          cases hstep
          exact ⟨h.live.mono (fun _ => id) fun _ _ => rmSrc_keepsRefs.live, nofun⟩
  | stopping m next rest =>
      rw [hmain] at hstep hkeeps
      cases rest with
      | nil =>
          cases hstep
          exact ⟨h.live.mono (fun _ => id) fun _ _ => id, nofun⟩
      | cons i rest =>
          cases hstep
          refine ⟨h.live.mono (fun _ => id) fun k hk => dropSrc_live ?_, nofun⟩
          rintro rfl
          exact hkeeps hk

theorem pushed_live {k : ℕ} (h : s.Live k ∨ k = i ∧ ∃ src, s.srcs[k]? = some src) :
    (s.modify i fun src =>
      { src with counter := 0, events := src.events + 1, received := src.received + 1 }).Live k := by
  rcases h with ⟨src, hsrc, hrefs⟩ | ⟨rfl, src, hsrc⟩
  · refine live_modify (fun src _ _ _ => ?_) ⟨src, hsrc, hrefs⟩
    exact Nat.lt_of_lt_of_le (Nat.succ_pos _) (Nat.le_add_left _ _)
  · refine ⟨_, by rw [modify_srcs, hsrc]; rfl, ?_⟩
    dsimp only
    rw [if_pos rfl]
    exact Nat.lt_of_lt_of_le (Nat.succ_pos _) (Nat.le_add_left _ _)

theorem receive_live {src : TaskSrc} {removed : Option ℕ} (h : s.SourcesLive)
    (hsrc : s.srcs[i]? = some src) (hkeeps : s.KeepsSources (.receive i removed))
    (hstep : s.receive i src removed = some s') : s'.SourcesLive := by
  unfold receive at hstep
  cases removed with
  | none =>
      cases hstep
      exact h.mono (fun _ => id) fun k _ hk => pushed_live (.inl hk)
  | some r =>
      dsimp only at hstep
      split at hstep
      next => cases hstep
      next src' hsrc' =>
        split at hstep
        next =>
          cases hstep
          refine h.mono (fun _ => id) fun k hunfinished hk => pushed_live ?_
          by_cases hki : k = i
          · subst hki
            refine .inr ⟨rfl, ?_⟩
            rw [dropSrc, modify_srcs, hsrc]
            exact ⟨_, rfl⟩
          · refine .inl (dropSrc_live ?_ hk)
            rintro rfl
            exact hkeeps hki hunfinished
        next => cases hstep

theorem receive_main {src : TaskSrc} {removed : Option ℕ}
    (hstep : s.receive i src removed = some s') : s'.main = s.main := by
  unfold receive at hstep
  cases removed with
  | none =>
      cases hstep
      rfl
  | some r =>
      dsimp only at hstep
      split at hstep
      next => cases hstep
      next =>
        split at hstep
        next =>
          cases hstep
          rfl
        next => cases hstep

theorem release_live (h : s.SourcesLive) (hkeeps : s.KeepsSources (.release i)) :
    (s.modify i fun src => { src with events := src.events - 1 }).SourcesLive := by
  refine h.mono (fun _ => id) fun k hunfinished hk => live_modify ?_ hk
  rintro src hsrc rfl -
  unfold TaskSrc.refs
  rcases hkeeps hunfinished with ⟨src', hsrc', hregistered⟩ | ⟨src', hsrc', hevents⟩
  · rw [hsrc] at hsrc'
    cases hsrc'
    dsimp only
    rw [if_pos hregistered]
    exact Nat.lt_of_lt_of_le Nat.zero_lt_one (Nat.le_add_right _ _)
  · rw [hsrc] at hsrc'
    cases hsrc'
    exact Nat.lt_of_lt_of_le (Nat.sub_pos_of_lt hevents) (Nat.le_add_left _ _)

theorem unfinished_setJob {job : TaskJob} {phase : TaskPhase} {k : ℕ}
    (hjob : s.jobs[j]? = some job) (hphase : job.phase.unfinished)
    (h : (s.setJob j job.src phase).Unfinished k) : s.Unfinished k := by
  obtain ⟨job', hmem, rfl, hunfinished⟩ := h
  rcases List.mem_or_eq_of_mem_set hmem with hold | rfl
  · exact ⟨job', hold, rfl, hunfinished⟩
  · exact ⟨job, List.mem_of_getElem? hjob, rfl, hphase⟩

theorem jobStep_live {job : TaskJob} (h : s.SourcesLive) (hjob : s.jobs[j]? = some job)
    (hstep : s.jobStep j job = some s') : s'.SourcesLive ∧ s'.main = s.main ∧
      ∀ k, s.IsRegistered k → s'.IsRegistered k := by
  unfold jobStep at hstep
  split at hstep
  next hphase =>
    cases hstep
    have hkeeps : KeepsRefs fun src => { src with executed := src.executed + 1 } :=
      fun _ => ⟨rfl, rfl⟩
    refine ⟨h.mono (fun k hk => ?_) fun k _ => hkeeps.live, rfl, fun k => hkeeps.registered⟩
    exact unfinished_setJob (s := s) hjob (by rw [hphase]; rfl) hk
  next hphase =>
    cases hstep
    refine ⟨h.mono (fun k hk => ?_) fun _ _ => id, rfl, fun _ => id⟩
    exact unfinished_setJob hjob (by rw [hphase]; rfl) hk
  next hphase =>
    cases hstep
    have hkeeps : KeepsRefs fun src =>
        if src.fd.isSome then { src with counter := src.counter + 1 } else src := by
      intro src
      dsimp only
      split <;> exact ⟨rfl, rfl⟩
    refine ⟨h.mono (fun k hk => ?_) fun k _ => hkeeps.live, rfl, fun k => hkeeps.registered⟩
    exact unfinished_setJob (s := s) hjob (by rw [hphase]; rfl) hk
  next => cases hstep
  next => cases hstep

theorem dropQueued_unfinished {k : ℕ} (h : { s with jobs := s.jobs.map dropQueued }.Unfinished k) :
    s.Unfinished k := by
  obtain ⟨job', hmem, rfl, hunfinished⟩ := h
  obtain ⟨job, hjob, rfl⟩ := List.mem_map.mp hmem
  unfold dropQueued at hunfinished ⊢
  split at hunfinished
  next => cases hunfinished
  next hphase => exact ⟨job, hjob, by rw [if_neg hphase], hunfinished⟩

theorem call_owned {states : List ModState} {pass : List ℕ} {main : TaskMain} (h : s.Owned)
    (hmain : ∀ m' rest, main = .adding m' rest → m' = m ∧ rest = pass)
    (hstep : s.call m states pass main = some s') : s'.Owned := by
  unfold call at hstep
  split at hstep
  next hcall =>
    cases hstep
    refine ⟨h.live, ?_⟩
    intro m' rest hadding i hi
    obtain ⟨rfl, rfl⟩ := hmain m' rest hadding
    exact registered_sources (s := s) hcall.2.2 hi
  next => cases hstep

theorem owned_step (h : s.Owned) (hkeeps : s.KeepsSources e) (hstep : s.step e = some s') :
    s'.Owned := by
  have hidle : ∀ t : TaskState, s.main = .idle → t.main = s.main → t.SourcesLive → t.Owned := by
    intro t hidle hmain hlive
    refine ⟨hlive, fun m rest hadding => ?_⟩
    cases (hmain.trans hidle).symm.trans hadding
  cases e with
  | register m tid inserted answer =>
      simp only [step] at hstep
      split at hstep
      next hguard =>
        cases hstep
        exact register_owned h hguard.1
      next => cases hstep
  | start m pass | resume m pass =>
      refine call_owned h ?_ hstep
      rintro m' rest heq
      cases heq
      exact ⟨rfl, rfl⟩
  | pause m pass | stop m pass | deregister m pass =>
      refine call_owned h ?_ hstep
      rintro m' rest heq
      cases heq
  | main answer => exact mainStep_owned h hkeeps hstep
  | receive i removed =>
      simp only [step] at hstep
      split at hstep
      next => cases hstep
      next src hsrc =>
        split at hstep
        next hguard =>
          exact hidle _ hguard.1 (receive_main hstep) (receive_live h.live hsrc hkeeps hstep)
        next => cases hstep
  | receiveError i =>
      simp only [step] at hstep
      split at hstep
      next => cases hstep
      next src hsrc =>
        split at hstep
        next hguard =>
          cases hstep
          have hrefs : KeepsRefs fun src => { src with counter := 0 } := fun _ => ⟨rfl, rfl⟩
          exact hidle _ hguard.1 rfl (h.live.mono (fun _ => id) fun _ _ => hrefs.live)
        next => cases hstep
  | release i =>
      simp only [step] at hstep
      split at hstep
      next => cases hstep
      next src hsrc =>
        split at hstep
        next hguard =>
          cases hstep
          exact hidle _ hguard.1 rfl (release_live h.live hkeeps)
        next => cases hstep
  | job j =>
      simp only [step] at hstep
      split at hstep
      next => cases hstep
      next job hjob =>
        obtain ⟨hlive, hmain, hregistered⟩ := jobStep_live h.live hjob hstep
        refine ⟨hlive, ?_⟩
        rw [hmain]
        exact fun m rest hadding i hi => hregistered i (h.pass m rest hadding i hi)
  | freePool =>
      simp only [step] at hstep
      split at hstep
      next hguard =>
        cases hstep
        exact hidle _ hguard.1 rfl (h.live.mono (fun _ => dropQueued_unfinished) fun _ _ => id)
      next => cases hstep

theorem owned_initial (mods : ℕ) : (initial mods).Owned where
  live := by
    rintro i ⟨job, hjob, -⟩
    cases hjob
  pass := nofun

theorem sourcesLive_of_keepsSources (mods : ℕ) (events : List TaskEvent) {s : TaskState}
    (hmeets : Meets step KeepsSources (initial mods) events)
    (hrun : run step (initial mods) events = some s) : s.SourcesLive :=
  (invariant_of_run (fun _ _ _ => owned_step) events (owned_initial mods) hmeets hrun).live

/-- A task is registered on a running module, executed and received; then the module stops. -/
def finishedTask : List TaskEvent :=
  [.start 0 [], .main ⟨true, 0, true, true⟩, .register 0 5 true ⟨true, 9, true, true⟩, .job 0,
    .job 0, .job 0, .receive 0 none, .stop 0 [0], .main ⟨true, 0, true, true⟩,
    .main ⟨true, 0, true, true⟩, .release 0]

def finishedTaskEnd : TaskState := (run step (initial 1) finishedTask).getD (initial 1)

theorem sourcesLive_finishedTask :
    finishedTaskEnd.jobs = [⟨0, .finished⟩] ∧ finishedTaskEnd.SourcesLive :=
  ⟨by decide, sourcesLive_of_keepsSources 1 finishedTask (by decide) (by decide)⟩

/-- The module stops while a worker runs the task. -/
def stoppedTask : List TaskEvent :=
  [.start 0 [], .main ⟨true, 0, true, true⟩, .register 0 5 true ⟨true, 9, true, true⟩, .job 0,
    .stop 0 [0], .main ⟨true, 0, true, true⟩]

def stoppedTaskEnd : TaskState := (run step (initial 1) stoppedTask).getD (initial 1)

theorem not_sourcesLive_stoppedTask :
    ¬ ∀ mods events s, run step (initial mods) events = some s → s.SourcesLive := by
  intro h
  have hlive := h 1 stoppedTask stoppedTaskEnd (by decide)
  obtain ⟨src, hsrc, hrefs⟩ := hlive 0 (by decide)
  have hgone : (stoppedTaskEnd.srcs[0]?).map TaskSrc.refs = some 0 := by decide
  rw [hsrc] at hgone
  exact absurd (Option.some.inj hgone) (Nat.ne_of_gt hrefs)

end TaskState

end Libmodule
