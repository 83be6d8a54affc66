import Libmodule.Evolution
import Libmodule.Execution
import Mathlib.Data.Finset.Card

/-!
# The number of running modules

The loop of a context ends when its count of running modules is zero.  The
count is right in every state of every run, unless a module that runs is started
once more, becomes a zombie, or is destroyed.
-/

namespace Libmodule

open RefHeap Reentrant

/-- The module at `m` belongs to the context `c` and runs. -/
def RunningIn (h : Heap Obj) (c m : ℕ) : Prop :=
  ∃ x, modAt h m = some x ∧ x.ctx = c ∧ x.state = .running

def Runs (h : Heap Obj) (m : ℕ) : Prop := (modAt h m).map Mod.state = some .running

instance (h : Heap Obj) (m : ℕ) : Decidable (Runs h m) := inferInstanceAs (Decidable (_ = _))

theorem RunningIn.runs {h : Heap Obj} {c m : ℕ} (hm : RunningIn h c m) : Runs h m := by
  obtain ⟨x, hx, -, hstate⟩ := hm
  simp [Runs, hx, hstate]

theorem RunningIn.lt_length {h : Heap Obj} {c m : ℕ} (hm : RunningIn h c m) : m < h.length := by
  obtain ⟨x, hx, -⟩ := hm
  obtain ⟨cell, hcell, -⟩ := Option.map_eq_some_iff.mp (modAt_eq_some.mp hx)
  exact RefHeap.lt_length hcell

open Classical in
/-- The running modules of a context. -/
noncomputable def runningIn (w : World) (c : ℕ) : Finset ℕ :=
  (Finset.range w.heap.length).filter (RunningIn w.heap c)

@[simp] theorem mem_runningIn {w : World} {c m : ℕ} :
    m ∈ runningIn w c ↔ RunningIn w.heap c m := by
  simp only [runningIn, Finset.mem_filter, Finset.mem_range, and_iff_right_iff_imp]
  exact RunningIn.lt_length

/-- Every context has as many running modules as it says. -/
def CountsRunning (w : World) : Prop :=
  ∀ c x, ctxAt w.heap c = some x → x.runningModules = (runningIn w c).card

/-- The step neither starts nor gives up a module that runs. -/
def CountsRight (step : Step LibLang World) : Prop :=
  match step.act with
  | .op (.markRunning m) => ¬ Runs step.before.heap m
  | .op (.markZombie m) => ¬ Runs step.before.heap m
  | .op o => ∀ m < step.before.heap.length, Runs step.before.heap m → ¬ o.Destroys step.before m
  | _ => True

theorem card_erase_add (s : Finset ℕ) (m : ℕ) :
    (s.erase m).card + (if m ∈ s then 1 else 0) = s.card := by
  split
  next hm => exact Finset.card_erase_add_one hm
  next hm => rw [Finset.erase_eq_of_notMem hm, Nat.add_zero]

instance (step : Step LibLang World) : Decidable (CountsRight step) := by
  unfold CountsRight
  split <;> infer_instance

/-- The count is right, and no module runs in a context that does not exist yet. -/
structure Counted (w : World) : Prop where
  settled : Settled w.heap
  count : CountsRunning w
  inCtx : ∀ c m, RunningIn w.heap c m → c < w.heap.length

theorem counted_initial (host : Host) (script : List Reaction) (polls : List PollAnswer)
    (faults : List ℤ) : Counted (World.initial host script polls faults) where
  settled := settled_initial host script polls faults
  count := by
    intro c x hx
    obtain ⟨cell, hcell, -⟩ := Option.map_eq_some_iff.mp (ctxAt_eq_some.mp hx)
    exact absurd (lt_length hcell) (by simp [World.initial])
  inCtx := fun c m hm => absurd hm.lt_length (by simp [World.initial])

section Step

variable {w w' : World}

/-- While no state changes, the modules that run are those that did. -/
theorem runningIn_of_evolves (h : Evolves none w w')
    (hlive : ∀ m, Runs w.heap m → Live w'.heap m) (c m : ℕ) :
    RunningIn w'.heap c m ↔ RunningIn w.heap c m := by
  constructor
  · rintro ⟨x', hx', hctx, hstate⟩
    rcases h.become m (.mod x') (modAt_eq_some.mp hx') with ⟨o, ho, hbecome⟩ | ⟨-, hfresh⟩
    · cases o with
      | mod x =>
          obtain ⟨hsame, hsameCtx⟩ := hbecome
          exact ⟨x, modAt_eq_some.mpr ho, hsameCtx.symm.trans hctx, (hsame nofun).symm.trans hstate⟩
      | _ => exact False.elim hbecome
    · exact absurd hstate (hfresh rfl)
  · intro hm
    obtain ⟨x, hx, hctx, hstate⟩ := hm
    obtain ⟨o', ho', hbecome⟩ :=
      h.become_of_live (modAt_eq_some.mp hx) (hlive m (RunningIn.runs ⟨x, hx, hctx, hstate⟩))
    cases o' with
    | mod x' =>
        obtain ⟨hsame, hsameCtx⟩ := hbecome
        exact ⟨x', modAt_eq_some.mpr ho', hsameCtx.trans hctx, (hsame nofun).trans hstate⟩
    | _ => exact False.elim hbecome

theorem counted_of_evolves (hw : Counted w) (h : Evolves none w w')
    (hlive : ∀ m, Runs w.heap m → Live w'.heap m) : Counted w' := by
  have hsame := runningIn_of_evolves h hlive
  have hfinset : ∀ c, runningIn w' c = runningIn w c := by
    intro c
    ext m
    simp [hsame c m]
  refine ⟨h.settled, ?_, fun c m hm => (hw.inCtx c m ((hsame c m).mp hm)).trans_le h.grows⟩
  intro c x' hx'
  rw [hfinset c]
  rcases h.become c (.ctx x') (ctxAt_eq_some.mp hx') with ⟨o, ho, hbecome⟩ | ⟨hnew, hfresh⟩
  · cases o with
    | ctx x => exact (hbecome rfl).trans (hw.count c x (ctxAt_eq_some.mpr ho))
    | _ => exact False.elim hbecome
  · rw [show x'.runningModules = 0 from hfresh rfl, eq_comm, Finset.card_eq_zero]
    ext m
    simp only [mem_runningIn, Finset.notMem_empty, iff_false]
    intro hm
    exact absurd (hw.inCtx c m hm) (by omega)

@[simp] theorem runningIn_modify_ctx {h : Heap Obj} {c p m : ℕ} {f : Ctx → Ctx} :
    RunningIn (modify h p (Obj.mapCtx f)) c m ↔ RunningIn h c m := by
  simp only [RunningIn, modAt_modify_ctx]

theorem runningIn_modify_state {h : Heap Obj} {m c p : ℕ} {x : Mod} {state : ModState}
    (hx : modAt h m = some x) :
    RunningIn (modify h m (Obj.mapMod (fun x => { x with state := state }))) c p ↔
      if p = m then state = .running ∧ x.ctx = c else RunningIn h c p := by
  simp only [RunningIn, modAt_modify_mod]
  by_cases hpm : p = m
  · subst hpm
    simp [hx, and_comm]
  · rw [if_neg (Ne.symm hpm), if_neg hpm]

/-- Only `m` changes its state, and its context counts it as it counted it before. -/
theorem counted_of_marked (now : Prop) [Decidable now] {m : ℕ} {x : Mod} (hw : Counted w)
    (hsettled : Settled w'.heap) (hlength : w'.heap.length = w.heap.length)
    (hx : modAt w.heap m = some x) (hnow : now → x.ctx < w.heap.length)
    (hrunning : ∀ c p, RunningIn w'.heap c p ↔
      if p = m then now ∧ x.ctx = c else RunningIn w.heap c p)
    (hcount : ∀ c y', ctxAt w'.heap c = some y' → ∃ y, ctxAt w.heap c = some y ∧
      y'.runningModules + (if x.state = .running ∧ x.ctx = c then 1 else 0) =
        y.runningModules + (if now ∧ x.ctx = c then 1 else 0)) : Counted w' := by
  refine ⟨hsettled, ?_, ?_⟩
  · intro c y' hy'
    obtain ⟨y, hy, hcounts⟩ := hcount c y' hy'
    have hbefore : m ∈ runningIn w c ↔ x.state = .running ∧ x.ctx = c := by
      simp [RunningIn, hx, and_comm]
    have hafter : m ∈ runningIn w' c ↔ now ∧ x.ctx = c := by simp [hrunning]
    have hothers : (runningIn w' c).erase m = (runningIn w c).erase m := by
      ext p
      by_cases hpm : p = m
      · simp [hpm]
      · simp [hrunning, hpm]
    have hsum := card_erase_add (runningIn w c) m
    have hsum' := card_erase_add (runningIn w' c) m
    simp only [hbefore, hafter, hothers] at hsum hsum'
    have hctx := hw.count c y hy
    omega
  · intro c p hp
    rw [hlength]
    rw [hrunning] at hp
    split at hp
    next => exact hp.2 ▸ hnow hp.1
    next => exact hw.inCtx c p hp

theorem counted_markRunning {m : ℕ} (hw : Counted w) (hm : ¬ Runs w.heap m)
    (h : (Op.markRunning m).exec w = some ((), w')) : Counted w' := by
  have hsettled := (Evolves.markRunning hw.settled h).settled
  simp only [Op.exec, Option.bind_eq_bind, Option.bind_eq_some_iff, Option.some.injEq] at h
  obtain ⟨x, hx, u, hmod, v, hctx, h⟩ := h
  cases h
  obtain ⟨-, rfl⟩ := World.setMod_eq_some.mp hmod
  obtain ⟨⟨y, hy⟩, rfl⟩ := World.setCtx_eq_some.mp hctx
  rw [ctxAt_modify_mod] at hy
  have hstate : x.state ≠ .running := fun hstate => hm (by simp [Runs, hx, hstate])
  apply counted_of_marked True hw hsettled (by simp) hx
    (fun _ => ctxAt_lt_length hy)
  · intro c p
    rw [runningIn_modify_ctx, runningIn_modify_state hx]
    simp
  · intro c z hz
    simp only [ctxAt_modify_ctx, ctxAt_modify_mod] at hz
    split at hz
    next hc =>
      obtain ⟨z₀, hz₀, rfl⟩ := Option.map_eq_some_iff.mp hz
      exact ⟨z₀, hz₀, by simp [hstate, hc]⟩
    next hc => exact ⟨z, hz, by simp [hc]⟩

/-- The count of the context of a running module is not zero. -/
theorem runningModules_pos {m : ℕ} {x : Mod} {y : Ctx} (hw : Counted w)
    (hx : modAt w.heap m = some x) (hstate : x.state = .running)
    (hy : ctxAt w.heap x.ctx = some y) : 0 < y.runningModules := by
  rw [hw.count x.ctx y hy, Finset.card_pos]
  exact ⟨m, mem_runningIn.mpr ⟨x, hx, rfl, hstate⟩⟩

theorem counted_markStopped {m : ℕ} {stopping : Bool} (hw : Counted w)
    (h : (Op.markStopped m stopping).exec w = some ((), w')) : Counted w' := by
  have hsettled := (Evolves.markStopped hw.settled h).settled
  simp only [Op.exec, Option.bind_eq_bind, Option.bind_eq_some_iff] at h
  obtain ⟨x, hx, h⟩ := h
  have hnow : (if stopping then ModState.stopped else .paused) ≠ .running := by
    cases stopping <;> simp
  split at h
  next hstate =>
    simp only [Option.bind_eq_some_iff, Option.some.injEq] at h
    obtain ⟨u, hctx, v, hmod, h⟩ := h
    cases h
    obtain ⟨⟨y, hy⟩, rfl⟩ := World.setCtx_eq_some.mp hctx
    obtain ⟨-, rfl⟩ := World.setMod_eq_some.mp hmod
    have hpos := runningModules_pos hw hx hstate hy
    apply counted_of_marked False hw hsettled (by simp) hx (by simp)
    · intro c p
      rw [runningIn_modify_state (x := x) (by rw [modAt_modify_ctx, hx]), runningIn_modify_ctx]
      simp [hnow]
    · intro c z hz
      simp only [ctxAt_modify_ctx, ctxAt_modify_mod] at hz
      split at hz
      next hc =>
        subst hc
        rw [hy] at hz
        cases hz
        refine ⟨y, hy, ?_⟩
        simp only [hstate, and_self, if_true, false_and, if_false]
        omega
      next hc => exact ⟨z, hz, by simp [hc]⟩
  next hstate =>
    simp only [Option.bind_eq_some_iff, Option.some.injEq] at h
    obtain ⟨_, rfl, v, hmod, h⟩ := h
    cases h
    obtain ⟨-, rfl⟩ := World.setMod_eq_some.mp hmod
    apply counted_of_marked False hw hsettled (by simp) hx (by simp)
    · intro c p
      rw [runningIn_modify_state hx]
      simp [hnow]
    · intro c z hz
      rw [ctxAt_modify_mod] at hz
      exact ⟨z, hz, by simp [hstate]⟩

theorem counted_markZombie {m : ℕ} (hw : Counted w) (hm : ¬ Runs w.heap m)
    (h : (Op.markZombie m).exec w = some ((), w')) : Counted w' := by
  have hsettled := (Op.evolves hw.settled h).settled
  obtain ⟨u, hmod, h⟩ := Option.map_eq_some_iff.mp h
  cases h
  obtain ⟨⟨x, hx⟩, rfl⟩ := World.setMod_eq_some.mp hmod
  have hstate : x.state ≠ .running := fun hstate => hm (by simp [Runs, hx, hstate])
  apply counted_of_marked False hw hsettled (by simp) hx (by simp)
  · intro c p
    rw [runningIn_modify_state hx]
    simp
  · intro c z hz
    rw [ctxAt_modify_mod] at hz
    exact ⟨z, hz, by simp [hstate]⟩

end Step

/-- One operation keeps the count right. -/
theorem counted_exec {o : Op} {w w' : World} {r : o.Resp} (hw : Counted w)
    (hright : CountsRight ⟨.op o, w⟩) (h : o.exec w = some (r, w')) : Counted w' := by
  cases o with
  | markRunning => exact counted_markRunning hw hright h
  | markStopped => exact counted_markStopped hw h
  | markZombie => exact counted_markZombie hw hright h
  | _ =>
      apply counted_of_evolves hw (Op.evolves hw.settled h)
      intro m hm
      apply Op.live_of_not_destroys h
      apply hright m _ hm
      obtain ⟨x, hx, -⟩ := Option.map_eq_some_iff.mp hm
      obtain ⟨cell, hcell, -⟩ := Option.map_eq_some_iff.mp (modAt_eq_some.mp hx)
      exact lt_length hcell

theorem machine_keeps_counted : machine.Keeps CountsRight Counted where
  exec := fun _ _ _ _ hw hright h => counted_exec hw hright h
  react := by
    intro hook w hw
    show Counted (World.react hook w).2.2
    unfold World.react
    split
    next => exact hw
    next => exact ⟨hw.settled, hw.count, hw.inCtx⟩

/-- In every run, whatever the callbacks do, the counts are right in every state as
long as no running module is started, given up or destroyed. -/
theorem countsRunning_of_countsRight (host : Host) (script : List Reaction)
    (polls : List PollAnswer) (faults : List ℤ) (depth : ℕ) (calls : List Call)
    (hsteps : ∀ step ∈ (machine.runCalls depth calls
      (World.initial host script polls faults)).steps, CountsRight step) :
    (∀ step ∈ (machine.runCalls depth calls (World.initial host script polls faults)).steps,
      CountsRunning step.before) ∧
    CountsRunning
      (machine.runCalls depth calls (World.initial host script polls faults)).state := by
  have hkeeps := machine_keeps_counted.runCalls depth calls
    (counted_initial host script polls faults) hsteps
  exact ⟨fun step hstep => (hkeeps.1 step hstep).count, hkeeps.2.count⟩

/-- A module that its first hook starts, and that is paused, resumed and deregistered
in a loop. -/
def countedCalls : List Call :=
  [.mCtxRegister "ctx" M_CTX_PERSIST, .mModRegister "a" true (some ⟨true, true, true, true⟩) 0,
    .mCtxDispatch, .mModPause (some 1), .mModResume (some 1), .mModStop (some 1),
    .mModStart (some 1), .mModDeregister (some 1)]

theorem countsRunning_countedCalls :
    (∀ step ∈ (machine.runCalls 8 countedCalls (startFrom [] [])).steps,
      CountsRunning step.before) ∧
    CountsRunning (machine.runCalls 8 countedCalls (startFrom [] [])).state :=
  countsRunning_of_countsRight plainHost [] [] [] 8 countedCalls (by decide +kernel)

/-- A module that starts itself again when it is stopped, and is deregistered. -/
def selfStart : World :=
  (machine.runCalls 8
    [.mCtxRegister "ctx" M_CTX_PERSIST,
      .mModRegister "a" true (some ⟨false, false, true, true⟩) 0, .mModStart (some 1),
      .mModDeregister (some 1)] (startFrom [⟨[.mModStart (some 1)], true⟩] [])).state

/-- Its context goes on counting it. -/
theorem not_countsRunning_selfStart :
    ¬ ∀ host script polls depth calls,
      CountsRunning (machine.runCalls depth calls (World.initial host script polls [])).state := by
  intro hall
  have hcounts : CountsRunning selfStart := by
    rw [selfStart, startFrom]
    exact hall plainHost _ _ 8 _
  have hone : (ctxAt selfStart.heap 0).map Ctx.runningModules = some 1 := by decide +kernel
  obtain ⟨x, hx, hxone⟩ := Option.map_eq_some_iff.mp hone
  have hnone : ∀ m < selfStart.heap.length, ¬ Runs selfStart.heap m := by decide +kernel
  have hempty : runningIn selfStart 0 = ∅ := by
    ext m
    simp only [mem_runningIn, Finset.notMem_empty, iff_false]
    intro hm
    exact hnone m hm.lt_length hm.runs
  have hcard := hcounts 0 x hx
  rw [hempty, hxone, Finset.card_empty] at hcard
  exact absurd hcard (by decide)

end Libmodule
