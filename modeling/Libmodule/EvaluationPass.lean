import Libmodule.ModuleIteration

/-!
# Evaluation passes

When a loop starts, and after every batch of events, `evaluate_module` is called
on the modules of a context.  What it returns for an idle module is what the
module's `on_eval` hook says, and `m_map_iterate` takes every answer but zero for
a request to stop.
-/

namespace Libmodule

open RefHeap Reentrant

/-- The context `c` has the module `m`, which is idle. -/
def IdleIn (w : World) (c m : ℕ) : Prop :=
  m ∈ ((ctxAt w.heap c).map (fun x => x.modules.values)).getD [] ∧
    (modAt w.heap m).map Mod.state = some .idle

instance (w : World) (c m : ℕ) : Decidable (IdleIn w c m) :=
  inferInstanceAs (Decidable (_ ∧ _))

theorem IdleIn.ctx {w : World} {c m : ℕ} (h : IdleIn w c m) : ∃ x, ctxAt w.heap c = some x := by
  cases hx : ctxAt w.heap c with
  | none => simp [IdleIn, hx] at h
  | some x => exact ⟨x, rfl⟩

theorem IdleIn.lt_length {w : World} {c m : ℕ} (h : IdleIn w c m) : m < w.heap.length := by
  obtain ⟨x, hx, -⟩ := Option.map_eq_some_iff.mp h.2
  obtain ⟨cell, hcell, -⟩ := Option.map_eq_some_iff.mp (modAt_eq_some.mp hx)
  exact RefHeap.lt_length hcell

/-- The idle module of a call has had its `on_eval` hook called, and has been started if it
has none or if the hook says so. -/
structure Evaluated (visit : Visit) : Prop where
  idle : (modAt visit.state.heap visit.mod).map Mod.state = some .idle
  called : ∀ x, modAt visit.state.heap visit.mod = some x → x.hook.onEval →
    ∃ step ∈ (visit.run .evaluateModule).steps, step.act = .hook (.onEval visit.mod)
  absent : ∀ x, modAt visit.state.heap visit.mod = some x → x.hook.onEval = false →
    ∀ ret u, (optionalHook visit.mod .eval).Ends (handler visit.depth) visit.state ret u →
      ret = 0
  started : ∀ u, (optionalHook visit.mod .eval).Ends (handler visit.depth) visit.state 0 u →
    ∃ step ∈ (visit.run .evaluateModule).steps, step.act = .op (.pipe visit.mod)

/-- A pass evaluates every module that is idle at its start and still registered and idle
at its end. -/
def EvaluatesIdle (step : Step LibLang World) : Prop :=
  ∀ c, step.act = .call (.iterate .evaluateModule c 0) → ∀ depth ret w',
    (iterate .evaluateModule c 0).Ends (handler depth) step.before ret w' →
    ∀ m, IdleIn step.before c m → IdleIn w' c m →
      ∃ visit ∈ passVisits .evaluateModule c depth 0 step.before,
        visit.mod = m ∧ Evaluated visit

/-- What ends a pass before the end of the table, at the entry of `m` at `idx`: the hook of
`m` says no or deregisters it, or the callbacks register or deregister another module. -/
inductive Stops (c depth idx m : ℕ) (v : World) : ℤ → World → Prop where
  | refused {x : Mod} {ret : ℤ} {u : World} (hx : modAt v.heap m = some x)
      (hidle : x.state = .idle) (hret : ret ≠ 0)
      (hhook : (optionalHook m .eval).Ends (handler depth) v ret u) : Stops c depth idx m v ret u
  | changed {u : World} (hends : (evaluateModule m).Ends (handler depth) v 0 u)
      (hctx : ∃ x, ctxAt u.heap c = some x) (hnext : nextIdx v u c idx = none) :
      Stops c depth idx m v (-EACCES) u

/-- No pass stops while a module waits that was idle at its start. -/
def StopsLast (step : Step LibLang World) : Prop :=
  ∀ c, step.act = .call (.iterate .evaluateModule c 0) → ∀ depth,
    LeavesNone .evaluateModule c (IdleIn · c) (Stops c) depth 0 step.before
      (IdleIn step.before c)

/-! ## One turn -/

section Turn

variable {depth : ℕ} {v u w' : World} {m : ℕ} {ret : ℤ}

theorem evaluateModule_ends {x : Mod} (hx : modAt v.heap m = some x) (hidle : x.state = .idle) :
    (evaluateModule m).Ends (handler depth) v ret u ↔
      ∃ u₁, (optionalHook m .eval).Ends (handler depth) v ret u₁ ∧
        if ret = 0 then ∃ n, (start m true).Ends (handler depth) u₁ n u else u = u₁ := by
  unfold evaluateModule
  simp only [Prog.ends_bind, derefMod_ends]
  constructor
  · rintro ⟨y, _, ⟨hy, rfl⟩, h⟩
    cases hx.symm.trans hy
    rw [if_pos hidle] at h
    simp only [Prog.ends_bind] at h
    obtain ⟨n, u₁, hhook, h⟩ := h
    split at h
    next hzero =>
      simp only [Prog.ends_bind, Prog.ends_pure] at h
      obtain ⟨k, u₂, hstart, rfl, rfl⟩ := h
      exact ⟨u₁, hhook, by rw [if_pos hzero]; exact ⟨k, hstart⟩⟩
    next hzero =>
      obtain ⟨rfl, rfl⟩ := Prog.ends_pure.mp h
      exact ⟨u, hhook, by rw [if_neg hzero]⟩
  · rintro ⟨u₁, hhook, h⟩
    refine ⟨x, v, ⟨hx, rfl⟩, ?_⟩
    rw [if_pos hidle]
    simp only [Prog.ends_bind]
    refine ⟨ret, u₁, hhook, ?_⟩
    split
    next hzero =>
      rw [if_pos hzero] at h
      obtain ⟨n, hstart⟩ := h
      exact Prog.ends_bind.mpr ⟨n, u, hstart, Prog.ends_pure.mpr ⟨rfl, rfl⟩⟩
    next hzero =>
      rw [if_neg hzero] at h
      exact Prog.ends_pure.mpr ⟨rfl, h⟩

theorem evaluateModule_ends_other {x : Mod} (hx : modAt v.heap m = some x)
    (hidle : x.state ≠ .idle) :
    (evaluateModule m).Ends (handler depth) v ret u ↔ ret = 0 ∧ u = v := by
  unfold evaluateModule
  simp only [Prog.ends_bind, derefMod_ends]
  constructor
  · rintro ⟨y, _, ⟨hy, rfl⟩, h⟩
    cases hx.symm.trans hy
    rw [if_neg hidle] at h
    exact Prog.ends_pure.mp h
  · rintro ⟨rfl, rfl⟩
    exact ⟨x, u, ⟨hx, rfl⟩, by rw [if_neg hidle]; simp⟩

/-- `optional_hook` answers with zero or an error. -/
theorem optionalHook_nonpos {req : ModHookReq}
    (h : (optionalHook m req).Ends (handler depth) v ret u) : ret ≤ 0 := by
  unfold optionalHook memLock setCurrMod at h
  simp only [Prog.ends_bind] at h
  obtain ⟨_, _, -, r, _, ⟨_, _, -, x, _, -, b, _, -, _, _, -, h⟩, _, _, -, hret⟩ := h
  obtain ⟨rfl, -⟩ := Prog.ends_pure.mp hret
  split at h
  all_goals
    obtain ⟨y, _, -, h⟩ := h
    split at h
    all_goals
      obtain ⟨rfl, -⟩ := Prog.ends_pure.mp h
      decide

theorem evaluateModule_nonpos (h : (evaluateModule m).Ends (handler depth) v ret u) :
    ret ≤ 0 := by
  have hmod := h
  unfold evaluateModule at hmod
  simp only [Prog.ends_bind, derefMod_ends] at hmod
  obtain ⟨x, _, ⟨hx, rfl⟩, -⟩ := hmod
  by_cases hidle : x.state = .idle
  · obtain ⟨u₁, hhook, -⟩ := (evaluateModule_ends hx hidle).mp h
    exact optionalHook_nonpos hhook
  · rw [((evaluateModule_ends_other hx hidle).mp h).1]

/-- The module of the entry refuses, exactly when its evaluation does not answer with zero. -/
theorem evaluateModule_refused (hret : ret ≠ 0) :
    (evaluateModule m).Ends (handler depth) v ret u ↔
      ∃ x, modAt v.heap m = some x ∧ x.state = .idle ∧
        (optionalHook m .eval).Ends (handler depth) v ret u := by
  constructor
  · intro h
    have hmod := h
    unfold evaluateModule at hmod
    simp only [Prog.ends_bind, derefMod_ends] at hmod
    obtain ⟨x, _, ⟨hx, rfl⟩, -⟩ := hmod
    by_cases hidle : x.state = .idle
    · obtain ⟨u₁, hhook, h⟩ := (evaluateModule_ends hx hidle).mp h
      rw [if_neg hret] at h
      exact ⟨x, hx, hidle, h ▸ hhook⟩
    · exact absurd ((evaluateModule_ends_other hx hidle).mp h).1 hret
  · rintro ⟨x, hx, hidle, hhook⟩
    exact (evaluateModule_ends hx hidle).mpr ⟨u, hhook, by rw [if_neg hret]⟩

theorem modAt_refMod {p : ℕ} (h : (Op.refMod m).exec v = some ((), u)) :
    modAt u.heap p = modAt v.heap p := by
  simp only [Op.exec, World.ref, Option.bind_eq_bind, Option.bind_eq_some_iff, Option.some.injEq]
    at h
  obtain ⟨x, -, _, ⟨cell, hcell, rfl⟩, h⟩ := h
  cases h
  unfold modAt
  rw [val_put_same hcell]

theorem modAt_setCtx {c p : ℕ} {field : CtxField}
    (h : (Op.setCtx c field).exec v = some ((), u)) : modAt u.heap p = modAt v.heap p := by
  obtain ⟨u, hset, h⟩ := Option.map_eq_some_iff.mp h
  cases h
  obtain ⟨-, rfl⟩ := World.setCtx_eq_some.mp hset
  exact modAt_modify_ctx _ _ _ _

/-- `optional_hook` runs the hook on the module as it finds it; its answer is that of the
hook, unless the module is a zombie afterwards. -/
theorem optionalHook_run {req : ModHookReq} {x : Mod} (hx : modAt v.heap m = some x)
    (h : (optionalHook m req).Ends (handler depth) v ret u) :
    ∃ u₁ b u₂, (runHook m x.hook req).Ends (handler depth) u₁ b u₂ ∧
      (modAt u₁.heap m = some x) ∧
      (∀ Q, (optionalHook m req).Every (handler depth) Q v →
        (runHook m x.hook req).Every (handler depth) Q u₁) ∧
      ∃ y, modAt u₂.heap m = some y ∧
        ret = if y.state = .zombie then -ENOENT else if b then 0 else -1 := by
  unfold optionalHook memLock setCurrMod at h ⊢
  simp only [Prog.ends_bind, act_ends, derefMod_ends] at h
  obtain ⟨_, v₁, href, r, _, ⟨_, _, ⟨x₁, _, ⟨hx₁, rfl⟩, hset⟩, x₂, v₂, ⟨hx₂, rfl⟩, b, u₂, hhook,
    _, u₃, ⟨x₃, _, ⟨hx₃, rfl⟩, hunset⟩, y, _, ⟨hy, rfl⟩, hret⟩, _, _, -, hlast⟩ := h
  have hsame : modAt v₂.heap m = some x := by rw [modAt_setCtx hset, modAt_refMod href, hx]
  cases hsame.symm.trans hx₂
  obtain ⟨rfl, -⟩ := Prog.ends_pure.mp hlast
  refine ⟨v₂, b, _, hhook, hsame, ?_, y, by rw [← modAt_setCtx hunset, hy], ?_⟩
  · intro Q hevery
    simp only [Prog.every_bind] at hevery
    have hinside := (hevery.2 _ _ (act_ends.mpr href)).1
    have hafter := hinside.2 _ _ (Prog.ends_bind.mpr
      ⟨_, _, derefMod_ends.mpr ⟨hx₁, rfl⟩, act_ends.mpr hset⟩)
    exact (hafter.2 _ _ (derefMod_ends.mpr ⟨hx₂, rfl⟩)).1
  · split at hret
    next hzombie => rw [(Prog.ends_pure.mp hret).1, if_pos hzombie]
    next hzombie => rw [(Prog.ends_pure.mp hret).1, if_neg hzombie]

/-- An evaluation of an idle module that ends has called the hook. -/
theorem evaluateModule_called {x : Mod} (hx : modAt v.heap m = some x) (hidle : x.state = .idle)
    (hhook : x.hook.onEval) (h : (evaluateModule m).Ends (handler depth) v ret u) :
    ∃ step ∈ ((evaluateModule m).run (handler depth) v).steps,
      step.act = .hook (.onEval m) := by
  by_contra hnone
  obtain ⟨u₁, hends, -⟩ := (evaluateModule_ends hx hidle).mp h
  have hevery : (evaluateModule m).Every (handler depth)
      (fun step => step.act ≠ .hook (.onEval m)) v :=
    fun step hstep hact => hnone ⟨step, hstep, hact⟩
  unfold evaluateModule at hevery
  simp only [Prog.every_bind] at hevery
  have hrest := hevery.2 x v (derefMod_ends.mpr ⟨hx, rfl⟩)
  rw [if_pos hidle, Prog.every_bind] at hrest
  obtain ⟨v₁, b, v₂, -, -, hruns, -⟩ := optionalHook_run hx hends
  have hcall := hruns _ hrest.1
  rw [runHook, if_pos hhook, notify, Prog.every_notify] at hcall
  exact hcall.1 rfl

/-- A module whose hook agrees is started: the first thing is its pipe. -/
theorem evaluateModule_started {x : Mod} (hx : modAt v.heap m = some x) (hidle : x.state = .idle)
    (hhook : (optionalHook m .eval).Ends (handler depth) v 0 u) :
    ∃ step ∈ ((evaluateModule m).run (handler depth) v).steps, step.act = .op (.pipe m) := by
  by_contra hnone
  have hevery : (evaluateModule m).Every (handler depth)
      (fun step => step.act ≠ .op (.pipe m)) v :=
    fun step hstep hact => hnone ⟨step, hstep, hact⟩
  unfold evaluateModule at hevery
  simp only [Prog.every_bind] at hevery
  have hrest := hevery.2 x v (derefMod_ends.mpr ⟨hx, rfl⟩)
  rw [if_pos hidle, Prog.every_bind] at hrest
  have hstart := hrest.2 0 u hhook
  rw [if_pos rfl, Prog.every_bind] at hstart
  have hinit := hstart.1
  unfold start at hinit
  rw [if_pos rfl, Prog.every_bind] at hinit
  have hpipe := hinit.1
  unfold initPubsubFd at hpipe
  rw [Prog.every_bind, act_every] at hpipe
  exact hpipe.1 rfl

/-- A module without a hook agrees. -/
theorem optionalHook_absent {x : Mod} (hx : modAt v.heap m = some x) (hidle : x.state = .idle)
    (habsent : x.hook.onEval = false)
    (h : (optionalHook m .eval).Ends (handler depth) v ret u) : ret = 0 := by
  obtain ⟨u₁, b, u₂, hhook, hx₁, -, y, hy, hret⟩ := optionalHook_run hx h
  rw [runHook, if_neg (by simp [habsent])] at hhook
  obtain ⟨rfl, rfl⟩ := Prog.ends_pure.mp hhook
  cases hx₁.symm.trans hy
  rw [hret, hidle]
  rfl

theorem evaluated_of_idle {visit : Visit}
    (hidle : (modAt visit.state.heap visit.mod).map Mod.state = some .idle)
    (h : (evaluateModule visit.mod).Ends (handler visit.depth) visit.state ret u) :
    Evaluated visit := by
  obtain ⟨x, hx, hstate⟩ := Option.map_eq_some_iff.mp hidle
  refine ⟨hidle, ?_, ?_, fun u hhook => evaluateModule_started hx hstate hhook⟩
  · intro y hy hhook
    cases hx.symm.trans hy
    exact evaluateModule_called hx hstate hhook h
  · intro y hy habsent ret u hhook
    cases hx.symm.trans hy
    exact optionalHook_absent hx hstate habsent hhook

end Turn

/-! ## Whole passes -/

theorem state_setMod {w w' : World} {m : ℕ} {state : ModState}
    (h : w.setMod m (fun x => { x with state := state }) = some w') :
    (modAt w'.heap m).map Mod.state = some state := by
  obtain ⟨⟨x, hx⟩, rfl⟩ := World.setMod_eq_some.mp h
  simp only [modAt_modify_mod, if_true, hx, Option.map_some]

/-- No operation makes a module idle again. -/
theorem state_of_marked {o : Op} {w w' : World} {r : o.Resp} {m : ℕ} (hmarked : o.marked = some m)
    (h : o.exec w = some (r, w')) : (modAt w'.heap m).map Mod.state ≠ some .idle := by
  cases o <;> cases hmarked
  case markRunning =>
    simp only [Op.exec, Option.bind_eq_bind, Option.bind_eq_some_iff, Option.some.injEq] at h
    obtain ⟨x, -, u, hmod, v, hctx, h⟩ := h
    cases h
    obtain ⟨-, rfl⟩ := World.setCtx_eq_some.mp hctx
    simp only [modAt_modify_ctx, state_setMod hmod]
    simp
  case markStopped stopping =>
    simp only [Op.exec, Option.bind_eq_bind, Option.bind_eq_some_iff] at h
    obtain ⟨x, -, h⟩ := h
    have hstopped : (modAt w'.heap m).map Mod.state =
        some (if stopping then .stopped else .paused) := by
      split at h
      next =>
        simp only [Option.bind_eq_some_iff, Option.some.injEq] at h
        obtain ⟨u, -, v, hmod, h⟩ := h
        cases h
        exact state_setMod hmod
      next =>
        simp only [Option.bind_eq_some_iff, Option.some.injEq] at h
        obtain ⟨u, -, v, hmod, h⟩ := h
        cases h
        exact state_setMod hmod
    rw [hstopped]
    cases stopping <;> simp
  case markZombie =>
    obtain ⟨u, hmod, h⟩ := Option.map_eq_some_iff.mp h
    cases h
    rw [state_setMod hmod]
    simp

/-- A module that is idle has never been anything else. -/
theorem idle_of_later {w w' : World} {m : ℕ} (h : Later w w') (hs : Settled w.heap)
    (hm : m < w.heap.length) (hidle : (modAt w'.heap m).map Mod.state = some .idle) :
    (modAt w.heap m).map Mod.state = some .idle := by
  induction h with
  | refl => exact hidle
  | react h hook ih =>
      apply ih
      unfold World.react at hidle
      split at hidle <;> exact hidle
  | @exec w₁ w₂ o r h hexec ih =>
      apply ih
      have hpays := h.pays hs
      obtain ⟨x', hx', hstate⟩ := Option.map_eq_some_iff.mp hidle
      have hevolves := Op.evolves hpays.settled hexec
      rcases hevolves.become m (.mod x') (modAt_eq_some.mp hx') with ⟨o', ho', hbecome⟩ | ⟨hnew, -⟩
      · cases o' with
        | mod x =>
            by_cases hmarked : o.marked = some m
            · exact absurd hidle (state_of_marked hmarked hexec)
            · have hsame := hbecome.1 hmarked
              rw [modAt_eq_some.mpr ho', Option.map_some, ← hsame, hstate]
        | _ => exact False.elim hbecome
      · exact absurd (hm.trans_le hpays.grows) (by omega)

/-- A hook that refuses, or a change of the table, is what stops an iteration. -/
theorem stops_iff {c depth idx m : ℕ} {v u : World} {ret : ℤ} :
    Stops c depth idx m v ret u ↔ Halts .evaluateModule c depth idx m v ret u := by
  constructor
  · intro h
    cases h with
    | refused hx hidle hret hhook =>
        have hrun := (evaluateModule_refused hret).mpr ⟨_, hx, hidle, hhook⟩
        rw [← min_eq_left (evaluateModule_nonpos hrun)]
        exact .refused hret hrun
    | changed hends hctx hnext => exact .changed hends hctx hnext
  · intro h
    cases h with
    | refused hrc hrun =>
        obtain ⟨x, hx, hidle, hhook⟩ := (evaluateModule_refused hrc).mp hrun
        rw [min_eq_left (evaluateModule_nonpos hrun)]
        exact .refused hx hidle hrc hhook
    | changed hends hctx hnext => exact .changed hends hctx hnext

theorem stopsLast_iff (c depth : ℕ) (w : World) :
    LeavesNone .evaluateModule c (IdleIn · c) (Stops c) depth 0 w (IdleIn w c) ↔
      ∀ ret w', (iterate .evaluateModule c 0).Ends (handler depth) w ret w' →
        ∀ m, IdleIn w c m → IdleIn w' c m →
          ∃ visit ∈ passVisits .evaluateModule c depth 0 w, visit.mod = m :=
  leavesNone_iff (fun _ _ hidle => hidle.ctx) (fun _ _ _ _ _ _ => stops_iff) depth 0 w _

/-- In every run, a pass evaluates all modules that are idle throughout, whatever their
hooks say, exactly when it does not stop while one of them waits. -/
theorem evaluatesIdle_iff (host : Host) (script : List Reaction) (polls : List PollAnswer)
    (faults : List ℤ) (depth : ℕ) (calls : List Call) :
    (∀ step ∈ (machine.runCalls depth calls
      (World.initial host script polls faults)).steps, EvaluatesIdle step) ↔
    ∀ step ∈ (machine.runCalls depth calls
      (World.initial host script polls faults)).steps, StopsLast step := by
  constructor
  · intro hall step hstep c hact d
    apply (stopsLast_iff c d step.before).mpr
    intro ret w' hends p hstart hidle
    obtain ⟨visit, hvisit, hmod, -⟩ := hall step hstep c hact d ret w' hends p hstart hidle
    exact ⟨visit, hvisit, hmod⟩
  · intro hall step hstep c hact d ret w' hends p hstart hidle
    obtain ⟨visit, hvisit, rfl⟩ :=
      (stopsLast_iff c d step.before).mp (hall step hstep c hact d) ret w' hends p hstart hidle
    obtain ⟨⟨n, u, hrun⟩, hbefore, hafter⟩ := passVisits_ends hends visit hvisit
    have hsettled : Settled step.before.heap :=
      (((later_runCalls depth calls _).1 step hstep).pays
        (settled_initial host script polls faults)).settled
    have hpays := hbefore.pays hsettled
    refine ⟨visit, hvisit, rfl, evaluated_of_idle ?_ hrun⟩
    exact idle_of_later hafter hpays.settled (hstart.lt_length.trans_le hpays.grows) hidle.2

/-- Two idle modules in a loop that starts; the hook of the first one says no. -/
def twoIdle : Out LibLang World Unit :=
  machine.runCalls 8
    [.mCtxRegister "ctx" 0, .mModRegister "a" true (some ⟨true, false, true, false⟩) 0,
      .mModRegister "b" true (some ⟨true, false, true, false⟩) 0, .mCtxDispatch]
    (startFrom [⟨[], false⟩] [])

def startsPass (step : Step LibLang World) : Bool :=
  match step.act with
  | .call (.iterate .evaluateModule 0 0) => true
  | _ => false

theorem startsPass_iff {step : Step LibLang World} :
    startsPass step ↔ step.act = .call (.iterate .evaluateModule 0 0) := by
  unfold startsPass
  split <;> simp_all

def twoIdlePass : Step LibLang World := (twoIdle.steps.find? startsPass).get (by decide +kernel)

/-- The hook of the second one is not called. -/
theorem not_evaluatesIdle_twoIdle :
    ¬ ∀ host script polls faults depth calls,
      ∀ step ∈ (machine.runCalls depth calls
        (World.initial host script polls faults)).steps, EvaluatesIdle step := by
  intro hall
  have hfind : twoIdle.steps.find? startsPass = some twoIdlePass := (Option.some_get _).symm
  have hevaluates := hall plainHost _ _ [] 8 _ twoIdlePass (List.mem_of_find?_eq_some hfind)
  have hact := startsPass_iff.mp (List.find?_some hfind)
  have hleaves := (stopsLast_iff 0 8 twoIdlePass.before).mpr
    (fun ret w' hends p hstart hidle => by
      obtain ⟨visit, hvisit, hmod, -⟩ := hevaluates 0 hact 8 ret w' hends p hstart hidle
      exact ⟨visit, hvisit, hmod⟩)
  have hentry : entryAt twoIdlePass.before 0 0 = some ("a", 1) := by decide +kernel
  rw [LeavesNone, hentry] at hleaves
  have hmod : (modAt twoIdlePass.before.heap 1).map Mod.state = some .idle := by decide +kernel
  obtain ⟨x, hx, hidle⟩ := Option.map_eq_some_iff.mp hmod
  have hhook : (optionalHook 1 .eval).Ends (handler 8) twoIdlePass.before (-1)
      ((optionalHook 1 .eval).run (handler 8) twoIdlePass.before).state :=
    ⟨by decide +kernel, rfl⟩
  exact hleaves.1 (-1) _ (.refused hx hidle (by decide) hhook) 2 (by decide +kernel)
    (by decide) (by decide +kernel)

end Libmodule
