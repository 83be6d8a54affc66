import Libmodule.Execution

/-!
# Deregistration of a context

`m_ctx_deregister` clears the context of the thread and then deregisters every
module.  The first thing the deregistration of a module checks is that the
thread still has the context of the module, so it fails, and the iteration over
the modules ends with the first of them.
-/

namespace Libmodule

open RefHeap Reentrant

/-- A run has deregistered the module `m`, which was in the table of `c` in `w`. -/
structure Deregistered (w : World) (run : Out LibLang World ℤ) (c m : ℕ) (name : String) :
    Prop where
  stopped : ∃ step ∈ run.steps, step.act = .op (.markStopped m true)
  hookRun : ∀ x, modAt w.heap m = some x → x.hook.onStop →
    ∃ step ∈ run.steps, step.act = .hook (.onStop m)
  zombie : ∀ x, modAt run.state.heap m = some x → x.state = .zombie
  removed : ∀ x, ctxAt run.state.heap c = some x → m ∉ x.modules.values
  released : ∃ step ∈ run.steps, step.act = .op (.modulesRemove c name)

def NotStopping (m : ℕ) (step : Step LibLang World) : Prop :=
  step.act ≠ .op (.markStopped m true)

theorem ofReads_notStopping (m : ℕ) : OfReads (NotStopping m) where
  get := by simp [NotStopping]
  halt := by simp [NotStopping]

section Deregister

variable {depth : ℕ} {w w' : World} {m c : ℕ} {ret : ℤ}

/-- A thread without a context deregisters no module. -/
theorem modDeregister_every (htls : w.tls = none) (mod : Option ℕ) (fromUser : Bool) :
    (modDeregister mod fromUser).Every (handler depth) (NotStopping m) w := by
  apply (ofReads_notStopping m).modAssert_every
  intro p x _ _ hctx
  rw [htls] at hctx
  cases hctx

theorem modDeregister_ends (htls : w.tls = none) {mod : Option ℕ} {fromUser : Bool}
    (h : (modDeregister mod fromUser).Ends (handler depth) w ret w') : ret < 0 := by
  by_contra hret
  obtain ⟨p, x, -, -, -, hctx, -⟩ := modAssert_ends (not_lt.mp hret) h
  rw [htls] at hctx
  cases hctx

/-- The iteration over the modules ends with the first one. -/
theorem iterate_every (htls : w.tls = none) (idx : ℕ) :
    (iterate .ctxDestroyMods c idx).Every (handler depth) (NotStopping m) w := by
  unfold iterate
  simp only [Prog.every_bind, derefCtx_ends]
  refine ⟨(ofReads_notStopping m).derefCtx_every c, ?_⟩
  rintro x _ ⟨-, rfl⟩
  split
  next => simp
  next key p _ =>
    simp only [Prog.every_bind]
    refine ⟨modDeregister_every htls (some p) false, fun rc u hrc => ?_⟩
    rw [if_pos (modDeregister_ends htls hrc)]
    simp

theorem mCtxDeregister_every :
    mCtxDeregister.Every (handler depth) (NotStopping m) w := by
  apply (ofReads_notStopping m).ctxAssert_every
  intro c _
  simp only [Prog.every_bind, derefCtx_ends]
  refine ⟨(ofReads_notStopping m).derefCtx_every c, ?_⟩
  rintro x _ ⟨-, rfl⟩
  split
  next => simp
  next =>
    simp only [Prog.every_bind, act_every, act_ends, Op.exec, Option.some.injEq,
      Prod.mk.injEq, Prog.every_pure, implies_true, and_true]
    refine ⟨by simp [NotStopping], ?_⟩
    rintro _ _ ⟨-, rfl⟩
    refine ⟨?_, fun n u _ => by simp [NotStopping]⟩
    rw [invoke, Prog.every_invoke]
    refine ⟨by simp [NotStopping], ?_⟩
    cases depth with
    | zero => simp [handler, Machine.onCall_zero]
    | succ depth => exact iterate_every rfl 0

end Deregister

/-- A context deregisters all its modules exactly when it has none. -/
theorem deregistersAll_iff (depth : ℕ) (w : World) (c : ℕ) (x : Ctx) (_htls : w.tls = some c)
    (_hx : ctxAt w.heap c = some x)
    (_hret : (mCtxDeregister.run (handler depth) w).value = some 0) :
    (∀ entry ∈ x.modules,
      Deregistered w (mCtxDeregister.run (handler depth) w) c entry.2 entry.1) ↔
      x.modules = [] := by
  constructor
  · intro hall
    cases hmodules : x.modules with
    | nil => rfl
    | cons entry rest =>
        obtain ⟨step, hstep, hact⟩ := (hall entry (by simp [hmodules])).stopped
        exact absurd hact (mCtxDeregister_every step hstep)
  · intro hnone
    simp [hnone]

/-- A context with one running module. -/
def oneRunning : World :=
  (machine.runCalls 3
    [.mCtxRegister "ctx" 0, .mModRegister "a" true (some onEvtOnly) 0, .mModStart (some 1)]
    (startFrom [] [])).state

def oneRunningCtx : Ctx := (ctxAt oneRunning.heap 0).get (by decide +kernel)

theorem deregistersAll_oneRunning :
    (∀ entry ∈ oneRunningCtx.modules,
      Deregistered oneRunning (mCtxDeregister.run (handler 3) oneRunning) 0 entry.2 entry.1) ↔
      oneRunningCtx.modules = [] :=
  deregistersAll_iff 3 oneRunning 0 oneRunningCtx (by decide +kernel)
    (Option.some_get _).symm (by decide +kernel)

/-- Not every idle context deregisters all its modules. -/
theorem not_deregistersAll :
    ¬ ∀ depth w c x, w.tls = some c → ctxAt w.heap c = some x → x.looping = false →
      (mCtxDeregister.run (handler depth) w).value = some 0 →
      ∀ entry ∈ x.modules,
        Deregistered w (mCtxDeregister.run (handler depth) w) c entry.2 entry.1 := by
  intro hall
  have ha : ("a", 1) ∈ oneRunningCtx.modules := by decide +kernel
  obtain ⟨step, hstep, hact⟩ :=
    (hall 3 oneRunning 0 oneRunningCtx (by decide +kernel) (Option.some_get _).symm
      (by decide +kernel) (by decide +kernel) _ ha).stopped
  exact absurd hact (mCtxDeregister_every step hstep)

end Libmodule
