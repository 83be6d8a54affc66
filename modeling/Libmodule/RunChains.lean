import Libmodule.Boundary

/-!
# Runs as chains of steps

Each step of a run begins in the state that the step before it has left.  So what a single
step does to a quantity, or to an invariant that looks at what is remembered of the steps so
far, adds up over every part of a run.
-/

namespace Reentrant

variable {L : Lang} {σ α β γ : Type}

/-- The state `t` can come after the step. -/
def Machine.Leads (M : Machine L σ) (step : Step L σ) (t : σ) : Prop :=
  match step.act with
  | .op o =>
      (∃ r, M.exec o step.before = some (r, t)) ∨
        M.exec o step.before = none ∧ t = step.before
  | .hook h => t = (M.react h step.before).2.2 ∨ t = step.before
  | .call _ | .halt => t = step.before

/-- The steps lead from one state to another. -/
inductive Machine.Chain (M : Machine L σ) : σ → List (Step L σ) → σ → Prop where
  | nil (s : σ) : M.Chain s [] s
  | cons {step : Step L σ} {steps : List (Step L σ)} {t u : σ} (hlead : M.Leads step t)
      (hrest : M.Chain t steps u) : M.Chain step.before (step :: steps) u

theorem countP_cons_toNat (p : Step L σ → Bool) (step : Step L σ) (steps : List (Step L σ)) :
    (step :: steps).countP p = (p step).toNat + steps.countP p := by
  cases hp : p step <;> simp [hp]
  omega

section Chain

variable {M : Machine L σ} {s t u : σ} {steps first second : List (Step L σ)}

theorem Machine.Chain.append (h : M.Chain s first t) (h' : M.Chain t second u) :
    M.Chain s (first ++ second) u := by
  induction h with
  | nil => exact h'
  | cons hlead _ ih => exact .cons hlead (ih h')

theorem Machine.Chain.split (h : M.Chain s (first ++ second) u) :
    ∃ t, M.Chain s first t ∧ M.Chain t second u := by
  induction first generalizing s with
  | nil => exact ⟨s, .nil s, h⟩
  | cons step first ih =>
      cases h with
      | cons hlead hrest =>
          obtain ⟨t, hfirst, hsecond⟩ := ih hrest
          exact ⟨t, .cons hlead hfirst, hsecond⟩

/-- An invariant of single steps, with what they leave in the memory, holds along a chain. -/
theorem Machine.Chain.fold {I : σ → γ → Prop} {next : γ → Step L σ → γ}
    {P : γ → Step L σ → Prop} {g : γ} (h : M.Chain s steps u) (hP : Along next P g steps)
    (hI : I s g)
    (hstep : ∀ g step t, I step.before g → P g step → M.Leads step t → I t (next g step)) :
    I u (steps.foldl next g) ∧ Along next (fun g step => I step.before g) g steps := by
  induction h generalizing g with
  | nil => exact ⟨hI, along_nil⟩
  | cons hlead _ ih =>
      obtain ⟨hend, halong⟩ := ih hP.2 (hstep g _ _ hI hP.1 hlead)
      exact ⟨hend, hI, halong⟩

/-- What single steps take from a quantity, beyond what they give, a chain takes. -/
theorem Machine.Chain.takes_le {φ : σ → ℕ} {I : σ → Prop} {takes gives : Step L σ → Bool}
    (h : M.Chain s steps u) (hI : I s)
    (hstep : ∀ step ∈ steps, ∀ t, I step.before → M.Leads step t →
      I t ∧ φ t + (takes step).toNat ≤ φ step.before + (gives step).toNat) :
    φ u + steps.countP takes ≤ φ s + steps.countP gives := by
  induction h with
  | nil => exact Nat.le_refl _
  | @cons step steps t u hlead _ ih =>
      obtain ⟨hI', hone⟩ := hstep step List.mem_cons_self t hI hlead
      have hrest := ih hI' (fun step' hmem => hstep step' (List.mem_cons_of_mem _ hmem))
      rw [countP_cons_toNat takes, countP_cons_toNat gives]
      omega

end Chain

/-! ## Runs -/

variable {M : Machine L σ}

/-- The steps of the run lead from `s` to its end. -/
def Out.Chained (M : Machine L σ) (s : σ) (x : Out L σ α) : Prop := M.Chain s x.steps x.state

theorem Out.Chained.after {x : Out L σ α} {act : Act L} {s t : σ} (hlead : M.Leads ⟨act, s⟩ t)
    (hx : x.Chained M t) : (x.after act s).Chained M s :=
  Machine.Chain.cons hlead hx

theorem Out.Chained.bind {x : Out L σ α} {f : α → σ → Out L σ β} {s : σ} (hx : x.Chained M s)
    (hf : ∀ a t, (f a t).Chained M t) : (x.bind f).Chained M s := by
  obtain ⟨value, state, steps⟩ := x
  cases value with
  | none => exact hx
  | some a => exact Machine.Chain.append hx (hf a state)

theorem Out.Chained.sequence {f : α → σ → Out L σ β} (hf : ∀ a t, (f a t).Chained M t)
    (as : List α) (s : σ) : (Out.sequence f as s).Chained M s := by
  induction as generalizing s with
  | nil => exact .nil s
  | cons a as ih => exact (hf a s).bind (fun _ t => ih t)

/-- Callbacks and calls begin where control has passed to them. -/
structure Handler.Chained (M : Machine L σ) (H : Handler L σ) : Prop where
  exec : H.exec = M.exec
  onHook : ∀ h s, (H.onHook h s).Chained M (M.react h s).2.2 ∨ (H.onHook h s).Chained M s
  onCall : ∀ c s, (H.onCall c s).Chained M s

theorem Prog.run_chained {H : Handler L σ} (hH : H.Chained M) (p : Prog L α) (s : σ) :
    (p.run H s).Chained M s := by
  induction p generalizing s with
  | ret a => exact .nil s
  | halt => exact Out.Chained.after (show M.Leads ⟨.halt, s⟩ s from rfl) (.nil s)
  | op o k ih =>
      simp only [run, hH.exec]
      cases hexec : M.exec o s with
      | none =>
          have hlead : M.Leads ⟨.op o, s⟩ s := .inr ⟨hexec, rfl⟩
          exact Out.Chained.after hlead (.nil s)
      | some next =>
          have hlead : M.Leads ⟨.op o, s⟩ next.2 := .inl ⟨next.1, hexec⟩
          exact Out.Chained.after hlead (ih next.1 next.2)
  | hook h k ih =>
      rcases hH.onHook h s with hhook | hhook
      · have hlead : M.Leads ⟨.hook h, s⟩ (M.react h s).2.2 := .inl rfl
        exact Out.Chained.after hlead (hhook.bind ih)
      · have hlead : M.Leads ⟨.hook h, s⟩ s := .inr rfl
        exact Out.Chained.after hlead (hhook.bind ih)
  | call c k ih =>
      exact Out.Chained.after (show M.Leads ⟨.call c, s⟩ s from rfl) ((hH.onCall c s).bind ih)

theorem Machine.handler_chained (M : Machine L σ) (depth : ℕ) : (M.handler depth).Chained M := by
  induction depth with
  | zero =>
      exact
        { exec := rfl
          onHook := fun _ s => .inr (.nil s)
          onCall := fun _ s => .nil s }
  | succ depth ih =>
      exact
        { exec := rfl
          onHook := fun h s => .inl
            ((Out.Chained.sequence ih.onCall _ _).bind (fun _ t => .nil t))
          onCall := fun c s => (M.body c).run_chained ih s }

/-- The steps of every run of calls are a chain. -/
theorem Machine.chain_runCalls (M : Machine L σ) (depth : ℕ) (calls : List L.Call) (s : σ) :
    M.Chain s (M.runCalls depth calls s).steps (M.runCalls depth calls s).state :=
  Out.Chained.sequence (M.handler_chained depth).onCall calls s

end Reentrant
