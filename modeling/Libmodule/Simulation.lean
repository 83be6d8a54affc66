import Libmodule.CallRun

/-!
# Simulations and invariants of runs

A specification answers every call.  A system that answers each call as the
specification does, and keeps a relation to its state, answers every run of
calls as the specification does, and no call faults.
-/

namespace CallRun

variable {σ τ κ ρ : Type*}

/-- The answers of a run, and the state after it. -/
def answers (exec : σ → κ → Option (ρ × σ)) : σ → List κ → Option (List ρ × σ)
  | s, [] => some ([], s)
  | s, call :: calls => do
      let (ret, s) ← exec s call
      let (rets, s) ← answers exec s calls
      some (ret :: rets, s)

/-- The answers that a specification gives. -/
def specified (spec : τ → κ → ρ × τ) : τ → List κ → List ρ × τ
  | t, [] => ([], t)
  | t, call :: calls =>
      ((spec t call).1 :: (specified spec (spec t call).2 calls).1,
        (specified spec (spec t call).2 calls).2)

variable {exec : σ → κ → Option (ρ × σ)} {spec : τ → κ → ρ × τ} {R : σ → τ → Prop}

theorem answers_of_simulation
    (hstep : ∀ s t call, R s t →
      ∃ s', exec s call = some ((spec t call).1, s') ∧ R s' (spec t call).2)
    (calls : List κ) {s : σ} {t : τ} (h : R s t) :
    ∃ s', answers exec s calls = some ((specified spec t calls).1, s') ∧
      R s' (specified spec t calls).2 := by
  induction calls generalizing s t with
  | nil => exact ⟨s, rfl, h⟩
  | cons call calls ih =>
      obtain ⟨s', hexec, h'⟩ := hstep s t call h
      obtain ⟨s'', hrest, h''⟩ := ih h'
      refine ⟨s'', ?_, h''⟩
      simp only [answers, hexec, hrest, specified, Option.bind_eq_bind, Option.bind_some]

/-- Where the calls of a run meet `D`, each satisfies `P` exactly if it meets `C`, and then so does
the run. -/
theorem always_iff_of_meets {P : σ → κ → ρ → σ → Prop} {C D : σ → κ → Prop} (Inv : σ → Prop)
    (hstep : ∀ s call, Inv s → D s call →
      ∃ ret s', exec s call = some (ret, s') ∧ (P s call ret s' ↔ C s call) ∧
        (C s call → Inv s'))
    (calls : List κ) {s : σ} (hs : Inv s) (hmeets : Meets exec D s calls) :
    Always exec P s calls ↔ Meets exec C s calls := by
  induction calls generalizing s with
  | nil => exact Iff.rfl
  | cons call calls ih =>
      obtain ⟨ret, s', hexec, hiff, hs'⟩ := hstep s call hs hmeets.1
      simp only [Meets, hexec] at hmeets
      simp only [Always, Meets, hexec]
      by_cases hC : C s call
      · rw [hiff, ih (hs' hC) hmeets.2]
      · exact iff_of_false (fun h => hC (hiff.mp h.1)) (fun h => hC h.1)

/-- What every call keeps holds along every run. -/
theorem always_of_invariant {P : σ → κ → ρ → σ → Prop} (Inv : σ → Prop)
    (hstep : ∀ s call, Inv s → ∃ ret s', exec s call = some (ret, s') ∧ P s call ret s' ∧ Inv s')
    (calls : List κ) {s : σ} (hs : Inv s) : Always exec P s calls := by
  induction calls generalizing s with
  | nil => trivial
  | cons call calls ih =>
      obtain ⟨ret, s', hexec, hP, hs'⟩ := hstep s call hs
      simp only [Always, hexec]
      exact ⟨hP, ih hs'⟩

end CallRun
