import Mathlib.Logic.Basic

/-!
# Runs of calls

A system is a function from a state and a call to an answer and the next
state, or to a fault.  A run is a list of calls.  The rules below carry an
invariant along a run whose calls meet a condition, and turn an equivalence
for one call into one for runs.
-/

namespace CallRun

variable {σ κ ρ : Type*} (exec : σ → κ → Option (ρ × σ))

/-- No call of the run faults, and every step satisfies `P`. -/
def Always (P : σ → κ → ρ → σ → Prop) : σ → List κ → Prop
  | _, [] => True
  | s, call :: calls =>
      match exec s call with
      | none => False
      | some (ret, s') => P s call ret s' ∧ Always P s' calls

/-- Every call of the run meets `C` in the state it is made in. -/
def Meets (C : σ → κ → Prop) : σ → List κ → Prop
  | _, [] => True
  | s, call :: calls =>
      C s call ∧
        match exec s call with
        | none => True
        | some (_, s') => Meets C s' calls

variable {exec} {P : σ → κ → ρ → σ → Prop} {C : σ → κ → Prop}

theorem Meets.cons {s s' : σ} {call : κ} {ret : ρ} {calls : List κ} (hC : C s call)
    (hexec : exec s call = some (ret, s')) (hrest : Meets exec C s' calls) :
    Meets exec C s (call :: calls) := by
  refine ⟨hC, ?_⟩
  rw [hexec]
  exact hrest

theorem Meets.and {C D : σ → κ → Prop} {s : σ} {calls : List κ} (hC : Meets exec C s calls)
    (hD : Meets exec D s calls) : Meets exec (fun s call => C s call ∧ D s call) s calls := by
  induction calls generalizing s with
  | nil => trivial
  | cons call calls ih =>
      refine ⟨⟨hC.1, hD.1⟩, ?_⟩
      cases hexec : exec s call with
      | none => trivial
      | some next =>
          have hC' := hC.2
          have hD' := hD.2
          rw [hexec] at hC' hD'
          exact ih hC' hD'

/-- An invariant that every call keeps under `C` holds along a run. -/
theorem always_of_step (Inv : σ → Prop)
    (hstep : ∀ s call, Inv s → C s call →
      ∃ ret s', exec s call = some (ret, s') ∧ P s call ret s' ∧ Inv s')
    (calls : List κ) {s : σ} (hs : Inv s) (hmeets : Meets exec C s calls) :
    Always exec P s calls := by
  induction calls generalizing s with
  | nil => trivial
  | cons call calls ih =>
      obtain ⟨ret, s', hexec, hP, hs'⟩ := hstep s call hs hmeets.1
      simp only [Meets, hexec] at hmeets
      simp only [Always, hexec]
      exact ⟨hP, ih hs' hmeets.2⟩

/-- When each call satisfies `P` exactly if it meets `C`, so does each run. -/
theorem always_iff_of_step (Inv : σ → Prop)
    (hstep : ∀ s call, Inv s →
      ∃ ret s', exec s call = some (ret, s') ∧ (P s call ret s' ↔ C s call) ∧
        (C s call → Inv s'))
    (calls : List κ) {s : σ} (hs : Inv s) :
    Always exec P s calls ↔ Meets exec C s calls := by
  induction calls generalizing s with
  | nil => exact Iff.rfl
  | cons call calls ih =>
      obtain ⟨ret, s', hexec, hiff, hs'⟩ := hstep s call hs
      simp only [Always, Meets, hexec]
      by_cases hC : C s call
      · rw [hiff, ih (hs' hC)]
      · exact iff_of_false (fun h => hC (hiff.mp h.1)) (fun h => hC h.1)

/-- The same when a call may fault: a call satisfies `P`, and does not fault, exactly if it
meets `C`. -/
theorem always_iff_of_fault (Inv : σ → Prop)
    (hstep : ∀ s call, Inv s →
      (C s call → ∃ ret s', exec s call = some (ret, s') ∧ P s call ret s' ∧ Inv s') ∧
        ∀ ret s', exec s call = some (ret, s') → P s call ret s' → C s call)
    (calls : List κ) {s : σ} (hs : Inv s) :
    Always exec P s calls ↔ Meets exec C s calls := by
  induction calls generalizing s with
  | nil => exact Iff.rfl
  | cons call calls ih =>
      obtain ⟨hkeeps, honly⟩ := hstep s call hs
      by_cases hC : C s call
      · obtain ⟨ret, s', hexec, hP, hs'⟩ := hkeeps hC
        simp only [Always, Meets, hexec, ih hs', hP, hC]
      · refine iff_of_false (fun halways => hC ?_) (fun hmeets => hC hmeets.1)
        cases hexec : exec s call with
        | none => simp only [Always, hexec] at halways
        | some next =>
            simp only [Always, hexec] at halways
            exact honly next.1 next.2 hexec halways.1

end CallRun
