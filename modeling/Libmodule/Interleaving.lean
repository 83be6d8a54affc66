import Mathlib.Data.List.Basic

/-!
# Interleavings

A system takes one event after the other; an event that is not enabled has no
next state.  A run is a list of events, so every schedule of the parties is a
run.  An invariant that every step keeps, under a condition on the step, holds
at the end of every run whose steps meet the condition.
-/

namespace Interleaving

variable {σ ε : Type*} (step : σ → ε → Option σ)

def run (s : σ) : List ε → Option σ
  | [] => some s
  | e :: events =>
      match step s e with
      | none => none
      | some s' => run s' events

/-- Every event of the run meets `C` in the state it is taken in. -/
def Meets (C : σ → ε → Prop) : σ → List ε → Prop
  | _, [] => True
  | s, e :: events =>
      C s e ∧
        match step s e with
        | none => True
        | some s' => Meets C s' events

instance decidableMeets (C : σ → ε → Prop) [∀ s e, Decidable (C s e)] :
    ∀ (s : σ) (events : List ε), Decidable (Meets step C s events)
  | _, [] => isTrue trivial
  | s, e :: events =>
      let rest : Decidable (match step s e with
        | none => True
        | some s' => Meets step C s' events) :=
        match step s e with
        | none => isTrue trivial
        | some s' => decidableMeets C s' events
      @instDecidableAnd _ _ _ rest

variable {step} {C D : σ → ε → Prop} {Inv : σ → Prop}

theorem run_cons {s t : σ} {e : ε} {events : List ε} (hrun : run step s (e :: events) = some t) :
    ∃ s', step s e = some s' ∧ run step s' events = some t := by
  cases hstep : step s e with
  | none => simp [run, hstep] at hrun
  | some s' => exact ⟨s', rfl, by simpa [run, hstep] using hrun⟩

theorem run_append_events (s : σ) (events events' : List ε) :
    run step s (events ++ events') = (run step s events).bind (fun t => run step t events') := by
  induction events generalizing s with
  | nil => rfl
  | cons e events ih =>
      simp only [List.cons_append, run]
      cases step s e with
      | none => rfl
      | some s' => exact ih s'

/-- The last step of a run. -/
theorem run_concat {s t : σ} {e : ε} {events : List ε} :
    run step s (events ++ [e]) = some t ↔
      ∃ s', run step s events = some s' ∧ step s' e = some t := by
  rw [run_append_events, Option.bind_eq_some_iff]
  have hlast : ∀ u, run step u [e] = step u e := by
    intro u
    rw [run]
    cases step u e <;> rfl
  simp only [hlast]

theorem Meets.tail {s s' : σ} {e : ε} {events : List ε} (hmeets : Meets step C s (e :: events))
    (hstep : step s e = some s') : Meets step C s' events := by
  simpa [hstep] using hmeets.2

theorem meets_of_forall {events : List ε} (hC : ∀ s, ∀ e ∈ events, C s e) (s : σ) :
    Meets step C s events := by
  induction events generalizing s with
  | nil => trivial
  | cons e events ih =>
      refine ⟨hC s e (by simp), ?_⟩
      cases step s e with
      | none => trivial
      | some s' => exact ih (fun s e he => hC s e (by simp [he])) s'

theorem Meets.mono (hCD : ∀ s e, C s e → D s e) {s : σ} {events : List ε}
    (hmeets : Meets step C s events) : Meets step D s events := by
  induction events generalizing s with
  | nil => trivial
  | cons e events ih =>
      refine ⟨hCD s e hmeets.1, ?_⟩
      cases hstep : step s e with
      | none => trivial
      | some s' => exact ih (hmeets.tail hstep)

theorem Meets.and {s : σ} {events : List ε} (hC : Meets step C s events)
    (hD : Meets step D s events) : Meets step (fun s e => C s e ∧ D s e) s events := by
  induction events generalizing s with
  | nil => trivial
  | cons e events ih =>
      refine ⟨⟨hC.1, hD.1⟩, ?_⟩
      cases hstep : step s e with
      | none => trivial
      | some s' => exact ih (hC.tail hstep) (hD.tail hstep)

/-- An invariant that every step keeps under `C` holds at the end of a run. -/
theorem invariant_of_run
    (hkeeps : ∀ s e s', Inv s → C s e → step s e = some s' → Inv s')
    (events : List ε) {s t : σ} (hs : Inv s) (hmeets : Meets step C s events)
    (hrun : run step s events = some t) : Inv t := by
  induction events generalizing s with
  | nil =>
      simp only [run, Option.some.injEq] at hrun
      exact hrun ▸ hs
  | cons e events ih =>
      obtain ⟨s', hstep, hrest⟩ := run_cons hrun
      exact ih (hkeeps s e s' hs hmeets.1 hstep) (hmeets.tail hstep) hrest

/-- A goal that is reached, or comes closer, by some step can be reached. -/
theorem run_of_rank {Goal : σ → Prop} (rank : σ → ℕ)
    (hstep : ∀ s, Inv s → ∃ e s', step s e = some s' ∧ (Goal s' ∨ Inv s' ∧ rank s' < rank s))
    {s : σ} (hs : Inv s) : ∃ events t, run step s events = some t ∧ Goal t := by
  induction hr : rank s using Nat.strongRecOn generalizing s with
  | ind r ih =>
      obtain ⟨e, s', he, hgoal | ⟨hs', hless⟩⟩ := hstep s hs
      · exact ⟨[e], s', by simp [run, he], hgoal⟩
      · obtain ⟨events, t, hrun, hgoal⟩ := ih (rank s') (hr ▸ hless) hs' rfl
        exact ⟨e :: events, t, by simp [run, he, hrun], hgoal⟩

/-! ## The parties

The parties are a list of places, and a step of a party puts it into another place.
-/

section Parties

variable {α : Type*} {l : List α} {i : ℕ} {x y z : α}

theorem set_self (h : l[i]? = some x) : l.set i x = l := by
  obtain ⟨hi, rfl⟩ := List.getElem?_eq_some_iff.mp h
  exact List.set_getElem_self hi

theorem getElem?_set_of_some (h : l[i]? = some x) : (l.set i y)[i]? = some y :=
  List.getElem?_set_self (List.getElem?_eq_some_iff.mp h).1

theorem mem_set_of_ne (hx : l[i]? = some x) (hz : z ∈ l) (hne : z ≠ x) : z ∈ l.set i y := by
  obtain ⟨j, hj⟩ := List.getElem?_of_mem hz
  have hij : i ≠ j := by
    rintro rfl
    exact hne (Option.some.inj (hj.symm.trans hx))
  exact List.mem_of_getElem? ((List.getElem?_set_ne hij).trans hj)

/-- The parties of a kind are counted anew when one moves. -/
theorem countP_set_add (p : α → Bool) (y : α) (h : l[i]? = some x) :
    (l.set i y).countP p + (if p x then 1 else 0) = l.countP p + (if p y then 1 else 0) := by
  obtain ⟨hi, rfl⟩ := List.getElem?_eq_some_iff.mp h
  have hle : (if p l[i] = true then 1 else 0) ≤ l.countP p := by
    split
    next hp => exact List.countP_pos_iff.mpr ⟨_, List.getElem_mem hi, hp⟩
    next => exact Nat.zero_le _
  rw [List.countP_set hi]
  omega

end Parties

/-! ## A mutex

Every party is in its critical section or not.  A step of a party leaves the mutex alone,
takes it while it is free, or gives it back at the end of the critical section.
-/

section Mutex

variable {P : Type*} {critical critical' : P → Prop} {lock lock' : Option P} {p : P}

/-- Who is in the critical section has the mutex. -/
def Exclusive (critical : P → Prop) (lock : Option P) : Prop :=
  ∀ p, critical p → lock = some p

/-- What a step of `p` does to the mutex; `c` and `c'` tell whether `p` is in its critical
section before and after it. -/
inductive Handover (p : P) (c c' : Prop) (lock lock' : Option P) : Prop where
  | keep (hlock : lock' = lock) (hc : c' → c)
  | take (hfree : lock = none) (hlock : lock' = some p)
  | release (hc : c) (hlock : lock' = none) (hout : ¬ c')

theorem Exclusive.eq {q : P} (h : Exclusive critical lock) (hp : critical p) (hq : critical q) :
    p = q :=
  Option.some.inj ((h p hp).symm.trans (h q hq))

theorem Exclusive.not_critical (h : Exclusive critical none) : ¬ critical p := by
  intro hp
  cases h p hp

theorem Exclusive.handover (h : Exclusive critical lock)
    (hothers : ∀ q, q ≠ p → critical' q → critical q)
    (hstep : Handover p (critical p) (critical' p) lock lock') : Exclusive critical' lock' := by
  intro q hq
  cases hstep with
  | keep hlock hc =>
      rw [hlock]
      by_cases hqp : q = p
      · subst hqp
        exact h q (hc hq)
      · exact h q (hothers q hqp hq)
  | take hfree hlock =>
      subst hfree
      by_cases hqp : q = p
      · rw [hlock, hqp]
      · exact absurd (hothers q hqp hq) h.not_critical
  | release hc hlock hout =>
      by_cases hqp : q = p
      · subst hqp
        exact absurd hq hout
      · exact absurd (h.eq (hothers q hqp hq) hc) hqp

/-- Who has the mutex is in the critical section, and so can still give it back. -/
def Held (critical : P → Prop) (lock : Option P) : Prop :=
  ∀ p, lock = some p → critical p

theorem Handover.lock_cases {c c' : Prop} (h : Handover p c c' lock lock') :
    lock' = lock ∨ lock' = some p ∨ lock' = none := by
  cases h with
  | keep hlock hc => exact .inl hlock
  | take hfree hlock => exact .inr (.inl hlock)
  | release hc hlock hout => exact .inr (.inr hlock)

theorem Held.handover (h : Held critical lock)
    (hothers : ∀ q, q ≠ p → critical q → critical' q)
    (hlock : lock' = lock ∨ lock' = some p ∨ lock' = none)
    (hself : lock' = some p → critical' p) : Held critical' lock' := by
  intro q hq
  by_cases hqp : q = p
  · rw [hqp] at hq ⊢
    exact hself hq
  · rcases hlock with hsame | htaken | hfree
    · exact hothers q hqp (h q (hsame ▸ hq))
    · exact absurd (Option.some.inj (hq.symm.trans htaken)) hqp
    · cases hq.symm.trans hfree

end Mutex

end Interleaving
