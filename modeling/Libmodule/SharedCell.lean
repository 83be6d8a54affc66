import Libmodule.Interleaving
import Mathlib.Data.List.Induction
import Mathlib.Logic.Function.Basic

/-!
# Parties that share a cell

Every party has a state of its own, and all of them read and write one cell.  What a party
does when it is alone, with a cell for itself, is compared with what it does among others.
-/

namespace SharedCell

open Interleaving

variable {ι α σ ε β : Type*}

structure Parties (ι α σ : Type*) where
  party : ι → α
  cell : σ

section Step

variable [DecidableEq ι] (own : α × σ → ε → Option (α × σ))

/-- A step of one party, with the cell as it is. -/
def step (s : Parties ι α σ) (e : ι × ε) : Option (Parties ι α σ) :=
  (own (s.party e.1, s.cell) e.2).map
    (fun x => { party := Function.update s.party e.1 x.1, cell := x.2 })

def eventsOf (i : ι) (events : List (ι × ε)) : List ε :=
  events.filterMap (fun e => if e.1 = i then some e.2 else none)

/-- What the party would be like if it had the cell for itself. -/
def alone (i : ι) (s : Parties ι α σ) (events : List (ι × ε)) : Option (α × σ) :=
  run own (s.party i, s.cell) (eventsOf i events)

/-- Whenever the party takes a step that looks at the cell, it finds what it would find if it
were alone. -/
def Undisturbed (looks : ε → Prop) (i : ι) (s : Parties ι α σ) (events : List (ι × ε)) : Prop :=
  ∀ before e, before ++ [(i, e)] <+: events → looks e → ∀ t o,
    run (step own) s before = some t → alone own i s before = some o → t.cell = o.2

end Step

section Alone

variable [DecidableEq ι] {own : α × σ → ε → Option (α × σ)} {i j : ι} {s t : Parties ι α σ}
  {events : List (ι × ε)} {e : ε}

theorem eventsOf_concat_self : eventsOf i (events ++ [(i, e)]) = eventsOf i events ++ [e] := by
  simp [eventsOf]

theorem eventsOf_concat_ne (hji : j ≠ i) :
    eventsOf i (events ++ [(j, e)]) = eventsOf i events := by
  simp [eventsOf, hji]

theorem step_self (h : step own s (i, e) = some t) :
    own (s.party i, s.cell) e = some (t.party i, t.cell) := by
  obtain ⟨x, hx, rfl⟩ := Option.map_eq_some_iff.mp h
  simpa using hx

theorem step_ne (hji : j ≠ i) (h : step own s (j, e) = some t) : t.party i = s.party i := by
  obtain ⟨x, -, rfl⟩ := Option.map_eq_some_iff.mp h
  exact Function.update_of_ne hji.symm x.1 s.party

/-- What does not depend on the cell is the same alone and among others. -/
theorem autonomous {view : α → β} {next : β → ε → Option β}
    (hview : ∀ a c e, (own (a, c) e).map (fun x => view x.1) = next (view a) e)
    (hrun : run (step own) s events = some t) :
    ∃ o, alone own i s events = some o ∧ view (t.party i) = view o.1 := by
  induction events using List.reverseRecOn generalizing t with
  | nil =>
      cases hrun
      exact ⟨_, rfl, rfl⟩
  | append_singleton events e ih =>
      obtain ⟨u, hu, hstep⟩ := run_concat.mp hrun
      obtain ⟨o, ho, hsame⟩ := ih hu
      obtain ⟨j, e⟩ := e
      by_cases hji : j = i
      · subst hji
        have hnext := hview (u.party j) u.cell e
        rw [step_self hstep, hsame, ← hview o.1 o.2 e] at hnext
        obtain ⟨o', ho', hview'⟩ := Option.map_eq_some_iff.mp hnext.symm
        refine ⟨o', ?_, hview'.symm⟩
        rw [alone, eventsOf_concat_self, run_concat]
        exact ⟨o, ho, ho'⟩
      · rw [alone, eventsOf_concat_ne hji, step_ne hji hstep]
        exact ⟨o, ho, hsame⟩

/-- A party that finds in the cell what it would find alone is as it would be alone. -/
theorem Undisturbed.agrees {looks : ε → Prop}
    (hlooks : ∀ a c c' e, ¬ looks e → (own (a, c) e).map Prod.fst = (own (a, c') e).map Prod.fst)
    (hund : Undisturbed own looks i s events) (hrun : run (step own) s events = some t) :
    ∃ o, alone own i s events = some o ∧ t.party i = o.1 := by
  induction events using List.reverseRecOn generalizing t with
  | nil =>
      cases hrun
      exact ⟨_, rfl, rfl⟩
  | append_singleton events e ih =>
      obtain ⟨u, hu, hstep⟩ := run_concat.mp hrun
      obtain ⟨o, ho, hsame⟩ := ih
        (fun before e hbefore => hund before e (hbefore.trans (List.prefix_append ..))) hu
      obtain ⟨j, e⟩ := e
      by_cases hji : j = i
      · subst hji
        have hown : (own (u.party j, u.cell) e).map Prod.fst = (own o e).map Prod.fst := by
          rw [hsame]
          by_cases hlook : looks e
          · rw [hund events e List.prefix_rfl hlook u o hu ho]
          · exact hlooks o.1 u.cell o.2 e hlook
        rw [step_self hstep] at hown
        obtain ⟨o', ho', hfst⟩ := Option.map_eq_some_iff.mp hown.symm
        refine ⟨o', ?_, hfst.symm⟩
        rw [alone, eventsOf_concat_self, run_concat]
        exact ⟨o, ho, ho'⟩
      · rw [alone, eventsOf_concat_ne hji, step_ne hji hstep]
        exact ⟨o, ho, hsame⟩

end Alone

end SharedCell
