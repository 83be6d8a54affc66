import Libmodule.Reentrant

/-!
# Runs that go on as others

The steps that lead from one program to another: the run of the first is then the run of
the second with these steps in front.
-/

namespace Reentrant

variable {L : Lang} {σ α β : Type}

/-- After some steps, all of them as `Q` says, the run of `p` from `s` is that of `q` from
`t`. -/
def Prog.Advances (H : Handler L σ) (Q : Step L σ → Prop) (p : Prog L α) (s : σ)
    (q : Prog L α) (t : σ) : Prop :=
  ∃ steps, (∀ step ∈ steps, Q step) ∧
    p.run H s = ⟨(q.run H t).value, (q.run H t).state, steps ++ (q.run H t).steps⟩

namespace Prog

variable {H : Handler L σ} {Q : Step L σ → Prop} {p q r : Prog L α} {s t u : σ}

theorem Advances.refl : p.Advances H Q s p s :=
  ⟨[], by simp, by simp⟩

theorem Advances.trans (h : p.Advances H Q s q t) (h' : q.Advances H Q t r u) :
    p.Advances H Q s r u := by
  obtain ⟨steps, hsteps, hrun⟩ := h
  obtain ⟨steps', hsteps', hrun'⟩ := h'
  refine ⟨steps ++ steps', ?_, ?_⟩
  · intro step hstep
    rcases List.mem_append.mp hstep with hstep | hstep
    · exact hsteps step hstep
    · exact hsteps' step hstep
  · rw [hrun, hrun', List.append_assoc]

/-- What follows two programs does not tell them apart. -/
theorem Advances.bind {f : α → Prog L β} (h : p.Advances H Q s q t) :
    (p >>= f).Advances H Q s (q >>= f) t := by
  obtain ⟨steps, hsteps, hrun⟩ := h
  refine ⟨steps, hsteps, ?_⟩
  rw [run_bind, hrun, run_bind, Out.bind, Out.bind]
  cases (q.run H t).value with
  | none => rfl
  | some a => simp only [List.append_assoc]

theorem Advances.perform {o : L.Op} {a : L.Resp o} {f : L.Resp o → Prog L β}
    (hexec : H.exec o s = some (a, t)) (hQ : Q ⟨.op o, s⟩) :
    (Prog.perform o >>= f).Advances H Q s (f a) t := by
  refine ⟨[⟨.op o, s⟩], by simpa using hQ, ?_⟩
  rw [run_bind, run_perform_some hexec, Out.after_bind, Out.bind_done]
  rfl

/-- A program that only reads on the way to its result. -/
theorem Advances.pure_bind {a : α} {f : α → Prog L β} (h : p.Advances H Q s (pure a) t) :
    (p >>= f).Advances H Q s (f a) t :=
  h.bind

/-- A program that ends leads to its result. -/
theorem Advances.of_ends {a : α} (hends : p.Ends H s a t) (hQ : p.Every H Q s) :
    p.Advances H Q s (pure a) t := by
  obtain ⟨hvalue, hstate⟩ := hends
  refine ⟨(p.run H s).steps, hQ, Out.ext ?_ ?_ ?_⟩
  · exact hvalue
  · exact hstate
  · simp [Out.done]

theorem Advances.mem_steps {step : Step L σ} (h : p.Advances H Q s q t)
    (hstep : step ∈ (q.run H t).steps) : step ∈ (p.run H s).steps := by
  obtain ⟨steps, -, hrun⟩ := h
  rw [hrun]
  exact List.mem_append_right steps hstep

theorem Advances.ends_iff {a : α} (h : p.Advances H Q s q t) :
    p.Ends H s a u ↔ q.Ends H t a u := by
  obtain ⟨steps, -, hrun⟩ := h
  rw [Ends, hrun]
  rfl

/-- What is not among the steps on the way is first found where the run goes on. -/
theorem Advances.findSome? {γ : Type} {f : Step L σ → Option γ}
    (hf : ∀ step, Q step → f step = none) (h : p.Advances H Q s q t) :
    (p.run H s).steps.findSome? f = (q.run H t).steps.findSome? f := by
  obtain ⟨steps, hsteps, hrun⟩ := h
  have hnone : steps.findSome? f = none :=
    List.findSome?_eq_none_iff.mpr (fun step hstep => hf step (hsteps step hstep))
  rw [hrun, List.findSome?_append, hnone, Option.none_or]

/-- The steps of two programs one after the other, when the first ends. -/
theorem every_bind_of_ends {f : α → Prog L β} {a : α} (h : p.Ends H s a t) :
    (p >>= f).Every H Q s ↔ p.Every H Q s ∧ (f a).Every H Q t := by
  rw [every_bind]
  refine and_congr_right fun _ => ⟨fun hall => hall a t h, fun hf b u hb => ?_⟩
  obtain ⟨rfl, rfl⟩ := h.unique hb
  exact hf

end Prog

/-! ## Callbacks -/

/-- The step is not a callback. -/
def Silent (step : Step L σ) : Prop := ∀ h, step.act ≠ .hook h

def Step.hook? (step : Step L σ) : Option L.Hook :=
  match step.act with
  | .hook h => some h
  | _ => none

/-- The first callback of a run. -/
def Out.firstHook (x : Out L σ α) : Option L.Hook := x.steps.findSome? Step.hook?

section Callbacks

variable {H : Handler L σ} {s t : σ}

theorem Silent.hook?_eq_none {step : Step L σ} (h : Silent step) : step.hook? = none := by
  obtain ⟨act, before⟩ := step
  cases act with
  | hook hook => exact absurd rfl (h hook)
  | op _ => rfl
  | call _ => rfl
  | halt => rfl

theorem Prog.Advances.firstHook {p q : Prog L α} (h : p.Advances H Silent s q t) :
    (p.run H s).firstHook = (q.run H t).firstHook :=
  h.findSome? (fun _ => Silent.hook?_eq_none)

/-- The first callback of a program is the first whatever follows. -/
theorem Prog.firstHook_bind {p : Prog L α} {f : α → Prog L β} {h : L.Hook}
    (hp : (p.run H s).firstHook = some h) : ((p >>= f).run H s).firstHook = some h := by
  rw [run_bind, Out.bind]
  cases (p.run H s).value with
  | none => exact hp
  | some a =>
      rw [Out.firstHook, List.findSome?_append]
      exact Option.or_of_isSome (Option.isSome_iff_exists.mpr ⟨h, hp⟩) ▸ hp

theorem Prog.firstHook_notify (h : L.Hook) (f : Bool → Prog L α) (s : σ) :
    ((Prog.notify h >>= f).run H s).firstHook = some h := by
  rw [run_bind, Prog.notify, run, Out.after_bind]
  rfl

theorem Prog.firstHook_pure (a : α) (s : σ) :
    ((pure a : Prog L α).run H s).firstHook = none := rfl

/-- The run ends, or gets to a callback. -/
def Prog.Proceeds (H : Handler L σ) (p : Prog L α) (s : σ) : Prop :=
  (∃ a t, p.Ends H s a t) ∨ (p.run H s).firstHook.isSome

theorem Prog.Advances.proceeds_iff {p q : Prog L α} (h : p.Advances H Silent s q t) :
    p.Proceeds H s ↔ q.Proceeds H t := by
  unfold Prog.Proceeds
  rw [h.firstHook]
  simp only [h.ends_iff]

theorem Prog.Proceeds.of_bind {p : Prog L β} {f : β → Prog L α}
    (h : (p >>= f).Proceeds H s) : p.Proceeds H s := by
  cases hvalue : (p.run H s).value with
  | some b => exact .inl ⟨b, _, hvalue, rfl⟩
  | none =>
      unfold Prog.Proceeds Prog.Ends at h
      rw [Prog.run_bind, Out.bind, hvalue] at h
      rcases h with ⟨a, t, hnone, -⟩ | hhook
      · cases hnone
      · exact .inr hhook

theorem Prog.not_proceeds_halt (f : β → Prog L α) :
    ¬ (Prog.halt >>= f : Prog L α).Proceeds H s := by
  rintro (⟨a, t, hvalue, -⟩ | hhook)
  · cases hvalue
  · cases hhook

/-- An operation that a run gets past is defined. -/
theorem Prog.exec_of_proceeds {o : L.Op} {f : L.Resp o → Prog L α}
    (h : (Prog.perform o >>= f).Proceeds H s) : ∃ a t, H.exec o s = some (a, t) := by
  cases hexec : H.exec o s with
  | none =>
      have hrun : (Prog.perform o >>= f : Prog L α).run H s =
          (Out.stopped s).after (.op o) s := by
        rw [Prog.run_bind, Prog.run_perform, hexec]
        rfl
      unfold Prog.Proceeds Prog.Ends at h
      rw [hrun] at h
      rcases h with ⟨a, t, hvalue, -⟩ | hhook
      · cases hvalue
      · cases hhook
  | some next => exact ⟨next.1, next.2, rfl⟩

end Callbacks

end Reentrant
