import Mathlib.Data.Int.Notation
import Mathlib.Data.Nat.Notation
import Mathlib.Logic.Basic

/-!
# Programs with re-entrant callbacks

A program performs operations on a state, hands control to code it does not
know, and calls procedures of its own interface.  The unknown code may call
the same interface, at any depth.  A run records every operation, callback
and procedure call together with the state it is reached in; the depth of
nesting is bounded by a number that every statement quantifies over.
-/

namespace Reentrant

/-- What programs of one kind are made of. -/
structure Lang where
  Op : Type
  Resp : Op → Type
  Hook : Type
  Call : Type

inductive Prog (L : Lang) (α : Type) : Type where
  | ret (a : α)
  | halt
  | op (o : L.Op) (k : L.Resp o → Prog L α)
  | hook (h : L.Hook) (k : Bool → Prog L α)
  | call (c : L.Call) (k : ℤ → Prog L α)

inductive Act (L : Lang) where
  | op (o : L.Op)
  | hook (h : L.Hook)
  | call (c : L.Call)
  | halt

structure Step (L : Lang) (σ : Type) where
  act : Act L
  before : σ

/-- How a run ends: with a value, or stopped on the way. -/
@[ext]
structure Out (L : Lang) (σ α : Type) where
  value : Option α
  state : σ
  steps : List (Step L σ)

/-- The meaning of operations, of callbacks and of the interface. -/
structure Handler (L : Lang) (σ : Type) where
  exec : (o : L.Op) → σ → Option (L.Resp o × σ)
  onHook : L.Hook → σ → Out L σ Bool
  onCall : L.Call → σ → Out L σ ℤ

/-- A program for each procedure, and what the unknown code does at a hook. -/
structure Machine (L : Lang) (σ : Type) where
  exec : (o : L.Op) → σ → Option (L.Resp o × σ)
  body : L.Call → Prog L ℤ
  react : L.Hook → σ → List L.Call × Bool × σ

variable {L : Lang} {σ α β : Type}

namespace Prog

def bind : Prog L α → (α → Prog L β) → Prog L β
  | ret a, f => f a
  | halt, _ => halt
  | op o k, f => op o (fun r => (k r).bind f)
  | hook h k, f => hook h (fun b => (k b).bind f)
  | call c k, f => call c (fun n => (k n).bind f)

instance : Monad (Prog L) where
  pure := ret
  bind := bind

/-- The program that performs one operation. -/
def perform (o : L.Op) : Prog L (L.Resp o) := op o ret

def invoke (c : L.Call) : Prog L ℤ := call c ret

def notify (h : L.Hook) : Prog L Bool := hook h ret

end Prog

namespace Out

def done (a : α) (s : σ) : Out L σ α := ⟨some a, s, []⟩

def stopped (s : σ) : Out L σ α := ⟨none, s, []⟩

def bind (x : Out L σ α) (f : α → σ → Out L σ β) : Out L σ β :=
  match x.value with
  | none => ⟨none, x.state, x.steps⟩
  | some a => ⟨(f a x.state).value, (f a x.state).state, x.steps ++ (f a x.state).steps⟩

/-- The run with one more step in front. -/
def after (x : Out L σ α) (act : Act L) (s : σ) : Out L σ α :=
  { x with steps := ⟨act, s⟩ :: x.steps }

@[simp] theorem bind_done (a : α) (s : σ) (f : α → σ → Out L σ β) :
    (done a s).bind f = f a s := rfl

@[simp] theorem bind_stopped (s : σ) (f : α → σ → Out L σ β) :
    (stopped s : Out L σ α).bind f = stopped s := rfl

@[simp] theorem after_bind (x : Out L σ α) (act : Act L) (s : σ) (f : α → σ → Out L σ β) :
    (x.after act s).bind f = (x.bind f).after act s := by
  obtain ⟨value, state, steps⟩ := x
  cases value <;> rfl

theorem bind_assoc {γ : Type} (x : Out L σ α) (f : α → σ → Out L σ β)
    (g : β → σ → Out L σ γ) : (x.bind f).bind g = x.bind (fun a s => (f a s).bind g) := by
  obtain ⟨value, state, steps⟩ := x
  cases value with
  | none => rfl
  | some a =>
      simp only [bind]
      cases hv : (f a state).value with
      | none => rfl
      | some b => simp [List.append_assoc]

@[simp] theorem after_value (x : Out L σ α) (act : Act L) (s : σ) :
    (x.after act s).value = x.value := rfl

@[simp] theorem after_state (x : Out L σ α) (act : Act L) (s : σ) :
    (x.after act s).state = x.state := rfl

@[simp] theorem after_steps (x : Out L σ α) (act : Act L) (s : σ) :
    (x.after act s).steps = ⟨act, s⟩ :: x.steps := rfl

/-- Runs one program after another, dropping their results. -/
def sequence (f : α → σ → Out L σ β) : List α → σ → Out L σ Unit
  | [], s => done () s
  | a :: as, s => (f a s).bind (fun _ s => sequence f as s)

end Out

def Prog.run (H : Handler L σ) : Prog L α → σ → Out L σ α
  | ret a, s => Out.done a s
  | halt, s => (Out.stopped s).after .halt s
  | op o k, s =>
      match H.exec o s with
      | none => (Out.stopped s).after (.op o) s
      | some (r, s') => ((k r).run H s').after (.op o) s
  | hook h k, s => ((H.onHook h s).bind (fun b s => (k b).run H s)).after (.hook h) s
  | call c k, s => ((H.onCall c s).bind (fun n s => (k n).run H s)).after (.call c) s

/-- The handler whose callbacks and procedure calls nest at most `depth` deep. -/
def Machine.handler (M : Machine L σ) : ℕ → Handler L σ
  | 0 =>
      { exec := M.exec
        onHook := fun _ s => Out.stopped s
        onCall := fun _ s => Out.stopped s }
  | depth + 1 =>
      { exec := M.exec
        onHook := fun h s =>
          let (calls, answer, s) := M.react h s
          (Out.sequence (M.handler depth).onCall calls s).bind (fun _ s => Out.done answer s)
        onCall := fun c s => (M.body c).run (M.handler depth) s }

/-- A list of calls made one after the other from outside. -/
def Machine.runCalls (M : Machine L σ) (depth : ℕ) (calls : List L.Call) (s : σ) :
    Out L σ Unit :=
  Out.sequence (M.handler depth).onCall calls s

namespace Prog

variable {H : Handler L σ}

@[simp] theorem run_pure (a : α) (s : σ) : (pure a : Prog L α).run H s = Out.done a s := rfl

@[simp] theorem run_halt (s : σ) :
    (halt : Prog L α).run H s = (Out.stopped s).after .halt s := rfl

@[simp] theorem run_bind (p : Prog L α) (f : α → Prog L β) (s : σ) :
    (p >>= f).run H s = (p.run H s).bind (fun a s => (f a).run H s) := by
  show (p.bind f).run H s = _
  induction p generalizing s with
  | ret a => rfl
  | halt => rfl
  | op o k ih =>
      simp only [bind, run]
      cases H.exec o s with
      | none => rfl
      | some next => simp only [ih, Out.after_bind]
  | hook h k ih => simp only [bind, run, ih, Out.after_bind, Out.bind_assoc]
  | call c k ih => simp only [bind, run, ih, Out.after_bind, Out.bind_assoc]

theorem run_perform (o : L.Op) (s : σ) :
    (perform o).run H s =
      match H.exec o s with
      | none => (Out.stopped s).after (.op o) s
      | some (r, s') => (Out.done r s').after (.op o) s := by
  rw [perform, run]
  cases H.exec o s <;> rfl

theorem run_perform_some {o : L.Op} {s s' : σ} {r : L.Resp o} (h : H.exec o s = some (r, s')) :
    (perform o).run H s = (Out.done r s').after (.op o) s := by
  rw [run_perform, h]

end Prog

/-! ## Results of runs -/

/-- The run ends with the value `a` in the state `t`. -/
def Out.Ends (x : Out L σ α) (a : α) (t : σ) : Prop := x.value = some a ∧ x.state = t

namespace Out

@[simp] theorem ends_done {a b : α} {s t : σ} :
    (done a s : Out L σ α).Ends b t ↔ b = a ∧ t = s := by
  simp only [Ends, done, Option.some.injEq, eq_comm]

@[simp] theorem ends_stopped {s t : σ} {b : α} : ¬ (stopped s : Out L σ α).Ends b t := by
  simp [Ends, stopped]

@[simp] theorem ends_after {x : Out L σ α} {act : Act L} {s t : σ} {b : α} :
    (x.after act s).Ends b t ↔ x.Ends b t := Iff.rfl

theorem ends_bind {x : Out L σ α} {f : α → σ → Out L σ β} {b : β} {t : σ} :
    (x.bind f).Ends b t ↔ ∃ a s, x.Ends a s ∧ (f a s).Ends b t := by
  obtain ⟨value, state, steps⟩ := x
  cases value with
  | none => simp [Ends, bind]
  | some a =>
      simp only [Ends, bind, Option.some.injEq]
      constructor
      · intro h
        exact ⟨a, state, ⟨rfl, rfl⟩, h⟩
      · rintro ⟨a, s, ⟨rfl, rfl⟩, h⟩
        exact h

end Out

namespace Prog

variable {H : Handler L σ} {s t : σ}

/-- The program ends with the value `a`, taking the state `s` to `t`. -/
def Ends (H : Handler L σ) (p : Prog L α) (s : σ) (a : α) (t : σ) : Prop :=
  (p.run H s).Ends a t

@[simp] theorem ends_pure {a b : α} : (pure a : Prog L α).Ends H s b t ↔ b = a ∧ t = s :=
  Out.ends_done

@[simp] theorem ends_halt {b : α} : ¬ (halt : Prog L α).Ends H s b t := by
  simp [Ends]

@[simp] theorem ends_bind {p : Prog L α} {f : α → Prog L β} {b : β} :
    (p >>= f).Ends H s b t ↔ ∃ a u, p.Ends H s a u ∧ (f a).Ends H u b t := by
  rw [Ends, run_bind, Out.ends_bind]
  rfl

theorem Ends.unique {p : Prog L α} {a b : α} {u : σ} (ha : p.Ends H s a t)
    (hb : p.Ends H s b u) : a = b ∧ t = u := by
  obtain ⟨hvalue, rfl⟩ := ha
  obtain ⟨hvalue', rfl⟩ := hb
  exact ⟨Option.some.inj (hvalue.symm.trans hvalue'), rfl⟩

/-- A program that takes a step first takes it whatever follows. -/
theorem head?_bind {p : Prog L α} {f : α → Prog L β} {step : Step L σ}
    (hp : (p.run H s).steps.head? = some step) :
    ((p >>= f).run H s).steps.head? = some step := by
  rw [run_bind, Out.bind]
  cases (p.run H s).value with
  | none => exact hp
  | some a =>
      rw [List.head?_append, hp]
      rfl

theorem run_bind_congr {p : Prog L α} {f g : α → Prog L β}
    (hfg : ∀ a t, p.Ends H s a t → (f a).run H t = (g a).run H t) :
    (p >>= f).run H s = (p >>= g).run H s := by
  simp only [run_bind, Out.bind]
  cases hvalue : (p.run H s).value with
  | none => rfl
  | some a => simp only [hfg a _ ⟨hvalue, rfl⟩]

theorem steps_bind {p : Prog L α} {f : α → Prog L β} {a : α} (hp : p.Ends H s a t) :
    ((p >>= f).run H s).steps = (p.run H s).steps ++ ((f a).run H t).steps := by
  obtain ⟨hvalue, rfl⟩ := hp
  simp only [run_bind, Out.bind, hvalue]

/-- What follows a program that ends decides whether two runs are the same. -/
theorem run_bind_eq_iff {p : Prog L α} {f g : α → Prog L β} {a : α} (hp : p.Ends H s a t) :
    (p >>= f).run H s = (p >>= g).run H s ↔ (f a).run H t = (g a).run H t := by
  obtain ⟨hvalue, hstate⟩ := hp
  subst hstate
  simp only [run_bind, Out.bind, hvalue, Out.mk.injEq, List.append_cancel_left_eq]
  constructor
  · rintro ⟨hv, ht, hsteps⟩
    exact Out.ext hv ht hsteps
  · intro heq
    simp [heq]

@[simp] theorem ends_perform {o : L.Op} {r : L.Resp o} :
    (perform o).Ends H s r t ↔ H.exec o s = some (r, t) := by
  rw [Ends, run_perform]
  cases hexec : H.exec o s with
  | none => simp
  | some next =>
      obtain ⟨r', t'⟩ := next
      simp only [Out.ends_after, Out.ends_done, Option.some.injEq, Prod.mk.injEq]
      constructor
      · rintro ⟨rfl, rfl⟩
        exact ⟨rfl, rfl⟩
      · rintro ⟨rfl, rfl⟩
        exact ⟨rfl, rfl⟩

theorem ends_invoke {c : L.Call} {n : ℤ} :
    (invoke c).Ends H s n t ↔ (H.onCall c s).Ends n t := by
  rw [Ends, invoke, run, Out.ends_after, Out.ends_bind]
  simp [run]

theorem ends_notify {h : L.Hook} {b : Bool} :
    (notify h).Ends H s b t ↔ (H.onHook h s).Ends b t := by
  rw [Ends, notify, run, Out.ends_after, Out.ends_bind]
  simp [run]

end Prog

/-! ## Properties of all steps -/

/-- All steps of the run have the property. -/
def Out.Every (Q : Step L σ → Prop) (x : Out L σ α) : Prop := ∀ step ∈ x.steps, Q step

section Every

variable {Q : Step L σ → Prop}

@[simp] theorem Out.every_done {a : α} {s : σ} : (Out.done a s : Out L σ α).Every Q := by
  simp [Out.Every, Out.done]

@[simp] theorem Out.every_stopped {s : σ} : (Out.stopped s : Out L σ α).Every Q := by
  simp [Out.Every, Out.stopped]

@[simp] theorem Out.every_after {x : Out L σ α} {act : Act L} {s : σ} :
    (x.after act s).Every Q ↔ Q ⟨act, s⟩ ∧ x.Every Q := by
  simp [Out.Every]

theorem Out.every_bind {x : Out L σ α} {f : α → σ → Out L σ β} :
    (x.bind f).Every Q ↔ x.Every Q ∧ ∀ a s, x.Ends a s → (f a s).Every Q := by
  obtain ⟨value, state, steps⟩ := x
  cases value with
  | none => simp [Out.Every, Out.bind, Out.Ends]
  | some a =>
      simp only [Out.Every, Out.bind, Out.Ends, List.mem_append, Option.some.injEq]
      constructor
      · intro h
        refine ⟨fun step hstep => h step (.inl hstep), ?_⟩
        rintro a s ⟨rfl, rfl⟩ step hstep
        exact h step (.inr hstep)
      · rintro ⟨hfirst, hsecond⟩ step (hstep | hstep)
        · exact hfirst step hstep
        · exact hsecond a state ⟨rfl, rfl⟩ step hstep

namespace Prog

variable {H : Handler L σ} {s : σ}

/-- All steps of the program from the state `s` have the property. -/
def Every (H : Handler L σ) (Q : Step L σ → Prop) (p : Prog L α) (s : σ) : Prop :=
  (p.run H s).Every Q

@[simp] theorem every_pure {a : α} : (pure a : Prog L α).Every H Q s := Out.every_done

@[simp] theorem every_halt : (halt : Prog L α).Every H Q s ↔ Q ⟨.halt, s⟩ := by
  simp [Every]

@[simp] theorem every_bind {p : Prog L α} {f : α → Prog L β} :
    (p >>= f).Every H Q s ↔ p.Every H Q s ∧ ∀ a t, p.Ends H s a t → (f a).Every H Q t := by
  rw [Every, run_bind, Out.every_bind]
  rfl

@[simp] theorem every_perform {o : L.Op} : (perform o).Every H Q s ↔ Q ⟨.op o, s⟩ := by
  rw [Every, run_perform]
  cases H.exec o s <;> simp

theorem every_invoke {c : L.Call} :
    (invoke c).Every H Q s ↔ Q ⟨.call c, s⟩ ∧ (H.onCall c s).Every Q := by
  rw [Every, invoke, run, Out.every_after, Out.every_bind]
  simp [run]

theorem every_notify {h : L.Hook} :
    (notify h).Every H Q s ↔ Q ⟨.hook h, s⟩ ∧ (H.onHook h s).Every Q := by
  rw [Every, notify, run, Out.every_after, Out.every_bind]
  simp [run]

end Prog

end Every

@[simp] theorem Machine.handler_exec (M : Machine L σ) (depth : ℕ) :
    (M.handler depth).exec = M.exec := by
  cases depth <;> rfl

theorem Machine.onCall_zero (M : Machine L σ) (c : L.Call) (s : σ) :
    (M.handler 0).onCall c s = Out.stopped s := rfl

theorem Machine.onCall_succ (M : Machine L σ) (depth : ℕ) (c : L.Call) (s : σ) :
    (M.handler (depth + 1)).onCall c s = (M.body c).run (M.handler depth) s := rfl

/-! ## Invariants of runs -/

section Invariant

variable (C : Step L σ → Prop) (I : σ → Prop)

/-- If all its steps meet `C`, the run meets `I` at every step and at its end. -/
def Out.Keeps (x : Out L σ α) : Prop :=
  (∀ step ∈ x.steps, C step) → (∀ step ∈ x.steps, I step.before) ∧ I x.state

structure Handler.Keeps (H : Handler L σ) : Prop where
  exec : ∀ o s r s', I s → C ⟨.op o, s⟩ → H.exec o s = some (r, s') → I s'
  onHook : ∀ h s, I s → (H.onHook h s).Keeps C I
  onCall : ∀ c s, I s → (H.onCall c s).Keeps C I

structure Machine.Keeps (M : Machine L σ) : Prop where
  exec : ∀ o s r s', I s → C ⟨.op o, s⟩ → M.exec o s = some (r, s') → I s'
  react : ∀ h s, I s → I (M.react h s).2.2

variable {C I}

theorem Out.Keeps.done {a : α} {s : σ} (hs : I s) : (Out.done a s : Out L σ α).Keeps C I := by
  intro _
  exact ⟨by simp [Out.done], hs⟩

theorem Out.Keeps.stopped {s : σ} (hs : I s) : (Out.stopped s : Out L σ α).Keeps C I := by
  intro _
  exact ⟨by simp [Out.stopped], hs⟩

theorem Out.Keeps.after {x : Out L σ α} {act : Act L} {s : σ} (hs : I s)
    (hx : C ⟨act, s⟩ → x.Keeps C I) : (x.after act s).Keeps C I := by
  intro hsteps
  have hrest := hx (hsteps _ (by simp)) (fun step hstep => hsteps step (by simp [hstep]))
  refine ⟨?_, hrest.2⟩
  intro step hstep
  rcases List.mem_cons.mp hstep with rfl | hstep
  · exact hs
  · exact hrest.1 step hstep

theorem Out.Keeps.bind {x : Out L σ α} {f : α → σ → Out L σ β} (hx : x.Keeps C I)
    (hf : ∀ a s, I s → (f a s).Keeps C I) : (x.bind f).Keeps C I := by
  obtain ⟨value, state, steps⟩ := x
  cases value with
  | none => exact hx
  | some a =>
      intro hsteps
      have hfirst := hx (fun step hstep => hsteps step (by simp [Out.bind, hstep]))
      have hsecond := hf a state hfirst.2
        (fun step hstep => hsteps step (by simp [Out.bind, hstep]))
      refine ⟨?_, hsecond.2⟩
      intro step hstep
      simp only [Out.bind, List.mem_append] at hstep
      rcases hstep with hstep | hstep
      · exact hfirst.1 step hstep
      · exact hsecond.1 step hstep

theorem Out.Keeps.sequence {f : α → σ → Out L σ β} (hf : ∀ a s, I s → (f a s).Keeps C I)
    (as : List α) {s : σ} (hs : I s) : (Out.sequence f as s).Keeps C I := by
  induction as generalizing s with
  | nil => exact Out.Keeps.done hs
  | cons a as ih =>
      apply Out.Keeps.bind (hf a s hs)
      intro _ s hs
      exact ih hs

/-- A program keeps what its operations, callbacks and calls keep. -/
theorem Prog.run_keeps {H : Handler L σ} (hH : H.Keeps C I) (p : Prog L α) {s : σ} (hs : I s) :
    (p.run H s).Keeps C I := by
  induction p generalizing s with
  | ret a => exact Out.Keeps.done hs
  | halt => exact Out.Keeps.after hs (fun _ => Out.Keeps.stopped hs)
  | op o k ih =>
      simp only [Prog.run]
      cases hexec : H.exec o s with
      | none => exact Out.Keeps.after hs (fun _ => Out.Keeps.stopped hs)
      | some next =>
          apply Out.Keeps.after hs
          intro hC
          exact ih next.1 (hH.exec o s next.1 next.2 hs hC hexec)
  | hook h k ih =>
      apply Out.Keeps.after hs
      intro _
      exact (hH.onHook h s hs).bind (fun b s hs => ih b hs)
  | call c k ih =>
      apply Out.Keeps.after hs
      intro _
      exact (hH.onCall c s hs).bind (fun n s hs => ih n hs)

theorem Machine.Keeps.handler {M : Machine L σ} (hM : M.Keeps C I) (depth : ℕ) :
    (M.handler depth).Keeps C I := by
  induction depth with
  | zero =>
      exact
        { exec := hM.exec
          onHook := fun _ _ hs => Out.Keeps.stopped hs
          onCall := fun _ _ hs => Out.Keeps.stopped hs }
  | succ depth ih =>
      exact
        { exec := hM.exec
          onHook := fun h s hs =>
            (Out.Keeps.sequence ih.onCall _ (hM.react h s hs)).bind
              (fun _ _ hs => Out.Keeps.done hs)
          onCall := fun c _ hs => (M.body c).run_keeps ih hs }

/-- An invariant of the operations holds throughout every run of calls, however
callbacks nest, as long as all steps meet the condition. -/
theorem Machine.Keeps.runCalls {M : Machine L σ} (hM : M.Keeps C I) (depth : ℕ)
    (calls : List L.Call) {s : σ} (hs : I s) : (M.runCalls depth calls s).Keeps C I :=
  Out.Keeps.sequence (hM.handler depth).onCall calls hs

end Invariant

end Reentrant
