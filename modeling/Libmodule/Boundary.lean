import Libmodule.Reentrant

/-!
# What programs grant

A program may break an invariant between two operations, as long as the invariant holds
again whenever control passes to code it does not know.  So an invariant is assumed and
shown where a callback or a call begins and ends, and each program is examined on its
own, as if those callbacks and calls kept it.

Of the steps of a run one condition may be assumed, and another is shown.  Both may look
at a memory that each step brings up to date.  The invariant has an index, which a
callback or a call leaves as it is: what the programs in progress still have to undo.
-/

namespace Reentrant

variable {L : Lang} {σ α β γ ι : Type}

/-- What is remembered of the steps so far, and what is assumed and shown of each step. -/
structure Monitor (L : Lang) (σ γ : Type) where
  next : γ → Step L σ → γ
  assumed : γ → Step L σ → Prop
  shown : γ → Step L σ → Prop

/-- Nothing is remembered, assumed or shown. -/
def Monitor.idle : Monitor L σ Unit where
  next := fun _ _ => ()
  assumed := fun _ _ => True
  shown := fun _ _ => True

/-- Each step has the property, given what is remembered before it. -/
def Along (next : γ → Step L σ → γ) (P : γ → Step L σ → Prop) : γ → List (Step L σ) → Prop
  | _, [] => True
  | g, step :: steps => P g step ∧ Along next P (next g step) steps

section Along

variable {next : γ → Step L σ → γ} {P : γ → Step L σ → Prop} {g : γ}

@[simp] theorem along_nil : Along next P g [] := trivial

@[simp] theorem along_cons {step : Step L σ} {steps : List (Step L σ)} :
    Along next P g (step :: steps) ↔ P g step ∧ Along next P (next g step) steps := Iff.rfl

@[simp] theorem along_append {first second : List (Step L σ)} :
    Along next P g (first ++ second) ↔
      Along next P g first ∧ Along next P (first.foldl next g) second := by
  induction first generalizing g with
  | nil => simp
  | cons step steps ih => simp [ih, and_assoc]

theorem along_of_forall {steps : List (Step L σ)} (h : ∀ step ∈ steps, ∀ g, P g step) :
    Along next P g steps := by
  induction steps generalizing g with
  | nil => exact along_nil
  | cons step steps ih =>
      exact ⟨h step (by simp) g, ih (fun step' hstep => h step' (by simp [hstep]))⟩

theorem Along.exists_of_mem {steps : List (Step L σ)} {step : Step L σ} (h : Along next P g steps)
    (hstep : step ∈ steps) : ∃ g', P g' step := by
  induction steps generalizing g with
  | nil => cases hstep
  | cons first steps ih =>
      rcases List.mem_cons.mp hstep with rfl | hstep
      · exact ⟨g, h.1⟩
      · exact ih h.2 hstep

/-- A property that does not look at the memory. -/
theorem along_iff_forall {P : Step L σ → Prop} {steps : List (Step L σ)} :
    Along next (fun _ => P) g steps ↔ ∀ step ∈ steps, P step := by
  induction steps generalizing g with
  | nil => simp
  | cons step steps ih => simp [ih]

end Along

@[simp] theorem along_idle {steps : List (Step L σ)} :
    Along Monitor.idle.next Monitor.idle.assumed () steps :=
  along_of_forall (fun _ _ _ => trivial)

variable {W : Monitor L σ γ}

/-- If all its steps are as assumed, they are all as shown, and the run ends as `post`
says. -/
def Out.Grants (W : Monitor L σ γ) (x : Out L σ α) (g : γ) (post : α → σ → γ → Prop) : Prop :=
  Along W.next W.assumed g x.steps →
    Along W.next W.shown g x.steps ∧ ∀ a t, x.Ends a t → post a t (x.steps.foldl W.next g)

section Rules

variable {post : α → σ → γ → Prop} {g : γ}

theorem Out.Grants.done {a : α} {s : σ} (h : post a s g) :
    (Out.done a s : Out L σ α).Grants W g post := by
  intro _
  refine ⟨along_nil, fun b t hends => ?_⟩
  obtain ⟨rfl, rfl⟩ := Out.ends_done.mp hends
  exact h

theorem Out.Grants.stopped {s : σ} : (Out.stopped s : Out L σ α).Grants W g post := by
  intro _
  exact ⟨along_nil, fun b t hends => absurd hends Out.ends_stopped⟩

theorem Out.Grants.after {x : Out L σ α} {act : Act L} {s : σ}
    (h : W.assumed g ⟨act, s⟩ →
      W.shown g ⟨act, s⟩ ∧ x.Grants W (W.next g ⟨act, s⟩) post) :
    (x.after act s).Grants W g post := by
  rintro ⟨hfirst, hrest⟩
  obtain ⟨hshown, hx⟩ := h hfirst
  obtain ⟨halong, hends⟩ := hx hrest
  exact ⟨⟨hshown, halong⟩, fun a t ha => hends a t (Out.ends_after.mp ha)⟩

theorem Out.Grants.bind {x : Out L σ α} {f : α → σ → Out L σ β} {mid : α → σ → γ → Prop}
    {post : β → σ → γ → Prop} (hx : x.Grants W g mid)
    (hf : ∀ a s g', mid a s g' → (f a s).Grants W g' post) : (x.bind f).Grants W g post := by
  obtain ⟨value, state, steps⟩ := x
  cases value with
  | none =>
      intro hassumed
      refine ⟨(hx hassumed).1, fun b t hb => ?_⟩
      obtain ⟨hvalue, -⟩ := hb
      cases hvalue
  | some a =>
      intro hassumed
      obtain ⟨hfirst, hrest⟩ := along_append.mp hassumed
      obtain ⟨hshown, hends⟩ := hx hfirst
      obtain ⟨hshown', hends'⟩ := hf a state _ (hends a state ⟨rfl, rfl⟩) hrest
      refine ⟨along_append.mpr ⟨hshown, hshown'⟩, fun b t hb => ?_⟩
      show post b t ((steps ++ (f a state).steps).foldl W.next g)
      rw [List.foldl_append]
      exact hends' b t hb

theorem Out.Grants.mono {x : Out L σ α} {post' : α → σ → γ → Prop} (hx : x.Grants W g post)
    (h : ∀ a s g', post a s g' → post' a s g') : x.Grants W g post' := by
  intro hassumed
  obtain ⟨hshown, hends⟩ := hx hassumed
  exact ⟨hshown, fun a t ha => h a t _ (hends a t ha)⟩

theorem Out.Grants.sequence {f : α → σ → Out L σ β} {I : σ → γ → Prop}
    (hf : ∀ a s g, I s g → (f a s).Grants W g (fun _ => I)) (as : List α) {s : σ}
    (hs : I s g) : (Out.sequence f as s).Grants W g (fun _ => I) := by
  induction as generalizing s g with
  | nil => exact Out.Grants.done hs
  | cons a as ih => exact (hf a s g hs).bind (fun _ t g' ht => ih ht)

end Rules

/-! ## Programs -/

namespace Prog

variable {H : Handler L σ} {s : σ} {g : γ}

def Grants (H : Handler L σ) (W : Monitor L σ γ) (p : Prog L α) (s : σ) (g : γ)
    (post : α → σ → γ → Prop) : Prop :=
  (p.run H s).Grants W g post

variable {post : α → σ → γ → Prop}

theorem Grants.pure {a : α} (h : post a s g) : (pure a : Prog L α).Grants H W s g post :=
  Out.Grants.done h

theorem Grants.halt (h : W.shown g ⟨.halt, s⟩) : (halt : Prog L α).Grants H W s g post :=
  Out.Grants.after (fun _ => ⟨h, Out.Grants.stopped⟩)

theorem Grants.bind {p : Prog L α} {f : α → Prog L β} {mid : α → σ → γ → Prop}
    {post : β → σ → γ → Prop} (hp : p.Grants H W s g mid)
    (hf : ∀ a t g', mid a t g' → (f a).Grants H W t g' post) :
    (p >>= f).Grants H W s g post := by
  rw [Grants, run_bind]
  exact Out.Grants.bind hp hf

theorem Grants.perform {o : L.Op} {post : L.Resp o → σ → γ → Prop}
    (h : W.assumed g ⟨.op o, s⟩ → W.shown g ⟨.op o, s⟩ ∧
      ∀ r t, H.exec o s = some (r, t) → post r t (W.next g ⟨.op o, s⟩)) :
    (perform o).Grants H W s g post := by
  rw [Grants, run_perform]
  cases hexec : H.exec o s with
  | none => exact Out.Grants.after (fun hassumed => ⟨(h hassumed).1, Out.Grants.stopped⟩)
  | some next =>
      apply Out.Grants.after
      intro hassumed
      exact ⟨(h hassumed).1, Out.Grants.done ((h hassumed).2 next.1 next.2 hexec)⟩

theorem Grants.notify {h : L.Hook} {post : Bool → σ → γ → Prop}
    (hhook : W.assumed g ⟨.hook h, s⟩ → W.shown g ⟨.hook h, s⟩ ∧
      (H.onHook h s).Grants W (W.next g ⟨.hook h, s⟩) post) :
    (notify h).Grants H W s g post := by
  rw [Grants, Prog.notify, run]
  apply Out.Grants.after
  intro hassumed
  exact ⟨(hhook hassumed).1, (hhook hassumed).2.bind (fun b t g' hb => Out.Grants.done hb)⟩

theorem Grants.invoke {c : L.Call} {post : ℤ → σ → γ → Prop}
    (hcall : W.assumed g ⟨.call c, s⟩ → W.shown g ⟨.call c, s⟩ ∧
      (H.onCall c s).Grants W (W.next g ⟨.call c, s⟩) post) :
    (invoke c).Grants H W s g post := by
  rw [Grants, Prog.invoke, run]
  apply Out.Grants.after
  intro hassumed
  exact ⟨(hcall hassumed).1, (hcall hassumed).2.bind (fun n t g' hn => Out.Grants.done hn)⟩

/-- What a program ends with may be used to show what it grants. -/
theorem Grants.and_ends {p : Prog L α} (hp : p.Grants H W s g post) :
    p.Grants H W s g (fun a t g' => p.Ends H s a t ∧ post a t g') := by
  intro hassumed
  obtain ⟨hshown, hends⟩ := hp hassumed
  exact ⟨hshown, fun a t ha => ⟨ha, hends a t ha⟩⟩

end Prog

/-! ## Handlers -/

section Maintains

variable (W : Monitor L σ γ) (I : ι → σ → γ → Prop) (P : ι → L.Hook → σ → γ → Prop)

/-- Callbacks that begin as `P` says, and calls, keep the invariant. -/
structure Handler.Maintains (H : Handler L σ) : Prop where
  onHook : ∀ i h s g, P i h s g → (H.onHook h s).Grants W g (fun _ => I i)
  onCall : ∀ i c s g, I i s g → (H.onCall c s).Grants W g (fun _ => I i)

variable {W I P}

/-- An invariant that every body keeps, given that callbacks and calls do, is kept at any
depth of nesting. -/
theorem Machine.maintains {M : Machine L σ}
    (hreact : ∀ i h s g, P i h s g → I i (M.react h s).2.2 g)
    (hbody : ∀ depth, (M.handler depth).Maintains W I P →
      ∀ i c s g, I i s g → (M.body c).Grants (M.handler depth) W s g (fun _ => I i))
    (depth : ℕ) : (M.handler depth).Maintains W I P := by
  induction depth with
  | zero =>
      exact
        { onHook := fun _ _ _ _ _ => Out.Grants.stopped
          onCall := fun _ _ _ _ _ => Out.Grants.stopped }
  | succ depth ih =>
      exact
        { onHook := fun i h s g hP =>
            (Out.Grants.sequence (ih.onCall i) _ (hreact i h s g hP)).bind
              (fun _ _ _ ht => Out.Grants.done ht)
          onCall := hbody depth ih }

theorem Handler.Maintains.runCalls {M : Machine L σ} {depth : ℕ}
    (hM : (M.handler depth).Maintains W I P) (i : ι) (calls : List L.Call) {s : σ} {g : γ}
    (hs : I i s g) : (M.runCalls depth calls s).Grants W g (fun _ => I i) :=
  Out.Grants.sequence (hM.onCall i) calls hs

end Maintains

end Reentrant
