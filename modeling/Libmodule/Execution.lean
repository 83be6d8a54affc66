import Libmodule.EventLoop

/-!
# Runs of the library

What it takes for the functions that others are made of to end with a value.
-/

namespace Libmodule

open RefHeap Reentrant

/-- The library, with callbacks nested at most `depth` deep. -/
abbrev handler (depth : ℕ) : Handler LibLang World := machine.handler depth

/-- A host on which a topic is the expression that it alone matches. -/
def plainHost : Host where
  srcCmp := srcCmpTable (fun _ => none) (fun _ _ => none)
  regcomp := fun _ => 0
  regexec := fun expr topic => expr == topic
  place := fun keys _ => keys.length
  slot := fun _ idx _ => idx
  plugin := fun _ => none
  mem := fun _ => none
  pipeCapacity := 8192

/-- A thread on the plain host, whose system calls all succeed. -/
def startFrom (script : List Reaction) (polls : List PollAnswer) : World :=
  World.initial plainHost script polls []

def onEvtOnly : ModHooks := ⟨false, false, true, false⟩

section Ends

variable {depth : ℕ} {w w' : World}

@[simp] theorem act_ends {o : Op} {r : o.Resp} :
    Prog.Ends (α := no_index o.Resp) (handler depth) (act o) w r w' ↔
      o.exec w = some (r, w') := by
  rw [act, Prog.ends_perform, machine.handler_exec depth]
  rfl

/-! ## Steps that read -/

@[simp] theorem getWorld_ends {v : World} :
    getWorld.Ends (handler depth) w v w' ↔ v = w ∧ w' = w := by
  rw [getWorld, act_ends]
  simp [Op.exec, eq_comm]

@[simp] theorem orHalt_ends {α : Type} {x : Option α} {a : α} :
    (orHalt x).Ends (handler depth) w a w' ↔ x = some a ∧ w' = w := by
  cases x with
  | none => simp [orHalt]
  | some b => simp [orHalt, eq_comm]

@[simp] theorem derefMod_ends {m : ℕ} {x : Mod} :
    (derefMod m).Ends (handler depth) w x w' ↔ modAt w.heap m = some x ∧ w' = w := by
  simp [derefMod, and_comm]

@[simp] theorem derefCtx_ends {c : ℕ} {x : Ctx} :
    (derefCtx c).Ends (handler depth) w x w' ↔ ctxAt w.heap c = some x ∧ w' = w := by
  simp [derefCtx, and_comm]

@[simp] theorem derefSrc_ends {s : ℕ} {x : EvSource} :
    (derefSrc s).Ends (handler depth) w x w' ↔ srcAt w.heap s = some x ∧ w' = w := by
  simp [derefSrc, and_comm]

@[simp] theorem derefMsg_ends {g : ℕ} {x : PsPriv} :
    (derefMsg g).Ends (handler depth) w x w' ↔ msgAt w.heap g = some x ∧ w' = w := by
  simp [derefMsg, and_comm]

@[simp] theorem derefEvt_ends {e : ℕ} {x : EvtPriv} :
    (derefEvt e).Ends (handler depth) w x w' ↔ evtAt w.heap e = some x ∧ w' = w := by
  simp [derefEvt, and_comm]

/-! ## Checks -/

theorem mCtx_ends {c : Option ℕ} (h : mCtx.Ends (handler depth) w c w') : w' = w := by
  unfold mCtx at h
  simp only [Prog.ends_bind, getWorld_ends] at h
  obtain ⟨v, u, ⟨rfl, rfl⟩, h⟩ := h
  split at h
  next => exact (Prog.ends_pure.mp h).2
  next c' _ =>
    simp only [Prog.ends_bind, derefCtx_ends] at h
    obtain ⟨x, u, ⟨-, rfl⟩, h⟩ := h
    split at h
    next => exact (Prog.ends_pure.mp h).2
    next m _ =>
      simp only [Prog.ends_bind, derefMod_ends] at h
      obtain ⟨y, u, ⟨-, rfl⟩, h⟩ := h
      exact (Prog.ends_pure.mp h).2

theorem mCtx_ends_some {c : ℕ} (h : mCtx.Ends (handler depth) w (some c) w') :
    w.tls = some c := by
  unfold mCtx at h
  simp only [Prog.ends_bind, getWorld_ends] at h
  obtain ⟨v, u, ⟨rfl, rfl⟩, h⟩ := h
  split at h
  next => cases (Prog.ends_pure.mp h).1
  next c' htls =>
    simp only [Prog.ends_bind, derefCtx_ends] at h
    obtain ⟨x, u, ⟨-, rfl⟩, h⟩ := h
    split at h
    next =>
      obtain ⟨hc, -⟩ := Prog.ends_pure.mp h
      rw [htls, hc]
    next m _ =>
      simp only [Prog.ends_bind, derefMod_ends] at h
      obtain ⟨y, u, ⟨-, rfl⟩, h⟩ := h
      obtain ⟨hc, -⟩ := Prog.ends_pure.mp h
      split at hc
      next => cases hc
      next => rw [htls, hc]

variable {ret : ℤ} {mod : Option ℕ} {rest : ℕ → Lm ℤ}

/-- A checked function that does not fail has run on a module that is there. -/
theorem modAssert_ends (hret : 0 ≤ ret)
    (h : (modAssert mod rest).Ends (handler depth) w ret w') :
    ∃ m x, mod = some m ∧ modAt w.heap m = some x ∧ x.state ≠ .zombie ∧
      w.tls = some x.ctx ∧ (rest m).Ends (handler depth) w ret w' := by
  unfold modAssert at h
  cases mod with
  | none =>
      obtain ⟨rfl, -⟩ := Prog.ends_pure.mp h
      exact absurd hret (by decide)
  | some m =>
      simp only [Prog.ends_bind, derefMod_ends] at h
      obtain ⟨x, u, ⟨hx, rfl⟩, h⟩ := h
      split at h
      next =>
        obtain ⟨rfl, -⟩ := Prog.ends_pure.mp h
        exact absurd hret (by decide)
      next hzombie =>
        simp only [Prog.ends_bind] at h
        obtain ⟨c, v, hc, h⟩ := h
        cases mCtx_ends hc
        split at h
        next =>
          obtain ⟨rfl, -⟩ := Prog.ends_pure.mp h
          exact absurd hret (by decide)
        next hctx =>
          obtain rfl := Classical.not_not.mp hctx
          exact ⟨m, x, rfl, hx, hzombie, mCtx_ends_some hc, h⟩

theorem modAssertPerm_ends {perm : ℕ} (hret : 0 ≤ ret)
    (h : (modAssertPerm mod perm rest).Ends (handler depth) w ret w') :
    ∃ m x, mod = some m ∧ modAt w.heap m = some x ∧ x.state ≠ .zombie ∧
      w.tls = some x.ctx ∧ (rest m).Ends (handler depth) w ret w' := by
  obtain ⟨m, x, hm, hx, hzombie, htls, hperm⟩ := modAssert_ends hret h
  simp only [Prog.ends_bind, derefMod_ends] at hperm
  obtain ⟨y, u, ⟨-, rfl⟩, hrest⟩ := hperm
  split at hrest
  next =>
    obtain ⟨rfl, -⟩ := Prog.ends_pure.mp hrest
    exact absurd hret (by decide)
  next => exact ⟨m, x, hm, hx, hzombie, htls, hrest⟩

theorem sameCtx_ends {m : ℕ} {recipient : Option ℕ} (hret : 0 ≤ ret)
    (h : (sameCtx m recipient rest).Ends (handler depth) w ret w') :
    ∃ r, recipient = some r ∧ (rest r).Ends (handler depth) w ret w' := by
  unfold sameCtx at h
  cases recipient with
  | none =>
      obtain ⟨rfl, -⟩ := Prog.ends_pure.mp h
      exact absurd hret (by decide)
  | some r =>
      simp only [Prog.ends_bind, derefMod_ends] at h
      obtain ⟨x, u, ⟨-, rfl⟩, y, v, ⟨-, rfl⟩, h⟩ := h
      split at h
      next =>
        obtain ⟨rfl, -⟩ := Prog.ends_pure.mp h
        exact absurd hret (by decide)
      next => exact ⟨r, rfl, h⟩

/-- Taking a token changes the number of tokens and nothing else. -/
theorem consumeToken_ends {m : ℕ} {rest : Lm ℤ} (hret : 0 ≤ ret)
    (h : (consumeToken m rest).Ends (handler depth) w ret w') :
    ∃ tokens v, w.setMod m (fun x => ModField.set x (.tbTokens tokens)) = some v ∧
      rest.Ends (handler depth) v ret w' := by
  unfold consumeToken at h
  simp only [Prog.ends_bind, derefMod_ends] at h
  obtain ⟨x, u, ⟨hx, rfl⟩, h⟩ := h
  split at h
  next =>
    obtain ⟨rfl, -⟩ := Prog.ends_pure.mp h
    exact absurd hret (by decide)
  next =>
    simp only [Prog.ends_bind, act_ends, Op.exec, Option.map_eq_some_iff, Prod.mk.injEq] at h
    obtain ⟨_, v, ⟨v', hset, -, rfl⟩, h⟩ := h
    exact ⟨_, v', hset, h⟩

theorem ctxAssert_ends (hret : 0 ≤ ret)
    (h : (ctxAssert rest).Ends (handler depth) w ret w') :
    ∃ c, w.tls = some c ∧ (rest c).Ends (handler depth) w ret w' := by
  unfold ctxAssert at h
  simp only [Prog.ends_bind] at h
  obtain ⟨c, u, hc, h⟩ := h
  cases mCtx_ends hc
  cases c with
  | none =>
      obtain ⟨rfl, -⟩ := Prog.ends_pure.mp h
      exact absurd hret (by decide)
  | some c => exact ⟨c, mCtx_ends_some hc, h⟩

end Ends

/-! ## Steps of checks -/

section Every

variable {depth : ℕ} {w : World} {Q : Step LibLang World → Prop}

/-- The property holds of all steps that only read. -/
structure OfReads (Q : Step LibLang World → Prop) : Prop where
  get : ∀ w, Q ⟨.op .get, w⟩
  halt : ∀ w, Q ⟨.halt, w⟩

@[simp] theorem act_every {o : Op} :
    Prog.Every (α := no_index o.Resp) (handler depth) Q (act o) w ↔ Q ⟨.op o, w⟩ := by
  rw [act, Prog.every_perform]

namespace OfReads

variable (hQ : OfReads Q)

include hQ

theorem getWorld_every : getWorld.Every (handler depth) Q w := by
  rw [getWorld, act_every]
  exact hQ.get w

theorem orHalt_every {α : Type} (x : Option α) : (orHalt x).Every (handler depth) Q w := by
  cases x with
  | none => simpa [orHalt] using hQ.halt w
  | some a => simp [orHalt]

theorem derefMod_every (m : ℕ) : (derefMod m).Every (handler depth) Q w := by
  rw [derefMod, Prog.every_bind]
  exact ⟨hQ.getWorld_every, fun _ _ _ => hQ.orHalt_every _⟩

theorem derefCtx_every (c : ℕ) : (derefCtx c).Every (handler depth) Q w := by
  rw [derefCtx, Prog.every_bind]
  exact ⟨hQ.getWorld_every, fun _ _ _ => hQ.orHalt_every _⟩

theorem mCtx_every : mCtx.Every (handler depth) Q w := by
  unfold mCtx
  simp only [Prog.every_bind, getWorld_ends]
  refine ⟨hQ.getWorld_every, ?_⟩
  rintro v _ ⟨rfl, rfl⟩
  split
  next => simp
  next c _ =>
    simp only [Prog.every_bind]
    refine ⟨hQ.derefCtx_every c, fun x _ _ => ?_⟩
    split
    next => simp
    next m _ =>
      simp only [Prog.every_bind, Prog.every_pure, implies_true, and_true]
      exact hQ.derefMod_every m

variable {mod : Option ℕ} {rest : ℕ → Lm ℤ}

theorem modAssert_every
    (hrest : ∀ m x, mod = some m → modAt w.heap m = some x → w.tls = some x.ctx →
      (rest m).Every (handler depth) Q w) :
    (modAssert mod rest).Every (handler depth) Q w := by
  unfold modAssert
  cases mod with
  | none => simp
  | some m =>
      simp only [Prog.every_bind, derefMod_ends]
      refine ⟨hQ.derefMod_every m, ?_⟩
      rintro x _ ⟨hx, rfl⟩
      split
      next => simp
      next =>
        simp only [Prog.every_bind]
        refine ⟨hQ.mCtx_every, fun c u hc => ?_⟩
        cases mCtx_ends hc
        split
        next => simp
        next hctx =>
          obtain rfl := Classical.not_not.mp hctx
          exact hrest m x rfl hx (mCtx_ends_some hc)

theorem ctxAssert_every
    (hrest : ∀ c, w.tls = some c → (rest c).Every (handler depth) Q w) :
    (ctxAssert rest).Every (handler depth) Q w := by
  unfold ctxAssert
  simp only [Prog.every_bind]
  refine ⟨hQ.mCtx_every, fun c u hc => ?_⟩
  cases mCtx_ends hc
  cases c with
  | none => simp
  | some c => exact hrest c (mCtx_ends_some hc)

end OfReads

end Every

end Libmodule
