import Libmodule.Delivery

/-!
# The poison pill

A pill is to stop its recipient after everything that was sent before it.  The
pill has a topic and no subscription, and `tell_if` takes such a message for a
publish to a module that has not subscribed: the call succeeds, and nothing is
sent.
-/

namespace Libmodule

open RefHeap Reentrant

/-- A message that makes `recv_events` stop the module that receives it. -/
def IsPill (w : World) (g : ℕ) : Prop :=
  ∃ x, msgAt w.heap g = some x ∧ x.topic = some M_PS_MOD_POISONPILL

/-- The module stops while `recv_events` handles the message. -/
def StopsFor (m g : ℕ) (step : Step LibLang World) : Prop :=
  step.act = .op (.markStopped m true) ∧ ∃ e, step.before.carried e = some g

/-- A call that took `w` to `w'` has sent the pill `g` to `m`, and in every run from
there the module receives what was sent before before it stops for the pill. -/
structure PillSent (w w' : World) (m g : ℕ) : Prop where
  pill : IsPill w' g
  appended : w'.inbox m = w.inbox m ++ [g]
  stopsLast : ∀ depth calls earlier step later,
    (machine.runCalls depth calls w').steps = earlier ++ step :: later →
    StopsFor m g step →
    (∀ msg ∈ w.inbox m, ∃ s ∈ earlier, ∃ e, Handed m s e ∧ s.before.carried e = some msg) ∧
      ∀ e ∈ w.batched m, ∃ s ∈ earlier, Handed m s e

/-- A system message to one recipient has a topic and comes without a subscription,
so that `tell_if` passes it over. -/
theorem tellSystemPubsubMsg_ends {depth : ℕ} {w w' : World} {r c : ℕ} {sender : Option ℕ}
    {topic : String} {ret : ℤ}
    (h : (tellSystemPubsubMsg (some r) c sender topic).Ends (handler depth) w ret w') :
    w' = w := by
  unfold tellSystemPubsubMsg tellPubsubMsg tellIf at h
  simp only [Prog.ends_bind, derefMod_ends] at h
  obtain ⟨told, v, ⟨x, u, ⟨-, rfl⟩, hif⟩, h⟩ := h
  obtain ⟨-, rfl⟩ := Prog.ends_pure.mp h
  have hboth : told = 0 ∧ w' = u := by simpa using hif
  exact hboth.2

/-- A poison pill costs its sender a token and reaches nobody. -/
theorem mModPsPoisonpill_ends {depth : ℕ} {w w' : World} {mod recipient : Option ℕ} {ret : ℤ}
    (hret : 0 ≤ ret)
    (h : (mModPsPoisonpill mod recipient).Ends (handler depth) w ret w') :
    ∃ m tokens, w.setMod m (fun x => ModField.set x (.tbTokens tokens)) = some w' := by
  unfold mModPsPoisonpill at h
  obtain ⟨m, -, -, -, -, -, hperm⟩ := modAssertPerm_ends hret h
  obtain ⟨r, -, hsame⟩ := sameCtx_ends hret hperm
  simp only [Prog.ends_bind, derefMod_ends] at hsame
  obtain ⟨x, u, ⟨-, rfl⟩, hstate⟩ := hsame
  split at hstate
  next =>
    obtain ⟨rfl, -⟩ := Prog.ends_pure.mp hstate
    exact absurd hret (by decide)
  next =>
    obtain ⟨tokens, v, hset, hsend⟩ := consumeToken_ends hret hstate
    simp only [Prog.ends_bind, derefMod_ends] at hsend
    obtain ⟨y, z, ⟨-, rfl⟩, htell⟩ := hsend
    cases tellSystemPubsubMsg_ends htell
    exact ⟨m, tokens, hset⟩

theorem inbox_mModPsPoisonpill {depth : ℕ} {w w' : World} {mod recipient : Option ℕ} {ret : ℤ}
    (hret : 0 ≤ ret) (h : (mModPsPoisonpill mod recipient).Ends (handler depth) w ret w')
    (p : ℕ) : w'.inbox p = w.inbox p := by
  obtain ⟨m, tokens, hset⟩ := mModPsPoisonpill_ends hret h
  exact World.inbox_setMod hset (fun _ => rfl)

/-- Whatever the recipient and whatever waits for it, a call that succeeds has not
sent a pill. -/
theorem not_pillSent (depth : ℕ) (w w' : World) (mod : Option ℕ) (r : ℕ)
    (h : (mModPsPoisonpill mod (some r)).Ends (handler depth) w 0 w') :
    ¬ ∃ g, PillSent w w' r g := by
  intro hsent
  obtain ⟨g, hsent⟩ := hsent
  have hsame := inbox_mModPsPoisonpill le_rfl h r
  have happended := hsent.appended
  rw [hsame] at happended
  simp at happended

/-- Two running modules, the second of which has been told something. -/
def toldPair : World :=
  (machine.runCalls 3
    [.mCtxRegister "ctx" 0, .mModRegister "a" true (some onEvtOnly) 0,
      .mModRegister "b" true (some onEvtOnly) 0, .mModStart (some 1), .mModStart (some 2),
      .mModPsTell (some 1) (some 2) (some 7) 0] (startFrom [] [])).state

theorem not_pillSent_toldPair :
    ¬ ∃ g, PillSent toldPair
      ((mModPsPoisonpill (some 1) (some 2)).run (handler 3) toldPair).state 2 g :=
  not_pillSent 3 _ _ _ _ ⟨by decide +kernel, rfl⟩

/-- Not every successful call sends a pill to its running recipient. -/
theorem not_pillSent_always :
    ¬ ∀ depth w w' mod r, ((modAt w.heap r).map Mod.state = some .running) →
      (mModPsPoisonpill mod (some r)).Ends (handler depth) w 0 w' → ∃ g, PillSent w w' r g := by
  intro hall
  have hends : (mModPsPoisonpill (some 1) (some 2)).Ends (handler 3) toldPair 0
      ((mModPsPoisonpill (some 1) (some 2)).run (handler 3) toldPair).state :=
    ⟨by decide +kernel, rfl⟩
  obtain ⟨g, hsent⟩ := hall 3 toldPair _ (some 1) 2 (by decide +kernel) hends
  have happended := hsent.appended
  rw [inbox_mModPsPoisonpill le_rfl hends] at happended
  simp at happended

end Libmodule
