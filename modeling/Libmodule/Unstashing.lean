import Libmodule.Advancing
import Libmodule.OpEffects

/-!
# Taking events out of the stash

`m_mod_unstash` takes the oldest events out of the stash of a module and hands them over
in one queue.  Its loop ends one event before the number that the caller asks for.
-/

namespace Libmodule

open RefHeap Reentrant

/-- The module without the `k` oldest events of its stash. -/
def Mod.dropStashed (k : ℕ) (x : Mod) : Mod := { x with stashed := x.stashed.drop k }

def World.dropStashed (w : World) (m k : ℕ) : World :=
  { w with heap := modify w.heap m (Obj.mapMod (Mod.dropStashed k)) }

/-- What is done with the events that have been taken out: the callback gets them, and the
reference that the stash had to each is dropped. -/
def handOver (m : ℕ) (evts : List ℕ) : Lm ℤ := do
  callPubsubCb m evts
  return evts.length

/-- The call takes a token and the `k` oldest events, in their order, and leaves the other
events in the stash.  Before these events are handed over no callback runs, and nothing
else changes; then their number is the answer. -/
def Unstashes (depth : ℕ) (w : World) (m len : ℕ) (x : Mod) (k : ℕ) : Prop :=
  GoesOn depth (mModUnstash (some m) len) w (handOver m (x.stashed.take k))
    ((w.takeToken m x).dropStashed m k)

/-! ## The stash -/

section Stash

variable {depth : ℕ} {w : World} {m len : ℕ} {x : Mod}

theorem World.dropStashed_zero : w.dropStashed m 0 = w := by
  have hsame : modify w.heap m (Obj.mapMod (Mod.dropStashed 0)) = w.heap := by
    apply modify_self
    intro b _
    cases b <;> rfl
  rw [World.dropStashed, hsame]

theorem World.dropStashed_add {j k : ℕ} :
    (w.dropStashed m j).dropStashed m k = w.dropStashed m (j + k) := by
  simp only [World.dropStashed, modify_modify]
  congr 2
  funext b
  cases b <;> simp [Obj.mapMod, Mod.dropStashed]

theorem modAt_dropStashed {k : ℕ} (hx : modAt w.heap m = some x) :
    modAt (w.dropStashed m k).heap m = some (x.dropStashed k) := by
  rw [World.dropStashed, modAt_modify_mod, if_pos rfl, hx]
  rfl

theorem unstash_exec (hx : modAt w.heap m = some x) :
    (Op.unstash m).exec w = some (x.stashed.head?, w.dropStashed m 1) := by
  have hdrop : Mod.dropStashed 1 = fun x => { x with stashed := x.stashed.tail } := by
    funext x
    rw [Mod.dropStashed, List.drop_one]
  simp only [Op.exec, hx, World.setMod, World.dropStashed, hdrop, Option.bind_eq_bind,
    Option.bind_some]

/-! ## The loop -/

/-- The loop takes all events, unless it reaches the one before the last that it should
take. -/
theorem unstashRounds_goesOn {left idx : ℕ} {unstashed : List ℕ} (hidx : idx < len)
    (hx : modAt w.heap m = some x) (hleft : x.stashed.length = left) :
    GoesOn depth (unstashRounds m len left idx unstashed) w
      (pure (unstashed ++ x.stashed.take (len - 1 - idx)))
      (w.dropStashed m (min (len - 1 - idx) left)) := by
  induction left generalizing idx unstashed w x with
  | zero =>
      rw [unstashRounds, List.eq_nil_of_length_eq_zero hleft, List.take_nil, List.append_nil,
        Nat.min_zero, World.dropStashed_zero]
      exact .refl
  | succ left ih =>
      rw [unstashRounds]
      by_cases hlast : idx + 1 = len
      · rw [if_pos hlast, show len - 1 - idx = 0 by omega, List.take_zero, List.append_nil,
          Nat.zero_min, World.dropStashed_zero]
        exact .refl
      · rw [if_neg hlast]
        obtain ⟨e, events, hstashed⟩ := List.exists_cons_of_length_eq_add_one hleft
        apply (act_goesOn (unstash_exec hx)).trans
        rw [hstashed]
        have hrest := @ih (w.dropStashed m 1) (x.dropStashed 1) (idx + 1) (unstashed ++ [e])
          (by omega) (modAt_dropStashed hx) (by simp [Mod.dropStashed, hleft])
        have hcount : 1 + min (len - 1 - (idx + 1)) left = min (len - 1 - idx) (left + 1) := by
          omega
        have htake : unstashed ++ [e] ++ (x.dropStashed 1).stashed.take (len - 1 - (idx + 1)) =
            unstashed ++ (e :: events).take (len - 1 - idx) := by
          rw [show len - 1 - idx = len - 1 - (idx + 1) + 1 by omega, List.take_succ_cons]
          simp [Mod.dropStashed, hstashed]
        rwa [World.dropStashed_add, hcount, htake] at hrest

/-! ## The call -/

/-- A call that may be made, of a module that has a token. -/
structure MayUnstash (w : World) (m : ℕ) (x : Mod) : Prop where
  there : modAt w.heap m = some x
  running : x.state = .running
  ctx : w.Allows x.ctx
  token : x.tbTokens ≠ 0

variable (hmay : MayUnstash w m x)

include hmay

theorem MayUnstash.unstashes (hlen : 0 < len) :
    Unstashes depth w m len x (min (len - 1) x.stashed.length) := by
  unfold Unstashes mModUnstash
  apply (modAssertState_goesOn hmay.there (by simp [hmay.running]) hmay.ctx
    (by simp [hmay.running])).trans
  rw [if_neg (Nat.pos_iff_ne_zero.mp hlen)]
  apply (consumeToken_goesOn hmay.there hmay.token).trans
  apply (derefMod_goesOn (modAt_takeToken hmay.there)).trans
  have hloop := @unstashRounds_goesOn depth (w.takeToken m x) m len _ x.stashed.length 0 []
    hlen (modAt_takeToken hmay.there) rfl
  rw [Nat.sub_zero, List.nil_append] at hloop
  have htake : x.stashed.take (min (len - 1) x.stashed.length) = x.stashed.take (len - 1) := by
    rw [← List.take_take, List.take_length]
  rw [htake]
  exact hloop.pure_bind

/-- The first callback of the call gets the events that are taken out. -/
theorem MayUnstash.firstHook {k : ℕ} (h : Unstashes depth w m len x k) :
    ((mModUnstash (some m) len).run (handler depth) w).firstHook =
      if x.stashed.take k = [] then none
      else some (.onEvt m x.recvs.head? (x.stashed.take k)) := by
  obtain ⟨-, y, hy, -⟩ := hmay.ctx
  rw [Prog.Advances.firstHook h]
  split
  next hnone =>
    rw [hnone]
    rfl
  next hsome =>
    have hx := modAt_dropStashed (k := k) (modAt_takeToken hmay.there)
    have hctx : ctxAt ((w.takeToken m x).dropStashed m k).heap x.ctx = some y := by
      rw [World.dropStashed, ctxAt_modify_mod, World.takeToken, ctxAt_modify_mod]
      exact hy
    have hcalled := @callPubsubCb_firstHook depth _ m _ y (x.stashed.take k) hx hctx hsome
    exact Prog.firstHook_bind hcalled

/-- The call takes out one number of events. -/
theorem MayUnstash.unique {j k : ℕ} (hj : j ≤ x.stashed.length) (hk : k ≤ x.stashed.length)
    (h : Unstashes depth w m len x j) (h' : Unstashes depth w m len x k) : j = k := by
  have hfirst := (hmay.firstHook h).symm.trans (hmay.firstHook h')
  have htake : x.stashed.take j = x.stashed.take k := by
    split at hfirst
    next hnone =>
      split at hfirst
      next hnone' => rw [hnone, hnone']
      next => cases hfirst
    next =>
      split at hfirst
      next => cases hfirst
      next => simpa using hfirst
  have hlength := congrArg List.length htake
  rw [List.length_take, List.length_take] at hlength
  omega

end Stash

/-- All that the caller asks for is taken out just when there is less than that. -/
theorem unstashes_iff {depth : ℕ} {w : World} {m len : ℕ} {x : Mod} (hmay : MayUnstash w m x)
    (hlen : 0 < len) :
    Unstashes depth w m len x (min len x.stashed.length) ↔ x.stashed.length < len := by
  have htaken := @MayUnstash.unstashes depth w m len x hmay hlen
  constructor
  · intro hall
    have := hmay.unique (by omega) (by omega) hall htaken
    omega
  · intro hless
    rwa [show min len x.stashed.length = min (len - 1) x.stashed.length by omega]

/-! ## A module with one event in its stash -/

def oneStashed : World :=
  (machine.runCalls 4
    [.mCtxRegister "ctx" 0, .mModRegister "a" true (some onEvtOnly) 0, .mModStart (some 1),
      .mModPsTell (some 1) (some 1) (some 7) 0, .mCtxDispatch, .mCtxDispatch]
    (startFrom [⟨[.mModStash (some 1) (some 4)], true⟩] [⟨[(0, false)], 0⟩])).state

def stashingMod : Mod := (modAt oneStashed.heap 1).get (by decide +kernel)

theorem mayUnstash_oneStashed : MayUnstash oneStashed 1 stashingMod where
  there := (Option.some_get _).symm
  running := by decide +kernel
  ctx := by
    refine ⟨by decide +kernel, (ctxAt oneStashed.heap 0).get (by decide +kernel),
      (Option.some_get _).symm, ?_⟩
    have hcurr : ((ctxAt oneStashed.heap 0).get (by decide +kernel)).currMod = none := by
      decide +kernel
    intro m hm
    rw [hcurr] at hm
    cases hm
  token := by decide +kernel

theorem unstashes_oneStashed :
    Unstashes 4 oneStashed 1 2 stashingMod (min 2 stashingMod.stashed.length) ↔
      stashingMod.stashed.length < 2 :=
  unstashes_iff mayUnstash_oneStashed (by decide)

/-- The only event stays where it is when one is asked for. -/
theorem not_unstashes_oneStashed :
    ¬ ∀ (depth : ℕ) (w : World) (m len : ℕ) (x : Mod), MayUnstash w m x → 0 < len →
      Unstashes depth w m len x (min len x.stashed.length) := by
  intro hall
  have hstashed : stashingMod.stashed.length = 1 := by decide +kernel
  have hone := hall 4 oneStashed 1 1 stashingMod mayUnstash_oneStashed (by decide)
  have hzero := @MayUnstash.unstashes 4 oneStashed 1 1 stashingMod mayUnstash_oneStashed (by decide)
  rw [hstashed] at hone hzero
  have := mayUnstash_oneStashed.unique (by omega) (by omega) hone hzero
  omega

end Libmodule
