import Libmodule.Broadcast
import Libmodule.MessageLedger

/-!
# Publishing

A message that is published reaches every module of the context that runs or is paused
and listens to its topic, once, however many of its subscriptions match, and no other
module.
-/

namespace Libmodule

open RefHeap Reentrant

/-! ## Checks that are passed -/

/-- `m_ctx` gives the context to the code that runs: no callback of a module that is
denied the context is in progress. -/
def World.Allows (w : World) (c : ℕ) : Prop :=
  w.tls = some c ∧ ∃ y, ctxAt w.heap c = some y ∧
    ∀ m, y.currMod = some m → ∃ x, modAt w.heap m = some x ∧ hasFlag x.flags M_MOD_DENY_CTX = false

/-- A module that may publish, and has a token left. -/
structure MayPublish (w : World) (m : ℕ) (x : Mod) : Prop where
  there : modAt w.heap m = some x
  state : x.state ≠ .zombie
  ctx : w.Allows x.ctx
  perm : hasFlag x.flags M_MOD_DENY_PUB = false
  token : x.tbTokens ≠ 0

section Checks

variable {α : Type} {depth : ℕ} {w w' : World} {ret : ℤ} {m c : ℕ} {x : Mod}

theorem mCtx_bind {f : Option ℕ → Lm α} {a : α} (h : w.Allows c) :
    (mCtx >>= f).Ends (handler depth) w a w' ↔ (f (some c)).Ends (handler depth) w a w' := by
  obtain ⟨htls, y, hy, hcurr⟩ := h
  have hctx : ∀ u b, mCtx.Ends (handler depth) w b u ↔ b = some c ∧ u = w := by
    intro u b
    rw [mCtx, getWorld_bind, htls]
    dsimp only
    rw [derefCtx_bind hy]
    cases hmod : y.currMod with
    | none => exact Prog.ends_pure
    | some k =>
        obtain ⟨z, hz, hflag⟩ := hcurr k hmod
        dsimp only
        rw [derefMod_bind hz, hflag]
        exact Prog.ends_pure
  simp only [Prog.ends_bind, hctx]
  constructor
  · rintro ⟨b, u, ⟨rfl, rfl⟩, h⟩
    exact h
  · intro h
    exact ⟨_, w, ⟨rfl, rfl⟩, h⟩

theorem modAssert_passes {rest : ℕ → Lm ℤ} (hx : modAt w.heap m = some x)
    (hstate : x.state ≠ .zombie) (hctx : w.Allows x.ctx) :
    (modAssert (some m) rest).Ends (handler depth) w ret w' ↔
      (rest m).Ends (handler depth) w ret w' := by
  rw [modAssert, derefMod_bind hx, if_neg hstate, mCtx_bind hctx, if_neg (not_not.mpr rfl)]

theorem modAssertPerm_passes {perm : ℕ} {rest : ℕ → Lm ℤ} (hx : modAt w.heap m = some x)
    (hstate : x.state ≠ .zombie) (hctx : w.Allows x.ctx) (hperm : hasFlag x.flags perm = false) :
    (modAssertPerm (some m) perm rest).Ends (handler depth) w ret w' ↔
      (rest m).Ends (handler depth) w ret w' := by
  rw [modAssertPerm, modAssert_passes hx hstate hctx, derefMod_bind hx,
    if_neg (by simp [hperm])]

theorem consumeToken_passes (hx : modAt w.heap m = some x) (htoken : x.tbTokens ≠ 0) :
    ∃ v, w.setMod m (fun y => ModField.set y (.tbTokens (x.tbTokens - 1))) = some v ∧
      ∀ rest ret w', (consumeToken m rest).Ends (handler depth) w ret w' ↔
        rest.Ends (handler depth) v ret w' := by
  refine ⟨_, World.setMod_eq_some.mpr ⟨⟨x, hx⟩, rfl⟩, fun rest ret w' => ?_⟩
  rw [consumeToken, derefMod_bind hx, if_neg htoken]
  simp only [Prog.ends_bind, act_ends, Op.exec, World.setMod, hx, Option.bind_eq_bind,
    Option.bind_some, Option.map_some, Option.some.injEq, Prod.mk.injEq, true_and]
  constructor
  · rintro ⟨_, u, rfl, h⟩
    exact h
  · intro h
    exact ⟨(), _, rfl, h⟩

end Checks

/-! ## Who listens -/

/-- The subscription of a module that a topic matches, and the one to just this topic where
there is one. -/
def FitsTopic (w : World) (z : Mod) (topic : String) (sub : ℕ) : Prop :=
  ∃ key e, (key, sub) ∈ z.subscriptions ∧ srcAt w.heap sub = some e ∧ e.topic = some key ∧
    if z.subscriptions.contains topic then key = topic else w.host.regexec key topic = true

/-- The copy of a message for a module. -/
def CopyFor (w : World) (msg : PsPriv) (z : Mod) (copy : PsPriv) : Prop :=
  match msg.topic with
  | none => copy = { msg with sub := none }
  | some topic => ∃ sub, copy = { msg with sub := some sub } ∧ FitsTopic w z topic sub

/-- From `w` to `w'` every listener of a context gets one copy of a message, and nobody
else gets any. -/
structure TopicDelivered (w w' : World) (y : Ctx) (msg : PsPriv) : Prop where
  listeners : ∀ m ∈ y.modules.values, hears w msg.topic m = true →
    ∃ z g copy, modAt w.heap m = some z ∧ w'.mailbox m = w.mailbox m ++ [g] ∧
      w.heap.length ≤ g ∧ msgAt w'.heap g = some copy ∧ CopyFor w msg z copy
  others : ∀ m, ¬ (m ∈ y.modules.values ∧ hears w msg.topic m = true) →
    w'.mailbox m = w.mailbox m
  copies : w'.heap.length = w.heap.length + (y.modules.values.filter (hears w msg.topic)).length

section Listeners

variable {w : World} {topic : Option String} {m : ℕ} {x : Mod}

theorem World.chosen_isSome (w : World) (x : Mod) (topic : String) :
    (w.chosen x topic).isSome = (x.subscriptions.contains topic ||
      x.subscriptions.any (fun entry =>
        w.host.regexec (((srcAt w.heap entry.2).bind EvSource.topic).getD "") topic)) := by
  unfold World.chosen
  split
  next hcontains => simp [hcontains]
  next hcontains =>
    rw [Option.isSome_map, List.isSome_find?]
    simp [hcontains]

theorem World.addressee_isSome (w : World) (topic : Option String) (m : ℕ) :
    (w.addressee topic m).isSome = hears w topic m := by
  unfold World.addressee hears
  cases modAt w.heap m with
  | none => rfl
  | some x =>
      by_cases hstate : x.state ∈ [.running, .paused]
      · cases topic with
        | none => simp [hstate]
        | some topic => simp [hstate, World.chosen_isSome]
      · cases topic <;> simp [hstate]

/-- What `fetch_sub` finds is a subscription that fits. -/
theorem SubsOwned.fitsTopic (hO : SubsOwned w) {topic key : String}
    (hx : modAt w.heap m = some x) (hkey : w.chosen x topic = some key) :
    ∃ sub, x.subscriptions.get key = some sub ∧ FitsTopic w x topic sub := by
  have hsound : x.Sound w.heap := hO.sound m (.mod x) (modAt_eq_some.mp hx)
  unfold World.chosen at hkey
  split at hkey
  next hcontains =>
    cases hkey
    obtain ⟨entry, hentry, htopic⟩ := List.any_eq_true.mp hcontains
    obtain ⟨e, he, hetopic⟩ := hO.subscription hx hentry
    have hname : entry.1 = topic := by simpa using htopic
    refine ⟨entry.2, ?_, topic, e, ?_, he, by rw [hetopic, hname], by rw [if_pos hcontains]⟩
    · rw [← hname]
      exact NameTable.get_of_mem hsound.topics hentry
    · rw [← hname]
      exact hentry
  next hcontains =>
    obtain ⟨entry, hfind, rfl⟩ := Option.map_eq_some_iff.mp hkey
    have hentry := List.mem_of_find?_eq_some hfind
    obtain ⟨e, he, hetopic⟩ := hO.subscription hx hentry
    have hmatch := List.find?_some hfind
    simp only [he, Option.bind_some, hetopic, Option.getD_some] at hmatch
    exact ⟨entry.2, NameTable.get_of_mem hsound.topics hentry, entry.1, e, hentry, he, hetopic,
      by rwa [if_neg hcontains]⟩

end Listeners

/-! ## What a publication does -/

section Publish

variable {w v w' : World} {msg : PsPriv} {m c : ℕ} {x : Mod} {y : Ctx}

theorem Sent.delivered (hO : SubsOwned w) (hw : Pipes w) (hy : ctxAt w.heap c = some y)
    (hroom : ∀ a ∈ w.addressees msg none c, w.Room a.1)
    (h : Sent msg (w.addressees msg none c) w w') : TopicDelivered w w' y msg := by
  have haddressees : w.addressees msg none c =
      y.modules.values.filterMap (w.addressee msg.topic) := by
    simp [World.addressees, World.audience, hy]
  constructor
  · intro m hm hhears
    rw [← World.addressee_isSome] at hhears
    obtain ⟨⟨k, key⟩, ha⟩ := Option.isSome_iff_exists.mp hhears
    obtain rfl : k = m := World.mem_addressee ha
    have hmem : (k, key) ∈ w.addressees msg none c := by
      rw [haddressees]
      exact List.mem_filterMap.mpr ⟨k, hm, ha⟩
    obtain ⟨i, hi⟩ := List.getElem?_of_mem hmem
    obtain ⟨p, hp⟩ := Option.isSome_iff_exists.mp (hroom _ hmem).1
    obtain ⟨z, hz, -⟩ := World.pipeTo_eq_some.mp hp
    have hcopy : msgAt w'.heap (w.heap.length + i) = some { msg with sub := w.subAt k key } := by
      rw [msgAt_eq_some, val, h.copy i k key hi]
      rfl
    refine ⟨z, _, _, hz, ?_, Nat.le_add_right _ _, hcopy, ?_⟩
    · rw [World.mailbox_eq hp, World.mailbox_eq ((h.pipeTo k).trans hp)]
      exact h.reached i k key p hi hp
    · unfold CopyFor
      simp only [World.addressee, hz] at ha
      cases htopic : msg.topic with
      | none =>
          simp only [htopic] at ha
          split at ha
          next =>
            cases ha
            simp [World.subAt]
          next => cases ha
      | some topic =>
          simp only [htopic] at ha
          split at ha
          next =>
            obtain ⟨found, hfound, heq⟩ := Option.map_eq_some_iff.mp ha
            cases heq
            obtain ⟨sub, hget, hfits⟩ := hO.fitsTopic hz hfound
            exact ⟨sub, by simp [World.subAt, hz, hget], hfits⟩
          next => cases ha
  · intro m hm
    cases hp : w.pipeTo m with
    | none =>
        have hnone := (h.pipeTo m).trans hp
        simp [World.mailbox, hp, hnone]
    | some p =>
        rw [World.mailbox_eq hp, World.mailbox_eq ((h.pipeTo m).trans hp)]
        apply h.spared
        intro a ha hap
        obtain rfl : a.1 = m := hw.apart a.1 m p hap hp
        rw [haddressees] at ha
        obtain ⟨k, hk, hka⟩ := List.mem_filterMap.mp ha
        have hkm : a.1 = k := World.mem_addressee hka
        refine hm ⟨hkm ▸ hk, ?_⟩
        rw [hkm, ← World.addressee_isSome, hka]
        rfl
  · rw [h.length, haddressees, List.length_filterMap_eq_countP, List.countP_eq_length_filter]
    simp only [World.addressee_isSome]

/-! Using a token changes nothing that a publication depends on. -/

section Tokens

variable {tokens : ℕ}

theorem modAt_setTokens (hset : w.setMod m (fun x => ModField.set x (.tbTokens tokens)) = some v)
    (k : ℕ) : modAt v.heap k =
      (modAt w.heap k).map (fun z => if m = k then { z with tbTokens := tokens } else z) := by
  obtain ⟨-, rfl⟩ := World.setMod_eq_some.mp hset
  rw [modAt_modify_mod]
  by_cases hmk : m = k
  · simp only [if_pos hmk]
    rfl
  · simp only [if_neg hmk, Option.map_id']

theorem pipeTo_setTokens (hset : w.setMod m (fun x => ModField.set x (.tbTokens tokens)) = some v)
    (k : ℕ) : v.pipeTo k = w.pipeTo k := by
  have hsys := World.sys_setMod hset
  unfold World.pipeTo
  rw [modAt_setTokens hset, hsys]
  cases modAt w.heap k with
  | none => rfl
  | some z =>
      simp only [Option.map_some]
      by_cases hmk : m = k
      · simp [hmk]
      · simp [hmk]

theorem mailbox_setTokens
    (hset : w.setMod m (fun x => ModField.set x (.tbTokens tokens)) = some v) (k : ℕ) :
    v.mailbox k = w.mailbox k := by
  rw [World.mailbox, pipeTo_setTokens hset, World.sys_setMod hset]
  rfl

theorem TopicDelivered.setTokens
    (hset : w.setMod m (fun x => ModField.set x (.tbTokens tokens)) = some v)
    (h : TopicDelivered v w' y msg) : TopicDelivered w w' y msg := by
  have hhears := hears_setTokens hset
  have hmailbox := mailbox_setTokens hset
  have hmods := modAt_setTokens hset
  obtain ⟨-, rfl⟩ := World.setMod_eq_some.mp hset
  constructor
  · intro k hk hlistens
    obtain ⟨z, g, copy, hz, hmail, hg, hcopy, hfor⟩ := h.listeners k hk (by rw [hhears, hlistens])
    rw [hmods] at hz
    rw [hmailbox] at hmail
    rw [length_modify] at hg
    obtain ⟨z₀, hz₀, rfl⟩ := Option.map_eq_some_iff.mp hz
    have hsubs : (if m = k then { z₀ with tbTokens := tokens } else z₀).subscriptions =
        z₀.subscriptions := by
      split <;> rfl
    refine ⟨z₀, g, copy, hz₀, hmail, hg, hcopy, ?_⟩
    simpa only [CopyFor, FitsTopic, srcAt_modify_mod, hsubs] using hfor
  · intro k hk
    rw [h.others k (by rwa [hhears]), hmailbox]
  · rw [h.copies, length_modify, funext (hhears msg.topic)]

end Tokens

end Publish

/-- Two running modules, one of which has subscribed to a topic. -/
def listening : World :=
  (machine.runCalls 3
    [.mCtxRegister "ctx" 0, .mModRegister "a" true (some onEvtOnly) 0,
      .mModRegister "b" true (some onEvtOnly) 0, .mModStart (some 1), .mModStart (some 2),
      .mModPsSubscribe (some 2) (some "news") 0 0]
    (startFrom [] [])).state

def listeningMod : Mod := (modAt listening.heap 1).get (by decide +kernel)

def listeningCtx : Ctx := (ctxAt listening.heap 0).get (by decide +kernel)

end Libmodule
