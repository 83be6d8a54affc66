import Libmodule.MessageData
import Libmodule.OwnedOps
import Libmodule.Pipes

/-!
# Sending to many

`tell_pubsub_msg` makes a copy of a message for each of its recipients and writes it to
the pipe of that module.  Who gets a copy is decided by the state before; what a write
needs is room in the pipe of its recipient.
-/

namespace Libmodule

open RefHeap Reentrant

/-! ## Recipients -/

namespace World

/-- The key of the subscription that `fetch_sub` finds. -/
def chosen (w : World) (x : Mod) (topic : String) : Option String :=
  if x.subscriptions.contains topic then some topic
  else
    (x.subscriptions.find? (fun entry =>
      w.host.regexec (((srcAt w.heap entry.2).bind EvSource.topic).getD "") topic)).map Prod.fst

/-- A module that is told a message, with the key of its subscription. -/
def addressee (w : World) (topic : Option String) (m : ℕ) : Option (ℕ × Option String) :=
  match modAt w.heap m with
  | none => none
  | some x =>
      if x.state ∈ [.running, .paused] then
        match topic with
        | none => some (m, none)
        | some topic => (w.chosen x topic).map (fun key => (m, some key))
      else none

/-- The modules that a message is meant for. -/
def audience (w : World) (recipient : Option ℕ) (c : ℕ) : List ℕ :=
  match recipient with
  | some m => [m]
  | none => ((ctxAt w.heap c).map (fun x => x.modules.values)).getD []

/-- The modules that a message is told to; a direct message has no topic. -/
def addressees (w : World) (msg : PsPriv) (recipient : Option ℕ) (c : ℕ) :
    List (ℕ × Option String) :=
  if recipient.isSome ∧ msg.topic.isSome then []
  else (w.audience recipient c).filterMap (w.addressee msg.topic)

/-- Tells a message to some modules, one after the other. -/
def tellAll (msg : PsPriv) : List (ℕ × Option String) → World → Option World
  | [], w => some w
  | (m, key) :: told, w => (w.tell m msg key).bind (tellAll msg told)

/-- The pipe of the module has room for one more message. -/
def Room (w : World) (m : ℕ) : Prop :=
  (w.pipeTo m).isSome ∧ (w.mailbox m).length < w.host.pipeCapacity

instance (w : World) (m : ℕ) : Decidable (w.Room m) :=
  inferInstanceAs (Decidable (_ ∧ _))

/-- The subscription that a module has under a key. -/
def subAt (w : World) (m : ℕ) (key : Option String) : Option ℕ :=
  (modAt w.heap m).bind (fun x => key.bind x.subscriptions.get)

/-- The messages in a pipe. -/
def queue (w : World) (p : ℕ) : List ℕ := (w.sys.pipes[p]?).getD []

theorem mailbox_eq {w : World} {m p : ℕ} (hp : w.pipeTo m = some p) :
    w.mailbox m = w.queue p := by
  simp [mailbox, queue, hp]

theorem mem_addressee {w : World} {topic : Option String} {m : ℕ} {a : ℕ × Option String}
    (ha : w.addressee topic m = some a) : a.1 = m := by
  unfold addressee at ha
  split at ha
  next => cases ha
  next =>
    split at ha
    next =>
      split at ha
      next =>
        cases ha
        rfl
      next =>
        obtain ⟨key, -, rfl⟩ := Option.map_eq_some_iff.mp ha
        rfl
    next => cases ha

end World

section Recipients

variable {w w₁ : World} {msg : PsPriv} {n : ℕ}

theorem Told.addressee_eq (h : Told msg n w w₁) (topic : Option String) (m : ℕ) :
    w₁.addressee topic m = w.addressee topic m := by
  simp only [World.addressee, World.chosen, h.modAt_eq, h.srcAt_eq, h.host]

theorem Told.subAt_eq (h : Told msg n w w₁) (m : ℕ) (key : Option String) :
    w₁.subAt m key = w.subAt m key := by
  simp only [World.subAt, h.modAt_eq]

end Recipients

/-! ## The program -/

/-- The subscriptions in the tables of modules are there. -/
def SubsThere (w : World) : Prop :=
  ∀ m x, modAt w.heap m = some x → ∀ entry ∈ x.subscriptions, ∃ s, srcAt w.heap entry.2 = some s

theorem SubsOwned.there {w : World} (hO : SubsOwned w) : SubsThere w := by
  intro m x hx entry hentry
  obtain ⟨s, hs, -⟩ := hO.subscription hx hentry
  exact ⟨s, hs⟩

theorem Told.subsThere {w w₁ : World} {msg : PsPriv} {n : ℕ} (h : Told msg n w w₁)
    (hw : SubsThere w) : SubsThere w₁ := by
  intro m x hx entry hentry
  rw [h.modAt_eq] at hx
  obtain ⟨s, hs⟩ := hw m x hx entry hentry
  exact ⟨s, by rw [h.srcAt_eq, hs]⟩

section Program

variable {α : Type} {depth : ℕ} {w w' : World} {msg : PsPriv} {ret : ℤ}

/-! Reading what is known to be there. -/

theorem getWorld_bind {f : World → Lm α} {a : α} :
    (getWorld >>= f).Ends (handler depth) w a w' ↔ (f w).Ends (handler depth) w a w' := by
  simp only [Prog.ends_bind, getWorld_ends]
  constructor
  · rintro ⟨v, u, ⟨rfl, rfl⟩, h⟩
    exact h
  · intro h
    exact ⟨w, w, ⟨rfl, rfl⟩, h⟩

theorem derefMod_bind {m : ℕ} {x : Mod} {f : Mod → Lm α} {a : α}
    (hx : modAt w.heap m = some x) :
    (derefMod m >>= f).Ends (handler depth) w a w' ↔ (f x).Ends (handler depth) w a w' := by
  simp only [Prog.ends_bind, derefMod_ends]
  constructor
  · rintro ⟨y, u, ⟨hy, rfl⟩, h⟩
    cases hx.symm.trans hy
    exact h
  · intro h
    exact ⟨x, w, ⟨hx, rfl⟩, h⟩

theorem derefCtx_bind {c : ℕ} {y : Ctx} {f : Ctx → Lm α} {a : α}
    (hy : ctxAt w.heap c = some y) :
    (derefCtx c >>= f).Ends (handler depth) w a w' ↔ (f y).Ends (handler depth) w a w' := by
  simp only [Prog.ends_bind, derefCtx_ends]
  constructor
  · rintro ⟨z, u, ⟨hz, rfl⟩, h⟩
    cases hy.symm.trans hz
    exact h
  · intro h
    exact ⟨y, w, ⟨hy, rfl⟩, h⟩

theorem derefSrc_bind {p : ℕ} {s : EvSource} {f : EvSource → Lm α} {a : α}
    (hs : srcAt w.heap p = some s) :
    (derefSrc p >>= f).Ends (handler depth) w a w' ↔ (f s).Ends (handler depth) w a w' := by
  simp only [Prog.ends_bind, derefSrc_ends]
  constructor
  · rintro ⟨t, u, ⟨ht, rfl⟩, h⟩
    cases hs.symm.trans ht
    exact h
  · intro h
    exact ⟨s, w, ⟨hs, rfl⟩, h⟩

theorem fetchRegex_ends_iff {topic : String} {subs : NameTable} {key : Option String}
    (hsubs : ∀ entry ∈ subs, ∃ s, srcAt w.heap entry.2 = some s) :
    (fetchRegex topic subs).Ends (handler depth) w key w' ↔
      key = (subs.find? (fun entry =>
        w.host.regexec (((srcAt w.heap entry.2).bind EvSource.topic).getD "") topic)).map
          Prod.fst ∧ w' = w := by
  induction subs with
  | nil => simp [fetchRegex]
  | cons entry subs ih =>
      obtain ⟨name, sub⟩ := entry
      obtain ⟨s, hs⟩ := hsubs (name, sub) (by simp)
      rw [fetchRegex, derefSrc_bind hs, getWorld_bind]
      by_cases hmatch : w.host.regexec (s.topic.getD "") topic = true
      · rw [if_pos hmatch, List.find?_cons_of_pos (by simp [hs, hmatch]), Prog.ends_pure]
        rfl
      · rw [if_neg hmatch, List.find?_cons_of_neg (by simp [hs, hmatch]),
          ih (fun entry hentry => hsubs entry (by simp [hentry]))]

theorem fetchSub_ends_iff {m : ℕ} {topic : String} {key : Option String} {x : Mod}
    (hx : modAt w.heap m = some x) (hsubs : SubsThere w) :
    (fetchSub m topic).Ends (handler depth) w key w' ↔ key = w.chosen x topic ∧ w' = w := by
  rw [fetchSub, derefMod_bind hx, World.chosen]
  split
  next => exact Prog.ends_pure
  next => exact fetchRegex_ends_iff (hsubs m x hx)

theorem tellIf_ends_iff {key : Option String} {m : ℕ} {x : Mod} (hx : modAt w.heap m = some x) :
    (tellIf msg key m).Ends (handler depth) w ret w' ↔
      ret = 0 ∧
        if x.state ∈ [.running, .paused] ∧ (msg.topic = none ∨ key ≠ none) then
          w.tell m msg (if msg.topic.isSome then key else none) = some w'
        else w' = w := by
  have hcond : (msg.topic = none ∨ (if msg.topic.isSome then key else none) ≠ none) ↔
      (msg.topic = none ∨ key ≠ none) := by
    cases msg.topic <;> simp
  rw [tellIf, derefMod_bind hx]
  simp only [hcond]
  split
  next =>
    simp only [Prog.ends_bind, act_ends, Op.exec, Option.map_eq_some_iff, Prod.mk.injEq,
      Prog.ends_pure]
    constructor
    · rintro ⟨_, v, ⟨v', htell, -, rfl⟩, rfl, rfl⟩
      exact ⟨rfl, htell⟩
    · rintro ⟨rfl, htell⟩
      exact ⟨(), w', ⟨w', htell, trivial, rfl⟩, rfl, rfl⟩
  next => exact Prog.ends_pure

theorem tellModules_ends_iff {ms : NameTable} {u : Unit} (htopic : msg.topic = none)
    (hthere : ∀ m ∈ ms.values, ∃ x, modAt w.heap m = some x) :
    (tellModules msg ms).Ends (handler depth) w u w' ↔
      World.tellAll msg (ms.values.filterMap (w.addressee none)) w = some w' := by
  induction ms generalizing w with
  | nil =>
      show (pure () : Lm Unit).Ends (handler depth) w u w' ↔ some w = some w'
      simp [eq_comm]
  | cons entry ms ih =>
      obtain ⟨name, m⟩ := entry
      obtain ⟨x, hx⟩ := hthere m (by simp [NameTable.values])
      have hrest : ∀ k ∈ NameTable.values ms, ∃ y, modAt w.heap k = some y :=
        fun k hk => hthere k (List.mem_cons_of_mem m hk)
      have hvalues : NameTable.values ((name, m) :: ms) = m :: NameTable.values ms := rfl
      simp only [tellModules, Prog.ends_bind, tellIf_ends_iff hx, htopic, hvalues]
      by_cases hstate : x.state ∈ [.running, .paused]
      · have haddressee : w.addressee none m = some (m, none) := by
          simp only [World.addressee, hx, if_pos hstate]
        rw [List.filterMap_cons_some haddressee]
        simp only [World.tellAll, Option.bind_eq_some_iff, hstate, true_or, and_self,
          if_true, Option.isSome_none, Bool.false_eq_true, if_false]
        constructor
        · rintro ⟨_, v, ⟨-, htell⟩, h⟩
          have htold := told_tell htell
          refine ⟨v, htell, ?_⟩
          rw [← funext (htold.addressee_eq none)]
          exact (ih (fun k hk => by rw [htold.modAt_eq]; exact hrest k hk)).mp h
        · rintro ⟨v, htell, h⟩
          have htold := told_tell htell
          refine ⟨0, v, ⟨rfl, htell⟩, ?_⟩
          rw [← funext (htold.addressee_eq none)] at h
          exact (ih (fun k hk => by rw [htold.modAt_eq]; exact hrest k hk)).mpr h
      · have haddressee : w.addressee none m = none := by
          simp only [World.addressee, hx, if_neg hstate]
        rw [List.filterMap_cons_none haddressee, ← ih hrest]
        simp [hstate]

theorem tellSubscribers_ends_iff {topic : String} {ms : List ℕ} {u : Unit}
    (htopic : msg.topic = some topic) (hsubs : SubsThere w)
    (hthere : ∀ m ∈ ms, ∃ x, modAt w.heap m = some x) :
    (tellSubscribers msg topic ms).Ends (handler depth) w u w' ↔
      World.tellAll msg (ms.filterMap (w.addressee (some topic))) w = some w' := by
  induction ms generalizing w with
  | nil =>
      show (pure () : Lm Unit).Ends (handler depth) w u w' ↔ some w = some w'
      simp [eq_comm]
  | cons m ms ih =>
      obtain ⟨x, hx⟩ := hthere m (by simp)
      have hrest : ∀ k ∈ ms, ∃ y, modAt w.heap k = some y :=
        fun k hk => hthere k (List.mem_cons_of_mem m hk)
      rw [tellSubscribers, derefMod_bind hx]
      by_cases hstate : x.state ∈ [.running, .paused]
      · rw [if_pos hstate]
        simp only [Prog.ends_bind, fetchSub_ends_iff hx hsubs]
        cases hchosen : w.chosen x topic with
        | none =>
            have haddressee : w.addressee (some topic) m = none := by
              simp only [World.addressee, hx, if_pos hstate, hchosen, Option.map_none]
            rw [List.filterMap_cons_none haddressee, ← ih hsubs hrest]
            simp
        | some key =>
            have haddressee : w.addressee (some topic) m = some (m, some key) := by
              simp only [World.addressee, hx, if_pos hstate, hchosen, Option.map_some]
            rw [List.filterMap_cons_some haddressee]
            simp only [World.tellAll, Option.bind_eq_some_iff]
            have hstep : ∀ v, (w.tell m msg (some key) = some v) →
                ((tellSubscribers msg topic ms).Ends (handler depth) v u w' ↔
                  World.tellAll msg (ms.filterMap (w.addressee (some topic))) v = some w') := by
              intro v htell
              have htold := told_tell htell
              rw [← funext (htold.addressee_eq (some topic))]
              exact ih (htold.subsThere hsubs)
                (fun k hk => by rw [htold.modAt_eq]; exact hrest k hk)
            constructor
            · rintro ⟨_, v, ⟨rfl, rfl⟩, h⟩
              simp only [Prog.ends_bind, tellIf_ends_iff hx] at h
              obtain ⟨_, z, ⟨-, htell⟩, h⟩ := h
              rw [if_pos ⟨hstate, by simp⟩, htopic] at htell
              exact ⟨z, htell, (hstep z htell).mp h⟩
            · rintro ⟨z, htell, h⟩
              refine ⟨some key, w, ⟨rfl, rfl⟩, ?_⟩
              simp only [Prog.ends_bind, tellIf_ends_iff hx]
              refine ⟨0, z, ⟨rfl, ?_⟩, (hstep z htell).mpr h⟩
              rw [if_pos ⟨hstate, by simp⟩, htopic]
              exact htell
      · have haddressee : w.addressee (some topic) m = none := by
          simp only [World.addressee, hx, if_neg hstate]
        rw [if_neg hstate, List.filterMap_cons_none haddressee]
        exact ih hsubs hrest

/-- What a message needs: a context with its modules, or a recipient. -/
structure World.Reaches (w : World) (recipient : Option ℕ) (c : ℕ) : Prop where
  ctx : recipient = none → ∃ y, ctxAt w.heap c = some y
  modules : ∀ m ∈ w.audience recipient c, ∃ x, modAt w.heap m = some x

/-- `tell_pubsub_msg` tells the message to its addressees, one after the other. -/
theorem tellPubsubMsg_ends_iff {recipient : Option ℕ} {c : ℕ} (hsubs : SubsThere w)
    (hreaches : w.Reaches recipient c) :
    (tellPubsubMsg msg recipient c).Ends (handler depth) w ret w' ↔
      ret = 0 ∧ World.tellAll msg (w.addressees msg recipient c) w = some w' := by
  cases recipient with
  | some m =>
      obtain ⟨x, hx⟩ := hreaches.modules m (by simp [World.audience])
      simp only [tellPubsubMsg, Prog.ends_bind, tellIf_ends_iff hx, Prog.ends_pure]
      cases htopic : msg.topic with
      | some topic => simp [World.addressees, htopic, World.tellAll, eq_comm, and_comm]
      | none =>
          by_cases hstate : x.state ∈ [.running, .paused]
          · have haddressees : w.addressees msg (some m) c = [(m, none)] := by
              simp only [World.addressees, World.audience, World.addressee, htopic, hx,
                if_pos hstate, List.filterMap_cons, List.filterMap_nil]
              simp
            rw [haddressees]
            simp only [World.tellAll, Option.bind_fun_some, hstate, true_or, and_self, if_true,
              Option.isSome_none, Bool.false_eq_true, if_false]
            constructor
            · rintro ⟨_, v, ⟨-, htell⟩, rfl, rfl⟩
              exact ⟨rfl, htell⟩
            · rintro ⟨rfl, htell⟩
              exact ⟨0, w', ⟨rfl, htell⟩, rfl, rfl⟩
          · have haddressees : w.addressees msg (some m) c = [] := by
              simp only [World.addressees, World.audience, World.addressee, htopic, hx,
                if_neg hstate, List.filterMap_cons, List.filterMap_nil]
              simp
            rw [haddressees]
            simp [hstate, World.tellAll, eq_comm, and_comm]
  | none =>
      obtain ⟨y, hy⟩ := hreaches.ctx rfl
      have haudience : w.audience none c = y.modules.values := by
        simp [World.audience, hy]
      have hmodules : ∀ m ∈ y.modules.values, ∃ x, modAt w.heap m = some x := by
        intro m hm
        exact hreaches.modules m (haudience ▸ hm)
      have haddressees : w.addressees msg none c =
          y.modules.values.filterMap (w.addressee msg.topic) := by
        simp [World.addressees, haudience]
      rw [haddressees]
      have hended : ∀ p : Lm Unit,
          (p >>= fun _ => return 0 : Lm ℤ).Ends (handler depth) w ret w' ↔
            ret = 0 ∧ p.Ends (handler depth) w () w' := by
        intro p
        simp only [Prog.ends_bind, Prog.ends_pure]
        constructor
        · rintro ⟨_, v, hp, rfl, rfl⟩
          exact ⟨rfl, hp⟩
        · rintro ⟨rfl, hp⟩
          exact ⟨(), w', hp, rfl, rfl⟩
      simp only [tellPubsubMsg]
      cases htopic : msg.topic with
      | none =>
          rw [← tellModules_ends_iff htopic hmodules, ← hended]
          exact Iff.trans (by rfl) (derefCtx_bind hy)
      | some topic =>
          rw [← tellSubscribers_ends_iff htopic hsubs hmodules, ← hended]
          exact Iff.trans (by rfl) (derefCtx_bind hy)

end Program

/-! ## What is sent -/

/-- From `w` to `w'` the message is told to the modules of a list, each of which gets
a copy of its own, under the next address. -/
structure Sent (msg : PsPriv) (told : List (ℕ × Option String)) (w w' : World) : Prop where
  length : w'.heap.length = w.heap.length + told.length
  copy : ∀ i m key, told[i]? = some (m, key) →
    get w'.heap (w.heap.length + i) = some ⟨1, .msg { msg with sub := w.subAt m key }⟩
  sender : ∀ s cell, msg.sender = some s → get w.heap s = some cell →
    get w'.heap s = some ⟨cell.refs + told.length, cell.val⟩
  old : ∀ p < w.heap.length, msg.sender ≠ some p → get w'.heap p = get w.heap p
  reached : ∀ i m key p, told[i]? = some (m, key) → w.pipeTo m = some p →
    w'.queue p = w.queue p ++ [w.heap.length + i]
  spared : ∀ p, (∀ a ∈ told, w.pipeTo a.1 ≠ some p) → w'.queue p = w.queue p
  pipeTo : ∀ m, w'.pipeTo m = w.pipeTo m

section Sent

variable {msg : PsPriv} {told : List (ℕ × Option String)} {w w₁ w' : World}

theorem Sent.nil (w : World) : Sent msg [] w w where
  length := rfl
  copy := nofun
  sender := fun _ _ _ hget => hget
  old := fun _ _ _ => rfl
  reached := nofun
  spared := fun _ _ => rfl
  pipeTo := fun _ => rfl

/-- What a write to a pipe does. -/
theorem Sys.writeMsg_eq {s : Sys} {capacity msg : ℕ} {fd : Option ℕ} {p : ℕ}
    (hfd : s.file fd = .pipeWrite p) :
    s.writeMsg capacity fd msg =
      if ((s.pipes[p]?).getD []).length < capacity then
        (true, { s with pipes := s.pipes.set p ((s.pipes[p]?).getD [] ++ [msg]) })
      else (false, { s with errno := EAGAIN }) := by
  simp only [Sys.writeMsg, hfd]

theorem queue_set {p q : ℕ} {msgs : List ℕ} (hp : p < w.sys.pipes.length) :
    ((w.sys.pipes.set p msgs)[q]?).getD [] = if p = q then msgs else w.queue q := by
  by_cases hpq : p = q
  · subst hpq
    simp [hp]
  · rw [if_neg hpq, List.getElem?_set_ne hpq]
    rfl

theorem World.get_allocPsMsg {sub : Option ℕ} {g : ℕ} (h : w.allocPsMsg msg sub = some (g, w₁)) :
    g = w.heap.length ∧ ∀ q, get w₁.heap q =
      if q = w.heap.length then some ⟨1, .msg { msg with sub := sub }⟩
      else if msg.sender = some q then
        (get w.heap q).map (fun cell => { cell with refs := cell.refs + 1 })
      else get w.heap q := by
  unfold World.allocPsMsg at h
  split at h
  next hsender =>
    cases h
    refine ⟨rfl, fun q => ?_⟩
    simp [get_alloc, hsender]
  next s hsender =>
    simp only [Option.bind_eq_bind, Option.bind_eq_some_iff, Option.some.injEq] at h
    obtain ⟨u, href, hnew⟩ := h
    cases hnew
    have hlength : u.heap.length = w.heap.length := World.length_ref href
    refine ⟨hlength, fun q => ?_⟩
    unfold World.ref at href
    simp only [Option.bind_eq_bind, Option.bind_eq_some_iff, Option.some.injEq] at href
    obtain ⟨cell, hcell, rfl⟩ := href
    simp only [get_alloc, hlength, hsender, Option.some.injEq]
    by_cases hsq : s = q
    · subst hsq
      simp [get_put_self hcell, hcell]
    · simp [hsq]

/-- Memory can be had for a copy when its sender is there. -/
theorem World.exists_allocPsMsg (sub : Option ℕ)
    (hsender : ∀ s, msg.sender = some s → ∃ cell, get w.heap s = some cell) :
    ∃ g v, w.allocPsMsg msg sub = some (g, v) := by
  unfold World.allocPsMsg
  cases hs : msg.sender with
  | none => exact ⟨_, _, rfl⟩
  | some s =>
      obtain ⟨cell, hcell⟩ := hsender s hs
      simp only [World.ref, hcell, Option.bind_eq_bind, Option.bind_some]
      exact ⟨_, _, rfl⟩

/-- Telling one module succeeds when its pipe has room. -/
theorem World.tell_cases {m : ℕ} {key : Option String} (h : w.tell m msg key = some w') :
    ∃ p v, w.pipeTo m = some p ∧ (w.queue p).length < w.host.pipeCapacity ∧
      w.allocPsMsg msg (w.subAt m key) = some (w.heap.length, v) ∧ w'.heap = v.heap ∧
      w'.sys = { w.sys with pipes := w.sys.pipes.set p (w.queue p ++ [w.heap.length]) } := by
  unfold World.tell at h
  simp only [Option.bind_eq_bind, Option.bind_eq_some_iff] at h
  obtain ⟨x, hx, ⟨g, v⟩, halloc, h⟩ := h
  have hsub : key.bind x.subscriptions.get = w.subAt m key := by
    simp [World.subAt, hx]
  have hsys : v.sys = w.sys := World.sys_allocPsMsg halloc
  have hhost : v.host = w.host := (told_allocPsMsg halloc).host
  obtain ⟨rfl, -⟩ := World.get_allocPsMsg halloc
  split at h
  next hwritten =>
    cases h
    cases hfile : w.sys.file x.pubsubFd1 with
    | pipeWrite p =>
        simp only [hsys, hhost, Sys.writeMsg_eq hfile] at hwritten ⊢
        split at hwritten
        next hroom =>
          have hpipe : w.pipeTo m = some p := World.pipeTo_eq_some.mpr ⟨x, hx, hfile⟩
          refine ⟨p, v, hpipe, hroom, hsub ▸ halloc, rfl, ?_⟩
          rw [if_pos hroom]
          rfl
        next => cases hwritten
    | closed | pipeRead | other =>
        simp [hsys, Sys.writeMsg, hfile] at hwritten
  next => cases h

theorem World.exists_tell {m : ℕ} {x : Mod} (key : Option String) (hx : modAt w.heap m = some x)
    (hroom : w.Room m)
    (hsender : ∀ s, msg.sender = some s → ∃ cell, get w.heap s = some cell) :
    ∃ w', w.tell m msg key = some w' := by
  obtain ⟨g, v, halloc⟩ := World.exists_allocPsMsg (key.bind x.subscriptions.get) hsender
  obtain ⟨hsome, hlt⟩ := hroom
  obtain ⟨p, hp⟩ := Option.isSome_iff_exists.mp hsome
  obtain ⟨y, hy, hfile⟩ := World.pipeTo_eq_some.mp hp
  cases hx.symm.trans hy
  rw [World.mailbox_eq hp, World.queue] at hlt
  have hsys : v.sys = w.sys := World.sys_allocPsMsg halloc
  have hhost : v.host = w.host := (told_allocPsMsg halloc).host
  unfold World.tell
  simp only [Option.bind_eq_bind, hx, Option.bind_some, halloc, hsys, hhost,
    Sys.writeMsg_eq hfile]
  rw [if_pos hlt]
  exact ⟨_, rfl⟩

theorem sent_tell {m : ℕ} {key : Option String} (hw : Pipes w) (h : w.tell m msg key = some w') :
    Sent msg [(m, key)] w w' := by
  have htold := told_tell h
  obtain ⟨p, v, hp, -, halloc, hheap, hsys⟩ := World.tell_cases h
  obtain ⟨-, hget⟩ := World.get_allocPsMsg halloc
  have hqueue : ∀ q, w'.queue q = if p = q then w.queue p ++ [w.heap.length] else w.queue q := by
    intro q
    unfold World.queue
    rw [hsys]
    exact queue_set (hw.lt hp)
  constructor
  · exact htold.length
  · intro i k key' hi
    obtain ⟨rfl, hkey⟩ : i = 0 ∧ (m, key) = (k, key') := by
      cases i with
      | zero => exact ⟨rfl, Option.some.inj hi⟩
      | succ i => cases hi
    cases hkey
    rw [hheap, Nat.add_zero, hget, if_pos rfl]
  · intro s cell hs hcell
    rw [hheap, hget, if_neg (lt_length hcell).ne, if_pos hs, hcell]
    rfl
  · intro q hq hs
    rw [hheap, hget, if_neg hq.ne, if_neg hs]
  · intro i k key' q hi hq
    obtain ⟨rfl, hkey⟩ : i = 0 ∧ (m, key) = (k, key') := by
      cases i with
      | zero => exact ⟨rfl, Option.some.inj hi⟩
      | succ i => cases hi
    cases hkey
    cases hp.symm.trans hq
    rw [hqueue, if_pos rfl, Nat.add_zero]
  · intro q hq
    rw [hqueue, if_neg]
    rintro rfl
    exact hq (m, key) (by simp) hp
  · intro k
    simp only [World.pipeTo, htold.modAt_eq, hsys, Sys.file]

/-- A message to one module leaves the room in the pipes of others. -/
theorem Sent.room_iff {m k : ℕ} {key : Option String} (hw : Pipes w)
    (hhost : w₁.host = w.host) (hkm : k ≠ m) (h : Sent msg [(m, key)] w w₁) :
    w₁.Room k ↔ w.Room k := by
  unfold World.Room
  rw [h.pipeTo, hhost]
  refine and_congr_right (fun hsome => ?_)
  obtain ⟨p, hp⟩ := Option.isSome_iff_exists.mp hsome
  have hspared : w₁.queue p = w.queue p := by
    apply h.spared
    intro a ha hap
    obtain rfl := List.mem_singleton.mp ha
    exact hkm (hw.apart k m p hp hap)
  rw [World.mailbox_eq hp, World.mailbox_eq ((h.pipeTo k).trans hp), hspared]

/-- One recipient, and then the others. -/
theorem Sent.cons {m : ℕ} {key : Option String} (hw : Pipes w)
    (hnodup : (m :: told.map Prod.fst).Nodup) (hsub : ∀ k key, w₁.subAt k key = w.subAt k key)
    (hsender : ∀ s, msg.sender = some s → s < w.heap.length)
    (h₁ : Sent msg [(m, key)] w w₁) (h₂ : Sent msg told w₁ w') :
    Sent msg ((m, key) :: told) w w' := by
  have hlength : w₁.heap.length = w.heap.length + 1 := h₁.length
  -- the pipe of `m` is not that of another recipient
  have hapart : ∀ p, w.pipeTo m = some p → ∀ a ∈ told, w₁.pipeTo a.1 ≠ some p := by
    intro p hp a ha hap
    rw [h₁.pipeTo] at hap
    have hma : m = a.1 := hw.apart m a.1 p hp hap
    exact (List.nodup_cons.mp hnodup).1 (hma ▸ List.mem_map_of_mem ha)
  constructor
  · rw [h₂.length, hlength, List.length_cons]
    omega
  · intro i k key' hi
    cases i with
    | zero =>
        cases hi
        have hcopy := h₁.copy 0 m key rfl
        have hother : msg.sender ≠ some w.heap.length :=
          fun hs => absurd (hsender _ hs) (lt_irrefl _)
        rw [Nat.add_zero] at hcopy ⊢
        rw [h₂.old _ (by omega) hother, hcopy]
    | succ i =>
        have hcopy := h₂.copy i k key' hi
        rw [hlength, hsub] at hcopy
        rwa [show w.heap.length + (i + 1) = w.heap.length + 1 + i by omega]
  · intro s cell hs hcell
    rw [h₂.sender s _ hs (h₁.sender s cell hs hcell)]
    simp only [List.length_cons, List.length_nil]
    congr 2
    omega
  · intro p hp hs
    rw [h₂.old p (by omega) hs, h₁.old p hp hs]
  · intro i k key' p hi hp
    cases i with
    | zero =>
        cases hi
        rw [h₂.spared p (hapart p hp), h₁.reached 0 m key p rfl hp]
    | succ i =>
        have hreached := h₂.reached i k key' p hi (by rw [h₁.pipeTo, hp])
        have hk : k ∈ told.map Prod.fst :=
          List.mem_map.mpr ⟨_, List.mem_of_getElem? hi, rfl⟩
        have hspared : w₁.queue p = w.queue p := by
          apply h₁.spared
          intro a ha hap
          obtain rfl := List.mem_singleton.mp ha
          have hmk : m = k := hw.apart m k p hap hp
          exact (List.nodup_cons.mp hnodup).1 (hmk ▸ hk)
        rw [hreached, hspared, hlength]
        congr 2
        omega
  · intro p hp
    rw [h₂.spared p (fun a ha => by rw [h₁.pipeTo]; exact hp a (by simp [ha])),
      h₁.spared p (fun a ha => hp a (by simp [List.mem_singleton.mp ha]))]
  · intro k
    rw [h₂.pipeTo, h₁.pipeTo]

/-- What there is room for is sent; what is sent, there was room for. -/
theorem sent_tellAll (hs : Settled w.heap) (hw : Pipes w) (hnodup : (told.map Prod.fst).Nodup)
    (hsender : ∀ s, msg.sender = some s → s < w.heap.length)
    (h : World.tellAll msg told w = some w') :
    Sent msg told w w' ∧ ∀ a ∈ told, w.Room a.1 := by
  induction told generalizing w with
  | nil =>
      cases h
      exact ⟨Sent.nil _, nofun⟩
  | cons a told ih =>
      obtain ⟨m, key⟩ := a
      obtain ⟨w₁, htell, hrest⟩ := Option.bind_eq_some_iff.mp h
      rw [List.map_cons] at hnodup
      have htold := told_tell htell
      have hexec : (Op.tell m msg key).exec w = some ((), w₁) := by
        simp [Op.exec, htell]
      have hs₁ : Settled w₁.heap := (Op.evolves hs hexec).settled
      have hfirst := sent_tell hw htell
      obtain ⟨hlater, hroom⟩ := ih hs₁ (hw.exec hs hexec) (List.nodup_cons.mp hnodup).2
        (fun s hmsg => (hsender s hmsg).trans_le (by rw [htold.length]; omega)) hrest
      refine ⟨hfirst.cons hw hnodup htold.subAt_eq hsender hlater, ?_⟩
      intro a hmem
      rcases List.mem_cons.mp hmem with rfl | ha
      · obtain ⟨p, -, hp, hlt, -⟩ := World.tell_cases htell
        exact ⟨by simp [hp], World.mailbox_eq hp ▸ hlt⟩
      · have hne : a.1 ≠ m := by
          rintro rfl
          exact (List.nodup_cons.mp hnodup).1 (List.mem_map.mpr ⟨a, ha, rfl⟩)
        exact (hfirst.room_iff hw htold.host hne).mp (hroom a ha)

/-- A message that all recipients have room for is sent. -/
theorem exists_tellAll (hs : Settled w.heap) (hw : Pipes w) (hnodup : (told.map Prod.fst).Nodup)
    (hthere : ∀ a ∈ told, ∃ x, modAt w.heap a.1 = some x) (hroom : ∀ a ∈ told, w.Room a.1)
    (hsender : ∀ s, msg.sender = some s → ∃ cell, get w.heap s = some cell) :
    ∃ w', World.tellAll msg told w = some w' := by
  induction told generalizing w with
  | nil => exact ⟨w, rfl⟩
  | cons a told ih =>
      obtain ⟨m, key⟩ := a
      rw [List.map_cons] at hnodup
      obtain ⟨x, hx⟩ := hthere (m, key) (by simp)
      obtain ⟨w₁, htell⟩ := World.exists_tell key hx (hroom (m, key) (by simp)) hsender
      have htold := told_tell htell
      have hexec : (Op.tell m msg key).exec w = some ((), w₁) := by
        simp [Op.exec, htell]
      have hs₁ : Settled w₁.heap := (Op.evolves hs hexec).settled
      have hfirst := sent_tell hw htell
      obtain ⟨w', hrest⟩ : ∃ w', World.tellAll msg told w₁ = some w' := by
        refine ih hs₁ (hw.exec hs hexec) (List.nodup_cons.mp hnodup).2 ?_ ?_ ?_
        · intro a ha
          rw [htold.modAt_eq]
          exact hthere a (by simp [ha])
        · intro a ha
          have hne : a.1 ≠ m := by
            rintro rfl
            exact (List.nodup_cons.mp hnodup).1 (List.mem_map.mpr ⟨a, ha, rfl⟩)
          exact (hfirst.room_iff hw htold.host hne).mpr (hroom a (by simp [ha]))
        · intro s hmsg
          obtain ⟨cell, hcell⟩ := hsender s hmsg
          exact ⟨_, hfirst.sender s cell hmsg hcell⟩
      exact ⟨w', by rw [World.tellAll, htell, Option.bind_some, hrest]⟩

end Sent

end Libmodule
