import Libmodule.Evolution
import Libmodule.Execution

/-!
# The data of a message

With `M_PS_AUTOFREE` the library is to free the data of a message when its last
recipient is done with it.  Each recipient gets a copy of the message with the
same data, and the destructor of each copy frees it: so the data is freed as
often as there are recipients.
-/

namespace Libmodule

open RefHeap Reentrant

/-! ## Recipients -/

/-- A module that is running or paused and, where there is a topic, has subscribed
to it. -/
def hears (w : World) (topic : Option String) (m : ℕ) : Bool :=
  match modAt w.heap m, topic with
  | none, _ => false
  | some x, none => decide (x.state ∈ [.running, .paused])
  | some x, some topic =>
      decide (x.state ∈ [.running, .paused]) &&
        (x.subscriptions.contains topic ||
          x.subscriptions.any (fun entry =>
            w.host.regexec (((srcAt w.heap entry.2).bind EvSource.topic).getD "") topic))

/-- The public functions that send a message of the user. -/
inductive Send where
  | tell (recipient : ℕ)
  | publish (topic : Option String)

def Send.call (s : Send) (m data flags : ℕ) : Lm ℤ :=
  match s with
  | .tell recipient => mModPsTell (some m) (some recipient) (some data) flags
  | .publish topic => mModPsPublish (some m) topic (some data) flags

/-- The modules that get a copy when `m` sends a message. -/
def Send.recipients (s : Send) (w : World) (m : ℕ) : List ℕ :=
  match s with
  | .tell recipient => [recipient].filter (hears w none)
  | .publish topic =>
      match (modAt w.heap m).bind (fun x => ctxAt w.heap x.ctx) with
      | none => []
      | some c => c.modules.values.filter (hears w topic)

/-! ## Copies -/

/-- From `w` to `w'`, `n` copies of a message are written to pipes. -/
structure Told (msg : PsPriv) (n : ℕ) (w w' : World) : Prop where
  length : w'.heap.length = w.heap.length + n
  old : ∀ p < w.heap.length, val w'.heap p = val w.heap p
  copies : ∀ p < w'.heap.length, w.heap.length ≤ p →
    Live w'.heap p ∧ ∃ sub, val w'.heap p = some (.msg { msg with sub := sub })
  live : ∀ p, Live w.heap p → Live w'.heap p
  host : w'.host = w.host

namespace Told

variable {msg : PsPriv} {n k : ℕ} {w w₁ w₂ : World}

theorem refl (w : World) : Told msg 0 w w where
  length := rfl
  old := fun _ _ => rfl
  copies := fun p hp hle => by omega
  live := fun _ hp => hp
  host := rfl

theorem trans (h₁ : Told msg n w w₁) (h₂ : Told msg k w₁ w₂) : Told msg (n + k) w w₂ where
  length := by rw [h₂.length, h₁.length, Nat.add_assoc]
  old := by
    intro p hp
    rw [h₂.old p (by rw [h₁.length]; omega), h₁.old p hp]
  copies := by
    intro p hp hle
    by_cases hp₁ : p < w₁.heap.length
    · obtain ⟨hlive, sub, hval⟩ := h₁.copies p hp₁ hle
      exact ⟨h₂.live p hlive, sub, (h₂.old p hp₁).trans hval⟩
    · exact h₂.copies p hp (by omega)
  live := fun p hp => h₂.live p (h₁.live p hp)
  host := h₂.host.trans h₁.host

theorem ref {p : ℕ} (h : w.ref p = some w₁) : Told msg 0 w w₁ := by
  unfold World.ref at h
  simp only [Option.bind_eq_bind, Option.bind_eq_some_iff, Option.some.injEq] at h
  obtain ⟨c, hc, rfl⟩ := h
  exact
    { length := length_put _ _ _
      old := fun q _ => val_put_same hc (c.refs + 1) q
      copies := by
        intro q hq hle
        rw [length_put] at hq
        omega
      live := by
        intro q hq
        by_cases hpq : p = q
        · subst hpq
          exact Live.of_get (get_put_self hc) (Nat.succ_pos _)
        · rwa [Live, refs_put_ne hpq]
      host := rfl }

theorem new (msg : PsPriv) (sub : Option ℕ) (w : World) :
    Told msg 1 w (w.new (.msg { msg with sub := sub })).2 where
  length := length_alloc _ _
  old := by
    intro p hp
    rw [World.new, val_alloc, if_neg hp.ne]
  copies := by
    intro p hp hle
    rw [World.new, length_alloc] at hp
    obtain rfl : p = w.heap.length := by omega
    have hget : get (w.new (.msg { msg with sub := sub })).2.heap w.heap.length =
        some ⟨1, .msg { msg with sub := sub }⟩ := by
      rw [World.new, get_alloc, if_pos rfl]
    exact ⟨Live.of_get hget Nat.one_pos, sub, by simp [val, hget]⟩
  live := by
    intro p hp
    obtain ⟨k, b, hget⟩ := hp.get
    apply Live.of_get (c := ⟨k + 1, b⟩) _ (Nat.succ_pos k)
    rw [World.new, get_alloc, if_neg (lt_length hget).ne, hget]
  host := rfl

theorem of_heap_eq (hheap : w₁.heap = w.heap) (hhost : w₁.host = w.host) : Told msg 0 w w₁ where
  length := by rw [hheap, Nat.add_zero]
  old := fun _ _ => by rw [hheap]
  copies := by
    intro p hp hle
    rw [hheap] at hp
    omega
  live := fun p hp => by rwa [hheap]
  host := hhost

/-- Only messages are new, so that every other object is as it was. -/
theorem val_eq_some (h : Told msg n w w₁) {p : ℕ} {o : Obj} (ho : ∀ g, o ≠ .msg g) :
    val w₁.heap p = some o ↔ val w.heap p = some o := by
  by_cases hp : p < w.heap.length
  · rw [h.old p hp]
  · constructor
    · intro hval
      obtain ⟨c, hc, -⟩ := Option.map_eq_some_iff.mp hval
      obtain ⟨-, sub, hcopy⟩ := h.copies p (lt_length hc) (by omega)
      exact absurd (Option.some.inj (hval.symm.trans hcopy)) (ho _)
    · intro hval
      obtain ⟨c, hc, -⟩ := Option.map_eq_some_iff.mp hval
      exact absurd (lt_length hc) hp

theorem modAt_eq (h : Told msg n w w₁) (p : ℕ) : modAt w₁.heap p = modAt w.heap p := by
  apply Option.ext
  intro x
  rw [modAt_eq_some, modAt_eq_some, h.val_eq_some (by simp)]

theorem srcAt_eq (h : Told msg n w w₁) (p : ℕ) : srcAt w₁.heap p = srcAt w.heap p := by
  apply Option.ext
  intro x
  rw [srcAt_eq_some, srcAt_eq_some, h.val_eq_some (by simp)]

theorem hears_eq (h : Told msg n w w₁) (topic : Option String) (m : ℕ) :
    hears w₁ topic m = hears w topic m := by
  simp only [hears, h.modAt_eq, h.srcAt_eq, h.host]

end Told

theorem told_allocPsMsg {w w' : World} {msg : PsPriv} {sub : Option ℕ} {g : ℕ}
    (h : w.allocPsMsg msg sub = some (g, w')) : Told msg 1 w w' := by
  unfold World.allocPsMsg at h
  split at h
  next =>
    cases h
    exact Told.new msg sub w
  next sender _ =>
    simp only [Option.bind_eq_bind, Option.bind_eq_some_iff, Option.some.injEq] at h
    obtain ⟨u, href, h⟩ := h
    cases h
    exact (Told.ref href).trans (Told.new msg sub u)

theorem told_tell {w w' : World} {m : ℕ} {msg : PsPriv} {sub : Option String}
    (h : w.tell m msg sub = some w') : Told msg 1 w w' := by
  unfold World.tell at h
  simp only [Option.bind_eq_bind, Option.bind_eq_some_iff] at h
  obtain ⟨x, -, ⟨g, v⟩, halloc, h⟩ := h
  split at h
  next =>
    have hwritten : Told msg 0 v w' := by
      cases h
      exact Told.of_heap_eq rfl rfl
    exact (told_allocPsMsg halloc).trans hwritten
  next => cases h

/-! ## What a call sends -/

section Sends

variable {depth : ℕ} {w w' : World} {msg : PsPriv} {ret : ℤ}

theorem fetchRegex_ends {topic : String} {subs : NameTable} {key : Option String}
    (h : (fetchRegex topic subs).Ends (handler depth) w key w') :
    w' = w ∧ key.isSome = subs.any (fun entry =>
      w.host.regexec (((srcAt w.heap entry.2).bind EvSource.topic).getD "") topic) := by
  induction subs with
  | nil =>
      obtain ⟨rfl, rfl⟩ := Prog.ends_pure.mp h
      simp
  | cons entry subs ih =>
      obtain ⟨name, sub⟩ := entry
      simp only [fetchRegex, Prog.ends_bind, derefSrc_ends, getWorld_ends] at h
      obtain ⟨s, u, ⟨hs, rfl⟩, v, u, ⟨rfl, rfl⟩, h⟩ := h
      split at h
      next hmatch =>
        obtain ⟨rfl, rfl⟩ := Prog.ends_pure.mp h
        simp [hs, hmatch]
      next hmatch =>
        obtain ⟨rfl, hkey⟩ := ih h
        refine ⟨rfl, ?_⟩
        rw [hkey]
        simp [hs, hmatch]

/-- Without a topic the state of a module decides alone. -/
theorem tellIf_ends_none {key : Option String} {m : ℕ} (htopic : msg.topic = none)
    (h : (tellIf msg key m).Ends (handler depth) w ret w') :
    Told msg (if hears w none m then 1 else 0) w w' := by
  unfold tellIf at h
  simp only [Prog.ends_bind, derefMod_ends] at h
  obtain ⟨x, u, ⟨hx, rfl⟩, h⟩ := h
  have hhears : hears u none m = decide (x.state ∈ [.running, .paused]) := by
    simp [hears, hx]
  by_cases hstate : x.state ∈ [.running, .paused]
  · rw [if_pos ⟨hstate, .inl htopic⟩] at h
    simp only [Prog.ends_bind, act_ends, Op.exec, Option.map_eq_some_iff, Prod.mk.injEq] at h
    obtain ⟨_, v, ⟨v', htell, -, rfl⟩, h⟩ := h
    obtain ⟨-, rfl⟩ := Prog.ends_pure.mp h
    rw [hhears, if_pos (by simpa using hstate)]
    exact told_tell htell
  · rw [if_neg (fun hboth => hstate hboth.1)] at h
    obtain ⟨-, rfl⟩ := Prog.ends_pure.mp h
    rw [hhears, if_neg (by simpa using hstate)]
    exact Told.refl w'

/-- With a subscription the message is sent to a module that runs or is paused. -/
theorem tellIf_ends_some {key topic : String} {m : ℕ} {x : Mod} (htopic : msg.topic = some topic)
    (hx : modAt w.heap m = some x) (hstate : x.state ∈ [.running, .paused])
    (h : (tellIf msg (some key) m).Ends (handler depth) w ret w') : Told msg 1 w w' := by
  unfold tellIf at h
  simp only [Prog.ends_bind, derefMod_ends] at h
  obtain ⟨y, u, ⟨hy, rfl⟩, h⟩ := h
  cases hx.symm.trans hy
  rw [if_pos ⟨hstate, by simp [htopic]⟩] at h
  simp only [Prog.ends_bind, act_ends, Op.exec, Option.map_eq_some_iff, Prod.mk.injEq] at h
  obtain ⟨_, v, ⟨v', htell, -, rfl⟩, h⟩ := h
  obtain ⟨-, rfl⟩ := Prog.ends_pure.mp h
  exact told_tell htell

theorem fetchSub_ends {m : ℕ} {topic : String} {key : Option String} {x : Mod}
    (hx : modAt w.heap m = some x) (hstate : x.state ∈ [.running, .paused])
    (h : (fetchSub m topic).Ends (handler depth) w key w') :
    w' = w ∧ key.isSome = hears w (some topic) m := by
  unfold fetchSub at h
  simp only [Prog.ends_bind, derefMod_ends] at h
  obtain ⟨y, u, ⟨hy, rfl⟩, h⟩ := h
  cases hx.symm.trans hy
  split at h
  next hcontains =>
    obtain ⟨rfl, rfl⟩ := Prog.ends_pure.mp h
    simp [hears, hx, hstate, hcontains]
  next hcontains =>
    obtain ⟨rfl, hkey⟩ := fetchRegex_ends h
    refine ⟨rfl, ?_⟩
    rw [hkey]
    simp [hears, hx, hstate, hcontains]

theorem tellSubscribers_ends {topic : String} {ms : List ℕ} {u : Unit}
    (htopic : msg.topic = some topic)
    (h : (tellSubscribers msg topic ms).Ends (handler depth) w u w') :
    Told msg (ms.filter (hears w (some topic))).length w w' := by
  induction ms generalizing w with
  | nil =>
      obtain ⟨-, rfl⟩ := Prog.ends_pure.mp h
      exact Told.refl w'
  | cons m ms ih =>
      simp only [tellSubscribers, Prog.ends_bind, derefMod_ends] at h
      obtain ⟨x, u, ⟨hx, rfl⟩, h⟩ := h
      by_cases hstate : x.state ∈ [.running, .paused]
      · rw [if_pos hstate] at h
        simp only [Prog.ends_bind] at h
        obtain ⟨key, v, hfetch, h⟩ := h
        obtain ⟨rfl, hkey⟩ := fetchSub_ends hx hstate hfetch
        cases key with
        | none =>
            have hdeaf : hears v (some topic) m = false := by rw [← hkey]; rfl
            simpa [hdeaf] using ih h
        | some key =>
            have hhears : hears v (some topic) m = true := by rw [← hkey]; rfl
            simp only [Prog.ends_bind] at h
            obtain ⟨ret, z, htell, h⟩ := h
            have hfirst := tellIf_ends_some htopic hx hstate htell
            have hrest := ih h
            rw [funext (hfirst.hears_eq (some topic))] at hrest
            rw [List.filter_cons_of_pos hhears, List.length_cons, Nat.add_comm]
            exact hfirst.trans hrest
      · rw [if_neg hstate] at h
        have hdeaf : hears u (some topic) m = false := by simp [hears, hx, hstate]
        simpa [hdeaf] using ih h

theorem tellModules_ends {ms : NameTable} {u : Unit} (htopic : msg.topic = none)
    (h : (tellModules msg ms).Ends (handler depth) w u w') :
    Told msg (ms.values.filter (hears w none)).length w w' := by
  induction ms generalizing w with
  | nil =>
      obtain ⟨-, rfl⟩ := Prog.ends_pure.mp h
      exact Told.refl w'
  | cons entry ms ih =>
      obtain ⟨name, m⟩ := entry
      simp only [tellModules, Prog.ends_bind] at h
      obtain ⟨ret, z, htell, h⟩ := h
      have hfirst := tellIf_ends_none htopic htell
      have hrest := ih h
      rw [funext (hfirst.hears_eq none)] at hrest
      have hboth := hfirst.trans hrest
      have hvalues : NameTable.values ((name, m) :: ms) = m :: NameTable.values ms := rfl
      rw [hvalues, List.filter_cons]
      split
      next hhears => simpa [hhears, Nat.add_comm] using hboth
      next hdeaf => simpa [hdeaf] using hboth

/-- The message that `send_msg` copies. -/
def sentMsg (m data flags : ℕ) (topic : Option String) : PsPriv where
  system := false
  sender := some m
  topic := topic
  data := some data
  flags := flags
  sub := none

/-- Taking a token changes nothing that decides who hears a message. -/
theorem hears_setTokens {m tokens : ℕ}
    (h : w.setMod m (fun x => ModField.set x (.tbTokens tokens)) = some w')
    (topic : Option String) (p : ℕ) : hears w' topic p = hears w topic p := by
  obtain ⟨-, rfl⟩ := World.setMod_eq_some.mp h
  simp only [hears, modAt_modify_mod, srcAt_modify_mod]
  by_cases hmp : m = p
  · rw [if_pos hmp]
    cases modAt w.heap p <;> cases topic <;> rfl
  · rw [if_neg hmp]

theorem recipients_setTokens {m tokens : ℕ}
    (h : w.setMod m (fun x => ModField.set x (.tbTokens tokens)) = some w') (s : Send) (p : ℕ) :
    s.recipients w' p = s.recipients w p := by
  cases s with
  | tell recipient =>
      simp only [Send.recipients, funext (hears_setTokens h none)]
  | publish topic =>
      simp only [Send.recipients, funext (hears_setTokens h topic)]
      obtain ⟨-, rfl⟩ := World.setMod_eq_some.mp h
      simp only [modAt_modify_mod, ctxAt_modify_mod]
      by_cases hmp : m = p
      · rw [if_pos hmp]
        cases modAt w.heap p <;> rfl
      · rw [if_neg hmp]

theorem told_sendMsg_tell {m r data flags : ℕ}
    (h : (sendMsg m (some r) none (some data) flags).Ends (handler depth) w ret w') :
    Told (sentMsg m data flags none) ((Send.tell r).recipients w m).length w w' := by
  unfold sendMsg at h
  rw [if_neg (by simp)] at h
  simp only [Prog.ends_bind, derefMod_ends, tellPubsubMsg] at h
  obtain ⟨x, u, ⟨-, rfl⟩, n, v, htell, h⟩ := h
  obtain ⟨-, rfl⟩ := Prog.ends_pure.mp h
  have htold : Told (sentMsg m data flags none) (if hears u none r then 1 else 0) u w' :=
    tellIf_ends_none rfl htell
  simp only [Send.recipients, List.filter_cons, List.filter_nil]
  split
  next hhears => simpa [hhears] using htold
  next hdeaf => simpa [hdeaf] using htold

theorem told_sendMsg_publish {m data flags : ℕ} {topic : Option String}
    (h : (sendMsg m none topic (some data) flags).Ends (handler depth) w ret w') :
    Told (sentMsg m data flags topic) ((Send.publish topic).recipients w m).length w w' := by
  unfold sendMsg at h
  rw [if_neg (by simp)] at h
  simp only [Prog.ends_bind, derefMod_ends, derefCtx_ends, tellPubsubMsg] at h
  obtain ⟨x, u, ⟨hx, rfl⟩, c, v, ⟨hc, rfl⟩, h⟩ := h
  have hrecipients : (Send.publish topic).recipients v m =
      c.modules.values.filter (hears v topic) := by
    simp [Send.recipients, hx, hc]
  rw [hrecipients]
  cases topic with
  | none =>
      simp only [Prog.ends_bind] at h
      obtain ⟨_, z, htell, h⟩ := h
      obtain ⟨-, rfl⟩ := Prog.ends_pure.mp h
      exact tellModules_ends rfl htell
  | some topic =>
      simp only [Prog.ends_bind] at h
      obtain ⟨_, z, htell, h⟩ := h
      obtain ⟨-, rfl⟩ := Prog.ends_pure.mp h
      exact tellSubscribers_ends rfl htell

/-- Every recipient gets one copy. -/
theorem told_send {s : Send} {m data flags : ℕ}
    (h : (s.call m data flags).Ends (handler depth) w 0 w') :
    ∃ topic v, v.heap.length = w.heap.length ∧
      Told (sentMsg m data flags topic) (s.recipients w m).length v w' := by
  cases s with
  | tell r =>
      unfold Send.call mModPsTell at h
      obtain ⟨m', -, hm, -, -, -, hperm⟩ := modAssertPerm_ends le_rfl h
      cases hm
      obtain ⟨r', hr, hsame⟩ := sameCtx_ends le_rfl hperm
      cases hr
      obtain ⟨tokens, v, hset, hsend⟩ := consumeToken_ends le_rfl hsame
      refine ⟨none, v, ?_, ?_⟩
      · obtain ⟨-, rfl⟩ := World.setMod_eq_some.mp hset
        exact length_modify _ _ _
      · rw [← recipients_setTokens hset]
        exact told_sendMsg_tell hsend
  | publish topic =>
      unfold Send.call mModPsPublish at h
      obtain ⟨m', -, hm, -, -, -, hperm⟩ := modAssertPerm_ends le_rfl h
      cases hm
      split at hperm
      next =>
        obtain ⟨hret, -⟩ := Prog.ends_pure.mp hperm
        exact absurd hret (by decide)
      next =>
        obtain ⟨tokens, v, hset, hsend⟩ := consumeToken_ends le_rfl hperm
        refine ⟨topic, v, ?_, ?_⟩
        · obtain ⟨-, rfl⟩ := World.setMod_eq_some.mp hset
          exact length_modify _ _ _
        · rw [← recipients_setTokens hset]
          exact told_sendMsg_publish hsend

end Sends

/-! ## What is freed -/

/-- The objects that are new in `w'`. -/
def copies (w w' : World) : List ℕ :=
  List.range' w.heap.length (w'.heap.length - w.heap.length)

/-- The data that the destructors of some messages free between `w` and `w'`. -/
def freedSince (w w' : World) (msgs : List ℕ) : List ℕ :=
  ((w'.sys.freedData.drop w.sys.freedData.length).filter
    (fun entry => entry.1 ∈ msgs)).map Prod.snd

/-- From `w`, just after the call, to `w'` the data is freed once, and not while a copy
is still to be handled. -/
structure FreedOnce (w w' : World) (msgs : List ℕ) (data : ℕ) : Prop where
  once : freedSince w w' msgs = [data]
  notBefore : ∀ u, Later w u → Later u w' → (∃ g ∈ msgs, Live u.heap g) →
    freedSince w u msgs = []

theorem mem_copies {w w' : World} {g : ℕ} :
    g ∈ copies w w' ↔ w.heap.length ≤ g ∧ g < w'.heap.length := by
  rw [copies, List.mem_range'_1]
  omega

section Freed

variable {w w' : World} {msgs : List ℕ} {data : ℕ}

/-- A message whose destructor frees `data`. -/
def Frees (w : World) (data g : ℕ) : Prop :=
  g < w.heap.length ∧ ∃ o, val w.heap g = some o ∧ o.payload = [data]

theorem freedSince_cons {g : ℕ} (hg : g ∉ msgs) :
    (freedSince w w' (g :: msgs)).length =
      (freedSince w w' [g]).length + (freedSince w w' msgs).length := by
  simp only [freedSince, List.length_map]
  induction w'.sys.freedData.drop w.sys.freedData.length with
  | nil => rfl
  | cons entry entries ih =>
      by_cases heq : entry.1 = g
      · have hnot : entry.1 ∉ msgs := heq ▸ hg
        simp_all
        omega
      · by_cases hin : entry.1 ∈ msgs
        · simp_all
          omega
        · simp_all

theorem freedSince_one {g : ℕ} (h : Pays w w') (hg : Frees w data g) :
    freedSince w w' [g] = if Live w'.heap g then [] else [data] := by
  obtain ⟨hlt, o, ho, hpayload⟩ := hg
  obtain ⟨new, hledger, hpaid⟩ := h.ledger
  obtain ⟨c, hget, rfl⟩ := Option.map_eq_some_iff.mp ho
  simp only [freedSince, hledger, List.drop_left, List.mem_singleton, hpaid g hlt]
  by_cases hlive : Live w'.heap g
  · simp [paid_live hlive, hlive]
  · have hrefs : refs w'.heap g = 0 := by
      rw [Live] at hlive
      omega
    simp [paid, hget, hrefs, hpayload, hlive]

/-- As many frees as messages that are gone. -/
theorem freedSince_length (h : Pays w w') (hnodup : msgs.Nodup)
    (hfrees : ∀ g ∈ msgs, Frees w data g) (hgone : ∀ g ∈ msgs, ¬ Live w'.heap g) :
    (freedSince w w' msgs).length = msgs.length := by
  induction msgs with
  | nil => simp [freedSince]
  | cons g msgs ih =>
      rw [List.nodup_cons] at hnodup
      rw [freedSince_cons hnodup.1, freedSince_one h (hfrees g (by simp)),
        if_neg (hgone g (by simp)),
        ih hnodup.2 (fun g hg => hfrees g (by simp [hg])) (fun g hg => hgone g (by simp [hg]))]
      simp [Nat.add_comm]

end Freed

/-- Two running modules. -/
def pair : World :=
  (machine.runCalls 3
    [.mCtxRegister "ctx" 0, .mModRegister "a" true (some onEvtOnly) 0,
      .mModRegister "b" true (some onEvtOnly) 0, .mModStart (some 1), .mModStart (some 2)]
    (startFrom [] [])).state

/-- One of them tells the other something. -/
def pairTold : World := (((Send.tell 2).call 1 7 M_PS_AUTOFREE).run (handler 3) pair).state

/-- One of them publishes something to both. -/
def pairPublished : World :=
  (((Send.publish none).call 1 7 M_PS_AUTOFREE).run (handler 3) pair).state

/-- Both stop, and flush what they were sent. -/
def stopPair (w : World) : World :=
  (machine.runCalls 3 [.mModStop (some 1), .mModStop (some 2)] w).state

theorem later_pair : Later (World.initial plainHost [] [] []) pair := by
  rw [pair, startFrom]
  exact later_run _ _ _

theorem later_stopPair (w : World) : Later w (stopPair w) := later_run _ _ _

end Libmodule
