import Libmodule.Errno
import Libmodule.Simulation
import Libmodule.World
import Mathlib.Data.List.ReduceOption
import Mathlib.Logic.Function.Basic

/-!
# Message copies and subscriptions

A copy of a message in the pipe of a module names the subscription it is for,
without a reference on it.  The subscription is kept alive by the map of the
module and by the events that have been made for it; the map may drop it
between the write to the pipe and the read.

Taking or giving back a reference of a destroyed object is a fault, written
`none`.
-/

namespace Libmodule

open CallRun

/-- `ev_src_t` of a subscription. -/
structure PipedSub where
  topic : String := ""
  flags : ℕ := 0

/-- A running or paused module: the map of its subscriptions, with their reference counts, its
pipe, and the subscriptions of live events.  `received` are those of the events that it
has got. -/
structure PipedMod where
  subscriptions : List (String × ℕ) := []
  subs : ℕ → PipedSub := fun _ => {}
  refs : ℕ → ℕ := fun _ => 0
  created : ℕ := 0
  pipe : List (Option ℕ) := []
  events : List ℕ := []
  received : List ℕ := []

/-- `regex` is the key of the first subscription that the topic matches as a regular
expression. -/
inductive PipedCall where
  | subscribe (topic : String) (flags : ℕ)
  | unsubscribe (topic : String)
  | publish (topic : String) (regex : Option String)
  | tell
  | recvEvents
  | freeEvent (sub : ℕ)
  | flush (running : Bool)
  | stop

namespace PipedMod

def get (s : PipedMod) (topic : String) : Option ℕ :=
  (s.subscriptions.find? (fun e => e.1 = topic)).map Prod.snd

def ref (s : PipedMod) (sub : ℕ) : Option PipedMod :=
  if s.refs sub = 0 then none
  else some { s with refs := Function.update s.refs sub (s.refs sub + 1) }

def unref (s : PipedMod) (sub : ℕ) : Option PipedMod :=
  if s.refs sub = 0 then none
  else some { s with refs := Function.update s.refs sub (s.refs sub - 1) }

/-- The entry of a topic goes, and the map gives its reference back. -/
def dropEntry (s : PipedMod) (topic : String) : Option PipedMod :=
  match s.get topic with
  | none => some s
  | some old => do
      let s ← s.unref old
      some { s with subscriptions := s.subscriptions.erase (topic, old) }

/-- A new subscription is put in the map. -/
def store (s : PipedMod) (topic : String) (flags : ℕ) : PipedMod :=
  { s with
    subscriptions := s.subscriptions ++ [(topic, s.created)]
    subs := Function.update s.subs s.created ⟨topic, flags⟩
    refs := Function.update s.refs s.created 1
    created := s.created + 1 }

/-- `m_mod_ps_subscribe`; the old subscription to the topic stays if it has the same flags. -/
def mModPsSubscribe (s : PipedMod) (topic : String) (flags : ℕ) : Option (ℤ × PipedMod) :=
  if (s.get topic).any (fun old => (s.subs old).flags = flags) then some (0, s)
  else do
    let s ← s.dropEntry topic
    some (0, s.store topic flags)

def mModPsUnsubscribe (s : PipedMod) (topic : String) : Option (ℤ × PipedMod) :=
  if s.get topic = none then some (-ENOENT, s)
  else do
    let s ← s.dropEntry topic
    some (0, s)

def fetchSub (s : PipedMod) (topic : String) (regex : Option String) : Option ℕ :=
  (s.get topic).orElse (fun _ => regex.bind s.get)

/-- `tell_subscribers`; the copy gets the subscription, and no reference on it. -/
def tellSubscribers (s : PipedMod) (topic : String) (regex : Option String) : PipedMod :=
  match s.fetchSub topic regex with
  | none => s
  | some sub => { s with pipe := s.pipe ++ [some sub] }

/-- `recv_events` with `process_ps`: the event takes a reference on the subscription of the
message, and a oneshot subscription is removed from the map by its topic. -/
def recvEvents (s : PipedMod) : Option (ℤ × PipedMod) :=
  match s.pipe with
  | [] => some (0, s)
  | none :: pipe => some (0, { s with pipe := pipe })
  | some sub :: pipe => do
      let s ← ref { s with pipe := pipe } sub
      let s := { s with events := sub :: s.events, received := s.received ++ [sub] }
      let s ← if hasFlag (s.subs sub).flags M_SRC_ONESHOT then s.dropEntry (s.subs sub).topic
        else some s
      some (0, s)

/-- `evt_dtor` -/
def freeEvent (s : PipedMod) (sub : ℕ) : Option (ℤ × PipedMod) :=
  if sub ∈ s.events then do
    let s ← s.unref sub
    some (0, { s with events := s.events.erase sub })
  else some (0, s)

/-- A round of `flush_pubsub_msgs`: an event for the subscription of the message, which must not
be `NULL`. -/
def flushMsg (s : PipedMod) : Option ℕ → Option PipedMod
  | none => none
  | some sub => do
      let s ← s.ref sub
      some { s with events := sub :: s.events, received := s.received ++ [sub] }

/-- `flush_pubsub_msgs` at the end of a loop; a module that is paused does not get the messages. -/
def flushPubsubMsgs (s : PipedMod) (running : Bool) : Option (ℤ × PipedMod) :=
  if running then do
    let s ← s.pipe.foldlM flushMsg s
    some (0, { s with pipe := [] })
  else some (0, { s with pipe := [] })

/-- `stop`, which frees the messages and clears the map. -/
def stop (s : PipedMod) : Option (ℤ × PipedMod) := do
  let s ← (s.subscriptions.map Prod.snd).foldlM unref { s with pipe := [] }
  some (0, { s with subscriptions := [] })

def exec (s : PipedMod) : PipedCall → Option (ℤ × PipedMod)
  | .subscribe topic flags => s.mModPsSubscribe topic flags
  | .unsubscribe topic => s.mModPsUnsubscribe topic
  | .publish topic regex => some (0, s.tellSubscribers topic regex)
  | .tell => some (0, { s with pipe := s.pipe ++ [none] })
  | .recvEvents => s.recvEvents
  | .freeEvent sub => s.freeEvent sub
  | .flush running => s.flushPubsubMsgs running
  | .stop => s.stop

/-! ## Contracts -/

/-- The subscription of each copy in the pipe is alive. -/
def CopiesAlive (_ : PipedMod) (_ : PipedCall) (_ : ℤ) (s' : PipedMod) : Prop :=
  ∀ sub, some sub ∈ s'.pipe → 0 < s'.refs sub

/-- A oneshot subscription has one copy in the pipe, or one event that its module has got, and
not two of them. -/
def Single (s : PipedMod) : Prop :=
  ∀ sub, hasFlag (s.subs sub).flags M_SRC_ONESHOT = true →
    s.pipe.count (some sub) + s.received.count sub ≤ 1

def StaysSingle (_ : PipedMod) (_ : PipedCall) (_ : ℤ) (s' : PipedMod) : Prop := s'.Single

/-- A subscription whose copies wait keeps a reference, and no copy without a subscription is
left at the end of a loop. -/
def Spares (s : PipedMod) : PipedCall → Prop
  | .subscribe topic flags => ∀ old, s.get topic = some old → (s.subs old).flags ≠ flags →
      some old ∈ s.pipe → 1 < s.refs old
  | .unsubscribe topic => ∀ old, s.get topic = some old → some old ∈ s.pipe → 1 < s.refs old
  | .recvEvents => ∀ sub pipe, s.pipe = some sub :: pipe →
      hasFlag (s.subs sub).flags M_SRC_ONESHOT = true →
        ∀ old, s.get (s.subs sub).topic = some old → old ≠ sub → some old ∈ pipe → 1 < s.refs old
  | .freeEvent sub => sub ∈ s.events → some sub ∈ s.pipe → 1 < s.refs sub
  | .flush running => running = true → none ∉ s.pipe
  | _ => True

/-- No message is sent for a oneshot subscription that has had one. -/
def FirstCopy (s : PipedMod) : PipedCall → Prop
  | .publish topic regex => ∀ sub, s.fetchSub topic regex = some sub →
      hasFlag (s.subs sub).flags M_SRC_ONESHOT = true →
        some sub ∉ s.pipe ∧ sub ∉ s.received
  | _ => True

/-! ## Reference counts -/

/-- References are those of the map and of the live events, and what has not been created is not
known anywhere. -/
structure Counted (s : PipedMod) : Prop where
  refs : ∀ sub, s.refs sub = (s.subscriptions.map Prod.snd).count sub + s.events.count sub
  fresh : ∀ sub, s.created ≤ sub → s.refs sub = 0 ∧ some sub ∉ s.pipe ∧ sub ∉ s.received

structure Inv (s : PipedMod) : Prop extends Counted s where
  alive : ∀ sub, some sub ∈ s.pipe → 0 < s.refs sub

/-- The map has given up its entry of the topic. -/
structure Drops (s : PipedMod) (topic : String) (t : PipedMod) : Prop where
  refs : ∀ sub, t.refs sub = s.refs sub - if s.get topic = some sub then 1 else 0
  others : t = { s with refs := t.refs, subscriptions := t.subscriptions }

section Counted

variable {s t : PipedMod} {topic : String} {sub : ℕ}

theorem inv_empty : Inv {} := ⟨⟨by simp, by simp⟩, by simp⟩

theorem get_mem (h : s.get topic = some sub) : (topic, sub) ∈ s.subscriptions := by
  obtain ⟨e, he, hsub⟩ := Option.map_eq_some_iff.mp h
  have hkey : e.1 = topic := by simpa using List.find?_some he
  have hpair : e = (topic, sub) := Prod.ext hkey hsub
  exact hpair ▸ List.mem_of_find?_eq_some he

theorem Counted.refs_pos_of_get (h : Counted s) (hget : s.get topic = some sub) :
    0 < s.refs sub := by
  have hcount : 0 < (s.subscriptions.map Prod.snd).count sub :=
    List.count_pos_iff.mpr (List.mem_map_of_mem (get_mem hget))
  have hrefs := h.refs sub
  omega

theorem Counted.lt_created (h : Counted s) (hmem : some sub ∈ s.pipe) : sub < s.created := by
  by_contra hle
  exact (h.fresh sub (Nat.le_of_not_lt hle)).2.1 hmem

theorem Counted.dropEntry (h : Counted s) (topic : String) :
    ∃ t, s.dropEntry topic = some t ∧ Drops s topic t ∧ Counted t := by
  cases hget : s.get topic with
  | none => exact ⟨s, by simp [PipedMod.dropEntry, hget], ⟨by simp [hget], rfl⟩, h⟩
  | some old =>
      have hpos := h.refs_pos_of_get hget
      have hne : s.refs old ≠ 0 := by omega
      have hcount : ∀ sub, (s.subscriptions.map Prod.snd).count sub =
          ((s.subscriptions.erase (topic, old)).map Prod.snd).count sub +
            if old = sub then 1 else 0 := by
        intro sub
        rw [((List.perm_cons_erase (get_mem hget)).map Prod.snd).count_eq, List.map_cons,
          List.count_cons]
        simp
      refine ⟨{ s with
        refs := Function.update s.refs old (s.refs old - 1)
        subscriptions := s.subscriptions.erase (topic, old) },
        by simp [PipedMod.dropEntry, hget, unref, hne], ⟨fun sub => ?_, rfl⟩, fun sub => ?_,
        fun sub hsub => ?_⟩
      · by_cases heq : old = sub
        · subst heq
          simp [hget]
        · simp [hget, heq, Function.update_of_ne (Ne.symm heq)]
      · have hrefs := h.refs sub
        have hsub := hcount sub
        by_cases heq : old = sub
        · subst heq
          simp only [Function.update_self, if_true] at hsub ⊢
          omega
        · simp only [Function.update_of_ne (Ne.symm heq), if_neg heq] at hsub ⊢
          omega
      · obtain ⟨hzero, hpipe, hreceived⟩ := h.fresh sub hsub
        refine ⟨?_, hpipe, hreceived⟩
        have heq : sub ≠ old := by
          rintro rfl
          exact hne hzero
        simpa [Function.update_of_ne heq] using hzero

theorem Counted.store (h : Counted s) (topic : String) (flags : ℕ) :
    Counted (s.store topic flags) := by
  obtain ⟨hzero, -, -⟩ := h.fresh s.created (Nat.le_refl _)
  refine ⟨fun sub => ?_, fun sub hsub => ?_⟩
  · have hrefs := h.refs sub
    simp only [PipedMod.store, List.map_append, List.map_cons, List.map_nil, List.count_append,
      List.count_singleton]
    by_cases heq : s.created = sub
    · subst heq
      simp
      omega
    · simp [Function.update_of_ne (Ne.symm heq), heq]
      omega
  · have hlt : s.created < sub := hsub
    obtain ⟨hzero, hpipe, hreceived⟩ := h.fresh sub (Nat.le_of_lt hlt)
    refine ⟨?_, hpipe, hreceived⟩
    rw [← hzero]
    exact Function.update_of_ne (Nat.ne_of_gt hlt) _ _

/-- A new event takes a reference. -/
theorem Counted.event (h : Counted s) (hpos : 0 < s.refs sub) :
    s.ref sub = some { s with refs := Function.update s.refs sub (s.refs sub + 1) } ∧
      ∀ pipe, (∀ m ∈ pipe, m ∈ s.pipe) → Counted { s with
        pipe := pipe
        refs := Function.update s.refs sub (s.refs sub + 1)
        events := sub :: s.events
        received := s.received ++ [sub] } := by
  have hne : s.refs sub ≠ 0 := by omega
  refine ⟨by simp [PipedMod.ref, hne], fun pipe hpipe => ⟨fun other => ?_, fun other hother => ?_⟩⟩
  · have hrefs := h.refs other
    simp only [List.count_cons]
    by_cases heq : sub = other
    · subst heq
      simp
      omega
    · simp [Function.update_of_ne (Ne.symm heq), heq]
      omega
  · obtain ⟨hzero, hnot, hreceived⟩ := h.fresh other hother
    have heq : other ≠ sub := by
      rintro rfl
      omega
    refine ⟨by simpa [Function.update_of_ne heq] using hzero, fun hmem => hnot (hpipe _ hmem), ?_⟩
    simp [hreceived, heq]

theorem unrefs_spec (l : List ℕ) (h : ∀ sub, l.count sub ≤ s.refs sub) :
    ∃ t, l.foldlM unref s = some t ∧ t = { s with refs := t.refs } ∧
      ∀ sub, t.refs sub = s.refs sub - l.count sub := by
  induction l generalizing s with
  | nil => exact ⟨s, rfl, rfl, by simp⟩
  | cons sub l ih =>
      have hsub := h sub
      rw [List.count_cons_self] at hsub
      have hne : s.refs sub ≠ 0 := by omega
      have hunref : s.unref sub =
          some { s with refs := Function.update s.refs sub (s.refs sub - 1) } := by
        simp [unref, hne]
      obtain ⟨t, hrest, hothers, hrefs⟩ :=
        @ih { s with refs := Function.update s.refs sub (s.refs sub - 1) } (fun other => by
          have hother := h other
          rw [List.count_cons] at hother
          by_cases heq : other = sub
          · subst heq
            simp at hother ⊢
            omega
          · simp only [Function.update_of_ne heq]
            omega)
      refine ⟨t, ?_, hothers, fun other => ?_⟩
      · rw [List.foldlM_cons, hunref, Option.bind_eq_bind, Option.bind_some]
        exact hrest
      · rw [hrefs other, List.count_cons]
        by_cases heq : other = sub
        · subst heq
          simp
          omega
        · simp [Function.update_of_ne heq, Ne.symm heq]

/-- A message without a subscription stops the flush with a fault. -/
theorem flushMsgs_fault (l : List (Option ℕ)) (s : PipedMod) (h : none ∈ l) :
    l.foldlM flushMsg s = none := by
  induction l generalizing s with
  | nil => cases h
  | cons m l ih =>
      rw [List.foldlM_cons]
      cases m with
      | none => rfl
      | some sub =>
          have hrest : none ∈ l := by simpa using h
          cases hflush : flushMsg s (some sub) with
          | none => rfl
          | some t => exact ih t hrest

theorem Counted.flushMsgs (l : List (Option ℕ)) (h : Counted s)
    (hl : ∀ m ∈ l, ∃ sub, m = some sub ∧ 0 < s.refs sub) :
    ∃ t, l.foldlM flushMsg s = some t ∧ Counted { t with pipe := [] } ∧ t.subs = s.subs ∧
      t.received = s.received ++ l.reduceOption := by
  induction l generalizing s with
  | nil =>
      exact ⟨s, rfl, ⟨h.refs, fun sub hsub => ⟨(h.fresh sub hsub).1, by simp,
        (h.fresh sub hsub).2.2⟩⟩, rfl, by simp⟩
  | cons m l ih =>
      obtain ⟨sub, rfl, hpos⟩ := hl m List.mem_cons_self
      obtain ⟨href, hevent⟩ := h.event hpos
      have hcounted := hevent s.pipe (fun _ hm => hm)
      obtain ⟨t, hrest, hcounted', hsubs, hreceived⟩ := ih hcounted (fun m hm => by
        obtain ⟨other, rfl, hother⟩ := hl m (List.mem_cons_of_mem _ hm)
        refine ⟨other, rfl, ?_⟩
        by_cases heq : other = sub
        · subst heq
          simp
        · simpa [Function.update_of_ne heq] using hother)
      refine ⟨t, ?_, hcounted', hsubs, ?_⟩
      · rw [List.foldlM_cons, flushMsg, href, Option.bind_eq_bind, Option.bind_some]
        exact hrest
      · simp [hreceived]

end Counted

/-! ## Copies and subscriptions -/

section Spares

variable {s t : PipedMod} {call : PipedCall} {topic : String}

/-- A call that spares waiting subscriptions does not fault and leaves none of them behind, and
only such a call does. -/
def SparesSpec (s : PipedMod) (call : PipedCall) : Prop :=
  (Spares s call → ∃ ret t, s.exec call = some (ret, t) ∧ CopiesAlive s call ret t ∧ Inv t) ∧
    ∀ ret t, s.exec call = some (ret, t) → CopiesAlive s call ret t → Spares s call

theorem sparesSpec_of_exec {ret : ℤ} (hexec : s.exec call = some (ret, t)) (ht : Counted t)
    (hiff : Spares s call ↔ ∀ sub, some sub ∈ t.pipe → 0 < t.refs sub) : SparesSpec s call := by
  refine ⟨fun hspares => ⟨ret, t, hexec, hiff.mp hspares, ht, hiff.mp hspares⟩,
    fun ret' t' hexec' halive => hiff.mpr ?_⟩
  rw [hexec] at hexec'
  cases hexec'
  exact halive

/-- The copies that wait keep their subscriptions when the map gives up an entry, if the one they
lose is not the last reference. -/
theorem Drops.alive_iff (h : Drops s topic t) (pipe : List (Option ℕ))
    (halive : ∀ sub, some sub ∈ pipe → 0 < s.refs sub) :
    (∀ sub, some sub ∈ pipe → 0 < t.refs sub) ↔
      ∀ old, s.get topic = some old → some old ∈ pipe → 1 < s.refs old := by
  constructor
  · intro hall old hget hmem
    have hpos := hall old hmem
    rw [h.refs, if_pos hget] at hpos
    omega
  · intro hall sub hmem
    have hpos := halive sub hmem
    rw [h.refs]
    split
    next hget =>
      have hlt := hall sub hget hmem
      omega
    next => omega

theorem subscribe_sparesSpec (h : Inv s) (topic : String) (flags : ℕ) :
    SparesSpec s (.subscribe topic flags) := by
  by_cases hsame : (s.get topic).any (fun old => (s.subs old).flags = flags) = true
  · have hexec : s.exec (.subscribe topic flags) = some (0, s) := by
      rw [exec, mModPsSubscribe, if_pos hsame]
    refine sparesSpec_of_exec hexec h.toCounted (iff_of_true ?_ h.alive)
    intro old hget hflags
    simp [hget, hflags] at hsame
  · obtain ⟨t, hdrop, hdrops, hcounted⟩ := h.toCounted.dropEntry topic
    have hexec : s.exec (.subscribe topic flags) = some (0, t.store topic flags) := by
      rw [exec, mModPsSubscribe, if_neg hsame, hdrop]
      rfl
    have hpipe : (t.store topic flags).pipe = s.pipe := by rw [hdrops.others]; rfl
    have hcreated : t.created = s.created := by rw [hdrops.others]
    have hstored : ∀ sub, some sub ∈ s.pipe →
        (t.store topic flags).refs sub = t.refs sub := by
      intro sub hmem
      have hlt := h.lt_created hmem
      exact Function.update_of_ne (by omega) _ _
    refine sparesSpec_of_exec hexec (hcounted.store topic flags) ?_
    rw [hpipe]
    calc Spares s (.subscribe topic flags)
        ↔ ∀ old, s.get topic = some old → some old ∈ s.pipe → 1 < s.refs old := by
          refine ⟨fun hall old hget => hall old hget fun hflags => hsame ?_,
            fun hall old hget _ => hall old hget⟩
          simp [hget, hflags]
      _ ↔ ∀ sub, some sub ∈ s.pipe → 0 < t.refs sub := (hdrops.alive_iff s.pipe h.alive).symm
      _ ↔ ∀ sub, some sub ∈ s.pipe → 0 < (t.store topic flags).refs sub := by
          refine forall₂_congr fun sub hmem => ?_
          rw [hstored sub hmem]

theorem unsubscribe_sparesSpec (h : Inv s) (topic : String) :
    SparesSpec s (.unsubscribe topic) := by
  by_cases hget : s.get topic = none
  · have hexec : s.exec (.unsubscribe topic) = some (-ENOENT, s) := by
      rw [exec, mModPsUnsubscribe, if_pos hget]
    refine sparesSpec_of_exec hexec h.toCounted (iff_of_true ?_ h.alive)
    intro old hold
    rw [hget] at hold
    cases hold
  · obtain ⟨t, hdrop, hdrops, hcounted⟩ := h.toCounted.dropEntry topic
    have hexec : s.exec (.unsubscribe topic) = some (0, t) := by
      rw [exec, mModPsUnsubscribe, if_neg hget, hdrop]
      rfl
    have hpipe : t.pipe = s.pipe := by rw [hdrops.others]
    refine sparesSpec_of_exec hexec hcounted ?_
    rw [hpipe]
    exact (hdrops.alive_iff s.pipe h.alive).symm

theorem fetchSub_get {regex : Option String} {sub : ℕ} (h : s.fetchSub topic regex = some sub) :
    ∃ key, s.get key = some sub := by
  rw [fetchSub] at h
  cases hget : s.get topic with
  | some old =>
      rw [hget] at h
      exact ⟨topic, hget.trans h⟩
  | none =>
      rw [hget] at h
      obtain ⟨key, -, hkey⟩ := Option.bind_eq_some_iff.mp h
      exact ⟨key, hkey⟩

/-- A copy is put in the pipe. -/
theorem Inv.write (h : Inv s) {m : Option ℕ} (hm : ∀ sub, m = some sub → 0 < s.refs sub) :
    Inv { s with pipe := s.pipe ++ [m] } := by
  refine ⟨⟨h.refs, fun sub hsub => ?_⟩, fun sub hmem => ?_⟩
  · obtain ⟨hzero, hpipe, hreceived⟩ := h.fresh sub hsub
    refine ⟨hzero, fun hmem => ?_, hreceived⟩
    rcases List.mem_append.mp hmem with hmem | hmem
    · exact hpipe hmem
    · have hpos := hm sub (List.mem_singleton.mp hmem).symm
      omega
  · rcases List.mem_append.mp hmem with hmem | hmem
    · exact h.alive sub hmem
    · exact hm sub (List.mem_singleton.mp hmem).symm

theorem Inv.tellSubscribers (h : Inv s) (topic : String) (regex : Option String) :
    Inv (s.tellSubscribers topic regex) := by
  rw [PipedMod.tellSubscribers]
  split
  next => exact h
  next sub hfetch =>
    obtain ⟨key, hget⟩ := fetchSub_get hfetch
    refine h.write fun other hother => ?_
    cases hother
    exact h.toCounted.refs_pos_of_get hget

/-- A message is read: its event has taken a reference before the map may give up the subscription
of the topic. -/
theorem recvEvents_sparesSpec (h : Inv s) : SparesSpec s .recvEvents := by
  cases hpipe : s.pipe with
  | nil =>
      have hexec : s.exec .recvEvents = some (0, s) := by rw [exec, recvEvents, hpipe]
      refine sparesSpec_of_exec hexec h.toCounted (iff_of_true ?_ h.alive)
      intro sub pipe hcons
      rw [hpipe] at hcons
      cases hcons
  | cons m pipe =>
      have hrest : ∀ m' ∈ pipe, m' ∈ s.pipe := by
        intro m' hm'
        rw [hpipe]
        exact List.mem_cons_of_mem _ hm'
      cases m with
      | none =>
          have hexec : s.exec .recvEvents = some (0, { s with pipe := pipe }) := by
            rw [exec, recvEvents, hpipe]
          refine sparesSpec_of_exec hexec ⟨h.refs, fun sub hsub => ?_⟩ (iff_of_true ?_ ?_)
          · obtain ⟨hzero, hnot, hreceived⟩ := h.fresh sub hsub
            exact ⟨hzero, fun hmem => hnot (hrest _ hmem), hreceived⟩
          · intro sub pipe' hcons
            rw [hpipe] at hcons
            cases hcons
          · exact fun sub hmem => h.alive sub (hrest _ hmem)
      | some sub =>
          have hpos : 0 < s.refs sub := h.alive sub (by rw [hpipe]; exact List.mem_cons_self)
          have hne : s.refs sub ≠ 0 := by omega
          have hcounted := (h.event hpos).2 pipe hrest
          have halive : ∀ other, some other ∈ pipe →
              0 < Function.update s.refs sub (s.refs sub + 1) other := by
            intro other hmem
            by_cases heq : other = sub
            · subst heq
              simp
            · rw [Function.update_of_ne heq]
              exact h.alive other (hrest _ hmem)
          by_cases honeshot : hasFlag (s.subs sub).flags M_SRC_ONESHOT = true
          · obtain ⟨t, hdrop, hdrops, hcounted'⟩ := hcounted.dropEntry (s.subs sub).topic
            have hexec : s.exec .recvEvents = some (0, t) := by
              simp [exec, recvEvents, hpipe, ref, hne, honeshot, hdrop]
            have hpipe' : t.pipe = pipe := by rw [hdrops.others]
            refine sparesSpec_of_exec hexec hcounted' ?_
            rw [hpipe', hdrops.alive_iff pipe halive]
            constructor
            · intro hspares old hget hmem
              by_cases heq : old = sub
              · subst heq
                simp only [Function.update_self]
                omega
              · simp only [Function.update_of_ne heq]
                exact hspares sub pipe hpipe honeshot old hget heq hmem
            · intro hall sub' pipe' hcons _ old hget hne' hmem
              rw [hpipe] at hcons
              cases hcons
              have hlt := hall old hget hmem
              simpa only [Function.update_of_ne hne'] using hlt
          · have hexec : s.exec .recvEvents = some (0, { s with
                pipe := pipe
                refs := Function.update s.refs sub (s.refs sub + 1)
                events := sub :: s.events
                received := s.received ++ [sub] }) := by
              simp [exec, recvEvents, hpipe, ref, hne, honeshot]
            refine sparesSpec_of_exec hexec hcounted (iff_of_true ?_ halive)
            intro sub' pipe' hcons honeshot'
            rw [hpipe] at hcons
            cases hcons
            exact absurd honeshot' honeshot

theorem freeEvent_sparesSpec (h : Inv s) (sub : ℕ) : SparesSpec s (.freeEvent sub) := by
  by_cases hmem : sub ∈ s.events
  · have hcount : 0 < s.events.count sub := List.count_pos_iff.mpr hmem
    have hrefs := h.refs sub
    have hne : s.refs sub ≠ 0 := by omega
    have hexec : s.exec (.freeEvent sub) = some (0, { s with
        refs := Function.update s.refs sub (s.refs sub - 1)
        events := s.events.erase sub }) := by
      simp [exec, freeEvent, hmem, unref, hne]
    refine sparesSpec_of_exec hexec ⟨fun other => ?_, fun other hother => ?_⟩ ?_
    · have hother := h.refs other
      by_cases heq : other = sub
      · subst heq
        simp only [Function.update_self, List.count_erase_self]
        omega
      · simpa [Function.update_of_ne heq, List.count_erase_of_ne heq] using hother
    · obtain ⟨hzero, hpipe, hreceived⟩ := h.fresh other hother
      have heq : other ≠ sub := by
        rintro rfl
        exact hne hzero
      exact ⟨by simpa [Function.update_of_ne heq] using hzero, hpipe, hreceived⟩
    · constructor
      · intro hspares other hpipe
        by_cases heq : other = sub
        · subst heq
          have hlt := hspares hmem hpipe
          simp only [Function.update_self]
          omega
        · simp only [Function.update_of_ne heq]
          exact h.alive other hpipe
      · intro halive _ hpipe
        have hpos := halive sub hpipe
        simp only [Function.update_self] at hpos
        omega
  · have hexec : s.exec (.freeEvent sub) = some (0, s) := by
      rw [exec, freeEvent, if_neg hmem]
    exact sparesSpec_of_exec hexec h.toCounted (iff_of_true (fun hin => absurd hin hmem) h.alive)

theorem Counted.emptyPipe (h : Counted s) : Counted { s with pipe := [] } :=
  ⟨h.refs, fun sub hsub => ⟨(h.fresh sub hsub).1, List.not_mem_nil, (h.fresh sub hsub).2.2⟩⟩

theorem flush_sparesSpec (h : Inv s) (running : Bool) : SparesSpec s (.flush running) := by
  cases running with
  | false =>
      have hexec : s.exec (.flush false) = some (0, { s with pipe := [] }) := rfl
      refine sparesSpec_of_exec hexec h.toCounted.emptyPipe (iff_of_true ?_ ?_)
      · exact fun hrunning => absurd hrunning Bool.false_ne_true
      · exact fun sub hmem => absurd hmem List.not_mem_nil
  | true =>
      by_cases hnone : none ∈ s.pipe
      · have hexec : s.exec (.flush true) = none := by
          simp [exec, flushPubsubMsgs, flushMsgs_fault s.pipe s hnone]
        refine ⟨fun hspares => absurd hnone (hspares rfl), fun ret t hexec' => ?_⟩
        rw [hexec] at hexec'
        cases hexec'
      · obtain ⟨t, hflush, hcounted, -, -⟩ := h.toCounted.flushMsgs s.pipe (fun m hm => by
          cases m with
          | none => exact absurd hm hnone
          | some sub => exact ⟨sub, rfl, h.alive sub hm⟩)
        have hexec : s.exec (.flush true) = some (0, { t with pipe := [] }) := by
          simp [exec, flushPubsubMsgs, hflush]
        refine sparesSpec_of_exec hexec hcounted (iff_of_true (fun _ => hnone) ?_)
        exact fun sub hmem => absurd hmem List.not_mem_nil

theorem stop_sparesSpec (h : Inv s) : SparesSpec s .stop := by
  obtain ⟨t, hunref, hothers, hrefs⟩ := unrefs_spec (s := { s with pipe := [] })
    (s.subscriptions.map Prod.snd) (fun sub => by
      have hsub := h.refs sub
      simp only
      omega)
  have hexec : s.exec .stop = some (0, { t with subscriptions := [] }) := by
    simp [exec, stop, hunref]
  refine sparesSpec_of_exec hexec ⟨fun sub => ?_, fun sub hsub => ?_⟩ (iff_of_true trivial ?_)
  · have hsub := h.refs sub
    rw [hothers]
    simp only [hrefs, List.map_nil, List.count_nil]
    omega
  · rw [hothers] at hsub ⊢
    obtain ⟨hzero, -, hreceived⟩ := h.fresh sub hsub
    refine ⟨?_, List.not_mem_nil, hreceived⟩
    simp only [hrefs]
    omega
  · intro sub hmem
    rw [hothers] at hmem
    cases hmem

theorem call_sparesSpec (h : Inv s) (call : PipedCall) : SparesSpec s call := by
  cases call with
  | subscribe topic flags => exact subscribe_sparesSpec h topic flags
  | unsubscribe topic => exact unsubscribe_sparesSpec h topic
  | publish topic regex =>
      have ht := h.tellSubscribers topic regex
      exact sparesSpec_of_exec rfl ht.toCounted (iff_of_true trivial ht.alive)
  | tell =>
      have ht : Inv { s with pipe := s.pipe ++ [none] } := h.write (by simp)
      exact sparesSpec_of_exec rfl ht.toCounted (iff_of_true trivial ht.alive)
  | recvEvents => exact recvEvents_sparesSpec h
  | freeEvent sub => exact freeEvent_sparesSpec h sub
  | flush running => exact flush_sparesSpec h running
  | stop => exact stop_sparesSpec h

end Spares

section Oneshot

variable {s t : PipedMod} {call : PipedCall} {topic : String}

theorem Single.of_le (h : Single s) (hsubs : t.subs = s.subs)
    (hcount : ∀ sub, t.pipe.count (some sub) + t.received.count sub ≤
      s.pipe.count (some sub) + s.received.count sub) : Single t := by
  intro sub honeshot
  rw [hsubs] at honeshot
  exact Nat.le_trans (hcount sub) (h sub honeshot)

theorem single_subscribe (h : Inv s) (hsingle : Single s) {flags : ℕ} {ret : ℤ}
    (hexec : s.exec (.subscribe topic flags) = some (ret, t)) : Single t := by
  rw [exec, mModPsSubscribe] at hexec
  split at hexec
  next =>
    cases hexec
    exact hsingle
  next =>
    obtain ⟨u, hdrop, hdrops, -⟩ := h.toCounted.dropEntry topic
    rw [hdrop] at hexec
    cases hexec
    rw [hdrops.others]
    intro sub honeshot
    by_cases heq : sub = s.created
    · subst heq
      -- there is neither a copy nor an event for a new subscription
      obtain ⟨-, hpipe, hreceived⟩ := h.fresh s.created (Nat.le_refl _)
      simp [store, List.count_eq_zero_of_not_mem hpipe, List.count_eq_zero_of_not_mem hreceived]
    · simp only [store, Function.update_of_ne heq] at honeshot ⊢
      exact hsingle sub honeshot

theorem single_unsubscribe (h : Inv s) (hsingle : Single s) {ret : ℤ}
    (hexec : s.exec (.unsubscribe topic) = some (ret, t)) : Single t := by
  rw [exec, mModPsUnsubscribe] at hexec
  split at hexec
  next =>
    cases hexec
    exact hsingle
  next =>
    obtain ⟨u, hdrop, hdrops, -⟩ := h.toCounted.dropEntry topic
    rw [hdrop] at hexec
    cases hexec
    rw [hdrops.others]
    exact hsingle

theorem single_publish (hsingle : Single s) {regex : Option String}
    (hfirst : FirstCopy s (.publish topic regex)) : Single (s.tellSubscribers topic regex) := by
  rw [tellSubscribers]
  split
  next => exact hsingle
  next sub hfetch =>
    intro other honeshot
    by_cases heq : other = sub
    · subst heq
      obtain ⟨hpipe, hreceived⟩ := hfirst other hfetch honeshot
      simp [List.count_eq_zero_of_not_mem hpipe, List.count_eq_zero_of_not_mem hreceived]
    · have hother := hsingle other honeshot
      simpa [List.count_append, Ne.symm heq] using hother

theorem single_recvEvents (h : Inv s) (hsingle : Single s) {ret : ℤ}
    (hexec : s.exec .recvEvents = some (ret, t)) : Single t := by
  cases hpipe : s.pipe with
  | nil =>
      rw [exec, recvEvents, hpipe] at hexec
      cases hexec
      exact hsingle
  | cons m pipe =>
      cases m with
      | none =>
          rw [exec, recvEvents, hpipe] at hexec
          cases hexec
          exact hsingle.of_le rfl (by simp [hpipe])
      | some sub =>
          have hpos : 0 < s.refs sub := h.alive sub (by rw [hpipe]; exact List.mem_cons_self)
          have hne : s.refs sub ≠ 0 := by omega
          have hrest : ∀ m' ∈ pipe, m' ∈ s.pipe := by
            intro m' hm'
            rw [hpipe]
            exact List.mem_cons_of_mem _ hm'
          have hcounted := (h.event hpos).2 pipe hrest
          have hmoved : Single { s with
              pipe := pipe
              refs := Function.update s.refs sub (s.refs sub + 1)
              events := sub :: s.events
              received := s.received ++ [sub] } := by
            refine hsingle.of_le rfl fun other => ?_
            rw [hpipe, List.count_cons, List.count_append, List.count_singleton]
            by_cases heq : sub = other
            · subst heq
              simp
              omega
            · simp [heq]
          by_cases honeshot : hasFlag (s.subs sub).flags M_SRC_ONESHOT = true
          · obtain ⟨u, hdrop, hdrops, -⟩ := hcounted.dropEntry (s.subs sub).topic
            simp only [exec, recvEvents, hpipe, ref, hne, if_false, honeshot, if_true, hdrop,
              Option.bind_eq_bind, Option.bind_some] at hexec
            cases hexec
            rw [hdrops.others]
            exact hmoved
          · simp only [exec, recvEvents, hpipe, ref, hne, if_false, honeshot,
              Option.bind_eq_bind, Option.bind_some] at hexec
            cases hexec
            exact hmoved

theorem count_reduceOption (l : List (Option ℕ)) (sub : ℕ) :
    l.reduceOption.count sub = l.count (some sub) := by
  induction l with
  | nil => rfl
  | cons m l ih =>
      cases m with
      | none => simpa using ih
      | some other => simpa [List.count_cons] using ih

theorem single_flush (h : Inv s) (hsingle : Single s) {running : Bool} {ret : ℤ}
    (hexec : s.exec (.flush running) = some (ret, t)) : Single t := by
  cases running with
  | false =>
      cases hexec
      exact hsingle.of_le rfl (by simp)
  | true =>
      by_cases hnone : none ∈ s.pipe
      · simp [exec, flushPubsubMsgs, flushMsgs_fault s.pipe s hnone] at hexec
      · obtain ⟨u, hflush, -, hsubs, hreceived⟩ := h.toCounted.flushMsgs s.pipe (fun m hm => by
          cases m with
          | none => exact absurd hm hnone
          | some sub => exact ⟨sub, rfl, h.alive sub hm⟩)
        simp only [exec, flushPubsubMsgs, hflush, if_true, Option.bind_eq_bind,
          Option.bind_some] at hexec
        cases hexec
        refine hsingle.of_le hsubs fun sub => ?_
        rw [hreceived, List.count_append, count_reduceOption]
        simp
        omega

theorem single_call (h : Inv s) (hsingle : Single s) (hfirst : FirstCopy s call) {ret : ℤ}
    (hexec : s.exec call = some (ret, t)) : Single t := by
  cases call with
  | subscribe topic flags => exact single_subscribe h hsingle hexec
  | unsubscribe topic => exact single_unsubscribe h hsingle hexec
  | publish topic regex =>
      cases hexec
      exact single_publish hsingle hfirst
  | tell =>
      cases hexec
      exact hsingle.of_le rfl (by simp [List.count_append])
  | recvEvents => exact single_recvEvents h hsingle hexec
  | freeEvent sub =>
      rw [exec, freeEvent] at hexec
      split at hexec
      next =>
        obtain ⟨u, hunref, hrest⟩ := Option.bind_eq_some_iff.mp hexec
        rw [unref] at hunref
        split at hunref
        · cases hunref
        · cases hunref
          cases hrest
          exact hsingle
      next =>
        cases hexec
        exact hsingle
  | flush running => exact single_flush h hsingle hexec
  | stop =>
      obtain ⟨u, hunref, hothers, -⟩ := unrefs_spec (s := { s with pipe := [] })
        (s.subscriptions.map Prod.snd) (fun sub => by
          have hsub := h.refs sub
          simp only
          omega)
      simp only [exec, stop, hunref, Option.bind_eq_bind, Option.bind_some] at hexec
      cases hexec
      rw [hothers]
      exact hsingle.of_le rfl (by simp)

theorem firstCopy_of_single (hsingle : Single t) {ret : ℤ} (hexec : s.exec call = some (ret, t)) :
    FirstCopy s call := by
  cases call with
  | publish topic regex =>
      cases hexec
      intro sub hfetch honeshot
      simp only [tellSubscribers, hfetch] at hsingle
      have hsub : s.pipe.count (some sub) + 1 + s.received.count sub ≤ 1 := by
        simpa [List.count_append] using hsingle sub honeshot
      exact ⟨List.count_eq_zero.mp (by omega), List.count_eq_zero.mp (by omega)⟩
  | _ => trivial

end Oneshot

end PipedMod

end Libmodule
