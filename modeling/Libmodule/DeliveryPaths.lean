import Libmodule.SubscriptionMemory

/-!
# The two ways of a message

A message in the pipe of a module reaches its callback in one of two ways.
While the context loops, `recv_events` makes an event for the pipe, and
`process_ps` and `push_evt` complete it.  When the loop stops,
`flush_pubsub_msgs` makes an event for the subscription.

Payloads are named by the address of the message.  Messages hold no reference
on their subscription: a freed one is `none`, and reading it is a fault.
-/

namespace Libmodule

inductive PsSrc where
  | pipe
  | sub (id : ℕ)
  deriving DecidableEq

/-- `evt_priv_t` of a message. -/
structure PsEvt where
  type : MSrcType
  psEvt : Option ℕ := none
  userdata : ℕ := 0
  src : Option PsSrc

structure PsModule where
  running : Bool := true
  subscriptions : List (String × ℕ) := []
  subs : ℕ → Option (Subscription String) := fun _ => none
  msgs : ℕ → PsPriv
  pipe : List ℕ := []

/-- Whether there is memory for the queue of flushed events, and for the event of each message
that is read. -/
structure FlushEnv where
  queue : Bool
  mem : ℕ → Bool

namespace PsModule

/-- `new_evt`, which reads the type of the source and takes a reference on it.  The pipe and the
subscriptions have the same type. -/
def newEvt (s : PsModule) : PsSrc → Option PsEvt
  | .pipe => some { type := .ps, src := some .pipe }
  | .sub id => (s.subs id).map fun _ => { type := .ps, src := some (.sub id) }

/-! ## The end of a loop -/

/-- The messages that are left in the pipe, after `n` others. -/
def flushLoop (s : PsModule) (env : FlushEnv) (stoppingMod : Bool) :
    ℕ → List ℕ → Option (List PsEvt)
  | _, [] => some []
  | n, mm :: pipe =>
      if stoppingMod = false ∧ s.running = true ∧ env.mem n = true then do
        let sub ← (s.msgs mm).sub
        let msg ← s.newEvt (.sub sub)
        let flushed ← s.flushLoop env stoppingMod (n + 1) pipe
        if env.queue then some ({ msg with psEvt := some mm } :: flushed) else some flushed
      else s.flushLoop env stoppingMod (n + 1) pipe

/-- `flush_pubsub_msgs`, with the events that the callback gets. -/
def flushPubsubMsgs (s : PsModule) (env : FlushEnv) (stoppingMod : Bool) :
    Option (List PsEvt × PsModule) := do
  let flushed ← s.flushLoop env stoppingMod 0 s.pipe
  some (flushed, { s with pipe := [] })

/-! ## A message that is received -/

/-- The source of the event becomes the subscription, if there is one. -/
def processPs (s : PsModule) (mm : ℕ) (evt : PsEvt) : Option PsEvt :=
  match (s.msgs mm).sub with
  | none => some { evt with psEvt := some mm, src := none }
  | some sub => do
      let _ ← s.subs sub
      some { evt with psEvt := some mm, src := some (.sub sub) }

def mapRemove (s : PsModule) : Option (CString String) → PsModule
  | none => s
  | some topic => { s with subscriptions := s.subscriptions.filter (fun e => e.1 ≠ topic.text) }

def removeOneshot (s : PsModule) : Option PsSrc → Option PsModule
  | some (.sub sub) => do
      let x ← s.subs sub
      some (if hasFlag x.flags M_SRC_ONESHOT then s.mapRemove x.topic else s)
  | _ => some s

/-- The event that `push_evt` puts in the queue of the module, if it is not an internal one. -/
def pushEvt (s : PsModule) (evt : PsEvt) : Option (Option PsEvt) :=
  match evt.src with
  | some (.sub sub) => do
      let x ← s.subs sub
      some (if hasFlag x.flags M_SRC_INTERNAL then none
        else some { evt with userdata := x.userptr })
  | _ => some (some evt)

def stop (s : PsModule) : PsModule := { s with running := false, subscriptions := [], pipe := [] }

/-- What `recv_events` does with a message of the pipe, when there is memory for its event. -/
def recvEvent (s : PsModule) (mm : ℕ) : Option (Option PsEvt × PsModule) := do
  let evt ← s.newEvt .pipe
  let evt ← s.processPs mm evt
  let s' ← s.removeOneshot evt.src
  if (s.msgs mm).topic = some M_PS_MOD_POISONPILL then some (none, s'.stop)
  else
    let pushed ← s.pushEvt evt
    some (pushed, s')

/-! ## Agreement -/

/-- The event that is flushed for a message is the one that would have been received, and a
oneshot subscription is gone from the map either way. -/
structure PathsAgree (s s' : PsModule) (mm sub : ℕ) (flushed : PsEvt) : Prop where
  event : ∃ evt s'', s.recvEvent mm = some (some evt, s'') ∧ flushed.type = evt.type ∧
    flushed.psEvt = evt.psEvt ∧ flushed.userdata = evt.userdata
  removed : ∀ x, s.subs sub = some x → hasFlag x.flags M_SRC_ONESHOT = true →
    (∀ topic, (topic, sub) ∉ s'.subscriptions) ∧
      ∀ evt s'', s.recvEvent mm = some (evt, s'') → ∀ topic, (topic, sub) ∉ s''.subscriptions

section Flush

variable {s s' : PsModule} {env : FlushEnv} {stoppingMod : Bool} {evts : List PsEvt} {evt : PsEvt}

/-- A flushed event has its message and its subscription, and no user data. -/
theorem flushLoop_mem {n : ℕ} {pipe : List ℕ}
    (hflush : s.flushLoop env stoppingMod n pipe = some evts) (hevt : evt ∈ evts) :
    ∃ mm ∈ pipe, ∃ sub x, (s.msgs mm).sub = some sub ∧ s.subs sub = some x ∧
      evt = { type := .ps, psEvt := some mm, userdata := 0, src := some (.sub sub) } := by
  induction pipe generalizing n evts with
  | nil =>
      obtain rfl := Option.some.inj hflush
      cases hevt
  | cons mm pipe ih =>
      have hlater : ∀ {rest : List PsEvt}, s.flushLoop env stoppingMod (n + 1) pipe = some rest →
          evt ∈ rest → ∃ mm' ∈ mm :: pipe, ∃ sub x, (s.msgs mm').sub = some sub ∧
            s.subs sub = some x ∧
            evt = { type := .ps, psEvt := some mm', userdata := 0, src := some (.sub sub) } := by
        intro rest hrest hmem
        obtain ⟨mm', hmm', hfound⟩ := ih hrest hmem
        exact ⟨mm', List.mem_cons_of_mem _ hmm', hfound⟩
      rw [flushLoop] at hflush
      split at hflush
      next =>
        obtain ⟨sub, hsub, hflush⟩ := Option.bind_eq_some_iff.mp hflush
        obtain ⟨msg, hmsg, hflush⟩ := Option.bind_eq_some_iff.mp hflush
        obtain ⟨rest, hrest, hflush⟩ := Option.bind_eq_some_iff.mp hflush
        obtain ⟨x, hx, rfl⟩ := Option.map_eq_some_iff.mp hmsg
        split at hflush
        next =>
          obtain rfl := Option.some.inj hflush
          rcases List.mem_cons.mp hevt with rfl | hevt
          · exact ⟨mm, List.mem_cons_self, sub, x, hsub, hx, rfl⟩
          · exact hlater hrest hevt
        next =>
          obtain rfl := Option.some.inj hflush
          exact hlater hrest hevt
      next => exact hlater hflush hevt

theorem mapRemove_sublist (topic : Option (CString String)) :
    (s.mapRemove topic).subscriptions.Sublist s.subscriptions := by
  cases topic with
  | none => exact List.Sublist.refl _
  | some topic => exact List.filter_sublist

theorem recvEvent_eq {mm sub : ℕ} {x : Subscription String} (hsub : (s.msgs mm).sub = some sub)
    (hx : s.subs sub = some x) :
    ∃ s', s'.subscriptions.Sublist s.subscriptions ∧ s.recvEvent mm =
      some (if (s.msgs mm).topic = some M_PS_MOD_POISONPILL ∨
        hasFlag x.flags M_SRC_INTERNAL = true then none
      else some { type := .ps, psEvt := some mm, userdata := x.userptr, src := some (.sub sub) },
        s') := by
  have hremoved : (if hasFlag x.flags M_SRC_ONESHOT = true then s.mapRemove x.topic
      else s).subscriptions.Sublist s.subscriptions := by
    split
    · exact mapRemove_sublist x.topic
    · exact List.Sublist.refl _
  by_cases hpill : (s.msgs mm).topic = some M_PS_MOD_POISONPILL
  · refine ⟨(if hasFlag x.flags M_SRC_ONESHOT = true then s.mapRemove x.topic else s).stop,
      List.nil_sublist _, ?_⟩
    simp [recvEvent, newEvt, processPs, removeOneshot, hsub, hx, hpill]
  · refine ⟨_, hremoved, ?_⟩
    by_cases hinternal : hasFlag x.flags M_SRC_INTERNAL = true
    · simp [recvEvent, newEvt, processPs, removeOneshot, pushEvt, hsub, hx, hpill, hinternal]
    · simp [recvEvent, newEvt, processPs, removeOneshot, pushEvt, hsub, hx, hpill, hinternal]

/-- The two ways of a message with a subscription agree exactly if the subscription has no user
pointer and is not internal, the message is not a poison pill, and a oneshot subscription is
already gone from the map. -/
theorem pathsAgree_iff {mm sub : ℕ} {x : Subscription String}
    (hflush : s.flushPubsubMsgs env false = some (evts, s')) (hevt : evt ∈ evts)
    (hmm : evt.psEvt = some mm) (hsub : (s.msgs mm).sub = some sub) (hx : s.subs sub = some x) :
    PathsAgree s s' mm sub evt ↔
      x.userptr = 0 ∧ hasFlag x.flags M_SRC_INTERNAL = false ∧
        (s.msgs mm).topic ≠ some M_PS_MOD_POISONPILL ∧
        (hasFlag x.flags M_SRC_ONESHOT = true → ∀ topic, (topic, sub) ∉ s.subscriptions) := by
  obtain ⟨flushed, hloop, hend⟩ := Option.bind_eq_some_iff.mp hflush
  cases hend
  obtain ⟨mm', -, sub', x', hsub', hx', rfl⟩ := flushLoop_mem hloop hevt
  cases hmm
  obtain ⟨s'', hsublist, hrecv⟩ := recvEvent_eq hsub hx
  rw [hsub] at hsub'
  cases hsub'
  constructor
  · rintro ⟨⟨evt, t, hevent, -, -, huser⟩, hremoved⟩
    rw [hrecv] at hevent
    obtain ⟨hevent, -⟩ := Prod.mk.inj (Option.some.inj hevent)
    split at hevent
    next => cases hevent
    next hcases =>
      obtain ⟨hpill, hinternal⟩ := not_or.mp hcases
      cases hevent
      exact ⟨huser.symm, by simpa using hinternal, hpill,
        fun honeshot => (hremoved x hx honeshot).1⟩
  · rintro ⟨huser, hinternal, hpill, hgone⟩
    rw [if_neg (by simp [hpill, hinternal])] at hrecv
    refine ⟨⟨_, s'', hrecv, rfl, rfl, huser.symm⟩, fun y hy honeshot => ?_⟩
    rw [hx] at hy
    cases hy
    refine ⟨hgone honeshot, fun evt t hevent topic hmem => ?_⟩
    rw [hrecv] at hevent
    cases hevent
    exact hgone honeshot topic (hsublist.subset hmem)

end Flush

/-- A module with a message for its subscription. -/
def oneMessage (flags userptr : ℕ) : PsModule where
  subscriptions := [("leo", 0)]
  subs := fun id => if id = 0 then some ⟨flags, userptr, some ⟨7, "leo"⟩, 0⟩ else none
  msgs := fun _ => ⟨false, none, some "leo", none, 0, some 0⟩
  pipe := [3]

/-- Without user data and flags the ways agree. -/
theorem pathsAgree_plain :
    PathsAgree (oneMessage 0 0) { oneMessage 0 0 with pipe := [] } 3 0
      { type := .ps, psEvt := some 3, userdata := 0, src := some (.sub 0) } := by
  have hflush : (oneMessage 0 0).flushPubsubMsgs ⟨true, fun _ => true⟩ false =
    some ([{ type := .ps, psEvt := some 3, userdata := 0, src := some (.sub 0) }],
      { oneMessage 0 0 with pipe := [] }) := rfl
  refine (pathsAgree_iff hflush List.mem_cons_self rfl rfl rfl).mpr
    ⟨rfl, by decide, by decide, fun honeshot => ?_⟩
  exact absurd honeshot (by decide)

/-- The user pointer of the subscription is not in the event that is flushed. -/
theorem not_pathsAgree_userptr :
    ¬ ∀ evts s', (oneMessage 0 5).flushPubsubMsgs ⟨true, fun _ => true⟩ false = some (evts, s') →
      ∀ evt ∈ evts, PathsAgree (oneMessage 0 5) s' 3 0 evt := by
  intro h
  obtain ⟨evt, t, hevent, -, -, huser⟩ := (h _ _ rfl _ List.mem_cons_self).event
  cases hevent
  cases huser

end PsModule
end Libmodule
