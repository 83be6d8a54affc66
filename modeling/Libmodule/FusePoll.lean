import Libmodule.Errno
import Libmodule.Simulation
import Mathlib.Data.List.Nodup
import Mathlib.Logic.Function.Basic

/-!
# Polling the file of a module

`fs_poll` stores the poll handle of a client, or tells it of the wakeup that it
has missed; events of the module and its deregistration wake the clients up.
The clients are those of one module.  A use of a poll handle that has been
destroyed is a fault, written `none`, and so is a call on a file whose client
was freed when the loop stopped.

A handle is named in the order of its creation.
-/

namespace Libmodule

open CallRun

/-- `POLLIN`, for an event, or `POLLERR`, when the module has gone. -/
inductive Wake where
  | pollin
  | pollerr
  deriving DecidableEq, Repr

/-- The part of `fs_client_t` that polls use. -/
structure PollClient where
  ph : Option ℕ := none
  inEvt : ℤ := 0

/-- The clients of a module and the poll handles.  `gone` are the files whose clients were freed
under them, `notified` the handles that `fuse_notify_poll` was called on; `woken` and
`reported` tell what each client was woken up with and what its polls answered, and
`dropped` are the handles that a client stored another one over. -/
structure FusePoll where
  files : List ℕ := []
  gone : List ℕ := []
  clients : ℕ → PollClient := fun _ => {}
  opened : ℕ := 0
  created : ℕ := 0
  notified : List ℕ := []
  destroyed : List ℕ := []
  dropped : List ℕ := []
  woken : ℕ → List Wake := fun _ => []
  reported : ℕ → List Wake := fun _ => []

/-- `fsNotify` has the number of events; `ph` tells whether a poll comes with a handle. -/
inductive PollCall where
  | fsOpen
  | fsRelease (file : ℕ)
  | fsPoll (file : ℕ) (ph : Bool)
  | fsNotify (evts : ℕ)
  | fsCleanup
  | fsCtxStopped

namespace FusePoll

def setClient (s : FusePoll) (file : ℕ) (cl : PollClient) : FusePoll :=
  { s with clients := Function.update s.clients file cl }

def fuseNotifyPoll (s : FusePoll) (ph : ℕ) : Option FusePoll :=
  if ph ∈ s.destroyed then none else some { s with notified := s.notified ++ [ph] }

def fusePollhandleDestroy (s : FusePoll) (ph : ℕ) : Option FusePoll :=
  if ph ∈ s.destroyed then none else some { s with destroyed := s.destroyed ++ [ph] }

def fsOpen (s : FusePoll) : ℤ × FusePoll :=
  (0, { s with
    files := s.opened :: s.files
    clients := Function.update s.clients s.opened {}
    opened := s.opened + 1 })

def clientDtor (s : FusePoll) (file : ℕ) : Option FusePoll := do
  let s ← match (s.clients file).ph with
    | none => some s
    | some ph => s.fusePollhandleDestroy ph
  some (s.setClient file {})

def fsRelease (s : FusePoll) (file : ℕ) : Option (ℤ × FusePoll) :=
  if file ∈ s.gone then none
  else if file ∉ s.files then some (-ENOENT, s)
  else do
    let s ← s.clientDtor file
    some (0, { s with files := s.files.erase file })

def report (s : FusePoll) (file : ℕ) : FusePoll :=
  { s with
    reported := Function.update s.reported file
      (s.reported file ++ [if (s.clients file).inEvt = 1 then .pollin else .pollerr]) }

def fsPoll (s : FusePoll) (file : ℕ) (ph : Bool) : Option (ℤ × FusePoll) :=
  if file ∈ s.gone then none
  else
    let handle := s.created
    let s := if ph then { s with created := s.created + 1 } else s
    if file ∉ s.files then
      some (-ENOENT, if ph then { s with dropped := s.dropped ++ [handle] } else s)
    else if ph then
      if (s.clients file).inEvt ≠ 0 then do
        let s ← (s.report file).fusePollhandleDestroy handle
        some (0, s.setClient file { s.clients file with inEvt := 0 })
      else
        let s := { s with dropped := s.dropped ++ (s.clients file).ph.toList }
        some (0, s.setClient file { s.clients file with ph := some handle })
    else some (0, s)

/-- A round of `fs_wakeup_clients`. -/
def wakeupClient (leaving : Bool) (s : FusePoll) (file : ℕ) : Option FusePoll :=
  match (s.clients file).ph with
  | none => some s
  | some ph => do
      let s := { s with
        woken := Function.update s.woken file
          (s.woken file ++ [if leaving then Wake.pollerr else .pollin]) }
      let s ← s.fuseNotifyPoll ph
      let s ← s.fusePollhandleDestroy ph
      some (s.setClient file ⟨none, if leaving then -1 else 1⟩)

def fsWakeupClients (s : FusePoll) (leaving : Bool) : Option FusePoll :=
  s.files.foldlM (wakeupClient leaving) s

/-- `fs_notify`; a module without clients has no `fs_priv_t`. -/
def fsNotify : ℕ → FusePoll → Option FusePoll
  | 0, s => some s
  | evts + 1, s => do
      let s ← s.fsWakeupClients false
      fsNotify evts s

def fsCtxStopped (s : FusePoll) : Option FusePoll := do
  let t ← s.files.foldlM clientDtor s
  some { t with files := [], gone := s.files ++ s.gone }

def exec (s : FusePoll) : PollCall → Option (ℤ × FusePoll)
  | .fsOpen => some s.fsOpen
  | .fsRelease file => s.fsRelease file
  | .fsPoll file ph => s.fsPoll file ph
  | .fsNotify evts => do
      let s ← fsNotify evts s
      some (0, s)
  | .fsCleanup => do
      let s ← s.fsWakeupClients true
      some (0, s)
  | .fsCtxStopped => do
      let s ← s.fsCtxStopped
      some (0, s)

/-! ## The protocol -/

/-- The wakeup that a client has not been told of. -/
def pending (cl : PollClient) : List Wake :=
  if cl.inEvt = 0 then [] else [if cl.inEvt = 1 then .pollin else .pollerr]

/-- Each handle is destroyed once, or waits with one client, or has been dropped. -/
structure Handles (s : FusePoll) : Prop where
  once : s.destroyed.Nodup
  notified : ∀ ph ∈ s.notified, ph ∈ s.destroyed
  accounted : ∀ ph < s.created, ph ∈ s.destroyed ∨ ph ∈ s.dropped ∨
    ∃ file ∈ s.files, (s.clients file).ph = some ph
  waiting : ∀ file ph, (s.clients file).ph = some ph →
    ph < s.created ∧ ph ∉ s.destroyed ∧ ph ∉ s.dropped
  owner : ∀ file other ph, (s.clients file).ph = some ph → (s.clients other).ph = some ph →
    file = other
  leaked : ∀ ph ∈ s.dropped, ph < s.created ∧ ph ∉ s.destroyed
  created : ∀ ph ∈ s.destroyed, ph < s.created

/-- Besides, each open file is told of each wakeup once and in order, but for the last one,
which may wait. -/
structure Kept (s : FusePoll) : Prop extends Handles s where
  told : ∀ file ∈ s.files, s.woken file = s.reported file ++ pending (s.clients file)

/-- Whom a call wakes up: those that wait, once, whatever the number of events. -/
def Wakes (s : FusePoll) (call : PollCall) (s' : FusePoll) : Prop :=
  ∀ file ∈ s.files, s'.woken file = s.woken file ++
    match call with
    | .fsNotify evts => if 0 < evts ∧ (s.clients file).ph.isSome then [.pollin] else []
    | .fsCleanup => if (s.clients file).ph.isSome then [.pollerr] else []
    | _ => []

def KeepsPolls (s : FusePoll) (call : PollCall) (_ : ℤ) (s' : FusePoll) : Prop :=
  s'.Kept ∧ s.Wakes call s'

/-- No call on a file whose client went with the loop. -/
def NotGone (s : FusePoll) : PollCall → Prop
  | .fsRelease file => file ∉ s.gone
  | .fsPoll file _ => file ∉ s.gone
  | _ => True

/-! ## The invariant -/

/-- A client waits or has been woken up, not both, and only open files have clients. -/
structure Inv (s : FusePoll) : Prop extends Kept s where
  calm : ∀ file, (s.clients file).inEvt ≠ 0 → (s.clients file).ph = none
  closed : ∀ file, file ∉ s.files → s.clients file = {}
  nodup : s.files.Nodup
  below : ∀ file ∈ s.files, file < s.opened
  fresh : ∀ file, s.opened ≤ file → s.woken file = [] ∧ s.reported file = []

section Invariant

variable {s t : FusePoll} {file : ℕ} {l : List ℕ} {leaving : Bool} {cl : PollClient}

theorem inv_empty : Inv {} :=
  ⟨⟨⟨List.nodup_nil, by simp, by simp, by simp, by simp, by simp, by simp⟩, by simp⟩, by simp,
    fun _ _ => rfl, List.nodup_nil, by simp, fun _ _ => ⟨rfl, rfl⟩⟩

theorem Inv.open (h : Inv s) : Inv s.fsOpen.2 := by
  have hnew : s.opened ∉ s.files := fun hmem => Nat.lt_irrefl _ (h.below _ hmem)
  have hsame : Function.update s.clients s.opened {} = s.clients := by
    rw [← h.closed s.opened hnew, Function.update_eq_self]
  simp only [fsOpen, hsame]
  refine ⟨⟨{ h.toHandles with accounted := fun ph hph => ?_ }, fun f hf => ?_⟩, h.calm,
    fun f hf => ?_, List.nodup_cons.mpr ⟨hnew, h.nodup⟩, fun f hf => ?_, fun f hf => ?_⟩
  · rcases h.accounted ph hph with hd | hd | ⟨f, hf, hwait⟩
    · exact .inl hd
    · exact .inr (.inl hd)
    · exact .inr (.inr ⟨f, List.mem_cons_of_mem _ hf, hwait⟩)
  · rcases List.mem_cons.mp hf with rfl | hf
    · obtain ⟨hwoken, hreported⟩ := h.fresh s.opened (Nat.le_refl _)
      simp [hwoken, hreported, h.closed _ hnew, pending]
    · exact h.told f hf
  · exact h.closed f fun hmem => hf (List.mem_cons_of_mem _ hmem)
  · rcases List.mem_cons.mp hf with rfl | hf
    · exact Nat.lt_succ_self _
    · exact Nat.lt_succ_of_lt (h.below f hf)
  · exact h.fresh f (Nat.le_of_succ_le hf)

/-- A client gives up its handle, which is destroyed. -/
theorem Handles.retire (h : Handles s)
    (hclients : t.clients = Function.update s.clients file cl) (hcl : cl.ph = none)
    (hdestroyed : t.destroyed = s.destroyed ++ (s.clients file).ph.toList)
    (hnotified : ∀ ph ∈ t.notified, ph ∈ s.notified ∨ (s.clients file).ph = some ph)
    (hcreated : t.created = s.created) (hdropped : t.dropped = s.dropped)
    (hfiles : ∀ f ∈ s.files, f ≠ file → f ∈ t.files) : Handles t := by
  have hmem : ∀ ph, ph ∈ t.destroyed ↔ ph ∈ s.destroyed ∨ (s.clients file).ph = some ph := by
    intro ph
    rw [hdestroyed, List.mem_append, Option.mem_toList]
  have hold : ∀ f ph, (t.clients f).ph = some ph → f ≠ file ∧ (s.clients f).ph = some ph := by
    intro f ph hph
    rw [hclients] at hph
    by_cases heq : f = file
    · subst heq
      rw [Function.update_self, hcl] at hph
      cases hph
    · rw [Function.update_of_ne heq] at hph
      exact ⟨heq, hph⟩
  refine ⟨?_, fun ph hph => ?_, fun ph hph => ?_, fun f ph hph => ?_, fun f g ph hf hg => ?_,
    fun ph hph => ?_, fun ph hph => ?_⟩
  · rw [hdestroyed, List.nodup_append]
    refine ⟨h.once, by cases (s.clients file).ph <;> simp, ?_⟩
    rintro ph hph other hother rfl
    rw [Option.mem_toList] at hother
    exact (h.waiting file ph hother).2.1 hph
  · rcases hnotified ph hph with hn | hn
    · exact (hmem ph).mpr (.inl (h.notified ph hn))
    · exact (hmem ph).mpr (.inr hn)
  · rw [hcreated] at hph
    rw [hmem, hdropped]
    rcases h.accounted ph hph with hd | hd | ⟨f, hf, hwait⟩
    · exact .inl (.inl hd)
    · exact .inr (.inl hd)
    · by_cases heq : f = file
      · exact .inl (.inr (heq ▸ hwait))
      · refine .inr (.inr ⟨f, hfiles f hf heq, ?_⟩)
        rw [hclients, Function.update_of_ne heq]
        exact hwait
  · obtain ⟨hne, hph⟩ := hold f ph hph
    obtain ⟨hlt, hnot, hkept⟩ := h.waiting f ph hph
    rw [hcreated, hdropped, hmem]
    exact ⟨hlt, not_or_intro hnot fun hfile => hne (h.owner f file ph hph hfile), hkept⟩
  · exact h.owner f g ph (hold f ph hf).2 (hold g ph hg).2
  · rw [hdropped] at hph
    obtain ⟨hlt, hnot⟩ := h.leaked ph hph
    rw [hcreated, hmem]
    exact ⟨hlt, not_or_intro hnot fun hfile => (h.waiting file ph hfile).2.2 hph⟩
  · rw [hcreated]
    rcases (hmem ph).mp hph with hd | hd
    · exact h.created ph hd
    · exact (h.waiting file ph hd).1

/-- The client of an open file goes, and its handle with it. -/
theorem Inv.clientDtor (h : Inv { s with files := l }) (hmem : file ∈ l) :
    ∃ t, s.clientDtor file = some t ∧ Inv { t with files := l.erase file } ∧
      t.files = s.files ∧ t.gone = s.gone ∧ t.woken = s.woken := by
  have hdtor : s.clientDtor file = some { s with
      destroyed := s.destroyed ++ (s.clients file).ph.toList
      clients := Function.update s.clients file {} } := by
    have hdestroy : ∀ ph, (s.clients file).ph = some ph → ph ∉ s.destroyed :=
      fun ph hph => (h.waiting file ph hph).2.1
    cases hph : (s.clients file).ph with
    | none => simp [FusePoll.clientDtor, hph, setClient]
    | some ph =>
        simp [FusePoll.clientDtor, hph, fusePollhandleDestroy, hdestroy ph hph, setClient]
  have hold : ∀ f ∈ l.erase file, f ≠ file ∧ f ∈ l := fun f hf => (h.nodup.mem_erase_iff).mp hf
  refine ⟨_, hdtor, ⟨⟨?_, fun f hf => ?_⟩, fun f hf => ?_, fun f hf => ?_, h.nodup.erase file,
    fun f hf => h.below f (hold f hf).2, h.fresh⟩, rfl, rfl, rfl⟩
  · exact h.toHandles.retire rfl rfl rfl (fun ph hph => .inl hph) rfl rfl
      fun f hf hne => (h.nodup.mem_erase_iff).mpr ⟨hne, hf⟩
  · obtain ⟨hne, hf⟩ := hold f hf
    simp only [Function.update_of_ne hne]
    exact h.told f hf
  · by_cases heq : f = file
    · subst heq
      simp
    · simp only [Function.update_of_ne heq] at hf ⊢
      exact h.calm f hf
  · by_cases heq : f = file
    · subst heq
      simp
    · simp only [Function.update_of_ne heq]
      exact h.closed f fun hf' => hf ((h.nodup.mem_erase_iff).mpr ⟨heq, hf'⟩)

theorem Inv.release (h : Inv s) (hgone : file ∉ s.gone) :
    ∃ ret t, s.fsRelease file = some (ret, t) ∧ Inv t ∧ t.woken = s.woken := by
  by_cases hmem : file ∈ s.files
  · obtain ⟨t, hdtor, hinv, hfiles, -, hwoken⟩ := Inv.clientDtor (s := s) (l := s.files) h hmem
    refine ⟨0, { t with files := t.files.erase file }, ?_, ?_, hwoken⟩
    · simp [fsRelease, hgone, hmem, hdtor]
    · rw [hfiles]
      exact hinv
  · exact ⟨-ENOENT, s, by simp [fsRelease, hgone, hmem], h, rfl⟩

theorem Inv.clientDtors (l : List ℕ) (h : Inv { s with files := l }) :
    ∃ t, l.foldlM FusePoll.clientDtor s = some t ∧ Inv { t with files := [] } ∧
      t.woken = s.woken := by
  induction l generalizing s with
  | nil => exact ⟨s, rfl, h, rfl⟩
  | cons file l ih =>
      obtain ⟨t, hdtor, hinv, -, -, hwoken⟩ := h.clientDtor List.mem_cons_self
      rw [List.erase_cons_head] at hinv
      obtain ⟨u, hrest, hinv', hwoken'⟩ := ih hinv
      refine ⟨u, ?_, hinv', hwoken'.trans hwoken⟩
      rw [List.foldlM_cons, hdtor, Option.bind_eq_bind, Option.bind_some]
      exact hrest

/-! ### Wakeups -/

/-- The clients at `l` that wait have been woken up, and nothing else has happened to clients. -/
structure Woke (leaving : Bool) (s : FusePoll) (l : List ℕ) (t : FusePoll) : Prop where
  files : t.files = s.files
  gone : t.gone = s.gone
  woken : ∀ file, t.woken file = s.woken file ++
    if file ∈ l ∧ (s.clients file).ph.isSome then [if leaving then Wake.pollerr else .pollin]
    else []
  ph : ∀ file, (t.clients file).ph = if file ∈ l then none else (s.clients file).ph

theorem Inv.wakeupClient (h : Inv s) (leaving : Bool) (file : ℕ) :
    ∃ t, wakeupClient leaving s file = some t ∧ Inv t ∧ Woke leaving s [file] t := by
  cases hph : (s.clients file).ph with
  | none =>
      refine ⟨s, by simp [FusePoll.wakeupClient, hph], h, rfl, rfl, fun f => ?_, fun f => ?_⟩
      · by_cases heq : f = file
        · subst heq
          simp [hph]
        · simp [heq]
      · by_cases heq : f = file
        · subst heq
          simp [hph]
        · simp [heq]
  | some ph =>
      have hfresh : ph ∉ s.destroyed := (h.waiting file ph hph).2.1
      have hcalm : (s.clients file).inEvt = 0 := by
        by_contra hevt
        have hnone := h.calm file hevt
        rw [hph] at hnone
        cases hnone
      have hfile : file ∈ s.files := by
        by_contra hnot
        rw [h.closed file hnot] at hph
        cases hph
      have hwake : FusePoll.wakeupClient leaving s file = some { s with
          woken := Function.update s.woken file
            (s.woken file ++ [if leaving then Wake.pollerr else .pollin])
          notified := s.notified ++ [ph]
          destroyed := s.destroyed ++ [ph]
          clients := Function.update s.clients file ⟨none, if leaving then -1 else 1⟩ } := by
        simp [FusePoll.wakeupClient, hph, fuseNotifyPoll, fusePollhandleDestroy, hfresh, setClient]
      refine ⟨_, hwake, ⟨⟨?_, fun f hf => ?_⟩, fun f hf => ?_, fun f hf => ?_, h.nodup, h.below,
        fun f hf => ?_⟩, rfl, rfl, fun f => ?_, fun f => ?_⟩
      · refine h.toHandles.retire rfl rfl (by simp [hph]) (fun other hother => ?_) rfl rfl
          fun f hf _ => hf
        rcases List.mem_append.mp hother with hn | hn
        · exact .inl hn
        · rw [List.mem_singleton.mp hn]
          exact .inr hph
      · have htold := h.told f hf
        by_cases heq : f = file
        · subst heq
          rw [pending, if_pos hcalm, List.append_nil] at htold
          simp only [Function.update_self, htold, pending]
          cases leaving <;> simp
        · simp only [Function.update_of_ne heq]
          exact htold
      · by_cases heq : f = file
        · subst heq
          simp
        · simp only [Function.update_of_ne heq] at hf ⊢
          exact h.calm f hf
      · have hne : f ≠ file := fun heq => hf (heq ▸ hfile)
        simp only [Function.update_of_ne hne]
        exact h.closed f hf
      · have hne : f ≠ file := by
          have hlt := h.below file hfile
          simp only at hf
          omega
        simp only [Function.update_of_ne hne]
        exact h.fresh f hf
      · by_cases heq : f = file
        · subst heq
          simp [hph]
        · simp [heq]
      · by_cases heq : f = file
        · subst heq
          simp
        · simp [heq]

theorem Inv.wakeupClients (l : List ℕ) (h : Inv s) (leaving : Bool) :
    ∃ t, l.foldlM (FusePoll.wakeupClient leaving) s = some t ∧ Inv t ∧ Woke leaving s l t := by
  induction l generalizing s with
  | nil => exact ⟨s, rfl, h, rfl, rfl, by simp, by simp⟩
  | cons file l ih =>
      obtain ⟨t, hwake, hinv, hwoke⟩ := h.wakeupClient leaving file
      obtain ⟨u, hrest, hinv', hwoke'⟩ := ih hinv
      refine ⟨u, ?_, hinv', hwoke'.files.trans hwoke.files, hwoke'.gone.trans hwoke.gone,
        fun f => ?_, fun f => ?_⟩
      · rw [List.foldlM_cons, hwake, Option.bind_eq_bind, Option.bind_some]
        exact hrest
      · rw [hwoke'.woken, hwoke.woken, hwoke.ph]
        by_cases heq : f = file
        · simp [heq]
        · simp [heq]
      · rw [hwoke'.ph, hwoke.ph]
        by_cases heq : f = file
        · simp [heq]
        · simp [heq]

/-- Nobody waits any more after a wakeup, and further events wake up nobody. -/
theorem Inv.notify (evts : ℕ) (h : Inv s) :
    ∃ t, fsNotify evts s = some t ∧ Inv t ∧ t.gone = s.gone ∧ ∀ file ∈ s.files,
      t.woken file = s.woken file ++
        if 0 < evts ∧ (s.clients file).ph.isSome then [.pollin] else [] := by
  induction evts generalizing s with
  | zero => exact ⟨s, rfl, h, rfl, by simp⟩
  | succ evts ih =>
      obtain ⟨t, hwake, hinv, hwoke⟩ := h.wakeupClients s.files false
      obtain ⟨u, hrest, hinv', hgone, hwoken⟩ := ih hinv
      refine ⟨u, ?_, hinv', hgone.trans hwoke.gone, fun f hf => ?_⟩
      · rw [fsNotify, fsWakeupClients, hwake, Option.bind_eq_bind, Option.bind_some]
        exact hrest
      · rw [hwoken f (hwoke.files ▸ hf), hwoke.woken, hwoke.ph, if_pos hf]
        simp [hf]

theorem Inv.cleanup (h : Inv s) :
    ∃ t, s.fsWakeupClients true = some t ∧ Inv t ∧ ∀ file ∈ s.files,
      t.woken file = s.woken file ++
        if (s.clients file).ph.isSome then [.pollerr] else [] := by
  obtain ⟨t, hwake, hinv, hwoke⟩ := h.wakeupClients s.files true
  refine ⟨t, hwake, hinv, fun f hf => ?_⟩
  rw [hwoke.woken]
  simp [hf]

/-! ### Polls -/

/-- The handle that comes with a poll is new. -/
theorem Handles.created_new (h : Handles s) :
    s.created ∉ s.destroyed ∧ s.created ∉ s.dropped ∧
      ∀ file, (s.clients file).ph ≠ some s.created := by
  refine ⟨fun hmem => ?_, fun hmem => ?_, fun file hph => ?_⟩
  · exact Nat.lt_irrefl _ (h.created _ hmem)
  · exact Nat.lt_irrefl _ (h.leaked _ hmem).1
  · exact Nat.lt_irrefl _ (h.waiting file _ hph).1

/-- The new handle is destroyed at once, or dropped. -/
theorem Handles.discard (h : Handles s) {destroyed dropped : List ℕ}
    (hclients : ∀ f, (t.clients f).ph = (s.clients f).ph)
    (hdestroyed : t.destroyed = s.destroyed ++ destroyed)
    (hdropped : t.dropped = s.dropped ++ dropped)
    (hone : destroyed ++ dropped = [s.created]) (hnotified : t.notified = s.notified)
    (hcreated : t.created = s.created + 1) (hfiles : t.files = s.files) : Handles t := by
  obtain ⟨hnew, hnew', hnew''⟩ := h.created_new
  have hmem : ∀ ph, ph ∈ destroyed ∨ ph ∈ dropped ↔ ph = s.created := by
    intro ph
    rw [← List.mem_append, hone, List.mem_singleton]
  have hnodup : (destroyed ++ dropped).Nodup := by
    rw [hone]
    exact List.nodup_singleton _
  obtain ⟨hnodupD, -, hapart⟩ := List.nodup_append.mp hnodup
  refine ⟨?_, fun ph hph => ?_, fun ph hph => ?_, fun f ph hph => ?_, fun f g ph hf hg => ?_,
    fun ph hph => ?_, fun ph hph => ?_⟩
  · rw [hdestroyed, List.nodup_append]
    refine ⟨h.once, hnodupD, ?_⟩
    rintro ph hph other hother rfl
    rw [(hmem ph).mp (.inl hother)] at hph
    exact hnew hph
  · rw [hnotified] at hph
    rw [hdestroyed]
    exact List.mem_append_left _ (h.notified ph hph)
  · rw [hcreated] at hph
    simp only [hdestroyed, hdropped, hfiles, hclients, List.mem_append]
    by_cases heq : ph = s.created
    · rcases (hmem ph).mpr heq with hd | hd
      · exact .inl (.inr hd)
      · exact .inr (.inl (.inr hd))
    · rcases h.accounted ph (by omega) with hd | hd | hwait
      · exact .inl (.inl hd)
      · exact .inr (.inl (.inl hd))
      · exact .inr (.inr hwait)
  · rw [hclients] at hph
    obtain ⟨hlt, hnot, hkept⟩ := h.waiting f ph hph
    have hne : ph ≠ s.created := by omega
    rw [hcreated, hdestroyed, hdropped, List.mem_append, List.mem_append]
    refine ⟨by omega, not_or_intro hnot fun hd => hne ((hmem ph).mp (.inl hd)),
      not_or_intro hkept fun hd => hne ((hmem ph).mp (.inr hd))⟩
  · rw [hclients] at hf hg
    exact h.owner f g ph hf hg
  · rw [hdropped, List.mem_append] at hph
    rw [hcreated, hdestroyed, List.mem_append]
    rcases hph with hph | hph
    · obtain ⟨hlt, hnot⟩ := h.leaked ph hph
      have hne : ph ≠ s.created := by omega
      exact ⟨by omega, not_or_intro hnot fun hd => hne ((hmem ph).mp (.inl hd))⟩
    · have heq := (hmem ph).mp (.inr hph)
      refine ⟨by omega, not_or_intro (heq ▸ hnew) fun hd => ?_⟩
      exact hapart ph hd ph hph rfl
  · rw [hdestroyed, List.mem_append] at hph
    rw [hcreated]
    rcases hph with hph | hph
    · exact Nat.lt_succ_of_lt (h.created ph hph)
    · have heq := (hmem ph).mp (.inl hph)
      omega

/-- The client stores the new handle, over the one it has. -/
theorem Handles.store (h : Handles s) (hfile : file ∈ s.files) :
    Handles { s with
      created := s.created + 1
      dropped := s.dropped ++ (s.clients file).ph.toList
      clients := Function.update s.clients file { s.clients file with ph := some s.created } } := by
  obtain ⟨hnew, hnew', hnew''⟩ := h.created_new
  have hat : ∀ f ph, ((Function.update s.clients file
      { s.clients file with ph := some s.created }) f).ph = some ph ↔
        (f = file ∧ ph = s.created) ∨ (f ≠ file ∧ (s.clients f).ph = some ph) := by
    intro f ph
    by_cases heq : f = file
    · subst heq
      simp [eq_comm]
    · simp [heq]
  refine ⟨h.once, h.notified, fun ph hph => ?_, fun f ph hph => ?_, fun f g ph hf hg => ?_,
    fun ph hph => ?_, fun ph hph => Nat.lt_succ_of_lt (h.created ph hph)⟩
  · simp only [hat, List.mem_append, Option.mem_toList] at hph ⊢
    by_cases heq : ph = s.created
    · exact .inr (.inr ⟨file, hfile, .inl ⟨rfl, heq⟩⟩)
    · rcases h.accounted ph (by omega) with hd | hd | ⟨f, hf, hwait⟩
      · exact .inl hd
      · exact .inr (.inl (.inl hd))
      · by_cases hsame : f = file
        · exact .inr (.inl (.inr (hsame ▸ hwait)))
        · exact .inr (.inr ⟨f, hf, .inr ⟨hsame, hwait⟩⟩)
  · simp only [List.mem_append, Option.mem_toList]
    rcases (hat f ph).mp hph with ⟨-, rfl⟩ | ⟨hne, hph⟩
    · exact ⟨Nat.lt_succ_self _, hnew, not_or_intro hnew' (hnew'' file)⟩
    · obtain ⟨hlt, hnot, hkept⟩ := h.waiting f ph hph
      refine ⟨Nat.lt_succ_of_lt hlt, hnot, not_or_intro hkept fun hold => ?_⟩
      exact hne (h.owner f file ph hph hold)
  · rcases (hat f ph).mp hf with ⟨hf', hph⟩ | ⟨-, hf'⟩
    · rcases (hat g ph).mp hg with ⟨hg', -⟩ | ⟨-, hg'⟩
      · exact hf'.trans hg'.symm
      · exact absurd (hph ▸ hg') (hnew'' g)
    · rcases (hat g ph).mp hg with ⟨-, hph⟩ | ⟨-, hg'⟩
      · exact absurd (hph ▸ hf') (hnew'' f)
      · exact h.owner f g ph hf' hg'
  · simp only [List.mem_append, Option.mem_toList] at hph
    rcases hph with hph | hph
    · obtain ⟨hlt, hnot⟩ := h.leaked ph hph
      exact ⟨Nat.lt_succ_of_lt hlt, hnot⟩
    · obtain ⟨hlt, hnot, -⟩ := h.waiting file ph hph
      exact ⟨Nat.lt_succ_of_lt hlt, hnot⟩

theorem Inv.poll (h : Inv s) (ph : Bool) (hgone : file ∉ s.gone) :
    ∃ ret t, s.fsPoll file ph = some (ret, t) ∧ Inv t ∧ t.woken = s.woken := by
  cases ph with
  | false =>
      by_cases hfile : file ∈ s.files
      · exact ⟨0, s, by simp [fsPoll, hgone, hfile], h, rfl⟩
      · exact ⟨-ENOENT, s, by simp [fsPoll, hgone, hfile], h, rfl⟩
  | true =>
      by_cases hfile : file ∈ s.files
      · by_cases hevt : (s.clients file).inEvt = 0
        · have hpoll : s.fsPoll file true = some (0, { s with
              created := s.created + 1
              dropped := s.dropped ++ (s.clients file).ph.toList
              clients := Function.update s.clients file
                { s.clients file with ph := some s.created } }) := by
            simp [fsPoll, hgone, hfile, hevt, setClient]
          refine ⟨0, _, hpoll, ⟨⟨h.toHandles.store hfile, fun f hf => ?_⟩, fun f hf => ?_,
            fun f hf => ?_, h.nodup, h.below, h.fresh⟩, rfl⟩
          · have htold := h.told f hf
            by_cases heq : f = file
            · subst heq
              simpa [pending] using htold
            · simpa [heq] using htold
          · by_cases heq : f = file
            · subst heq
              simp [hevt] at hf
            · simp only [Function.update_of_ne heq] at hf ⊢
              exact h.calm f hf
          · have hne : f ≠ file := fun heq => hf (heq ▸ hfile)
            simp only [Function.update_of_ne hne]
            exact h.closed f hf
        · have hnew := h.created_new.1
          have hpoll : s.fsPoll file true = some (0, { s with
              created := s.created + 1
              destroyed := s.destroyed ++ [s.created]
              reported := Function.update s.reported file
                (s.reported file ++
                  [if (s.clients file).inEvt = 1 then Wake.pollin else .pollerr])
              clients := Function.update s.clients file
                { s.clients file with inEvt := 0 } }) := by
            simp [fsPoll, hgone, hfile, hevt, setClient, report, fusePollhandleDestroy, hnew]
          refine ⟨0, _, hpoll, ⟨⟨?_, fun f hf => ?_⟩, fun f hf => ?_, fun f hf => ?_, h.nodup,
            h.below, fun f hf => ?_⟩, rfl⟩
          · refine h.toHandles.discard (fun f => ?_) rfl (List.append_nil _).symm
              (List.append_nil _) rfl rfl rfl
            by_cases heq : f = file
            · subst heq
              simp
            · simp [heq]
          · have htold := h.told f hf
            by_cases heq : f = file
            · subst heq
              rw [pending, if_neg hevt] at htold
              simp [pending, htold]
            · simp only [Function.update_of_ne heq]
              exact htold
          · by_cases heq : f = file
            · subst heq
              simp at hf
            · simp only [Function.update_of_ne heq] at hf ⊢
              exact h.calm f hf
          · have hne : f ≠ file := fun heq => hf (heq ▸ hfile)
            simp only [Function.update_of_ne hne]
            exact h.closed f hf
          · have hne : f ≠ file := by
              have hlt := h.below file hfile
              simp only at hf
              omega
            simp only [Function.update_of_ne hne]
            exact h.fresh f hf
      · refine ⟨-ENOENT, { s with
          created := s.created + 1
          dropped := s.dropped ++ [s.created] }, by simp [fsPoll, hgone, hfile],
          { h with toKept := ⟨?_, h.told⟩ }, rfl⟩
        exact h.toHandles.discard (fun _ => rfl) (List.append_nil _).symm rfl rfl rfl rfl rfl

/-! ### Every call -/

theorem exec_keepsPolls (h : Inv s) (call : PollCall) (hcall : NotGone s call) :
    ∃ ret t, s.exec call = some (ret, t) ∧ KeepsPolls s call ret t ∧ Inv t := by
  have hsame : ∀ {t : FusePoll}, Inv t → t.woken = s.woken →
      t.Kept ∧ ∀ f ∈ s.files, t.woken f = s.woken f ++ [] := by
    intro t hinv hwoken
    exact ⟨hinv.toKept, fun f _ => by rw [hwoken, List.append_nil]⟩
  cases call with
  | fsOpen => exact ⟨_, _, rfl, hsame h.open rfl, h.open⟩
  | fsRelease file =>
      obtain ⟨ret, t, hrelease, hinv, hwoken⟩ := h.release hcall
      exact ⟨ret, t, hrelease, hsame hinv hwoken, hinv⟩
  | fsPoll file ph =>
      obtain ⟨ret, t, hpoll, hinv, hwoken⟩ := h.poll ph hcall
      exact ⟨ret, t, hpoll, hsame hinv hwoken, hinv⟩
  | fsNotify evts =>
      obtain ⟨t, hnotify, hinv, -, hwoken⟩ := h.notify evts
      exact ⟨0, t, by simp [exec, hnotify], ⟨hinv.toKept, hwoken⟩, hinv⟩
  | fsCleanup =>
      obtain ⟨t, hcleanup, hinv, hwoken⟩ := h.cleanup
      exact ⟨0, t, by simp [exec, hcleanup], ⟨hinv.toKept, hwoken⟩, hinv⟩
  | fsCtxStopped =>
      obtain ⟨t, hdtors, hinv, hwoken⟩ := Inv.clientDtors s.files h
      refine ⟨0, { t with files := [], gone := s.files ++ s.gone },
        by simp [exec, fsCtxStopped, hdtors], hsame ?_ hwoken, ?_⟩ <;>
      exact { hinv with }

end Invariant

end FusePoll

end Libmodule
