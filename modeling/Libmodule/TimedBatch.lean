import Libmodule.CallRun
import Libmodule.Errno
import Libmodule.OwnedOps
import Mathlib.Data.BitVec
import Mathlib.Logic.Function.Basic

/-!
# Batches by size and by time

`m_mod_set_batch_size`, `m_mod_set_batch_timeout` and what they work on in a
running module: the length of a batch, the timer of the batch among the timers
of the module, and the queue of `push_evt`.

A timeout without a size sets the length to `SIZE_MAX`, so that only the timer
hands events over.
-/

namespace Libmodule

open SearchTree CallRun

inductive SrcPrio where
  | low
  | norm
  | high
  deriving DecidableEq, Repr

/-- `ev_src_t` of a timer; `forBatch` tells whether its user pointer is `&mod->batch`, and `armed`
whether the poll plugin has it. -/
structure TmrSrc where
  ns : ℕ := 0
  forBatch : Bool := false
  prio : SrcPrio := .norm
  armed : Bool := false

/-- A running module.  `timers` is the tree of its timers, which are numbered; `size` is the batch
size that was set last, and `timed` tells whether the length is the one of timed batching. -/
structure BatchMod where
  len : ℕ := 0
  timerNs : ℕ := 0
  timers : NodeTree ℕ := .leaf
  srcs : ℕ → TmrSrc := fun _ => {}
  created : ℕ := 0
  events : List SrcPrio := []
  size : ℕ := 0
  timed : Bool := false

/-- What a registration gets from outside: a token, memory for the source and for its node, and
the error of the poll plugin, `0` if there is none. -/
structure TmrEnv where
  token : Bool
  src : Bool
  node : Bool
  poll : ℤ

inductive BatchCall where
  | setBatchSize (token : Bool) (len : ℕ)
  | setBatchTimeout (token : Bool) (env : TmrEnv) (timeoutNs : ℕ)
  | registerTmr (env : TmrEnv) (ns : ℕ) (prio : SrcPrio)
  | deregisterTmr (token : Bool) (ns : ℕ)
  | oneshot (its : ℕ)
  | elapse (tmr : ℕ)
  | push (prio : SrcPrio)
  | stop

namespace BatchMod

/-- The difference of two `uint64_t`, as an `int`. -/
def tmrcmp (its src : ℕ) : ℤ := (BitVec.ofInt 32 ((its : ℤ) - src)).toInt

def compareWith (s : BatchMod) (its : ℕ) (tmr : ℕ) : Option ℤ := some (tmrcmp its (s.srcs tmr).ns)

/-- The destructor of a source takes it from the poll plugin. -/
def srcDtor (s : BatchMod) : Option ℕ → BatchMod
  | none => s
  | some tmr => { s with srcs := Function.update s.srcs tmr { s.srcs tmr with armed := false } }

/-- `m_bst_remove` on the timers. -/
def bstRemove (s : BatchMod) (its : ℕ) : Option (ℤ × BatchMod) := do
  let (ret, t, gone) ← treeRemove (s.compareWith its) s.timers
  some (ret, { s.srcDtor gone with timers := t })

/-- `m_mod_src_deregister_tmr` -/
def deregisterTmr (s : BatchMod) (token : Bool) (ns : ℕ) : Option (ℤ × BatchMod) :=
  if ns = 0 then some (-EINVAL, s)
  else if token = false then some (-EAGAIN, s)
  else s.bstRemove ns

/-- `m_mod_src_register_tmr`.  A source that the poll plugin does not take stays registered. -/
def registerTmr (s : BatchMod) (env : TmrEnv) (ns : ℕ) (forBatch : Bool) (prio : SrcPrio) :
    Option (ℤ × BatchMod) :=
  if ns = 0 then some (-EINVAL, s)
  else if env.token = false then some (-EAGAIN, s)
  else if env.src = false then some (-EINVAL, s)
  else do
    let (ret, t) ← treeInsert (s.compareWith ns) s.created s.created s.timers
    if ret ≠ 0 then some (ret, s)
    else if env.node = false then some (-ENOMEM, s)
    else some (-env.poll, { s with
      timers := t
      srcs := Function.update s.srcs s.created ⟨ns, forBatch, prio, env.poll = 0⟩
      created := s.created + 1 })

def mModSetBatchSize (s : BatchMod) (token : Bool) (len : ℕ) : ℤ × BatchMod :=
  if token = false then (-EAGAIN, s)
  else (0, { s with len := len, size := len, timed := false })

/-- The old timer goes, if one was set. -/
def dropTimer (s : BatchMod) (token : Bool) : Option BatchMod :=
  if s.timerNs ≠ 0 then (s.deregisterTmr token s.timerNs).map Prod.snd else some s

def mModSetBatchTimeout (s : BatchMod) (token : Bool) (env : TmrEnv) (timeoutNs : ℕ) :
    Option (ℤ × BatchMod) := do
  let s ← s.dropTimer token
  let s := { s with timerNs := timeoutNs }
  if timeoutNs ≠ 0 then
    let s := if s.len = 0 then { s with len := SIZE_MAX, timed := true } else s
    s.registerTmr env timeoutNs true .high
  else some (0, s)

/-- `push_evt` of an event for the user; the callback gets all events of the queue. -/
def pushEvt (s : BatchMod) (prio : SrcPrio) : BatchMod :=
  let s := { s with events := s.events ++ [prio] }
  match prio with
  | .low => s
  | .norm => if s.events.length ≥ s.len then { s with events := [] } else s
  | .high => { s with events := [] }

/-- The event of a timer; that of the batch empties the queue. -/
def elapse (s : BatchMod) (tmr : ℕ) : BatchMod :=
  if tmr ∈ s.timers.values ∧ (s.srcs tmr).armed = true then
    if (s.srcs tmr).forBatch then { s with events := [] } else s.pushEvt (s.srcs tmr).prio
  else s

/-- The sources of the module are destroyed, and `reset_module` disables batching. -/
def stop (s : BatchMod) : BatchMod := { srcs := s.srcs, created := s.created }

/-- A oneshot timer is removed by whatever `tmrcmp` reads in its source. -/
def exec (s : BatchMod) : BatchCall → Option (ℤ × BatchMod)
  | .setBatchSize token len => some (s.mModSetBatchSize token len)
  | .setBatchTimeout token env timeoutNs => s.mModSetBatchTimeout token env timeoutNs
  | .registerTmr env ns prio => s.registerTmr env ns false prio
  | .deregisterTmr token ns => s.deregisterTmr token ns
  | .oneshot its => s.bstRemove its
  | .elapse tmr => some (0, s.elapse tmr)
  | .push prio => some (0, s.pushEvt prio)
  | .stop => some (0, s.stop)

/-! ## Triggers -/

/-- A timer for the batch is registered, and the poll plugin has it. -/
def HasTimer (s : BatchMod) : Prop :=
  ∃ tmr ∈ s.timers.values, (s.srcs tmr).forBatch = true ∧ (s.srcs tmr).armed = true

/-- After a call, the length of timed batching comes with a timer, and a normal event in the queue
has one if the length is not the size that was set.  Without a size, a timeout of `0` makes
the delivery immediate again. -/
structure Triggered (_ : BatchMod) (call : BatchCall) (_ : ℤ) (s' : BatchMod) : Prop where
  timer : s'.timed = true → s'.HasTimer
  queued : .norm ∈ s'.events → s'.HasTimer ∨ s'.len = s'.size
  restored : ∀ token env, call = .setBatchTimeout token env 0 → s'.size = 0 → s'.len = 0
  delivered : call = .push .norm → s'.len = 0 → s'.events = []

/-- Without the timer that is removed for `its`, there is still one for the batch. -/
def Leaves (s : BatchMod) (its : ℕ) : Prop :=
  ∀ ret t gone, treeRemove (s.compareWith its) s.timers = some (ret, t, gone) →
    ∃ tmr ∈ t.values, (s.srcs tmr).forBatch = true ∧ (s.srcs tmr).armed = true ∧ gone ≠ some tmr

/-- A registration goes through: nothing is missing, and no timer compares equal. -/
structure Registers (s : BatchMod) (env : TmrEnv) (ns : ℕ) : Prop where
  token : env.token = true
  src : env.src = true
  node : env.node = true
  poll : env.poll = 0
  new : ∃ t, treeInsert (s.compareWith ns) s.created s.created s.timers = some (0, t)

/-- No timeout of `0` with the length of timed batching, which is only set with a timer that is
there or registered, and whose timers are not all removed. -/
def Keeps (s : BatchMod) : BatchCall → Prop
  | .setBatchTimeout token env timeoutNs =>
      (timeoutNs = 0 → s.timed = false) ∧
        (timeoutNs ≠ 0 → s.timed = true ∨ s.len = 0 →
          ∀ s₁, s.dropTimer token = some s₁ → s₁.HasTimer ∨ s₁.Registers env timeoutNs)
  | .deregisterTmr token ns => s.timed = true → ns ≠ 0 → token = true → s.Leaves ns
  | .oneshot its => s.timed = true → s.Leaves its
  | _ => True

/-! ## What calls keep -/

/-- Timers have numbers below that of the next one, and the length is the size that was set, or
that of timed batching. -/
structure Core (s : BatchMod) : Prop where
  fresh : ∀ tmr ∈ s.timers.values, tmr < s.created
  timed : s.timed = true → s.size = 0 ∧ s.len = SIZE_MAX
  sized : s.timed = false → s.len = s.size

structure Inv (s : BatchMod) : Prop extends Core s where
  timer : s.timed = true → s.HasTimer

/-- Only timers change. -/
structure Quiet (s s' : BatchMod) : Prop where
  len : s'.len = s.len
  size : s'.size = s.size
  timed : s'.timed = s.timed
  events : s'.events = s.events

variable {s s' : BatchMod} {ns : ℕ} {token : Bool}

theorem quiet_refl (s : BatchMod) : Quiet s s := ⟨rfl, rfl, rfl, rfl⟩

theorem Core.quiet (h : Core s) (hquiet : Quiet s s')
    (hfresh : ∀ tmr ∈ s'.timers.values, tmr < s'.created) : Core s' := by
  refine ⟨hfresh, fun htimed => ?_, fun htimed => ?_⟩
  · rw [hquiet.size, hquiet.len]
    exact h.timed (hquiet.timed ▸ htimed)
  · rw [hquiet.size, hquiet.len]
    exact h.sized (hquiet.timed ▸ htimed)

theorem srcDtor_srcs (s : BatchMod) (gone : Option ℕ) (tmr : ℕ) :
    ((s.srcDtor gone).srcs tmr).forBatch = (s.srcs tmr).forBatch ∧
      (((s.srcDtor gone).srcs tmr).armed = true ↔
        (s.srcs tmr).armed = true ∧ gone ≠ some tmr) := by
  cases gone with
  | none => simp [srcDtor]
  | some dead =>
      by_cases heq : tmr = dead
      · subst heq
        simp [srcDtor]
      · have hne : dead ≠ tmr := fun h => heq h.symm
        simp [srcDtor, Function.update_of_ne heq, hne]

theorem Core.bstRemove (h : Core s) (its : ℕ) :
    ∃ ret s', s.bstRemove its = some (ret, s') ∧ Core s' ∧ Quiet s s' ∧
      (s'.HasTimer ↔ s.Leaves its) := by
  obtain ⟨ret, t, gone, hremove⟩ :=
    treeRemove_total (fun tmr => tmrcmp its (s.srcs tmr).ns) s.timers
  change treeRemove (s.compareWith its) s.timers = some (ret, t, gone) at hremove
  have hdtor : Quiet s (s.srcDtor gone) ∧ (s.srcDtor gone).created = s.created := by
    cases gone <;> exact ⟨⟨rfl, rfl, rfl, rfl⟩, rfl⟩
  have hquiet : Quiet s { s.srcDtor gone with timers := t } :=
    ⟨hdtor.1.len, hdtor.1.size, hdtor.1.timed, hdtor.1.events⟩
  refine ⟨ret, { s.srcDtor gone with timers := t }, by simp [BatchMod.bstRemove, hremove],
    h.quiet hquiet fun tmr htmr => ?_, hquiet, ?_⟩
  · simp only [hdtor.2]
    exact h.fresh tmr ((mem_treeRemove hremove).1 tmr htmr)
  · constructor
    · rintro ⟨tmr, htmr, hbatch, harmed⟩ ret' t' gone' hremove'
      rw [hremove] at hremove'
      cases hremove'
      obtain ⟨hsame, hiff⟩ := srcDtor_srcs s gone tmr
      exact ⟨tmr, htmr, hsame ▸ hbatch, (hiff.mp harmed).1, (hiff.mp harmed).2⟩
    · intro hleaves
      obtain ⟨tmr, htmr, hbatch, harmed, hgone⟩ := hleaves ret t gone hremove
      obtain ⟨hsame, hiff⟩ := srcDtor_srcs s gone tmr
      exact ⟨tmr, htmr, hsame.trans hbatch, hiff.mpr ⟨harmed, hgone⟩⟩

theorem Core.deregisterTmr (h : Core s) (token : Bool) (ns : ℕ) :
    ∃ ret s', s.deregisterTmr token ns = some (ret, s') ∧ Core s' ∧ Quiet s s' ∧
      (s'.HasTimer ↔ if ns ≠ 0 ∧ token = true then s.Leaves ns else s.HasTimer) := by
  by_cases hns : ns = 0
  · exact ⟨-EINVAL, s, by rw [BatchMod.deregisterTmr, if_pos hns], h, quiet_refl s, by simp [hns]⟩
  · cases token with
    | false =>
        exact ⟨-EAGAIN, s, by rw [BatchMod.deregisterTmr, if_neg hns, if_pos rfl], h, quiet_refl s,
          by simp⟩
    | true =>
        obtain ⟨ret, s', hremove, hcore, hquiet, hiff⟩ := h.bstRemove ns
        refine ⟨ret, s', ?_, hcore, hquiet, ?_⟩
        · rw [BatchMod.deregisterTmr, if_neg hns, if_neg (by decide), hremove]
        · rw [hiff, if_pos ⟨hns, rfl⟩]

theorem Core.registerTmr (h : Core s) (env : TmrEnv) (ns : ℕ) (forBatch : Bool) (prio : SrcPrio) :
    ∃ ret s', s.registerTmr env ns forBatch prio = some (ret, s') ∧ Core s' ∧ Quiet s s' ∧
      (s.HasTimer → s'.HasTimer) ∧
      (ns ≠ 0 → forBatch = true → s'.HasTimer → s.HasTimer ∨ s.Registers env ns) ∧
      (ns ≠ 0 → forBatch = true → s.Registers env ns → s'.HasTimer) := by
  have hrefused : ∀ ret, s.registerTmr env ns forBatch prio = some (ret, s) →
      (ns ≠ 0 → ¬ s.Registers env ns) →
      ∃ ret s', s.registerTmr env ns forBatch prio = some (ret, s') ∧ Core s' ∧ Quiet s s' ∧
        (s.HasTimer → s'.HasTimer) ∧
        (ns ≠ 0 → forBatch = true → s'.HasTimer → s.HasTimer ∨ s.Registers env ns) ∧
        (ns ≠ 0 → forBatch = true → s.Registers env ns → s'.HasTimer) :=
    fun ret hcall hnot => ⟨ret, s, hcall, h, quiet_refl s, id, fun _ _ => .inl,
      fun hne _ hregisters => absurd hregisters (hnot hne)⟩
  by_cases hns : ns = 0
  · exact hrefused (-EINVAL) (by rw [BatchMod.registerTmr, if_pos hns]) fun hne => absurd hns hne
  by_cases htoken : env.token = false
  · refine hrefused (-EAGAIN) (by rw [BatchMod.registerTmr, if_neg hns, if_pos htoken]) ?_
    exact fun _ hregisters => by simp [hregisters.token] at htoken
  by_cases hsrc : env.src = false
  · refine hrefused (-EINVAL)
      (by rw [BatchMod.registerTmr, if_neg hns, if_neg htoken, if_pos hsrc]) ?_
    exact fun _ hregisters => by simp [hregisters.src] at hsrc
  obtain ⟨ret, t, hinsert, hcases⟩ := treeInsert_total
    (fun tmr => tmrcmp ns (s.srcs tmr).ns) s.created s.created s.timers
  change treeInsert (s.compareWith ns) s.created s.created s.timers = some (ret, t) at hinsert
  rcases hcases with ⟨rfl, hvalues⟩ | ⟨rfl, rfl⟩
  · by_cases hnode : env.node = false
    · refine hrefused (-ENOMEM) ?_ ?_
      · rw [BatchMod.registerTmr, if_neg hns, if_neg htoken, if_neg hsrc, hinsert]
        simp [hnode]
      · exact fun _ hregisters => by simp [hregisters.node] at hnode
    · have hold : ∀ tmr ∈ s.timers.values, Function.update s.srcs s.created
          ⟨ns, forBatch, prio, decide (env.poll = 0)⟩ tmr = s.srcs tmr := by
        intro tmr htmr
        exact Function.update_of_ne (Nat.ne_of_lt (h.fresh tmr htmr)) _ _
      refine ⟨-env.poll, { s with
          timers := t
          srcs := Function.update s.srcs s.created ⟨ns, forBatch, prio, env.poll = 0⟩
          created := s.created + 1 }, ?_, h.quiet ⟨rfl, rfl, rfl, rfl⟩ fun tmr htmr => ?_,
        ⟨rfl, rfl, rfl, rfl⟩, ?_, ?_, ?_⟩
      · rw [BatchMod.registerTmr, if_neg hns, if_neg htoken, if_neg hsrc, hinsert]
        simp only [Option.bind_eq_bind, Option.bind_some, ne_eq, not_true_eq_false, if_false,
          if_neg hnode]
      · rcases (hvalues tmr).mp htmr with rfl | htmr
        · exact Nat.lt_succ_self _
        · exact Nat.lt_succ_of_lt (h.fresh tmr htmr)
      · rintro ⟨tmr, htmr, hbatch, harmed⟩
        refine ⟨tmr, (hvalues tmr).mpr (.inr htmr), ?_⟩
        simp only [hold tmr htmr]
        exact ⟨hbatch, harmed⟩
      · rintro - - ⟨tmr, htmr, hbatch, harmed⟩
        rcases (hvalues tmr).mp htmr with rfl | hmem
        · right
          simp only [Function.update_self, decide_eq_true_eq] at harmed
          exact ⟨by simpa using htoken, by simpa using hsrc, by simpa using hnode, harmed,
            t, hinsert⟩
        · left
          simp only [hold tmr hmem] at hbatch harmed
          exact ⟨tmr, hmem, hbatch, harmed⟩
      · rintro - rfl hregisters
        refine ⟨s.created, (hvalues _).mpr (.inl rfl), ?_⟩
        simp [hregisters.poll]
  · refine hrefused (-EEXIST) ?_ ?_
    · rw [BatchMod.registerTmr, if_neg hns, if_neg htoken, if_neg hsrc, hinsert]
      rfl
    · rintro - ⟨-, -, -, -, t', hnew⟩
      rw [hinsert] at hnew
      cases hnew

/-- A state with these lengths has triggers exactly if timed batching has its timer. -/
theorem Core.timer_iff (h : Core s') (call : BatchCall) (ret : ℤ)
    (hrestored : ∀ token env, call ≠ .setBatchTimeout token env 0)
    (hdelivered : call = .push .norm → s'.len = 0 → s'.events = []) :
    Triggered s call ret s' ↔ (s'.timed = true → s'.HasTimer) := by
  refine ⟨Triggered.timer, fun htimer => ⟨htimer, fun _ => ?_,
    fun token env hcall => absurd hcall (hrestored token env), hdelivered⟩⟩
  cases htimed : s'.timed with
  | true => exact .inl (htimer htimed)
  | false => exact .inr (h.sized htimed)

/-- A call that changes no length and no timer keeps the triggers. -/
theorem Inv.calm (h : Inv s) (call : BatchCall) (ret : ℤ) (hlen : s'.len = s.len)
    (hsize : s'.size = s.size) (htimed : s'.timed = s.timed) (htimers : s'.timers = s.timers)
    (hsrcs : s'.srcs = s.srcs) (hcreated : s'.created = s.created)
    (hrestored : ∀ token env, call ≠ .setBatchTimeout token env 0)
    (hdelivered : call = .push .norm → s'.len = 0 → s'.events = []) :
    Triggered s call ret s' ∧ Inv s' := by
  have htimer : s'.timed = true → s'.HasTimer := by
    rw [htimed, HasTimer, htimers, hsrcs]
    exact h.timer
  have hcore : Core s' := by
    refine ⟨?_, ?_, ?_⟩
    · rw [htimers, hcreated]
      exact h.fresh
    · rw [htimed, hsize, hlen]
      exact h.timed
    · rw [htimed, hsize, hlen]
      exact h.sized
  exact ⟨(hcore.timer_iff call ret hrestored hdelivered).mpr htimer, hcore, htimer⟩

theorem pushEvt_calm (s : BatchMod) (prio : SrcPrio) :
    ∃ events, s.pushEvt prio = { s with events := events } ∧
      (prio = .norm → s.len = 0 → events = []) := by
  cases prio with
  | low => exact ⟨_, rfl, by simp⟩
  | high => exact ⟨[], rfl, by simp⟩
  | norm =>
      by_cases hfull : (s.events ++ [SrcPrio.norm]).length ≥ s.len
      · exact ⟨[], if_pos hfull, fun _ _ => rfl⟩
      · exact ⟨_, if_neg hfull, fun _ hlen => absurd (hlen ▸ Nat.zero_le _) hfull⟩

theorem elapse_calm (s : BatchMod) (tmr : ℕ) :
    ∃ events, s.elapse tmr = { s with events := events } := by
  rw [BatchMod.elapse]
  split
  next =>
    split
    next => exact ⟨[], rfl⟩
    next =>
      obtain ⟨events, heq, -⟩ := pushEvt_calm s (s.srcs tmr).prio
      exact ⟨events, heq⟩
  next => exact ⟨s.events, rfl⟩

theorem Core.dropTimer (h : Core s) (token : Bool) :
    ∃ s', s.dropTimer token = some s' ∧ Core s' ∧ Quiet s s' := by
  by_cases hzero : s.timerNs ≠ 0
  · obtain ⟨ret, s', hcall, hcore, hquiet, -⟩ := h.deregisterTmr token s.timerNs
    exact ⟨s', by rw [BatchMod.dropTimer, if_pos hzero, hcall]; rfl, hcore, hquiet⟩
  · exact ⟨s, by rw [BatchMod.dropTimer, if_neg hzero], h, quiet_refl s⟩

/-- A timeout that is not `0` keeps the triggers exactly if there is a timer then. -/
theorem Core.setBatchTimeout (h : Core s) (token : Bool) (env : TmrEnv) (hns : ns ≠ 0) :
    ∃ ret s', s.mModSetBatchTimeout token env ns = some (ret, s') ∧ Core s' ∧
      (Triggered s (.setBatchTimeout token env ns) ret s' ↔
        s.Keeps (.setBatchTimeout token env ns)) := by
  obtain ⟨s₁, hdrop, hcore₁, hquiet₁⟩ := h.dropTimer token
  -- the length before the registration
  obtain ⟨s₂, hs₂⟩ : ∃ s₂, s₂ = if s₁.len = 0 then
      { s₁ with timerNs := ns, len := SIZE_MAX, timed := true } else { s₁ with timerNs := ns } :=
    ⟨_, rfl⟩
  have hlengths : Core s₂ ∧ (s₂.timed = true ↔ s.timed = true ∨ s.len = 0) := by
    rw [← hquiet₁.timed, ← hquiet₁.len, hs₂]
    split
    next hzero =>
      have hsize : s₁.size = 0 := by
        cases htimed : s₁.timed with
        | true => exact (hcore₁.timed htimed).1
        | false => rw [← hcore₁.sized htimed, hzero]
      exact ⟨⟨hcore₁.fresh, fun _ => ⟨hsize, rfl⟩, by simp⟩, iff_of_true rfl (.inr hzero)⟩
    next hne =>
      exact ⟨⟨hcore₁.fresh, hcore₁.timed, hcore₁.sized⟩, (or_iff_left hne).symm⟩
  have htimers : (s₂.HasTimer ↔ s₁.HasTimer) ∧ (s₂.Registers env ns ↔ s₁.Registers env ns) := by
    rw [hs₂]
    split <;>
      exact ⟨Iff.rfl, ⟨fun hreg => ⟨hreg.token, hreg.src, hreg.node, hreg.poll, hreg.new⟩,
        fun hreg => ⟨hreg.token, hreg.src, hreg.node, hreg.poll, hreg.new⟩⟩⟩
  obtain ⟨ret, s', hregister, hcore', hquiet', hkept, honly, hregisters⟩ :=
    hlengths.1.registerTmr env ns true .high
  refine ⟨ret, s', ?_, hcore', ?_⟩
  · rw [mModSetBatchTimeout, hdrop, Option.bind_eq_bind, Option.bind_some, if_pos hns,
      ← hregister, hs₂]
  · have hafter : s'.HasTimer ↔ s₁.HasTimer ∨ s₁.Registers env ns := by
      rw [← htimers.1, ← htimers.2]
      exact ⟨honly hns rfl, fun hor => hor.elim hkept (hregisters hns rfl)⟩
    rw [hcore'.timer_iff _ ret (by simp [hns]) (by simp),
      hquiet'.timed, hlengths.2, hafter]
    constructor
    · intro htrigger
      refine ⟨fun hzero => absurd hzero hns, fun _ hsentinel s₁' hdrop' => ?_⟩
      rw [hdrop] at hdrop'
      cases hdrop'
      exact htrigger hsentinel
    · exact fun hkeeps hsentinel => hkeeps.2 hns hsentinel s₁ hdrop

/-- A timeout of `0` makes delivery immediate again exactly if the length is not that of timed
batching. -/
theorem Core.setBatchTimeout_zero (h : Core s) (token : Bool) (env : TmrEnv) :
    ∃ ret s', s.mModSetBatchTimeout token env 0 = some (ret, s') ∧ Core s' ∧
      (Triggered s (.setBatchTimeout token env 0) ret s' ↔
        s.Keeps (.setBatchTimeout token env 0)) := by
  obtain ⟨s₁, hdrop, hcore₁, hquiet₁⟩ := h.dropTimer token
  have hcore : Core { s₁ with timerNs := 0 } := ⟨hcore₁.fresh, hcore₁.timed, hcore₁.sized⟩
  refine ⟨0, { s₁ with timerNs := 0 }, by simp [mModSetBatchTimeout, hdrop], hcore, ?_⟩
  have hkeeps : s.Keeps (.setBatchTimeout token env 0) ↔ s₁.timed = false := by
    rw [hquiet₁.timed]
    exact ⟨fun hkeeps => hkeeps.1 rfl, fun hfalse => ⟨fun _ => hfalse, fun hne => absurd rfl hne⟩⟩
  rw [hkeeps]
  constructor
  · intro htriggered
    by_contra htimed
    obtain ⟨hsize, hlen⟩ := hcore₁.timed (by simpa using htimed)
    have hzero : s₁.len = 0 := htriggered.restored token env rfl hsize
    rw [hlen] at hzero
    exact absurd hzero (by decide)
  · intro hfalse
    have hsized := hcore₁.sized hfalse
    refine ⟨fun htimed => ?_, fun _ => .inr hsized, fun _ _ _ hsize => hsized.trans hsize,
      by simp⟩
    have htrue : s₁.timed = true := htimed
    rw [hfalse] at htrue
    cases htrue

/-! ## Runs -/

theorem inv_empty : Inv {} := ⟨⟨by simp, by simp, fun _ => rfl⟩, by simp⟩

def granted : TmrEnv := ⟨true, true, true, 0⟩

end BatchMod
end Libmodule
