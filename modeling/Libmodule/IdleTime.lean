import Libmodule.SharedCell

/-!
# The idle time of a context

`recv_events` keeps the start of an idle interval in a variable of the function, which all
contexts share.  A context on its own thread goes through the steps of its loop; between any
two of them other contexts may take theirs, and the user's code may dispatch the context
again while an event is handled.
-/

namespace Libmodule.IdleTime

open Interleaving SharedCell

/-- A call of the loop of a context that is in progress. -/
inductive Phase where
  | waiting
  | handling
  | stopping
  deriving DecidableEq

/-- `ctx_stats_t`, whether the context is looping, and the calls in progress, the innermost
one first. -/
structure Stats where
  loopingStartTime : BitVec 64
  idleTime : BitVec 64
  recvMsgs : BitVec 64
  looping : Bool
  calls : List Phase
  deriving DecidableEq

/-- The steps of `loop_start`, `recv_events` and `loop_stop`, with the clock they read. -/
inductive Act where
  | loopStart (now : BitVec 64)
  | enter (now : BitVec 64)
  | wake (now : BitVec 64)
  | leave (recved : ℕ) (failed : Bool) (now : BitVec 64)
  | loopStop
  | clear
  deriving DecidableEq

/-- What a step does to the context, and to `last_time_called`. -/
def step : Stats × BitVec 64 → Act → Option (Stats × BitVec 64)
  | (x, last), .loopStart now =>
      if x.looping then none
      else some ({ x with looping := true, loopingStartTime := now }, last)
  | (x, last), .enter now =>
      if x.looping then
        some ({ x with calls := .waiting :: x.calls }, if x.recvMsgs = 0 then now else last)
      else none
  | (x, last), .wake now =>
      match x.calls with
      | .waiting :: calls =>
          some ({ x with idleTime := x.idleTime + (now - last), calls := .handling :: calls },
            last)
      | _ => none
  | (x, _), .leave recved failed now =>
      match x.calls with
      | .handling :: calls =>
          let received := if recved > 0 ∧ failed = false then BitVec.ofNat 64 recved else 0
          some ({ x with recvMsgs := x.recvMsgs + received, calls := calls }, now)
      | _ => none
  | (x, last), .loopStop =>
      some ({ x with looping := false, calls := .stopping :: x.calls }, last)
  | (x, last), .clear =>
      match x.calls with
      | .stopping :: calls =>
          some ({ x with loopingStartTime := 0, recvMsgs := 0, idleTime := 0, calls := calls },
            last)
      | _ => none

/-- The times that `m_ctx_stats` tells: `total_idle_time` and `total_looping_time`. -/
def mCtxStats (now : BitVec 64) (x : Stats) : Option (BitVec 64 × BitVec 64) :=
  if x.looping then some (x.idleTime, now - x.loopingStartTime) else none

def Act.clock : Act → Option (BitVec 64)
  | .loopStart now => some now
  | .enter now => some now
  | .wake now => some now
  | .leave _ _ now => some now
  | .loopStop => none
  | .clear => none

def fresh : Stats := ⟨0, 0, 0, false, []⟩

/-- Contexts that have not looped yet. -/
def start {ι : Type} (last : BitVec 64) : Parties ι Stats (BitVec 64) := ⟨fun _ => fresh, last⟩

/-! ## Alone and among others -/

/-- The step that ends an idle interval. -/
def Act.ends : Act → Prop
  | .wake _ => True
  | _ => False

/-- The calls that a user's code may make while an event is handled. -/
def Act.begins : Act → Prop
  | .enter _ => True
  | .loopStart _ => True
  | .loopStop => True
  | _ => False

section Contexts

variable {ι : Type} [DecidableEq ι] {i : ι} {last : BitVec 64} {events : List (ι × Act)}

/-- In every state reached the context has counted the idle time that it would have counted
without the other contexts. -/
def Independent (i : ι) (last : BitVec 64) (events : List (ι × Act)) : Prop :=
  ∀ before t, before <+: events → run (SharedCell.step step) (start last) before = some t →
    ∃ o, alone step i (start last) before = some o ∧ (t.party i).idleTime = o.1.idleTime

/-- The readings of the clock by the calls of a context. -/
def readings (i : ι) (events : List (ι × Act)) : List (BitVec 64) :=
  (eventsOf i events).filterMap Act.clock

/-- In every state reached the context has not been idle for longer than it has looped, at
any time from the last reading on. -/
def Bounded (i : ι) (last : BitVec 64) (events : List (ι × Act)) : Prop :=
  ∀ before t now r, before <+: events →
    run (SharedCell.step step) (start last) before = some t →
    (∀ reading ∈ readings i before, reading ≤ now) → mCtxStats now (t.party i) = some r →
    r.1 ≤ r.2

/-- No call of the loop of the context is made while another one is in progress. -/
def Outermost (i : ι) (last : BitVec 64) (events : List (ι × Act)) : Prop :=
  ∀ before e t, before ++ [(i, e)] <+: events → e.begins →
    run (SharedCell.step step) (start last) before = some t → (t.party i).calls = []

/-! ## The same as without the others -/

theorem step_congr (a : Stats) (c c' : BitVec 64) (e : Act) (he : ¬ e.ends) :
    (step (a, c) e).map Prod.fst = (step (a, c') e).map Prod.fst := by
  obtain ⟨loopingStartTime, idleTime, recvMsgs, looping, calls⟩ := a
  cases e with
  | wake now => exact absurd trivial he
  | loopStart now => cases looping <;> rfl
  | enter now => cases looping <;> rfl
  | leave recved failed now => rcases calls with _ | ⟨_ | _ | _, calls⟩ <;> rfl
  | loopStop => rfl
  | clear => rcases calls with _ | ⟨_ | _ | _, calls⟩ <;> rfl

/-- All but the idle time. -/
def Stats.rest (x : Stats) : Stats := { x with idleTime := 0 }

def restStep (a : Stats) (e : Act) : Option Stats := (step (a, 0) e).map (fun x => x.1.rest)

theorem step_rest (a : Stats) (c : BitVec 64) (e : Act) :
    (step (a, c) e).map (fun x => x.1.rest) = restStep a.rest e := by
  obtain ⟨loopingStartTime, idleTime, recvMsgs, looping, calls⟩ := a
  cases e with
  | loopStart now => cases looping <;> rfl
  | enter now => cases looping <;> rfl
  | wake now => rcases calls with _ | ⟨_ | _ | _, calls⟩ <;> rfl
  | leave recved failed now => rcases calls with _ | ⟨_ | _ | _, calls⟩ <;> rfl
  | loopStop => rfl
  | clear => rcases calls with _ | ⟨_ | _ | _, calls⟩ <;> rfl

theorem wake_eq_some {x y : Stats} {c c' now : BitVec 64}
    (h : step (x, c) (.wake now) = some (y, c')) :
    y.idleTime = x.idleTime + (now - c) ∧ c' = c := by
  simp only [step] at h
  split at h
  next =>
    cases h
    exact ⟨rfl, rfl⟩
  next => cases h

theorem run_prefix {before : List (ι × Act)} {s : Parties ι Stats (BitVec 64)}
    (hrun : run (SharedCell.step step) (start last) events = some s)
    (hbefore : before <+: events) :
    ∃ t, run (SharedCell.step step) (start last) before = some t := by
  obtain ⟨after, rfl⟩ := hbefore
  rw [run_append_events, Option.bind_eq_some_iff] at hrun
  obtain ⟨t, ht, -⟩ := hrun
  exact ⟨t, ht⟩

theorem independent_iff_undisturbed {s : Parties ι Stats (BitVec 64)}
    (hrun : run (SharedCell.step step) (start last) events = some s) :
    Independent i last events ↔ Undisturbed step Act.ends i (start last) events := by
  constructor
  · intro hind before e hbefore hends t o ht ho
    obtain ⟨t', ht'⟩ := run_prefix hrun hbefore
    cases e with
    | wake now =>
        obtain ⟨u, hu, hstep⟩ := run_concat.mp ht'
        cases hu.symm.trans ht
        obtain ⟨o₁, ho₁, hidle⟩ := hind before t ((List.prefix_append ..).trans hbefore) hu
        cases ho₁.symm.trans ho
        obtain ⟨o', ho', hidle'⟩ := hind _ t' hbefore ht'
        rw [alone, eventsOf_concat_self, run_concat] at ho'
        obtain ⟨o₂, ho₂, hstep'⟩ := ho'
        cases ho₂.symm.trans ho
        have hwake := (wake_eq_some (step_self hstep)).1
        have hwake' := (wake_eq_some hstep').1
        rw [hwake, hwake', hidle] at hidle'
        bv_omega
    | loopStart => cases hends
    | enter => cases hends
    | leave => cases hends
    | loopStop => cases hends
    | clear => cases hends
  · intro hund before t hbefore ht
    have hund' : Undisturbed step Act.ends i (start last) before :=
      fun before' e hbefore' => hund before' e (hbefore'.trans hbefore)
    obtain ⟨o, ho, hsame⟩ := hund'.agrees step_congr ht
    exact ⟨o, ho, by rw [hsame]⟩

/-! ## No more than the loop -/

/-- The idle time fits between the start of the loop and the time `t`. -/
def Stats.Fits (x : Stats) (t : BitVec 64) : Prop :=
  x.idleTime.toNat + x.loopingStartTime.toNat ≤ t.toNat

theorem Stats.Fits.mono {x : Stats} {t u : BitVec 64} (h : x.Fits t) (htu : t ≤ u) : x.Fits u :=
  Nat.le_trans h htu

/-- What holds at the time `t` of a context that has the variable for itself, when each of
its calls has ended before the next one is made. -/
def Timed (x : Stats) (last t : BitVec 64) : Prop :=
  match x.looping, x.calls with
  | false, [] => x.idleTime = 0 ∧ x.recvMsgs = 0
  | true, [] => x.Fits t ∧ (x.recvMsgs ≠ 0 → x.Fits last ∧ last ≤ t)
  | true, [.waiting] => x.Fits last ∧ last ≤ t
  | true, [.handling] => x.Fits t
  | false, [.stopping] => True
  | _, _ => False

theorem Timed.fits {x : Stats} {last t : BitVec 64} (h : Timed x last t)
    (hloop : x.looping = true) : x.Fits t := by
  unfold Timed at h
  split at h
  next hfalse _ => rw [hloop] at hfalse; cases hfalse
  next => exact h.1
  next => exact h.1.mono h.2
  next => exact h
  next hfalse _ => rw [hloop] at hfalse; cases hfalse
  next => cases h

theorem Timed.step {x y : Stats} {c c' t : BitVec 64} {e : Act} (h : Timed x c t)
    (hclock : ∀ now, e.clock = some now → t ≤ now) (hbegins : e.begins → x.calls = [])
    (hstep : step (x, c) e = some (y, c')) : Timed y c' (e.clock.getD t) := by
  obtain ⟨start, idle, recv, looping, calls⟩ := x
  cases e with
  | loopStart now =>
      obtain rfl : calls = [] := hbegins trivial
      cases looping with
      | true => cases hstep
      | false =>
          cases hstep
          obtain ⟨rfl, rfl⟩ := h
          refine ⟨?_, fun hne => absurd rfl hne⟩
          simp [Stats.Fits, Act.clock]
  | enter now =>
      obtain rfl : calls = [] := hbegins trivial
      cases looping with
      | false => cases hstep
      | true =>
          cases hstep
          have hnow := hclock now rfl
          obtain ⟨htotal, hinterval⟩ := h
          by_cases hrecv : recv = 0
          · simp only [Timed, hrecv, if_true]
            exact ⟨htotal.mono hnow, BitVec.le_refl now⟩
          · obtain ⟨hfits, hlast⟩ := hinterval hrecv
            simp only [Timed, hrecv, if_false]
            exact ⟨hfits, BitVec.le_trans hlast hnow⟩
  | wake now =>
      rcases calls with _ | ⟨_ | _ | _, calls⟩ <;> cases hstep
      rcases calls with _ | ⟨_, calls⟩ <;> cases looping <;> try cases h
      next hfits hlast =>
        have hnow := BitVec.le_trans hlast (hclock now rfl)
        simp only [Timed, Stats.Fits, Act.clock, Option.getD_some] at hfits ⊢
        bv_omega
  | leave recved failed now =>
      rcases calls with _ | ⟨_ | _ | _, calls⟩ <;> cases hstep
      rcases calls with _ | ⟨_, calls⟩ <;> cases looping <;> try cases h
      have hnow := hclock _ rfl
      exact ⟨h.mono hnow, fun _ => ⟨h.mono hnow, BitVec.le_refl _⟩⟩
  | loopStop =>
      obtain rfl : calls = [] := hbegins trivial
      cases hstep
      trivial
  | clear =>
      rcases calls with _ | ⟨_ | _ | _, calls⟩ <;> cases hstep
      rcases calls with _ | ⟨_, calls⟩ <;> cases looping <;> try cases h
      exact ⟨rfl, rfl⟩

/-- The last reading of the clock by the calls of a context. -/
def latest (i : ι) (events : List (ι × Act)) : BitVec 64 := (readings i events).getLast?.getD 0

theorem latest_le {now : BitVec 64} (h : ∀ reading ∈ readings i events, reading ≤ now) :
    latest i events ≤ now := by
  unfold latest
  cases hlast : (readings i events).getLast? with
  | none => exact Nat.zero_le now.toNat
  | some reading => exact h reading (List.mem_of_getLast? hlast)

theorem readings_concat_self {e : Act} :
    readings i (events ++ [(i, e)]) = readings i events ++ e.clock.toList := by
  rw [readings, eventsOf_concat_self, List.filterMap_append, readings]
  cases hclock : e.clock <;> simp [hclock]

theorem latest_concat_self {e : Act} :
    latest i (events ++ [(i, e)]) = e.clock.getD (latest i events) := by
  rw [latest, readings_concat_self]
  cases e.clock <;> simp [latest]

theorem timed_alone {s : Parties ι Stats (BitVec 64)}
    (hclock : (readings i events).Pairwise (· ≤ ·))
    (hund : Undisturbed step Act.ends i (start last) events) (hout : Outermost i last events)
    (hrun : run (SharedCell.step step) (start last) events = some s) :
    ∃ o, alone step i (start last) events = some o ∧ s.party i = o.1 ∧
      Timed o.1 o.2 (latest i events) := by
  induction events using List.reverseRecOn generalizing s with
  | nil =>
      cases hrun
      exact ⟨_, rfl, rfl, rfl, rfl⟩
  | append_singleton events e ih =>
      obtain ⟨u, hu, hstep⟩ := run_concat.mp hrun
      obtain ⟨j, e⟩ := e
      have hprefix : events <+: events ++ [(j, e)] := List.prefix_append ..
      have hund' : Undisturbed step Act.ends i (start last) events :=
        fun before e hbefore => hund before e (hbefore.trans hprefix)
      have hout' : Outermost i last events :=
        fun before e t hbefore => hout before e t (hbefore.trans hprefix)
      by_cases hji : j = i
      · subst hji
        rw [readings_concat_self, List.pairwise_append] at hclock
        obtain ⟨o, ho, hsame, htimed⟩ := ih hclock.1 hund' hout' hu
        obtain ⟨o', ho', hsame'⟩ := hund.agrees step_congr hrun
        refine ⟨o', ho', hsame', ?_⟩
        rw [alone, eventsOf_concat_self, run_concat] at ho'
        obtain ⟨o₁, ho₁, hown⟩ := ho'
        cases ho₁.symm.trans ho
        rw [latest_concat_self]
        apply htimed.step ?_ ?_ hown
        · intro now hnow
          exact latest_le (fun reading hreading => hclock.2.2 reading hreading now (by simp [hnow]))
        · intro hbegins
          rw [← hsame]
          exact hout events e u List.prefix_rfl hbegins hu
      · have hevents : readings i (events ++ [(j, e)]) = readings i events := by
          rw [readings, eventsOf_concat_ne hji, readings]
        rw [hevents] at hclock
        obtain ⟨o, ho, hsame, htimed⟩ := ih hclock hund' hout' hu
        refine ⟨o, ?_, (step_ne hji hstep).trans hsame, ?_⟩
        · rw [alone, eventsOf_concat_ne hji]
          exact ho
        · rw [latest, hevents]
          exact htimed

theorem bounded_of_undisturbed (hclock : (readings i events).Pairwise (· ≤ ·))
    (hund : Undisturbed step Act.ends i (start last) events) (hout : Outermost i last events) :
    Bounded i last events := by
  intro before t now r hbefore ht hnow hr
  have hreadings : readings i before <+: readings i events := by
    obtain ⟨after, rfl⟩ := hbefore
    simp [readings, eventsOf, List.filterMap_append]
  obtain ⟨o, -, hsame, htimed⟩ := timed_alone (hclock.sublist hreadings.sublist)
    (fun before' e hbefore' => hund before' e (hbefore'.trans hbefore))
    (fun before' e t hbefore' => hout before' e t (hbefore'.trans hbefore)) ht
  unfold mCtxStats at hr
  split at hr
  next hloop =>
    cases hr
    rw [hsame] at hloop ⊢
    have hfits : o.1.Fits now := (htimed.fits hloop).mono (latest_le hnow)
    simp only [Stats.Fits] at hfits
    bv_omega
  next => cases hr

/-- A context counts its own idle time just when, at the end of each of its waits, the shared
variable holds what its own calls have stored last.  Then its idle time stays within the time
it has looped, unless one of its calls is made from a callback of another. -/
theorem independent_iff {s : Parties ι Stats (BitVec 64)}
    (hclock : (readings i events).Pairwise (· ≤ ·))
    (hrun : run (SharedCell.step step) (start last) events = some s) :
    (Independent i last events ↔ Undisturbed step Act.ends i (start last) events) ∧
      (Undisturbed step Act.ends i (start last) events → Outermost i last events →
        Bounded i last events) :=
  ⟨independent_iff_undisturbed hrun, bounded_of_undisturbed hclock⟩

end Contexts

/-! ## Two contexts -/

/-- The first context waits while the second one enters its loop, after the first has read
the clock and before it looks at the variable. -/
def overlapping : List (Bool × Act) :=
  [(false, .loopStart 0), (false, .enter 10), (true, .loopStart 20), (true, .enter 101),
    (false, .wake 100)]

theorem independent_iff_overlapping :
    (Independent true 0 overlapping ↔ Undisturbed step Act.ends true (start 0) overlapping) ∧
      (Undisturbed step Act.ends true (start 0) overlapping → Outermost true 0 overlapping →
        Bounded true 0 overlapping) :=
  independent_iff (by decide) (Option.some_get (by decide)).symm

theorem not_independent_overlapping :
    ¬ ∀ (last : BitVec 64) (events : List (Bool × Act)) (s : Parties Bool Stats (BitVec 64)),
      (∀ i, (readings i events).Pairwise (· ≤ ·)) →
      run (SharedCell.step step) (start last) events = some s →
      ∀ i, Independent i last events ∧ Bounded i last events := by
  intro hall
  obtain ⟨s, hrun⟩ := Option.isSome_iff_exists.mp
    (show (run (SharedCell.step step) (start 0) overlapping).isSome by decide)
  obtain ⟨hind, -⟩ := hall 0 overlapping s (by decide) hrun false
  obtain ⟨o, ho, hidle⟩ := hind overlapping s List.prefix_rfl hrun
  have hshared : (run (SharedCell.step step) (start 0) overlapping).map
      (fun s => (s.party false).idleTime) = some (100 - 101) := by
    decide
  have halone : (alone step false (start 0) overlapping).map (fun o => o.1.idleTime) =
      some (100 - 10) := by
    decide
  rw [hrun, Option.map_some, Option.some.injEq, hidle] at hshared
  rw [ho, Option.map_some, Option.some.injEq, hshared] at halone
  revert halone
  decide

end Libmodule.IdleTime
