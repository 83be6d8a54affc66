import Libmodule.Kqueue

/-!
# Arming and disarming

Runs of `poll_set_new_evt` over many sources.  A ledger keeps for each source
what its additions have put in the set of the kernel, and which descriptors
they have opened.
-/

namespace Libmodule

open CallRun Kqueue

structure KqRun where
  kq : Kqueue
  added : ℕ → Finset KPair := fun _ => ∅
  opened : ℕ → Finset ℕ := fun _ => ∅

inductive KqCall where
  | add (env : KqEnv) (src : ℕ)
  | rm (env : KqEnv) (src : ℕ)

namespace KqRun

def exec (r : KqRun) : KqCall → Option (ℤ × KqRun)
  | .add env src =>
      let (ret, kq) := r.kq.pollSetNewEvt env src .add
      some (ret,
        { kq := kq
          added := Function.update r.added src (r.added src ∪ (kq.events \ r.kq.events))
          opened := Function.update r.opened src (r.opened src ∪ (kq.openFds \ r.kq.openFds)) })
  | .rm env src =>
      let (ret, kq) := r.kq.pollSetNewEvt env src .rm
      some (ret,
        { kq := kq
          added := Function.update r.added src ∅
          opened := Function.update r.opened src ∅ })

/-- A removal takes what the source has added out of the set, and closes what it has opened. -/
def Undoes (r : KqRun) (call : KqCall) (_ : ℤ) (r' : KqRun) : Prop :=
  match call with
  | .add _ _ => True
  | .rm _ src =>
      r'.kq.events = r.kq.events \ r.added src ∧ r'.kq.openFds = r.kq.openFds \ r.opened src

/-- A timer or a path has not been registered, and a path has not been opened; a pair that was
there before the source was armed is no longer there. -/
def Removable (r : KqRun) : KqCall → Prop
  | .add _ _ => True
  | .rm _ src =>
      match (r.kq.srcs src).type with
      | .tmr => r.added src = ∅
      | .path => r.added src = ∅ ∧ r.opened src = ∅
      | .ps | .fd | .sgn | .pid | .task | .thresh =>
          r.kq.ev src = true → r.added src = ∅ →
            ∀ p, fixedPair src (r.kq.srcs src) = some p → p ∉ r.kq.events

/-! ## The invariant -/

/-- Identifiers of timers are below the counter, and watched descriptors are open.  The ledger of
a source is empty without kqueue data, has pairs of that source, and for timers and paths what
is still there. -/
structure Inv (r : KqRun) : Prop where
  timers : ∀ p ∈ r.kq.events, p.filter = .timer → p.ident < r.kq.timerIds
  watched : ∀ p ∈ r.kq.events, p.filter.watchesFd = true → p.ident ∈ r.kq.openFds
  disarmed : ∀ src, r.kq.ev src = false → r.added src = ∅ ∧ r.opened src = ∅
  added : ∀ src, ∀ p ∈ r.added src, PairFor src (r.kq.srcs src) p
  held : ∀ src, fixedPair src (r.kq.srcs src) = none → r.added src ⊆ r.kq.events
  opened : ∀ src, r.opened src ⊆ r.kq.openFds
  paths : ∀ src, (r.kq.srcs src).type ≠ .path → r.opened src = ∅

/-- What an addition may do to the kernel and to the source `src`. -/
structure Grows (src : ℕ) (s s' : Kqueue) : Prop where
  srcs : s'.srcs = s.srcs
  events : s.events ⊆ s'.events
  openFds : s.openFds ⊆ s'.openFds
  timerIds : s.timerIds ≤ s'.timerIds
  pair : ∀ p ∈ s'.events, p ∉ s.events → PairFor src (s.srcs src) p ∧
    (p.filter = .timer → p.ident < s'.timerIds) ∧
    (p.filter.watchesFd = true → p.ident ∈ s'.openFds)
  path : (s.srcs src).type ≠ .path → s'.openFds = s.openFds
  ev : ∀ src', s'.ev src' = false → s.ev src' = false ∧ (src' = src → s' = s)

/-! ## Additions -/

section Add

variable {env : KqEnv} {s s₁ : Kqueue} {src : ℕ}

theorem Grows.refl (s : Kqueue) : Grows src s s :=
  ⟨rfl, subset_rfl, subset_rfl, le_rfl, fun _ hp hnew => absurd hp hnew, fun _ => rfl,
    fun _ hev => ⟨hev, fun _ => rfl⟩⟩

theorem grows_setEv : Grows src s (s.setEv src true) := by
  refine ⟨rfl, subset_rfl, subset_rfl, le_rfl, fun _ hp hnew => absurd hp hnew, fun _ => rfl, ?_⟩
  intro src' hev
  by_cases heq : src' = src
  · subst heq
    simp [setEv] at hev
  · exact ⟨by simpa [setEv, Function.update_of_ne heq] using hev, fun h => absurd h heq⟩

/-- The kernel takes the pair of a source or refuses it. -/
theorem Grows.kevent (h : Grows src s s₁) (hev : s₁.ev src = true) {p : KPair}
    (hpair : PairFor src (s.srcs src) p) (htimer : p.filter = .timer → p.ident < s₁.timerIds) :
    Grows src s (s₁.kevent env .add p).2 := by
  rw [Kqueue.kevent]
  split
  next htaken =>
    refine ⟨h.srcs, h.events.trans (Finset.subset_insert _ _), h.openFds, h.timerIds, ?_, h.path,
      ?_⟩
    · intro q hq hnew
      rcases Finset.mem_insert.mp hq with rfl | hq
      · exact ⟨hpair, htimer, htaken.2⟩
      · exact h.pair q hq hnew
    · intro src' hfalse
      refine ⟨(h.ev src' hfalse).1, ?_⟩
      rintro rfl
      rw [hev] at hfalse
      cases hfalse
  next => exact h

theorem grows_timer : Grows src s { s.setEv src true with timerIds := s.timerIds + 1 } := by
  have h := @grows_setEv s src
  refine ⟨rfl, h.events, h.openFds, Nat.le_succ _, fun _ hp hnew => absurd hp hnew, fun _ => rfl,
    fun src' hev => ⟨(h.ev src' hev).1, ?_⟩⟩
  rintro rfl
  simp [setEv] at hev

theorem grows_path (htype : (s.srcs src).type = .path) (fd : Option ℕ) {fds : Finset ℕ}
    (hfds : s.openFds ⊆ fds) :
    Grows src s { (s.setEv src true).setPathFd src fd with openFds := fds } := by
  have h := @grows_setEv s src
  refine ⟨rfl, h.events, hfds, le_rfl, fun _ hp hnew => absurd hp hnew,
    fun hne => absurd htype hne, fun src' hev => ⟨(h.ev src' hev).1, ?_⟩⟩
  rintro rfl
  simp [setEv, setPathFd] at hev

theorem pairFor_fixed {x : KqSrc} {p : KPair} (hne : x.type ≠ .tmr ∧ x.type ≠ .path)
    (hpair : fixedPair src x = some p) : PairFor src x p := by
  cases htype : x.type with
  | tmr => exact absurd htype hne.1
  | path => exact absurd htype hne.2
  | ps | fd | sgn | pid | task | thresh => simpa only [PairFor, htype] using hpair

/-- The pair of a source is neither on a timer nor on the descriptor of a path. -/
theorem fixedPair_filter {x : KqSrc} {p : KPair} (hpair : fixedPair src x = some p) :
    p.filter ≠ .timer ∧ p.filter ≠ .vnode := by
  cases htype : x.type with
  | tmr | path => simp [fixedPair, htype] at hpair
  | ps | fd | sgn | pid | task | thresh =>
      simp only [fixedPair, htype, Option.some.injEq] at hpair
      subst hpair
      exact ⟨by simp, by simp⟩

theorem pollSetNewEvt_add (env : KqEnv) (s : Kqueue) (src : ℕ) :
    Grows src s (s.pollSetNewEvt env src .add).2 := by
  rw [Kqueue.pollSetNewEvt]
  split
  next hrm => exact absurd hrm.2 (by decide)
  next =>
    split
    next => exact Grows.refl s
    next =>
      have hsets := evSet_sets env (s.setEv src true) src
      have hev : (s.setEv src true).ev src = true := by simp [setEv]
      generalize evSet env (s.setEv src true) src = out at hsets
      obtain ⟨pair, s₁⟩ := out
      cases hsets with
      | fixed htype hpair =>
          exact grows_setEv.kevent hev (pairFor_fixed htype hpair) fun htimer =>
            absurd htimer (fixedPair_filter hpair).1
      | timer htype =>
          have htmr : (s.srcs src).type = .tmr := htype
          have hfor : PairFor src (s.srcs src) ⟨s.timerIds, .timer⟩ := by simp [PairFor, htmr]
          exact grows_timer.kevent hev hfor fun _ => Nat.lt_succ_self _
      | unopened htype =>
          have hpath : (s.srcs src).type = .path := htype
          exact grows_path hpath none subset_rfl
      | @opened fd htype =>
          have hpath : (s.srcs src).type = .path := htype
          have hfor : PairFor src (s.srcs src) ⟨fd, .vnode⟩ := by simp [PairFor, hpath]
          exact (grows_path hpath (some fd) (Finset.subset_insert _ _)).kevent hev hfor
            fun htimer => nomatch htimer

end Add

theorem exec_add {env : KqEnv} {src : ℕ} {r r' : KqRun} {ret : ℤ}
    (hexec : r.exec (.add env src) = some (ret, r')) :
    r'.kq = (r.kq.pollSetNewEvt env src .add).2 ∧
      r'.added = Function.update r.added src (r.added src ∪ (r'.kq.events \ r.kq.events)) ∧
      r'.opened = Function.update r.opened src (r.opened src ∪ (r'.kq.openFds \ r.kq.openFds)) := by
  simp only [exec, Option.some.injEq, Prod.mk.injEq] at hexec
  obtain ⟨-, rfl⟩ := hexec
  exact ⟨rfl, rfl, rfl⟩

theorem Inv.add {env : KqEnv} {src : ℕ} {r r' : KqRun} (h : Inv r) {ret : ℤ}
    (hexec : r.exec (.add env src) = some (ret, r')) : Inv r' := by
  obtain ⟨hkq, hadded, hopened⟩ := exec_add hexec
  have hgrows : Grows src r.kq r'.kq := hkq ▸ pollSetNewEvt_add env r.kq src
  refine ⟨fun p hp htimer => ?_, fun p hp hfd => ?_, fun src' hev => ?_, fun src' p hp => ?_,
    fun src' hnone => ?_, fun src' => ?_, fun src' hne => ?_⟩
  · by_cases hold : p ∈ r.kq.events
    · exact (h.timers p hold htimer).trans_le hgrows.timerIds
    · exact (hgrows.pair p hp hold).2.1 htimer
  · by_cases hold : p ∈ r.kq.events
    · exact hgrows.openFds (h.watched p hold hfd)
    · exact (hgrows.pair p hp hold).2.2 hfd
  · obtain ⟨hfalse, hsame⟩ := hgrows.ev src' hev
    obtain ⟨hnoPair, hnoFd⟩ := h.disarmed src' hfalse
    rw [hadded, hopened]
    by_cases heq : src' = src
    · subst heq
      simp [hnoPair, hnoFd, hsame rfl]
    · simp [Function.update_of_ne heq, hnoPair, hnoFd]
  · rw [hgrows.srcs]
    rw [hadded] at hp
    by_cases heq : src' = src
    · subst heq
      rw [Function.update_self, Finset.mem_union, Finset.mem_sdiff] at hp
      rcases hp with hp | ⟨hp, hnew⟩
      · exact h.added src' p hp
      · exact (hgrows.pair p hp hnew).1
    · rw [Function.update_of_ne heq] at hp
      exact h.added src' p hp
  · rw [hgrows.srcs] at hnone
    have hold := (h.held src' hnone).trans hgrows.events
    rw [hadded]
    by_cases heq : src' = src
    · subst heq
      rw [Function.update_self]
      exact Finset.union_subset hold Finset.sdiff_subset
    · rw [Function.update_of_ne heq]
      exact hold
  · have hold := (h.opened src').trans hgrows.openFds
    rw [hopened]
    by_cases heq : src' = src
    · subst heq
      rw [Function.update_self]
      exact Finset.union_subset hold Finset.sdiff_subset
    · rw [Function.update_of_ne heq]
      exact hold
  · rw [hgrows.srcs] at hne
    have hold := h.paths src' hne
    rw [hopened]
    by_cases heq : src' = src
    · subst heq
      rw [Function.update_self, hold, hgrows.path hne, Finset.sdiff_self, Finset.union_empty]
    · rw [Function.update_of_ne heq]
      exact hold

/-! ## Removals -/

/-- The pair that a removal asks the kernel to delete, if the source has one that is fixed. -/
def gone (s : Kqueue) (src : ℕ) : Finset KPair :=
  if s.ev src then (fixedPair src (s.srcs src)).toFinset else ∅

/-- A removal deletes the pair of the source and leaves the open descriptors as they are. -/
structure Shrinks (src : ℕ) (s s' : Kqueue) : Prop where
  srcs : s'.srcs = s.srcs
  events : s'.events = s.events \ gone s src
  openFds : s'.openFds = s.openFds
  timerIds : s.timerIds ≤ s'.timerIds
  ev : ∀ src', src' ≠ src → s'.ev src' = s.ev src'

theorem kevent_rm_events (env : KqEnv) (s : Kqueue) (p : KPair) :
    (s.kevent env .rm p).2 = { s with events := s.events.erase p } := by
  rw [Kqueue.kevent]
  split
  next => rfl
  next habsent => rw [Finset.erase_eq_of_notMem habsent]

theorem pollSetNewEvt_rm (env : KqEnv) {r : KqRun} (h : Inv r) (src : ℕ) :
    Shrinks src r.kq (r.kq.pollSetNewEvt env src .rm).2 := by
  rw [Kqueue.pollSetNewEvt]
  cases hev : r.kq.ev src with
  | false =>
      rw [if_pos ⟨rfl, rfl⟩]
      exact ⟨rfl, by simp [gone, hev], rfl, le_rfl, fun _ _ => rfl⟩
  | true =>
      rw [if_neg (by simp), if_neg (by simp)]
      have hsets := evSet_sets env (r.kq.setEv src true) src
      generalize evSet env (r.kq.setEv src true) src = out at hsets
      obtain ⟨pair, s₁⟩ := out
      cases hsets with
      | @fixed p htype hpair =>
          have hpath : (r.kq.srcs src).type ≠ .path := htype.2
          have hfixed : fixedPair src (r.kq.srcs src) = some p := hpair
          refine ⟨?_, ?_, ?_, ?_, ?_⟩ <;>
            simp [kevent_rm_events, Kqueue.release, setEv, hpath, gone, hev, hfixed,
              Finset.sdiff_singleton_eq_erase]
          intro src' hne
          simp [Function.update_of_ne hne]
      | timer htype =>
          have htmr : (r.kq.srcs src).type = .tmr := htype
          have habsent : (⟨r.kq.timerIds, .timer⟩ : KPair) ∉ r.kq.events := fun hmem =>
            (h.timers _ hmem rfl).false
          refine ⟨?_, ?_, ?_, ?_, ?_⟩ <;>
            simp [kevent_rm_events, Kqueue.release, setEv, htmr, gone, hev, fixedPair,
              Finset.erase_eq_of_notMem habsent]
          intro src' hne
          simp [Function.update_of_ne hne]
      | unopened htype =>
          have hpath : (r.kq.srcs src).type = .path := htype
          refine ⟨rfl, ?_, rfl, le_rfl, fun src' hne => ?_⟩
          · simp [setEv, gone, hev, fixedPair, hpath]
          · simp [setEv, Function.update_of_ne hne]
      | @opened fd htype hopen hfresh =>
          have hpath : (r.kq.srcs src).type = .path := htype
          have hclosed : fd ∉ r.kq.openFds := hfresh
          have habsent : (⟨fd, .vnode⟩ : KPair) ∉ r.kq.events := fun hmem =>
            hclosed (h.watched _ hmem rfl)
          refine ⟨?_, ?_, ?_, ?_, ?_⟩ <;>
            simp [kevent_rm_events, Kqueue.release, setEv, setPathFd, hpath, gone, hev, fixedPair,
              Finset.erase_eq_of_notMem habsent, closeFd, Finset.erase_insert hclosed]
          · intro p hp hfd
            rintro rfl
            exact hclosed (h.watched p hp hfd)
          · intro src' hne
            simp [Function.update_of_ne hne]

theorem exec_rm {env : KqEnv} {src : ℕ} {r r' : KqRun} {ret : ℤ}
    (hexec : r.exec (.rm env src) = some (ret, r')) :
    r'.kq = (r.kq.pollSetNewEvt env src .rm).2 ∧ r'.added = Function.update r.added src ∅ ∧
      r'.opened = Function.update r.opened src ∅ := by
  simp only [exec, Option.some.injEq, Prod.mk.injEq] at hexec
  obtain ⟨-, rfl⟩ := hexec
  exact ⟨rfl, rfl, rfl⟩

theorem update_empty_subset {α : Type} {f : ℕ → Finset α} (src src' : ℕ) :
    Function.update f src ∅ src' ⊆ f src' := by
  by_cases heq : src' = src
  · subst heq
    simp
  · rw [Function.update_of_ne heq]

theorem Inv.rm {env : KqEnv} {src : ℕ} {r r' : KqRun} (h : Inv r) {ret : ℤ}
    (hexec : r.exec (.rm env src) = some (ret, r')) : Inv r' := by
  obtain ⟨hkq, hadded, hopened⟩ := exec_rm hexec
  have hshrinks : Shrinks src r.kq r'.kq := hkq ▸ pollSetNewEvt_rm env h src
  have hevents : r'.kq.events ⊆ r.kq.events := hshrinks.events ▸ Finset.sdiff_subset
  refine ⟨fun p hp htimer => (h.timers p (hevents hp) htimer).trans_le hshrinks.timerIds,
    fun p hp hfd => ?_, fun src' hev => ?_, fun src' p hp => ?_, fun src' hnone p hp => ?_,
    fun src' => ?_, fun src' hne => ?_⟩
  · rw [hshrinks.openFds]
    exact h.watched p (hevents hp) hfd
  · rw [hadded, hopened]
    by_cases heq : src' = src
    · subst heq
      simp
    · rw [hshrinks.ev src' heq] at hev
      simpa [Function.update_of_ne heq] using h.disarmed src' hev
  · rw [hadded] at hp
    rw [hshrinks.srcs]
    exact h.added src' p (update_empty_subset src src' hp)
  · rw [hshrinks.srcs] at hnone
    rw [hadded] at hp
    have hold := update_empty_subset src src' hp
    rw [hshrinks.events, Finset.mem_sdiff]
    refine ⟨h.held src' hnone hold, fun hgone => ?_⟩
    have hfor := h.added src' p hold
    rw [gone] at hgone
    split at hgone
    next =>
      have hfilter := fixedPair_filter (Option.mem_toFinset.mp hgone)
      cases htype : (r.kq.srcs src').type <;> simp [PairFor, fixedPair, htype] at hfor hnone
      · exact hfilter.1 hfor
      · exact hfilter.2 hfor
    next => simp at hgone
  · rw [hopened, hshrinks.openFds]
    exact (update_empty_subset src src').trans (h.opened src')
  · rw [hshrinks.srcs] at hne
    rw [hopened]
    exact Finset.subset_empty.mp ((update_empty_subset src src').trans (h.paths src' hne).subset)

/-! ## Which removals undo an addition -/

/-- The ledger of an armed source with a fixed pair has that pair or nothing. -/
theorem Inv.added_fixed {r : KqRun} (h : Inv r) {src : ℕ} {p : KPair}
    (hpair : fixedPair src (r.kq.srcs src) = some p) : r.added src ⊆ {p} := by
  intro q hq
  have hfor := h.added src q hq
  cases htype : (r.kq.srcs src).type <;> simp [PairFor, fixedPair, htype] at hfor hpair <;>
    simp [← hfor, ← hpair]

theorem sdiff_eq_self_iff_of_subset {α : Type} [DecidableEq α] {A B : Finset α} (hsub : A ⊆ B) :
    B = B \ A ↔ A = ∅ := by
  rw [eq_comm, Finset.sdiff_eq_self_iff_disjoint]
  constructor
  · intro hdisjoint
    exact Finset.disjoint_self_iff_empty A |>.mp (hdisjoint.symm.mono_right hsub)
  · rintro rfl
    exact Finset.disjoint_empty_right B

theorem undoes_rm_iff {env : KqEnv} {src : ℕ} {r r' : KqRun} (h : Inv r) {ret : ℤ}
    (hexec : r.exec (.rm env src) = some (ret, r')) :
    r.Undoes (.rm env src) ret r' ↔ r.Removable (.rm env src) := by
  obtain ⟨hkq, -, -⟩ := exec_rm hexec
  have hshrinks : Shrinks src r.kq r'.kq := hkq ▸ pollSetNewEvt_rm env h src
  have hopened : r.kq.openFds = r.kq.openFds \ r.opened src ↔ r.opened src = ∅ :=
    sdiff_eq_self_iff_of_subset (h.opened src)
  simp only [Undoes, hshrinks.events, hshrinks.openFds, hopened]
  cases hpair : fixedPair src (r.kq.srcs src) with
  | none =>
      have hgone : gone r.kq src = ∅ := by simp [gone, hpair]
      have hadded : r.kq.events = r.kq.events \ r.added src ↔ r.added src = ∅ :=
        sdiff_eq_self_iff_of_subset (h.held src hpair)
      rw [hgone, Finset.sdiff_empty, hadded]
      cases htype : (r.kq.srcs src).type with
      | ps | fd | sgn | pid | task | thresh => simp [fixedPair, htype] at hpair
      | path => simp [Removable, htype]
      | tmr =>
          have hnoFd : r.opened src = ∅ := h.paths src (by simp [htype])
          simp [Removable, htype, hnoFd]
  | some p =>
      have hnoFd : r.opened src = ∅ := h.paths src fun htype => by simp [fixedPair, htype] at hpair
      have hremovable : r.Removable (.rm env src) ↔
          (r.kq.ev src = true → r.added src = ∅ → p ∉ r.kq.events) := by
        cases htype : (r.kq.srcs src).type <;> simp [Removable, htype, hpair] <;>
          simp [fixedPair, htype] at hpair
      rw [hremovable, and_iff_left hnoFd, gone, hpair]
      cases hev : r.kq.ev src with
      | false => simp [(h.disarmed src hev).1]
      | true =>
          rcases Finset.subset_singleton_iff.mp (h.added_fixed hpair) with hempty | hone
          · simp [hempty]
          · simp [hone]

/-! ## Runs -/

/-- Nothing is armed. -/
def start (openFds : Finset ℕ) (srcs : ℕ → KqSrc) : KqRun where
  kq := { openFds := openFds, srcs := srcs }

theorem inv_start (openFds : Finset ℕ) (srcs : ℕ → KqSrc) : Inv (start openFds srcs) := by
  refine ⟨?_, ?_, ?_, ?_, ?_, ?_, ?_⟩ <;> simp [start]

/-- An addition and the removal that undoes it leave the set and the descriptors as they were. -/
theorem restored {env env' : KqEnv} {src : ℕ} {r r₁ r₂ : KqRun} {ret ret' : ℤ}
    (hempty : r.added src = ∅ ∧ r.opened src = ∅)
    (hadd : r.exec (.add env src) = some (ret, r₁))
    (hundoes : r₁.Undoes (.rm env' src) ret' r₂) :
    r₂.kq.events = r.kq.events ∧ r₂.kq.openFds = r.kq.openFds := by
  obtain ⟨hkq, hadded, hopened⟩ := exec_add hadd
  have hgrows : Grows src r.kq r₁.kq := hkq ▸ pollSetNewEvt_add env r.kq src
  obtain ⟨hevents, hfds⟩ := hundoes
  rw [hadded, Function.update_self, hempty.1, Finset.empty_union] at hevents
  rw [hopened, Function.update_self, hempty.2, Finset.empty_union] at hfds
  rw [hevents, hfds, Finset.sdiff_sdiff_eq_self hgrows.events,
    Finset.sdiff_sdiff_eq_self hgrows.openFds]
  exact ⟨rfl, rfl⟩

/-- In every run, each removal deletes what the additions of its source have put in the set, and
closes what they have opened, if and only if no removal is of a timer that was registered, of a
path that was opened or registered, or of a source whose pair was in the set before it was armed
and still is.  An addition and a removal that undoes it are then the identity. -/
theorem undoes_iff (openFds : Finset ℕ) (srcs : ℕ → KqSrc) (calls : List KqCall) :
    (Always exec Undoes (start openFds srcs) calls ↔
        Meets exec Removable (start openFds srcs) calls) ∧
      ∀ (env env' : KqEnv) (src : ℕ) (r r₁ r₂ : KqRun) (ret ret' : ℤ),
        r.added src = ∅ ∧ r.opened src = ∅ → r.exec (.add env src) = some (ret, r₁) →
        r₁.exec (.rm env' src) = some (ret', r₂) → r₁.Undoes (.rm env' src) ret' r₂ →
        r₂.kq.events = r.kq.events ∧ r₂.kq.openFds = r.kq.openFds := by
  refine ⟨always_iff_of_step Inv ?_ calls (inv_start openFds srcs),
    fun env env' src r r₁ r₂ ret ret' hempty hadd _ hundoes => restored hempty hadd hundoes⟩
  intro r call h
  cases call with
  | add env src => exact ⟨_, _, rfl, Iff.rfl, fun _ => h.add rfl⟩
  | rm env src => exact ⟨_, _, rfl, undoes_rm_iff h rfl, fun _ => h.rm rfl⟩

def granting : KqEnv := ⟨true, .lowest 8, true⟩

/-- Source 0 is a descriptor, source 1 a timer, source 2 a path. -/
def threeSrcs : ℕ → KqSrc
  | 0 => ⟨.fd, 0⟩
  | 1 => ⟨.tmr, 0⟩
  | _ => ⟨.path, 0⟩

theorem undoes_descriptor :
    Always exec Undoes (start {0} threeSrcs) [.add granting 0, .rm granting 0] := by
  refine (undoes_iff {0} threeSrcs _).1.mpr ⟨trivial, ?_, trivial⟩
  intro _ hempty
  revert hempty
  decide +kernel

/-- The timer stays in the set, and the first descriptor of the path stays open. -/
theorem not_undoes_timer :
    ¬ Always exec Undoes (start {0} threeSrcs) [.add granting 1, .rm granting 1] ∧
      ¬ Always exec Undoes (start {0} threeSrcs) [.add granting 2, .rm granting 2] := by
  refine ⟨fun h => ?_, fun h => ?_⟩
  · have hevents := h.2.1.1
    revert hevents
    decide +kernel
  · have hfds := h.2.1.2
    revert hfds
    decide +kernel

end KqRun
end Libmodule
