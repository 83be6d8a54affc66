import Libmodule.Registering
import Libmodule.Telling

/-!
# The sources of a module are armed

`manage_srcs` gives one source after the other to the poll plugin and starts the threads
of tasks.  It goes on after a source that fails, and its result is that of the last one.
-/

namespace Libmodule

open RefHeap SearchTree Reentrant

/-! ## One source -/

/-- The source `s` at `t` is given to the poll plugin, and a task is started: the result,
and the state after it. -/
def World.arm (w : World) (c t : ℕ) (s : EvSource) : ℤ × World :=
  let r := (pollSetNewEvt c t s .add w.sys).1
  let u := w.polled c t s
  if r = 0 ∧ s.type = .task then (u.sys.fault.1, { u with sys := u.sys.fault.2 }) else (r, u)

/-- The property of the attempt to arm each of the sources, in the state it is made in. -/
def EachArm (c : ℕ) (P : World → ℕ → EvSource → Prop) : List ℕ → World → Prop
  | [], _ => True
  | t :: ts, w => ∀ s, srcAt w.heap t = some s → P w t s ∧ EachArm c P ts (w.arm c t s).2

/-- The plugin watches the source, and the thread of a task is started. -/
def CanArm (c : ℕ) (w : World) (t : ℕ) (s : EvSource) : Prop := (w.arm c t s).1 = 0

/-- The plugin makes no descriptor for the source and watches none. -/
def TakesNothing (c : ℕ) (w : World) (t : ℕ) (s : EvSource) : Prop :=
  (pollSetNewEvt c t s .add w.sys).2.2.files = w.sys.files ∧
    (pollSetNewEvt c t s .add w.sys).2.2.epoll = w.sys.epoll

/-- The result of the last attempt, and the state after it. -/
def World.armAll (c : ℕ) : List ℕ → ℤ → World → Option (ℤ × World)
  | [], ret, w => some (ret, w)
  | t :: ts, _, w => do
      let s ← srcAt w.heap t
      armAll c ts (w.arm c t s).1 (w.arm c t s).2

/-- All sources of a module, in the order of `manage_srcs`. -/
def Mod.sources (x : Mod) : List ℕ := MSrcType.all.flatMap fun type => (x.srcs type).values

section Arm

variable {w v : World} {c t q : ℕ} {s s' : EvSource}

theorem World.arm_heap : (w.arm c t s).2.heap = (w.polled c t s).heap := by
  unfold World.arm
  dsimp only
  split <;> rfl

theorem modAt_arm (n : ℕ) : modAt (w.arm c t s).2.heap n = modAt w.heap n := by
  rw [World.arm_heap]
  exact modAt_polled

theorem ctxAt_arm (n : ℕ) : ctxAt (w.arm c t s).2.heap n = ctxAt w.heap n := by
  rw [World.arm_heap]
  exact ctxAt_modify_src _ _

theorem srcAt_arm_self (hs : srcAt w.heap t = some s) :
    srcAt (w.arm c t s).2.heap t = some (pollSetNewEvt c t s .add w.sys).2.1 := by
  rw [World.arm_heap, World.polled, srcAt_modify_src, hs]
  rfl

theorem srcAt_arm_ne (hq : q ≠ t) : srcAt (w.arm c t s).2.heap q = srcAt w.heap q := by
  rw [World.arm_heap, World.polled, srcAt, srcAt, val_modify, if_neg hq.symm]

theorem files_arm : (w.arm c t s).2.sys.files = (pollSetNewEvt c t s .add w.sys).2.2.files := by
  unfold World.arm
  dsimp only
  split
  next => rw [Sys.fault_eq]; rfl
  next => rfl

theorem epoll_arm : (w.arm c t s).2.sys.epoll = (pollSetNewEvt c t s .add w.sys).2.2.epoll := by
  unfold World.arm
  dsimp only
  split
  next => rw [Sys.fault_eq]; rfl
  next => rfl

/-- The plugin has accepted a source that can be armed. -/
theorem CanArm.polled (h : CanArm c w t s) : (pollSetNewEvt c t s .add w.sys).1 = 0 := by
  unfold CanArm World.arm at h
  by_cases hboth : (pollSetNewEvt c t s .add w.sys).1 = 0 ∧ s.type = .task
  · exact hboth.1
  · rw [if_neg hboth] at h
    exact h

end Arm

/-! ## The loop -/

/-- What `Q` says of the steps that arm a source. -/
def ArmSteps (Q : Step LibLang World → Prop) (c : ℕ) (w : World) (t : ℕ) (s : EvSource) : Prop :=
  Q ⟨.op (.pollSetNewEvt c t .add), w⟩ ∧
    ((pollSetNewEvt c t s .add w.sys).1 = 0 ∧ s.type = .task →
      Q ⟨.op .threadAdd, w.polled c t s⟩)

section Loop

variable {depth m c t : ℕ} {w v u : World} {s : EvSource} {x : Mod} {ret r : ℤ}
  {type : MSrcType} {ts ts' : List ℕ} {P : World → ℕ → EvSource → Prop}

/-- A round arms one source, by steps that are known. -/
theorem manageTree_cons
    (h : (manageTree m c type .add false (t :: ts) ret).Ends (handler depth) w r v) :
    ∃ s, srcAt w.heap t = some s ∧ (∃ y, ctxAt w.heap c = some y) ∧
      (manageTree m c type .add false ts (w.arm c t s).1).Ends (handler depth)
        (w.arm c t s).2 r v ∧
      ∀ Q, OfReads Q →
        ((manageTree m c type .add false (t :: ts) ret).Every (handler depth) Q w ↔
          ArmSteps Q c w t s ∧
            (manageTree m c type .add false ts (w.arm c t s).1).Every (handler depth) Q
              (w.arm c t s).2) := by
  rw [manageTree, if_neg (by rintro ⟨⟨⟩, -⟩), Prog.ends_bind] at h
  rw [manageTree, if_neg (by rintro ⟨⟨⟩, -⟩)]
  obtain ⟨answer, u, hpoll, h⟩ := h
  have hexec := act_ends.mp hpoll
  obtain ⟨s, y, hs, hy⟩ : ∃ s y, srcAt w.heap t = some s ∧ ctxAt w.heap c = some y := by
    obtain ⟨s, hs, hrest⟩ := Option.bind_eq_some_iff.mp hexec
    obtain ⟨y, hy, -⟩ := Option.bind_eq_some_iff.mp hrest
    exact ⟨s, y, hs, hy⟩
  obtain ⟨rfl, rfl⟩ := pollSetEvt_eq hs hexec
  have hat : srcAt (w.polled c t s).heap t = some (pollSetNewEvt c t s .add w.sys).2.1 := by
    rw [World.polled, srcAt_modify_src, hs]
    rfl
  obtain ⟨fd, hsame⟩ := (@polledAs_add c t s w.sys).same
  have htype : (pollSetNewEvt c t s .add w.sys).2.1.type = s.type := by rw [hsame]
  have hread : (derefSrc t).Ends (handler depth) (w.polled c t s)
      (pollSetNewEvt c t s .add w.sys).2.1 (w.polled c t s) := derefSrc_ends.mpr ⟨hat, rfl⟩
  rw [Prog.ends_bind] at h
  obtain ⟨_, _, hread', h⟩ := h
  obtain ⟨rfl, rfl⟩ := hread.unique hread'
  rw [htype] at h
  by_cases htask : (pollSetNewEvt c t s .add w.sys).1 = 0 ∧ s.type = .task
  · have hall := (⟨htask.1, htask.2, rfl⟩ : _ ∧ s.type = .task ∧ OpType.add = .add)
    have hthread : (act .threadAdd).Ends (handler depth) (w.polled c t s) (w.arm c t s).1
        (w.arm c t s).2 := by
      rw [act_ends, World.arm, if_pos htask]
      rfl
    rw [if_pos hall, Prog.ends_bind] at h
    obtain ⟨_, _, hthread', h⟩ := h
    obtain ⟨rfl, rfl⟩ := hthread.unique hthread'
    refine ⟨s, hs, ⟨y, hy⟩, h, fun Q hQ => ?_⟩
    rw [Prog.every_bind_of_ends hpoll, Prog.every_bind_of_ends hread, htype, if_pos hall,
      Prog.every_bind_of_ends hthread, act_every, act_every, ArmSteps]
    have hderef : (derefSrc t).Every (handler depth) Q (w.polled c t s) := hQ.derefSrc_every t
    tauto
  · have hnot : ¬ ((pollSetNewEvt c t s .add w.sys).1 = 0 ∧ s.type = .task ∧ OpType.add = .add) :=
      fun hall => htask ⟨hall.1, hall.2.1⟩
    have harm : w.arm c t s = ((pollSetNewEvt c t s .add w.sys).1, w.polled c t s) := by
      rw [World.arm, if_neg htask]
    rw [if_neg hnot] at h
    refine ⟨s, hs, ⟨y, hy⟩, by rw [harm]; exact h, fun Q hQ => ?_⟩
    rw [harm, Prog.every_bind_of_ends hpoll, Prog.every_bind_of_ends hread, htype, if_neg hnot,
      act_every, ArmSteps]
    have hderef : (derefSrc t).Every (handler depth) Q (w.polled c t s) := hQ.derefSrc_every t
    constructor
    · rintro ⟨hstep, -, hrest⟩
      exact ⟨⟨hstep, fun hboth => absurd hboth htask⟩, hrest⟩
    · rintro ⟨⟨hstep, -⟩, hrest⟩
      exact ⟨hstep, hderef, hrest⟩

/-- The loop over the sources of one tree. -/
theorem manageTree_ends
    (h : (manageTree m c type .add false ts ret).Ends (handler depth) w r v) :
    World.armAll c ts ret w = some (r, v) ∧ (ts ≠ [] → ∃ y, ctxAt w.heap c = some y) ∧
      ∀ Q, OfReads Q →
        ((manageTree m c type .add false ts ret).Every (handler depth) Q w ↔
          EachArm c (ArmSteps Q c) ts w) := by
  induction ts generalizing ret w with
  | nil =>
      obtain ⟨rfl, rfl⟩ := Prog.ends_pure.mp h
      exact ⟨rfl, fun hne => absurd rfl hne, fun Q _ => iff_of_true Prog.every_pure trivial⟩
  | cons t ts ih =>
      obtain ⟨s, hs, hy, hrest, hevery⟩ := manageTree_cons h
      obtain ⟨hall, -, heach⟩ := ih hrest
      refine ⟨by rw [World.armAll, hs]; exact hall, fun _ => hy, fun Q hQ => ?_⟩
      rw [hevery Q hQ, heach Q hQ, EachArm]
      constructor
      · rintro hboth s' hs'
        obtain rfl := Option.some.inj (hs.symm.trans hs')
        exact hboth
      · exact fun hboth => hboth s hs

theorem armAll_append (ts ts' : List ℕ) (ret : ℤ) (w : World) :
    World.armAll c (ts ++ ts') ret w =
      (World.armAll c ts ret w).bind (fun a => World.armAll c ts' a.1 a.2) := by
  induction ts generalizing ret w with
  | nil => rfl
  | cons t ts ih =>
      rw [List.cons_append, World.armAll, World.armAll]
      cases srcAt w.heap t with
      | none => rfl
      | some s => exact ih _ _

theorem eachArm_append (h : World.armAll c ts ret w = some (r, u)) :
    EachArm c P (ts ++ ts') w ↔ EachArm c P ts w ∧ EachArm c P ts' u := by
  induction ts generalizing ret w with
  | nil =>
      cases h
      exact (and_iff_right trivial).symm
  | cons t ts ih =>
      obtain ⟨s, hs, hrest⟩ := Option.bind_eq_some_iff.mp h
      have hsplit := ih hrest
      rw [List.cons_append, EachArm, EachArm]
      constructor
      · intro hall
        have hboth := hsplit.mp (hall s hs).2
        refine ⟨fun s' hs' => ?_, hboth.2⟩
        obtain rfl := Option.some.inj (hs.symm.trans hs')
        exact ⟨(hall _ hs).1, hboth.1⟩
      · rintro ⟨hfirst, hsecond⟩ s' hs'
        obtain rfl := Option.some.inj (hs.symm.trans hs')
        exact ⟨(hfirst _ hs).1, hsplit.mpr ⟨(hfirst _ hs).2, hsecond⟩⟩

theorem modAt_armAll (h : World.armAll c ts ret w = some (r, v)) (n : ℕ) :
    modAt v.heap n = modAt w.heap n := by
  induction ts generalizing ret w with
  | nil =>
      cases h
      rfl
  | cons t ts ih =>
      obtain ⟨s, hs, hrest⟩ := Option.bind_eq_some_iff.mp h
      rw [ih hrest, modAt_arm]

theorem ctxAt_armAll (h : World.armAll c ts ret w = some (r, v)) (n : ℕ) :
    ctxAt v.heap n = ctxAt w.heap n := by
  induction ts generalizing ret w with
  | nil =>
      cases h
      rfl
  | cons t ts ih =>
      obtain ⟨s, hs, hrest⟩ := Option.bind_eq_some_iff.mp h
      rw [ih hrest, ctxAt_arm]

/-- The loop over the trees, from the first of some types on. -/
theorem manageSrcs_ends {types : List MSrcType} (hx : modAt w.heap m = some x)
    (h : (manageSrcs m c .add false types ret).Ends (handler depth) w r v) :
    World.armAll c (types.flatMap fun type => (x.srcs type).values) ret w = some (r, v) ∧
      ((types.flatMap fun type => (x.srcs type).values) ≠ [] →
        ∃ y, ctxAt w.heap c = some y) ∧
      ∀ Q, OfReads Q →
        ((manageSrcs m c .add false types ret).Every (handler depth) Q w ↔
          EachArm c (ArmSteps Q c) (types.flatMap fun type => (x.srcs type).values) w) := by
  induction types generalizing ret w with
  | nil =>
      obtain ⟨rfl, rfl⟩ := Prog.ends_pure.mp h
      exact ⟨rfl, fun hne => absurd rfl hne, fun Q _ => iff_of_true Prog.every_pure trivial⟩
  | cons type types ih =>
      unfold manageSrcs at h
      rw [Prog.ends_bind] at h
      obtain ⟨_, _, hread, h⟩ := h
      obtain ⟨hx', rfl⟩ := derefMod_ends.mp hread
      obtain rfl := Option.some.inj (hx.symm.trans hx')
      rw [Prog.ends_bind] at h
      obtain ⟨r₁, u, htree, h⟩ := h
      obtain ⟨hall, hctx, heach⟩ := manageTree_ends htree
      obtain ⟨hall', hctx', heach'⟩ := ih ((modAt_armAll hall m).trans hx) h
      rw [List.flatMap_cons]
      refine ⟨by rw [armAll_append, hall]; exact hall', fun hne => ?_, fun Q hQ => ?_⟩
      · by_cases hnil : (x.srcs type).values = []
        · rw [hnil, List.nil_append] at hne
          obtain ⟨y, hy⟩ := hctx' hne
          exact ⟨y, by rw [← hy, ctxAt_armAll hall]⟩
        · exact hctx hnil
      rw [eachArm_append hall, ← heach Q hQ, ← heach' Q hQ, manageSrcs,
        Prog.every_bind_of_ends hread, Prog.every_bind_of_ends htree]
      exact and_iff_right (hQ.derefMod_every m)

end Loop

/-! ## What arming leaves -/

section Widened

variable {w v u : World} {c t q : ℕ} {s s' : EvSource} {ts : List ℕ} {ret r : ℤ}

/-- The state outside of the heap has only more open descriptors, and new watches of
open ones. -/
structure Widened (s s' : Sys) : Prop where
  files : ∃ made, s'.files = s.files ++ made ∧ ∀ file ∈ made, file = .other
  epoll : ∃ watched, s'.epoll = s.epoll ++ watched ∧
    ∀ watch ∈ watched, watch ∉ s.epoll ∧ s'.file (some watch.fd) ≠ .closed

theorem Widened.refl (s : Sys) : Widened s s :=
  ⟨⟨[], by simp, by simp⟩, ⟨[], by simp, by simp⟩⟩

/-- Open descriptors stay what they are. -/
theorem Widened.file {s s' : Sys} (h : Widened s s') {fd : Option ℕ} (hopen : s.file fd ≠ .closed) :
    s'.file fd = s.file fd := by
  obtain ⟨made, hfiles, -⟩ := h.files
  cases fd with
  | none => exact absurd rfl hopen
  | some n =>
      simp only [Sys.file, Option.bind_some] at hopen ⊢
      have hlt : n < s.files.length := by
        by_contra hge
        exact hopen (by rw [List.getElem?_eq_none (by omega), Option.getD_none])
      rw [hfiles, List.getElem?_append_left hlt]

/-- What is neither closed nor made by the plugin was there before. -/
theorem Widened.file_back {s s' : Sys} (h : Widened s s') {fd : Option ℕ} {file : File}
    (hfile : s'.file fd = file) (hclosed : file ≠ .closed) (hother : file ≠ .other) :
    s.file fd = file := by
  by_cases hopen : s.file fd = .closed
  · obtain ⟨made, hfiles, hmade⟩ := h.files
    cases fd with
    | none => exact absurd hfile.symm hclosed
    | some n =>
        simp only [Sys.file, Option.bind_some, hfiles] at hfile hopen
        by_cases hlt : n < s.files.length
        · rw [List.getElem?_append_left hlt, hopen] at hfile
          exact absurd hfile.symm hclosed
        · rw [List.getElem?_append_right (Nat.le_of_not_lt hlt)] at hfile
          cases hget : made[n - s.files.length]? with
          | none =>
              rw [hget] at hfile
              exact absurd hfile.symm hclosed
          | some f =>
              rw [hget, Option.getD_some] at hfile
              exact absurd (hfile.symm.trans (hmade f (List.mem_of_getElem? hget))) hother
  · exact (h.file hopen).symm.trans hfile

theorem Widened.trans {s s₁ s₂ : Sys} (h : Widened s s₁) (h' : Widened s₁ s₂) : Widened s s₂ := by
  obtain ⟨made, hfiles, hopen⟩ := h.files
  obtain ⟨made', hfiles', hopen'⟩ := h'.files
  obtain ⟨watched, hepoll, hnew⟩ := h.epoll
  obtain ⟨watched', hepoll', hnew'⟩ := h'.epoll
  refine ⟨⟨made ++ made', by rw [hfiles', hfiles, List.append_assoc], ?_⟩,
    ⟨watched ++ watched', by rw [hepoll', hepoll, List.append_assoc], ?_⟩⟩
  · intro file hfile
    exact (List.mem_append.mp hfile).elim (hopen file) (hopen' file)
  · intro watch hwatch
    rcases List.mem_append.mp hwatch with hwatch | hwatch
    · have hfile := (hnew watch hwatch).2
      exact ⟨(hnew watch hwatch).1, by rw [h'.file hfile]; exact hfile⟩
    · refine ⟨fun hold => (hnew' watch hwatch).1 ?_, (hnew' watch hwatch).2⟩
      rw [hepoll]
      exact List.mem_append_left _ hold

theorem Widened.of_same {s s' : Sys} (hfiles : s'.files = s.files) (hepoll : s'.epoll = s.epoll) :
    Widened s s' :=
  ⟨⟨[], by rw [hfiles, List.append_nil], by simp⟩, ⟨[], by rw [hepoll, List.append_nil], by simp⟩⟩

theorem widened_createPrivFd (s : Sys) : Widened s s.createPrivFd.2 := by
  rw [Sys.createPrivFd, Sys.fault_eq]
  dsimp only
  split
  next => exact .of_same rfl rfl
  next => exact ⟨⟨[.other], rfl, by simp⟩, ⟨[], by simp, by simp⟩⟩

theorem widened_epollAdd (s : Sys) (c : ℕ) (fd : Option ℕ) (p : ℕ) :
    Widened s (s.epollAdd c fd p).2 := by
  simp only [Sys.epollAdd, Sys.fault_eq]
  split
  next => exact .of_same rfl rfl
  next => exact .of_same rfl rfl
  next n hopen =>
    split
    next => exact .of_same rfl rfl
    next hany =>
      split
      next => exact .of_same rfl rfl
      next =>
        refine ⟨⟨[], by simp, by simp⟩, ⟨[⟨c, n, p⟩], rfl, fun watch hwatch => ?_⟩⟩
        rw [List.mem_singleton.mp hwatch]
        exact ⟨fun hold => hany (List.any_eq_true.mpr ⟨_, hold, by simp⟩), hopen⟩

theorem widened_pollSetNewEvt (c p : ℕ) (src : EvSource) (s : Sys) :
    Widened s (pollSetNewEvt c p src .add s).2.2 := by
  have hcleared : Widened s { s with errno := 0 } := .of_same rfl rfl
  unfold pollSetNewEvt
  rw [if_neg (by rintro ⟨-, ⟨⟩⟩)]
  dsimp only
  split
  next => exact (hcleared.trans (widened_createPrivFd _)).trans (widened_epollAdd _ _ _ _)
  next => exact hcleared.trans (widened_epollAdd _ _ _ _)

theorem widened_arm : Widened w.sys (w.arm c t s).2.sys :=
  (widened_pollSetNewEvt c t s w.sys).trans (.of_same files_arm epoll_arm)

theorem widened_armAll (h : World.armAll c ts ret w = some (r, v)) : Widened w.sys v.sys := by
  induction ts generalizing ret w with
  | nil =>
      cases h
      exact .refl _
  | cons t ts ih =>
      obtain ⟨s, hs, hrest⟩ := Option.bind_eq_some_iff.mp h
      exact widened_arm.trans (ih hrest)

/-- The descriptors and the watches are the same when none is seen that was not there;
watches of closed descriptors do not count. -/
theorem Widened.same_iff {s s' : Sys} {old : List Watch} (h : Widened s s')
    (hold : ∀ watch ∈ s.epoll, watch ∈ old)
    (hclosed : ∀ watch ∈ old, watch ∉ s.epoll → s.file (some watch.fd) = .closed) :
    ((∀ fd, s'.file fd = s.file fd) ∧ ∀ watch ∈ s'.epoll, watch ∈ old) ↔
      s'.files = s.files ∧ s'.epoll = s.epoll := by
  constructor
  · rintro ⟨hfile, hwatch⟩
    obtain ⟨made, hfiles, hopen⟩ := h.files
    obtain ⟨watched, hepoll, hnew⟩ := h.epoll
    have hmade : made = [] := by
      cases made with
      | nil => rfl
      | cons file made =>
          have hsame := hfile (some s.files.length)
          simp only [Sys.file, Option.bind_some, hfiles] at hsame
          rw [List.getElem?_append_right (le_refl _), Nat.sub_self,
            List.getElem?_eq_none (le_refl _)] at hsame
          have hother : file = .closed := hsame
          cases hother.symm.trans (hopen file List.mem_cons_self)
    have hwatched : watched = [] := by
      cases watched with
      | nil => rfl
      | cons watch watched =>
          obtain ⟨hnot, hfileopen⟩ := hnew watch List.mem_cons_self
          have hmem : watch ∈ old := by
            apply hwatch
            rw [hepoll]
            exact List.mem_append_right _ List.mem_cons_self
          rw [hfile] at hfileopen
          exact absurd (hclosed watch hmem hnot) hfileopen
    rw [hfiles, hepoll, hmade, hwatched, List.append_nil, List.append_nil]
    exact ⟨rfl, rfl⟩
  · rintro ⟨hfiles, hepoll⟩
    refine ⟨fun fd => ?_, fun watch hwatch => hold watch (by rwa [hepoll] at hwatch)⟩
    rw [Sys.file, Sys.file, hfiles]

theorem Widened.between {s s₁ s₂ : Sys} (h : Widened s s₁) (h' : Widened s₁ s₂)
    (hfiles : s₂.files = s.files) (hepoll : s₂.epoll = s.epoll) :
    s₁.files = s.files ∧ s₁.epoll = s.epoll := by
  have hlast : ∀ {α : Type} (l made made' : List α), l ++ made ++ made' = l → l ++ made = l := by
    intro α l made made' hsame
    have hempty : made = [] ∧ made' = [] := by simpa using hsame
    rw [hempty.1, List.append_nil]
  obtain ⟨made, hmade, -⟩ := h.files
  obtain ⟨made', hmade', -⟩ := h'.files
  obtain ⟨watched, hwatched, -⟩ := h.epoll
  obtain ⟨watched', hwatched', -⟩ := h'.epoll
  rw [hmade', hmade] at hfiles
  rw [hwatched', hwatched] at hepoll
  exact ⟨hmade.trans (hlast _ _ _ hfiles), hwatched.trans (hlast _ _ _ hepoll)⟩

/-- Nothing is left just when no attempt takes anything. -/
theorem takesNothing_iff (h : World.armAll c ts ret w = some (r, v)) :
    EachArm c (TakesNothing c) ts w ↔ v.sys.files = w.sys.files ∧ v.sys.epoll = w.sys.epoll := by
  induction ts generalizing ret w with
  | nil =>
      cases h
      exact iff_of_true trivial ⟨rfl, rfl⟩
  | cons t ts ih =>
      obtain ⟨s, hs, hrest⟩ := Option.bind_eq_some_iff.mp h
      have hstep : TakesNothing c w t s ↔
          (w.arm c t s).2.sys.files = w.sys.files ∧ (w.arm c t s).2.sys.epoll = w.sys.epoll := by
        rw [TakesNothing, files_arm, epoll_arm]
      constructor
      · intro hall
        obtain ⟨htakes, hothers⟩ := hall s hs
        obtain ⟨hfiles, hepoll⟩ := hstep.mp htakes
        obtain ⟨hfiles', hepoll'⟩ := (ih hrest).mp hothers
        exact ⟨hfiles'.trans hfiles, hepoll'.trans hepoll⟩
      · rintro ⟨hfiles, hepoll⟩ s' hs'
        obtain rfl := Option.some.inj (hs.symm.trans hs')
        have hmiddle := widened_arm.between (widened_armAll hrest) hfiles hepoll
        refine ⟨hstep.mpr hmiddle, (ih hrest).mpr ⟨?_, ?_⟩⟩
        · rw [hfiles, hmiddle.1]
        · rw [hepoll, hmiddle.2]

end Widened

/-! ## Sources that are armed -/

section Armed

variable {w v : World} {c t q : ℕ} {s : EvSource} {ts : List ℕ} {ret r : ℤ}

theorem armed_arm (hs : srcAt w.heap t = some s) (hcan : CanArm c w t s) :
    Armed (w.arm c t s).2 c t := by
  obtain ⟨⟨s', fd, hat, hev, hfd, hwatch⟩, -⟩ := armed_polled hs hcan.polled
  refine ⟨s', fd, ?_, hev, hfd, hwatch.imp_left fun hmem => ?_⟩
  · rw [World.arm_heap]
    exact hat
  · rw [epoll_arm]
    exact hmem

theorem Armed.arm (h : Armed w c q) (hs : srcAt w.heap t = some s) (hcan : CanArm c w t s) :
    Armed (w.arm c t s).2 c q := by
  by_cases hq : q = t
  · rw [hq]
    exact armed_arm hs hcan
  · obtain ⟨s', fd, hat, hev, hfd, hwatch⟩ := h
    refine ⟨s', fd, ?_, hev, hfd, hwatch.imp_left fun hmem => ?_⟩
    · rw [srcAt_arm_ne hq]
      exact hat
    · obtain ⟨watched, hepoll, -⟩ := (@widened_arm w c t s).epoll
      rw [hepoll]
      exact List.mem_append_left _ hmem

theorem Armed.armAll (h : Armed w c q) (hall : World.armAll c ts ret w = some (r, v))
    (hcan : EachArm c (CanArm c) ts w) : Armed v c q := by
  induction ts generalizing ret w with
  | nil =>
      cases hall
      exact h
  | cons t ts ih =>
      obtain ⟨s, hs, hrest⟩ := Option.bind_eq_some_iff.mp hall
      exact ih (h.arm hs (hcan s hs).1) hrest (hcan s hs).2

/-- When each source can be armed, all of them are in the end. -/
theorem armed_armAll (hall : World.armAll c ts ret w = some (r, v))
    (hcan : EachArm c (CanArm c) ts w) (hq : q ∈ ts) : Armed v c q := by
  induction ts generalizing ret w with
  | nil => cases hq
  | cons t ts ih =>
      obtain ⟨s, hs, hrest⟩ := Option.bind_eq_some_iff.mp hall
      rcases List.mem_cons.mp hq with rfl | hq
      · exact (armed_arm hs (hcan s hs).1).armAll hrest (hcan s hs).2
      · exact ih hrest (hcan s hs).2 hq

/-- When each source can be armed, the result is 0, if it was before. -/
theorem armAll_eq_zero (hall : World.armAll c ts 0 w = some (r, v))
    (hcan : EachArm c (CanArm c) ts w) : r = 0 := by
  induction ts generalizing w with
  | nil =>
      cases hall
      rfl
  | cons t ts ih =>
      obtain ⟨s, hs, hrest⟩ := Option.bind_eq_some_iff.mp hall
      have hzero : (w.arm c t s).1 = 0 := (hcan s hs).1
      rw [hzero] at hrest
      exact ih hrest (hcan s hs).2

theorem pollSetNewEvt_kept {sys : Sys} (hpriv : s.type.privFd = false) :
    (pollSetNewEvt c q s .add sys).2.1 = { s with ev := true } := by
  unfold pollSetNewEvt
  rw [if_neg (by rintro ⟨-, ⟨⟩⟩)]
  simp only [hpriv, Bool.false_eq_true, if_false]

/-- A source keeps its type, and its descriptor if the plugin does not make it. -/
theorem srcAt_armAll (hall : World.armAll c ts ret w = some (r, v)) (hs : srcAt w.heap q = some s)
    (hpriv : s.type.privFd = false) :
    ∃ s', srcAt v.heap q = some s' ∧ s'.type = s.type ∧ s'.fd = s.fd := by
  induction ts generalizing ret w s with
  | nil =>
      cases hall
      exact ⟨s, hs, rfl, rfl⟩
  | cons t ts ih =>
      obtain ⟨s₁, hs₁, hrest⟩ := Option.bind_eq_some_iff.mp hall
      by_cases hq : q = t
      · subst hq
        obtain rfl := Option.some.inj (hs.symm.trans hs₁)
        have hat := @srcAt_arm_self w c q s hs
        rw [pollSetNewEvt_kept hpriv] at hat
        have hlater := ih hrest hat hpriv
        exact hlater
      · exact ih hrest (by rw [srcAt_arm_ne hq]; exact hs) hpriv

/-- No source is made while others are armed. -/
theorem exists_srcAt_armAll (hall : World.armAll c ts ret w = some (r, v))
    (hs : srcAt v.heap q = some s) : ∃ s', srcAt w.heap q = some s' ∧ s'.type = s.type := by
  induction ts generalizing ret w with
  | nil =>
      cases hall
      exact ⟨s, hs, rfl⟩
  | cons t ts ih =>
      obtain ⟨s₁, hs₁, hrest⟩ := Option.bind_eq_some_iff.mp hall
      obtain ⟨s', hs', htype⟩ := ih hrest
      by_cases hq : q = t
      · subst hq
        obtain ⟨fd, hsame⟩ := (@polledAs_add c q s₁ w.sys).same
        rw [srcAt_arm_self hs₁, hsame] at hs'
        cases hs'
        exact ⟨s₁, hs₁, htype⟩
      · exact ⟨s', by rwa [srcAt_arm_ne hq] at hs', htype⟩

end Armed

end Libmodule
