import Libmodule.CallRun
import Libmodule.Operation

/-!
# The kqueue plugin

`poll_set_new_evt` of `poll/kqueue.c`, which arms and disarms the sources of a
context.  The kernel keeps a set of pairs of an identifier and a filter; a
descriptor that is closed takes its pairs with it.

Both operations fill in the `struct kevent` of the source anew.  The identifier
of a timer comes from a counter, and that of a path is a descriptor that is
opened there.
-/

namespace Libmodule

inductive KFilter where
  | read
  | timer
  | signal
  | vnode
  | proc
  | user
  deriving DecidableEq, Repr

structure KPair where
  ident : ℕ
  filter : KFilter
  deriving DecidableEq, Repr

/-- The filters that watch a descriptor. -/
def KFilter.watchesFd : KFilter → Bool
  | read | vnode => true
  | _ => false

/-- A source, with its descriptor, signal or process. -/
structure KqSrc where
  type : MSrcType
  num : ℕ

/-- The sources and the kernel, with the counter `timer_ids`.  A source may have kqueue data,
`tmp->ev`, and the descriptor of a path, `tmp->path_src.f.fd`. -/
structure Kqueue where
  timerIds : ℕ := 1
  events : Finset KPair := ∅
  openFds : Finset ℕ
  srcs : ℕ → KqSrc
  ev : ℕ → Bool := fun _ => false
  pathFd : ℕ → Option ℕ := fun _ => none

/-- What `open` answers: a descriptor that is not open. -/
structure FdAlloc where
  openFd : Finset ℕ → Option ℕ
  fresh : ∀ fds fd, openFd fds = some fd → fd ∉ fds

/-- The lowest free descriptor below `size`. -/
def FdAlloc.lowest (size : ℕ) : FdAlloc where
  openFd := fun fds => (List.range size).find? (fun fd => fd ∉ fds)
  fresh := by
    intro fds fd hfind
    simpa using List.find?_some hfind

/-- What a call gets from outside: whether `calloc` has memory, the answer of `open`, and
whether the kernel takes the pair. -/
structure KqEnv where
  mem : Bool
  path : FdAlloc
  accepts : Bool

namespace Kqueue

def setEv (s : Kqueue) (src : ℕ) (ev : Bool) : Kqueue :=
  { s with ev := Function.update s.ev src ev }

def setPathFd (s : Kqueue) (src : ℕ) (fd : Option ℕ) : Kqueue :=
  { s with pathFd := Function.update s.pathFd src fd }

def closeFd (s : Kqueue) (fd : ℕ) : Kqueue :=
  { s with
    openFds := s.openFds.erase fd
    events := s.events.filter (fun p => ¬ (p.filter.watchesFd = true ∧ p.ident = fd)) }

/-- The pair that a source always has. -/
def fixedPair (src : ℕ) (x : KqSrc) : Option KPair :=
  match x.type with
  | .ps | .fd => some ⟨x.num, .read⟩
  | .sgn => some ⟨x.num, .signal⟩
  | .pid => some ⟨x.num, .proc⟩
  | .task | .thresh => some ⟨src, .user⟩
  | .tmr | .path => none

/-- `EV_SET` for the type of the source; there is no pair when a path cannot be opened. -/
def evSet (env : KqEnv) (s : Kqueue) (src : ℕ) : Option KPair × Kqueue :=
  let x := s.srcs src
  match x.type with
  | .tmr => (some ⟨s.timerIds, .timer⟩, { s with timerIds := s.timerIds + 1 })
  | .path =>
      match env.path.openFd s.openFds with
      | none => (none, s.setPathFd src none)
      | some fd =>
          (some ⟨fd, .vnode⟩,
            { s.setPathFd src (some fd) with openFds := insert fd s.openFds })
  | .ps | .fd | .sgn | .pid | .task | .thresh => (fixedPair src x, s)

/-- `kevent` with one change; a pair on a descriptor needs the descriptor to be open. -/
def kevent (env : KqEnv) (s : Kqueue) (flag : OpType) (p : KPair) : ℤ × Kqueue :=
  match flag with
  | .add =>
      if env.accepts ∧ (p.filter.watchesFd = true → p.ident ∈ s.openFds) then
        (0, { s with events := insert p s.events })
      else (-1, s)
  | .rm => if p ∈ s.events then (0, { s with events := s.events.erase p }) else (-1, s)

/-- The end of a removal: the kqueue data is freed, and the descriptor of a path closed. -/
def release (s : Kqueue) (src : ℕ) : Kqueue :=
  let s := s.setEv src false
  if (s.srcs src).type = .path then
    match s.pathFd src with
    | none => s
    | some fd => (s.closeFd fd).setPathFd src none
  else s

def pollSetNewEvt (env : KqEnv) (s : Kqueue) (src : ℕ) (flag : OpType) : ℤ × Kqueue :=
  let x := s.srcs src
  if s.ev src = false ∧ flag = .rm then (0, s)
  else if s.ev src = false ∧ env.mem = false then (-ENOMEM, s)
  else
    match evSet env (s.setEv src true) src with
    | (none, s) => (-EBADF, s)
    | (some p, s) =>
        let (ret, s) := s.kevent env flag p
        let ret := if x.type = .fd ∧ x.num = 0 then 0 else ret
        match flag with
        | .add => (ret, s)
        | .rm => (ret, s.release src)

/-! ## What a source may have registered -/

/-- A pair that `EV_SET` may make for a source. -/
def PairFor (src : ℕ) (x : KqSrc) (p : KPair) : Prop :=
  match x.type with
  | .tmr => p.filter = .timer
  | .path => p.filter = .vnode
  | _ => fixedPair src x = some p

/-- What `EV_SET` does: the pair of the source does not change anything, a timer takes the next
identifier, and a path opens a descriptor or fails to. -/
inductive Sets (env : KqEnv) (s : Kqueue) (src : ℕ) : Option KPair → Kqueue → Prop where
  | fixed {p : KPair} (htype : (s.srcs src).type ≠ .tmr ∧ (s.srcs src).type ≠ .path)
      (hpair : fixedPair src (s.srcs src) = some p) : Sets env s src (some p) s
  | timer (htype : (s.srcs src).type = .tmr) :
      Sets env s src (some ⟨s.timerIds, .timer⟩) { s with timerIds := s.timerIds + 1 }
  | unopened (htype : (s.srcs src).type = .path) (hopen : env.path.openFd s.openFds = none) :
      Sets env s src none (s.setPathFd src none)
  | opened {fd : ℕ} (htype : (s.srcs src).type = .path)
      (hopen : env.path.openFd s.openFds = some fd) (hfresh : fd ∉ s.openFds) :
      Sets env s src (some ⟨fd, .vnode⟩)
        { s.setPathFd src (some fd) with openFds := insert fd s.openFds }

theorem evSet_sets (env : KqEnv) (s : Kqueue) (src : ℕ) :
    Sets env s src (evSet env s src).1 (evSet env s src).2 := by
  cases htype : (s.srcs src).type with
  | tmr =>
      rw [evSet, htype]
      exact .timer htype
  | path =>
      cases hopen : env.path.openFd s.openFds with
      | none =>
          rw [evSet, htype, hopen]
          exact .unopened htype hopen
      | some fd =>
          rw [evSet, htype, hopen]
          exact .opened htype hopen (env.path.fresh _ _ hopen)
  | ps | fd | sgn | pid | task | thresh =>
      have hset : evSet env s src = (fixedPair src (s.srcs src), s) := by rw [evSet, htype]
      have hpair : ∃ p, fixedPair src (s.srcs src) = some p := by simp [fixedPair, htype]
      obtain ⟨p, hp⟩ := hpair
      rw [hset, hp]
      exact .fixed (by simp [htype]) hp

end Kqueue
end Libmodule
