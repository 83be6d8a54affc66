import Libmodule.World

/-!
# Task sources

A task source runs a function on the thread pool of the context, and its module
gets an event when the function has returned.  The thread of the context goes
over the sources of a module one at a time, and the workers of the pool come in
between; the pool starts the tasks in any order.
-/

namespace Libmodule

/-- A task source: its descriptor is the eventfd of `poll_set_new_evt`, -1 when there is
none.  The last fields count the tasks that were enqueued for it, the calls of its function,
and the events pushed to its module. -/
structure TaskSrc where
  mod : ℕ
  tid : ℤ
  ev : Bool
  fd : Option ℕ
  counter : ℕ
  registered : Bool
  events : ℕ
  starts : ℕ
  executed : ℕ
  received : ℕ
  deriving DecidableEq

/-- `create_src`. -/
def TaskSrc.new (m : ℕ) (tid : ℤ) : TaskSrc := ⟨m, tid, false, none, 0, true, 0, 0, 0, 0⟩

/-- The references to the source: the tree's, and one for every event made of it. -/
def TaskSrc.refs (src : TaskSrc) : ℕ := (if src.registered then 1 else 0) + src.events

/-- Where a task of the pool is in `task_thread`. -/
inductive TaskPhase where
  | queued
  | running
  | returned
  | finished
  | dropped
  deriving DecidableEq

/-- A worker is in `task_thread`. -/
def TaskPhase.busy : TaskPhase → Bool
  | .running | .returned => true
  | _ => false

/-- The task waits in the pool or a worker is in `task_thread`. -/
def TaskPhase.unfinished : TaskPhase → Bool
  | .queued | .running | .returned => true
  | _ => false

/-- A task in the pool; `src` is the raw pointer that `start_task` gave to it. -/
structure TaskJob where
  src : ℕ
  phase : TaskPhase
  deriving DecidableEq

/-- What the thread of the context is at: a pass of `manage_srcs` has the sources that are
left. -/
inductive TaskMain where
  | idle
  | adding (m : ℕ) (rest : List ℕ)
  | removing (m : ℕ) (rest : List ℕ)
  | stopping (m : ℕ) (next : ModState) (rest : List ℕ)
  deriving DecidableEq

structure TaskState where
  mods : List ModState
  srcs : List TaskSrc
  jobs : List TaskJob
  main : TaskMain
  deriving DecidableEq

/-- What the calls of a step answer: `calloc`, `eventfd`, `epoll_ctl` (at the end of a pass, the
pass) and `m_thpool_add`. -/
structure TaskAnswer where
  mem : Bool
  fd : ℕ
  ok : Bool
  pool : Bool
  deriving DecidableEq

namespace TaskState

def initial (mods : ℕ) : TaskState := ⟨List.replicate mods .idle, [], [], .idle⟩

def modify (s : TaskState) (i : ℕ) (f : TaskSrc → TaskSrc) : TaskState :=
  { s with srcs := s.srcs.modify i f }

/-- `start_task`. -/
def startTask (s : TaskState) (i : ℕ) : TaskState :=
  { s.modify i fun src => { src with starts := src.starts + 1 } with
    jobs := s.jobs ++ [⟨i, .queued⟩] }

/-- `poll_set_new_evt` with `ADD`, and `start_task` when it succeeds. -/
def addSrc (s : TaskState) (i : ℕ) (src : TaskSrc) (answer : TaskAnswer) : TaskState :=
  if src.ev = false ∧ answer.mem = false then s
  else
    let s := s.modify i fun src => { src with ev := true, fd := some answer.fd, counter := 0 }
    if answer.ok ∧ answer.pool then s.startTask i else s

/-- `poll_set_new_evt` with `RM` closes the eventfd. -/
def rmSrc (s : TaskState) (i : ℕ) : TaskState :=
  s.modify i fun src => if src.ev then { src with ev := false, fd := none, counter := 0 } else src

/-- The tree gives up its reference. -/
def dropSrc (s : TaskState) (i : ℕ) : TaskState :=
  s.modify i fun src => { src with registered := false }

/-- The task sources in the tree of the module. -/
def sources (s : TaskState) (m : ℕ) : List ℕ :=
  (List.range s.srcs.length).filter fun i =>
    s.srcs[i]?.any fun src => src.mod = m ∧ src.registered

def setMod (s : TaskState) (m : ℕ) (state : ModState) : TaskState :=
  { s with mods := s.mods.set m state }

def insert (s : TaskState) (src : TaskSrc) : TaskState := { s with srcs := s.srcs ++ [src] }

/-- `m_mod_src_register_task`; the tree may refuse the source. -/
def register (s : TaskState) (m : ℕ) (tid : ℤ) (inserted : Bool) (answer : TaskAnswer) :
    TaskState :=
  if inserted then
    let s' := s.insert (.new m tid)
    if s.mods[m]? = some .running then s'.addSrc s.srcs.length (.new m tid) answer else s'
  else s

/-- The next step of a pass of `manage_srcs`, and the change of state when it is over. -/
def mainStep (s : TaskState) (answer : TaskAnswer) : TaskMain → Option TaskState
  | .idle => none
  | .adding m [] =>
      some { (if answer.ok then s.setMod m .running else s) with main := .idle }
  | .adding m (i :: rest) =>
      match s.srcs[i]? with
      | none => none
      | some src => some { s.addSrc i src answer with main := .adding m rest }
  | .removing m [] =>
      some { (if answer.ok then s.setMod m .paused else s) with main := .idle }
  | .removing m (i :: rest) => some { s.rmSrc i with main := .removing m rest }
  | .stopping m next [] => some { s.setMod m next with main := .idle }
  | .stopping m next (i :: rest) => some { s.dropSrc i with main := .stopping m next rest }

/-- `recv_events` with the event of a source whose eventfd could be read: the source leaves the
tree as it is oneshot, and the event, which refers to it, is pushed.  `m_bst_remove` gets the
source as key, so `taskcmp` compares the descriptor with the task ids: what is removed, if
anything, is a source with that number. -/
def receive (s : TaskState) (i : ℕ) (src : TaskSrc) (removed : Option ℕ) : Option TaskState :=
  let pushed := fun s : TaskState => s.modify i fun src =>
    { src with counter := 0, events := src.events + 1, received := src.received + 1 }
  match removed with
  | none => some (pushed s)
  | some r =>
      match s.srcs[r]? with
      | none => none
      | some src' =>
          if src'.registered ∧ src'.mod = src.mod ∧ src.fd.map Int.ofNat = some src'.tid then
            some (pushed (s.dropSrc r))
          else none

def setJob (s : TaskState) (j i : ℕ) (phase : TaskPhase) : TaskState :=
  { s with jobs := s.jobs.set j ⟨i, phase⟩ }

/-- The next step of a worker in `task_thread`: it calls the function, stores what it returns,
and notifies the poll. -/
def jobStep (s : TaskState) (j : ℕ) (job : TaskJob) : Option TaskState :=
  match job.phase with
  | .queued =>
      some ((s.modify job.src fun src => { src with executed := src.executed + 1 }).setJob j job.src
        .running)
  | .running => some (s.setJob j job.src .returned)
  | .returned =>
      some ((s.modify job.src fun src =>
        if src.fd.isSome then { src with counter := src.counter + 1 } else src).setJob j job.src
        .finished)
  | .finished | .dropped => none

def dropQueued (job : TaskJob) : TaskJob :=
  if job.phase = .queued then { job with phase := .dropped } else job

end TaskState

/-- The calls on the thread of the context, its steps and those of the workers.  The pass of a
call gives the order of the tree. -/
inductive TaskEvent where
  | register (m : ℕ) (tid : ℤ) (inserted : Bool) (answer : TaskAnswer)
  | start (m : ℕ) (pass : List ℕ)
  | resume (m : ℕ) (pass : List ℕ)
  | pause (m : ℕ) (pass : List ℕ)
  | stop (m : ℕ) (pass : List ℕ)
  | deregister (m : ℕ) (pass : List ℕ)
  | main (answer : TaskAnswer)
  | receive (i : ℕ) (removed : Option ℕ)
  | receiveError (i : ℕ)
  | release (i : ℕ)
  | job (j : ℕ)
  | freePool
  deriving DecidableEq

namespace TaskState

/-- The call begins a pass, when the module is in one of the states. -/
def call (s : TaskState) (m : ℕ) (states : List ModState) (pass : List ℕ) (main : TaskMain) :
    Option TaskState :=
  if s.main = .idle ∧ s.mods[m]?.any (· ∈ states) ∧ pass.Perm (s.sources m) then
    some { s with main := main }
  else none

def step (s : TaskState) : TaskEvent → Option TaskState
  | .register m tid inserted answer =>
      if s.main = .idle ∧ s.mods[m]?.any (· ≠ .zombie) then
        some (s.register m tid inserted answer)
      else none
  | .start m pass => s.call m [.idle, .stopped] pass (.adding m pass)
  | .resume m pass => s.call m [.paused] pass (.adding m pass)
  | .pause m pass => s.call m [.running] pass (.removing m pass)
  | .stop m pass => s.call m [.running, .paused] pass (.stopping m .stopped pass)
  | .deregister m pass =>
      s.call m [.idle, .running, .paused, .stopped] pass (.stopping m .zombie pass)
  | .main answer => s.mainStep answer s.main
  | .receive i removed =>
      match s.srcs[i]? with
      | none => none
      | some src =>
          if s.main = .idle ∧ 0 < src.refs ∧ 0 < src.counter then s.receive i src removed else none
  | .receiveError i =>
      match s.srcs[i]? with
      | none => none
      | some src =>
          -- an errno that was left behind makes recv_events drop the event it has read
          if s.main = .idle ∧ 0 < src.refs ∧ 0 < src.counter then
            some (s.modify i fun src => { src with counter := 0 })
          else none
  | .release i =>
      match s.srcs[i]? with
      | none => none
      | some src =>
          if s.main = .idle ∧ 0 < src.events then
            some (s.modify i fun src => { src with events := src.events - 1 })
          else none
  | .job j =>
      match s.jobs[j]? with
      | none => none
      | some job => s.jobStep j job
  | .freePool =>
      -- m_thpool_free joins the workers and drops what they have not taken
      if s.main = .idle ∧ ∀ job ∈ s.jobs, ¬ job.phase.busy then
        some { s with jobs := s.jobs.map dropQueued }
      else none

end TaskState

end Libmodule
