import Libmodule.Starting

/-!
# Preparing the pipe of a module

`init_pubsub_fd` makes the pipe and registers its read end like any other source.  When
that is refused it closes both ends, whoever else has closed them, and its result is
`errno`, whether or not anything has set it.
-/

namespace Libmodule

open RefHeap SearchTree Reentrant

/-! ## The pipe -/

/-- The flags of the source for the read end. -/
def pipeFlags : ℕ := M_SRC_FD_AUTOCLOSE ||| M_SRC_PRIO_HIGH

def Mod.withPipe (w : World) (x : Mod) : Mod :=
  { x with
    pubsubFd0 := some w.sys.files.length
    pubsubFd1 := some (w.sys.files.length + 1) }

/-- The state with a new pipe. -/
def World.piped (w : World) (m : ℕ) : World :=
  { w with
    sys := w.sys.pipe.2
    heap := modify w.heap m (Obj.mapMod (Mod.withPipe w)) }

/-- The state after both ends are closed again. -/
def World.unpiped (w : World) (m : ℕ) : World :=
  { w with
    sys := ((w.sys.pipe.2).close (some w.sys.files.length)).close (some (w.sys.files.length + 1))
    heap := modify (w.piped m).heap m (Obj.mapMod fun x => ModField.set x .noPubsubFd) }

/-- The source for the read end. -/
def World.addPipeSrc (w : World) (m : ℕ) (x : Mod) : Option ((ℤ × ℕ) × World) :=
  ((w.piped m).takeToken m (x.withPipe w)).addSrc m .ps
    (fun _ => fdWord (some w.sys.files.length)) (srcFlags pipeFlags) (.user 0)

/-- The module has a new pipe and the source for its read end, which is armed at once when
the module runs. -/
structure PipePrepared (w : World) (m : ℕ) (x : Mod) (u : World) : Prop where
  may : MayRegister (w.piped m) m (x.withPipe w) pipeFlags
  added : ∃ q z, w.addPipeSrc m x = some ((0, q), z) ∧
    if x.state = .running then z.pollSetEvt x.ctx q .add = some (0, u) else u = z

/-- The property holds of the steps that succeed while a pipe is prepared. -/
structure OfSetup (Q : Step LibLang World → Prop) : Prop extends OfReads Q where
  setMod : ∀ m field w, Q ⟨.op (.setMod m field), w⟩
  close : ∀ fd w, w.sys.file fd ≠ .closed → Q ⟨.op (.close fd), w⟩
  pipe : ∀ m w v, w.pipe m = some (0, v) → Q ⟨.op (.pipe m), w⟩
  addSrc : ∀ m type key flags userptr q w v,
    w.addSrc m type key flags userptr = some ((0, q), v) →
      Q ⟨.op (.addSrc m type key flags userptr), w⟩
  pollSetNewEvt : ∀ c t w v, w.pollSetEvt c t .add = some (0, v) →
    Q ⟨.op (.pollSetNewEvt c t .add), w⟩

theorem ofSetup_not_fails : OfSetup fun step => ¬ Fails step where
  get := ofTail_not_fails.get
  halt := ofTail_not_fails.halt
  setMod := by rintro m field w ⟨o, hact, hfails⟩; cases hact; exact hfails
  close := by rintro fd w - ⟨o, hact, hfails⟩; cases hact; exact hfails
  pipe := by
    rintro m w v hpipe ⟨o, hact, hfails⟩
    cases hact
    obtain ⟨r, v, hpipe', hne⟩ := hfails
    cases hpipe.symm.trans hpipe'
    exact hne rfl
  addSrc := by
    rintro m type key flags userptr q w v hadd ⟨o, hact, hfails⟩
    cases hact
    obtain ⟨r, q, v, hadd', hne⟩ := hfails
    cases hadd.symm.trans hadd'
    exact hne rfl
  pollSetNewEvt := by
    rintro c t w v hset ⟨o, hact, hfails⟩
    cases hact
    obtain ⟨r, v, hset', hne⟩ := hfails
    cases hset.symm.trans hset'
    exact hne rfl

theorem ofSetup_not_closesTwice : OfSetup fun step => ¬ ClosesTwice step where
  get := ofReads_not_closesTwice.get
  halt := ofReads_not_closesTwice.halt
  setMod := by rintro m field w ⟨fd, ⟨⟩, -⟩
  close := by
    rintro fd w hopen ⟨fd', hact, hclosed⟩
    cases hact
    exact hopen hclosed
  pipe := by rintro m w v - ⟨fd, ⟨⟩, -⟩
  addSrc := by rintro m type key flags userptr q w v - ⟨fd, ⟨⟩, -⟩
  pollSetNewEvt := by rintro c t w v - ⟨fd, ⟨⟩, -⟩

/-! ## The pipe is prepared -/

/-- Both ends are closed. -/
def closePipe (m : ℕ) (x : Mod) : Lm ℤ := do
  act (.close x.pubsubFd0)
  act (.close x.pubsubFd1)
  act (.setMod m .noPubsubFd)
  return -(← getErrno)

section Pipe

variable {depth m : ℕ} {w v u : World} {x y : Mod} {ret : ℤ} {Q : Step LibLang World → Prop}

theorem closePipe_ends
    (h : (closePipe m x).Ends (handler depth) u ret v) :
    ret = -v.sys.errno ∧ v.sys = (u.sys.close x.pubsubFd0).close x.pubsubFd1 ∧
      v = { u with
        sys := (u.sys.close x.pubsubFd0).close x.pubsubFd1
        heap := modify u.heap m (Obj.mapMod fun x => ModField.set x .noPubsubFd) } ∧
      ∀ Q, (closePipe m x).Every (handler depth) Q u ↔
        Q ⟨.op (.close x.pubsubFd0), u⟩ ∧
          Q ⟨.op (.close x.pubsubFd1), { u with sys := u.sys.close x.pubsubFd0 }⟩ ∧
          (act (.setMod m .noPubsubFd)).Every (handler depth) Q
            { u with sys := (u.sys.close x.pubsubFd0).close x.pubsubFd1 } ∧
          getErrno.Every (handler depth) Q v := by
  unfold closePipe at h ⊢
  rw [Prog.ends_bind] at h
  obtain ⟨_, u₁, hclose, h⟩ := h
  obtain rfl : { u with sys := u.sys.close x.pubsubFd0 } = u₁ :=
    (Prod.mk.inj (Option.some.inj (act_ends.mp hclose))).2
  rw [Prog.ends_bind] at h
  obtain ⟨_, u₂, hclose', h⟩ := h
  obtain rfl : { u with sys := (u.sys.close x.pubsubFd0).close x.pubsubFd1 } = u₂ :=
    (Prod.mk.inj (Option.some.inj (act_ends.mp hclose'))).2
  rw [Prog.ends_bind] at h
  obtain ⟨_, u₃, hset, h⟩ := h
  obtain ⟨z, hsetMod, heq⟩ := Option.map_eq_some_iff.mp (act_ends.mp hset)
  obtain ⟨-, rfl⟩ := World.setMod_eq_some.mp hsetMod
  obtain rfl := (Prod.mk.inj heq).2
  rw [Prog.ends_bind] at h
  obtain ⟨e, _, herrno, h⟩ := h
  obtain ⟨rfl, rfl⟩ := Prog.ends_pure.mp h
  obtain ⟨rfl, hv⟩ := getErrno_ends.mp herrno
  subst hv
  refine ⟨rfl, rfl, rfl, fun Q => ?_⟩
  rw [Prog.every_bind_of_ends hclose, Prog.every_bind_of_ends hclose',
    Prog.every_bind_of_ends hset, Prog.every_bind_of_ends herrno, act_every, act_every]
  simp only [Prog.every_pure, and_true]

end Pipe

/-! ## What becomes of the pipe -/

/-- `init_pubsub_fd` as it ends: its answer and the state after it. -/
inductive SetupOutcome (w : World) (m : ℕ) (x : Mod)
    (every : (Step LibLang World → Prop) → Prop) : ℤ → World → Prop where
  | noPipe {ret : ℤ} (hfault : w.sys.fault.1 ≠ 0) (hret : ret ≠ 0)
      (hclosed : every fun step => ¬ ClosesTwice step) :
      SetupOutcome w m x every ret { w with sys := w.sys.pipe.2 }
  | refused (hfault : w.sys.fault.1 = 0)
      (hno : ¬ MayRegister (w.piped m) m (x.withPipe w) pipeFlags)
      (hevery : ∀ Q, OfSetup Q → every Q) :
      SetupOutcome w m x every (-w.sys.errno) (w.unpiped m)
  | prepared {u : World} (hfault : w.sys.fault.1 = 0) (hprepared : PipePrepared w m x u)
      (hevery : ∀ Q, OfSetup Q → every Q) : SetupOutcome w m x every 0 u
  | broken {ret : ℤ} {v : World} (hfault : w.sys.fault.1 = 0) (hret : ret ≠ 0)
      (hmay : MayRegister (w.piped m) m (x.withPipe w) pipeFlags)
      (hno : ∀ u, ¬ PipePrepared w m x u)
      (hbroken : (¬ every fun step => ¬ ClosesTwice step) ∨
        ∃ y, modAt v.heap m = some y ∧ y.srcs ≠ x.srcs) :
      SetupOutcome w m x every ret v

section Setup

variable {depth m : ℕ} {w v u : World} {x y : Mod} {ret : ℤ} {Q : Step LibLang World → Prop}

theorem Sys.pipe_eq (s : Sys) (hfault : s.fault.1 = 0) :
    s.pipe = (some (s.files.length, s.files.length + 1),
      { s with
        faults := s.faults.tail
        files := s.files ++ [.pipeRead s.pipes.length, .pipeWrite s.pipes.length]
        pipes := s.pipes ++ [[]] }) := by
  rw [Sys.fault_eq] at hfault
  rw [Sys.pipe, Sys.fault_eq]
  dsimp only at hfault ⊢
  rw [if_neg (not_not.mpr hfault)]

theorem pipe_exec (hx : modAt w.heap m = some x) (hfault : w.sys.fault.1 = 0) :
    w.pipe m = some (0, w.piped m) := by
  have hpipe := w.sys.pipe_eq hfault
  rw [World.pipe, hpipe]
  dsimp only
  rw [World.setMod, hx, World.piped, hpipe]
  rfl

theorem pipe_exec_failed (hfault : w.sys.fault.1 ≠ 0) :
    w.pipe m = some (-1, { w with sys := w.sys.pipe.2 }) ∧
      w.sys.pipe.2.errno = w.sys.fault.1 ∧ w.sys.pipe.2.files = w.sys.files ∧
      w.sys.pipe.2.epoll = w.sys.epoll := by
  have hpipe : w.sys.pipe = (none, { w.sys with
      faults := w.sys.faults.tail
      errno := w.sys.fault.1 }) := by
    rw [Sys.fault_eq] at hfault
    rw [Sys.pipe, Sys.fault_eq]
    dsimp only at hfault ⊢
    rw [if_pos hfault]
  rw [World.pipe, hpipe]
  exact ⟨rfl, rfl, rfl, rfl⟩

theorem modAt_piped (hx : modAt w.heap m = some x) :
    modAt (w.piped m).heap m = some (x.withPipe w) := by
  rw [World.piped, modAt_modify_mod, if_pos rfl, hx]
  rfl

/-- The two ends of the new pipe. -/
theorem file_piped (hfault : w.sys.fault.1 = 0) :
    (w.piped m).sys.file (some w.sys.files.length) = .pipeRead w.sys.pipes.length ∧
      (w.piped m).sys.file (some (w.sys.files.length + 1)) = .pipeWrite w.sys.pipes.length := by
  rw [World.piped, w.sys.pipe_eq hfault]
  constructor
  · simp [Sys.file]
  · simp [Sys.file]

theorem errno_close {s : Sys} {fd : Option ℕ} (hopen : s.file fd ≠ .closed) :
    (s.close fd).errno = s.errno := by
  cases fd with
  | none => exact absurd rfl hopen
  | some n =>
      unfold Sys.close
      split
      next => contradiction
      next h => exact absurd h hopen
      next => rfl

theorem errno_close_closed {s : Sys} {fd : Option ℕ} (hclosed : s.file fd = .closed) :
    (s.close fd).errno = EBADF := by
  cases fd with
  | none => rfl
  | some n =>
      unfold Sys.close
      rw [hclosed]

theorem initPubsubFd_eq (m : ℕ) : initPubsubFd m = (do
    let ret : ℤ ← act (.pipe m)
    if ret = 0 then
      let x ← derefMod m
      let ret ← registerModSrc (some m) .ps (fun _ => fdWord x.pubsubFd0) pipeFlags (.user 0)
      if ret = 0 then return 0
      closePipe m x
    else return -(← getErrno)) := rfl

/-- The source for the read end, as it is made. -/
def World.pipeSrc (w : World) (m : ℕ) : EvSource :=
  { type := .ps
    flags := srcFlags pipeFlags
    fd := some (fdWord (some w.sys.files.length)).toNat
    key := fun _ => fdWord (some w.sys.files.length)
    topic := none
    ev := false
    mod := some m
    userptr := .user 0 }

theorem callSrc_pipe (w : World) (m : ℕ) :
    (w.piped m).callSrc m .ps (fun _ => fdWord (some w.sys.files.length)) pipeFlags (.user 0) =
      (w.pipeSrc m, (w.piped m).sys) := by
  have hnot : hasFlag (srcFlags pipeFlags) M_SRC_DUP = false := by decide
  unfold World.callSrc World.createSrc
  dsimp only
  rw [hnot]
  rfl

theorem pipeSrc_fd (hlength : w.sys.files.length < 2 ^ 32) :
    (w.pipeSrc m).fd = some w.sys.files.length := by
  simp only [World.pipeSrc, fdWord, BitVec.toNat_ofNat, Nat.mod_eq_of_lt hlength]

/-- The insertion of the source for the pipe, as it ends. -/
theorem insertPipeSrc_cases (hx : modAt w.heap m = some x)
    (hmay : MayRegister (w.piped m) m (x.withPipe w) pipeFlags)
    (h : (insertSrc m .ps (fun _ => fdWord (some w.sys.files.length)) pipeFlags (.user 0)).Ends
      (handler depth) ((w.piped m).takeToken m (x.withPipe w)) ret v) :
    (ret = 0 ∧ PipePrepared w m x v ∧ ∀ Q, OfSetup Q →
        (insertSrc m .ps (fun _ => fdWord (some w.sys.files.length)) pipeFlags (.user 0)).Every
          (handler depth) Q ((w.piped m).takeToken m (x.withPipe w))) ∨
      ret ≠ 0 ∧ (∀ u, ¬ PipePrepared w m x u) ∧
        (v = (w.piped m).refused m (x.withPipe w)
            ((w.piped m).callSrc m .ps (fun _ => fdWord (some w.sys.files.length)) pipeFlags
              (.user 0)) ∨
          v.sys.errno ≠ 0 ∧ Widened (w.piped m).sys v.sys ∧
            ∃ y, modAt v.heap m = some y ∧ y.srcs ≠ x.srcs) := by
  have hpiped := modAt_piped hx
  obtain ⟨created, hcreated⟩ : ∃ created, (w.piped m).callSrc m .ps
      (fun _ => fdWord (some w.sys.files.length)) pipeFlags (.user 0) = created := ⟨_, rfl⟩
  have hmade := hcreated.symm.trans (callSrc_pipe w m)
  unfold insertSrc at h ⊢
  rw [Prog.ends_bind] at h
  obtain ⟨⟨r, q⟩, z, hadd, h⟩ := h
  have hexec : w.addPipeSrc m x = some ((r, q), z) := act_ends.mp hadd
  obtain ⟨rfl, hcases⟩ := addSrc_cases hpiped hcreated hexec
  simp only [Prog.every_bind_of_ends hadd]
  rcases hcases with ⟨rfl, hdup, t, hmem, hlength, rfl⟩ | ⟨rfl, hdup, rfl⟩
  · have hinserted := @modAt_inserted (w.piped m) m (x.withPipe w) created hpiped t
    have hgrown : Function.update x.srcs created.1.type t ≠ x.srcs := by
      intro hsame
      have hps : created.1.type = .ps := by
        rw [hmade]
        rfl
      have htree := congrFun hsame .ps
      rw [hps, Function.update_self] at htree
      rw [htree] at hlength
      exact (Nat.succ_ne_self _).symm hlength
    simp only [ne_eq, not_true_eq_false, if_false] at h ⊢
    rw [Prog.ends_bind] at h
    obtain ⟨y, z, hread, h⟩ := h
    obtain ⟨hy, hz⟩ := derefMod_ends.mp hread
    obtain rfl := hz.symm
    obtain rfl := Option.some.inj (hinserted.symm.trans hy)
    have hadded : ∀ Q, OfSetup Q → (act (.addSrc m .ps
        (fun _ => fdWord (some w.sys.files.length)) (srcFlags pipeFlags) (.user 0))).Every
          (handler depth) Q ((w.piped m).takeToken m (x.withPipe w)) :=
      fun Q hQ => act_every.mpr (hQ.addSrc _ _ _ _ _ _ _ _ hexec)
    simp only [Prog.every_bind_of_ends hread]
    by_cases hstate : x.state = .running
    · have hrunning : (x.withPipe w).state = .running := hstate
      simp only [hrunning, if_true] at h ⊢
      rw [Prog.ends_bind] at h
      obtain ⟨_, z, hset, h⟩ := h
      have hset' := act_ends.mp hset
      simp only [Prog.every_bind_of_ends hset]
      simp only [reduceCtorEq, and_false, if_false, Prog.ends_bind, Prog.ends_pure,
        getErrno_ends] at h ⊢
      obtain ⟨p, _, ⟨rfl, rfl⟩, e, _, ⟨rfl, rfl⟩, rfl, rfl⟩ := h
      by_cases hp : p = 0
      · subst hp
        refine .inl ⟨if_pos rfl, ⟨hmay, _, _, hexec, ?_⟩, fun Q hQ => ?_⟩
        · rw [if_pos hstate]
          exact hset'
        · refine ⟨hadded Q hQ, hQ.derefMod_every m, act_every.mpr (hQ.pollSetNewEvt _ _ _ _ hset'),
            Prog.every_bind.mpr ⟨Prog.every_pure, fun r u _ => ?_⟩⟩
          exact Prog.every_bind.mpr ⟨hQ.getErrno_every, fun _ _ _ => Prog.every_pure⟩
      · obtain ⟨hanswer, rfl⟩ := pollSetEvt_eq (srcAt_inserted t) hset'
        rw [if_neg hp]
        have hpolled := (@polledAs_add x.ctx (w.piped m).heap.length created.1 created.2).failed
          (fun hzero => hp (hanswer.trans hzero))
        refine .inr ⟨neg_ne_zero.mpr hpolled, ?_,
          .inr ⟨hpolled, ?_, _, modAt_polled.trans hinserted, hgrown⟩⟩
        · rintro u ⟨-, q, z, hadded, hset''⟩
          rw [hexec] at hadded
          cases hadded
          rw [if_pos hstate] at hset''
          cases hset'.symm.trans hset''
          exact hp rfl
        · have hsys : created.2 = (w.piped m).sys := by rw [hmade]
          have hwide := widened_pollSetNewEvt x.ctx (w.piped m).heap.length created.1 created.2
          rw [hsys] at hwide
          exact hsys ▸ hwide
    · have hrunning : (x.withPipe w).state ≠ .running := hstate
      simp only [hrunning, if_false] at h ⊢
      obtain ⟨rfl, rfl⟩ := Prog.ends_pure.mp h
      refine .inl ⟨rfl, ⟨hmay, _, _, hexec, by rw [if_neg hstate]⟩, fun Q hQ => ?_⟩
      exact ⟨hadded Q hQ, hQ.derefMod_every m, Prog.every_pure⟩
  · simp only [ne_eq, (by decide : ¬ -EEXIST = 0), not_false_eq_true, if_true] at h
    obtain ⟨rfl, rfl⟩ := Prog.ends_pure.mp h
    refine .inr ⟨by decide, ?_, .inl (by rw [hcreated])⟩
    rintro u ⟨-, q, z, hadded, -⟩
    rw [hexec] at hadded
    cases hadded

theorem file_close_ne {s : Sys} {fd fd' : Option ℕ} (hne : fd' ≠ fd) :
    (s.close fd).file fd' = s.file fd' := by
  rw [Sys.file_close, if_neg hne]

/-- Both ends of a pipe that is there are closed without an error. -/
theorem closePipe_open (hread : u.sys.file x.pubsubFd0 ≠ .closed)
    (hwrite : u.sys.file x.pubsubFd1 ≠ .closed) (hne : x.pubsubFd1 ≠ x.pubsubFd0)
    (h : (closePipe m x).Ends (handler depth) u ret v) :
    ret = -u.sys.errno ∧ ∀ Q, OfSetup Q → (closePipe m x).Every (handler depth) Q u := by
  obtain ⟨hret, hsys, -, hevery⟩ := closePipe_ends h
  have hwrite' : (u.sys.close x.pubsubFd0).file x.pubsubFd1 ≠ .closed := by
    rwa [file_close_ne hne]
  refine ⟨by rw [hret, hsys, errno_close hwrite', errno_close hread], fun Q hQ => ?_⟩
  exact (hevery Q).mpr ⟨hQ.close _ _ hread, hQ.close _ _ hwrite',
    act_every.mpr (hQ.setMod _ _ _), hQ.getErrno_every⟩

/-- The read end has been closed with the source that the tree has refused. -/
theorem refused_closed (hfault : w.sys.fault.1 = 0) (hlength : w.sys.files.length < 2 ^ 32) :
    let u := (w.piped m).refused m (x.withPipe w) ((w.piped m).callSrc m .ps
      (fun _ => fdWord (some w.sys.files.length)) pipeFlags (.user 0))
    u.sys.file (some w.sys.files.length) = .closed ∧
      u.sys.file (some (w.sys.files.length + 1)) ≠ .closed := by
  have hfd : (w.pipeSrc m).fd = some w.sys.files.length := pipeSrc_fd hlength
  have hflag : hasFlag (w.pipeSrc m).flags M_SRC_FD_AUTOCLOSE = true :=
    (by decide : hasFlag (srcFlags pipeFlags) M_SRC_FD_AUTOCLOSE = true)
  obtain ⟨-, hwrite⟩ := file_piped (m := m) hfault
  dsimp only [World.refused]
  rw [callSrc_pipe, file_srcAutofree, file_srcAutofree, file_srcAutoclose (by rintro ⟨⟩),
    file_srcAutoclose (by rintro ⟨⟩)]
  simp only [hfd, hflag, true_and, if_true, Option.some.injEq, Nat.succ_ne_self, if_false]
  intro hclosed
  cases hwrite.symm.trans hclosed

theorem initPubsubFd_outcome (hx : modAt w.heap m = some x)
    (hlength : w.sys.files.length < 2 ^ 32)
    (h : (initPubsubFd m).Ends (handler depth) w ret v) :
    SetupOutcome w m x (fun Q => (initPubsubFd m).Every (handler depth) Q w) ret v := by
  have heq := initPubsubFd_eq m
  rw [heq] at h ⊢
  rw [Prog.ends_bind] at h
  obtain ⟨r, u, hact, h⟩ := h
  simp only [Prog.every_bind_of_ends hact]
  by_cases hfault : w.sys.fault.1 = 0
  · have hexec := pipe_exec hx hfault
    obtain ⟨rfl, rfl⟩ := Prod.mk.inj (Option.some.inj (hexec.symm.trans (act_ends.mp hact)))
    have hpiped := modAt_piped hx
    have hmade : ∀ Q, OfSetup Q → (act (.pipe m)).Every (handler depth) Q w :=
      fun Q hQ => act_every.mpr (hQ.pipe _ _ _ hexec)
    rw [if_pos rfl, Prog.ends_bind] at h
    obtain ⟨y, z, hread, h⟩ := h
    obtain ⟨hy, hz⟩ := derefMod_ends.mp hread
    obtain rfl := hz.symm
    obtain rfl := Option.some.inj (hpiped.symm.trans hy)
    rw [Prog.ends_bind] at h
    obtain ⟨r, z, hregister, h⟩ := h
    simp only [if_true, Prog.every_bind_of_ends hread, Prog.every_bind_of_ends hregister]
    obtain ⟨hread0, hwrite0⟩ := file_piped (m := m) hfault
    by_cases hmay : MayRegister (w.piped m) m (x.withPipe w) pipeFlags
    · have hinsert := hmay.goesOn.ends_iff.mp hregister
      rcases insertPipeSrc_cases hx hmay hinsert with ⟨rfl, hprepared, hevery⟩ | ⟨hr, hno, hbroken⟩
      · rw [if_pos rfl] at h
        obtain ⟨rfl, rfl⟩ := Prog.ends_pure.mp h
        refine .prepared hfault hprepared fun Q hQ => ?_
        exact ⟨hmade Q hQ, hQ.derefMod_every m,
          registerModSrc_every hQ.toOfReads hpiped (hQ.setMod _ _ _) (hevery Q hQ),
          Prog.every_pure⟩
      · rw [if_neg hr] at h
        simp only [if_neg hr]
        rcases hbroken with rfl | ⟨herrno, hwide, y, hy, hsrcs⟩
        · obtain ⟨hclosed, hopen⟩ := refused_closed (m := m) (x := x) hfault hlength
          obtain ⟨hret, hsys, -, hevery⟩ := closePipe_ends h
          refine .broken hfault ?_ hmay hno (.inl ?_)
          · have hebadf := @errno_close_closed _ (x.withPipe w).pubsubFd0 hclosed
            rw [hret, hsys, errno_close, hebadf]
            · decide
            · rw [file_close_ne (by simp [Mod.withPipe])]
              exact hopen
          · rintro ⟨-, -, -, hcloses⟩
            exact ((hevery _).mp hcloses).1 ⟨_, rfl, hclosed⟩
        · have hread1 : (w.piped m).sys.file (x.withPipe w).pubsubFd0 ≠ .closed := by
            rw [Mod.withPipe, hread0]
            rintro ⟨⟩
          have hwrite1 : (w.piped m).sys.file (x.withPipe w).pubsubFd1 ≠ .closed := by
            rw [Mod.withPipe, hwrite0]
            rintro ⟨⟩
          obtain ⟨hret, -⟩ := closePipe_open (by rwa [hwide.file hread1])
            (by rwa [hwide.file hwrite1]) (by simp [Mod.withPipe]) h
          obtain ⟨-, -, rfl, -⟩ := closePipe_ends h
          refine .broken hfault (by rw [hret]; exact neg_ne_zero.mpr herrno) hmay hno
            (.inr ⟨ModField.set y .noPubsubFd, ?_, hsrcs⟩)
          rw [modAt_modify_mod, if_pos rfl, hy]
          rfl
    · obtain ⟨hr, ⟨rfl, hevery⟩ | ⟨hprio, -⟩⟩ := registerModSrc_refused hregister
        (fun y hy => hmay (by
          obtain rfl := Option.some.inj (hpiped.symm.trans hy.there)
          exact hy))
      · rw [if_neg hr] at h
        simp only [if_neg hr]
        obtain ⟨hret, hclosed⟩ := closePipe_open (by rw [Mod.withPipe, hread0]; rintro ⟨⟩)
          (by rw [Mod.withPipe, hwrite0]; rintro ⟨⟩) (by simp [Mod.withPipe]) h
        obtain ⟨-, -, hv, -⟩ := closePipe_ends h
        have herrno : (w.piped m).sys.errno = w.sys.errno := by
          rw [World.piped, w.sys.pipe_eq hfault]
        rw [hret, herrno, hv]
        refine .refused hfault hmay fun Q hQ => ?_
        exact ⟨hmade Q hQ, hQ.derefMod_every m, hevery Q hQ.toOfReads, hclosed Q hQ⟩
      · exact absurd (by decide) hprio
  · obtain ⟨hexec, herrno, -, -⟩ := @pipe_exec_failed m w hfault
    obtain ⟨rfl, rfl⟩ := Prod.mk.inj (Option.some.inj (hexec.symm.trans (act_ends.mp hact)))
    rw [if_neg (by decide), Prog.ends_bind] at h
    obtain ⟨e, z, hread, h⟩ := h
    obtain ⟨rfl, rfl⟩ := Prog.ends_pure.mp h
    obtain ⟨rfl, rfl⟩ := getErrno_ends.mp hread
    have hcloses := ofSetup_not_closesTwice
    refine .noPipe hfault (by rw [herrno]; exact neg_ne_zero.mpr hfault) ⟨?_, ?_⟩
    · exact act_every.mpr (by rintro ⟨fd, ⟨⟩, -⟩)
    · rw [if_neg (by decide), Prog.every_bind]
      exact ⟨hcloses.getErrno_every, fun _ _ _ => Prog.every_pure⟩

/-- What the module is with its pipe. -/
theorem PipePrepared.mod (hx : modAt w.heap m = some x) (hfault : w.sys.fault.1 = 0)
    (hlength : w.sys.files.length < 2 ^ 32) (h : PipePrepared w m x u) :
    ∃ y, modAt u.heap m = some y ∧ PipeOpen u y ∧ y.srcs ≠ x.srcs := by
  obtain ⟨-, q, z, hadd, hset⟩ := h
  have hpiped := modAt_piped hx
  obtain ⟨rfl, ⟨-, -, t, hmem, hcount, rfl⟩ | ⟨hexist, -, -⟩⟩ :=
    addSrc_cases hpiped (callSrc_pipe w m) hadd
  · obtain ⟨hread, hwrite⟩ := file_piped (m := m) hfault
    have hinserted := @modAt_inserted (w.piped m) m (x.withPipe w)
      (w.pipeSrc m, (w.piped m).sys) hpiped t
    have hat := @srcAt_inserted (w.piped m) m (x.withPipe w) (w.pipeSrc m, (w.piped m).sys) t
    have hgrown : Function.update x.srcs .ps t ≠ x.srcs := by
      intro hsame
      have htree := congrFun hsame .ps
      rw [Function.update_self] at htree
      rw [htree] at hcount
      exact (Nat.succ_ne_self _).symm hcount
    have hin : (w.piped m).heap.length ∈ (Function.update x.srcs .ps t .ps).values := by
      rwa [Function.update_self]
    by_cases hstate : x.state = .running
    · rw [if_pos hstate] at hset
      obtain ⟨-, rfl⟩ := pollSetEvt_eq hat hset
      have hwide := widened_pollSetNewEvt x.ctx (w.piped m).heap.length (w.pipeSrc m)
        (w.piped m).sys
      have hread' := (hwide.file (by rw [hread]; rintro ⟨⟩)).trans hread
      have hwrite' := (hwide.file (by rw [hwrite]; rintro ⟨⟩)).trans hwrite
      refine ⟨_, modAt_polled.trans hinserted, ⟨⟨w.sys.pipes.length, ?_, ?_⟩, _, hin,
        { w.pipeSrc m with ev := true }, ?_, rfl, @pipeSrc_fd m w hlength⟩, hgrown⟩
      · exact hread'
      · exact hwrite'
      · rw [World.polled, srcAt_modify_src, hat, Option.map_some, pollSetNewEvt_kept rfl]
    · rw [if_neg hstate] at hset
      subst hset
      exact ⟨_, hinserted, ⟨⟨w.sys.pipes.length, hread, hwrite⟩, _, hin, _, hat, rfl,
        pipeSrc_fd hlength⟩, hgrown⟩
  · cases hexist

end Setup

/-! ## What is left of a pipe that is closed again -/

section Unpiped

variable {m : ℕ} {w z v : World} {x : Mod} {r : ℤ}

theorem modAt_unpiped (hx : modAt w.heap m = some x) :
    modAt (w.unpiped m).heap m = some (ModField.set (x.withPipe w) .noPubsubFd) := by
  rw [World.unpiped, modAt_modify_mod, if_pos rfl, modAt_piped hx]
  rfl

theorem file_unpiped (hfault : w.sys.fault.1 = 0) (fd : Option ℕ) :
    (w.unpiped m).sys.file fd = w.sys.file fd := by
  have hsame : (w.unpiped m).sys.file fd = ((w.sys.pipe.2.close (some w.sys.files.length)).close
      (some (w.sys.files.length + 1))).file fd := rfl
  rw [hsame, Sys.file_close, Sys.file_close, w.sys.pipe_eq hfault]
  cases fd with
  | none => rfl
  | some n =>
      change (if some n = some (w.sys.files.length + 1) then File.closed
        else if some n = some w.sys.files.length then File.closed
        else (((w.sys.files ++ [.pipeRead w.sys.pipes.length, .pipeWrite w.sys.pipes.length])[n]?
          ).getD .closed)) = ((w.sys.files[n]?).getD .closed)
      by_cases hlt : n < w.sys.files.length
      · rw [if_neg (by simp; omega), if_neg (by simp; omega), List.getElem?_append_left hlt]
      · rw [List.getElem?_eq_none (Nat.le_of_not_lt hlt), Option.getD_none]
        split
        next => rfl
        next hsecond =>
          split
          next => rfl
          next hfirst =>
            have hpast : w.sys.files.length + 2 ≤ n := by
              simp only [Option.some.injEq] at hfirst hsecond
              omega
            rw [List.getElem?_eq_none (by simpa using hpast), Option.getD_none]

theorem Sys.mem_close_epoll {s : Sys} {fd : Option ℕ} {watch : Watch} :
    (watch ∈ (s.close fd).epoll → watch ∈ s.epoll) ∧
      (watch ∈ s.epoll → watch ∉ (s.close fd).epoll → fd = some watch.fd) := by
  unfold Sys.close
  split
  next => exact ⟨id, fun h hnot => absurd h hnot⟩
  next => exact ⟨id, fun h hnot => absurd h hnot⟩
  next n _ =>
    refine ⟨fun h => (List.mem_filter.mp h).1, fun h hnot => ?_⟩
    by_contra hne
    refine hnot (List.mem_filter.mpr ⟨h, ?_⟩)
    exact bne_iff_ne.mpr fun hfd => hne (congrArg some hfd.symm)

/-- Only watches of closed descriptors go with the two ends. -/
theorem epoll_unpiped (hfault : w.sys.fault.1 = 0) :
    (∀ watch ∈ (w.unpiped m).sys.epoll, watch ∈ w.sys.epoll) ∧
      ∀ watch ∈ w.sys.epoll, watch ∉ (w.unpiped m).sys.epoll →
        (w.unpiped m).sys.file (some watch.fd) = .closed := by
  have hpipe : w.sys.pipe.2.epoll = w.sys.epoll := by rw [w.sys.pipe_eq hfault]
  have hclosed : ∀ n, w.sys.files.length ≤ n → (w.unpiped m).sys.file (some n) = .closed := by
    intro n hn
    rw [file_unpiped hfault, Sys.file, Option.bind_some, List.getElem?_eq_none hn,
      Option.getD_none]
  constructor
  · intro watch hwatch
    rw [← hpipe]
    exact Sys.mem_close_epoll.1 (Sys.mem_close_epoll.1 hwatch)
  · intro watch hwatch hnot
    rw [← hpipe] at hwatch
    by_cases hfirst : watch ∈ (w.sys.pipe.2.close (some w.sys.files.length)).epoll
    · have hfd := Option.some.inj (Sys.mem_close_epoll.2 hfirst hnot)
      exact hclosed _ (by omega)
    · have hfd := Option.some.inj (Sys.mem_close_epoll.2 hwatch hfirst)
      exact hclosed _ (by omega)

/-- The module is as it was, if it had no pipe, as far as the sources take nothing. -/
theorem asBefore_unpiped_iff {c : ℕ} {ts : List ℕ} (hx : modAt w.heap m = some x)
    (hfault : w.sys.fault.1 = 0) (hall : World.armAll c ts 0 (w.unpiped m) = some (r, z)) :
    AsBefore w z m x ↔ (x.pubsubFd0 = none ∧ x.pubsubFd1 = none) ∧
      EachArm c (TakesNothing c) ts (w.unpiped m) := by
  obtain ⟨hsub, hclosed⟩ := @epoll_unpiped m w hfault
  have hsame := (widened_armAll hall).same_iff hsub hclosed
  have hmod := (modAt_armAll hall m).trans (modAt_unpiped hx)
  rw [takesNothing_iff hall, ← hsame]
  simp only [file_unpiped hfault]
  constructor
  · rintro ⟨⟨y, hy, -, -, hfd0, hfd1⟩, hfiles, hepoll⟩
    obtain rfl := Option.some.inj (hmod.symm.trans hy)
    exact ⟨⟨hfd0.symm, hfd1.symm⟩, hfiles, hepoll⟩
  · rintro ⟨⟨hfd0, hfd1⟩, hfiles, hepoll⟩
    exact ⟨⟨_, hmod, rfl, rfl, hfd0.symm, hfd1.symm⟩, hfiles, hepoll⟩

end Unpiped

/-! ## The call -/

/-- `start(mod, false)` needs a pipe and sources that can be armed, or sources that cannot
be and leave nothing.  `start(mod, true)` makes the pipe, and needs its source in the tree;
when that is refused before the tree is reached, the module may have had no pipe, and
`errno` has to be set, or the sources have to give up. -/
def StartsWell (w : World) (m : ℕ) (x : Mod) : Bool → Prop
  | false =>
      (EachArm x.ctx (CanArm x.ctx) x.sources w ∧ PipeOpen w x) ∨ GivesUp x.ctx x.sources w
  | true => w.sys.fault.1 = 0 →
      (∃ u y, PipePrepared w m x u ∧ modAt u.heap m = some y ∧
        EachArm y.ctx (CanArm y.ctx) y.sources u) ∨
      (¬ MayRegister (w.piped m) m (x.withPipe w) pipeFlags ∧
        (x.pubsubFd0 = none ∧ x.pubsubFd1 = none) ∧
        (w.sys.errno = 0 → GivesUp x.ctx x.sources (w.unpiped m)))

section Call

variable {depth m : ℕ} {w v u z : World} {x y : Mod} {ret r : ℤ} {starting : Bool}

theorem givesUp_iff {c : ℕ} {ts : List ℕ} (hall : World.armAll c ts 0 w = some (r, z)) :
    GivesUp c ts w ↔ r ≠ 0 ∧ EachArm c (TakesNothing c) ts w := by
  constructor
  · exact fun ⟨htakes, hne⟩ => ⟨hne r z hall, htakes⟩
  · rintro ⟨hne, htakes⟩
    refine ⟨htakes, fun r' z' hall' => ?_⟩
    obtain ⟨rfl, rfl⟩ := Prod.mk.inj (Option.some.inj (hall.symm.trans hall'))
    exact hne

/-- A call that gets to the sources, from the state it gets there in. -/
theorem startContract_goesOn {steps : List (Step LibLang World)} (hs : Settled u.heap)
    (hy : modAt u.heap m = some y)
    (hyes : (startSrcs m starting).Every (handler depth) AnswersYes u)
    (h : (startSrcs m starting).Ends (handler depth) u ret v)
    (hsteps : ∀ Q, OfSetup Q →
      ((∀ step ∈ steps, Q step) ↔ (startSrcs m starting).Every (handler depth) Q u)) :
    ∃ r z, World.armAll y.ctx y.sources 0 u = some (r, z) ∧
      (StartContract w v m x ret steps ↔
        (EachArm y.ctx (CanArm y.ctx) y.sources u ∧ PipeOpen u y) ∨
          (r ≠ 0 ∧ AsBefore w z m x)) := by
  obtain ⟨r, z, hall, hfail, hzero, harmed⟩ := startSrcs_outcome hs hy hyes h
  refine ⟨r, z, hall, startContract_of_srcs hy hall (fun hne => ?_) hzero ?_⟩
  · obtain ⟨hret, hv, hcloses⟩ := hfail hne
    exact ⟨hret, hv, (hsteps _ ofSetup_not_closesTwice).mpr hcloses⟩
  · exact (hsteps _ ofSetup_not_fails).trans harmed

/-- Without a new pipe. -/
theorem startContract_resume (hs : Settled w.heap) (hx : modAt w.heap m = some x)
    (hyes : (start m false).Every (handler depth) AnswersYes w)
    (h : (start m false).Ends (handler depth) w ret v) :
    StartContract w v m x ret ((start m false).run (handler depth) w).steps ↔
      StartsWell w m x false := by
  rw [start_false] at h hyes ⊢
  obtain ⟨r, z, hall, hcontract⟩ := startContract_goesOn hs hx hyes h fun _ _ => Iff.rfl
  rw [hcontract, asBefore_armAll_iff hx hall, ← givesUp_iff hall]
  rfl

/-- With a pipe whose ends have been closed again. -/
theorem startContract_unpiped {steps : List (Step LibLang World)}
    (hs : Settled (w.unpiped m).heap) (hx : modAt w.heap m = some x)
    (hfault : w.sys.fault.1 = 0)
    (hyes : (startSrcs m true).Every (handler depth) AnswersYes (w.unpiped m))
    (h : (startSrcs m true).Ends (handler depth) (w.unpiped m) ret v)
    (hsteps : ∀ Q, OfSetup Q →
      ((∀ step ∈ steps, Q step) ↔ (startSrcs m true).Every (handler depth) Q (w.unpiped m))) :
    StartContract w v m x ret steps ↔
      (x.pubsubFd0 = none ∧ x.pubsubFd1 = none) ∧ GivesUp x.ctx x.sources (w.unpiped m) := by
  have hshut : ¬ PipeOpen (w.unpiped m) (ModField.set (x.withPipe w) .noPubsubFd) := by
    rintro ⟨⟨p, hread, -⟩, -⟩
    cases hread
  obtain ⟨r, z, hall, hcontract⟩ := startContract_goesOn hs (modAt_unpiped hx) hyes h hsteps
  have hbefore := asBefore_unpiped_iff hx hfault hall
  have hgives := givesUp_iff hall
  rw [hcontract, hbefore]
  constructor
  · rintro (⟨-, hopen⟩ | ⟨hne, hfds, htakes⟩)
    · exact absurd hopen hshut
    · exact ⟨hfds, hgives.mpr ⟨hne, htakes⟩⟩
  · rintro ⟨hfds, hgive⟩
    obtain ⟨hne, htakes⟩ := hgives.mp hgive
    exact .inr ⟨hne, hfds, htakes⟩

theorem PipePrepared.unique (h : PipePrepared w m x u) (h' : PipePrepared w m x v) : u = v := by
  obtain ⟨-, q, z, hadd, hset⟩ := h
  obtain ⟨-, q', z', hadd', hset'⟩ := h'
  obtain ⟨hq, rfl⟩ := Prod.mk.inj (Option.some.inj (hadd.symm.trans hadd'))
  obtain rfl := (Prod.mk.inj hq).2
  split at hset
  next hstate =>
    rw [if_pos hstate] at hset'
    exact (Prod.mk.inj (Option.some.inj (hset.symm.trans hset'))).2
  next hstate =>
    rw [if_neg hstate] at hset'
    exact hset.trans hset'.symm

/-- With a new pipe. -/
theorem startContract_start (hs : Settled w.heap) (hx : modAt w.heap m = some x)
    (hlength : w.sys.files.length < 2 ^ 32)
    (hyes : (start m true).Every (handler depth) AnswersYes w)
    (h : (start m true).Ends (handler depth) w ret v) :
    StartContract w v m x ret ((start m true).run (handler depth) w).steps ↔
      StartsWell w m x true := by
  have hsteps : ∀ Q, (∀ step ∈ ((start m true).run (handler depth) w).steps, Q step) ↔
      (start m true).Every (handler depth) Q w := fun _ => Iff.rfl
  generalize ((start m true).run (handler depth) w).steps = steps at hsteps ⊢
  rw [start_true] at h hyes hsteps
  rw [Prog.ends_bind] at h
  obtain ⟨r, u, hinit, h⟩ := h
  rw [Prog.every_bind_of_ends hinit] at hyes
  simp only [Prog.every_bind_of_ends hinit] at hsteps
  have houtcome := initPubsubFd_outcome hx hlength hinit
  cases houtcome with
  | noPipe hfault hret hclosed =>
      rw [if_pos hret] at h
      simp only [if_pos hret] at hsteps
      obtain ⟨rfl, rfl⟩ := Prog.ends_pure.mp h
      obtain ⟨-, -, hfiles, hepoll⟩ := @pipe_exec_failed m w hfault
      refine iff_of_true ⟨fun hzero => absurd hzero hret, fun _ => hret, fun _ => ⟨⟨⟨x, hx, rfl, rfl,
        rfl, rfl⟩, fun fd => ?_, fun watch hwatch => ?_⟩, ?_⟩⟩ fun hzero => absurd hzero hfault
      · rw [Sys.file, Sys.file, hfiles]
      · rwa [hepoll] at hwatch
      · exact (hsteps _).mpr ⟨hclosed, Prog.every_pure⟩
  | refused hfault hno hevery =>
      have hnone : ∀ u, ¬ PipePrepared w m x u := fun u hprepared => hno hprepared.may
      have hwell : StartsWell w m x true ↔ (x.pubsubFd0 = none ∧ x.pubsubFd1 = none) ∧
          (w.sys.errno = 0 → GivesUp x.ctx x.sources (w.unpiped m)) := by
        simp only [StartsWell, hfault, hnone, hno, false_and, exists_false, false_or,
          not_false_eq_true, true_and, forall_const]
      rw [hwell]
      by_cases herrno : w.sys.errno = 0
      · have hr : -w.sys.errno = 0 := by rw [herrno, neg_zero]
        rw [if_neg (not_not.mpr hr)] at h hyes
        simp only [if_neg (not_not.mpr hr)] at hsteps
        rw [startContract_unpiped (settled_of_ends hs hinit) hx hfault hyes.2 h
          fun Q hQ => (hsteps Q).trans (and_iff_right (hevery Q hQ))]
        exact and_congr_right fun _ => ⟨fun hgives _ => hgives, fun hgives => hgives herrno⟩
      · have hr : -w.sys.errno ≠ 0 := neg_ne_zero.mpr herrno
        rw [if_pos hr] at h
        simp only [if_pos hr] at hsteps
        obtain ⟨rfl, rfl⟩ := Prog.ends_pure.mp h
        have hbefore := @asBefore_unpiped_iff _ _ _ _ _ 0 [] hx hfault rfl
        rw [and_iff_left (fun hzero => absurd hzero herrno)]
        constructor
        · exact fun hcontract => (hbefore.mp (hcontract.unchanged hr).1).1
        · refine fun hfds => ⟨fun hzero => absurd hzero hr, fun _ => hr, fun _ =>
            ⟨hbefore.mpr ⟨hfds, trivial⟩, ?_⟩⟩
          exact (hsteps _).mpr ⟨hevery _ ofSetup_not_closesTwice, Prog.every_pure⟩
  | prepared hfault hprepared hevery =>
      obtain ⟨y, hy, hopen, hsrcs⟩ := hprepared.mod hx hfault hlength
      rw [if_neg (not_not.mpr rfl)] at h hyes
      simp only [if_neg (not_not.mpr (rfl : (0 : ℤ) = 0))] at hsteps
      obtain ⟨r, z, hall, hcontract⟩ := startContract_goesOn (w := w) (x := x)
        (settled_of_ends hs hinit) hy hyes.2 h
        fun Q hQ => (hsteps Q).trans (and_iff_right (hevery Q hQ))
      rw [hcontract]
      constructor
      · rintro (⟨hcan, -⟩ | ⟨-, ⟨⟨y', hy', -, hsame, -⟩, -, -⟩⟩)
        · exact fun _ => .inl ⟨_, y, hprepared, hy, hcan⟩
        · obtain rfl := Option.some.inj (((modAt_armAll hall m).trans hy).symm.trans hy')
          exact absurd hsame hsrcs
      · intro hwell
        rcases hwell hfault with ⟨u', y', hprepared', hy', hcan⟩ | ⟨hnot, -⟩
        · obtain rfl := hprepared.unique hprepared'
          obtain rfl := Option.some.inj (hy.symm.trans hy')
          exact .inl ⟨hcan, hopen⟩
        · exact absurd hprepared.may hnot
  | broken hfault hret hmay hno hbroken =>
      rw [if_pos hret] at h
      simp only [if_pos hret] at hsteps
      obtain ⟨rfl, rfl⟩ := Prog.ends_pure.mp h
      refine iff_of_false (fun hcontract => ?_) fun hwell => ?_
      · obtain ⟨⟨⟨y, hy, -, hsrcs, -⟩, -, -⟩, hcloses⟩ := hcontract.unchanged hret
        rcases hbroken with htwice | ⟨y', hy', hsrcs'⟩
        · exact htwice ((hsteps _).mp hcloses).1
        · obtain rfl := Option.some.inj (hy.symm.trans hy')
          exact hsrcs' hsrcs
      · rcases hwell hfault with ⟨u, -, hprepared, -⟩ | ⟨hnot, -⟩
        · exact hno u hprepared
        · exact hnot hmay

theorem startContract_iff (hs : Settled w.heap) (hx : modAt w.heap m = some x)
    (hlength : w.sys.files.length < 2 ^ 32)
    (hyes : (start m starting).Every (handler depth) AnswersYes w)
    (h : (start m starting).Ends (handler depth) w ret v) :
    StartContract w v m x ret ((start m starting).run (handler depth) w).steps ↔
      StartsWell w m x starting := by
  cases starting with
  | false => exact startContract_resume hs hx hyes h
  | true => exact startContract_start hs hx hlength hyes h

end Call

/-! ## A descriptor that is not open -/

/-- A module that is not started, with a source for a descriptor that is not open, and a
timer. -/
def unopenedFd : World :=
  (machine.runCalls 2
    [.mCtxRegister "ctx" 0, .mModRegister "a" true (some onEvtOnly) 0,
      .mModSrcRegister (some 1) .fd (fun _ => 9) 0 0,
      .mModSrcRegister (some 1) .tmr (fun _ => 1) 0 0]
    (startFrom [] [])).state

/-- Its start, and what is there afterwards. -/
def startUnopened : Out LibLang World ℤ := (start 1 true).run (handler 2) unopenedFd

theorem startUnopened_ends : (start 1 true).Ends (handler 2) unopenedFd 0 startUnopened.state :=
  ⟨by decide +kernel, rfl⟩

theorem settled_unopenedFd : Settled unopenedFd.heap :=
  ((later_run _ _ _).pays (settled_initial _ _ _ _)).settled

theorem answersYes_unopenedFd : (start 1 true).Every (handler 2) AnswersYes unopenedFd := by
  intro step hstep h hact
  have hnone : startUnopened.steps.all (fun step => step.hook?.isNone) = true := by decide +kernel
  have hquiet := List.all_eq_true.mp hnone step hstep
  rw [Step.hook?, hact] at hquiet
  cases hquiet

def unopenedMod : Mod := (modAt unopenedFd.heap 1).get (by decide +kernel)

theorem modAt_unopenedFd : modAt unopenedFd.heap 1 = some unopenedMod := (Option.some_get _).symm

theorem startContract_unopenedFd :
    StartContract unopenedFd startUnopened.state 1 unopenedMod 0 startUnopened.steps ↔
      StartsWell unopenedFd 1 unopenedMod true :=
  startContract_iff settled_unopenedFd modAt_unopenedFd (by decide +kernel) answersYes_unopenedFd
    startUnopened_ends

/-- The start succeeds, and the descriptor is not watched. -/
theorem not_startContract_unopenedFd :
    ¬ ∀ (depth m : ℕ) (starting : Bool) (w v : World) (x : Mod) (ret : ℤ),
      Settled w.heap → modAt w.heap m = some x → w.sys.files.length < 2 ^ 32 →
      (start m starting).Every (handler depth) AnswersYes w →
      (start m starting).Ends (handler depth) w ret v →
      StartContract w v m x ret ((start m starting).run (handler depth) w).steps := by
  intro hall
  have hcontract := hall 2 1 true _ _ _ _ settled_unopenedFd modAt_unopenedFd (by decide +kernel)
    answersYes_unopenedFd startUnopened_ends
  obtain ⟨y, hy, -, harmed⟩ := hcontract.started rfl
  have hsources : (modAt startUnopened.state.heap 1).map Mod.sources = some [4, 2, 3] := by
    decide +kernel
  rw [hy] at hsources
  obtain ⟨s, fd, hs, -, hfd, hwatch⟩ := harmed 2 (by rw [Option.some.inj hsources]; decide)
  have hnine : (srcAt startUnopened.state.heap 2).map EvSource.fd = some (some 9) := by
    decide +kernel
  rw [hs, Option.map_some, hfd] at hnine
  obtain rfl : fd = 9 := Option.some.inj (Option.some.inj hnine)
  have hwatched : startUnopened.state.sys.epoll.all (fun watch => watch.fd != 9) = true := by
    decide +kernel
  rcases hwatch with hmem | hstdin
  · exact absurd rfl (bne_iff_ne.mp (List.all_eq_true.mp hwatched _ hmem))
  · exact absurd hstdin (by decide)

end Libmodule
