import Libmodule.Arming
import Libmodule.BoundStops

/-!
# Starting a module

`start` makes the pipe of the module, registers its read end and arms all sources.  It
gives up at the first of these three that fails, without undoing what the others have done.
-/

namespace Libmodule

open RefHeap SearchTree Reentrant

/-! ## What the call promises -/

/-- The module has both ends of a pipe, and a source for the read end. -/
def PipeOpen (w : World) (x : Mod) : Prop :=
  (∃ p, w.sys.file x.pubsubFd0 = .pipeRead p ∧ w.sys.file x.pubsubFd1 = .pipeWrite p) ∧
    ∃ q ∈ (x.srcs .ps).values, ∃ s, srcAt w.heap q = some s ∧ s.type = .ps ∧ s.fd = x.pubsubFd0

/-- An operation that makes a pipe, registers or arms a source, or starts a task, fails. -/
def Op.Fails (o : Op) (w : World) : Prop :=
  match o with
  | .pipe m => ∃ r v, w.pipe m = some (r, v) ∧ r ≠ 0
  | .addSrc m type key flags userptr =>
      ∃ r q v, w.addSrc m type key flags userptr = some ((r, q), v) ∧ r ≠ 0
  | .pollSetNewEvt c t .add => ∃ r v, w.pollSetEvt c t .add = some (r, v) ∧ r ≠ 0
  | .threadAdd => w.sys.fault.1 ≠ 0
  | _ => False

def Fails (step : Step LibLang World) : Prop := ∃ o, step.act = .op o ∧ o.Fails step.before

/-- The step closes a descriptor that is closed. -/
def ClosesTwice (step : Step LibLang World) : Prop :=
  ∃ fd, step.act = .op (.close (some fd)) ∧ step.before.sys.file (some fd) = .closed

/-- The module is as it was: no source more or less, and no descriptor and no watch that
was not there. -/
structure AsBefore (w v : World) (m : ℕ) (x : Mod) : Prop where
  mod : ∃ y, modAt v.heap m = some y ∧ y.state = x.state ∧ y.srcs = x.srcs ∧
    y.pubsubFd0 = x.pubsubFd0 ∧ y.pubsubFd1 = x.pubsubFd1
  files : ∀ fd, v.sys.file fd = w.sys.file fd
  epoll : ∀ watch ∈ v.sys.epoll, watch ∈ w.sys.epoll

/-- With the answer 0 the module has its pipe and all its sources are armed; with any
other the module is as it was, and it is another as soon as anything fails. -/
structure StartContract (w v : World) (m : ℕ) (x : Mod) (ret : ℤ)
    (steps : List (Step LibLang World)) : Prop where
  started : ret = 0 → ∃ y, modAt v.heap m = some y ∧ PipeOpen v y ∧
    ∀ q ∈ y.sources, Armed v y.ctx q
  reported : (∃ step ∈ steps, Fails step) → ret ≠ 0
  unchanged : ret ≠ 0 → AsBefore w v m x ∧ ∀ step ∈ steps, ¬ ClosesTwice step

/-- A callback returns true and calls nothing. -/
def AnswersYes (step : Step LibLang World) : Prop :=
  ∀ h, step.act = .hook h →
    (World.react h step.before).1 = [] ∧ (World.react h step.before).2.1 = true

/-! ## After the sources -/

section Tail

variable {depth m c : ℕ} {w v u : World} {x : Mod} {ret : ℤ} {Q : Step LibLang World → Prop}

theorem react_sys (h : Hook) (w : World) : (World.react h w).2.2.sys = w.sys := by
  unfold World.react
  split <;> rfl

/-- A callback that calls nothing leaves heap and system as they are. -/
theorem notify_quiet {h : Hook} {b : Bool} (hquiet : (World.react h w).1 = [])
    (hends : (notify h).Ends (handler depth) w b v) :
    b = (World.react h w).2.1 ∧ v.heap = w.heap ∧ v.sys = w.sys := by
  rw [notify, Prog.ends_notify] at hends
  cases depth with
  | zero => exact absurd hends Out.ends_stopped
  | succ depth =>
      change Out.Ends ((Out.sequence (handler depth).onCall (World.react h w).1
        (World.react h w).2.2).bind
          (fun _ s => Out.done (World.react h w).2.1 s)) b v at hends
      rw [hquiet] at hends
      obtain ⟨rfl, rfl⟩ := Out.ends_done.mp hends
      exact ⟨rfl, World.react_heap h w, react_sys h w⟩

theorem notify_every {h : Hook} (hquiet : (World.react h w).1 = []) (hQ : Q ⟨.hook h, w⟩) :
    (notify h).Every (handler depth) Q w := by
  rw [notify, Prog.every_notify]
  refine ⟨hQ, ?_⟩
  cases depth with
  | zero => exact Out.every_stopped
  | succ depth =>
      change Out.Every Q ((Out.sequence (handler depth).onCall (World.react h w).1
        (World.react h w).2.2).bind (fun _ s => Out.done (World.react h w).2.1 s))
      rw [hquiet]
      exact Out.every_done

/-- The property holds of all steps that follow the sources, besides those that read. -/
structure OfTail (Q : Step LibLang World → Prop) : Prop extends OfReads Q where
  ref : ∀ m w, Q ⟨.op (.refMod m), w⟩
  unref : ∀ m w, Q ⟨.op (.unrefMod m), w⟩
  setCtx : ∀ c field w, Q ⟨.op (.setCtx c field), w⟩
  markRunning : ∀ m w, Q ⟨.op (.markRunning m), w⟩
  tell : ∀ m msg sub w, Q ⟨.op (.tell m msg sub), w⟩
  hook : ∀ h w, Q ⟨.hook h, w⟩

theorem get_of_setCtx {k : ℕ} {f : Ctx → Ctx} (hx : get w.heap m = some ⟨k, .mod x⟩)
    (h : w.setCtx c f = some v) : get v.heap m = some ⟨k, .mod x⟩ := by
  obtain ⟨-, rfl⟩ := World.setCtx_eq_some.mp h
  rw [get_modify]
  split
  next => rw [hx]; rfl
  next => exact hx

theorem modAt_of_get {k : ℕ} (hx : get w.heap m = some ⟨k, .mod x⟩) :
    modAt w.heap m = some x := by
  rw [modAt_eq_some, val, hx]
  rfl

/-- `mod->ctx->curr_mod` changes nothing else. -/
theorem setCurrMod_ends {k : ℕ} {curr : Option ℕ} (hx : get w.heap m = some ⟨k, .mod x⟩)
    (h : (setCurrMod m curr).Ends (handler depth) w () v) :
    get v.heap m = some ⟨k, .mod x⟩ ∧ KeepsSources w v ∧
      ∀ Q, OfTail Q → (setCurrMod m curr).Every (handler depth) Q w := by
  unfold setCurrMod at h ⊢
  rw [Prog.ends_bind] at h
  obtain ⟨y, _, hread, h⟩ := h
  obtain ⟨-, rfl⟩ := derefMod_ends.mp hread
  obtain ⟨u, hset, heq⟩ := Option.map_eq_some_iff.mp (act_ends.mp h)
  obtain rfl := (Prod.mk.inj heq).2
  refine ⟨get_of_setCtx hx hset, KeepsSources.setCtx hset, fun Q hQ => ?_⟩
  rw [Prog.every_bind_of_ends hread, act_every]
  exact ⟨hQ.derefMod_every m, hQ.setCtx _ _ _⟩

theorem runHook_quiet {hook : ModHooks} {req : ModHookReq} {b : Bool}
    (hquiet : (runHook m hook req).Every (handler depth) CallsNothing w)
    (h : (runHook m hook req).Ends (handler depth) w b v) :
    ((runHook m hook req).Every (handler depth) AnswersYes w ∨ req = .stop → b = true) ∧
      v.heap = w.heap ∧ v.sys = w.sys ∧
      ∀ Q, OfTail Q → (runHook m hook req).Every (handler depth) Q w := by
  -- the hooks whose answer counts
  have hasked : ∀ (has : Bool) (hook : Hook),
      (if has then notify hook else pure true : Lm Bool).Every (handler depth) CallsNothing w →
      (if has then notify hook else pure true : Lm Bool).Ends (handler depth) w b v →
      ((if has then notify hook else pure true : Lm Bool).Every (handler depth) AnswersYes w →
        b = true) ∧ v.heap = w.heap ∧ v.sys = w.sys ∧
        ∀ Q, OfTail Q →
          (if has then notify hook else pure true : Lm Bool).Every (handler depth) Q w := by
    intro has hook hquiet h
    cases has with
    | false =>
        obtain ⟨rfl, rfl⟩ := Prog.ends_pure.mp h
        exact ⟨fun _ => rfl, rfl, rfl, fun _ _ => Prog.every_pure⟩
    | true =>
        have hcalls := (Prog.every_notify.mp hquiet).1 _ rfl
        obtain ⟨hb, hheap, hsys⟩ := notify_quiet hcalls h
        refine ⟨fun hyes => ?_, hheap, hsys, fun Q hQ => notify_every hcalls (hQ.hook _ _)⟩
        rw [hb]
        exact ((Prog.every_notify.mp hyes).1 _ rfl).2
  cases req with
  | eval =>
      obtain ⟨hb, hrest⟩ := hasked hook.onEval (.onEval m) hquiet h
      exact ⟨fun hyes => hyes.elim hb (fun hstop => by cases hstop), hrest⟩
  | start =>
      obtain ⟨hb, hrest⟩ := hasked hook.onStart (.onStart m) hquiet h
      exact ⟨fun hyes => hyes.elim hb (fun hstop => by cases hstop), hrest⟩
  | stop =>
      unfold runHook at h hquiet ⊢
      dsimp only at h hquiet ⊢
      split at h
      next hhook =>
        rw [if_pos hhook] at hquiet ⊢
        rw [Prog.ends_bind] at h
        obtain ⟨_, u, hnotify, h⟩ := h
        obtain ⟨rfl, rfl⟩ := Prog.ends_pure.mp h
        have hcalls := (Prog.every_notify.mp (Prog.every_bind.mp hquiet).1).1 _ rfl
        obtain ⟨-, hheap, hsys⟩ := notify_quiet hcalls hnotify
        refine ⟨fun _ => rfl, hheap, hsys, fun Q hQ => ?_⟩
        rw [Prog.every_bind_of_ends hnotify]
        exact ⟨notify_every hcalls (hQ.hook _ _), Prog.every_pure⟩
      next hhook =>
        rw [if_neg hhook]
        obtain ⟨rfl, rfl⟩ := Prog.ends_pure.mp h
        exact ⟨fun _ => rfl, rfl, rfl, fun _ _ => Prog.every_pure⟩

/-- A hook that calls nothing changes nothing that the library holds for modules. -/
theorem optionalHook_quiet {req : ModHookReq} (hs : Settled w.heap)
    (hx : modAt w.heap m = some x) (hstate : x.state ≠ .zombie)
    (hquiet : (optionalHook m req).Every (handler depth) CallsNothing w)
    (h : (optionalHook m req).Ends (handler depth) w ret v) :
    ((optionalHook m req).Every (handler depth) AnswersYes w ∨ req = .stop → ret = 0) ∧
      KeepsSources w v ∧ modAt v.heap m = some x ∧
      ∀ Q, OfTail Q → (optionalHook m req).Every (handler depth) Q w := by
  obtain ⟨⟨refs, o⟩, hcell, hval⟩ := Option.map_eq_some_iff.mp (modAt_eq_some.mp hx)
  obtain rfl : o = .mod x := hval
  obtain ⟨k, rfl⟩ : ∃ k, refs = k + 1 := Nat.exists_eq_succ_of_ne_zero (hs m _ hcell).ne'
  unfold optionalHook memLock at h hquiet ⊢
  -- the lock
  rw [Prog.ends_bind] at h
  obtain ⟨_, w₁, hlock, h⟩ := h
  rw [Prog.every_bind_of_ends hlock] at hquiet
  have href : w.ref m = some { w with heap := put w.heap m (some ⟨k + 2, .mod x⟩) } := by
    rw [World.ref, hcell]
    rfl
  have hw₁ : w₁ = { w with heap := put w.heap m (some ⟨k + 2, .mod x⟩) } := by
    have hexec := act_ends.mp hlock
    simp only [Op.exec, hx, href, Option.bind_eq_bind, Option.bind_some, Option.some.injEq,
      Prod.mk.injEq, true_and] at hexec
    exact hexec.symm
  have hcell₁ : get w₁.heap m = some ⟨k + 2, .mod x⟩ := by
    rw [hw₁, get_put_self hcell]
  have hkeeps₁ : KeepsSources w w₁ := KeepsSources.put_same hcell hw₁
  -- the function that is locked
  rw [Prog.ends_bind] at h
  obtain ⟨r, w₅, hfunc, h⟩ := h
  rw [Prog.every_bind_of_ends hfunc] at hquiet
  obtain ⟨-, hquiet, -⟩ := hquiet
  have hmiddle : get w₅.heap m = some ⟨k + 2, .mod x⟩ ∧ KeepsSources w₁ w₅ ∧
      (((do
        setCurrMod m (some m)
        let boolRet ← runHook m (← derefMod m).hook req
        setCurrMod m none
        if (← derefMod m).state = .zombie then return -ENOENT
        return if boolRet then 0 else -1 : Lm ℤ).Every (handler depth) AnswersYes w₁ ∨
          req = .stop → r = 0)) ∧
      ∀ Q, OfTail Q → (do
        setCurrMod m (some m)
        let boolRet ← runHook m (← derefMod m).hook req
        setCurrMod m none
        if (← derefMod m).state = .zombie then return -ENOENT
        return if boolRet then 0 else -1 : Lm ℤ).Every (handler depth) Q w₁ := by
    rw [Prog.ends_bind] at hfunc
    obtain ⟨_, w₂, hcurr, hfunc⟩ := hfunc
    obtain ⟨hcell₂, hkeeps₂, hevery₂⟩ := setCurrMod_ends hcell₁ hcurr
    rw [Prog.ends_bind] at hfunc
    obtain ⟨_, _, hread, hfunc⟩ := hfunc
    obtain ⟨hx₂, rfl⟩ := derefMod_ends.mp hread
    obtain rfl := Option.some.inj ((modAt_of_get hcell₂).symm.trans hx₂)
    rw [Prog.ends_bind] at hfunc
    obtain ⟨b, w₃, hrun, hfunc⟩ := hfunc
    rw [Prog.every_bind_of_ends hcurr, Prog.every_bind_of_ends hread,
      Prog.every_bind_of_ends hrun] at hquiet
    obtain ⟨hb, hheap, hsys, hevery₃⟩ := runHook_quiet hquiet.2.2.1 hrun
    have hcell₃ : get w₃.heap m = some ⟨k + 2, .mod x⟩ := by rw [hheap]; exact hcell₂
    rw [Prog.ends_bind] at hfunc
    obtain ⟨_, w₄, hreset, hfunc⟩ := hfunc
    obtain ⟨hcell₄, hkeeps₄, hevery₄⟩ := setCurrMod_ends hcell₃ hreset
    rw [Prog.ends_bind] at hfunc
    obtain ⟨_, _, hread', hfunc⟩ := hfunc
    obtain ⟨hx₄, rfl⟩ := derefMod_ends.mp hread'
    obtain rfl := Option.some.inj ((modAt_of_get hcell₄).symm.trans hx₄)
    rw [if_neg hstate] at hfunc
    obtain ⟨rfl, rfl⟩ := Prog.ends_pure.mp hfunc
    refine ⟨hcell₄, (hkeeps₂.trans (KeepsSources.of_same hheap hsys)).trans hkeeps₄, ?_, ?_⟩
    · intro hyes
      rw [hb (hyes.imp_left fun hevery => ?_)]
      · rfl
      · rw [Prog.every_bind_of_ends hcurr, Prog.every_bind_of_ends hread,
          Prog.every_bind_of_ends hrun] at hevery
        exact hevery.2.2.1
    · intro Q hQ
      rw [Prog.every_bind_of_ends hcurr, Prog.every_bind_of_ends hread,
        Prog.every_bind_of_ends hrun, Prog.every_bind_of_ends hreset,
        Prog.every_bind_of_ends hread', if_neg hstate]
      exact ⟨hevery₂ Q hQ, hQ.derefMod_every m, hevery₃ Q hQ, hevery₄ Q hQ, hQ.derefMod_every m,
        Prog.every_pure⟩
  obtain ⟨hcell₅, hkeeps₅, hyes, hevery⟩ := hmiddle
  -- the lock is released
  rw [Prog.ends_bind] at h
  obtain ⟨_, w₆, hunlock, h⟩ := h
  obtain ⟨rfl, rfl⟩ := Prog.ends_pure.mp h
  have hw₆ : v = { w₅ with heap := put w₅.heap m (some ⟨k + 1, .mod x⟩) } := by
    have hexec := act_ends.mp hunlock
    simp only [Op.exec, modAt_of_get hcell₅, unrefAll_shared hcell₅, Option.bind_eq_bind,
      Option.bind_some, Option.some.injEq, Prod.mk.injEq, true_and] at hexec
    exact hexec.symm
  have hcell₆ : get v.heap m = some ⟨k + 1, .mod x⟩ := by
    rw [hw₆, get_put_self hcell₅]
  refine ⟨fun hall => hyes (hall.imp_left fun hevery => ?_),
    (hkeeps₁.trans hkeeps₅).trans (KeepsSources.put_same hcell₅ hw₆), modAt_of_get hcell₆, ?_⟩
  · rw [Prog.every_bind_of_ends hlock, Prog.every_bind_of_ends hfunc] at hevery
    exact hevery.2.1
  · intro Q hQ
    rw [Prog.every_bind_of_ends hlock, Prog.every_bind_of_ends hfunc,
      Prog.every_bind_of_ends hunlock, act_every, act_every]
    exact ⟨hQ.ref m _, hevery Q hQ, hQ.unref m _, Prog.every_pure⟩

end Tail

/-! ## From the sources on -/

/-- The call once the pipe is there. -/
def startSrcs (m : ℕ) (starting : Bool) : Lm ℤ := do
  let c := (← derefMod m).ctx
  let ret ← manageSrcs m c .add false MSrcType.all 0
  if ret ≠ 0 then return ret
  act (.markRunning m)
  let ret ← if starting then optionalHook m .start else pure ret
  if ret = 0 then
    let _ ← tellSystemPubsubMsg none c (some m) M_PS_MOD_STARTED
    return ret
  if ret = -1 then
    let _ ← stop m true
    return 0
  return ret

section Srcs

variable {depth m : ℕ} {w v u : World} {x : Mod} {ret : ℤ} {starting : Bool}

theorem start_true : start m true = (do
    let ret ← initPubsubFd m
    if ret ≠ 0 then return ret
    startSrcs m true) := rfl

theorem start_false : start m false = startSrcs m false := rfl

theorem ofTail_not_fails : OfTail fun step => ¬ Fails step where
  get := by rintro w ⟨o, hact, hfails⟩; cases hact; exact hfails
  halt := by rintro w ⟨o, ⟨⟩, -⟩
  ref := by rintro m w ⟨o, hact, hfails⟩; cases hact; exact hfails
  unref := by rintro m w ⟨o, hact, hfails⟩; cases hact; exact hfails
  setCtx := by rintro c field w ⟨o, hact, hfails⟩; cases hact; exact hfails
  markRunning := by rintro m w ⟨o, hact, hfails⟩; cases hact; exact hfails
  tell := by rintro m msg sub w ⟨o, hact, hfails⟩; cases hact; exact hfails
  hook := by rintro h w ⟨o, ⟨⟩, -⟩

theorem ofReads_not_closesTwice : OfReads fun step => ¬ ClosesTwice step where
  get := by rintro w ⟨fd, ⟨⟩, -⟩
  halt := by rintro w ⟨fd, ⟨⟩, -⟩

theorem callsNothing_of_answersYes {step : Step LibLang World} (h : AnswersYes step) :
    CallsNothing step := fun hook hact => (h hook hact).1

/-- A source can be armed when none of the steps for it fails. -/
theorem armSteps_not_fails {c t : ℕ} {s : EvSource} {y : Ctx} (hs : srcAt w.heap t = some s)
    (hy : ctxAt w.heap c = some y) :
    ArmSteps (fun step => ¬ Fails step) c w t s ↔ CanArm c w t s := by
  have hpoll : ¬ Fails ⟨.op (.pollSetNewEvt c t .add), w⟩ ↔
      (pollSetNewEvt c t s .add w.sys).1 = 0 := by
    have hexec : w.pollSetEvt c t .add =
        some ((pollSetNewEvt c t s .add w.sys).1, w.polled c t s) := by
      simp only [World.pollSetEvt, hs, hy, Option.bind_eq_bind, Option.bind_some]
      rw [World.setSrc, hs]
      rfl
    constructor
    · intro hnot
      by_contra hne
      exact hnot ⟨_, rfl, _, _, hexec, hne⟩
    · rintro hzero ⟨o, hact, hfails⟩
      cases hact
      obtain ⟨r, v, hset, hne⟩ := hfails
      rw [hexec] at hset
      cases hset
      exact hne hzero
  have hthread : ¬ Fails ⟨.op .threadAdd, w.polled c t s⟩ ↔
      (w.polled c t s).sys.fault.1 = 0 := by
    constructor
    · intro hnot
      by_contra hne
      exact hnot ⟨_, rfl, hne⟩
    · rintro hzero ⟨o, hact, hfails⟩
      cases hact
      exact hfails hzero
  rw [ArmSteps, hpoll, hthread, CanArm, World.arm]
  split
  next hboth => exact ⟨fun h => h.2 hboth, fun h => ⟨hboth.1, fun _ => h⟩⟩
  next hnot => exact ⟨fun h => h.1, fun h => ⟨h, fun hboth => absurd hboth hnot⟩⟩

theorem eachArm_not_fails {c : ℕ} {y : Ctx} {ts : List ℕ} (hy : ctxAt w.heap c = some y) :
    EachArm c (ArmSteps (fun step => ¬ Fails step) c) ts w ↔ EachArm c (CanArm c) ts w := by
  induction ts generalizing w with
  | nil => rfl
  | cons t ts ih =>
      have hnext : ∀ s, srcAt w.heap t = some s →
          (ArmSteps (fun step => ¬ Fails step) c w t s ∧
            EachArm c (ArmSteps (fun step => ¬ Fails step) c) ts (w.arm c t s).2 ↔
          CanArm c w t s ∧ EachArm c (CanArm c) ts (w.arm c t s).2) := by
        intro s hs
        rw [armSteps_not_fails hs hy, ih ((ctxAt_arm c).trans hy)]
      exact forall_congr' fun s => forall_congr' fun hs => hnext s hs

theorem settled_of_ends {α : Type} {p : Lm α} {a : α} (hs : Settled w.heap)
    (h : p.Ends (handler depth) w a v) : Settled v.heap :=
  ((later_ends h).pays hs).settled

theorem markRunning_exec (hx : modAt w.heap m = some x)
    (h : (act (.markRunning m)).Ends (handler depth) w () v) :
    KeepsSources w v ∧ modAt v.heap m = some { x with state := .running } := by
  have hexec := act_ends.mp h
  simp only [Op.exec, hx, Option.bind_eq_bind, Option.bind_some, Option.bind_eq_some_iff,
    Option.some.injEq, Prod.mk.injEq, true_and] at hexec
  obtain ⟨u, hmod, z, hctx, rfl⟩ := hexec
  have hstate := @KeepsSources.setMod w u m (fun y => { y with state := .running }) (fun _ => rfl)
    hmod
  refine ⟨hstate.trans (KeepsSources.setCtx hctx), ?_⟩
  obtain ⟨-, rfl⟩ := World.setMod_eq_some.mp hmod
  obtain ⟨-, rfl⟩ := World.setCtx_eq_some.mp hctx
  rw [modAt_modify_ctx, modAt_modify_mod, if_pos rfl, hx]
  rfl

/-- What follows the sources when all went well. -/
def announceStart (m c : ℕ) (starting : Bool) : Lm ℤ := do
  act (.markRunning m)
  let ret : ℤ ← if starting then optionalHook m .start else pure 0
  if ret = 0 then
    let _ ← tellSystemPubsubMsg none c (some m) M_PS_MOD_STARTED
    return ret
  if ret = -1 then
    let _ ← stop m true
    return 0
  return ret

theorem announceStart_ends {c : ℕ} (hs : Settled w.heap) (hx : modAt w.heap m = some x)
    (hyes : (announceStart m c starting).Every (handler depth) AnswersYes w)
    (h : (announceStart m c starting).Ends (handler depth) w ret v) :
    ret = 0 ∧ KeepsSources w v ∧
      ∀ Q, OfTail Q → (announceStart m c starting).Every (handler depth) Q w := by
  unfold announceStart at h hyes ⊢
  rw [Prog.ends_bind] at h
  obtain ⟨_, u, hmark, h⟩ := h
  rw [Prog.every_bind_of_ends hmark] at hyes
  obtain ⟨hkeeps, hx'⟩ := markRunning_exec hx hmark
  have htold : ∀ {z : World}, (do
      let _ ← tellSystemPubsubMsg none c (some m) M_PS_MOD_STARTED
      return 0 : Lm ℤ).Ends (handler depth) z ret v → ret = 0 ∧ KeepsSources z v ∧
        ∀ Q, OfTail Q → (do
          let _ ← tellSystemPubsubMsg none c (some m) M_PS_MOD_STARTED
          return 0 : Lm ℤ).Every (handler depth) Q z := by
    intro z htell
    rw [Prog.ends_bind] at htell
    obtain ⟨_, _, htell, hret⟩ := htell
    obtain ⟨rfl, rfl⟩ := Prog.ends_pure.mp hret
    refine ⟨rfl, keepsSources_tellSystem htell, fun Q hQ => ?_⟩
    rw [Prog.every_bind_of_ends htell]
    exact ⟨hQ.toOfReads.tellSystemPubsubMsg_every hQ.tell _ _ _, Prog.every_pure⟩
  cases starting with
  | false =>
      obtain ⟨hret, htail, hevery⟩ := htold h
      refine ⟨hret, hkeeps.trans htail, fun Q hQ => ?_⟩
      rw [Prog.every_bind_of_ends hmark, act_every]
      exact ⟨hQ.markRunning m w, hevery Q hQ⟩
  | true =>
      rw [if_pos rfl, Prog.ends_bind] at h
      obtain ⟨r, z, hhook, h⟩ := h
      rw [if_pos rfl, Prog.every_bind_of_ends hhook] at hyes
      have hquiet : (optionalHook m .start).Every (handler depth) CallsNothing u :=
        fun step hstep => callsNothing_of_answersYes (hyes.2.1 step hstep)
      obtain ⟨hzero, hkeeps', -, hevery'⟩ := optionalHook_quiet (settled_of_ends hs hmark) hx'
        (by rintro ⟨⟩) hquiet hhook
      obtain rfl := hzero (.inl hyes.2.1)
      obtain ⟨hret, htail, hevery⟩ := htold h
      refine ⟨hret, (hkeeps.trans hkeeps').trans htail, fun Q hQ => ?_⟩
      rw [Prog.every_bind_of_ends hmark, if_pos rfl, Prog.every_bind_of_ends hhook, act_every]
      exact ⟨hQ.markRunning m w, hevery' Q hQ, hevery Q hQ⟩

theorem eachArm_of_forall {c : ℕ} {P : World → ℕ → EvSource → Prop} (hP : ∀ w t s, P w t s)
    (ts : List ℕ) (w : World) : EachArm c P ts w := by
  induction ts generalizing w with
  | nil => trivial
  | cons t ts ih => exact fun s _ => ⟨hP w t s, ih _⟩

theorem armSteps_not_closesTwice {c t : ℕ} {w : World} {s : EvSource} :
    ArmSteps (fun step => ¬ ClosesTwice step) c w t s :=
  ⟨by rintro ⟨fd, ⟨⟩, -⟩, by rintro - ⟨fd, ⟨⟩, -⟩⟩

/-- The call ends with the result of the last source, or else has told that the module
has started. -/
theorem startSrcs_outcome (hs : Settled w.heap) (hx : modAt w.heap m = some x)
    (hyes : (startSrcs m starting).Every (handler depth) AnswersYes w)
    (h : (startSrcs m starting).Ends (handler depth) w ret v) :
    ∃ r z, World.armAll x.ctx x.sources 0 w = some (r, z) ∧
      (r ≠ 0 → ret = r ∧ v = z ∧
        (startSrcs m starting).Every (handler depth) (fun step => ¬ ClosesTwice step) w) ∧
      (r = 0 → ret = 0 ∧ KeepsSources z v) ∧
      ((startSrcs m starting).Every (handler depth) (fun step => ¬ Fails step) w ↔
        EachArm x.ctx (CanArm x.ctx) x.sources w) := by
  have hfails := ofTail_not_fails
  have hcloses := ofReads_not_closesTwice
  unfold startSrcs at h hyes ⊢
  rw [Prog.ends_bind] at h
  obtain ⟨_, u, hread, h⟩ := h
  obtain ⟨hx', hu⟩ := derefMod_ends.mp hread
  obtain rfl := hu.symm
  obtain rfl := Option.some.inj (hx.symm.trans hx')
  rw [Prog.ends_bind] at h
  obtain ⟨r, z, hsrcs, h⟩ := h
  obtain ⟨hall, hctx, hevery⟩ := manageSrcs_ends hx hsrcs
  have heach : (manageSrcs m x.ctx .add false MSrcType.all 0).Every (handler depth)
      (fun step => ¬ Fails step) w ↔ EachArm x.ctx (CanArm x.ctx) x.sources w := by
    rw [hevery _ hfails.toOfReads]
    by_cases hnil : x.sources = []
    · exact iff_of_true (by rw [Mod.sources] at hnil; rw [hnil]; trivial) (by rw [hnil]; trivial)
    · obtain ⟨y, hy⟩ := hctx hnil
      exact eachArm_not_fails hy
  refine ⟨r, z, hall, ?_⟩
  rw [Prog.every_bind_of_ends hread, Prog.every_bind_of_ends hsrcs,
    Prog.every_bind_of_ends hread, Prog.every_bind_of_ends hsrcs, heach]
  rw [Prog.every_bind_of_ends hread, Prog.every_bind_of_ends hsrcs] at hyes
  by_cases hr : r = 0
  · subst hr
    obtain ⟨hret, hkeeps, htail⟩ := announceStart_ends (settled_of_ends hs hsrcs)
      ((modAt_armAll hall m).trans hx) hyes.2.2 h
    refine ⟨fun hne => absurd rfl hne, fun _ => ⟨hret, hkeeps⟩, ?_⟩
    exact ⟨fun hboth => hboth.2.1,
      fun hcan => ⟨hfails.toOfReads.derefMod_every m, hcan, htail _ hfails⟩⟩
  · rw [if_pos hr] at h ⊢
    obtain ⟨rfl, rfl⟩ := Prog.ends_pure.mp h
    refine ⟨fun _ => ⟨rfl, rfl, hcloses.derefMod_every m, ?_, Prog.every_pure⟩,
      fun hzero => absurd hzero hr, ?_⟩
    · rw [hevery _ hcloses]
      exact eachArm_of_forall (fun _ _ _ => armSteps_not_closesTwice) _ _
    · exact ⟨fun hboth => hboth.2.1,
        fun hcan => ⟨hfails.toOfReads.derefMod_every m, hcan, Prog.every_pure⟩⟩

end Srcs

/-! ## When it keeps its promise -/

/-- All sources are left as they were, and the last one reports it. -/
def GivesUp (c : ℕ) (ts : List ℕ) (w : World) : Prop :=
  EachArm c (TakesNothing c) ts w ∧ ∀ r v, World.armAll c ts 0 w = some (r, v) → r ≠ 0

section Contract

variable {m : ℕ} {w u z v : World} {x y : Mod} {ret r : ℤ} {steps : List (Step LibLang World)}

/-- The pipe of a module is there before its sources are armed as it is after. -/
theorem pipeOpen_iff (hall : World.armAll x.ctx x.sources 0 u = some (r, z))
    (hkeeps : KeepsSources z v) (hy : y.resources = x.resources) :
    PipeOpen v y ↔ PipeOpen u x := by
  obtain ⟨hsrcs, hfd0, hfd1, -⟩ : y.srcs = x.srcs ∧ y.pubsubFd0 = x.pubsubFd0 ∧
      y.pubsubFd1 = x.pubsubFd1 ∧ y.ctx = x.ctx := by
    simpa [Mod.resources] using hy
  have hwide := widened_armAll hall
  have hfile : ∀ fd, v.sys.file fd = z.sys.file fd := fun fd => by
    rw [Sys.file, Sys.file, hkeeps.files]
  unfold PipeOpen
  rw [hsrcs, hfd0, hfd1]
  constructor
  · rintro ⟨⟨p, hread, hwrite⟩, q, hq, s, hs, htype, hfd⟩
    rw [hfile] at hread hwrite
    rw [hkeeps.srcs] at hs
    obtain ⟨s', hs', htype'⟩ := exists_srcAt_armAll hall hs
    have hps : s'.type = .ps := htype'.trans htype
    obtain ⟨s'', hs'', -, hfd'⟩ := srcAt_armAll hall hs' (by rw [hps]; rfl)
    obtain rfl := Option.some.inj (hs.symm.trans hs'')
    exact ⟨⟨p, hwide.file_back hread (by rintro ⟨⟩) (by rintro ⟨⟩),
      hwide.file_back hwrite (by rintro ⟨⟩) (by rintro ⟨⟩)⟩, q, hq, s', hs', hps,
      hfd'.symm.trans hfd⟩
  · rintro ⟨⟨p, hread, hwrite⟩, q, hq, s, hs, htype, hfd⟩
    obtain ⟨s', hs', htype', hfd'⟩ := srcAt_armAll hall hs (by rw [htype]; rfl)
    refine ⟨⟨p, ?_, ?_⟩, q, hq, s', by rw [hkeeps.srcs, hs'], htype'.trans htype,
      hfd'.trans hfd⟩
    · rw [hfile, hwide.file (by rw [hread]; rintro ⟨⟩), hread]
    · rw [hfile, hwide.file (by rw [hwrite]; rintro ⟨⟩), hwrite]

theorem Armed.keeps {c q : ℕ} (h : Armed z c q) (hkeeps : KeepsSources z v) : Armed v c q := by
  obtain ⟨s, fd, hs, hev, hfd, hwatch⟩ := h
  exact ⟨s, fd, by rw [hkeeps.srcs, hs], hev, hfd, by rwa [hkeeps.epoll]⟩

/-- The promise of a call that gets to the sources, in the state before they are armed. -/
theorem startContract_of_srcs {x₀ : Mod} (hx : modAt u.heap m = some x)
    (hall : World.armAll x.ctx x.sources 0 u = some (r, z))
    (hfail : r ≠ 0 → ret = r ∧ v = z ∧ ∀ step ∈ steps, ¬ ClosesTwice step)
    (hzero : r = 0 → ret = 0 ∧ KeepsSources z v)
    (hsteps : (∀ step ∈ steps, ¬ Fails step) ↔ EachArm x.ctx (CanArm x.ctx) x.sources u) :
    StartContract w v m x₀ ret steps ↔
      (EachArm x.ctx (CanArm x.ctx) x.sources u ∧ PipeOpen u x) ∨
        (r ≠ 0 ∧ AsBefore w z m x₀) := by
  have hreport : (¬ ∃ step ∈ steps, Fails step) ↔ EachArm x.ctx (CanArm x.ctx) x.sources u := by
    rw [← hsteps]
    push Not
    rfl
  by_cases hr : r = 0
  · obtain ⟨rfl, hkeeps⟩ := hzero hr
    obtain ⟨y, hy, hres⟩ := hkeeps.exists_mod ((modAt_armAll hall m).trans hx)
    have hsame : y.srcs = x.srcs ∧ y.ctx = x.ctx := by
      simp only [Mod.resources, Prod.mk.injEq] at hres
      exact ⟨hres.1, hres.2.2.2⟩
    constructor
    · intro hcontract
      obtain ⟨y', hy', hpipe, -⟩ := hcontract.started rfl
      obtain rfl := Option.some.inj (hy.symm.trans hy')
      exact .inl ⟨hreport.mp fun hfails => hcontract.reported hfails rfl,
        (pipeOpen_iff hall hkeeps hres).mp hpipe⟩
    · rintro (⟨hcan, hpipe⟩ | ⟨hne, -⟩)
      · refine ⟨fun _ => ⟨y, hy, (pipeOpen_iff hall hkeeps hres).mpr hpipe, fun q hq => ?_⟩,
          fun hfails => absurd hfails (hreport.mpr hcan), fun hne => absurd rfl hne⟩
        rw [hsame.2]
        have hmem : q ∈ x.sources := by
          rwa [Mod.sources, hsame.1] at hq
        exact (armed_armAll hall hcan hmem).keeps hkeeps
      · exact absurd hr hne
  · obtain ⟨rfl, rfl, hclosed⟩ := hfail hr
    constructor
    · exact fun hcontract => .inr ⟨hr, (hcontract.unchanged hr).1⟩
    · rintro (⟨hcan, -⟩ | ⟨-, hbefore⟩)
      · exact absurd (armAll_eq_zero hall hcan) hr
      · exact ⟨fun hzero => absurd hzero hr, fun _ => hr, fun _ => ⟨hbefore, hclosed⟩⟩

/-- A module is as it was when all its attempts take nothing. -/
theorem asBefore_armAll_iff (hx : modAt w.heap m = some x)
    (hall : World.armAll x.ctx x.sources 0 w = some (r, z)) :
    AsBefore w z m x ↔ EachArm x.ctx (TakesNothing x.ctx) x.sources w := by
  have hsame := (widened_armAll hall).same_iff (fun _ hwatch => hwatch)
    (fun watch hwatch hnot => absurd hwatch hnot)
  rw [takesNothing_iff hall, ← hsame]
  constructor
  · exact fun h => ⟨h.files, h.epoll⟩
  · exact fun h => ⟨⟨x, (modAt_armAll hall m).trans hx, rfl, rfl, rfl, rfl⟩, h.1, h.2⟩

end Contract

end Libmodule
