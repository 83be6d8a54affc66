import Libmodule.OneshotRemoval
import Libmodule.PipeSetup

/-!
# Calls that find no token

Most functions look for a token before they do anything.  The two that replace a timer
spend a token on the old one and another on the new one, with the new settings written in
between; a refusal of the second token leaves them there.
-/

namespace Libmodule

open SearchTree RefHeap Reentrant

/-! ## What a refusal promises -/

/-- What the user has set up in a module: all but the tokens that are left and the pipe. -/
def Mod.config (x : Mod) : Mod :=
  { x with tbTokens := 0, pubsubFd0 := none, pubsubFd1 := none }

def ConfigKept (v : World) (m : ℕ) (x : Mod) : Prop :=
  ∃ x', modAt v.heap m = some x' ∧ x'.config = x.config

/-- The module whose tokens the call spends. -/
def Call.spender : Call → Option ℕ
  | .mModStart mod | .mModPause mod | .mModResume mod | .mModStop mod => mod
  | .mModBind mod _ => mod
  | .mModSetTokenbucket mod _ _ => mod
  | .mModBecome mod _ => mod
  | .mModUnbecome mod => mod
  | .mModStash mod _ => mod
  | .mModUnstash mod _ => mod
  | .mModSetBatchSize mod _ => mod
  | .mModSetBatchTimeout mod _ => mod
  | .mModPsSubscribe mod _ _ _ => mod
  | .mModPsUnsubscribe mod _ => mod
  | .mModPsTell mod _ _ _ => mod
  | .mModPsPublish mod _ _ _ => mod
  | .mModPsPoisonpill mod _ => mod
  | .mModSrcRegister mod _ _ _ _ => mod
  | .mModSrcDeregister mod _ _ => mod
  | _ => none

/-- The search for the key ends at no source. -/
def FindsNothing (w : World) (x : Mod) (type : MSrcType) (key : Words) : Prop :=
  ∀ t gone, treeRemove (w.compareWith type key) (x.srcs type) ≠ some (0, t, gone)

/-- The pipe of the module can be made, and a source for its read end. -/
def PreparesPipe (w : World) (m : ℕ) (x : Mod) : Prop :=
  w.sys.fault.1 = 0 ∧ ∃ u, PipePrepared w m x u

/-- The state of the module from which a refused call has nothing to undo. -/
def Call.RefusedWhole (w : World) (m : ℕ) (x : Mod) : Call → Prop
  | .mModStart _ => x.tbTokens = 0 ∨
      ¬ PreparesPipe (w.takeToken m x) m { x with tbTokens := x.tbTokens - 1 }
  | .mModSrcRegister .. => x.tbTokens = 0
  | .mModSetBatchTimeout _ ns =>
      ns = x.batchTimer ∧ x.batchLen ≠ 0 ∧
        (x.tbTokens = 0 ∨ x.tbTokens = 1 ∧ FindsNothing w x .tmr (tmrKey ns))
  | .mModSetTokenbucket _ rate burst =>
      rate = x.tbRate ∧ burst = 0 ∧ x.tbBurst = 0 ∧ BILLION / rate = x.tbTimer ∧
        (x.tbTokens = 0 ∨ FindsNothing w x .tmr (tmrKey x.tbTimer))
  | _ => True

/-! ## Checks -/

section Checks

variable {depth m perm : ℕ} {w v : World} {x : Mod} {mod : Option ℕ} {rest : ℕ → Lm ℤ}
  {after : Lm ℤ} {states : List ModState}

theorem modAssert_refused (hx : modAt w.heap m = some x)
    (h : (modAssert (some m) rest).Ends (handler depth) w (-EAGAIN) v) :
    x.state ≠ .zombie ∧ w.Allows x.ctx ∧ (rest m).Ends (handler depth) w (-EAGAIN) v := by
  simp only [modAssert, Prog.ends_bind, derefMod_ends] at h
  obtain ⟨y, _, ⟨hy, rfl⟩, h⟩ := h
  obtain rfl := Option.some.inj (hx.symm.trans hy)
  split at h
  next => cases (Prog.ends_pure.mp h).1
  next hstate =>
    rw [Prog.ends_bind] at h
    obtain ⟨c, u, hc, h⟩ := h
    obtain rfl := mCtx_ends hc
    split at h
    next => cases (Prog.ends_pure.mp h).1
    next hctx =>
      rw [not_not.mp hctx] at hc
      exact ⟨hstate, allows_of_mCtx_ends hc, h⟩

theorem modAssertState_refused (hx : modAt w.heap m = some x)
    (h : (modAssertState (some m) states rest).Ends (handler depth) w (-EAGAIN) v) :
    x.state ∈ states ∧ (rest m).Ends (handler depth) w (-EAGAIN) v := by
  obtain ⟨-, -, hchecked⟩ := modAssert_refused hx h
  simp only [Prog.ends_bind, derefMod_ends] at hchecked
  obtain ⟨y, _, ⟨hy, rfl⟩, hchecked⟩ := hchecked
  obtain rfl := Option.some.inj (hx.symm.trans hy)
  split at hchecked
  next => cases (Prog.ends_pure.mp hchecked).1
  next hstate => exact ⟨not_not.mp hstate, hchecked⟩

theorem modAssertPerm_refused (hx : modAt w.heap m = some x)
    (h : (modAssertPerm (some m) perm rest).Ends (handler depth) w (-EAGAIN) v) :
    (rest m).Ends (handler depth) w (-EAGAIN) v := by
  obtain ⟨-, -, hperm⟩ := modAssert_refused hx h
  simp only [Prog.ends_bind, derefMod_ends] at hperm
  obtain ⟨y, _, ⟨-, rfl⟩, hperm⟩ := hperm
  split at hperm
  next => cases (Prog.ends_pure.mp hperm).1
  next => exact hperm

/-- Without a token nothing happens. -/
theorem consumeToken_refused (hx : modAt w.heap m = some x)
    (h : (consumeToken m after).Ends (handler depth) w (-EAGAIN) v) :
    x.tbTokens = 0 ∧ v = w ∨
      x.tbTokens ≠ 0 ∧ after.Ends (handler depth) (w.takeToken m x) (-EAGAIN) v := by
  by_cases htoken : x.tbTokens = 0
  · unfold consumeToken at h
    simp only [Prog.ends_bind, derefMod_ends] at h
    obtain ⟨y, _, ⟨hy, rfl⟩, h⟩ := h
    obtain rfl := Option.some.inj (hx.symm.trans hy)
    rw [if_pos htoken] at h
    exact .inl ⟨htoken, (Prog.ends_pure.mp h).2⟩
  · exact .inr ⟨htoken, (consumeToken_goesOn hx htoken).ends_iff.mp h⟩

theorem configKept_refl (hx : modAt w.heap m = some x) : ConfigKept w m x := ⟨x, hx, rfl⟩

theorem configKept_takeToken (hx : modAt w.heap m = some x) : ConfigKept (w.takeToken m x) m x :=
  ⟨_, modAt_takeToken hx, rfl⟩

/-- A call whose other results are no refusals changes nothing when it is refused. -/
theorem configKept_consumeToken (hx : modAt w.heap m = some x)
    (h : (consumeToken m after).Ends (handler depth) w (-EAGAIN) v)
    (hafter : after.Ends (handler depth) (w.takeToken m x) (-EAGAIN) v → ConfigKept v m x) :
    ConfigKept v m x := by
  rcases consumeToken_refused hx h with ⟨-, rfl⟩ | ⟨-, h⟩
  · exact configKept_refl hx
  · exact hafter h

end Checks

/-! ## Answers that are no refusals -/

section Answers

variable {depth m c : ℕ} {w v : World} {x : Mod} {ret r : ℤ} {type : MSrcType} {stopping : Bool}

theorem epollDel_answer (s : Sys) (c : ℕ) (fd : Option ℕ) :
    (s.epollDel c fd).1 = 0 ∨ (s.epollDel c fd).1 = -1 := by
  unfold Sys.epollDel
  split
  next => exact .inr rfl
  next => exact .inr rfl
  next =>
    split
    next => exact .inl rfl
    next => exact .inr rfl

theorem pollSetNewEvt_rm_answer (c p : ℕ) (s : EvSource) (sys : Sys) :
    (pollSetNewEvt c p s .rm sys).1 = 0 ∨ (pollSetNewEvt c p s .rm sys).1 = -1 := by
  have hdel := epollDel_answer { sys with errno := 0 } c s.fd
  unfold pollSetNewEvt
  split
  next => exact .inl rfl
  next =>
    dsimp only
    split <;> split <;> first | exact .inl rfl | exact hdel

theorem manageTree_rm_answer {ts : List ℕ}
    (h : (manageTree m c type .rm stopping ts ret).Ends (handler depth) w r v)
    (hret : ret = 0 ∨ ret = -1) : r = 0 ∨ r = -1 := by
  induction ts generalizing ret w with
  | nil =>
      obtain ⟨rfl, -⟩ := Prog.ends_pure.mp h
      exact hret
  | cons t ts ih =>
      unfold manageTree at h
      split at h
      next =>
        have hremoved : ∀ {u : World}, (do
            let ret : ℤ ← act (.bstItrRemove m type)
            manageTree m c type .rm stopping ts ret : Lm ℤ).Ends (handler depth) u r v →
              r = 0 ∨ r = -1 := by
          intro u h
          simp only [Prog.ends_bind, act_ends] at h
          obtain ⟨r₁, z, hexec, h⟩ := h
          refine ih h (.inl ?_)
          simp only [Op.exec, World.bstItrRemove, Option.bind_eq_bind, Option.bind_eq_some_iff,
            Option.some.injEq, Prod.mk.injEq] at hexec
          obtain ⟨_, -, _, -, _, -, rfl, -⟩ := hexec
          rfl
        simp only [Prog.ends_bind, derefSrc_ends] at h
        obtain ⟨s, _, ⟨-, rfl⟩, h⟩ := h
        split at h
        next =>
          obtain ⟨_, _, -, h⟩ := Prog.ends_bind.mp h
          exact hremoved h
        next => exact hremoved h
      next =>
        simp only [Prog.ends_bind, act_ends] at h
        obtain ⟨r₁, u, hset, s, _, -, h⟩ := h
        rw [if_neg (by rintro ⟨-, -, ⟨⟩⟩)] at h
        simp only [Prog.ends_bind, Prog.ends_pure] at h
        obtain ⟨_, _, ⟨rfl, rfl⟩, h⟩ := h
        refine ih h ?_
        simp only [Op.exec, World.pollSetEvt, Option.bind_eq_bind, Option.bind_eq_some_iff,
          Option.some.injEq, Prod.mk.injEq] at hset
        obtain ⟨s', -, _, -, _, -, rfl, -⟩ := hset
        exact pollSetNewEvt_rm_answer _ _ _ _

theorem manageSrcs_rm_answer {types : List MSrcType}
    (h : (manageSrcs m c .rm stopping types ret).Ends (handler depth) w r v)
    (hret : ret = 0 ∨ ret = -1) : r = 0 ∨ r = -1 := by
  induction types generalizing ret w with
  | nil =>
      obtain ⟨rfl, -⟩ := Prog.ends_pure.mp h
      exact hret
  | cons type types ih =>
      unfold manageSrcs at h
      simp only [Prog.ends_bind] at h
      obtain ⟨_, _, -, r₁, u, htree, h⟩ := h
      exact ih h (manageTree_rm_answer htree hret)

theorem optionalHook_answer {req : ModHookReq}
    (h : (optionalHook m req).Ends (handler depth) w r v) : r = 0 ∨ r = -1 ∨ r = -ENOENT := by
  simp only [optionalHook, memLock, Prog.ends_bind, derefMod_ends] at h
  obtain ⟨_, _, -, a, _, ⟨_, _, -, _, _, -, b, _, -, _, _, -, y, _, -, h⟩, _, _, -, hr⟩ := h
  obtain ⟨rfl, -⟩ := Prog.ends_pure.mp hr
  split at h
  next => exact .inr (.inr (Prog.ends_pure.mp h).1)
  next =>
    obtain ⟨rfl, -⟩ := Prog.ends_pure.mp h
    split
    next => exact .inl rfl
    next => exact .inr (.inl rfl)

theorem stop_answer (h : (stop m stopping).Ends (handler depth) w r v) :
    r = 0 ∨ r = -1 ∨ r = -ENOENT := by
  simp only [stop, Prog.ends_bind, derefMod_ends] at h
  obtain ⟨x, _, -, r₁, u, hmanage, h⟩ := h
  split at h
  next =>
    obtain ⟨rfl, -⟩ := Prog.ends_pure.mp h
    rcases manageSrcs_rm_answer hmanage (.inl rfl) with hr | hr
    · exact .inl hr
    · exact .inr (.inl hr)
  next =>
    have hlast : ∀ {r' : ℤ} {z : World}, (do
        if r' = -ENOENT then return r'
        let _ ← tellSystemPubsubMsg none x.ctx (some m) M_PS_MOD_STOPPED
        return 0 : Lm ℤ).Ends (handler depth) z r v → r = 0 ∨ r = -1 ∨ r = -ENOENT := by
      intro r' z h
      split at h
      next hr => exact .inr (.inr ((Prog.ends_pure.mp h).1.trans hr))
      next =>
        obtain ⟨_, _, -, h⟩ := Prog.ends_bind.mp h
        exact .inl (Prog.ends_pure.mp h).1
    rw [Prog.ends_bind] at h
    obtain ⟨_, _, -, h⟩ := h
    split at h
    next =>
      simp only [Prog.ends_bind] at h
      obtain ⟨_, _, -, _, _, -, h⟩ := h
      exact hlast h
    next =>
      rw [Prog.ends_bind] at h
      obtain ⟨_, _, -, h⟩ := h
      exact hlast h

end Answers

/-! ## Starting -/

section Start

variable {depth m c : ℕ} {w v u : World} {x y : Mod} {ret : ℤ} {starting : Bool}

theorem closePipe_config {z : Mod} (hz : modAt u.heap m = some z) (hsame : z.config = x.config)
    (h : (closePipe m y).Ends (handler depth) u ret v) :
    ∃ x', modAt v.heap m = some x' ∧ x'.config = x.config := by
  obtain ⟨-, -, rfl, -⟩ := closePipe_ends h
  refine ⟨ModField.set z .noPubsubFd, ?_, hsame⟩
  rw [modAt_modify_mod, if_pos rfl, hz]
  rfl

/-- The pipe of a module that does not run changes its sources exactly when it is prepared. -/
theorem initPubsubFd_config (hx : modAt w.heap m = some x) (hstate : x.state ≠ .running)
    (h : (initPubsubFd m).Ends (handler depth) w ret v) :
    (PreparesPipe w m x ∧ ∃ x', modAt v.heap m = some x' ∧ x'.srcs ≠ x.srcs) ∨
      ¬ PreparesPipe w m x ∧ ∃ x', modAt v.heap m = some x' ∧ x'.config = x.config := by
  rw [initPubsubFd_eq, Prog.ends_bind] at h
  obtain ⟨r, u, hact, h⟩ := h
  by_cases hfault : w.sys.fault.1 = 0
  · have hexec := pipe_exec hx hfault
    obtain ⟨rfl, rfl⟩ := Prod.mk.inj (Option.some.inj (hexec.symm.trans (act_ends.mp hact)))
    have hpiped := modAt_piped hx
    simp only [if_true, Prog.ends_bind, derefMod_ends] at h
    obtain ⟨y, _, ⟨hy, rfl⟩, r, z, hregister, h⟩ := h
    obtain rfl := Option.some.inj (hpiped.symm.trans hy)
    by_cases hmay : MayRegister (w.piped m) m (x.withPipe w) pipeFlags
    · have hinsert := hmay.goesOn.ends_iff.mp hregister
      have hout := insertSrc_outcome hpiped rfl hinsert
      rcases insertPipeSrc_cases hx hmay hinsert with ⟨rfl, hprepared, -⟩ | ⟨hr, hno, -⟩
      · rw [if_pos rfl] at h
        obtain ⟨-, rfl⟩ := Prog.ends_pure.mp h
        refine .inl ⟨⟨hfault, _, hprepared⟩, ?_⟩
        cases hout with
        | kept hdup htree hidle => exact ⟨_, modAt_inserted hpiped, htree.ne⟩
        | armed hdup htree hrun => exact absurd hrun hstate
        | unarmed hdup htree hrun => exact absurd hrun hstate
        | task hdup htree hrun => exact absurd hrun hstate
      · rw [if_neg hr] at h
        refine .inr ⟨fun hprepares => absurd hprepares.2.choose_spec (hno _), ?_⟩
        cases hout with
        | refused hdup => exact closePipe_config (modAt_refused hpiped) rfl h
        | kept => exact absurd rfl hr
        | armed hdup htree hrun => exact absurd hrun hstate
        | unarmed hdup htree hrun => exact absurd hrun hstate
        | task hdup htree hrun => exact absurd hrun hstate
    · have hnone : ∀ y, ¬ MayRegister (w.piped m) m y pipeFlags := fun y hy => hmay (by
        obtain rfl := Option.some.inj (hpiped.symm.trans hy.there)
        exact hy)
      obtain ⟨hr, ⟨rfl, -⟩ | ⟨hprio, -⟩⟩ := registerModSrc_refused hregister hnone
      · rw [if_neg hr] at h
        refine .inr ⟨fun hprepares => hmay hprepares.2.choose_spec.may, ?_⟩
        exact closePipe_config hpiped rfl h
      · exact absurd (by decide) hprio
  · obtain ⟨hexec, -⟩ := @pipe_exec_failed m w hfault
    obtain ⟨rfl, rfl⟩ := Prod.mk.inj (Option.some.inj (hexec.symm.trans (act_ends.mp hact)))
    rw [if_neg (by decide), Prog.ends_bind] at h
    obtain ⟨e, z, hread, h⟩ := h
    obtain ⟨-, rfl⟩ := Prog.ends_pure.mp h
    obtain ⟨-, rfl⟩ := getErrno_ends.mp hread
    exact .inr ⟨fun hprepares => hfault hprepares.1, x, hx, rfl⟩

/-- The sources are armed without a change to the module; nothing later is a refusal. -/
theorem startSrcs_refused (hx : modAt w.heap m = some x)
    (h : (startSrcs m starting).Ends (handler depth) w (-EAGAIN) v) :
    modAt v.heap m = some x := by
  simp only [startSrcs, Prog.ends_bind, derefMod_ends] at h
  obtain ⟨y, _, ⟨hy, rfl⟩, r, u, hmanage, h⟩ := h
  split at h
  next =>
    obtain ⟨rfl, rfl⟩ := Prog.ends_pure.mp h
    rw [modAt_armAll (manageSrcs_ends hx hmanage).1]
    exact hx
  next hr =>
    have hlast : ∀ {r : ℤ} {z : World}, (r = 0 ∨ r = -1 ∨ r = -ENOENT) → ¬ (do
        if r = 0 then
          let _ ← tellSystemPubsubMsg none y.ctx (some m) M_PS_MOD_STARTED
          return r
        if r = -1 then
          let _ ← stop m true
          return 0
        return r : Lm ℤ).Ends (handler depth) z (-EAGAIN) v := by
      intro r z hanswer h
      split at h
      next hzero =>
        obtain ⟨_, _, -, h⟩ := Prog.ends_bind.mp h
        cases (Prog.ends_pure.mp h).1.trans hzero
      next hzero =>
        split at h
        next =>
          obtain ⟨_, _, -, h⟩ := Prog.ends_bind.mp h
          cases (Prog.ends_pure.mp h).1
        next hone =>
          have hr := (Prog.ends_pure.mp h).1
          rcases hanswer with hr' | hr' | hr'
          · exact hzero hr'
          · exact hone hr'
          · cases hr.trans hr'
    rw [Prog.ends_bind] at h
    obtain ⟨_, z, -, h⟩ := h
    split at h
    next =>
      obtain ⟨r', z', hhook, h⟩ := Prog.ends_bind.mp h
      exact absurd h (hlast (optionalHook_answer hhook))
    next =>
      obtain ⟨r', z', hpure, h⟩ := Prog.ends_bind.mp h
      obtain ⟨rfl, rfl⟩ := Prog.ends_pure.mp hpure
      exact absurd h (hlast (.inl (not_not.mp hr)))

end Start

section States

variable {depth m : ℕ} {w v : World} {x : Mod}

theorem mModStart_refused (hx : modAt w.heap m = some x)
    (h : (mModStart (some m)).Ends (handler depth) w (-EAGAIN) v) :
    ConfigKept v m x ↔ Call.RefusedWhole w m x (.mModStart (some m)) := by
  obtain ⟨hstates, h⟩ := modAssertState_refused hx h
  rcases consumeToken_refused hx h with ⟨htoken, rfl⟩ | ⟨htoken, h⟩
  · exact iff_of_true (configKept_refl hx) (.inl htoken)
  have hx₁ := modAt_takeToken hx
  have hidle : ({ x with tbTokens := x.tbTokens - 1 } : Mod).state ≠ .running := by
    intro hrun
    change x.state = .running at hrun
    rw [hrun] at hstates
    revert hstates
    decide
  rw [Prog.ends_bind] at h
  obtain ⟨r, u, hstart, h⟩ := h
  have hrefused : r = -EAGAIN ∧ u = v := by
    split at h
    next hzero =>
      obtain ⟨_, _, -, h⟩ := Prog.ends_bind.mp h
      cases (Prog.ends_pure.mp h).1.trans hzero
    next =>
      obtain ⟨hr, hv⟩ := Prog.ends_pure.mp h
      exact ⟨hr.symm, hv.symm⟩
  obtain ⟨rfl, rfl⟩ := hrefused
  rw [start_true, Prog.ends_bind] at hstart
  obtain ⟨r, z, hinit, hsrcs⟩ := hstart
  have hsame : modAt u.heap m = modAt z.heap m := by
    split at hsrcs
    next => rw [(Prog.ends_pure.mp hsrcs).2]
    next =>
      rcases initPubsubFd_config hx₁ hidle hinit with ⟨-, y, hy, -⟩ | ⟨-, y, hy, -⟩
      · rw [startSrcs_refused hy hsrcs, hy]
      · rw [startSrcs_refused hy hsrcs, hy]
  rw [ConfigKept, hsame]
  rcases initPubsubFd_config hx₁ hidle hinit with ⟨hprepares, y, hy, hne⟩ | ⟨hno, y, hy, hkept⟩
  · refine iff_of_false ?_ (not_or.mpr ⟨htoken, not_not.mpr hprepares⟩)
    rintro ⟨x', hx', hconfig⟩
    obtain rfl := Option.some.inj (hy.symm.trans hx')
    have hsrcs : y.config.srcs = x.config.srcs := congrArg Mod.srcs hconfig
    exact hne hsrcs
  · exact iff_of_true ⟨y, hy, hkept⟩ (.inr hno)

theorem mModResume_refused (hx : modAt w.heap m = some x)
    (h : (mModResume (some m)).Ends (handler depth) w (-EAGAIN) v) : ConfigKept v m x := by
  obtain ⟨-, h⟩ := modAssertState_refused hx h
  refine configKept_consumeToken hx h (fun h => ?_)
  rw [Prog.ends_bind] at h
  obtain ⟨r, u, hstart, h⟩ := h
  split at h
  next hzero =>
    obtain ⟨_, _, -, h⟩ := Prog.ends_bind.mp h
    cases (Prog.ends_pure.mp h).1.trans hzero
  next =>
    obtain ⟨rfl, rfl⟩ := Prog.ends_pure.mp h
    exact ⟨_, startSrcs_refused (modAt_takeToken hx) hstart, rfl⟩

/-- `stop` answers with no refusal. -/
theorem stopCall_refused {stopping : Bool} {fn : BoundFn} :
    ¬ (do
      let ret ← stop m stopping
      if ret = 0 then
        let _ ← invoke (.modBound fn m 0)
      return ret : Lm ℤ).Ends (handler depth) w (-EAGAIN) v := by
  intro h
  rw [Prog.ends_bind] at h
  obtain ⟨r, u, hstop, h⟩ := h
  have hr : r = -EAGAIN := by
    split at h
    next =>
      obtain ⟨_, _, -, h⟩ := Prog.ends_bind.mp h
      exact (Prog.ends_pure.mp h).1.symm
    next => exact (Prog.ends_pure.mp h).1.symm
  rcases stop_answer hstop with hr' | hr' | hr' <;> cases hr.symm.trans hr'

end States

/-! ## Internal timers -/

section Timers

variable {depth m : ℕ} {w v u : World} {x : Mod} {key : Words} {flags : ℕ} {userptr : Userptr}
  {ret : ℤ} {host : Host} {script : List Reaction} {polls : List PollAnswer} {faults : List ℤ}

/-- What a removal from the tree of a module leaves of the module. -/
theorem bstRemove_tree {type : MSrcType} (hs : Settled w.heap) (hO : SubsOwned w)
    (hx : modAt w.heap m = some x) (h : w.bstRemove m type key = some (ret, v)) :
    ∃ t gone, treeRemove (w.compareWith type key) (x.srcs type) = some (ret, t, gone) ∧
      modAt v.heap m = some { x with srcs := Function.update x.srcs type t } := by
  unfold World.bstRemove at h
  simp only [Option.bind_eq_bind, Option.bind_eq_some_iff, Option.some.injEq, Prod.mk.injEq] at h
  obtain ⟨y, hy, ⟨ret', t, gone⟩, htree, z, hset, v', hunref, rfl, rfl⟩ := h
  obtain rfl := Option.some.inj (hx.symm.trans hy)
  have hafter := modAt_setTree hx hset
  refine ⟨t, gone, htree, ?_⟩
  cases gone with
  | none =>
      obtain rfl : z = v' := by simpa [World.unrefAll, release] using hunref
      exact hafter
  | some q =>
      obtain ⟨hmq, hsrc⟩ := src_of_mem_tree hO hx ((mem_treeRemove htree).2 q rfl)
      have hcell : get z.heap q = get w.heap q := by
        obtain ⟨-, rfl⟩ := World.setMod_eq_some.mp hset
        rw [get_modify, if_neg hmq]
      have hsrc' : ∀ o, val z.heap q = some o → ∃ s, o = .src s := by
        intro o ho
        rw [val, hcell] at ho
        exact hsrc o ho
      have hkept := get_unrefAll_source (settled_setMod hs hset) hsrc' hunref hmq
      rw [modAt, val, hkept, ← val, ← modAt, hafter]

theorem treeRemove_same_iff {actual : ℕ → Option ℤ} {t t' : NodeTree ℕ} {gone : Option ℕ}
    (h : treeRemove actual t = some (ret, t', gone)) :
    t' = t ↔ ∀ t₁ gone, treeRemove actual t ≠ some (0, t₁, gone) := by
  by_cases ht : t = .leaf
  · subst ht
    cases h
    exact iff_of_true rfl (fun _ _ h => by cases h)
  obtain ⟨c, r, hseek, ⟨rfl, rfl, rfl, rfl⟩ | ⟨hr, rfl, rfl, rfl⟩⟩ := (treeRemove_eq_some ht).mp h
  · refine iff_of_true rfl (fun t₁ gone hfound => ?_)
    cases h.symm.trans hfound
  · refine iff_of_false (fun hsame => ?_) (fun hnone => hnone _ _ h)
    obtain rfl := plug_of_seekBy hseek
    cases r with
    | leaf => exact hr rfl
    | node id left value right =>
        have hlength := congrArg (fun t : NodeTree ℕ => t.values.length) hsame
        simp only [Bst.values_plug, values_removeRoot, NodeTree.values_node, List.length_append,
          List.length_cons] at hlength
        omega

/-- The key is read before anything else. -/
theorem modSrcRegister_refused {type : MSrcType} {mod : Option ℕ}
    (h : (modSrcRegister mod type key flags userptr).Ends (handler depth) w (-EAGAIN) v) :
    srcKeyOk w.host.mem type key = some true ∧
      (registerModSrc mod type key flags userptr).Ends (handler depth) w (-EAGAIN) v := by
  simp only [modSrcRegister, Prog.ends_bind, getWorld_ends, orHalt_ends] at h
  obtain ⟨y, _, ⟨rfl, rfl⟩, b, _, ⟨hb, rfl⟩, h⟩ := h
  split at h
  next => cases (Prog.ends_pure.mp h).1
  next hok =>
    cases b with
    | false => exact absurd rfl hok
    | true => exact ⟨hb, h⟩

theorem modSrcDeregister_ends {type : MSrcType} {mod : Option ℕ} (htype : type ≠ .task)
    (hok : srcKeyOk w.host.mem type key = some true)
    (h : (modSrcDeregister mod type key).Ends (handler depth) w ret v) :
    (deregisterModSrc mod type key).Ends (handler depth) w ret v := by
  simp only [modSrcDeregister, if_neg htype, Prog.ends_bind, getWorld_ends, orHalt_ends] at h
  obtain ⟨y, _, ⟨rfl, rfl⟩, b, _, ⟨hb, rfl⟩, h⟩ := h
  obtain rfl := Option.some.inj (hok.symm.trans hb)
  exact h

theorem srcKeyOk_tmr {mem : UserMem} : srcKeyOk mem .tmr key = some true ↔ word64 key 2 ≠ 0 := by
  simp only [srcKeyOk, keyOk, Option.some.injEq, decide_eq_true_iff]

/-- A timer is deregistered with a token, and its tree stays the same when there is none or
no source is found. -/
theorem deregisterTmr_tree (hw : Later (World.initial host script polls faults) w)
    (hx : modAt w.heap m = some x) (hstate : x.state ≠ .zombie) (hctx : w.Allows x.ctx)
    (hkey : word64 key 2 ≠ 0)
    (h : (modSrcDeregister (some m) .tmr key).Ends (handler depth) w ret v) :
    ∃ t, modAt v.heap m = some { x with
        tbTokens := x.tbTokens - 1, srcs := Function.update x.srcs .tmr t } ∧
      (t = x.srcs .tmr ↔ x.tbTokens = 0 ∨ FindsNothing w x .tmr key) := by
  have htmr : MSrcType.tmr ≠ .task := nofun
  replace h := modSrcDeregister_ends htmr (srcKeyOk_tmr.mpr hkey) h
  rw [deregisterModSrc] at h
  replace h := (modAssert_goesOn hx hstate hctx).ends_iff.mp h
  by_cases htoken : x.tbTokens = 0
  · simp only [consumeToken, Prog.ends_bind, derefMod_ends] at h
    obtain ⟨y, _, ⟨hy, rfl⟩, h⟩ := h
    obtain rfl := Option.some.inj (hx.symm.trans hy)
    rw [if_pos htoken] at h
    obtain ⟨-, rfl⟩ := Prog.ends_pure.mp h
    refine ⟨x.srcs .tmr, ?_, iff_of_true rfl (.inl htoken)⟩
    rw [Function.update_eq_self, hx, htoken, Nat.zero_sub, ← htoken]
  · replace h := (consumeToken_goesOn hx htoken).ends_iff.mp h
    have hlater := hw.exec (takeToken_exec hx)
    have hs := (hlater.pays (settled_initial host script polls faults)).settled
    obtain ⟨t, gone, htree, hafter⟩ := bstRemove_tree hs (subsOwned_reached hlater)
      (modAt_takeToken hx) (act_ends.mp h)
    refine ⟨t, hafter, ?_⟩
    have hcompare : (w.takeToken m x).compareWith .tmr key = w.compareWith .tmr key := by
      funext p
      rw [World.compareWith, World.compareWith, World.takeToken, srcAt_modify_mod]
    rw [hcompare] at htree
    rw [treeRemove_same_iff htree]
    simp [htoken, FindsNothing]

/-- A refused registration found no token, or has left its source in the tree. -/
theorem registerModSrc_left {type : MSrcType} (hx : modAt w.heap m = some x)
    (h : (registerModSrc (some m) type key flags userptr).Ends (handler depth) w (-EAGAIN) v) :
    x.tbTokens = 0 ∧ v = w ∨ x.tbTokens ≠ 0 ∧ ∃ x', modAt v.heap m = some x' ∧
      w.heap.length ∈ (x'.srcs type).values := by
  rw [registerModSrc_eq] at h
  obtain ⟨-, -, h⟩ := modAssert_refused hx h
  rcases consumeToken_refused hx h with hrefused | ⟨htoken, h⟩
  · exact .inl hrefused
  refine .inr ⟨htoken, ?_⟩
  split at h
  next => cases (Prog.ends_pure.mp h).1
  next =>
    have htype : (w.callSrc m type key flags userptr).1.type = type :=
      (createdFor_createSrc _ _ _ _ _ _).type
    have hgrown : ∀ {t : NodeTree ℕ}, Grows w x (w.callSrc m type key flags userptr).1.type t →
        ∃ x', modAt (w.inserted m x (w.callSrc m type key flags userptr) t).heap m = some x' ∧
          w.heap.length ∈ (x'.srcs type).values := by
      intro t htree
      refine ⟨_, modAt_inserted hx, ?_⟩
      simp only [htype, Function.update_self]
      exact htree.mem
    have hpolled : ∀ {u : World} {c p : ℕ} {s : EvSource},
        modAt (u.polled c p s).heap m = modAt u.heap m := modAt_modify_src _ _
    generalize hret : (-EAGAIN : ℤ) = ret at h
    cases insertSrc_outcome hx rfl h with
    | refused => cases hret
    | kept hdup htree => exact hgrown htree
    | unarmed hdup htree =>
        rw [hpolled]
        exact hgrown htree
    | armed hdup htree =>
        rw [hpolled]
        exact hgrown htree
    | task hdup htree hrun hpoll htask hstarted hv =>
        rw [hv, hpolled]
        exact hgrown htree

/-- The sources that a module has are older than a source that is made. -/
theorem tree_lt_length (hw : Later (World.initial host script polls faults) w)
    (hx : modAt w.heap m = some x) {type : MSrcType} {q : ℕ} (hq : q ∈ (x.srcs type).values) :
    q < w.heap.length :=
  (((subsOwned_reached hw).sound_mod hx).srcs type q hq).1

end Timers

/-! ## Settings with a timer -/

/-- `m_mod_set_batch_timeout` after the old timer. -/
def setBatchTimeout (m ns : ℕ) : Lm ℤ := do
  act (.setMod m (.batchTimer ns))
  if ns = 0 then return 0
  if (← derefMod m).batchLen = 0 then act (.setMod m (.batchLen SIZE_MAX))
  modSrcRegister (some m) .tmr (tmrKey ns) (M_SRC_INTERNAL ||| M_SRC_PRIO_HIGH) (.batch m)

/-- `m_mod_set_tokenbucket` after the old timer. -/
def setTokenbucket (m rate burst : ℕ) : Lm ℤ := do
  if rate = 0 then
    act (.setMod m (.tb 0 UINT64_MAX UINT64_MAX 0))
    return 0
  act (.setMod m (.tb rate burst burst (BILLION / rate)))
  modSrcRegister (some m) .tmr (tmrKey (BILLION / rate)) (M_SRC_INTERNAL ||| M_SRC_PRIO_HIGH)
    (.tb m)

section Settings

variable {depth m ns rate burst : ℕ} {w v u : World} {x y : Mod} {field : ModField} {ret : ℤ}
  {host : Host} {script : List Reaction} {polls : List PollAnswer} {faults : List ℤ}

theorem mModSetBatchTimeout_eq (mod : Option ℕ) :
    mModSetBatchTimeout mod ns = modAssert mod (fun m => do
      let x ← derefMod m
      if x.batchTimer ≠ 0 then
        let _ ← modSrcDeregister (some m) .tmr (tmrKey x.batchTimer)
      setBatchTimeout m ns) := rfl

theorem mModSetTokenbucket_eq (mod : Option ℕ) :
    mModSetTokenbucket mod rate burst = modAssert mod (fun m => do
      if rate > BILLION then return -EINVAL
      let x ← derefMod m
      if x.tbTimer ≠ 0 then
        let _ ← modSrcDeregister (some m) .tmr (tmrKey x.tbTimer)
      setTokenbucket m rate burst) := rfl

theorem setMod_there (h : (Op.setMod m field).exec u = some ((), v)) :
    ∃ y, modAt u.heap m = some y ∧ modAt v.heap m = some (field.set y) ∧
      v.heap.length = u.heap.length := by
  obtain ⟨_, hset, hpair⟩ := Option.map_eq_some_iff.mp h
  obtain rfl := (Prod.mk.inj hpair).2
  obtain ⟨⟨y, hy⟩, rfl⟩ := World.setMod_eq_some.mp hset
  refine ⟨y, hy, ?_, length_modify _ _ _⟩
  rw [modAt_modify_mod, if_pos rfl, hy]
  rfl

/-- The new timeout is written before the token is looked for. -/
theorem setBatchTimeout_refused
    (h : (setBatchTimeout m ns).Ends (handler depth) u (-EAGAIN) v) :
    ns ≠ 0 ∧ word64 (tmrKey ns) 2 ≠ 0 ∧ ∃ y, modAt u.heap m = some y ∧
      (y.tbTokens = 0 ∧ modAt v.heap m = some { y with
          batchTimer := ns, batchLen := if y.batchLen = 0 then SIZE_MAX else y.batchLen } ∨
        y.tbTokens ≠ 0 ∧ ∃ x', modAt v.heap m = some x' ∧
          u.heap.length ∈ (x'.srcs .tmr).values) := by
  simp only [setBatchTimeout, Prog.ends_bind, act_ends] at h
  obtain ⟨_, z, hset, h⟩ := h
  obtain ⟨y, hy, hz, hlength⟩ := setMod_there hset
  split at h
  next => cases (Prog.ends_pure.mp h).1
  next hns =>
    have hlast : ∀ {z' : World} {y' : Mod}, modAt z'.heap m = some y' → y'.tbTokens = y.tbTokens →
        z'.heap.length = u.heap.length →
        (modSrcRegister (some m) .tmr (tmrKey ns) (M_SRC_INTERNAL ||| M_SRC_PRIO_HIGH)
          (.batch m)).Ends (handler depth) z' (-EAGAIN) v →
        word64 (tmrKey ns) 2 ≠ 0 ∧ (y.tbTokens = 0 ∧ modAt v.heap m = some y' ∨
          y.tbTokens ≠ 0 ∧ ∃ x', modAt v.heap m = some x' ∧
            u.heap.length ∈ (x'.srcs .tmr).values) := by
      intro z' y' hy' htokens hlength h
      obtain ⟨hkey, h⟩ := modSrcRegister_refused h
      refine ⟨srcKeyOk_tmr.mp hkey, ?_⟩
      rw [← htokens, ← hlength]
      rcases registerModSrc_left hy' h with ⟨htoken, rfl⟩ | hleft
      · exact .inl ⟨htoken, hy'⟩
      · exact .inr hleft
    simp only [Prog.ends_bind, derefMod_ends] at h
    obtain ⟨y', _, ⟨hy', rfl⟩, h⟩ := h
    obtain rfl := Option.some.inj (hz.symm.trans hy')
    refine ⟨hns, ?_⟩
    split at h
    next hlen =>
      simp only [Prog.ends_bind, act_ends] at h
      obtain ⟨_, z', hset', h⟩ := h
      obtain ⟨y₁, hy₁, hz', hlength'⟩ := setMod_there hset'
      obtain rfl := Option.some.inj (hz.symm.trans hy₁)
      have hzero : y.batchLen = 0 := hlen
      obtain ⟨hkey, hcases⟩ := hlast hz' rfl (hlength'.trans hlength) h
      refine ⟨hkey, y, hy, ?_⟩
      rw [if_pos hzero]
      exact hcases
    next hlen =>
      have hzero : y.batchLen ≠ 0 := hlen
      obtain ⟨hkey, hcases⟩ := hlast hz rfl hlength h
      refine ⟨hkey, y, hy, ?_⟩
      rw [if_neg hzero]
      exact hcases

/-- The bucket is full when the token is looked for. -/
theorem setTokenbucket_refused
    (h : (setTokenbucket m rate burst).Ends (handler depth) u (-EAGAIN) v) :
    word64 (tmrKey (BILLION / rate)) 2 ≠ 0 ∧ ∃ y, modAt u.heap m = some y ∧
      (burst = 0 ∧ modAt v.heap m = some { y with
          tbRate := rate, tbBurst := burst, tbTokens := burst, tbTimer := BILLION / rate } ∨
        burst ≠ 0 ∧ ∃ x', modAt v.heap m = some x' ∧
          u.heap.length ∈ (x'.srcs .tmr).values) := by
  unfold setTokenbucket at h
  split at h
  next =>
    obtain ⟨_, z, -, h⟩ := Prog.ends_bind.mp h
    cases (Prog.ends_pure.mp h).1
  next =>
    simp only [Prog.ends_bind, act_ends] at h
    obtain ⟨_, z, hset, h⟩ := h
    obtain ⟨y, hy, hz, hlength⟩ := setMod_there hset
    obtain ⟨hkey, h⟩ := modSrcRegister_refused h
    refine ⟨srcKeyOk_tmr.mp hkey, y, hy, ?_⟩
    rw [← hlength]
    rcases registerModSrc_left hz h with ⟨htoken, rfl⟩ | hleft
    · exact .inl ⟨htoken, hz⟩
    · exact .inr hleft

/-- A source made after `w` is in no tree of a module at `w`. -/
theorem not_configKept_of_new (hw : Later (World.initial host script polls faults) w)
    (hx : modAt w.heap m = some x) (hgrows : w.heap.length ≤ u.heap.length) {x' : Mod}
    {type : MSrcType} (hx' : modAt v.heap m = some x')
    (hnew : u.heap.length ∈ (x'.srcs type).values) : ¬ ConfigKept v m x := by
  rintro ⟨y, hy, hconfig⟩
  obtain rfl := Option.some.inj (hx'.symm.trans hy)
  have hsrcs : x'.config.srcs = x.config.srcs := congrArg Mod.srcs hconfig
  have hsame : x'.srcs = x.srcs := hsrcs
  rw [hsame] at hnew
  have := tree_lt_length hw hx hnew
  omega

theorem mModSetBatchTimeout_refused (hw : Later (World.initial host script polls faults) w)
    (hx : modAt w.heap m = some x)
    (h : (mModSetBatchTimeout (some m) ns).Ends (handler depth) w (-EAGAIN) v) :
    ConfigKept v m x ↔ Call.RefusedWhole w m x (.mModSetBatchTimeout (some m) ns) := by
  rw [mModSetBatchTimeout_eq] at h
  obtain ⟨hstate, hctx, h⟩ := modAssert_refused hx h
  simp only [Prog.ends_bind, derefMod_ends] at h
  obtain ⟨x₀, w₀, ⟨hx₀, rfl⟩, h⟩ := h
  obtain rfl := Option.some.inj (hx.symm.trans hx₀)
  have hkept : ∀ {u : World}, w₀.heap.length ≤ u.heap.length →
      (setBatchTimeout m ns).Ends (handler depth) u (-EAGAIN) v → ConfigKept v m x →
      ns = x.batchTimer := by
    intro u hgrows h hconfig
    obtain ⟨-, -, y, -, ⟨-, hv⟩ | ⟨-, x', hx', hnew⟩⟩ := setBatchTimeout_refused h
    · obtain ⟨x', hx', hconfig⟩ := hconfig
      obtain rfl := Option.some.inj (hv.symm.trans hx')
      have hsame := congrArg Mod.batchTimer hconfig
      exact hsame
    · exact absurd hconfig (not_configKept_of_new hw hx hgrows hx' hnew)
  split at h
  next htimer =>
    rw [Prog.ends_bind] at h
    obtain ⟨r, u, hderegister, h⟩ := h
    have hgrows := ((later_ends hderegister).pays
      (hw.pays (settled_initial host script polls faults)).settled).grows
    by_cases hns : ns = x.batchTimer
    · subst hns
      obtain ⟨-, hkey, y, hy, hcases⟩ := setBatchTimeout_refused h
      obtain ⟨t, ht, hsame⟩ := deregisterTmr_tree hw hx hstate hctx hkey hderegister
      obtain rfl := Option.some.inj (ht.symm.trans hy)
      rcases hcases with ⟨htoken, hv⟩ | ⟨htoken, x', hx', hnew⟩
      · have hone : x.tbTokens - 1 = 0 := htoken
        have hiff : ConfigKept v m x ↔ t = x.srcs .tmr ∧ x.batchLen ≠ 0 := by
          constructor
          · rintro ⟨x', hx', hconfig⟩
            obtain rfl := Option.some.inj (hv.symm.trans hx')
            have hsrcs : Function.update x.srcs .tmr t = x.srcs := congrArg Mod.srcs hconfig
            have hlen : (if x.batchLen = 0 then SIZE_MAX else x.batchLen) = x.batchLen :=
              congrArg Mod.batchLen hconfig
            refine ⟨?_, fun hzero => ?_⟩
            · rw [← hsrcs, Function.update_self]
            · rw [if_pos hzero, hzero] at hlen
              cases hlen
          · rintro ⟨rfl, hlen⟩
            refine ⟨_, hv, ?_⟩
            simp only [Mod.config, Function.update_eq_self, if_neg hlen]
        rw [hiff, hsame]
        constructor
        · rintro ⟨htree, hlen⟩
          refine ⟨rfl, hlen, ?_⟩
          by_cases hzero : x.tbTokens = 0
          · exact .inl hzero
          · exact .inr ⟨by omega, htree.resolve_left hzero⟩
        · rintro ⟨-, hlen, hzero | ⟨-, hnothing⟩⟩
          · exact ⟨.inl hzero, hlen⟩
          · exact ⟨.inr hnothing, hlen⟩
      · refine iff_of_false (not_configKept_of_new hw hx hgrows hx' hnew) ?_
        rintro ⟨-, -, hzero | ⟨hone, -⟩⟩
        · exact htoken (by change x.tbTokens - 1 = 0; omega)
        · exact htoken (by change x.tbTokens - 1 = 0; omega)
    · exact iff_of_false (fun hconfig => hns (hkept hgrows h hconfig)) (fun hwhole => hns hwhole.1)
  next htimer =>
    have hns : ns ≠ x.batchTimer := by
      rw [not_not.mp htimer]
      exact (setBatchTimeout_refused h).1
    exact iff_of_false (fun hconfig => hns (hkept le_rfl h hconfig)) (fun hwhole => hns hwhole.1)

theorem mModSetTokenbucket_refused (hw : Later (World.initial host script polls faults) w)
    (hx : modAt w.heap m = some x)
    (h : (mModSetTokenbucket (some m) rate burst).Ends (handler depth) w (-EAGAIN) v) :
    ConfigKept v m x ↔ Call.RefusedWhole w m x (.mModSetTokenbucket (some m) rate burst) := by
  rw [mModSetTokenbucket_eq] at h
  obtain ⟨hstate, hctx, h⟩ := modAssert_refused hx h
  by_cases hrate : rate > BILLION
  · rw [if_pos hrate] at h
    cases (Prog.ends_pure.mp h).1
  simp only [if_neg hrate, Prog.ends_bind, derefMod_ends] at h
  obtain ⟨x₀, w₀, ⟨hx₀, rfl⟩, h⟩ := h
  obtain rfl := Option.some.inj (hx.symm.trans hx₀)
  have hkept : ∀ {u : World}, w₀.heap.length ≤ u.heap.length →
      (setTokenbucket m rate burst).Ends (handler depth) u (-EAGAIN) v → ConfigKept v m x →
      BILLION / rate = x.tbTimer := by
    intro u hgrows h hconfig
    obtain ⟨-, y, -, ⟨-, hv⟩ | ⟨-, x', hx', hnew⟩⟩ := setTokenbucket_refused h
    · obtain ⟨x', hx', hconfig⟩ := hconfig
      obtain rfl := Option.some.inj (hv.symm.trans hx')
      have hsame := congrArg Mod.tbTimer hconfig
      exact hsame
    · exact absurd hconfig (not_configKept_of_new hw hx hgrows hx' hnew)
  split at h
  next htimer =>
    rw [Prog.ends_bind] at h
    obtain ⟨r, u, hderegister, h⟩ := h
    have hgrows := ((later_ends hderegister).pays
      (hw.pays (settled_initial host script polls faults)).settled).grows
    by_cases hns : BILLION / rate = x.tbTimer
    · obtain ⟨hkey, y, hy, hcases⟩ := setTokenbucket_refused h
      rw [hns] at hkey
      obtain ⟨t, ht, hsame⟩ := deregisterTmr_tree hw hx hstate hctx hkey hderegister
      obtain rfl := Option.some.inj (ht.symm.trans hy)
      rcases hcases with ⟨hburst, hv⟩ | ⟨hburst, x', hx', hnew⟩
      · have hiff : ConfigKept v m x ↔ t = x.srcs .tmr ∧ rate = x.tbRate ∧ burst = x.tbBurst := by
          constructor
          · rintro ⟨x', hx', hconfig⟩
            obtain rfl := Option.some.inj (hv.symm.trans hx')
            have hsrcs : Function.update x.srcs .tmr t = x.srcs := congrArg Mod.srcs hconfig
            refine ⟨?_, congrArg Mod.tbRate hconfig, congrArg Mod.tbBurst hconfig⟩
            rw [← hsrcs, Function.update_self]
          · rintro ⟨rfl, rfl, rfl⟩
            refine ⟨_, hv, ?_⟩
            simp only [Mod.config, Function.update_eq_self, hns]
        rw [hiff, hsame]
        constructor
        · rintro ⟨htree, hrate, hsize⟩
          exact ⟨hrate, hburst, hsize.symm.trans hburst, hns, htree⟩
        · rintro ⟨hrate, -, hsize, -, htree⟩
          exact ⟨htree, hrate, hburst.trans hsize.symm⟩
      · exact iff_of_false (not_configKept_of_new hw hx hgrows hx' hnew)
          (fun hwhole => hburst hwhole.2.1)
    · exact iff_of_false (fun hconfig => hns (hkept hgrows h hconfig))
        (fun hwhole => hns hwhole.2.2.2.1)
  next htimer =>
    have hns : BILLION / rate ≠ x.tbTimer := by
      intro hns
      refine (setTokenbucket_refused h).1 ?_
      rw [hns, not_not.mp htimer]
      decide
    exact iff_of_false (fun hconfig => hns (hkept le_rfl h hconfig))
      (fun hwhole => hns hwhole.2.2.2.1)

end Settings

/-! ## The other calls -/

section Calls

variable {depth m c perm : ℕ} {w v : World} {x : Mod} {ret : ℤ} {mod : Option ℕ} {rest : ℕ → Lm ℤ}
  {call : Call} {host : Host} {script : List Reaction} {polls : List PollAnswer} {faults : List ℤ}

theorem modAssert_passed (h : (modAssert mod rest).Ends (handler depth) w (-EAGAIN) v) :
    ∃ r, mod = some r ∧ (rest r).Ends (handler depth) w (-EAGAIN) v := by
  cases mod with
  | none => cases (Prog.ends_pure.mp h).1
  | some r =>
      obtain ⟨y, w₁, hread, -⟩ := Prog.ends_bind.mp h
      exact ⟨r, rfl, (modAssert_refused (derefMod_ends.mp hread).1 h).2.2⟩

theorem sameCtx_refused (h : (sameCtx m mod rest).Ends (handler depth) w (-EAGAIN) v) :
    ∃ r, mod = some r ∧ (rest r).Ends (handler depth) w (-EAGAIN) v := by
  cases mod with
  | none => cases (Prog.ends_pure.mp h).1
  | some r =>
      simp only [sameCtx, Prog.ends_bind, derefMod_ends] at h
      obtain ⟨y, _, ⟨-, rfl⟩, z, _, ⟨-, rfl⟩, h⟩ := h
      split at h
      next => cases (Prog.ends_pure.mp h).1
      next => exact ⟨r, rfl, h⟩

theorem tellPubsubMsg_answer {msg : PsPriv}
    (h : (tellPubsubMsg msg mod c).Ends (handler depth) w ret v) : ret = 0 := by
  unfold tellPubsubMsg at h
  split at h
  next =>
    obtain ⟨_, _, -, h⟩ := Prog.ends_bind.mp h
    exact (Prog.ends_pure.mp h).1
  next =>
    obtain ⟨y, _, -, h⟩ := Prog.ends_bind.mp h
    split at h
    next =>
      obtain ⟨_, _, -, h⟩ := Prog.ends_bind.mp h
      exact (Prog.ends_pure.mp h).1
    next =>
      obtain ⟨_, _, -, h⟩ := Prog.ends_bind.mp h
      exact (Prog.ends_pure.mp h).1

theorem sendMsg_answer {topic : Option String} {message : Option ℕ} {flags : ℕ}
    (h : (sendMsg m mod topic message flags).Ends (handler depth) w ret v) :
    ret = 0 ∨ ret = -EINVAL := by
  unfold sendMsg at h
  split at h
  next => exact .inr (Prog.ends_pure.mp h).1
  next =>
    obtain ⟨y, _, -, h⟩ := Prog.ends_bind.mp h
    exact .inl (tellPubsubMsg_answer h)

theorem subscriptionsPut_answer {topic : String} {flags : ℕ} {userptr : Userptr}
    (h : w.subscriptionsPut m topic flags userptr = some (ret, v)) : ret = 0 := by
  simp only [World.subscriptionsPut, Option.bind_eq_bind, Option.bind_eq_some_iff,
    Option.some.injEq, Prod.mk.injEq] at h
  obtain ⟨_, -, _, -, _, -, rfl, -⟩ := h
  rfl

theorem subscriptionsRemove_answer {topic : String}
    (h : w.subscriptionsRemove m topic = some (ret, v)) :
    ret = 0 ∨ ret = -EINVAL ∨ ret = -ENOENT := by
  unfold World.subscriptionsRemove at h
  obtain ⟨y, -, h⟩ := Option.bind_eq_some_iff.mp h
  split at h
  next =>
    cases h
    exact .inr (.inl rfl)
  next =>
    split at h
    next =>
      cases h
      exact .inr (.inr rfl)
    next =>
      simp only [Option.bind_eq_bind, Option.bind_eq_some_iff, Option.some.injEq,
        Prod.mk.injEq] at h
      obtain ⟨_, -, _, -, rfl, -⟩ := h
      exact .inl rfl

theorem bstRemove_answer {type : MSrcType} {key : Words}
    (h : w.bstRemove m type key = some (ret, v)) : ret = 0 ∨ ret = -EINVAL ∨ ret = -ENOENT := by
  simp only [World.bstRemove, Option.bind_eq_bind, Option.bind_eq_some_iff, Option.some.injEq,
    Prod.mk.injEq] at h
  obtain ⟨y, -, ⟨found, t, gone⟩, htree, _, -, _, -, rfl, -⟩ := h
  by_cases hleaf : y.srcs type = .leaf
  · rw [hleaf] at htree
    cases htree
    exact .inr (.inl rfl)
  · obtain ⟨c, r, -, ⟨-, hret, -⟩ | ⟨-, hret, -⟩⟩ := (treeRemove_eq_some hleaf).mp htree
    · exact .inr (.inr hret)
    · exact .inl hret

/-- No other refusal than for a token. -/
theorem configKept_of_answer {after : Lm ℤ} (hx : modAt w.heap m = some x)
    (h : (consumeToken m after).Ends (handler depth) w (-EAGAIN) v)
    (hafter : ¬ after.Ends (handler depth) (w.takeToken m x) (-EAGAIN) v) : ConfigKept v m x :=
  configKept_consumeToken hx h (fun h => absurd h hafter)

theorem act_return_answer {o : Op} {k : ℤ} (hk : k ≠ -EAGAIN) {u : World} :
    ¬ (do
      let _ ← act o
      return k : Lm ℤ).Ends (handler depth) u (-EAGAIN) v := by
  intro h
  obtain ⟨_, _, -, h⟩ := Prog.ends_bind.mp h
  exact hk (Prog.ends_pure.mp h).1.symm

theorem mModPsSubscribe_refused {topic : Option String} {flags userptr : ℕ}
    (hx : modAt w.heap m = some x)
    (h : (mModPsSubscribe (some m) topic flags userptr).Ends (handler depth) w (-EAGAIN) v) :
    ConfigKept v m x := by
  have h := modAssertPerm_refused hx h
  cases topic with
  | none => cases (Prog.ends_pure.mp h).1
  | some topic =>
      dsimp only at h
      split at h
      next => cases (Prog.ends_pure.mp h).1
      next =>
        generalize (if prioFlags flags = 0 then flags ||| M_SRC_PRIO_NORM else flags) = flags' at h
        refine configKept_consumeToken hx h (fun h => ?_)
        obtain ⟨y, w₁, hread, h⟩ := Prog.ends_bind.mp h
        obtain ⟨-, rfl⟩ := getWorld_ends.mp hread
        split at h
        next =>
          -- an expression that cannot be compiled
          obtain ⟨-, rfl⟩ := Prog.ends_pure.mp h
          exact configKept_takeToken hx
        next =>
          obtain ⟨y, w₁, hread, h⟩ := Prog.ends_bind.mp h
          split at h
          next => cases subscriptionsPut_answer (act_ends.mp h)
          next =>
            obtain ⟨s, w₂, -, h⟩ := Prog.ends_bind.mp h
            split at h
            next => exact absurd h (act_return_answer (by decide))
            next => cases subscriptionsPut_answer (act_ends.mp h)

theorem mModStash_refused {evt : Option ℕ} (hx : modAt w.heap m = some x)
    (h : (mModStash (some m) evt).Ends (handler depth) w (-EAGAIN) v) : ConfigKept v m x := by
  obtain ⟨-, h⟩ := modAssertState_refused hx h
  cases evt with
  | none => cases (Prog.ends_pure.mp h).1
  | some e =>
      refine configKept_of_answer hx h (fun h => ?_)
      obtain ⟨y, w₁, -, h⟩ := Prog.ends_bind.mp h
      have hflags : ∀ {flags : ℕ} {u : World}, ¬ (if hasFlag flags M_SRC_PRIO_HIGH then
            return -EPERM
          else do
            act (.stash m e)
            return 0 : Lm ℤ).Ends (handler depth) u (-EAGAIN) v := by
        intro flags u h
        split at h
        next => cases (Prog.ends_pure.mp h).1
        next => exact act_return_answer (by decide) h
      split at h
      next =>
        obtain ⟨_, _, -, h⟩ := Prog.ends_bind.mp h
        exact hflags h
      next =>
        obtain ⟨_, _, -, h⟩ := Prog.ends_bind.mp h
        exact hflags h

theorem mModUnstash_refused {len : ℕ} (hx : modAt w.heap m = some x)
    (h : (mModUnstash (some m) len).Ends (handler depth) w (-EAGAIN) v) : ConfigKept v m x := by
  obtain ⟨-, h⟩ := modAssertState_refused hx h
  split at h
  next => cases (Prog.ends_pure.mp h).1
  next =>
    refine configKept_of_answer hx h (fun h => ?_)
    obtain ⟨_, _, -, h⟩ := Prog.ends_bind.mp h
    obtain ⟨unstashed, _, -, h⟩ := Prog.ends_bind.mp h
    obtain ⟨_, _, -, h⟩ := Prog.ends_bind.mp h
    have hlength : (-EAGAIN : ℤ) = unstashed.length := (Prog.ends_pure.mp h).1
    simp only [EAGAIN] at hlength
    omega

end Calls

section Refusals

variable {depth m : ℕ} {w v : World} {x : Mod} {call : Call} {host : Host}
  {script : List Reaction} {polls : List PollAnswer} {faults : List ℤ}

theorem mModPause_refused (hx : modAt w.heap m = some x)
    (h : (mModPause (some m)).Ends (handler depth) w (-EAGAIN) v) : ConfigKept v m x := by
  obtain ⟨-, h⟩ := modAssertState_refused hx h
  exact configKept_of_answer hx h stopCall_refused

theorem mModStop_refused (hx : modAt w.heap m = some x)
    (h : (mModStop (some m)).Ends (handler depth) w (-EAGAIN) v) : ConfigKept v m x := by
  obtain ⟨-, h⟩ := modAssertState_refused hx h
  exact configKept_of_answer hx h stopCall_refused

theorem mModBind_refused {ref : Option ℕ} (hx : modAt w.heap m = some x)
    (h : (mModBind (some m) ref).Ends (handler depth) w (-EAGAIN) v) : ConfigKept v m x := by
  obtain ⟨-, -, h⟩ := modAssert_refused hx h
  obtain ⟨r, -, h⟩ := modAssert_passed h
  exact configKept_of_answer hx h (act_return_answer (by decide))

theorem mModBecome_refused {onEvt : ℕ} (hx : modAt w.heap m = some x)
    (h : (mModBecome (some m) onEvt).Ends (handler depth) w (-EAGAIN) v) : ConfigKept v m x := by
  obtain ⟨-, h⟩ := modAssertState_refused hx h
  refine configKept_of_answer hx h (fun h => ?_)
  obtain ⟨y, _, -, h⟩ := Prog.ends_bind.mp h
  exact act_return_answer (by decide) h

theorem mModUnbecome_refused (hx : modAt w.heap m = some x)
    (h : (mModUnbecome (some m)).Ends (handler depth) w (-EAGAIN) v) : ConfigKept v m x := by
  obtain ⟨-, h⟩ := modAssertState_refused hx h
  refine configKept_of_answer hx h (fun h => ?_)
  obtain ⟨y, _, -, h⟩ := Prog.ends_bind.mp h
  split at h
  next => cases (Prog.ends_pure.mp h).1
  next => exact act_return_answer (by decide) h

theorem mModSetBatchSize_refused {len : ℕ} (hx : modAt w.heap m = some x)
    (h : (mModSetBatchSize (some m) len).Ends (handler depth) w (-EAGAIN) v) :
    ConfigKept v m x := by
  obtain ⟨-, -, h⟩ := modAssert_refused hx h
  exact configKept_of_answer hx h (act_return_answer (by decide))

theorem mModPsUnsubscribe_refused {topic : Option String} (hx : modAt w.heap m = some x)
    (h : (mModPsUnsubscribe (some m) topic).Ends (handler depth) w (-EAGAIN) v) :
    ConfigKept v m x := by
  have h := modAssertPerm_refused hx h
  cases topic with
  | none => cases (Prog.ends_pure.mp h).1
  | some topic =>
      refine configKept_of_answer hx h (fun h => ?_)
      rcases subscriptionsRemove_answer (act_ends.mp h) with hr | hr | hr <;> cases hr

theorem mModPsTell_refused {recipient message : Option ℕ} {flags : ℕ}
    (hx : modAt w.heap m = some x)
    (h : (mModPsTell (some m) recipient message flags).Ends (handler depth) w (-EAGAIN) v) :
    ConfigKept v m x := by
  obtain ⟨r, -, h⟩ := sameCtx_refused (modAssertPerm_refused hx h)
  refine configKept_of_answer hx h (fun h => ?_)
  rcases sendMsg_answer h with hr | hr <;> cases hr

theorem mModPsPublish_refused {topic : Option String} {message : Option ℕ} {flags : ℕ}
    (hx : modAt w.heap m = some x)
    (h : (mModPsPublish (some m) topic message flags).Ends (handler depth) w (-EAGAIN) v) :
    ConfigKept v m x := by
  have h := modAssertPerm_refused hx h
  split at h
  next => cases (Prog.ends_pure.mp h).1
  next =>
    refine configKept_of_answer hx h (fun h => ?_)
    rcases sendMsg_answer h with hr | hr <;> cases hr

theorem mModPsPoisonpill_refused {recipient : Option ℕ} (hx : modAt w.heap m = some x)
    (h : (mModPsPoisonpill (some m) recipient).Ends (handler depth) w (-EAGAIN) v) :
    ConfigKept v m x := by
  obtain ⟨r, -, h⟩ := sameCtx_refused (modAssertPerm_refused hx h)
  obtain ⟨y, _, hread, hstate⟩ := Prog.ends_bind.mp h
  obtain ⟨-, rfl⟩ := derefMod_ends.mp hread
  split at hstate
  next => cases (Prog.ends_pure.mp hstate).1
  next =>
    refine configKept_of_answer hx hstate (fun h => ?_)
    obtain ⟨_, _, -, h⟩ := Prog.ends_bind.mp h
    cases tellPubsubMsg_answer h

theorem mModSrcDeregister_refused {type : MSrcType} {key : Words} (hx : modAt w.heap m = some x)
    (h : (modSrcDeregister (some m) type key).Ends (handler depth) w (-EAGAIN) v) :
    ConfigKept v m x := by
  unfold modSrcDeregister at h
  split at h
  next => cases (Prog.ends_pure.mp h).1
  next =>
    simp only [Prog.ends_bind, getWorld_ends, orHalt_ends] at h
    obtain ⟨y, _, ⟨rfl, rfl⟩, b, _, ⟨-, rfl⟩, h⟩ := h
    split at h
    next => cases (Prog.ends_pure.mp h).1
    next =>
      obtain ⟨-, -, h⟩ := modAssert_refused hx h
      refine configKept_of_answer hx h (fun h => ?_)
      rcases bstRemove_answer (act_ends.mp h) with hr | hr | hr <;> cases hr

end Refusals

/-- A module whose bucket holds one token, which the timer of the bucket takes. -/
def emptied : World :=
  (machine.runCalls 8
    [.mCtxRegister "ctx" 0, .mModRegister "a" true (some onEvtOnly) 0, .mModStart (some 1),
      .mModSetTokenbucket (some 1) 1000 1]
    (startFrom [] [])).state

def batchCall : Call := .mModSetBatchTimeout (some 1) 5000

def emptiedMod : Mod := (modAt emptied.heap 1).get (by decide +kernel)

/-- The state after the refusal. -/
def batched : World := ((bodyOf batchCall).run (handler 8) emptied).state

theorem batched_ends : (bodyOf batchCall).Ends (handler 8) emptied (-EAGAIN) batched :=
  ⟨by decide +kernel, rfl⟩

theorem emptiedMod_there : modAt emptied.heap 1 = some emptiedMod := (Option.some_get _).symm

theorem later_emptied : Later (World.initial plainHost [] [] []) emptied :=
  later_run 8 _ _

end Libmodule
