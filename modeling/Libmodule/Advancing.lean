import Libmodule.OpEffects
import Libmodule.Publication
import Libmodule.RunPrefix

/-!
# How runs of the library go on

Reading what is there, a check that passes and an operation that succeeds lead to what
follows them, with no callback on the way.
-/

namespace Libmodule

open RefHeap Reentrant

section Advances

variable {α : Type} {depth : ℕ} {w v : World} {m c : ℕ} {x : Mod} {y : Ctx}

/-- The run of `p` from `w` is that of `q` from `v`, after steps without callbacks. -/
abbrev GoesOn (depth : ℕ) (p : Lm α) (w : World) (q : Lm α) (v : World) : Prop :=
  p.Advances (handler depth) Silent w q v

theorem act_goesOn {o : Op} {a : o.Resp} {f : o.Resp → Lm α}
    (hexec : o.exec w = some (a, v)) : GoesOn depth (act o >>= f) w (f a) v := by
  apply Prog.Advances.perform
  · rw [machine.handler_exec depth]
    exact hexec
  · rintro _ ⟨⟩

theorem getWorld_goesOn {f : World → Lm α} : GoesOn depth (getWorld >>= f) w (f w) w :=
  act_goesOn rfl

theorem derefMod_goesOn {f : Mod → Lm α} (hx : modAt w.heap m = some x) :
    GoesOn depth (derefMod m >>= f) w (f x) w := by
  have hread : GoesOn depth (derefMod m) w (orHalt (modAt w.heap m)) w := getWorld_goesOn
  rw [hx] at hread
  exact hread.pure_bind

theorem derefCtx_goesOn {f : Ctx → Lm α} (hy : ctxAt w.heap c = some y) :
    GoesOn depth (derefCtx c >>= f) w (f y) w := by
  have hread : GoesOn depth (derefCtx c) w (orHalt (ctxAt w.heap c)) w := getWorld_goesOn
  rw [hy] at hread
  exact hread.pure_bind

theorem derefSrc_goesOn {p : ℕ} {s : EvSource} {f : EvSource → Lm α}
    (hs : srcAt w.heap p = some s) : GoesOn depth (derefSrc p >>= f) w (f s) w := by
  have hread : GoesOn depth (derefSrc p) w (orHalt (srcAt w.heap p)) w := getWorld_goesOn
  rw [hs] at hread
  exact hread.pure_bind

theorem derefEvt_goesOn {e : ℕ} {evt : EvtPriv} {f : EvtPriv → Lm α}
    (he : evtAt w.heap e = some evt) : GoesOn depth (derefEvt e >>= f) w (f evt) w := by
  have hread : GoesOn depth (derefEvt e) w (orHalt (evtAt w.heap e)) w := getWorld_goesOn
  rw [he] at hread
  exact hread.pure_bind

/-! ## Runs that end or get to a callback -/

theorem act_goesOn_of_proceeds {o : Op} {f : o.Resp → Lm α}
    (h : (act o >>= f).Proceeds (handler depth) w) :
    ∃ a v, o.exec w = some (a, v) ∧ GoesOn depth (act o >>= f) w (f a) v := by
  obtain ⟨a, v, hexec⟩ := Prog.exec_of_proceeds h
  rw [machine.handler_exec depth] at hexec
  exact ⟨a, v, hexec, act_goesOn hexec⟩

theorem orHalt_of_proceeds {β : Type} {b : Option β} {f : β → Lm α}
    (h : (orHalt b >>= f).Proceeds (handler depth) w) : ∃ a, b = some a := by
  cases b with
  | none => exact absurd h (Prog.not_proceeds_halt f)
  | some a => exact ⟨a, rfl⟩

theorem derefMod_goesOn_of_proceeds {f : Mod → Lm α}
    (h : (derefMod m >>= f).Proceeds (handler depth) w) :
    ∃ x, modAt w.heap m = some x ∧ GoesOn depth (derefMod m >>= f) w (f x) w := by
  have hread : GoesOn depth (derefMod m) w (orHalt (modAt w.heap m)) w := getWorld_goesOn
  obtain ⟨x, hx⟩ := orHalt_of_proceeds (hread.bind.proceeds_iff.mp h)
  exact ⟨x, hx, derefMod_goesOn hx⟩

/-! ## Checks that are passed -/

theorem mCtx_goesOn {f : Option ℕ → Lm α} (h : w.Allows c) :
    GoesOn depth (mCtx >>= f) w (f (some c)) w := by
  obtain ⟨htls, y, hy, hcurr⟩ := h
  have hread : GoesOn depth mCtx w (pure (some c)) w := by
    rw [mCtx]
    apply getWorld_goesOn.trans
    rw [htls]
    apply (derefCtx_goesOn hy).trans
    cases hmod : y.currMod with
    | none => exact .refl
    | some k =>
        obtain ⟨z, hz, hflag⟩ := hcurr k hmod
        apply (derefMod_goesOn hz).trans
        rw [hflag]
        exact .refl
  exact hread.pure_bind

theorem ends_of_goesOn {p : Lm α} {a : α} (h : GoesOn depth (p >>= pure) w (pure a) v) :
    p.Ends (handler depth) w a v := by
  obtain ⟨_, _, hends, hpure⟩ := Prog.ends_bind.mp (h.ends_iff.mpr (Prog.ends_pure.mpr ⟨rfl, rfl⟩))
  obtain ⟨rfl, rfl⟩ := Prog.ends_pure.mp hpure
  exact hends

theorem mCtx_ends_of_allows (h : w.Allows c) : mCtx.Ends (handler depth) w (some c) w :=
  ends_of_goesOn (mCtx_goesOn h)

theorem modAssert_goesOn {rest : ℕ → Lm ℤ} (hx : modAt w.heap m = some x)
    (hstate : x.state ≠ .zombie) (hctx : w.Allows x.ctx) :
    GoesOn depth (modAssert (some m) rest) w (rest m) w := by
  rw [modAssert]
  apply (derefMod_goesOn hx).trans
  rw [if_neg hstate]
  apply (mCtx_goesOn hctx).trans
  rw [if_neg (not_not.mpr rfl)]
  exact .refl

theorem modAssertState_goesOn {states : List ModState} {rest : ℕ → Lm ℤ}
    (hx : modAt w.heap m = some x) (hzombie : x.state ≠ .zombie) (hctx : w.Allows x.ctx)
    (hstate : x.state ∈ states) :
    GoesOn depth (modAssertState (some m) states rest) w (rest m) w := by
  apply (modAssert_goesOn hx hzombie hctx).trans
  apply (derefMod_goesOn hx).trans
  rw [if_neg (not_not.mpr hstate)]
  exact .refl

/-- The module after it has paid for a call. -/
def World.takeToken (w : World) (m : ℕ) (x : Mod) : World :=
  let paid := fun y : Mod => ModField.set y (.tbTokens (x.tbTokens - 1))
  { w with heap := modify w.heap m (Obj.mapMod paid) }

theorem modAt_takeToken (hx : modAt w.heap m = some x) :
    modAt (w.takeToken m x).heap m = some { x with tbTokens := x.tbTokens - 1 } := by
  rw [World.takeToken, modAt_modify_mod, if_pos rfl, hx]
  rfl

theorem takeToken_exec (hx : modAt w.heap m = some x) :
    (Op.setMod m (.tbTokens (x.tbTokens - 1))).exec w = some ((), w.takeToken m x) := by
  simp only [Op.exec, World.setMod, hx, Option.bind_eq_bind, Option.bind_some, Option.map_some]
  rfl

theorem consumeToken_goesOn {rest : Lm ℤ} (hx : modAt w.heap m = some x)
    (htoken : x.tbTokens ≠ 0) :
    GoesOn depth (consumeToken m rest) w rest (w.takeToken m x) := by
  rw [consumeToken]
  apply (derefMod_goesOn hx).trans
  rw [if_neg htoken]
  exact act_goesOn (takeToken_exec hx)

/-! ## Checks in calls that succeed -/

theorem ofReads_silent : OfReads Silent where
  get := by rintro _ _ ⟨⟩
  halt := by rintro _ _ ⟨⟩

variable {mod : Option ℕ} {ret : ℤ}

theorem allows_of_mCtx_ends (h : mCtx.Ends (handler depth) w (some c) v) : w.Allows c := by
  have htls := mCtx_ends_some h
  unfold mCtx at h
  simp only [Prog.ends_bind, getWorld_ends] at h
  obtain ⟨u, w, ⟨rfl, rfl⟩, h⟩ := h
  rw [htls] at h
  simp only [Prog.ends_bind, derefCtx_ends] at h
  obtain ⟨y, w, ⟨hy, rfl⟩, h⟩ := h
  refine ⟨htls, y, hy, fun k hk => ?_⟩
  rw [hk] at h
  simp only [Prog.ends_bind, derefMod_ends] at h
  obtain ⟨z, w, ⟨hz, rfl⟩, h⟩ := h
  refine ⟨z, hz, ?_⟩
  by_contra hflag
  rw [if_pos (by simpa using hflag)] at h
  cases (Prog.ends_pure.mp h).1

theorem modAssert_goesOn_of_ends {rest : ℕ → Lm ℤ} (hret : 0 ≤ ret)
    (h : (modAssert mod rest).Ends (handler depth) w ret v) :
    ∃ m x, mod = some m ∧ modAt w.heap m = some x ∧
      GoesOn depth (modAssert mod rest) w (rest m) w := by
  unfold modAssert at h ⊢
  cases mod with
  | none =>
      obtain ⟨rfl, -⟩ := Prog.ends_pure.mp h
      exact absurd hret (by decide)
  | some m =>
      simp only [Prog.ends_bind, derefMod_ends] at h
      obtain ⟨x, w, ⟨hx, rfl⟩, h⟩ := h
      refine ⟨m, x, rfl, hx, (derefMod_goesOn hx).trans ?_⟩
      split at h
      next =>
        obtain ⟨rfl, -⟩ := Prog.ends_pure.mp h
        exact absurd hret (by decide)
      next hzombie =>
        rw [if_neg hzombie]
        simp only [Prog.ends_bind] at h
        obtain ⟨c, u, hc, h⟩ := h
        have hread : GoesOn depth mCtx w (pure c) u := .of_ends hc ofReads_silent.mCtx_every
        rw [mCtx_ends hc] at hread h
        apply hread.pure_bind.trans
        split at h
        next =>
          obtain ⟨rfl, -⟩ := Prog.ends_pure.mp h
          exact absurd hret (by decide)
        next hctx =>
          rw [if_neg hctx]
          exact .refl

theorem modAssertState_goesOn_of_ends {states : List ModState} {rest : ℕ → Lm ℤ}
    (hret : 0 ≤ ret) (h : (modAssertState mod states rest).Ends (handler depth) w ret v) :
    ∃ m x, mod = some m ∧ modAt w.heap m = some x ∧ x.state ∈ states ∧
      GoesOn depth (modAssertState mod states rest) w (rest m) w := by
  obtain ⟨m, x, hm, hx, hgoes⟩ := modAssert_goesOn_of_ends hret h
  have hrest := hgoes.ends_iff.mp h
  simp only [Prog.ends_bind, derefMod_ends] at hrest
  obtain ⟨y, w, ⟨hy, rfl⟩, hrest⟩ := hrest
  obtain rfl := Option.some.inj (hx.symm.trans hy)
  split at hrest
  next =>
    obtain ⟨rfl, -⟩ := Prog.ends_pure.mp hrest
    exact absurd hret (by decide)
  next hstate =>
    refine ⟨m, x, hm, hx, not_not.mp hstate, hgoes.trans ((derefMod_goesOn hx).trans ?_)⟩
    rw [if_neg hstate]
    exact .refl

theorem consumeToken_goesOn_of_ends {rest : Lm ℤ} (hret : 0 ≤ ret)
    (h : (consumeToken m rest).Ends (handler depth) w ret v) :
    ∃ x, modAt w.heap m = some x ∧ x.tbTokens ≠ 0 ∧
      GoesOn depth (consumeToken m rest) w rest (w.takeToken m x) := by
  unfold consumeToken at h
  simp only [Prog.ends_bind, derefMod_ends] at h
  obtain ⟨x, w, ⟨hx, rfl⟩, h⟩ := h
  split at h
  next =>
    obtain ⟨rfl, -⟩ := Prog.ends_pure.mp h
    exact absurd hret (by decide)
  next htoken => exact ⟨x, hx, htoken, consumeToken_goesOn hx htoken⟩

/-! ## Callbacks that are reached -/

theorem refMod_exec (hx : modAt w.heap m = some x) :
    ∃ v, (Op.refMod m).exec w = some ((), v) ∧ modAt v.heap = modAt w.heap ∧
      ctxAt v.heap = ctxAt w.heap := by
  obtain ⟨cell, hcell, -⟩ := Option.map_eq_some_iff.mp (modAt_eq_some.mp hx)
  have href : w.ref m = some
      { w with heap := put w.heap m (some { cell with refs := cell.refs + 1 }) } := by
    rw [World.ref, hcell]
    rfl
  refine ⟨_, ?_, funext (World.modAt_ref href), funext (World.ctxAt_ref href)⟩
  simp only [Op.exec, hx, href, Option.bind_eq_bind, Option.bind_some]

theorem setCurrMod_goesOn {curr : Option ℕ} {f : Unit → Lm α}
    (hx : modAt w.heap m = some x) (hy : ctxAt w.heap x.ctx = some y) :
    ∃ v, GoesOn depth (setCurrMod m curr >>= f) w (f ()) v ∧ modAt v.heap = modAt w.heap := by
  let set := fun z : Ctx => CtxField.set z (.currMod curr)
  have hexec : (Op.setCtx x.ctx (.currMod curr)).exec w =
      some ((), { w with heap := modify w.heap x.ctx (Obj.mapCtx set) }) := by
    simp only [Op.exec, World.setCtx, hy, Option.bind_eq_bind, Option.bind_some,
      Option.map_some]
    rfl
  have hset : GoesOn depth (setCurrMod m curr) w (pure ())
      { w with heap := modify w.heap x.ctx (Obj.mapCtx set) } :=
    (derefMod_goesOn hx).trans (act_goesOn (f := pure) hexec)
  exact ⟨_, hset.pure_bind, funext (fun p => modAt_modify_ctx w.heap x.ctx p set)⟩

/-- Events that are handed to a module are what its callback gets next. -/
theorem callPubsubCb_firstHook {evts : List ℕ} (hx : modAt w.heap m = some x)
    (hy : ctxAt w.heap x.ctx = some y) (hevts : evts ≠ []) :
    ((callPubsubCb m evts).run (handler depth) w).firstHook =
      some (.onEvt m x.recvs.head? evts) := by
  obtain ⟨v, href, hmods, hctxs⟩ := refMod_exec hx
  rw [← hmods] at hx
  rw [← hctxs] at hy
  obtain ⟨u, hcurr, hmods'⟩ := @setCurrMod_goesOn _ depth v m x y (some m)
    (fun _ => do
      let _ ← notify (.onEvt m (← derefMod m).recvs.head? evts)
      setCurrMod m none) hx hy
  rw [← hmods'] at hx
  unfold callPubsubCb memLock
  rw [if_pos hevts]
  apply Prog.firstHook_bind
  rw [(act_goesOn href).firstHook]
  apply Prog.firstHook_bind
  rw [hcurr.firstHook, (derefMod_goesOn hx).firstHook]
  exact Prog.firstHook_notify _ _ _

end Advances

end Libmodule
