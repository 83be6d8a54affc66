import Libmodule.Moves
import Libmodule.Procedures

/-!
# Replacing a module

A registration under the name of a module that allows it deregisters that module first.
The deregistration of the last module of a context also gives up the context, which the
registration goes on to use.
-/

namespace Libmodule

open RefHeap Reentrant

/-! ## Contexts that a thread has left -/

/-- The thread has left the context at `c`. -/
def Left (c : ℕ) (_ : Unit) (w : World) (_ : Unit) : Prop :=
  c < w.heap.length ∧ w.tls ≠ some c

theorem kept_left {c : ℕ} {o : Op} (ho : ∀ c, o ≠ .setTls c) : o.Kept .idle (Left c) := by
  intro _ w _ hleft _
  refine ⟨trivial, fun r w' hexec => ?_⟩
  have hsame := Op.sameThread ho hexec
  exact ⟨hleft.1.trans_le hsame.grows, by rw [hsame.tls]; exact hleft.2⟩

theorem kept_left_none {c : ℕ} : (Op.setTls none).Kept .idle (Left c) := by
  intro _ w _ hleft _
  refine ⟨trivial, fun r w' hexec => ?_⟩
  cases hexec
  exact ⟨hleft.1, by simp⟩

section Left

variable {c depth : ℕ}

abbrev RespectsLeft (c depth : ℕ) ⦃α : Type⦄ (p : Lm α) : Prop :=
  Respects depth .idle (Left c) p

theorem Op.respects_left {o : Op} (ho : ∀ c, o ≠ .setTls c) : RespectsLeft c depth (act o) :=
  respects_act (kept_left ho)

theorem ofInner_left (hG : Closed (RespectsLeft c depth))
    (hnotify : ∀ h, RespectsLeft c depth (notify h)) : OfInner (RespectsLeft c depth) := by
  have hlock : ∀ {α : Type} {m : ℕ} {p : Lm α}, RespectsLeft c depth p →
      RespectsLeft c depth (memLock m p) :=
    fun hp => hG.memLock (Op.respects_left (by rintro _ ⟨⟩)) (Op.respects_left (by rintro _ ⟨⟩)) hp
  have hinner : ∀ o : Op, o.Inner → o.Bare → RespectsLeft c depth (act o) := by
    intro o ho _
    exact Op.respects_left (by rintro c rfl; exact ho)
  have hcb : ∀ m evts, RespectsLeft c depth (callPubsubCb m evts) := fun m evts =>
    hG.callPubsubCb hlock (fun _ _ => Op.respects_left (by rintro _ ⟨⟩)) (fun _ _ => hnotify _)
  have hhook : ∀ m req, RespectsLeft c depth (optionalHook m req) := fun m req =>
    hG.optionalHook hlock (fun _ _ => Op.respects_left (by rintro _ ⟨⟩)) hnotify
  have hderegister : ∀ mod fromUser, RespectsLeft c depth (modDeregister mod fromUser) :=
    fun mod fromUser => hG.modDeregister hlock (fun _ _ => Op.respects_left (by rintro _ ⟨⟩))
      (fun m => OfInner.stop hG hinner hcb hhook) (fun _ => Op.respects_left (by rintro _ ⟨⟩))
      (fun _ _ => Op.respects_left (by rintro _ ⟨⟩))
  exact
    { inner := hinner
      callPubsubCb := hcb
      pushEvt := fun m e => hG.pushEvt (fun _ => Op.respects_left (by rintro _ ⟨⟩))
        (Op.respects_left (by rintro _ ⟨⟩)) (hG.bind (Op.respects_left (by rintro _ ⟨⟩)) (hcb m))
      optionalHook := hhook
      mCtxRegister := by
        intro name flags
        refine hG.mCtxRegister ?_
        -- the new context is at a new address
        intro i w g hleft
        have hkept : (Op.newCtx flags).Kept .idle (Left c) := kept_left (by rintro _ ⟨⟩)
        have hnew : (act (.newCtx flags)).Grants (handler depth) .idle w g
            (fun p w' _ => c ≠ p ∧ Left c () w' ()) := by
          refine grants_act (fun _ => ⟨trivial, fun p w' hexec => ?_⟩)
          have hp : w.heap.length = p := (Prod.mk.inj (Option.some.inj hexec)).1
          refine ⟨by have := hleft.1; omega, ?_⟩
          exact (hkept i w g hleft trivial).2 p w' hexec
        refine hnew.bind (fun p w' g' h => ?_)
        have hset : (act (.setTls (some p))).Grants (handler depth) .idle w' g'
            (fun _ => Left c i) := by
          refine grants_act (fun _ => ⟨trivial, fun r v hexec => ?_⟩)
          cases hexec
          exact ⟨h.2.1, fun heq => h.1 (Option.some.inj heq).symm⟩
        exact hset.bind (fun _ _ _ hv => Prog.Grants.pure hv)
      mCtxDeregister := hG.mCtxDeregister (fun c' => hG.bind (respects_act kept_left_none)
        (fun _ => hG.bind (hG.invoke _) (fun _ => hG.bind (Op.respects_left (by rintro _ ⟨⟩))
          (fun _ => hG.pure _))))
      mModRegister := by
        intro name modRef hook flags
        refine hG.mModRegister (fun m => hderegister (some m) false) (fun c' hooks => ?_)
        refine hG.bind (Op.respects_left (by rintro _ ⟨⟩)) (fun r => ?_)
        refine Closed.ite (fun _ => hG.pure _) (fun _ => Closed.ite (fun _ => ?_) (fun _ => hG.pure _))
        exact hG.bind (Op.respects_left (by rintro _ ⟨⟩)) (fun _ => hG.pure _)
      modDeregister := hderegister }

theorem react_left (h : Hook) {w : World} (hleft : Left c () w ()) :
    Left c () (World.react h w).2.2 () := by
  unfold World.react
  split
  next => exact hleft
  next => exact hleft

/-- A thread does not come back to a context that it has left. -/
theorem maintains_left (c depth : ℕ) :
    (machine.handler depth).Maintains .idle (Left c) (fun _ _ => Left c ()) := by
  apply Machine.maintains
  · intro _ h w _ hleft
    exact react_left h hleft
  · intro depth hH
    have hG : Closed (RespectsLeft c depth) :=
      closed_respects hH (fun _ _ _ _ => trivial)
        (fun o ho => kept_left (by rintro c rfl; exact ho)) (fun _ _ _ _ hleft _ => ⟨trivial, hleft⟩)
    exact fun i call w g hleft => Parts.body hG (OfInner.parts hG (ofInner_left hG (fun _ =>
      respects_notify hH (fun _ _ _ hleft _ => ⟨trivial, hleft⟩)))) call i w g hleft

theorem left_invoke {call : Call} {w w' : World} {ret : ℤ} (hleft : Left c () w ())
    (h : (invoke call).Ends (handler depth) w ret w') : Left c () w' () := by
  rw [invoke, Prog.ends_invoke] at h
  exact ((maintains_left c depth).onCall () call w () hleft along_idle).2 ret w' h

end Left

/-- `m_ctx_deregister` makes the thread leave its context. -/
theorem left_mCtxDeregister {c depth : ℕ} {w w' : World} (hc : c < w.heap.length)
    (h : (invoke .mCtxDeregister).Ends (handler depth) w 0 w') : Left c () w' () := by
  rw [invoke, Prog.ends_invoke] at h
  cases depth with
  | zero => exact absurd h (by simp [handler, Machine.onCall_zero])
  | succ depth =>
      have hbody : mCtxDeregister.Ends (handler depth) w 0 w' := h
      obtain ⟨c', -, hrest⟩ := ctxAssert_ends le_rfl hbody
      simp only [Prog.ends_bind, derefCtx_ends] at hrest
      obtain ⟨x, _, ⟨-, rfl⟩, hrest⟩ := hrest
      split at hrest
      next =>
        obtain ⟨hret, -⟩ := Prog.ends_pure.mp hrest
        cases hret
      next =>
        simp only [Prog.ends_bind, act_ends] at hrest
        obtain ⟨_, u, hset, ret, v, hiterate, _, t, hunref, hrest⟩ := hrest
        obtain ⟨-, rfl⟩ := Prog.ends_pure.mp hrest
        have hu : Left c () u () := by
          cases hset
          exact ⟨hc, by simp⟩
        have hkept : (Op.unrefCtx c').Kept .idle (Left c) := kept_left (by rintro _ ⟨⟩)
        exact (hkept () v () (left_invoke hu hiterate) trivial).2 _ _ hunref

/-! ## New modules -/

theorem NameTable.get_insertIdx {t : NameTable} {name : String} {value idx : ℕ}
    (ht : t.contains name = false) (hidx : idx ≤ t.length) :
    NameTable.get (t.insertIdx idx (name, value)) name = some value := by
  induction t generalizing idx with
  | nil =>
      obtain rfl : idx = 0 := by simpa using hidx
      simp [NameTable.get]
  | cons entry t ih =>
      simp only [NameTable.contains, List.any_cons, Bool.or_eq_false_iff] at ht
      cases idx with
      | zero => simp [NameTable.get]
      | succ idx =>
          have htail := ih ht.2 (by simpa using hidx)
          simpa [NameTable.get, ht.1] using htail

theorem NameTable.get_put_self {host : Host} {t : NameTable} {name : String} {value : ℕ}
    (ht : t.contains name = false) : (t.put host name value).get name = some value := by
  rw [NameTable.put, ht, if_neg (by simp)]
  exact NameTable.get_insertIdx ht (Nat.min_le_right _ _)

/-- What a successful `newMod` leaves. -/
theorem World.newMod_registered {w w' : World} {c m flags : ℕ} {name : String}
    {hook : Option ModHooks} (h : w.newMod c name flags hook = some ((0, m), w')) :
    m = w.heap.length ∧ (∃ x, modAt w'.heap m = some x ∧ x.ctx = c) ∧
      ∃ y, ctxAt w'.heap c = some y ∧ y.modules.get name = some m := by
  unfold World.newMod World.buildMod at h
  simp only [Option.bind_eq_bind, Option.bind_eq_some_iff] at h
  obtain ⟨u, href, h⟩ := h
  split at h
  next =>
    simp only [Option.bind_eq_some_iff, Option.some.injEq, Prod.mk.injEq] at h
    obtain ⟨_, _, ⟨hret, _⟩, _⟩ := h
    split at hret <;> cases hret
  next =>
    simp only [Option.bind_eq_some_iff] at h
    obtain ⟨⟨ret, v⟩, hput, h⟩ := h
    split at h
    next =>
      simp only [Option.bind_eq_some_iff, Option.some.injEq, Prod.mk.injEq] at h
      obtain ⟨_, _, ⟨hret, _⟩, _⟩ := h
      cases hret
    next hret =>
      simp only [Option.bind_eq_some_iff, Option.some.injEq, Prod.mk.injEq] at h
      obtain ⟨z, hset, ⟨-, hm⟩, rfl⟩ := h
      have hlength : u.heap.length = w.heap.length := by rw [World.length_ref href]
      obtain rfl : m = u.heap.length := hm.symm
      unfold World.modulesPut at hput
      simp only [Option.bind_eq_bind, Option.bind_eq_some_iff] at hput
      obtain ⟨y, hy, x, hx, hput⟩ := hput
      split at hput
      next =>
        cases hput
        exact absurd (show (-EPERM : ℤ) ≠ 0 by decide) hret
      next hname =>
        simp only [Option.bind_eq_some_iff, Option.some.injEq, Prod.mk.injEq] at hput
        obtain ⟨_, hctx, -, rfl⟩ := hput
        obtain ⟨-, rfl⟩ := World.setCtx_eq_some.mp hctx
        obtain ⟨-, rfl⟩ := World.setMod_eq_some.mp hset
        have hnew : modAt (u.new (.mod (Mod.initial c name flags hook))).2.heap u.heap.length =
            some (Mod.initial c name flags hook) := by
          rw [World.new, modAt_alloc, if_pos rfl]
        refine ⟨hlength, ⟨{ Mod.initial c name flags hook with state := .idle }, ?_, rfl⟩,
          { y with modules := y.modules.put u.host name u.heap.length }, ?_, ?_⟩
        · rw [modAt_modify_mod, modAt_modify_ctx, hnew]
          exact if_pos rfl
        · rw [ctxAt_modify_mod, ctxAt_modify_ctx, if_pos rfl, hy]
          rfl
        · exact NameTable.get_put_self (by simpa using hname)

/-! ## Replacements -/

/-- The registration that takes `w` to `w'` has put a new module in the place of `old`. -/
structure Replaced (w w' : World) (c : ℕ) (name : String) (old : ℕ) : Prop where
  current : w'.tls = some c
  live : ∃ x, ctxAt w'.heap c = some x
  registered : ∃ x m y, ctxAt w'.heap c = some x ∧ x.modules.get name = some m ∧
    w.heap.length ≤ m ∧ modAt w'.heap m = some y ∧ y.ctx = c
  zombie : ∀ y, modAt w'.heap old = some y → y.state = .zombie

/-- What `mod_deregister` does with a module before it looks at the context. -/
def removeAndStop (old c : ℕ) (name : String) : Lm Unit := do
  act (.refMod old)
  let _ ← act (.modulesRemove c name)
  let _ ← stop old true
  act (.markZombie old)

/-- The thread keeps the context, because it loops, persists or has other modules. -/
def StaysCurrent (u : World) (c : ℕ) : Prop :=
  u.tls = some c ∧ ∃ y, ctxAt u.heap c = some y ∧
    (y.looping = true ∨ y.modules ≠ [] ∨ hasFlag y.flags M_CTX_PERSIST = true)

section Replaced

variable {depth c old : ℕ} {w w' : World} {name : String}

theorem removeAndStop_ends {w₁ w₂ w₃ u : World} {removed stopped : ℤ} {r r' : Unit}
    (href : (Op.refMod old).exec w = some (r, w₁))
    (hremove : (Op.modulesRemove c name).exec w₁ = some (removed, w₂))
    (hstop : (stop old true).Ends (handler depth) w₂ stopped w₃)
    (hzombie : (Op.markZombie old).exec w₃ = some (r', u)) :
    (removeAndStop old c name).Ends (handler depth) w () u := by
  simp only [removeAndStop, Prog.ends_bind, act_ends]
  exact ⟨r, w₁, href, removed, w₂, hremove, stopped, w₃, hstop, hzombie⟩

/-- A successful deregistration, up to the point where it looks at the context. -/
theorem modDeregister_cases
    (hend : (modDeregister (some old) false).Ends (handler depth) w 0 w') :
    ∃ x u y t, modAt w.heap old = some x ∧ w.tls = some x.ctx ∧
      (removeAndStop old x.ctx x.name).Ends (handler depth) w () u ∧
      ctxAt u.heap x.ctx = some y ∧ (Op.unrefMod old).exec t = some ((), w') ∧
      (if y.looping = false ∧ y.modules = [] ∧ !hasFlag y.flags M_CTX_PERSIST then
        (invoke .mCtxDeregister).Ends (handler depth) u 0 t else t = u) := by
  obtain ⟨m, x, hm, hx, -, htls, h⟩ := modAssert_ends le_rfl hend
  cases hm
  simp only [Prog.ends_bind, derefMod_ends, derefCtx_ends] at h
  obtain ⟨_, _, ⟨hx', rfl⟩, _, _, ⟨-, rfl⟩, h⟩ := h
  obtain rfl : _ = x := Option.some.inj (hx'.symm.trans hx)
  split at h
  next =>
    obtain ⟨hret, -⟩ := Prog.ends_pure.mp h
    cases hret
  next =>
    simp only [memLock, Prog.ends_bind, act_ends] at h
    obtain ⟨_, w₁, href, ret, t, ⟨removed, w₂, hremove, h⟩, _, _, hunref, hret⟩ := h
    obtain ⟨rfl, rfl⟩ := Prog.ends_pure.mp hret
    split at h
    next hremoved =>
      obtain ⟨rfl, -⟩ := Prog.ends_pure.mp h
      exact absurd rfl hremoved
    next hremoved =>
      obtain rfl : removed = 0 := not_not.mp hremoved
      simp only [Prog.ends_bind, act_ends] at h
      obtain ⟨stopped, w₃, hstop, _, u, hzombie, h⟩ := h
      simp only [Bool.false_eq_true, if_false, Prog.ends_bind, derefCtx_ends] at h
      obtain ⟨y, _, ⟨hy, rfl⟩, h⟩ := h
      refine ⟨_, _, y, t, hx, htls, removeAndStop_ends href hremove hstop hzombie, hy, hunref, ?_⟩
      split at h
      next hempty =>
        rw [if_pos hempty]
        exact h
      next hempty =>
        rw [if_neg hempty]
        exact (Prog.ends_pure.mp h).2

/-- A successful registration under the name of another module. -/
theorem mModRegister_cases {modRef : Bool} {hook : Option ModHooks} {flags : ℕ} {x : Ctx}
    (htls : w.tls = some c) (hx : ctxAt w.heap c = some x) (hold : x.modules.get name = some old)
    (hend : (mModRegister name modRef hook flags).Ends (handler depth) w 0 w') :
    ∃ v m v', (modDeregister (some old) false).Ends (handler depth) w 0 v ∧
      v.newMod c name flags (findHooks v.host name hook) = some ((0, m), v') ∧
      (if modRef then (Op.refMod m).exec v' = some ((), w') else w' = v') := by
  unfold mModRegister at hend
  split at hend
  next =>
    obtain ⟨hret, -⟩ := Prog.ends_pure.mp hend
    cases hret
  next =>
    split at hend
    next =>
      obtain ⟨hret, -⟩ := Prog.ends_pure.mp hend
      cases hret
    next =>
      obtain ⟨c', htls', h⟩ := ctxAssert_ends le_rfl hend
      obtain rfl : c = c' := Option.some.inj (htls.symm.trans htls')
      simp only [Prog.ends_bind, derefCtx_ends] at h
      obtain ⟨x', _, ⟨hx', rfl⟩, h⟩ := h
      obtain rfl : x = x' := Option.some.inj (hx.symm.trans hx')
      split at h
      next =>
        obtain ⟨hret, -⟩ := Prog.ends_pure.mp h
        cases hret
      next =>
        simp only [hold, Prog.ends_bind, derefMod_ends] at h
        obtain ⟨y, _, ⟨-, rfl⟩, h⟩ := h
        split at h
        next =>
          simp only [Prog.ends_bind, Prog.ends_pure] at h
          obtain ⟨_, _, ⟨rfl, rfl⟩, h⟩ := h
          rw [if_pos (by decide)] at h
          obtain ⟨hret, -⟩ := Prog.ends_pure.mp h
          cases hret
        next =>
          simp only [Prog.ends_bind] at h
          obtain ⟨ret, v, hderegister, h⟩ := h
          split at h
          next hret =>
            obtain ⟨rfl, -⟩ := Prog.ends_pure.mp h
            exact absurd rfl hret
          next hret =>
            obtain rfl : ret = 0 := not_not.mp hret
            simp only [Prog.ends_bind, getWorld_ends, act_ends] at h
            obtain ⟨_, _, ⟨rfl, rfl⟩, ⟨ret, m⟩, v', hnew, h⟩ := h
            split at h
            next hret =>
              obtain ⟨rfl, -⟩ := Prog.ends_pure.mp h
              exact absurd rfl hret
            next hret =>
              obtain rfl : ret = 0 := not_not.mp hret
              refine ⟨_, m, v', hderegister, hnew, ?_⟩
              split at h
              next href =>
                simp only [Prog.ends_bind, act_ends] at h
                obtain ⟨_, t, hexec, h⟩ := h
                rw [if_pos href, (Prog.ends_pure.mp h).2]
                exact hexec
              next href =>
                rw [if_neg href]
                exact (Prog.ends_pure.mp h).2

theorem length_le_run {α : Type} {p : Lm α} {a : α} (h : p.Ends (handler depth) w a w') :
    w.heap.length ≤ w'.heap.length := by
  have hkeeps : machine.Keeps (fun _ => True) (fun s => w.heap.length ≤ s.heap.length) :=
    { exec := fun o s r s' hs _ hexec => hs.trans (Op.grows hexec)
      react := by
        intro h s hs
        show _ ≤ (World.react h s).2.2.heap.length
        unfold World.react
        split
        next => exact hs
        next => exact hs }
  have hrun := Prog.run_keeps (hkeeps.handler depth) p (show w.heap.length ≤ w.heap.length from le_rfl)
  rw [← h.2]
  exact (hrun (fun _ _ => trivial)).2

theorem World.ref_of_refMod {r : Unit} (h : (Op.refMod old).exec w = some (r, w')) :
    w.ref old = some w' := by
  simp only [Op.exec, Option.bind_eq_bind, Option.bind_eq_some_iff, Option.some.injEq] at h
  obtain ⟨x, -, u, href, h⟩ := h
  cases h
  exact href

theorem World.length_unrefMod {r : Unit} (h : (Op.unrefMod old).exec w = some (r, w')) :
    w'.heap.length = w.heap.length := by
  simp only [Op.exec, Option.bind_eq_bind, Option.bind_eq_some_iff, Option.some.injEq] at h
  obtain ⟨x, -, u, hunref, h⟩ := h
  cases h
  exact World.length_unrefAll hunref

/-- What is a zombie stays one. -/
theorem zombie_of_exec {o : Op} {r : o.Resp} (h : o.exec w = some (r, w'))
    (ho : ∀ x x', o.OnMod old x x' → x.state = .zombie → x'.state = .zombie)
    (hnew : old < w.heap.length) (hz : ∀ y, modAt w.heap old = some y → y.state = .zombie) :
    ∀ y, modAt w'.heap old = some y → y.state = .zombie := by
  intro y hy
  rcases (Op.effect h).mods old y hy with ⟨x, hx, hon⟩ | ⟨hlength, -⟩
  · exact ho x y hon (hz x hx)
  · omega

theorem removeAndStop_zombie {u : World} (h : (removeAndStop old c name).Ends (handler depth) w () u) :
    ∀ y, modAt u.heap old = some y → y.state = .zombie := by
  simp only [removeAndStop, Prog.ends_bind, act_ends] at h
  obtain ⟨_, w₁, -, _, w₂, -, _, w₃, -, hzombie⟩ := h
  obtain ⟨v, hset, h⟩ := Option.map_eq_some_iff.mp hzombie
  cases h
  obtain ⟨-, rfl⟩ := World.setMod_eq_some.mp hset
  intro y hy
  rw [modAt_modify_mod, if_pos rfl] at hy
  obtain ⟨x, -, rfl⟩ := Option.map_eq_some_iff.mp hy
  rfl

end Replaced

/-- A context with one module, to which the user has a reference. -/
def loneModule : World :=
  (machine.runCalls 3
    [.mCtxRegister "ctx" 0, .mModRegister "a" true (some onEvtOnly) M_MOD_ALLOW_REPLACE]
    (startFrom [] [])).state

def loneCtx : Ctx := (ctxAt loneModule.heap 0).get (by decide +kernel)

theorem ctxAt_loneModule : ctxAt loneModule.heap 0 = some loneCtx := (Option.some_get _).symm

def loneMod : Mod := (modAt loneModule.heap 1).get (by decide +kernel)

theorem modAt_loneModule : modAt loneModule.heap 1 = some loneMod := (Option.some_get _).symm

/-- The module is registered once more under its name. -/
def registerAgain : Out LibLang World ℤ :=
  (mModRegister "a" true (some onEvtOnly) 0).run (handler 3) loneModule

end Libmodule
