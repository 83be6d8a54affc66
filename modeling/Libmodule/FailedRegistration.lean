import Libmodule.Advancing
import Libmodule.EventErrno
import Libmodule.Replacement

/-!
# Registrations that fail

`m_mod_register` takes the module that it replaces out of its context before it builds the
new one.  Whatever fails afterwards, the old module is gone.
-/

namespace Libmodule

open RefHeap Reentrant

/-! ## What a failed call promises -/

/-- The context holds the modules that it held, in the states that they had, and is still
the context of the thread. -/
structure RegistryKept (w v : World) (c : ℕ) (y : Ctx) : Prop where
  modules : ∃ y', ctxAt v.heap c = some y' ∧ y'.modules = y.modules
  states : ∀ name m x, y.modules.get name = some m → modAt w.heap m = some x →
    ∃ x', modAt v.heap m = some x' ∧ x'.state = x.state
  registered : v.tls = some c

/-- The call takes the module that has the name out of the context. -/
structure Displaces (w : World) (c : ℕ) (y : Ctx) (name : String) (hook : Option ModHooks)
    (old : ℕ) (x : Mod) : Prop where
  named : name ≠ ""
  hooked : hook.map ModHooks.onEvt ≠ some false
  allowed : w.Allows c
  unfinished : y.finalized = false
  taken : y.modules.get name = some old
  there : modAt w.heap old = some x
  replaceable : hasFlag x.flags M_MOD_ALLOW_REPLACE = true
  state : x.state ≠ .zombie
  ctx : x.ctx = c
  leaves : ¬ (hasFlag x.flags M_MOD_PERSIST = true ∧ y.looping = true)
  listed : (y.modules.get x.name).isSome = true

/-! ## A module that is not built -/

section Build

variable {w v u : World} {c m flags : ℕ} {name : String} {hook : Option ModHooks} {ret e : ℤ}

/-- All objects are there as they were, for the same thread. -/
structure Untouched (w v : World) : Prop where
  vals : ∀ p o, val w.heap p = some o → val v.heap p = some o
  tls : v.tls = w.tls

theorem Untouched.refl (w : World) : Untouched w w := ⟨fun _ _ h => h, rfl⟩

theorem Untouched.registryKept {y : Ctx} (h : Untouched w v) (htls : w.tls = some c)
    (hy : ctxAt w.heap c = some y) : RegistryKept w v c y where
  modules := ⟨y, ctxAt_eq_some.mpr (h.vals _ _ (ctxAt_eq_some.mp hy)), rfl⟩
  states := fun _ _ x _ hx => ⟨x, modAt_eq_some.mpr (h.vals _ _ (modAt_eq_some.mp hx)), rfl⟩
  registered := h.tls.trans htls

/-- The half-built module gives back the reference to its context. -/
theorem untouched_drop {x : Mod} (hs : Settled w.heap) (href : w.ref c = some u)
    (howns : (Obj.mod x).owns = [c])
    (hdrop : (u.new (.mod x)).2.unrefAll [u.heap.length] = some v) : Untouched w v := by
  have hlength := World.length_ref href
  obtain ⟨⟨refs, o⟩, hc, hu⟩ := Option.bind_eq_some_iff.mp href
  obtain ⟨k, rfl⟩ : ∃ k, refs = k + 1 := Nat.exists_eq_succ_of_ne_zero (hs c _ hc).ne'
  obtain rfl := Option.some.inj hu
  obtain ⟨⟨heap, sys⟩, hrun, hv⟩ := Option.bind_eq_some_iff.mp hdrop
  obtain rfl := Option.some.inj hv
  have hne : c ≠ (put w.heap c (some ⟨k + 1 + 1, o⟩)).length := by
    rw [length_put]
    exact (lt_length hc).ne
  have hshared : get (alloc (put w.heap c (some ⟨k + 1 + 1, o⟩)) (.mod x)) c =
      some ⟨k + 2, o⟩ := by
    rw [get_alloc, if_neg hne, get_put_self hc]
  have hkept := release_holder (by rw [get_alloc, if_pos rfl]) howns hshared hrun
  refine ⟨fun p b hp => ?_, rfl⟩
  have hlt : p < w.heap.length := by
    obtain ⟨cell, hcell, -⟩ := Option.map_eq_some_iff.mp hp
    exact lt_length hcell
  have hp' : p ≠ (put w.heap c (some ⟨k + 1 + 1, o⟩)).length := by
    rw [length_put]
    exact hlt.ne
  change val heap p = some b
  rw [hkept p hp', val_alloc, if_neg hp', val_put_same hc]
  exact hp

theorem untouched_newMod (hs : Settled w.heap)
    (h : w.newMod c name flags hook = some ((ret, m), v)) (hret : ret ≠ 0) : Untouched w v := by
  have howns : (Obj.mod (Mod.initial c name flags hook)).owns = [c] := rfl
  unfold World.newMod World.buildMod at h
  simp only [Option.bind_eq_bind, Option.bind_eq_some_iff] at h
  obtain ⟨u, href, h⟩ := h
  have hdropped : ∀ {v}, (u.new (.mod (Mod.initial c name flags hook))).2.unrefAll [u.heap.length] =
      some v → Untouched w v := fun hdrop =>
    have hkept := @untouched_drop { w with sys := w.sys.fault.2 } _ u c _ hs href howns hdrop
    ⟨hkept.vals, hkept.tls⟩
  split at h
  next =>
    simp only [Option.bind_eq_some_iff, Option.some.injEq, Prod.mk.injEq] at h
    obtain ⟨v', hdrop, -, rfl⟩ := h
    exact hdropped hdrop
  next =>
    simp only [Option.bind_eq_some_iff] at h
    obtain ⟨⟨put, v'⟩, hput, h⟩ := h
    split at h
    next hfailed =>
      have hsame : v' = (u.new (.mod (Mod.initial c name flags hook))).2 := by
        unfold World.modulesPut at hput
        simp only [Option.bind_eq_bind, Option.bind_eq_some_iff] at hput
        obtain ⟨y, -, z, -, hput⟩ := hput
        split at hput
        next =>
          cases hput
          rfl
        next =>
          simp only [Option.bind_eq_some_iff, Option.some.injEq, Prod.mk.injEq] at hput
          obtain ⟨_, -, rfl, -⟩ := hput
          exact absurd rfl hfailed
      simp only [Option.bind_eq_some_iff, Option.some.injEq, Prod.mk.injEq] at h
      obtain ⟨v'', hdrop, -, rfl⟩ := h
      rw [hsame] at hdrop
      exact hdropped hdrop
    next =>
      simp only [Option.bind_eq_some_iff, Option.some.injEq, Prod.mk.injEq] at h
      obtain ⟨_, -, ⟨rfl, -⟩, -⟩ := h
      exact absurd rfl hret

end Build

/-! ## The module that has the name -/

section Old

variable {depth c old m : ℕ} {w v u t : World} {x : Mod} {y : Ctx} {ret : ℤ} {name : String}

/-- The deregistration gets to the map, and the map has the name. -/
structure Removes (w : World) (c : ℕ) (y : Ctx) (x : Mod) : Prop where
  state : x.state ≠ .zombie
  ctx : x.ctx = c
  allowed : w.Allows c
  leaves : ¬ (hasFlag x.flags M_MOD_PERSIST = true ∧ y.looping = true)
  listed : (y.modules.get x.name).isSome = true

/-- What a module has gone through that was taken out of its context. -/
structure Displaced (depth : ℕ) (w v : World) (c old : ℕ) (name : String) : Prop where
  gone : ∃ u t, (removeAndStop old c name).Ends (handler depth) w () u ∧
    (t = u ∨ (invoke .mCtxDeregister).Ends (handler depth) u 0 t) ∧
    (Op.unrefMod old).exec t = some ((), v)

/-- A context whose deregistration is refused is as it was. -/
theorem mCtxDeregister_refused (h : (invoke .mCtxDeregister).Ends (handler depth) w ret v) :
    ret = 0 ∨ v = w := by
  rw [invoke, Prog.ends_invoke] at h
  cases depth with
  | zero => exact absurd h (by simp [handler, Machine.onCall_zero])
  | succ depth =>
      have hbody : mCtxDeregister.Ends (handler depth) w ret v := h
      unfold mCtxDeregister ctxAssert at hbody
      rw [Prog.ends_bind] at hbody
      obtain ⟨c, u, hc, hbody⟩ := hbody
      obtain rfl := mCtx_ends hc
      cases c with
      | none =>
          obtain ⟨-, rfl⟩ := Prog.ends_pure.mp hbody
          exact .inr rfl
      | some c =>
          simp only [Prog.ends_bind, derefCtx_ends] at hbody
          obtain ⟨z, _, ⟨-, rfl⟩, hbody⟩ := hbody
          split at hbody
          next =>
            obtain ⟨-, rfl⟩ := Prog.ends_pure.mp hbody
            exact .inr rfl
          next =>
            simp only [Prog.ends_bind] at hbody
            obtain ⟨_, _, -, _, _, -, _, _, -, hbody⟩ := hbody
            exact .inl (Prog.ends_pure.mp hbody).1

/-- A lock around what changes nothing. -/
theorem untouched_lock {r r' : Unit} (hs : Settled w.heap)
    (href : (Op.refMod m).exec w = some (r, u)) (hunref : (Op.unrefMod m).exec u = some (r', v)) :
    Untouched w v := by
  have href' := World.ref_of_refMod href
  obtain ⟨⟨refs, o⟩, hm, hu⟩ := Option.bind_eq_some_iff.mp href'
  obtain ⟨k, rfl⟩ : ∃ k, refs = k + 1 := Nat.exists_eq_succ_of_ne_zero (hs m _ hm).ne'
  obtain rfl := Option.some.inj hu
  obtain ⟨-, -, hunref⟩ := Option.bind_eq_some_iff.mp hunref
  obtain ⟨v', hdrop, hv⟩ := Option.bind_eq_some_iff.mp hunref
  obtain rfl := (Prod.mk.inj (Option.some.inj hv)).2
  have hshared := @unrefAll_shared { w with heap := put w.heap m (some ⟨k + 1 + 1, o⟩) } m k o
    (get_put_self hm)
  obtain rfl := Option.some.inj (hshared.symm.trans hdrop)
  refine ⟨fun p b hp => ?_, rfl⟩
  change val (put (put w.heap m (some ⟨k + 1 + 1, o⟩)) m (some ⟨k + 1, o⟩)) p = some b
  rw [val_put_same (get_put_self hm), val_put_same hm]
  exact hp

theorem modulesRemove_refused (hy : ctxAt w.heap c = some y)
    (h : w.modulesRemove c name = some (ret, v)) :
    ret = 0 ∧ (y.modules.get name).isSome = true ∨
      ret ≠ 0 ∧ v = w ∧ ¬ (y.modules.get name).isSome = true := by
  unfold World.modulesRemove at h
  simp only [hy, Option.bind_eq_bind, Option.bind_some] at h
  split at h
  next hnil =>
    cases h
    refine .inr ⟨by decide, rfl, ?_⟩
    rw [hnil]
    rintro ⟨⟩
  next =>
    split at h
    next hnone =>
      cases h
      exact .inr ⟨by decide, rfl, by rw [hnone]; rintro ⟨⟩⟩
    next k hsome =>
      simp only [Option.bind_eq_some_iff, Option.some.injEq, Prod.mk.injEq] at h
      obtain ⟨_, -, _, -, rfl, -⟩ := h
      exact .inl ⟨rfl, by rw [hsome]; rfl⟩

theorem modDeregister_outcome (hs : Settled w.heap) (htls : w.tls = some c)
    (hx : modAt w.heap old = some x) (hy : ctxAt w.heap c = some y)
    (h : (modDeregister (some old) false).Ends (handler depth) w ret v) :
    (Removes w c y x ∧ Displaced depth w v c old x.name) ∨
      (¬ Removes w c y x ∧ ret ≠ 0 ∧ Untouched w v) := by
  unfold modDeregister modAssert at h
  rw [Prog.ends_bind] at h
  obtain ⟨x', _, hread, h⟩ := h
  obtain ⟨hx', rfl⟩ := derefMod_ends.mp hread
  obtain rfl := Option.some.inj (hx.symm.trans hx')
  split at h
  next hzombie =>
    obtain ⟨rfl, rfl⟩ := Prog.ends_pure.mp h
    exact .inr ⟨fun hremoves => hremoves.state hzombie, by decide, .refl _⟩
  next hstate =>
    rw [Prog.ends_bind] at h
    obtain ⟨c', u, hc, h⟩ := h
    obtain rfl := mCtx_ends hc
    split at h
    next hother =>
      obtain ⟨rfl, rfl⟩ := Prog.ends_pure.mp h
      refine .inr ⟨fun hremoves => hother ?_, by decide, .refl _⟩
      rw [(hc.unique (mCtx_ends_of_allows hremoves.allowed)).1, hremoves.ctx]
    next hsame =>
      rw [not_not] at hsame
      rw [hsame] at hc
      have hallowed := allows_of_mCtx_ends hc
      obtain rfl : c = x.ctx := Option.some.inj (htls.symm.trans hallowed.1)
      simp only [Prog.ends_bind, derefMod_ends, derefCtx_ends] at h
      obtain ⟨_, _, ⟨hx'', rfl⟩, _, _, ⟨hy', rfl⟩, h⟩ := h
      obtain rfl := Option.some.inj (hx.symm.trans hx'')
      obtain rfl := Option.some.inj (hy.symm.trans hy')
      split at h
      next hpersist =>
        obtain ⟨rfl, rfl⟩ := Prog.ends_pure.mp h
        exact .inr ⟨fun hremoves => hremoves.leaves hpersist, by decide, .refl _⟩
      next hleaves =>
        simp only [memLock, Prog.ends_bind, act_ends] at h
        obtain ⟨_, w₁, href, r, t, ⟨removed, w₂, hremove, h⟩, _, _, hunref, hret⟩ := h
        obtain ⟨rfl, rfl⟩ := Prog.ends_pure.mp hret
        have hy₁ : ctxAt w₁.heap x.ctx = some y := by
          rw [World.ctxAt_ref (World.ref_of_refMod href)]
          exact hy
        rcases modulesRemove_refused hy₁ hremove with ⟨rfl, hlisted⟩ | ⟨hne, rfl, hnot⟩
        · refine .inl ⟨⟨hstate, rfl, hallowed, hleaves, hlisted⟩, ?_⟩
          rw [if_neg (not_not.mpr rfl)] at h
          simp only [Prog.ends_bind, act_ends] at h
          obtain ⟨stopped, w₃, hstop, _, u, hzombie, h⟩ := h
          have hgone := removeAndStop_ends href hremove hstop hzombie
          simp only [Bool.false_eq_true, if_false, Prog.ends_bind, derefCtx_ends] at h
          obtain ⟨z, _, ⟨-, rfl⟩, h⟩ := h
          split at h
          next =>
            rcases mCtxDeregister_refused h with rfl | rfl
            · exact ⟨_, t, hgone, .inr h, hunref⟩
            · exact ⟨_, _, hgone, .inl rfl, hunref⟩
          next =>
            obtain ⟨-, rfl⟩ := Prog.ends_pure.mp h
            exact ⟨_, _, hgone, .inl rfl, hunref⟩
        · rw [if_pos hne] at h
          obtain ⟨rfl, rfl⟩ := Prog.ends_pure.mp h
          exact .inr ⟨fun hremoves => hnot hremoves.listed, hne, untouched_lock hs href hunref⟩

theorem Displaces.unique {hook : Option ModHooks} {old' : ℕ} {x' : Mod}
    (h : Displaces w c y name hook old' x') (hget : y.modules.get name = some old)
    (hx : modAt w.heap old = some x) : old' = old ∧ x' = x := by
  obtain rfl := Option.some.inj (h.taken.symm.trans hget)
  exact ⟨rfl, Option.some.inj (h.there.symm.trans hx)⟩

theorem Displaces.removes {hook : Option ModHooks} (h : Displaces w c y name hook old x) :
    Removes w c y x :=
  ⟨h.state, h.ctx, h.allowed, h.leaves, h.listed⟩

end Old

/-! ## The whole call -/

section Register

variable {depth c flags : ℕ} {w v : World} {y : Ctx} {ret : ℤ} {name : String} {modRef : Bool}
  {hook : Option ModHooks}

/-- What `m_mod_register` does once the name is free. -/
theorem newMod_failed {t : World}
    (h : Prog.Ends (handler depth) (do
      let u ← getWorld
      let r ← act (.newMod c name flags (findHooks u.host name hook))
      if r.1 ≠ 0 then return r.1
      if modRef then act (.refMod r.2)
      return 0) t ret v) (hret : ret ≠ 0) :
    ∃ m, (Op.newMod c name flags (findHooks t.host name hook)).exec t = some ((ret, m), v) := by
  simp only [Prog.ends_bind, getWorld_ends, act_ends] at h
  obtain ⟨_, _, ⟨rfl, rfl⟩, ⟨r, m⟩, u, hnew, h⟩ := h
  split at h
  next =>
    obtain ⟨rfl, rfl⟩ := Prog.ends_pure.mp h
    exact ⟨m, hnew⟩
  next =>
    split at h
    next =>
      obtain ⟨_, _, -, h⟩ := Prog.ends_bind.mp h
      exact absurd (Prog.ends_pure.mp h).1 hret
    next => exact absurd (Prog.ends_pure.mp h).1 hret

/-- After the module has gone, the call fails at once or it fails to build the new one. -/
def FailsAfter (depth : ℕ) (w v : World) (c old : ℕ) (name own : String) : Prop :=
  ∃ v₁, Displaced depth w v₁ c old own ∧
    (v = v₁ ∨ ∃ flags hooks r, (Op.newMod c name flags hooks).exec v₁ = some (r, v))

theorem mModRegister_failed (hs : Settled w.heap) (htls : w.tls = some c)
    (hy : ctxAt w.heap c = some y)
    (h : (mModRegister name modRef hook flags).Ends (handler depth) w ret v) (hret : ret ≠ 0) :
    ((∀ old x, ¬ Displaces w c y name hook old x) ∧ Untouched w v) ∨
      ∃ old x, Displaces w c y name hook old x ∧ FailsAfter depth w v c old name x.name := by
  unfold mModRegister at h
  split at h
  next hempty =>
    obtain ⟨-, rfl⟩ := Prog.ends_pure.mp h
    exact .inl ⟨fun _ _ hdisplaces => hdisplaces.named hempty, .refl _⟩
  next hnamed =>
    split at h
    next hnull =>
      obtain ⟨-, rfl⟩ := Prog.ends_pure.mp h
      exact .inl ⟨fun _ _ hdisplaces => hdisplaces.hooked hnull, .refl _⟩
    next hhooked =>
      unfold ctxAssert at h
      rw [Prog.ends_bind] at h
      obtain ⟨c', u, hc, h⟩ := h
      obtain rfl := mCtx_ends hc
      cases c' with
      | none =>
          obtain ⟨-, rfl⟩ := Prog.ends_pure.mp h
          refine .inl ⟨fun _ _ hdisplaces => ?_, .refl _⟩
          cases (hc.unique (mCtx_ends_of_allows hdisplaces.allowed)).1
      | some c' =>
          have hallowed := allows_of_mCtx_ends hc
          obtain rfl : c = c' := Option.some.inj (htls.symm.trans hallowed.1)
          simp only [Prog.ends_bind, derefCtx_ends] at h
          obtain ⟨y', _, ⟨hy', rfl⟩, h⟩ := h
          obtain rfl : y = y' := Option.some.inj (hy.symm.trans hy')
          split at h
          next hfinal =>
            obtain ⟨-, rfl⟩ := Prog.ends_pure.mp h
            refine .inl ⟨fun _ _ hdisplaces => ?_, .refl _⟩
            rw [hdisplaces.unfinished] at hfinal
            cases hfinal
          next hfinal =>
            rw [Bool.not_eq_true] at hfinal
            cases hget : y.modules.get name with
            | none =>
                simp only [hget, Prog.ends_bind, Prog.ends_pure] at h
                obtain ⟨_, _, ⟨rfl, rfl⟩, h⟩ := h
                rw [if_neg (not_not.mpr rfl)] at h
                obtain ⟨m, hnew⟩ := newMod_failed h hret
                refine .inl ⟨fun _ _ hdisplaces => ?_, untouched_newMod hs hnew hret⟩
                have htaken := hdisplaces.taken
                rw [hget] at htaken
                cases htaken
            | some old =>
                simp only [hget, Prog.ends_bind, derefMod_ends] at h
                obtain ⟨x, _, ⟨hx, rfl⟩, h⟩ := h
                split at h
                next hflag =>
                  simp only [Prog.ends_bind, Prog.ends_pure] at h
                  obtain ⟨_, _, ⟨rfl, rfl⟩, h⟩ := h
                  rw [if_pos (by decide)] at h
                  obtain ⟨-, rfl⟩ := Prog.ends_pure.mp h
                  refine .inl ⟨fun old' x' hdisplaces => ?_, .refl _⟩
                  obtain ⟨rfl, rfl⟩ := hdisplaces.unique hget hx
                  rw [hdisplaces.replaceable] at hflag
                  cases hflag
                next hflag =>
                  rw [Bool.not_eq_true, Bool.not_eq_false'] at hflag
                  obtain ⟨r, v₁, hderegister, h⟩ := Prog.ends_bind.mp h
                  rcases modDeregister_outcome hs htls hx hy hderegister with
                    ⟨hremoves, hgone⟩ | ⟨hnot, hr, hkept⟩
                  · refine .inr ⟨old, x, ⟨hnamed, hhooked, hallowed, hfinal, hget, hx, hflag,
                      hremoves.state, hremoves.ctx, hremoves.leaves, hremoves.listed⟩, v₁, hgone, ?_⟩
                    split at h
                    next =>
                      obtain ⟨-, rfl⟩ := Prog.ends_pure.mp h
                      exact .inl rfl
                    next =>
                      obtain ⟨m, hnew⟩ := newMod_failed h hret
                      exact .inr ⟨_, _, _, hnew⟩
                  · rw [if_pos hr] at h
                    obtain ⟨-, rfl⟩ := Prog.ends_pure.mp h
                    refine .inl ⟨fun old' x' hdisplaces => ?_, hkept⟩
                    obtain ⟨rfl, rfl⟩ := hdisplaces.unique hget hx
                    exact hnot hdisplaces.removes

/-- The old module is a zombie then, or the thread has lost its context. -/
theorem FailsAfter.gone {old : ℕ} {own : String} {x : Mod} (hy : ctxAt w.heap c = some y)
    (hx : modAt w.heap old = some x) (h : FailsAfter depth w v c old name own) :
    (∀ x', modAt v.heap old = some x' → x'.state = .zombie) ∨ v.tls ≠ some c := by
  obtain ⟨v₁, ⟨u, t, hgone, ht, hunref⟩, hv⟩ := h
  have hgrows := length_le_run hgone
  have hlt_u : old < u.heap.length := (modAt_lt_length hx).trans_le hgrows
  rcases ht with rfl | hleft
  · left
    have hzombie := zombie_of_exec hunref (by rintro x x' rfl hx; exact hx) hlt_u
      (removeAndStop_zombie hgone)
    have hlt : old < v₁.heap.length := hlt_u.trans_eq (World.length_unrefMod hunref).symm
    rcases hv with rfl | ⟨flags, hooks, r, hnew⟩
    · exact hzombie
    · exact zombie_of_exec hnew (by rintro x x' rfl hx; exact hx) hlt hzombie
  · right
    have hleft_t := left_mCtxDeregister ((ctxAt_lt_length hy).trans_le hgrows) hleft
    have hleft_v₁ := (kept_left (c := c) (by rintro _ ⟨⟩) () t () hleft_t trivial).2 _ _ hunref
    rcases hv with rfl | ⟨flags, hooks, r, hnew⟩
    · exact hleft_v₁.2
    · exact ((kept_left (c := c) (by rintro _ ⟨⟩) () v₁ () hleft_v₁ trivial).2 _ _ hnew).2

/-- A registration that fails leaves the context as it was exactly when it does not take
the module that has the name out of the context first. -/
theorem registerFailed_iff (hs : Settled w.heap) (htls : w.tls = some c)
    (hy : ctxAt w.heap c = some y)
    (h : (mModRegister name modRef hook flags).Ends (handler depth) w ret v) (hret : ret ≠ 0) :
    RegistryKept w v c y ↔ ∀ old x, ¬ Displaces w c y name hook old x := by
  rcases mModRegister_failed hs htls hy h hret with ⟨hnone, hkept⟩ | ⟨old, x, hdisplaces, hfails⟩
  · exact ⟨fun _ => hnone, fun _ => hkept.registryKept htls hy⟩
  · refine ⟨fun hkept => ?_, fun hnone => absurd hdisplaces (hnone old x)⟩
    rcases hfails.gone hy hdisplaces.there with hzombie | hleft
    · obtain ⟨x', hx', hstate⟩ := hkept.states name old x hdisplaces.taken hdisplaces.there
      exact absurd (hstate ▸ hzombie x' hx') hdisplaces.state
    · exact absurd hkept.registered hleft

end Register

/-- A persistent context with one module that others may replace. -/
def replaceable : World :=
  (machine.runCalls 3 [.mCtxRegister "ctx" M_CTX_PERSIST,
    .mModRegister "a" true (some onEvtOnly) M_MOD_ALLOW_REPLACE] (startFrom [] [])).state

theorem settled_replaceable : Settled replaceable.heap :=
  ((later_run _ _ _).pays (settled_initial plainHost _ _ [])).settled

def replaceableCtx : Ctx := (ctxAt replaceable.heap 0).get (by decide +kernel)

theorem ctxAt_replaceable : ctxAt replaceable.heap 0 = some replaceableCtx :=
  (Option.some_get _).symm

def replaceableMod : Mod := (modAt replaceable.heap 1).get (by decide +kernel)

/-- The module is to be loaded from a file that is not there. -/
def registerMissing : Out LibLang World ℤ :=
  (mModRegister "a" false none 0).run (handler 3) replaceable

theorem registerFailed_missing :
    RegistryKept replaceable registerMissing.state 0 replaceableCtx ↔
      ∀ old x, ¬ Displaces replaceable 0 replaceableCtx "a" none old x :=
  registerFailed_iff settled_replaceable (by decide +kernel) ctxAt_replaceable
    (show (mModRegister "a" false none 0).Ends (handler 3) replaceable (-EINVAL)
      registerMissing.state from ⟨by decide +kernel, rfl⟩) (by decide)

/-- Not every registration that fails leaves the modules of the context. -/
theorem not_registryKept_missing :
    ¬ ∀ (depth c flags : ℕ) (w v : World) (y : Ctx) (ret : ℤ) (name : String) (modRef : Bool)
      (hook : Option ModHooks), Settled w.heap → w.tls = some c → ctxAt w.heap c = some y →
      (mModRegister name modRef hook flags).Ends (handler depth) w ret v → ret ≠ 0 →
      RegistryKept w v c y := by
  intro hall
  have hkept := hall 3 0 0 replaceable registerMissing.state replaceableCtx (-EINVAL) "a" false none
    settled_replaceable (by decide +kernel) ctxAt_replaceable ⟨by decide +kernel, rfl⟩ (by decide)
  obtain ⟨y, hy, hmodules⟩ := hkept.modules
  have hgone : (ctxAt registerMissing.state.heap 0).map Ctx.modules = some [] := by decide +kernel
  rw [hy, Option.map_some, hmodules] at hgone
  revert hgone
  decide +kernel

end Libmodule
