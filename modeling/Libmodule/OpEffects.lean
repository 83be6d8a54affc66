import Libmodule.OwnedChanges

/-!
# What an operation does to modules and contexts

Each operation changes few fields of few objects.  The two relations here tell,
for every operation, what becomes of a module and of a context that is still
there afterwards; whatever an invariant says about their fields follows from them.
-/

namespace Libmodule

open RefHeap SearchTree Reentrant

/-! ## Looking back -/

section Back

variable {w w₁ : World} {p q : ℕ} {x : Mod} {c : Ctx}

theorem World.modAt_ref (h : w.ref p = some w₁) (q : ℕ) : modAt w₁.heap q = modAt w.heap q := by
  unfold modAt
  rw [World.val_ref h]

theorem World.ctxAt_ref (h : w.ref p = some w₁) (q : ℕ) : ctxAt w₁.heap q = ctxAt w.heap q := by
  unfold ctxAt
  rw [World.val_ref h]

theorem World.modAt_of_unrefAll {ps : List ℕ} (h : w.unrefAll ps = some w₁)
    (hx : modAt w₁.heap q = some x) : modAt w.heap q = some x := by
  rw [modAt_eq_some] at hx ⊢
  exact World.val_of_unrefAll h hx

theorem World.ctxAt_of_unrefAll {ps : List ℕ} (h : w.unrefAll ps = some w₁)
    (hc : ctxAt w₁.heap q = some c) : ctxAt w.heap q = some c := by
  rw [ctxAt_eq_some] at hc ⊢
  exact World.val_of_unrefAll h hc

theorem modAt_alloc (h : Heap Obj) (o : Obj) (q : ℕ) :
    modAt (alloc h o) q =
      if q = h.length then (match o with | .mod y => some y | _ => none) else modAt h q := by
  unfold modAt
  rw [val_alloc]
  by_cases hq : q = h.length
  · simp only [if_pos hq]
    cases o <;> rfl
  · simp only [if_neg hq]

theorem ctxAt_alloc (h : Heap Obj) (o : Obj) (q : ℕ) :
    ctxAt (alloc h o) q =
      if q = h.length then (match o with | .ctx y => some y | _ => none) else ctxAt h q := by
  unfold ctxAt
  rw [val_alloc]
  by_cases hq : q = h.length
  · simp only [if_pos hq]
    cases o <;> rfl
  · simp only [if_neg hq]

variable (h : Heap Obj)

theorem modAt_modify_src (f : EvSource → EvSource) :
    modAt (modify h p (Obj.mapSrc f)) q = modAt h q := by
  unfold modAt
  rw [val_modify]
  by_cases hpq : p = q
  · rw [if_pos hpq]
    cases val h q with
    | none => rfl
    | some o => cases o <;> rfl
  · rw [if_neg hpq]

theorem ctxAt_modify_src (f : EvSource → EvSource) :
    ctxAt (modify h p (Obj.mapSrc f)) q = ctxAt h q := by
  unfold ctxAt
  rw [val_modify]
  by_cases hpq : p = q
  · rw [if_pos hpq]
    cases val h q with
    | none => rfl
    | some o => cases o <;> rfl
  · rw [if_neg hpq]

theorem modAt_modify_evt (f : EvtPriv → EvtPriv) :
    modAt (modify h p (Obj.mapEvt f)) q = modAt h q := by
  unfold modAt
  rw [val_modify]
  by_cases hpq : p = q
  · rw [if_pos hpq]
    cases val h q with
    | none => rfl
    | some o => cases o <;> rfl
  · rw [if_neg hpq]

theorem ctxAt_modify_evt (f : EvtPriv → EvtPriv) :
    ctxAt (modify h p (Obj.mapEvt f)) q = ctxAt h q := by
  unfold ctxAt
  rw [val_modify]
  by_cases hpq : p = q
  · rw [if_pos hpq]
    cases val h q with
    | none => rfl
    | some o => cases o <;> rfl
  · rw [if_neg hpq]

end Back

/-! ## Effects -/

/-- What the operation makes of the module at `m`. -/
def Op.OnMod (o : Op) (m : ℕ) (x x' : Mod) : Prop :=
  match o with
  | .setMod p field => x' = if p = m then field.set x else x
  | .markRunning p => x' = if p = m then { x with state := .running } else x
  | .markStopped p stopping =>
      x' = if p = m then { x with state := if stopping then .stopped else .paused } else x
  | .markZombie p => x' = if p = m then { x with state := .zombie } else x
  | .subscriptionsPut p .. => (p ≠ m → x' = x) ∧ ∃ subs, x' = { x with subscriptions := subs }
  | .subscriptionsRemove p _ => (p ≠ m → x' = x) ∧ ∃ subs, x' = { x with subscriptions := subs }
  | .enqueueBatch p e =>
      x' = if p = m then { x with batchEvents := x.batchEvents ++ [e] } else x
  | .takeBatch p => x' = if p = m then { x with batchEvents := [] } else x
  | .stash p e => x' = if p = m then { x with stashed := x.stashed ++ [e] } else x
  | .unstash p => x' = if p = m then { x with stashed := x.stashed.tail } else x
  | .bind p ref => x' = if ref = m then { x with boundMods := p :: x.boundMods } else x
  | .clear p queue => x' = if p = m then queue.clear x else x
  | .addSrc p .. => (p ≠ m → x' = x) ∧ ∃ srcs, x' = { x with srcs := srcs }
  | .bstRemove p .. => (p ≠ m → x' = x) ∧ ∃ srcs, x' = { x with srcs := srcs }
  | .bstItrRemove p _ => (p ≠ m → x' = x) ∧ ∃ srcs, x' = { x with srcs := srcs }
  | .pipe p =>
      (p ≠ m → x' = x) ∧
        ∃ fd0 fd1, x' = { x with pubsubFd0 := fd0, pubsubFd1 := fd1 }
  | _ => x' = x

/-- What the operation makes of the context at `c`. -/
def Op.OnCtx (o : Op) (c : ℕ) (x x' : Ctx) : Prop :=
  match o with
  | .setCtx p field => x' = if p = c then field.set x else x
  | .markRunning _ => ∃ n, x' = { x with runningModules := n }
  | .markStopped .. => ∃ n, x' = { x with runningModules := n }
  | .newMod p .. => (p ≠ c → x' = x) ∧ ∃ modules, x' = { x with modules := modules }
  | .modulesRemove p name =>
      x' = x ∨ p = c ∧ x' = { x with modules := x.modules.remove name }
  | .newTick p _ => if p = c then ∃ tick, x' = { x with tick := some tick } else x' = x
  | .dropTick p => x' = if p = c then { x with tick := none } else x
  | .pollInit p n => x' = if p = c then { x with maxEvents := n, pevents := some [] } else x
  | .pollWait p _ => (p ≠ c → x' = x) ∧ ∃ events, x' = { x with pevents := events }
  | .pollClear p => x' = if p = c then { x with pevents := none } else x
  | _ => x' = x

section Effects

variable {w w' : World} {m c : ℕ} {x x' : Mod} {y y' : Ctx}

/-- A module that is being registered. -/
def Mod.Registered (c : ℕ) (name : String) (flags : ℕ) (hook : Option ModHooks) (x : Mod) :
    Prop :=
  ∃ state, state ≠ .running ∧ x = { Mod.initial c name flags hook with state := state }

theorem World.ne_length {m : ℕ} (hx : modAt w.heap m = some x) : m ≠ w.heap.length := by
  rintro rfl
  obtain ⟨cell, hcell, -⟩ := Option.map_eq_some_iff.mp (modAt_eq_some.mp hx)
  exact absurd (lt_length hcell) (lt_irrefl _)

theorem World.length_ref {p : ℕ} (h : w.ref p = some w') : w'.heap.length = w.heap.length := by
  unfold World.ref at h
  simp only [Option.bind_eq_bind, Option.bind_eq_some_iff, Option.some.injEq] at h
  obtain ⟨cell, -, rfl⟩ := h
  exact length_put _ _ _

theorem World.modulesPut_back {p q : ℕ} {name : String} {ret : ℤ}
    (h : w.modulesPut p name q = some (ret, w')) :
    (∀ m, modAt w'.heap m = modAt w.heap m) ∧
    (∀ c y', ctxAt w'.heap c = some y' → ∃ y, ctxAt w.heap c = some y ∧ (p ≠ c → y' = y) ∧
      ∃ modules, y' = { y with modules := modules }) := by
  unfold World.modulesPut at h
  simp only [Option.bind_eq_bind, Option.bind_eq_some_iff] at h
  obtain ⟨z, -, -, -, h⟩ := h
  split at h
  next =>
    cases h
    exact ⟨fun _ => rfl, fun _ y' hy' => ⟨y', hy', fun _ => rfl, _, rfl⟩⟩
  next =>
    simp only [Option.bind_eq_some_iff, Option.some.injEq] at h
    obtain ⟨u, hset, h⟩ := h
    cases h
    obtain ⟨-, rfl⟩ := World.setCtx_eq_some.mp hset
    refine ⟨fun _ => modAt_modify_ctx _ _ _ _, fun c y' hy' => ?_⟩
    rw [ctxAt_modify_ctx] at hy'
    split at hy'
    next hpc =>
      obtain ⟨y, hy, rfl⟩ := Option.map_eq_some_iff.mp hy'
      exact ⟨y, hy, fun hne => absurd hpc hne, _, rfl⟩
    next => exact ⟨y', hy', fun _ => rfl, _, rfl⟩

theorem World.buildMod_back {p flags q : ℕ} {name : String} {hook : Option ModHooks} {ret e : ℤ}
    (h : w.buildMod e p name flags hook = some ((ret, q), w')) :
    (∀ m x', modAt w'.heap m = some x' → modAt w.heap m = some x' ∨
      m = w.heap.length ∧ x'.Registered p name flags hook) ∧
    (∀ c y', ctxAt w'.heap c = some y' → ∃ y, ctxAt w.heap c = some y ∧ (p ≠ c → y' = y) ∧
      ∃ modules, y' = { y with modules := modules }) := by
  unfold World.buildMod at h
  simp only [Option.bind_eq_bind, Option.bind_eq_some_iff] at h
  obtain ⟨u, href, h⟩ := h
  have hmod : ∀ m x', modAt (u.new (.mod (Mod.initial p name flags hook))).2.heap m = some x' →
      modAt w.heap m = some x' ∨ m = w.heap.length ∧ x' = Mod.initial p name flags hook := by
    intro m x' hx'
    rw [World.new, modAt_alloc, World.length_ref href, World.modAt_ref href] at hx'
    split at hx'
    next hm =>
      cases hx'
      exact .inr ⟨hm, rfl⟩
    next => exact .inl hx'
  have hctx : ∀ c y', ctxAt (u.new (.mod (Mod.initial p name flags hook))).2.heap c = some y' →
      ctxAt w.heap c = some y' := by
    intro c y' hy'
    rw [World.new, ctxAt_alloc, World.ctxAt_ref href] at hy'
    split at hy'
    next => cases hy'
    next => exact hy'
  have hinitial : (Mod.initial p name flags hook).Registered p name flags hook :=
    ⟨.unset, nofun, rfl⟩
  split at h
  next =>
    simp only [Option.bind_eq_some_iff, Option.some.injEq] at h
    obtain ⟨v, hunref, h⟩ := h
    cases h
    refine ⟨fun m x' hx' => ?_, fun c y' hy' => ?_⟩
    · refine (hmod m x' (World.modAt_of_unrefAll hunref hx')).imp_right ?_
      rintro ⟨hm, rfl⟩
      exact ⟨hm, hinitial⟩
    · exact ⟨y', hctx c y' (World.ctxAt_of_unrefAll hunref hy'), fun _ => rfl, _, rfl⟩
  next =>
    simp only [Option.bind_eq_some_iff] at h
    obtain ⟨⟨put, v⟩, hput, h⟩ := h
    obtain ⟨hmods, hctxs⟩ := World.modulesPut_back hput
    split at h
    next =>
      simp only [Option.bind_eq_some_iff, Option.some.injEq] at h
      obtain ⟨z, hunref, h⟩ := h
      cases h
      refine ⟨fun m x' hx' => ?_, fun c y' hy' => ?_⟩
      · have hbefore := World.modAt_of_unrefAll hunref hx'
        rw [hmods] at hbefore
        refine (hmod m x' hbefore).imp_right ?_
        rintro ⟨hm, rfl⟩
        exact ⟨hm, hinitial⟩
      · obtain ⟨y, hy, hrest⟩ := hctxs c y' (World.ctxAt_of_unrefAll hunref hy')
        exact ⟨y, hctx c y hy, hrest⟩
    next =>
      simp only [Option.bind_eq_some_iff, Option.some.injEq] at h
      obtain ⟨z, hset, h⟩ := h
      cases h
      obtain ⟨-, rfl⟩ := World.setMod_eq_some.mp hset
      refine ⟨fun m x' hx' => ?_, fun c y' hy' => ?_⟩
      · rw [modAt_modify_mod, hmods] at hx'
        split at hx'
        next hm =>
          obtain ⟨x, hx, rfl⟩ := Option.map_eq_some_iff.mp hx'
          have hlength : u.heap.length = w.heap.length := World.length_ref href
          have hm' : m = w.heap.length := hm ▸ hlength
          rcases hmod m x hx with hold | ⟨-, rfl⟩
          · exact absurd hm' (World.ne_length hold)
          · exact .inr ⟨hm', .idle, nofun, rfl⟩
        next =>
          refine (hmod m x' hx').imp_right ?_
          rintro ⟨hm, rfl⟩
          exact ⟨hm, hinitial⟩
      · rw [ctxAt_modify_mod] at hy'
        obtain ⟨y, hy, hrest⟩ := hctxs c y' hy'
        exact ⟨y, hctx c y hy, hrest⟩

/-! ### Operations in several steps -/

/-- Modules that are there afterwards were there before, just as they are. -/
def SameMods (w w' : World) : Prop := ∀ m x, modAt w'.heap m = some x → modAt w.heap m = some x

def SameCtxs (w w' : World) : Prop := ∀ c y, ctxAt w'.heap c = some y → ctxAt w.heap c = some y

/-- Neither modules nor contexts change. -/
structure Calm (w w' : World) : Prop where
  mods : SameMods w w'
  ctxs : SameCtxs w w'

namespace Calm

variable {w₁ w₂ : World} {p : ℕ}

theorem of_heap_eq (hheap : w₁.heap = w.heap) : Calm w w₁ where
  mods := fun _ _ hx => by rwa [hheap] at hx
  ctxs := fun _ _ hy => by rwa [hheap] at hy

theorem trans (h₁ : Calm w w₁) (h₂ : Calm w₁ w₂) : Calm w w₂ where
  mods := fun m x hx => h₁.mods m x (h₂.mods m x hx)
  ctxs := fun c y hy => h₁.ctxs c y (h₂.ctxs c y hy)

theorem ref (h : w.ref p = some w₁) : Calm w w₁ where
  mods := fun m x hx => by rwa [World.modAt_ref h] at hx
  ctxs := fun c y hy => by rwa [World.ctxAt_ref h] at hy

theorem unrefAll {ps : List ℕ} (h : w.unrefAll ps = some w₁) : Calm w w₁ where
  mods := fun _ _ hx => World.modAt_of_unrefAll h hx
  ctxs := fun _ _ hy => World.ctxAt_of_unrefAll h hy

theorem new {o : Obj} (hmod : ∀ x, o ≠ .mod x) (hctx : ∀ y, o ≠ .ctx y) :
    Calm w (w.new o).2 where
  mods := by
    intro m x hx
    rw [World.new, modAt_alloc] at hx
    split at hx
    next => cases o <;> simp_all
    next => exact hx
  ctxs := by
    intro c y hy
    rw [World.new, ctxAt_alloc] at hy
    split at hy
    next => cases o <;> simp_all
    next => exact hy

theorem setSrc {f : EvSource → EvSource} (h : w.setSrc p f = some w₁) : Calm w w₁ := by
  obtain ⟨-, rfl⟩ := World.setSrc_eq_some.mp h
  exact
    { mods := fun m x hx => by rwa [modAt_modify_src] at hx
      ctxs := fun c y hy => by rwa [ctxAt_modify_src] at hy }

theorem setEvt {f : EvtPriv → EvtPriv} (h : w.setEvt p f = some w₁) : Calm w w₁ := by
  obtain ⟨-, rfl⟩ := World.setEvt_eq_some.mp h
  exact
    { mods := fun m x hx => by rwa [modAt_modify_evt] at hx
      ctxs := fun c y hy => by rwa [ctxAt_modify_evt] at hy }

theorem newEvt {src : Option ℕ} {e : ℕ} (h : w.newEvt src = some (e, w₁)) : Calm w w₁ := by
  unfold World.newEvt at h
  simp only [Option.bind_eq_bind, Option.bind_eq_some_iff, Option.some.injEq] at h
  obtain ⟨p, -, s, -, u, href, hnew⟩ := h
  cases hnew
  exact (ref href).trans (new (o := .evt _) (by simp) (by simp))

theorem allocPsMsg {msg : PsPriv} {sub : Option ℕ} {g : ℕ}
    (h : w.allocPsMsg msg sub = some (g, w₁)) : Calm w w₁ := by
  unfold World.allocPsMsg at h
  split at h
  next =>
    cases h
    exact new (o := .msg _) (by simp) (by simp)
  next sender _ =>
    simp only [Option.bind_eq_bind, Option.bind_eq_some_iff, Option.some.injEq] at h
    obtain ⟨u, href, hnew⟩ := h
    cases hnew
    exact (ref href).trans (new (o := .msg _) (by simp) (by simp))

theorem tell {m : ℕ} {msg : PsPriv} {sub : Option String} (h : w.tell m msg sub = some w₁) :
    Calm w w₁ := by
  unfold World.tell at h
  simp only [Option.bind_eq_bind, Option.bind_eq_some_iff] at h
  obtain ⟨x, -, ⟨g, v⟩, halloc, h⟩ := h
  split at h
  next =>
    cases h
    exact (allocPsMsg halloc).trans (of_heap_eq rfl)
  next => cases h

theorem flushMsg {m : ℕ} {stopping : Bool} {flushed : Flushed}
    (h : w.flushMsg m stopping = some (flushed, w₁)) : Calm w w₁ := by
  unfold World.flushMsg at h
  simp only [Option.bind_eq_bind, Option.bind_eq_some_iff] at h
  obtain ⟨x, -, h⟩ := h
  split at h
  next =>
    cases h
    exact of_heap_eq rfl
  next =>
    have hread : Calm w { w with sys := (w.sys.readMsg x.pubsubFd0).2 } := of_heap_eq rfl
    split at h
    next =>
      cases h
      exact hread
    next mm _ =>
      simp only [Option.bind_eq_some_iff] at h
      obtain ⟨g, -, h⟩ := h
      split at h
      next =>
        simp only [Option.bind_eq_some_iff, Option.some.injEq] at h
        obtain ⟨⟨e, u⟩, hnew, v, hset, h⟩ := h
        cases h
        exact (hread.trans (newEvt hnew)).trans (setEvt hset)
      next =>
        simp only [Option.bind_eq_some_iff, Option.some.injEq] at h
        obtain ⟨u, hunref, h⟩ := h
        cases h
        exact hread.trans (unrefAll hunref)

theorem processPs {e : ℕ} {src : Option ℕ} (h : w.processPs e = some (src, w₁)) :
    Calm w w₁ := by
  unfold World.processPs at h
  simp only [Option.bind_eq_bind, Option.bind_eq_some_iff] at h
  obtain ⟨x, -, this, -, s, -, h⟩ := h
  have hread : Calm w { w with sys := (w.sys.readMsg s.fd).2 } := of_heap_eq rfl
  split at h
  next =>
    cases h
    exact hread
  next mm _ =>
    simp only [Option.bind_eq_some_iff] at h
    obtain ⟨g, -, u, hset, v, hunref, h⟩ := h
    have hv := (hread.trans (setEvt hset)).trans (unrefAll hunref)
    split at h
    next =>
      simp only [Option.bind_eq_some_iff, Option.some.injEq] at h
      obtain ⟨_, rfl, y, hset', h⟩ := h
      cases h
      exact hv.trans (setEvt hset')
    next =>
      simp only [Option.bind_eq_some_iff, Option.some.injEq] at h
      obtain ⟨y, href, z, hset', h⟩ := h
      cases h
      exact (hv.trans (ref href)).trans (setEvt hset')

theorem pollSetEvt {c src : ℕ} {flag : OpType} {ret : ℤ}
    (h : w.pollSetEvt c src flag = some (ret, w₁)) : Calm w w₁ := by
  unfold World.pollSetEvt at h
  simp only [Option.bind_eq_bind, Option.bind_eq_some_iff, Option.some.injEq] at h
  obtain ⟨s, -, x, -, u, hset, h⟩ := h
  cases h
  have hsys : Calm w { w with sys := (pollSetNewEvt c src s flag w.sys).2.2 } := of_heap_eq rfl
  exact hsys.trans (setSrc hset)

end Calm

/-- A field of a module changes. -/
structure ModChange (p : ℕ) (f : Mod → Mod) (w w' : World) : Prop where
  mods : ∀ m x', modAt w'.heap m = some x' →
    ∃ x, modAt w.heap m = some x ∧ x' = if p = m then f x else x
  ctxs : SameCtxs w w'

structure CtxChange (p : ℕ) (f : Ctx → Ctx) (w w' : World) : Prop where
  mods : SameMods w w'
  ctxs : ∀ c y', ctxAt w'.heap c = some y' →
    ∃ y, ctxAt w.heap c = some y ∧ y' = if p = c then f y else y

namespace ModChange

variable {p : ℕ} {f : Mod → Mod} {w₁ w₂ : World}

theorem of_setMod (h : w.setMod p f = some w₁) : ModChange p f w w₁ := by
  obtain ⟨-, rfl⟩ := World.setMod_eq_some.mp h
  refine ⟨fun m x' hx' => ?_, fun c y hy => by rwa [ctxAt_modify_mod] at hy⟩
  rw [modAt_modify_mod] at hx'
  split at hx'
  next hpm =>
    obtain ⟨x, hx, rfl⟩ := Option.map_eq_some_iff.mp hx'
    exact ⟨x, hx, by rw [if_pos hpm]⟩
  next hpm => exact ⟨x', hx', by rw [if_neg hpm]⟩

theorem after (hcalm : Calm w w₁) (h : ModChange p f w₁ w₂) : ModChange p f w w₂ where
  mods := by
    intro m x' hx'
    obtain ⟨x, hx, hchange⟩ := h.mods m x' hx'
    exact ⟨x, hcalm.mods m x hx, hchange⟩
  ctxs := fun c y hy => hcalm.ctxs c y (h.ctxs c y hy)

theorem trans (h : ModChange p f w w₁) (hcalm : Calm w₁ w₂) : ModChange p f w w₂ where
  mods := fun m x' hx' => h.mods m x' (hcalm.mods m x' hx')
  ctxs := fun c y hy => h.ctxs c y (hcalm.ctxs c y hy)

end ModChange

namespace CtxChange

variable {p : ℕ} {f : Ctx → Ctx} {w₁ w₂ : World}

theorem of_setCtx (h : w.setCtx p f = some w₁) : CtxChange p f w w₁ := by
  obtain ⟨-, rfl⟩ := World.setCtx_eq_some.mp h
  refine ⟨fun m x hx => by rwa [modAt_modify_ctx] at hx, fun c y' hy' => ?_⟩
  rw [ctxAt_modify_ctx] at hy'
  split at hy'
  next hpc =>
    obtain ⟨y, hy, rfl⟩ := Option.map_eq_some_iff.mp hy'
    exact ⟨y, hy, by rw [if_pos hpc]⟩
  next hpc => exact ⟨y', hy', by rw [if_neg hpc]⟩

theorem after (hcalm : Calm w w₁) (h : CtxChange p f w₁ w₂) : CtxChange p f w w₂ where
  mods := fun m x hx => hcalm.mods m x (h.mods m x hx)
  ctxs := by
    intro c y' hy'
    obtain ⟨y, hy, hchange⟩ := h.ctxs c y' hy'
    exact ⟨y, hcalm.ctxs c y hy, hchange⟩

theorem trans (h : CtxChange p f w w₁) (hcalm : Calm w₁ w₂) : CtxChange p f w w₂ where
  mods := fun m x hx => h.mods m x (hcalm.mods m x hx)
  ctxs := fun c y' hy' => h.ctxs c y' (hcalm.ctxs c y' hy')

end CtxChange

/-! ### All operations -/

/-- Modules and contexts that are there after an operation were there before, up to what
the operation makes of them, or it has made them. -/
structure Op.Effect (o : Op) (w w' : World) : Prop where
  mods : ∀ m x', modAt w'.heap m = some x' →
    (∃ x, modAt w.heap m = some x ∧ o.OnMod m x x') ∨
      m = w.heap.length ∧ ∃ c name flags hook, o = .newMod c name flags hook ∧
        x'.Registered c name flags hook
  ctxs : ∀ c y', ctxAt w'.heap c = some y' →
    (∃ y, ctxAt w.heap c = some y ∧ o.OnCtx c y y') ∨
      c = w.heap.length ∧ ∃ flags, o = .newCtx flags ∧ y' = Ctx.initial flags

section OpEffect

variable {o : Op} {p : ℕ}

theorem Calm.effect (h : Calm w w') (hmod : ∀ m x, o.OnMod m x x)
    (hctx : ∀ c y, o.OnCtx c y y) : o.Effect w w' where
  mods := fun m x hx => .inl ⟨x, h.mods m x hx, hmod m x⟩
  ctxs := fun c y hy => .inl ⟨y, h.ctxs c y hy, hctx c y⟩

theorem ModChange.effect {f : Mod → Mod} (h : ModChange p f w w')
    (hmod : ∀ m x, modAt w.heap m = some x → o.OnMod m x (if p = m then f x else x))
    (hctx : ∀ c y, o.OnCtx c y y) : o.Effect w w' where
  mods := by
    intro m x' hx'
    obtain ⟨x, hx, rfl⟩ := h.mods m x' hx'
    exact .inl ⟨x, hx, hmod m x hx⟩
  ctxs := fun c y hy => .inl ⟨y, h.ctxs c y hy, hctx c y⟩

theorem CtxChange.effect {f : Ctx → Ctx} (h : CtxChange p f w w')
    (hmod : ∀ m x, o.OnMod m x x)
    (hctx : ∀ c y, ctxAt w.heap c = some y → o.OnCtx c y (if p = c then f y else y)) :
    o.Effect w w' where
  mods := fun m x hx => .inl ⟨x, h.mods m x hx, hmod m x⟩
  ctxs := by
    intro c y' hy'
    obtain ⟨y, hy, rfl⟩ := h.ctxs c y' hy'
    exact .inl ⟨y, hy, hctx c y hy⟩

/-! Some operations change one module and then only drop references. -/

theorem Op.effect_subscriptionsPut {topic : String} {flags : ℕ} {userptr : Userptr} {ret : ℤ}
    (h : w.subscriptionsPut p topic flags userptr = some (ret, w')) :
    (Op.subscriptionsPut p topic flags userptr).Effect w w' := by
  unfold World.subscriptionsPut at h
  simp only [Option.bind_eq_bind, Option.bind_eq_some_iff, Option.some.injEq] at h
  obtain ⟨x, hx, v, hset, u, hunref, h⟩ := h
  cases h
  have hnew : Calm w (w.new (.src (EvSource.subscription p topic flags userptr))).2 :=
    .new (o := .src _) (by simp) (by simp)
  refine (((ModChange.of_setMod hset).after hnew).trans (.unrefAll hunref)).effect ?_ ?_
  · intro m y _
    exact ⟨fun hne => if_neg hne, by split <;> exact ⟨_, rfl⟩⟩
  · intro c y
    rfl

theorem Op.effect_subscriptionsRemove {topic : String} {ret : ℤ}
    (h : w.subscriptionsRemove p topic = some (ret, w')) :
    (Op.subscriptionsRemove p topic).Effect w w' := by
  have hcalm : Calm w w → (Op.subscriptionsRemove p topic).Effect w w :=
    fun hww => hww.effect (fun _ _ => ⟨fun _ => rfl, _, rfl⟩) (fun _ _ => rfl)
  unfold World.subscriptionsRemove at h
  simp only [Option.bind_eq_bind, Option.bind_eq_some_iff] at h
  obtain ⟨x, -, h⟩ := h
  split at h
  next =>
    cases h
    exact hcalm (.of_heap_eq rfl)
  next =>
    split at h
    next =>
      cases h
      exact hcalm (.of_heap_eq rfl)
    next =>
      simp only [Option.bind_eq_some_iff, Option.some.injEq] at h
      obtain ⟨u, hset, v, hunref, h⟩ := h
      cases h
      refine ((ModChange.of_setMod hset).trans (.unrefAll hunref)).effect ?_ ?_
      · intro m y _
        exact ⟨fun hne => if_neg hne, by split <;> exact ⟨_, rfl⟩⟩
      · intro c y
        rfl

theorem Op.effect_modulesRemove {name : String} {ret : ℤ}
    (h : w.modulesRemove p name = some (ret, w')) :
    (Op.modulesRemove p name).Effect w w' := by
  have hcalm : Calm w w → (Op.modulesRemove p name).Effect w w :=
    fun hww => hww.effect (fun _ _ => rfl) (fun _ _ => .inl rfl)
  unfold World.modulesRemove at h
  simp only [Option.bind_eq_bind, Option.bind_eq_some_iff] at h
  obtain ⟨x, -, h⟩ := h
  split at h
  next =>
    cases h
    exact hcalm (.of_heap_eq rfl)
  next =>
    split at h
    next =>
      cases h
      exact hcalm (.of_heap_eq rfl)
    next =>
      simp only [Option.bind_eq_some_iff, Option.some.injEq] at h
      obtain ⟨u, hset, v, hunref, h⟩ := h
      cases h
      have hchange := CtxChange.of_setCtx hset
      have hdrop : Calm u w' := .unrefAll hunref
      refine (hchange.trans hdrop).effect (fun _ _ => rfl) ?_
      intro c y _
      split
      next hpc => exact .inr ⟨hpc, rfl⟩
      next => exact .inl rfl

theorem Op.effect_addSrc {type : MSrcType} {key : Words} {flags : ℕ} {userptr : Userptr}
    {ret : ℤ × ℕ} (h : w.addSrc p type key flags userptr = some (ret, w')) :
    (Op.addSrc p type key flags userptr).Effect w w' := by
  unfold World.addSrc at h
  simp only [Option.bind_eq_bind, Option.bind_eq_some_iff] at h
  obtain ⟨x, -, ⟨inserted, t⟩, -, h⟩ := h
  have hnew : Calm w
      ({ w with sys := (World.createSrc (some p) type key flags userptr w.sys).2 }.new
        (.src (World.createSrc (some p) type key flags userptr w.sys).1)).2 := by
    refine Calm.trans (.of_heap_eq ?_) (.new (o := .src _) (by simp) (by simp))
    rfl
  split at h
  next =>
    simp only [Option.bind_eq_some_iff, Option.some.injEq] at h
    obtain ⟨u, hset, h⟩ := h
    cases h
    refine ((ModChange.of_setMod hset).after hnew).effect ?_ (fun _ _ => rfl)
    intro m y _
    exact ⟨fun hne => if_neg hne, by split <;> exact ⟨_, rfl⟩⟩
  next =>
    simp only [Option.bind_eq_some_iff, Option.some.injEq] at h
    obtain ⟨u, hunref, h⟩ := h
    cases h
    exact (hnew.trans (.unrefAll hunref)).effect (fun _ _ => ⟨fun _ => rfl, _, rfl⟩)
      (fun _ _ => rfl)

theorem Op.effect_bstRemove {type : MSrcType} {data : Words} {ret : ℤ}
    (h : w.bstRemove p type data = some (ret, w')) :
    (Op.bstRemove p type data).Effect w w' := by
  unfold World.bstRemove at h
  simp only [Option.bind_eq_bind, Option.bind_eq_some_iff, Option.some.injEq] at h
  obtain ⟨x, -, ⟨removed, t, destroyed⟩, -, u, hset, v, hunref, h⟩ := h
  cases h
  refine ((ModChange.of_setMod hset).trans (.unrefAll hunref)).effect ?_ (fun _ _ => rfl)
  intro m y _
  exact ⟨fun hne => if_neg hne, by split <;> exact ⟨_, rfl⟩⟩

theorem Op.effect_bstItrRemove {type : MSrcType} {ret : ℤ}
    (h : w.bstItrRemove p type = some (ret, w')) :
    (Op.bstItrRemove p type).Effect w w' := by
  unfold World.bstItrRemove at h
  simp only [Option.bind_eq_bind, Option.bind_eq_some_iff, Option.some.injEq] at h
  obtain ⟨x, -, u, hset, v, hunref, h⟩ := h
  cases h
  refine ((ModChange.of_setMod hset).trans (.unrefAll hunref)).effect ?_ (fun _ _ => rfl)
  intro m y _
  exact ⟨fun hne => if_neg hne, by split <;> exact ⟨_, rfl⟩⟩

theorem Op.effect_pipe {ret : ℤ} (h : w.pipe p = some (ret, w')) :
    (Op.pipe p).Effect w w' := by
  unfold World.pipe at h
  split at h
  next =>
    cases h
    exact Calm.effect (.of_heap_eq rfl) (fun _ _ => ⟨fun _ => rfl, _, _, rfl⟩) (fun _ _ => rfl)
  next fd0 fd1 sys _ =>
    simp only [Option.bind_eq_bind, Option.bind_eq_some_iff, Option.some.injEq] at h
    obtain ⟨u, hset, h⟩ := h
    cases h
    have hsys : Calm w { w with sys := sys } := .of_heap_eq rfl
    refine ((ModChange.of_setMod hset).after hsys).effect ?_ (fun _ _ => rfl)
    intro m y _
    exact ⟨fun hne => if_neg hne, by split <;> exact ⟨_, _, rfl⟩⟩

theorem Op.effect_markRunning {r : (Op.markRunning p).Resp}
    (h : (Op.markRunning p).exec w = some (r, w')) : (Op.markRunning p).Effect w w' := by
  simp only [exec, Option.bind_eq_bind, Option.bind_eq_some_iff, Option.some.injEq] at h
  obtain ⟨x, -, u, hmod, v, hctx, h⟩ := h
  cases h
  have hm := ModChange.of_setMod hmod
  have hc := CtxChange.of_setCtx hctx
  constructor
  · intro m x' hx'
    obtain ⟨y, hy, hchange⟩ := hm.mods m x' (hc.mods m x' hx')
    exact .inl ⟨y, hy, hchange⟩
  · intro c y' hy'
    obtain ⟨y, hy, rfl⟩ := hc.ctxs c y' hy'
    refine .inl ⟨y, hm.ctxs c y hy, ?_⟩
    split <;> exact ⟨_, rfl⟩

theorem Op.effect_markStopped {stopping : Bool} {r : (Op.markStopped p stopping).Resp}
    (h : (Op.markStopped p stopping).exec w = some (r, w')) :
    (Op.markStopped p stopping).Effect w w' := by
  simp only [exec, Option.bind_eq_bind, Option.bind_eq_some_iff] at h
  obtain ⟨x, -, h⟩ := h
  split at h
  next =>
    simp only [Option.bind_eq_some_iff, Option.some.injEq] at h
    obtain ⟨u, hctx, v, hmod, h⟩ := h
    cases h
    have hc := CtxChange.of_setCtx hctx
    have hm := ModChange.of_setMod hmod
    constructor
    · intro m x' hx'
      obtain ⟨y, hy, hchange⟩ := hm.mods m x' hx'
      exact .inl ⟨y, hc.mods m y hy, hchange⟩
    · intro c y' hy'
      obtain ⟨y, hy, rfl⟩ := hc.ctxs c y' (hm.ctxs c y' hy')
      refine .inl ⟨y, hy, ?_⟩
      split <;> exact ⟨_, rfl⟩
  next =>
    simp only [Option.bind_eq_some_iff, Option.some.injEq] at h
    obtain ⟨_, rfl, v, hmod, h⟩ := h
    cases h
    exact ModChange.effect (.of_setMod hmod) (fun _ _ _ => rfl) (fun _ _ => ⟨_, rfl⟩)

theorem Op.effect_pollWait {blocking : Bool} {r : Option ℕ}
    (h : w.pollWait p blocking = some (r, w')) : (Op.pollWait p blocking).Effect w w' := by
  have hcalm : ∀ u, Calm w u → (Op.pollWait p blocking).Effect w u :=
    fun u hu => hu.effect (fun _ _ => rfl) (fun _ _ => ⟨fun _ => rfl, _, rfl⟩)
  unfold World.pollWait at h
  simp only [Option.bind_eq_bind, Option.bind_eq_some_iff] at h
  obtain ⟨x, -, slots, -, h⟩ := h
  split at h
  next =>
    split at h
    next =>
      cases h
      exact hcalm w (.of_heap_eq rfl)
    next =>
      cases h
      exact hcalm _ (.of_heap_eq rfl)
  next answer polls _ =>
    split at h
    next =>
      cases h
      exact hcalm _ (.of_heap_eq rfl)
    next =>
      simp only [Option.bind_eq_some_iff, Option.some.injEq] at h
      obtain ⟨u, hset, h⟩ := h
      cases h
      have hpolls : Calm w { w with polls := polls } := .of_heap_eq rfl
      have hchange := (CtxChange.of_setCtx hset).after hpolls
      refine CtxChange.effect (hchange.trans (.of_heap_eq rfl)) (fun _ _ => rfl) ?_
      intro c y _
      exact ⟨fun hne => if_neg hne, by split <;> exact ⟨_, rfl⟩⟩

theorem Calm.pollRecv {r : Option ℕ} (h : w.pollRecv = some (r, w')) : Calm w w' := by
  unfold World.pollRecv at h
  split at h
  next => cases h
  next =>
    simp only [Option.bind_eq_bind, Option.bind_eq_some_iff] at h
    obtain ⟨x, -, slots, -, h⟩ := h
    split at h
    next =>
      cases h
      exact .of_heap_eq rfl
    next => cases h

theorem Op.effect {r : o.Resp} (h : o.exec w = some (r, w')) : o.Effect w w' := by
  cases o with
  | get | setErrno | setTls | pollDone | close | readPriv | threadAdd =>
      cases h
      exact Calm.effect (.of_heap_eq rfl) (fun _ _ => rfl) (fun _ _ => rfl)
  | newMod c name flags hook =>
      have hnew : w.newMod c name flags hook = some ((r.1, r.2), w') := h
      obtain ⟨hmods, hctxs⟩ := World.buildMod_back hnew
      constructor
      · intro m x' hx'
        rcases hmods m x' hx' with hx | ⟨hm, hx⟩
        · exact .inl ⟨x', hx, rfl⟩
        · exact .inr ⟨hm, c, name, flags, hook, rfl, hx⟩
      · intro k y' hy'
        obtain ⟨y, hy, hchange⟩ := hctxs k y' hy'
        exact .inl ⟨y, hy, hchange⟩
  | newCtx flags =>
      cases h
      constructor
      · intro m x' hx'
        simp only [modAt_alloc] at hx'
        split at hx'
        next => cases hx'
        next => exact .inl ⟨x', hx', rfl⟩
      · intro c y' hy'
        simp only [ctxAt_alloc] at hy'
        split at hy'
        next hc =>
          cases hy'
          exact .inr ⟨hc, flags, rfl, rfl⟩
        next => exact .inl ⟨y', hy', rfl⟩
  | newTick c ns =>
      simp only [exec, Option.bind_eq_bind, Option.bind_eq_some_iff, Option.some.injEq] at h
      obtain ⟨u, hset, h⟩ := h
      cases h
      have hnew : Calm w
          ({ w with sys := (World.createSrc none .tmr (tmrKey ns) 0 (.user 0) w.sys).2 }.new
            (.src { (World.createSrc none .tmr (tmrKey ns) 0 (.user 0) w.sys).1 with
              flags := M_SRC_PRIO_HIGH ||| M_SRC_INTERNAL })).2 := by
        refine Calm.trans (.of_heap_eq ?_) (.new (o := .src _) (by simp) (by simp))
        rfl
      have hchange := (CtxChange.of_setCtx hset).after hnew
      constructor
      · intro m x hx
        exact .inl ⟨x, hchange.mods m x hx, rfl⟩
      · intro k y' hy'
        obtain ⟨y, hy, rfl⟩ := hchange.ctxs k y' hy'
        refine .inl ⟨y, hy, ?_⟩
        by_cases hck : c = k
        · simp [Op.OnCtx, hck]
        · simp [Op.OnCtx, hck]
  | dropTick c =>
      simp only [exec, Option.bind_eq_bind, Option.bind_eq_some_iff, Option.some.injEq] at h
      obtain ⟨x, -, u, hset, v, hunref, h⟩ := h
      cases h
      exact CtxChange.effect (.trans (.of_setCtx hset) (.unrefAll hunref)) (fun _ _ => rfl)
        (fun _ _ _ => rfl)
  | newEvt => exact Calm.effect (.newEvt h) (fun _ _ => rfl) (fun _ _ => rfl)
  | processPs => exact Calm.effect (.processPs h) (fun _ _ => rfl) (fun _ _ => rfl)
  | modulesRemove => exact Op.effect_modulesRemove h
  | subscriptionsPut => exact Op.effect_subscriptionsPut h
  | subscriptionsRemove => exact Op.effect_subscriptionsRemove h
  | flushMsg => exact Calm.effect (.flushMsg h) (fun _ _ => rfl) (fun _ _ => rfl)
  | addSrc => exact Op.effect_addSrc h
  | bstRemove => exact Op.effect_bstRemove h
  | bstItrRemove => exact Op.effect_bstItrRemove h
  | pipe => exact Op.effect_pipe h
  | pollSetNewEvt => exact Calm.effect (.pollSetEvt h) (fun _ _ => rfl) (fun _ _ => rfl)
  | pollWait => exact Op.effect_pollWait h
  | pollRecv => exact Calm.effect (.pollRecv h) (fun _ _ => rfl) (fun _ _ => rfl)
  | markRunning => exact Op.effect_markRunning h
  | markStopped => exact Op.effect_markStopped h
  | clear m queue =>
      simp only [exec, Option.bind_eq_bind, Option.bind_eq_some_iff, Option.some.injEq] at h
      obtain ⟨x, -, u, hset, v, hunref, h⟩ := h
      cases h
      exact ModChange.effect (.trans (.of_setMod hset) (.unrefAll hunref)) (fun _ _ _ => rfl)
        (fun _ _ => rfl)
  | bind =>
      simp only [exec, Option.bind_eq_bind, Option.bind_eq_some_iff, Option.some.injEq] at h
      obtain ⟨x, -, u, href, v, hset, h⟩ := h
      cases h
      exact ModChange.effect (.after (.ref href) (.of_setMod hset)) (fun _ _ _ => rfl)
        (fun _ _ => rfl)
  | stash =>
      simp only [exec, Option.bind_eq_bind, Option.bind_eq_some_iff, Option.some.injEq] at h
      obtain ⟨x, -, u, href, v, hset, h⟩ := h
      cases h
      exact ModChange.effect (.after (.ref href) (.of_setMod hset)) (fun _ _ _ => rfl)
        (fun _ _ => rfl)
  | enqueueBatch =>
      simp only [exec, Option.bind_eq_bind, Option.bind_eq_some_iff, Option.some.injEq] at h
      obtain ⟨x, -, v, hset, h⟩ := h
      cases h
      exact ModChange.effect (.of_setMod hset) (fun _ _ _ => rfl) (fun _ _ => rfl)
  | takeBatch | unstash =>
      simp only [exec, Option.bind_eq_bind, Option.bind_eq_some_iff, Option.some.injEq] at h
      obtain ⟨x, -, v, hset, h⟩ := h
      cases h
      exact ModChange.effect (.of_setMod hset) (fun _ _ _ => rfl) (fun _ _ => rfl)
  | refMod =>
      simp only [exec, Option.bind_eq_bind, Option.bind_eq_some_iff, Option.some.injEq] at h
      obtain ⟨x, -, u, href, h⟩ := h
      cases h
      exact Calm.effect (.ref href) (fun _ _ => rfl) (fun _ _ => rfl)
  | unrefMod | unrefCtx | unrefEvt =>
      simp only [exec, Option.bind_eq_bind, Option.bind_eq_some_iff, Option.some.injEq] at h
      obtain ⟨x, -, u, hunref, h⟩ := h
      cases h
      exact Calm.effect (.unrefAll hunref) (fun _ _ => rfl) (fun _ _ => rfl)
  | tell =>
      obtain ⟨u, htell, h⟩ := Option.map_eq_some_iff.mp h
      cases h
      exact Calm.effect (.tell htell) (fun _ _ => rfl) (fun _ _ => rfl)
  | setCtx | pollInit | pollClear =>
      obtain ⟨u, hset, h⟩ := Option.map_eq_some_iff.mp h
      cases h
      exact CtxChange.effect (.of_setCtx hset) (fun _ _ => rfl) (fun _ _ _ => rfl)
  | setMod | markZombie =>
      obtain ⟨u, hset, h⟩ := Option.map_eq_some_iff.mp h
      cases h
      exact ModChange.effect (.of_setMod hset) (fun _ _ _ => rfl) (fun _ _ => rfl)
  | setEvtOther | setEvtUserdata =>
      obtain ⟨u, hset, h⟩ := Option.map_eq_some_iff.mp h
      cases h
      exact Calm.effect (.setEvt hset) (fun _ _ => rfl) (fun _ _ => rfl)
  | setSrcUserptr =>
      obtain ⟨u, hset, h⟩ := Option.map_eq_some_iff.mp h
      cases h
      exact Calm.effect (.setSrc hset) (fun _ _ => rfl) (fun _ _ => rfl)

end OpEffect

end Effects

end Libmodule
