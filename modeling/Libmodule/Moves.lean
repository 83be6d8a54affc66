import Mathlib.Logic.Relation
import Libmodule.OpEffects

/-!
# Moves

Nearly every operation is a sequence of small changes: a reference taken or dropped, an
object changed or made, something outside of the heap.  What holds across the small
changes holds across the operations made of them: here, that a thread keeps its context,
and what becomes of event sources.
-/

namespace Libmodule

open RefHeap SearchTree Reentrant

/-- The sources that the operation may make. -/
def Op.MakesSrc (o : Op) (t : EvSource) : Prop :=
  match o with
  | .addSrc m type key flags userptr =>
      ∃ s, t = (World.createSrc (some m) type key flags userptr s).1
  | .newTick _ ns => t.mod = none ∧ t.topic = none ∧ t.type = .tmr ∧ t.ev = false ∧
      t.key = tmrKey ns
  | .subscriptionsPut m topic flags userptr =>
      t = EvSource.subscription m topic flags userptr
  | _ => False

/-- A small change on the way of the operation; it leaves old sources as they are. -/
inductive Op.Move (o : Op) : World → World → Prop where
  | outer {w w' : World} (hheap : w'.heap = w.heap) (htls : w'.tls = w.tls)
      (hhost : w'.host = w.host) : Move o w w'
  | ref {w w' : World} {p : ℕ} (h : w.ref p = some w') : Move o w w'
  | unrefAll {w w' : World} {ps : List ℕ} (h : w.unrefAll ps = some w') : Move o w w'
  | setCtx {w w' : World} {p : ℕ} {f : Ctx → Ctx} (h : w.setCtx p f = some w') : Move o w w'
  | setMod {w w' : World} {p : ℕ} {f : Mod → Mod} (h : w.setMod p f = some w') : Move o w w'
  | setEvt {w w' : World} {p : ℕ} {f : EvtPriv → EvtPriv} (h : w.setEvt p f = some w') :
      Move o w w'
  | new {w : World} {obj : Obj} (hobj : ∀ t, obj = .src t → o.MakesSrc t) :
      Move o w (w.new obj).2

abbrev Op.Path (o : Op) : World → World → Prop := Relation.ReflTransGen o.Move

namespace World

variable {o : Op} {w w' : World} {p : ℕ}

theorem path_sys (w : World) (s : Sys) : o.Path w { w with sys := s } :=
  .single (.outer rfl rfl rfl)

theorem path_newEvt {src : Option ℕ} {e : ℕ} (h : w.newEvt src = some (e, w')) :
    o.Path w w' := by
  unfold World.newEvt at h
  simp only [Option.bind_eq_bind, Option.bind_eq_some_iff, Option.some.injEq] at h
  obtain ⟨q, -, s, -, u, href, hnew⟩ := h
  cases hnew
  exact (Relation.ReflTransGen.single (.ref href)).tail (.new (by simp))

theorem path_allocPsMsg {msg : PsPriv} {sub : Option ℕ} {g : ℕ}
    (h : w.allocPsMsg msg sub = some (g, w')) : o.Path w w' := by
  unfold World.allocPsMsg at h
  split at h
  next =>
    cases h
    exact .single (.new (by simp))
  next =>
    simp only [Option.bind_eq_bind, Option.bind_eq_some_iff, Option.some.injEq] at h
    obtain ⟨u, href, hnew⟩ := h
    cases hnew
    exact (Relation.ReflTransGen.single (.ref href)).tail (.new (by simp))

theorem path_tell {m : ℕ} {msg : PsPriv} {sub : Option String} (h : w.tell m msg sub = some w') :
    o.Path w w' := by
  unfold World.tell at h
  simp only [Option.bind_eq_bind, Option.bind_eq_some_iff] at h
  obtain ⟨x, -, ⟨g, v⟩, halloc, h⟩ := h
  split at h
  next =>
    cases h
    exact (path_allocPsMsg halloc).trans (path_sys v _)
  next => cases h

theorem path_flushMsg {m : ℕ} {stopping : Bool} {flushed : Flushed}
    (h : w.flushMsg m stopping = some (flushed, w')) : o.Path w w' := by
  unfold World.flushMsg at h
  simp only [Option.bind_eq_bind, Option.bind_eq_some_iff] at h
  obtain ⟨x, -, h⟩ := h
  split at h
  next =>
    cases h
    exact .refl
  next =>
    split at h
    next =>
      cases h
      exact path_sys w _
    next mm _ =>
      simp only [Option.bind_eq_some_iff] at h
      obtain ⟨g, -, h⟩ := h
      split at h
      next =>
        simp only [Option.bind_eq_some_iff, Option.some.injEq] at h
        obtain ⟨⟨e, u⟩, hnew, v, hset, h⟩ := h
        cases h
        exact ((path_sys w _).trans (path_newEvt hnew)).tail (.setEvt hset)
      next =>
        simp only [Option.bind_eq_some_iff, Option.some.injEq] at h
        obtain ⟨u, hunref, h⟩ := h
        cases h
        exact (path_sys w _).tail (.unrefAll hunref)

theorem path_processPs {e : ℕ} {src : Option ℕ} (h : w.processPs e = some (src, w')) :
    o.Path w w' := by
  unfold World.processPs at h
  simp only [Option.bind_eq_bind, Option.bind_eq_some_iff] at h
  obtain ⟨x, -, this, -, s, -, h⟩ := h
  split at h
  next =>
    cases h
    exact path_sys w _
  next mm _ =>
    simp only [Option.bind_eq_some_iff] at h
    obtain ⟨g, -, u, hset, v, hunref, h⟩ := h
    have hv : o.Path w v := ((path_sys w _).tail (.setEvt hset)).tail (.unrefAll hunref)
    split at h
    next =>
      simp only [Option.bind_eq_some_iff, Option.some.injEq] at h
      obtain ⟨_, rfl, y, hset', h⟩ := h
      cases h
      exact hv.tail (.setEvt hset')
    next =>
      simp only [Option.bind_eq_some_iff, Option.some.injEq] at h
      obtain ⟨y, href, z, hset', h⟩ := h
      cases h
      exact (hv.tail (.ref href)).tail (.setEvt hset')

theorem path_modulesPut {m : ℕ} {name : String} {ret : ℤ}
    (h : w.modulesPut p name m = some (ret, w')) : o.Path w w' := by
  unfold World.modulesPut at h
  simp only [Option.bind_eq_bind, Option.bind_eq_some_iff] at h
  obtain ⟨x, -, y, -, h⟩ := h
  split at h
  next =>
    cases h
    exact .refl
  next =>
    simp only [Option.bind_eq_some_iff, Option.some.injEq] at h
    obtain ⟨u, hset, h⟩ := h
    cases h
    exact .single (.setCtx hset)

theorem path_buildMod {name : String} {flags : ℕ} {hook : Option ModHooks} {ret : ℤ × ℕ} {e : ℤ}
    (h : w.buildMod e p name flags hook = some (ret, w')) : o.Path w w' := by
  unfold World.buildMod at h
  simp only [Option.bind_eq_bind, Option.bind_eq_some_iff] at h
  obtain ⟨u, href, h⟩ := h
  have hnew : o.Path w (u.new (.mod (Mod.initial p name flags hook))).2 :=
    (Relation.ReflTransGen.single (.ref href)).tail (.new (by simp))
  split at h
  next =>
    simp only [Option.bind_eq_some_iff, Option.some.injEq] at h
    obtain ⟨v, hunref, h⟩ := h
    cases h
    exact hnew.tail (.unrefAll hunref)
  next =>
    simp only [Option.bind_eq_some_iff] at h
    obtain ⟨⟨ret, v⟩, hput, h⟩ := h
    have hv := hnew.trans (path_modulesPut hput)
    split at h
    next =>
      simp only [Option.bind_eq_some_iff, Option.some.injEq] at h
      obtain ⟨z, hunref, h⟩ := h
      cases h
      exact hv.tail (.unrefAll hunref)
    next =>
      simp only [Option.bind_eq_some_iff, Option.some.injEq] at h
      obtain ⟨z, hset, h⟩ := h
      cases h
      exact hv.tail (.setMod hset)

theorem path_newMod {name : String} {flags : ℕ} {hook : Option ModHooks} {ret : ℤ × ℕ}
    (h : w.newMod p name flags hook = some (ret, w')) : o.Path w w' :=
  (path_sys w _).trans (path_buildMod h)

theorem path_modulesRemove {name : String} {ret : ℤ}
    (h : w.modulesRemove p name = some (ret, w')) : o.Path w w' := by
  unfold World.modulesRemove at h
  simp only [Option.bind_eq_bind, Option.bind_eq_some_iff] at h
  obtain ⟨x, -, h⟩ := h
  split at h
  next =>
    cases h
    exact .refl
  next =>
    split at h
    next =>
      cases h
      exact .refl
    next =>
      simp only [Option.bind_eq_some_iff, Option.some.injEq] at h
      obtain ⟨u, hset, v, hunref, h⟩ := h
      cases h
      exact (Relation.ReflTransGen.single (.setCtx hset)).tail (.unrefAll hunref)

theorem path_subscriptionsPut {topic : String} {flags : ℕ} {userptr : Userptr} {ret : ℤ}
    (h : w.subscriptionsPut p topic flags userptr = some (ret, w')) :
    (Op.subscriptionsPut p topic flags userptr).Path w w' := by
  unfold World.subscriptionsPut at h
  simp only [Option.bind_eq_bind, Option.bind_eq_some_iff, Option.some.injEq] at h
  obtain ⟨x, -, u, hset, v, hunref, h⟩ := h
  cases h
  have hnew : (Op.subscriptionsPut p topic flags userptr).Path w
      (w.new (.src (EvSource.subscription p topic flags userptr))).2 :=
    .single (.new (by rintro t ⟨⟩; rfl))
  exact (hnew.tail (.setMod hset)).tail (.unrefAll hunref)

theorem path_subscriptionsRemove {topic : String} {ret : ℤ}
    (h : w.subscriptionsRemove p topic = some (ret, w')) : o.Path w w' := by
  unfold World.subscriptionsRemove at h
  simp only [Option.bind_eq_bind, Option.bind_eq_some_iff] at h
  obtain ⟨x, -, h⟩ := h
  split at h
  next =>
    cases h
    exact .refl
  next =>
    split at h
    next =>
      cases h
      exact .refl
    next =>
      simp only [Option.bind_eq_some_iff, Option.some.injEq] at h
      obtain ⟨u, hset, v, hunref, h⟩ := h
      cases h
      exact (Relation.ReflTransGen.single (.setMod hset)).tail (.unrefAll hunref)

theorem path_addSrc {type : MSrcType} {key : Words} {flags : ℕ} {userptr : Userptr}
    {ret : ℤ × ℕ} (h : w.addSrc p type key flags userptr = some (ret, w')) :
    (Op.addSrc p type key flags userptr).Path w w' := by
  unfold World.addSrc at h
  simp only [Option.bind_eq_bind, Option.bind_eq_some_iff] at h
  obtain ⟨x, -, ⟨inserted, t⟩, -, h⟩ := h
  have hnew : (Op.addSrc p type key flags userptr).Path w
      (({ w with sys := (createSrc (some p) type key flags userptr w.sys).2 } : World).new
        (.src (createSrc (some p) type key flags userptr w.sys).1)).2 :=
    (path_sys w _).tail (.new (by rintro t ⟨⟩; exact ⟨w.sys, rfl⟩))
  split at h
  next =>
    simp only [Option.bind_eq_some_iff, Option.some.injEq] at h
    obtain ⟨u, hset, h⟩ := h
    cases h
    exact hnew.tail (.setMod hset)
  next =>
    simp only [Option.bind_eq_some_iff, Option.some.injEq] at h
    obtain ⟨u, hunref, h⟩ := h
    cases h
    exact hnew.tail (.unrefAll hunref)

theorem path_bstRemove {type : MSrcType} {data : Words} {ret : ℤ}
    (h : w.bstRemove p type data = some (ret, w')) : o.Path w w' := by
  unfold World.bstRemove at h
  simp only [Option.bind_eq_bind, Option.bind_eq_some_iff, Option.some.injEq] at h
  obtain ⟨x, -, ⟨removed, t, destroyed⟩, -, u, hset, v, hunref, h⟩ := h
  cases h
  exact (Relation.ReflTransGen.single (.setMod hset)).tail (.unrefAll hunref)

theorem path_bstItrRemove {type : MSrcType} {ret : ℤ}
    (h : w.bstItrRemove p type = some (ret, w')) : o.Path w w' := by
  unfold World.bstItrRemove at h
  simp only [Option.bind_eq_bind, Option.bind_eq_some_iff, Option.some.injEq] at h
  obtain ⟨x, -, u, hset, v, hunref, h⟩ := h
  cases h
  exact (Relation.ReflTransGen.single (.setMod hset)).tail (.unrefAll hunref)

theorem path_pipe {ret : ℤ} (h : w.pipe p = some (ret, w')) : o.Path w w' := by
  unfold World.pipe at h
  split at h
  next =>
    cases h
    exact path_sys w _
  next =>
    simp only [Option.bind_eq_bind, Option.bind_eq_some_iff, Option.some.injEq] at h
    obtain ⟨u, hset, h⟩ := h
    cases h
    exact (path_sys w _).tail (.setMod hset)

theorem path_pollWait {blocking : Bool} {nfds : Option ℕ}
    (h : w.pollWait p blocking = some (nfds, w')) : o.Path w w' := by
  unfold World.pollWait at h
  simp only [Option.bind_eq_bind, Option.bind_eq_some_iff] at h
  obtain ⟨x, -, slots, -, h⟩ := h
  split at h
  next =>
    split at h
    next =>
      cases h
      exact .refl
    next =>
      cases h
      exact .single (.outer rfl rfl rfl)
  next answer polls _ =>
    split at h
    next =>
      cases h
      exact .single (.outer rfl rfl rfl)
    next =>
      simp only [Option.bind_eq_some_iff, Option.some.injEq] at h
      obtain ⟨u, hset, h⟩ := h
      cases h
      have hpolls : o.Path w { w with polls := polls } := .single (.outer rfl rfl rfl)
      have hu : o.Path w u := hpolls.tail (.setCtx hset)
      exact hu.tail (.outer rfl rfl rfl)

theorem path_pollRecv {src : Option ℕ} (h : w.pollRecv = some (src, w')) : o.Path w w' := by
  unfold World.pollRecv at h
  split at h
  next => cases h
  next =>
    simp only [Option.bind_eq_bind, Option.bind_eq_some_iff] at h
    obtain ⟨x, -, slots, -, h⟩ := h
    split at h
    next =>
      cases h
      exact .single (.outer rfl rfl rfl)
    next => cases h

end World

/-- Operations that are nothing but moves. -/
def Op.Moving : Op → Prop
  | .setTls _ | .pollSetNewEvt .. | .setSrcUserptr .. => False
  | _ => True

open World in
theorem Op.path {o : Op} {w w' : World} {r : o.Resp} (ho : o.Moving)
    (h : o.exec w = some (r, w')) : o.Path w w' := by
  cases o with
  | setTls | pollSetNewEvt | setSrcUserptr => exact ho.elim
  | get =>
      cases h
      exact .refl
  | pollDone | setErrno | close | readPriv | threadAdd =>
      cases h
      exact .single (.outer rfl rfl rfl)
  | newCtx =>
      cases h
      exact .single (.new (by simp))
  | newMod => exact path_newMod h
  | newTick c ns =>
      simp only [exec, Option.bind_eq_bind, Option.bind_eq_some_iff, Option.some.injEq] at h
      obtain ⟨u, hset, h⟩ := h
      cases h
      have hnew : (newTick c ns).Path w (w.new (.src
          { type := .tmr
            flags := M_SRC_PRIO_HIGH ||| M_SRC_INTERNAL
            fd := none
            key := tmrKey ns
            topic := none
            ev := false
            mod := none
            userptr := .user 0 })).2 :=
        .single (.new (by rintro t ⟨⟩; exact ⟨rfl, rfl, rfl, rfl, rfl⟩))
      exact hnew.tail (.setCtx hset)
  | dropTick c =>
      simp only [exec, Option.bind_eq_bind, Option.bind_eq_some_iff, Option.some.injEq] at h
      obtain ⟨x, -, u, hset, v, hunref, h⟩ := h
      cases h
      exact (Relation.ReflTransGen.single (.setCtx hset)).tail (.unrefAll hunref)
  | newEvt => exact path_newEvt h
  | processPs => exact path_processPs h
  | modulesRemove => exact path_modulesRemove h
  | subscriptionsPut => exact path_subscriptionsPut h
  | subscriptionsRemove => exact path_subscriptionsRemove h
  | flushMsg => exact path_flushMsg h
  | addSrc => exact path_addSrc h
  | bstRemove => exact path_bstRemove h
  | bstItrRemove => exact path_bstItrRemove h
  | pipe => exact path_pipe h
  | pollWait => exact path_pollWait h
  | pollRecv => exact path_pollRecv h
  | markRunning m =>
      simp only [exec, Option.bind_eq_bind, Option.bind_eq_some_iff, Option.some.injEq] at h
      obtain ⟨x, -, u, hmod, v, hctx, h⟩ := h
      cases h
      exact (Relation.ReflTransGen.single (.setMod hmod)).tail (.setCtx hctx)
  | markStopped m =>
      simp only [exec, Option.bind_eq_bind, Option.bind_eq_some_iff] at h
      obtain ⟨x, -, h⟩ := h
      split at h
      next =>
        simp only [Option.bind_eq_some_iff, Option.some.injEq] at h
        obtain ⟨u, hctx, v, hmod, h⟩ := h
        cases h
        exact (Relation.ReflTransGen.single (.setCtx hctx)).tail (.setMod hmod)
      next =>
        simp only [Option.bind_eq_some_iff, Option.some.injEq] at h
        obtain ⟨_, rfl, v, hmod, h⟩ := h
        cases h
        exact .single (.setMod hmod)
  | clear m queue =>
      simp only [exec, Option.bind_eq_bind, Option.bind_eq_some_iff, Option.some.injEq] at h
      obtain ⟨x, -, u, hset, v, hunref, h⟩ := h
      cases h
      exact (Relation.ReflTransGen.single (.setMod hset)).tail (.unrefAll hunref)
  | bind | stash =>
      simp only [exec, Option.bind_eq_bind, Option.bind_eq_some_iff, Option.some.injEq] at h
      obtain ⟨x, -, u, href, v, hset, h⟩ := h
      cases h
      exact (Relation.ReflTransGen.single (.ref href)).tail (.setMod hset)
  | enqueueBatch | takeBatch | unstash =>
      simp only [exec, Option.bind_eq_bind, Option.bind_eq_some_iff, Option.some.injEq] at h
      obtain ⟨x, -, v, hset, h⟩ := h
      cases h
      exact .single (.setMod hset)
  | refMod =>
      simp only [exec, Option.bind_eq_bind, Option.bind_eq_some_iff, Option.some.injEq] at h
      obtain ⟨x, -, u, href, h⟩ := h
      cases h
      exact .single (.ref href)
  | unrefMod | unrefCtx | unrefEvt =>
      simp only [exec, Option.bind_eq_bind, Option.bind_eq_some_iff, Option.some.injEq] at h
      obtain ⟨x, -, u, hunref, h⟩ := h
      cases h
      exact .single (.unrefAll hunref)
  | tell =>
      obtain ⟨u, htell, h⟩ := Option.map_eq_some_iff.mp h
      cases h
      exact path_tell htell
  | setCtx | pollInit | pollClear =>
      obtain ⟨u, hset, h⟩ := Option.map_eq_some_iff.mp h
      cases h
      exact .single (.setCtx hset)
  | setMod | markZombie =>
      obtain ⟨u, hset, h⟩ := Option.map_eq_some_iff.mp h
      cases h
      exact .single (.setMod hset)
  | setEvtOther | setEvtUserdata =>
      obtain ⟨u, hset, h⟩ := Option.map_eq_some_iff.mp h
      cases h
      exact .single (.setEvt hset)

/-! ## What operations leave as it is -/

section Same

variable {o : Op} {w w' : World} {r : o.Resp}

theorem World.length_unrefAll {ps : List ℕ} (h : w.unrefAll ps = some w') :
    w'.heap.length = w.heap.length := by
  unfold World.unrefAll at h
  simp only [Option.bind_eq_bind, Option.bind_eq_some_iff, Option.some.injEq] at h
  obtain ⟨⟨heap, sys⟩, hrun, rfl⟩ := h
  refine release_induct (fun _ h _ => h.length = w.heap.length) ?_ ?_ ?_ rfl hrun
  · intro p work h e hlength
    rw [length_put, hlength]
  · intro p work h e k b hlength _
    rw [length_put, hlength]
  · intro p work h e e' b hlength _ _
    rw [length_put, hlength]

/-- The thread has its context, and no address is given up. -/
structure SameThread (w w' : World) : Prop where
  tls : w'.tls = w.tls
  host : w'.host = w.host
  grows : w.heap.length ≤ w'.heap.length

theorem SameThread.trans {w₁ : World} (h : SameThread w w₁) (h₁ : SameThread w₁ w') :
    SameThread w w' where
  tls := h₁.tls.trans h.tls
  host := h₁.host.trans h.host
  grows := h.grows.trans h₁.grows

theorem Op.Move.sameThread (h : o.Move w w') : SameThread w w' := by
  cases h with
  | outer hheap htls hhost => exact ⟨htls, hhost, by rw [hheap]⟩
  | ref h =>
      have hlength := World.length_ref h
      unfold World.ref at h
      simp only [Option.bind_eq_bind, Option.bind_eq_some_iff, Option.some.injEq] at h
      obtain ⟨cell, -, rfl⟩ := h
      exact ⟨rfl, rfl, hlength.ge⟩
  | unrefAll h =>
      have hlength := World.length_unrefAll h
      unfold World.unrefAll at h
      simp only [Option.bind_eq_bind, Option.bind_eq_some_iff, Option.some.injEq] at h
      obtain ⟨_, -, rfl⟩ := h
      exact ⟨rfl, rfl, hlength.ge⟩
  | setCtx h =>
      obtain ⟨-, rfl⟩ := World.setCtx_eq_some.mp h
      exact ⟨rfl, rfl, (length_modify _ _ _).ge⟩
  | setMod h =>
      obtain ⟨-, rfl⟩ := World.setMod_eq_some.mp h
      exact ⟨rfl, rfl, (length_modify _ _ _).ge⟩
  | setEvt h =>
      obtain ⟨-, rfl⟩ := World.setEvt_eq_some.mp h
      exact ⟨rfl, rfl, (length_modify _ _ _).ge⟩
  | new => exact ⟨rfl, rfl, by simp [World.new]⟩

theorem Op.Path.sameThread (h : o.Path w w') : SameThread w w' := by
  induction h with
  | refl => exact ⟨rfl, rfl, le_rfl⟩
  | tail _ hmove ih => exact ih.trans hmove.sameThread

theorem World.sameThread_pollSetEvt {c src : ℕ} {flag : OpType} {ret : ℤ}
    (h : w.pollSetEvt c src flag = some (ret, w')) : SameThread w w' := by
  unfold World.pollSetEvt at h
  simp only [Option.bind_eq_bind, Option.bind_eq_some_iff, Option.some.injEq] at h
  obtain ⟨s, -, x, -, u, hset, h⟩ := h
  cases h
  obtain ⟨-, rfl⟩ := World.setSrc_eq_some.mp hset
  exact ⟨rfl, rfl, (length_modify _ _ _).ge⟩

/-- Only one operation changes the context of the thread. -/
theorem Op.sameThread (ho : ∀ c, o ≠ .setTls c) (h : o.exec w = some (r, w')) :
    SameThread w w' := by
  by_cases hmoving : o.Moving
  · exact (Op.path hmoving h).sameThread
  · cases o with
    | setTls c => exact absurd rfl (ho c)
    | pollSetNewEvt => exact World.sameThread_pollSetEvt h
    | setSrcUserptr =>
        obtain ⟨u, hset, h⟩ := Option.map_eq_some_iff.mp h
        cases h
        obtain ⟨-, rfl⟩ := World.setSrc_eq_some.mp hset
        exact ⟨rfl, rfl, (length_modify _ _ _).ge⟩
    | _ => exact absurd trivial hmoving

theorem Op.grows (h : o.exec w = some (r, w')) : w.heap.length ≤ w'.heap.length := by
  by_cases ho : ∃ c, o = .setTls c
  · obtain ⟨c, rfl⟩ := ho
    cases h
    exact le_rfl
  · exact (Op.sameThread (fun c hc => ho ⟨c, hc⟩) h).grows

end Same

end Libmodule
