import Mathlib.Logic.Relation
import Libmodule.Operation

/-!
# System calls of an operation

What lies outside of the heap changes one system call at a time.  A property of
descriptors, pipes and epoll sets that each of these keeps is one that every
operation keeps.  The messages that are written to pipes are a parameter.
-/

namespace Libmodule

open RefHeap SearchTree Reentrant

namespace Sys

/-- One change of the state outside of the heap. -/
inductive Step (sent : ℕ → Prop) : Sys → Sys → Prop where
  | errno (s : Sys) (errno : ℤ) : Step sent s { s with errno := errno }
  | fault (s : Sys) (faults : List ℤ) : Step sent s { s with faults := faults }
  | close (s : Sys) (fd : ℕ) : Step sent s { s with files := s.files.set fd .closed }
  | pipe (s : Sys) :
      Step sent s
        { s with
          files := s.files ++ [.pipeRead s.pipes.length, .pipeWrite s.pipes.length]
          pipes := s.pipes ++ [[]] }
  | receive (s : Sys) (p : ℕ) (msgs : List ℕ) (hmsgs : msgs ⊆ (s.pipes[p]?).getD []) :
      Step sent s { s with pipes := s.pipes.set p msgs }
  | send (s : Sys) (p g : ℕ) (hg : sent g) :
      Step sent s { s with pipes := s.pipes.set p ((s.pipes[p]?).getD [] ++ [g]) }
  | dup (s : Sys) (fd : Option ℕ) : Step sent s { s with files := s.files ++ [s.file fd] }
  | create (s : Sys) : Step sent s { s with files := s.files ++ [.other] }
  | epoll (s : Sys) (watches : List Watch) : Step sent s { s with epoll := watches }
  | freedData (s : Sys) (freed : List (ℕ × ℕ)) : Step sent s { s with freedData := freed }
  | freedUserptr (s : Sys) (freed : List (ℕ × Userptr)) :
      Step sent s { s with freedUserptr := freed }

abbrev Steps (sent : ℕ → Prop) : Sys → Sys → Prop := Relation.ReflTransGen (Step sent)

section Calls

variable {sent : ℕ → Prop} (s : Sys)

theorem steps_fault : Steps sent s s.fault.2 := by
  rw [fault_eq]
  exact .single (.fault s _)

theorem steps_close (fd : Option ℕ) : Steps sent s (s.close fd) := by
  unfold close
  split
  next => exact .single (.errno s _)
  next => exact .single (.errno s _)
  next fd _ => exact (Relation.ReflTransGen.single (.close s fd)).tail (.epoll _ _)

theorem steps_pipe : Steps sent s s.pipe.2 := by
  simp only [pipe, fault_eq]
  have hfault : Steps sent s { s with faults := s.faults.tail } := .single (.fault s _)
  split
  next => exact hfault.tail (.errno _ _)
  next => exact hfault.tail (.pipe _)

theorem steps_readMsg (fd : Option ℕ) : Steps sent s (s.readMsg fd).2 := by
  unfold readMsg
  split
  next =>
    split
    next => exact .single (.errno s _)
    next msg msgs hread =>
      refine .single (.receive s _ msgs ?_)
      rw [hread]
      exact List.subset_cons_self msg msgs
  next => exact .single (.errno s _)

theorem steps_writeMsg (capacity : ℕ) (fd : Option ℕ) {msg : ℕ} (hmsg : sent msg) :
    Steps sent s (s.writeMsg capacity fd msg).2 := by
  unfold writeMsg
  split
  next =>
    dsimp only
    split
    next => exact .single (.send s _ msg hmsg)
    next => exact .single (.errno s _)
  next => exact .single (.errno s _)

theorem steps_readPriv : Steps sent s s.readPriv.2 := by
  simp only [readPriv, fault_eq]
  have hfault : Steps sent s { s with faults := s.faults.tail } := .single (.fault s _)
  split
  next => exact hfault.tail (.errno _ _)
  next => exact hfault

theorem steps_createPrivFd : Steps sent s s.createPrivFd.2 := by
  simp only [createPrivFd, fault_eq]
  have hfault : Steps sent s { s with faults := s.faults.tail } := .single (.fault s _)
  split
  next => exact hfault.tail (.errno _ _)
  next => exact hfault.tail (.create _)

theorem steps_dup (fd : Option ℕ) : Steps sent s (s.dup fd).2 := by
  simp only [dup, fault_eq]
  have hfault : Steps sent s { s with faults := s.faults.tail } := .single (.fault s _)
  split
  next => exact .single (.errno s _)
  next =>
    split
    next => exact hfault.tail (.errno _ _)
    next => exact hfault.tail (.dup _ fd)

theorem steps_epollAdd (c : ℕ) (fd : Option ℕ) (src : ℕ) : Steps sent s (s.epollAdd c fd src).2 := by
  simp only [epollAdd, fault_eq]
  have hfault : Steps sent s { s with faults := s.faults.tail } := .single (.fault s _)
  split
  next => exact .single (.errno s _)
  next => exact .single (.errno s _)
  next =>
    split
    next => exact .single (.errno s _)
    next =>
      split
      next => exact hfault.tail (.errno _ _)
      next => exact hfault.tail (.epoll _ _)

theorem steps_epollDel (c : ℕ) (fd : Option ℕ) : Steps sent s (s.epollDel c fd).2 := by
  unfold epollDel
  split
  next => exact .single (.errno s _)
  next => exact .single (.errno s _)
  next =>
    split
    next => exact .single (.epoll s _)
    next => exact .single (.errno s _)

theorem steps_pollSetNewEvt (c p : ℕ) (src : EvSource) (flag : OpType) :
    Steps sent s (pollSetNewEvt c p src flag s).2.2 := by
  unfold pollSetNewEvt
  split
  next => exact .refl
  next =>
    have herrno : Steps sent s { s with errno := 0 } := .single (.errno s 0)
    cases flag with
    | add =>
        dsimp only
        split
        next =>
          exact (herrno.trans (steps_createPrivFd _)).trans (steps_epollAdd _ _ _ _)
        next => exact herrno.trans (steps_epollAdd _ _ _ _)
    | rm =>
        dsimp only
        split
        next => exact (herrno.trans (steps_epollDel _ _ _)).trans (steps_close _ _)
        next => exact herrno.trans (steps_epollDel _ _ _)

theorem steps_createSrc (m : Option ℕ) (type : MSrcType) (key : Words) (flags : ℕ)
    (userptr : Userptr) : Steps sent s (World.createSrc m type key flags userptr s).2 := by
  unfold World.createSrc
  split
  case h_1 | h_2 =>
    dsimp only
    split
    next => exact steps_dup s _
    next => exact .refl
  all_goals exact .refl

end Calls

/-! ## Destructors -/

section Destructors

variable {sent : ℕ → Prop} {h : Heap Obj} {p : ℕ} {s s' : Sys}

theorem steps_srcAutoclose (t : EvSource) (s : Sys) : Steps sent s (srcAutoclose t s) := by
  unfold srcAutoclose
  split
  next => exact steps_close s _
  next => exact .refl

theorem steps_srcAutofree (p : ℕ) (t : EvSource) (s : Sys) : Steps sent s (srcAutofree p t s) := by
  unfold srcAutofree
  split
  next => exact .single (.freedUserptr s _)
  next => exact .refl

theorem steps_srcDisarm {t : EvSource} (hdisarm : srcDisarm h p t s = some s') :
    Steps sent s s' := by
  unfold srcDisarm at hdisarm
  split at hdisarm
  next =>
    cases hdisarm
    exact .refl
  next =>
    simp only [Option.bind_eq_bind, Option.bind_eq_some_iff] at hdisarm
    obtain ⟨mod, -, hdisarm⟩ := hdisarm
    split at hdisarm
    next =>
      obtain ⟨x, -, hdisarm⟩ := Option.bind_eq_some_iff.mp hdisarm
      cases hdisarm
      exact steps_pollSetNewEvt s _ _ _ _
    next =>
      cases hdisarm
      exact .refl

theorem steps_ctxDtor (h : Heap Obj) (p : ℕ) (c : Ctx) (s : Sys) :
    Steps sent s (ctxDtor h p c s) := by
  unfold ctxDtor
  dsimp only
  split
  next => exact .single (.epoll s _)
  next => exact (steps_pollSetNewEvt s _ _ _ _).tail (.epoll _ _)

theorem steps_dtor {o : Obj} (hdtor : Obj.dtor h p o s = some s') : Steps sent s s' := by
  cases o with
  | ctx c =>
      cases hdtor
      exact steps_ctxDtor h p c s
  | mod | evt =>
      cases hdtor
      exact .refl
  | src t =>
      simp only [Obj.dtor] at hdtor
      split at hdtor
      next =>
        cases hdtor
        exact steps_srcAutofree p t s
      next =>
        obtain ⟨s₁, hs₁, rfl⟩ := Option.map_eq_some_iff.mp hdtor
        exact ((steps_srcDisarm hs₁).trans (steps_srcAutoclose t s₁)).trans
          (steps_srcAutofree p t _)
  | msg g =>
      cases hdtor
      unfold psMsgDtor
      split
      next => exact .single (.freedData s _)
      next => exact .refl

theorem steps_unrefAll {w w' : World} {ps : List ℕ} (h : w.unrefAll ps = some w') :
    Steps sent w.sys w'.sys := by
  unfold World.unrefAll at h
  simp only [Option.bind_eq_bind, Option.bind_eq_some_iff, Option.some.injEq] at h
  obtain ⟨⟨heap, sys⟩, hrun, rfl⟩ := h
  refine release_induct (fun _ _ s => Steps sent w.sys s) ?_ ?_ ?_ .refl hrun
  · intro p work h e hs
    exact hs
  · intro p work h e k b hs _
    exact hs
  · intro p work h e e' b hs _ hdtor
    exact hs.trans (steps_dtor hdtor)

end Destructors

end Sys

/-! ## Operations -/

namespace World

open Sys

variable {sent : ℕ → Prop} {w w' : World} {p : ℕ}

theorem sys_ref (h : w.ref p = some w') : w'.sys = w.sys := by
  unfold World.ref at h
  simp only [Option.bind_eq_bind, Option.bind_eq_some_iff, Option.some.injEq] at h
  obtain ⟨c, -, rfl⟩ := h
  rfl

theorem sys_setCtx {f : Ctx → Ctx} (h : w.setCtx p f = some w') : w'.sys = w.sys := by
  obtain ⟨-, rfl⟩ := setCtx_eq_some.mp h
  rfl

theorem sys_setMod {f : Mod → Mod} (h : w.setMod p f = some w') : w'.sys = w.sys := by
  obtain ⟨-, rfl⟩ := setMod_eq_some.mp h
  rfl

theorem sys_setSrc {f : EvSource → EvSource} (h : w.setSrc p f = some w') :
    w'.sys = w.sys := by
  obtain ⟨-, rfl⟩ := setSrc_eq_some.mp h
  rfl

theorem sys_setEvt {f : EvtPriv → EvtPriv} (h : w.setEvt p f = some w') : w'.sys = w.sys := by
  obtain ⟨-, rfl⟩ := setEvt_eq_some.mp h
  rfl

theorem sys_newEvt {src : Option ℕ} {e : ℕ} (h : w.newEvt src = some (e, w')) :
    w'.sys = w.sys := by
  unfold World.newEvt at h
  simp only [Option.bind_eq_bind, Option.bind_eq_some_iff, Option.some.injEq] at h
  obtain ⟨q, -, s, -, u, href, hnew⟩ := h
  cases hnew
  have hu : u.sys = w.sys := sys_ref href
  exact hu

theorem sys_allocPsMsg {msg : PsPriv} {sub : Option ℕ} {g : ℕ}
    (h : w.allocPsMsg msg sub = some (g, w')) : w'.sys = w.sys := by
  unfold World.allocPsMsg at h
  split at h
  next =>
    cases h
    rfl
  next =>
    simp only [Option.bind_eq_bind, Option.bind_eq_some_iff, Option.some.injEq] at h
    obtain ⟨u, href, hnew⟩ := h
    cases hnew
    have hu : u.sys = w.sys := sys_ref href
    exact hu

theorem allocPsMsg_lt {msg : PsPriv} {sub : Option ℕ} {g : ℕ}
    (h : w.allocPsMsg msg sub = some (g, w')) : g < w'.heap.length := by
  unfold World.allocPsMsg at h
  split at h
  next =>
    cases h
    simp
  next =>
    simp only [Option.bind_eq_bind, Option.bind_eq_some_iff, Option.some.injEq] at h
    obtain ⟨u, -, hnew⟩ := h
    cases hnew
    simp

theorem steps_tell {m : ℕ} {msg : PsPriv} {sub : Option String} (h : w.tell m msg sub = some w') :
    Steps (· < w'.heap.length) w.sys w'.sys := by
  unfold World.tell at h
  simp only [Option.bind_eq_bind, Option.bind_eq_some_iff] at h
  obtain ⟨x, -, ⟨g, v⟩, halloc, h⟩ := h
  split at h
  next =>
    cases h
    rw [← sys_allocPsMsg halloc]
    have hlt : g < v.heap.length := allocPsMsg_lt halloc
    exact steps_writeMsg _ _ _ hlt
  next => cases h

theorem steps_flushMsg {m : ℕ} {stopping : Bool} {flushed : Flushed}
    (h : w.flushMsg m stopping = some (flushed, w')) : Steps sent w.sys w'.sys := by
  unfold World.flushMsg at h
  simp only [Option.bind_eq_bind, Option.bind_eq_some_iff] at h
  obtain ⟨x, -, h⟩ := h
  split at h
  next =>
    cases h
    exact .refl
  next =>
    have hread : Steps sent w.sys _ := steps_readMsg w.sys x.pubsubFd0
    split at h
    next =>
      cases h
      exact hread
    next mm _ =>
      simp only [Option.bind_eq_some_iff] at h
      obtain ⟨g, -, h⟩ := h
      split at h
      next =>
        simp only [Option.bind_eq_some_iff, Option.some.injEq] at h
        obtain ⟨⟨e, u⟩, hnew, v, hset, h⟩ := h
        cases h
        rw [sys_setEvt hset, sys_newEvt hnew]
        exact hread
      next =>
        simp only [Option.bind_eq_some_iff, Option.some.injEq] at h
        obtain ⟨u, hunref, h⟩ := h
        cases h
        exact hread.trans (steps_unrefAll hunref)

theorem steps_processPs {e : ℕ} {src : Option ℕ} (h : w.processPs e = some (src, w')) :
    Steps sent w.sys w'.sys := by
  unfold World.processPs at h
  simp only [Option.bind_eq_bind, Option.bind_eq_some_iff] at h
  obtain ⟨x, -, this, -, s, -, h⟩ := h
  have hread : Steps sent w.sys _ := steps_readMsg w.sys s.fd
  split at h
  next =>
    cases h
    exact hread
  next mm _ =>
    simp only [Option.bind_eq_some_iff] at h
    obtain ⟨g, -, u, hset, v, hunref, h⟩ := h
    have hv : Steps sent w.sys v.sys := by
      refine hread.trans ?_
      have hu : Steps sent u.sys v.sys := steps_unrefAll hunref
      rwa [sys_setEvt hset] at hu
    split at h
    next =>
      simp only [Option.bind_eq_some_iff, Option.some.injEq] at h
      obtain ⟨_, rfl, y, hset', h⟩ := h
      cases h
      rwa [sys_setEvt hset']
    next =>
      simp only [Option.bind_eq_some_iff, Option.some.injEq] at h
      obtain ⟨y, href, z, hset', h⟩ := h
      cases h
      rwa [sys_setEvt hset', sys_ref href]

theorem sys_modulesPut {m : ℕ} {name : String} {ret : ℤ}
    (h : w.modulesPut p name m = some (ret, w')) : w'.sys = w.sys := by
  unfold World.modulesPut at h
  simp only [Option.bind_eq_bind, Option.bind_eq_some_iff] at h
  obtain ⟨x, -, y, -, h⟩ := h
  split at h
  next =>
    cases h
    rfl
  next =>
    simp only [Option.bind_eq_some_iff, Option.some.injEq] at h
    obtain ⟨u, hset, h⟩ := h
    cases h
    exact sys_setCtx hset

theorem steps_buildMod {name : String} {flags : ℕ} {hook : Option ModHooks} {ret : ℤ × ℕ} {e : ℤ}
    (h : w.buildMod e p name flags hook = some (ret, w')) : Steps sent w.sys w'.sys := by
  unfold World.buildMod at h
  simp only [Option.bind_eq_bind, Option.bind_eq_some_iff] at h
  obtain ⟨u, href, h⟩ := h
  rw [← sys_ref href]
  split at h
  next =>
    simp only [Option.bind_eq_some_iff, Option.some.injEq] at h
    obtain ⟨v, hunref, h⟩ := h
    cases h
    have hv : Steps sent _ _ := steps_unrefAll hunref
    exact hv
  next =>
    simp only [Option.bind_eq_some_iff] at h
    obtain ⟨⟨ret, v⟩, hput, h⟩ := h
    have hnew := sys_modulesPut hput
    have hv : v.sys = u.sys := hnew
    split at h
    next =>
      simp only [Option.bind_eq_some_iff, Option.some.injEq] at h
      obtain ⟨z, hunref, h⟩ := h
      cases h
      have hz : Steps sent v.sys w'.sys := steps_unrefAll hunref
      rwa [hv] at hz
    next =>
      simp only [Option.bind_eq_some_iff, Option.some.injEq] at h
      obtain ⟨z, hset, h⟩ := h
      cases h
      rw [sys_setMod hset, hv]

theorem steps_newMod {name : String} {flags : ℕ} {hook : Option ModHooks} {ret : ℤ × ℕ}
    (h : w.newMod p name flags hook = some (ret, w')) : Steps sent w.sys w'.sys :=
  (steps_fault w.sys).trans (steps_buildMod h)

theorem steps_modulesRemove {name : String} {ret : ℤ}
    (h : w.modulesRemove p name = some (ret, w')) : Steps sent w.sys w'.sys := by
  unfold World.modulesRemove at h
  simp only [Option.bind_eq_bind, Option.bind_eq_some_iff] at h
  obtain ⟨x, -, h⟩ := h
  split at h
  next =>
    cases h
    exact .refl
  next =>
    split at h
    next =>
      cases h
      exact .refl
    next =>
      simp only [Option.bind_eq_some_iff, Option.some.injEq] at h
      obtain ⟨u, hset, v, hunref, h⟩ := h
      cases h
      rw [← sys_setCtx hset]
      exact steps_unrefAll hunref

theorem steps_subscriptionsPut {topic : String} {flags : ℕ} {userptr : Userptr} {ret : ℤ}
    (h : w.subscriptionsPut p topic flags userptr = some (ret, w')) : Steps sent w.sys w'.sys := by
  unfold World.subscriptionsPut at h
  simp only [Option.bind_eq_bind, Option.bind_eq_some_iff, Option.some.injEq] at h
  obtain ⟨x, -, u, hset, v, hunref, h⟩ := h
  cases h
  have hu := sys_setMod hset
  have hdrop : Steps sent u.sys w'.sys := steps_unrefAll hunref
  rwa [hu] at hdrop

theorem steps_subscriptionsRemove {topic : String} {ret : ℤ}
    (h : w.subscriptionsRemove p topic = some (ret, w')) : Steps sent w.sys w'.sys := by
  unfold World.subscriptionsRemove at h
  simp only [Option.bind_eq_bind, Option.bind_eq_some_iff] at h
  obtain ⟨x, -, h⟩ := h
  split at h
  next =>
    cases h
    exact .refl
  next =>
    split at h
    next =>
      cases h
      exact .refl
    next =>
      simp only [Option.bind_eq_some_iff, Option.some.injEq] at h
      obtain ⟨u, hset, v, hunref, h⟩ := h
      cases h
      rw [← sys_setMod hset]
      exact steps_unrefAll hunref

theorem steps_addSrc {type : MSrcType} {key : Words} {flags : ℕ} {userptr : Userptr}
    {ret : ℤ × ℕ} (h : w.addSrc p type key flags userptr = some (ret, w')) :
    Steps sent w.sys w'.sys := by
  unfold World.addSrc at h
  simp only [Option.bind_eq_bind, Option.bind_eq_some_iff] at h
  obtain ⟨x, -, ⟨inserted, t⟩, -, h⟩ := h
  have hcreate : Steps sent w.sys _ := steps_createSrc w.sys (some p) type key flags userptr
  split at h
  next =>
    simp only [Option.bind_eq_some_iff, Option.some.injEq] at h
    obtain ⟨u, hset, h⟩ := h
    cases h
    rw [World.setTree] at hset
    rwa [sys_setMod hset]
  next =>
    simp only [Option.bind_eq_some_iff, Option.some.injEq] at h
    obtain ⟨u, hunref, h⟩ := h
    cases h
    exact hcreate.trans (steps_unrefAll hunref)

theorem steps_bstRemove {type : MSrcType} {data : Words} {ret : ℤ}
    (h : w.bstRemove p type data = some (ret, w')) : Steps sent w.sys w'.sys := by
  unfold World.bstRemove at h
  simp only [Option.bind_eq_bind, Option.bind_eq_some_iff, Option.some.injEq] at h
  obtain ⟨x, -, ⟨removed, t, destroyed⟩, -, u, hset, v, hunref, h⟩ := h
  cases h
  rw [World.setTree] at hset
  rw [← sys_setMod hset]
  exact steps_unrefAll hunref

theorem steps_bstItrRemove {type : MSrcType} {ret : ℤ}
    (h : w.bstItrRemove p type = some (ret, w')) : Steps sent w.sys w'.sys := by
  unfold World.bstItrRemove at h
  simp only [Option.bind_eq_bind, Option.bind_eq_some_iff, Option.some.injEq] at h
  obtain ⟨x, -, u, hset, v, hunref, h⟩ := h
  cases h
  rw [World.setTree] at hset
  rw [← sys_setMod hset]
  exact steps_unrefAll hunref

theorem steps_worldPipe {ret : ℤ} (h : w.pipe p = some (ret, w')) : Steps sent w.sys w'.sys := by
  have hpipe : Steps sent w.sys w.sys.pipe.2 := steps_pipe w.sys
  unfold World.pipe at h
  split at h
  next sys heq =>
    cases h
    rwa [heq] at hpipe
  next fd0 fd1 sys heq =>
    simp only [Option.bind_eq_bind, Option.bind_eq_some_iff, Option.some.injEq] at h
    obtain ⟨u, hset, h⟩ := h
    cases h
    rw [heq] at hpipe
    rwa [sys_setMod hset]

theorem steps_pollSetEvt {src : ℕ} {flag : OpType} {ret : ℤ}
    (h : w.pollSetEvt p src flag = some (ret, w')) : Steps sent w.sys w'.sys := by
  unfold World.pollSetEvt at h
  simp only [Option.bind_eq_bind, Option.bind_eq_some_iff, Option.some.injEq] at h
  obtain ⟨s, -, x, -, u, hset, h⟩ := h
  cases h
  rw [sys_setSrc hset]
  exact steps_pollSetNewEvt w.sys _ _ _ _

theorem steps_pollWait {blocking : Bool} {nfds : Option ℕ}
    (h : w.pollWait p blocking = some (nfds, w')) : Steps sent w.sys w'.sys := by
  unfold World.pollWait at h
  simp only [Option.bind_eq_bind, Option.bind_eq_some_iff] at h
  obtain ⟨x, -, slots, -, h⟩ := h
  split at h
  next =>
    split at h
    next =>
      cases h
      exact .refl
    next =>
      cases h
      exact .refl
  next =>
    split at h
    next =>
      cases h
      exact .single (.errno w.sys _)
    next =>
      simp only [Option.bind_eq_some_iff, Option.some.injEq] at h
      obtain ⟨u, hset, h⟩ := h
      cases h
      have hu := sys_setCtx hset
      show Steps sent w.sys u.sys
      rw [hu]

theorem sys_pollRecv {src : Option ℕ} (h : w.pollRecv = some (src, w')) : w'.sys = w.sys := by
  unfold World.pollRecv at h
  split at h
  next => cases h
  next =>
    simp only [Option.bind_eq_bind, Option.bind_eq_some_iff] at h
    obtain ⟨x, -, slots, -, h⟩ := h
    split at h
    next =>
      cases h
      rfl
    next => cases h

end World

open World Sys in
/-- An operation changes what lies outside of the heap by system calls, and writes no
message but one that is there. -/
theorem Op.steps {o : Op} {w w' : World} {r : o.Resp} (h : o.exec w = some (r, w')) :
    Sys.Steps (· < w'.heap.length) w.sys w'.sys := by
  cases o with
  | get | setTls | pollDone =>
      cases h
      exact .refl
  | setErrno =>
      cases h
      exact .single (.errno w.sys _)
  | close =>
      cases h
      exact steps_close w.sys _
  | readPriv =>
      cases h
      exact steps_readPriv w.sys
  | threadAdd =>
      cases h
      exact steps_fault w.sys
  | newCtx =>
      cases h
      exact .refl
  | newMod => exact steps_newMod h
  | newTick c ns =>
      simp only [exec, Option.bind_eq_bind, Option.bind_eq_some_iff, Option.some.injEq] at h
      obtain ⟨u, hset, h⟩ := h
      cases h
      rw [sys_setCtx hset]
      exact steps_createSrc w.sys _ _ _ _ _
  | dropTick c =>
      simp only [exec, Option.bind_eq_bind, Option.bind_eq_some_iff, Option.some.injEq] at h
      obtain ⟨x, -, u, hset, v, hunref, h⟩ := h
      cases h
      rw [← sys_setCtx hset]
      exact steps_unrefAll hunref
  | newEvt =>
      rw [sys_newEvt h]
  | processPs => exact steps_processPs h
  | modulesRemove => exact steps_modulesRemove h
  | subscriptionsPut => exact steps_subscriptionsPut h
  | subscriptionsRemove => exact steps_subscriptionsRemove h
  | flushMsg => exact steps_flushMsg h
  | addSrc => exact steps_addSrc h
  | bstRemove => exact steps_bstRemove h
  | bstItrRemove => exact steps_bstItrRemove h
  | pipe => exact steps_worldPipe h
  | pollSetNewEvt => exact steps_pollSetEvt h
  | pollWait => exact steps_pollWait h
  | pollRecv => rw [sys_pollRecv h]
  | markRunning m =>
      simp only [exec, Option.bind_eq_bind, Option.bind_eq_some_iff, Option.some.injEq] at h
      obtain ⟨x, -, u, hmod, v, hctx, h⟩ := h
      cases h
      rw [sys_setCtx hctx, sys_setMod hmod]
  | markStopped m =>
      simp only [exec, Option.bind_eq_bind, Option.bind_eq_some_iff] at h
      obtain ⟨x, -, h⟩ := h
      split at h
      next =>
        simp only [Option.bind_eq_some_iff, Option.some.injEq] at h
        obtain ⟨u, hctx, v, hmod, h⟩ := h
        cases h
        rw [sys_setMod hmod, sys_setCtx hctx]
      next =>
        simp only [Option.bind_eq_some_iff, Option.some.injEq] at h
        obtain ⟨_, rfl, v, hmod, h⟩ := h
        cases h
        rw [sys_setMod hmod]
  | clear m queue =>
      simp only [exec, Option.bind_eq_bind, Option.bind_eq_some_iff, Option.some.injEq] at h
      obtain ⟨x, -, u, hset, v, hunref, h⟩ := h
      cases h
      rw [← sys_setMod hset]
      exact steps_unrefAll hunref
  | bind | stash =>
      simp only [exec, Option.bind_eq_bind, Option.bind_eq_some_iff, Option.some.injEq] at h
      obtain ⟨x, -, u, href, v, hset, h⟩ := h
      cases h
      rw [sys_setMod hset, sys_ref href]
  | enqueueBatch | takeBatch | unstash =>
      simp only [exec, Option.bind_eq_bind, Option.bind_eq_some_iff, Option.some.injEq] at h
      obtain ⟨x, -, v, hset, h⟩ := h
      cases h
      rw [sys_setMod hset]
  | refMod =>
      simp only [exec, Option.bind_eq_bind, Option.bind_eq_some_iff, Option.some.injEq] at h
      obtain ⟨x, -, u, href, h⟩ := h
      cases h
      rw [sys_ref href]
  | unrefMod | unrefCtx | unrefEvt =>
      simp only [exec, Option.bind_eq_bind, Option.bind_eq_some_iff, Option.some.injEq] at h
      obtain ⟨x, -, u, hunref, h⟩ := h
      cases h
      exact steps_unrefAll hunref
  | tell =>
      obtain ⟨u, htell, h⟩ := Option.map_eq_some_iff.mp h
      cases h
      exact steps_tell htell
  | setCtx | pollInit | pollClear =>
      obtain ⟨u, hset, h⟩ := Option.map_eq_some_iff.mp h
      cases h
      rw [sys_setCtx hset]
  | setMod | markZombie =>
      obtain ⟨u, hset, h⟩ := Option.map_eq_some_iff.mp h
      cases h
      rw [sys_setMod hset]
  | setEvtOther | setEvtUserdata =>
      obtain ⟨u, hset, h⟩ := Option.map_eq_some_iff.mp h
      cases h
      rw [sys_setEvt hset]
  | setSrcUserptr =>
      obtain ⟨u, hset, h⟩ := Option.map_eq_some_iff.mp h
      cases h
      rw [sys_setSrc hset]

end Libmodule
