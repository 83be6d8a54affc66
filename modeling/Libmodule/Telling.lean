import Libmodule.Advancing
import Libmodule.MessageData
import Libmodule.SysSteps

/-!
# What sending leaves as it is

The messages that the library sends about its modules only make copies and write to
pipes: the sources, what a module holds of them, the open descriptors and the epoll sets
are afterwards what they were.
-/

namespace Libmodule

open RefHeap SearchTree Reentrant

/-! ## The steps of sending -/

section Every

variable {depth : ℕ} {w : World} {Q : Step LibLang World → Prop} (hQ : OfReads Q)

namespace OfReads

include hQ

theorem derefSrc_every (p : ℕ) : (derefSrc p).Every (handler depth) Q w := by
  rw [derefSrc, Prog.every_bind]
  exact ⟨hQ.getWorld_every, fun _ _ _ => hQ.orHalt_every _⟩

theorem getErrno_every : getErrno.Every (handler depth) Q w := by
  rw [getErrno, Prog.every_bind]
  exact ⟨hQ.getWorld_every, fun _ _ _ => Prog.every_pure⟩

theorem fetchRegex_every (topic : String) (subs : NameTable) :
    (fetchRegex topic subs).Every (handler depth) Q w := by
  induction subs generalizing w with
  | nil => exact Prog.every_pure
  | cons entry subs ih =>
      unfold fetchRegex
      rw [Prog.every_bind]
      refine ⟨hQ.derefSrc_every _, fun s u _ => ?_⟩
      rw [Prog.every_bind]
      refine ⟨hQ.getWorld_every, fun v u _ => ?_⟩
      split
      next => exact Prog.every_pure
      next => exact ih

theorem fetchSub_every (m : ℕ) (topic : String) :
    (fetchSub m topic).Every (handler depth) Q w := by
  unfold fetchSub
  rw [Prog.every_bind]
  refine ⟨hQ.derefMod_every m, fun x u _ => ?_⟩
  split
  next => exact Prog.every_pure
  next => exact hQ.fetchRegex_every topic _

variable (htell : ∀ m msg sub w, Q ⟨.op (.tell m msg sub), w⟩)

include htell

theorem tellIf_every (msg : PsPriv) (key : Option String) (m : ℕ) :
    (tellIf msg key m).Every (handler depth) Q w := by
  unfold tellIf
  rw [Prog.every_bind]
  refine ⟨hQ.derefMod_every m, fun x u _ => ?_⟩
  dsimp only
  generalize (if msg.topic.isSome then key else none) = sub
  split
  next =>
    rw [Prog.every_bind]
    exact ⟨act_every.mpr (htell _ _ _ _), fun _ _ _ => Prog.every_pure⟩
  next => exact Prog.every_pure

theorem tellSubscribers_every (msg : PsPriv) (topic : String) (ms : List ℕ) :
    (tellSubscribers msg topic ms).Every (handler depth) Q w := by
  induction ms generalizing w with
  | nil => exact Prog.every_pure
  | cons m ms ih =>
      unfold tellSubscribers
      rw [Prog.every_bind]
      refine ⟨hQ.derefMod_every m, fun x u _ => ?_⟩
      split
      next =>
        rw [Prog.every_bind]
        refine ⟨hQ.fetchSub_every m topic, fun key v _ => ?_⟩
        cases key with
        | none => exact ih
        | some key =>
            exact Prog.every_bind.mpr ⟨hQ.tellIf_every htell msg _ m, fun _ _ _ => ih⟩
      next => exact ih

theorem tellSystemPubsubMsg_every (c : ℕ) (sender : Option ℕ) (topic : String) :
    (tellSystemPubsubMsg none c sender topic).Every (handler depth) Q w := by
  unfold tellSystemPubsubMsg tellPubsubMsg
  rw [Prog.every_bind]
  refine ⟨hQ.derefCtx_every c, fun x u _ => ?_⟩
  rw [Prog.every_bind]
  exact ⟨hQ.tellSubscribers_every htell _ topic _, fun _ _ _ => Prog.every_pure⟩

end OfReads

end Every

/-! ## What stays -/

theorem srcAt_modify_ctx (h : Heap Obj) (c p : ℕ) (f : Ctx → Ctx) :
    srcAt (modify h c (Obj.mapCtx f)) p = srcAt h p := by
  unfold srcAt
  rw [val_modify]
  by_cases hcp : c = p
  · rw [if_pos hcp]
    cases val h p with
    | none => rfl
    | some o => cases o <;> rfl
  · rw [if_neg hcp]

/-- What the library holds for a module outside of the module. -/
def Mod.resources (x : Mod) : (MSrcType → NodeTree ℕ) × Option ℕ × Option ℕ × ℕ :=
  (x.srcs, x.pubsubFd0, x.pubsubFd1, x.ctx)

/-- The sources are where they were, with the same descriptors. -/
structure KeepsSources (w v : World) : Prop where
  files : v.sys.files = w.sys.files
  epoll : v.sys.epoll = w.sys.epoll
  srcs : ∀ q, srcAt v.heap q = srcAt w.heap q
  mods : ∀ n, (modAt v.heap n).map Mod.resources = (modAt w.heap n).map Mod.resources

namespace KeepsSources

variable {w v u : World} {m : ℕ}

theorem refl (w : World) : KeepsSources w w where
  files := rfl
  epoll := rfl
  srcs := fun _ => rfl
  mods := fun _ => rfl

theorem trans (h : KeepsSources w u) (h' : KeepsSources u v) : KeepsSources w v where
  files := h'.files.trans h.files
  epoll := h'.epoll.trans h.epoll
  srcs := fun q => (h'.srcs q).trans (h.srcs q)
  mods := fun n => (h'.mods n).trans (h.mods n)

theorem exists_mod {x : Mod} (h : KeepsSources w v) (hx : modAt w.heap m = some x) :
    ∃ y, modAt v.heap m = some y ∧ y.resources = x.resources := by
  have hsame := h.mods m
  rw [hx] at hsame
  exact Option.map_eq_some_iff.mp hsame

/-- Writing to a pipe changes what waits in it alone. -/
theorem writeMsg (s : Sys) (capacity msg : ℕ) (fd : Option ℕ) :
    (s.writeMsg capacity fd msg).2.files = s.files ∧
      (s.writeMsg capacity fd msg).2.epoll = s.epoll := by
  unfold Sys.writeMsg
  split
  next => dsimp only; split <;> exact ⟨rfl, rfl⟩
  next => exact ⟨rfl, rfl⟩

theorem tell {msg : PsPriv} {sub : Option String} (h : w.tell m msg sub = some v) :
    KeepsSources w v := by
  have htold := told_tell h
  have hsys : v.sys.files = w.sys.files ∧ v.sys.epoll = w.sys.epoll := by
    unfold World.tell at h
    simp only [Option.bind_eq_bind, Option.bind_eq_some_iff] at h
    obtain ⟨x, -, ⟨g, u⟩, halloc, h⟩ := h
    split at h
    next =>
      cases h
      rw [← World.sys_allocPsMsg halloc]
      exact writeMsg u.sys _ _ _
    next => cases h
  exact
    { files := hsys.1
      epoll := hsys.2
      srcs := htold.srcAt_eq
      mods := fun n => by rw [htold.modAt_eq] }

/-- A change of the world outside of the heap and of the system. -/
theorem of_same (hheap : v.heap = w.heap) (hsys : v.sys = w.sys) : KeepsSources w v where
  files := by rw [hsys]
  epoll := by rw [hsys]
  srcs := fun q => by rw [hheap]
  mods := fun n => by rw [hheap]

/-- A change of the number of references. -/
theorem put_same {p k : ℕ} {cell : Cell Obj} (hp : get w.heap p = some cell)
    (hv : v = { w with heap := put w.heap p (some ⟨k, cell.val⟩) }) : KeepsSources w v := by
  subst hv
  exact
    { files := rfl
      epoll := rfl
      srcs := fun q => by simp only [srcAt, val_put_same hp]
      mods := fun n => by simp only [modAt, val_put_same hp] }

theorem setCtx {c : ℕ} {f : Ctx → Ctx} (h : w.setCtx c f = some v) : KeepsSources w v := by
  obtain ⟨-, rfl⟩ := World.setCtx_eq_some.mp h
  exact
    { files := rfl
      epoll := rfl
      srcs := fun q => srcAt_modify_ctx _ _ _ _
      mods := fun n => by rw [modAt_modify_ctx] }

theorem setMod {f : Mod → Mod} (hf : ∀ x, (f x).resources = x.resources)
    (h : w.setMod m f = some v) : KeepsSources w v := by
  obtain ⟨-, rfl⟩ := World.setMod_eq_some.mp h
  refine
    { files := rfl
      epoll := rfl
      srcs := fun q => srcAt_modify_mod _ _ _ _
      mods := fun n => ?_ }
  rw [modAt_modify_mod]
  split
  next => rw [Option.map_map]; congr 1; exact funext hf
  next => rfl

end KeepsSources

/-- The steps of sending. -/
def Sends (step : Step LibLang World) : Prop :=
  step.act = .op .get ∨ step.act = .halt ∨ ∃ m msg sub, step.act = .op (.tell m msg sub)

theorem ofReads_sends : OfReads Sends where
  get := fun _ => .inl rfl
  halt := fun _ => .inr (.inl rfl)

theorem keeps_sends (w : World) : machine.Keeps Sends (KeepsSources w) where
  exec := by
    rintro o u r v hkeeps (hget | hhalt | ⟨m, msg, sub, htell⟩) hexec
    · cases hget
      cases hexec
      exact hkeeps
    · cases hhalt
    · cases htell
      obtain ⟨v', htell, heq⟩ := Option.map_eq_some_iff.mp hexec
      cases heq
      exact hkeeps.trans (KeepsSources.tell htell)
  react := by
    intro h u hkeeps
    refine hkeeps.trans (KeepsSources.of_same (World.react_heap h u) ?_)
    change (World.react h u).2.2.sys = u.sys
    unfold World.react
    split <;> rfl

theorem keepsSources_tellSystem {depth c : ℕ} {w v : World} {sender : Option ℕ} {topic : String}
    {ret : ℤ} (h : (tellSystemPubsubMsg none c sender topic).Ends (handler depth) w ret v) :
    KeepsSources w v := by
  obtain ⟨-, rfl⟩ := h
  have hsends : (tellSystemPubsubMsg none c sender topic).Every (handler depth) Sends w :=
    ofReads_sends.tellSystemPubsubMsg_every (fun m msg sub _ => .inr (.inr ⟨m, msg, sub, rfl⟩))
      c sender topic
  exact (Prog.run_keeps ((keeps_sends w).handler depth) _ (KeepsSources.refl w) hsends).2

end Libmodule
