import Libmodule.EventLoop

/-!
# What an operation can change

Every operation leaves most of every object as it was.  The relation here says
what stays: addresses are never used again, an object keeps its kind and the
fields that nothing writes, and the ledger of freed messages grows by one entry
for each message that is destroyed.  Only three operations change whether a
module counts as running, and they name it.
-/

namespace Libmodule

open RefHeap SearchTree Reentrant

namespace Obj

/-- The object at `p` may become the other one, when only the state of `marked`
changes. -/
def Become (marked : Option ℕ) (p : ℕ) : Obj → Obj → Prop
  | .ctx c, .ctx c' => marked = none → c'.runningModules = c.runningModules
  | .mod m, .mod m' => (marked ≠ some p → m'.state = m.state) ∧ m'.ctx = m.ctx
  | .src s, .src s' =>
      s'.type = s.type ∧ s'.topic = s.topic ∧ s'.mod = s.mod ∧ s'.flags = s.flags
  | .msg g, .msg g' => g' = g
  | .evt e, .evt e' => e'.type = e.type
  | _, _ => False

/-- A new object counts for nothing. -/
def Fresh : Obj → Prop
  | .ctx c => c.runningModules = 0
  | .mod m => m.state ≠ .running
  | _ => True

/-- The user's memory that the destructor of the object frees. -/
def payload : Obj → List ℕ
  | .msg g => if hasFlag g.flags M_PS_AUTOFREE then g.data.toList else []
  | _ => []

variable {marked : Option ℕ} {p : ℕ} {o o₁ o₂ : Obj}

theorem Become.refl (marked : Option ℕ) (p : ℕ) (o : Obj) : o.Become marked p o := by
  cases o <;> simp [Become]

theorem Become.trans (h₁ : o.Become marked p o₁) (h₂ : o₁.Become marked p o₂) :
    o.Become marked p o₂ := by
  cases o <;> cases o₁ <;> try exact False.elim h₁
  all_goals cases o₂ <;> try exact False.elim h₂
  case ctx.ctx.ctx => exact fun hmarked => (h₂ hmarked).trans (h₁ hmarked)
  case mod.mod.mod =>
    exact ⟨fun hmarked => (h₂.1 hmarked).trans (h₁.1 hmarked), h₂.2.trans h₁.2⟩
  case src.src.src =>
    exact ⟨h₂.1.trans h₁.1, h₂.2.1.trans h₁.2.1, h₂.2.2.1.trans h₁.2.2.1,
      h₂.2.2.2.trans h₁.2.2.2⟩
  case msg.msg.msg => exact Eq.trans h₂ h₁
  case evt.evt.evt => exact Eq.trans h₂ h₁

theorem Become.payload (h : o.Become marked p o₁) : o₁.payload = o.payload := by
  cases o <;> cases o₁ <;> try exact False.elim h
  case msg.msg => rw [show _ = _ from h]
  all_goals rfl

theorem Become.fresh (h : o.Become none p o₁) (hfresh : o.Fresh) : o₁.Fresh := by
  cases o <;> cases o₁ <;> try exact False.elim h
  case ctx.ctx => exact (h rfl).trans hfresh
  case mod.mod =>
    intro hrunning
    exact hfresh ((h.1 (by simp)).symm.trans hrunning)
  all_goals trivial

end Obj

/-- What is destroyed between `w` and `w'` is paid for once. -/
structure Pays (w w' : World) : Prop where
  settled : Settled w'.heap
  grows : w.heap.length ≤ w'.heap.length
  gone : ∀ p < w.heap.length, get w.heap p = none → get w'.heap p = none
  kept : ∀ p < w.heap.length, ∀ o', val w'.heap p = some o' →
    ∃ o, val w.heap p = some o ∧ o'.payload = o.payload
  ledger : ∃ new, w'.sys.freedData = w.sys.freedData ++ new ∧
    ∀ p < w.heap.length,
      new.filter (fun entry => entry.1 = p) = paid Obj.payload w.heap w'.heap p

namespace Pays

variable {w w₁ w₂ : World}

theorem refl (hs : Settled w.heap) : Pays w w where
  settled := hs
  grows := le_rfl
  gone := fun _ _ hp => hp
  kept := fun _ _ o ho => ⟨o, ho, rfl⟩
  ledger := by
    refine ⟨[], by simp, fun p _ => ?_⟩
    cases hp : get w.heap p with
    | none => simp [paid, hp]
    | some c => exact (paid_live (Live.of_get hp (hs p c hp))).symm

theorem paid_trans (h₁ : Pays w w₁) (h₂ : Pays w₁ w₂) {p : ℕ} (hp : p < w.heap.length) :
    paid Obj.payload w.heap w₁.heap p ++ paid Obj.payload w₁.heap w₂.heap p =
      paid Obj.payload w.heap w₂.heap p := by
  cases hget₁ : get w₁.heap p with
  | none =>
      have hget₂ := h₂.gone p (hp.trans_le h₁.grows) hget₁
      have hrefs : refs w₁.heap p = refs w₂.heap p := by simp [refs, hget₁, hget₂]
      rw [paid_congr hrefs]
      simp [paid, hget₁]
  | some c₁ =>
      rw [paid_live (Live.of_get hget₁ (h₁.settled p c₁ hget₁))]
      obtain ⟨o, ho, hpayload⟩ := h₁.kept p hp c₁.val (by simp [val, hget₁])
      obtain ⟨c, hget, rfl⟩ := Option.map_eq_some_iff.mp ho
      simp [paid, hget, hget₁, hpayload]

theorem trans (h₁ : Pays w w₁) (h₂ : Pays w₁ w₂) : Pays w w₂ where
  settled := h₂.settled
  grows := h₁.grows.trans h₂.grows
  gone := fun p hp hget => h₂.gone p (hp.trans_le h₁.grows) (h₁.gone p hp hget)
  kept := by
    intro p hp o₂ ho₂
    obtain ⟨o₁, ho₁, hpayload₂⟩ := h₂.kept p (hp.trans_le h₁.grows) o₂ ho₂
    obtain ⟨o, ho, hpayload₁⟩ := h₁.kept p hp o₁ ho₁
    exact ⟨o, ho, hpayload₂.trans hpayload₁⟩
  ledger := by
    obtain ⟨new₁, hledger₁, hpaid₁⟩ := h₁.ledger
    obtain ⟨new₂, hledger₂, hpaid₂⟩ := h₂.ledger
    refine ⟨new₁ ++ new₂, by rw [hledger₂, hledger₁, List.append_assoc], fun p hp => ?_⟩
    rw [List.filter_append, hpaid₁ p hp, hpaid₂ p (hp.trans_le h₁.grows), paid_trans h₁ h₂ hp]

end Pays

/-- From `w` the library can come to `w'` while only `marked` changes its state. -/
structure Evolves (marked : Option ℕ) (w w' : World) : Prop where
  settled : Settled w'.heap
  grows : w.heap.length ≤ w'.heap.length
  gone : ∀ p < w.heap.length, get w.heap p = none → get w'.heap p = none
  become : ∀ p o', val w'.heap p = some o' →
    (∃ o, val w.heap p = some o ∧ o.Become marked p o') ∨
      w.heap.length ≤ p ∧ (marked = none → o'.Fresh)
  ledger : ∃ new, w'.sys.freedData = w.sys.freedData ++ new ∧
    ∀ p < w.heap.length,
      new.filter (fun entry => entry.1 = p) = paid Obj.payload w.heap w'.heap p

theorem Evolves.pays {marked : Option ℕ} {w w' : World} (h : Evolves marked w w') :
    Pays w w' where
  settled := h.settled
  grows := h.grows
  gone := h.gone
  kept := by
    intro p hp o' ho'
    rcases h.become p o' ho' with ⟨o, ho, hbecome⟩ | ⟨hnew, -⟩
    · exact ⟨o, ho, hbecome.payload⟩
    · omega
  ledger := h.ledger

/-! ## What frees a message -/

section Freed

variable (s : Sys)

theorem Sys.freedData_close (fd : Option ℕ) : (s.close fd).freedData = s.freedData := by
  unfold Sys.close
  split <;> rfl

theorem Sys.freedData_pipe : s.pipe.2.freedData = s.freedData := by
  simp only [Sys.pipe, Sys.fault_eq]
  split <;> rfl

theorem Sys.freedData_readMsg (fd : Option ℕ) : (s.readMsg fd).2.freedData = s.freedData := by
  unfold Sys.readMsg
  split
  next => split <;> rfl
  next => rfl

theorem Sys.freedData_writeMsg (capacity : ℕ) (fd : Option ℕ) (msg : ℕ) :
    (s.writeMsg capacity fd msg).2.freedData = s.freedData := by
  unfold Sys.writeMsg
  split
  next p _ => dsimp only; split <;> rfl
  next => rfl

theorem Sys.freedData_readPriv : s.readPriv.2.freedData = s.freedData := by
  simp only [Sys.readPriv, Sys.fault_eq]
  split <;> rfl

theorem Sys.freedData_createPrivFd : s.createPrivFd.2.freedData = s.freedData := by
  simp only [Sys.createPrivFd, Sys.fault_eq]
  split <;> rfl

theorem Sys.freedData_epollAdd (c : ℕ) (fd : Option ℕ) (src : ℕ) :
    (s.epollAdd c fd src).2.freedData = s.freedData := by
  simp only [Sys.epollAdd, Sys.fault_eq]
  split
  next => rfl
  next => rfl
  next =>
    split
    next => rfl
    next => split <;> rfl

theorem Sys.freedData_epollDel (c : ℕ) (fd : Option ℕ) :
    (s.epollDel c fd).2.freedData = s.freedData := by
  unfold Sys.epollDel
  split
  next => rfl
  next => rfl
  next => split <;> rfl

theorem freedData_pollSetNewEvt (c p : ℕ) (src : EvSource) (flag : OpType) :
    (pollSetNewEvt c p src flag s).2.2.freedData = s.freedData := by
  unfold pollSetNewEvt
  split
  next => rfl
  next =>
    cases flag with
    | add =>
        simp only [Sys.freedData_epollAdd]
        split
        next => exact Sys.freedData_createPrivFd _
        next => rfl
    | rm =>
        dsimp only
        split
        next => rw [Sys.freedData_close, Sys.freedData_epollDel]
        next => rw [Sys.freedData_epollDel]

/-- The poll plugin only touches the descriptor of a source, and whether it is armed. -/
theorem pollSetNewEvt_same (c p : ℕ) (src : EvSource) (flag : OpType) :
    let src' := (pollSetNewEvt c p src flag s).2.1
    src'.type = src.type ∧ src'.topic = src.topic ∧ src'.mod = src.mod ∧
      src'.flags = src.flags := by
  unfold pollSetNewEvt
  split
  next => exact ⟨rfl, rfl, rfl, rfl⟩
  next =>
    cases flag with
    | add => exact ⟨rfl, rfl, rfl, rfl⟩
    | rm =>
        dsimp only
        split <;> exact ⟨rfl, rfl, rfl, rfl⟩

theorem freedData_dup (fd : Option ℕ) : (s.dup fd).2.freedData = s.freedData := by
  simp only [Sys.dup, Sys.fault_eq]
  split
  next => rfl
  next => split <;> rfl

theorem freedData_createSrc (m : Option ℕ) (type : MSrcType) (key : Words) (flags : ℕ)
    (userptr : Userptr) :
    (World.createSrc m type key flags userptr s).2.freedData = s.freedData := by
  unfold World.createSrc
  split
  case h_1 | h_2 =>
    dsimp only
    split
    next => exact freedData_dup s _
    next => rfl
  all_goals rfl

theorem freedData_srcDisarm {h : Heap Obj} {p : ℕ} {t : EvSource} {s s' : Sys}
    (hdisarm : srcDisarm h p t s = some s') : s'.freedData = s.freedData := by
  unfold srcDisarm at hdisarm
  split at hdisarm
  next => cases hdisarm; rfl
  next =>
    simp only [Option.bind_eq_bind, Option.bind_eq_some_iff] at hdisarm
    obtain ⟨mod, -, hdisarm⟩ := hdisarm
    split at hdisarm
    next =>
      obtain ⟨x, -, hdisarm⟩ := Option.bind_eq_some_iff.mp hdisarm
      cases hdisarm
      exact freedData_pollSetNewEvt s _ _ _ _
    next => cases hdisarm; rfl

theorem freedData_srcAutoclose (t : EvSource) : (srcAutoclose t s).freedData = s.freedData := by
  unfold srcAutoclose
  split
  next => exact s.freedData_close _
  next => rfl

theorem freedData_srcAutofree (p : ℕ) (t : EvSource) :
    (srcAutofree p t s).freedData = s.freedData := by
  unfold srcAutofree
  split <;> rfl

theorem freedData_srcPrivDtor {h : Heap Obj} {p : ℕ} {t : EvSource} {s s' : Sys}
    (hdtor : srcPrivDtor h p t s = some s') : s'.freedData = s.freedData := by
  obtain ⟨s₁, hs₁, rfl⟩ := Option.map_eq_some_iff.mp hdtor
  rw [freedData_srcAutofree, freedData_srcAutoclose, freedData_srcDisarm hs₁]

theorem freedData_ctxDtor (h : Heap Obj) (p : ℕ) (c : Ctx) :
    (ctxDtor h p c s).freedData = s.freedData := by
  unfold ctxDtor
  dsimp only
  split
  next => rfl
  next => exact freedData_pollSetNewEvt s _ _ _ _

/-- Only the destructor of a message frees data, and the data of that message. -/
theorem freedData_dtor {h : Heap Obj} {p : ℕ} {o : Obj} {s s' : Sys}
    (hdtor : Obj.dtor h p o s = some s') :
    s'.freedData = s.freedData ++ o.payload.map (fun data => (p, data)) := by
  cases o with
  | ctx c =>
      cases hdtor
      simp [Obj.payload, freedData_ctxDtor]
  | mod m =>
      cases hdtor
      simp [Obj.payload]
  | src t =>
      simp only [Obj.dtor] at hdtor
      split at hdtor
      next =>
        cases hdtor
        simp [Obj.payload, subscribtionsDtor, freedData_srcAutofree]
      next => simp [Obj.payload, freedData_srcPrivDtor hdtor]
  | msg g =>
      cases hdtor
      unfold psMsgDtor
      simp only [Obj.payload]
      split <;> simp
  | evt e =>
      cases hdtor
      simp [Obj.payload]

end Freed

namespace Evolves

variable {marked : Option ℕ} {w w₁ w₂ : World}

theorem refl (hs : Settled w.heap) : Evolves marked w w where
  settled := hs
  grows := le_rfl
  gone := fun _ _ hp => hp
  become := fun p o hp => .inl ⟨o, hp, Obj.Become.refl marked p o⟩
  ledger := (Pays.refl hs).ledger

theorem trans (h₁ : Evolves marked w w₁) (h₂ : Evolves marked w₁ w₂) :
    Evolves marked w w₂ where
  settled := h₂.settled
  grows := h₁.grows.trans h₂.grows
  gone := fun p hp hget => h₂.gone p (hp.trans_le h₁.grows) (h₁.gone p hp hget)
  become := by
    intro p o₂ hp₂
    rcases h₂.become p o₂ hp₂ with ⟨o₁, hp₁, hbecome₂⟩ | ⟨hnew, hfresh⟩
    · rcases h₁.become p o₁ hp₁ with ⟨o, hp, hbecome₁⟩ | ⟨hnew, hfresh⟩
      · exact .inl ⟨o, hp, hbecome₁.trans hbecome₂⟩
      · refine .inr ⟨hnew, fun hmarked => ?_⟩
        subst hmarked
        exact hbecome₂.fresh (hfresh rfl)
    · exact .inr ⟨h₁.grows.trans hnew, hfresh⟩
  ledger := (h₁.pays.trans h₂.pays).ledger

/-! ## Single changes -/

/-- Only what is outside of the heap changes, and nothing is freed. -/
theorem of_heap_eq (hs : Settled w.heap) (hheap : w₁.heap = w.heap)
    (hfreed : w₁.sys.freedData = w.sys.freedData) : Evolves marked w w₁ := by
  have hself : Evolves marked w w := refl hs
  exact
    { settled := hheap ▸ hs
      grows := by rw [hheap]
      gone := by rw [hheap]; exact hself.gone
      become := by rw [hheap]; exact hself.become
      ledger := by rw [hheap, hfreed]; exact hself.ledger }

/-- No object is destroyed, and each one changes as it may. -/
theorem of_same_length (hs : Settled w₁.heap) (hlength : w₁.heap.length = w.heap.length)
    (hgone : ∀ p, get w₁.heap p = none ↔ get w.heap p = none)
    (hbecome : ∀ p o', val w₁.heap p = some o' →
      ∃ o, val w.heap p = some o ∧ o.Become marked p o')
    (hfreed : w₁.sys.freedData = w.sys.freedData) : Evolves marked w w₁ where
  settled := hs
  grows := hlength.ge
  gone := fun p _ hp => (hgone p).mpr hp
  become := fun p o' hp => .inl (hbecome p o' hp)
  ledger := by
    refine ⟨[], by simp [hfreed], fun p _ => ?_⟩
    cases hget₁ : get w₁.heap p with
    | none => simp [paid, (hgone p).mp hget₁]
    | some c => exact (paid_live (Live.of_get hget₁ (hs p c hget₁))).symm

theorem modify {p : ℕ} {f : Obj → Obj} (hs : Settled w.heap)
    (hf : ∀ o, val w.heap p = some o → o.Become marked p (f o)) :
    Evolves marked w { w with heap := RefHeap.modify w.heap p f } := by
  apply of_same_length
  · intro q c hq
    simp only [get_modify] at hq
    split at hq
    next =>
      obtain ⟨c', hc', rfl⟩ := Option.map_eq_some_iff.mp hq
      exact hs q c' hc'
    next => exact hs q c hq
  · exact length_modify _ _ _
  · intro q
    rw [get_modify]
    split <;> simp
  · intro q o' hq
    simp only [val_modify] at hq
    split at hq
    next hpq =>
      subst hpq
      obtain ⟨o, ho, rfl⟩ := Option.map_eq_some_iff.mp hq
      exact ⟨o, ho, hf o ho⟩
    next => exact ⟨o', hq, Obj.Become.refl marked q o'⟩
  · rfl

theorem ref {p : ℕ} (hs : Settled w.heap) (h : w.ref p = some w₁) : Evolves marked w w₁ := by
  unfold World.ref at h
  simp only [Option.bind_eq_bind, Option.bind_eq_some_iff, Option.some.injEq] at h
  obtain ⟨c, hc, rfl⟩ := h
  apply of_same_length
  · intro q c' hq
    simp only [get_put] at hq
    split at hq
    next =>
      cases hq
      exact Nat.succ_pos _
    next => exact hs q c' hq
  · exact length_put _ _ _
  · intro q
    simp only [get_put]
    split
    next hpq =>
      obtain ⟨rfl, -⟩ := hpq
      simp [hc]
    next => rfl
  · intro q o' hq
    rw [val_put_same hc] at hq
    exact ⟨o', hq, Obj.Become.refl marked q o'⟩
  · rfl

theorem new {o : Obj} (hs : Settled w.heap) (ho : o.Fresh) :
    Evolves marked w (w.new o).2 where
  settled := by
    intro q c hq
    simp only [World.new, get_alloc] at hq
    split at hq
    next =>
      cases hq
      exact Nat.one_pos
    next => exact hs q c hq
  grows := by simp [World.new]
  gone := by
    intro p hp hget
    simp only [World.new, get_alloc]
    rw [if_neg hp.ne, hget]
  become := by
    intro p o' hp
    simp only [World.new, val_alloc] at hp
    split at hp
    next hlength =>
      cases hp
      exact .inr ⟨hlength.ge, fun _ => ho⟩
    next => exact .inl ⟨o', hp, Obj.Become.refl marked p o'⟩
  ledger := by
    refine ⟨[], by simp [World.new], fun p hp => ?_⟩
    cases hget : get w.heap p with
    | none => simp [paid, hget]
    | some c =>
        have hsame : get (w.new o).2.heap p = some c := by
          simp only [World.new, get_alloc]
          rw [if_neg hp.ne, hget]
        exact (paid_live (Live.of_get hsame (hs p c hget))).symm

theorem unrefAll {ps : List ℕ} (hs : Settled w.heap) (h : w.unrefAll ps = some w₁) :
    Evolves marked w w₁ := by
  unfold World.unrefAll at h
  simp only [Option.bind_eq_bind, Option.bind_eq_some_iff, Option.some.injEq] at h
  obtain ⟨⟨heap, sys⟩, hrun, rfl⟩ := h
  have hrel := release_releasing hs hrun
  obtain ⟨new, hledger, hpaid⟩ :=
    release_log (fun _ _ _ _ _ hdtor => freedData_dtor hdtor) hs hrun
  exact
    { settled := hrel.settled
      grows := hrel.length.ge
      gone := by
        intro p _ hp
        cases hget : get heap p with
        | none => rfl
        | some c =>
            obtain ⟨c', hc', -⟩ := hrel.cells p c hget
            rw [hp] at hc'
            cases hc'
      become := by
        intro p o' hp
        obtain ⟨c', hc', rfl⟩ := Option.map_eq_some_iff.mp hp
        obtain ⟨c, hc, hval, -⟩ := hrel.cells p c' hc'
        refine .inl ⟨c.val, by simp [val, hc], ?_⟩
        rw [hval]
        exact Obj.Become.refl marked p c.val
      ledger := ⟨new, hledger, fun p _ => hpaid p⟩ }

/-! ## Fields -/

theorem setCtx {c : ℕ} {f : Ctx → Ctx} (hs : Settled w.heap)
    (h : w.setCtx c f = some w₁)
    (hf : ∀ x, marked = none → (f x).runningModules = x.runningModules) : Evolves marked w w₁ := by
  obtain ⟨-, rfl⟩ := World.setCtx_eq_some.mp h
  apply modify hs
  intro o _
  cases o with
  | ctx x => exact hf x
  | _ => exact Obj.Become.refl _ _ _

theorem setMod {m : ℕ} {f : Mod → Mod} (hs : Settled w.heap)
    (h : w.setMod m f = some w₁)
    (hf : ∀ x, (marked ≠ some m → (f x).state = x.state) ∧ (f x).ctx = x.ctx) : Evolves marked w w₁ := by
  obtain ⟨-, rfl⟩ := World.setMod_eq_some.mp h
  apply modify hs
  intro o _
  cases o with
  | mod x => exact hf x
  | _ => exact Obj.Become.refl _ _ _

theorem setSrc {p : ℕ} {f : EvSource → EvSource} (hs : Settled w.heap)
    (h : w.setSrc p f = some w₁)
    (hf : ∀ x, srcAt w.heap p = some x → (f x).type = x.type ∧ (f x).topic = x.topic ∧
      (f x).mod = x.mod ∧ (f x).flags = x.flags) : Evolves marked w w₁ := by
  obtain ⟨-, rfl⟩ := World.setSrc_eq_some.mp h
  apply modify hs
  intro o ho
  cases o with
  | src x => exact hf x (srcAt_eq_some.mpr ho)
  | _ => exact Obj.Become.refl _ _ _

theorem setEvt {e : ℕ} {f : EvtPriv → EvtPriv} (hs : Settled w.heap)
    (h : w.setEvt e f = some w₁) (hf : ∀ x, (f x).type = x.type) : Evolves marked w w₁ := by
  obtain ⟨-, rfl⟩ := World.setEvt_eq_some.mp h
  apply modify hs
  intro o _
  cases o with
  | evt x => exact hf x
  | _ => exact Obj.Become.refl _ _ _

/-! ## Operations of several changes -/

theorem newEvt {src : Option ℕ} {e : ℕ} (hs : Settled w.heap)
    (h : w.newEvt src = some (e, w₁)) : Evolves marked w w₁ := by
  unfold World.newEvt at h
  simp only [Option.bind_eq_bind, Option.bind_eq_some_iff, Option.some.injEq] at h
  obtain ⟨p, -, s, -, u, href, hnew⟩ := h
  cases hnew
  have hu : Evolves marked w u := ref hs href
  exact hu.trans (new hu.settled trivial)

theorem allocPsMsg {msg : PsPriv} {sub : Option ℕ} {g : ℕ} (hs : Settled w.heap)
    (h : w.allocPsMsg msg sub = some (g, w₁)) : Evolves marked w w₁ := by
  unfold World.allocPsMsg at h
  split at h
  next =>
    cases h
    exact new hs trivial
  next sender _ =>
    simp only [Option.bind_eq_bind, Option.bind_eq_some_iff, Option.some.injEq] at h
    obtain ⟨u, href, hnew⟩ := h
    cases hnew
    have hu : Evolves marked w u := ref hs href
    exact hu.trans (new hu.settled trivial)

theorem tell {m : ℕ} {msg : PsPriv} {sub : Option String} (hs : Settled w.heap)
    (h : w.tell m msg sub = some w₁) : Evolves marked w w₁ := by
  unfold World.tell at h
  simp only [Option.bind_eq_bind, Option.bind_eq_some_iff] at h
  obtain ⟨x, -, ⟨g, v⟩, halloc, h⟩ := h
  split at h
  next =>
    cases h
    have hv : Evolves marked w v := allocPsMsg hs halloc
    exact hv.trans (of_heap_eq hv.settled rfl (Sys.freedData_writeMsg _ _ _ _))
  next => cases h

theorem flushMsg {m : ℕ} {stopping : Bool} {flushed : Flushed} (hs : Settled w.heap)
    (h : w.flushMsg m stopping = some (flushed, w₁)) : Evolves marked w w₁ := by
  unfold World.flushMsg at h
  simp only [Option.bind_eq_bind, Option.bind_eq_some_iff] at h
  obtain ⟨x, -, h⟩ := h
  split at h
  next =>
    cases h
    exact refl hs
  next =>
    have hread : Evolves marked w { w with sys := (w.sys.readMsg x.pubsubFd0).2 } :=
      of_heap_eq hs rfl (Sys.freedData_readMsg _ _)
    split at h
    next =>
      cases h
      exact hread
    next mm _ =>
      simp only [Option.bind_eq_some_iff] at h
      obtain ⟨g, -, h⟩ := h
      split at h
      next =>
        simp only [Option.bind_eq_some_iff, Option.some.injEq] at h
        obtain ⟨⟨e, u⟩, hnew, v, hset, h⟩ := h
        cases h
        have hu : Evolves marked _ u := newEvt hread.settled hnew
        exact (hread.trans hu).trans (setEvt hu.settled hset (fun _ => rfl))
      next =>
        simp only [Option.bind_eq_some_iff, Option.some.injEq] at h
        obtain ⟨u, hunref, h⟩ := h
        cases h
        exact hread.trans (unrefAll hread.settled hunref)

theorem processPs {e : ℕ} {src : Option ℕ} (hs : Settled w.heap)
    (h : w.processPs e = some (src, w₁)) : Evolves marked w w₁ := by
  unfold World.processPs at h
  simp only [Option.bind_eq_bind, Option.bind_eq_some_iff] at h
  obtain ⟨x, -, this, -, s, -, h⟩ := h
  have hread : Evolves marked w { w with sys := (w.sys.readMsg s.fd).2 } :=
    of_heap_eq hs rfl (Sys.freedData_readMsg _ _)
  split at h
  next =>
    cases h
    exact hread
  next mm _ =>
    simp only [Option.bind_eq_some_iff] at h
    obtain ⟨g, -, u, hset, v, hunref, h⟩ := h
    have hu := hread.trans (setEvt hread.settled hset (fun _ => rfl))
    have hv := hu.trans (unrefAll hu.settled hunref)
    split at h
    next =>
      simp only [Option.bind_eq_some_iff, Option.some.injEq] at h
      obtain ⟨_, rfl, y, hset', h⟩ := h
      cases h
      exact hv.trans (setEvt hv.settled hset' (fun _ => rfl))
    next =>
      simp only [Option.bind_eq_some_iff, Option.some.injEq] at h
      obtain ⟨y, href, z, hset', h⟩ := h
      cases h
      have hy := hv.trans (ref hv.settled href)
      exact hy.trans (setEvt hy.settled hset' (fun _ => rfl))

theorem modulesPut {c m : ℕ} {name : String} {ret : ℤ} (hs : Settled w.heap)
    (h : w.modulesPut c name m = some (ret, w₁)) : Evolves marked w w₁ := by
  unfold World.modulesPut at h
  simp only [Option.bind_eq_bind, Option.bind_eq_some_iff] at h
  obtain ⟨x, -, y, -, h⟩ := h
  split at h
  next =>
    cases h
    exact refl hs
  next =>
    simp only [Option.bind_eq_some_iff, Option.some.injEq] at h
    obtain ⟨u, hset, h⟩ := h
    cases h
    exact setCtx hs hset (fun _ _ => rfl)

theorem modulesRemove {c : ℕ} {name : String} {ret : ℤ} (hs : Settled w.heap)
    (h : w.modulesRemove c name = some (ret, w₁)) : Evolves marked w w₁ := by
  unfold World.modulesRemove at h
  simp only [Option.bind_eq_bind, Option.bind_eq_some_iff] at h
  obtain ⟨x, -, h⟩ := h
  split at h
  next =>
    cases h
    exact refl hs
  next =>
    split at h
    next =>
      cases h
      exact refl hs
    next =>
      simp only [Option.bind_eq_some_iff, Option.some.injEq] at h
      obtain ⟨u, hset, v, hunref, h⟩ := h
      cases h
      have hu : Evolves marked w u := setCtx hs hset (fun _ _ => rfl)
      exact hu.trans (unrefAll hu.settled hunref)

theorem subscriptionsPut {m : ℕ} {topic : String} {flags : ℕ} {userptr : Userptr} {ret : ℤ}
    (hs : Settled w.heap) (h : w.subscriptionsPut m topic flags userptr = some (ret, w₁)) :
    Evolves marked w w₁ := by
  unfold World.subscriptionsPut at h
  simp only [Option.bind_eq_bind, Option.bind_eq_some_iff, Option.some.injEq] at h
  obtain ⟨x, -, u, hset, v, hunref, h⟩ := h
  cases h
  have hnew : Evolves marked w
      (w.new (.src (EvSource.subscription m topic flags userptr))).2 := new hs trivial
  have hu := hnew.trans (setMod hnew.settled hset (fun _ => ⟨fun _ => rfl, rfl⟩))
  exact hu.trans (unrefAll hu.settled hunref)

theorem subscriptionsRemove {m : ℕ} {topic : String} {ret : ℤ} (hs : Settled w.heap)
    (h : w.subscriptionsRemove m topic = some (ret, w₁)) : Evolves marked w w₁ := by
  unfold World.subscriptionsRemove at h
  simp only [Option.bind_eq_bind, Option.bind_eq_some_iff] at h
  obtain ⟨x, -, h⟩ := h
  split at h
  next =>
    cases h
    exact refl hs
  next =>
    split at h
    next =>
      cases h
      exact refl hs
    next =>
      simp only [Option.bind_eq_some_iff, Option.some.injEq] at h
      obtain ⟨u, hset, v, hunref, h⟩ := h
      cases h
      have hu : Evolves marked w u := setMod hs hset (fun _ => ⟨fun _ => rfl, rfl⟩)
      exact hu.trans (unrefAll hu.settled hunref)

theorem setTree {m : ℕ} {type : MSrcType} {t : NodeTree ℕ} (hs : Settled w.heap)
    (h : w.setTree m type t = some w₁) : Evolves marked w w₁ :=
  setMod hs h (fun _ => ⟨fun _ => rfl, rfl⟩)

theorem addSrc {m flags p : ℕ} {type : MSrcType} {key : Words} {userptr : Userptr} {ret : ℤ}
    (hs : Settled w.heap) (h : w.addSrc m type key flags userptr = some ((ret, p), w₁)) :
    Evolves marked w w₁ := by
  unfold World.addSrc at h
  simp only [Option.bind_eq_bind, Option.bind_eq_some_iff] at h
  obtain ⟨x, -, ⟨found, t⟩, -, h⟩ := h
  have hsys : Evolves marked w
      { w with sys := (World.createSrc (some m) type key flags userptr w.sys).2 } :=
    of_heap_eq hs rfl (freedData_createSrc _ _ _ _ _ _)
  have hnew := hsys.trans
    (new (o := .src (World.createSrc (some m) type key flags userptr w.sys).1) hsys.settled
      trivial)
  split at h
  next =>
    simp only [Option.bind_eq_some_iff, Option.some.injEq] at h
    obtain ⟨u, hset, h⟩ := h
    cases h
    exact hnew.trans (setTree hnew.settled hset)
  next =>
    simp only [Option.bind_eq_some_iff, Option.some.injEq] at h
    obtain ⟨u, hunref, h⟩ := h
    cases h
    exact hnew.trans (unrefAll hnew.settled hunref)

theorem bstRemove {m : ℕ} {type : MSrcType} {data : Words} {ret : ℤ} (hs : Settled w.heap)
    (h : w.bstRemove m type data = some (ret, w₁)) : Evolves marked w w₁ := by
  unfold World.bstRemove at h
  simp only [Option.bind_eq_bind, Option.bind_eq_some_iff, Option.some.injEq] at h
  obtain ⟨x, -, ⟨found, t, destroyed⟩, -, u, hset, v, hunref, h⟩ := h
  cases h
  have hu : Evolves marked w u := setTree hs hset
  exact hu.trans (unrefAll hu.settled hunref)

theorem bstItrRemove {m : ℕ} {type : MSrcType} {ret : ℤ} (hs : Settled w.heap)
    (h : w.bstItrRemove m type = some (ret, w₁)) : Evolves marked w w₁ := by
  unfold World.bstItrRemove at h
  simp only [Option.bind_eq_bind, Option.bind_eq_some_iff, Option.some.injEq] at h
  obtain ⟨x, -, u, hset, v, hunref, h⟩ := h
  cases h
  have hu : Evolves marked w u := setTree hs hset
  exact hu.trans (unrefAll hu.settled hunref)

theorem pipe {m : ℕ} {ret : ℤ} (hs : Settled w.heap) (h : w.pipe m = some (ret, w₁)) :
    Evolves marked w w₁ := by
  unfold World.pipe at h
  have hsys : Evolves marked w { w with sys := w.sys.pipe.2 } :=
    of_heap_eq hs rfl w.sys.freedData_pipe
  split at h
  next sys hpipe =>
    cases h
    rwa [hpipe] at hsys
  next fd0 fd1 sys hpipe =>
    rw [hpipe] at hsys
    simp only [Option.bind_eq_bind, Option.bind_eq_some_iff, Option.some.injEq] at h
    obtain ⟨u, hset, h⟩ := h
    cases h
    exact hsys.trans (setMod hsys.settled hset (fun _ => ⟨fun _ => rfl, rfl⟩))

theorem pollSetEvt {c src : ℕ} {flag : OpType} {ret : ℤ} (hs : Settled w.heap)
    (h : w.pollSetEvt c src flag = some (ret, w₁)) : Evolves marked w w₁ := by
  unfold World.pollSetEvt at h
  simp only [Option.bind_eq_bind, Option.bind_eq_some_iff, Option.some.injEq] at h
  obtain ⟨s, hsrc, x, -, u, hset, h⟩ := h
  cases h
  have hsys : Evolves marked w { w with sys := (pollSetNewEvt c src s flag w.sys).2.2 } :=
    of_heap_eq hs rfl (freedData_pollSetNewEvt _ _ _ _ _)
  apply hsys.trans (setSrc hsys.settled hset _)
  intro y hy
  cases hsrc.symm.trans hy
  exact pollSetNewEvt_same w.sys c src s flag

theorem pollWait {c : ℕ} {blocking : Bool} {nfds : Option ℕ} (hs : Settled w.heap)
    (h : w.pollWait c blocking = some (nfds, w₁)) : Evolves marked w w₁ := by
  unfold World.pollWait at h
  simp only [Option.bind_eq_bind, Option.bind_eq_some_iff] at h
  obtain ⟨x, -, slots, -, h⟩ := h
  split at h
  next =>
    split at h <;> cases h
    · exact refl hs
    · exact of_heap_eq hs rfl rfl
  next answer polls _ =>
    split at h
    next =>
      cases h
      exact of_heap_eq hs rfl rfl
    next =>
      simp only [Option.bind_eq_some_iff, Option.some.injEq] at h
      obtain ⟨u, hset, h⟩ := h
      cases h
      have hpolls : Evolves marked w { w with polls := polls } := of_heap_eq hs rfl rfl
      have hu := hpolls.trans (setCtx hpolls.settled hset (fun _ _ => rfl))
      exact hu.trans (of_heap_eq hu.settled rfl rfl)

theorem pollRecv {src : Option ℕ} (hs : Settled w.heap)
    (h : w.pollRecv = some (src, w₁)) : Evolves marked w w₁ := by
  unfold World.pollRecv at h
  split at h
  next => cases h
  next batch batches _ =>
    simp only [Option.bind_eq_bind, Option.bind_eq_some_iff] at h
    obtain ⟨x, -, slots, -, h⟩ := h
    split at h
    next =>
      cases h
      exact of_heap_eq hs rfl rfl
    next => cases h

theorem mono {m : ℕ} (h : Evolves none w w₁) : Evolves (some m) w w₁ :=
  { h with
    become := by
      intro p o' hp
      rcases h.become p o' hp with ⟨o, ho, hbecome⟩ | ⟨hnew, -⟩
      · refine .inl ⟨o, ho, ?_⟩
        cases o <;> cases o' <;> try exact False.elim hbecome
        case ctx.ctx => exact nofun
        case mod.mod => exact ⟨fun _ => hbecome.1 nofun, hbecome.2⟩
        all_goals exact hbecome
      · exact .inr ⟨hnew, nofun⟩ }

/-- A module that is still being registered does not count, whatever its state. -/
theorem setMod_new {m : ℕ} {f : Mod → Mod} (h₁ : Evolves none w w₁)
    (hm : w.heap.length ≤ m) (h : w₁.setMod m f = some w₂)
    (hf : ∀ x, (f x).state ≠ .running ∧ (f x).ctx = x.ctx) : Evolves none w w₂ := by
  have h₂ : Evolves (some m) w₁ w₂ :=
    setMod h₁.settled h (fun x => ⟨fun hm => absurd rfl hm, (hf x).2⟩)
  have hboth := h₁.mono.trans h₂
  refine { hboth with become := ?_ }
  intro p o' hp
  obtain ⟨-, rfl⟩ := World.setMod_eq_some.mp h
  simp only [val_modify] at hp
  split at hp
  next hpm =>
    subst hpm
    obtain ⟨o, ho, rfl⟩ := Option.map_eq_some_iff.mp hp
    refine .inr ⟨hm, fun _ => ?_⟩
    rcases h₁.become m o ho with ⟨o₀, ho₀, -⟩ | ⟨-, hfresh⟩
    · obtain ⟨c, hc, -⟩ := Option.map_eq_some_iff.mp ho₀
      exact absurd (lt_length hc) (by omega)
    · cases o with
      | mod x => exact (hf x).1
      | _ => exact hfresh rfl
  next => exact h₁.become p o' hp

theorem buildMod {c m flags : ℕ} {name : String} {hook : Option ModHooks} {ret e : ℤ}
    (hs : Settled w.heap) (h : w.buildMod e c name flags hook = some ((ret, m), w₁)) :
    Evolves none w w₁ := by
  unfold World.buildMod at h
  simp only [Option.bind_eq_bind, Option.bind_eq_some_iff] at h
  obtain ⟨u, href, h⟩ := h
  have hu : Evolves none w u := ref hs href
  have hnew := hu.trans (new (o := .mod (Mod.initial c name flags hook)) hu.settled nofun)
  split at h
  next =>
    simp only [Option.bind_eq_some_iff, Option.some.injEq] at h
    obtain ⟨v, hunref, h⟩ := h
    cases h
    exact hnew.trans (unrefAll hnew.settled hunref)
  next =>
    simp only [Option.bind_eq_some_iff] at h
    obtain ⟨⟨put, v⟩, hput, h⟩ := h
    have hv := hnew.trans (modulesPut hnew.settled hput)
    split at h
    next =>
      simp only [Option.bind_eq_some_iff, Option.some.injEq] at h
      obtain ⟨y, hunref, h⟩ := h
      cases h
      exact hv.trans (unrefAll hv.settled hunref)
    next =>
      simp only [Option.bind_eq_some_iff, Option.some.injEq] at h
      obtain ⟨y, hset, h⟩ := h
      cases h
      exact hv.setMod_new hu.grows hset (by simp)

theorem newMod {c m flags : ℕ} {name : String} {hook : Option ModHooks} {ret : ℤ}
    (hs : Settled w.heap) (h : w.newMod c name flags hook = some ((ret, m), w₁)) :
    Evolves none w w₁ := by
  have hsys : Evolves none w { w with sys := w.sys.fault.2 } :=
    .of_heap_eq hs rfl (by rw [Sys.fault_eq])
  exact hsys.trans (buildMod hsys.settled h)

end Evolves

/-! ## Every operation -/

section Steps

variable {w w' : World}

theorem Evolves.newTick {c ns : ℕ} (hs : Settled w.heap)
    (h : (Op.newTick c ns).exec w = some ((), w')) : Evolves none w w' := by
  simp only [Op.exec, Option.bind_eq_bind, Option.bind_eq_some_iff] at h
  obtain ⟨u, hset, h⟩ := h
  cases h
  have hsys : Evolves none w
      { w with sys := (World.createSrc none .tmr (tmrKey ns) 0 (.user 0) w.sys).2 } :=
    of_heap_eq hs rfl (freedData_createSrc _ _ _ _ _ _)
  have hnew := hsys.trans
    (new (o := .src { (World.createSrc none .tmr (tmrKey ns) 0 (.user 0) w.sys).1 with
      flags := M_SRC_PRIO_HIGH ||| M_SRC_INTERNAL }) hsys.settled trivial)
  exact hnew.trans (setCtx hnew.settled hset (fun _ _ => rfl))

theorem Evolves.markRunning {m : ℕ} (hs : Settled w.heap)
    (h : (Op.markRunning m).exec w = some ((), w')) : Evolves (some m) w w' := by
  simp only [Op.exec, Option.bind_eq_bind, Option.bind_eq_some_iff, Option.some.injEq] at h
  obtain ⟨x, -, u, hmod, v, hctx, h⟩ := h
  cases h
  have hu : Evolves (some m) w u := setMod hs hmod (fun _ => ⟨fun hm => absurd rfl hm, rfl⟩)
  exact hu.trans (setCtx hu.settled hctx nofun)

theorem Evolves.markStopped {m : ℕ} {stopping : Bool} (hs : Settled w.heap)
    (h : (Op.markStopped m stopping).exec w = some ((), w')) : Evolves (some m) w w' := by
  simp only [Op.exec, Option.bind_eq_bind, Option.bind_eq_some_iff] at h
  obtain ⟨x, -, h⟩ := h
  split at h
  next =>
    simp only [Option.bind_eq_some_iff, Option.some.injEq] at h
    obtain ⟨u, hctx, v, hmod, h⟩ := h
    cases h
    have hu : Evolves (some m) w u := setCtx hs hctx nofun
    exact hu.trans (setMod hu.settled hmod (fun _ => ⟨fun hm => absurd rfl hm, rfl⟩))
  next =>
    simp only [Option.bind_eq_some_iff, Option.some.injEq] at h
    obtain ⟨_, rfl, v, hmod, h⟩ := h
    cases h
    exact setMod hs hmod (fun _ => ⟨fun hm => absurd rfl hm, rfl⟩)

end Steps

/-- The module whose state the operation changes. -/
def Op.marked : Op → Option ℕ
  | .markRunning m => some m
  | .markStopped m _ => some m
  | .markZombie m => some m
  | _ => none

theorem Op.evolves {o : Op} {w w' : World} {r : o.Resp} (hs : Settled w.heap)
    (h : o.exec w = some (r, w')) : Evolves o.marked w w' := by
  cases o with
  | get => cases h; exact .refl hs
  | setErrno | setTls | pollDone => cases h; exact .of_heap_eq hs rfl rfl
  | close => cases h; exact .of_heap_eq hs rfl (Sys.freedData_close _ _)
  | readPriv => cases h; exact .of_heap_eq hs rfl (Sys.freedData_readPriv _)
  | threadAdd => cases h; exact .of_heap_eq hs rfl (by rw [Sys.fault_eq])
  | newCtx => cases h; exact .new hs rfl
  | newMod => exact .newMod hs h
  | newTick => exact .newTick hs h
  | newEvt => exact .newEvt hs h
  | processPs => exact .processPs hs h
  | modulesRemove => exact .modulesRemove hs h
  | subscriptionsPut => exact .subscriptionsPut hs h
  | subscriptionsRemove => exact .subscriptionsRemove hs h
  | flushMsg => exact .flushMsg hs h
  | addSrc => exact .addSrc hs h
  | bstRemove => exact .bstRemove hs h
  | bstItrRemove => exact .bstItrRemove hs h
  | pipe => exact .pipe hs h
  | pollSetNewEvt => exact .pollSetEvt hs h
  | pollWait => exact .pollWait hs h
  | pollRecv => exact .pollRecv hs h
  | markRunning => exact .markRunning hs h
  | markStopped => exact .markStopped hs h
  | tell =>
      obtain ⟨u, htell, h⟩ := Option.map_eq_some_iff.mp h
      cases h
      exact .tell hs htell
  | setCtx c field =>
      obtain ⟨u, hset, h⟩ := Option.map_eq_some_iff.mp h
      cases h
      exact .setCtx hs hset (fun _ _ => by cases field <;> rfl)
  | pollInit | pollClear =>
      obtain ⟨u, hset, h⟩ := Option.map_eq_some_iff.mp h
      cases h
      exact .setCtx hs hset (fun _ _ => rfl)
  | setMod m field =>
      obtain ⟨u, hset, h⟩ := Option.map_eq_some_iff.mp h
      cases h
      exact .setMod hs hset (fun _ => by cases field <;> exact ⟨fun _ => rfl, rfl⟩)
  | markZombie =>
      obtain ⟨u, hset, h⟩ := Option.map_eq_some_iff.mp h
      cases h
      exact .setMod hs hset (fun _ => ⟨fun hm => absurd rfl hm, rfl⟩)
  | setEvtOther | setEvtUserdata =>
      obtain ⟨u, hset, h⟩ := Option.map_eq_some_iff.mp h
      cases h
      exact .setEvt hs hset (fun _ => rfl)
  | setSrcUserptr =>
      obtain ⟨u, hset, h⟩ := Option.map_eq_some_iff.mp h
      cases h
      exact .setSrc hs hset (fun _ _ => ⟨rfl, rfl, rfl, rfl⟩)
  | refMod =>
      simp only [exec, Option.bind_eq_bind, Option.bind_eq_some_iff, Option.some.injEq] at h
      obtain ⟨x, -, u, href, h⟩ := h
      cases h
      exact .ref hs href
  | unrefMod | unrefCtx | unrefEvt =>
      simp only [exec, Option.bind_eq_bind, Option.bind_eq_some_iff, Option.some.injEq] at h
      obtain ⟨x, -, u, hunref, h⟩ := h
      cases h
      exact .unrefAll hs hunref
  | dropTick =>
      simp only [exec, Option.bind_eq_bind, Option.bind_eq_some_iff, Option.some.injEq] at h
      obtain ⟨x, -, u, hset, v, hunref, h⟩ := h
      cases h
      have hu : Evolves none w u := .setCtx hs hset (fun _ _ => rfl)
      exact hu.trans (.unrefAll hu.settled hunref)
  | clear m queue =>
      simp only [exec, Option.bind_eq_bind, Option.bind_eq_some_iff, Option.some.injEq] at h
      obtain ⟨x, -, u, hset, v, hunref, h⟩ := h
      cases h
      have hu : Evolves none w u :=
        .setMod hs hset (fun _ => by cases queue <;> exact ⟨fun _ => rfl, rfl⟩)
      exact hu.trans (.unrefAll hu.settled hunref)
  | enqueueBatch | takeBatch | unstash =>
      simp only [exec, Option.bind_eq_bind, Option.bind_eq_some_iff, Option.some.injEq] at h
      obtain ⟨x, -, u, hset, h⟩ := h
      cases h
      exact .setMod hs hset (fun _ => ⟨fun _ => rfl, rfl⟩)
  | stash | bind =>
      simp only [exec, Option.bind_eq_bind, Option.bind_eq_some_iff, Option.some.injEq] at h
      obtain ⟨x, -, u, href, v, hset, h⟩ := h
      cases h
      have hu : Evolves none w u := .ref hs href
      exact hu.trans (.setMod hu.settled hset (fun _ => ⟨fun _ => rfl, rfl⟩))

/-! ## Liveness -/

namespace Evolves

variable {marked : Option ℕ} {w w' : World} {p : ℕ}

theorem become_of_live (h : Evolves marked w w') {o : Obj} (ho : val w.heap p = some o)
    (hlive : Live w'.heap p) : ∃ o', val w'.heap p = some o' ∧ o.Become marked p o' := by
  obtain ⟨c', hc'⟩ := (h.settled.live_iff).mp hlive
  have hval : val w'.heap p = some c'.val := by simp [val, hc']
  rcases h.become p c'.val hval with ⟨o₀, ho₀, hbecome⟩ | ⟨hnew, -⟩
  · cases ho.symm.trans ho₀
    exact ⟨c'.val, hval, hbecome⟩
  · obtain ⟨c, hc, -⟩ := Option.map_eq_some_iff.mp ho
    exact absurd (lt_length hc) (by omega)

end Evolves

/-- Operations and reactions of the user's code lead from the one state to the other. -/
inductive Later : World → World → Prop where
  | refl (w : World) : Later w w
  | exec {w w₁ w₂ : World} {o : Op} {r : o.Resp} (h : Later w w₁)
      (hexec : o.exec w₁ = some (r, w₂)) : Later w w₂
  | react {w w₁ : World} (h : Later w w₁) (hook : Hook) : Later w (World.react hook w₁).2.2

theorem Later.trans {w w₁ w₂ : World} (h₁ : Later w w₁) (h₂ : Later w₁ w₂) : Later w w₂ := by
  induction h₂ with
  | refl => exact h₁
  | exec _ hexec ih => exact ih.exec hexec
  | react _ hook ih => exact ih.react hook

theorem later_keeps (w : World) : machine.Keeps (fun _ => True) (Later w) where
  exec := fun _ _ _ _ hs _ hexec => hs.exec hexec
  react := fun hook _ hs => hs.react hook

/-- Every state of a run comes later than its start. -/
theorem later_runCalls (depth : ℕ) (calls : List Call) (w : World) :
    (∀ step ∈ (machine.runCalls depth calls w).steps, Later w step.before) ∧
      Later w (machine.runCalls depth calls w).state :=
  (later_keeps w).runCalls depth calls (Later.refl w) (fun _ _ => trivial)

theorem later_run (depth : ℕ) (calls : List Call) (w : World) :
    Later w (machine.runCalls depth calls w).state :=
  (later_runCalls depth calls w).2

theorem later_ends {α : Type} {depth : ℕ} {p : Lm α} {w w' : World} {a : α}
    (h : p.Ends (machine.handler depth) w a w') : Later w w' := by
  have hrun := p.run_keeps ((later_keeps w).handler depth) (Later.refl w) (fun _ _ => trivial)
  exact h.2 ▸ hrun.2

theorem Later.pays {w w' : World} (h : Later w w') (hs : Settled w.heap) : Pays w w' := by
  induction h with
  | refl => exact Pays.refl hs
  | exec h hexec ih => exact ih.trans (Op.evolves ih.settled hexec).pays
  | @react w₁ h hook ih =>
      apply ih.trans
      unfold World.react
      split
      next => exact Pays.refl ih.settled
      next =>
        have hscript := Pays.refl ih.settled
        exact
          { hscript with
            settled := ih.settled
            grows := hscript.grows
            gone := hscript.gone
            kept := hscript.kept
            ledger := hscript.ledger }

theorem settled_initial (host : Host) (script : List Reaction) (polls : List PollAnswer)
    (faults : List ℤ) : Settled (World.initial host script polls faults).heap := by
  intro p c hp
  exact absurd (lt_length hp) (by simp [World.initial])

/-- The operation drops the last reference to the object at `p`. -/
def Op.Destroys (o : Op) (w : World) (p : ℕ) : Prop :=
  match o.exec w with
  | none => False
  | some next => ¬ Live next.2.heap p

instance (o : Op) (w : World) (p : ℕ) : Decidable (o.Destroys w p) := by
  unfold Op.Destroys
  split <;> infer_instance

theorem Op.live_of_not_destroys {o : Op} {w w' : World} {r : o.Resp} {p : ℕ}
    (h : o.exec w = some (r, w')) (hp : ¬ o.Destroys w p) : Live w'.heap p := by
  unfold Destroys at hp
  rw [h] at hp
  exact Classical.not_not.mp hp

end Libmodule
