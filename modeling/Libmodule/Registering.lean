import Libmodule.Advancing
import Libmodule.EventErrno

/-!
# Registering a source

`register_mod_src` makes the source first, then inserts it into the tree of its module,
and then arms it when the module runs.  A source that the tree refuses is destroyed like
any other, with what its flags say of the descriptor and of the user's pointer; a source
that is not armed stays in the tree.
-/

namespace Libmodule

open RefHeap SearchTree Reentrant

/-! ## What the call promises -/

/-- The source is in a tree of a module. -/
def InTree (w : World) (q : ℕ) (s : EvSource) : Prop :=
  srcAt w.heap q = some s ∧ ∃ n y type, modAt w.heap n = some y ∧ q ∈ (y.srcs type).values

/-- The poll plugin watches the source.  Standard input counts as watched also when the
epoll set refuses it. -/
def Armed (w : World) (c q : ℕ) : Prop :=
  ∃ s fd, srcAt w.heap q = some s ∧ s.ev = true ∧ s.fd = some fd ∧
    (⟨c, fd, q⟩ ∈ w.sys.epoll ∨ fd = 0)

/-- The step adds a task to the thread pool. -/
def StartsTask (step : Step LibLang World) : Prop :=
  step.act = .op .threadAdd ∧ step.before.sys.fault.1 = 0

/-- The descriptor of the source stays open, and its user pointer is not freed. -/
structure KeepsResources (w v : World) (s : EvSource) : Prop where
  fd : w.sys.file s.fd ≠ .closed → v.sys.file s.fd = w.sys.file s.fd
  userptr : s.userptr ≠ .user 0 →
    (v.sys.freedUserptr.map Prod.snd).count s.userptr =
      (w.sys.freedUserptr.map Prod.snd).count s.userptr

/-- A call with the answer `ret` has registered and armed its source, or else has changed
no tree and has taken nothing from other sources. -/
structure RegisterContract (w v : World) (m : ℕ) (type : MSrcType) (key : Words)
    (userptr : Userptr) (ret : ℤ) (steps : List (Step LibLang World)) : Prop where
  registered : ret = 0 → ∃ x s, modAt v.heap m = some x ∧
    w.heap.length ∈ (x.srcs type).values ∧ srcAt v.heap w.heap.length = some s ∧
    s.type = type ∧ s.key = key ∧ s.userptr = userptr ∧
    (x.state = .running → Armed v x.ctx w.heap.length ∧
      (type = .task → ∃ step ∈ steps, StartsTask step))
  unchanged : ret ≠ 0 → ∀ x, modAt w.heap m = some x →
    ∃ x', modAt v.heap m = some x' ∧ x'.srcs = x.srcs
  released : ret ≠ 0 → ∀ q s, InTree w q s → KeepsResources w v s

/-! ## When it keeps its promise -/

/-- A call that gets to the tree of the module. -/
structure MayRegister (w : World) (m : ℕ) (x : Mod) (flags : ℕ) : Prop where
  there : modAt w.heap m = some x
  state : x.state ≠ .zombie
  ctx : w.Allows x.ctx
  token : x.tbTokens ≠ 0
  prio : prioFlags flags ∈ [0, 1, 2, 4]

/-- The flags with a priority. -/
def srcFlags (flags : ℕ) : ℕ := if prioFlags flags = 0 then flags ||| M_SRC_PRIO_NORM else flags

/-- The source of the call, and what is outside of the heap when it is made. -/
def World.callSrc (w : World) (m : ℕ) (type : MSrcType) (key : Words) (flags : ℕ)
    (userptr : Userptr) : EvSource × Sys :=
  World.createSrc (some m) type key (srcFlags flags) userptr w.sys

/-- The state in which the source is inserted. -/
def World.inserting (w : World) (m : ℕ) (x : Mod) (created : EvSource × Sys) : World :=
  ({ w.takeToken m x with sys := created.2 }.new (.src created.1)).2

/-- The tree of its type has a source that compares equal. -/
def Duplicate (w : World) (m : ℕ) (x : Mod) (created : EvSource × Sys) : Prop :=
  treeInsert ((w.inserting m x created).compareWith created.1.type created.1.words)
    w.heap.length w.heap.length (x.srcs created.1.type) = some (-EEXIST, x.srcs created.1.type)

/-- An open descriptor that a registered source has. -/
def SharesFd (w : World) (fd : Option ℕ) : Prop :=
  w.sys.file fd ≠ .closed ∧ ∃ q s, InTree w q s ∧ s.fd = fd

def SharesUserptr (w : World) (userptr : Userptr) : Prop :=
  userptr ≠ .user 0 ∧ ∃ q s, InTree w q s ∧ s.userptr = userptr

/-- A source that the tree refuses takes nothing along that a registered source has, and
one that the tree takes can be armed and its task started. -/
structure RegistersWell (w : World) (m : ℕ) (x : Mod) (created : EvSource × Sys) : Prop where
  keepsFd : Duplicate w m x created →
    hasFlag created.1.flags M_SRC_FD_AUTOCLOSE → ¬ SharesFd w created.1.fd
  keepsUserptr : Duplicate w m x created →
    hasFlag created.1.flags M_SRC_AUTOFREE → ¬ SharesUserptr w created.1.userptr
  polled : ¬ Duplicate w m x created → x.state = .running →
    (pollSetNewEvt x.ctx w.heap.length created.1 .add created.2).1 = 0
  started : ¬ Duplicate w m x created → x.state = .running → created.1.type = .task →
    (pollSetNewEvt x.ctx w.heap.length created.1 .add created.2).2.2.fault.1 = 0

/-! ## Descriptors -/

section Files

variable {s : Sys} {fd : Option ℕ}

theorem Sys.file_close (s : Sys) (fd fd' : Option ℕ) :
    (s.close fd).file fd' = if fd' = fd then .closed else s.file fd' := by
  unfold Sys.close
  split
  next =>
    split
    next h => rw [h]; rfl
    next => rfl
  next hclosed =>
    split
    next h => rw [h]; exact hclosed
    next => rfl
  next n _ =>
    cases fd' with
    | none => simp [Sys.file]
    | some k =>
        simp only [Sys.file, Option.bind_some, Option.some.injEq]
        by_cases hk : k = n
        · subst hk
          rw [if_pos rfl]
          by_cases hlt : k < s.files.length
          · rw [List.getElem?_set_self hlt, Option.getD_some]
          · rw [List.getElem?_eq_none (by simpa using hlt), Option.getD_none]
        · rw [if_neg hk, List.getElem?_set_ne (Ne.symm hk)]

theorem Sys.file_dup (hopen : s.file fd ≠ .closed) (fd' : Option ℕ) :
    (s.dup fd').2.file fd = s.file fd := by
  simp only [Sys.dup, Sys.fault_eq]
  split
  next => rfl
  next =>
    split
    next => rfl
    next =>
      cases fd with
      | none => exact absurd rfl hopen
      | some n =>
          simp only [Sys.file, Option.bind_some] at hopen ⊢
          have hlt : n < s.files.length := by
            by_contra hge
            exact hopen (by rw [List.getElem?_eq_none (by omega), Option.getD_none])
          rw [List.getElem?_append_left hlt]

theorem freedUserptr_close (s : Sys) (fd : Option ℕ) :
    (s.close fd).freedUserptr = s.freedUserptr := by
  unfold Sys.close
  split <;> rfl

theorem freedUserptr_dup (s : Sys) (fd : Option ℕ) :
    (s.dup fd).2.freedUserptr = s.freedUserptr := by
  simp only [Sys.dup, Sys.fault_eq]
  split
  next => rfl
  next => split <;> rfl

end Files

/-! ## The new source -/

section Created

variable (m : Option ℕ) (type : MSrcType) (key : Words) (flags : ℕ) (userptr : Userptr) (s : Sys)

/-- What `create_src` stores as it is given. -/
structure CreatedFor (m : Option ℕ) (type : MSrcType) (key : Words) (userptr : Userptr)
    (src : EvSource) : Prop where
  type : src.type = type
  key : src.key = key
  userptr : src.userptr = userptr
  mod : src.mod = m
  topic : src.topic = none
  ev : src.ev = false
  fd : src.type.privFd = true → src.fd = none

theorem createdFor_createSrc :
    CreatedFor m type key userptr (World.createSrc m type key flags userptr s).1 := by
  unfold World.createSrc
  cases type
  case ps | fd =>
    dsimp only
    split <;> exact ⟨rfl, rfl, rfl, rfl, rfl, rfl, by rintro ⟨⟩⟩
  all_goals exact ⟨rfl, rfl, rfl, rfl, rfl, rfl, fun _ => rfl⟩

theorem file_createSrc {fd : Option ℕ} (hopen : s.file fd ≠ .closed) :
    (World.createSrc m type key flags userptr s).2.file fd = s.file fd := by
  unfold World.createSrc
  cases type
  case ps | fd =>
    dsimp only
    split
    next => exact Sys.file_dup hopen _
    next => rfl
  all_goals rfl

theorem freedUserptr_createSrc :
    (World.createSrc m type key flags userptr s).2.freedUserptr = s.freedUserptr := by
  unfold World.createSrc
  cases type
  case ps | fd =>
    dsimp only
    split
    next => exact freedUserptr_dup s _
    next => rfl
  all_goals rfl

end Created

/-! ## A source that is destroyed at once -/

section Destroyed

variable {w v u : World} {m p : ℕ} {x : Mod} {src s : EvSource}

theorem World.unrefAll_leaf {o : Obj} (hp : get w.heap p = some ⟨1, o⟩) (howns : o.owns = []) :
    w.unrefAll [p] = (o.dtor w.heap p w.sys).map
      (fun s => { w with heap := put w.heap p none, sys := s }) := by
  obtain ⟨fuel, hfuel⟩ := exists_budget hp
  unfold World.unrefAll
  rw [hfuel, List.map_cons, List.map_nil, release_leaf hp howns]
  cases o.dtor w.heap p w.sys <;> rfl

/-- A source that was never armed is not polled when it goes. -/
theorem srcPrivDtor_new {h : Heap Obj} {sys sys' : Sys} (hev : src.ev = false)
    (hdtor : srcPrivDtor h p src sys = some sys') :
    sys' = srcAutofree p src (srcAutoclose src sys) := by
  obtain ⟨sys₁, hdisarm, rfl⟩ := Option.map_eq_some_iff.mp hdtor
  have hsame : sys₁ = sys := by
    unfold srcDisarm at hdisarm
    split at hdisarm
    next =>
      cases hdisarm
      rfl
    next =>
      simp only [Option.bind_eq_bind, Option.bind_eq_some_iff] at hdisarm
      obtain ⟨y, -, hdisarm⟩ := hdisarm
      split at hdisarm
      next =>
        obtain ⟨c, -, hdisarm⟩ := Option.bind_eq_some_iff.mp hdisarm
        cases hdisarm
        rw [pollSetNewEvt, if_pos ⟨hev, rfl⟩]
      next =>
        cases hdisarm
        rfl
  rw [hsame]

theorem file_srcAutofree (sys : Sys) (fd : Option ℕ) :
    (srcAutofree p src sys).file fd = sys.file fd := by
  unfold srcAutofree
  split <;> rfl

theorem file_srcAutoclose {sys : Sys} {fd : Option ℕ} (hpriv : src.type.privFd = true → src.fd = none) :
    (srcAutoclose src sys).file fd =
      if hasFlag src.flags M_SRC_FD_AUTOCLOSE ∧ fd = src.fd then .closed else sys.file fd := by
  unfold srcAutoclose
  by_cases hflag : hasFlag src.flags M_SRC_FD_AUTOCLOSE = true
  · cases hfd : src.fd with
    | none =>
        simp only [Option.isSome_none, Bool.and_false, Bool.false_eq_true, if_false, hflag,
          true_and]
        split
        next hnone =>
          rw [hnone]
          rfl
        next => rfl
    | some n =>
        have hnot : src.type.privFd = false := by
          by_contra hpos
          rw [hpriv (by simpa using hpos)] at hfd
          cases hfd
        simp only [hflag, hnot, Bool.not_false, Option.isSome_some, Bool.and_self, if_true,
          true_and]
        exact Sys.file_close sys (some n) fd
  · simp [hflag]

theorem freed_srcPrivDtor (sys : Sys) (userptr : Userptr) :
    ((srcAutofree p src (srcAutoclose src sys)).freedUserptr.map Prod.snd).count userptr =
      (sys.freedUserptr.map Prod.snd).count userptr +
        if hasFlag src.flags M_SRC_AUTOFREE ∧ src.userptr = userptr then 1 else 0 := by
  have hclose : (srcAutoclose src sys).freedUserptr = sys.freedUserptr := by
    unfold srcAutoclose
    split
    next => exact freedUserptr_close sys _
    next => rfl
  unfold srcAutofree
  by_cases hflag : hasFlag src.flags M_SRC_AUTOFREE = true
  · rw [if_pos hflag]
    simp only [hclose, hflag, true_and, List.map_append, List.count_append, List.map_cons,
      List.map_nil, List.count_singleton]
    by_cases hsame : src.userptr = userptr <;> simp [hsame]
  · rw [if_neg hflag, hclose]
    simp [hflag]

end Destroyed

/-! ## Insertion -/

section Insertion

variable {w v : World} {m q : ℕ} {x : Mod} {r : ℤ} {type : MSrcType} {key : Words}
  {flags : ℕ} {userptr : Userptr} {created : EvSource × Sys}

theorem length_takeToken : (w.takeToken m x).heap.length = w.heap.length :=
  length_modify _ _ _

theorem get_inserting : get (w.inserting m x created).heap w.heap.length =
    some ⟨1, .src created.1⟩ := by
  rw [World.inserting, World.new, get_alloc, if_pos length_takeToken.symm]

theorem modAt_inserting (hx : modAt w.heap m = some x) :
    modAt (w.inserting m x created).heap m = some { x with tbTokens := x.tbTokens - 1 } := by
  have hm : m ≠ (w.takeToken m x).heap.length := by
    rw [length_takeToken]
    exact (modAt_lt_length hx).ne
  rw [World.inserting, World.new, modAt_alloc, if_neg hm, World.takeToken, modAt_modify_mod,
    if_pos rfl, hx]
  rfl

/-- The state after the tree has taken the source. -/
def World.inserted (w : World) (m : ℕ) (x : Mod) (created : EvSource × Sys)
    (t : NodeTree ℕ) : World :=
  let grow := fun y : Mod => { y with srcs := Function.update y.srcs created.1.type t }
  let u := w.inserting m x created
  { u with heap := modify u.heap m (Obj.mapMod grow) }

/-- The state after the source has been refused. -/
def World.refused (w : World) (m : ℕ) (x : Mod) (created : EvSource × Sys) : World :=
  let u := w.inserting m x created
  { u with
    heap := put u.heap w.heap.length none
    sys := srcAutofree w.heap.length created.1 (srcAutoclose created.1 created.2) }

theorem treeInsert_cases {actual : ℕ → Option ℤ} {id data : ℕ} {t t' : NodeTree ℕ}
    (h : treeInsert actual id data t = some (r, t')) :
    r = 0 ∧ data ∈ t'.values ∧ t'.values.length = t.values.length + 1 ∨
      r = -EEXIST ∧ t' = t := by
  obtain ⟨⟨c, found⟩, hseek, h⟩ := Option.bind_eq_some_iff.mp h
  cases found with
  | leaf =>
      cases h
      obtain ⟨-, hside⟩ := seekBy_agrees hseek
      have hplug := plug_seek (fun value => (actual value).getD 0) [] t
      rw [hside] at hplug
      change plug c .leaf = t at hplug
      refine .inl ⟨rfl, ?_, ?_⟩
      · rw [Bst.values_plug]
        simp
      · rw [← hplug, Bst.values_plug, Bst.values_plug]
        simp only [NodeTree.values_node, NodeTree.values_leaf, List.nil_append,
          List.append_nil, List.length_append, List.length_cons, List.length_nil]
        omega
  | node id left value right =>
      cases h
      exact .inr ⟨rfl, rfl⟩

/-- The insertion as the tree decides it. -/
theorem addSrc_cases (hx : modAt w.heap m = some x)
    (hcreated : w.callSrc m type key flags userptr = created)
    (h : (w.takeToken m x).addSrc m type key (srcFlags flags) userptr = some ((r, q), v)) :
    q = w.heap.length ∧
      (r = 0 ∧ ¬ Duplicate w m x created ∧
          (∃ t, w.heap.length ∈ t.values ∧
            t.values.length = (x.srcs type).values.length + 1 ∧ v = w.inserted m x created t) ∨
        r = -EEXIST ∧ Duplicate w m x created ∧ v = w.refused m x created) := by
  have hfor : CreatedFor (some m) type key userptr created.1 := by
    rw [← hcreated]
    exact createdFor_createSrc _ _ _ _ _ _
  have hnew : World.createSrc (some m) type key (srcFlags flags) userptr
      (w.takeToken m x).sys = created := hcreated
  unfold World.addSrc at h
  simp only [hnew, Option.bind_eq_bind, Option.bind_eq_some_iff] at h
  obtain ⟨y, hy, ⟨inserted, t⟩, htree, h⟩ := h
  obtain rfl := Option.some.inj ((modAt_inserting hx).symm.trans hy)
  rw [World.new, length_takeToken] at htree h
  have hquery : treeInsert ((w.inserting m x created).compareWith created.1.type created.1.words)
      w.heap.length w.heap.length (x.srcs created.1.type) = some (inserted, t) := by
    rw [hfor.type]
    exact htree
  split at h
  next hzero =>
    obtain rfl : inserted = 0 := hzero
    simp only [Option.bind_eq_some_iff, Option.some.injEq, Prod.mk.injEq] at h
    obtain ⟨u, hset, ⟨rfl, rfl⟩, rfl⟩ := h
    have hnot : ¬ Duplicate w m x created := by
      intro hdup
      cases Option.some.inj (hdup.symm.trans hquery)
    rcases treeInsert_cases htree with ⟨-, hmem, hlength⟩ | ⟨hexist, -⟩
    · refine ⟨rfl, .inl ⟨rfl, hnot, t, hmem, hlength, ?_⟩⟩
      obtain ⟨-, hset⟩ := World.setMod_eq_some.mp hset
      rw [← hset, World.inserted, hfor.type]
      rfl
    · cases hexist
  next hzero =>
    simp only [Option.bind_eq_some_iff, Option.some.injEq, Prod.mk.injEq] at h
    obtain ⟨u, hunref, ⟨rfl, rfl⟩, rfl⟩ := h
    rcases treeInsert_cases hquery with ⟨hret, -⟩ | ⟨hexist, hsame⟩
    · exact absurd hret hzero
    · refine ⟨rfl, .inr ⟨hexist, ?_, ?_⟩⟩
      · rw [Duplicate, hquery, hexist, hsame]
      · have hleaf := @World.unrefAll_leaf (w.inserting m x created) _ _ get_inserting rfl
        have hunref' := hleaf.symm.trans hunref
        obtain ⟨sys, hdtor, rfl⟩ := Option.map_eq_some_iff.mp hunref'
        rw [Obj.dtor, hfor.topic] at hdtor
        rw [World.refused, srcPrivDtor_new hfor.ev hdtor]
        rfl

theorem modAt_refused (hx : modAt w.heap m = some x) :
    modAt (w.refused m x created).heap m = some { x with tbTokens := x.tbTokens - 1 } := by
  have hm : w.heap.length ≠ m := (modAt_lt_length hx).ne'
  rw [← @modAt_inserting w m x created hx, World.refused, modAt, modAt, val, val]
  simp only [get_put_ne hm]

theorem modAt_inserted (hx : modAt w.heap m = some x) {t : NodeTree ℕ} :
    modAt (w.inserted m x created t).heap m =
      some { x with
        tbTokens := x.tbTokens - 1
        srcs := Function.update x.srcs created.1.type t } := by
  rw [World.inserted, modAt_modify_mod, if_pos rfl, modAt_inserting hx]
  rfl

theorem srcAt_inserted (t : NodeTree ℕ) :
    srcAt (w.inserted m x created t).heap w.heap.length = some created.1 := by
  rw [World.inserted, srcAt_modify_mod, srcAt_eq_some, val, get_inserting]
  rfl

/-- What a refused source takes along. -/
theorem keepsResources_refused
    (hcreated : w.callSrc m type key flags userptr = created) (hdup : Duplicate w m x created) :
    (∀ q s, InTree w q s → KeepsResources w (w.refused m x created) s) ↔
      RegistersWell w m x created := by
  have hfor : CreatedFor (some m) type key userptr created.1 := by
    rw [← hcreated]
    exact createdFor_createSrc _ _ _ _ _ _
  have hfile : ∀ fd, w.sys.file fd ≠ .closed →
      (w.refused m x created).sys.file fd =
        if hasFlag created.1.flags M_SRC_FD_AUTOCLOSE ∧ fd = created.1.fd then .closed
        else w.sys.file fd := by
    intro fd hopen
    have hkept : created.2.file fd = w.sys.file fd := by
      rw [← hcreated]
      exact file_createSrc _ _ _ _ _ _ hopen
    rw [World.refused, file_srcAutofree, file_srcAutoclose hfor.fd, hkept]
  have hfreed : ∀ userptr, ((w.refused m x created).sys.freedUserptr.map Prod.snd).count userptr =
      (w.sys.freedUserptr.map Prod.snd).count userptr +
        if hasFlag created.1.flags M_SRC_AUTOFREE ∧ created.1.userptr = userptr then 1 else 0 := by
    intro userptr
    have hkept : created.2.freedUserptr = w.sys.freedUserptr := by
      rw [← hcreated]
      exact freedUserptr_createSrc _ _ _ _ _ _
    rw [World.refused, freed_srcPrivDtor, hkept]
  constructor
  · intro hkeeps
    refine ⟨?_, ?_, fun hnot => absurd hdup hnot, fun hnot => absurd hdup hnot⟩
    · rintro _ hflag ⟨hopen, q, s, hq, hfd⟩
      rw [← hfd] at hopen
      have hsame := (hkeeps q s hq).fd hopen
      rw [hfile s.fd hopen, if_pos ⟨hflag, hfd⟩] at hsame
      exact hopen hsame.symm
    · rintro _ hflag ⟨huser, q, s, hq, hptr⟩
      rw [← hptr] at huser
      have hsame := (hkeeps q s hq).userptr huser
      rw [hfreed s.userptr, if_pos ⟨hflag, hptr.symm⟩] at hsame
      omega
  · rintro hwell q s hq
    constructor
    · intro hopen
      rw [hfile s.fd hopen, if_neg]
      rintro ⟨hflag, hfd⟩
      rw [hfd] at hopen
      exact hwell.keepsFd hdup hflag ⟨hopen, q, s, hq, hfd⟩
    · intro huser
      rw [hfreed s.userptr, if_neg, Nat.add_zero]
      rintro ⟨hflag, hptr⟩
      rw [← hptr] at huser
      exact hwell.keepsUserptr hdup hflag ⟨huser, q, s, hq, hptr.symm⟩

end Insertion

/-! ## Arming -/

section Arming

variable {c p : ℕ} {src : EvSource} {s : Sys} {fd : Option ℕ}

theorem epollAdd_cases : (s.epollAdd c fd p).1 = 0 ∧
      (∃ n, fd = some n ∧ ⟨c, n, p⟩ ∈ (s.epollAdd c fd p).2.epoll) ∨
    (s.epollAdd c fd p).1 = -1 ∧ (s.epollAdd c fd p).2.errno ≠ 0 := by
  simp only [Sys.epollAdd, Sys.fault_eq]
  split
  next => exact .inr ⟨rfl, by rintro ⟨⟩⟩
  next => exact .inr ⟨rfl, by rintro ⟨⟩⟩
  next n _ =>
    split
    next => exact .inr ⟨rfl, by rintro ⟨⟩⟩
    next =>
      split
      next hfault => exact .inr ⟨rfl, hfault⟩
      next => exact .inl ⟨rfl, n, rfl, by simp⟩

/-- What `poll_set_new_evt` makes of a source that it adds. -/
structure PolledAs (c p : ℕ) (src : EvSource) (answer : ℤ × EvSource × Sys) : Prop where
  same : ∃ fd, answer.2.1 = { src with ev := true, fd := fd }
  watched : answer.1 = 0 → ∃ fd, answer.2.1.fd = some fd ∧
    (⟨c, fd, p⟩ ∈ answer.2.2.epoll ∨ fd = 0)
  failed : answer.1 ≠ 0 → answer.2.2.errno ≠ 0

theorem polledAs_add : PolledAs c p src (pollSetNewEvt c p src .add s) := by
  have hadd : ∀ (fd : Option ℕ) (s : Sys), PolledAs c p src
      (if (s.epollAdd c fd p).1 = -1 ∧ fd = some 0 ∧ (s.epollAdd c fd p).2.errno = EPERM then 0
        else (s.epollAdd c fd p).1,
        { src with ev := true, fd := fd }, (s.epollAdd c fd p).2) := by
    intro fd s
    refine ⟨⟨fd, rfl⟩, ?_, ?_⟩
    · intro hret
      rcases @epollAdd_cases c p s fd with ⟨-, n, hn, hwatch⟩ | ⟨hfail, -⟩
      · exact ⟨n, hn, .inl hwatch⟩
      · dsimp only at hret
        split at hret
        next hstdin => exact ⟨0, hstdin.2.1, .inr rfl⟩
        next => rw [hfail] at hret; cases hret
    · intro hret
      rcases @epollAdd_cases c p s fd with ⟨hzero, -⟩ | ⟨-, herrno⟩
      · dsimp only at hret
        rw [hzero, if_neg (by rintro ⟨⟨⟩, -⟩)] at hret
        exact absurd rfl hret
      · exact herrno
  unfold pollSetNewEvt
  rw [if_neg (by rintro ⟨-, ⟨⟩⟩)]
  dsimp only
  split
  next => exact hadd _ _
  next => exact hadd _ _

end Arming

/-! ## The call -/

/-- The call from the insertion on. -/
def insertSrc (m : ℕ) (type : MSrcType) (key : Words) (flags : ℕ) (userptr : Userptr) : Lm ℤ := do
  let (ret, src) : ℤ × ℕ ← act (.addSrc m type key (srcFlags flags) userptr)
  if ret ≠ 0 then return ret
  let x ← derefMod m
  if x.state = .running then
    let ret : ℤ ← act (.pollSetNewEvt x.ctx src .add)
    let ret : ℤ ← if ret = 0 ∧ type = .task then act .threadAdd else pure ret
    let errno ← getErrno
    return if ret = 0 then 0 else -errno
  return 0

section Call

variable {depth : ℕ} {w v : World} {m : ℕ} {x : Mod} {type : MSrcType} {key : Words}
  {flags : ℕ} {userptr : Userptr} {ret : ℤ} {created : EvSource × Sys}

theorem registerModSrc_eq (mod : Option ℕ) :
    registerModSrc mod type key flags userptr = modAssert mod fun m => consumeToken m
      (if prioFlags flags ∉ [0, 1, 2, 4] then pure (-EINVAL)
       else insertSrc m type key flags userptr) := rfl

theorem MayRegister.goesOn (hmay : MayRegister w m x flags) :
    GoesOn depth (registerModSrc (some m) type key flags userptr) w
      (insertSrc m type key flags userptr) (w.takeToken m x) := by
  rw [registerModSrc_eq]
  apply (modAssert_goesOn hmay.there hmay.state hmay.ctx).trans
  apply (consumeToken_goesOn hmay.there hmay.token).trans
  rw [if_neg (not_not.mpr hmay.prio)]
  exact .refl

/-- A call that does not get to the tree changes nothing but a token, and not even that
when the priority is one that there is. -/
theorem registerModSrc_refused
    (h : (registerModSrc (some m) type key flags userptr).Ends (handler depth) w ret v)
    (hno : ∀ x, ¬ MayRegister w m x flags) :
    ret ≠ 0 ∧
      (v = w ∧ (∀ Q, OfReads Q →
          (registerModSrc (some m) type key flags userptr).Every (handler depth) Q w) ∨
        prioFlags flags ∉ [0, 1, 2, 4] ∧ ∃ x, modAt w.heap m = some x ∧ v = w.takeToken m x) := by
  rw [registerModSrc_eq] at h ⊢
  unfold modAssert at h ⊢
  rw [Prog.ends_bind] at h
  obtain ⟨x, _, hread, h⟩ := h
  obtain ⟨hx, rfl⟩ := derefMod_ends.mp hread
  split at h
  next hzombie =>
    obtain ⟨rfl, rfl⟩ := Prog.ends_pure.mp h
    refine ⟨by decide, .inl ⟨rfl, fun Q hQ => ?_⟩⟩
    rw [Prog.every_bind_of_ends hread, if_pos hzombie]
    exact ⟨hQ.derefMod_every m, Prog.every_pure⟩
  next hstate =>
    rw [Prog.ends_bind] at h
    obtain ⟨c, u, hc, h⟩ := h
    obtain rfl := mCtx_ends hc
    split at h
    next hother =>
      obtain ⟨rfl, rfl⟩ := Prog.ends_pure.mp h
      refine ⟨by decide, .inl ⟨rfl, fun Q hQ => ?_⟩⟩
      rw [Prog.every_bind_of_ends hread, if_neg hstate, Prog.every_bind_of_ends hc,
        if_pos hother]
      exact ⟨hQ.derefMod_every m, hQ.mCtx_every, Prog.every_pure⟩
    next hctx =>
      have hsame := Classical.not_not.mp hctx
      by_cases htoken : x.tbTokens = 0
      · unfold consumeToken at h
        rw [Prog.ends_bind] at h
        obtain ⟨y, _, hread', h⟩ := h
        obtain ⟨hy, rfl⟩ := derefMod_ends.mp hread'
        obtain rfl := Option.some.inj (hx.symm.trans hy)
        rw [if_pos htoken] at h
        obtain ⟨rfl, rfl⟩ := Prog.ends_pure.mp h
        refine ⟨by decide, .inl ⟨rfl, fun Q hQ => ?_⟩⟩
        unfold consumeToken
        rw [Prog.every_bind_of_ends hread, if_neg hstate, Prog.every_bind_of_ends hc,
          if_neg hctx, Prog.every_bind_of_ends hread, if_pos htoken]
        exact ⟨hQ.derefMod_every m, hQ.mCtx_every, hQ.derefMod_every m, Prog.every_pure⟩
      · replace h := (consumeToken_goesOn hx htoken).ends_iff.mp h
        rw [hsame] at hc
        split at h
        next hprio =>
          obtain ⟨rfl, rfl⟩ := Prog.ends_pure.mp h
          exact ⟨by decide, .inr ⟨hprio, x, hx, rfl⟩⟩
        next hprio =>
          exact absurd ⟨hx, hstate, allows_of_mCtx_ends hc, htoken, not_not.mp hprio⟩ (hno x)

theorem registerModSrc_unchecked
    (h : (registerModSrc (some m) type key flags userptr).Ends (handler depth) w ret v)
    (hno : ∀ x, ¬ MayRegister w m x flags) :
    ret ≠ 0 ∧ v.sys = w.sys ∧ ∀ x, modAt w.heap m = some x →
      ∃ x', modAt v.heap m = some x' ∧ x'.srcs = x.srcs := by
  obtain ⟨hret, ⟨rfl, -⟩ | ⟨-, x, hx, rfl⟩⟩ := registerModSrc_refused h hno
  · exact ⟨hret, rfl, fun y hy => ⟨y, hy, rfl⟩⟩
  · refine ⟨hret, rfl, fun y hy => ?_⟩
    obtain rfl := Option.some.inj (hx.symm.trans hy)
    refine ⟨{ x with tbTokens := x.tbTokens - 1 }, ?_, rfl⟩
    rw [World.takeToken, modAt_modify_mod, if_pos rfl, hx]
    rfl

theorem srcAt_modify_src {h : Heap Obj} {p : ℕ} (f : EvSource → EvSource) :
    srcAt (modify h p (Obj.mapSrc f)) p = (srcAt h p).map f := by
  unfold srcAt
  rw [val_modify, if_pos rfl]
  cases val h p with
  | none => rfl
  | some o => cases o <;> rfl

/-- The state after the source has been given to the poll plugin. -/
def World.polled (w : World) (c p : ℕ) (src : EvSource) : World :=
  let answer := pollSetNewEvt c p src .add w.sys
  { w with
    sys := answer.2.2
    heap := modify w.heap p (Obj.mapSrc fun _ => answer.2.1) }

theorem pollSetEvt_eq {u : World} {c p : ℕ} {src : EvSource} {r : ℤ}
    (hsrc : srcAt u.heap p = some src) (h : u.pollSetEvt c p .add = some (r, v)) :
    r = (pollSetNewEvt c p src .add u.sys).1 ∧ v = u.polled c p src := by
  unfold World.pollSetEvt at h
  simp only [hsrc, Option.bind_eq_bind, Option.bind_eq_some_iff, Option.some.injEq,
    Prod.mk.injEq] at h
  obtain ⟨_, rfl, y, -, u', hset, rfl, rfl⟩ := h
  obtain ⟨-, rfl⟩ := World.setSrc_eq_some.mp hset
  exact ⟨rfl, rfl⟩

/-- The tree with one more source. -/
structure Grows (w : World) (x : Mod) (type : MSrcType) (t : NodeTree ℕ) : Prop where
  mem : w.heap.length ∈ t.values
  length : t.values.length = (x.srcs type).values.length + 1

/-- What becomes of the source, with the answer of the call and the state after it. -/
inductive InsertOutcome (w : World) (m : ℕ) (x : Mod) (created : EvSource × Sys) :
    ℤ → World → Prop where
  | refused (hdup : Duplicate w m x created) :
      InsertOutcome w m x created (-EEXIST) (w.refused m x created)
  | kept {t : NodeTree ℕ} (hdup : ¬ Duplicate w m x created)
      (htree : Grows w x created.1.type t) (hstate : x.state ≠ .running) :
      InsertOutcome w m x created 0 (w.inserted m x created t)
  | unarmed {t : NodeTree ℕ} {ret : ℤ} (hdup : ¬ Duplicate w m x created)
      (htree : Grows w x created.1.type t) (hstate : x.state = .running)
      (hpoll : (pollSetNewEvt x.ctx w.heap.length created.1 .add created.2).1 ≠ 0)
      (hret : ret ≠ 0) :
      InsertOutcome w m x created ret
        ((w.inserted m x created t).polled x.ctx w.heap.length created.1)
  | armed {t : NodeTree ℕ} (hdup : ¬ Duplicate w m x created)
      (htree : Grows w x created.1.type t) (hstate : x.state = .running)
      (hpoll : (pollSetNewEvt x.ctx w.heap.length created.1 .add created.2).1 = 0)
      (htask : created.1.type ≠ .task) :
      InsertOutcome w m x created 0
        ((w.inserted m x created t).polled x.ctx w.heap.length created.1)
  | task {t : NodeTree ℕ} {ret : ℤ} {v : World} (hdup : ¬ Duplicate w m x created)
      (htree : Grows w x created.1.type t) (hstate : x.state = .running)
      (hpoll : (pollSetNewEvt x.ctx w.heap.length created.1 .add created.2).1 = 0)
      (htask : created.1.type = .task)
      (hstarted : ((w.inserted m x created t).polled x.ctx w.heap.length created.1).sys.fault.1 =
        0 → ret = 0)
      (hv : v = { (w.inserted m x created t).polled x.ctx w.heap.length created.1 with
        sys := ((w.inserted m x created t).polled x.ctx w.heap.length created.1).sys.fault.2 }) :
      InsertOutcome w m x created ret v

theorem insertSrc_outcome (hx : modAt w.heap m = some x)
    (hcreated : w.callSrc m type key flags userptr = created)
    (h : (insertSrc m type key flags userptr).Ends (handler depth) (w.takeToken m x) ret v) :
    InsertOutcome w m x created ret v := by
  have hfor : CreatedFor (some m) type key userptr created.1 := by
    rw [← hcreated]
    exact createdFor_createSrc _ _ _ _ _ _
  unfold insertSrc at h
  rw [Prog.ends_bind] at h
  obtain ⟨⟨r, q⟩, u, hadd, h⟩ := h
  obtain ⟨rfl, hcases⟩ := addSrc_cases hx hcreated (act_ends.mp hadd)
  rcases hcases with ⟨rfl, hdup, t, hmem, hlength, rfl⟩ | ⟨rfl, hdup, rfl⟩
  · have htree : Grows w x created.1.type t := by
      rw [hfor.type]
      exact ⟨hmem, hlength⟩
    simp only [ne_eq, not_true_eq_false, if_false, Prog.ends_bind, derefMod_ends] at h
    obtain ⟨y, _, ⟨hy, rfl⟩, h⟩ := h
    obtain rfl := Option.some.inj ((modAt_inserted hx).symm.trans hy)
    split at h
    next hstate =>
      rw [Prog.ends_bind] at h
      obtain ⟨r, u, hset, h⟩ := h
      obtain ⟨hr, rfl⟩ := pollSetEvt_eq (srcAt_inserted t) (act_ends.mp hset)
      by_cases hpoll : (pollSetNewEvt x.ctx w.heap.length created.1 .add created.2).1 = 0
      · obtain rfl : r = 0 := hr.trans hpoll
        by_cases htask : type = .task
        · rw [if_pos ⟨rfl, htask⟩] at h
          simp only [Prog.ends_bind, act_ends, getErrno_ends] at h
          obtain ⟨r, u, hthread, e, _, ⟨rfl, rfl⟩, h⟩ := h
          obtain ⟨rfl, rfl⟩ := Prog.ends_pure.mp h
          cases hthread
          refine .task hdup htree hstate hpoll (hfor.type.trans htask) (fun hzero => ?_) rfl
          rw [if_pos hzero]
        · rw [if_neg (fun hboth => htask hboth.2)] at h
          simp only [Prog.ends_bind, Prog.ends_pure, getErrno_ends] at h
          obtain ⟨_, _, ⟨rfl, rfl⟩, e, _, ⟨rfl, rfl⟩, rfl, rfl⟩ := h
          rw [if_pos rfl]
          exact .armed hdup htree hstate hpoll (by rwa [hfor.type])
      · have hne : r ≠ 0 := fun hzero => hpoll (hr.symm.trans hzero)
        rw [if_neg (fun hboth => hne hboth.1)] at h
        simp only [Prog.ends_bind, Prog.ends_pure, getErrno_ends] at h
        obtain ⟨_, _, ⟨rfl, rfl⟩, e, _, ⟨rfl, rfl⟩, rfl, rfl⟩ := h
        rw [if_neg hne]
        have herrno := (@polledAs_add x.ctx w.heap.length created.1 created.2).failed hpoll
        exact .unarmed hdup htree hstate hpoll (neg_ne_zero.mpr herrno)
    next hstate =>
      obtain ⟨rfl, rfl⟩ := Prog.ends_pure.mp h
      exact .kept hdup htree hstate
  · have hne : -EEXIST ≠ 0 := by decide
    simp only [hne, ne_eq, not_false_eq_true, if_true] at h
    obtain ⟨rfl, rfl⟩ := Prog.ends_pure.mp h
    exact .refused hdup

/-! ### The task of the source -/

theorem ofReads_startsTask : OfReads fun step => ¬ StartsTask step where
  get := by rintro _ ⟨⟨⟩, -⟩
  halt := by rintro _ ⟨⟨⟩, -⟩

/-- The steps before the insertion read, and pay. -/
theorem registerModSrc_every {Q : Step LibLang World → Prop} (hQ : OfReads Q)
    (hx : modAt w.heap m = some x)
    (htoken : Q ⟨.op (.setMod m (.tbTokens (x.tbTokens - 1))), w⟩)
    (hinsert : (insertSrc m type key flags userptr).Every (handler depth) Q (w.takeToken m x)) :
    (registerModSrc (some m) type key flags userptr).Every (handler depth) Q w := by
  rw [registerModSrc_eq]
  apply hQ.modAssert_every
  rintro m' y hm' hy -
  cases hm'
  obtain rfl := Option.some.inj (hx.symm.trans hy)
  unfold consumeToken
  simp only [Prog.every_bind, derefMod_ends]
  refine ⟨hQ.derefMod_every m, ?_⟩
  rintro z w ⟨hz, rfl⟩
  obtain rfl := Option.some.inj (hx.symm.trans hz)
  split
  next => exact Prog.every_pure
  next =>
    rw [Prog.every_bind]
    refine ⟨act_every.mpr htoken, fun r u hset => ?_⟩
    have hu : u = w.takeToken m x := by
      obtain ⟨u', hset, heq⟩ := Option.map_eq_some_iff.mp (act_ends.mp hset)
      obtain ⟨-, rfl⟩ := World.setMod_eq_some.mp hset
      exact (Prod.mk.inj heq).2.symm
    rw [hu]
    split
    next => exact Prog.every_pure
    next => exact hinsert

/-- A task whose thread cannot be started is not started at all. -/
theorem not_startsTask (hx : modAt w.heap m = some x)
    (hcreated : w.callSrc m type key flags userptr = created)
    (hfault : (pollSetNewEvt x.ctx w.heap.length created.1 .add created.2).2.2.fault.1 ≠ 0) :
    (registerModSrc (some m) type key flags userptr).Every (handler depth)
      (fun step => ¬ StartsTask step) w := by
  have hQ := ofReads_startsTask
  have hother : ∀ (o : Op) (u : World), o ≠ .threadAdd → ¬ StartsTask ⟨.op o, u⟩ := by
    rintro o u ho ⟨hact, -⟩
    exact ho (Act.op.inj hact)
  have hinsert : (insertSrc m type key flags userptr).Every (handler depth)
      (fun step => ¬ StartsTask step) (w.takeToken m x) := by
    unfold insertSrc
    rw [Prog.every_bind]
    refine ⟨act_every.mpr (hother _ _ (by rintro ⟨⟩)), ?_⟩
    rintro ⟨r, q⟩ u hadd
    obtain ⟨rfl, hcases⟩ := addSrc_cases hx hcreated (act_ends.mp hadd)
    rcases hcases with ⟨rfl, -, t, -, -, rfl⟩ | ⟨rfl, -, rfl⟩
    · simp only [ne_eq, not_true_eq_false, if_false, Prog.every_bind, derefMod_ends]
      refine ⟨hQ.derefMod_every m, ?_⟩
      rintro y _ ⟨hy, rfl⟩
      obtain rfl := Option.some.inj ((modAt_inserted hx).symm.trans hy)
      have hlast : ∀ (ret : ℤ) (u : World), (do
          let errno ← getErrno
          return if ret = 0 then 0 else -errno : Lm ℤ).Every (handler depth)
            (fun step => ¬ StartsTask step) u := by
        intro ret u
        rw [Prog.every_bind, getErrno, Prog.every_bind]
        exact ⟨⟨hQ.getWorld_every, fun _ _ _ => Prog.every_pure⟩, fun _ _ _ => Prog.every_pure⟩
      split
      next =>
        rw [Prog.every_bind]
        refine ⟨act_every.mpr (hother _ _ (by rintro ⟨⟩)), fun r u hset => ?_⟩
        obtain ⟨-, rfl⟩ := pollSetEvt_eq (srcAt_inserted t) (act_ends.mp hset)
        split
        next =>
          rw [Prog.every_bind]
          exact ⟨act_every.mpr (fun hstarts => hfault hstarts.2), fun r u _ => hlast r u⟩
        next =>
          rw [Prog.every_bind]
          exact ⟨Prog.every_pure, fun r u _ => hlast r u⟩
      next => exact Prog.every_pure
    · have hne : -EEXIST ≠ 0 := by decide
      simp only [hne, ne_eq, not_false_eq_true, if_true]
      exact Prog.every_pure
  exact registerModSrc_every hQ hx (hother _ _ (by rintro ⟨⟩)) hinsert

/-- A task whose thread can be started is started. -/
theorem startsTask (hx : modAt w.heap m = some x)
    (hcreated : w.callSrc m type key flags userptr = created) (hdup : ¬ Duplicate w m x created)
    (hstate : x.state = .running) (htask : type = .task)
    (hpoll : (pollSetNewEvt x.ctx w.heap.length created.1 .add created.2).1 = 0)
    (hfault : (pollSetNewEvt x.ctx w.heap.length created.1 .add created.2).2.2.fault.1 = 0)
    (h : (insertSrc m type key flags userptr).Ends (handler depth) (w.takeToken m x) ret v) :
    ∃ step ∈ ((insertSrc m type key flags userptr).run (handler depth) (w.takeToken m x)).steps,
      StartsTask step := by
  by_contra hnone
  have hevery : (insertSrc m type key flags userptr).Every (handler depth)
      (fun step => ¬ StartsTask step) (w.takeToken m x) :=
    fun step hstep hstarts => hnone ⟨step, hstep, hstarts⟩
  unfold insertSrc at h hevery
  rw [Prog.ends_bind] at h
  obtain ⟨⟨r, q⟩, u, hadd, h⟩ := h
  replace hevery := (Prog.every_bind.mp hevery).2 _ _ hadd
  obtain ⟨rfl, hcases⟩ := addSrc_cases hx hcreated (act_ends.mp hadd)
  rcases hcases with ⟨rfl, -, t, -, -, rfl⟩ | ⟨-, hno, -⟩
  · simp only [ne_eq, not_true_eq_false, if_false] at h hevery
    rw [Prog.ends_bind] at h
    obtain ⟨y, u, hread, h⟩ := h
    replace hevery := (Prog.every_bind.mp hevery).2 _ _ hread
    obtain ⟨hy, rfl⟩ := derefMod_ends.mp hread
    obtain rfl := Option.some.inj ((modAt_inserted hx).symm.trans hy)
    rw [if_pos hstate] at h hevery
    rw [Prog.ends_bind] at h
    obtain ⟨r, u, hset, h⟩ := h
    replace hevery := (Prog.every_bind.mp hevery).2 _ _ hset
    obtain ⟨hr, rfl⟩ := pollSetEvt_eq (srcAt_inserted t) (act_ends.mp hset)
    rw [if_pos ⟨hr.trans hpoll, htask⟩] at hevery
    exact act_every.mp (Prog.every_bind.mp hevery).1 ⟨rfl, hfault⟩
  · exact hdup hno

/-! ### The contract, for each outcome -/

theorem modAt_polled {u : World} {c p : ℕ} {src : EvSource} :
    modAt (u.polled c p src).heap m = modAt u.heap m :=
  modAt_modify_src _ _

theorem armed_polled {u : World} {c p : ℕ} {src : EvSource} (hsrc : srcAt u.heap p = some src)
    (hpoll : (pollSetNewEvt c p src .add u.sys).1 = 0) :
    Armed (u.polled c p src) c p ∧
      ∃ fd, srcAt (u.polled c p src).heap p = some { src with ev := true, fd := fd } := by
  have hpolled := @polledAs_add c p src u.sys
  obtain ⟨fd, hsame⟩ := hpolled.same
  obtain ⟨n, hfd, hwatch⟩ := hpolled.watched hpoll
  have hat : srcAt (u.polled c p src).heap p =
      some (pollSetNewEvt c p src .add u.sys).2.1 := by
    rw [World.polled, srcAt_modify_src, hsrc]
    rfl
  rw [hsame] at hat hfd
  exact ⟨⟨_, n, hat, rfl, hfd, hwatch⟩, fd, hat⟩

theorem Grows.mem_update {t : NodeTree ℕ} (htype : created.1.type = type)
    (h : Grows w x created.1.type t) :
    w.heap.length ∈ (Function.update x.srcs created.1.type t type).values := by
  rw [htype, Function.update_self]
  exact h.mem

/-- A tree that has grown is not what it was. -/
theorem Grows.ne {t : NodeTree ℕ} (h : Grows w x type t) : Function.update x.srcs type t ≠ x.srcs := by
  intro hsame
  have htree := congrFun hsame type
  rw [Function.update_self] at htree
  have hlength := h.length
  rw [htree] at hlength
  omega

/-- A call that fails after the insertion has changed a tree. -/
theorem not_contract_of_inserted {t : NodeTree ℕ} {steps : List (Step LibLang World)}
    (hx : modAt w.heap m = some x) (htree : Grows w x created.1.type t)
    (hv : modAt v.heap m = modAt (w.inserted m x created t).heap m) (hret : ret ≠ 0) :
    ¬ RegisterContract w v m type key userptr ret steps := by
  intro hcontract
  obtain ⟨x', hx', hsrcs⟩ := hcontract.unchanged hret x hx
  rw [hv, modAt_inserted hx] at hx'
  cases hx'
  exact htree.ne hsrcs

theorem InsertOutcome.contract_iff {steps : List (Step LibLang World)}
    (h : InsertOutcome w m x created ret v) (hx : modAt w.heap m = some x)
    (hcreated : w.callSrc m type key flags userptr = created)
    (hsteps : ¬ Duplicate w m x created → x.state = .running → type = .task →
      (pollSetNewEvt x.ctx w.heap.length created.1 .add created.2).1 = 0 →
      ((∃ step ∈ steps, StartsTask step) ↔
        (pollSetNewEvt x.ctx w.heap.length created.1 .add created.2).2.2.fault.1 = 0)) :
    RegisterContract w v m type key userptr ret steps ↔ RegistersWell w m x created := by
  have hfor : CreatedFor (some m) type key userptr created.1 := by
    rw [← hcreated]
    exact createdFor_createSrc _ _ _ _ _ _
  cases h with
  | refused hdup =>
      have hne : -EEXIST ≠ 0 := by decide
      rw [← keepsResources_refused hcreated hdup]
      constructor
      · intro hcontract
        exact hcontract.released hne
      · intro hkeeps
        refine ⟨fun hzero => absurd hzero hne, fun _ y hy => ?_, fun _ => hkeeps⟩
        obtain rfl := Option.some.inj (hx.symm.trans hy)
        exact ⟨_, modAt_refused hx, rfl⟩
  | @kept t hdup htree hstate =>
      refine iff_of_true ⟨fun _ => ?_, fun hne => absurd rfl hne, fun hne => absurd rfl hne⟩
        ⟨fun h => absurd h hdup, fun h => absurd h hdup, fun _ h => absurd h hstate,
          fun _ h => absurd h hstate⟩
      exact ⟨_, _, modAt_inserted hx, htree.mem_update hfor.type, srcAt_inserted t, hfor.type,
        hfor.key, hfor.userptr, fun hrunning => absurd hrunning hstate⟩
  | unarmed hdup htree hstate hpoll hret =>
      refine iff_of_false (not_contract_of_inserted hx htree modAt_polled hret) ?_
      exact fun hwell => hpoll (hwell.polled hdup hstate)
  | @armed t hdup htree hstate hpoll htask =>
      refine iff_of_true ⟨fun _ => ?_, fun hne => absurd rfl hne, fun hne => absurd rfl hne⟩
        ⟨fun h => absurd h hdup, fun h => absurd h hdup, fun _ _ => hpoll,
          fun _ _ h => absurd h htask⟩
      obtain ⟨harmed, fd, hat⟩ := armed_polled (srcAt_inserted t) hpoll
      exact ⟨_, _, modAt_polled.trans (modAt_inserted hx), htree.mem_update hfor.type, hat,
        hfor.type, hfor.key, hfor.userptr,
        fun _ => ⟨harmed, fun h => absurd (hfor.type.trans h) htask⟩⟩
  | @task t _ _ hdup htree hstate hpoll htask hstarted hv =>
      have hsteps' := hsteps hdup hstate (hfor.type.symm.trans htask) hpoll
      have hmod : modAt v.heap m = modAt (w.inserted m x created t).heap m := by
        rw [hv]
        exact modAt_polled
      by_cases hfault :
          (pollSetNewEvt x.ctx w.heap.length created.1 .add created.2).2.2.fault.1 = 0
      · obtain rfl := hstarted hfault
        refine iff_of_true ⟨fun _ => ?_, fun hne => absurd rfl hne, fun hne => absurd rfl hne⟩
          ⟨fun h => absurd h hdup, fun h => absurd h hdup, fun _ _ => hpoll,
            fun _ _ _ => hfault⟩
        obtain ⟨harmed, fd, hat⟩ := armed_polled (srcAt_inserted t) hpoll
        have hat' : srcAt v.heap w.heap.length =
            some { created.1 with ev := true, fd := fd } := by
          rw [hv]
          exact hat
        refine ⟨_, _, hmod.trans (modAt_inserted hx), htree.mem_update hfor.type, hat',
          hfor.type, hfor.key, hfor.userptr, fun _ => ⟨?_, fun _ => hsteps'.mpr hfault⟩⟩
        obtain ⟨s, n, hs, hev, hfd, hwatch⟩ := harmed
        refine ⟨s, n, by rw [hv]; exact hs, hev, hfd, hwatch.imp_left (fun hmem => ?_)⟩
        rw [hv]
        simp only [Sys.fault_eq]
        exact hmem
      · refine iff_of_false (fun hcontract => ?_)
          (fun hwell => hfault (hwell.started hdup hstate htask))
        by_cases hret : ret = 0
        · obtain ⟨y, s, hy, -, -, -, -, -, hrunning⟩ := hcontract.registered hret
          rw [hmod, modAt_inserted hx] at hy
          cases hy
          exact hfault (hsteps'.mp ((hrunning hstate).2 (hfor.type.symm.trans htask)))
        · exact not_contract_of_inserted hx htree hmod hret hcontract

end Call

/-- A call keeps its contract just when a source that is refused shares nothing that its
flags give away, and one that is taken can be armed and its task started. -/
theorem registerContract_iff {depth m flags : ℕ} {w v : World} {type : MSrcType} {key : Words}
    {userptr : Userptr} {ret : ℤ}
    (h : (registerModSrc (some m) type key flags userptr).Ends (handler depth) w ret v) :
    RegisterContract w v m type key userptr ret
        ((registerModSrc (some m) type key flags userptr).run (handler depth) w).steps ↔
      ∀ x, MayRegister w m x flags →
        RegistersWell w m x (w.callSrc m type key flags userptr) := by
  by_cases hmay : ∃ x, MayRegister w m x flags
  · obtain ⟨x, hmay⟩ := hmay
    have hends := hmay.goesOn.ends_iff.mp h
    have hunique : (∀ y, MayRegister w m y flags →
        RegistersWell w m y (w.callSrc m type key flags userptr)) ↔
          RegistersWell w m x (w.callSrc m type key flags userptr) := by
      constructor
      · exact fun hwell => hwell x hmay
      · intro hwell y hy
        obtain rfl := Option.some.inj (hmay.there.symm.trans hy.there)
        exact hwell
    rw [hunique]
    refine (insertSrc_outcome hmay.there rfl hends).contract_iff hmay.there rfl ?_
    · intro hdup hstate htask hpoll
      constructor
      · rintro ⟨step, hstep, hstarts⟩
        by_contra hfault
        exact not_startsTask hmay.there rfl hfault step hstep hstarts
      · intro hfault
        obtain ⟨step, hstep, hstarts⟩ :=
          startsTask hmay.there rfl hdup hstate htask hpoll hfault hends
        exact ⟨step, hmay.goesOn.mem_steps hstep, hstarts⟩
  · have hno : ∀ x, ¬ MayRegister w m x flags := fun x hx => hmay ⟨x, hx⟩
    obtain ⟨hret, hsys, hsrcs⟩ := registerModSrc_unchecked h hno
    refine iff_of_true ⟨fun hzero => absurd hzero hret, fun _ => hsrcs, fun _ q s _ => ?_⟩
      (fun x hx => absurd hx (hno x))
    exact ⟨fun _ => by rw [hsys], fun _ => by rw [hsys]⟩

/-! ## A descriptor that is registered twice -/

/-- The user has the descriptors 0 to 3 open, and has registered the last one with a module
that is not started. -/
def oneFd : World :=
  let opened := fun s : Sys => { s with files := [.other, .other, .other, .other] }
  (machine.runCalls 2
    [.mCtxRegister "ctx" 0, .mModRegister "a" true (some onEvtOnly) 0,
      .mModSrcRegister (some 1) .fd (fun _ => 3) M_SRC_FD_AUTOCLOSE 0]
    { startFrom [] [] with sys := opened (startFrom [] []).sys }).state

/-- The call that registers it again. -/
def registerFdAgain : Lm ℤ :=
  registerModSrc (some 1) .fd (fun _ => 3) M_SRC_FD_AUTOCLOSE (.user 0)

theorem registerFdAgain_ends :
    registerFdAgain.Ends (handler 2) oneFd (-EEXIST) (registerFdAgain.run (handler 2) oneFd).state :=
  ⟨by decide +kernel, rfl⟩

theorem registerContract_oneFd :
    RegisterContract oneFd (registerFdAgain.run (handler 2) oneFd).state 1 .fd (fun _ => 3) (.user 0)
        (-EEXIST) (registerFdAgain.run (handler 2) oneFd).steps ↔
      ∀ x, MayRegister oneFd 1 x M_SRC_FD_AUTOCLOSE →
        RegistersWell oneFd 1 x (oneFd.callSrc 1 .fd (fun _ => 3) M_SRC_FD_AUTOCLOSE (.user 0)) :=
  registerContract_iff registerFdAgain_ends

/-- The refused source closes the descriptor of the other. -/
theorem not_registerContract_oneFd :
    ¬ ∀ (depth m flags : ℕ) (w v : World) (type : MSrcType) (key : Words) (userptr : Userptr)
      (ret : ℤ),
      (registerModSrc (some m) type key flags userptr).Ends (handler depth) w ret v →
      RegisterContract w v m type key userptr ret
        ((registerModSrc (some m) type key flags userptr).run (handler depth) w).steps := by
  intro hall
  have hcontract := hall 2 1 M_SRC_FD_AUTOCLOSE oneFd _ .fd (fun _ => 3) (.user 0) _
    registerFdAgain_ends
  have hsrc : srcAt oneFd.heap 2 = some ((srcAt oneFd.heap 2).get (by decide +kernel)) :=
    (Option.some_get _).symm
  have hmod : modAt oneFd.heap 1 = some ((modAt oneFd.heap 1).get (by decide +kernel)) :=
    (Option.some_get _).symm
  have htree : InTree oneFd 2 ((srcAt oneFd.heap 2).get (by decide +kernel)) :=
    ⟨hsrc, 1, _, .fd, hmod, by decide +kernel⟩
  have hfd := (hcontract.released (by decide) 2 _ htree).fd (by decide +kernel)
  have hclosed : (registerFdAgain.run (handler 2) oneFd).state.sys.file (some 3) = .closed := by
    decide +kernel
  have hopen : oneFd.sys.file (some 3) = .other := by decide +kernel
  have hthree : ((srcAt oneFd.heap 2).get (by decide +kernel)).fd = some 3 := by decide +kernel
  rw [hthree, hopen] at hfd
  exact absurd (hclosed.symm.trans hfd) (by decide)

end Libmodule
