import Libmodule.BstDestruction
import Libmodule.SrcLayout

/-!
# Registering event sources

`m_mod_src_register_X` and `m_mod_src_deregister_X` of one module, for the
source types with a key.  The trees compare on insertion a source with a
source, and on removal a key structure with a source, through one comparator
that expects the latter.
-/

namespace Libmodule

open SearchTree Bst CallRun

structure EvSrc where
  addr : ℕ
  flags : ℕ
  words : Words

/-- A key structure of the user, passed where the tree expects a source. -/
def EvSrc.ofKey (key : Words) : EvSrc := ⟨0, 0, key⟩

def M_SRC_PRIO_NORM : ℕ := 1 <<< 1
def M_SRC_PRIO_HIGH : ℕ := 1 <<< 2
def M_SRC_DUP : ℕ := 1 <<< 5
def M_SRC_PRIO_MASK : ℕ := (M_SRC_PRIO_HIGH <<< 1) - 1

/-- The part of a module that registration reads and writes. -/
structure SrcModule where
  zombie : Bool
  running : Bool
  sameCtx : Bool
  tokens : ℕ
  srcs : SrcType → Bst EvSrc

/-- What a registration gets from outside: the address of the new source, the
allocator of tree nodes, and the result of the poll plugin with its `errno`. -/
structure SrcEnv where
  src : Option ℕ
  node : NodeAlloc EvSrc
  poll : ℤ
  errno : ℤ

def prioFlags (flags : ℕ) : ℕ := flags &&& M_SRC_PRIO_MASK

def createSrc (env : SrcEnv) (type : SrcType) (key : Words) (flags : ℕ) : Option EvSrc :=
  env.src.map (fun addr =>
    { addr := addr
      flags := if type = .fd then flags ||| M_SRC_PRIO_HIGH else flags
      words := createSrcWords type key })

namespace SrcModule

def registerModSrc (env : SrcEnv) (m : SrcModule) (type : SrcType) (key : Words)
    (flags : ℕ) : Option (ℤ × SrcModule) :=
  if m.zombie then some (-EACCES, m)
  else if !m.sameCtx then some (-EPERM, m)
  else if m.tokens = 0 then some (-EAGAIN, m)
  else
    let m := { m with tokens := m.tokens - 1 }
    if prioFlags flags ∉ [0, 1, 2, 4] then some (-EINVAL, m)
    else
      let flags := if prioFlags flags = 0 then flags ||| M_SRC_PRIO_NORM else flags
      match createSrc env type key flags with
      | none => some (-EINVAL, m)
      | some src => do
          let (ret, bst) ← (m.srcs type).mBstInsert env.node (some src)
          let m := { m with srcs := Function.update m.srcs type bst }
          if ret = 0 then
            let ret := if m.running then env.poll else 0
            some (if ret = 0 then 0 else -env.errno, m)
          else some (ret, m)

def deregisterModSrc (m : SrcModule) (type : SrcType) (key : Words) :
    Option (ℤ × SrcModule) :=
  if m.zombie then some (-EACCES, m)
  else if !m.sameCtx then some (-EPERM, m)
  else if m.tokens = 0 then some (-EAGAIN, m)
  else do
    let (ret, bst) ← (m.srcs type).mBstRemove (some (EvSrc.ofKey key))
    some (ret, { m with tokens := m.tokens - 1, srcs := Function.update m.srcs type bst })

end SrcModule

def strNotEmpty (mem : UserMem) (str : BitVec 64) : Option Bool :=
  if str = 0 then some false else (mem str).map (fun s => !s.isEmpty)

/-- The check that the public functions of a type make on a key. -/
def keyOk (mem : UserMem) : SrcType → Words → Option Bool
  | .fd, fd => some (decide (0 ≤ (fd 0).toInt))
  | .tmr, its => some (decide (word64 its 2 ≠ 0))
  | .sgn, sgs => some (decide (sgs 0 ≠ 0))
  | .path, pt => strNotEmpty mem (word64 pt 0)
  | .pid, pid => some (decide (0 < (pid 0).toInt))

/-- What the registration of a type checks besides the key. -/
def registerOk : SrcType → Words → ℕ → Bool
  | .fd, _, flags => prioFlags flags = 0 || prioFlags flags = M_SRC_PRIO_HIGH
  | .path, pt, _ => pt 2 ≠ 0
  | _, _, _ => true

def mModSrcRegister (mem : UserMem) (env : SrcEnv) (type : SrcType) (m : SrcModule)
    (key : Option Words) (flags : ℕ) : Option (ℤ × SrcModule) :=
  match key with
  | none => some (-EINVAL, m)
  | some key => do
      if (← keyOk mem type key) && registerOk type key flags then
        m.registerModSrc env type key flags
      else some (-EINVAL, m)

def mModSrcDeregister (mem : UserMem) (type : SrcType) (m : SrcModule) (key : Option Words) :
    Option (ℤ × SrcModule) :=
  match key with
  | none => some (-EINVAL, m)
  | some key => do
      if ← keyOk mem type key then m.deregisterModSrc type key
      else some (-EINVAL, m)

def mModSrcRegisterFd (mem : UserMem) (env : SrcEnv) (m : SrcModule) (fd : BitVec 32) :=
  mModSrcRegister mem env .fd m (some (fun _ => fd))

def mModSrcDeregisterFd (mem : UserMem) (m : SrcModule) (fd : BitVec 32) :=
  mModSrcDeregister mem .fd m (some (fun _ => fd))

def mModSrcRegisterTmr (mem : UserMem) (env : SrcEnv) := mModSrcRegister mem env .tmr

def mModSrcDeregisterTmr (mem : UserMem) := mModSrcDeregister mem .tmr

def mModSrcRegisterSgn (mem : UserMem) (env : SrcEnv) := mModSrcRegister mem env .sgn

def mModSrcDeregisterSgn (mem : UserMem) := mModSrcDeregister mem .sgn

def mModSrcRegisterPath (mem : UserMem) (env : SrcEnv) := mModSrcRegister mem env .path

def mModSrcDeregisterPath (mem : UserMem) := mModSrcDeregister mem .path

def mModSrcRegisterPid (mem : UserMem) (env : SrcEnv) := mModSrcRegister mem env .pid

def mModSrcDeregisterPid (mem : UserMem) := mModSrcDeregister mem .pid

/-- A module without sources. -/
def newSrcModule (mem : UserMem) (running : Bool) (tokens : ℕ) : SrcModule where
  zombie := false
  running := running
  sameCtx := true
  tokens := tokens
  srcs := fun type => mBstNew (fun a b => srcCmpMap mem type a.words b.words) true

/-- What a comparator reads when its first argument is a new source: the clock
where the period should be, and the descriptor `-1` where a signal, a path or
a process should be. -/
theorem srcCmpMap_createSrcWords (mem : UserMem) (key node : Words) :
    srcCmpMap mem .fd (createSrcWords .fd key) node = fdcmp key node ∧
    srcCmpMap mem .tmr (createSrcWords .tmr key) node =
      some (((key 1 ++ key 0 : BitVec 64) - word64 node 4).setWidth 32).toInt ∧
    srcCmpMap mem .sgn (createSrcWords .sgn key) node = some (-1 - node 1).toInt ∧
    srcCmpMap mem .path (createSrcWords .path key) node =
      (do some (strcmp (← mem 0xFFFFFFFF) (← mem (word64 node 2)))) ∧
    srcCmpMap mem .pid (createSrcWords .pid key) node = some (-1 - node 1).toInt := by
  refine ⟨rfl, rfl, rfl, ?_, rfl⟩
  have hlow : createSrcWords .path key 0 = -1 := rfl
  have hhigh : createSrcWords .path key (0 + 1) = 0 := rfl
  have haddr : word64 (createSrcWords .path key) 0 = 0xFFFFFFFF := by
    rw [word64, hlow, hhigh]
    decide
  rw [srcCmpMap, pathcmp, haddr]

/-! ## Runs -/

inductive SrcCall where
  | register (env : SrcEnv) (type : SrcType) (key : Words) (flags : ℕ)
  | deregister (type : SrcType) (key : Words)

def SrcCall.exec (mem : UserMem) (m : SrcModule) : SrcCall → Option (ℤ × SrcModule)
  | .register env type key flags => mModSrcRegister mem env type m (some key) flags
  | .deregister type key => mModSrcDeregister mem type m (some key)

/-- A call with a valid key and valid flags, on a usable module with a token
left, whose allocations and poll operation succeed. -/
def Succeeds (mem : UserMem) (m : SrcModule) : SrcCall → Prop
  | .register env type key flags =>
      keyOk mem type key = some true ∧ registerOk type key flags = true ∧
        prioFlags flags ∈ [0, 1, 2, 4] ∧ flags &&& M_SRC_DUP = 0 ∧
        m.zombie = false ∧ m.sameCtx = true ∧ 0 < m.tokens ∧
        env.src ≠ none ∧ env.node.calloc (m.srcs type).heap ≠ none ∧ env.poll = 0
  | .deregister type key =>
      keyOk mem type key = some true ∧ m.zombie = false ∧ m.sameCtx = true ∧ 0 < m.tokens

/-- A source with this key is in the tree of its type. -/
def Registered (mem : UserMem) (m : SrcModule) (type : SrcType) (key : Words) : Prop :=
  ∃ src ∈ (m.srcs type).stored, keyOrder mem type key (keyOf type src.words) = 0

/-- What one call promises about its answer and about the sources it leaves. -/
def RegistrationContract (mem : UserMem) (m : SrcModule) (call : SrcCall) (ret : ℤ)
    (m' : SrcModule) : Prop :=
  match call with
  | .register _ type key _ =>
      (Registered mem m type key →
        ret = -EEXIST ∧ ∀ other, m'.srcs other = m.srcs other) ∧
      (¬ Registered mem m type key →
        ret = 0 ∧ (∀ other, other ≠ type → m'.srcs other = m.srcs other) ∧
        ∃ src : EvSrc, src.words = createSrcWords type key ∧
          (m'.srcs type).stored.Perm (src :: (m.srcs type).stored) ∧
          (m'.srcs type).destroyed = (m.srcs type).destroyed)
  | .deregister type key =>
      Registered mem m type key →
        ret = 0 ∧ (∀ other, other ≠ type → m'.srcs other = m.srcs other) ∧
        ∃ src, keyOrder mem type key (keyOf type src.words) = 0 ∧
          (m.srcs type).stored.Perm (src :: (m'.srcs type).stored) ∧
          (m'.srcs type).destroyed = (m.srcs type).destroyed ++ [src]

/-- At every source on the way to a key, the comparator answers for `data`
with the sign that the key has there. -/
def ComparesAsKey (mem : UserMem) (m : SrcModule) (type : SrcType) (data key : Words) : Prop :=
  ∀ t, Represents (m.srcs type) t →
    Agrees (fun src => keyOrder mem type key (keyOf type src.words))
      (fun src => srcCmpMap mem type data src.words) t

/-- The comparisons a call makes order its key as the key's type does, and a
removal takes out a node with at most one child.  Descriptors always compare
that way. -/
def OrdersSources (mem : UserMem) (m : SrcModule) : SrcCall → Prop
  | .register _ type key _ =>
      type ≠ .fd → ComparesAsKey mem m type (createSrcWords type key) key
  | .deregister type key =>
      (type ≠ .fd → ComparesAsKey mem m type key key) ∧
        ∀ found, (m.srcs type).bstFind (EvSrc.ofKey key) = some found →
          (m.srcs type).HasOneChild found.1

/-! ## The trees of a module -/

def srcOrder (mem : UserMem) (type : SrcType) (a b : EvSrc) : ℤ :=
  keyOrder mem type (keyOf type a.words) (keyOf type b.words)

theorem srcOrder_total (mem : UserMem) (type : SrcType) : TotalPreorder (srcOrder mem type) :=
  (keyOrder_total mem type).comap (fun src : EvSrc => keyOf type src.words)

structure SrcTree (mem : UserMem) (type : SrcType) (l : Bst EvSrc) (t : NodeTree EvSrc) :
    Prop where
  represents : Represents l t
  sorted : Sorted (srcOrder mem type) t
  comp_eq : l.comp = fun a b => srcCmpMap mem type a.words b.words
  dtor_eq : l.dtor = true
  fds : type = .fd → ∀ src ∈ t.values, 0 ≤ (src.words 0).toInt

def SrcsInvariant (mem : UserMem) (m : SrcModule) : Prop :=
  ∀ type, ∃ t, SrcTree mem type (m.srcs type) t

theorem keyOrder_createSrcWords (mem : UserMem) (type : SrcType) (key other : Words) :
    keyOrder mem type (keyOf type (createSrcWords type key)) other =
      keyOrder mem type key other := by
  have hword := fun i hi => keyOf_createSrcWords type key (i := i) hi
  cases type with
  | tmr => simp only [keyOrder, word64, hword 2 (by decide), hword 3 (by decide)]
  | path => simp only [keyOrder, word64, hword 0 (by decide), hword 1 (by decide)]
  | fd => simp only [keyOrder, hword 0 (by decide)]
  | sgn => simp only [keyOrder, hword 0 (by decide)]
  | pid => simp only [keyOrder, hword 0 (by decide)]

/-- Descriptors subtract without overflow. -/
theorem fdcmp_sign {my node : Words} (hmy : 0 ≤ (my 0).toInt) (hnode : 0 ≤ (node 0).toInt) :
    (my 0 - node 0).toInt = (my 0).toInt - (node 0).toInt := by
  have hlt := (my 0).toInt_lt
  have hlt' := (node 0).toInt_lt
  rw [BitVec.toInt_sub]
  apply Int.bmod_eq_of_le <;> omega

/-- The comparisons of a descriptor have the sign of the key. -/
theorem SrcTree.fd_agrees {mem : UserMem} {l : Bst EvSrc} {t : NodeTree EvSrc}
    (h : SrcTree mem .fd l t) {data key : Words} (hdata : data 0 = key 0)
    (hkey : 0 ≤ (key 0).toInt) :
    Agrees (fun src => keyOrder mem .fd key (keyOf .fd src.words))
      (fun src => srcCmpMap mem .fd data src.words) t := by
  apply agrees_of_forall
  intro src hsrc
  have hnode := h.fds rfl src hsrc
  refine ⟨_, rfl, ?_⟩
  rw [fdcmp_sign (by rw [hdata]; exact hkey) hnode, hdata]
  rfl

section Calls

variable {mem : UserMem} {m : SrcModule} {type : SrcType} {key : Words}

/-- The search of a call ends where the order of keys leads. -/
theorem SrcTree.search {l : Bst EvSrc} {t : NodeTree EvSrc} (h : SrcTree mem type l t)
    (data : EvSrc) (hagrees : Agrees (fun src => keyOrder mem type key (keyOf type src.words))
      (fun src => srcCmpMap mem type data.words src.words) t) (addr flags : ℕ) :
    ∃ c r, l.bstFind data = some (slotOf c, ctxParent c) ∧ t = plug c r ∧
      l.read (slotOf c) = some r.ptr ∧
      Located (srcOrder mem type) ⟨addr, flags, createSrcWords type key⟩ c ∧
      (r = .leaf ∨ ∃ n left src right, r = .node n left src right ∧
        keyOrder mem type key (keyOf type src.words) = 0) := by
  have hside : srcOrder mem type ⟨addr, flags, createSrcWords type key⟩ =
      fun src => keyOrder mem type key (keyOf type src.words) := by
    funext src
    exact keyOrder_createSrcWords mem type key _
  have hspec := search_spec h.represents (srcOrder_total mem type) h.sorted
    ⟨addr, flags, createSrcWords type key⟩ data (by
      rw [hside, h.comp_eq]
      exact hagrees)
  rw [hside] at hspec
  exact hspec

theorem registered_of_node {t : NodeTree EvSrc} (h : SrcTree mem type (m.srcs type) t)
    {c : List (Frame EvSrc)} {n : ℕ} {left right : NodeTree EvSrc} {src : EvSrc}
    (ht : t = plug c (.node n left src right))
    (hzero : keyOrder mem type key (keyOf type src.words) = 0) : Registered mem m type key := by
  refine ⟨src, ?_, hzero⟩
  rw [h.represents.stored_eq, ht, values_plug, NodeTree.values_node]
  simp

theorem not_registered_of_leaf {t : NodeTree EvSrc} (h : SrcTree mem type (m.srcs type) t)
    {c : List (Frame EvSrc)} (ht : t = plug c .leaf) {addr flags : ℕ}
    (hlocated : Located (srcOrder mem type) ⟨addr, flags, createSrcWords type key⟩ c) :
    ¬ Registered mem m type key := by
  rintro ⟨src, hsrc, hzero⟩
  rw [h.represents.stored_eq, ht, values_plug, NodeTree.values_leaf, List.append_nil,
    List.mem_append] at hsrc
  have hside : srcOrder mem type ⟨addr, flags, createSrcWords type key⟩ src = 0 := by
    rw [← hzero]
    exact keyOrder_createSrcWords mem type key _
  rcases hsrc with hsrc | hsrc
  · obtain ⟨p, hp, rfl⟩ := List.mem_map.mp hsrc
    have hpos := hlocated.before p hp
    omega
  · obtain ⟨p, hp, rfl⟩ := List.mem_map.mp hsrc
    have hneg := hlocated.after p hp
    omega

theorem SrcsInvariant.update (h : SrcsInvariant mem m) {l : Bst EvSrc} {t : NodeTree EvSrc}
    (hl : SrcTree mem type l t) (tokens : ℕ) :
    SrcsInvariant mem
      { m with tokens := tokens, srcs := Function.update m.srcs type l } := by
  intro other
  by_cases hother : other = type
  · subst hother
    exact ⟨t, by simpa using hl⟩
  · simpa [Function.update_of_ne hother] using h other

theorem register_step (h : SrcsInvariant mem m) {env : SrcEnv} {flags : ℕ}
    (hok : Succeeds mem m (.register env type key flags))
    (horders : OrdersSources mem m (.register env type key flags)) :
    ∃ ret m', (SrcCall.register env type key flags).exec mem m = some (ret, m') ∧
      RegistrationContract mem m (.register env type key flags) ret m' ∧
      SrcsInvariant mem m' := by
  obtain ⟨hkey, hreg, hprio, _, hzombie, hctx, htokens, hsrc, hnode, hpoll⟩ := hok
  obtain ⟨t, ht⟩ := h type
  obtain ⟨addr, haddr⟩ := Option.ne_none_iff_exists'.mp hsrc
  have hagrees : Agrees (fun src => keyOrder mem type key (keyOf type src.words))
      (fun src => srcCmpMap mem type (createSrcWords type key) src.words) t := by
    by_cases hfd : type = .fd
    · subst hfd
      exact ht.fd_agrees (keyOf_createSrcWords .fd key (i := 0) (by decide))
        (by simpa [keyOk] using hkey)
    · exact horders hfd t ht.represents
  obtain ⟨src, hsrcEq, hwords⟩ : ∃ src : EvSrc,
      createSrc env type key
        (if prioFlags flags = 0 then flags ||| M_SRC_PRIO_NORM else flags) = some src ∧
      src.words = createSrcWords type key := by
    exact ⟨_, by rw [createSrc, haddr]; rfl, rfl⟩
  obtain ⟨c, r, hfind, hplug, hread, hlocated, hcase⟩ :=
    ht.search src (by rw [hwords]; exact hagrees) src.addr src.flags
  have hlocated' : Located (srcOrder mem type) src c := by
    rw [← hwords] at hlocated
    exact hlocated
  -- the call reduces to the insertion of the new source
  have hexec : ∀ {ret bst}, (m.srcs type).mBstInsert env.node (some src) = some (ret, bst) →
      (SrcCall.register env type key flags).exec mem m =
        some (ret, { m with
          tokens := m.tokens - 1
          srcs := Function.update m.srcs type bst }) := by
    intro ret bst hinsert
    have htok : m.tokens ≠ 0 := by omega
    simp only [SrcCall.exec, mModSrcRegister, hkey, hreg, SrcModule.registerModSrc, hzombie,
      hctx, htok, hprio, hsrcEq, hinsert, Option.bind_eq_bind, Option.bind_some, Bool.and_self,
      if_true, if_false, Bool.false_eq_true, Bool.not_true, not_true_eq_false]
    split
    next hzero =>
      rw [hzero]
      cases m.running <;> simp [hpoll]
    next => rfl
  rcases hcase with rfl | ⟨n, left, v, right, rfl, hzero⟩
  · have hrep := ht.represents
    have hsorted := ht.sorted
    rw [hplug] at hrep hsorted
    rcases insertNode_spec hrep env.node src with
      ⟨hnone, _⟩ | ⟨n, bst, _, hinsert, hrep', _, _, hcomp', hdtor', hlog⟩
    · exact absurd hnone hnode
    · have hins : (m.srcs type).mBstInsert env.node (some src) = some (0, bst) := by
        simp [mBstInsert, hfind, hread, hinsert]
      have hvalues : bst.stored.Perm (src :: (m.srcs type).stored) := by
        rw [hrep.stored_eq, hrep'.stored_eq, values_plug, values_plug]
        simp
      refine ⟨0, _, hexec hins, ⟨fun hr => ?_, fun _ => ⟨rfl, ?_, src, hwords, ?_, ?_⟩⟩, ?_⟩
      · exact absurd hr (not_registered_of_leaf ht hplug hlocated)
      · intro other hother
        simp [Function.update_of_ne hother]
      · simpa using hvalues
      · simpa using hlog
      · refine h.update ⟨hrep', sorted_insert (srcOrder_total mem type) hsorted hlocated' n,
          hcomp'.trans ht.comp_eq, hdtor'.trans ht.dtor_eq, ?_⟩ _
        rintro rfl x hx
        have hold := ht.fds rfl
        rw [hplug, values_plug] at hold
        rw [values_plug, NodeTree.values_node] at hx
        simp only [NodeTree.values_leaf, List.nil_append, List.append_nil, List.append_assoc,
          List.mem_append, List.mem_singleton] at hx hold
        rcases hx with hx | rfl | hx
        · exact hold x (Or.inl hx)
        · rw [hwords]
          change 0 ≤ (keyOf .fd (createSrcWords .fd key) 0).toInt
          rw [keyOf_createSrcWords .fd key (by decide)]
          simpa [keyOk] using hkey
        · exact hold x (Or.inr hx)
  · have hins : (m.srcs type).mBstInsert env.node (some src) = some (-EEXIST, m.srcs type) := by
      simp [mBstInsert, hfind, hread]
    refine ⟨-EEXIST, _, hexec hins, ⟨fun _ => ⟨rfl, ?_⟩, fun hnot => ?_⟩, ?_⟩
    · intro other
      by_cases hother : other = type
      · subst hother
        simp
      · simp [Function.update_of_ne hother]
    · exact absurd (registered_of_node ht hplug hzero) hnot
    · exact h.update ht _

theorem deregister_step (h : SrcsInvariant mem m)
    (hok : Succeeds mem m (.deregister type key))
    (horders : OrdersSources mem m (.deregister type key)) :
    ∃ ret m', (SrcCall.deregister type key).exec mem m = some (ret, m') ∧
      RegistrationContract mem m (.deregister type key) ret m' ∧ SrcsInvariant mem m' := by
  obtain ⟨hkey, hzombie, hctx, htokens⟩ := hok
  obtain ⟨t, ht⟩ := h type
  have hagrees : Agrees (fun src => keyOrder mem type key (keyOf type src.words))
      (fun src => srcCmpMap mem type key src.words) t := by
    by_cases hfd : type = .fd
    · subst hfd
      exact ht.fd_agrees rfl (by simpa [keyOk] using hkey)
    · exact horders.1 hfd t ht.represents
  obtain ⟨c, r, hfind, hplug, hread, hlocated, hcase⟩ :=
    ht.search (EvSrc.ofKey key) hagrees 0 0
  have hexec : ∀ {ret bst},
      (m.srcs type).mBstRemove (some (EvSrc.ofKey key)) = some (ret, bst) →
      (SrcCall.deregister type key).exec mem m =
        some (ret, { m with
          tokens := m.tokens - 1
          srcs := Function.update m.srcs type bst }) := by
    intro ret bst hremove
    have htok : m.tokens ≠ 0 := by omega
    simp only [SrcCall.exec, mModSrcDeregister, hkey, SrcModule.deregisterModSrc, hzombie, hctx,
      htok, hremove, Option.bind_eq_bind, Option.bind_some, if_true, if_false,
      Bool.false_eq_true, Bool.not_true]
  rcases hcase with rfl | ⟨n, left, v, right, rfl, hzero⟩
  · have hnot := not_registered_of_leaf ht hplug hlocated
    by_cases hlen : (m.srcs type).len > 0
    · have hremove : (m.srcs type).mBstRemove (some (EvSrc.ofKey key)) =
          some (-ENOENT, m.srcs type) := by
        have hnone : (m.srcs type).removeNode (slotOf c) = some (-ENOENT, m.srcs type) := by
          rw [removeNode, removeFrom]
          simp [hread]
        simp [mBstRemove, hlen, hfind, hnone]
      exact ⟨_, _, hexec hremove, fun hr => absurd hr hnot, h.update ht _⟩
    · have hremove : (m.srcs type).mBstRemove (some (EvSrc.ofKey key)) =
          some (-EINVAL, m.srcs type) := by
        simp [mBstRemove, hlen]
      exact ⟨_, _, hexec hremove, fun hr => absurd hr hnot, h.update ht _⟩
  · have hrep := ht.represents
    have hsorted := ht.sorted
    rw [hplug] at hrep hsorted
    have hlen : (m.srcs type).len > 0 := by
      rw [hrep.len, length_plug, NodeTree.nodes_node, List.length_append, List.length_cons]
      omega
    obtain ⟨bst, w, hnode, hrep', hcomp', hdtor', hlog, hperm, hright⟩ :=
      removal_step (srcOrder_total mem type) hrep hsorted ht.dtor_eq
    have hw : w = v := (hright.mpr (horders.2 _ hfind)).1
    have hremove : (m.srcs type).mBstRemove (some (EvSrc.ofKey key)) = some (0, bst) := by
      simp [mBstRemove, hlen, hfind, hnode]
    refine ⟨0, _, hexec hremove, fun _ => ⟨rfl, ?_, v, hzero, ?_, ?_⟩, ?_⟩
    · intro other hother
      simp [Function.update_of_ne hother]
    · simpa using hperm
    · simpa [hw] using hlog
    · refine h.update ⟨hrep', sorted_removeRoot hsorted, hcomp'.trans ht.comp_eq, hdtor', ?_⟩ _
      rintro rfl x hx
      apply ht.fds rfl
      rw [hplug, values_plug, NodeTree.values_node]
      rw [values_plug, values_removeRoot] at hx
      simp only [List.mem_append, List.mem_cons] at hx ⊢
      tauto

end Calls

theorem srcsInvariant_new (mem : UserMem) (running : Bool) (tokens : ℕ) :
    SrcsInvariant mem (newSrcModule mem running tokens) := by
  intro type
  refine ⟨.leaf, ⟨rfl, trivial, List.nodup_nil, fun n => ?_, rfl⟩, List.Pairwise.nil, rfl, rfl,
    ?_⟩
  · simp [newSrcModule, mBstNew]
  · intro _ src hsrc
    simp at hsrc

/-- In every run of registrations and deregistrations on a new module whose
comparisons order the keys and whose removals take out nodes with at most one
child, every call keeps its contract. -/
theorem registrationContract_of_orders (mem : UserMem) (running : Bool) (tokens : ℕ)
    (calls : List SrcCall)
    (hok : Meets (SrcCall.exec mem) (Succeeds mem) (newSrcModule mem running tokens) calls)
    (horders : Meets (SrcCall.exec mem) (OrdersSources mem)
      (newSrcModule mem running tokens) calls) :
    Always (SrcCall.exec mem) (RegistrationContract mem) (newSrcModule mem running tokens)
      calls := by
  refine always_of_step (SrcsInvariant mem)
    (fun m call h hmeets => ?_) calls (srcsInvariant_new mem running tokens)
    (hok.and horders)
  cases call with
  | register env type key flags => exact register_step h hmeets.1 hmeets.2
  | deregister type key => exact deregister_step h hmeets.1 hmeets.2

private def testEnv (addr : ℕ) : SrcEnv := ⟨some addr, .firstFree 8, 0, 0⟩

/-- A timer of one second on the monotonic clock. -/
private def oneSecond : Words := fun i => if i = 0 then 1 else if i = 2 then 1000000000 else 0

theorem registrationContract_fd_tmr :
    Always (SrcCall.exec fun _ => none) (RegistrationContract fun _ => none)
      (newSrcModule (fun _ => none) false 8)
      [.register (testEnv 1) .fd (fun _ => 5) 0, .register (testEnv 2) .tmr oneSecond 0,
        .deregister .fd (fun _ => 5)] := by
  apply registrationContract_of_orders
  · refine .cons ⟨rfl, rfl, by decide, rfl, rfl, rfl, by decide, by decide, by decide, rfl⟩ rfl ?_
    refine .cons ⟨rfl, rfl, by decide, rfl, rfl, rfl, by decide, by decide, by decide, rfl⟩ rfl ?_
    exact .cons ⟨rfl, rfl, rfl, by decide⟩ rfl trivial
  · refine .cons (fun hne => absurd rfl hne) rfl ?_
    refine .cons (fun _ t ht => ?_) rfl ?_
    · have hleaf : t = .leaf := NodeTree.ptr_eq_none.mp ht.root.symm
      rw [hleaf]
      trivial
    · refine .cons ⟨fun hne => absurd rfl hne, ?_⟩ rfl trivial
      intro found hfound n node hn hnode
      cases hfound
      cases hn
      cases hnode
      exact Or.inl rfl

/-- The second registration of one timer succeeds, because its clock is
compared with the period of the first. -/
theorem not_registrationContract_tmr :
    let calls : List SrcCall :=
      [.register (testEnv 1) .tmr oneSecond 0, .register (testEnv 2) .tmr oneSecond 0]
    Meets (SrcCall.exec fun _ => none) (Succeeds fun _ => none)
      (newSrcModule (fun _ => none) false 8) calls ∧
    ¬ Always (SrcCall.exec fun _ => none) (RegistrationContract fun _ => none)
      (newSrcModule (fun _ => none) false 8) calls := by
  constructor
  · refine .cons ⟨rfl, rfl, by decide, rfl, rfl, rfl, by decide, by decide, by decide, rfl⟩ rfl ?_
    refine .cons ⟨rfl, rfl, by decide, rfl, rfl, rfl, by decide, by decide, by decide, rfl⟩ rfl ?_
    exact trivial
  · rintro ⟨_, hsecond, _⟩
    have hret := (hsecond.1 ⟨_, List.mem_singleton.mpr rfl, rfl⟩).1
    cases hret

end Libmodule
