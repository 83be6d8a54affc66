import Libmodule.CallRun
import Libmodule.HashMapEntries
import Libmodule.World

/-!
# The memory of subscriptions

`m_mod_ps_subscribe` and the calls that take subscriptions away, with the map of a module, the
objects in it and what they own: a compiled regular expression, the user pointer if it is to be
freed, and the copy of the topic that is also the key of the entry.

A new subscription to a known topic either writes over the user pointer of the old one, or
replaces the value of the entry, which keeps the key of the old one.
-/

namespace Libmodule

open CallRun

/-- `ev_src_t` of a subscription, as `m_mem_new` gives it. -/
structure Subscription (S : Type) where
  flags : ℕ := 0
  userptr : ℕ := 0
  topic : Option (CString S) := none
  regex : ℕ := 0

/-- A module with its subscriptions.  Objects are numbered, and so are compiled regular
expressions; `events` are the subscriptions that live events refer to, and `accepted` is the
ledger of the user pointers that are to be freed. -/
structure SubModule (S : Type) where
  subscriptions : Option (HashMap S ℕ) := none
  subs : ℕ → Subscription S := fun _ => {}
  refs : ℕ → ℕ := fun _ => 0
  live : List ℕ := []
  created : ℕ := 0
  events : List ℕ := []
  compiled : ℕ := 0
  accepted : List ℕ := []
  freedRegexes : List ℕ := []
  freedTopics : List ℕ := []
  freedUserptrs : List ℕ := []

/-- What a subscription gets from outside: the answers of the checks on the module and of
`regcomp`, and of the allocator. -/
structure SubEnv where
  perm : ℤ
  token : Bool
  regcomp : ℤ
  newMap : Bool
  newSub : Bool
  mem : MapMem

inductive SubCall (S : Type) where
  | subscribe (env : SubEnv) (topic : Option (CString S)) (flags userptr : ℕ)
  | unsubscribe (env : SubEnv) (topic : Option S)
  | oneshot (topic : S)
  | hold (sub : ℕ)
  | release (sub : ℕ)
  | stop (mem : Bool)
  | destroy (mem : Bool)

namespace SubModule

variable {S : Type} {hash : S → ℕ}

/-- `subscribtions_dtor` -/
def subscribtionsDtor (s : SubModule S) (sub : ℕ) : SubModule S :=
  { s with
    live := s.live.erase sub
    freedRegexes := s.freedRegexes ++ [(s.subs sub).regex]
    freedTopics :=
      if hasFlag (s.subs sub).flags M_SRC_DUP then
        s.freedTopics ++ ((s.subs sub).topic.map CString.addr).toList
      else s.freedTopics
    freedUserptrs :=
      if hasFlag (s.subs sub).flags M_SRC_AUTOFREE then
        s.freedUserptrs ++ [(s.subs sub).userptr]
      else s.freedUserptrs }

/-- `m_mem_unref` -/
def unref (s : SubModule S) (sub : ℕ) : SubModule S :=
  let s := { s with refs := Function.update s.refs sub (s.refs sub - 1) }
  if s.refs sub = 0 then s.subscribtionsDtor sub else s

/-- The map after a call, with the calls of its destructor, which is `mem_dtor`. -/
def settle (s : SubModule S) (m : HashMap S ℕ) : SubModule S :=
  m.destroyed.foldl unref { s with subscriptions := some { m with destroyed := [] } }

/-- The priority that a source has by default. -/
def withPrio (flags : ℕ) : ℕ := if prioFlags flags = 0 then flags ||| M_SRC_PRIO_NORM else flags

/-- The topic that a subscription keeps. -/
def storedTopic (env : SubEnv) (topic : CString S) (flags : ℕ) : Option (CString S) :=
  if hasFlag flags M_SRC_DUP then env.mem.strdup.map (fun addr => ⟨addr, topic.text⟩)
  else some topic

def subFlags : MapFlags := ⟨false, false, true⟩

/-- A new object, with one reference. -/
def newSub (s : SubModule S) (flags userptr : ℕ) (topic : Option (CString S)) (regex : ℕ) :
    SubModule S :=
  { s with
    created := s.created + 1
    live := s.created :: s.live
    refs := Function.update s.refs s.created 1
    subs := Function.update s.subs s.created ⟨flags, userptr, topic, regex⟩ }

section Calls

variable [DecidableEq S]

/-- The end of `m_mod_ps_subscribe`: a new object is put in the map. -/
def storeSub (hash : S → ℕ) (env : SubEnv) (s : SubModule S) (m : HashMap S ℕ)
    (topic : CString S) (flags userptr regex : ℕ) : ℤ × SubModule S :=
  if env.newSub then
    let stored := storedTopic env topic flags
    let (ret, m') := m.mMapPut hash env.mem stored (some s.created)
    (ret, (s.newSub flags userptr stored regex).settle m')
  else (-ENOMEM, { s with subscriptions := some m })

def mModPsSubscribe (hash : S → ℕ) (env : SubEnv) (s : SubModule S)
    (topic : Option (CString S)) (flags userptr : ℕ) : ℤ × SubModule S :=
  if env.perm ≠ 0 then (env.perm, s)
  else
    match topic with
    | none => (-EINVAL, s)
    | some topic =>
        if prioFlags flags ∉ [0, 1, 2, 4] then (-EINVAL, s)
        else if !env.token then (-EAGAIN, s)
        else if env.regcomp ≠ 0 then (env.regcomp, s)
        else
          let flags := withPrio flags
          let regex := s.compiled
          let s := { s with compiled := s.compiled + 1 }
          match s.subscriptions with
          | none =>
              if env.newMap then
                s.storeSub hash env (HashMap.mMapNew subFlags true) topic flags userptr regex
              else (-ENOMEM, s)
          | some m =>
              match m.mMapGet hash (some topic.text) with
              | none => s.storeSub hash env m topic flags userptr regex
              | some old =>
                  if (s.subs old).flags = flags then
                    (0, { s with
                      subs := Function.update s.subs old { s.subs old with userptr := userptr } })
                  else s.storeSub hash env m topic flags userptr regex

/-- `m_map_remove` on the subscriptions, which may be `NULL`. -/
def removeTopic (hash : S → ℕ) (s : SubModule S) (topic : S) : ℤ × SubModule S :=
  match s.subscriptions with
  | none => (-EINVAL, s)
  | some m =>
      let (ret, m') := m.mMapRemove hash (some topic)
      (ret, s.settle m')

/-- `m_map_clear` on the subscriptions; `mem` is the memory for its iterator. -/
def clearSubs (hash : S → ℕ) (mem : Bool) (s : SubModule S) : SubModule S :=
  match s.subscriptions with
  | none => s
  | some m => s.settle (m.clearWith hash mem).2

/-- `m_map_free` on the subscriptions. -/
def freeSubs (hash : S → ℕ) (mem : Bool) (s : SubModule S) : SubModule S :=
  { s.clearSubs hash mem with subscriptions := none }

def mModPsUnsubscribe (hash : S → ℕ) (env : SubEnv) (s : SubModule S) (topic : Option S) :
    ℤ × SubModule S :=
  if env.perm ≠ 0 then (env.perm, s)
  else
    match topic with
    | none => (-EINVAL, s)
    | some topic =>
        if !env.token then (-EAGAIN, s)
        else
          let (ret, s) := s.removeTopic hash topic
          if ret = 0 ∧ (s.subscriptions.map HashMap.length) = some 0 then
            (ret, s.freeSubs hash true)
          else (ret, s)

def exec (hash : S → ℕ) (s : SubModule S) : SubCall S → Option (ℤ × SubModule S)
  | .subscribe env topic flags userptr =>
      let (ret, s) := s.mModPsSubscribe hash env topic flags userptr
      some (ret, if ret = 0 ∧ hasFlag flags M_SRC_AUTOFREE then
        { s with accepted := s.accepted ++ [userptr] } else s)
  | .unsubscribe env topic => some (s.mModPsUnsubscribe hash env topic)
  | .oneshot topic => some (s.removeTopic hash topic)
  | .hold sub =>
      some (0, if sub ∈ s.live then
        { s with
          refs := Function.update s.refs sub (s.refs sub + 1)
          events := sub :: s.events }
        else s)
  | .release sub =>
      some (0, if sub ∈ s.events then unref { s with events := s.events.erase sub } sub else s)
  | .stop mem => some (0, s.clearSubs hash mem)
  | .destroy mem => some (0, s.freeSubs hash mem)

end Calls

/-! ## References -/

section References

variable {s s' : SubModule S} {sub : ℕ}

/-- Live are the objects with references. -/
structure Allocated (s : SubModule S) : Prop where
  live : ∀ id, id ∈ s.live ↔ 0 < s.refs id
  nodup : s.live.Nodup

/-- The regular expressions that are released, or belong to a live object. -/
def regexes (s : SubModule S) : Multiset ℕ :=
  s.freedRegexes + (s.live : Multiset ℕ).map (fun id => (s.subs id).regex)

/-- The user pointers that are freed, or are to be freed with a live object. -/
def userptrs (s : SubModule S) : Multiset ℕ :=
  s.freedUserptrs + ((s.live : Multiset ℕ).filter
    (fun id => hasFlag (s.subs id).flags M_SRC_AUTOFREE = true)).map
      (fun id => (s.subs id).userptr)

/-- The references of `gone` are given back. -/
structure Dropped (s s' : SubModule S) (gone : List ℕ) : Prop where
  refs : ∀ id, s'.refs id + gone.count id = s.refs id
  allocated : s'.Allocated
  subscriptions : s'.subscriptions = s.subscriptions
  subs : s'.subs = s.subs
  created : s'.created = s.created
  events : s'.events = s.events
  compiled : s'.compiled = s.compiled
  accepted : s'.accepted = s.accepted
  regexes : s'.regexes = s.regexes
  userptrs : s'.userptrs = s.userptrs

theorem Allocated.unref (h : s.Allocated) (hpos : 0 < s.refs sub) :
    Dropped s (s.unref sub) [sub] := by
  have hcount : ∀ id, Function.update s.refs sub (s.refs sub - 1) id + [sub].count id =
      s.refs id := by
    intro id
    by_cases hid : id = sub
    · subst hid
      rw [Function.update_self, List.count_singleton_self]
      omega
    · rw [Function.update_of_ne hid, List.count_singleton, if_neg (by simpa using Ne.symm hid),
        add_zero]
  have hmem : sub ∈ s.live := (h.live sub).mpr hpos
  rw [SubModule.unref]
  simp only [Function.update_self]
  split
  next hlast =>
    have hcons : (s.live : Multiset ℕ) = sub ::ₘ (s.live.erase sub : List ℕ) := by
      rw [Multiset.cons_coe, Multiset.coe_eq_coe]
      exact List.perm_cons_erase hmem
    refine ⟨hcount, ⟨fun id => ?_, h.nodup.erase sub⟩, rfl, rfl, rfl, rfl, rfl, rfl, ?_, ?_⟩
    · simp only [subscribtionsDtor]
      by_cases hid : id = sub
      · subst hid
        rw [Function.update_self, hlast]
        simp [h.nodup.not_mem_erase]
      · rw [Function.update_of_ne hid, List.mem_erase_of_ne hid, h.live]
    · simp only [SubModule.regexes, subscribtionsDtor]
      rw [hcons, Multiset.map_cons, ← Multiset.coe_add, Multiset.coe_singleton,
        ← Multiset.singleton_add, add_assoc]
    · simp only [SubModule.userptrs, subscribtionsDtor]
      rw [hcons, Multiset.filter_cons]
      by_cases hfree : hasFlag (s.subs sub).flags M_SRC_AUTOFREE = true
      · rw [if_pos hfree, if_pos hfree, ← Multiset.coe_add, Multiset.map_add,
          Multiset.map_singleton, Multiset.coe_singleton, add_assoc]
      · rw [if_neg hfree, if_neg hfree, zero_add]
  next hmore =>
    refine ⟨hcount, ⟨fun id => ?_, h.nodup⟩, rfl, rfl, rfl, rfl, rfl, rfl, rfl, rfl⟩
    by_cases hid : id = sub
    · subst hid
      simp only [Function.update_self]
      exact iff_of_true hmem (Nat.pos_of_ne_zero hmore)
    · simp only [Function.update_of_ne hid]
      exact h.live id

theorem Allocated.foldl_unref (h : s.Allocated) (gone : List ℕ)
    (hgone : ∀ id, gone.count id ≤ s.refs id) : Dropped s (gone.foldl SubModule.unref s) gone := by
  induction gone generalizing s with
  | nil => exact ⟨fun id => rfl, h, rfl, rfl, rfl, rfl, rfl, rfl, rfl, rfl⟩
  | cons sub gone ih =>
      have hpos : 0 < s.refs sub := by
        have := hgone sub
        rw [List.count_cons_self] at this
        omega
      have hfirst := h.unref hpos
      have hrest := ih hfirst.allocated (fun id => by
        have hid := hgone id
        have hrefs := hfirst.refs id
        rw [List.count_cons] at hid
        rw [List.count_singleton] at hrefs
        omega)
      refine ⟨fun id => ?_, hrest.allocated, hrest.subscriptions.trans hfirst.subscriptions,
        hrest.subs.trans hfirst.subs, hrest.created.trans hfirst.created,
        hrest.events.trans hfirst.events, hrest.compiled.trans hfirst.compiled,
        hrest.accepted.trans hfirst.accepted, hrest.regexes.trans hfirst.regexes,
        hrest.userptrs.trans hfirst.userptrs⟩
      have hlast := hrest.refs id
      have hrefs := hfirst.refs id
      rw [List.count_singleton] at hrefs
      rw [List.count_cons, List.foldl_cons]
      omega

end References

/-! ## The map and its objects -/

section Objects

variable {s s' : SubModule S} {m m' : HashMap S ℕ}

def entries (s : SubModule S) : Multiset (MapElem S ℕ) :=
  match s.subscriptions with
  | none => 0
  | some m => m.entries

/-- The references that the map and the events have. -/
def needs (s : SubModule S) (id : ℕ) : ℕ :=
  (s.entries.map MapElem.data).count id + s.events.count id

/-- The map of a module. -/
structure OfModule (m : HashMap S ℕ) : Prop where
  counted : m.Counted
  dtor : m.dtor = true
  flags : m.flags = subFlags

/-- What the map and the events refer to has the references it needs. -/
structure Inv (s : SubModule S) : Prop where
  map : ∀ m, s.subscriptions = some m → OfModule m ∧ m.destroyed = []
  allocated : s.Allocated
  refs : ∀ id, s.needs id ≤ s.refs id
  fresh : ∀ id, s.created ≤ id → s.refs id = 0

/-- The objects have no other references. -/
def Exact (s : SubModule S) : Prop := ∀ id, s.refs id = s.needs id

theorem entries_some (hm : s.subscriptions = some m) : s.entries = m.entries := by
  rw [entries, hm]

theorem Inv.data_lt (h : s.Inv) {e : MapElem S ℕ} (he : e ∈ s.entries) :
    e.data < s.created ∧ e.data ∈ s.live := by
  have hneeds := h.refs e.data
  have hcount : 0 < (s.entries.map MapElem.data).count e.data :=
    Multiset.count_pos.mpr (Multiset.mem_map_of_mem _ he)
  rw [needs] at hneeds
  refine ⟨?_, (h.allocated.live _).mpr (by omega)⟩
  by_contra hge
  have := h.fresh e.data (by omega)
  omega

/-- After the destructor calls of a map. -/
structure Settled (s : SubModule S) (m' : HashMap S ℕ) (s' : SubModule S) : Prop where
  entries : s'.entries = m'.entries
  subscriptions : s'.subscriptions = some { m' with destroyed := [] }
  refs : ∀ id, s'.refs id + m'.destroyed.count id = s.refs id
  subs : s'.subs = s.subs
  created : s'.created = s.created
  events : s'.events = s.events
  compiled : s'.compiled = s.compiled
  accepted : s'.accepted = s.accepted
  regexes : s'.regexes = s.regexes
  userptrs : s'.userptrs = s.userptrs

theorem OfModule.undestroyed (h : OfModule m) : OfModule { m with destroyed := [] } := by
  refine ⟨⟨?_, h.counted.length, h.counted.distinct⟩, h.dtor, h.flags⟩
  exact ⟨h.counted.roomy.size, h.counted.roomy.entries, h.counted.roomy.below⟩

theorem settle_spec (hm : OfModule m') (halloc : s.Allocated)
    (hfresh : ∀ id, s.created ≤ id → s.refs id = 0)
    (hrefs : ∀ id, (m'.entries.map MapElem.data).count id + m'.destroyed.count id +
      s.events.count id ≤ s.refs id) :
    (s.settle m').Inv ∧ Settled s m' (s.settle m') := by
  have hdropped := Allocated.foldl_unref
    (s := { s with subscriptions := some { m' with destroyed := [] } })
    ⟨halloc.live, halloc.nodup⟩ m'.destroyed (fun id => by
      have hneed := hrefs id
      change m'.destroyed.count id ≤ s.refs id
      omega)
  have hentries : (s.settle m').entries = m'.entries := by
    have hsame := hdropped.subscriptions
    rw [← settle] at hsame
    rw [entries, hsame]
    rfl
  refine ⟨⟨fun m hsome => ?_, hdropped.allocated, fun id => ?_, fun id hid => ?_⟩,
    ⟨hentries, hdropped.subscriptions, hdropped.refs, hdropped.subs, hdropped.created,
      hdropped.events, hdropped.compiled, hdropped.accepted, hdropped.regexes,
      hdropped.userptrs⟩⟩
  · have hsame := hdropped.subscriptions
    rw [settle] at hsome
    rw [hsome] at hsame
    obtain rfl := Option.some.inj hsame
    exact ⟨hm.undestroyed, rfl⟩
  · have hneed := hrefs id
    have hgone := hdropped.refs id
    have hevents : (s.settle m').events = s.events := hdropped.events
    rw [needs, hentries, hevents]
    simp only at hgone
    rw [settle]
    omega
  · have hgone := hdropped.refs id
    have hzero := hfresh id (by rwa [settle, hdropped.created] at hid)
    simp only at hgone
    rw [settle]
    omega

/-! ## Entries that go -/

/-- A call of the map that takes entries out. -/
structure TakesOut (m m' : HashMap S ℕ) : Prop where
  map : OfModule m'
  entries : m'.entries ≤ m.entries
  data : m.entries.map MapElem.data = m'.entries.map MapElem.data + m'.destroyed

theorem takesOut_refl (h : OfModule m) (hnone : m.destroyed = []) : TakesOut m m :=
  ⟨h, le_rfl, by rw [hnone, Multiset.coe_nil, add_zero]⟩

theorem OfModule.of_releases {values keys : List ℕ} (h : OfModule m)
    (hreleases : m.Releases m' values keys) (hcounted : m'.Counted) : OfModule m' :=
  ⟨hcounted, hreleases.dtor.trans h.dtor, hreleases.flags.trans h.flags⟩

theorem takesOut_clearElem (h : OfModule m) (hnone : m.destroyed = []) (hash : S → ℕ) {p : ℕ}
    {e : MapElem S ℕ} (hp : p < m.tableSize) (he : m.table p = some e) :
    TakesOut m (m.clearElem hash p) := by
  obtain ⟨hcounted, hentries, hreleases⟩ := h.counted.clearElem hash hp he
  refine ⟨h.of_releases hreleases hcounted, ?_, ?_⟩
  · rw [hentries]
    exact Multiset.le_cons_self _ _
  · rw [hentries, hreleases.destroyed, hnone, h.dtor, if_pos rfl, Multiset.map_cons,
      List.nil_append, Multiset.coe_singleton, add_comm, Multiset.singleton_add]

theorem takesOut_mMapRemove [DecidableEq S] (h : OfModule m) (hnone : m.destroyed = [])
    (hash : S → ℕ) (topic : S) : TakesOut m (m.mMapRemove hash (some topic)).2 := by
  obtain ⟨k, -, hk⟩ := h.counted.roomy.size
  simp only [HashMap.mMapRemove]
  split
  next =>
    cases hfind : m.hashmapEntryFind hash topic false with
    | none => exact takesOut_refl h hnone
    | some slot =>
        obtain ⟨hslot, hentry⟩ := HashMap.find_slot hk hfind
        obtain ⟨e, he⟩ := hentry rfl
        exact takesOut_clearElem h hnone hash hslot he
  next => exact takesOut_refl h hnone

theorem takesOut_clearWith (h : OfModule m) (hnone : m.destroyed = []) (hash : S → ℕ)
    (mem : Bool) : TakesOut m (m.clearWith hash mem).2 := by
  cases mem with
  | false => exact takesOut_refl h hnone
  | true =>
      obtain ⟨hcounted, hentries, removed, hremoved, hreleases⟩ := h.counted.clearWith hash
      refine ⟨h.of_releases hreleases hcounted, ?_, ?_⟩
      · rw [hentries]
        exact Multiset.zero_le _
      · rw [hentries, hreleases.destroyed, hnone, h.dtor, if_pos rfl, List.nil_append,
          Multiset.map_zero, zero_add, ← hremoved, Multiset.map_coe]

/-- The objects of entries that go lose a reference. -/
theorem Inv.takesOut (h : s.Inv) (hm : s.subscriptions = some m) (hout : TakesOut m m') :
    (s.settle m').Inv ∧ Settled s m' (s.settle m') ∧ (s.settle m').entries ≤ s.entries ∧
      (s.Exact → (s.settle m').Exact) := by
  have hsame := entries_some hm
  have hcount : ∀ id, (s.entries.map MapElem.data).count id =
      (m'.entries.map MapElem.data).count id + m'.destroyed.count id := by
    intro id
    rw [hsame, hout.data, Multiset.count_add, Multiset.coe_count]
  obtain ⟨hinv, hsettled⟩ := settle_spec hout.map h.allocated h.fresh (fun id => by
    have hneeds := h.refs id
    rw [needs, hcount id] at hneeds
    exact hneeds)
  refine ⟨hinv, hsettled, ?_, fun hexact id => ?_⟩
  · rw [hsettled.entries, hsame]
    exact hout.entries
  · have hrefs := hsettled.refs id
    have hneeds := hexact id
    rw [needs, hcount id] at hneeds
    rw [needs, hsettled.entries, hsettled.events]
    omega

end Objects

/-! ## A new subscription -/

section Store

variable {s s' : SubModule S} {m m' : HashMap S ℕ} {env : SubEnv} {topic : CString S}
  {flags userptr regex : ℕ}

/-- The map finds its entry for a topic, if it has one. -/
def Visible [DecidableEq S] (hash : S → ℕ) (m : HashMap S ℕ) (topic : S) : Prop :=
  ∀ e ∈ m.entries, e.key.text = topic →
    ∃ p < m.tableSize, m.table p = some e ∧ m.hashmapEntryFind hash topic false = some p

/-- The memory that a new subscription needs, with the map `m`. -/
structure Provides [DecidableEq S] (hash : S → ℕ) (env : SubEnv) (m : HashMap S ℕ) (topic : S)
    (flags : ℕ) : Prop where
  sub : env.newSub = true
  copy : hasFlag flags M_SRC_DUP = true → env.mem.strdup ≠ none
  table : m.Grows hash topic → env.mem.calloc ((m.tableSize <<< 1) * HashMap.sizeofMapElem) = true

/-- The new object is the value of an entry: a new one, or the one for the topic. -/
structure StoresSub (s s' : SubModule S) (flags userptr regex : ℕ) (key : CString S) : Prop where
  entries : s'.entries = ⟨key, s.created⟩ ::ₘ s.entries ∨
    ∃ e ∈ s.entries, e.key.text = key.text ∧
      e ::ₘ s'.entries = ⟨e.key, s.created⟩ ::ₘ s.entries
  subs : s'.subs = Function.update s.subs s.created ⟨flags, userptr, some key, regex⟩
  exact : s.Exact → s'.Exact
  regexes : s'.regexes = regex ::ₘ s.regexes
  userptrs : s'.userptrs =
    (if hasFlag flags M_SRC_AUTOFREE then {userptr} else 0) + s.userptrs

/-- The new object, if there is one, is not in the map. -/
structure LeaksSub (s s' : SubModule S) : Prop where
  entries : s'.entries = s.entries
  subs : ∀ id < s.created, s'.subs id = s.subs id

theorem Inv.not_mem_created (h : s.Inv) : s.created ∉ s.live := by
  rw [h.allocated.live, h.fresh _ le_rfl]
  exact lt_irrefl 0

theorem Inv.newSub_allocated (h : s.Inv) (key : Option (CString S)) :
    (s.newSub flags userptr key regex).Allocated := by
  refine ⟨fun id => ?_, List.nodup_cons.mpr ⟨h.not_mem_created, h.allocated.nodup⟩⟩
  simp only [newSub]
  by_cases hid : id = s.created
  · subst hid
    simp
  · rw [Function.update_of_ne hid, List.mem_cons, h.allocated.live]
    exact or_iff_right hid

theorem Inv.newSub_fresh (h : s.Inv) (key : Option (CString S)) (id : ℕ)
    (hid : (s.newSub flags userptr key regex).created ≤ id) :
    (s.newSub flags userptr key regex).refs id = 0 := by
  have hlt : s.created + 1 ≤ id := hid
  simp only [newSub]
  rw [Function.update_of_ne (by omega)]
  exact h.fresh id (by omega)

theorem Inv.newSub_regexes (h : s.Inv) (key : Option (CString S)) :
    (s.newSub flags userptr key regex).regexes = regex ::ₘ s.regexes := by
  have hold : (s.live : Multiset ℕ).map (fun id =>
      (Function.update s.subs s.created ⟨flags, userptr, key, regex⟩ id).regex) =
        (s.live : Multiset ℕ).map (fun id => (s.subs id).regex) := by
    refine Multiset.map_congr rfl fun id hid => ?_
    rw [Function.update_of_ne]
    rintro rfl
    exact h.not_mem_created hid
  rw [regexes, regexes, newSub]
  simp only
  rw [← Multiset.cons_coe, Multiset.map_cons, hold, Function.update_self, Multiset.add_cons]

theorem Inv.newSub_userptrs (h : s.Inv) (key : Option (CString S)) :
    (s.newSub flags userptr key regex).userptrs =
      (if hasFlag flags M_SRC_AUTOFREE then {userptr} else 0) + s.userptrs := by
  have hne : ∀ id ∈ (s.live : Multiset ℕ), id ≠ s.created := by
    rintro id hid rfl
    exact h.not_mem_created hid
  have hfilter : (s.live : Multiset ℕ).filter (fun id => hasFlag
      (Function.update s.subs s.created ⟨flags, userptr, key, regex⟩ id).flags
        M_SRC_AUTOFREE = true) =
      (s.live : Multiset ℕ).filter (fun id => hasFlag (s.subs id).flags M_SRC_AUTOFREE = true) :=
    Multiset.filter_congr fun id hid => by rw [Function.update_of_ne (hne id hid)]
  have hmap : ((s.live : Multiset ℕ).filter
      (fun id => hasFlag (s.subs id).flags M_SRC_AUTOFREE = true)).map (fun id =>
        (Function.update s.subs s.created ⟨flags, userptr, key, regex⟩ id).userptr) =
      ((s.live : Multiset ℕ).filter
        (fun id => hasFlag (s.subs id).flags M_SRC_AUTOFREE = true)).map
          (fun id => (s.subs id).userptr) :=
    Multiset.map_congr rfl fun id hid => by
      rw [Function.update_of_ne (hne id (Multiset.mem_of_mem_filter hid))]
  rw [userptrs, userptrs, newSub]
  simp only
  rw [← Multiset.cons_coe, Multiset.filter_cons, hfilter, Multiset.map_add, hmap,
    Function.update_self]
  simp only
  split
  · rw [Multiset.map_singleton, Function.update_self, add_left_comm]
  · rw [Multiset.map_zero, zero_add, zero_add]

theorem storedTopic_text {key : CString S} (hkey : storedTopic env topic flags = some key) :
    key.text = topic.text := by
  rw [storedTopic] at hkey
  split at hkey
  · obtain ⟨addr, -, rfl⟩ := Option.map_eq_some_iff.mp hkey
    rfl
  · rw [← Option.some.inj hkey]

theorem Inv.newSub_refs (h : s.Inv) (flags userptr regex : ℕ) (key : Option (CString S))
    (id : ℕ) :
    (s.newSub flags userptr key regex).refs id + s.needs id =
      s.refs id + s.needs id + [s.created].count id := by
  have hneeds := h.refs id
  simp only [newSub]
  by_cases hid : id = s.created
  · subst hid
    rw [Function.update_self, List.count_singleton_self, h.fresh _ le_rfl]
    omega
  · rw [Function.update_of_ne hid, List.count_singleton, if_neg (by simpa using Ne.symm hid)]
    omega

/-- The map is as it was, and the new object has nobody to free it. -/
theorem Inv.leak (h : s.Inv) (flags userptr regex : ℕ) (hm : OfModule m) (hnone : m.destroyed = [])
    (hentries : s.entries = m.entries) (key : Option (CString S)) :
    ((s.newSub flags userptr key regex).settle m).Inv ∧
      Settled (s.newSub flags userptr key regex) m
        ((s.newSub flags userptr key regex).settle m) ∧
      LeaksSub s ((s.newSub flags userptr key regex).settle m) := by
  obtain ⟨hinv, hsettled⟩ := settle_spec hm (h.newSub_allocated key) (h.newSub_fresh key)
    (fun id => by
      have hrefs := h.newSub_refs flags userptr regex key id
      have hneeds := h.refs id
      have hevents : (s.newSub flags userptr key regex).events = s.events := rfl
      rw [hnone, List.count_nil, hevents, ← hentries]
      rw [needs] at hrefs hneeds
      omega)
  refine ⟨hinv, hsettled, hsettled.entries.trans hentries.symm, fun id hid => ?_⟩
  rw [hsettled.subs]
  exact Function.update_of_ne (Nat.ne_of_lt hid) _ _

/-- The new object is the value of an entry. -/
theorem Inv.store (h : s.Inv) (flags userptr regex : ℕ) {key : CString S} (hm : OfModule m')
    (hput : (m'.entries = ⟨key, s.created⟩ ::ₘ s.entries ∧ m'.destroyed = []) ∨
      ∃ e ∈ s.entries, e.key.text = key.text ∧
        e ::ₘ m'.entries = ⟨e.key, s.created⟩ ::ₘ s.entries ∧ m'.destroyed = [e.data]) :
    ((s.newSub flags userptr (some key) regex).settle m').Inv ∧
      Settled (s.newSub flags userptr (some key) regex) m'
        ((s.newSub flags userptr (some key) regex).settle m') ∧
      StoresSub s ((s.newSub flags userptr (some key) regex).settle m') flags userptr regex
        key := by
  -- one more reference is needed, to the new object
  have hcount : ∀ id, (m'.entries.map MapElem.data).count id + m'.destroyed.count id =
      (s.entries.map MapElem.data).count id + [s.created].count id := by
    intro id
    rw [← Multiset.coe_count, ← Multiset.coe_count, ← Multiset.count_add, ← Multiset.count_add]
    congr 1
    rcases hput with ⟨hnew, hnone⟩ | ⟨e, -, -, hheld, hgone⟩
    · rw [hnew, hnone, Multiset.map_cons, Multiset.coe_nil, add_zero, Multiset.coe_singleton,
        add_comm, Multiset.singleton_add]
    · have hdata := congrArg (Multiset.map MapElem.data) hheld
      rw [Multiset.map_cons, Multiset.map_cons] at hdata
      rw [hgone, Multiset.coe_singleton, Multiset.coe_singleton, add_comm,
        Multiset.singleton_add, hdata, add_comm, Multiset.singleton_add]
  have hevents : (s.newSub flags userptr (some key) regex).events = s.events := rfl
  obtain ⟨hinv, hsettled⟩ := settle_spec hm (h.newSub_allocated (some key))
    (h.newSub_fresh (some key)) (fun id => by
      have hrefs := h.newSub_refs flags userptr regex (some key) id
      have hneeds := h.refs id
      have hid := hcount id
      rw [hevents]
      rw [needs] at hrefs hneeds
      omega)
  refine ⟨hinv, hsettled, ?_, hsettled.subs, fun hexact id => ?_,
    hsettled.regexes.trans (h.newSub_regexes _), hsettled.userptrs.trans (h.newSub_userptrs _)⟩
  · rw [hsettled.entries]
    rcases hput with ⟨hnew, -⟩ | ⟨e, he, hkey, hheld, -⟩
    · exact .inl hnew
    · exact .inr ⟨e, he, hkey, hheld⟩
  · have hrefs := h.newSub_refs flags userptr regex (some key) id
    have hgone := hsettled.refs id
    have hneeds := hexact id
    have hid := hcount id
    rw [needs, hsettled.entries, hsettled.events, hevents]
    rw [needs] at hrefs hneeds
    omega

/-- What the end of `m_mod_ps_subscribe` does: the new object is stored, or memory was missing
and it is nobody's. -/
theorem Inv.storeSub [DecidableEq S] (h : s.Inv) (hm : OfModule m) (hnone : m.destroyed = [])
    (hentries : s.entries = m.entries) (hvisible : Visible hash m topic.text) :
    ∃ ret s', s.storeSub hash env m topic flags userptr regex = (ret, s') ∧ s'.Inv ∧
      s'.compiled = s.compiled ∧ s'.accepted = s.accepted ∧
      ((ret = 0 ∧ ∃ key, storedTopic env topic flags = some key ∧
          StoresSub s s' flags userptr regex key) ∨
        (ret ≠ 0 ∧ LeaksSub s s' ∧ ¬ Provides hash env m topic.text flags)) := by
  have hdup : m.flags.keyDup = false := by rw [hm.flags]; rfl
  have hallow : m.flags.valAllowUpdate = true := by rw [hm.flags]; rfl
  rw [SubModule.storeSub]
  split
  next hsub =>
    cases hstored : storedTopic env topic flags with
    | none =>
        obtain ⟨hinv, hsettled, hleaks⟩ :=
          h.leak flags userptr regex hm hnone hentries none
        refine ⟨-EINVAL, _, ?_, hinv, hsettled.compiled, hsettled.accepted,
          .inr ⟨by decide, hleaks, fun hprovides => ?_⟩⟩
        · simp [HashMap.mMapPut]
        · rw [storedTopic] at hstored
          split at hstored
          next hflag =>
            exact hprovides.copy hflag (Option.map_eq_none_iff.mp hstored)
          next => cases hstored
    | some key =>
        have htext := storedTopic_text hstored
        have hput : m.mMapPut hash env.mem (some key) (some s.created) =
            m.hashmapPut hash env.mem (some key) s.created := by
          simp [HashMap.mMapPut, hdup]
        simp only [hput]
        by_cases hmem : m.Grows hash topic.text →
            env.mem.calloc ((m.tableSize <<< 1) * HashMap.sizeofMapElem) = true
        · rw [← htext] at hmem
          by_cases hheld : ∃ e ∈ m.entries, e.key.text = topic.text
          · obtain ⟨e, he, hkey⟩ := hheld
            obtain ⟨p, hp, hpe, hfind⟩ := hvisible e he hkey
            rw [← htext] at hfind
            obtain ⟨m', heq, hcounted, hcons, hreleases⟩ :=
              hm.counted.hashmapPut_held hash env.mem key s.created hp hpe hfind hallow hmem
            have hne : e.data ≠ s.created := Nat.ne_of_lt (h.data_lt (hentries ▸ he)).1
            have hgone := hreleases.destroyed
            rw [hnone, hm.dtor, if_pos ⟨rfl, hne⟩, List.nil_append] at hgone
            obtain ⟨hinv, hsettled, hstores⟩ := h.store flags userptr regex
              (hm.of_releases hreleases hcounted)
              (.inr ⟨e, hentries ▸ he, hkey.trans htext.symm, hentries ▸ hcons, hgone⟩)
            exact ⟨0, _, by rw [heq], hinv, hsettled.compiled, hsettled.accepted,
              .inl ⟨rfl, key, rfl, hstores⟩⟩
          · have habsent : ∀ e ∈ m.entries, e.key.text ≠ key.text :=
              fun e he hkey => hheld ⟨e, he, hkey.trans htext⟩
            obtain ⟨m', heq, hcounted, hcons, hreleases⟩ :=
              hm.counted.hashmapPut_new hash env.mem key s.created habsent hmem
            have hgone := hreleases.destroyed
            rw [hnone, List.nil_append] at hgone
            obtain ⟨hinv, hsettled, hstores⟩ := h.store flags userptr regex
              (hm.of_releases hreleases hcounted)
              (.inl ⟨hentries ▸ hcons, hgone⟩)
            exact ⟨0, _, by rw [heq], hinv, hsettled.compiled, hsettled.accepted,
              .inl ⟨rfl, key, rfl, hstores⟩⟩
        · obtain ⟨hgrows, hno⟩ := Classical.not_imp.mp hmem
          obtain ⟨hinv, hsettled, hleaks⟩ := h.leak flags userptr regex hm hnone hentries
            (some key)
          refine ⟨-ENOMEM, _, ?_, hinv, hsettled.compiled, hsettled.accepted,
            .inr ⟨by decide, hleaks, fun hprovides => hmem hprovides.table⟩⟩
          rw [HashMap.hashmapPut_nomem (htext ▸ hgrows) (by simpa using hno)]
  next hsub =>
    refine ⟨-ENOMEM, _, rfl, ⟨fun m' hm' => ?_, ⟨h.allocated.live, h.allocated.nodup⟩, ?_,
      h.fresh⟩, rfl, rfl, .inr ⟨by decide, ⟨hentries.symm, fun _ _ => rfl⟩,
      fun hprovides => hsub hprovides.sub⟩⟩
    · obtain rfl := Option.some.inj hm'
      exact ⟨hm, hnone⟩
    · have hrefs := h.refs
      intro id
      have hid := hrefs id
      rw [needs, hentries] at hid
      exact hid

end Store

end SubModule

end Libmodule
