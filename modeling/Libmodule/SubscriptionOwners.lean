import Libmodule.SubscriptionMemory

/-!
# Who owns what a subscription has

The key of an entry is the topic of its subscription as long as no subscription takes the
place of another one; and what a module has accepted or compiled is released once, as long as
a subscription to a known topic has other flags than the old one, and no memory is missing.
-/

namespace Libmodule
namespace SubModule

open CallRun

variable {S : Type} {hash : S → ℕ} {s s' : SubModule S} {m m' : HashMap S ℕ} {env : SubEnv}
  {topic : CString S} {flags userptr : ℕ}

/-! ## Contracts -/

/-- The key of an entry is the topic of its subscription, which is alive. -/
def KeysOwned (s : SubModule S) : Prop :=
  ∀ e ∈ s.entries, e.data ∈ s.live ∧ (s.subs e.data).topic = some e.key

/-- What was compiled and what was accepted has been released once, or belongs to one live
subscription, which is in the map or that of an event; and nothing is left when neither is. -/
structure ReleasesOnce (s : SubModule S) : Prop where
  regexes : s.regexes = Multiset.range s.compiled
  userptrs : s.userptrs = s.accepted
  live : ∀ id ∈ s.live, id ∈ s.entries.map MapElem.data ∨ id ∈ s.events
  ended : s.subscriptions = none → s.events = [] →
    (s.freedRegexes : Multiset ℕ) = Multiset.range s.compiled ∧
      (s.freedUserptrs : Multiset ℕ) = s.accepted

/-- The checks of `m_mod_ps_subscribe` before it looks for an old subscription. -/
structure Checked (env : SubEnv) (flags : ℕ) : Prop where
  perm : env.perm = 0
  prio : prioFlags flags ∈ [0, 1, 2, 4]
  token : env.token = true
  regcomp : env.regcomp = 0

section Conditions

variable [DecidableEq S]

/-- The map finds its entry for the topic that a call subscribes to. -/
def Sees (hash : S → ℕ) (s : SubModule S) : SubCall S → Prop
  | .subscribe env (some topic) flags _ =>
      Checked env flags → ∀ m, s.subscriptions = some m → Visible hash m topic.text
  | _ => True

/-- A subscription that replaces another one has the topic pointer that is the key. -/
def KeepsKey (s : SubModule S) : SubCall S → Prop
  | .subscribe env (some topic) flags _ =>
      Checked env flags → ∀ e ∈ s.entries, e.key.text = topic.text →
        (s.subs e.data).flags = withPrio flags ∨
          ∀ key, storedTopic env topic (withPrio flags) = some key → key = e.key
  | _ => True

/-- A subscription to a known topic has other flags than the old one, and no memory is
missing. -/
def FreesAll (hash : S → ℕ) (s : SubModule S) : SubCall S → Prop
  | .subscribe env (some topic) flags _ =>
      Checked env flags →
        (∀ e ∈ s.entries, e.key.text = topic.text → (s.subs e.data).flags ≠ withPrio flags) ∧
        (s.subscriptions = none → env.newMap = true) ∧
        Provides hash env (s.subscriptions.getD (HashMap.mMapNew subFlags true)) topic.text
          (withPrio flags)
  | .destroy mem => mem = true ∨ s.entries = 0
  | _ => True

end Conditions

/-! ## Accounts -/

/-- The objects have the references they need, and own what is not released. -/
structure Accounts (s : SubModule S) : Prop where
  exact : s.Exact
  regexes : s.regexes = Multiset.range s.compiled
  userptrs : s.userptrs = s.accepted

/-- Entries may go, but nothing else changes. -/
structure Shrinks (s s' : SubModule S) : Prop where
  entries : s'.entries ≤ s.entries
  subs : s'.subs = s.subs
  compiled : s'.compiled = s.compiled
  accepted : s'.accepted = s.accepted
  regexes : s'.regexes = s.regexes
  userptrs : s'.userptrs = s.userptrs

theorem shrinks_refl (s : SubModule S) : Shrinks s s := ⟨le_rfl, rfl, rfl, rfl, rfl, rfl⟩

theorem Shrinks.trans {s'' : SubModule S} (h : Shrinks s s') (h' : Shrinks s' s'') :
    Shrinks s s'' :=
  ⟨h'.entries.trans h.entries, h'.subs.trans h.subs, h'.compiled.trans h.compiled,
    h'.accepted.trans h.accepted, h'.regexes.trans h.regexes, h'.userptrs.trans h.userptrs⟩

theorem Settled.shrinks (h : Settled s m' s') (hentries : s'.entries ≤ s.entries) :
    Shrinks s s' :=
  ⟨hentries, h.subs, h.compiled, h.accepted, h.regexes, h.userptrs⟩

theorem KeysOwned.shrink (h : s.KeysOwned) (hinv : s'.Inv) (hshrinks : Shrinks s s') :
    s'.KeysOwned := by
  intro e he
  refine ⟨(hinv.data_lt he).2, ?_⟩
  rw [hshrinks.subs]
  exact (h e (Multiset.mem_of_le hshrinks.entries he)).2

theorem Accounts.shrink (h : s.Accounts) (hshrinks : Shrinks s s') (hexact : s'.Exact) :
    s'.Accounts :=
  ⟨hexact, by rw [hshrinks.regexes, h.regexes, hshrinks.compiled],
    by rw [hshrinks.userptrs, h.userptrs, hshrinks.accepted]⟩

theorem Accounts.releasesOnce (h : s.Accounts) (hinv : s.Inv) : s.ReleasesOnce := by
  have hlive : ∀ id ∈ s.live, id ∈ s.entries.map MapElem.data ∨ id ∈ s.events := by
    intro id hid
    have hrefs := h.exact id
    have hpos := (hinv.allocated.live id).mp hid
    rw [needs] at hrefs
    by_cases hevents : 0 < s.events.count id
    · exact .inr (List.count_pos_iff.mp hevents)
    · exact .inl (Multiset.count_pos.mp (by omega))
  refine ⟨h.regexes, h.userptrs, hlive, fun hnone hevents => ?_⟩
  have hempty : s.live = [] := by
    refine List.eq_nil_iff_forall_not_mem.mpr fun id hid => ?_
    rcases hlive id hid with hmap | hevent
    · rw [entries, hnone] at hmap
      exact absurd hmap (Multiset.notMem_zero id)
    · rw [hevents] at hevent
      cases hevent
  have hregexes := h.regexes
  have huserptrs := h.userptrs
  rw [SubModule.regexes, hempty, Multiset.coe_nil, Multiset.map_zero, add_zero] at hregexes
  rw [SubModule.userptrs, hempty, Multiset.coe_nil, Multiset.filter_zero, Multiset.map_zero,
    add_zero] at huserptrs
  exact ⟨hregexes, huserptrs⟩

/-! ## Subscriptions that go -/

theorem Inv.clearSubs (h : s.Inv) (hash : S → ℕ) (mem : Bool) :
    (s.clearSubs hash mem).Inv ∧ Shrinks s (s.clearSubs hash mem) ∧
      (s.Exact → (s.clearSubs hash mem).Exact) ∧
      (mem = true → (s.clearSubs hash mem).entries = 0) := by
  cases hsubs : s.subscriptions with
  | none =>
      have hsame : s.clearSubs hash mem = s := by simp [SubModule.clearSubs, hsubs]
      rw [hsame]
      exact ⟨h, shrinks_refl s, id, fun _ => by rw [entries, hsubs]⟩
  | some m =>
      obtain ⟨hm, hnone⟩ := h.map m hsubs
      have hsame : s.clearSubs hash mem = s.settle (m.clearWith hash mem).2 := by
        simp [SubModule.clearSubs, hsubs]
      obtain ⟨hinv, hsettled, hentries, hexact⟩ :=
        h.takesOut hsubs (takesOut_clearWith hm hnone hash mem)
      rw [hsame]
      refine ⟨hinv, hsettled.shrinks hentries, hexact, fun hmem => ?_⟩
      rw [hsettled.entries, hmem]
      exact (hm.counted.clearWith hash).2.1

theorem Inv.freeSubs (h : s.Inv) (hash : S → ℕ) (mem : Bool) :
    (s.freeSubs hash mem).Inv ∧ Shrinks s (s.freeSubs hash mem) ∧
      (mem = true ∨ s.entries = 0 → s.Exact → (s.freeSubs hash mem).Exact) := by
  obtain ⟨hinv, hshrinks, hexact, hzero⟩ := h.clearSubs hash mem
  have hneeds : ∀ id, (s.freeSubs hash mem).needs id ≤ (s.clearSubs hash mem).needs id :=
    fun id => Nat.add_le_add_right (Nat.zero_le _) _
  refine ⟨⟨fun m hm => ?_, ⟨hinv.allocated.live, hinv.allocated.nodup⟩,
    fun id => (hneeds id).trans (hinv.refs id), hinv.fresh⟩,
    ⟨Multiset.zero_le _, hshrinks.subs, hshrinks.compiled, hshrinks.accepted, hshrinks.regexes,
      hshrinks.userptrs⟩, fun hall hs id => ?_⟩
  · cases hm
  · have hempty : (s.clearSubs hash mem).entries = 0 := by
      rcases hall with hmem | hnone
      · exact hzero hmem
      · exact Multiset.le_zero.mp (hnone ▸ hshrinks.entries)
    have hid := hexact hs id
    rw [needs, hempty] at hid
    exact hid

section Removal

variable [DecidableEq S]

theorem Inv.removeTopic (h : s.Inv) (hash : S → ℕ) (topic : S) :
    (s.removeTopic hash topic).2.Inv ∧ Shrinks s (s.removeTopic hash topic).2 ∧
      (s.Exact → (s.removeTopic hash topic).2.Exact) := by
  cases hsubs : s.subscriptions with
  | none =>
      have hsame : s.removeTopic hash topic = (-EINVAL, s) := by
        simp [SubModule.removeTopic, hsubs]
      rw [hsame]
      exact ⟨h, shrinks_refl s, id⟩
  | some m =>
      obtain ⟨hm, hnone⟩ := h.map m hsubs
      have hsame : (s.removeTopic hash topic).2 = s.settle (m.mMapRemove hash (some topic)).2 := by
        simp [SubModule.removeTopic, hsubs]
      obtain ⟨hinv, hsettled, hentries, hexact⟩ :=
        h.takesOut hsubs (takesOut_mMapRemove hm hnone hash topic)
      rw [hsame]
      exact ⟨hinv, hsettled.shrinks hentries, hexact⟩

theorem Inv.mModPsUnsubscribe (h : s.Inv) (hash : S → ℕ) (env : SubEnv) (topic : Option S) :
    (s.mModPsUnsubscribe hash env topic).2.Inv ∧
      Shrinks s (s.mModPsUnsubscribe hash env topic).2 ∧
      (s.Exact → (s.mModPsUnsubscribe hash env topic).2.Exact) := by
  cases topic with
  | none =>
      simp only [SubModule.mModPsUnsubscribe]
      split <;> exact ⟨h, shrinks_refl s, id⟩
  | some topic =>
      simp only [SubModule.mModPsUnsubscribe]
      split
      next => exact ⟨h, shrinks_refl s, id⟩
      split
      next => exact ⟨h, shrinks_refl s, id⟩
      obtain ⟨hinv, hshrinks, hexact⟩ := h.removeTopic hash topic
      split
      next =>
        obtain ⟨hinv', hshrinks', hexact'⟩ := hinv.freeSubs hash true
        exact ⟨hinv', hshrinks.trans hshrinks', fun hs => hexact' (.inl rfl) (hexact hs)⟩
      next => exact ⟨hinv, hshrinks, hexact⟩

end Removal

/-! ## Events -/

/-- An event takes a reference on a live subscription. -/
theorem Inv.hold (h : s.Inv) {sub : ℕ} (hsub : sub ∈ s.live) :
    Inv { s with refs := Function.update s.refs sub (s.refs sub + 1), events := sub :: s.events } ∧
      (s.Exact → Exact { s with
        refs := Function.update s.refs sub (s.refs sub + 1), events := sub :: s.events }) := by
  have hpos := (h.allocated.live sub).mp hsub
  have hrefs : ∀ id, Function.update s.refs sub (s.refs sub + 1) id =
      s.refs id + [sub].count id := by
    intro id
    by_cases hid : id = sub
    · subst hid
      rw [Function.update_self, List.count_singleton_self]
    · rw [Function.update_of_ne hid, List.count_singleton, if_neg (by simpa using Ne.symm hid),
        add_zero]
  have hneeds : ∀ id, needs { s with
      refs := Function.update s.refs sub (s.refs sub + 1), events := sub :: s.events } id =
        s.needs id + [sub].count id := by
    intro id
    have hevents : (sub :: s.events).count id = s.events.count id + [sub].count id := by
      rw [List.count_cons, List.count_singleton]
    exact (congrArg _ hevents).trans (Nat.add_assoc _ _ _).symm
  refine ⟨⟨h.map, ⟨fun id => ?_, h.allocated.nodup⟩, fun id => ?_, fun id hid => ?_⟩,
    fun hexact id => ?_⟩
  · simp only
    rw [h.allocated.live, hrefs]
    by_cases hid : id = sub
    · subst hid
      exact iff_of_true hpos (Nat.lt_add_right _ hpos)
    · rw [List.count_singleton, if_neg (by simpa using Ne.symm hid), add_zero]
  · simp only
    rw [hneeds, hrefs]
    exact Nat.add_le_add_right (h.refs id) _
  · simp only
    have hne : id ≠ sub := by
      rintro rfl
      have := h.fresh _ hid
      omega
    rw [Function.update_of_ne hne]
    exact h.fresh id hid
  · simp only
    rw [hneeds, hrefs, hexact id]

/-- An event is freed, and gives its reference back. -/
theorem Inv.release (h : s.Inv) {sub : ℕ} (hsub : sub ∈ s.events) :
    (unref { s with events := s.events.erase sub } sub).Inv ∧
      Shrinks s (unref { s with events := s.events.erase sub } sub) ∧
      (s.Exact → (unref { s with events := s.events.erase sub } sub).Exact) := by
  have hcount : ∀ id, (s.events.erase sub).count id + [sub].count id = s.events.count id := by
    intro id
    rw [← List.count_append, ((List.perm_cons_erase hsub).trans
      (List.perm_append_singleton sub _).symm).count_eq]
  have hpos : 0 < s.refs sub := by
    have hneeds := h.refs sub
    have hevents : 0 < s.events.count sub := List.count_pos_iff.mpr hsub
    rw [needs] at hneeds
    omega
  have hdropped := Allocated.unref (s := { s with events := s.events.erase sub })
    ⟨h.allocated.live, h.allocated.nodup⟩ hpos
  have hentries : (unref { s with events := s.events.erase sub } sub).entries = s.entries := by
    rw [entries, hdropped.subscriptions, entries]
  have hneeds : ∀ id, (unref { s with events := s.events.erase sub } sub).needs id +
      [sub].count id = s.needs id := by
    intro id
    rw [needs, needs, hentries, hdropped.events, add_assoc]
    exact congrArg _ (hcount id)
  refine ⟨⟨fun m hm => ?_, hdropped.allocated, fun id => ?_, fun id hid => ?_⟩,
    ⟨hentries.le, hdropped.subs, hdropped.compiled, hdropped.accepted, hdropped.regexes,
      hdropped.userptrs⟩, fun hexact id => ?_⟩
  · rw [hdropped.subscriptions] at hm
    exact h.map m hm
  · have hrefs : _ + _ = s.refs id := hdropped.refs id
    have hid := hneeds id
    have hold := h.refs id
    omega
  · have hrefs : _ + _ = s.refs id := hdropped.refs id
    rw [hdropped.created] at hid
    have hzero := h.fresh id hid
    omega
  · have hrefs : _ + _ = s.refs id := hdropped.refs id
    have hid := hneeds id
    have hold := hexact id
    omega

/-! ## Subscriptions that come -/

/-- What a call of `m_mod_ps_subscribe` with a topic does. -/
inductive SubscribeEffect [DecidableEq S] (hash : S → ℕ) (env : SubEnv) (topic : CString S)
    (flags userptr : ℕ) (s : SubModule S) : ℤ → SubModule S → Prop where
  | refused {ret : ℤ} (hret : ret ≠ 0) (hchecks : ¬ Checked env flags) :
      SubscribeEffect hash env topic flags userptr s ret s
  | overwritten {e : MapElem S ℕ} (hchecks : Checked env flags) (he : e ∈ s.entries)
      (hkey : e.key.text = topic.text) (hflags : (s.subs e.data).flags = withPrio flags) :
      SubscribeEffect hash env topic flags userptr s 0
        { s with
          compiled := s.compiled + 1
          subs := Function.update s.subs e.data { s.subs e.data with userptr := userptr } }
  | stored {s' : SubModule S} {key : CString S} (hchecks : Checked env flags)
      (hkey : storedTopic env topic (withPrio flags) = some key)
      (hflags : ∀ e ∈ s.entries, e.key.text = topic.text →
        (s.subs e.data).flags ≠ withPrio flags)
      (hstores : StoresSub s s' (withPrio flags) userptr s.compiled key)
      (hcompiled : s'.compiled = s.compiled + 1) (haccepted : s'.accepted = s.accepted) :
      SubscribeEffect hash env topic flags userptr s 0 s'
  | leaked {ret : ℤ} {s' : SubModule S} (hret : ret ≠ 0) (hchecks : Checked env flags)
      (hleaks : LeaksSub s s')
      (hmem : ¬ ((s.subscriptions = none → env.newMap = true) ∧
        Provides hash env (s.subscriptions.getD (HashMap.mMapNew subFlags true)) topic.text
          (withPrio flags))) :
      SubscribeEffect hash env topic flags userptr s ret s'

theorem ofModule_new : OfModule (HashMap.mMapNew subFlags true : HashMap S ℕ) := by
  have hentries : (HashMap.mMapNew subFlags true : HashMap S ℕ).entries = 0 :=
    HashMap.entries_eq_zero_of_empty fun _ _ => rfl
  refine ⟨⟨HashMap.roomy_new subFlags true, ?_, ?_⟩, rfl, rfl⟩
  · rw [hentries]
    rfl
  · rw [hentries]
    exact Multiset.nodup_zero

section Subscribe

variable [DecidableEq S]

/-- A topic of the map that it finds gives the old subscription. -/
theorem mMapGet_eq_some (hm : OfModule m) {old : ℕ} (hvisible : Visible hash m topic.text) :
    m.mMapGet hash (some topic.text) = some old ↔
      ∃ e ∈ m.entries, e.key.text = topic.text ∧ e.data = old := by
  obtain ⟨k, -, hk⟩ := hm.counted.roomy.size
  constructor
  · intro hget
    simp only [HashMap.mMapGet] at hget
    split at hget
    next =>
      obtain ⟨slot, hfind, hdata⟩ := Option.bind_eq_some_iff.mp hget
      obtain ⟨e, he, hdata⟩ := Option.map_eq_some_iff.mp hdata
      rcases HashMap.find_cases hk hfind with ⟨x, hx, hkey⟩ | ⟨-, hempty⟩
      · rw [he] at hx
        obtain rfl := Option.some.inj hx
        exact ⟨e, HashMap.mem_entries.mpr ⟨slot, (HashMap.find_slot hk hfind).1, he⟩, hkey, hdata⟩
      · cases hempty
    next => cases hget
  · rintro ⟨e, he, hkey, rfl⟩
    obtain ⟨p, hp, hpe, hfind⟩ := hvisible e he hkey
    have hlength : m.length > 0 := by
      have hcard := hm.counted.roomy.entries
      have hpos : 0 < m.occupied.card :=
        Finset.card_pos.mpr ⟨p, by simp [HashMap.occupied, hp, hpe]⟩
      omega
    simp [HashMap.mMapGet, hlength, hfind, hpe]

omit [DecidableEq S] in
theorem Inv.compile (h : s.Inv) : Inv { s with compiled := s.compiled + 1 } :=
  ⟨h.map, ⟨h.allocated.live, h.allocated.nodup⟩, h.refs, h.fresh⟩

/-- The end of a call which has passed the checks and found no subscription with its flags. -/
theorem Inv.subscribe_store (h : s.Inv) (userptr : ℕ) (hchecks : Checked env flags)
    (hvisible : ∀ m, s.subscriptions = some m → Visible hash m topic.text)
    (hflags : ∀ e ∈ s.entries, e.key.text = topic.text → (s.subs e.data).flags ≠ withPrio flags)
    (hm : s.subscriptions = some m ∨
      s.subscriptions = none ∧ env.newMap = true ∧ m = HashMap.mMapNew subFlags true) :
    ∃ ret s', SubModule.storeSub hash env { s with compiled := s.compiled + 1 } m topic
        (withPrio flags) userptr s.compiled = (ret, s') ∧ s'.Inv ∧
      SubscribeEffect hash env topic flags userptr s ret s' := by
  have hmap : OfModule m ∧ m.destroyed = [] ∧ s.entries = m.entries ∧
      Visible hash m topic.text ∧ s.subscriptions.getD (HashMap.mMapNew subFlags true) = m := by
    rcases hm with hsubs | ⟨hsubs, -, rfl⟩
    · obtain ⟨hmodule, hnone⟩ := h.map m hsubs
      exact ⟨hmodule, hnone, entries_some hsubs, hvisible m hsubs, by rw [hsubs, Option.getD_some]⟩
    · have hempty : (HashMap.mMapNew subFlags true : HashMap S ℕ).entries = 0 :=
        HashMap.entries_eq_zero_of_empty fun _ _ => rfl
      refine ⟨ofModule_new, rfl, ?_, fun e he => ?_, by rw [hsubs, Option.getD_none]⟩
      · rw [hempty, entries, hsubs]
      · rw [hempty] at he
        exact absurd he (Multiset.notMem_zero e)
  obtain ⟨hmodule, hnone, hentries, hvisible, hdefault⟩ := hmap
  have hstored : ∃ ret s', SubModule.storeSub hash env { s with compiled := s.compiled + 1 } m
      topic (withPrio flags) userptr s.compiled = (ret, s') ∧ _ :=
    h.compile.storeSub hmodule hnone hentries hvisible
  obtain ⟨ret, s', heq, hinv, hcompiled, haccepted, heffect⟩ := hstored
  refine ⟨ret, s', heq, hinv, ?_⟩
  rcases heffect with ⟨rfl, key, hkey, hstores⟩ | ⟨hret, hleaks, hmem⟩
  · exact .stored hchecks hkey hflags
      ⟨hstores.entries, hstores.subs, hstores.exact, hstores.regexes, hstores.userptrs⟩
      hcompiled haccepted
  · refine .leaked hret hchecks ⟨hleaks.entries, hleaks.subs⟩ fun hall => hmem ?_
    rw [← hdefault]
    exact hall.2

/-- A call that fails a check answers with an error and does nothing. -/
theorem mModPsSubscribe_refused (hash : S → ℕ) (s : SubModule S) (topic : CString S)
    (userptr : ℕ) (hchecks : ¬ Checked env flags) :
    ∃ ret, ret ≠ 0 ∧ s.mModPsSubscribe hash env (some topic) flags userptr = (ret, s) := by
  by_cases hperm : env.perm = 0
  · by_cases hprio : prioFlags flags ∈ [0, 1, 2, 4]
    · cases htoken : env.token with
      | false => exact ⟨-EAGAIN, by decide, by
          simp only [SubModule.mModPsSubscribe, hperm, hprio, htoken, ne_eq, not_true_eq_false,
            if_false, Bool.not_false, if_true]⟩
      | true =>
          have hregcomp : env.regcomp ≠ 0 := fun hzero => hchecks ⟨hperm, hprio, htoken, hzero⟩
          exact ⟨env.regcomp, hregcomp, by
            simp only [SubModule.mModPsSubscribe, hperm, hprio, htoken, ne_eq, not_true_eq_false,
              if_false, Bool.not_true, Bool.false_eq_true, hregcomp, not_false_eq_true, if_true]⟩
    · exact ⟨-EINVAL, by decide, by
        simp only [SubModule.mModPsSubscribe, hperm, hprio, ne_eq, not_true_eq_false, if_false,
          not_false_eq_true, if_true]⟩
  · exact ⟨env.perm, hperm, by
      simp only [SubModule.mModPsSubscribe, hperm, ne_eq, not_false_eq_true, if_true]⟩

theorem Inv.mModPsSubscribe (h : s.Inv)
    (hsees : Sees hash s (.subscribe env (some topic) flags userptr)) :
    ∃ ret s', s.mModPsSubscribe hash env (some topic) flags userptr = (ret, s') ∧ s'.Inv ∧
      SubscribeEffect hash env topic flags userptr s ret s' := by
  by_cases hchecks : Checked env flags
  · have hvisible := hsees hchecks
    have hprio := hchecks.prio
    cases hsubs : s.subscriptions with
    | none =>
        have hflags : ∀ e ∈ s.entries, e.key.text = topic.text →
            (s.subs e.data).flags ≠ withPrio flags := by
          intro e he
          rw [entries, hsubs] at he
          exact absurd he (Multiset.notMem_zero e)
        cases hnew : env.newMap with
        | true =>
            obtain ⟨ret, s', heq, hinv, heffect⟩ := h.subscribe_store userptr hchecks
              hvisible hflags (.inr ⟨hsubs, hnew, rfl⟩)
            refine ⟨ret, s', ?_, hinv, heffect⟩
            rw [← heq]
            simp only [SubModule.mModPsSubscribe, hchecks.perm, hprio, hchecks.token,
              hchecks.regcomp, hsubs, hnew, ne_eq, not_true_eq_false, if_false, Bool.not_true,
              Bool.false_eq_true, if_true]
        | false =>
            refine ⟨-ENOMEM, { s with compiled := s.compiled + 1 }, ?_, h.compile,
              .leaked (by decide) hchecks ⟨rfl, fun _ _ => rfl⟩ fun hall => ?_⟩
            · simp only [SubModule.mModPsSubscribe, hchecks.perm, hprio, hchecks.token,
                hchecks.regcomp, hsubs, hnew, ne_eq, not_true_eq_false, if_false, Bool.not_true,
                Bool.false_eq_true]
            · have hmem := hall.1 hsubs
              rw [hnew] at hmem
              cases hmem
    | some m =>
        obtain ⟨hmodule, -⟩ := h.map m hsubs
        have hentries := entries_some hsubs
        have hsome := fun old => @mMapGet_eq_some S hash m topic _ hmodule old (hvisible m hsubs)
        cases hget : m.mMapGet hash (some topic.text) with
        | none =>
            obtain ⟨ret, s', heq, hinv, heffect⟩ := h.subscribe_store userptr hchecks
              hvisible (fun e he hkey => by
                have hfound := (hsome e.data).mpr ⟨e, hentries ▸ he, hkey, rfl⟩
                rw [hget] at hfound
                cases hfound) (.inl hsubs)
            refine ⟨ret, s', ?_, hinv, heffect⟩
            rw [← heq]
            simp only [SubModule.mModPsSubscribe, hchecks.perm, hprio, hchecks.token,
              hchecks.regcomp, hsubs, hget, ne_eq, not_true_eq_false, if_false, Bool.not_true,
              Bool.false_eq_true]
        | some old =>
            obtain ⟨e, he, hkey, rfl⟩ := (hsome old).mp hget
            by_cases hsame : (s.subs e.data).flags = withPrio flags
            · refine ⟨0, { s with
                compiled := s.compiled + 1
                subs := Function.update s.subs e.data
                  { s.subs e.data with userptr := userptr } }, ?_,
                ⟨h.map, ⟨h.allocated.live, h.allocated.nodup⟩, h.refs, h.fresh⟩,
                .overwritten hchecks (hentries ▸ he) hkey hsame⟩
              simp only [SubModule.mModPsSubscribe, hchecks.perm, hprio, hchecks.token,
                hchecks.regcomp, hsubs, hget, hsame, ne_eq, not_true_eq_false, if_false,
                Bool.not_true, Bool.false_eq_true, if_true]
            · obtain ⟨ret, s', heq, hinv, heffect⟩ := h.subscribe_store userptr hchecks
                hvisible (fun e' he' hkey' => by
                  rw [hmodule.counted.eq_of_text (hentries ▸ he') he (hkey'.trans hkey.symm)]
                  exact hsame) (.inl hsubs)
              refine ⟨ret, s', ?_, hinv, heffect⟩
              rw [← heq]
              simp only [SubModule.mModPsSubscribe, hchecks.perm, hprio, hchecks.token,
                hchecks.regcomp, hsubs, hget, hsame, ne_eq, not_true_eq_false, if_false,
                Bool.not_true, Bool.false_eq_true]
  · obtain ⟨ret, hret, heq⟩ := mModPsSubscribe_refused hash s topic userptr hchecks
    exact ⟨ret, s, heq, h, .refused hret hchecks⟩

theorem hasFlag_withPrio (flags : ℕ) :
    hasFlag (withPrio flags) M_SRC_AUTOFREE = hasFlag flags M_SRC_AUTOFREE := by
  rw [withPrio]
  split
  next =>
    have hnone : M_SRC_PRIO_NORM &&& M_SRC_AUTOFREE = 0 := by decide
    rw [hasFlag, hasFlag, Nat.and_or_distrib_right, hnone, Nat.or_zero]
  next => rfl

/-- A subscription leaves the keys with their owners, if none takes the place of a topic that
is a key. -/
theorem KeysOwned.subscribe (h : s.KeysOwned) (hinv : s.Inv) {ret : ℤ} (hinv' : s'.Inv)
    (hkeeps : KeepsKey s (.subscribe env (some topic) flags userptr))
    (heffect : SubscribeEffect hash env topic flags userptr s ret s') : s'.KeysOwned := by
  intro e he
  refine ⟨(hinv'.data_lt he).2, ?_⟩
  cases heffect with
  | refused => exact (h e he).2
  | @overwritten old hchecks hold hkey hflags =>
      have htopic := (h e he).2
      simp only
      by_cases heq : e.data = old.data
      · rw [heq, Function.update_self]
        rw [heq] at htopic
        exact htopic
      · rw [Function.update_of_ne heq]
        exact htopic
  | @stored _ key hchecks hkey hflags hstores =>
      -- an old entry keeps its value, and the value of the changed one is the new object
      have holds : ∀ e ∈ s.entries, (s'.subs e.data).topic = some e.key := by
        intro e he
        rw [hstores.subs, Function.update_of_ne (Nat.ne_of_lt (hinv.data_lt he).1)]
        exact (h e he).2
      rcases hstores.entries with hnew | ⟨old, hold, htext, hreplaced⟩
      · rw [hnew, Multiset.mem_cons] at he
        rcases he with rfl | he
        · rw [hstores.subs, Function.update_self]
        · exact holds e he
      · have he := Multiset.mem_cons_of_mem (b := old) he
        rw [hreplaced, Multiset.mem_cons] at he
        rcases he with rfl | he
        · have htopic := htext.trans (storedTopic_text hkey)
          have hsame := (hkeeps hchecks old hold htopic).resolve_left (hflags old hold htopic)
          rw [hstores.subs, Function.update_self, hsame key hkey]
        · exact holds e he
  | leaked hret hchecks hleaks hmem =>
      rw [hleaks.entries] at he
      rw [hleaks.subs e.data (hinv.data_lt he).1]
      exact (h e he).2

/-- A subscription is accounted for, if it does not write over another one and has its memory. -/
theorem Accounts.subscribe (h : s.Accounts) {ret : ℤ}
    (hfrees : FreesAll hash s (.subscribe env (some topic) flags userptr))
    (heffect : SubscribeEffect hash env topic flags userptr s ret s') :
    Accounts (if ret = 0 ∧ hasFlag flags M_SRC_AUTOFREE then
      { s' with accepted := s'.accepted ++ [userptr] } else s') := by
  cases heffect with
  | refused hret =>
      rw [if_neg fun haccepted => hret haccepted.1]
      exact h
  | overwritten hchecks he hkey hflags => exact absurd hflags ((hfrees hchecks).1 _ he hkey)
  | leaked hret hchecks hleaks hmem => exact absurd (hfrees hchecks).2 hmem
  | stored hchecks hkey hflags hstores hcompiled haccepted =>
      have hregexes : s'.regexes = Multiset.range s'.compiled := by
        rw [hstores.regexes, h.regexes, hcompiled, Multiset.range_succ]
      have huserptrs := hstores.userptrs
      rw [h.userptrs, hasFlag_withPrio] at huserptrs
      by_cases hfree : hasFlag flags M_SRC_AUTOFREE = true
      · rw [if_pos ⟨rfl, hfree⟩]
        rw [if_pos hfree] at huserptrs
        refine ⟨hstores.exact h.exact, hregexes, huserptrs.trans ?_⟩
        rw [haccepted, ← Multiset.coe_add, Multiset.coe_singleton, add_comm]
      · rw [if_neg fun hall => hfree hall.2]
        rw [if_neg hfree, zero_add] at huserptrs
        exact ⟨hstores.exact h.exact, hregexes, by rw [huserptrs, haccepted]⟩

end Subscribe

/-! ## Runs -/

section Runs

variable [DecidableEq S]

/-- After a call the keys belong to their subscriptions. -/
def KeepsKeys (_ : SubModule S) (_ : SubCall S) (_ : ℤ) (s' : SubModule S) : Prop := s'.KeysOwned

/-- After a call, what was compiled and accepted has been released once or has an owner. -/
def KeepsAccounts (_ : SubModule S) (_ : SubCall S) (_ : ℤ) (s' : SubModule S) : Prop :=
  s'.ReleasesOnce

omit [DecidableEq S] in
theorem inv_empty : Inv ({} : SubModule S) := by
  refine ⟨nofun, ⟨fun id => ?_, List.nodup_nil⟩, fun id => ?_, fun _ _ => rfl⟩
  · simp
  · simp [needs, entries]

omit [DecidableEq S] in
theorem accounts_empty : Accounts ({} : SubModule S) := by
  refine ⟨fun id => ?_, ?_, ?_⟩
  · simp [needs, entries]
  · simp [regexes]
  · simp [userptrs]

/-- A call other than a subscription takes entries out at most. -/
theorem exec_shrinks (hash : S → ℕ) (h : s.Inv) (call : SubCall S)
    (hother : ∀ env topic flags userptr, call ≠ .subscribe env (some topic) flags userptr) :
    ∃ ret s', exec hash s call = some (ret, s') ∧ s'.Inv ∧ Shrinks s s' ∧
      (FreesAll hash s call → s.Exact → s'.Exact) := by
  cases call with
  | subscribe env topic flags userptr =>
      cases topic with
      | some topic => exact absurd rfl (hother env topic flags userptr)
      | none =>
          have hrefused : ∃ ret, ret ≠ 0 ∧
              s.mModPsSubscribe hash env none flags userptr = (ret, s) := by
            by_cases hperm : env.perm = 0
            · exact ⟨-EINVAL, by decide, by simp [SubModule.mModPsSubscribe, hperm]⟩
            · exact ⟨env.perm, hperm, by simp [SubModule.mModPsSubscribe, hperm]⟩
          obtain ⟨ret, hret, heq⟩ := hrefused
          refine ⟨ret, s, ?_, h, shrinks_refl s, fun _ => id⟩
          simp [exec, heq, hret]
  | unsubscribe env topic =>
      obtain ⟨hinv, hshrinks, hexact⟩ := h.mModPsUnsubscribe hash env topic
      exact ⟨_, _, rfl, hinv, hshrinks, fun _ => hexact⟩
  | oneshot topic =>
      obtain ⟨hinv, hshrinks, hexact⟩ := h.removeTopic hash topic
      exact ⟨_, _, rfl, hinv, hshrinks, fun _ => hexact⟩
  | hold sub =>
      by_cases hsub : sub ∈ s.live
      · obtain ⟨hinv, hexact⟩ := h.hold hsub
        refine ⟨0, _, by rw [exec, if_pos hsub], hinv, ?_, fun _ => hexact⟩
        exact ⟨le_rfl, rfl, rfl, rfl, rfl, rfl⟩
      · exact ⟨0, s, by rw [exec, if_neg hsub], h, shrinks_refl s, fun _ => id⟩
  | release sub =>
      by_cases hsub : sub ∈ s.events
      · obtain ⟨hinv, hshrinks, hexact⟩ := h.release hsub
        exact ⟨0, _, by rw [exec, if_pos hsub], hinv, hshrinks, fun _ => hexact⟩
      · exact ⟨0, s, by rw [exec, if_neg hsub], h, shrinks_refl s, fun _ => id⟩
  | stop mem =>
      obtain ⟨hinv, hshrinks, hexact, -⟩ := h.clearSubs hash mem
      exact ⟨0, _, rfl, hinv, hshrinks, fun _ => hexact⟩
  | destroy mem =>
      obtain ⟨hinv, hshrinks, hexact⟩ := h.freeSubs hash mem
      exact ⟨0, _, rfl, hinv, hshrinks, hexact⟩

theorem exec_subscribe (h : s.Inv)
    (hsees : Sees hash s (.subscribe env (some topic) flags userptr)) :
    ∃ ret s₁ s', exec hash s (.subscribe env (some topic) flags userptr) = some (ret, s') ∧
      s₁.Inv ∧ s'.Inv ∧ SubscribeEffect hash env topic flags userptr s ret s₁ ∧
      s' = if ret = 0 ∧ hasFlag flags M_SRC_AUTOFREE then
        { s₁ with accepted := s₁.accepted ++ [userptr] } else s₁ := by
  obtain ⟨ret, s₁, heq, hinv, heffect⟩ := h.mModPsSubscribe hsees
  refine ⟨ret, s₁, _, by rw [exec, heq], hinv, ?_, heffect, rfl⟩
  split
  · exact ⟨hinv.map, ⟨hinv.allocated.live, hinv.allocated.nodup⟩, hinv.refs, hinv.fresh⟩
  · exact hinv

omit [DecidableEq S] in
/-- A call is a subscription to a topic, or takes entries out at most. -/
theorem subscribe_or_other (call : SubCall S) :
    (∃ env topic flags userptr, call = .subscribe env (some topic) flags userptr) ∨
      ∀ env topic flags userptr, call ≠ .subscribe env (some topic) flags userptr := by
  by_cases hsub : ∃ env topic flags userptr, call = .subscribe env (some topic) flags userptr
  · exact .inl hsub
  · exact .inr fun env topic flags userptr heq => hsub ⟨env, topic, flags, userptr, heq⟩

/-- In every run whose subscriptions keep the keys, the key of each entry is the topic of the
live subscription that is its value. -/
theorem keepsKeys_of_keepsKey (hash : S → ℕ) (calls : List (SubCall S))
    (hmeets : Meets (exec hash) (fun s call => Sees hash s call ∧ KeepsKey s call) {} calls) :
    Always (exec hash) KeepsKeys {} calls := by
  refine always_of_step (fun s => s.Inv ∧ s.KeysOwned) ?_ calls ⟨inv_empty, ?_⟩ hmeets
  · rintro s call ⟨hinv, hkeys⟩ ⟨hsees, hkeeps⟩
    rcases subscribe_or_other call with ⟨env, topic, flags, userptr, rfl⟩ | hother
    · obtain ⟨ret, s₁, s', hexec, hinv₁, hinv', heffect, hs'⟩ := exec_subscribe hinv hsees
      have hkeys₁ := hkeys.subscribe hinv hinv₁ hkeeps heffect
      have hkeys' : s'.KeysOwned := by
        rw [hs']
        split <;> exact hkeys₁
      exact ⟨ret, s', hexec, hkeys', hinv', hkeys'⟩
    · obtain ⟨ret, s', hexec, hinv', hshrinks, -⟩ := exec_shrinks hash hinv call hother
      have hkeys' := hkeys.shrink hinv' hshrinks
      exact ⟨ret, s', hexec, hkeys', hinv', hkeys'⟩
  · intro e he
    exact absurd he (Multiset.notMem_zero e)

theorem lt_of_fits (bytes : ℕ) (h : decide (bytes < 2 ^ 64) = true) : bytes < 2 ^ 64 :=
  of_decide_eq_true h

/-- Every check passes and there is memory, with `copy` for a copy of the topic. -/
def allowed (copy : ℕ) : SubEnv :=
  ⟨0, true, 0, true, true, ⟨some copy, fun bytes => decide (bytes < 2 ^ 64), lt_of_fits⟩⟩

/-- A topic is subscribed to, with a copy, and unsubscribed from. -/
theorem keepsKeys_subscribed : Always (exec fun _ => 0) KeepsKeys {}
    [.subscribe (allowed 1) (some ⟨7, "leo"⟩) M_SRC_DUP 0,
      .unsubscribe (allowed 0) (some "leo")] := by
  refine keepsKeys_of_keepsKey _ _
    ⟨⟨fun _ m hm => ?_, fun _ e he => ?_⟩, ⟨trivial, trivial⟩, trivial⟩
  · cases hm
  · exact absurd he (Multiset.notMem_zero e)

/-- With other flags the topic has a new copy, but the key is the old one, which is freed. -/
theorem not_keepsKeys_flags : ¬ Always (exec fun _ => 0) KeepsKeys {}
    [.subscribe (allowed 1) (some ⟨7, "leo"⟩) M_SRC_DUP 0,
      .subscribe (allowed 2) (some ⟨7, "leo"⟩) (M_SRC_DUP ||| M_SRC_PRIO_HIGH) 0] := by
  intro h
  have hkeys := h.2.1
  have hkey := (hkeys ⟨⟨1, "leo"⟩, 1⟩ (HashMap.mem_entries.mpr ⟨0, by decide, rfl⟩)).2
  exact absurd hkey (by decide)

end Runs

end SubModule
end Libmodule
