import Libmodule.Evolution
import Libmodule.OwnedChanges

/-!
# Operations keep the account

Each operation takes references from one holder and gives them to another, or
drops them.  Only four operations change what the code and the user hold of
contexts and modules; everything else that an operation takes it also gives away.
-/

namespace Libmodule

open RefHeap SearchTree Reentrant

section Operations

variable {K : Tag → Prop} {ext : ℕ → ℕ} {hands : List ℕ} {w w₁ : World} (hK : Countable K)

namespace Owned

/-- A reference to an event is nobody's. -/
theorem cons_evt (hK : Countable K) (hO : Owned K ext hands w.heap) {e : ℕ} {x : EvtPriv}
    (he : evtAt w.heap e = some x) : Owned K ext (e :: hands) w.heap :=
  hO.forget (.of_val (Q := (· = .evt)) (evtAt_eq_some.mp he) rfl)
    (fun _ ht heq => hK.evt (heq ▸ ht))

theorem cons_msg (hK : Countable K) (hO : Owned K ext hands w.heap) {g : ℕ} {x : PsPriv}
    (hg : msgAt w.heap g = some x) : Owned K ext (g :: hands) w.heap :=
  hO.forget (.of_val (Q := (· = .msg)) (msgAt_eq_some.mp hg) rfl)
    (fun _ ht heq => hK.msg (heq ▸ ht))

/-- The operation may put down what nobody accounts for. -/
theorem put_down {Q : Tag → Prop} {p : ℕ} (hO : Owned K ext (p :: hands) w.heap)
    (hp : Points w.heap p Q) (hQ : ∀ t, K t → ¬ Q t) : Owned K ext hands w.heap := by
  apply hO.rehand (fun q hq => hO.hands_lt q (List.mem_cons_of_mem _ hq))
  intro q o ho hcounted
  rw [List.count_cons_of_ne]
  rintro rfl
  exact hQ _ hcounted (hp.2 o ho)

variable (hO : Owned K ext [] w.heap)

include hK hO

theorem passes_newEvt {src : Option ℕ} {e : ℕ} (h : w.newEvt src = some (e, w₁)) :
    Passes K ext [] w w₁ := by
  unfold World.newEvt at h
  simp only [Option.bind_eq_bind, Option.bind_eq_some_iff, Option.some.injEq] at h
  obtain ⟨p, rfl, s, hs, u, href, hnew⟩ := h
  cases hnew
  have hu := hO.passes_ref href
  have hsource : Points w.heap p Tag.IsSource := by
    apply Points.of_val (srcAt_eq_some.mp hs)
    simp only [Obj.tag]
    cases s.topic with
    | none => exact .inl rfl
    | some topic => exact .inr ⟨topic, rfl⟩
  have hsound : EvtPriv.Sound u.heap
      { type := s.type, data := .null, src := some p, userdata := .user 0 } :=
    { src := by
        intro q hq
        cases hq
        exact hsource.grown hu.grown
      data := by simp }
  have hnew := Owned.passes_new (o := .evt _) hu.owned hsound rfl
  apply hu.trans ⟨?_, hnew.grown⟩
  apply hnew.owned.put_down (Q := (· = .evt)) _ (fun _ ht heq => hK.evt (heq ▸ ht))
  exact .of_val (by rw [World.new, val_alloc, if_pos rfl]) rfl

omit hO in
theorem passes_newMsg {msg : PsPriv} {u : World} (href : Passes K ext msg.sender.toList w u)
    (hsub : ∀ p ∈ msg.sub, Points w.heap p Tag.IsSub) :
    Passes K ext [] w (u.new (.msg msg)).2 := by
  have hsound : PsPriv.Sound u.heap msg :=
    { sender := fun p hp => href.owned.hands_lt p (Option.mem_toList.mpr hp)
      sub := fun p hp => (hsub p hp).grown href.grown }
  have hnew : Passes K ext (u.heap.length :: []) u (u.new (.msg msg)).2 :=
    Owned.passes_new (by simpa [Obj.owns] using href.owned) hsound rfl
  apply href.trans ⟨?_, hnew.grown⟩
  apply hnew.owned.put_down (Q := (· = .msg)) _ (fun _ ht heq => hK.msg (heq ▸ ht))
  exact .of_val (by rw [World.new, val_alloc, if_pos rfl]) rfl

theorem passes_allocPsMsg {msg : PsPriv} {sub : Option ℕ} {g : ℕ}
    (hsub : ∀ p ∈ sub, Points w.heap p Tag.IsSub)
    (h : w.allocPsMsg msg sub = some (g, w₁)) : Passes K ext [] w w₁ := by
  unfold World.allocPsMsg at h
  split at h
  next hsender =>
    cases h
    exact passes_newMsg hK (by rw [hsender]; exact hO.stay rfl) hsub
  next sender hsender =>
    simp only [Option.bind_eq_bind, Option.bind_eq_some_iff, Option.some.injEq] at h
    obtain ⟨u, href, hnew⟩ := h
    cases hnew
    exact passes_newMsg hK (by rw [hsender]; exact hO.passes_ref href) hsub

theorem passes_tell {m : ℕ} {msg : PsPriv} {sub : Option String}
    (h : w.tell m msg sub = some w₁) : Passes K ext [] w w₁ := by
  unfold World.tell at h
  simp only [Option.bind_eq_bind, Option.bind_eq_some_iff] at h
  obtain ⟨x, hx, ⟨g, v⟩, halloc, h⟩ := h
  have hsub : ∀ p ∈ sub.bind x.subscriptions.get, Points w.heap p Tag.IsSub := by
    intro p hp
    obtain ⟨topic, -, hget⟩ := Option.bind_eq_some_iff.mp hp
    have hentry := (hO.sound_mod hx).subscriptions _ (NameTable.mem_of_get hget)
    exact hentry.mono (fun _ ht => ⟨_, ht⟩)
  have hv := hO.passes_allocPsMsg hK hsub halloc
  split at h
  next =>
    cases h
    exact ⟨hv.owned, hv.grown⟩
  next => cases h

theorem passes_flushMsg {m : ℕ} {stopping : Bool} {flushed : Flushed}
    (h : w.flushMsg m stopping = some (flushed, w₁)) : Passes K ext [] w w₁ := by
  unfold World.flushMsg at h
  simp only [Option.bind_eq_bind, Option.bind_eq_some_iff] at h
  obtain ⟨x, -, h⟩ := h
  split at h
  next =>
    cases h
    exact hO.stay rfl
  next =>
    have hread : Passes K ext [] w { w with sys := (w.sys.readMsg x.pubsubFd0).2 } := hO.stay rfl
    split at h
    next =>
      cases h
      exact hread
    next mm _ =>
      simp only [Option.bind_eq_some_iff] at h
      obtain ⟨g, hg, h⟩ := h
      split at h
      next =>
        simp only [Option.bind_eq_some_iff, Option.some.injEq] at h
        obtain ⟨⟨e, u⟩, hnew, v, hset, h⟩ := h
        cases h
        have hu := hread.owned.passes_newEvt hK hnew
        apply (hread.trans hu).trans
        refine hu.owned.passes_setEvt hset hK ?_ (by rintro _ ⟨⟩) (fun _ _ _ => rfl)
        intro y _ hy
        exact
          { src := hy.src
            data := by
              intro g' hg'
              cases hg'
              exact Points.grown (.of_val (msgAt_eq_some.mp hg) rfl) hu.grown }
      next =>
        simp only [Option.bind_eq_some_iff, Option.some.injEq] at h
        obtain ⟨u, hunref, h⟩ := h
        cases h
        exact hread.trans ((hread.owned.cons_msg hK hg).passes_unrefAll hunref)

theorem passes_processPs {e : ℕ} {src : Option ℕ} (h : w.processPs e = some (src, w₁)) :
    Passes K ext [] w w₁ := by
  unfold World.processPs at h
  simp only [Option.bind_eq_bind, Option.bind_eq_some_iff] at h
  obtain ⟨x, hx, this, hthis, s, -, h⟩ := h
  have hread : Passes K ext [] w { w with sys := (w.sys.readMsg s.fd).2 } := hO.stay rfl
  split at h
  next =>
    cases h
    exact hread
  next mm _ =>
    simp only [Option.bind_eq_some_iff] at h
    obtain ⟨g, hg, u, hset, v, hunref, h⟩ := h
    have hxs := hO.sound_evt hx
    have hu : Passes K ext [this] { w with sys := (w.sys.readMsg s.fd).2 } u := by
      refine hread.owned.passes_setEvt hset hK ?_ ?_ ?_
      · intro y _ hy
        exact
          { src := by simp
            data := by
              intro g' hg'
              cases hg'
              exact .of_val (msgAt_eq_some.mp hg) rfl }
      · intro q hq
        obtain rfl := List.mem_singleton.mp hq
        exact (hxs.src q hthis).1
      · intro y q hy
        cases hx.symm.trans hy
        simp [hthis]
    have hv := (hread.trans hu).trans (hu.owned.passes_unrefAll hunref)
    have hnone : ∀ y, evtAt v.heap e = some y → y.src = none := by
      intro y hy
      have hbefore := World.val_of_unrefAll hunref (evtAt_eq_some.mp hy)
      obtain ⟨-, rfl⟩ := World.setEvt_eq_some.mp hset
      rw [val_modify, if_pos rfl, evtAt_eq_some.mp hx] at hbefore
      cases hbefore
      rfl
    have hsub := (hO.sound_msg hg).sub
    have hlast : ∀ y z, Passes K ext g.sub.toList v y →
        (∀ q, val y.heap q = val v.heap q) →
        y.setEvt e (fun y => { y with src := g.sub }) = some z → Passes K ext [] y z := by
      intro y z hy hsame hset'
      refine hy.owned.passes_setEvt hset' hK ?_ (by rintro _ ⟨⟩) ?_
      · intro y' _ hy'
        exact
          { src := by
              intro p hp
              exact (((hsub p hp).grown hv.grown).grown hy.grown).mono (fun _ ht => .inr ht)
            data := hy'.data }
      · intro y' q hy'
        rw [evtAt_eq_some, hsame] at hy'
        simp [hnone y' (evtAt_eq_some.mpr hy')]
    split at h
    next hnosub =>
      simp only [Option.bind_eq_some_iff, Option.some.injEq] at h
      obtain ⟨_, rfl, y, hset', h⟩ := h
      cases h
      refine hv.trans (hlast _ _ ?_ (fun _ => rfl) hset')
      rw [hnosub]
      exact hv.owned.stay rfl
    next sub hsome =>
      simp only [Option.bind_eq_some_iff, Option.some.injEq] at h
      obtain ⟨y, href, z, hset', h⟩ := h
      cases h
      have hy : Passes K ext g.sub.toList v y := by
        rw [hsome]
        exact hv.owned.passes_ref href
      exact (hv.trans hy).trans (hlast _ _ hy (World.val_ref href) hset')

omit hO in
/-- A module that is stored in a table is no longer held by the operation. -/
theorem passes_modulesPut {c m : ℕ} {name : String} {ret : ℤ}
    (hO : Owned K ext (m :: hands) w.heap) (hname : Points w.heap m (· = .mod name))
    (h : w.modulesPut c name m = some (ret, w₁)) :
    Passes K ext (if ret = 0 then hands else m :: hands) w w₁ := by
  unfold World.modulesPut at h
  simp only [Option.bind_eq_bind, Option.bind_eq_some_iff] at h
  obtain ⟨x, hx, y, hy, h⟩ := h
  split at h
  next =>
    cases h
    rw [if_neg (by decide)]
    exact hO.stay rfl
  next hnew =>
    simp only [Option.bind_eq_some_iff, Option.some.injEq] at h
    obtain ⟨u, hset, h⟩ := h
    cases h
    rw [if_pos rfl]
    have hkeys := (hO.sound_ctx hx).names
    have hnone : x.modules.get name = none := by
      rw [NameTable.get_eq_none, ← NameTable.contains_iff]
      exact hnew
    have hsound : ∀ z, ctxAt w.heap c = some z → z.Sound w.heap →
        Ctx.Sound w.heap { z with modules := z.modules.put w.host name m } := by
      intro z _ hz
      exact
        { hz with
          modules := by
            intro entry hentry
            rcases NameTable.mem_put hentry with rfl | hentry
            · exact hname
            · exact hz.modules entry hentry
          names := NameTable.put_keys hz.names }
    refine hO.passes_setCtx hset hsound
      (fun q hq => hO.hands_lt q (List.mem_cons_of_mem _ hq)) ?_ ?_
    · intro z q o hz hzs ho hcounted
      cases hx.symm.trans hz
      rw [(hsound x hx hzs).count_owns hK ho hcounted, hzs.count_owns hK ho hcounted]
      have hput := @NameTable.count_put _ name m w.host hkeys q
      rw [hnone] at hput
      simp only [Option.toList_none, List.count_nil, List.count_cons] at hput ⊢
      omega
    · intro z _ entry hentry
      rcases NameTable.mem_put hentry with rfl | hentry
      · exact .inr ⟨_, modAt_eq_some.mp hy⟩
      · exact .inl hentry

theorem passes_modulesRemove {c : ℕ} {name : String} {ret : ℤ}
    (h : w.modulesRemove c name = some (ret, w₁)) : Passes K ext [] w w₁ := by
  unfold World.modulesRemove at h
  simp only [Option.bind_eq_bind, Option.bind_eq_some_iff] at h
  obtain ⟨x, hx, h⟩ := h
  split at h
  next =>
    cases h
    exact hO.stay rfl
  next =>
    split at h
    next =>
      cases h
      exact hO.stay rfl
    next m hget =>
      simp only [Option.bind_eq_some_iff, Option.some.injEq] at h
      obtain ⟨u, hset, v, hunref, h⟩ := h
      cases h
      have hxs := hO.sound_ctx hx
      have hsound : ∀ z, ctxAt w.heap c = some z → z.Sound w.heap →
          Ctx.Sound w.heap { z with modules := z.modules.remove name } := by
        intro z _ hz
        exact
          { hz with
            modules := fun entry hentry => hz.modules entry (NameTable.mem_remove hentry)
            names := NameTable.remove_keys hz.names }
      have hu : Passes K ext [m] w u := by
        refine hO.passes_setCtx hset hsound ?_ ?_
          (fun _ _ entry hentry => .inl (NameTable.mem_remove hentry))
        · intro q hq
          obtain rfl := List.mem_singleton.mp hq
          exact (hxs.modules _ (NameTable.mem_of_get hget)).1
        · intro z q o hz hzs ho hcounted
          cases hx.symm.trans hz
          rw [(hsound x hx hzs).count_owns hK ho hcounted, hzs.count_owns hK ho hcounted]
          have hremove := @NameTable.count_remove name _ hzs.names q
          rw [hget, Option.toList_some] at hremove
          exact hremove
      exact hu.trans (hu.owned.passes_unrefAll hunref)

theorem passes_buildMod {c m flags : ℕ} {name : String} {hook : Option ModHooks} {ret e : ℤ}
    (h : w.buildMod e c name flags hook = some ((ret, m), w₁)) : Passes K ext [] w w₁ := by
  unfold World.buildMod at h
  simp only [Option.bind_eq_bind, Option.bind_eq_some_iff] at h
  obtain ⟨u, href, h⟩ := h
  have hu := hO.passes_ref href
  have hsound : Mod.Sound u.heap (Mod.initial c name flags hook) :=
    { ctx := hu.owned.hands_lt c List.mem_cons_self
      subscriptions := by simp [Mod.initial]
      topics := by simp [Mod.initial]
      stashed := by simp [Mod.initial]
      batchEvents := by simp [Mod.initial]
      boundMods := by simp [Mod.initial]
      srcs := by simp [Mod.initial] }
  have hnew : Passes K ext [u.heap.length] u
      (u.new (.mod (Mod.initial c name flags hook))).2 :=
    Owned.passes_new hu.owned hsound rfl
  split at h
  next =>
    simp only [Option.bind_eq_some_iff, Option.some.injEq] at h
    obtain ⟨v, hunref, h⟩ := h
    cases h
    exact (hu.trans hnew).trans (hnew.owned.passes_unrefAll hunref)
  next =>
    simp only [Option.bind_eq_some_iff] at h
    obtain ⟨⟨put, v⟩, hput, h⟩ := h
    have hname : Points (u.new (.mod (Mod.initial c name flags hook))).2.heap u.heap.length
        (· = .mod name) := .of_val (by rw [World.new, val_alloc, if_pos rfl]) rfl
    have hv := passes_modulesPut hK hnew.owned hname hput
    split at h
    next hfailed =>
      rw [if_neg hfailed] at hv
      simp only [Option.bind_eq_some_iff, Option.some.injEq] at h
      obtain ⟨y, hunref, h⟩ := h
      cases h
      exact ((hu.trans hnew).trans hv).trans (hv.owned.passes_unrefAll hunref)
    next hstored =>
      rw [if_pos (Classical.not_not.mp hstored)] at hv
      simp only [Option.bind_eq_some_iff, Option.some.injEq] at h
      obtain ⟨y, hset, h⟩ := h
      cases h
      exact ((hu.trans hnew).trans hv).trans (hv.owned.passes_setMod_same hK hset
        (fun _ => rfl) (fun _ _ hx => { hx with }) (fun _ => ⟨rfl, rfl, rfl⟩))

theorem passes_newMod {c m flags : ℕ} {name : String} {hook : Option ModHooks} {ret : ℤ}
    (h : w.newMod c name flags hook = some ((ret, m), w₁)) : Passes K ext [] w w₁ := by
  have hsys : Passes K ext [] w { w with sys := w.sys.fault.2 } := hO.stay rfl
  exact hsys.trans (hsys.owned.passes_buildMod hK h)

omit hO in
/-- A subscription that is stored in a table takes the place of the one it replaces. -/
theorem passes_putSub {m sub : ℕ} {topic : String} {x : Mod} (hO : Owned K ext [sub] w.heap)
    (hsub : Points w.heap sub (· = .sub topic)) (hthere : ∃ y, val w.heap sub = some y)
    (hx : modAt w.heap m = some x)
    (h : w.setMod m (fun x => { x with subscriptions := x.subscriptions.put w.host topic sub }) =
      some w₁) : Passes K ext (x.subscriptions.get topic).toList w w₁ := by
  have hxs := hO.sound_mod hx
  have hsound : ∀ y : Mod, y.Sound w.heap →
      Mod.Sound w.heap { y with subscriptions := y.subscriptions.put w.host topic sub } := by
    intro y hy
    exact
      { hy with
        subscriptions := by
          intro entry hentry
          rcases NameTable.mem_put hentry with rfl | hentry
          · exact hsub
          · exact hy.subscriptions entry hentry
        topics := NameTable.put_keys hy.topics }
  refine hO.passes_setMod h (fun _ => rfl) (fun y _ hy => hsound y hy) ?_ ?_ ?_
  · intro q hq
    exact (hxs.subscriptions _ (NameTable.mem_of_get (Option.mem_toList.mp hq))).1
  · intro y q o hy hys ho hcounted
    cases hx.symm.trans hy
    rw [(hsound x hys).count_owns hK ho hcounted, hys.count_owns hK ho hcounted]
    have hput := @NameTable.count_put _ topic sub w.host hys.topics q
    simp only at hput ⊢
    omega
  · intro y _ entry hentry
    rcases NameTable.mem_put hentry with rfl | hentry
    · exact .inr hthere
    · exact .inl hentry

theorem passes_subscriptionsPut {m : ℕ} {topic : String} {flags : ℕ} {userptr : Userptr}
    {ret : ℤ} (h : w.subscriptionsPut m topic flags userptr = some (ret, w₁)) :
    Passes K ext [] w w₁ := by
  unfold World.subscriptionsPut at h
  simp only [Option.bind_eq_bind, Option.bind_eq_some_iff, Option.some.injEq] at h
  obtain ⟨x, hx, u, hset, v, hunref, h⟩ := h
  cases h
  generalize hsubscription : EvSource.subscription m topic flags userptr = sub at hset
  have hnew : Passes K ext [w.heap.length] w (w.new (.src sub)).2 := Owned.passes_new hO trivial rfl
  have hval : val (w.new (.src sub)).2.heap w.heap.length = some (.src sub) := by
    rw [World.new, val_alloc, if_pos rfl]
  have hsub : Points (w.new (.src sub)).2.heap w.heap.length (· = .sub topic) := by
    apply Points.of_val hval
    rw [← hsubscription]
    rfl
  have hstill : modAt (w.new (.src sub)).2.heap m = some x := by
    have hval := modAt_eq_some.mp hx
    have hlt : m < w.heap.length := (Points.of_val (Q := fun _ => True) hval trivial).1
    rw [modAt_eq_some, World.new, val_alloc, if_neg hlt.ne, hval]
  have hu := passes_putSub hK hnew.owned hsub ⟨_, hval⟩ hstill hset
  exact (hnew.trans hu).trans (Owned.passes_unrefAll (by simpa using hu.owned) hunref)

theorem passes_subscriptionsRemove {m : ℕ} {topic : String} {ret : ℤ}
    (h : w.subscriptionsRemove m topic = some (ret, w₁)) : Passes K ext [] w w₁ := by
  unfold World.subscriptionsRemove at h
  simp only [Option.bind_eq_bind, Option.bind_eq_some_iff] at h
  obtain ⟨x, hx, h⟩ := h
  split at h
  next =>
    cases h
    exact hO.stay rfl
  next =>
    split at h
    next =>
      cases h
      exact hO.stay rfl
    next sub hget =>
      simp only [Option.bind_eq_some_iff, Option.some.injEq] at h
      obtain ⟨u, hset, v, hunref, h⟩ := h
      cases h
      have hxs := hO.sound_mod hx
      have hsound : ∀ y : Mod, y.Sound w.heap →
          Mod.Sound w.heap { y with subscriptions := y.subscriptions.remove topic } := by
        intro y hy
        exact
          { hy with
            subscriptions := fun entry hentry =>
              hy.subscriptions entry (NameTable.mem_remove hentry)
            topics := NameTable.remove_keys hy.topics }
      have hu : Passes K ext [sub] w u := by
        refine hO.passes_setMod hset (fun _ => rfl) (fun y _ hy => hsound y hy) ?_ ?_
          (fun _ _ entry hentry => .inl (NameTable.mem_remove hentry))
        · intro q hq
          obtain rfl := List.mem_singleton.mp hq
          exact (hxs.subscriptions _ (NameTable.mem_of_get hget)).1
        · intro y q o hy hys ho hcounted
          cases hx.symm.trans hy
          rw [(hsound x hys).count_owns hK ho hcounted, hys.count_owns hK ho hcounted]
          have hremove := @NameTable.count_remove topic _ hys.topics q
          rw [hget, Option.toList_some] at hremove
          simp only [List.count_nil] at hremove ⊢
          omega
      exact hu.trans (hu.owned.passes_unrefAll hunref)

/-! ### Trees -/

/-- A tree of pointers to sources may replace another. -/
theorem passes_setTree {m : ℕ} {type : MSrcType} {t : NodeTree ℕ}
    (ht : ∀ p ∈ t.values, Points w.heap p (· = .src))
    (h : w.setTree m type t = some w₁) : Passes K ext [] w w₁ := by
  apply hO.passes_setMod_same hK h (fun _ => rfl) _ (fun _ => ⟨rfl, rfl, rfl⟩)
  intro x _ hx
  refine { hx with srcs := ?_ }
  intro type' p hp
  by_cases htype : type' = type
  · subst htype
    exact ht p (by simpa using hp)
  · exact hx.srcs type' p (by simpa [htype] using hp)

theorem passes_unrefSrcs {ps : List ℕ} (hps : ∀ p ∈ ps, Points w.heap p (· = .src))
    (h : w.unrefAll ps = some w₁) : Passes K ext [] w w₁ :=
  (hO.drop_uncounted hps (fun _ ht heq => hK.src (heq ▸ ht))).passes_unrefAll h

end Owned

end Operations

section Trees

variable {actual : ℕ → Option ℤ} {id data : ℕ} {t t' : NodeTree ℕ} {ret : ℤ}

theorem mem_treeInsert (h : treeInsert actual id data t = some (ret, t')) {p : ℕ}
    (hp : p ∈ t'.values) : p = data ∨ p ∈ t.values := by
  obtain ⟨⟨c, r⟩, hseek, h⟩ := Option.bind_eq_some_iff.mp h
  obtain ⟨-, hside⟩ := seekBy_agrees hseek
  have hplug := plug_seek (fun value => (actual value).getD 0) [] t
  rw [hside] at hplug
  change plug c r = t at hplug
  subst hplug
  cases r with
  | leaf =>
      cases h
      rw [Bst.values_plug] at hp ⊢
      simp only [NodeTree.values_node, NodeTree.values_leaf, List.nil_append, List.mem_append,
        List.mem_singleton] at hp ⊢
      tauto
  | node =>
      cases h
      exact .inr hp

theorem mem_destroyedRoot {p : ℕ} (hp : p ∈ destroyedRoot t) : p ∈ t.values := by
  unfold destroyedRoot at hp
  split at hp
  next => cases hp
  next => cases hp; simp
  next => cases hp; simp
  next _ _ _ right _ _ =>
    rw [NodeTree.values_node]
    exact List.mem_append_right _ (List.mem_cons_of_mem _ (List.mem_of_mem_head? hp))

theorem mem_treeRemove {gone : Option ℕ} (h : treeRemove actual t = some (ret, t', gone)) :
    (∀ p ∈ t'.values, p ∈ t.values) ∧ ∀ p ∈ gone, p ∈ t.values := by
  unfold treeRemove at h
  split at h
  next =>
    cases h
    exact ⟨fun _ hp => hp, by rintro _ ⟨⟩⟩
  next =>
    obtain ⟨⟨c, r⟩, hseek, h⟩ := Option.bind_eq_some_iff.mp h
    obtain ⟨-, hside⟩ := seekBy_agrees hseek
    have hplug := plug_seek (fun value => (actual value).getD 0) [] t
    rw [hside] at hplug
    change plug c r = t at hplug
    subst hplug
    cases r with
    | leaf =>
        cases h
        exact ⟨fun _ hp => hp, by rintro _ ⟨⟩⟩
    | node n left value right =>
        cases h
        refine ⟨fun p hp => ?_, fun p hp => ?_⟩
        · rw [Bst.values_plug, values_removeRoot] at hp
          rw [Bst.values_plug, NodeTree.values_node]
          simp only [List.mem_append, List.mem_cons] at hp ⊢
          tauto
        · rw [Bst.values_plug]
          simp only [List.mem_append]
          exact .inl (.inr (mem_destroyedRoot hp))

theorem mem_removeFirst {p : ℕ} (hp : p ∈ (removeFirst t).values) : p ∈ t.values := by
  rw [Bst.values_removeFirst] at hp
  exact List.mem_of_mem_tail hp

theorem mem_destroyedFirst {p : ℕ} (hp : p ∈ destroyedRoot (leftmost [] t).2) :
    p ∈ t.values := by
  cases t with
  | leaf => cases hp
  | node id left value right =>
      obtain ⟨d, n, v, r, hmost, hplug, -⟩ := leftmost_spec id left value right
      have hfirst := hmost []
      rw [List.append_nil] at hfirst
      rw [hfirst] at hp
      rw [← hplug, Bst.values_plug]
      simp only [List.mem_append]
      exact .inl (.inr (mem_destroyedRoot hp))

end Trees

namespace Owned

section More

variable {K : Tag → Prop} {ext : ℕ → ℕ} {w w₁ : World} (hK : Countable K)
  (hO : Owned K ext [] w.heap)

include hK hO

theorem passes_addSrc {m flags p : ℕ} {type : MSrcType} {key : Words} {userptr : Userptr}
    {ret : ℤ} (h : w.addSrc m type key flags userptr = some ((ret, p), w₁)) :
    Passes K ext [] w w₁ := by
  unfold World.addSrc at h
  simp only [Option.bind_eq_bind, Option.bind_eq_some_iff] at h
  obtain ⟨x, hx, ⟨found, t⟩, hinsert, h⟩ := h
  generalize hcreate : World.createSrc (some m) type key flags userptr w.sys = created at *
  have htopic : created.1.topic = none := by
    rw [← hcreate]
    unfold World.createSrc
    dsimp only
    split
    case h_1 | h_2 => split <;> rfl
    all_goals rfl
  have hnew : Passes K ext [w.heap.length] w
      (World.new { w with sys := created.2 } (.src created.1)).2 := by
    have hsys : Passes K ext [] w { w with sys := created.2 } := hO.stay rfl
    exact hsys.trans (Owned.passes_new (o := .src _) hsys.owned trivial rfl)
  have hsrc : Points (World.new { w with sys := created.2 } (.src created.1)).2.heap w.heap.length
      (· = .src) := by
    apply Points.of_val (by rw [World.new, val_alloc, if_pos rfl])
    simp [Obj.tag, htopic]
  have hdown := hnew.owned.put_down hsrc (fun _ ht heq => hK.src (heq ▸ ht))
  split at h
  next =>
    simp only [Option.bind_eq_some_iff, Option.some.injEq] at h
    obtain ⟨u, hset, h⟩ := h
    cases h
    refine hnew.trans (hdown.passes_setTree hK ?_ hset)
    intro q hq
    rcases mem_treeInsert hinsert hq with rfl | hq
    · exact hsrc
    · exact (hdown.sound_mod hx).srcs type q hq
  next =>
    simp only [Option.bind_eq_some_iff, Option.some.injEq] at h
    obtain ⟨u, hunref, h⟩ := h
    cases h
    exact hnew.trans (hnew.owned.passes_unrefAll hunref)

theorem passes_bstRemove {m : ℕ} {type : MSrcType} {data : Words} {ret : ℤ}
    (h : w.bstRemove m type data = some (ret, w₁)) : Passes K ext [] w w₁ := by
  unfold World.bstRemove at h
  simp only [Option.bind_eq_bind, Option.bind_eq_some_iff, Option.some.injEq] at h
  obtain ⟨x, hx, ⟨found, t, destroyed⟩, hremove, u, hset, v, hunref, h⟩ := h
  cases h
  obtain ⟨hkept, hgone⟩ := mem_treeRemove hremove
  have hsrcs := (hO.sound_mod hx).srcs type
  have hu := hO.passes_setTree hK (fun p hp => hsrcs p (hkept p hp)) hset
  apply hu.trans (hu.owned.passes_unrefSrcs hK _ hunref)
  intro p hp
  exact (hsrcs p (hgone p (Option.mem_toList.mp hp))).grown hu.grown

theorem passes_bstItrRemove {m : ℕ} {type : MSrcType} {ret : ℤ}
    (h : w.bstItrRemove m type = some (ret, w₁)) : Passes K ext [] w w₁ := by
  unfold World.bstItrRemove at h
  simp only [Option.bind_eq_bind, Option.bind_eq_some_iff, Option.some.injEq] at h
  obtain ⟨x, hx, u, hset, v, hunref, h⟩ := h
  cases h
  have hsrcs := (hO.sound_mod hx).srcs type
  have hu := hO.passes_setTree hK (fun p hp => hsrcs p (mem_removeFirst hp)) hset
  apply hu.trans (hu.owned.passes_unrefSrcs hK _ hunref)
  intro p hp
  exact (hsrcs p (mem_destroyedFirst (Option.mem_toList.mp hp))).grown hu.grown

theorem passes_pipe {m : ℕ} {ret : ℤ} (h : w.pipe m = some (ret, w₁)) :
    Passes K ext [] w w₁ := by
  unfold World.pipe at h
  split at h
  next =>
    cases h
    exact hO.stay rfl
  next fd0 fd1 sys _ =>
    simp only [Option.bind_eq_bind, Option.bind_eq_some_iff, Option.some.injEq] at h
    obtain ⟨u, hset, h⟩ := h
    cases h
    have hsys : Passes K ext [] w { w with sys := sys } := hO.stay rfl
    exact hsys.trans (hsys.owned.passes_setMod_same hK hset (fun _ => rfl)
      (fun _ _ hx => { hx with }) (fun _ => ⟨rfl, rfl, rfl⟩))

omit hK in
theorem passes_pollSetEvt {c src : ℕ} {flag : OpType} {ret : ℤ}
    (h : w.pollSetEvt c src flag = some (ret, w₁)) : Passes K ext [] w w₁ := by
  unfold World.pollSetEvt at h
  simp only [Option.bind_eq_bind, Option.bind_eq_some_iff, Option.some.injEq] at h
  obtain ⟨s, hsrc, x, -, u, hset, h⟩ := h
  cases h
  have hsys : Passes K ext [] w { w with sys := (pollSetNewEvt c src s flag w.sys).2.2 } :=
    hO.stay rfl
  apply hsys.trans (hsys.owned.passes_setSrc hset _)
  intro y hy
  cases hsrc.symm.trans hy
  exact (pollSetNewEvt_same w.sys c src s flag).2.1

theorem passes_pollWait {c : ℕ} {blocking : Bool} {nfds : Option ℕ}
    (h : w.pollWait c blocking = some (nfds, w₁)) : Passes K ext [] w w₁ := by
  unfold World.pollWait at h
  simp only [Option.bind_eq_bind, Option.bind_eq_some_iff] at h
  obtain ⟨x, -, slots, -, h⟩ := h
  split at h
  next => split at h <;> cases h <;> exact hO.stay rfl
  next answer polls _ =>
    split at h
    next =>
      cases h
      exact hO.stay rfl
    next =>
      simp only [Option.bind_eq_some_iff, Option.some.injEq] at h
      obtain ⟨u, hset, h⟩ := h
      cases h
      have hpolls : Passes K ext [] w { w with polls := polls } := hO.stay rfl
      have hu := hpolls.trans (hpolls.owned.passes_setCtx_same hK hset
        (fun _ _ hx => { hx with }) (fun _ => rfl))
      exact hu.trans (hu.owned.stay rfl)

omit hK in
theorem passes_pollRecv {src : Option ℕ} (h : w.pollRecv = some (src, w₁)) :
    Passes K ext [] w w₁ := by
  unfold World.pollRecv at h
  split at h
  next => cases h
  next batch batches _ =>
    simp only [Option.bind_eq_bind, Option.bind_eq_some_iff] at h
    obtain ⟨x, -, slots, -, h⟩ := h
    split at h
    next =>
      cases h
      exact hO.stay rfl
    next => cases h

theorem passes_newTick {c ns : ℕ} (h : (Op.newTick c ns).exec w = some ((), w₁)) :
    Passes K ext [] w w₁ := by
  simp only [Op.exec, Option.bind_eq_bind, Option.bind_eq_some_iff, Option.some.injEq] at h
  obtain ⟨u, hset, h⟩ := h
  cases h
  generalize hcreate : World.createSrc none .tmr (tmrKey ns) 0 (.user 0) w.sys = created at hset
  have htopic : created.1.topic = none := by
    rw [← hcreate]
    rfl
  have hnew : Passes K ext [w.heap.length] w (World.new { w with sys := created.2 }
      (.src { created.1 with flags := M_SRC_PRIO_HIGH ||| M_SRC_INTERNAL })).2 := by
    have hsys : Passes K ext [] w { w with sys := created.2 } := hO.stay rfl
    exact hsys.trans (Owned.passes_new (o := .src _) hsys.owned trivial rfl)
  have hsrc : Points (World.new { w with sys := created.2 }
      (.src { created.1 with flags := M_SRC_PRIO_HIGH ||| M_SRC_INTERNAL })).2.heap w.heap.length
      (· = .src) := by
    apply Points.of_val (by rw [World.new, val_alloc, if_pos rfl])
    simp [Obj.tag, htopic]
  have hdown := hnew.owned.put_down hsrc (fun _ ht heq => hK.src (heq ▸ ht))
  refine hnew.trans (hdown.passes_setCtx_same hK hset ?_ (fun _ => rfl))
  intro x _ hx
  exact
    { hx with
      tick := by
        intro p hp
        cases hp
        exact hsrc }

theorem passes_dropTick {c : ℕ} (h : (Op.dropTick c).exec w = some ((), w₁)) :
    Passes K ext [] w w₁ := by
  simp only [Op.exec, Option.bind_eq_bind, Option.bind_eq_some_iff, Option.some.injEq] at h
  obtain ⟨x, hx, u, hset, v, hunref, h⟩ := h
  cases h
  have hu : Passes K ext [] w u := hO.passes_setCtx_same hK hset
    (fun _ _ hy => { hy with tick := by rintro _ ⟨⟩ }) (fun _ => rfl)
  apply hu.trans (hu.owned.passes_unrefSrcs hK _ hunref)
  intro p hp
  exact ((hO.sound_ctx hx).tick p (Option.mem_toList.mp hp)).grown hu.grown

theorem passes_clear {m : ℕ} {queue : ModQueue}
    (h : (Op.clear m queue).exec w = some ((), w₁)) : Passes K ext [] w w₁ := by
  simp only [Op.exec, Option.bind_eq_bind, Option.bind_eq_some_iff, Option.some.injEq] at h
  obtain ⟨x, hx, u, hset, v, hunref, h⟩ := h
  cases h
  have hxs := hO.sound_mod hx
  have hsound : ∀ y : Mod, y.Sound w.heap → (queue.clear y).Sound w.heap := by
    intro y hy
    cases queue with
    | subscriptions => exact { hy with subscriptions := by rintro _ ⟨⟩, topics := List.nodup_nil }
    | stashed => exact { hy with stashed := by rintro _ ⟨⟩ }
    | batchEvents => exact { hy with batchEvents := by rintro _ ⟨⟩ }
    | boundMods => exact { hy with boundMods := by rintro _ ⟨⟩ }
  have hu : Passes K ext (queue.elems x) w u := by
    refine hO.passes_setMod hset (fun _ => by cases queue <;> rfl) (fun y _ hy => hsound y hy)
      ?_ ?_ ?_
    · intro q hq
      cases queue with
      | subscriptions =>
          obtain ⟨entry, hentry, rfl⟩ := List.mem_map.mp hq
          exact (hxs.subscriptions entry hentry).1
      | stashed => exact (hxs.stashed q hq).1
      | batchEvents => exact (hxs.batchEvents q hq).1
      | boundMods => exact (hxs.boundMods q hq).1
    · intro y q o hy hys ho hcounted
      cases hx.symm.trans hy
      rw [(hsound x hys).count_owns hK ho hcounted, hys.count_owns hK ho hcounted]
      cases queue with
      | subscriptions => simp [ModQueue.clear, ModQueue.elems, NameTable.values, Nat.add_right_comm]
      | stashed => simp [ModQueue.clear, ModQueue.elems, hK.evts hxs.stashed ho hcounted]
      | batchEvents => simp [ModQueue.clear, ModQueue.elems, hK.evts hxs.batchEvents ho hcounted]
      | boundMods => simp [ModQueue.clear, ModQueue.elems]
    · intro y _ entry hentry
      cases queue with
      | subscriptions => cases hentry
      | _ => exact .inl hentry
  exact hu.trans (Owned.passes_unrefAll (by simpa using hu.owned) hunref)

theorem passes_bind {m ref : ℕ} (h : (Op.bind m ref).exec w = some ((), w₁)) :
    Passes K ext [] w w₁ := by
  simp only [Op.exec, Option.bind_eq_bind, Option.bind_eq_some_iff, Option.some.injEq] at h
  obtain ⟨x, hx, u, href, v, hset, h⟩ := h
  cases h
  have hu := hO.passes_ref href
  have hm : Points u.heap m Tag.IsMod :=
    Points.grown (.of_val (modAt_eq_some.mp hx) ⟨x.name, rfl⟩) hu.grown
  have hsound : ∀ y : Mod, y.Sound u.heap →
      Mod.Sound u.heap { y with boundMods := m :: y.boundMods } := by
    intro y hy
    refine { hy with boundMods := ?_ }
    intro p hp
    rcases List.mem_cons.mp hp with rfl | hp
    · exact hm
    · exact hy.boundMods p hp
  refine hu.trans (hu.owned.passes_setMod hset (fun _ => rfl) (fun y _ hy => hsound y hy)
    (by rintro _ ⟨⟩) ?_ (fun _ _ _ hentry => .inl hentry))
  intro y q o _ hys ho hcounted
  rw [(hsound y hys).count_owns hK ho hcounted, hys.count_owns hK ho hcounted]
  simp only [List.count_cons, List.count_nil]
  omega

theorem passes_stash {m e : ℕ} (h : (Op.stash m e).exec w = some ((), w₁)) :
    Passes K ext [] w w₁ := by
  simp only [Op.exec, Option.bind_eq_bind, Option.bind_eq_some_iff, Option.some.injEq] at h
  obtain ⟨x, hx, u, href, v, hset, h⟩ := h
  cases h
  have hu := hO.passes_ref href
  have he : Points u.heap e (· = .evt) := Points.grown (.of_val (evtAt_eq_some.mp hx) rfl) hu.grown
  have hdown := hu.owned.put_down he (fun _ ht heq => hK.evt (heq ▸ ht))
  refine hu.trans (hdown.passes_setMod_same hK hset (fun _ => rfl) ?_ (fun _ => ⟨rfl, rfl, rfl⟩))
  intro y _ hy
  refine { hy with stashed := ?_ }
  intro p hp
  rcases List.mem_append.mp hp with hp | hp
  · exact hy.stashed p hp
  · rwa [List.mem_singleton.mp hp]

end More

end Owned

/-! ## Every operation -/

/-- The reference that the code or the user gives back. -/
def Op.takes : Op → Option ℕ
  | .unrefMod m => some m
  | .unrefCtx c => some c
  | _ => none

/-- What the code and the user hold after an operation. -/
def Op.account (o : Op) (r : o.Resp) (ext : ℕ → ℕ) : ℕ → ℕ :=
  match o, r with
  | .refMod m, _ => Function.update ext m (ext m + 1)
  | .newCtx _, c => Function.update ext c (ext c + 1)
  | .unrefMod m, _ => Function.update ext m (ext m - 1)
  | .unrefCtx c, _ => Function.update ext c (ext c - 1)
  | _, _ => ext

section Every

variable {K : Tag → Prop} {ext : ℕ → ℕ} {w w' : World}

/-- A reference is given back, whether it is accounted for or not. -/
theorem Owned.passes_unref (hO : Owned K ext [] w.heap) {p : ℕ} {o : Obj}
    (ho : val w.heap p = some o) (htakes : K o.tag → 0 < ext p)
    (h : w.unrefAll [p] = some w') :
    Passes K (Function.update ext p (ext p - 1)) [] w w' := by
  by_cases hcounted : K o.tag
  · exact (hO.take (htakes hcounted)).passes_unrefAll h
  · have hp : Points w.heap p (fun t => ¬ K t) := .of_val ho hcounted
    have hw' := (hO.forget hp (fun _ ht hnot => hnot ht)).passes_unrefAll h
    refine ⟨hw'.owned.reext ?_ ?_, hw'.grown⟩
    · intro q hq
      rw [Function.update_apply]
      split
      next hqp =>
        subst hqp
        exact absurd hp.1 (by have := hw'.grown.length; omega)
      next => exact hw'.owned.ext_lt q hq
    · intro q o' ho' hK
      rw [Function.update_of_ne]
      rintro rfl
      exact (hp.grown hw'.grown).2 o' ho' hK

theorem Op.owned {o : Op} {r : o.Resp} (hK : Countable K) (hO : Owned K ext [] w.heap)
    (htakes : ∀ p ∈ o.takes, ∀ x, val w.heap p = some x → K x.tag → 0 < ext p)
    (h : o.exec w = some (r, w')) : Passes K (o.account r ext) [] w w' := by
  cases o with
  | get => cases h; exact hO.stay rfl
  | setErrno | setTls | pollDone | close | readPriv | threadAdd => cases h; exact hO.stay rfl
  | newMod => exact hO.passes_newMod hK h
  | newTick => exact hO.passes_newTick hK h
  | dropTick => exact hO.passes_dropTick hK h
  | newEvt => exact hO.passes_newEvt hK h
  | processPs => exact hO.passes_processPs hK h
  | modulesRemove => exact hO.passes_modulesRemove hK h
  | subscriptionsPut => exact hO.passes_subscriptionsPut hK h
  | subscriptionsRemove => exact hO.passes_subscriptionsRemove hK h
  | flushMsg => exact hO.passes_flushMsg hK h
  | addSrc => exact hO.passes_addSrc hK h
  | bstRemove => exact hO.passes_bstRemove hK h
  | bstItrRemove => exact hO.passes_bstItrRemove hK h
  | pipe => exact hO.passes_pipe hK h
  | pollSetNewEvt => exact hO.passes_pollSetEvt h
  | pollWait => exact hO.passes_pollWait hK h
  | pollRecv => exact hO.passes_pollRecv h
  | clear => exact hO.passes_clear hK h
  | bind => exact hO.passes_bind hK h
  | stash => exact hO.passes_stash hK h
  | newCtx flags =>
      cases h
      have hsound : Ctx.Sound w.heap (Ctx.initial flags) :=
        { tick := by rintro _ ⟨⟩
          modules := by rintro _ ⟨⟩
          names := List.nodup_nil }
      have hnew : Passes K ext [w.heap.length] w (w.new (.ctx (Ctx.initial flags))).2 :=
        Owned.passes_new (o := .ctx _) hO hsound rfl
      exact ⟨hnew.owned.give, hnew.grown⟩
  | refMod =>
      simp only [exec, Option.bind_eq_bind, Option.bind_eq_some_iff, Option.some.injEq] at h
      obtain ⟨x, -, u, href, h⟩ := h
      cases h
      have hu := hO.passes_ref href
      exact ⟨hu.owned.give, hu.grown⟩
  | unrefMod m =>
      simp only [exec, Option.bind_eq_bind, Option.bind_eq_some_iff, Option.some.injEq] at h
      obtain ⟨x, hx, u, hunref, h⟩ := h
      cases h
      have hval := modAt_eq_some.mp hx
      exact hO.passes_unref hval (htakes m rfl _ hval) hunref
  | unrefCtx c =>
      simp only [exec, Option.bind_eq_bind, Option.bind_eq_some_iff, Option.some.injEq] at h
      obtain ⟨x, hx, u, hunref, h⟩ := h
      cases h
      have hval := ctxAt_eq_some.mp hx
      exact hO.passes_unref hval (htakes c rfl _ hval) hunref
  | unrefEvt e =>
      simp only [exec, Option.bind_eq_bind, Option.bind_eq_some_iff, Option.some.injEq] at h
      obtain ⟨x, hx, u, hunref, h⟩ := h
      cases h
      exact (hO.cons_evt hK hx).passes_unrefAll hunref
  | tell =>
      obtain ⟨u, htell, h⟩ := Option.map_eq_some_iff.mp h
      cases h
      exact hO.passes_tell hK htell
  | setCtx c field =>
      obtain ⟨u, hset, h⟩ := Option.map_eq_some_iff.mp h
      cases h
      exact hO.passes_setCtx_same hK hset (fun _ _ hx => by cases field <;> exact { hx with })
        (fun _ => by cases field <;> rfl)
  | pollInit | pollClear =>
      obtain ⟨u, hset, h⟩ := Option.map_eq_some_iff.mp h
      cases h
      exact hO.passes_setCtx_same hK hset (fun _ _ hx => { hx with }) (fun _ => rfl)
  | setMod m field =>
      obtain ⟨u, hset, h⟩ := Option.map_eq_some_iff.mp h
      cases h
      exact hO.passes_setMod_same hK hset (fun _ => by cases field <;> rfl)
        (fun _ _ hx => by cases field <;> exact { hx with })
        (fun _ => by cases field <;> exact ⟨rfl, rfl, rfl⟩)
  | markZombie =>
      obtain ⟨u, hset, h⟩ := Option.map_eq_some_iff.mp h
      cases h
      exact hO.passes_setMod_same hK hset (fun _ => rfl) (fun _ _ hx => { hx with })
        (fun _ => ⟨rfl, rfl, rfl⟩)
  | markRunning =>
      simp only [exec, Option.bind_eq_bind, Option.bind_eq_some_iff, Option.some.injEq] at h
      obtain ⟨x, -, u, hmod, v, hctx, h⟩ := h
      cases h
      have hu := hO.passes_setMod_same hK hmod (fun _ => rfl) (fun _ _ hx => { hx with })
        (fun _ => ⟨rfl, rfl, rfl⟩)
      exact hu.trans (hu.owned.passes_setCtx_same hK hctx (fun _ _ hx => { hx with })
        (fun _ => rfl))
  | markStopped m =>
      simp only [exec, Option.bind_eq_bind, Option.bind_eq_some_iff] at h
      obtain ⟨x, -, h⟩ := h
      have hstopped : ∀ u v f, Passes K ext [] w u → u.setMod m f = some v →
          (∀ y : Mod, f y = { y with state := (f y).state }) → Passes K ext [] w v := by
        intro u v f hu hmod hf
        refine hu.trans (hu.owned.passes_setMod_same hK hmod (fun y => by rw [hf]) ?_
          (fun y => by rw [hf]; exact ⟨rfl, rfl, rfl⟩))
        intro y _ hy
        rw [hf]
        exact { hy with }
      split at h
      next =>
        simp only [Option.bind_eq_some_iff, Option.some.injEq] at h
        obtain ⟨u, hctx, v, hmod, h⟩ := h
        cases h
        exact hstopped _ _ _ (hO.passes_setCtx_same hK hctx (fun _ _ hx => { hx with })
          (fun _ => rfl)) hmod (fun _ => rfl)
      next =>
        simp only [Option.bind_eq_some_iff, Option.some.injEq] at h
        obtain ⟨_, rfl, v, hmod, h⟩ := h
        cases h
        exact hstopped _ _ _ (hO.stay rfl) hmod (fun _ => rfl)
  | setEvtOther | setEvtUserdata =>
      obtain ⟨u, hset, h⟩ := Option.map_eq_some_iff.mp h
      cases h
      refine hO.passes_setEvt hset hK (fun x _ hx => ?_) (by rintro _ ⟨⟩) (fun _ _ _ => rfl)
      exact ⟨hx.src, by first | exact hx.data | simp⟩
  | setSrcUserptr =>
      obtain ⟨u, hset, h⟩ := Option.map_eq_some_iff.mp h
      cases h
      exact hO.passes_setSrc hset (fun _ _ => rfl)
  | enqueueBatch m e =>
      simp only [exec, Option.bind_eq_bind, Option.bind_eq_some_iff, Option.some.injEq] at h
      obtain ⟨x, hx, u, hset, h⟩ := h
      cases h
      have he : Points w.heap e (· = .evt) := .of_val (evtAt_eq_some.mp hx) rfl
      refine hO.passes_setMod_same hK hset (fun _ => rfl) ?_ (fun _ => ⟨rfl, rfl, rfl⟩)
      intro y _ hy
      refine { hy with batchEvents := ?_ }
      intro p hp
      rcases List.mem_append.mp hp with hp | hp
      · exact hy.batchEvents p hp
      · rwa [List.mem_singleton.mp hp]
  | takeBatch =>
      simp only [exec, Option.bind_eq_bind, Option.bind_eq_some_iff, Option.some.injEq] at h
      obtain ⟨x, -, u, hset, h⟩ := h
      cases h
      exact hO.passes_setMod_same hK hset (fun _ => rfl)
        (fun _ _ hy => { hy with batchEvents := by rintro _ ⟨⟩ }) (fun _ => ⟨rfl, rfl, rfl⟩)
  | unstash =>
      simp only [exec, Option.bind_eq_bind, Option.bind_eq_some_iff, Option.some.injEq] at h
      obtain ⟨x, -, u, hset, h⟩ := h
      cases h
      exact hO.passes_setMod_same hK hset (fun _ => rfl)
        (fun _ _ hy => { hy with stashed := fun p hp => hy.stashed p (List.mem_of_mem_tail hp) })
        (fun _ => ⟨rfl, rfl, rfl⟩)

end Every

/-! ## Subscriptions -/

theorem countable_subs : Countable Tag.IsSub where
  src := by simp [Tag.IsSub]
  evt := by simp [Tag.IsSub]
  msg := by simp [Tag.IsSub]

/-- Only objects hold subscriptions: neither the code nor the user does. -/
abbrev SubsOwned (w : World) : Prop := Owned Tag.IsSub (fun _ => 0) [] w.heap

theorem SubsOwned.exec {o : Op} {r : o.Resp} {w w' : World} (hO : SubsOwned w)
    (h : o.exec w = some (r, w')) : SubsOwned w' ∧ Grown w.heap w'.heap := by
  have hmods : ∀ p ∈ o.takes, ∀ x, val w.heap p = some x → ¬ x.tag.IsSub := by
    intro p hp x hx
    cases o with
    | unrefMod m =>
        simp only [Op.exec, Option.bind_eq_bind, Option.bind_eq_some_iff] at h
        obtain ⟨y, hy, -⟩ := h
        cases hp
        cases hx.symm.trans (modAt_eq_some.mp hy)
        simp [Obj.tag, Tag.IsSub]
    | unrefCtx c =>
        simp only [Op.exec, Option.bind_eq_bind, Option.bind_eq_some_iff] at h
        obtain ⟨y, hy, -⟩ := h
        cases hp
        cases hx.symm.trans (ctxAt_eq_some.mp hy)
        simp [Obj.tag, Tag.IsSub]
    | _ => cases hp
  have hw' := Op.owned countable_subs hO
    (fun p hp x hx hsub => absurd hsub (hmods p hp x hx)) h
  refine ⟨hw'.owned.reext (fun _ _ => rfl) ?_, hw'.grown⟩
  intro p x hx hsub
  -- what the code holds is a module or a context
  by_contra hext
  have hother : Points w'.heap p (fun t => ¬ t.IsSub) := by
    cases o with
    | refMod m =>
        simp only [Op.exec, Option.bind_eq_bind, Option.bind_eq_some_iff] at h
        obtain ⟨y, hy, -⟩ := h
        have hm : Points w.heap m (fun t => ¬ t.IsSub) :=
          .of_val (modAt_eq_some.mp hy) (by simp [Obj.tag, Tag.IsSub])
        obtain rfl : p = m := by
          by_contra hne
          exact hext (by simp [Op.account, Function.update_of_ne hne])
        exact hm.grown hw'.grown
    | newCtx flags =>
        cases h
        obtain rfl : p = w.heap.length := by
          by_contra hne
          exact hext (by simp [Op.account, Function.update_of_ne hne])
        exact .of_val (o := .ctx (Ctx.initial flags)) (by rw [val_alloc, if_pos rfl])
          (by simp [Obj.tag, Tag.IsSub])
    | unrefMod | unrefCtx =>
        exact absurd (by simp [Op.account]) hext
    | _ => exact absurd rfl hext
  exact hother.2 x hx hsub

theorem SubsOwned.of_later {w w' : World} (hO : SubsOwned w) (h : Later w w') :
    SubsOwned w' ∧ Grown w.heap w'.heap := by
  induction h with
  | refl => exact ⟨hO, Grown.refl _⟩
  | exec _ hexec ih =>
      have hnext := ih.1.exec hexec
      exact ⟨hnext.1, ih.2.trans hnext.2⟩
  | react _ hook ih =>
      unfold World.react
      split <;> exact ih

/-- In every state that the library reaches, the account of subscriptions is right. -/
theorem subsOwned_reached {host : Host} {script : List Reaction} {polls : List PollAnswer}
    {faults : List ℤ} {w : World} (h : Later (World.initial host script polls faults) w) :
    SubsOwned w := by
  refine (SubsOwned.of_later ?_ h).1
  exact
    { settled := settled_initial host script polls faults
      sound := by simp [World.initial, val, RefHeap.get]
      hands_lt := by rintro _ ⟨⟩
      ext_lt := fun _ _ => rfl
      counted := by simp [World.initial, val, RefHeap.get]
      kept := by simp [World.initial, val, RefHeap.get] }

/-- A subscription in the table of a module is there, and is stored under its topic. -/
theorem SubsOwned.subscription {w : World} (hO : SubsOwned w) {m : ℕ} {x : Mod}
    (hx : modAt w.heap m = some x) {entry : String × ℕ} (hentry : entry ∈ x.subscriptions) :
    ∃ s, srcAt w.heap entry.2 = some s ∧ s.topic = some entry.1 := by
  obtain ⟨o, ho, htag⟩ := hO.entry (modAt_eq_some.mp hx)
    (List.mem_map_of_mem (f := fun entry => (entry.2, Tag.sub entry.1)) hentry) ⟨_, rfl⟩
  cases o with
  | src s =>
      refine ⟨s, srcAt_eq_some.mpr ho, ?_⟩
      cases htopic : s.topic with
      | none => simp [Obj.tag, htopic] at htag
      | some topic => simpa [Obj.tag, htopic] using htag
  | _ => cases htag

end Libmodule
