import Libmodule.Ownership

/-!
# Changes of the account

The small changes of which operations are made: a reference taken or dropped, a
new object, a field, an entry of a map.  Each one moves references between the
objects and the operation in progress.
-/

namespace Libmodule

open RefHeap SearchTree Reentrant

/-! ## Maps without double keys -/

namespace NameTable

variable {t : NameTable} {name : String} {p : ℕ}

theorem contains_iff : t.contains name = true ↔ name ∈ t.map Prod.fst := by
  simp [contains, List.any_eq_true]

theorem mem_of_get (h : t.get name = some p) : (name, p) ∈ t := by
  obtain ⟨entry, hfind, rfl⟩ := Option.map_eq_some_iff.mp h
  have hname : entry.1 = name := by simpa using List.find?_some hfind
  rw [← hname]
  exact List.mem_of_find?_eq_some hfind

theorem get_eq_none : t.get name = none ↔ name ∉ t.map Prod.fst := by
  simp only [get, Option.map_eq_none_iff, List.find?_eq_none, List.mem_map, not_exists, not_and,
    beq_iff_eq]

theorem get_cons_self {entry : String × ℕ} {t : List (String × ℕ)} (hname : entry.1 = name) :
    get (entry :: t) name = some entry.2 := by
  simp [get, hname]

theorem get_cons_ne {entry : String × ℕ} {t : List (String × ℕ)} (hname : entry.1 ≠ name) :
    get (entry :: t) name = get t name := by
  simp [get, hname]

theorem ne_of_nodup {entry other : String × ℕ} {t : List (String × ℕ)}
    (hkey : entry.1 ∉ t.map Prod.fst) (hother : other ∈ t) : other.1 ≠ entry.1 := by
  intro heq
  exact hkey (heq ▸ List.mem_map_of_mem hother)

theorem get_of_mem {t : List (String × ℕ)} (hkeys : (t.map Prod.fst).Nodup)
    (hmem : (name, p) ∈ t) : get t name = some p := by
  induction t with
  | nil => cases hmem
  | cons entry t ih =>
      rw [List.map_cons, List.nodup_cons] at hkeys
      rcases List.mem_cons.mp hmem with rfl | hmem
      · exact get_cons_self rfl
      · rw [get_cons_ne (Ne.symm (ne_of_nodup hkeys.1 hmem))]
        exact ih hkeys.2 hmem

theorem remove_keys (hkeys : (t.map Prod.fst).Nodup) : ((t.remove name).map Prod.fst).Nodup :=
  hkeys.sublist (List.filter_sublist.map _)

theorem mem_remove {entry : String × ℕ} (h : entry ∈ t.remove name) : entry ∈ t :=
  List.mem_of_mem_filter h

/-- Removing a key removes the one pointer stored under it. -/
theorem count_remove {t : List (String × ℕ)} (hkeys : (t.map Prod.fst).Nodup) (q : ℕ) :
    (values (remove t name)).count q + (get t name).toList.count q = (values t).count q := by
  induction t with
  | nil => rfl
  | cons entry t ih =>
      rw [List.map_cons, List.nodup_cons] at hkeys
      by_cases hname : entry.1 = name
      · have hremove : remove (entry :: t) name = t := by
          have hrest : remove t name = t :=
            List.filter_eq_self.mpr (fun other hother => by
              simpa [← hname] using ne_of_nodup hkeys.1 hother)
          rw [remove, List.filter_cons_of_neg (by simp [hname])]
          exact hrest
        rw [get_cons_self hname, hremove]
        simp [values, List.count_cons]
      · have hremove : remove (entry :: t) name = entry :: remove t name := by
          rw [remove, List.filter_cons_of_pos (by simpa using hname)]
          rfl
        have hrest := ih hkeys.2
        rw [get_cons_ne hname, hremove]
        simp only [values, List.map_cons, List.count_cons] at hrest ⊢
        omega

variable {host : Host}

theorem put_of_new (hnew : t.contains name = false) :
    (t.put host name p).Perm ((name, p) :: t) := by
  rw [put, hnew]
  exact List.perm_insertIdx _ _ (Nat.min_le_right _ _)

theorem map_key {entry : String × ℕ} :
    (if entry.1 == name then (name, p) else entry).1 = entry.1 := by
  split
  next h => exact (by simpa using h : entry.1 = name).symm
  next => rfl

theorem put_keys (hkeys : (t.map Prod.fst).Nodup) :
    ((t.put host name p).map Prod.fst).Nodup := by
  cases hcontains : t.contains name with
  | false =>
      rw [((put_of_new hcontains).map Prod.fst).nodup_iff, List.map_cons, List.nodup_cons]
      refine ⟨fun hmem => ?_, hkeys⟩
      rw [contains_iff.mpr hmem] at hcontains
      cases hcontains
  | true =>
      rw [put, hcontains, if_pos rfl, List.map_map]
      have hsame : (Prod.fst ∘ fun e : String × ℕ => if e.1 == name then (name, p) else e) =
          Prod.fst := funext (fun entry => map_key)
      rwa [hsame]

theorem mem_put {entry : String × ℕ} (h : entry ∈ t.put host name p) :
    entry = (name, p) ∨ entry ∈ t := by
  cases hcontains : t.contains name with
  | false => exact List.mem_cons.mp ((put_of_new hcontains).mem_iff.mp h)
  | true =>
      rw [put, hcontains, if_pos rfl] at h
      obtain ⟨old, hold, rfl⟩ := List.mem_map.mp h
      split
      next => exact .inl rfl
      next => exact .inr hold

/-- Overwriting a key replaces the one pointer stored under it. -/
theorem count_overwrite {t : List (String × ℕ)} (hkeys : (t.map Prod.fst).Nodup)
    (hmem : name ∈ t.map Prod.fst) (q : ℕ) :
    (values (t.map (fun e => if e.1 == name then (name, p) else e))).count q +
        (get t name).toList.count q = (values t).count q + [p].count q := by
  induction t with
  | nil => cases hmem
  | cons entry t ih =>
      rw [List.map_cons, List.nodup_cons] at hkeys
      by_cases hname : entry.1 = name
      · have hsame : t.map (fun e => if e.1 == name then (name, p) else e) = t := by
          conv_rhs => rw [← List.map_id t]
          apply List.map_congr_left
          intro other hother
          simp [← hname, ne_of_nodup hkeys.1 hother]
        rw [get_cons_self hname, List.map_cons, hsame]
        simp only [values, hname, beq_self_eq_true, if_true, List.map_cons, List.count_cons,
          Option.toList_some, List.count_nil]
        omega
      · have hrest := ih hkeys.2 (List.mem_of_ne_of_mem (Ne.symm hname) hmem)
        have hne : (entry.1 == name) = false := by simpa using hname
        rw [get_cons_ne hname, List.map_cons, hne]
        simp only [values, Bool.false_eq_true, if_false, List.map_cons, List.count_cons]
          at hrest ⊢
        omega

/-- Storing a pointer replaces the one stored under the same key. -/
theorem count_put (hkeys : (t.map Prod.fst).Nodup) (q : ℕ) :
    (t.put host name p).values.count q + (t.get name).toList.count q =
      t.values.count q + [p].count q := by
  cases hcontains : t.contains name with
  | false =>
      have hget : t.get name = none := by
        rw [get_eq_none, ← contains_iff, hcontains]
        simp
      have hput : (t.put host name p).Perm ((name, p) :: t) := put_of_new hcontains
      have hperm := (hput.map Prod.snd).count_eq q
      simp only [values, hperm, hget, List.map_cons, List.count_cons, Option.toList_none,
        List.count_nil]
      omega
  | true =>
      rw [put, hcontains, if_pos rfl]
      exact count_overwrite hkeys (contains_iff.mp hcontains) q

end NameTable

/-! ## What is counted of an object -/

section Count

variable {K : Tag → Prop} {h : Heap Obj} {q : ℕ} {o : Obj} {ps : List ℕ}

theorem Countable.evts (hK : Countable K) (hps : ∀ p ∈ ps, Points h p (· = .evt))
    (ho : val h q = some o) (hcounted : K o.tag) : ps.count q = 0 :=
  Points.count_eq_zero hps ho (fun htag => hK.evt (htag ▸ hcounted))

theorem Countable.srcs (hK : Countable K) (hps : ∀ p ∈ ps, Points h p (· = .src))
    (ho : val h q = some o) (hcounted : K o.tag) : ps.count q = 0 :=
  Points.count_eq_zero hps ho (fun htag => hK.src (htag ▸ hcounted))

theorem Countable.msgs (hK : Countable K) (hps : ∀ p ∈ ps, Points h p (· = .msg))
    (ho : val h q = some o) (hcounted : K o.tag) : ps.count q = 0 :=
  Points.count_eq_zero hps ho (fun htag => hK.msg (htag ▸ hcounted))

theorem Ctx.Sound.count_owns (hK : Countable K) {c : Ctx} (hc : c.Sound h)
    (ho : val h q = some o) (hcounted : K o.tag) :
    (Obj.ctx c).owns.count q = c.modules.values.count q := by
  rw [Obj.owns, List.count_append,
    hK.srcs (fun p hp => hc.tick p (Option.mem_toList.mp hp)) ho hcounted, Nat.zero_add]

theorem Mod.Sound.count_owns (hK : Countable K) {m : Mod} (hm : m.Sound h)
    (ho : val h q = some o) (hcounted : K o.tag) :
    (Obj.mod m).owns.count q =
      [m.ctx].count q + m.subscriptions.values.count q + m.boundMods.count q := by
  have hsrcs : (MSrcType.all.flatMap (fun type => (m.srcs type).values)).count q = 0 := by
    refine hK.srcs (fun p hp => ?_) ho hcounted
    obtain ⟨type, -, hp⟩ := List.mem_flatMap.mp hp
    exact hm.srcs type p hp
  simp only [Obj.owns, List.cons_append, List.count_cons, List.count_append, List.count_nil,
    hK.evts hm.stashed ho hcounted, hK.evts hm.batchEvents ho hcounted, hsrcs]
  omega

theorem EvtPriv.Sound.count_owns (hK : Countable K) {e : EvtPriv} (he : e.Sound h)
    (ho : val h q = some o) (hcounted : K o.tag) :
    (Obj.evt e).owns.count q = e.src.toList.count q := by
  rw [Obj.owns, List.count_append]
  split
  next g hdata =>
    have hmsg : [g].count q = 0 := by
      refine hK.msgs (fun p hp => ?_) ho hcounted
      rw [List.mem_singleton.mp hp]
      exact he.data g hdata
    rw [hmsg, Nat.add_zero]
  next => rfl

end Count

/-! ## Changes of one object -/

/-- From `w` the world comes to `w'`, where the operation holds `hands`. -/
structure Passes (K : Tag → Prop) (ext : ℕ → ℕ) (hands : List ℕ) (w w' : World) : Prop where
  owned : Owned K ext hands w'.heap
  grown : Grown w.heap w'.heap

section Changes

variable {K : Tag → Prop} {ext : ℕ → ℕ} {hands hands' ps : List ℕ} {w w₁ w₂ : World} {p : ℕ}

theorem Passes.trans (h₁ : Passes K ext hands w w₁) (h₂ : Passes K ext hands' w₁ w₂) :
    Passes K ext hands' w w₂ :=
  ⟨h₂.owned, h₁.grown.trans h₂.grown⟩

namespace Owned

variable (hO : Owned K ext hands w.heap)

include hO

theorem stay (hheap : w₁.heap = w.heap) : Passes K ext hands w w₁ := by
  constructor
  · rwa [hheap]
  · rw [hheap]
    exact Grown.refl _

theorem passes_ref (h : w.ref p = some w₁) : Passes K ext (p :: hands) w w₁ := by
  unfold World.ref at h
  simp only [Option.bind_eq_bind, Option.bind_eq_some_iff, Option.some.injEq] at h
  obtain ⟨c, hc, rfl⟩ := h
  exact ⟨hO.ref hc, Grown.put hc⟩

theorem sound_ctx {c : Ctx} (hc : ctxAt w.heap p = some c) : c.Sound w.heap :=
  hO.sound p _ (ctxAt_eq_some.mp hc)

theorem sound_mod {m : Mod} (hm : modAt w.heap p = some m) : m.Sound w.heap :=
  hO.sound p _ (modAt_eq_some.mp hm)

theorem sound_msg {g : PsPriv} (hg : msgAt w.heap p = some g) : g.Sound w.heap :=
  hO.sound p _ (msgAt_eq_some.mp hg)

theorem sound_evt {e : EvtPriv} (he : evtAt w.heap p = some e) : e.Sound w.heap :=
  hO.sound p _ (evtAt_eq_some.mp he)

/-- References to events and messages come and go without notice. -/
theorem drop_uncounted {Q : Tag → Prop} (hps : ∀ p ∈ ps, Points w.heap p Q)
    (hQ : ∀ t, K t → ¬ Q t) : Owned K ext (ps ++ hands) w.heap := by
  apply hO.rehand
  · intro q hq
    rcases List.mem_append.mp hq with hq | hq
    · exact (hps q hq).1
    · exact hO.hands_lt q hq
  · intro q o ho hcounted
    rw [List.count_append, Points.count_eq_zero hps ho (hQ _ hcounted), Nat.zero_add]

theorem forget {Q : Tag → Prop} (hp : Points w.heap p Q) (hQ : ∀ t, K t → ¬ Q t) :
    Owned K ext (p :: hands) w.heap := by
  have hps : ∀ q ∈ [p], Points w.heap q Q := by
    intro q hq
    rwa [List.mem_singleton.mp hq]
  exact hO.drop_uncounted hps hQ

end Owned

theorem Owned.passes_new {o : Obj} (hO : Owned K ext (o.owns ++ hands) w.heap)
    (ho : o.Sound w.heap) (hentries : o.entries = []) :
    Passes K ext (w.heap.length :: hands) w (w.new o).2 :=
  ⟨hO.alloc ho hentries, Grown.alloc _ _⟩

theorem grown_release {fuel : ℕ} {work : List Work} {h h' : Heap Obj} {s s' : Sys}
    (hlength : h'.length = h.length)
    (hrun : release Obj.owns Obj.dtor fuel work h s = some (h', s')) : Grown h h' where
  length := hlength.ge
  tag := by
    intro p _ o' ho'
    obtain ⟨c', hc', rfl⟩ := Option.map_eq_some_iff.mp ho'
    obtain ⟨c, hc, hval, -⟩ := release_cells hrun p c' hc'
    exact ⟨c.val, by simp [val, hc], by rw [hval]⟩

theorem World.val_of_unrefAll (h : w.unrefAll ps = some w₁) {q : ℕ} {o : Obj}
    (ho : val w₁.heap q = some o) : val w.heap q = some o := by
  unfold World.unrefAll at h
  simp only [Option.bind_eq_bind, Option.bind_eq_some_iff, Option.some.injEq] at h
  obtain ⟨⟨heap, sys⟩, hrun, rfl⟩ := h
  obtain ⟨c', hc', rfl⟩ := Option.map_eq_some_iff.mp ho
  obtain ⟨c, hc, hval, -⟩ := release_cells hrun q c' hc'
  simp [val, hc, hval]

theorem World.val_ref (h : w.ref p = some w₁) (q : ℕ) : val w₁.heap q = val w.heap q := by
  unfold World.ref at h
  simp only [Option.bind_eq_bind, Option.bind_eq_some_iff, Option.some.injEq] at h
  obtain ⟨c, hc, rfl⟩ := h
  exact val_put_same hc _ _

/-- What is released is no longer held. -/
theorem Owned.passes_unrefAll (hO : Owned K ext (ps ++ hands) w.heap)
    (h : w.unrefAll ps = some w₁) : Passes K ext hands w w₁ := by
  have hbefore : ∀ q o, val w₁.heap q = some o → val w.heap q = some o :=
    fun _ _ ho => World.val_of_unrefAll h ho
  unfold World.unrefAll at h
  simp only [Option.bind_eq_bind, Option.bind_eq_some_iff, Option.some.injEq] at h
  obtain ⟨⟨heap, sys⟩, hrun, rfl⟩ := h
  have hrel := release_releasing hO.settled hrun
  have hgrown := grown_release hrel.length hrun
  refine ⟨?_, hgrown⟩
  have hcount : ∀ q, (∃ o, val w.heap q = some o ∧ K o.tag) →
      refs w.heap q = holders Obj.owns w.heap q + ps.count q + (hands.count q + ext q) := by
    rintro q ⟨o, ho, hcounted⟩
    have hold := hO.counted q o ho hcounted
    rw [List.count_append] at hold
    omega
  have hbalanced := release_balanced hO.settled hrun hcount
  exact
    { settled := hrel.settled
      sound := fun q o ho => (hO.sound q o (hbefore q o ho)).grown hgrown
      hands_lt := by
        intro q hq
        rw [hrel.length]
        exact hO.hands_lt q (List.mem_append_right _ hq)
      ext_lt := fun q hq => hO.ext_lt q (by rwa [hrel.length] at hq)
      counted := by
        intro q o ho hcounted
        rw [hbalanced q ⟨o, hbefore q o ho, hcounted⟩, Nat.add_assoc]
      kept := by
        intro q o ho entry hentry hcounted
        obtain ⟨x, hx, htag⟩ := hO.entry (hbefore q o ho) hentry hcounted
        -- the table that survives still holds it
        have hrefs := hbalanced entry.1 ⟨x, hx, htag ▸ hcounted⟩
        obtain ⟨⟨k, o'⟩, hc, rfl⟩ := Option.map_eq_some_iff.mp ho
        obtain ⟨k, rfl⟩ : ∃ n, k = n + 1 :=
          ⟨k - 1, (Nat.sub_add_cancel (hrel.settled q _ hc)).symm⟩
        have hheld : o'.owns.count entry.1 ≤ holders Obj.owns heap entry.1 :=
          count_le_holders hc entry.1
        have hmem : 0 < o'.owns.count entry.1 :=
          List.count_pos_iff.mpr (Obj.mem_owns_of_entry hentry)
        have hlive : Live heap entry.1 := lt_of_lt_of_eq (by omega) hrefs.symm
        obtain ⟨k', b, hget⟩ := hlive.get
        exact ⟨b, by simp [val, hget]⟩ }

/-! ### Fields -/

namespace Owned

variable (hO : Owned K ext hands w.heap)

include hO

theorem passes_setMod {m : ℕ} {f : Mod → Mod} (h : w.setMod m f = some w₁)
    (hname : ∀ x, (f x).name = x.name)
    (hsound : ∀ x, modAt w.heap m = some x → x.Sound w.heap → (f x).Sound w.heap)
    (hlt : ∀ q ∈ hands', q < w.heap.length)
    (hcount : ∀ x q o, modAt w.heap m = some x → x.Sound w.heap → val w.heap q = some o →
      K o.tag → (Obj.mod (f x)).owns.count q + hands'.count q =
        (Obj.mod x).owns.count q + hands.count q)
    (hsubs : ∀ x, modAt w.heap m = some x → ∀ entry ∈ (f x).subscriptions,
      entry ∈ x.subscriptions ∨ ∃ y, val w.heap entry.2 = some y) :
    Passes K ext hands' w w₁ := by
  obtain ⟨⟨x, hx⟩, rfl⟩ := World.setMod_eq_some.mp h
  have hval := modAt_eq_some.mp hx
  have hxs := hO.sound_mod hx
  constructor
  · refine hO.modify hval (congrArg Tag.mod (hname x)) (hsound x hx hxs) hlt
      (fun q o ho hcounted => hcount x q o hx hxs ho hcounted) ?_
    intro entry hentry _
    obtain ⟨e, he, rfl⟩ := List.mem_map.mp hentry
    exact (hsubs x hx e he).imp_left (fun hold => List.mem_map_of_mem hold)
  · apply Grown.modify
    intro o ho
    cases hval.symm.trans ho
    exact congrArg Tag.mod (hname x)

/-- The pointers to contexts, modules and subscriptions stay. -/
theorem passes_setMod_same (hK : Countable K) {m : ℕ} {f : Mod → Mod}
    (h : w.setMod m f = some w₁)
    (hname : ∀ x, (f x).name = x.name)
    (hsound : ∀ x, modAt w.heap m = some x → x.Sound w.heap → (f x).Sound w.heap)
    (hsame : ∀ x, (f x).ctx = x.ctx ∧ (f x).subscriptions = x.subscriptions ∧
      (f x).boundMods = x.boundMods) : Passes K ext hands w w₁ := by
  refine hO.passes_setMod h hname hsound hO.hands_lt ?_ ?_
  · intro x q o hx hxs ho hcounted
    obtain ⟨hctx, hsubs, hbound⟩ := hsame x
    rw [(hsound x hx hxs).count_owns hK ho hcounted, hxs.count_owns hK ho hcounted, hctx, hsubs,
      hbound]
  · intro x _ entry hentry
    rw [(hsame x).2.1] at hentry
    exact .inl hentry

theorem passes_setCtx {c : ℕ} {f : Ctx → Ctx} (h : w.setCtx c f = some w₁)
    (hsound : ∀ x, ctxAt w.heap c = some x → x.Sound w.heap → (f x).Sound w.heap)
    (hlt : ∀ q ∈ hands', q < w.heap.length)
    (hcount : ∀ x q o, ctxAt w.heap c = some x → x.Sound w.heap → val w.heap q = some o →
      K o.tag → (Obj.ctx (f x)).owns.count q + hands'.count q =
        (Obj.ctx x).owns.count q + hands.count q)
    (hmods : ∀ x, ctxAt w.heap c = some x → ∀ entry ∈ (f x).modules,
      entry ∈ x.modules ∨ ∃ y, val w.heap entry.2 = some y) :
    Passes K ext hands' w w₁ := by
  obtain ⟨⟨x, hx⟩, rfl⟩ := World.setCtx_eq_some.mp h
  have hval := ctxAt_eq_some.mp hx
  have hxs := hO.sound_ctx hx
  constructor
  · refine hO.modify hval rfl (hsound x hx hxs) hlt
      (fun q o ho hcounted => hcount x q o hx hxs ho hcounted) ?_
    intro entry hentry _
    obtain ⟨e, he, rfl⟩ := List.mem_map.mp hentry
    exact (hmods x hx e he).imp_left (fun hold => List.mem_map_of_mem hold)
  · apply Grown.modify
    intro o ho
    cases hval.symm.trans ho
    rfl

theorem passes_setCtx_same (hK : Countable K) {c : ℕ} {f : Ctx → Ctx}
    (h : w.setCtx c f = some w₁)
    (hsound : ∀ x, ctxAt w.heap c = some x → x.Sound w.heap → (f x).Sound w.heap)
    (hsame : ∀ x, (f x).modules = x.modules) : Passes K ext hands w w₁ := by
  refine hO.passes_setCtx h hsound hO.hands_lt ?_ ?_
  · intro x q o hx hxs ho hcounted
    rw [(hsound x hx hxs).count_owns hK ho hcounted, hxs.count_owns hK ho hcounted, hsame]
  · intro x _ entry hentry
    rw [hsame] at hentry
    exact .inl hentry

theorem passes_setSrc {s : ℕ} {f : EvSource → EvSource} (h : w.setSrc s f = some w₁)
    (htopic : ∀ x, srcAt w.heap s = some x → (f x).topic = x.topic) :
    Passes K ext hands w w₁ := by
  obtain ⟨⟨x, hx⟩, rfl⟩ := World.setSrc_eq_some.mp h
  have hval := srcAt_eq_some.mp hx
  have htag : (Obj.src (f x)).tag = (Obj.src x).tag := by
    simp only [Obj.tag, htopic x hx]
  constructor
  · exact hO.modify hval htag trivial hO.hands_lt (fun _ _ _ _ => rfl) nofun
  · apply Grown.modify
    intro o ho
    cases hval.symm.trans ho
    exact htag

theorem passes_setEvt {e : ℕ} {f : EvtPriv → EvtPriv} (h : w.setEvt e f = some w₁)
    (hK : Countable K)
    (hsound : ∀ x, evtAt w.heap e = some x → x.Sound w.heap → (f x).Sound w.heap)
    (hlt : ∀ q ∈ hands', q < w.heap.length)
    (hcount : ∀ x q, evtAt w.heap e = some x →
      (f x).src.toList.count q + hands'.count q = x.src.toList.count q + hands.count q) :
    Passes K ext hands' w w₁ := by
  obtain ⟨⟨x, hx⟩, rfl⟩ := World.setEvt_eq_some.mp h
  have hval := evtAt_eq_some.mp hx
  have hxs := hO.sound_evt hx
  constructor
  · refine hO.modify hval rfl (hsound x hx hxs) hlt (fun q o ho hcounted => ?_) nofun
    have hafter : (Obj.evt (f x)).owns.count q = (f x).src.toList.count q :=
      (hsound x hx hxs).count_owns hK ho hcounted
    show (Obj.evt (f x)).owns.count q + _ = _
    rw [hafter, hxs.count_owns hK ho hcounted]
    exact hcount x q hx
  · apply Grown.modify
    intro o ho
    cases hval.symm.trans ho
    rfl

end Owned

end Changes

end Libmodule
