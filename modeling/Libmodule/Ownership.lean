import Libmodule.EventLoop
import Libmodule.RefAccounting

/-!
# Who holds what

Every pointer that an object holds leads to an object of the kind that the code
takes it for, as long as that object is there: addresses are never used again and
an object keeps its kind, its name and its topic.  The maps have no key twice.

The references to contexts, modules and subscriptions are accounted for: each one
is held by an object, by the code in progress, or by the user.
-/

namespace Libmodule

open RefHeap SearchTree Reentrant

/-! ## Kinds -/

/-- What an object remains for as long as it lives. -/
inductive Tag where
  | ctx
  | mod (name : String)
  | src
  | sub (topic : String)
  | msg
  | evt
  deriving DecidableEq

def Obj.tag : Obj → Tag
  | .ctx _ => .ctx
  | .mod m => .mod m.name
  | .src s => s.topic.elim .src .sub
  | .msg _ => .msg
  | .evt _ => .evt

def Tag.IsMod (t : Tag) : Prop := ∃ name, t = .mod name

def Tag.IsSub (t : Tag) : Prop := ∃ topic, t = .sub topic

/-- A subscription or a source of another type. -/
def Tag.IsSource (t : Tag) : Prop := t = .src ∨ t.IsSub

/-- The address has been given to an object, of such a kind if it is still there. -/
def Points (h : Heap Obj) (p : ℕ) (Q : Tag → Prop) : Prop :=
  p < h.length ∧ ∀ o, val h p = some o → Q o.tag

/-- Objects stay what they are, and new ones get new addresses. -/
structure Grown (h h' : Heap Obj) : Prop where
  length : h.length ≤ h'.length
  tag : ∀ p < h.length, ∀ o', val h' p = some o' → ∃ o, val h p = some o ∧ o.tag = o'.tag

namespace Grown

variable {h h₁ h₂ : Heap Obj}

theorem refl (h : Heap Obj) : Grown h h where
  length := le_rfl
  tag := fun _ _ o ho => ⟨o, ho, rfl⟩

theorem trans (g₁ : Grown h h₁) (g₂ : Grown h₁ h₂) : Grown h h₂ where
  length := g₁.length.trans g₂.length
  tag := by
    intro p hp o₂ ho₂
    obtain ⟨o₁, ho₁, htag₂⟩ := g₂.tag p (hp.trans_le g₁.length) o₂ ho₂
    obtain ⟨o, ho, htag₁⟩ := g₁.tag p hp o₁ ho₁
    exact ⟨o, ho, htag₁.trans htag₂⟩

theorem put {p k k' : ℕ} {o : Obj} (hp : get h p = some ⟨k, o⟩) :
    Grown h (put h p (some ⟨k', o⟩)) where
  length := (length_put _ _ _).ge
  tag := by
    intro q _ o' ho'
    rw [val_put_same hp] at ho'
    exact ⟨o', ho', rfl⟩

theorem alloc (h : Heap Obj) (o : Obj) : Grown h (alloc h o) where
  length := by simp
  tag := by
    intro p hp o' ho'
    rw [val_alloc, if_neg hp.ne] at ho'
    exact ⟨o', ho', rfl⟩

theorem modify {p : ℕ} {f : Obj → Obj} (hf : ∀ o, val h p = some o → (f o).tag = o.tag) :
    Grown h (modify h p f) where
  length := (length_modify _ _ _).ge
  tag := by
    intro q _ o' ho'
    rw [val_modify] at ho'
    split at ho'
    next hpq =>
      subst hpq
      obtain ⟨o, ho, rfl⟩ := Option.map_eq_some_iff.mp ho'
      exact ⟨o, ho, (hf o ho).symm⟩
    next => exact ⟨o', ho', rfl⟩

end Grown

namespace Points

variable {h h' : Heap Obj} {p : ℕ} {Q R : Tag → Prop}

theorem grown (hp : Points h p Q) (g : Grown h h') : Points h' p Q := by
  refine ⟨hp.1.trans_le g.length, fun o' ho' => ?_⟩
  obtain ⟨o, ho, htag⟩ := g.tag p hp.1 o' ho'
  rw [← htag]
  exact hp.2 o ho

theorem of_val {o : Obj} (ho : val h p = some o) (hQ : Q o.tag) : Points h p Q := by
  refine ⟨?_, fun o' ho' => ?_⟩
  · obtain ⟨c, hc, -⟩ := Option.map_eq_some_iff.mp ho
    exact lt_length hc
  · cases ho.symm.trans ho'
    exact hQ

theorem mono (hp : Points h p Q) (hQR : ∀ t, Q t → R t) : Points h p R :=
  ⟨hp.1, fun o ho => hQR _ (hp.2 o ho)⟩

/-- Pointers to one kind of object are no pointers to another. -/
theorem count_eq_zero {ps : List ℕ} {o : Obj} (hps : ∀ p ∈ ps, Points h p Q)
    (ho : val h p = some o) (hQ : ¬ Q o.tag) : ps.count p = 0 :=
  List.count_eq_zero_of_not_mem (fun hmem => hQ ((hps p hmem).2 o ho))

end Points

/-! ## Objects that hold the right pointers -/

structure Ctx.Sound (h : Heap Obj) (c : Ctx) : Prop where
  tick : ∀ p ∈ c.tick, Points h p (· = .src)
  modules : ∀ entry ∈ c.modules, Points h entry.2 (· = .mod entry.1)
  names : (c.modules.map Prod.fst).Nodup

structure Mod.Sound (h : Heap Obj) (m : Mod) : Prop where
  ctx : m.ctx < h.length
  subscriptions : ∀ entry ∈ m.subscriptions, Points h entry.2 (· = .sub entry.1)
  topics : (m.subscriptions.map Prod.fst).Nodup
  stashed : ∀ e ∈ m.stashed, Points h e (· = .evt)
  batchEvents : ∀ e ∈ m.batchEvents, Points h e (· = .evt)
  boundMods : ∀ p ∈ m.boundMods, Points h p Tag.IsMod
  srcs : ∀ type, ∀ p ∈ (m.srcs type).values, Points h p (· = .src)

structure PsPriv.Sound (h : Heap Obj) (g : PsPriv) : Prop where
  sender : ∀ p ∈ g.sender, p < h.length
  sub : ∀ p ∈ g.sub, Points h p Tag.IsSub

structure EvtPriv.Sound (h : Heap Obj) (e : EvtPriv) : Prop where
  src : ∀ p ∈ e.src, Points h p Tag.IsSource
  data : ∀ g, e.data = .ps g → Points h g (· = .msg)

def Obj.Sound (h : Heap Obj) : Obj → Prop
  | .ctx c => c.Sound h
  | .mod m => m.Sound h
  | .src _ => True
  | .msg g => g.Sound h
  | .evt e => e.Sound h

theorem Obj.Sound.grown {h h' : Heap Obj} {o : Obj} (ho : o.Sound h) (g : Grown h h') :
    o.Sound h' := by
  cases o with
  | ctx c =>
      exact
        { ho with
          tick := fun p hp => (ho.tick p hp).grown g
          modules := fun entry hentry => (ho.modules entry hentry).grown g }
  | mod m =>
      exact
        { ho with
          ctx := ho.ctx.trans_le g.length
          subscriptions := fun entry hentry => (ho.subscriptions entry hentry).grown g
          stashed := fun e he => (ho.stashed e he).grown g
          batchEvents := fun e he => (ho.batchEvents e he).grown g
          boundMods := fun p hp => (ho.boundMods p hp).grown g
          srcs := fun type p hp => (ho.srcs type p hp).grown g }
  | src s => trivial
  | msg g₀ =>
      exact
        { sender := fun p hp => (ho.sender p hp).trans_le g.length
          sub := fun p hp => (ho.sub p hp).grown g }
  | evt e =>
      exact
        { src := fun p hp => (ho.src p hp).grown g
          data := fun m hm => (ho.data m hm).grown g }

/-- Everything an object holds has an address that was given out. -/
theorem Obj.Sound.owns_lt {h : Heap Obj} {o : Obj} (ho : o.Sound h) {p : ℕ} (hp : p ∈ o.owns) :
    p < h.length := by
  cases o with
  | ctx c =>
      rcases List.mem_append.mp hp with hp | hp
      · exact (ho.tick p (Option.mem_toList.mp hp)).1
      · obtain ⟨entry, hentry, rfl⟩ := List.mem_map.mp hp
        exact (ho.modules entry hentry).1
  | mod m =>
      simp only [Obj.owns, List.mem_append, List.mem_cons, List.mem_flatMap] at hp
      rcases hp with ((((rfl | hp) | hp) | hp) | hp) | ⟨type, -, hp⟩
      · exact ho.ctx
      · obtain ⟨entry, hentry, rfl⟩ := List.mem_map.mp hp
        exact (ho.subscriptions entry hentry).1
      · exact (ho.stashed p hp).1
      · exact (ho.batchEvents p hp).1
      · exact (ho.boundMods p hp).1
      · exact (ho.srcs type p hp).1
  | src s => cases hp
  | msg g => exact ho.sender p (Option.mem_toList.mp hp)
  | evt e =>
      simp only [Obj.owns, List.mem_append] at hp
      rcases hp with hp | hp
      · exact (ho.src p (Option.mem_toList.mp hp)).1
      · split at hp
        next g hdata =>
          obtain rfl := List.mem_singleton.mp hp
          exact (ho.data p hdata).1
        next => cases hp

/-! ## The account -/

/-- The kinds of which the references are accounted for.  Events are left out, which
the code hands on without counting, and so are the sources in trees, from which a
removal may destroy the wrong one. -/
structure Countable (K : Tag → Prop) : Prop where
  src : ¬ K .src
  evt : ¬ K .evt
  msg : ¬ K .msg

/-- What the tables of an object hold, with what the keys say about it. -/
def Obj.entries : Obj → List (ℕ × Tag)
  | .ctx c => c.modules.map (fun entry => (entry.2, .mod entry.1))
  | .mod m => m.subscriptions.map (fun entry => (entry.2, .sub entry.1))
  | _ => []

theorem Obj.mem_owns_of_entry {o : Obj} {entry : ℕ × Tag} (h : entry ∈ o.entries) :
    entry.1 ∈ o.owns := by
  cases o with
  | ctx c =>
      obtain ⟨e, he, rfl⟩ := List.mem_map.mp h
      exact List.mem_append_right _ (List.mem_map_of_mem he)
  | mod m =>
      obtain ⟨e, he, rfl⟩ := List.mem_map.mp h
      have hvalue : e.2 ∈ m.subscriptions.values := List.mem_map_of_mem he
      simp [Obj.owns, hvalue]
  | _ => cases h

theorem Obj.Sound.entry {h : Heap Obj} {o : Obj} (ho : o.Sound h) {entry : ℕ × Tag}
    (hentry : entry ∈ o.entries) : Points h entry.1 (· = entry.2) := by
  cases o with
  | ctx c =>
      obtain ⟨e, he, rfl⟩ := List.mem_map.mp hentry
      exact ho.modules e he
  | mod m =>
      obtain ⟨e, he, rfl⟩ := List.mem_map.mp hentry
      exact ho.subscriptions e he
  | _ => cases hentry

/-- All objects hold the right pointers, and those to objects of a kind in `K` are
accounted for, besides `hands`, that an operation in progress holds, and `ext`.  What
is in a table is there. -/
structure Owned (K : Tag → Prop) (ext : ℕ → ℕ) (hands : List ℕ) (h : Heap Obj) : Prop where
  settled : Settled h
  sound : ∀ p o, val h p = some o → o.Sound h
  hands_lt : ∀ p ∈ hands, p < h.length
  ext_lt : ∀ p, h.length ≤ p → ext p = 0
  counted : ∀ p o, val h p = some o → K o.tag →
    refs h p = holders Obj.owns h p + hands.count p + ext p
  kept : ∀ p o, val h p = some o → ∀ entry ∈ o.entries, K entry.2 →
    ∃ x, val h entry.1 = some x

namespace Owned

variable {K : Tag → Prop} {ext : ℕ → ℕ} {hands hands' : List ℕ} {h : Heap Obj}

theorem get_of_val (hO : Owned K ext hands h) {p : ℕ} {o : Obj} (ho : val h p = some o) :
    ∃ k, get h p = some ⟨k + 1, o⟩ := by
  obtain ⟨⟨k, o'⟩, hc, rfl⟩ := Option.map_eq_some_iff.mp ho
  have hpos := hO.settled p _ hc
  exact ⟨k - 1, by rw [hc, Nat.sub_add_cancel hpos]⟩

/-- Who holds the references that nobody accounts for does not matter. -/
theorem rehand (hO : Owned K ext hands h) (hlt : ∀ p ∈ hands', p < h.length)
    (hcount : ∀ p o, val h p = some o → K o.tag → hands'.count p = hands.count p) :
    Owned K ext hands' h :=
  { hO with
    hands_lt := hlt
    counted := by
      intro p o ho hK
      rw [hcount p o ho hK]
      exact hO.counted p o ho hK }

theorem reext {ext' : ℕ → ℕ} (hO : Owned K ext hands h) (hlt : ∀ p, h.length ≤ p → ext' p = 0)
    (hext : ∀ p o, val h p = some o → K o.tag → ext' p = ext p) : Owned K ext' hands h :=
  { hO with
    ext_lt := hlt
    counted := by
      intro p o ho hK
      rw [hext p o ho hK]
      exact hO.counted p o ho hK }

/-- A reference of the operation becomes one of the code or the user. -/
theorem give {p : ℕ} (hO : Owned K ext (p :: hands) h) :
    Owned K (Function.update ext p (ext p + 1)) hands h :=
  { hO with
    hands_lt := fun q hq => hO.hands_lt q (List.mem_cons_of_mem _ hq)
    ext_lt := by
      intro q hq
      have hp := hO.hands_lt p List.mem_cons_self
      rw [Function.update_of_ne (by omega)]
      exact hO.ext_lt q hq
    counted := by
      intro q o ho hK
      have hold := hO.counted q o ho hK
      by_cases hqp : q = p
      · subst hqp
        rw [List.count_cons_self] at hold
        rw [Function.update_self]
        omega
      · rw [List.count_cons_of_ne (Ne.symm hqp)] at hold
        rw [Function.update_of_ne hqp]
        exact hold }

theorem take {p : ℕ} (hO : Owned K ext hands h) (hp : 0 < ext p) :
    Owned K (Function.update ext p (ext p - 1)) (p :: hands) h :=
  { hO with
    hands_lt := by
      intro q hq
      rcases List.mem_cons.mp hq with rfl | hq
      · by_contra hge
        rw [hO.ext_lt q (by omega)] at hp
        exact absurd hp (by omega)
      · exact hO.hands_lt q hq
    ext_lt := by
      intro q hq
      by_cases hqp : q = p
      · subst hqp
        rw [hO.ext_lt q hq] at hp
        exact absurd hp (by omega)
      · rw [Function.update_of_ne hqp]
        exact hO.ext_lt q hq
    counted := by
      intro q o ho hK
      have hold := hO.counted q o ho hK
      by_cases hqp : q = p
      · subst hqp
        rw [Function.update_self, List.count_cons_self]
        omega
      · rw [List.count_cons_of_ne (Ne.symm hqp), Function.update_of_ne hqp]
        exact hold }

theorem ref {p : ℕ} {c : Cell Obj} (hO : Owned K ext hands h) (hp : get h p = some c) :
    Owned K ext (p :: hands) (put h p (some { c with refs := c.refs + 1 })) where
  settled := by
    intro q c' hq
    rw [get_put] at hq
    split at hq
    next =>
      cases hq
      exact Nat.succ_pos _
    next => exact hO.settled q c' hq
  sound := by
    intro q o ho
    rw [val_put_same hp] at ho
    exact (hO.sound q o ho).grown (Grown.put hp)
  hands_lt := by
    intro q hq
    rw [length_put]
    rcases List.mem_cons.mp hq with rfl | hq
    · exact lt_length hp
    · exact hO.hands_lt q hq
  ext_lt := by
    intro q hq
    exact hO.ext_lt q (by rwa [length_put] at hq)
  counted := by
    intro q o ho hK
    rw [val_put_same hp] at ho
    have hold := hO.counted q o ho hK
    have hpos : c.refs ≠ 0 := (hO.settled p c hp).ne'
    rw [holders_put_held hp (by simp [held, hpos])]
    by_cases hqp : p = q
    · subst hqp
      rw [refs_put_self hp, List.count_cons_self]
      simp only [refs, hp, Option.map_some, Option.getD_some] at hold ⊢
      omega
    · rw [refs_put_ne hqp, List.count_cons_of_ne hqp]
      exact hold
  kept := by
    intro q o ho entry hentry hK
    rw [val_put_same hp] at ho ⊢
    exact hO.kept q o ho entry hentry hK

theorem alloc {o : Obj} (hO : Owned K ext (o.owns ++ hands) h) (ho : o.Sound h)
    (hentries : o.entries = []) : Owned K ext (h.length :: hands) (alloc h o) where
  settled := by
    intro q c hq
    rw [get_alloc] at hq
    split at hq
    next =>
      cases hq
      exact Nat.one_pos
    next => exact hO.settled q c hq
  sound := by
    intro q o' ho'
    rw [val_alloc] at ho'
    split at ho'
    next =>
      cases ho'
      exact ho.grown (Grown.alloc h o)
    next => exact (hO.sound q o' ho').grown (Grown.alloc h o)
  hands_lt := by
    intro q hq
    rw [length_alloc]
    rcases List.mem_cons.mp hq with rfl | hq
    · omega
    · have hlt := hO.hands_lt q (List.mem_append_right _ hq)
      omega
  ext_lt := by
    intro q hq
    rw [length_alloc] at hq
    exact hO.ext_lt q (by omega)
  counted := by
    intro q o' ho' hK
    rw [refs_alloc, holders_alloc]
    split
    next hq =>
      subst hq
      have hnobody : holders Obj.owns h h.length = 0 := by
        apply holders_eq_zero
        intro q c hq hmem
        exact absurd ((hO.sound q c.val (by simp [val, hq])).owns_lt hmem) (by omega)
      have hnew : (o.owns ++ hands).count h.length = 0 :=
        List.count_eq_zero_of_not_mem (fun hmem => absurd (hO.hands_lt _ hmem) (by omega))
      rw [List.count_append] at hnew
      rw [hnobody, List.count_cons_self, hO.ext_lt _ le_rfl]
      omega
    next hq =>
      rw [val_alloc, if_neg hq] at ho'
      have hold := hO.counted q o' ho' hK
      rw [List.count_append] at hold
      rw [List.count_cons_of_ne (Ne.symm hq)]
      omega
  kept := by
    intro q o' ho' entry hentry hK
    rw [val_alloc] at ho'
    split at ho'
    next =>
      cases ho'
      rw [hentries] at hentry
      cases hentry
    next =>
      have hlt := (hO.sound q o' ho').owns_lt (Obj.mem_owns_of_entry hentry)
      rw [val_alloc, if_neg hlt.ne]
      exact hO.kept q o' ho' entry hentry hK

/-- A change of an object that keeps its kind moves references between the object and
the operation. -/
theorem modify {p : ℕ} {o : Obj} {f : Obj → Obj} (hO : Owned K ext hands h)
    (hp : val h p = some o) (htag : (f o).tag = o.tag) (hsound : (f o).Sound h)
    (hlt : ∀ q ∈ hands', q < h.length)
    (hcount : ∀ q o', val h q = some o' → K o'.tag →
      (f o).owns.count q + hands'.count q = o.owns.count q + hands.count q)
    (hentries : ∀ entry ∈ (f o).entries, K entry.2 →
      entry ∈ o.entries ∨ ∃ x, val h entry.1 = some x) :
    Owned K ext hands' (modify h p f) := by
  have hgrown : Grown h (RefHeap.modify h p f) :=
    Grown.modify (fun o' ho' => by cases hp.symm.trans ho'; exact htag)
  obtain ⟨k, hc⟩ := hO.get_of_val hp
  exact
    { settled := by
        intro q c hq
        rw [get_modify] at hq
        split at hq
        next =>
          obtain ⟨c', hc', rfl⟩ := Option.map_eq_some_iff.mp hq
          exact hO.settled q c' hc'
        next => exact hO.settled q c hq
      sound := by
        intro q o' ho'
        rw [val_modify] at ho'
        split at ho'
        next hpq =>
          subst hpq
          rw [hp, Option.map_some, Option.some.injEq] at ho'
          subst ho'
          exact hsound.grown hgrown
        next => exact (hO.sound q o' ho').grown hgrown
      hands_lt := by
        intro q hq
        rw [length_modify]
        exact hlt q hq
      ext_lt := by
        intro q hq
        exact hO.ext_lt q (by rwa [length_modify] at hq)
      counted := by
        intro q o' ho' hK
        have hbefore : ∃ o₀, val h q = some o₀ ∧ o₀.tag = o'.tag := by
          rw [val_modify] at ho'
          split at ho'
          next hpq =>
            subst hpq
            rw [hp, Option.map_some, Option.some.injEq] at ho'
            subst ho'
            exact ⟨_, hp, htag.symm⟩
          next => exact ⟨o', ho', rfl⟩
        obtain ⟨o₀, ho₀, htag₀⟩ := hbefore
        have hold := hO.counted q o₀ ho₀ (htag₀ ▸ hK)
        have hmoved := hcount q o₀ ho₀ (htag₀ ▸ hK)
        have hholders := @holders_modify _ Obj.owns _ _ _ _ f hc q
        rw [refs_modify]
        omega
      kept := by
        intro q o' ho' entry hentry hK
        have hthere : ∃ x, val h entry.1 = some x := by
          rw [val_modify] at ho'
          split at ho'
          next hpq =>
            subst hpq
            rw [hp, Option.map_some, Option.some.injEq] at ho'
            subst ho'
            rcases hentries entry hentry hK with hold | hthere
            · exact hO.kept p _ hp entry hold hK
            · exact hthere
          next => exact hO.kept q o' ho' entry hentry hK
        obtain ⟨x, hx⟩ := hthere
        rw [val_modify]
        split
        next => exact ⟨f x, by rw [hx]; rfl⟩
        next => exact ⟨x, hx⟩ }

/-- An entry of a table leads to an object of its kind. -/
theorem entry (hO : Owned K ext hands h) {p : ℕ} {o : Obj} (ho : val h p = some o)
    {entry : ℕ × Tag} (hentry : entry ∈ o.entries) (hK : K entry.2) :
    ∃ x, val h entry.1 = some x ∧ x.tag = entry.2 := by
  obtain ⟨x, hx⟩ := hO.kept p o ho entry hentry hK
  exact ⟨x, hx, ((hO.sound p o ho).entry hentry).2 x hx⟩

end Owned

end Libmodule
