import Libmodule.Advancing
import Libmodule.EventErrno
import Libmodule.OwnedOps

/-!
# The removal of a source that fires once

`recv_events` looks a oneshot source up in its tree by the source itself, where the
comparator expects a key of the user.  The search meets the source only if the words that
happen to lie at the place of the key lead there.
-/

namespace SearchTree

variable {α : Type} {actual : α → Option ℤ} {drops : α → Prop} {p : α} {t : NodeTree α}

/-- The search by these comparisons meets `p` if the tree has it, and no other value; what a
removal destroys there is fit for it. -/
def Meets (actual : α → Option ℤ) (drops : α → Prop) (p : α) : NodeTree α → Prop
  | .leaf => True
  | .node id left value right =>
      ∃ ret, actual value = some ret ∧
        (ret = 0 → value = p ∧ ∀ q ∈ destroyedRoot (.node id left value right), drops q) ∧
        (0 < ret → value ≠ p ∧ p ∉ left.values ∧ Meets actual drops p right) ∧
        (ret < 0 → value ≠ p ∧ p ∉ right.values ∧ Meets actual drops p left)

/-- Where the search ends: at a leaf, or at the node of `p`. -/
inductive Met (drops : α → Prop) (p : α) (t : NodeTree α) : NodeTree α → Prop
  | leaf (hp : p ∉ t.values) : Met drops p t .leaf
  | node {id : ℕ} {left right : NodeTree α}
      (hdrops : ∀ q ∈ destroyedRoot (.node id left p right), drops q) :
      Met drops p t (.node id left p right)

theorem mem_of_seekBy {c d : List (Frame α)} {r : NodeTree α}
    (h : seekBy actual c t = some (d, r)) {v : α} (hv : v ∈ r.values) : v ∈ t.values := by
  induction t generalizing c with
  | leaf =>
      cases h
      exact hv
  | node id left value right ihl ihr =>
      rw [seekBy] at h
      obtain ⟨ret, -, h⟩ := Option.bind_eq_some_iff.mp h
      rw [NodeTree.values_node, List.mem_append, List.mem_cons]
      split at h
      next =>
        split at h
        next => exact .inr (.inr (ihr h))
        next => exact .inl (ihl h)
      next =>
        cases h
        simpa using hv

/-- The same end, seen from a tree in which the search has gone down. -/
theorem Met.retarget {t' r : NodeTree α} (h : Met drops p t r) (hp : p ∉ t.values → p ∉ t'.values) :
    Met drops p t' r := by
  cases h with
  | leaf hmiss => exact .leaf (hp hmiss)
  | node hdrops => exact .node hdrops

theorem meets_iff (hnodup : t.values.Nodup) (c : List (Frame α)) :
    Meets actual drops p t ↔ ∃ d r, seekBy actual c t = some (d, r) ∧ Met drops p t r := by
  induction t generalizing c with
  | leaf => exact ⟨fun _ => ⟨c, .leaf, rfl, .leaf (by simp)⟩, fun _ => trivial⟩
  | node id left value right ihl ihr =>
      rw [NodeTree.values_node, List.nodup_append, List.nodup_cons] at hnodup
      obtain ⟨hleft, ⟨hvalue, hright⟩, hdisjoint⟩ := hnodup
      have hoff : value ∉ left.values := fun h => hdisjoint _ h _ List.mem_cons_self rfl
      constructor
      · rintro ⟨ret, hret, hzero, hpos, hneg⟩
        rw [seekBy, hret, Option.bind_eq_bind, Option.bind_some]
        rcases lt_trichotomy ret 0 with hsign | rfl | hsign
        · obtain ⟨hne, hmiss, hmeets⟩ := hneg hsign
          obtain ⟨d, r, hseek, hmet⟩ := (ihl hleft (.left id value right :: c)).mp hmeets
          rw [if_pos hsign.ne, if_neg hsign.not_gt]
          exact ⟨d, r, hseek, hmet.retarget (by simp [hne.symm, hmiss])⟩
        · obtain ⟨rfl, hdrops⟩ := hzero rfl
          exact ⟨c, _, rfl, .node hdrops⟩
        · obtain ⟨hne, hmiss, hmeets⟩ := hpos hsign
          obtain ⟨d, r, hseek, hmet⟩ := (ihr hright (.right id left value :: c)).mp hmeets
          rw [if_pos hsign.ne', if_pos hsign]
          exact ⟨d, r, hseek, hmet.retarget (by simp [hne.symm, hmiss])⟩
      · rintro ⟨d, r, hseek, hmet⟩
        rw [seekBy] at hseek
        obtain ⟨ret, hret, hseek⟩ := Option.bind_eq_some_iff.mp hseek
        refine ⟨ret, hret, ?_, ?_, ?_⟩
        · rintro rfl
          rw [if_neg (not_not.mpr rfl)] at hseek
          cases hseek
          cases hmet with
          | node hdrops => exact ⟨rfl, hdrops⟩
        · intro hpos
          rw [if_pos hpos.ne', if_pos hpos] at hseek
          have hthere : p ∈ right.values ∨ p ∉ (NodeTree.node id left value right).values := by
            cases hmet with
            | leaf hmiss => exact .inr hmiss
            | node => exact .inl (mem_of_seekBy hseek (by simp))
          have hmet' := @Met.retarget _ drops p _ right r hmet (by simp)
          refine ⟨?_, ?_, (ihr hright _).mpr ⟨d, r, hseek, hmet'⟩⟩
          · rintro rfl
            exact hthere.elim hvalue (fun hmiss => hmiss (by simp))
          · intro hmem
            exact hthere.elim (fun h => hdisjoint _ hmem _ (List.mem_cons_of_mem _ h) rfl)
              (fun hmiss => hmiss (by simp [hmem]))
        · intro hneg
          rw [if_pos hneg.ne, if_neg hneg.not_gt] at hseek
          have hthere : p ∈ left.values ∨ p ∉ (NodeTree.node id left value right).values := by
            cases hmet with
            | leaf hmiss => exact .inr hmiss
            | node => exact .inl (mem_of_seekBy hseek (by simp))
          have hmet' := @Met.retarget _ drops p _ left r hmet (by simp; tauto)
          refine ⟨?_, ?_, (ihl hleft _).mpr ⟨d, r, hseek, hmet'⟩⟩
          · rintro rfl
            exact hthere.elim hoff (fun hmiss => hmiss (by simp))
          · intro hmem
            exact hthere.elim (fun h => hdisjoint _ h _ (List.mem_cons_of_mem _ hmem) rfl)
              (fun hmiss => hmiss (by simp [hmem]))

end SearchTree

namespace Libmodule

open SearchTree RefHeap Reentrant

/-! ## Removals from a tree -/

section Tree

variable {actual : ℕ → Option ℤ} {drops : ℕ → Prop} {p : ℕ} {t t' : NodeTree ℕ}

theorem filter_ne_of_notMem {l : List ℕ} (hp : p ∉ l) : l.filter (· ≠ p) = l := by
  rw [List.filter_eq_self]
  intro q hq
  exact decide_eq_true (fun h => hp (h ▸ hq))

theorem treeRemove_eq_some (ht : t ≠ .leaf) {ret : ℤ} {gone : Option ℕ} :
    treeRemove actual t = some (ret, t', gone) ↔ ∃ c r, seekBy actual [] t = some (c, r) ∧
      (r = .leaf ∧ ret = -ENOENT ∧ t' = t ∧ gone = none ∨
        r ≠ .leaf ∧ ret = 0 ∧ t' = plug c (removeRoot r) ∧ gone = destroyedRoot r) := by
  cases t with
  | leaf => exact absurd rfl ht
  | node i x v y =>
      simp only [treeRemove, Option.bind_eq_bind, Option.bind_eq_some_iff]
      constructor
      · rintro ⟨⟨c, r⟩, hseek, h⟩
        refine ⟨c, r, hseek, ?_⟩
        cases r with
        | leaf =>
            cases h
            exact .inl ⟨rfl, rfl, rfl, rfl⟩
        | node =>
            cases h
            exact .inr ⟨by simp, rfl, rfl, rfl⟩
      · rintro ⟨c, r, hseek, ⟨rfl, rfl, rfl, rfl⟩ | ⟨hr, rfl, rfl, rfl⟩⟩
        · exact ⟨(c, .leaf), hseek, rfl⟩
        · refine ⟨(c, r), hseek, ?_⟩
          cases r with
          | leaf => exact absurd rfl hr
          | node => rfl

theorem plug_of_seekBy {c : List (Frame ℕ)} {r : NodeTree ℕ}
    (hseek : seekBy actual [] t = some (c, r)) : plug c r = t := by
  have hplug := plug_seek (fun value => (actual value).getD 0) [] t
  rw [(seekBy_agrees hseek).2] at hplug
  exact hplug

theorem filter_ne_cut {a b : List ℕ} {v : ℕ} (hnodup : (a ++ v :: b).Nodup) :
    a ++ b = (a ++ v :: b).filter (· ≠ p) ↔ v = p := by
  have hv : v ∉ a ++ b := (List.nodup_cons.mp (List.nodup_middle.mp hnodup)).1
  constructor
  · intro hcut
    by_contra hne
    have hkept : v ∈ (a ++ v :: b).filter (· ≠ p) := by simp [hne]
    exact hv (hcut ▸ hkept)
  · rintro rfl
    rw [List.filter_append, List.filter_cons_of_neg (by simp), ← List.filter_append,
      filter_ne_of_notMem hv]

theorem removed_iff {c : List (Frame ℕ)} {id v : ℕ} {left right : NodeTree ℕ}
    (hnodup : (plug c (.node id left v right)).values.Nodup) :
    (plug c (removeRoot (.node id left v right))).values =
      (plug c (.node id left v right)).values.filter (· ≠ p) ↔ v = p := by
  have hwith : (plug c (.node id left v right)).values =
      ((before c).map Prod.snd ++ left.values) ++
        v :: (right.values ++ (after c).map Prod.snd) := by
    rw [Bst.values_plug, NodeTree.values_node]
    simp
  have hwithout : (plug c (removeRoot (.node id left v right))).values =
      ((before c).map Prod.snd ++ left.values) ++ (right.values ++ (after c).map Prod.snd) := by
    rw [Bst.values_plug, values_removeRoot]
    simp
  rw [hwith] at hnodup
  rw [hwith, hwithout, filter_ne_cut hnodup]

/-- A removal takes `p` and nothing else out of the tree exactly when its search meets `p`. -/
theorem treeRemove_iff_meets (hnodup : t.values.Nodup) :
    (∃ ret t' gone, treeRemove actual t = some (ret, t', gone) ∧
      t'.values = t.values.filter (· ≠ p) ∧ ∀ q ∈ gone, drops q) ↔ Meets actual drops p t := by
  rw [meets_iff hnodup []]
  by_cases ht : t = .leaf
  · subst ht
    refine ⟨fun _ => ⟨[], .leaf, rfl, .leaf (by simp)⟩, fun _ => ?_⟩
    exact ⟨_, .leaf, none, rfl, rfl, by rintro _ ⟨⟩⟩
  simp only [treeRemove_eq_some ht]
  constructor
  · rintro ⟨ret, t', gone, ⟨c, r, hseek, hend⟩, hvalues, hdrops⟩
    refine ⟨c, r, hseek, ?_⟩
    rcases hend with ⟨rfl, -, rfl, -⟩ | ⟨hr, -, rfl, rfl⟩
    · refine .leaf (fun hp => ?_)
      rw [hvalues] at hp
      exact absurd (List.mem_filter.mp hp).2 (by simp)
    · cases r with
      | leaf => exact absurd rfl hr
      | node id left value right =>
          obtain rfl := plug_of_seekBy hseek
          obtain rfl := (removed_iff hnodup).mp hvalues
          exact .node hdrops
  · rintro ⟨c, r, hseek, hmet⟩
    cases hmet with
    | leaf hp =>
        exact ⟨_, t, none, ⟨c, .leaf, hseek, .inl ⟨rfl, rfl, rfl, rfl⟩⟩,
          (filter_ne_of_notMem hp).symm, by rintro _ ⟨⟩⟩
    | node hdrops =>
        obtain rfl := plug_of_seekBy hseek
        exact ⟨_, _, _, ⟨c, _, hseek, .inr ⟨by simp, rfl, rfl, rfl⟩⟩, (removed_iff hnodup).mpr rfl,
          hdrops⟩

end Tree

/-! ## Trees without repetition -/

/-- No tree of a module has a source twice. -/
def TreesDistinct (w : World) : Prop :=
  ∀ m x, modAt w.heap m = some x → ∀ type, (x.srcs type).values.Nodup

section Distinct

variable {actual : ℕ → Option ℤ} {id data m : ℕ} {t t' : NodeTree ℕ} {ret : ℤ} {w u v w' : World}
  {x x' : Mod} {o : Op}

theorem nodup_treeInsert (hnodup : t.values.Nodup) (hnew : data ∉ t.values)
    (h : treeInsert actual id data t = some (ret, t')) : t'.values.Nodup := by
  obtain ⟨⟨c, r⟩, hseek, h⟩ := Option.bind_eq_some_iff.mp h
  obtain rfl := plug_of_seekBy hseek
  cases r with
  | leaf =>
      cases h
      rw [Bst.values_plug] at hnodup hnew ⊢
      simp only [NodeTree.values_node, NodeTree.values_leaf, List.nil_append, List.append_nil,
        List.append_assoc, List.singleton_append] at hnodup hnew ⊢
      exact List.nodup_middle.mpr (List.nodup_cons.mpr ⟨hnew, hnodup⟩)
  | node =>
      cases h
      exact hnodup

theorem nodup_treeRemove {gone : Option ℕ} (hnodup : t.values.Nodup)
    (h : treeRemove actual t = some (ret, t', gone)) : t'.values.Nodup := by
  by_cases ht : t = .leaf
  · subst ht
    cases h
    exact hnodup
  obtain ⟨c, r, hseek, ⟨rfl, -, rfl, -⟩ | ⟨hr, -, rfl, -⟩⟩ := (treeRemove_eq_some ht).mp h
  · exact hnodup
  · obtain rfl := plug_of_seekBy hseek
    cases r with
    | leaf => exact absurd rfl hr
    | node id left value right =>
        rw [(removed_iff (p := value) hnodup).mpr rfl]
        exact hnodup.filter _

theorem TreesDistinct.calm (hw : TreesDistinct w) (h : Calm w w') : TreesDistinct w' :=
  fun m x hx => hw m x (h.mods m x hx)

theorem TreesDistinct.setTree {type : MSrcType} (hw : TreesDistinct w) (ht : t.values.Nodup)
    (h : w.setTree m type t = some w') : TreesDistinct w' := by
  intro m' x' hx' type'
  obtain ⟨x, hx, rfl⟩ := (ModChange.of_setMod h).mods m' x' hx'
  split
  next =>
    by_cases htype : type' = type
    · subst htype
      simpa using ht
    · simpa [htype] using hw m' x hx type'
  next => exact hw m' x hx type'

theorem srcs_of_onMod (h : o.OnMod m x x') (hadd : ∀ m type key flags userptr,
      o ≠ .addSrc m type key flags userptr) (hremove : ∀ m type data, o ≠ .bstRemove m type data)
    (hfirst : ∀ m type, o ≠ .bstItrRemove m type) : x'.srcs = x.srcs := by
  cases o with
  | addSrc m type key flags userptr => exact absurd rfl (hadd m type key flags userptr)
  | bstRemove m type data => exact absurd rfl (hremove m type data)
  | bstItrRemove m type => exact absurd rfl (hfirst m type)
  | setMod p field =>
      obtain rfl : x' = _ := h
      split
      next => cases field <;> rfl
      next => rfl
  | clear p queue =>
      obtain rfl : x' = _ := h
      split
      next => cases queue <;> rfl
      next => rfl
  | markRunning | markStopped | markZombie | enqueueBatch | takeBatch | stash | unstash | bind =>
      obtain rfl : x' = _ := h
      split <;> rfl
  | subscriptionsPut | subscriptionsRemove =>
      obtain ⟨-, _, rfl⟩ := h
      rfl
  | pipe =>
      obtain ⟨-, _, _, rfl⟩ := h
      rfl
  | _ => exact congrArg Mod.srcs (show x' = x from h)

theorem TreesDistinct.exec {r : o.Resp} (hO : SubsOwned w) (hw : TreesDistinct w)
    (h : o.exec w = some (r, w')) : TreesDistinct w' := by
  have hother : (∀ m x x', o.OnMod m x x' → x'.srcs = x.srcs) → TreesDistinct w' := by
    intro hsrcs m x' hx' type
    rcases (Op.effect h).mods m x' hx' with ⟨x, hx, hon⟩ | ⟨-, c, name, flags, hook, -, hnew⟩
    · rw [hsrcs m x x' hon]
      exact hw m x hx type
    · obtain ⟨state, -, rfl⟩ := hnew
      exact List.nodup_nil
  cases o with
  | addSrc m type key flags userptr =>
      have h : w.addSrc m type key flags userptr = some (r, w') := h
      unfold World.addSrc at h
      simp only [Option.bind_eq_bind, Option.bind_eq_some_iff] at h
      obtain ⟨x, hx, ⟨inserted, t⟩, hinsert, h⟩ := h
      have hnew : Calm w
          ({ w with sys := (World.createSrc (some m) type key flags userptr w.sys).2 }.new
            (.src (World.createSrc (some m) type key flags userptr w.sys).1)).2 := by
        refine Calm.trans (.of_heap_eq ?_) (.new (o := .src _) (by simp) (by simp))
        rfl
      have hx₀ := hnew.mods m x hx
      split at h
      next =>
        simp only [Option.bind_eq_some_iff, Option.some.injEq] at h
        obtain ⟨u, hset, h⟩ := h
        cases h
        refine (hw.calm hnew).setTree (nodup_treeInsert (hw m x hx₀ type) ?_ hinsert) hset
        intro hmem
        exact absurd ((hO.sound_mod hx₀).srcs type _ hmem).1 (lt_irrefl _)
      next =>
        simp only [Option.bind_eq_some_iff, Option.some.injEq] at h
        obtain ⟨u, hunref, h⟩ := h
        cases h
        exact (hw.calm hnew).calm (.unrefAll hunref)
  | bstRemove m type data =>
      have h : w.bstRemove m type data = some (r, w') := h
      unfold World.bstRemove at h
      simp only [Option.bind_eq_bind, Option.bind_eq_some_iff, Option.some.injEq] at h
      obtain ⟨x, hx, ⟨removed, t, destroyed⟩, hremove, u, hset, v, hunref, h⟩ := h
      cases h
      exact (hw.setTree (nodup_treeRemove (hw m x hx type) hremove) hset).calm (.unrefAll hunref)
  | bstItrRemove m type =>
      have h : w.bstItrRemove m type = some (r, w') := h
      unfold World.bstItrRemove at h
      simp only [Option.bind_eq_bind, Option.bind_eq_some_iff, Option.some.injEq] at h
      obtain ⟨x, hx, u, hset, v, hunref, h⟩ := h
      cases h
      refine (hw.setTree ?_ hset).calm (.unrefAll hunref)
      rw [Bst.values_removeFirst]
      exact (hw m x hx type).tail
  | _ => exact hother (fun _ _ _ hon => srcs_of_onMod hon (by simp) (by simp) (by simp))

/-- In every state that the library reaches, no tree has a source twice. -/
theorem treesDistinct_reached {host : Host} {script : List Reaction} {polls : List PollAnswer}
    {faults : List ℤ} (h : Later (World.initial host script polls faults) w) :
    TreesDistinct w := by
  have hO := fun v (h : Later (World.initial host script polls faults) v) => subsOwned_reached h
  generalize hstart : World.initial host script polls faults = start at *
  induction h with
  | refl =>
      subst hstart
      intro m x hx
      simp [World.initial, val, RefHeap.get] at hx
  | exec hlater hexec ih => exact ih.exec (hO _ hlater) hexec
  | react hlater hook ih =>
      have hw := ih
      unfold World.react
      split <;> exact hw

end Distinct

/-! ## Dropping a source -/

section Dropping

variable {h h' : Heap Obj} {w v : World} {p q k : ℕ} {s : EvSource}

/-- Two heaps agree on what the destructor of a source reads. -/
structure SameOwners (h h' : Heap Obj) : Prop where
  mods : ∀ m, (modAt h m).map (fun x => (x.state, x.ctx)) =
    (modAt h' m).map (fun x => (x.state, x.ctx))
  ctxs : ∀ c, (ctxAt h c).isSome = (ctxAt h' c).isSome

theorem isSome_dtor_source (hsame : SameOwners h h') (sys sys' : Sys) :
    (Obj.dtor h p (.src s) sys).isSome = (Obj.dtor h' p (.src s) sys').isSome := by
  simp only [Obj.dtor, srcPrivDtor, srcDisarm]
  split
  next => rfl
  next =>
    split
    next => rfl
    next m _ =>
      have hmods := hsame.mods m
      cases hx : modAt h m with
      | none =>
          rw [hx, Option.map_none, eq_comm, Option.map_eq_none_iff] at hmods
          simp [hmods]
      | some x =>
          rw [hx, Option.map_some, eq_comm, Option.map_eq_some_iff] at hmods
          obtain ⟨x', hx', hfields⟩ := hmods
          obtain ⟨hstate, hctx⟩ := Prod.mk.inj hfields
          have hctxs := hsame.ctxs x.ctx
          simp only [hx', hstate, hctx, Option.bind_eq_bind, Option.bind_some]
          split
          next =>
            cases hc : ctxAt h x.ctx with
            | none =>
                rw [hc, Option.isSome_none, eq_comm, Option.isSome_eq_false_iff,
                  Option.isNone_iff_eq_none] at hctxs
                simp [hctxs]
            | some y =>
                rw [hc, Option.isSome_some, eq_comm, Option.isSome_iff_exists] at hctxs
                obtain ⟨y', hy'⟩ := hctxs
                simp [hy']
          next => rfl

theorem unrefAll_last (hq : get w.heap q = some ⟨1, .src s⟩) :
    w.unrefAll [q] = (Obj.dtor w.heap q (.src s) w.sys).map
      (fun sys => { w with heap := put w.heap q none, sys := sys }) := by
  obtain ⟨fuel, hfuel⟩ := exists_budget hq
  unfold World.unrefAll
  rw [hfuel, List.map_cons, List.map_nil, release_leaf hq rfl]
  cases Obj.dtor w.heap q (.src s) w.sys <;> rfl

theorem unrefAll_none (hq : get w.heap q = none) : w.unrefAll [q] = none := by
  unfold World.unrefAll
  cases budget w.heap with
  | zero => rfl
  | succ fuel => simp [release, hq]

theorem isSome_unrefAll_source (hs : Settled w.heap) (hq : get w.heap q = get v.heap q)
    (hsrc : ∀ o, val w.heap q = some o → ∃ s, o = .src s) (hsame : SameOwners w.heap v.heap) :
    (w.unrefAll [q]).isSome = (v.unrefAll [q]).isSome := by
  cases hcell : get w.heap q with
  | none => rw [unrefAll_none hcell, unrefAll_none (hq.symm.trans hcell)]
  | some cell =>
      obtain ⟨refs, o⟩ := cell
      obtain ⟨k, rfl⟩ : ∃ k, refs = k + 1 := Nat.exists_eq_succ_of_ne_zero (hs q _ hcell).ne'
      obtain ⟨s, rfl⟩ := hsrc o (by rw [val, hcell]; rfl)
      cases k with
      | zero =>
          rw [unrefAll_last hcell, unrefAll_last (hq.symm.trans hcell), Option.isSome_map,
            Option.isSome_map, isSome_dtor_source hsame]
      | succ k => rw [unrefAll_shared hcell, unrefAll_shared (hq.symm.trans hcell)]; rfl

/-- Nothing but the source itself goes when its reference is dropped. -/
theorem get_unrefAll_source (hs : Settled w.heap)
    (hsrc : ∀ o, val w.heap q = some o → ∃ s, o = .src s) (hdrop : w.unrefAll [q] = some v)
    (hp : p ≠ q) : get v.heap p = get w.heap p := by
  cases hcell : get w.heap q with
  | none =>
      rw [unrefAll_none hcell] at hdrop
      cases hdrop
  | some cell =>
      obtain ⟨refs, o⟩ := cell
      obtain ⟨k, rfl⟩ : ∃ k, refs = k + 1 := Nat.exists_eq_succ_of_ne_zero (hs q _ hcell).ne'
      obtain ⟨s, rfl⟩ := hsrc o (by rw [val, hcell]; rfl)
      cases k with
      | zero =>
          rw [unrefAll_last hcell] at hdrop
          obtain ⟨sys, -, rfl⟩ := Option.map_eq_some_iff.mp hdrop
          exact get_put_ne hp.symm
      | succ k =>
          rw [unrefAll_shared hcell] at hdrop
          obtain rfl := Option.some.inj hdrop
          exact get_put_ne hp.symm

end Dropping

/-! ## The event -/

/-- The next event is that of a oneshot source with a tree, and nothing fails before the
source is removed. -/
structure OneshotFires (w : World) (this m e : ℕ) (s : EvSource) (u : World) : Prop where
  next : nextEvt w = some (this, s, m, e, u)
  type : s.type ≠ .ps
  oneshot : hasFlag s.flags M_SRC_ONESHOT = true
  succeeds : ProcessSucceeds s e u
  errno : w.sys.errno = 0

/-- The source has left its tree, and no other source any tree or the subscriptions. -/
structure RemovedOnly (w v : World) (m this : ℕ) (type : MSrcType) : Prop where
  sources : ∃ x x', modAt w.heap m = some x ∧ modAt v.heap m = some x' ∧
    (x'.srcs type).values = (x.srcs type).values.filter (· ≠ this) ∧
    (∀ type' ≠ type, x'.srcs type' = x.srcs type') ∧ x'.subscriptions = x.subscriptions

/-- `recv_events` gets to `push_evt`, and then the source has been removed. -/
def RemovesItself (depth c recved : ℕ) (w : World) (this m e : ℕ) (s : EvSource) (u : World) :
    Prop :=
  ∃ p v₀ v, (processSrc this e).Ends (handler depth) u p v₀ ∧
    (removeOneshot m p).Ends (handler depth) v₀ () v ∧ RemovedOnly w v m this s.type ∧
    GoesOn depth (recvEvent c recved) w (do
      pushEvt m e
      return (recved + 1, 0)) v

/-- The first words of the source, taken for a key, lead to it. -/
def LeadsToItself (w : World) (this m : ℕ) (s : EvSource) : Prop :=
  ∃ x, modAt w.heap m = some x ∧ Meets (w.compareWith s.type s.words)
    (fun q => q ≠ this → (w.unrefAll [q]).isSome = true) this (x.srcs s.type)

/-- The source has given its event, which keeps a reference to it. -/
structure Handled (w v : World) (this e : ℕ) (s : EvSource) : Prop where
  host : v.host = w.host
  settled : Settled v.heap
  new : w.heap.length ≤ e
  vals : ∀ p ≠ e, val v.heap p = val w.heap p
  cells : ∀ p, p ≠ e → p ≠ this → get v.heap p = get w.heap p
  own : ∃ k, get v.heap this = some ⟨k + 2, .src s⟩
  evt : ∃ x, val v.heap e = some (.evt x) ∧ x.data = .other

section Event

variable {w u v v₀ : World} {this m e depth c recved : ℕ} {s : EvSource} {x : Mod} {ret : ℤ}

theorem Handled.fresh (h : Handled w v this e s) : val w.heap e = none := by
  cases hget : get w.heap e with
  | none => rw [val, hget]; rfl
  | some cell => exact absurd (lt_length hget) h.new.not_gt

theorem Handled.modAt_eq (h : Handled w v this e s) (p : ℕ) : modAt v.heap p = modAt w.heap p := by
  by_cases hp : p = e
  · obtain ⟨y, hy, -⟩ := h.evt
    rw [hp, modAt, modAt, hy, h.fresh]
  · rw [modAt, modAt, h.vals p hp]

theorem Handled.srcAt_eq (h : Handled w v this e s) (p : ℕ) : srcAt v.heap p = srcAt w.heap p := by
  by_cases hp : p = e
  · obtain ⟨y, hy, -⟩ := h.evt
    rw [hp, srcAt, srcAt, hy, h.fresh]
  · rw [srcAt, srcAt, h.vals p hp]

theorem Handled.ctxAt_eq (h : Handled w v this e s) (p : ℕ) : ctxAt v.heap p = ctxAt w.heap p := by
  by_cases hp : p = e
  · obtain ⟨y, hy, -⟩ := h.evt
    rw [hp, ctxAt, ctxAt, hy, h.fresh]
  · rw [ctxAt, ctxAt, h.vals p hp]

theorem Handled.compareWith_eq (h : Handled w v this e s) (type : MSrcType) (data : Words) :
    v.compareWith type data = w.compareWith type data := by
  funext p
  rw [World.compareWith, World.compareWith, h.srcAt_eq, h.host]

/-- The event `e` has got its data. -/
def World.withOther (u : World) (e : ℕ) (sys : Sys) : World :=
  { u with
    heap := modify u.heap e (Obj.mapEvt fun y => { y with data := .other })
    sys := sys }

/-- The event of a source with a tree is filled in without a look at the module. -/
theorem processSrc_goesOn (hsrc : srcAt u.heap this = some s) (htype : s.type ≠ .ps)
    (hok : ProcessSucceeds s e u) (hevt : ∃ y, evtAt u.heap e = some y) :
    ∃ sys, sys.errno = u.sys.errno ∧ ∀ depth,
      GoesOn depth (processSrc this e) u (pure (some this)) (u.withOther e sys) := by
  obtain ⟨y, hy⟩ := hevt
  have hset : (Op.setEvtOther e).exec u = some ((), u.withOther e u.sys) := by
    simp only [Op.exec, World.setEvt, hy, Option.bind_eq_bind, Option.bind_some, Option.map_some]
    rfl
  have hplain : s.type = .fd ∨ s.type = .pid → ∃ sys, sys.errno = u.sys.errno ∧ ∀ depth,
      GoesOn depth (processSrc this e) u (pure (some this)) (u.withOther e sys) := by
    intro hkind
    refine ⟨u.sys, rfl, fun depth => (derefSrc_goesOn hsrc).trans ?_⟩
    rcases hkind with hkind | hkind
    all_goals
      rw [hkind]
      exact act_goesOn hset
  have hread : u.sys.readPriv.1 = 0 → (s.type = .tmr ∨ s.type = .sgn ∨ s.type = .path ∨
      s.type = .task ∨ s.type = .thresh) → ∃ sys, sys.errno = u.sys.errno ∧ ∀ depth,
      GoesOn depth (processSrc this e) u (pure (some this)) (u.withOther e sys) := by
    intro hzero hkind
    refine ⟨u.sys.readPriv.2, errno_readPriv hzero, fun depth => (derefSrc_goesOn hsrc).trans ?_⟩
    rcases hkind with hkind | hkind | hkind | hkind | hkind
    all_goals
      rw [hkind]
      exact (act_goesOn hset).trans (act_goesOn rfl)
  cases htype' : s.type with
  | ps => exact absurd htype' htype
  | fd => exact hplain (.inl htype')
  | pid => exact hplain (.inr htype')
  | tmr | sgn | path | task | thresh =>
      simp only [ProcessSucceeds, htype'] at hok
      exact hread hok (by simp [htype'])

theorem handled_withOther {w₁ : World} {k : ℕ} {sys : Sys} (hheap : w₁.heap = w.heap)
    (hhost : w₁.host = w.host) (hnew : w₁.newEvt (some this) = some (e, u))
    (hk : get u.heap this = some ⟨k + 2, .src s⟩) (hs : Settled (u.withOther e sys).heap) :
    Handled w (u.withOther e sys) this e s := by
  unfold World.newEvt World.ref at hnew
  simp only [Option.bind_eq_bind, Option.bind_some, Option.bind_eq_some_iff, Option.some.injEq]
    at hnew
  obtain ⟨s', -, _, ⟨cell, hcell, rfl⟩, hnew⟩ := hnew
  obtain ⟨rfl, rfl⟩ := Prod.mk.inj hnew
  simp only [hheap] at hcell hk hs ⊢
  have hlength : (put w.heap this (some ⟨cell.refs + 1, cell.val⟩)).length = w.heap.length :=
    length_put _ _ _
  have hthis : this ≠ w.heap.length := (lt_length hcell).ne
  refine ⟨hhost, hs, ?_, fun p hp => ?_, fun p hp hne => ?_, ⟨k, ?_⟩, ?_⟩
  · exact hlength.ge
  · rw [World.withOther, val_modify, if_neg hp.symm, val_alloc, if_neg hp, val_put_same hcell]
  · rw [World.withOther, get_modify, if_neg hp.symm, get_alloc, if_neg hp, get_put_ne hne.symm]
  · rw [World.withOther, get_modify, if_neg (hlength ▸ hthis.symm)]
    exact hk
  · refine ⟨⟨s'.type, .other, some this, .user 0⟩, ?_, rfl⟩
    rw [World.withOther, val_modify, if_pos rfl, val_alloc, if_pos rfl]
    rfl

/-- Up to the removal of its source the event is handled without a change to any module. -/
theorem exists_handled (hs : Settled w.heap) (h : OneshotFires w this m e s u) :
    ∃ v, Handled w v this e s ∧ ∀ depth,
      (processSrc this e).Ends (handler depth) u (some this) v ∧ ∀ c recved,
        GoesOn depth (recvEvent c recved) w (consumeEvt m e (some this) recved 0) v := by
  obtain ⟨w₁, hrecv, hsrc, hmod, hnew⟩ := received_of_nextEvt h.next
  obtain ⟨hprepared, hsys⟩ := prepared_of_received hs hrecv hsrc hnew
  obtain ⟨y, hy, -⟩ := hprepared.event
  obtain ⟨k, hk⟩ := hprepared.source
  obtain ⟨hheap, -, hhost⟩ := World.pollRecv_same hrecv
  obtain ⟨sys, herrno, hprocess⟩ :=
    processSrc_goesOn (srcAt_prepared hprepared) h.type h.succeeds ⟨y, hy⟩
  have hpolled : Op.pollRecv.exec w = some (some this, w₁) := hrecv
  have hmade : (Op.newEvt (some this)).exec w₁ = some (e, u) := hnew
  have hzero : (u.withOther e sys).sys.errno = 0 := herrno.trans (hsys ▸ h.errno)
  have hset : (Op.setEvtOther e).exec u = some ((), u.withOther e u.sys) := by
    simp only [Op.exec, World.setEvt, hy, Option.bind_eq_bind, Option.bind_some, Option.map_some]
    rfl
  have hfilled : (u.withOther e sys).heap = modify u.heap e
      (Obj.mapEvt fun y => { y with data := .other }) := rfl
  refine ⟨u.withOther e sys, ?_, fun depth =>
    ⟨(hprocess depth).ends_iff.mpr (Prog.ends_pure.mpr ⟨rfl, rfl⟩), fun c recved => ?_⟩⟩
  · exact handled_withOther hheap hhost hnew hk (Op.evolves hprepared.settled hset).settled
  · rw [recvEvent]
    apply (act_goesOn hpolled).trans
    apply (derefSrc_goesOn hsrc).trans
    rw [hmod]
    apply (act_goesOn hmade).trans
    apply (hprocess depth).pure_bind.trans
    apply getWorld_goesOn.bind.trans
    rw [hzero]
    exact .refl

/-- The module has another tree. -/
theorem sameOwners_setTree {type : MSrcType} {t : NodeTree ℕ} (h : Handled w v₀ this e s)
    (hset : v₀.setTree m type t = some u) : SameOwners w.heap u.heap := by
  obtain ⟨-, rfl⟩ := World.setMod_eq_some.mp hset
  constructor
  · intro p
    rw [modAt_modify_mod, h.modAt_eq]
    split
    next => cases modAt w.heap p <;> rfl
    next => rfl
  · intro p
    rw [ctxAt_modify_mod, h.ctxAt_eq]

theorem src_of_mem_tree {type : MSrcType} {q : ℕ} (hO : SubsOwned w) (hx : modAt w.heap m = some x)
    (hq : q ∈ (x.srcs type).values) : m ≠ q ∧ ∀ o, val w.heap q = some o → ∃ s, o = .src s := by
  have hsrc : ∀ o, val w.heap q = some o → ∃ s, o = .src s := by
    intro o ho
    have htag := ((hO.sound_mod hx).srcs type q hq).2 o ho
    cases o with
    | src s => exact ⟨s, rfl⟩
    | _ => cases htag
  refine ⟨?_, hsrc⟩
  rintro rfl
  obtain ⟨s, hs⟩ := hsrc _ (modAt_eq_some.mp hx)
  cases hs

/-- A source that the removal destroys is there exactly when it was before the event. -/
theorem isSome_unref_handled {type : MSrcType} {t : NodeTree ℕ} {q : ℕ} (hs : Settled w.heap)
    (hO : SubsOwned w) (h : Handled w v₀ this e s) (hx : modAt w.heap m = some x)
    (hset : v₀.setTree m type t = some u) (hq : q ∈ (x.srcs type).values) (hne : q ≠ this) :
    (w.unrefAll [q]).isSome = (u.unrefAll [q]).isSome := by
  have hqe : q ≠ e := (((hO.sound_mod hx).srcs type q hq).1.trans_le h.new).ne
  obtain ⟨hqm, hsrc⟩ := src_of_mem_tree hO hx hq
  refine isSome_unrefAll_source hs ?_ hsrc (sameOwners_setTree h hset)
  obtain ⟨-, rfl⟩ := World.setMod_eq_some.mp hset
  rw [get_modify, if_neg hqm, h.cells q hqe hne]

theorem modAt_setTree {type : MSrcType} {t : NodeTree ℕ} (hx : modAt v₀.heap m = some x)
    (hset : v₀.setTree m type t = some u) :
    modAt u.heap m = some { x with srcs := Function.update x.srcs type t } := by
  obtain ⟨-, rfl⟩ := World.setMod_eq_some.mp hset
  rw [modAt_modify_mod, if_pos rfl, hx]
  rfl

/-- The search of a removal that takes the source and nothing else leads to the source. -/
theorem leads_of_removed (hs : Settled w.heap) (hO : SubsOwned w) (hw : TreesDistinct w)
    (h : Handled w v₀ this e s) (hremove : v₀.bstRemove m s.type s.words = some (ret, v))
    (honly : RemovedOnly w v m this s.type) : LeadsToItself w this m s := by
  obtain ⟨x, x', hx, hx', hvalues, -⟩ := honly.sources
  unfold World.bstRemove at hremove
  simp only [Option.bind_eq_bind, Option.bind_eq_some_iff, Option.some.injEq] at hremove
  obtain ⟨x₀, hx₀, ⟨found, t, gone⟩, htree, u, hset, v', hunref, hret⟩ := hremove
  obtain ⟨rfl, rfl⟩ := Prod.mk.inj hret
  rw [h.modAt_eq] at hx₀
  obtain rfl := Option.some.inj (hx.symm.trans hx₀)
  have hafter := modAt_setTree ((h.modAt_eq m).trans hx) hset
  obtain rfl := Option.some.inj ((World.modAt_of_unrefAll hunref hx').symm.trans hafter)
  rw [h.compareWith_eq] at htree
  refine ⟨x, hx, (treeRemove_iff_meets (hw m x hx s.type)).mp ⟨found, t, gone, htree, ?_, ?_⟩⟩
  · simpa using hvalues
  · intro q hq hne
    have hmem := (mem_treeRemove htree).2 q hq
    rw [isSome_unref_handled hs hO h hx hset hmem hne]
    rw [Option.mem_def.mp hq] at hunref
    exact Option.isSome_iff_exists.mpr ⟨_, hunref⟩

/-- A search that leads to the source removes it, and nothing else, while its event stays. -/
theorem removed_of_leads (hs : Settled w.heap) (hO : SubsOwned w) (hw : TreesDistinct w)
    (h : Handled w v₀ this e s) (hleads : LeadsToItself w this m s) :
    ∃ ret v, v₀.bstRemove m s.type s.words = some (ret, v) ∧ RemovedOnly w v m this s.type ∧
      ∃ y, evtAt v.heap e = some y ∧ y.data = .other := by
  obtain ⟨x, hx, hmeets⟩ := hleads
  obtain ⟨ret, t, gone, htree, hvalues, hdrops⟩ :=
    (treeRemove_iff_meets (hw m x hx s.type)).mpr hmeets
  have hx₀ : modAt v₀.heap m = some x := (h.modAt_eq m).trans hx
  obtain ⟨u, hset⟩ : ∃ u, v₀.setTree m s.type t = some u :=
    ⟨_, World.setMod_eq_some.mpr ⟨⟨x, hx₀⟩, rfl⟩⟩
  have hafter := modAt_setTree hx₀ hset
  obtain ⟨y, hy, hdata⟩ := h.evt
  have hme : m ≠ e := ((modAt_lt_length hx).trans_le h.new).ne
  have hy' : val u.heap e = some (.evt y) := by
    obtain ⟨-, rfl⟩ := World.setMod_eq_some.mp hset
    rw [val_modify, if_neg hme, hy]
  have hsettled : Settled u.heap := settled_setMod h.settled hset
  -- what is destroyed is neither the module nor the event
  have hunref : ∃ v, u.unrefAll gone.toList = some v ∧ modAt v.heap m = modAt u.heap m ∧
      val v.heap e = val u.heap e := by
    cases gone with
    | none => exact ⟨u, by unfold World.unrefAll; simp [release], rfl, rfl⟩
    | some q =>
        have hmem := (mem_treeRemove htree).2 q rfl
        have hqe : q ≠ e := (((hO.sound_mod hx).srcs s.type q hmem).1.trans_le h.new).ne
        obtain ⟨hmq, hsrc⟩ := src_of_mem_tree hO hx hmem
        have hcell : get u.heap q = get v₀.heap q := by
          obtain ⟨-, rfl⟩ := World.setMod_eq_some.mp hset
          rw [get_modify, if_neg hmq]
        have hsome : (u.unrefAll [q]).isSome := by
          by_cases hthis : q = this
          · obtain ⟨k, hk⟩ := h.own
            rw [unrefAll_shared (hcell.trans (hthis ▸ hk))]
            rfl
          · rw [← isSome_unref_handled hs hO h hx hset hmem hthis]
            exact hdrops q rfl hthis
        obtain ⟨v, hv⟩ := Option.isSome_iff_exists.mp hsome
        have hsrc' : ∀ o, val u.heap q = some o → ∃ s, o = .src s := by
          intro o ho
          rw [val, hcell, ← val, h.vals q hqe] at ho
          exact hsrc o ho
        have hkept : ∀ p, p ≠ q → val v.heap p = val u.heap p := fun p hp => by
          rw [val, val, get_unrefAll_source hsettled hsrc' hv hp]
        exact ⟨v, hv, by rw [modAt, modAt, hkept m hmq], hkept e hqe.symm⟩
  obtain ⟨v, hunref, hmod, hevt⟩ := hunref
  refine ⟨ret, v, ?_, ⟨x, _, hx, hmod.trans hafter, ?_, ?_, rfl⟩, y, ?_, hdata⟩
  · rw [World.bstRemove, hx₀, h.compareWith_eq]
    simp [htree, hset, hunref]
  · simpa using hvalues
  · intro type htype
    simp [htype]
  · exact evtAt_eq_some.mpr (hevt.trans hy')

theorem removeOneshot_goesOn (hsrc : srcAt v₀.heap this = some s) (htype : s.type ≠ .ps)
    (hflag : hasFlag s.flags M_SRC_ONESHOT = true)
    (hremove : v₀.bstRemove m s.type s.words = some (ret, v)) :
    GoesOn depth (removeOneshot m (some this)) v₀ (pure ()) v := by
  have hexec : (Op.bstRemove m s.type s.words).exec v₀ = some (ret, v) := hremove
  rw [removeOneshot]
  apply (derefSrc_goesOn hsrc).trans
  rw [if_pos hflag]
  split
  next hps _ => exact absurd hps htype
  next => exact act_goesOn hexec

theorem bstRemove_of_ends (hsrc : srcAt v₀.heap this = some s) (htype : s.type ≠ .ps)
    (hflag : hasFlag s.flags M_SRC_ONESHOT = true)
    (h : (removeOneshot m (some this)).Ends (handler depth) v₀ () v) :
    ∃ ret, v₀.bstRemove m s.type s.words = some (ret, v) := by
  simp only [removeOneshot, Prog.ends_bind, derefSrc_ends] at h
  obtain ⟨s', _, ⟨hs', rfl⟩, h⟩ := h
  obtain rfl := Option.some.inj (hsrc.symm.trans hs')
  rw [if_pos hflag] at h
  split at h
  next hps _ => exact absurd hps htype
  next =>
    simp only [Prog.ends_bind, act_ends, Prog.ends_pure] at h
    obtain ⟨ret, _, hexec, -, rfl⟩ := h
    exact ⟨ret, hexec⟩

/-- The event of a source with a tree is no message. -/
theorem consumeEvt_goesOn {y : EvtPriv} (hremove : GoesOn depth (removeOneshot m (some this)) v₀
      (pure ()) v) (hy : evtAt v.heap e = some y) (hdata : y.data = .other) :
    GoesOn depth (consumeEvt m e (some this) recved 0) v₀ (do
      pushEvt m e
      return (recved + 1, 0)) v := by
  rw [consumeEvt, if_neg (not_not.mpr rfl)]
  apply hremove.pure_bind.trans
  apply (derefEvt_goesOn hy).trans
  rw [hdata, if_neg nofun]
  have hpill : GoesOn depth (isPoisonpill y) v (pure false) v := by
    rw [isPoisonpill, hdata]
    split
    next hnone => cases hnone
    next => exact .refl
  exact hpill.pure_bind

/-- In every state of a run in which a oneshot source fires, that source and no other has
left its tree when its event is pushed exactly when its own first words lead to it. -/
theorem removesItself_iff {host : Host} {script : List Reaction} {polls : List PollAnswer}
    {faults : List ℤ} {calls : List Call} {d : ℕ} {step : Step LibLang World}
    (hstep : step ∈ (machine.runCalls d calls (World.initial host script polls faults)).steps)
    (hfires : OneshotFires step.before this m e s u) :
    (∀ depth c recved, RemovesItself depth c recved step.before this m e s u) ↔
      LeadsToItself step.before this m s := by
  have hlater := (later_runCalls d calls _).1 step hstep
  have hs : Settled step.before.heap :=
    (hlater.pays (settled_initial host script polls faults)).settled
  have hO := subsOwned_reached hlater
  have hw := treesDistinct_reached hlater
  obtain ⟨v₀, hhandled, hruns⟩ := exists_handled hs hfires
  have hsrc : srcAt v₀.heap this = some s := by
    obtain ⟨k, hk⟩ := hhandled.own
    rw [srcAt_eq_some, val, hk]
    rfl
  constructor
  · intro hremoves
    obtain ⟨p, v₁, v, hprocess, hremove, honly, -⟩ := hremoves 0 0 0
    obtain ⟨rfl, rfl⟩ := hprocess.unique (hruns 0).1
    obtain ⟨ret, hexec⟩ := bstRemove_of_ends hsrc hfires.type hfires.oneshot hremove
    exact leads_of_removed hs hO hw hhandled hexec honly
  · intro hleads depth c recved
    obtain ⟨ret, v, hexec, honly, y, hy, hdata⟩ := removed_of_leads hs hO hw hhandled hleads
    have hremove : GoesOn depth (removeOneshot m (some this)) v₀ (pure ()) v :=
      removeOneshot_goesOn hsrc hfires.type hfires.oneshot hexec
    refine ⟨some this, v₀, v, (hruns depth).1, hremove.ends_iff.mpr (Prog.ends_pure.mpr ⟨rfl, rfl⟩),
      honly, ?_⟩
    exact ((hruns depth).2 c recved).trans (consumeEvt_goesOn hremove hy hdata)

end Event

/-- A module whose one timer is to fire once, and fires. -/
def oneTimer : Out LibLang World Unit :=
  machine.runCalls 8
    [.mCtxRegister "ctx" 0, .mModRegister "a" true (some onEvtOnly) 0, .mModStart (some 1),
      .mModSrcRegister (some 1) .tmr (tmrKey 1000) M_SRC_ONESHOT 0, .mCtxDispatch, .mCtxDispatch]
    (startFrom [] [⟨[(2, false)], 0⟩])

def isPoll (step : Step LibLang World) : Bool :=
  match step.act with
  | .op .pollRecv => true
  | _ => false

/-- The event of the timer is received. -/
def polled : Step LibLang World := (oneTimer.steps.find? isPoll).get (by decide +kernel)

theorem polled_mem : polled ∈ oneTimer.steps :=
  List.mem_of_find?_eq_some (Option.some_get _).symm

theorem isSome_nextEvt_polled : (nextEvt polled.before).isSome := by decide +kernel

/-- The timer, its module, the event and the state with it. -/
def fired : ℕ × EvSource × ℕ × ℕ × World := (nextEvt polled.before).get isSome_nextEvt_polled

theorem oneshotFires_polled : OneshotFires polled.before fired.1 fired.2.2.1 fired.2.2.2.1 fired.2.1
    fired.2.2.2.2 where
  next := (Option.some_get isSome_nextEvt_polled).symm
  type := by decide +kernel
  oneshot := by decide +kernel
  succeeds := by decide +kernel
  errno := by decide +kernel

theorem removesItself_polled :
    (∀ depth c recved, RemovesItself depth c recved polled.before fired.1 fired.2.2.1
      fired.2.2.2.1 fired.2.1 fired.2.2.2.2) ↔
      LeadsToItself polled.before fired.1 fired.2.2.1 fired.2.1 :=
  removesItself_iff polled_mem oneshotFires_polled

/-- The timer is still in its tree when its event is pushed. -/
theorem not_removesItself_polled :
    ¬ ∀ host script polls faults d calls, ∀ step ∈ (machine.runCalls d calls
      (World.initial host script polls faults)).steps, ∀ this m e s u,
      OneshotFires step.before this m e s u →
      ∀ depth c recved, RemovesItself depth c recved step.before this m e s u := by
  intro hall
  obtain ⟨p, v₀, v, hprocess, hremove, honly, -⟩ :=
    hall _ _ _ _ _ _ _ polled_mem _ _ _ _ _ oneshotFires_polled 0 0 0
  have hprocessed : (processSrc fired.1 fired.2.2.2.1).Ends (handler 0) fired.2.2.2.2 (some 3)
      ((processSrc fired.1 fired.2.2.2.1).run (handler 0) fired.2.2.2.2).state :=
    ⟨by decide +kernel, rfl⟩
  obtain ⟨rfl, rfl⟩ := hprocess.unique hprocessed
  have hremoved : (removeOneshot fired.2.2.1 (some 3)).Ends (handler 0) _ ()
      ((removeOneshot fired.2.2.1 (some 3)).run (handler 0)
        ((processSrc fired.1 fired.2.2.2.1).run (handler 0) fired.2.2.2.2).state).state :=
    ⟨by decide +kernel, rfl⟩
  obtain ⟨-, rfl⟩ := hremove.unique hremoved
  obtain ⟨x, x', -, hx', hvalues, -⟩ := honly.sources
  have hleft : (modAt ((removeOneshot fired.2.2.1 (some 3)).run (handler 0)
      ((processSrc fired.1 fired.2.2.2.1).run (handler 0) fired.2.2.2.2).state).state.heap
      fired.2.2.1).map (fun y => decide (fired.1 ∈ (y.srcs fired.2.1.type).values)) =
        some true := by
    decide +kernel
  rw [hx', Option.map_some, Option.some.injEq, decide_eq_true_eq, hvalues] at hleft
  exact absurd (List.mem_filter.mp hleft).2 (by simp)

end Libmodule
