import Libmodule.Evolution
import Libmodule.Execution

/-!
# Iterations over the modules of a context

`m_map_iterate` calls a function on the modules of a context, which may run
callbacks that change the table.  It stops when the function asks for it or when
the table has changed around the current entry, and goes on otherwise.
-/

namespace Libmodule

open RefHeap Reentrant

/-! ## Turns -/

/-- The entry of the modules of `c` at an index. -/
def entryAt (w : World) (c idx : ℕ) : Option (String × ℕ) :=
  (ctxAt w.heap c).bind (fun x => x.modules[idx]?)

/-- The index at which the iteration goes on when its function, called for the entry at
`idx`, has taken `v` to `u`; `none` when it stops because of a change of the table. -/
def nextIdx (v u : World) (c idx : ℕ) : Option ℕ := do
  let before := (← ctxAt v.heap c).modules
  let after := (← ctxAt u.heap c).modules
  let (key, _) ← before[idx]?
  let slot := u.host.slot (before.map Prod.fst) idx (after.map Prod.fst)
  if (after[slot]?).map Prod.fst ≠ some key then some slot
  else if after.length ≠ before.length then none
  else some (slot + 1)

/-- A call of the function of an iteration: how deep its callbacks may nest, its module, and
the state it starts in. -/
structure Visit where
  depth : ℕ
  mod : ℕ
  state : World

def Visit.run (fn : IterFn) (visit : Visit) : Out LibLang World ℤ :=
  (runIterFn fn visit.mod).run (handler visit.depth) visit.state

/-- The calls of `fn` that an iteration over the modules of `c` makes from `idx` on. -/
def passVisits (fn : IterFn) (c : ℕ) : ℕ → ℕ → World → List Visit
  | depth, idx, w =>
      match entryAt w c idx with
      | none => []
      | some (_, m) =>
          let visit : Visit := ⟨depth, m, w⟩
          match depth, (visit.run fn).value, nextIdx w (visit.run fn).state c idx with
          | depth + 1, some 0, some idx =>
              visit :: passVisits fn c depth idx (visit.run fn).state
          | _, _, _ => [visit]

/-- The function stops the iteration, or its callbacks have changed the table around the
entry of `m` at `idx`. -/
inductive Halts (fn : IterFn) (c depth idx m : ℕ) (v : World) : ℤ → World → Prop where
  | refused {rc : ℤ} {u : World} (hrc : rc ≠ 0)
      (hends : (runIterFn fn m).Ends (handler depth) v rc u) :
      Halts fn c depth idx m v (min rc 0) u
  | changed {u : World} (hends : (runIterFn fn m).Ends (handler depth) v 0 u)
      (hctx : ∃ x, ctxAt u.heap c = some x) (hnext : nextIdx v u c idx = none) :
      Halts fn c depth idx m v (-EACCES) u

/-- Of the modules in `waiting`, none is left in `present` when the iteration stops or has
come to the end of the table. -/
def LeavesNone (fn : IterFn) (c : ℕ) (present : World → ℕ → Prop)
    (stops : ℕ → ℕ → ℕ → World → ℤ → World → Prop) : ℕ → ℕ → World → (ℕ → Prop) → Prop
  | depth, idx, v, waiting =>
      match entryAt v c idx with
      | none => ∀ p, waiting p → ¬ present v p
      | some (_, m) =>
          (∀ ret u, stops depth idx m v ret u → ∀ p, waiting p → p ≠ m → ¬ present u p) ∧
          match depth with
          | 0 => True
          | depth + 1 => ∀ u idx', (runIterFn fn m).Ends (handler (depth + 1)) v 0 u →
              nextIdx v u c idx = some idx' →
              LeavesNone fn c present stops depth idx' u (fun p => waiting p ∧ p ≠ m)

section Iterate

variable {fn : IterFn} {c depth idx : ℕ} {v w' : World} {ret : ℤ}

theorem invoke_iterate_ends :
    (invoke (.iterate fn c idx)).Ends (handler depth) v ret w' ↔
      ∃ d, depth = d + 1 ∧ (iterate fn c idx).Ends (handler d) v ret w' := by
  rw [invoke, Prog.ends_invoke]
  cases depth with
  | zero => simp [handler, Machine.onCall_zero]
  | succ d =>
      simp only [handler, Machine.onCall_succ, Nat.add_right_cancel_iff, exists_eq_left']
      rfl

theorem iterate_ends_none (hentry : entryAt v c idx = none) :
    (iterate fn c idx).Ends (handler depth) v ret w' ↔
      (∃ x, ctxAt v.heap c = some x) ∧ ret = 0 ∧ w' = v := by
  unfold iterate
  simp only [Prog.ends_bind, derefCtx_ends]
  unfold entryAt at hentry
  constructor
  · rintro ⟨x, _, ⟨hx, rfl⟩, h⟩
    rw [hx, Option.bind_some] at hentry
    rw [hentry] at h
    exact ⟨⟨x, hx⟩, Prog.ends_pure.mp h⟩
  · rintro ⟨⟨x, hx⟩, rfl, rfl⟩
    rw [hx, Option.bind_some] at hentry
    refine ⟨x, w', ⟨hx, rfl⟩, ?_⟩
    rw [hentry]
    exact Prog.ends_pure.mpr ⟨rfl, rfl⟩

theorem nextIdx_eq {u : World} {x y : Ctx} {key : String} {m : ℕ}
    (hx : ctxAt v.heap c = some x) (hentry : x.modules[idx]? = some (key, m))
    (hy : ctxAt u.heap c = some y) :
    nextIdx v u c idx =
      let slot := u.host.slot (x.modules.map Prod.fst) idx (y.modules.map Prod.fst)
      if (y.modules[slot]?).map Prod.fst ≠ some key then some slot
      else if y.modules.length ≠ x.modules.length then none
      else some (slot + 1) := by
  simp [nextIdx, hx, hy, hentry]

theorem ctx_of_nextIdx {u : World} {idx' : ℕ} (h : nextIdx v u c idx = some idx') :
    ∃ y, ctxAt u.heap c = some y := by
  unfold nextIdx at h
  simp only [Option.bind_eq_bind, Option.bind_eq_some_iff] at h
  obtain ⟨-, -, y, hy, -⟩ := h
  exact ⟨y, hy⟩

/-- An iteration stops at an entry, or it goes on. -/
theorem iterate_ends_some {key : String} {m : ℕ} (hentry : entryAt v c idx = some (key, m)) :
    (iterate fn c idx).Ends (handler depth) v ret w' ↔
      Halts fn c depth idx m v ret w' ∨
        ∃ d u idx', depth = d + 1 ∧ (runIterFn fn m).Ends (handler depth) v 0 u ∧
          nextIdx v u c idx = some idx' ∧ (iterate fn c idx').Ends (handler d) u ret w' := by
  obtain ⟨x, hx, hmod⟩ := Option.bind_eq_some_iff.mp hentry
  rw [iterate]
  simp only [Prog.ends_bind, derefCtx_ends]
  constructor
  · rintro ⟨_, _, ⟨hx', rfl⟩, h⟩
    cases hx.symm.trans hx'
    rw [hmod] at h
    simp only [Prog.ends_bind] at h
    obtain ⟨rc, u, hrun, h⟩ := h
    split at h
    next hneg =>
      obtain ⟨rfl, rfl⟩ := Prog.ends_pure.mp h
      have hhalts : Halts fn c depth idx m _ (min ret 0) w' := .refused hneg.ne hrun
      rw [min_eq_left hneg.le] at hhalts
      exact .inl hhalts
    next hneg =>
      split at h
      next hpos =>
        obtain ⟨rfl, rfl⟩ := Prog.ends_pure.mp h
        have hhalts : Halts fn c depth idx m _ (min rc 0) w' := .refused hpos.ne' hrun
        rw [min_eq_right hpos.le] at hhalts
        exact .inl hhalts
      next hpos =>
        obtain rfl : rc = 0 := le_antisymm (not_lt.mp hpos) (not_lt.mp hneg)
        simp only [Prog.ends_bind, derefCtx_ends, getWorld_ends] at h
        obtain ⟨y, _, ⟨hy, rfl⟩, _, _, ⟨rfl, rfl⟩, h⟩ := h
        have hnext := nextIdx_eq hx hmod hy
        split at h
        next hmoved =>
          obtain ⟨d, hd, hrest⟩ := invoke_iterate_ends.mp h
          exact .inr ⟨d, _, _, hd, hrun, by rw [hnext]; exact if_pos hmoved, hrest⟩
        next hmoved =>
          split at h
          next hlength =>
            obtain ⟨rfl, rfl⟩ := Prog.ends_pure.mp h
            exact .inl (.changed hrun ⟨y, hy⟩
              (by rw [hnext]; exact (if_neg hmoved).trans (if_pos hlength)))
          next hlength =>
            obtain ⟨d, hd, hrest⟩ := invoke_iterate_ends.mp h
            exact .inr ⟨d, _, _, hd, hrun,
              by rw [hnext]; exact (if_neg hmoved).trans (if_neg hlength), hrest⟩
  · intro h
    refine ⟨x, v, ⟨hx, rfl⟩, ?_⟩
    rw [hmod]
    simp only [Prog.ends_bind]
    rcases h with hhalts | ⟨d, u, idx', rfl, hrun, hnext, hrest⟩
    · cases hhalts with
      | @refused rc _ hrc hrun =>
          refine ⟨rc, w', hrun, ?_⟩
          rcases lt_or_gt_of_ne hrc with hneg | hpos
          · rw [if_pos hneg, min_eq_left hneg.le]
            exact Prog.ends_pure.mpr ⟨rfl, rfl⟩
          · rw [if_neg hpos.not_gt, if_pos hpos, min_eq_right hpos.le]
            exact Prog.ends_pure.mpr ⟨rfl, rfl⟩
      | changed hrun hctx hnext =>
          obtain ⟨y, hy⟩ := hctx
          rw [nextIdx_eq hx hmod hy] at hnext
          dsimp only at hnext
          refine ⟨0, w', hrun, ?_⟩
          rw [if_neg (lt_irrefl 0), if_neg (lt_irrefl 0)]
          simp only [Prog.ends_bind, derefCtx_ends, getWorld_ends]
          refine ⟨y, w', ⟨hy, rfl⟩, w', w', ⟨rfl, rfl⟩, ?_⟩
          split at hnext
          next => cases hnext
          next hmoved =>
            split at hnext
            next hlength =>
              rw [if_neg hmoved, if_pos hlength]
              exact Prog.ends_pure.mpr ⟨rfl, rfl⟩
            next => cases hnext
    · obtain ⟨y, hy⟩ := ctx_of_nextIdx hnext
      rw [nextIdx_eq hx hmod hy] at hnext
      dsimp only at hnext
      refine ⟨0, u, hrun, ?_⟩
      rw [if_neg (lt_irrefl 0), if_neg (lt_irrefl 0)]
      simp only [Prog.ends_bind, derefCtx_ends, getWorld_ends]
      refine ⟨y, u, ⟨hy, rfl⟩, u, u, ⟨rfl, rfl⟩, ?_⟩
      split at hnext
      next hmoved =>
        cases hnext
        rw [if_pos hmoved]
        exact invoke_iterate_ends.mpr ⟨d, rfl, hrest⟩
      next hmoved =>
        split at hnext
        next => cases hnext
        next hlength =>
          cases hnext
          rw [if_neg hmoved, if_neg hlength]
          exact invoke_iterate_ends.mpr ⟨d, rfl, hrest⟩

/-- An iteration that stops at an entry does not go on from it. -/
theorem Halts.not_next {m idx' : ℕ} {u u' : World} (h : Halts fn c depth idx m v ret u)
    (hends : (runIterFn fn m).Ends (handler depth) v 0 u')
    (hnext : nextIdx v u' c idx = some idx') : False := by
  cases h with
  | refused hrc hrun => exact hrc (hrun.unique hends).1
  | changed hrun hctx hnone =>
      obtain ⟨-, rfl⟩ := hrun.unique hends
      rw [hnone] at hnext
      cases hnext

theorem Halts.ends {m : ℕ} {u : World} (h : Halts fn c depth idx m v ret u) :
    ∃ n, (runIterFn fn m).Ends (handler depth) v n u := by
  cases h with
  | refused hrc hrun => exact ⟨_, hrun⟩
  | changed hrun => exact ⟨0, hrun⟩

/-! ## Whole iterations -/

theorem passVisits_none (hentry : entryAt v c idx = none) : passVisits fn c depth idx v = [] := by
  unfold passVisits
  rw [hentry]

theorem mem_passVisits_self {key : String} {m : ℕ} (hentry : entryAt v c idx = some (key, m)) :
    ⟨depth, m, v⟩ ∈ passVisits fn c depth idx v := by
  unfold passVisits
  rw [hentry]
  dsimp only
  split <;> simp

theorem passVisits_next {key : String} {m idx' : ℕ} {u : World}
    (hentry : entryAt v c idx = some (key, m))
    (hends : (runIterFn fn m).Ends (handler (depth + 1)) v 0 u)
    (hnext : nextIdx v u c idx = some idx') :
    passVisits fn c (depth + 1) idx v = ⟨depth + 1, m, v⟩ :: passVisits fn c depth idx' u := by
  obtain ⟨hvalue, rfl⟩ := hends
  rw [passVisits, hentry]
  simp only [Visit.run, hvalue, hnext]

theorem mem_passVisits {key : String} {m : ℕ} {visit : Visit}
    (hentry : entryAt v c idx = some (key, m)) (h : visit ∈ passVisits fn c depth idx v) :
    visit = ⟨depth, m, v⟩ ∨ ∃ d u idx', depth = d + 1 ∧
      (runIterFn fn m).Ends (handler depth) v 0 u ∧ nextIdx v u c idx = some idx' ∧
      visit ∈ passVisits fn c d idx' u := by
  rw [passVisits, hentry] at h
  dsimp only at h
  split at h
  next d idx' hvalue hnext =>
    rcases List.mem_cons.mp h with rfl | h
    · exact .inl rfl
    · exact .inr ⟨d, _, idx', rfl, ⟨hvalue, rfl⟩, hnext, h⟩
  next => exact .inl (List.mem_singleton.mp h)

/-- What an iteration calls takes place between its start and its end. -/
theorem passVisits_ends (h : (iterate fn c idx).Ends (handler depth) v ret w') :
    ∀ visit ∈ passVisits fn c depth idx v,
      (∃ n u, (runIterFn fn visit.mod).Ends (handler visit.depth) visit.state n u) ∧
        Later v visit.state ∧ Later visit.state w' := by
  intro visit hvisit
  induction depth using Nat.strong_induction_on generalizing idx v with
  | _ depth ih =>
      cases hentry : entryAt v c idx with
      | none =>
          rw [passVisits_none hentry] at hvisit
          cases hvisit
      | some entry =>
          have hends := (iterate_ends_some hentry).mp h
          rcases mem_passVisits hentry hvisit with rfl | ⟨d, u, idx', rfl, hrun, hnext, hrest⟩
          · refine ⟨?_, .refl v, later_ends h⟩
            rcases hends with hhalts | ⟨d, u, idx', -, hrun, -⟩
            · obtain ⟨n, hn⟩ := hhalts.ends
              exact ⟨n, w', hn⟩
            · exact ⟨0, u, hrun⟩
          · rcases hends with hhalts | ⟨d', u', idx'', hd, hrun', hnext', hiterate⟩
            · exact False.elim (hhalts.not_next hrun hnext)
            · obtain rfl := Nat.succ.inj hd
              obtain ⟨-, rfl⟩ := hrun.unique hrun'
              cases hnext.symm.trans hnext'
              obtain ⟨hevaluated, hbefore, hafter⟩ := ih d (Nat.lt_succ_self d) hiterate hrest
              exact ⟨hevaluated, (later_ends hrun).trans hbefore, hafter⟩

/-- The modules that wait and are not left behind are those that the iteration calls. -/
theorem leavesNone_iff {present : World → ℕ → Prop}
    {stops : ℕ → ℕ → ℕ → World → ℤ → World → Prop}
    (hpresent : ∀ w p, present w p → ∃ x, ctxAt w.heap c = some x)
    (hstops : ∀ depth idx m v ret u,
      stops depth idx m v ret u ↔ Halts fn c depth idx m v ret u)
    (depth idx : ℕ) (v : World) (waiting : ℕ → Prop) :
    LeavesNone fn c present stops depth idx v waiting ↔
      ∀ ret w', (iterate fn c idx).Ends (handler depth) v ret w' →
        ∀ p, waiting p → present w' p →
          ∃ visit ∈ passVisits fn c depth idx v, visit.mod = p := by
  induction depth using Nat.strong_induction_on generalizing idx v waiting with
  | _ depth ih =>
      rw [LeavesNone]
      cases hentry : entryAt v c idx with
      | none =>
          rw [passVisits_none hentry]
          simp only [iterate_ends_none hentry]
          constructor
          · rintro hnone ret _ ⟨-, -, rfl⟩ p hp hpresent
            exact absurd hpresent (hnone p hp)
          · intro hvisits p hp hthere
            obtain ⟨visit, hvisit, -⟩ := hvisits 0 v ⟨hpresent v p hthere, rfl, rfl⟩ p hp hthere
            cases hvisit
      | some entry =>
          obtain ⟨key, m⟩ := entry
          dsimp only
          constructor
          · rintro ⟨hleft, hgoes⟩ ret w' hends p hp hthere
            by_cases hpm : p = m
            · exact ⟨_, mem_passVisits_self hentry, hpm.symm⟩
            · rcases (iterate_ends_some hentry).mp hends with
                hstop | ⟨d, u, idx', rfl, hrun, hnext, hrest⟩
              · exact absurd hthere (hleft ret w' ((hstops _ _ _ _ _ _).mpr hstop) p hp hpm)
              · obtain ⟨visit, hvisit, hmod⟩ := (ih d (Nat.lt_succ_self d) _ _ _).mp
                  (hgoes u idx' hrun hnext) ret w' hrest p ⟨hp, hpm⟩ hthere
                refine ⟨visit, ?_, hmod⟩
                rw [passVisits_next hentry hrun hnext]
                exact List.mem_cons_of_mem _ hvisit
          · intro hvisits
            constructor
            · intro ret u hstop p hp hpm hthere
              obtain ⟨visit, hvisit, hmod⟩ :=
                hvisits ret u ((iterate_ends_some hentry).mpr (.inl ((hstops _ _ _ _ _ _).mp hstop))) p hp hthere
              rcases mem_passVisits hentry hvisit with rfl | ⟨d, u', idx', -, hrun, hnext, -⟩
              · exact hpm hmod.symm
              · exact ((hstops _ _ _ _ _ _).mp hstop).not_next hrun hnext
            · cases depth with
              | zero => trivial
              | succ d =>
                  intro u idx' hrun hnext
                  apply (ih d (Nat.lt_succ_self d) _ _ _).mpr
                  rintro ret w' hends p ⟨hp, hpm⟩ hthere
                  obtain ⟨visit, hvisit, hmod⟩ := hvisits ret w' ((iterate_ends_some hentry).mpr
                    (.inr ⟨d, u, idx', rfl, hrun, hnext, hends⟩)) p hp hthere
                  rw [passVisits_next hentry hrun hnext] at hvisit
                  rcases List.mem_cons.mp hvisit with rfl | hvisit
                  · exact absurd hmod.symm hpm
                  · exact ⟨visit, hvisit, hmod⟩

end Iterate

end Libmodule
