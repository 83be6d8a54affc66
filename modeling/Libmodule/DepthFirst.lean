import Mathlib.Data.Finset.Card
import Mathlib.Data.List.Nodup
import Mathlib.Logic.Relation
import Mathlib.Tactic.Tauto

/-!
# Searches that mark what they visit

A procedure that does nothing on a marked vertex, and otherwise marks it and
calls itself on the neighbours one after another.  The recursion has no visited
set besides the marks.  With enough fuel it visits what can be reached along
unmarked vertices, each vertex once.
-/

namespace DepthFirst

variable {α : Type*} [DecidableEq α] {adj : α → List α} {U V : Finset α} {x y z : α}

/-- The vertices that are marked on the way, where `U` are the unmarked ones. -/
def visitAll (visit : α → Finset α → Option (List α)) : List α → Finset α → Option (List α)
  | [], _ => some []
  | y :: ys, U => do
      let first ← visit y U
      let rest ← visitAll visit ys (U \ first.toFinset)
      some (first ++ rest)

def visit (adj : α → List α) : ℕ → α → Finset α → Option (List α)
  | 0, _, _ => none
  | fuel + 1, x, U =>
      if x ∈ U then (visitAll (visit adj fuel) (adj x) (U.erase x)).map (fun l => x :: l)
      else some []

/-! ## Reachable vertices -/

def Steps (adj : α → List α) (U : Finset α) (x y : α) : Prop := y ∈ adj x ∧ y ∈ U

/-- A path of unmarked vertices. -/
def Reaches (adj : α → List α) (U : Finset α) (x y : α) : Prop :=
  x ∈ U ∧ Relation.ReflTransGen (Steps adj U) x y

omit [DecidableEq α] in
theorem Reaches.mem (h : Reaches adj U x y) : y ∈ U := by
  obtain ⟨hx, hpath⟩ := h
  rcases hpath.cases_tail with rfl | ⟨z, -, hstep⟩
  · exact hx
  · exact hstep.2

omit [DecidableEq α] in
theorem Reaches.mono (h : Reaches adj U x y) (hsub : U ⊆ V) : Reaches adj V x y := by
  have hsteps : Steps adj U ≤ Steps adj V := fun _ _ hstep => ⟨hstep.1, hsub hstep.2⟩
  exact ⟨hsub h.1, Relation.ReflTransGen.mono hsteps x y h.2⟩

omit [DecidableEq α] in
theorem Reaches.tail (h : Reaches adj U x y) (hstep : Steps adj U y z) : Reaches adj U x z :=
  ⟨h.1, h.2.tail hstep⟩

/-- From a vertex one stays, or goes on from a neighbour without coming back. -/
theorem reaches_iff (hx : x ∈ U) :
    Reaches adj U x y ↔ y = x ∨ ∃ z ∈ adj x, Reaches adj (U.erase x) z y := by
  constructor
  · rintro ⟨-, hpath⟩
    induction hpath with
    | refl => exact .inl rfl
    | @tail b c hpath hstep ih =>
        by_cases hback : c = x
        · exact .inl hback
        have hmem : c ∈ U.erase x := Finset.mem_erase.mpr ⟨hback, hstep.2⟩
        rcases ih with rfl | ⟨z, hz, hreach⟩
        · exact .inr ⟨c, hstep.1, hmem, .refl⟩
        · exact .inr ⟨z, hz, hreach.tail ⟨hstep.1, hmem⟩⟩
  · rintro (rfl | ⟨z, hz, hreach⟩)
    · exact ⟨hx, .refl⟩
    · obtain ⟨hmem, hpath⟩ := hreach.mono (Finset.erase_subset x U)
      exact ⟨hx, .head ⟨hz, hmem⟩ hpath⟩

/-- A path to a vertex outside a set that is closed under steps avoids the set. -/
theorem Reaches.avoid {L : Finset α} (hclosed : ∀ a ∈ L, ∀ b, Steps adj U a b → b ∈ L)
    (hy : y ∉ L) (h : Reaches adj U x y) : Reaches adj (U \ L) x y := by
  obtain ⟨hx, hpath⟩ := h
  have havoid : x ∉ L ∧ Relation.ReflTransGen (Steps adj (U \ L)) x y := by
    clear hx
    induction hpath using Relation.ReflTransGen.head_induction_on with
    | refl => exact ⟨hy, .refl⟩
    | @head a b hstep _ ih =>
        obtain ⟨hb, hrest⟩ := ih
        refine ⟨fun ha => hb (hclosed a ha b hstep), .head ⟨hstep.1, ?_⟩ hrest⟩
        exact Finset.mem_sdiff.mpr ⟨hstep.2, hb⟩
  exact ⟨Finset.mem_sdiff.mpr ⟨hx, havoid.1⟩, havoid.2⟩

/-! ## The search -/

/-- What is marked is what can be reached from `starts`, each vertex once. -/
structure Marks (adj : α → List α) (U : Finset α) (starts : α → Prop) (l : List α) : Prop where
  nodup : l.Nodup
  mem : ∀ y, y ∈ l ↔ ∃ x, starts x ∧ Reaches adj U x y

omit [DecidableEq α] in
theorem Marks.subset {starts : α → Prop} {l : List α} (h : Marks adj U starts l) :
    ∀ y ∈ l, y ∈ U := by
  intro y hy
  obtain ⟨x, -, hreach⟩ := (h.mem y).mp hy
  exact hreach.mem

/-- The vertices that remain unmarked lead to no marked ones. -/
theorem Marks.append {first rest : List α} {ys : List α} (hfirst : Marks adj U (· = x) first)
    (hrest : Marks adj (U \ first.toFinset) (· ∈ ys) rest) :
    Marks adj U (· ∈ x :: ys) (first ++ rest) := by
  have hreach : ∀ y, y ∈ first ↔ Reaches adj U x y := by
    intro y
    rw [hfirst.mem]
    exact ⟨fun ⟨_, heq, h⟩ => heq ▸ h, fun h => ⟨x, rfl, h⟩⟩
  refine ⟨List.nodup_append.mpr ⟨hfirst.nodup, hrest.nodup, ?_⟩, fun y => ?_⟩
  · rintro a ha b hb rfl
    have hmem := Finset.mem_sdiff.mp (hrest.subset a hb)
    exact hmem.2 (List.mem_toFinset.mpr ha)
  · have hclosed : ∀ a ∈ first.toFinset, ∀ b, Steps adj U a b → b ∈ first.toFinset := by
      intro a ha b hstep
      rw [List.mem_toFinset, hreach] at ha ⊢
      exact ha.tail hstep
    rw [List.mem_append, hreach, hrest.mem]
    constructor
    · rintro (hx | ⟨z, hz, hx⟩)
      · exact ⟨x, List.mem_cons_self, hx⟩
      · exact ⟨z, List.mem_cons_of_mem _ hz, hx.mono Finset.sdiff_subset⟩
    · rintro ⟨z, hz, hx⟩
      by_cases hmarked : y ∈ first.toFinset
      · exact .inl ((hreach y).mp (List.mem_toFinset.mp hmarked))
      · rcases List.mem_cons.mp hz with rfl | hz
        · exact .inl hx
        · exact .inr ⟨z, hz, hx.avoid hclosed hmarked⟩

/-- A search whose calls mark what they reach marks what is reached from the list. -/
theorem visitAll_marks {visit : α → Finset α → Option (List α)} (ys : List α)
    (hvisit : ∀ x V, V ⊆ U → ∃ l, visit x V = some l ∧ Marks adj V (· = x) l) :
    ∃ l, visitAll visit ys U = some l ∧ Marks adj U (· ∈ ys) l := by
  induction ys generalizing U with
  | nil => exact ⟨[], rfl, List.nodup_nil, by simp⟩
  | cons x ys ih =>
      obtain ⟨first, hfirst, hmarks⟩ := hvisit x U subset_rfl
      obtain ⟨rest, hrest, hmarks'⟩ := @ih (U \ first.toFinset) fun z V hV =>
        hvisit z V (hV.trans Finset.sdiff_subset)
      refine ⟨first ++ rest, ?_, hmarks.append hmarks'⟩
      rw [visitAll, hfirst, Option.bind_eq_bind, Option.bind_some, hrest]
      rfl

/-- With more fuel than unmarked vertices, the search ends and marks what it reaches. -/
theorem visit_marks (adj : α → List α) (fuel : ℕ) (x : α) (U : Finset α) (hfuel : U.card < fuel) :
    ∃ l, visit adj fuel x U = some l ∧ Marks adj U (· = x) l := by
  induction fuel generalizing x U with
  | zero => omega
  | succ fuel ih =>
      by_cases hx : x ∈ U
      · have hcard := Finset.card_erase_of_mem hx
        have hpos := Finset.card_pos.mpr ⟨x, hx⟩
        have hcalls : ∀ z V, V ⊆ U.erase x →
            ∃ l, visit adj fuel z V = some l ∧ Marks adj V (· = z) l := by
          intro z V hV
          have hle := Finset.card_le_card hV
          exact ih z V (by omega)
        obtain ⟨l, hl, hmarks⟩ := visitAll_marks (adj x) hcalls
        refine ⟨x :: l, by rw [visit, if_pos hx, hl]; rfl, List.nodup_cons.mpr ⟨fun hmem => ?_,
          hmarks.nodup⟩, fun y => ?_⟩
        · exact Finset.notMem_erase x U (hmarks.subset x hmem)
        · rw [List.mem_cons, hmarks.mem]
          constructor
          · intro h
            exact ⟨x, rfl, (reaches_iff hx).mpr h⟩
          · rintro ⟨z, rfl, hreach⟩
            exact (reaches_iff hx).mp hreach
      · refine ⟨[], by rw [visit, if_neg hx], List.nodup_nil, fun y => ?_⟩
        refine iff_of_false List.not_mem_nil ?_
        rintro ⟨z, rfl, hreach⟩
        exact hx hreach.1

end DepthFirst
