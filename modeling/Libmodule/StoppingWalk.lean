import Mathlib.Tactic

/-!
# A walk that a callback may stop

A callback is called on the elements of a list in order, and the walk ends
with the first answer other than zero.  The calls are recorded, so that a
recursive walk over a structure can be compared with the walk over the list of
its elements.
-/

namespace StoppingWalk

variable {S V : Type}

/-- The state of the callback, and the elements it was called on. -/
structure Calls (S V : Type) where
  state : S
  visited : List V

def call (cb : S → V → ℤ × S) (v : V) (c : Calls S V) : ℤ × Calls S V :=
  ((cb c.state v).1, ⟨(cb c.state v).2, c.visited ++ [v]⟩)

/-- The second step runs when the first answers zero. -/
def andThen (first : ℤ × Calls S V) (second : Calls S V → ℤ × Calls S V) : ℤ × Calls S V :=
  if first.1 = 0 then second first.2 else first

def walk (cb : S → V → ℤ × S) : List V → Calls S V → ℤ × Calls S V
  | [], c => (0, c)
  | v :: vs, c => andThen (call cb v c) (walk cb vs)

/-- What the callback would answer on all the elements. -/
def answers (cb : S → V → ℤ × S) : List V → S → List ℤ
  | [], _ => []
  | v :: vs, s => (cb s v).1 :: answers cb vs (cb s v).2

/-- The elements up to the first answer other than zero, that one included. -/
def cut (cb : S → V → ℤ × S) (vs : List V) (s : S) : List V :=
  vs.take ((answers cb vs s).findIdx (fun r => r != 0) + 1)

/-- The first answer other than zero. -/
def stop (cb : S → V → ℤ × S) (vs : List V) (s : S) : Option ℤ :=
  (answers cb vs s).find? (fun r => r != 0)

theorem andThen_assoc (first : ℤ × Calls S V) (second third : Calls S V → ℤ × Calls S V) :
    andThen (andThen first second) third = andThen first (fun c => andThen (second c) third) := by
  by_cases hzero : first.1 = 0
  · simp [andThen, hzero]
  · simp [andThen, hzero]

theorem walk_append (cb : S → V → ℤ × S) (vs ws : List V) (c : Calls S V) :
    walk cb (vs ++ ws) c = andThen (walk cb vs c) (walk cb ws) := by
  induction vs generalizing c with
  | nil => simp [walk, andThen]
  | cons v vs ih =>
      have hrest : walk cb (vs ++ ws) = fun c => andThen (walk cb vs c) (walk cb ws) := by
        funext c
        exact ih c
      rw [List.cons_append, walk, hrest, ← andThen_assoc, walk]

theorem walk_singleton (cb : S → V → ℤ × S) (v : V) (c : Calls S V) :
    walk cb [v] c = call cb v c := by
  by_cases hzero : (call cb v c).1 = 0
  · rw [walk, andThen, if_pos hzero, walk, ← hzero]
  · rw [walk, andThen, if_neg hzero]

/-- A walk visits the cut and answers the value it stops with, or zero. -/
theorem walk_spec (cb : S → V → ℤ × S) (vs : List V) (c : Calls S V) :
    (walk cb vs c).1 = (stop cb vs c.state).getD 0 ∧
      (walk cb vs c).2.visited = c.visited ++ cut cb vs c.state := by
  induction vs generalizing c with
  | nil => simp [walk, stop, cut, answers]
  | cons v vs ih =>
      by_cases hzero : (cb c.state v).1 = 0
      · have hrest := ih (call cb v c).2
        simp only [walk, andThen, call, hzero, ↓reduceIte] at hrest ⊢
        simpa [stop, cut, answers, hzero, List.findIdx_cons] using hrest
      · have hne : ((cb c.state v).1 != 0) = true := by simpa using hzero
        simp [walk, andThen, call, stop, cut, answers, hzero, hne, List.findIdx_cons]

end StoppingWalk
