import Mathlib.Data.List.Basic
import Mathlib.Logic.Function.Basic

/-!
# Chains of nodes

Nodes on a heap, each with a pointer to the next one.  A segment leads from one
pointer to another; a chain is a segment that leads to the null pointer.
-/

namespace LinkedChain

variable {ν : Type*} {heap heap' : ℕ → Option ν} {next : ν → Option ℕ}

/-- The nodes `xs` lead from the pointer `p` to the pointer `q`. -/
def Segment (heap : ℕ → Option ν) (next : ν → Option ℕ) :
    Option ℕ → Option ℕ → List (ℕ × ν) → Prop
  | p, q, [] => p = q
  | p, q, (n, node) :: xs => p = some n ∧ heap n = some node ∧ Segment heap next (next node) q xs

def addresses (xs : List (ℕ × ν)) : List ℕ := xs.map Prod.fst

@[simp] theorem addresses_nil : addresses ([] : List (ℕ × ν)) = [] := rfl

@[simp] theorem addresses_cons (n : ℕ) (node : ν) (xs : List (ℕ × ν)) :
    addresses ((n, node) :: xs) = n :: addresses xs := rfl

@[simp] theorem addresses_append (xs ys : List (ℕ × ν)) :
    addresses (xs ++ ys) = addresses xs ++ addresses ys :=
  List.map_append

variable {p q r : Option ℕ} {xs ys : List (ℕ × ν)}

theorem segment_append :
    Segment heap next p r (xs ++ ys) ↔
      ∃ q, Segment heap next p q xs ∧ Segment heap next q r ys := by
  induction xs generalizing p with
  | nil => simp [Segment]
  | cons x xs ih => simp [Segment, ih, and_assoc]

/-- A segment only depends on its own nodes. -/
theorem Segment.congr (h : Segment heap next p q xs)
    (hsame : ∀ n ∈ addresses xs, heap' n = heap n) : Segment heap' next p q xs := by
  induction xs generalizing p with
  | nil => exact h
  | cons x xs ih =>
      obtain ⟨n, node⟩ := x
      refine ⟨h.1, ?_, ih h.2.2 (fun m hm => hsame m (by simp [hm]))⟩
      rw [hsame n (by simp)]
      exact h.2.1

theorem Segment.update (h : Segment heap next p q xs) {n : ℕ} (hn : n ∉ addresses xs)
    (c : Option ν) : Segment (Function.update heap n c) next p q xs := by
  apply h.congr
  intro m hm
  have hne : m ≠ n := fun heq => hn (heq ▸ hm)
  exact Function.update_of_ne hne c heap

theorem Segment.allocated (h : Segment heap next p q xs) {n : ℕ} (hn : n ∈ addresses xs) :
    ∃ node, heap n = some node := by
  induction xs generalizing p with
  | nil => simp at hn
  | cons x xs ih =>
      obtain ⟨m, node⟩ := x
      rcases List.mem_cons.mp hn with rfl | hn
      · exact ⟨node, h.2.1⟩
      · exact ih h.2.2 hn

/-- A pointer is the start of one chain only. -/
theorem Segment.unique (hx : Segment heap next p none xs) (hy : Segment heap next p none ys) :
    xs = ys := by
  induction xs generalizing p ys with
  | nil =>
      cases ys with
      | nil => rfl
      | cons y ys =>
          cases hx
          cases hy.1
  | cons x xs ih =>
      obtain ⟨n, node⟩ := x
      cases ys with
      | nil =>
          cases hy
          cases hx.1
      | cons y ys =>
          obtain ⟨m, other⟩ := y
          have hnm : n = m := Option.some.inj (hx.1.symm.trans hy.1)
          subst hnm
          have hnode : node = other := Option.some.inj (hx.2.1.symm.trans hy.2.1)
          subst hnode
          rw [ih hx.2.2 hy.2.2]

/-- No node is twice in a chain: it would lead to itself forever. -/
theorem Segment.nodup (h : Segment heap next p none xs) : (addresses xs).Nodup := by
  induction xs generalizing p with
  | nil => exact List.nodup_nil
  | cons x xs ih =>
      obtain ⟨n, node⟩ := x
      rw [addresses_cons, List.nodup_cons]
      refine ⟨fun hn => ?_, ih h.2.2⟩
      obtain ⟨⟨m, other⟩, hmem, rfl⟩ := List.mem_map.mp hn
      obtain ⟨before, after, rfl⟩ := List.append_of_mem hmem
      obtain ⟨q, -, hafter⟩ := segment_append.mp h.2.2
      obtain rfl := hafter.1
      have hsame := Segment.unique (h.1 ▸ h) hafter
      have hlength := congrArg List.length hsame
      simp at hlength
      omega

theorem Segment.head (h : Segment heap next p none xs) : p = (addresses xs).head? := by
  cases xs with
  | nil => exact h
  | cons x xs => exact h.1

/-- The last node of a segment is made to lead somewhere else. -/
theorem Segment.relink {init : List (ℕ × ν)} {n : ℕ} {node node' : ν}
    (h : Segment heap next p q (init ++ [(n, node)])) (hn : n ∉ addresses init) :
    Segment (Function.update heap n (some node')) next p (next node') (init ++ [(n, node')]) := by
  obtain ⟨t, hinit, ht, -, -⟩ := segment_append.mp h
  exact segment_append.mpr ⟨t, hinit.update hn _, ht, by simp, rfl⟩

end LinkedChain
