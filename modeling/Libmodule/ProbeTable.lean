import Mathlib.Data.Finset.Card
import Mathlib.Tactic

/-!
# Linear probing on a cyclic table

A table of `s` slots is a partial function on the indices below `s`.  Every
stored element has a home slot and lies a few slots after it, cyclically, with
no empty slot in between.  This file develops that chain discipline on its
own: cyclic offsets written so that they stay linear, insertion at the first
empty slot of a chain, and back-shift deletion as an invariant about a table
with one moving hole.

Nothing here depends on what the elements are or how homes are computed.
-/

namespace ProbeTable

variable {α : Type*}

/-- The slot `i` places after `r` in a cyclic table of `s` slots. -/
def slotAt (s r i : ℕ) : ℕ := if r + i < s then r + i else r + i - s

/-- The number of places from slot `a` forward to slot `b`. -/
def dist (s a b : ℕ) : ℕ := if a ≤ b then b - a else b + s - a

/-- The cases of `slotAt`, as linear facts. -/
theorem slotAt_cases (s r i : ℕ) :
    (r + i < s ∧ slotAt s r i = r + i) ∨ (s ≤ r + i ∧ slotAt s r i = r + i - s) := by
  unfold slotAt
  split <;> omega

/-- The cases of `dist`, as linear facts. -/
theorem dist_cases (s a b : ℕ) :
    (a ≤ b ∧ dist s a b = b - a) ∨ (b < a ∧ dist s a b = b + s - a) := by
  unfold dist
  split <;> omega

theorem slotAt_lt {s r i : ℕ} (hr : r < s) (hi : i ≤ s) : slotAt s r i < s := by
  unfold slotAt
  split <;> omega

@[simp] theorem slotAt_zero {s r : ℕ} (hr : r < s) : slotAt s r 0 = r := by
  simp [slotAt, hr]

theorem slotAt_succ {s r i : ℕ} (hr : r < s) (hi : i < s) :
    slotAt s r (i + 1) =
      if slotAt s r i + 1 < s then slotAt s r i + 1 else 0 := by
  unfold slotAt
  split <;> split <;> split <;> omega

theorem slotAt_inj {s r i j : ℕ} (hi : i < s) (hj : j < s)
    (h : slotAt s r i = slotAt s r j) : i = j := by
  unfold slotAt at h
  split at h <;> split at h <;> omega

theorem dist_lt_size {s a b : ℕ} (ha : a < s) (hb : b < s) : dist s a b < s := by
  unfold dist
  split <;> omega

@[simp] theorem dist_self (s a : ℕ) : dist s a a = 0 := by
  simp [dist]

theorem dist_slotAt {s r i : ℕ} (hr : r < s) (hi : i < s) :
    dist s r (slotAt s r i) = i := by
  unfold dist slotAt
  split <;> split <;> omega

theorem slotAt_dist {s a b : ℕ} (ha : a < s) (hb : b < s) :
    slotAt s a (dist s a b) = b := by
  unfold dist slotAt
  split <;> split <;> omega

theorem eq_slotAt_of_dist {s a b i : ℕ} (ha : a < s) (hb : b < s)
    (h : dist s a b = i) : b = slotAt s a i := by
  rw [← h, slotAt_dist ha hb]

theorem slotAt_add {s r i k : ℕ} (hr : r < s) (hik : i + k < s) :
    slotAt s (slotAt s r i) k = slotAt s r (i + k) := by
  unfold slotAt
  split <;> split <;> split <;> omega

theorem slotAt_left_inj {s a b k : ℕ} (ha : a < s) (hb : b < s)
    (h : slotAt s a k = slotAt s b k) : a = b := by
  unfold slotAt at h
  split at h <;> split at h <;> omega

/-- A stop on the way from `a` to `p` is as far from `p` as what is left of it. -/
theorem dist_of_slotAt {s a p i : ℕ} (ha : a < s) (hp : p < s)
    (hi : i ≤ dist s a p) : dist s (slotAt s a i) p = dist s a p - i := by
  have hlt := dist_lt_size ha hp
  have hstop : slotAt s a i < s := slotAt_lt ha (by omega)
  have hway : p = slotAt s (slotAt s a i) (dist s a p - i) := by
    rw [slotAt_add ha (by omega), Nat.add_sub_cancel' hi, slotAt_dist ha hp]
  conv_lhs => rw [hway]
  exact dist_slotAt hstop (by omega)

/-- The way to the nearer of two slots before `p` is the first part of the way to `p`. -/
theorem dist_of_le {s a b p : ℕ} (ha : a < s) (hb : b < s) (hp : p < s)
    (hle : dist s b p ≤ dist s a p) : dist s a b = dist s a p - dist s b p := by
  have hlt := dist_lt_size ha hp
  have hway : slotAt s a (dist s a p - dist s b p) = b := by
    refine slotAt_left_inj (k := dist s b p) (slotAt_lt ha (by omega)) hb ?_
    rw [slotAt_add ha (by omega), Nat.sub_add_cancel hle, slotAt_dist ha hp, slotAt_dist hb hp]
  conv_lhs => rw [← hway]
  exact dist_slotAt ha (by omega)

theorem dist_add_dist {s a b : ℕ} (hne : a ≠ b) (ha : a < s) (hb : b < s) :
    dist s a b + dist s b a = s := by
  unfold dist
  split <;> split <;> omega

theorem dist_between {s r g t : ℕ} (hr : r < s) (hg : g ≤ t) (ht : t < s) :
    dist s (slotAt s r g) (slotAt s r t) = t - g := by
  have hrt : dist s r (slotAt s r t) = t := dist_slotAt hr ht
  rw [dist_of_slotAt hr (slotAt_lt hr ht.le) (by omega), hrt]

/-- Two ways to `p` that meet have the same length from there on. -/
theorem dist_sub_of_meet {s a b p i g : ℕ} (ha : a < s) (hb : b < s) (hp : p < s)
    (hi : i ≤ dist s a p) (hg : g ≤ dist s b p) (hmeet : slotAt s a i = slotAt s b g) :
    dist s a p - i = dist s b p - g := by
  rw [← dist_of_slotAt ha hp hi, ← dist_of_slotAt hb hp hg, hmeet]

/-- Ways that meet stay together. -/
theorem slotAt_of_meet {s a b i g k : ℕ} (ha : a < s) (hb : b < s)
    (hi : i + k < s) (hg : g + k < s) (hmeet : slotAt s a i = slotAt s b g) :
    slotAt s a (i + k) = slotAt s b (g + k) := by
  rw [← slotAt_add ha hi, ← slotAt_add hb hg, hmeet]

/-- Every element lies fewer than `half` places after its home, and no slot
from its home up to it is empty. -/
structure Chained (s half : ℕ) (home : α → ℕ) (T : ℕ → Option α) : Prop where
  home_lt : ∀ p e, p < s → T p = some e → home e < s
  dist_lt : ∀ p e, p < s → T p = some e → dist s (home e) p < half
  filled : ∀ p e, p < s → T p = some e →
    ∀ i < dist s (home e) p, T (slotAt s (home e) i) ≠ none

theorem chained_empty (s half : ℕ) (home : α → ℕ) :
    Chained s half home (fun _ => none) := by
  constructor <;> intro p e _ h <;> simp at h

/-- Filling the first empty slot of a chain keeps every chain. -/
theorem Chained.insert {s half : ℕ} {home : α → ℕ} {T : ℕ → Option α}
    (hT : Chained s half home T) {e : α} {i : ℕ}
    (hhome : home e < s) (hi : i < half) (hhalf : half ≤ s)
    (hbefore : ∀ j < i, T (slotAt s (home e) j) ≠ none) :
    Chained s half home
      (Function.update T (slotAt s (home e) i) (some e)) := by
  have hdist : dist s (home e) (slotAt s (home e) i) = i :=
    dist_slotAt hhome (by omega)
  constructor
  · intro p x hp hx
    by_cases heq : p = slotAt s (home e) i
    · subst heq
      simp only [Function.update_self, Option.some.injEq] at hx
      exact hx ▸ hhome
    · rw [Function.update_of_ne heq] at hx
      exact hT.home_lt p x hp hx
  · intro p x hp hx
    by_cases heq : p = slotAt s (home e) i
    · subst heq
      simp only [Function.update_self, Option.some.injEq] at hx
      subst hx
      rw [hdist]
      exact hi
    · rw [Function.update_of_ne heq] at hx
      exact hT.dist_lt p x hp hx
  · intro p x hp hx j hj
    by_cases hslot : slotAt s (home x) j = slotAt s (home e) i
    · rw [hslot]
      simp
    · rw [Function.update_of_ne hslot]
      by_cases heq : p = slotAt s (home e) i
      · subst heq
        simp only [Function.update_self, Option.some.injEq] at hx
        subst hx
        rw [hdist] at hj
        exact hbefore j hj
      · rw [Function.update_of_ne heq] at hx
        exact hT.filled p x hp hx j hj

/-- Replacing an element by one with the same home keeps every chain. -/
theorem Chained.replace {s half : ℕ} {home : α → ℕ} {T : ℕ → Option α}
    (hT : Chained s half home T) {p : ℕ} {old new : α} (hp : p < s)
    (hold : T p = some old) (hhome : home new = home old) :
    Chained s half home (Function.update T p (some new)) := by
  constructor
  · intro q x hq hx
    by_cases heq : q = p
    · subst heq
      simp only [Function.update_self, Option.some.injEq] at hx
      rw [← hx, hhome]
      exact hT.home_lt q old hq hold
    · rw [Function.update_of_ne heq] at hx
      exact hT.home_lt q x hq hx
  · intro q x hq hx
    by_cases heq : q = p
    · subst heq
      simp only [Function.update_self, Option.some.injEq] at hx
      rw [← hx, hhome]
      exact hT.dist_lt q old hq hold
    · rw [Function.update_of_ne heq] at hx
      exact hT.dist_lt q x hq hx
  · intro q x hq hx i hi
    by_cases hslot : slotAt s (home x) i = p
    · rw [hslot]
      simp
    · rw [Function.update_of_ne hslot]
      by_cases heq : q = p
      · subst heq
        simp only [Function.update_self, Option.some.injEq] at hx
        rw [← hx, hhome] at hi ⊢
        exact hT.filled q old hq hold i hi
      · rw [Function.update_of_ne heq] at hx
        exact hT.filled q x hq hx i hi

/-! ## Back-shift deletion

The element at slot `r` of `T₀` has been removed.  While the slots after `r`
are examined in order, at most one slot, the hole, interrupts chains; only
chains of elements not yet examined can run through it. -/

/-- The table `T` after the `t - 1` slots following `r` have been examined,
with its hole `g` places after `r`. -/
structure Hole (s half : ℕ) (home : α → ℕ) (T₀ T : ℕ → Option α)
    (r g t : ℕ) : Prop where
  r_lt : r < s
  g_lt : g < t
  t_le : t ≤ half + 1
  empty : T (slotAt s r g) = none
  home_lt : ∀ p e, p < s → T p = some e → home e < s
  dist_lt : ∀ p e, p < s → T p = some e → dist s (home e) p < half
  broken : ∀ p e, p < s → T p = some e → ∀ i < dist s (home e) p,
    T (slotAt s (home e) i) = none →
      slotAt s (home e) i = slotAt s r g ∧ t ≤ dist s r p
  same : ∀ p, p < s → t ≤ dist s r p → T p = T₀ p
  run : ∀ i, 0 < i → i < t → T₀ (slotAt s r i) ≠ none
  unmoved : g = 0 → ∀ i e, 0 < i → i < t → T₀ (slotAt s r i) = some e →
    dist s (home e) (slotAt s r i) < i

theorem Chained.remove {s half : ℕ} {home : α → ℕ} {T : ℕ → Option α}
    (hT : Chained s half home T) {r : ℕ} (hr : r < s) :
    Hole s half home T (Function.update T r none) r 0 1 := by
  have hsome : ∀ p e, Function.update T r none p = some e → p ≠ r ∧ T p = some e := by
    intro p e h
    by_cases heq : p = r
    · subst heq
      simp at h
    · rw [Function.update_of_ne heq] at h
      exact ⟨heq, h⟩
  refine ⟨hr, by omega, by omega, by simp [hr], ?_, ?_, ?_, ?_, ?_, ?_⟩
  · intro p e hp h
    exact hT.home_lt p e hp (hsome p e h).2
  · intro p e hp h
    exact hT.dist_lt p e hp (hsome p e h).2
  · intro p e hp h i hi hnone
    obtain ⟨hne, hp'⟩ := hsome p e h
    have hslot : slotAt s (home e) i = r := by
      by_contra hcon
      rw [Function.update_of_ne hcon] at hnone
      exact hT.filled p e hp hp' i hi hnone
    refine ⟨by rw [hslot, slotAt_zero hr], ?_⟩
    by_contra hcon
    have hzero : dist s r p = 0 := by omega
    exact hne (by rw [eq_slotAt_of_dist hr hp hzero, slotAt_zero hr])
  · intro p hp hd
    have hne : p ≠ r := by
      intro heq
      subst heq
      simp at hd
    rw [Function.update_of_ne hne]
  · intro i h0 h1
    omega
  · intro _ i e h0 h1
    omega

namespace Hole

variable {s half : ℕ} {home : α → ℕ} {T₀ T : ℕ → Option α} {r g t : ℕ}

/-- The slot under examination still holds what it held at first. -/
theorem same_at (h : Hole s half home T₀ T r g t) (hs : s = 2 * half)
    (ht : t ≤ half) : T (slotAt s r t) = T₀ (slotAt s r t) := by
  have hg := h.g_lt
  have hr := h.r_lt
  apply h.same _ (slotAt_lt hr (by omega))
  rw [dist_slotAt hr (by omega)]

/-- An element whose home lies after the hole stays where it is. -/
theorem skip (h : Hole s half home T₀ T r g t) (hs : s = 2 * half)
    (ht : t ≤ half) {e : α} (he : T (slotAt s r t) = some e)
    (hlt : dist s (home e) (slotAt s r t) < t - g) :
    Hole s half home T₀ T r g (t + 1) := by
  have hr := h.r_lt
  have hg := h.g_lt
  refine ⟨hr, by omega, by omega, h.empty, h.home_lt, h.dist_lt, ?_, ?_, ?_, ?_⟩
  · intro p x hp hx i hi hnone
    obtain ⟨hslot, hd⟩ := h.broken p x hp hx i hi hnone
    refine ⟨hslot, ?_⟩
    by_contra hcon
    -- `p` is the slot just examined, whose chain starts after the hole
    have hpt : p = slotAt s r t := eq_slotAt_of_dist hr hp (by omega)
    subst hpt
    have hxe : x = e := by simpa [hx] using he
    subst hxe
    have hrt : dist s r (slotAt s r t) = t := dist_slotAt hr (by omega)
    have hleft := dist_sub_of_meet (h.home_lt _ x hp hx) hr hp hi.le (by omega) hslot
    omega
  · intro p hp hd
    exact h.same p hp (by omega)
  · intro i h0 h1
    by_cases hit : i = t
    · subst hit
      rw [← h.same_at hs ht, he]
      simp
    · exact h.run i h0 (by omega)
  · intro hg0 i x h0 h1 hx
    by_cases hit : i = t
    · subst hit
      rw [← h.same_at hs ht, he] at hx
      have hxe : e = x := by simpa using hx
      subst hxe
      omega
    · exact h.unmoved hg0 i x h0 (by omega) hx

/-- An element whose home is the hole or lies before it moves into the hole,
and the slot it leaves is the new hole. -/
theorem move (h : Hole s half home T₀ T r g t) (hs : s = 2 * half)
    (ht : t ≤ half) {e : α} (he : T (slotAt s r t) = some e)
    (hge : t - g ≤ dist s (home e) (slotAt s r t)) :
    Hole s half home T₀
      (Function.update (Function.update T (slotAt s r g) (some e))
        (slotAt s r t) none) r t (t + 1) := by
  have hr := h.r_lt
  have hg := h.g_lt
  have hlt : slotAt s r t < s := slotAt_lt hr (by omega)
  have hglt : slotAt s r g < s := slotAt_lt hr (by omega)
  have hne : slotAt s r g ≠ slotAt s r t := by
    intro heq
    have := slotAt_inj (by omega) (by omega) heq
    omega
  have hhome : home e < s := h.home_lt _ e hlt he
  have hdist : dist s (home e) (slotAt s r t) < half := h.dist_lt _ e hlt he
  have hdistg : dist s (home e) (slotAt s r g) =
      dist s (home e) (slotAt s r t) - (t - g) := by
    have hgap := dist_between hr hg.le (by omega : t < s)
    rw [dist_of_le hhome hglt hlt (by omega), hgap]
  have hcases : ∀ p x,
      Function.update (Function.update T (slotAt s r g) (some e))
        (slotAt s r t) none p = some x →
      p ≠ slotAt s r t ∧
        ((p = slotAt s r g ∧ x = e) ∨ (p ≠ slotAt s r g ∧ T p = some x)) := by
    intro p x hx
    by_cases hpt : p = slotAt s r t
    · subst hpt
      simp at hx
    · rw [Function.update_of_ne hpt] at hx
      refine ⟨hpt, ?_⟩
      by_cases hpg : p = slotAt s r g
      · subst hpg
        simp only [Function.update_self, Option.some.injEq] at hx
        exact Or.inl ⟨rfl, hx.symm⟩
      · rw [Function.update_of_ne hpg] at hx
        exact Or.inr ⟨hpg, hx⟩
  have hnone : ∀ p,
      Function.update (Function.update T (slotAt s r g) (some e))
        (slotAt s r t) none p = none →
      p = slotAt s r t ∨ (p ≠ slotAt s r g ∧ T p = none) := by
    intro p hp
    by_cases hpt : p = slotAt s r t
    · exact Or.inl hpt
    · rw [Function.update_of_ne hpt] at hp
      by_cases hpg : p = slotAt s r g
      · subst hpg
        simp at hp
      · rw [Function.update_of_ne hpg] at hp
        exact Or.inr ⟨hpg, hp⟩
  -- no chain of an examined slot is long enough to reach around to slot `t`
  have hfar : ∀ p b, p < s → b < s → dist s b p < half → p ≠ slotAt s r t →
      ∀ i < dist s b p, slotAt s b i = slotAt s r t → t + 1 ≤ dist s r p := by
    intro p b hp hb hd hpt i hi hslot
    have hleft : dist s (slotAt s r t) p = dist s b p - i := by
      rw [← hslot, dist_of_slotAt hb hp hi.le]
    have hway : p = slotAt s r (t + dist s (slotAt s r t) p) := by
      rw [← slotAt_add hr (by omega), slotAt_dist hlt hp]
    have hall : dist s r p = t + dist s (slotAt s r t) p := by
      conv_lhs => rw [hway]
      exact dist_slotAt hr (by omega)
    omega
  refine ⟨hr, by omega, by omega, by simp, ?_, ?_, ?_, ?_, ?_, ?_⟩
  · intro p x hp hx
    rcases (hcases p x hx).2 with ⟨_, rfl⟩ | ⟨_, hTp⟩
    · exact hhome
    · exact h.home_lt p x hp hTp
  · intro p x hp hx
    rcases (hcases p x hx).2 with ⟨rfl, rfl⟩ | ⟨_, hTp⟩
    · omega
    · exact h.dist_lt p x hp hTp
  · intro p x hp hx i hi hempty
    obtain ⟨hpt, hwhere⟩ := hcases p x hx
    have hslotT : slotAt s (home x) i = slotAt s r t := by
      rcases hnone _ hempty with hslot | ⟨hslotg, hTslot⟩
      · exact hslot
      · exfalso
        rcases hwhere with ⟨rfl, rfl⟩ | ⟨_, hTp⟩
        · -- the moved element: the first part of its old chain
          have hold := h.broken _ x hlt he i (by omega) hTslot
          exact hslotg hold.1
        · exact hslotg (h.broken p x hp hTp i hi hTslot).1
    refine ⟨hslotT, ?_⟩
    have hxhome : home x < s ∧ dist s (home x) p < half := by
      rcases hwhere with ⟨rfl, rfl⟩ | ⟨_, hTp⟩
      · exact ⟨hhome, by omega⟩
      · exact ⟨h.home_lt p x hp hTp, h.dist_lt p x hp hTp⟩
    exact hfar p (home x) hp hxhome.1 hxhome.2 hpt i hi hslotT
  · intro p hp hd
    have hpt : p ≠ slotAt s r t := by
      rintro rfl
      rw [dist_slotAt hr (by omega)] at hd
      omega
    have hpg : p ≠ slotAt s r g := by
      rintro rfl
      rw [dist_slotAt hr (by omega)] at hd
      omega
    rw [Function.update_of_ne hpt, Function.update_of_ne hpg]
    exact h.same p hp (by omega)
  · intro i h0 h1
    by_cases hit : i = t
    · subst hit
      rw [← h.same_at hs ht, he]
      simp
    · exact h.run i h0 (by omega)
  · intro ht0
    omega

/-- Reaching an empty slot closes the deletion: no chain runs through the
hole any more. -/
theorem close_empty (h : Hole s half home T₀ T r g t) (hs : s = 2 * half)
    (ht : t ≤ half) (hempty : T (slotAt s r t) = none) :
    Chained s half home T := by
  have hr := h.r_lt
  have hg := h.g_lt
  refine ⟨h.home_lt, h.dist_lt, ?_⟩
  intro p e hp he i hi hnone
  obtain ⟨hslot, hd⟩ := h.broken p e hp he i hi hnone
  have hhome := h.home_lt p e hp he
  have hdlt := h.dist_lt p e hp he
  have hpt : p ≠ slotAt s r t := by
    rintro rfl
    rw [he] at hempty
    simp at hempty
  -- slot `t` lies on the chain of `p`, beyond the hole
  have hon : ∃ j < dist s (home e) p, slotAt s (home e) j = slotAt s r t := by
    have hpd : dist s r p ≠ t := fun heq => hpt (eq_slotAt_of_dist hr hp heq)
    have hleft := dist_sub_of_meet hhome hr hp hi.le (by omega) hslot
    have hmeet := slotAt_of_meet (k := t - g) hhome hr (by omega) (by omega) hslot
    rw [Nat.add_sub_cancel' hg.le] at hmeet
    exact ⟨i + (t - g), by omega, hmeet⟩
  obtain ⟨j, hj, hjslot⟩ := hon
  have hbroken := h.broken p e hp he j hj (by rw [hjslot]; exact hempty)
  rw [hjslot] at hbroken
  have := slotAt_inj (by omega) (by omega) hbroken.1
  omega

/-- The deletion may also stop at a slot that no later chain crosses. -/
theorem close_barrier (h : Hole s half home T₀ T r g t) (hs : s = 2 * half)
    {j : ℕ} (hgj : g ≤ j) (hjt : j < t)
    (hbarrier : ∀ d e, j < d → d < s → (∀ i, 0 < i → i ≤ d →
      T₀ (slotAt s r i) ≠ none) → T₀ (slotAt s r d) = some e →
        dist s (home e) (slotAt s r d) < d - j) :
    Chained s half home T := by
  have hr := h.r_lt
  have hgt := h.g_lt
  have htle := h.t_le
  refine ⟨h.home_lt, h.dist_lt, ?_⟩
  intro p e hp he i hi hnone
  obtain ⟨hslot, hd⟩ := h.broken p e hp he i hi hnone
  have hhome := h.home_lt p e hp he
  have hdlt := h.dist_lt p e hp he
  have hds : dist s r p < s := dist_lt_size hr hp
  have hpeq : p = slotAt s r (dist s r p) := (slotAt_dist hr hp).symm
  have hsplit : dist s (home e) p = i + (dist s r p - g) := by
    have hleft := dist_sub_of_meet hhome hr hp hi.le (by omega) hslot
    omega
  have hcontig : ∀ k, 0 < k → k ≤ dist s r p → T₀ (slotAt s r k) ≠ none := by
    intro k hk0 hk
    by_cases hkt : k < t
    · exact h.run k hk0 hkt
    · have hklt : slotAt s r k < s := slotAt_lt hr (by omega)
      rw [← h.same _ hklt (by rw [dist_slotAt hr (by omega)]; omega)]
      by_cases hkp : k = dist s r p
      · rw [hkp, ← hpeq, he]
        simp
      · -- slot `k` lies on the chain of `p` strictly after the hole
        have hon : slotAt s (home e) (i + (k - g)) = slotAt s r k := by
          have hmeet := slotAt_of_meet (k := k - g) hhome hr (by omega) (by omega) hslot
          rwa [Nat.add_sub_cancel' (by omega)] at hmeet
        intro hcon
        have hbr := h.broken p e hp he (i + (k - g)) (by omega)
          (by rw [hon]; exact hcon)
        rw [hon] at hbr
        have := slotAt_inj (by omega) (by omega) hbr.1
        omega
  have hlt := hbarrier (dist s r p) e (by omega) hds hcontig
    (by rw [← hpeq, ← h.same p hp hd]; exact he)
  rw [← hpeq] at hlt
  omega

end Hole

end ProbeTable
