import Mathlib.Data.Set.Finite.Lattice
import Mathlib.Data.Int.Interval
import Mathlib.Tactic

/-!
# Orders by truncated differences

Numbers that are compared by their difference, kept in the `2 h` values of a machine
integer.  This orders a set of numbers just when they are told apart modulo `2 h` and lie
within one half of the circle of residues.
-/

namespace TruncatedOrder

variable {ι : Type*}

/-- The difference as an integer with values from `-h` on, below `h`. -/
def diff (h : ℕ) (a b : ℤ) : ℤ := (a - b).bmod (2 * h)

/-- A comparison is a strict total order on the keys of a set, told apart by their
values. -/
structure StrictOrderOn (cmp : ι → ι → ℤ) (value : ι → ℤ) (keys : Set ι) : Prop where
  equal : ∀ a ∈ keys, ∀ b ∈ keys, cmp a b = 0 → value a = value b
  swap : ∀ a ∈ keys, ∀ b ∈ keys, (cmp b a).sign = -(cmp a b).sign
  trans : ∀ a ∈ keys, ∀ b ∈ keys, ∀ c ∈ keys, cmp a b < 0 → cmp b c < 0 → cmp a c < 0

/-- No two values agree modulo `2 h`, and their residues lie within a half circle. -/
structure WithinHalf (h : ℕ) (value : ι → ℤ) (keys : Set ι) : Prop where
  apart : ∀ a ∈ keys, ∀ b ∈ keys, value a % (2 * h) = value b % (2 * h) → value a = value b
  half : ∃ base : ℤ, ∀ a ∈ keys, (value a - base) % (2 * h) < h

section Diff

variable {h : ℕ} {a b : ℤ}

theorem diff_eq_ite : diff h a b =
    if (a - b) % (2 * h) < h then (a - b) % (2 * h) else (a - b) % (2 * h) - 2 * h := by
  rw [diff, Int.bmod_def]
  have hhalf : (((2 * h : ℕ) : ℤ) + 1) / 2 = h := by omega
  rw [hhalf]
  push_cast
  rfl

theorem diff_nonneg_iff (hh : 0 < h) : 0 ≤ diff h a b ↔ (a - b) % (2 * h) < h := by
  have hpos : (0 : ℤ) < 2 * h := by omega
  have hlow := Int.emod_nonneg (a - b) hpos.ne'
  have hhigh := Int.emod_lt_of_pos (a - b) hpos
  rw [diff_eq_ite]
  split
  next hlt => exact iff_of_true hlow hlt
  next hge => exact iff_of_false (by omega) hge

theorem diff_eq_zero_iff (hh : 0 < h) : diff h a b = 0 ↔ a % (2 * h) = b % (2 * h) := by
  have hpos : (0 : ℤ) < 2 * h := by omega
  have hhigh := Int.emod_lt_of_pos (a - b) hpos
  rw [Int.emod_eq_emod_iff_emod_sub_eq_zero, diff_eq_ite]
  split
  next => rfl
  next hge => exact iff_of_false (by omega) (by omega)

/-- Within a half circle the difference is that of the distances from its start. -/
theorem diff_eq_sub {base : ℤ} (hh : 0 < h) (ha : (a - base) % (2 * h) < h)
    (hb : (b - base) % (2 * h) < h) :
    diff h a b = (a - base) % (2 * h) - (b - base) % (2 * h) := by
  have hpos : (0 : ℤ) < 2 * h := by omega
  have hlow := Int.emod_nonneg (a - base) hpos.ne'
  have hlow' := Int.emod_nonneg (b - base) hpos.ne'
  have hsame : (a - b) % (2 * h) =
      ((a - base) % (2 * h) - (b - base) % (2 * h)) % (2 * h) := by
    rw [← Int.sub_emod, sub_sub_sub_cancel_right]
  rw [diff_eq_ite, hsame]
  by_cases hle : (b - base) % (2 * h) ≤ (a - base) % (2 * h)
  · rw [Int.emod_eq_of_lt (by omega) (by omega), if_pos (by omega)]
  · have hshift : ((a - base) % (2 * h) - (b - base) % (2 * h)) % (2 * h) =
        (a - base) % (2 * h) - (b - base) % (2 * h) + 2 * h := by
      rw [← Int.add_emod_right, Int.emod_eq_of_lt (by omega) (by omega)]
    rw [hshift, if_neg (by omega)]
    omega

end Diff

section Order

variable {h : ℕ} {value : ι → ℤ} {keys : Set ι}

theorem WithinHalf.strictOrderOn (hh : 0 < h) (hkeys : WithinHalf h value keys) :
    StrictOrderOn (fun a b => diff h (value a) (value b)) value keys := by
  obtain ⟨base, hbase⟩ := hkeys.half
  refine ⟨?_, ?_, ?_⟩
  · intro a ha b hb hzero
    exact hkeys.apart a ha b hb ((diff_eq_zero_iff hh).mp hzero)
  · intro a ha b hb
    simp only [diff_eq_sub hh (hbase a ha) (hbase b hb), diff_eq_sub hh (hbase b hb) (hbase a ha)]
    rw [← Int.sign_neg, neg_sub]
  · intro a ha b hb c hc
    simp only [diff_eq_sub hh (hbase a ha) (hbase b hb), diff_eq_sub hh (hbase b hb) (hbase c hc),
      diff_eq_sub hh (hbase a ha) (hbase c hc)]
    omega

/-- A finite set that is ordered has a least key. -/
theorem StrictOrderOn.exists_least {cmp : ι → ι → ℤ} (hcmp : StrictOrderOn cmp value keys)
    (s : Finset ι) (hs : s.Nonempty) (hsub : ∀ a ∈ s, a ∈ keys) :
    ∃ b ∈ s, ∀ a ∈ s, 0 ≤ cmp a b := by
  have hself : ∀ a ∈ keys, 0 ≤ cmp a a := by
    intro a ha
    have hswap := hcmp.swap a ha a ha
    by_contra hneg
    rw [Int.sign_eq_neg_one_of_neg (by omega)] at hswap
    omega
  induction hs using Finset.Nonempty.cons_induction with
  | singleton a =>
      refine ⟨a, Finset.mem_singleton_self a, fun c hc => ?_⟩
      rw [Finset.mem_singleton.mp hc]
      exact hself a (hsub a (Finset.mem_singleton_self a))
  | cons a s ha hs ih =>
      obtain ⟨b, hb, hleast⟩ := ih (fun c hc => hsub c (Finset.mem_cons_of_mem hc))
      have hakeys := hsub a (Finset.mem_cons_self a s)
      have hbkeys := hsub b (Finset.mem_cons_of_mem hb)
      by_cases hab : 0 ≤ cmp a b
      · refine ⟨b, Finset.mem_cons_of_mem hb, fun c hc => ?_⟩
        rcases Finset.mem_cons.mp hc with rfl | hc
        · exact hab
        · exact hleast c hc
      · refine ⟨a, Finset.mem_cons_self a s, fun c hc => ?_⟩
        rcases Finset.mem_cons.mp hc with rfl | hc
        · exact hself c hakeys
        · by_contra hca
          have hckeys := hsub c (Finset.mem_cons_of_mem hc)
          have hcb := hcmp.trans c hckeys a hakeys b hbkeys (by omega) (by omega)
          have := hleast c hc
          omega

/-- Truncated differences order a set of keys just when its values lie apart from each
other within a half circle. -/
theorem strictOrderOn_iff_withinHalf (hh : 0 < h) :
    StrictOrderOn (fun a b => diff h (value a) (value b)) value keys ↔
      WithinHalf h value keys := by
  refine ⟨fun hcmp => ?_, fun hkeys => hkeys.strictOrderOn hh⟩
  have hpos : (0 : ℤ) < 2 * h := by omega
  have hapart : ∀ a ∈ keys, ∀ b ∈ keys, value a % (2 * h) = value b % (2 * h) →
      value a = value b :=
    fun a ha b hb hsame => hcmp.equal a ha b hb ((diff_eq_zero_iff hh).mpr hsame)
  refine ⟨hapart, ?_⟩
  -- one key for each residue: there are finitely many
  obtain ⟨reps, hreps, hbij⟩ := Set.exists_subset_bijOn keys (fun a => value a % (2 * h))
  have hfinite : reps.Finite := by
    apply Set.Finite.of_finite_image _ hbij.injOn
    rw [hbij.image_eq]
    refine (Set.finite_Ico (0 : ℤ) (2 * h)).subset ?_
    rintro _ ⟨a, -, rfl⟩
    exact ⟨Int.emod_nonneg _ hpos.ne', Int.emod_lt_of_pos _ hpos⟩
  rcases keys.eq_empty_or_nonempty with rfl | ⟨k, hk⟩
  · exact ⟨0, by rintro a ⟨⟩⟩
  · obtain ⟨r, hr, -⟩ := hbij.surjOn ⟨k, hk, rfl⟩
    obtain ⟨b, -, hleast⟩ := hcmp.exists_least hfinite.toFinset
      ⟨r, hfinite.mem_toFinset.mpr hr⟩ (fun a ha => hreps (hfinite.mem_toFinset.mp ha))
    refine ⟨value b, fun a ha => ?_⟩
    obtain ⟨c, hc, hsame⟩ := hbij.surjOn ⟨a, ha, rfl⟩
    rw [← hapart c (hreps hc) a ha hsame]
    exact (diff_nonneg_iff hh).mp (hleast c (hfinite.mem_toFinset.mpr hc))

end Order

end TruncatedOrder
