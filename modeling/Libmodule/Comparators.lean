import Libmodule.Operation
import Libmodule.TruncatedOrder

/-!
# The integer comparators

Every comparator that the library installs itself on a tree subtracts two keys and returns
the difference as an `int`.  It orders the keys that come from one half of the 32-bit
circle and differ in their low 32 bits.
-/

namespace Libmodule

open TruncatedOrder

inductive Comparator where
  | ptrcmp
  | fdcmp
  | tmrcmp
  | sgncmp
  | pidcmp
  | taskcmp
  deriving DecidableEq, Repr

/-- The comparator of a tree that is given none: the difference of two pointers. -/
def ptrcmp (userdata nodeData : BitVec 64) : ℤ := ((userdata - nodeData).setWidth 32).toInt

namespace Comparator

/-- The number that a key stands for. -/
def value : Comparator → Words → ℤ
  | ptrcmp, key => (word64 key 0).toNat
  | fdcmp, key => (key 0).toInt
  | tmrcmp, key => (word64 key 2).toNat
  | sgncmp, key => (key 0).toNat
  | pidcmp, key => (key 0).toInt
  | taskcmp, key => (key 0).toInt

/-- The keys that the public functions accept. -/
def Admits (mem : UserMem) : Comparator → Words → Prop
  | ptrcmp, key => word64 key 0 ≠ 0
  | fdcmp, key => keyOk mem .fd key = some true
  | tmrcmp, key => keyOk mem .tmr key = some true
  | sgncmp, key => keyOk mem .sgn key = some true
  | pidcmp, key => keyOk mem .pid key = some true
  | taskcmp, _ => True

/-- The source that a node of the tree holds for a key. -/
def node (type : MSrcType) (key : Words) (sys : Sys) : Words :=
  (World.createSrc none type key 0 (.user 0) sys).1.words

/-- What the comparator returns for a key and the node of another. -/
def compare (c : Comparator) (sys : Sys) (my other : Words) : Option ℤ :=
  match c with
  | ptrcmp => some (Libmodule.ptrcmp (word64 my 0) (word64 other 0))
  | fdcmp => Libmodule.fdcmp my (node .fd other sys)
  | tmrcmp => Libmodule.tmrcmp my (node .tmr other sys)
  | sgncmp => Libmodule.sgncmp my (node .sgn other sys)
  | pidcmp => Libmodule.pidcmp my (node .pid other sys)
  | taskcmp => Libmodule.taskcmp my (node .task other sys)

end Comparator

/-! ## Differences of words -/

section Differences

theorem bmod_congr {a b : ℤ} {m : ℕ} (h : a % m = b % m) : a.bmod m = b.bmod m := by
  rw [Int.bmod_def, Int.bmod_def, h]

theorem toInt_sub_eq_diff (a b : BitVec 32) : (a - b).toInt = diff (2 ^ 31) a.toInt b.toInt := by
  rw [BitVec.toInt_sub]
  rfl

theorem toInt_sub_eq_diff_toNat (a b : BitVec 32) :
    (a - b).toInt = diff (2 ^ 31) a.toNat b.toNat := by
  rw [toInt_sub_eq_diff, diff, diff]
  apply bmod_congr
  rw [BitVec.toInt_eq_toNat_cond, BitVec.toInt_eq_toNat_cond]
  split <;> split <;> omega

/-- The low word of a difference of 64-bit numbers. -/
theorem toInt_setWidth_sub (a b : BitVec 64) :
    ((a - b).setWidth 32).toInt = diff (2 ^ 31) a.toNat b.toNat := by
  have hlt := a.isLt
  have hlt' := b.isLt
  rw [BitVec.toInt_eq_toNat_bmod, diff]
  apply bmod_congr
  rw [BitVec.toNat_setWidth, BitVec.toNat_sub]
  omega

end Differences

/-! ## The order -/

namespace Comparator

theorem compare_eq (c : Comparator) (sys : Sys) (my other : Words) :
    c.compare sys my other = some (diff (2 ^ 31) (c.value my) (c.value other)) := by
  cases c with
  | ptrcmp => exact congrArg some (toInt_setWidth_sub _ _)
  | fdcmp =>
      have hnode : node .fd other sys 0 = other 0 := by
        have hword : node .fd other sys 0 = BitVec.ofNat 32 (other 0).toNat := rfl
        rw [hword, BitVec.ofNat_toNat, BitVec.setWidth_eq]
      rw [compare, Libmodule.fdcmp, hnode]
      exact congrArg some (toInt_sub_eq_diff _ _)
  | tmrcmp =>
      have hnode : word64 (node .tmr other sys) 4 = word64 other 2 := rfl
      rw [compare, Libmodule.tmrcmp, hnode]
      exact congrArg some (toInt_setWidth_sub _ _)
  | sgncmp => exact congrArg some (toInt_sub_eq_diff_toNat _ _)
  | pidcmp => exact congrArg some (toInt_sub_eq_diff _ _)
  | taskcmp => exact congrArg some (toInt_sub_eq_diff _ _)

/-- The comparator as the `int` that it returns. -/
def result (c : Comparator) (sys : Sys) (my other : Words) : ℤ := (c.compare sys my other).getD 0

theorem strictOrderOn_iff_of_keys (c : Comparator) (sys : Sys) (keys : Set Words) :
    StrictOrderOn (c.result sys) c.value keys ↔ WithinHalf (2 ^ 31) c.value keys := by
  rw [← strictOrderOn_iff_withinHalf (by decide)]
  have hresult : c.result sys = fun a b => diff (2 ^ 31) (c.value a) (c.value b) := by
    funext a b
    rw [result, compare_eq]
    rfl
  rw [hresult]

/-- A key structure with the number `n` in the two words from `i` on. -/
def keyAt (i n : ℕ) : Words := fun j =>
  if j = i then BitVec.ofNat 32 n else if j = i + 1 then BitVec.ofNat 32 (n >>> 32) else 0

/-- Two numbers opposite to each other on the circle. -/
theorem not_withinHalf_of_opposite {c : Comparator} {keys : Set Words} {a b : Words}
    (ha : a ∈ keys) (hb : b ∈ keys) (hopposite : (c.value a - c.value b) % 2 ^ 32 = 2 ^ 31) :
    ¬ WithinHalf (2 ^ 31) c.value keys := by
  rintro ⟨-, base, hbase⟩
  have hhalf := hbase a ha
  have hhalf' := hbase b hb
  push_cast at hhalf hhalf'
  omega

/-- Two numbers that agree in their low words. -/
theorem not_withinHalf_of_agree {c : Comparator} {keys : Set Words} {a b : Words}
    (ha : a ∈ keys) (hb : b ∈ keys) (hsame : c.value a % 2 ^ 32 = c.value b % 2 ^ 32)
    (hne : c.value a ≠ c.value b) : ¬ WithinHalf (2 ^ 31) c.value keys := by
  intro hwithin
  exact hne (hwithin.apart a ha b hb hsame)

theorem admits_tmr (mem : UserMem) {key : Words} (hns : word64 key 2 ≠ 0) :
    tmrcmp.Admits mem key :=
  congrArg some (decide_eq_true hns)

theorem not_withinHalf_admitted (mem : UserMem) {c : Comparator} (hfd : c ≠ fdcmp)
    (hpid : c ≠ pidcmp) : ¬ WithinHalf (2 ^ 31) c.value {key | c.Admits mem key} := by
  cases c with
  | fdcmp => exact absurd rfl hfd
  | pidcmp => exact absurd rfl hpid
  | ptrcmp =>
      have hone : word64 (keyAt 0 1) 0 ≠ 0 := by decide +kernel
      have hfar : word64 (keyAt 0 (2 ^ 32 + 1)) 0 ≠ 0 := by decide +kernel
      exact not_withinHalf_of_agree hone hfar (by decide +kernel) (by decide +kernel)
  | tmrcmp =>
      exact not_withinHalf_of_agree (admits_tmr mem (by decide +kernel))
        (admits_tmr mem (by decide +kernel)) (a := keyAt 2 1) (b := keyAt 2 (2 ^ 32 + 1))
        (by decide +kernel) (by decide +kernel)
  | sgncmp =>
      have hone : sgncmp.Admits mem (keyAt 0 1) := rfl
      have hfar : sgncmp.Admits mem (keyAt 0 (2 ^ 31 + 1)) := rfl
      exact not_withinHalf_of_opposite hfar hone (by decide +kernel)
  | taskcmp =>
      exact not_withinHalf_of_opposite (a := keyAt 0 (2 ^ 31)) (b := keyAt 0 0) trivial trivial
        (by decide +kernel)

theorem withinHalf_of_nonneg (mem : UserMem) {c : Comparator} (hc : c = fdcmp ∨ c = pidcmp) :
    WithinHalf (2 ^ 31) c.value {key | c.Admits mem key} := by
  have hnonneg : ∀ key, c.Admits mem key → 0 ≤ c.value key ∧ c.value key < 2 ^ 31 := by
    intro key hkey
    have hlt := (key 0).toInt_lt
    rcases hc with rfl | rfl
    · have hle : 0 ≤ (key 0).toInt := of_decide_eq_true (Option.some.inj hkey)
      exact ⟨hle, hlt⟩
    · have hle : 0 < (key 0).toInt := of_decide_eq_true (Option.some.inj hkey)
      exact ⟨hle.le, hlt⟩
  constructor
  · intro a ha b hb hsame
    have hrange := hnonneg a ha
    have hrange' := hnonneg b hb
    rw [Int.emod_eq_of_lt hrange.1 (by push_cast; omega),
      Int.emod_eq_of_lt hrange'.1 (by push_cast; omega)] at hsame
    exact hsame
  · refine ⟨0, fun a ha => ?_⟩
    have hrange := hnonneg a ha
    rw [sub_zero, Int.emod_eq_of_lt hrange.1 (by push_cast; omega)]
    push_cast
    exact hrange.2

/-- A comparator is a strict total order on a set of keys just when their numbers differ
in the low 32 bits and lie within a half circle of them.  All the keys that are accepted
do so for descriptors and process ids, and for no other type. -/
theorem strictOrderOn_iff (mem : UserMem) (c : Comparator) (sys : Sys) :
    (∀ keys : Set Words, StrictOrderOn (c.result sys) c.value keys ↔
      WithinHalf (2 ^ 31) c.value keys) ∧
    (StrictOrderOn (c.result sys) c.value {key | c.Admits mem key} ↔
      c = fdcmp ∨ c = pidcmp) := by
  refine ⟨c.strictOrderOn_iff_of_keys sys, ?_⟩
  rw [strictOrderOn_iff_of_keys]
  constructor
  · intro hwithin
    by_contra hnone
    rw [not_or] at hnone
    exact not_withinHalf_admitted mem hnone.1 hnone.2 hwithin
  · exact withinHalf_of_nonneg mem

/-- Two periods 2^32 nanoseconds apart compare equal. -/
theorem not_strictOrderOn_tmrcmp :
    ¬ ∀ (mem : UserMem) (c : Comparator) (sys : Sys),
      StrictOrderOn (c.result sys) c.value {key | c.Admits mem key} := by
  intro hall
  have horder := hall (fun _ => none) tmrcmp ⟨0, [], [], [], [], [], []⟩
  have hequal := horder.equal (keyAt 2 1) (admits_tmr _ (by decide +kernel))
    (keyAt 2 (2 ^ 32 + 1)) (admits_tmr _ (by decide +kernel)) (by decide +kernel)
  exact absurd hequal (by decide +kernel)

end Comparator

end Libmodule
