import Mathlib.Data.Nat.Bitwise
import Mathlib.Tactic.Ring

/-!
# Bytes and words

A memory gives every address a byte.  A word is stored as its eight bytes, the
lowest first, and loaded from them; a load sees nothing but its own range.
-/

namespace ByteMemory

abbrev Memory := ℕ → UInt8

def storeByte (m : Memory) (a : ℕ) (b : UInt8) : Memory := Function.update m a b

/-- `calloc` leaves zeros in its block. -/
def clear (m : Memory) (a n : ℕ) : Memory := fun x => if a ≤ x ∧ x < a + n then 0 else m x

def storeWord (m : Memory) (a : ℕ) (w : UInt64) : Memory := fun x =>
  if a ≤ x ∧ x < a + 8 then UInt8.ofNat (w.toNat / 256 ^ (x - a)) else m x

/-- The number that `n` bytes from `a` on stand for. -/
def bytesAt (m : Memory) (a : ℕ) : ℕ → ℕ
  | 0 => 0
  | n + 1 => bytesAt m a n + 256 ^ n * (m (a + n)).toNat

def loadWord (m : Memory) (a : ℕ) : UInt64 := UInt64.ofNat (bytesAt m a 8)

/-- The memories have the same bytes in the range. -/
def Agree (m m' : Memory) (a n : ℕ) : Prop := ∀ x, a ≤ x → x < a + n → m x = m' x

variable {m m' : Memory} {a b n k : ℕ} {w : UInt64}

theorem Agree.sub (h : Agree m m' a n) (hlow : a ≤ b) (hhigh : b + k ≤ a + n) :
    Agree m m' b k :=
  fun x hx hx' => h x (by omega) (by omega)

theorem agree_storeByte (v : UInt8) (hout : b < a ∨ a + n ≤ b) :
    Agree (storeByte m b v) m a n := by
  intro x hx hx'
  exact Function.update_of_ne (by omega) _ _

theorem agree_storeWord (w : UInt64) (hout : b + 8 ≤ a ∨ a + n ≤ b) :
    Agree (storeWord m b w) m a n := by
  intro x hx hx'
  exact if_neg (by omega)

theorem bytesAt_congr (h : Agree m m' a n) : bytesAt m a n = bytesAt m' a n := by
  induction n with
  | zero => rfl
  | succ n ih =>
      rw [bytesAt, bytesAt, ih (h.sub le_rfl (by omega)), h (a + n) (by omega) (by omega)]

theorem loadWord_congr (h : Agree m m' a 8) : loadWord m a = loadWord m' a := by
  rw [loadWord, loadWord, bytesAt_congr h]

/-- The first `n` bytes of a stored word are its value below `256 ^ n`. -/
theorem bytesAt_storeWord (hn : n ≤ 8) :
    bytesAt (storeWord m a w) a n = w.toNat % 256 ^ n := by
  induction n with
  | zero => simp [bytesAt, Nat.mod_one]
  | succ n ih =>
      have hbyte : (storeWord m a w (a + n)).toNat = w.toNat / 256 ^ n % 256 := by
        simp [storeWord, show n < 8 by omega]
      rw [bytesAt, ih (by omega), hbyte, ← Nat.mod_pow_succ]

theorem loadWord_storeWord (m : Memory) (a : ℕ) (w : UInt64) :
    loadWord (storeWord m a w) a = w := by
  rw [loadWord, bytesAt_storeWord le_rfl]
  have hlt : w.toNat < 256 ^ 8 := w.toNat_lt
  rw [Nat.mod_eq_of_lt hlt, UInt64.ofNat_toNat]

end ByteMemory
