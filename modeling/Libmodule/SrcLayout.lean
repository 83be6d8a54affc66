import Libmodule.SearchTree
import Mathlib.Tactic

/-!
# The memory layout of event sources

The objects that the comparators of `core/src.c` read, as 32-bit words of a
64-bit little-endian Linux.  The key of a source lies after its descriptor,
where alignment puts it; the structure a user passes starts with the key.  One
comparator reads its first argument as such a structure and its second as a
source.
-/

namespace Libmodule

open SearchTree

/-- The source types whose key is a number or a path. -/
inductive SrcType where
  | fd
  | tmr
  | sgn
  | path
  | pid
  deriving DecidableEq, Repr

/-- An object, four bytes at a time. -/
abbrev Words := ℕ → BitVec 32

/-- The eight bytes at the word `i`. -/
def word64 (w : Words) (i : ℕ) : BitVec 64 := w (i + 1) ++ w i

def memcpy (dst : Words) (off : ℕ) (src : Words) (len : ℕ) : Words :=
  fun i => if off ≤ i ∧ i < off + len then src (i - off) else dst i

/-- The C strings of the address space. -/
abbrev UserMem := BitVec 64 → Option (List UInt8)

def strcmp : List UInt8 → List UInt8 → ℤ
  | [], [] => 0
  | [], _ :: _ => -1
  | _ :: _, [] => 1
  | a :: s, b :: t => if a = b then strcmp s t else (a.toNat : ℤ) - b.toNat

namespace SrcType

/-- The word of `ev_src_t` at which the key structure of a source starts. -/
def keyOffset : SrcType → ℕ
  | fd => 0
  | tmr => 2
  | sgn => 1
  | path => 2
  | pid => 1

/-- The number of words of a key structure. -/
def keySize : SrcType → ℕ
  | fd => 1
  | tmr => 4
  | sgn => 1
  | path => 4
  | pid => 2

end SrcType

/-- The first words of the source that `create_src` fills in: zeroed memory,
the descriptor `-1`, then the key structure of the user. -/
def createSrcWords (type : SrcType) (key : Words) : Words :=
  memcpy (Function.update (fun _ => 0) 0 (-1)) type.keyOffset key type.keySize

/-! ## Comparators -/

def fdcmp (my node : Words) : Option ℤ := some (my 0 - node 0).toInt

/-- The difference of two unsigned 64-bit periods, returned as an `int`. -/
def tmrcmp (my node : Words) : Option ℤ :=
  some ((word64 my 2 - word64 node 4).setWidth 32).toInt

def sgncmp (my node : Words) : Option ℤ := some (my 0 - node 1).toInt

def pathcmp (mem : UserMem) (my node : Words) : Option ℤ := do
  some (strcmp (← mem (word64 my 0)) (← mem (word64 node 2)))

def pidcmp (my node : Words) : Option ℤ := some (my 0 - node 1).toInt

def srcCmpMap (mem : UserMem) : SrcType → Words → Words → Option ℤ
  | .fd => fdcmp
  | .tmr => tmrcmp
  | .sgn => sgncmp
  | .path => pathcmp mem
  | .pid => pidcmp

/-! ## The order of keys -/

/-- The key structure inside a source. -/
def keyOf (type : SrcType) (src : Words) : Words := fun i => src (type.keyOffset + i)

theorem keyOf_createSrcWords (type : SrcType) (key : Words) {i : ℕ} (hi : i < type.keySize) :
    keyOf type (createSrcWords type key) i = key i := by
  have hcond : type.keyOffset ≤ type.keyOffset + i ∧
      type.keyOffset + i < type.keyOffset + type.keySize := by omega
  rw [keyOf, createSrcWords, memcpy, if_pos hcond, Nat.add_sub_cancel_left]

/-- Paths in the order of `strcmp`; an address without a string is below them. -/
def pathOrder : Option (List UInt8) → Option (List UInt8) → ℤ
  | none, none => 0
  | none, some _ => -1
  | some _, none => 1
  | some s, some t => strcmp s t

/-- The order of two keys of one type by what they mean. -/
def keyOrder (mem : UserMem) : SrcType → Words → Words → ℤ
  | .fd, a, b => (a 0).toInt - (b 0).toInt
  | .tmr, a, b => ((word64 a 2).toNat : ℤ) - (word64 b 2).toNat
  | .sgn, a, b => ((a 0).toNat : ℤ) - (b 0).toNat
  | .path, a, b => pathOrder (mem (word64 a 0)) (mem (word64 b 0))
  | .pid, a, b => (a 0).toInt - (b 0).toInt

theorem strcmp_refl (s : List UInt8) : strcmp s s = 0 := by
  induction s with
  | nil => rfl
  | cons a s ih => rw [strcmp, if_pos rfl, ih]

theorem strcmp_swap (s t : List UInt8) : 0 < strcmp s t ↔ strcmp t s < 0 := by
  induction s generalizing t with
  | nil => cases t <;> simp [strcmp]
  | cons a s ih =>
      cases t with
      | nil => simp [strcmp]
      | cons b t =>
          by_cases hab : a = b
          · rw [strcmp, strcmp, if_pos hab, if_pos hab.symm, ih]
          · rw [strcmp, strcmp, if_neg hab, if_neg (Ne.symm hab)]
            omega

theorem strcmp_trans (s t u : List UInt8) (hst : strcmp s t ≤ 0) (htu : strcmp t u ≤ 0) :
    strcmp s u ≤ 0 := by
  induction s generalizing t u with
  | nil => cases u <;> simp [strcmp]
  | cons a s ih =>
      cases t with
      | nil => simp [strcmp] at hst
      | cons b t =>
          cases u with
          | nil => simp [strcmp] at htu
          | cons c u =>
              have hne : ∀ {x y : UInt8}, x ≠ y → (x.toNat : ℤ) ≠ y.toNat := by
                intro x y hxy heq
                exact hxy (UInt8.toNat_inj.mp (by exact_mod_cast heq))
              rw [strcmp] at hst htu ⊢
              by_cases hab : a = b
              · subst hab
                rw [if_pos rfl] at hst
                split
                next hac =>
                  rw [if_pos hac] at htu
                  exact ih t u hst htu
                next hac => rwa [if_neg hac] at htu
              · rw [if_neg hab] at hst
                have hlt := hne hab
                split
                next hac =>
                  subst hac
                  rw [if_neg (Ne.symm hab)] at htu
                  omega
                next hac =>
                  by_cases hbc : b = c
                  · subst hbc
                    exact hst
                  · rw [if_neg hbc] at htu
                    omega

/-- Keys of one type are totally preordered. -/
theorem keyOrder_total (mem : UserMem) (type : SrcType) :
    TotalPreorder (keyOrder mem type) := by
  have hnum : ∀ f : Words → ℤ, TotalPreorder (fun a b => f a - f b) := by
    intro f
    exact ⟨fun a => sub_self _, fun a b => by omega, fun a b c => by omega⟩
  cases type with
  | fd => exact hnum (fun w => (w 0).toInt)
  | tmr => exact hnum (fun w => ((word64 w 2).toNat : ℤ))
  | sgn => exact hnum (fun w => ((w 0).toNat : ℤ))
  | pid => exact hnum (fun w => (w 0).toInt)
  | path =>
      refine ⟨fun a => ?_, fun a b => ?_, fun a b c => ?_⟩
      · simp only [keyOrder]
        cases mem (word64 a 0) with
        | none => rfl
        | some s => exact strcmp_refl s
      · simp only [keyOrder]
        cases mem (word64 a 0) <;> cases mem (word64 b 0) <;>
          simp [pathOrder, strcmp_swap]
      · simp only [keyOrder]
        cases mem (word64 a 0) <;> cases mem (word64 b 0) <;> cases mem (word64 c 0) <;>
          simp only [pathOrder] <;> first | omega | exact strcmp_trans _ _ _

end Libmodule
