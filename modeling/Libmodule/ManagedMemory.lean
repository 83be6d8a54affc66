import Libmodule.ByteMemory
import Mathlib.Data.Set.Basic
import Mathlib.Order.Interval.Set.Basic

/-!
# Reference counted memory

`mem.c` on a machine with 64-bit words whose maximum alignment is 16.  A block is a header,
a gap of 1 to 16 bytes whose last byte is the length of the gap, and the bytes of the user;
all is found back from the pointer to the latter.
-/

namespace Libmodule

open ByteMemory

/-! ## The code -/

def alignofMaxAlign : UInt64 := 16

/-- `__ALIGN_MASK`. -/
def alignMask (x mask : UInt64) : UInt64 := (x + mask) &&& ~~~mask

def alignUp (x : UInt64) : UInt64 := alignMask x (alignofMaxAlign - 1)

/-! The places of the header's fields, and the size of the header. -/

def refsOffset : ℕ := 0
def sizeOffset : ℕ := 8
def dtorOffset : ℕ := 16
def sizeofMemHeader : ℕ := 24

def getHeader (m : Memory) (src : ℕ) : ℕ := src - sizeofMemHeader - (m (src - 1)).toNat

def totalSize (size : UInt64) : UInt64 := UInt64.ofNat sizeofMemHeader + size

def alignShift (size : UInt64) : UInt8 :=
  let shift := (alignUp (totalSize size) - totalSize size).toUInt8
  -- a whole block of alignment, to have a place for the shift itself
  if shift = 0 then alignofMaxAlign.toUInt8 else shift

/-- What `m_mem_new` asks `calloc` for. -/
def memNewBytes (size : UInt64) : UInt64 := totalSize size + (alignShift size).toUInt64

/-- `m_mem_new`, where `calloc` has answered with `header`. -/
def mMemNew (m : Memory) (header : Option ℕ) (size dtor : UInt64) : Memory × Option ℕ :=
  match header with
  | none => (m, none)
  | some header =>
      let m := clear m header (memNewBytes size).toNat
      let m := storeWord m (header + refsOffset) 1
      let m := storeWord m (header + dtorOffset) dtor
      let m := storeWord m (header + sizeOffset) size
      let data := header + sizeofMemHeader + (alignShift size).toNat
      (storeByte m (data - 1) (alignShift size), some data)

def mMemRef (m : Memory) (src : Option ℕ) : Memory × Option ℕ :=
  match src with
  | none => (m, none)
  | some p =>
      let header := getHeader m p
      (storeWord m (header + refsOffset) (loadWord m (header + refsOffset) + 1), some p)

/-- What `m_mem_unref` does on the last reference: the destructor it calls, with the pointer
it passes, and the block it frees. -/
structure Release where
  dtor : Option (UInt64 × ℕ)
  freed : ℕ
  deriving DecidableEq

def mMemUnref (m : Memory) (src : Option ℕ) : Memory × Option Release :=
  match src with
  | none => (m, none)
  | some p =>
      let header := getHeader m p
      let refs := loadWord m (header + refsOffset) - 1
      let m := storeWord m (header + refsOffset) refs
      if refs = 0 then
        let dtor := loadWord m (header + dtorOffset)
        (m, some ⟨if dtor ≠ 0 then some (dtor, p) else none, header⟩)
      else (m, none)

def mMemSize (m : Memory) (src : Option ℕ) : UInt64 :=
  match src with
  | none => 0
  | some p => loadWord m (getHeader m p + sizeOffset)

/-! ## What a block is for -/

/-- The header, the byte before the data and the range of the user are apart from each other
and inside the block of `bytes` bytes at `base`. -/
structure OwnLayout (base bytes p size : ℕ) : Prop where
  header : Set.Ico base (base + sizeofMemHeader) ⊆ Set.Ico base (base + bytes)
  shift : p - 1 ∈ Set.Ico base (base + bytes)
  user : Set.Ico p (p + size) ⊆ Set.Ico base (base + bytes)
  headerShift : p - 1 ∉ Set.Ico base (base + sizeofMemHeader)
  headerUser : ∀ a ∈ Set.Ico base (base + sizeofMemHeader), a ∉ Set.Ico p (p + size)
  shiftUser : p - 1 ∉ Set.Ico p (p + size)

inductive MemCall where
  | ref
  | unref
  | size
  | write (i : ℕ) (b : UInt8)
  deriving DecidableEq

inductive MemAnswer where
  | ptr (p : Option ℕ)
  | released (release : Release)
  | size (size : UInt64)
  | written
  deriving DecidableEq

/-- A call on the pointer `p`, or a write of the user from `p` on; nothing is left of the
block after a release. -/
def memCall (p : ℕ) (m : Memory) : MemCall → MemAnswer × Option Memory
  | .ref =>
      let (m, src) := mMemRef m (some p)
      (.ptr src, some m)
  | .unref =>
      match mMemUnref m (some p) with
      | (_, some release) => (.released release, none)
      | (m, none) => (.ptr none, some m)
  | .size => (.size (mMemSize m (some p)), some m)
  | .write i b => (.written, some (storeByte m (p + i) b))

def memCalls (p : ℕ) (m : Memory) : List MemCall → List MemAnswer
  | [] => []
  | call :: calls =>
      match memCall p m call with
      | (answer, none) => [answer]
      | (answer, some m') => answer :: memCalls p m' calls

/-- A reference counted object by itself. -/
structure MemObject where
  base : ℕ
  p : ℕ
  refs : UInt64
  size : UInt64
  dtor : UInt64
  deriving DecidableEq

namespace MemObject

def release (o : MemObject) : Release := ⟨if o.dtor ≠ 0 then some (o.dtor, o.p) else none, o.base⟩

def call (o : MemObject) : MemCall → MemAnswer × Option MemObject
  | .ref => (.ptr (some o.p), some { o with refs := o.refs + 1 })
  | .unref =>
      if o.refs - 1 = 0 then (.released o.release, none)
      else (.ptr none, some { o with refs := o.refs - 1 })
  | .size => (.size o.size, some o)
  | .write _ _ => (.written, some o)

def calls (o : MemObject) : List MemCall → List MemAnswer
  | [] => []
  | call :: calls =>
      match o.call call with
      | (answer, none) => [answer]
      | (answer, some o') => answer :: o'.calls calls

end MemObject

/-- With the block at `base`, `m_mem_new` lays out its parts inside of it, and all calls on
the pointer it returns act on the new object. -/
structure MemContract (base : ℕ) (size dtor : UInt64) (m : Memory) (p : ℕ) : Prop where
  layout : OwnLayout base (memNewBytes size).toNat p size.toNat
  header : getHeader m p = base
  acts : ∀ calls, memCalls p m calls = MemObject.calls ⟨base, p, 1, size, dtor⟩ calls

/-! ## The shift -/

theorem land_not_fifteen {n : ℕ} (hn : n < 2 ^ 64) :
    n &&& (2 ^ 64 - (15 + 1)) = n / 2 ^ 4 * 2 ^ 4 := by
  apply Nat.eq_of_testBit_eq
  intro i
  have hfifteen : Nat.testBit 15 i = decide (i < 4) := Nat.testBit_two_pow_sub_one 4 i
  have hlt : 15 < 2 ^ 64 := by decide
  rw [Nat.testBit_and, Nat.testBit_two_pow_sub_succ hlt, hfifteen,
    Nat.testBit_mul_two_pow, Nat.testBit_div_two_pow]
  rcases Nat.lt_or_ge i 4 with hi | hi
  · simp [hi]
  · rw [Nat.sub_add_cancel hi]
    rcases Nat.lt_or_ge i 64 with hi' | hi'
    · simp [hi, hi']
    · have hbit : n.testBit i = false :=
        Nat.testBit_lt_two_pow (hn.trans_le (Nat.pow_le_pow_right (by decide) hi'))
      simp [hbit]

theorem alignUp_toNat (x : UInt64) :
    (alignUp x).toNat = (x.toNat + 15) % 2 ^ 64 / 2 ^ 4 * 2 ^ 4 := by
  have hmask : (~~~(alignofMaxAlign - 1)).toNat = 2 ^ 64 - (15 + 1) := by decide
  rw [alignUp, alignMask, UInt64.toNat_and, UInt64.toNat_add, hmask,
    show (alignofMaxAlign - 1).toNat = 15 from rfl,
    land_not_fifteen (Nat.mod_lt _ (by decide))]

theorem totalSize_toNat (size : UInt64) : (totalSize size).toNat = (size.toNat + 24) % 2 ^ 64 := by
  rw [totalSize, UInt64.toNat_add, Nat.add_comm]
  rfl

/-- The data is as far from the start of the header as the total size is from a multiple of
the alignment. -/
theorem alignShift_toNat (size : UInt64) :
    (alignShift size).toNat = 16 - (size.toNat + 8) % 16 := by
  have hdiff : (alignUp (totalSize size) - totalSize size).toUInt8.toNat =
      15 - (size.toNat + 7) % 16 := by
    rw [UInt64.toNat_toUInt8, UInt64.toNat_sub, alignUp_toNat, totalSize_toNat]
    omega
  unfold alignShift
  simp only [← UInt8.toNat_inj, hdiff]
  split
  next hzero =>
    have hsize : (size.toNat + 8) % 16 = 0 := by
      have hseven : 15 - (size.toNat + 7) % 16 = 0 := hzero
      omega
    rw [hsize]
    rfl
  next hne =>
    have hsize : ¬ 15 - (size.toNat + 7) % 16 = 0 := hne
    omega

theorem alignShift_pos (size : UInt64) : 0 < (alignShift size).toNat := by
  rw [alignShift_toNat]
  omega

theorem memNewBytes_toNat (size : UInt64) :
    (memNewBytes size).toNat = (size.toNat + 24 + (16 - (size.toNat + 8) % 16)) % 2 ^ 64 := by
  rw [memNewBytes, UInt64.toNat_add, UInt8.toNat_toUInt64, totalSize_toNat, alignShift_toNat,
    Nat.mod_add_mod]
/-! ## The layout -/

theorem ownLayout_iff (base : ℕ) (size : UInt64) :
    OwnLayout base (memNewBytes size).toNat
        (base + sizeofMemHeader + (alignShift size).toNat) size.toNat ↔
      size.toNat + 40 < 2 ^ 64 := by
  have hlt := size.toNat_lt
  have hbytes := memNewBytes_toNat size
  have hshift := alignShift_toNat size
  constructor
  · intro h
    by_contra hwrap
    -- the last byte of the user lies behind the block
    have hlast : base + sizeofMemHeader + (alignShift size).toNat + (size.toNat - 1) ∈
        Set.Ico base (base + (memNewBytes size).toNat) :=
      h.user ⟨by omega, by omega⟩
    have hend := hlast.2
    rw [hbytes, hshift, sizeofMemHeader] at hend
    omega
  · intro hfits
    have hfit : (memNewBytes size).toNat =
        sizeofMemHeader + (alignShift size).toNat + size.toNat := by
      rw [hbytes, hshift, sizeofMemHeader]
      omega
    have hpos := alignShift_pos size
    have hheader : sizeofMemHeader = 24 := rfl
    constructor
    · exact Set.Ico_subset_Ico_right (by omega)
    · exact ⟨by omega, by omega⟩
    · exact Set.Ico_subset_Ico (by omega) (by omega)
    · rintro ⟨-, hin⟩
      omega
    · rintro x ⟨-, hx⟩ ⟨hx', -⟩
      omega
    · rintro ⟨hin, -⟩
      omega

/-! ## The calls -/

/-- The object stands in the memory: its header is at `base`, and the byte before the data
leads back to it. -/
structure Stands (m : Memory) (o : MemObject) : Prop where
  shift : o.p = o.base + sizeofMemHeader + (m (o.p - 1)).toNat
  pos : 0 < (m (o.p - 1)).toNat
  refs : loadWord m (o.base + refsOffset) = o.refs
  size : loadWord m (o.base + sizeOffset) = o.size
  dtor : loadWord m (o.base + dtorOffset) = o.dtor

namespace Stands

variable {m : Memory} {o : MemObject}

theorem getHeader_eq (h : Stands m o) : getHeader m o.p = o.base := by
  have hshift := h.shift
  rw [getHeader]
  omega

/-- A write of the user meets neither the header nor the byte before the data. -/
theorem write (h : Stands m o) (i : ℕ) (b : UInt8) : Stands (storeByte m (o.p + i) b) o := by
  have hshift := h.shift
  have hpos := h.pos
  have hheader : sizeofMemHeader = 24 := rfl
  have hbyte : storeByte m (o.p + i) b (o.p - 1) = m (o.p - 1) :=
    Function.update_of_ne (by omega) _ _
  have hword : ∀ a, a + 8 ≤ o.p → loadWord (storeByte m (o.p + i) b) a = loadWord m a :=
    fun a ha => loadWord_congr (agree_storeByte b (.inr (by omega)))
  constructor
  · rw [hbyte, ← hshift]
  · rwa [hbyte]
  · rw [hword _ (by simp only [refsOffset]; omega), h.refs]
  · rw [hword _ (by simp only [sizeOffset]; omega), h.size]
  · rw [hword _ (by simp only [dtorOffset]; omega), h.dtor]

/-- The count of references is a word of its own. -/
theorem setRefs (h : Stands m o) (refs : UInt64) :
    Stands (storeWord m (o.base + refsOffset) refs) { o with refs := refs } := by
  have hshift := h.shift
  have hpos := h.pos
  have hheader : sizeofMemHeader = 24 := rfl
  have hagree : Agree (storeWord m (o.base + refsOffset) refs) m (o.p - 1) 1 :=
    agree_storeWord refs (.inl (by simp only [refsOffset]; omega))
  have hbyte := hagree (o.p - 1) le_rfl (Nat.lt_succ_self _)
  have hword : ∀ a, o.base + 8 ≤ a →
      loadWord (storeWord m (o.base + refsOffset) refs) a = loadWord m a :=
    fun a ha => loadWord_congr (agree_storeWord refs (.inl (by simp only [refsOffset]; omega)))
  constructor
  · rw [hbyte, ← hshift]
  · rwa [hbyte]
  · exact loadWord_storeWord _ _ _
  · rw [hword _ (by simp only [sizeOffset]; omega), h.size]
  · rw [hword _ (by simp only [dtorOffset]; omega), h.dtor]

/-- Every call answers like the object, and leaves it standing until it is released. -/
theorem call (h : Stands m o) (call : MemCall) :
    (memCall o.p m call).1 = (o.call call).1 ∧
      Option.Rel (fun m' o' => Stands m' o' ∧ o'.p = o.p) (memCall o.p m call).2
        (o.call call).2 := by
  cases call with
  | ref =>
      simp only [memCall, mMemRef, h.getHeader_eq, h.refs, MemObject.call]
      exact ⟨trivial, .some ⟨h.setRefs _, rfl⟩⟩
  | unref =>
      have hdtor : loadWord (storeWord m (o.base + refsOffset) (o.refs - 1))
          (o.base + dtorOffset) = o.dtor := (h.setRefs _).dtor
      by_cases hlast : o.refs - 1 = 0
      · simp only [memCall, mMemUnref, h.getHeader_eq, h.refs, MemObject.call, hlast, if_true]
        rw [hlast] at hdtor
        exact ⟨by rw [hdtor, MemObject.release], .none⟩
      · simp only [memCall, mMemUnref, h.getHeader_eq, h.refs, MemObject.call, hlast, if_false]
        exact ⟨trivial, .some ⟨h.setRefs _, rfl⟩⟩
  | size =>
      simp only [memCall, mMemSize, h.getHeader_eq, h.size, MemObject.call]
      exact ⟨trivial, .some ⟨h, rfl⟩⟩
  | write i b => exact ⟨rfl, .some ⟨h.write i b, rfl⟩⟩

theorem calls (h : Stands m o) (calls : List MemCall) :
    memCalls o.p m calls = o.calls calls := by
  induction calls generalizing m o with
  | nil => rfl
  | cons c calls ih =>
      obtain ⟨hanswer, hnext⟩ := h.call c
      rw [memCalls, MemObject.calls]
      generalize memCall o.p m c = next at hanswer hnext
      generalize o.call c = next' at hanswer hnext
      obtain ⟨answer, m'⟩ := next
      obtain ⟨answer', o'⟩ := next'
      obtain rfl : answer = answer' := hanswer
      cases hnext with
      | none => rfl
      | some hstands => exact congrArg (answer :: ·) (hstands.2 ▸ ih hstands.1)

end Stands
/-! ## The new block -/

theorem stands_mMemNew (m : Memory) (base : ℕ) (size dtor : UInt64) :
    Stands (mMemNew m (some base) size dtor).1
      ⟨base, base + sizeofMemHeader + (alignShift size).toNat, 1, size, dtor⟩ := by
  have hpos := alignShift_pos size
  have hheader : sizeofMemHeader = 24 := rfl
  have hrefs : refsOffset = 0 := rfl
  have hsize : sizeOffset = 8 := rfl
  have hdtor : dtorOffset = 16 := rfl
  have hbyte : (mMemNew m (some base) size dtor).1
      (base + sizeofMemHeader + (alignShift size).toNat - 1) = alignShift size :=
    Function.update_self _ _ _
  -- the shift is written behind the header
  have hgap : ∀ (m : Memory) (a : ℕ), a + 8 ≤ base + sizeofMemHeader →
      loadWord (storeByte m (base + sizeofMemHeader + (alignShift size).toNat - 1)
        (alignShift size)) a = loadWord m a :=
    fun m a ha => loadWord_congr (agree_storeByte _ (.inr (by omega)))
  constructor
  · rw [hbyte]
  · rwa [hbyte]
  · change loadWord _ (base + refsOffset) = 1
    rw [mMemNew, hgap _ _ (by omega), loadWord_congr (agree_storeWord _ (.inr (by omega))),
      loadWord_congr (agree_storeWord _ (.inr (by omega))), loadWord_storeWord]
  · change loadWord _ (base + sizeOffset) = size
    rw [mMemNew, hgap _ _ (by omega), loadWord_storeWord]
  · change loadWord _ (base + dtorOffset) = dtor
    rw [mMemNew, hgap _ _ (by omega), loadWord_congr (agree_storeWord _ (.inl (by omega))),
      loadWord_storeWord]

/-- Whatever the allocator answers for the size it is asked for, the new block is well laid
out if and only if that size has not wrapped around. -/
theorem memContract_iff (m : Memory) (base : ℕ) (size dtor : UInt64) :
    ∃ m' p, mMemNew m (some base) size dtor = (m', some p) ∧
      (MemContract base size dtor m' p ↔ size.toNat + 40 < 2 ^ 64) := by
  have hstands := stands_mMemNew m base size dtor
  refine ⟨_, _, rfl, fun h => (ownLayout_iff base size).mp h.layout, fun hfits => ?_⟩
  exact ⟨(ownLayout_iff base size).mpr hfits, hstands.getHeader_eq, hstands.calls⟩

/-- For `SIZE_MAX` bytes the block has 32. -/
theorem not_memContract_sizeMax :
    ¬ ∀ m base size dtor m' p, mMemNew m (some base) size dtor = (m', some p) →
      MemContract base size dtor m' p := by
  intro h
  have hlayout := (h (fun _ => 0) 64 (-1) 0 _ _ rfl).layout
  have hbytes : (memNewBytes (-1)).toNat = 32 := by decide
  have hshift := hlayout.shift.2
  rw [hbytes] at hshift
  exact absurd hshift (by decide)

/-! ## The alignment of the data -/

/-- The data is aligned if and only if the size is a multiple of the alignment. -/
theorem data_aligned_iff (m : Memory) {base : ℕ} (size dtor : UInt64)
    (hbase : base % alignofMaxAlign.toNat = 0) :
    ∃ m' p, mMemNew m (some base) size dtor = (m', some p) ∧
      (p % alignofMaxAlign.toNat = 0 ↔ size.toNat % alignofMaxAlign.toNat = 0) := by
  refine ⟨_, _, rfl, ?_⟩
  have halign : alignofMaxAlign.toNat = 16 := rfl
  rw [alignShift_toNat, sizeofMemHeader]
  rw [halign] at hbase ⊢
  omega

theorem data_aligned_iff_sixteen :
    64 % alignofMaxAlign.toNat = 0 ∧
      ∃ m' p, mMemNew (fun _ => 0) (some 64) 16 0 = (m', some p) ∧
        (p % alignofMaxAlign.toNat = 0 ↔ (16 : UInt64).toNat % alignofMaxAlign.toNat = 0) :=
  ⟨by decide, data_aligned_iff _ 16 0 (by decide)⟩

/-- A block of one byte starts at 95. -/
theorem not_data_aligned_one :
    ¬ ∀ m base size dtor m' p, base % alignofMaxAlign.toNat = 0 →
      mMemNew m (some base) size dtor = (m', some p) → p % alignofMaxAlign.toNat = 0 := by
  intro h
  exact absurd (h (fun _ => 0) 64 1 0 _ _ (by decide) rfl) (by decide)

end Libmodule
