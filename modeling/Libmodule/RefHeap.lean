import Mathlib.Algebra.BigOperators.Group.List.Basic
import Mathlib.Data.List.Count
import Mathlib.Tactic.Linarith

/-!
# Reference-counted objects

Objects that hold references to one another.  Dropping the last reference to
an object runs its destructor, which drops the references the object holds,
before the object itself goes away.  An address is never used twice, so that
a destroyed object can be told from a live one.

What a destructor does besides is a parameter: a change of an outer state that
may look at the heap.
-/

namespace RefHeap

structure Cell (β : Type) where
  refs : ℕ
  val : β
  deriving DecidableEq

/-- The object at each address; `none` once it is destroyed. -/
abbrev Heap (β : Type) := List (Option (Cell β))

variable {β ε : Type}

def get (h : Heap β) (p : ℕ) : Option (Cell β) := h[p]?.join

def put (h : Heap β) (p : ℕ) (c : Option (Cell β)) : Heap β := h.set p c

/-- A new object with one reference, at the address `h.length`. -/
def alloc (h : Heap β) (b : β) : Heap β := h ++ [some ⟨1, b⟩]

def modify (h : Heap β) (p : ℕ) (f : β → β) : Heap β :=
  put h p ((get h p).map (fun c => { c with val := f c.val }))

def val (h : Heap β) (p : ℕ) : Option β := (get h p).map Cell.val

def refs (h : Heap β) (p : ℕ) : ℕ := ((get h p).map Cell.refs).getD 0

def Live (h : Heap β) (p : ℕ) : Prop := 0 < refs h p

instance (h : Heap β) (p : ℕ) : Decidable (Live h p) := inferInstanceAs (Decidable (0 < _))

theorem lt_length {h : Heap β} {p : ℕ} {c : Cell β} (hp : get h p = some c) : p < h.length := by
  rw [get, Option.join_eq_some_iff] at hp
  obtain ⟨hlt, -⟩ := List.getElem?_eq_some_iff.mp hp
  exact hlt

theorem get_put (h : Heap β) (p q : ℕ) (c : Option (Cell β)) :
    get (put h p c) q = if p = q ∧ p < h.length then c else get h q := by
  simp only [get, put, List.getElem?_set]
  by_cases hpq : p = q
  · subst hpq
    by_cases hlt : p < h.length
    · simp [hlt]
    · simp [hlt]
  · simp [hpq]

@[simp] theorem get_put_ne {h : Heap β} {p q : ℕ} {c : Option (Cell β)} (hpq : p ≠ q) :
    get (put h p c) q = get h q := by
  rw [get_put, if_neg (fun hp => hpq hp.1)]

theorem get_put_self {h : Heap β} {p : ℕ} {c : Option (Cell β)} {old : Cell β}
    (hp : get h p = some old) : get (put h p c) p = c := by
  rw [get_put, if_pos ⟨rfl, lt_length hp⟩]

theorem get_alloc (h : Heap β) (b : β) (p : ℕ) :
    get (alloc h b) p = if p = h.length then some ⟨1, b⟩ else get h p := by
  simp only [get, alloc, List.getElem?_append]
  split
  next hlt => rw [if_neg (by omega)]
  next hge =>
    split
    next heq => simp [heq]
    next hne =>
      rw [List.getElem?_eq_none (by simp; omega), List.getElem?_eq_none (by omega)]

theorem get_modify (h : Heap β) (p q : ℕ) (f : β → β) :
    get (modify h p f) q =
      if p = q then (get h q).map (fun c => { c with val := f c.val }) else get h q := by
  rw [modify, get_put]
  by_cases hpq : p = q
  · subst hpq
    by_cases hlt : p < h.length
    · simp [hlt]
    · have hnone : get h p = none := by
        rw [get, List.getElem?_eq_none (Nat.le_of_not_lt hlt)]
        rfl
      simp [hlt, hnone]
  · simp [hpq]

theorem val_modify (h : Heap β) (p q : ℕ) (f : β → β) :
    val (modify h p f) q = if p = q then (val h q).map f else val h q := by
  rw [val, val, get_modify]
  split <;> cases get h q <;> rfl

theorem modify_modify (h : Heap β) (p : ℕ) (f g : β → β) :
    modify (modify h p f) p g = modify h p (fun b => g (f b)) := by
  rw [modify, get_modify, if_pos rfl]
  simp only [modify, put, List.set_set, Option.map_map]
  rfl

theorem put_get (h : Heap β) (p : ℕ) : put h p (get h p) = h := by
  by_cases hlt : p < h.length
  · rw [put, get, List.getElem?_eq_getElem hlt, Option.join_some, List.set_getElem_self]
  · rw [put, List.set_eq_of_length_le (Nat.le_of_not_lt hlt)]

theorem modify_self {h : Heap β} {p : ℕ} {f : β → β} (hf : ∀ b, val h p = some b → f b = b) :
    modify h p f = h := by
  have hsame : (get h p).map (fun c => { c with val := f c.val }) = get h p := by
    cases hp : get h p with
    | none => rfl
    | some c => rw [Option.map_some, hf c.val (by rw [val, hp]; rfl)]
  rw [modify, hsame, put_get]

theorem val_alloc (h : Heap β) (b : β) (p : ℕ) :
    val (alloc h b) p = if p = h.length then some b else val h p := by
  rw [val, val, get_alloc]
  split <;> rfl

theorem val_put_same {h : Heap β} {p : ℕ} {c : Cell β} (hp : get h p = some c) (k q : ℕ) :
    val (put h p (some ⟨k, c.val⟩)) q = val h q := by
  rw [val, val, get_put]
  split
  next hq =>
    obtain ⟨rfl, -⟩ := hq
    simp [hp]
  next => rfl

@[simp] theorem length_put (h : Heap β) (p : ℕ) (c : Option (Cell β)) :
    (put h p c).length = h.length := List.length_set

@[simp] theorem length_modify (h : Heap β) (p : ℕ) (f : β → β) :
    (modify h p f).length = h.length := length_put _ _ _

@[simp] theorem length_alloc (h : Heap β) (b : β) : (alloc h b).length = h.length + 1 := by
  simp [alloc]

@[simp] theorem refs_modify (h : Heap β) (p q : ℕ) (f : β → β) :
    refs (modify h p f) q = refs h q := by
  rw [refs, refs, get_modify]
  split <;> cases get h q <;> rfl

@[simp] theorem live_modify (h : Heap β) (p q : ℕ) (f : β → β) :
    Live (modify h p f) q ↔ Live h q := by
  rw [Live, Live, refs_modify]

theorem Live.of_get {h : Heap β} {p : ℕ} {c : Cell β} (hp : get h p = some c)
    (hc : 0 < c.refs) : Live h p := by
  simpa [Live, refs, hp] using hc

theorem Live.get {h : Heap β} {p : ℕ} (hp : Live h p) : ∃ k b, get h p = some ⟨k + 1, b⟩ := by
  rw [Live, refs] at hp
  cases hget : RefHeap.get h p with
  | none => simp [hget] at hp
  | some c =>
      obtain ⟨k, b⟩ := c
      simp only [hget, Option.map_some, Option.getD_some] at hp
      exact ⟨k - 1, b, by rw [Nat.sub_add_cancel hp]⟩

/-! ## Dropping references -/

/-- What is left to do: drop a reference, or free an object whose destructor
has run. -/
inductive Work where
  | unref (p : ℕ)
  | finish (p : ℕ)
  deriving DecidableEq

section Release

variable (owns : β → List ℕ) (dtor : Heap β → ℕ → β → ε → Option ε)

/-- Carries out the work in order, for at most `fuel` steps; `none` when a
reference to a destroyed object is dropped. -/
def release : ℕ → List Work → Heap β → ε → Option (Heap β × ε)
  | _, [], h, e => some (h, e)
  | 0, _ :: _, _, _ => none
  | fuel + 1, .finish p :: work, h, e => release fuel work (put h p none) e
  | fuel + 1, .unref p :: work, h, e =>
      match get h p with
      | none => none
      | some ⟨0, _⟩ => none
      | some ⟨k + 2, b⟩ => release fuel work (put h p (some ⟨k + 1, b⟩)) e
      | some ⟨1, b⟩ => do
          let e ← dtor h p b e
          release fuel ((owns b).map .unref ++ .finish p :: work) (put h p (some ⟨0, b⟩)) e

/-- Enough steps to drop every reference of a heap. -/
def budget (h : Heap β) : ℕ := h.length + (h.map (fun c => (c.map Cell.refs).getD 0)).sum

variable {owns dtor}

/-- An invariant of heap, outer state and work left that each step keeps. -/
theorem release_induct (I : List Work → Heap β → ε → Prop)
    (hfinish : ∀ p work h e, I (.finish p :: work) h e → I work (put h p none) e)
    (hshared : ∀ p work h e k b, I (.unref p :: work) h e → get h p = some ⟨k + 2, b⟩ →
      I work (put h p (some ⟨k + 1, b⟩)) e)
    (hlast : ∀ p work h e e' b, I (.unref p :: work) h e → get h p = some ⟨1, b⟩ →
      dtor h p b e = some e' →
      I ((owns b).map .unref ++ .finish p :: work) (put h p (some ⟨0, b⟩)) e')
    {fuel : ℕ} {work : List Work} {h h' : Heap β} {e e' : ε} (hI : I work h e)
    (hrun : release owns dtor fuel work h e = some (h', e')) : I [] h' e' := by
  induction fuel generalizing work h e with
  | zero =>
      cases work with
      | nil =>
          cases hrun
          exact hI
      | cons w work => cases hrun
  | succ fuel ih =>
      cases work with
      | nil =>
          cases hrun
          exact hI
      | cons w work =>
          cases w with
          | finish p => exact ih (hfinish p work h e hI) hrun
          | unref p =>
              rw [release] at hrun
              split at hrun
              next => cases hrun
              next => cases hrun
              next k b hget => exact ih (hshared p work h e k b hI hget) hrun
              next b hget =>
                  obtain ⟨e₁, hdtor, hrun⟩ := Option.bind_eq_some_iff.mp hrun
                  exact ih (hlast p work h e e₁ b hI hget hdtor) hrun

/-! ### What a release leaves -/

/-- A release keeps the values of the objects that it leaves. -/
theorem release_cells {fuel : ℕ} {work : List Work} {h h' : Heap β} {e e' : ε}
    (hrun : release owns dtor fuel work h e = some (h', e')) :
    ∀ p c', get h' p = some c' → ∃ c, get h p = some c ∧ c'.val = c.val ∧ c'.refs ≤ c.refs := by
  have hlower : ∀ (h₁ : Heap β) (q k k' : ℕ) (b : β), get h₁ q = some ⟨k, b⟩ → k' ≤ k →
      (∀ p c', get h₁ p = some c' → ∃ c, get h p = some c ∧ c'.val = c.val ∧ c'.refs ≤ c.refs) →
      ∀ p c', get (put h₁ q (some ⟨k', b⟩)) p = some c' →
        ∃ c, get h p = some c ∧ c'.val = c.val ∧ c'.refs ≤ c.refs := by
    intro h₁ q k k' b hq hk hcells p c' hp
    rw [get_put] at hp
    split at hp
    next hqp =>
      obtain ⟨rfl, -⟩ := hqp
      cases hp
      obtain ⟨c, hc, hval, hrefs⟩ := hcells q _ hq
      exact ⟨c, hc, hval, hk.trans hrefs⟩
    next => exact hcells p c' hp
  refine release_induct (fun _ h₁ _ => ∀ p c', get h₁ p = some c' →
    ∃ c, get h p = some c ∧ c'.val = c.val ∧ c'.refs ≤ c.refs) ?_ ?_ ?_
    (fun p c' hp => ⟨c', hp, rfl, le_rfl⟩) hrun
  · intro q work h₁ e₁ hcells p c' hp
    rw [get_put] at hp
    split at hp
    next => cases hp
    next => exact hcells p c' hp
  · intro q work h₁ e₁ k b hcells hq
    exact hlower h₁ q _ _ b hq (by omega) hcells
  · intro q work h₁ e₁ e₂ b hcells hq _
    exact hlower h₁ q _ _ b hq (by omega) hcells

/-- Dropping the last reference leaves none. -/
theorem refs_release_last {fuel p : ℕ} {b : β} {h h' : Heap β} {e e' : ε}
    (hp : get h p = some ⟨1, b⟩)
    (hrun : release owns dtor fuel [.unref p] h e = some (h', e')) : refs h' p = 0 := by
  cases fuel with
  | zero => cases hrun
  | succ fuel =>
      rw [release, hp] at hrun
      obtain ⟨e₁, -, hrun⟩ := Option.bind_eq_some_iff.mp hrun
      cases hget : get h' p with
      | none => simp [refs, hget]
      | some c' =>
          obtain ⟨c, hc, -, hle⟩ := release_cells hrun p c' hget
          rw [get_put_self hp] at hc
          cases hc
          simpa [refs, hget] using hle

theorem exists_budget {h : Heap β} {p k : ℕ} {b : β} (hp : get h p = some ⟨k + 1, b⟩) :
    ∃ fuel, budget h = fuel + 2 := by
  have hlt := lt_length hp
  have hmem : k + 1 ∈ h.map (fun c => (c.map Cell.refs).getD 0) := by
    refine List.mem_map.mpr ⟨some ⟨k + 1, b⟩, ?_, rfl⟩
    rw [get, Option.join_eq_some_iff] at hp
    exact List.mem_of_getElem? hp
  have hsum := List.sum_pos_iff_exists_pos_nat.mpr ⟨k + 1, hmem, Nat.succ_pos k⟩
  exact ⟨budget h - 2, by unfold budget; omega⟩

/-- Dropping the last reference to an object that holds none. -/
theorem release_leaf {fuel p : ℕ} {b : β} {h : Heap β} {e : ε} (hp : get h p = some ⟨1, b⟩)
    (howns : owns b = []) :
    release owns dtor (fuel + 2) [.unref p] h e =
      (dtor h p b e).map (fun e' => (put h p none, e')) := by
  rw [release, hp]
  cases hdtor : dtor h p b e with
  | none => simp only [hdtor, Option.bind_eq_bind, Option.bind_none, Option.map_none]
  | some e' =>
      simp only [hdtor, howns, release, put, List.map_nil, List.nil_append, List.set_set,
        Option.bind_eq_bind, Option.bind_some, Option.map_some]

/-- Dropping the last reference to an object that shares the one object it holds. -/
theorem release_holder {fuel p q k : ℕ} {b b' : β} {h h' : Heap β} {e e' : ε}
    (hp : get h p = some ⟨1, b⟩) (howns : owns b = [q]) (hq : get h q = some ⟨k + 2, b'⟩)
    (hrun : release owns dtor fuel [.unref p] h e = some (h', e')) :
    ∀ r, r ≠ p → val h' r = val h r := by
  have hne : p ≠ q := by
    rintro rfl
    cases hp.symm.trans hq
  have hq' : get (put h p (some ⟨0, b⟩)) q = some ⟨k + 2, b'⟩ := by rw [get_put_ne hne, hq]
  cases fuel with
  | zero => cases hrun
  | succ fuel =>
      rw [release, hp] at hrun
      obtain ⟨e₁, -, hrun⟩ := Option.bind_eq_some_iff.mp hrun
      rw [howns] at hrun
      cases fuel with
      | zero => cases hrun
      | succ fuel =>
          change release owns dtor (fuel + 1) [.unref q, .finish p] _ _ = _ at hrun
          rw [release, hq'] at hrun
          cases fuel with
          | zero => cases hrun
          | succ fuel =>
              change release owns dtor (fuel + 1) [.finish p] _ _ = _ at hrun
              rw [release, release.eq_1] at hrun
              obtain ⟨rfl, -⟩ := Prod.mk.inj (Option.some.inj hrun)
              intro r hr
              rw [val, get_put_ne hr.symm, ← val, val_put_same hq', val, get_put_ne hr.symm, ← val]

/-- No destructor is under way. -/
def Settled (h : Heap β) : Prop := ∀ p c, get h p = some c → 0 < c.refs

theorem Settled.live_iff {h : Heap β} (hs : Settled h) {p : ℕ} :
    Live h p ↔ ∃ c, get h p = some c := by
  constructor
  · intro hp
    obtain ⟨k, b, hget⟩ := hp.get
    exact ⟨_, hget⟩
  · rintro ⟨c, hget⟩
    exact Live.of_get hget (hs p c hget)

/-- From `h`, with the work left to do, the release has come to `h'`. -/
structure Releasing (h : Heap β) (work : List Work) (h' : Heap β) : Prop where
  length : h'.length = h.length
  cells : ∀ p c', get h' p = some c' → ∃ c, get h p = some c ∧ c'.val = c.val ∧ c'.refs ≤ c.refs
  finishing : ∀ p, .finish p ∈ work → refs h' p = 0
  dying : ∀ p c, get h' p = some c → c.refs = 0 → .finish p ∈ work

theorem Releasing.start {h : Heap β} (hs : Settled h) (ps : List ℕ) :
    Releasing h (ps.map .unref) h where
  length := rfl
  cells := fun p c hp => ⟨c, hp, rfl, le_rfl⟩
  finishing := by simp
  dying := fun p c hp hc => absurd (hs p c hp) (by omega)

theorem Releasing.settled {h h' : Heap β} (hrel : Releasing h [] h') : Settled h' := by
  intro p c hp
  by_contra hc
  have hfinish := hrel.dying p c hp (by omega)
  cases hfinish

theorem Releasing.put_lower {h h' : Heap β} {work rest : List Work} {p k k' : ℕ} {b : β}
    (hrel : Releasing h work h') (hp : get h' p = some ⟨k, b⟩) (hk : k' ≤ k)
    (hpos : k ≠ 0) (hrest : ∀ q, .finish q ∈ rest ↔ .finish q ∈ work ∨ (q = p ∧ k' = 0)) :
    Releasing h rest (put h' p (some ⟨k', b⟩)) where
  length := by rw [length_put, hrel.length]
  cells := by
    intro q c' hq
    rw [get_put] at hq
    split at hq
    next hpq =>
      obtain ⟨rfl, -⟩ := hpq
      cases hq
      obtain ⟨c, hc, hval, hrefs⟩ := hrel.cells _ _ hp
      exact ⟨c, hc, hval, hk.trans hrefs⟩
    next => exact hrel.cells q c' hq
  finishing := by
    intro q hq
    rw [refs, get_put]
    split
    next hpq =>
      obtain ⟨rfl, -⟩ := hpq
      rcases (hrest p).mp hq with hwork | ⟨-, hk'⟩
      · have hzero := hrel.finishing p hwork
        simp only [refs, hp, Option.map_some, Option.getD_some] at hzero
        exact absurd hzero hpos
      · exact hk'
    next hpq =>
      rcases (hrest q).mp hq with hwork | ⟨rfl, -⟩
      · exact hrel.finishing q hwork
      · exact absurd ⟨rfl, lt_length hp⟩ hpq
  dying := by
    intro q c hq hc
    rw [get_put] at hq
    split at hq
    next hpq =>
      obtain ⟨rfl, -⟩ := hpq
      cases hq
      exact (hrest p).mpr (.inr ⟨rfl, hc⟩)
    next => exact (hrest q).mpr (.inl (hrel.dying q c hq hc))

theorem Releasing.put_none {h h' : Heap β} {work : List Work} {p : ℕ}
    (hrel : Releasing h (.finish p :: work) h') : Releasing h work (put h' p none) where
  length := by rw [length_put, hrel.length]
  cells := by
    intro q c' hq
    rw [get_put] at hq
    split at hq
    next => cases hq
    next => exact hrel.cells q c' hq
  finishing := by
    intro q hq
    rw [refs, get_put]
    split
    next => rfl
    next => exact hrel.finishing q (List.mem_cons_of_mem _ hq)
  dying := by
    intro q c hq hc
    rw [get_put] at hq
    split at hq
    next => cases hq
    next hpq =>
      rcases List.mem_cons.mp (hrel.dying q c hq hc) with hfinish | hfinish
      · cases hfinish
        exact absurd ⟨rfl, lt_length hq⟩ hpq
      · exact hfinish

section Run

variable {h h' : Heap β} {e e' : ε} {fuel : ℕ} {ps : List ℕ}

theorem release_releasing (hs : Settled h)
    (hrun : release owns dtor fuel (ps.map .unref) h e = some (h', e')) :
    Releasing h [] h' := by
  refine release_induct (fun work h' _ => Releasing h work h') ?_ ?_ ?_
    (Releasing.start hs ps) hrun
  · intro p work h' e hrel
    exact hrel.put_none
  · intro p work h' e k b hrel hp
    exact hrel.put_lower hp (by omega) (by omega) (by simp)
  · intro p work h' e e' b hrel hp _
    exact hrel.put_lower hp (by omega) (by omega) (by simp; tauto)

/-- The entries that the destruction of the object at `p` adds to a ledger. -/
def paid {γ : Type} (pay : β → List γ) (h h' : Heap β) (p : ℕ) : List (ℕ × γ) :=
  match get h p with
  | none => []
  | some c => if refs h' p = 0 then (pay c.val).map (fun x => (p, x)) else []

theorem paid_congr {γ : Type} {pay : β → List γ} {h h' h'' : Heap β} {p : ℕ}
    (hrefs : refs h' p = refs h'' p) : paid pay h h' p = paid pay h h'' p := by
  simp only [paid, hrefs]

theorem paid_live {γ : Type} {pay : β → List γ} {h h' : Heap β} {p : ℕ} (hlive : Live h' p) :
    paid pay h h' p = [] := by
  rw [Live, Nat.pos_iff_ne_zero] at hlive
  simp only [paid, hlive, if_false]
  cases get h p <;> rfl

theorem refs_put_self {h : Heap β} {p : ℕ} {c : Option (Cell β)} {old : Cell β}
    (hp : get h p = some old) : refs (put h p c) p = (c.map Cell.refs).getD 0 := by
  rw [refs, get_put_self hp]

theorem refs_put_ne {h : Heap β} {p q : ℕ} {c : Option (Cell β)} (hpq : p ≠ q) :
    refs (put h p c) q = refs h q := by
  rw [refs, get_put_ne hpq, refs]

/-- A ledger to which destructors add has one set of entries for each object that
is destroyed. -/
theorem release_log {γ : Type} {log : ε → List (ℕ × γ)} {pay : β → List γ}
    (hdtor : ∀ h p b e e', dtor h p b e = some e' →
      log e' = log e ++ (pay b).map (fun x => (p, x)))
    (hs : Settled h) (hrun : release owns dtor fuel (ps.map .unref) h e = some (h', e')) :
    ∃ new, log e' = log e ++ new ∧
      ∀ p, new.filter (fun entry => entry.1 = p) = paid pay h h' p := by
  have hstart : ∀ p, [].filter (fun entry : ℕ × γ => entry.1 = p) = paid pay h h p := by
    intro p
    cases hp : get h p with
    | none => simp [paid, hp]
    | some c => exact (paid_live (Live.of_get hp (hs p c hp))).symm
  have hinv := release_induct
    (fun work h' e' => Releasing h work h' ∧ ∃ new, log e' = log e ++ new ∧
      ∀ p, new.filter (fun entry => entry.1 = p) = paid pay h h' p)
    ?_ ?_ ?_ ⟨Releasing.start hs ps, [], by simp, hstart⟩ hrun
  · exact hinv.2
  · rintro p work h₁ e₁ ⟨hrel, new, hlog, hnew⟩
    refine ⟨hrel.put_none, new, hlog, fun q => ?_⟩
    rw [hnew q]
    apply paid_congr
    by_cases hpq : p = q
    · subst hpq
      rw [hrel.finishing p (by simp), refs, get_put]
      split
      next => rfl
      next hlt =>
        rw [get, List.getElem?_eq_none (by simpa using hlt)]
        rfl
    · rw [refs_put_ne hpq]
  · rintro p work h₁ e₁ k b ⟨hrel, new, hlog, hnew⟩ hp
    refine ⟨hrel.put_lower hp (by omega) (by omega) (by simp), new, hlog, fun q => ?_⟩
    rw [hnew q]
    by_cases hpq : p = q
    · subst hpq
      rw [paid_live (Live.of_get hp (by simp)),
        paid_live (Live.of_get (get_put_self hp) (by simp))]
    · exact paid_congr (refs_put_ne hpq).symm
  · rintro p work h₁ e₁ e₂ b ⟨hrel, new, hlog, hnew⟩ hp hfree
    refine ⟨hrel.put_lower hp (by omega) (by omega) (by simp; tauto),
      new ++ (pay b).map (fun x => (p, x)), by rw [hdtor _ _ _ _ _ hfree, hlog]; simp,
      fun q => ?_⟩
    rw [List.filter_append, hnew q]
    by_cases hpq : p = q
    · subst hpq
      obtain ⟨c, hc, hval, -⟩ := hrel.cells p _ hp
      cases hval
      rw [paid_live (Live.of_get hp (by simp))]
      simp [paid, hc, refs_put_self hp, List.filter_map, Function.comp_def]
    · have hsame : paid pay h (put h₁ p (some ⟨0, b⟩)) q = paid pay h h₁ q :=
        paid_congr (refs_put_ne hpq)
      rw [hsame]
      simp [List.filter_map, Function.comp_def, hpq]

end Run

end Release

end RefHeap
