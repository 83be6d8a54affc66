import Libmodule.RefHeap

/-!
# Accounting for references

The reference count of an object is the number of references that objects hold
to it, and of those that somebody outside of the heap holds.  A release drops
references that are on their way out; what the destroyed objects held is
released with them, so that the account stays right.
-/

namespace RefHeap

variable {β ε : Type} (owns : β → List ℕ)

/-- How often an object holds `p`; one that is being destroyed holds nothing. -/
def held (c : Option (Cell β)) (p : ℕ) : ℕ :=
  match c with
  | none => 0
  | some c => if c.refs = 0 then 0 else (owns c.val).count p

/-- How many references to `p` the objects of the heap hold. -/
def holders (h : Heap β) (p : ℕ) : ℕ := (h.map (fun c => held owns c p)).sum

theorem sum_map_set {α : Type} (f : α → ℕ) (l : List α) (i : ℕ) (a b : α) (hi : l[i]? = some b) :
    ((l.set i a).map f).sum + f b = (l.map f).sum + f a := by
  induction l generalizing i with
  | nil => simp at hi
  | cons x l ih =>
      cases i with
      | zero =>
          simp only [List.getElem?_cons_zero, Option.some.injEq] at hi
          subst hi
          simp only [List.set_cons_zero, List.map_cons, List.sum_cons]
          omega
      | succ i =>
          have hrest := ih i (by simpa using hi)
          simp only [List.set_cons_succ, List.map_cons, List.sum_cons]
          omega

section Holders

variable {owns}

/-- Replacing one object changes the account by what the two objects hold. -/
theorem holders_put {h : Heap β} {q : ℕ} (hq : q < h.length) (c : Option (Cell β)) (p : ℕ) :
    holders owns (put h q c) p + held owns (get h q) p = holders owns h p + held owns c p := by
  have hget : h[q]? = some h[q] := List.getElem?_eq_getElem hq
  have hsame : get h q = h[q] := by rw [get, hget, Option.join_some]
  rw [hsame]
  exact sum_map_set (fun c => held owns c p) h q c _ hget

theorem holders_put_held {h : Heap β} {q p : ℕ} {c : Option (Cell β)} {old : Cell β}
    (hq : get h q = some old) (hheld : held owns c p = held owns (some old) p) :
    holders owns (put h q c) p = holders owns h p := by
  have hput := @holders_put β owns _ _ (lt_length hq) c p
  rw [hq] at hput
  omega

theorem holders_alloc (h : Heap β) (b : β) (p : ℕ) :
    holders owns (alloc h b) p = holders owns h p + (owns b).count p := by
  simp [holders, alloc, held]

theorem holders_modify {h : Heap β} {q k : ℕ} {b : β} (f : β → β)
    (hq : get h q = some ⟨k + 1, b⟩) (p : ℕ) :
    holders owns (modify h q f) p + (owns b).count p =
      holders owns h p + (owns (f b)).count p := by
  have hput := @holders_put β owns _ _ (lt_length hq) ((get h q).map
    (fun c => { c with val := f c.val })) p
  simpa [modify, hq, held] using hput

theorem holders_eq_zero {h : Heap β} {p : ℕ}
    (hnone : ∀ q c, get h q = some c → p ∉ owns c.val) : holders owns h p = 0 := by
  apply List.sum_eq_zero
  intro n hn
  obtain ⟨c, hc, rfl⟩ := List.mem_map.mp hn
  obtain ⟨q, hq, rfl⟩ := List.mem_iff_getElem.mp hc
  cases hcell : h[q] with
  | none => simp [held]
  | some c =>
      have hget : get h q = some c := by
        rw [get, List.getElem?_eq_getElem hq, Option.join_some, hcell]
      simp only [held]
      rw [List.count_eq_zero_of_not_mem (hnone q c hget)]
      split <;> rfl

/-- What an object holds counts. -/
theorem count_le_holders {h : Heap β} {q k : ℕ} {b : β} (hq : get h q = some ⟨k + 1, b⟩)
    (p : ℕ) : (owns b).count p ≤ holders owns h p := by
  have hput := @holders_put β owns _ _ (lt_length hq) none p
  rw [hq] at hput
  simp only [held, Nat.add_one_ne_zero, if_false] at hput
  omega

theorem refs_alloc (h : Heap β) (b : β) (p : ℕ) :
    refs (alloc h b) p = if p = h.length then 1 else refs h p := by
  rw [refs, refs, get_alloc]
  split <;> rfl

end Holders

/-! ## Releases -/

section Release

variable {owns} {dtor : Heap β → ℕ → β → ε → Option ε} {h h' : Heap β} {e e' : ε} {fuel : ℕ}
  {ps : List ℕ} {P : ℕ → Prop} {ext : ℕ → ℕ}

/-- An account that counts the references that a release is to drop is right after it. -/
theorem release_balanced (hs : Settled h)
    (hrun : release owns dtor fuel (ps.map .unref) h e = some (h', e'))
    (hbal : ∀ p, P p → refs h p = holders owns h p + ps.count p + ext p) :
    ∀ p, P p → refs h' p = holders owns h' p + ext p := by
  have hstart : ∀ p, P p →
      refs h p = holders owns h p + (ps.map Work.unref).count (.unref p) + ext p := by
    intro p hp
    rw [List.count_map_of_injective _ _ (fun _ _ heq => Work.unref.inj heq)]
    exact hbal p hp
  have hinv := release_induct
    (fun work h₁ _ => Releasing h work h₁ ∧
      ∀ p, P p → refs h₁ p = holders owns h₁ p + work.count (.unref p) + ext p)
    ?_ ?_ ?_ ⟨Releasing.start hs ps, hstart⟩ hrun
  · intro p hp
    simpa using hinv.2 p hp
  · rintro q work h₁ e₁ ⟨hrel, hacc⟩
    refine ⟨hrel.put_none, fun p hp => ?_⟩
    have hzero := hrel.finishing q (by simp)
    have hrefs : refs (put h₁ q none) p = refs h₁ p := by
      by_cases hqp : q = p
      · subst hqp
        rw [hzero, refs, get_put]
        split
        next => rfl
        next hlt =>
          rw [get, List.getElem?_eq_none (by simpa using hlt)]
          rfl
      · exact refs_put_ne hqp
    have hholders : holders owns (put h₁ q none) p = holders owns h₁ p := by
      cases hget : get h₁ q with
      | none =>
          by_cases hlt : q < h₁.length
          · have hput := @holders_put β owns _ _ hlt none p
            rw [hget] at hput
            simpa [held] using hput
          · rw [put, List.set_eq_of_length_le (by omega)]
      | some c =>
          apply holders_put_held hget
          have hc : c.refs = 0 := by simpa [refs, hget] using hzero
          simp [held, hc]
    rw [hrefs, hholders, hacc p hp]
    simp
  · rintro q work h₁ e₁ k b ⟨hrel, hacc⟩ hq
    refine ⟨hrel.put_lower hq (by omega) (by omega) (by simp), fun p hp => ?_⟩
    have hold := hacc p hp
    rw [holders_put_held hq (by simp [held])]
    by_cases hqp : q = p
    · subst hqp
      rw [refs_put_self hq]
      simp only [refs, hq, Option.map_some, Option.getD_some, List.count_cons_self] at hold ⊢
      omega
    · rw [refs_put_ne hqp]
      simpa [List.count_cons, hqp] using hold
  · rintro q work h₁ e₁ e₂ b ⟨hrel, hacc⟩ hq _
    refine ⟨hrel.put_lower hq (by omega) (by omega) (by simp; tauto), fun p hp => ?_⟩
    have hold := hacc p hp
    have hput := @holders_put β owns _ _ (lt_length hq) (some ⟨0, b⟩) p
    rw [hq] at hput
    simp only [held, if_true, one_ne_zero, if_false] at hput
    rw [List.count_append, List.count_map_of_injective _ _ (fun _ _ heq => Work.unref.inj heq)]
    by_cases hqp : q = p
    · subst hqp
      rw [refs_put_self hq]
      simp only [refs, hq, Option.map_some, Option.getD_some, List.count_cons_self] at hold ⊢
      simp only [List.count_cons, beq_iff_eq, reduceCtorEq, if_false]
      omega
    · rw [refs_put_ne hqp]
      simp only [List.count_cons, beq_iff_eq, reduceCtorEq, Work.unref.injEq, hqp, if_false]
        at hold ⊢
      omega

end Release

end RefHeap
