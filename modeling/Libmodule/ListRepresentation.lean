import Libmodule.LinkedList

/-!
# The nodes of a list

A list is a chain of nodes, and every call leaves one: a node is put in or taken
out where a pointer of the chain leads to.
-/

namespace Libmodule

open LinkedChain

namespace MList

variable {V : Type}

/-! ## Representation -/

/-- The address of the pointer that follows the nodes `ns`. -/
def slotOf (ns : List ℕ) : ListSlot :=
  match ns.getLast? with
  | none => .data
  | some n => .next n

/-- A node with its user pointer. -/
def entry (x : ℕ × ListNode V) : ℕ × V := (x.1, x.2.userptr)

/-- The list is a chain of the nodes `es`, and all of them are in use. -/
structure Represents (l : MList V) (es : List (ℕ × V)) : Prop where
  chain : ∃ xs, Segment l.heap ListNode.next l.data none xs ∧ xs.map entry = es
  len : l.len = es.length
  live : ∀ n node, l.heap n = some node → n ∈ addresses es
  named : ∀ n ∈ addresses es, n < l.created

theorem addresses_entry (xs : List (ℕ × ListNode V)) :
    addresses (xs.map entry) = addresses xs := by
  simp [addresses, entry, Function.comp_def]

variable {l : MList V} {es fs : List (ℕ × V)}

theorem Represents.nodup (h : l.Represents es) : (addresses es).Nodup := by
  obtain ⟨xs, hchain, rfl⟩ := h.chain
  rw [addresses_entry]
  exact hchain.nodup

theorem Represents.allocated (h : l.Represents es) {n : ℕ} {v : V} (hn : (n, v) ∈ es) :
    ∃ next, l.heap n = some ⟨v, next⟩ := by
  obtain ⟨xs, hchain, rfl⟩ := h.chain
  obtain ⟨⟨m, node⟩, hmem, heq⟩ := List.mem_map.mp hn
  obtain ⟨rfl, rfl⟩ := Prod.mk.inj heq
  obtain ⟨before, after, rfl⟩ := List.append_of_mem hmem
  obtain ⟨_, -, hafter⟩ := segment_append.mp hchain
  exact ⟨node.next, hafter.2.1⟩

theorem Represents.heap_iff (h : l.Represents es) (n : ℕ) :
    l.heap n ≠ none ↔ n ∈ addresses es := by
  constructor
  · intro hn
    obtain ⟨node, hnode⟩ := Option.ne_none_iff_exists'.mp hn
    exact h.live n node hnode
  · intro hn
    obtain ⟨⟨m, v⟩, hmem, rfl⟩ := List.mem_map.mp hn
    obtain ⟨next, hnode⟩ := h.allocated hmem
    simp [hnode]

/-- A pointer of the chain leads to the node after it. -/
theorem Represents.read_slotOf (h : l.Represents (es ++ fs)) :
    l.read (slotOf (addresses es)) = some (addresses fs).head? := by
  obtain ⟨zs, hchain, hzs⟩ := h.chain
  obtain ⟨xs, ys, rfl, rfl, rfl⟩ := List.map_eq_append_iff.mp hzs
  rw [addresses_entry, addresses_entry]
  obtain ⟨p, hxs, hys⟩ := segment_append.mp hchain
  rcases List.eq_nil_or_concat xs with rfl | ⟨init, ⟨n, node⟩, rfl⟩
  · obtain rfl : l.data = p := hxs
    simp only [slotOf, addresses_nil, List.getLast?_nil, read]
    rw [hys.head]
  · rw [List.concat_eq_append] at hxs ⊢
    obtain ⟨r, -, -, hn, hp⟩ := segment_append.mp hxs
    obtain rfl : node.next = p := hp
    simp [slotOf, read, hn, hys.head]

/-- Writing a pointer of the chain replaces what follows it. -/
theorem write_slotOf {p q : Option ℕ} {xs zs : List (ℕ × ListNode V)}
    (hxs : Segment l.heap ListNode.next l.data q xs)
    (hzs : Segment l.heap ListNode.next p none zs) (hnodup : (addresses xs).Nodup)
    (hdisjoint : ∀ n ∈ addresses xs, n ∉ addresses zs) :
    ∃ l' xs', l.write (slotOf (addresses xs)) p = some l' ∧
      Segment l'.heap ListNode.next l'.data none (xs' ++ zs) ∧ xs'.map entry = xs.map entry ∧
      (∀ n, l'.heap n ≠ none ↔ l.heap n ≠ none) ∧
      l' = { l with data := l'.data, heap := l'.heap } := by
  rcases List.eq_nil_or_concat xs with rfl | ⟨init, ⟨n, node⟩, rfl⟩
  · exact ⟨{ l with data := p }, [], rfl, hzs, rfl, fun _ => Iff.rfl, rfl⟩
  · rw [List.concat_eq_append] at hxs hnodup hdisjoint ⊢
    obtain ⟨t, -, rfl, hn, -⟩ := segment_append.mp hxs
    have hinit : n ∉ addresses init := by
      rw [addresses_append, addresses_cons, addresses_nil, List.nodup_append] at hnodup
      intro hmem
      exact hnodup.2.2 n hmem n (by simp) rfl
    refine ⟨{ l with heap := Function.update l.heap n (some { node with next := p }) },
      init ++ [(n, { node with next := p })], ?_, ?_, by simp [entry], ?_, rfl⟩
    · simp [slotOf, write, hn]
    · exact segment_append.mpr
        ⟨p, hxs.relink hinit, hzs.update (hdisjoint n (by simp)) _⟩
    · intro m
      by_cases hm : m = n
      · subst hm
        simp [hn]
      · simp [Function.update_of_ne hm]

/-- `insert_node` puts the new node where the pointer leads to. -/
theorem insertNode_spec (h : l.Represents (es ++ fs)) (v : V) :
    ∃ l', l.insertNode (slotOf (addresses es)) v true = some (0, l') ∧
      l'.Represents (es ++ (l.created, v) :: fs) ∧ l'.created = l.created + 1 ∧
      l'.comp = l.comp := by
  have hread := h.read_slotOf
  have hnodup := h.nodup
  have hnamed := h.named
  have hlen := h.len
  have hlive := h.heap_iff
  obtain ⟨zs, hchain, hzs⟩ := h.chain
  obtain ⟨xs, ys, rfl, rfl, rfl⟩ := List.map_eq_append_iff.mp hzs
  simp only [addresses_append, addresses_entry] at hread hnodup hnamed hlive ⊢
  obtain ⟨q, hxs, hys⟩ := segment_append.mp hchain
  have hfresh : l.created ∉ addresses xs ++ addresses ys :=
    fun hmem => Nat.lt_irrefl _ (hnamed _ hmem)
  rw [List.mem_append, not_or] at hfresh
  rw [List.nodup_append] at hnodup
  -- the new node leads to what the pointer has led to
  have hnew : Segment (l.newNode v (addresses ys).head?).heap ListNode.next (some l.created) none
      ((l.created, ⟨v, (addresses ys).head?⟩) :: ys) :=
    ⟨rfl, by simp [newNode], (hys.head ▸ hys).update hfresh.2 _⟩
  have hdisjoint : ∀ n ∈ addresses xs,
      n ∉ addresses ((l.created, (⟨v, (addresses ys).head?⟩ : ListNode V)) :: ys) := by
    intro n hn hmem
    rcases List.mem_cons.mp hmem with rfl | hmem
    · exact hfresh.1 hn
    · exact hnodup.2.2 n hn n hmem rfl
  obtain ⟨l', xs', hwrite, hchain', hentry, hheap, hl'⟩ :=
    write_slotOf (l := l.newNode v (addresses ys).head?) (hxs.update hfresh.1 _) hnew hnodup.1
      hdisjoint
  have hnames : ∀ n, n ∈ addresses ((xs.map entry) ++ (l.created, v) :: ys.map entry) ↔
      n = l.created ∨ n ∈ addresses xs ++ addresses ys := by
    intro n
    simp only [addresses_append, addresses_cons, addresses_entry, List.mem_append, List.mem_cons]
    exact or_left_comm
  refine ⟨{ l' with len := l'.len + 1 }, ?_, ⟨⟨_, hchain', ?_⟩, ?_, ?_, ?_⟩, ?_, ?_⟩
  · simp [insertNode, hread, hwrite]
  · simp [hentry, entry]
  · rw [hl']
    simp only [newNode, hlen, List.length_append, List.length_cons]
    omega
  · intro n node hn
    rw [hnames]
    have hsome : l'.heap n = some node := hn
    have hne := (hheap n).mp (by simp [hsome])
    by_cases hnc : n = l.created
    · exact .inl hnc
    · simp only [newNode, Function.update_of_ne hnc] at hne
      exact .inr ((hlive n).mp hne)
  · intro n hn
    rw [hl']
    rcases (hnames n).mp hn with rfl | hmem
    · exact Nat.lt_succ_self _
    · exact Nat.lt_succ_of_lt (hnamed n hmem)
  · rw [hl']
    rfl
  · rw [hl']
    rfl

/-- `remove_node` takes the node out that the pointer leads to. -/
theorem removeNode_spec {n : ℕ} {v : V} (h : l.Represents (es ++ (n, v) :: fs)) :
    ∃ l', l.removeNode (slotOf (addresses es)) = some (0, l') ∧ l'.Represents (es ++ fs) ∧
      l'.created = l.created ∧ l'.comp = l.comp := by
  have hread := h.read_slotOf
  have hnodup := h.nodup
  have hnamed := h.named
  have hlen := h.len
  have hlive := h.heap_iff
  obtain ⟨zs, hchain, hzs⟩ := h.chain
  obtain ⟨xs, ys', rfl, rfl, hys'⟩ := List.map_eq_append_iff.mp hzs
  obtain ⟨⟨m, node⟩, ys, rfl, hm, rfl⟩ := List.map_eq_cons_iff.mp hys'
  obtain ⟨rfl, rfl⟩ := Prod.mk.inj hm
  simp only [addresses_append, addresses_cons, addresses_entry, List.head?_cons]
    at hread hnodup hnamed hlive ⊢
  obtain ⟨q, hxs, -, hnode, hys⟩ := segment_append.mp hchain
  rw [List.nodup_append, List.nodup_cons] at hnodup
  have hdisjoint : ∀ n ∈ addresses xs, n ∉ addresses ys :=
    fun n hn hmem => hnodup.2.2 n hn n (List.mem_cons_of_mem _ hmem) rfl
  have hmxs : m ∉ addresses xs := fun hmem => hnodup.2.2 m hmem m List.mem_cons_self rfl
  obtain ⟨l', xs', hwrite, hchain', hentry, hheap, hl'⟩ :=
    write_slotOf hxs hys hnodup.1 hdisjoint
  have hmxs' : m ∉ addresses (xs' ++ ys) := by
    rw [addresses_append, ← addresses_entry xs', hentry, addresses_entry, List.mem_append, not_or]
    exact ⟨hmxs, hnodup.2.1.1⟩
  have hcall : ∃ destroyed, l'.callDtor node.userptr = { l' with destroyed := destroyed } := by
    unfold callDtor
    split
    next => exact ⟨_, rfl⟩
    next => exact ⟨l'.destroyed, rfl⟩
  obtain ⟨destroyed, hcall⟩ := hcall
  refine ⟨{ l' with
      len := l'.len - 1
      heap := Function.update l'.heap m none
      destroyed := destroyed },
    by simp [removeNode, hread, hnode, hwrite, hcall, free],
    ⟨⟨_, hchain'.update hmxs' none, by simp [hentry]⟩, ?_, ?_, ?_⟩, ?_, ?_⟩
  · rw [hl']
    simp only [hlen, List.length_append, List.length_cons]
    omega
  · intro n other hn
    have hne : n ≠ m := by
      rintro rfl
      simp at hn
    have hsome : l'.heap n = some other := by
      rwa [← Function.update_of_ne hne none l'.heap]
    have hmem := (hlive n).mp ((hheap n).mp (by simp [hsome]))
    simp only [addresses_append, addresses_entry, List.mem_append, List.mem_cons, hne,
      false_or] at hmem ⊢
    exact hmem
  · intro n hn
    rw [hl']
    simp only [addresses_append, addresses_entry, List.mem_append] at hn
    refine hnamed n ?_
    rw [List.mem_append, List.mem_cons]
    exact hn.imp_right .inr
  · rw [hl']
  · rw [hl']

/-! ## Calls without an iterator -/

theorem slotOf_concat (ns : List ℕ) (n : ℕ) : slotOf (ns ++ [n]) = .next n := by
  simp [slotOf]

/-- The search ends at a pointer of the chain. -/
theorem seekSlot_spec (stop : V → Bool) (left : ℕ) (h : l.Represents (es ++ fs))
    (hleft : left ≤ fs.length) :
    ∃ gs ks, es ++ fs = gs ++ ks ∧
      l.seekSlot stop left (slotOf (addresses es)) = some (slotOf (addresses gs)) := by
  induction left generalizing es fs with
  | zero => exact ⟨es, fs, rfl, rfl⟩
  | succ left ih =>
      cases fs with
      | nil => simp at hleft
      | cons f fs =>
          obtain ⟨n, v⟩ := f
          obtain ⟨next, hnode⟩ := h.allocated (List.mem_append_right es List.mem_cons_self)
          have hread := h.read_slotOf
          simp only [addresses_cons, List.head?_cons] at hread
          simp only [seekSlot, hread, hnode, Option.bind_eq_bind, Option.bind_some]
          split
          next => exact ⟨es, (n, v) :: fs, rfl, rfl⟩
          next =>
            rw [List.append_cons] at h ⊢
            obtain ⟨gs, ks, hsplit, hseek⟩ := ih h (by simpa using hleft)
            rw [addresses_append, addresses_cons, addresses_nil, slotOf_concat] at hseek
            exact ⟨gs, ks, hsplit, hseek⟩

theorem represents_new (comp : Option (V → V → ℤ)) (dtor : Bool) :
    (mListNew comp dtor).Represents ([] : List (ℕ × V)) where
  chain := ⟨[], rfl, rfl⟩
  len := rfl
  live := nofun
  named := nofun

theorem represents_insertNode (h : l.Represents (es ++ fs)) (v : V) (mem : Bool) :
    ∃ ret l' gs, l.insertNode (slotOf (addresses es)) v mem = some (ret, l') ∧
      l'.Represents gs := by
  cases mem with
  | false => exact ⟨-ENOMEM, l, es ++ fs, rfl, h⟩
  | true =>
      obtain ⟨l', hinsert, hl', -⟩ := insertNode_spec h v
      exact ⟨0, l', _, hinsert, hl'⟩

theorem represents_removeNode (h : l.Represents (es ++ fs)) :
    ∃ ret l' gs, l.removeNode (slotOf (addresses es)) = some (ret, l') ∧ l'.Represents gs := by
  cases fs with
  | nil =>
      have hread := h.read_slotOf
      exact ⟨-ENOENT, l, es ++ [], by simp [removeNode, hread], h⟩
  | cons f fs =>
      obtain ⟨l', hremove, hl', -⟩ := removeNode_spec h
      exact ⟨0, l', _, hremove, hl'⟩

/-- Every call leaves a chain of nodes. -/
theorem represents_exec [DecidableEq V] (h : l.Represents es) (call : Call V) :
    ∃ ret l' fs, l.exec call = some (ret, l') ∧ l'.Represents fs := by
  have hstart : l.Represents ([] ++ es) := h
  cases call with
  | insert data mem =>
      cases data with
      | none => exact ⟨-EINVAL, l, es, rfl, h⟩
      | some data =>
          cases hcomp : l.comp with
          | none =>
              obtain ⟨ret, l', fs, hinsert, hl'⟩ := represents_insertNode hstart data mem
              refine ⟨ret, l', fs, ?_, hl'⟩
              simp only [exec, mListInsert, hcomp, Option.bind_eq_bind, Option.bind_some]
              exact hinsert
          | some comp =>
              obtain ⟨gs, ks, hsplit, hseek⟩ := seekSlot_spec (fun userptr => comp data userptr = 0)
                l.len hstart (Nat.le_of_eq h.len)
              rw [hsplit] at hstart
              obtain ⟨ret, l', fs, hinsert, hl'⟩ := represents_insertNode hstart data mem
              refine ⟨ret, l', fs, ?_, hl'⟩
              simp only [exec, mListInsert, hcomp, Option.bind_eq_bind]
              rw [show ListSlot.data = slotOf (addresses ([] : List (ℕ × V))) from rfl, hseek]
              exact hinsert
  | remove data =>
      simp only [exec, mListRemove]
      split
      next =>
        cases data with
        | none => exact ⟨-EINVAL, l, es, rfl, h⟩
        | some data =>
            obtain ⟨gs, ks, hsplit, hseek⟩ := seekSlot_spec (l.hits data) l.len hstart (Nat.le_of_eq h.len)
            rw [hsplit] at hstart
            obtain ⟨ret, l', fs, hremove, hl'⟩ := represents_removeNode hstart
            refine ⟨ret, l', fs, ?_, hl'⟩
            simp only [Option.bind_eq_bind]
            rw [show ListSlot.data = slotOf (addresses ([] : List (ℕ × V))) from rfl, hseek]
            exact hremove
      next => exact ⟨-EINVAL, l, es, rfl, h⟩

theorem represents_runCalls [DecidableEq V] (calls : List (Call V)) (h : l.Represents es) :
    ∃ l' fs, l.runCalls calls = some l' ∧ l'.Represents fs := by
  induction calls generalizing l es with
  | nil => exact ⟨l, es, rfl, h⟩
  | cons call calls ih =>
      obtain ⟨ret, l', fs, hexec, hl'⟩ := represents_exec h call
      obtain ⟨l'', gs, hrun, hl''⟩ := ih hl'
      exact ⟨l'', gs, by simp [runCalls, hexec, hrun], hl''⟩

end MList

end Libmodule
