import Mathlib.Data.List.Nodup
import Libmodule.Broadcast

/-!
# The ledger of a message

Each copy of a message holds a reference to the sender.  A copy that cannot be written
to the pipe of its recipient should be released again, with that reference; the code
releases the message on the stack of its caller instead.
-/

namespace Libmodule

open RefHeap Reentrant

/-! ## Recipients are apart -/

section Nodup

variable {w : World} {msg : PsPriv} {recipient : Option ℕ} {c : ℕ}

/-- The modules of a context have different names, and so different addresses. -/
theorem audience_nodup (hO : SubsOwned w) (hreaches : w.Reaches recipient c) :
    (w.audience recipient c).Nodup := by
  cases recipient with
  | some m => exact List.nodup_singleton m
  | none =>
      obtain ⟨y, hy⟩ := hreaches.ctx rfl
      have haudience : w.audience none c = y.modules.map Prod.snd := by
        simp [World.audience, hy, NameTable.values]
      have hsound : y.Sound w.heap := hO.sound c (.ctx y) (ctxAt_eq_some.mp hy)
      have hname : ∀ entry ∈ y.modules, ∃ x, modAt w.heap entry.2 = some x ∧ x.name = entry.1 := by
        intro entry hentry
        obtain ⟨x, hx⟩ := hreaches.modules entry.2 (haudience ▸ List.mem_map_of_mem hentry)
        have htag := (hsound.modules entry hentry).2 _ (modAt_eq_some.mp hx)
        simp only [Obj.tag, Tag.mod.injEq] at htag
        exact ⟨x, hx, htag⟩
      have hnames : y.modules.Pairwise (fun a b => a.1 ≠ b.1) := List.pairwise_map.mp hsound.names
      rw [haudience]
      refine List.pairwise_map.mpr (hnames.imp_of_mem ?_)
      intro a b ha hb hne hsame
      obtain ⟨x, hx, hxname⟩ := hname a ha
      obtain ⟨z, hz, hzname⟩ := hname b hb
      rw [hsame, hz] at hx
      cases hx
      exact hne (hxname.symm.trans hzname)

theorem addressees_nodup (hO : SubsOwned w) (hreaches : w.Reaches recipient c) :
    ((w.addressees msg recipient c).map Prod.fst).Nodup := by
  unfold World.addressees
  split
  next => exact List.nodup_nil
  next =>
    rw [List.map_filterMap]
    refine (audience_nodup hO hreaches).filterMap ?_
    intro m n k hm hn
    obtain ⟨a, ha, rfl⟩ := Option.map_eq_some_iff.mp hm
    obtain ⟨b, hb, hba⟩ := Option.map_eq_some_iff.mp hn
    rw [← World.mem_addressee ha, ← World.mem_addressee hb, hba]

theorem mem_audience_of_addressee {a : ℕ × Option String} (ha : a ∈ w.addressees msg recipient c) :
    a.1 ∈ w.audience recipient c := by
  unfold World.addressees at ha
  split at ha
  next => cases ha
  next =>
    obtain ⟨m, hm, hma⟩ := List.mem_filterMap.mp ha
    rwa [World.mem_addressee hma]

end Nodup

/-! ## The ledger -/

/-- The message is in one pipe, once, and that is the pipe of one of the modules. -/
def InOnePipe (w : World) (recipients : List ℕ) (g : ℕ) : Prop :=
  ∃ m ∈ recipients, ∃ p, w.pipeTo m = some p ∧ ∀ q, (w.queue q).count g = if q = p then 1 else 0

/-- From `w` to `w'` copies of a message are made that wait for their recipients or are
gone; the sender has gained a reference for each that is there, and nothing else is
released. -/
structure Balanced (msg : PsPriv) (recipients : List ℕ) (w w' : World) : Prop where
  each : ∀ g ∈ copies w w', InOnePipe w' recipients g ∨ ¬ Live w'.heap g
  sender : ∀ s, msg.sender = some s →
    refs w'.heap s = refs w.heap s + ((copies w w').filter (fun g => Live w'.heap g)).length
  others : ∀ p < w.heap.length, msg.sender ≠ some p → refs w'.heap p = refs w.heap p

/-- Sending the message follows no invalid pointer, and leaves the ledger balanced. -/
def KeepsLedger (depth : ℕ) (w : World) (msg : PsPriv) (recipient : Option ℕ) (c : ℕ) : Prop :=
  ∃ ret w', (tellPubsubMsg msg recipient c).Ends (handler depth) w ret w' ∧
    Balanced msg (w.audience recipient c) w w'

section Ledger

variable {w w' : World} {msg : PsPriv} {told : List (ℕ × Option String)} {recipients : List ℕ}

/-- The copy under an address. -/
theorem Sent.copy_of_mem (h : Sent msg told w w') {g : ℕ} (hg : g ∈ copies w w') :
    ∃ i m key, told[i]? = some (m, key) ∧ g = w.heap.length + i := by
  rw [mem_copies, h.length] at hg
  have hi : g - w.heap.length < told.length := by omega
  exact ⟨g - w.heap.length, told[g - w.heap.length].1, told[g - w.heap.length].2,
    List.getElem?_eq_getElem hi, by omega⟩

theorem Sent.live_of_mem (h : Sent msg told w w') {g : ℕ} (hg : g ∈ copies w w') :
    Live w'.heap g := by
  obtain ⟨i, m, key, hi, rfl⟩ := h.copy_of_mem hg
  exact Live.of_get (h.copy i m key hi) Nat.one_pos

/-- A copy is in the pipe of its recipient. -/
theorem Sent.inOnePipe (hw : Pipes w) (h : Sent msg told w w')
    (hnodup : (told.map Prod.fst).Nodup) (hroom : ∀ a ∈ told, w.Room a.1)
    (hrecipients : ∀ a ∈ told, a.1 ∈ recipients) {g : ℕ} (hg : g ∈ copies w w') :
    InOnePipe w' recipients g := by
  obtain ⟨i, m, key, hi, rfl⟩ := h.copy_of_mem hg
  have hmem := List.mem_of_getElem? hi
  obtain ⟨p, hp⟩ := Option.isSome_iff_exists.mp (hroom _ hmem).1
  have hold : ∀ q, (w.queue q).count (w.heap.length + i) = 0 := by
    intro q
    refine List.count_eq_zero_of_not_mem (fun hin => ?_)
    exact absurd (hw.contents q _ hin) (by omega)
  refine ⟨m, hrecipients _ hmem, p, (h.pipeTo m).trans hp, fun q => ?_⟩
  by_cases hq : ∃ a ∈ told, w.pipeTo a.1 = some q
  · obtain ⟨a, ha, hpa⟩ := hq
    obtain ⟨j, hj⟩ := List.getElem?_of_mem ha
    rw [h.reached j a.1 a.2 q hj hpa, List.count_append, hold, Nat.zero_add]
    by_cases hqp : q = p
    · have hsame : a.1 = m := hw.apart a.1 m q hpa (hqp ▸ hp)
      have hji : j = i := by
        have hlt : j < (told.map Prod.fst).length := by
          simpa using (List.getElem?_eq_some_iff.mp hj).1
        exact (List.getElem?_inj hlt hnodup).mp (by simp [hj, hi, hsame])
      rw [if_pos hqp, hji, List.count_singleton_self]
    · have hji : j ≠ i := by
        rintro rfl
        cases hj.symm.trans hi
        exact hqp (Option.some.inj (hpa.symm.trans hp))
      rw [if_neg hqp]
      exact List.count_eq_zero_of_not_mem (by simp; omega)
  · have hqp : q ≠ p := by
      rintro rfl
      exact hq ⟨_, hmem, hp⟩
    rw [h.spared q (fun a ha hpa => hq ⟨a, ha, hpa⟩), hold, if_neg hqp]

theorem Sent.balanced (hw : Pipes w) (h : Sent msg told w w')
    (hnodup : (told.map Prod.fst).Nodup) (hroom : ∀ a ∈ told, w.Room a.1)
    (hrecipients : ∀ a ∈ told, a.1 ∈ recipients)
    (hsender : ∀ s, msg.sender = some s → ∃ cell, get w.heap s = some cell) :
    Balanced msg recipients w w' where
  each := fun _ hg => .inl (h.inOnePipe hw hnodup hroom hrecipients hg)
  sender := by
    intro s hs
    obtain ⟨cell, hcell⟩ := hsender s hs
    have hlive : (copies w w').filter (fun g => Live w'.heap g) = copies w w' := by
      refine List.filter_eq_self.mpr (fun g hg => ?_)
      simpa using h.live_of_mem hg
    have hcount : (copies w w').length = told.length := by
      rw [copies, List.length_range', h.length]
      omega
    rw [hlive, hcount]
    simp [refs, h.sender s cell hs hcell, hcell]
  others := fun p hp hs => by rw [refs, refs, h.old p hp hs]

end Ledger

/-- Sending a message keeps the ledger if and only if every recipient that is told it has
room in its pipe. -/
theorem keepsLedger_iff {host : Host} {script : List Reaction} {polls : List PollAnswer}
    {faults : List ℤ} {w : World} {msg : PsPriv} {recipient : Option ℕ} {c depth : ℕ}
    (hw : Later (World.initial host script polls faults) w) (hreaches : w.Reaches recipient c)
    (hsender : ∀ s, msg.sender = some s → ∃ x, modAt w.heap s = some x) :
    KeepsLedger depth w msg recipient c ↔
      ∀ a ∈ w.addressees msg recipient c, w.Room a.1 := by
  have hO := subsOwned_reached hw
  have hpipes := pipes_reached hw
  have hs : Settled w.heap := (hw.pays (settled_initial host script polls faults)).settled
  have hnodup := @addressees_nodup _ msg _ _ hO hreaches
  have hcell : ∀ s, msg.sender = some s → ∃ cell, get w.heap s = some cell := by
    intro s hmsg
    obtain ⟨x, hx⟩ := hsender s hmsg
    obtain ⟨cell, hget, -⟩ := Option.map_eq_some_iff.mp (modAt_eq_some.mp hx)
    exact ⟨cell, hget⟩
  have hlt : ∀ s, msg.sender = some s → s < w.heap.length := by
    intro s hmsg
    obtain ⟨cell, hget⟩ := hcell s hmsg
    exact lt_length hget
  constructor
  · rintro ⟨ret, w', hends, -⟩
    obtain ⟨-, htell⟩ := (tellPubsubMsg_ends_iff hO.there hreaches).mp hends
    exact (sent_tellAll hs hpipes hnodup hlt htell).2
  · intro hroom
    have hthere : ∀ a ∈ w.addressees msg recipient c, ∃ x, modAt w.heap a.1 = some x :=
      fun a ha => hreaches.modules a.1 (mem_audience_of_addressee ha)
    obtain ⟨w', htell⟩ := exists_tellAll hs hpipes hnodup hthere hroom hcell
    refine ⟨0, w', (tellPubsubMsg_ends_iff hO.there hreaches).mpr ⟨rfl, htell⟩, ?_⟩
    exact (sent_tellAll hs hpipes hnodup hlt htell).1.balanced hpipes hnodup hroom
      (fun a ha => mem_audience_of_addressee ha) hcell

/-- A pipe of 512 bytes, which is 64 pointers. -/
def shortHost : Host := { plainHost with pipeCapacity := 64 }

/-- One of two running modules has told the other `n` messages. -/
def toldOften (n : ℕ) : World :=
  (machine.runCalls 3
    ([.mCtxRegister "ctx" 0, .mModRegister "a" true (some onEvtOnly) 0,
      .mModRegister "b" true (some onEvtOnly) 0, .mModStart (some 1), .mModStart (some 2)] ++
      List.replicate n (.mModPsTell (some 1) (some 2) (some 7) 0))
    (World.initial shortHost [] [] [])).state

theorem later_toldOften (n : ℕ) : Later (World.initial shortHost [] [] []) (toldOften n) :=
  later_run _ _ _

/-- The pipe of a module is full: one more message to it halts. -/
def fullPipe : { w : World // Later (World.initial shortHost [] [] []) w ∧
    (modAt w.heap 1).isSome ∧ (modAt w.heap 2).isSome ∧
      ((tellPubsubMsg (sentMsg 1 7 0 none) (some 2) 0).run (handler 3) w).value = none } :=
  ⟨toldOften 64, later_toldOften 64, by decide +kernel⟩

theorem keepsLedger_toldOften :
    KeepsLedger 3 (toldOften 1) (sentMsg 1 7 0 none) (some 2) 0 ↔
      ∀ a ∈ (toldOften 1).addressees (sentMsg 1 7 0 none) (some 2) 0, (toldOften 1).Room a.1 :=
  keepsLedger_iff (later_toldOften 1)
    ⟨nofun, fun m hm => by
      obtain rfl := List.mem_singleton.mp hm
      exact Option.isSome_iff_exists.mp (by decide +kernel)⟩
    (fun s hs => by
      cases hs
      exact Option.isSome_iff_exists.mp (by decide +kernel))

/-- The message that no longer fits: the code follows a pointer that no object has. -/
theorem not_keepsLedger_full :
    ¬ ∀ host script polls faults w msg recipient c depth,
      Later (World.initial host script polls faults) w → w.Reaches recipient c →
      (∀ s, msg.sender = some s → ∃ x, modAt w.heap s = some x) →
      KeepsLedger depth w msg recipient c := by
  intro hall
  obtain ⟨hlater, hsender, hreached, hhalts⟩ := fullPipe.2
  obtain ⟨ret, w', ⟨hvalue, -⟩, -⟩ := hall shortHost [] [] [] fullPipe.1
    (sentMsg 1 7 0 none) (some 2) 0 3 hlater
    ⟨by simp, fun m hm => by
      obtain rfl := List.mem_singleton.mp hm
      exact Option.isSome_iff_exists.mp hreached⟩
    (fun s hs => by
      cases hs
      exact Option.isSome_iff_exists.mp hsender)
  rw [hhalts] at hvalue
  cases hvalue

end Libmodule
