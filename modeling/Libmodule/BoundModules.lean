import Libmodule.DepthFirst
import Libmodule.Errno
import Libmodule.World
import Mathlib.Data.Fintype.Basic
import Mathlib.Logic.Function.Basic

/-!
# Pausing and resuming bound modules

`m_mod_pause` and `m_mod_resume`, which go on with the modules that are bound
to the one they are called on.  The modules are those of one context, which is
that of the caller, and operations of the poll plugin succeed.

The recursion ends although the graph may have cycles: a module that has
changed its state is refused.
-/

namespace Libmodule

open DepthFirst

/-- A source; `armed` tells whether the poll plugin has it, and `started` counts the threads
that have been asked to run a task. -/
structure BoundSrc where
  task : Bool
  armed : Bool
  started : ℕ
  deriving DecidableEq, Repr

/-- The part of a module that a pause and a resume read and write. -/
structure BoundMod (ι : Type) where
  state : ModState
  tokens : ℕ
  actionCtr : ℕ
  srcs : List BoundSrc
  bound : List ι

/-- A context; `told` are the system messages about its modules. -/
structure BoundCtx (ι : Type) where
  mods : ι → BoundMod ι
  runningModules : ℤ
  told : List (ι × String)

/-- `poll_set_new_evt`, and `start_task` for a task that is added. -/
def BoundSrc.manage (t : BoundSrc) (add : Bool) : BoundSrc :=
  { t with
    armed := add
    started := if t.task && add then t.started + 1 else t.started }

namespace BoundCtx

variable {ι : Type} [DecidableEq ι]

def setMod (s : BoundCtx ι) (m : ι) (f : BoundMod ι → BoundMod ι) : BoundCtx ι :=
  { s with mods := Function.update s.mods m (f (s.mods m)) }

/-- `manage_srcs`, which keeps the sources. -/
def manageSrcs (s : BoundCtx ι) (m : ι) (add : Bool) : ℤ × BoundCtx ι :=
  (0, s.setMod m (fun x => { x with srcs := x.srcs.map (fun t => t.manage add) }))

def tellSystemPubsubMsg (s : BoundCtx ι) (m : ι) (topic : String) : BoundCtx ι :=
  { s with told := s.told ++ [(m, topic)] }

/-- `start` of a module that is resumed. -/
def start (m : ι) (s : BoundCtx ι) : ℤ × BoundCtx ι :=
  let (ret, s) := s.manageSrcs m true
  if ret ≠ 0 then (ret, s)
  else
    let s := s.setMod m (fun x => { x with state := .running })
    let s := { s with runningModules := s.runningModules + 1 }
    (0, s.tellSystemPubsubMsg m M_PS_MOD_STARTED)

/-- `stop` of a module that is paused. -/
def stop (m : ι) (s : BoundCtx ι) : ℤ × BoundCtx ι :=
  let (ret, s) := s.manageSrcs m false
  if ret ≠ 0 then (ret, s)
  else
    let s := if (s.mods m).state = .running then { s with runningModules := s.runningModules - 1 }
      else s
    let s := s.setMod m (fun x => { x with state := .paused })
    (0, s.tellSystemPubsubMsg m M_PS_MOD_STOPPED)

def consumeToken (s : BoundCtx ι) (m : ι) : BoundCtx ι :=
  s.setMod m (fun x => { x with tokens := x.tokens - 1, actionCtr := x.actionCtr + 1 })

/-- `M_MOD_BOUND` -/
def forBound (fn : ι → BoundCtx ι → Option (ℤ × BoundCtx ι)) :
    List ι → BoundCtx ι → Option (BoundCtx ι)
  | [], s => some s
  | b :: bs, s => do
      let (_, s) ← fn b s
      forBound fn bs s

/-- The body that `m_mod_pause` and `m_mod_resume` share: the module must be in the state
`guard`.  The recursion is cut off when the fuel is used up. -/
def change (guard : ModState) (act : ι → BoundCtx ι → ℤ × BoundCtx ι) :
    ℕ → ι → BoundCtx ι → Option (ℤ × BoundCtx ι)
  | 0, _, _ => none
  | fuel + 1, m, s =>
      if (s.mods m).state = .zombie then some (-EACCES, s)
      else if (s.mods m).state ≠ guard then some (-EACCES, s)
      else if (s.mods m).tokens = 0 then some (-EAGAIN, s)
      else
        let (ret, s) := act m (s.consumeToken m)
        if ret = 0 then do
          let s ← forBound (change guard act fuel) (s.mods m).bound s
          some (ret, s)
        else some (ret, s)

def mModPause (fuel : ℕ) (m : ι) (s : BoundCtx ι) : Option (ℤ × BoundCtx ι) :=
  change .running stop fuel m s

def mModResume (fuel : ℕ) (m : ι) (s : BoundCtx ι) : Option (ℤ × BoundCtx ι) :=
  change .paused start fuel m s

end BoundCtx

/-! ## The change of one module -/

/-- A change of state: from which state, to which, and what goes with it. -/
structure StateChange where
  guard : ModState
  target : ModState
  add : Bool
  running : ℤ
  topic : String
  moves : target ≠ guard
  live : guard ≠ .zombie

theorem paused_ne_running : ModState.paused ≠ .running := by decide

theorem running_ne_zombie : ModState.running ≠ .zombie := by decide

theorem paused_ne_zombie : ModState.paused ≠ .zombie := by decide

def StateChange.pausing : StateChange where
  guard := .running
  target := .paused
  add := false
  running := -1
  topic := M_PS_MOD_STOPPED
  moves := paused_ne_running
  live := running_ne_zombie

def StateChange.resuming : StateChange where
  guard := .paused
  target := .running
  add := true
  running := 1
  topic := M_PS_MOD_STARTED
  moves := paused_ne_running.symm
  live := paused_ne_zombie

namespace StateChange

variable {ι : Type} [DecidableEq ι] {c : StateChange} {s : BoundCtx ι} {m x : ι} {l : List ι}

def after (c : StateChange) (x : BoundMod ι) : BoundMod ι :=
  { x with
    state := c.target
    tokens := x.tokens - 1
    actionCtr := x.actionCtr + 1
    srcs := x.srcs.map (fun t => t.manage c.add) }

/-- The module is not refused. -/
def Ready (c : StateChange) (x : BoundMod ι) : Prop := x.state = c.guard ∧ 0 < x.tokens

instance (c : StateChange) (x : BoundMod ι) : Decidable (c.Ready x) :=
  inferInstanceAs (Decidable (_ ∧ _))

def switch (c : StateChange) (s : BoundCtx ι) (m : ι) : BoundCtx ι where
  mods := Function.update s.mods m (c.after (s.mods m))
  runningModules := s.runningModules + c.running
  told := s.told ++ [(m, c.topic)]

/-- The changes of some modules, one after another. -/
def switchAll (c : StateChange) (s : BoundCtx ι) (l : List ι) : BoundCtx ι := l.foldl c.switch s

@[simp] theorem switchAll_nil : c.switchAll s [] = s := rfl

@[simp] theorem switchAll_cons : c.switchAll s (m :: l) = c.switchAll (c.switch s m) l := rfl

theorem switchAll_append (l' : List ι) :
    c.switchAll s (l ++ l') = c.switchAll (c.switchAll s l) l' := List.foldl_append

@[simp] theorem switch_self : (c.switch s m).mods m = c.after (s.mods m) :=
  Function.update_self m _ s.mods

theorem switch_of_ne (hx : x ≠ m) : (c.switch s m).mods x = s.mods x :=
  Function.update_of_ne hx _ _

omit [DecidableEq ι] in
theorem not_ready_after (x : BoundMod ι) : ¬ c.Ready (c.after x) := fun h => c.moves h.1

theorem ready_switch_iff : c.Ready ((c.switch s m).mods x) ↔ x ≠ m ∧ c.Ready (s.mods x) := by
  by_cases hx : x = m
  · subst hx
    simp [not_ready_after]
  · simp [switch_of_ne hx, hx]

theorem switch_bound (x : ι) : ((c.switch s m).mods x).bound = (s.mods x).bound := by
  by_cases hx : x = m
  · subst hx
    rw [switch_self]
    rfl
  · rw [switch_of_ne hx]

theorem switchAll_bound (l : List ι) (x : ι) :
    ((c.switchAll s l).mods x).bound = (s.mods x).bound := by
  induction l generalizing s with
  | nil => rfl
  | cons m l ih => rw [switchAll_cons, ih, switch_bound]

theorem switchAll_of_notMem (hx : x ∉ l) : (c.switchAll s l).mods x = s.mods x := by
  induction l generalizing s with
  | nil => rfl
  | cons m l ih =>
      rw [List.mem_cons, not_or] at hx
      obtain ⟨hne, hx⟩ := hx
      rw [switchAll_cons, ih hx, switch_of_ne hne]

theorem switchAll_of_mem (hnodup : l.Nodup) (hx : x ∈ l) :
    (c.switchAll s l).mods x = c.after (s.mods x) := by
  induction l generalizing s with
  | nil => cases hx
  | cons m l ih =>
      obtain ⟨hnew, hnodup⟩ := List.nodup_cons.mp hnodup
      rw [switchAll_cons]
      rcases List.mem_cons.mp hx with rfl | hx
      · rw [switchAll_of_notMem hnew, switch_self]
      · have hne : x ≠ m := fun h => hnew (h ▸ hx)
        rw [ih hnodup hx, switch_of_ne hne]

theorem switchAll_told (l : List ι) :
    (c.switchAll s l).told = s.told ++ l.map (fun x => (x, c.topic)) := by
  induction l generalizing s with
  | nil => simp
  | cons m l ih =>
      rw [switchAll_cons, ih]
      simp [switch]

theorem switchAll_runningModules (l : List ι) :
    (c.switchAll s l).runningModules = s.runningModules + c.running * l.length := by
  induction l generalizing s with
  | nil => simp
  | cons m l ih =>
      rw [switchAll_cons, ih]
      simp only [switch, List.length_cons, Nat.cast_add, Nat.cast_one, mul_add, mul_one]
      omega

theorem stop_eq (h : (s.mods m).state = .running) :
    BoundCtx.stop m (s.consumeToken m) = (0, pausing.switch s m) := by
  simp [BoundCtx.stop, BoundCtx.manageSrcs, BoundCtx.setMod, BoundCtx.consumeToken,
    BoundCtx.tellSystemPubsubMsg, switch, after, pausing, h, sub_eq_add_neg]

theorem start_eq (s : BoundCtx ι) (m : ι) :
    BoundCtx.start m (s.consumeToken m) = (0, resuming.switch s m) := by
  simp [BoundCtx.start, BoundCtx.manageSrcs, BoundCtx.setMod, BoundCtx.consumeToken,
    BoundCtx.tellSystemPubsubMsg, switch, after, resuming]

/-! ## What a change reaches -/

/-- The edges along modules that are not refused. -/
def Along (c : StateChange) (s : BoundCtx ι) (a b : ι) : Prop :=
  b ∈ (s.mods a).bound ∧ c.Ready (s.mods b)

def Reached (c : StateChange) (s : BoundCtx ι) (m x : ι) : Prop :=
  c.Ready (s.mods m) ∧ Relation.ReflTransGen (c.Along s) m x

/-- The modules that are reached from `m` are changed, each once, and no others. -/
structure Spreads (c : StateChange) (s s' : BoundCtx ι) (m : ι) : Prop where
  changed : ∀ x, c.Reached s m x → s'.mods x = c.after (s.mods x)
  others : ∀ x, ¬ c.Reached s m x → s'.mods x = s.mods x
  told : ∃ l : List ι, l.Nodup ∧ (∀ x, x ∈ l ↔ c.Reached s m x) ∧
    s'.told = s.told ++ l.map (fun x => (x, c.topic)) ∧
    s'.runningModules = s.runningModules + c.running * l.length

/-- What the function answers. -/
def code (c : StateChange) (x : BoundMod ι) : ℤ :=
  if x.state ≠ c.guard then -EACCES else if x.tokens = 0 then -EAGAIN else 0

/-! ## The recursion as a search -/

section Search

variable [Fintype ι] {act : ι → BoundCtx ι → ℤ × BoundCtx ι} {adj : ι → List ι}

def unmarked (c : StateChange) (s : BoundCtx ι) : Finset ι :=
  Finset.univ.filter (fun x => c.Ready (s.mods x))

omit [DecidableEq ι] in
theorem mem_unmarked : x ∈ c.unmarked s ↔ c.Ready (s.mods x) := by simp [unmarked]

theorem unmarked_switch : c.unmarked (c.switch s m) = (c.unmarked s).erase m := by
  ext x
  rw [mem_unmarked, Finset.mem_erase, mem_unmarked, ready_switch_iff]

theorem unmarked_switchAll (l : List ι) :
    c.unmarked (c.switchAll s l) = c.unmarked s \ l.toFinset := by
  induction l generalizing s with
  | nil => simp
  | cons m l ih =>
      rw [switchAll_cons, ih, unmarked_switch]
      ext x
      simp only [Finset.mem_sdiff, Finset.mem_erase, List.mem_toFinset, List.mem_cons]
      tauto

omit [DecidableEq ι] [Fintype ι] in
theorem code_eq_of_ready (h : c.Ready (s.mods m)) : c.code (s.mods m) = 0 := by
  have hpos := h.2
  rw [code, if_neg (not_not.mpr h.1), if_neg (by omega)]

variable (hact : ∀ s m, (s.mods m).state = c.guard →
  act m (s.consumeToken m) = (0, c.switch s m))

omit [Fintype ι] in
theorem change_of_not_ready (fuel : ℕ) (h : ¬ c.Ready (s.mods m)) :
    BoundCtx.change c.guard act (fuel + 1) m s = some (c.code (s.mods m), s) := by
  rw [BoundCtx.change, code]
  by_cases hguard : (s.mods m).state = c.guard
  · have hlive : (s.mods m).state ≠ .zombie := hguard ▸ c.live
    have htokens : (s.mods m).tokens = 0 := Nat.eq_zero_of_not_pos fun hpos => h ⟨hguard, hpos⟩
    rw [if_neg hlive, if_neg (not_not.mpr hguard), if_pos htokens, if_neg (not_not.mpr hguard),
      if_pos htokens]
  · rw [if_pos hguard, if_pos hguard]
    split <;> rfl

include hact in
/-- Where the search ends, so does the change, and it changes what the search marks. -/
theorem change_eq (fuel : ℕ) (m : ι) (hadj : ∀ x, (s.mods x).bound = adj x)
    (hvisit : DepthFirst.visit adj fuel m (c.unmarked s) = some l) :
    BoundCtx.change c.guard act fuel m s = some (c.code (s.mods m), c.switchAll s l) := by
  induction fuel generalizing s m l with
  | zero => cases hvisit
  | succ fuel ih =>
      have hbound : ∀ (bs : List ι) (s : BoundCtx ι) (l : List ι),
          (∀ x, (s.mods x).bound = adj x) →
          visitAll (DepthFirst.visit adj fuel) bs (c.unmarked s) = some l →
          BoundCtx.forBound (BoundCtx.change c.guard act fuel) bs s = some (c.switchAll s l) := by
        intro bs
        induction bs with
        | nil =>
            intro s l _ hall
            cases hall
            rfl
        | cons b bs ihs =>
            intro s l hadj hall
            obtain ⟨first, hfirst, hall⟩ := Option.bind_eq_some_iff.mp hall
            obtain ⟨rest, hrest, hall⟩ := Option.bind_eq_some_iff.mp hall
            cases hall
            rw [← unmarked_switchAll first] at hrest
            have hadj' : ∀ x, ((c.switchAll s first).mods x).bound = adj x :=
              fun x => (switchAll_bound first x).trans (hadj x)
            have hrun := ihs _ rest hadj' hrest
            rw [BoundCtx.forBound, ih b hadj hfirst, Option.bind_eq_bind, Option.bind_some,
              switchAll_append]
            exact hrun
      by_cases hready : c.Ready (s.mods m)
      · obtain ⟨hguard, hpos⟩ := hready
        rw [DepthFirst.visit, if_pos (mem_unmarked.mpr ⟨hguard, hpos⟩)] at hvisit
        obtain ⟨rest, hrest, rfl⟩ := Option.map_eq_some_iff.mp hvisit
        have hadj' : ∀ x, ((c.switch s m).mods x).bound = adj x :=
          fun x => (switch_bound x).trans (hadj x)
        rw [← unmarked_switch, ← hadj' m] at hrest
        have hrun := hbound _ _ rest hadj' hrest
        have hlive : (s.mods m).state ≠ .zombie := hguard ▸ c.live
        rw [BoundCtx.change, if_neg hlive, if_neg (not_not.mpr hguard), if_neg (by omega),
          hact s m hguard, code_eq_of_ready ⟨hguard, hpos⟩]
        simp only [if_true, hrun, Option.bind_eq_bind, Option.bind_some]
        rfl
      · rw [DepthFirst.visit, if_neg (mem_unmarked.not.mpr hready)] at hvisit
        cases hvisit
        exact change_of_not_ready fuel hready

include hact in
theorem change_spreads (s : BoundCtx ι) (m : ι) (fuel : ℕ) (hfuel : Fintype.card ι < fuel) :
    ∃ s', BoundCtx.change c.guard act fuel m s = some (c.code (s.mods m), s') ∧
      c.Spreads s s' m := by
  have hcard : (c.unmarked s).card < fuel := lt_of_le_of_lt (Finset.card_le_univ _) hfuel
  obtain ⟨l, hvisit, hmarks⟩ := visit_marks (fun x => (s.mods x).bound) fuel m _ hcard
  have hmem : ∀ x, x ∈ l ↔ c.Reached s m x := by
    have hsteps : Steps (fun x => (s.mods x).bound) (c.unmarked s) = c.Along s := by
      funext a b
      simp only [Steps, Along, mem_unmarked]
    intro x
    rw [hmarks.mem, Reached, ← hsteps, ← mem_unmarked]
    constructor
    · rintro ⟨y, rfl, hreach⟩
      exact hreach
    · exact fun hreach => ⟨m, rfl, hreach⟩
  refine ⟨c.switchAll s l, change_eq hact fuel m (fun _ => rfl) hvisit, ?_, ?_, l, hmarks.nodup,
    hmem, switchAll_told l, switchAll_runningModules l⟩
  · exact fun x hx => switchAll_of_mem hmarks.nodup ((hmem x).mpr hx)
  · exact fun x hx => switchAll_of_notMem fun hl => hx ((hmem x).mp hl)

end Search

end StateChange

/-- Two running modules that are bound to each other, and a third that is paused. -/
def boundCycle : BoundCtx (Fin 3) where
  mods := ![⟨.running, 5, 0, [⟨true, true, 1⟩], [1, 2]⟩, ⟨.running, 5, 0, [], [0]⟩,
    ⟨.paused, 5, 0, [], [0]⟩]
  runningModules := 2
  told := []

end Libmodule
