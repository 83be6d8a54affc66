import Libmodule.Execution

/-!
# Pending and delivered messages

What waits for a module, in its pipe and in its batch queue, and what a list of
steps hands to its callback.
-/

namespace Libmodule

open RefHeap Reentrant

namespace World

/-- The messages in the pipe of a module, in the order in which it reads them. -/
def inbox (w : World) (m : ℕ) : List ℕ :=
  ((modAt w.heap m).map (fun x => w.sys.waiting x.pubsubFd0)).getD []

/-- The events in the batch queue of a module. -/
def batched (w : World) (m : ℕ) : List ℕ := ((modAt w.heap m).map Mod.batchEvents).getD []

/-- The message that an event carries. -/
def carried (w : World) (e : ℕ) : Option ℕ :=
  match (evtAt w.heap e).map EvtPriv.data with
  | some (.ps g) => some g
  | _ => none

theorem inbox_setMod {w w' : World} {m p : ℕ} {f : Mod → Mod} (hset : w.setMod m f = some w')
    (hfd : ∀ x, (f x).pubsubFd0 = x.pubsubFd0) : w'.inbox p = w.inbox p := by
  obtain ⟨-, rfl⟩ := setMod_eq_some.mp hset
  simp only [inbox, modAt_modify_mod]
  split
  next =>
    cases modAt w.heap p with
    | none => rfl
    | some x => simp [hfd]
  next => rfl

end World

/-- The events that a step hands to the callback of a module. -/
def Handed (m : ℕ) (step : Step LibLang World) (e : ℕ) : Prop :=
  ∃ recv evts, step.act = .hook (.onEvt m recv evts) ∧ e ∈ evts

end Libmodule
