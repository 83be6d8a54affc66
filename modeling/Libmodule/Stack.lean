import Libmodule.Errno
import Libmodule.LinkedChain

/-!
# The stack

The stack of `structs/stack.c` on an explicit heap: elements that point to the
one that was pushed before them, and an iterator that holds the address of such
a pointer.  Elements are named in the order of their creation, and an access to
one that has been freed is a fault, written `none`.

Calls of the user's destructor are recorded, in order.
-/

namespace Libmodule

/-- `stack_elem` -/
structure StackElem (V : Type) where
  userptr : V
  prev : Option ℕ

/-- The address of a pointer to an element: `&s->data`, or a field `prev`. -/
inductive StackSlot where
  | data
  | prev (n : ℕ)
  deriving DecidableEq, Repr

/-- A stack, and the heap of its elements; `live` is false when the pointer to it is `NULL`. -/
structure Stack (V : Type) where
  live : Bool
  len : ℕ
  dtor : Bool
  data : Option ℕ
  heap : ℕ → Option (StackElem V)
  created : ℕ
  destroyed : List V

structure StackItr where
  elem : StackSlot
  removed : Bool
  deriving DecidableEq, Repr

namespace Stack

variable {V : Type}

def read (s : Stack V) : StackSlot → Option (Option ℕ)
  | .data => some s.data
  | .prev n => (s.heap n).map StackElem.prev

def setElem (s : Stack V) (n : ℕ) (f : StackElem V → StackElem V) : Option (Stack V) :=
  (s.heap n).map (fun elem => { s with heap := Function.update s.heap n (some (f elem)) })

def write (s : Stack V) (slot : StackSlot) (value : Option ℕ) : Option (Stack V) :=
  match slot with
  | .data => some { s with data := value }
  | .prev n => s.setElem n (fun elem => { elem with prev := value })

def freeElem (s : Stack V) (n : ℕ) : Stack V :=
  { s with heap := Function.update s.heap n none }

/-- The destructor of the user, if there is one. -/
def destroy (s : Stack V) (userptr : V) : Stack V :=
  if s.dtor then { s with destroyed := s.destroyed ++ [userptr] } else s

def mStackNew (dtor : Bool) : Stack V where
  live := true
  len := 0
  dtor := dtor
  data := none
  heap := fun _ => none
  created := 0
  destroyed := []

def mStackLen (s : Stack V) : ℤ := if s.live then s.len else -EINVAL

/-- `m_stack_push`; `room` tells whether there is memory for an element. -/
def mStackPush (s : Stack V) (room : Bool) (data : Option V) : ℤ × Stack V :=
  if s.live then
    match data with
    | none => (-EINVAL, s)
    | some userptr =>
        if room then
          (0, { s with
            len := s.len + 1
            heap := Function.update s.heap s.created (some ⟨userptr, s.data⟩)
            data := some s.created
            created := s.created + 1 })
        else (-ENOMEM, s)
  else (-EINVAL, s)

def mStackPop (s : Stack V) : Option (Option V × Stack V) :=
  if s.mStackLen > 0 then do
    let n ← s.data
    let elem ← s.heap n
    let s := { s with data := elem.prev }.freeElem n
    some (some elem.userptr, { s with len := s.len - 1 })
  else some (none, s)

def mStackPeek (s : Stack V) : Option (Option V) :=
  if s.mStackLen > 0 then do
    let n ← s.data
    let elem ← s.heap n
    some (some elem.userptr)
  else some none

def mStackRemove (s : Stack V) : Option (ℤ × Stack V) := do
  match ← s.mStackPop with
  | (none, s) => some (-EINVAL, s)
  | (some data, s) => some (0, s.destroy data)

/-- The loop of `m_stack_clear`, which goes on while the stack has a length. -/
def clearRounds : ℕ → Stack V → Option (Stack V)
  | 0, s => if s.len > 0 then none else some s
  | rounds + 1, s =>
      if s.len > 0 then do
        let (_, s) ← s.mStackRemove
        clearRounds rounds s
      else some s

def mStackClear (s : Stack V) : Option (ℤ × Stack V) :=
  if s.live then do
    let s ← clearRounds s.len s
    some (0, s)
  else some (-EINVAL, s)

def mStackFree (s : Stack V) : Option (ℤ × Stack V) := do
  let (ret, s) ← s.mStackClear
  some (ret, if ret = 0 then { s with live := false } else s)

/-- The loop of `m_stack_iterate`; `fn` sees what it has been shown before. -/
def iterateRounds (heap : ℕ → Option (StackElem V)) (fn : List V → V → ℤ) :
    ℕ → Option ℕ → List V → Option (ℤ × List V)
  | _, none, shown => some (0, shown)
  | 0, some _, _ => none
  | rounds + 1, some n, shown => do
      let elem ← heap n
      let rc := fn shown elem.userptr
      if rc < 0 then some (rc, shown ++ [elem.userptr])
      else if rc > 0 then some (0, shown ++ [elem.userptr])
      else iterateRounds heap fn rounds elem.prev (shown ++ [elem.userptr])

def mStackIterate (s : Stack V) (fn : Option (List V → V → ℤ)) : Option (ℤ × List V) :=
  match fn with
  | none => some (-EINVAL, [])
  | some fn =>
      if s.mStackLen > 0 then iterateRounds s.heap fn s.len s.data []
      else some (-EINVAL, [])

/-- `m_stack_itr_new`; `mem` tells whether `calloc` gives an iterator. -/
def mStackItrNew (s : Stack V) (mem : Bool) : Option StackItr :=
  if s.mStackLen > 0 then
    if mem then some ⟨.data, false⟩ else none
  else none

/-- The pointer that the iterator holds next. -/
def itrElem (s : Stack V) (i : StackItr) : Option StackSlot :=
  if i.removed then some i.elem else (s.read i.elem).bind (Option.map StackSlot.prev)

/-- `m_stack_itr_next`; the iterator is `none` once it is freed. -/
def mStackItrNext (s : Stack V) (itr : Option StackItr) : Option (ℤ × Option StackItr) :=
  match itr with
  | none => some (-EINVAL, none)
  | some i => do
      let elem ← s.itrElem i
      match ← s.read elem with
      | none => some (0, none)
      | some _ => some (0, some ⟨elem, false⟩)

def mStackItrRemove (s : Stack V) (itr : Option StackItr) :
    Option (ℤ × Stack V × Option StackItr) :=
  match itr with
  | none => some (-EINVAL, s, none)
  | some i =>
      if i.removed then some (-EINVAL, s, some i)
      else do
        match ← s.read i.elem with
        | none => some (-ENOENT, s, some i)
        | some tmp =>
            let elem ← s.heap tmp
            let s ← s.write i.elem elem.prev
            let s := (s.destroy elem.userptr).freeElem tmp
            some (0, { s with len := s.len - 1 }, some { i with removed := true })

def mStackItrGetData (s : Stack V) (itr : Option StackItr) : Option (Option V) :=
  match itr with
  | none => some none
  | some i =>
      if i.removed then some none
      else do
        let n ← ← s.read i.elem
        let elem ← s.heap n
        some (some elem.userptr)

def mStackItrSetData (s : Stack V) (itr : Option StackItr) (value : Option V) :
    Option (ℤ × Stack V) :=
  match itr with
  | none => some (-EINVAL, s)
  | some i =>
      if i.removed then some (-EINVAL, s)
      else
        match value with
        | none => some (-EINVAL, s)
        | some value => do
            let n ← ← s.read i.elem
            let s ← s.setElem n (fun elem => { elem with userptr := value })
            some (0, s)

end Stack

end Libmodule
