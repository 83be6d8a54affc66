import Libmodule.Errno
import Libmodule.LinkedChain

/-!
# The queue

The queue of `structs/queue.c` on an explicit heap: elements that point to the
one that was enqueued after them, and an iterator that holds the address of such
a pointer.  An access to an element that is not allocated is a fault, written
`none`.

Calls of the user's destructor are recorded in the queue, in order.
-/

namespace Libmodule

/-- `queue_elem`; `prev` is the next newer element. -/
structure QueueElem (V : Type) where
  userptr : V
  prev : Option ℕ

/-- The address of a pointer to an element: `&q->head`, or a field `prev`. -/
inductive ElemSlot where
  | head
  | prev (n : ℕ)
  deriving DecidableEq, Repr

structure Queue (V : Type) where
  len : ℕ
  dtor : Bool
  head : Option ℕ
  tail : Option ℕ
  heap : ℕ → Option (QueueElem V)
  destroyed : List V := []

structure QueueItr where
  elem : ElemSlot
  removed : Bool
  deriving DecidableEq, Repr

/-- What `calloc` answers: an address that holds no live element. -/
structure ElemAlloc (V : Type) where
  calloc : (ℕ → Option (QueueElem V)) → Option ℕ
  fresh : ∀ heap n, calloc heap = some n → heap n = none

/-- The allocator that takes the first free address below `size`. -/
def ElemAlloc.firstFree {V : Type} (size : ℕ) : ElemAlloc V where
  calloc := fun heap => (List.range size).find? (fun n => (heap n).isNone)
  fresh := by
    intro heap n hfind
    simpa using List.find?_some hfind

namespace Queue

variable {V : Type}

def read (q : Queue V) : ElemSlot → Option (Option ℕ)
  | .head => some q.head
  | .prev n => (q.heap n).map QueueElem.prev

def write (q : Queue V) (slot : ElemSlot) (value : Option ℕ) : Option (Queue V) :=
  match slot with
  | .head => some { q with head := value }
  | .prev n => (q.heap n).map (fun elem =>
      { q with heap := Function.update q.heap n (some { elem with prev := value }) })

def free (q : Queue V) (n : ℕ) : Queue V := { q with heap := Function.update q.heap n none }

/-- The queue counts the element at `n`, which nothing leads to yet. -/
def newElem (q : Queue V) (n : ℕ) (data : V) : Queue V :=
  { q with
    heap := Function.update q.heap n (some ⟨data, none⟩)
    len := q.len + 1 }

def mQueueNew (dtor : Bool) : Queue V where
  len := 0
  dtor := dtor
  head := none
  tail := none
  heap := fun _ => none

def mQueueLen (q : Queue V) : ℤ := q.len

/-- `m_queue_itr_new`; `mem` tells whether `calloc` gives an iterator. -/
def mQueueItrNew (q : Queue V) (mem : Bool) : Option QueueItr :=
  if q.len > 0 then
    if mem then some ⟨.head, false⟩ else none
  else none

/-- The pointer that the iterator holds next. -/
def itrElem (q : Queue V) (i : QueueItr) : Option ElemSlot :=
  if i.removed then some i.elem else (q.read i.elem).bind (Option.map ElemSlot.prev)

/-- `m_queue_itr_next`; the iterator is `none` once it is freed. -/
def mQueueItrNext (q : Queue V) (itr : Option QueueItr) : Option (ℤ × Option QueueItr) :=
  match itr with
  | none => some (-EINVAL, none)
  | some i => do
      let elem ← q.itrElem i
      match ← q.read elem with
      | none => some (0, none)
      | some _ => some (0, some ⟨elem, false⟩)

def mQueueItrRemove (q : Queue V) (itr : Option QueueItr) :
    Option (ℤ × Queue V × Option QueueItr) :=
  match itr with
  | none => some (-EINVAL, q, none)
  | some i =>
      if i.removed then some (-EINVAL, q, some i)
      else do
        match ← q.read i.elem with
        | none => some (-ENOENT, q, some i)
        | some tmp =>
            let elem ← q.heap tmp
            let q ← q.write i.elem elem.prev
            let q := if q.dtor then { q with destroyed := q.destroyed ++ [elem.userptr] } else q
            let q := if some tmp = q.tail then { q with tail := none } else q
            let q := q.free tmp
            some (0, { q with len := q.len - 1 }, some { i with removed := true })

def mQueueItrGetData (q : Queue V) (itr : Option QueueItr) : Option (Option V) :=
  match itr with
  | none => some none
  | some i =>
      if i.removed then some none
      else do
        let n ← ← q.read i.elem
        some (some (← q.heap n).userptr)

def mQueueEnqueue (alloc : ElemAlloc V) (q : Queue V) (data : Option V) :
    Option (ℤ × Queue V) :=
  match data with
  | none => some (-EINVAL, q)
  | some data =>
      match alloc.calloc q.heap with
      | none => some (-ENOMEM, q)
      | some elem => do
          let q := q.newElem elem data
          let q ← match q.tail with
            | none => some q
            | some tail => q.write (.prev tail) (some elem)
          let q := { q with tail := some elem }
          some (0, if q.head.isNone then { q with head := q.tail } else q)

def mQueueDequeue (q : Queue V) : Option (Option V × Queue V) :=
  if q.len > 0 then do
    let q' := if q.tail = q.head then { q with tail := none } else q
    let n ← q.head
    let elem ← q.heap n
    let q' := { q' with head := elem.prev }.free n
    some (some elem.userptr, { q' with len := q'.len - 1 })
  else some (none, q)

def mQueuePeek (q : Queue V) : Option (Option V) :=
  if q.len > 0 then do
    let n ← q.head
    some (some (← q.heap n).userptr)
  else some none

def mQueueRemove (q : Queue V) : Option (ℤ × Queue V) := do
  match ← q.mQueueDequeue with
  | (none, q) => some (-EINVAL, q)
  | (some data, q) =>
      some (0, if q.dtor then { q with destroyed := q.destroyed ++ [data] } else q)

/-- The loop of `m_queue_clear`, whose rounds are the length of the queue. -/
def clearRounds : ℕ → Queue V → Option (Queue V)
  | 0, q => some q
  | rounds + 1, q => do
      let (_, q) ← q.mQueueRemove
      clearRounds rounds q

def mQueueClear (q : Queue V) : Option (ℤ × Queue V) :=
  if q.len > 0 then do
    let q ← clearRounds q.len q
    some (0, q)
  else some (-EINVAL, q)

end Queue

end Libmodule
