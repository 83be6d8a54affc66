import Libmodule.Errno
import Libmodule.LinkedChain

/-!
# The linked list

The list of `structs/list.c` on an explicit heap, and its iterator, which holds
the address of a pointer to a node and the difference between the nodes inserted
and removed since its last step.  Nodes are named by the order of their creation.
An access to a node that is not allocated is a fault, written `none`.
-/

namespace Libmodule

open LinkedChain

/-- `list_node`. -/
structure ListNode (V : Type) where
  userptr : V
  next : Option ℕ

/-- The address of a pointer to a node: `&l->data`, or a field `next`. -/
inductive ListSlot where
  | data
  | next (n : ℕ)
  deriving DecidableEq, Repr

/-- `m_list_t`; the calls of the user's destructor are recorded, in order. -/
structure MList (V : Type) where
  len : ℕ
  comp : Option (V → V → ℤ)
  dtor : Bool
  data : Option ℕ
  heap : ℕ → Option (ListNode V)
  created : ℕ
  destroyed : List V

structure ListItr where
  elem : ListSlot
  diff : ℤ
  deriving DecidableEq, Repr

namespace MList

variable {V : Type}

def read (l : MList V) : ListSlot → Option (Option ℕ)
  | .data => some l.data
  | .next n => (l.heap n).map ListNode.next

def write (l : MList V) (slot : ListSlot) (value : Option ℕ) : Option (MList V) :=
  match slot with
  | .data => some { l with data := value }
  | .next n => (l.heap n).map (fun node =>
      { l with heap := Function.update l.heap n (some { node with next := value }) })

def free (l : MList V) (n : ℕ) : MList V := { l with heap := Function.update l.heap n none }

def callDtor (l : MList V) (userptr : V) : MList V :=
  if l.dtor then { l with destroyed := l.destroyed ++ [userptr] } else l

/-- A new node with its fields set; nothing leads to it yet. -/
def newNode (l : MList V) (data : V) (next : Option ℕ) : MList V :=
  { l with
    heap := Function.update l.heap l.created (some ⟨data, next⟩)
    created := l.created + 1 }

/-- `insert_node`; `mem` tells whether `malloc` gives a node. -/
def insertNode (l : MList V) (elem : ListSlot) (data : V) (mem : Bool) :
    Option (ℤ × MList V) :=
  if mem then do
    let next ← l.read elem
    let l' ← (l.newNode data next).write elem (some l.created)
    some (0, { l' with len := l'.len + 1 })
  else some (-ENOMEM, l)

def removeNode (l : MList V) (elem : ListSlot) : Option (ℤ × MList V) := do
  match ← l.read elem with
  | none => some (-ENOENT, l)
  | some tmp =>
      let node ← l.heap tmp
      let l ← l.write elem node.next
      let l := (l.callDtor node.userptr).free tmp
      some (0, { l with len := l.len - 1 })

def mListNew (comp : Option (V → V → ℤ)) (dtor : Bool) : MList V where
  len := 0
  comp := comp
  dtor := dtor
  data := none
  heap := fun _ => none
  created := 0
  destroyed := []

def mListLen (l : MList V) : ℤ := l.len

/-- `m_list_itr_new`; `mem` tells whether `calloc` gives an iterator. -/
def mListItrNew (l : MList V) (mem : Bool) : Option ListItr :=
  if l.len > 0 then
    if mem then some ⟨.data, 0⟩ else none
  else none

/-- `m_list_itr_next`; the iterator is `none` once it is freed. -/
def mListItrNext (l : MList V) (itr : Option ListItr) : Option (ℤ × Option ListItr) :=
  match itr with
  | none => some (-EINVAL, none)
  | some i => do
      match ← l.read i.elem with
      | none => some (0, none)
      | some n =>
          let elem := if i.diff ≥ 0 then .next n else i.elem
          match ← l.read elem with
          | none => some (0, none)
          | some _ => some (0, some ⟨elem, 0⟩)

def mListItrGetData (l : MList V) (itr : Option ListItr) : Option (Option V) :=
  match itr with
  | none => some none
  | some i => do
      match ← l.read i.elem with
      | none => some none
      | some n => some (some (← l.heap n).userptr)

def mListItrInsert (l : MList V) (itr : Option ListItr) (value : Option V) (mem : Bool) :
    Option (ℤ × MList V × Option ListItr) :=
  match itr, value with
  | some i, some value => do
      let (ret, l) ← l.insertNode i.elem value mem
      some (ret, l, some { i with diff := i.diff + 1 })
  | itr, _ => some (-EINVAL, l, itr)

def mListItrRemove (l : MList V) (itr : Option ListItr) :
    Option (ℤ × MList V × Option ListItr) :=
  match itr with
  | none => some (-EINVAL, l, none)
  | some i => do
      match ← l.read i.elem with
      | none => some (-EINVAL, l, some i)
      | some _ =>
          let (ret, l) ← l.removeNode i.elem
          some (ret, l, some { i with diff := i.diff - 1 })

/-- The loops of `m_list_insert` and `m_list_remove`: from node to node, until one stops. -/
def seekSlot (l : MList V) (stop : V → Bool) : ℕ → ListSlot → Option ListSlot
  | 0, tmp => some tmp
  | left + 1, tmp => do
      let n ← ← l.read tmp
      let node ← l.heap n
      if stop node.userptr then some tmp else seekSlot l stop left (.next n)

def mListInsert (l : MList V) (data : Option V) (mem : Bool) : Option (ℤ × MList V) :=
  match data with
  | none => some (-EINVAL, l)
  | some data => do
      let tmp ← match l.comp with
        | none => some .data
        | some comp => l.seekSlot (fun userptr => comp data userptr = 0) l.len .data
      l.insertNode tmp data mem

/-- Whether `m_list_remove` looks for the element. -/
def hits [DecidableEq V] (l : MList V) (data userptr : V) : Bool :=
  (match l.comp with
    | none => false
    | some comp => comp data userptr = 0) || userptr = data

def mListRemove [DecidableEq V] (l : MList V) (data : Option V) : Option (ℤ × MList V) :=
  if l.len > 0 then
    match data with
    | none => some (-EINVAL, l)
    | some data => do
        let tmp ← l.seekSlot (l.hits data) l.len .data
        l.removeNode tmp
  else some (-EINVAL, l)

/-- A call that changes a list without an iterator of the user. -/
inductive Call (V : Type) where
  | insert (data : Option V) (mem : Bool)
  | remove (data : Option V)

def exec [DecidableEq V] (l : MList V) : Call V → Option (ℤ × MList V)
  | .insert data mem => l.mListInsert data mem
  | .remove data => l.mListRemove data

def runCalls [DecidableEq V] (l : MList V) : List (Call V) → Option (MList V)
  | [] => some l
  | call :: calls => do
      let (_, l) ← l.exec call
      runCalls l calls

end MList

end Libmodule
