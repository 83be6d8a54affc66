import Libmodule.Errno
import Mathlib.Data.Finset.Card
import Mathlib.Logic.Function.Basic

/-!
# The binary search tree

The tree of `structs/bst.c` on an explicit heap: nodes with a parent pointer,
and pointers to the pointers that lead to them.  An access to a node that is
not allocated is a fault, written `none`, and so is a comparison that reads
memory it may not read.  The loops of the source take the length of the tree
as a bound on their rounds.

Calls of the user's destructor are recorded in the tree, in order.
-/

namespace Libmodule

structure BstNode (V : Type) where
  userptr : V
  parent : Option ℕ
  right : Option ℕ
  left : Option ℕ

/-- The address of a pointer to a node: `&l->root`, a field of a node, or the
field of an iterator that holds `prev`. -/
inductive NodeSlot where
  | root
  | left (n : ℕ)
  | right (n : ℕ)
  | parent (n : ℕ)
  | prev (value : Option ℕ)
  deriving DecidableEq, Repr

structure Bst (V : Type) where
  len : ℕ
  root : Option ℕ
  heap : ℕ → Option (BstNode V)
  comp : V → V → Option ℤ
  dtor : Bool
  destroyed : List V := []

structure BstItr where
  removed : Bool
  curr : NodeSlot
  prev : Option ℕ
  deriving DecidableEq, Repr

/-- What `calloc` answers: an address that holds no live node. -/
structure NodeAlloc (V : Type) where
  calloc : (ℕ → Option (BstNode V)) → Option ℕ
  fresh : ∀ heap n, calloc heap = some n → heap n = none

/-- The allocator that takes the first free address below `size`. -/
def NodeAlloc.firstFree {V : Type} (size : ℕ) : NodeAlloc V where
  calloc := fun heap => (List.range size).find? (fun n => (heap n).isNone)
  fresh := by
    intro heap n hfind
    simpa using List.find?_some hfind

namespace Bst

variable {V : Type}

def read (l : Bst V) : NodeSlot → Option (Option ℕ)
  | .root => some l.root
  | .left n => (l.heap n).map BstNode.left
  | .right n => (l.heap n).map BstNode.right
  | .parent n => (l.heap n).map BstNode.parent
  | .prev value => some value

def setNode (l : Bst V) (n : ℕ) (f : BstNode V → BstNode V) : Option (Bst V) :=
  (l.heap n).map (fun node => { l with heap := Function.update l.heap n (some (f node)) })

def write (l : Bst V) (slot : NodeSlot) (value : Option ℕ) : Option (Bst V) :=
  match slot with
  | .root => some { l with root := value }
  | .left n => l.setNode n (fun node => { node with left := value })
  | .right n => l.setNode n (fun node => { node with right := value })
  | .parent n => l.setNode n (fun node => { node with parent := value })
  | .prev _ => none

def insertNode (alloc : NodeAlloc V) (l : Bst V) (elem : NodeSlot) (parent : Option ℕ)
    (data : V) : Option (ℤ × Bst V) :=
  match alloc.calloc l.heap with
  | none => some (-ENOMEM, l)
  | some n => do
      let l ← write { l with heap := Function.update l.heap n (some ⟨data, parent, none, none⟩) }
        elem (some n)
      some (0, { l with len := l.len + 1 })

def minFrom (l : Bst V) : ℕ → NodeSlot → Option NodeSlot
  | 0, _ => none
  | rounds + 1, slot => do
      let n ← ← l.read slot
      let node ← l.heap n
      if node.left.isSome then minFrom l rounds (.left n) else some slot

def findMinSubtree (l : Bst V) (slot : NodeSlot) : Option NodeSlot :=
  l.minFrom l.len slot

def setParent (l : Bst V) (child parent : Option ℕ) : Option (Bst V) :=
  match child with
  | none => some l
  | some c => l.setNode c (fun node => { node with parent := parent })

/-- The branch of `remove_node` for a node with at most one child. -/
def unlinkNode (l : Bst V) (elem : NodeSlot) (n : ℕ) (node : BstNode V) :
    Option (ℤ × Bst V) := do
  let child := if node.left.isSome then node.left else node.right
  let l ← l.write elem child
  let l ← l.setParent child node.parent
  some (0, { l with
    heap := Function.update l.heap n none
    len := l.len - 1
    destroyed := if l.dtor then l.destroyed ++ [node.userptr] else l.destroyed })

def removeFrom (l : Bst V) : ℕ → NodeSlot → Option (ℤ × Bst V)
  | 0, _ => none
  | rounds + 1, elem => do
      match ← l.read elem with
      | none => some (-ENOENT, l)
      | some n =>
          let node ← l.heap n
          if node.left.isNone || node.right.isNone then l.unlinkNode elem n node
          else
            let tmp ← l.findMinSubtree (.right n)
            let succ ← ← l.read tmp
            let data := (← l.heap succ).userptr
            let l ← l.setNode n (fun x => { x with userptr := data })
            removeFrom l rounds tmp

def removeNode (l : Bst V) (elem : NodeSlot) : Option (ℤ × Bst V) :=
  l.removeFrom (l.len + 1) elem

def findFrom (l : Bst V) (data : V) :
    ℕ → NodeSlot → Option ℕ → Option (NodeSlot × Option ℕ)
  | 0, _, _ => none
  | rounds + 1, slot, parent => do
      match ← l.read slot with
      | none => some (slot, parent)
      | some n =>
          let node ← l.heap n
          let ret ← l.comp data node.userptr
          if ret ≠ 0 then
            if ret > 0 then findFrom l data rounds (.right n) (some n)
            else findFrom l data rounds (.left n) (some n)
          else some (slot, parent)

/-- The slot of the node equal to `data`, or of its place, with the last node
passed on the way. -/
def bstFind (l : Bst V) (data : V) : Option (NodeSlot × Option ℕ) :=
  l.findFrom data (l.len + 1) .root none

/-- The loop of `bst_next` that moves up out of right subtrees. -/
def climb (l : Bst V) : ℕ → NodeSlot → NodeSlot → Option NodeSlot
  | 0, _, _ => none
  | rounds + 1, node, parent => do
      match ← l.read parent with
      | none => some parent
      | some p =>
          let right := (← l.heap p).right
          let cur ← l.read node
          if cur = right then climb l rounds parent (.parent p) else some parent

def bstNext (l : Bst V) (slot : NodeSlot) : Option NodeSlot := do
  match ← l.read slot with
  | none => some slot
  | some n =>
      let node ← l.heap n
      if node.right.isSome then l.findMinSubtree (.right n)
      else l.climb l.len slot (.parent n)

/-! ## Public functions -/

def mBstNew (comp : V → V → Option ℤ) (dtor : Bool) : Bst V where
  len := 0
  root := none
  heap := fun _ => none
  comp := comp
  dtor := dtor

def mBstInsert (alloc : NodeAlloc V) (l : Bst V) (data : Option V) : Option (ℤ × Bst V) :=
  match data with
  | none => some (-EINVAL, l)
  | some data => do
      let (node, parent) ← l.bstFind data
      match ← l.read node with
      | some _ => some (-EEXIST, l)
      | none => l.insertNode alloc node parent data

def mBstRemove (l : Bst V) (data : Option V) : Option (ℤ × Bst V) :=
  if l.len > 0 then
    match data with
    | none => some (-EINVAL, l)
    | some data => do
        let (node, _) ← l.bstFind data
        l.removeNode node
  else some (-EINVAL, l)

def mBstFind (l : Bst V) (data : Option V) : Option (Option V) :=
  match data with
  | none => some none
  | some data => do
      let (node, _) ← l.bstFind data
      match ← l.read node with
      | none => some none
      | some n => some (some (← l.heap n).userptr)

/-- `m_bst_itr_new`; `mem` tells whether `calloc` gives an iterator. -/
def mBstItrNew (mem : Bool) (l : Bst V) : Option (Option BstItr) :=
  if l.len > 0 then
    if mem then do
      let curr ← l.findMinSubtree .root
      some (some ⟨false, curr, none⟩)
    else some none
  else some none

/-- `m_bst_itr_next` on a live iterator; `none` is the end of the iteration. -/
def itrStep (l : Bst V) (i : BstItr) : Option (Option BstItr) := do
  let moved ←
    if i.removed then
      match i.prev with
      | some n => do some (some n, ← l.bstNext (.prev (some n)))
      | none =>
          if l.root.isSome then do some (none, ← l.findMinSubtree .root)
          else some (none, .root)
    else do some (← l.read i.curr, ← l.bstNext i.curr)
  match ← l.read moved.2 with
  | none => some none
  | some _ => some (some ⟨false, moved.2, moved.1⟩)

def mBstItrNext (l : Bst V) (itr : Option BstItr) : Option (ℤ × Option BstItr) :=
  match itr with
  | none => some (-EINVAL, none)
  | some i => do some (0, ← l.itrStep i)

/-- The slot through which its parent sees the node `n`. -/
def normalizedSlot (l : Bst V) (n : ℕ) : Option NodeSlot := do
  match (← l.heap n).parent with
  | none => some .root
  | some p => if (← l.heap p).right = some n then some (.right p) else some (.left p)

def mBstItrRemove (l : Bst V) (itr : Option BstItr) : Option (ℤ × Bst V × Option BstItr) :=
  match itr with
  | none => some (-EINVAL, l, none)
  | some i =>
      if i.removed then some (-EINVAL, l, some i)
      else do
        match ← l.read i.curr with
        | none => some (-EINVAL, l, some i)
        | some n =>
            let node ← l.normalizedSlot n
            let (ret, l) ← l.removeNode node
            some (ret, l, some { i with removed := decide (ret = 0) })

def mBstItrGetData (l : Bst V) (itr : Option BstItr) : Option (Option V) :=
  match itr with
  | none => some none
  | some i =>
      if i.removed then some none
      else do
        match ← l.read i.curr with
        | none => some none
        | some n => some (some (← l.heap n).userptr)

/-- The loop of `m_bst_clear`: remove the current node, then advance. -/
def clearFrom : ℕ → Bst V → BstItr → Option (Bst V)
  | 0, _, _ => none
  | rounds + 1, l, i => do
      let (_, l, itr) ← l.mBstItrRemove (some i)
      match ← l.mBstItrNext itr with
      | (_, some i) => clearFrom rounds l i
      | (_, none) => some l

def mBstClear (mem : Bool) (l : Bst V) : Option (ℤ × Bst V) :=
  if l.len > 0 then do
    let l ← match ← l.mBstItrNew mem with
      | some i => clearFrom l.len l i
      | none => some l
    some (0, { l with root := none })
  else some (-EINVAL, l)

def mBstLen (l : Bst V) : ℤ := l.len

end Bst

end Libmodule
