import Mathlib.Logic.Function.Basic
import PureMls.Model.RatchetTree

/-! # Trees as objects

What `remove_leaf` does to the interpreter's objects: a tree object refers to its node array, and
`copy.deepcopy` makes a new object with a new array. Nodes are never written to and stay values. -/

namespace PureMls

/-- A `RatchetTree` object; `nodes` is the place of its array. -/
structure TreeObject where
  numLeaves : ℕ
  nodes : ℕ

/-- A list of nodes, or a tuple once the tree is frozen. -/
structure NodeArray where
  frozen : Bool
  entries : List (Option Node)

/-- The objects by their places, and the first places that are free. -/
structure Heap where
  trees : ℕ → TreeObject
  arrays : ℕ → NodeArray
  freeTree : ℕ
  freeArray : ℕ

/-- A call on objects leaves a heap behind even when it raises. -/
abbrev Proc (α : Type) := ExceptT Fault (StateM Heap) α

namespace Proc

def call {α : Type} (proc : Proc α) (heap : Heap) : Py α × Heap := proc heap

def lift {α : Type} (x : Py α) : Proc α := fun heap => (x, heap)

end Proc

namespace Heap

variable (heap : Heap) (ref : ℕ)

/-- `nodes` of the tree at `ref`. -/
def array : NodeArray := heap.arrays (heap.trees ref).nodes

/-- The value of the tree at `ref`. -/
def tree : RatchetTree := ⟨(heap.trees ref).numLeaves, (heap.array ref).entries⟩

def copyTree : Heap where
  trees := Function.update heap.trees heap.freeTree ⟨(heap.trees ref).numLeaves, heap.freeArray⟩
  arrays := Function.update heap.arrays heap.freeArray (heap.array ref)
  freeTree := heap.freeTree + 1
  freeArray := heap.freeArray + 1

def setArray (array : NodeArray) : Heap :=
  { heap with arrays := Function.update heap.arrays (heap.trees ref).nodes array }

def newArray (entries : List (Option Node)) : Heap :=
  { heap with
    trees := Function.update heap.trees ref ⟨(heap.trees ref).numLeaves, heap.freeArray⟩
    arrays := Function.update heap.arrays heap.freeArray ⟨false, entries⟩
    freeArray := heap.freeArray + 1 }

def setNumLeaves (numLeaves : ℕ) : Heap :=
  { heap with trees := Function.update heap.trees ref ⟨numLeaves, (heap.trees ref).nodes⟩ }

end Heap

namespace TreeObject

/-- `copy.deepcopy(self)` -/
def deepcopy (self : ℕ) : Proc ℕ := fun heap => (.ok heap.freeTree, heap.copyTree self)

/-- `tree.nodes = entries`, a new list. -/
def assignNodes (ref : ℕ) (entries : List (Option Node)) : Proc Unit :=
  fun heap => (.ok (), heap.newArray ref entries)

/-- `tree.num_leaves = numLeaves` -/
def assignNumLeaves (ref numLeaves : ℕ) : Proc Unit :=
  fun heap => (.ok (), heap.setNumLeaves ref numLeaves)

/-- `tree.nodes[index] = None` -/
def storeNone (ref index : ℕ) : Proc Unit := fun heap =>
  let array := heap.array ref
  if array.frozen then (.error (.typeError "'tuple' object does not support item assignment"), heap)
  else if array.entries.length ≤ index then (.error .indexError, heap)
  else (.ok (), heap.setArray ref { array with entries := array.entries.set index none })

/-- `tree.nodes` and the value of the tree, as it stands. -/
def read (ref : ℕ) : Proc (NodeArray × RatchetTree) :=
  fun heap => (.ok (heap.array ref, heap.tree ref), heap)

/-- `for ancestor in ancestors: tree.nodes[ancestor] = None` -/
def storeNones (ref : ℕ) : List ℕ → Proc Unit
  | [] => pure ()
  | ancestor :: ancestors => do
    storeNone ref ancestor
    storeNones ref ancestors

/-- `if isinstance(tree.nodes, tuple): tree.nodes = list(tree.nodes)` -/
def thaw (ref : ℕ) : Proc Unit := do
  let (array, _) ← read ref
  if array.frozen then assignNodes ref array.entries else pure ()

/-- Drop trailing blank leaves. -/
def truncate (ref : ℕ) : Proc Unit := do
  let (array, value) ← read ref
  match value.rightmost with
  | none => do
    assignNumLeaves ref 0
    assignNodes ref []
  | some last => do
    let newNumLeaves := nextPow2 (last / 2 + 1)
    assignNodes ref (array.entries.take (2 * newNumLeaves - 1))
    assignNumLeaves ref newNumLeaves

/-- `remove_leaf`: the place of the returned tree. -/
def removeLeaf (self leafIndex : ℕ) : Proc ℕ := do
  let (_, value) ← read self
  Proc.lift (Py.require (leafIndex % 2 = 0) (.valueError "leaf_index must be even (leaf node)"))
  Proc.lift (Py.require (leafIndex < value.nodes.length) (.valueError
    s!"leaf_index {leafIndex} out of bounds (tree has {value.nodes.length} nodes)"))
  let tree ← deepcopy self
  thaw tree
  storeNone tree leafIndex
  let (_, value) ← read tree
  let ancestors ← Proc.lift (value.directPath leafIndex)
  storeNones tree ancestors
  truncate tree
  pure tree

end TreeObject

end PureMls
