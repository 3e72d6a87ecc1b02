import PureMls.Model.Leaf

/-! # The ratchet tree

Left-balanced binary tree of keys in array form, leaves at even indices. The walks of
the tree mathematics take an explicit number of rounds that no terminating walk uses up;
a walk that does use it up never ends. -/

namespace PureMls

/-- `while p < n: p <<= 1`; `n` rounds suffice. -/
def nextPow2Loop (n : ℕ) : ℕ → ℕ → ℕ
  | 0, p => p
  | fuel + 1, p => if p < n then nextPow2Loop n fuel (p <<< 1) else p

def nextPow2 (n : ℕ) : ℕ := nextPow2Loop n n 1

structure RatchetTree where
  numLeaves : ℕ
  nodes : List (Option Node)
  deriving DecidableEq

namespace RatchetTree

/-- `RatchetTree(num_leaves)` -/
def new (numLeaves : ℕ) : RatchetTree :=
  ⟨numLeaves, if 0 < numLeaves then List.replicate (2 * numLeaves - 1) none else []⟩

variable (tree : RatchetTree)

def setLeaf (index : ℕ) (leaf : LeafNode) : Py RatchetTree := do
  Py.require (index % 2 = 0) (.valueError "Leaves must be at even indices")
  Py.require (index < tree.nodes.length) .indexError
  pure { tree with nodes := tree.nodes.set index (some (.leaf leaf)) }

def setParent (index : ℕ) (parent : ParentNode) : Py RatchetTree := do
  Py.require (index % 2 = 1) (.valueError "Parents must be at odd indices")
  Py.require (index < tree.nodes.length) .indexError
  pure { tree with nodes := tree.nodes.set index (some (.parent parent)) }

def blankNode (index : ℕ) : RatchetTree := { tree with nodes := tree.nodes.set index none }

def getNode (index : ℕ) : Option Node := (tree.nodes[index]?).join

/-- The leaf at node index `index`, if there is a LeafNode there. -/
def getLeaf (index : ℕ) : Option LeafNode :=
  match tree.getNode index with
  | some (.leaf leaf) => some leaf
  | _ => none

/-- Copy the nodes of `tree` one by one into `target`. -/
def copyNodes (target : RatchetTree) : Py RatchetTree :=
  tree.nodes.zipIdx.foldlM (fun acc entry =>
    match entry.1 with
    | some (.leaf leaf) => acc.setLeaf entry.2 leaf
    | some (.parent parent) => acc.setParent entry.2 parent
    | none => pure acc) target

/-! ## Tree mathematics -/

def levelLoop (index : ℕ) : ℕ → ℕ → ℕ
  | 0, k => k
  | rounds + 1, k => if (index >>> k) &&& 0x01 = 1 then levelLoop index rounds (k + 1) else k

/-- The number of trailing 1-bits, counted up to 32. -/
def level (index : ℕ) : ℕ := if index &&& 0x01 = 0 then 0 else levelLoop index 32 0

def root : ℕ :=
  if tree.numLeaves ≤ 1 then 0 else (1 <<< (bitLength (2 * tree.numLeaves - 1) - 1)) - 1

/-- The parent of `x` in the unbounded tree. -/
def parentStep (x : ℕ) : ℕ :=
  let k := level x
  let b := (x >>> (k + 1)) &&& 0x01
  x ^^^ ((0x01 <<< k) ||| (b <<< (k + 1)))

/-- `while p >= w: ...`. From any `p` the walk is periodic after 34 rounds. -/
def reparent (w : ℕ) : ℕ → ℕ → Py ℕ
  | 0, _ => .error .hang
  | fuel + 1, p => if p < w then .ok p else reparent w fuel (parentStep p)

/-- `_parent` -/
def parent (x : ℕ) : Py ℕ :=
  if tree.numLeaves ≤ 1 then .ok 0
  else if x = tree.root then .ok x
  else reparent (2 * tree.numLeaves - 1) 64 (parentStep x)

/-- `_sibling` -/
def sibling (x : ℕ) : Py ℕ :=
  if tree.numLeaves ≤ 1 then .ok x
  else do
    let p ← tree.parent x
    let k := level p
    if x < p then pure (p + (1 <<< (k - 1))) else pure (p - (1 <<< (k - 1)))

def directPathLoop : ℕ → ℕ → Py (List ℕ)
  | 0, _ => .error .hang
  | fuel + 1, x => do
    let p ← tree.parent x
    if tree.nodes.length ≤ p then pure []
    else if p = tree.root then pure [p]
    else do
      let rest ← directPathLoop fuel p
      pure (p :: rest)

/-- Ancestors from the leaf, exclusive, to the root. -/
def directPath (leafIndex : ℕ) : Py (List ℕ) :=
  if leafIndex = tree.root then pure []
  else tree.directPathLoop (tree.nodes.length + 1) leafIndex

def copathLoop : ℕ → List ℕ → Py (List (Option ℕ))
  | _, [] => pure []
  | x, p :: dpath => do
    let sib ← tree.sibling x
    let rest ← copathLoop p dpath
    pure ((if sib < tree.nodes.length then some sib else none) :: rest)

/-- Siblings along the direct path; `none` is the sentinel `-1`. -/
def copath (leafIndex : ℕ) : Py (List (Option ℕ)) := do
  let dpath ← tree.directPath leafIndex
  tree.copathLoop leafIndex dpath

/-- `resolution(index, depth)` with `33 - depth` levels of recursion left. -/
def resolutionLoop : ℕ → ℕ → Py (List ℕ)
  | 0, index => .error (.runtimeError s!"Infinite recursion in resolution for index {index}")
  | fuel + 1, index =>
    match tree.nodes[index]? with
    | none => pure []
    | some node =>
      if index % 2 = 0 then pure (if node.isSome then [index] else [])
      else
        match node with
        | none => do
          let left ← resolutionLoop fuel (index - (1 <<< (level index - 1)))
          let right ← resolutionLoop fuel (index + (1 <<< (level index - 1)))
          pure (left ++ right)
        | some (.parent parent) => pure (index :: parent.unmergedLeaves.map (2 * ·))
        | some (.leaf _) => pure [index]

def resolution : Option ℕ → Py (List ℕ)
  | none => pure []
  | some index => tree.resolutionLoop 33 index

/-- The nodes whose copath side has a resolution; the sentinel has none. -/
def filterPath : List (ℕ × Option ℕ) → Py (List ℕ)
  | [] => pure []
  | (p, cp) :: path => do
    let resolved ← tree.resolution cp
    let filtered ← filterPath path
    pure (if resolved ≠ [] then p :: filtered else filtered)

/-- The direct path without the nodes whose copath side is blank. -/
def filteredDirectPath (leafIndex : ℕ) : Py (List ℕ) := do
  let dpath ← tree.directPath leafIndex
  let copath ← tree.copath leafIndex
  tree.filterPath (dpath.zip copath)

/-! ## Removal -/

/-- The greatest even index of a non-blank entry. -/
def rightmost : Option ℕ :=
  ((List.range tree.nodes.length).filter fun i => i % 2 = 0 ∧ (tree.getNode i).isSome).getLast?

/-- Drop trailing blank leaves, keeping a power-of-two leaf count. -/
def truncate : RatchetTree :=
  match tree.rightmost with
  | none => ⟨0, []⟩
  | some last =>
    let newNumLeaves := nextPow2 (last / 2 + 1)
    ⟨newNumLeaves, tree.nodes.take (2 * newNumLeaves - 1)⟩

/-- Blank a member's leaf and its direct path. -/
def removeLeaf (leafIndex : ℕ) : Py RatchetTree := do
  Py.require (leafIndex % 2 = 0) (.valueError "leaf_index must be even (leaf node)")
  Py.require (leafIndex < tree.nodes.length) (.valueError
    s!"leaf_index {leafIndex} out of bounds (tree has {tree.nodes.length} nodes)")
  let blanked := tree.blankNode leafIndex
  let ancestors ← blanked.directPath leafIndex
  pure (ancestors.foldl blankNode blanked).truncate

/-! ## Wire format -/

def entryBytes : Option Node → Py Bytes
  | none => pure [0x00]
  | some (.leaf leaf) => do
    let body ← leaf.toBytes
    pure ([0x01, 0x01] ++ body)
  | some (.parent parent) => do
    let body ← parent.toBytes
    pure ([0x01, 0x02] ++ body)

def toBytes : Py Bytes := do
  let parts ← joinBytes entryBytes tree.nodes
  let size ← tlsVarint parts.length
  pure (size ++ parts)

/-- The body of a present entry, after its presence byte. -/
def readNode : Decoder Node := do
  let nodeType ← readU8
  if nodeType = 0x01 then do
    let leaf ← LeafNode.fromBytesAt
    pure (.leaf leaf)
  else if nodeType = 0x02 then do
    let parent ← ParentNode.fromBytesAt
    pure (.parent parent)
  else
    Decoder.lift (.error (.valueError s!"Unknown node type: {hexLiteral 2 nodeType}"))

/-- One entry; a buffer that ends right after a presence byte 1 holds no further entry. -/
def readEntry : Decoder (Option (Option Node)) := fun raw i => do
  let (present, i) ← readU8 raw i
  if present = 0x00 then pure (some none, i)
  else if present = 0x01 then
    if raw.length ≤ i then pure (none, i)
    else do
      let (node, i) ← readNode raw i
      pure (some (some node), i)
  else .error (.valueError
    s!"Invalid presence byte in RatchetTree: {hexLiteral 2 present}")

/-- Round the parsed entries up to a power-of-two leaf count. -/
def ofEntries (nodes : List (Option Node)) : RatchetTree :=
  let impliedLeaves := (nodes.length + 1) / 2
  let numLeaves := if 0 < impliedLeaves then nextPow2 impliedLeaves else 0
  ⟨numLeaves, nodes ++ List.replicate (2 * numLeaves - 1 - nodes.length) none⟩

/-- `_parse` -/
def parse (raw : Bytes) : Py RatchetTree := do
  let entries ← readEntry.all raw
  pure (ofEntries entries.reduceOption)

def fromBytes (data : Bytes) : Py RatchetTree := do
  let raw ← readOpaque.run data
  parse raw

def fromBytesAt : Decoder RatchetTree := do
  let raw ← readOpaque
  Decoder.lift (parse raw)

/-! ## Tree hash -/

variable (C : Crypto)

def leafHashInput (index : ℕ) (node : Option Node) : Py Bytes := do
  let leafIndex ← tlsU32 (index / 2)
  let body ← match node with
    | none => pure [0x00]
    | some node => do
      let bytes ← node.toBytes
      pure (0x01 :: bytes)
  pure (0x01 :: leafIndex ++ body)

def parentHashInput (node : Option Node) (leftHash rightHash : Bytes) : Py Bytes := do
  let body ← match node with
    | none => pure [0x00]
    | some node => do
      let bytes ← node.toBytes
      pure (0x01 :: bytes)
  let left ← tlsOpaque leftHash
  let right ← tlsOpaque rightHash
  pure (0x02 :: body ++ left ++ right)

/-- `while right_idx >= w: ...`: every round lowers the level. -/
def reparentRight (w : ℕ) : ℕ → ℕ → Py ℕ
  | 0, _ => .error .hang
  | fuel + 1, index =>
    if index < w then .ok index
    else do
      Py.require (level index ≠ 0) (.valueError "negative shift count")
      reparentRight w fuel (index ^^^ (1 <<< (level index - 1)))

/-- `_node_hash`; a node's children are of lower level. -/
def nodeHash : ℕ → ℕ → Py Bytes
  | 0, _ => .error .hang
  | fuel + 1, index =>
    match tree.nodes[index]? with
    | none => pure (C.sha256 [0x00])
    | some node =>
      if index % 2 = 0 then C.sha256 <$> leafHashInput index node
      else do
        let k := level index
        let rightIdx ← reparentRight tree.nodes.length 64 (index ^^^ (0x03 <<< (k - 1)))
        let leftHash ← nodeHash fuel (index ^^^ (1 <<< (k - 1)))
        let rightHash ← nodeHash fuel rightIdx
        C.sha256 <$> parentHashInput node leftHash rightHash

def treeHash : Py Bytes :=
  if tree.nodes = [] then pure (C.sha256 []) else tree.nodeHash C 34 tree.root

/-- `_subtree_hash` -/
def subtreeHashLoop : ℕ → ℕ → Py Bytes
  | 0, _ => .error .hang
  | fuel + 1, index =>
    match tree.nodes[index]? with
    | none => pure (C.sha256 [])
    | some node =>
      if index % 2 = 0 then
        match node with
        | some (.parent _) => .error .assertionError
        | _ => C.sha256 <$> leafHashInput index node
      else do
        let dist := 1 <<< (level index - 1)
        let leftHash ← subtreeHashLoop fuel (index - dist)
        let rightHash ← subtreeHashLoop fuel (index + dist)
        match node with
        | some (.leaf _) => .error .assertionError
        | _ => C.sha256 <$> parentHashInput node leftHash rightHash

def subtreeHash : Option ℕ → Py Bytes
  | none => pure (C.sha256 [])
  | some index => tree.subtreeHashLoop C 34 index

end RatchetTree

/-- `_compute_parent_hash` -/
def computeParentHash (C : Crypto) (newPublicKey parentHashOfParent siblingHash : Bytes) :
    Py Bytes := do
  let label ← tlsOpaque (ascii "MLS 1.0 parent hash")
  let publicKey ← tlsOpaque newPublicKey
  let above ← tlsOpaque parentHashOfParent
  let sibling ← tlsOpaque siblingHash
  pure (C.sha256 (label ++ publicKey ++ above ++ sibling))

end PureMls
