import PureMls.Verification.TreeOps

/-! # Tree hashes -/

namespace PureMls

namespace RatchetTree

variable {C : Crypto} {tree t : RatchetTree}

/-! ## One node at a time -/

section

open CompleteTree

variable {m k j fuel : ℕ}

theorem getElem?_of_covers (h : tree.Covers m) (hk : k ≤ m) (hj : j < 2 ^ (m - k)) :
    tree.nodes[nodeAt k j]? = some (tree.getNode (nodeAt k j)) := by
  rw [getNode, List.getElem?_eq_getElem (nodeAt_lt_of_covers h hk hj)]
  rfl

theorem nodeHash_leaf (h : tree.Covers m) (hj : j < 2 ^ m) :
    tree.nodeHash C (fuel + 1) (2 * j) =
      C.sha256 <$> leafHashInput (2 * j) (tree.getNode (2 * j)) := by
  have hget := getElem?_of_covers h (Nat.zero_le m) (by rwa [Nat.sub_zero] : j < 2 ^ (m - 0))
  rw [nodeAt_zero] at hget
  rw [nodeHash, hget]
  simp only [Nat.mul_mod_right, if_true]

/-- No right child has to be looked for where the tree has it. -/
theorem nodeHash_odd {index left right : ℕ} {node : Option Node}
    (hget : tree.nodes[index]? = some node) (hodd : index % 2 = 1) (hlevel : level index = k + 1)
    (hleft : index ^^^ (1 <<< k) = left) (hright : index ^^^ (0x03 <<< k) = right)
    (hlt : right < tree.nodes.length) : tree.nodeHash C (fuel + 1) index = (do
      let leftHash ← tree.nodeHash C fuel left
      let rightHash ← tree.nodeHash C fuel right
      C.sha256 <$> parentHashInput node leftHash rightHash) := by
  have hre : reparentRight tree.nodes.length 64 right = .ok right := by
    rw [reparentRight, if_pos hlt]
  rw [nodeHash, hget]
  simp only [hodd, one_ne_zero, if_false, hlevel, Nat.add_sub_cancel, hleft, hright, hre,
    Py.ok_bind]

theorem nodeHash_parent (h : tree.Covers m) (hk32 : k < 32) (hk : k < m)
    (hj : j < 2 ^ (m - (k + 1))) :
    tree.nodeHash C (fuel + 1) (nodeAt (k + 1) j) = (do
      let left ← tree.nodeHash C fuel (nodeAt k (2 * j))
      let right ← tree.nodeHash C fuel (nodeAt k (2 * j + 1))
      C.sha256 <$> parentHashInput (tree.getNode (nodeAt (k + 1) j)) left right) := by
  have hpow := two_pow_sub_succ hk
  exact nodeHash_odd (getElem?_of_covers h hk hj) (nodeAt_succ_mod_two k j)
    (level_nodeAt (by omega))
    (xor_leftChild k j) (xor_rightChild k j) (nodeAt_lt_of_covers h (by omega) (by omega))

end

/-! ## Canonical trees -/

theorem getNode_canon (i : ℕ) : tree.canon.getNode i = (tree.getNode i).map Node.canon := by
  simp only [getNode, canon, List.getElem?_map]
  rcases tree.nodes[i]? with _ | _ | node <;> rfl

theorem getLeaf_canon (i : ℕ) : tree.canon.getLeaf i = (tree.getLeaf i).map LeafNode.canon := by
  unfold getLeaf
  rw [getNode_canon]
  rcases tree.getNode i with _ | leaf | parent <;> rfl

theorem leafHashInput_canon (i : ℕ) (node : Option Node) :
    leafHashInput i (node.map Node.canon) = leafHashInput i node := by
  cases node with
  | none => rfl
  | some node => simp only [leafHashInput, Option.map_some, Node.toBytes_canon]

theorem parentHashInput_canon (node : Option Node) (left right : Bytes) :
    parentHashInput (node.map Node.canon) left right = parentHashInput node left right := by
  cases node with
  | none => rfl
  | some node => simp only [parentHashInput, Option.map_some, Node.toBytes_canon]

private theorem nodeHash_canon (fuel i : ℕ) :
    tree.canon.nodeHash C fuel i = tree.nodeHash C fuel i := by
  induction fuel generalizing i with
  | zero => rfl
  | succ fuel ih =>
      have hget : tree.canon.nodes[i]? = (tree.nodes[i]?).map (Option.map Node.canon) := by
        simp only [canon, List.getElem?_map]
      rw [nodeHash, nodeHash, hget]
      cases tree.nodes[i]? with
      | none => rfl
      | some node =>
          simp only [Option.map_some, leafHashInput_canon, parentHashInput_canon, length_canon, ih]

theorem treeHash_canon : tree.canon.treeHash C = tree.treeHash C := by
  have hnil : tree.canon.nodes = [] ↔ tree.nodes = [] := by
    rw [canon, List.map_eq_nil_iff]
  unfold treeHash
  by_cases h : tree.nodes = []
  · rw [if_pos h, if_pos (hnil.mpr h)]
  · rw [if_neg h, if_neg (hnil.not.mpr h), nodeHash_canon]
    rfl

theorem treeHash_congr (h : tree.canon = t.canon) : tree.treeHash C = t.treeHash C := by
  rw [← treeHash_canon, h, treeHash_canon]

end RatchetTree

end PureMls
