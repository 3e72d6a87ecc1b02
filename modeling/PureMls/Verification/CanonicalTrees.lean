import PureMls.Foundation.SideBySide
import PureMls.Verification.Receiving

/-! # Trees that are alike

Trees with one canonical form stay alike under every operation, and nothing that is computed from
them tells them apart. -/

namespace PureMls

open SideBySide

variable {C : Crypto}

namespace RatchetTree

/-- One tree, as far as the wire can tell. -/
abbrev Alike (tree t : RatchetTree) : Prop := tree.canon = t.canon

variable {tree t target u : RatchetTree}

theorem Alike.congr {α : Type} {f : RatchetTree → α} (h : tree.Alike t)
    (hf : ∀ t, f t.canon = f t) : f tree = f t := by
  rw [← hf tree, h, hf t]

theorem Alike.length (h : tree.Alike t) : tree.nodes.length = t.nodes.length :=
  h.congr (f := fun t => t.nodes.length) length_canon

theorem Alike.numLeaves (h : tree.Alike t) : tree.numLeaves = t.numLeaves := h.congr canon_numLeaves

/-! ## Changing a node -/

theorem Alike.set (h : tree.Alike t) (index : ℕ) {node node' : Option Node}
    (hnode : node.map Node.canon = node'.map Node.canon) :
    Alike { tree with nodes := tree.nodes.set index node }
      { t with nodes := t.nodes.set index node' } := by
  have hnodes := congrArg (·.nodes) h
  simp only [canon] at hnodes
  simp only [Alike, canon, List.map_set, hnodes, hnode, h.numLeaves]

theorem Alike.setLeaf (h : tree.Alike t) (index : ℕ) {leaf leaf' : LeafNode}
    (hleaf : leaf.canon = leaf'.canon) :
    Related Alike (tree.setLeaf index leaf) (t.setLeaf index leaf') := by
  unfold RatchetTree.setLeaf
  rw [h.length]
  refine .bind_same fun _ => .bind_same fun _ => .ok (h.set index ?_)
  rw [Option.map_some, Option.map_some, Node.canon_leaf, Node.canon_leaf, hleaf]

theorem Alike.setParent (h : tree.Alike t) (index : ℕ) (parent : ParentNode) :
    Related Alike (tree.setParent index parent) (t.setParent index parent) := by
  unfold RatchetTree.setParent
  rw [h.length]
  exact .bind_same fun _ => .bind_same fun _ => .ok (h.set index rfl)

theorem Alike.blankNodes (h : tree.Alike t) (indices : List ℕ) :
    (indices.foldl blankNode tree).Alike (indices.foldl blankNode t) := by
  induction indices generalizing tree t with
  | nil => exact h
  | cons index indices ih => exact ih (h.set index rfl)

/-- The entries of alike trees, each with its place. -/
theorem Alike.entries (h : tree.Alike t) :
    List.Forall₂ (fun a b : Option Node × ℕ => a.1.map Node.canon = b.1.map Node.canon ∧ a.2 = b.2)
      tree.nodes.zipIdx t.nodes.zipIdx := by
  have hnodes := congrArg (·.nodes.zipIdx) h
  simp only [canon, List.zipIdx_map] at hnodes
  rw [← List.forall₂_eq_eq_eq, List.forall₂_map_left_iff, List.forall₂_map_right_iff] at hnodes
  exact hnodes.imp fun a b hab => Prod.mk.inj hab

theorem Alike.copyNodes (h : tree.Alike t) (htarget : target.Alike u) :
    Related Alike (tree.copyNodes target) (t.copyNodes u) := by
  refine Related.foldlM ?_ h.entries htarget
  rintro acc acc' ⟨node, i⟩ ⟨node', _⟩ hacc ⟨hnode, rfl⟩
  rcases node with _ | leaf | parent <;> rcases node' with _ | leaf' | parent' <;> try cases hnode
  · exact .ok hacc
  · exact hacc.setLeaf i (Node.leaf.inj (Option.some.inj hnode))
  · exact hacc.setParent i parent

/-! ## What is computed from a tree -/

theorem isSome_getNode_canon (i : ℕ) : (tree.canon.getNode i).isSome = (tree.getNode i).isSome := by
  rw [getNode_canon, Option.isSome_map]

theorem rightmost_canon (tree : RatchetTree) : tree.canon.rightmost = tree.rightmost := by
  simp only [rightmost, length_canon, isSome_getNode_canon]

theorem canon_truncate (tree : RatchetTree) : tree.truncate.canon = tree.canon.truncate := by
  unfold truncate
  rw [rightmost_canon]
  cases tree.rightmost with
  | none => rfl
  | some last => simp only [canon, List.map_take]

theorem Alike.truncate (h : tree.Alike t) : tree.truncate.Alike t.truncate := by
  rw [Alike, canon_truncate, h, canon_truncate]

private theorem subtreeHashLoop_canon (fuel i : ℕ) :
    tree.canon.subtreeHashLoop C fuel i = tree.subtreeHashLoop C fuel i := by
  induction fuel generalizing i with
  | zero => rfl
  | succ fuel ih =>
      have hget : tree.canon.nodes[i]? = (tree.nodes[i]?).map (Option.map Node.canon) := by
        simp only [canon, List.getElem?_map]
      rw [subtreeHashLoop, subtreeHashLoop, hget]
      rcases tree.nodes[i]? with _ | _ | leaf | parent
      · rfl
      · simp only [Option.map_some, Option.map_none, ih]
      · have hhash := leafHashInput_canon i (some (.leaf leaf))
        rw [Option.map_some, Node.canon_leaf] at hhash
        simp only [Option.map_some, Node.canon_leaf, hhash, ih]
      · simp only [Option.map_some, Node.canon_parent, ih]

theorem subtreeHash_canon (tree : RatchetTree) (index : Option ℕ) :
    tree.canon.subtreeHash C index = tree.subtreeHash C index := by
  cases index with
  | none => rfl
  | some i => exact subtreeHashLoop_canon 34 i

theorem Alike.directPath (h : tree.Alike t) (i : ℕ) : tree.directPath i = t.directPath i :=
  h.congr (f := fun t => t.directPath i) fun _ => directPath_canon i

theorem Alike.copath (h : tree.Alike t) (i : ℕ) : tree.copath i = t.copath i :=
  h.congr (f := fun t => t.copath i) fun _ => copath_canon i

theorem Alike.removeLeaf (h : tree.Alike t) (index : ℕ) :
    Related Alike (tree.removeLeaf index) (t.removeLeaf index) := by
  unfold RatchetTree.removeLeaf
  rw [h.length]
  refine .bind_same fun _ => .bind_same fun _ => ?_
  have hblank : (tree.blankNode index).Alike (t.blankNode index) := h.set index rfl
  dsimp only
  rw [hblank.directPath]
  exact .bind_same fun direct => .ok (hblank.blankNodes direct).truncate

end RatchetTree

namespace MLSGroup

open RatchetTree

variable {tree t : RatchetTree}

theorem placement_canon (tree : RatchetTree) : placement tree.canon = placement tree := by
  have hblank : ∀ i, (tree.canon.getNode i).isNone = (tree.getNode i).isNone := by
    intro i
    rw [getNode_canon, Option.isNone_map]
  simp only [placement, canon_numLeaves, hblank]

theorem placeLeaf_alike (h : tree.Alike t) {leaf leaf' : LeafNode}
    (hleaf : leaf.canon = leaf'.canon) :
    Related RatchetTree.Alike (placeLeaf tree leaf) (placeLeaf t leaf') := by
  unfold placeLeaf
  rw [h.congr placement_canon]
  dsimp only
  refine (h.copyNodes rfl).bind fun copied copied' hcopied => ?_
  refine (hcopied.setLeaf _ hleaf).bind fun placed placed' hplaced => ?_
  rw [hplaced.directPath]
  exact .bind_same fun ancestors => .ok (hplaced.blankNodes ancestors)

/-! ## Building a path -/

theorem setPathParents_alike (h : tree.Alike t) (path : List (ℕ × Option ℕ × Bytes)) :
    Related (fun a b => a.1.Alike b.1 ∧ a.2 = b.2) (setPathParents C tree path)
      (setPathParents C t path) := by
  induction path with
  | nil => exact .ok ⟨h, rfl⟩
  | cons entry path ih =>
      obtain ⟨dp, cop, pub⟩ := entry
      refine ih.bind fun a b hab => ?_
      obtain ⟨above, hash⟩ := a
      obtain ⟨above', _⟩ := b
      obtain ⟨habove, rfl⟩ := hab
      dsimp only
      rw [habove.congr (f := fun t => t.subtreeHash C cop) fun t => subtreeHash_canon t cop]
      refine .bind_same fun sibling => .bind_same fun parentHash => ?_
      exact (habove.setParent dp _).map fun _ _ hset => ⟨hset, rfl⟩

theorem sealResolution_canon (tree : RatchetTree) (ctx : GroupContext) (ephemeral : ℕ → KemKey)
    (pathSecret : Bytes) (j : ℕ) (resolved : List ℕ) :
    sealResolution C tree.canon ctx ephemeral pathSecret j resolved =
      sealResolution C tree ctx ephemeral pathSecret j resolved := by
  induction resolved generalizing j with
  | nil => rfl
  | cons index resolved ih =>
      rw [sealResolution, sealResolution, getNode_canon]
      cases tree.getNode index with
      | none => exact ih (j + 1)
      | some node => simp only [Option.map_some, Node.publicKey_canon, ih]

theorem sealPath_canon (tree : RatchetTree) (ctx : GroupContext) (ephemeral : ℕ → ℕ → KemKey)
    (i : ℕ) (path : List (Option ℕ × Bytes × Bytes)) :
    sealPath C tree.canon ctx ephemeral i path = sealPath C tree ctx ephemeral i path := by
  induction path generalizing i with
  | nil => rfl
  | cons entry path ih =>
      obtain ⟨cop, pathSecret, pub⟩ := entry
      simp only [sealPath, resolution_canon, sealResolution_canon, ih]

/-- A seal to a leaf that looks at its encryption key and reference only. -/
def SealsCanon (sealLeaf : LeafSeal) : Prop :=
  ∀ ctx ephemeral leaf secret, sealLeaf ctx ephemeral (LeafNode.canon leaf) secret =
    sealLeaf ctx ephemeral leaf secret

theorem sealsCanon_refFirst : SealsCanon (sealLeafRefFirst C) := by
  intro ctx ephemeral leaf secret
  simp only [sealLeafRefFirst, makeKpRef_canon, LeafNode.canon_encryptionKey]

theorem sealsCanon_sealFirst : SealsCanon (sealLeafSealFirst C) := by
  intro ctx ephemeral leaf secret
  simp only [sealLeafSealFirst, makeKpRef_canon, LeafNode.canon_encryptionKey]

theorem sealFallback_canon {sealLeaf : LeafSeal} (hseals : SealsCanon sealLeaf) (tree : RatchetTree)
    (ctx : GroupContext) (ephemeral : ℕ → KemKey) (commitSecret : Bytes) (ownNode : ℕ)
    (indices : List ℕ) :
    sealFallback sealLeaf tree.canon ctx ephemeral commitSecret ownNode indices =
      sealFallback sealLeaf tree ctx ephemeral commitSecret ownNode indices := by
  unfold sealFallback
  congr 1
  funext secrets index
  rw [getLeaf_canon]
  cases tree.getLeaf index with
  | none => rfl
  | some leaf => simp only [Option.map_some, hseals ctx _ leaf]

end MLSGroup

end PureMls
