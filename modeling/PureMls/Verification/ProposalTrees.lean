import PureMls.Verification.ParsedTrees
import PureMls.Verification.Proposals

/-! # The trees that proposals and commits leave

A proposal on a tree off the wire writes one leaf slot and blanks what is above it; the commit
renews the committer's leaf and the nodes above that. -/

namespace PureMls

open RatchetTree MLSGroup

variable {C : Crypto}

namespace RatchetTree

variable {tree t : RatchetTree}

theorem getNode_of_truncate {i : ℕ} {node : Node} (h : tree.truncate.getNode i = some node) :
    tree.getNode i = some node := by
  unfold truncate at h
  cases hlast : tree.rightmost with
  | none => simp [hlast, getNode] at h
  | some last =>
      simp only [hlast, getNode, List.getElem?_take] at h
      split_ifs at h
      · exact h
      · cases h

/-- Cutting a tree at the right leaves no leaf at all or a full tree. -/
theorem truncate_size {m : ℕ} (hcovers : tree.Covers m) (hle : tree.nodes.length ≤ 2 ^ (m + 1)) :
    tree.truncate.nodes = [] ∨ ∃ m', tree.truncate.Sized m' := by
  unfold truncate
  cases hlast : tree.rightmost with
  | none => exact .inl rfl
  | some last =>
      have hmem := List.mem_of_getLast? hlast
      rw [List.mem_filter, List.mem_range, decide_eq_true_eq] at hmem
      obtain ⟨m', hpow, -, hmin⟩ := nextPow2_spec (last / 2 + 1)
      have hm' : m' ≤ m := by
        apply hmin
        rw [pow_succ] at hle
        omega
      have hpows : 2 ^ (m' + 1) ≤ 2 ^ (m + 1) := Nat.pow_le_pow_right (by decide) (by omega)
      have htwice : 2 * 2 ^ m' = 2 ^ (m' + 1) := by ring
      refine .inr ⟨m', hpow, ?_⟩
      simp only [hpow, List.length_take, htwice]
      have hge := hcovers.2
      omega

theorem SameSize.directPath (h : tree.SameSize t) (i : ℕ) : t.directPath i = tree.directPath i := by
  have hroot : t.root = tree.root := by rw [root, root, h.1]
  have hparent : ∀ x, t.parent x = tree.parent x := fun x => by rw [parent, parent, h.1, hroot]
  have hloop : ∀ fuel x, t.directPathLoop fuel x = tree.directPathLoop fuel x := by
    intro fuel
    induction fuel with
    | zero => exact fun _ => Eq.refl _
    | succ fuel ih => exact fun x => by simp only [directPathLoop, hparent, hroot, h.2, ih]
  rw [RatchetTree.directPath, RatchetTree.directPath, hroot, h.2, hloop]

/-- No leaf is on the direct path of another. -/
theorem leaf_notMem_directPath {m l slot : ℕ} {path : List ℕ} (h : tree.Covers m) (hm : m ≤ 32)
    (hlen : tree.nodes.length ≤ 2 ^ (m + 1)) (hslot : 2 * slot < tree.nodes.length)
    (hpath : tree.directPath (2 * slot) = .ok path) : 2 * l ∉ path := by
  rw [directPath_leaf h hm (by rw [pow_succ] at hlen; omega), Except.ok.injEq] at hpath
  rw [← hpath]
  exact leaf_notMem_ancestors

theorem placement_blank (h : tree.OnWire) :
    tree.getNode (2 * ((placement tree).2 / 2)) = none := by
  obtain ⟨slot, -, ⟨hplace, -, hblank⟩ | ⟨hplace, hslot⟩⟩ := placement_cases tree
  · rwa [hplace, Nat.mul_div_cancel_left slot (by decide)]
  · rw [hplace, Nat.mul_div_cancel_left slot (by decide), hslot, getNode,
      List.getElem?_eq_none h.length_le]
    rfl

end RatchetTree

namespace Proposal

variable {p : Proposal} {tree base : RatchetTree}

/-- The tree after a proposal on a tree off the wire is full, unless it has no leaf. -/
theorem base_size (h : tree.OnWire) (hbase : p.base tree = .ok base) :
    base.nodes = [] ∨ ∃ m, base.Sized m := by
  have hnew : ∀ n t, (n = 0 ∨ ∃ m, n = 2 ^ m) → (RatchetTree.new n).SameSize t →
      t.nodes = [] ∨ ∃ m, t.Sized m := by
    rintro n t (rfl | ⟨m, rfl⟩) hsize
    · exact .inl (List.eq_nil_of_length_eq_zero (by rw [hsize.2]; rfl))
    · exact .inr ⟨m, hsize.sized (sized_new m)⟩
  have hleaves : tree.numLeaves = 0 ∨ ∃ m, tree.numLeaves = 2 ^ m := by
    rcases h with ⟨hzero, -⟩ | ⟨m, -, hcovers, -⟩
    · exact .inl hzero
    · exact .inr ⟨m, hcovers.1⟩
  cases p with
  | addMember kp =>
      simp only [Proposal.base, placeLeaf, Py.bind_eq_ok, Py.pure_eq, Except.ok.injEq] at hbase
      obtain ⟨copied, hcopied, placed, hplaced, direct, -, rfl⟩ := hbase
      have hcount : (placement tree).1 = 0 ∨ ∃ m, (placement tree).1 = 2 ^ m := by
        unfold placement
        split
        · exact hleaves
        · rcases hleaves with hzero | ⟨m, hm⟩
          · exact .inl (by simp [hzero])
          · exact .inr ⟨m + 1, by simp only [hm, pow_succ]⟩
      exact hnew _ _ hcount ((copyNodes_new hcopied).1.trans
        ((setLeaf_node hplaced).1.trans (blankNodes_sameSize direct)))
  | removeMember target =>
      simp only [Proposal.base, removeLeaf, Py.bind_eq_ok, Py.pure_eq, Except.ok.injEq,
        Py.require_eq_ok] at hbase
      obtain ⟨_, -, _, hlt, direct, -, rfl⟩ := hbase
      have hsize : tree.SameSize (direct.foldl blankNode (tree.blankNode (2 * target.toNat))) :=
        (blankNode_sameSize _).trans (blankNodes_sameSize direct)
      rcases h with ⟨-, hnil⟩ | ⟨m, -, hcovers, hle⟩
      · simp [hnil] at hlt
      · exact truncate_size ⟨hsize.1.trans hcovers.1, hsize.2 ▸ hcovers.2⟩ (hsize.2 ▸ hle)
  | updateKey => exact hnew _ _ hleaves (copyNodes_new hbase).1

/-- Every node after a proposal stood in its place before, or is the leaf that the proposal puts
there. -/
theorem base_node (hbase : p.base tree = .ok base) {i : ℕ} {node : Node}
    (hnode : base.getNode i = some node) :
    tree.getNode i = some node ∨ p.slot tree = some (i / 2) ∧ p.leaf.map .leaf = some node := by
  have hblanks : ∀ (direct : List ℕ) (t : RatchetTree),
      (direct.foldl blankNode t).getNode i = some node → t.getNode i = some node := by
    intro direct t h
    rw [getNode_blankNodes] at h
    split_ifs at h
    exact h
  cases p with
  | addMember kp =>
      simp only [Proposal.base, placeLeaf, Py.bind_eq_ok, Py.pure_eq, Except.ok.injEq] at hbase
      obtain ⟨copied, hcopied, placed, hplaced, direct, -, rfl⟩ := hbase
      have hget := hblanks _ _ hnode
      rw [(setLeaf_node hplaced).2, (copyNodes_new hcopied).2] at hget
      split_ifs at hget with hslot
      · exact .inr ⟨by rw [Proposal.slot, hslot], hget⟩
      · exact .inl hget
  | removeMember target =>
      simp only [Proposal.base, removeLeaf, Py.bind_eq_ok, Py.pure_eq, Except.ok.injEq] at hbase
      obtain ⟨_, -, _, -, direct, -, rfl⟩ := hbase
      have hget := hblanks _ _ (getNode_of_truncate hnode)
      rw [getNode_blankNode] at hget
      split_ifs at hget
      exact .inl hget
  | updateKey =>
      rw [(copyNodes_new hbase).2] at hnode
      exact .inl hnode

theorem base_leaf (hbase : p.base tree = .ok base) {l : ℕ} {leaf : LeafNode}
    (hleaf : base.getLeaf (2 * l) = some leaf) :
    tree.getLeaf (2 * l) = some leaf ∨ p.slot tree = some l ∧ p.leaf = some leaf := by
  rcases base_node hbase (getLeaf_eq_some.mp hleaf) with hget | ⟨hslot, hput⟩
  · exact .inl (getLeaf_eq_some.mpr hget)
  · rw [Nat.mul_div_cancel_left l (by decide)] at hslot
    obtain ⟨put, hput, heq⟩ := Option.map_eq_some_iff.mp hput
    exact .inr ⟨hslot, hput.trans (congrArg some (Node.leaf.inj heq))⟩

theorem base_parent (hbase : p.base tree = .ok base) {i : ℕ} {parent : ParentNode}
    (hparent : base.getNode i = some (.parent parent)) :
    tree.getNode i = some (.parent parent) := by
  rcases base_node hbase hparent with hget | ⟨-, hput⟩
  · exact hget
  · obtain ⟨_, -, heq⟩ := Option.map_eq_some_iff.mp hput
    cases heq

/-- The direct path of the leaf that is added or removed, in a tree that has the leaf. -/
def slotPath (tree t : RatchetTree) : Proposal → Py (List ℕ)
  | addMember _ => t.directPath (placement tree).2
  | removeMember target => tree.directPath (2 * target.toNat)
  | updateKey => pure []

/-- The proposal writes its slot and blanks the slot's direct path; other leaves, and other nodes in
range, are as before. -/
theorem base_frame (h : tree.OnWire) (hbase : p.base tree = .ok base) {m : ℕ} (hm : base.Sized m)
    (hm32 : m ≤ 32) :
    ∃ other, p.slotPath tree base = .ok other ∧ (∀ l, 2 * l ∉ other) ∧
      (∀ l, base.getNode (2 * l) =
        if p.slot tree = some l then p.leaf.map .leaf else tree.getNode (2 * l)) ∧
      (∀ i ∈ other, base.getNode i = none) ∧
      ∀ i < base.nodes.length, i % 2 = 1 → i ∉ other → base.getNode i = tree.getNode i := by
  cases p with
  | addMember kp =>
      simp only [Proposal.base, placeLeaf, Py.bind_eq_ok, Py.pure_eq, Except.ok.injEq] at hbase
      obtain ⟨copied, hcopied, placed, hplaced, direct, hdirect, rfl⟩ := hbase
      obtain ⟨heven, hlt, -⟩ := setLeaf_eq_ok.mp hplaced
      have hsize : placed.SameSize (direct.foldl blankNode placed) := blankNodes_sameSize direct
      have hplacedSized : placed.Sized m := hsize.symm.sized hm
      have hslot : (placement tree).2 = 2 * ((placement tree).2 / 2) := by omega
      have hnotMem : ∀ l, 2 * l ∉ direct := fun l => by
        rw [hslot] at hdirect hlt
        refine leaf_notMem_directPath hplacedSized.covers hm32 ?_ ?_ hdirect
        · rw [hplacedSized.2]
          exact Nat.sub_le _ 1
        · rwa [(setLeaf_node hplaced).1.2]
      have hget : ∀ i, i ≠ (placement tree).2 → i ∉ direct →
          (direct.foldl blankNode placed).getNode i = tree.getNode i := by
        intro i hi hmem
        rw [getNode_blankNodes, if_neg hmem, (setLeaf_node hplaced).2, if_neg (Ne.symm hi),
          (copyNodes_new hcopied).2]
      refine ⟨direct, ?_, hnotMem, fun l => ?_, fun i hi => ?_,
        fun i _ hodd hi => hget i (by omega) hi⟩
      · rw [Proposal.slotPath, hsize.directPath, hdirect]
      · rw [Proposal.slot]
        by_cases hl : (placement tree).2 / 2 = l
        · rw [if_pos (congrArg some hl), getNode_blankNodes, if_neg (hnotMem l),
            (setLeaf_node hplaced).2, if_pos (by omega)]
          rfl
        · rw [if_neg (mt Option.some.inj hl)]
          exact hget _ (by omega) (hnotMem l)
      · rw [getNode_blankNodes, if_pos hi]
  | removeMember target =>
      simp only [Proposal.base, removeLeaf, Py.bind_eq_ok, Py.pure_eq, Except.ok.injEq,
        Py.require_eq_ok] at hbase
      obtain ⟨_, -, _, hlt, direct, hdirect, rfl⟩ := hbase
      rw [(blankNode_sameSize _).directPath] at hdirect
      rcases h with ⟨-, hnil⟩ | ⟨m', hm', hcovers, hlen⟩
      · simp [hnil] at hlt
      · have hnotMem : ∀ l, 2 * l ∉ direct := fun l =>
          leaf_notMem_directPath hcovers (by omega) hlen hlt hdirect
        refine ⟨direct, hdirect, hnotMem, fun l => ?_, fun i hi => ?_, fun i hlt hodd hi => ?_⟩
        · rw [Proposal.slot, getNode_truncate_leaf, getNode_blankNodes, if_neg (hnotMem l),
            getNode_blankNode]
          by_cases hl : target.toNat = l
          · rw [if_pos (congrArg some hl), if_pos (by omega)]
            rfl
          · rw [if_neg (mt Option.some.inj hl), if_neg (by omega)]
        · cases hn :
            (direct.foldl blankNode (tree.blankNode (2 * target.toNat))).truncate.getNode i with
          | none => rfl
          | some node =>
              have hget := getNode_of_truncate hn
              rw [getNode_blankNodes, if_pos hi] at hget
              cases hget
        · rw [getNode_truncate hlt, getNode_blankNodes, if_neg hi, getNode_blankNode,
            if_neg (by omega)]
  | updateKey =>
      have hget := (copyNodes_new hbase).2
      refine ⟨[], rfl, fun _ => List.not_mem_nil, fun l => ?_,
        fun i hi => (List.not_mem_nil hi).elim, fun i _ _ _ => hget i⟩
      rw [hget, Proposal.slot, if_neg (by rintro ⟨⟩)]

end Proposal

/-! ## Trees that the commits build -/

/-- The parents of the path stand at odd indices. -/
theorem MLSGroup.getNode_setPathParents {tree t : RatchetTree} {hash : Bytes}
    {path : List (ℕ × Option ℕ × Bytes)} (h : setPathParents C tree path = .ok (t, hash)) (l : ℕ) :
    t.getNode (2 * l) = tree.getNode (2 * l) := by
  induction path generalizing t hash with
  | nil =>
      simp only [setPathParents, Py.pure_eq, Except.ok.injEq, Prod.mk.injEq] at h
      rw [h.1]
  | cons entry path ih =>
      obtain ⟨dp, cop, pub⟩ := entry
      simp only [setPathParents, Py.bind_eq_ok, Py.pure_eq, Except.ok.injEq, Prod.mk.injEq] at h
      obtain ⟨⟨inner, above⟩, hinner, _, -, _, -, final, hset, rfl, -⟩ := h
      have hodd := (setParent_eq_ok.mp hset).1
      rw [(setParent_node hset).2, if_neg (by omega), ih hinner]

namespace Built

variable {sender : MLSGroup} {coins : CommitCoins} {p : Proposal} {committed : Committed}
  (r : Built C sender coins p committed)

/-- A commit on a tree off the wire builds a full tree. -/
theorem sized (h : sender.state.tree.OnWire) : ∃ m ≤ 29, r.path.tree.Sized m := by
  obtain ⟨e, he⟩ := r.finished.tree_toBytes
  rcases Proposal.base_size h r.base_eq with hnil | ⟨m, hm⟩
  · have hlt := (setLeaf_eq_ok.mp r.path.withLeaf_eq).2.1
    rw [hnil] at hlt
    exact absurd hlt (Nat.not_lt_zero _)
  · have hsized := r.path.sameSize.sized hm
    exact ⟨m, hsized.le_29 he, hsized⟩

theorem onWire (h : sender.state.tree.OnWire) : r.path.tree.OnWire := by
  obtain ⟨m, hm, hsized⟩ := r.sized h
  exact hsized.onWire hm

/-- Every leaf after a commit is the committer's new one, stood in its slot before, or is the one
that the proposal puts there. -/
theorem leaf_cases {l : ℕ} {leaf : LeafNode} (h : r.path.tree.getLeaf (2 * l) = some leaf) :
    l = sender.myIndex ∧ leaf = r.path.keyPackage.leafNode ∨
      sender.state.tree.getLeaf (2 * l) = some leaf ∨
      p.slot sender.state.tree = some l ∧ p.leaf = some leaf := by
  rw [getLeaf_eq_some, getNode_setPathParents r.path.tree_eq,
    (setLeaf_node r.path.withLeaf_eq).2] at h
  have hindex : (sender.withConsumed r.consumed).myIndex = sender.myIndex := rfl
  rw [hindex] at h
  split_ifs at h with hl
  · cases h
    exact .inl ⟨by omega, rfl⟩
  · exact .inr (Proposal.base_leaf r.base_eq (getLeaf_eq_some.mpr h))

theorem base_sized (h : sender.state.tree.OnWire) : ∃ m ≤ 29, r.base.Sized m := by
  obtain ⟨m, hm29, hm⟩ := r.sized h
  exact ⟨m, hm29, r.path.sameSize.symm.sized hm⟩

theorem base_merged (h : sender.state.tree.Merged) : r.base.Merged :=
  h.of_getNode fun _ _ => Proposal.base_parent r.base_eq

theorem getNode_base (h : sender.state.tree.OnWire) (l : ℕ) : r.base.getNode (2 * l) =
    if p.slot sender.state.tree = some l then p.leaf.map .leaf
    else sender.state.tree.getNode (2 * l) := by
  obtain ⟨m, hm29, hm⟩ := r.base_sized h
  obtain ⟨-, -, -, hget, -⟩ := Proposal.base_frame h r.base_eq hm (by omega)
  exact hget l

theorem getLeaf_base (h : sender.state.tree.OnWire) (l : ℕ) :
    r.base.getLeaf (2 * l) = p.leafAfter sender.state.tree l := by
  rw [Proposal.leafAfter]
  have hget := r.getNode_base h l
  split_ifs at hget ⊢ with hslot
  · rw [RatchetTree.getLeaf, hget]
    cases p.leaf <;> rfl
  · exact getLeaf_congr hget

/-- The node in a leaf slot after the commit: the committer's is new, the others are those the
proposal leaves. -/
theorem getNode_tree (h : sender.state.tree.OnWire) (l : ℕ) : r.path.tree.getNode (2 * l) =
    if l = sender.myIndex then some (.leaf r.path.keyPackage.leafNode)
    else if p.slot sender.state.tree = some l then p.leaf.map .leaf
    else sender.state.tree.getNode (2 * l) := by
  obtain ⟨m, hm29, hm⟩ := r.base_sized h
  by_cases hl : l = sender.myIndex
  · rw [if_pos hl, hl]
    exact (r.path.getNode_tree hm (by omega)).1
  · rw [if_neg hl, r.path.getNode_other hm (by omega) hl]
    exact r.getNode_base h l

/-- The leaf in a slot after the commit. -/
theorem getLeaf_tree (h : sender.state.tree.OnWire) (l : ℕ) : r.path.tree.getLeaf (2 * l) =
    if l = sender.myIndex then some r.path.keyPackage.leafNode
    else p.leafAfter sender.state.tree l := by
  obtain ⟨m, hm29, hm⟩ := r.base_sized h
  by_cases hl : l = sender.myIndex
  · rw [if_pos hl, hl]
    exact getLeaf_eq_some.mpr (r.path.getNode_tree hm (by omega)).1
  · rw [if_neg hl, r.path.getLeaf_other hm (by omega) hl]
    exact r.getLeaf_base h l

end Built

end PureMls
