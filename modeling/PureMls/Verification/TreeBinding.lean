import PureMls.Foundation.HashTree
import PureMls.Verification.Reached

/-! # What the tree hash binds

The tree hash is the digest of a tree of encoded nodes. It pins the encoding of every node in its
place, but neither what stands behind the last leaf nor which kind of node was encoded. -/

namespace PureMls

open CompleteTree

variable {C : Crypto}

/-! ## The tree that is hashed -/

/-- The inputs of the tree hash: a leaf's index and encoding after 1, a parent's encoding and the
hashes of its children after 2. -/
def treeHashing (hC : C.Correct) : TreeHashing Bytes Bytes Bytes where
  hash := C.sha256
  leafInput label := 0x01 :: label
  nodeInput label left right := 0x02 :: (label ++ (0x20 :: left) ++ (0x20 :: right))
  leaf_inj h := List.tail_eq_of_cons_eq h
  node_inj h := by
    have hlen : ∀ data, (0x20 :: C.sha256 data).length = 33 := fun data => by
      rw [List.length_cons, hC.sha256_size]
    obtain ⟨hfront, hright⟩ := List.append_inj' (List.tail_eq_of_cons_eq h) (by rw [hlen, hlen])
    obtain ⟨hlabel, hleft⟩ := List.append_inj' hfront (by rw [hlen, hlen])
    exact ⟨hlabel, List.tail_eq_of_cons_eq hleft, List.tail_eq_of_cons_eq hright⟩
  separate h := absurd (List.head_eq_of_cons_eq h) (by decide)

namespace RatchetTree

/-- `optional<Node>` -/
def optionalBytes : Option Node → Py Bytes
  | none => pure [0x00]
  | some node => (0x01 :: ·) <$> node.toBytes

/-- The tree below the `j`-th node at height `k`, with the encodings of its nodes. -/
def outline (tree : RatchetTree) : ℕ → ℕ → Py (HashTree Bytes)
  | 0, j => do
    let leafIndex ← tlsU32 j
    let body ← optionalBytes (tree.getNode (2 * j))
    pure (.leaf (leafIndex ++ body))
  | k + 1, j => do
    let left ← outline tree k (2 * j)
    let right ← outline tree k (2 * j + 1)
    let body ← optionalBytes (tree.getNode (nodeAt (k + 1) j))
    pure (.node body left right)

/-- Everything that SHA-256 is applied to for the tree hash. -/
def hashInputs (hC : C.Correct) (tree : RatchetTree) : List Bytes :=
  if tree.nodes = [] then [[]]
  else match tree.outline tree.numLeaves.log2 0 with
    | .ok t => t.inputs (treeHashing hC)
    | .error _ => []

theorem leafHashInput_eq_ok {j : ℕ} {node : Option Node} {input : Bytes} :
    leafHashInput (2 * j) node = .ok input ↔ ∃ leafIndex body, tlsU32 j = .ok leafIndex ∧
      optionalBytes node = .ok body ∧ 0x01 :: (leafIndex ++ body) = input := by
  have hhalf : 2 * j / 2 = j := by omega
  cases node with
  | none => simp [leafHashInput, optionalBytes, hhalf]
  | some node => simp [leafHashInput, optionalBytes, hhalf]

theorem tlsOpaque_hash (hC : C.Correct) (data : Bytes) :
    tlsOpaque (C.sha256 data) = .ok (0x20 :: C.sha256 data) := by
  rw [tlsOpaque, hC.sha256_size]
  rfl

theorem parentHashInput_eq_ok (hC : C.Correct) {node : Option Node} {left right input : Bytes} :
    parentHashInput node (C.sha256 left) (C.sha256 right) = .ok input ↔ ∃ body,
      optionalBytes node = .ok body ∧
      0x02 :: (body ++ (0x20 :: C.sha256 left) ++ (0x20 :: C.sha256 right)) = input := by
  cases node with
  | none => simp [parentHashInput, optionalBytes, tlsOpaque_hash hC]
  | some node => simp [parentHashInput, optionalBytes, tlsOpaque_hash hC]

/-- A hash of a node is the digest of the tree below it. -/
theorem nodeHash_outline (hC : C.Correct) {tree : RatchetTree} {m k j fuel : ℕ} {d : Bytes}
    (h : tree.Covers m) (hm : m ≤ 32) (hk : k ≤ m) (hj : j < 2 ^ (m - k))
    (hd : tree.nodeHash C fuel (nodeAt k j) = .ok d) :
    ∃ t, tree.outline k j = .ok t ∧ t.digest (treeHashing hC) = d := by
  induction k generalizing j fuel d with
  | zero =>
      cases fuel with
      | zero => cases hd
      | succ fuel =>
          rw [Nat.sub_zero] at hj
          rw [nodeAt_zero, nodeHash_leaf h hj] at hd
          obtain ⟨input, hinput, rfl⟩ := Py.map_eq_ok.mp hd
          obtain ⟨leafIndex, body, hindex, hbody, rfl⟩ := leafHashInput_eq_ok.mp hinput
          refine ⟨.leaf (leafIndex ++ body), ?_, rfl⟩
          rw [outline, hindex, Py.ok_bind, hbody]
          rfl
  | succ k ih =>
      cases fuel with
      | zero => cases hd
      | succ fuel =>
          have hpow := two_pow_sub_succ hk
          rw [nodeHash_parent h (by omega) hk hj] at hd
          simp only [Py.bind_eq_ok, Py.map_eq_ok] at hd
          obtain ⟨_, hleftHash, _, hrightHash, input, hinput, rfl⟩ := hd
          obtain ⟨left, hleft, rfl⟩ := ih (by omega) (by omega) hleftHash
          obtain ⟨right, hright, rfl⟩ := ih (by omega) (by omega) hrightHash
          obtain ⟨body, hbody, rfl⟩ := (parentHashInput_eq_ok hC).mp hinput
          refine ⟨.node body left right, ?_, rfl⟩
          rw [outline, hleft, Py.ok_bind, hright, Py.ok_bind, hbody]
          rfl

/-- The tree hash of a tree with leaves is the digest of its outline. -/
theorem treeHash_outline (hC : C.Correct) {tree : RatchetTree} {m : ℕ} {d : Bytes}
    (h : tree.Covers m)
    (hm : m ≤ 32) (hd : tree.treeHash C = .ok d) :
    ∃ t, tree.outline m 0 = .ok t ∧ t.digest (treeHashing hC) = d ∧
      tree.hashInputs hC = t.inputs (treeHashing hC) := by
  have hne : tree.nodes ≠ [] := by
    have hpos := Nat.one_lt_two_pow (Nat.succ_ne_zero m)
    have hlen := h.2
    intro hnil
    rw [hnil, List.length_nil] at hlen
    omega
  rw [treeHash, if_neg hne, root_of_covers h] at hd
  obtain ⟨t, ht, hdigest⟩ := nodeHash_outline hC h hm le_rfl (by simp) hd
  refine ⟨t, ht, hdigest, ?_⟩
  rw [hashInputs, if_neg hne, h.1, Nat.log2_two_pow, ht]

/-! ## Equal outlines -/

/-- Trees with one outline have the same height and the same encodings in the same places. -/
theorem outline_injective {tree u : RatchetTree} {k k' j : ℕ} {t : HashTree Bytes}
    (h : tree.outline k j = .ok t) (hu : u.outline k' j = .ok t) :
    k = k' ∧ ∀ i ≤ k, ∀ l, l / 2 ^ (k - i) = j → ∃ body,
      optionalBytes (tree.getNode (nodeAt i l)) = .ok body ∧
      optionalBytes (u.getNode (nodeAt i l)) = .ok body := by
  induction k generalizing k' j t with
  | zero =>
      simp only [outline, Py.bind_eq_ok, Py.pure_eq, Except.ok.injEq] at h
      obtain ⟨leafIndex, hindex, body, hbody, rfl⟩ := h
      cases k' with
      | zero =>
          simp only [outline, Py.bind_eq_ok, Py.pure_eq, Except.ok.injEq, HashTree.leaf.injEq] at hu
          obtain ⟨leafIndex', hindex', body', hbody', heq⟩ := hu
          obtain rfl := Except.ok.inj (hindex.symm.trans hindex')
          obtain rfl := List.append_cancel_left heq
          refine ⟨rfl, fun i hi l hl => ?_⟩
          obtain rfl := Nat.le_zero.mp hi
          rw [Nat.sub_self, pow_zero, Nat.div_one] at hl
          rw [hl, nodeAt_zero]
          exact ⟨body', hbody, hbody'⟩
      | succ k' =>
          simp only [outline, Py.bind_eq_ok, Py.pure_eq, Except.ok.injEq] at hu
          obtain ⟨_, -, _, -, _, -, hcontra⟩ := hu
          cases hcontra
  | succ k ih =>
      simp only [outline, Py.bind_eq_ok, Py.pure_eq, Except.ok.injEq] at h
      obtain ⟨left, hleft, right, hright, body, hbody, rfl⟩ := h
      cases k' with
      | zero =>
          simp only [outline, Py.bind_eq_ok, Py.pure_eq, Except.ok.injEq] at hu
          obtain ⟨_, -, _, -, hcontra⟩ := hu
          cases hcontra
      | succ k' =>
          simp only [outline, Py.bind_eq_ok, Py.pure_eq, Except.ok.injEq, HashTree.node.injEq] at hu
          obtain ⟨left', hleft', right', hright', body', hbody', rfl, rfl, rfl⟩ := hu
          obtain ⟨rfl, hbelowLeft⟩ := ih hleft hleft'
          obtain ⟨-, hbelowRight⟩ := ih hright hright'
          refine ⟨rfl, fun i hi l hl => ?_⟩
          rcases Nat.eq_or_lt_of_le hi with rfl | hlt
          · rw [Nat.sub_self, pow_zero, Nat.div_one] at hl
            rw [hl]
            exact ⟨body', hbody, hbody'⟩
          · have hpow : k + 1 - i = k - i + 1 := by omega
            rw [hpow, pow_succ, ← Nat.div_div_eq_div_mul] at hl
            rcases Nat.mod_two_eq_zero_or_one (l / 2 ^ (k - i)) with hmod | hmod
            · exact hbelowLeft i (by omega) l (by omega)
            · exact hbelowRight i (by omega) l (by omega)

/-- Trees with one hash and no collision below it have the same size and the same encodings in the
same places, as far as the places belong to the tree. -/
theorem treeHash_injective (hC : C.Correct) {tree u : RatchetTree} {m : ℕ} {d : Bytes}
    (htree : tree.Covers m) (hm : m ≤ 29) (hu : u.OnWire) (hd : tree.treeHash C = .ok d)
    (hd' : u.treeHash C = .ok d) (hcoll : ∀ a ∈ tree.hashInputs hC, ∀ b ∈ u.hashInputs hC,
      C.sha256 a = C.sha256 b → a = b) :
    u.Covers m ∧ ∀ i < 2 ^ (m + 1) - 1, ∃ body, optionalBytes (tree.getNode i) = .ok body ∧
      optionalBytes (u.getNode i) = .ok body := by
  obtain ⟨t, ht, hdigest, hinputs⟩ := treeHash_outline hC htree (by omega) hd
  rcases hu with ⟨-, hnil⟩ | ⟨m', hm', hcovers, -⟩
  · -- the hash of the empty tree is the one of the empty input
    have hempty : u.treeHash C = .ok (C.sha256 []) := by rw [treeHash, if_pos hnil]; rfl
    rw [hempty, Except.ok.injEq] at hd'
    have hmem : [] ∈ u.hashInputs hC := by simp [hashInputs, hnil]
    have hinput := hcoll _ (hinputs ▸ t.input_mem_inputs _) [] hmem (hdigest.trans hd'.symm)
    cases t with
    | leaf label => cases hinput
    | node label left right => cases hinput
  · obtain ⟨t', ht', hdigest', hinputs'⟩ := treeHash_outline hC hcovers (by omega) hd'
    rw [hinputs, hinputs'] at hcoll
    obtain rfl := HashTree.digest_injective hcoll (hdigest.trans hdigest'.symm)
    obtain ⟨rfl, hbodies⟩ := outline_injective ht ht'
    refine ⟨hcovers, fun i hi => ?_⟩
    obtain ⟨k, l, rfl⟩ := exists_nodeAt i
    have hk : k ≤ m := le_of_nodeAt_lt hi
    exact hbodies k hk l (Nat.div_eq_of_lt ((nodeAt_lt_iff hk).mp hi))

/-! ## The array layout -/

/-- Every node is of the kind of its place. -/
def Kinded (tree : RatchetTree) : Prop :=
  ∀ i node, tree.getNode i = some node → nodeType node = typeAt i

/-- All the nodes of the leaves and no others, each of the kind of its place. -/
structure LaidOut (tree : RatchetTree) : Prop where
  size : tree.nodes.length = 2 * tree.numLeaves - 1
  kinds : tree.Kinded

theorem entryBytes_some (node : Node) : entryBytes (some node) = (do
    let body ← node.toBytes
    pure ([0x01, nodeType node] ++ body)) := by
  cases node <;> rfl

/-- Encodings that agree where the kinds do are one entry. -/
theorem entryBytes_congr {a b : Option Node} {body : Bytes} (ha : optionalBytes a = .ok body)
    (hb : optionalBytes b = .ok body)
    (hkind : ∀ x y, a = some x → b = some y → nodeType x = nodeType y) :
    entryBytes a = entryBytes b := by
  cases a with
  | none =>
      cases b with
      | none => rfl
      | some y =>
          cases ha
          obtain ⟨bytes, -, hcons⟩ := Py.map_eq_ok.mp hb
          cases hcons
  | some x =>
      obtain ⟨bytes, hx, rfl⟩ := Py.map_eq_ok.mp ha
      cases b with
      | none => cases hb
      | some y =>
          obtain ⟨bytes', hy, hcons⟩ := Py.map_eq_ok.mp hb
          cases hcons
          rw [entryBytes_some, entryBytes_some, hx, hy, hkind x y rfl rfl]

theorem toBytes_congr {tree u : RatchetTree} (hlen : tree.nodes.length = u.nodes.length)
    (h : ∀ i < u.nodes.length, entryBytes (tree.getNode i) = entryBytes (u.getNode i)) :
    tree.toBytes = u.toBytes := by
  have hmap : tree.nodes.map entryBytes = u.nodes.map entryBytes := by
    refine List.ext_getElem (by rw [List.length_map, List.length_map, hlen]) fun i hi hi' => ?_
    rw [List.length_map] at hi hi'
    have hi := h i hi'
    simpa [getNode, hi', hlen] using hi
  rw [toBytes, toBytes, joinBytes_congr hmap]

/-! ## Kinds are kept -/

namespace Kinded

variable {tree t : RatchetTree}

theorem leaf_even (h : tree.Kinded) {i : ℕ} {leaf : LeafNode}
    (hi : tree.getNode i = some (.leaf leaf)) : i % 2 = 0 := by
  have hkind : (0x01 : UInt8) = typeAt i := h i _ hi
  by_contra hodd
  rw [typeAt, if_neg hodd] at hkind
  exact absurd hkind (by decide)

theorem parent_odd (h : tree.Kinded) {i : ℕ} {parent : ParentNode}
    (hi : tree.getNode i = some (.parent parent)) : i % 2 = 1 := by
  have hkind : (0x02 : UInt8) = typeAt i := h i _ hi
  by_contra heven
  rw [typeAt, if_pos (by omega)] at hkind
  exact absurd hkind (by decide)

theorem congr (h : tree.Kinded) (hget : ∀ i, t.getNode i = tree.getNode i) : t.Kinded :=
  fun i node hi => h i node (hget i ▸ hi)

theorem setLeaf (h : tree.Kinded) {i : ℕ} {leaf : LeafNode} (hset : tree.setLeaf i leaf = .ok t) :
    t.Kinded := by
  intro k node hget
  rw [(setLeaf_node hset).2] at hget
  split_ifs at hget with hik
  · cases hget
    simp [nodeType, typeAt, ← hik, (setLeaf_eq_ok.mp hset).1]
  · exact h k node hget

theorem setParent (h : tree.Kinded) {i : ℕ} {parent : ParentNode}
    (hset : tree.setParent i parent = .ok t) : t.Kinded := by
  intro k node hget
  rw [(setParent_node hset).2] at hget
  split_ifs at hget with hik
  · cases hget
    simp [nodeType, typeAt, ← hik, (setParent_eq_ok.mp hset).1]
  · exact h k node hget

theorem blankNode (h : tree.Kinded) (i : ℕ) : (tree.blankNode i).Kinded := by
  intro k node hget
  rw [getNode_blankNode] at hget
  split_ifs at hget
  exact h k node hget

theorem blankNodes (h : tree.Kinded) (indices : List ℕ) :
    (indices.foldl RatchetTree.blankNode tree).Kinded := by
  induction indices generalizing tree with
  | nil => exact h
  | cons i indices ih => exact ih (h.blankNode i)

theorem truncate (h : tree.Kinded) : tree.truncate.Kinded :=
  fun i node hget => h i node (getNode_of_truncate hget)

theorem canon (h : tree.Kinded) : tree.canon.Kinded := by
  intro i node hget
  rw [getNode_canon, Option.map_eq_some_iff] at hget
  obtain ⟨node, hnode, rfl⟩ := hget
  rw [← h i node hnode]
  cases node <;> rfl

theorem setPathParents (h : tree.Kinded) {hash : Bytes} {path : List (ℕ × Option ℕ × Bytes)}
    (hset : MLSGroup.setPathParents C tree path = .ok (t, hash)) : t.Kinded := by
  induction path generalizing t hash with
  | nil =>
      cases hset
      exact h
  | cons entry path ih =>
      obtain ⟨dp, cop, pub⟩ := entry
      simp only [MLSGroup.setPathParents, Py.bind_eq_ok, Py.pure_eq, Except.ok.injEq,
        Prod.mk.injEq] at hset
      obtain ⟨⟨inner, above⟩, hinner, _, -, _, -, final, hparent, rfl, -⟩ := hset
      exact (ih hinner).setParent hparent

/-- A proposal keeps the kinds. -/
theorem base (h : tree.Kinded) {p : Proposal} (hbase : p.base tree = .ok t) : t.Kinded := by
  cases p with
  | addMember kp =>
      simp only [Proposal.base, MLSGroup.placeLeaf, Py.bind_eq_ok, Py.pure_eq,
        Except.ok.injEq] at hbase
      obtain ⟨copied, hcopied, placed, hplaced, direct, -, rfl⟩ := hbase
      exact ((h.congr (copyNodes_new hcopied).2).setLeaf hplaced).blankNodes direct
  | removeMember target =>
      simp only [Proposal.base, removeLeaf, Py.bind_eq_ok, Py.pure_eq, Except.ok.injEq] at hbase
      obtain ⟨_, -, _, -, direct, -, rfl⟩ := hbase
      exact ((h.blankNode _).blankNodes direct).truncate
  | updateKey => exact h.congr (copyNodes_new hbase).2

end Kinded

/-! ## Trees that the group operations produce -/

/-- The trees of a new group, of the commits on such trees, and what is read back from their
encoding. -/
inductive Produced (C : Crypto) : RatchetTree → Prop where
  | create {groupId sigKey kemKey initKey self} :
      MLSGroup.create C groupId sigKey kemKey initKey = .ok self → Produced C self.state.tree
  | commit {sender coins committed} {p : Proposal} : Produced C sender.state.tree →
      p.commit C sender coins = .ok committed → Produced C committed.update.tree
  | sent {tree received data} : Produced C tree → tree.toBytes = .ok data →
      fromBytes data = .ok received → Produced C received

theorem Produced.laidOut {tree : RatchetTree} (h : Produced C tree) :
    (∃ m ≤ 29, tree.Sized m) ∧ tree.Kinded := by
  induction h with
  | create hok =>
      obtain ⟨kp, tree, _, _, -, htree, -, rfl⟩ := MLSGroup.create_eq_ok hok
      have hnew : (RatchetTree.new 1).Kinded := by
        intro i node hget
        rw [getNode_new] at hget
        cases hget
      exact ⟨⟨0, by decide, (setLeaf_node htree).1.sized (sized_new 0)⟩, hnew.setLeaf htree⟩
  | commit _ hcommit ih =>
      obtain ⟨⟨m, hm, hsized⟩, hkinds⟩ := ih
      obtain ⟨r⟩ := Proposal.commit_eq_ok hcommit
      rw [r.update_eq]
      exact ⟨r.sized (hsized.onWire hm),
        ((hkinds.base r.base_eq).setLeaf r.path.withLeaf_eq).setPathParents
        r.path.tree_eq⟩
  | @sent tree received data _ hbytes hread ih =>
      obtain ⟨⟨m, hm, hsized⟩, hkinds⟩ := ih
      rw [(hsized.onWire hm).fromBytes_toBytes hbytes, Except.ok.injEq] at hread
      subst hread
      refine ⟨⟨m, hm, hsized.1, ?_⟩, hkinds.canon⟩
      rw [length_canon]
      exact hsized.2

/-- A tree off the wire with the tree hash of a produced tree is that tree, byte by byte, if and
only if it has the array layout: the hash says nothing about an entry behind the last leaf, nor
about the kind of node that an encoding belongs to. -/
theorem tree_hash_binds_iff (hC : C.Correct) {tree u : RatchetTree} (htree : Produced C tree)
    {bytes data hash : Bytes} (hbytes : tree.toBytes = .ok bytes) (hu : fromBytes data = .ok u)
    (hhash : tree.treeHash C = .ok hash) (hhash' : u.treeHash C = .ok hash)
    (hcoll : ∀ a ∈ tree.hashInputs hC, ∀ b ∈ u.hashInputs hC, C.sha256 a = C.sha256 b → a = b) :
    u.toBytes = .ok bytes ↔ u.LaidOut := by
  obtain ⟨⟨m, hm, hsized⟩, hkinds⟩ := htree.laidOut
  have hwire := fromBytes_onWire hu
  constructor
  · intro hbytes'
    have hcanon : u.canon = tree.canon := by
      have hread := hwire.fromBytes_toBytes hbytes'
      rw [(hsized.onWire hm).fromBytes_toBytes hbytes, Except.ok.injEq] at hread
      exact hread.symm
    refine ⟨?_, fun i node hget => ?_⟩
    · have hlen := congrArg (fun t : RatchetTree => t.nodes.length) hcanon
      have hleaves := congrArg (·.numLeaves) hcanon
      simp only [length_canon] at hlen
      change u.numLeaves = tree.numLeaves at hleaves
      rw [hlen, hleaves, hsized.1, hsized.2, pow_succ, Nat.mul_comm]
    · have hget' : tree.canon.getNode i = some node.canon := by
        rw [← hcanon, getNode_canon, hget]
        rfl
      rw [← hkinds.canon i _ hget']
      cases node <;> rfl
  · intro hlaid
    obtain ⟨hcovers, hbodies⟩ := treeHash_injective hC hsized.covers hm hwire hhash hhash' hcoll
    have hlen : u.nodes.length = tree.nodes.length := by
      rw [hlaid.size, hcovers.1, hsized.2, pow_succ, Nat.mul_comm]
    rw [← hbytes]
    refine toBytes_congr hlen fun i hi => ?_
    rw [hsized.2] at hi
    obtain ⟨body, hbody, hbody'⟩ := hbodies i hi
    exact entryBytes_congr hbody' hbody fun x y hx hy =>
      (hlaid.kinds i x hx).trans (hkinds i y hy).symm

end RatchetTree

namespace Sample

/-- The tree of Alice's second add, with four leaf slots of which the last is blank, and its
encoding read back. -/
def rereading : Py (MLSGroup × Committed × Bytes × RatchetTree) := do
  let bobPackage ← keyPackage 20
  let carolPackage ← keyPackage 21
  let alice ← MLSGroup.create crypto (ascii "g") (sig 1) (kem 1) (kem 2)
  let addedBob ← (Proposal.addMember bobPackage).commit crypto alice (coins 40)
  let addedCarol ← (Proposal.addMember carolPackage).commit crypto addedBob.next (coins 60)
  expect (addedBob.next.state.tree = addedBob.update.tree)
  let tree := addedCarol.update.tree
  expect (tree.nodes.map (Option.map RatchetTree.nodeType) =
    [some 1, some 2, some 1, some 2, some 1, none, none])
  let data ← tree.toBytes
  let again ← RatchetTree.fromBytes data
  let hash ← tree.treeHash crypto
  expect (again.treeHash crypto = .ok hash)
  expect (∀ a ∈ tree.hashInputs correct, ∀ b ∈ again.hashInputs correct,
    crypto.sha256 a = crypto.sha256 b → a = b)
  pure (alice, addedCarol, data, again)

theorem rereading_ok : ∃ r, rereading = .ok r := Py.ok_of_isOk (by decide +kernel)

/-- Alice's tree, and its encoding with one blank entry more read back. -/
def padded : Py (MLSGroup × Bytes × RatchetTree) := do
  let alice ← MLSGroup.create crypto (ascii "g") (sig 1) (kem 1) (kem 2)
  let data ← alice.state.tree.toBytes
  let raw ← readOpaque.run data
  let longer ← tlsOpaque (raw ++ [0x00])
  let extra ← RatchetTree.fromBytes longer
  let hash ← alice.state.tree.treeHash crypto
  expect (extra.treeHash crypto = .ok hash)
  expect (∀ a ∈ alice.state.tree.hashInputs correct, ∀ b ∈ extra.hashInputs correct,
    crypto.sha256 a = crypto.sha256 b → a = b)
  expect (extra.toBytes ≠ .ok data)
  pure (alice, data, extra)

theorem padded_ok : ∃ r, padded = .ok r := Py.ok_of_isOk (by decide +kernel)

end Sample

namespace RatchetTree

open Sample in
/-- The tree of a group of three, with parent nodes and blanks, and its encoding read back. -/
theorem tree_hash_binds_alice : ∃ (tree u : RatchetTree) (bytes : Bytes), Produced crypto tree ∧
    tree.nodes.map (Option.map nodeType) = [some 1, some 2, some 1, some 2, some 1, none, none] ∧
    tree.toBytes = .ok bytes ∧ fromBytes bytes = .ok u ∧ (u.toBytes = .ok bytes ↔ u.LaidOut) := by
  obtain ⟨_, hrun⟩ := rereading_ok
  simp only [rereading, expect, Py.bind_eq_ok, Py.require_eq_ok] at hrun
  obtain ⟨_, -, _, -, alice, hcreate, addedBob, hbob, addedCarol, hcarol, _, hnext, _, hkinds, data,
    hdata, again, hagain, hash, hhash, _, hhash', _, hcoll, -⟩ := hrun
  have hproduced : Produced crypto addedCarol.update.tree := by
    refine .commit ?_ hcarol
    rw [hnext]
    exact .commit (.create hcreate) hbob
  exact ⟨_, again, data, hproduced, hkinds, hdata, hagain,
    tree_hash_binds_iff correct hproduced hdata hagain hhash hhash' hcoll⟩

open Sample in
/-- A blank entry behind the last leaf leaves the tree hash as it is. -/
theorem tree_hash_ignores_extra_entry : ¬ ∀ (tree u : RatchetTree) (bytes data hash : Bytes),
    Produced crypto tree → tree.toBytes = .ok bytes → fromBytes data = .ok u →
    tree.treeHash crypto = .ok hash → u.treeHash crypto = .ok hash →
    (∀ a ∈ tree.hashInputs correct, ∀ b ∈ u.hashInputs correct,
      crypto.sha256 a = crypto.sha256 b → a = b) → u.toBytes = .ok bytes := by
  intro hall
  obtain ⟨_, hrun⟩ := padded_ok
  simp only [padded, expect, Py.bind_eq_ok, Py.require_eq_ok] at hrun
  obtain ⟨alice, hcreate, data, hdata, raw, -, longer, -, extra, hextra, hash, hhash, _, hhash', _,
    hcoll, _, hne, -⟩ := hrun
  exact hne (hall _ extra data longer hash (.create hcreate) hdata hextra hhash hhash' hcoll)

end RatchetTree

end PureMls
