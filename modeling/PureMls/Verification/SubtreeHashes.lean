import PureMls.Verification.TreeBinding

/-! # Subtree hashes

`_subtree_hash` adds where `_node_hash` flips bits, and does not look for a right child in the tree.
The two agree on every tree whose leaves have indices of 32 bits. -/

namespace PureMls

open CompleteTree

variable {C : Crypto}

namespace RatchetTree

variable {tree t : RatchetTree} {m k j fuel fuel' : ℕ}

/-! ## One node at a time -/

theorem subtreeHashLoop_leaf (h : tree.Covers m) (hkinds : tree.Kinded) (hj : j < 2 ^ m) :
    tree.subtreeHashLoop C (fuel + 1) (2 * j) =
      C.sha256 <$> leafHashInput (2 * j) (tree.getNode (2 * j)) := by
  have hget := getElem?_of_covers h (Nat.zero_le m) (by rwa [Nat.sub_zero] : j < 2 ^ (m - 0))
  rw [nodeAt_zero] at hget
  rw [subtreeHashLoop, hget]
  simp only [Nat.mul_mod_right, if_true]
  rcases hnode : tree.getNode (2 * j) with _ | leaf | parent
  · rfl
  · rfl
  · have hodd := hkinds.parent_odd hnode
    omega

theorem subtreeHashLoop_odd {index left right : ℕ} {node : Option Node}
    (hget : tree.nodes[index]? = some node) (hodd : index % 2 = 1) (hlevel : level index = k + 1)
    (hleft : index - 2 ^ k = left) (hright : index + 2 ^ k = right)
    (hnode : ∀ leaf, node ≠ some (.leaf leaf)) :
    tree.subtreeHashLoop C (fuel + 1) index = (do
      let leftHash ← tree.subtreeHashLoop C fuel left
      let rightHash ← tree.subtreeHashLoop C fuel right
      C.sha256 <$> parentHashInput node leftHash rightHash) := by
  rw [subtreeHashLoop, hget]
  simp only [hodd, one_ne_zero, if_false, hlevel, Nat.add_sub_cancel, Nat.one_shiftLeft, hleft,
    hright]

theorem subtreeHashLoop_parent (h : tree.Covers m) (hkinds : tree.Kinded) (hk32 : k < 32)
    (hk : k < m)
    (hj : j < 2 ^ (m - (k + 1))) : tree.subtreeHashLoop C (fuel + 1) (nodeAt (k + 1) j) = (do
      let left ← tree.subtreeHashLoop C fuel (nodeAt k (2 * j))
      let right ← tree.subtreeHashLoop C fuel (nodeAt k (2 * j + 1))
      C.sha256 <$> parentHashInput (tree.getNode (nodeAt (k + 1) j)) left right) := by
  have hodd : nodeAt (k + 1) j % 2 = 1 := nodeAt_succ_mod_two k j
  apply subtreeHashLoop_odd (getElem?_of_covers (k := k + 1) h hk hj) hodd (level_nodeAt (by omega))
    (nodeAt_sub k j) (nodeAt_add k j)
  intro leaf hleaf
  have heven := hkinds.leaf_even hleaf
  omega

/-- Up to height 32 the two recursions visit the same nodes and write the same bytes. -/
theorem subtreeHashLoop_eq_nodeHash (h : tree.Covers m) (hkinds : tree.Kinded) (hk32 : k ≤ 32)
    (hk : k ≤ m) (hj : j < 2 ^ (m - k)) (hfuel : k < fuel) (hfuel' : k < fuel') :
    tree.subtreeHashLoop C fuel (nodeAt k j) = tree.nodeHash C fuel' (nodeAt k j) := by
  induction k generalizing j fuel fuel' with
  | zero =>
      obtain ⟨fuel, rfl⟩ : ∃ n, fuel = n + 1 := ⟨fuel - 1, by omega⟩
      obtain ⟨fuel', rfl⟩ : ∃ n, fuel' = n + 1 := ⟨fuel' - 1, by omega⟩
      rw [Nat.sub_zero] at hj
      rw [nodeAt_zero, subtreeHashLoop_leaf h hkinds hj, nodeHash_leaf h hj]
  | succ k ih =>
      obtain ⟨fuel, rfl⟩ : ∃ n, fuel = n + 1 := ⟨fuel - 1, by omega⟩
      obtain ⟨fuel', rfl⟩ : ∃ n, fuel' = n + 1 := ⟨fuel' - 1, by omega⟩
      have hpow := two_pow_sub_succ hk
      have hleft := ih (j := 2 * j) (by omega) (by omega) (by omega) (by omega : k < fuel)
        (by omega : k < fuel')
      have hright := ih (j := 2 * j + 1) (by omega) (by omega) (by omega) (by omega : k < fuel)
        (by omega : k < fuel')
      rw [subtreeHashLoop_parent h hkinds (by omega) hk hj, nodeHash_parent h (by omega) hk hj,
        hleft, hright]

/-! ## What a subtree hash reads -/

/-- Trees with the same nodes below `nodeAt k j` have the same hash there. -/
theorem nodeHash_congr (h : tree.Covers m) (ht : t.Covers m) (hk32 : k ≤ 32) (hk : k ≤ m)
    (hj : j < 2 ^ (m - k))
    (hget : ∀ i ≤ k, ∀ l, l / 2 ^ (k - i) = j →
      t.getNode (nodeAt i l) = tree.getNode (nodeAt i l)) :
    t.nodeHash C fuel (nodeAt k j) = tree.nodeHash C fuel (nodeAt k j) := by
  induction k generalizing j fuel with
  | zero =>
      cases fuel with
      | zero => rfl
      | succ fuel =>
          have hnode := hget 0 le_rfl j (by simp)
          rw [nodeAt_zero] at hnode
          rw [Nat.sub_zero] at hj
          rw [nodeAt_zero, nodeHash_leaf ht hj, nodeHash_leaf h hj, hnode]
  | succ k ih =>
      cases fuel with
      | zero => rfl
      | succ fuel =>
          have hpow := two_pow_sub_succ hk
          have hbelow : ∀ child, child / 2 = j → ∀ i ≤ k, ∀ l, l / 2 ^ (k - i) = child →
              t.getNode (nodeAt i l) = tree.getNode (nodeAt i l) := by
            intro child hchild i hi l hl
            apply hget i (by omega) l
            rw [show k + 1 - i = k - i + 1 by omega, pow_succ, ← Nat.div_div_eq_div_mul, hl, hchild]
          have hleft :
            t.nodeHash C fuel (nodeAt k (2 * j)) = tree.nodeHash C fuel (nodeAt k (2 * j)) :=
            ih (by omega) (by omega) (by omega) (hbelow (2 * j) (by omega))
          have hright : t.nodeHash C fuel (nodeAt k (2 * j + 1)) =
              tree.nodeHash C fuel (nodeAt k (2 * j + 1)) :=
            ih (by omega) (by omega) (by omega) (hbelow (2 * j + 1) (by omega))
          have hnode := hget (k + 1) le_rfl j (by simp)
          rw [nodeHash_parent ht (by omega) hk hj, nodeHash_parent h (by omega) hk hj, hleft,
            hright, hnode]

theorem LaidOut.sized (h : tree.LaidOut) (hleaves : tree.numLeaves = 2 ^ m) : tree.Sized m :=
  ⟨hleaves, by rw [h.size, hleaves, pow_succ, Nat.mul_comm]⟩

/-- Every node of a tree with `2 ^ m` leaves is found by its height and place. -/
theorem Sized.exists_nodeAt (h : tree.Sized m) {i : ℕ} (hi : i < tree.nodes.length) :
    ∃ k j, i = nodeAt k j ∧ k ≤ m ∧ j < 2 ^ (m - k) := by
  obtain ⟨k, j, rfl⟩ := CompleteTree.exists_nodeAt i
  rw [h.2] at hi
  have hk := le_of_nodeAt_lt hi
  exact ⟨k, j, rfl, hk, (nodeAt_lt_iff hk).mp hi⟩

theorem subtreeHash_eq_nodeHash (h : tree.Covers m) (hkinds : tree.Kinded) (hm : m ≤ 32)
    (hk : k ≤ m) (hj : j < 2 ^ (m - k)) (hfuel : k < fuel) :
    tree.subtreeHash C (some (nodeAt k j)) = tree.nodeHash C fuel (nodeAt k j) :=
  subtreeHashLoop_eq_nodeHash h hkinds (by omega) hk hj (by omega) hfuel

/-! ## The hashes of a path -/

/-- The nodes of a path are above none of its siblings. -/
theorem notMem_ancestors_of_sibling {c n i l : ℕ} (hi : i ≤ k)
    (hl : l / 2 ^ (k - i) = siblingIndex (c / 2 ^ k)) : nodeAt i l ∉ ancestors c 0 n := by
  intro hmem
  obtain ⟨p, hp⟩ := List.mem_iff_getElem?.mp hmem
  obtain ⟨-, heq⟩ := getElem?_ancestors hp
  obtain ⟨rfl, rfl⟩ := nodeAt_injective heq
  rw [Nat.div_div_eq_div_mul, ← pow_add, show 0 + 1 + p + (k - (0 + 1 + p)) = k by omega] at hl
  exact siblingIndex_ne _ hl.symm

theorem map_fst_zip_sublist {α β : Type} (xs : List α) (ys : List β) :
    ((xs.zip ys).map Prod.fst).Sublist xs := by
  induction xs generalizing ys with
  | nil => simp
  | cons x xs ih =>
      cases ys with
      | nil => simp
      | cons y ys => simpa using ih ys

/-- The hash of a parent on the path of `c` is made of the subtree hashes of its children. -/
theorem nodeHash_children (h : tree.Covers m) (hkinds : tree.Kinded) (hm : m ≤ 32) (hk : k < m)
    (hj : j < 2 ^ (m - (k + 1))) :
    tree.nodeHash C 34 (nodeAt (k + 1) j) = (do
      let left ← tree.subtreeHash C (some (nodeAt k (2 * j)))
      let right ← tree.subtreeHash C (some (nodeAt k (2 * j + 1)))
      C.sha256 <$> parentHashInput (tree.getNode (nodeAt (k + 1) j)) left right) := by
  have hpow := two_pow_sub_succ hk
  have hleft := subtreeHash_eq_nodeHash (C := C) (j := 2 * j) h hkinds hm hk.le (by omega)
    (by omega : k < 33)
  have hright := subtreeHash_eq_nodeHash (C := C) (j := 2 * j + 1) h hkinds hm hk.le (by omega)
    (by omega : k < 33)
  rw [nodeHash_parent h (by omega) hk hj, hleft, hright]

end RatchetTree

/-- What the parent hash of every entry of a path is made of. -/
theorem MLSGroup.setPathParents_hashes {tree t : RatchetTree} {hash : Bytes}
    {path : List (ℕ × Option ℕ × Bytes)} (hkinds : tree.Kinded) (hnodup : (path.map Prod.fst).Nodup)
    (h : setPathParents C tree path = .ok (t, hash)) :
    ∀ entry ∈ path, ∃ (inner : RatchetTree) (above siblingHash parentHash : Bytes),
      tree.SameSize inner ∧ inner.Kinded ∧
      (∀ i, i ∉ path.map Prod.fst → t.getNode i = inner.getNode i) ∧
      inner.subtreeHash C entry.2.1 = .ok siblingHash ∧
      computeParentHash C entry.2.2 above siblingHash = .ok parentHash ∧
      t.getNode entry.1 = some (.parent ⟨entry.2.2, parentHash, []⟩) := by
  induction path generalizing t hash with
  | nil => exact fun entry hentry => (List.not_mem_nil hentry).elim
  | cons first path ih =>
      obtain ⟨dp, cop, pub⟩ := first
      simp only [setPathParents, Py.bind_eq_ok, Py.pure_eq, Except.ok.injEq, Prod.mk.injEq] at h
      obtain ⟨⟨inner, above⟩, hinner, siblingHash, hsibling, parentHash, hhash, final, hset, rfl,
        -⟩ := h
      obtain ⟨-, hnode⟩ := RatchetTree.setParent_node hset
      rw [List.map_cons, List.nodup_cons] at hnodup
      intro entry hentry
      rcases List.mem_cons.mp hentry with rfl | hentry
      · refine ⟨inner, above, siblingHash, parentHash, (setPathParents_spec hinner).1,
          hkinds.setPathParents hinner, fun i hi => ?_, hsibling, hhash, by rw [hnode, if_pos rfl]⟩
        rw [List.map_cons, List.mem_cons, not_or] at hi
        rw [hnode, if_neg (Ne.symm hi.1)]
      · obtain ⟨inner', above', siblingHash', parentHash', hsize, hkinds', hrest, hsibling', hhash',
          hget⟩ :=
          ih hnodup.2 hinner entry hentry
        have hne : dp ≠ entry.1 := fun heq => hnodup.1 (heq ▸ List.mem_map.mpr ⟨entry, hentry, rfl⟩)
        refine ⟨inner', above', siblingHash', parentHash', hsize, hkinds', fun i hi => ?_,
          hsibling', hhash', by rw [hnode, if_neg hne, hget]⟩
        rw [List.map_cons, List.mem_cons, not_or] at hi
        rw [hnode, if_neg (Ne.symm hi.1), hrest i hi.2]

namespace RatchetTree

variable {tree t : RatchetTree} {m k j : ℕ}

/-- The hashes on the way from leaf `c` to the root. -/
structure HashedPath (C : Crypto) (tree : RatchetTree) (c : ℕ) (direct : List ℕ)
    (cop : List (Option ℕ)) : Prop where
  direct_eq : tree.directPath (2 * c) = .ok direct
  cop_eq : tree.copath (2 * c) = .ok cop
  /-- The tree hash is made of the subtree hashes of the siblings. -/
  built : ∀ (n upper : ℕ) (sibling : Option ℕ), direct[n]? = some upper → cop[n]? = some sibling →
    ∃ left right, (sibling = some left ∨ sibling = some right) ∧
      tree.nodeHash C 34 upper = (do
        let leftHash ← tree.subtreeHash C (some left)
        let rightHash ← tree.subtreeHash C (some right)
        C.sha256 <$> parentHashInput (tree.getNode upper) leftHash rightHash)
  /-- The parent hashes that a commit writes to the path bind hashes of nodes of the new tree. -/
  bound : ∀ pubs t hash,
    MLSGroup.setPathParents C tree (direct.zip (cop.zip pubs)) = .ok (t, hash) →
    ∀ entry ∈ direct.zip (cop.zip pubs), ∃ sibling above siblingHash parentHash,
      entry.2.1 = some sibling ∧ t.nodeHash C 34 sibling = .ok siblingHash ∧
      computeParentHash C entry.2.2 above siblingHash = .ok parentHash ∧
      t.getNode entry.1 = some (.parent ⟨entry.2.2, parentHash, []⟩)

theorem hashedPath (h : tree.Sized m) (hkinds : tree.Kinded) (hm : m ≤ 32) {c : ℕ}
    (hc : c < 2 ^ m) : HashedPath C tree c (ancestors c 0 m) ((siblings c 0 m).map some) := by
  refine ⟨directPath_leaf h.covers hm hc, copath_leaf h.covers hm hc, ?_, ?_⟩
  · intro n upper sibling hupper hsibling
    obtain ⟨hn, rfl⟩ := getElem?_ancestors hupper
    rw [List.getElem?_map, Option.map_eq_some_iff] at hsibling
    obtain ⟨s, hs, rfl⟩ := hsibling
    obtain ⟨-, rfl⟩ := getElem?_siblings hs
    have hdiv : c / 2 ^ (n + 1) < 2 ^ (m - (n + 1)) := div_pow_lt hc hn
    have hhalf : c / 2 ^ (n + 1) = c / 2 ^ n / 2 := (div_pow_succ c n).symm
    rw [show 0 + 1 + n = n + 1 by omega, Nat.zero_add]
    refine ⟨_, _, ?_, nodeHash_children h.covers hkinds hm hn hdiv⟩
    unfold siblingIndex
    rw [Option.some.injEq, Option.some.injEq]
    split_ifs with heven
    · right
      congr 1
      omega
    · left
      congr 1
      omega
  · intro pubs t hash hset entry hentry
    have hsub := map_fst_zip_sublist (ancestors c 0 m) (((siblings c 0 m).map some).zip pubs)
    have hnodup := (nodup_ancestors c 0 m).sublist hsub
    obtain ⟨inner, above, siblingHash, parentHash, hsize, hkinds', hrest, hsibling, hhash, hget⟩ :=
      MLSGroup.setPathParents_hashes hkinds hnodup hset entry hentry
    have hcop := (List.of_mem_zip (List.of_mem_zip hentry).2).1
    obtain ⟨s, hs, hs'⟩ := List.mem_map.mp hcop
    obtain ⟨n, hplace⟩ := List.mem_iff_getElem?.mp hs
    obtain ⟨hn, rfl⟩ := getElem?_siblings hplace
    have hj := siblingIndex_lt (by omega : 0 < m - n) (div_pow_lt hc hn.le)
    have htree := (MLSGroup.setPathParents_spec hset).1.sized h
    have hinner := hsize.sized h
    rw [Nat.zero_add] at hs'
    refine ⟨_, above, siblingHash, parentHash, hs'.symm, ?_, hhash, hget⟩
    rw [← hs',
      subtreeHash_eq_nodeHash hinner.covers hkinds' hm hn.le hj (by omega : n < 34)] at hsibling
    rw [← hsibling]
    apply nodeHash_congr hinner.covers htree.covers (by omega) hn.le hj
    intro i hi l hl
    exact hrest _ fun hmem => notMem_ancestors_of_sibling hi hl (hsub.subset hmem)

/-! ## The two hashes agree -/

/-- In a tree of at most `2 ^ 32` leaves the two hashes agree at every node, and the hashes of
siblings that a commit binds are those that the tree hash is made of. -/
theorem subtree_hashes_agree (h : tree.LaidOut) (hleaves : tree.numLeaves = 2 ^ m) (hm : m ≤ 32) :
    (∀ i < tree.nodes.length, tree.subtreeHash C (some i) = tree.nodeHash C 34 i) ∧
    tree.treeHash C = tree.subtreeHash C (some tree.root) ∧
    ∀ c < 2 ^ m, ∃ direct cop, HashedPath C tree c direct cop := by
  have hsized := h.sized hleaves
  have heq : ∀ i < tree.nodes.length, tree.subtreeHash C (some i) = tree.nodeHash C 34 i := by
    intro i hi
    obtain ⟨k, j, rfl, hk, hj⟩ := hsized.exists_nodeAt hi
    exact subtreeHash_eq_nodeHash hsized.covers h.kinds hm hk hj (by omega)
  refine ⟨heq, ?_, fun c hc => ⟨_, _, hashedPath hsized h.kinds hm hc⟩⟩
  have hroot : tree.root < tree.nodes.length := by
    rw [root_of_covers hsized.covers]
    exact nodeAt_lt_of_covers hsized.covers le_rfl (by simp)
  have hne : tree.nodes ≠ [] := List.ne_nil_of_length_pos (by omega)
  rw [treeHash, if_neg hne, heq _ hroot]

end RatchetTree

namespace Sample

/-- Two members under a parent, next to two blank leaves. -/
def halfFull : RatchetTree :=
  ⟨4, [some (.leaf plainLeaf), some (.parent ⟨[1], [], [1]⟩), some (.leaf plainLeaf), none, none,
    none, none]⟩

theorem halfFull_laidOut : halfFull.LaidOut := by
  refine ⟨rfl, fun i node hnode => ?_⟩
  have hkinds : ∀ i < halfFull.nodes.length,
      (halfFull.getNode i).all (fun node => RatchetTree.nodeType node = RatchetTree.typeAt i) =
        true := by decide +kernel
  have hi := hkinds i (RatchetTree.getNode_lt hnode)
  rwa [hnode, Option.all_some, decide_eq_true_eq] at hi

end Sample

open Sample in
theorem subtree_hashes_agree_halfFull :
    (∃ d, halfFull.treeHash crypto = .ok d) ∧
    (∀ i < halfFull.nodes.length,
      halfFull.subtreeHash crypto (some i) = halfFull.nodeHash crypto 34 i) ∧
    halfFull.treeHash crypto = halfFull.subtreeHash crypto (some halfFull.root) ∧
    ∀ c < 2 ^ 2, ∃ direct cop, RatchetTree.HashedPath crypto halfFull c direct cop :=
  ⟨Py.ok_of_isOk (by decide +kernel),
    RatchetTree.subtree_hashes_agree halfFull_laidOut rfl (by decide)⟩

/-! ## More leaves than 32 bits can number -/

namespace RatchetTree

variable {tree : RatchetTree} {m k j fuel : ℕ}

theorem laidOut_new (m : ℕ) : (new (2 ^ m)).LaidOut := by
  refine ⟨?_, fun i node hnode => ?_⟩
  · rw [length_new (Nat.two_pow_pos m), new]
  · rw [getNode_new] at hnode
    cases hnode

theorem nodeHash_of_blank (hC : C.Correct) (h : tree.Covers m) (hblank : ∀ i, tree.getNode i = none)
    (hk32 : k ≤ 32) (hk : k ≤ m) (hj : j < 2 ^ (m - k)) (hlow : 2 ^ k * (j + 1) ≤ 2 ^ 32)
    (hfuel : k < fuel) : ∃ data, tree.nodeHash C fuel (nodeAt k j) = .ok (C.sha256 data) := by
  induction k generalizing j fuel with
  | zero =>
      obtain ⟨fuel, rfl⟩ : ∃ n, fuel = n + 1 := ⟨fuel - 1, by omega⟩
      have hindex : tlsU32 (2 * j / 2) = .ok (beBytes 4 j) :=
        structPack_eq_ok.mpr ⟨by omega, by rw [Nat.mul_div_cancel_left j (by decide)]⟩
      rw [Nat.sub_zero] at hj
      refine ⟨0x01 :: beBytes 4 j ++ [0x00], ?_⟩
      rw [nodeAt_zero, nodeHash_leaf h hj, hblank, leafHashInput, hindex]
      rfl
  | succ k ih =>
      obtain ⟨fuel, rfl⟩ : ∃ n, fuel = n + 1 := ⟨fuel - 1, by omega⟩
      have hpow := two_pow_sub_succ hk
      have hwidth : 2 ^ (k + 1) * (j + 1) = 2 ^ k * (2 * j + 1 + 1) := by ring
      have hmono : 2 ^ k * (2 * j + 1) ≤ 2 ^ k * (2 * j + 1 + 1) := Nat.mul_le_mul_left _ (by omega)
      obtain ⟨left, hleft⟩ := ih (j := 2 * j) (by omega) (by omega) (by omega) (by omega)
        (by omega : k < fuel)
      obtain ⟨right, hright⟩ := ih (j := 2 * j + 1) (by omega) (by omega) (by omega)
        (by omega) (by omega : k < fuel)
      have hinput : parentHashInput none (C.sha256 left) (C.sha256 right) = .ok _ :=
        (parentHashInput_eq_ok hC).mpr ⟨[0x00], (rfl : optionalBytes none = _), rfl⟩
      rw [nodeHash_parent h (by omega) hk hj, hleft, hright, hblank, Py.ok_bind, Py.ok_bind, hinput]
      exact ⟨_, rfl⟩

/-- The first leaf below cannot be numbered. -/
theorem subtreeHashLoop_of_far (h : tree.Covers m) (hkinds : tree.Kinded) (hk32 : k ≤ 32)
    (hk : k ≤ m) (hj : j < 2 ^ (m - k)) (hfar : 2 ^ 32 ≤ 2 ^ k * j) (hfuel : k < fuel) :
    tree.subtreeHashLoop C fuel (nodeAt k j) = .error (.structError (packText 4)) := by
  induction k generalizing j fuel with
  | zero =>
      obtain ⟨fuel, rfl⟩ : ∃ n, fuel = n + 1 := ⟨fuel - 1, by omega⟩
      have hindex : tlsU32 (2 * j / 2) = .error (.structError (packText 4)) := by
        rw [tlsU32, structPack, if_neg (by omega)]
      rw [Nat.sub_zero] at hj
      rw [nodeAt_zero, subtreeHashLoop_leaf h hkinds hj, leafHashInput, hindex]
      rfl
  | succ k ih =>
      obtain ⟨fuel, rfl⟩ : ∃ n, fuel = n + 1 := ⟨fuel - 1, by omega⟩
      have hpow := two_pow_sub_succ hk
      have hstart : 2 ^ (k + 1) * j = 2 ^ k * (2 * j) := by ring
      have hleft :=
        ih (j := 2 * j) (by omega) (by omega) (by omega) (by omega) (by omega : k < fuel)
      rw [subtreeHashLoop_parent h hkinds (by omega) hk hj, hleft]
      rfl

end RatchetTree

open RatchetTree Sample in
/-- The root of a tree of `2 ^ 33` leaves has level 32: one recursion takes its children to be the
second and the first node at height 31, the other the second and the third. -/
theorem root_hashes_differ : ¬ ∀ (C : Crypto) (tree : RatchetTree) (m : ℕ), tree.LaidOut →
    tree.numLeaves = 2 ^ m → ∀ i < tree.nodes.length, tree.subtreeHash C
      (some i) = tree.nodeHash C 34 i := by
  intro hall
  have hsized := sized_new 33
  have hblank := getNode_new (2 ^ 33)
  have hlaid := laidOut_new 33
  generalize new (2 ^ 33) = tree at hsized hblank hlaid
  have hlevel : level (nodeAt 33 0) = 31 + 1 := level_capped le_rfl
  have hget :=
    getElem?_of_covers hsized.covers (by decide : 33 ≤ 33) (by decide : 0 < 2 ^ (33 - 33))
  rw [hblank] at hget
  obtain ⟨second, hsecond⟩ := nodeHash_of_blank correct hsized.covers hblank
    (by decide : 31 ≤ 32) (by decide) (by decide : 1 < 2 ^ (33 - 31)) (by decide)
      (by decide : 31 < 33)
  obtain ⟨first, hfirst⟩ := nodeHash_of_blank correct hsized.covers hblank
    (by decide : 31 ≤ 32) (by decide) (by decide : 0 < 2 ^ (33 - 31)) (by decide)
      (by decide : 31 < 33)
  have hsecond' : tree.subtreeHashLoop crypto 33 (nodeAt 31 1) = .ok (crypto.sha256 second) :=
    (subtreeHashLoop_eq_nodeHash hsized.covers hlaid.kinds (by decide) (by decide) (by decide)
      (by decide)
      (by decide)).trans hsecond
  have hthird : tree.subtreeHashLoop crypto 33 (nodeAt 31 2) = .error (.structError (packText 4)) :=
    subtreeHashLoop_of_far hsized.covers hlaid.kinds (by decide) (by decide) (by decide) (by decide)
      (by decide)
  have hinput : parentHashInput none (crypto.sha256 second) (crypto.sha256 first) = .ok _ :=
    (parentHashInput_eq_ok correct).mpr ⟨[0x00], (rfl : optionalBytes none = _), rfl⟩
  have hnode : tree.nodeHash crypto 34 (nodeAt 33 0) = _ :=
    nodeHash_odd hget (nodeAt_succ_mod_two 32 0) hlevel
    (by decide : _ = nodeAt 31 1) (by decide : _ = nodeAt 31 0)
    (nodeAt_lt_of_covers hsized.covers (by decide) (by decide))
  have hsubtree : tree.subtreeHashLoop crypto 34 (nodeAt 33 0) = _ :=
    subtreeHashLoop_odd hget (nodeAt_succ_mod_two 32 0) hlevel
    (by decide : _ = nodeAt 31 1) (by decide : _ = nodeAt 31 2) (fun leaf => by simp)
  rw [hsecond, hfirst, Py.ok_bind, Py.ok_bind, hinput, Py.map_ok] at hnode
  rw [hsecond', hthird, Py.ok_bind, Py.error_bind] at hsubtree
  have heq := hall crypto tree 33 hlaid hsized.1 (nodeAt 33 0)
    (nodeAt_lt_of_covers hsized.covers le_rfl (by decide))
  rw [subtreeHash, hsubtree, hnode] at heq
  cases heq

end PureMls
