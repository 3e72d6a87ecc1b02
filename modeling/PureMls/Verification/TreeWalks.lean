import PureMls.Verification.ParsedTrees

/-! # Walks over a received tree

The walks up from a leaf end when it is inside the tree. From a leaf beyond it they never do. -/

namespace PureMls

namespace RatchetTree

/-! ## Walks from a leaf that is not in the tree -/

open CompleteTree

private theorem le_ancestor {m k c : ℕ} (hc : 2 ^ m ≤ c) :
    2 ^ (m + 1) - 1 ≤ nodeAt k (c / 2 ^ k) := by
  by_cases hk : k ≤ m
  · have hdiv : 2 ^ (m - k) ≤ c / 2 ^ k := by
      rw [Nat.le_div_iff_mul_le (Nat.two_pow_pos k), ← pow_add, Nat.sub_add_cancel hk]
      exact hc
    exact Nat.not_lt.mp fun hlt => absurd ((nodeAt_lt_iff hk).mp hlt) (by omega)
  · have hpow : 2 ^ (m + 1) ≤ 2 ^ k := Nat.pow_le_pow_right (by decide) (by omega)
    unfold nodeAt
    omega

/-- From a leaf right of the tree the walk up stays right of it, and at the level cap it
goes back and forth for ever. -/
theorem parent_hang {tree : RatchetTree} {m c : ℕ} (h : tree.Covers m) (hm : 0 < m) (hm' : m ≤ 31)
    (hc : 2 ^ m ≤ c) (hc' : c < 2 ^ 32) : tree.parent (2 * c) = .error .hang := by
  have hpow : 2 ^ 1 ≤ 2 ^ m := Nat.pow_le_pow_right (by decide) hm
  have hleaf : nodeAt 0 (c / 2 ^ 0) = 2 * c := by simp
  have hroot : 2 * c ≠ tree.root := by
    rw [root_of_covers h, ← hleaf]
    intro heq
    exact absurd (nodeAt_injective heq).1 (by omega)
  have hn : ¬ tree.numLeaves ≤ 1 := by
    rw [h.1]
    omega
  have hwidth : 2 * tree.numLeaves - 1 = 2 ^ (m + 1) - 1 := by
    rw [h.1, pow_succ, Nat.mul_comm]
  rw [parent, if_neg hn, if_neg hroot, hwidth, reparent_hang_iff]
  intro n
  rw [← Function.iterate_succ_apply]
  have hcap : 2 ^ (m + 1) ≤ 2 ^ 32 := Nat.pow_le_pow_right (by decide) (by omega)
  have hclimb : ∀ k ≤ 32, parentStep^[k] (2 * c) = nodeAt k (c / 2 ^ k) := by
    intro k
    induction k with
    | zero => simp
    | succ k ih =>
        intro hk
        rw [Function.iterate_succ_apply', ih (by omega), parentStep_nodeAt (by omega),
          Nat.div_div_eq_div_mul, pow_succ]
  have htop : ∀ k, parentStep^[k] (nodeAt 32 0) = nodeAt 32 0 ∨
      parentStep^[k] (nodeAt 32 0) = nodeAt 33 0 := by
    intro k
    induction k with
    | zero => exact .inl rfl
    | succ k ih =>
        rw [Function.iterate_succ_apply']
        rcases ih with ih | ih
        · rw [ih]
          exact .inr (parentStep_nodeAt le_rfl)
        · rw [ih, parentStep_capped le_rfl]
          exact .inl (by decide)
  by_cases hle : n + 1 ≤ 32
  · rw [hclimb _ hle]
    exact le_ancestor hc
  · obtain ⟨k, hk⟩ : ∃ k, n.succ = k + 32 := ⟨n.succ - 32, by omega⟩
    rw [hk, Function.iterate_add_apply, hclimb 32 le_rfl, Nat.div_eq_of_lt hc']
    rcases htop k with h' | h'
    · rw [h', nodeAt_zero_right]
      omega
    · rw [h', nodeAt_zero_right]
      omega

theorem directPath_hang {tree : RatchetTree} {m c : ℕ} (h : tree.Covers m) (hm : 0 < m)
    (hm' : m ≤ 31) (hc : 2 ^ m ≤ c) (hc' : c < 2 ^ 32) :
    tree.directPath (2 * c) = .error .hang := by
  have hleaf : nodeAt 0 c = 2 * c := by simp
  have hroot : 2 * c ≠ tree.root := by
    rw [root_of_covers h, ← hleaf]
    intro heq
    exact absurd (nodeAt_injective heq).1 (by omega)
  rw [directPath, if_neg hroot, directPathLoop, parent_hang h hm hm' hc hc']
  rfl

/-- With at most one leaf slot every parent is node 0, and the walks end at once. -/
theorem walks_of_small {tree : RatchetTree} (hn : tree.numLeaves ≤ 1) (x : ℕ) :
    ∃ direct cop, tree.directPath x = .ok direct ∧ tree.copath x = .ok cop := by
  have hparent : ∀ y, tree.parent y = .ok 0 := fun y => by rw [parent, if_pos hn]
  have hsibling : ∀ y, tree.sibling y = .ok y := fun y => by rw [sibling, if_pos hn]
  have hroot : tree.root = 0 := by rw [root, if_pos hn]
  have hcopath : ∀ (dpath : List ℕ) (y : ℕ), ∃ cop, tree.copathLoop y dpath = .ok cop := by
    intro dpath
    induction dpath with
    | nil => exact fun y => ⟨[], rfl⟩
    | cons p dpath ih =>
        intro y
        obtain ⟨rest, hrest⟩ := ih p
        exact ⟨_, by rw [copathLoop, hsibling, Py.ok_bind, hrest, Py.ok_bind]; rfl⟩
  have hdirect : ∃ direct, tree.directPath x = .ok direct := by
    unfold directPath
    split
    · exact ⟨[], rfl⟩
    · rw [directPathLoop, hparent, Py.ok_bind, hroot, if_pos (rfl : (0 : ℕ) = 0)]
      split
      · exact ⟨[], rfl⟩
      · exact ⟨[0], rfl⟩
  obtain ⟨direct, hdirect⟩ := hdirect
  obtain ⟨cop, hcop⟩ := hcopath direct x
  exact ⟨direct, cop, hdirect, by rw [copath, hdirect, Py.ok_bind, hcop]⟩

/-- The walks from a leaf inside a tree off the wire end, as they do in a tree of one leaf slot. -/
theorem OnWire.walks_of_inside {tree : RatchetTree} (h : tree.OnWire) {c : ℕ}
    (hin : tree.numLeaves ≤ 1 ∨ c < tree.numLeaves) :
    ∃ direct cop, tree.directPath (2 * c) = .ok direct ∧ tree.copath (2 * c) = .ok cop := by
  by_cases hsmall : tree.numLeaves ≤ 1
  · exact walks_of_small hsmall (2 * c)
  · replace hin := hin.resolve_left hsmall
    rcases h.covers with ⟨hzero, -⟩ | ⟨m, hm, hcovers⟩
    · omega
    · rw [hcovers.1] at hin
      exact ⟨_, _, directPath_leaf hcovers (by omega) hin, copath_leaf hcovers (by omega) hin⟩

theorem OnWire.directPath_hang {tree : RatchetTree} (h : tree.OnWire) {c : ℕ} (hc : c < 2 ^ 32)
    (hout : ¬ (tree.numLeaves ≤ 1 ∨ c < tree.numLeaves)) :
    tree.directPath (2 * c) = .error .hang := by
  rcases h.covers with ⟨hzero, -⟩ | ⟨m, hm, hcovers⟩
  · omega
  · rw [hcovers.1] at hout
    have hpos : 0 < m := by
      by_contra hm0
      have hone : m = 0 := by omega
      subst hone
      simp at hout
    exact RatchetTree.directPath_hang hcovers hpos (by omega) (by omega) hc

end RatchetTree

/-- What the wire format says about a commit's tree and committer index. -/
theorem GroupUpdate.fromBytes_tree {data : Bytes} {update : GroupUpdate}
    (h : GroupUpdate.fromBytes data = .ok update) :
    (∃ raw, RatchetTree.fromBytes raw = .ok update.tree) ∧ update.committerIndex < 2 ^ 32 := by
  have htree : ∀ raw, Yields (Decoder.lift (RatchetTree.fromBytes raw)) fun tree =>
      ∃ raw, RatchetTree.fromBytes raw = .ok tree := fun raw => .lift fun tree hread => ⟨raw, hread⟩
  have hyields : Yields fromBytesAt fun update : GroupUpdate =>
      (∃ raw, RatchetTree.fromBytes raw = .ok update.tree) ∧ update.committerIndex < 2 ^ 32 :=
    Yields.any.bind fun _ _ => Yields.any.bind fun raw _ => (htree raw).bind fun _ htree =>
      Yields.any.bind fun _ _ => Yields.any.bind fun _ _ =>
        (yields_unpackFrom 4).bind fun _ hcommitter =>
        Yields.any.bind fun _ _ => Yields.any.bind fun _ _ => .pure ⟨htree, hcommitter⟩
  exact hyields.run h

end PureMls
