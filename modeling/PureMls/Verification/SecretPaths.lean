import PureMls.Verification.TreeMath
import PureMls.Model.SecretTree

/-! # Paths of the secret tree

For any number of leaves the walk from a leaf ends at the root. -/

namespace PureMls

namespace SecretTree

open CompleteTree

variable {n k j : ℕ}

/-! ## Level, root and parent -/

theorem lt_two_pow_bitLength (x : ℕ) : x < 2 ^ bitLength x := by
  unfold bitLength
  by_cases hx : x = 0
  · rw [if_pos hx, hx]
    decide
  · rw [if_neg hx]
    exact Nat.lt_log2_self

theorem level_nodeAt : level (nodeAt k j) = k := by
  unfold level
  rw [Nat.and_one_is_mod]
  cases k with
  | zero => simp
  | succ k =>
      rw [nodeAt_succ_mod_two, if_neg (by decide)]
      refine RatchetTree.levelLoop_nodeAt (by omega) ?_
      have hle : 2 ^ (k + 1) ≤ nodeAt (k + 1) j + 1 := by
        rw [nodeAt_add_one]
        exact Nat.le_mul_of_pos_right _ (by omega)
      have hlt := lt_two_pow_bitLength (nodeAt (k + 1) j)
      have hpow : 2 ^ (k + 1) ≤ 2 ^ bitLength (nodeAt (k + 1) j) := hle.trans hlt
      rw [Nat.zero_add]
      exact (Nat.pow_le_pow_iff_right (by decide)).mp hpow

theorem parentStep_nodeAt : parentStep (nodeAt k j) = nodeAt (k + 1) (j / 2) := by
  unfold parentStep
  simp only [level_nodeAt, bit_above]
  exact xor_parent k j

theorem left_nodeAt : left (nodeAt (k + 1) j) = .ok (nodeAt k (2 * j)) := by
  rw [left, level_nodeAt, Py.require_of _ (Nat.succ_ne_zero k), Py.ok_bind, Py.pure_eq]
  exact congrArg Except.ok (xor_leftChild k j)

/-- The height of the root of a tree with `n` leaves. -/
def height (n : ℕ) : ℕ := bitLength (2 * n - 1) - 1

theorem height_spec (hn : 1 < n) : 2 ^ height n ≤ 2 * n - 1 ∧ 2 * n - 1 < 2 ^ (height n + 1) := by
  have hne : 2 * n - 1 ≠ 0 := by omega
  rw [height, bitLength, if_neg hne, Nat.add_sub_cancel]
  exact (Nat.log2_eq_iff hne).mp rfl

theorem root_eq_nodeAt (hn : 1 < n) : root n = nodeAt (height n) 0 := by
  rw [root, if_neg (by omega), Nat.one_shiftLeft, nodeAt_zero_right]
  rfl

theorem parent_le (k j : ℕ) : nodeAt (k + 1) (j / 2) ≤ 3 * nodeAt k j + 2 := by
  have hnode := nodeAt_add_one k j
  have hparent := nodeAt_add_one (k + 1) (j / 2)
  have hle : 2 ^ (k + 1) * (2 * (j / 2) + 1) ≤ 3 * (2 ^ k * (2 * j + 1)) := by
    calc 2 ^ (k + 1) * (2 * (j / 2) + 1) = 2 ^ k * (2 * (2 * (j / 2) + 1)) := by ring
      _ ≤ 2 ^ k * (3 * (2 * j + 1)) := Nat.mul_le_mul_left _ (by omega)
      _ = 3 * (2 ^ k * (2 * j + 1)) := by ring
  omega

theorem reparent_ok {fuel : ℕ} (hn : 1 < n) (hk : k ≤ height n) (hj : j < 2 ^ (height n - k))
    (hfuel : height n - k < fuel) :
    ∃ k' j', reparent (2 * n - 1) fuel (nodeAt k j) = .ok (nodeAt k' j') ∧ k ≤ k' ∧ k' ≤ height n ∧
      j' < 2 ^ (height n - k') := by
  induction fuel generalizing k j with
  | zero => omega
  | succ fuel ih =>
      rw [reparent]
      by_cases hlt : nodeAt k j < 2 * n - 1
      · rw [if_pos hlt]
        exact ⟨k, j, rfl, le_rfl, hk, hj⟩
      · rw [if_neg hlt, parentStep_nodeAt]
        have hbelow : k < height n := by
          refine lt_of_le_of_ne hk fun heq => hlt ?_
          -- the root itself stands in the array
          rw [heq, Nat.sub_self, pow_zero, Nat.lt_one_iff] at hj
          have hroot := (height_spec hn).1
          have hpos : 0 < 2 ^ height n := Nat.two_pow_pos _
          rw [heq, hj, nodeAt_zero_right]
          omega
        have hhalf : 2 ^ (height n - k) = 2 * 2 ^ (height n - (k + 1)) := by
          rw [← pow_succ']
          congr 1
          omega
        obtain ⟨k', j', hreach, hle, hle', hj'⟩ :=
          ih (k := k + 1) (j := j / 2) hbelow (by omega) (by omega)
        exact ⟨k', j', hreach, by omega, hle', hj'⟩

/-- The parent of a node below the root is a higher node below the root. -/
theorem parent_ok (hn : 1 < n) (hk : k < height n) (hj : j < 2 ^ (height n - k)) :
    ∃ k' j', parent (nodeAt k j) n = .ok (nodeAt (k' + 1) j') ∧ k' + 1 ≤ height n ∧
      j' < 2 ^ (height n - (k' + 1)) := by
  have hroot : nodeAt k j ≠ root n := by
    rw [root_eq_nodeAt hn]
    exact fun heq => hk.ne (nodeAt_injective heq).1
  have hhalf : 2 ^ (height n - k) = 2 * 2 ^ (height n - (k + 1)) := by
    rw [← pow_succ']
    congr 1
    omega
  have hj' : j / 2 < 2 ^ (height n - (k + 1)) := by omega
  rw [parent, if_neg (by omega), if_neg hroot, parentStep_nodeAt]
  by_cases hfuel : height n ≤ bitLength (nodeAt k j) + 3
  · have hrounds : height n - (k + 1) < bitLength (nodeAt k j) + 3 := by omega
    obtain ⟨k', j', hreach, hle, hle', hj'⟩ := reparent_ok hn hk hj' hrounds
    obtain ⟨i, rfl⟩ : ∃ i, k' = i + 1 := ⟨k' - 1, by omega⟩
    exact ⟨i, j', hreach, hle', hj'⟩
  · -- the node is so small that its parent stands in the array
    have hlt : nodeAt (k + 1) (j / 2) < 2 * n - 1 := by
      have hparent := parent_le k j
      have hbits := lt_two_pow_bitLength (nodeAt k j)
      have hpow : 2 ^ (bitLength (nodeAt k j) + 2) ≤ 2 ^ height n :=
        Nat.pow_le_pow_right (by decide) (by omega)
      have hsize := (height_spec hn).1
      rw [pow_add] at hpow
      omega
    refine ⟨k, j / 2, ?_, hk, hj'⟩
    rw [reparent, if_pos hlt]

/-! ## Paths -/

theorem getPathLoop_ok (hn : 1 < n) {depth : ℕ} (hk : k ≤ height n) (hj : j < 2 ^ (height n - k)) :
    ∃ path, getPathLoop n depth (nodeAt k j) = .ok path := by
  induction depth generalizing k j with
  | zero => exact ⟨[], rfl⟩
  | succ depth ih =>
      rw [getPathLoop]
      by_cases hroot : nodeAt k j = root n
      · exact ⟨[], by rw [if_pos hroot]; rfl⟩
      · have hlt : k < height n := by
          refine lt_of_le_of_ne hk fun heq => hroot ?_
          rw [heq, Nat.sub_self, pow_zero, Nat.lt_one_iff] at hj
          rw [root_eq_nodeAt hn, heq, hj]
        obtain ⟨k', j', hparent, hk', hj'⟩ := parent_ok hn hlt hj
        obtain ⟨rest, hrest⟩ := ih hk' hj'
        simp only [if_neg hroot, hparent, Py.ok_bind, left_nodeAt, hrest]
        exact ⟨_, rfl⟩

theorem getPath_ok {leaf : ℕ} (h : leaf < n) : ∃ path, getPath leaf n = .ok path := by
  have hnode : leaf * 2 = nodeAt 0 leaf := by
    rw [nodeAt]
    omega
  have hloop : ∃ path, getPathLoop n 32 (leaf * 2) = .ok path := by
    by_cases hn : 1 < n
    · rw [hnode]
      refine getPathLoop_ok hn (Nat.zero_le _) ?_
      have hsize := (height_spec hn).2
      rw [pow_succ] at hsize
      rw [Nat.sub_zero]
      omega
    · have hzero : leaf = 0 := by omega
      have hroot : leaf * 2 = root n := by rw [hzero, root, if_pos (by omega)]
      exact ⟨[], by rw [getPathLoop, if_pos hroot]; rfl⟩
  obtain ⟨path, hpath⟩ := hloop
  exact ⟨path.reverse, by rw [getPath, hpath, Py.map_ok]⟩

end SecretTree

end PureMls
