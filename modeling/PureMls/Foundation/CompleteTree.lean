import Mathlib.Data.Nat.Bitwise
import Mathlib.Algebra.Order.Ring.Nat
import Mathlib.Tactic.Ring

/-! # Complete binary trees in in-order numbering

The nodes of a complete binary tree numbered from left to right: leaves get the even
numbers, and a node at height `k` ends in exactly `k` one bits. -/

namespace CompleteTree

/-- The `j`-th node, from the left, at height `k`. -/
def nodeAt (k j : ℕ) : ℕ := 2 ^ (k + 1) * j + (2 ^ k - 1)

@[simp] theorem nodeAt_zero (j : ℕ) : nodeAt 0 j = 2 * j := by simp [nodeAt]

theorem nodeAt_zero_right (k : ℕ) : nodeAt k 0 = 2 ^ k - 1 := by simp [nodeAt]

theorem nodeAt_add_one (k j : ℕ) : nodeAt k j + 1 = 2 ^ k * (2 * j + 1) := by
  have hpos : 0 < 2 ^ k := Nat.two_pow_pos k
  have hmul : 2 ^ (k + 1) * j = 2 ^ k * (2 * j) := by ring
  rw [nodeAt, Nat.mul_add, ← hmul]
  omega

theorem nodeAt_succ_mod_two (k j : ℕ) : nodeAt (k + 1) j % 2 = 1 := by
  have h := nodeAt_add_one (k + 1) j
  have hpow : 2 ^ (k + 1) * (2 * j + 1) = 2 * (2 ^ k * (2 * j + 1)) := by ring
  omega

theorem exists_nodeAt (x : ℕ) : ∃ k j, x = nodeAt k j := by
  induction x using Nat.strong_induction_on with
  | _ x ih =>
      rcases Nat.even_or_odd' x with ⟨y, rfl | rfl⟩
      · exact ⟨0, y, by simp⟩
      · obtain ⟨k, j, hy⟩ := ih y (by omega)
        refine ⟨k + 1, j, ?_⟩
        have h1 := nodeAt_add_one k j
        have h2 := nodeAt_add_one (k + 1) j
        have h3 : 2 ^ (k + 1) * (2 * j + 1) = 2 * (2 ^ k * (2 * j + 1)) := by ring
        omega

/-! ## Bits -/

theorem testBit_nodeAt (k j i : ℕ) :
    (nodeAt k j).testBit i = if i ≤ k then decide (i < k) else j.testBit (i - (k + 1)) := by
  have hlt : 2 ^ k - 1 < 2 ^ (k + 1) := by
    have hpos : 0 < 2 ^ k := Nat.two_pow_pos k
    rw [pow_succ]
    omega
  rw [nodeAt, Nat.testBit_two_pow_mul_add j hlt, Nat.testBit_two_pow_sub_one]
  by_cases h : i ≤ k
  · rw [if_pos (Nat.lt_succ_of_le h), if_pos h]
  · rw [if_neg (by omega), if_neg h]

theorem bit_eq_testBit (x i : ℕ) : (x >>> i) &&& 1 = (x.testBit i).toNat := by
  rw [Nat.and_one_is_mod, Nat.shiftRight_eq_div_pow, Nat.toNat_testBit]

/-- The bit just above the trailing ones says which child a node is. -/
theorem bit_above (k j : ℕ) : (nodeAt k j >>> (k + 1)) &&& 1 = j % 2 := by
  rw [bit_eq_testBit, testBit_nodeAt, if_neg (by omega), Nat.sub_self, Nat.toNat_testBit]
  simp

/-- Setting the lowest zero bit and clearing the next one goes to the parent. -/
theorem xor_parent (k j : ℕ) :
    nodeAt k j ^^^ ((1 <<< k) ||| ((j % 2) <<< (k + 1))) = nodeAt (k + 1) (j / 2) := by
  apply Nat.eq_of_testBit_eq
  intro i
  simp only [Nat.testBit_xor, Nat.testBit_or, Nat.testBit_shiftLeft, testBit_nodeAt]
  rcases Nat.lt_trichotomy i k with h | h | h
  · simp [h, h.le, Nat.not_le.mpr h, Nat.not_le.mpr (Nat.lt_succ_of_lt h), Nat.le_succ_of_le h.le,
      Nat.lt_succ_of_lt h]
  · simp [h]
  · rcases Nat.eq_or_lt_of_le (Nat.succ_le_of_lt h) with h' | h'
    · subst h'
      have hone : (1 : ℕ).testBit 1 = false := by decide
      simp [Nat.testBit_zero, hone]
    · obtain ⟨n, rfl⟩ : ∃ n, i = k + 2 + n := ⟨i - (k + 2), by omega⟩
      have h1 : k + 2 + n - k = n + 2 := by omega
      have h2 : k + 2 + n - (k + 1) = n + 1 := by omega
      have h3 : k + 2 + n - (k + 1 + 1) = n := by omega
      have h4 : ¬ k + 2 + n ≤ k := by omega
      have h5 : ¬ k + 2 + n ≤ k + 1 := by omega
      have hsmall : (j % 2).testBit (n + 1) = false := by
        rw [Nat.testBit_succ, Nat.div_eq_of_lt (Nat.mod_lt j (by decide)), Nat.zero_testBit]
      have hone : (1 : ℕ).testBit (n + 2) = false := by
        rw [Nat.testBit_succ, Nat.div_eq_of_lt (by decide), Nat.zero_testBit]
      rw [h1, h2, h3, if_neg h4, if_neg h5, hsmall, hone, Nat.testBit_succ]
      simp

/-- Clearing the highest of the trailing ones goes to the left child. -/
theorem xor_leftChild (k j : ℕ) : nodeAt (k + 1) j ^^^ (1 <<< k) = nodeAt k (2 * j) := by
  have h := xor_parent k (2 * j)
  rw [Nat.mul_mod_right, Nat.zero_shiftLeft, Nat.or_zero,
    Nat.mul_div_cancel_left j (by decide)] at h
  rw [← h, Nat.xor_xor_cancel_right]

/-- Clearing it and setting the bit above goes to the right child. -/
theorem xor_rightChild (k j : ℕ) : nodeAt (k + 1) j ^^^ (0x03 <<< k) = nodeAt k (2 * j + 1) := by
  have hbits : 0x03 <<< k = (1 <<< k) ||| (1 <<< (k + 1)) := by
    rw [Nat.add_comm k 1, Nat.shiftLeft_add, ← Nat.shiftLeft_or_distrib]
    rfl
  have h := xor_parent k (2 * j + 1)
  have hodd : (2 * j + 1) % 2 = 1 := by omega
  have hhalf : (2 * j + 1) / 2 = j := by omega
  rw [hodd, hhalf, ← hbits] at h
  rw [← h, Nat.xor_xor_cancel_right]

/-! ## Ancestors -/

theorem nodeAt_lt_iff {k j m : ℕ} (hk : k ≤ m) :
    nodeAt k j < 2 ^ (m + 1) - 1 ↔ j < 2 ^ (m - k) := by
  obtain ⟨d, rfl⟩ : ∃ d, m = k + d := ⟨m - k, by omega⟩
  have hsub : k + d - k = d := by omega
  have h1 := nodeAt_add_one k j
  have hpos : 0 < 2 ^ k := Nat.two_pow_pos k
  have hpow : 2 ^ (k + d + 1) = 2 ^ k * (2 * 2 ^ d) := by ring
  rw [hsub]
  constructor
  · intro h
    have hlt : 2 ^ k * (2 * j + 1) < 2 ^ k * (2 * 2 ^ d) := by omega
    have := Nat.lt_of_mul_lt_mul_left hlt
    omega
  · intro h
    have hlt : 2 ^ k * (2 * j + 1) < 2 ^ k * (2 * 2 ^ d) :=
      Nat.mul_lt_mul_of_pos_left (by omega) hpos
    omega

theorem nodeAt_injective {k k' j j' : ℕ} (h : nodeAt k j = nodeAt k' j') : k = k' ∧ j = j' := by
  have hk : k = k' := by
    by_contra hne
    rcases Nat.lt_or_gt_of_ne hne with hlt | hlt
    · have hb := congrArg (fun x => x.testBit k) h
      simp only [testBit_nodeAt, le_refl, if_true, if_pos hlt.le, hlt, decide_true,
        Nat.lt_irrefl, decide_false] at hb
      exact absurd hb (by decide)
    · have hb := congrArg (fun x => x.testBit k') h
      simp only [testBit_nodeAt, le_refl, if_true, if_pos hlt.le, hlt, decide_true,
        Nat.lt_irrefl, decide_false] at hb
      exact absurd hb (by decide)
  subst hk
  refine ⟨rfl, ?_⟩
  have hmul : 2 ^ (k + 1) * j = 2 ^ (k + 1) * j' := by
    rw [nodeAt, nodeAt] at h
    omega
  exact Nat.eq_of_mul_eq_mul_left (Nat.two_pow_pos _) hmul

/-- A node in the array of a tree of height `m` is at most that high. -/
theorem le_of_nodeAt_lt {k j m : ℕ} (h : nodeAt k j < 2 ^ (m + 1) - 1) : k ≤ m := by
  have hnode := nodeAt_add_one k j
  have hle : 2 ^ k ≤ 2 ^ k * (2 * j + 1) := Nat.le_mul_of_pos_right _ (by omega)
  have hlt : 2 ^ k < 2 ^ (m + 1) := by omega
  exact Nat.lt_succ_iff.mp ((Nat.pow_lt_pow_iff_right (by decide)).mp hlt)

/-! ## Subtrees -/

theorem nodeAt_sub (k j : ℕ) : nodeAt (k + 1) j - 2 ^ k = nodeAt k (2 * j) := by
  have h1 := nodeAt_add_one (k + 1) j
  have h2 := nodeAt_add_one k (2 * j)
  have hpow : 2 ^ (k + 1) * (2 * j + 1) = 2 ^ k * (2 * (2 * j) + 1) + 2 ^ k := by ring
  omega

theorem nodeAt_add (k j : ℕ) : nodeAt (k + 1) j + 2 ^ k = nodeAt k (2 * j + 1) := by
  have h1 := nodeAt_add_one (k + 1) j
  have h2 := nodeAt_add_one k (2 * j + 1)
  have hpow : 2 ^ k * (2 * (2 * j + 1) + 1) = 2 ^ (k + 1) * (2 * j + 1) + 2 ^ k := by ring
  omega

/-- Leaf `l` is in the subtree of node `x`. -/
def Under (x l : ℕ) : Prop := ∃ k, x = nodeAt k (l / 2 ^ k)

@[simp] theorem under_nodeAt {k j l : ℕ} : Under (nodeAt k j) l ↔ l / 2 ^ k = j := by
  constructor
  · rintro ⟨k', h⟩
    obtain ⟨rfl, rfl⟩ := nodeAt_injective h
    rfl
  · rintro rfl
    exact ⟨k, rfl⟩

theorem under_leaf {l l' : ℕ} : Under (2 * l) l' ↔ l' = l := by
  rw [← nodeAt_zero, under_nodeAt, pow_zero, Nat.div_one]

/-- What is under a node is under its parent. -/
theorem Under.parent {k j l : ℕ} (h : Under (nodeAt k j) l) : Under (nodeAt (k + 1) (j / 2)) l := by
  rw [under_nodeAt] at h ⊢
  rw [pow_succ, ← Nat.div_div_eq_div_mul, h]

/-- Every node has leaves under it. -/
theorem exists_under (x : ℕ) : ∃ l, Under x l := by
  obtain ⟨k, j, rfl⟩ := exists_nodeAt x
  exact ⟨2 ^ k * j, by rw [under_nodeAt, Nat.mul_div_cancel_left j (Nat.two_pow_pos k)]⟩

/-- At each height there are twice as many nodes as above. -/
theorem two_pow_sub_succ {m k : ℕ} (h : k < m) : 2 ^ (m - k) = 2 * 2 ^ (m - (k + 1)) := by
  rw [← pow_succ', show m - (k + 1) + 1 = m - k by omega]

theorem under_children {k j l : ℕ} :
    Under (nodeAt (k + 1) j) l ↔ Under (nodeAt k (2 * j)) l ∨ Under (nodeAt k (2 * j + 1)) l := by
  rw [under_nodeAt, under_nodeAt, under_nodeAt, pow_succ, ← Nat.div_div_eq_div_mul]
  omega

/-- The nodes whose leaves are all under a node are those of its subtree. -/
theorem forall_under_iff {k j h i : ℕ} :
    (∀ l, Under (nodeAt h i) l → Under (nodeAt k j) l) ↔ h ≤ k ∧ i / 2 ^ (k - h) = j := by
  simp only [under_nodeAt]
  constructor
  · intro hsub
    have hpos := Nat.two_pow_pos h
    have hfirst : 2 ^ h * i / 2 ^ k = j := hsub _ (Nat.mul_div_cancel_left i hpos)
    have hlast : (2 ^ h * i + (2 ^ h - 1)) / 2 ^ k = j := by
      apply hsub
      rw [Nat.mul_add_div hpos, Nat.div_eq_of_lt (by omega), Nat.add_zero]
    rcases le_or_gt h k with hle | hlt
    · obtain ⟨d, rfl⟩ := Nat.exists_eq_add_of_le hle
      rw [pow_add, ← Nat.div_div_eq_div_mul, Nat.mul_div_cancel_left i hpos] at hfirst
      exact ⟨hle, by rwa [Nat.add_sub_cancel_left]⟩
    · -- a higher node has more leaves than those of one node at height `k`
      obtain ⟨d, rfl⟩ := Nat.exists_eq_add_of_lt hlt
      have hk := Nat.two_pow_pos k
      have hsplit : 2 ^ (k + d + 1) = 2 ^ k * (2 ^ d * 2) := by ring
      rw [hsplit, Nat.mul_assoc, Nat.mul_div_cancel_left _ hk] at hfirst
      have hd := Nat.two_pow_pos d
      have hmore : 2 ^ k * (j + 1) ≤ 2 ^ (k + d + 1) * i + (2 ^ (k + d + 1) - 1) := by
        rw [hsplit, Nat.mul_assoc, hfirst, Nat.mul_add, Nat.mul_one]
        have hlarge : 2 ^ k * 2 ≤ 2 ^ k * (2 ^ d * 2) := Nat.mul_le_mul_left _ (by omega)
        omega
      have hover := (Nat.le_div_iff_mul_le hk).mpr (Nat.mul_comm _ _ ▸ hmore)
      omega
  · rintro ⟨hle, rfl⟩ l rfl
    rw [Nat.div_div_eq_div_mul, ← pow_add, Nat.add_sub_cancel' hle]

/-- What is under the left child of a node is numbered before it. -/
theorem nodeAt_lt_of_left {k d j g : ℕ} (h : j / 2 ^ d = 2 * g) :
    nodeAt k j < nodeAt (k + d + 1) g := by
  have hj := Nat.div_add_mod j (2 ^ d)
  have hr := Nat.mod_lt j (Nat.two_pow_pos d)
  rw [h] at hj
  have hnode := nodeAt_add_one k j
  have hup := nodeAt_add_one (k + d + 1) g
  have hlt : 2 ^ k * (2 * j + 1) < 2 ^ k * (2 * 2 ^ d * (2 * g + 1)) := by
    apply Nat.mul_lt_mul_of_pos_left _ (Nat.two_pow_pos k)
    have hexp : 2 * 2 ^ d * (2 * g + 1) = 2 * (2 ^ d * (2 * g)) + 2 * 2 ^ d := by ring
    omega
  have hpow : 2 ^ (k + d + 1) * (2 * g + 1) = 2 ^ k * (2 * 2 ^ d * (2 * g + 1)) := by ring
  omega

/-- What is under its right child is numbered behind it. -/
theorem nodeAt_lt_of_right {k d j g : ℕ} (h : j / 2 ^ d = 2 * g + 1) :
    nodeAt (k + d + 1) g < nodeAt k j := by
  have hj := Nat.div_add_mod j (2 ^ d)
  rw [h] at hj
  have hnode := nodeAt_add_one k j
  have hup := nodeAt_add_one (k + d + 1) g
  have hlt : 2 ^ k * (2 * 2 ^ d * (2 * g + 1)) < 2 ^ k * (2 * j + 1) := by
    apply Nat.mul_lt_mul_of_pos_left _ (Nat.two_pow_pos k)
    have hexp : 2 * 2 ^ d * (2 * g + 1) = 2 * (2 ^ d * (2 * g + 1)) := by ring
    omega
  have hpow : 2 ^ (k + d + 1) * (2 * g + 1) = 2 ^ k * (2 * 2 ^ d * (2 * g + 1)) := by ring
  omega

end CompleteTree
