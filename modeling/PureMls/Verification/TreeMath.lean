import PureMls.Foundation.CompleteTree
import PureMls.Verification.RoundTrip

/-! # The tree walks on trees with a power of two of leaves -/

namespace PureMls

namespace RatchetTree

open CompleteTree

/-- The tree has `2 ^ m` leaves and all the nodes that go with them. -/
def Sized (tree : RatchetTree) (m : ℕ) : Prop :=
  tree.numLeaves = 2 ^ m ∧ tree.nodes.length = 2 ^ (m + 1) - 1

/-- A tree with `2 ^ m` leaves whose node array reaches at least to the last of them. An even
number of entries on the wire makes the array one longer than it should be. -/
def Covers (tree : RatchetTree) (m : ℕ) : Prop :=
  tree.numLeaves = 2 ^ m ∧ 2 ^ (m + 1) - 1 ≤ tree.nodes.length

variable {tree : RatchetTree} {m k j : ℕ}

theorem Sized.covers (h : tree.Sized m) : tree.Covers m := ⟨h.1, h.2.ge⟩

theorem Sized.shape (h : tree.Sized m) : tree.Shape :=
  .inr ⟨m, h.1, by rw [h.2, pow_succ, Nat.mul_comm]⟩

/-! ## Level, root and parent -/

theorem levelLoop_nodeAt {rounds i : ℕ} (hik : i ≤ k) (hk : k ≤ i + rounds) :
    levelLoop (nodeAt k j) rounds i = k := by
  induction rounds generalizing i with
  | zero =>
      have heq : i = k := by omega
      rw [levelLoop, heq]
  | succ rounds ih =>
      rw [levelLoop, bit_eq_testBit, testBit_nodeAt, if_pos hik]
      by_cases h : i < k
      · simp only [h, decide_true, Bool.toNat_true, if_true]
        exact ih h (by omega)
      · have heq : i = k := by omega
        simp [heq]

theorem level_nodeAt (hk : k ≤ 32) : level (nodeAt k j) = k := by
  unfold level
  rw [Nat.and_one_is_mod]
  cases k with
  | zero => simp
  | succ k =>
      rw [nodeAt_succ_mod_two, if_neg (by decide)]
      exact levelLoop_nodeAt (by omega) (by omega)

theorem parentStep_nodeAt (hk : k ≤ 32) : parentStep (nodeAt k j) = nodeAt (k + 1) (j / 2) := by
  unfold parentStep
  simp only [level_nodeAt hk, bit_above]
  exact xor_parent k j

private theorem levelLoop_capped {rounds i : ℕ} (h : i + rounds ≤ k) :
    levelLoop (nodeAt k j) rounds i = i + rounds := by
  induction rounds generalizing i with
  | zero => rfl
  | succ rounds ih =>
      have hbit : (nodeAt k j).testBit i = true := by
        rw [testBit_nodeAt, if_pos (by omega), decide_eq_true (by omega)]
      rw [levelLoop, bit_eq_testBit, hbit, Bool.toNat_true, if_pos rfl, ih (by omega)]
      omega

theorem level_capped (hk : 33 ≤ k) : level (nodeAt k j) = 32 := by
  obtain ⟨k, rfl⟩ : ∃ i, k = i + 1 := ⟨k - 1, by omega⟩
  rw [level, Nat.and_one_is_mod, nodeAt_succ_mod_two, if_neg (by decide),
    levelLoop_capped (by omega)]

/-- Above height 32 the level is capped, and the walk falls back to height 32. -/
theorem parentStep_capped (hk : 33 ≤ k) :
    parentStep (nodeAt k j) = nodeAt 32 (2 * (nodeAt k j / 2 ^ 34)) := by
  have hones : ∀ n ≤ 32, (nodeAt k j).testBit n = true := by
    intro n hn
    rw [testBit_nodeAt, if_pos (by omega), decide_eq_true (by omega)]
  apply Nat.eq_of_testBit_eq
  intro n
  rw [parentStep, level_capped hk, Nat.testBit_xor, Nat.testBit_or, Nat.testBit_shiftLeft,
    Nat.testBit_shiftLeft, bit_eq_testBit, testBit_nodeAt 32]
  rcases Nat.lt_trichotomy n 32 with h | rfl | h
  · rw [hones n h.le, if_pos h.le, decide_eq_false (by omega), decide_eq_false (by omega),
      decide_eq_true h]
    rfl
  · rw [hones 32 le_rfl]
    simp
  · rw [if_neg (by omega)]
    obtain ⟨i, rfl⟩ : ∃ i, n = i + 33 := ⟨n - 33, by omega⟩
    have h32 : i + 33 - 32 = i + 1 := by omega
    have h33 : i + 33 - (32 + 1) = i := by omega
    have hone : (1 : ℕ).testBit (i + 1) = false := by
      rw [Nat.testBit_succ, Nat.div_eq_of_lt (by decide), Nat.zero_testBit]
    rw [h32, h33, hone]
    cases i with
    | zero => cases hb : (nodeAt k j).testBit 33 <;> simp
    | succ i =>
        have hhigh : ∀ b : Bool, b.toNat.testBit (i + 1) = false := by
          intro b
          rw [Nat.testBit_succ, Nat.div_eq_of_lt (by cases b <;> decide), Nat.zero_testBit]
        have hdiv :
          (2 * (nodeAt k j / 2 ^ 34)).testBit (i + 1) = (nodeAt k j).testBit (i + 34) := by
          rw [Nat.testBit_succ, Nat.mul_div_cancel_left _ (by decide), Nat.testBit_div_two_pow,
            Nat.add_comm]
        rw [show i + 1 + 33 = i + 34 by omega, hdiv, hhigh]
        simp

theorem parentStep_33 (j : ℕ) : parentStep (nodeAt 33 j) = nodeAt 32 (2 * j) := by
  have hdiv : nodeAt 33 j / 2 ^ 34 = j := by
    rw [nodeAt, Nat.mul_add_div (by decide), Nat.div_eq_of_lt (by decide), Nat.add_zero]
  rw [parentStep_capped le_rfl, hdiv]

private theorem iterate_parentStep {n : ℕ} (h : k + n ≤ 33) :
    parentStep^[n] (nodeAt k j) = nodeAt (k + n) (j / 2 ^ n) := by
  induction n with
  | zero => simp
  | succ n ih =>
      rw [Function.iterate_succ_apply', ih (by omega), parentStep_nodeAt (by omega),
        Nat.div_div_eq_div_mul, pow_succ]
      rfl

/-- Every walk reaches height 33 within 34 steps. -/
private theorem exists_iterate_33 (p : ℕ) : ∃ t ≤ 34, ∃ j, parentStep^[t] p = nodeAt 33 j := by
  obtain ⟨k, j, rfl⟩ := exists_nodeAt p
  by_cases hk : k ≤ 33
  · refine ⟨33 - k, by omega, j / 2 ^ (33 - k), ?_⟩
    rw [iterate_parentStep (by omega)]
    congr 1
    omega
  · refine ⟨2, by omega, nodeAt k j / 2 ^ 34, ?_⟩
    rw [Function.iterate_succ_apply, parentStep_capped (by omega), iterate_parentStep (by omega),
      pow_one, Nat.mul_div_cancel_left _ (by decide)]

/-- From there on the walk alternates between heights 33 and 32. -/
private theorem iterate_add_two {p t n : ℕ} (ht : ∃ j, parentStep^[t] p = nodeAt 33 j)
    (hn : t ≤ n) : parentStep^[n + 2] p = parentStep^[n] p := by
  obtain ⟨j, hj⟩ := ht
  have hbase : parentStep^[t + 2] p = parentStep^[t] p := by
    have hstep := parentStep_nodeAt (k := 32) (j := 2 * j) le_rfl
    rw [Nat.mul_div_cancel_left _ (by decide)] at hstep
    rw [Function.iterate_succ_apply', Function.iterate_succ_apply', hj, parentStep_33, hstep]
  obtain ⟨d, rfl⟩ : ∃ d, n = d + t := ⟨n - t, by omega⟩
  rw [Nat.add_assoc, Function.iterate_add_apply, hbase, ← Function.iterate_add_apply]

private theorem reparent_eq_hang {w fuel p : ℕ} :
    reparent w fuel p = .error .hang ↔ ∀ n < fuel, w ≤ parentStep^[n] p := by
  induction fuel generalizing p with
  | zero => simp [reparent]
  | succ fuel ih =>
      rw [reparent]
      by_cases hlt : p < w
      · rw [if_pos hlt]
        refine iff_of_false (by simp) fun h => ?_
        have h0 := h 0 (by omega)
        rw [Function.iterate_zero_apply] at h0
        omega
      · rw [if_neg hlt, ih]
        constructor
        · intro h n hn
          cases n with
          | zero => simpa using hlt
          | succ n => exact h n (by omega)
        · exact fun h n hn => h (n + 1) (by omega)

/-- The rounds given to the loop are enough: it runs out of them only if it never ends. -/
theorem reparent_hang_iff {w p : ℕ} :
    reparent w 64 p = .error .hang ↔ ∀ n, w ≤ parentStep^[n] p := by
  rw [reparent_eq_hang]
  refine ⟨fun h n => ?_, fun h n _ => h n⟩
  obtain ⟨t, ht, hj⟩ := exists_iterate_33 p
  induction n using Nat.strong_induction_on with
  | _ n ih =>
      by_cases hn : n < 64
      · exact h n hn
      · have hperiod := iterate_add_two (n := n - 2) hj (by omega)
        rw [show n - 2 + 2 = n by omega] at hperiod
        rw [hperiod]
        exact ih (n - 2) (by omega)

theorem root_of_covers (h : tree.Covers m) : tree.root = nodeAt m 0 := by
  rw [nodeAt_zero_right]
  unfold root
  rw [h.1]
  cases m with
  | zero => simp
  | succ m =>
      have hpos : 0 < 2 ^ m := Nat.two_pow_pos m
      have hpow : 2 ^ (m + 1) = 2 * 2 ^ m := by ring
      have hlog : (2 * 2 ^ (m + 1) - 1).log2 = m + 1 := by
        refine (Nat.log2_eq_iff (by omega)).mpr ⟨by omega, ?_⟩
        rw [pow_succ 2 (m + 1)]
        omega
      have hbits : bitLength (2 * 2 ^ (m + 1) - 1) = m + 2 := by
        rw [bitLength, if_neg (by omega), hlog]
      rw [if_neg (by omega), hbits, Nat.one_shiftLeft]
      rfl

theorem nodeAt_lt_of_covers (h : tree.Covers m) (hk : k ≤ m) (hj : j < 2 ^ (m - k)) :
    nodeAt k j < tree.nodes.length :=
  Nat.lt_of_lt_of_le ((nodeAt_lt_iff hk).mpr hj) h.2

private theorem width_of_covers (h : tree.Covers m) : 2 * tree.numLeaves - 1 = 2 ^ (m + 1) - 1 := by
  rw [h.1, pow_succ, Nat.mul_comm]

private theorem div_two_lt {d : ℕ} (hd : 0 < d) (hj : j < 2 ^ d) : j / 2 < 2 ^ (d - 1) := by
  obtain ⟨e, rfl⟩ : ∃ e, d = e + 1 := ⟨d - 1, by omega⟩
  rw [pow_succ] at hj
  simp only [Nat.add_sub_cancel]
  omega

theorem parent_nodeAt (h : tree.Covers m) (hk32 : k ≤ 32) (hk : k < m) (hj : j < 2 ^ (m - k)) :
    tree.parent (nodeAt k j) = .ok (nodeAt (k + 1) (j / 2)) := by
  have hpos : 2 ≤ 2 ^ m := by
    calc 2 = 2 ^ 1 := rfl
      _ ≤ 2 ^ m := Nat.pow_le_pow_right (by decide) (by omega)
  have hroot : nodeAt k j ≠ tree.root := by
    rw [root_of_covers h]
    intro heq
    exact absurd (nodeAt_injective heq).1 (by omega)
  have hlt : nodeAt (k + 1) (j / 2) < 2 * tree.numLeaves - 1 := by
    rw [width_of_covers h, nodeAt_lt_iff hk]
    have hdiv := div_two_lt (by omega) hj
    rwa [Nat.sub_sub] at hdiv
  have hn : ¬ tree.numLeaves ≤ 1 := by
    rw [h.1]
    omega
  rw [parent, if_neg hn, if_neg hroot, parentStep_nodeAt (by omega), reparent, if_pos hlt]

/-- The other child of the same parent. -/
def siblingIndex (j : ℕ) : ℕ := if j % 2 = 0 then j + 1 else j - 1

theorem sibling_nodeAt (h : tree.Covers m) (hk32 : k < 32) (hk : k < m) (hj : j < 2 ^ (m - k)) :
    tree.sibling (nodeAt k j) = .ok (nodeAt k (siblingIndex j)) := by
  have hn : ¬ tree.numLeaves ≤ 1 := by
    have hpos : 2 ^ 1 ≤ 2 ^ m := Nat.pow_le_pow_right (by decide) (by omega)
    rw [h.1]
    omega
  have hpos : 0 < 2 ^ k := Nat.two_pow_pos k
  have hpow : 2 ^ (k + 1) = 2 * 2 ^ k := by ring
  have hpow' : 2 ^ (k + 1 + 1) = 4 * 2 ^ k := by ring
  rw [sibling, if_neg hn, parent_nodeAt h hk32.le hk hj]
  simp only [Py.ok_bind, level_nodeAt (show k + 1 ≤ 32 by omega), Nat.add_sub_cancel,
    Nat.one_shiftLeft, Py.pure_eq]
  have hp : nodeAt (k + 1) (j / 2) = 4 * 2 ^ k * (j / 2) + (2 * 2 ^ k - 1) := by
    rw [nodeAt, hpow, hpow']
  have hx : nodeAt k j = 2 * 2 ^ k * j + (2 ^ k - 1) := by rw [nodeAt, hpow]
  have hs : nodeAt k (siblingIndex j) = 2 * 2 ^ k * siblingIndex j + (2 ^ k - 1) := by
    rw [nodeAt, hpow]
  rw [hp, hx, hs]
  generalize 2 ^ k = w at hpos
  rcases Nat.even_or_odd' j with ⟨q, rfl | rfl⟩
  · have hhalf : 2 * q / 2 = q := by omega
    have hsib : siblingIndex (2 * q) = 2 * q + 1 := by simp [siblingIndex]
    have h1 : 4 * w * q = 4 * (w * q) := by ring
    have h2 : 2 * w * (2 * q) = 4 * (w * q) := by ring
    have h3 : 2 * w * (2 * q + 1) = 4 * (w * q) + 2 * w := by ring
    rw [hhalf, hsib, h1, h2, h3, if_pos (by omega)]
    congr 1
    omega
  · have hhalf : (2 * q + 1) / 2 = q := by omega
    have hsib : siblingIndex (2 * q + 1) = 2 * q := by
      simp [siblingIndex, Nat.add_mod]
    have h1 : 4 * w * q = 4 * (w * q) := by ring
    have h2 : 2 * w * (2 * q) = 4 * (w * q) := by ring
    have h3 : 2 * w * (2 * q + 1) = 4 * (w * q) + 2 * w := by ring
    rw [hhalf, hsib, h1, h2, h3, if_neg (by omega)]
    congr 1
    omega

theorem siblingIndex_lt {d : ℕ} (hd : 0 < d) (hj : j < 2 ^ d) : siblingIndex j < 2 ^ d := by
  obtain ⟨e, rfl⟩ : ∃ e, d = e + 1 := ⟨d - 1, by omega⟩
  rw [pow_succ] at hj ⊢
  unfold siblingIndex
  split_ifs <;> omega

/-! ## Direct path and copath of a leaf -/

/-- The ancestors of leaf `l` at the `n` heights above `k`. -/
def ancestors (l : ℕ) : ℕ → ℕ → List ℕ
  | _, 0 => []
  | k, n + 1 => nodeAt (k + 1) (l / 2 ^ (k + 1)) :: ancestors l (k + 1) n

/-- The siblings on the way from leaf `l` up, at the `n` heights from `k`. -/
def siblings (l : ℕ) : ℕ → ℕ → List ℕ
  | _, 0 => []
  | k, n + 1 => nodeAt k (siblingIndex (l / 2 ^ k)) :: siblings l (k + 1) n

theorem getElem?_ancestors {l n i x : ℕ} (h : (ancestors l k n)[i]? = some x) :
    i < n ∧ x = nodeAt (k + 1 + i) (l / 2 ^ (k + 1 + i)) := by
  induction n generalizing k i with
  | zero => cases h
  | succ n ih =>
      cases i with
      | zero => exact ⟨Nat.succ_pos n, (Option.some.inj h).symm⟩
      | succ i =>
          rw [ancestors, List.getElem?_cons_succ] at h
          obtain ⟨hi, hx⟩ := ih h
          have hsum : k + 1 + 1 + i = k + 1 + (i + 1) := by omega
          exact ⟨Nat.succ_lt_succ hi, hsum ▸ hx⟩

theorem getElem?_siblings {l n i x : ℕ} (h : (siblings l k n)[i]? = some x) :
    i < n ∧ x = nodeAt (k + i) (siblingIndex (l / 2 ^ (k + i))) := by
  induction n generalizing k i with
  | zero => cases h
  | succ n ih =>
      cases i with
      | zero => exact ⟨Nat.succ_pos n, (Option.some.inj h).symm⟩
      | succ i =>
          rw [siblings, List.getElem?_cons_succ] at h
          obtain ⟨hi, hx⟩ := ih h
          have hsum : k + 1 + i = k + (i + 1) := by omega
          exact ⟨Nat.succ_lt_succ hi, hsum ▸ hx⟩

theorem mem_ancestors {l n k' : ℕ} (hlt : k < k') (hle : k' ≤ k + n) :
    nodeAt k' (l / 2 ^ k') ∈ ancestors l k n := by
  induction n generalizing k with
  | zero => omega
  | succ n ih =>
      rw [ancestors, List.mem_cons]
      by_cases heq : k' = k + 1
      · exact .inl (heq ▸ rfl)
      · exact .inr (ih (by omega) (by omega))

theorem siblingIndex_ne (j : ℕ) : siblingIndex j ≠ j := by
  unfold siblingIndex
  split_ifs <;> omega

theorem eq_siblingIndex {i j : ℕ} (h : i / 2 = j / 2) (hne : i ≠ j) : i = siblingIndex j := by
  unfold siblingIndex
  split_ifs <;> omega

theorem siblingIndex_div_two (j : ℕ) : siblingIndex j / 2 = j / 2 := by
  unfold siblingIndex
  split_ifs <;> omega

theorem div_pow_lt {l : ℕ} (hl : l < 2 ^ m) (hk : k ≤ m) : l / 2 ^ k < 2 ^ (m - k) := by
  rw [Nat.div_lt_iff_lt_mul (Nat.two_pow_pos k), ← pow_add]
  rwa [Nat.sub_add_cancel hk]

theorem div_pow_succ (l k : ℕ) : l / 2 ^ k / 2 = l / 2 ^ (k + 1) := by
  rw [Nat.div_div_eq_div_mul, pow_succ]

theorem directPathLoop_nodeAt (h : tree.Covers m) (hm : m ≤ 33) {l n fuel : ℕ} (hl : l < 2 ^ m)
    (hk : k + n = m) (hn : 0 < n) (hfuel : n ≤ fuel) :
    tree.directPathLoop fuel (nodeAt k (l / 2 ^ k)) = .ok (ancestors l k n) := by
  induction n generalizing k fuel with
  | zero => omega
  | succ n ih =>
      obtain ⟨fuel, rfl⟩ : ∃ f, fuel = f + 1 := ⟨fuel - 1, by omega⟩
      have hparent := parent_nodeAt h (by omega) (by omega) (div_pow_lt hl (by omega : k ≤ m))
      rw [div_pow_succ] at hparent
      have hlt : nodeAt (k + 1) (l / 2 ^ (k + 1)) < tree.nodes.length :=
        nodeAt_lt_of_covers h (by omega) (div_pow_lt hl (by omega))
      simp only [directPathLoop, hparent, Py.ok_bind, if_neg (Nat.not_le.mpr hlt)]
      by_cases hroot : n = 0
      · have hkm : k + 1 = m := by omega
        have hzero : l / 2 ^ m = 0 := Nat.div_eq_of_lt hl
        have heq : nodeAt (k + 1) (l / 2 ^ (k + 1)) = tree.root := by
          rw [root_of_covers h, hkm, hzero]
        simp [heq, hroot, ancestors]
      · have hne : nodeAt (k + 1) (l / 2 ^ (k + 1)) ≠ tree.root := by
          rw [root_of_covers h]
          intro heq
          exact absurd (nodeAt_injective heq).1 (by omega)
        have hrec := ih (k := k + 1) (by omega) (by omega) (by omega : n ≤ fuel)
        simp [hne, hrec, ancestors]

/-- The root may stand at height 33, where the level is not asked for. -/
theorem directPath_ancestors (h : tree.Covers m) (hm : m ≤ 33) {l : ℕ} (hl : l < 2 ^ m) :
    tree.directPath (2 * l) = .ok (ancestors l 0 m) := by
  have hleaf : nodeAt 0 (l / 2 ^ 0) = 2 * l := by simp
  rw [directPath, root_of_covers h]
  by_cases hzero : m = 0
  · subst hzero
    have hl0 : l = 0 := by simpa using hl
    simp [hl0, ancestors]
  · have hne : 2 * l ≠ nodeAt m 0 := by
      rw [← hleaf]
      intro heq
      exact hzero (nodeAt_injective heq).1.symm
    have hfuel : m ≤ tree.nodes.length + 1 := by
      have hlt : m < 2 ^ m := Nat.lt_two_pow_self
      have hlen := h.2
      rw [pow_succ] at hlen
      omega
    rw [if_neg hne, ← hleaf]
    exact directPathLoop_nodeAt h hm hl (by omega) (by omega) hfuel

theorem directPath_leaf (h : tree.Covers m) (hm : m ≤ 32) {l : ℕ} (hl : l < 2 ^ m) :
    tree.directPath (2 * l) = .ok (ancestors l 0 m) :=
  directPath_ancestors h (by omega) hl

theorem copathLoop_nodeAt (h : tree.Covers m) {l n : ℕ} (hl : l < 2 ^ m) (hk : k + n ≤ m)
    (hk32 : k + n ≤ 32) (dpath : List ℕ) :
    tree.copathLoop (nodeAt k (l / 2 ^ k)) (ancestors l k n ++ dpath) =
      (((siblings l k n).map some ++ ·) <$>
        tree.copathLoop (nodeAt (k + n) (l / 2 ^ (k + n))) dpath) := by
  induction n generalizing k with
  | zero =>
      cases hrest : tree.copathLoop (nodeAt k (l / 2 ^ k)) dpath with
      | error e => simp [ancestors, hrest]
      | ok rest => simp [ancestors, siblings, hrest]
  | succ n ih =>
      have hdiv := div_pow_lt hl (by omega : k ≤ m)
      have hsib := sibling_nodeAt h (by omega) (by omega) hdiv
      have hlt : nodeAt k (siblingIndex (l / 2 ^ k)) < tree.nodes.length :=
        nodeAt_lt_of_covers h (by omega : k ≤ m) (siblingIndex_lt (by omega) hdiv)
      have hrec := ih (k := k + 1) (by omega) (by omega)
      have hsum : k + 1 + n = k + (n + 1) := by omega
      rw [hsum] at hrec
      rw [ancestors, List.cons_append, copathLoop, hsib, Py.ok_bind, hrec, if_pos hlt]
      cases tree.copathLoop (nodeAt (k + (n + 1)) (l / 2 ^ (k + (n + 1)))) dpath with
      | error e => rfl
      | ok rest => rfl

theorem copath_leaf (h : tree.Covers m) (hm : m ≤ 32) {l : ℕ} (hl : l < 2 ^ m) :
    tree.copath (2 * l) = .ok ((siblings l 0 m).map some) := by
  have hrec := copathLoop_nodeAt (k := 0) (n := m) h hl (by omega) (by omega) []
  have hleaf : nodeAt 0 (l / 2 ^ 0) = 2 * l := by simp
  rw [hleaf, List.append_nil] at hrec
  rw [copath, directPath_leaf h hm hl, Py.ok_bind, hrec]
  simp [copathLoop]

/-! ## Trees of more than 2^33 leaves -/

/-- The parent of a node up to height 33 is again one of these. -/
private theorem parent_low (h : tree.Covers m) (hm : 34 ≤ m) (hk : k ≤ 33) (hj : j < 2 ^ (m - k)) :
    ∃ k' j', tree.parent (nodeAt k j) = .ok (nodeAt k' j') ∧ k' ≤ 33 ∧ j' < 2 ^ (m - k') := by
  by_cases hk32 : k ≤ 32
  · have hdiv := div_two_lt (by omega) hj
    exact ⟨k + 1, j / 2, parent_nodeAt h hk32 (by omega) hj, by omega, by rwa [Nat.sub_sub] at hdiv⟩
  · obtain rfl : k = 33 := by omega
    have hroot : nodeAt 33 j ≠ tree.root := by
      rw [root_of_covers h]
      intro heq
      exact absurd (nodeAt_injective heq).1 (by omega)
    have hn : ¬ tree.numLeaves ≤ 1 := by
      have hpos : 2 ^ 1 ≤ 2 ^ m := Nat.pow_le_pow_right (by decide) (by omega)
      rw [h.1]
      omega
    have hj' : 2 * j < 2 ^ (m - 32) := by
      rw [show m - 32 = m - 33 + 1 by omega, pow_succ]
      omega
    have hlt : nodeAt 32 (2 * j) < 2 * tree.numLeaves - 1 := by
      rwa [width_of_covers h, nodeAt_lt_iff (by omega)]
    exact ⟨32, 2 * j, by rw [parent, if_neg hn, if_neg hroot, parentStep_33, reparent, if_pos hlt],
      by omega, hj'⟩

/-- Below a root at height 34 or more the walk never ends. -/
private theorem directPathLoop_hang (h : tree.Covers m) (hm : 34 ≤ m) (hk : k ≤ 33)
    (hj : j < 2 ^ (m - k)) (fuel : ℕ) : tree.directPathLoop fuel (nodeAt k j) = .error .hang := by
  induction fuel generalizing k j with
  | zero => rfl
  | succ fuel ih =>
      obtain ⟨k', j', hparent, hk', hj'⟩ := parent_low h hm hk hj
      have hlt := nodeAt_lt_of_covers h (show k' ≤ m by omega) hj'
      have hroot : nodeAt k' j' ≠ tree.root := by
        rw [root_of_covers h]
        intro heq
        exact absurd (nodeAt_injective heq).1 (by omega)
      rw [directPathLoop, hparent, Py.ok_bind, if_neg (Nat.not_le.mpr hlt), if_neg hroot,
        ih hk' hj']
      rfl

theorem directPath_hang_of_large (h : tree.Covers m) (hm : 34 ≤ m) {l : ℕ} (hl : l < 2 ^ m) :
    tree.directPath (2 * l) = .error .hang := by
  have hroot : 2 * l ≠ tree.root := by
    rw [root_of_covers h, ← nodeAt_zero]
    intro heq
    exact absurd (nodeAt_injective heq).1 (by omega)
  rw [directPath, if_neg hroot, ← nodeAt_zero]
  exact directPathLoop_hang h hm (by omega) (by rwa [Nat.sub_zero]) _

end RatchetTree

end PureMls
