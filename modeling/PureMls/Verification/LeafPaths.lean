import PureMls.Foundation.Chains
import PureMls.Verification.Derivation
import PureMls.Verification.SecretPaths
import PureMls.Verification.TreeOps

/-! # Paths to the leaves

For any number of leaves the paths of the secret tree go through the nodes of the ratchet tree, and
no path begins another one. -/

namespace PureMls

open CompleteTree

/-- The child of a node in an array of `w` nodes, where a right child outside of it is re-parented.
Shifting by a negative count raises. -/
def RatchetTree.child (w index : ℕ) : Direction → Py ℕ
  | .left => do
    Py.require (level index ≠ 0) (.valueError "negative shift count")
    pure (index ^^^ (1 <<< (level index - 1)))
  | .right => do
    Py.require (level index ≠ 0) (.valueError "negative shift count")
    reparentRight w 64 (index ^^^ (0x03 <<< (level index - 1)))

namespace SecretTree

variable {n k j t : ℕ}

/-! ## The next node up -/

/-- The first of the nodes above `nodeAt k j` that stands in the array is `t` heights up. -/
structure FirstAbove (n k j t : ℕ) : Prop where
  pos : 0 < t
  le_height : k + t ≤ height n
  inside : nodeAt (k + t) (j / 2 ^ t) < 2 * n - 1
  outside : ∀ i, 0 < i → i < t → 2 * n - 1 ≤ nodeAt (k + i) (j / 2 ^ i)

theorem exists_firstAbove (hn : 1 < n) (hk : k < height n) (hj : j < 2 ^ (height n - k)) :
    ∃ t, FirstAbove n k j t := by
  have hroot : nodeAt (k + (height n - k)) (j / 2 ^ (height n - k)) < 2 * n - 1 := by
    have hsize := (height_spec hn).1
    have hpos : 0 < 2 ^ height n := Nat.two_pow_pos _
    rw [Nat.div_eq_of_lt hj, show k + (height n - k) = height n by omega, nodeAt_zero_right]
    omega
  have hex : ∃ t, 0 < t ∧ nodeAt (k + t) (j / 2 ^ t) < 2 * n - 1 := ⟨height n - k, by omega, hroot⟩
  have hle := Nat.find_min' hex ⟨by omega, hroot⟩
  refine ⟨Nat.find hex, (Nat.find_spec hex).1, by omega, (Nat.find_spec hex).2, fun i hpos hi => ?_⟩
  by_contra hlt
  exact Nat.find_min hex hi ⟨hpos, by omega⟩

namespace FirstAbove

theorem reparent_eq (h : FirstAbove n k j t) {i fuel : ℕ} (hi : 0 < i) (hit : i ≤ t)
    (hfuel : t - i < fuel) :
    reparent (2 * n - 1) fuel (nodeAt (k + i) (j / 2 ^ i)) = .ok (nodeAt (k + t) (j / 2 ^ t)) := by
  induction fuel generalizing i with
  | zero => omega
  | succ fuel ih =>
      rw [reparent]
      by_cases heq : i = t
      · rw [heq, if_pos h.inside]
      · have hout := h.outside i hi (by omega)
        rw [if_neg (by omega), parentStep_nodeAt, RatchetTree.div_pow_succ]
        exact ih (i := i + 1) (by omega) (by omega) (by omega)

theorem parent_eq (h : FirstAbove n k j t) (hn : 1 < n) :
    parent (nodeAt k j) n = .ok (nodeAt (k + t) (j / 2 ^ t)) := by
  have hle := h.le_height
  have hpos := h.pos
  have hroot : nodeAt k j ≠ root n := by
    rw [root_eq_nodeAt hn]
    intro heq
    have hheight := (nodeAt_injective heq).1
    omega
  have hfuel : t - 1 < bitLength (nodeAt k j) + 3 := by
    by_cases hone : t = 1
    · omega
    · -- the parent is outside the array, so the node is a third of the way there at least
      have hout := h.outside 1 Nat.one_pos (by omega)
      rw [pow_one] at hout
      have hparent := parent_le k j
      have hsize := (height_spec hn).1
      have hbits := lt_two_pow_bitLength (nodeAt k j)
      have hpow : 2 ^ height n < 2 ^ (bitLength (nodeAt k j) + 2) := by
        rw [pow_add]
        omega
      have hlt := (Nat.pow_lt_pow_iff_right (by decide : 1 < 2)).mp hpow
      omega
  have hclimb := h.reparent_eq (i := 1) Nat.one_pos hpos hfuel
  rw [pow_one] at hclimb
  rw [parent, if_neg (by omega), if_neg hroot, parentStep_nodeAt, hclimb]

/-- The ratchet tree finds the same node; its level counts far enough. -/
theorem ratchet_reparent_eq (h : FirstAbove n k j t) (hsmall : height n ≤ 31) {i fuel : ℕ}
    (hi : 0 < i) (hit : i ≤ t) (hfuel : t - i < fuel) :
    RatchetTree.reparent (2 * n - 1) fuel (nodeAt (k + i) (j / 2 ^ i)) =
      .ok (nodeAt (k + t) (j / 2 ^ t)) := by
  have hle := h.le_height
  induction fuel generalizing i with
  | zero => omega
  | succ fuel ih =>
      rw [RatchetTree.reparent]
      by_cases heq : i = t
      · rw [heq, if_pos h.inside]
      · have hout := h.outside i hi (by omega)
        rw [if_neg (by omega), RatchetTree.parentStep_nodeAt (by omega), RatchetTree.div_pow_succ]
        exact ih (i := i + 1) (by omega) (by omega) (by omega)

theorem ratchet_parent_eq (h : FirstAbove n k j t) (hn : 1 < n) (hsmall : height n ≤ 31) :
    (RatchetTree.new n).parent (nodeAt k j) = .ok (nodeAt (k + t) (j / 2 ^ t)) := by
  have hle := h.le_height
  have hpos := h.pos
  have hroot : nodeAt k j ≠ (RatchetTree.new n).root := by
    change nodeAt k j ≠ root n
    rw [root_eq_nodeAt hn]
    intro heq
    have hheight := (nodeAt_injective heq).1
    omega
  have hleaves : ¬ (RatchetTree.new n).numLeaves ≤ 1 := Nat.not_le.mpr hn
  have hclimb := h.ratchet_reparent_eq hsmall Nat.one_pos hpos (by omega : t - 1 < 64)
  rw [pow_one] at hclimb
  rw [RatchetTree.parent, if_neg hleaves, if_neg hroot, RatchetTree.parentStep_nodeAt (by omega)]
  exact hclimb

/-! ## And down again -/

/-- The node stands in the array, so below a node outside of it it is on the left. -/
theorem left_of_outside (h : FirstAbove n k j t) (hx : nodeAt k j < 2 * n - 1) {i : ℕ}
    (hi : i + 1 < t) : j / 2 ^ i = 2 * (j / 2 ^ (i + 1)) := by
  have hout := h.outside (i + 1) (Nat.succ_pos i) hi
  have hhalf := RatchetTree.div_pow_succ j i
  by_contra hne
  have hright : j / 2 ^ i = 2 * (j / 2 ^ (i + 1)) + 1 := by omega
  have hlt := nodeAt_lt_of_right (k := k) hright
  rw [Nat.add_assoc] at hlt
  omega

theorem reparentRight_eq (h : FirstAbove n k j t) (hx : nodeAt k j < 2 * n - 1)
    (hsmall : height n ≤ 31) {i fuel : ℕ} (hi : i < t) (hfuel : i < fuel) :
    RatchetTree.reparentRight (2 * n - 1) fuel (nodeAt (k + i) (j / 2 ^ i)) = .ok (nodeAt k j) := by
  have hle := h.le_height
  induction i generalizing fuel with
  | zero =>
      obtain ⟨fuel, rfl⟩ : ∃ f, fuel = f + 1 := ⟨fuel - 1, by omega⟩
      rw [pow_zero, Nat.div_one, RatchetTree.reparentRight, Nat.add_zero, if_pos hx]
  | succ i ih =>
      obtain ⟨fuel, rfl⟩ : ∃ f, fuel = f + 1 := ⟨fuel - 1, by omega⟩
      have hout := h.outside (i + 1) (Nat.succ_pos i) hi
      have hlevel : RatchetTree.level (nodeAt (k + i + 1) (j / 2 ^ (i + 1))) = k + i + 1 :=
        RatchetTree.level_nodeAt (by omega)
      rw [← Nat.add_assoc] at hout ⊢
      rw [RatchetTree.reparentRight, if_neg (by omega), hlevel,
        Py.require_of _ (Nat.succ_ne_zero _), Py.ok_bind,
        Nat.add_sub_cancel, xor_leftChild, ← h.left_of_outside hx hi]
      exact ih (by omega) (by omega)

end FirstAbove

/-- One step of the walk: up to `p` in both trees, and in direction `dir` from there back to `x`. -/
structure Climb (n x p : ℕ) (dir : Direction) : Prop where
  parent_eq : parent x n = .ok p
  ratchet_parent_eq : (RatchetTree.new n).parent x = .ok p
  side : ∃ leftChild, left p = .ok leftChild ∧ dir = if x = leftChild then .left else .right
  child_eq : RatchetTree.child (2 * n - 1) p dir = .ok x

theorem FirstAbove.climb (h : FirstAbove n k j t) (hn : 1 < n) (hsmall : height n ≤ 31)
    (hx : nodeAt k j < 2 * n - 1) :
    ∃ dir, Climb n (nodeAt k j) (nodeAt (k + t) (j / 2 ^ t)) dir := by
  have hle := h.le_height
  obtain ⟨i, rfl⟩ : ∃ i, t = i + 1 := ⟨t - 1, by have := h.pos; omega⟩
  have hlevel : RatchetTree.level (nodeAt (k + i + 1) (j / 2 ^ (i + 1))) = k + i + 1 :=
    RatchetTree.level_nodeAt (by omega)
  have hhalf := RatchetTree.div_pow_succ j i
  refine ⟨_, h.parent_eq hn, h.ratchet_parent_eq hn hsmall, ⟨_, left_nodeAt (k := k + i), rfl⟩, ?_⟩
  rw [← Nat.add_assoc]
  split_ifs with hleft
  · rw [RatchetTree.child, hlevel, Py.require_of _ (Nat.succ_ne_zero _), Py.ok_bind,
      Nat.add_sub_cancel, xor_leftChild, hleft]
    rfl
  · have hright : 2 * (j / 2 ^ (i + 1)) + 1 = j / 2 ^ i := by
      by_contra hne
      have heven : j / 2 ^ i = 2 * (j / 2 ^ (i + 1)) := by omega
      cases i with
      | zero =>
          apply hleft
          rw [← heven, pow_zero, Nat.div_one, Nat.add_zero]
      | succ i =>
          -- a left child outside the array would have its parent there, too
          have hout := h.outside (i + 1) (Nat.succ_pos i) (Nat.lt_succ_self _)
          have hlt := nodeAt_lt_of_left (k := k + (i + 1)) (d := 0) ((Nat.div_one _).trans heven)
          have hin := h.inside
          change _ < nodeAt (k + (i + 1 + 1)) _ at hlt
          omega
    rw [RatchetTree.child, hlevel, Py.require_of _ (Nat.succ_ne_zero _), Py.ok_bind,
      Nat.add_sub_cancel, xor_rightChild, hright]
    exact h.reparentRight_eq hx hsmall (Nat.lt_succ_self i) (by omega)

/-! ## Whole walks -/

/-- Follow directions down from a node. -/
def follow (n x : ℕ) (path : List Direction) : Py ℕ := path.foldlM (RatchetTree.child (2 * n - 1)) x

theorem follow_concat {x p : ℕ} {path : List Direction} {dir : Direction}
    (h : follow n x path = .ok p) :
    follow n x (path ++ [dir]) = RatchetTree.child (2 * n - 1) p dir := by
  rw [follow] at h
  rw [follow, List.foldlM_append, h, Py.ok_bind, List.foldlM_cons]
  cases RatchetTree.child (2 * n - 1) p dir <;> rfl

theorem lt_height_of_ne_root (hn : 1 < n) (hk : k ≤ height n) (hj : j < 2 ^ (height n - k))
    (h : nodeAt k j ≠ root n) : k < height n := by
  refine lt_of_le_of_ne hk fun heq => h ?_
  rw [heq, Nat.sub_self, pow_zero, Nat.lt_one_iff] at hj
  rw [root_eq_nodeAt hn, heq, hj]

/-- Induction on the height that is left: the two walks go through the same nodes, and the
directions lead back. -/
theorem walk (hn : 1 < n) (hsmall : height n ≤ 31) {d depth fuel : ℕ} (hd : height n - k = d)
    (hk : k ≤ height n) (hj : j < 2 ^ (height n - k)) (hx : nodeAt k j < 2 * n - 1)
    (hdepth : d ≤ depth) (hfuel : d ≤ fuel) :
    ∃ dirs nodes, getPathLoop n depth (nodeAt k j) = .ok dirs ∧ dirs.length = nodes.length ∧
      follow n (root n) dirs.reverse = .ok (nodeAt k j) ∧
      (if nodeAt k j = root n then nodes = []
        else (RatchetTree.new n).directPathLoop fuel (nodeAt k j) = .ok nodes) := by
  induction d using Nat.strong_induction_on generalizing k j depth fuel with
  | _ d ih =>
      by_cases hroot : nodeAt k j = root n
      · refine ⟨[], [], ?_, rfl, ?_, by rw [if_pos hroot]⟩
        · cases depth with
          | zero => rfl
          | succ depth => rw [getPathLoop, if_pos hroot]; rfl
        · rw [hroot]
          rfl
      · have hlt := lt_height_of_ne_root hn hk hj hroot
        obtain ⟨t, ht⟩ := exists_firstAbove hn hlt hj
        obtain ⟨dir, hclimb⟩ := ht.climb hn hsmall hx
        obtain ⟨leftChild, hleft, hdir⟩ := hclimb.side
        have hpos := ht.pos
        have hle := ht.le_height
        have hj' : j / 2 ^ t < 2 ^ (height n - (k + t)) := by
          rw [Nat.div_lt_iff_lt_mul (Nat.two_pow_pos t), ← pow_add]
          rwa [show height n - (k + t) + t = height n - k by omega]
        obtain ⟨depth, rfl⟩ : ∃ m, depth = m + 1 := ⟨depth - 1, by omega⟩
        obtain ⟨fuel, rfl⟩ : ∃ m, fuel = m + 1 := ⟨fuel - 1, by omega⟩
        obtain ⟨dirs, nodes, hpath, hlen, hfollow, hdirect⟩ :=
          ih (height n - (k + t)) (by omega) rfl hle hj'
          ht.inside (by omega : _ ≤ depth) (by omega : _ ≤ fuel)
        refine ⟨dir :: dirs, nodeAt (k + t) (j / 2 ^ t) :: nodes, ?_, by simp [hlen], ?_, ?_⟩
        · rw [getPathLoop, if_neg hroot, hclimb.parent_eq, Py.ok_bind, hleft, Py.ok_bind, hpath,
            hdir]
          rfl
        · rw [List.reverse_cons, follow_concat hfollow, hclimb.child_eq]
        · have hinside : ¬ (RatchetTree.new n).nodes.length ≤ nodeAt (k + t) (j / 2 ^ t) := by
            rw [RatchetTree.length_new (by omega)]
            exact Nat.not_le.mpr ht.inside
          rw [if_neg hroot, RatchetTree.directPathLoop, hclimb.ratchet_parent_eq, Py.ok_bind,
            if_neg hinside]
          change (if nodeAt (k + t) (j / 2 ^ t) = root n then _ else _) = _
          split_ifs at hdirect ⊢ with hend
          · rw [hdirect]
            rfl
          · rw [hdirect]
            rfl

/-- The path of leaf `a` in the secret tree and its direct path in the ratchet tree. -/
structure PathsMatch (n a : ℕ) (path : List Direction) (direct : List ℕ) : Prop where
  path_eq : getPath a n = .ok path
  direct_eq : (RatchetTree.new n).directPath (2 * a) = .ok direct
  length_eq : path.length = direct.length
  leads : follow n (root n) path = .ok (2 * a)

theorem height_le (hn : 1 < n) (hlt : n < 2 ^ 31) : height n ≤ 31 := by
  have hsize := (height_spec hn).1
  have hpow : 2 ^ height n < 2 ^ 32 := by omega
  have hheight := (Nat.pow_lt_pow_iff_right (by decide : 1 < 2)).mp hpow
  omega

theorem exists_pathsMatch {a : ℕ} (hlt : n < 2 ^ 31) (ha : a < n) :
    ∃ path direct, PathsMatch n a path direct := by
  by_cases hn : 1 < n
  · have hsmall := height_le hn hlt
    have hsize := (height_spec hn).2
    have hinside : nodeAt 0 a < 2 * n - 1 := by
      rw [nodeAt_zero]
      omega
    have ha' : a < 2 ^ (height n - 0) := by
      rw [pow_succ] at hsize
      rw [Nat.sub_zero]
      omega
    have hfuel : height n ≤ (RatchetTree.new n).nodes.length + 1 := by
      have hbelow := (height_spec hn).1
      have hpow : height n < 2 ^ height n := Nat.lt_two_pow_self
      rw [RatchetTree.length_new (by omega)]
      omega
    obtain ⟨dirs, nodes, hpath, hlen, hfollow, hdirect⟩ := walk hn hsmall (Nat.sub_zero _)
      (Nat.zero_le _) ha' hinside (by omega : height n ≤ 32) hfuel
    rw [nodeAt_zero] at hpath hfollow hdirect
    refine ⟨dirs.reverse, nodes, ?_, ?_, by rw [List.length_reverse, hlen], hfollow⟩
    · rw [getPath, Nat.mul_comm, hpath, Py.map_ok]
    · rw [RatchetTree.directPath]
      change (if 2 * a = root n then _ else _) = _
      split_ifs at hdirect ⊢
      · rw [hdirect]
        rfl
      · exact hdirect
  · obtain rfl : a = 0 := by omega
    have hone : n = 1 := by omega
    subst hone
    exact ⟨[], [], rfl, rfl, rfl, rfl⟩

/-- Below a leaf there is nothing to follow. -/
theorem follow_leaf_ne_ok {a x : ℕ} {path : List Direction} (hne : path ≠ []) :
    follow n (2 * a) path ≠ .ok x := by
  cases path with
  | nil => exact absurd rfl hne
  | cons dir path =>
      have hlevel : RatchetTree.level (2 * a) = 0 := by
        rw [← nodeAt_zero]
        exact RatchetTree.level_nodeAt (Nat.zero_le 32)
      have hchild : RatchetTree.child (2 * n - 1) (2 * a) dir =
          .error (.valueError "negative shift count") := by
        cases dir <;> rw [RatchetTree.child, hlevel] <;> rfl
      rw [follow, List.foldlM_cons, hchild, Py.error_bind]
      exact fun h => by cases h

/-- A path that begins another one leads to the same leaf. -/
theorem PathsMatch.eq_of_prefix {a b : ℕ} {path path' : List Direction} {direct direct' : List ℕ}
    (h : PathsMatch n a path direct) (h' : PathsMatch n b path' direct') (hstart : path <+: path') :
    a = b := by
  obtain ⟨rest, rfl⟩ := hstart
  have hleads := h'.leads
  have hfirst := h.leads
  rw [follow] at hfirst
  rw [follow, List.foldlM_append, hfirst, Py.ok_bind] at hleads
  by_cases hrest : rest = []
  · subst hrest
    have heq := Except.ok.inj hleads
    omega
  · exact absurd hleads (follow_leaf_ne_ok hrest)

theorem parent_returns {x : ℕ} (hx : x < 2 * n - 1) : ∃ p, parent x n = .ok p := by
  by_cases hn : 1 < n
  · by_cases hroot : x = root n
    · exact ⟨x, by rw [parent, if_neg (by omega), if_pos hroot]⟩
    · obtain ⟨k, j, rfl⟩ := exists_nodeAt x
      have hsize := (height_spec hn).2
      have hk : k ≤ height n := le_of_nodeAt_lt (by omega : nodeAt k j < 2 ^ (height n + 1) - 1)
      have hj := (nodeAt_lt_iff hk).mp (by omega : nodeAt k j < 2 ^ (height n + 1) - 1)
      obtain ⟨k', j', hparent, -⟩ := parent_ok hn (lt_height_of_ne_root hn hk hj hroot) hj
      exact ⟨_, hparent⟩
  · exact ⟨0, by rw [parent, if_pos (by omega)]⟩

/-! ## Leaf secrets -/

section

variable {C : Crypto} {secret secret' encryptionSecret : Bytes} {path path' : List Direction}

/-- What HMAC is applied to, under a secret, for the secret of a child. -/
def treeMessage (direction : Direction) : Bytes := (expandCall [] "tree" direction.encode).2

theorem treeMessage_injective : Function.Injective treeMessage := by
  have hne : treeMessage .left ≠ treeMessage .right := by decide
  intro d d' h
  cases d <;> cases d'
  · rfl
  · exact absurd h hne
  · exact absurd h.symm hne
  · rfl

theorem childSecret_eq (hC : C.Correct) (secret : Bytes) (direction : Direction) :
    expandWithLabel C secret "tree" direction.encode 32 = .ok
      (C.hmacSha256 secret (treeMessage direction)) := by
  obtain ⟨out, hout⟩ : ∃ out, expandWithLabel C secret "tree" direction.encode 32 = .ok out :=
    expandWithLabel_ok (by decide) (by cases direction <;> decide) (by decide)
  rw [hout, expandWithLabel_eq_hmac hC hout]
  rfl

theorem deriveLeafNodeSecret_eq (hC : C.Correct) {leaf : ℕ} (h : getPath leaf n = .ok path) :
    (new encryptionSecret n).deriveLeafNodeSecret C leaf =
      .ok ((path.map treeMessage).foldl C.hmacSha256 encryptionSecret) := by
  have hfold : ∀ secret, path.foldlM (fun secret direction =>
      expandWithLabel C secret "tree" (Direction.encode direction) 32) secret =
        .ok ((path.map treeMessage).foldl C.hmacSha256 secret) := by
    clear h
    induction path with
    | nil => exact fun secret => rfl
    | cons direction path ih =>
        intro secret
        rw [List.foldlM_cons, childSecret_eq hC, Py.ok_bind, ih]
        rfl
  rw [deriveLeafNodeSecret]
  exact (congrArg (· >>= _) h).trans (hfold _)

/-- The HMAC calls along a path from the encryption secret, and further on. -/
def pathCalls (C : Crypto) (encryptionSecret : Bytes) (path : List Direction)
    (messages : List Bytes) : List (Bytes × Bytes) :=
  DerivationChain.inputs C.hmacSha256 encryptionSecret (path.map treeMessage ++ messages)

/-- Unless HMAC calls collide, a secret that is reached through one leaf's is not another leaf's. -/
theorem secret_ne_of_not_prefix (hC : C.Correct) {a b : ℕ} {messages : List Bytes}
    (hpath : getPath a n = .ok path) (hpath' : getPath b n = .ok path') (hstart : ¬ path <+: path')
    (hinj : C.HmacInjectiveOn
      (pathCalls C encryptionSecret path messages ++ pathCalls C encryptionSecret path' []))
    (havoid : DerivationChain.Avoids C.hmacSha256 encryptionSecret
      (pathCalls C encryptionSecret path messages ++ pathCalls C encryptionSecret path' []))
    (h : (new encryptionSecret n).deriveLeafNodeSecret C a = .ok secret)
    (h' : (new encryptionSecret n).deriveLeafNodeSecret C b = .ok secret') :
    messages.foldl C.hmacSha256 secret ≠ secret' := by
  rw [deriveLeafNodeSecret_eq hC hpath, Except.ok.injEq] at h
  rw [deriveLeafNodeSecret_eq hC hpath', Except.ok.injEq] at h'
  intro heq
  rw [← h, ← h', ← List.foldl_append] at heq
  have hcalls : pathCalls C encryptionSecret path' [] =
      DerivationChain.inputs C.hmacSha256 encryptionSecret (path'.map treeMessage) := by
    rw [pathCalls, List.append_nil]
  have hword := DerivationChain.word_eq hinj havoid (List.subset_append_left _ _)
    (hcalls ▸ List.subset_append_right _ _) heq
  apply hstart
  rw [← List.prefix_map_iff_of_injective treeMessage_injective, ← hword]
  exact List.prefix_append _ _

end

/-- The paths of the secret tree match the ratchet tree, and none begins another one, so that no
leaf secret is, or is derived from, the secret of another leaf. -/
theorem leaf_paths_prefix_free {a : ℕ} (hlt : n < 2 ^ 31) (ha : a < n) :
    (∀ x < 2 * n - 1, ∃ p, parent x n = .ok p) ∧
    (∃ path direct, PathsMatch n a path direct) ∧
    ∀ b < n, b ≠ a → ∀ path path', getPath a n = .ok path → getPath b n = .ok path' →
      ¬ path <+: path' ∧ ¬ path' <+: path ∧
      ∀ (C : Crypto) (encryptionSecret : Bytes) (messages : List Bytes), C.Correct →
        C.HmacInjectiveOn
          (pathCalls C encryptionSecret path messages ++ pathCalls C encryptionSecret path' []) →
        DerivationChain.Avoids C.hmacSha256 encryptionSecret
          (pathCalls C encryptionSecret path messages ++ pathCalls C encryptionSecret path' []) →
        ∀ secret secret', (new encryptionSecret n).deriveLeafNodeSecret C a = .ok secret →
          (new encryptionSecret n).deriveLeafNodeSecret C b = .ok secret' →
          messages.foldl C.hmacSha256 secret ≠ secret' := by
  obtain ⟨path, direct, hmatch⟩ := exists_pathsMatch hlt ha
  refine ⟨fun x hx => parent_returns hx, ⟨path, direct, hmatch⟩,
    fun b hb hne path₁ path' hpath hpath' => ?_⟩
  obtain rfl := Except.ok.inj (hmatch.path_eq.symm.trans hpath)
  obtain ⟨path₂, direct', hmatch'⟩ := exists_pathsMatch hlt hb
  obtain rfl := Except.ok.inj (hmatch'.path_eq.symm.trans hpath')
  have hstart : ¬ path <+: path₂ := fun h => hne (hmatch.eq_of_prefix hmatch' h).symm
  refine ⟨hstart, fun h => hne (hmatch'.eq_of_prefix hmatch h), ?_⟩
  intro C encryptionSecret messages hC hinj havoid secret secret' h h'
  exact secret_ne_of_not_prefix hC hpath hpath' hstart hinj havoid h h'

open Sample in
/-- The third of three leaves is a child of the root. -/
theorem leaf_paths_three : getPath 2 3 = .ok [.right] ∧
    (∃ path direct, PathsMatch 3 2 path direct) ∧
    ∀ secret secret', (new (ascii "epoch") 3).deriveLeafNodeSecret crypto 2 = .ok secret →
      (new (ascii "epoch") 3).deriveLeafNodeSecret crypto 0 = .ok secret' → secret ≠ secret' := by
  have hpath : getPath 2 3 = .ok [.right] := by decide +kernel
  have hpath' : getPath 0 3 = .ok [.left, .left] := by decide +kernel
  obtain ⟨-, hmatch, hapart⟩ := leaf_paths_prefix_free (n := 3) (a := 2) (by decide) (by decide)
  refine ⟨hpath, hmatch, fun secret secret' h h' => ?_⟩
  exact (hapart 0 (by decide) (by decide) _ _ hpath hpath').2.2 crypto _ [] correct
    (by decide +kernel)
    (by unfold DerivationChain.Avoids; decide +kernel) secret secret' h h'

end SecretTree

end PureMls
