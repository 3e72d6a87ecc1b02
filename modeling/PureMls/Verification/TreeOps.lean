import PureMls.Model.Group
import PureMls.Verification.TreeMath

/-! # What the tree operations leave at each node -/

namespace PureMls

namespace RatchetTree

open CompleteTree

variable {tree t target : RatchetTree} {i j m : ℕ} {leaf : LeafNode} {parent : ParentNode}

/-! ## Single nodes -/

theorem getNode_set (n : ℕ) (x : Option Node) (i j : ℕ) :
    (⟨n, tree.nodes.set i x⟩ : RatchetTree).getNode j =
      if i = j ∧ i < tree.nodes.length then x else tree.getNode j := by
  simp only [getNode, List.getElem?_set]
  by_cases hij : i = j
  · by_cases hlt : i < tree.nodes.length
    · subst hij
      simp [hlt]
    · subst hij
      simp [hlt]
  · simp [hij]

theorem getNode_lt {node : Node} (h : tree.getNode i = some node) : i < tree.nodes.length := by
  by_contra hge
  rw [getNode, List.getElem?_eq_none (Nat.not_lt.mp hge)] at h
  cases h

theorem setLeaf_eq_ok : tree.setLeaf i leaf = .ok t ↔ i % 2 = 0 ∧ i < tree.nodes.length ∧
    t = { tree with nodes := tree.nodes.set i (some (.leaf leaf)) } := by
  simp only [setLeaf, Py.bind_eq_ok, Py.require_eq_ok, Py.pure_eq, Except.ok.injEq]
  constructor
  · rintro ⟨_, hi, _, hlt, rfl⟩
    exact ⟨hi, hlt, rfl⟩
  · rintro ⟨hi, hlt, rfl⟩
    exact ⟨(), hi, (), hlt, rfl⟩

theorem setParent_eq_ok : tree.setParent i parent = .ok t ↔ i % 2 = 1 ∧ i < tree.nodes.length ∧
    t = { tree with nodes := tree.nodes.set i (some (.parent parent)) } := by
  simp only [setParent, Py.bind_eq_ok, Py.require_eq_ok, Py.pure_eq, Except.ok.injEq]
  constructor
  · rintro ⟨_, hi, _, hlt, rfl⟩
    exact ⟨hi, hlt, rfl⟩
  · rintro ⟨hi, hlt, rfl⟩
    exact ⟨(), hi, (), hlt, rfl⟩

/-- The same leaf count and as many nodes. -/
def SameSize (tree t : RatchetTree) : Prop :=
  t.numLeaves = tree.numLeaves ∧ t.nodes.length = tree.nodes.length

theorem SameSize.rfl : tree.SameSize tree := ⟨Eq.refl _, Eq.refl _⟩

theorem SameSize.trans {s : RatchetTree} (h : tree.SameSize t) (h' : t.SameSize s) :
    tree.SameSize s := ⟨h'.1.trans h.1, h'.2.trans h.2⟩

theorem SameSize.symm (h : tree.SameSize t) : t.SameSize tree := ⟨h.1.symm, h.2.symm⟩

theorem SameSize.sized (h : tree.SameSize t) (hm : tree.Sized m) : t.Sized m :=
  ⟨h.1.trans hm.1, h.2.trans hm.2⟩

theorem setLeaf_node (h : tree.setLeaf i leaf = .ok t) :
    tree.SameSize t ∧ ∀ j, t.getNode j = if i = j then some (.leaf leaf) else tree.getNode j := by
  obtain ⟨-, hlt, rfl⟩ := setLeaf_eq_ok.mp h
  refine ⟨⟨rfl, List.length_set ..⟩, fun j => ?_⟩
  rw [getNode_set]
  simp only [hlt, and_true]

theorem setParent_node (h : tree.setParent i parent = .ok t) :
    tree.SameSize t ∧ ∀ j, t.getNode j = if i = j then some
      (.parent parent) else tree.getNode j := by
  obtain ⟨-, hlt, rfl⟩ := setParent_eq_ok.mp h
  refine ⟨⟨rfl, List.length_set ..⟩, fun j => ?_⟩
  rw [getNode_set]
  simp only [hlt, and_true]

theorem blankNode_sameSize (i : ℕ) : tree.SameSize (tree.blankNode i) :=
  ⟨rfl, List.length_set ..⟩

theorem getNode_blankNode (i j : ℕ) :
    (tree.blankNode i).getNode j = if i = j then none else tree.getNode j := by
  rw [blankNode, getNode_set]
  by_cases hij : i = j
  · by_cases hlt : i < tree.nodes.length
    · rw [if_pos ⟨hij, hlt⟩, if_pos hij]
    · rw [if_neg (fun h => hlt h.2), if_pos hij, ← hij, getNode,
        List.getElem?_eq_none (Nat.not_lt.mp hlt)]
      rfl
  · rw [if_neg (fun h => hij h.1), if_neg hij]

theorem blankNodes_sameSize (indices : List ℕ) :
    tree.SameSize (indices.foldl blankNode tree) := by
  induction indices generalizing tree with
  | nil => exact .rfl
  | cons i indices ih => exact (blankNode_sameSize i).trans ih

theorem getNode_blankNodes (indices : List ℕ) (j : ℕ) :
    (indices.foldl blankNode tree).getNode j = if j ∈ indices then none else tree.getNode j := by
  induction indices generalizing tree with
  | nil => simp
  | cons i indices ih =>
      rw [List.foldl_cons, ih, getNode_blankNode]
      by_cases hmem : j ∈ indices
      · simp [hmem]
      · by_cases hij : i = j
        · simp [hij]
        · simp [hmem, hij, Ne.symm hij]

theorem getLeaf_eq_some : tree.getLeaf i = some leaf ↔ tree.getNode i = some (.leaf leaf) := by
  unfold getLeaf
  rcases tree.getNode i with _ | node | parent <;> simp

theorem getLeaf_congr (h : t.getNode i = tree.getNode i) : t.getLeaf i = tree.getLeaf i := by
  unfold getLeaf
  rw [h]

/-! ## Copies -/

theorem getNode_new (n i : ℕ) : (new n).getNode i = none := by
  unfold getNode new
  split
  · rw [List.getElem?_replicate]
    split <;> rfl
  · rfl

theorem length_new {n : ℕ} (h : 0 < n) : (new n).nodes.length = 2 * n - 1 := by
  simp [new, h]

private theorem copy_entries {entries : List (Option Node)} {k : ℕ}
    (h : (entries.zipIdx k).foldlM (fun acc entry =>
      match entry.1 with
      | some (.leaf leaf) => RatchetTree.setLeaf acc entry.2 leaf
      | some (.parent parent) => acc.setParent entry.2 parent
      | none => pure acc) target = .ok t) :
    target.SameSize t ∧ ∀ i, t.getNode i =
      if k ≤ i then (entries[i - k]?).join.or (target.getNode i) else target.getNode i := by
  induction entries generalizing target k with
  | nil =>
      simp only [List.zipIdx_nil, List.foldlM_nil, Py.pure_eq, Except.ok.injEq] at h
      subst h
      exact ⟨.rfl, fun i => by simp⟩
  | cons entry entries ih =>
      simp only [List.zipIdx_cons, List.foldlM_cons, Py.bind_eq_ok] at h
      obtain ⟨next, hnext, hrest⟩ := h
      have hstep : target.SameSize next ∧ ∀ i, next.getNode i =
          if k = i then entry.or (target.getNode i) else target.getNode i := by
        rcases entry with _ | leaf | parent
        · simp only [Py.pure_eq, Except.ok.injEq] at hnext
          subst hnext
          exact ⟨.rfl, fun i => by simp⟩
        · exact setLeaf_node hnext
        · exact setParent_node hnext
      obtain ⟨hsize, hnodes⟩ := ih hrest
      refine ⟨hstep.1.trans hsize, fun i => ?_⟩
      rw [hnodes i, hstep.2 i]
      rcases Nat.lt_trichotomy i k with hlt | rfl | hgt
      · rw [if_neg (by omega), if_neg (by omega), if_neg (by omega)]
      · rw [if_neg (by omega), if_pos rfl, if_pos le_rfl, Nat.sub_self, List.getElem?_cons_zero]
        rfl
      · have hsub : i - k = i - (k + 1) + 1 := by omega
        rw [if_pos (by omega), if_neg (by omega), if_pos (by omega), hsub, List.getElem?_cons_succ]

theorem copyNodes_new {n : ℕ} (h : tree.copyNodes (new n) = .ok t) :
    (new n).SameSize t ∧ ∀ i, t.getNode i = tree.getNode i := by
  obtain ⟨hsize, hnodes⟩ := copy_entries h
  refine ⟨hsize, fun i => ?_⟩
  rw [hnodes i, if_pos (Nat.zero_le i), getNode_new, Option.or_none]
  rfl

theorem sized_new (m : ℕ) : (new (2 ^ m)).Sized m := by
  refine ⟨rfl, ?_⟩
  rw [length_new (Nat.two_pow_pos m), pow_succ, Nat.mul_comm]

/-! ## Placing a new leaf -/

/-- A new leaf goes to the leftmost blank slot, or to the first of the doubled tree when no slot is
blank. -/
theorem placement_cases (tree : RatchetTree) :
    ∃ slot, (∀ l < slot, (tree.getNode (2 * l)).isSome) ∧
      (MLSGroup.placement tree = (tree.numLeaves, 2 * slot) ∧ slot < tree.numLeaves ∧
          tree.getNode (2 * slot) = none ∨
        MLSGroup.placement tree = (2 * tree.numLeaves, 2 * slot) ∧ slot = tree.numLeaves) := by
  unfold MLSGroup.placement
  cases hfind : (List.range tree.numLeaves).find? fun li => (tree.getNode (2 * li)).isNone with
  | some blank =>
      obtain ⟨hblank, hlt, hbefore⟩ := List.find?_range_eq_some.mp hfind
      refine ⟨blank, fun l hl => by simpa using hbefore l hl, .inl ⟨rfl, List.mem_range.mp hlt, ?_⟩⟩
      exact Option.isNone_iff_eq_none.mp hblank
  | none =>
      rw [List.find?_range_eq_none] at hfind
      refine ⟨tree.numLeaves, fun l hl => by simpa using hfind l hl, .inr ⟨?_, rfl⟩⟩
      rw [Nat.mul_comm tree.numLeaves]

theorem placement_spec (hm : tree.Sized m) :
    ∃ m' slot, MLSGroup.placement tree = (2 ^ m', 2 * slot) ∧ m ≤ m' ∧ slot < 2 ^ m' ∧
      tree.getNode (2 * slot) = none := by
  obtain ⟨slot, -, ⟨hplace, hlt, hblank⟩ | ⟨hplace, hslot⟩⟩ := placement_cases tree
  · rw [hm.1] at hplace hlt
    exact ⟨m, slot, hplace, le_rfl, hlt, hblank⟩
  · rw [hm.1] at hplace hslot
    refine ⟨m + 1, slot, by rw [hplace, pow_succ'], Nat.le_succ m, ?_, ?_⟩
    · rw [hslot]
      exact Nat.pow_lt_pow_right (by decide) (Nat.lt_succ_self m)
    · have hend : tree.nodes.length ≤ 2 * slot := by
        rw [hm.2, hslot, pow_succ]
        omega
      rw [getNode, List.getElem?_eq_none hend]
      rfl

theorem leaf_notMem_ancestors {l slot k n : ℕ} : 2 * slot ∉ ancestors l k n := by
  induction n generalizing k with
  | zero => simp [ancestors]
  | succ n ih =>
      rw [ancestors, List.mem_cons, not_or]
      have hodd := nodeAt_succ_mod_two k (l / 2 ^ (k + 1))
      exact ⟨by omega, ih⟩

/-- The tree after an `add_member` proposal: the new leaf stands in a slot that was blank, the
nodes above it are blank, and nothing else has changed. -/
theorem placeLeaf_spec (hm : tree.Sized m) (h : MLSGroup.placeLeaf tree leaf = .ok t)
    (hsmall : t.nodes.length < 2 ^ 32) :
    ∃ m' slot, MLSGroup.placement tree = (2 ^ m', 2 * slot) ∧ m ≤ m' ∧ slot < 2 ^ m' ∧
      t.Sized m' ∧ tree.getNode (2 * slot) = none ∧
      ∀ i, t.getNode i = if i = 2 * slot then some (.leaf leaf)
        else if i ∈ ancestors slot 0 m' then none else tree.getNode i := by
  obtain ⟨m', slot, hplace, hle, hslot, hblank⟩ := placement_spec hm
  simp only [MLSGroup.placeLeaf, hplace, Py.bind_eq_ok, Py.pure_eq, Except.ok.injEq] at h
  obtain ⟨copied, hcopied, placed, hplaced, direct, hdirect, rfl⟩ := h
  obtain ⟨hsize, hcopy⟩ := copyNodes_new hcopied
  obtain ⟨hsize', hset⟩ := setLeaf_node hplaced
  have hplacedSized : placed.Sized m' := hsize'.sized (hsize.sized (sized_new m'))
  have hm' : m' ≤ 32 := by
    by_contra hgt
    have hpow : 2 ^ 32 ≤ 2 ^ m' := Nat.pow_le_pow_right (by decide) (by omega)
    rw [(blankNodes_sameSize direct).2, hplacedSized.2, pow_succ] at hsmall
    omega
  rw [directPath_leaf hplacedSized.covers hm' hslot, Except.ok.injEq] at hdirect
  subst hdirect
  refine ⟨m', slot, hplace, hle, hslot, (blankNodes_sameSize _).sized hplacedSized, hblank,
    fun i => ?_⟩
  rw [getNode_blankNodes, hset, hcopy]
  by_cases hi : i = 2 * slot
  · subst hi
    rw [if_neg leaf_notMem_ancestors, if_pos rfl, if_pos rfl]
  · rw [if_neg hi, if_neg (Ne.symm hi)]

/-! ## Removal -/

theorem rightmost_eq_none (h : tree.rightmost = none) (l : ℕ) : tree.getNode (2 * l) = none := by
  rw [rightmost, List.getLast?_eq_none_iff, List.filter_eq_nil_iff] at h
  cases hnode : tree.getNode (2 * l) with
  | none => rfl
  | some node =>
      have hl := h (2 * l) (List.mem_range.mpr (getNode_lt hnode))
      simp [hnode] at hl

theorem rightmost_spec {last : ℕ} (h : tree.rightmost = some last) :
    ∃ l, last = 2 * l ∧ (tree.getNode (2 * l)).isSome ∧
      ∀ l', (tree.getNode (2 * l')).isSome → l' ≤ l := by
  obtain ⟨before, hbefore⟩ := List.getLast?_eq_some_iff.mp h
  have hmem : last ∈ (List.range tree.nodes.length).filter
      fun i => i % 2 = 0 ∧ (tree.getNode i).isSome := by
    rw [hbefore]
    simp
  rw [List.mem_filter, decide_eq_true_eq] at hmem
  obtain ⟨l, rfl⟩ : ∃ l, last = 2 * l := ⟨last / 2, by omega⟩
  refine ⟨l, rfl, hmem.2.2, fun l' hsome => ?_⟩
  have hl' : 2 * l' ∈ (List.range tree.nodes.length).filter
      fun i => i % 2 = 0 ∧ (tree.getNode i).isSome := by
    obtain ⟨node, hnode⟩ := Option.isSome_iff_exists.mp hsome
    rw [List.mem_filter, List.mem_range, decide_eq_true_eq]
    exact ⟨getNode_lt hnode, by omega, hsome⟩
  have hsorted : ((List.range tree.nodes.length).filter
      fun i => i % 2 = 0 ∧ (tree.getNode i).isSome).Pairwise (· < ·) :=
    List.Pairwise.filter _ List.pairwise_lt_range
  rw [hbefore] at hl' hsorted
  rcases List.mem_append.mp hl' with hl' | hl'
  · have hlt := (List.pairwise_append.mp hsorted).2.2 _ hl' (2 * l) (List.mem_singleton_self _)
    omega
  · have heq := List.mem_singleton.mp hl'
    omega

/-- Truncation cuts the tree off behind the rightmost leaf that is not blank, at the least power of
two, and leaves nothing of a tree of blank leaves. -/
theorem truncate_cases (hm : tree.Sized m) :
    tree.truncate = ⟨0, []⟩ ∧ (∀ l, tree.getNode (2 * l) = none) ∨
    ∃ last m', (tree.getNode (2 * last)).isSome ∧ (∀ l, (tree.getNode (2 * l)).isSome → l ≤ last) ∧
      last < 2 ^ m' ∧ (∀ n, last < 2 ^ n → m' ≤ n) ∧ m' ≤ m ∧ tree.truncate.Sized m' ∧
      ∀ i, tree.truncate.getNode i = if i < 2 ^ (m' + 1) - 1 then tree.getNode i else none := by
  cases hright : tree.rightmost with
  | none => exact .inl ⟨by rw [truncate, hright], rightmost_eq_none hright⟩
  | some last =>
      obtain ⟨last, rfl, hsome, hmax⟩ := rightmost_spec hright
      obtain ⟨m', hpow, hle, hmin⟩ := nextPow2_spec (2 * last / 2 + 1)
      have hhalf : 2 * last / 2 = last := by omega
      have hlt : last < 2 ^ m := by
        obtain ⟨node, hnode⟩ := Option.isSome_iff_exists.mp hsome
        have hlen := getNode_lt hnode
        rw [hm.2, pow_succ] at hlen
        omega
      rw [hhalf] at hpow hle hmin
      have hm' : m' ≤ m := hmin m (by omega)
      have hlen : 2 ^ (m' + 1) - 1 ≤ tree.nodes.length := by
        rw [hm.2]
        exact Nat.sub_le_sub_right (Nat.pow_le_pow_right (by decide) (by omega)) 1
      have htrunc : tree.truncate = ⟨2 ^ m', tree.nodes.take (2 ^ (m' + 1) - 1)⟩ := by
        rw [truncate, hright]
        simp only [hhalf, hpow]
        rw [pow_succ, Nat.mul_comm 2]
      refine .inr ⟨last, m', hsome,
        hmax, by omega, fun n hn => hmin n (by omega), hm', ?_, fun i => ?_⟩
      · rw [htrunc]
        exact ⟨rfl, by rw [List.length_take, Nat.min_eq_left hlen]⟩
      · rw [htrunc]
        simp only [getNode, List.getElem?_take]
        split <;> rfl

theorem truncate_spec (hm : tree.Sized m)
    (hsome : ∃ i node, i % 2 = 0 ∧ tree.getNode i = some node) : ∃ m' ≤ m, tree.truncate.Sized m' ∧
      (∀ i, tree.truncate.getNode i = if i < 2 ^ (m' + 1) - 1 then tree.getNode i else none) ∧
      ∀ l, tree.truncate.getNode (2 * l) = tree.getNode (2 * l) := by
  obtain ⟨i, node, hi, hnode⟩ := hsome
  rcases truncate_cases hm with ⟨-, hblank⟩ | ⟨last, m', -, hmax, hlast, -, hm', hsized, hget⟩
  · have hnone := hblank (i / 2)
    rw [show 2 * (i / 2) = i by omega, hnode] at hnone
    cases hnone
  · refine ⟨m', hm', hsized, hget, fun l => ?_⟩
    rw [hget]
    split_ifs with hl
    · rfl
    · cases hn : tree.getNode (2 * l) with
      | none => rfl
      | some node =>
          have hle := hmax l (by rw [hn]; rfl)
          rw [pow_succ] at hl
          omega

/-- Truncation keeps what is in range. -/
theorem getNode_truncate (h : i < tree.truncate.nodes.length) :
    tree.truncate.getNode i = tree.getNode i := by
  unfold truncate at h ⊢
  cases hlast : tree.rightmost with
  | none => simp [hlast] at h
  | some last =>
      simp only [hlast, List.length_take] at h
      simp only [getNode, List.getElem?_take]
      rw [if_pos (by omega)]

/-- Truncation keeps every leaf. -/
theorem getNode_truncate_leaf (l : ℕ) : tree.truncate.getNode (2 * l) = tree.getNode (2 * l) := by
  by_cases hl : 2 * l < tree.truncate.nodes.length
  · exact getNode_truncate hl
  · have hnone : tree.truncate.getNode (2 * l) = none := by
      rw [getNode, List.getElem?_eq_none (Nat.not_lt.mp hl)]
      rfl
    rw [hnone]
    cases hn : tree.getNode (2 * l) with
    | none => rfl
    | some node =>
        have hlen := getNode_lt hn
        cases hlast : tree.rightmost with
        | none =>
            rw [rightmost_eq_none hlast l] at hn
            cases hn
        | some last =>
            obtain ⟨last, rfl, -, hmax⟩ := rightmost_spec hlast
            obtain ⟨m', hpow, hle, -⟩ := nextPow2_spec (2 * last / 2 + 1)
            have hle' := hmax l (by rw [hn]; rfl)
            simp only [truncate, hlast, hpow, List.length_take] at hl
            omega

theorem getNode_cleared (tree : RatchetTree) (slot : ℕ) (path : List ℕ) (i : ℕ) :
    (path.foldl blankNode (tree.blankNode (2 * slot))).getNode i =
      if i ≠ 2 * slot ∧ i ∉ path then tree.getNode i else none := by
  rw [getNode_blankNodes, getNode_blankNode]
  by_cases hmem : i ∈ path
  · rw [if_pos hmem, if_neg (fun h => h.2 hmem)]
  · by_cases hi : i = 2 * slot
    · rw [if_neg hmem, if_pos hi.symm, if_neg (fun h => h.1 hi)]
    · rw [if_neg hmem, if_neg (Ne.symm hi), if_pos ⟨hi, hmem⟩]

/-- The tree after a `remove_member` proposal: the leaf and the nodes above it are blank, blank
slots at the right end are cut off, and nothing else has changed. -/
theorem removeLeaf_spec {slot l : ℕ} {node : Node} (hm : tree.Sized m) (hm32 : m ≤ 32)
    (h : tree.removeLeaf (2 * slot) = .ok t) (hl : l ≠ slot)
    (hnode : tree.getNode (2 * l) = some node) : slot < 2 ^ m ∧ ∃ m' ≤ m, t.Sized m' ∧
      (∀ i, t.getNode i = if i < 2 ^ (m' + 1) - 1 ∧ i ≠ 2 * slot ∧ i ∉ ancestors slot 0 m
        then tree.getNode i else none) ∧
      ∀ l, t.getNode (2 * l) = if l = slot then none else tree.getNode (2 * l) := by
  simp only [removeLeaf, Py.bind_eq_ok, Py.require_eq_ok, Py.pure_eq, Except.ok.injEq] at h
  obtain ⟨_, -, _, hlt, direct, hdirect, rfl⟩ := h
  have hslot : slot < 2 ^ m := by
    rw [hm.2, pow_succ] at hlt
    omega
  have hblanked : (tree.blankNode (2 * slot)).Sized m := (blankNode_sameSize _).sized hm
  rw [directPath_leaf hblanked.covers hm32 hslot, Except.ok.injEq] at hdirect
  subst hdirect
  have hget := getNode_cleared tree slot (ancestors slot 0 m)
  obtain ⟨m', hm', hsized, hnodes, hleaves⟩ := truncate_spec
    ((blankNodes_sameSize (ancestors slot 0 m)).sized hblanked) ⟨2 * l, node, by omega, by
      rw [hget, if_pos ⟨by omega, leaf_notMem_ancestors⟩, hnode]⟩
  refine ⟨hslot, m', hm', hsized, fun i => ?_, fun l => ?_⟩
  · rw [hnodes, hget]
    by_cases hi : i < 2 ^ (m' + 1) - 1 <;> simp [hi]
  · rw [hleaves, hget]
    by_cases hl : l = slot
    · simp [hl]
    · rw [if_neg hl, if_pos ⟨by omega, leaf_notMem_ancestors⟩]

/-- Copying a tree into one of the same size changes nothing. -/
theorem copyNodes_self (hm : tree.Sized m) (h : tree.copyNodes (new tree.numLeaves) = .ok t) :
    t.Sized m ∧ ∀ i, t.getNode i = tree.getNode i := by
  rw [hm.1] at h
  obtain ⟨hsize, hcopy⟩ := copyNodes_new h
  exact ⟨hsize.sized (sized_new m), hcopy⟩

/-! ## Encodable trees are small -/

theorem length_le_joinBytes {α : Type} {f : α → Py Bytes} {xs : List α} {e : Bytes}
    (hne : ∀ x ∈ xs, ∀ e, f x = .ok e → e ≠ []) (h : joinBytes f xs = .ok e) :
    xs.length ≤ e.length := by
  obtain ⟨encs, hmap, rfl⟩ := Py.map_eq_ok.mp h
  have hall := forall₂_of_mapM hmap
  clear h hmap
  induction hall with
  | nil => simp
  | @cons x enc xs encs hx hxs ih =>
      have hpos : 0 < enc.length := List.length_pos_iff.mpr (hne x (by simp) enc hx)
      have hrest := ih fun x' hx' => hne x' (by simp [hx'])
      rw [List.flatten_cons, List.length_append, List.length_cons]
      omega

/-- A tree that can be encoded has fewer than `2 ^ 30` nodes. -/
theorem length_lt_of_toBytes {e : Bytes} (h : tree.toBytes = .ok e) :
    tree.nodes.length < 2 ^ 30 := by
  simp only [toBytes, Py.bind_eq_ok, Py.pure_eq, Except.ok.injEq] at h
  obtain ⟨parts, hparts, size, hsize, -⟩ := h
  have hle := length_le_joinBytes (fun _ _ _ hx => entryBytes_ne_nil hx) hparts
  exact Nat.lt_of_le_of_lt hle (lt_of_tlsVarint hsize)

theorem Sized.le_29 {e : Bytes} (hm : tree.Sized m) (h : tree.toBytes = .ok e) : m ≤ 29 := by
  have hlen := length_lt_of_toBytes h
  by_contra hgt
  have hpow : 2 ^ 30 ≤ 2 ^ m := Nat.pow_le_pow_right (by decide) (by omega)
  rw [hm.2, pow_succ] at hlen
  omega

/-! ## Resolutions -/

/-- No parent of the tree lists unmerged leaves. -/
def Merged (tree : RatchetTree) : Prop :=
  ∀ i parent, tree.getNode i = some (.parent parent) → parent.unmergedLeaves = []

theorem Merged.of_getNode (h : tree.Merged)
    (hsub : ∀ i parent, t.getNode i = some (.parent parent) →
      tree.getNode i = some (.parent parent)) :
    t.Merged := fun i parent hi => h i parent (hsub i parent hi)

private theorem resolutionLoop_isSome (h : tree.Merged) {fuel : ℕ} {indices : List ℕ}
    (hres : tree.resolutionLoop fuel i = .ok indices) :
    ∀ j ∈ indices, ∃ node, tree.getNode j = some node := by
  induction fuel generalizing i indices with
  | zero => simp [resolutionLoop] at hres
  | succ fuel ih =>
      rw [resolutionLoop] at hres
      cases hi : tree.nodes[i]? with
      | none =>
          simp only [hi, Py.pure_eq, Except.ok.injEq] at hres
          subst hres
          simp
      | some entry =>
          have hget : tree.getNode i = entry := by rw [getNode, hi]; rfl
          simp only [hi] at hres
          by_cases heven : i % 2 = 0
          · simp only [if_pos heven, Py.pure_eq, Except.ok.injEq] at hres
            subst hres
            intro j hj
            cases entry with
            | none => simp at hj
            | some node =>
                simp only [Option.isSome_some, if_true, List.mem_singleton] at hj
                exact ⟨node, hj ▸ hget⟩
          · simp only [if_neg heven] at hres
            rcases entry with _ | leaf | parent
            · simp only [Py.bind_eq_ok, Py.pure_eq, Except.ok.injEq] at hres
              obtain ⟨left, hleft, right, hright, rfl⟩ := hres
              intro j hj
              rcases List.mem_append.mp hj with hj | hj
              · exact ih hleft j hj
              · exact ih hright j hj
            · simp only [Py.pure_eq, Except.ok.injEq] at hres
              subst hres
              intro j hj
              exact ⟨_, List.mem_singleton.mp hj ▸ hget⟩
            · simp only [h i parent hget, List.map_nil, Py.pure_eq, Except.ok.injEq] at hres
              subst hres
              intro j hj
              exact ⟨_, List.mem_singleton.mp hj ▸ hget⟩

/-- With no unmerged leaves a resolution has non-blank nodes only. -/
theorem resolution_some (h : tree.Merged) {index : Option ℕ} {indices : List ℕ}
    (hres : tree.resolution index = .ok indices) :
    ∀ j ∈ indices, ∃ node, tree.getNode j = some node := by
  cases index with
  | none =>
      simp only [resolution, Py.pure_eq, Except.ok.injEq] at hres
      subst hres
      simp
  | some i => exact resolutionLoop_isSome h hres

private theorem resolutionLoop_under (h : tree.Merged) (hm : tree.Sized m) (hm32 : m ≤ 32)
    {fuel : ℕ} {indices : List ℕ} (hres : tree.resolutionLoop fuel i = .ok indices) :
    ∀ x ∈ indices, ∀ l, Under x l → Under i l := by
  induction fuel generalizing i indices with
  | zero => simp [resolutionLoop] at hres
  | succ fuel ih =>
      rw [resolutionLoop] at hres
      cases hi : tree.nodes[i]? with
      | none =>
          simp only [hi, Py.pure_eq, Except.ok.injEq] at hres
          subst hres
          simp
      | some entry =>
          have hget : tree.getNode i = entry := by rw [getNode, hi]; rfl
          have hself : ∀ x ∈ [i], ∀ l, Under x l → Under i l := by
            intro x hx l hl
            rwa [← List.mem_singleton.mp hx]
          simp only [hi] at hres
          by_cases heven : i % 2 = 0
          · simp only [if_pos heven, Py.pure_eq, Except.ok.injEq] at hres
            subst hres
            split_ifs
            · exact hself
            · simp
          · simp only [if_neg heven] at hres
            rcases entry with _ | leaf | parent
            · obtain ⟨left, hleft, hres⟩ := Py.bind_eq_ok.mp hres
              obtain ⟨right, hright, hres⟩ := Py.bind_eq_ok.mp hres
              obtain rfl := Except.ok.inj hres
              -- an odd index stands one above its children
              obtain ⟨k, j, rfl⟩ := exists_nodeAt i
              have hlt := (List.getElem?_eq_some_iff.mp hi).1
              rw [hm.2] at hlt
              have hk := le_of_nodeAt_lt hlt
              cases k with
              | zero => simp at heven
              | succ k =>
                  have hup : ∀ {j' x l}, j' / 2 = j → (Under x l → Under (nodeAt k j') l) →
                      Under x l → Under (nodeAt (k + 1) j) l := by
                    intro j' x l hj hsub hl
                    exact hj ▸ (hsub hl).parent
                  rw [level_nodeAt (by omega), Nat.add_sub_cancel,
                    Nat.one_shiftLeft] at hleft hright
                  rw [nodeAt_sub] at hleft
                  rw [nodeAt_add] at hright
                  intro x hx l hl
                  rcases List.mem_append.mp hx with hx | hx
                  · exact hup (by omega) (ih hleft x hx l) hl
                  · exact hup (by omega) (ih hright x hx l) hl
            · obtain rfl := Except.ok.inj hres
              exact hself
            · simp only [h i parent hget, List.map_nil, Py.pure_eq, Except.ok.injEq] at hres
              subst hres
              exact hself

/-- The nodes of a resolution are in the subtree that is resolved. -/
theorem resolution_under (h : tree.Merged) (hm : tree.Sized m) (hm32 : m ≤ 32) {indices : List ℕ}
    (hres : tree.resolution (some i) = .ok indices) : ∀ x ∈ indices, ∀ l, Under x l → Under i l :=
  resolutionLoop_under h hm hm32 hres

end RatchetTree

end PureMls
