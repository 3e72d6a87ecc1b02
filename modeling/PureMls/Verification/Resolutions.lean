import PureMls.Foundation.ExactCover
import PureMls.Verification.Assumptions
import PureMls.Verification.Commit

/-! # Copath resolutions

The resolutions of the copath cover every other member exactly once, as long as the level of the
root can be counted. -/

namespace PureMls

open CompleteTree

namespace RatchetTree

variable {tree : RatchetTree} {m k j c : ℕ}

/-! ## What a node stands for -/

/-- The unmerged leaves of the node at index `i`, if there is a ParentNode at an odd index. -/
def unmergedAt (tree : RatchetTree) (i : ℕ) : List ℕ :=
  match tree.getNode i with
  | some (.parent parent) => if i % 2 = 1 then parent.unmergedLeaves else []
  | _ => []

/-- The lists of unmerged leaves name non-blank leaves below their node, each once. -/
def UnmergedBelow (tree : RatchetTree) : Prop :=
  ∀ i, (tree.unmergedAt i).Nodup ∧
    ∀ l ∈ tree.unmergedAt i, (tree.getNode (2 * l)).isSome ∧ Under i l

/-- Leaf `l` has the key of the node at index `x`. -/
def Reaches (tree : RatchetTree) (x l : ℕ) : Prop := Under x l ∧ l ∉ tree.unmergedAt x

theorem unmergedAt_leaf (l : ℕ) : tree.unmergedAt (2 * l) = [] := by
  have heven : ¬ 2 * l % 2 = 1 := by omega
  unfold unmergedAt
  rcases tree.getNode (2 * l) with _ | leaf | parent
  · rfl
  · rfl
  · exact if_neg heven

theorem reaches_leaf {l l' : ℕ} : tree.Reaches (2 * l) l' ↔ l' = l := by
  rw [Reaches, unmergedAt_leaf, under_leaf]
  simp

/-- The nodes are not blank, and every non-blank leaf of `leaves` has the key of one of them. -/
structure Resolves (tree : RatchetTree) (leaves : Set ℕ) (nodes : List ℕ) : Prop where
  cover : ExactCover (fun x => {l | Under x l}) (fun x => {l | tree.Reaches x l})
    {l | (tree.getNode (2 * l)).isSome} leaves nodes
  nonblank : ∀ x ∈ nodes, (tree.getNode x).isSome

theorem Resolves.nil {leaves : Set ℕ} (h : ∀ l ∈ leaves, tree.getNode (2 * l) = none) :
    tree.Resolves leaves [] :=
  ⟨.nil fun l hl hsome => by simp [h l hl] at hsome, fun _ hx => (List.not_mem_nil hx).elim⟩

theorem Resolves.append {s t : Set ℕ} {xs ys : List ℕ} (hxs : tree.Resolves s xs)
    (hys : tree.Resolves t ys) (hst : Disjoint s t) : tree.Resolves (s ∪ t) (xs ++ ys) := by
  refine ⟨hxs.cover.append exists_under (fun x l hl => hl.1) hys.cover hst, fun x hx => ?_⟩
  rcases List.mem_append.mp hx with hx | hx
  · exact hxs.nonblank x hx
  · exact hys.nonblank x hx

/-- A non-blank node with its unmerged leaves stands for all that is below it. -/
theorem resolves_some (hunmerged : tree.UnmergedBelow) {x : ℕ} (hsome : (tree.getNode x).isSome) :
    tree.Resolves {l | Under x l} (x :: (tree.unmergedAt x).map (2 * ·)) := by
  obtain ⟨hnodup, hbelow⟩ := hunmerged x
  refine ⟨?_, ?_⟩
  · apply ExactCover.cons_map hnodup
    · exact fun l => Iff.rfl
    · exact fun l => Set.ext fun l' => under_leaf
    · exact fun l => reaches_leaf.mpr rfl
    · exact fun y l hl => hl.1
    · rintro l hl rfl
      rw [unmergedAt_leaf] at hl
      cases hl
    · exact fun l hl => (hbelow l hl).2
  · intro y hy
    rcases List.mem_cons.mp hy with rfl | hy
    · exact hsome
    · obtain ⟨l, hl, rfl⟩ := List.mem_map.mp hy
      exact (hbelow l hl).1

/-! ## The resolution of a node -/

theorem resolutionLoop_some {fuel i : ℕ} {node : Node} (hnode : tree.getNode i = some node) :
    tree.resolutionLoop (fuel + 1) i = .ok (i :: (tree.unmergedAt i).map (2 * ·)) := by
  have hget : tree.nodes[i]? = some (some node) := by
    rw [getNode] at hnode
    exact Option.join_eq_some_iff.mp hnode
  rw [resolutionLoop, hget, unmergedAt, hnode]
  by_cases heven : i % 2 = 0
  · rcases node with leaf | parent <;> simp [heven]
  · have hodd : i % 2 = 1 := by omega
    rcases node with leaf | parent <;> simp [hodd]

theorem resolutionLoop_blankLeaf {fuel l : ℕ} (hblank : tree.getNode (2 * l) = none) :
    tree.resolutionLoop (fuel + 1) (2 * l) = .ok [] := by
  rw [resolutionLoop]
  cases hget : tree.nodes[2 * l]? with
  | none => rfl
  | some entry =>
      rw [getNode, hget, Option.join_some] at hblank
      simp [hblank]

theorem resolutionLoop_blankParent {fuel : ℕ} (h : tree.Covers m) (hk32 : k < 32) (hk : k < m)
    (hj : j < 2 ^ (m - (k + 1))) (hblank : tree.getNode (nodeAt (k + 1) j) = none) :
    tree.resolutionLoop (fuel + 1) (nodeAt (k + 1) j) = (do
      let left ← tree.resolutionLoop fuel (nodeAt k (2 * j))
      let right ← tree.resolutionLoop fuel (nodeAt k (2 * j + 1))
      pure (left ++ right)) := by
  have hodd : ¬ nodeAt (k + 1) j % 2 = 0 := by
    rw [nodeAt_succ_mod_two]
    decide
  have hdist : 1 <<< (level (nodeAt (k + 1) j) - 1) = 2 ^ k := by
    rw [level_nodeAt (by omega), Nat.add_sub_cancel, Nat.one_shiftLeft]
  rw [resolutionLoop, getElem?_of_covers h hk hj, hblank]
  simp only [if_neg hodd, hdist, nodeAt_sub, nodeAt_add]

/-- Induction on the height: a blank parent hands over to its children, which share no leaf. -/
theorem resolutionLoop_resolves (h : tree.Covers m) (hunmerged : tree.UnmergedBelow) (hk32 : k ≤ 32)
    (hk : k ≤ m) (hj : j < 2 ^ (m - k)) {fuel : ℕ} (hfuel : k < fuel) :
    ∃ nodes, tree.resolutionLoop fuel (nodeAt k j) = .ok nodes ∧
      tree.Resolves {l | Under (nodeAt k j) l} nodes := by
  induction k generalizing j fuel with
  | zero =>
      obtain ⟨fuel, rfl⟩ : ∃ n, fuel = n + 1 := ⟨fuel - 1, by omega⟩
      rw [nodeAt_zero]
      cases hnode : tree.getNode (2 * j) with
      | none =>
          refine ⟨[], resolutionLoop_blankLeaf hnode, .nil fun l hl => ?_⟩
          obtain rfl := under_leaf.mp hl
          exact hnode
      | some node => exact ⟨_, resolutionLoop_some hnode, resolves_some hunmerged (by simp [hnode])⟩
  | succ k ih =>
      obtain ⟨fuel, rfl⟩ : ∃ n, fuel = n + 1 := ⟨fuel - 1, by omega⟩
      cases hnode : tree.getNode (nodeAt (k + 1) j) with
      | none =>
          have hpow := two_pow_sub_succ hk
          obtain ⟨left, hleft, hleftCover⟩ := ih (j := 2 * j) (by omega) (by omega) (by omega)
            (by omega : k < fuel)
          obtain ⟨right, hright, hrightCover⟩ := ih (j := 2 * j + 1) (by omega) (by omega)
            (by omega) (by omega : k < fuel)
          have hunion : {l | Under (nodeAt (k + 1) j) l} =
              {l | Under (nodeAt k (2 * j)) l} ∪ {l | Under (nodeAt k (2 * j + 1)) l} :=
            Set.ext fun l => under_children
          have hdisjoint :
            Disjoint {l | Under (nodeAt k (2 * j)) l} {l | Under (nodeAt k (2 * j + 1)) l} := by
            rw [Set.disjoint_left]
            intro l hl hl'
            have heq := (under_nodeAt.mp hl).symm.trans (under_nodeAt.mp hl')
            omega
          refine ⟨left ++ right, ?_, ?_⟩
          · rw [resolutionLoop_blankParent h (by omega) hk hj hnode, hleft, hright]
            rfl
          · rw [hunion]
            exact hleftCover.append hrightCover hdisjoint
      | some node => exact ⟨_, resolutionLoop_some hnode, resolves_some hunmerged (by simp [hnode])⟩

/-! ## The resolutions of a copath -/

/-- The leaves below the node at height `k + n` that are not below the one at height `k`, on the way
from leaf `c` up. -/
def between (c k n : ℕ) : Set ℕ := {l | l / 2 ^ (k + n) = c / 2 ^ (k + n) ∧ l / 2 ^ k ≠ c / 2 ^ k}

theorem between_succ (c k n : ℕ) :
    between c k (n + 1) = {l | Under (nodeAt k (siblingIndex (c / 2 ^ k))) l} ∪ between c
      (k + 1) n := by
  have hsum : k + 1 + n = k + (n + 1) := by omega
  ext l
  simp only [between, Set.mem_union, Set.mem_ofPred_eq, under_nodeAt, hsum]
  have hl := div_pow_succ l k
  have hc := div_pow_succ c k
  constructor
  · rintro ⟨habove, hne⟩
    by_cases heq : l / 2 ^ (k + 1) = c / 2 ^ (k + 1)
    · exact .inl (eq_siblingIndex (by rw [hl, hc, heq]) hne)
    · exact .inr ⟨habove, heq⟩
  · rintro (hsib | ⟨habove, hne⟩)
    · have heq : l / 2 ^ (k + 1) = c / 2 ^ (k + 1) := by
        rw [← hl, ← hc, hsib, siblingIndex_div_two]
      refine ⟨?_, hsib ▸ siblingIndex_ne _⟩
      rw [show k + (n + 1) = k + 1 + n by omega, pow_add, ← Nat.div_div_eq_div_mul, heq,
        Nat.div_div_eq_div_mul]
    · refine ⟨habove, fun heq => hne ?_⟩
      rw [← hl, ← hc, heq]

theorem disjoint_sibling_between (c k n : ℕ) :
    Disjoint {l | Under (nodeAt k (siblingIndex (c / 2 ^ k))) l} (between c (k + 1) n) := by
  rw [Set.disjoint_left]
  rintro l hl ⟨-, hne⟩
  apply hne
  rw [← div_pow_succ l, ← div_pow_succ c, under_nodeAt.mp hl, siblingIndex_div_two]

theorem mapM_resolution_siblings (h : tree.Covers m) (hunmerged : tree.UnmergedBelow)
    (hc : c < 2 ^ m) {n : ℕ} (hn : k + n ≤ m) (hn32 : k + n ≤ 33) : ∃ resolutions,
    ((siblings c k n).map some).mapM tree.resolution = .ok resolutions ∧
      tree.Resolves (between c k n) resolutions.flatten := by
  induction n generalizing k with
  | zero =>
      refine ⟨[], rfl, .nil fun l hl => ?_⟩
      exact absurd hl.1 hl.2
  | succ n ih =>
      obtain ⟨rest, hrest, hrestCover⟩ := ih (k := k + 1) (by omega) (by omega)
      have hj := siblingIndex_lt (by omega : 0 < m - k) (div_pow_lt hc (by omega : k ≤ m))
      obtain ⟨nodes, hnodes, hcover⟩ :=
        resolutionLoop_resolves h hunmerged (by omega) (by omega : k ≤ m) hj
        (by omega : k < 33)
      refine ⟨nodes :: rest, ?_, ?_⟩
      · rw [siblings, List.map_cons, List.mapM_cons, resolution, hnodes, Py.ok_bind, hrest]
        rfl
      · rw [between_succ, List.flatten_cons]
        exact hcover.append hrestCover (disjoint_sibling_between c k n)

/-- The direct path of leaf `c`, and the resolutions of the nodes beside it. -/
structure CopathCover (tree : RatchetTree) (c : ℕ) (direct : List ℕ) (resolutions : List (List ℕ)) :
    Prop where
  direct_eq : tree.directPath (2 * c) = .ok direct
  length_eq : direct.length = tree.numLeaves.log2
  ends_at_root : (2 * c :: direct).getLast? = some tree.root
  resolutions_eq : (do (← tree.copath (2 * c)).mapM tree.resolution) = .ok resolutions
  disjoint : resolutions.Pairwise List.Disjoint
  nodup : ∀ nodes ∈ resolutions, nodes.Nodup
  nonblank : ∀ nodes ∈ resolutions, ∀ x ∈ nodes, (tree.getNode x).isSome
  off_path : ∀ nodes ∈ resolutions, ∀ x ∈ nodes, x ≠ 2 * c ∧ x ∉ direct
  covered : ∀ l < tree.numLeaves, l ≠ c → (tree.getNode (2 * l)).isSome →
    ∃! x, x ∈ resolutions.flatten ∧ tree.Reaches x l

theorem getLast?_ancestors {l n : ℕ} :
    (nodeAt k (l / 2 ^ k) :: ancestors l k n).getLast? = some
    (nodeAt (k + n) (l / 2 ^ (k + n))) := by
  induction n generalizing k with
  | zero => rfl
  | succ n ih =>
      rw [ancestors, List.getLast?_cons_cons, ih, show k + 1 + n = k + (n + 1) by omega]

/-- In a tree of at most `2 ^ 32` leaves the copath resolutions of a leaf cover every other
non-blank leaf exactly once. -/
theorem copath_resolutions_cover (h : tree.Covers m) (hm : m ≤ 32) (hunmerged : tree.UnmergedBelow)
    (hc : c < 2 ^ m) : ∃ direct resolutions, CopathCover tree c direct resolutions := by
  obtain ⟨resolutions, hres, hcover⟩ :=
    mapM_resolution_siblings (k := 0) (n := m) h hunmerged hc (by omega)
    (by omega)
  obtain ⟨hnodup, hdisjoint⟩ := List.nodup_flatten.mp hcover.cover.nodup
  have hmem : ∀ nodes ∈ resolutions, ∀ x ∈ nodes, x ∈ resolutions.flatten :=
    fun nodes hnodes x hx =>
    List.mem_flatten.mpr ⟨nodes, hnodes, hx⟩
  have hroot := getLast?_ancestors (k := 0) (l := c) (n := m)
  refine ⟨ancestors c 0 m, resolutions, ?_⟩
  refine ⟨directPath_leaf h hm hc, ?_, ?_, ?_, hdisjoint, hnodup, ?_, ?_, ?_⟩
  · rw [length_ancestors, h.1, Nat.log2_two_pow]
  · rw [root_of_covers h]
    simpa [Nat.div_eq_of_lt hc] using hroot
  · rw [copath_leaf h hm hc, Py.ok_bind, hres]
  · exact fun nodes hnodes x hx => hcover.nonblank x (hmem nodes hnodes x hx)
  · -- no listed node has leaf `c` under it
    intro nodes hnodes x hx
    have hout : ¬ Under x c := fun hunder =>
      (hcover.cover.inside x (hmem nodes hnodes x hx) hunder).2 rfl
    refine ⟨fun heq => hout (heq ▸ under_leaf.mpr rfl), fun hpath => hout ?_⟩
    obtain ⟨k, -, -, rfl⟩ := ancestors_ge hpath
    exact under_nodeAt.mpr rfl
  · intro l hl hne hsome
    rw [h.1] at hl
    apply hcover.cover.reached l _ hsome
    rw [between, Set.mem_ofPred_eq, Nat.zero_add, Nat.div_eq_of_lt hl, Nat.div_eq_of_lt hc]
    simpa using hne

end RatchetTree

namespace Sample

/-- Three members, the second of them unmerged at the parent of the first two. -/
def lateJoiner : RatchetTree :=
  ⟨4, [some (.leaf plainLeaf), some (.parent ⟨[1], [], [1]⟩), some (.leaf plainLeaf), none,
    some (.leaf plainLeaf), none, none]⟩

theorem lateJoiner_unmergedBelow : lateJoiner.UnmergedBelow := by
  have hlists : ∀ i, lateJoiner.unmergedAt i = if i = 1 then [1] else [] := by
    intro i
    match i with
    | 0 | 1 | 2 | 3 | 4 | 5 | 6 => rfl
    | i + 7 => simp [RatchetTree.unmergedAt, RatchetTree.getNode, lateJoiner]
  intro i
  rw [hlists]
  split_ifs with hi
  · subst hi
    refine ⟨by decide, fun l hl => ?_⟩
    obtain rfl := List.mem_singleton.mp hl
    exact ⟨rfl, 1, rfl⟩
  · exact ⟨List.nodup_nil, fun l hl => (List.not_mem_nil hl).elim⟩

end Sample

open Sample in
theorem copath_resolutions_cover_lateJoiner :
    lateJoiner.resolution (some 1) = .ok [1, 2] ∧
    ∃ direct resolutions, RatchetTree.CopathCover lateJoiner 2 direct resolutions :=
  ⟨rfl, RatchetTree.copath_resolutions_cover (m := 2) ⟨rfl, by decide⟩
    (by decide) lateJoiner_unmergedBelow
    (by decide)⟩

/-! ## More leaves than 32 bits can number -/

namespace RatchetTree

variable {tree : RatchetTree} {m k : ℕ}

theorem ancestors_concat (l k n : ℕ) :
    ancestors l k (n + 1) = ancestors l k n ++ [nodeAt (k + n + 1) (l / 2 ^ (k + n + 1))] := by
  induction n generalizing k with
  | zero => rfl
  | succ n ih =>
      rw [ancestors, ih, ancestors, List.cons_append, show k + 1 + n = k + (n + 1) by omega]

/-- Who has the key of a listed node is below the node that was resolved. -/
theorem exists_resolved (h : tree.Covers m) (hunmerged : tree.UnmergedBelow) {cop : List (Option ℕ)}
    {resolutions : List (List ℕ)}
    (hcop : ∀ s ∈ cop, ∃ k j, s = some (nodeAt k j) ∧ k ≤ 32 ∧ k ≤ m ∧ j < 2 ^ (m - k))
    (hres : cop.mapM tree.resolution = .ok resolutions) {x l : ℕ} (hx : x ∈ resolutions.flatten)
    (hl : Under x l) : ∃ s, some s ∈ cop ∧ Under s l := by
  obtain ⟨nodes, hnodes, hx⟩ := List.mem_flatten.mp hx
  obtain ⟨s, hs, heq⟩ := mem_of_mapM hres hnodes
  obtain ⟨k, j, rfl, hk32, hk, hj⟩ := hcop s hs
  obtain ⟨nodes', hnodes', hcover⟩ :=
    resolutionLoop_resolves h hunmerged hk32 hk hj (by omega : k < 33)
  rw [resolution, hnodes', Except.ok.injEq] at heq
  subst heq
  exact ⟨_, hs, hcover.cover.inside x hx hl⟩

/-- The sibling below a root of level 33 is taken half as far away as it is. -/
theorem sibling_of_capped (h : tree.Covers 33) :
    tree.sibling (nodeAt 32 0) = .ok (nodeAt 31 2) := by
  have hn : ¬ tree.numLeaves ≤ 1 := by
    rw [h.1]
    decide
  have hparent := parent_nodeAt h (by decide : 32 ≤ 32) (by decide) (by decide : 0 < 2 ^ (33 - 32))
  have hdist : nodeAt 33 0 + 1 <<< (32 - 1) = nodeAt 31 2 := by decide
  rw [Nat.zero_div] at hparent
  rw [sibling, if_neg hn, hparent, Py.ok_bind]
  simp only [level_capped (j := 0) le_rfl]
  rw [if_pos (by decide), hdist]
  rfl

theorem copath_of_capped (h : tree.Covers 33) :
    tree.copath 0 = .ok ((siblings 0 0 32).map some ++ [some (nodeAt 31 2)]) := by
  have hpath := directPath_ancestors h le_rfl (by decide : 0 < 2 ^ 33)
  have hloop := copathLoop_nodeAt (k := 0) (n := 32) (l := 0) h (by decide) (by decide) (by decide)
    [nodeAt 33 0]
  have hlt := nodeAt_lt_of_covers h (by decide : 31 ≤ 33) (by decide : 2 < 2 ^ (33 - 31))
  rw [ancestors_concat] at hpath
  simp only [Nat.zero_add, Nat.zero_div, Nat.mul_zero, nodeAt_zero] at hpath hloop
  rw [copath, hpath, Py.ok_bind, hloop, copathLoop, sibling_of_capped h, Py.ok_bind, if_pos hlt]
  rfl

theorem mem_copath_of_capped {s : Option ℕ}
    (h : s ∈ (siblings 0 0 32).map some ++ [some (nodeAt 31 2)]) :
    ∃ k j, s = some (nodeAt k j) ∧ k < 32 ∧ j < 2 ^ (33 - k) ∧ (j = 1 ∨ k = 31 ∧ j = 2) := by
  rcases List.mem_append.mp h with hs | hs
  · obtain ⟨x, hx, rfl⟩ := List.mem_map.mp hs
    obtain ⟨k, hk⟩ := List.mem_iff_getElem?.mp hx
    obtain ⟨hlt, rfl⟩ := getElem?_siblings hk
    rw [Nat.zero_add, Nat.zero_div]
    exact ⟨k, 1, rfl, hlt, Nat.one_lt_two_pow (by omega), .inl rfl⟩
  · exact ⟨31, 2, List.mem_singleton.mp hs, by decide, by decide, .inr ⟨rfl, rfl⟩⟩

open Sample in
/-- A tree of `2 ^ 33` leaves with two members, in the first quarter and in the last. -/
theorem exists_farLeaf : ∃ tree : RatchetTree, tree.Sized 33 ∧ (∀ i, tree.unmergedAt i = []) ∧
    (tree.getNode (2 * 6442450944)).isSome := by
  have hsized := sized_new 33
  have hblank := getNode_new (2 ^ 33)
  generalize new (2 ^ 33) = blank at hsized hblank
  obtain ⟨near, hnear⟩ : ∃ near, blank.setLeaf 0 plainLeaf = .ok near :=
    ⟨_, setLeaf_eq_ok.mpr ⟨rfl, by rw [hsized.2]; decide, rfl⟩⟩
  obtain ⟨hnearSize, hnearNode⟩ := setLeaf_node hnear
  have hnearSized := hnearSize.sized hsized
  obtain ⟨tree, htree⟩ : ∃ tree, near.setLeaf (2 * 6442450944) plainLeaf = .ok tree :=
    ⟨_, setLeaf_eq_ok.mpr ⟨by decide, by rw [hnearSized.2]; decide, rfl⟩⟩
  obtain ⟨hsize, hnode⟩ := setLeaf_node htree
  refine ⟨tree, hsize.sized hnearSized, ?_, by rw [hnode, if_pos rfl]; rfl⟩
  intro i
  rw [unmergedAt, hnode, hnearNode, hblank]
  split_ifs <;> rfl

/-- Among `2 ^ 33` leaves the far half of the other side of the root is missed. -/
theorem far_leaf_uncovered : ¬ ∀ (tree : RatchetTree) (m c : ℕ), tree.Sized m → tree.UnmergedBelow →
    c < 2 ^ m → ∃ direct resolutions, CopathCover tree c direct resolutions := by
  intro hall
  obtain ⟨tree, hsized, hunmerged, hfar⟩ := exists_farLeaf
  have hbelow : tree.UnmergedBelow := by
    intro i
    rw [hunmerged]
    exact ⟨List.nodup_nil, fun l hl => (List.not_mem_nil hl).elim⟩
  obtain ⟨direct, resolutions, hcover⟩ := hall tree 33 0 hsized hbelow (by decide)
  obtain ⟨x, ⟨hx, hreach, -⟩, -⟩ :=
    hcover.covered 6442450944 (by rw [hsized.1]; decide) (by decide) hfar
  have hres := hcover.resolutions_eq
  rw [Nat.mul_zero, copath_of_capped hsized.covers, Py.ok_bind] at hres
  have hplace : ∀ s ∈ (siblings 0 0 32).map some ++ [some (nodeAt 31 2)],
      ∃ k j, s = some (nodeAt k j) ∧ k ≤ 32 ∧ k ≤ 33 ∧ j < 2 ^ (33 - k) := by
    intro s hs
    obtain ⟨k, j, heq, hk, hj, -⟩ := mem_copath_of_capped hs
    exact ⟨k, j, heq, hk.le, by omega, hj⟩
  obtain ⟨s, hs, hunder⟩ := exists_resolved hsized.covers hbelow hplace hres hx hreach
  obtain ⟨k, j, heq, hk, -, hkj⟩ := mem_copath_of_capped hs
  obtain rfl := Option.some.inj heq
  rw [under_nodeAt] at hunder
  rcases hkj with rfl | ⟨rfl, rfl⟩
  · have hpow : 2 ^ k ≤ 2 ^ 31 := Nat.pow_le_pow_right (by decide) (by omega)
    have hquotient := Nat.div_le_div_left (a := 6442450944) hpow (Nat.two_pow_pos k)
    rw [hunder] at hquotient
    exact absurd hquotient (by decide)
  · exact absurd hunder (by decide)

end RatchetTree

end PureMls
