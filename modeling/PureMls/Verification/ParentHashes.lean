import PureMls.Verification.Frames

/-! # Parent hashes

The chain that RFC 9420 §7.9 asks for links every node of the committer's path to its parent; the
builders write each link one node too high. -/

namespace PureMls

open RatchetTree MLSGroup

variable {C : Crypto}

/-! ## The chain -/

/-- The parent hash that links the node below to the parent at `upper`, whose other child is
`sibling`. -/
def RatchetTree.LinksTo (C : Crypto) (t : RatchetTree) (parentHash : Bytes) (upper : ℕ)
    (sibling : Option ℕ) : Prop :=
  ∃ above hash, t.getNode upper = some (.parent above) ∧ t.subtreeHash C sibling = .ok hash ∧
    computeParentHash C above.publicKey above.parentHash hash = .ok parentHash

/-- The parent hashes from the root, which has none, down to the committer's leaf. -/
structure ParentHashChain (C : Crypto) (t : RatchetTree) (committer : ℕ) (direct : List ℕ)
    (cop : List (Option ℕ)) : Prop where
  direct_eq : t.directPath (2 * committer) = .ok direct
  cop_eq : t.copath (2 * committer) = .ok cop
  root : ∀ top, direct.getLast? = some top → ∃ parent, t.getNode top = some (.parent parent) ∧
    parent.parentHash = []
  links : ∀ i lower upper sibling, direct[i]? = some lower → direct[i + 1]? = some upper →
    cop[i + 1]? = some sibling → ∃ parent, t.getNode lower = some (.parent parent) ∧
      t.LinksTo C parent.parentHash upper sibling
  leaf : ∀ upper sibling, direct[0]? = some upper → cop[0]? = some sibling → ∃ leaf parentHash,
    t.getLeaf (2 * committer) = some leaf ∧ leaf.parentHash = some parentHash ∧
      t.LinksTo C parentHash upper sibling

/-- After the proposal the tree has one leaf slot only. -/
def Proposal.LeavesOneLeaf (tree : RatchetTree) : Proposal → Prop
  | addMember _ => tree.numLeaves = 1 ∧ tree.getNode 0 = none
  | removeMember target => ∀ l, l ≠ 0 → l ≠ target.toNat → tree.getNode (2 * l) = none
  | updateKey => tree.numLeaves = 1

/-! ## Trees of one leaf -/

namespace Proposal

variable {p : Proposal} {tree base : RatchetTree}

theorem numLeaves_eq_one_iff (h : tree.OnWire) (hbase : p.base tree = .ok base) {m : ℕ}
    (hm : base.Sized m) (hm32 : m ≤ 32) : base.numLeaves = 1 ↔ p.LeavesOneLeaf tree := by
  cases p with
  | addMember kp =>
      simp only [Proposal.base, placeLeaf, Py.bind_eq_ok, Py.pure_eq, Except.ok.injEq] at hbase
      obtain ⟨copied, hcopied, placed, hplaced, direct, -, rfl⟩ := hbase
      have hleaves : (direct.foldl blankNode placed).numLeaves = (placement tree).1 :=
        (blankNodes_sameSize direct).1.trans
          ((setLeaf_node hplaced).1.1.trans (copyNodes_new hcopied).1.1)
      rw [hleaves, LeavesOneLeaf, placement]
      cases hfind : (List.range tree.numLeaves).find? fun li => (tree.getNode (2 * li)).isNone with
      | some blank =>
          obtain ⟨hblank, hlt, -⟩ := List.find?_range_eq_some.mp hfind
          rw [List.mem_range] at hlt
          refine ⟨fun hone => ⟨hone, ?_⟩, fun hone => hone.1⟩
          simp only at hone
          obtain rfl : blank = 0 := by omega
          exact Option.isNone_iff_eq_none.mp hblank
      | none =>
          rw [List.find?_range_eq_none] at hfind
          simp only
          constructor
          · intro hone
            omega
          · rintro ⟨hone, hblank⟩
            have hzero := hfind 0 (by omega)
            rw [Nat.mul_zero, hblank] at hzero
            cases hzero
  | removeMember target =>
      obtain ⟨other, -, -, hleaves, -⟩ := base_frame h hbase hm hm32
      constructor
      · intro hone l hl htarget
        have hlen := hm.2
        rw [hm.1] at hone
        rw [pow_succ, hone] at hlen
        have hget := hleaves l
        rw [if_neg (by rw [slot, Option.some.injEq]; exact Ne.symm htarget)] at hget
        rw [← hget, getNode, List.getElem?_eq_none (by omega)]
        rfl
      · intro hblank
        simp only [Proposal.base, removeLeaf, Py.bind_eq_ok, Py.pure_eq, Except.ok.injEq] at hbase
        obtain ⟨_, -, _, -, direct, -, rfl⟩ := hbase
        cases hlast : (direct.foldl blankNode (tree.blankNode (2 * target.toNat))).rightmost with
        | none =>
            have hnil :
              (direct.foldl blankNode (tree.blankNode (2 * target.toNat))).truncate.numLeaves =
                0 := by
              rw [truncate, hlast]
            rw [hm.1] at hnil
            exact absurd hnil (Nat.two_pow_pos m).ne'
        | some last =>
            have hmem := List.mem_of_getLast? hlast
            rw [List.mem_filter, decide_eq_true_eq] at hmem
            obtain ⟨-, heven, hsome⟩ := hmem
            rw [getNode_blankNodes, getNode_blankNode] at hsome
            have hzero : last = 0 := by
              by_contra hne
              split_ifs at hsome with hpath hslot
              · cases hsome
              · cases hsome
              · have hnone := hblank (last / 2) (by omega) (by omega)
                rw [show 2 * (last / 2) = last by omega] at hnone
                rw [hnone] at hsome
                cases hsome
            rw [truncate, hlast, hzero]
            rfl
  | updateKey => rw [(copyNodes_new hbase).1.1, LeavesOneLeaf, RatchetTree.new]

end Proposal

/-! ## What the builders write -/

/-- Every parent on the path gets a hash of its own. -/
theorem MLSGroup.setPathParents_hash {tree t : RatchetTree} {hash : Bytes}
    {path : List (ℕ × Option ℕ × Bytes)} (h : setPathParents C tree path = .ok (t, hash)) :
    ∀ entry ∈ path, ∃ pub input, t.getNode entry.1 = some (.parent ⟨pub, C.sha256 input, []⟩) := by
  induction path generalizing t hash with
  | nil => exact fun entry hentry => (List.not_mem_nil hentry).elim
  | cons first path ih =>
      obtain ⟨dp, cop, pub⟩ := first
      simp only [setPathParents, computeParentHash, Py.bind_eq_ok, Py.pure_eq, Except.ok.injEq,
        Prod.mk.injEq] at h
      obtain ⟨⟨inner, above⟩, hinner, sibling, -, _, ⟨_, -, _, -, _, -, _, -, rfl⟩, final, hset,
        rfl, -⟩ := h
      intro entry hentry
      by_cases heq : dp = entry.1
      · exact ⟨pub, _, by rw [(setParent_node hset).2, if_pos heq]⟩
      · rcases List.mem_cons.mp hentry with rfl | hentry
        · exact absurd rfl heq
        · obtain ⟨pub', input, hget⟩ := ih hinner entry hentry
          exact ⟨pub', input, by rw [(setParent_node hset).2, if_neg heq, hget]⟩

/-- A commit writes the parent hash chain if and only if there is no parent to write it to. -/
theorem parent_hash_chain_iff (hC : C.Correct) {sender : MLSGroup} (h : Reached C sender)
    {coins : CommitCoins} {p : Proposal} {committed : Committed}
    (hcommit : p.commit C sender coins = .ok committed) :
    (∃ direct cop, ParentHashChain C committed.next.state.tree sender.myIndex direct cop) ↔
      p.LeavesOneLeaf sender.state.tree := by
  obtain ⟨r⟩ := Proposal.commit_eq_ok hcommit
  have hwire : sender.state.tree.OnWire := h.onWire (fun _ h => h) (fun _ _ h => h)
  obtain ⟨m, hm29, hsized⟩ := r.sized hwire
  have hm32 : m ≤ 32 := by omega
  have hbase : r.base.Sized m := r.path.sameSize.symm.sized hsized
  obtain ⟨hslot, hdirect, hcop⟩ : sender.myIndex < 2 ^ m ∧
    r.path.direct = ancestors sender.myIndex 0 m ∧
      r.path.cop = (siblings sender.myIndex 0 m).map some := r.path.paths hbase hm32
  rw [← Proposal.numLeaves_eq_one_iff hwire r.base_eq hbase hm32, hbase.1, r.next_tree]
  have hdirect' := directPath_leaf hsized.covers hm32 hslot
  constructor
  · rintro ⟨direct, cop, hchain⟩
    cases hm : m with
    | zero => rfl
    | succ n =>
        -- the root got a digest
        obtain ⟨hd, hc, -, hp⟩ := r.path.lengths hbase hm32
        obtain rfl := Except.ok.inj (hchain.direct_eq.symm.trans hdirect')
        have hlast : (ancestors sender.myIndex 0 m).getLast? ≠ none := by
          rw [ne_eq, List.getLast?_eq_none_iff, ← List.length_eq_zero_iff, length_ancestors]
          omega
        obtain ⟨top, htop⟩ := Option.ne_none_iff_exists'.mp hlast
        obtain ⟨parent, hparent, hempty⟩ := hchain.root top htop
        have hmem : top ∈ (r.path.direct.zip (r.path.cop.zip r.path.pubs)).map Prod.fst := by
          rw [List.map_fst_zip (by simp [hd, hc, hp]), hdirect]
          exact List.mem_of_getLast? htop
        obtain ⟨entry, hentry, rfl⟩ := List.mem_map.mp hmem
        obtain ⟨pub, input, hget⟩ := setPathParents_hash r.path.tree_eq entry hentry
        rw [hparent, Option.some.injEq, Node.parent.injEq] at hget
        have hsize := hC.sha256_size input
        rw [hget] at hempty
        simp only at hempty
        rw [hempty] at hsize
        cases hsize
  · intro hone
    obtain rfl : m = 0 := by
      by_contra hne
      exact absurd hone (Nat.one_lt_two_pow hne).ne'
    refine ⟨[], [], hdirect', copath_leaf hsized.covers hm32 hslot, ?_, ?_, ?_⟩
    · intro top htop
      cases htop
    · intro i lower upper sibling hlower
      cases hlower
    · intro upper sibling hupper
      cases hupper

namespace Sample

/-- Alice's first commit, and the parent hash at its root. -/
def hashedRoot : Py (MLSGroup × Committed × ParentNode) := do
  let (alice, _, added) ← firstAdd
  match added.next.state.tree.getNode 1 with
  | some (.parent parent) => do
    expect (parent.parentHash ≠ [] ∧ alice.myIndex = 0 ∧
      added.next.state.tree.directPath 0 = .ok [1])
    pure (alice, added, parent)
  | _ => .error .assertionError

theorem hashedRoot_ok : ∃ r, hashedRoot = .ok r := Py.ok_of_isOk (by decide +kernel)

end Sample

open Sample in
/-- Alice's first commit has no chain, and the theorem says so. -/
theorem parent_hash_chain_alice : ∃ (alice : MLSGroup) (kp : KeyPackage) (added : Committed),
    (∃ direct cop, ParentHashChain crypto added.next.state.tree alice.myIndex direct cop) ↔
      (Proposal.addMember kp).LeavesOneLeaf alice.state.tree := by
  obtain ⟨_, hrun⟩ := firstAdd_ok
  simp only [firstAdd, Py.bind_eq_ok] at hrun
  obtain ⟨kp, -, alice, hcreate, added, hadd, -⟩ := hrun
  exact ⟨alice, kp, added, parent_hash_chain_iff correct (.create hcreate) hadd⟩

open Sample in
/-- The root of Alice's first commit has a parent hash. -/
theorem root_has_parent_hash : ¬ ∀ (sender : MLSGroup) (coins : CommitCoins) (p : Proposal)
    (committed : Committed), Reached crypto sender → p.commit crypto sender coins = .ok committed →
    ∃ direct cop, ParentHashChain crypto committed.next.state.tree sender.myIndex direct cop := by
  intro hall
  obtain ⟨_, hrun⟩ := hashedRoot_ok
  simp only [hashedRoot, firstAdd, Py.bind_eq_ok, Py.pure_eq, Except.ok.injEq] at hrun
  obtain ⟨_, ⟨kp, -, alice, hcreate, added, hadd, rfl⟩, hrun⟩ := hrun
  simp only at hrun
  split at hrun
  · rename_i parent hparent
    simp only [expect, Py.bind_eq_ok, Py.require_eq_ok] at hrun
    obtain ⟨_, ⟨hne, hzero, hdirect⟩, -⟩ := hrun
    obtain ⟨direct, cop, hchain⟩ := hall _ _ _ _ (.create hcreate) hadd
    have hpath := hchain.direct_eq
    rw [hzero, Nat.mul_zero, hdirect, Except.ok.injEq] at hpath
    obtain ⟨parent', hparent', hempty⟩ := hchain.root 1 (by rw [← hpath]; rfl)
    rw [hparent, Option.some.injEq, Node.parent.injEq] at hparent'
    exact hne (hparent' ▸ hempty)
  · cases hrun

end PureMls
