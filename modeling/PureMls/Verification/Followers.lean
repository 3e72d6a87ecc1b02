import PureMls.Verification.ProposalTrees

/-! # Who follows a commit

A member that agrees with the committer, keeps its leaf and holds the leaf's key follows the commit
when the leaves of the new tree verify and what it opens was sealed to it. -/

namespace PureMls

open RatchetTree MLSGroup

variable {C : Crypto}

namespace MLSGroup

/-- The member's private KEM key is the one of its leaf. -/
def HoldsKey (C : Crypto) (self : MLSGroup) : Prop :=
  ∃ leaf, self.state.tree.getLeaf (2 * self.myIndex) = some leaf ∧
    leaf.encryptionKey = self.myKemKey.publicBytes C

/-- The member's leaf carries its signature key. -/
def SignsForLeaf (C : Crypto) (self : MLSGroup) : Prop :=
  ∃ leaf, self.state.tree.getLeaf (2 * self.myIndex) = some leaf ∧
    leaf.signatureKey = self.mySigKey.publicBytes C

end MLSGroup

/-- After the proposal every leaf but the committer's carries a signature for its place. -/
def Proposal.LeavesVerify (C : Crypto) (sender : MLSGroup) (p : Proposal) : Prop :=
  ∀ l leaf, l ≠ sender.myIndex → p.leafAfter sender.state.tree l = some leaf →
    leaf.verifySignature C sender.state.groupId l = .ok ()

theorem RatchetTree.Merged.unshifted {tree : RatchetTree} (h : tree.Merged) (own : ℕ)
    (cops : List (Option ℕ)) : tree.Unshifted own cops :=
  fun _ _ _ hresolved _ i hi => resolution_some h hresolved i (List.takeWhile_subset _ hi)

namespace Built

variable {sender receiver : MLSGroup} {coins : CommitCoins} {p : Proposal} {committed : Committed}
  (r : Built C sender coins p committed)

/-! ## Members that stay -/

include r in
/-- A member that is not removed keeps its leaf. -/
theorem leafAfter_of_keeps (h : sender.state.tree.OnWire) {l : ℕ} {leaf : LeafNode}
    (hleaf : sender.state.tree.getLeaf (2 * l) = some leaf) (hkeeps : p.Keeps l) :
    p.leafAfter sender.state.tree l = some leaf := by
  have hslot : p.slot sender.state.tree ≠ some l := by
    cases p with
    | addMember kp =>
        rw [Proposal.slot]
        intro heq
        have hblank := placement_blank h
        rw [Option.some.inj heq, getLeaf_eq_some.mp hleaf] at hblank
        cases hblank
    | removeMember target =>
        have hpos := (r.target_eq target rfl).2
        have hne : target ≠ l := hkeeps
        rw [Proposal.slot]
        intro heq
        have := Option.some.inj heq
        omega
    | updateKey => simp [Proposal.slot]
  rw [Proposal.leafAfter, if_neg hslot, hleaf]

theorem follows (h : sender.state.tree.OnWire) (hagree : Agrees receiver sender)
    (hne : receiver.myIndex ≠ sender.myIndex) (hkeeps : p.Keeps receiver.myIndex)
    (hkey : receiver.HoldsKey C) :
    Follows C receiver (sender.withConsumed r.consumed) r.base := by
  obtain ⟨own, hown, hpub⟩ := hkey
  obtain ⟨leaf, hleaf, hcanon⟩ := hagree.symm.getLeaf hown
  refine ⟨⟨hagree.groupId, hagree.epochId, hagree.tree, hagree.keySchedule, hagree.interim⟩, hne,
    leaf, hleaf, ?_, ?_⟩
  · rw [r.getLeaf_base h]
    exact r.leafAfter_of_keeps h hleaf hkeeps
  · rw [← hpub, ← LeafNode.canon_encryptionKey own, ← hcanon, LeafNode.canon_encryptionKey]

/-- A member that follows is looked at for the fallback. -/
theorem mem_indices (hfollows : Follows C receiver (sender.withConsumed r.consumed) r.base) :
    2 * receiver.myIndex ∈ p.indices r.path.tree := by
  obtain ⟨leaf, -, hbase, -⟩ := hfollows.leaf
  apply p.mem_indices
  rw [r.path.sameSize.2]
  exact getNode_lt (getLeaf_eq_some.mp hbase)

theorem copath_update (h : sender.state.tree.OnWire) {cop : List (Option ℕ)}
    (hcop : committed.update.tree.copath (2 * committed.update.committerIndex) = .ok cop) :
    cop = r.path.cop := by
  obtain ⟨m, hm29, hm⟩ := r.base_sized h
  rw [r.update_eq] at hcop
  exact Except.ok.inj (hcop.symm.trans (r.path.copath_tree hm (by omega)))

/-- With no blank before it in the resolutions a member is addressed itself. -/
theorem addressed_of_unshifted (h : sender.state.tree.OnWire)
    (hfollows : Follows C receiver (sender.withConsumed r.consumed) r.base)
    (hunshifted : r.path.tree.Unshifted (2 * receiver.myIndex) r.path.cop) :
    receiver.AddressedBy C committed.update := by
  intro cop index node hcop haddressee hnode
  obtain ⟨m, hm29, hm⟩ := r.base_sized h
  obtain ⟨leaf, -, hbase, hkey⟩ := hfollows.leaf
  have hleaf : r.path.tree.getLeaf (2 * receiver.myIndex) = some leaf :=
    (r.path.getLeaf_other hm (by omega) hfollows.ne).trans hbase
  have hown := getLeaf_eq_some.mp hleaf
  rw [r.copath_update h hcop, r.update_tree] at haddressee
  rw [r.update_tree] at hnode
  rcases hunshifted.addressee ⟨_, hown⟩ haddressee with hsome | ⟨hnone, -⟩
  · obtain rfl := Option.some.inj hsome
    obtain rfl := Option.some.inj (hnode.symm.trans hown)
    exact hkey
  · cases hnone

/-! ## The leaves of the new tree -/

theorem verifyLeaves_iff (hC : C.Correct) (h : sender.state.tree.OnWire) :
    verifyLeaves C sender.state.groupId r.path.tree = .ok () ↔ p.LeavesVerify C sender := by
  obtain ⟨m, hm29, hsized⟩ := r.sized h
  rw [verifyLeaves_eq_ok]
  constructor
  · intro hall l leaf hne hleaf
    have hget : r.path.tree.getLeaf (2 * l) = some leaf := by
      rw [r.getLeaf_tree h, if_neg hne, hleaf]
    have hlt := getNode_lt (getLeaf_eq_some.mp hget)
    rw [hsized.2, pow_succ] at hlt
    exact hall l (by rw [hsized.1]; omega) leaf hget
  · intro hverify l _ leaf hleaf
    rw [r.getLeaf_tree h] at hleaf
    by_cases hl : l = sender.myIndex
    · rw [if_pos hl, Option.some.injEq] at hleaf
      rw [← hleaf]
      exact (ownKeyPackage_leaf hC r.path.keyPackage_eq).2.2 _ _
    · rw [if_neg hl] at hleaf
      exact hverify l leaf hl hleaf

include r in
/-- A receiver that accepts the commit has verified the leaves. -/
theorem verifies_of_processUpdate (hC : C.Correct) (h : sender.state.tree.OnWire)
    (hgroup : receiver.state.groupId = sender.state.groupId) {next : MLSGroup}
    (hnext : (receiver.processUpdate C committed.update).2 = .ok next) :
    p.LeavesVerify C sender := by
  have hbody := processUpdate_eq_ok.mp hnext
  simp only [processUpdateBody, Py.bind_eq_ok] at hbody
  obtain ⟨_, -, _, hleaves, -⟩ := hbody
  rw [r.update_tree, hgroup] at hleaves
  exact (r.verifyLeaves_iff hC h).mp hleaves

/-! ## Following -/

/-- The state a receiver reaches by the commit. -/
def followed (r : Built C sender coins p committed) (receiver : MLSGroup) : MLSGroup :=
  init r.finished.nextState receiver.myIndex receiver.mySigKey receiver.myKemKey r.finished.interim

theorem processUpdate_of_verifies (hC : C.Correct) (h : sender.state.tree.OnWire)
    (hsigns : sender.SignsForLeaf C) (haddressed : receiver.AddressedBy C committed.update)
    (hrefs : RefsCollisionFree C committed.update.tree) (hagree : Agrees receiver sender)
    (hne : receiver.myIndex ≠ sender.myIndex) (hkeeps : p.Keeps receiver.myIndex)
    (hkey : receiver.HoldsKey C) (hverify : p.LeavesVerify C sender) :
    (receiver.processUpdate C committed.update).2 = .ok (r.followed receiver) := by
  obtain ⟨m, hm29, hm⟩ := r.base_sized h
  obtain ⟨committer, hcommitter, hsig⟩ := hsigns
  have hfollows := r.follows h hagree hne hkeeps hkey
  rw [r.update_tree] at hrefs
  rw [r.update_eq] at haddressed
  rw [processUpdate_eq_ok, r.update_eq]
  exact processUpdate_of_commit hC r.path r.finished p.sealsLeaf hm
    (by omega) haddressed hrefs hfollows
    (r.mem_indices hfollows) hcommitter hsig ((r.verifyLeaves_iff hC h).mpr hverify)

/-- Without unmerged leaves nobody is addressed by mistake. -/
theorem addressed_of_merged (h : sender.state.tree.OnWire) (hmerged : sender.state.tree.Merged)
    (hfollows : Follows C receiver (sender.withConsumed r.consumed) r.base) :
    receiver.AddressedBy C committed.update := by
  obtain ⟨m, hm29, hm⟩ := r.base_sized h
  exact r.addressed_of_unshifted h hfollows
    ((r.path.merged hm (by omega) (r.base_merged hmerged)).unshifted _ _)

end Built

end PureMls
