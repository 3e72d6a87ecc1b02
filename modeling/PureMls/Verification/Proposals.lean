import PureMls.Verification.Handles
import PureMls.Verification.Joining

/-! # Proposals

The three commit builders seen as one: a proposal, the tree it leaves, and the commit on that
tree. -/

namespace PureMls

open RatchetTree MLSGroup

variable {C : Crypto}

/-! ## Commits with a proposal -/

inductive Proposal where
  | addMember (keyPackage : KeyPackage)
  | removeMember (target : ℤ)
  | updateKey

/-- What a commit call returns. -/
structure Committed where
  next : MLSGroup
  update : GroupUpdate
  welcome : Option Welcome

namespace Proposal

/-- `add_member`, `remove_member` or `update_key`. -/
def commit (C : Crypto) (sender : MLSGroup) (coins : CommitCoins) : Proposal → Py Committed
  | addMember keyPackage => do
    let (next, welcome, update) ← (sender.addMember C coins keyPackage).2
    pure ⟨next, update, some welcome⟩
  | removeMember target => do
    let (next, update) ← (sender.removeMember C coins target).2
    pure ⟨next, update, none⟩
  | updateKey => do
    let (next, update) ← (sender.updateKey C coins).2
    pure ⟨next, update, none⟩

def transition (coins : CommitCoins) : Proposal → Transition
  | addMember keyPackage => .addMember coins keyPackage
  | removeMember target => .removeMember coins target
  | updateKey => .updateKey coins

/-- The tree after the proposal, before the path. -/
def base (tree : RatchetTree) : Proposal → Py RatchetTree
  | addMember keyPackage => placeLeaf tree keyPackage.leafNode
  | removeMember target => tree.removeLeaf (2 * target.toNat)
  | updateKey => tree.copyNodes (RatchetTree.new tree.numLeaves)

def sealLeaf (C : Crypto) : Proposal → LeafSeal
  | addMember _ => sealLeafSealFirst C
  | _ => sealLeafRefFirst C

/-- The nodes that are looked at for the fallback. -/
def indices : Proposal → RatchetTree → List ℕ
  | addMember _ => fun tree => List.range tree.nodes.length
  | _ => evenIndices

/-- The committer's KEM key in its new handle. -/
def nextKem (sender : MLSGroup) (coins : CommitCoins) : Proposal → KemKey
  | removeMember _ => sender.myKemKey
  | _ => coins.committerKem

/-- The leaf slot the proposal writes. -/
def slot (tree : RatchetTree) : Proposal → Option ℕ
  | addMember _ => some ((placement tree).2 / 2)
  | removeMember target => some target.toNat
  | updateKey => none

/-- What it writes there. -/
def leaf : Proposal → Option LeafNode
  | addMember keyPackage => some keyPackage.leafNode
  | _ => none

/-- The leaf in a slot after the proposal. -/
def leafAfter (p : Proposal) (tree : RatchetTree) (l : ℕ) : Option LeafNode :=
  if p.slot tree = some l then p.leaf else tree.getLeaf (2 * l)

/-- The proposal leaves the member with leaf index `l` in the group. -/
def Keeps (p : Proposal) (l : ℕ) : Prop :=
  match p with
  | removeMember target => target ≠ l
  | _ => True

instance (p : Proposal) (l : ℕ) : Decidable (p.Keeps l) := by
  unfold Keeps
  cases p <;> infer_instance

theorem sealsLeaf (p : Proposal) : SealsLeaf C (p.sealLeaf C) := by
  cases p with
  | addMember kp => exact sealsLeaf_sealFirst
  | removeMember target => exact sealsLeaf_refFirst
  | updateKey => exact sealsLeaf_refFirst

/-- Every leaf is looked at. -/
theorem mem_indices (p : Proposal) {tree : RatchetTree} {l : ℕ} (h : 2 * l < tree.nodes.length) :
    2 * l ∈ p.indices tree := by
  have heven : 2 * l ∈ evenIndices tree := by
    rw [evenIndices, List.mem_map]
    exact ⟨l, List.mem_range.mpr (by omega), rfl⟩
  cases p with
  | addMember kp => exact List.mem_range.mpr h
  | removeMember target => exact heven
  | updateKey => exact heven

end Proposal

/-! ## What a successful commit went through -/

namespace MLSGroup

def withConsumed (self : MLSGroup) (consumed : List Bytes) : MLSGroup :=
  { self with consumedKeyPackages := consumed }

end MLSGroup

/-- A commit call that succeeded; `add_member` has recorded the key package by the time it
builds the commit. -/
structure Built (C : Crypto) (sender : MLSGroup) (coins : CommitCoins) (p : Proposal)
    (committed : Committed) where
  consumed : List Bytes
  base : RatchetTree
  path : BuiltPath C (sender.withConsumed consumed) coins (p.sealLeaf C) p.indices base
  finished : Finished C (sender.withConsumed consumed) path.commitSecret path.unsigned
  base_eq : p.base sender.state.tree = .ok base
  next_eq : committed.next = (sender.withConsumed consumed).nextHandle
    ⟨finished.update, finished.nextState, finished.interim, finished.transcriptHash, path.tree⟩
    (p.nextKem sender coins)
  update_eq : committed.update = finished.update
  welcome_eq : ∀ kp, p = .addMember kp → kp.verifySignature C = .ok () ∧
    ∃ welcome, committed.welcome = some welcome ∧
      buildWelcome C (sender.withConsumed consumed) coins kp ⟨finished.update, finished.nextState,
        finished.interim, finished.transcriptHash, path.tree⟩ = .ok welcome
  target_eq : ∀ target, p = .removeMember target → target ≠ sender.myIndex ∧ 0 ≤ target

theorem Proposal.commit_eq_ok {sender : MLSGroup} {coins : CommitCoins} {p : Proposal}
    {committed : Committed} (h : p.commit C sender coins = .ok committed) :
    Nonempty (Built C sender coins p committed) := by
  cases p with
  | addMember kp =>
      simp only [commit, Py.bind_eq_ok, Py.pure_eq, Except.ok.injEq] at h
      obtain ⟨⟨next, welcome, update⟩, hadd, rfl⟩ := h
      obtain ⟨ref, -, -, hbody⟩ := addMember_eq_ok.mp hadd
      obtain ⟨base, commit, hbase, hverify, hcommit, hwelcome, rfl, rfl⟩ :=
        addMemberBody_eq_ok.mp hbody
      obtain ⟨b, f, rfl⟩ := buildCommit_eq_ok hcommit
      refine ⟨⟨_, base, b, f, hbase, rfl, rfl, ?_, ?_⟩⟩
      · rintro kp' ⟨⟩
        exact ⟨hverify, welcome, rfl, hwelcome⟩
      · rintro target ⟨⟩
  | removeMember target =>
      simp only [commit, Py.bind_eq_ok, Py.pure_eq, Except.ok.injEq] at h
      obtain ⟨⟨next, update⟩, hremove, rfl⟩ := h
      obtain ⟨base, commit, hne, hrange, hbase, hcommit, rfl, rfl⟩ :=
        removeMemberBody_eq_ok.mp (removeMember_eq_ok.mp hremove)
      obtain ⟨b, f, rfl⟩ := buildCommit_eq_ok hcommit
      refine ⟨⟨sender.consumedKeyPackages, base, b, f, hbase, rfl, rfl, ?_, ?_⟩⟩
      · rintro kp' ⟨⟩
      · rintro target' ⟨⟩
        exact ⟨hne, hrange.1⟩
  | updateKey =>
      simp only [commit, Py.bind_eq_ok, Py.pure_eq, Except.ok.injEq] at h
      obtain ⟨⟨next, update⟩, hupdate, rfl⟩ := h
      obtain ⟨base, commit, hbase, hcommit, rfl, rfl⟩ :=
        updateKeyBody_eq_ok.mp (updateKey_eq_ok.mp hupdate)
      obtain ⟨b, f, rfl⟩ := buildCommit_eq_ok hcommit
      refine ⟨⟨sender.consumedKeyPackages, base, b, f, hbase, rfl, rfl, ?_, ?_⟩⟩
      · rintro kp' ⟨⟩
      · rintro target' ⟨⟩

/-- The tree of a commit can be encoded: the signature covers its bytes. -/
theorem Finished.tree_toBytes {sender : MLSGroup} {commitSecret : Bytes} {unsigned : GroupUpdate}
    (f : Finished C sender commitSecret unsigned) : ∃ e, unsigned.tree.toBytes = .ok e := by
  obtain ⟨e, he, -⟩ := GroupUpdate.readsAs_body f.body_eq
  exact ⟨e, he⟩

/-! ## The tree after the proposal -/

/-- What a proposal makes of a full tree: it writes its slot, blanks parents, above a leaf that is
removed all of them, and adds or drops blank nodes at the right end. -/
structure Proposal.Applied (p : Proposal) (tree base : RatchetTree) : Prop where
  sized : ∃ m, base.Sized m
  size : base.numLeaves ≤ tree.numLeaves ∨ base.numLeaves = (placement tree).1 ∧ p.leaf.isSome
  leaf : ∀ l, base.getNode (2 * l) =
    if p.slot tree = some l then p.leaf.map .leaf else tree.getNode (2 * l)
  parent : ∀ x parent, base.getNode x = some (.parent parent) →
    tree.getNode x = some (.parent parent) ∧
    ∀ target, p = .removeMember target → ¬ CompleteTree.Under x target.toNat

namespace Proposal

variable {p : Proposal} {tree base : RatchetTree} {m : ℕ}

/-- A new leaf goes to a blank slot. -/
theorem slot_blank (hm : tree.Sized m) (hleaf : p.leaf.isSome) {l : ℕ}
    (hslot : p.slot tree = some l) : tree.getNode (2 * l) = none := by
  cases p with
  | addMember kp =>
      obtain ⟨m', slot, hplace, -, -, hblank⟩ := placement_spec hm
      rw [Proposal.slot, hplace, Nat.mul_div_cancel_left slot (by decide),
        Option.some.injEq] at hslot
      rw [← hslot, hblank]
  | removeMember target => cases hleaf
  | updateKey => cases hleaf

theorem applied_addMember {kp : KeyPackage} (hm : tree.Sized m)
    (h : (addMember kp).base tree = .ok base) (hsmall : base.nodes.length < 2 ^ 32) :
    (addMember kp).Applied tree base := by
  obtain ⟨m', slot, hplace, -, -, hsized, -, hget⟩ := placeLeaf_spec hm h hsmall
  refine ⟨⟨m', hsized⟩, .inr ⟨by rw [hsized.1, hplace], rfl⟩, fun l => ?_, fun x parent hx => ?_⟩
  · rw [hget, Proposal.slot, hplace, Nat.mul_div_cancel_left slot (by decide)]
    by_cases hl : slot = l
    · rw [if_pos (by omega), if_pos (congrArg some hl)]
      rfl
    · rw [if_neg (by omega), if_neg leaf_notMem_ancestors, if_neg (mt Option.some.inj hl)]
  · rw [hget] at hx
    split_ifs at hx with hslot hmem
    · cases hx
    · exact ⟨hx, by rintro target ⟨⟩⟩

theorem applied_removeMember {target : ℤ} {own : ℕ} {node : Node} (hm : tree.Sized m)
    (hm32 : m ≤ 32) (h : (removeMember target).base tree = .ok base) (hne : target ≠ own)
    (hpos : 0 ≤ target)
    (hnode : tree.getNode (2 * own) = some node) : (removeMember target).Applied tree base := by
  obtain ⟨-, m', hle, hsized, hnodes, hleaves⟩ := removeLeaf_spec hm hm32 h
    (show own ≠ target.toNat by omega) hnode
  refine ⟨⟨m', hsized⟩, .inl ?_, fun l => ?_, fun x parent hx => ?_⟩
  · rw [hsized.1, hm.1]
    exact Nat.pow_le_pow_right (by decide) hle
  · rw [hleaves, Proposal.slot]
    by_cases hl : target.toNat = l
    · rw [if_pos hl.symm, if_pos (congrArg some hl)]
      rfl
    · rw [if_neg (Ne.symm hl), if_neg (mt Option.some.inj hl)]
  · rw [hnodes] at hx
    split_ifs at hx with hkeep
    refine ⟨hx, ?_⟩
    -- the nodes above the leaf are its ancestors and the leaf itself
    rintro target' ⟨⟩ ⟨k, rfl⟩
    have hk := CompleteTree.le_of_nodeAt_lt hkeep.1
    cases k with
    | zero =>
        rw [CompleteTree.nodeAt_zero, pow_zero, Nat.div_one] at hkeep
        exact hkeep.2.1 rfl
    | succ k => exact hkeep.2.2 (mem_ancestors (by omega) (by omega))

theorem applied_updateKey (hm : tree.Sized m) (h : updateKey.base tree = .ok base) :
    updateKey.Applied tree base := by
  obtain ⟨hsized, hnodes⟩ := copyNodes_self hm h
  refine ⟨⟨m, hsized⟩, .inl (by rw [hsized.1, hm.1]), fun l => ?_, fun x parent hx => ?_⟩
  · rw [hnodes, Proposal.slot, if_neg (by rintro ⟨⟩)]
  · rw [hnodes] at hx
    exact ⟨hx, by rintro target ⟨⟩⟩

theorem applied {own : ℕ} {node : Node} (hm : tree.Sized m) (hm32 : m ≤ 32)
    (hbase : p.base tree = .ok base) (hsmall : base.nodes.length < 2 ^ 32)
    (hown : tree.getNode (2 * own) = some node)
    (htarget : ∀ target, p = removeMember target → target ≠ own ∧ 0 ≤ target) :
    p.Applied tree base := by
  cases p with
  | addMember kp => exact applied_addMember hm hbase hsmall
  | removeMember target =>
      obtain ⟨hne, hpos⟩ := htarget target rfl
      exact applied_removeMember hm hm32 hbase hne hpos hown
  | updateKey => exact applied_updateKey hm hbase

namespace Applied

theorem merged (h : p.Applied tree base) (hmerged : tree.Merged) : base.Merged :=
  hmerged.of_getNode fun x parent hx => (h.parent x parent hx).1

end Applied

end Proposal

namespace Built

variable {sender : MLSGroup} {coins : CommitCoins} {p : Proposal} {committed : Committed}
  (r : Built C sender coins p committed)

theorem applied {m : ℕ} (hm : sender.state.tree.Sized m) (hm29 : m ≤ 29) {node : Node}
    (hown : sender.state.tree.getNode (2 * sender.myIndex) = some node) :
    p.Applied sender.state.tree r.base ∧ ∃ m' ≤ 29, r.base.Sized m' := by
  obtain ⟨e, he⟩ := r.finished.tree_toBytes
  have hsize := r.path.sameSize
  have hsmall : r.base.nodes.length < 2 ^ 30 := hsize.2 ▸ length_lt_of_toBytes he
  have happlied := Proposal.applied hm (by omega) r.base_eq (by omega) hown r.target_eq
  obtain ⟨m', hsized⟩ := happlied.sized
  exact ⟨happlied, m', (hsize.sized hsized).le_29 he, hsized⟩

theorem next_state : committed.next.state = r.finished.nextState := by
  rw [r.next_eq]
  rfl

theorem next_tree : committed.next.state.tree = r.path.tree := by
  rw [r.next_state, r.finished.nextState_eq_mk]
  rfl

theorem update_tree : committed.update.tree = r.path.tree := by
  rw [r.update_eq]
  rfl

theorem next_interim : committed.next.interimTranscriptHash = r.finished.interim := by
  rw [r.next_eq]
  rfl

include r in
theorem next_myIndex : committed.next.myIndex = sender.myIndex := by
  rw [r.next_eq]
  rfl

include r in
theorem next_mySigKey : committed.next.mySigKey = sender.mySigKey := by
  rw [r.next_eq]
  rfl

end Built

end PureMls
