import PureMls.Verification.Assumptions
import PureMls.Verification.Reached

/-! # What a commit leaves alone

The tree after a commit differs from the one before it at the committer's leaf, at the leaf that
the proposal writes, and above the two. -/

namespace PureMls

open RatchetTree MLSGroup

variable {C : Crypto}

/-! ## The frame of a commit -/

/-- The tree is full. Every leaf but the committer's and the one that is added or removed is as
before. The committer's direct path has no blank node, the other leaf's direct path is blank
elsewhere, and all other parents in range are as before. -/
structure ChangesOnly (sender : MLSGroup) (p : Proposal) (t : RatchetTree) : Prop where
  full : ∃ m, t.numLeaves = 2 ^ m ∧ t.nodes.length = 2 * 2 ^ m - 1
  leaves : ∀ l, l ≠ sender.myIndex → p.slot sender.state.tree ≠ some l →
    t.getNode (2 * l) = sender.state.tree.getNode (2 * l)
  parents : ∃ own other, t.directPath (2 * sender.myIndex) = .ok own ∧
    p.slotPath sender.state.tree t = .ok other ∧
    (∀ i ∈ own, ∃ parent, t.getNode i = some (.parent parent)) ∧
    (∀ i ∈ other, i ∉ own → t.getNode i = none) ∧
    ∀ i < t.nodes.length, i % 2 = 1 → i ∉ own → i ∉ other →
      t.getNode i = sender.state.tree.getNode i

/-- A commit on any reachable handle changes only what it must. -/
theorem commit_changes_only {sender : MLSGroup} (h : Reached C sender) {coins : CommitCoins}
    {p : Proposal} {committed : Committed} (hcommit : p.commit C sender coins = .ok committed) :
    ChangesOnly sender p committed.next.state.tree := by
  obtain ⟨r⟩ := Proposal.commit_eq_ok hcommit
  have hwire : sender.state.tree.OnWire := h.onWire (fun _ h => h) (fun _ _ h => h)
  obtain ⟨m, hm29, hsized⟩ := r.sized hwire
  have hm32 : m ≤ 32 := by omega
  have hbase : r.base.Sized m := r.path.sameSize.symm.sized hsized
  have hdirect := r.path.direct_eq
  rw [← r.path.sameSize.directPath, (r.path.paths hbase hm32).2.1] at hdirect
  obtain ⟨-, hpath, hrest⟩ := r.path.getNode_tree hbase hm32
  obtain ⟨other, hother, hnotMem, hleaves, hblank, hparents⟩ :=
    Proposal.base_frame hwire r.base_eq hbase hm32
  rw [r.next_tree]
  refine ⟨⟨m, hsized.1, ?_⟩, fun l hl hslot => ?_, _, other, hdirect, ?_, fun i hi => ?_,
    fun i hi hown => ?_, fun i hlt hodd hown hi => ?_⟩
  · rw [hsized.2, pow_succ, Nat.mul_comm]
  · rw [r.path.getNode_other hbase hm32 hl, hleaves l, if_neg hslot]
  · cases p with
    | addMember kp => exact (r.path.sameSize.directPath _).trans hother
    | removeMember target => exact hother
    | updateKey => exact hother
  · obtain ⟨pub, parentHash, hparent⟩ := hpath i hi
    exact ⟨_, hparent⟩
  · rw [hrest i ?_ hown]
    · exact hblank i hi
    · rintro rfl
      exact hnotMem _ hi
  · rw [hrest i (by omega) hown]
    exact hparents i (r.path.sameSize.2 ▸ hlt) hodd hi

namespace Sample

/-- Alice removes Bob from her group of three. -/
def removal : Py (MLSGroup × Committed) := do
  let alice ← trio
  let removed ← (Proposal.removeMember 1).commit crypto alice (coins 80)
  pure (alice, removed)

theorem removal_ok : ∃ r, removal = .ok r := Py.ok_of_isOk (by decide +kernel)

end Sample

open Sample in
/-- What Alice changes when she removes Bob from a group of three: Carol's leaf, for one, stays. -/
theorem commit_changes_only_alice :
    ∃ (alice : MLSGroup) (removed : Committed), Reached crypto alice ∧
    (Proposal.removeMember 1).commit crypto alice (coins 80) = .ok removed ∧
    ChangesOnly alice (.removeMember 1) removed.next.state.tree := by
  obtain ⟨_, hrun⟩ := removal_ok
  simp only [removal, Py.bind_eq_ok] at hrun
  obtain ⟨alice, htrio, removed, hremove, -⟩ := hrun
  have hreached := trio_reached htrio
  exact ⟨alice, removed, hreached, hremove, commit_changes_only hreached hremove⟩

end PureMls
