import Mathlib.Data.Finset.Card
import Mathlib.Data.Nat.Log
import PureMls.Verification.Frames

/-! # Membership accounting

Which leaves are occupied in the runs in which members of a group commit one after another. -/

namespace PureMls

open RatchetTree MLSGroup

variable {C : Crypto}

/-! ## Occupied leaves -/

namespace RatchetTree

variable {tree t : RatchetTree} {m l : ℕ}

/-- The leaf indices of the non-blank leaves. -/
def occupied (tree : RatchetTree) : Finset ℕ :=
  (Finset.range tree.numLeaves).filter fun l => (tree.getNode (2 * l)).isSome

theorem mem_occupied (hlen : tree.nodes.length ≤ 2 * tree.numLeaves) :
    l ∈ tree.occupied ↔ ∃ node, tree.getNode (2 * l) = some node := by
  rw [occupied, Finset.mem_filter, Finset.mem_range, Option.isSome_iff_exists,
    and_iff_right_iff_imp]
  rintro ⟨node, hnode⟩
  have hlt := getNode_lt hnode
  omega

theorem Sized.length_le (h : tree.Sized m) : tree.nodes.length ≤ 2 * tree.numLeaves := by
  rw [h.1, h.2, pow_succ]
  omega

theorem occupied_congr (hm : tree.Sized m) (hcanon : t.canon = tree.canon) :
    t.Sized m ∧ t.occupied = tree.occupied ∧ placement t = placement tree := by
  have hleaves : t.numLeaves = tree.numLeaves := congrArg (·.numLeaves) hcanon
  have hlen := congrArg (fun tree : RatchetTree => tree.nodes.length) hcanon
  simp only [length_canon] at hlen
  have hsome : ∀ i, (t.getNode i).isSome = (tree.getNode i).isSome := fun i => by
    rw [← Option.isSome_map (f := Node.canon), ← getNode_canon, hcanon, getNode_canon,
      Option.isSome_map]
  have hnone : ∀ i, (t.getNode i).isNone = (tree.getNode i).isNone := fun i => by
    rw [← Option.not_isSome, hsome, Option.not_isSome]
  refine ⟨⟨hleaves.trans hm.1, hlen.trans hm.2⟩, ?_, ?_⟩
  · simp only [occupied, hleaves, hsome]
  · simp only [placement, hleaves, hnone]

/-- A new member's leaf is the leftmost blank one, or the first of the doubled tree when there is
none. -/
theorem placement_leftmost (tree : RatchetTree) :
    ∃ slot, (placement tree).2 = 2 * slot ∧ slot ∉ tree.occupied ∧ (∀ l < slot, l ∈ tree.occupied) ∧
      ((placement tree).1 = tree.numLeaves ∧ slot < tree.numLeaves ∨
        (placement tree).1 = 2 * tree.numLeaves ∧ slot = tree.numLeaves) := by
  have hmem : ∀ l, l ∈ tree.occupied ↔ l < tree.numLeaves ∧ (tree.getNode (2 * l)).isSome := by
    intro l
    rw [occupied, Finset.mem_filter, Finset.mem_range]
  obtain ⟨slot, hbefore, ⟨hplace, hlt, hblank⟩ | ⟨hplace, rfl⟩⟩ := placement_cases tree
  · refine ⟨slot, by rw [hplace], ?_, fun l hl => (hmem l).mpr ⟨by omega, hbefore l hl⟩,
      .inl ⟨?_, hlt⟩⟩
    · rw [hmem, hblank]
      rintro ⟨-, ⟨⟩⟩
    · rw [hplace]
  · refine ⟨tree.numLeaves, by rw [hplace], ?_, fun l hl => (hmem l).mpr ⟨hl, hbefore l hl⟩,
      .inr ⟨?_, rfl⟩⟩
    · rw [hmem]
      exact fun h => Nat.lt_irrefl _ h.1
    · rw [hplace]

end RatchetTree

/-! ## What a commit does to them -/

namespace Proposal

/-- Who has a leaf after the proposal, given who had one before. -/
def members (tree : RatchetTree) (before : Finset ℕ) : Proposal → Finset ℕ
  | addMember _ => insert ((placement tree).2 / 2) before
  | removeMember target => before.erase target.toNat
  | updateKey => before

/-- One leaf more, one less, or as many as before: the added leaf was free, the removed one was
occupied. -/
def Accounts (tree t : RatchetTree) : Proposal → Prop
  | addMember _ => (placement tree).2 / 2 ∉ tree.occupied ∧ t.occupied.card = tree.occupied.card + 1
  | removeMember target => target.toNat ∈ tree.occupied ∧ target.toNat ∉ t.occupied ∧
      t.occupied.card + 1 = tree.occupied.card
  | updateKey => t.occupied.card = tree.occupied.card

/-- The leaf to be removed is occupied. -/
def RemovesMember (tree : RatchetTree) : Proposal → Prop
  | removeMember target => target.toNat ∈ tree.occupied
  | _ => True

/-- The committer's own leaf is occupied, or it is the one that is added. -/
def HasCommitter (tree : RatchetTree) (own : ℕ) : Proposal → Prop
  | addMember _ => own ∈ tree.occupied ∨ (placement tree).2 / 2 = own
  | _ => own ∈ tree.occupied

variable {p : Proposal} {tree t : RatchetTree} {own l : ℕ}

/-- Whose slot holds a leaf after the proposal. -/
theorem mem_members (hlen : tree.nodes.length ≤ 2 * tree.numLeaves) :
    (∃ node, (if p.slot tree = some l then p.leaf.map .leaf else tree.getNode (2 * l)) =
      some node) ↔ l ∈ p.members tree tree.occupied := by
  cases p with
  | addMember kp =>
      rw [members, Finset.mem_insert, mem_occupied hlen, Proposal.slot]
      by_cases hl : (placement tree).2 / 2 = l
      · rw [if_pos (congrArg some hl)]
        exact iff_of_true ⟨_, rfl⟩ (.inl hl.symm)
      · rw [if_neg (mt Option.some.inj hl), or_iff_right (Ne.symm hl)]
  | removeMember target =>
      rw [members, Finset.mem_erase, mem_occupied hlen, Proposal.slot]
      by_cases hl : target.toNat = l
      · rw [if_pos (congrArg some hl)]
        exact iff_of_false (by rintro ⟨node, ⟨⟩⟩) fun h => h.1 hl.symm
      · rw [if_neg (mt Option.some.inj hl), and_iff_right (Ne.symm hl)]
  | updateKey => rw [members, mem_occupied hlen, Proposal.slot, if_neg (by rintro ⟨⟩)]

theorem members_congr (hplace : placement t = placement tree) {before : Finset ℕ} :
    p.members t before = p.members tree before := by
  cases p with
  | addMember kp => rw [members, members, hplace]
  | removeMember target => rfl
  | updateKey => rfl

/-- A committer that has a leaf adds none of its own. -/
theorem insert_members (htarget : ∀ target, p = removeMember target → target.toNat ≠ own)
    (hown : p.HasCommitter tree own) {before : Finset ℕ}
    (hbefore : own ∈ tree.occupied → own ∈ before) :
    insert own (p.members tree before) = p.members tree before := by
  apply Finset.insert_eq_of_mem
  cases p with
  | addMember kp =>
      rcases hown with hown | hslot
      · exact Finset.mem_insert_of_mem (hbefore hown)
      · exact hslot ▸ Finset.mem_insert_self _ _
  | removeMember target => exact Finset.mem_erase.mpr ⟨(htarget target rfl).symm, hbefore hown⟩
  | updateKey => exact hbefore hown

/-- The number of leaves changes as it should when a removal hits a member and the committer has a
leaf. -/
theorem accounts_iff (hafter : t.occupied = insert own (p.members tree tree.occupied))
    (htarget : ∀ target, p = removeMember target → target.toNat ≠ own) :
    p.Accounts tree t ↔ p.RemovesMember tree ∧ p.HasCommitter tree own := by
  have hinsert : own ∉ p.members tree tree.occupied →
      t.occupied.card = (p.members tree tree.occupied).card + 1 := fun hnot => by
    rw [hafter, Finset.card_insert_of_notMem hnot]
  have hkeep : p.HasCommitter tree own → t.occupied = p.members tree tree.occupied := fun hown => by
    rw [hafter, insert_members htarget hown id]
  cases p with
  | addMember kp =>
      obtain ⟨slot, hplace, hfree, -, -⟩ := placement_leftmost tree
      have hslot : (placement tree).2 / 2 ∉ tree.occupied := by
        rwa [hplace, Nat.mul_div_cancel_left slot (by decide)]
      have hcard := Finset.card_insert_of_notMem hslot
      simp only [Accounts, RemovesMember, true_and]
      refine ⟨fun ⟨_, hone⟩ => ?_, fun hown => ⟨hslot, by rw [hkeep hown]; exact hcard⟩⟩
      by_contra hnone
      have hnot : own ∉ (addMember kp).members tree tree.occupied := fun hmem => by
        rcases Finset.mem_insert.mp hmem with hnew | hold
        · exact hnone (.inr hnew.symm)
        · exact hnone (.inl hold)
      have htwo := hinsert hnot
      rw [members, hcard] at htwo
      omega
  | removeMember target =>
      simp only [Accounts, RemovesMember, HasCommitter]
      constructor
      · rintro ⟨hmem, -, hone⟩
        refine ⟨hmem, ?_⟩
        by_contra hnone
        have hsame := hinsert fun h => hnone (Finset.mem_of_mem_erase h)
        rw [members, Finset.card_erase_of_mem hmem] at hsame
        omega
      · rintro ⟨hmem, hown⟩
        rw [hkeep hown, members]
        exact ⟨hmem, Finset.notMem_erase _ _, Finset.card_erase_add_one hmem⟩
  | updateKey =>
      simp only [Accounts, RemovesMember, HasCommitter, true_and]
      refine ⟨fun hsame => ?_, fun hown => by rw [hkeep hown, members]⟩
      by_contra hnone
      have hone := hinsert hnone
      rw [members] at hone
      omega

end Proposal

namespace Built

variable {sender : MLSGroup} {coins : CommitCoins} {p : Proposal} {committed : Committed}
  (r : Built C sender coins p committed)

include r in
theorem target_ne (target : ℤ) (hp : p = .removeMember target) : target.toNat ≠ sender.myIndex := by
  have := r.target_eq target hp
  omega

include r in
/-- After a commit the committer's leaf is occupied, and the others are as the proposal leaves
them. -/
theorem occupied_next (h : sender.state.tree.OnWire) : committed.next.state.tree.occupied =
    insert sender.myIndex (p.members sender.state.tree sender.state.tree.occupied) := by
  obtain ⟨m, -, hm⟩ := r.sized h
  rw [r.next_tree]
  ext l
  rw [mem_occupied hm.length_le, r.getNode_tree h, Finset.mem_insert]
  by_cases hl : l = sender.myIndex
  · rw [if_pos hl]
    exact iff_of_true ⟨_, rfl⟩ (.inl hl)
  · rw [if_neg hl, or_iff_right hl]
    exact Proposal.mem_members h.length_le

/-- A member's commit leaves those leaves occupied that the proposal leaves. -/
theorem occupied_tree {m : ℕ} (hm : sender.state.tree.Sized m) (hm29 : m ≤ 29)
    (hown : sender.myIndex ∈ sender.state.tree.occupied) :
    ∃ m' ≤ 29, r.path.tree.Sized m' ∧
      r.path.tree.occupied = p.members sender.state.tree sender.state.tree.occupied ∧
      (r.path.tree.numLeaves ≤ sender.state.tree.numLeaves ∨
        r.path.tree.numLeaves = (placement sender.state.tree).1 ∧ p.leaf.isSome) := by
  obtain ⟨node, hnode⟩ := (mem_occupied hm.length_le).mp hown
  obtain ⟨happlied, m', hm', hbase⟩ := r.applied hm hm29 hnode
  have hcommitter : p.HasCommitter sender.state.tree sender.myIndex := by
    cases p with
    | addMember kp => exact .inl hown
    | removeMember target => exact hown
    | updateKey => exact hown
  refine ⟨m', hm', r.path.sameSize.sized hbase, ?_, by rw [r.path.sameSize.1]; exact happlied.size⟩
  rw [← r.next_tree, r.occupied_next (hm.onWire hm29)]
  exact Proposal.insert_members r.target_ne hcommitter id

end Built

/-! ## Runs -/

/-- A successful commit of a member: the group's tree before it, the proposal, the tree after it. -/
structure Step where
  before : RatchetTree
  proposal : Proposal
  after : RatchetTree

/-- The runs in which members of a group commit one after another: whoever commits has the group's
tree, perhaps off the wire, and a leaf in it. -/
inductive GroupRun (C : Crypto) : List Step → RatchetTree → Prop where
  | create {groupId sigKey kemKey initKey founder} :
      MLSGroup.create C groupId sigKey kemKey initKey = .ok founder →
        GroupRun C [] founder.state.tree
  | commit {run tree sender coins p committed} : GroupRun C run tree →
      sender.state.tree.canon = tree.canon → sender.myIndex ∈ tree.occupied →
      p.commit C sender coins = .ok committed →
      GroupRun C (run ++ [⟨tree, p, committed.next.state.tree⟩]) committed.next.state.tree

/-- The creator, and all that were added and not removed since. -/
def members (run : List Step) : Finset ℕ :=
  run.foldl (fun members step => step.proposal.members step.before members) {0}

/-- The largest number of leaves that were occupied at one time. -/
def peak (run : List Step) : ℕ := run.foldl (fun most step => max most step.after.occupied.card) 1

theorem peak_concat (run : List Step) (step : Step) :
    peak (run ++ [step]) = max (peak run) step.after.occupied.card := by
  simp [peak]

theorem members_concat (run : List Step) (step : Step) :
    members (run ++ [step]) = step.proposal.members step.before (members run) := by
  simp [members]

namespace GroupRun

variable {run : List Step} {tree : RatchetTree}

theorem create_tree {groupId : Bytes} {sigKey : SignatureKey} {kemKey initKey : KemKey}
    {founder : MLSGroup} (h : MLSGroup.create C groupId sigKey kemKey initKey = .ok founder) :
    founder.state.tree.Sized 0 ∧ founder.state.tree.occupied = {0} := by
  obtain ⟨kp, tree, _, _, -, htree, -, rfl⟩ := MLSGroup.create_eq_ok h
  obtain ⟨hsize, hget⟩ := setLeaf_node htree
  have hsized : tree.Sized 0 := hsize.sized (sized_new 0)
  refine ⟨hsized, ?_⟩
  ext l
  change l ∈ tree.occupied ↔ _
  rw [mem_occupied hsized.length_le, hget, getNode_new, Finset.mem_singleton]
  by_cases hl : l = 0
  · simp [hl]
  · rw [if_neg (by omega)]
    simp [hl]

/-- One step of a run, on the group's own tree. -/
theorem step {sender : MLSGroup} {coins : CommitCoins} {p : Proposal} {committed : Committed}
    {m : ℕ} (hm : tree.Sized m) (hm29 : m ≤ 29) (htree : sender.state.tree.canon = tree.canon)
    (hown : sender.myIndex ∈ tree.occupied) (hcommit : p.commit C sender coins = .ok committed) :
    ∃ m' ≤ 29, committed.next.state.tree.Sized m' ∧
      committed.next.state.tree.occupied = p.members tree tree.occupied ∧
      (committed.next.state.tree.numLeaves ≤ tree.numLeaves ∨
        committed.next.state.tree.numLeaves = (placement tree).1 ∧ p.leaf.isSome) := by
  obtain ⟨r⟩ := Proposal.commit_eq_ok hcommit
  obtain ⟨hsized, hoccupied, hplace⟩ := occupied_congr hm htree
  have hleaves : sender.state.tree.numLeaves = tree.numLeaves := congrArg (·.numLeaves) htree
  obtain ⟨m', hm', hsized', hoccupied', hleaves'⟩ := r.occupied_tree hsized hm29 (hoccupied ▸ hown)
  rw [hplace, hleaves] at hleaves'
  rw [r.next_tree]
  refine ⟨m', hm', hsized', ?_, hleaves'⟩
  rw [hoccupied', hoccupied, Proposal.members_congr hplace]

theorem occupied_eq (h : GroupRun C run tree) :
    (∃ m ≤ 29, tree.Sized m) ∧ tree.occupied = members run := by
  induction h with
  | create hcreate =>
      obtain ⟨hsized, hoccupied⟩ := create_tree hcreate
      exact ⟨⟨0, by decide, hsized⟩, hoccupied⟩
  | commit hrun htree hown hcommit ih =>
      obtain ⟨⟨m, hm29, hm⟩, hoccupied⟩ := ih
      obtain ⟨m', hm', hsized, hafter, -⟩ := step hm hm29 htree hown hcommit
      exact ⟨⟨m', hm', hsized⟩, by rw [hafter, members_concat, hoccupied]⟩

end GroupRun

/-- A successful commit, and the leaf index of whoever made it. -/
structure CommitStep extends Step where
  committer : ℕ

/-- The commit removes no blank leaf, and its committer has a leaf or adds the one at its index. -/
def CommitStep.Accountable (step : CommitStep) : Prop :=
  step.proposal.RemovesMember step.before ∧ step.proposal.HasCommitter step.before step.committer

/-- The runs in which handles with the group's tree commit one after another, with or without a leaf
in it. -/
inductive CommitRun (C : Crypto) : List CommitStep → RatchetTree → Prop where
  | create {groupId sigKey kemKey initKey founder} :
      MLSGroup.create C groupId sigKey kemKey initKey = .ok founder →
        CommitRun C [] founder.state.tree
  | commit {run tree sender coins p committed} : CommitRun C run tree →
      sender.state.tree.canon = tree.canon → p.commit C sender coins = .ok committed →
      CommitRun C (run ++ [⟨⟨tree, p, committed.next.state.tree⟩, sender.myIndex⟩])
        committed.next.state.tree

/-- While every committer has a leaf, the occupied leaves are those of the creator and of all that
were added and not removed since. -/
theorem CommitRun.occupied_eq {run : List CommitStep} {tree : RatchetTree}
    (h : CommitRun C run tree) : (∃ m ≤ 29, tree.Sized m) ∧ ((∀ step ∈ run, step.Accountable) →
      tree.occupied = members (run.map CommitStep.toStep)) := by
  induction h with
  | create hcreate =>
      obtain ⟨hsized, hoccupied⟩ := GroupRun.create_tree hcreate
      exact ⟨⟨0, by decide, hsized⟩, fun _ => hoccupied⟩
  | @commit run tree sender coins p committed hrun htree hcommit ih =>
      obtain ⟨⟨m, hm29, hm⟩, hoccupied⟩ := ih
      obtain ⟨r⟩ := Proposal.commit_eq_ok hcommit
      obtain ⟨hsized, hsame, hplace⟩ := occupied_congr hm htree
      have hwire := hsized.onWire hm29
      have hafter := r.occupied_next hwire
      obtain ⟨m', hm', hnext⟩ := r.sized hwire
      rw [← r.next_tree] at hnext
      refine ⟨⟨m', hm', hnext⟩, fun hall => ?_⟩
      have hbefore := hoccupied fun step hstep => hall step (List.mem_append_left _ hstep)
      have hlast := hall _ (List.mem_append_right _ (List.mem_singleton_self _))
      rw [List.map_append, List.map_singleton, members_concat, ← hbefore, hafter, hsame,
        Proposal.members_congr hplace]
      exact Proposal.insert_members r.target_ne hlast.2 id

/-- A commit changes the number of occupied leaves as it should if and only if it removes no blank
leaf and its committer has a leaf or adds the one at its index. In a run of such commits the
occupied leaves are those of the creator and of all that were added and not removed since. -/
theorem membership_accounting_iff :
    (∀ (sender : MLSGroup) (coins : CommitCoins) (p : Proposal) (committed : Committed),
      Reached C sender → p.commit C sender coins = .ok committed →
      (p.Accounts sender.state.tree committed.next.state.tree ↔
        p.RemovesMember sender.state.tree ∧ p.HasCommitter sender.state.tree sender.myIndex)) ∧
    ∀ (run : List CommitStep) (tree : RatchetTree), CommitRun C run tree →
      (∀ step ∈ run, step.Accountable) → tree.occupied = members (run.map CommitStep.toStep) := by
  refine ⟨fun sender coins p committed hsender hcommit => ?_,
    fun run tree hrun => hrun.occupied_eq.2⟩
  obtain ⟨r⟩ := Proposal.commit_eq_ok hcommit
  exact Proposal.accounts_iff (r.occupied_next (hsender.onWire (fun _ h => h) fun _ _ h => h))
    r.target_ne

/-- Every occupied leaf index is below the largest number of members so far, and the tree is no
larger than they need. -/
theorem tree_does_not_grow {run : List Step} {tree : RatchetTree} (h : GroupRun C run tree) :
    (∀ l ∈ tree.occupied, l < peak run) ∧ tree.numLeaves ≤ 2 ^ Nat.clog 2 (peak run) := by
  induction h with
  | create hcreate =>
      obtain ⟨hsized, hoccupied⟩ := GroupRun.create_tree hcreate
      rw [hoccupied, hsized.1]
      exact ⟨by simp [peak], Nat.one_le_two_pow⟩
  | @commit run tree sender coins p committed hrun htree hown hcommit ih =>
      obtain ⟨⟨m, hm29, hm⟩, -⟩ := hrun.occupied_eq
      obtain ⟨m', -, -, hafter, hleaves⟩ := GroupRun.step hm hm29 htree hown hcommit
      obtain ⟨hbelow, hsize⟩ := ih
      rw [peak_concat]
      set most := max (peak run) committed.next.state.tree.occupied.card with hmost
      have hpeak : peak run ≤ most := le_max_left _ _
      have hkeep : tree.numLeaves ≤ 2 ^ Nat.clog 2 most :=
        hsize.trans (Nat.pow_le_pow_right (by decide) (Nat.clog_mono_right 2 hpeak))
      cases p with
      | addMember kp =>
          obtain ⟨slot, hplace, hfree, hleftmost, hcount⟩ := placement_leftmost tree
          rw [Proposal.members, hplace, Nat.mul_div_cancel_left slot (by decide)] at hafter
          -- all slots to the left of the new one are occupied
          have hslot : slot < most := by
            have hsub : Finset.range slot ⊆ tree.occupied :=
              fun l hl => hleftmost l (Finset.mem_range.mp hl)
            have hcard := Finset.card_le_card hsub
            rw [Finset.card_range] at hcard
            have hinsert : committed.next.state.tree.occupied.card = tree.occupied.card + 1 := by
              rw [hafter, Finset.card_insert_of_notMem hfree]
            have := le_max_right (peak run) committed.next.state.tree.occupied.card
            omega
          refine ⟨fun l hl => ?_, ?_⟩
          · rw [hafter, Finset.mem_insert] at hl
            rcases hl with rfl | hl
            · exact hslot
            · exact (hbelow l hl).trans_le hpeak
          · rcases hleaves with hle | ⟨heq, -⟩
            · exact hle.trans hkeep
            · rcases hcount with ⟨hsame, -⟩ | ⟨hdouble, rfl⟩
              · rw [heq, hsame]
                exact hkeep
              · rw [heq, hdouble, hm.1, ← pow_succ']
                rw [hm.1] at hslot
                exact Nat.pow_le_pow_right (by decide)
                  ((Nat.lt_clog_iff_pow_lt (by decide)).mpr hslot)
      | removeMember target =>
          refine ⟨fun l hl => ?_, ?_⟩
          · rw [hafter, Proposal.members] at hl
            exact (hbelow l (Finset.mem_of_mem_erase hl)).trans_le hpeak
          · rcases hleaves with hle | ⟨-, hnone⟩
            · exact hle.trans hkeep
            · cases hnone
      | updateKey =>
          refine ⟨fun l hl => ?_, ?_⟩
          · rw [hafter, Proposal.members] at hl
            exact (hbelow l hl).trans_le hpeak
          · rcases hleaves with hle | ⟨-, hnone⟩
            · exact hle.trans hkeep
            · cases hnone

/-! ## Removing a member twice -/

namespace Sample

/-- Alice adds Bob, and he removes her twice. -/
def removedTwice : Py (MLSGroup × KeyPackage × Committed × MLSGroup × Committed × Committed) := do
  let bobPackage ← keyPackage 20
  let alice ← MLSGroup.create crypto (ascii "g") (sig 1) (kem 1) (kem 2)
  let added ← (Proposal.addMember bobPackage).commit crypto alice (coins 40)
  let call : JoinCall := ⟨added.welcome.getD ⟨0, [], []⟩, sig 20, kem 20, [], none⟩
  let bob ← call.run crypto
  let removed ← (Proposal.removeMember 0).commit crypto bob (coins 60)
  let again ← (Proposal.removeMember 0).commit crypto removed.next (coins 80)
  expect (bob.state.tree.canon = added.next.state.tree.canon ∧ bob.myIndex = 1 ∧
    removed.next.myIndex = 1 ∧ 0 ∈ alice.state.tree.occupied ∧ alice.myIndex = 0)
  expect (1 ∈ added.next.state.tree.occupied ∧ 0 ∈ added.next.state.tree.occupied ∧
    removed.next.state.tree.occupied = {1})
  pure (alice, bobPackage, added, bob, removed, again)

theorem removedTwice_ok : ∃ r, removedTwice = .ok r := Py.ok_of_isOk (by decide +kernel)

/-- The run that removes Alice, and the one that removes her once more. -/
theorem removedTwice_runs : ∃ (run : List Step) (removed again : RatchetTree) (target : ℤ),
    GroupRun crypto (run ++ [⟨removed, .removeMember target, again⟩]) again ∧
      ¬ (Proposal.removeMember target).RemovesMember removed := by
  obtain ⟨_, hrun⟩ := removedTwice_ok
  simp only [removedTwice, expect, Py.bind_eq_ok, Py.require_eq_ok] at hrun
  obtain ⟨kp, -, alice, hcreate, added, hadd, bob, -, removed, hremove, again, hagain, _,
    ⟨htree, hbob, hbob', halice, hzero⟩, _, ⟨hone, -, hafter⟩, -⟩ := hrun
  have hadded : GroupRun crypto _ added.next.state.tree :=
    .commit (.create hcreate) rfl (hzero ▸ halice) hadd
  have hremoved : GroupRun crypto _ removed.next.state.tree :=
    .commit hadded htree (hbob ▸ hone) hremove
  have hlast : GroupRun crypto _ again.next.state.tree :=
    .commit hremoved rfl (by rw [hbob', hafter]; decide) hagain
  refine ⟨_, _, _, 0, hlast, ?_⟩
  rw [Proposal.RemovesMember, hafter]
  decide

/-- Alice adds Bob under a second key package too and removes the leaf that he has; he follows. -/
def displaced : Py MLSGroup := do
  let bobPackage ← keyPackage 20
  let again ← KeyPackage.create ((kem 20).publicBytes crypto) ((kem 22).publicBytes crypto)
    ((sig 20).publicBytes crypto) (ascii "joiner") ((sig 20).sign crypto)
  let alice ← MLSGroup.create crypto (ascii "g") (sig 1) (kem 1) (kem 2)
  let added ← (Proposal.addMember bobPackage).commit crypto alice (coins 40)
  let call : JoinCall := ⟨added.welcome.getD ⟨0, [], []⟩, sig 20, kem 20, [], none⟩
  let joined ← call.run crypto
  let addedAgain ← (Proposal.addMember again).commit crypto added.next (coins 60)
  expect (addedAgain.update.tree.numLeaves = 4 ∧ addedAgain.update.tree.nodes.length = 7)
  let followed ← Transition.run crypto joined (.processUpdate addedAgain.update)
  let removed ← (Proposal.removeMember 1).commit crypto addedAgain.next (coins 80)
  expect (removed.update.tree.numLeaves = 4 ∧ removed.update.tree.nodes.length = 7)
  Transition.run crypto followed (.processUpdate removed.update)

theorem displaced_reached {bob : MLSGroup} (h : displaced = .ok bob) : Reached crypto bob := by
  simp only [displaced, expect, Py.bind_eq_ok, Py.require_eq_ok] at h
  obtain ⟨_, -, _, -, _, -, added, -, joined, hjoin, addedAgain, -, _, hadded, followed, hfollow,
    removed, -, _, hremoved, hbob⟩ := h
  have hwire : ∀ {tree : RatchetTree}, tree.numLeaves = 4 ∧ tree.nodes.length = 7 → tree.OnWire :=
    fun hsize => Sized.onWire (m := 2) hsize (by decide)
  have hjoined : Reached crypto joined := .join (fun tree htree => by cases htree) hjoin
  have hfollowed : Reached crypto followed :=
    .next hjoined (show (Transition.processUpdate addedAgain.update).FromWire from hwire hadded)
      hfollow
  exact .next hfollowed
    (show (Transition.processUpdate removed.update).FromWire from hwire hremoved) hbob

/-- Bob, who is at leaf 1 but not in the tree, updates his key. -/
def reappears : Py (MLSGroup × Committed) := do
  let bob ← displaced
  let updated ← Proposal.updateKey.commit crypto bob (coins 100)
  expect (bob.myIndex = 1 ∧ bob.state.tree.occupied = {0, 2} ∧
    updated.next.state.tree.occupied = {0, 1, 2})
  pure (bob, updated)

theorem reappears_ok : ∃ r, reappears = .ok r := Py.ok_of_isOk (by decide +kernel)

/-- Alice adds Bob. -/
def firstAdded : Py (MLSGroup × KeyPackage × Committed) := do
  let bobPackage ← keyPackage 20
  let alice ← MLSGroup.create crypto (ascii "g") (sig 1) (kem 1) (kem 2)
  let added ← (Proposal.addMember bobPackage).commit crypto alice (coins 40)
  expect (alice.state.tree.occupied = {0} ∧ alice.myIndex = 0)
  pure (alice, bobPackage, added)

theorem firstAdded_ok : ∃ r, firstAdded = .ok r := Py.ok_of_isOk (by decide +kernel)

end Sample

open Sample in
/-- Bob's key update when he is not in the tree does not account, Alice's addition of Bob does. -/
theorem membership_accounting_bob :
    (∃ (bob : MLSGroup) (updated : Committed), Reached crypto bob ∧
      Proposal.updateKey.commit crypto bob (coins 100) = .ok updated ∧
      ¬ Proposal.updateKey.Accounts bob.state.tree updated.next.state.tree) ∧
    ∃ (run : List CommitStep) (tree : RatchetTree), run ≠ [] ∧ CommitRun crypto run tree ∧
      tree.occupied = members (run.map CommitStep.toStep) := by
  constructor
  · obtain ⟨_, hrun⟩ := reappears_ok
    simp only [reappears, expect, Py.bind_eq_ok, Py.require_eq_ok] at hrun
    obtain ⟨bob, hbob, updated, hupdate, _, ⟨hone, hbefore, -⟩, -⟩ := hrun
    have hreached := displaced_reached hbob
    refine ⟨bob, updated, hreached, hupdate, fun haccounts => ?_⟩
    have hown : bob.myIndex ∈ bob.state.tree.occupied :=
      ((membership_accounting_iff.1 bob _ _ _ hreached hupdate).mp haccounts).2
    rw [hone, hbefore] at hown
    exact absurd hown (by decide)
  · obtain ⟨_, hrun⟩ := firstAdded_ok
    simp only [firstAdded, expect, Py.bind_eq_ok, Py.require_eq_ok] at hrun
    obtain ⟨kp, -, alice, hcreate, added, hadd, _, ⟨hbefore, hzero⟩, -⟩ := hrun
    have hadded : CommitRun crypto _ added.next.state.tree := .commit (.create hcreate) rfl hadd
    refine ⟨_, _, by simp, hadded, membership_accounting_iff.2 _ _ hadded fun step hstep => ?_⟩
    rw [List.nil_append, List.mem_singleton] at hstep
    subst hstep
    have hown : alice.myIndex ∈ alice.state.tree.occupied := by
      rw [hbefore, hzero]
      decide
    exact ⟨trivial, .inl hown⟩

open Sample in
/-- Bob's second removal of Alice succeeds and removes nobody; his key update when he is not in the
tree makes him a member again. -/
theorem blank_leaf_removed : (¬ ∀ (run : List Step) (tree : RatchetTree), GroupRun crypto run tree →
      ∀ step ∈ run, step.proposal.Accounts step.before step.after) ∧
    ∃ (bob : MLSGroup) (updated : Committed), Reached crypto bob ∧
      Proposal.updateKey.commit crypto bob (coins 100) = .ok updated ∧
      bob.state.tree.occupied = {0, 2} ∧ updated.next.state.tree.occupied = {0, 1, 2} := by
  constructor
  · intro hall
    obtain ⟨run, removed, again, target, hrun, hnone⟩ := removedTwice_runs
    have haccounts : (Proposal.removeMember target).Accounts removed again :=
      hall _ _ hrun ⟨removed, .removeMember target, again⟩ (by simp)
    exact hnone haccounts.1
  · obtain ⟨_, hrun⟩ := reappears_ok
    simp only [reappears, expect, Py.bind_eq_ok, Py.require_eq_ok] at hrun
    obtain ⟨bob, hbob, updated, hupdate, _, ⟨-, hbefore, hafter⟩, -⟩ := hrun
    exact ⟨bob, updated, displaced_reached hbob, hupdate, hbefore, hafter⟩

open Sample in
/-- The bounds after Bob's run. -/
theorem tree_does_not_grow_bob : ∃ (run : List Step) (tree : RatchetTree), run ≠ [] ∧
    (∀ l ∈ tree.occupied, l < peak run) ∧ tree.numLeaves ≤ 2 ^ Nat.clog 2 (peak run) := by
  obtain ⟨run, _, _, _, hrun, -⟩ := removedTwice_runs
  exact ⟨_, _, by simp, tree_does_not_grow hrun⟩

end PureMls
