import Mathlib.Data.List.Pairwise
import PureMls.Verification.Rounds

/-! # Convergence of honest runs

Every commit goes to every other member that stays, and whoever is added enters. -/

namespace PureMls

open RatchetTree MLSGroup

variable {C : Crypto} {members members' : List MLSGroup}

/-! ## Honest rounds -/

/-- A new member that owns its key package, whose keys the group has not seen. -/
structure Invited (C : Crypto) (members : List MLSGroup) (kp : KeyPackage) (joiner : Joiner) :
    Prop where
  source : kp.leafNode.leafNodeSource = leafNodeSourceKeyPackage
  sigKey : kp.leafNode.signatureKey = joiner.sigKey.publicBytes C
  kemKey : kp.leafNode.encryptionKey = joiner.kemKey.publicBytes C
  initKey : kp.initKeyPub = kp.leafNode.encryptionKey
  fresh : ∀ a ∈ members, a.mySigKey.publicBytes C ≠ joiner.sigKey.publicBytes C

namespace Round

/-- Every other member that stays processes the commit, and whoever is added enters. -/
structure Full (C : Crypto) (members : List MLSGroup) (round : Round) : Prop where
  everyone : ∃ others, members.Perm (round.sender :: others) ∧
    round.receivers = others.filter fun a => round.proposal.Keeps a.myIndex
  refs : RefsCollisionFree C round.committed.update.tree
  enters : ∀ kp, round.proposal = .addMember kp →
    ∃ joiner, round.joiner = some joiner ∧ Invited C members kp joiner

/-- A full round whose receivers hold the keys of their leaves. -/
structure Honest (C : Crypto) (members : List MLSGroup) (round : Round) : Prop where
  full : round.Full C members
  holdsKey : ∀ receiver ∈ round.receivers, receiver.HoldsKey C

end Round

/-- Same group id, epoch, tree bytes, key schedule and interim transcript hash. -/
def Converged (members : List MLSGroup) : Prop :=
  ∀ a ∈ members, ∀ b ∈ members, a.state.groupId = b.state.groupId ∧
    a.state.epochId = b.state.epochId ∧ a.state.tree.toBytes = b.state.tree.toBytes ∧
    a.state.keySchedule = b.state.keySchedule ∧ a.interimTranscriptHash = b.interimTranscriptHash

theorem Shared.converged (h : Shared C members) : Converged members := by
  intro a ha b hb
  obtain ⟨hgroup, hepoch, htree, hks, hinterim⟩ := h.agrees a ha b hb
  exact ⟨hgroup, hepoch, by rw [← toBytes_canon, htree, toBytes_canon], hks, hinterim⟩

/-! ## Nobody is missing -/

/-- The members are those with a leaf in the tree, one for each, and every leaf verifies. -/
structure Complete (C : Crypto) (members : List MLSGroup) : Prop where
  indices : (members.map MLSGroup.myIndex).Nodup
  verifies : ∀ a ∈ members, ∀ l leaf, a.state.tree.getLeaf (2 * l) = some leaf →
    leaf.verifySignature C a.state.groupId l = .ok ()
  occupied : ∀ a ∈ members, ∀ l leaf, a.state.tree.getLeaf (2 * l) = some leaf →
    ∃ b ∈ members, b.myIndex = l

theorem Complete.congr (h : members'.map core = members.map core) (hcomplete : Complete C members) :
    Complete C members' := by
  have hcore : ∀ a ∈ members', ∃ b ∈ members, b.core = a.core := fun a ha => mem_of_map_core h ha
  have hindex : members'.map MLSGroup.myIndex = members.map MLSGroup.myIndex := by
    have hmap := congrArg (List.map MLSGroup.myIndex) h
    rw [List.map_map, List.map_map] at hmap
    exact hmap
  have hstate : ∀ a ∈ members', ∃ b ∈ members, b.state = a.state := fun a ha => by
    obtain ⟨b, hb, heq⟩ := hcore a ha
    have hstate : b.core.state = a.core.state := by rw [heq]
    exact ⟨b, hb, hstate⟩
  refine ⟨hindex ▸ hcomplete.indices, fun a ha l leaf hleaf => ?_, fun a ha l leaf hleaf => ?_⟩
  · obtain ⟨b, hb, heq⟩ := hstate a ha
    rw [← heq] at hleaf ⊢
    exact hcomplete.verifies b hb l leaf hleaf
  · obtain ⟨b, hb, heq⟩ := hstate a ha
    rw [← heq] at hleaf
    obtain ⟨c, hc, hl⟩ := hcomplete.occupied b hb l leaf hleaf
    obtain ⟨c', hc', heq'⟩ := mem_of_map_core h.symm hc
    have hindex' : c'.core.myIndex = c.core.myIndex := by rw [heq']
    exact ⟨c', hc', hindex'.trans hl⟩

/-- The leaf in a slot is that of the member with this index. -/
theorem Complete.owner (hcomplete : Complete C members) (hshared : Shared C members) {a : MLSGroup}
    (ha : a ∈ members) {l : ℕ} {leaf : LeafNode}
    (hleaf : a.state.tree.getLeaf (2 * l) = some leaf) :
    ∃ b ∈ members, b.myIndex = l ∧ leaf.signatureKey = b.mySigKey.publicBytes C := by
  obtain ⟨b, hb, rfl⟩ := hcomplete.occupied a ha l leaf hleaf
  obtain ⟨own, hown, hkey⟩ := (hshared.inPlace b hb).leaf
  obtain ⟨leaf', hleaf', hcanon⟩ := (hshared.agrees a ha b hb).getLeaf hown
  rw [hleaf, Option.some.injEq] at hleaf'
  subst hleaf'
  have hsame := congrArg LeafNode.signatureKey hcanon
  exact ⟨b, hb, rfl, hsame.trans hkey⟩

/-- A blank slot belongs to nobody. -/
theorem Shared.index_ne (hshared : Shared C members) {a b : MLSGroup} (ha : a ∈ members)
    (hb : b ∈ members) {l : ℕ} (hblank : a.state.tree.getNode (2 * l) = none) : b.myIndex ≠ l := by
  rintro rfl
  obtain ⟨own, hown, -⟩ := (hshared.inPlace b hb).leaf
  obtain ⟨leaf, hleaf, -⟩ := (hshared.agrees a ha b hb).getLeaf hown
  rw [getLeaf_eq_some, hblank] at hleaf
  cases hleaf

/-! ## An honest round goes through -/

namespace Round

variable {round : Round}

theorem Full.ne (h : round.Full C members) (hcomplete : Complete C members) {receiver : MLSGroup}
    (hmem : receiver ∈ round.receivers) : receiver ∈ members ∧
      receiver.myIndex ≠ round.sender.myIndex ∧ round.proposal.Keeps receiver.myIndex := by
  obtain ⟨others, hperm, hreceivers⟩ := h.everyone
  rw [hreceivers, List.mem_filter, decide_eq_true_eq] at hmem
  have hnodup := (hperm.map MLSGroup.myIndex).nodup_iff.mp hcomplete.indices
  rw [List.map_cons, List.nodup_cons] at hnodup
  refine ⟨hperm.mem_iff.mpr (List.mem_cons_of_mem _ hmem.1), fun heq => hnodup.1 ?_, hmem.2⟩
  rw [← heq]
  exact List.mem_map_of_mem hmem.1

theorem Full.sender (h : round.Full C members) : round.sender ∈ members := by
  obtain ⟨others, hperm, -⟩ := h.everyone
  exact hperm.mem_iff.mpr List.mem_cons_self

theorem Honest.among (h : round.Honest C members) (hcomplete : Complete C members) :
    round.Among C members := by
  refine ⟨h.full.sender, fun receiver hmem => ?_, h.full.refs, fun kp joiner hp hj => ?_⟩
  · obtain ⟨hmember, hne, hkeeps⟩ := h.full.ne hcomplete hmem
    exact ⟨hmember, hne, hkeeps, h.holdsKey receiver hmem⟩
  · obtain ⟨joiner', hj', henters⟩ := h.full.enters kp hp
    rw [hj, Option.some.injEq] at hj'
    subst hj'
    rw [henters.initKey, henters.kemKey]

end Round

namespace Built

variable {round : Round}
  (r : Built C round.sender round.coins round.proposal round.committed)

include r in
theorem leavesVerify (hfull : round.Full C members) (hcomplete : Complete C members) :
    round.proposal.LeavesVerify C round.sender := by
  intro l leaf hne hleaf
  rw [Proposal.leafAfter] at hleaf
  by_cases hslot : round.proposal.slot round.sender.state.tree = some l
  · rw [if_pos hslot] at hleaf
    cases hp : round.proposal with
    | addMember kp =>
        rw [hp, Proposal.leaf, Option.some.injEq] at hleaf
        subst hleaf
        obtain ⟨joiner, -, henters⟩ := hfull.enters kp hp
        have hverify := (r.welcome_eq kp hp).1
        simp only [KeyPackage.verifySignature, Py.bind_eq_ok] at hverify
        obtain ⟨_, hverify, -⟩ := hverify
        rw [LeafNode.verifySignature_place henters.source _ [] l 0]
        exact hverify
    | removeMember target =>
        rw [hp] at hleaf
        cases hleaf
    | updateKey =>
        rw [hp] at hleaf
        cases hleaf
  · rw [if_neg hslot] at hleaf
    exact hcomplete.verifies _ hfull.sender l leaf hleaf

/-- The new member finds its leaf where it was placed. -/
theorem findOwnLeaf_entrant (hC : C.Correct) (hshared : Shared C members)
    (hcomplete : Complete C members)
    (hfull : round.Full C members) {kp : KeyPackage} {joiner : Joiner}
    (hp : round.proposal = .addMember kp) (henters : Invited C members kp joiner) {slot : ℕ}
    (hslot : round.proposal.slot round.sender.state.tree = some slot)
    (hblank : round.sender.state.tree.getNode (2 * slot) = none) :
    findOwnLeaf r.path.tree (joiner.sigKey.publicBytes C) = some slot := by
  have hsender := hfull.sender
  have hplace := hshared.inPlace _ hsender
  have hne : round.sender.myIndex ≠ slot := hshared.index_ne hsender hsender hblank
  refine findOwnLeaf_unique ?_ henters.sigKey fun l leaf hleaf hkey => ?_
  · rw [r.getLeaf_tree hplace.onWire, if_neg (Ne.symm hne), Proposal.leafAfter, if_pos hslot, hp]
    rfl
  · rw [r.getLeaf_tree hplace.onWire] at hleaf
    by_cases hl : l = round.sender.myIndex
    · rw [if_pos hl, Option.some.injEq] at hleaf
      subst hleaf
      have hown : r.path.keyPackage.leafNode.signatureKey = round.sender.mySigKey.publicBytes C :=
        (ownKeyPackage_leaf hC r.path.keyPackage_eq).2.1
      exact absurd (hown.symm.trans hkey) (henters.fresh _ hsender)
    · rw [if_neg hl, Proposal.leafAfter] at hleaf
      by_cases heq : round.proposal.slot round.sender.state.tree = some l
      · exact Option.some.inj (heq.symm.trans hslot)
      · rw [if_neg heq] at hleaf
        obtain ⟨b, hb, -, hkey'⟩ := hcomplete.owner hshared hsender hleaf
        exact absurd (hkey'.symm.trans hkey) (henters.fresh b hb)

/-- An honest round delivers: to the committer, to each receiver and to whoever enters. -/
theorem deliver_honest (hC : C.Correct) (hshared : Shared C members)
    (hcomplete : Complete C members) (hhonest : round.Honest C members) :
    ∃ entrants, round.deliver C =
        .ok (round.committed.next :: round.receivers.map r.followed ++ entrants) ∧
      (entrants = [] ∧ round.proposal.leaf = none ∨
        ∃ slot joiner, entrants = [r.entered slot joiner] ∧
          round.proposal.slot round.sender.state.tree = some slot ∧
          round.sender.state.tree.getNode (2 * slot) = none) := by
  have hsender := hhonest.full.sender
  have hplace := hshared.inPlace _ hsender
  have hfollowed : round.receivers.mapM (fun member =>
      (member.processUpdate C round.committed.update).2) =
        .ok (round.receivers.map r.followed) := by
    apply mapM_of_forall₂
    rw [List.forall₂_map_right_iff, List.forall₂_same]
    intro receiver hmem
    obtain ⟨hmember, hne, hkeeps, hkey⟩ := (hhonest.among hcomplete).receivers receiver hmem
    exact r.processUpdate_of_inPlace hC hplace hhonest.full.refs
      (hshared.agrees _ hmember _ hsender) hne hkeeps hkey (r.leavesVerify hhonest.full hcomplete)
  have hdeliver : ∀ entrants, round.enter C = .ok entrants → round.deliver C =
      .ok (round.committed.next :: round.receivers.map r.followed ++ entrants) := by
    intro entrants hentrants
    rw [Round.deliver, hfollowed, Py.ok_bind, hentrants]
    rfl
  have hcases : (∃ kp, round.proposal = .addMember kp) ∨ round.proposal.leaf = none := by
    cases round.proposal with
    | addMember kp => exact .inl ⟨kp, rfl⟩
    | removeMember target => exact .inr rfl
    | updateKey => exact .inr rfl
  rcases hcases with ⟨kp, hp⟩ | hnone
  · obtain ⟨joiner, hjoiner, henters⟩ := hhonest.full.enters kp hp
    obtain ⟨-, welcome, hwelcome, -⟩ := r.welcome_eq kp hp
    obtain ⟨m, -, hm⟩ := hplace.sized
    obtain ⟨_, slot, hplacement, -, -, hblank⟩ := placement_spec hm
    have hslot : round.proposal.slot round.sender.state.tree = some slot := by
      rw [hp, Proposal.slot, hplacement]
      simp
    have hfind := r.findOwnLeaf_entrant hC hshared hcomplete hhonest.full hp henters hslot hblank
    have hjoin := r.enter_eq hC hplace.onWire hp hwelcome (henters.initKey.trans henters.kemKey)
    rw [hfind] at hjoin
    have henter : round.enter C = .ok [r.entered slot joiner] := by
      simp only [Round.enter, hp, hjoiner, hwelcome, hjoin, Py.map_ok]
      rfl
    exact ⟨_, hdeliver _ henter, .inr ⟨slot, joiner, rfl, hslot, hblank⟩⟩
  · have henter : round.enter C = .ok [] := by
      unfold Round.enter
      split
      · rename_i hp _ _
        rw [hp] at hnone
        cases hnone
      · rfl
    exact ⟨_, hdeliver _ henter, .inl ⟨rfl, hnone⟩⟩

end Built

/-! ## Runs -/

/-- An honest round leaves nobody out. -/
theorem Complete.round (hC : C.Correct) {round : Round} (hshared : Shared C members)
    (hcomplete : Complete C members) (hhonest : round.Honest C members)
    (hcommit : round.proposal.commit C round.sender round.coins = .ok round.committed)
    (hdeliver : round.deliver C = .ok members') : Complete C members' := by
  obtain ⟨r⟩ := Proposal.commit_eq_ok hcommit
  have hshared' := hshared.round hC (hhonest.among hcomplete) hcommit hdeliver
  have hsender := hhonest.full.sender
  have hplace := hshared.inPlace _ hsender
  obtain ⟨entrants, hmembers', hentrants⟩ := r.deliver_honest hC hshared hcomplete hhonest
  rw [hdeliver, Except.ok.injEq] at hmembers'
  subst hmembers'
  obtain ⟨others, hperm, hreceivers⟩ := hhonest.full.everyone
  have hnext : round.committed.next ∈
      round.committed.next :: round.receivers.map r.followed ++ entrants := by simp
  -- every leaf of the new tree verifies, and somebody is there for it
  have hleaves : ∀ l leaf, r.path.tree.getLeaf (2 * l) = some leaf →
      leaf.verifySignature C round.sender.state.groupId l = .ok () ∧
      ∃ b ∈ round.committed.next :: round.receivers.map r.followed ++ entrants, b.myIndex = l := by
    intro l leaf hleaf
    rw [r.getLeaf_tree hplace.onWire] at hleaf
    by_cases hl : l = round.sender.myIndex
    · rw [if_pos hl, Option.some.injEq] at hleaf
      subst hleaf
      exact ⟨(ownKeyPackage_leaf hC r.path.keyPackage_eq).2.2 _ _, _, hnext,
        r.next_myIndex.trans hl.symm⟩
    · rw [if_neg hl] at hleaf
      refine ⟨r.leavesVerify hhonest.full hcomplete l leaf hl hleaf, ?_⟩
      rw [Proposal.leafAfter] at hleaf
      by_cases hslot : round.proposal.slot round.sender.state.tree = some l
      · rw [if_pos hslot] at hleaf
        rcases hentrants with ⟨-, hnone⟩ | ⟨slot, joiner, hentrants, hslot', -⟩
        · rw [hnone] at hleaf
          cases hleaf
        · rw [hslot, Option.some.injEq] at hslot'
          exact ⟨r.entered slot joiner, by simp [hentrants], hslot'.symm⟩
      · rw [if_neg hslot] at hleaf
        obtain ⟨b, hb, rfl⟩ := hcomplete.occupied _ hsender l leaf hleaf
        have hkeeps : round.proposal.Keeps b.myIndex := by
          cases hp : round.proposal with
          | removeMember target =>
              rw [hp] at hslot
              rintro rfl
              exact hslot (congrArg some (Int.toNat_natCast _))
          | addMember kp => trivial
          | updateKey => trivial
        have hother : b ∈ others := (List.mem_cons.mp (hperm.mem_iff.mp hb)).resolve_left
          fun heq => hl (congrArg MLSGroup.myIndex heq)
        have hmem : b ∈ round.receivers := by
          rw [hreceivers, List.mem_filter, decide_eq_true_eq]
          exact ⟨hother, hkeeps⟩
        refine ⟨r.followed b, ?_, rfl⟩
        rw [List.cons_append, List.mem_cons, List.mem_append]
        exact .inr (.inl (List.mem_map_of_mem hmem))
  have htransfer : ∀ a ∈ round.committed.next :: round.receivers.map r.followed ++ entrants,
    ∀ l leaf,
      a.state.tree.getLeaf (2 * l) = some leaf → ∃ leaf', r.path.tree.getLeaf (2 * l) = some leaf' ∧
        leaf'.canon = leaf.canon := by
    intro a ha l leaf hleaf
    rw [← r.next_tree]
    exact (hshared'.agrees _ hnext a ha).getLeaf hleaf
  refine ⟨?_, fun a ha l leaf hleaf => ?_, fun a ha l leaf hleaf => ?_⟩
  · have hindices : (round.committed.next :: round.receivers.map r.followed ++ entrants).map
        MLSGroup.myIndex = (round.sender :: round.receivers).map MLSGroup.myIndex ++
          entrants.map MLSGroup.myIndex := by
      rw [List.map_append, List.map_cons, List.map_map, List.map_cons, r.next_myIndex]
      rfl
    have hnodup := (hperm.map MLSGroup.myIndex).nodup_iff.mp hcomplete.indices
    have hsub : ((round.sender :: round.receivers).map MLSGroup.myIndex).Nodup := by
      refine List.Nodup.sublist ?_ hnodup
      rw [hreceivers]
      exact (List.filter_sublist.cons_cons _).map _
    rw [hindices]
    rcases hentrants with ⟨rfl, -⟩ | ⟨slot, joiner, rfl, -, hblank⟩
    · rwa [List.map_nil, List.append_nil]
    · refine hsub.append (List.nodup_singleton _) fun l hl hl' => ?_
      rw [List.map_singleton, List.mem_singleton] at hl'
      obtain ⟨b, hb, rfl⟩ := List.mem_map.mp hl
      have hmember : b ∈ members := by
        apply hperm.mem_iff.mpr
        rw [hreceivers] at hb
        exact (List.filter_sublist.cons_cons _).subset hb
      exact hshared.index_ne hsender hmember hblank hl'
  · obtain ⟨leaf', hleaf', hcanon⟩ := htransfer a ha l leaf hleaf
    have hgroup : a.state.groupId = round.sender.state.groupId := by
      rw [(hshared'.agrees a ha _ hnext).groupId, r.next_state, r.finished.nextState_eq_mk]
      rfl
    rw [hgroup, ← LeafNode.verifySignature_canon, ← hcanon, LeafNode.verifySignature_canon]
    exact (hleaves l leaf' hleaf').1
  · obtain ⟨leaf', hleaf', -⟩ := htransfer a ha l leaf hleaf
    exact (hleaves l leaf' hleaf').2

theorem create_complete (hC : C.Correct) {groupId : Bytes} {sigKey : SignatureKey}
    {kemKey initKey : KemKey} {founder : MLSGroup}
    (h : MLSGroup.create C groupId sigKey kemKey initKey = .ok founder) : Complete C [founder] := by
  simp only [MLSGroup.create, EpochState.genesis, Py.bind_eq_ok, Py.pure_eq, Except.ok.injEq] at h
  obtain ⟨kp, hkp, tree, htree, _, -, _, -, _, ⟨_, -, rfl⟩, rfl⟩ := h
  obtain ⟨-, hnode⟩ := setLeaf_node htree
  have hleaf : ∀ l leaf, tree.getLeaf (2 * l) = some leaf → l = 0 ∧ leaf = kp.leafNode := by
    intro l leaf hleaf
    rw [getLeaf_eq_some, hnode, getNode_new] at hleaf
    split_ifs at hleaf with hl
    cases hleaf
    exact ⟨by omega, rfl⟩
  refine ⟨List.nodup_singleton _, fun a ha l leaf hget => ?_, fun a ha l leaf hget => ?_⟩
  · rw [List.mem_singleton.mp ha] at hget ⊢
    obtain ⟨rfl, rfl⟩ := hleaf l leaf hget
    exact (ownKeyPackage_leaf hC hkp).2.2 _ _
  · rw [List.mem_singleton.mp ha] at hget
    obtain ⟨rfl, -⟩ := hleaf l leaf hget
    exact ⟨_, List.mem_singleton_self _, rfl⟩

theorem Run.complete (hC : C.Correct) (h : Run C (Round.Honest C) members) :
    Shared C members ∧ Complete C members := by
  induction h with
  | create hcreate =>
      have hrun : Run C (Round.Among C) [_] := .create hcreate
      exact ⟨hrun.shared hC fun _ _ hround => hround, create_complete hC hcreate⟩
  | touch _ hi htouch ih =>
      exact ⟨ih.1.congr (map_core_set hi htouch), ih.2.congr (map_core_set hi htouch)⟩
  | round round _ hround hcommit hdeliver ih =>
      exact ⟨ih.1.round hC (hround.among ih.2) hcommit hdeliver,
        ih.2.round hC ih.1 hround hcommit hdeliver⟩

/-! ## Who holds the key of its leaf -/

namespace Built

variable {sender receiver : MLSGroup} {coins : CommitCoins} {p : Proposal} {committed : Committed}
  (r : Built C sender coins p committed)

/-- Receivers hold the keys of their leaves after a commit as they did before. -/
theorem followed_holdsKey (h : InPlace C sender) (hagree : Agrees receiver sender)
    (hne : receiver.myIndex ≠ sender.myIndex) (hkeeps : p.Keeps receiver.myIndex)
    (hkey : receiver.HoldsKey C) : (r.followed receiver).HoldsKey C := by
  obtain ⟨leaf, -, hbase, hpub⟩ := (r.follows h.onWire hagree hne hkeeps hkey).leaf
  obtain ⟨m, hm29, hm⟩ := r.base_sized h.onWire
  have htree : (r.followed receiver).state.tree = r.path.tree :=
    (congrArg (·.tree) r.next_state.symm).trans r.next_tree
  refine ⟨leaf, ?_, hpub⟩
  rw [htree]
  exact (r.path.getLeaf_other hm (by omega) hne).trans hbase

end Built

/-! ## Convergence -/

/-- In every run of honest rounds the members agree, and every further honest commit is
delivered to all of them without an exception. -/
theorem honest_runs_converge (hC : C.Correct) (h : Run C (Round.Honest C) members) :
    Converged members ∧ ∀ round : Round, round.Honest C members →
      round.proposal.commit C round.sender round.coins = .ok round.committed →
      ∃ members', round.deliver C = .ok members' := by
  obtain ⟨hshared, hcomplete⟩ := h.complete hC
  refine ⟨hshared.converged, fun round hround hcommit => ?_⟩
  obtain ⟨r⟩ := Proposal.commit_eq_ok hcommit
  obtain ⟨entrants, hdeliver, -⟩ := r.deliver_honest hC hshared hcomplete hround
  exact ⟨_, hdeliver⟩

theorem Run.mono {Allowed Allowed' : List MLSGroup → Round → Prop}
    (hsub : ∀ members round, Allowed members round → Allowed' members round)
    (h : Run C Allowed members) : Run C Allowed' members := by
  induction h with
  | create hcreate => exact .create hcreate
  | touch _ hi htouch ih => exact .touch ih hi htouch
  | round round _ hround hcommit hdeliver ih =>
      exact .round round ih (hsub _ _ hround) hcommit hdeliver

/-! ## A run of three members -/

namespace Sample

theorem refsCollisionFree {tree : RatchetTree} (h : (refs tree).Nodup) :
    RefsCollisionFree crypto tree := by
  intro i j leaf leaf' input input' hi hj hinput hinput' hhash
  by_cases hij : i = j
  · subst hij
    rw [hi, Option.some.injEq] at hj
    subst hj
    rw [hinput, Except.ok.injEq] at hinput'
    exact hinput'
  · have href : ∀ {i leaf input}, tree.getLeaf i = some leaf →
      kpRefInput leaf.keyPackage = .ok input →
        i ∈ List.range tree.nodes.length ∧ refAt tree i = some (crypto.sha256 input) := by
      intro i leaf input hleaf hinput
      refine ⟨List.mem_range.mpr (getNode_lt (getLeaf_eq_some.mp hleaf)), ?_⟩
      rw [refAt, hleaf, Option.bind_some, makeKpRef, hinput]
      rfl
    have hsymm : Std.Symm fun a a' => ∀ b, refAt tree a = some b → ∀ b', refAt tree a' = some b' →
        b ≠ b' := ⟨fun a a' hne b hb b' hb' => (hne b' hb' b hb).symm⟩
    rw [refs, List.Nodup, List.pairwise_filterMap] at h
    obtain ⟨himem, hiref⟩ := href hi hinput
    obtain ⟨hjmem, hjref⟩ := href hj hinput'
    exact absurd hhash (h.forall himem hjmem hij _ hiref _ hjref)

theorem identity_eq {member : MLSGroup} {i : ℕ} {key : SignatureKey}
    (h : identity member = (i, key, true)) :
    member.myIndex = i ∧ member.mySigKey = key ∧ member.HoldsKey crypto := by
  simp only [identity, Prod.mk.injEq, decide_eq_true_eq] at h
  obtain ⟨leaf, hleaf, hkey⟩ := Option.map_eq_some_iff.mp h.2.2
  exact ⟨h.1, h.2.1, leaf, hleaf, hkey⟩

theorem enters {members : List MLSGroup} {b : UInt8} {kp : KeyPackage} (h : keyPackage b = .ok kp)
    (hfresh : ∀ a ∈ members, a.mySigKey.publicBytes crypto ≠ (sig b).publicBytes crypto) :
    Invited crypto members kp ⟨sig b, kem b⟩ := by
  simp only [keyPackage, KeyPackage.create, LeafNode.create, LeafNode.sign, Py.bind_eq_ok,
    Py.pure_eq, Except.ok.injEq] at h
  obtain ⟨_, ⟨_, -, rfl⟩, _, -, rfl⟩ := h
  exact ⟨rfl, rfl, rfl, rfl, hfresh⟩

/-- After three honest rounds Alice, who removed Bob, cannot process Carol's update. -/
theorem stranded : ∃ (three two : List MLSGroup) (round : Round), three.length = 3 ∧
    Run crypto (Round.Honest crypto) three ∧ Run crypto (Round.Honest crypto) two ∧
    round.Full crypto two ∧
    round.proposal.commit crypto round.sender round.coins = .ok round.committed ∧
    ∀ members, round.deliver crypto ≠ .ok members := by
  obtain ⟨r, hrun⟩ := run_ok
  simp only [run, expectFault, expect, Py.bind_eq_ok, Py.pure_eq, Except.ok.injEq,
    Py.require_eq_ok] at hrun
  obtain ⟨bobPackage, hbob, carolPackage, hcarol, alice0, hcreate, ⟨alice1, welcome1, update1⟩,
    hadd, bob1, hjoin, ⟨bob2, welcome2, update2⟩, hadd', alice2, hprocess, carol2, hjoin',
    ⟨alice3, update3⟩, hremove, carol3, hprocess', ⟨carol4, update4⟩, hupdate, _, -, _, hfault, _,
    -, _, hids0, _, hids1, _, hids2, _, hids3, _, ⟨hrefs1, hrefs2, hrefs3, hrefs4⟩, -⟩ := hrun
  simp only [List.map_cons, List.map_nil, List.cons.injEq, and_true] at hids0 hids1 hids2 hids3
  have hstart : Run crypto (Round.Honest crypto) [alice0] := .create hcreate
  have hfirst : Run crypto (Round.Honest crypto) [alice1, bob1] := by
    refine .round ⟨alice0, coins 40, .addMember bobPackage, ⟨alice1, update1, some welcome1⟩, [],
      some ⟨sig 20, kem 20⟩⟩ hstart ⟨⟨⟨[], .refl _, rfl⟩, refsCollisionFree hrefs1, ?_⟩, ?_⟩ ?_ ?_
    · rintro kp ⟨⟩
      refine ⟨_, rfl, enters hbob fun a ha => ?_⟩
      rw [List.mem_singleton.mp ha, (identity_eq hids0).2.1]
      decide
    · intro receiver hmem
      cases hmem
    · simp only [Proposal.commit, hadd, Py.ok_bind]
      rfl
    · simp only [Round.deliver, Round.enter, hjoin, Py.map_ok, List.mapM_nil, Py.pure_eq,
        Py.ok_bind]
      rfl
  have hsecond : Run crypto (Round.Honest crypto) [bob2, alice2, carol2] := by
    refine .round ⟨bob1, coins 60, .addMember carolPackage, ⟨bob2, update2, some welcome2⟩,
      [alice1], some ⟨sig 21, kem 21⟩⟩ hfirst ⟨⟨⟨[alice1], .swap _ _ _, rfl⟩,
        refsCollisionFree hrefs2, ?_⟩, ?_⟩
      ?_ ?_
    · rintro kp ⟨⟩
      refine ⟨_, rfl, enters hcarol fun a ha => ?_⟩
      rcases List.mem_pair.mp ha with rfl | rfl
      · rw [(identity_eq hids1.1).2.1]
        decide
      · rw [(identity_eq hids1.2).2.1]
        decide
    · intro receiver hmem
      rw [List.mem_singleton.mp hmem]
      exact (identity_eq hids1.1).2.2
    · simp only [Proposal.commit, hadd', Py.ok_bind]
      rfl
    · simp only [Round.deliver, Round.enter, hjoin', hprocess, Py.map_ok, List.mapM_cons,
        List.mapM_nil, Py.pure_eq, Py.ok_bind]
      rfl
  have hthird : Run crypto (Round.Honest crypto) [alice3, carol3] := by
    refine .round ⟨alice2, coins 80, .removeMember 1, ⟨alice3, update3, none⟩, [carol2],
      none⟩ hsecond
      ⟨⟨⟨[bob2, carol2], .swap _ _ _, ?_⟩, refsCollisionFree hrefs3, ?_⟩, ?_⟩ ?_ ?_
    · simp [Proposal.Keeps, (identity_eq hids2.1).1, (identity_eq hids2.2.2).1]
    · rintro kp ⟨⟩
    · intro receiver hmem
      rw [List.mem_singleton.mp hmem]
      exact (identity_eq hids2.2.2).2.2
    · simp only [Proposal.commit, hremove, Py.ok_bind]
      rfl
    · simp only [Round.deliver, Round.enter, hprocess', List.mapM_cons, List.mapM_nil, Py.pure_eq,
        Py.ok_bind]
      rfl
  refine ⟨_, _, ⟨carol3, coins 120, .updateKey, ⟨carol4, update4, none⟩, [alice3], none⟩, rfl,
    hsecond, hthird, ⟨⟨[alice3], .swap _ _ _, rfl⟩, refsCollisionFree hrefs4, ?_⟩, ?_,
    fun members hdeliver => ?_⟩
  · rintro kp ⟨⟩
  · simp only [Proposal.commit, hupdate, Py.ok_bind]
    rfl
  · simp only [Round.deliver, Round.enter, List.mapM_cons, Py.fault?_eq_some.mp hfault,
      Py.error_bind]
      at hdeliver
    cases hdeliver

end Sample

/-- Alice, Bob and Carol have converged, and their next honest commit is delivered. -/
theorem honest_runs_converge_three : ∃ members : List MLSGroup, members.length = 3 ∧
    Converged members ∧ ∀ round : Round, round.Honest Sample.crypto members →
      round.proposal.commit Sample.crypto round.sender round.coins = .ok round.committed →
      ∃ members', round.deliver Sample.crypto = .ok members' := by
  obtain ⟨three, _, _, hlength, hrun, -⟩ := Sample.stranded
  exact ⟨three, hlength, honest_runs_converge Sample.correct hrun⟩

/-- A member that has removed another one is cut off from the commits that follow. -/
theorem remover_cut_off : ∃ (members : List MLSGroup) (round : Round),
    Run Sample.crypto (Round.Full Sample.crypto) members ∧ round.Full Sample.crypto members ∧
    round.proposal.commit Sample.crypto round.sender round.coins = .ok round.committed ∧
    ∀ members', round.deliver Sample.crypto ≠ .ok members' := by
  obtain ⟨_, two, round, -, -, hrun, hfull, hcommit, hfails⟩ := Sample.stranded
  exact ⟨two, round, hrun.mono fun _ _ hround => hround.full, hfull, hcommit, hfails⟩

end PureMls
