import PureMls.Verification.Followers

/-! # Rounds

A group as the list of its members' handles: one of them commits, others process the commit,
and a new member may enter. -/

namespace PureMls

open RatchetTree MLSGroup

variable {C : Crypto} {members members' : List MLSGroup}

/-! ## What calls inside an epoch leave alone -/

namespace MLSGroup

/-- The handle without its caches: what another member could tell. -/
def core (self : MLSGroup) : MLSGroup := { self with secretTree := none, consumedKeyPackages := [] }

variable {self : MLSGroup}

theorem core_left (t : Transition) : (t.left C self).core = self.core := by
  obtain ⟨consumed, hleft | hleft, -⟩ := t.left_cases C self
  · rw [hleft]
    rfl
  · rw [hleft]
    rfl

theorem core_encrypt (plaintext : Bytes) :
    (self.encryptApplicationMessage C plaintext).1.core = self.core := by
  unfold encryptApplicationMessage
  rcases self.getSecretTree.getKeyAndNonce C self.myIndex .application with ⟨st, _ | ⟨_, _, _⟩⟩ <;>
    rfl

theorem core_decrypt (payload : Bytes) :
    (self.decryptApplicationMessage C payload).1.core = self.core := by
  unfold decryptApplicationMessage
  rcases openHeader C self payload with _ | ⟨leaf, gen, ct, ad⟩
  · rfl
  · simp only
    rcases self.getSecretTree.getKeyAndNonceForGen C leaf gen .application with ⟨st, _ | ⟨_, _⟩⟩ <;>
      rfl

end MLSGroup

/-- A call that keeps the handle in its epoch: a commit whose result is dropped, a call that
raised, an application message. -/
inductive Touched (C : Crypto) (handle : MLSGroup) : MLSGroup → Prop where
  | left (t : Transition) : Touched C handle (t.left C handle)
  | encrypt (plaintext) : Touched C handle (handle.encryptApplicationMessage C plaintext).1
  | decrypt (payload) : Touched C handle (handle.decryptApplicationMessage C payload).1

theorem Touched.core_eq {handle handle' : MLSGroup} (h : Touched C handle handle') :
    handle'.core = handle.core := by
  cases h with
  | left t => exact core_left t
  | encrypt plaintext => exact core_encrypt plaintext
  | decrypt payload => exact core_decrypt payload

/-! ## Rounds and runs -/

/-- The keys with which a new member enters. -/
structure Joiner where
  sigKey : SignatureKey
  kemKey : KemKey

/-- A commit, those who process it, and who enters. -/
structure Round where
  sender : MLSGroup
  coins : CommitCoins
  proposal : Proposal
  committed : Committed
  receivers : List MLSGroup
  joiner : Option Joiner

namespace Round

/-- The new member's handle, if one enters. -/
def enter (C : Crypto) (round : Round) : Py (List MLSGroup) :=
  match round.proposal, round.joiner, round.committed.welcome with
  | .addMember _, some joiner, some welcome =>
    List.singleton <$> join C welcome joiner.sigKey joiner.kemKey [] none
  | _, _, _ => pure []

/-- The handles after the round. -/
def deliver (C : Crypto) (round : Round) : Py (List MLSGroup) := do
  let followed ← round.receivers.mapM fun member =>
    (member.processUpdate C round.committed.update).2
  let joined ← round.enter C
  pure (round.committed.next :: followed ++ joined)

/-- The sender and the receivers are members, every receiver can open what is sealed to its
leaf, and whoever enters owns the key package that was added. -/
structure Among (C : Crypto) (members : List MLSGroup) (round : Round) : Prop where
  sender : round.sender ∈ members
  receivers : ∀ receiver ∈ round.receivers, receiver ∈ members ∧
    receiver.myIndex ≠ round.sender.myIndex ∧ round.proposal.Keeps receiver.myIndex ∧
    receiver.HoldsKey C
  refs : RefsCollisionFree C round.committed.update.tree
  joiner : ∀ kp joiner, round.proposal = .addMember kp → round.joiner = some joiner →
    kp.initKeyPub = joiner.kemKey.publicBytes C

end Round

/-- The lists of handles that rounds of the allowed kind lead to. -/
inductive Run (C : Crypto) (Allowed : List MLSGroup → Round → Prop) : List MLSGroup → Prop where
  | create {groupId sigKey kemKey initKey founder} :
      MLSGroup.create C groupId sigKey kemKey initKey = .ok founder → Run C Allowed [founder]
  | touch {handles i handle handle'} : Run C Allowed handles → handles[i]? = some handle →
      Touched C handle handle' → Run C Allowed (handles.set i handle')
  | round {handles handles'} (round : Round) : Run C Allowed handles → Allowed handles round →
      round.proposal.commit C round.sender round.coins = .ok round.committed →
      round.deliver C = .ok handles' → Run C Allowed handles'

/-- A handle whose tree is a full binary tree without unmerged leaves and has a leaf with the
member's signature key at its index. -/
structure InPlace (C : Crypto) (member : MLSGroup) : Prop where
  sized : ∃ m ≤ 29, member.state.tree.Sized m
  merged : member.state.tree.Merged
  leaf : ∃ leaf, member.state.tree.getLeaf (2 * member.myIndex) = some leaf ∧
    leaf.signatureKey = member.mySigKey.publicBytes C

theorem InPlace.onWire {member : MLSGroup} (h : InPlace C member) : member.state.tree.OnWire := by
  obtain ⟨m, hm29, hm⟩ := h.sized
  exact hm.onWire hm29

/-- Members of one epoch. -/
structure Shared (C : Crypto) (members : List MLSGroup) : Prop where
  agrees : ∀ a ∈ members, ∀ b ∈ members, Agrees a b
  inPlace : ∀ a ∈ members, InPlace C a

theorem map_core_set {i : ℕ} {handle handle' : MLSGroup} (hi : members[i]? = some handle)
    (h : Touched C handle handle') : (members.set i handle').map core = members.map core := by
  rw [List.map_set, h.core_eq]
  apply List.ext_getElem?
  intro j
  rw [List.getElem?_set]
  by_cases hij : i = j
  · subst hij
    obtain ⟨hlt, -⟩ := List.getElem?_eq_some_iff.mp hi
    rw [if_pos rfl, if_pos (by rwa [List.length_map]), List.getElem?_map, hi]
    rfl
  · rw [if_neg hij]

theorem mem_of_map_core (h : members'.map core = members.map core) {a : MLSGroup}
    (ha : a ∈ members') : ∃ b ∈ members, b.core = a.core := by
  have hmem : a.core ∈ members.map core := h ▸ List.mem_map_of_mem ha
  exact List.mem_map.mp hmem

theorem Shared.congr (h : members'.map core = members.map core) (hshared : Shared C members) :
    Shared C members' := by
  have hcore : ∀ a ∈ members', ∃ b ∈ members, b.core = a.core := fun a ha => mem_of_map_core h ha
  constructor
  · intro a ha b hb
    obtain ⟨a', ha', heq⟩ := hcore a ha
    obtain ⟨b', hb', heq'⟩ := hcore b hb
    have hagree : Agrees a'.core b'.core := by
      obtain ⟨hg, he, ht, hk, hi⟩ := hshared.agrees a' ha' b' hb'
      exact ⟨hg, he, ht, hk, hi⟩
    rw [heq, heq'] at hagree
    exact ⟨hagree.groupId, hagree.epochId, hagree.tree, hagree.keySchedule, hagree.interim⟩
  · intro a ha
    obtain ⟨a', ha', heq⟩ := hcore a ha
    have hplace : InPlace C a'.core := by
      obtain ⟨hs, hm, hl⟩ := hshared.inPlace a' ha'
      exact ⟨hs, hm, hl⟩
    rw [heq] at hplace
    exact ⟨hplace.sized, hplace.merged, hplace.leaf⟩

/-! ## What a round reaches -/

namespace Built

variable {sender receiver : MLSGroup} {coins : CommitCoins} {p : Proposal} {committed : Committed}
  (r : Built C sender coins p committed)

/-- The state of somebody who enters. -/
def entered (r : Built C sender coins p committed) (slot : ℕ) (joiner : Joiner) : MLSGroup :=
  init { r.finished.nextState with tree := r.path.tree.canon } slot joiner.sigKey joiner.kemKey
    r.finished.interim

theorem followed_agrees (receiver : MLSGroup) : Agrees (r.followed receiver) committed.next := by
  have hstate : (r.followed receiver).state = committed.next.state := r.next_state.symm
  exact ⟨congrArg _ hstate, congrArg _ hstate, congrArg (·.tree.canon) hstate, congrArg _ hstate,
    r.next_interim.symm⟩

theorem entered_agrees (slot : ℕ) (joiner : Joiner) :
    Agrees (r.entered slot joiner) committed.next := by
  have hstate := r.next_state.symm
  refine ⟨congrArg (·.groupId) hstate, congrArg (·.epochId) hstate, ?_,
    congrArg (·.keySchedule) hstate, r.next_interim.symm⟩
  rw [r.next_tree]
  exact canon_canon _

include r in
theorem next_inPlace (hC : C.Correct) (h : InPlace C sender) : InPlace C committed.next := by
  obtain ⟨m, hm29, hm⟩ := r.base_sized h.onWire
  have hown := r.getLeaf_tree h.onWire sender.myIndex
  rw [if_pos rfl] at hown
  refine ⟨⟨m, hm29, ?_⟩, ?_, r.path.keyPackage.leafNode, ?_, ?_⟩
  · rw [r.next_tree]
    exact r.path.sameSize.sized hm
  · rw [r.next_tree]
    exact r.path.merged hm (by omega) (r.base_merged h.merged)
  · rw [r.next_tree, r.next_myIndex]
    exact hown
  · rw [r.next_mySigKey]
    exact (ownKeyPackage_leaf hC r.path.keyPackage_eq).2.1

/-- A member in place is followed by those who agree with it. -/
theorem processUpdate_of_inPlace (hC : C.Correct) (h : InPlace C sender)
    (hrefs : RefsCollisionFree C committed.update.tree) (hagree : Agrees receiver sender)
    (hne : receiver.myIndex ≠ sender.myIndex) (hkeeps : p.Keeps receiver.myIndex)
    (hkey : receiver.HoldsKey C) (hverify : p.LeavesVerify C sender) :
    (receiver.processUpdate C committed.update).2 = .ok (r.followed receiver) :=
  r.processUpdate_of_verifies hC h.onWire h.leaf
    (r.addressed_of_merged h.onWire h.merged (r.follows h.onWire hagree hne hkeeps hkey)) hrefs
      hagree
    hne hkeeps hkey hverify

theorem followed_inPlace (h : InPlace C sender) (hreceiver : InPlace C receiver)
    (hagree : Agrees receiver sender) (hne : receiver.myIndex ≠ sender.myIndex)
    (hkeeps : p.Keeps receiver.myIndex) : InPlace C (r.followed receiver) := by
  obtain ⟨m, hm29, hm⟩ := r.base_sized h.onWire
  obtain ⟨own, hown, hsig⟩ := hreceiver.leaf
  obtain ⟨leaf, hleaf, hcanon⟩ := hagree.symm.getLeaf hown
  have htree : (r.followed receiver).state.tree = r.path.tree :=
    (congrArg (·.tree) r.next_state.symm).trans r.next_tree
  refine ⟨⟨m, hm29, ?_⟩, ?_, leaf, ?_, ?_⟩
  · rw [htree]
    exact r.path.sameSize.sized hm
  · rw [htree]
    exact r.path.merged hm (by omega) (r.base_merged h.merged)
  · rw [htree]
    have hget := r.getLeaf_tree h.onWire receiver.myIndex
    rw [if_neg hne, r.leafAfter_of_keeps h.onWire hleaf hkeeps] at hget
    exact hget
  · have hsame := congrArg LeafNode.signatureKey hcanon
    exact hsame.trans hsig

theorem entered_inPlace (h : InPlace C sender) {slot : ℕ} {joiner : Joiner}
    (hslot : findOwnLeaf r.path.tree (joiner.sigKey.publicBytes C) = some slot) :
    InPlace C (r.entered slot joiner) := by
  obtain ⟨m, hm29, hm⟩ := r.base_sized h.onWire
  obtain ⟨⟨leaf, hleaf, hkey⟩, -⟩ := findOwnLeaf_eq_some.mp hslot
  have hsized := r.path.sameSize.sized hm
  have hmerged' := r.path.merged hm (by omega) (r.base_merged h.merged)
  refine ⟨⟨m, hm29, hsized.1, (length_canon _).trans hsized.2⟩, fun i parent hi => ?_, leaf.canon,
    ?_, hkey⟩
  · change r.path.tree.canon.getNode i = _ at hi
    rw [getNode_canon] at hi
    obtain ⟨node, hnode, hcanon⟩ := Option.map_eq_some_iff.mp hi
    cases node with
    | leaf node => cases hcanon
    | parent node =>
        cases hcanon
        exact hmerged' i parent hnode
  · change r.path.tree.canon.getLeaf (2 * slot) = _
    rw [getLeaf_canon, hleaf]
    rfl

/-- Whoever enters with the init key of the key package that was added reaches `entered`. -/
theorem enter_eq (hC : C.Correct) (h : sender.state.tree.OnWire) {kp : KeyPackage}
    {welcome : Welcome} {joiner : Joiner} (hp : p = .addMember kp)
    (hwelcome : committed.welcome = some welcome)
    (hinit : kp.initKeyPub = joiner.kemKey.publicBytes C) :
    join C welcome joiner.sigKey joiner.kemKey [] none =
      match findOwnLeaf r.path.tree (joiner.sigKey.publicBytes C) with
      | none => .error (.valueError "My leaf not found in GroupInfo tree — mismatched identity key")
      | some slot => .ok (r.entered slot joiner) := by
  obtain ⟨m, hm29, hm⟩ := r.base_sized h
  obtain ⟨-, welcome', hwelcome', hbuild⟩ := r.welcome_eq kp hp
  rw [hwelcome, Option.some.injEq] at hwelcome'
  subst hwelcome'
  exact join_of_welcome hC r.path r.finished hm (by omega) hbuild joiner.sigKey hinit

end Built

namespace Round

variable {round : Round}

/-- Somebody enters a round in which somebody is added; else nobody does. -/
theorem mem_enter {joined : List MLSGroup} {entrant : MLSGroup} (h : round.enter C = .ok joined)
    (hmem : entrant ∈ joined) : ∃ kp joiner welcome, round.proposal = .addMember kp ∧
      round.joiner = some joiner ∧ round.committed.welcome = some welcome ∧
      join C welcome joiner.sigKey joiner.kemKey [] none = .ok entrant := by
  unfold enter at h
  split at h
  · rename_i kp joiner welcome hp hj hw
    obtain ⟨entrant', hjoin, rfl⟩ := Py.map_eq_ok.mp h
    rw [List.singleton, List.mem_singleton] at hmem
    subst hmem
    exact ⟨kp, joiner, welcome, hp, hj, hw, hjoin⟩
  · simp only [Py.pure_eq, Except.ok.injEq] at h
    subst h
    cases hmem

end Round

/-- What one handle of the group after a round is. -/
theorem Round.mem_deliver (hC : C.Correct) {round : Round} (hshared : Shared C members)
    (hamong : round.Among C members)
    (r : Built C round.sender round.coins round.proposal round.committed)
    (hdeliver : round.deliver C = .ok members') {a : MLSGroup} (ha : a ∈ members') :
    a = round.committed.next ∨ (∃ receiver ∈ round.receivers, a = r.followed receiver) ∨
      ∃ kp joiner slot, round.proposal = .addMember kp ∧ round.joiner = some joiner ∧
        findOwnLeaf r.path.tree (joiner.sigKey.publicBytes C) = some slot ∧
          a = r.entered slot joiner := by
  simp only [deliver, Py.bind_eq_ok, Py.pure_eq, Except.ok.injEq] at hdeliver
  obtain ⟨followed, hfollowed, joined, hjoined, rfl⟩ := hdeliver
  have hplace := hshared.inPlace _ hamong.sender
  rw [List.cons_append, List.mem_cons, List.mem_append] at ha
  rcases ha with rfl | ha | ha
  · exact .inl rfl
  · obtain ⟨receiver, hreceiver, hnext⟩ := mem_of_mapM hfollowed ha
    obtain ⟨hmem, hne, hkeeps, hkey⟩ := hamong.receivers receiver hreceiver
    have hagree := hshared.agrees receiver hmem _ hamong.sender
    have hverify := r.verifies_of_processUpdate hC hplace.onWire hagree.groupId hnext
    have hfollow := r.processUpdate_of_inPlace hC hplace hamong.refs hagree hne hkeeps hkey hverify
    rw [hfollow, Except.ok.injEq] at hnext
    exact .inr (.inl ⟨receiver, hreceiver, hnext.symm⟩)
  · obtain ⟨kp, joiner, welcome, hp, hj, hw, hjoin⟩ := mem_enter hjoined ha
    rw [r.enter_eq hC hplace.onWire hp hw (hamong.joiner kp joiner hp hj)] at hjoin
    cases hslot : findOwnLeaf r.path.tree (joiner.sigKey.publicBytes C) with
    | none =>
        rw [hslot] at hjoin
        cases hjoin
    | some slot =>
        rw [hslot] at hjoin
        exact .inr (.inr ⟨kp, joiner, slot, hp, hj, hslot, (Except.ok.inj hjoin).symm⟩)

/-- A round takes members that share an epoch to members that share the next. -/
theorem Shared.round (hC : C.Correct) {round : Round} (hshared : Shared C members)
    (hamong : round.Among C members)
    (hcommit : round.proposal.commit C round.sender round.coins = .ok round.committed)
    (hdeliver : round.deliver C = .ok members') : Shared C members' := by
  obtain ⟨r⟩ := Proposal.commit_eq_ok hcommit
  have hplace := hshared.inPlace _ hamong.sender
  have hall : ∀ a ∈ members', Agrees a round.committed.next ∧ InPlace C a := by
    intro a ha
    rcases Round.mem_deliver hC hshared hamong r hdeliver ha with
      rfl | ⟨receiver, hreceiver, rfl⟩ | ⟨kp, joiner, slot, hp, hj, hslot, rfl⟩
    · exact ⟨.refl _, r.next_inPlace hC hplace⟩
    · obtain ⟨hmem, hne, hkeeps, -⟩ := hamong.receivers receiver hreceiver
      exact ⟨r.followed_agrees receiver, r.followed_inPlace hplace (hshared.inPlace _ hmem)
        (hshared.agrees _ hmem _ hamong.sender) hne hkeeps⟩
    · exact ⟨r.entered_agrees slot joiner, r.entered_inPlace hplace hslot⟩
  exact ⟨fun a ha b hb => (hall a ha).1.trans (hall b hb).1.symm, fun a ha => (hall a ha).2⟩

theorem create_inPlace (hC : C.Correct) {groupId : Bytes} {sigKey : SignatureKey}
    {kemKey initKey : KemKey} {founder : MLSGroup}
    (h : MLSGroup.create C groupId sigKey kemKey initKey = .ok founder) : InPlace C founder := by
  simp only [MLSGroup.create, EpochState.genesis, Py.bind_eq_ok, Py.pure_eq, Except.ok.injEq] at h
  obtain ⟨kp, hkp, tree, htree, _, -, _, -, _, ⟨_, -, rfl⟩, rfl⟩ := h
  obtain ⟨hsize, hnode⟩ := setLeaf_node htree
  refine ⟨⟨0, by decide, hsize.sized (sized_new 0)⟩, fun i parent hi => ?_, kp.leafNode, ?_,
    (ownKeyPackage_leaf hC hkp).2.1⟩
  · change tree.getNode i = _ at hi
    rw [hnode, getNode_new] at hi
    split_ifs at hi
    cases hi
  · exact getLeaf_eq_some.mpr ((hnode 0).trans (if_pos rfl))

/-- Whatever rounds there are, the members share an epoch. -/
theorem Run.shared (hC : C.Correct) {Allowed : List MLSGroup → Round → Prop}
    (hallowed : ∀ members round, Allowed members round → round.Among C members)
    (h : Run C Allowed members) : Shared C members := by
  induction h with
  | create hcreate =>
      refine ⟨fun a ha b hb => ?_, fun a ha => ?_⟩
      · rw [List.mem_singleton.mp ha, List.mem_singleton.mp hb]
        exact .refl _
      · rw [List.mem_singleton.mp ha]
        exact create_inPlace hC hcreate
  | touch _ hi htouch ih => exact ih.congr (map_core_set hi htouch)
  | round round _ hround hcommit hdeliver ih =>
      exact ih.round hC (hallowed _ _ hround) hcommit hdeliver

end PureMls
