import PureMls.Foundation.InOrder
import PureMls.Verification.Convergence
import PureMls.Verification.Persistence

/-! # Members in different epochs

The commits stand in a log, and every member processes them when they reach it: late, again, out of
turn, before or after a restart. -/

namespace PureMls

open RatchetTree MLSGroup

variable {C : Crypto}

/-! ## What the wire can tell of a handle -/

namespace SameMember

variable {here there : MLSGroup}

/-- What is loaded from a dump is the same member. -/
theorem of_loaded {consumed : List Bytes} (h : here =
      { init ⟨there.state.groupId, there.state.epochId, there.state.tree.canon,
      there.state.keySchedule⟩
      there.myIndex there.mySigKey there.myKemKey there.interimTranscriptHash with
      consumedKeyPackages := consumed }) : SameMember here there := by
  subst h
  exact ⟨⟨rfl, rfl, canon_canon _, rfl, rfl⟩, rfl, rfl, rfl⟩

theorem getLeaf (h : SameMember here there) {leaf : LeafNode}
    (hleaf : there.state.tree.getLeaf (2 * there.myIndex) = some leaf) :
    ∃ leaf', here.state.tree.getLeaf (2 * here.myIndex) = some leaf' ∧
    leaf'.canon = leaf.canon := by
  rw [h.myIndex]
  exact h.agrees.getLeaf hleaf

theorem inPlace (h : SameMember here there) (hplace : InPlace C there) : InPlace C here := by
  obtain ⟨⟨m, hm, hsized⟩, hmerged, leaf, hleaf, hkey⟩ := hplace
  have hlen := congrArg (·.nodes.length) h.agrees.tree
  simp only [length_canon] at hlen
  refine ⟨⟨m, hm, ?_, hlen.trans hsized.2⟩, fun i parent hi => ?_, ?_⟩
  · have hleaves := congrArg (·.numLeaves) h.agrees.tree
    exact hleaves.trans hsized.1
  · have hnode := congrArg (·.getNode i) h.agrees.tree
    simp only [getNode_canon, hi, Option.map_some, Node.canon_parent] at hnode
    obtain ⟨node, hnode, hcanon⟩ := Option.map_eq_some_iff.mp hnode.symm
    cases node with
    | leaf node => cases hcanon
    | parent node =>
        cases hcanon
        exact hmerged i parent hnode
  · obtain ⟨leaf', hleaf', hcanon⟩ := h.getLeaf hleaf
    have hsame := congrArg LeafNode.signatureKey hcanon
    refine ⟨leaf', hleaf', ?_⟩
    rw [h.mySigKey]
    exact hsame.trans hkey

theorem holdsKey (h : SameMember here there) (hkey : there.HoldsKey C) : here.HoldsKey C := by
  obtain ⟨leaf, hleaf, hpub⟩ := hkey
  obtain ⟨leaf', hleaf', hcanon⟩ := h.getLeaf hleaf
  have hsame := congrArg LeafNode.encryptionKey hcanon
  refine ⟨leaf', hleaf', ?_⟩
  rw [h.myKemKey]
  exact hsame.trans hpub

end SameMember

theorem MLSGroup.sameMember_of_core {here there : MLSGroup} (h : here.core = there.core) :
    SameMember here there := by
  have hstate : here.state = there.state := congrArg (·.state) h
  exact ⟨⟨by rw [hstate], by rw [hstate], by rw [hstate], by rw [hstate],
    congrArg (·.interimTranscriptHash) h⟩, congrArg (·.myIndex) h, congrArg (·.mySigKey) h,
    congrArg (·.myKemKey) h⟩

/-! ## The log and the handles -/

/-- A commit in the log, and the call that made it. -/
structure Taken where
  sender : MLSGroup
  coins : CommitCoins
  proposal : Proposal
  committed : Committed

namespace Taken

/-- The call succeeded, the references of its tree are those of different leaves, and a key package
that it adds says that it is one. -/
structure Proper (C : Crypto) (entry : Taken) : Prop where
  commit : entry.proposal.commit C entry.sender entry.coins = .ok entry.committed
  refs : RefsCollisionFree C entry.committed.update.tree
  source : ∀ kp, entry.proposal = .addMember kp →
    kp.leafNode.leafNodeSource = leafNodeSourceKeyPackage

/-- The member at leaf `l` is to process the commit: it did not make it, and stays. -/
structure For (entry : Taken) (l : ℕ) : Prop where
  other : l ≠ entry.sender.myIndex
  keeps : entry.proposal.Keeps l

end Taken

/-- The commits that count, in order, and the handles of the members, some of them behind. The
founder is kept as a reference. -/
structure Net where
  founder : MLSGroup
  log : List Taken
  handles : List MLSGroup

namespace Net

/-- The handle that the `k`-th epoch began with: the founder's, or that of the committer. -/
def opener (net : Net) (k : ℕ) : Option MLSGroup :=
  (net.founder :: net.log.map fun entry => entry.committed.next)[k]?

/-- What may happen at any time. -/
inductive Step (C : Crypto) (net : Net) : Net → Prop where
  /-- A commit on the last epoch is taken into the log. -/
  | take {i : ℕ} (entry : Taken) : net.handles[i]? = some entry.sender →
      entry.sender.state.epochId = net.log.length → entry.Proper C →
      Step C net ⟨net.founder, net.log ++ [entry], net.handles.set i entry.committed.next⟩
  /-- A new member enters by a Welcome in the log, however old. -/
  | enter {k : ℕ} {kp welcome entrant} {entry : Taken} (joiner : Joiner) :
      net.log[k]? = some entry →
      entry.proposal = .addMember kp → entry.committed.welcome = some welcome →
      kp.initKeyPub = joiner.kemKey.publicBytes C →
      join C welcome joiner.sigKey joiner.kemKey [] none = .ok entrant →
      Step C net { net with handles := net.handles ++ [entrant] }
  /-- A member accepts what carries a commit of the log. -/
  | accept {i k : ℕ} {handle update next} {entry : Taken} : net.handles[i]? = some handle →
      net.log[k]? = some entry → SameCommit update entry.committed.update →
        entry.For handle.myIndex →
      handle.HoldsKey C → (handle.processUpdate C update).2 = .ok next →
      Step C net { net with handles := net.handles.set i next }
  /-- A commit whose result is dropped, a call that raises, an application message. -/
  | touch {i : ℕ} {handle handle' : MLSGroup} : net.handles[i]? = some handle →
      Touched C handle handle' → Step C net { net with handles := net.handles.set i handle' }
  /-- A member restarts from a dump of its handle. -/
  | reload {i : ℕ} {handle handle' : MLSGroup} : net.handles[i]? = some handle →
      Transition.run C handle .reload = .ok handle' →
      Step C net { net with handles := net.handles.set i handle' }

inductive Reachable (C : Crypto) : Net → Prop where
  | create {groupId sigKey kemKey initKey founder} :
      MLSGroup.create C groupId sigKey kemKey initKey = .ok founder →
      Reachable C ⟨founder, [], [founder]⟩
  | step {net net'} : Reachable C net → Step C net net' → Reachable C net'

end Net

/-! ## Every handle is a copy of the one that began its epoch -/

/-- A handle that other members may copy: its leaves verify wherever the tree goes, and its secrets
have the size that a dump gives them. -/
structure Opens (C : Crypto) (group : Bytes) (k : ℕ) (opener : MLSGroup) : Prop where
  groupId : opener.state.groupId = group
  epochId : opener.state.epochId = k
  inPlace : InPlace C opener
  verifies : ∀ l leaf, opener.state.tree.getLeaf (2 * l) = some leaf →
    leaf.verifySignature C group l = .ok ()
  secrets : ∀ s ∈ opener.state.keySchedule.secrets, s.length = 32

/-- A handle is in place and agrees with the one that began its epoch. -/
structure Net.Follows (C : Crypto) (net : Net) (handle : MLSGroup) : Prop where
  inPlace : InPlace C handle
  opener : ∃ opener, net.opener handle.state.epochId = some opener ∧ Agrees handle opener

structure Net.Consistent (C : Crypto) (net : Net) : Prop where
  opens : ∀ k (opener : MLSGroup), net.opener k = some opener →
    Opens C net.founder.state.groupId k opener
  built : ∀ k (entry : Taken), net.log[k]? = some entry →
    entry.Proper C ∧ entry.sender.state.epochId = k ∧ net.Follows C entry.sender
  handles : ∀ handle ∈ net.handles, net.Follows C handle

theorem KeySchedule.derive_secrets (hC : C.Correct) {initSecret commitSecret ctx : Bytes}
    {pskList : List (PreSharedKeyID × Bytes)} {ks : KeySchedule}
    (h : KeySchedule.derive C initSecret commitSecret ctx pskList = .ok ks) :
    ∀ s ∈ ks.secrets, s.length = 32 := by
  have htail := KeySchedule.derive_sizes hC h
  obtain ⟨⟨epochSecret, joinerSecret⟩, hsecrets, hks⟩ := Py.bind_eq_ok.mp h
  obtain ⟨_, -, hjoiner, -⟩ := deriveEpochSecret_eq_ok hsecrets
  have hhead : ks.joinerSecret = joinerSecret := by
    simp only [fromEpochSecret, Py.bind_eq_ok, Py.pure_eq, Except.ok.injEq] at hks
    obtain ⟨_, -, _, -, _, -, _, -, _, -, _, -, _, -, _, -, _, -, rfl⟩ := hks
    rfl
  intro s hs
  rcases List.mem_cons.mp hs with rfl | hs
  · rw [hhead]
    exact length_expandWithLabel hC hjoiner
  · exact htail s hs

theorem create_opens (hC : C.Correct) {groupId : Bytes} {sigKey : SignatureKey}
    {kemKey initKey : KemKey} {founder : MLSGroup}
    (h : MLSGroup.create C groupId sigKey kemKey initKey = .ok founder) :
    Opens C founder.state.groupId 0 founder := by
  obtain ⟨_, _, _, ks, -, -, hks, hfounder⟩ := create_eq_ok h
  refine ⟨rfl, by rw [hfounder]; rfl, create_inPlace hC h, fun l leaf hleaf => ?_, ?_⟩
  · exact (create_complete hC h).verifies founder List.mem_cons_self l leaf hleaf
  · rw [hfounder]
    exact KeySchedule.derive_secrets hC hks

namespace Taken

variable {entry : Taken} {opener handle : MLSGroup} {group : Bytes} {k : ℕ}

/-- All leaves verify after the proposal if those did that were there before it. -/
theorem leavesVerify (r : Built C entry.sender entry.coins entry.proposal entry.committed)
    (hproper : entry.Proper C) (hopens : Opens C group k opener)
    (hagree : Agrees entry.sender opener) : entry.proposal.LeavesVerify C entry.sender := by
  intro l leaf hne hleaf
  rw [Proposal.leafAfter] at hleaf
  split_ifs at hleaf with hslot
  · cases hp : entry.proposal with
    | addMember kp =>
        rw [hp, Proposal.leaf, Option.some.injEq] at hleaf
        subst hleaf
        obtain ⟨_, hverify, -⟩ := Py.bind_eq_ok.mp (r.welcome_eq kp hp).1
        rw [LeafNode.verifySignature_place (hproper.source kp hp) _ [] l 0]
        exact hverify
    | removeMember target =>
        rw [hp] at hleaf
        cases hleaf
    | updateKey =>
        rw [hp] at hleaf
        cases hleaf
  · obtain ⟨leaf', hleaf', hcanon⟩ := hagree.symm.getLeaf hleaf
    rw [hagree.groupId, hopens.groupId, ← LeafNode.verifySignature_canon, ← hcanon,
      LeafNode.verifySignature_canon]
    exact hopens.verifies l leaf' hleaf'

/-- The committer's new handle begins the next epoch. -/
theorem opens (hC : C.Correct) (hproper : entry.Proper C) (hplace : InPlace C entry.sender)
    (hopens : Opens C group k opener) (hagree : Agrees entry.sender opener) :
    Opens C group (k + 1) entry.committed.next := by
  obtain ⟨r⟩ := Proposal.commit_eq_ok hproper.commit
  have hverify := leavesVerify r hproper hopens hagree
  have hgroup : entry.sender.state.groupId = group := hagree.groupId.trans hopens.groupId
  have hstate : entry.committed.next.state.groupId = group ∧
      entry.committed.next.state.epochId = k + 1 := by
    rw [r.next_state, r.finished.nextState_eq_mk]
    exact ⟨hgroup, congrArg (· + 1) (hagree.epochId.trans hopens.epochId)⟩
  refine ⟨hstate.1, hstate.2, r.next_inPlace hC hplace, fun l leaf hleaf => ?_, ?_⟩
  · rw [r.next_tree, r.getLeaf_tree hplace.onWire] at hleaf
    split_ifs at hleaf with hl
    · cases hleaf
      exact (ownKeyPackage_leaf hC r.path.keyPackage_eq).2.2 _ _
    · rw [← hgroup]
      exact hverify l leaf hl hleaf
  · obtain ⟨ks, hks, hnext⟩ := Py.bind_eq_ok.mp r.finished.nextState_eq
    rw [r.next_state, ← Except.ok.inj hnext]
    exact KeySchedule.derive_secrets hC hks

/-- A member of the epoch follows the commit, in whatever form it arrives. -/
theorem followed (hC : C.Correct) (hproper : entry.Proper C) (hplace : InPlace C entry.sender)
    (hopens : Opens C group k opener) (hagree : Agrees entry.sender opener)
    (hhandle : InPlace C handle) (hsame : Agrees handle opener) (hfor : entry.For handle.myIndex)
    (hkey : handle.HoldsKey C) {update : GroupUpdate}
    (hupdate : SameCommit update entry.committed.update) :
    ∃ next, (handle.processUpdate C update).2 = .ok next ∧ Agrees next entry.committed.next ∧
      InPlace C next ∧ next.HoldsKey C ∧ next.myIndex = handle.myIndex := by
  obtain ⟨r⟩ := Proposal.commit_eq_ok hproper.commit
  have hagree' := hsame.trans hagree.symm
  have hnext := r.processUpdate_of_inPlace hC hplace hproper.refs hagree' hfor.other hfor.keeps hkey
    (leavesVerify r hproper hopens hagree)
  have hcongr := processUpdateBody_congr (C := C) (.refl handle) hupdate
  rw [processUpdate_snd] at hnext ⊢
  rw [hnext] at hcongr
  obtain ⟨next, hbody, hcanon⟩ := Py.map_eq_ok.mp hcongr
  have hfollowed : SameMember next (r.followed handle) := .of_canonTree hcanon
  exact ⟨next, hbody, hfollowed.agrees.trans (r.followed_agrees handle),
    hfollowed.inPlace (r.followed_inPlace hplace hhandle hagree' hfor.other hfor.keeps),
    hfollowed.holdsKey (r.followed_holdsKey hplace hagree' hfor.other hfor.keeps hkey),
    hfollowed.myIndex⟩

end Taken

/-! ## No step parts the members of an epoch -/

namespace Net

variable {net net' : Net} {handle handle' : MLSGroup}

/-- The reference of an epoch stays when the log grows. -/
theorem opener_append {k : ℕ} {opener : MLSGroup} (entry : Taken) (handles : List MLSGroup)
    (h : net.opener k = some opener) :
    (⟨net.founder, net.log ++ [entry], handles⟩ : Net).opener k = some opener := by
  obtain ⟨hlt, -⟩ := List.getElem?_eq_some_iff.mp h
  rw [Net.opener, List.map_append, ← List.cons_append, List.getElem?_append_left hlt]
  exact h

theorem opener_succ {k : ℕ} {entry : Taken} (h : net.log[k]? = some entry) :
    net.opener (k + 1) = some entry.committed.next := by
  rw [opener, List.getElem?_cons_succ, List.getElem?_map, h]
  rfl

theorem opener_lt {k : ℕ} {opener : MLSGroup} (h : net.opener k = some opener) :
    k ≤ net.log.length := by
  obtain ⟨hlt, -⟩ := List.getElem?_eq_some_iff.mp h
  simpa [Nat.lt_succ_iff] using hlt

theorem Follows.append (h : net.Follows C handle) (entry : Taken) (handles : List MLSGroup) :
    (⟨net.founder, net.log ++ [entry], handles⟩ : Net).Follows C handle := by
  obtain ⟨hplace, opener, hopener, hagree⟩ := h
  exact ⟨hplace, opener, opener_append entry handles hopener, hagree⟩

/-- A handle of the same member in the same state follows as well. -/
theorem Follows.same (h : net.Follows C handle) (hsame : SameMember handle' handle) :
    net.Follows C handle' := by
  obtain ⟨hplace, opener, hopener, hagree⟩ := h
  refine ⟨hsame.inPlace hplace, opener, ?_, hsame.agrees.trans hagree⟩
  rw [hsame.agrees.epochId]
  exact hopener

/-- What agrees with the committer's new handle follows. -/
theorem Consistent.follows_next (h : net.Consistent C) {k : ℕ} {entry : Taken}
    (hlog : net.log[k]? = some entry) (hplace : InPlace C handle)
    (hagree : Agrees handle entry.committed.next) : net.Follows C handle := by
  have hopener := opener_succ hlog
  refine ⟨hplace, _, ?_, hagree⟩
  rw [hagree.epochId, (h.opens _ _ hopener).epochId]
  exact hopener

theorem Consistent.set (h : net.Consistent C) (i : ℕ) (hfollows : net.Follows C handle) :
    Consistent C { net with handles := net.handles.set i handle } := by
  refine ⟨h.opens, fun k entry hlog => ?_, fun a ha => ?_⟩
  · obtain ⟨hproper, hepoch, hplace, hopener⟩ := h.built k entry hlog
    exact ⟨hproper, hepoch, hplace, hopener⟩
  · have hall : net.Follows C a := by
      rcases List.mem_or_eq_of_mem_set ha with ha | rfl
      · exact h.handles a ha
      · exact hfollows
    exact ⟨hall.inPlace, hall.opener⟩

/-- What `followed` needs of a handle and an entry of the log. -/
theorem Consistent.followed (hC : C.Correct) (h : net.Consistent C)
    (hfollows : net.Follows C handle) {k : ℕ} {entry : Taken} (hlog : net.log[k]? = some entry)
    (hepoch : handle.state.epochId = k) (hfor : entry.For handle.myIndex) (hkey : handle.HoldsKey C)
    {update : GroupUpdate} (hupdate : SameCommit update entry.committed.update) :
    ∃ next, (handle.processUpdate C update).2 = .ok next ∧ Agrees next entry.committed.next ∧
      net.Follows C next ∧ next.HoldsKey C ∧ next.myIndex = handle.myIndex := by
  obtain ⟨hproper, hsender, hplace, opener, hopener, hagree⟩ := h.built k entry hlog
  obtain ⟨hhandle, opener', hopener', hsame⟩ := hfollows
  rw [hepoch] at hopener'
  rw [hsender, hopener', Option.some.injEq] at hopener
  subst hopener
  obtain ⟨next, hnext, hagree', hplace', hkey', hindex⟩ :=
    entry.followed hC hproper hplace (h.opens k opener' hopener') hagree hhandle hsame hfor hkey
      hupdate
  exact ⟨next, hnext, hagree', h.follows_next hlog hplace' hagree', hkey', hindex⟩

/-- A commit of another epoch is refused, and the handle stays as it is. -/
theorem Consistent.refused (h : net.Consistent C) (hfollows : net.Follows C handle) {k : ℕ}
    {entry : Taken} (hlog : net.log[k]? = some entry) (hepoch : handle.state.epochId ≠ k)
    {update : GroupUpdate} (hupdate : SameCommit update entry.committed.update) :
    handle.processUpdate C update = (handle, .error (.valueError "Out of order update")) := by
  obtain ⟨hproper, hsender, -, opener, hopener, hagree⟩ := h.built k entry hlog
  obtain ⟨-, opener', hopener', hagree'⟩ := hfollows
  obtain ⟨r⟩ := Proposal.commit_eq_ok hproper.commit
  have hgroup : update.groupId = handle.state.groupId := by
    rw [hupdate.groupId, r.update_eq, hagree'.groupId, (h.opens _ _ hopener').groupId,
      ← (h.opens _ _ hopener).groupId, ← hagree.groupId]
    rfl
  have hother : update.epochId ≠ handle.state.epochId + 1 := by
    have hupdateEpoch : update.epochId = entry.sender.state.epochId + 1 := by
      rw [hupdate.epochId, r.update_eq]
      rfl
    omega
  have hbody : processUpdateBody C handle update = .error (.valueError "Out of order update") := by
    simp only [processUpdateBody, checkUpdate, Py.require, hgroup, if_true, if_neg hother,
      Py.ok_bind, Py.error_bind]
  rw [processUpdate, hbody]

theorem Consistent.take (hC : C.Correct) (h : net.Consistent C) {i : ℕ} {entry : Taken}
    (hi : net.handles[i]? = some entry.sender) (hhead : entry.sender.state.epochId = net.log.length)
    (hproper : entry.Proper C) : Consistent C
      ⟨net.founder, net.log ++ [entry], net.handles.set i entry.committed.next⟩ := by
  have hsender := h.handles _ (List.mem_of_getElem? hi)
  obtain ⟨hplace, opener, hopener, hagree⟩ := id hsender
  have hnext := entry.opens hC hproper hplace (h.opens _ _ hopener) hagree
  have hlog : ∀ k entry', (net.log ++ [entry])[k]? = some entry' →
      net.log[k]? = some entry' ∨ k = net.log.length ∧ entry' = entry := by
    intro k entry' hk
    rcases lt_trichotomy k net.log.length with hlt | rfl | hgt
    · rw [List.getElem?_append_left hlt] at hk
      exact .inl hk
    · rw [List.getElem?_concat_length, Option.some.injEq] at hk
      exact .inr ⟨rfl, hk.symm⟩
    · rw [List.getElem?_eq_none (by rw [List.length_append, List.length_singleton]; omega)] at hk
      cases hk
  refine ⟨fun k ref hk => ?_, fun k entry' hk => ?_, fun a ha => ?_⟩
  · cases k with
    | zero => exact h.opens 0 ref hk
    | succ k =>
        rw [Net.opener, List.getElem?_cons_succ, List.getElem?_map] at hk
        obtain ⟨entry', hentry', rfl⟩ := Option.map_eq_some_iff.mp hk
        rcases hlog k entry' hentry' with hold | ⟨rfl, rfl⟩
        · exact h.opens _ _ (opener_succ hold)
        · rw [← hhead]
          exact hnext
  · rcases hlog k entry' hk with hold | ⟨rfl, rfl⟩
    · obtain ⟨hproper', hepoch, hfollows⟩ := h.built k entry' hold
      exact ⟨hproper', hepoch, hfollows.append entry _⟩
    · exact ⟨hproper, hhead, hsender.append entry' _⟩
  · rcases List.mem_or_eq_of_mem_set ha with ha | rfl
    · exact (h.handles a ha).append entry _
    · refine ⟨hnext.inPlace, _, ?_, .refl _⟩
      rw [hnext.epochId, hhead]
      exact opener_succ List.getElem?_concat_length

/-- Whoever enters agrees with the committer. -/
theorem Consistent.entrant (hC : C.Correct) (h : net.Consistent C) {k : ℕ} {entry : Taken}
    {kp : KeyPackage} {welcome : Welcome} {joiner : Joiner} {entrant : MLSGroup}
    (hlog : net.log[k]? = some entry) (hp : entry.proposal = .addMember kp)
    (hwelcome : entry.committed.welcome = some welcome)
    (hinit : kp.initKeyPub = joiner.kemKey.publicBytes C)
    (hjoin : join C welcome joiner.sigKey joiner.kemKey [] none = .ok entrant) :
    net.Follows C entrant ∧ entrant.state.epochId = k + 1 := by
  obtain ⟨hproper, -, hplace, -⟩ := h.built k entry hlog
  obtain ⟨r⟩ := Proposal.commit_eq_ok hproper.commit
  rw [r.enter_eq hC hplace.onWire hp hwelcome hinit] at hjoin
  cases hslot : findOwnLeaf r.path.tree (joiner.sigKey.publicBytes C) with
  | none =>
      rw [hslot] at hjoin
      cases hjoin
  | some slot =>
      rw [hslot, Except.ok.injEq] at hjoin
      subst hjoin
      have hagree := r.entered_agrees slot joiner
      exact ⟨h.follows_next hlog (r.entered_inPlace hplace hslot) hagree,
        hagree.epochId.trans (h.opens _ _ (opener_succ hlog)).epochId⟩

theorem Consistent.enter (h : net.Consistent C) {entrant : MLSGroup}
    (hentrant : net.Follows C entrant) :
    Consistent C { net with handles := net.handles ++ [entrant] } := by
  refine ⟨h.opens, fun k entry hk => ?_, fun a ha => ?_⟩
  · obtain ⟨hproper, hepoch, hplace, hopener⟩ := h.built k entry hk
    exact ⟨hproper, hepoch, hplace, hopener⟩
  · rcases List.mem_append.mp ha with ha | ha
    · exact ⟨(h.handles a ha).inPlace, (h.handles a ha).opener⟩
    · rw [List.mem_singleton.mp ha]
      exact ⟨hentrant.inPlace, hentrant.opener⟩

/-- A restart leaves the member what it was. -/
theorem Consistent.reloaded (h : net.Consistent C) (hfollows : net.Follows C handle)
    (hreload : Transition.run C handle .reload = .ok handle') : SameMember handle' handle := by
  obtain ⟨data, hdump, hload⟩ := Py.bind_eq_ok.mp hreload
  obtain ⟨hplace, opener, hopener, hagree⟩ := hfollows
  have hsecrets : ∀ s ∈ handle.state.keySchedule.secrets, s.length = 32 := by
    rw [hagree.keySchedule]
    exact (h.opens _ _ hopener).secrets
  obtain ⟨next, hnext, -, heq⟩ := fromBytes_toBytes hdump hplace.onWire hsecrets
  rw [hnext, Except.ok.injEq] at hload
  subst hload
  exact .of_loaded heq

theorem Consistent.step (hC : C.Correct) (h : net.Consistent C) (hstep : Step C net net') :
    net'.Consistent C := by
  cases hstep with
  | take entry hi hhead hproper => exact h.take hC hi hhead hproper
  | enter joiner hlog hp hwelcome hinit hjoin =>
      exact h.enter (h.entrant hC hlog hp hwelcome hinit hjoin).1
  | @accept i k handle update next entry hi hlog hupdate hfor hkey hnext =>
      have hfollows := h.handles handle (List.mem_of_getElem? hi)
      apply h.set
      by_cases hepoch : handle.state.epochId = k
      · obtain ⟨next', hnext', -, hfollows', -, -⟩ :=
          h.followed hC hfollows hlog hepoch hfor hkey hupdate
        rw [hnext, Except.ok.injEq] at hnext'
        subst hnext'
        exact hfollows'
      · rw [h.refused hfollows hlog hepoch hupdate] at hnext
        cases hnext
  | touch hi htouch =>
      exact h.set _
        ((h.handles _ (List.mem_of_getElem? hi)).same (sameMember_of_core htouch.core_eq))
  | reload hi hreload =>
      have hfollows := h.handles _ (List.mem_of_getElem? hi)
      exact h.set _ (hfollows.same (h.reloaded hfollows hreload))

theorem Reachable.consistent (hC : C.Correct) (h : Reachable C net) : net.Consistent C := by
  induction h with
  | create hcreate =>
      have hopens := create_opens hC hcreate
      refine ⟨fun k opener hk => ?_, fun k entry hk => ?_, fun a ha => ?_⟩
      · obtain ⟨hlt, rfl⟩ := List.getElem?_eq_some_iff.mp hk
        obtain rfl : k = 0 := by simpa using hlt
        exact hopens
      · cases hk
      · rw [List.mem_singleton.mp ha]
        refine ⟨hopens.inPlace, _, ?_, .refl _⟩
        rw [hopens.epochId]
        rfl
  | step _ hstep ih => exact ih.step hC hstep

/-! ## Agreement and catching up -/

theorem Follows.converged {members : List MLSGroup} {k : ℕ}
    (hall : ∀ a ∈ members, net.Follows C a ∧ a.state.epochId = k) : Converged members := by
  refine Shared.converged (C := C) ⟨fun a ha b hb => ?_, fun a ha => (hall a ha).1.inPlace⟩
  obtain ⟨⟨-, opener, hopener, hagree⟩, hepoch⟩ := hall a ha
  obtain ⟨⟨-, opener', hopener', hagree'⟩, hepoch'⟩ := hall b hb
  rw [hepoch', ← hepoch, hopener, Option.some.injEq] at hopener'
  subst hopener'
  exact hagree.trans hagree'.symm

theorem Consistent.follows_filter (h : net.Consistent C) {k : ℕ} :
    ∀ a ∈ net.handles.filter fun a => a.state.epochId = k, net.Follows C a ∧
    a.state.epochId = k := by
  intro a ha
  obtain ⟨hmem, hepoch⟩ := List.mem_filter.mp ha
  exact ⟨h.handles a hmem, of_decide_eq_true hepoch⟩

/-- Whatever was delivered late, again or out of turn, and whoever restarted, members of one epoch
have the same group, tree, secrets and transcript. -/
theorem same_epoch_converges (hC : C.Correct) (h : Reachable C net) (k : ℕ) :
    Converged (net.handles.filter fun a => a.state.epochId = k) :=
  Follows.converged (h.consistent hC).follows_filter

/-- Offer the `k`-th commit of the log to a handle; a refusal leaves what the call left. -/
def deliver (C : Crypto) (net : Net) (handle : MLSGroup) (k : ℕ) : MLSGroup :=
  match net.log[k]? with
  | none => handle
  | some entry =>
    match handle.processUpdate C entry.committed.update with
    | (_, .ok next) => next
    | (left, .error _) => left

/-- What a member is while it catches up. -/
structure CatchingUp (C : Crypto) (net : Net) (index start : ℕ) (handle : MLSGroup) : Prop where
  follows : net.Follows C handle
  holdsKey : handle.HoldsKey C
  index : handle.myIndex = index
  start : start ≤ handle.state.epochId

theorem Consistent.consumer (hC : C.Correct) (h : net.Consistent C) {index start : ℕ}
    (hfor : ∀ k (entry : Taken), start ≤ k → net.log[k]? = some entry → entry.For index) :
    InOrder.Consumer (net.deliver C) (fun handle => handle.state.epochId) net.log.length
      (net.CatchingUp C index start) := by
  constructor
  · rintro handle ⟨hfollows, hkey, rfl, hstart⟩ hlt
    have hlog := List.getElem?_eq_getElem hlt
    obtain ⟨next, hnext, hagree, hfollows', hkey', hindex⟩ := h.followed hC hfollows hlog rfl
      (hfor _ _ hstart hlog) hkey (.refl _)
    have hopens := h.opens _ _ (opener_succ hlog)
    have hdeliver : net.deliver C handle handle.state.epochId = next := by
      rw [deliver, hlog]
      simp only
      rcases hresult :
        handle.processUpdate C net.log[handle.state.epochId].committed.update with ⟨left, result⟩
      rw [hresult] at hnext
      subst hnext
      rfl
    have hepoch : next.state.epochId = handle.state.epochId + 1 :=
      hagree.epochId.trans hopens.epochId
    rw [hdeliver]
    exact ⟨⟨hfollows', hkey', hindex, by omega⟩, hepoch⟩
  · intro handle k hcatching hother
    have hdeliver : net.deliver C handle k = handle := by
      rw [deliver]
      cases hlog : net.log[k]? with
      | none => rfl
      | some entry =>
          have hepoch : handle.state.epochId ≠ k := by
            rintro rfl
            obtain ⟨hlt, -⟩ := List.getElem?_eq_some_iff.mp hlog
            exact hother ⟨rfl, hlt⟩
          simp only [h.refused hcatching.follows hlog hepoch (.refl _)]
    rw [hdeliver]
    exact ⟨hcatching, rfl⟩

/-- A member that holds its key and is neither the committer of what it lacks nor removed by it gets
to the last epoch if and only if it is offered what it lacks in order, whatever else of the log it
is offered in between. What is not its next commit is refused and leaves it as it is, and it agrees
with everybody in its epoch. -/
theorem lagging_member_catches_up (hC : C.Correct) (h : Reachable C net)
    (hmem : handle ∈ net.handles)
    (hkey : handle.HoldsKey C)
    (hfor : ∀ k (entry : Taken), handle.state.epochId ≤ k → net.log[k]? = some entry →
      entry.For handle.myIndex) (offers : List ℕ) :
    let caught := offers.foldl (net.deliver C) handle
    (caught.state.epochId = net.log.length ↔
      (List.range' handle.state.epochId (net.log.length - handle.state.epochId)).Sublist offers) ∧
    (∀ earlier k later (entry : Taken), offers = earlier ++ k :: later → net.log[k]? = some entry →
      (earlier.foldl (net.deliver C) handle).state.epochId ≠ k →
      (earlier.foldl (net.deliver C) handle).processUpdate C entry.committed.update =
        (earlier.foldl (net.deliver C) handle, .error (.valueError "Out of order update"))) ∧
    Converged (caught :: net.handles.filter fun a => a.state.epochId = caught.state.epochId) := by
  intro caught
  have hconsistent := h.consistent hC
  have hfollows := hconsistent.handles handle hmem
  obtain ⟨-, opener, hopener, -⟩ := id hfollows
  have hconsumer := hconsistent.consumer hC hfor
  have hstart : net.CatchingUp C handle.myIndex handle.state.epochId handle :=
    ⟨hfollows, hkey, rfl, le_rfl⟩
  refine ⟨hconsumer.through_iff hstart (opener_lt hopener) offers,
    fun earlier k later entry _ hlog hother => ?_, ?_⟩
  · exact hconsistent.refused (hconsumer.keeps hstart earlier).follows hlog hother (.refl _)
  have hall : ∀ a ∈ caught :: net.handles.filter fun a => a.state.epochId = caught.state.epochId,
      net.Follows C a ∧ a.state.epochId = caught.state.epochId := by
    intro a ha
    rcases List.mem_cons.mp ha with rfl | ha
    · exact ⟨(hconsumer.keeps hstart offers).follows, rfl⟩
    · exact hconsistent.follows_filter a ha
  exact Follows.converged hall

end Net

/-! ## A member that is one commit behind -/

namespace Sample

/-- Bob has added Carol, and Alice has not processed it. -/
theorem behind : ∃ (net : Net) (alice : MLSGroup), Net.Reachable crypto net ∧ net.log.length = 2 ∧
    net.handles.length = 3 ∧ alice ∈ net.handles ∧ alice.state.epochId = 1 ∧ alice.HoldsKey crypto ∧
    ∀ k (entry : Taken), 1 ≤ k → net.log[k]? = some entry → entry.For alice.myIndex := by
  obtain ⟨r, hrun⟩ := run_ok
  simp only [run, expect, Py.bind_eq_ok, Py.pure_eq, Except.ok.injEq, Py.require_eq_ok] at hrun
  obtain ⟨bobPackage, hbob, carolPackage, hcarol, alice0, hcreate, ⟨alice1, welcome1, update1⟩,
    hadd, bob1, hjoin, ⟨bob2, welcome2, update2⟩, hadd', alice2, -, carol2, hjoin', _, -, _, -, _,
    -, _, -, _, -, _, -, _, -, _, hids, _, -, _, -, _, ⟨hrefs1, hrefs2, -⟩, -⟩ := hrun
  simp only [List.map_cons, List.map_nil, List.cons.injEq, and_true] at hids
  have hsource : ∀ {b kp}, keyPackage b = .ok kp →
    kp.leafNode.leafNodeSource = leafNodeSourceKeyPackage ∧
      kp.initKeyPub = (kem b).publicBytes crypto := by
    intro b kp hkp
    have hinvited : Invited crypto [] kp ⟨sig b, kem b⟩ := enters hkp (by simp)
    exact ⟨hinvited.source, hinvited.initKey.trans hinvited.kemKey⟩
  let first : Taken := ⟨alice0, coins 40, .addMember bobPackage, ⟨alice1, update1, some welcome1⟩⟩
  let second : Taken := ⟨bob1, coins 60, .addMember carolPackage, ⟨bob2, update2, some welcome2⟩⟩
  have hfirst : first.Proper crypto := by
    refine ⟨?_, refsCollisionFree hrefs1, ?_⟩
    · simp only [first, Proposal.commit, hadd, Py.ok_bind]
      rfl
    · rintro kp ⟨⟩
      exact (hsource hbob).1
  have hsecond : second.Proper crypto := by
    refine ⟨?_, refsCollisionFree hrefs2, ?_⟩
    · simp only [second, Proposal.commit, hadd', Py.ok_bind]
      rfl
    · rintro kp ⟨⟩
      exact (hsource hcarol).1
  have hstart : Net.Reachable crypto ⟨alice0, [], [alice0]⟩ := .create hcreate
  have hzero := ((hstart.consistent correct).opens 0 alice0 rfl).epochId
  have hone : Net.Reachable crypto ⟨alice0, [first], [alice1]⟩ :=
    .step hstart (.take (i := 0) first rfl hzero hfirst)
  let bob : Joiner := ⟨sig 20, kem 20⟩
  have hentrant : join crypto welcome1 bob.sigKey bob.kemKey [] none = .ok bob1 := hjoin
  have hlogFirst : [first][0]? = some first := rfl
  have htwo : Net.Reachable crypto ⟨alice0, [first], [alice1, bob1]⟩ :=
    .step hone (.enter bob hlogFirst rfl rfl (hsource hbob).2 hentrant)
  have halice := ((hone.consistent correct).opens 1 alice1 rfl).epochId
  have hbobEpoch :=
    ((hone.consistent correct).entrant correct hlogFirst rfl rfl (hsource hbob).2 hentrant).2
  have hthree : Net.Reachable crypto ⟨alice0, [first, second], [alice1, bob2]⟩ :=
    .step htwo (.take (i := 1) second rfl hbobEpoch hsecond)
  have hlogSecond : [first, second][1]? = some second := rfl
  have hfour : Net.Reachable crypto ⟨alice0, [first, second], [alice1, bob2, carol2]⟩ :=
    .step hthree (.enter ⟨sig 21, kem 21⟩ hlogSecond rfl rfl (hsource hcarol).2 hjoin')
  refine ⟨_, alice1, hfour, rfl,
    rfl, by simp, halice, (identity_eq hids.1).2.2, fun k entry hk hlog => ?_⟩
  obtain rfl : k = 1 := by
    have hlt := (List.getElem?_eq_some_iff.mp hlog).1
    simp only [List.length_cons, List.length_nil] at hlt
    omega
  obtain rfl : second = entry := Option.some.inj hlog
  refine ⟨?_, trivial⟩
  rw [(identity_eq hids.1).1, (identity_eq hids.2).1]
  decide

end Sample

/-- Alice, Bob and Carol agree in whatever epoch they meet. -/
theorem same_epoch_converges_three : ∃ net : Net, net.handles.length = 3 ∧
    ∀ k, Converged (net.handles.filter fun a => a.state.epochId = k) := by
  obtain ⟨net, _, hreachable, -, hlength, -⟩ := Sample.behind
  exact ⟨net, hlength, Net.same_epoch_converges Sample.correct hreachable⟩

/-- Alice is offered both commits in the wrong order, and the one she lacks twice. -/
theorem lagging_alice_catches_up :
    ∃ (net : Net) (alice : MLSGroup) (entry : Taken), alice.state.epochId = 1 ∧
    net.log[0]? = some entry ∧ alice.processUpdate Sample.crypto entry.committed.update =
      (alice, .error (.valueError "Out of order update")) ∧
    ([0, 1, 0, 1].foldl (net.deliver Sample.crypto) alice).state.epochId = 2 := by
  obtain ⟨net, alice, hreachable, hlength, -, hmem, hepoch, hkey, hfor⟩ := Sample.behind
  obtain ⟨hcaught, hrefused, -⟩ := Net.lagging_member_catches_up Sample.correct hreachable hmem hkey
    (by rwa [hepoch]) [0, 1, 0, 1]
  rw [hepoch, hlength] at hcaught
  have hlog : net.log[0]? = some net.log[0] := List.getElem?_eq_getElem (by omega)
  refine ⟨net, alice, _, hepoch, hlog, hrefused [] 0 [1, 0, 1] _ rfl hlog ?_,
    hcaught.mpr (by decide)⟩
  rw [List.foldl_nil, hepoch]
  decide

end PureMls
