import PureMls.Verification.Reached
import PureMls.Verification.Receiving

/-! # Commits on the wire

A commit that is wrapped, sent and unwrapped again is the same commit to every receiver. -/

namespace PureMls

open RatchetTree MLSGroup

variable {C : Crypto}

/-! ## Sending and receiving -/

namespace MLSMessage

/-- `MLSMessage.wrap_commit(update).to_bytes()` -/
def send (C : Crypto) (update : GroupUpdate) : Py Bytes := do
  let message ← wrapCommit C update
  message.toBytes

/-- `MLSMessage.from_bytes(data).unwrap_commit()` -/
def receive (data : Bytes) : Py GroupUpdate := do
  let message ← fromBytes data
  message.unwrapCommit

end MLSMessage

/-- What a receiver makes of a commit after it was read. -/
def GroupUpdate.received (update : GroupUpdate) : GroupUpdate :=
  { update.canon with
    confirmationTag := update.confirmationTag
    groupId := update.groupId
    membershipTag := update.membershipTag }

theorem GroupUpdate.received_sameCommit (update : GroupUpdate) :
    SameCommit update.received update where
  groupId := rfl
  epochId := rfl
  tree := update.tree.canon_canon
  secrets := update.canon_get?
  committerIndex := rfl
  path := by
    simp only [received, canon, Option.map_map]
    rfl
  body := update.canon_bodyBytes
  signature := rfl
  confirmationTag := rfl
  membershipTag := rfl

/-- The commit and what its frame adds stay below the 32-bit length fields. -/
def GroupUpdate.Fits (update : GroupUpdate) : Prop :=
  ∃ body, update.bodyBytes = .ok body ∧
    body.length + update.groupId.length + 2 * update.signature.length + 128 < 2 ^ 32

namespace Finished

variable {sender : MLSGroup} {commitSecret : Bytes} {unsigned : GroupUpdate}
  (f : Finished C sender commitSecret unsigned)

/-- The frame around a finished commit. -/
def message (commitBody : Bytes) : PublicMessage :=
  ⟨⟨f.oldCtx.groupId, f.oldCtx.epoch, f.update.committerIndex, [], commitBody⟩,
    ⟨f.signature, f.confTag⟩, C.hmacSha256 sender.state.keySchedule.membershipKey f.tbs⟩

theorem send_eq : MLSMessage.send C f.update = (do
    let commitBody ← f.update.toBytes
    let body ← (f.message commitBody).toBytes
    MLSMessage.toBytes ⟨0x0001, body⟩) := by
  have htag : C.hmacSha256 f.nextState.keySchedule.confirmationKey f.transcriptHash =
    f.confTag := by
    rw [f.confKey_nextState]
    rfl
  have hwrap : MLSMessage.wrapCommit C f.update = (do
      let message ← PublicMessage.fromGroupUpdate C f.update f.nextState.keySchedule.confirmationKey
        f.transcriptHash f.oldCtx
      let body ← message.toBytes
      pure ⟨0x0001, body⟩) := rfl
  have hframe : PublicMessage.fromGroupUpdate C f.update f.nextState.keySchedule.confirmationKey
      f.transcriptHash f.oldCtx = f.message <$> f.update.toBytes := by
    simp only [PublicMessage.fromGroupUpdate, htag]
    cases f.update.toBytes <;> rfl
  rw [MLSMessage.send, hwrap, hframe]
  cases f.update.toBytes with
  | error e => rfl
  | ok commitBody =>
      simp only [Py.map_ok, Py.ok_bind, Py.pure_eq, Py.bind_assoc]

/-- The old context, of which the signature covers the group and the epoch. -/
theorem oldCtx_fields :
    f.oldCtx.groupId = sender.state.groupId ∧ f.oldCtx.epoch = sender.state.epochId := by
  obtain ⟨hash, -, hctx⟩ := Py.bind_eq_ok.mp f.oldCtx_eq
  rw [← Except.ok.inj hctx]
  exact ⟨rfl, rfl⟩

/-- Whatever could be sent is received as the same commit. -/
theorem receive_send (hgroup : unsigned.groupId = sender.state.groupId)
    (htree : unsigned.tree.OnWire) {data : Bytes} (h : MLSMessage.send C f.update = .ok data) :
    MLSMessage.receive data = .ok f.update.received := by
  rw [f.send_eq] at h
  simp only [Py.bind_eq_ok] at h
  obtain ⟨commitBody, hcommit, body, hbody, hdata⟩ := h
  have hctx := f.oldCtx_fields.1
  have hread : GroupUpdate.fromBytes commitBody = .ok f.update.canon :=
    (GroupUpdate.readsAs hcommit fun raw hraw => htree.fromBytes_toBytes hraw).run_self
  have hmessage : MLSMessage.fromBytes data = .ok ⟨0x0001, body⟩ :=
    (MLSMessage.readsAs hdata).run_self
  have hpublic : PublicMessage.fromBytes body = .ok (f.message commitBody) :=
    (PublicMessage.readsAs hbody).run_self
  simp only [MLSMessage.receive, hmessage, Py.ok_bind, MLSMessage.unwrapCommit, hpublic,
    PublicMessage.toGroupUpdate, message, hread, hctx, Py.pure_eq, ← hgroup]
  rfl

/-- The frame's content can be encoded: its fields were encoded for the signature. -/
theorem content_toBytes (hcommitter : unsigned.committerIndex = sender.myIndex) (commitBody : Bytes)
    (hsmall : commitBody.length < 2 ^ 32) :
    ∃ content, (f.message commitBody).content.toBytes = .ok content ∧
      content.length ≤ commitBody.length + sender.state.groupId.length + 24 := by
  have hframed := f.framed_eq
  simp only [FramedContent.toBytes, Py.bind_eq_ok] at hframed
  obtain ⟨gid, hgid, epoch, hepoch, _, -, committer, hsender, -⟩ := hframed
  have hgidLen := length_tlsOpaque hgid
  have hepochLen : epoch.length = 8 := by
    rw [← (structPack_eq_ok.mp hepoch).2, length_beBytes]
  have hsenderLen : committer.length = 4 := by
    rw [← (structPack_eq_ok.mp hsender).2, length_beBytes]
  have hcommitter' : f.update.committerIndex = sender.myIndex := hcommitter
  have hempty : tlsOpaque [] = .ok [0x00] := rfl
  have hone : tlsU8 0x01 = .ok [0x01] := rfl
  have hthree : tlsU8 0x03 = .ok [0x03] := rfl
  simp only [message, FramedContent.toBytes, f.oldCtx_fields, hgid, hepoch, hcommitter', hsender,
    hempty, hone, hthree, tlsOpaque32_ok hsmall, Py.ok_bind, Py.pure_eq, Except.ok.injEq,
    exists_eq_left']
  simp only [List.length_append, List.length_cons, List.length_nil, length_beBytes]
  omega

theorem signature_toBytes : ∃ signature, tlsOpaque f.signature = .ok signature := by
  have hinput := f.confirmedInput_eq
  simp only [computeConfirmedTranscriptHashInput, Py.bind_eq_ok] at hinput
  obtain ⟨_, -, signature, hsignature, -⟩ := hinput
  exact ⟨signature, hsignature⟩

theorem length_confTag (hC : C.Correct) : f.confTag.length = 32 := by rw [confTag, hC.hmac_size]

theorem auth_toBytes (hC : C.Correct) (commitBody : Bytes) :
    ∃ auth, (f.message commitBody).auth.toBytes = .ok auth ∧
    auth.length ≤ f.signature.length + 40 := by
  obtain ⟨signature, hsignature⟩ := f.signature_toBytes
  obtain ⟨tag, htag⟩ :=
    tlsOpaque_ok (show f.confTag.length < 2 ^ 30 by rw [f.length_confTag hC]; decide)
  have hsigLen := length_tlsOpaque hsignature
  have htagLen := length_tlsOpaque htag
  rw [f.length_confTag hC] at htagLen
  refine ⟨signature ++ tag, ?_, by rw [List.length_append]; omega⟩
  simp only [message, FramedContentAuthData.toBytes, hsignature, htag, Py.ok_bind, Py.pure_eq]

/-- A commit whose frame stays below the 32-bit length fields can be sent. -/
theorem send_ok (hC : C.Correct) (hgroup : unsigned.groupId = sender.state.groupId)
    (hcommitter : unsigned.committerIndex = sender.myIndex) (hfits : f.update.Fits) :
    ∃ data, MLSMessage.send C f.update = .ok data := by
  obtain ⟨body, hbody, hlt⟩ := hfits
  have hgroupId : f.update.groupId = sender.state.groupId := hgroup
  have hsig : f.update.signature = f.signature := rfl
  rw [hgroupId, hsig] at hlt
  obtain ⟨signature, hsignature⟩ := f.signature_toBytes
  have hsigLen := length_tlsOpaque hsignature
  have hcommit : f.update.toBytes = .ok (body ++ signature) := by
    rw [GroupUpdate.toBytes, hbody, Py.ok_bind, hsig, hsignature]
    rfl
  have hcommitLen : (body ++ signature).length = body.length + signature.length :=
    List.length_append
  obtain ⟨content, hcontent, hcontentLen⟩ :=
    f.content_toBytes hcommitter (body ++ signature) (by omega)
  obtain ⟨auth, hauth, hauthLen⟩ := f.auth_toBytes hC (body ++ signature)
  have hmember : (C.hmacSha256 sender.state.keySchedule.membershipKey f.tbs).length = 32 := by
    rw [hC.hmac_size]
  obtain ⟨membership, hmembership⟩ := tlsOpaque_ok (show _ < 2 ^ 30 by rw [hmember]; decide)
  have hmembershipLen := length_tlsOpaque hmembership
  rw [hmember] at hmembershipLen
  have hmessage : ∃ bytes, (f.message (body ++ signature)).toBytes = .ok bytes ∧
    bytes.length < 2 ^ 32 := by
    have htag : tlsOpaque (f.message (body ++ signature)).membershipTag = .ok membership :=
      hmembership
    simp only [PublicMessage.toBytes, hcontent,
      tlsOpaque32_ok (show content.length < 2 ^ 32 by omega), hauth,
      tlsOpaque32_ok (show auth.length < 2 ^ 32 by omega), htag, Py.ok_bind, Py.pure_eq,
        Except.ok.injEq,
      exists_eq_left']
    simp only [List.length_append, length_beBytes]
    omega
  obtain ⟨bytes, hbytes, hbytesLen⟩ := hmessage
  have hversion : tlsU16 0x0001 = .ok [0x00, 0x01] := rfl
  refine ⟨[0x00, 0x01] ++ [0x00, 0x01] ++ (beBytes 4 bytes.length ++ bytes), ?_⟩
  rw [f.send_eq, hcommit, Py.ok_bind, hbytes, Py.ok_bind]
  simp only [MLSMessage.toBytes, hversion, tlsOpaque32_ok hbytesLen, Py.ok_bind, Py.pure_eq]

end Finished

/-- A commit of any run whose frame can be encoded arrives with the same body and has the same
outcome at every receiver; short of the 32-bit limits it always can be encoded. -/
theorem transport_transparent (hC : C.Correct) {sender : MLSGroup} (hsender : Reached C sender)
    {coins : CommitCoins} {p : Proposal} {committed : Committed}
    (hcommit : p.commit C sender coins = .ok committed) :
    (∀ data, MLSMessage.send C committed.update = .ok data →
      ∃ received, MLSMessage.receive data = .ok received ∧
        received.bodyBytes = committed.update.bodyBytes ∧
        ∀ receiver : MLSGroup, SameOutcome (receiver.processUpdate C received).2
          (receiver.processUpdate C committed.update).2) ∧
    (committed.update.Fits → ∃ data, MLSMessage.send C committed.update = .ok data) := by
  obtain ⟨r⟩ := Proposal.commit_eq_ok hcommit
  have htree : r.path.tree.OnWire := by
    apply r.onWire
    exact hsender.onWire (fun _ h => h) (fun _ _ h => h)
  rw [r.update_eq]
  refine ⟨fun data hdata => ⟨_, r.finished.receive_send rfl htree hdata, ?_, fun receiver => ?_⟩,
    r.finished.send_ok hC rfl rfl⟩
  · exact r.finished.update.canon_bodyBytes
  · exact processUpdate_congr (.refl receiver) r.finished.update.received_sameCommit

namespace Sample

/-- Alice, her first commit and its frame. -/
def firstCommit : Py (MLSGroup × Committed × Bytes) := do
  let bobPackage ← keyPackage 20
  let alice ← MLSGroup.create crypto (ascii "g") (sig 1) (kem 1) (kem 2)
  let committed ← (Proposal.addMember bobPackage).commit crypto alice (coins 40)
  let data ← MLSMessage.send crypto committed.update
  pure (alice, committed, data)

theorem firstCommit_ok : ∃ r, firstCommit = .ok r := Py.ok_of_isOk (by decide +kernel)

end Sample

open Sample in
/-- Alice's first commit, sent and received. -/
theorem transport_first_commit :
    ∃ (alice : MLSGroup) (committed : Committed) (data : Bytes), Reached crypto alice ∧
    MLSMessage.send crypto committed.update = .ok data ∧
    ∃ received, MLSMessage.receive data = .ok received ∧
      received.bodyBytes = committed.update.bodyBytes ∧
      ∀ receiver : MLSGroup, SameOutcome (receiver.processUpdate crypto received).2
        (receiver.processUpdate crypto committed.update).2 := by
  obtain ⟨_, hrun⟩ := firstCommit_ok
  simp only [firstCommit, Py.bind_eq_ok] at hrun
  obtain ⟨kp, -, alice, hcreate, committed, hcommit, data, hdata, -⟩ := hrun
  exact ⟨alice, committed, data, .create hcreate, hdata,
    (transport_transparent correct (.create hcreate) hcommit).1 data hdata⟩

end PureMls
