import PureMls.Verification.Transport

/-! # What the frame of an accepted commit binds

The receiver keeps the group, the tags and the content of a frame and builds the rest anew;
what stood in the other fields, and after the message, was never looked at. -/

namespace PureMls

open MLSGroup

variable {C : Crypto}

/-! ## Bytes after a message -/

theorem MLSMessage.ignoresRest : IgnoresRest MLSMessage.fromBytesAt :=
  (ignoresRest_unpackFrom 2).bind fun _ => (IgnoresRest.lift _).bind fun _ =>
    (ignoresRest_unpackFrom 2).bind fun _ => ignoresRest_opaque32.bind fun _ => .pure _

/-- A message that is read is read the same with anything behind it. -/
theorem MLSMessage.fromBytes_append {data : Bytes} {message : MLSMessage}
    (h : MLSMessage.fromBytes data = .ok message) (rest : Bytes) :
    MLSMessage.fromBytes (data ++ rest) = .ok message := by
  exact MLSMessage.ignoresRest.run_append h rest

/-! ## Frames -/

/-- The public message inside the bytes. -/
def MLSMessage.publicMessage (data : Bytes) : Py PublicMessage := do
  let message ← fromBytes data
  PublicMessage.fromBytes message.body

/-- The public message with another epoch, sender and authenticated data in its frame. -/
def PublicMessage.reframe (message : PublicMessage) (epoch sender : ℕ) (aad : Bytes) :
    PublicMessage :=
  { message with content :=
    { message.content with epoch := epoch, senderLeafIndex := sender, authenticatedData := aad } }

/-- The bytes of a public message in its outermost frame. -/
def PublicMessage.send (message : PublicMessage) : Py Bytes := do
  let body ← message.toBytes
  MLSMessage.toBytes ⟨0x0001, body⟩

theorem PublicMessage.receive_send {message : PublicMessage} {data : Bytes}
    (h : message.send = .ok data) : MLSMessage.publicMessage data = .ok message ∧
      MLSMessage.receive data = message.toGroupUpdate := by
  obtain ⟨body, hbody, hdata⟩ := Py.bind_eq_ok.mp h
  have hmessage : MLSMessage.fromBytes data = .ok ⟨0x0001, body⟩ :=
    (MLSMessage.readsAs hdata).run_self
  have hpublic : PublicMessage.fromBytes body = .ok message :=
    (PublicMessage.readsAs hbody).run_self
  refine ⟨by rw [MLSMessage.publicMessage, hmessage, Py.ok_bind, hpublic], ?_⟩
  rw [MLSMessage.receive, hmessage, Py.ok_bind, MLSMessage.unwrapCommit, Py.require_of _ rfl,
    Py.ok_bind, hpublic, Py.ok_bind]

/-- Nothing of the three fields is left after unwrapping. -/
theorem PublicMessage.toGroupUpdate_reframe (message : PublicMessage) (epoch sender : ℕ)
    (aad : Bytes) : (message.reframe epoch sender aad).toGroupUpdate = message.toGroupUpdate := rfl

/-! ## Accepted bytes -/

namespace MLSGroup

/-- `process_update(MLSMessage.from_bytes(data).unwrap_commit())` -/
def acceptBytes (C : Crypto) (self : MLSGroup) (data : Bytes) : Py MLSGroup := do
  let update ← MLSMessage.receive data
  (self.processUpdate C update).2

/-- The frame is the one that was signed, and no other bytes carry the signed commit. -/
structure Unmalleable (C : Crypto) (receiver : MLSGroup) (data : Bytes) : Prop where
  epoch : ∀ message, MLSMessage.publicMessage data = .ok message →
    message.content.epoch = receiver.state.epochId
  sender : ∀ message update, MLSMessage.publicMessage data = .ok message →
    MLSMessage.receive data = .ok update → message.content.senderLeafIndex = update.committerIndex
  aad : ∀ message, MLSMessage.publicMessage data = .ok message →
    message.content.authenticatedData = []
  /-- The content is the signed body followed by the signature. -/
  content : ∀ message update, MLSMessage.publicMessage data = .ok message →
    MLSMessage.receive data = .ok update → update.toBytes = .ok message.content.content
  unique : ∀ data' next' update update', receiver.acceptBytes C data' = .ok next' →
    MLSMessage.receive data = .ok update → MLSMessage.receive data' = .ok update' →
    update'.bodyBytes = update.bodyBytes → update'.signature = update.signature → data' = data

end MLSGroup

/-- No accepted message is bound to its bytes, at any receiver: bytes may follow it, and its frame
may name any epoch, sender and authenticated data, with the same outcome. -/
theorem accepted_commit_malleable {self next : MLSGroup} {data : Bytes}
    (h : self.acceptBytes C data = .ok next) :
    ¬ self.Unmalleable C data ∧
      (∀ rest, self.acceptBytes C (data ++ rest) = .ok next) ∧
      ∀ message epoch sender aad data', MLSMessage.publicMessage data = .ok message →
        (message.reframe epoch sender aad).send = .ok data' →
          self.acceptBytes C data' = .ok next := by
  obtain ⟨update, hreceive, hprocess⟩ := Py.bind_eq_ok.mp h
  obtain ⟨outer, houter, hunwrap⟩ := Py.bind_eq_ok.mp hreceive
  have hrest : ∀ rest, MLSMessage.receive (data ++ rest) = .ok update := by
    intro rest
    rw [MLSMessage.receive, MLSMessage.fromBytes_append houter, Py.ok_bind, hunwrap]
  have haccept : ∀ rest, self.acceptBytes C (data ++ rest) = .ok next := by
    intro rest
    rw [acceptBytes, hrest, Py.ok_bind, hprocess]
  refine ⟨fun hunmalleable => ?_, haccept, fun message epoch sender aad data' hmessage hsend => ?_⟩
  · have hsame :=
      hunmalleable.unique (data ++ [0x00]) next update update (haccept _) hreceive (hrest _)
      rfl rfl
    simp at hsame
  · obtain ⟨-, hreceive'⟩ := PublicMessage.receive_send hsend
    obtain ⟨_, -, hunwrap⟩ := Py.bind_eq_ok.mp hunwrap
    have hpublic : MLSMessage.publicMessage data = PublicMessage.fromBytes outer.body := by
      rw [MLSMessage.publicMessage, houter, Py.ok_bind]
    rw [← hpublic, hmessage, Py.ok_bind] at hunwrap
    rw [acceptBytes, hreceive', PublicMessage.toGroupUpdate_reframe, hunwrap, Py.ok_bind, hprocess]

namespace Sample

/-- Alice after she added Bob, and Bob's key update with another epoch, sender and authenticated
data in its frame. -/
def reframed : Py (MLSGroup × Bytes × MLSGroup) := do
  let bobPackage ← keyPackage 20
  let alice0 ← MLSGroup.create crypto (ascii "g") (sig 1) (kem 1) (kem 2)
  let alice ← Transition.run crypto alice0 (.addMember (coins 40) bobPackage)
  let bob : MLSGroup := { alice with myIndex := 1, mySigKey := sig 20, myKemKey := kem 20 }
  let (_, update) ← (bob.updateKey crypto (coins 60)).2
  let data ← MLSMessage.send crypto update
  let message ← MLSMessage.publicMessage data
  let data' ← (message.reframe 7 5 (ascii "other")).send
  let next ← alice.acceptBytes crypto data'
  let message' ← MLSMessage.publicMessage data'
  expect (alice.state.epochId = 1 ∧ message'.content.epoch = 7)
  pure (alice, data', next)

theorem reframed_ok : ∃ r, reframed = .ok r := Py.ok_of_isOk (by decide +kernel)

end Sample

open Sample in
/-- The reframed update that Alice accepts. -/
theorem accepted_commit_malleable_reframed :
    ∃ (alice : MLSGroup) (data : Bytes)
      (next : MLSGroup), alice.acceptBytes crypto data = .ok next ∧
      ¬ alice.Unmalleable crypto data ∧ ∀ rest, alice.acceptBytes crypto
        (data ++ rest) = .ok next := by
  obtain ⟨_, hrun⟩ := reframed_ok
  simp only [reframed, Py.bind_eq_ok] at hrun
  obtain ⟨_, -, _, -, alice, -, _, -, _, -, _, -, data, -, next, haccept, -⟩ := hrun
  obtain ⟨hnot, hrest, -⟩ := accepted_commit_malleable haccept
  exact ⟨alice, data, next, haccept, hnot, hrest⟩

open Sample in
/-- A frame of epoch 7 is accepted in epoch 1. -/
theorem frame_epoch_not_checked :
    ¬ ∀ self data next, Reached crypto self → self.acceptBytes crypto data = .ok next →
      self.Unmalleable crypto data := by
  intro hall
  obtain ⟨_, hrun⟩ := reframed_ok
  simp only [reframed, expect, Py.bind_eq_ok, Py.require_eq_ok] at hrun
  obtain ⟨kp, -, alice0, hcreate, alice, hadd, _, -, _, -, _, -, data, -, next, haccept, message,
    hmessage, _, ⟨hepoch, hframe⟩, -⟩ := hrun
  have hcall : Transition.FromWire (.addMember (coins 40) kp) := trivial
  have hreached : Reached crypto alice := .next (.create hcreate) hcall hadd
  have hbound := (hall alice data next hreached haccept).epoch message hmessage
  rw [hepoch, hframe] at hbound
  exact absurd hbound (by decide)

end PureMls
