import PureMls.Verification.Restarts

/-! # Advertised key packages

A key package that is wrapped, sent and unwrapped again adds the same member to every group. -/

namespace PureMls

open MLSGroup

variable {C : Crypto}

/-! ## Frames of key packages -/

namespace KeyPackage

variable {keyPackage : KeyPackage} {message : MLSMessage} {data : Bytes}

/-- `MLSMessage.wrap_key_package(kp).to_bytes()` -/
def send (keyPackage : KeyPackage) : Py Bytes := do
  let message ← MLSMessage.wrapKeyPackage keyPackage
  message.toBytes

/-- `MLSMessage.from_bytes(data).unwrap_key_package()` -/
def receive (data : Bytes) : Py KeyPackage := do
  let message ← MLSMessage.fromBytes data
  message.unwrapKeyPackage

theorem canon_canon (keyPackage : KeyPackage) : keyPackage.canon.canon = keyPackage.canon := by
  rw [canon, canon, LeafNode.canon_canon]

/-- A key package comes out of its frame with the lifetime of its leaf written out. -/
theorem receive_send (h : keyPackage.send = .ok data) : receive data = .ok keyPackage.canon := by
  obtain ⟨message, hwrap, hdata⟩ := Py.bind_eq_ok.mp h
  obtain ⟨body, hbody, hmessage⟩ := Py.bind_eq_ok.mp hwrap
  cases hmessage
  have hframe : MLSMessage.fromBytes data = .ok ⟨0x0005, body⟩ :=
    (MLSMessage.readsAs hdata).run_self
  rw [receive, hframe, Py.ok_bind, MLSMessage.unwrapKeyPackage, Py.require_of _ rfl, Py.ok_bind]
  exact (readsAs hbody).run_self

/-- The key package as whoever receives its frame has it, where there is a frame. -/
def delivered (keyPackage : KeyPackage) : KeyPackage :=
  match keyPackage.send >>= receive with
  | .ok received => received
  | .error _ => keyPackage

theorem delivered_canon (keyPackage : KeyPackage) :
    keyPackage.delivered.canon = keyPackage.canon := by
  unfold delivered
  cases hsend : keyPackage.send with
  | error e => rfl
  | ok data =>
      rw [Py.ok_bind, receive_send hsend]
      exact canon_canon keyPackage

end KeyPackage

/-! ## Calls with delivered key packages -/

namespace MemberCall

/-- The call with the key package that was received in place of the one that was made. -/
def delivered : MemberCall → MemberCall
  | commit
      (.addMember keyPackage) coins adopt => commit (.addMember keyPackage.delivered) coins adopt
  | call => call

theorem delivered_twins {here there : MLSGroup} (h : Twins here there) (call : MemberCall) :
    (call.run C here).2 = (call.delivered.run C there).2 ∧
      Twins (call.run C here).1 (call.delivered.run C there).1 := by
  cases call with
  | commit p coins adopt =>
      cases p with
      | addMember keyPackage =>
          have hpackage := keyPackage.delivered_canon.symm
          have href := KeyPackage.congr_canon hpackage (KeyPackage.makeKpRef_canon (C := C))
          have hsame : (Proposal.addMember keyPackage).consumes C =
              (Proposal.addMember keyPackage.delivered).consumes C := by
            funext refs
            rw [Proposal.consumes, Proposal.consumes, href]
          exact commit_twins (Proposal.left_twins h coins hsame)
            (Proposal.addMember_alike h coins hpackage) adopt
      | removeMember target => exact h.run _
      | updateKey => exact h.run _
  | processUpdate update => exact h.run _
  | encrypt plaintext => exact h.run _
  | decrypt payload => exact h.run _
  | toBytes => exact h.run _

end MemberCall

/-- Every framed key package is read back, and in no run can it be told from outside whether the
members were added from their key packages or from the frames of these. -/
theorem advertised_packages_transparent (self : MLSGroup) (calls : List MemberCall) :
    (∀ (keyPackage : KeyPackage) data, keyPackage.send = .ok data →
      KeyPackage.receive data = .ok keyPackage.delivered ∧
        keyPackage.delivered.toBytes = keyPackage.toBytes) ∧
    Machine.outputs (MemberCall.run C) self (calls.map MemberCall.delivered) =
      Machine.outputs (MemberCall.run C) self calls := by
  constructor
  · intro keyPackage data hsend
    have hdelivered : keyPackage.delivered = keyPackage.canon := by
      rw [KeyPackage.delivered, hsend, Py.ok_bind, KeyPackage.receive_send hsend]
    rw [hdelivered]
    exact ⟨KeyPackage.receive_send hsend, keyPackage.toBytes_canon⟩
  · have hstep : ∀ (here there : MLSGroup) (call : MemberCall), True → Twins here there →
        (call.run C here).2 = (call.delivered.run C there).2 ∧
          Twins (call.run C here).1 (call.delivered.run C there).1 :=
      fun here there call _ h => call.delivered_twins h
    exact (Machine.outputs_eq_map hstep ⟨.refl self, .refl _⟩ fun _ _ => trivial).symm

end PureMls
