import PureMls.Verification.Ratchets
import PureMls.Verification.Refusals

/-! # Malformed input

What a receiver does with bytes that nobody encoded: which of the calls that take input from the
network end with another exception than `ValueError`. -/

namespace PureMls

open RatchetTree MLSGroup

variable {C : Crypto}

/-! ## Application messages -/

namespace SecretTree

variable {st : SecretTree} {leaf gen : ℕ} {type : SecretType}

theorem ratchetStart_returns (C : Crypto) (type : SecretType) (hleaf : leaf < st.nLeaves) :
    (st.ratchetStart C leaf type).Returns := by
  cases hcache : st.leafCache.get? (leaf, type) with
  | some cached => exact ⟨cached, ratchetStart_of_cached hcache⟩
  | none =>
      obtain ⟨start, hstart⟩ := ratchetStart_new C st.encryptionSecret type hleaf
      have hfresh : (new st.encryptionSecret st.nLeaves).leafCache.get? (leaf, type) = none :=
        Dict.get?_empty _
      have hsame : st.ratchetStart C leaf type =
          (new st.encryptionSecret st.nLeaves).ratchetStart C leaf type :=
        ratchetStart_congr rfl rfl (hcache.trans hfresh.symm)
      exact ⟨(0, start), hsame.trans hstart⟩

/-- A leaf inside the tree has a key of every generation, unless its ratchet is past it. -/
theorem getKeyAndNonceForGen_cases (hC : C.Correct) (type : SecretType) (hleaf : leaf < st.nLeaves)
    (hgen : gen < 256 ^ 4) :
    (∃ message, (st.getKeyAndNonceForGen C leaf gen type).2 = .error (.valueError message)) ∨
      ∃ key nonce, (st.getKeyAndNonceForGen C leaf gen type).2 = .ok (key, nonce) ∧
        key.length = 16 ∧ nonce.length = 12 := by
  obtain ⟨⟨tip, secret⟩, hstart⟩ := ratchetStart_returns C type hleaf
  by_cases hlt : gen < tip
  · exact .inl ⟨_, by rw [getKeyAndNonceForGen, getRatchetSecret_behind hstart hlt]⟩
  · obtain ⟨moved, key, nonce, _, hdrawn, hkey, hnonce, -⟩ :=
      getKeyAndNonceForGen_ahead hC hstart (Nat.not_lt.mp hlt) hgen
    exact .inr ⟨key, nonce, by rw [hdrawn], hkey, hnonce⟩

end SecretTree

namespace MLSGroup

variable {self next : MLSGroup} {payload : Bytes}

theorem getKeyAndNonceForGen_nLeaves (C : Crypto) (st : SecretTree) (leaf gen : ℕ)
    (type : SecretType) : (st.getKeyAndNonceForGen C leaf gen type).1.nLeaves = st.nLeaves := by
  rw [getKeyAndNonceForGen_left]

/-- The secret tree, once there is one, has a leaf for each leaf of the ratchet tree. -/
def Rooted (self : MLSGroup) : Prop :=
  ∀ st ∈ self.secretTree, st.nLeaves = (self.state.tree.nodes.length + 1) / 2

theorem Rooted.of_fresh (h : self.secretTree = none) : self.Rooted := by
  rw [Rooted, h]
  rintro _ ⟨⟩

theorem Rooted.getSecretTree (h : self.Rooted) :
    self.getSecretTree.nLeaves = (self.state.tree.nodes.length + 1) / 2 := by
  unfold MLSGroup.getSecretTree
  cases hst : self.secretTree with
  | none => rfl
  | some st => exact h st hst

/-- A call on messages moves the secret tree, but not its size. -/
theorem Rooted.withTree (h : self.Rooted) {st : SecretTree}
    (hst : st.nLeaves = self.getSecretTree.nLeaves) :
    Rooted { self with secretTree := some st } := by
  rintro _ ⟨⟩
  exact hst.trans h.getSecretTree

theorem Rooted.left (h : self.Rooted) (t : Transition) : (t.left C self).Rooted := by
  obtain ⟨consumed, hleft | hleft, -⟩ := t.left_cases C self
  · rw [hleft]
    exact h
  · rw [hleft]
    exact .of_fresh rfl

theorem Rooted.encrypt (h : self.Rooted) (plaintext : Bytes) :
    (self.encryptApplicationMessage C plaintext).1.Rooted := by
  rw [encrypt_left]
  refine h.withTree ?_
  have hdrawn := getKeyAndNonceForGen_nLeaves C self.getSecretTree self.myIndex
    ((self.getSecretTree.generations.get? self.myIndex).getD 0) .application
  simp only [SecretTree.getKeyAndNonce]
  rcases hkeys : self.getSecretTree.getKeyAndNonceForGen C self.myIndex
    ((self.getSecretTree.generations.get? self.myIndex).getD 0) .application with ⟨moved,
      e | ⟨key, nonce⟩⟩
  all_goals
    rw [hkeys] at hdrawn
    exact hdrawn

theorem Rooted.decrypt (h : self.Rooted) (payload : Bytes) :
    (self.decryptApplicationMessage C payload).1.Rooted := by
  cases hheader : openHeader C self payload with
  | error e =>
      rw [decrypt_of_header_error hheader]
      exact h
  | ok header =>
      obtain ⟨leaf, gen, contentCt, ad⟩ := header
      have hdrawn := getKeyAndNonceForGen_nLeaves C self.getSecretTree leaf gen .application
      rw [decrypt_of_header hheader]
      rcases hkeys : self.getSecretTree.getKeyAndNonceForGen C leaf gen .application with ⟨moved,
          e | ⟨key, nonce⟩⟩
      all_goals
        rw [hkeys] at hdrawn
        exact h.withTree hdrawn

end MLSGroup

theorem Reached.rooted {self : MLSGroup} (h : Reached C self) : self.Rooted := by
  induction h with
  | create hok => exact .of_fresh (MLSGroup.create_fresh hok)
  | join _ hok => exact .of_fresh (MLSGroup.join_fresh hok)
  | next _ _ hok _ => exact .of_fresh (Transition.run_fresh hok)
  | kept transition _ ih => exact ih.left transition
  | encrypt plaintext _ ih => exact ih.encrypt plaintext
  | decrypt payload _ ih => exact ih.decrypt payload

theorem RatchetTree.OnWire.leaves_of_nodes {tree : RatchetTree} (h : tree.OnWire) :
    (tree.nodes.length + 1) / 2 = tree.numLeaves := by
  rcases h with ⟨hzero, hnil⟩ | ⟨m, -, hcovers, hle⟩
  · rw [hzero, hnil]
    rfl
  · have hge := hcovers.2
    have hpos := Nat.two_pow_pos m
    rw [pow_succ] at hle hge
    rw [hcovers.1]
    omega

namespace MLSGroup

variable {self : MLSGroup} {payload : Bytes}

/-- Where the payload has two bytes for the length of the sender data, it has that data and four
bytes for the generation. -/
def PayloadFits (payload : Bytes) : Prop :=
  2 ≤ payload.length → 2 + beNat (slice payload 0 2) + 4 ≤ payload.length

theorem openHeader_graceful_iff (hC : C.Correct) (htag : C.DecryptFailsWithTag)
    (hself : Reached C self) : (openHeader C self payload).Graceful ↔ PayloadFits payload := by
  unfold openHeader PayloadFits
  by_cases hlen : 2 ≤ payload.length
  swap
  · rw [Py.require, if_neg hlen]
    exact iff_of_true (.error (.valueError _)) fun h => absurd h hlen
  have had : self.messageAd = .ok (self.state.groupId ++ beBytes 8 self.state.epochId) := by
    rw [messageAd, toBytesBig_eq_ok.mpr ⟨(hself.wellSized hC).epoch, rfl⟩]
    rfl
  have hraw :
    (slice payload (2 + beNat (slice payload 0 2)) (2 + beNat (slice payload 0 2) + 4)).length = 4 ↔
      2 + beNat (slice payload 0 2) + 4 ≤ payload.length := by
    simp only [slice, List.length_take, List.length_drop]
    omega
  rw [Py.require_of _ hlen, Py.ok_bind, had, Py.ok_bind, imp_iff_right hlen]
  dsimp only
  by_cases hfits : 2 + beNat (slice payload 0 2) + 4 ≤ payload.length
  swap
  · rw [Py.require, if_neg fun hfour => hfits (hraw.mp hfour)]
    exact iff_of_false (Py.not_graceful_error (by rintro ⟨⟩)) hfits
  refine iff_of_true ?_ hfits
  rw [Py.require_of _ (hraw.mpr hfits), Py.ok_bind]
  have hsample :
    (takePad 32 (payload.drop (2 + beNat (slice payload 0 2) + 4))).length < 2 ^ 30 := by
    simp only [takePad, List.length_append, List.length_take, List.length_replicate]
    omega
  obtain ⟨key, hkey⟩ : ∃ key,
    deriveSenderDataKey C self.state.keySchedule.senderDataSecret _ = .ok key :=
    expandWithLabel_ok (by decide) hsample (by decide)
  obtain ⟨nonce, hnonce⟩ : ∃ nonce,
    deriveSenderDataNonce C self.state.keySchedule.senderDataSecret _ = .ok nonce :=
    expandWithLabel_ok (by decide) hsample (by decide)
  simp only [senderDataKeys, hkey, hnonce, Py.ok_bind, pure_bind]
  have hopen := htag key nonce (slice payload 2 (2 + beNat (slice payload 0 2)))
    (self.state.groupId ++ beBytes 8 self.state.epochId) (length_expandWithLabel hC hkey)
    (length_expandWithLabel hC hnonce)
  refine (Py.FailsWith.rethrow hopen fun e he => ?_).bind fun _ =>
    (Py.Graceful.require _).bind fun _ =>
    (Py.Graceful.require _).bind fun _ => .ok _
  rw [if_pos he]
  exact .valueError _

theorem decrypt_graceful_iff (hC : C.Correct) (htag : C.DecryptFailsWithTag)
    (hself : Reached C self) :
    (self.decryptApplicationMessage C payload).2.Graceful ↔ PayloadFits payload := by
  rw [← openHeader_graceful_iff hC htag hself]
  cases hheader : openHeader C self payload with
  | error e =>
      rw [decrypt_of_header_error hheader]
      exact ⟨fun h => .error (h e rfl), fun h => .error (h e rfl)⟩
  | ok header =>
      obtain ⟨leaf, gen, contentCt, ad⟩ := header
      refine iff_of_true ?_ (.ok _)
      have hwire := hself.onWire (fun _ hcall => hcall) fun _ _ hcall => hcall
      have hrange : leaf < self.getSecretTree.nLeaves ∧ gen < 256 ^ 4 := by
        refine ⟨?_, (openHeader_regen hheader (Nat.two_pow_pos 32)).1⟩
        rw [hself.rooted.getSecretTree, hwire.leaves_of_nodes]
        simp only [openHeader, Py.bind_eq_ok, Py.pure_eq, Py.require_eq_ok, Except.ok.injEq,
          Prod.mk.injEq] at hheader
        obtain ⟨_, -, _, -, _, -, _, -, _, -, _, -, _, hrange, rfl, -⟩ := hheader
        exact hrange
      rw [decrypt_of_header hheader]
      rcases SecretTree.getKeyAndNonceForGen_cases hC .application hrange.1 hrange.2 with
        ⟨message, hdrawn⟩ | ⟨key, nonce, hdrawn, hkey, hnonce⟩
      · rcases hkeys :
          self.getSecretTree.getKeyAndNonceForGen C leaf gen .application with ⟨moved, keys⟩
        rw [hkeys] at hdrawn
        subst hdrawn
        exact .error (.valueError _)
      · rcases hkeys :
          self.getSecretTree.getKeyAndNonceForGen C leaf gen .application with ⟨moved, keys⟩
        rw [hkeys] at hdrawn
        subst hdrawn
        refine Py.FailsWith.rethrow (htag key nonce contentCt ad hkey hnonce) fun e he => ?_
        rw [contentFault, if_pos he]
        exact .valueError _

end MLSGroup

/-! ## Messages -/

/-- A field of a message whose payload is the input of another decoder. -/
theorem graceful_payload_iff {α : Type} {condition : Prop} [Decidable condition] {text : String}
    {x : Py α} {fits : Prop} (h : x.Graceful ↔ fits) :
    (Py.require condition (.valueError text) >>= fun _ => x).Graceful ↔ (condition → fits) := by
  rw [Py.graceful_bind_iff, and_iff_right (Py.Graceful.require _)]
  simp only [Py.require_eq_ok, forall_const, h]

namespace DialectWelcome

theorem fromBytes_graceful_iff (data : Bytes) (dialect : Option String) :
    (fromBytes data dialect).Graceful ↔ ∃ strategy, getDialect
    (dialect.getD "standard") = .ok strategy ∧
      bodyFits strategy data (bodyOffset strategy data) := by
  rw [fromBytes]
  cases hstrategy : getDialect (dialect.getD "standard") with
  | error e =>
      refine iff_of_false (Py.not_graceful_error ?_) (by simp)
      unfold getDialect at hstrategy
      split at hstrategy
      · cases hstrategy
      · cases hstrategy
        rintro ⟨⟩
  | ok strategy =>
      simp only [Except.ok.injEq, exists_eq_left']
      exact (Py.graceful_bind_iff.trans (and_iff_left fun _ _ => .ok _)).trans
        (gracefulIff_body strategy data (bodyOffset strategy data))

/-- A Welcome without a dialect is a standard one. -/
def standardFits (data : Bytes) : Prop := bodyFits .standard data (bodyOffset .standard data)

theorem standard_graceful_iff (data : Bytes) :
    (fromBytes data none).Graceful ↔ standardFits data := by
  have hstandard : getDialect ((none : Option String).getD "standard") = .ok .standard := rfl
  refine (fromBytes_graceful_iff data none).trans ?_
  simp only [hstandard, Except.ok.injEq, exists_eq_left', standardFits]

end DialectWelcome

namespace PublicMessage

/-- The frame of a commit and the commit in it. -/
def commitFits (data : Bytes) : Prop :=
  fits data 0 ∧ ∀ message, fromBytes data = .ok message → GroupUpdate.fits message.content.content 0

theorem commit_graceful_iff (data : Bytes) :
    (fromBytes data >>= toGroupUpdate).Graceful ↔ commitFits data := by
  refine Py.graceful_bind_iff.trans (and_congr (GracefulIff.run gracefulIff data) ?_)
  refine forall_congr' fun message => imp_congr_right fun _ => ?_
  exact (Py.graceful_bind_iff.trans (and_iff_left fun _ _ => .ok _)).trans
    (GracefulIff.run GroupUpdate.gracefulIff message.content.content)

end PublicMessage

namespace MLSMessage

/-- The outer frame and, under the wire format asked for, what is in it. -/
def payloadFits (wireFormat : ℕ) (fitsBody : Bytes → Prop) (data : Bytes) : Prop :=
  fits data 0 ∧ ∀ message, fromBytes data = .ok message → message.wireFormat = wireFormat →
    fitsBody message.body

theorem unwrap_graceful_iff {α : Type} {unwrap : MLSMessage → Py α} {wireFormat : ℕ}
    (fitsBody : Bytes → Prop)
    (h : ∀ message, (unwrap message).Graceful ↔
      (message.wireFormat = wireFormat → fitsBody message.body))
    (data : Bytes) :
    (fromBytes data >>= unwrap).Graceful ↔ payloadFits wireFormat fitsBody data := by
  refine Py.graceful_bind_iff.trans (and_congr (GracefulIff.run gracefulIff data) ?_)
  exact forall_congr' fun message => imp_congr_right fun _ => h message

end MLSMessage

/-! ## The receive surface -/

/-- A call with input from the network. -/
inductive ReceiveCall where
  | unwrapCommit (data : Bytes)
  | unwrapWelcome (data : Bytes)
  | unwrapKeyPackage (data : Bytes)
  | welcome (data : Bytes) (dialect : Option String)
  | keyPackage (data : Bytes)
  | decryptApplicationMessage (receiver : MLSGroup) (payload : Bytes)
  | processUpdate (receiver : MLSGroup) (update : GroupUpdate)

namespace ReceiveCall

/-- Whether the call returns, and what it raises if it does not. -/
def run (C : Crypto) : ReceiveCall → Py Unit
  | unwrapCommit data => (fun _ => ()) <$> (MLSMessage.fromBytes data >>= MLSMessage.unwrapCommit)
  | unwrapWelcome data => (fun _ => ()) <$> (MLSMessage.fromBytes data >>= MLSMessage.unwrapWelcome)
  | unwrapKeyPackage data =>
      (fun _ => ()) <$> (MLSMessage.fromBytes data >>= MLSMessage.unwrapKeyPackage)
  | welcome data dialect => (fun _ => ()) <$> DialectWelcome.fromBytes data dialect
  | keyPackage data => (fun _ => ()) <$> KeyPackage.fromBytes data
  | decryptApplicationMessage receiver payload =>
    (fun _ => ()) <$> (receiver.decryptApplicationMessage C payload).2
  | processUpdate receiver update => (fun _ => ()) <$> (receiver.processUpdate C update).2

/-- The handle is one of a run, and the update was decoded. -/
def Admissible (C : Crypto) : ReceiveCall → Prop
  | decryptApplicationMessage receiver _ => Reached C receiver
  | processUpdate receiver update => Reached C receiver ∧ update.Decoded
  | _ => True

/-- The fields of the input are all there, and nothing is checked that raises something else. -/
def Fits (C : Crypto) : ReceiveCall → Prop
  | unwrapCommit data => MLSMessage.payloadFits 0x0001 PublicMessage.commitFits data
  | unwrapWelcome data => MLSMessage.payloadFits 0x0003 DialectWelcome.standardFits data
  | unwrapKeyPackage data => MLSMessage.payloadFits 0x0005 (KeyPackage.fits · 0) data
  | welcome data dialect => ∃ strategy, getDialect (dialect.getD "standard") = .ok strategy ∧
      DialectWelcome.bodyFits strategy data (DialectWelcome.bodyOffset strategy data)
  | keyPackage data => KeyPackage.fits data 0
  | decryptApplicationMessage _ payload => PayloadFits payload
  | processUpdate receiver update => UpdateFits C receiver update

end ReceiveCall

/-- A call with input from the network returns or raises `ValueError` exactly where the input
fits. -/
theorem malformed_input_graceful_iff (hC : C.Correct) (htag : C.DecryptFailsWithTag)
    (call : ReceiveCall) (h : call.Admissible C) : (call.run C).Graceful ↔ call.Fits C := by
  cases call with
  | unwrapCommit data =>
      exact Py.graceful_map_iff.trans (MLSMessage.unwrap_graceful_iff _
        (fun message => graceful_payload_iff (PublicMessage.commit_graceful_iff message.body)) data)
  | unwrapWelcome data =>
      exact Py.graceful_map_iff.trans (MLSMessage.unwrap_graceful_iff DialectWelcome.standardFits
        (fun message => graceful_payload_iff (DialectWelcome.standard_graceful_iff message.body))
          data)
  | unwrapKeyPackage data =>
      exact Py.graceful_map_iff.trans (MLSMessage.unwrap_graceful_iff (KeyPackage.fits · 0)
        (fun message => graceful_payload_iff (GracefulIff.run KeyPackage.gracefulIff message.body))
          data)
  | welcome data dialect =>
      exact Py.graceful_map_iff.trans (DialectWelcome.fromBytes_graceful_iff data dialect)
  | keyPackage data => exact Py.graceful_map_iff.trans (GracefulIff.run KeyPackage.gracefulIff data)
  | decryptApplicationMessage receiver payload =>
      exact Py.graceful_map_iff.trans (decrypt_graceful_iff hC htag h)
  | processUpdate receiver update =>
      exact Py.graceful_map_iff.trans (processUpdate_graceful_iff hC htag h.1 h.2.onWire h.2.packs)

/-- Alice and a payload that ends after the length of the sender data. -/
theorem malformed_input_graceful_alice : ∃ alice, Reached Sample.crypto alice ∧
    (((ReceiveCall.decryptApplicationMessage alice [0, 0]).run Sample.crypto).Graceful ↔
      (ReceiveCall.decryptApplicationMessage alice [0, 0]).Fits Sample.crypto) := by
  obtain ⟨_, hrun⟩ := Sample.reuse_ok
  simp only [Sample.reuse, Py.bind_eq_ok] at hrun
  obtain ⟨alice, hcreate, -⟩ := hrun
  have hreached : Reached Sample.crypto alice := .create hcreate
  exact ⟨alice, hreached, malformed_input_graceful_iff Sample.correct Sample.decryptFailsWithTag
    (.decryptApplicationMessage alice [0, 0]) hreached⟩

/-- A key package of no bytes raises `struct.error`. -/
theorem malformed_input_escapes : ¬ ∀ call : ReceiveCall, call.Admissible Sample.crypto →
    (call.run Sample.crypto).Graceful := by
  intro hall
  have hempty : ∃ message, (ReceiveCall.keyPackage []).run Sample.crypto =
      .error (.structError message) := ⟨_, rfl⟩
  obtain ⟨message, hraised⟩ := hempty
  cases hall (.keyPackage []) trivial _ hraised

end PureMls
