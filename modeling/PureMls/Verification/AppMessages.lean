import PureMls.Foundation.Machine
import PureMls.Verification.Derivation
import PureMls.Verification.Handles
import PureMls.Verification.SecretTree

/-! # Rejected application messages -/

namespace PureMls

/-- A call that sends or receives an application message. -/
inductive MessageCall where
  | encrypt (plaintext : Bytes)
  | decrypt (payload : Bytes)

/-- The handle after the call, and what the call returns or raises. -/
def MessageCall.run (C : Crypto) (self : MLSGroup) : MessageCall → MLSGroup × Py Bytes
  | encrypt plaintext => self.encryptApplicationMessage C plaintext
  | decrypt payload => self.decryptApplicationMessage C payload

namespace MLSGroup

variable {C : Crypto} {self self' : MLSGroup} {payload : Bytes}

/-- The same handle but for how much of the secret tree it has derived. -/
structure Alike (C : Crypto) (self self' : MLSGroup) : Prop where
  rest : self' = { self with secretTree := self'.secretTree }
  tree : SecretTree.Alike C self.getSecretTree self'.getSecretTree

theorem Alike.of_tree (st : SecretTree) (h : SecretTree.Alike C self.getSecretTree st) :
    Alike C self { self with secretTree := some st } := ⟨rfl, h⟩

/-- A message whose header does not open leaves the handle as it is. -/
theorem decrypt_of_header_error {e : Fault} (h : openHeader C self payload = .error e) :
    self.decryptApplicationMessage C payload = (self, .error e) := by
  simp only [decryptApplicationMessage, h]

theorem decrypt_of_header {senderLeaf gen : ℕ} {contentCt ad : Bytes}
    (h : openHeader C self payload = .ok (senderLeaf, gen, contentCt, ad)) :
    self.decryptApplicationMessage C payload =
      match self.getSecretTree.getKeyAndNonceForGen C senderLeaf gen .application with
      | (st, .error e) => ({ self with secretTree := some st }, .error (secretTreeFault e))
      | (st, .ok (key, nonce)) => ({ self with secretTree := some st },
          (C.aesGcmDecrypt key nonce contentCt ad).rethrow contentFault) := by
  simp only [decryptApplicationMessage, h]
  rcases self.getSecretTree.getKeyAndNonceForGen C senderLeaf gen .application with
    ⟨st, e | ⟨key, nonce⟩⟩ <;> rfl

/-- Handles that are alike answer every message call alike. -/
theorem Alike.run (h : Alike C self self') (call : MessageCall) :
    (call.run C self).2 = (call.run C self').2 ∧
      Alike C (call.run C self).1 (call.run C self').1 := by
  obtain ⟨hrest, htree⟩ := h
  generalize self'.secretTree = cached at hrest
  subst hrest
  cases call with
  | encrypt plaintext =>
      obtain ⟨hkeys, halike⟩ := SecretTree.getKeyAndNonce_alike htree self.myIndex .application
      simp only [MessageCall.run, encryptApplicationMessage]
      rcases hdrawn : self.getSecretTree.getKeyAndNonce C self.myIndex .application
        with ⟨moved, keys⟩
      rcases hdrawn' : ({ self with secretTree := cached } : MLSGroup).getSecretTree.getKeyAndNonce
        C self.myIndex .application with ⟨moved', keys'⟩
      simp only [hdrawn, hdrawn'] at hkeys halike
      subst hkeys
      rcases keys with e | ⟨key, nonce, gen⟩
      · exact ⟨rfl, rfl, halike⟩
      · exact ⟨rfl, rfl, halike⟩
  | decrypt payload =>
      cases hheader : openHeader C self payload with
      | error e =>
          have hheader' : openHeader C { self with secretTree := cached } payload = .error e :=
            hheader
          rw [MessageCall.run, MessageCall.run, decrypt_of_header_error hheader,
            decrypt_of_header_error hheader']
          exact ⟨rfl, rfl, htree⟩
      | ok header =>
          obtain ⟨senderLeaf, gen, contentCt, ad⟩ := header
          have hheader' : openHeader C { self with secretTree := cached } payload =
            .ok (senderLeaf, gen, contentCt, ad) := hheader
          obtain ⟨hkeys, halike⟩ := SecretTree.getKeyAndNonceForGen_alike htree senderLeaf gen
            .application
          rw [MessageCall.run, MessageCall.run, decrypt_of_header hheader,
            decrypt_of_header hheader']
          rcases hdrawn : self.getSecretTree.getKeyAndNonceForGen C senderLeaf gen .application
            with ⟨moved, keys⟩
          rcases hdrawn' : ({ self with secretTree := cached } :
            MLSGroup).getSecretTree.getKeyAndNonceForGen C senderLeaf gen .application
            with ⟨moved', keys'⟩
          simp only [hdrawn, hdrawn'] at hkeys halike
          subst hkeys
          rcases keys with e | ⟨key, nonce⟩
          · exact ⟨rfl, rfl, halike⟩
          · exact ⟨rfl, rfl, halike⟩

/-- Not beyond the tip of its ratchet, a message moves nothing. -/
theorem alike_of_not_ahead
    (h : ∀ senderLeaf gen contentCt ad,
      openHeader C self payload = .ok (senderLeaf, gen, contentCt, ad) →
      ∀ tip secret, self.getSecretTree.ratchetStart C senderLeaf .application = .ok (tip, secret) →
        gen ≤ tip) :
    Alike C self (self.decryptApplicationMessage C payload).1 := by
  cases hheader : openHeader C self payload with
  | error e =>
      rw [decrypt_of_header_error hheader]
      exact ⟨rfl, .refl _⟩
  | ok header =>
      obtain ⟨senderLeaf, gen, contentCt, ad⟩ := header
      have hstay : SecretTree.Alike C self.getSecretTree
          (self.getSecretTree.getKeyAndNonceForGen C senderLeaf gen .application).1 := by
        unfold SecretTree.getKeyAndNonceForGen
        cases hr : self.getSecretTree.getRatchetSecret C senderLeaf gen .application with
        | error e => exact .refl _
        | ok moved =>
            obtain ⟨next, moved⟩ := moved
            cases hstart : self.getSecretTree.ratchetStart C senderLeaf .application with
            | error e => simp [SecretTree.getRatchetSecret_error hstart] at hr
            | ok start =>
                obtain ⟨tip, secret⟩ := start
                have hle := h senderLeaf gen contentCt ad hheader tip secret hstart
                rcases Nat.lt_or_eq_of_le hle with hlt | rfl
                · simp [SecretTree.getRatchetSecret_behind hstart hlt] at hr
                · obtain ⟨hfst, hnext⟩ := SecretTree.getRatchetSecret_ahead hstart le_rfl
                  rw [hr, Py.map_ok, Nat.sub_self, SecretTree.ratchetForward, Py.pure_eq,
                    Except.ok.injEq] at hfst
                  have hmoved := hnext next moved hr
                  simp only at hfst
                  rw [hfst] at hmoved
                  exact (hmoved.trans (SecretTree.alike_withTip hstart)).symm
      rw [decrypt_of_header hheader]
      rcases hdrawn : self.getSecretTree.getKeyAndNonceForGen C senderLeaf gen .application with
        ⟨st, e | ⟨key, nonce⟩⟩
      all_goals
        rw [hdrawn] at hstay
        exact .of_tree st hstay

/-! ## The generation in the clear -/

private theorem append_parts (payload : Bytes) (n : ℕ) :
    payload = payload.take 2 ++ ((payload.drop 2).take n ++
      (((payload.drop (2 + n)).take 4) ++ payload.drop (2 + n + 4))) := by
  have h1 := List.take_append_drop 4 (payload.drop (2 + n))
  have h2 := List.take_append_drop n (payload.drop 2)
  have h3 := List.take_append_drop 2 payload
  rw [List.drop_drop] at h1 h2
  rw [h1, h2, h3]

/-- Any four bytes may stand in the place of the generation: the header still opens. -/
theorem openHeader_regen {senderLeaf gen : ℕ} {contentCt ad : Bytes}
    (h : openHeader C self payload = .ok (senderLeaf, gen, contentCt, ad)) {gen' : ℕ}
    (hgen : gen' < 256 ^ 4) :
    gen < 256 ^ 4 ∧ ∃ payload',
      openHeader C self payload' = .ok (senderLeaf, gen', contentCt, ad) := by
  have hparts := append_parts payload (beNat (slice payload 0 2))
  generalize hn : beNat (slice payload 0 2) = n at hparts
  simp only [openHeader, Py.bind_eq_ok, Py.pure_eq, Py.require_eq_ok, Except.ok.injEq,
    Prod.mk.injEq, hn] at h
  obtain ⟨_, hlen, ad', had, _, hraw, keys, hkeys, sender, hsender, _, hsize, _, hrange, hleaf,
    hval, hct, hadeq⟩ := h
  have hlen4 : 2 + n + 4 ≤ payload.length := by
    simp only [slice, List.length_take, List.length_drop] at hraw
    omega
  refine ⟨?_, payload.take 2 ++ ((payload.drop 2).take n ++ (beBytes 4 gen' ++
    payload.drop (2 + n + 4))), ?_⟩
  · have hlt := beNat_lt (slice payload (2 + n) (2 + n + 4))
    rw [hraw] at hlt
    rw [← hval]
    exact hlt
  · generalize hp : payload.take 2 ++ ((payload.drop 2).take n ++ (beBytes 4 gen' ++
      payload.drop (2 + n + 4))) = payload'
    have hl2 : (payload.take 2).length = 2 := by
      rw [List.length_take]
      omega
    have hln : ((payload.drop 2).take n).length = n := by
      rw [List.length_take, List.length_drop]
      omega
    have hlen' : 2 ≤ payload'.length := by
      rw [← hp, List.length_append, hl2]
      omega
    have h0 : slice payload' 0 2 = slice payload 0 2 := by
      rw [← hp, slice_append_left _ _ hl2]
      simp [slice]
    have h1 : slice payload' 2 (2 + n) = slice payload 2 (2 + n) := by
      rw [← hp, slice_mid hl2 (by omega)]
      simp [slice]
    have h2 : slice payload' (2 + n) (2 + n + 4) = beBytes 4 gen' := by
      rw [← hp, ← List.append_assoc]
      exact slice_mid (by rw [List.length_append, hl2, hln]) (by rw [length_beBytes])
    have h3 : payload'.drop (2 + n + 4) = payload.drop (2 + n + 4) := by
      rw [← hp, ← List.append_assoc, ← List.append_assoc]
      exact List.drop_left' (by simp only [List.length_append, hl2, hln, length_beBytes])
    simp only [openHeader, Py.bind_eq_ok, Py.pure_eq, Py.require_eq_ok, Except.ok.injEq,
      Prod.mk.injEq, h0, hn, h1, h2, h3, length_beBytes, beNat_beBytes hgen]
    exact ⟨(), hlen', ad', had, (), trivial, keys, hkeys, sender, hsender, (), hsize, (), hrange,
      hleaf, trivial, hct, hadeq⟩

/-! ## Keys of a generation -/

end MLSGroup

namespace SecretTree

variable {C : Crypto} {st : SecretTree} {leaf gen tip : ℕ} {type : SecretType} {secret : Bytes}

theorem ratchetForward_ok {rounds g : ℕ} (h : g + rounds ≤ 256 ^ 4) :
    ∃ next, ratchetForward C rounds g secret = .ok next := by
  induction rounds generalizing g secret with
  | zero => exact ⟨secret, rfl⟩
  | succ rounds ih =>
      have hcontext : structPack 4 g = .ok (beBytes 4 g) := structPack_eq_ok.mpr ⟨by omega, rfl⟩
      obtain ⟨next, hnext⟩ : ∃ next,
        expandWithLabel C secret "secret" (beBytes 4 g) 32 = .ok next :=
        expandWithLabel_ok (by decide) (by simp) (by decide)
      obtain ⟨last, hlast⟩ : ∃ last, ratchetForward C rounds (g + 1) next = .ok last :=
        ih (by omega)
      exact ⟨last, by rw [ratchetForward, hcontext, Py.ok_bind, hnext, Py.ok_bind, hlast]⟩

/-- Key and nonce have the sizes AES-128-GCM asks for. -/
theorem keyAndNonce_ok (hC : C.Correct) (secret : Bytes) (hgen : gen < 256 ^ 4) :
    ∃ key nonce, keyAndNonce C secret gen = .ok (key, nonce) ∧ key.length = 16 ∧
      nonce.length = 12 := by
  have hcontext : structPack 4 gen = .ok (beBytes 4 gen) := structPack_eq_ok.mpr ⟨hgen, rfl⟩
  obtain ⟨key, hkey⟩ : ∃ key, expandWithLabel C secret "key" (beBytes 4 gen) 16 = .ok key :=
    expandWithLabel_ok (by decide) (by simp) (by decide)
  obtain ⟨nonce, hnonce⟩ : ∃ nonce,
    expandWithLabel C secret "nonce" (beBytes 4 gen) 12 = .ok nonce :=
    expandWithLabel_ok (by decide) (by simp) (by decide)
  refine ⟨key, nonce, ?_, length_expandWithLabel hC hkey, length_expandWithLabel hC hnonce⟩
  rw [keyAndNonce, hcontext, Py.ok_bind, hkey, Py.ok_bind, hnonce]
  rfl

/-- At or beyond the tip a key comes out, and the tip moves to the generation asked for. -/
theorem getKeyAndNonceForGen_ahead (hC : C.Correct)
    (h : st.ratchetStart C leaf type = .ok (tip, secret)) (hle : tip ≤ gen) (hgen : gen < 256 ^ 4) :
    ∃ moved key nonce next, st.getKeyAndNonceForGen C leaf gen type = (moved, .ok (key, nonce)) ∧
      key.length = 16 ∧ nonce.length = 12 ∧ moved.ratchetStart C leaf type = .ok (gen, next) := by
  obtain ⟨next, hnext⟩ : ∃ next, ratchetForward C (gen - tip) tip secret = .ok next :=
    ratchetForward_ok (by omega)
  obtain ⟨hfst, hmoved⟩ := getRatchetSecret_ahead h hle
  rw [hnext] at hfst
  obtain ⟨⟨next', moved⟩, hr, hfst⟩ := Py.map_eq_ok.mp hfst
  simp only at hfst
  subst hfst
  obtain ⟨key, nonce, hkeys, hkey, hnonce⟩ := keyAndNonce_ok hC next' hgen
  refine ⟨moved, key, nonce, next', ?_, hkey, hnonce, ?_⟩
  · rw [getKeyAndNonceForGen, hr]
    simp only [hkeys]
  · rw [(hmoved next' moved hr).start, ratchetStart_withTip, if_pos rfl]

end SecretTree

namespace MLSGroup

variable {C : Crypto} {self : MLSGroup} {payload : Bytes}

/-- A fault of the secret tree is not reported like a failed content tag. -/
private theorem secretTreeFault_ne_tag (message : String) :
    secretTreeFault (.valueError message) ≠ contentFault .invalidTag := by
  intro h
  rw [secretTreeFault, contentFault, if_pos rfl, Fault.valueError.injEq] at h
  have hhead := congrArg (fun text => text.toList.head?) h
  have hleft : ("SecretTree: " ++ message).toList.head? = some 'S' := by
    rw [String.toList_append]
    rfl
  exact absurd (hleft.symm.trans hhead) (by decide)

/-- Beyond the tip of its ratchet, a message makes the handle refuse what it took before. -/
theorem exists_refused (hC : C.Correct) {senderLeaf gen tip : ℕ} {contentCt ad secret : Bytes}
    (hheader : openHeader C self payload = .ok (senderLeaf, gen, contentCt, ad))
    (hstart : self.getSecretTree.ratchetStart C senderLeaf .application = .ok (tip, secret))
    (hlt : tip < gen) :
    ∃ later, (self.decryptApplicationMessage C later).2 ≠
      ((self.decryptApplicationMessage C payload).1.decryptApplicationMessage C later).2 := by
  have hgen := (openHeader_regen hheader (Nat.two_pow_pos 32)).1
  obtain ⟨-, later, hlater⟩ := openHeader_regen hheader (hlt.trans hgen)
  obtain ⟨moved, key, nonce, next, hdrawn, -, -, hmoved⟩ :=
    SecretTree.getKeyAndNonceForGen_ahead hC hstart hlt.le hgen
  obtain ⟨moved', key', nonce', -, hdrawn', hkey', hnonce', -⟩ :=
    SecretTree.getKeyAndNonceForGen_ahead hC hstart le_rfl (show tip < 256 ^ 4 by omega)
  have hafter : (self.decryptApplicationMessage C payload).1 =
      { self with secretTree := some moved } := by
    rw [decrypt_of_header hheader, hdrawn]
  have hlater' : openHeader C { self with secretTree := some moved } later =
    .ok (senderLeaf, tip, contentCt, ad) := hlater
  have hbehind : moved.getKeyAndNonceForGen C senderLeaf tip .application = (moved, .error
      (.valueError s!"SecretTree forward-secrecy: gen {tip} < tip {gen}")) := by
    rw [SecretTree.getKeyAndNonceForGen, SecretTree.getRatchetSecret_behind hmoved hlt]
  have hrefused : (({ self with secretTree := some moved } : MLSGroup).decryptApplicationMessage
      C later).2 = .error (secretTreeFault
        (.valueError s!"SecretTree forward-secrecy: gen {tip} < tip {gen}")) := by
    have htree : ({ self with secretTree := some moved } : MLSGroup).getSecretTree = moved := rfl
    rw [decrypt_of_header hlater', htree, hbehind]
  refine ⟨later, fun heq => ?_⟩
  rw [hafter, hrefused, decrypt_of_header hlater, hdrawn'] at heq
  simp only at heq
  cases hopen : C.aesGcmDecrypt key' nonce' contentCt ad with
  | ok plaintext => simp [hopen, Py.rethrow] at heq
  | error e =>
      rw [hopen, Py.rethrow, Except.error.injEq] at heq
      by_cases htag : e = .invalidTag
      · subst htag
        exact secretTreeFault_ne_tag _ heq.symm
      · rw [contentFault, if_neg htag] at heq
        subst heq
        exact hC.decrypt_fault key' nonce' contentCt ad _ hkey' hnonce' hopen

end MLSGroup

/-- After a rejected message every later call answers as if the message had never come, exactly
when its header does not open, or its generation is not beyond the tip of the sender's ratchet,
or that ratchet cannot be derived. -/
theorem rejected_message_harmless_iff {C : Crypto} (hC : C.Correct) {self : MLSGroup}
    {payload : Bytes} {e : Fault} (_ : (self.decryptApplicationMessage C payload).2 = .error e) :
    (∀ calls,
      Machine.outputs (MessageCall.run C) (self.decryptApplicationMessage C payload).1 calls =
      Machine.outputs (MessageCall.run C) self calls) ↔
    ∀ senderLeaf gen contentCt ad,
      MLSGroup.openHeader C self payload = .ok (senderLeaf, gen, contentCt, ad) →
      ∀ tip secret, self.getSecretTree.ratchetStart C senderLeaf .application = .ok (tip, secret) →
        gen ≤ tip := by
  constructor
  · intro hsame senderLeaf gen contentCt ad hheader tip secret hstart
    by_contra hlt
    obtain ⟨later, hne⟩ := MLSGroup.exists_refused hC hheader hstart (Nat.not_le.mp hlt)
    have hlater := hsame [.decrypt later]
    simp only [Machine.outputs, MessageCall.run, List.cons.injEq, and_true] at hlater
    exact hne hlater.symm
  · intro hahead calls
    exact (Machine.outputs_congr (fun _ _ call h => h.run call)
      (MLSGroup.alike_of_not_ahead hahead) calls).symm

namespace Sample

/-- Alice alone sends a message; its copy with generation 5 is rejected, and then she cannot
send any more. -/
def forgery : Py (MLSGroup × Bytes) := do
  let alice ← MLSGroup.create crypto (ascii "g") (sig 1) (kem 1) (kem 2)
  let message ← (alice.encryptApplicationMessage crypto (ascii "hi")).2
  let sent := (alice.encryptApplicationMessage crypto (ascii "hi")).1
  let forged := message.set 25 5
  let _ ← (sent.encryptApplicationMessage crypto (ascii "ho")).2
  expectFault (sent.decryptApplicationMessage crypto forged).2
    (.valueError "Application message decryption failed: authentication tag mismatch")
  expectFault ((sent.decryptApplicationMessage crypto forged).1.encryptApplicationMessage crypto
    (ascii "ho")).2 (.valueError "SecretTree forward-secrecy: gen 1 < tip 5")
  pure (alice, forged)

theorem forgery_ok : ∃ r, forgery = .ok r := Py.ok_of_isOk (by decide +kernel)

/-- Bob gets two messages of Alice's, and the first once more under the generation of the second. -/
def garbling : Py (MLSGroup × Bytes) := do
  let bobPackage ← keyPackage 20
  let alice ← MLSGroup.create crypto (ascii "g") (sig 1) (kem 1) (kem 2)
  let (alice1, welcome, _) ← (alice.addMember crypto (coins 40) bobPackage).2
  let bob ← MLSGroup.join crypto welcome (sig 20) (kem 20) [] none
  let first ← (alice1.encryptApplicationMessage crypto (ascii "hi")).2
  let second ←
    ((alice1.encryptApplicationMessage crypto (ascii "hi")).1.encryptApplicationMessage crypto
    (ascii "ho")).2
  let bob2 :=
    ((bob.decryptApplicationMessage crypto first).1.decryptApplicationMessage crypto second).1
  let garbled := first.set 25 1
  expect (((bob.decryptApplicationMessage crypto first).1.decryptApplicationMessage crypto
    second).2 = .ok (ascii "ho"))
  expectFault (bob2.decryptApplicationMessage crypto garbled).2
    (.valueError "Application message decryption failed: authentication tag mismatch")
  let (senderLeaf, gen, _, _) ← MLSGroup.openHeader crypto bob2 garbled
  let (tip, _) ← bob2.getSecretTree.ratchetStart crypto senderLeaf .application
  expect (gen = 1 ∧ tip = 1)
  pure (bob2, garbled)

theorem garbling_ok : ∃ r, garbling = .ok r := Py.ok_of_isOk (by decide +kernel)

end Sample

open Sample in
/-- Bob has two messages of Alice's; a copy of the first under the generation of the second is
rejected and changes nothing. -/
theorem rejected_message_garbled :
    ∃ bob payload e senderLeaf contentCt ad secret, Reachable crypto bob ∧
      (bob.decryptApplicationMessage crypto payload).2 = .error e ∧
      MLSGroup.openHeader crypto bob payload = .ok (senderLeaf, 1, contentCt, ad) ∧
      bob.getSecretTree.ratchetStart crypto senderLeaf .application = .ok (1, secret) ∧
      ∀ calls, Machine.outputs (MessageCall.run crypto)
        (bob.decryptApplicationMessage crypto payload).1 calls =
        Machine.outputs (MessageCall.run crypto) bob calls := by
  obtain ⟨_, hrun⟩ := garbling_ok
  simp only [garbling, expectFault, expect, Py.bind_eq_ok, Py.require_eq_ok] at hrun
  obtain ⟨_, -, alice, -, ⟨_, welcome, _⟩, -, bob, hjoin, first, -, second, -, _, -, _, hreject,
    ⟨senderLeaf, gen, contentCt, ad⟩, hheader, ⟨tip, secret⟩, hstart, _, ⟨hgen, htip⟩, -⟩ := hrun
  simp only at hheader hstart hgen htip
  subst hgen htip
  have hjoined : Reachable crypto bob := .join hjoin
  refine ⟨_, _, _, senderLeaf, contentCt, ad, secret, .decrypt second (.decrypt first hjoined),
    Py.fault?_eq_some.mp hreject, hheader, hstart,
    (rejected_message_harmless_iff correct (Py.fault?_eq_some.mp hreject)).mpr ?_⟩
  intro senderLeaf' gen' contentCt' ad' hopen tip' secret' hstart'
  rw [hheader, Except.ok.injEq, Prod.mk.injEq, Prod.mk.injEq] at hopen
  obtain ⟨rfl, rfl, -⟩ := hopen
  rw [hstart, Except.ok.injEq, Prod.mk.injEq] at hstart'
  exact hstart'.1.le

/-- Alice could send her next message, but not after she was given the forged one. -/
theorem rejected_message_blocks_sender :
    ∃ self payload e plaintext, Reachable Sample.crypto self ∧
      (self.decryptApplicationMessage Sample.crypto payload).2 = .error e ∧
      Machine.outputs (MessageCall.run Sample.crypto)
        (self.decryptApplicationMessage Sample.crypto payload).1 [.encrypt plaintext] ≠
      Machine.outputs (MessageCall.run Sample.crypto) self [.encrypt plaintext] := by
  obtain ⟨_, hrun⟩ := Sample.forgery_ok
  simp only [Sample.forgery, Sample.expectFault, Sample.expect, Py.bind_eq_ok,
    Py.require_eq_ok] at hrun
  obtain ⟨alice, hcreate, message, -, _, hsent, _, hreject, _, hblocked, -⟩ := hrun
  refine ⟨_, _, _, ascii "ho", .encrypt (ascii "hi") (.create hcreate),
    Py.fault?_eq_some.mp hreject, fun heq => ?_⟩
  simp only [Machine.outputs, MessageCall.run, List.cons.injEq, and_true] at heq
  rw [Py.fault?_eq_some.mp hblocked, hsent] at heq
  cases heq

end PureMls
