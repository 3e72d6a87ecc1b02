import PureMls.Verification.Dialects
import PureMls.Verification.Membership

/-! # What a joiner makes of its Welcome

The joiner rebuilds the epoch that the committer reached. Where it puts itself is the first leaf
with its signature key. -/

namespace PureMls

open RatchetTree MLSGroup

variable {C : Crypto} {sender next : MLSGroup} {coins : CommitCoins}
  {kp : KeyPackage} {welcome : Welcome} {update : GroupUpdate}

/-! ## The Welcome on the wire -/

/-- AES-GCM appends a tag of 16 bytes. -/
def Crypto.TagSized (C : Crypto) : Prop :=
  ∀ key nonce data ad ct, C.aesGcmEncrypt key nonce data ad = .ok ct → ct.length = data.length + 16

theorem egsInfo_lt {egi info : Bytes} (h : egsInfo egi = .ok info) : egi.length < 2 ^ 30 := by
  simp only [egsInfo, makeHpkeInfo, tlsOpaque, Py.bind_eq_ok] at h
  obtain ⟨_, -, _, ⟨_, hsize, -⟩, -⟩ := h
  exact lt_of_tlsVarint hsize

theorem length_makeKpRef (hC : C.Correct) {ref : Bytes} (h : makeKpRef C kp = .ok ref) :
    ref.length = 32 := by
  obtain ⟨_, -, rfl⟩ := Py.map_eq_ok.mp h
  exact hC.sha256_size _

theorem EncryptedGroupSecrets.toBytes_ok (secrets : EncryptedGroupSecrets)
    (hmember : secrets.newMember.length = 32)
    (houtput : secrets.kemOutput.length = 32) (hct : secrets.ciphertext.length ≤ 64) :
    ∃ e, secrets.toBytes = .ok e ∧ e.length < 2 ^ 30 := by
  obtain ⟨member, hm⟩ := tlsOpaque_ok (show secrets.newMember.length < 2 ^ 30 by omega)
  obtain ⟨output, ho⟩ := tlsOpaque_ok (show secrets.kemOutput.length < 2 ^ 30 by omega)
  obtain ⟨ciphertext, hc⟩ := tlsOpaque_ok (show secrets.ciphertext.length < 2 ^ 30 by omega)
  have hmLen := length_tlsOpaque hm
  have hoLen := length_tlsOpaque ho
  have hcLen := length_tlsOpaque hc
  refine ⟨member ++ output ++ ciphertext, ?_, ?_⟩
  · rw [toBytes, hm, Py.ok_bind, ho, Py.ok_bind, hc]
    rfl
  · rw [List.length_append, List.length_append]
    omega

theorem Strategy.encodeVector_standard_ok {body : Bytes} (h : body.length < 2 ^ 30) :
    ∃ vec, Strategy.standard.encodeVector [body] = .ok vec := by
  obtain ⟨size, hsize⟩ := returns_varint h
  refine ⟨size ++ body, ?_⟩
  simp only [encodeVector, tlsLength, List.flatten_singleton, hsize, Py.ok_bind, Py.pure_eq]

/-- A Welcome to one member in the standard dialect is read back. -/
theorem DialectWelcome.single_round_trip {secrets : EncryptedGroupSecrets} {egi entry : Bytes}
    (hentry : secrets.toBytes = .ok entry) (hentryLen : entry.length < 2 ^ 30)
    (hegi : egi.length < 2 ^ 30) : ∃ data,
    DialectWelcome.toBytes ⟨⟨0x0001, [secrets], egi⟩, none⟩ = .ok data ∧
    DialectWelcome.fromBytes data none = .ok ⟨⟨0x0001, [secrets], egi⟩, some "standard"⟩ := by
  obtain ⟨egs, hegs⟩ := Strategy.encodeVector_standard_ok hentryLen
  obtain ⟨info, hinfo⟩ := Strategy.encodeVector_standard_ok hegi
  have hjoined : joinBytes EncryptedGroupSecrets.toBytes [secrets] = .ok entry := by
    simp only [joinBytes, List.mapM_cons, List.mapM_nil, hentry, Py.ok_bind, Py.pure_eq, Py.map_ok,
      List.flatten_singleton]
  refine ⟨[0x00, 0x01] ++ egs ++ info, ?_, ?_⟩
  · have hname : getDialect (DialectWelcome.dialectName ⟨⟨0x0001, [secrets], egi⟩, none⟩) =
        .ok Strategy.standard := rfl
    have hsuite : tlsU16 0x0001 = .ok [0x00, 0x01] := rfl
    simp only [DialectWelcome.toBytes, hname, hjoined, hegs, hinfo, hsuite, Py.ok_bind, Py.pure_eq]
    rfl
  · have hencoded :
      DialectWelcome.Encoded .standard ⟨⟨0x0001, [secrets], egi⟩, some "standard"⟩ entry egs
        info := ⟨hjoined, hegs, hinfo⟩
    exact hencoded.round_trip fun hwrapped => List.cons_ne_nil _ _ hwrapped.2.1

/-- The Welcome that `add_member` makes can be encoded, and is read back. -/
theorem MLSGroup.buildWelcome_round_trip (hC : C.Correct) (htag : C.TagSized) {commit : Commit}
    (h : buildWelcome C sender coins kp commit = .ok welcome)
    (hjoiner : commit.nextState.keySchedule.joinerSecret.length = 32) : ∃ data,
    DialectWelcome.toBytes ⟨welcome, none⟩ = .ok data ∧
    DialectWelcome.fromBytes data none = .ok ⟨welcome, some "standard"⟩ := by
  obtain ⟨_, _, _, _, _, _, _, egi, gsBytes, sealInfo, enc, ct, ref, -, -, -, -, -, -, -, -, hgs,
    hseal, hct, href, rfl⟩ := buildWelcome_eq_ok h
  have hgsLen : gsBytes.length ≤ 48 := by
    simp only [GroupSecrets.toBytes, Py.bind_eq_ok, Py.pure_eq, Except.ok.injEq] at hgs
    obtain ⟨joiner, hj, path, hpath, _, hnone, psks, hpsks, rfl⟩ := hgs
    cases hpath
    cases hnone
    have hjLen := length_tlsOpaque hj
    have hpsksLen := length_tlsOpaque hpsks
    rw [hjoiner] at hjLen
    rw [show ([] : List Bytes).reverse.flatten.length = 0 from rfl] at hpsksLen
    rw [List.length_append, List.length_append, List.length_singleton]
    omega
  simp only [HPKE.sealTo, Py.bind_eq_ok, Py.pure_eq, Except.ok.injEq, Prod.mk.injEq] at hct
  obtain ⟨_, -, _, -, ct, hencrypt, rfl, rfl⟩ := hct
  have hctLen := htag _ _ _ _ _ hencrypt
  have hrefLen := length_makeKpRef hC href
  obtain ⟨entry, hentry, hentryLen⟩ := EncryptedGroupSecrets.toBytes_ok ⟨ref, _, ct⟩ hrefLen
    (hC.x25519_size _ coins.welcomeEphemeral.size) (show ct.length ≤ 64 by omega)
  exact DialectWelcome.single_round_trip hentry hentryLen (egsInfo_lt hseal)

/-! ## The leaf that is found -/

/-- The leaf index at which `add_member` places the new leaf. -/
def MLSGroup.newLeafIndex (self : MLSGroup) : ℕ := (placement self.state.tree).2 / 2

/-- The leaf at the new slot is the first with its signature key: it is not overwritten by a leaf of
the committer with another key, and no leaf before it has the key. -/
structure NewLeafFirst (C : Crypto) (sender : MLSGroup) (kp : KeyPackage) : Prop where
  stays : sender.newLeafIndex = sender.myIndex →
    kp.leafNode.signatureKey = sender.mySigKey.publicBytes C
  committer : sender.myIndex < sender.newLeafIndex →
    kp.leafNode.signatureKey ≠ sender.mySigKey.publicBytes C
  others : ∀ l < sender.newLeafIndex, l ≠ sender.myIndex → ∀ leaf,
    sender.state.tree.getLeaf (2 * l) = some leaf → leaf.signatureKey ≠ kp.leafNode.signatureKey

namespace Built

variable {committed : Committed} (r : Built C sender coins (.addMember kp) committed)

include r in
/-- The new leaf is placed before the committer's own leaf is written. -/
theorem getLeaf_placed (h : sender.state.tree.OnWire) :
    r.base.getLeaf (2 * sender.newLeafIndex) = some kp.leafNode := by
  have hslot : Proposal.slot sender.state.tree (.addMember kp) = some sender.newLeafIndex := rfl
  rw [r.getLeaf_base h, Proposal.leafAfter, if_pos hslot]
  rfl

include r in
/-- Adding a member changes no signature key but the committer's and the one at its place. -/
theorem signatureKey_next (hC : C.Correct) (h : sender.state.tree.OnWire) (l : ℕ) :
    (r.path.tree.getLeaf (2 * l)).map LeafNode.signatureKey =
      if l = sender.myIndex then some (sender.mySigKey.publicBytes C)
      else if l = sender.newLeafIndex then some kp.leafNode.signatureKey
      else (sender.state.tree.getLeaf (2 * l)).map LeafNode.signatureKey := by
  rw [r.getLeaf_tree h]
  by_cases hl : l = sender.myIndex
  · rw [if_pos hl, if_pos hl]
    exact congrArg some (ownKeyPackage_leaf hC r.path.keyPackage_eq).2.1
  rw [if_neg hl, if_neg hl, Proposal.leafAfter]
  by_cases hnew : l = sender.newLeafIndex
  · have hslot : Proposal.slot sender.state.tree (.addMember kp) = some l := congrArg some hnew.symm
    rw [if_pos hslot, if_pos hnew]
    rfl
  · have hother : Proposal.slot sender.state.tree (.addMember kp) ≠ some l :=
      fun heq => hnew (Option.some.inj heq).symm
    rw [if_neg hother, if_neg hnew]

include r in
/-- The key of the new leaf is found unless the committer's own leaf has overwritten it. -/
theorem findOwnLeaf_of_stays (hC : C.Correct) (h : sender.state.tree.OnWire)
    (hstays : sender.newLeafIndex = sender.myIndex →
      kp.leafNode.signatureKey = sender.mySigKey.publicBytes C) :
    ∃ found, findOwnLeaf r.path.tree kp.leafNode.signatureKey = some found := by
  have hnew := r.signatureKey_next hC h sender.newLeafIndex
  have hkey : (r.path.tree.getLeaf (2 * sender.newLeafIndex)).map LeafNode.signatureKey =
      some kp.leafNode.signatureKey := by
    by_cases hown : sender.newLeafIndex = sender.myIndex
    · rw [hnew, if_pos hown, hstays hown]
    · rw [hnew, if_neg hown, if_pos rfl]
  obtain ⟨leaf, hleaf, hsame⟩ := Option.map_eq_some_iff.mp hkey
  exact findOwnLeaf_of_leaf hleaf hsame

include r in
/-- When no leaf had the key before, whoever is found is the new leaf or the committer. -/
theorem stays_of_findOwnLeaf (hC : C.Correct) (h : sender.state.tree.OnWire)
    (hfresh : ∀ l leaf, sender.state.tree.getLeaf (2 * l) = some leaf →
      leaf.signatureKey ≠ kp.leafNode.signatureKey) {found : ℕ}
    (hfound : findOwnLeaf r.path.tree kp.leafNode.signatureKey = some found)
    (hown : sender.newLeafIndex = sender.myIndex) :
    kp.leafNode.signatureKey = sender.mySigKey.publicBytes C := by
  obtain ⟨⟨leaf, hleaf, hkey⟩, -⟩ := findOwnLeaf_eq_some.mp hfound
  have hnext := r.signatureKey_next hC h found
  rw [hleaf, Option.map_some, hkey] at hnext
  by_cases hf : found = sender.myIndex
  · rw [if_pos hf] at hnext
    exact Option.some.inj hnext
  · rw [if_neg hf, if_neg fun heq => hf (heq.trans hown)] at hnext
    obtain ⟨old, hold, hsame⟩ := Option.map_eq_some_iff.mp hnext.symm
    exact absurd hsame (hfresh found old hold)

include r in
/-- The new leaf is found exactly when it stays and no leaf before it has its signature key. -/
theorem findOwnLeaf_new_iff (hC : C.Correct) (h : sender.state.tree.OnWire) :
    findOwnLeaf r.path.tree kp.leafNode.signatureKey = some sender.newLeafIndex ↔
      NewLeafFirst C sender kp := by
  have hkeys := r.signatureKey_next hC h
  rw [findOwnLeaf_eq_some]
  constructor
  · rintro ⟨⟨leaf, hleaf, hkey⟩, hfirst⟩
    refine ⟨fun hown => ?_, fun hlt heq => ?_, fun l hl hne leaf hleaf hsame => ?_⟩
    · have hnew := hkeys sender.newLeafIndex
      rw [hleaf, Option.map_some, hkey, if_pos hown] at hnew
      exact Option.some.inj hnew
    · have hown := hkeys sender.myIndex
      rw [if_pos rfl] at hown
      obtain ⟨own, hown, hsame⟩ := Option.map_eq_some_iff.mp hown
      exact hfirst _ hlt own hown (hsame.trans heq.symm)
    · have hnext := hkeys l
      rw [if_neg hne, if_neg hl.ne, hleaf, Option.map_some, hsame] at hnext
      obtain ⟨leaf', hleaf', hkey'⟩ := Option.map_eq_some_iff.mp hnext
      exact hfirst l hl leaf' hleaf' hkey'
  · rintro ⟨hstays, hcommitter, hothers⟩
    have hnew : (r.path.tree.getLeaf (2 * sender.newLeafIndex)).map LeafNode.signatureKey =
        some kp.leafNode.signatureKey := by
      rw [hkeys]
      by_cases hown : sender.newLeafIndex = sender.myIndex
      · rw [if_pos hown, hstays hown]
      · rw [if_neg hown, if_pos rfl]
    refine ⟨Option.map_eq_some_iff.mp hnew, fun l hl leaf hleaf hsame => ?_⟩
    have hnext := hkeys l
    rw [hleaf, Option.map_some, hsame] at hnext
    by_cases hown : l = sender.myIndex
    · rw [if_pos hown, Option.some.injEq] at hnext
      exact hcommitter (hown ▸ hl) hnext
    · rw [if_neg hown, if_neg hl.ne] at hnext
      obtain ⟨leaf', hleaf', hkey⟩ := Option.map_eq_some_iff.mp hnext.symm
      exact hothers l hl hown leaf' hleaf' hkey

end Built

/-! ## The joiner's epoch -/

/-- The joiner is where the committer is. -/
structure SameEpoch (joined next : MLSGroup) : Prop where
  groupId : joined.state.groupId = next.state.groupId
  epochId : joined.state.epochId = next.state.epochId
  tree : ∃ treeBytes, joined.state.tree.toBytes = .ok treeBytes ∧
    next.state.tree.toBytes = .ok treeBytes
  keySchedule : joined.state.keySchedule = next.state.keySchedule
  interim : joined.interimTranscriptHash = next.interimTranscriptHash

/-- Whoever opens the Welcome to the key package that was added joins at the first leaf with its
signature key, in the committer's epoch, and does not join when there is none. -/
theorem join_of_addMember (hC : C.Correct) (h : sender.state.tree.OnWire) {sigKey : SignatureKey}
    {kemKey : KemKey} (hadd : (sender.addMember C coins kp).2 = .ok (next, welcome, update))
    (hsig : kp.leafNode.signatureKey = sigKey.publicBytes C)
    (hinit : kp.initKeyPub = kemKey.publicBytes C) :
    ∃ r : Built C sender coins (.addMember kp) ⟨next, update, some welcome⟩,
      (∀ joined, join C welcome sigKey kemKey [] none = .ok joined →
        findOwnLeaf r.path.tree kp.leafNode.signatureKey = some joined.myIndex) ∧
      ∀ found, findOwnLeaf r.path.tree kp.leafNode.signatureKey = some found →
        ∃ joined, join C welcome sigKey kemKey [] none = .ok joined ∧ joined.myIndex = found ∧
          SameEpoch joined next := by
  have hcommit :
    Proposal.commit C sender coins (.addMember kp) = .ok ⟨next, update, some welcome⟩ := by
    rw [Proposal.commit, hadd]
    rfl
  obtain ⟨r⟩ := Proposal.commit_eq_ok hcommit
  have hkey : kp.initKeyPub = (⟨sigKey, kemKey⟩ : Joiner).kemKey.publicBytes C := hinit
  have hjoin := r.enter_eq hC h rfl rfl hkey
  rw [← hsig] at hjoin
  refine ⟨r, fun joined hjoined => ?_, fun found hfound => ?_⟩
  · cases hfound : findOwnLeaf r.path.tree kp.leafNode.signatureKey with
    | none =>
        rw [hjoined, hfound] at hjoin
        cases hjoin
    | some found =>
        rw [hjoined, hfound, Except.ok.injEq] at hjoin
        rw [hjoin]
        rfl
  · rw [hfound] at hjoin
    have hagree := r.entered_agrees found ⟨sigKey, kemKey⟩
    obtain ⟨-, _, hwelcome, hbuild⟩ := r.welcome_eq kp rfl
    obtain ⟨_, treeBytes, _, _, _, _, _, _, _, _, _, _, _, -, htree, -⟩ := buildWelcome_eq_ok hbuild
    refine ⟨_, hjoin, rfl, hagree.groupId, hagree.epochId, ⟨treeBytes, ?_, ?_⟩, hagree.keySchedule,
      hagree.interim⟩
    · rw [← htree]
      exact toBytes_canon _
    · rw [← htree]
      exact congrArg RatchetTree.toBytes r.next_tree

/-- The Welcome is made from a joiner secret of 32 bytes. -/
theorem buildWelcome_of_addMember (hC : C.Correct)
    (hadd : (sender.addMember C coins kp).2 = .ok (next, welcome, update)) :
    ∃ consumed commit, buildWelcome C (sender.withConsumed consumed) coins kp commit = .ok welcome ∧
      commit.nextState.keySchedule.joinerSecret.length = 32 := by
  have hcommit :
    Proposal.commit C sender coins (.addMember kp) = .ok ⟨next, update, some welcome⟩ := by
    rw [Proposal.commit, hadd]
    rfl
  obtain ⟨r⟩ := Proposal.commit_eq_ok hcommit
  obtain ⟨-, _, hwelcome, hbuild⟩ := r.welcome_eq kp rfl
  cases hwelcome
  refine ⟨_, _, hbuild, ?_⟩
  obtain ⟨_, _, ks, hsecrets, hks, hnext⟩ := EpochState.advanceEpoch_eq_ok r.finished.nextState_eq
  obtain ⟨_, -, hjoiner, -⟩ := KeySchedule.deriveEpochSecret_eq_ok hsecrets
  have hsame : r.finished.nextState.keySchedule = ks := by rw [hnext]
  show r.finished.nextState.keySchedule.joinerSecret.length = 32
  rw [hsame, (KeySchedule.fromEpochSecret_eq_ok hks).1]
  exact length_expandWithLabel hC hjoiner

namespace Sample

/-- Alice adds a member under the signature key `b`. -/
structure Entry where
  keyPackage : KeyPackage
  alice0 : MLSGroup
  alice1 : MLSGroup
  welcome : Welcome
  update : GroupUpdate
  joined : MLSGroup

def entry (b : UInt8) : Py Entry := do
  let package ← KeyPackage.create ((kem 20).publicBytes crypto) ((kem 20).publicBytes crypto)
    ((sig b).publicBytes crypto) (ascii "joiner") ((sig b).sign crypto)
  let alice0 ← MLSGroup.create crypto (ascii "g") (sig 1) (kem 1) (kem 2)
  let (alice1, welcome, update) ← (alice0.addMember crypto (Sample.coins 40) package).2
  let joined ← MLSGroup.join crypto welcome (sig b) (kem 20) [] none
  pure ⟨package, alice0, alice1, welcome, update, joined⟩

theorem entering {b : UInt8} {e : Entry} (h : entry b = .ok e) :
    MLSGroup.create crypto (ascii "g") (sig 1) (kem 1) (kem 2) = .ok e.alice0 ∧
    (e.alice0.addMember crypto (Sample.coins 40) e.keyPackage).2 = .ok
    (e.alice1, e.welcome, e.update) ∧
    join crypto e.welcome (sig b) (kem 20) [] none = .ok e.joined ∧
    e.keyPackage.leafNode.signatureKey = (sig b).publicBytes crypto ∧
    e.keyPackage.leafNode.encryptionKey = (kem 20).publicBytes crypto ∧
    e.keyPackage.initKeyPub = e.keyPackage.leafNode.encryptionKey := by
  simp only [entry, Py.bind_eq_ok, Py.pure_eq, Except.ok.injEq] at h
  obtain ⟨package, hpackage, alice0, hcreate, ⟨alice1, welcome, update⟩, hadd, joined, hjoin,
    rfl⟩ := h
  simp only [KeyPackage.create, LeafNode.create, LeafNode.sign, Py.bind_eq_ok, Py.pure_eq,
    Except.ok.injEq] at hpackage
  obtain ⟨_, ⟨_, -, rfl⟩, _, -, rfl⟩ := hpackage
  exact ⟨hcreate, hadd, hjoin, rfl, rfl, rfl⟩

/-- Bob's signature key is not in the group. -/
theorem entry_bob : ∃ e, entry 20 = .ok e ∧
    findOwnLeaf e.alice0.state.tree ((sig 20).publicBytes crypto) = none ∧
    e.alice0.newLeafIndex ≠ e.alice0.myIndex := by
  have hok : (do
    let e ← entry 20
    expect (findOwnLeaf e.alice0.state.tree ((sig 20).publicBytes crypto) = none ∧
      e.alice0.newLeafIndex ≠ e.alice0.myIndex)).isOk := by decide +kernel
  obtain ⟨_, hrun⟩ := Py.ok_of_isOk hok
  obtain ⟨e, he, hexpect⟩ := Py.bind_eq_ok.mp hrun
  exact ⟨e, he, Py.require_eq_ok.mp hexpect⟩

/-- Whoever enters under Alice's signature key is taken for Alice. -/
theorem entry_alice : ∃ e, entry 1 = .ok e ∧ e.alice0.newLeafIndex = 1 ∧ e.joined.myIndex = 0 := by
  have hok : (do
    let e ← entry 1
    expect (e.alice0.newLeafIndex = 1 ∧ e.joined.myIndex = 0)).isOk := by decide +kernel
  obtain ⟨_, hrun⟩ := Py.ok_of_isOk hok
  obtain ⟨e, he, hexpect⟩ := Py.bind_eq_ok.mp hrun
  exact ⟨e, he, Py.require_eq_ok.mp hexpect⟩

/-- The founder is at leaf 0 with the signature key that was passed. -/
theorem entry_founder {b : UInt8} {e : Entry} (h : entry b = .ok e) :
    e.alice0.myIndex = 0 ∧ e.alice0.mySigKey = sig 1 := by
  obtain ⟨_, _, _, _, -, -, -, heq⟩ := MLSGroup.create_eq_ok (entering h).1
  rw [heq]
  exact ⟨rfl, rfl⟩

theorem keyPackage_keys {b : UInt8} {kp : KeyPackage} (h : keyPackage b = .ok kp) :
    kp.leafNode.signatureKey = (sig b).publicBytes crypto ∧
    kp.leafNode.encryptionKey = (kem b).publicBytes crypto ∧
    kp.initKeyPub = kp.leafNode.encryptionKey := by
  simp only [keyPackage, KeyPackage.create, LeafNode.create, LeafNode.sign, Py.bind_eq_ok,
    Py.pure_eq, Except.ok.injEq] at h
  obtain ⟨_, ⟨_, -, rfl⟩, _, -, rfl⟩ := h
  exact ⟨rfl, rfl, rfl⟩

/-- Bob, who is at leaf 1 but not in the tree, adds Carol. -/
def overwritten : Py (MLSGroup × KeyPackage × MLSGroup × Welcome × GroupUpdate) := do
  let bob ← displaced
  let package ← Sample.keyPackage 21
  let (next, welcome, update) ← (bob.addMember crypto (Sample.coins 100) package).2
  expect (findOwnLeaf bob.state.tree ((sig 21).publicBytes crypto) = none)
  expectFault (MLSGroup.join crypto welcome (sig 21) (kem 21) [] none)
    (.valueError "My leaf not found in GroupInfo tree — mismatched identity key")
  pure (bob, package, next, welcome, update)

theorem overwritten_ok : ∃ r, overwritten = .ok r := Py.ok_of_isOk (by decide +kernel)

theorem crypto_tagSized : crypto.TagSized := by
  rintro key nonce data ad ct ⟨⟩
  rw [List.length_append]
  rfl

end Sample

/-- A joiner whose signature key is new reaches the epoch of the committer, with the Welcome as an
object and with the Welcome off the wire, unless the committer's own leaf has overwritten its. -/
theorem joiner_rebuilds_epoch_iff (hC : C.Correct) (htag : C.TagSized) (hsender : Reached C sender)
    {sigKey : SignatureKey} {kemKey : KemKey}
    (hadd : (sender.addMember C coins kp).2 = .ok (next, welcome, update))
    (hsig : kp.leafNode.signatureKey = sigKey.publicBytes C)
    (hkem : kp.leafNode.encryptionKey = kemKey.publicBytes C)
    (hinit : kp.initKeyPub = kp.leafNode.encryptionKey)
    (hfresh : ∀ l leaf, sender.state.tree.getLeaf (2 * l) = some leaf →
      leaf.signatureKey ≠ kp.leafNode.signatureKey) :
    (∃ joined data parsed, join C welcome sigKey kemKey [] none = .ok joined ∧
      DialectWelcome.toBytes ⟨welcome, none⟩ = .ok data ∧
      DialectWelcome.fromBytes data none = .ok parsed ∧
      join C parsed.toWelcome sigKey kemKey [] none = .ok joined ∧ SameEpoch joined next) ↔
    (sender.newLeafIndex = sender.myIndex →
      kp.leafNode.signatureKey = sender.mySigKey.publicBytes C) := by
  have hwire : sender.state.tree.OnWire := hsender.onWire (fun _ h => h) fun _ _ h => h
  obtain ⟨r, hfound, hjoins⟩ := join_of_addMember hC hwire hadd hsig (hinit.trans hkem)
  constructor
  · rintro ⟨joined, -, -, hjoin, -⟩
    exact r.stays_of_findOwnLeaf hC hwire hfresh (hfound joined hjoin)
  · intro hstays
    obtain ⟨found, hown⟩ := r.findOwnLeaf_of_stays hC hwire hstays
    obtain ⟨joined, hjoin, -, hsame⟩ := hjoins found hown
    obtain ⟨_, _, hbuild, hjoiner⟩ := buildWelcome_of_addMember hC hadd
    obtain ⟨data, hdata, hparsed⟩ := buildWelcome_round_trip hC htag hbuild hjoiner
    exact ⟨joined, data, _, hjoin, hdata, hparsed, hjoin, hsame⟩

/-- Bob joins Alice's group. -/
theorem joiner_rebuilds_epoch_bob :
    ∃ (alice next joined : MLSGroup) (kp : KeyPackage) (welcome : Welcome)
    (update : GroupUpdate) (data : Bytes) (parsed : DialectWelcome),
    (alice.addMember Sample.crypto (Sample.coins 40) kp).2 = .ok (next, welcome, update) ∧
    join Sample.crypto welcome (Sample.sig 20) (Sample.kem 20) [] none = .ok joined ∧
    DialectWelcome.toBytes ⟨welcome, none⟩ = .ok data ∧
    DialectWelcome.fromBytes data none = .ok parsed ∧
    join Sample.crypto parsed.toWelcome (Sample.sig 20) (Sample.kem 20) [] none = .ok joined ∧
    SameEpoch joined next := by
  obtain ⟨e, he, hnone, hindex⟩ := Sample.entry_bob
  obtain ⟨hcreate, hadd, -, hsig, hkem, hinit⟩ := Sample.entering he
  have hfresh : ∀ l leaf, e.alice0.state.tree.getLeaf (2 * l) = some leaf →
      leaf.signatureKey ≠ e.keyPackage.leafNode.signatureKey := by
    intro l leaf hleaf hsame
    obtain ⟨found, hfound⟩ := findOwnLeaf_of_leaf hleaf (hsame.trans hsig)
    rw [hnone] at hfound
    cases hfound
  obtain ⟨joined, data, parsed, hjoin, hdata, hparsed, hrejoin, hsame⟩ :=
    (joiner_rebuilds_epoch_iff Sample.correct Sample.crypto_tagSized
      (.create hcreate) hadd hsig hkem hinit
      hfresh).mpr fun heq => absurd heq hindex
  exact ⟨_, _, joined, _, _, _, data, parsed, hadd, hjoin, hdata, hparsed, hrejoin, hsame⟩

/-- Bob, who is at leaf 1 but not in the tree, adds Carol: her leaf is placed at index 1, his own
overwrites it, and she cannot join. -/
theorem overwritten_leaf_not_found : ∃ (bob next : MLSGroup) (kp : KeyPackage) (welcome : Welcome)
    (update : GroupUpdate), Reached Sample.crypto bob ∧
    (bob.addMember Sample.crypto (Sample.coins 100) kp).2 = .ok (next, welcome, update) ∧
    kp.leafNode.signatureKey = (Sample.sig 21).publicBytes Sample.crypto ∧
    kp.leafNode.encryptionKey = (Sample.kem 21).publicBytes Sample.crypto ∧
    kp.initKeyPub = kp.leafNode.encryptionKey ∧
    findOwnLeaf bob.state.tree kp.leafNode.signatureKey = none ∧
    join Sample.crypto welcome (Sample.sig 21) (Sample.kem 21) [] none =
      .error (.valueError "My leaf not found in GroupInfo tree — mismatched identity key") := by
  obtain ⟨o, ho⟩ := Sample.overwritten_ok
  simp only [Sample.overwritten, Sample.expectFault, Sample.expect, Py.bind_eq_ok,
    Py.require_eq_ok] at ho
  obtain ⟨bob, hbob, kp, hkp, ⟨next, welcome, update⟩, hadd, _, hnone, _, hfault, -⟩ := ho
  obtain ⟨hsig, hkem, hinit⟩ := Sample.keyPackage_keys hkp
  exact ⟨bob, next, kp, welcome, update, Sample.displaced_reached hbob, hadd, hsig, hkem, hinit,
    hsig ▸ hnone, Py.fault?_eq_some.mp hfault⟩

/-- The index that a joiner computes is that of the new leaf exactly when the leaf stays and no leaf
before it has the same signature key. -/
theorem join_finds_newLeafIndex_iff (hC : C.Correct) (hsender : Reached C sender)
    {sigKey : SignatureKey}
    {kemKey : KemKey} (hadd : (sender.addMember C coins kp).2 = .ok (next, welcome, update))
    (hsig : kp.leafNode.signatureKey = sigKey.publicBytes C)
    (hinit : kp.initKeyPub = kemKey.publicBytes C) :
    (∃ r : Built C sender coins (.addMember kp) ⟨next, update, some welcome⟩,
      r.base.getLeaf (2 * sender.newLeafIndex) = some kp.leafNode) ∧
    ((∃ joined, join C welcome sigKey kemKey [] none = .ok joined ∧
      joined.myIndex = sender.newLeafIndex) ↔ NewLeafFirst C sender kp) := by
  have hwire : sender.state.tree.OnWire := hsender.onWire (fun _ h => h) fun _ _ h => h
  obtain ⟨r, hfound, hjoins⟩ := join_of_addMember hC hwire hadd hsig hinit
  refine ⟨⟨r, r.getLeaf_placed hwire⟩, ?_⟩
  rw [← r.findOwnLeaf_new_iff hC hwire]
  constructor
  · rintro ⟨joined, hjoin, hindex⟩
    rw [← hindex]
    exact hfound joined hjoin
  · intro hnew
    obtain ⟨joined, hjoin, hindex, -⟩ := hjoins _ hnew
    exact ⟨joined, hjoin, hindex⟩

/-- Bob comes to the new leaf, and whoever joins under Alice's own signature key does not. -/
theorem join_finds_newLeafIndex_iff_alice : ∃ (alice next next' : MLSGroup) (kp kp' : KeyPackage)
    (welcome welcome' : Welcome) (update update' : GroupUpdate),
    (alice.addMember Sample.crypto (Sample.coins 40) kp).2 = .ok (next, welcome, update) ∧
    (∃ joined, join Sample.crypto welcome (Sample.sig 20) (Sample.kem 20) [] none = .ok joined ∧
      joined.myIndex = alice.newLeafIndex) ∧
    (alice.addMember Sample.crypto (Sample.coins 40) kp').2 = .ok (next', welcome', update') ∧
    ¬ ∃ joined, join Sample.crypto welcome' (Sample.sig 1) (Sample.kem 20) [] none = .ok joined ∧
      joined.myIndex = alice.newLeafIndex := by
  obtain ⟨e, he, hnone, hindex⟩ := Sample.entry_bob
  obtain ⟨hcreate, hadd, -, hsig, hkem, hinit⟩ := Sample.entering he
  obtain ⟨hown, hkey⟩ := Sample.entry_founder he
  obtain ⟨e', he', hone, -⟩ := Sample.entry_alice
  obtain ⟨hcreate', hadd', -, hsig', hkem', hinit'⟩ := Sample.entering he'
  have hsame : e'.alice0 = e.alice0 := Except.ok.inj (hcreate'.symm.trans hcreate)
  rw [hsame] at hone hadd'
  refine ⟨_, _, _, _, _, _, _, _, _, hadd, ?_, hadd', fun hfinds => ?_⟩
  · refine (join_finds_newLeafIndex_iff Sample.correct (.create hcreate) hadd hsig
      (hinit.trans hkem)).2.mpr ⟨fun heq => absurd heq hindex, fun _ heq => ?_,
        fun l _ _ leaf hleaf hsame => ?_⟩
    · rw [hsig, hkey] at heq
      exact absurd heq (by decide)
    · obtain ⟨found, hfound⟩ := findOwnLeaf_of_leaf hleaf (hsame.trans hsig)
      rw [hnone] at hfound
      cases hfound
  · have hfirst := ((join_finds_newLeafIndex_iff Sample.correct (.create hcreate) hadd' hsig'
      (hinit'.trans hkem')).2.mp hfinds).committer
    rw [hown, hone, hkey] at hfirst
    exact hfirst Nat.zero_lt_one hsig'

/-- Alice adds a key package with her own signature key: its owner joins as member 0, although
the leaf is at index 1. -/
theorem join_finds_other_leaf :
    ∃ (alice next joined : MLSGroup) (kp : KeyPackage) (welcome : Welcome)
    (update : GroupUpdate), Reached Sample.crypto alice ∧
    (alice.addMember Sample.crypto (Sample.coins 40) kp).2 = .ok (next, welcome, update) ∧
    kp.leafNode.signatureKey = (Sample.sig 1).publicBytes Sample.crypto ∧
    kp.initKeyPub = (Sample.kem 20).publicBytes Sample.crypto ∧
    join Sample.crypto welcome (Sample.sig 1) (Sample.kem 20) [] none = .ok joined ∧
    alice.newLeafIndex = 1 ∧ joined.myIndex = 0 := by
  obtain ⟨e, he, hone, hzero⟩ := Sample.entry_alice
  obtain ⟨hcreate, hadd, hjoin, hsig, hkem, hinit⟩ := Sample.entering he
  exact ⟨_, _, _, _, _, _, .create hcreate, hadd, hsig, hinit.trans hkem, hjoin, hone, hzero⟩

end PureMls
