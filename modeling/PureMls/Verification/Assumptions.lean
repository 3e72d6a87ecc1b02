import PureMls.Model.Receive

/-! # What is assumed of the primitives

Documented behaviour of `cryptography` and `hashlib` that results name as hypotheses, and
a small concrete `Crypto` with that behaviour. -/

namespace PureMls

namespace Crypto

/-- Correctness of the primitives on keys and messages made by the library itself. -/
structure Correct (C : Crypto) : Prop where
  sha256_size : ∀ data, (C.sha256 data).length = 32
  hmac_size : ∀ key message, (C.hmacSha256 key message).length = 32
  /-- A signature verifies under the public key of the key that made it. -/
  sign_verify : ∀ key message, C.ed25519Verify (C.ed25519Public key) (C.ed25519Sign key message)
    message = true
  sign_ne_nil : ∀ key message, C.ed25519Sign key message ≠ []
  ed25519_size : ∀ key : Bytes, key.length = 32 → (C.ed25519Public key).length = 32
  x25519_size : ∀ key : Bytes, key.length = 32 → (C.x25519Public key).length = 32
  /-- Both sides of a Diffie-Hellman exchange compute the same value. -/
  exchange_comm : ∀ key key' : Bytes, key.length = 32 → key'.length = 32 →
    C.x25519Exchange key (C.x25519Public key') = C.x25519Exchange key' (C.x25519Public key)
  /-- Decryption undoes encryption under the same key, nonce and associated data. -/
  decrypt_encrypt : ∀ key nonce data ad ct, C.aesGcmEncrypt key nonce data ad = .ok ct →
    C.aesGcmDecrypt key nonce ct ad = .ok data
  /-- With a 16-byte key and a 12-byte nonce a failed decryption is no `ValueError`. -/
  decrypt_fault : ∀ key nonce ct ad message, key.length = 16 → nonce.length = 12 →
    C.aesGcmDecrypt key nonce ct ad ≠ .error (.valueError message)

end Crypto

/-! ## A concrete instance -/

namespace Sample

/-- A polynomial hash modulo `2^61 - 1`, in 32 bytes. -/
def hash (data : Bytes) : Bytes :=
  let v := data.foldl (fun acc b => (acc * 263 + b.toNat + 1) % (2 ^ 61 - 1)) 7
  [UInt8.ofNat v, UInt8.ofNat (v >>> 8), UInt8.ofNat (v >>> 16), UInt8.ofNat (v >>> 24),
    UInt8.ofNat (v >>> 32), UInt8.ofNat (v >>> 40), UInt8.ofNat (v >>> 48),
    UInt8.ofNat (v >>> 56), 0, 0, 0, 0, 0, 0, 0, 0, 0, 0, 0, 0, 0, 0, 0, 0, 0, 0, 0, 0, 0, 0, 0, 0]

def mac (key message : Bytes) : Bytes := hash (key ++ 0xFF :: message)

def tag (key nonce data ad : Bytes) : Bytes := (mac (key ++ nonce) (ad ++ data)).take 16

def crypto : Crypto where
  sha256 := hash
  hmacSha256 := mac
  ed25519Public key := key.map (· + 1)
  ed25519Sign key message := key.map (· + 1) ++ hash message
  ed25519Verify key signature message := signature = key ++ hash message
  x25519Public key := key.map (· + 1)
  x25519Exchange key peer := some (List.zipWith (· + ·) (key.map (· + 1)) peer)
  aesGcmEncrypt key nonce data ad := .ok (data ++ tag key nonce data ad)
  aesGcmDecrypt key nonce ct ad :=
    let data := ct.take (ct.length - 16)
    if ct.drop (ct.length - 16) = tag key nonce data ad then .ok data else .error .invalidTag

theorem length_hash (data : Bytes) : (hash data).length = 32 := rfl

theorem correct : crypto.Correct where
  sha256_size := length_hash
  hmac_size key message := length_hash _
  sign_verify key message := by simp [crypto]
  sign_ne_nil key message := by simp [crypto, hash]
  ed25519_size key hkey := by simp [crypto, hkey]
  x25519_size key hkey := by simp [crypto, hkey]
  exchange_comm key key' _ _ := by
    have hcomm : List.zipWith (· + ·) (key.map (· + 1)) (key'.map (· + 1)) =
        List.zipWith (· + ·) (key'.map (· + 1)) (key.map (· + 1)) :=
      List.zipWith_comm_of_comm (fun x y => UInt8.add_comm x y)
    simp only [crypto, hcomm]
  decrypt_encrypt key nonce data ad ct h := by
    have hlen : (tag key nonce data ad).length = 16 := by simp [tag, mac, length_hash]
    simp only [crypto, Except.ok.injEq] at h
    subst h
    simp [crypto, hlen]
  decrypt_fault key nonce ct ad message _ _ := by
    simp only [crypto]
    split <;> simp

/-- The X25519 key that repeats one byte. -/
def kem (b : UInt8) : KemKey := ⟨List.replicate 32 b, by simp⟩

/-- The Ed25519 key that repeats one byte. -/
def sig (b : UInt8) : SignatureKey := ⟨List.replicate 32 b, by simp⟩

def coins (b : UInt8) : CommitCoins where
  leafPathSecret := List.replicate 32 b
  committerKem := kem (b + 1)
  committerInit := kem (b + 2)
  pathEphemeral i j := kem (b + 3 + UInt8.ofNat (8 * i + j))
  fallbackEphemeral i := kem (b + 100 + UInt8.ofNat i)
  welcomeEphemeral := kem (b + 200)

/-- The key package of a joiner whose init key is its leaf key. -/
def keyPackage (b : UInt8) : Py KeyPackage :=
  KeyPackage.create ((kem b).publicBytes crypto) ((kem b).publicBytes crypto)
    ((sig b).publicBytes crypto) (ascii "joiner") ((sig b).sign crypto)

/-- A leaf that is not blank, for trees whose leaves are not looked into. -/
def plainLeaf : LeafNode :=
  ⟨[2], [3], Credential.basic [4], Capabilities.default, leafNodeSourceUpdate, none, none, [], [5]⟩

/-- A commit in Carol's name whose tree has two blank leaves, as it arrives on the wire. -/
def smallTreeUpdate : Py GroupUpdate := do
  let kp ← keyPackage 21
  let body ← GroupUpdate.toBytes ⟨3, RatchetTree.new 2, Dict.empty, 2, [], [],
    some ⟨kp, [⟨[], []⟩]⟩, none, none, none, none, none, none, none, none⟩
  let update ← GroupUpdate.fromBytes body
  pure { update with groupId := ascii "g" }

def expect (p : Prop) [Decidable p] : Py Unit := Py.require p .assertionError

/-- `expect_raises(fault)` -/
def expectFault {α : Type} (x : Py α) (fault : Fault) : Py Unit := expect (x.fault? = some fault)

/-- The reference of the leaf at a node index. -/
def refAt (tree : RatchetTree) (i : ℕ) : Option Bytes :=
  (tree.getLeaf i).bind fun leaf => (makeKpRef crypto leaf.keyPackage).toOption

def refs (tree : RatchetTree) : List Bytes := (List.range tree.nodes.length).filterMap (refAt tree)

/-- Who a handle belongs to, and whether its KEM key is the one of its leaf. -/
def identity (member : MLSGroup) : ℕ × SignatureKey × Bool :=
  (member.myIndex, member.mySigKey,
    (member.state.tree.getLeaf (2 * member.myIndex)).map LeafNode.encryptionKey =
      some (member.myKemKey.publicBytes crypto))

/-- Three members: Alice adds Bob, Bob adds Carol, Alice removes Bob, Carol updates her key. -/
structure Session where
  bobPackage : KeyPackage
  carolPackage : KeyPackage
  alice0 : MLSGroup
  alice1 : MLSGroup
  welcome1 : Welcome
  update1 : GroupUpdate
  bob1 : MLSGroup
  bob2 : MLSGroup
  welcome2 : Welcome
  update2 : GroupUpdate
  alice2 : MLSGroup
  carol2 : MLSGroup
  alice3 : MLSGroup
  update3 : GroupUpdate
  carol3 : MLSGroup
  carol4 : MLSGroup
  update4 : GroupUpdate
  smallTree : GroupUpdate

def run : Py Session := do
  let bobPackage ← keyPackage 20
  let carolPackage ← keyPackage 21
  let alice0 ← MLSGroup.create crypto (ascii "g") (sig 1) (kem 1) (kem 2)
  let (alice1, welcome1, update1) ← (alice0.addMember crypto (coins 40) bobPackage).2
  let bob1 ← MLSGroup.join crypto welcome1 (sig 20) (kem 20) [] none
  let (bob2, welcome2, update2) ← (bob1.addMember crypto (coins 60) carolPackage).2
  let alice2 ← (alice1.processUpdate crypto update2).2
  let carol2 ← MLSGroup.join crypto welcome2 (sig 21) (kem 21) [] none
  let (alice3, update3) ← (alice2.removeMember crypto (coins 80) 1).2
  let carol3 ← (carol2.processUpdate crypto update3).2
  let (carol4, update4) ← (carol3.updateKey crypto (coins 120)).2
  let smallTree ← smallTreeUpdate
  expectFault (alice3.processUpdate crypto update4).2 .invalidTag
  expectFault (alice2.processUpdate crypto smallTree).2 .hang
  expect ([alice0].map identity = [(0, sig 1, true)])
  expect ([alice1, bob1].map identity = [(0, sig 1, true), (1, sig 20, true)])
  expect ([bob2, alice2, carol2].map identity =
    [(1, sig 20, true), (0, sig 1, true), (2, sig 21, true)])
  expect ([alice3, carol3].map identity = [(0, sig 1, false), (2, sig 21, true)])
  expect ((refs update1.tree).Nodup ∧ (refs update2.tree).Nodup ∧ (refs update3.tree).Nodup ∧
    (refs update4.tree).Nodup)
  pure ⟨bobPackage, carolPackage, alice0, alice1, welcome1, update1, bob1, bob2, welcome2, update2,
    alice2, carol2, alice3, update3, carol3, carol4, update4, smallTree⟩

theorem run_ok : ∃ r, run = .ok r := Py.ok_of_isOk (by decide +kernel)

end Sample

end PureMls
