import PureMls.Verification.Codec

/-! # Round trips of the wire structures

`canon x` is what parsing the encoding of `x` gives back: `x` with the defaults the
encoder writes made explicit and the fields it does not write dropped. Encodings do not
distinguish a value from its canonical form. -/

namespace PureMls

/-! ## Sequences of fixed-size items -/

private theorem drop_flatten {n : ℕ} {encs : List Bytes} (h : ∀ e ∈ encs, e.length = n) (i : ℕ) :
    encs.flatten.drop (n * i) = (encs.drop i).flatten := by
  induction i generalizing encs with
  | zero => simp
  | succ i ih =>
      cases encs with
      | nil => simp
      | cons e encs =>
          have hlen : n * (i + 1) = e.length + n * i := by rw [h e (by simp)]; ring
          rw [hlen, List.flatten_cons, List.drop_length_add_append, List.drop_succ_cons]
          exact ih fun e' he' => h e' (by simp [he'])

private theorem length_flatten_fixed {n : ℕ} {encs : List Bytes} (h : ∀ e ∈ encs, e.length = n) :
    encs.flatten.length = n * encs.length := by
  induction encs with
  | nil => simp
  | cons e encs ih =>
      rw [List.flatten_cons, List.length_append, h e (by simp),
        ih fun e' he' => h e' (by simp [he']), List.length_cons]
      ring

theorem chunks_flatten {n : ℕ} (hn : 0 < n) {encs : List Bytes}
    (h : ∀ e ∈ encs, e.length = n) : chunks n encs.flatten = encs := by
  have hcount : (encs.flatten.length + n - 1) / n = encs.length := by
    rw [length_flatten_fixed h]
    have heq : n * encs.length + n - 1 = (n - 1) + n * encs.length := by omega
    rw [heq, Nat.add_mul_div_left _ _ hn, Nat.div_eq_of_lt (by omega), Nat.zero_add]
  rw [chunks, hcount]
  refine List.ext_getElem (by simp) fun i h1 h2 => ?_
  have hi : encs.drop i = encs[i] :: encs.drop (i + 1) := List.drop_eq_getElem_cons h2
  have hlen : encs[i].length = n := h _ (List.getElem_mem h2)
  simp only [List.getElem_map, List.getElem_range, slice, drop_flatten h, hi,
    List.flatten_cons, Nat.add_sub_cancel_left]
  rw [← hlen, List.take_left]

/-- Integers written with a fixed size are read back from their chunks. -/
theorem chunks_joinBytes {n : ℕ} (hn : 0 < n) {f : ℕ → Py Bytes}
    (hf : ∀ v e, f v = .ok e → v < 256 ^ n ∧ beBytes n v = e) {vals : List ℕ} {e : Bytes}
    (h : joinBytes f vals = .ok e) : (chunks n e).map beNat = vals := by
  obtain ⟨encs, hmap, rfl⟩ := Py.map_eq_ok.mp h
  have hall := forall₂_of_mapM hmap
  have hlen : ∀ e ∈ encs, e.length = n := by
    intro e he
    obtain ⟨v, -, hv⟩ := mem_of_mapM hmap he
    rw [← (hf v e hv).2, length_beBytes]
  rw [chunks_flatten hn hlen]
  clear h hmap hlen
  induction hall with
  | nil => rfl
  | cons hx hxs ih =>
      obtain ⟨hlt, rfl⟩ := hf _ _ hx
      rw [List.map_cons, beNat_beBytes hlt, ih]

/-! ## Extensions, credentials and capabilities -/

theorem readsAs_extension {extension : ℕ × Bytes} {e : Bytes}
    (h : tlsExtension extension = .ok e) : ReadsAs readExtension e extension := by
  simp only [tlsExtension, Py.bind_eq_ok, Py.pure_eq, Except.ok.injEq] at h
  obtain ⟨type, htype, data, hdata, rfl⟩ := h
  exact (readsAs_u16 htype).bind ((readsAs_opaqueV hdata).bind_last (.pure _))

theorem structPack_ne_nil {n v : ℕ} {e : Bytes} (hn : n ≠ 0) (h : structPack n v = .ok e) :
    e ≠ [] := by
  obtain ⟨-, rfl⟩ := structPack_eq_ok.mp h
  rw [← List.length_pos_iff, length_beBytes]
  omega

theorem tlsExtension_ne_nil {extension : ℕ × Bytes} {e : Bytes}
    (h : tlsExtension extension = .ok e) : e ≠ [] := by
  simp only [tlsExtension, Py.bind_eq_ok, Py.pure_eq, Except.ok.injEq] at h
  obtain ⟨type, htype, data, hdata, rfl⟩ := h
  simp [structPack_ne_nil (by decide) htype]

/-- A buffer of items read until its end, each encoded in at least one byte. -/
theorem all_joinBytes {α β : Type} {f : α → Py Bytes} {d : Decoder β} {g : α → β} {xs : List α}
    {e : Bytes} (hf : ∀ x ∈ xs, ∀ e, f x = .ok e → ReadsAs d e (g x))
    (hne : ∀ x ∈ xs, ∀ e, f x = .ok e → e ≠ []) (h : joinBytes f xs = .ok e) :
    d.all e = .ok (xs.map g) := by
  obtain ⟨encs, rfl, hreads, hall⟩ := joinBytes_forall₂ hf h
  refine ReadsAs.all hreads fun enc henc => ?_
  obtain ⟨x, hx, hfx⟩ := mem_of_mapM (mapM_of_forall₂ hall) henc
  exact hne x hx enc hfx

theorem readsAs_extensions {extensions : List (ℕ × Bytes)} {e : Bytes}
    (h : tlsExtensions extensions = .ok e) : ReadsAs readExtensions e extensions := by
  simp only [tlsExtensions, Py.bind_eq_ok, Py.pure_eq, Except.ok.injEq] at h
  obtain ⟨body, hbody, size, hsize, rfl⟩ := h
  have hall := all_joinBytes (g := id) (fun x _ e hx => readsAs_extension hx)
    (fun x _ e hx => tlsExtension_ne_nil hx) hbody
  rw [List.map_id] at hall
  have hopaque : tlsOpaque body = .ok (size ++ body) := by simp [tlsOpaque, hsize]
  exact (readsAs_opaqueV hopaque).bind_last (.lift hall)

namespace Credential

theorem readsAs {credential : Credential} {e : Bytes} (h : credential.toBytes = .ok e) :
    ReadsAs fromBytesAt e credential := by
  simp only [toBytes, Py.bind_eq_ok, Py.pure_eq, Except.ok.injEq] at h
  obtain ⟨type, htype, identity, hidentity, rfl⟩ := h
  exact (readsAs_u16 htype).bind ((readsAs_opaqueV hidentity).bind_last (.pure _))

end Credential

namespace Capabilities

private theorem readsAs_vec {vals : List ℕ} {e : Bytes} (h : tlsVecVarint vals = .ok e) :
    ReadsAs readVarintVec e vals := by
  simp only [tlsVecVarint, Py.bind_eq_ok, Py.pure_eq, Except.ok.injEq] at h
  obtain ⟨body, hbody, size, hsize, rfl⟩ := h
  have hchunks := chunks_joinBytes (n := 2) (by decide) (fun v e hv => structPack_eq_ok.mp hv) hbody
  refine (readsAs_varint hsize).bind (readsAs_slice.bind_last ?_)
  rw [hchunks]
  exact .pure _

theorem readsAs {capabilities : Capabilities} {e : Bytes} (h : capabilities.marshal = .ok e) :
    ReadsAs fromBytesAt e capabilities := by
  simp only [marshal, Py.bind_eq_ok, Py.pure_eq, Except.ok.injEq] at h
  obtain ⟨v, hv, c, hc, x, hx, p, hp, r, hr, rfl⟩ := h
  simp only [List.append_assoc]
  exact (readsAs_vec hv).bind <| (readsAs_vec hc).bind <| (readsAs_vec hx).bind <|
    (readsAs_vec hp).bind <| (readsAs_vec hr).bind_last (.pure _)

end Capabilities

/-! ## Leaves and key packages -/

namespace LeafNode

/-- The leaf with exactly the source block that its encoding carries. -/
def canon (leaf : LeafNode) : LeafNode :=
  { leaf with
    lifetime := if leaf.leafNodeSource = leafNodeSourceKeyPackage then
      some (leaf.lifetime.getD (0, 0)) else none
    parentHash := if leaf.leafNodeSource = leafNodeSourceCommit then
      some (leaf.parentHash.getD []) else none }

@[simp] theorem canon_encryptionKey (leaf : LeafNode) :
    leaf.canon.encryptionKey = leaf.encryptionKey := rfl

@[simp] theorem canon_signatureKey (leaf : LeafNode) :
    leaf.canon.signatureKey = leaf.signatureKey := rfl

@[simp] theorem canon_leafNodeSource (leaf : LeafNode) :
    leaf.canon.leafNodeSource = leaf.leafNodeSource := rfl

@[simp] theorem canon_signature (leaf : LeafNode) : leaf.canon.signature = leaf.signature := rfl

theorem canon_canon (leaf : LeafNode) : leaf.canon.canon = leaf.canon := by
  unfold canon
  simp only [LeafNode.mk.injEq, true_and, and_true]
  constructor
  · split <;> simp
  · split <;> simp

theorem sourceBlock_canon (leaf : LeafNode) : leaf.canon.sourceBlock = leaf.sourceBlock := by
  unfold sourceBlock canon
  by_cases hk : leaf.leafNodeSource = leafNodeSourceKeyPackage
  · cases hl : leaf.lifetime with
    | none => simp [hk]
    | some lifetime => simp [hk]
  · by_cases hc : leaf.leafNodeSource = leafNodeSourceCommit
    · have hne : leafNodeSourceCommit ≠ leafNodeSourceKeyPackage := by decide
      simp [hc, hne]
    · simp [hk, hc]

theorem tbsBytes_canon (leaf : LeafNode) (groupId : Bytes) (leafIndex : ℕ) :
    leaf.canon.tbsBytes groupId leafIndex = leaf.tbsBytes groupId leafIndex := by
  unfold tbsBytes
  rw [sourceBlock_canon]
  rfl

theorem toBytes_canon (leaf : LeafNode) : leaf.canon.toBytes = leaf.toBytes := by
  unfold toBytes
  rw [sourceBlock_canon]
  rfl

theorem verifySignature_canon (C : Crypto) (leaf : LeafNode) (groupId : Bytes) (leafIndex : ℕ) :
    leaf.canon.verifySignature C groupId leafIndex = leaf.verifySignature C groupId leafIndex := by
  unfold verifySignature
  rw [tbsBytes_canon]
  rfl

theorem readsAs_sourceBlock {leaf : LeafNode} {e : Bytes} (h : leaf.sourceBlock = .ok e) :
    ReadsAs (readSourceBlock leaf.leafNodeSource) e
      (leaf.canon.lifetime, leaf.canon.parentHash) := by
  unfold sourceBlock at h
  unfold readSourceBlock canon
  by_cases hk : leaf.leafNodeSource = leafNodeSourceKeyPackage
  · have hne : ¬ leafNodeSourceKeyPackage = leafNodeSourceCommit := by decide
    simp only [hk, if_true, if_neg hne] at h ⊢
    cases hl : leaf.lifetime with
    | none =>
        simp only [hl, Py.bind_eq_ok, Py.pure_eq, Except.ok.injEq] at h
        obtain ⟨nb, hnb, na, hna, rfl⟩ := h
        exact (readsAs_u64 hnb).bind ((readsAs_u64 hna).bind_last (.pure _))
    | some lifetime =>
        simp only [hl, Py.bind_eq_ok, Py.pure_eq, Except.ok.injEq] at h
        obtain ⟨nb, hnb, na, hna, rfl⟩ := h
        exact (readsAs_u64 hnb).bind ((readsAs_u64 hna).bind_last (.pure _))
  · simp only [if_neg hk] at h ⊢
    by_cases hc : leaf.leafNodeSource = leafNodeSourceCommit
    · simp only [if_pos hc] at h ⊢
      exact (readsAs_opaqueV h).bind_last (.pure _)
    · simp only [if_neg hc, Py.pure_eq, Except.ok.injEq] at h ⊢
      subst h
      exact .pure _

theorem readsAs {leaf : LeafNode} {e : Bytes} (h : leaf.toBytes = .ok e) :
    ReadsAs fromBytesAt e leaf.canon := by
  simp only [toBytes, head, Py.bind_eq_ok, Py.pure_eq, Except.ok.injEq] at h
  obtain ⟨_, ⟨ek, hek, sk, hsk, cr, hcr, ca, hca, so, hso, rfl⟩, bl, hbl, ex, hex, sg, hsg, rfl⟩ :=
    h
  simp only [List.append_assoc]
  exact (readsAs_opaqueV hek).bind <| (readsAs_opaqueV hsk).bind <| (Credential.readsAs hcr).bind <|
    (Capabilities.readsAs hca).bind <| (readsAs_u8 hso).bind <| (readsAs_sourceBlock hbl).bind <|
    (readsAs_extensions hex).bind <| (readsAs_opaqueV hsg).bind_last (.pure _)

end LeafNode

namespace KeyPackage

def canon (keyPackage : KeyPackage) : KeyPackage :=
  { keyPackage with leafNode := keyPackage.leafNode.canon }

theorem toBytes_canon (keyPackage : KeyPackage) :
    keyPackage.canon.toBytes = keyPackage.toBytes := by
  unfold toBytes tbsBytes canon
  rw [LeafNode.toBytes_canon]

/-- Whatever extensions stand before the signature, the package is read without them. -/
theorem readsAs_extended {keyPackage : KeyPackage} {exts : List (ℕ × Bytes)}
    {ve ik le ex sg : Bytes} (hve : tlsU16 0x0001 = .ok ve)
    (hik : tlsOpaque keyPackage.initKeyPub = .ok ik) (hle : keyPackage.leafNode.toBytes = .ok le)
    (hex : tlsExtensions exts = .ok ex) (hsg : tlsOpaque keyPackage.leafNodeSignature = .ok sg) :
    ReadsAs fromBytesAt (ve ++ ve ++ ik ++ le ++ ex ++ sg) keyPackage.canon := by
  simp only [List.append_assoc]
  exact (readsAs_u16 hve).bind <| .bind_first (.lift (Py.require_of _ rfl)) <|
    (readsAs_u16 hve).bind <| .bind_first (.lift (Py.require_of _ rfl)) <|
    (readsAs_opaqueV hik).bind <| (LeafNode.readsAs hle).bind <|
    (readsAs_extensions hex).bind <| (readsAs_opaqueV hsg).bind_last (.pure _)

theorem readsAs {keyPackage : KeyPackage} {e : Bytes} (h : keyPackage.toBytes = .ok e) :
    ReadsAs fromBytesAt e keyPackage.canon := by
  simp only [toBytes, tbsBytes, Py.bind_eq_ok, Py.pure_eq, Except.ok.injEq] at h
  obtain ⟨_, ⟨ve, hve, cs, hcs, ik, hik, le, hle, ex, hex, rfl⟩, sg, hsg, rfl⟩ := h
  obtain rfl := Except.ok.inj (hve.symm.trans hcs)
  have hexts : tlsExtensions [] = .ok ex := by
    simp [tlsExtensions, joinBytes, hex]
  exact readsAs_extended hve hik hle hexts hsg

end KeyPackage

/-! ## Parent nodes and the ratchet tree -/

theorem ParentNode.readsAs {parent : ParentNode} {e : Bytes} (h : parent.toBytes = .ok e) :
    ReadsAs ParentNode.fromBytesAt e parent := by
  simp only [toBytes, unmergedLeavesBytes, Py.bind_eq_ok, Py.pure_eq, Except.ok.injEq] at h
  obtain ⟨pk, hpk, ph, hph, raw, hraw, un, hun, rfl⟩ := h
  have hchunks := chunks_joinBytes (n := 4) (by decide) (fun v e hv => structPack_eq_ok.mp hv) hraw
  simp only [List.append_assoc]
  refine (readsAs_opaqueV hpk).bind <| (readsAs_opaqueV hph).bind <|
    (readsAs_opaqueV hun).bind_last ?_
  rw [hchunks]
  exact .pure _

namespace Node

def canon : Node → Node
  | leaf node => leaf node.canon
  | parent node => parent node

@[simp] theorem canon_leaf (node : LeafNode) : (leaf node).canon = leaf node.canon := rfl

@[simp] theorem canon_parent (node : ParentNode) : (parent node).canon = parent node := rfl

@[simp] theorem publicKey_canon (node : Node) : node.canon.publicKey = node.publicKey := by
  cases node <;> rfl

theorem canon_canon (node : Node) : node.canon.canon = node.canon := by
  cases node with
  | leaf node => rw [canon_leaf, canon_leaf, LeafNode.canon_canon]
  | parent node => rfl

theorem toBytes_canon (node : Node) : node.canon.toBytes = node.toBytes := by
  cases node with
  | leaf node => exact node.toBytes_canon
  | parent node => rfl

end Node

/-- The least power of two that is at least `n`. -/
theorem nextPow2_spec (n : ℕ) :
    ∃ m, nextPow2 n = 2 ^ m ∧ n ≤ 2 ^ m ∧ ∀ k, n ≤ 2 ^ k → m ≤ k := by
  have hloop : ∀ (fuel i : ℕ), n ≤ 2 ^ (i + fuel) → (∀ k, n ≤ 2 ^ k → i ≤ k) →
      ∃ m, nextPow2Loop n fuel (2 ^ i) = 2 ^ m ∧ n ≤ 2 ^ m ∧ ∀ k, n ≤ 2 ^ k → m ≤ k := by
    intro fuel
    induction fuel with
    | zero => exact fun i hle hmin => ⟨i, rfl, hle, hmin⟩
    | succ fuel ih =>
        intro i hle hmin
        by_cases hlt : 2 ^ i < n
        · have hshift : 2 ^ i <<< 1 = 2 ^ (i + 1) := by
            rw [Nat.shiftLeft_eq, pow_one, pow_succ]
          have hmin' : ∀ k, n ≤ 2 ^ k → i + 1 ≤ k := by
            intro k hk
            by_contra hlt'
            have hki : 2 ^ k ≤ 2 ^ i := Nat.pow_le_pow_right (by decide) (by omega)
            omega
          rw [nextPow2Loop, if_pos hlt, hshift]
          exact ih (i + 1) (by rwa [Nat.add_assoc, Nat.add_comm 1]) hmin'
        · rw [nextPow2Loop, if_neg hlt]
          exact ⟨i, rfl, by omega, hmin⟩
  have hn : n ≤ 2 ^ (0 + n) := by
    rw [Nat.zero_add]
    exact Nat.lt_two_pow_self.le
  exact hloop n 0 hn fun k _ => Nat.zero_le k

theorem nextPow2_pow (m : ℕ) : nextPow2 (2 ^ m) = 2 ^ m := by
  obtain ⟨k, hk, hle, hmin⟩ := nextPow2_spec (2 ^ m)
  have h1 : k ≤ m := hmin m le_rfl
  have h2 : m ≤ k := (Nat.pow_le_pow_iff_right (by decide)).mp hle
  rw [hk, Nat.le_antisymm h1 h2]

namespace RatchetTree

/-- No leaf at all, or a power of two of them with a full node array. -/
def Shape (tree : RatchetTree) : Prop :=
  (tree.numLeaves = 0 ∧ tree.nodes = []) ∨
    ∃ m, tree.numLeaves = 2 ^ m ∧ tree.nodes.length = 2 * 2 ^ m - 1

def canon (tree : RatchetTree) : RatchetTree :=
  ⟨tree.numLeaves, tree.nodes.map (Option.map Node.canon)⟩

@[simp] theorem canon_numLeaves (tree : RatchetTree) : tree.canon.numLeaves = tree.numLeaves := rfl

@[simp] theorem length_canon (tree : RatchetTree) :
    tree.canon.nodes.length = tree.nodes.length := by
  simp [canon]

theorem canon_canon (tree : RatchetTree) : tree.canon.canon = tree.canon := by
  have hnode : Option.map Node.canon ∘ Option.map Node.canon = Option.map Node.canon := by
    funext node
    cases node with
    | none => rfl
    | some node => exact congrArg some node.canon_canon
  simp only [canon, List.map_map, hnode]

theorem Shape.canon {tree : RatchetTree} (h : tree.Shape) : tree.canon.Shape := by
  rcases h with ⟨hn, hnodes⟩ | ⟨m, hn, hlen⟩
  · exact .inl ⟨hn, by simp [RatchetTree.canon, hnodes]⟩
  · exact .inr ⟨m, hn, by simpa using hlen⟩

theorem entryBytes_canon (node : Option Node) :
    entryBytes (node.map Node.canon) = entryBytes node := by
  rcases node with _ | leaf | parent
  · rfl
  · simp [entryBytes, LeafNode.toBytes_canon]
  · rfl

theorem toBytes_canon (tree : RatchetTree) : tree.canon.toBytes = tree.toBytes := by
  have hmap : tree.canon.nodes.mapM entryBytes = tree.nodes.mapM entryBytes := by
    simp only [canon, List.mapM_map]
    congr 1
    funext node
    exact entryBytes_canon node
  simp only [toBytes, joinBytes, hmap]

private theorem readsAs_node {node : Node} {type : UInt8} {body : Bytes}
    (h : entryBytes (some node) = .ok (0x01 :: type :: body)) :
    ReadsAs readNode (type :: body) node.canon := by
  have hbyte : ∀ v : ℕ, v < 256 → ReadsAs readU8 [UInt8.ofNat v] v := by
    intro v hv
    exact readsAs_u8 (by simp [tlsU8, structPack, hv, beBytes])
  cases node with
  | leaf leaf =>
      simp only [entryBytes, Py.bind_eq_ok, Py.pure_eq, Except.ok.injEq, List.cons_append,
        List.nil_append, List.cons.injEq, true_and] at h
      obtain ⟨enc, henc, rfl, rfl⟩ := h
      exact (hbyte 1 (by decide)).bind ((LeafNode.readsAs henc).bind_last (.pure _))
  | parent parent =>
      simp only [entryBytes, Py.bind_eq_ok, Py.pure_eq, Except.ok.injEq, List.cons_append,
        List.nil_append, List.cons.injEq, true_and] at h
      obtain ⟨enc, henc, rfl, rfl⟩ := h
      exact (hbyte 2 (by decide)).bind ((ParentNode.readsAs henc).bind_last (.pure _))

theorem readsAs_entry {node : Option Node} {e : Bytes} (h : entryBytes node = .ok e) :
    ReadsAs readEntry e (some (node.map Node.canon)) := by
  intro buf rest offset hle hdrop
  rcases node with _ | node
  · simp only [entryBytes, Py.pure_eq, Except.ok.injEq] at h
    subst h
    have hread := byteAt_of_drop hdrop (i := 0) rfl
    simp only [Nat.add_zero] at hread
    simp [readEntry, readU8, hread]
  · obtain ⟨type, body, rfl⟩ : ∃ type body, e = 0x01 :: type :: body := by
      cases node with
      | leaf leaf =>
          simp only [entryBytes, Py.bind_eq_ok, Py.pure_eq, Except.ok.injEq] at h
          obtain ⟨enc, -, rfl⟩ := h
          exact ⟨1, enc, rfl⟩
      | parent parent =>
          simp only [entryBytes, Py.bind_eq_ok, Py.pure_eq, Except.ok.injEq] at h
          obtain ⟨enc, -, rfl⟩ := h
          exact ⟨2, enc, rfl⟩
    have hread := byteAt_of_drop hdrop (i := 0) rfl
    have hend := length_of_drop hle hdrop
    simp only [List.length_cons] at hend
    have hnext : buf.drop (offset + 1) = (type :: body) ++ rest := by
      rw [← List.drop_drop, hdrop]
      rfl
    have hnode := readsAs_node h buf rest (offset + 1) (by omega) hnext
    have hmore : ¬ buf.length ≤ offset + 1 := by omega
    simp only [Nat.add_zero] at hread
    simp [readEntry, readU8, hread, hmore, hnode]
    omega

theorem entryBytes_ne_nil {node : Option Node} {e : Bytes} (h : entryBytes node = .ok e) :
    e ≠ [] := by
  rcases node with _ | leaf | parent
  · simp only [entryBytes, Py.pure_eq, Except.ok.injEq] at h
    simp [← h]
  all_goals
    simp only [entryBytes, Py.bind_eq_ok, Py.pure_eq, Except.ok.injEq] at h
    obtain ⟨enc, -, rfl⟩ := h
    simp

theorem ofEntries_nodes {tree : RatchetTree} (h : tree.Shape) : ofEntries tree.nodes = tree := by
  obtain ⟨numLeaves, nodes⟩ := tree
  rcases h with ⟨hn, hnodes⟩ | ⟨m, hn, hlen⟩
  · simp only at hn hnodes
    simp [ofEntries, hn, hnodes]
  · simp only at hn hlen
    have hpos : 0 < 2 ^ m := Nat.two_pow_pos m
    have himplied : (nodes.length + 1) / 2 = 2 ^ m := by omega
    simp only [ofEntries, himplied, if_pos hpos, nextPow2_pow, hn]
    have hpad : 2 * 2 ^ m - 1 - nodes.length = 0 := by omega
    simp [hpad]

theorem reduceOption_map_some {α : Type} (entries : List α) :
    (entries.map some).reduceOption = entries := by
  induction entries with
  | nil => rfl
  | cons entry entries ih => exact congrArg (entry :: ·) ih

/-- What is parsed are the entries, with the array filled up. -/
theorem fromBytes_eq_ofEntries {tree : RatchetTree} {e : Bytes} (h : tree.toBytes = .ok e) :
    fromBytes e = .ok (ofEntries tree.canon.nodes) := by
  simp only [toBytes, Py.bind_eq_ok, Py.pure_eq, Except.ok.injEq] at h
  obtain ⟨parts, hparts, size, hsize, rfl⟩ := h
  have hraw : readOpaque.run (size ++ parts) = .ok parts :=
    (readsAs_opaqueV (by simp [tlsOpaque, hsize])).run_self
  have hall := all_joinBytes (g := fun node => some (node.map Node.canon))
    (fun _ _ _ hx => readsAs_entry hx) (fun _ _ _ hx => entryBytes_ne_nil hx) hparts
  have hentries : (tree.nodes.map fun node => some (node.map Node.canon)).reduceOption =
      tree.canon.nodes := by
    have hmap := (List.map_map (g := some) (f := Option.map Node.canon) (l := tree.nodes)).symm
    exact (congrArg List.reduceOption hmap).trans (reduceOption_map_some _)
  simp only [fromBytes, hraw, Py.ok_bind, parse, hall, Py.pure_eq, hentries]

/-- Parsing the encoding of a tree whose array is complete gives its canonical form. -/
theorem fromBytes_toBytes_of {tree : RatchetTree} (hfix : ofEntries tree.canon.nodes = tree.canon)
    {e : Bytes} (h : tree.toBytes = .ok e) : fromBytes e = .ok tree.canon := by
  rw [fromBytes_eq_ofEntries h, hfix]

theorem fromBytes_toBytes {tree : RatchetTree} (hshape : tree.Shape) {e : Bytes}
    (h : tree.toBytes = .ok e) : fromBytes e = .ok tree.canon :=
  fromBytes_toBytes_of (ofEntries_nodes hshape.canon) h

end RatchetTree

end PureMls
