import PureMls.Verification.Persistence
import PureMls.Verification.Structures
import PureMls.Verification.WireFields

/-! # Encoding what was decoded

The integers of a decoded value fit the fields they were read from, so that its encoder can only
refuse a length, with `ValueError`. -/

namespace PureMls

/-! ## Primitives -/

theorem graceful_structPack_iff {n v : ℕ} : (structPack n v).Graceful ↔ v < 256 ^ n := by
  unfold structPack
  split_ifs with h
  · exact iff_of_true (.ok _) h
  · exact iff_of_false (Py.not_graceful_error (by rintro ⟨⟩)) h

theorem graceful_structPack {n v : ℕ} (h : v < 256 ^ n) : (structPack n v).Graceful :=
  graceful_structPack_iff.mpr h

theorem graceful_toBytesBig {n v : ℕ} (h : v < 256 ^ n) : (toBytesBig n v).Graceful := by
  rw [toBytesBig, if_pos h]
  exact .ok _

theorem graceful_varint (n : ℕ) : (tlsVarint n).Graceful := by
  by_cases h : n < 2 ^ 30
  · obtain ⟨size, hsize⟩ := returns_varint h
    rw [hsize]
    exact .ok _
  · rw [tlsVarint, if_neg (by omega), if_neg (by omega), if_neg (by omega)]
    exact .error (.valueError _)

theorem graceful_opaqueV (data : Bytes) : (tlsOpaque data).Graceful :=
  (graceful_varint _).bind fun _ => .ok _

theorem graceful_opaqueU32_iff {data : Bytes} :
    (tlsOpaque32 data).Graceful ↔ data.length < 2 ^ 32 :=
  (Py.graceful_bind_iff.trans (and_iff_left fun _ _ => .ok _)).trans graceful_structPack_iff

theorem graceful_joinBytes {α : Type} {f : α → Py Bytes} {xs : List α}
    (h : ∀ x ∈ xs, (f x).Graceful) : (joinBytes f xs).Graceful := by
  refine Py.graceful_map_iff.mpr ?_
  induction xs with
  | nil => exact .ok _
  | cons x xs ih =>
      rw [List.mapM_cons]
      exact (h x List.mem_cons_self).bind fun _ =>
        (ih fun y hy => h y (List.mem_cons_of_mem x hy)).bind fun _ => .ok _

theorem graceful_vector {α : Type} {f : α → Py Bytes} {xs : List α} (h : ∀ x ∈ xs, (f x).Graceful) :
    (joinBytes f xs >>= fun body => tlsVarint body.length >>=
      fun size => pure (size ++ body)).Graceful :=
  (graceful_joinBytes h).bind fun _ => (graceful_varint _).bind fun _ => .ok _

/-- The integers of a chunked vector, the last one possibly of fewer bytes. -/
theorem beNat_chunks_lt {n : ℕ} {raw : Bytes} : ∀ v ∈ (chunks n raw).map beNat, v < 256 ^ n := by
  intro v hv
  obtain ⟨chunk, hchunk, rfl⟩ := List.mem_map.mp hv
  obtain ⟨i, -, rfl⟩ := List.mem_map.mp hchunk
  exact beNat_lt_of_le (length_slice_le raw (n * i) n)

theorem yields_extension :
    Yields readExtension fun extension => (tlsExtension extension).Graceful :=
  (yields_unpackFrom 2).bind fun _ htype => Yields.any.bind fun _ _ =>
    .pure ((graceful_structPack htype).bind fun _ => (graceful_opaqueV _).bind fun _ => .ok _)

theorem yields_extensions :
    Yields readExtensions fun extensions => (tlsExtensions extensions).Graceful :=
  Yields.any.bind fun _ _ => .lift fun _ h =>
    graceful_vector ((walk_of_all h).forall_of_yields yields_extension)

/-! ## Leaves and key packages -/

theorem Credential.yields : Yields fromBytesAt fun credential => credential.toBytes.Graceful :=
  (yields_unpackFrom 2).bind fun _ htype => Yields.any.bind fun _ _ =>
    .pure ((graceful_structPack htype).bind fun _ => (graceful_opaqueV _).bind fun _ => .ok _)

theorem Capabilities.yields :
    Yields fromBytesAt fun capabilities => capabilities.marshal.Graceful := by
  have hvec : Yields readVarintVec fun vals => (tlsVecVarint vals).Graceful :=
    Yields.any.bind fun _ _ => Yields.any.bind fun raw _ =>
      .pure (graceful_vector fun v hv => graceful_structPack (beNat_chunks_lt v hv))
  exact hvec.bind fun _ h1 => hvec.bind fun _ h2 => hvec.bind fun _ h3 => hvec.bind fun _ h4 =>
    hvec.bind fun _ h5 => .pure (h1.bind fun _ => h2.bind fun _ => h3.bind fun _ => h4.bind fun _ =>
      h5.bind fun _ => .ok _)

namespace LeafNode

/-- The parts of a leaf that both its encoding and its signed bytes are made of. -/
structure Packs (leaf : LeafNode) : Prop where
  head : leaf.head.Graceful
  sourceBlock : leaf.sourceBlock.Graceful
  extensions : (tlsExtensions leaf.extensions).Graceful

variable {leaf : LeafNode}

theorem Packs.toBytes (h : leaf.Packs) : leaf.toBytes.Graceful :=
  h.head.bind fun _ => h.sourceBlock.bind fun _ => h.extensions.bind fun _ =>
    (graceful_opaqueV _).bind fun _ => .ok _

theorem Packs.tbsBytes (h : leaf.Packs) (groupId : Bytes) {leafIndex : ℕ}
    (hindex : leafIndex < 256 ^ 4) : (leaf.tbsBytes groupId leafIndex).Graceful := by
  refine (Py.FailsWith.ok _).bind fun _ => h.head.bind fun _ => h.sourceBlock.bind fun _ =>
    h.extensions.bind fun _ => ?_
  refine Py.FailsWith.bind ?_ fun _ => .ok _
  unfold groupBlock
  split_ifs
  · exact (graceful_opaqueV _).bind fun _ => (graceful_structPack hindex).bind fun _ => .ok _
  · exact .ok _

/-- A block that was read is written for the same source. -/
theorem yields_sourceBlock (source : ℕ) : Yields (readSourceBlock source) fun block =>
    ∀ leaf : LeafNode, leaf.leafNodeSource = source → leaf.lifetime = block.1 →
    leaf.sourceBlock.Graceful := by
  have hother : ∀ leaf : LeafNode, leaf.leafNodeSource = source →
      source ≠ leafNodeSourceKeyPackage → leaf.sourceBlock.Graceful := by
    rintro leaf rfl hsource
    rw [sourceBlock, if_neg hsource]
    split_ifs
    · exact graceful_opaqueV _
    · exact .ok _
  unfold readSourceBlock
  split_ifs with hkp hcommit
  · refine (yields_unpackFrom 8).bind fun nb hnb => (yields_unpackFrom 8).bind fun na hna =>
      .pure ?_
    rintro leaf rfl hlifetime
    rw [sourceBlock, if_pos hkp, hlifetime]
    exact (graceful_structPack hnb).bind fun _ => (graceful_structPack hna).bind fun _ => .ok _
  · exact Yields.any.bind fun _ _ => .pure fun leaf hsource _ => hother leaf hsource hkp
  · exact .pure fun leaf hsource _ => hother leaf hsource hkp

theorem yields : Yields fromBytesAt Packs :=
  Yields.any.bind fun _ _ => Yields.any.bind fun _ _ => Credential.yields.bind fun _ hcredential =>
    Capabilities.yields.bind fun _ hcapabilities => yields_u8.bind fun source hsource =>
      (yields_sourceBlock source).bind fun _ hblock => yields_extensions.bind fun _ hextensions =>
        Yields.any.bind fun _ _ => .pure
          { head := (graceful_opaqueV _).bind fun _ => (graceful_opaqueV _).bind fun _ =>
              hcredential.bind fun _ => hcapabilities.bind fun _ =>
                (graceful_structPack hsource).bind fun _ => .ok _
            sourceBlock := hblock _ rfl rfl
            extensions := hextensions }

end LeafNode

namespace KeyPackage

theorem graceful_toBytes {keyPackage : KeyPackage} (h : keyPackage.leafNode.toBytes.Graceful) :
    keyPackage.toBytes.Graceful := by
  have htbs : keyPackage.tbsBytes.Graceful :=
    (Py.FailsWith.ok _).bind fun _ => (Py.FailsWith.ok _).bind fun _ =>
      (graceful_opaqueV _).bind fun _ =>
      h.bind fun _ => (graceful_varint _).bind fun _ => .ok _
  exact htbs.bind fun _ => (graceful_opaqueV _).bind fun _ => .ok _

theorem yields : Yields fromBytesAt fun keyPackage => keyPackage.toBytes.Graceful :=
  Yields.any.bind fun _ _ => Yields.any.bind fun _ _ => Yields.any.bind fun _ _ =>
    Yields.any.bind fun _ _ =>
    Yields.any.bind fun _ _ => LeafNode.yields.bind fun _ hleaf => Yields.any.bind fun _ _ =>
      Yields.any.bind fun _ _ => .pure (graceful_toBytes hleaf.toBytes)

end KeyPackage

theorem ParentNode.yields : Yields fromBytesAt fun parent => parent.toBytes.Graceful :=
  Yields.any.bind fun _ _ => Yields.any.bind fun _ _ => Yields.any.bind fun _ _ =>
    .pure <| (graceful_opaqueV _).bind fun _ => (graceful_opaqueV _).bind fun _ =>
      (graceful_joinBytes fun v hv => graceful_structPack (beNat_chunks_lt v hv)).bind fun _ =>
        (graceful_opaqueV _).bind fun _ => .ok _

/-! ## Trees -/

def Node.Packs : Node → Prop
  | leaf node => node.Packs
  | parent node => node.toBytes.Graceful

theorem Node.Packs.toBytes {node : Node} (h : node.Packs) : node.toBytes.Graceful := by
  cases node with
  | leaf leaf => exact LeafNode.Packs.toBytes h
  | parent parent => exact h

namespace RatchetTree

def Packs (tree : RatchetTree) : Prop := ∀ node, some node ∈ tree.nodes → node.Packs

variable {tree : RatchetTree}

theorem yields_node : Yields readNode Node.Packs := by
  refine Yields.any.bind fun nodeType _ => ?_
  split_ifs
  · exact LeafNode.yields.bind fun _ hleaf => .pure hleaf
  · exact ParentNode.yields.bind fun _ hparent => .pure hparent
  · exact .lift fun _ h => by cases h

theorem yields_entry :
    Yields readEntry fun entry => ∀ node, entry = some (some node) → node.Packs := by
  intro buf offset entry next h
  obtain ⟨⟨present, i⟩, -, h⟩ := Py.bind_eq_ok.mp h
  dsimp only at h
  split_ifs at h
  · cases h
    rintro node ⟨⟩
  · cases h
    rintro node ⟨⟩
  · obtain ⟨⟨node, j⟩, hnode, heq⟩ := Py.bind_eq_ok.mp h
    cases heq
    rintro _ ⟨⟩
    exact yields_node buf i node j hnode

theorem packs_of_parse {raw : Bytes} (h : parse raw = .ok tree) : tree.Packs := by
  obtain ⟨entries, hentries, heq⟩ := Py.bind_eq_ok.mp h
  cases heq
  intro node hmem
  have hpacks := (walk_of_all hentries).forall_of_yields yields_entry
  rw [ofEntries, List.mem_append] at hmem
  rcases hmem with hmem | hmem
  · exact hpacks _ (List.mem_filterMap.mp hmem).choose_spec.1 node
      (List.mem_filterMap.mp hmem).choose_spec.2
  · cases (List.mem_replicate.mp hmem).2

theorem packs_of_fromBytes {data : Bytes} (h : fromBytes data = .ok tree) : tree.Packs := by
  obtain ⟨raw, -, hparse⟩ := Py.bind_eq_ok.mp h
  exact packs_of_parse hparse

theorem Packs.getNode (h : tree.Packs) {i : ℕ} {node : Node} (hnode : tree.getNode i = some node) :
    node.Packs := by
  refine h node ?_
  rw [RatchetTree.getNode, Option.join_eq_some_iff] at hnode
  exact List.mem_of_getElem? hnode

theorem Packs.toBytes (h : tree.Packs) : tree.toBytes.Graceful := by
  refine graceful_vector fun entry hmem => ?_
  match entry with
  | none => exact .ok _
  | some (.leaf leaf) => exact (h _ hmem).toBytes.bind fun _ => .ok _
  | some (.parent parent) => exact (h _ hmem).toBytes.bind fun _ => .ok _

end RatchetTree

/-! ## Commits -/

theorem UpdatePathNode.yields : Yields fromBytesAt fun node => node.toBytes.Graceful := by
  have hct : ∀ ct : HPKECiphertext, ct.toBytes.Graceful := fun _ =>
    (graceful_opaqueV _).bind fun _ => (graceful_opaqueV _).bind fun _ => .ok _
  refine Yields.any.bind fun _ _ => (yields_unpackFrom 4).bind fun n hn =>
    (Yields.any.times n).bind fun cts hcts => .pure ?_
  have hcount : cts.length < 256 ^ 4 := hcts.1 ▸ hn
  exact (graceful_joinBytes fun ct _ => hct ct).bind fun _ => (graceful_opaqueV _).bind fun _ =>
    (graceful_structPack hcount).bind fun _ => .ok _

theorem UpdatePath.yields : Yields fromBytesAt fun path => path.toBytes.Graceful := by
  refine Yields.any.bind fun _ _ =>
    (Yields.lift fun _ hkp => KeyPackage.yields.run hkp).bind fun _ hkp =>
    (yields_unpackFrom 4).bind fun n hn => (UpdatePathNode.yields.times n).bind fun nodes hnodes =>
      .pure ?_
  have hcount : nodes.length < 256 ^ 4 := hnodes.1 ▸ hn
  exact hkp.bind fun _ => (graceful_joinBytes hnodes.2).bind fun _ =>
    (graceful_opaqueV _).bind fun _ =>
    (graceful_structPack hcount).bind fun _ => .ok _

namespace GroupUpdate

/-- What the wire format says about the parts of a commit's body. -/
structure Packs (update : GroupUpdate) : Prop where
  epochId : update.epochId < 256 ^ 8
  tree : update.tree.Packs
  secrets : ∀ entry ∈ update.encryptedCommitSecrets.entries, entry.1.length < 2 ^ 30 ∧
    entry.2.length < 2 ^ 30
  count : update.encryptedCommitSecrets.entries.length < 256 ^ 4
  committerIndex : update.committerIndex < 256 ^ 4
  path : ∀ path ∈ update.updatePath, path.toBytes.Graceful

theorem yields_path : Yields readPath fun found => ∀ path ∈ found, path.toBytes.Graceful := by
  refine Yields.any.bind fun hasPath _ => ?_
  split_ifs
  · refine Yields.any.bind fun upBytes _ => (Yields.lift fun _ h => UpdatePath.yields.run h).bind
      fun path hpath => .pure ?_
    rintro _ ⟨⟩
    exact hpath
  · refine .pure ?_
    rintro _ ⟨⟩

theorem yields : Yields fromBytesAt Packs := by
  have hsecret : Yields readSecret fun entry => entry.1.length < 2 ^ 30 ∧ entry.2.length < 2 ^ 30 :=
    yields_opaque.bind fun _ href => yields_opaque.bind fun _ hct => .pure ⟨href, hct⟩
  refine (yields_unpackFrom 8).bind fun _ hepoch => Yields.any.bind fun _ _ =>
    (Yields.lift fun _ h => RatchetTree.packs_of_fromBytes h).bind fun _ htree =>
      (yields_unpackFrom 4).bind fun n hn => (hsecret.times n).bind fun secrets hsecrets =>
        (yields_unpackFrom 4).bind fun _ hcommitter => yields_path.bind fun _ hpath =>
          Yields.any.bind fun _ _ => .pure ?_
  exact
    { epochId := hepoch
      tree := htree
      secrets := fun entry hentry => hsecrets.2 entry (Dict.mem_of_mem_foldl_set hentry)
      count := (Dict.length_foldl_set_le secrets).trans_lt (hsecrets.1 ▸ hn)
      committerIndex := hcommitter
      path := hpath }

/-- A commit off the wire, with the fields that the message around it gives it. -/
def Decoded (update : GroupUpdate) : Prop :=
  ∃ data body, GroupUpdate.fromBytes data = .ok body ∧ update = { body with
    signature := update.signature
    groupId := update.groupId
    confirmationTag := update.confirmationTag
    membershipTag := update.membershipTag }

theorem Decoded.packs {update : GroupUpdate} (h : update.Decoded) : update.Packs := by
  obtain ⟨data, body, hbody, heq⟩ := h
  rw [heq]
  exact ⟨(yields.run hbody).epochId, (yields.run hbody).tree, (yields.run hbody).secrets,
    (yields.run hbody).count, (yields.run hbody).committerIndex, (yields.run hbody).path⟩

/-- The parts that are written with a 32-bit length are not longer than it can say. -/
structure BodyFits (update : GroupUpdate) : Prop where
  path : update.tree.toBytes.Returns → ∀ path ∈ update.updatePath, ∀ raw, path.toBytes = .ok raw →
    raw.length < 2 ^ 32
  body : ∀ raw, update.bodyBytes = .ok raw → raw.length < 2 ^ 32

namespace Packs

variable {update : GroupUpdate}

theorem pathBytes_graceful_iff (h : update.Packs) : update.pathBytes.Graceful ↔
    ∀ path ∈ update.updatePath, ∀ raw, path.toBytes = .ok raw → raw.length < 2 ^ 32 := by
  unfold pathBytes
  cases hpath : update.updatePath with
  | none => exact iff_of_true (.ok _) (by rintro _ ⟨⟩)
  | some path =>
      simp only [Option.mem_some_iff, forall_eq']
      refine Py.graceful_bind_iff.trans ((and_iff_right (h.path path hpath)).trans ?_)
      refine forall₂_congr fun raw _ => ?_
      exact (Py.graceful_bind_iff.trans (and_iff_left fun _ _ => .ok _)).trans
        graceful_opaqueU32_iff

/-- Only the tree and the path can be too long: the secrets were read one by one. -/
theorem bodyBytes_graceful_iff (h : update.Packs) : update.bodyBytes.Graceful ↔
    (update.tree.toBytes.Returns → update.pathBytes.Graceful) := by
  have hsecret : ∀ entry ∈ update.sortedSecrets, (secretBytes entry).Returns := by
    intro entry hentry
    obtain ⟨href, hct⟩ := h.secrets entry ((mem_sortedBy _).mp hentry)
    exact (returns_opaqueV href).bind fun _ _ => (returns_opaqueV hct).bind fun _ _ => .pure _
  have hrest : ∀ treeRaw, update.tree.toBytes = .ok treeRaw →
      (update.bodyBytes.Graceful ↔ update.pathBytes.Graceful) := by
    intro treeRaw htree
    obtain ⟨secrets, hsecrets⟩ := returns_joinBytes hsecret
    obtain ⟨epoch, hepoch⟩ : (tlsU64 update.epochId).Returns := returns_structPack h.epochId
    have hsized := tlsOpaque32_ok ((RatchetTree.length_toBytes_lt htree).trans (by decide))
    obtain ⟨count, hcount⟩ : (tlsU32 update.encryptedCommitSecrets.entries.length).Returns :=
      returns_structPack h.count
    obtain ⟨committer, hcommitter⟩ : (tlsU32 update.committerIndex).Returns :=
      returns_structPack h.committerIndex
    simp only [bodyBytes, htree, hsecrets, hepoch, hsized, hcount, hcommitter, Py.ok_bind]
    exact Py.graceful_bind_iff.trans (and_iff_left fun _ _ => .ok _)
  constructor
  · rintro hbody ⟨treeRaw, htree⟩
    exact (hrest treeRaw htree).mp hbody
  · intro hpath
    cases htree : update.tree.toBytes with
    | error e =>
        rw [bodyBytes, htree, Py.error_bind]
        exact .error (h.tree.toBytes e htree)
    | ok treeRaw => exact (hrest treeRaw htree).mpr (hpath ⟨treeRaw, htree⟩)

end Packs

end GroupUpdate

end PureMls
