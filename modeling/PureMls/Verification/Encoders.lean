import PureMls.Model.Receive

/-! # What encoders raise

A value that has no encoding is refused for its size, by `struct`, by `to_bytes` or by the
VarInt encoder; no encoder raises anything else. -/

namespace PureMls

/-- The exceptions of an encoder. -/
inductive EncodeFault : Fault → Prop where
  | struct (n : ℕ) : EncodeFault (.structError (packText n))
  | overflow : EncodeFault .overflowError
  | varint (n : ℕ) : EncodeFault (.valueError
      s!"VarInt out of range (max 2^30-1 per RFC 9420 §2.1.2): {n}")

theorem EncodeFault.ne_invalidTag {e : Fault} (h : EncodeFault e) : e ≠ .invalidTag := by
  rintro rfl
  cases h

/-- The call is an encoding. -/
abbrev Encodes (x : Py Bytes) : Prop := x.FailsWith EncodeFault

open Py.FailsWith

/-! ## Primitives -/

theorem encodes_structPack (n v : ℕ) : Encodes (structPack n v) := by
  unfold structPack
  split
  · exact ok _
  · exact error (.struct n)

theorem encodes_toBytesBig (n v : ℕ) : Encodes (toBytesBig n v) := by
  unfold toBytesBig
  split
  · exact ok _
  · exact error .overflow

theorem encodes_varint (n : ℕ) : Encodes (tlsVarint n) := by
  unfold tlsVarint
  split_ifs
  · exact ok _
  · exact encodes_toBytesBig 2 _
  · exact encodes_toBytesBig 4 _
  · exact error (.varint n)

theorem encodes_opaqueV (data : Bytes) : Encodes (tlsOpaque data) :=
  (encodes_varint _).bind fun _ => ok _

theorem encodes_opaqueU32 (data : Bytes) : Encodes (tlsOpaque32 data) :=
  (encodes_structPack 4 _).bind fun _ => ok _

theorem encodes_joinBytes {α : Type} {f : α → Py Bytes} (h : ∀ x, Encodes (f x)) (xs : List α) :
    Encodes (joinBytes f xs) := by
  refine map ?_ _
  induction xs with
  | nil => exact ok _
  | cons x xs ih =>
      rw [List.mapM_cons]
      exact (h x).bind fun _ => ih.bind fun _ => ok _

theorem encodes_extensions (extensions : List (ℕ × Bytes)) :
    Encodes (tlsExtensions extensions) := by
  have hone : ∀ extension, Encodes (tlsExtension extension) := fun _ =>
    (encodes_structPack 2 _).bind fun _ => (encodes_opaqueV _).bind fun _ => ok _
  exact (encodes_joinBytes hone _).bind fun _ => (encodes_varint _).bind fun _ => ok _

/-! ## Nodes -/

theorem Credential.encodes_toBytes (credential : Credential) : Encodes credential.toBytes :=
  (encodes_structPack 2 _).bind fun _ => (encodes_opaqueV _).bind fun _ => ok _

theorem Capabilities.encodes_marshal (capabilities : Capabilities) :
    Encodes capabilities.marshal := by
  have hvec : ∀ vals, Encodes (tlsVecVarint vals) := fun _ =>
    (encodes_joinBytes (encodes_structPack 2) _).bind fun _ => (encodes_varint _).bind fun _ => ok _
  exact (hvec _).bind fun _ => (hvec _).bind fun _ => (hvec _).bind fun _ => (hvec _).bind fun _ =>
    (hvec _).bind fun _ => ok _

namespace LeafNode

variable (leaf : LeafNode)

theorem encodes_head : Encodes leaf.head :=
  (encodes_opaqueV _).bind fun _ => (encodes_opaqueV _).bind fun _ =>
    leaf.credential.encodes_toBytes.bind fun _ => leaf.capabilities.encodes_marshal.bind fun _ =>
      (encodes_structPack 1 _).bind fun _ => ok _

theorem encodes_sourceBlock : Encodes leaf.sourceBlock := by
  have htimes : ∀ before after, Encodes (do
      let nb ← tlsU64 before
      let na ← tlsU64 after
      pure (nb ++ na)) := fun _ _ =>
    (encodes_structPack 8 _).bind fun _ => (encodes_structPack 8 _).bind fun _ => ok _
  unfold sourceBlock
  split_ifs
  · cases leaf.lifetime with
    | none => exact htimes 0 0
    | some times => exact htimes times.1 times.2
  · exact encodes_opaqueV _
  · exact ok _

theorem encodes_tbsBytes (groupId : Bytes) (leafIndex : ℕ) :
    Encodes (leaf.tbsBytes groupId leafIndex) := by
  have hgroup : Encodes (leaf.groupBlock groupId leafIndex) := by
    unfold groupBlock
    split_ifs
    · exact (encodes_opaqueV _).bind fun _ => (encodes_structPack 4 _).bind fun _ => ok _
    · exact ok _
  exact leaf.encodes_head.bind fun _ => leaf.encodes_sourceBlock.bind fun _ =>
    (encodes_extensions _).bind fun _ => hgroup.bind fun _ => ok _

theorem encodes_toBytes : Encodes leaf.toBytes :=
  leaf.encodes_head.bind fun _ => leaf.encodes_sourceBlock.bind fun _ =>
    (encodes_extensions _).bind fun _ => (encodes_opaqueV _).bind fun _ => ok _

end LeafNode

theorem KeyPackage.encodes_toBytes (keyPackage : KeyPackage) : Encodes keyPackage.toBytes := by
  have htbs : Encodes keyPackage.tbsBytes :=
    (encodes_structPack 2 _).bind fun _ => (encodes_structPack 2 _).bind fun _ =>
      (encodes_opaqueV _).bind fun _ => keyPackage.leafNode.encodes_toBytes.bind fun _ =>
        (encodes_varint _).bind fun _ => ok _
  exact htbs.bind fun _ => (encodes_opaqueV _).bind fun _ => ok _

theorem ParentNode.encodes_toBytes (parent : ParentNode) : Encodes parent.toBytes :=
  (encodes_opaqueV _).bind fun _ => (encodes_opaqueV _).bind fun _ =>
    (encodes_joinBytes (encodes_structPack 4) _).bind fun _ => (encodes_opaqueV _).bind fun _ =>
      ok _

theorem Node.encodes_toBytes (node : Node) : Encodes node.toBytes := by
  cases node with
  | leaf leaf => exact leaf.encodes_toBytes
  | parent parent => exact parent.encodes_toBytes

theorem RatchetTree.encodes_toBytes (tree : RatchetTree) : Encodes tree.toBytes := by
  have hentry : ∀ entry, Encodes (entryBytes entry) := by
    intro entry
    match entry with
    | none => exact ok _
    | some (.leaf leaf) => exact leaf.encodes_toBytes.bind fun _ => ok _
    | some (.parent parent) => exact parent.encodes_toBytes.bind fun _ => ok _
  exact (encodes_joinBytes hentry _).bind fun _ => (encodes_varint _).bind fun _ => ok _

/-! ## Messages -/

theorem GroupContext.encodes_toBytes (ctx : GroupContext) : Encodes ctx.toBytes :=
  (encodes_toBytesBig 2 _).bind fun _ => (encodes_toBytesBig 2 _).bind fun _ =>
    (encodes_opaqueV _).bind fun _ => (encodes_toBytesBig 8 _).bind fun _ =>
      (encodes_opaqueV _).bind fun _ => (encodes_opaqueV _).bind fun _ =>
        (encodes_opaqueV _).bind fun _ => ok _

theorem UpdatePath.encodes_toBytes (path : UpdatePath) : Encodes path.toBytes := by
  have hct : ∀ ct : HPKECiphertext, Encodes ct.toBytes := fun _ =>
    (encodes_opaqueV _).bind fun _ => (encodes_opaqueV _).bind fun _ => ok _
  have hnode : ∀ node : UpdatePathNode, Encodes node.toBytes := fun _ =>
    (encodes_joinBytes hct _).bind fun _ => (encodes_opaqueV _).bind fun _ =>
      (encodes_structPack 4 _).bind fun _ => ok _
  exact path.leafKeyPackage.encodes_toBytes.bind fun _ => (encodes_joinBytes hnode _).bind fun _ =>
    (encodes_opaqueV _).bind fun _ => (encodes_structPack 4 _).bind fun _ => ok _

theorem GroupUpdate.encodes_bodyBytes (update : GroupUpdate) : Encodes update.bodyBytes := by
  have hsecret : ∀ entry, Encodes (secretBytes entry) := fun _ =>
    (encodes_opaqueV _).bind fun _ => (encodes_opaqueV _).bind fun _ => ok _
  have hpath : Encodes update.pathBytes := by
    unfold pathBytes
    cases update.updatePath with
    | none => exact ok _
    | some path => exact path.encodes_toBytes.bind fun _ => (encodes_opaqueU32 _).bind fun _ => ok _
  exact update.tree.encodes_toBytes.bind fun _ => (encodes_joinBytes hsecret _).bind fun _ =>
    (encodes_structPack 8 _).bind fun _ => (encodes_opaqueU32 _).bind fun _ =>
      (encodes_structPack 4 _).bind fun _ => (encodes_structPack 4 _).bind fun _ =>
        hpath.bind fun _ => ok _

theorem FramedContent.encodes_toBytes (framed : FramedContent) : Encodes framed.toBytes :=
  (encodes_opaqueV _).bind fun _ => (encodes_structPack 8 _).bind fun _ =>
    (encodes_structPack 1 _).bind fun _ => (encodes_structPack 4 _).bind fun _ =>
      (encodes_opaqueV _).bind fun _ => (encodes_structPack 1 _).bind fun _ =>
        (encodes_opaqueU32 _).bind fun _ => ok _

theorem encodes_framedContentTbs (ctx : GroupContext) (framed : FramedContent) :
    Encodes (makeFramedContentTbs ctx framed) :=
  (encodes_structPack 2 _).bind fun _ => (encodes_structPack 2 _).bind fun _ =>
    ctx.encodes_toBytes.bind fun _ => framed.encodes_toBytes.bind fun _ => ok _

/-! ## Tree hashes -/

namespace RatchetTree

variable (tree : RatchetTree)

theorem reparentRight_failsWith (w fuel index : ℕ) :
    (reparentRight w fuel index).FailsWith (· ≠ .invalidTag) := by
  induction fuel generalizing index with
  | zero => exact error (by decide)
  | succ fuel ih =>
      unfold reparentRight
      split_ifs
      · exact ok index
      · exact (require (by simp)).bind fun _ => ih _

theorem nodeHash_failsWith (C : Crypto) (fuel index : ℕ) :
    (tree.nodeHash C fuel index).FailsWith (· ≠ .invalidTag) := by
  induction fuel generalizing index with
  | zero => exact error (by decide)
  | succ fuel ih =>
      unfold nodeHash
      cases tree.nodes[index]? with
      | none => exact ok _
      | some node =>
          simp only
          split_ifs
          · refine (Py.FailsWith.mono ?_ fun e => EncodeFault.ne_invalidTag).map _
            unfold leafHashInput
            cases node with
            | none => exact (encodes_structPack 4 _).bind fun _ => ok _
            | some node =>
                exact (encodes_structPack 4 _).bind fun _ => node.encodes_toBytes.bind fun _ => ok _
          · refine (reparentRight_failsWith _ 64 _).bind fun _ => (ih _).bind fun left =>
              (ih _).bind fun right =>
              (Py.FailsWith.mono ?_ fun e => EncodeFault.ne_invalidTag).map _
            unfold parentHashInput
            cases node with
            | none => exact (encodes_opaqueV _).bind fun _ => (encodes_opaqueV _).bind fun _ => ok _
            | some node =>
                exact node.encodes_toBytes.bind fun _ => (encodes_opaqueV _).bind fun _ =>
                  (encodes_opaqueV _).bind fun _ => ok _

theorem treeHash_failsWith (C : Crypto) : (tree.treeHash C).FailsWith (· ≠ .invalidTag) := by
  unfold treeHash
  split_ifs
  · exact ok _
  · exact tree.nodeHash_failsWith C 34 tree.root

end RatchetTree

end PureMls
