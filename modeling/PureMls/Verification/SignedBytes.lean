import PureMls.Verification.MessageCodec

/-! # What signatures are made over

The four byte strings that this library signs, what each of them names, and that none of them is
ever one of another kind. -/

namespace PureMls

/-- An object that carries a signature. -/
inductive Signed where
  | leafNode (leaf : LeafNode) (groupId : Bytes) (leafIndex : ℕ)
  | keyPackage (keyPackage : KeyPackage)
  | commit (ctx : GroupContext) (framed : FramedContent)
  | groupInfo (info : GroupInfo)

/-- A leaf of this source is signed for a place in a group. -/
def PlacedSource (source : ℕ) : Prop :=
  source = leafNodeSourceUpdate ∨ source = leafNodeSourceCommit

instance (source : ℕ) : Decidable (PlacedSource source) := inferInstanceAs (Decidable (_ ∨ _))

namespace Signed

/-- The bytes the signature is made over. -/
def bytes : Signed → Py Bytes
  | leafNode leaf groupId leafIndex => leaf.tbsBytes groupId leafIndex
  | keyPackage kp => kp.tbsBytes
  | commit ctx framed => makeFramedContentTbs ctx framed
  | groupInfo info => info.signerContent

/-- The signature key of a leaf has the size of an Ed25519 key. -/
def KeySized : Signed → Prop
  | leafNode leaf _ _ => leaf.signatureKey.length = 32
  | keyPackage kp => kp.leafNode.signatureKey.length = 32
  | commit _ _ => True
  | groupInfo _ => True

/-- The object with only what is signed: no signature of its own, the source block of the leaf as
it is encoded, and no place for a leaf that is not signed for one. -/
def covered : Signed → Signed
  | leafNode leaf groupId leafIndex =>
    if PlacedSource leaf.leafNodeSource then
      leafNode { leaf.canon with signature := [] } groupId leafIndex
    else leafNode { leaf.canon with signature := [] } [] 0
  | keyPackage kp => keyPackage { kp.canon with leafNodeSignature := [] }
  | commit ctx framed => commit ctx framed
  | groupInfo info => groupInfo { info with signature := [], rawData := [] }

end Signed

/-! ## One kind at a time -/

namespace LeafNode

/-- The place a leaf is signed for. -/
def readGroupBlock (source : ℕ) : Decoder (Bytes × ℕ) :=
  if PlacedSource source then do
    let groupId ← readOpaque
    let leafIndex ← readU32
    pure (groupId, leafIndex)
  else pure ([], 0)

/-- Reads a LeafNodeTBS. -/
def readTbs : Decoder (LeafNode × Bytes × ℕ) := do
  let _ ← readU16
  let encryptionKey ← readOpaque
  let signatureKey ← readOpaque
  let credential ← Credential.fromBytesAt
  let capabilities ← Capabilities.fromBytesAt
  let source ← readU8
  let block ← readSourceBlock source
  let extensions ← readExtensions
  let place ← readGroupBlock source
  pure (⟨encryptionKey, signatureKey, credential, capabilities, source, block.1, block.2,
    extensions, []⟩, place)

variable {leaf : LeafNode} {groupId e : Bytes} {leafIndex : ℕ}

private theorem readsAs_groupBlock (h : leaf.groupBlock groupId leafIndex = .ok e) :
    ReadsAs (readGroupBlock leaf.leafNodeSource) e
      (if PlacedSource leaf.leafNodeSource then (groupId, leafIndex) else ([], 0)) := by
  unfold groupBlock at h
  unfold readGroupBlock
  change (if PlacedSource leaf.leafNodeSource then _ else _) = _ at h
  by_cases hplaced : PlacedSource leaf.leafNodeSource
  · rw [if_pos hplaced] at h ⊢
    rw [if_pos hplaced]
    simp only [Py.bind_eq_ok, Py.pure_eq, Except.ok.injEq] at h
    obtain ⟨gid, hgid, index, hindex, rfl⟩ := h
    exact (readsAs_opaqueV hgid).bind ((readsAs_u32 hindex).bind_last (.pure _))
  · rw [if_neg hplaced] at h ⊢
    rw [if_neg hplaced]
    simp only [Py.pure_eq, Except.ok.injEq] at h
    subst h
    exact .pure _

theorem readsAs_tbs (h : leaf.tbsBytes groupId leafIndex = .ok e) :
    ReadsAs readTbs e ({ leaf.canon with signature := [] },
      if PlacedSource leaf.leafNodeSource then (groupId, leafIndex) else ([], 0)) := by
  simp only [tbsBytes, head, Py.bind_eq_ok, Py.pure_eq, Except.ok.injEq] at h
  obtain ⟨suite, hsuite, _, ⟨ek, hek, sk, hsk, cr, hcr, ca, hca, so, hso, rfl⟩, bl, hbl, ex, hex,
    gr, hgr, rfl⟩ := h
  simp only [List.append_assoc]
  exact (readsAs_u16 hsuite).bind <| (readsAs_opaqueV hek).bind <| (readsAs_opaqueV hsk).bind <|
    (Credential.readsAs hcr).bind <| (Capabilities.readsAs hca).bind <| (readsAs_u8 hso).bind <|
    (readsAs_sourceBlock hbl).bind <| (readsAs_extensions hex).bind <|
    (readsAs_groupBlock hgr).bind_last (.pure _)

theorem tbsBytes_inj {leaf' : LeafNode} {groupId' : Bytes} {leafIndex' : ℕ}
    (h : leaf.tbsBytes groupId leafIndex = .ok e)
    (h' : leaf'.tbsBytes groupId' leafIndex' = .ok e) :
    (Signed.leafNode leaf groupId leafIndex).covered =
      (Signed.leafNode leaf' groupId' leafIndex').covered := by
  obtain ⟨hleaf, hplace⟩ := Prod.mk.inj ((readsAs_tbs h).unique_self (readsAs_tbs h'))
  have hsource := congrArg LeafNode.leafNodeSource hleaf
  change leaf.leafNodeSource = leaf'.leafNodeSource at hsource
  simp only [Signed.covered, hleaf, hsource] at hplace ⊢
  split_ifs at hplace ⊢
  · obtain ⟨rfl, rfl⟩ := Prod.mk.inj hplace
    rfl
  · rfl

end LeafNode

private theorem opaque_nil : tlsOpaque [] = .ok [0x00] := rfl

theorem KeyPackage.tbsBytes_inj {kp kp' : KeyPackage} {e : Bytes} (h : kp.tbsBytes = .ok e)
    (h' : kp'.tbsBytes = .ok e) :
    (Signed.keyPackage kp).covered = (Signed.keyPackage kp').covered := by
  have hfull : ∀ x : KeyPackage, x.tbsBytes = .ok e →
      ReadsAs fromBytesAt (e ++ [0x00]) { x.canon with leafNodeSignature := [] } := by
    intro x hx
    have htbs : ({ x with leafNodeSignature := [] } : KeyPackage).tbsBytes = .ok e := hx
    have hbytes :
      ({ x with leafNodeSignature := [] } : KeyPackage).toBytes = .ok (e ++ [0x00]) := by
      rw [toBytes, htbs, Py.ok_bind, opaque_nil]
      rfl
    exact readsAs hbytes
  exact congrArg Signed.keyPackage ((hfull kp h).unique_self (hfull kp' h'))

/-- The FramedContentTBS names the context and the content. -/
theorem makeFramedContentTbs_inj {ctx ctx' : GroupContext} {framed framed' : FramedContent}
    {tbs : Bytes} (h : makeFramedContentTbs ctx framed = .ok tbs)
    (h' : makeFramedContentTbs ctx' framed' = .ok tbs) : ctx = ctx' ∧ framed = framed' := by
  simp only [makeFramedContentTbs, Py.bind_eq_ok, Py.pure_eq, Except.ok.injEq] at h h'
  obtain ⟨version, hversion, _, hwire, ctxBytes, hctx, framedBytes, hframed, rfl⟩ := h
  obtain ⟨version', hversion', _, hwire', ctxBytes', hctx', framedBytes', hframed', heq⟩ := h'
  obtain rfl := Except.ok.inj (hversion.symm.trans hversion')
  obtain rfl := Except.ok.inj (hversion.symm.trans hwire)
  obtain rfl := Except.ok.inj (hversion.symm.trans hwire')
  simp only [List.append_assoc, List.append_cancel_left_eq] at heq
  obtain ⟨hsame, -, hrest⟩ :=
    (GroupContext.readsAs hctx).unique (GroupContext.readsAs hctx') heq.symm
  subst hrest
  exact ⟨hsame, (FramedContent.readsAs hframed).unique_self (FramedContent.readsAs hframed')⟩

theorem GroupInfo.signerContent_inj {info info' : GroupInfo} {e : Bytes}
    (h : info.signerContent = .ok e) (h' : info'.signerContent = .ok e) :
    (Signed.groupInfo info).covered = (Signed.groupInfo info').covered := by
  simp only [signerContent, Py.bind_eq_ok, Py.pure_eq, Except.ok.injEq] at h h'
  obtain ⟨label, hlabel, tbs, htbs, content, hcontent, rfl⟩ := h
  obtain ⟨_, hlabel', tbs', htbs', content', hcontent', heq⟩ := h'
  obtain rfl := Except.ok.inj (hlabel.symm.trans hlabel')
  rw [List.append_cancel_left_eq] at heq
  subst heq
  obtain rfl := (readsAs_opaqueV hcontent).unique_self (readsAs_opaqueV hcontent')
  have hfull : ∀ x : GroupInfo, x.tbsBytes = .ok tbs →
      ReadsAs fromBytesAt (tbs ++ [0x00]) { x with signature := [], rawData := [] } := by
    intro x hx
    have hx' : ({ x with signature := [] } : GroupInfo).tbsBytes = .ok tbs := hx
    have hsigned : ({ x with signature := [] } : GroupInfo).toBytes = .ok (tbs ++ [0x00]) := by
      rw [toBytes, hx', Py.ok_bind, opaque_nil]
      rfl
    exact readsAs hsigned
  exact congrArg Signed.groupInfo ((hfull info htbs).unique_self (hfull info' htbs'))

/-! ## Different kinds -/

private theorem after_empty {data e tail rest : Bytes} (h : tlsOpaque data = .ok e)
    (heq : e ++ tail = 0x00 :: rest) : tail = rest := by
  have hread : ReadsAs readOpaque [0x00] [] := readsAs_opaqueV opaque_nil
  have hparts : e ++ tail = [0x00] ++ rest := heq
  exact ((readsAs_opaqueV h).unique hread hparts).2.2

private theorem after_one {data e tail rest : Bytes} {b : UInt8} (h : tlsOpaque data = .ok e)
    (heq : e ++ tail = 0x01 :: b :: rest) : tail = rest := by
  have hread : ReadsAs readOpaque [0x01, b] [b] := readsAs_opaqueV rfl
  have hparts : e ++ tail = [0x01, b] ++ rest := heq
  exact ((readsAs_opaqueV h).unique hread hparts).2.2

private theorem opaque_key {key : Bytes} (h : key.length = 32) :
    tlsOpaque key = .ok (0x20 :: key) := by
  have hsize : tlsVarint 32 = .ok [0x20] := rfl
  rw [tlsOpaque, h, hsize]
  rfl

private theorem head_starts {leaf : LeafNode} {e : Bytes} (hkey : leaf.signatureKey.length = 32)
    (h : leaf.head = .ok e) :
    ∃ ek rest, tlsOpaque leaf.encryptionKey = .ok ek ∧ e = ek ++ 0x20 :: rest := by
  simp only [LeafNode.head, opaque_key hkey, Py.bind_eq_ok, Py.pure_eq, Except.ok.injEq] at h
  obtain ⟨ek, hek, _, rfl, cr, -, ca, -, so, -, rfl⟩ := h
  exact ⟨ek, leaf.signatureKey ++ (cr ++ (ca ++ so)), hek, by simp⟩

private theorem leafNode_starts {leaf : LeafNode} {groupId e : Bytes} {leafIndex : ℕ}
    (hkey : leaf.signatureKey.length = 32) (h : leaf.tbsBytes groupId leafIndex = .ok e) :
    ∃ ek rest, tlsOpaque leaf.encryptionKey = .ok ek ∧ e = 0x00 :: 0x01 ::
      (ek ++ 0x20 :: rest) := by
  have hsuite : tlsU16 0x0001 = .ok [0x00, 0x01] := rfl
  simp only [LeafNode.tbsBytes, hsuite, Py.ok_bind, Py.bind_eq_ok, Py.pure_eq, Except.ok.injEq] at h
  obtain ⟨_, hhead, bl, -, ex, -, gr, -, rfl⟩ := h
  obtain ⟨ek, rest, hek, rfl⟩ := head_starts hkey hhead
  exact ⟨ek, rest ++ (bl ++ (ex ++ gr)), hek, by simp⟩

private theorem keyPackage_starts {kp : KeyPackage} {e : Bytes}
    (hkey : kp.leafNode.signatureKey.length = 32) (h : kp.tbsBytes = .ok e) :
    ∃ ik ek rest, tlsOpaque kp.initKeyPub = .ok ik ∧ tlsOpaque kp.leafNode.encryptionKey = .ok ek ∧
      e = 0x00 :: 0x01 :: 0x00 :: 0x01 :: (ik ++ (ek ++ 0x20 :: rest)) := by
  have hsuite : tlsU16 0x0001 = .ok [0x00, 0x01] := rfl
  simp only [KeyPackage.tbsBytes, LeafNode.toBytes, hsuite, Py.ok_bind, Py.bind_eq_ok, Py.pure_eq,
    Except.ok.injEq] at h
  obtain ⟨ik, hik, _, ⟨_, hhead, bl, -, ex, -, sg, -, rfl⟩, zero, -, rfl⟩ := h
  obtain ⟨ek, rest, hek, rfl⟩ := head_starts hkey hhead
  exact ⟨ik, ek, rest ++ (bl ++ (ex ++ (sg ++ zero))), hik, hek, by simp⟩

private theorem commit_starts {ctx : GroupContext} {framed : FramedContent} {e : Bytes}
    (h : makeFramedContentTbs ctx framed = .ok e) :
    ∃ rest, e = 0x00 :: 0x01 :: 0x00 :: 0x01 :: 0x00 :: 0x01 :: 0x00 :: 0x01 :: rest := by
  have hsuite : tlsU16 0x0001 = .ok [0x00, 0x01] := rfl
  have hbig : toBytesBig 2 0x0001 = .ok [0x00, 0x01] := rfl
  simp only [makeFramedContentTbs, GroupContext.toBytes, hsuite, hbig, Py.ok_bind, Py.bind_eq_ok,
    Py.pure_eq, Except.ok.injEq] at h
  obtain ⟨_, ⟨gid, -, ep, -, th, -, cth, -, ext, -, rfl⟩, framedBytes, -, rfl⟩ := h
  exact ⟨gid ++ (ep ++ (th ++ (cth ++ (ext ++ framedBytes)))), by simp⟩

private theorem groupInfo_starts {info : GroupInfo} {e : Bytes} (h : info.signerContent = .ok e) :
    ∃ rest, e = 0x14 :: rest := by
  have hlabel :
    tlsOpaque (ascii "MLS 1.0 GroupInfoTBS") = .ok (0x14 :: ascii "MLS 1.0 GroupInfoTBS") :=
    rfl
  simp only [GroupInfo.signerContent, hlabel, Py.ok_bind, Py.bind_eq_ok, Py.pure_eq,
    Except.ok.injEq] at h
  obtain ⟨_, -, content, -, rfl⟩ := h
  exact ⟨_, rfl⟩

/-- After the version a leaf has its two keys, and 32 bytes of signature key announce themselves
where a second version would end. -/
private theorem leafNode_ne {leaf : LeafNode} {groupId rest : Bytes} {leafIndex : ℕ}
    (hkey : leaf.signatureKey.length = 32) :
    leaf.tbsBytes groupId leafIndex ≠ .ok (0x00 :: 0x01 :: 0x00 :: 0x01 :: rest) := by
  intro htbs
  obtain ⟨ek, tail, hek, heq⟩ := leafNode_starts hkey htbs
  simp only [List.cons.injEq, true_and] at heq
  have hafter := after_empty hek heq.symm
  exact absurd (List.cons.inj hafter).1 (by decide)

/-- A key package has three keys after version and suite; the third is the signature key, which
stands in a commit where the suite of the context ends. -/
private theorem keyPackage_ne {kp : KeyPackage} {rest : Bytes}
    (hkey : kp.leafNode.signatureKey.length = 32) :
    kp.tbsBytes ≠ .ok (0x00 :: 0x01 :: 0x00 :: 0x01 :: 0x00 :: 0x01 :: 0x00 :: 0x01 :: rest) := by
  intro htbs
  obtain ⟨ik, ek, tail, hik, hek, heq⟩ := keyPackage_starts hkey htbs
  simp only [List.cons.injEq, true_and] at heq
  have hafter := after_one hek (after_empty hik heq.symm)
  exact absurd (List.cons.inj hafter).1 (by decide)

private theorem groupInfo_ne {info : GroupInfo} {rest : Bytes} :
    info.signerContent ≠ .ok (0x00 :: rest) := by
  intro hcontent
  obtain ⟨tail, heq⟩ := groupInfo_starts hcontent
  exact absurd (List.cons.inj heq).1 (by decide)

namespace Signed

def kind : Signed → ℕ
  | leafNode _ _ _ => 0
  | keyPackage _ => 1
  | commit _ _ => 2
  | groupInfo _ => 3

variable {s s' : Signed} {e : Bytes}

theorem kinds_apart (hs : s.KeySized) (hs' : s'.KeySized) (hlt : s.kind < s'.kind)
    (h : s.bytes = .ok e) : s'.bytes ≠ .ok e := by
  intro h'
  cases s with
  | leafNode leaf groupId leafIndex =>
      cases s' with
      | leafNode => exact absurd hlt (lt_irrefl _)
      | keyPackage kp =>
          obtain ⟨_, _, _, -, -, rfl⟩ := keyPackage_starts hs' h'
          exact leafNode_ne hs h
      | commit ctx framed =>
          obtain ⟨_, rfl⟩ := commit_starts h'
          exact leafNode_ne hs h
      | groupInfo info =>
          obtain ⟨_, _, -, rfl⟩ := leafNode_starts hs h
          exact groupInfo_ne h'
  | keyPackage kp =>
      cases s' with
      | leafNode => cases hlt
      | keyPackage => exact absurd hlt (lt_irrefl _)
      | commit ctx framed =>
          obtain ⟨_, rfl⟩ := commit_starts h'
          exact keyPackage_ne hs h
      | groupInfo info =>
          obtain ⟨_, _, _, -, -, rfl⟩ := keyPackage_starts hs h
          exact groupInfo_ne h'
  | commit ctx framed =>
      cases s' with
      | groupInfo info =>
          obtain ⟨_, rfl⟩ := commit_starts h
          exact groupInfo_ne h'
      | leafNode => exact absurd hlt (by simp [kind])
      | keyPackage => exact absurd hlt (by simp [kind])
      | commit => exact absurd hlt (lt_irrefl _)
  | groupInfo info =>
      have hbound : s'.kind < 4 := by cases s' <;> simp [kind]
      exact absurd hlt (by rw [kind]; omega)

theorem covered_of_kind (hkind : s.kind = s'.kind) (h : s.bytes = .ok e) (h' : s'.bytes = .ok e) :
    s.covered = s'.covered := by
  cases s with
  | leafNode leaf groupId leafIndex =>
      cases s' with
      | leafNode => exact LeafNode.tbsBytes_inj h h'
      | _ => cases hkind
  | keyPackage kp =>
      cases s' with
      | keyPackage => exact KeyPackage.tbsBytes_inj h h'
      | _ => cases hkind
  | commit ctx framed =>
      cases s' with
      | commit =>
          obtain ⟨rfl, rfl⟩ := makeFramedContentTbs_inj h h'
          rfl
      | _ => cases hkind
  | groupInfo info =>
      cases s' with
      | groupInfo => exact GroupInfo.signerContent_inj h h'
      | _ => cases hkind

end Signed

/-- If two signed objects give the same bytes, they are of one kind and agree on everything that
is signed. -/
theorem signed_bytes_unambiguous {s s' : Signed} {e : Bytes} (hs : s.KeySized) (hs' : s'.KeySized)
    (h : s.bytes = .ok e) (h' : s'.bytes = .ok e) : s.kind = s'.kind ∧ s.covered = s'.covered := by
  have hkind : s.kind = s'.kind := by
    rcases lt_trichotomy s.kind s'.kind with hlt | heq | hlt
    · exact absurd h' (Signed.kinds_apart hs hs' hlt h)
    · exact heq
    · exact absurd h (Signed.kinds_apart hs' hs hlt h')
  exact ⟨hkind, Signed.covered_of_kind hkind h h'⟩

namespace Sample

/-- A leaf of the key package kind, with the default lifetime left out or written out. -/
def twoSpellings (lifetime : Option (ℕ × ℕ)) (leafIndex : ℕ) : Signed :=
  .leafNode ⟨[], zeros32, .basic (ascii "alice"), .default, leafNodeSourceKeyPackage, lifetime,
    none, [], []⟩ [] leafIndex

end Sample

/-- A key package leaf with no lifetime is signed like one with the lifetime `(0, 0)`. -/
theorem signed_bytes_unambiguous_lifetime :
    (Sample.twoSpellings none 0).covered = (Sample.twoSpellings (some (0, 0)) 7).covered := by
  obtain ⟨e, he⟩ : ∃ e, (Sample.twoSpellings none 0).bytes = .ok e :=
    Py.ok_of_isOk (by decide +kernel)
  have hsame : (Sample.twoSpellings (some (0, 0)) 7).bytes = .ok e := he
  have hkey : ∀ lifetime leafIndex, (Sample.twoSpellings lifetime leafIndex).KeySized :=
    fun _ _ => rfl
  exact (signed_bytes_unambiguous (hkey none 0) (hkey (some (0, 0)) 7) he hsame).2

end PureMls
