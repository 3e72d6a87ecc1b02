import PureMls.Verification.RoundTrip

/-! # Reading back contexts, welcomes and commits -/

namespace PureMls

private theorem u16_of_big {v : ℕ} (h : v < 256 ^ 2) : tlsU16 v = .ok (beBytes 2 v) :=
  structPack_eq_ok.mpr ⟨h, rfl⟩

/-- A list read item by item, its length being known. -/
theorem readsAs_times {α β : Type} {f : α → Py Bytes} {d : Decoder β} {g : α → β} {xs : List α}
    {enc : Bytes} (hf : ∀ x ∈ xs, ∀ e, f x = .ok e → ReadsAs d e (g x))
    (h : joinBytes f xs = .ok enc) : ReadsAs (d.times xs.length) enc (xs.map g) := by
  obtain ⟨encs, rfl, hreads, -⟩ := joinBytes_forall₂ hf h
  have htimes := ReadsAs.times hreads
  rwa [List.length_map] at htimes

/-- A vector whose length is read by the caller, who takes the bytes without a bounds check. -/
theorem readsAs_opaqueSlice {α : Type} {data e rest : Bytes} {f : Bytes → Decoder α} {x : α}
    (h : tlsOpaque data = .ok e) (hf : ReadsAs (f data) rest x) :
    ReadsAs (varintDecode >>= fun length => readSlice length >>= f) (e ++ rest) x := by
  simp only [tlsOpaque, Py.bind_eq_ok, Py.pure_eq, Except.ok.injEq] at h
  obtain ⟨size, hsize, rfl⟩ := h
  rw [List.append_assoc]
  exact (readsAs_varint hsize).bind (readsAs_slice.bind hf)

theorem GroupContext.readsAs {ctx : GroupContext} {e : Bytes} (h : ctx.toBytes = .ok e) :
    ReadsAs GroupContext.fromBytesAt e ctx := by
  simp only [toBytes, Py.bind_eq_ok, Py.pure_eq, Except.ok.injEq, toBytesBig_eq_ok] at h
  obtain ⟨_, ⟨hv, rfl⟩, _, ⟨hs, rfl⟩, gid, hgid, _, ⟨hep, rfl⟩, th, hth, cth, hcth, ex, hex, rfl⟩ :=
    h
  have hepoch : tlsU64 ctx.epoch = .ok (beBytes 8 ctx.epoch) := structPack_eq_ok.mpr ⟨hep, rfl⟩
  have hlast := readsAs_opaqueSlice (x := ctx) (f := fun ext => pure (GroupContext.mk ctx.groupId
    ctx.epoch ctx.treeHash ctx.confirmedTranscriptHash ext)) hex (.pure _)
  rw [List.append_nil] at hlast
  simp only [List.append_assoc]
  exact (readsAs_u16 (u16_of_big hv)).bind <| .bind_first (.lift (Py.require_of _ rfl)) <|
    (readsAs_u16 (u16_of_big hs)).bind <| .bind_first (.lift (Py.require_of _ rfl)) <|
    (readsAs_opaqueV hgid).bind <| (readsAs_u64 hepoch).bind <| (readsAs_opaqueV hth).bind <|
    (readsAs_opaqueV hcth).bind hlast

/-! ## Welcome -/

namespace PreSharedKeyID

private theorem readsAs_sized {data e : Bytes} (h : sized data = .ok e) :
    ReadsAs readOpaque e data := by
  simp only [sized, Py.bind_eq_ok, Py.pure_eq, Except.ok.injEq] at h
  obtain ⟨size, hsize, rfl⟩ := h
  exact readsAs_opaqueV (by rw [tlsOpaque, varintEncode_eq_ok.mp hsize]; rfl)

/-- The identifier with only the fields of its type. -/
def canon (psk : PreSharedKeyID) : PreSharedKeyID :=
  if psk.pskType = 1 then ⟨psk.pskType, psk.pskId, psk.pskNonce, 0, [], 0⟩
  else ⟨psk.pskType, [], psk.pskNonce, psk.usage, psk.pskGroupId, psk.pskEpoch⟩

theorem toBytes_canon (psk : PreSharedKeyID) : psk.canon.toBytes = psk.toBytes := by
  unfold canon
  split_ifs with htype
  · simp only [toBytes, htype, if_true]
  · simp only [toBytes, if_neg htype]

theorem readsAs {psk : PreSharedKeyID} {e : Bytes} (h : psk.toBytes = .ok e) :
    ReadsAs fromBytesAt e psk.canon := by
  unfold toBytes at h
  unfold canon
  split_ifs at h ⊢ with htype
  · simp only [Py.bind_eq_ok, Py.pure_eq, Except.ok.injEq] at h
    obtain ⟨type, ht, pskId, hid, nonce, hnonce, rfl⟩ := h
    rw [List.append_assoc]
    refine (readsAs_u8 ht).bind ?_
    rw [if_pos htype]
    exact (readsAs_sized hid).bind ((readsAs_sized hnonce).bind_last (.pure _))
  · simp only [Py.bind_eq_ok, Py.pure_eq, Except.ok.injEq] at h
    obtain ⟨type, ht, usage, husage, gid, hgid, epoch, hepoch, nonce, hnonce, rfl⟩ := h
    simp only [List.append_assoc]
    refine (readsAs_u8 ht).bind ?_
    rw [if_neg htype]
    exact (readsAs_u8 husage).bind <| (readsAs_sized hgid).bind <| (readsAs_u64 hepoch).bind <|
      (readsAs_sized hnonce).bind_last (.pure _)

theorem toBytes_ne_nil {psk : PreSharedKeyID} {e : Bytes} (h : psk.toBytes = .ok e) : e ≠ [] := by
  unfold toBytes at h
  split_ifs at h
  all_goals
    simp only [Py.bind_eq_ok, Py.pure_eq, Except.ok.injEq] at h
    obtain ⟨type, htype, h⟩ := h
    have hne := structPack_ne_nil (by decide) htype
  · obtain ⟨_, -, _, -, rfl⟩ := h
    simp [hne]
  · obtain ⟨_, -, _, -, _, -, _, -, rfl⟩ := h
    simp [hne]

end PreSharedKeyID

namespace GroupSecrets

/-- The secrets with an empty path secret counted as absent. -/
def canon (secrets : GroupSecrets) : GroupSecrets :=
  ⟨secrets.joinerSecret, if secrets.pathSecret.getD [] ≠ [] then secrets.pathSecret else none,
    secrets.psks.map PreSharedKeyID.canon⟩

theorem toBytes_canon (secrets : GroupSecrets) : secrets.canon.toBytes = secrets.toBytes := by
  have hpath : secrets.canon.pathBytes = secrets.pathBytes := by
    by_cases hne : secrets.pathSecret.getD [] = []
    · simp [pathBytes, canon, hne]
    · simp [pathBytes, canon, hne]
  have hpsks : joinBytes PreSharedKeyID.toBytes secrets.canon.psks =
      joinBytes PreSharedKeyID.toBytes secrets.psks := by
    refine joinBytes_congr ?_
    simp only [canon, List.map_map]
    exact List.map_congr_left fun psk _ => psk.toBytes_canon
  simp only [toBytes, hpath, hpsks]
  rfl

private theorem readsAs_path {secrets : GroupSecrets} {e : Bytes} (h : secrets.pathBytes = .ok e) :
    ReadsAs readPathSecret e secrets.canon.pathSecret := by
  unfold pathBytes at h
  simp only [canon]
  split_ifs at h ⊢ with hne
  · simp only [Py.bind_eq_ok, Py.pure_eq, Except.ok.injEq] at h
    obtain ⟨path, hpath, rfl⟩ := h
    have hbyte : tlsU8 1 = .ok [0x01] := rfl
    have hsome : some (secrets.pathSecret.getD []) = secrets.pathSecret := by
      cases hp : secrets.pathSecret with
      | none => simp [hp] at hne
      | some path => rfl
    rw [← hsome]
    exact (readsAs_u8 hbyte).bind ((readsAs_opaqueV hpath).bind_last (.pure _))
  · simp only [Py.pure_eq, Except.ok.injEq] at h
    subst h
    have hbyte : tlsU8 0 = .ok [0x00] := rfl
    exact (readsAs_u8 hbyte).bind_last (.pure _)

private theorem readsAs_psks {psks : List PreSharedKeyID} {body e : Bytes}
    (hbody : joinBytes PreSharedKeyID.toBytes psks = .ok body) (h : tlsOpaque body = .ok e) :
    ReadsAs readPsks e (psks.map PreSharedKeyID.canon) := by
  simp only [tlsOpaque, Py.bind_eq_ok, Py.pure_eq, Except.ok.injEq] at h
  obtain ⟨size, hsize, rfl⟩ := h
  obtain ⟨encs, rfl, hreads, hall⟩ := joinBytes_forall₂ (fun _ _ _ => PreSharedKeyID.readsAs) hbody
  have hne : ∀ enc ∈ encs, enc ≠ [] := by
    intro enc henc
    obtain ⟨psk, -, hpsk⟩ := mem_of_mapM (mapM_of_forall₂ hall) henc
    exact PreSharedKeyID.toBytes_ne_nil hpsk
  intro buf rest offset hle hdrop
  rw [List.append_assoc] at hdrop
  have hend := length_of_drop hle hdrop
  have hpos := List.length_pos_iff.mpr (tlsVarint_ne_nil hsize)
  have hnext : buf.drop (offset + size.length) = encs.flatten ++ rest := by
    rw [← List.drop_drop, hdrop, List.drop_left]
  have hrest := length_of_drop hend hnext
  have hfuel : encs.flatten.length ≤ buf.length + 1 := by omega
  have hloop := ReadsAs.whileBelow hreads hne hfuel hend hnext
  rw [readPsks, if_pos (by omega), readsAs_varint hsize buf _ offset hle hdrop, Py.ok_bind]
  rw [List.length_append, ← Nat.add_assoc]
  exact hloop

theorem readsAs {secrets : GroupSecrets} {e : Bytes} (h : secrets.toBytes = .ok e) :
    ReadsAs fromBytesAt e secrets.canon := by
  simp only [toBytes, Py.bind_eq_ok, Py.pure_eq, Except.ok.injEq] at h
  obtain ⟨joiner, hjoiner, path, hpath, body, hbody, psks, hpsks, rfl⟩ := h
  rw [List.append_assoc]
  exact (readsAs_opaqueV hjoiner).bind <| (readsAs_path hpath).bind <|
    (readsAs_psks hbody hpsks).bind_last (.pure _)

/-- The secrets `add_member` sends: no path secret and no pre-shared keys. -/
theorem readsAs_plain {joinerSecret e : Bytes} (h : toBytes ⟨joinerSecret, none, []⟩ = .ok e) :
    ReadsAs fromBytesAt e ⟨joinerSecret, none, []⟩ := readsAs h

end GroupSecrets

theorem GroupInfo.readsAs {info : GroupInfo} {e : Bytes} (h : info.toBytes = .ok e) :
    ReadsAs GroupInfo.fromBytesAt e { info with rawData := [] } := by
  simp only [toBytes, tbsBytes, Py.bind_eq_ok, Py.pure_eq, Except.ok.injEq] at h
  obtain ⟨_, ⟨ctx, hctx, ext, hext, tag, htag, signer, hsigner, rfl⟩, sig, hsig, rfl⟩ := h
  obtain ⟨hlt, rfl⟩ := structPack_eq_ok.mp hsigner
  have hraw : ReadsAs (readSlice 4) (beBytes 4 info.signer) (beBytes 4 info.signer) := by
    have hslice : ReadsAs (readSlice (beBytes 4 info.signer).length) (beBytes 4 info.signer)
        (beBytes 4 info.signer) := readsAs_slice
    rwa [length_beBytes] at hslice
  have hreadSigner : ReadsAs readSigner (beBytes 4 info.signer) info.signer := by
    refine hraw.bind_last ?_
    rw [beNat_beBytes hlt]
    exact .pure _
  simp only [List.append_assoc]
  exact (GroupContext.readsAs hctx).bind <| readsAs_opaqueSlice hext <|
    (readsAs_opaqueV htag).bind <| hreadSigner.bind <| (readsAs_opaqueV hsig).bind_last (.pure _)

/-- A GroupInfo is read back with the buffer it was read from. -/
theorem GroupInfo.fromBytes_toBytes {info : GroupInfo} {e : Bytes} (h : info.toBytes = .ok e) :
    GroupInfo.fromBytes e = .ok { info with rawData := e } := by
  rw [GroupInfo.fromBytes, (GroupInfo.readsAs h).run_self, Py.ok_bind]
  rfl

/-! ## Commits -/

theorem HPKECiphertext.readsAs {ct : HPKECiphertext} {e : Bytes} (h : ct.toBytes = .ok e) :
    ReadsAs HPKECiphertext.fromBytesAt e ct := by
  simp only [toBytes, Py.bind_eq_ok, Py.pure_eq, Except.ok.injEq] at h
  obtain ⟨enc, henc, body, hbody, rfl⟩ := h
  exact (readsAs_opaqueV henc).bind ((readsAs_opaqueV hbody).bind_last (.pure _))

theorem UpdatePathNode.readsAs {node : UpdatePathNode} {e : Bytes} (h : node.toBytes = .ok e) :
    ReadsAs UpdatePathNode.fromBytesAt e node := by
  simp only [toBytes, Py.bind_eq_ok, Py.pure_eq, Except.ok.injEq] at h
  obtain ⟨enc, henc, pub, hpub, count, hcount, rfl⟩ := h
  have htimes := readsAs_times (g := id) (fun _ _ _ hx => HPKECiphertext.readsAs hx) henc
  rw [List.map_id] at htimes
  rw [List.append_assoc]
  exact (readsAs_opaqueV hpub).bind ((readsAs_u32 hcount).bind (htimes.bind_last (.pure _)))

namespace UpdatePath

def canon (path : UpdatePath) : UpdatePath :=
  { path with leafKeyPackage := path.leafKeyPackage.canon }

theorem toBytes_canon (path : UpdatePath) : path.canon.toBytes = path.toBytes := by
  simp only [toBytes, canon, KeyPackage.toBytes_canon]

theorem readsAs {path : UpdatePath} {e : Bytes} (h : path.toBytes = .ok e) :
    ReadsAs fromBytesAt e path.canon := by
  simp only [toBytes, Py.bind_eq_ok, Py.pure_eq, Except.ok.injEq] at h
  obtain ⟨kpBytes, hkpBytes, nodes, hnodes, kp, hkp, count, hcount, rfl⟩ := h
  have htimes := readsAs_times (g := id) (fun _ _ _ hx => UpdatePathNode.readsAs hx) hnodes
  rw [List.map_id] at htimes
  have hfrom : KeyPackage.fromBytes kpBytes = .ok path.leafKeyPackage.canon :=
    (KeyPackage.readsAs hkpBytes).run_self
  rw [List.append_assoc]
  exact (readsAs_opaqueV hkp).bind <| .bind_first (.lift hfrom) <| (readsAs_u32 hcount).bind <|
    htimes.bind_last (.pure _)

end UpdatePath

namespace GroupUpdate

private theorem readsAs_secret {entry : Bytes × Bytes} {e : Bytes} (h : secretBytes entry = .ok e) :
    ReadsAs readSecret e entry := by
  simp only [secretBytes, Py.bind_eq_ok, Py.pure_eq, Except.ok.injEq] at h
  obtain ⟨ref, href, ct, hct, rfl⟩ := h
  exact (readsAs_opaqueV href).bind ((readsAs_opaqueV hct).bind_last (.pure _))

private theorem readsAs_path {update : GroupUpdate} {e : Bytes} (h : update.pathBytes = .ok e) :
    ReadsAs readPath e (update.updatePath.map UpdatePath.canon) := by
  unfold pathBytes at h
  cases hpath : update.updatePath with
  | none =>
      simp only [hpath, Py.pure_eq, Except.ok.injEq] at h
      subst h
      have hbyte : tlsU8 0 = .ok [0x00] := rfl
      exact (readsAs_u8 hbyte).bind_last (.pure _)
  | some path =>
      simp only [hpath, Py.bind_eq_ok, Py.pure_eq, Except.ok.injEq] at h
      obtain ⟨raw, hraw, sized, hsized, rfl⟩ := h
      have hbyte : tlsU8 1 = .ok [0x01] := rfl
      have hfrom : UpdatePath.fromBytes raw = .ok path.canon := (UpdatePath.readsAs hraw).run_self
      exact (readsAs_u8 hbyte).bind ((readsAs_opaqueU32 hsized).bind_last
        (.bind_first (.lift hfrom) (.pure _)))

theorem length_sortedSecrets (update : GroupUpdate) :
    update.sortedSecrets.length = update.encryptedCommitSecrets.entries.length :=
  List.length_insertionSort _ _

theorem mem_sortedSecrets {update : GroupUpdate} {ref encCt : Bytes} :
    (ref, encCt) ∈ update.sortedSecrets ↔
      update.encryptedCommitSecrets.get? ref = some encCt := by
  rw [sortedSecrets, mem_sortedBy, Dict.get?_eq_some_iff]

/-- What parsing the encoding of a commit gives. -/
def canon (update : GroupUpdate) : GroupUpdate :=
  ⟨update.epochId, update.tree.canon,
    update.sortedSecrets.foldl (fun d entry => d.set entry.1 entry.2) Dict.empty,
    update.committerIndex, update.signature, [], update.updatePath.map UpdatePath.canon,
    none, none, none, none, none, none, none, none⟩

theorem canon_entries (update : GroupUpdate) :
    update.canon.encryptedCommitSecrets.entries = update.sortedSecrets := by
  apply Dict.entries_foldl_set
  have hperm := (List.perm_insertionSort (fun a b => a.1 ≤ b.1)
    update.encryptedCommitSecrets.entries).map Prod.fst
  exact hperm.nodup_iff.mpr update.encryptedCommitSecrets.nodup

theorem canon_sortedSecrets (update : GroupUpdate) :
    update.canon.sortedSecrets = update.sortedSecrets := by
  have htotal : Std.Total (fun a b : Bytes × Bytes => a.1 ≤ b.1) :=
    ⟨fun a b => List.le_total a.1 b.1⟩
  have htrans : IsTrans (Bytes × Bytes) (fun a b => a.1 ≤ b.1) := ⟨fun _ _ _ => List.le_trans⟩
  rw [sortedSecrets, canon_entries]
  exact sortedBy_sortedBy (fun a b : Bytes × Bytes => a.1 ≤ b.1) _

theorem canon_get? (update : GroupUpdate) (ref : Bytes) :
    update.canon.encryptedCommitSecrets.get? ref = update.encryptedCommitSecrets.get? ref := by
  apply Option.ext
  intro encCt
  rw [Dict.get?_eq_some_iff, canon_entries, mem_sortedSecrets]

theorem canon_bodyBytes (update : GroupUpdate) : update.canon.bodyBytes = update.bodyBytes := by
  have hpath : update.canon.pathBytes = update.pathBytes := by
    simp only [pathBytes, canon]
    cases update.updatePath with
    | none => rfl
    | some path => simp only [Option.map_some, UpdatePath.toBytes_canon]
  simp only [bodyBytes, canon_sortedSecrets, hpath, canon_entries, length_sortedSecrets]
  simp only [canon, RatchetTree.toBytes_canon]

/-- A commit is read back with the tree that its tree is read as. -/
theorem readsAs_withTree {update : GroupUpdate} {e : Bytes} {tree : RatchetTree}
    (h : update.toBytes = .ok e)
    (htree : ∀ raw, update.tree.toBytes = .ok raw → RatchetTree.fromBytes raw = .ok tree) :
    ReadsAs fromBytesAt e { update.canon with tree := tree } := by
  simp only [toBytes, bodyBytes, Py.bind_eq_ok, Py.pure_eq, Except.ok.injEq] at h
  obtain ⟨_, ⟨raw, hraw, secrets, hsecrets, epoch, hepoch, treeBytes, hopaque, count, hcount,
    committer, hcommitter, path, hpath, rfl⟩, signature, hsignature, rfl⟩ := h
  have htimes := readsAs_times (g := id) (fun _ _ _ hx => readsAs_secret hx) hsecrets
  rw [List.map_id, length_sortedSecrets] at htimes
  simp only [List.append_assoc]
  exact (readsAs_u64 hepoch).bind <| (readsAs_opaqueU32 hopaque).bind <|
    .bind_first (.lift (htree raw hraw)) <| (readsAs_u32 hcount).bind <| htimes.bind <|
    (readsAs_u32 hcommitter).bind <| (readsAs_path hpath).bind <|
    (readsAs_opaqueV hsignature).bind_last (.pure _)

/-- A commit is read back if its tree is. -/
theorem readsAs {update : GroupUpdate} {e : Bytes} (h : update.toBytes = .ok e)
    (htree : ∀ raw, update.tree.toBytes = .ok raw →
      RatchetTree.fromBytes raw = .ok update.tree.canon) :
    ReadsAs fromBytesAt e update.canon :=
  readsAs_withTree h htree

/-- The unsigned commit with its tree left as bytes. -/
structure Body where
  epochId : ℕ
  treeBytes : Bytes
  secrets : List (Bytes × Bytes)
  committerIndex : ℕ
  updatePath : Option UpdatePath

def readBody : Decoder Body := do
  let epochId ← readU64
  let treeBytes ← readOpaque32
  let secretsCount ← readU32
  let secrets ← readSecret.times secretsCount
  let committerIndex ← readU32
  let updatePath ← readPath
  pure ⟨epochId, treeBytes, secrets, committerIndex, updatePath⟩

theorem readsAs_body {update : GroupUpdate} {e : Bytes} (h : update.bodyBytes = .ok e) :
    ∃ treeBytes, update.tree.toBytes = .ok treeBytes ∧ ReadsAs readBody e
      ⟨update.epochId, treeBytes, update.sortedSecrets, update.committerIndex,
        update.updatePath.map UpdatePath.canon⟩ := by
  simp only [bodyBytes, Py.bind_eq_ok, Py.pure_eq, Except.ok.injEq] at h
  obtain ⟨treeBytes, htreeBytes, secrets, hsecrets, epoch, hepoch, tree, htree, count, hcount,
    committer, hcommitter, path, hpath, rfl⟩ := h
  have htimes := readsAs_times (g := id) (fun _ _ _ hx => readsAs_secret hx) hsecrets
  rw [List.map_id, length_sortedSecrets] at htimes
  refine ⟨treeBytes, htreeBytes, ?_⟩
  simp only [List.append_assoc]
  exact (readsAs_u64 hepoch).bind <| (readsAs_opaqueU32 htree).bind <| (readsAs_u32 hcount).bind <|
    htimes.bind <| (readsAs_u32 hcommitter).bind <| (readsAs_path hpath).bind_last (.pure _)

end GroupUpdate

theorem FramedContent.readsAs {framed : FramedContent} {e : Bytes} (h : framed.toBytes = .ok e) :
    ReadsAs FramedContent.fromBytesAt e framed := by
  simp only [toBytes, Py.bind_eq_ok, Py.pure_eq, Except.ok.injEq] at h
  obtain ⟨gid, hgid, epoch, hepoch, st, hst, sender, hsender, data, hdata, ct, hct, content,
    hcontent, rfl⟩ := h
  simp only [List.append_assoc]
  exact (readsAs_opaqueV hgid).bind <| (readsAs_u64 hepoch).bind <| (readsAs_u8 hst).bind <|
    .bind_first (.lift (Py.require_of _ rfl)) <| (readsAs_u32 hsender).bind <|
    (readsAs_opaqueV hdata).bind <| (readsAs_u8 hct).bind <|
    .bind_first (.lift (Py.require_of _ rfl)) <| (readsAs_opaqueU32 hcontent).bind_last (.pure _)

/-! ## Frames -/

theorem FramedContentAuthData.readsAs {auth : FramedContentAuthData} {e : Bytes}
    (h : auth.toBytes = .ok e) : ReadsAs FramedContentAuthData.fromBytesAt e auth := by
  simp only [toBytes, Py.bind_eq_ok, Py.pure_eq, Except.ok.injEq] at h
  obtain ⟨signature, hsignature, tag, htag, rfl⟩ := h
  exact (readsAs_opaqueV hsignature).bind ((readsAs_opaqueV htag).bind_last (.pure _))

theorem PublicMessage.readsAs {message : PublicMessage} {e : Bytes} (h : message.toBytes = .ok e) :
    ReadsAs PublicMessage.fromBytesAt e message := by
  simp only [toBytes, Py.bind_eq_ok, Py.pure_eq, Except.ok.injEq] at h
  obtain ⟨contentBytes, hcontent, content, hcontent32, authBytes, hauth, auth, hauth32, tag, htag,
    rfl⟩ := h
  have hreadContent : FramedContent.fromBytes contentBytes = .ok message.content :=
    (FramedContent.readsAs hcontent).run_self
  have hreadAuth : FramedContentAuthData.fromBytesAt.run authBytes = .ok message.auth :=
    (FramedContentAuthData.readsAs hauth).run_self
  simp only [List.append_assoc]
  exact (readsAs_opaqueU32 hcontent32).bind <| (readsAs_opaqueU32 hauth32).bind <|
    (readsAs_opaqueV htag).bind_last <| .bind_first (.lift hreadContent) <|
    .bind_first (.lift hreadAuth) (.pure _)

theorem MLSMessage.readsAs {message : MLSMessage} {e : Bytes} (h : message.toBytes = .ok e) :
    ReadsAs MLSMessage.fromBytesAt e message := by
  simp only [toBytes, Py.bind_eq_ok, Py.pure_eq, Except.ok.injEq] at h
  obtain ⟨version, hversion, wireFormat, hformat, body, hbody, rfl⟩ := h
  simp only [List.append_assoc]
  exact (readsAs_u16 hversion).bind <| .bind_first (.lift (Py.require_of _ rfl)) <|
    (readsAs_u16 hformat).bind <| (readsAs_opaqueU32 hbody).bind_last (.pure _)

end PureMls
