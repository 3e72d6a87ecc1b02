import PureMls.Verification.CheckOrder

/-! # What a commit seals and what its receivers open

Every ciphertext of a commit is one of its HPKE seals: a path secret to a node of the resolution of
a copath node, or the commit secret to a leaf. -/

namespace PureMls

open RatchetTree MLSGroup

variable {C : Crypto} {sender : MLSGroup} {coins : CommitCoins} {sealLeaf : LeafSeal}
  {indices : RatchetTree → List ℕ} {base : RatchetTree}

/-! ## The seals -/

/-- A seal of a commit: the index of the recipient, the plaintext, encapsulation and ciphertext. -/
inductive BuiltPath.Seals (b : BuiltPath C sender coins sealLeaf indices base) :
    ℕ → Bytes → Bytes → Bytes → Prop where
  | path {i j cop secret resolved index node enc ct} : b.cop[i]? = some cop →
      b.secrets[i]? = some secret → b.tree.resolution cop = .ok resolved →
      resolved[j]? = some index → b.tree.getNode index = some node →
      sealWithContext C b.ctx (coins.pathEphemeral i j) node.publicKey secret = .ok (enc, ct) →
      Seals b index secret enc ct
  | fallback {index leaf enc ct} : index ≠ 2 * sender.myIndex → b.tree.getLeaf index = some leaf →
      sealWithContext C b.ctx (coins.fallbackEphemeral index) leaf.encryptionKey b.commitSecret =
        .ok (enc, ct) → Seals b index b.commitSecret enc ct

/-- What a key opens of the commit was sealed: AESGCM.decrypt raises under a wrong key. -/
def BuiltPath.OpensAsSealed (b : BuiltPath C sender coins sealLeaf indices base) (key : KemKey) :
    Prop :=
  ∀ index secret enc ct opened, b.Seals index secret enc ct →
    openWithContext C b.ctx key enc ct = .ok opened → opened = secret

/-- What a key opens of the commit was sealed to its public key. -/
def BuiltPath.OpensForRecipient (b : BuiltPath C sender coins sealLeaf indices base)
    (key : KemKey) : Prop :=
  ∀ index node secret enc ct opened, b.Seals index secret enc ct →
    b.tree.getNode index = some node →
    openWithContext C b.ctx key enc ct = .ok opened → node.publicKey = key.publicBytes C

namespace MLSGroup

variable {tree : RatchetTree} {ctx : GroupContext} {receiver : MLSGroup}

/-! ## Positions on the path -/

/-- The position on the update path that `process_update` decrypts, and the path secret there. -/
def decryptAt (C : Crypto) (self : MLSGroup) (tree : RatchetTree) (ctx : GroupContext) :
    ℕ → List (Option ℕ × UpdatePathNode) → Py (Option (ℕ × Bytes))
  | _, [] => pure none
  | i, (cop, node) :: path => do
    let resolved ← tree.resolution cop
    let ct := (resolved.idxOf? (2 * self.myIndex)).bind (node.encryptedPathSecret[·]?)
    match ct with
    | some ct => do
      let pathSecret ← openWithContext C ctx self.myKemKey ct.kemOutput ct.ciphertext
      pure (some (i, pathSecret))
    | none => decryptAt C self tree ctx (i + 1) path

/-- From the position on the chain leads to the commit secret. -/
theorem openFromPath_decryptAt (self : MLSGroup) (tree : RatchetTree) (ctx : GroupContext)
    (total i : ℕ) (path : List (Option ℕ × UpdatePathNode)) :
    openFromPath C self tree ctx total i path = decryptAt C self tree ctx i path >>= fun found =>
      match found with
      | some (k, pathSecret) => some <$> advancePathSecret C (total - k - 1) pathSecret
      | none => pure none := by
  induction path generalizing i with
  | nil => rfl
  | cons entry path ih =>
      obtain ⟨cop, node⟩ := entry
      simp only [openFromPath, decryptAt]
      cases hresolved : tree.resolution cop with
      | error e => rfl
      | ok resolved =>
          simp only [Py.ok_bind]
          cases hct : (resolved.idxOf? (2 * self.myIndex)).bind (node.encryptedPathSecret[·]?) with
          | none => exact ih (i + 1)
          | some ct =>
              simp only [map_eq_pure_bind, bind_assoc, pure_bind]

theorem decryptAt_congr {tree u : RatchetTree} (h : tree.canon = u.canon) (self : MLSGroup)
    (ctx : GroupContext) (i : ℕ) (path : List (Option ℕ × UpdatePathNode)) :
    decryptAt C self tree ctx i path = decryptAt C self u ctx i path := by
  induction path generalizing i with
  | nil => rfl
  | cons entry path ih =>
      obtain ⟨cop, node⟩ := entry
      have hresolution : tree.resolution cop = u.resolution cop := by
        rw [← resolution_canon, h, resolution_canon]
      simp only [decryptAt, hresolution, ih]

/-- The ciphertexts of a path node are seals to the resolution of its copath node. -/
theorem sealResolution_mem {ephemeral : ℕ → KemKey} {pathSecret : Bytes} {start : ℕ}
    {resolved : List ℕ} {cts : List HPKECiphertext}
    (h : sealResolution C tree ctx ephemeral pathSecret start resolved = .ok cts)
    {ct : HPKECiphertext}
    (hct : ct ∈ cts) : ∃ j index node, resolved[j]? = some index ∧ tree.getNode index = some node ∧
      sealWithContext C ctx (ephemeral (start + j)) node.publicKey pathSecret =
        .ok (ct.kemOutput, ct.ciphertext) := by
  obtain ⟨hlen, hseals⟩ := sealResolution_spec h
  obtain ⟨k, hk⟩ := List.mem_iff_getElem?.mp hct
  obtain ⟨index, hindex⟩ : ∃ index, (tree.recipients resolved)[k]? = some index :=
    ⟨_, List.getElem?_eq_getElem (hlen ▸ (List.getElem?_eq_some_iff.mp hk).1)⟩
  obtain ⟨j, node, hj, hnode, hseal⟩ := hseals k index ct hindex hk
  exact ⟨j, index, node, hj, hnode, hseal⟩

/-- What a member decrypts on the path was sealed at that position. -/
theorem decryptAt_sealed {ephemeral : ℕ → ℕ → KemKey} {i k : ℕ} {opened : Bytes}
    {path : List (Option ℕ × Bytes × Bytes)} {nodes : List UpdatePathNode}
    (h : sealPath C tree ctx ephemeral i path = .ok nodes)
    (hfound : decryptAt C receiver tree ctx i ((path.map Prod.fst).zip nodes) =
      .ok (some (k, opened))) :
    ∃ d entry resolved j index node enc ct, k = i + d ∧ path[d]? = some entry ∧
      tree.resolution entry.1 = .ok resolved ∧ resolved[j]? = some index ∧
      tree.getNode index = some node ∧
      sealWithContext C ctx (ephemeral k j) node.publicKey entry.2.1 = .ok (enc, ct) ∧
      openWithContext C ctx receiver.myKemKey enc ct = .ok opened := by
  induction path generalizing i nodes with
  | nil => cases hfound
  | cons entry path ih =>
      obtain ⟨cop, pathSecret, pub⟩ := entry
      simp only [sealPath, Py.bind_eq_ok, Py.pure_eq, Except.ok.injEq] at h
      obtain ⟨resolved, hresolved, cts, hcts, rest, hrest, rfl⟩ := h
      simp only [List.map_cons, List.zip_cons_cons, decryptAt, hresolved, Py.ok_bind] at hfound
      cases hct : (resolved.idxOf? (2 * receiver.myIndex)).bind (cts[·]?) with
      | none =>
          rw [hct] at hfound
          obtain ⟨d, entry, hrest⟩ := ih hrest hfound
          rw [Nat.add_assoc, Nat.add_comm 1 d] at hrest
          exact ⟨d + 1, entry, hrest⟩
      | some ct =>
          obtain ⟨_, -, hk⟩ := Option.bind_eq_some_iff.mp hct
          obtain ⟨j, index, node, hj, hnode, hseal⟩ :=
            sealResolution_mem hcts (List.mem_of_getElem? hk)
          simp only [hct, Py.bind_eq_ok, Py.pure_eq, Except.ok.injEq] at hfound
          obtain ⟨_, hopen, hsome⟩ := hfound
          cases hsome
          rw [Nat.zero_add] at hseal
          exact ⟨0, (cop, pathSecret, pub), resolved, j, index, node, _, _, rfl, rfl, hresolved, hj,
            hnode, hseal, hopen⟩

theorem length_kemOutput (hC : C.Correct) {ephemeral : KemKey} {recipient plaintext enc ct : Bytes}
    (h : sealWithContext C ctx ephemeral recipient plaintext = .ok (enc, ct)) :
    enc.length = 32 := by
  simp only [sealWithContext, HPKE.sealTo, Py.bind_eq_ok, Py.pure_eq, Except.ok.injEq,
    Prod.mk.injEq] at h
  obtain ⟨_, -, _, -, _, -, _, -, _, -, rfl, -⟩ := h
  exact hC.x25519_size _ ephemeral.size

end MLSGroup

/-! ## What a receiver of the commit opens -/

namespace BuiltPath

variable {receiver : MLSGroup} {m : ℕ} (b : BuiltPath C sender coins sealLeaf indices base)

/-- The path secret that a receiver decrypts was sealed, and for that position. -/
theorem decryptAt_seal (hm : base.Sized m) (hm32 : m ≤ 32) {k : ℕ} {opened : Bytes}
    (h : decryptAt C receiver b.tree b.ctx 0 (b.cop.zip b.nodes) = .ok (some (k, opened))) :
    ∃ index node secret enc ct, b.secrets[k]? = some secret ∧ b.Seals index secret enc ct ∧
      b.tree.getNode index = some node ∧
      openWithContext C b.ctx receiver.myKemKey enc ct = .ok opened := by
  obtain ⟨-, hc, hs, hp⟩ := b.lengths hm hm32
  have hzip : b.cop = (b.cop.zip (b.secrets.zip b.pubs)).map Prod.fst := by
    rw [List.map_fst_zip (by simp [hc, hs, hp])]
  rw [hzip] at h
  obtain ⟨d, entry, resolved, j, index, node, enc, ct, hk, hentry, hresolved, hj, hnode, hseal,
    hopen⟩ :=
    decryptAt_sealed b.nodes_eq h
  obtain rfl : k = d := by omega
  obtain ⟨hcop, hrest⟩ := List.getElem?_zip_eq_some.mp hentry
  obtain ⟨hsecret, -⟩ := List.getElem?_zip_eq_some.mp hrest
  exact ⟨index, node, entry.2.1, enc, ct, hsecret, .path hcop hsecret hresolved hj hnode hseal,
    hnode, hopen⟩

/-- A receiver in the committer's epoch that gets a commit secret out of the commit has opened one
of its seals, as many steps before the commit secret as the sealed secret is. -/
theorem opened_seal (hC : C.Correct) (f : Finished C sender b.commitSecret b.unsigned)
    (hseals : SealsLeaf C sealLeaf) (hm : base.Sized m) (hm32 : m ≤ 32)
    (hgroup : receiver.state.groupId = sender.state.groupId)
    (hinterim : receiver.interimTranscriptHash = sender.interimTranscriptHash) {found : Bytes}
    (h : openCommitSecret C receiver f.update = .ok found) :
    ∃ index node secret enc ct opened steps, b.Seals index secret enc ct ∧
      b.tree.getNode index = some node ∧
      openWithContext C b.ctx receiver.myKemKey enc ct = .ok opened ∧
      advancePathSecret C steps secret = .ok b.commitSecret ∧
      advancePathSecret C steps opened = .ok found := by
  have hctx : makeGroupContext C receiver.state.groupId f.update.epochId b.tree
      receiver.interimTranscriptHash = .ok b.ctx := by
    rw [hgroup, hinterim]
    exact b.ctx_eq
  have hfallback : ∀ ref, openFallback C receiver b.ctx f.update.encryptedCommitSecrets ref =
      .ok found → ∃ index node secret enc ct opened steps, b.Seals index secret enc ct ∧
        b.tree.getNode index = some node ∧
        openWithContext C b.ctx receiver.myKemKey enc ct = .ok opened ∧
        advancePathSecret C steps secret = .ok b.commitSecret ∧
        advancePathSecret C steps opened = .ok found := by
    intro ref hopen
    rw [openFallback] at hopen
    cases hget : f.update.encryptedCommitSecrets.get? ref with
    | none =>
        rw [hget] at hopen
        cases hopen
    | some encCt =>
        obtain ⟨index, leaf, hne, hleaf, hleafSeal⟩ := sealFallback_entry hseals b.fallback_eq hget
        obtain ⟨-, enc, ct, rfl, hseal⟩ := hseals _ _ _ _ _ _ hleafSeal
        have hlen := length_kemOutput hC hseal
        simp only [hget, List.take_left' hlen, List.drop_left' hlen] at hopen
        exact ⟨index, _, _, enc, ct, found, 0, .fallback hne hleaf hseal, getLeaf_eq_some.mp hleaf,
          hopen, rfl, rfl⟩
  have hsized : b.tree.Sized m := b.sameSize.sized hm
  obtain ⟨hslot, hdirect, hcop⟩ := b.paths hm hm32
  have hupdatePath : f.update.updatePath = some ⟨b.keyPackage, b.nodes⟩ := rfl
  have htree : f.update.tree = b.tree := rfl
  have hcommitter : f.update.committerIndex = sender.myIndex := rfl
  cases hown : receiver.state.tree.getLeaf (2 * receiver.myIndex) with
  | none =>
      simp only [openCommitSecret, hown] at h
      cases h
  | some own =>
      simp only [openCommitSecret, hown, Py.pure_eq, Py.ok_bind, hctx, hupdatePath, htree,
        hcommitter] at h
      obtain ⟨ref, -, h⟩ := Py.bind_eq_ok.mp h
      by_cases hnodes : b.nodes = []
      · simp only [if_pos hnodes] at h
        exact hfallback ref h
      · simp only [if_neg hnodes] at h
        rw [directPath_leaf hsized.covers hm32 hslot, Py.ok_bind,
          copath_leaf hsized.covers hm32 hslot, Py.ok_bind, ← hdirect, ← hcop,
          openFromPath_decryptAt] at h
        obtain ⟨fromPath, hpath, h⟩ := Py.bind_eq_ok.mp h
        obtain ⟨decrypted, hdecrypt, hpath⟩ := Py.bind_eq_ok.mp hpath
        cases decrypted with
        | none =>
            cases hpath
            exact hfallback ref h
        | some position =>
            obtain ⟨last, hlast, rfl⟩ := Py.map_eq_ok.mp hpath
            obtain rfl := Except.ok.inj h
            obtain ⟨index, node, secret, enc, ct, hsecret, hseal, hnode, hopen⟩ :=
              b.decryptAt_seal hm hm32 hdecrypt
            exact ⟨index, node, secret, enc, ct, position.2, _, hseal, hnode, hopen,
              advance_pathSecrets b.secrets_eq hsecret _, hlast⟩

/-- In a group of two everything is sealed to the other one. -/
theorem opensForRecipient_pair {key : KemKey} {l : ℕ} (hm : base.Sized 1) (hl : l < 2)
    (hne : l ≠ sender.myIndex) (hparent : b.tree.getLeaf 1 = none)
    (hresolution : b.tree.resolution (some (2 * l)) = .ok [2 * l])
    (hkey : (b.tree.getNode (2 * l)).map Node.publicKey = some (key.publicBytes C)) :
    b.OpensForRecipient key := by
  obtain ⟨hslot, -, hcop⟩ := b.paths hm (by decide)
  have hother : b.cop = [some (2 * l)] := by
    have hcases : sender.myIndex = 0 ∧ l = 1 ∨ sender.myIndex = 1 ∧ l = 0 := by omega
    rcases hcases with ⟨hown, rfl⟩ | ⟨hown, rfl⟩ <;> rw [hcop, hown] <;> rfl
  have hmine : ∀ {node}, b.tree.getNode (2 * l) = some node →
    node.publicKey = key.publicBytes C := by
    intro node hnode
    rwa [hnode, Option.map_some, Option.some.injEq] at hkey
  intro index node secret enc ct opened hseal hnode _
  cases hseal with
  | path hcop hsecret hresolved hindex _ _ =>
      rw [hother] at hcop
      obtain rfl := List.mem_singleton.mp (List.mem_of_getElem? hcop)
      obtain rfl := Except.ok.inj (hresolution.symm.trans hresolved)
      obtain rfl := List.mem_singleton.mp (List.mem_of_getElem? hindex)
      exact hmine hnode
  | fallback hown hleaf _ =>
      have hlt := getNode_lt hnode
      rw [(b.sameSize.sized hm).2] at hlt
      obtain rfl : index = 2 * l := by
        have : index ≠ 1 := by
          rintro rfl
          rw [hparent] at hleaf
          cases hleaf
        norm_num at hlt
        omega
      exact hmine hnode

end BuiltPath

end PureMls
