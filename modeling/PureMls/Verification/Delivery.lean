import PureMls.Verification.Assumptions
import PureMls.Verification.Commit
import PureMls.Verification.Selections

/-! # Delivering a commit

A member that agrees with the committer and holds the key of its leaf follows the commit. -/

namespace PureMls

open RatchetTree

variable {C : Crypto}

/-! ## HPKE -/

theorem HPKE.open_seal (hC : C.Correct) {ephemeral receiver : KemKey}
    {plaintext aad info enc ct : Bytes} {seq : ℕ}
    (h : HPKE.sealTo C ephemeral (receiver.publicBytes C) plaintext aad seq info = .ok (enc, ct)) :
    HPKE.openSealed C receiver enc ct aad seq info = .ok plaintext ∧ enc.length = 32 := by
  have hpub : ∀ key : KemKey, (key.publicBytes C).length = 32 :=
    fun key => hC.x25519_size _ key.size
  simp only [HPKE.sealTo, KemKey.dhExchange, if_pos (hpub receiver), Py.bind_eq_ok, Py.pure_eq,
    Except.ok.injEq, Prod.mk.injEq] at h
  obtain ⟨dh, hdh, ⟨key, nonce⟩, hkeys, ct', hct, rfl, rfl⟩ := h
  have hcomm := hC.exchange_comm ephemeral.privateBytes receiver.privateBytes ephemeral.size
    receiver.size
  have hdh' : receiver.dhExchange C (ephemeral.publicBytes C) = .ok dh := by
    rw [KemKey.dhExchange, if_pos (hpub ephemeral), KemKey.publicBytes, ← hcomm]
    exact hdh
  refine ⟨?_, hpub ephemeral⟩
  rw [HPKE.openSealed, hdh', Py.ok_bind, hkeys, Py.ok_bind]
  exact hC.decrypt_encrypt key nonce plaintext aad _ hct

namespace MLSGroup

theorem openWithContext_seal (hC : C.Correct) {ctx : GroupContext} {ephemeral receiver : KemKey}
    {plaintext enc ct : Bytes}
    (h : sealWithContext C ctx ephemeral (receiver.publicBytes C) plaintext = .ok (enc, ct)) :
    openWithContext C ctx receiver enc ct = .ok plaintext ∧ enc.length = 32 := by
  simp only [sealWithContext, Py.bind_eq_ok] at h
  obtain ⟨ctxBytes, hctx, info, hinfo, hseal⟩ := h
  obtain ⟨hopen, hlen⟩ := HPKE.open_seal hC hseal
  exact ⟨by rw [openWithContext, hctx, Py.ok_bind, hinfo, Py.ok_bind, hopen], hlen⟩

/-! ## The update path -/

variable {tree : RatchetTree} {ctx : GroupContext}

/-- The ciphertexts are seals to the recipients of the resolution, one by one. -/
theorem sealResolution_spec {ephemeral : ℕ → KemKey} {pathSecret : Bytes} {start : ℕ}
    {resolved : List ℕ} {cts : List HPKECiphertext}
    (h : sealResolution C tree ctx ephemeral pathSecret start resolved = .ok cts) :
    cts.length = (tree.recipients resolved).length ∧
    ∀ (k index : ℕ) (ct : HPKECiphertext), (tree.recipients resolved)[k]? = some index →
      cts[k]? = some ct → ∃ j node, resolved[j]? = some index ∧ tree.getNode index = some node ∧
        sealWithContext C ctx (ephemeral (start + j)) node.publicKey pathSecret =
          .ok (ct.kemOutput, ct.ciphertext) := by
  induction resolved generalizing start cts with
  | nil =>
      cases h
      exact ⟨rfl, fun k index ct hk => by simp [recipients] at hk⟩
  | cons first resolved ih =>
      have hlater : ∀ {index : ℕ} {ct : HPKECiphertext},
        (∃ j node, resolved[j]? = some index ∧ tree.getNode index = some node ∧
          sealWithContext C ctx (ephemeral (start + 1 + j)) node.publicKey pathSecret =
            .ok (ct.kemOutput, ct.ciphertext)) →
          ∃ j node, (first :: resolved)[j]? = some index ∧ tree.getNode index = some node ∧
            sealWithContext C ctx (ephemeral (start + j)) node.publicKey pathSecret =
              .ok (ct.kemOutput, ct.ciphertext) := by
        rintro index ct ⟨j, node, hj, hnode, hseal⟩
        rw [Nat.add_assoc, Nat.add_comm 1 j] at hseal
        exact ⟨j + 1, node, hj, hnode, hseal⟩
      rw [sealResolution] at h
      cases hfirst : tree.getNode first with
      | none =>
          rw [hfirst] at h
          rw [recipients, List.filter_cons_of_neg (by rw [hfirst]; simp)]
          obtain ⟨hlen, hseals⟩ := ih h
          exact ⟨hlen, fun k index ct hk hct => hlater (hseals k index ct hk hct)⟩
      | some node =>
          simp only [hfirst, Py.bind_eq_ok, Py.pure_eq, Except.ok.injEq] at h
          obtain ⟨⟨enc, ciphertext⟩, hseal, rest, hrest, rfl⟩ := h
          rw [recipients, List.filter_cons_of_pos (by rw [hfirst]; rfl)]
          obtain ⟨hlen, hseals⟩ := ih hrest
          refine ⟨congrArg (· + 1) hlen, fun k index ct hk hct => ?_⟩
          cases k with
          | zero =>
              simp only [List.getElem?_cons_zero, Option.some.injEq] at hk hct
              subst hk hct
              exact ⟨0, node, rfl, hfirst, hseal⟩
          | succ k =>
              rw [List.getElem?_cons_succ] at hk hct
              exact hlater (hseals k index ct hk hct)

/-- A member selects nothing on the path, or what was sealed to its addressee. -/
theorem selectFromPath_seal (receiver : MLSGroup) (total : ℕ) {ephemeral : ℕ → ℕ → KemKey} {i : ℕ}
    {path : List (Option ℕ × Bytes × Bytes)} {nodes : List UpdatePathNode}
    (h : sealPath C tree ctx ephemeral i path = .ok nodes) :
    (receiver.selectFromPath tree total i ((path.map Prod.fst).zip nodes) = .ok none ∧
      tree.addressee (2 * receiver.myIndex) (path.map Prod.fst) = .ok none) ∨
    ∃ k entry resolved j index node enc ct, path[k]? = some entry ∧
      tree.resolution entry.1 = .ok resolved ∧ resolved[j]? = some index ∧
      tree.getNode index = some node ∧
      tree.addressee (2 * receiver.myIndex) (path.map Prod.fst) = .ok (some index) ∧
      sealWithContext C ctx (ephemeral (i + k) j) node.publicKey entry.2.1 = .ok (enc, ct) ∧
      receiver.selectFromPath tree total i ((path.map Prod.fst).zip nodes) =
        .ok (some ⟨enc, ct, total - (i + k) - 1⟩) := by
  induction path generalizing i nodes with
  | nil => exact .inl ⟨rfl, rfl⟩
  | cons first path ih =>
      obtain ⟨cop, pathSecret, pub⟩ := first
      simp only [sealPath, Py.bind_eq_ok, Py.pure_eq, Except.ok.injEq] at h
      obtain ⟨resolved, hresolved, cts, hcts, rest, hrest, rfl⟩ := h
      obtain ⟨hlen, hseals⟩ := sealResolution_spec hcts
      simp only [List.map_cons, List.zip_cons_cons, selectFromPath, addressee, hresolved,
        Py.ok_bind]
      cases hat :
        (resolved.idxOf? (2 * receiver.myIndex)).bind ((tree.recipients resolved)[·]?) with
      | none =>
          have hct : (resolved.idxOf? (2 * receiver.myIndex)).bind (cts[·]?) = none := by
            rw [Option.bind_eq_none_iff] at hat ⊢
            intro k hk
            rw [List.getElem?_eq_none_iff, hlen, ← List.getElem?_eq_none_iff]
            exact hat k hk
          simp only [hct]
          rcases ih hrest with hnone | ⟨k, entry, resolved', j, index, node, enc, ct, hk, hres, hj,
            hnode, haddressee, hseal, hselect⟩
          · exact .inl hnone
          · rw [Nat.add_assoc, Nat.add_comm 1 k] at hseal hselect
            exact .inr ⟨k + 1, entry, resolved', j, index, node, enc, ct, hk, hres, hj, hnode,
              haddressee, hseal, hselect⟩
      | some index =>
          obtain ⟨k, hk, hindex⟩ := Option.bind_eq_some_iff.mp hat
          obtain ⟨ct, hct⟩ : ∃ ct, cts[k]? = some ct :=
            ⟨_, List.getElem?_eq_getElem (hlen ▸ (List.getElem?_eq_some_iff.mp hindex).1)⟩
          obtain ⟨j, node, hj, hnode, hseal⟩ := hseals k index ct hindex hct
          rw [Nat.zero_add] at hseal
          refine .inr ⟨0, _, resolved, j, index, node, ct.kemOutput, ct.ciphertext, rfl, hresolved,
            hj, hnode, rfl, hseal, ?_⟩
          simp only [hk, Option.bind_some, hct, Py.pure_eq, Nat.add_zero]

/-! ## The fallback -/

/-- Both ways to seal to a leaf give its reference and an encapsulation with a ciphertext. -/
def SealsLeaf (C : Crypto) (sealLeaf : LeafSeal) : Prop :=
  ∀ ctx ephemeral leaf commitSecret ref encCt,
    sealLeaf ctx ephemeral leaf commitSecret = .ok (ref, encCt) →
    makeKpRef C leaf.keyPackage = .ok ref ∧ ∃ enc ct, encCt = enc ++ ct ∧
      sealWithContext C ctx ephemeral leaf.encryptionKey commitSecret = .ok (enc, ct)

theorem sealsLeaf_refFirst : SealsLeaf C (sealLeafRefFirst C) := by
  intro ctx ephemeral leaf commitSecret ref encCt h
  simp only [sealLeafRefFirst, Py.bind_eq_ok, Py.pure_eq, Except.ok.injEq, Prod.mk.injEq] at h
  obtain ⟨ref', href, ⟨enc, ct⟩, hseal, rfl, rfl⟩ := h
  exact ⟨href, enc, ct, rfl, hseal⟩

theorem sealsLeaf_sealFirst : SealsLeaf C (sealLeafSealFirst C) := by
  intro ctx ephemeral leaf commitSecret ref encCt h
  simp only [sealLeafSealFirst, Py.bind_eq_ok, Py.pure_eq, Except.ok.injEq, Prod.mk.injEq] at h
  obtain ⟨⟨enc, ct⟩, hseal, ref', href, rfl, rfl⟩ := h
  exact ⟨href, enc, ct, rfl, hseal⟩

private theorem sealFallback_fold {sealLeaf : LeafSeal} (hseals : SealsLeaf C sealLeaf)
    {ephemeral : ℕ → KemKey} {commitSecret : Bytes} {ownNode : ℕ} {indices : List ℕ}
    {start secrets : Dict Bytes Bytes}
    (h : indices.foldlM (fun secrets index =>
      match tree.getLeaf index with
      | some leaf =>
        if index = ownNode then pure secrets
        else do
          let (kpRef, encCt) ← sealLeaf ctx (ephemeral index) leaf commitSecret
          pure (secrets.set kpRef encCt)
      | none => pure secrets) start = Except.ok (ε := Fault) secrets)
    (P : Bytes → Bytes → Prop) (hentry : ∀ index leaf ref encCt, index ≠ ownNode →
      tree.getLeaf index = some leaf →
      sealLeaf ctx (ephemeral index) leaf commitSecret = .ok (ref, encCt) → P ref encCt) :
    ((∀ ref encCt, start.get? ref = some encCt → P ref encCt) →
      ∀ ref encCt, secrets.get? ref = some encCt → P ref encCt) ∧
    (∀ ref, start.get? ref ≠ none → secrets.get? ref ≠ none) ∧
    ∀ index ∈ indices, ∀ leaf ref, index ≠ ownNode → tree.getLeaf index = some leaf →
      makeKpRef C leaf.keyPackage = .ok ref → secrets.get? ref ≠ none := by
  induction indices generalizing start with
  | nil =>
      simp only [List.foldlM_nil, Py.pure_eq, Except.ok.injEq] at h
      subst h
      exact ⟨fun hstart => hstart, fun _ href => href, fun index hindex => by simp at hindex⟩
  | cons first indices ih =>
      simp only [List.foldlM_cons, Py.bind_eq_ok] at h
      obtain ⟨next, hnext, hrest⟩ := h
      obtain ⟨hsealed, hkeep, hmem⟩ := ih hrest
      cases hfirst : tree.getLeaf first with
      | none =>
          simp only [hfirst, Py.pure_eq, Except.ok.injEq] at hnext
          subst hnext
          refine ⟨hsealed, hkeep, fun index hindex leaf ref hne hleaf href => ?_⟩
          rcases List.mem_cons.mp hindex with rfl | hindex
          · rw [hfirst] at hleaf
            cases hleaf
          · exact hmem index hindex leaf ref hne hleaf href
      | some firstLeaf =>
          simp only [hfirst] at hnext
          by_cases hown : first = ownNode
          · simp only [if_pos hown, Py.pure_eq, Except.ok.injEq] at hnext
            subst hnext
            refine ⟨hsealed, hkeep, fun index hindex leaf ref hne hleaf href => ?_⟩
            rcases List.mem_cons.mp hindex with rfl | hindex
            · exact absurd hown hne
            · exact hmem index hindex leaf ref hne hleaf href
          · simp only [if_neg hown, Py.bind_eq_ok, Py.pure_eq, Except.ok.injEq] at hnext
            obtain ⟨⟨kpRef, encCt⟩, hseal, rfl⟩ := hnext
            obtain ⟨hkpRef, -⟩ := hseals _ _ _ _ _ _ hseal
            have hset : ∀ ref, start.get? ref ≠ none → (start.set kpRef encCt).get? ref ≠ none := by
              intro ref href
              rw [Dict.get?_set]
              split <;> simp_all
            refine ⟨fun hstart => hsealed fun ref encCt' href => ?_,
              fun ref href => hkeep ref (hset ref href),
              fun index hindex leaf ref hne hleaf href => ?_⟩
            · rw [Dict.get?_set] at href
              by_cases heq : ref = kpRef
              · rw [if_pos heq, Option.some.injEq] at href
                subst heq href
                exact hentry first firstLeaf _ _ hown hfirst hseal
              · rw [if_neg heq] at href
                exact hstart ref encCt' href
            · rcases List.mem_cons.mp hindex with rfl | hindex
              · rw [hfirst, Option.some.injEq] at hleaf
                subst hleaf
                rw [hkpRef, Except.ok.injEq] at href
                subst href
                exact hkeep _ (by simp)
              · exact hmem index hindex leaf ref hne hleaf href

/-- Every entry of the fallback was made for some leaf, with the ephemeral key of its index. -/
theorem sealFallback_entry {sealLeaf : LeafSeal} (hseals : SealsLeaf C sealLeaf)
    {ephemeral : ℕ → KemKey} {commitSecret : Bytes} {ownNode : ℕ} {indices : List ℕ}
    {secrets : Dict Bytes Bytes}
    (h : sealFallback sealLeaf tree ctx ephemeral commitSecret ownNode indices = .ok secrets)
    {ref encCt : Bytes} (hget : secrets.get? ref = some encCt) :
    ∃ index leaf, index ≠ ownNode ∧ tree.getLeaf index = some leaf ∧
      sealLeaf ctx (ephemeral index) leaf commitSecret = .ok (ref, encCt) := by
  refine (sealFallback_fold hseals h (fun ref encCt => ∃ index leaf, index ≠ ownNode ∧
    tree.getLeaf index = some leaf ∧ sealLeaf ctx (ephemeral index) leaf commitSecret =
      .ok (ref, encCt)) ?_).1 (fun ref encCt hempty => by simp at hempty) ref encCt hget
  intro index leaf ref encCt hown hleaf hseal
  exact ⟨index, leaf, hown, hleaf, hseal⟩

/-- Every other leaf among the indices has an entry under its reference. -/
theorem sealFallback_mem {sealLeaf : LeafSeal} (hseals : SealsLeaf C sealLeaf)
    {ephemeral : ℕ → KemKey} {commitSecret : Bytes} {ownNode index : ℕ} {indices : List ℕ}
    {secrets : Dict Bytes Bytes} {leaf : LeafNode} {ref : Bytes}
    (h : sealFallback sealLeaf tree ctx ephemeral commitSecret ownNode indices = .ok secrets)
    (hindex : index ∈ indices) (hne : index ≠ ownNode) (hleaf : tree.getLeaf index = some leaf)
    (href : makeKpRef C leaf.keyPackage = .ok ref) : ∃ encCt, secrets.get? ref = some encCt :=
  Option.ne_none_iff_exists'.mp
    ((sealFallback_fold hseals h (fun _ _ => True) fun _ _ _ _ _ _ _ => trivial).2.2 index hindex
      leaf ref hne hleaf href)

end MLSGroup

/-- SHA-256 does not collide on the key package references of the leaves of the tree. -/
def RefsCollisionFree (C : Crypto) (tree : RatchetTree) : Prop :=
  ∀ i j leaf leaf' input input', tree.getLeaf i = some leaf → tree.getLeaf j = some leaf' →
    kpRefInput leaf.keyPackage = .ok input → kpRefInput leaf'.keyPackage = .ok input' →
    C.sha256 input = C.sha256 input' → input = input'

theorem kpRefInput_inj {kp kp' : KeyPackage} {input : Bytes} (h : kpRefInput kp = .ok input)
    (h' : kpRefInput kp' = .ok input) : kp.canon = kp'.canon := by
  simp only [kpRefInput, Py.bind_eq_ok, Py.pure_eq, Except.ok.injEq] at h h'
  obtain ⟨bytes, hbytes, labelSize, hlabel, size, hsize, rfl⟩ := h
  obtain ⟨bytes', hbytes', labelSize', hlabel', size', hsize', heq⟩ := h'
  rw [hlabel, Except.ok.injEq] at hlabel'
  subst hlabel'
  have hopaque : tlsOpaque bytes = .ok (size ++ bytes) := by simp [tlsOpaque, hsize]
  have hopaque' : tlsOpaque bytes' = .ok (size' ++ bytes') := by simp [tlsOpaque, hsize']
  have hcat : size' ++ bytes' = size ++ bytes := by
    rw [List.append_assoc, List.append_assoc, List.append_assoc, List.append_assoc] at heq
    exact List.append_cancel_left (List.append_cancel_left heq)
  rw [hcat] at hopaque'
  have hsame := (readsAs_opaqueV hopaque).unique_self (readsAs_opaqueV hopaque')
  subst hsame
  exact (KeyPackage.readsAs hbytes).unique_self (KeyPackage.readsAs hbytes')

/-- Leaves with one reference are one leaf as far as the wire can tell. -/
theorem RefsCollisionFree.canon_eq {tree : RatchetTree} (h : RefsCollisionFree C tree) {i j : ℕ}
    {leaf leaf' : LeafNode} {ref : Bytes} (hi : tree.getLeaf i = some leaf)
    (hj : tree.getLeaf j = some leaf') (href : makeKpRef C leaf.keyPackage = .ok ref)
    (href' : makeKpRef C leaf'.keyPackage = .ok ref) : leaf.canon = leaf'.canon := by
  obtain ⟨input, hinput, rfl⟩ := Py.map_eq_ok.mp href
  obtain ⟨input', hinput', heq⟩ := Py.map_eq_ok.mp href'
  have hsame := h i j leaf leaf' input input' hi hj hinput hinput' heq.symm
  subst hsame
  exact congrArg KeyPackage.leafNode (kpRefInput_inj hinput hinput')

theorem makeKpRef_canon (leaf : LeafNode) :
    makeKpRef C leaf.canon.keyPackage = makeKpRef C leaf.keyPackage := by
  have hbytes : leaf.canon.keyPackage.toBytes = leaf.keyPackage.toBytes :=
    KeyPackage.toBytes_canon leaf.keyPackage
  simp only [makeKpRef, kpRefInput, hbytes]

/-! ## Following a commit -/

/-- Same group, epoch, secrets and transcript, and the same tree as far as the wire can tell. -/
structure Agrees (here there : MLSGroup) : Prop where
  groupId : here.state.groupId = there.state.groupId
  epochId : here.state.epochId = there.state.epochId
  tree : here.state.tree.canon = there.state.tree.canon
  keySchedule : here.state.keySchedule = there.state.keySchedule
  interim : here.interimTranscriptHash = there.interimTranscriptHash

namespace Agrees

variable {here there third : MLSGroup}

theorem refl (here : MLSGroup) : Agrees here here := ⟨rfl, rfl, rfl, rfl, rfl⟩

theorem symm (h : Agrees here there) : Agrees there here :=
  ⟨h.1.symm, h.2.symm, h.3.symm, h.4.symm, h.5.symm⟩

theorem trans (h : Agrees here there) (h' : Agrees there third) : Agrees here third :=
  ⟨h.1.trans h'.1, h.2.trans h'.2, h.3.trans h'.3, h.4.trans h'.4, h.5.trans h'.5⟩

theorem getLeaf (h : Agrees here there) {i : ℕ} {leaf : LeafNode}
    (hleaf : there.state.tree.getLeaf i = some leaf) :
    ∃ leaf', here.state.tree.getLeaf i = some leaf' ∧ leaf'.canon = leaf.canon := by
  have hcanon := congrArg (fun tree => tree.getLeaf i) h.tree
  simp only [getLeaf_canon, hleaf, Option.map_some] at hcanon
  exact Option.map_eq_some_iff.mp hcanon

theorem makeGroupContext (h : Agrees here there) :
    makeGroupContext C here.state.groupId here.state.epochId here.state.tree
        here.interimTranscriptHash =
      makeGroupContext C there.state.groupId there.state.epochId there.state.tree
        there.interimTranscriptHash := by
  unfold PureMls.makeGroupContext
  rw [treeHash_congr h.tree, h.groupId, h.epochId, h.interim]

end Agrees

namespace MLSGroup

theorem forM_eq_ok {α : Type} {f : α → Py Unit} {xs : List α} :
    xs.forM f = .ok () ↔ ∀ x ∈ xs, f x = .ok () := by
  induction xs with
  | nil => simp
  | cons x xs ih =>
      change (f x >>= fun _ => xs.forM f) = .ok () ↔ _
      rw [Py.bind_eq_ok, ih, List.forall_mem_cons]
      exact ⟨fun ⟨_, hx, hxs⟩ => ⟨hx, hxs⟩, fun ⟨hx, hxs⟩ => ⟨(), hx, hxs⟩⟩

theorem verifyLeaves_eq_ok {groupId : Bytes} {tree : RatchetTree} :
    verifyLeaves C groupId tree = .ok () ↔ ∀ li < tree.numLeaves, ∀ leaf,
      tree.getLeaf (2 * li) = some leaf → leaf.verifySignature C groupId li = .ok () := by
  rw [verifyLeaves, forM_eq_ok]
  refine forall_congr' fun li => ?_
  rw [List.mem_range]
  refine imp_congr_right fun _ => ?_
  cases tree.getLeaf (2 * li) with
  | none => simp
  | some leaf => simp

/-- What a member brings to a commit it is to follow: the committer's state, a leaf that the
proposal leaves in place, and the key of that leaf. -/
structure Follows (C : Crypto) (receiver sender : MLSGroup) (base : RatchetTree) : Prop where
  agrees : Agrees receiver sender
  ne : receiver.myIndex ≠ sender.myIndex
  leaf : ∃ leaf, sender.state.tree.getLeaf (2 * receiver.myIndex) = some leaf ∧
    base.getLeaf (2 * receiver.myIndex) = some leaf ∧
    leaf.encryptionKey = receiver.myKemKey.publicBytes C

/-- The ciphertext at the member's position was sealed to the member's key. -/
def AddressedBy (C : Crypto) (self : MLSGroup) (update : GroupUpdate) : Prop :=
  ∀ cop index node, update.tree.copath (2 * update.committerIndex) = .ok cop →
    update.tree.addressee (2 * self.myIndex) cop = .ok (some index) →
    update.tree.getNode index = some node → node.publicKey = self.myKemKey.publicBytes C

end MLSGroup

namespace BuiltPath

open MLSGroup

variable {sender receiver : MLSGroup} {coins : CommitCoins} {sealLeaf : LeafSeal}
  {indices : RatchetTree → List ℕ} {base : RatchetTree} {m : ℕ}

/-- The ciphertexts of a commit that are meant for a member: the path secret that was sealed to the
member's key in the first resolution that has the member, or the commit secret when none has. -/
inductive SealedFor (b : BuiltPath C sender coins sealLeaf indices base) (receiver : MLSGroup) :
    Selection → Prop where
  | treeKem {i j cop resolved index secret enc ct} :
      b.tree.addressee (2 * receiver.myIndex) b.cop = .ok (some index) → b.cop[i]? = some cop →
      b.tree.resolution cop = .ok resolved → resolved[j]? = some index →
        b.secrets[i]? = some secret →
      sealWithContext C b.ctx (coins.pathEphemeral i j) (receiver.myKemKey.publicBytes C) secret =
        .ok (enc, ct) → SealedFor b receiver ⟨enc, ct, b.direct.length - i - 1⟩
  | fallback {index enc ct} :
      b.tree.addressee (2 * receiver.myIndex) b.cop = .ok none → index ≠ 2 * sender.myIndex →
      sealWithContext C b.ctx (coins.fallbackEphemeral index) (receiver.myKemKey.publicBytes C)
        b.commitSecret = .ok (enc, ct) → SealedFor b receiver ⟨enc, ct, 0⟩

/-- Whatever is meant for the member leads it to the commit secret. -/
theorem SealedFor.opens (hC : C.Correct) {b : BuiltPath C sender coins sealLeaf indices base}
    {selection : Selection} (h : b.SealedFor receiver selection) :
    openSelection C receiver b.ctx selection = .ok b.commitSecret := by
  cases h with
  | treeKem _ _ _ _ hsecret hseal =>
      simp only [openSelection, (openWithContext_seal hC hseal).1, Py.ok_bind]
      exact advance_pathSecrets b.secrets_eq hsecret _
  | fallback _ _ hseal =>
      simp only [openSelection, (openWithContext_seal hC hseal).1, Py.ok_bind]
      rfl

/-- A fallback entry under the reference of the member's leaf is sealed to the member. -/
theorem selectFallback_of_commit (hC : C.Correct)
    (b : BuiltPath C sender coins sealLeaf indices base) (hseals : SealsLeaf C sealLeaf)
    (hrefs : RefsCollisionFree C b.tree) {leaf : LeafNode} {ref : Bytes}
    (hne : receiver.myIndex ≠ sender.myIndex) (hindex : 2 * receiver.myIndex ∈ indices b.tree)
    (hleaf : b.tree.getLeaf (2 * receiver.myIndex) = some leaf)
    (hkey : leaf.encryptionKey = receiver.myKemKey.publicBytes C)
    (href : makeKpRef C leaf.keyPackage = .ok ref) : ∃ index enc ct, index ≠ 2 * sender.myIndex ∧
      selectFallback b.fallback ref = .ok ⟨enc, ct, 0⟩ ∧
      sealWithContext C b.ctx (coins.fallbackEphemeral index) (receiver.myKemKey.publicBytes C)
        b.commitSecret = .ok (enc, ct) := by
  obtain ⟨encCt, hget⟩ := sealFallback_mem hseals b.fallback_eq hindex (by omega) hleaf href
  obtain ⟨index, leaf', hother, hleaf', hentry⟩ := sealFallback_entry hseals b.fallback_eq hget
  obtain ⟨href', enc, ct, rfl, hct⟩ := hseals _ _ _ _ _ _ hentry
  have hsame : leaf'.encryptionKey = leaf.encryptionKey :=
    congrArg (·.encryptionKey) (hrefs.canon_eq hleaf' hleaf href' href)
  rw [hsame, hkey] at hct
  have hlen := (openWithContext_seal hC hct).2
  refine ⟨index, enc, ct, hother, ?_, hct⟩
  simp only [selectFallback, hget, List.take_left' hlen, List.drop_left' hlen, Py.pure_eq]

/-- The reference of a leaf exists when the commit sealed its secret under it. -/
theorem ref_of_commit (b : BuiltPath C sender coins sealLeaf indices base)
    (hseals : SealsLeaf C sealLeaf)
    {l : ℕ} {leaf : LeafNode} (hne : l ≠ sender.myIndex) (hindex : 2 * l ∈ indices b.tree)
    (hleaf : b.tree.getLeaf (2 * l) = some leaf) :
    ∃ ref, makeKpRef C leaf.keyPackage = .ok ref := by
  have hfold := b.fallback_eq
  obtain ⟨before, after, hsplit⟩ := List.append_of_mem hindex
  rw [sealFallback, hsplit, List.foldlM_append] at hfold
  obtain ⟨d, -, hfold⟩ := Py.bind_eq_ok.mp hfold
  have hother : ¬ 2 * l = 2 * sender.myIndex := by omega
  simp only [List.foldlM_cons, hleaf, if_neg hother, Py.bind_eq_ok] at hfold
  obtain ⟨_, ⟨⟨ref, encCt⟩, hseal, -⟩, -⟩ := hfold
  exact ⟨ref, (hseals _ _ _ _ _ _ hseal).1⟩

/-- A member of the group selects what was sealed to its addressee, or the commit secret that was
sealed to its own key when it has none. -/
theorem select_of_commit (hC : C.Correct) (b : BuiltPath C sender coins sealLeaf indices base)
    (f : Finished C sender b.commitSecret b.unsigned) (hseals : SealsLeaf C sealLeaf)
    (hm : base.Sized m) (hm32 : m ≤ 32) (hrefs : RefsCollisionFree C b.tree)
    (hfollows : Follows C receiver sender base) (hindex : 2 * receiver.myIndex ∈ indices b.tree) :
    (∃ index enc ct, b.tree.addressee (2 * receiver.myIndex) b.cop = .ok none ∧
      index ≠ 2 * sender.myIndex ∧
      sealWithContext C b.ctx (coins.fallbackEphemeral index) (receiver.myKemKey.publicBytes C)
        b.commitSecret = .ok (enc, ct) ∧ select C receiver f.update = .ok (b.ctx, ⟨enc, ct, 0⟩)) ∨
    ∃ i j cop resolved index node secret enc ct,
      b.tree.addressee (2 * receiver.myIndex) b.cop = .ok (some index) ∧ b.cop[i]? = some cop ∧
      b.tree.resolution cop = .ok resolved ∧ resolved[j]? = some index ∧
      b.tree.getNode index = some node ∧ b.secrets[i]? = some secret ∧
      sealWithContext C b.ctx (coins.pathEphemeral i j) node.publicKey secret = .ok (enc, ct) ∧
      select C receiver f.update = .ok (b.ctx, ⟨enc, ct, b.direct.length - i - 1⟩) := by
  obtain ⟨hagree, hne, leaf, hold, hbase, hkey⟩ := hfollows
  obtain ⟨own, hown, hcanon⟩ := hagree.getLeaf hold
  have hleaf : b.tree.getLeaf (2 * receiver.myIndex) = some leaf :=
    (b.getLeaf_other hm hm32 hne).trans hbase
  have hctx : makeGroupContext C receiver.state.groupId f.update.epochId b.tree
      receiver.interimTranscriptHash = .ok b.ctx := by
    rw [hagree.groupId, hagree.interim]
    exact b.ctx_eq
  have hsameRef : makeKpRef C own.keyPackage = makeKpRef C leaf.keyPackage := by
    rw [← makeKpRef_canon, hcanon, makeKpRef_canon]
  obtain ⟨ref, href⟩ := b.ref_of_commit hseals hne hindex hleaf
  obtain ⟨index, enc, ct, hother, hfallback, hfallbackSeal⟩ :=
    b.selectFallback_of_commit hC hseals hrefs hne hindex hleaf hkey href
  have hsized : b.tree.Sized m := b.sameSize.sized hm
  obtain ⟨hslot, hdirect, hcop⟩ := b.paths hm hm32
  obtain ⟨hd, hc, hs, hp⟩ := b.lengths hm hm32
  have hzip : (b.cop.zip (b.secrets.zip b.pubs)).map Prod.fst = b.cop := by
    rw [List.map_fst_zip (by simp [hc, hs, hp])]
  have hfromPath := selectFromPath_seal receiver b.direct.length b.nodes_eq
  rw [hzip] at hfromPath
  have hupdatePath : f.update.updatePath = some ⟨b.keyPackage, b.nodes⟩ := rfl
  have htree : f.update.tree = b.tree := rfl
  have hcommitter : f.update.committerIndex = sender.myIndex := rfl
  have hsecrets : f.update.encryptedCommitSecrets = b.fallback := rfl
  simp only [select, hown, hctx, hsameRef, href, hupdatePath, htree, hcommitter, hsecrets,
    hfallback, Py.pure_eq, Py.ok_bind]
  by_cases hnodes : b.nodes = []
  · rw [hnodes, List.zip_nil_right] at hfromPath
    simp only [if_pos hnodes]
    rcases hfromPath with ⟨-, hnone⟩ | ⟨_, _, _, _, _, _, _, _, _, _, _, _, _, _, hfound⟩
    · exact .inl ⟨index, enc, ct, hnone, hother, hfallbackSeal, rfl⟩
    · cases hfound
  · simp only [if_neg hnodes]
    rw [directPath_leaf hsized.covers hm32 hslot, Py.ok_bind, copath_leaf hsized.covers hm32 hslot,
      Py.ok_bind, ← hdirect, ← hcop]
    rcases hfromPath with ⟨hselect, hnone⟩ | ⟨k, entry, resolved, j, index', node, enc', ct', hk,
      hresolved, hj, hnode, haddressee, hseal, hfound⟩
    · rw [hselect]
      exact .inl ⟨index, enc, ct, hnone, hother, hfallbackSeal, rfl⟩
    · rw [hfound]
      rw [Nat.zero_add] at hseal ⊢
      obtain ⟨hcopAt, hrest⟩ := List.getElem?_zip_eq_some.mp hk
      exact .inr ⟨k, j, entry.1, resolved, index', node, entry.2.1, enc', ct', haddressee, hcopAt,
        hresolved, hj, hnode, (List.getElem?_zip_eq_some.mp hrest).1, hseal, rfl⟩

/-- What a member selects is meant for it when the ciphertext at its position is for its key. -/
theorem select_sealedFor (hC : C.Correct) (b : BuiltPath C sender coins sealLeaf indices base)
    (f : Finished C sender b.commitSecret b.unsigned) (hseals : SealsLeaf C sealLeaf)
    (hm : base.Sized m) (hm32 : m ≤ 32) (haddressed : receiver.AddressedBy C f.update)
    (hrefs : RefsCollisionFree C b.tree) (hfollows : Follows C receiver sender base)
    (hindex : 2 * receiver.myIndex ∈ indices b.tree) :
    ∃ selection, select C receiver f.update = .ok (b.ctx, selection) ∧
    b.SealedFor receiver selection := by
  rcases b.select_of_commit hC f hseals hm hm32 hrefs hfollows hindex with
    ⟨index, enc, ct, haddressee, hother, hseal, hselect⟩ |
    ⟨i, j, cop, resolved, index, node, secret, enc, ct, haddressee, hcop, hresolved, hj, hnode,
      hsecret, hseal, hselect⟩
  · exact ⟨_, hselect, .fallback haddressee hother hseal⟩
  · rw [haddressed b.cop index node (b.copath_tree hm hm32) haddressee hnode] at hseal
    exact ⟨_, hselect, .treeKem haddressee hcop hresolved hj hsecret hseal⟩

theorem openCommitSecret_of_commit (hC : C.Correct)
    (b : BuiltPath C sender coins sealLeaf indices base)
    (f : Finished C sender b.commitSecret b.unsigned) (hseals : SealsLeaf C sealLeaf)
    (hm : base.Sized m) (hm32 : m ≤ 32) (haddressed : receiver.AddressedBy C f.update)
    (hrefs : RefsCollisionFree C b.tree) (hfollows : Follows C receiver sender base)
    (hindex : 2 * receiver.myIndex ∈ indices b.tree) :
    openCommitSecret C receiver f.update = .ok b.commitSecret := by
  obtain ⟨selection, hselect, hsealed⟩ :=
    b.select_sealedFor hC f hseals hm hm32 haddressed hrefs hfollows hindex
  rw [openCommitSecret_eq_select, hselect]
  exact hsealed.opens hC

end BuiltPath

namespace MLSGroup

variable {sender receiver : MLSGroup} {coins : CommitCoins} {sealLeaf : LeafSeal}
  {indices : RatchetTree → List ℕ} {base : RatchetTree} {m : ℕ} {committer : LeafNode}

/-- A member that agrees with the committer and whose leaf key is its own follows the commit to
the state the committer reaches, provided the leaves of the new tree verify. -/
theorem processUpdate_of_commit (hC : C.Correct)
    (b : BuiltPath C sender coins sealLeaf indices base)
    (f : Finished C sender b.commitSecret b.unsigned) (hseals : SealsLeaf C sealLeaf)
    (hm : base.Sized m) (hm32 : m ≤ 32) (haddressed : receiver.AddressedBy C f.update)
    (hrefs : RefsCollisionFree C b.tree) (hfollows : Follows C receiver sender base)
    (hindex : 2 * receiver.myIndex ∈ indices b.tree)
    (hcommitter : sender.state.tree.getLeaf (2 * sender.myIndex) = some committer)
    (hsigKey : committer.signatureKey = sender.mySigKey.publicBytes C)
    (hverify : verifyLeaves C sender.state.groupId b.tree = .ok ()) :
    processUpdateBody C receiver f.update =
      .ok (init f.nextState receiver.myIndex receiver.mySigKey receiver.myKemKey f.interim) := by
  have hsecret := b.openCommitSecret_of_commit hC f hseals hm hm32 haddressed hrefs hfollows hindex
  have hagree := hfollows.agrees
  obtain ⟨known, hknown, hcanon⟩ := hagree.getLeaf hcommitter
  have hkey : known.signatureKey = sender.mySigKey.publicBytes C :=
    (congrArg LeafNode.signatureKey hcanon).trans hsigKey
  have hcheck : receiver.checkUpdate f.update = .ok known := by
    have hgroup : f.update.groupId = receiver.state.groupId := hagree.groupId.symm
    have hepoch : f.update.epochId = receiver.state.epochId + 1 := by
      rw [hagree.epochId]
      rfl
    have hleaf : receiver.state.tree.getLeaf (2 * f.update.committerIndex) = some known := hknown
    simp only [checkUpdate, Py.require_of _ hgroup, Py.require_of _ hepoch, Py.ok_bind, hleaf,
      Py.pure_eq]
  have hframed : receiver.receivedContent f.update =
      .ok ⟨sender.state.groupId, sender.state.epochId, sender.myIndex, [], f.body⟩ := by
    have hbody : f.update.bodyBytes = .ok f.body := f.body_eq
    rw [receivedContent, hbody, Py.ok_bind, hagree.groupId, hagree.epochId]
    rfl
  have hsignature : checkSignature C receiver f.update known
      ⟨sender.state.groupId, sender.state.epochId, sender.myIndex, [], f.body⟩ = .ok f.tbs := by
    have hsize : (sender.mySigKey.publicBytes C).length = 32 :=
      hC.ed25519_size _ sender.mySigKey.size
    have hvalid : ed25519Check C (sender.mySigKey.publicBytes C) f.update.signature f.tbs =
      .ok () :=
      Py.require_of _ (hC.sign_verify _ _)
    simp only [checkSignature, hagree.makeGroupContext, f.oldCtx_eq, hkey, ed25519FromPublicBytes,
      Py.require_of _ hsize, f.tbs_eq, Py.pure_eq, Py.ok_bind, hvalid]
    rfl
  have hmembership : checkMembershipTag C receiver f.update f.tbs = .ok () := by
    have htag : f.update.membershipTag =
      some (C.hmacSha256 sender.state.keySchedule.membershipKey f.tbs) := rfl
    rw [checkMembershipTag, htag, hagree.keySchedule]
    exact Py.require_of _ rfl
  have htranscript :
    computeConfirmedTranscriptHash C receiver.interimTranscriptHash f.confirmedInput =
      f.transcriptHash := by
    rw [hagree.interim]
    rfl
  have hnewCtx : makeGroupContext C receiver.state.groupId f.update.epochId f.update.tree
      f.transcriptHash = .ok f.newCtx := by
    rw [hagree.groupId]
    exact f.newCtx_eq
  have hconfirmation : checkConfirmationTag f.update (C.hmacSha256 f.confKey f.transcriptHash) =
      .ok () := Py.require_of _ rfl
  have hadvance : receiver.state.advanceEpoch C b.commitSecret f.update.tree f.newCtxBytes [] =
      .ok f.nextState := by
    have hnext := f.nextState_eq
    simp only [EpochState.advanceEpoch, hagree.keySchedule, hagree.groupId,
      hagree.epochId] at hnext ⊢
    exact hnext
  have hconfirmed : computeConfirmedTranscriptHashInput f.framedBytes f.update.signature =
    .ok f.confirmedInput := f.confirmedInput_eq
  have hverify' : verifyLeaves C receiver.state.groupId f.update.tree = .ok () := by
    rw [hagree.groupId]
    exact hverify
  simp only [processUpdateBody, hcheck, Py.ok_bind, hverify', hsecret, hframed, f.framed_eq,
    hsignature, hmembership, hconfirmed, htranscript, hnewCtx, f.newCtxBytes_eq, hagree.keySchedule,
    f.confKey_eq, hconfirmation, hadvance, Py.pure_eq]
  rfl

end MLSGroup

end PureMls
