import PureMls.Verification.CheckOrder
import PureMls.Verification.Persistence
import PureMls.Verification.Reencoding
import PureMls.Verification.Resolutions
import PureMls.Verification.TreeWalks

/-! # How process_update refuses a commit

Which decoded commits end `process_update` with something else than a new handle or `ValueError`. -/

namespace PureMls

open RatchetTree MLSGroup

variable {C : Crypto}

theorem GroupUpdate.Decoded.onWire {update : GroupUpdate} (h : update.Decoded) :
    update.tree.OnWire := by
  obtain ⟨data, body, hbody, heq⟩ := h
  obtain ⟨⟨raw, hraw⟩, -⟩ := GroupUpdate.fromBytes_tree hbody
  rw [heq]
  exact RatchetTree.fromBytes_onWire hraw

/-! ## Walks and hashes of a received tree -/

namespace RatchetTree

open CompleteTree

variable {tree : RatchetTree} {m k j : ℕ}

theorem leafHashInput_graceful (h : tree.Packs) (hj : j < 256 ^ 4) :
    (leafHashInput (2 * j) (tree.getNode (2 * j))).Graceful := by
  have hindex : 2 * j / 2 < 256 ^ 4 := by omega
  unfold leafHashInput
  cases hnode : tree.getNode (2 * j) with
  | none => exact (graceful_structPack hindex).bind fun _ => .ok _
  | some node =>
      exact (graceful_structPack hindex).bind fun _ => (h.getNode hnode).toBytes.bind fun _ => .ok _

theorem parentHashInput_graceful (h : tree.Packs) (i : ℕ) (left right : Bytes) :
    (parentHashInput (tree.getNode i) left right).Graceful := by
  unfold parentHashInput
  cases hnode : tree.getNode i with
  | none => exact (graceful_opaqueV _).bind fun _ => (graceful_opaqueV _).bind fun _ => .ok _
  | some node =>
      exact (h.getNode hnode).toBytes.bind fun _ => (graceful_opaqueV _).bind fun _ =>
        (graceful_opaqueV _).bind fun _ => .ok _

theorem nodeHash_graceful (h : tree.Covers m) (hm : m ≤ 29) (hpacks : tree.Packs) (hk : k ≤ m)
    (hj : j < 2 ^ (m - k)) {fuel : ℕ} (hfuel : k < fuel) :
    (tree.nodeHash C fuel (nodeAt k j)).Graceful := by
  induction k generalizing j fuel with
  | zero =>
      obtain ⟨fuel, rfl⟩ : ∃ n, fuel = n + 1 := ⟨fuel - 1, by omega⟩
      have hpow : 2 ^ m ≤ 2 ^ 29 := Nat.pow_le_pow_right (by decide) hm
      rw [Nat.sub_zero] at hj
      rw [nodeAt_zero, nodeHash_leaf h hj]
      exact Py.graceful_map_iff.mpr (leafHashInput_graceful hpacks (by omega))
  | succ k ih =>
      obtain ⟨fuel, rfl⟩ : ∃ n, fuel = n + 1 := ⟨fuel - 1, by omega⟩
      have hpow := two_pow_sub_succ hk
      rw [nodeHash_parent h (by omega) hk hj]
      exact (ih (by omega) (by omega) (by omega)).bind fun _ =>
        (ih (by omega) (by omega) (by omega)).bind fun _ =>
          Py.graceful_map_iff.mpr (parentHashInput_graceful hpacks _ _ _)

theorem treeHash_graceful (h : tree.OnWire) (hpacks : tree.Packs) : (tree.treeHash C).Graceful := by
  unfold treeHash
  split_ifs with hnil
  · exact .ok _
  · obtain ⟨m, hm, hcovers⟩ := h.covers.resolve_left fun hempty => hnil hempty.2
    rw [root_of_covers hcovers]
    exact nodeHash_graceful hcovers hm hpacks le_rfl (by simp) (by omega)

/-- Every leaf below a node whose hash is computed has been encoded. -/
theorem encodes_of_nodeHash (h : tree.Covers m) (hm : m ≤ 29) (hk : k ≤ m) (hj : j < 2 ^ (m - k))
    {fuel : ℕ} (hfuel : k < fuel) {hash : Bytes}
    (hhash : tree.nodeHash C fuel (nodeAt k j) = .ok hash) {l : ℕ} {leaf : LeafNode}
    (hl : l / 2 ^ k = j) (hleaf : tree.getLeaf (2 * l) = some leaf) : leaf.toBytes.Returns := by
  induction k generalizing j fuel hash with
  | zero =>
      obtain ⟨fuel, rfl⟩ : ∃ n, fuel = n + 1 := ⟨fuel - 1, by omega⟩
      obtain rfl : l = j := by simpa using hl
      rw [nodeAt_zero, nodeHash_leaf h (by simpa using hj), getLeaf_eq_some.mp hleaf] at hhash
      obtain ⟨input, hinput, -⟩ := Py.map_eq_ok.mp hhash
      simp only [leafHashInput, Py.bind_eq_ok] at hinput
      obtain ⟨_, -, body, hbody, -⟩ := hinput
      exact ⟨body, hbody⟩
  | succ k ih =>
      obtain ⟨fuel, rfl⟩ : ∃ n, fuel = n + 1 := ⟨fuel - 1, by omega⟩
      have hpow := two_pow_sub_succ hk
      rw [nodeHash_parent h (by omega) hk hj] at hhash
      obtain ⟨left, hleft, hhash⟩ := Py.bind_eq_ok.mp hhash
      obtain ⟨right, hright, -⟩ := Py.bind_eq_ok.mp hhash
      have hhalf : l / 2 ^ k / 2 = j := by rw [Nat.div_div_eq_div_mul, ← pow_succ, hl]
      by_cases hside : l / 2 ^ k = 2 * j
      · exact ih (by omega) (by omega) (by omega) hleft hside
      · exact ih (by omega) (by omega) (by omega) hright (by omega)

theorem OnWire.encodes_leaf (h : tree.OnWire) (hhash : (tree.treeHash C).Returns) {l : ℕ}
    {leaf : LeafNode}
    (hleaf : tree.getLeaf (2 * l) = some leaf) : leaf.toBytes.Returns := by
  have hlt := getNode_lt (getLeaf_eq_some.mp hleaf)
  rcases h with ⟨-, hnil⟩ | ⟨m, hm, hcovers, hle⟩
  · simp [hnil] at hlt
  · obtain ⟨hash, hhash⟩ := hhash
    have hne : tree.nodes ≠ [] := List.ne_nil_of_length_pos (by omega)
    rw [treeHash, if_neg hne, root_of_covers hcovers] at hhash
    rw [pow_succ] at hle
    exact encodes_of_nodeHash hcovers hm le_rfl (by simp) (by omega) hhash
      (Nat.div_eq_of_lt (by omega)) hleaf

theorem resolutionLoop_returns (h : tree.Covers m) (hm : m ≤ 29) (hk : k ≤ m) (hj : j < 2 ^ (m - k))
    {fuel : ℕ} (hfuel : k < fuel) : (tree.resolutionLoop fuel (nodeAt k j)).Returns := by
  induction k generalizing j fuel with
  | zero =>
      obtain ⟨fuel, rfl⟩ : ∃ n, fuel = n + 1 := ⟨fuel - 1, by omega⟩
      rw [nodeAt_zero]
      cases hnode : tree.getNode (2 * j) with
      | none => exact ⟨_, resolutionLoop_blankLeaf hnode⟩
      | some node => exact ⟨_, resolutionLoop_some hnode⟩
  | succ k ih =>
      obtain ⟨fuel, rfl⟩ : ∃ n, fuel = n + 1 := ⟨fuel - 1, by omega⟩
      cases hnode : tree.getNode (nodeAt (k + 1) j) with
      | none =>
          have hpow := two_pow_sub_succ hk
          rw [resolutionLoop_blankParent h (by omega) hk hj hnode]
          exact (ih (by omega) (by omega) (by omega)).bind fun _ _ =>
            (ih (by omega) (by omega) (by omega)).bind fun _ _ => .pure _
      | some node => exact ⟨_, resolutionLoop_some hnode⟩

/-- With at most one leaf slot the only sibling there is, is the leaf itself. -/
theorem copath_of_small (hn : tree.numLeaves ≤ 1) {c : ℕ} {cop : List (Option ℕ)}
    (hcop : tree.copath (2 * c) = .ok cop) :
    ∀ index ∈ cop, index = none ∨ index = some (2 * c) := by
  have hparent : ∀ y, tree.parent y = .ok 0 := fun y => by rw [parent, if_pos hn]
  have hsibling : ∀ y, tree.sibling y = .ok y := fun y => by rw [sibling, if_pos hn]
  have hroot : tree.root = 0 := by rw [root, if_pos hn]
  have hdirect : tree.directPath (2 * c) = .ok [] ∨ tree.directPath (2 * c) = .ok [0] := by
    unfold directPath
    split_ifs
    · exact .inl rfl
    · rw [directPathLoop, hparent, Py.ok_bind, hroot, if_pos (rfl : (0 : ℕ) = 0)]
      split_ifs
      · exact .inl rfl
      · exact .inr rfl
  rcases hdirect with hdirect | hdirect
  · rw [copath, hdirect, Py.ok_bind] at hcop
    cases hcop
    simp
  · rw [copath, hdirect, Py.ok_bind, copathLoop, hsibling, Py.ok_bind] at hcop
    cases hcop
    intro index hmem
    rw [List.mem_singleton] at hmem
    subst hmem
    split_ifs
    · exact .inr rfl
    · exact .inl rfl

theorem OnWire.resolution_copath (h : tree.OnWire) {c : ℕ}
    (hin : tree.numLeaves ≤ 1 ∨ c < tree.numLeaves) {cop : List (Option ℕ)}
    (hcop : tree.copath (2 * c) = .ok cop) : ∀ index ∈ cop, (tree.resolution index).Returns := by
  intro index hmem
  by_cases hsmall : tree.numLeaves ≤ 1
  · rcases copath_of_small hsmall hcop index hmem with rfl | rfl
    · exact .pure _
    · cases hnode : tree.getNode (2 * c) with
      | none => exact ⟨_, resolutionLoop_blankLeaf hnode⟩
      | some node => exact ⟨_, resolutionLoop_some hnode⟩
  · rcases h.covers with ⟨hzero, -⟩ | ⟨m, hm, hcovers⟩
    · omega
    · have hc : c < 2 ^ m := hcovers.1 ▸ hin.resolve_left hsmall
      rw [copath_leaf hcovers (by omega) hc] at hcop
      cases hcop
      obtain ⟨x, hx, rfl⟩ := List.mem_map.mp hmem
      obtain ⟨k, hk⟩ := List.mem_iff_getElem?.mp hx
      obtain ⟨hlt, rfl⟩ := getElem?_siblings hk
      exact resolutionLoop_returns hcovers hm (by omega)
        (siblingIndex_lt (by omega) (div_pow_lt hc (by omega))) (by omega)

theorem OnWire.numLeaves_lt (h : tree.OnWire) : tree.numLeaves < 2 ^ 30 := by
  rcases h.covers with ⟨hzero, -⟩ | ⟨m, hm, hcovers⟩
  · omega
  · rw [hcovers.1]
    exact Nat.pow_lt_pow_right (by decide) (by omega)

end RatchetTree

/-! ## The group context of a handle -/

theorem GroupContext.groupId_lt {ctx : GroupContext} {bytes : Bytes} (h : ctx.toBytes = .ok bytes) :
    ctx.groupId.length < 2 ^ 30 := by
  simp only [toBytes, tlsOpaque, Py.bind_eq_ok] at h
  obtain ⟨_, -, _, -, _, ⟨size, hsize, -⟩, -⟩ := h
  exact lt_of_tlsVarint hsize

theorem GroupContext.graceful_toBytes {ctx : GroupContext} (h : ctx.epoch < 256 ^ 8) :
    ctx.toBytes.Graceful :=
  (Py.FailsWith.ok _).bind fun _ => (Py.FailsWith.ok _).bind fun _ =>
    (graceful_opaqueV _).bind fun _ =>
    (graceful_toBytesBig h).bind fun _ => (graceful_opaqueV _).bind fun _ =>
      (graceful_opaqueV _).bind fun _ =>
      (graceful_opaqueV _).bind fun _ => .ok _

/-- Every handle has had its group context encoded, with the hash of its tree. -/
structure Hashed (C : Crypto) (member : MLSGroup) : Prop where
  groupId : member.state.groupId.length < 2 ^ 30
  treeHash : (member.state.tree.treeHash C).Returns

theorem Hashed.of_context {self : MLSGroup} {epoch : ℕ} {cth bytes : Bytes} {ctx : GroupContext}
    (hctx : makeGroupContext C self.state.groupId epoch self.state.tree cth = .ok ctx)
    (hbytes : ctx.toBytes = .ok bytes) : Hashed C self := by
  obtain ⟨hash, hhash, heq⟩ := Py.bind_eq_ok.mp hctx
  cases heq
  exact ⟨GroupContext.groupId_lt hbytes, hash, hhash⟩

theorem Reached.hashed {self : MLSGroup} (h : Reached C self) : Hashed C self := by
  refine ReachedBy.invariant (P := Hashed C) ?_ ?_ ?_ ?_ ?_ ?_ h
  · intro a b hcore ha
    have hstate : a.state = b.state := congrArg (·.state) hcore
    exact ⟨hstate ▸ ha.groupId, hstate ▸ ha.treeHash⟩
  · intro groupId sigKey kemKey initKey self hcreate
    simp only [MLSGroup.create, EpochState.genesis, Py.bind_eq_ok, Py.pure_eq,
      Except.ok.injEq] at hcreate
    obtain ⟨_, -, tree, -, ctx, hctx, bytes, hbytes, _, ⟨_, -, rfl⟩, rfl⟩ := hcreate
    exact .of_context hctx hbytes
  · intro call self hwire hok
    obtain ⟨o, tree, _, _, _, _, -, -, hcheck, -, hctx, -, -, -, rfl⟩ := join_eq_ok hok
    obtain ⟨hash, hhash, -⟩ := Py.bind_eq_ok.mp hcheck
    exact ⟨GroupContext.groupId_lt hctx, hash, hhash⟩
  · intro sender coins p committed _ hsender _ hcommit
    obtain ⟨r⟩ := Proposal.commit_eq_ok hcommit
    obtain ⟨_, _, _, -, -, hnext⟩ := EpochState.advanceEpoch_eq_ok r.finished.nextState_eq
    obtain ⟨hash, hhash, -⟩ := Py.bind_eq_ok.mp r.finished.newCtx_eq
    refine ⟨?_, ?_⟩
    · rw [r.next_state, hnext]
      exact hsender.groupId
    · rw [r.next_tree]
      exact ⟨hash, hhash⟩
  · intro self next update _ hself _ hprocess
    simp only [processUpdateBody, EpochState.advanceEpoch, Py.bind_eq_ok, Py.pure_eq,
      Except.ok.injEq] at hprocess
    obtain ⟨_, -, _, -, _, -, _, -, _, -, _, -, _, -, _, -, ctx, hctx, bytes, hbytes, _, -, _, -, _,
      ⟨_, -, rfl⟩, rfl⟩ := hprocess
    exact .of_context hctx hbytes
  · intro self next data hreached hself hdump hload
    obtain ⟨treeBytes, tree, _, htree, hread, -, hstate⟩ := fromBytes_state hdump hload
    have hwire : self.state.tree.OnWire := hreached.onWire (fun _ hcall => hcall) fun _ _ hcall =>
      hcall
    obtain rfl := Except.ok.inj ((hwire.fromBytes_toBytes htree).symm.trans hread)
    refine ⟨?_, ?_⟩
    · rw [hstate]
      exact hself.groupId
    · have hcanon : self.state.tree.canon.treeHash C = self.state.tree.treeHash C := treeHash_canon
      rw [hstate, hcanon]
      exact hself.treeHash

/-! ## Before the opening -/

namespace MLSGroup

variable {self : MLSGroup} {update : GroupUpdate}

/-- What the receiver computes from its own leaf before it walks the received tree. -/
def ownReference (C : Crypto) (self : MLSGroup) (update : GroupUpdate) :
    Py (GroupContext × Bytes) := do
  let leaf ← match self.state.tree.getLeaf (2 * self.myIndex) with
    | some leaf => pure leaf
    | none => .error (.valueError "My leaf node not found in tree")
  let ctx ← makeGroupContext C self.state.groupId update.epochId update.tree
    self.interimTranscriptHash
  let myKpRef ← makeKpRef C leaf.keyPackage
  pure (ctx, myKpRef)

/-- The ciphertext for the receiver on the update path, as far as there is one. -/
def addressedByPath (self : MLSGroup) (update : GroupUpdate) (ctx : GroupContext) :
    Py (Option Addressed) :=
  match update.updatePath with
  | none => pure none
  | some path =>
    if path.nodes = [] then pure none
    else do
      let direct ← update.tree.directPath (2 * update.committerIndex)
      let cop ← update.tree.copath (2 * update.committerIndex)
      addressedOnPath self.myIndex update.tree ctx direct.length 0 (cop.zip path.nodes)

theorem addressed_eq (C : Crypto) (self : MLSGroup) (update : GroupUpdate) :
    addressed C self update = (do
    let own ← ownReference C self update
    let fromPath ← addressedByPath self update own.1
    match fromPath with
    | some sealedSecret => pure sealedSecret
    | none => addressedFallback own.1 update.encryptedCommitSecrets own.2) := by
  simp only [addressed, ownReference]
  cases self.state.tree.getLeaf (2 * self.myIndex) with
  | none => rfl
  | some leaf =>
      simp only [addressedByPath, bind_assoc, pure_bind]
      refine bind_congr fun ctx => bind_congr fun myKpRef => ?_
      cases update.updatePath with
      | none => rfl
      | some path =>
          by_cases hnil : path.nodes = []
          · simp only [if_pos hnil, pure_bind]
          · simp only [if_neg hnil]
            exact (bind_congr fun direct => (bind_assoc _ _ _).symm).trans (bind_assoc _ _ _).symm

/-- The walks from the committer's leaf in the received tree come to an end. -/
def WalksEnd (update : GroupUpdate) : Prop := ∀ path ∈ update.updatePath, path.nodes ≠ [] →
  update.tree.numLeaves ≤ 1 ∨ update.committerIndex < update.tree.numLeaves

theorem makeGroupContext_graceful {tree : RatchetTree} (h : (tree.treeHash C).Graceful)
    (groupId : Bytes)
    (epochId : ℕ) (cth : Bytes) : (makeGroupContext C groupId epochId tree cth).Graceful :=
  h.bind fun _ => .ok _

theorem ownReference_graceful (hself : Reached C self) (hwire : update.tree.OnWire)
    (hpacks : update.Packs) : (ownReference C self update).Graceful := by
  have hown := hself.onWire (fun _ hcall => hcall) fun _ _ hcall => hcall
  unfold ownReference
  cases hleaf : self.state.tree.getLeaf (2 * self.myIndex) with
  | none => exact .error (.valueError _)
  | some leaf =>
      obtain ⟨body, hbody⟩ := hown.encodes_leaf hself.hashed.treeHash hleaf
      have hkp : leaf.keyPackage.toBytes.Graceful := by
        refine KeyPackage.graceful_toBytes ?_
        change leaf.toBytes.Graceful
        rw [hbody]
        exact .ok _
      have href : (makeKpRef C leaf.keyPackage).Graceful := by
        refine Py.graceful_map_iff.mpr (hkp.bind fun _ => ?_)
        exact (graceful_varint _).bind fun _ => (graceful_varint _).bind fun _ => .ok _
      have hhash := treeHash_graceful (C := C) hwire hpacks.tree
      simp only [pure_bind]
      exact (makeGroupContext_graceful hhash _ _ _).bind fun _ => href.bind fun _ => .ok _

theorem ownReference_epoch {own : GroupContext × Bytes} (h : ownReference C self update = .ok own) :
    own.1.epoch = update.epochId := by
  rw [ownReference] at h
  cases hleaf : self.state.tree.getLeaf (2 * self.myIndex) with
  | none =>
      rw [hleaf] at h
      cases h
  | some leaf =>
      simp only [hleaf, pure_bind] at h
      obtain ⟨ctx, hctx, h⟩ := Py.bind_eq_ok.mp h
      obtain ⟨_, -, h⟩ := Py.bind_eq_ok.mp h
      obtain ⟨_, -, hctx⟩ := Py.bind_eq_ok.mp hctx
      cases h
      cases hctx
      rfl

/-! ### The ciphertext on the path -/

theorem addressedWith_graceful {ctx : GroupContext} (h : ctx.epoch < 256 ^ 8) (enc ct : Bytes)
    (steps : ℕ) : (addressedWith ctx enc ct steps).Graceful := by
  have hinfo : ∀ bytes, (upInfo bytes).Graceful := fun _ =>
    (graceful_opaqueV _).bind fun _ => (graceful_opaqueV _).bind fun _ => .ok _
  exact (GroupContext.graceful_toBytes h).bind fun _ => (hinfo _).bind fun _ => .ok _

theorem addressedOnPath_graceful {tree : RatchetTree} {ctx : GroupContext} (h : ctx.epoch < 256 ^ 8)
    {myIndex total i : ℕ} {path : List (Option ℕ × UpdatePathNode)}
    (hres : ∀ entry ∈ path, (tree.resolution entry.1).Returns) :
    (addressedOnPath myIndex tree ctx total i path).Graceful := by
  induction path generalizing i with
  | nil => exact .ok _
  | cons entry path ih =>
      obtain ⟨cop, node⟩ := entry
      obtain ⟨resolved, hresolved⟩ := hres (cop, node) List.mem_cons_self
      rw [addressedOnPath, hresolved, Py.ok_bind]
      cases (resolved.idxOf? (2 * myIndex)).bind (node.encryptedPathSecret[·]?) with
      | some ct => exact (addressedWith_graceful h _ _ _).map some
      | none => exact ih fun entry hentry => hres entry (List.mem_cons_of_mem _ hentry)

theorem addressedFallback_graceful {ctx : GroupContext} (h : ctx.epoch < 256 ^ 8)
    (secrets : Dict Bytes Bytes)
    (myKpRef : Bytes) : (addressedFallback ctx secrets myKpRef).Graceful := by
  unfold addressedFallback
  cases secrets.get? myKpRef with
  | none => exact .error (.valueError _)
  | some encCt => exact addressedWith_graceful h _ _ _

theorem addressedByPath_hang (hwire : update.tree.OnWire) (hpacks : update.Packs)
    (h : ¬ WalksEnd update)
    {ctx : GroupContext} : addressedByPath self update ctx = .error .hang := by
  unfold WalksEnd at h
  push Not at h
  obtain ⟨path, hpath, hnodes, hout⟩ := h
  rw [addressedByPath, Option.mem_def.mp hpath]
  simp only [if_neg hnodes]
  rw [hwire.directPath_hang hpacks.committerIndex (by omega), Py.error_bind]

theorem addressedByPath_graceful_iff (hwire : update.tree.OnWire) (hpacks : update.Packs)
    {ctx : GroupContext}
    (hepoch : ctx.epoch < 256 ^ 8) :
    (addressedByPath self update ctx).Graceful ↔ WalksEnd update := by
  constructor
  · intro hgraceful
    by_contra hwalks
    rw [addressedByPath_hang hwire hpacks hwalks] at hgraceful
    exact Py.not_graceful_error (by rintro ⟨⟩) hgraceful
  · intro hwalks
    unfold addressedByPath
    cases hpath : update.updatePath with
    | none => exact .ok _
    | some path =>
        by_cases hnil : path.nodes = []
        · simp only [if_pos hnil]
          exact .ok _
        · have hin := hwalks path hpath hnil
          obtain ⟨direct, cop, hdirect, hcop⟩ := hwire.walks_of_inside hin
          have hres := hwire.resolution_copath hin hcop
          simp only [if_neg hnil]
          rw [hdirect, Py.ok_bind, hcop, Py.ok_bind]
          exact addressedOnPath_graceful hepoch fun entry hentry =>
            hres entry.1 (List.of_mem_zip hentry).1

theorem addressed_graceful_iff (hself : Reached C self) (hwire : update.tree.OnWire)
    (hpacks : update.Packs) : (addressed C self update).Graceful ↔
    ((ownReference C self update).Returns → WalksEnd update) := by
  rw [addressed_eq, Py.graceful_bind_iff]
  refine (and_iff_right (ownReference_graceful hself hwire hpacks)).trans ?_
  have hrest : ∀ own, ownReference C self update = .ok own →
    ((addressedByPath self update own.1 >>= fun
      fromPath => match fromPath with
        | some sealedSecret => pure sealedSecret
        | none => addressedFallback own.1 update.encryptedCommitSecrets own.2).Graceful ↔
            WalksEnd update) := by
    intro own hown
    have hepoch : own.1.epoch < 256 ^ 8 := ownReference_epoch hown ▸ hpacks.epochId
    refine Py.graceful_bind_iff.trans ((and_iff_left fun fromPath _ => ?_).trans
      (addressedByPath_graceful_iff hwire hpacks hepoch))
    cases fromPath with
    | some sealedSecret => exact .ok _
    | none => exact addressedFallback_graceful hepoch _ _
  constructor
  · rintro h ⟨own, hown⟩
    exact (hrest own hown).mp (h own hown)
  · exact fun h own hown => (hrest own hown).mpr (h ⟨own, hown⟩)

/-! ### The signatures of the leaves -/

end MLSGroup

/-- The signature of the leaf verifies, if it is one over bytes that the leaf has. -/
def LeafNode.SignatureFits (C : Crypto) (leaf : LeafNode) (groupId : Bytes) (leafIndex : ℕ) :
    Prop :=
  leaf.signature ≠ [] → leaf.signatureKey.length = 32 →
    ∀ tbs, leaf.tbsBytes groupId leafIndex = .ok tbs →
    C.ed25519Verify leaf.signatureKey leaf.signature tbs = true

theorem LeafNode.verifySignature_graceful_iff {leaf : LeafNode} (h : leaf.Packs) {groupId : Bytes}
    {leafIndex : ℕ}
    (hindex : leafIndex < 256 ^ 4) : (leaf.verifySignature C groupId leafIndex).Graceful ↔
    leaf.SignatureFits C groupId leafIndex := by
  unfold verifySignature SignatureFits ed25519FromPublicBytes ed25519Check
  by_cases hsigned : leaf.signature = []
  · rw [Py.require, if_neg (not_not_intro hsigned)]
    exact iff_of_true (.error (.valueError _)) fun hne => absurd hsigned hne
  rw [Py.require_of _ hsigned, Py.ok_bind]
  by_cases hkey : leaf.signatureKey.length = 32
  · rw [Py.require_of _ hkey]
    simp only [Py.ok_bind, pure_bind]
    refine Py.graceful_bind_iff.trans ((and_iff_right (h.tbsBytes groupId hindex)).trans ?_)
    refine Iff.trans (forall_congr' fun tbs => imp_congr_right fun _ => ?_) ⟨fun h _ _ => h,
      fun h => h hsigned hkey⟩
    by_cases hverify : C.ed25519Verify leaf.signatureKey leaf.signature tbs = true
    · rw [Py.require_of _ hverify]
      exact iff_of_true (.ok _) hverify
    · rw [Py.require, if_neg hverify]
      exact iff_of_false (Py.not_graceful_error (by rintro ⟨⟩)) hverify
  · rw [Py.require, if_neg hkey]
    exact iff_of_true (.error (.valueError _)) fun _ hlen => absurd hlen hkey

/-- The leaves up to the first that does not verify have signatures that are refused with
`ValueError`. -/
def LeavesFit (C : Crypto) (groupId : Bytes) (tree : RatchetTree) : Prop :=
  ∀ l < tree.numLeaves, (∀ l' < l, ∀ leaf, tree.getLeaf (2 * l') = some leaf →
    leaf.verifySignature C groupId l' = .ok ()) → ∀ leaf, tree.getLeaf (2 * l) = some leaf →
      leaf.SignatureFits C groupId l

namespace MLSGroup

variable {self : MLSGroup} {update : GroupUpdate}

/-- A loop of checks ends at the first that fails. -/
theorem forM_range_graceful_iff {f : ℕ → Py Unit} {n : ℕ} : ((List.range n).forM f).Graceful ↔
    ∀ i < n, (∀ j < i, f j = .ok ()) → (f i).Graceful := by
  induction n with
  | zero => exact iff_of_true (.ok _) fun i hi => absurd hi (Nat.not_lt_zero i)
  | succ n ih =>
      have hlast : (List.range (n + 1)).forM f = (List.range n).forM f >>= fun _ => f n >>= fun _ =>
        pure () := by
        rw [List.range_succ]
        exact List.forM_append
      rw [hlast, Py.graceful_bind_iff, ih, Nat.forall_lt_succ_right]
      refine and_congr_right fun _ => ?_
      have hall : (List.range n).forM f = .ok () ↔ ∀ j < n, f j = .ok () := by
        simp only [forM_eq_ok, List.mem_range]
      simp only [hall, bind_pure_unit, forall_const]

theorem verifyLeaves_graceful_iff {tree : RatchetTree} (hwire : tree.OnWire) (hpacks : tree.Packs)
    (groupId : Bytes) : (verifyLeaves C groupId tree).Graceful ↔ LeavesFit C groupId tree := by
  have hsize := hwire.numLeaves_lt
  refine forM_range_graceful_iff.trans
    (forall_congr' fun l => imp_congr_right fun hl => imp_congr ?_ ?_)
  · refine forall_congr' fun l' => imp_congr_right fun _ => ?_
    cases tree.getLeaf (2 * l') with
    | none => simp
    | some leaf => simp
  · cases hleaf : tree.getLeaf (2 * l) with
    | none => exact iff_of_true (.ok _) (by rintro _ ⟨⟩)
    | some leaf =>
        simp only [Option.some.injEq, forall_eq']
        exact LeafNode.verifySignature_graceful_iff (hpacks.getNode (getLeaf_eq_some.mp hleaf))
          (by omega)

theorem checkUpdate_graceful : (self.checkUpdate update).Graceful := by
  refine (Py.Graceful.require _).bind fun _ => (Py.Graceful.require _).bind fun _ => ?_
  cases self.state.tree.getLeaf (2 * update.committerIndex) with
  | none => exact .error (.valueError _)
  | some committer => exact .ok _

theorem beforeOpening_graceful_iff (hself : Reached C self) (hwire : update.tree.OnWire)
    (hpacks : update.Packs) :
    (beforeOpening C self update).Graceful ↔ ((self.checkUpdate update).Returns →
      LeavesFit C self.state.groupId update.tree ∧
        (verifyLeaves C self.state.groupId update.tree = .ok () →
        (ownReference C self update).Returns → WalksEnd update)) := by
  have hrest : ∀ committer, self.checkUpdate update = .ok committer →
      ((verifyLeaves C self.state.groupId update.tree >>= fun _ => addressed C self update >>=
        fun sealedSecret =>
        pure (committer, sealedSecret)).Graceful ↔ LeavesFit C self.state.groupId update.tree ∧
          (verifyLeaves C self.state.groupId update.tree = .ok () →
            (ownReference C self update).Returns → WalksEnd update)) := by
    intro committer _
    refine Py.graceful_bind_iff.trans (and_congr (verifyLeaves_graceful_iff hwire hpacks.tree _) ?_)
    have haddressed :
      (addressed C self update >>= fun sealedSecret => pure (committer, sealedSecret)).Graceful ↔
        ((ownReference C self update).Returns → WalksEnd update) :=
      (Py.graceful_bind_iff.trans (and_iff_left fun _ _ => .ok _)).trans
        (addressed_graceful_iff hself hwire hpacks)
    exact ⟨fun h hleaves => haddressed.mp (h () hleaves),
      fun h _ hleaves => haddressed.mpr (h hleaves)⟩
  refine Py.graceful_bind_iff.trans ((and_iff_right checkUpdate_graceful).trans ?_)
  constructor
  · rintro h ⟨committer, hcommitter⟩
    exact (hrest committer hcommitter).mp (h committer hcommitter)
  · exact fun h committer hcommitter => (hrest committer hcommitter).mpr (h ⟨committer, hcommitter⟩)

/-! ## The opening -/

theorem openAddressed_graceful_iff (hC : C.Correct) (htag : C.DecryptFailsWithTag) (key : KemKey)
    (sealedSecret : Addressed) :
    (openAddressed C key sealedSecret).Graceful ↔
    sealedSecret.openWith C key ≠ .error .invalidTag := by
  refine (Py.graceful_bind_iff.trans (and_iff_left fun pathSecret _ => ?_)).trans ?_
  · obtain ⟨last, hlast⟩ := advancePathSecret_ok C sealedSecret.steps pathSecret
    rw [hlast]
    exact .ok _
  · constructor
    · intro h htagged
      cases h .invalidTag htagged
    · intro hne e he
      cases sealedSecret.openWith_failsWith hC htag key e he with
      | malformed => exact .valueError _
      | tag => exact absurd he hne

end MLSGroup

/-! ## After the opening -/

theorem graceful_expandWithLabel {secret : Bytes} {label : String} {context : Bytes} {length : ℕ}
    (h : length < 256 ^ 2) : (expandWithLabel C secret label context length).Graceful := by
  have hencode : ∀ n, (varintEncode n).Graceful := by
    intro n
    by_cases hn : n < 2 ^ 30
    · obtain ⟨size, hsize⟩ := varintEncode_ok hn
      rw [hsize]
      exact .ok _
    · rw [varintEncode, if_neg (by omega), if_neg (by omega), if_neg (by omega)]
      exact .error (.valueError _)
  exact ((graceful_toBytesBig h).bind fun _ => (hencode _).bind fun _ => (hencode _).bind fun _ =>
    .ok _).bind fun _ => .ok _

theorem KeySchedule.graceful_deriveEpochSecret (initSecret commitSecret groupContext : Bytes) :
    (deriveEpochSecret C initSecret commitSecret groupContext []).Graceful :=
  (graceful_expandWithLabel (by decide)).bind fun _ => (Py.FailsWith.ok _).bind fun _ =>
    (graceful_expandWithLabel (by decide)).bind fun _ => .ok _

theorem KeySchedule.graceful_derive (initSecret commitSecret groupContext : Bytes) :
    (derive C initSecret commitSecret groupContext []).Graceful := by
  have hsecret : ∀ secret label, (deriveSecret C secret label).Graceful := fun _ _ =>
    graceful_expandWithLabel (by decide)
  exact (graceful_deriveEpochSecret _ _ _).bind fun _ => (hsecret _ _).bind fun _ =>
    (hsecret _ _).bind fun _ =>
    (hsecret _ _).bind fun _ => (hsecret _ _).bind fun _ => (hsecret _ _).bind fun _ =>
      (hsecret _ _).bind fun _ => (hsecret _ _).bind fun _ => (hsecret _ _).bind fun _ =>
        (hsecret _ _).bind fun _ => .ok _

theorem FramedContent.toBytes_graceful_iff {framed : FramedContent}
    (hgroup : framed.groupId.length < 2 ^ 30) (hepoch : framed.epoch < 256 ^ 8)
    (hsender : framed.senderLeafIndex < 256 ^ 4)
    (hdata : framed.authenticatedData.length < 2 ^ 30) :
    framed.toBytes.Graceful ↔ framed.content.length < 2 ^ 32 := by
  obtain ⟨groupId, hgroup⟩ := returns_opaqueV hgroup
  obtain ⟨epoch, hepoch⟩ : (tlsU64 framed.epoch).Returns := returns_structPack hepoch
  obtain ⟨sender, hsender⟩ : (tlsU32 framed.senderLeafIndex).Returns := returns_structPack hsender
  obtain ⟨data, hdata⟩ := returns_opaqueV hdata
  obtain ⟨member, hmember⟩ : (tlsU8 0x01).Returns := returns_structPack (by decide)
  obtain ⟨commit, hcommit⟩ : (tlsU8 0x03).Returns := returns_structPack (by decide)
  simp only [toBytes, hgroup, hepoch, hmember, hsender, hdata, hcommit, Py.ok_bind]
  exact (Py.graceful_bind_iff.trans (and_iff_left fun _ _ => .ok _)).trans graceful_opaqueU32_iff

namespace MLSGroup

variable {self : MLSGroup} {update : GroupUpdate}

/-- What the receiver does once it has the commit secret. -/
def afterOpening (C : Crypto) (self : MLSGroup) (update : GroupUpdate) (committer : LeafNode)
    (commitSecret : Bytes) : Py MLSGroup := do
  let (framedBytes, tbs) ← authenticate C self update committer
  checkMembershipTag C self update tbs
  let confirmedInput ← computeConfirmedTranscriptHashInput framedBytes update.signature
  let transcriptHash :=
    computeConfirmedTranscriptHash C self.interimTranscriptHash confirmedInput
  let newCtx ← makeGroupContext C self.state.groupId update.epochId update.tree transcriptHash
  let newCtxBytes ← newCtx.toBytes
  let confKey ← KeySchedule.deriveConfirmationKey C self.state.keySchedule.initSecret
    commitSecret newCtxBytes []
  let confTag := C.hmacSha256 confKey transcriptHash
  checkConfirmationTag update confTag
  let newInterim := computeInterimTranscriptHash C transcriptHash confTag
  let nextState ← self.state.advanceEpoch C commitSecret update.tree newCtxBytes []
  pure (init nextState self.myIndex self.mySigKey self.myKemKey newInterim)

theorem processUpdateBody_eq (C : Crypto) (self : MLSGroup) (update : GroupUpdate) :
    processUpdateBody C self update = beforeOpening C self update >>= fun found =>
      openAddressed C self.myKemKey found.2 >>= afterOpening C self update found.1 := by
  simp only [processUpdateBody, beforeOpening, openCommitSecret_eq, bind_assoc, pure_bind]
  refine bind_congr fun committer => bind_congr fun _ => bind_congr fun sealedSecret =>
    bind_congr fun commitSecret => ?_
  simp only [afterOpening, authenticate, bind_assoc, pure_bind]

theorem receivedContent_graceful_iff (hpacks : update.Packs) :
    (self.receivedContent update).Graceful ↔
    (update.tree.toBytes.Returns → update.pathBytes.Graceful) :=
  (Py.graceful_bind_iff.trans (and_iff_left fun _ _ => .ok _)).trans hpacks.bodyBytes_graceful_iff

/-- A failed signature check is reported with `ValueError`. -/
theorem checkSignature_graceful (hC : C.Correct) (hself : Reached C self) {committer : LeafNode}
    {framed : FramedContent} (hframed : framed.toBytes.Graceful) :
    (checkSignature C self update committer framed).Graceful := by
  obtain ⟨hash, hhash⟩ := hself.hashed.treeHash
  unfold checkSignature
  refine Py.FailsWith.rethrow (P := fun e => Refusal e ∨ e = .invalidSignature) ?_ ?_
  · have hinner : ∀ {α : Type} {x : Py α}, x.Graceful → x.FailsWith fun e => Refusal e ∨
      e = .invalidSignature :=
      fun h => h.mono fun _ => .inl
    rw [makeGroupContext, hhash, Py.ok_bind]
    simp only [pure_bind]
    refine ((hinner (Py.Graceful.require _)).bind fun _ => .ok _).bind fun key => ?_
    have htbs : (makeFramedContentTbs ⟨self.state.groupId, self.state.epochId, hash,
        self.interimTranscriptHash, []⟩ framed).Graceful :=
      (graceful_structPack (by decide)).bind fun _ =>
        (graceful_structPack (by decide)).bind fun _ =>
        (GroupContext.graceful_toBytes (hself.wellSized hC).epoch).bind fun _ =>
          hframed.bind fun _ => .ok _
    exact (hinner htbs).bind fun _ => (Py.FailsWith.require (.inr rfl)).bind fun _ => .ok _
  · rintro e (hrefusal | rfl)
    · cases hrefusal with
      | valueError message => exact .valueError _
    · exact .valueError _

theorem authenticate_graceful_iff (hC : C.Correct) (hself : Reached C self) (hpacks : update.Packs)
    (committer : LeafNode) : (authenticate C self update committer).Graceful ↔ update.BodyFits := by
  have hframed : ∀ framed, self.receivedContent update = .ok framed →
      (framed.toBytes.Graceful ↔ framed.content.length < 2 ^ 32) := by
    intro framed h
    obtain ⟨body, -, heq⟩ := Py.bind_eq_ok.mp h
    cases heq
    exact FramedContent.toBytes_graceful_iff hself.hashed.groupId (hself.wellSized hC).epoch
      hpacks.committerIndex (by simp)
  have hcontent :
    (∀ framed, self.receivedContent update = .ok framed → framed.content.length < 2 ^ 32) ↔
      ∀ raw, update.bodyBytes = .ok raw → raw.length < 2 ^ 32 := by
    constructor
    · intro h raw hraw
      refine h ⟨self.state.groupId, self.state.epochId, update.committerIndex, [], raw⟩ ?_
      rw [receivedContent, hraw]
      rfl
    · intro h framed hreceived
      obtain ⟨body, hbody, heq⟩ := Py.bind_eq_ok.mp hreceived
      cases heq
      exact h body hbody
  have hpath : (self.receivedContent update).Graceful ↔ (update.tree.toBytes.Returns →
      ∀ path ∈ update.updatePath, ∀ raw, path.toBytes = .ok raw → raw.length < 2 ^ 32) :=
    (receivedContent_graceful_iff hpacks).trans
      (imp_congr_right fun _ => hpacks.pathBytes_graceful_iff)
  have hrest :
    (∀ framed, self.receivedContent update = .ok framed → (framed.toBytes >>= fun framedBytes =>
      checkSignature C self update committer framed >>= fun tbs =>
        pure (framedBytes, tbs)).Graceful) ↔
      ∀ framed, self.receivedContent update = .ok framed → framed.content.length < 2 ^ 32 := by
    refine forall_congr' fun framed => imp_congr_right fun hok => ?_
    rw [← hframed framed hok, Py.graceful_bind_iff]
    exact and_iff_left_of_imp fun hbytes _ _ =>
      (checkSignature_graceful hC hself hbytes).bind fun _ => .ok _
  refine Py.graceful_bind_iff.trans ((and_congr hpath (hrest.trans hcontent)).trans ?_)
  exact ⟨fun h => ⟨h.1, h.2⟩, fun h => ⟨h.path, h.body⟩⟩

/-- What the receiver does once the commit is authenticated. -/
def afterAuthentication (C : Crypto) (self : MLSGroup) (update : GroupUpdate) (commitSecret : Bytes)
    (checked : Bytes × Bytes) : Py MLSGroup := do
  checkMembershipTag C self update checked.2
  let confirmedInput ← computeConfirmedTranscriptHashInput checked.1 update.signature
  let transcriptHash :=
    computeConfirmedTranscriptHash C self.interimTranscriptHash confirmedInput
  let newCtx ← makeGroupContext C self.state.groupId update.epochId update.tree transcriptHash
  let newCtxBytes ← newCtx.toBytes
  let confKey ← KeySchedule.deriveConfirmationKey C self.state.keySchedule.initSecret
    commitSecret newCtxBytes []
  let confTag := C.hmacSha256 confKey transcriptHash
  checkConfirmationTag update confTag
  let newInterim := computeInterimTranscriptHash C transcriptHash confTag
  let nextState ← self.state.advanceEpoch C commitSecret update.tree newCtxBytes []
  pure (init nextState self.myIndex self.mySigKey self.myKemKey newInterim)

theorem afterAuthentication_graceful (hwire : update.tree.OnWire) (hpacks : update.Packs)
    (commitSecret : Bytes) (checked : Bytes × Bytes) :
    (afterAuthentication C self update commitSecret checked).Graceful := by
  have hmembership : (checkMembershipTag C self update checked.2).Graceful := by
    unfold checkMembershipTag
    cases update.membershipTag with
    | none => exact .error (.valueError _)
    | some tag => exact Py.Graceful.require _
  have hconfirmation : ∀ tag, (checkConfirmationTag update tag).Graceful := by
    intro tag
    unfold checkConfirmationTag
    cases update.confirmationTag with
    | none => exact .error (.valueError _)
    | some _ => exact Py.Graceful.require _
  have hinput : (computeConfirmedTranscriptHashInput checked.1 update.signature).Graceful :=
    (graceful_structPack (by decide)).bind fun _ => (graceful_opaqueV _).bind fun _ => .ok _
  refine hmembership.bind fun _ => hinput.bind fun confirmedInput => ?_
  have hconfKey : ∀ newCtxBytes,
    (KeySchedule.deriveConfirmationKey C self.state.keySchedule.initSecret
      commitSecret newCtxBytes []).Graceful := fun _ =>
    (KeySchedule.graceful_deriveEpochSecret _ _ _).bind fun _ =>
      graceful_expandWithLabel (by decide)
  have hadvance : ∀ newCtxBytes,
    (self.state.advanceEpoch C commitSecret update.tree newCtxBytes []).Graceful :=
    fun _ => (KeySchedule.graceful_derive _ _ _).bind fun _ => .ok _
  refine Py.graceful_bind_iff.mpr
    ⟨makeGroupContext_graceful (treeHash_graceful hwire hpacks.tree) _ _ _, fun newCtx hctx => ?_⟩
  obtain ⟨_, -, heq⟩ := Py.bind_eq_ok.mp hctx
  cases heq
  exact (GroupContext.graceful_toBytes hpacks.epochId).bind fun _ => (hconfKey _).bind fun _ =>
    (hconfirmation _).bind fun _ => (hadvance _).bind fun _ => .ok _

theorem afterOpening_graceful_iff (hC : C.Correct) (hself : Reached C self)
    (hwire : update.tree.OnWire)
    (hpacks : update.Packs) (committer : LeafNode) (commitSecret : Bytes) :
    (afterOpening C self update committer commitSecret).Graceful ↔ update.BodyFits := by
  have hsteps : afterOpening C self update committer commitSecret =
    authenticate C self update committer >>= afterAuthentication C self update commitSecret := rfl
  rw [hsteps, Py.graceful_bind_iff,
    and_iff_left fun checked _ => afterAuthentication_graceful hwire hpacks commitSecret checked]
  exact authenticate_graceful_iff hC hself hpacks committer

end MLSGroup

/-! ## Commits -/

open MLSGroup in
/-- What keeps `process_update` from ending with another exception than `ValueError`, or not at
all. -/
structure UpdateFits (C : Crypto) (receiver : MLSGroup) (update : GroupUpdate) : Prop where
  leaves : (receiver.checkUpdate update).Returns → LeavesFit C receiver.state.groupId update.tree
  walks : (receiver.checkUpdate update).Returns →
    verifyLeaves C receiver.state.groupId update.tree = .ok () →
    (ownReference C receiver update).Returns → WalksEnd update
  opens : ∀ committer sealedSecret,
    beforeOpening C receiver update = .ok (committer, sealedSecret) →
    sealedSecret.openWith C receiver.myKemKey ≠ .error .invalidTag
  body : ∀ committer sealedSecret, beforeOpening C receiver update = .ok (committer, sealedSecret) →
    (sealedSecret.openWith C receiver.myKemKey).Returns → update.BodyFits

namespace MLSGroup

variable {self : MLSGroup} {update : GroupUpdate}

theorem processUpdate_graceful_iff (hC : C.Correct) (htag : C.DecryptFailsWithTag)
    (hself : Reached C self) (hwire : update.tree.OnWire) (hpacks : update.Packs) :
    (self.processUpdate C update).2.Graceful ↔ UpdateFits C self update := by
  have hopen : ∀ found : LeafNode × Addressed, (openAddressed C self.myKemKey found.2 >>=
      afterOpening C self update found.1).Graceful ↔
        found.2.openWith C self.myKemKey ≠ .error .invalidTag ∧
        ((found.2.openWith C self.myKemKey).Returns → update.BodyFits) := by
    intro found
    refine Py.graceful_bind_iff.trans
      (and_congr (openAddressed_graceful_iff hC htag self.myKemKey found.2) ?_)
    have hreturns : (openAddressed C self.myKemKey found.2).Returns ↔
        (found.2.openWith C self.myKemKey).Returns := by
      rw [Py.Returns, ← Py.fault?_eq_none, fault?_openAddressed, Py.fault?_eq_none, Py.Returns]
    simp only [afterOpening_graceful_iff hC hself hwire hpacks, ← hreturns]
    exact ⟨fun h ⟨commitSecret, hok⟩ => h commitSecret hok,
      fun h commitSecret hok => h ⟨commitSecret, hok⟩⟩
  rw [processUpdate_snd, processUpdateBody_eq, Py.graceful_bind_iff,
    beforeOpening_graceful_iff hself hwire hpacks]
  simp only [hopen]
  constructor
  · rintro ⟨hbefore, hafter⟩
    exact
      { leaves := fun hcheck => (hbefore hcheck).1
        walks := fun hcheck => (hbefore hcheck).2
        opens := fun committer sealedSecret hfound => (hafter (committer, sealedSecret) hfound).1
        body := fun committer sealedSecret hfound => (hafter (committer, sealedSecret) hfound).2 }
  · intro h
    exact ⟨fun hcheck => ⟨h.leaves hcheck, h.walks hcheck⟩,
      fun found hfound => ⟨h.opens found.1 found.2 hfound, h.body found.1 found.2 hfound⟩⟩

end MLSGroup

end PureMls
