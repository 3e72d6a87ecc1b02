import PureMls.Model.Receive
import PureMls.Verification.TreeHash

/-! # What a commit builder computes

The intermediate values of a successful `buildPath` and `finishCommit`, and what the path
leaves at each node of the tree. -/

namespace PureMls

open RatchetTree

variable {C : Crypto} {sender : MLSGroup} {coins : CommitCoins} {sealLeaf : MLSGroup.LeafSeal}
  {indices : RatchetTree → List ℕ} {base : RatchetTree}

/-- A run of `buildPath` on the tree after the proposal. -/
structure BuiltPath (C : Crypto) (sender : MLSGroup) (coins : CommitCoins)
    (sealLeaf : MLSGroup.LeafSeal) (indices : RatchetTree → List ℕ) (base : RatchetTree) where
  direct : List ℕ
  cop : List (Option ℕ)
  secrets : List Bytes
  keyPackage : KeyPackage
  withLeaf : RatchetTree
  pubs : List Bytes
  tree : RatchetTree
  parentHash : Bytes
  ctx : GroupContext
  nodes : List UpdatePathNode
  fallback : Dict Bytes Bytes
  direct_eq : base.directPath (2 * sender.myIndex) = .ok direct
  cop_eq : base.copath (2 * sender.myIndex) = .ok cop
  secrets_eq : MLSGroup.pathSecrets C direct.length coins.leafPathSecret = .ok secrets
  keyPackage_eq : MLSGroup.ownKeyPackage C sender.mySigKey coins.committerKem coins.committerInit =
    .ok keyPackage
  withLeaf_eq : base.setLeaf (2 * sender.myIndex) keyPackage.leafNode = .ok withLeaf
  pubs_eq : secrets.mapM (MLSGroup.nodePublic C) = .ok pubs
  tree_eq : MLSGroup.setPathParents C withLeaf (direct.zip (cop.zip pubs)) = .ok (tree, parentHash)
  ctx_eq : makeGroupContext C sender.state.groupId (sender.state.epochId + 1) tree
    sender.interimTranscriptHash = .ok ctx
  nodes_eq : MLSGroup.sealPath C tree ctx coins.pathEphemeral 0 (cop.zip (secrets.zip pubs)) =
    .ok nodes
  fallback_eq : MLSGroup.sealFallback sealLeaf tree ctx coins.fallbackEphemeral
    (secrets.getLast?.getD coins.leafPathSecret) (2 * sender.myIndex) (indices tree) = .ok fallback

namespace BuiltPath

/-- The root's path secret. -/
def commitSecret (b : BuiltPath C sender coins sealLeaf indices base) : Bytes :=
  b.secrets.getLast?.getD coins.leafPathSecret

/-- The update before it is signed. -/
def unsigned (b : BuiltPath C sender coins sealLeaf indices base) : GroupUpdate :=
  ⟨sender.state.epochId + 1, b.tree, b.fallback, sender.myIndex, [], sender.state.groupId,
    some ⟨b.keyPackage, b.nodes⟩, none, none, none, none, none, none, none, none⟩

end BuiltPath

theorem buildPath_eq_ok {tree : RatchetTree} {path : UpdatePath} {fallback : Dict Bytes Bytes}
    {commitSecret : Bytes}
    (h : MLSGroup.buildPath C sender coins sealLeaf indices base =
      .ok (tree, path, fallback, commitSecret)) :
    ∃ b : BuiltPath C sender coins sealLeaf indices base, b.tree = tree ∧
      path = ⟨b.keyPackage, b.nodes⟩ ∧ b.fallback = fallback ∧ b.commitSecret = commitSecret := by
  simp only [MLSGroup.buildPath, Py.bind_eq_ok, Py.pure_eq, Except.ok.injEq, Prod.mk.injEq] at h
  obtain ⟨direct, hdirect, cop, hcop, secrets, hsecrets, kp, hkp, withLeaf, hleaf, pubs, hpubs,
    ⟨final, parentHash⟩, htree, ctx, hctx, nodes, hnodes, fallback', hfallback, rfl, rfl, rfl,
    rfl⟩ := h
  exact ⟨⟨direct, cop, secrets, kp, withLeaf, pubs, final, parentHash, ctx, nodes, fallback',
    hdirect, hcop, hsecrets, hkp, hleaf, hpubs, htree, hctx, hnodes, hfallback⟩, rfl, rfl, rfl, rfl⟩

/-- A run of `finishCommit` after the path. -/
structure Finished (C : Crypto) (sender : MLSGroup) (commitSecret : Bytes)
    (unsigned : GroupUpdate) where
  body : Bytes
  framedBytes : Bytes
  oldCtx : GroupContext
  tbs : Bytes
  confirmedInput : Bytes
  newCtx : GroupContext
  newCtxBytes : Bytes
  confKey : Bytes
  nextState : EpochState
  body_eq : unsigned.bodyBytes = .ok body
  framed_eq :
    FramedContent.toBytes ⟨sender.state.groupId, sender.state.epochId, sender.myIndex, [], body⟩ =
    .ok framedBytes
  oldCtx_eq : makeGroupContext C sender.state.groupId sender.state.epochId sender.state.tree
    sender.interimTranscriptHash = .ok oldCtx
  tbs_eq : makeFramedContentTbs oldCtx
    ⟨sender.state.groupId, sender.state.epochId, sender.myIndex, [], body⟩ = .ok tbs
  confirmedInput_eq : computeConfirmedTranscriptHashInput framedBytes (sender.mySigKey.sign C tbs) =
    .ok confirmedInput
  newCtx_eq : makeGroupContext C sender.state.groupId (sender.state.epochId + 1) unsigned.tree
    (computeConfirmedTranscriptHash C sender.interimTranscriptHash confirmedInput) = .ok newCtx
  newCtxBytes_eq : newCtx.toBytes = .ok newCtxBytes
  confKey_eq : KeySchedule.deriveConfirmationKey C sender.state.keySchedule.initSecret commitSecret
    newCtxBytes [] = .ok confKey
  nextState_eq : sender.state.advanceEpoch C commitSecret unsigned.tree newCtxBytes [] =
    .ok nextState

namespace Finished

variable {commitSecret : Bytes} {unsigned : GroupUpdate}

def signature (f : Finished C sender commitSecret unsigned) : Bytes := sender.mySigKey.sign C f.tbs

/-- The confirmed transcript hash of the new epoch. -/
def transcriptHash (f : Finished C sender commitSecret unsigned) : Bytes :=
  computeConfirmedTranscriptHash C sender.interimTranscriptHash f.confirmedInput

def confTag (f : Finished C sender commitSecret unsigned) : Bytes :=
  C.hmacSha256 f.confKey f.transcriptHash

def interim (f : Finished C sender commitSecret unsigned) : Bytes :=
  computeInterimTranscriptHash C f.transcriptHash f.confTag

/-- The update as it is returned. -/
def update (f : Finished C sender commitSecret unsigned) : GroupUpdate :=
  { unsigned with
    signature := f.signature
    groupCtx := some f.newCtx
    oldGroupCtx := some f.oldCtx
    confirmationKey := some f.nextState.keySchedule.confirmationKey
    epochAuthenticator := some f.nextState.keySchedule.epochAuthenticator
    membershipKey := some f.nextState.keySchedule.membershipKey
    transcriptHash := some f.transcriptHash
    confirmationTag := some f.confTag
    membershipTag := some (C.hmacSha256 sender.state.keySchedule.membershipKey f.tbs) }

end Finished

theorem buildCommit_eq_ok {commit : MLSGroup.Commit}
    (h : MLSGroup.buildCommit C sender coins sealLeaf indices base = .ok commit) :
    ∃ (b : BuiltPath C sender coins sealLeaf indices base)
      (f : Finished C sender b.commitSecret b.unsigned),
      commit = ⟨f.update, f.nextState, f.interim, f.transcriptHash, b.tree⟩ := by
  simp only [MLSGroup.buildCommit, Py.bind_eq_ok] at h
  obtain ⟨⟨tree, path, fallback, commitSecret⟩, hpath, hfinish⟩ := h
  obtain ⟨b, rfl, rfl, rfl, rfl⟩ := buildPath_eq_ok hpath
  simp only [MLSGroup.finishCommit, Py.bind_eq_ok, Py.pure_eq, Except.ok.injEq] at hfinish
  obtain ⟨body, hbody, framedBytes, hframed, oldCtx, hold, tbs, htbs, confirmedInput, hinput,
    newCtx, hnew, newCtxBytes, hbytes, confKey, hconf, nextState, hnext, rfl⟩ := hfinish
  exact ⟨b, ⟨body, framedBytes, oldCtx, tbs, confirmedInput, newCtx, newCtxBytes, confKey,
    nextState, hbody, hframed, hold, htbs, hinput, hnew, hbytes, hconf, hnext⟩, rfl⟩

/-! ## The path secrets -/

namespace MLSGroup

theorem pathSecrets_length {n : ℕ} {secret : Bytes} {secrets : List Bytes}
    (h : pathSecrets C n secret = .ok secrets) : secrets.length = n := by
  induction n generalizing secret secrets with
  | zero =>
      simp only [pathSecrets, Py.pure_eq, Except.ok.injEq] at h
      subst h
      rfl
  | succ n ih =>
      simp only [pathSecrets, Py.bind_eq_ok, Py.pure_eq, Except.ok.injEq] at h
      obtain ⟨next, -, rest, hrest, rfl⟩ := h
      rw [List.length_cons, ih hrest]

/-- From any path secret the chain reaches the last one. -/
theorem advance_pathSecrets {n i : ℕ} {secret pathSecret : Bytes} {secrets : List Bytes}
    (h : pathSecrets C n secret = .ok secrets) (hi : secrets[i]? = some pathSecret)
    (start : Bytes) :
    advancePathSecret C (n - i - 1) pathSecret = .ok (secrets.getLast?.getD start) := by
  induction n generalizing secret pathSecret secrets i start with
  | zero =>
      simp only [pathSecrets, Py.pure_eq, Except.ok.injEq] at h
      subst h
      simp at hi
  | succ n ih =>
      simp only [pathSecrets, Py.bind_eq_ok, Py.pure_eq, Except.ok.injEq] at h
      obtain ⟨next, hnext, rest, hrest, rfl⟩ := h
      cases i with
      | succ i =>
          rw [List.getElem?_cons_succ] at hi
          have hsub : n + 1 - (i + 1) - 1 = n - i - 1 := by omega
          rw [hsub, ih hrest hi next, List.getLast?_cons]
          rfl
      | zero =>
          simp only [List.getElem?_cons_zero, Option.some.injEq] at hi
          subst hi
          cases n with
          | zero =>
              simp only [pathSecrets, Py.pure_eq, Except.ok.injEq] at hrest
              subst hrest
              rfl
          | succ n =>
              have hone := hrest
              simp only [pathSecrets, Py.bind_eq_ok, Py.pure_eq, Except.ok.injEq] at hone
              obtain ⟨second, hsecond, rest', -, rfl⟩ := hone
              have hlast :=
                ih hrest (List.getElem?_cons_zero : (second :: rest')[0]? = some second) next
              have hsub : n + 1 + 1 - 0 - 1 = n + 1 := by omega
              have hsub' : n + 1 - 0 - 1 = n := by omega
              rw [hsub'] at hlast
              rw [hsub, advancePathSecret, hsecond, Py.ok_bind, hlast]
              simp only [List.getLast?_cons, Option.getD_some]

end MLSGroup

/-! ## The tree after the path -/

namespace MLSGroup

theorem setPathParents_spec {tree t : RatchetTree} {hash : Bytes}
    {path : List (ℕ × Option ℕ × Bytes)} (h : setPathParents C tree path = .ok (t, hash)) :
    tree.SameSize t ∧ (∀ i, i ∉ path.map Prod.fst → t.getNode i = tree.getNode i) ∧
      ((path.map Prod.fst).Nodup → ∀ entry ∈ path, ∃ parentHash,
        t.getNode entry.1 = some (.parent ⟨entry.2.2, parentHash, []⟩)) := by
  induction path generalizing t hash with
  | nil =>
      simp only [setPathParents, Py.pure_eq, Except.ok.injEq, Prod.mk.injEq] at h
      obtain ⟨rfl, rfl⟩ := h
      exact ⟨.rfl, fun _ _ => rfl, fun _ entry hentry => by simp at hentry⟩
  | cons entry path ih =>
      obtain ⟨dp, cop, pub⟩ := entry
      simp only [setPathParents, Py.bind_eq_ok, Py.pure_eq, Except.ok.injEq, Prod.mk.injEq] at h
      obtain ⟨⟨inner, above⟩, hinner, sibling, -, hash', -, final, hset, rfl, rfl⟩ := h
      obtain ⟨hsize, hrest, hpath⟩ := ih hinner
      obtain ⟨hsize', hnode⟩ := setParent_node hset
      refine ⟨hsize.trans hsize', fun i hi => ?_, fun hnodup entry hentry => ?_⟩
      · rw [List.map_cons, List.mem_cons, not_or] at hi
        rw [hnode, if_neg (Ne.symm hi.1), hrest i hi.2]
      · rw [List.map_cons, List.nodup_cons] at hnodup
        rcases List.mem_cons.mp hentry with rfl | hentry
        · exact ⟨hash', by rw [hnode, if_pos rfl]⟩
        · obtain ⟨parentHash, hparent⟩ := hpath hnodup.2 entry hentry
          have hne : dp ≠ entry.1 := fun heq =>
            hnodup.1 (heq ▸ List.mem_map.mpr ⟨entry, hentry, rfl⟩)
          exact ⟨parentHash, by rw [hnode, if_neg hne, hparent]⟩

theorem sealPath_pub {tree : RatchetTree} {ctx : GroupContext} {ephemeral : ℕ → ℕ → KemKey}
    {i k : ℕ} {path : List (Option ℕ × Bytes × Bytes)} {nodes : List UpdatePathNode}
    (h : sealPath C tree ctx ephemeral i path = .ok nodes) {entry : Option ℕ × Bytes × Bytes}
    (hk : path[k]? = some entry) :
    ∃ node, nodes[k]? = some node ∧ node.newPublicKey = entry.2.2 := by
  induction path generalizing i k nodes with
  | nil => cases hk
  | cons first path ih =>
      obtain ⟨cop, pathSecret, pub⟩ := first
      simp only [sealPath, Py.bind_eq_ok, Py.pure_eq, Except.ok.injEq] at h
      obtain ⟨_, -, _, -, rest, hrest, rfl⟩ := h
      cases k with
      | zero =>
          cases hk
          exact ⟨_, rfl, rfl⟩
      | succ k =>
          rw [List.getElem?_cons_succ] at hk
          obtain ⟨node, hnode, hpub⟩ := ih hrest hk
          exact ⟨node, by rwa [List.getElem?_cons_succ], hpub⟩

end MLSGroup

theorem ancestors_ge {l k n : ℕ} {x : ℕ} (h : x ∈ ancestors l k n) :
    ∃ k', k < k' ∧ k' ≤ k + n ∧ x = CompleteTree.nodeAt k' (l / 2 ^ k') := by
  induction n generalizing k with
  | zero => simp [ancestors] at h
  | succ n ih =>
      rcases List.mem_cons.mp h with rfl | h
      · exact ⟨k + 1, by omega, by omega, rfl⟩
      · obtain ⟨k', hlt, hle, rfl⟩ := ih h
        exact ⟨k', by omega, by omega, rfl⟩

theorem nodup_ancestors (l k n : ℕ) : (ancestors l k n).Nodup := by
  induction n generalizing k with
  | zero => exact List.nodup_nil
  | succ n ih =>
      rw [ancestors, List.nodup_cons]
      refine ⟨fun hmem => ?_, ih (k + 1)⟩
      obtain ⟨k', hlt, -, heq⟩ := ancestors_ge hmem
      exact absurd (CompleteTree.nodeAt_injective heq).1 (by omega)

theorem length_ancestors (l k n : ℕ) : (ancestors l k n).length = n := by
  induction n generalizing k with
  | zero => rfl
  | succ n ih => rw [ancestors, List.length_cons, ih]

theorem length_siblings (l k n : ℕ) : (siblings l k n).length = n := by
  induction n generalizing k with
  | zero => rfl
  | succ n ih => rw [siblings, List.length_cons, ih]

namespace BuiltPath

variable (b : BuiltPath C sender coins sealLeaf indices base)

theorem sameSize : base.SameSize b.tree :=
  (setLeaf_node b.withLeaf_eq).1.trans (MLSGroup.setPathParents_spec b.tree_eq).1

/-- On a tree of `2 ^ m` leaves the direct path and the copath are those of the committer's leaf. -/
theorem paths {m : ℕ} (hm : base.Sized m) (hm32 : m ≤ 32) :
    sender.myIndex < 2 ^ m ∧ b.direct = ancestors sender.myIndex 0 m ∧
      b.cop = (siblings sender.myIndex 0 m).map some := by
  have hslot : sender.myIndex < 2 ^ m := by
    have hlt := (setLeaf_eq_ok.mp b.withLeaf_eq).2.1
    rw [hm.2, pow_succ] at hlt
    omega
  have hdirect := b.direct_eq
  have hcop := b.cop_eq
  rw [directPath_leaf hm.covers hm32 hslot, Except.ok.injEq] at hdirect
  rw [copath_leaf hm.covers hm32 hslot, Except.ok.injEq] at hcop
  exact ⟨hslot, hdirect.symm, hcop.symm⟩

/-- The copath in the tree with the new path is the one in the tree before. -/
theorem copath_tree {m : ℕ} (hm : base.Sized m) (hm32 : m ≤ 32) :
    b.tree.copath (2 * sender.myIndex) = .ok b.cop := by
  obtain ⟨hslot, -, hcop⟩ := b.paths hm hm32
  rw [copath_leaf (b.sameSize.sized hm).covers hm32 hslot, hcop]

theorem lengths {m : ℕ} (hm : base.Sized m) (hm32 : m ≤ 32) :
    b.direct.length = m ∧ b.cop.length = m ∧ b.secrets.length = m ∧ b.pubs.length = m := by
  obtain ⟨-, hdirect, hcop⟩ := b.paths hm hm32
  have hd : b.direct.length = m := by rw [hdirect, length_ancestors]
  have hs : b.secrets.length = m := (MLSGroup.pathSecrets_length b.secrets_eq).trans hd
  have hp : b.pubs.length = m := (forall₂_of_mapM b.pubs_eq).length_eq ▸ hs
  exact ⟨hd, by rw [hcop, List.length_map, length_siblings], hs, hp⟩

/-- The committer's leaf is new, the nodes above it are new parents without unmerged leaves, and
nothing else has changed. -/
theorem getNode_tree {m : ℕ} (hm : base.Sized m) (hm32 : m ≤ 32) :
    b.tree.getNode (2 * sender.myIndex) = some (.leaf b.keyPackage.leafNode) ∧
    (∀ i ∈ ancestors sender.myIndex 0 m, ∃ pub parentHash,
      b.tree.getNode i = some (.parent ⟨pub, parentHash, []⟩)) ∧
    ∀ i, i ≠ 2 * sender.myIndex → i ∉ ancestors sender.myIndex 0 m →
    b.tree.getNode i = base.getNode i := by
  obtain ⟨hslot, hdirect, hcop⟩ := b.paths hm hm32
  obtain ⟨hd, hc, -, hp⟩ := b.lengths hm hm32
  obtain ⟨-, hrest, hpath⟩ := MLSGroup.setPathParents_spec b.tree_eq
  obtain ⟨-, hleaf⟩ := setLeaf_node b.withLeaf_eq
  have hmap : (b.direct.zip (b.cop.zip b.pubs)).map Prod.fst = ancestors sender.myIndex 0 m := by
    rw [List.map_fst_zip (by simp [hd, hc, hp]), hdirect]
  rw [hmap] at hrest hpath
  refine ⟨?_, fun i hi => ?_, fun i hi hmem => ?_⟩
  · rw [hrest _ leaf_notMem_ancestors, hleaf, if_pos rfl]
  · rw [← hmap] at hi
    obtain ⟨entry, hentry, rfl⟩ := List.mem_map.mp hi
    obtain ⟨parentHash, hparent⟩ := hpath (nodup_ancestors _ _ _) entry hentry
    exact ⟨_, parentHash, hparent⟩
  · rw [hrest i hmem, hleaf, if_neg (Ne.symm hi)]

theorem merged {m : ℕ} (hm : base.Sized m) (hm32 : m ≤ 32) (h : base.Merged) : b.tree.Merged := by
  obtain ⟨hown, hpath, hrest⟩ := b.getNode_tree hm hm32
  intro i parent hi
  by_cases hself : i = 2 * sender.myIndex
  · rw [hself, hown] at hi
    cases hi
  · by_cases hmem : i ∈ ancestors sender.myIndex 0 m
    · obtain ⟨pub, parentHash, hparent⟩ := hpath i hmem
      rw [hparent] at hi
      cases hi
      rfl
    · exact h i parent (hrest i hself hmem ▸ hi)

theorem getNode_other {m l : ℕ} (hm : base.Sized m) (hm32 : m ≤ 32) (hl : l ≠ sender.myIndex) :
    b.tree.getNode (2 * l) = base.getNode (2 * l) := by
  obtain ⟨-, -, hrest⟩ := b.getNode_tree hm hm32
  exact hrest _ (by omega) leaf_notMem_ancestors

theorem getLeaf_other {m l : ℕ} (hm : base.Sized m) (hm32 : m ≤ 32) (hl : l ≠ sender.myIndex) :
    b.tree.getLeaf (2 * l) = base.getLeaf (2 * l) :=
  getLeaf_congr (b.getNode_other hm hm32 hl)

/-- The parent at a position of the path is made from the path secret there, and announced. -/
theorem parent_eq {m : ℕ} (hm : base.Sized m) (hm32 : m ≤ 32) {index k : ℕ} {parent : ParentNode}
    (hk : b.direct[k]? = some index) (hparent : b.tree.getNode index = some (.parent parent)) :
    ∃ secret node, b.secrets[k]? = some secret ∧
    MLSGroup.nodePublic C secret = .ok parent.publicKey ∧
      b.nodes[k]? = some node ∧ node.newPublicKey = parent.publicKey := by
  obtain ⟨hd, hc, hs, hp⟩ := b.lengths hm hm32
  have hlt : k < m := hd ▸ (List.getElem?_eq_some_iff.mp hk).1
  obtain ⟨cop, hcop⟩ : ∃ cop, b.cop[k]? = some cop := ⟨_, List.getElem?_eq_getElem (hc ▸ hlt)⟩
  obtain ⟨secret, hsecret⟩ : ∃ secret, b.secrets[k]? = some secret :=
    ⟨_, List.getElem?_eq_getElem (hs ▸ hlt)⟩
  obtain ⟨pub, hpub⟩ : ∃ pub, b.pubs[k]? = some pub := ⟨_, List.getElem?_eq_getElem (hp ▸ hlt)⟩
  have hentry : (b.direct.zip (b.cop.zip b.pubs))[k]? = some (index, cop, pub) :=
    List.getElem?_zip_eq_some.mpr ⟨hk, List.getElem?_zip_eq_some.mpr ⟨hcop, hpub⟩⟩
  have hnodup : ((b.direct.zip (b.cop.zip b.pubs)).map Prod.fst).Nodup := by
    rw [List.map_fst_zip (by simp [hd, hc, hp]), (b.paths hm hm32).2.1]
    exact nodup_ancestors _ _ _
  obtain ⟨parentHash, hset⟩ :=
    (MLSGroup.setPathParents_spec b.tree_eq).2.2 hnodup _ (List.mem_of_getElem? hentry)
  rw [hparent, Option.some.injEq, Node.parent.injEq] at hset
  have hkey : parent.publicKey = pub := by rw [hset]
  have hseal : (b.cop.zip (b.secrets.zip b.pubs))[k]? = some (cop, secret, pub) :=
    List.getElem?_zip_eq_some.mpr ⟨hcop, List.getElem?_zip_eq_some.mpr ⟨hsecret, hpub⟩⟩
  obtain ⟨node, hnode, hnew⟩ := MLSGroup.sealPath_pub b.nodes_eq hseal
  have hderived := (List.forall₂_iff_get.mp (forall₂_of_mapM b.pubs_eq)).2 k (hs ▸ hlt) (hp ▸ hlt)
  obtain ⟨_, hsecretAt⟩ := List.getElem?_eq_some_iff.mp hsecret
  obtain ⟨_, hpubAt⟩ := List.getElem?_eq_some_iff.mp hpub
  rw [List.get_eq_getElem, List.get_eq_getElem] at hderived
  simp only at hderived
  rw [hsecretAt, hpubAt] at hderived
  rw [hkey]
  exact ⟨secret, node, hsecret, hderived, hnode, hnew⟩

end BuiltPath

end PureMls
