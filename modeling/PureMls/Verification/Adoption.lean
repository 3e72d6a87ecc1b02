import PureMls.Verification.Agreement
import PureMls.Verification.TreeBinding

/-! # The trees that receivers adopt

A receiver adopts the tree of a commit as it is. Under a signature of a commit call of the library
this tree differs from the receiver's own only where the call changed it. -/

namespace PureMls

open RatchetTree MLSGroup

variable {C : Crypto}

/-! ## One tree hash, one tree -/

namespace RatchetTree

variable {tree u : RatchetTree}

/-- Encodings that agree where the kinds do are one node as far as the wire can tell. -/
theorem canon_eq_of_optionalBytes {a b : Option Node} {body : Bytes}
    (ha : optionalBytes a = .ok body) (hb : optionalBytes b = .ok body)
    (hkind : ∀ x y, a = some x → b = some y → nodeType x = nodeType y) :
    a.map Node.canon = b.map Node.canon := by
  have hentry := entryBytes_congr ha hb hkind
  obtain ⟨e, he⟩ : ∃ e, entryBytes b = .ok e := by
    cases b with
    | none => exact ⟨_, rfl⟩
    | some node =>
        obtain ⟨bytes, hbytes, -⟩ := Py.map_eq_ok.mp hb
        exact ⟨_, by rw [entryBytes_some, hbytes]; rfl⟩
  exact Option.some.inj ((readsAs_entry (hentry.trans he)).unique_self (readsAs_entry he))

/-- Below the root two trees with one hash have the same nodes, where their kinds agree. -/
theorem getNode_of_treeHash (hC : C.Correct) (htree : tree.OnWire) (hu : u.OnWire) {d : Bytes}
    (hd : tree.treeHash C = .ok d) (hd' : u.treeHash C = .ok d)
    (hcoll : ∀ a ∈ tree.hashInputs hC, ∀ b ∈ u.hashInputs hC, C.sha256 a = C.sha256 b → a = b)
    {i : ℕ} (hi : i < 2 * tree.numLeaves - 1) : u.numLeaves = tree.numLeaves ∧
      ((∀ x y, tree.getNode i = some x → u.getNode i = some y → nodeType x = nodeType y) →
        (tree.getNode i).map Node.canon = (u.getNode i).map Node.canon) := by
  rcases htree.covers with ⟨hzero, -⟩ | ⟨m, hm, hcovers⟩
  · omega
  · obtain ⟨hcovers', hbodies⟩ := treeHash_injective hC hcovers hm hu hd hd' hcoll
    have hlt : i < 2 ^ (m + 1) - 1 := by
      rw [hcovers.1] at hi
      rwa [pow_succ, Nat.mul_comm]
    obtain ⟨body, hbody, hbody'⟩ := hbodies i hlt
    exact ⟨hcovers'.1.trans hcovers.1.symm, canon_eq_of_optionalBytes hbody hbody'⟩

end RatchetTree

/-! ## The receiver's own leaf -/

namespace Built

variable {sender receiver next : MLSGroup} {coins : CommitCoins} {p : Proposal}
  {committed : Committed} {update : GroupUpdate} (r : Built C sender coins p committed)

/-- The received tree has the nodes of the built one. -/
theorem received_getNode (h : r.Received receiver update) (i : ℕ) :
    (update.tree.getNode i).map Node.canon = (r.path.tree.getNode i).map Node.canon := by
  have htree : update.tree.canon = r.path.tree.canon := by
    rw [← r.update_tree]
    exact h.same.tree
  rw [← getNode_canon, htree, getNode_canon]

include r in
theorem treeHash_ok : ∃ d, sender.state.tree.treeHash C = .ok d := by
  obtain ⟨d, hd, -⟩ := Py.bind_eq_ok.mp r.finished.oldCtx_eq
  exact ⟨d, hd⟩

/-- A leaf of the built tree that is not the committer's, in a slot that was taken before, is the
one that was there. -/
theorem leaf_kept (hsender : sender.state.tree.OnWire) {l : ℕ} {leaf : LeafNode} {old : Node}
    (hold : sender.state.tree.getNode (2 * l) = some old) (hl : l ≠ sender.myIndex)
    (hleaf : r.path.tree.getLeaf (2 * l) = some leaf) : old = .leaf leaf := by
  rcases r.leaf_cases hleaf with ⟨heq, -⟩ | hkept | ⟨hslot, hnew⟩
  · exact absurd heq hl
  · rw [getLeaf_eq_some.mp hkept] at hold
    exact (Option.some.inj hold).symm
  · cases p with
    | addMember kp =>
        have hblank := placement_blank hsender
        rw [Proposal.slot, Option.some.injEq] at hslot
        rw [hslot, hold] at hblank
        cases hblank
    | removeMember target => cases hnew
    | updateKey => cases hnew

/-- What a receiver opens was sealed to its key, which is its own leaf's when no other node has
it. -/
theorem received_own_leaf (hC : C.Correct) (hsender : sender.state.tree.OnWire)
    (hkinds : update.tree.Kinded)
    (h : r.Received receiver update) {found : Bytes}
    (hopen : openCommitSecret C receiver update = .ok found)
    (hopens : r.path.OpensForRecipient receiver.myKemKey)
    (hunique : ∀ index node, update.tree.getNode index = some node →
      node.publicKey = receiver.myKemKey.publicBytes C → index = 2 * receiver.myIndex) :
    ∃ received built, update.tree.getLeaf (2 * receiver.myIndex) = some received ∧
      r.path.tree.getLeaf (2 * receiver.myIndex) = some built ∧ received.canon = built.canon ∧
      received.encryptionKey = receiver.myKemKey.publicBytes C := by
  obtain ⟨index, node, secret, enc, ct, opened, _, hseal, hnode, hopened, -⟩ :=
    r.received_seal hC hsender h hopen
  have hkey := hopens index node secret enc ct opened hseal hnode hopened
  have hget := r.received_getNode h index
  rw [hnode, Option.map_some] at hget
  obtain ⟨node', hnode', hcanon⟩ := Option.map_eq_some_iff.mp hget
  have hkey' : node'.publicKey = receiver.myKemKey.publicBytes C := by
    rw [← Node.publicKey_canon, hcanon, Node.publicKey_canon, hkey]
  obtain rfl := hunique index node' hnode' hkey'
  cases node' with
  | parent parent =>
      have hodd := hkinds.parent_odd hnode'
      omega
  | leaf received =>
      cases node with
      | parent parent => cases hcanon
      | leaf built =>
          exact ⟨received, built, getLeaf_eq_some.mpr hnode', getLeaf_eq_some.mpr hnode,
            Node.leaf.inj hcanon, hkey'⟩

/-- The tree hash ties a leaf that the commit keeps to the receiver's in the same slot. -/
theorem kept_leaf_canon (hC : C.Correct) (hreceiver : receiver.state.tree.OnWire)
    (hsender : sender.state.tree.OnWire) (h : r.Received receiver update)
    (hhash : ∀ a ∈ receiver.state.tree.hashInputs hC, ∀ b ∈ sender.state.tree.hashInputs hC,
      C.sha256 a = C.sha256 b → a = b) {l : ℕ} {leaf built : LeafNode} (hl : l ≠ sender.myIndex)
    (hleaf : receiver.state.tree.getLeaf (2 * l) = some leaf)
    (hbuilt : r.path.tree.getLeaf (2 * l) = some built) : leaf.canon = built.canon := by
  obtain ⟨d, hd⟩ := r.treeHash_ok
  have hslot := getLeaf_eq_some.mp hleaf
  have hlt : 2 * l < 2 * receiver.state.tree.numLeaves - 1 := by
    have hlen := getNode_lt hslot
    have hle := hreceiver.length_le
    omega
  obtain ⟨-, hsame⟩ := getNode_of_treeHash hC hreceiver hsender (h.treeHash.trans hd) hd hhash hlt
  have hkept : ∀ old, sender.state.tree.getNode (2 * l) = some old → old = .leaf built :=
    fun old hold => r.leaf_kept hsender hold hl hbuilt
  have hnodes := hsame fun x y hx hy => by
    rw [hslot, Option.some.injEq] at hx
    rw [← hx, hkept y hy]
    rfl
  rw [hslot, Option.map_some, eq_comm] at hnodes
  obtain ⟨old, hold, hcanon⟩ := Option.map_eq_some_iff.mp hnodes
  rw [hkept old hold] at hcanon
  exact (Node.leaf.inj hcanon).symm

/-- The committer's new leaf has its new key. -/
theorem own_leaf_key (hC : C.Correct) (hsender : sender.state.tree.OnWire) {built : LeafNode}
    (hbuilt : r.path.tree.getLeaf (2 * sender.myIndex) = some built) :
    built.encryptionKey = coins.committerKem.publicBytes C := by
  obtain ⟨m, hm29, hsized⟩ := r.sized hsender
  have hown := (r.path.getNode_tree (r.path.sameSize.symm.sized hsized) (by omega)).1
  have hindex : (sender.withConsumed r.consumed).myIndex = sender.myIndex := rfl
  rw [hindex, getLeaf_eq_some.mp hbuilt, Option.some.injEq, Node.leaf.injEq] at hown
  rw [hown]
  exact (ownKeyPackage_leaf hC r.path.keyPackage_eq).1

end Built

/-- A receiver that follows a commit of the library keeps its leaf with both its keys, if no other
node of the new tree has its KEM key. -/
theorem accepted_commit_keeps_leaf (hC : C.Correct) {receiver sender next : MLSGroup}
    (hreceiver : receiver.state.tree.OnWire) (hsender : sender.state.tree.OnWire)
    {coins : CommitCoins} {p : Proposal} {committed : Committed}
    (hcommit : p.commit C sender coins = .ok committed) {update : GroupUpdate}
    (hwire : update.tree.OnWire) (hkinds : update.tree.Kinded)
    (hsignature : update.signature = committed.update.signature)
    (haccepted : (receiver.processUpdate C update).2 = .ok next)
    (hsigned : ∀ r : Built C sender coins p committed, r.Unforged receiver update)
    (hopens : ∀ r : Built C sender coins p committed,
      r.path.OpensForRecipient receiver.myKemKey)
    (hhash : ∀ a ∈ receiver.state.tree.hashInputs hC, ∀ b ∈ sender.state.tree.hashInputs hC,
      C.sha256 a = C.sha256 b → a = b)
    (hunique : ∀ index node, update.tree.getNode index = some node →
      node.publicKey = receiver.myKemKey.publicBytes C → index = 2 * receiver.myIndex)
    (hfresh : coins.committerKem.publicBytes C ≠ receiver.myKemKey.publicBytes C) {leaf : LeafNode}
    (hleaf : receiver.state.tree.getLeaf (2 * receiver.myIndex) = some leaf)
    (hsigKey : leaf.signatureKey = receiver.mySigKey.publicBytes C) :
    ∃ leaf', next.state.tree.getLeaf (2 * receiver.myIndex) = some leaf' ∧
      leaf'.signatureKey = receiver.mySigKey.publicBytes C ∧
      leaf'.encryptionKey = receiver.myKemKey.publicBytes C := by
  obtain ⟨r⟩ := Proposal.commit_eq_ok hcommit
  rw [processUpdate_snd] at haccepted
  have hreceived := r.received hsender hwire hsignature haccepted (hsigned r)
  obtain ⟨commitSecret, _, _, _, _, -, -, hopen, -, -, -, -, rfl⟩ :=
    processUpdateBody_accepted haccepted
  obtain ⟨received, built, hget, hbuilt, hcanon, hkey⟩ :=
    r.received_own_leaf hC hsender hkinds hreceived hopen (hopens r) hunique
  refine ⟨received, hget, ?_, hkey⟩
  have hne : receiver.myIndex ≠ sender.myIndex := by
    intro heq
    rw [heq] at hbuilt
    have hown := r.own_leaf_key hC hsender hbuilt
    rw [← LeafNode.canon_encryptionKey, ← hcanon, LeafNode.canon_encryptionKey, hkey] at hown
    exact hfresh hown.symm
  have hkept := r.kept_leaf_canon hC hreceiver hsender hreceived hhash hne hleaf hbuilt
  rw [← hsigKey, ← LeafNode.canon_signatureKey leaf, hkept, ← hcanon, LeafNode.canon_signatureKey]

/-! ## The parents -/

/-- A parent of an adopted tree at a position of the committer's path, with the key that the path
announces there; from the position that the receiver decrypts on it is the key of the path
secret. -/
structure Announced (C : Crypto) (receiver : MLSGroup) (update : GroupUpdate) (index : ℕ)
    (parent : ParentNode) (direct : List ℕ) (path : UpdatePath) (k : ℕ) : Prop where
  direct_eq : update.tree.directPath (2 * update.committerIndex) = .ok direct
  path_eq : update.updatePath = some path
  index_eq : direct[k]? = some index
  key : ∃ node, path.nodes[k]? = some node ∧ parent.publicKey = node.newPublicKey
  derived : ∀ ctx cop position pathSecret,
    makeGroupContext C receiver.state.groupId update.epochId update.tree
      receiver.interimTranscriptHash = .ok ctx →
    update.tree.copath (2 * update.committerIndex) = .ok cop →
    decryptAt C receiver update.tree ctx 0 (cop.zip path.nodes) =
      .ok (some (position, pathSecret)) →
    position ≤ k → ∃ secret, advancePathSecret C (k - position) pathSecret = .ok secret ∧
      nodePublic C secret = .ok parent.publicKey

namespace MLSGroup

theorem pathSecrets_next {n i : ℕ} {secret a b : Bytes} {secrets : List Bytes}
    (h : pathSecrets C n secret = .ok secrets) (ha : secrets[i]? = some a)
    (hb : secrets[i + 1]? = some b) : deriveNextPathSecret C a = .ok b := by
  induction n generalizing secret secrets i with
  | zero =>
      cases h
      cases ha
  | succ n ih =>
      simp only [pathSecrets, Py.bind_eq_ok, Py.pure_eq, Except.ok.injEq] at h
      obtain ⟨next, -, rest, hrest, rfl⟩ := h
      rw [List.getElem?_cons_succ] at hb
      cases i with
      | succ i => exact ih hrest ha hb
      | zero =>
          cases ha
          cases n with
          | zero =>
              cases hrest
              cases hb
          | succ n =>
              simp only [pathSecrets, Py.bind_eq_ok, Py.pure_eq, Except.ok.injEq] at hrest
              obtain ⟨second, hsecond, _, -, rfl⟩ := hrest
              cases hb
              exact hsecond

/-- The chain from one path secret reaches the next ones. -/
theorem advance_pathSecrets_to {n i d : ℕ} {secret a b : Bytes} {secrets : List Bytes}
    (h : pathSecrets C n secret = .ok secrets) (ha : secrets[i]? = some a)
    (hb : secrets[i + d]? = some b) : advancePathSecret C d a = .ok b := by
  induction d generalizing i a with
  | zero =>
      rw [Nat.add_zero, ha, Option.some.injEq] at hb
      rw [hb]
      rfl
  | succ d ih =>
      have hlt : i + 1 < secrets.length := by
        have := (List.getElem?_eq_some_iff.mp hb).1
        omega
      have hnext := List.getElem?_eq_getElem hlt
      rw [Nat.add_comm d 1, ← Nat.add_assoc] at hb
      rw [advancePathSecret, pathSecrets_next h ha hnext, Py.ok_bind]
      exact ih hnext hb

end MLSGroup

namespace Built

variable {sender receiver next : MLSGroup} {coins : CommitCoins} {p : Proposal}
  {committed : Committed} {update : GroupUpdate} (r : Built C sender coins p committed)

include r in
/-- Every node of the received path is one that the commit call sealed. -/
theorem received_path (h : r.Received receiver update) :
    ∃ path, update.updatePath = some path ∧ path.nodes = r.path.nodes := by
  have hnodes :
    update.updatePath.map UpdatePath.nodes = committed.update.updatePath.map UpdatePath.nodes :=
    h.same.path
  rw [r.update_eq] at hnodes
  exact Option.map_eq_some_iff.mp hnodes

/-- The parent at a position of the built path is announced to every receiver. -/
theorem announced (hsender : sender.state.tree.OnWire) (h : r.Received receiver update)
    (hopens : r.path.OpensAsSealed receiver.myKemKey)
    (hepoch : update.epochId = sender.state.epochId + 1) {index k : ℕ} {parent : ParentNode}
    (hk : r.path.direct[k]? = some index)
    (hparent : r.path.tree.getNode index = some (.parent parent)) :
    ∃ path, Announced C receiver update index parent r.path.direct path k := by
  obtain ⟨m, hm29, hsized⟩ := r.sized hsender
  have hbase : r.base.Sized m := r.path.sameSize.symm.sized hsized
  have hm32 : m ≤ 32 := by omega
  obtain ⟨hslot, hdirect, hcop⟩ : sender.myIndex < 2 ^ m ∧
    r.path.direct = ancestors sender.myIndex 0 m ∧
      r.path.cop = (siblings sender.myIndex 0 m).map some := r.path.paths hbase hm32
  obtain ⟨secret, node, hsecret, hpub, hnode, hnew⟩ := r.path.parent_eq hbase hm32 hk hparent
  obtain ⟨path, hpath, hnodes⟩ := r.received_path h
  have htree : update.tree.canon = r.path.tree.canon := by
    rw [← r.update_tree]
    exact h.same.tree
  have hcommitter : update.committerIndex = sender.myIndex := by
    rw [h.committer, r.update_eq]
    rfl
  refine ⟨path, ⟨?_, hpath, hk, ⟨node, hnodes ▸ hnode, hnew.symm⟩, ?_⟩⟩
  · rw [← directPath_canon, htree, directPath_canon, hcommitter,
      directPath_leaf hsized.covers hm32 hslot, hdirect]
  · intro ctx cop position pathSecret hctx hcop' hdecrypt hle
    rw [← copath_canon, htree, copath_canon, hcommitter, copath_leaf hsized.covers hm32 hslot,
      Except.ok.injEq] at hcop'
    have hctx' : makeGroupContext C receiver.state.groupId update.epochId update.tree
        receiver.interimTranscriptHash = .ok r.path.ctx := by
      rw [h.groupId, h.interim, hepoch, makeGroupContext_congr htree]
      exact r.path.ctx_eq
    obtain rfl := Except.ok.inj (hctx.symm.trans hctx')
    -- what is decrypted is the path secret of that position
    rw [decryptAt_congr htree, hnodes, ← hcop', ← hcop] at hdecrypt
    obtain ⟨i, _, sealed, enc, ct, hsealed, hseal, -, hopen⟩ :=
      r.path.decryptAt_seal hbase hm32 hdecrypt
    obtain rfl := hopens i sealed enc ct pathSecret hseal hopen
    rw [← Nat.add_sub_cancel' hle] at hsecret
    exact ⟨secret, advance_pathSecrets_to r.path.secrets_eq hsealed hsecret, hpub⟩

/-- A parent of the built tree that is not on the path stood in the sender's tree. -/
theorem parent_kept (hsender : sender.state.tree.OnWire) {index : ℕ} {parent : ParentNode}
    (hk : index ∉ r.path.direct) (hparent : r.path.tree.getNode index = some (.parent parent)) :
    sender.state.tree.getNode index = some (.parent parent) := by
  obtain ⟨m, hm29, hsized⟩ := r.sized hsender
  have hbase : r.base.Sized m := r.path.sameSize.symm.sized hsized
  obtain ⟨hown, -, hrest⟩ := r.path.getNode_tree hbase (by omega)
  rw [(r.path.paths hbase (by omega)).2.1] at hk
  have hne : index ≠ 2 * (sender.withConsumed r.consumed).myIndex := by
    rintro rfl
    rw [hown] at hparent
    cases hparent
  rw [hrest index hne hk] at hparent
  exact Proposal.base_parent r.base_eq hparent

end Built

/-- Under a commit of the library every parent of the adopted tree is the receiver's previous one in
its place, or an announced one on the committer's path. -/
theorem accepted_commit_parents (hC : C.Correct) {receiver sender next : MLSGroup}
    (hreceiver : receiver.state.tree.OnWire) (hreceiverKinds : receiver.state.tree.Kinded)
    (hsender : sender.state.tree.OnWire) (hsenderLaid : sender.state.tree.LaidOut)
    {coins : CommitCoins} {p : Proposal} {committed : Committed}
    (hcommit : p.commit C sender coins = .ok committed) {update : GroupUpdate}
    (hwire : update.tree.OnWire) (hsignature : update.signature = committed.update.signature)
    (haccepted : (receiver.processUpdate C update).2 = .ok next)
    (hsigned : ∀ r : Built C sender coins p committed, r.Unforged receiver update)
    (hopens : ∀ r : Built C sender coins p committed, r.path.OpensAsSealed receiver.myKemKey)
    (hhash : ∀ a ∈ receiver.state.tree.hashInputs hC, ∀ b ∈ sender.state.tree.hashInputs hC,
      C.sha256 a = C.sha256 b → a = b) {index : ℕ} {parent : ParentNode}
    (hparent : next.state.tree.getNode index = some (.parent parent)) :
    receiver.state.tree.getNode index = some (.parent parent) ∨
      ∃ direct path k, Announced C receiver update index parent direct path k := by
  obtain ⟨r⟩ := Proposal.commit_eq_ok hcommit
  rw [processUpdate_snd] at haccepted
  have hreceived := r.received hsender hwire hsignature haccepted (hsigned r)
  obtain ⟨_, _, _, _, _, -, hepoch, -, -, -, -, -, rfl⟩ := processUpdateBody_accepted haccepted
  obtain ⟨m, hm29, hsized⟩ := r.sized hsender
  have hbase : r.base.Sized m := r.path.sameSize.symm.sized hsized
  have hm32 : m ≤ 32 := by omega
  have hget := r.received_getNode hreceived index
  rw [show update.tree.getNode index = some (.parent parent) from hparent, Option.map_some,
    eq_comm] at hget
  obtain ⟨node, hnode, hcanon⟩ := Option.map_eq_some_iff.mp hget
  cases node with
  | leaf leaf => cases hcanon
  | parent built =>
      obtain rfl : built = parent := Node.parent.inj hcanon
      by_cases hon : index ∈ r.path.direct
      · obtain ⟨k, hk⟩ := List.mem_iff_getElem?.mp hon
        have hnext : update.epochId = sender.state.epochId + 1 :=
          hepoch.trans (by rw [hreceived.epochId])
        obtain ⟨path, hpath⟩ := r.announced hsender hreceived (hopens r) hnext hk hnode
        exact .inr ⟨_, path, k, hpath⟩
      · have hkept := r.parent_kept hsender hon hnode
        obtain ⟨d, hd⟩ := r.treeHash_ok
        have hlt : index < 2 * sender.state.tree.numLeaves - 1 :=
          hsenderLaid.size ▸ getNode_lt hkept
        obtain ⟨-, hsame⟩ :=
          getNode_of_treeHash hC hsender hreceiver hd (hreceived.treeHash.trans hd)
          (fun a ha b hb heq => (hhash b hb a ha heq.symm).symm) hlt
        have hnodes := hsame fun x y hx hy =>
          (hsenderLaid.kinds _ _ hx).trans (hreceiverKinds _ _ hy).symm
        rw [hkept, Option.map_some, eq_comm] at hnodes
        obtain ⟨old, hold, hcanon'⟩ := Option.map_eq_some_iff.mp hnodes
        cases old with
        | leaf leaf => cases hcanon'
        | parent old =>
            obtain rfl : old = built := Node.parent.inj hcanon'
            exact .inl hold

/-! ## Hostile trees and a followed commit -/

namespace Sample

def key (b : UInt8) : Bytes := (kem b).publicBytes crypto

/-- Alice adds Bob, and he joins. -/
def aliceAndBob : Py (MLSGroup × MLSGroup) := do
  let bobPackage ← keyPackage 20
  let alice ← MLSGroup.create crypto (ascii "g") (sig 1) (kem 1) (kem 2)
  let added ← (Proposal.addMember bobPackage).commit crypto alice (coins 40)
  let call : JoinCall := ⟨added.welcome.getD ⟨0, [], []⟩, sig 20, kem 20, [], none⟩
  let bob ← call.run crypto
  pure (added.next, bob)

theorem aliceAndBob_reached {alice bob : MLSGroup} (h : aliceAndBob = .ok (alice, bob)) :
    Reached crypto bob := by
  simp only [aliceAndBob, Py.bind_eq_ok, Py.pure_eq, Except.ok.injEq, Prod.mk.injEq] at h
  obtain ⟨_, -, _, -, _, -, bob', hjoin, -, rfl⟩ := h
  exact .join (fun tree htree => by cases htree) hjoin

/-- A parent with the key is new at the index. -/
def Adopts (self next : MLSGroup) (index : ℕ) (publicKey : Bytes) : Prop :=
  next.state.tree.getNode index = some (.parent ⟨publicKey, [], []⟩) ∧
    self.state.tree.getNode index ≠ some (.parent ⟨publicKey, [], []⟩)

instance (self next : MLSGroup) (index : ℕ) (publicKey : Bytes) :
    Decidable (Adopts self next index publicKey) :=
  inferInstanceAs (Decidable (_ ∧ _))

/-- Alice signs a tree with three parents of her own making. She seals the path secret of 32 zeros
to Bob and announces one key of three. -/
def planted : Py (MLSGroup × GroupUpdate × MLSGroup) := do
  let (alice, bob) ← aliceAndBob
  let grown ← alice.state.tree.copyNodes (RatchetTree.new 4)
  let withFirst ← grown.setParent 1 ⟨key 61, [], []⟩
  let withRoot ← withFirst.setParent 3 ⟨key 62, [], []⟩
  let tree ← withRoot.setParent 5 ⟨key 63, [], []⟩
  let ctx ← makeGroupContext crypto bob.state.groupId (bob.state.epochId + 1) tree
    bob.interimTranscriptHash
  let (enc, ct) ← sealWithContext crypto ctx (kem 7) (key 20) zeros32
  let commitSecret ← advancePathSecret crypto 1 zeros32
  let leaf ← leafAt alice.state.tree 0
  let nodes : List UpdatePathNode := [⟨key 61, [⟨enc, ct⟩]⟩, ⟨key 64, []⟩]
  let commit ← finishCommit crypto alice tree ⟨leaf.keyPackage, nodes⟩ Dict.empty commitSecret
  let update := commit.update
  let next ← (bob.processUpdate crypto update).2
  expect (Adopts bob next 1 (key 61) ∧ Adopts bob next 3 (key 62) ∧ Adopts bob next 5 (key 63))
  let openCtx ← makeGroupContext crypto bob.state.groupId update.epochId update.tree
    bob.interimTranscriptHash
  let direct ← update.tree.directPath (2 * update.committerIndex)
  let cop ← update.tree.copath (2 * update.committerIndex)
  let found ← decryptAt crypto bob update.tree openCtx 0 (cop.zip nodes)
  expect (direct = [1, 3] ∧ found = some (0, zeros32) ∧
    update.updatePath = some ⟨leaf.keyPackage, nodes⟩)
  expect (nodePublic crypto zeros32 ≠ .ok (key 61) ∧ key 62 ≠ key 64)
  pure (bob, update, next)

theorem planted_ok : ∃ r, planted = .ok r := Py.ok_of_isOk (by decide +kernel)

end Sample

open Sample in
/-- Bob accepts a tree of Alice's with three parents that he did not have: one that is not on her
path, one with another key than the path announces, and one with a key that is not derived from the
path secret he decrypts. -/
theorem planted_parents_accepted :
    ∃ (bob next : MLSGroup) (update : GroupUpdate), Reached crypto bob ∧
    (bob.processUpdate crypto update).2 = .ok next ∧ ∀ index ∈ [1, 3, 5], ∃ parent,
      next.state.tree.getNode index = some (.parent parent) ∧
      bob.state.tree.getNode index ≠ some (.parent parent) ∧
      ∀ direct path k, ¬ Announced crypto bob update index parent direct path k := by
  obtain ⟨_, hrun⟩ := planted_ok
  simp only [planted, expect, Py.bind_eq_ok, Py.require_eq_ok] at hrun
  obtain ⟨⟨alice, bob⟩, hpair, _, -, _, -, _, -, _, -, _, -, ⟨enc, ct⟩, -, _, -, leaf, -, commit, -,
    next, hnext, _, ⟨hfirst, hroot, hoff⟩, ctx, hctx, direct, hdirect, cop, hcop, found, hfound, _,
    ⟨rfl, rfl, hpath⟩, _, ⟨hderived, hannounced⟩, -⟩ := hrun
  refine ⟨bob, next, commit.update, aliceAndBob_reached hpair, hnext, fun index hindex => ?_⟩
  have hposition : ∀ {parent direct path k},
      Announced crypto bob commit.update index parent direct path k → [1, 3][k]? = some index := by
    intro parent direct path k h
    rw [← Except.ok.inj (h.direct_eq.symm.trans hdirect)]
    exact h.index_eq
  simp only [List.mem_cons, List.not_mem_nil, or_false] at hindex
  rcases hindex with rfl | rfl | rfl
  · refine ⟨_, hfirst.1, hfirst.2, fun direct path k h => ?_⟩
    obtain ⟨secret, hsecret, hpublic⟩ := h.derived ctx cop 0 zeros32 hctx hcop (by
      obtain rfl := Option.some.inj (h.path_eq.symm.trans hpath)
      exact hfound) (Nat.zero_le k)
    have hk := hposition h
    rcases k with _ | _ | k
    · obtain rfl := Except.ok.inj hsecret
      exact hderived hpublic
    · cases hk
    · cases hk
  · refine ⟨_, hroot.1, hroot.2, fun direct path k h => ?_⟩
    obtain rfl := Option.some.inj (h.path_eq.symm.trans hpath)
    obtain ⟨node, hnode, hkey⟩ := h.key
    have hk := hposition h
    rcases k with _ | _ | k
    · cases hk
    · cases hnode
      exact hannounced hkey
    · cases hk
  · refine ⟨_, hoff.1, hoff.2, fun direct path k h => ?_⟩
    have hk := hposition h
    rcases k with _ | _ | k <;> cases hk

namespace Sample

/-- Alice signs a tree without Bob, and seals the commit secret for the leaf that he has. -/
def dropped : Py (MLSGroup × LeafNode × GroupUpdate × MLSGroup) := do
  let (alice, bob) ← aliceAndBob
  let tree := alice.state.tree.blankNode 2
  let leaf ← leafAt bob.state.tree 2
  let ref ← makeKpRef crypto leaf.keyPackage
  let ctx ← makeGroupContext crypto bob.state.groupId (bob.state.epochId + 1) tree
    bob.interimTranscriptHash
  let (enc, ct) ← sealWithContext crypto ctx (kem 7) (key 20) zeros32
  let commit ← finishCommit crypto alice tree ⟨leaf.keyPackage,
    []⟩ (Dict.empty.set ref (enc ++ ct)) zeros32
  let next ← (bob.processUpdate crypto commit.update).2
  expect (bob.myIndex = 1 ∧ leaf.signatureKey = bob.mySigKey.publicBytes crypto ∧
    leaf.encryptionKey = bob.myKemKey.publicBytes crypto ∧ next.state.tree.getLeaf 2 = none)
  pure (bob, leaf, commit.update, next)

theorem dropped_ok : ∃ r, dropped = .ok r := Py.ok_of_isOk (by decide +kernel)

/-- Alice adds Bob under a second init key too, and removes the leaf that he has. -/
def addedTwice : Py (MLSGroup × LeafNode × MLSGroup × Committed × MLSGroup) := do
  let (alice, joined) ← aliceAndBob
  let again ← KeyPackage.create (key 20) (key 22) ((sig 20).publicBytes crypto) (ascii "joiner")
    ((sig 20).sign crypto)
  let added ← (Proposal.addMember again).commit crypto alice (coins 60)
  let bob ← (joined.processUpdate crypto added.update).2
  let leaf ← leafAt bob.state.tree 2
  let removed ← (Proposal.removeMember 1).commit crypto added.next (coins 80)
  let next ← (bob.processUpdate crypto removed.update).2
  expect (bob.myIndex = 1 ∧ leaf.signatureKey = bob.mySigKey.publicBytes crypto ∧
    leaf.encryptionKey = bob.myKemKey.publicBytes crypto ∧ next.state.tree.getLeaf 2 = none)
  pure (bob, leaf, added.next, removed, next)

theorem addedTwice_ok : ∃ r, addedTwice = .ok r := Py.ok_of_isOk (by decide +kernel)

def expectLaidOut (tree : RatchetTree) : Py Unit :=
  expect (tree.numLeaves = 2 ∧ tree.nodes.length = 3 ∧
    ∀ i < tree.nodes.length, (tree.getNode i).all (fun node => nodeType node = typeAt i) = true)

theorem laidOut_of_expect {tree : RatchetTree} {u : Unit} (h : expectLaidOut tree = .ok u) :
    tree.Sized 1 ∧ tree.LaidOut := by
  simp only [expectLaidOut, expect, Py.require_eq_ok] at h
  obtain ⟨hleaves, hlen, hkinds⟩ := h
  refine ⟨⟨hleaves, hlen⟩, by rw [hlen, hleaves], fun i node hnode => ?_⟩
  have hi := hkinds i (getNode_lt hnode)
  rwa [hnode, Option.all_some, decide_eq_true_eq] at hi

/-- Bob updates his key and Alice follows. -/
def followedBob : Py (MLSGroup × MLSGroup × Committed × MLSGroup × LeafNode) := do
  let (alice, bob) ← aliceAndBob
  let updated ← Proposal.updateKey.commit crypto bob (coins 60)
  let next ← (alice.processUpdate crypto updated.update).2
  let leaf ← leafAt alice.state.tree 0
  expectLaidOut alice.state.tree
  expectLaidOut bob.state.tree
  expectLaidOut updated.update.tree
  let tbs ← recomputedTbs crypto alice updated.update
  let tbs' ← recomputedTbs crypto bob updated.update
  expect (tbs = tbs')
  expect (∀ a ∈ alice.state.tree.hashInputs correct, ∀ b ∈ bob.state.tree.hashInputs correct,
    crypto.sha256 a = crypto.sha256 b → a = b)
  expect (alice.myIndex = 0 ∧ bob.myIndex = 1 ∧
    leaf.signatureKey = alice.mySigKey.publicBytes crypto ∧
      key 61 ≠ alice.myKemKey.publicBytes crypto)
  expect (updated.update.tree.resolution (some 0) = .ok [0] ∧
    ∀ i < updated.update.tree.nodes.length,
    (updated.update.tree.getNode i).map Node.publicKey = some (alice.myKemKey.publicBytes crypto) ↔
      i = 0)
  pure (alice, bob, updated, next, leaf)

theorem followedBob_ok : ∃ r, followedBob = .ok r := Py.ok_of_isOk (by decide +kernel)

/-- Whatever Bob's commit seals is sealed to Alice. -/
theorem opensForAlice {bob : MLSGroup} {coins : CommitCoins} {p : Proposal} {committed : Committed}
    (r : Built crypto bob coins p committed) {key : KemKey} (hbob : bob.myIndex = 1)
    (hsized : committed.update.tree.Sized 1)
    (hresolution : committed.update.tree.resolution (some 0) = .ok [0])
    (hkeys : ∀ i < committed.update.tree.nodes.length,
      (committed.update.tree.getNode i).map Node.publicKey = some (key.publicBytes crypto) ↔ i = 0)
    (hkinds : committed.update.tree.LaidOut) : r.path.OpensForRecipient key := by
  have hparent : committed.update.tree.getLeaf 1 = none := by
    cases hleaf : committed.update.tree.getLeaf 1 with
    | none => rfl
    | some leaf =>
        have hkind := hkinds.kinds _ _ (getLeaf_eq_some.mp hleaf)
        cases hkind
  have hkey := (hkeys 0 (by rw [hsized.2]; decide)).mpr rfl
  rw [r.update_tree] at hsized hresolution hkey hparent
  exact r.path.opensForRecipient_pair (l := 0) (r.path.sameSize.symm.sized hsized) (by decide)
    (by rintro hown; exact absurd (hown.trans hbob) (by decide)) hparent hresolution hkey

end Sample

open Sample in
/-- Alice keeps her leaf when she follows Bob's key update. -/
theorem accepted_commit_keeps_alice :
    ∃ (alice next : MLSGroup) (updated : Committed) (leaf : LeafNode),
    (alice.processUpdate crypto updated.update).2 = .ok next ∧
      next.state.tree.getLeaf (2 * alice.myIndex) = some leaf ∧
      leaf.signatureKey = alice.mySigKey.publicBytes crypto ∧
      leaf.encryptionKey = alice.myKemKey.publicBytes crypto := by
  obtain ⟨_, hrun⟩ := followedBob_ok
  simp only [followedBob, expect, Py.bind_eq_ok, Py.require_eq_ok] at hrun
  obtain ⟨⟨alice, bob⟩, -, updated, hupdate, next, hnext, leaf, hleaf, _, halice, _, hbob, _, htree,
    tbs, htbs, _, htbs', _, rfl, _, hhash, _, ⟨hzero, hone, hsigKey, hfresh⟩, _,
    ⟨hresolution, hkeys⟩, -⟩ := hrun
  obtain ⟨hsized, hlaid⟩ := laidOut_of_expect htree
  have hunique : ∀ index node, updated.update.tree.getNode index = some node →
      node.publicKey = alice.myKemKey.publicBytes crypto → index = 2 * alice.myIndex := by
    intro index node hnode hkey
    rw [hzero]
    refine (hkeys index (getNode_lt hnode)).mp ?_
    rw [hnode, Option.map_some, hkey]
  obtain ⟨leaf', hleaf'⟩ :=
    accepted_commit_keeps_leaf correct ((laidOut_of_expect halice).1.onWire (by decide))
    ((laidOut_of_expect hbob).1.onWire (by decide)) hupdate (hsized.onWire (by decide)) hlaid.kinds
      rfl hnext
    (unforged htbs htbs') (fun r => opensForAlice r hone hsized hresolution hkeys hlaid) hhash
      hunique hfresh
    (hzero ▸ leafAt_eq_ok hleaf) hsigKey
  exact ⟨alice, next, updated, leaf', hnext, hleaf'⟩

open Sample in
/-- Bob accepts a tree of Alice's without him. He also accepts a commit call of hers that removes
him when another leaf has his key. -/
theorem dropped_member_accepts :
    (∃ (bob next : MLSGroup) (update : GroupUpdate) (leaf : LeafNode), Reached crypto bob ∧
      bob.state.tree.getLeaf (2 * bob.myIndex) = some leaf ∧
      leaf.signatureKey = bob.mySigKey.publicBytes crypto ∧
      leaf.encryptionKey = bob.myKemKey.publicBytes crypto ∧
      (bob.processUpdate crypto update).2 = .ok next ∧
      next.state.tree.getLeaf (2 * bob.myIndex) = none) ∧
    ∃ (bob sender next : MLSGroup) (coins : CommitCoins) (p : Proposal) (committed : Committed)
      (leaf : LeafNode), p.commit crypto sender coins = .ok committed ∧
      bob.state.tree.getLeaf (2 * bob.myIndex) = some leaf ∧
      leaf.signatureKey = bob.mySigKey.publicBytes crypto ∧
      leaf.encryptionKey = bob.myKemKey.publicBytes crypto ∧
      (bob.processUpdate crypto committed.update).2 = .ok next ∧
      next.state.tree.getLeaf (2 * bob.myIndex) = none := by
  constructor
  · obtain ⟨_, hrun⟩ := dropped_ok
    simp only [dropped, expect, Py.bind_eq_ok, Py.require_eq_ok] at hrun
    obtain ⟨⟨alice, bob⟩, hpair, leaf, hleaf, ref, -, ctx, -, ⟨enc, ct⟩, -, commit, -, next, hnext,
      _, ⟨hone, hsigKey, hkemKey, hnone⟩, -⟩ := hrun
    exact ⟨bob, next, commit.update, leaf, aliceAndBob_reached hpair, hone ▸ leafAt_eq_ok hleaf,
      hsigKey, hkemKey, hnext, hone ▸ hnone⟩
  · obtain ⟨_, hrun⟩ := addedTwice_ok
    simp only [addedTwice, expect, Py.bind_eq_ok, Py.require_eq_ok] at hrun
    obtain ⟨⟨alice, joined⟩, -, again, -, added, -, bob, -, leaf, hleaf, removed, hremove, next,
      hnext, _, ⟨hone, hsigKey, hkemKey, hnone⟩, -⟩ := hrun
    exact ⟨bob, added.next, next, _, _, removed, leaf, hremove, hone ▸ leafAt_eq_ok hleaf, hsigKey,
      hkemKey, hnext, hone ▸ hnone⟩

open Sample in
/-- Alice's parents after she followed Bob's key update. -/
theorem accepted_commit_parents_alice : ∃ (alice next : MLSGroup) (updated : Committed),
    (alice.processUpdate crypto updated.update).2 = .ok next ∧ ∀ index parent,
      next.state.tree.getNode index = some (.parent parent) →
      alice.state.tree.getNode index = some (.parent parent) ∨
        ∃ direct path k, Announced crypto alice updated.update index parent direct path k := by
  obtain ⟨_, hrun⟩ := followedBob_ok
  simp only [followedBob, expect, Py.bind_eq_ok, Py.require_eq_ok] at hrun
  obtain ⟨⟨alice, bob⟩, -, updated, hupdate, next, hnext, leaf, -, _, halice, _, hbob, _, htree,
    tbs, htbs, _, htbs', _, rfl, _, hhash, -⟩ := hrun
  obtain ⟨hsized, hlaid⟩ := laidOut_of_expect halice
  obtain ⟨hsized', hlaid'⟩ := laidOut_of_expect hbob
  exact ⟨alice, next, updated, hnext, fun index parent hparent => accepted_commit_parents correct
    (hsized.onWire (by decide)) hlaid.kinds (hsized'.onWire (by decide)) hlaid' hupdate
    ((laidOut_of_expect htree).1.onWire (by decide)) rfl hnext (unforged htbs htbs')
    (fun r => opensAsSealed r.path _) hhash hparent⟩

end PureMls
