import PureMls.Foundation.KeyGraph
import PureMls.Verification.Membership
import PureMls.Verification.Seals
import PureMls.Verification.TreeBinding

/-! # Where the keys come from

The seals of a commit, and the runs in which members of a group commit one after another, with the
party that has each leaf and the commit that drew the path secret of each parent. -/

namespace PureMls

open RatchetTree MLSGroup CompleteTree KeyGraph

variable {C : Crypto} {ι : Type}

/-! ## The seals of a commit -/

section Seals

variable {sender : MLSGroup} {coins : CommitCoins} {sealLeaf : LeafSeal}
  {indices : RatchetTree → List ℕ} {base : RatchetTree}

/-- The commit seals the path secret of a level to the public key of a node. -/
inductive BuiltPath.SealsTo (b : BuiltPath C sender coins sealLeaf indices base) :
    ℕ → ℕ → Prop where
  | path {i cop resolved x node} : i < b.secrets.length → b.cop[i]? = some cop →
      b.tree.resolution cop = .ok resolved → x ∈ resolved → b.tree.getNode x = some node →
        SealsTo b i x
  | fallback {i x leaf} : i + 1 = b.secrets.length → x ≠ 2 * sender.myIndex →
      b.tree.getLeaf x = some leaf → SealsTo b i x

namespace BuiltPath

variable {m : ℕ} (b : BuiltPath C sender coins sealLeaf indices base)

/-- Every seal has a level, and its plaintext is the path secret there. -/
theorem Seals.sealsTo (hm : base.Sized m) (hm32 : m ≤ 32) {x : ℕ} {secret enc ct : Bytes}
    (h : b.Seals x secret enc ct) : ∃ i, b.secrets[i]? = some secret ∧ b.SealsTo i x := by
  cases h with
  | path hcop hsecret hresolved hj hnode hseal =>
      exact ⟨_, hsecret, .path (List.getElem?_eq_some_iff.mp hsecret).1 hcop hresolved
        (List.mem_of_getElem? hj) hnode⟩
  | @fallback _ leaf _ _ hne hleaf hseal =>
      obtain ⟨hslot, -⟩ := b.paths hm hm32
      obtain ⟨-, -, hs, -⟩ := b.lengths hm hm32
      have hlt := getNode_lt (getLeaf_eq_some.mp hleaf)
      rw [(b.sameSize.sized hm).2, pow_succ] at hlt
      have hpos : b.secrets ≠ [] := by
        -- a tree of one leaf has no other leaf to seal to
        rintro hnil
        rw [hnil, List.length_nil] at hs
        subst hs
        omega
      have hlast := List.getLast?_eq_some_getLast hpos
      refine ⟨b.secrets.length - 1, ?_, .fallback ?_ hne hleaf⟩
      · rw [commitSecret, hlast, Option.getD_some, ← hlast, List.getLast?_eq_getElem?]
      · have := List.length_pos_iff.mpr hpos
        omega

theorem Seals.node {x : ℕ} {secret enc ct : Bytes} (h : b.Seals x secret enc ct) :
    ∃ node ephemeral, b.tree.getNode x = some node ∧
      sealWithContext C b.ctx ephemeral node.publicKey secret = .ok (enc, ct) := by
  cases h with
  | path hcop hsecret hresolved hj hnode hseal => exact ⟨_, _, hnode, hseal⟩
  | fallback hne hleaf hseal => exact ⟨_, _, getLeaf_eq_some.mp hleaf, hseal⟩

/-- The recipient of a seal is not on the committer's path, and who is below it is below the node
that the sealed secret belongs to. -/
theorem SealsTo.under (hm : base.Sized m) (hm32 : m ≤ 32) (hmerged : b.tree.Merged)
    (hkinds : b.tree.Kinded) {i x : ℕ} (h : b.SealsTo i x) :
    (∃ node, b.tree.getNode x = some node) ∧ x ∉ ancestors sender.myIndex 0 m ∧
      ∀ l, Under x l → Under (nodeAt (i + 1) (sender.myIndex / 2 ^ (i + 1))) l := by
  have hsized : b.tree.Sized m := b.sameSize.sized hm
  obtain ⟨hslot, -, hcop⟩ := b.paths hm hm32
  cases h with
  | @path cop resolved _ node hi hcopath hresolved hx hnode =>
      rw [hcop, List.getElem?_map, Option.map_eq_some_iff] at hcopath
      obtain ⟨sibling, hsibling, rfl⟩ := hcopath
      obtain ⟨-, rfl⟩ := getElem?_siblings hsibling
      rw [Nat.zero_add] at hresolved
      have hunder := resolution_under hmerged hsized hm32 hresolved x hx
      refine ⟨⟨node, hnode⟩, fun hmem => ?_, fun l hl => ?_⟩
      · -- an ancestor of the committer is not in the other half
        obtain ⟨k, -, -, rfl⟩ := ancestors_ge hmem
        have hown := hunder sender.myIndex (under_nodeAt.mpr rfl)
        rw [under_nodeAt] at hown
        exact siblingIndex_ne _ hown.symm
      · have hparent := (hunder l hl).parent
        rwa [siblingIndex_div_two, Nat.div_div_eq_div_mul, ← pow_succ] at hparent
  | @fallback _ leaf hi hne hleaf =>
      have hnode := getLeaf_eq_some.mp hleaf
      have heven := hkinds.leaf_even hnode
      obtain ⟨slot, rfl⟩ : ∃ slot, x = 2 * slot := ⟨x / 2, by omega⟩
      refine ⟨⟨_, hnode⟩, leaf_notMem_ancestors, fun l hl => ?_⟩
      obtain rfl := under_leaf.mp hl
      have hlt := getNode_lt hnode
      rw [hsized.2, pow_succ] at hlt
      rw [hi, (b.lengths hm hm32).2.2.1, under_nodeAt, Nat.div_eq_of_lt (by omega),
        Nat.div_eq_of_lt hslot]

end BuiltPath

end Seals

/-! ## What a commit carries -/

/-- A ciphertext of the commit, with its encapsulated key in front: of a path node or of the
fallback. -/
inductive GroupUpdate.Carries (update : GroupUpdate) : Bytes → Prop where
  | path {path node ct} : update.updatePath = some path → node ∈ path.nodes →
      ct ∈ node.encryptedPathSecret → Carries update (ct.kemOutput ++ ct.ciphertext)
  | fallback {ref encCt} : update.encryptedCommitSecrets.get? ref = some encCt →
      Carries update encCt

namespace MLSGroup

theorem sealPath_mem {tree : RatchetTree} {ctx : GroupContext} {ephemeral : ℕ → ℕ → KemKey} {i : ℕ}
    {path : List (Option ℕ × Bytes × Bytes)} {nodes : List UpdatePathNode}
    (h : sealPath C tree ctx ephemeral i path = .ok nodes) {node : UpdatePathNode}
    (hnode : node ∈ nodes) :
    ∃ k entry resolved, path[k]? = some entry ∧ tree.resolution entry.1 = .ok resolved ∧
      sealResolution C tree ctx
        (ephemeral (i + k)) entry.2.1 0 resolved = .ok node.encryptedPathSecret := by
  induction path generalizing i nodes with
  | nil =>
      cases h
      cases hnode
  | cons first path ih =>
      obtain ⟨cop, pathSecret, pub⟩ := first
      simp only [sealPath, Py.bind_eq_ok, Py.pure_eq, Except.ok.injEq] at h
      obtain ⟨resolved, hresolved, cts, hcts, rest, hrest, rfl⟩ := h
      rcases List.mem_cons.mp hnode with rfl | hnode
      · exact ⟨0, _, resolved, rfl, hresolved, hcts⟩
      · obtain ⟨k, entry, resolved, hk, hresolved, hseal⟩ := ih hrest hnode
        rw [Nat.add_assoc, Nat.add_comm 1 k] at hseal
        exact ⟨k + 1, entry, resolved, hk, hresolved, hseal⟩

end MLSGroup

/-- Everything a commit carries is one of its seals. -/
theorem Built.carries_seals {sender : MLSGroup} {coins : CommitCoins} {p : Proposal}
    {committed : Committed} (b : Built C sender coins p committed) {encCt : Bytes}
    (h : committed.update.Carries encCt) :
    ∃ x secret enc ct, encCt = enc ++ ct ∧ b.path.Seals x secret enc ct := by
  rw [b.update_eq] at h
  cases h with
  | @path path node ct hpath hnode hct =>
      obtain rfl : (⟨b.path.keyPackage, b.path.nodes⟩ : UpdatePath) = path := Option.some.inj hpath
      obtain ⟨k, ⟨cop, secret, pub⟩, resolved, hk, hresolved, hseal⟩ :=
        sealPath_mem b.path.nodes_eq hnode
      obtain ⟨hcop, hrest⟩ := List.getElem?_zip_eq_some.mp hk
      obtain ⟨hsecret, -⟩ := List.getElem?_zip_eq_some.mp hrest
      obtain ⟨j, x, recipient, hj, hrecipient, hsealed⟩ := sealResolution_mem hseal hct
      rw [Nat.zero_add, Nat.zero_add] at hsealed
      exact ⟨x, secret, _, _, rfl, .path hcop hsecret hresolved hj hrecipient hsealed⟩
  | @fallback ref _ hget =>
      obtain ⟨x, leaf, hne, hleaf, hentry⟩ := sealFallback_entry p.sealsLeaf b.path.fallback_eq hget
      obtain ⟨-, enc, ct, rfl, hseal⟩ := p.sealsLeaf _ _ _ _ _ _ hentry
      exact ⟨x, _, enc, ct, rfl, .fallback hne hleaf hseal⟩

/-! ## The origins of the keys -/

/-- Who has each leaf, and of which commit and level the path secret of each parent is. -/
structure Origins (ι : Type) where
  member : ℕ → Option ι
  secret : ℕ → Option (ℕ × ℕ)

namespace Origins

/-- The private key of a node. -/
def key (o : Origins ι) (x : ℕ) : Option (Key ι) :=
  if x % 2 = 0 then (o.member (x / 2)).map .own
  else (o.secret x).map fun secret => .derived secret.1 secret.2

def create (founder : ι) : Origins ι :=
  ⟨fun l => if l = 0 then some founder else none, fun _ => none⟩

/-- After a proposal: its slot has the joiner or nobody, and blank nodes have no secret. -/
def propose (o : Origins ι) (p : Proposal) (tree base : RatchetTree) (joiner : ι) : Origins ι where
  member l := if p.slot tree = some l then p.leaf.map fun _ => joiner else o.member l
  secret x := if (base.getNode x).isSome then o.secret x else none

/-- After the `n`-th commit has refreshed a path. -/
def refresh (o : Origins ι) (direct : List ℕ) (n : ℕ) : Origins ι where
  member := o.member
  secret x :=
    match direct.idxOf? x with
    | some i => some (n, i)
    | none => o.secret x

end Origins

/-! ## Runs -/

/-- A successful commit call, who made it, whom an `add_member` added, and the origins after it. -/
structure Record (C : Crypto) (ι : Type) where
  sender : MLSGroup
  coins : CommitCoins
  proposal : Proposal
  committed : Committed
  built : Built C sender coins proposal committed
  committer : ι
  joiner : ι
  before : Origins ι
  after : Origins ι

namespace Record

/-- What the commit tells whom. -/
def event (r : Record C ι) : Event ι where
  author := r.committer
  levels := r.built.path.secrets.length
  seals i key := ∃ x, r.built.path.SealsTo i x ∧ r.after.key x = some key

def Adds (r : Record C ι) (party : ι) : Prop := r.proposal.leaf.isSome ∧ r.joiner = party

/-- The commit removes the party from its leaf. -/
def Removes (r : Record C ι) (party : ι) : Prop :=
  ∃ target, r.proposal = .removeMember target ∧ r.before.member target.toNat = some party

end Record

def events (history : List (Record C ι)) : List (Event ι) := history.map Record.event

/-- The runs in which members of a group commit one after another: whoever commits has the group's
tree, perhaps off the wire, and is the party at its leaf; whoever is added is no member. -/
inductive SecretRun (C : Crypto) : List (Record C ι) → RatchetTree → Origins ι → Prop where
  | create {groupId sigKey kemKey initKey handle} (founder : ι) :
      MLSGroup.create C groupId sigKey kemKey initKey = .ok handle →
      SecretRun C [] handle.state.tree (.create founder)
  | commit {history tree} (r : Record C ι) : SecretRun C history tree r.before →
      r.sender.state.tree.canon = tree.canon →
      r.proposal.commit C r.sender r.coins = .ok r.committed →
      r.before.member r.sender.myIndex = some r.committer →
      (∀ l party, r.Adds party → r.before.member l ≠ some party) →
      r.after = (r.before.propose r.proposal r.sender.state.tree r.built.base r.joiner).refresh
        r.built.path.direct history.length →
      SecretRun C (history ++ [r]) r.committed.next.state.tree r.after

end PureMls
