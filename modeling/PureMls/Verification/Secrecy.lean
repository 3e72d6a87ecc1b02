import PureMls.Verification.Origins

/-! # Who can open what

In the runs in which members commit one after another, the parties that know a path secret of the
tree are those with a leaf below its node, so a removed member can open nothing that follows. -/

namespace PureMls

open RatchetTree MLSGroup CompleteTree KeyGraph

variable {C : Crypto} {ι : Type}

/-! ## What is to be shown -/

/-- The private key of a node, which goes with its public key. -/
inductive Origins.KeyOf (history : List (Record C ι)) (o : Origins ι) (x : ℕ) :
    Node → Key ι → Prop where
  | leaf {leaf party} : o.member (x / 2) = some party → KeyOf history o x (.leaf leaf) (.own party)
  | parent {parent n i r secret} : o.secret x = some (n, i) → history[n]? = some r →
      r.built.path.secrets[i]? = some secret → nodePublic C secret = .ok parent.publicKey →
      KeyOf history o x (.parent parent) (.derived n i)

/-- Whoever knows the path secret behind a parent's public key has a leaf below the parent. -/
def SecretsContained (history : List (Record C ι)) (tree : RatchetTree) (o : Origins ι) : Prop :=
  ∀ x parent, tree.getNode x = some (.parent parent) → ∃ n i,
    o.KeyOf history x (.parent parent) (.derived n i) ∧
      ∀ party, Knows (events history) party n i →
        ∃ l leaf, o.member l = some party ∧ tree.getLeaf (2 * l) = some leaf ∧ Under x l

/-- The ciphertext is sealed to the public key of a node of the commit's tree, and the party never
holds the private key. -/
def SealedAway (history : List (Record C ι)) (r : Record C ι) (party : ι) (encCt : Bytes) : Prop :=
  ∃ x node key ctx ephemeral secret enc ct, r.committed.update.tree.getNode x = some node ∧
    sealWithContext C ctx ephemeral node.publicKey secret = .ok (enc, ct) ∧ encCt = enc ++ ct ∧
    r.after.KeyOf history x node key ∧ ¬ Holds (events history) party key

theorem SealedAway.append {history : List (Record C ι)} {r last : Record C ι} {party : ι}
    {encCt : Bytes} (h : SealedAway history r party encCt) (hordered : Ordered (events history)) :
    SealedAway (history ++ [last]) r party encCt := by
  obtain ⟨x, node, key, ctx, ephemeral, secret, enc, ct, hnode, hseal, hencCt, hkey, hnot⟩ := h
  refine ⟨x, node, key, ctx, ephemeral, secret, enc, ct, hnode, hseal, hencCt, ?_,
    fun hholds => hnot ?_⟩
  · cases hkey with
    | leaf hmember => exact .leaf hmember
    | parent hlabel hn hsecret hpublic =>
        exact .parent hlabel
          (by rw [List.getElem?_append_left (List.getElem?_eq_some_iff.mp hn).1, hn])
          hsecret hpublic
  · rw [events, List.map_append] at hholds
    refine Holds.of_append hordered ?_ hholds
    cases hkey with
    | leaf hmember => trivial
    | parent hlabel hn hsecret hpublic =>
        rw [events, List.length_map]
        exact (List.getElem?_eq_some_iff.mp hn).1

/-- From its removal on until it is added again, everything in the commits is sealed away from a
party. -/
def LocksOut (history : List (Record C ι)) : Prop :=
  ∀ (n m : ℕ) (removal r : Record C ι) party, history[n]? = some removal → removal.Removes party →
    n ≤ m → history[m]? = some r →
    (∀ k (r' : Record C ι), n ≤ k → k ≤ m → history[k]? = some r' → ¬ r'.Adds party) →
      ∀ encCt, r.committed.update.Carries encCt → SealedAway history r party encCt

/-! ## Secrets stay below their nodes -/

/-- The origins are those of the keys in the tree, each party has one leaf, and whoever knows the
path secret of a node has a leaf below the node. -/
structure Contained (history : List (Record C ι)) (tree : RatchetTree) (o : Origins ι) : Prop where
  sized : ∃ m ≤ 29, tree.Sized m
  merged : tree.Merged
  kinded : tree.Kinded
  occupied : ∀ l, (o.member l).isSome ↔ ∃ node, tree.getNode (2 * l) = some node
  distinct : ∀ l l' party, o.member l = some party → o.member l' = some party → l = l'
  ordered : Ordered (events history)
  labelled : ∀ x parent, tree.getNode x = some (.parent parent) → ∃ n i r secret,
    o.secret x = some (n, i) ∧ history[n]? = some r ∧ r.built.path.secrets[i]? = some secret ∧
      nodePublic C secret = .ok parent.publicKey
  old : ∀ x n i, o.secret x = some (n, i) → n < history.length
  below : ∀ x n i party, o.secret x = some (n, i) → Knows (events history) party n i →
    ∃ l, o.member l = some party ∧ Under x l

namespace Contained

variable {history : List (Record C ι)} {tree : RatchetTree}

theorem create {groupId : Bytes} {sigKey : SignatureKey} {kemKey initKey : KemKey}
    {handle : MLSGroup} {founder : ι}
    (h : MLSGroup.create C groupId sigKey kemKey initKey = .ok handle) :
    Contained (C := C) [] handle.state.tree (.create founder) := by
  obtain ⟨kp, tree, _, _, -, htree, -, rfl⟩ := MLSGroup.create_eq_ok h
  obtain ⟨hsize, hget⟩ := setLeaf_node htree
  change Contained [] tree (.create founder)
  have hleaf : ∀ x node, tree.getNode x = some node → x = 0 ∧ node = .leaf kp.leafNode := by
    intro x node hx
    rw [hget, getNode_new] at hx
    split_ifs at hx with hzero
    exact ⟨hzero.symm, (Option.some.inj hx).symm⟩
  refine ⟨⟨0, by decide, hsize.sized (sized_new 0)⟩, ?_, ?_, fun l => ?_, ?_, ?_, ?_, ?_, ?_⟩
  · intro x parent hx
    cases (hleaf x _ hx).2
  · intro x node hx
    obtain ⟨rfl, rfl⟩ := hleaf x node hx
    rfl
  · by_cases hl : l = 0
    · subst hl
      exact iff_of_true rfl ⟨_, (hget 0).trans (if_pos rfl)⟩
    · refine iff_of_false (by simp [Origins.create, hl]) ?_
      rintro ⟨node, hnode⟩
      have := (hleaf _ _ hnode).1
      omega
  · intro l l' party hl hl'
    simp only [Origins.create] at hl hl'
    split_ifs at hl hl' with hzero hzero'
    exact hzero.trans hzero'.symm
  · intro n e i key hn
    cases hn
  · intro x parent hx
    cases (hleaf x _ hx).2
  · intro x n i hx
    cases hx
  · intro x n i party hx
    cases hx

/-- Only the public part of the tree counts. -/
theorem congr {t : RatchetTree} {o : Origins ι} (h : Contained history tree o)
    (hcanon : t.canon = tree.canon) : Contained history t o := by
  have hmap : ∀ x, (t.getNode x).map Node.canon = (tree.getNode x).map Node.canon := fun x => by
    rw [← getNode_canon, hcanon, getNode_canon]
  have hnode : ∀ x node, t.getNode x = some node → ∃ node', tree.getNode x = some node' ∧
      node'.canon = node.canon := by
    intro x node hx
    have hx' := hmap x
    rw [hx] at hx'
    exact Option.map_eq_some_iff.mp hx'.symm
  have hparent : ∀ x parent, t.getNode x = some (.parent parent) →
    tree.getNode x = some (.parent parent) := by
    intro x parent hx
    obtain ⟨node, hget, heq⟩ := hnode x _ hx
    cases node with
    | leaf leaf => cases heq
    | parent parent' => exact hget.trans (congrArg some heq)
  obtain ⟨m, hm29, hm⟩ := h.sized
  refine ⟨⟨m, hm29, (occupied_congr hm hcanon).1⟩, h.merged.of_getNode hparent, ?_, fun l => ?_,
    h.distinct, h.ordered, fun x parent hx => h.labelled x parent (hparent x parent hx), h.old,
    h.below⟩
  · intro x node hx
    obtain ⟨node', hget, heq⟩ := hnode x node hx
    rw [← h.kinded x node' hget]
    cases node <;> cases node' <;> first | rfl | cases heq
  · rw [h.occupied, ← Option.isSome_iff_exists, ← Option.isSome_iff_exists,
      ← Option.isSome_map (f := Node.canon), ← hmap, Option.isSome_map]

/-- Every node has a private key. -/
theorem keyOf {o : Origins ι} (h : Contained history tree o) {x : ℕ} {node : Node}
    (hx : tree.getNode x = some node) : ∃ key, o.key x = some key ∧ o.KeyOf history x node key := by
  cases node with
  | leaf leaf =>
      have heven := h.kinded.leaf_even hx
      obtain ⟨party, hparty⟩ : ∃ party, o.member (x / 2) = some party := by
        rw [← Option.isSome_iff_exists, h.occupied]
        exact ⟨_, by rwa [Nat.mul_div_cancel' (Nat.dvd_of_mod_eq_zero heven)]⟩
      exact ⟨.own party, by rw [Origins.key, if_pos heven, hparty]; rfl, .leaf hparty⟩
  | parent parent =>
      have hodd := h.kinded.parent_odd hx
      obtain ⟨n, i, r, secret, hlabel, hn, hsecret, hpublic⟩ := h.labelled x parent hx
      refine ⟨.derived n i, ?_, .parent hlabel hn hsecret hpublic⟩
      rw [Origins.key, if_neg (by omega), hlabel]
      rfl

section Step

variable {r : Record C ι} (h : Contained history r.sender.state.tree r.before)
  (hown : r.before.member r.sender.myIndex = some r.committer)
  (hafter : r.after =
    (r.before.propose r.proposal r.sender.state.tree r.built.base r.joiner).refresh
    r.built.path.direct history.length)

include h hown in
theorem applied :
    r.proposal.Applied r.sender.state.tree r.built.base ∧ ∃ m ≤ 29, r.built.base.Sized m := by
  obtain ⟨m, hm29, hm⟩ := h.sized
  obtain ⟨node, hnode⟩ := (h.occupied r.sender.myIndex).mp (by rw [hown]; rfl)
  exact r.built.applied hm hm29 hnode

include h in
theorem tree_kinded : r.built.path.tree.Kinded :=
  ((h.kinded.base r.built.base_eq).setLeaf r.built.path.withLeaf_eq).setPathParents
    r.built.path.tree_eq

include h hown in
theorem tree_merged : r.built.path.tree.Merged := by
  obtain ⟨happlied, m, hm29, hm⟩ := h.applied hown
  exact r.built.path.merged hm (by omega) (happlied.merged h.merged)

include h in
/-- An added member gets a slot that nobody has. -/
theorem slot_free (hleaf : r.proposal.leaf.isSome) {l : ℕ}
    (hslot : r.proposal.slot r.sender.state.tree = some l) : r.before.member l = none := by
  obtain ⟨m, hm29, hm⟩ := h.sized
  rw [← Option.not_isSome_iff_eq_none, h.occupied, Proposal.slot_blank hm hleaf hslot]
  rintro ⟨node, hnode⟩
  cases hnode

include h hown in
theorem slot_ne : r.proposal.slot r.sender.state.tree ≠ some r.sender.myIndex := by
  intro hslot
  cases hp : r.proposal with
  | addMember kp =>
      rw [h.slot_free (by rw [hp]; rfl) hslot] at hown
      cases hown
  | removeMember target =>
      have htarget := r.built.target_eq target hp
      rw [hp, Proposal.slot, Option.some.injEq] at hslot
      omega
  | updateKey =>
      rw [hp] at hslot
      cases hslot

include hafter in
theorem member_after (l : ℕ) : r.after.member l =
    if r.proposal.slot r.sender.state.tree = some l then r.proposal.leaf.map fun _ => r.joiner
    else r.before.member l := by
  rw [hafter]
  rfl

include h hown hafter in
theorem member_committer : r.after.member r.sender.myIndex = some r.committer := by
  rw [member_after hafter, if_neg (h.slot_ne hown), hown]

include h hown hafter in
/-- Whoever is below a node that the proposal keeps is still there. -/
theorem member_kept {x l : ℕ} {kept : Node} {party : ι} (hx : r.built.base.getNode x = some kept)
    (hunder : Under x l) (hmember : r.before.member l = some party) :
    r.after.member l = some party := by
  rw [member_after hafter]
  split_ifs with hslot
  · exfalso
    cases hp : r.proposal with
    | addMember kp =>
        rw [h.slot_free (by rw [hp]; rfl) hslot] at hmember
        cases hmember
    | removeMember target =>
        obtain ⟨happlied, -⟩ := h.applied hown
        cases kept with
        | leaf leaf =>
            have heven := (h.kinded.base r.built.base_eq).leaf_even hx
            obtain ⟨y, rfl⟩ : ∃ y, x = 2 * y := ⟨x / 2, by omega⟩
            rw [under_leaf.mp hunder] at hslot
            rw [happlied.leaf, if_pos hslot, hp] at hx
            cases hx
        | parent parent =>
            refine (happlied.parent x parent hx).2 target hp ?_
            rw [hp, Proposal.slot, Option.some.injEq] at hslot
            rwa [hslot]
    | updateKey =>
        rw [hp] at hslot
        cases hslot
  · exact hmember

include hafter in
/-- A path secret is of this commit on its path, of an earlier one elsewhere. -/
theorem secret_after (x : ℕ) :
    (∃ i, r.built.path.direct[i]? = some x ∧ r.after.secret x = some (history.length, i)) ∨
      x ∉ r.built.path.direct ∧
        r.after.secret x = if (r.built.base.getNode x).isSome then r.before.secret x else none := by
  rw [hafter]
  cases hi : r.built.path.direct.idxOf? x with
  | some i =>
      obtain ⟨hlt, hget, -⟩ := List.idxOf?_eq_some_iff.mp hi
      refine .inl ⟨i, List.getElem?_eq_some_iff.mpr ⟨hlt, hget⟩, ?_⟩
      simp only [Origins.refresh, hi]
  | none =>
      refine .inr ⟨List.idxOf?_eq_none_iff.mp hi, ?_⟩
      simp only [Origins.refresh, hi, Origins.propose]

include hafter in
theorem secret_kept {x n i : ℕ} (hmem : x ∉ r.built.path.direct)
    (hx : r.after.secret x = some (n, i)) :
    ∃ kept, r.built.base.getNode x = some kept ∧ r.before.secret x = some (n, i) := by
  obtain ⟨i', hi', -⟩ | ⟨-, hsecret⟩ := secret_after hafter x
  · exact (hmem (List.mem_of_getElem? hi')).elim
  rw [hsecret] at hx
  split_ifs at hx with hkept
  obtain ⟨kept, hnode⟩ := Option.isSome_iff_exists.mp hkept
  exact ⟨kept, hnode, hx⟩

include h hown hafter in
/-- A recipient's key is a member's own, or comes from an earlier commit, and who is below the
recipient is below the node of the sealed secret. -/
theorem recipient {i : ℕ} {key : Key ι} (hseal : r.event.seals i key) :
    ∃ x, (∀ l, Under x l → Under (nodeAt (i + 1) (r.sender.myIndex / 2 ^ (i + 1))) l) ∧
      ((∃ l owner, x = 2 * l ∧ key = .own owner ∧ r.after.member l = some owner) ∨
        ∃ kept n j, r.built.base.getNode x = some kept ∧ key = .derived n j ∧
          r.before.secret x = some (n, j)) := by
  obtain ⟨happlied, m, hm29, hm⟩ := h.applied hown
  obtain ⟨x, hsealed, hkey⟩ := hseal
  obtain ⟨-, hmem, hunder⟩ := hsealed.under r.built.path hm (by omega) (h.tree_merged hown)
    h.tree_kinded
  refine ⟨x, hunder, ?_⟩
  rw [Origins.key] at hkey
  split_ifs at hkey with heven
  · obtain ⟨owner, howner, rfl⟩ := Option.map_eq_some_iff.mp hkey
    exact .inl ⟨x / 2, owner, by omega, rfl, howner⟩
  · obtain ⟨⟨n, j⟩, hsecret, rfl⟩ := Option.map_eq_some_iff.mp hkey
    rw [← (r.built.path.paths hm (by omega)).2.1] at hmem
    obtain ⟨kept, hnode, hbefore⟩ := secret_kept hafter hmem hsecret
    exact .inr ⟨kept, n, j, hnode, rfl, hbefore⟩

include h hown hafter in
theorem seals_before {i : ℕ} {key : Key ι} (hseal : r.event.seals i key) :
    key.Before (events history).length := by
  obtain ⟨x, -, ⟨_, _, -, rfl, -⟩ | ⟨_, n, j, -, rfl, hsecret⟩⟩ := h.recipient hown hafter hseal
  · trivial
  · rw [events, List.length_map]
    exact h.old x n j hsecret

include h hown hafter in
/-- Whoever knows a path secret of the commit has a leaf below its node. -/
theorem knows_below {i : ℕ} {party : ι}
    (hknows : Knows (events history ++ [r.event]) party (events history).length i) :
    ∃ l, r.after.member l = some party ∧ Under
      (nodeAt (i + 1) (r.sender.myIndex / 2 ^ (i + 1))) l := by
  refine Knows.region h.ordered (fun i key hseal => h.seals_before hown hafter hseal)
    (fun i party => ∃ l, r.after.member l = some party ∧
      Under (nodeAt (i + 1) (r.sender.myIndex / 2 ^ (i + 1))) l) ?_ ?_ ?_ hknows
  · intro i hi
    exact ⟨_, h.member_committer hown hafter, under_nodeAt.mpr rfl⟩
  · rintro i party - ⟨l, hmember, hunder⟩
    refine ⟨l, hmember, ?_⟩
    rw [pow_succ, ← Nat.div_div_eq_div_mul]
    exact hunder.parent
  · intro i key party hseal hholds
    obtain ⟨x, hunder, ⟨l, owner, rfl, rfl, hmember⟩ | ⟨kept, n, j, hnode, rfl, hsecret⟩⟩ :=
      h.recipient hown hafter hseal
    · -- a member's own key
      obtain rfl : owner = party := hholds
      exact ⟨l, hmember, hunder l (under_leaf.mpr rfl)⟩
    · -- the key of a node that is still as an earlier commit made it
      obtain ⟨l, hmember, hl⟩ := h.below x n j party hsecret hholds
      exact ⟨l, h.member_kept hown hafter hnode hl hmember, hunder l hl⟩

include h hown hafter in
theorem occupied_after (l : ℕ) :
    (r.after.member l).isSome ↔ ∃ node, r.built.path.tree.getNode (2 * l) = some node := by
  obtain ⟨happlied, m, hm29, hm⟩ := h.applied hown
  obtain ⟨hleaf, -, -⟩ := r.built.path.getNode_tree hm (by omega)
  by_cases hl : l = r.sender.myIndex
  · subst hl
    rw [h.member_committer hown hafter]
    exact iff_of_true rfl ⟨_, hleaf⟩
  · rw [r.built.path.getNode_other hm (by omega) hl, happlied.leaf, member_after hafter]
    split_ifs with hslot
    · rw [← Option.isSome_iff_exists, Option.isSome_map, Option.isSome_map]
    · exact h.occupied l

include h hafter in
theorem distinct_after (hjoiner : ∀ l party, r.Adds party → r.before.member l ≠ some party)
    {l l' : ℕ} {party : ι} (hl : r.after.member l = some party)
    (hl' : r.after.member l' = some party) : l = l' := by
  rw [member_after hafter] at hl hl'
  have hnew : ∀ {l}, (r.proposal.leaf.map fun _ => r.joiner) = some party →
    r.before.member l ≠ some party := by
    intro l hparty
    obtain ⟨leaf, hleaf, rfl⟩ := Option.map_eq_some_iff.mp hparty
    exact hjoiner l _ ⟨by rw [hleaf]; rfl, rfl⟩
  split_ifs at hl hl' with hslot hslot' hslot'
  · exact Option.some.inj (hslot.symm.trans hslot')
  · exact (hnew hl hl').elim
  · exact (hnew hl' hl).elim
  · exact h.distinct l l' party hl hl'

include h hown hafter in
/-- A parent has the public key of the path secret it is recorded to be from. -/
theorem labelled_after {x : ℕ} {parent : ParentNode}
    (hx : r.built.path.tree.getNode x = some (.parent parent)) :
    ∃ n i r' secret, r.after.secret x = some (n, i) ∧ (history ++ [r])[n]? = some r' ∧
      r'.built.path.secrets[i]? = some secret ∧ nodePublic C secret = .ok parent.publicKey := by
  obtain ⟨happlied, m, hm29, hm⟩ := h.applied hown
  obtain ⟨i, hi, hlabel⟩ | ⟨hmem, hlabel⟩ := secret_after hafter x
  · obtain ⟨secret, -, hsecret, hpublic, -⟩ := r.built.path.parent_eq hm (by omega) hi hx
    exact ⟨_, i, r, secret, hlabel, List.getElem?_concat_length, hsecret, hpublic⟩
  · obtain ⟨-, -, hrest⟩ := r.built.path.getNode_tree hm (by omega)
    rw [(r.built.path.paths hm (by omega)).2.1] at hmem
    have hodd := h.tree_kinded.parent_odd hx
    have hbase : r.built.base.getNode x = some (.parent parent) := by
      rw [← hrest x (by omega) hmem, hx]
    obtain ⟨n, i, r', secret, hbefore, hn, hsecret, hpublic⟩ :=
      h.labelled x parent (happlied.parent x parent hbase).1
    refine ⟨n, i, r', secret, ?_, ?_, hsecret, hpublic⟩
    · rw [hlabel, hbase, Option.isSome_some, if_pos rfl, hbefore]
    · rw [List.getElem?_append_left (List.getElem?_eq_some_iff.mp hn).1, hn]

include h hown hafter in
/-- A commit keeps the secrets below their nodes. -/
theorem step (hjoiner : ∀ l party, r.Adds party → r.before.member l ≠ some party) :
    Contained (history ++ [r]) r.committed.next.state.tree r.after := by
  obtain ⟨happlied, m, hm29, hm⟩ := h.applied hown
  have hdirect := (r.built.path.paths hm (by omega)).2.1
  have hevents : events (history ++ [r]) = events history ++ [r.event] := List.map_append
  have hlength : (events history).length = history.length := List.length_map ..
  rw [r.built.next_tree]
  refine ⟨⟨m, hm29, r.built.path.sameSize.sized hm⟩, h.tree_merged hown, h.tree_kinded,
    h.occupied_after hown hafter, fun l l' party => h.distinct_after hafter hjoiner, ?_,
    fun x parent => h.labelled_after hown hafter, ?_, ?_⟩
  · rw [hevents]
    exact h.ordered.concat fun i key => h.seals_before hown hafter
  · intro x n i hx
    rw [List.length_append, List.length_singleton]
    obtain ⟨k, -, hlabel⟩ | ⟨hmem, -⟩ := secret_after hafter x
    · rw [hlabel, Option.some.injEq, Prod.mk.injEq] at hx
      omega
    · obtain ⟨-, -, hbefore⟩ := secret_kept hafter hmem hx
      exact Nat.lt_succ_of_lt (h.old x n i hbefore)
  · intro x n i party hx hknows
    rw [hevents] at hknows
    obtain ⟨k, hk, hlabel⟩ | ⟨hmem, -⟩ := secret_after hafter x
    · rw [hlabel, Option.some.injEq, Prod.mk.injEq] at hx
      obtain ⟨rfl, rfl⟩ := hx
      rw [hdirect] at hk
      obtain ⟨-, rfl⟩ := getElem?_ancestors hk
      rw [← hlength] at hknows
      rw [Nat.zero_add, Nat.add_comm 1 k]
      exact h.knows_below hown hafter hknows
    · obtain ⟨kept, hnode, hbefore⟩ := secret_kept hafter hmem hx
      have hold : n < (events history).length := hlength ▸ h.old x n i hbefore
      obtain ⟨l, hmember, hunder⟩ := h.below x n i party hbefore (hknows.of_append h.ordered hold)
      exact ⟨l, h.member_kept hown hafter hnode hunder hmember, hunder⟩

include h hown hafter in
/-- A party without a leaf after the commit holds no key that it seals to. -/
theorem sealedAway (hjoiner : ∀ l party, r.Adds party → r.before.member l ≠ some party) {party : ι}
    (habsent : ∀ l, r.after.member l ≠ some party) {encCt : Bytes}
    (hcarries : r.committed.update.Carries encCt) : SealedAway (history ++ [r]) r party encCt := by
  obtain ⟨happlied, m, hm29, hm⟩ := h.applied hown
  obtain ⟨x, secret, enc, ct, rfl, hseals⟩ := r.built.carries_seals hcarries
  obtain ⟨node, ephemeral, hnode, hsealed⟩ := hseals.node
  obtain ⟨i, -, hlevel⟩ := hseals.sealsTo r.built.path hm (by omega)
  have hlast := h.step hown hafter hjoiner
  rw [r.built.next_tree] at hlast
  obtain ⟨key, hkey, hkeyOf⟩ := hlast.keyOf hnode
  refine ⟨x, node, key, _, ephemeral, secret, enc, ct, ?_, hsealed, rfl, hkeyOf, fun hholds => ?_⟩
  · rw [r.built.update_eq]
    exact hnode
  · obtain ⟨x, -, ⟨l, owner, rfl, rfl, hmember⟩ | ⟨kept, n, j, hkept, rfl, hsecret⟩⟩ :=
      h.recipient hown hafter ⟨x, hlevel, hkey⟩
    · obtain rfl : owner = party := hholds
      exact habsent l hmember
    · have hold : n < (events history).length := by
        rw [events, List.length_map]
        exact h.old x n j hsecret
      rw [events, List.map_append] at hholds
      obtain ⟨l, hmember, hunder⟩ :=
        h.below x n j party hsecret (Knows.of_append h.ordered hold hholds)
      exact habsent l (h.member_kept hown hafter hkept hunder hmember)

end Step

end Contained

/-! ## Runs keep it -/

namespace SecretRun

variable {history : List (Record C ι)} {tree : RatchetTree} {o : Origins ι}

theorem contained (h : SecretRun C history tree o) : Contained history tree o := by
  induction h with
  | create founder hcreate => exact Contained.create hcreate
  | commit r hrun htree hcommit hown hjoiner hafter ih =>
      exact (ih.congr htree).step hown hafter hjoiner

/-- A removed party has no leaf until it is added again. -/
theorem absent (h : SecretRun C history tree o) {n : ℕ} {removal : Record C ι} {party : ι}
    (hn : history[n]? = some removal) (hremoves : removal.Removes party)
    (hnot : ∀ k r, n ≤ k → history[k]? = some r → ¬ r.Adds party) (l : ℕ) :
    o.member l ≠ some party := by
  induction h generalizing l with
  | create founder hcreate => cases hn
  | @commit history tree r hrun htree hcommit hown hjoiner hafter ih =>
      rw [Contained.member_after hafter]
      by_cases hlt : n < history.length
      · rw [List.getElem?_append_left hlt] at hn
        have hbefore := ih hn fun k r' hk hget => hnot k r' hk
          (by rw [List.getElem?_append_left (List.getElem?_eq_some_iff.mp hget).1, hget])
        have hlast := hnot history.length r hlt.le List.getElem?_concat_length
        split_ifs with hslot
        · intro hparty
          obtain ⟨leaf, hleaf, hjoins⟩ := Option.map_eq_some_iff.mp hparty
          exact hlast ⟨by rw [hleaf]; rfl, hjoins⟩
        · exact hbefore l
      · obtain ⟨hle, -⟩ := List.getElem?_eq_some_iff.mp hn
        rw [List.length_append, List.length_singleton] at hle
        obtain rfl : n = history.length := by omega
        rw [List.getElem?_concat_length, Option.some.injEq] at hn
        subst hn
        obtain ⟨target, hproposal, hmember⟩ := hremoves
        split_ifs with hslot
        · rw [hproposal]
          rintro ⟨⟩
        · intro hparty
          obtain rfl := hrun.contained.distinct l target.toNat party hparty hmember
          rw [hproposal, Proposal.slot] at hslot
          exact hslot rfl

/-- Every member can commit, and add whoever is no member. -/
theorem extend (h : SecretRun C history tree o) {sender : MLSGroup} {coins : CommitCoins}
    {p : Proposal} {committed : Committed} {committer : ι} (joiner : ι)
    (htree : sender.state.tree.canon = tree.canon)
    (hcommit : p.commit C sender coins = .ok committed)
    (hown : o.member sender.myIndex = some committer)
    (hjoiner : p.leaf.isSome → ∀ l, o.member l ≠ some joiner) :
    ∃ r : Record C ι, SecretRun C (history ++ [r]) committed.next.state.tree r.after ∧
      r.proposal = p ∧ r.before = o ∧ ∀ l, r.after.member l =
        if p.slot sender.state.tree = some l then p.leaf.map fun _ => joiner else o.member l := by
  obtain ⟨built⟩ := Proposal.commit_eq_ok hcommit
  let after :=
    (o.propose p sender.state.tree built.base joiner).refresh built.path.direct history.length
  let r : Record C ι := ⟨sender, coins, p, committed, built, committer, joiner, o, after⟩
  refine ⟨r, .commit r h htree hcommit hown ?_ rfl, rfl, rfl, fun l => rfl⟩
  rintro l party ⟨hleaf, rfl⟩
  exact hjoiner hleaf l

theorem secretsContained (h : SecretRun C history tree o) : SecretsContained history tree o := by
  intro x parent hx
  have hcontained := h.contained
  obtain ⟨key, -, hkey⟩ := hcontained.keyOf hx
  cases hkey with
  | @parent _ n i _ _ hlabel hn hsecret hpublic =>
      refine ⟨n, i, .parent hlabel hn hsecret hpublic, fun party hknows => ?_⟩
      obtain ⟨l, hmember, hunder⟩ := hcontained.below x n i party hlabel hknows
      obtain ⟨node, hnode⟩ := (hcontained.occupied l).mp (by rw [hmember]; rfl)
      cases node with
      | leaf leaf => exact ⟨l, leaf, hmember, getLeaf_eq_some.mpr hnode, hunder⟩
      | parent parent =>
          have hodd := hcontained.kinded.parent_odd hnode
          omega

/-- In a run nothing is sealed to a removed party's keys until it is added again. -/
theorem locksOut (h : SecretRun C history tree o) : LocksOut history := by
  induction h with
  | create founder hcreate =>
      intro n m removal r party hn
      cases hn
  | @commit history tree last hrun htree hcommit hown hjoiner hafter ih =>
      intro n m removal r party hn hremoves hle hm hnot encCt hcarries
      obtain ⟨hlt, -⟩ := List.getElem?_eq_some_iff.mp hm
      rw [List.length_append, List.length_singleton] at hlt
      by_cases hold : m < history.length
      · rw [List.getElem?_append_left (by omega)] at hn hm
        refine (ih n m removal r party hn hremoves hle hm (fun k r' hk hkm hget => ?_) encCt
          hcarries).append
          hrun.contained.ordered
        exact hnot k r' hk hkm (by rw [List.getElem?_append_left (by omega), hget])
      · obtain rfl : m = history.length := by omega
        rw [List.getElem?_concat_length, Option.some.injEq] at hm
        subst hm
        have habsent :=
          (SecretRun.commit last hrun htree hcommit hown hjoiner hafter).absent hn hremoves
          fun k r' hk hget => hnot k r' hk (by
            have := (List.getElem?_eq_some_iff.mp hget).1
            rw [List.length_append, List.length_singleton] at this
            omega) hget
        exact (hrun.contained.congr htree).sealedAway hown hafter hjoiner habsent hcarries

end SecretRun

/-- In every run the parties that know a path secret of the tree have a leaf below its node, and no
ciphertext of a commit is sealed to a key that a removed party ever holds. -/
theorem path_secrets_contained {history : List (Record C ι)} {tree : RatchetTree} {o : Origins ι}
    (h : SecretRun C history tree o) : SecretsContained history tree o ∧ LocksOut history :=
  ⟨h.secretsContained, h.locksOut⟩

namespace Sample

/-- Alice, who is party 0, adds Bob, party 1, and he removes her. -/
theorem removed_run : ∃ (history : List (Record crypto ℕ)) (tree : RatchetTree) (o : Origins ℕ),
    SecretRun crypto history tree o ∧ ∃ removal ∈ history, removal.Removes 0 := by
  obtain ⟨_, hrun⟩ := removedTwice_ok
  simp only [removedTwice, expect, Py.bind_eq_ok, Py.require_eq_ok] at hrun
  obtain ⟨kp, -, alice, hcreate, added, hadd, bob, -, removed, hremove, _, -, _,
    ⟨htree, hbob, -, -, hzero⟩, -⟩ := hrun
  obtain ⟨-, hoccupied⟩ := GroupRun.create_tree hcreate
  obtain ⟨slot, hplace, hfree, hleftmost, -⟩ := placement_leftmost alice.state.tree
  rw [hoccupied] at hfree hleftmost
  have hslot : (Proposal.addMember kp).slot alice.state.tree = some 1 := by
    have hone : slot = 1 := by
      have := hleftmost 1
      simp only [Finset.mem_singleton] at hfree this
      omega
    rw [Proposal.slot, hplace, hone]
  obtain ⟨first, hfirst, -, -, hmembers⟩ := (SecretRun.create 0 hcreate).extend 1 rfl hadd
    (by rw [hzero]; rfl) fun _ l => by
      simp only [Origins.create]
      split_ifs <;> simp
  rw [hslot] at hmembers
  obtain ⟨removal, hremoval, hproposal, hbefore, -⟩ := hfirst.extend 1 htree hremove
    (by rw [hbob, hmembers]; rfl) (by rintro ⟨⟩)
  refine ⟨_, _, _, hremoval, removal, by simp, 0, hproposal, ?_⟩
  rw [hbefore, hmembers]
  rfl

end Sample

/-- What is known and what is sealed in Alice's and Bob's run. -/
theorem path_secrets_contained_bob :
    ∃ (history : List (Record Sample.crypto ℕ)) (tree : RatchetTree)
    (o : Origins ℕ), (∃ removal ∈ history, removal.Removes 0) ∧ SecretsContained history tree o ∧
      LocksOut history := by
  obtain ⟨history, tree, o, hrun, hremoves⟩ := Sample.removed_run
  exact ⟨history, tree, o, hremoves, path_secrets_contained hrun⟩

end PureMls
