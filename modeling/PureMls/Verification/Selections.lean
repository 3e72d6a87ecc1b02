import PureMls.Model.Receive

/-! # Which ciphertext of a commit a member opens

`process_update` looks for the member in the resolutions of the copath, then under its key package
reference. What it finds is opened and advanced to the commit secret. -/

namespace PureMls

namespace RatchetTree

variable {tree : RatchetTree} {own : ℕ}

/-- The nodes of a resolution that a path secret is sealed to: blank entries are skipped. -/
def recipients (tree : RatchetTree) (resolved : List ℕ) : List ℕ :=
  resolved.filter fun i => (tree.getNode i).isSome

/-- The node that the ciphertext at the member's position was sealed to, in the first resolution
that has the member and a ciphertext there. -/
def addressee (tree : RatchetTree) (own : ℕ) : List (Option ℕ) → Py (Option ℕ)
  | [] => pure none
  | cop :: cops => do
    let resolved ← tree.resolution cop
    match (resolved.idxOf? own).bind ((tree.recipients resolved)[·]?) with
    | some index => pure (some index)
    | none => addressee tree own cops

/-- No blank entry stands before the member in the resolutions. -/
def Unshifted (tree : RatchetTree) (own : ℕ) (cops : List (Option ℕ)) : Prop :=
  ∀ cop ∈ cops, ∀ resolved, tree.resolution cop = .ok resolved → own ∈ resolved →
    ∀ i ∈ resolved.takeWhile (· ≠ own), ∃ node, tree.getNode i = some node

/-- With no blank before it a member's position is its own among the recipients. -/
theorem recipients_idxOf {resolved : List ℕ} (hmem : own ∈ resolved)
    (hown : ∃ node, tree.getNode own = some node)
    (hbefore : ∀ i ∈ resolved.takeWhile (· ≠ own), ∃ node, tree.getNode i = some node) :
    ∃ k, resolved.idxOf? own = some k ∧ (tree.recipients resolved)[k]? = some own := by
  induction resolved with
  | nil => cases hmem
  | cons first resolved ih =>
      by_cases heq : first = own
      · obtain ⟨node, hnode⟩ := hown
        subst heq
        refine ⟨0, by simp [List.idxOf?_cons], ?_⟩
        rw [recipients, List.filter_cons_of_pos (by rw [hnode]; rfl), List.getElem?_cons_zero]
      · have hrest : own ∈ resolved := (List.mem_cons.mp hmem).resolve_left (Ne.symm heq)
        rw [List.takeWhile_cons_of_pos (by simpa using heq)] at hbefore
        obtain ⟨node, hnode⟩ := hbefore first List.mem_cons_self
        obtain ⟨k, hk, hat⟩ := ih hrest fun i hi => hbefore i (List.mem_cons_of_mem _ hi)
        refine ⟨k + 1, ?_, ?_⟩
        · rw [List.idxOf?_cons, if_neg (by simpa using heq), hk]
          rfl
        · rw [recipients, List.filter_cons_of_pos (by rw [hnode]; rfl), List.getElem?_cons_succ]
          exact hat

/-- With no blank before it a member is addressed itself, or is in none of the resolutions. -/
theorem Unshifted.addressee {cops : List (Option ℕ)} (h : tree.Unshifted own cops)
    (hown : ∃ node, tree.getNode own = some node) {found : Option ℕ}
    (hfound : tree.addressee own cops = .ok found) : found = some own ∨
      found = none ∧ ∀ cop ∈ cops, ∀ resolved, tree.resolution cop = .ok resolved →
        own ∉ resolved := by
  induction cops with
  | nil =>
      cases hfound
      exact .inr ⟨rfl, fun cop hcop => by cases hcop⟩
  | cons cop cops ih =>
      obtain ⟨resolved, hresolved, hrest⟩ := Py.bind_eq_ok.mp hfound
      by_cases hmem : own ∈ resolved
      · obtain ⟨k, hk, hat⟩ :=
          recipients_idxOf hmem hown (h cop List.mem_cons_self resolved hresolved hmem)
        rw [hk, Option.bind_some, hat] at hrest
        exact .inl (Except.ok.inj hrest).symm
      · rw [List.idxOf?_eq_none_iff.mpr hmem, Option.bind_none] at hrest
        rcases ih (fun cop' hcop' => h cop' (List.mem_cons_of_mem _ hcop')) hrest with hsome |
          ⟨hnone, hall⟩
        · exact .inl hsome
        · refine .inr ⟨hnone, fun cop' hcop' resolved' hresolved' => ?_⟩
          rcases List.mem_cons.mp hcop' with rfl | hcop'
          · rwa [← Except.ok.inj (hresolved.symm.trans hresolved')]
          · exact hall cop' hcop' resolved' hresolved'

end RatchetTree

open RatchetTree

namespace MLSGroup

/-- A ciphertext of a commit, and the steps from what it holds to the commit secret. -/
structure Selection where
  kemOutput : Bytes
  ciphertext : Bytes
  steps : ℕ

/-- The ciphertext at the member's position in the first resolution that has one there. -/
def selectFromPath (self : MLSGroup) (tree : RatchetTree) (total : ℕ) :
    ℕ → List (Option ℕ × UpdatePathNode) → Py (Option Selection)
  | _, [] => pure none
  | i, (cop, node) :: path => do
    let resolved ← tree.resolution cop
    let ct := (resolved.idxOf? (2 * self.myIndex)).bind (node.encryptedPathSecret[·]?)
    match ct with
    | some ct => pure (some ⟨ct.kemOutput, ct.ciphertext, total - i - 1⟩)
    | none => selectFromPath self tree total (i + 1) path

/-- The entry under the member's reference. -/
def selectFallback (secrets : Dict Bytes Bytes) (myKpRef : Bytes) : Py Selection :=
  match secrets.get? myKpRef with
  | none => .error (.valueError "Not invited to this epoch (KeyPackageRef not found in commit)")
  | some encCt => pure ⟨encCt.take 32, encCt.drop 32, 0⟩

/-- The context of the commit's ciphertexts, and the one that is opened. -/
def select (C : Crypto) (self : MLSGroup) (update : GroupUpdate) :
    Py (GroupContext × Selection) := do
  let leaf ← match self.state.tree.getLeaf (2 * self.myIndex) with
    | some leaf => pure leaf
    | none => .error (.valueError "My leaf node not found in tree")
  let ctx ← makeGroupContext C self.state.groupId update.epochId update.tree
    self.interimTranscriptHash
  let myKpRef ← makeKpRef C leaf.keyPackage
  let fromPath ← match update.updatePath with
    | none => pure none
    | some path =>
      if path.nodes = [] then pure none
      else do
        let direct ← update.tree.directPath (2 * update.committerIndex)
        let cop ← update.tree.copath (2 * update.committerIndex)
        self.selectFromPath update.tree direct.length 0 (cop.zip path.nodes)
  match fromPath with
  | some selection => pure (ctx, selection)
  | none => do
    let selection ← selectFallback update.encryptedCommitSecrets myKpRef
    pure (ctx, selection)

/-- Open what was selected and advance it to the commit secret. -/
def openSelection (C : Crypto) (self : MLSGroup) (ctx : GroupContext) (selection : Selection) :
    Py Bytes := do
  let secret ← openWithContext C ctx self.myKemKey selection.kemOutput selection.ciphertext
  advancePathSecret C selection.steps secret

variable {C : Crypto} {self : MLSGroup}

theorem openFromPath_eq_select (tree : RatchetTree) (ctx : GroupContext) (total i : ℕ)
    (path : List (Option ℕ × UpdatePathNode)) :
    openFromPath C self tree ctx total i path = self.selectFromPath tree total i path >>=
      fun found =>
      match found with
      | some selection => some <$> openSelection C self ctx selection
      | none => pure none := by
  induction path generalizing i with
  | nil => rfl
  | cons entry path ih =>
      obtain ⟨cop, node⟩ := entry
      simp only [openFromPath, selectFromPath]
      cases tree.resolution cop with
      | error e => rfl
      | ok resolved =>
          simp only [Py.ok_bind]
          cases hct : (resolved.idxOf? (2 * self.myIndex)).bind (node.encryptedPathSecret[·]?) with
          | none => exact ih (i + 1)
          | some ct =>
              simp only [openSelection, map_eq_pure_bind, bind_assoc, pure_bind]

theorem openFallback_eq_select (ctx : GroupContext) (secrets : Dict Bytes Bytes) (myKpRef : Bytes) :
    openFallback C self ctx secrets myKpRef =
      selectFallback secrets myKpRef >>= openSelection C self ctx := by
  rw [openFallback, selectFallback]
  cases secrets.get? myKpRef with
  | none => rfl
  | some encCt =>
      simp only [Py.pure_eq, Py.ok_bind, openSelection]
      cases openWithContext C ctx self.myKemKey (encCt.take 32) (encCt.drop 32) <;> rfl

/-- `process_update` gets its commit secret from the ciphertext that is selected. -/
theorem openCommitSecret_eq_select (self : MLSGroup) (update : GroupUpdate) :
    openCommitSecret C self update =
      select C self update >>= fun found => openSelection C self found.1 found.2 := by
  rw [openCommitSecret, select]
  cases self.state.tree.getLeaf (2 * self.myIndex) with
  | none => rfl
  | some leaf =>
      simp only [Py.pure_eq, Py.ok_bind]
      rcases makeGroupContext C self.state.groupId update.epochId update.tree
        self.interimTranscriptHash
        with e | ctx
      · rfl
      rcases makeKpRef C leaf.keyPackage with e | myKpRef
      · rfl
      simp only [Py.ok_bind, openFallback_eq_select]
      cases update.updatePath with
      | none => simp only [Py.ok_bind, Py.bind_assoc]
      | some path =>
          by_cases hnodes : path.nodes = []
          · simp only [if_pos hnodes, Py.ok_bind, Py.bind_assoc]
          · simp only [if_neg hnodes, openFromPath_eq_select]
            rcases update.tree.directPath (2 * update.committerIndex) with e | direct
            · rfl
            rcases update.tree.copath (2 * update.committerIndex) with e | cop
            · rfl
            simp only [Py.ok_bind]
            rcases self.selectFromPath update.tree direct.length 0 (cop.zip path.nodes) with
              e | _ | selection
            · rfl
            · simp only [Py.ok_bind, Py.pure_eq, Py.bind_assoc]
            · simp only [Py.ok_bind, Py.pure_eq]
              cases openSelection C self ctx selection <;> rfl

end MLSGroup

end PureMls
