import PureMls.Verification.Delivery
import PureMls.Verification.Frames
import PureMls.Verification.Resolutions

/-! # The filtered direct path of a commit

A commit announces a key for every node of the direct path, and seals path secrets at those nodes
that the filtered direct path keeps. -/

namespace PureMls

open CompleteTree

namespace RatchetTree

variable {tree : RatchetTree} {m k j : ℕ}

/-! ## Resolutions with nodes -/

theorem resolutionLoop_blank {fuel i : ℕ} {nodes : List ℕ} (hblank : tree.getNode i = none)
    (h : tree.resolutionLoop (fuel + 1) i = .ok nodes) :
    nodes = [] ∨ ∃ left right inner inner', tree.resolutionLoop fuel left = .ok inner ∧
      tree.resolutionLoop fuel right = .ok inner' ∧ nodes = inner ++ inner' := by
  rw [resolutionLoop] at h
  cases hget : tree.nodes[i]? with
  | none =>
      rw [hget] at h
      exact .inl (Except.ok.inj h).symm
  | some entry =>
      rw [getNode, hget, Option.join_some] at hblank
      subst hblank
      simp only [hget] at h
      by_cases heven : i % 2 = 0
      · rw [if_pos heven] at h
        exact .inl (Except.ok.inj h).symm
      · rw [if_neg heven] at h
        obtain ⟨inner, hinner, h⟩ := Py.bind_eq_ok.mp h
        obtain ⟨inner', hinner', h⟩ := Py.bind_eq_ok.mp h
        exact .inr ⟨_, _, inner, inner', hinner, hinner', (Except.ok.inj h).symm⟩

private theorem resolutionLoop_nonblank {fuel i : ℕ} {nodes : List ℕ}
    (h : tree.resolutionLoop fuel i = .ok nodes)
    (hne : nodes ≠ []) : ∃ x ∈ nodes, (tree.getNode x).isSome := by
  induction fuel generalizing i nodes with
  | zero => cases h
  | succ fuel ih =>
      cases hnode : tree.getNode i with
      | some node =>
          rw [resolutionLoop_some hnode] at h
          obtain rfl := Except.ok.inj h
          exact ⟨i, List.mem_cons_self, by simp [hnode]⟩
      | none =>
          rcases resolutionLoop_blank hnode h with rfl | ⟨left, right, inner, inner', hinner,
            hinner', rfl⟩
          · exact absurd rfl hne
          · by_cases hnil : inner = []
            · obtain ⟨x, hx, hsome⟩ := ih hinner' (by simpa [hnil] using hne)
              exact ⟨x, List.mem_append_right _ hx, hsome⟩
            · obtain ⟨x, hx, hsome⟩ := ih hinner hnil
              exact ⟨x, List.mem_append_left _ hx, hsome⟩

/-- Something in a resolution is not blank, if anything is there. -/
theorem resolution_nonblank {index : Option ℕ} {nodes : List ℕ}
    (h : tree.resolution index = .ok nodes) :
    nodes ≠ [] ↔ ∃ x ∈ nodes, (tree.getNode x).isSome := by
  refine ⟨fun hne => ?_, fun ⟨x, hx, _⟩ => List.ne_nil_of_mem hx⟩
  cases index with
  | none => exact absurd (Except.ok.inj h).symm hne
  | some i => exact resolutionLoop_nonblank h hne

/-- The resolution of a node has nodes exactly when its subtree has one that is not blank. -/
theorem resolutionLoop_ne_nil (h : tree.Covers m) (hk32 : k ≤ 32) (hk : k ≤ m)
    (hj : j < 2 ^ (m - k)) {fuel : ℕ} {nodes : List ℕ}
    (hres : tree.resolutionLoop fuel (nodeAt k j) = .ok nodes) :
    nodes ≠ [] ↔ ∃ y, (tree.getNode y).isSome ∧ ∀ l, Under y l → Under (nodeAt k j) l := by
  induction fuel generalizing k j nodes with
  | zero => cases hres
  | succ fuel ih =>
      cases hnode : tree.getNode (nodeAt k j) with
      | some node =>
          rw [resolutionLoop_some hnode] at hres
          obtain rfl := Except.ok.inj hres
          exact iff_of_true (List.cons_ne_nil _ _) ⟨_, by simp [hnode], fun _ => id⟩
      | none =>
          cases k with
          | zero =>
              rw [nodeAt_zero] at hres hnode
              rw [resolutionLoop_blankLeaf hnode] at hres
              refine iff_of_false (fun hne => hne (Except.ok.inj hres).symm) ?_
              rintro ⟨y, hsome, hsub⟩
              obtain ⟨h, i, rfl⟩ := exists_nodeAt y
              obtain ⟨hle, hdiv⟩ := forall_under_iff.mp hsub
              obtain rfl := Nat.le_zero.mp hle
              rw [Nat.sub_self, pow_zero, Nat.div_one] at hdiv
              simp [hdiv, hnode] at hsome
          | succ k =>
              have hpow := two_pow_sub_succ hk
              rw [resolutionLoop_blankParent h (by omega) hk hj hnode] at hres
              obtain ⟨left, hleft, hres⟩ := Py.bind_eq_ok.mp hres
              obtain ⟨right, hright, hres⟩ := Py.bind_eq_ok.mp hres
              obtain rfl := Except.ok.inj hres
              have hboth : left ++ right ≠ [] ↔ left ≠ [] ∨ right ≠ [] := by
                rw [Ne, List.append_eq_nil_iff, not_and_or]
              rw [hboth, ih (by omega) (by omega) (by omega) hleft,
                ih (by omega) (by omega) (by omega) hright]
              constructor
              · rintro (⟨y, hsome, hsub⟩ | ⟨y, hsome, hsub⟩)
                · exact ⟨y, hsome, fun l hl => under_children.mpr (.inl (hsub l hl))⟩
                · exact ⟨y, hsome, fun l hl => under_children.mpr (.inr (hsub l hl))⟩
              · -- the node itself is blank, and every other one is in the subtree of a child
                rintro ⟨y, hsome, hsub⟩
                obtain ⟨h, i, rfl⟩ := exists_nodeAt y
                obtain ⟨hle, hdiv⟩ := forall_under_iff.mp hsub
                have hne : h ≠ k + 1 := by
                  rintro rfl
                  rw [Nat.sub_self, pow_zero, Nat.div_one] at hdiv
                  rw [hdiv, hnode] at hsome
                  cases hsome
                have hhalf : i / 2 ^ (k - h) / 2 = j := by
                  rw [Nat.div_div_eq_div_mul, ← pow_succ, ← Nat.sub_add_comm (by omega), hdiv]
                have hchild : i / 2 ^ (k - h) = 2 * j ∨ i / 2 ^ (k - h) = 2 * j + 1 := by omega
                rcases hchild with hi | hi
                · exact .inl ⟨_, hsome, forall_under_iff.mpr ⟨by omega, hi⟩⟩
                · exact .inr ⟨_, hsome, forall_under_iff.mpr ⟨by omega, hi⟩⟩

/-! ## The filter -/

theorem filterPath_subset {path : List (ℕ × Option ℕ)} {filtered : List ℕ}
    (h : tree.filterPath path = .ok filtered) : filtered ⊆ path.map Prod.fst := by
  induction path generalizing filtered with
  | nil =>
      obtain rfl := Except.ok.inj h
      exact List.nil_subset _
  | cons entry path ih =>
      obtain ⟨p, cp⟩ := entry
      obtain ⟨resolved, -, h⟩ := Py.bind_eq_ok.mp h
      obtain ⟨rest, hrest, h⟩ := Py.bind_eq_ok.mp h
      obtain rfl := Except.ok.inj h
      split_ifs
      · exact List.cons_subset_cons _ (ih hrest)
      · exact fun x hx => List.mem_cons_of_mem _ (ih hrest hx)

/-- A node of the path is kept exactly when the resolution beside it has nodes. -/
theorem mem_filterPath {path : List (ℕ × Option ℕ)} {filtered : List ℕ}
    (h : tree.filterPath path = .ok filtered)
    (hnodup : (path.map Prod.fst).Nodup) {x : ℕ} {s : Option ℕ} (hmem : (x, s) ∈ path) :
    ∃ resolved, tree.resolution s = .ok resolved ∧ (x ∈ filtered ↔ resolved ≠ []) := by
  induction path generalizing filtered with
  | nil => cases hmem
  | cons entry path ih =>
      obtain ⟨p, cp⟩ := entry
      obtain ⟨resolved, hresolved, h⟩ := Py.bind_eq_ok.mp h
      obtain ⟨rest, hrest, h⟩ := Py.bind_eq_ok.mp h
      obtain rfl := Except.ok.inj h
      rw [List.map_cons, List.nodup_cons] at hnodup
      rcases List.mem_cons.mp hmem with heq | hmem
      · obtain ⟨rfl, rfl⟩ := Prod.mk.inj heq
        refine ⟨resolved, hresolved, ?_⟩
        have hnot : x ∉ rest := fun hx => hnodup.1 (filterPath_subset hrest hx)
        split_ifs with hne
        · exact iff_of_true List.mem_cons_self hne
        · exact iff_of_false hnot hne
      · obtain ⟨resolved', hresolved', hiff⟩ := ih hrest hnodup.2 hmem
        refine ⟨resolved', hresolved', ?_⟩
        have hne : x ≠ p := fun heq => hnodup.1 (heq ▸ List.mem_map.mpr ⟨_, hmem, rfl⟩)
        split_ifs with h
        · rw [List.mem_cons, or_iff_right hne, hiff]
        · exact hiff

end RatchetTree

open RatchetTree MLSGroup

variable {C : Crypto}

namespace MLSGroup

variable {tree : RatchetTree} {ctx : GroupContext}

theorem sealResolution_ne_nil {ephemeral : ℕ → KemKey} {pathSecret : Bytes} {start : ℕ}
    {resolved : List ℕ} {cts : List HPKECiphertext}
    (h : sealResolution C tree ctx ephemeral pathSecret start resolved = .ok cts) :
    cts ≠ [] ↔ ∃ x ∈ resolved, (tree.getNode x).isSome := by
  induction resolved generalizing start cts with
  | nil =>
      obtain rfl := Except.ok.inj h
      simp
  | cons index resolved ih =>
      rw [sealResolution] at h
      cases hnode : tree.getNode index with
      | none =>
          simp only [hnode] at h
          rw [ih h]
          simp [hnode]
      | some node =>
          simp only [hnode] at h
          obtain ⟨_, -, h⟩ := Py.bind_eq_ok.mp h
          obtain ⟨rest, -, h⟩ := Py.bind_eq_ok.mp h
          obtain rfl := Except.ok.inj h
          exact iff_of_true (List.cons_ne_nil _ _) ⟨index, List.mem_cons_self, by simp [hnode]⟩

/-- The entries of a path that have ciphertexts are at the nodes that the filter keeps. -/
theorem filterPath_of_sealPath {ephemeral : ℕ → ℕ → KemKey} {i : ℕ}
    {path : List (Option ℕ × Bytes × Bytes)} {nodes : List UpdatePathNode}
    (h : sealPath C tree ctx ephemeral i path = .ok nodes) {direct : List ℕ}
    (hlen : direct.length = path.length) :
    nodes.length = path.length ∧ tree.filterPath (direct.zip (path.map Prod.fst)) =
      .ok (((direct.zip nodes).filter fun entry => entry.2.encryptedPathSecret ≠ []).map
        Prod.fst) := by
  induction path generalizing i nodes direct with
  | nil =>
      obtain rfl := Except.ok.inj h
      obtain rfl := List.length_eq_zero_iff.mp hlen
      exact ⟨rfl, rfl⟩
  | cons entry path ih =>
      obtain ⟨cop, pathSecret, pub⟩ := entry
      cases direct with
      | nil => cases hlen
      | cons p direct =>
          obtain ⟨resolved, hresolved, h⟩ := Py.bind_eq_ok.mp h
          obtain ⟨cts, hcts, h⟩ := Py.bind_eq_ok.mp h
          obtain ⟨rest, hrest, h⟩ := Py.bind_eq_ok.mp h
          obtain rfl := Except.ok.inj h
          obtain ⟨hcount, hfilter⟩ := ih hrest (Nat.succ.inj hlen)
          have hsealed : cts ≠ [] ↔ resolved ≠ [] :=
            (sealResolution_ne_nil hcts).trans (resolution_nonblank hresolved).symm
          refine ⟨congrArg (· + 1) hcount, ?_⟩
          rw [List.map_cons, List.zip_cons_cons, filterPath, hresolved, Py.ok_bind, hfilter,
            Py.ok_bind, List.zip_cons_cons, List.filter_cons]
          by_cases hne : resolved ≠ []
          · rw [if_pos hne, if_pos (decide_eq_true (hsealed.mpr hne))]
            rfl
          · rw [if_neg hne, if_neg fun h => hne (hsealed.mp (of_decide_eq_true h))]
            rfl

end MLSGroup

/-! ## Commits -/

/-- The path entries of a commit, beside the direct path and the filtered direct path of the
committer in the new tree. -/
structure FilteredEntries (tree : RatchetTree) (own : ℕ) (nodes : List UpdatePathNode)
    (direct filtered : List ℕ) : Prop where
  direct_eq : tree.directPath (2 * own) = .ok direct
  length_eq : nodes.length = direct.length
  filtered_eq : tree.filteredDirectPath (2 * own) = .ok filtered
  sealed : ((direct.zip nodes).filter fun entry => entry.2.encryptedPathSecret ≠ []).map Prod.fst =
    filtered
  kept : ∀ cop, tree.copath (2 * own) = .ok cop → ∀ x s, (x, some s) ∈ direct.zip cop →
    (x ∈ filtered ↔ ∃ y, (tree.getNode y).isSome ∧ ∀ l, Under y l → Under s l)

/-- A commit on any reachable handle has an entry for every node of the direct path, and the entries
with ciphertexts are those of the filtered direct path. -/
theorem commit_seals_filtered_path {sender : MLSGroup} (h : Reached C sender) {coins : CommitCoins}
    {p : Proposal} {committed : Committed} (hcommit : p.commit C sender coins = .ok committed) :
    ∃ path direct filtered, committed.update.updatePath = some path ∧
      FilteredEntries committed.update.tree sender.myIndex path.nodes direct filtered := by
  obtain ⟨r⟩ := Proposal.commit_eq_ok hcommit
  have hwire : sender.state.tree.OnWire := h.onWire (fun _ h => h) (fun _ _ h => h)
  obtain ⟨m, hm29, hsized⟩ := r.sized hwire
  have hm32 : m ≤ 32 := by omega
  have hbase : r.base.Sized m := r.path.sameSize.symm.sized hsized
  obtain ⟨hslot, hdirect, hcop⟩ := r.path.paths hbase hm32
  obtain ⟨hd, hc, hs, hp⟩ := r.path.lengths hbase hm32
  have hpath := directPath_leaf hsized.covers hm32 hslot
  have hcopath := copath_leaf hsized.covers hm32 hslot
  rw [← hdirect] at hpath
  rw [← hcop] at hcopath
  have hzip : (r.path.cop.zip (r.path.secrets.zip r.path.pubs)).length = m := by simp [hc, hs, hp]
  have hfst : (r.path.cop.zip (r.path.secrets.zip r.path.pubs)).map Prod.fst = r.path.cop :=
    List.map_fst_zip (by simp [hc, hs, hp])
  obtain ⟨hcount, hfilter⟩ := filterPath_of_sealPath r.path.nodes_eq (hd.trans hzip.symm)
  rw [hfst] at hfilter
  have hfiltered : r.path.tree.filteredDirectPath (2 * (sender.withConsumed r.consumed).myIndex) =
      r.path.tree.filterPath (r.path.direct.zip r.path.cop) := by
    rw [filteredDirectPath, hpath, Py.ok_bind, hcopath, Py.ok_bind]
  rw [r.update_tree]
  refine ⟨⟨r.path.keyPackage, r.path.nodes⟩, r.path.direct, _, ?_, hpath, ?_,
    hfiltered.trans hfilter, rfl, ?_⟩
  · rw [r.update_eq]
    rfl
  · rw [hcount, hzip, hd]
  · intro cop hcop' x s hmem
    obtain rfl : r.path.cop = cop := Except.ok.inj (hcopath.symm.trans hcop')
    have hnodup : ((r.path.direct.zip r.path.cop).map Prod.fst).Nodup := by
      rw [List.map_fst_zip (by omega), hdirect]
      exact nodup_ancestors _ _ _
    obtain ⟨resolved, hresolved, hiff⟩ := mem_filterPath hfilter hnodup hmem
    obtain ⟨s', hs', heq⟩ := List.mem_map.mp (hcop ▸ (List.of_mem_zip hmem).2)
    obtain rfl := Option.some.inj heq
    obtain ⟨k, hget⟩ := List.mem_iff_getElem?.mp hs'
    obtain ⟨hk, rfl⟩ := getElem?_siblings hget
    rw [Nat.zero_add] at hresolved ⊢
    have hj := siblingIndex_lt (by omega : 0 < m - k) (div_pow_lt hslot (by omega : k ≤ m))
    exact hiff.trans (resolutionLoop_ne_nil hsized.covers (by omega) (by omega) hj hresolved)

open Sample in
/-- The entries of Alice's first commit. -/
theorem commit_seals_filtered_path_alice :
    ∃ (alice : MLSGroup) (kp : KeyPackage) (added : Committed)
    (path : UpdatePath) (direct filtered : List ℕ),
    Proposal.commit crypto alice (coins 40) (.addMember kp) = .ok added ∧
    added.update.updatePath = some path ∧
    FilteredEntries added.update.tree alice.myIndex path.nodes direct filtered := by
  obtain ⟨_, hrun⟩ := firstAdd_ok
  simp only [firstAdd, Py.bind_eq_ok] at hrun
  obtain ⟨kp, -, alice, hcreate, added, hadd, -⟩ := hrun
  obtain ⟨path, direct, filtered, hpath, hentries⟩ :=
    commit_seals_filtered_path (.create hcreate) hadd
  exact ⟨alice, kp, added, path, direct, filtered, hadd, hpath, hentries⟩

end PureMls
