import PureMls.Model.TreeObjects
import PureMls.Verification.Assumptions
import PureMls.Verification.Commit

/-! # Removal of a leaf

`remove_leaf` works on a copy. The tree that it returns keeps all leaves but one, and of the parents
all but those above the leaf and those that stand above the new root. -/

namespace PureMls

open CompleteTree

/-! ## Calls on objects -/

namespace Proc

variable {α β : Type} {proc : Proc α} {heap heap' : Heap}

theorem bind_ok {a : α} (h : proc.call heap = (.ok a, heap')) (f : α → Proc β) :
    (proc >>= f).call heap = (f a).call heap' := by
  rw [call] at h
  simp only [call, bind, ExceptT.bind, ExceptT.mk, StateT.bind, h]
  rfl

theorem bind_error {e : Fault} (h : proc.call heap = (.error e, heap')) (f : α → Proc β) :
    (proc >>= f).call heap = (.error e, heap') := by
  rw [call] at h
  simp only [call, bind, ExceptT.bind, ExceptT.mk, StateT.bind, h]
  rfl

end Proc

namespace Heap

variable {base heap : Heap} {ref : ℕ} {frozen : Bool} {tree : RatchetTree}

/-- The objects of `base` are as they were. -/
structure Keeps (base heap : Heap) : Prop where
  trees : ∀ ref < base.freeTree, heap.trees ref = base.trees ref
  arrays : ∀ place < base.freeArray, heap.arrays place = base.arrays place

theorem Keeps.refl (base : Heap) : base.Keeps base := ⟨fun _ _ => rfl, fun _ _ => rfl⟩

theorem Keeps.tree_eq (h : base.Keeps heap) (hself : ref < base.freeTree)
    (hnodes : (base.trees ref).nodes < base.freeArray) : heap.tree ref = base.tree ref := by
  rw [tree, array, h.trees ref hself, h.arrays _ hnodes]
  rfl

/-- Beside the objects of `base` there is a tree at `ref` that shares nothing with them. -/
structure Owns (base heap : Heap) (ref : ℕ) (frozen : Bool) (tree : RatchetTree) : Prop where
  keeps : base.Keeps heap
  ref_new : base.freeTree ≤ ref
  nodes_new : base.freeArray ≤ (heap.trees ref).nodes
  free : base.freeArray ≤ heap.freeArray
  value : heap.tree ref = tree
  kind : (heap.array ref).frozen = frozen

theorem owns_copyTree (base : Heap) (self : ℕ) :
    base.Owns (base.copyTree self) base.freeTree (base.array self).frozen (base.tree self) where
  keeps := ⟨fun ref href => Function.update_of_ne href.ne _ _,
    fun place hplace => Function.update_of_ne hplace.ne _ _⟩
  ref_new := le_rfl
  nodes_new := by simp [copyTree]
  free := Nat.le_succ _
  value := by simp [copyTree, tree, array]
  kind := by simp [copyTree, array]

theorem Owns.newArray (h : base.Owns heap ref frozen tree) (entries : List (Option Node)) :
    base.Owns (heap.newArray ref entries) ref false { tree with nodes := entries } where
  keeps := by
    refine ⟨fun ref' href => ?_, fun place hplace => ?_⟩
    · exact (Function.update_of_ne (href.trans_le h.ref_new).ne _ _).trans (h.keeps.trees ref' href)
    · exact (Function.update_of_ne (hplace.trans_le h.free).ne _ _).trans
        (h.keeps.arrays place hplace)
  ref_new := h.ref_new
  nodes_new := by simpa [Heap.newArray] using h.free
  free := Nat.le_succ_of_le h.free
  value := by
    obtain rfl := h.value
    simp [Heap.newArray, Heap.tree, array]
  kind := by simp [Heap.newArray, array]

theorem Owns.setNumLeaves (h : base.Owns heap ref frozen tree) (numLeaves : ℕ) :
    base.Owns (heap.setNumLeaves ref numLeaves) ref frozen
      { tree with numLeaves := numLeaves } where
  keeps := by
    refine ⟨fun ref' href => ?_, h.keeps.arrays⟩
    exact (Function.update_of_ne (href.trans_le h.ref_new).ne _ _).trans (h.keeps.trees ref' href)
  ref_new := h.ref_new
  nodes_new := by simpa [Heap.setNumLeaves] using h.nodes_new
  free := h.free
  value := by
    obtain rfl := h.value
    simp [Heap.setNumLeaves, Heap.tree, array]
  kind := by simpa [Heap.setNumLeaves, array] using h.kind

theorem Owns.setArray (h : base.Owns heap ref frozen tree) (entries : List (Option Node)) :
    base.Owns (heap.setArray ref ⟨frozen, entries⟩) ref frozen { tree with nodes := entries } where
  keeps := by
    refine ⟨h.keeps.trees, fun place hplace => ?_⟩
    exact (Function.update_of_ne (hplace.trans_le h.nodes_new).ne _ _).trans
      (h.keeps.arrays place hplace)
  ref_new := h.ref_new
  nodes_new := h.nodes_new
  free := h.free
  value := by
    obtain rfl := h.value
    simp [Heap.setArray, Heap.tree, array]
  kind := by simp [Heap.setArray, array]

end Heap

namespace RatchetTree

variable {tree t : RatchetTree} {m : ℕ}

theorem directPathLoop_lt {fuel x : ℕ} {path : List ℕ} (h : tree.directPathLoop fuel x = .ok path) :
    ∀ i ∈ path, i < tree.nodes.length := by
  induction fuel generalizing x path with
  | zero => cases h
  | succ fuel ih =>
      simp only [directPathLoop, Py.bind_eq_ok] at h
      obtain ⟨p, -, h⟩ := h
      split_ifs at h with hend hroot
      · cases h
        simp
      · cases h
        intro i hi
        rw [List.mem_singleton.mp hi]
        omega
      · simp only [Py.bind_eq_ok, Py.pure_eq, Except.ok.injEq] at h
        obtain ⟨rest, hrest, rfl⟩ := h
        intro i hi
        rcases List.mem_cons.mp hi with rfl | hi
        · omega
        · exact ih hrest i hi

theorem directPath_lt {x : ℕ} {path : List ℕ} (h : tree.directPath x = .ok path) :
    ∀ i ∈ path, i < tree.nodes.length := by
  rw [directPath] at h
  split_ifs at h
  · cases h
    simp
  · exact directPathLoop_lt h

end RatchetTree

namespace TreeObject

open Heap Proc

variable {base heap : Heap} {ref : ℕ} {tree : RatchetTree}

theorem storeNone_owns {index : ℕ} (h : base.Owns heap ref false tree)
    (hindex : index < tree.nodes.length) :
    ∃ heap', (storeNone ref index).call heap = (.ok (), heap') ∧
      base.Owns heap' ref false (tree.blankNode index) := by
  have hentries : (heap.array ref).entries = tree.nodes := congrArg RatchetTree.nodes h.value
  have hnot : ¬ tree.nodes.length ≤ index := Nat.not_le.mpr hindex
  refine ⟨_, ?_, h.setArray (tree.nodes.set index none)⟩
  simp only [storeNone, call, h.kind, Bool.false_eq_true, if_false, hentries, if_neg hnot]

theorem storeNones_owns {indices : List ℕ} (h : base.Owns heap ref false tree)
    (hindices : ∀ i ∈ indices, i < tree.nodes.length) :
    ∃ heap', (storeNones ref indices).call heap = (.ok (), heap') ∧
      base.Owns heap' ref false (indices.foldl RatchetTree.blankNode tree) := by
  induction indices generalizing heap tree with
  | nil => exact ⟨heap, rfl, h⟩
  | cons i indices ih =>
      obtain ⟨heap', hcall, hown⟩ := storeNone_owns h (hindices i (by simp))
      obtain ⟨heap'', hcalls, howns⟩ := ih hown fun i hi => by
        rw [(RatchetTree.blankNode_sameSize _).2]
        exact hindices i (by simp [hi])
      refine ⟨heap'', ?_, howns⟩
      rw [storeNones, bind_ok hcall, hcalls]

theorem thaw_owns {frozen : Bool} (h : base.Owns heap ref frozen tree) :
    ∃ heap', (thaw ref).call heap = (.ok (), heap') ∧ base.Owns heap' ref false tree := by
  have hentries : (heap.array ref).entries = tree.nodes := congrArg RatchetTree.nodes h.value
  have hread : (read ref).call heap = (.ok (heap.array ref, heap.tree ref), heap) := rfl
  rw [thaw, bind_ok hread]
  simp only [h.kind, hentries]
  cases frozen with
  | false => exact ⟨heap, rfl, h⟩
  | true => exact ⟨_, rfl, h.newArray tree.nodes⟩

theorem truncate_owns {frozen : Bool} (h : base.Owns heap ref frozen tree) :
    ∃ heap', (truncate ref).call heap = (.ok (), heap') ∧
    base.Owns heap' ref false tree.truncate := by
  have hentries : (heap.array ref).entries = tree.nodes := congrArg RatchetTree.nodes h.value
  have hread : (read ref).call heap = (.ok (heap.array ref, heap.tree ref), heap) := rfl
  rw [truncate, bind_ok hread]
  simp only [h.value, hentries]
  cases hlast : tree.rightmost with
  | none =>
      refine ⟨_, rfl, ?_⟩
      rw [RatchetTree.truncate, hlast]
      exact (h.setNumLeaves 0).newArray []
  | some last =>
      refine ⟨_, rfl, ?_⟩
      rw [RatchetTree.truncate, hlast]
      exact (h.newArray _).setNumLeaves _

/-- The call leaves all objects as they were, and returns a new tree of the value that the
functional model computes. -/
theorem removeLeaf_refines (base : Heap) (self leafIndex : ℕ) :
    ∃ outcome heap, (removeLeaf self leafIndex).call base = (outcome, heap) ∧ base.Keeps heap ∧
      heap.tree <$> outcome = (base.tree self).removeLeaf leafIndex ∧
      ∀ ref, outcome = .ok ref → base.freeTree ≤ ref := by
  have hread : ∀ heap ref, (read ref).call heap = (.ok (heap.array ref, heap.tree ref), heap) :=
    fun _ _ => rfl
  have hlift : ∀ {α : Type} (x : Py α) heap, (Proc.lift x).call heap = (x, heap) := fun _ _ => rfl
  rw [removeLeaf, bind_ok (hread base self), RatchetTree.removeLeaf]
  cases Py.require (leafIndex % 2 = 0) (.valueError "leaf_index must be even (leaf node)") with
  | error e => exact ⟨_, _, bind_error (hlift _ base) _, .refl base, rfl, by simp⟩
  | ok _ =>
  rw [bind_ok (hlift _ base), Py.ok_bind]
  cases hlt : Py.require (leafIndex < (base.tree self).nodes.length) (.valueError
      s!"leaf_index {leafIndex} out of bounds (tree has {(base.tree self).nodes.length} nodes)")
        with
  | error e => exact ⟨_, _, bind_error (hlift _ base) _, .refl base, rfl, by simp⟩
  | ok _ =>
  have hcopy : (deepcopy self).call base = (.ok base.freeTree, base.copyTree self) := rfl
  obtain ⟨thawed, hthaw, hown⟩ := thaw_owns (owns_copyTree base self)
  obtain ⟨blanked, hblank, hown⟩ := storeNone_owns hown (Py.require_eq_ok.mp hlt)
  rw [bind_ok (hlift _ base), Py.ok_bind, bind_ok hcopy, bind_ok hthaw, bind_ok hblank,
    bind_ok (hread blanked _), hown.value]
  dsimp only
  cases hpath : ((base.tree self).blankNode leafIndex).directPath leafIndex with
  | error e => exact ⟨_, _, bind_error (hlift _ blanked) _, hown.keeps, rfl, by simp⟩
  | ok ancestors =>
  obtain ⟨cleared, hclear, hown⟩ := storeNones_owns hown (RatchetTree.directPath_lt hpath)
  obtain ⟨final, hfinal, hown⟩ := truncate_owns hown
  rw [bind_ok (hlift _ blanked), bind_ok hclear, bind_ok hfinal]
  refine ⟨_, _, rfl, hown.keeps, ?_, ?_⟩
  · exact congrArg Except.ok hown.value
  · rintro ref href
    obtain rfl := Except.ok.inj href
    exact le_rfl

end TreeObject

namespace RatchetTree

variable {tree t : RatchetTree} {m slot : ℕ}

/-! ## What is left -/

/-- Every parent that is not blank has a leaf below it that is not blank. -/
def Supported (tree : RatchetTree) : Prop :=
  ∀ i, i % 2 = 1 → (tree.getNode i).isSome → ∃ l, Under i l ∧ (tree.getNode (2 * l)).isSome

/-- `t` is the tree without the leaf in `slot` and the nodes above it, which are `direct`. -/
structure ExactRemoval (tree : RatchetTree) (slot : ℕ) (direct : List ℕ) (t : RatchetTree) :
    Prop where
  direct_eq : tree.directPath (2 * slot) = .ok direct
  leaves : (∀ l ≠ slot, tree.getNode (2 * l) = none) ∧ t.numLeaves = 0 ∨
    ∃ last m', last ≠ slot ∧ (tree.getNode (2 * last)).isSome ∧
      (∀ l ≠ slot, (tree.getNode (2 * l)).isSome → l ≤ last) ∧
      t.numLeaves = 2 ^ m' ∧ last < 2 ^ m' ∧ ∀ n, last < 2 ^ n → m' ≤ n
  size : t.nodes.length = 2 * t.numLeaves - 1
  blanked : ∀ i ∈ 2 * slot :: direct, t.getNode i = none
  kept : ∀ i < t.nodes.length, i ∉ 2 * slot :: direct → t.getNode i = tree.getNode i
  /-- Truncation cuts off the parents above the new root; all kept leaves are below them. -/
  dropped : ∀ i, t.nodes.length ≤ i → i ∉ 2 * slot :: direct → (tree.getNode i).isSome →
    ∃ k, i = 2 ^ k - 1 ∧ t.numLeaves < 2 ^ k
  supported : t.Supported

/-- A node that removal does not blank has another leaf below it than the removed one. -/
theorem Supported.exists_leaf (h : tree.Supported) (hm : tree.Sized m) {i : ℕ}
    (hsome : (tree.getNode i).isSome) (hi : i ≠ 2 * slot) (hpath : i ∉ ancestors slot 0 m) :
    ∃ l ≠ slot, Under i l ∧ (tree.getNode (2 * l)).isSome := by
  have hleaf : ∃ l, Under i l ∧ (tree.getNode (2 * l)).isSome := by
    rcases Nat.even_or_odd' i with ⟨l, rfl | rfl⟩
    · exact ⟨l, under_leaf.mpr rfl, hsome⟩
    · exact h _ (by omega) hsome
  obtain ⟨l, hl, hsome'⟩ := hleaf
  refine ⟨l, ?_, hl, hsome'⟩
  rintro rfl
  obtain ⟨node, hnode⟩ := Option.isSome_iff_exists.mp hsome
  have hlt := getNode_lt hnode
  obtain ⟨k, rfl⟩ := hl
  rw [hm.2] at hlt
  have hk := le_of_nodeAt_lt hlt
  cases k with
  | zero => simp at hi
  | succ k => exact hpath (mem_ancestors (by omega) (by omega))

theorem removeLeaf_eq (hm : tree.Sized m) (hm33 : m ≤ 33) (hslot : slot < 2 ^ m) :
    tree.removeLeaf (2 * slot) =
      .ok ((ancestors slot 0 m).foldl blankNode (tree.blankNode (2 * slot))).truncate := by
  have hlt : 2 * slot < tree.nodes.length := by
    rw [hm.2, pow_succ]
    omega
  have hblanked : (tree.blankNode (2 * slot)).Sized m := (blankNode_sameSize _).sized hm
  have hpath := directPath_ancestors hblanked.covers hm33 hslot
  rw [removeLeaf, Py.require_of _ (Nat.mul_mod_right 2 slot), Py.ok_bind, Py.require_of _ hlt,
    Py.ok_bind]
  simp only [hpath, Py.ok_bind, Py.pure_eq]

/-- No other leaf is left: the returned tree is empty, and nothing had to be cut off. -/
theorem exactRemoval_empty (hm : tree.Sized m) (hm33 : m ≤ 33) (hsupported : tree.Supported)
    (hslot : slot < 2 ^ m)
    (hblank : ∀ l ≠ slot, tree.getNode (2 * l) = none) :
    ExactRemoval tree slot (ancestors slot 0 m) ⟨0, []⟩ where
  direct_eq := directPath_ancestors hm.covers hm33 hslot
  leaves := .inl ⟨hblank, rfl⟩
  size := rfl
  blanked _ _ := rfl
  kept i hi := absurd hi (Nat.not_lt_zero i)
  dropped i _ hi hsome := by
    rw [List.mem_cons, not_or] at hi
    obtain ⟨l, hl, -, hleaf⟩ := hsupported.exists_leaf hm hsome hi.1 hi.2
    rw [hblank l hl] at hleaf
    cases hleaf
  supported i _ hsome := by cases hsome

theorem exactRemoval_cut (hm : tree.Sized m) (hm33 : m ≤ 33) (hsupported : tree.Supported)
    (hslot : slot < 2 ^ m)
    {last m' : ℕ} (hne : last ≠ slot) (hlast : (tree.getNode (2 * last)).isSome)
    (hmax : ∀ l ≠ slot, (tree.getNode (2 * l)).isSome → l ≤ last) (hlt : last < 2 ^ m')
    (hmin : ∀ n, last < 2 ^ n → m' ≤ n) (ht : t.Sized m')
    (hget : ∀ i, t.getNode i = if i < 2 ^ (m' + 1) - 1 ∧ i ≠ 2 * slot ∧ i ∉ ancestors slot 0 m
      then tree.getNode i else none) :
    ExactRemoval tree slot (ancestors slot 0 m) t where
  direct_eq := directPath_ancestors hm.covers hm33 hslot
  leaves := .inr ⟨last, m', hne, hlast, hmax, ht.1, hlt, hmin⟩
  size := by rw [ht.2, ht.1, pow_succ, Nat.mul_comm]
  blanked i hi := by
    rw [hget, if_neg]
    rintro ⟨-, hslot, hpath⟩
    rcases List.mem_cons.mp hi with hi | hi
    · exact hslot hi
    · exact hpath hi
  kept i hi hout := by
    rw [ht.2] at hi
    rw [List.mem_cons, not_or] at hout
    rw [hget, if_pos ⟨hi, hout⟩]
  dropped i hi hout hsome := by
    rw [ht.2] at hi
    rw [List.mem_cons, not_or] at hout
    obtain ⟨l, hl, hunder, hleaf⟩ := hsupported.exists_leaf hm hsome hout.1 hout.2
    have hl' : l < 2 ^ m' := (hmax l hl hleaf).trans_lt hlt
    obtain ⟨k, rfl⟩ := hunder
    -- up to the new root's height the node would be in range
    have hk : m' < k := by
      by_contra hle
      have hle : k ≤ m' := by omega
      have hin := (nodeAt_lt_iff hle).mpr (div_pow_lt hl' hle)
      omega
    have hpow : 2 ^ m' < 2 ^ k := Nat.pow_lt_pow_right (by decide) hk
    refine ⟨k, ?_, by rwa [ht.1]⟩
    rw [Nat.div_eq_of_lt (hl'.trans hpow), nodeAt_zero_right]
  supported i hodd hsome := by
    have hi := hget i
    split_ifs at hi with hin
    · rw [hi] at hsome
      obtain ⟨l, hl, hunder, hleaf⟩ := hsupported.exists_leaf hm hsome hin.2.1 hin.2.2
      refine ⟨l, hunder, ?_⟩
      have hle := hmax l hl hleaf
      have hin' : 2 * l < 2 ^ (m' + 1) - 1 := by
        rw [pow_succ]
        omega
      rwa [hget, if_pos ⟨hin', by omega, leaf_notMem_ancestors⟩]
    · rw [hi] at hsome
      cases hsome

theorem removeLeaf_exact (hm : tree.Sized m) (hm33 : m ≤ 33) (hsupported : tree.Supported)
    (hslot : slot < 2 ^ m) : ∃ t direct, tree.removeLeaf (2 * slot) = .ok t ∧
      ExactRemoval tree slot direct t := by
  have hget := getNode_cleared tree slot (ancestors slot 0 m)
  have hleaf : ∀ l,
    ((ancestors slot 0 m).foldl blankNode (tree.blankNode (2 * slot))).getNode (2 * l) =
      if l = slot then none else tree.getNode (2 * l) := by
    intro l
    rw [hget]
    by_cases hl : l = slot
    · rw [if_neg (fun h => h.1 (by rw [hl])), if_pos hl]
    · rw [if_pos ⟨by omega, leaf_notMem_ancestors⟩, if_neg hl]
  have hsized :=
    (blankNodes_sameSize (ancestors slot 0 m)).sized ((blankNode_sameSize (2 * slot)).sized hm)
  refine ⟨_, ancestors slot 0 m, removeLeaf_eq hm hm33 hslot, ?_⟩
  rcases truncate_cases hsized with ⟨hempty, hblank⟩ | ⟨last, m', hsome, hmax, hlt, hmin, hm', ht,
    htget⟩
  · rw [hempty]
    apply exactRemoval_empty hm hm33 hsupported hslot
    intro l hl
    have hnone := hblank l
    rwa [hleaf, if_neg hl] at hnone
  · have hne : last ≠ slot := by
      rintro rfl
      rw [hleaf, if_pos rfl] at hsome
      cases hsome
    rw [hleaf, if_neg hne] at hsome
    apply exactRemoval_cut hm hm33 hsupported hslot hne hsome _ hlt hmin ht
    · intro i
      rw [htget, hget]
      by_cases hi : i < 2 ^ (m' + 1) - 1 <;> simp [hi]
    · intro l hl hsome'
      apply hmax
      rwa [hleaf, if_neg hl]

end RatchetTree

open RatchetTree in
/-- Removal from a tree of at most `2 ^ 33` leaves is exact, and leaves the tree itself alone. -/
theorem removal_exact {base : Heap} {self m slot : ℕ} (hself : self < base.freeTree)
    (hnodes : (base.trees self).nodes < base.freeArray) (hm : (base.tree self).Sized m)
    (hm33 : m ≤ 33) (hsupported : (base.tree self).Supported) (hslot : slot < 2 ^ m) :
    ∃ ref heap direct, (TreeObject.removeLeaf self (2 * slot)).call base = (.ok ref, heap) ∧
      base.freeTree ≤ ref ∧ heap.tree self = base.tree self ∧ base.Keeps heap ∧
      (base.tree self).removeLeaf (2 * slot) = .ok (heap.tree ref) ∧
      ExactRemoval (base.tree self) slot direct (heap.tree ref) := by
  obtain ⟨t, direct, ht, hexact⟩ := removeLeaf_exact hm hm33 hsupported hslot
  obtain ⟨outcome, heap, hcall, hkeeps, hvalue, hnew⟩ :=
    TreeObject.removeLeaf_refines base self (2 * slot)
  rw [ht, Py.map_eq_ok] at hvalue
  obtain ⟨ref, rfl, rfl⟩ := hvalue
  exact ⟨ref, heap, direct, hcall, hnew ref rfl, hkeeps.tree_eq hself hnodes, hkeeps, ht, hexact⟩

namespace Sample

/-- Leaves in the given slots of a tree of four, with a parent above the first two. -/
def fourSlots (slots : List ℕ) : RatchetTree :=
  ⟨4, (List.range 7).map fun i =>
    if i = 1 then some (.parent ⟨[1], [], []⟩)
    else if i % 2 = 0 ∧ i / 2 ∈ slots then some (.leaf plainLeaf) else none⟩

theorem fourSlots_sized (slots : List ℕ) : (fourSlots slots).Sized 2 := ⟨rfl, by simp [fourSlots]⟩

theorem fourSlots_supported {slots : List ℕ} (h : 0 ∈ slots) : (fourSlots slots).Supported := by
  intro i hodd hsome
  have hfirst : i = 1 := by
    by_contra hne
    have hnot : ¬ (i % 2 = 0 ∧ i / 2 ∈ slots) := by omega
    rw [RatchetTree.getNode, fourSlots, List.getElem?_map] at hsome
    cases hi : (List.range 7)[i]? with
    | none => simp [hi] at hsome
    | some i' =>
        obtain ⟨hlt, hval⟩ := List.getElem?_eq_some_iff.mp hi
        rw [List.getElem_range] at hval
        simp [hi, ← hval, hne, hnot] at hsome
  subst hfirst
  refine ⟨0, ⟨1, rfl⟩, ?_⟩
  simp [RatchetTree.getNode, fourSlots, h]

/-- One frozen tree, with three members. -/
def frozenTree : Heap := ⟨fun _ => ⟨4, 0⟩, fun _ => ⟨true, (fourSlots [0, 1, 3]).nodes⟩, 1, 1⟩

end Sample

open Sample RatchetTree in
theorem removal_exact_frozen :
    ∃ ref heap direct, (TreeObject.removeLeaf 0 (2 * 3)).call frozenTree = (.ok ref, heap) ∧
    frozenTree.freeTree ≤ ref ∧ heap.tree 0 = frozenTree.tree 0 ∧ frozenTree.Keeps heap ∧
    (frozenTree.tree 0).removeLeaf (2 * 3) = .ok (heap.tree ref) ∧
    ExactRemoval (frozenTree.tree 0) 3 direct (heap.tree ref) :=
  removal_exact (by decide) (by decide) (fourSlots_sized _) (by decide)
    (fourSlots_supported (by decide))
    (by decide)

open Sample RatchetTree in
/-- With leaf 0 alone the parent above leaves 0 and 1 is cut off, and below a root of height 34 the
walk to the root does not end. -/
theorem removal_cuts_parents :
    (¬ ∀ (tree : RatchetTree) (m slot : ℕ) (leaf : LeafNode), tree.Sized m →
      tree.Supported → tree.getLeaf (2 * slot) = some leaf → ∃ t direct, tree.removeLeaf
        (2 * slot) = .ok t ∧ tree.directPath (2 * slot) = .ok direct ∧
        ∀ i, t.nodes.length ≤ i → i ∉ 2 * slot :: direct → tree.getNode i = none) ∧
    ∃ (tree : RatchetTree) (leaf : LeafNode), tree.Sized 34 ∧ tree.Supported ∧
      tree.getLeaf 0 = some leaf ∧ tree.removeLeaf 0 = .error .hang := by
  constructor
  · intro hall
    obtain ⟨t, direct, ht, hdirect, hcut⟩ :=
      hall (fourSlots [0, 3]) 2 3 plainLeaf (fourSlots_sized _)
      (fourSlots_supported (by decide)) rfl
    obtain rfl : direct = [5, 3] := Except.ok.inj (hdirect.symm.trans rfl)
    obtain rfl := Except.ok.inj (ht.symm.trans rfl)
    cases hcut 1 (by decide) (by decide)
  · obtain ⟨tree, htree⟩ : ∃ tree, (new (2 ^ 34)).setLeaf 0 plainLeaf = .ok tree :=
      ⟨_, setLeaf_eq_ok.mpr ⟨rfl, by rw [(sized_new 34).2]; decide, rfl⟩⟩
    obtain ⟨hsize, hnode⟩ := setLeaf_node htree
    have hsized := hsize.sized (sized_new 34)
    refine ⟨tree, plainLeaf, hsized, ?_, ?_, ?_⟩
    · intro i hodd hsome
      rw [hnode, if_neg (by omega), getNode_new] at hsome
      cases hsome
    · rw [getLeaf, hnode, if_pos rfl]
    · have hlt : 0 < tree.nodes.length := by
        rw [hsized.2]
        decide
      have hpath := directPath_hang_of_large ((blankNode_sameSize 0).sized hsized).covers le_rfl
        (Nat.two_pow_pos 34)
      rw [removeLeaf, Py.require_of _ rfl, Py.ok_bind, Py.require_of _ hlt, Py.ok_bind]
      simp only [hpath, Py.error_bind]

end PureMls
