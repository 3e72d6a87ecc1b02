import Mathlib.Data.List.Basic

/-! # Hash trees

The digest of a binary tree with a label at every node pins the tree, unless two of the inputs
that were hashed collide. -/

/-- A binary tree with a label at every node. -/
inductive HashTree (α : Type*) where
  | leaf (label : α)
  | node (label : α) (left right : HashTree α)

/-- How the nodes of a tree are hashed; the inputs can be told apart and taken apart. -/
structure TreeHashing (α β δ : Type*) where
  hash : β → δ
  leafInput : α → β
  nodeInput : α → δ → δ → β
  leaf_inj : ∀ {a a'}, leafInput a = leafInput a' → a = a'
  node_inj : ∀ {a a' x y x' y'}, nodeInput a (hash x) (hash y) = nodeInput a' (hash x') (hash y') →
    a = a' ∧ hash x = hash x' ∧ hash y = hash y'
  separate : ∀ {a b x y}, leafInput a ≠ nodeInput b (hash x) (hash y)

namespace HashTree

variable {α β δ : Type*} (H : TreeHashing α β δ)

/-- The input that is hashed last. -/
def input : HashTree α → β
  | leaf label => H.leafInput label
  | node label left right => H.nodeInput label (H.hash left.input) (H.hash right.input)

def digest (t : HashTree α) : δ := H.hash (t.input H)

/-- All inputs that are hashed. -/
def inputs : HashTree α → List β
  | leaf label => [H.leafInput label]
  | node label left right => input H (node label left right) :: (left.inputs ++ right.inputs)

theorem input_mem_inputs (t : HashTree α) : t.input H ∈ t.inputs H := by
  cases t with
  | leaf label => exact List.mem_singleton_self _
  | node label left right => exact List.mem_cons_self

variable {H}

/-- Equal digests without a collision come from equal trees. -/
theorem digest_injective {t u : HashTree α}
    (hcoll : ∀ x ∈ t.inputs H, ∀ y ∈ u.inputs H, H.hash x = H.hash y → x = y)
    (h : t.digest H = u.digest H) : t = u := by
  have hinput : t.input H = u.input H :=
    hcoll _ (t.input_mem_inputs H) _ (u.input_mem_inputs H) h
  induction t generalizing u with
  | leaf a =>
      cases u with
      | leaf b => rw [H.leaf_inj hinput]
      | node b left' right' => exact absurd hinput H.separate
  | node a left right ihLeft ihRight =>
      cases u with
      | leaf b => exact absurd hinput.symm H.separate
      | node b left' right' =>
          obtain ⟨rfl, hleft, hright⟩ := H.node_inj hinput
          have hcollLeft : ∀ x ∈ left.inputs H, ∀ y ∈ left'.inputs H, H.hash x = H.hash y → x = y :=
            fun x hx y hy => hcoll x (List.mem_cons_of_mem _ (List.mem_append_left _ hx)) y
              (List.mem_cons_of_mem _ (List.mem_append_left _ hy))
          have hcollRight : ∀ x ∈ right.inputs H, ∀ y ∈ right'.inputs H, H.hash x = H.hash y →
            x = y :=
            fun x hx y hy => hcoll x (List.mem_cons_of_mem _ (List.mem_append_right _ hx)) y
              (List.mem_cons_of_mem _ (List.mem_append_right _ hy))
          rw [ihLeft hcollLeft hleft (hcollLeft _ (left.input_mem_inputs H) _
              (left'.input_mem_inputs H) hleft),
            ihRight hcollRight hright (hcollRight _ (right.input_mem_inputs H) _
              (right'.input_mem_inputs H) hright)]

end HashTree
