import Mathlib.Data.List.Nodup
import Mathlib.Data.Set.Lattice
import Mathlib.Order.CompletePartialOrder

/-! # Exact covers

A list of pieces, each with an extent and, within it, the elements that it reaches. The list covers
a set exactly if it stays inside the set and reaches every live element through one piece. -/

variable {α β : Type*}

structure ExactCover (extent reach : α → Set β) (live target : Set β) (pieces : List α) : Prop where
  nodup : pieces.Nodup
  inside : ∀ x ∈ pieces, extent x ⊆ target
  reached : ∀ b ∈ target, b ∈ live → ∃! x, x ∈ pieces ∧ b ∈ reach x

namespace ExactCover

variable {extent reach : α → Set β} {live s t : Set β} {xs ys : List α}

theorem nil (hlive : ∀ b ∈ s, b ∉ live) : ExactCover extent reach live s [] where
  nodup := List.nodup_nil
  inside _ hx := (List.not_mem_nil hx).elim
  reached b hb hlive' := (hlive b hb hlive').elim

/-- Pieces that do not reach an element leave the one that does the only one. -/
theorem existsUnique_or {b : β} (h : ∃! x, x ∈ xs ∧ b ∈ reach x) (hys : ∀ y ∈ ys, b ∉ reach y) :
    ∃! x, (x ∈ xs ∨ x ∈ ys) ∧ b ∈ reach x := by
  obtain ⟨x, ⟨hx, hbx⟩, huniq⟩ := h
  refine ⟨x, ⟨.inl hx, hbx⟩, ?_⟩
  rintro y ⟨hy | hy, hby⟩
  · exact huniq y ⟨hy, hby⟩
  · exact absurd hby (hys y hy)

/-- Covers of disjoint sets are put together by appending them. -/
theorem append (hne : ∀ x, (extent x).Nonempty) (hreach : ∀ x, reach x ⊆ extent x)
    (hxs : ExactCover extent reach live s xs) (hys : ExactCover extent reach live t ys)
    (hst : Disjoint s t) : ExactCover extent reach live (s ∪ t) (xs ++ ys) := by
  refine ⟨?_, ?_, ?_⟩
  · apply hxs.nodup.append hys.nodup
    intro x hx hy
    obtain ⟨b, hb⟩ := hne x
    exact Set.disjoint_left.mp hst (hxs.inside x hx hb) (hys.inside x hy hb)
  · intro x hx
    rcases List.mem_append.mp hx with hx | hx
    · exact (hxs.inside x hx).trans Set.subset_union_left
    · exact (hys.inside x hx).trans Set.subset_union_right
  · intro b hb hlive
    simp only [List.mem_append]
    rcases hb with hb | hb
    · apply existsUnique_or (hxs.reached b hb hlive)
      intro y hy hby
      exact Set.disjoint_left.mp hst hb (hys.inside y hy (hreach y hby))
    · simp only [or_comm (a := _ ∈ xs)]
      apply existsUnique_or (hys.reached b hb hlive)
      intro x hx hbx
      exact Set.disjoint_left.mp hst (hxs.inside x hx (hreach x hbx)) hb

/-- A piece that reaches all but `missed`, followed by a piece for every element of `missed`. -/
theorem cons_map {top : α} {single : β → α} {missed : List β} (hmissed : missed.Nodup)
    (htop : ∀ b, b ∈ reach top ↔ b ∈ extent top ∧ b ∉ missed)
    (hsingle : ∀ b, extent (single b) = {b}) (hreach : ∀ b, b ∈ reach (single b))
    (hle : ∀ x, reach x ⊆ extent x) (hne : ∀ b ∈ missed, single b ≠ top)
    (hin : ∀ b ∈ missed, b ∈ extent top) :
    ExactCover extent reach live (extent top) (top :: missed.map single) := by
  have hinj : Function.Injective single := by
    intro b b' heq
    rw [← Set.singleton_eq_singleton_iff, ← hsingle, ← hsingle, heq]
  refine ⟨?_, ?_, ?_⟩
  · rw [List.nodup_cons]
    refine ⟨?_, hmissed.map hinj⟩
    intro hmem
    obtain ⟨b, hb, heq⟩ := List.mem_map.mp hmem
    exact hne b hb heq
  · intro x hx
    rcases List.mem_cons.mp hx with rfl | hx
    · exact subset_rfl
    · obtain ⟨b, hb, rfl⟩ := List.mem_map.mp hx
      rw [hsingle, Set.singleton_subset_iff]
      exact hin b hb
  · intro b hb _
    by_cases hmem : b ∈ missed
    · refine ⟨single b, ⟨List.mem_cons_of_mem top (List.mem_map_of_mem hmem), hreach b⟩, ?_⟩
      rintro y ⟨hy, hby⟩
      rcases List.mem_cons.mp hy with rfl | hy
      · exact absurd hmem ((htop b).mp hby).2
      · obtain ⟨b', -, rfl⟩ := List.mem_map.mp hy
        have hb' := hle _ hby
        rw [hsingle, Set.mem_singleton_iff] at hb'
        rw [hb']
    · refine ⟨top, ⟨List.mem_cons_self, (htop b).mpr ⟨hb, hmem⟩⟩, ?_⟩
      rintro y ⟨hy, hby⟩
      rcases List.mem_cons.mp hy with rfl | hy
      · rfl
      · obtain ⟨b', hb', rfl⟩ := List.mem_map.mp hy
        have hbb' := hle _ hby
        rw [hsingle, Set.mem_singleton_iff] at hbb'
        exact absurd (hbb' ▸ hb') hmem

end ExactCover
