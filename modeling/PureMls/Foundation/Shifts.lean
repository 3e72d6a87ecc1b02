import Mathlib.Data.List.Forall2

/-! # Items behind too many letters

A sequence of items in their canonical spellings, with some letters in front of it, is not read as
the same items again. -/

namespace PureMls

namespace Shifts

variable {α β : Type}

/-- A word that commutes with a shift is made of the letters that shift it. -/
theorem mem_of_commute {u v w : List α} (hu : u ≠ []) (h : u ++ v = v ++ w) {a : α} (ha : a ∈ v) :
    a ∈ u := by
  induction hn : v.length using Nat.strongRecOn generalizing v with
  | ind n ih =>
      rcases List.append_eq_append_iff.mp h with ⟨t, hv, ht⟩ | ⟨t, hv, -⟩
      · -- the word starts with the shift, and what follows commutes with it as well
        rw [hv, List.mem_append] at ha
        rcases ha with hu' | ht'
        · exact hu'
        · have hlen : t.length < n := by
            have hpos := List.length_pos_iff.mpr hu
            rw [← hn, hv, List.length_append]
            omega
          exact ih t.length hlen (hv.symm.trans ht) ht' rfl
      · rw [hv]
        exact List.mem_append_left t ha

/-- Behind an item the letters in front of it come out again, in some order. -/
theorem shift {front item after rest : List α} (hfront : front ≠ [])
    (h : item ++ after = front ++ (item ++ rest)) :
    ∃ front', front' ≠ [] ∧ (∀ a ∈ front', a ∈ front) ∧ after = front' ++ rest := by
  have hpos := List.length_pos_iff.mpr hfront
  rw [← List.append_assoc] at h
  rcases List.append_eq_append_iff.mp h with ⟨t, ht, hafter⟩ | ⟨t, ht, -⟩
  · refine ⟨t, ?_, fun a ha => ?_, hafter⟩
    · rintro rfl
      have hlen := congrArg List.length ht
      simp only [List.length_append, List.append_nil] at hlen
      omega
    · have hmem : a ∈ front ++ item := ht ▸ List.mem_append_right item ha
      rcases List.mem_append.mp hmem with hfront' | hitem
      · exact hfront'
      · exact mem_of_commute hfront ht hitem
  · have hlen := congrArg List.length ht
    simp only [List.length_append] at hlen
    omega

/-- Letters in front that lead canonical spellings only: an item whose canonical spelling starts
with none of them is never reached. -/
theorem not_read {canon : β → List α} {G : List α → β → Prop} {front rest : List α}
    {spellings : List (List α)} {items : List β} {item : β} (hfront : front ≠ [])
    (hcanon : ∀ a tail x, G (a :: tail) x → a ∈ front → a :: tail = canon x) (hne : ∀ x, ¬ G [] x)
    (hall : List.Forall₂ G spellings items) (hitem : item ∈ items)
    (hlead : ∀ a tail, canon item = a :: tail → a ∉ front) :
    spellings.flatten ++ rest ≠ front ++ (items.map canon).flatten := by
  induction hall generalizing front with
  | nil => cases hitem
  | @cons spelling x spellings items hspelling hall ih =>
      intro h
      rw [List.flatten_cons, List.map_cons, List.flatten_cons, List.append_assoc] at h
      -- the first spelling starts with a letter in front, so it is canonical
      obtain ⟨a, tail, rfl⟩ : ∃ a tail, spelling = a :: tail := by
        cases spelling with
        | nil => exact absurd hspelling (hne x)
        | cons a tail => exact ⟨a, tail, rfl⟩
      obtain ⟨b, letters, rfl⟩ := List.exists_cons_of_ne_nil hfront
      obtain rfl : a = b := (List.cons.inj h).1
      have hx := hcanon a tail x hspelling (List.mem_cons_self ..)
      rw [hx] at h
      obtain ⟨front', hfront', hmem, hafter⟩ := shift hfront h
      rcases List.mem_cons.mp hitem with rfl | hitem'
      · exact hlead a tail hx.symm (List.mem_cons_self ..)
      · refine ih hfront' (fun a tail x hG ha => hcanon a tail x hG (hmem a ha)) hitem' ?_ hafter
        exact fun a tail heq ha => hlead a tail heq (hmem a ha)

end Shifts

end PureMls
