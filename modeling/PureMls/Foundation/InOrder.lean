import Mathlib.Data.List.Range

/-! # Consumers of a log

A consumer takes the item at its position and moves on by one. Every other item leaves it where it
is, whenever and however often it is offered. -/

namespace InOrder

variable {σ : Type*} {step : σ → ℕ → σ} {pos : σ → ℕ} {bound : ℕ} {P : σ → Prop} {s : σ}

/-- A consumer of the first `bound` items, of which `P` holds throughout. -/
structure Consumer (step : σ → ℕ → σ) (pos : σ → ℕ) (bound : ℕ) (P : σ → Prop) : Prop where
  moves : ∀ s, P s → pos s < bound → P (step s (pos s)) ∧ pos (step s (pos s)) = pos s + 1
  stays : ∀ s k, P s → ¬ (k = pos s ∧ pos s < bound) → P (step s k) ∧ pos (step s k) = pos s

namespace Consumer

theorem keeps (h : Consumer step pos bound P) (hs : P s) (offers : List ℕ) :
    P (offers.foldl step s) := by
  induction offers generalizing s with
  | nil => exact hs
  | cons k offers ih =>
      apply ih
      by_cases hk : k = pos s ∧ pos s < bound
      · rw [hk.1]
        exact (h.moves s hs hk.2).1
      · exact (h.stays s k hs hk).1

/-- The consumer is through if and only if what it lacked was offered in order, whatever else was
offered in between. -/
theorem through_iff (h : Consumer step pos bound P) (hs : P s) (hle : pos s ≤ bound)
    (offers : List ℕ) : pos (offers.foldl step s) = bound ↔
      (List.range' (pos s) (bound - pos s)).Sublist offers := by
  induction offers generalizing s with
  | nil =>
      rw [List.foldl_nil, List.sublist_nil, List.range'_eq_nil_iff]
      omega
  | cons k offers ih =>
      rw [List.foldl_cons]
      by_cases hk : k = pos s ∧ pos s < bound
      · obtain ⟨rfl, hlt⟩ := hk
        obtain ⟨hnext, hpos⟩ := h.moves s hs hlt
        have hlack : bound - pos s = (bound - (pos s + 1)) + 1 := by omega
        rw [ih hnext (by omega), hpos, hlack, List.range'_succ, List.cons_sublist_cons]
      · obtain ⟨hnext, hpos⟩ := h.stays s k hs hk
        rw [ih hnext (by omega), hpos]
        refine ⟨fun hsub => hsub.cons k, fun hsub => ?_⟩
        rcases List.sublist_cons_iff.mp hsub with hsub | ⟨lack, hlack, hsub⟩
        · exact hsub
        · -- an item that is lacking and comes first is the next one
          cases hn : bound - pos s with
          | zero => exact List.nil_sublist _
          | succ n =>
              rw [hn, List.range'_succ, List.cons.injEq] at hlack
              exact absurd ⟨hlack.1.symm, by omega⟩ hk

end Consumer

end InOrder
