import Mathlib.Data.List.Basic
import Mathlib.Data.List.Induction

/-! # Derivation chains

A secret is stepped forward by a word, letter by letter. As long as no two of the steps collide and
none of them leads back to the start, different words end in different secrets. -/

namespace DerivationChain

variable {σ δ : Type*} (step : σ → δ → σ)

/-- What the steps of a word are applied to. -/
def inputs : σ → List δ → List (σ × δ)
  | _, [] => []
  | s, d :: word => (s, d) :: inputs (step s d) word

/-- No two steps collide. -/
def InjectiveOn (calls : List (σ × δ)) : Prop :=
  ∀ a ∈ calls, ∀ b ∈ calls, step a.1 a.2 = step b.1 b.2 → a = b

/-- No step leads back to `s`. -/
def Avoids (s : σ) (calls : List (σ × δ)) : Prop := ∀ a ∈ calls, step a.1 a.2 ≠ s

variable {step} {s : σ}

theorem inputs_append (s : σ) (word more : List δ) :
    inputs step s (word ++ more) = inputs step s word ++ inputs step (word.foldl step s) more := by
  induction word generalizing s with
  | nil => rfl
  | cons d word ih => rw [List.cons_append, inputs, ih, inputs, List.foldl_cons, List.cons_append]

/-- Words that end in one secret are equal: their last letters are, and so on down to the start. -/
theorem word_eq {calls : List (σ × δ)} {u v : List δ} (hinj : InjectiveOn step calls)
    (havoid : Avoids step s calls) (hu : inputs step s u ⊆ calls) (hv : inputs step s v ⊆ calls)
    (h : u.foldl step s = v.foldl step s) : u = v := by
  induction u using List.reverseRecOn generalizing v with
  | nil =>
      rcases List.eq_nil_or_concat' v with rfl | ⟨v, d, rfl⟩
      · rfl
      · rw [inputs_append, List.append_subset] at hv
        rw [List.foldl_concat] at h
        exact absurd h.symm (havoid _ (hv.2 List.mem_cons_self))
  | append_singleton u d ih =>
      rcases List.eq_nil_or_concat' v with rfl | ⟨v, d', rfl⟩
      · rw [inputs_append, List.append_subset] at hu
        rw [List.foldl_concat] at h
        exact absurd h (havoid _ (hu.2 List.mem_cons_self))
      · rw [inputs_append, List.append_subset] at hu hv
        rw [List.foldl_concat, List.foldl_concat] at h
        have hlast := hinj _ (hu.2 List.mem_cons_self) _ (hv.2 List.mem_cons_self) h
        obtain ⟨hsecret, rfl⟩ := Prod.mk.inj hlast
        rw [ih hu.1 hv.1 hsecret]

end DerivationChain
