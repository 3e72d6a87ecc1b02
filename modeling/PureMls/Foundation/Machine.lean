import Mathlib.Logic.Relation

/-! # Machines with outputs

A machine reads inputs one after the other; every input changes the state and gives an
output. -/

namespace Machine

variable {σ ι ω : Type}

/-- The outputs on a list of inputs. -/
def outputs (step : σ → ι → σ × ω) : σ → List ι → List ω
  | _, [] => []
  | s, input :: inputs => (step s input).2 :: outputs step (step s input).1 inputs

/-- The state after a list of inputs. -/
def final (step : σ → ι → σ × ω) : σ → List ι → σ
  | s, [] => s
  | s, input :: inputs => final step (step s input).1 inputs

theorem final_append (step : σ → ι → σ × ω) (s : σ) (inputs inputs' : List ι) :
    final step s (inputs ++ inputs') = final step (final step s inputs) inputs' := by
  induction inputs generalizing s with
  | nil => rfl
  | cons input inputs ih => exact ih _

/-- States related by a bisimulation give the same outputs for ever. -/
theorem outputs_congr {step : σ → ι → σ × ω} {R : σ → σ → Prop}
    (hstep : ∀ s s' input, R s s' →
      (step s input).2 = (step s' input).2 ∧ R (step s input).1 (step s' input).1)
    {s s' : σ} (h : R s s') (inputs : List ι) : outputs step s inputs = outputs step s' inputs := by
  induction inputs generalizing s s' with
  | nil => rfl
  | cons input inputs ih =>
      obtain ⟨hout, hnext⟩ := hstep s s' input h
      rw [outputs, outputs, hout, ih hnext]

/-- Two machines of which one reads a part of what the other reads answer alike, as long as a
relation between their states goes on under the inputs that are allowed. -/
theorem outputs_eq_map {τ κ : Type} {step : σ → ι → σ × ω} {step' : τ → κ → τ × ω} {f : ι → κ}
    {Allowed : ι → Prop} {R : σ → τ → Prop}
    (hstep : ∀ s t input, Allowed input → R s t →
      (step s input).2 = (step' t (f input)).2 ∧ R (step s input).1 (step' t (f input)).1)
    {s : σ} {t : τ} (h : R s t) {inputs : List ι} (hallowed : ∀ input ∈ inputs, Allowed input) :
    outputs step s inputs = outputs step' t (inputs.map f) := by
  induction inputs generalizing s t with
  | nil => rfl
  | cons input inputs ih =>
      obtain ⟨hout, hnext⟩ := hstep s t input (hallowed input List.mem_cons_self) h
      rw [List.map_cons, outputs, outputs, hout,
        ih hnext fun other hother => hallowed other (List.mem_cons_of_mem _ hother)]

/-- What every step preserves holds after any number of steps. -/
theorem final_invariant {step : σ → ι → σ × ω} {P : σ → Prop}
    (hstep : ∀ s input, P s → P (step s input).1) {s : σ} (h : P s) (inputs : List ι) :
    P (final step s inputs) := by
  induction inputs generalizing s with
  | nil => exact h
  | cons input inputs ih => exact ih (hstep s input h)

end Machine
