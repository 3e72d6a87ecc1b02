import Mathlib.Data.List.Forall2

/-! # Programs side by side

Two programs that may fail run in step: they fail alike, or they end in results of which a relation
holds. The relation goes through the steps of a program and through its loops. -/

namespace SideBySide

variable {ε α β γ δ : Type}

inductive Related (R : α → β → Prop) : Except ε α → Except ε β → Prop where
  | error (e : ε) : Related R (.error e) (.error e)
  | ok {a : α} {b : β} : R a b → Related R (.ok a) (.ok b)

namespace Related

variable {R : α → β → Prop} {S : γ → δ → Prop} {x : Except ε α} {y : Except ε β}

theorem of_eq {x y : Except ε α} (h : x = y) : Related Eq x y := by
  subst h
  cases x with
  | error e => exact .error e
  | ok a => exact .ok rfl

theorem of_map_eq {f : α → γ} {g : β → γ} (h : f <$> x = g <$> y) :
    Related (fun a b => f a = g b) x y := by
  cases x with
  | error e =>
      cases y with
      | error e' =>
          obtain rfl : e = e' := Except.error.inj h
          exact .error e
      | ok b => cases h
  | ok a =>
      cases y with
      | error e => cases h
      | ok b => exact .ok (Except.ok.inj h)

theorem bind {f : α → Except ε γ} {g : β → Except ε δ} (h : Related R x y)
    (hf : ∀ a b, R a b → Related S (f a) (g b)) : Related S (x >>= f) (y >>= g) := by
  cases h with
  | error e => exact .error e
  | ok hab => exact hf _ _ hab

/-- The first steps are the same. -/
theorem bind_same {x : Except ε α} {f : α → Except ε γ} {g : α → Except ε δ}
    (hf : ∀ a, Related S (f a) (g a)) : Related S (x >>= f) (x >>= g) :=
  (of_eq rfl).bind fun a _ hab => hab ▸ hf a

theorem map {f : α → γ} {g : β → δ} (h : Related R x y) (hf : ∀ a b, R a b → S (f a) (g b)) :
    Related S (f <$> x) (g <$> y) := by
  cases h with
  | error e => exact .error e
  | ok hab => exact .ok (hf _ _ hab)

/-- Loops over lists whose items are related, from related starts. -/
theorem foldlM {Q : γ → δ → Prop} {f : α → γ → Except ε α} {g : β → δ → Except ε β}
    (hstep : ∀ a b c d, R a b → Q c d → Related R (f a c) (g b d)) {cs : List γ} {ds : List δ}
    (hitems : List.Forall₂ Q cs ds) {a : α} {b : β} (h : R a b) :
    Related R (cs.foldlM f a) (ds.foldlM g b) := by
  induction hitems generalizing a b with
  | nil => exact .ok h
  | cons hitem _ ih =>
      rw [List.foldlM_cons, List.foldlM_cons]
      exact (hstep _ _ _ _ h hitem).bind fun _ _ => ih

end Related

end SideBySide
