import PureMls.Foundation.Walk

/-! # Fields that the end of a buffer cuts off

A decoder that indexes its buffer refuses it with another exception than `ValueError` where a byte
is missing. -/

namespace PureMls

variable {α β : Type}

/-- The exception of a refusal. -/
inductive Refusal : Fault → Prop where
  | valueError (message : String) : Refusal (.valueError message)

namespace Py

/-- The call returns or raises `ValueError`. -/
abbrev Graceful (x : Py α) : Prop := x.FailsWith Refusal

theorem graceful_bind_iff {x : Py α} {f : α → Py β} :
    (x >>= f).Graceful ↔ x.Graceful ∧ ∀ a, x = .ok a → (f a).Graceful := FailsWith.bind_iff

theorem Graceful.ends {x : Py α} (h : x.Graceful) : x.Ends := by
  refine h.mono fun e he => ?_
  cases he
  exact nofun

theorem graceful_map_iff {x : Py α} {f : α → β} : (f <$> x).Graceful ↔ x.Graceful := by
  cases x with
  | error e =>
      exact ⟨fun h e' he => h e' (by cases he; rfl), fun h e' he => h e' (by cases he; rfl)⟩
  | ok a => exact iff_of_true (.ok _) (.ok _)

theorem not_graceful_error {e : Fault} (h : ¬ Refusal e) : ¬ Graceful (.error e : Py α) :=
  fun hgraceful => h (hgraceful e rfl)

theorem Graceful.require {condition : Prop} [Decidable condition] (message : String) :
    (Py.require condition (.valueError message)).Graceful := FailsWith.require (.valueError message)

end Py

/-! ## Conditions on a place in a buffer -/

abbrev FitsAt := Bytes → ℕ → Prop

namespace FitsAt

def always : FitsAt := fun _ _ => True

/-- So many bytes are left. -/
def bytes (n : ℕ) : FitsAt := fun buf offset => offset + n ≤ buf.length

/-- A first field, and what comes after it at the place where it ends. -/
def andThen (C : FitsAt) (d : Decoder α) (D : α → FitsAt) : FitsAt := fun buf offset =>
  C buf offset ∧ ∀ x next, d buf offset = .ok (x, next) → D x buf next

/-- What is read only under a condition on what was read before. -/
def given (condition : Prop) (C : FitsAt) : FitsAt := fun buf offset => condition → C buf offset

/-- So many fields one after the other. -/
def times (C : FitsAt) (d : Decoder α) : ℕ → FitsAt
  | 0 => always
  | n + 1 => C.andThen d fun _ => times C d n

/-- A field that is the whole of another buffer. -/
def within (C : FitsAt) (data : Bytes) : FitsAt := fun _ _ => C data 0

/-- Each of the fields that a loop to the end of a buffer comes to. -/
def each (C : FitsAt) (d : Decoder α) (raw : Bytes) : Prop :=
  ∀ i offset, StartsAt d raw i offset → C raw offset

end FitsAt

/-! ## Decoders -/

/-- The decoder returns or raises `ValueError` exactly where the condition holds. -/
def GracefulIff (d : Decoder α) (C : FitsAt) : Prop :=
  ∀ buf offset, (d buf offset).Graceful ↔ C buf offset

namespace GracefulIff

variable {d : Decoder α} {C : FitsAt}

theorem of_graceful (h : ∀ buf offset, (d buf offset).Graceful) : GracefulIff d .always :=
  fun buf offset => iff_of_true (h buf offset) trivial

theorem pure (x : α) : GracefulIff (pure x) .always := of_graceful fun _ _ => .ok _

theorem lift {x : Py α} {condition : Prop} (h : x.Graceful ↔ condition) :
    GracefulIff (Decoder.lift x) fun _ _ => condition := fun _ _ =>
  (Py.graceful_bind_iff.trans (and_iff_left fun _ _ => .ok _)).trans h

theorem bind {f : α → Decoder β} {D : α → FitsAt} (hd : GracefulIff d C)
    (hf : ∀ x, GracefulIff (f x) (D x)) : GracefulIff (d >>= f) (C.andThen d D) := by
  intro buf offset
  refine Py.graceful_bind_iff.trans (and_congr (hd buf offset) ?_)
  constructor
  · exact fun h x next hread => (hf x buf next).mp (h (x, next) hread)
  · exact fun h read hread => (hf read.1 buf read.2).mpr (h read.1 read.2 hread)

/-- A second part that is never cut off. -/
theorem bind_last {f : α → Decoder β} (hd : GracefulIff d C) (hf : ∀ x, GracefulIff (f x) .always) :
    GracefulIff (d >>= f) C := fun buf offset =>
  (hd.bind hf buf offset).trans (and_iff_left fun _ _ _ => trivial)

/-- A check of what was read before. -/
theorem bind_check {condition : Prop} [Decidable condition] {message : String}
    {f : Unit → Decoder β} {D : FitsAt} (hf : GracefulIff (f ()) D) :
    GracefulIff (Decoder.lift (Py.require condition (.valueError message)) >>= f)
      (.given condition D) := by
  intro buf offset
  by_cases hcondition : condition
  · have hcheck : (Decoder.lift (Py.require condition (.valueError message)) >>= f) buf offset =
      f () buf offset := by
      change (Decoder.lift _ buf offset >>= fun read => f read.1 buf read.2) = _
      rw [Py.require_of _ hcondition]
      rfl
    rw [hcheck, hf buf offset]
    exact ⟨fun h _ => h, fun h => h hcondition⟩
  · have hcheck : (Decoder.lift (Py.require condition (.valueError message)) >>= f) buf offset =
        .error (.valueError message) := by
      change (Decoder.lift _ buf offset >>= fun read => f read.1 buf read.2) = _
      rw [Py.require, if_neg hcondition]
      rfl
    rw [hcheck]
    exact iff_of_true (.error (.valueError message)) fun h => absurd h hcondition

theorem run (hd : GracefulIff d C) (data : Bytes) : (d.run data).Graceful ↔ C data 0 :=
  Py.graceful_map_iff.trans (hd data 0)

theorem within (hd : GracefulIff d C) (data : Bytes) :
    GracefulIff (Decoder.lift (d.run data)) (C.within data) :=
  .lift (GracefulIff.run hd data)

/-- A second part that is chosen by a condition. -/
theorem ite {condition : Prop} [Decidable condition] {d' : Decoder α} {C' : FitsAt}
    (hd : GracefulIff d C) (hd' : GracefulIff d' C') :
    GracefulIff (if condition then d else d') (if condition then C else C') := by
  split_ifs
  · exact hd
  · exact hd'

theorem times (hd : GracefulIff d C) (n : ℕ) : GracefulIff (d.times n) (C.times d n) := by
  induction n with
  | zero => exact .pure []
  | succ n ih => exact hd.bind fun x => ih.bind_last fun xs => .pure (x :: xs)

private theorem untilEnd (hd : GracefulIff d C) {raw : Bytes} (heach : C.each d raw)
    (hnext : ∀ offset item next, d raw offset = .ok (item, next) → offset < next) {fuel offset : ℕ}
    (hfuel : raw.length ≤ offset + fuel)
    (hstart : offset < raw.length → ∃ i, StartsAt d raw i offset) :
    (d.untilEnd raw fuel offset).Graceful := by
  induction fuel generalizing offset with
  | zero =>
      rw [Decoder.untilEnd, if_neg (by omega)]
      exact .ok _
  | succ fuel ih =>
      rw [Decoder.untilEnd]
      by_cases hlt : offset < raw.length
      · obtain ⟨i, hi⟩ := hstart hlt
        rw [if_pos hlt]
        refine Py.graceful_bind_iff.mpr ⟨(hd raw offset).mpr (heach i offset hi),
          fun read hread => ?_⟩
        obtain ⟨item, next⟩ := read
        have hstep := hnext offset item next hread
        exact Py.graceful_bind_iff.mpr ⟨ih (by omega) fun hend => ⟨i + 1, hi.next hread hend⟩,
          fun _ _ => .ok _⟩
      · rw [if_neg hlt]
        exact .ok _

/-- A loop over items that are not empty is graceful when each item is. -/
theorem all (hd : GracefulIff d C) (raw : Bytes)
    (hnext : ∀ offset item next, d raw offset = .ok (item, next) → offset < next) :
    (d.all raw).Graceful ↔ C.each d raw := by
  constructor
  · intro h i offset hstart
    -- the loop goes on from every start, with rounds left
    suffices hrest : offset < raw.length ∧ ∃ fuel, raw.length ≤ offset + fuel ∧
        (d.untilEnd raw fuel offset).Graceful by
      obtain ⟨hlt, fuel, hfuel, hgraceful⟩ := hrest
      obtain ⟨fuel, rfl⟩ : ∃ f, fuel = f + 1 := ⟨fuel - 1, by omega⟩
      rw [Decoder.untilEnd, if_pos hlt] at hgraceful
      exact (hd raw offset).mp (Py.graceful_bind_iff.mp hgraceful).1
    induction hstart with
    | first hpos => exact ⟨hpos, raw.length, by omega, h⟩
    | @next i offset next item _ hread hend ih =>
        obtain ⟨hlt, fuel, hfuel, hgraceful⟩ := ih
        obtain ⟨fuel, rfl⟩ : ∃ f, fuel = f + 1 := ⟨fuel - 1, by omega⟩
        rw [Decoder.untilEnd, if_pos hlt] at hgraceful
        have hafter := (Py.graceful_bind_iff.mp hgraceful).2 (item, next) hread
        have hstep := hnext offset item next hread
        exact ⟨hend, fuel, by omega, (Py.graceful_bind_iff.mp hafter).1⟩
  · intro heach
    exact hd.untilEnd heach hnext (by omega) fun hpos => ⟨0, .first hpos⟩

end GracefulIff

end PureMls
