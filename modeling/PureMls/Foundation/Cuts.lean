import PureMls.Foundation.Walk

/-! # Buffers that are extended or cut short

Decoders that do not see what follows a value refuse a value whose end is missing. -/

namespace PureMls

variable {α β : Type} {d : Decoder α}

/-- What the decoder reads does not change when bytes are put at the end of the buffer. -/
def IgnoresRest (d : Decoder α) : Prop :=
  ∀ buf rest offset read, d buf offset = .ok read → d (buf ++ rest) offset = .ok read

namespace IgnoresRest

theorem lift (x : Py α) : IgnoresRest (Decoder.lift x) := fun _ _ _ _ h => h

theorem pure (x : α) : IgnoresRest (pure x : Decoder α) := fun _ _ _ _ h => h

theorem bind {f : α → Decoder β} (hd : IgnoresRest d) (hf : ∀ x, IgnoresRest (f x)) :
    IgnoresRest (d >>= f) := by
  intro buf rest offset read h
  obtain ⟨⟨x, mid⟩, hx, hread⟩ := Py.bind_eq_ok.mp h
  exact Py.bind_eq_ok.mpr ⟨(x, mid), hd buf rest offset _ hx, hf x buf rest mid read hread⟩

/-- A standalone buffer may be followed by anything. -/
theorem run_append (hd : IgnoresRest d) {buf : Bytes} {x : α} (h : d.run buf = .ok x)
    (rest : Bytes) : d.run (buf ++ rest) = .ok x := by
  obtain ⟨read, hread, rfl⟩ := Py.map_eq_ok.mp h
  exact Py.map_eq_ok.mpr ⟨read, hd buf rest 0 read hread, rfl⟩

end IgnoresRest

/-- The decoder returns or raises, whatever it is given. -/
def Ends (d : Decoder α) : Prop := ∀ buf offset, d buf offset ≠ .error .hang

theorem Ends.bind {f : α → Decoder β} (hd : Ends d) (hf : ∀ x, Ends (f x)) : Ends (d >>= f) := by
  intro buf offset h
  change (d buf offset >>= fun read => f read.1 buf read.2) = _ at h
  cases hread : d buf offset with
  | error e =>
      rw [hread] at h
      cases h
      exact hd buf offset hread
  | ok read =>
      rw [hread] at h
      exact hf read.1 buf read.2 h

/-- What the decoder reads inside the buffer does not change when bytes are put at its end. A slice
that is not checked has this, and is shortened only where it ends past the buffer. -/
def KeepsInside (d : Decoder α) : Prop :=
  ∀ buf rest offset x next, d buf offset = .ok (x, next) → next ≤ buf.length →
    d (buf ++ rest) offset = .ok (x, next)

theorem IgnoresRest.keepsInside (h : IgnoresRest d) : KeepsInside d :=
  fun buf rest offset _ _ hread _ => h buf rest offset _ hread

/-- An encoding whose end is missing is refused. -/
theorem ReadsAs.raises_take {enc : Bytes} {x : α} (h : ReadsAs d enc x) (hkeeps : KeepsInside d)
    (hinside : EndsInside d) (hends : Ends d) (pre : Bytes) {k : ℕ} (hk : k < enc.length) :
    (d (pre ++ enc.take k) pre.length).Raises := by
  refine Py.raises_iff.mpr ⟨fun read hread => ?_, hends _ _⟩
  obtain ⟨y, next⟩ := read
  have hbound := hinside _ _ _ _ hread
  have hlong := hkeeps _ (enc.drop k) _ _ _ hread hbound
  rw [List.append_assoc, List.take_append_drop] at hlong
  have hwhole := h.at_start pre []
  rw [List.append_nil, hlong, Except.ok.injEq, Prod.mk.injEq] at hwhole
  rw [List.length_append, List.length_take] at hbound
  omega

/-! ## Decoders that stream -/

/-- The decoder fails in no other way than with a fault of `P`, whatever it is given. -/
def FailsIn (P : Fault → Prop) (d : Decoder α) : Prop := ∀ buf offset, (d buf offset).FailsWith P

namespace FailsIn

variable {P : Fault → Prop}

theorem ends (h : FailsIn P d) (hP : ¬ P .hang) : Ends d :=
  fun buf offset he => hP (h buf offset _ he)

theorem bind {f : α → Decoder β} (hd : FailsIn P d) (hf : ∀ x, FailsIn P (f x)) :
    FailsIn P (d >>= f) :=
  fun buf offset => (hd buf offset).bind fun read => hf read.1 buf read.2

theorem run (h : FailsIn P d) (data : Bytes) : (d.run data).FailsWith P := (h data 0).map _

private theorem untilEnd (h : FailsIn P d) {raw : Bytes}
    (hnext : ∀ offset item next, d raw offset = .ok (item, next) → offset < next) {fuel offset : ℕ}
    (hfuel : raw.length ≤ offset + fuel) : (d.untilEnd raw fuel offset).FailsWith P := by
  induction fuel generalizing offset with
  | zero =>
      rw [Decoder.untilEnd, if_neg (by omega)]
      exact .ok _
  | succ fuel ih =>
      rw [Decoder.untilEnd]
      split_ifs with hlt
      · cases hread : d raw offset with
        | error e => exact .error (h raw offset e hread)
        | ok read =>
            obtain ⟨item, next⟩ := read
            have hstep := hnext offset item next hread
            exact (ih (by omega)).bind fun _ => .ok _
      · exact .ok _

/-- A loop over items that are not empty comes to the end of its buffer. -/
theorem all (h : FailsIn P d) (raw : Bytes)
    (hnext : ∀ offset item next, d raw offset = .ok (item, next) → offset < next) :
    (d.all raw).FailsWith P :=
  h.untilEnd hnext (by omega)

end FailsIn

/-- A decoder that goes forward, does not look behind what it reads and fails only as `P` says. -/
structure Streams (P : Fault → Prop) (d : Decoder α) : Prop where
  advances : Advances d
  keeps : KeepsInside d
  fails : FailsIn P d

namespace Streams

variable {P : Fault → Prop}

theorem pure (x : α) : Streams P (pure x) :=
  ⟨.pure x, (IgnoresRest.pure x).keepsInside, fun _ _ => .ok _⟩

theorem lift {x : Py α} (h : x.FailsWith P) : Streams P (Decoder.lift x) :=
  ⟨.lift x, (IgnoresRest.lift x).keepsInside, fun _ _ => h.bind fun _ => .ok _⟩

theorem bind {f : α → Decoder β} (hd : Streams P d) (hf : ∀ x, Streams P (f x)) :
    Streams P (d >>= f) where
  advances := hd.advances.bind fun x => (hf x).advances
  keeps := by
    intro buf rest offset y next hread hle
    obtain ⟨⟨x, mid⟩, hx, hy⟩ := Py.bind_eq_ok.mp hread
    have hmid : mid ≤ next := (hf x).advances buf mid y next hy
    exact Py.bind_eq_ok.mpr ⟨(x, mid), hd.keeps buf rest offset x mid hx (hmid.trans hle),
      (hf x).keeps buf rest mid y next hy hle⟩
  fails := hd.fails.bind fun x => (hf x).fails

theorem ite {condition : Prop} [Decidable condition] {d' : Decoder α} (h : Streams P d)
    (h' : Streams P d') : Streams P (if condition then d else d') := by
  split_ifs
  · exact h
  · exact h'

theorem times (h : Streams P d) (n : ℕ) : Streams P (d.times n) := by
  induction n with
  | zero => exact .pure []
  | succ n ih => exact h.bind fun _ => ih.bind fun _ => .pure _

/-- Nothing is made of an encoding whose end is missing. -/
theorem raises_take (h : Streams P d) (hP : ¬ P .hang) (hinside : EndsInside d) {enc : Bytes}
    {x : α} (hreads : ReadsAs d enc x) (pre : Bytes) {k : ℕ} (hk : k < enc.length) :
    (d (pre ++ enc.take k) pre.length).Raises :=
  hreads.raises_take h.keeps hinside (h.fails.ends hP) pre hk

end Streams

end PureMls
