import PureMls.Foundation.Python

/-! # Streaming decoders

A decoder reads a value from a buffer at an offset and returns the offset after it.
`ReadsAs d enc x` says that wherever the bytes `enc` stand, the decoder reads `x` and
consumes exactly them. Such encodings nest, follow one another and are uniquely
readable. -/

namespace PureMls

/-- A function `(buf, offset) ↦ (value, new offset)`. -/
def Decoder (α : Type) := Bytes → ℕ → Py (α × ℕ)

namespace Decoder

variable {α β : Type}

instance : Monad Decoder where
  pure a := fun _ offset => .ok (a, offset)
  bind d f := fun buf offset => d buf offset >>= fun read => f read.1 buf read.2

/-- A computation that does not touch the buffer. -/
def lift (x : Py α) : Decoder α := fun _ offset => x >>= fun a => .ok (a, offset)

/-- The decoder as a parser of a standalone buffer, ignoring what follows the value. -/
def run (d : Decoder α) (buf : Bytes) : Py α := Prod.fst <$> d buf 0

/-- `for _ in range(n): ...`, collecting the items. -/
def times (d : Decoder α) : ℕ → Decoder (List α)
  | 0 => pure []
  | n + 1 => do
    let item ← d
    let items ← times d n
    pure (item :: items)

/-- `while offset < len(raw): ...`, with at most `fuel` rounds left. Every item of this
library takes at least one byte, so `len(raw)` rounds always suffice. -/
def untilEnd (d : Decoder α) (raw : Bytes) : ℕ → ℕ → Py (List α)
  | 0, offset => if offset < raw.length then .error .hang else .ok []
  | fuel + 1, offset =>
    if offset < raw.length then do
      let (item, offset) ← d raw offset
      let items ← untilEnd d raw fuel offset
      .ok (item :: items)
    else .ok []

/-- The items of a whole buffer. -/
def all (d : Decoder α) (raw : Bytes) : Py (List α) := untilEnd d raw raw.length 0

/-- `while offset < limit: ...`, with at most `fuel` rounds left. -/
def whileBelow (d : Decoder α) (limit : ℕ) : ℕ → Decoder (List α)
  | 0 => fun _ offset => if offset < limit then .error .hang else .ok ([], offset)
  | fuel + 1 => fun buf offset =>
    if offset < limit then do
      let (item, offset) ← d buf offset
      let (items, offset) ← whileBelow d limit fuel buf offset
      .ok (item :: items, offset)
    else .ok ([], offset)

end Decoder

/-- At any place that continues with `enc`, the decoder reads `x` and stops just after it. -/
def ReadsAs {α : Type} (d : Decoder α) (enc : Bytes) (x : α) : Prop :=
  ∀ (buf rest : Bytes) (offset : ℕ), offset ≤ buf.length → buf.drop offset = enc ++ rest →
    d buf offset = .ok (x, offset + enc.length)

namespace ReadsAs

variable {α β : Type}

theorem pure (x : α) : ReadsAs (pure x) [] x := by
  intro buf rest offset hle hdrop
  rfl

theorem lift {y : Py α} {x : α} (h : y = .ok x) : ReadsAs (Decoder.lift y) [] x := by
  intro buf rest offset hle hdrop
  subst h
  rfl

/-- Encodings read one after the other. -/
theorem bind {d : Decoder α} {f : α → Decoder β} {enc enc' : Bytes} {x : α} {y : β}
    (hd : ReadsAs d enc x) (hf : ReadsAs (f x) enc' y) :
    ReadsAs (d >>= f) (enc ++ enc') y := by
  intro buf rest offset hle hdrop
  have hdrop' : buf.drop offset = enc ++ (enc' ++ rest) := by
    rw [hdrop, List.append_assoc]
  have hlen : buf.length - offset = enc.length + (enc' ++ rest).length := by
    rw [← List.length_drop, hdrop', List.length_append]
  have hnext : buf.drop (offset + enc.length) = enc' ++ rest := by
    rw [← List.drop_drop, hdrop', List.drop_left]
  calc (d >>= f) buf offset
      = d buf offset >>= fun read => f read.1 buf read.2 := rfl
    _ = f x buf (offset + enc.length) := by rw [hd buf (enc' ++ rest) offset hle hdrop']; rfl
    _ = .ok (y, offset + (enc ++ enc').length) := by
        rw [hf buf rest (offset + enc.length) (by omega) hnext, List.length_append, Nat.add_assoc]

/-- A last field that adds no bytes of its own. -/
theorem bind_last {d : Decoder α} {f : α → Decoder β} {enc : Bytes} {x : α} {y : β}
    (hd : ReadsAs d enc x) (hf : ReadsAs (f x) [] y) : ReadsAs (d >>= f) enc y := by
  simpa using hd.bind hf

theorem bind_first {d : Decoder α} {f : α → Decoder β} {enc : Bytes} {x : α} {y : β}
    (hd : ReadsAs d [] x) (hf : ReadsAs (f x) enc y) : ReadsAs (d >>= f) enc y := by
  simpa using hd.bind hf

/-- Reading at the end of a known prefix. -/
theorem at_start {d : Decoder α} {enc : Bytes} {x : α} (h : ReadsAs d enc x)
    (pre post : Bytes) :
    d (pre ++ (enc ++ post)) pre.length = .ok (x, pre.length + enc.length) :=
  h _ post _ (by simp) (by simp)

theorem run {d : Decoder α} {enc : Bytes} {x : α} (h : ReadsAs d enc x) (post : Bytes) :
    d.run (enc ++ post) = .ok x := by
  have h0 := h.at_start [] post
  simp only [List.nil_append, List.length_nil] at h0
  rw [Decoder.run, h0]
  rfl

theorem run_self {d : Decoder α} {enc : Bytes} {x : α} (h : ReadsAs d enc x) :
    d.run enc = .ok x := by
  simpa using h.run []

/-- What one decoder reads is determined by the bytes, and so is where it stops. -/
theorem unique {d : Decoder α} {enc enc' rest rest' : Bytes} {x y : α}
    (hx : ReadsAs d enc x) (hy : ReadsAs d enc' y) (h : enc ++ rest = enc' ++ rest') :
    x = y ∧ enc = enc' ∧ rest = rest' := by
  have h1 := hx.at_start [] rest
  have h2 := hy.at_start [] rest'
  simp only [List.nil_append, List.length_nil, Nat.zero_add] at h1 h2
  rw [h, h2] at h1
  simp only [Except.ok.injEq, Prod.mk.injEq] at h1
  have hsplit := List.append_inj h h1.2.symm
  exact ⟨h1.1.symm, hsplit.1, hsplit.2⟩

theorem unique_self {d : Decoder α} {enc : Bytes} {x y : α}
    (hx : ReadsAs d enc x) (hy : ReadsAs d enc y) : x = y :=
  (hx.unique hy (rfl : enc ++ [] = enc ++ [])).1

/-! ## Sequences of items -/

theorem times {d : Decoder α} {encs : List Bytes} {xs : List α}
    (h : List.Forall₂ (ReadsAs d) encs xs) : ReadsAs (d.times xs.length) encs.flatten xs := by
  induction h with
  | nil => exact pure []
  | cons hx hxs ih =>
      exact hx.bind (ih.bind_last (pure _))

private theorem untilEnd {d : Decoder α} {encs : List Bytes} {xs : List α}
    (h : List.Forall₂ (ReadsAs d) encs xs) (hne : ∀ enc ∈ encs, enc ≠ [])
    (raw : Bytes) (fuel offset : ℕ) (hfuel : encs.length ≤ fuel) (hle : offset ≤ raw.length)
    (hdrop : raw.drop offset = encs.flatten) : d.untilEnd raw fuel offset = .ok xs := by
  induction h generalizing fuel offset with
  | nil =>
      have hlen := congrArg List.length hdrop
      simp only [List.length_drop, List.flatten_nil, List.length_nil] at hlen
      have hend : ¬ offset < raw.length := by omega
      cases fuel <;> simp [Decoder.untilEnd, hend]
  | @cons enc x encs xs hx hxs ih =>
      have hpos : 0 < enc.length := List.length_pos_iff.mpr (hne enc (by simp))
      have hlen : raw.length - offset = enc.length + encs.flatten.length := by
        simpa using congrArg List.length hdrop
      obtain ⟨fuel, rfl⟩ : ∃ f, fuel = f + 1 := ⟨fuel - 1, by simp at hfuel; omega⟩
      have hlt : offset < raw.length := by omega
      have hread : d raw offset = .ok (x, offset + enc.length) :=
        hx raw encs.flatten offset hle (by simpa using hdrop)
      have hnext : raw.drop (offset + enc.length) = encs.flatten := by
        rw [← List.drop_drop, hdrop, List.flatten_cons, List.drop_left]
      have htail := ih (fun e he => hne e (by simp [he])) fuel (offset + enc.length)
        (by simpa using hfuel) (by omega) hnext
      simp [Decoder.untilEnd, hlt, hread, htail]

/-- Nonempty encodings laid end to end are read back as the list of their items. -/
theorem all {d : Decoder α} {encs : List Bytes} {xs : List α}
    (h : List.Forall₂ (ReadsAs d) encs xs) (hne : ∀ enc ∈ encs, enc ≠ []) :
    d.all encs.flatten = .ok xs := by
  refine untilEnd h hne _ _ 0 ?_ (Nat.zero_le _) rfl
  rw [List.length_flatten]
  have hsum : ∀ es : List Bytes, (∀ e ∈ es, e ≠ []) → es.length ≤ (es.map List.length).sum := by
    intro es
    induction es with
    | nil => simp
    | cons e es ih =>
        intro hes
        have hpos : 0 < e.length := List.length_pos_iff.mpr (hes e (by simp))
        have htail := ih (fun e he => hes e (by simp [he]))
        simp only [List.length_cons, List.map_cons, List.sum_cons]
        omega
  exact hsum encs hne

/-- The same inside a longer buffer, up to a limit that is known. -/
theorem whileBelow {d : Decoder α} {encs : List Bytes} {xs : List α}
    (h : List.Forall₂ (ReadsAs d) encs xs) (hne : ∀ enc ∈ encs, enc ≠ []) {buf rest : Bytes}
    {fuel offset : ℕ} (hfuel : encs.flatten.length ≤ fuel) (hle : offset ≤ buf.length)
    (hdrop : buf.drop offset = encs.flatten ++ rest) :
    d.whileBelow (offset + encs.flatten.length) fuel buf offset =
      .ok (xs, offset + encs.flatten.length) := by
  induction h generalizing fuel offset with
  | nil => cases fuel <;> simp [Decoder.whileBelow]
  | @cons enc x encs xs hx hxs ih =>
      have hpos : 0 < enc.length := List.length_pos_iff.mpr (hne enc (by simp))
      rw [List.flatten_cons, List.length_append] at hfuel ⊢
      rw [List.flatten_cons, List.append_assoc] at hdrop
      obtain ⟨fuel, rfl⟩ : ∃ f, fuel = f + 1 := ⟨fuel - 1, by omega⟩
      have hlen : buf.length - offset = enc.length + (encs.flatten ++ rest).length := by
        rw [← List.length_drop, hdrop, List.length_append]
      have hread : d buf offset = .ok (x, offset + enc.length) := hx buf _ offset hle hdrop
      have hnext : buf.drop (offset + enc.length) = encs.flatten ++ rest := by
        rw [← List.drop_drop, hdrop, List.drop_left]
      have hfuel' : encs.flatten.length ≤ fuel := by omega
      have htail := ih (fun e he => hne e (by simp [he])) hfuel' (by omega) hnext
      rw [Nat.add_assoc] at htail
      have hlt : offset < offset + (enc.length + encs.flatten.length) := by omega
      simp only [Decoder.whileBelow, if_pos hlt, hread, htail, Py.ok_bind]

end ReadsAs

/-! ## Encoding a list of items -/

/-- `b"".join(f(x) for x in xs)`. -/
def joinBytes {α : Type} (f : α → Py Bytes) (xs : List α) : Py Bytes :=
  List.flatten <$> xs.mapM f

theorem returns_joinBytes {α : Type} {f : α → Py Bytes} {xs : List α}
    (h : ∀ x ∈ xs, (f x).Returns) : (joinBytes f xs).Returns := by
  have hmap : (xs.mapM f).Returns := by
    induction xs with
    | nil => exact .pure []
    | cons x xs ih =>
        rw [List.mapM_cons]
        exact (h x (by simp)).bind fun _ _ => (ih fun y hy => h y (by simp [hy])).bind fun _ _ =>
          .pure _
  obtain ⟨encs, hencs⟩ := hmap
  exact ⟨encs.flatten, by rw [joinBytes, hencs, Py.map_ok]⟩

theorem joinBytes_congr {α : Type} {f : α → Py Bytes} {xs ys : List α} (h : xs.map f = ys.map f) :
    joinBytes f xs = joinBytes f ys := by
  have hid : ∀ zs : List α, zs.mapM f = (zs.map f).mapM id :=
    fun zs => by rw [List.mapM_map, Function.id_comp]
  rw [joinBytes, joinBytes, hid, hid, h]

/-- What each item contributes to `joinBytes`. -/
theorem forall₂_of_mapM {α β : Type} {f : α → Py β} {xs : List α} {ys : List β}
    (h : xs.mapM f = .ok ys) : List.Forall₂ (fun x y => f x = .ok y) xs ys := by
  induction xs generalizing ys with
  | nil =>
      simp only [List.mapM_nil, Py.pure_eq, Except.ok.injEq] at h
      subst h
      exact .nil
  | cons x xs ih =>
      simp only [List.mapM_cons, Py.bind_eq_ok, Py.pure_eq, Except.ok.injEq] at h
      obtain ⟨y, hy, ys, hys, rfl⟩ := h
      exact .cons hy (ih hys)

theorem mapM_of_forall₂ {α β : Type} {f : α → Py β} {xs : List α} {ys : List β}
    (h : List.Forall₂ (fun x y => f x = .ok y) xs ys) : xs.mapM f = .ok ys := by
  induction h with
  | nil => rfl
  | cons hx hxs ih => simp [List.mapM_cons, hx, ih]

theorem mapM_eq_ok_iff {α β : Type} {f : α → Py β} {xs : List α} {ys : List β} :
    xs.mapM f = .ok ys ↔ List.Forall₂ (fun x y => f x = .ok y) xs ys :=
  ⟨forall₂_of_mapM, mapM_of_forall₂⟩

theorem mem_of_mapM {α β : Type} {f : α → Py β} {xs : List α} {ys : List β}
    (h : xs.mapM f = .ok ys) {y : β} (hy : y ∈ ys) : ∃ x ∈ xs, f x = .ok y := by
  have hall := forall₂_of_mapM h
  clear h
  induction hall with
  | nil => simp at hy
  | @cons x z xs zs hx hxs ih =>
      rcases List.mem_cons.mp hy with rfl | hmem
      · exact ⟨x, by simp, hx⟩
      · obtain ⟨x', hx', hfx⟩ := ih hmem
        exact ⟨x', by simp [hx'], hfx⟩

/-- If every item reads back up to `g`, the encodings of a list are those of its image. -/
theorem joinBytes_forall₂ {α β : Type} {f : α → Py Bytes} {d : Decoder β} {g : α → β}
    {xs : List α} {enc : Bytes} (hf : ∀ x ∈ xs, ∀ e, f x = .ok e → ReadsAs d e (g x))
    (h : joinBytes f xs = .ok enc) :
    ∃ encs, enc = encs.flatten ∧ List.Forall₂ (ReadsAs d) encs (xs.map g) ∧
      List.Forall₂ (fun x e => f x = .ok e) xs encs := by
  obtain ⟨encs, hmap, rfl⟩ := Py.map_eq_ok.mp h
  refine ⟨encs, rfl, ?_, forall₂_of_mapM hmap⟩
  have hall := forall₂_of_mapM hmap
  clear h hmap
  induction hall with
  | nil => exact .nil
  | cons hx hxs ih =>
      exact .cons (hf _ (by simp) _ hx) (ih fun x hx' => hf x (by simp [hx']))

end PureMls
