import PureMls.Foundation.Walk

/-! # What a decoder has read

The other direction of `ReadsAs`: whatever a decoder returns stands in the buffer, in a form that
a grammar gives it, and ends where the decoder stops. -/

namespace PureMls

theorem Decoder.bind_assoc {α β γ : Type} (d : Decoder α) (f : α → Decoder β) (g : β → Decoder γ) :
    d >>= f >>= g = d >>= fun x => f x >>= g := by
  funext buf offset
  change (d buf offset >>= fun read => f read.1 buf read.2) >>= (fun read => g read.1 buf read.2) =
    d buf offset >>= fun read => f read.1 buf read.2 >>= fun read => g read.1 buf read.2
  cases d buf offset <;> rfl

/-- `G enc x` says that the bytes `enc` are a form of `x`. -/
abbrev Form (α : Type) := Bytes → α → Prop

namespace Form

variable {α β : Type}

/-- No bytes. -/
def nothing (x : α) : Form α := fun enc y => enc = [] ∧ y = x

/-- A first part, and a second part that depends on its value. -/
def seq (G : Form α) (H : α → Form β) : Form β := fun enc y =>
  ∃ head tail x, enc = head ++ tail ∧ G head x ∧ H x tail y

def map (G : Form α) (g : α → β) : Form β := fun enc y => ∃ x, G enc x ∧ y = g x

/-- Items that follow one another and fill the bytes. -/
def items (G : Form α) : Form (List α) := fun enc xs =>
  ∃ encs, enc = encs.flatten ∧ List.Forall₂ G encs xs

end Form

theorem slice_append_slice {buf : Bytes} {i j k : ℕ} (hij : i ≤ j) (hjk : j ≤ k) :
    slice buf i j ++ slice buf j k = slice buf i k := by
  obtain ⟨m, rfl⟩ := Nat.exists_eq_add_of_le hij
  obtain ⟨n, rfl⟩ := Nat.exists_eq_add_of_le hjk
  rw [slice, slice, slice, Nat.add_sub_cancel_left, Nat.add_sub_cancel_left, Nat.add_assoc i m n,
    Nat.add_sub_cancel_left, List.take_add, List.drop_drop]

/-- Two parts of a buffer that follow one another. -/
theorem drop_append_drop {buf head tail after rest : Bytes} {offset : ℕ}
    (hhead : buf.drop offset = head ++ after)
    (htail : buf.drop (offset + head.length) = tail ++ rest) :
    buf.drop offset = (head ++ tail) ++ rest := by
  have hafter : after = tail ++ rest := by
    rw [← htail, ← List.drop_drop, hhead, List.drop_left]
  rw [hhead, hafter, List.append_assoc]

/-- What was read from `offset` to `next` lies in the buffer, and in a form of `G`. -/
structure Inside {α : Type} (G : Form α) (buf : Bytes) (offset : ℕ) (x : α) (next : ℕ) : Prop where
  forward : offset ≤ next
  bounded : next ≤ buf.length
  form : G (slice buf offset next) x

namespace Inside

variable {α : Type} {G : Form α} {buf : Bytes} {offset next : ℕ} {x : α}

theorem split (h : Inside G buf offset x next) :
    ∃ enc rest, buf.drop offset = enc ++ rest ∧ next = offset + enc.length ∧ G enc x := by
  have hlen : (slice buf offset next).length = next - offset := by
    have hbounded := h.bounded
    rw [slice, List.length_take, List.length_drop]
    omega
  have hforward := h.forward
  refine ⟨slice buf offset next, buf.drop next, ?_, by omega, h.form⟩
  have hsplit := List.take_append_drop (next - offset) (buf.drop offset)
  rw [List.drop_drop, Nat.add_sub_cancel' hforward] at hsplit
  exact hsplit.symm

theorem of_split {enc rest : Bytes} (hle : offset ≤ buf.length)
    (hdrop : buf.drop offset = enc ++ rest)
    (hform : G enc x) : Inside G buf offset x (offset + enc.length) := by
  have hlen := congrArg List.length hdrop
  rw [List.length_drop, List.length_append] at hlen
  refine ⟨Nat.le_add_right _ _, by omega, ?_⟩
  rwa [slice_of_drop_eq hdrop]

end Inside

/-- Whatever the decoder reads stands in the buffer in a form that `G` allows. -/
def Spelled {α : Type} (d : Decoder α) (G : Form α) : Prop :=
  ∀ (buf : Bytes) (offset : ℕ) (x : α) (next : ℕ), offset ≤ buf.length →
    d buf offset = .ok (x, next) →
    ∃ enc rest, buf.drop offset = enc ++ rest ∧ next = offset + enc.length ∧ G enc x

namespace Spelled

variable {α β : Type} {d : Decoder α} {G G' : Form α}

/-- The offset moves from its place in the buffer to a place not before it. -/
theorem bounds (h : Spelled d G) {buf : Bytes} {offset next : ℕ} {x : α}
    (hle : offset ≤ buf.length) (hread : d buf offset = .ok (x, next)) :
    offset ≤ next ∧ next ≤ buf.length ∧ G (slice buf offset next) x := by
  obtain ⟨enc, rest, hdrop, rfl, hform⟩ := h buf offset x next hle hread
  have hlen := congrArg List.length hdrop
  rw [List.length_drop, List.length_append] at hlen
  refine ⟨Nat.le_add_right _ _, by omega, ?_⟩
  rwa [slice_of_drop_eq hdrop]

theorem of_bounds (h : ∀ buf offset x next, offset ≤ buf.length → d buf offset = .ok (x, next) →
    offset ≤ next ∧ next ≤ buf.length ∧ G (slice buf offset next) x) : Spelled d G := by
  intro buf offset x next hle hread
  obtain ⟨hforward, hbounded, hform⟩ := h buf offset x next hle hread
  exact Inside.split ⟨hforward, hbounded, hform⟩

theorem mono (h : Spelled d G) (hform : ∀ enc x, G enc x → G' enc x) : Spelled d G' := by
  intro buf offset x next hle hread
  obtain ⟨enc, rest, hdrop, hnext, hG⟩ := h buf offset x next hle hread
  exact ⟨enc, rest, hdrop, hnext, hform enc x hG⟩

theorem pure (x : α) : Spelled (pure x) (.nothing x) := by
  intro buf offset y next hle hread
  cases hread
  exact ⟨[], buf.drop offset, rfl, rfl, rfl, rfl⟩

theorem lift {y : Py α} (h : ∀ x, y = .ok x → G [] x) : Spelled (Decoder.lift y) G := by
  intro buf offset x next hle hread
  obtain ⟨x', hx, hread⟩ := Py.bind_eq_ok.mp hread
  cases hread
  exact ⟨[], buf.drop offset, rfl, rfl, h x hx⟩

theorem bind {f : α → Decoder β} {H : α → Form β} (hd : Spelled d G)
    (hf : ∀ x, Spelled (f x) (H x)) : Spelled (d >>= f) (G.seq H) := by
  intro buf offset y next hle hread
  obtain ⟨⟨x, mid⟩, hx, hy⟩ := Py.bind_eq_ok.mp hread
  obtain ⟨head, after, hdrop, rfl, hhead⟩ := hd buf offset x mid hle hx
  have hmid := (hd.bounds hle hx).2.1
  obtain ⟨tail, rest, hdrop', rfl, htail⟩ := hf x buf _ y next hmid hy
  refine ⟨head ++ tail, rest, drop_append_drop hdrop hdrop', ?_, head, tail, x, rfl, hhead, htail⟩
  rw [List.length_append, Nat.add_assoc]

/-- A value that is computed from what was read. -/
theorem bind_pure (hd : Spelled d G) (g : α → β) :
    Spelled (d >>= fun x => Pure.pure (g x)) (G.map g) := by
  refine (hd.bind fun x => pure (g x)).mono fun enc y hform => ?_
  obtain ⟨head, tail, x, rfl, hhead, rfl, rfl⟩ := hform
  exact ⟨x, by rwa [List.append_nil], rfl⟩

private theorem untilEnd (hd : Spelled d G) {raw : Bytes} {fuel offset : ℕ} {xs : List α}
    (hle : offset ≤ raw.length) (h : d.untilEnd raw fuel offset = .ok xs) :
    G.items (raw.drop offset) xs := by
  induction fuel generalizing offset xs with
  | zero =>
      rw [Decoder.untilEnd] at h
      split_ifs at h with hlt
      cases h
      exact ⟨[], List.drop_of_length_le (Nat.not_lt.mp hlt), .nil⟩
  | succ fuel ih =>
      rw [Decoder.untilEnd] at h
      by_cases hlt : offset < raw.length
      · simp only [if_pos hlt, Py.bind_eq_ok, Except.ok.injEq] at h
        obtain ⟨⟨x, next⟩, hx, xs, hxs, rfl⟩ := h
        obtain ⟨enc, rest, hdrop, rfl, hform⟩ := hd raw offset x next hle hx
        obtain ⟨encs, hrest, hall⟩ := ih (hd.bounds hle hx).2.1 hxs
        refine ⟨enc :: encs, ?_, .cons hform hall⟩
        rw [List.flatten_cons, ← hrest, ← List.drop_drop, hdrop, List.drop_left]
      · rw [if_neg hlt] at h
        cases h
        exact ⟨[], List.drop_of_length_le (Nat.not_lt.mp hlt), .nil⟩

/-- The items of a buffer that is read to its end fill it. -/
theorem all (hd : Spelled d G) {raw : Bytes} {xs : List α} (h : d.all raw = .ok xs) :
    G.items raw xs := by
  have hitems := hd.untilEnd (Nat.zero_le _) h
  rwa [List.drop_zero] at hitems

end Spelled

/-! ## Decoders that are right under a condition -/

/-- No condition on the buffer and the place in it. -/
abbrev Always (_ : Bytes) (_ : ℕ) : Prop := True

/-- The forms of `G` are read, and what is read lies inside exactly where the condition holds. -/
structure SpelledIff {α : Type} (d : Decoder α) (G : Form α) (C : Bytes → ℕ → Prop) : Prop where
  reads : ∀ enc x, G enc x → ReadsAs d enc x
  inside : ∀ buf offset x next, offset ≤ buf.length → d buf offset = .ok (x, next) →
    (Inside G buf offset x next ↔ C buf offset)

namespace SpelledIff

variable {α β : Type} {d : Decoder α} {G G' : Form α} {C C' : Bytes → ℕ → Prop}

theorem of_spelled (h : Spelled d G) (hreads : ∀ enc x, G enc x → ReadsAs d enc x) :
    SpelledIff d G Always where
  reads := hreads
  inside := by
    intro buf offset x next hle hread
    obtain ⟨hforward, hbounded, hform⟩ := h.bounds hle hread
    exact iff_true_intro ⟨hforward, hbounded, hform⟩

theorem spelled (h : SpelledIff d G Always) : Spelled d G := by
  intro buf offset x next hle hread
  exact ((h.inside buf offset x next hle hread).mpr trivial).split

theorem congr (h : SpelledIff d G C) (hform : ∀ enc x, G enc x ↔ G' enc x)
    (hcond : ∀ buf offset x next, offset ≤ buf.length → d buf offset = .ok (x, next) →
      (C buf offset ↔ C' buf offset)) : SpelledIff d G' C' := by
  obtain rfl : G = G' := funext fun enc => funext fun x => propext (hform enc x)
  refine ⟨h.reads, fun buf offset x next hle hread => ?_⟩
  rw [h.inside buf offset x next hle hread, hcond buf offset x next hle hread]

theorem bind {f : α → Decoder β} {H : α → Form β} {D : α → Bytes → ℕ → Prop} (hd : SpelledIff d G C)
    (hf : ∀ x, SpelledIff (f x) (H x) (D x)) :
    SpelledIff (d >>= f) (G.seq H) fun buf offset =>
      C buf offset ∧ ∀ x mid, d buf offset = .ok (x, mid) → D x buf mid where
  reads := by
    rintro enc y ⟨head, tail, x, rfl, hhead, htail⟩
    exact (hd.reads head x hhead).bind ((hf x).reads tail y htail)
  inside := by
    intro buf offset y next hle hread
    obtain ⟨⟨x, mid⟩, hx, hy⟩ := Py.bind_eq_ok.mp hread
    constructor
    · intro hinside
      obtain ⟨enc, rest, hdrop, rfl, head, tail, x', rfl, hhead, htail⟩ := hinside.split
      rw [List.append_assoc] at hdrop
      have hfirst : d buf offset = .ok (x', offset + head.length) :=
        hd.reads head x' hhead buf _ offset hle hdrop
      obtain ⟨rfl, rfl⟩ := Prod.mk.inj (Except.ok.inj (hfirst.symm.trans hx))
      have hhere := Inside.of_split hle hdrop hhead
      have hafter : buf.drop (offset + head.length) = tail ++ rest := by
        rw [← List.drop_drop, hdrop, List.drop_left]
      have hthere := Inside.of_split hhere.bounded hafter htail
      rw [Nat.add_assoc, ← List.length_append] at hthere
      refine ⟨(hd.inside buf offset _ _ hle hx).mp hhere, fun x'' mid' hx' => ?_⟩
      obtain ⟨rfl, rfl⟩ := Prod.mk.inj (Except.ok.inj (hx.symm.trans hx'))
      exact ((hf _).inside buf _ y _ hhere.bounded hy).mp hthere
    · rintro ⟨hC, hD⟩
      have hhere := (hd.inside buf offset x mid hle hx).mpr hC
      have hthere := ((hf x).inside buf mid y next hhere.bounded hy).mpr (hD x mid hx)
      obtain ⟨head, after, hdrop, rfl, hhead⟩ := hhere.split
      obtain ⟨tail, rest, hdrop', rfl, htail⟩ := hthere.split
      have hwhole := Inside.of_split hle (drop_append_drop hdrop hdrop')
        (G := G.seq H) ⟨head, tail, x, rfl, hhead, htail⟩
      rwa [List.length_append, ← Nat.add_assoc] at hwhole

/-- A first part that is always right. -/
theorem bind_after {f : α → Decoder β} {H : α → Form β} {D : α → Bytes → ℕ → Prop}
    (hd : SpelledIff d G Always) (hf : ∀ x, SpelledIff (f x) (H x) (D x)) :
    SpelledIff (d >>= f) (G.seq H) fun buf offset => ∀ x mid, d buf offset = .ok (x, mid) →
    D x buf mid :=
  (hd.bind hf).congr (fun _ _ => Iff.rfl) fun _ _ _ _ _ _ =>
    Iff.of_eq (true_and _)

theorem reassoc {γ : Type} {f : α → Decoder β} {g : β → Decoder γ} {H : Form γ}
    (h : SpelledIff (d >>= f >>= g) H C) : SpelledIff (d >>= fun x => f x >>= g) H C := by
  rwa [Decoder.bind_assoc] at h

/-- A second part that is always right. -/
theorem bind_before {f : α → Decoder β} {H : α → Form β} (hd : SpelledIff d G C)
    (hf : ∀ x, SpelledIff (f x) (H x) Always) : SpelledIff (d >>= f) (G.seq H) C :=
  (hd.bind hf).congr (fun _ _ => Iff.rfl) fun _ _ _ _ _ _ =>
    and_iff_left fun _ _ _ => trivial

theorem bind_pure (hd : SpelledIff d G C) (g : α → β) :
    SpelledIff (d >>= fun x => Pure.pure (g x)) (G.map g) C := by
  have hpure : ∀ x : α, SpelledIff (Pure.pure (g x) : Decoder β) (.nothing (g x)) Always := by
    intro x
    refine of_spelled (.pure (g x)) ?_
    rintro enc y ⟨rfl, rfl⟩
    exact .pure _
  refine (hd.bind_before hpure).congr (fun enc y => ?_) fun _ _ _ _ _ _ => Iff.rfl
  constructor
  · rintro ⟨head, tail, x, rfl, hhead, rfl, rfl⟩
    exact ⟨x, by rwa [List.append_nil], rfl⟩
  · rintro ⟨x, hform, rfl⟩
    exact ⟨enc, [], x, (List.append_nil enc).symm, hform, rfl, rfl⟩

/-- What a part of the buffer is parsed as, the part being read by a decoder that is always
right. -/
theorem nested {x : α → Py β} {I : α → β → Prop} {D : α → Prop} (hd : SpelledIff d G Always)
    (hreads : ∀ a b, I a b → x a = .ok b) (hinside : ∀ a b, x a = .ok b → (I a b ↔ D a)) :
    SpelledIff (d >>= fun a => Decoder.lift (x a))
      (fun enc b => ∃ a, G enc a ∧ I a b) fun buf offset =>
      ∀ a mid, d buf offset = .ok (a, mid) → D a := by
  have hlift : ∀ a, SpelledIff (Decoder.lift (x a)) (fun enc b => enc = [] ∧ I a b) fun _ _ =>
    D a := by
    intro a
    constructor
    · rintro enc b ⟨rfl, hb⟩
      exact .lift (hreads a b hb)
    · intro buf offset b next hle hread
      obtain ⟨b, hb, hnext⟩ := Py.bind_eq_ok.mp hread
      cases hnext
      rw [← hinside a b hb]
      constructor
      · exact fun h => h.form.2
      · exact fun h => ⟨le_rfl, hle, by simp [slice], h⟩
  refine (hd.bind_after hlift).congr (fun enc b => ?_) fun _ _ _ _ _ _ => Iff.rfl
  constructor
  · rintro ⟨head, tail, a, rfl, hhead, rfl, hb⟩
    exact ⟨a, by rwa [List.append_nil], hb⟩
  · rintro ⟨a, ha, hb⟩
    exact ⟨enc, [], a, (List.append_nil enc).symm, ha, rfl, hb⟩

/-! ## Items that fill a buffer -/

/-- At every start the rest of the buffer is in the forms of the items that are left. -/
private theorem items_of_startsAt (h : SpelledIff d G C) {raw : Bytes} {xs : List α}
    (hitems : G.items raw xs)
    {i offset : ℕ} (hstart : StartsAt d raw i offset) :
    offset < raw.length ∧ ∃ xs', G.items (raw.drop offset) xs' := by
  induction hstart with
  | first hpos => exact ⟨hpos, xs, by rwa [List.drop_zero]⟩
  | @next i offset next item _ hread hlt ih =>
      obtain ⟨hbound, xs', encs, hrest, hall⟩ := ih
      refine ⟨hlt, ?_⟩
      cases hall with
      | nil =>
          have hlen := congrArg List.length hrest
          rw [List.length_drop, List.flatten_nil, List.length_nil] at hlen
          omega
      | @cons enc x encs xs' hx hxs =>
          rw [List.flatten_cons] at hrest
          have hfirst := h.reads enc x hx raw _ offset hbound.le hrest
          obtain ⟨-, rfl⟩ := Prod.mk.inj (Except.ok.inj (hfirst.symm.trans hread))
          refine ⟨xs', encs, ?_, hxs⟩
          rw [← List.drop_drop, hrest, List.drop_left]

private theorem items_of_walk (h : SpelledIff d G C) {raw : Bytes}
    (hcond : ∀ i offset, StartsAt d raw i offset → C raw offset) {offset : ℕ} {xs : List α}
    (hwalk : Walk d raw offset xs) (hstart : offset < raw.length → ∃ i, StartsAt d raw i offset)
    (hle : offset ≤ raw.length) : G.items (raw.drop offset) xs := by
  induction hwalk with
  | stop hend => exact ⟨[], List.drop_of_length_le hend, .nil⟩
  | @read offset next item items hlt hread _ ih =>
      obtain ⟨i, hi⟩ := hstart hlt
      have hinside := (h.inside raw offset item next hle hread).mpr (hcond i offset hi)
      obtain ⟨encs, hrest, hall⟩ := ih (fun hnext => ⟨i + 1, hi.next hread hnext⟩) hinside.bounded
      obtain ⟨enc, rest, hdrop, rfl, hform⟩ := hinside.split
      refine ⟨enc :: encs, ?_, .cons hform hall⟩
      rw [List.flatten_cons, ← hrest, ← List.drop_drop, hdrop, List.drop_left]

theorem all_reads (h : SpelledIff d G C) (hne : ∀ enc x, G enc x → enc ≠ []) {raw : Bytes}
    {xs : List α} (hitems : G.items raw xs) : d.all raw = .ok xs := by
  obtain ⟨encs, rfl, hall⟩ := hitems
  have hboth : List.Forall₂ (ReadsAs d) encs xs ∧ ∀ enc ∈ encs, enc ≠ [] := by
    induction hall with
    | nil => exact ⟨.nil, by simp⟩
    | cons hx _ ih =>
        exact ⟨.cons (h.reads _ _ hx) ih.1, List.forall_mem_cons.mpr ⟨hne _ _ hx, ih.2⟩⟩
  exact ReadsAs.all hboth.1 hboth.2

/-- A buffer that is read to its end is filled by the items exactly when each of them is right. -/
theorem all_inside (h : SpelledIff d G C) {raw : Bytes} {xs : List α} (hread : d.all raw = .ok xs) :
    G.items raw xs ↔ ∀ i offset, StartsAt d raw i offset → C raw offset := by
  constructor
  · intro hitems i offset hstart
    obtain ⟨hlt, xs', encs, hrest, hall⟩ := h.items_of_startsAt hitems hstart
    cases hall with
    | nil =>
        have hlen := congrArg List.length hrest
        rw [List.length_drop, List.flatten_nil, List.length_nil] at hlen
        omega
    | @cons enc x encs xs' hx hxs =>
        rw [List.flatten_cons] at hrest
        have hfirst := h.reads enc x hx raw _ offset hlt.le hrest
        exact (h.inside raw offset x _ hlt.le hfirst).mp (Inside.of_split hlt.le hrest hx)
  · intro hcond
    have hitems := h.items_of_walk hcond (walk_of_all hread) (fun hpos => ⟨0, .first hpos⟩)
      (Nat.zero_le _)
    rwa [List.drop_zero] at hitems

end SpelledIff

/-! ## Loops up to a limit -/

/-- The offsets that a loop below `limit` comes to. -/
inductive Passes {α : Type} (d : Decoder α) (buf : Bytes) (limit start : ℕ) : ℕ → Prop where
  | first : Passes d buf limit start start
  | next {offset next item} : Passes d buf limit start offset → offset < limit →
      d buf offset = .ok (item, next) → Passes d buf limit start next

namespace Passes

variable {α : Type} {d : Decoder α} {G : Form α} {buf : Bytes} {limit start : ℕ}

theorem trans {mid offset : ℕ} (h : Passes d buf limit start mid)
    (h' : Passes d buf limit mid offset) : Passes d buf limit start offset := by
  induction h' with
  | first => exact h
  | next _ hlt hread ih => exact .next ih hlt hread

private theorem items_stop (hle : limit ≤ start) (hstart : start ≤ limit) :
    start = limit ∧ G.items (slice buf start limit) [] :=
  ⟨hstart.antisymm hle, [], by simp [slice, Nat.sub_eq_zero_of_le hle], .nil⟩

/-- When no item ends past the limit, they fill the buffer up to it. -/
theorem items (hinside : ∀ offset x next, offset ≤ buf.length → d buf offset = .ok (x, next) →
      next ≤ buf.length → Inside G buf offset x next) {fuel next : ℕ} {xs : List α}
    (hread : d.whileBelow limit fuel buf start = .ok (xs, next)) (hstart : start ≤ limit)
    (hlimit : limit ≤ buf.length)
    (hpasses : ∀ offset, Passes d buf limit start offset → offset ≤ limit) :
    next = limit ∧ G.items (slice buf start limit) xs := by
  induction fuel generalizing start xs with
  | zero =>
      simp only [Decoder.whileBelow] at hread
      split_ifs at hread with hlt
      cases hread
      exact items_stop (Nat.not_lt.mp hlt) hstart
  | succ fuel ih =>
      simp only [Decoder.whileBelow] at hread
      by_cases hlt : start < limit
      · simp only [if_pos hlt, Py.bind_eq_ok, Except.ok.injEq, Prod.mk.injEq] at hread
        obtain ⟨⟨x, mid⟩, hx, ⟨xs, stop⟩, hxs, rfl, rfl⟩ := hread
        have hmid : mid ≤ limit := hpasses mid (.next .first hlt hx)
        have hfirst := hinside start x mid (hstart.trans hlimit) hx (hmid.trans hlimit)
        have hrest :=
          fun offset hoffset => hpasses offset ((Passes.first.next hlt hx).trans hoffset)
        obtain ⟨hstop, encs, hflat, hall⟩ := ih hxs hmid hrest
        refine ⟨hstop, slice buf start mid :: encs, ?_, .cons hfirst.form hall⟩
        rw [List.flatten_cons, ← hflat, slice_append_slice hfirst.forward hmid]
      · rw [if_neg hlt] at hread
        cases hread
        exact items_stop (Nat.not_lt.mp hlt) hstart

/-- Items that fill the buffer up to the limit are those that the loop comes by. -/
theorem le_of_items (hreads : ∀ enc x, G enc x → ReadsAs d enc x) {raw rest : Bytes} {xs : List α}
    (hitems : G.items raw xs) (hle : start ≤ buf.length) (hdrop : buf.drop start = raw ++ rest)
    {offset : ℕ}
    (h : Passes d buf (start + raw.length) start offset) : offset ≤ start + raw.length := by
  have hlen := congrArg List.length hdrop
  rw [List.length_drop, List.length_append] at hlen
  suffices hleft : ∃ raw' xs', offset + raw'.length = start + raw.length ∧
      buf.drop offset = raw' ++ rest ∧ G.items raw' xs' by
    obtain ⟨raw', -, hsum, -⟩ := hleft
    omega
  induction h with
  | first => exact ⟨raw, xs, rfl, hdrop, hitems⟩
  | @next offset next item _ hlt hread ih =>
      obtain ⟨raw', xs', hsum, hdrop', encs, rfl, hall⟩ := ih
      cases hall with
      | nil =>
          rw [List.flatten_nil, List.length_nil] at hsum
          omega
      | @cons enc x encs xs' hx hxs =>
          rw [List.flatten_cons, List.length_append] at hsum
          rw [List.flatten_cons, List.append_assoc] at hdrop'
          have hfirst := hreads enc x hx buf _ offset (by omega) hdrop'
          obtain ⟨-, rfl⟩ := Prod.mk.inj (Except.ok.inj (hfirst.symm.trans hread))
          refine ⟨encs.flatten, xs', by omega, ?_, encs, rfl, hxs⟩
          rw [← List.drop_drop, hdrop', List.drop_left]

end Passes

end PureMls
