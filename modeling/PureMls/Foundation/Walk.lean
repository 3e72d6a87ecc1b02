import PureMls.Foundation.Wire

/-! # Walks over a buffer

What a loop that reads items until the end of a buffer has read, and where each item
stands. -/

namespace PureMls

variable {α β : Type} {d : Decoder α} {raw : Bytes}

/-- A decoder never moves backwards. -/
def Advances (d : Decoder α) : Prop :=
  ∀ buf offset item next, d buf offset = .ok (item, next) → offset ≤ next

namespace Advances

theorem pure (x : α) : Advances (pure x : Decoder α) := by
  intro buf offset item next h
  cases h
  exact le_rfl

theorem lift (x : Py α) : Advances (Decoder.lift x) := by
  intro buf offset item next h
  simp only [Decoder.lift, Py.bind_eq_ok, Except.ok.injEq, Prod.mk.injEq] at h
  obtain ⟨_, -, -, rfl⟩ := h
  exact le_rfl

theorem bind {f : α → Decoder β} (hd : Advances d) (hf : ∀ x, Advances (f x)) :
    Advances (d >>= f) := by
  intro buf offset item next h
  obtain ⟨⟨x, mid⟩, hx, hrest⟩ := Py.bind_eq_ok.mp h
  exact (hd buf offset x mid hx).trans (hf x buf mid item next hrest)

end Advances

/-- What a decoder reads ends inside the buffer. -/
def EndsInside (d : Decoder α) : Prop :=
  ∀ buf offset item next, d buf offset = .ok (item, next) → next ≤ buf.length

namespace EndsInside

theorem map (hd : EndsInside d) (g : α → β) : EndsInside (d >>= fun x => pure (g x)) := by
  intro buf offset item next h
  obtain ⟨⟨x, mid⟩, hx, hrest⟩ := Py.bind_eq_ok.mp h
  cases hrest
  exact hd buf offset x _ hx

theorem bind {f : α → Decoder β} (hf : ∀ x, EndsInside (f x)) : EndsInside (d >>= f) := by
  intro buf offset item next h
  obtain ⟨⟨x, mid⟩, -, hrest⟩ := Py.bind_eq_ok.mp h
  exact hf x buf mid item next hrest

end EndsInside

/-- Every value that the decoder reads has the property. -/
def Yields (d : Decoder α) (P : α → Prop) : Prop :=
  ∀ buf offset item next, d buf offset = .ok (item, next) → P item

namespace Yields

variable {P : α → Prop} {Q : β → Prop}

theorem any : Yields d fun _ => True := fun _ _ _ _ _ => trivial

theorem pure {x : α} (h : P x) : Yields (pure x) P := by
  intro buf offset item next hread
  cases hread
  exact h

theorem lift {x : Py α} (h : ∀ a, x = .ok a → P a) : Yields (Decoder.lift x) P := by
  intro buf offset item next hread
  obtain ⟨a, ha, heq⟩ := Py.bind_eq_ok.mp hread
  cases heq
  exact h _ ha

theorem bind {f : α → Decoder β} (hd : Yields d P) (hf : ∀ x, P x → Yields (f x) Q) :
    Yields (d >>= f) Q := by
  intro buf offset item next hread
  obtain ⟨⟨x, mid⟩, hx, hrest⟩ := Py.bind_eq_ok.mp hread
  exact hf x (hd buf offset x mid hx) buf mid item next hrest

theorem run (hd : Yields d P) {data : Bytes} {x : α} (h : d.run data = .ok x) : P x := by
  obtain ⟨⟨item, next⟩, hread, rfl⟩ := Py.map_eq_ok.mp h
  exact hd data 0 item next hread

theorem times (hd : Yields d P) (n : ℕ) :
    Yields (d.times n) fun items => items.length = n ∧ ∀ item ∈ items, P item := by
  induction n with
  | zero => exact pure ⟨rfl, by simp⟩
  | succ n ih =>
      refine hd.bind fun item hitem => ih.bind fun items hitems => pure ⟨by simp [hitems.1], ?_⟩
      simpa [hitem] using hitems.2

end Yields

/-- The items a loop reads one after the other, until the offset is past the end. -/
inductive Walk (d : Decoder α) (raw : Bytes) : ℕ → List α → Prop where
  | stop {offset} : raw.length ≤ offset → Walk d raw offset []
  | read {offset next item items} : offset < raw.length → d raw offset = .ok (item, next) →
      Walk d raw next items → Walk d raw offset (item :: items)

/-- The items stand one after the other and fill the buffer from an offset on. -/
inductive Tiles (d : Decoder α) (raw : Bytes) : ℕ → List α → Prop where
  | stop : Tiles d raw raw.length []
  | read {offset next item items} : offset < next → d raw offset = .ok (item, next) →
      Tiles d raw next items → Tiles d raw offset (item :: items)

/-- The `i`-th item that is read starts at `offset`. -/
inductive StartsAt (d : Decoder α) (raw : Bytes) : ℕ → ℕ → Prop where
  | first : 0 < raw.length → StartsAt d raw 0 0
  | next {i offset next item} : StartsAt d raw i offset → d raw offset = .ok (item, next) →
      next < raw.length → StartsAt d raw (i + 1) next

/-- Exactly `n` items are read. -/
def ItemCount (d : Decoder α) (raw : Bytes) (n : ℕ) : Prop :=
  ∀ i, (∃ o, StartsAt d raw i o) ↔ i < n

theorem walk_of_untilEnd {fuel offset : ℕ} {items : List α}
    (h : d.untilEnd raw fuel offset = .ok items) : Walk d raw offset items := by
  induction fuel generalizing offset items with
  | zero =>
      rw [Decoder.untilEnd] at h
      split_ifs at h with hlt
      cases h
      exact .stop (Nat.not_lt.mp hlt)
  | succ fuel ih =>
      rw [Decoder.untilEnd] at h
      by_cases hlt : offset < raw.length
      · simp only [if_pos hlt, Py.bind_eq_ok, Except.ok.injEq] at h
        obtain ⟨⟨item, next⟩, hitem, items, hitems, rfl⟩ := h
        exact .read hlt hitem (ih hitems)
      · rw [if_neg hlt] at h
        cases h
        exact .stop (Nat.not_lt.mp hlt)

theorem walk_of_all {items : List α} (h : d.all raw = .ok items) : Walk d raw 0 items :=
  walk_of_untilEnd h

theorem Walk.forall_of_yields {P : α → Prop} (hd : Yields d P) {offset : ℕ} {items : List α}
    (h : Walk d raw offset items) : ∀ item ∈ items, P item := by
  induction h with
  | stop => simp
  | read _ hitem _ ih => simpa [hd _ _ _ _ hitem] using ih

/-- Items that fill the buffer are those that the loop reads. -/
theorem Tiles.walk {offset : ℕ} {items : List α} (h : Tiles d raw offset items) :
    offset ≤ raw.length ∧ Walk d raw offset items := by
  induction h with
  | stop => exact ⟨le_rfl, .stop le_rfl⟩
  | read hlt hitem _ ih => exact ⟨by omega, .read (by omega) hitem ih.2⟩

theorem Walk.unique {offset : ℕ} {items items' : List α} (h : Walk d raw offset items)
    (h' : Walk d raw offset items') : items = items' := by
  induction h generalizing items' with
  | stop hend =>
      cases h' with
      | stop => rfl
      | read hlt => omega
  | read hlt hitem _ ih =>
      cases h' with
      | stop hend => omega
      | read _ hitem' hrest =>
          rw [hitem, Except.ok.injEq, Prod.mk.injEq] at hitem'
          obtain ⟨rfl, rfl⟩ := hitem'
          rw [ih hrest]

/-- When no item ends past the buffer and none is empty, the items fill it. -/
theorem Walk.tiles {offset : ℕ} {items : List α} (h : Walk d raw offset items)
    (hstrict : ∀ o item next, d raw o = .ok (item, next) → o < next ∧ next ≤ raw.length)
    (hle : offset ≤ raw.length) : Tiles d raw offset items := by
  induction h with
  | stop hend =>
      rw [Nat.le_antisymm hle hend]
      exact .stop
  | read hlt hitem _ ih =>
      obtain ⟨hnext, hbound⟩ := hstrict _ _ _ hitem
      exact .read hnext hitem (ih hbound)

private theorem Walk.starts {offset k : ℕ} {items : List α} (h : Walk d raw offset items)
    (hk : offset < raw.length → StartsAt d raw k offset) {j : ℕ} {item : α}
    (hj : items[j]? = some item) :
    ∃ o next, StartsAt d raw (k + j) o ∧ d raw o = .ok (item, next) := by
  induction h generalizing k j with
  | stop => simp at hj
  | @read offset next first items hlt hitem _ ih =>
      cases j with
      | zero =>
          simp only [List.getElem?_cons_zero, Option.some.injEq] at hj
          subst hj
          exact ⟨offset, next, hk hlt, hitem⟩
      | succ j =>
          rw [List.getElem?_cons_succ] at hj
          obtain ⟨o, next', hstart, hread⟩ := ih (k := k + 1) (.next (hk hlt) hitem) hj
          exact ⟨o, next', by rwa [Nat.add_assoc, Nat.add_comm 1] at hstart, hread⟩

/-- The `j`-th item of a walk stands at the `j`-th start. -/
theorem Walk.startsAt {items : List α} (h : Walk d raw 0 items) {j : ℕ} {item : α}
    (hj : items[j]? = some item) : ∃ o next, StartsAt d raw j o ∧ d raw o = .ok (item, next) := by
  obtain ⟨o, next, hstart, hread⟩ := h.starts (k := 0) .first hj
  exact ⟨o, next, by rwa [Nat.zero_add] at hstart, hread⟩

theorem StartsAt.unique {i o o' : ℕ} (h : StartsAt d raw i o) (h' : StartsAt d raw i o') :
    o = o' := by
  induction h generalizing o' with
  | first =>
      cases h'
      rfl
  | next _ hitem _ ih =>
      cases h' with
      | next hstart' hitem' =>
          rw [← ih hstart', hitem, Except.ok.injEq, Prod.mk.injEq] at hitem'
          exact hitem'.2

/-- What is left to read at the `i`-th start. -/
private theorem Walk.drop_of_startsAt {items : List α} (h : Walk d raw 0 items) {i o : ℕ}
    (hi : StartsAt d raw i o) : o < raw.length ∧ Walk d raw o (items.drop i) := by
  induction hi with
  | first hpos => exact ⟨hpos, h⟩
  | @next i o next item _ hitem hlt ih =>
      obtain ⟨hbound, hwalk⟩ := ih
      refine ⟨hlt, ?_⟩
      rw [← List.drop_drop]
      generalize items.drop i = rest at hwalk
      cases hwalk with
      | stop hend => omega
      | read _ hread hrest =>
          rw [hitem, Except.ok.injEq, Prod.mk.injEq] at hread
          obtain ⟨-, rfl⟩ := hread
          exact hrest

/-- There are as many starts as items. -/
theorem Walk.lt_of_startsAt {items : List α} (h : Walk d raw 0 items) {i o : ℕ}
    (hi : StartsAt d raw i o) : i < items.length := by
  obtain ⟨hlt, hwalk⟩ := h.drop_of_startsAt hi
  by_contra hge
  rw [List.drop_of_length_le (Nat.not_lt.mp hge)] at hwalk
  cases hwalk with
  | stop hend => omega

theorem Walk.itemCount {items : List α} (h : Walk d raw 0 items) :
    ItemCount d raw items.length := by
  intro i
  constructor
  · rintro ⟨o, hi⟩
    exact h.lt_of_startsAt hi
  · intro hi
    obtain ⟨o, _, hstart, -⟩ := h.startsAt (List.getElem?_eq_getElem hi)
    exact ⟨o, hstart⟩

theorem ItemCount.unique {n m : ℕ} (hn : ItemCount d raw n) (hm : ItemCount d raw m) : n = m := by
  have hiff : ∀ i, i < n ↔ i < m := fun i => (hn i).symm.trans (hm i)
  by_contra hne
  rcases Nat.lt_or_gt_of_ne hne with hlt | hlt
  · exact absurd ((hiff n).mpr hlt) (lt_irrefl n)
  · exact absurd ((hiff m).mp hlt) (lt_irrefl m)

end PureMls
