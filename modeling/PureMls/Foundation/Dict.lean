import Mathlib.Data.List.Nodup
import Mathlib.Data.List.Sort

/-! # Python dictionaries

Entries in insertion order with pairwise different keys. Setting a key that is present
keeps its place. -/

namespace PureMls

/-- A `dict`: no two entries have the same key. -/
structure Dict (κ α : Type) where
  entries : List (κ × α)
  nodup : (entries.map Prod.fst).Nodup
  deriving DecidableEq

namespace Dict

variable {κ α : Type} [DecidableEq κ]

def empty : Dict κ α := ⟨[], by simp⟩

/-- `d.get(key)` -/
def get? (d : Dict κ α) (key : κ) : Option α := d.entries.lookup key

/-- Entries with the value of `key` replaced in place, or the pair put at the end. -/
def setEntries (key : κ) (value : α) : List (κ × α) → List (κ × α)
  | [] => [(key, value)]
  | entry :: entries =>
    if entry.1 = key then (key, value) :: entries else entry :: setEntries key value entries

theorem mem_keys_setEntries {key k : κ} {value : α} {entries : List (κ × α)} :
    k ∈ (setEntries key value entries).map Prod.fst ↔ k = key ∨ k ∈ entries.map Prod.fst := by
  induction entries with
  | nil => simp [setEntries]
  | cons entry entries ih =>
      unfold setEntries
      by_cases h : entry.1 = key
      · rw [if_pos h]
        simp [h]
      · rw [if_neg h, List.map_cons, List.mem_cons, ih, List.map_cons, List.mem_cons]
        tauto

private theorem nodup_setEntries {key : κ} {value : α} {entries : List (κ × α)}
    (h : (entries.map Prod.fst).Nodup) : ((setEntries key value entries).map Prod.fst).Nodup := by
  induction entries with
  | nil => simp [setEntries]
  | cons entry entries ih =>
      rw [List.map_cons, List.nodup_cons] at h
      unfold setEntries
      by_cases heq : entry.1 = key
      · rw [if_pos heq, List.map_cons, List.nodup_cons]
        exact ⟨heq ▸ h.1, h.2⟩
      · rw [if_neg heq, List.map_cons, List.nodup_cons]
        refine ⟨fun hmem => ?_, ih h.2⟩
        rcases mem_keys_setEntries.mp hmem with hk | hk
        · exact heq hk
        · exact h.1 hk

/-- `d[key] = value` -/
def set (d : Dict κ α) (key : κ) (value : α) : Dict κ α :=
  ⟨setEntries key value d.entries, nodup_setEntries d.nodup⟩

private theorem lookup_cons_ite (k : κ) (entry : κ × α) (entries : List (κ × α)) :
    (entry :: entries).lookup k = if k = entry.1 then some entry.2 else entries.lookup k := by
  rw [List.lookup_cons]
  by_cases h : k = entry.1
  · simp [h]
  · simp [h, beq_eq_false_iff_ne.mpr h]

private theorem lookup_setEntries (key k : κ) (value : α) (entries : List (κ × α)) :
    (setEntries key value entries).lookup k =
      if k = key then some value else entries.lookup k := by
  induction entries with
  | nil => rw [setEntries, lookup_cons_ite]
  | cons entry entries ih =>
      unfold setEntries
      by_cases h : entry.1 = key
      · rw [if_pos h, lookup_cons_ite, lookup_cons_ite, h]
        split <;> rfl
      · rw [if_neg h, lookup_cons_ite, ih, lookup_cons_ite]
        by_cases hk : k = key
        · rw [if_pos hk, if_pos hk, if_neg (fun e => h (e.symm.trans hk))]
        · rw [if_neg hk, if_neg hk]

theorem get?_set (d : Dict κ α) (key k : κ) (value : α) :
    (d.set key value).get? k = if k = key then some value else d.get? k :=
  lookup_setEntries key k value d.entries

@[simp] theorem get?_set_self (d : Dict κ α) (key : κ) (value : α) :
    (d.set key value).get? key = some value := by
  rw [get?_set, if_pos rfl]

theorem get?_set_ne (d : Dict κ α) {key k : κ} (value : α) (h : k ≠ key) :
    (d.set key value).get? k = d.get? k := by
  rw [get?_set, if_neg h]

/-- A dictionary comprehension keeps the last value of each key. -/
theorem get?_foldl_set {ε : Type} (f : ε → κ) (g : ε → α) (es : List ε) (d : Dict κ α) (k : κ) :
    (es.foldl (fun d e => d.set (f e) (g e)) d).get? k =
      ((es.reverse.find? fun e => f e = k).map g).or (d.get? k) := by
  induction es generalizing d with
  | nil => rfl
  | cons e es ih =>
      rw [List.foldl_cons, ih, get?_set, List.reverse_cons, List.find?_append]
      cases es.reverse.find? fun e => f e = k with
      | some found => rfl
      | none =>
          by_cases h : k = f e
          · simp [h]
          · simp [h, Ne.symm h]

private theorem setEntries_of_notMem {key : κ} {value : α} {entries : List (κ × α)}
    (h : key ∉ entries.map Prod.fst) :
    setEntries key value entries = entries ++ [(key, value)] := by
  induction entries with
  | nil => rfl
  | cons entry entries ih =>
      rw [List.map_cons, List.mem_cons, not_or] at h
      rw [setEntries, if_neg (Ne.symm h.1), ih h.2, List.cons_append]

/-- A dictionary built from pairs with different keys keeps them as they come. -/
theorem entries_foldl_set {es : List (κ × α)} (h : (es.map Prod.fst).Nodup) :
    (es.foldl (fun d e => d.set e.1 e.2) empty).entries = es := by
  have hfold : ∀ (es : List (κ × α)) (d : Dict κ α), (es.map Prod.fst).Nodup →
      (∀ e ∈ es, e.1 ∉ d.entries.map Prod.fst) →
      (es.foldl (fun d e => d.set e.1 e.2) d).entries = d.entries ++ es := by
    intro es
    induction es with
    | nil => exact fun d _ _ => (List.append_nil _).symm
    | cons e es ih =>
        intro d hnodup hnew
        rw [List.map_cons, List.nodup_cons] at hnodup
        have hset : (d.set e.1 e.2).entries = d.entries ++ [e] :=
          setEntries_of_notMem (hnew e List.mem_cons_self)
        rw [List.foldl_cons, ih _ hnodup.2, hset, List.append_assoc, List.singleton_append]
        intro e' he'
        rw [hset, List.map_append, List.mem_append, not_or, List.map_singleton, List.mem_singleton]
        refine ⟨hnew e' (List.mem_cons_of_mem _ he'), fun heq => hnodup.1 ?_⟩
        exact heq ▸ List.mem_map_of_mem he'
  exact hfold es empty h (by simp [empty])

@[simp] theorem get?_empty (k : κ) : (empty : Dict κ α).get? k = none := rfl

theorem get?_eq_some_iff (d : Dict κ α) {key : κ} {value : α} :
    d.get? key = some value ↔ (key, value) ∈ d.entries := by
  obtain ⟨entries, hnodup⟩ := d
  change entries.lookup key = some value ↔ (key, value) ∈ entries
  induction entries with
  | nil => simp
  | cons entry entries ih =>
      rw [List.map_cons, List.nodup_cons] at hnodup
      rw [lookup_cons_ite, List.mem_cons]
      by_cases h : key = entry.1
      · have hnot : (key, value) ∉ entries := fun hmem =>
          hnodup.1 (h ▸ List.mem_map.mpr ⟨_, hmem, rfl⟩)
        simp [hnot, Prod.ext_iff, ← h, eq_comm]
      · rw [if_neg h, ih hnodup.2]
        exact ⟨Or.inr, fun hor => hor.resolve_left fun e => h (congrArg Prod.fst e)⟩

/-- A dictionary comprehension has no entry of its own. -/
theorem mem_of_mem_foldl_set {es : List (κ × α)} {e : κ × α}
    (h : e ∈ (es.foldl (fun d e => d.set e.1 e.2) empty).entries) : e ∈ es := by
  rw [← get?_eq_some_iff, get?_foldl_set, get?_empty, Option.or_none, Option.map_eq_some_iff] at h
  obtain ⟨found, hfound, hvalue⟩ := h
  have hkey : found.1 = e.1 := by simpa using List.find?_some hfound
  rw [show e = found from Prod.ext hkey.symm hvalue.symm]
  exact List.mem_reverse.mp (List.mem_of_find?_eq_some hfound)

theorem length_foldl_set_le (es : List (κ × α)) :
    (es.foldl (fun d e => d.set e.1 e.2) empty).entries.length ≤ es.length := by
  set d := es.foldl (fun d e => d.set e.1 e.2) (empty : Dict κ α)
  have hkeys : d.entries.map Prod.fst ⊆ es.map Prod.fst :=
    List.map_subset _ fun e he => mem_of_mem_foldl_set he
  simpa using (List.subperm_of_subset d.nodup hkeys).length_le

end Dict

/-! ## Sorting by key -/

/-- `sorted(d.items())` and `sorted(list(s))`: keys are compared by `le`. -/
def sortedBy {α : Type} (le : α → α → Prop) [DecidableRel le] (xs : List α) : List α :=
  xs.insertionSort le

/-- Sorting a sorted list leaves it as it is. -/
theorem sortedBy_sortedBy {α : Type} (le : α → α → Prop) [DecidableRel le] [Std.Total le]
    [IsTrans α le] (xs : List α) : sortedBy le (sortedBy le xs) = sortedBy le xs :=
  (List.pairwise_insertionSort le xs).insertionSort_eq

/-- The order of the elements does not matter. -/
theorem sortedBy_perm {α : Type} (le : α → α → Prop) [DecidableRel le] [Std.Total le] [IsTrans α le]
    [Std.Antisymm le] {xs ys : List α} (h : xs.Perm ys) : sortedBy le xs = sortedBy le ys := by
  refine List.Perm.eq_of_pairwise' (List.pairwise_insertionSort le xs)
    (List.pairwise_insertionSort le ys) ?_
  exact (List.perm_insertionSort le xs).trans (h.trans (List.perm_insertionSort le ys).symm)

theorem mem_sortedBy {α : Type} (le : α → α → Prop) [DecidableRel le] {xs : List α} {x : α} :
    x ∈ sortedBy le xs ↔ x ∈ xs :=
  (List.perm_insertionSort le xs).mem_iff

end PureMls
