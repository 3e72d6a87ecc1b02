import Mathlib.Data.List.Basic
import Mathlib.Data.Nat.Basic

/-! # Who knows which secret

Each event draws a chain of secrets, one for every level, each derived from the one below, and
seals some of them to keys. A key belongs to a party or comes from a secret of an earlier chain. -/

namespace KeyGraph

variable {ι : Type}

inductive Key (ι : Type) where
  | own (party : ι)
  | derived (event level : ℕ)

structure Event (ι : Type) where
  author : ι
  levels : ℕ
  seals : ℕ → Key ι → Prop

/-- The party drew the secret, has one from which it follows, or can open a seal of it. -/
inductive Knows (history : List (Event ι)) (party : ι) : ℕ → ℕ → Prop
  | drew {n i e} : history[n]? = some e → e.author = party → i < e.levels → Knows history party n i
  | next {n i e} : history[n]? = some e → i + 1 < e.levels → Knows history party n i →
      Knows history party n (i + 1)
  | opened {n i e} : history[n]? = some e → e.seals i (.own party) → Knows history party n i
  | unwrapped {n i k j e} : history[n]? = some e → e.seals i (.derived k j) →
      Knows history party k j → Knows history party n i

def Holds (history : List (Event ι)) (party : ι) : Key ι → Prop
  | .own owner => owner = party
  | .derived n i => Knows history party n i

/-- The key comes from one of the first `n` events, if it comes from an event. -/
def Key.Before (n : ℕ) : Key ι → Prop
  | .own _ => True
  | .derived k _ => k < n

/-- Every event seals to keys of earlier events only. -/
def Ordered (history : List (Event ι)) : Prop :=
  ∀ (n : ℕ) (e : Event ι) (i : ℕ) (key : Key ι), history[n]? = some e → e.seals i key → key.Before n

variable {history : List (Event ι)} {event : Event ι} {party : ι}

theorem Ordered.concat (h : Ordered history)
    (hevent : ∀ i key, event.seals i key → key.Before history.length) :
    Ordered (history ++ [event]) := by
  intro n e i key hn hseal
  by_cases hlt : n < history.length
  · rw [List.getElem?_append_left hlt] at hn
    exact h n e i key hn hseal
  · obtain ⟨hle, -⟩ := List.getElem?_eq_some_iff.mp hn
    rw [List.length_append, List.length_singleton] at hle
    obtain rfl : n = history.length := by omega
    rw [List.getElem?_concat_length, Option.some.injEq] at hn
    subst hn
    exact hevent i key hseal

/-- Later events tell nobody an old secret. -/
theorem Knows.of_append {later : List (Event ι)} (h : Ordered history) {n i : ℕ}
    (hn : n < history.length)
    (hknows : Knows (history ++ later) party n i) : Knows history party n i := by
  induction hknows with
  | drew he hauthor hi =>
      rw [List.getElem?_append_left hn] at he
      exact .drew he hauthor hi
  | next he hi hprev ih =>
      rw [List.getElem?_append_left hn] at he
      exact .next he hi (ih hn)
  | opened he hseal =>
      rw [List.getElem?_append_left hn] at he
      exact .opened he hseal
  | unwrapped he hseal hprev ih =>
      rw [List.getElem?_append_left hn] at he
      have hbefore := h _ _ _ _ he hseal
      exact .unwrapped he hseal (ih (Nat.lt_trans hbefore hn))

theorem Holds.of_append {later : List (Event ι)} (h : Ordered history) {key : Key ι}
    (hkey : key.Before history.length) (hholds : Holds (history ++ later) party key) :
    Holds history party key := by
  cases key with
  | own owner => exact hholds
  | derived n i => exact Knows.of_append h hkey hholds

/-- If regions of parties grow along the chain, contain its author, and contain whoever holds a key
that a level is sealed to, then only they know its secrets. -/
theorem Knows.region (h : Ordered history)
    (hevent : ∀ i key, event.seals i key → key.Before history.length) (region : ℕ → ι → Prop)
    (hauthor : ∀ i < event.levels, region i event.author)
    (hgrow : ∀ i party, i + 1 < event.levels → region i party → region (i + 1) party)
    (hseals : ∀ i key party, event.seals i key → Holds history party key → region i party) {i : ℕ}
    (hknows : Knows (history ++ [event]) party history.length i) : region i party := by
  generalize hn : history.length = n at hknows
  induction hknows with
  | drew he hparty hi =>
      subst hn
      rw [List.getElem?_concat_length, Option.some.injEq] at he
      subst he
      exact hparty ▸ hauthor _ hi
  | next he hi hprev ih =>
      subst hn
      rw [List.getElem?_concat_length, Option.some.injEq] at he
      subst he
      exact hgrow _ _ hi (ih rfl)
  | opened he hseal =>
      subst hn
      rw [List.getElem?_concat_length, Option.some.injEq] at he
      subst he
      exact hseals _ _ _ hseal rfl
  | unwrapped he hseal hprev ih =>
      subst hn
      rw [List.getElem?_concat_length, Option.some.injEq] at he
      subst he
      exact hseals _ _ _ hseal (hprev.of_append h (hevent _ _ hseal))

end KeyGraph
