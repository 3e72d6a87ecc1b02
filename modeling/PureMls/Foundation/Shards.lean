import Mathlib.Data.List.Basic
import Mathlib.Logic.Function.Basic

/-! # Concurrent calls on separate cells

Every call works on the cell of its key, in steps. As long as calls on one key do not overlap, an
interleaving gives the results of the same calls made one after the other, in the order in which
they end. -/

namespace Shards

variable {κ σ χ θ ω δ : Type*}

/-! ## One call after the other -/

section Sequential

variable [DecidableEq κ] (key : χ → κ) (serve : χ → δ → ω × δ)

/-- What calls leave at the keys. -/
def leave (d : κ → δ) (cs : List χ) : κ → δ :=
  cs.foldl (fun d c => Function.update d (key c) (serve c (d (key c))).2) d

def results (d : κ → δ) : List χ → List ω
  | [] => []
  | c :: cs => (serve c (d (key c))).1 :: results (leave key serve d [c]) cs

variable {key serve}

theorem leave_concat (d : κ → δ) (cs : List χ) (c : χ) : leave key serve d (cs ++ [c]) =
    Function.update (leave key serve d cs) (key c) (serve c (leave key serve d cs (key c))).2 :=
  List.foldl_append

theorem results_concat (d : κ → δ) (cs : List χ) (c : χ) : results key serve d (cs ++ [c]) =
    results key serve d cs ++ [(serve c (leave key serve d cs (key c))).1] := by
  induction cs generalizing d with
  | nil => rfl
  | cons b cs ih =>
      rw [List.cons_append, results, ih]
      rfl

theorem results_append (d : κ → δ) (cs cs' : List χ) : results key serve d (cs ++ cs') =
    results key serve d cs ++ results key serve (leave key serve d cs) cs' := by
  induction cs generalizing d with
  | nil => rfl
  | cons c cs ih =>
      rw [List.cons_append, results, ih]
      rfl

theorem length_results (d : κ → δ) (cs : List χ) : (results key serve d cs).length = cs.length := by
  induction cs generalizing d with
  | nil => rfl
  | cons c cs ih => rw [results, List.length_cons, List.length_cons, ih]

/-- A result in the log is what `serve` makes of what the calls before it leave. -/
theorem result_at {d : κ → δ} {before after : List (χ × ω)} {c : χ} {o : ω}
    (h : (before ++ (c, o) :: after).map Prod.snd =
      results key serve d ((before ++ (c, o) :: after).map Prod.fst)) :
    o = (serve c (leave key serve d (before.map Prod.fst) (key c))).1 := by
  rw [List.map_append, List.map_append, results_append] at h
  have hlen :
    (before.map Prod.snd).length = (results key serve d (before.map Prod.fst)).length := by
    rw [length_results, List.length_map, List.length_map]
  obtain ⟨-, htail⟩ := List.append_inj h hlen
  exact (List.cons.inj htail).1

/-- Calls that leave a key as it is. -/
theorem leave_of_unchanged {k : κ} {cs : List χ} (h : ∀ c ∈ cs, key c = k → ∀ x, (serve c x).2 = x)
    (d : κ → δ) : leave key serve d cs k = d k := by
  induction cs generalizing d with
  | nil => rfl
  | cons c cs ih =>
      have hrest := ih (fun c' hc' => h c' (List.mem_cons_of_mem _ hc')) (leave key serve d [c])
      refine hrest.trans ?_
      change Function.update d (key c) (serve c (d (key c))).2 k = d k
      by_cases hk : k = key c
      · subst hk
        rw [Function.update_self, h c List.mem_cons_self rfl]
      · rw [Function.update_of_ne hk]

end Sequential

/-! ## Interleavings -/

/-- How a call starts and goes on. It sees the cell of its key, and a step may change it. -/
structure Service (κ σ χ θ ω : Type*) where
  key : χ → κ
  start : χ → σ → θ ⊕ ω
  Step : χ → θ → σ → θ ⊕ ω → σ → Prop

/-- All cells, the calls with what they have still to do or their results, and the calls that have
ended, in the order in which they did. -/
structure State (κ σ χ θ ω : Type*) where
  cells : κ → σ
  calls : List (χ × (θ ⊕ ω))
  log : List (χ × ω)

def ended (c : χ) : θ ⊕ ω → List (χ × ω)
  | .inl _ => []
  | .inr o => [(c, o)]

/-- The call at an index has not ended. -/
def Busy (calls : List (χ × (θ ⊕ ω))) (i : ℕ) (c : χ) (th : θ) : Prop :=
  calls[i]? = some (c, .inl th)

variable [DecidableEq κ] {S : Service κ σ χ θ ω} {serve : χ → δ → ω × δ} {idle : κ → σ → δ → Prop}
  {busy : χ → θ → σ → δ → Prop} {s : State κ σ χ θ ω} {d d₀ : κ → δ} {c : χ} {r : θ ⊕ ω} {cell : σ}

/-- What the scheduler can do: let a call start while no other call on its key is busy, and let a
busy call make a step. -/
inductive Reachable (S : Service κ σ χ θ ω) (cells : κ → σ) : State κ σ χ θ ω → Prop
  | init : Reachable S cells ⟨cells, [], []⟩
  | call {s : State κ σ χ θ ω} {c : χ} {r : θ ⊕ ω} : Reachable S cells s →
      (∀ i c' th, Busy s.calls i c' th → S.key c' ≠ S.key c) → r = S.start c (s.cells (S.key c)) →
      Reachable S cells ⟨s.cells, s.calls ++ [(c, r)], s.log ++ ended c r⟩
  | step {s : State κ σ χ θ ω} {i : ℕ} {c : χ} {th : θ} {r : θ ⊕ ω} {cell : σ} :
      Reachable S cells s → Busy s.calls i c th → S.Step c th (s.cells (S.key c)) r cell →
      Reachable S cells ⟨Function.update s.cells (S.key c) cell, s.calls.set i (c, r),
        s.log ++ ended c r⟩

/-- A call is busy on its cell, or it has ended with the result that `serve` gives. -/
def Settles (S : Service κ σ χ θ ω) (serve : χ → δ → ω × δ) (idle : κ → σ → δ → Prop)
    (busy : χ → θ → σ → δ → Prop) (c : χ) (r : θ ⊕ ω) (cell : σ) (d : δ) : Prop :=
  match r with
  | .inl th => busy c th cell d
  | .inr o => o = (serve c d).1 ∧ idle (S.key c) cell (serve c d).2

/-- A call that is alone on its cell does what `serve` says. -/
structure Simulates (S : Service κ σ χ θ ω) (serve : χ → δ → ω × δ) (idle : κ → σ → δ → Prop)
    (busy : χ → θ → σ → δ → Prop) : Prop where
  start : ∀ c cell d, idle (S.key c) cell d → Settles S serve idle busy c (S.start c cell) cell d
  step : ∀ c th cell d r cell', busy c th cell d → S.Step c th cell r cell' →
    Settles S serve idle busy c r cell' d

/-- The cells of a run against what calls made one after the other leave. -/
structure Serves (S : Service κ σ χ θ ω) (idle : κ → σ → δ → Prop) (busy : χ → θ → σ → δ → Prop)
    (s : State κ σ χ θ ω) (d : κ → δ) : Prop where
  alone : ∀ i j c c' th th', Busy s.calls i c th → Busy s.calls j c' th' → S.key c = S.key c' →
    i = j
  busy : ∀ i c th, Busy s.calls i c th → busy c th (s.cells (S.key c)) (d (S.key c))
  idle : ∀ k, (∀ i c th, Busy s.calls i c th → S.key c ≠ k) → idle k (s.cells k) (d k)

/-- What is left at the keys once a call has got as far as `r`. -/
def left (S : Service κ σ χ θ ω) (serve : χ → δ → ω × δ) (d : κ → δ) (c : χ) : θ ⊕ ω → κ → δ
  | .inl _ => d
  | .inr _ => Function.update d (S.key c) (serve c (d (S.key c))).2

theorem left_ne {k : κ} (h : k ≠ S.key c) : left S serve d c r k = d k := by
  cases r with
  | inl th => rfl
  | inr o => exact Function.update_of_ne h _ _

/-- The call at `n` gets as far as `r` while it is alone on its key. -/
theorem Serves.advance (hserves : Serves S idle busy s d)
    (hset : Settles S serve idle busy c r cell (d (S.key c))) {calls : List (χ × (θ ⊕ ω))} {n : ℕ}
    (hself : calls[n]? = some (c, r))
    (hother : ∀ i c' th, i ≠ n → Busy calls i c' th → Busy s.calls i c' th ∧ S.key c' ≠ S.key c)
    (hkept : ∀ i c' th, Busy s.calls i c' th → S.key c' ≠ S.key c → Busy calls i c' th)
    (log : List (χ × ω)) :
    Serves S idle busy ⟨Function.update s.cells (S.key c) cell, calls, log⟩
      (left S serve d c r) := by
  have hn : ∀ c' th, Busy calls n c' th → c' = c ∧ r = .inl th := by
    intro c' th hbusy
    obtain ⟨rfl, hr⟩ := Prod.mk.inj (Option.some.inj (hbusy.symm.trans hself))
    exact ⟨rfl, hr.symm⟩
  refine ⟨fun i j a b th th' hi hj hkey => ?_, fun i a th hi => ?_, fun k hk => ?_⟩
  · by_cases hin : i = n <;> by_cases hjn : j = n
    · exact hin.trans hjn.symm
    · subst hin
      rw [(hn a th hi).1] at hkey
      exact absurd hkey.symm (hother j b th' hjn hj).2
    · subst hjn
      rw [(hn b th' hj).1] at hkey
      exact absurd hkey (hother i a th hin hi).2
    · exact hserves.alone i j a b th th' (hother i a th hin hi).1 (hother j b th' hjn hj).1 hkey
  · by_cases hin : i = n
    · subst hin
      obtain ⟨rfl, rfl⟩ := hn a th hi
      simp only [Function.update_self]
      exact hset
    · obtain ⟨hold, hne⟩ := hother i a th hin hi
      simp only [Function.update_of_ne hne, left_ne hne]
      exact hserves.busy i a th hold
  · by_cases hkc : k = S.key c
    · subst hkc
      cases r with
      | inl th => exact absurd rfl (hk n c th hself)
      | inr o =>
          simp only [Function.update_self, left]
          exact hset.2
    · simp only [Function.update_of_ne hkc, left_ne hkc]
      refine hserves.idle k fun i a th hi ha => ?_
      subst ha
      exact hk i a th (hkept i a th hi hkc) rfl

theorem Settles.records {log : List (χ × ω)}
    (hset : Settles S serve idle busy c r cell (leave S.key serve d₀ (log.map Prod.fst) (S.key c)))
    (hlog : log.map Prod.snd = results S.key serve d₀ (log.map Prod.fst)) :
    (log ++ ended c r).map Prod.snd = results S.key serve d₀ ((log ++ ended c r).map Prod.fst) ∧
      left S serve (leave S.key serve d₀ (log.map Prod.fst)) c r =
        leave S.key serve d₀ ((log ++ ended c r).map Prod.fst) := by
  cases r with
  | inl th =>
      rw [ended, List.append_nil]
      exact ⟨hlog, rfl⟩
  | inr o =>
      simp only [ended, List.map_append, List.map_cons, List.map_nil, results_concat, leave_concat,
        hlog, hset.1, left, and_self]

/-- The log of a run is that of its calls made one after the other, in the order in which they have
ended, and the cells are what they leave. -/
theorem Reachable.serial {cells : κ → σ} (h : Reachable S cells s)
    (hsim : Simulates S serve idle busy) (hstart : ∀ k, idle k (cells k) (d₀ k)) :
    s.log.map Prod.snd = results S.key serve d₀ (s.log.map Prod.fst) ∧
      Serves S idle busy s (leave S.key serve d₀ (s.log.map Prod.fst)) := by
  induction h with
  | init => exact ⟨rfl, ⟨nofun, nofun, fun k _ => hstart k⟩⟩
  | @call s c r _ hfree hr ih =>
      obtain ⟨hresults, hserves⟩ := ih
      have hset := hsim.start c _ _ (hserves.idle (S.key c) hfree)
      rw [← hr] at hset
      obtain ⟨hresults', hleave⟩ := hset.records hresults
      have hother : ∀ i c' th, i ≠ s.calls.length → Busy (s.calls ++ [(c, r)]) i c' th →
          Busy s.calls i c' th ∧ S.key c' ≠ S.key c := by
        intro i c' th hi hbusy
        have hold : Busy s.calls i c' th := by
          rw [Busy, List.getElem?_append] at hbusy
          split at hbusy
          · exact hbusy
          · rw [List.getElem?_eq_none (by rw [List.length_singleton]; omega)] at hbusy
            cases hbusy
        exact ⟨hold, hfree i c' th hold⟩
      have hkept : ∀ i c' th, Busy s.calls i c' th → S.key c' ≠ S.key c →
          Busy (s.calls ++ [(c, r)]) i c' th := by
        intro i c' th hbusy _
        rw [Busy, List.getElem?_append_left (List.getElem?_eq_some_iff.mp hbusy).1]
        exact hbusy
      have hadvance :=
        hserves.advance hset List.getElem?_concat_length hother hkept (s.log ++ ended c r)
      rw [Function.update_eq_self] at hadvance
      exact ⟨hresults', hleave ▸ hadvance⟩
  | @step s i c th r cell _ hbusy hstep ih =>
      obtain ⟨hresults, hserves⟩ := ih
      have hset := hsim.step c th _ _ r cell (hserves.busy i c th hbusy) hstep
      obtain ⟨hresults', hleave⟩ := hset.records hresults
      have hother : ∀ j c' th', j ≠ i → Busy (s.calls.set i (c, r)) j c' th' →
          Busy s.calls j c' th' ∧ S.key c' ≠ S.key c := by
        intro j c' th' hj hbusy'
        rw [Busy, List.getElem?_set_ne hj.symm] at hbusy'
        exact ⟨hbusy', fun hkey => hj (hserves.alone j i c' c th' th hbusy' hbusy hkey)⟩
      have hkept : ∀ j c' th', Busy s.calls j c' th' → S.key c' ≠ S.key c →
          Busy (s.calls.set i (c, r)) j c' th' := by
        intro j c' th' hbusy' hkey
        have hj : i ≠ j := by
          rintro rfl
          rw [Busy, hbusy, Option.some.injEq, Prod.mk.injEq] at hbusy'
          exact hkey (congrArg S.key hbusy'.1.symm)
        rw [Busy, List.getElem?_set_ne hj]
        exact hbusy'
      have hself : (s.calls.set i (c, r))[i]? = some (c, r) :=
        List.getElem?_set_self (List.getElem?_eq_some_iff.mp hbusy).1
      exact ⟨hresults', hleave ▸ hserves.advance hset hself hother hkept _⟩

end Shards
