import Mathlib.Data.List.Basic

/-! # Programs with a log of what they do

A program looks at a store and changes it by operations. However it ends, its log says which
operations it has done, in order. -/

/-- What an operation makes of a store. -/
class Store (σ : Type) (ω : outParam Type) where
  apply : σ → ω → σ

/-- A program: how it ends on a store, and what it has done by then. -/
def Effectful (σ ω ε α : Type) := σ → Except ε α × List ω

namespace Effectful

variable {σ ω ε α β : Type} {s : σ} {ops : List ω}

/-- Look at the store. -/
def look (f : σ → Except ε α) : Effectful σ ω ε α := fun s => (f s, [])

def perform (op : ω) : Effectful σ ω ε Unit := fun _ => (.ok (), [op])

/-- Every operation that the program does on any store has the property. -/
def Emits (P : ω → Prop) (x : Effectful σ ω ε α) : Prop := ∀ s, ∀ op ∈ (x s).2, P op

variable {P : ω → Prop}

theorem Emits.look (f : σ → Except ε α) : Emits P (look f : Effectful σ ω ε α) :=
  fun _ _ h => by cases h

theorem Emits.perform {op : ω} (h : P op) : Emits P (perform op : Effectful σ ω ε Unit) := by
  intro _ op' hop
  rw [List.mem_singleton.mp hop]
  exact h

theorem Emits.mono {Q : ω → Prop} {x : Effectful σ ω ε α} (h : Emits P x)
    (hPQ : ∀ op, P op → Q op) : Emits Q x := fun s op hop => hPQ op (h s op hop)

/-! ## One program after the other -/

variable [Store σ ω]

/-- The store after some operations. -/
def after (s : σ) (ops : List ω) : σ := ops.foldl Store.apply s

/-- The store before the first operation and after each of them. -/
def moments (s : σ) (ops : List ω) : List σ := ops.scanl Store.apply s

def bind (x : Effectful σ ω ε α) (f : α → Effectful σ ω ε β) : Effectful σ ω ε β := fun s =>
  match x s with
  | (.error e, ops) => (.error e, ops)
  | (.ok a, ops) => ((f a (after s ops)).1, ops ++ (f a (after s ops)).2)

instance : Monad (Effectful σ ω ε) where
  pure a := look fun _ => .ok a
  bind := bind

/-- Programs that run one after the other, each however the one before has ended. -/
def session (s : σ) : List (Effectful σ ω ε Unit) → List ω
  | [] => []
  | x :: xs => (x s).2 ++ session (after s (x s).2) xs

theorem after_append (s : σ) (ops ops' : List ω) :
    after s (ops ++ ops') = after (after s ops) ops' :=
  List.foldl_append

theorem bind_assoc {γ : Type} (x : Effectful σ ω ε α) (f : α → Effectful σ ω ε β)
    (g : β → Effectful σ ω ε γ) : x >>= f >>= g = x >>= fun a => f a >>= g := by
  funext s
  change bind (bind x f) g s = bind x (fun a => bind (f a) g) s
  unfold bind
  rcases x s with ⟨e | a, ops⟩
  · rfl
  · rcases hf : f a (after s ops) with ⟨e | b, ops'⟩
    · simp only [hf]
    · simp only [hf, after_append, List.append_assoc]

theorem bind_eq_ok {x : Effectful σ ω ε α} {f : α → Effectful σ ω ε β} {b : β} :
    (x >>= f) s = (.ok b, ops) ↔ ∃ a ops₁ ops₂, x s = (.ok a, ops₁) ∧
      f a (after s ops₁) = (.ok b, ops₂) ∧ ops = ops₁ ++ ops₂ := by
  change bind x f s = _ ↔ _
  unfold bind
  rcases hx : x s with ⟨e | a, ops₁⟩
  · simp
  · simp only [Prod.mk.injEq, Except.ok.injEq]
    constructor
    · rintro ⟨hret, rfl⟩
      exact ⟨a, ops₁, _, ⟨rfl, rfl⟩, Prod.ext hret rfl, rfl⟩
    · rintro ⟨_, _, _, ⟨rfl, rfl⟩, hf, rfl⟩
      rw [hf]
      exact ⟨rfl, rfl⟩

/-- Looking does not change the store for what comes after it. -/
theorem look_bind (g : σ → Except ε α) (f : α → Effectful σ ω ε β) (s : σ) :
    (look g >>= f) s = match g s with
      | .ok a => f a s
      | .error e => (.error e, []) := by
  change bind (look g) f s = _
  unfold bind look
  cases g s <;> rfl

theorem look_bind_eq_ok {g : σ → Except ε α} {f : α → Effectful σ ω ε β} {b : β} :
    (look g >>= f) s = (.ok b, ops) ↔ ∃ a, g s = .ok a ∧ f a s = (.ok b, ops) := by
  rw [look_bind]
  cases g s <;> simp

theorem Emits.bind {x : Effectful σ ω ε α} {f : α → Effectful σ ω ε β} (hx : Emits P x)
    (hf : ∀ a, Emits P (f a)) : Emits P (x >>= f) := by
  intro s op hop
  have hops := hx s
  change op ∈ (Effectful.bind x f s).2 at hop
  unfold Effectful.bind at hop
  rcases hret : x s with ⟨e | a, ops⟩
  · rw [hret] at hop hops
    exact hops op hop
  · rw [hret] at hop hops
    rcases List.mem_append.mp hop with hop | hop
    · exact hops op hop
    · exact hf a _ op hop

theorem session_emits {xs : List (Effectful σ ω ε Unit)} (h : ∀ x ∈ xs, Emits P x) (s : σ) :
    ∀ op ∈ session s xs, P op := by
  induction xs generalizing s with
  | nil => exact fun op hop => by cases hop
  | cons x xs ih =>
      intro op hop
      rcases List.mem_append.mp hop with hop | hop
      · exact h x List.mem_cons_self s op hop
      · exact ih (fun y hy => h y (List.mem_cons_of_mem _ hy)) _ op hop

/-! ## Programs that look first -/

omit [Store σ ω] in
theorem Emits.ops_eq_nil {x : Effectful σ ω ε α} (h : Emits (fun _ => False) x) (s : σ) :
    (x s).2 = [] :=
  List.eq_nil_iff_forall_not_mem.mpr (h s)

/-- The program either ends before it does anything, or its log is as `Q` says. -/
def Logs (Q : List ω → Prop) (x : Effectful σ ω ε α) : Prop := ∀ s, (x s).2 = [] ∨ Q (x s).2

/-- What only looks may come before. -/
theorem Logs.bind {Q : List ω → Prop} {x : Effectful σ ω ε α} {f : α → Effectful σ ω ε β}
    (hx : Emits (fun _ => False) x) (hf : ∀ a, Logs Q (f a)) : Logs Q (x >>= f) := by
  intro s
  have hnil := hx.ops_eq_nil s
  change (Effectful.bind x f s).2 = [] ∨ Q (Effectful.bind x f s).2
  unfold Effectful.bind
  rcases hret : x s with ⟨e | a, ops⟩
  · rw [hret] at hnil
    exact .inl hnil
  · rw [hret] at hnil
    subst hnil
    exact hf a s

/-! ## Moments -/

/-- What every operation keeps holds at every moment. -/
theorem moments_invariant {I : σ → Prop} (hstep : ∀ s op, P op → I s → I (Store.apply s op))
    (hops : ∀ op ∈ ops, P op) (hs : I s) : ∀ moment ∈ moments s ops, I moment := by
  induction ops generalizing s with
  | nil =>
      intro moment hmoment
      rw [moments, List.scanl_nil, List.mem_singleton] at hmoment
      rw [hmoment]
      exact hs
  | cons op ops ih =>
      intro moment hmoment
      rw [moments, List.scanl_cons, List.mem_cons] at hmoment
      rcases hmoment with rfl | hmoment
      · exact hs
      · exact ih (fun op' hop => hops op' (List.mem_cons_of_mem _ hop))
          (hstep s op (hops op List.mem_cons_self) hs) moment hmoment

end Effectful
