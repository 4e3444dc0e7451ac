import Mathlib.Logic.Basic

/-!
Programs in the monad `StateT σ (Except ε)`: a state threaded through
every step, and an error that ends the run.

`Triple P x Q E` says that from every state satisfying `P` the program
`x` either stops with an error satisfying `E`, or returns a value `a`
in a state `s'` with `Q a s'`. The monad cannot diverge, so with
`E := fun _ => False` a triple is total correctness (`returns`), and
with `E := fun _ => True` partial correctness.

The rules follow the syntax of a program: `ret`, `bind`, `fail` and
the two conditionals; a `match` in a program is taken apart with
`split`. `conseq` weakens a triple,
`pre` fixes the initial state as a ghost, and `and` joins two triples
of one program.

Straight-line code is run instead: `bind_apply`, `pure_apply` and
`throw_apply` with the `Except` cases are a simp set that evaluates a
program on a state.
-/

namespace Prog

variable {σ ε α β : Type}

/-- What an outcome satisfies: `Q` of the value and the state it
returns, `E` of the error it stops with. -/
def Sat (Q : α → σ → Prop) (E : ε → Prop) : Except ε (α × σ) → Prop
  | .ok (a, s) => Q a s
  | .error e => E e

@[simp] theorem sat_ok {Q : α → σ → Prop} {E : ε → Prop} {a : α} {s : σ} :
    Sat Q E (.ok (a, s)) ↔ Q a s := Iff.rfl

@[simp] theorem sat_error {Q : α → σ → Prop} {E : ε → Prop} {e : ε} :
    Sat Q E (.error e) ↔ E e := Iff.rfl

instance instDecidableSat {Q : α → σ → Prop} {E : ε → Prop} [∀ a s, Decidable (Q a s)]
    [∀ e, Decidable (E e)] (o : Except ε (α × σ)) : Decidable (Sat Q E o) :=
  match o with
  | .ok (a, s) => inferInstanceAs (Decidable (Q a s))
  | .error e => inferInstanceAs (Decidable (E e))

-- ============================================================== running

@[simp] theorem bind_apply (x : StateT σ (Except ε) α) (f : α → StateT σ (Except ε) β) (s : σ) :
    (x >>= f) s = (x s >>= fun p => f p.1 p.2) := StateT.run_bind x f s

@[simp] theorem pure_apply (a : α) (s : σ) : (pure a : StateT σ (Except ε) α) s = .ok (a, s) := rfl

@[simp] theorem throw_apply (e : ε) (s : σ) : (throw e : StateT σ (Except ε) α) s = .error e := rfl

@[simp] theorem ok_bind (a : α) (g : α → Except ε β) : (Except.ok a >>= g) = g a := rfl

@[simp] theorem error_bind (e : ε) (g : α → Except ε β) : (Except.error e >>= g) = .error e := rfl

-- ============================================================== triples

/-- From a `P`-state, `x` fails with an `E`-error or returns into `Q`.
Irreducible, so that elaborating a triple never runs its program. -/
@[irreducible] def Triple (P : σ → Prop) (x : StateT σ (Except ε) α) (Q : α → σ → Prop) (E : ε → Prop) :
    Prop :=
  ∀ s, P s → Sat Q E (x s)

namespace Triple

variable {P P' : σ → Prop} {x y : StateT σ (Except ε) α} {Q Q' : α → σ → Prop} {E E' : ε → Prop}

theorem intro (h : ∀ s, P s → Sat Q E (x s)) : Triple P x Q E := by
  unfold Triple
  exact h

theorem apply (h : Triple P x Q E) {s : σ} (hs : P s) : Sat Q E (x s) := by
  unfold Triple at h
  exact h s hs

/-- A run that returns lands in the postcondition. -/
theorem ok (h : Triple P x Q E) {s s' : σ} {a : α} (hs : P s) (hx : x s = .ok (a, s')) : Q a s' := by
  have := h.apply hs
  rwa [hx] at this

/-- A run that fails fails with an `E`-error. -/
theorem error (h : Triple P x Q E) {s : σ} {e : ε} (hs : P s) (hx : x s = .error e) : E e := by
  have := h.apply hs
  rwa [hx] at this

/-- With no admissible error, the program returns. -/
theorem returns (h : Triple P x Q fun _ => False) {s : σ} (hs : P s) :
    ∃ a s', x s = .ok (a, s') ∧ Q a s' := by
  have := h.apply hs
  revert this
  rcases x s with e | ⟨a, s'⟩
  · exact False.elim
  · exact fun hq => ⟨a, s', rfl, hq⟩

/-- A program that cannot return fails, with the error its triple names. -/
theorem fails {e₀ : ε} (h : Triple P x (fun _ _ => False) (· = e₀)) {s : σ} (hs : P s) : x s = .error e₀ := by
  have := h.apply hs
  revert this
  rcases x s with e | ⟨a, s'⟩
  · exact fun he => by rw [he]
  · exact False.elim

theorem conseq (h : Triple P x Q E) (hp : ∀ s, P' s → P s) (hq : ∀ a s, Q a s → Q' a s)
    (he : ∀ e, E e → E' e) : Triple P' x Q' E' := by
  refine intro fun s hs => ?_
  have := h.apply (hp s hs)
  revert this
  rcases x s with e | ⟨a, s'⟩
  · exact he e
  · exact hq a s'

/-- Weaken the admissible errors. -/
theorem err (h : Triple P x Q E) (he : ∀ e, E e → E' e) : Triple P x Q E' :=
  h.conseq (fun _ => id) (fun _ _ => id) he

/-- Prove a triple one initial state at a time. -/
theorem pre (h : ∀ s₀, P s₀ → Triple (fun s => s = s₀) x Q E) : Triple P x Q E :=
  intro fun s hs => (h s hs).apply rfl

/-- A fact about the initial state alone moves out of the precondition. -/
theorem pre_and {φ : Prop} (h : φ → Triple P x Q E) : Triple (fun s => φ ∧ P s) x Q E :=
  intro fun _ hs => (h hs.1).apply hs.2

theorem and (h₁ : Triple P x Q E) (h₂ : Triple P x Q' E') :
    Triple P x (fun a s => Q a s ∧ Q' a s) (fun e => E e ∧ E' e) := by
  refine intro fun s hs => ?_
  have h₁ := h₁.apply hs
  have h₂ := h₂.apply hs
  revert h₁ h₂
  rcases x s with e | ⟨a, s'⟩
  · exact And.intro
  · exact And.intro

-- ==================================================== the program rules

theorem ret {a : α} (h : ∀ s, P s → Q a s) : Triple P (pure a) Q E := intro h

theorem fail {e : ε} (h : ∀ s, P s → E e) : Triple P (throw e : StateT σ (Except ε) α) Q E := intro h

theorem bind {f : α → StateT σ (Except ε) β} {R : α → σ → Prop} {Q : β → σ → Prop}
    (hx : Triple P x R E) (hf : ∀ a, Triple (R a) (f a) Q E) : Triple P (x >>= f) Q E := by
  refine intro fun s hs => ?_
  have h := hx.apply hs
  rw [bind_apply]
  revert h
  rcases x s with e | ⟨a, s'⟩
  · exact id
  · exact (hf a).apply

theorem ite {c : Prop} [Decidable c] (ht : c → Triple P x Q E) (hf : ¬c → Triple P y Q E) :
    Triple P (if c then x else y) Q E := by
  by_cases hc : c
  · rw [if_pos hc]
    exact ht hc
  · rw [if_neg hc]
    exact hf hc

theorem dite {c : Prop} [Decidable c] {x : c → StateT σ (Except ε) α} {y : ¬c → StateT σ (Except ε) α}
    (ht : ∀ h, Triple P (x h) Q E) (hf : ∀ h, Triple P (y h) Q E) :
    Triple P (if h : c then x h else y h) Q E := by
  by_cases hc : c
  · rw [dif_pos hc]
    exact ht hc
  · rw [dif_neg hc]
    exact hf hc

end Triple

end Prog
