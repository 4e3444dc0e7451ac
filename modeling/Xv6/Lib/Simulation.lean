import Mathlib.Logic.Relation

/-!
Forward simulation with stuttering, for transition relations given as
plain relations.

A concrete system refines an abstract one through an abstraction
function `f` when, from every state satisfying an invariant `inv`,
each concrete step keeps the invariant and moves the abstraction by
at most one abstract step. Runs then map to abstract runs. The
invariant-only case (no abstraction) is `invariant_reach`.
-/

namespace Relation

variable {α β : Type*}

/-- Each `r`-step from an `inv`-state keeps `inv` and is matched by a
stutter or a single `p`-step of the abstraction. -/
def StutterSim (r : α → α → Prop) (p : β → β → Prop) (inv : α → Prop) (f : α → β) : Prop :=
  ∀ a b, inv a → r a b → inv b ∧ ReflGen p (f a) (f b)

/-- A step-preserved invariant holds along every run. -/
theorem invariant_reach {r : α → α → Prop} {inv : α → Prop}
    (hstep : ∀ a b, inv a → r a b → inv b) {a b : α} (ha : inv a)
    (hab : ReflTransGen r a b) : inv b := by
  induction hab with
  | refl => exact ha
  | tail _ hbc ih => exact hstep _ _ ih hbc

/-- The run lemma of a stuttering simulation: a concrete run from an
`inv`-state ends in an `inv`-state and maps to an abstract run. -/
theorem StutterSim.reach {r : α → α → Prop} {p : β → β → Prop} {inv : α → Prop}
    {f : α → β} (hsim : StutterSim r p inv f) {a b : α} (ha : inv a)
    (hab : ReflTransGen r a b) : inv b ∧ ReflTransGen p (f a) (f b) := by
  induction hab with
  | refl => exact ⟨ha, .refl⟩
  | tail _ hbc ih =>
      obtain ⟨hinv, hrun⟩ := ih
      obtain ⟨hinv', hstep⟩ := hsim _ _ hinv hbc
      exact ⟨hinv', hrun.trans hstep.to_reflTransGen⟩

end Relation
