import Mathlib.Algebra.BigOperators.Group.Finset.Piecewise

/-!
Counting the points of a finite domain where a function satisfies a
predicate, across a one-point update.

A reference count kept next to a table of pointers equals the number
of entries pointing at the object; an update of one entry moves that
number by what the entry's old and new values contribute
(`card_update`).
-/

namespace Count

variable {α β : Type*} [Fintype α]

/-- The points where `g` satisfies `P`. -/
def count (g : α → β) (P : β → Prop) [DecidablePred P] : Nat := (Finset.univ.filter fun x => P (g x)).card

/-- An update at `a` trades the old value's contribution for the new
one's. -/
theorem card_update [DecidableEq α] (g : α → β) (a : α) (v : β) (P : β → Prop) [DecidablePred P] :
    count (Function.update g a v) P + (if P (g a) then 1 else 0) = count g P + (if P v then 1 else 0) := by
  simp only [count, Finset.card_filter]
  -- both sides count the points other than `a`, plus `a` with the value it has
  have hrest : ∑ x ∈ Finset.univ.erase a, (if P (Function.update g a v x) then 1 else 0) =
      ∑ x ∈ Finset.univ.erase a, (if P (g x) then 1 else 0) :=
    Finset.sum_congr rfl fun x hx => by rw [Function.update_of_ne (Finset.ne_of_mem_erase hx)]
  rw [← Finset.add_sum_erase _ _ (Finset.mem_univ a),
    ← Finset.add_sum_erase _ (fun x => if P (g x) then 1 else 0) (Finset.mem_univ a), hrest,
    Function.update_self]
  omega

/-- Functions that agree on `P` count the same. -/
theorem count_congr {g g' : α → β} {P : β → Prop} [DecidablePred P] (h : ∀ x, P (g x) ↔ P (g' x)) :
    count g P = count g' P := by
  unfold count
  congr 1
  exact Finset.filter_congr fun x _ => h x

omit [Fintype α] in
/-- An update whose new value agrees with the old one on `P` changes
`P` nowhere. -/
theorem update_iff_of_iff [DecidableEq α] {g : α → β} {a : α} {v : β} {P : β → Prop}
    (h : P v ↔ P (g a)) (y : α) : P (Function.update g a v y) ↔ P (g y) := by
  by_cases hy : y = a
  · subst hy
    rw [Function.update_self]
    exact h
  · rw [Function.update_of_ne hy]

/-- ... and keeps the count. -/
theorem count_update_of_iff [DecidableEq α] {g : α → β} {a : α} {v : β} {P : β → Prop} [DecidablePred P]
    (h : P v ↔ P (g a)) : count (Function.update g a v) P = count g P :=
  count_congr (update_iff_of_iff h)

/-- A point satisfying `P` is counted. -/
theorem count_pos {g : α → β} {P : β → Prop} [DecidablePred P] {a : α} (h : P (g a)) : 0 < count g P :=
  Finset.card_pos.mpr ⟨a, by simp [h]⟩

/-- No point satisfies `P`. -/
theorem count_eq_zero {g : α → β} {P : β → Prop} [DecidablePred P] (h : ∀ x, ¬P (g x)) : count g P = 0 := by
  simp [count, h]

end Count
