import Mathlib.Data.List.Perm.Basic
import Mathlib.Data.List.Count

/-!
Sparse tables and what a family of owners holds.

A table of `n` slots that stores `0` for an empty slot is a function
`f : Nat → Nat`; `Sparse.nonzero f n` lists what it holds, slot by slot.
Filling an empty slot adds one value, emptying a full one removes one:
both are statements up to permutation (`nonzero_update`).

A family of owners `l`, owner `j` holding `g j`, holds `l.flatMap g`:
up to permutation, owner `i`'s holdings and the others'
(`flatMap_perm_erase`), and the others' do not change when only `i`
changes (`flatMap_erase_congr`). Whether a resource is held by exactly
one owner is the union's `Nodup` (`eq_of_mem_flatMap`), which a
permutation keeps.
-/

namespace Sparse

variable {f g : Nat → Nat} {n i a : Nat}

/-- The nonzero values of `f` at `0, …, n - 1`, in slot order. -/
def nonzero (f : Nat → Nat) (n : Nat) : List Nat := ((List.range n).map f).filter (· != 0)

theorem mem_nonzero : a ∈ nonzero f n ↔ a ≠ 0 ∧ ∃ i < n, f i = a := by
  simp only [nonzero, List.mem_filter, List.mem_map, List.mem_range, bne_iff_ne, ne_eq]
  constructor
  · rintro ⟨⟨i, hi, rfl⟩, h0⟩
    exact ⟨h0, i, hi, rfl⟩
  · rintro ⟨h0, i, hi, rfl⟩
    exact ⟨⟨i, hi, rfl⟩, h0⟩

theorem nonzero_congr (h : ∀ i < n, f i = g i) : nonzero f n = nonzero g n := by
  simp only [nonzero]
  rw [List.map_congr_left fun i hi => h i (List.mem_range.mp hi)]

theorem nonzero_eq_nil (h : ∀ i < n, f i = 0) : nonzero f n = [] := by
  rw [nonzero_congr h]
  simp [nonzero]

@[simp] theorem nonzero_zero : nonzero f 0 = [] := rfl

theorem nonzero_succ : nonzero f (n + 1) = nonzero f n ++ [f n].filter (· != 0) := by
  simp only [nonzero, List.range_succ, List.map_append, List.map_cons, List.map_nil,
    List.filter_append]

/-- A table whose values are distinct holds each in one slot. -/
theorem eq_of_nodup (hnd : (nonzero f n).Nodup) {j : Nat} (hi : i < n) (hj : j < n) (h0 : f i ≠ 0)
    (he : f i = f j) : i = j := by
  induction n with
  | zero => omega
  | succ n ih =>
      rw [nonzero_succ] at hnd
      obtain ⟨hnd', -, hdisj⟩ := List.nodup_append.mp hnd
      -- the last slot's value is not among the earlier ones
      have hlast : ∀ k < n, f k = f n → f n = 0 := fun k hk hfk => by
        by_contra hfn
        exact hdisj (f n) (mem_nonzero.mpr ⟨hfn, k, hk, hfk⟩) (f n) (by simp [hfn]) rfl
      rcases Nat.lt_succ_iff_lt_or_eq.mp hi with hi' | rfl <;>
        rcases Nat.lt_succ_iff_lt_or_eq.mp hj with hj' | rfl
      · exact ih hnd' hi' hj'
      · exact absurd (hlast i hi' he) (he ▸ h0)
      · exact absurd (hlast j hj' he.symm) h0
      · rfl

/-- The first `n` slots, then the next `m`. -/
theorem nonzero_add (m : Nat) : nonzero f (n + m) = nonzero f n ++ nonzero (fun i => f (n + i)) m := by
  simp only [nonzero, List.range_add, List.map_append, List.map_map, List.filter_append]
  rfl

/-- Writing `a` over slot `i` swaps the value the slot held for `a`. -/
theorem nonzero_update (hi : i < n) :
    (nonzero (Function.update f i a) n ++ [f i].filter (· != 0)).Perm
      (nonzero f n ++ [a].filter (· != 0)) := by
  induction n with
  | zero => omega
  | succ n ih =>
      rw [nonzero_succ, nonzero_succ, Function.update_apply]
      rcases Nat.lt_succ_iff_lt_or_eq.mp hi with hlt | rfl
      · -- the last slot is another one: it stays, and the rest is the induction
        rw [if_neg (Nat.ne_of_gt hlt)]
        have := ih hlt
        rw [List.perm_iff_count] at this ⊢
        intro x
        have hx := this x
        simp only [List.count_append] at hx ⊢
        omega
      · -- the last slot is `i`: the slots before it keep their values
        rw [if_pos rfl, nonzero_congr fun j hj => Function.update_of_ne (Nat.ne_of_lt hj) _ _,
          List.perm_iff_count]
        intro x
        simp only [List.count_append]
        omega

/-- Filling an empty slot adds its value. -/
theorem nonzero_update_fill (hi : i < n) (hf : f i = 0) (ha : a ≠ 0) :
    (nonzero (Function.update f i a) n).Perm (a :: nonzero f n) := by
  have := nonzero_update (f := f) (a := a) hi
  simp only [hf, ne_eq, ha, not_false_eq_true, bne_iff_ne, List.filter_cons_of_pos,
    List.filter_nil, List.filter_cons_of_neg, bne_self_eq_false, Bool.false_eq_true, List.append_nil] at this
  exact this.trans List.perm_append_comm

/-- Emptying a full slot removes its value. -/
theorem nonzero_update_clear (hi : i < n) (hf : f i ≠ 0) :
    (nonzero f n).Perm (f i :: nonzero (Function.update f i 0) n) := by
  have := nonzero_update (a := 0) (f := f) hi
  simp only [ne_eq, hf, not_false_eq_true, bne_iff_ne, List.filter_cons_of_pos, List.filter_nil,
    List.filter_cons_of_neg, bne_self_eq_false, Bool.false_eq_true, List.append_nil] at this
  exact (this.symm.trans List.perm_append_comm)

-- ============================================================== owners

variable {ι α : Type} [DecidableEq ι]

/-- A family's holdings are owner `i`'s and the others'. -/
theorem flatMap_perm_erase {l : List ι} {i : ι} (hi : i ∈ l) (g : ι → List α) :
    (l.flatMap g).Perm ((l.erase i).flatMap g ++ g i) := by
  have hp := (List.perm_cons_erase hi).flatMap_right g
  rw [List.flatMap_cons] at hp
  exact hp.trans List.perm_append_comm

/-- What the others hold does not depend on owner `i`. -/
theorem flatMap_erase_congr {l : List ι} (hl : l.Nodup) {i : ι} {g g' : ι → List α}
    (h : ∀ j ∈ l, j ≠ i → g' j = g j) : (l.erase i).flatMap g' = (l.erase i).flatMap g :=
  List.flatMap_congr fun j hj => h j (List.mem_of_mem_erase hj) ((hl.mem_erase_iff).mp hj).1

/-- In a duplicate-free union over distinct owners, what is held has
one owner. -/
theorem eq_of_mem_flatMap {l : List ι} (hl : l.Nodup) {g : ι → List α} (hnd : (l.flatMap g).Nodup)
    {i j : ι} (hi : i ∈ l) (hj : j ∈ l) {a : α} (hai : a ∈ g i) (haj : a ∈ g j) : i = j := by
  by_contra hij
  -- `a` would be held both by `i` and by one of the others
  have hnd' := (flatMap_perm_erase hi g).nodup_iff.mp hnd
  have hj' : j ∈ l.erase i := (hl.mem_erase_iff).mpr ⟨Ne.symm hij, hj⟩
  have ha : a ∈ (l.erase i).flatMap g := List.mem_flatMap.mpr ⟨j, hj', haj⟩
  exact (List.nodup_append.mp hnd').2.2 a ha a hai rfl

end Sparse
