import Mathlib

/-!
A bounded FIFO kept in a ring of `cap` cells with free-running
counters.

The reader's counter `r` and the number `n` of queued cells fix the
queue: the cells `r, r + 1, …, r + n - 1`, each read modulo `cap`
(`view`). Pushing stores at `(r + n) % cap` and appends (`view_push`,
as long as `n < cap`); popping reads `r % cap` and moves the counter
(`view_pop`). A counter kept modulo any multiple of `cap`, such as a
machine word's `2 ^ w` for a power-of-two ring, reads the same cells
(`view_mod`).

With 16-bit counters, as the rings of a virtio queue keep them, the
queue is read off the difference of the writer's and the reader's
counters modulo `2 ^ 16` (`queue16`); for a ring whose size divides
`2 ^ 16`, popping and pushing work across the wrap of either counter
(`queue16_pop`, `queue16_push`).
-/

namespace Ring

variable {α : Type*} (data : Nat → α) (cap : Nat)

/-- The `n` cells after counter `r`, in queue order. -/
def view (r n : Nat) : List α :=
  (List.range n).map fun k => data ((r + k) % cap)

variable {data cap} {r n : Nat}

@[simp] theorem length_view : (view data cap r n).length = n := by
  simp [view]

@[simp] theorem view_zero : view data cap r 0 = [] := rfl

theorem getElem_view {k : Nat} (hk : k < (view data cap r n).length) :
    (view data cap r n)[k] = data ((r + k) % cap) := by
  simp [view]

/-- The last queued cell is `(r + n) % cap`. -/
theorem view_succ : view data cap r (n + 1) = view data cap r n ++ [data ((r + n) % cap)] := by
  simp [view, List.range_succ]

/-- The first queued cell is `r % cap`; the rest follow counter `r + 1`. -/
theorem view_pop : view data cap r (n + 1) = data (r % cap) :: view data cap (r + 1) n := by
  simp only [view, List.range_succ_eq_map, List.map_cons, List.map_map, Nat.add_zero]
  congr 1
  refine List.map_congr_left fun k _ => ?_
  simp only [Function.comp_apply]
  rw [Nat.add_assoc, Nat.add_comm 1 k]

/-- A queue of `a + b` cells is its first `a`, then the `b` after them. -/
theorem view_add (a b : Nat) : view data cap r (a + b) = view data cap r a ++ view data cap (r + a) b := by
  simp only [view, List.range_add, List.map_append, List.map_map]
  congr 1
  refine List.map_congr_left fun k _ => ?_
  simp [Function.comp_apply, Nat.add_assoc]

/-- The first `a` queued cells are the queue of `a` cells. -/
theorem take_view {a : Nat} (h : a ≤ n) : (view data cap r n).take a = view data cap r a := by
  refine List.ext_getElem (by simp; omega) fun k hk _ => ?_
  simp only [List.getElem_take, getElem_view]

/-- Dropping `a` cells moves the counter by `a`. -/
theorem drop_view (a : Nat) :
    (view data cap r n).drop a = view data cap (r + a) (n - a) := by
  refine List.ext_getElem (by simp) fun k _ _ => ?_
  simp only [List.getElem_drop, getElem_view, Nat.add_assoc]

/-- A counter kept modulo a multiple of the ring reads the same cells. -/
theorem view_mod {m : Nat} (h : cap ∣ m) : view data cap (r % m) n = view data cap r n := by
  refine List.map_congr_left fun k _ => ?_
  rw [Nat.add_mod, Nat.mod_mod_of_dvd r h, ← Nat.add_mod]

/-- A store to a cell past the queue, less than a turn of the ring
from its start, leaves the queue as it is. -/
theorem view_update_out {m : Nat} (hm : n ≤ m) (hlt : m < cap) (x : α) :
    view (Function.update data ((r + m) % cap) x) cap r n = view data cap r n := by
  refine List.map_congr_left fun k hk => ?_
  rw [List.mem_range] at hk
  -- the queue's cells are `n` consecutive residues, the stored one `m - k` past each
  have hne : (r + k) % cap ≠ (r + m) % cap := by
    intro h
    have hd : cap ∣ (r + m) - (r + k) := Nat.dvd_of_mod_eq_zero (Nat.sub_mod_eq_zero_of_mod_eq h.symm)
    have : (r + m) - (r + k) = 0 := Nat.eq_zero_of_dvd_of_lt hd (by omega)
    omega
  exact Function.update_of_ne hne x data

/-- A store to the cell after the queue leaves the queue as it is. -/
theorem view_update (hn : n < cap) (x : α) :
    view (Function.update data ((r + n) % cap) x) cap r n = view data cap r n :=
  view_update_out (Nat.le_refl n) hn x

/-- Pushing into a ring with room appends. -/
theorem view_push (hn : n < cap) (x : α) :
    view (Function.update data ((r + n) % cap) x) cap r (n + 1) = view data cap r n ++ [x] := by
  rw [view_succ, view_update hn, Function.update_self]

/-- Popping with the reader's counter kept modulo a multiple `M` of the
ring. -/
theorem view_pop_mod {M : Nat} (h : cap ∣ M) :
    view data cap r (n + 1) = data (r % cap) :: view data cap ((r + 1) % M) n := by
  rw [view_pop, view_mod h]

/-- Pushing at a writer's counter `w` that is `n` cells after the
reader's modulo a multiple `M` of the ring. -/
theorem view_push_mod {M w : Nat} (h : cap ∣ M) (hw : w % M = (r + n) % M) (hn : n < cap) (x : α) :
    view (Function.update data (w % cap) x) cap r (n + 1) = view data cap r n ++ [x] := by
  have hcell : w % cap = (r + n) % cap := by
    rw [← Nat.mod_mod_of_dvd w h, hw, Nat.mod_mod_of_dvd _ h]
  rw [hcell, view_push hn]

-- =================================================== 16-bit counters

/-- The queue between a reader's 16-bit counter `rd` and a writer's `wr`. -/
def queue16 (data : Nat → α) (cap : Nat) (rd wr : UInt16) : List α := view data cap rd.toNat (wr - rd).toNat

variable {rd wr : UInt16}

@[simp] theorem length_queue16 : (queue16 data cap rd wr).length = (wr - rd).toNat := by
  simp [queue16]

theorem queue16_self : queue16 data cap rd rd = [] := by
  simp [queue16]

theorem sub_toNat_eq_zero_iff : (wr - rd).toNat = 0 ↔ rd = wr := by
  rw [UInt16.ext_iff, UInt16.toNat_sub]
  have := rd.toNat_lt
  have := wr.toNat_lt
  simp only [Nat.reducePow] at *
  omega

theorem queue16_pop (hcap : cap ∣ 2 ^ 16) (h : rd ≠ wr) :
    queue16 data cap rd wr = data (rd.toNat % cap) :: queue16 data cap (rd + 1) wr := by
  have hr := rd.toNat_lt
  have hw := wr.toNat_lt
  have hne : (wr - rd).toNat ≠ 0 := fun h' => h (sub_toNat_eq_zero_iff.mp h')
  -- one cell fewer, after a counter that may wrap
  have hsub : (wr - rd).toNat = (wr - (rd + 1)).toNat + 1 := by
    simp only [UInt16.toNat_sub, UInt16.toNat_add, UInt16.reduceToNat, Nat.reducePow] at *
    omega
  have hsucc : (rd + 1).toNat = (rd.toNat + 1) % 2 ^ 16 := by
    simp [UInt16.toNat_add]
  rw [queue16, hsub, view_pop, queue16, hsucc, view_mod hcap]

theorem queue16_push (hcap : cap ∣ 2 ^ 16) (hlt : cap < 2 ^ 16) (hn : (wr - rd).toNat < cap) (x : α) :
    queue16 (Function.update data (wr.toNat % cap) x) cap rd (wr + 1) = queue16 data cap rd wr ++ [x] := by
  have hr := rd.toNat_lt
  have hw := wr.toNat_lt
  have hsub : (wr + 1 - rd).toNat = (wr - rd).toNat + 1 := by
    simp only [UInt16.toNat_sub, UInt16.toNat_add, UInt16.reduceToNat, Nat.reducePow] at *
    omega
  -- the writer's cell is the one after the queue, read modulo the ring
  have hslot : wr.toNat % cap = (rd.toNat + (wr - rd).toNat) % cap := by
    have hwr : (rd.toNat + (wr - rd).toNat) % 2 ^ 16 = wr.toNat := by
      simp only [UInt16.toNat_sub, Nat.reducePow]
      omega
    rw [← hwr, Nat.mod_mod_of_dvd _ hcap]
  rw [queue16, hsub, hslot, view_push hn, queue16]

end Ring
