import Mathlib.Logic.Function.Basic

/-!
Byte-by-byte copy loops over a memory `Nat → α`, the two a C `memmove`
is built from: forwards, `while(n-- > 0) *d++ = *s++`, and backwards
from the ends, `while(n-- > 0) *--d = *--s`.

A forward copy reads each source cell before any store reaches it when
the destination starts at or below the source, or the ranges do not
meet (`fwd_copies`); a backward copy when the destination starts at or
above the source, or the ranges do not meet (`bwd_copies`). Either
loop stores only inside the destination (`fwd_frame`, `bwd_frame`).
-/

namespace Copy

variable {α : Type*}

/-- `while(n-- > 0) *d++ = *s++`. -/
@[grind] def fwd (m : Nat → α) (d s : Nat) : Nat → Nat → α
  | 0 => m
  | n + 1 => fwd (Function.update m d (m s)) (d + 1) (s + 1) n

/-- `d += n; s += n; while(n-- > 0) *--d = *--s`. -/
@[grind] def bwd (m : Nat → α) (d s : Nat) : Nat → Nat → α
  | 0 => m
  | n + 1 => bwd (Function.update m (d + n) (m (s + n))) d s n

/-- A forward copy stores only inside `[d, d + n)`. -/
theorem fwd_frame : ∀ {m : Nat → α} {d s n a : Nat}, (a < d ∨ d + n ≤ a) → fwd m d s n a = m a
  | _, _, _, 0, _, _ => rfl
  | m, d, s, n + 1, a, h => by
      rw [fwd, fwd_frame (by omega), Function.update_of_ne (by omega)]

/-- A backward copy stores only inside `[d, d + n)`. -/
theorem bwd_frame : ∀ {m : Nat → α} {d s n a : Nat}, (a < d ∨ d + n ≤ a) → bwd m d s n a = m a
  | _, _, _, 0, _, _ => rfl
  | m, d, s, n + 1, a, h => by
      rw [bwd, bwd_frame (by omega), Function.update_of_ne (by omega)]

/-- Forwards, with the destination at or below the source or apart from
it, cell `d + i` gets the source's cell `s + i` as it was. -/
theorem fwd_copies : ∀ {m : Nat → α} {d s n : Nat}, (d ≤ s ∨ s + n ≤ d) →
    ∀ i < n, fwd m d s n (d + i) = m (s + i)
  | _, _, _, 0, _, _, hi => absurd hi (Nat.not_lt_zero _)
  | m, d, s, n + 1, h, i, hi => by
      rw [fwd]
      rcases i with _ | i
      · -- the first cell: no later store reaches it
        rw [fwd_frame (by omega), Nat.add_zero, Nat.add_zero, Function.update_self]
      · -- the rest: the source cell `s + 1 + i` is not the one just stored
        rw [show d + (i + 1) = d + 1 + i by omega, fwd_copies (by omega) i (by omega),
          Function.update_of_ne (by omega), show s + 1 + i = s + (i + 1) by omega]

/-- Backwards, with the destination at or above the source or apart from
it, cell `d + i` gets the source's cell `s + i` as it was. -/
theorem bwd_copies : ∀ {m : Nat → α} {d s n : Nat}, (s ≤ d ∨ d + n ≤ s) →
    ∀ i < n, bwd m d s n (d + i) = m (s + i)
  | _, _, _, 0, _, _, hi => absurd hi (Nat.not_lt_zero _)
  | m, d, s, n + 1, h, i, hi => by
      rw [bwd]
      rcases Nat.lt_succ_iff_lt_or_eq.1 hi with hi | rfl
      · -- a cell below the top: the source cell `s + i` is not the top one stored
        rw [bwd_copies (by omega) i hi, Function.update_of_ne (by omega)]
      · rw [bwd_frame (by omega), Function.update_self]

end Copy
