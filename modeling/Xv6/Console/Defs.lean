import Xv6.Param

/-!
The input side of `kernel/console.c`: `cons`, the interrupt handler
`consoleintr` and `consoleread`.

# The buffer

`cons.buf` is a ring of `INPUT_BUF` bytes with three `uint` counters
that wrap past `2 ^ 32`: `r` where `consoleread` takes, `w` up to which
input is committed, and `e` where the next typed byte goes. The model
keeps them as `UInt32`; `buf` is read and written only at residues
below `INPUT_BUF`.

# Calls as turns

Both functions run under `cons.lock`. `consoleintr` is one turn.
`consoleread` gives up the lock only in `sleep`, so a call is a
sequence of turns, each running its loop until it sleeps or returns;
the call keeps `n`, the bytes still wanted, and the bytes copied out
across its sleeps. `dst i` says whether `either_copyout` to `dst + i`
succeeds, and `killed` is the caller's flag when it is tested.

Echo (`consputc`) and `procdump` print and change nothing here.
-/

namespace Xv6

/-- `#define INPUT_BUF 128`. -/
def INPUT_BUF : Nat := 128

/-- `C(x)`, control-`x`: `x - '@'`. -/
def ctrl (x : Char) : UInt8 := x.toNat.toUInt8 - '@'.toNat.toUInt8

/-- `cons`, without its lock. -/
structure Cons where
  buf : Nat → UInt8
  r : UInt32
  w : UInt32
  e : UInt32

namespace Cons

/-- `case C('U')`: `while(cons.e != cons.w && cons.buf[(cons.e-1) %
INPUT_BUF] != '\n') cons.e--`. Each turn moves `e` one back towards
`w`, so `e - w` turns cover the loop. -/
def killLine : Nat → Cons → Cons
  | 0, s => s
  | fuel + 1, s =>
      if s.e ≠ s.w ∧ s.buf ((s.e - 1).toNat % INPUT_BUF) ≠ 10 then killLine fuel { s with e := s.e - 1 }
      else s

/-- `consoleintr(c)` for the input byte `c`. -/
def consoleintr (s : Cons) (c : UInt8) : Cons :=
  if c = ctrl 'P' then s
  else if c = ctrl 'U' then killLine (s.e - s.w).toNat s
  else if c = ctrl 'H' ∨ c = 0x7f then
    if s.e ≠ s.w then { s with e := s.e - 1 } else s
  else if c ≠ 0 ∧ (s.e - s.r).toNat < INPUT_BUF then
    let c : UInt8 := if c = 13 then 10 else c
    let s := { s with buf := Function.update s.buf (s.e.toNat % INPUT_BUF) c, e := s.e + 1 }
    -- a whole line, end-of-file or a full buffer: `cons.w = cons.e`
    if c = 10 ∨ c = ctrl 'D' ∨ s.e = s.r + INPUT_BUF.toUInt32 then { s with w := s.e } else s
  else s

/-- How a turn of `consoleread` ends. -/
inductive ReadTurn
  /-- The call returns `r`, having copied `out` to the user buffer. -/
  | ret (r : Int) (out : List UInt8)
  /-- Nothing committed: `sleep(&cons.r, &cons.lock)` with `n` bytes
  still wanted and `out` copied. -/
  | wait (n : Nat) (out : List UInt8)
  deriving DecidableEq, Repr

/-- `consoleread`'s loop for a call of `target` bytes, with `n` still
wanted and `out` copied so far. A byte is taken, `cons.r++`, before its
`^D` test and its `copyout`. -/
@[grind] def readLoop (killed : Bool) (dst : Nat → Bool) (target : Nat) :
    Nat → Cons → List UInt8 → Cons × ReadTurn
  | 0, s, out => (s, .ret target out)
  | n + 1, s, out =>
      if s.r = s.w then
        if killed then (s, .ret (-1) out) else (s, .wait (n + 1) out)
      else
        let c := s.buf (s.r.toNat % INPUT_BUF)
        let s := { s with r := s.r + 1 }
        if c = ctrl 'D' then
          -- `cons.r--` saves the `^D` unless it is the call's first byte
          (if n + 1 < target then { s with r := s.r - 1 } else s, .ret (target - (n + 1)) out)
        -- `copyout` failed: `break`
        else if !dst (target - (n + 1)) then (s, .ret (target - (n + 1)) out)
        else if c = 10 then (s, .ret (target - n) (out ++ [c]))
        else readLoop killed dst target n s (out ++ [c])

/-- `consoleread(user_dst, dst, n)`'s first turn: a call for `n ≤ 0`
bytes returns `target - n = 0` at once. -/
def consoleread (s : Cons) (killed : Bool) (dst : Nat → Bool) (n : Int) : Cons × ReadTurn :=
  if 0 < n then readLoop killed dst n.toNat n.toNat s [] else (s, .ret 0 [])

end Cons

end Xv6
