import Mathlib

/-!
User-space `printf` (user/printf.c): the bytes `vprintf` writes for a
format and its arguments.

# Conventions

* A format or a string is the list of its bytes before the NUL.
* `fd` is left out: every byte goes to the same descriptor, one
  `write` per byte, so the output is one byte list.
* An argument is what `va_arg` reads from its 64-bit slot: the word,
  and, for a `char *`, the string at that address. `va_arg(ap, int)`
  and the conversion of a `uint64` to `int` keep the low 32 bits as a
  signed value (`toInt`); the conversion to `uint` keeps them unsigned.
  `-xx` of `INT_MIN` wraps, as the compiled negation does.
* A missing argument reads as a zero word.
-/

namespace Xv6.Printf

/-- `digits`: "0123456789ABCDEF". -/
def digits : List UInt8 := [48, 49, 50, 51, 52, 53, 54, 55, 56, 57, 65, 66, 67, 68, 69, 70]

/-- `printint`'s `base`. Its loop ends only for a base of 2 or more,
and `digits` has a digit below 16. -/
structure Base where
  val : Nat
  two_le : 2 ≤ val
  le_sixteen : val ≤ 16

/-- Base 10, for `%d` and `%l`. -/
def dec : Base := ⟨10, by decide, by decide⟩

/-- Base 16, for `%x`. -/
def hex : Base := ⟨16, by decide, by decide⟩

/-- Conversion of an integer to `int`: its low 32 bits, signed. -/
def toInt (v : Int) : Int := v.bmod (2 ^ 32)

/-- `printint`'s do-while loop on `x`: `buf[0..i)`, the least
significant digit first. -/
def printintBuf (base : Base) (x : Nat) : List UInt8 :=
  digits.getD (x % base.val) 0 ::
    if _h : x / base.val = 0 then [] else printintBuf base (x / base.val)
termination_by x
decreasing_by exact Nat.div_lt_self (Nat.pos_of_ne_zero fun hx => _h (by simp [hx])) base.two_le

/-- `printint(fd, xx, base, sgn)`: the bytes it writes. -/
def printint (xx : Int) (base : Base) (sgn : Bool) : List UInt8 :=
  let neg := sgn && decide (xx < 0)
  -- `x = -xx` or `x = xx`, into the `uint x`
  let x := if neg then (-xx % 2 ^ 32).toNat else (xx % 2 ^ 32).toNat
  -- `while(--i >= 0) putc(fd, buf[i])`
  (printintBuf base x ++ if neg then [45] else []).reverse

/-- `printptr`'s loop: the top digit of `x`, then `x <<= 4`, `i` times. -/
def printptrLoop (x : UInt64) : Nat → List UInt8
  | 0 => []
  | i + 1 => digits.getD (x >>> 60).toNat 0 :: printptrLoop (x <<< 4) i

/-- `printptr(fd, x)`. -/
def printptr (x : UInt64) : List UInt8 := [48, 120] ++ printptrLoop x 16

/-- An argument slot: the 64-bit word, and the string at that address
when the word is a `char *`. -/
structure Arg where
  word : UInt64
  str : List UInt8

/-- `va_arg(ap, int)`. -/
def Arg.int (a : Arg) : Int := toInt a.word.toNat

/-- `va_arg(ap, uint)`. -/
def Arg.uint (a : Arg) : Nat := a.word.toNat % 2 ^ 32

/-- "(null)". -/
def null : List UInt8 := [40, 110, 117, 108, 108, 41]

/-- One conversion `%c` with the arguments `ap` left: the bytes written
and the arguments left after it. -/
def conversion (c : UInt8) (ap : List Arg) : List UInt8 × List Arg :=
  let a := ap.headD ⟨0, []⟩
  if c = 100 then (printint a.int dec true, ap.tail)
  -- `printint(fd, va_arg(ap, uint64), 10, 0)`: the word goes to an `int xx`
  else if c = 108 then (printint (toInt a.word.toNat) dec false, ap.tail)
  else if c = 120 then (printint a.int hex false, ap.tail)
  else if c = 112 then (printptr a.word, ap.tail)
  else if c = 115 then (if a.word = 0 then null else a.str, ap.tail)
  -- `putc(fd, va_arg(ap, uint))`: the `char` is the low byte
  else if c = 99 then ([a.word.toUInt8], ap.tail)
  else if c = 37 then ([37], ap)
  -- an unknown `%` sequence is written as it stands
  else ([37, c], ap)

/-- `vprintf`'s `state`: 0, or `'%'` after a `%`. -/
inductive State
  | zero
  | percent
  deriving DecidableEq, Repr

/-- `vprintf`'s loop from `state` over the format bytes left. -/
def vprintfLoop : State → List UInt8 → List Arg → List UInt8
  | _, [], _ => []
  | .zero, c :: fmt, ap => if c = 37 then vprintfLoop .percent fmt ap else c :: vprintfLoop .zero fmt ap
  | .percent, c :: fmt, ap =>
      let r := conversion c ap
      r.1 ++ vprintfLoop .zero fmt r.2

/-- `vprintf(fd, fmt, ap)`: the bytes written. -/
def vprintf (fmt : List UInt8) (ap : List Arg) : List UInt8 := vprintfLoop .zero fmt ap

end Xv6.Printf
