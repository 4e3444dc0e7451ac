import Xv6.Console.Defs
import Mathlib.Logic.Relation

/-!
Console input of any processes, one turn a step: an input byte's
interrupt, the first turn of a `consoleread` call, or the next turn of
a call that sleeps. A process has at most one call in progress; its
user buffer is the call's.
-/

namespace Xv6

/-- A `consoleread` call asleep in `sleep(&cons.r, ...)`. -/
structure ReadCall where
  target : Nat
  n : Nat
  out : List UInt8
  dst : Nat → Bool

/-- The console and the calls asleep on it. -/
structure ConsSys where
  cons : Cons
  calls : Fin NPROC → Option ReadCall

/-- A step of the console. -/
inductive ConsEv
  /-- `uartintr` hands the byte `c` to `consoleintr`. -/
  | intr (c : UInt8)
  /-- Process `p` calls `consoleread(1, dst, n)`. -/
  | read (p : Fin NPROC) (n : Int) (killed : Bool) (dst : Nat → Bool)
  /-- The call of `p` wakes and runs again. -/
  | resume (p : Fin NPROC) (killed : Bool)

namespace ConsSys

/-- `consinit` leaves `cons` zero, as a C global is. -/
def boot : ConsSys where
  cons := ⟨fun _ => 0, 0, 0, 0⟩
  calls := fun _ => none

/-- The calls after a turn of `p`'s call that ended as `t`. -/
def settle (s : ConsSys) (p : Fin NPROC) (target : Nat) (dst : Nat → Bool) :
    Cons.ReadTurn → Fin NPROC → Option ReadCall
  | .wait n out => Function.update s.calls p (some ⟨target, n, out, dst⟩)
  | .ret _ _ => Function.update s.calls p none

/-- The system after a step. -/
@[grind] def step (s : ConsSys) : ConsEv → Outcome ConsSys
  | .intr c => .next { s with cons := s.cons.consoleintr c }
  | .read p n killed dst =>
      match s.calls p with
      | none =>
          let (c, t) := s.cons.consoleread killed dst n
          .next ⟨c, s.settle p n.toNat dst t⟩
      | some _ => .blocked
  | .resume p killed =>
      match s.calls p with
      | some call =>
          let (c, t) := s.cons.readLoop killed call.dst call.target call.n call.out
          .next ⟨c, s.settle p call.target call.dst t⟩
      | none => .blocked

/-- The step relation. -/
def Step (s s' : ConsSys) : Prop := ∃ e, s.step e = .next s'

end ConsSys

end Xv6
