import Xv6.Pipe.Defs
import Xv6.Lib.Ring
import Mathlib.Logic.Relation

/-!
One pipe with the processes that call it.

Each process is in at most one call, `pipewrite` or `piperead`, and
moves by turns: a turn of its loop runs atomically under `pi->lock`
(`PipeEv.turn`). `pipewrite` holds the lock across the turns between
two sleeps, so letting other processes in after every turn only adds
interleavings. Wakeups are not modelled: a call that sleeps may take
its next turn at any later point, which also only adds runs, since
both loops test their condition again after `sleep` returns. `kill`
and the last `fileclose` of either end (`pipeclose`) may come at any
point.

Three ghost lists record what the claims about pipes are stated in:
the bytes `pipewrite` stored, in order; the bytes `piperead` took
(`nread++`), in order; and the bytes returned to the callers of
`piperead`, in the order the calls returned.
-/

namespace Xv6

/-- A call in progress. -/
inductive PipeCall
  /-- `pipewrite(pi, addr, n)`, at byte `i`. -/
  | write (src : Nat → Option UInt8) (n : Int) (i : Nat)
  /-- `piperead(pi, addr, n)`. -/
  | read (dst : Nat → Bool) (n : Int)

/-- What the pipe code reads of a process. -/
structure PipeProc where
  killed : Bool
  call : Option PipeCall

/-- The pipe, every process, and the ghost lists. -/
structure PipeSys where
  pipe : Pipe
  procs : Nat → PipeProc
  accepted : List UInt8
  consumed : List UInt8
  returned : List UInt8

/-- A step of the system. -/
inductive PipeEv
  /-- Process `p` enters a call. -/
  | call (p : Nat) (c : PipeCall)
  /-- Process `p` takes a turn of its call. -/
  | turn (p : Nat)
  /-- `kill` of process `p`. -/
  | kill (p : Nat)
  /-- The last `fileclose` of the write end (`true`) or the read end. -/
  | close (writable : Bool)

namespace PipeSys

/-- Right after `pipealloc`, no process in a call. -/
def boot (junk : Nat → UInt8) : PipeSys where
  pipe := Pipe.alloc junk
  procs := fun _ => ⟨false, none⟩
  accepted := []
  consumed := []
  returned := []

/-- Process `p`'s call becomes `c`. -/
def setCall (s : PipeSys) (p : Nat) (c : Option PipeCall) : PipeSys :=
  { s with procs := Function.update s.procs p { s.procs p with call := c } }

/-- The bytes a turn took: those from `nread` up to the new `nread`. -/
def taken (pi pi' : Pipe) : List UInt8 :=
  Ring.view pi.data PIPESIZE pi.nread.toNat (pi'.nread - pi.nread).toNat

/-- One step. -/
@[grind] def step (s : PipeSys) : PipeEv → Outcome PipeSys
  | .call p c =>
      if (s.procs p).call = none then .next (s.setCall p (some c)) else .blocked
  | .turn p =>
      match (s.procs p).call with
      | none => .blocked
      | some (.write src n i) =>
          match pipewrite s.pipe (s.procs p).killed src n i with
          | (_, .ret _) => .next (s.setCall p none)
          | (_, .wait) => .next s
          | (pi, .wrote ch) =>
              .next { s.setCall p (some (.write src n (i + 1))) with
                      pipe := pi, accepted := s.accepted ++ [ch] }
      | some (.read dst n) =>
          match piperead s.pipe (s.procs p).killed dst n with
          | (_, .wait) => .next s
          | (pi, .ret _ out) =>
              .next { s.setCall p none with
                      pipe := pi, consumed := s.consumed ++ taken s.pipe pi,
                      returned := s.returned ++ out }
  | .kill p => .next { s with procs := Function.update s.procs p { s.procs p with killed := true } }
  | .close w => .next { s with pipe := (pipeclose s.pipe w).1 }

/-- The step relation. -/
def Step (s s' : PipeSys) : Prop := ∃ e, s.step e = .next s'

/-- Run a list of steps, stopping at the first that is not enabled. -/
@[grind] def run (s : PipeSys) : List PipeEv → Option PipeSys
  | [] => some s
  | e :: es =>
      match s.step e with
      | .next s' => s'.run es
      | _ => none

theorem run_reaches {s s' : PipeSys} {es : List PipeEv} (h : s.run es = some s') :
    Relation.ReflTransGen Step s s' := by
  induction es generalizing s with
  | nil =>
      cases h
      exact .refl
  | cons e es ih =>
      unfold run at h
      split at h
      · next s₁ hs => exact .head ⟨e, hs⟩ (ih h)
      · cases h

end PipeSys

end Xv6
