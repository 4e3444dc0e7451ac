import Xv6.Proc.Defs
import Mathlib.Logic.Relation

/-!
The process table with the processes that call into it.

A process runs, and so may call `fork`, `exit`, `wait`, `kill`,
`sleep` or `wakeup`, when its state is `RUNNABLE` or `RUNNING`; which
of the two is the scheduler's business, which this model leaves out:
any runnable process may take the next step. `wait`'s loop is one
step per pass, so a process that `sleep`s in it takes its next pass
once a `wakeup` or a `kill` has made it runnable. A killed process
is not forced to `exit`: it may, at any point, as after `usertrap`.

Two ghost lists record what the claims about the lifecycle are
stated in: the pid and status of every `exit`, and of every child
`wait` reaped, in order.
-/

namespace Xv6

/-- The table and the ghost lists. -/
structure ProcSys where
  t : Procs
  exits : List (Int × Int)
  reaps : List (Int × Int)

/-- A call by process `p`. -/
inductive ProcEv
  | fork (p : Fin NPROC) (mem copy : Bool)
  | exit (p : Fin NPROC) (status : Int)
  | wait (p : Fin NPROC) (addr : Nat) (copyout : Bool)
  | kill (p : Fin NPROC) (pid : Int)
  /-- `sleep` on a channel that is no `struct proc`. -/
  | sleep (p : Fin NPROC) (a : Nat)
  /-- `wakeup` of a channel that is no `struct proc`. -/
  | wakeup (p : Fin NPROC) (a : Nat)

namespace ProcSys

/-- After `userinit`. -/
def boot : ProcSys := ⟨userinit, [], []⟩

/-- Whether process `p` may run. -/
def runs (t : Procs) (p : Fin NPROC) : Bool :=
  (t.proc p).state = .RUNNABLE ∨ (t.proc p).state = .RUNNING

/-- The system after `p`'s step, when `p` runs. -/
@[grind] def step (s : ProcSys) : ProcEv → Outcome ProcSys
  | .fork p mem copy => if runs s.t p then .next { s with t := (fork s.t p mem copy).2 } else .blocked
  | .exit p status =>
      if runs s.t p then
        match Xv6.exit s.t p status with
        | .ok t => .next ⟨t, s.exits ++ [((s.t.proc p).pid, status)], s.reaps⟩
        | .error msg => .panic msg
      else .blocked
  | .wait p addr copyout =>
      if runs s.t p then
        match Xv6.wait s.t p addr copyout with
        | (.reaped pid xstate, t) => .next ⟨t, s.exits, s.reaps ++ [(pid, xstate)]⟩
        | (_, t) => .next { s with t := t }
      else .blocked
  | .kill p pid => if runs s.t p then .next { s with t := (kill s.t pid).2 } else .blocked
  | .sleep p a => if runs s.t p then .next { s with t := Xv6.sleep s.t p (.other a) } else .blocked
  | .wakeup p a => if runs s.t p then .next { s with t := Xv6.wakeup s.t p (.other a) } else .blocked

/-- The step relation. -/
def Step (s s' : ProcSys) : Prop := ∃ e, s.step e = .next s'

/-- Run a list of calls, stopping at the first that is not enabled. -/
@[grind] def run (s : ProcSys) : List ProcEv → Option ProcSys
  | [] => some s
  | e :: es =>
      match s.step e with
      | .next s' => s'.run es
      | _ => none

theorem run_reaches {s s' : ProcSys} {es : List ProcEv} (h : s.run es = some s') :
    Relation.ReflTransGen Step s s' := by
  induction es generalizing s with
  | nil =>
      cases h
      exact .refl
  | cons e es ih =>
      unfold run at h
      split at h
      · next s₁ hs => exact .head ⟨e, hs⟩ (ih h)
      · cases h

end ProcSys

end Xv6
