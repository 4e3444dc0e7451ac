import Xv6.File.Defs
import Mathlib.Logic.Relation

/-!
The file calls of any processes, one call a turn.

A process calls when it runs. `kalloc` gives `pipealloc` a page no
pipe holds; `wait`'s `freeproc` of a `ZOMBIE` (`reap`) frees the slot,
which reads and writes none of its files.
-/

namespace Xv6

/-- A call by process `p`. -/
inductive FileEv
  | pipe (p : Fin NPROC) (page : Option Nat) (junk : Nat → UInt8) (copyout : Bool)
  | sysopen (p : Fin NPROC) (omode : Nat) (found : Option Found)
  | dup (p : Fin NPROC) (fd : Int)
  | close (p : Fin NPROC) (fd : Int)
  | fork (p : Fin NPROC) (ok : Bool)
  | exit (p : Fin NPROC)
  /-- `wait`'s `freeproc` of the `ZOMBIE` `np`. -/
  | reap (np : Fin NPROC)

namespace Files

/-- After `userinit`: `initproc`'s `cwd` is `namei("/")`, the only
inode reference; the rest is zero, as the C globals are. -/
def boot : Files where
  file := fun _ => File.zero
  pipes := fun _ => Pipe.alloc fun _ => 0
  inUse := fun _ => false
  iref := Function.update (fun _ => 0) ROOTINO 1
  ofile := fun _ _ => none
  cwd := Function.update (fun _ => none) initSlot (some ROOTINO)
  state := Function.update (fun _ => .UNUSED) initSlot .RUNNABLE
  allocs := fun _ => 0
  frees := fun _ => 0

/-- Whether process `p` may run. -/
def runs (s : Files) (p : Fin NPROC) : Bool := s.state p = .RUNNABLE ∨ s.state p = .RUNNING

/-- The state a call leaves, or its panic. -/
def result {α : Type} : Except String (α × Files) → Outcome Files
  | .ok (_, s) => .next s
  | .error msg => .panic msg

/-- The system after a call, when the caller runs. -/
@[grind] def step (s : Files) : FileEv → Outcome Files
  | .pipe p page junk copyout =>
      if s.runs p ∧ page.all (fun pg => !s.inUse pg) then result (s.sys_pipe p page junk copyout)
      else .blocked
  | .sysopen p omode found => if s.runs p then result (s.sys_open p omode found) else .blocked
  | .dup p fd => if s.runs p then result (s.sys_dup p fd) else .blocked
  | .close p fd => if s.runs p then result (s.sys_close p fd) else .blocked
  | .fork p ok =>
      if s.runs p then
        match s.fork p ok with
        | .ok s => .next s
        | .error msg => .panic msg
      else .blocked
  | .exit p =>
      if s.runs p then
        match s.exit p with
        | .ok s => .next s
        | .error msg => .panic msg
      else .blocked
  | .reap np => if s.state np = .ZOMBIE then .next { s with state := Function.update s.state np .UNUSED } else .blocked

/-- The step relation. -/
def Step (s s' : Files) : Prop := ∃ e, s.step e = .next s'

end Files

end Xv6
