import Xv6.Param

/-!
The process table of `kernel/proc.c`, as the process lifecycle uses
it: `allocpid`, `allocproc`, `freeproc`, `fork`, `kill`, `reparent`,
`exit`, `wait`, `sleep` and `wakeup`.

# What is kept

A slot of `proc[NPROC]` keeps the fields `p->lock` and `wait_lock`
protect: `state`, `chan`, `killed`, `xstate`, `pid` and `parent`. The
memory hanging from a slot (trapframe, page table, kernel stack), its
files and its cwd belong to other models; what the lifecycle reads of
them is whether `kalloc` and `proc_pagetable` succeed in `allocproc`
(`mem`) and whether `uvmcopy` succeeds in `fork` (`copy`). A pointer
to a slot is its index; `initproc` is a slot, and a null `parent` is
`none`. The table starts zeroed, as the C global does: every slot is
`UNUSED` with pid `0`.

`nextpid` is the C `int`, as an `Int`: its overflow after `2 ^ 31 - 1`
calls of `allocpid` is undefined behaviour, which the model leaves
out.

# Channels

`sleep` and `wakeup` compare channels as addresses. `wait` sleeps on
its own `struct proc` and `exit` wakes the parent's; every other
sleeper (pipes, the log, the disk, `sys_sleep`) uses an address that
is no `struct proc`, here `Chan.other`.

# Atomicity

Each function is one critical section of the code: `fork` past
`allocproc` takes `wait_lock` only to set `np->parent` and touches
nothing another process reads before it, `exit` holds `wait_lock`
from `reparent` until the process is a `ZOMBIE`, one pass of `wait`'s
loop holds it throughout, and `kill` holds each slot's `p->lock`.
`wakeup` tests every slot but the caller's under that slot's lock.
-/

namespace Xv6

/-- `enum procstate`. -/
inductive ProcState
  | UNUSED
  | USED
  | SLEEPING
  | RUNNABLE
  | RUNNING
  | ZOMBIE
  deriving DecidableEq, Repr

/-- A `sleep` channel. -/
inductive Chan
  /-- The address of a `struct proc`, which `wait` sleeps on. -/
  | proc (p : Fin NPROC)
  /-- Any other address. -/
  | other (a : Nat)
  deriving DecidableEq, Repr

/-- The fields of `struct proc` that `p->lock` and `wait_lock` protect. -/
structure Proc where
  state : ProcState
  chan : Option Chan
  killed : Bool
  xstate : Int
  pid : Int
  parent : Option (Fin NPROC)
  deriving DecidableEq, Repr

/-- A zeroed `struct proc`. -/
def Proc.zero : Proc := ⟨.UNUSED, none, false, 0, 0, none⟩

/-- `proc[NPROC]`, `nextpid` and `initproc`. -/
structure Procs where
  proc : Fin NPROC → Proc
  nextpid : Int
  initproc : Fin NPROC

namespace Procs

/-- Slot `i` becomes `p`. -/
def set (t : Procs) (i : Fin NPROC) (p : Proc) : Procs :=
  { t with proc := Function.update t.proc i p }

/-- The first slot, in table order, that `f` accepts. -/
def first (t : Procs) (f : Proc → Bool) : Option (Fin NPROC) :=
  (List.finRange NPROC).find? fun i => f (t.proc i)

end Procs

/-- `allocpid()`. -/
def allocpid (t : Procs) : Int × Procs := (t.nextpid, { t with nextpid := t.nextpid + 1 })

/-- What `freeproc(p)` leaves in a slot. -/
def Proc.freed (p : Proc) : Proc :=
  { p with pid := 0, parent := none, chan := none, killed := false, xstate := 0, state := .UNUSED }

/-- `freeproc(p)`. -/
def freeproc (t : Procs) (i : Fin NPROC) : Procs := t.set i (t.proc i).freed

/-- `allocproc()`: the first `UNUSED` slot gets a pid and becomes
`USED`; when `kalloc` or `proc_pagetable` fails (`mem = false`) it is
freed again, its pid spent. Nothing else of the slot is reset. -/
@[grind] def allocproc (t : Procs) (mem : Bool) : Option (Fin NPROC) × Procs :=
  match t.first fun p => p.state = .UNUSED with
  | none => (none, t)
  | some i =>
      let (pid, t) := allocpid t
      let t := t.set i { t.proc i with pid := pid, state := .USED }
      if mem then (some i, t) else (none, freeproc t i)

/-- `fork()` by process `p`: the child's pid, or `-1`. -/
@[grind] def fork (t : Procs) (p : Fin NPROC) (mem copy : Bool) : Int × Procs :=
  match allocproc t mem with
  | (none, t) => (-1, t)
  | (some np, t) =>
      -- `uvmcopy` fails: `freeproc(np)`
      if copy = false then (-1, freeproc t np)
      else
        let pid := (t.proc np).pid
        let t := t.set np { t.proc np with parent := some p }
        (pid, t.set np { t.proc np with state := .RUNNABLE })

/-- `kill(pid)`: the first slot, `UNUSED` or not, with that pid. -/
def kill (t : Procs) (pid : Int) : Int × Procs :=
  match t.first fun p => p.pid = pid with
  | none => (-1, t)
  | some i =>
      let p := t.proc i
      (0, t.set i { p with killed := true, state := if p.state = .SLEEPING then .RUNNABLE else p.state })

/-- `wakeup(chan)` called by process `self`. -/
def wakeup (t : Procs) (self : Fin NPROC) (c : Chan) : Procs :=
  { t with proc := fun i =>
      if i ≠ self ∧ (t.proc i).state = .SLEEPING ∧ (t.proc i).chan = some c then
        { t.proc i with state := .RUNNABLE }
      else t.proc i }

/-- Whether process `p` has a child. -/
def hasKids (t : Procs) (p : Fin NPROC) : Bool := (List.finRange NPROC).any fun i => (t.proc i).parent = some p

/-- `reparent(p)`: every child of `p` goes to `initproc`, with a
`wakeup(initproc)` per child. A `wakeup` does not read the parents and
doing it again changes nothing, so the loop is the parents' update
followed by one `wakeup` when there was a child. -/
def reparent (t : Procs) (p : Fin NPROC) : Procs :=
  let t' := { t with proc := fun i =>
    if (t.proc i).parent = some p then { t.proc i with parent := some t.initproc } else t.proc i }
  if hasKids t p then wakeup t' p (.proc t.initproc) else t'

/-- `exit(status)` by process `p`, from `acquire(&wait_lock)` to the
`sched` that never returns. -/
@[grind] def exit (t : Procs) (p : Fin NPROC) (status : Int) : Except String Procs :=
  if p = t.initproc then throw "init exiting"
  else
    let t := reparent t p
    -- `wakeup(p->parent)`: no process sleeps on a null channel
    let t := match (t.proc p).parent with
      | some q => wakeup t p (.proc q)
      | none => t
    .ok (t.set p { t.proc p with xstate := status, state := .ZOMBIE })

/-- `sleep(chan, lk)` by process `p`, up to its `sched`. -/
def sleep (t : Procs) (p : Fin NPROC) (c : Chan) : Procs :=
  t.set p { t.proc p with chan := some c, state := .SLEEPING }

/-- How one pass of `wait`'s loop ends. -/
inductive WaitTurn
  /-- `wait` returns `r` and frees no child. -/
  | ret (r : Int)
  /-- `freeproc` of the child with pid `pid`, whose `xstate` is copied
  out to `addr` when `addr` is not `0`; `wait` returns `pid`. -/
  | reaped (pid xstate : Int)
  /-- `sleep(p, &wait_lock)`; the loop runs again when it returns. -/
  | sleep
  deriving DecidableEq, Repr

/-- One pass of `wait(addr)`'s loop by process `p`; `copyout` says
whether the copy of the status to `addr` succeeds. The first child in
table order that is a `ZOMBIE` is reaped. -/
def wait (t : Procs) (p : Fin NPROC) (addr : Nat) (copyout : Bool) : WaitTurn × Procs :=
  match t.first fun np => np.parent = some p ∧ np.state = .ZOMBIE with
  | some np =>
      if addr ≠ 0 ∧ copyout = false then (.ret (-1), t)
      else (.reaped (t.proc np).pid (t.proc np).xstate, freeproc t np)
  | none =>
      if hasKids t p = false ∨ (t.proc p).killed = true then (.ret (-1), t)
      else (.sleep, sleep t p (.proc p))

instance : NeZero NPROC := ⟨by decide⟩

/-- The table after `userinit`: its `allocproc` takes slot `0` of the
zeroed table, which becomes `initproc`. -/
def userinit : Procs :=
  match allocproc ⟨fun _ => Proc.zero, 1, 0⟩ true with
  | (some i, t) => { t.set i { t.proc i with state := .RUNNABLE } with initproc := i }
  | (none, t) => t

end Xv6
