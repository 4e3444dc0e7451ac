import Xv6.Param

/-!
Pipes, as `kernel/pipe.c` keeps them.

# The pipe

`struct pipe` holds `PIPESIZE` bytes and two `uint` counters that
only grow: `nwrite` bytes were ever stored and `nread` taken, so the
bytes in the pipe are the `nwrite - nread` after `nread`, each at its
counter modulo `PIPESIZE`. The counters are `UInt32`: the C `uint`
wraps past `2 ^ 32`. `data` is stored and read only at residues below
`PIPESIZE`.

# Calls as turns

Both calls run under `pi->lock` and give it up only in `sleep` and on
return. `pipewrite` keeps its place `i` in the user buffer across its
sleeps: `pipewrite` here is one turn of its loop, and a call is a
sequence of turns. `piperead` never sleeps once it copies: one turn is
the wait test and, when the pipe holds bytes or is closed for
writing, the whole copy loop.

User memory is what `copyin` and `copyout` do at each byte: `src i`
is the byte at `addr + i`, or `none` where `copyin` fails, and `dst i`
says whether `copyout` to `addr + i` succeeds.
-/

namespace Xv6

/-- `#define PIPESIZE 512`. -/
def PIPESIZE : Nat := 512

/-- `struct pipe`, without its lock. -/
structure Pipe where
  data : Nat → UInt8
  nread : UInt32
  nwrite : UInt32
  readopen : Bool
  writeopen : Bool

/-- The pipe `pipealloc` sets up; `data` is what `kalloc`'s page held. -/
def Pipe.alloc (junk : Nat → UInt8) : Pipe where
  data := junk
  nread := 0
  nwrite := 0
  readopen := true
  writeopen := true

/-- `pipeclose(pi, writable)`: the pipe, and whether `kfree` frees it. -/
def pipeclose (pi : Pipe) (writable : Bool) : Pipe × Bool :=
  let pi := if writable then { pi with writeopen := false } else { pi with readopen := false }
  (pi, !pi.readopen && !pi.writeopen)

/-- How one turn of `pipewrite`'s loop ends. -/
inductive WriteTurn
  /-- The call returns `r`. -/
  | ret (r : Int)
  /-- Full: `wakeup(&pi->nread); sleep(&pi->nwrite, &pi->lock)`. -/
  | wait
  /-- The byte `ch` was stored; `i++`. -/
  | wrote (ch : UInt8)
  deriving DecidableEq, Repr

/-- One turn of `pipewrite(pi, addr, n)`'s loop at byte `i`, for a
caller whose `killed` flag is given. -/
def pipewrite (pi : Pipe) (killed : Bool) (src : Nat → Option UInt8) (n : Int) (i : Nat) :
    Pipe × WriteTurn :=
  if (i : Int) < n then
    if pi.readopen = false ∨ killed = true then (pi, .ret (-1))
    else if pi.nwrite = pi.nread + PIPESIZE.toUInt32 then (pi, .wait)
    else
      match src i with
      -- `copyin` failed: `break`, and the call returns the bytes stored so far
      | none => (pi, .ret i)
      | some ch =>
          ({ pi with data := Function.update pi.data (pi.nwrite.toNat % PIPESIZE) ch,
                     nwrite := pi.nwrite + 1 }, .wrote ch)
  else (pi, .ret i)

/-- How a turn of `piperead` ends. -/
inductive ReadTurn
  /-- The call returns `r`, having copied `out` to the user buffer. -/
  | ret (r : Int) (out : List UInt8)
  /-- Empty and open for writing: `sleep(&pi->nread, &pi->lock)`. -/
  | wait
  deriving DecidableEq, Repr

/-- `piperead`'s copy loop from byte `i`: where `i` stops, the bytes
copied out, and the pipe. The byte is taken, `nread++`, before
`copyout` is tried. -/
def copyLoop (dst : Nat → Bool) (n : Int) : Nat → Nat → Pipe → Nat × List UInt8 × Pipe
  | 0, i, pi => (i, [], pi)
  | fuel + 1, i, pi =>
      if (i : Int) < n then
        if pi.nread = pi.nwrite then (i, [], pi)
        else
          let ch := pi.data (pi.nread.toNat % PIPESIZE)
          let pi := { pi with nread := pi.nread + 1 }
          if dst i then
            let (k, out, pi) := copyLoop dst n fuel (i + 1) pi
            (k, ch :: out, pi)
          -- `copyout` failed: `break`
          else (i, [], pi)
      else (i, [], pi)

/-- One turn of `piperead(pi, addr, n)` for a caller whose `killed`
flag is given: the wait test, then the copy loop, whose `n` turns
the fuel `n.toNat` covers. -/
def piperead (pi : Pipe) (killed : Bool) (dst : Nat → Bool) (n : Int) : Pipe × ReadTurn :=
  if pi.nread = pi.nwrite ∧ pi.writeopen = true then
    if killed then (pi, .ret (-1) []) else (pi, .wait)
  else
    let (i, out, pi) := copyLoop dst n n.toNat 0 pi
    (pi, .ret i out)

end Xv6
