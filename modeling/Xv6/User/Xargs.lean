import Xv6.Param

/-!
`user/xargs.c`: run a command once for each line of standard input,
with the line's words appended to its arguments.

# The process tree

`main` reads a line into its `char buf[512]`, forks, and waits; the
child copies `argv[1..argc-1]` into `new_argv`, splits its copy of the
line with `add_args` and calls `exec`. A child whose `exec` fails falls
back into the `while` loop with its own, already split, buffer and its
own offset into the shared standard input: it goes on reading lines and
forking, and its parent's `wait` returns only when it exits. So a turn
of the loop that forks a failing child runs the rest of the loop twice,
the child's first (`loop`). Which `exec` fails is an oracle `ok` on the
child's memory; the command is taken to leave standard input to xargs,
and `fork` to succeed.

# Memory

`buf` is a `Nat → UInt8`, indexed from `buf[0]`; its first contents are
a parameter, as C leaves a local array. `new_argv` holds pointers
(`Ptr`): an entry the turn does not write is `none`, indeterminate, since
C does not initialise it either. `exec` reads an argument as the C
string at its pointer (`cstr`). `read(0, &c, 1)` takes one byte of the
stream, so how the writer split the stream does not show.
-/

namespace Xv6.Xargs

/-- A pointer `main` stores in `new_argv`: xargs's own `argv[i]`, or
`&buf[i]`. -/
inductive Ptr
  | arg (i : Nat)
  | buf (i : Nat)
  deriving DecidableEq, Repr

/-- `read_line(buf)`'s loop with `len` bytes stored: the buffer, `len`
and what is left of the stream. `p` stays at `buf + len`. -/
@[grind] def readLine (buf : Nat → UInt8) (len : Nat) : List UInt8 → (Nat → UInt8) × Nat × List UInt8
  -- `read` returns 0 at the end of the stream
  | [] => (buf, len, [])
  | c :: rest =>
      if c = 10 then (Function.update buf len 0, len, rest)
      else readLine (Function.update buf len c) (len + 1) rest

/-- `add_args`'s locals and the memory it writes. -/
structure Args where
  argv : Nat → Option Ptr
  argvIdx : Nat
  prevSpace : Bool
  buf : Nat → UInt8

/-- One turn of `add_args`'s loop, at `line_idx = i`. -/
def Args.step (s : Args) (i : Nat) : Args :=
  if s.buf i = 32 then
    { s with buf := Function.update s.buf i 0,
             argvIdx := if s.prevSpace then s.argvIdx else s.argvIdx + 1,
             prevSpace := true }
  else
    { s with argv := if s.prevSpace then Function.update s.argv s.argvIdx (some (.buf i)) else s.argv,
             prevSpace := false }

/-- `add_args(argv, old_argc, buf, line_len)`. -/
def addArgs (argv : Nat → Option Ptr) (oldArgc : Nat) (buf : Nat → UInt8) (lineLen : Nat) : Args :=
  (List.range lineLen).foldl Args.step ⟨argv, oldArgc, true, buf⟩

/-- `new_argv` after the child's copy loop `new_argv[i] = argv[i+1]`. -/
def copyArgv (argc : Nat) (i : Nat) : Option Ptr :=
  if i < argc - 1 then some (.arg (i + 1)) else none

/-- A child's memory when it calls `exec(new_argv[0], new_argv)`. -/
structure Exec where
  argv : Nat → Option Ptr
  buf : Nat → UInt8

/-- `main`'s `while` loop in a process whose buffer is `buf`: the
`exec`s it and the children it waits for make, in order, and the
stream left when it leaves the loop. Every turn that forks reads at
least one byte, so fuel one above the stream's length covers the loop. -/
@[grind] def loop (argc : Nat) (ok : Exec → Bool) : Nat → (Nat → UInt8) → List UInt8 → List Exec × List UInt8
  | 0, _, input => ([], input)
  | fuel + 1, buf, input =>
      let (buf, len, rest) := readLine buf 0 input
      if len = 0 then ([], rest)
      else
        let a := addArgs (copyArgv argc) (argc - 1) buf len
        let e : Exec := ⟨a.argv, a.buf⟩
        if ok e then
          let (es, rest) := loop argc ok fuel buf rest
          (e :: es, rest)
        else
          -- the child carries on with its split buffer; then `wait` returns
          let (es, rest) := loop argc ok fuel a.buf rest
          let (es', rest) := loop argc ok fuel buf rest
          (e :: (es ++ es'), rest)

/-- `main(argc, argv)` on the stream `input`, from the stack's first
`buf`: the `exec`s made, or, for `argc < 2`, the message it prints
before `exit(0)`. -/
def main (argc : Nat) (ok : Exec → Bool) (buf : Nat → UInt8) (input : List UInt8) :
    Except String (List Exec) :=
  if argc < 2 then .error "xargs: need argument(s)\n"
  else .ok (loop argc ok (input.length + 1) buf input).1

/-- The C string at `&buf[i]` for at most `n` bytes: the bytes before
the first NUL, `none` if none comes first. -/
@[grind] def cstrFrom (buf : Nat → UInt8) : Nat → Nat → Option (List UInt8)
  | 0, _ => none
  | n + 1, i => if buf i = 0 then some [] else (cstrFrom buf n (i + 1)).map (buf i :: ·)

/-- The C string at `&buf[i]` inside `char buf[512]`. -/
def cstr (buf : Nat → UInt8) (i : Nat) : Option (List UInt8) := cstrFrom buf (512 - i) i

end Xv6.Xargs
