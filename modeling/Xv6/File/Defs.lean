import Xv6.Pipe.Defs
import Xv6.Fs.Defs
import Xv6.Proc.Defs

/-!
The open-file table of `kernel/file.c`, the allocation and close of
`kernel/pipe.c`, the descriptor calls of `kernel/sysfile.c`, and what
`fork` and `exit` of `kernel/proc.c` do to a process's files.

# What is kept

A `struct file` keeps `type`, `ref`, `readable`, `writable`, `pipe` and
`ip`; `off` and `major` are read by `fileread`, `filewrite` and
`filestat`, which are not modelled. A pipe is named by its page, and
`pipes` holds what is on each page. An in-memory inode is named by its
inode number (one device): `iget` gives the entry with `ref > 0` and
that number when there is one, so while an inode is referenced its
number names its entry. `iref` is that entry's `int ref`, and `0` for a
number with no entry.

Of a process slot the model keeps `ofile[]`, `cwd` and `state`. The
rest of the table is the lifecycle model's (`Xv6.Procs`): here `fork`
takes the first `UNUSED` slot as `allocproc` does, and `ok` says
whether `allocproc` and `uvmcopy` succeed. A failure of either ends in
`freeproc(np)`, which leaves the slot `UNUSED` with the files it had,
none.

# The file system as an oracle

`sys_open`'s `create` and `namei` are the namespace layer's: the model
takes their result, an inode with its type and major or `0`, as given,
together with the reference they take on it. `argstr` failing is the
same `-1`. `kalloc`'s page in `pipealloc` is given the same way.

# Undefined behaviour

`idup` and `iput` of a null `cwd` dereference it; the model stops with
an error of its own there, which no reachable state meets.

Each call is one turn: the locks of `ftable`, `itable` and the pipes
serialize what a call does to them, and nothing a call leaves
half-done is read by another before it returns, except through the
counts, which the invariant states with the references each call in
progress holds.
-/

namespace Xv6

/-- `O_RDONLY` of `fcntl.h`. -/
def O_RDONLY : Nat := 0x000

/-- `O_WRONLY`. -/
def O_WRONLY : Nat := 0x001

/-- `O_RDWR`. -/
def O_RDWR : Nat := 0x002

/-- `O_CREATE`. -/
def O_CREATE : Nat := 0x200

/-- `#define NDEV 10`: the bound on a device's major number. -/
def NDEV : Int := 10

/-- The `type` enum of `struct file`. -/
inductive FileType
  | FD_NONE
  | FD_PIPE
  | FD_INODE
  | FD_DEVICE
  deriving DecidableEq, Repr

/-- `struct file`, without `off` and `major`. -/
structure File where
  type : FileType
  ref : Nat
  readable : Bool
  writable : Bool
  pipe : Nat
  ip : Nat
  deriving DecidableEq, Repr

/-- A zeroed `struct file`. -/
def File.zero : File := ⟨.FD_NONE, 0, false, false, 0, 0⟩

/-- What `create` or `namei` returns to `sys_open`: the inode, with the
type and major `ilock` reads. -/
structure Found where
  inum : Nat
  type : Nat
  major : Int
  deriving DecidableEq, Repr

/-- `ftable`, the pipes, the inode table's counts, and the process
slots' files. `allocs` and `frees` are ghost counts of the pages
`kalloc` gave to `pipealloc` and `pipeclose` gave back to `kfree`. -/
structure Files where
  file : Fin NFILE → File
  pipes : Nat → Pipe
  inUse : Nat → Bool
  iref : Nat → Int
  ofile : Fin NPROC → Fin NOFILE → Option (Fin NFILE)
  cwd : Fin NPROC → Option Nat
  state : Fin NPROC → ProcState
  allocs : Nat → Nat
  frees : Nat → Nat

/-- The slot `userinit` takes, `initproc`. -/
def initSlot : Fin NPROC := ⟨0, by decide⟩

namespace Files

/-- Entry `f` of `ftable` becomes `x`. -/
def setFile (s : Files) (f : Fin NFILE) (x : File) : Files :=
  { s with file := Function.update s.file f x }

/-- `p->ofile[fd] = v`. -/
def setOfile (s : Files) (p : Fin NPROC) (fd : Fin NOFILE) (v : Option (Fin NFILE)) : Files :=
  { s with ofile := Function.update s.ofile p (Function.update (s.ofile p) fd v) }

/-- `filealloc()`: the first entry with `ref == 0`, now with `ref = 1`,
or `none` for `0`. -/
def filealloc (s : Files) : Option (Fin NFILE) × Files :=
  match (List.finRange NFILE).find? fun f => (s.file f).ref = 0 with
  | some f => (some f, s.setFile f { s.file f with ref := 1 })
  | none => (none, s)

/-- `filedup(f)`. -/
def filedup (s : Files) (f : Fin NFILE) : Except String Files :=
  if (s.file f).ref < 1 then throw "filedup"
  else pure (s.setFile f { s.file f with ref := (s.file f).ref + 1 })

/-- `kfree` of the page `pg`. -/
def kfree (s : Files) (pg : Nat) : Files :=
  { s with
    inUse := Function.update s.inUse pg false
    frees := Function.update s.frees pg (s.frees pg + 1) }

/-- `pipeclose(pi, writable)` of the pipe on page `pg`, with its `kfree`. -/
@[grind] def pipeclose (s : Files) (pg : Nat) (writable : Bool) : Files :=
  let (pi, free) := Xv6.pipeclose (s.pipes pg) writable
  let s := { s with pipes := Function.update s.pipes pg pi }
  if free then s.kfree pg else s

/-- `ip->ref++` of `idup`, and of `iget` for an inode already in the
table. -/
def idup (s : Files) (ip : Nat) : Files :=
  { s with iref := Function.update s.iref ip (s.iref ip + 1) }

/-- `ip->ref--` of `iput`. -/
def iput (s : Files) (ip : Nat) : Files :=
  { s with iref := Function.update s.iref ip (s.iref ip - 1) }

/-- `fileclose(f)`. -/
def fileclose (s : Files) (f : Fin NFILE) : Except String Files :=
  let ff := s.file f
  if ff.ref < 1 then throw "fileclose"
  else if ff.ref - 1 > 0 then pure (s.setFile f { ff with ref := ff.ref - 1 })
  else
    let s := s.setFile f { ff with ref := 0, type := .FD_NONE }
    match ff.type with
    | .FD_PIPE => pure (s.pipeclose ff.pipe ff.writable)
    | .FD_INODE | .FD_DEVICE => pure (s.iput ff.ip)
    | .FD_NONE => pure s

/-- `pipealloc(&f0, &f1)`: the read and the write end, or `none` for
`-1`. `page` is what `kalloc` returns, `none` for `0`, and `junk` what
the page holds. At `bad` only the files are set: `pi` is `0` there. -/
@[grind] def pipealloc (s : Files) (page : Option Nat) (junk : Nat → UInt8) :
    Except String (Option (Fin NFILE × Fin NFILE) × Files) :=
  match s.filealloc with
  | (none, s) => pure (none, s)
  | (some f0, s) =>
      match s.filealloc with
      | (none, s) => do
          let s ← s.fileclose f0
          pure (none, s)
      | (some f1, s) =>
          match page with
          | none => do
              let s ← s.fileclose f0
              let s ← s.fileclose f1
              pure (none, s)
          | some pg =>
              let s := { s with
                pipes := Function.update s.pipes pg (Pipe.alloc junk)
                inUse := Function.update s.inUse pg true
                allocs := Function.update s.allocs pg (s.allocs pg + 1) }
              let s := s.setFile f0 { s.file f0 with type := .FD_PIPE, readable := true, writable := false, pipe := pg }
              let s := s.setFile f1 { s.file f1 with type := .FD_PIPE, readable := false, writable := true, pipe := pg }
              pure (some (f0, f1), s)

/-- `fdalloc(f)` by process `p`: the first null `ofile[]` slot, now `f`,
or `none` for `-1`. -/
def fdalloc (s : Files) (p : Fin NPROC) (f : Fin NFILE) : Option (Fin NOFILE) × Files :=
  match (List.finRange NOFILE).find? fun fd => s.ofile p fd = none with
  | some fd => (some fd, s.setOfile p fd (some f))
  | none => (none, s)

/-- `argfd` of the argument `fd` of process `p`: the descriptor and its
file, or `none` for `-1`. -/
def argfd (s : Files) (p : Fin NPROC) (fd : Int) : Option (Fin NOFILE × Fin NFILE) :=
  if h : 0 ≤ fd ∧ fd < NOFILE then
    let i : Fin NOFILE := ⟨fd.toNat, by omega⟩
    (s.ofile p i).map fun f => (i, f)
  else none

/-- `sys_dup()` by process `p`. -/
def sys_dup (s : Files) (p : Fin NPROC) (fd : Int) : Except String (Int × Files) :=
  match s.argfd p fd with
  | none => pure (-1, s)
  | some (_, f) =>
      match s.fdalloc p f with
      | (none, s) => pure (-1, s)
      | (some fd, s) => do
          let s ← s.filedup f
          pure (fd.val, s)

/-- `sys_close()` by process `p`. -/
def sys_close (s : Files) (p : Fin NPROC) (fd : Int) : Except String (Int × Files) :=
  match s.argfd p fd with
  | none => pure (-1, s)
  | some (i, f) => do
      let s ← (s.setOfile p i none).fileclose f
      pure (0, s)

/-- `sys_pipe()` by process `p`; `copyout` says whether both `copyout`s
of the descriptors succeed. -/
def sys_pipe (s : Files) (p : Fin NPROC) (page : Option Nat) (junk : Nat → UInt8) (copyout : Bool) :
    Except String (Int × Files) := do
  match ← s.pipealloc page junk with
  | (none, s) => pure (-1, s)
  | (some (rf, wf), s) =>
      match s.fdalloc p rf with
      | (none, s) => do
          let s ← s.fileclose rf
          let s ← s.fileclose wf
          pure (-1, s)
      | (some fd0, s) =>
          match s.fdalloc p wf with
          | (none, s) => do
              let s ← (s.setOfile p fd0 none).fileclose rf
              let s ← s.fileclose wf
              pure (-1, s)
          | (some fd1, s) =>
              if copyout then pure (0, s)
              else do
                let s ← ((s.setOfile p fd0 none).setOfile p fd1 none).fileclose rf
                let s ← s.fileclose wf
                pure (-1, s)

/-- `sys_open()` by process `p` with mode `omode`, from the inode
`create` or `namei` gives (`found`) on: their `iget` or `idup` takes a
reference, which `iunlockput` drops on every `-1` path and the file
keeps otherwise. -/
@[grind] def sys_open (s : Files) (p : Fin NPROC) (omode : Nat) (found : Option Found) : Except String (Int × Files) :=
  match found with
  | none => pure (-1, s)
  | some ip =>
      let s := s.idup ip.inum
      if omode &&& O_CREATE = 0 ∧ ip.type = T_DIR ∧ omode ≠ O_RDONLY then pure (-1, s.iput ip.inum)
      else if ip.type = T_DEVICE ∧ (ip.major < 0 ∨ NDEV ≤ ip.major) then pure (-1, s.iput ip.inum)
      else
        match s.filealloc with
        | (none, s) => pure (-1, s.iput ip.inum)
        | (some f, s) =>
            match s.fdalloc p f with
            | (none, s) => do
                let s ← s.fileclose f
                pure (-1, s.iput ip.inum)
            | (some fd, s) =>
                pure (fd.val, s.setFile f { s.file f with
                  type := if ip.type = T_DEVICE then .FD_DEVICE else .FD_INODE
                  ip := ip.inum
                  readable := omode &&& O_WRONLY = 0
                  writable := omode &&& O_WRONLY ≠ 0 || omode &&& O_RDWR ≠ 0 })

/-- `fork`'s loop `np->ofile[i] = filedup(p->ofile[i])` over the
descriptors `fds`. -/
def forkFiles (p np : Fin NPROC) : List (Fin NOFILE) → Files → Except String Files
  | [], s => pure s
  | i :: is, s =>
      match s.ofile p i with
      | some f => do
          let s ← s.filedup f
          forkFiles p np is (s.setOfile np i (some f))
      | none => forkFiles p np is s

/-- `fork()` by process `p`, as its files see it. -/
@[grind] def fork (s : Files) (p : Fin NPROC) (ok : Bool) : Except String Files :=
  match (List.finRange NPROC).find? fun i => s.state i = .UNUSED with
  | none => pure s
  | some np =>
      if ok = false then pure s
      else do
        let s ← forkFiles p np (List.finRange NOFILE) s
        match s.cwd p with
        | some ip =>
            let s := s.idup ip
            pure { s with
              cwd := Function.update s.cwd np (some ip)
              state := Function.update s.state np .RUNNABLE }
        | none => throw "idup: null cwd"

/-- `exit`'s loop closing the descriptors `fds` of process `p`. -/
def exitFiles (p : Fin NPROC) : List (Fin NOFILE) → Files → Except String Files
  | [], s => pure s
  | fd :: fds, s =>
      match s.ofile p fd with
      | some f => do
          let s ← s.fileclose f
          exitFiles p fds (s.setOfile p fd none)
      | none => exitFiles p fds s

/-- `exit()` by process `p`, as its files see it: the slot ends a
`ZOMBIE`. -/
@[grind] def exit (s : Files) (p : Fin NPROC) : Except String Files :=
  if p = initSlot then throw "init exiting"
  else do
    let s ← exitFiles p (List.finRange NOFILE) s
    match s.cwd p with
    | some ip =>
        let s := s.iput ip
        pure { s with
          cwd := Function.update s.cwd p none
          state := Function.update s.state p .ZOMBIE }
    | none => throw "iput: null cwd"

end Files

end Xv6
