import Xv6.Fs.Proofs.Content
import Mathlib.Logic.Relation

/-!
One `FD_INODE` `struct file` shared by processes, through `fork` or
`dup`, and their `filewrite` and `fileread` calls on it
(`kernel/file.c`).

# What a call does under the lock

`f->off` is read and advanced only while the caller holds the inode's
sleep-lock: `fileread` takes the lock once, for one `readi`;
`filewrite` takes it once for each chunk of at most
`((MAXOPBLOCKS-1-1-2) / 2) * BSIZE` bytes, each in a transaction of its
own, and other callers take their turns between its chunks. A turn is a
step here; its effect on the locked inode is `Fs.FileOp.spec` on the
inode's byte string, which `Fs.inode_refines_bytes` proves the inode
calls meet. Copies to and from user memory succeed; a `writei` that
finds no free block panics in `balloc`, and the run has no next state.

# The record

Every turn that moves bytes is logged, in the order the turns held the
lock: the offset it read or wrote at, and the bytes.
-/

namespace Xv6.Shared

open Fs

/-- `((MAXOPBLOCKS-1-1-2) / 2) * BSIZE`: the most `filewrite` writes in
one transaction. -/
def maxChunk : Nat := ((MAXOPBLOCKS - 1 - 1 - 2) / 2) * BSIZE

/-- The shared `struct file`'s `off`, and its inode's byte string. -/
structure SFile where
  content : List UInt8
  off : UInt32

/-- A turn that moved bytes: where it started and what it moved. -/
structure Op where
  off : Nat
  bytes : List UInt8
  write : Bool

/-- A `filewrite(f, addr, n)` in progress: the `n` bytes at `addr`, and
`i`, the bytes written so far. -/
structure WriteCall where
  data : List UInt8
  i : Nat

/-- What a `filewrite` does after a chunk: another chunk, or return. -/
inductive Next
  | more (c : WriteCall)
  | ret (r : Int)

/-- One chunk of `filewrite` of a writable file, with `i < n`: `n1 = min(n - i, max)`,
`writei` at `f->off`, and `f->off += r` for `r > 0`. The file, the bytes
written, and what the call does next. -/
def chunk (f : SFile) (c : WriteCall) : SFile × List UInt8 × Next :=
  let n1 := min (c.data.length - c.i) maxChunk
  let bytes := (c.data.drop c.i).take n1
  let w := (FileOp.write f.off n1.toUInt32 fun j => bytes.getD j 0).spec f.content
  if 0 < w.1.1 then
    let f : SFile := ⟨w.2, f.off + w.1.1.toNat.toUInt32⟩
    -- `r != n1` breaks out of the loop; `i == n` ends it
    if w.1.1 ≠ n1 then (f, bytes, .ret (-1))
    else if c.i + n1 < c.data.length then (f, bytes, .more ⟨c.data, c.i + n1⟩)
    else (f, bytes, .ret c.data.length)
  else (⟨w.2, f.off⟩, [], .ret (-1))

/-- `fileread(f, addr, n)` of a readable file: `readi` at `f->off` and
`f->off += r` for `r > 0`. The file and the bytes read, `r` of them. -/
def fileread (f : SFile) (n : UInt32) : SFile × List UInt8 :=
  let rd := (FileOp.read f.off n).spec f.content
  if 0 < rd.1.1 then (⟨rd.2, f.off + rd.1.1.toNat.toUInt32⟩, rd.1.2) else (⟨rd.2, f.off⟩, [])

/-- The shared file, each process's `filewrite` in progress, and the
log of turns. -/
structure FdSys where
  file : SFile
  calls : Fin NPROC → Option WriteCall
  ops : List Op

/-- A step: a process calls `filewrite`, takes a turn of its call, or
calls `fileread`. -/
inductive FdEv
  | write (p : Fin NPROC) (data : List UInt8)
  | chunk (p : Fin NPROC)
  | read (p : Fin NPROC) (n : UInt32)

/-- The log entry of a turn, if it moved bytes. -/
def logged (off : Nat) (bytes : List UInt8) (write : Bool) : List Op :=
  if bytes = [] then [] else [⟨off, bytes, write⟩]

namespace FdSys

/-- The state before any call, with the file at `off0` of `content`. -/
def boot (content : List UInt8) (off0 : UInt32) : FdSys := ⟨⟨content, off0⟩, fun _ => none, []⟩

/-- The system after a step. -/
@[grind] def step (s : FdSys) : FdEv → Option FdSys
  | .write p data =>
      -- a call with `n > 0` enters the loop; `n = 0` returns at once
      match s.calls p with
      | none => some { s with calls := Function.update s.calls p (if data = [] then none else some ⟨data, 0⟩) }
      | some _ => none
  | .chunk p =>
      match s.calls p with
      | some c =>
          let (f, bytes, next) := chunk s.file c
          let c' := match next with
            | .more c => some c
            | .ret _ => none
          some ⟨f, Function.update s.calls p c', s.ops ++ logged s.file.off.toNat bytes true⟩
      | none => none
  | .read p n =>
      match s.calls p with
      | none =>
          let (f, bytes) := fileread s.file n
          some ⟨f, s.calls, s.ops ++ logged s.file.off.toNat bytes false⟩
      | some _ => none

/-- The step relation. -/
def Step (s s' : FdSys) : Prop := ∃ e, s.step e = some s'

end FdSys

end Xv6.Shared
