import Xv6.Fs.Defs

/-!
The block allocator and the inode layer of `fs.c`, run inside one
transaction.

# The state

A file-system call sees the disk through the log and the buffer cache:
`bread` returns what the last store left, whether or not it has been
committed. `Tx` is that view, with the blocks passed to `log_write` so
far. A store into a buffer followed by `log_write` is `logWrite`; a
`copyin` that faults midway leaves the bytes it copied in the buffer
without a `log_write` (`touch`).

The functions run in `FsM`, the state with `panic` as an error: the
text of each `panic` is the source's.

# Loops

Each loop is a recursive function over the indices the C loop visits,
or, for the loops of `readi` and `writei`, over a fuel bound that the
proofs show is never reached. `balloc` and `ialloc` scan the bitmap
and the inode blocks as `mkfs`'s superblock lays them out.

# Copies

`readi` copies out through `ok t m`, whether the `m` bytes at offset
`t` of the destination can be written (always, for a kernel address).
`writei` copies in from `src`, the bytes at the source address, `none`
where a user page is missing.
-/

namespace Xv6.Fs

/-- The disk a transaction sees, and the blocks it has logged. -/
structure Tx where
  disk : Disk
  logged : List Nat

/-- A file-system function inside a transaction. -/
abbrev FsM := StateT Tx (Except String)

/-- `bread(dev, b)`'s data. -/
def bread (b : Nat) : FsM Block := fun s => .ok (s.disk b, s)

/-- A store `f` into the buffer of block `b`, then `log_write(bp)`. -/
def logWrite (b : Nat) (f : Block → Block) : FsM Unit := fun s =>
  .ok ((), ⟨Function.update s.disk b (f (s.disk b)), b :: s.logged⟩)

/-- A store into the buffer of block `b` that is not logged. -/
def touch (b : Nat) (f : Block → Block) : FsM Unit := fun s =>
  .ok ((), { s with disk := Function.update s.disk b (f (s.disk b)) })

@[simp] theorem bread_apply (b : Nat) (s : Tx) : bread b s = .ok (s.disk b, s) := rfl

@[simp] theorem logWrite_apply (b : Nat) (f : Block → Block) (s : Tx) :
    logWrite b f s = .ok ((), ⟨Function.update s.disk b (f (s.disk b)), b :: s.logged⟩) := rfl

@[simp] theorem touch_apply (b : Nat) (f : Block → Block) (s : Tx) :
    touch b f s = .ok ((), ⟨Function.update s.disk b (f (s.disk b)), s.logged⟩) := rfl

-- ================================================================ blocks

/-- `bzero(dev, bno)`. -/
def bzero (bno : Nat) : FsM Unit := logWrite bno fun b => ByteMap.zero b 0 BSIZE

/-- `balloc`'s inner loop over the bitmap block of `b`: the first `bi`
with `bi < BPB && b + bi < sb.size` whose bit is clear. -/
def freeBit (data : Block) (b : Nat) : Option Nat :=
  (List.range (min BPB (FSSIZE - b))).find? fun bi => data (bi / 8) &&& ByteMap.mask (bi % 8) == 0

/-- `balloc`'s outer loop from block `b`, one bitmap block a turn. -/
def ballocFrom : Nat → Nat → FsM Nat
  | 0, _ => throw "balloc: out of blocks"
  | fuel + 1, b =>
      if b < FSSIZE then do
        let data ← bread (BBLOCK b)
        match freeBit data b with
        | some bi => do
            logWrite (BBLOCK b) fun d => ByteMap.setBit d bi
            bzero (b + bi)
            pure (b + bi)
        | none => ballocFrom fuel (b + BPB)
      else throw "balloc: out of blocks"

/-- `balloc(dev)`: one turn for each bitmap block covers the disk. -/
def balloc : FsM Nat := ballocFrom (FSSIZE / BPB + 1) 0

/-- `bfree(dev, b)`. -/
def bfree (b : Nat) : FsM Unit := do
  let data ← bread (BBLOCK b)
  let bi := b % BPB
  if data (bi / 8) &&& ByteMap.mask (bi % 8) == 0 then throw "freeing free block"
  logWrite (BBLOCK b) fun d => ByteMap.clearBit d bi

-- ================================================================ inodes

/-- `iupdate(ip)`. -/
def iupdate (ip : Inode) : FsM Unit := logWrite (IBLOCK ip.inum) fun b => putDinode b ip

@[simp] theorem iupdate_apply (ip : Inode) (s : Tx) :
    iupdate ip s = .ok ((), ⟨Function.update s.disk (IBLOCK ip.inum) (putDinode (s.disk (IBLOCK ip.inum)) ip),
      IBLOCK ip.inum :: s.logged⟩) := rfl

/-- `ilock`'s read of an inode not yet valid, with its `panic`. -/
@[grind] def ilock (inum : Nat) : FsM Inode := do
  let data ← bread (IBLOCK inum)
  let ip := getDinode data inum
  if ip.type = 0 then throw "ilock: no type"
  pure ip

/-- `ialloc`'s loop from inode `inum`. -/
def iallocFrom (type : Nat) : Nat → Nat → FsM Nat
  | 0, _ => throw "ialloc: no inodes"
  | fuel + 1, inum =>
      if inum < NINODES then do
        let data ← bread (IBLOCK inum)
        if ByteMap.getLE data (dinodeOff inum) 2 = 0 then do
          -- `memset(dip, 0, sizeof(*dip)); dip->type = type`
          logWrite (IBLOCK inum) fun d =>
            ByteMap.setLE (ByteMap.zero d (dinodeOff inum) 64) (dinodeOff inum) 2 type
          pure inum
        else iallocFrom type fuel (inum + 1)
      else throw "ialloc: no inodes"

/-- `ialloc(dev, type)`: the inode number it hands to `iget`. -/
def ialloc (type : Nat) : FsM Nat := iallocFrom type NINODES 1

/-- `if((addr = ip->addrs[j]) == 0) ip->addrs[j] = addr = balloc(ip->dev)`,
which `bmap` runs for a direct slot and for the indirect block. -/
def addrOrAlloc (ip : Inode) (j : Fin (NDIRECT + 1)) : FsM (Nat × Inode) :=
  if ip.addrs j = 0 then do
    let addr ← balloc
    pure (addr, ip.setAddr j addr)
  else pure (ip.addrs j, ip)

/-- `bmap(ip, bn)`: the address of block `bn` of the inode, allocating
it, and the indirect block, where missing. -/
@[grind] def bmap (ip : Inode) (bn : Nat) : FsM (Nat × Inode) :=
  if h : bn < NDIRECT then addrOrAlloc ip (Inode.direct bn h)
  else
    let bn := bn - NDIRECT
    if bn < NINDIRECT then do
      let (ind, ip) ← addrOrAlloc ip Inode.ind
      let a ← bread ind
      let addr := entry a bn
      if addr = 0 then do
        let addr ← balloc
        -- `a[bn] = addr; log_write(bp)` on the indirect block's buffer
        logWrite ind fun d => ByteMap.setLE d (4 * bn) 4 addr
        pure (addr, ip)
      else pure (addr, ip)
    else throw "bmap: out of range"

/-- One turn of `itrunc`'s first loop: `if(ip->addrs[i]){ bfree(ip->dev,
ip->addrs[i]); ip->addrs[i] = 0; }`. -/
def freeSlot (ip : Inode) (j : Fin (NDIRECT + 1)) : FsM Inode :=
  if ip.addrs j ≠ 0 then do
    bfree (ip.addrs j)
    pure (ip.setAddr j 0)
  else pure ip

/-- `itrunc`'s first loop, over the direct slots. -/
@[grind] def freeDirect (ip : Inode) : List (Fin (NDIRECT + 1)) → FsM Inode
  | [] => pure ip
  | j :: js => do
      let ip ← freeSlot ip j
      freeDirect ip js

/-- `itrunc`'s loop over the entries of the indirect block `ind`. -/
def freeEntries (ind : Nat) : List Nat → FsM Unit
  | [] => pure ()
  | j :: js => do
      let a ← bread ind
      if entry a j ≠ 0 then bfree (entry a j)
      freeEntries ind js

/-- The direct slots, `0 ≤ i < NDIRECT`. -/
def directSlots : List (Fin (NDIRECT + 1)) := (List.finRange NDIRECT).map Fin.castSucc

/-- `itrunc`'s indirect part: the entries, then the indirect block. -/
def freeIndirect (ip : Inode) : FsM Inode :=
  if ip.addrs Inode.ind ≠ 0 then do
    freeEntries (ip.addrs Inode.ind) (List.range NINDIRECT)
    bfree (ip.addrs Inode.ind)
    pure (ip.setAddr Inode.ind 0)
  else pure ip

/-- `itrunc(ip)`. -/
def itrunc (ip : Inode) : FsM Inode := do
  let ip ← freeDirect ip directSlots
  let ip ← freeIndirect ip
  let ip := { ip with size := 0 }
  iupdate ip
  pure ip

/-- What `iput` does to an inode with no links and no other reference:
`itrunc(ip); ip->type = 0; iupdate(ip)`. -/
def ifree (ip : Inode) : FsM Inode := do
  let ip ← itrunc ip
  let ip := { ip with type := 0 }
  iupdate ip
  pure ip

-- ============================================================ file data

/-- `m = min(n - tot, BSIZE - off%BSIZE)`: the bytes of the next step of
`readi` and `writei`. -/
def chunk (n tot off : Nat) : Nat := min (n - tot) (BSIZE - off % BSIZE)

/-- `readi`'s loop: `tot` bytes read, the next at `off`; the bytes
copied out so far are `acc`. -/
@[grind] def readLoop (ok : Nat → Nat → Bool) (n : Nat) :
    Nat → Inode → Nat → Nat → List UInt8 → FsM (Int × List UInt8 × Inode)
  | 0, ip, tot, _, acc => pure (tot, acc, ip)
  | fuel + 1, ip, tot, off, acc =>
      if tot < n then do
        let (addr, ip) ← bmap ip (off / BSIZE)
        let data ← bread addr
        let m := chunk n tot off
        if ok tot m then
          readLoop ok n fuel ip (tot + m) (off + m)
            (acc ++ (List.range m).map fun j => data (off % BSIZE + j))
        -- `tot = -1; break`
        else pure (-1, acc, ip)
      else pure (tot, acc, ip)

/-- `readi(ip, user_dst, dst, off, n)` with `off` and `n` `uint`s: the
count returned, the bytes copied out, and the inode (whose `addrs` a
`bmap` may have extended). -/
def readi (ip : Inode) (ok : Nat → Nat → Bool) (off n : Nat) : FsM (Int × List UInt8 × Inode) :=
  if off > ip.size ∨ (off + n) % 2 ^ 32 < off then pure (0, [], ip)
  else
    let n := if off + n > ip.size then ip.size - off else n
    readLoop ok n n ip 0 off []

/-- How many of the `m` bytes at `src + tot` `copyin` copies before it
faults. -/
def copied (src : Nat → Option UInt8) (tot m : Nat) : Nat :=
  ((List.range m).takeWhile fun j => (src (tot + j)).isSome).length

/-- The buffer with bytes `[o, o + k)` copied from `src + tot`. -/
def copyInto (src : Nat → Option UInt8) (tot o k : Nat) (data : Block) : Block := fun i =>
  if o ≤ i ∧ i < o + k then (src (tot + (i - o))).getD 0 else data i

/-- `writei`'s loop: `tot` bytes written, the next at `off`. Returns
`tot`, `off` and the inode. -/
@[grind] def writeLoop (src : Nat → Option UInt8) (n : Nat) : Nat → Inode → Nat → Nat → FsM (Nat × Nat × Inode)
  | 0, ip, tot, off => pure (tot, off, ip)
  | fuel + 1, ip, tot, off =>
      if tot < n then do
        let (addr, ip) ← bmap ip (off / BSIZE)
        let m := chunk n tot off
        let k := copied src tot m
        if k < m then do
          -- `either_copyin` failed after `k` bytes: `brelse(bp); break`
          touch addr (copyInto src tot (off % BSIZE) k)
          pure (tot, off, ip)
        else do
          logWrite addr (copyInto src tot (off % BSIZE) m)
          writeLoop src n fuel ip (tot + m) (off + m)
      else pure (tot, off, ip)

/-- `writei(ip, user_src, src, off, n)` with `off` and `n` `uint`s: the
count returned and the inode written back. -/
def writei (ip : Inode) (src : Nat → Option UInt8) (off n : Nat) : FsM (Int × Inode) :=
  if off > ip.size ∨ (off + n) % 2 ^ 32 < off then pure (-1, ip)
  else if off + n > MAXFILE * BSIZE then pure (-1, ip)
  else do
    let (tot, off, ip) ← writeLoop src n n ip 0 off
    let ip := if off > ip.size then { ip with size := off } else ip
    -- written back even when the size did not change: `bmap` may have added blocks
    iupdate ip
    pure (tot, ip)

end Xv6.Fs
