import Xv6.Param
import Xv6.Lib.Links

/-!
The buffer cache of `kernel/bio.c`: `struct buf`, the `bcache` array
with its LRU list, and the parts of `binit`, `bget`, `bread`, `bwrite`,
`brelse`, `bpin` and `bunpin` that run under `bcache.lock` or the
buffer's sleep-lock, each as a function of the cache.

# The list

`bcache.head` and the `prev`/`next` fields are `Links BufId`: the
head is the sentinel `none`, buffer `i` is `some i`. `binit` pushes the
buffers in array order, `brelse` moves a buffer whose count reaches
zero to the front, and `bget`'s two loops follow `next` from
`head.next` and `prev` from `head.prev`. A loop in C runs until it is
back at the head; here it is `Links.scanNext` with `NBUF` as its bound,
which a ring of the `NBUF` buffers never exhausts
(`IsRing.scanNext_eq_find?`).

# Counts

`refcnt` is a `uint`: `uintInc` and `uintDec` are its `++` and `--`,
which wrap.

The sleep-locks and the callers that hold them are the thread layer's
(`Bio/System.lean`); the `disk` flag is the disk driver's and is not
modelled.
-/

namespace Xv6

/-- `struct buf` without its lock, its links and the driver's `disk`
flag. -/
structure Buf where
  /-- Has data been read from disk? -/
  valid : Bool
  dev : Nat
  blockno : Nat
  refcnt : Nat
  data : Block

/-- The statically zeroed `struct buf`. -/
def Buf.zero : Buf := ⟨false, 0, 0, 0, fun _ => 0⟩

/-- An index into `bcache.buf`. -/
abbrev BufId := Fin NBUF

/-- `bcache`, less its spin-lock. -/
structure BCache where
  buf : BufId → Buf
  /-- `head` and the `prev`/`next` fields, sorted by how recently each
  buffer was released. -/
  links : Links BufId

namespace BCache

/-- Replace buffer `b`'s fields. -/
def setBuf (c : BCache) (b : BufId) (x : Buf) : BCache := { c with buf := Function.update c.buf b x }

@[simp] theorem setBuf_buf_self (c : BCache) (b : BufId) (x : Buf) : (c.setBuf b x).buf b = x := by
  simp [setBuf]

@[simp] theorem setBuf_buf_of_ne (c : BCache) {b b' : BufId} (x : Buf) (h : b' ≠ b) :
    (c.setBuf b x).buf b' = c.buf b' := by
  simp [setBuf, Function.update_of_ne h]

@[simp] theorem setBuf_links (c : BCache) (b : BufId) (x : Buf) : (c.setBuf b x).links = c.links :=
  rfl

/-- `binit`: `head` linked to itself, then each buffer of the array,
in order, put at the front. -/
def binit : BCache where
  buf := fun _ => Buf.zero
  links := (List.finRange NBUF).foldl Links.pushFront Links.empty

/-- `b->dev == dev && b->blockno == blockno`. -/
def carries (c : BCache) (dev blockno : Nat) (b : BufId) : Bool :=
  (c.buf b).dev == dev && (c.buf b).blockno == blockno

/-- `bget`'s first loop: the buffer already carrying the block, from
the most recently used end. -/
def lookup (c : BCache) (dev blockno : Nat) : Option BufId :=
  c.links.scanNext (c.carries dev blockno) (c.links.next none) NBUF

/-- `bget`'s second loop: the unused buffer nearest the least recently
used end. -/
def victim (c : BCache) : Option BufId :=
  c.links.swap.scanNext (fun b => (c.buf b).refcnt == 0) (c.links.prev none) NBUF

/-- `bget` up to `acquiresleep`: a cached buffer gains a reference; an
unused one is recycled for the block, not yet valid. -/
@[grind] def bget (c : BCache) (dev blockno : Nat) : Except String (BufId × BCache) :=
  match c.lookup dev blockno with
  | some b => .ok (b, c.setBuf b { c.buf b with refcnt := uintInc (c.buf b).refcnt })
  | none =>
      match c.victim with
      | some b => .ok (b, c.setBuf b { c.buf b with dev, blockno, valid := false, refcnt := 1 })
      | none => .error "bget: no buffers"

/-- `bread` after `bget`: a buffer not yet valid is read from the disk
(`virtio_disk_rw(b, 0)`). -/
def fill (c : BCache) (d : Disk) (b : BufId) : BCache :=
  if (c.buf b).valid then c
  else c.setBuf b { c.buf b with data := d (c.buf b).blockno, valid := true }

/-- `bwrite`: the buffer's data goes to its block on the disk. -/
def bwrite (c : BCache) (d : Disk) (b : BufId) : Disk :=
  Function.update d (c.buf b).blockno (c.buf b).data

/-- Put a buffer whose count is zero at the front of the list. -/
def relink (c : BCache) (b : BufId) : BCache :=
  if (c.buf b).refcnt = 0 then { c with links := c.links.moveFront b } else c

/-- `brelse` after `releasesleep`: drop the reference, and move the
buffer to the front once no one holds or waits for it. -/
def brelse (c : BCache) (b : BufId) : BCache :=
  (c.setBuf b { c.buf b with refcnt := uintDec (c.buf b).refcnt }).relink b

/-- `bpin`: one more reference, held by the log. -/
def bpin (c : BCache) (b : BufId) : BCache :=
  c.setBuf b { c.buf b with refcnt := uintInc (c.buf b).refcnt }

/-- `bunpin`: one reference less; the buffer stays where it is. -/
def bunpin (c : BCache) (b : BufId) : BCache :=
  c.setBuf b { c.buf b with refcnt := uintDec (c.buf b).refcnt }

end BCache

end Xv6
