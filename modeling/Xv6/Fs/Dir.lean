import Xv6.Fs.Inode

/-!
Directories of `fs.c`: `namecmp`, `dirlookup` and `dirlink`, over the
string functions of `string.c` they use.

# Names

A C string is the list of its bytes; a read past the end is the
terminating zero, so a name of `DIRSIZ` bytes or more, which the
dirent stores without a terminator, and a shorter one, compare the
way `strncmp` compares them.

# Entries

A `struct dirent` is 16 bytes: the inode number as a little-endian
`ushort`, then `DIRSIZ` bytes of name. `dirlookup` and `dirlink` read
the entries with `readi` into a kernel buffer, which cannot fault, and
`dirlink` writes one back with `writei`. Both loops step `off` by
`sizeof(de)` while it is below the size; the fuel `size / 16 + 1`
covers every turn from offset zero.

The inode is threaded through: `readi` and `writei` return the inode
with the addresses `bmap` filled in, as the C code's `dp` sees them.
`dirlookup`'s `iget` of the entry found, and `dirlink`'s `iput` of it,
belong to the inode table: a lookup returns the entry's inode number
and offset.
-/

namespace Xv6.Fs

-- =============================================================== strings

/-- `strncmp(p, q, n)`. -/
def strncmp : Nat → List UInt8 → List UInt8 → Int
  | 0, _, _ => 0
  | n + 1, p, q =>
      if p.headD 0 ≠ 0 ∧ p.headD 0 = q.headD 0 then strncmp n p.tail q.tail
      else (p.headD 0).toNat - (q.headD 0).toNat

/-- `strncpy(s, t, n)`: the `n` bytes it stores at `s`. -/
def strncpy : Nat → List UInt8 → List UInt8
  | 0, _ => []
  | n + 1, t => if t.headD 0 ≠ 0 then t.headD 0 :: strncpy n t.tail else List.replicate (n + 1) 0

/-- `namecmp(s, t)`. -/
def namecmp (s t : List UInt8) : Int := strncmp DIRSIZ s t

-- =============================================================== entries

/-- `sizeof(struct dirent)`. -/
def direntSize : Nat := 16

/-- The bytes of `de` after `strncpy(de.name, name, DIRSIZ); de.inum = inum`. -/
def direntBytes (inum : Nat) (name : List UInt8) : List UInt8 :=
  [(inum % 256).toUInt8, (inum / 256 % 256).toUInt8] ++ strncpy DIRSIZ name

/-- `de.inum` of the bytes `readi` copied into `de`. -/
def direntInum (de : List UInt8) : Nat := (de.getD 0 0).toNat + 256 * (de.getD 1 0).toNat

/-- `de.name`. -/
def direntName (de : List UInt8) : List UInt8 := de.drop 2

/-- A kernel source buffer: every byte can be copied. -/
def kernelSrc (bytes : List UInt8) : Nat → Option UInt8 := fun j => some (bytes.getD j 0)

/-- A kernel destination buffer: every copy out succeeds. -/
def kernelDst : Nat → Nat → Bool := fun _ _ => true

-- ============================================================= dirlookup

/-- `dirlookup`'s loop from `off`: the first live entry whose name
matches, as its inode number and offset. -/
@[grind] def lookupLoop (name : List UInt8) : Nat → Inode → Nat → FsM (Option (Nat × Nat) × Inode)
  | 0, dp, _ => pure (none, dp)
  | fuel + 1, dp, off =>
      if off < dp.size then do
        let (r, de, dp) ← readi dp kernelDst off direntSize
        if r ≠ direntSize then throw "dirlookup read"
        -- an entry with `de.inum == 0` is free: `continue`
        if direntInum de ≠ 0 ∧ namecmp name (direntName de) = 0 then
          pure (some (direntInum de, off), dp)
        else lookupLoop name fuel dp (off + direntSize)
      else pure (none, dp)

/-- `dirlookup(dp, name, poff)`. -/
@[grind] def dirlookup (dp : Inode) (name : List UInt8) : FsM (Option (Nat × Nat) × Inode) :=
  if dp.type ≠ T_DIR then throw "dirlookup not DIR"
  else lookupLoop name (dp.size / direntSize + 1) dp 0

-- =============================================================== dirlink

/-- `dirlink`'s search for a free entry from `off`: the offset of the
first free one below the size, or where the loop stops. -/
@[grind] def emptyLoop : Nat → Inode → Nat → FsM (Nat × Inode)
  | 0, dp, off => pure (off, dp)
  | fuel + 1, dp, off =>
      if off < dp.size then do
        let (r, de, dp) ← readi dp kernelDst off direntSize
        if r ≠ direntSize then throw "dirlink read"
        if direntInum de = 0 then pure (off, dp)
        else emptyLoop fuel dp (off + direntSize)
      else pure (off, dp)

/-- `dirlink(dp, name, inum)`: `-1` if the name is present, else `0`
with the entry written at the first free offset. -/
@[grind] def dirlink (dp : Inode) (name : List UInt8) (inum : Nat) : FsM (Int × Inode) := do
  let (found, dp) ← dirlookup dp name
  match found with
  | some _ => pure (-1, dp)
  | none => do
      let (off, dp) ← emptyLoop (dp.size / direntSize + 1) dp 0
      let (r, dp) ← writei dp (kernelSrc (direntBytes inum name)) off direntSize
      if r ≠ direntSize then throw "dirlink"
      pure (0, dp)

end Xv6.Fs
