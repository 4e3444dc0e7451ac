import Xv6.Fs.Dir
import Xv6.File.Defs

/-!
The inode table of `kernel/fs.c` and the namespace calls of
`kernel/sysfile.c`: `link`, `unlink`, `mkdir`, `mknod`, `chdir` and
`open`, over the file-system functions of `Xv6.Fs`.

# The inode table

`itable` holds `NINODE` entries, each with its `ref`, its `valid` flag
and its copy of the disk inode; the device is always `ROOTDEV`. A
`struct inode *` is an entry's index. `iget` takes the first entry with
references to the inode number, else recycles the first free entry,
marked not valid, so that the next `ilock` reads the disk inode. `iput`
of the last reference to a valid inode with no links frees it on disk.

The sleep-locks are not modelled: a call runs alone, from `begin_op` to
`end_op`, so its `ilock`s never wait and the entry's copy is the locked
inode. The references a call holds are the ones it took.

# What a call is given

A path is the bytes `argstr` copied, without the terminating zero;
`argstr` and `argint` failing is a `-1` that reads nothing. `sys_open`
is given the file table's answer `ftok`: whether `filealloc` and
`fdalloc` both succeed (`Xv6.Files` models them); a file opened holds
its entry's reference (`f->ip`), counted in `fref`.

# Undefined behaviour

`namex` of a relative path duplicates the caller's `cwd`, which a
running process always has; the model stops with an error of its own
on a null one.
-/

namespace Xv6

/-- `#define NINODE 50`: the entries of the inode table. -/
def NINODE : Nat := 50

/-- `O_TRUNC` of `fcntl.h`. -/
def O_TRUNC : Nat := 0x400

/-- The value of a `short` field, from the bit pattern the model keeps. -/
def shortVal (n : Nat) : Int := if n < 2 ^ 15 then n else n - 2 ^ 16

namespace Ns

/-- An entry of `itable`: its references, whether its copy was read,
and the copy. -/
structure IEntry where
  ref : Int
  valid : Bool
  ip : Inode

/-- What the namespace calls read and write: the transaction, the inode
table, each process's `cwd`, and each entry's open files. -/
structure Kern where
  tx : Fs.Tx
  inode : Fin NINODE → IEntry
  cwd : Fin NPROC → Option (Fin NINODE)
  fref : Fin NINODE → Nat

/-- A function of the inode layer. -/
abbrev NsM := StateT Kern (Except String)

/-- A file-system function, inside the call's transaction. -/
def fs {α : Type} (m : Fs.FsM α) : NsM α := fun k =>
  match m k.tx with
  | .ok (a, tx) => .ok (a, { k with tx := tx })
  | .error msg => .error msg

/-- Entry `e` of the table. -/
def getEntry (e : Fin NINODE) : NsM IEntry := fun k => .ok (k.inode e, k)

/-- A store into entry `e`. -/
def setEntry (e : Fin NINODE) (x : IEntry) : NsM Unit := fun k =>
  .ok ((), { k with inode := Function.update k.inode e x })

/-- The copy of the inode `e`, which the caller has locked. -/
def copyOf (e : Fin NINODE) : NsM Inode := fun k => .ok ((k.inode e).ip, k)

/-- A store into the locked inode `e`'s copy: `ip->nlink = ...` and the
like. -/
def setIp (e : Fin NINODE) (ip : Inode) : NsM Unit := do
  let x ← getEntry e
  setEntry e { x with ip := ip }

-- ========================================================== the table

/-- `iget(ROOTDEV, inum)`. -/
@[grind] def iget (inum : Nat) : NsM (Fin NINODE) := fun k =>
  match (List.finRange NINODE).find? (fun e => 0 < (k.inode e).ref ∧ (k.inode e).ip.inum = inum) with
  | some e => .ok (e, { k with inode := Function.update k.inode e { k.inode e with ref := (k.inode e).ref + 1 } })
  | none =>
      -- recycle the first free entry: `ip->inum = inum; ip->ref = 1; ip->valid = 0`
      match (List.finRange NINODE).find? (fun e => (k.inode e).ref = 0) with
      | some e =>
          let ip : Inode := { (k.inode e).ip with inum := inum }
          .ok (e, { k with inode := Function.update k.inode e ⟨1, false, ip⟩ })
      | none => .error "iget: no inodes"

/-- `idup(ip)`. -/
def idup (e : Fin NINODE) : NsM Unit := do
  let x ← getEntry e
  setEntry e { x with ref := x.ref + 1 }

/-- `ilock(ip)`: the locked copy, read from the disk when not valid. -/
@[grind] def ilock (e : Fin NINODE) : NsM Inode := do
  let x ← getEntry e
  if x.ref < 1 then throw "ilock"
  if x.valid then pure x.ip
  else do
    -- `Fs.ilock` panics on a disk inode of type zero, as `ilock` does
    -- after setting `valid`
    let ip ← fs (Fs.ilock x.ip.inum)
    setEntry e { x with valid := true, ip := ip }
    pure ip

/-- `iunlock(ip)`. -/
def iunlock (e : Fin NINODE) : NsM Unit := do
  let x ← getEntry e
  if x.ref < 1 then throw "iunlock"

/-- `iput(ip)`. -/
def iput (e : Fin NINODE) : NsM Unit := do
  let x ← getEntry e
  if x.ref = 1 ∧ x.valid ∧ x.ip.nlink = 0 then
    -- no links and no other reference: `itrunc`, `type = 0`, `iupdate`
    let ip ← fs (Fs.ifree x.ip)
    setEntry e { ref := 0, valid := false, ip := ip }
  else setEntry e { x with ref := x.ref - 1 }

/-- `iunlockput(ip)`. -/
def iunlockput (e : Fin NINODE) : NsM Unit := do
  iunlock e
  iput e

-- ======================================================== directories

/-- `dirlookup(dp, name, &off)` on the locked `dp`: the entry `iget`
gives for the inode found, and its offset. -/
@[grind] def dirlookup (dp : Fin NINODE) (name : List UInt8) : NsM (Option (Fin NINODE × Nat)) := do
  let (r, d) ← fs (Fs.dirlookup (← copyOf dp) name)
  setIp dp d
  match r with
  | none => pure none
  | some (inum, off) => do
      let ip ← iget inum
      pure (some (ip, off))

/-- `dirlink(dp, name, inum)` on the locked `dp`. -/
@[grind] def dirlink (dp : Fin NINODE) (name : List UInt8) (inum : Nat) : NsM Int := do
  match ← dirlookup dp name with
  | some (ip, _) => do
      iput ip
      pure (-1)
  | none => do
      let d ← copyOf dp
      let (off, d) ← fs (Fs.emptyLoop (d.size / Fs.direntSize + 1) d 0)
      let (r, d) ← fs (Fs.writei d (Fs.kernelSrc (Fs.direntBytes inum name)) off Fs.direntSize)
      setIp dp d
      if r ≠ Fs.direntSize then throw "dirlink"
      pure 0

-- ============================================================== paths

/-- `skipelem(path, name)`: the path after the next element, and the
element's first `DIRSIZ` bytes as `name` holds them; `none` when no
element is left. -/
def skipelem (path : List UInt8) : Option (List UInt8 × List UInt8) :=
  let path := path.dropWhile (· = 47)
  if path = [] then none
  else some ((path.dropWhile (· ≠ 47)).dropWhile (· = 47), (path.takeWhile (· ≠ 47)).take DIRSIZ)

/-- `namex`'s loop, holding a reference to `ip`; `name` is the last
element taken. The fuel is never used up: each turn takes at least one
byte of the path (`skipelem_length_lt`). -/
def namexLoop (nameiparent : Bool) :
    Nat → Fin NINODE → List UInt8 → List UInt8 → NsM (Option (Fin NINODE) × List UInt8)
  | 0, _, _, _ => throw "namex: fuel"
  | fuel + 1, ip, path, name =>
      match skipelem path with
      | none =>
          if nameiparent then do
            iput ip
            pure (none, name)
          else pure (some ip, name)
      | some (path, name) => do
          let x ← ilock ip
          if x.type ≠ T_DIR then do
            iunlockput ip
            pure (none, name)
          -- stop one level early
          else if nameiparent ∧ path = [] then do
            iunlock ip
            pure (some ip, name)
          else
            match ← dirlookup ip name with
            | none => do
                iunlockput ip
                pure (none, name)
            | some (next, _) => do
                iunlockput ip
                namexLoop nameiparent fuel next path name

/-- `namex(path, nameiparent, name)` by process `p`. -/
def namex (p : Fin NPROC) (path : List UInt8) (nameiparent : Bool) :
    NsM (Option (Fin NINODE) × List UInt8) := do
  let ip ← if path.head? = some 47 then iget ROOTINO
    else do
      match (← get).cwd p with
      | some c => do
          idup c
          pure c
      | none => throw "idup: null cwd"
  namexLoop nameiparent (path.length + 1) ip path []

/-- `namei(path)`. -/
def namei (p : Fin NPROC) (path : List UInt8) : NsM (Option (Fin NINODE)) := do
  pure (← namex p path false).1

/-- `nameiparent(path, name)`. -/
def nameiparent (p : Fin NPROC) (path : List UInt8) : NsM (Option (Fin NINODE) × List UInt8) :=
  namex p path true

-- ============================================================= create

/-- `create(path, type, major, minor)`: the inode locked, or `none`.
`major` and `minor` are the `short`s' bit patterns. -/
def create (p : Fin NPROC) (path : List UInt8) (type major minor : Nat) : NsM (Option (Fin NINODE)) := do
  let (dp?, name) ← nameiparent p path
  match dp? with
  | none => pure none
  | some dp => do
      let _ ← ilock dp
      match ← dirlookup dp name with
      | some (ip, _) => do
          iunlockput dp
          let x ← ilock ip
          if type = T_FILE ∧ (x.type = T_FILE ∨ x.type = T_DEVICE) then pure (some ip)
          else do
            iunlockput ip
            pure none
      | none => do
          let ip ← iget (← fs (Fs.ialloc type))
          let x ← ilock ip
          let x := { x with major := major, minor := minor, nlink := 1 }
          setIp ip x
          fs (Fs.iupdate x)
          if type = T_DIR then do
            -- `dp->nlink++` for the new `..`
            let d ← copyOf dp
            let d := { d with nlink := (d.nlink + 1) % 2 ^ 16 }
            setIp dp d
            fs (Fs.iupdate d)
            if (← dirlink ip [46] x.inum) < 0 then throw "create dots"
            if (← dirlink ip [46, 46] d.inum) < 0 then throw "create dots"
          if (← dirlink dp name x.inum) < 0 then throw "create: dirlink"
          iunlockput dp
          pure (some ip)

-- ============================================================== calls

/-- The part of `sys_open` in the inode layer: the entry the new file
holds, or `none` for `-1`. -/
@[grind] def sys_open (p : Fin NPROC) (path : List UInt8) (omode : Nat) (ftok : Bool) :
    NsM (Option (Fin NINODE)) := do
  let ip? ← if omode &&& O_CREATE ≠ 0 then create p path T_FILE 0 0
    else do
      match ← namei p path with
      | none => pure none
      | some ip => do
          let x ← ilock ip
          if x.type = T_DIR ∧ omode ≠ O_RDONLY then do
            iunlockput ip
            pure none
          else pure (some ip)
  match ip? with
  | none => pure none
  | some ip => do
      let x ← copyOf ip
      if x.type = T_DEVICE ∧ (shortVal x.major < 0 ∨ NDEV ≤ shortVal x.major) then do
        iunlockput ip
        pure none
      -- `filealloc` or `fdalloc` failed; the file `fileclose` drops holds no inode
      else if !ftok then do
        iunlockput ip
        pure none
      else do
        if omode &&& O_TRUNC ≠ 0 ∧ x.type = T_FILE then setIp ip (← fs (Fs.itrunc x))
        iunlock ip
        modify fun k => { k with fref := Function.update k.fref ip (k.fref ip + 1) }
        pure (some ip)

/-- `sys_link`: `0`, or `-1`. -/
def sys_link (p : Fin NPROC) (old new : List UInt8) : NsM Int := do
  match ← namei p old with
  | none => pure (-1)
  | some ip => do
      let x ← ilock ip
      if x.type = T_DIR then do
        iunlockput ip
        pure (-1)
      else do
        let x := { x with nlink := (x.nlink + 1) % 2 ^ 16 }
        setIp ip x
        fs (Fs.iupdate x)
        iunlock ip
        let linked ← do
          match ← nameiparent p new with
          | (none, _) => pure false
          | (some dp, name) => do
              let _ ← ilock dp
              -- one device: `dp->dev != ip->dev` is false
              let r ← dirlink dp name x.inum
              iunlockput dp
              pure (0 ≤ r)
        if linked then do
          iput ip
          pure 0
        else do
          -- `bad:` undoes the `nlink++`
          let x ← ilock ip
          let x := { x with nlink := (x.nlink + 2 ^ 16 - 1) % 2 ^ 16 }
          setIp ip x
          fs (Fs.iupdate x)
          iunlockput ip
          pure (-1)

/-- `isdirempty`'s loop from `off`, threading the inode as `readi`
leaves it. -/
def emptyDirLoop : Nat → Inode → Nat → Fs.FsM (Bool × Inode)
  | 0, dp, _ => pure (true, dp)
  | fuel + 1, dp, off =>
      if off < dp.size then do
        let (r, de, dp) ← Fs.readi dp Fs.kernelDst off Fs.direntSize
        if r ≠ Fs.direntSize then throw "isdirempty: readi"
        if Fs.direntInum de ≠ 0 then pure (false, dp)
        else emptyDirLoop fuel dp (off + Fs.direntSize)
      else pure (true, dp)

/-- `isdirempty(dp)`: no live entry past `.` and `..`. -/
def isdirempty (dp : Inode) : Fs.FsM (Bool × Inode) :=
  emptyDirLoop (dp.size / Fs.direntSize + 1) dp (2 * Fs.direntSize)

/-- `sys_unlink`: `0`, or `-1`. -/
def sys_unlink (p : Fin NPROC) (path : List UInt8) : NsM Int := do
  match ← nameiparent p path with
  | (none, _) => pure (-1)
  | (some dp, name) => do
      let _ ← ilock dp
      if Fs.namecmp name [46] = 0 ∨ Fs.namecmp name [46, 46] = 0 then do
        iunlockput dp
        pure (-1)
      else
        match ← dirlookup dp name with
        | none => do
            iunlockput dp
            pure (-1)
        | some (ip, off) => do
            let x ← ilock ip
            if shortVal x.nlink < 1 then throw "unlink: nlink < 1"
            -- `isdirempty` runs on a directory only
            let busy ← if x.type = T_DIR then do
                let (empty, x) ← fs (isdirempty x)
                setIp ip x
                pure !empty
              else pure false
            if busy then do
              iunlockput ip
              iunlockput dp
              pure (-1)
            else do
              let (r, d) ← fs (Fs.writei (← copyOf dp) (Fs.kernelSrc (List.replicate 16 0)) off Fs.direntSize)
              setIp dp d
              if r ≠ Fs.direntSize then throw "unlink: writei"
              if x.type = T_DIR then do
                let d := { d with nlink := (d.nlink + 2 ^ 16 - 1) % 2 ^ 16 }
                setIp dp d
                fs (Fs.iupdate d)
              iunlockput dp
              let x ← copyOf ip
              let x := { x with nlink := (x.nlink + 2 ^ 16 - 1) % 2 ^ 16 }
              setIp ip x
              fs (Fs.iupdate x)
              iunlockput ip
              pure 0

/-- `sys_mkdir`. -/
def sys_mkdir (p : Fin NPROC) (path : List UInt8) : NsM Int := do
  match ← create p path T_DIR 0 0 with
  | none => pure (-1)
  | some ip => do
      iunlockput ip
      pure 0

/-- `sys_mknod`: `create(path, T_DEVICE, major, minor)` with the `int`
arguments cut to `short`s. -/
def sys_mknod (p : Fin NPROC) (path : List UInt8) (major minor : Int) : NsM Int := do
  match ← create p path T_DEVICE (major % 2 ^ 16).toNat (minor % 2 ^ 16).toNat with
  | none => pure (-1)
  | some ip => do
      iunlockput ip
      pure 0

/-- `sys_chdir`. -/
def sys_chdir (p : Fin NPROC) (path : List UInt8) : NsM Int := do
  match ← namei p path with
  | none => pure (-1)
  | some ip => do
      let x ← ilock ip
      if x.type ≠ T_DIR then do
        iunlockput ip
        pure (-1)
      else do
        iunlock ip
        match (← get).cwd p with
        | some c => iput c
        | none => throw "iput: null cwd"
        modify fun k => { k with cwd := Function.update k.cwd p (some ip) }
        pure 0

end Ns

end Xv6
