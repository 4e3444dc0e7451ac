import Xv6.Param

/-!
The descriptor bookkeeping of `kernel/virtio_disk.c`.

# What is kept

`struct disk` keeps the descriptors, the two rings, `free[]`,
`used_idx` and `info[]`; each buffer's `b->disk` flag is kept with
them, and `ι` names the buffers. Of a descriptor the model keeps what
the driver and the device follow: `addr` as what it points at (an
`ops[]` header, a buffer's data, an `info[].status` byte), `flags` and
`next`. `len`, the `ops[]` headers, the sector and the buffers' data
are what the device reads to do the transfer, which is left out:
nothing in the driver reads them back.

The rings' `uint16` counters run free and are read modulo `NUM`,
which divides `2 ^ 16`. A ring's cells are stored only at residues
below `NUM`.

# Calls as turns

Every function runs under `vdisk_lock`. `virtio_disk_rw` gives the
lock up only in its two `sleep`s, so a call is a pass of its
allocation loop (`rwAlloc`), taken again after each
`sleep(&disk.free[0])`, and its end once `b->disk` is `0`
(`rwFinish`). `virtio_disk_intr`'s loop runs to the end in one turn.

Two reads of the interrupt handler, `info[id]` with `id ≥ NUM` and
`b->disk` through a null `info[id].b`, are undefined behaviour in C;
the model stops there with an error of its own, which no reachable
state meets.
-/

namespace Xv6

/-- `#define NUM 8`: descriptors, and entries of each ring. -/
def NUM : Nat := 8

/-- `VRING_DESC_F_NEXT`: chained with another descriptor. -/
def VRING_DESC_F_NEXT : UInt16 := 1

/-- `VRING_DESC_F_WRITE`: the device writes the buffer. -/
def VRING_DESC_F_WRITE : UInt16 := 2

namespace Virtio

/-- What a descriptor's `addr` points at. -/
inductive Addr (ι : Type)
  /-- `0`, as `free_desc` leaves it. -/
  | null
  /-- `(uint64) &disk.ops[i]`. -/
  | op (i : Fin NUM)
  /-- `(uint64) b->data`. -/
  | data (b : ι)
  /-- `(uint64) &disk.info[i].status`. -/
  | status (i : Fin NUM)
  deriving DecidableEq

/-- `struct virtq_desc`, without `len`. -/
structure Desc (ι : Type) where
  addr : Addr ι
  flags : UInt16
  next : UInt16
  deriving DecidableEq

/-- A descriptor as `free_desc` leaves it. -/
def Desc.zero {ι : Type} : Desc ι := ⟨.null, 0, 0⟩

/-- `struct virtq_avail`: `idx` and `ring[]`. -/
structure Avail where
  idx : UInt16
  ring : Nat → UInt16

/-- `struct virtq_used`: `idx` and the `id` of each `ring[]` entry. -/
structure Used where
  idx : UInt16
  ring : Nat → UInt32

/-- `disk.info[i]`. -/
structure Info (ι : Type) where
  b : Option ι
  status : UInt8

/-- `struct disk`, with each buffer's `b->disk`. -/
structure Disk (ι : Type) where
  desc : Fin NUM → Desc ι
  avail : Avail
  used : Used
  free : Fin NUM → Bool
  usedIdx : UInt16
  info : Fin NUM → Info ι
  bdisk : ι → Bool

variable {ι : Type} [DecidableEq ι]

/-- After `virtio_disk_init`: `pages[]` zeroed and every descriptor
free; the rest of `disk` and the buffers are zero as static data. -/
def init : Disk ι where
  desc := fun _ => Desc.zero
  avail := ⟨0, fun _ => 0⟩
  used := ⟨0, fun _ => 0⟩
  free := fun _ => true
  usedIdx := 0
  info := fun _ => ⟨none, 0⟩
  bdisk := fun _ => false

/-- `alloc_desc()`: the first free descriptor, now in use, or `none`
for `-1`. -/
def allocDesc (d : Disk ι) : Option (Fin NUM) × Disk ι :=
  match (List.finRange NUM).find? fun i => d.free i with
  | some i => (some i, { d with free := Function.update d.free i false })
  | none => (none, d)

/-- `free_desc(i)`. Its `wakeup(&disk.free[0])` lets a `sleep` of
`virtio_disk_rw` retry, which the system allows at any time. -/
def freeDesc (d : Disk ι) (i : Nat) : Except String (Disk ι) :=
  if h : NUM ≤ i then throw "free_desc 1"
  else
    let i : Fin NUM := ⟨i, Nat.lt_of_not_le h⟩
    if d.free i then throw "free_desc 2"
    else pure { d with desc := Function.update d.desc i Desc.zero, free := Function.update d.free i true }

/-- `free_chain(i)`'s loop with `fuel` turns. `flag` and `nxt` are read
before `free_desc` zeroes the descriptor. A descriptor number past
`NUM` is read out of bounds before `free_desc` panics on it; the model
panics at once. -/
@[grind] def freeChainLoop : Nat → Disk ι → Nat → Except String (Disk ι)
  | 0, d, _ => pure d
  | fuel + 1, d, i =>
      if h : i < NUM then do
        let flag := (d.desc ⟨i, h⟩).flags
        let nxt := (d.desc ⟨i, h⟩).next
        let d ← freeDesc d i
        if flag &&& VRING_DESC_F_NEXT ≠ 0 then freeChainLoop fuel d nxt.toNat else pure d
      else throw "free_desc 1"

/-- `free_chain(i)`: each turn frees a descriptor in use or panics, so
`NUM + 1` turns are never all taken (`freeChainLoop_fuel`). -/
def freeChain (d : Disk ι) (i : Nat) : Except String (Disk ι) := freeChainLoop (NUM + 1) d i

/-- `alloc3_desc(idx)`, its loop `for(int i = 0; i < 3; i++)` unrolled:
when `alloc_desc` fails at `i`, the `i` descriptors taken are freed and
the result is `-1`. -/
def alloc3Desc (d : Disk ι) : Except String (Option (Fin NUM × Fin NUM × Fin NUM) × Disk ι) :=
  match allocDesc d with
  | (none, d) => pure (none, d)
  | (some i0, d) =>
      match allocDesc d with
      | (none, d) => do
          let d ← freeDesc d i0
          pure (none, d)
      | (some i1, d) =>
          match allocDesc d with
          | (none, d) => do
              let d ← freeDesc d i0
              let d ← freeDesc d i1
              pure (none, d)
          | (some i2, d) => pure (some (i0, i1, i2), d)

/-- `virtio_disk_rw(b, write)` from the formatting of the three
descriptors to `disk.avail->idx += 1`. The code sets
`info[idx[0]].status` before the last descriptor and `info[idx[0]].b`
after it; nothing reads either in between. -/
def submit (d : Disk ι) (b : ι) (write : Bool) (i0 i1 i2 : Fin NUM) : Disk ι :=
  let desc := Function.update d.desc i0 ⟨.op i0, VRING_DESC_F_NEXT, i1.val.toUInt16⟩
  let desc := Function.update desc i1
    ⟨.data b, (if write then 0 else VRING_DESC_F_WRITE) ||| VRING_DESC_F_NEXT, i2.val.toUInt16⟩
  let desc := Function.update desc i2 ⟨.status i0, VRING_DESC_F_WRITE, 0⟩
  { d with
    desc := desc
    info := Function.update d.info i0 ⟨some b, 0xff⟩
    bdisk := Function.update d.bdisk b true
    avail := ⟨d.avail.idx + 1, Function.update d.avail.ring (d.avail.idx.toNat % NUM) i0.val.toUInt16⟩ }

/-- How a pass of `virtio_disk_rw`'s allocation loop ends. -/
inductive RwTurn
  /-- `alloc3_desc` failed: `sleep(&disk.free[0], &disk.vdisk_lock)`. -/
  | sleepFree
  /-- The request is submitted on the chain `i0, i1, i2`; the call then
  sleeps on `b` while `b->disk == 1`. -/
  | submitted (i0 i1 i2 : Fin NUM)
  deriving DecidableEq, Repr

/-- A pass of `virtio_disk_rw(b, write)`'s allocation loop. -/
@[grind] def rwAlloc (d : Disk ι) (b : ι) (write : Bool) : Except String (RwTurn × Disk ι) := do
  let (idx, d) ← alloc3Desc d
  match idx with
  | some (i0, i1, i2) => pure (.submitted i0 i1 i2, submit d b write i0 i1 i2)
  | none => pure (.sleepFree, d)

/-- The end of `virtio_disk_rw`, once `b->disk` is `0`:
`disk.info[idx[0]].b = 0; free_chain(idx[0])`. -/
def rwFinish (d : Disk ι) (i0 : Fin NUM) : Except String (Disk ι) :=
  freeChain { d with info := Function.update d.info i0 { d.info i0 with b := none } } i0

/-- `virtio_disk_intr()`'s loop, one used entry a turn. -/
def intrLoop : Nat → Disk ι → Except String (Disk ι)
  | 0, d => pure d
  | fuel + 1, d =>
      if d.usedIdx ≠ d.used.idx then
        let id := (d.used.ring (d.usedIdx.toNat % NUM)).toNat
        if h : id < NUM then
          let i : Fin NUM := ⟨id, h⟩
          if (d.info i).status ≠ 0 then throw "virtio_disk_intr status"
          else
            match (d.info i).b with
            | some b => intrLoop fuel { d with bdisk := Function.update d.bdisk b false, usedIdx := d.usedIdx + 1 }
            | none => throw "virtio_disk_intr: null buf"
        else throw "virtio_disk_intr: info out of range"
      else pure d

/-- `virtio_disk_intr()`: the loop runs once for each used entry not
yet seen, `used->idx - used_idx` of them. -/
def virtioDiskIntr (d : Disk ι) : Except String (Disk ι) := intrLoop (d.used.idx - d.usedIdx).toNat d

end Virtio

end Xv6
