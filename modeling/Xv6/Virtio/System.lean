import Xv6.Virtio.Defs
import Mathlib.Logic.Relation

/-!
The driver with the requests of its callers, and the device.

Each buffer has at most one request at a time: `bread` and `bwrite`
call `virtio_disk_rw` holding the buffer's sleep-lock. A request is
idle, asleep in the allocation loop, or submitted and asleep on its
buffer; the driver's turns are atomic under `vdisk_lock`, and a
sleeper may take its next turn at any time, which covers every order
in which `wakeup`s reach it.

The device reads the avail ring up to `avail->idx` in order (`fetch`),
holds the chains it has read, and completes them in any order
(`complete`): it follows the chain from its head to the status byte,
writes `0` there, and reports the head once in the used ring. An
interrupt (`intr`) may come at any time. The device writes the used
ring concurrently with `virtio_disk_intr`; an entry the handler sees
mid-loop is one the device could have written before it started.
-/

namespace Xv6.Virtio

/-- The device's side of the rings: how far it has read the avail ring,
and the chain heads it has read and not completed. -/
structure Device where
  lastAvail : UInt16
  pending : List UInt16

/-- Where a buffer's request is. -/
inductive Phase
  | idle
  /-- Asleep on `&disk.free[0]` in the allocation loop. -/
  | alloc (write : Bool)
  /-- Submitted on the chain `i0, i1, i2`; asleep on `b` while
  `b->disk == 1`. -/
  | wait (i0 i1 i2 : Fin NUM)
  deriving DecidableEq, Repr

/-- The driver, the device, and where each buffer's request is. -/
structure VirtioSys (ι : Type) where
  d : Disk ι
  dev : Device
  phase : ι → Phase

/-- A turn of the driver or the device. -/
inductive VirtioEv (ι : Type)
  /-- `virtio_disk_rw(b, write)` is called. -/
  | rw (b : ι) (write : Bool)
  /-- The allocation loop runs again after `sleep(&disk.free[0])`. -/
  | retry (b : ι)
  /-- The call returns after `sleep(b)`. -/
  | finish (b : ι)
  /-- `virtio_disk_intr()`. -/
  | intr
  /-- The device reads the next avail entry. -/
  | fetch
  /-- The device completes the `k`th chain it holds. -/
  | complete (k : Nat)

/-- What the device does when it completes the chain at `head`: it
follows two `next` links to the status descriptor, writes `0` to the
status byte there, and adds `head` to the used ring. A link out of the
table stops it. -/
def Device.complete {ι : Type} (d : Disk ι) (head : UInt16) : Option (Disk ι) :=
  if h0 : head.toNat < NUM then
    let d0 := d.desc ⟨head.toNat, h0⟩
    if h1 : d0.next.toNat < NUM then
      let d1 := d.desc ⟨d0.next.toNat, h1⟩
      if h2 : d1.next.toNat < NUM then
        let info := match (d.desc ⟨d1.next.toNat, h2⟩).addr with
          | .status j => Function.update d.info j { d.info j with status := 0 }
          | _ => d.info
        some { d with
          info := info
          used := ⟨d.used.idx + 1, Function.update d.used.ring (d.used.idx.toNat % NUM) head.toUInt32⟩ }
      else none
    else none
  else none

namespace VirtioSys

variable {ι : Type} [DecidableEq ι]

/-- After `virtio_disk_init`, with no request. -/
def boot : VirtioSys ι := ⟨init, ⟨0, []⟩, fun _ => .idle⟩

/-- A pass of the allocation loop for buffer `b`. -/
def alloc (s : VirtioSys ι) (b : ι) (write : Bool) : Outcome (VirtioSys ι) :=
  match rwAlloc s.d b write with
  | .ok (.submitted i0 i1 i2, d) => .next { s with d := d, phase := Function.update s.phase b (.wait i0 i1 i2) }
  | .ok (.sleepFree, d) => .next { s with d := d, phase := Function.update s.phase b (.alloc write) }
  | .error msg => .panic msg

/-- The system after a turn, when the turn can be taken. -/
@[grind] def step (s : VirtioSys ι) : VirtioEv ι → Outcome (VirtioSys ι)
  | .rw b write => if s.phase b = .idle then s.alloc b write else .blocked
  | .retry b =>
      match s.phase b with
      | .alloc write => s.alloc b write
      | _ => .blocked
  | .finish b =>
      match s.phase b with
      | .wait i0 _ _ =>
          if s.d.bdisk b = false then
            match rwFinish s.d i0 with
            | .ok d => .next { s with d := d, phase := Function.update s.phase b .idle }
            | .error msg => .panic msg
          else .blocked
      | _ => .blocked
  | .intr =>
      match virtioDiskIntr s.d with
      | .ok d => .next { s with d := d }
      | .error msg => .panic msg
  | .fetch =>
      if s.dev.lastAvail ≠ s.d.avail.idx then
        .next { s with dev := ⟨s.dev.lastAvail + 1,
          s.dev.pending ++ [s.d.avail.ring (s.dev.lastAvail.toNat % NUM)]⟩ }
      else .blocked
  | .complete k =>
      if h : k < s.dev.pending.length then
        match Device.complete s.d s.dev.pending[k] with
        | some d => .next { s with d := d, dev := { s.dev with pending := s.dev.pending.eraseIdx k } }
        | none => .blocked
      else .blocked

/-- The step relation. -/
def Step (s s' : VirtioSys ι) : Prop := ∃ e, s.step e = .next s'

end VirtioSys

end Xv6.Virtio
