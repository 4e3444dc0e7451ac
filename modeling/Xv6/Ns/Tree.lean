import Xv6.Ns.System
import Xv6.Fs.Proofs.Read
import Xv6.Lib.Simulation
import Xv6.Lib.Prog

/-!
The namespace the disk holds, and two runs of the namespace calls that
leave it other than the calls mean to.

# The namespace

A directory's live entries are the 16-byte entries of its content with a
nonzero inode number (`dirents`); `lookup` takes the first whose name
matches, comparing names as `dirlookup` does. An inode is reachable when
a chain of directories from the root names it by entries other than `.`
and `..` (`Reach`). The reachable inodes lie in any set that holds the
root and is closed under that naming (`reach_closed`); so when the root
holds nothing but `.` and `..`, the root is all that is reachable
(`reach_eq_root`).

# An unlinked working directory

`sys_unlink` of a directory only checks that it is empty. A process
whose `cwd` it is keeps it alive and can still create in it: `create`
reaches it by a relative path and links the new inode into it. When
the process exits, `iput` frees the directory with its entries, and the
new inode stays allocated with one link, named by no reachable entry and
held by no reference (`unlinked_cwd_orphans`).

# A failed open

`sys_open` with `O_CREATE` creates the file before the file table is
asked for a descriptor. When `fdalloc` fails, as it does once the
caller holds `NOFILE` descriptors, the call returns `-1` having dropped
only its reference: the new entry and the new inode stay
(`open_fails_after_create`).
-/

namespace Xv6.Ns

open Fs

-- ========================================================== the namespace

/-- The live entries of inode `inum`'s content: offset, inode number and
name. -/
def dirents (d : Disk) (inum : Nat) : List (Nat × Nat × List UInt8) :=
  let c := content d (dinode d inum)
  (List.range ((dinode d inum).size / direntSize)).filterMap fun j =>
    let de := (c.drop (direntSize * j)).take direntSize
    if direntInum de = 0 then none else some (direntSize * j, direntInum de, direntName de)

/-- The inode that the first live entry named `name` holds. -/
def lookup (d : Disk) (inum : Nat) (name : List UInt8) : Option Nat :=
  ((dirents d inum).find? fun e => namecmp name e.2.2 = 0).map fun e => e.2.1

/-- `.` or `..`, compared as `namecmp` compares. -/
def IsDot (name : List UInt8) : Prop := namecmp name [46] = 0 ∨ namecmp name [46, 46] = 0

instance : DecidablePred IsDot := fun _ => inferInstanceAs (Decidable (_ ∨ _))

/-- Directory `x` names `y` by a live entry other than `.` and `..`. -/
def Child (d : Disk) (x y : Nat) : Prop :=
  (dinode d x).type = T_DIR ∧ ∃ e ∈ dirents d x, e.2.1 = y ∧ ¬ IsDot e.2.2

/-- The inodes the root reaches by `Child`. -/
def Reach (d : Disk) (y : Nat) : Prop := Relation.ReflTransGen (Child d) ROOTINO y

theorem reach_closed {d : Disk} {S : Nat → Prop} (hroot : S ROOTINO)
    (hstep : ∀ x y, S x → Child d x y → S y) {y : Nat} (h : Reach d y) : S y :=
  Relation.invariant_reach hstep hroot h

/-- A root whose live entries are all `.` or `..` reaches only itself. -/
theorem reach_eq_root {d : Disk} (hdots : ∀ e ∈ dirents d ROOTINO, IsDot e.2.2) {y : Nat}
    (h : Reach d y) : y = ROOTINO := by
  refine reach_closed (S := (· = ROOTINO)) rfl (fun x z hx hxz => ?_) h
  subst hx
  obtain ⟨-, e, he, -, hnd⟩ := hxz
  exact absurd (hdots e he) hnd

-- ================================================= an unlinked working directory

/-- The process `fork` gives a slot to. -/
def childSlot : Fin NPROC := ⟨1, by decide⟩

/-- `mkdir d`; a child enters `d`, unlinks it by `/d`, makes the device
`x` in it and exits: inode 3 of `x` is left allocated with one link, but
neither a reachable entry nor a reference names it. -/
theorem unlinked_cwd_orphans :
    ∃ k, run boot [.mkdir initSlot [100], .fork initSlot childSlot, .chdir childSlot [100],
        .unlink childSlot [47, 100], .mknod childSlot [120] 0 0, .exit childSlot] = .next k ∧
      Relation.ReflTransGen Step boot k ∧
      (dinode k.tx.disk 3).type = T_DEVICE ∧ (dinode k.tx.disk 3).nlink = 1 ∧
      ¬ Reach k.tx.disk 3 ∧ (∀ x, Reach k.tx.disk x → ∀ e ∈ dirents k.tx.disk x, e.2.1 ≠ 3) ∧
      ∀ e, 0 < (k.inode e).ref → (k.inode e).ip.inum ≠ 3 := by
  -- the run is evaluated once; what it leaves in the root is read off by `decide`
  obtain ⟨k, hk, htype, hnlink, hroot, hrefs⟩ : ∃ k, run boot [.mkdir initSlot [100],
        .fork initSlot childSlot, .chdir childSlot [100], .unlink childSlot [47, 100],
        .mknod childSlot [120] 0 0, .exit childSlot] = .next k ∧
      (dinode k.tx.disk 3).type = T_DEVICE ∧ (dinode k.tx.disk 3).nlink = 1 ∧
      (∀ e ∈ dirents k.tx.disk ROOTINO, IsDot e.2.2 ∧ e.2.1 ≠ 3) ∧
      ∀ e, 0 < (k.inode e).ref → (k.inode e).ip.inum ≠ 3 :=
    Outcome.exists_of_map_decide (by decide +kernel)
  have honly : ∀ x, Reach k.tx.disk x → x = ROOTINO :=
    fun _ => reach_eq_root fun e he => (hroot e he).1
  refine ⟨k, hk, reach_of_run hk, htype, hnlink, fun h => ?_, fun x hx e he => ?_, hrefs⟩
  · exact absurd (honly 3 h) (by decide)
  · rw [honly x hx] at he
    exact (hroot e he).2

-- ============================================================ a failed open

/-- After `NOFILE` opens of `/`, `open("x", O_CREATE | O_RDWR)` finds no
descriptor and returns `-1`, yet `x` is linked in the root, naming inode
2, which is now a file with one link. -/
theorem open_fails_after_create :
    ∃ k, run boot (List.replicate NOFILE (.sysopen initSlot [47] O_RDONLY true)) = .next k ∧
      Prog.Sat (fun r k' => r = none ∧ lookup k.tx.disk ROOTINO [120] = none ∧
          lookup k'.tx.disk ROOTINO [120] = some 2 ∧ (dinode k.tx.disk 2).type = 0 ∧
          (dinode k'.tx.disk 2).type = T_FILE ∧ (dinode k'.tx.disk 2).nlink = 1)
        (fun _ => False) (sys_open initSlot [120] (O_CREATE ||| O_RDWR) false k) :=
  Outcome.exists_of_map_decide (by decide +kernel)

end Xv6.Ns
