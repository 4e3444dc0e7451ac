import Xv6.Fs.Dir
import Xv6.Fs.Proofs.Read

/-!
What `dirlookup` and `dirlink` do to the state.

Both read the directory's entries through `readi` below its size, which
on a mapped directory changes nothing (`readi_spec`): `dirlookup`
leaves the state and the inode as they are (`dirlookup_spec`).
`dirlink` either finds the name and changes nothing, or writes one
entry with `writei` at an offset no larger than the size, the offset
of a free entry or the end (`dirlink_spec`); everything it does to the
blocks is then what `writei_spec` says of that write.
-/

namespace Xv6.Fs

open Prog Inode

/-- An entry read below the size of a mapped directory does not wrap
around the 32-bit offset. -/
theorem entry_no_wrap {d : Disk} {dp : Inode} (hm : Mapped d dp) {off : Nat} (h : off ≤ dp.size) :
    off + direntSize < 2 ^ 32 := by
  have := hm.size_le
  simp only [MAXFILE, NDIRECT, NINDIRECT, BSIZE, direntSize] at this ⊢
  omega

theorem kernelDst_ok : ∀ t m, kernelDst t m = true := fun _ _ => rfl

/-- `dirlookup`'s loop changes neither the state nor the directory. -/
theorem lookupLoop_spec {name : List UInt8} {dp : Inode} {s₀ : Tx} (hm : Mapped s₀.disk dp) :
    ∀ fuel off, Triple (· = s₀) (lookupLoop name fuel dp off) (fun r s => s = s₀ ∧ r.2 = dp)
      fun e => e = "dirlookup read" := by
  intro fuel
  induction fuel with
  | zero => exact fun _ => Triple.ret fun s hs => ⟨hs, rfl⟩
  | succ fuel ih =>
      intro off
      rw [lookupLoop]
      refine Triple.ite (fun hlt => ?_) fun _ => Triple.ret fun s hs => ⟨hs, rfl⟩
      refine Triple.bind ((readi_spec hm hlt.le (entry_no_wrap hm hlt.le)).err fun _ h => h.elim)
        fun ⟨r, de, dp'⟩ => Triple.pre fun s ⟨hs, hdp, _⟩ => ?_
      subst s
      dsimp only at hdp ⊢
      subst dp'
      refine Triple.ite (fun _ => Triple.fail fun _ _ => rfl) fun _ => ?_
      exact Triple.ite (fun _ => Triple.ret fun s hs => ⟨hs, rfl⟩) fun _ => ih _

theorem dirlookup_spec {name : List UInt8} {dp : Inode} {s₀ : Tx} (hm : Mapped s₀.disk dp) :
    Triple (· = s₀) (dirlookup dp name) (fun r s => s = s₀ ∧ r.2 = dp)
      fun e => e = "dirlookup not DIR" ∨ e = "dirlookup read" := by
  rw [dirlookup]
  exact Triple.ite (fun _ => Triple.fail fun _ _ => .inl rfl) fun _ =>
    (lookupLoop_spec hm _ 0).err fun _ => .inr

/-- `dirlink`'s search changes nothing, and stops at an offset no larger
than the size: a free entry's, or the end. -/
theorem emptyLoop_spec {dp : Inode} {s₀ : Tx} (hm : Mapped s₀.disk dp) :
    ∀ fuel off, off ≤ dp.size → Triple (· = s₀) (emptyLoop fuel dp off)
      (fun r s => s = s₀ ∧ r.2 = dp ∧ r.1 ≤ dp.size) fun e => e = "dirlink read" := by
  intro fuel
  induction fuel with
  | zero => exact fun _ hoff => Triple.ret fun s hs => ⟨hs, rfl, hoff⟩
  | succ fuel ih =>
      intro off hoff
      rw [emptyLoop]
      refine Triple.ite (fun hlt => ?_) fun _ => Triple.ret fun s hs => ⟨hs, rfl, hoff⟩
      refine Triple.bind ((readi_spec hm hlt.le (entry_no_wrap hm hlt.le)).err fun _ h => h.elim)
        fun ⟨r, de, dp'⟩ => Triple.pre fun s ⟨hs, hdp, hr⟩ => ?_
      subst s
      dsimp only at hdp hr ⊢
      subst dp'
      have hr := (hr kernelDst_ok).1
      refine Triple.ite (fun _ => Triple.fail fun _ _ => rfl) fun h16 => ?_
      -- a whole entry was read: the next offset is still within the size
      have hnext : off + direntSize ≤ dp.size := by
        simp only [direntSize] at hr h16 ⊢
        omega
      exact Triple.ite (fun _ => Triple.ret fun s hs => ⟨hs, rfl, hlt.le⟩) fun _ => ih _ hnext

/-- The panics of `dirlink`, its `dirlookup` and its `writei`. -/
def dirlinkPanics : List String :=
  ["dirlookup not DIR", "dirlookup read", "dirlink read", "balloc: out of blocks", "dirlink"]

/-- `dirlink` of a mapped directory: the name is present and nothing
changes, or one entry is written with `writei` at an offset no larger
than the size. -/
theorem dirlink_spec {R : List Nat} {dp : Inode} {name : List UInt8} {inum : Nat} {s₀ : Tx}
    (h : Holds R dp s₀) (hm : Mapped s₀.disk dp) :
    Triple (· = s₀) (dirlink dp name inum)
      (fun r s => (s = s₀ ∧ r.2 = dp) ∨ ∃ off ≤ dp.size, off + direntSize ≤ MAXFILE * BSIZE ∧ ∃ tot off' ip s',
        WriteInv R (kernelSrc (direntBytes inum name)) direntSize s₀ dp off ip tot off' s' ∧
          r.2 = grownTo ip off' ∧ s = s'.update (grownTo ip off'))
      fun e => e ∈ dirlinkPanics := by
  rw [dirlink]
  refine Triple.bind ((dirlookup_spec hm).err fun e he => ?_) fun ⟨found, dp'⟩ =>
    Triple.pre fun s ⟨hs, hdp⟩ => ?_
  · rcases he with rfl | rfl <;> simp [dirlinkPanics]
  subst s
  dsimp only at hdp ⊢
  subst dp'
  split
  · exact Triple.ret fun s hs => .inl ⟨hs, rfl⟩
  refine Triple.bind ((emptyLoop_spec hm _ 0 (Nat.zero_le _)).err fun _ he => by simp [he, dirlinkPanics])
    fun ⟨off, dp'⟩ => Triple.pre fun s ⟨hs, hdp, hoff⟩ => ?_
  subst s
  dsimp only at hdp hoff ⊢
  subst dp'
  by_cases hmax : off + direntSize ≤ MAXFILE * BSIZE
  · -- the entry is written
    refine Triple.bind ((writei_spec h hoff (entry_no_wrap hm hoff) hmax).err fun _ he => by
      simp [he, dirlinkPanics]) fun ⟨r, dp'⟩ => Triple.pre fun s ⟨tot, off', ip, s', hw, _, hr, hs⟩ => ?_
    subst s
    dsimp only at hr ⊢
    obtain ⟨-, rfl⟩ := Prod.mk.inj hr
    exact Triple.ite (fun _ => Triple.intro fun _ _ => by simp [dirlinkPanics]) fun _ =>
      Triple.ret fun s hs => .inr ⟨off, hoff, hmax, tot, off', ip, s', hw, rfl, hs⟩
  · -- a full directory: `writei` refuses, and `dirlink` panics
    rw [writei_of_refused (.inr (.inr (Nat.lt_of_not_le hmax))), pure_bind]
    exact Triple.ite (fun _ => Triple.intro fun _ _ => by simp [dirlinkPanics]) fun h =>
      absurd (by simp [direntSize]) h

end Xv6.Fs
