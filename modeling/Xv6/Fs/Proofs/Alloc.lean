import Xv6.Fs.Proofs.Update
import Mathlib.Data.List.Nodup

/-!
The free bitmap against the inodes, over runs of the inode operations.

# The invariant

Inode `i` holds its addresses and the nonzero entries of its indirect
block when it is allocated, nothing when its type is zero (`heldBy`).
`AllocInv` says the bitmap marks exactly the metadata blocks and the
blocks the inodes hold, each held once (`Marks` of `held`), and that an
allocated inode maps every byte below its size, which is what lets
`dirlink`'s reads leave the directory alone.

# Method

An operation on inode `i` is split at `i`: what the others hold
(`heldOthers`) against what `i` holds. The operation changes the
others' inodes and blocks in no way (`Agrees`), so it keeps the
invariant as soon as the bitmap marks the others' blocks and `i`'s new
ones, and `i` stays mapped (`AllocInv.step`). The specs of the layer
below give exactly that for each operation: `writei_spec` and
`dirlink_spec` a `WriteInv` (`AllocInv.of_write`), `itrunc_spec` and
`ifree_spec` a bitmap that marks the others' blocks alone
(`AllocInv.of_trunc`), `ialloc_spec` a new inode with no block
(`AllocInv.of_ialloc`). `Op.run_spec` is the step lemma, and
`runOps_inv` the run lemma.

An operation runs in its own transaction; one that panics commits
nothing, so the disk after it is the disk before it, and the run stops.
-/

namespace Xv6.Fs

open Prog Inode

-- =========================================================== what inodes hold

/-- The blocks inode `i` holds: none if it is free. -/
def heldBy (d : Disk) (i : Nat) : List Nat := if (dinode d i).type = 0 then [] else refs d (dinode d i)

/-- The blocks all the inodes hold, inode by inode. -/
def held (d : Disk) : List Nat := (List.range NINODES).flatMap (heldBy d)

/-- The blocks the inodes other than `i` hold. -/
def heldOthers (d : Disk) (i : Nat) : List Nat := ((List.range NINODES).erase i).flatMap (heldBy d)

/-- The bitmap marks the metadata and the blocks the inodes hold, each
once; an allocated inode maps every byte below its size. -/
structure AllocInv (d : Disk) : Prop where
  marks : Marks d (held d)
  mapped : ∀ i < NINODES, (dinode d i).type ≠ 0 → Mapped d (dinode d i)

variable {d d' : Disk} {i j : Nat}

theorem held_perm (hi : i < NINODES) : (held d).Perm (heldOthers d i ++ heldBy d i) :=
  Sparse.flatMap_perm_erase (List.mem_range.mpr hi) _

theorem mem_heldOthers (hj : j < NINODES) (hji : j ≠ i) {x : Nat} (hx : x ∈ heldBy d j) :
    x ∈ heldOthers d i :=
  List.mem_flatMap.mpr ⟨j, (List.nodup_range.mem_erase_iff).mpr ⟨hji, List.mem_range.mpr hj⟩, hx⟩

theorem heldBy_of_type (ht : (dinode d i).type ≠ 0) : heldBy d i = refs d (dinode d i) := by
  rw [heldBy, if_neg ht]

theorem heldBy_of_free (ht : (dinode d i).type = 0) : heldBy d i = [] := by
  rw [heldBy, if_pos ht]

namespace AllocInv

theorem others (h : AllocInv d) (hi : i < NINODES) : Marks d (heldOthers d i ++ heldBy d i) :=
  h.marks.of_perm (held_perm hi)

theorem meta_le (h : AllocInv d) (hi : i < NINODES) {x : Nat} (hx : x ∈ heldOthers d i) : nmeta ≤ x :=
  ((h.others hi).data x (List.mem_append_left _ hx)).1

/-- A locked allocated inode holds its blocks against the others'. -/
theorem holds {s : Tx} (h : AllocInv s.disk) (hi : i < NINODES) (ht : (dinode s.disk i).type ≠ 0) :
    Holds (heldOthers s.disk i) (dinode s.disk i) s := by
  have := h.others hi
  rwa [heldBy_of_type ht] at this

end AllocInv

-- ============================================================= the frame

/-- `d'` differs from `d` in nothing the inodes other than `i` read:
their dinodes, and the blocks they hold. -/
structure Agrees (d d' : Disk) (i : Nat) : Prop where
  inodes : ∀ j < NINODES, j ≠ i → dinode d' j = dinode d j
  blocks : ∀ x ∈ heldOthers d i, d' x = d x

namespace Agrees

/-- What leaves the inode blocks and the others' blocks alone agrees. -/
theorem of_keeps (h : ∀ x, x < bmapstart ∨ x ∈ heldOthers d i → d' x = d x) : Agrees d d' i where
  inodes j hj _ := by rw [dinode, dinode, h _ (.inl (IBLOCK_lt_bmapstart hj))]
  blocks x hx := h x (.inr hx)

/-- `iupdate` of inode `i` keeps the agreement. -/
theorem update {s : Tx} (hag : Agrees d s.disk i) (hmeta : ∀ x ∈ heldOthers d i, nmeta ≤ x)
    {ip : Inode} (hinum : ip.inum = i) (hi : i < NINODES) : Agrees d (s.update ip).disk i where
  inodes j hj hji := by
    rw [dinode_update_of_ne (hinum ▸ hji), hag.inodes j hj hji]
  blocks x hx := by
    rw [update_disk_of_meta_le (hinum ▸ hi) (hmeta x hx), hag.blocks x hx]

/-- Another inode holds what it held. -/
theorem heldBy_eq (hag : Agrees d d' i) (hj : j < NINODES) (hji : j ≠ i) : heldBy d' j = heldBy d j := by
  unfold heldBy
  rw [hag.inodes j hj hji]
  split
  · rfl
  · rename_i ht
    -- its indirect block is one of the blocks it holds
    refine refs_congr_disk fun hne => hag.blocks _ (mem_heldOthers hj hji ?_)
    rw [heldBy_of_type ht]
    exact mem_refs.mpr (.inl ⟨hne, rfl⟩)

theorem heldOthers_eq (hag : Agrees d d' i) : heldOthers d' i = heldOthers d i :=
  Sparse.flatMap_erase_congr List.nodup_range fun _ hj hji =>
    hag.heldBy_eq (List.mem_range.mp hj) hji

/-- Another allocated inode stays mapped. -/
theorem mapped (hag : Agrees d d' i) (hj : j < NINODES) (hji : j ≠ i) (ht : (dinode d j).type ≠ 0)
    (hm : Mapped d (dinode d j)) : Mapped d' (dinode d' j) := by
  rw [hag.inodes j hj hji]
  have hd : (dinode d j).addrs ind ≠ 0 → d' ((dinode d j).addrs ind) = d ((dinode d j).addrs ind) :=
    fun hne => hag.blocks _ (mem_heldOthers hj hji (by rw [heldBy_of_type ht]; exact mem_refs.mpr (.inl ⟨hne, rfl⟩)))
  exact ⟨hm.size_le, fun k hk => by rw [blockAddr_congr_disk hd]; exact hm.mapped k hk⟩

end Agrees

/-- An operation on inode `i` that leaves the others alone keeps the
invariant once the bitmap marks the others' blocks and `i`'s, and `i`
is mapped. -/
theorem AllocInv.step (h : AllocInv d) (hi : i < NINODES) (hag : Agrees d d' i)
    (hm : Marks d' (heldOthers d i ++ heldBy d' i))
    (hmap : (dinode d' i).type ≠ 0 → Mapped d' (dinode d' i)) : AllocInv d' where
  marks := by
    rw [← hag.heldOthers_eq] at hm
    exact hm.of_perm (held_perm hi).symm
  mapped j hj ht := by
    by_cases hji : j = i
    · subst hji
      exact hmap ht
    · -- the type of another inode is what it was
      have ht' : (dinode d j).type ≠ 0 := by rwa [← hag.inodes j hj hji]
      exact hag.mapped hj hji ht' (h.mapped j hj ht')

-- ============================================================ the operations

theorem ilock_spec (s₀ : Tx) (inum : Nat) :
    Triple (· = s₀) (ilock inum) (fun ip s => s = s₀ ∧ ip = dinode s₀.disk inum ∧ ip.type ≠ 0)
      fun e => e = "ilock: no type" := by
  rw [ilock]
  refine Triple.bind (R := fun a s => a = s₀.disk (IBLOCK inum) ∧ s = s₀)
    (Triple.intro fun s hs => by subst hs; exact ⟨rfl, rfl⟩) fun a => Triple.pre_and fun ha => ?_
  subst ha
  exact Triple.ite (fun _ => Triple.fail fun _ _ => rfl) fun ht => Triple.ret fun s hs => ⟨hs, rfl, ht⟩

/-- A `writei` of inode `i` keeps the invariant: what its loop leaves,
with the inode written back. -/
theorem AllocInv.of_write {s₀ : Tx} (h : AllocInv s₀.disk) (hi : i < NINODES) (ht : (dinode s₀.disk i).type ≠ 0)
    {src : Nat → Option UInt8} {n off₀ tot off : Nat} {ip : Inode} {s : Tx}
    (hw : WriteInv (heldOthers s₀.disk i) src n s₀ (dinode s₀.disk i) off₀ ip tot off s)
    (hoff : off₀ ≤ (dinode s₀.disk i).size) (hmax : off₀ + n ≤ MAXFILE * BSIZE) :
    AllocInv (s.update (grownTo ip off)).disk := by
  have hinum : (grownTo ip off).inum = i := by rw [grownTo_inum, hw.fields]; rfl
  have hm₀ := h.mapped i hi ht
  have hfits := hw.fits (getDinode_fits _ _) hm₀ hmax
  have hself : dinode (s.update (grownTo ip off)).disk i = grownTo ip off := by
    conv => lhs; rw [← hinum]
    exact dinode_update_self hfits
  have hty : (grownTo ip off).type ≠ 0 := by rw [grownTo_type, hw.fields]; exact ht
  have hip : ip.inum < NINODES := by rw [← grownTo_inum ip off, hinum]; exact hi
  refine h.step hi ((Agrees.of_keeps hw.keeps).update (fun x hx => h.meta_le hi hx) hinum hi) ?_ ?_
  · -- the bitmap marks the others' blocks and the written inode's
    have hty' : (dinode (s.update (grownTo ip off)).disk i).type ≠ 0 := by rw [hself]; exact hty
    rw [heldBy_of_type hty', hself]
    exact hw.holds_written hip
  · intro _
    rw [hself]
    exact hw.mapped_written hm₀ hoff hmax hip

/-- A truncation of inode `i`, possibly with its type cleared: the
bitmap marks the others' blocks alone, and the inode written back holds
nothing. -/
theorem AllocInv.of_trunc (h : AllocInv d) (hi : i < NINODES) {s : Tx} {ip : Inode}
    (hm : Marks s.disk (heldOthers d i)) (hag : Agrees d s.disk i) (hinum : ip.inum = i)
    (hzero : ip.addrs = fun _ => 0) (hsize : ip.size = 0) (hfits : ip.Fits) :
    AllocInv (s.update ip).disk := by
  have hself : dinode (s.update ip).disk i = ip := by
    conv => lhs; rw [← hinum]
    exact dinode_update_self hfits
  have hnil : heldBy (s.update ip).disk i = [] := by
    unfold heldBy
    split
    · rfl
    · rw [hself, refs_of_addrs_zero hzero]
  refine h.step hi (hag.update (fun x hx => h.meta_le hi hx) hinum hi) ?_ fun _ => ?_
  · rw [hnil, List.append_nil]
    exact Marks.update_inode hm (hinum ▸ hi)
  · rw [hself]
    exact Mapped.of_size_zero hsize

/-- The dinode `ialloc` stores for inode `r`: the type, then zeros. -/
theorem dinode_claimInode_self {s : Tx} {type r : Nat} :
    (dinode (s.claimInode type r).disk r).addrs = (fun _ => 0) ∧ (dinode (s.claimInode type r).disk r).size = 0 := by
  unfold dinode Tx.claimInode
  dsimp only
  rw [Function.update_self]
  have ho := dinodeOff_add_le r
  refine ⟨funext fun j => ?_, ?_⟩
  · have := j.isLt
    simp only [getDinode, NDIRECT] at this ⊢
    rw [ByteMap.getLE_setLE_of_disjoint _ (by omega), ByteMap.getLE_zero (by omega) (by omega)]
  · simp only [getDinode]
    rw [ByteMap.getLE_setLE_of_disjoint _ (by omega), ByteMap.getLE_zero (by omega) (by omega)]

/-- `ialloc`'s store leaves every other inode. -/
theorem dinode_claimInode_of_ne {s : Tx} {type r j : Nat} (hj : j ≠ r) :
    dinode (s.claimInode type r).disk j = dinode s.disk j := by
  unfold dinode Tx.claimInode
  dsimp only
  by_cases hb : IBLOCK j = IBLOCK r
  · -- another slot of the same block: its 64 bytes are outside the store
    rw [hb, Function.update_self]
    refine getDinode_congr fun k h₁ h₂ => ?_
    have hne := mod_IPB_ne hb hj
    have hsep : k < dinodeOff r ∨ dinodeOff r + 64 ≤ k := by
      simp only [dinodeOff] at h₁ h₂ ⊢
      rcases Nat.lt_or_gt_of_ne hne with hlt | hlt <;> omega
    rw [ByteMap.setLE_apply_of_not_mem _ (by omega), ByteMap.zero_apply_of_not_mem hsep]
  · rw [Function.update_of_ne hb]

/-- `ialloc` keeps the invariant: the inode it claims was free and
holds no block. -/
theorem AllocInv.of_ialloc {s : Tx} (h : AllocInv s.disk) {type r : Nat} (hr : r < NINODES)
    (hfree : (dinode s.disk r).type = 0) : AllocInv (s.claimInode type r).disk := by
  obtain ⟨hzero, hsize⟩ := @dinode_claimInode_self s type r
  have hag : Agrees s.disk (s.claimInode type r).disk r :=
    { inodes := fun _ _ hjr => dinode_claimInode_of_ne hjr
      blocks := fun x hx =>
        Function.update_of_ne (by have := IBLOCK_lt_nmeta hr; have := h.meta_le hr hx; omega) _ _ }
  have hnil : heldBy (s.claimInode type r).disk r = [] := by
    unfold heldBy
    split
    · rfl
    · rw [refs_of_addrs_zero hzero]
  have hm := h.others hr
  rw [heldBy_of_free hfree] at hm
  refine h.step hr hag ?_ fun _ => Mapped.of_size_zero hsize
  rw [hnil]
  exact hm.store_inode hr _

theorem fits_truncated {ip : Inode} (hf : ip.Fits) :
    ({ ip with addrs := fun _ => 0, size := 0 } : Inode).Fits :=
  ⟨hf.type, hf.major, hf.minor, hf.nlink, Nat.two_pow_pos 32, fun _ => Nat.two_pow_pos 32⟩

-- ================================================================= runs

/-- The inode operations, each in its own transaction, on the inodes of
the file system. `iput` stands for the last `iput` of an inode, which
frees it when no directory links it. Offsets and counts are the
`uint`s the calls take. -/
inductive Op
  | ialloc (type : Nat)
  | write (inum : Fin NINODES) (src : Nat → Option UInt8) (off n : UInt32)
  | trunc (inum : Fin NINODES)
  | iput (inum : Fin NINODES)
  | dirlink (dp : Fin NINODES) (name : List UInt8) (inum : Nat)

/-- An operation, on its inode locked. -/
@[grind] def Op.run : Op → FsM Unit
  | .ialloc type => do
      let _ ← Fs.ialloc type
      pure ()
  | .write inum src off n => do
      let ip ← ilock inum.val
      let _ ← writei ip src off.toNat n.toNat
      pure ()
  | .trunc inum => do
      let ip ← ilock inum.val
      let _ ← itrunc ip
      pure ()
  | .iput inum => do
      let ip ← ilock inum.val
      if ip.nlink = 0 then do
        let _ ← ifree ip
        pure ()
  | .dirlink dp name inum => do
      let ip ← ilock dp.val
      let _ ← Fs.dirlink ip name inum
      pure ()

/-- A run from disk `d`: each operation in a fresh transaction, until
one panics. -/
def runOps : List Op → Disk → Except String Disk
  | [], d => .ok d
  | op :: ops, d =>
      match op.run ⟨d, []⟩ with
      | .ok (_, s) => runOps ops s.disk
      | .error e => .error e

/-- The step lemma: every operation keeps the invariant. -/
theorem Op.run_spec (op : Op) {s₀ : Tx} (h : AllocInv s₀.disk) :
    Triple (· = s₀) op.run (fun _ s => AllocInv s.disk) fun _ => True := by
  cases op with
  | ialloc type =>
      rw [Op.run]
      refine Triple.bind ((ialloc_spec type s₀).err fun _ _ => trivial) fun r =>
        Triple.ret fun s ⟨_, hr, hfree, hs⟩ => ?_
      subst hs
      exact h.of_ialloc hr hfree
  | write inum src off n =>
      rw [Op.run]
      refine Triple.bind ((ilock_spec s₀ inum.val).err fun _ _ => trivial) fun ip =>
        Triple.pre fun s ⟨hs, hip, ht⟩ => ?_
      subst s ip
      have hoffn := off.toNat_lt
      have hnn := n.toNat_lt
      by_cases hr : off.toNat > (dinode s₀.disk inum).size ∨ (off.toNat + n.toNat) % 2 ^ 32 < off.toNat ∨
          off.toNat + n.toNat > MAXFILE * BSIZE
      · -- refused: nothing changes
        rw [writei_of_refused hr, pure_bind]
        exact Triple.ret fun s hs => hs ▸ h
      have hoff : off.toNat ≤ (dinode s₀.disk inum).size := by omega
      -- two `uint`s whose sum does not wrap
      have hov : off.toNat + n.toNat < 2 ^ 32 := by
        by_contra hge
        have : (off.toNat + n.toNat) % 2 ^ 32 = off.toNat + n.toNat - 2 ^ 32 := by
          rw [Nat.mod_eq_sub_mod (by omega), Nat.mod_eq_of_lt (by omega)]
        omega
      have hmax : off.toNat + n.toNat ≤ MAXFILE * BSIZE := by omega
      refine Triple.bind ((writei_spec (h.holds inum.isLt ht) hoff hov hmax).err fun _ _ => trivial)
        fun _ => Triple.ret fun s ⟨_, _, _, _, hw, _, _, hs⟩ => ?_
      subst hs
      exact h.of_write inum.isLt ht hw hoff hmax
  | trunc inum =>
      rw [Op.run]
      refine Triple.bind ((ilock_spec s₀ inum.val).err fun _ _ => trivial) fun ip =>
        Triple.pre fun s ⟨hs, hip, ht⟩ => ?_
      subst s ip
      refine Triple.bind ((itrunc_spec (h.holds inum.isLt ht)).err fun _ h => h.elim)
        fun _ => Triple.ret fun s ⟨ha, s', hm, hbo, hs⟩ => ?_
      subst hs ha
      exact h.of_trunc inum.isLt hm (Agrees.of_keeps fun x hx => hbo x (hx.imp_right (h.meta_le inum.isLt)))
        rfl rfl rfl (fits_truncated (getDinode_fits _ _))
  | iput inum =>
      rw [Op.run]
      refine Triple.bind ((ilock_spec s₀ inum.val).err fun _ _ => trivial) fun ip =>
        Triple.pre fun s ⟨hs, hip, ht⟩ => ?_
      subst s ip
      refine Triple.ite (fun _ => ?_) fun _ => Triple.ret fun s hs => hs ▸ h
      refine Triple.bind ((ifree_spec (h.holds inum.isLt ht)).err fun _ h => h.elim)
        fun _ => Triple.ret fun s ⟨ha, s', hm, hbo, hs⟩ => ?_
      subst hs ha
      -- the truncated inode is written back, then again with type zero
      have hag : Agrees s₀.disk (s'.update { dinode s₀.disk inum with addrs := fun _ => 0, size := 0 }).disk inum :=
        (Agrees.of_keeps fun x hx => hbo x (hx.imp_right (h.meta_le inum.isLt))).update
          (fun x hx => h.meta_le inum.isLt hx) rfl inum.isLt
      have hf := fits_truncated (getDinode_fits (s₀.disk (IBLOCK inum)) inum)
      exact h.of_trunc inum.isLt (Marks.update_inode hm inum.isLt) hag rfl rfl rfl
        ⟨Nat.two_pow_pos 16, hf.major, hf.minor, hf.nlink, hf.size, hf.addrs⟩
  | dirlink dp name target =>
      rw [Op.run]
      refine Triple.bind ((ilock_spec s₀ dp.val).err fun _ _ => trivial) fun ip =>
        Triple.pre fun s ⟨hs, hip, ht⟩ => ?_
      subst s ip
      refine Triple.bind ((dirlink_spec (h.holds dp.isLt ht) (h.mapped _ dp.isLt ht)).err fun _ _ => trivial)
        fun _ => Triple.ret fun s hs => ?_
      rcases hs with ⟨hs, _⟩ | ⟨_, hoff, hmax, _, _, _, _, hw, _, hs⟩
      · exact hs ▸ h
      · subst hs
        exact h.of_write dp.isLt ht hw hoff hmax

/-- The run lemma: a run from a state satisfying the invariant ends in
one. -/
theorem runOps_inv : ∀ {ops : List Op} {d d' : Disk}, AllocInv d → runOps ops d = .ok d' → AllocInv d'
  | [], _, _, h, hrun => by
      simp only [runOps, Except.ok.injEq] at hrun
      exact hrun ▸ h
  | op :: _, d, _, h, hrun => by
      rw [runOps] at hrun
      split at hrun
      · rename_i s hs
        exact runOps_inv ((@Op.run_spec op ⟨d, []⟩ h).ok rfl hs) hrun
      · cases hrun

-- ============================================================ consequences

namespace AllocInv

/-- The bitmap marks a block iff it is metadata or an inode holds it. -/
theorem used_iff (h : AllocInv d) {b : Nat} (hb : b < FSSIZE) :
    used d b = true ↔ b < nmeta ∨ ∃ i < NINODES, b ∈ heldBy d i := by
  rw [h.marks.bit b hb, held, List.mem_flatMap]
  simp only [List.mem_range]

/-- No two inodes hold one block. -/
theorem owner_unique (h : AllocInv d) (hi : i < NINODES) (hj : j < NINODES) {b : Nat}
    (hbi : b ∈ heldBy d i) (hbj : b ∈ heldBy d j) : i = j :=
  Sparse.eq_of_mem_flatMap List.nodup_range h.marks.nodup (List.mem_range.mpr hi) (List.mem_range.mpr hj) hbi hbj

/-- No inode holds a block twice. -/
theorem heldBy_nodup (h : AllocInv d) (hi : i < NINODES) : (heldBy d i).Nodup :=
  (List.nodup_append.mp (h.others hi).nodup).2.1

/-- `balloc` hands out a block the bitmap marks free: no metadata, and
no inode's. -/
theorem balloc_free {s₀ : Tx} (h : AllocInv s₀.disk) :
    Triple (· = s₀) balloc (fun r _ => nmeta ≤ r ∧ r < FSSIZE ∧ used s₀.disk r = false)
      fun e => e = "balloc: out of blocks" := by
  refine (balloc_spec h.marks).conseq (fun _ h => h) (fun r _ ⟨hr, hrs, hn, _⟩ => ⟨hr, hrs, ?_⟩) fun _ he => he.1
  rw [Bool.eq_false_iff]
  intro hu
  rcases (h.marks.bit r hrs).mp hu with hlt | hmem
  · omega
  · exact hn hmem

/-- Freeing an allocated inode does not panic, and leaves every block it
held free. -/
theorem ifree_frees {s₀ : Tx} (h : AllocInv s₀.disk) (hi : i < NINODES) (ht : (dinode s₀.disk i).type ≠ 0) :
    Triple (· = s₀) (ifree (dinode s₀.disk i)) (fun _ s => ∀ b ∈ heldBy s₀.disk i, used s.disk b = false)
      fun _ => False := by
  refine (ifree_spec (h.holds hi ht)).conseq (fun _ h => h) (fun _ s ⟨hip, s', hm, _, hs⟩ b hb => ?_) fun _ => id
  subst hs hip
  -- the bitmap marks the others' blocks alone, and `b` is none of them
  have hother := h.others hi
  obtain ⟨-, -, hdisj⟩ := List.nodup_append.mp hother.nodup
  have hbd := hother.data b (List.mem_append_right _ hb)
  have hu : used s'.disk b = false := by
    rw [Bool.eq_false_iff]
    intro hu
    rcases (hm.bit b hbd.2).mp hu with hlt | hR
    · omega
    · exact hdisj b hR b hb rfl
  -- the two `iupdate`s of the inode change no bit
  rw [used_update_inode hi, used_update_inode hi]
  exact hu

end AllocInv

/-- Over every run of the inode operations from a state satisfying the
invariant: the bitmap marks exactly the metadata and the blocks the
allocated inodes hold, each by one inode and once; `balloc` hands out
only a free block; and freeing an inode cannot panic and frees all its
blocks. -/
theorem alloc_consistent {d₀ d : Disk} {ops : List Op} (h₀ : AllocInv d₀) (hrun : runOps ops d₀ = .ok d) :
    AllocInv d ∧
      (∀ b < FSSIZE, used d b = true ↔ b < nmeta ∨ ∃ i < NINODES, b ∈ heldBy d i) ∧
      (∀ i < NINODES, ∀ j < NINODES, ∀ b, b ∈ heldBy d i → b ∈ heldBy d j → i = j) ∧
      (∀ i < NINODES, (heldBy d i).Nodup) ∧
      Triple (· = ⟨d, []⟩) balloc (fun r _ => nmeta ≤ r ∧ r < FSSIZE ∧ used d r = false)
        (fun e => e = "balloc: out of blocks") ∧
      (∀ i < NINODES, (dinode d i).type ≠ 0 →
        Triple (· = ⟨d, []⟩) (ifree (dinode d i)) (fun _ s => ∀ b ∈ heldBy d i, used s.disk b = false)
          fun _ => False) := by
  have h := runOps_inv h₀ hrun
  exact ⟨h, fun _ hb => h.used_iff hb, fun _ hi _ hj _ => h.owner_unique hi hj, fun _ hi => h.heldBy_nodup hi,
    h.balloc_free, fun _ hi ht => h.ifree_frees hi ht⟩

-- ========================================================= the mkfs image

/-- The root directory `mkfs` writes when given no file: `.` and `..` in
block `nmeta`, the size rounded up to the block. -/
def mkfsRoot : Inode where
  inum := ROOTINO
  type := T_DIR
  major := 0
  minor := 0
  nlink := 1
  size := BSIZE
  addrs := fun j => if j.val = 0 then nmeta else 0

/-- `balloc(freeblock)`'s bitmap block: blocks `0` to `nmeta` in use. -/
def mkfsBitmap : Block := fun k => if k < 5 then 255 else if k = 5 then 127 else 0

/-- The image `mkfs` writes when given no file. -/
def mkfsDisk : Disk := fun b =>
  if b = IBLOCK ROOTINO then putDinode (fun _ => 0) mkfsRoot
  else if b = bmapstart then mkfsBitmap
  else if b = nmeta then fun k => (direntBytes ROOTINO [46] ++ direntBytes ROOTINO [46, 46]).getD k 0
  else fun _ => 0

theorem mkfsRoot_fits : mkfsRoot.Fits where
  type := by decide
  major := by decide
  minor := by decide
  nlink := by decide
  size := by decide
  addrs j := by
    show (if j.val = 0 then nmeta else 0) < 2 ^ 32
    split <;> decide

theorem mkfs_dinode_root : dinode mkfsDisk ROOTINO = mkfsRoot := by
  unfold dinode mkfsDisk
  rw [if_pos rfl]
  exact getDinode_putDinode _ mkfsRoot_fits

theorem mkfs_dinode_free (hj : j < NINODES) (hj1 : j ≠ ROOTINO) : (dinode mkfsDisk j).type = 0 := by
  unfold dinode mkfsDisk
  by_cases hb : IBLOCK j = IBLOCK ROOTINO
  · rw [if_pos hb, getDinode_putDinode_of_ne _ _ (mod_IPB_ne hb hj1)]
    exact ByteMap.getLE_const_zero _ _
  · -- an inode block other than the root's is zero
    have h₁ := IBLOCK_lt_bmapstart hj
    rw [if_neg hb, if_neg (by omega), if_neg (by rw [nmeta_eq_bmapstart_add]; omega)]
    exact ByteMap.getLE_const_zero _ _

theorem mkfs_heldBy (hj : j < NINODES) : heldBy mkfsDisk j = if j = ROOTINO then [nmeta] else [] := by
  split
  · rename_i h1
    subst h1
    rw [heldBy_of_type (by rw [mkfs_dinode_root]; decide), mkfs_dinode_root]
    decide
  · exact heldBy_of_free (mkfs_dinode_free hj ‹_›)

theorem mkfs_held : held mkfsDisk = [nmeta] := by
  rw [held, List.flatMap_congr fun j hj => mkfs_heldBy (List.mem_range.mp hj)]
  decide

theorem mkfs_used {b : Nat} (hb : b < FSSIZE) : used mkfsDisk b = ByteMap.bit mkfsBitmap b := by
  have hB : BBLOCK b = bmapstart := by
    simp only [BBLOCK, BPB, BSIZE, FSSIZE] at hb ⊢
    omega
  have hm : b % BPB = b := Nat.mod_eq_of_lt (by simp only [BPB, BSIZE, FSSIZE] at hb ⊢; omega)
  unfold used mkfsDisk
  rw [hB, if_neg (by decide), if_pos rfl, hm]

theorem mkfsBitmap_bit (b : Nat) : ByteMap.bit mkfsBitmap b = true ↔ b < nmeta ∨ b ∈ [nmeta] := by
  have hk : b % 8 < 8 := Nat.mod_lt _ (by decide)
  have h255 : ∀ k < 8, (255 : UInt8).toNat.testBit k = true := by decide
  have h127 : ∀ k < 8, (127 : UInt8).toNat.testBit k = decide (k < 7) := by decide
  simp only [ByteMap.bit, mkfsBitmap, List.mem_singleton, nmeta_eq]
  -- bytes `0..4` are full, byte `5` holds bits `40..46`, the rest are empty
  split
  · simp only [h255 _ hk, true_iff]
    omega
  · split
    · rw [h127 _ hk, decide_eq_true_iff]
      omega
    · rw [UInt8.toNat_zero, Nat.zero_testBit]
      simp only [Bool.false_eq_true, false_iff]
      omega

/-- The image `mkfs` writes satisfies the invariant. -/
theorem mkfsDisk_inv : AllocInv mkfsDisk where
  marks := by
    rw [mkfs_held]
    exact ⟨List.nodup_singleton _, fun b hb => by rw [List.mem_singleton.mp hb]; decide,
      fun b hb => by rw [mkfs_used hb]; exact mkfsBitmap_bit b⟩
  mapped j hj ht := by
    have hroot : j = ROOTINO := Classical.byContradiction fun h1 => ht (mkfs_dinode_free hj h1)
    subst hroot
    rw [mkfs_dinode_root]
    refine ⟨by decide, fun i hi => ?_⟩
    have h0 : i / BSIZE = 0 := Nat.div_eq_of_lt hi
    rw [h0, blockAddr_direct (by decide)]
    decide

/-- A run of `mkfs`'s image that allocates a file inode: the invariant
holds after it. -/
theorem alloc_consistent_mkfs :
    AllocInv mkfsDisk ∧ ∃ d, runOps [.ialloc T_FILE] mkfsDisk = .ok d ∧ AllocInv d :=
  have hrun : runOps [.ialloc T_FILE] mkfsDisk = .ok (Tx.claimInode ⟨mkfsDisk, []⟩ T_FILE 2).disk := rfl
  ⟨mkfsDisk_inv, _, hrun, (alloc_consistent mkfsDisk_inv hrun).1⟩

end Xv6.Fs
