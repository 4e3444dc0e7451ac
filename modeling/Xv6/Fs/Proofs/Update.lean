import Xv6.Fs.Proofs.Dir

/-!
`iupdate`'s store, and `writei` seen whole.

# The store

`iupdate` writes one dinode into its inode block, which lies below the
bitmap: it changes no bit and no data block, so an inode's blocks and
its map read the same after it (`Holds.update`, `blockAddr_update`).
The block reads back as the inode written (`dinode_update_self`), and
every other inode as before (`dinode_update_of_ne`).

# The map depends on the addresses only

The block map, and so what an inode holds, reads `addrs` and nothing
else of the inode (`blockAddr_congr_addrs`): raising the size, as
`writei` does before its `iupdate`, keeps both.

# `writei` whole

Once `writei` has written its inode back, the inode is mapped below its
new size (`WriteInv.mapped`): the bytes below the old size were, `bmap`
keeps what was mapped, and the loop mapped every byte it wrote.
-/

namespace Xv6.Fs

open Prog Inode

variable {d : Disk} {s : Tx} {ip ip' : Inode} {R : List Nat}

-- ============================================================== layout

theorem IBLOCK_lt_bmapstart {j : Nat} (hj : j < NINODES) : IBLOCK j < bmapstart := by
  simp only [IBLOCK, IPB, NINODES, BSIZE, inodestart, bmapstart, nlog, LOGSIZE, MAXOPBLOCKS,
    ninodeblocks] at hj ⊢
  omega

theorem IBLOCK_lt_nmeta {j : Nat} (hj : j < NINODES) : IBLOCK j < nmeta := by
  have := IBLOCK_lt_bmapstart hj
  rw [nmeta_eq_bmapstart_add]
  omega

/-- Two inodes of one block sit in different slots. -/
theorem mod_IPB_ne {i j : Nat} (hb : IBLOCK j = IBLOCK i) (hji : j ≠ i) : j % IPB ≠ i % IPB := by
  simp only [IBLOCK, IPB, BSIZE] at hb ⊢
  omega

-- ============================================================ the store

/-- The store leaves every block of the data region. -/
theorem update_disk_of_meta_le (hi : ip.inum < NINODES) {x : Nat} (hx : nmeta ≤ x) :
    (s.update ip).disk x = s.disk x :=
  Function.update_of_ne (by have := IBLOCK_lt_nmeta hi; omega) _ _

/-- A store into an inode block changes no bit of the bitmap. -/
theorem used_store_inode {j : Nat} (hj : j < NINODES) (blk : Block) (b : Nat) :
    used (Function.update d (IBLOCK j) blk) b = used d b :=
  used_update_of_ne (by
    have := IBLOCK_lt_bmapstart hj
    have := bmapstart_le_BBLOCK b
    omega)

theorem Marks.store_inode {bs : List Nat} (hm : Marks d bs) {j : Nat} (hj : j < NINODES) (blk : Block) :
    Marks (Function.update d (IBLOCK j) blk) bs :=
  hm.of_used fun b _ => used_store_inode hj blk b

theorem used_update_inode (hi : ip.inum < NINODES) (b : Nat) : used (s.update ip).disk b = used s.disk b :=
  used_store_inode hi _ b

theorem Marks.update_inode {bs : List Nat} (hm : Marks s.disk bs) (hi : ip.inum < NINODES) :
    Marks (s.update ip).disk bs :=
  hm.store_inode hi _

theorem blockAddr_update (h : Holds R ip' s) (hi : ip.inum < NINODES) :
    blockAddr (s.update ip).disk ip' = blockAddr s.disk ip' :=
  blockAddr_congr_disk fun hne => update_disk_of_meta_le hi (h.indirect hne).1

theorem refs_update (h : Holds R ip' s) (hi : ip.inum < NINODES) :
    refs (s.update ip).disk ip' = refs s.disk ip' :=
  refs_congr_disk fun hne => update_disk_of_meta_le hi (h.indirect hne).1

theorem Holds.update (h : Holds R ip' s) (hi : ip.inum < NINODES) : Holds R ip' (s.update ip) := by
  unfold Holds
  rw [refs_update h hi]
  exact Marks.update_inode h hi

/-- The store leaves every byte of a file. -/
theorem byteAt_update (h : Holds R ip' s) (hi : ip.inum < NINODES) (k : Nat) :
    byteAt (s.update ip).disk ip' k = byteAt s.disk ip' k := by
  unfold byteAt
  rw [blockAddr_update h hi]
  by_cases h0 : blockAddr s.disk ip' (k / BSIZE) = 0
  · -- a hole reads block zero, which is not an inode block
    have hne : (0 : Nat) ≠ IBLOCK ip.inum := by
      have : 0 < inodestart := by decide
      exact Nat.ne_of_lt (Nat.lt_of_lt_of_le this (Nat.le_add_left _ _))
    have h0' : (s.update ip).disk 0 = s.disk 0 :=
      Function.update_of_ne hne (putDinode (s.disk (IBLOCK ip.inum)) ip) s.disk
    rw [h0, h0']
  · have hbn : k / BSIZE < MAXFILE := Nat.lt_of_not_le fun hge => h0 (blockAddr_of_ge hge)
    rw [update_disk_of_meta_le hi (h.data (blockAddr_mem_dataBlocks hbn h0)).1]

theorem dinode_update_self (hf : ip.Fits) : dinode (s.update ip).disk ip.inum = ip := by
  unfold dinode Tx.update
  dsimp only
  rw [Function.update_self, getDinode_putDinode _ hf]

theorem dinode_update_of_ne {j : Nat} (hj : j ≠ ip.inum) : dinode (s.update ip).disk j = dinode s.disk j := by
  unfold dinode Tx.update
  dsimp only
  by_cases hb : IBLOCK j = IBLOCK ip.inum
  · -- the same block, another slot
    rw [hb, Function.update_self, getDinode_putDinode_of_ne _ _ (mod_IPB_ne hb hj)]
  · rw [Function.update_of_ne hb]

-- ============================================================ addresses

theorem blockAddr_congr_addrs (h : ip'.addrs = ip.addrs) : blockAddr d ip' = blockAddr d ip := by
  funext bn
  simp only [blockAddr, h]

theorem refs_congr_addrs (h : ip'.addrs = ip.addrs) : refs d ip' = refs d ip := by
  rw [refs, refs, dataBlocks, dataBlocks, blockAddr_congr_addrs h, h]

theorem byteAt_congr_addrs (h : ip'.addrs = ip.addrs) : byteAt d ip' = byteAt d ip := by
  funext k
  rw [byteAt, byteAt, blockAddr_congr_addrs h]

/-- An inode with no address holds nothing. -/
theorem refs_of_addrs_zero (h : ip.addrs = fun _ => 0) : refs d ip = [] := by
  rw [refs, h, if_pos rfl, List.nil_append, dataBlocks]
  refine Sparse.nonzero_eq_nil fun bn _ => ?_
  by_cases hbn : bn < NDIRECT
  · rw [blockAddr_direct hbn, h]
  · exact blockAddr_of_ind_eq_zero (by omega) (by rw [h])

theorem Mapped.of_size_zero (h : ip.size = 0) : Mapped d ip :=
  ⟨by rw [h]; exact Nat.zero_le _, fun k hk => absurd hk (by rw [h]; exact Nat.not_lt_zero k)⟩

/-- Every address of an inode is a block of the disk. -/
theorem Holds.addr_lt (h : Holds R ip s) (j : Fin (NDIRECT + 1)) : ip.addrs j < FSSIZE := by
  by_cases h0 : ip.addrs j = 0
  · rw [h0]
    decide
  by_cases hj : j = ind
  · subst hj
    exact (h.indirect h0).2.1
  · -- a direct slot is the map's entry for its block
    have hlt : j.val < NDIRECT := by
      have := j.isLt
      have : j.val ≠ NDIRECT := fun he => hj (Fin.ext he)
      omega
    have hd : blockAddr s.disk ip j.val = ip.addrs j := blockAddr_direct hlt
    have hmem : blockAddr s.disk ip j.val ∈ dataBlocks s.disk ip :=
      blockAddr_mem_dataBlocks (by simp only [MAXFILE] at hlt ⊢; omega) (hd ▸ h0)
    rw [← hd]
    exact (h.data hmem).2.1

theorem grownTo_eq (ip : Inode) (off : Nat) : grownTo ip off = { ip with size := max ip.size off } := by
  unfold grownTo
  split
  · rw [max_eq_right (by omega)]
  · rw [max_eq_left (by omega)]

@[simp] theorem grownTo_addrs (ip : Inode) (off : Nat) : (grownTo ip off).addrs = ip.addrs := by
  rw [grownTo_eq]

@[simp] theorem grownTo_inum (ip : Inode) (off : Nat) : (grownTo ip off).inum = ip.inum := by
  rw [grownTo_eq]

@[simp] theorem grownTo_type (ip : Inode) (off : Nat) : (grownTo ip off).type = ip.type := by
  rw [grownTo_eq]

@[simp] theorem grownTo_size (ip : Inode) (off : Nat) : (grownTo ip off).size = max ip.size off := by
  rw [grownTo_eq]

-- ============================================================ writei whole

namespace WriteInv

variable {src : Nat → Option UInt8} {n off₀ tot off : Nat} {s₀ : Tx} {ip₀ : Inode}

/-- The inode `writei` writes back is mapped below its new size. -/
theorem mapped (hw : WriteInv R src n s₀ ip₀ off₀ ip tot off s) (hm : Mapped s₀.disk ip₀)
    (hoff : off₀ ≤ ip₀.size) (hmax : off₀ + n ≤ MAXFILE * BSIZE) : Mapped s.disk (grownTo ip off) := by
  have hsize : ip.size = ip₀.size := by rw [hw.fields]
  have hoff' := hw.off_eq
  have htot := hw.tot_le
  refine ⟨?_, fun i hi => ?_⟩
  · rw [grownTo_size, hsize]
    have := hm.size_le
    omega
  rw [grownTo_size, hsize] at hi
  rw [blockAddr_congr_addrs (grownTo_addrs ip off)]
  by_cases hw₁ : off₀ ≤ i ∧ i < off
  · -- a byte the loop wrote
    exact hw.covered i hw₁.1 hw₁.2
  · -- a byte below the old size, mapped before and kept so by `bmap`
    have hlt : i < ip₀.size := by omega
    have h₀ := hm.mapped i hlt
    rw [hw.grows _ h₀]
    exact h₀

/-- The inode written back holds its blocks after its `iupdate`. -/
theorem holds_written (hw : WriteInv R src n s₀ ip₀ off₀ ip tot off s) (hi : ip.inum < NINODES) :
    Holds R (grownTo ip off) (s.update (grownTo ip off)) := by
  have h : Holds R (grownTo ip off) s := by
    unfold Holds
    rw [refs_congr_addrs (grownTo_addrs ip off)]
    exact hw.holds
  exact h.update (by rw [grownTo_inum]; exact hi)

/-- The inode written back maps every byte below its size after its
`iupdate`. -/
theorem mapped_written (hw : WriteInv R src n s₀ ip₀ off₀ ip tot off s) (hm : Mapped s₀.disk ip₀)
    (hoff : off₀ ≤ ip₀.size) (hmax : off₀ + n ≤ MAXFILE * BSIZE) (hi : ip.inum < NINODES) :
    Mapped (s.update (grownTo ip off)).disk (grownTo ip off) := by
  have hmapped := hw.mapped hm hoff hmax
  have h : Holds R (grownTo ip off) s := by
    unfold Holds
    rw [refs_congr_addrs (grownTo_addrs ip off)]
    exact hw.holds
  refine ⟨hmapped.size_le, fun k hk => ?_⟩
  rw [blockAddr_update h (by rw [grownTo_inum]; exact hi)]
  exact hmapped.mapped k hk

/-- Every address of the inode `writei` writes back fits its field. -/
theorem fits (hw : WriteInv R src n s₀ ip₀ off₀ ip tot off s) (hf : ip₀.Fits) (hm : Mapped s₀.disk ip₀)
    (hmax : off₀ + n ≤ MAXFILE * BSIZE) : (grownTo ip off).Fits := by
  have hfields := hw.fields
  have hty : ip.type = ip₀.type := by rw [hfields]
  have hma : ip.major = ip₀.major := by rw [hfields]
  have hmi : ip.minor = ip₀.minor := by rw [hfields]
  have hnl : ip.nlink = ip₀.nlink := by rw [hfields]
  have hsize : ip.size = ip₀.size := by rw [hfields]
  have hoff' := hw.off_eq
  have htot := hw.tot_le
  have hsz := hm.size_le
  rw [grownTo_eq]
  refine ⟨?_, ?_, ?_, ?_, ?_, fun j => ?_⟩ <;> dsimp only
  · rw [hty]; exact hf.type
  · rw [hma]; exact hf.major
  · rw [hmi]; exact hf.minor
  · rw [hnl]; exact hf.nlink
  · rw [hsize]
    simp only [MAXFILE, NDIRECT, NINDIRECT, BSIZE] at hsz hmax ⊢
    omega
  · have := hw.holds.addr_lt j
    simp only [FSSIZE] at this
    omega

end WriteInv

end Xv6.Fs
