import Xv6.Param

/-!
The on-disk format of `fs.h`, and the in-memory inode of `file.h`.

# Inodes

A `struct dinode` is 64 bytes: `type`, `major`, `minor` and `nlink` as
two-byte `short`s, then `size` and the thirteen `addrs` as four-byte
`uint`s, all little-endian. Inode `inum` sits at slot `inum % IPB` of
block `IBLOCK(inum)`. The model keeps a `short` as its bit pattern: it
is only compared with constants and stored back.

`iupdate` stores every field and `ilock` reads every field, so an
inode whose fields fit their widths reads back as written
(`getDinode_putDinode`), and a store leaves the other inodes of the
block alone (`getDinode_putDinode_of_ne`).

# The free bitmap

Block `b` is marked in use by bit `b % BPB` of block `BBLOCK(b)`.

# Indirect blocks

An indirect block is an array of `NINDIRECT` four-byte block numbers.
-/

namespace Xv6

/-- `T_DIR`, `T_FILE`, `T_DEVICE` of `stat.h`. -/
def T_DIR : Nat := 1
def T_FILE : Nat := 2
def T_DEVICE : Nat := 3

/-- `IBLOCK(i, sb)`: the block holding inode `i`. -/
def IBLOCK (i : Nat) : Nat := i / IPB + inodestart

/-- `BBLOCK(b, sb)`: the bitmap block holding block `b`'s bit. -/
def BBLOCK (b : Nat) : Nat := b / BPB + bmapstart

/-- `struct inode`'s copy of the disk inode, and its number. The inode
is on `ROOTDEV`; `ref`, `valid` and the sleep-lock belong to the inode
table. -/
structure Inode where
  inum : Nat
  type : Nat
  major : Nat
  minor : Nat
  nlink : Nat
  size : Nat
  addrs : Fin (NDIRECT + 1) → Nat

namespace Inode

/-- The slot of the indirect block, `addrs[NDIRECT]`. -/
def ind : Fin (NDIRECT + 1) := Fin.last NDIRECT

/-- Direct slot `bn`, for `bn < NDIRECT`. -/
def direct (bn : Nat) (h : bn < NDIRECT) : Fin (NDIRECT + 1) := ⟨bn, Nat.lt_succ_of_lt h⟩

/-- `ip->addrs[j] = a`. -/
def setAddr (ip : Inode) (j : Fin (NDIRECT + 1)) (a : Nat) : Inode :=
  { ip with addrs := Function.update ip.addrs j a }

/-- Every field fits the width the disk stores. -/
structure Fits (ip : Inode) : Prop where
  type : ip.type < 2 ^ 16
  major : ip.major < 2 ^ 16
  minor : ip.minor < 2 ^ 16
  nlink : ip.nlink < 2 ^ 16
  size : ip.size < 2 ^ 32
  addrs : ∀ j, ip.addrs j < 2 ^ 32

@[simp] theorem setAddr_addrs (ip : Inode) (j : Fin (NDIRECT + 1)) (a : Nat) :
    (ip.setAddr j a).addrs = Function.update ip.addrs j a := rfl
@[simp] theorem setAddr_inum (ip : Inode) (j : Fin (NDIRECT + 1)) (a : Nat) :
    (ip.setAddr j a).inum = ip.inum := rfl
@[simp] theorem setAddr_size (ip : Inode) (j : Fin (NDIRECT + 1)) (a : Nat) :
    (ip.setAddr j a).size = ip.size := rfl
@[simp] theorem setAddr_type (ip : Inode) (j : Fin (NDIRECT + 1)) (a : Nat) :
    (ip.setAddr j a).type = ip.type := rfl
@[simp] theorem setAddr_nlink (ip : Inode) (j : Fin (NDIRECT + 1)) (a : Nat) :
    (ip.setAddr j a).nlink = ip.nlink := rfl

theorem direct_ne_ind {bn : Nat} (h : bn < NDIRECT) : direct bn h ≠ ind := by
  intro he
  have := congrArg Fin.val he
  simp only [direct, ind, Fin.val_last] at this
  omega

end Inode

-- ================================================== the dinode bytes

/-- Byte offset of inode `inum`'s dinode in its block. -/
def dinodeOff (inum : Nat) : Nat := inum % IPB * 64

/-- The dinode at slot `inum % IPB` ends inside the block. -/
theorem dinodeOff_add_le (inum : Nat) : dinodeOff inum + 64 ≤ BSIZE := by
  have := Nat.mod_lt inum (show 0 < IPB by decide)
  simp only [dinodeOff, IPB, BSIZE] at this ⊢
  omega

/-- `memmove(dip->addrs, ip->addrs, sizeof(ip->addrs))`, entry by
entry: entry `j` is the four bytes at `o + 12 + 4 * j`. -/
@[grind] def putAddrs (o : Nat) (addrs : Fin (NDIRECT + 1) → Nat) : Block → List (Fin (NDIRECT + 1)) → Block
  | b, [] => b
  | b, j :: js => putAddrs o addrs (ByteMap.setLE b (o + 12 + 4 * j.val) 4 (addrs j)) js

/-- `iupdate`'s stores into the block holding the inode. -/
def putDinode (b : Block) (ip : Inode) : Block :=
  let o := dinodeOff ip.inum
  let b := ByteMap.setLE b o 2 ip.type
  let b := ByteMap.setLE b (o + 2) 2 ip.major
  let b := ByteMap.setLE b (o + 4) 2 ip.minor
  let b := ByteMap.setLE b (o + 6) 2 ip.nlink
  let b := ByteMap.setLE b (o + 8) 4 ip.size
  putAddrs o ip.addrs b (List.finRange (NDIRECT + 1))

/-- `ilock`'s reads of the fields of inode `inum` from its block. -/
def getDinode (b : Block) (inum : Nat) : Inode where
  inum := inum
  type := ByteMap.getLE b (dinodeOff inum) 2
  major := ByteMap.getLE b (dinodeOff inum + 2) 2
  minor := ByteMap.getLE b (dinodeOff inum + 4) 2
  nlink := ByteMap.getLE b (dinodeOff inum + 6) 2
  size := ByteMap.getLE b (dinodeOff inum + 8) 4
  addrs := fun j => ByteMap.getLE b (dinodeOff inum + 12 + 4 * j.val) 4

/-- Inode `inum` as the disk holds it. -/
def dinode (d : Disk) (inum : Nat) : Inode := getDinode (d (IBLOCK inum)) inum

/-- Entries outside the list are left alone. -/
theorem putAddrs_apply {o : Nat} {addrs : Fin (NDIRECT + 1) → Nat} {i : Nat} :
    ∀ {b : Block} {js : List (Fin (NDIRECT + 1))},
      (∀ j ∈ js, i < o + 12 + 4 * j.val ∨ o + 12 + 4 * j.val + 4 ≤ i) → putAddrs o addrs b js i = b i
  | _, [], _ => rfl
  | b, j :: js, h => by
      rw [putAddrs, putAddrs_apply fun j' hj' => h j' (List.mem_cons_of_mem _ hj'),
        ByteMap.setLE_apply_of_not_mem _ (h j List.mem_cons_self)]

theorem putAddrs_apply_of_not_mem {o : Nat} {addrs : Fin (NDIRECT + 1) → Nat} {i : Nat} {b : Block}
    {js : List (Fin (NDIRECT + 1))} (h : i < o + 12 ∨ o + 64 ≤ i) : putAddrs o addrs b js i = b i :=
  putAddrs_apply fun j _ => by
    have := j.isLt
    simp only [NDIRECT] at this
    omega

/-- Entry `j` reads back what the one store of it put there. -/
theorem getLE_putAddrs {o : Nat} {addrs : Fin (NDIRECT + 1) → Nat} {j : Fin (NDIRECT + 1)} :
    ∀ {b : Block} {js : List (Fin (NDIRECT + 1))}, j ∈ js → js.Nodup →
      ByteMap.getLE (putAddrs o addrs b js) (o + 12 + 4 * j.val) 4 = addrs j % 256 ^ 4
  | _, [], hj, _ => absurd hj List.not_mem_nil
  | b, j' :: js, hj, hnd => by
      rw [putAddrs]
      obtain ⟨hnot, hnd'⟩ := List.nodup_cons.mp hnd
      by_cases hjj : j = j'
      · subst hjj
        -- the later stores are of other entries
        rw [ByteMap.getLE_congr (ByteMap.setLE b (o + 12 + 4 * j.val) 4 (addrs j)) fun i h1 h2 =>
          putAddrs_apply fun j'' hj'' => ?_]
        · exact ByteMap.getLE_setLE _ _ _ _
        · have hne : j''.val ≠ j.val := fun he => hnot (Fin.ext he ▸ hj'')
          omega
      · exact getLE_putAddrs (List.mem_of_ne_of_mem hjj hj) hnd'

/-- A store of an inode changes only its 64 bytes. -/
theorem putDinode_apply_of_not_mem {b : Block} {ip : Inode} {i : Nat}
    (h : i < dinodeOff ip.inum ∨ dinodeOff ip.inum + 64 ≤ i) : putDinode b ip i = b i := by
  simp only [putDinode]
  rw [putAddrs_apply_of_not_mem (by omega)]
  repeat rw [ByteMap.setLE_apply_of_not_mem _ (by omega)]

/-- `ilock` after `iupdate` reads the inode written, when its fields
fit. -/
theorem getDinode_putDinode (b : Block) {ip : Inode} (hf : ip.Fits) :
    getDinode (putDinode b ip) ip.inum = ip := by
  set o := dinodeOff ip.inum with ho
  have hnd : (List.finRange (NDIRECT + 1)).Nodup := List.nodup_finRange _
  -- the five scalar fields are stored before the addresses, which do not overlap them
  have hscalar : ∀ off k, off + k ≤ o + 12 → ∀ b', ByteMap.getLE (putAddrs o ip.addrs b'
      (List.finRange (NDIRECT + 1))) off k = ByteMap.getLE b' off k := fun off k hk b' =>
    ByteMap.getLE_congr b' fun i _ hi => putAddrs_apply_of_not_mem (by omega)
  have hl : ∀ v k, v < 2 ^ (8 * k) → v < 256 ^ k := fun v k hv => by
    rwa [show (256 : Nat) ^ k = 2 ^ (8 * k) by rw [pow_mul]; rfl]
  cases ip with
  | mk inum type major minor nlink size addrs =>
      simp only [getDinode, putDinode, ← ho]
      obtain ⟨ht, hma, hmi, hn, hs, ha⟩ := hf
      refine Inode.mk.injEq .. ▸ ⟨rfl, ?_, ?_, ?_, ?_, ?_, ?_⟩
      · rw [hscalar _ _ (by omega)]
        repeat rw [ByteMap.getLE_setLE_of_disjoint _ (by omega)]
        exact ByteMap.getLE_setLE_of_lt _ (hl _ 2 ht)
      · rw [hscalar _ _ (by omega)]
        repeat rw [ByteMap.getLE_setLE_of_disjoint _ (by omega)]
        exact ByteMap.getLE_setLE_of_lt _ (hl _ 2 hma)
      · rw [hscalar _ _ (by omega)]
        repeat rw [ByteMap.getLE_setLE_of_disjoint _ (by omega)]
        exact ByteMap.getLE_setLE_of_lt _ (hl _ 2 hmi)
      · rw [hscalar _ _ (by omega), ByteMap.getLE_setLE_of_disjoint _ (by omega)]
        exact ByteMap.getLE_setLE_of_lt _ (hl _ 2 hn)
      · rw [hscalar _ _ (by omega)]
        exact ByteMap.getLE_setLE_of_lt _ (hl _ 4 hs)
      · funext j
        rw [getLE_putAddrs (List.mem_finRange j) hnd, Nat.mod_eq_of_lt (hl _ 4 (ha j))]

/-- A read of inode `inum` depends only on its 64 bytes. -/
theorem getDinode_congr {b b' : Block} {inum : Nat}
    (h : ∀ i, dinodeOff inum ≤ i → i < dinodeOff inum + 64 → b' i = b i) :
    getDinode b' inum = getDinode b inum := by
  have hread : ∀ off k, dinodeOff inum ≤ off → off + k ≤ dinodeOff inum + 64 →
      ByteMap.getLE b' off k = ByteMap.getLE b off k := fun off k h1 h2 =>
    ByteMap.getLE_congr b fun i hi1 hi2 => h i (by omega) (by omega)
  simp only [getDinode]
  congr 1
  · exact hread _ _ le_rfl (by omega)
  · exact hread _ _ (by omega) (by omega)
  · exact hread _ _ (by omega) (by omega)
  · exact hread _ _ (by omega) (by omega)
  · exact hread _ _ (by omega) (by omega)
  · funext j
    have := j.isLt
    simp only [NDIRECT] at this
    exact hread _ _ (by omega) (by omega)

/-- A store of one inode leaves every other inode of the block. -/
theorem getDinode_putDinode_of_ne (b : Block) (ip : Inode) {inum : Nat}
    (h : inum % IPB ≠ ip.inum % IPB) : getDinode (putDinode b ip) inum = getDinode b inum := by
  -- two slots of one block are 64 bytes apart
  refine getDinode_congr fun i h1 h2 => putDinode_apply_of_not_mem ?_
  simp only [dinodeOff] at h1 h2 ⊢
  rcases Nat.lt_or_gt_of_ne h with hlt | hlt <;> omega

theorem getDinode_inum (b : Block) (inum : Nat) : (getDinode b inum).inum = inum := rfl

/-- Every field read from the disk fits its width. -/
theorem getDinode_fits (b : Block) (inum : Nat) : (getDinode b inum).Fits where
  type := ByteMap.getLE_lt _ _ 2
  major := ByteMap.getLE_lt _ _ 2
  minor := ByteMap.getLE_lt _ _ 2
  nlink := ByteMap.getLE_lt _ _ 2
  size := ByteMap.getLE_lt _ _ 4
  addrs := fun _ => ByteMap.getLE_lt _ _ 4

-- ====================================================== the bitmap

/-- Whether the bitmap marks block `b` in use. -/
def used (d : Disk) (b : Nat) : Bool := ByteMap.bit (d (BBLOCK b)) (b % BPB)

-- ================================================= indirect blocks

/-- Entry `j` of an indirect block, `((uint*)bp->data)[j]`. -/
def entry (blk : Block) (j : Nat) : Nat := ByteMap.getLE blk (4 * j) 4

end Xv6
