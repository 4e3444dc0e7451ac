import Xv6.Fs.Proofs.Bitmap
import Xv6.Lib.Sparse

/-!
The block map of an inode, and `bmap`.

`blockAddr d ip bn` is block `bn` of the file as `bmap` finds it
without allocating: a direct slot for `bn < NDIRECT`, an entry of the
indirect block after that, `0` for a hole. An inode holds its indirect
block and the nonzero values of that map (`refs`).

`Holds R ip s` is the bitmap invariant seen from an operation on the
locked inode `ip`: the bitmap marks the metadata, the blocks `R` of
every other inode, and the blocks of `ip`. `bmap_spec` says what one
call does from such a state: it returns the block, allocating it (and
the indirect block) where the map has a hole, keeps `Holds`, fills
only slot `bn` of the map and writes no block of `R`, no data block of
the file and nothing below the bitmap.
-/

namespace Xv6.Fs

open Prog Inode

-- ===================================================== indirect entries

theorem entry_setLE_self (blk : Block) {j v : Nat} (hv : v < 2 ^ 32) :
    entry (ByteMap.setLE blk (4 * j) 4 v) j = v :=
  ByteMap.getLE_setLE_of_lt _ (by simpa using hv)

theorem entry_setLE_of_ne (blk : Block) {j k : Nat} (v : Nat) (h : k ≠ j) :
    entry (ByteMap.setLE blk (4 * j) 4 v) k = entry blk k :=
  ByteMap.getLE_setLE_of_disjoint v (by omega)

/-- A zeroed block has no entries. -/
theorem entry_zero (blk : Block) {k : Nat} (hk : k < NINDIRECT) : entry (ByteMap.zero blk 0 BSIZE) k = 0 :=
  ByteMap.getLE_zero (Nat.zero_le _) (by simp only [NINDIRECT, BSIZE] at hk ⊢; omega)

-- ============================================================ block map

/-- Block `bn` of the file as `bmap` finds it without allocating; `0`
for a hole. -/
def blockAddr (d : Disk) (ip : Inode) (bn : Nat) : Nat :=
  if h : bn < NDIRECT then ip.addrs (direct bn h)
  else if bn < MAXFILE ∧ ip.addrs ind ≠ 0 then entry (d (ip.addrs ind)) (bn - NDIRECT)
  else 0

/-- The data blocks of the file, in file order. -/
def dataBlocks (d : Disk) (ip : Inode) : List Nat := Sparse.nonzero (blockAddr d ip) MAXFILE

/-- The blocks inode `ip` holds on `d`: its indirect block, then its
data blocks. -/
def refs (d : Disk) (ip : Inode) : List Nat :=
  (if ip.addrs ind = 0 then [] else [ip.addrs ind]) ++ dataBlocks d ip

variable {d d' : Disk} {ip ip' : Inode} {bn a : Nat}

theorem blockAddr_direct (h : bn < NDIRECT) : blockAddr d ip bn = ip.addrs (direct bn h) := dif_pos h

theorem blockAddr_indirect (h₁ : NDIRECT ≤ bn) (h₂ : bn < MAXFILE) (hind : ip.addrs ind ≠ 0) :
    blockAddr d ip bn = entry (d (ip.addrs ind)) (bn - NDIRECT) := by
  rw [blockAddr, dif_neg (by omega), if_pos ⟨h₂, hind⟩]

theorem blockAddr_of_ind_eq_zero (h₁ : NDIRECT ≤ bn) (hind : ip.addrs ind = 0) : blockAddr d ip bn = 0 := by
  rw [blockAddr, dif_neg (by omega), if_neg fun h => h.2 hind]

theorem blockAddr_of_ge (h : MAXFILE ≤ bn) : blockAddr d ip bn = 0 := by
  rw [blockAddr, dif_neg (by simp only [MAXFILE] at h; omega), if_neg fun h' => by omega]

theorem mem_dataBlocks : a ∈ dataBlocks d ip ↔ a ≠ 0 ∧ ∃ bn < MAXFILE, blockAddr d ip bn = a :=
  Sparse.mem_nonzero

theorem blockAddr_mem_dataBlocks (hbn : bn < MAXFILE) (h : blockAddr d ip bn ≠ 0) :
    blockAddr d ip bn ∈ dataBlocks d ip :=
  mem_dataBlocks.mpr ⟨h, bn, hbn, rfl⟩

theorem mem_refs : a ∈ refs d ip ↔ (ip.addrs ind ≠ 0 ∧ a = ip.addrs ind) ∨ a ∈ dataBlocks d ip := by
  simp only [refs, List.mem_append]
  split <;> simp_all

/-- Only the indirect block's bytes matter. -/
theorem blockAddr_congr_disk (hd : ip.addrs ind ≠ 0 → d' (ip.addrs ind) = d (ip.addrs ind)) :
    blockAddr d' ip = blockAddr d ip := by
  funext k
  simp only [blockAddr]
  split
  · rfl
  · split
    next h => rw [hd h.2]
    next => rfl

theorem dataBlocks_congr_disk (hd : ip.addrs ind ≠ 0 → d' (ip.addrs ind) = d (ip.addrs ind)) :
    dataBlocks d' ip = dataBlocks d ip := by
  rw [dataBlocks, blockAddr_congr_disk hd, dataBlocks]

theorem refs_congr_disk (hd : ip.addrs ind ≠ 0 → d' (ip.addrs ind) = d (ip.addrs ind)) :
    refs d' ip = refs d ip := by
  rw [refs, dataBlocks_congr_disk hd, refs]

/-- `ip->addrs[bn] = a` for a direct slot fills slot `bn` of the map. -/
theorem blockAddr_setAddr_direct (h : bn < NDIRECT) (hd : ip.addrs ind ≠ 0 → d' (ip.addrs ind) = d (ip.addrs ind)) :
    blockAddr d' (ip.setAddr (direct bn h) a) = Function.update (blockAddr d ip) bn a := by
  funext k
  have hne : direct bn h ≠ ind := direct_ne_ind h
  by_cases hk : k < NDIRECT
  · rw [blockAddr_direct hk, setAddr_addrs, Function.update_apply, Function.update_apply,
      blockAddr_direct hk]
    by_cases hkb : k = bn
    · subst hkb
      rw [if_pos rfl, if_pos rfl]
    · rw [if_neg fun he => hkb (congrArg Fin.val he), if_neg hkb]
  · rw [Function.update_of_ne (by omega)]
    have hind : (ip.setAddr (direct bn h) a).addrs ind = ip.addrs ind := by
      rw [setAddr_addrs, Function.update_of_ne hne.symm]
    rw [← @blockAddr_congr_disk _ _ ip hd]
    simp only [blockAddr, dif_neg hk, hind]

/-- `a[bn - NDIRECT] = a` in the indirect block fills slot `bn`. -/
theorem blockAddr_setEntry (hind : ip.addrs ind ≠ 0) (h₁ : NDIRECT ≤ bn) (h₂ : bn < MAXFILE) (ha : a < 2 ^ 32) :
    blockAddr (Function.update d (ip.addrs ind) (ByteMap.setLE (d (ip.addrs ind)) (4 * (bn - NDIRECT)) 4 a)) ip =
      Function.update (blockAddr d ip) bn a := by
  funext k
  by_cases hk : k < NDIRECT
  · rw [blockAddr_direct hk, Function.update_of_ne (by omega), blockAddr_direct hk]
  · by_cases hkm : k < MAXFILE
    · rw [blockAddr_indirect (by omega) hkm hind, Function.update_self]
      by_cases hkb : k = bn
      · subst hkb
        rw [Function.update_self, entry_setLE_self _ ha]
      · rw [Function.update_of_ne hkb, entry_setLE_of_ne _ _ (by omega), blockAddr_indirect (by omega) hkm hind]
    · rw [blockAddr_of_ge (by omega), Function.update_of_ne (by omega), blockAddr_of_ge (by omega)]

/-- A fresh indirect block with no entries adds no data block. -/
theorem blockAddr_setInd (h0 : ip.addrs ind = 0) {r : Nat} (hz : ∀ k < NINDIRECT, entry (d' r) k = 0) :
    blockAddr d' (ip.setAddr ind r) = blockAddr d ip := by
  funext k
  by_cases hk : k < NDIRECT
  · rw [blockAddr_direct hk, blockAddr_direct hk, setAddr_addrs, Function.update_of_ne (direct_ne_ind hk)]
  · rw [blockAddr_of_ind_eq_zero (by omega) h0]
    simp only [blockAddr, dif_neg hk, setAddr_addrs, Function.update_self]
    split
    next h => exact hz _ (by simp only [MAXFILE, NDIRECT] at h hk ⊢; omega)
    next => rfl

/-- Filling a hole of the map adds the block to what the inode holds. -/
theorem refs_fill (hind : ip'.addrs ind = ip.addrs ind)
    (hb : blockAddr d' ip' = Function.update (blockAddr d ip) bn a) (hbn : bn < MAXFILE)
    (h0 : blockAddr d ip bn = 0) (ha : a ≠ 0) : (refs d' ip').Perm (a :: refs d ip) := by
  rw [refs, refs, hind, dataBlocks, dataBlocks, hb]
  exact ((Sparse.nonzero_update_fill hbn h0 ha).append_left _).trans List.perm_middle

/-- Emptying a slot of the map removes its block from what the inode holds. -/
theorem refs_clear (hind : ip'.addrs ind = ip.addrs ind)
    (hb : blockAddr d' ip' = Function.update (blockAddr d ip) bn 0) (hbn : bn < MAXFILE)
    (hne : blockAddr d ip bn ≠ 0) : (refs d ip).Perm (blockAddr d ip bn :: refs d' ip') := by
  rw [refs, refs, hind, dataBlocks, dataBlocks, hb]
  exact ((Sparse.nonzero_update_clear hbn hne).append_left _).trans List.perm_middle

-- ===================================================== the invariant

/-- Seen from an operation on the locked inode `ip`: the bitmap marks
the metadata, the blocks `R` of the other inodes, and those of `ip`. -/
def Holds (R : List Nat) (ip : Inode) (s : Tx) : Prop := Marks s.disk (R ++ refs s.disk ip)

namespace Holds

variable {R : List Nat} {s : Tx} {x : Nat}

/-- A data block of the file is a data block of the disk, not another
inode's and not the indirect block. -/
theorem data (h : Holds R ip s) (hx : x ∈ dataBlocks s.disk ip) :
    nmeta ≤ x ∧ x < FSSIZE ∧ x ∉ R ∧ x ≠ ip.addrs ind := by
  have hmem : x ∈ R ++ refs s.disk ip := List.mem_append_right _ (mem_refs.mpr (.inr hx))
  obtain ⟨hR, hrefs, hdisj⟩ := List.nodup_append.mp (Marks.nodup h)
  refine ⟨(Marks.data h x hmem).1, (Marks.data h x hmem).2, fun hxR => hdisj x hxR x (mem_refs.mpr (.inr hx)) rfl,
    fun he => ?_⟩
  -- the indirect block comes first in `refs`, and `refs` has no duplicate
  have hi : ip.addrs ind ≠ 0 := he ▸ (mem_dataBlocks.mp hx).1
  simp only [refs, if_neg hi, List.singleton_append, List.nodup_cons] at hrefs
  exact hrefs.1 (he ▸ hx)

/-- Distinct slots of the map hold distinct blocks. -/
theorem slot_inj (h : Holds R ip s) {k k' : Nat} (hk : k < MAXFILE) (hk' : k' < MAXFILE)
    (h0 : blockAddr s.disk ip k ≠ 0) (he : blockAddr s.disk ip k = blockAddr s.disk ip k') : k = k' := by
  obtain ⟨-, hrefs, -⟩ := List.nodup_append.mp (Marks.nodup h)
  exact Sparse.eq_of_nodup (List.nodup_append.mp hrefs).2.1 hk hk' h0 he

/-- The indirect block is a data block of the disk, not another inode's. -/
theorem indirect (h : Holds R ip s) (hi : ip.addrs ind ≠ 0) :
    nmeta ≤ ip.addrs ind ∧ ip.addrs ind < FSSIZE ∧ ip.addrs ind ∉ R := by
  have hmem : ip.addrs ind ∈ refs s.disk ip := mem_refs.mpr (.inl ⟨hi, rfl⟩)
  obtain ⟨-, -, hdisj⟩ := List.nodup_append.mp (Marks.nodup h)
  have := Marks.data h _ (List.mem_append_right R hmem)
  exact ⟨this.1, this.2, fun hR => hdisj _ hR _ hmem rfl⟩

end Holds

/-- `balloc`'s claim writes only the bitmap block and the claimed block:
it keeps what lies below the bitmap and every block already held. -/
theorem Claimed.keeps {bs : List Nat} {s₀ s : Tx} {r : Nat} (hc : Claimed bs s₀ r s) {x : Nat}
    (hx : x < bmapstart ∨ x ∈ bs) (hxs : x ∈ bs → nmeta ≤ x) : s.disk x = s₀.disk x := by
  obtain ⟨hr, hrs, hn, rfl⟩ := hc
  have hb := bmapstart_le_BBLOCK r
  have hm : bmapstart < nmeta := by decide
  refine claim_disk_of_ne ?_ ?_
  · rcases hx with hx | hx
    · omega
    · exact ne_BBLOCK_of_data (hxs hx) hrs
  · rintro rfl
    rcases hx with hx | hx
    · omega
    · exact hn hx

-- ================================================================= bmap

theorem addrOrAlloc_of_ne {j : Fin (NDIRECT + 1)} (h : ip.addrs j ≠ 0) :
    addrOrAlloc ip j = pure (ip.addrs j, ip) :=
  if_neg h

/-- Where the slot is empty, `addrOrAlloc` claims a block and stores it
in the slot. -/
theorem addrOrAlloc_of_eq {bs : List Nat} {s₀ : Tx} (hm : Marks s₀.disk bs) {j : Fin (NDIRECT + 1)}
    (h : ip.addrs j = 0) :
    Triple (· = s₀) (addrOrAlloc ip j) (fun r s => r.2 = ip.setAddr j r.1 ∧ Claimed bs s₀ r.1 s)
      (OutOfBlocks bs) := by
  rw [addrOrAlloc, if_pos h]
  exact Triple.bind (balloc_spec hm) fun r => Triple.ret fun _ hs => ⟨rfl, hs⟩

/-- What `bmap ip bn` leaves, run from `s₀`, with `r` the address and
the inode it returns. -/
structure BmapPost (R : List Nat) (ip : Inode) (bn : Nat) (s₀ : Tx) (r : Nat × Inode) (s : Tx) : Prop where
  holds : Holds R r.2 s
  addr : blockAddr s.disk r.2 bn = r.1
  addr_ne : r.1 ≠ 0
  others : ∀ k, k ≠ bn → blockAddr s.disk r.2 k = blockAddr s₀.disk ip k
  fields : r.2 = { ip with addrs := r.2.addrs }
  keeps : ∀ x, x < bmapstart ∨ x ∈ R ∨ x ∈ dataBlocks s₀.disk ip → s.disk x = s₀.disk x
  mapped : blockAddr s₀.disk ip bn ≠ 0 → r.2 = ip ∧ s = s₀

/-- A block the map already has: `bmap` returns it and changes nothing. -/
theorem BmapPost.of_mapped {R : List Nat} {s₀ : Tx} (h : Holds R ip s₀) (hne : blockAddr s₀.disk ip bn ≠ 0) :
    BmapPost R ip bn s₀ (blockAddr s₀.disk ip bn, ip) s₀ where
  holds := h
  addr := rfl
  addr_ne := hne
  others _ _ := rfl
  fields := rfl
  keeps _ _ := rfl
  mapped _ := ⟨rfl, rfl⟩

/-- `bmap` of a block of the file, from a state where `Holds`: it
returns the block, allocating it where the map has a hole, and fails
only when `balloc` finds no free block. -/
theorem bmap_spec {R : List Nat} {s₀ : Tx} (h : Holds R ip s₀) (hbn : bn < MAXFILE) :
    Triple (· = s₀) (bmap ip bn) (BmapPost R ip bn s₀) fun e => e = "balloc: out of blocks" := by
  by_cases hdir : bn < NDIRECT
  · -- a direct slot
    rw [bmap, dif_pos hdir]
    by_cases h0 : ip.addrs (direct bn hdir) = 0
    · refine ((addrOrAlloc_of_eq h h0).err fun _ he => he.1).conseq (fun _ => id) ?_ fun _ => id
      rintro ⟨r, ip'⟩ s ⟨hip, hc⟩
      dsimp only at hip hc
      subst hip
      obtain ⟨hr, hrs, hn, hs⟩ := id hc
      have hkeep : ∀ x, x < bmapstart ∨ x ∈ R ++ refs s₀.disk ip → s.disk x = s₀.disk x :=
        fun x hx => hc.keeps hx fun hx' => (Marks.data h x hx').1
      have hindd : ip.addrs ind ≠ 0 → s.disk (ip.addrs ind) = s₀.disk (ip.addrs ind) := fun hi =>
        hkeep _ (.inr (List.mem_append_right _ (mem_refs.mpr (.inl ⟨hi, rfl⟩))))
      have hba := blockAddr_setAddr_direct hdir (a := r) hindd
      have hperm : (R ++ refs s.disk (ip.setAddr (direct bn hdir) r)).Perm (r :: (R ++ refs s₀.disk ip)) :=
        ((refs_fill (by rw [setAddr_addrs, Function.update_of_ne (direct_ne_ind hdir).symm]) hba hbn
          (by rw [blockAddr_direct hdir, h0]) (by have := nmeta_eq; omega)).append_left R).trans List.perm_middle
      subst hs
      exact {
        holds := (h.claim hr hrs hn).of_perm hperm.symm
        addr := by rw [hba, Function.update_self]
        addr_ne := by have := nmeta_eq; omega
        others := fun k hk => by rw [hba, Function.update_of_ne hk]
        fields := rfl
        keeps := fun x hx => hkeep x (by
          rcases hx with hx | hx | hx
          · exact .inl hx
          · exact .inr (List.mem_append_left _ hx)
          · exact .inr (List.mem_append_right _ (mem_refs.mpr (.inr hx))))
        mapped := fun hne => absurd (by rw [blockAddr_direct hdir, h0]) hne }
    · rw [addrOrAlloc_of_ne h0]
      refine Triple.ret fun s hs => ?_
      subst hs
      have := @BmapPost.of_mapped ip bn R s h (by rwa [blockAddr_direct hdir])
      rwa [blockAddr_direct hdir] at this
  · -- an entry of the indirect block
    have hk : bn - NDIRECT < NINDIRECT := by
      simp only [MAXFILE, NDIRECT, NINDIRECT, BSIZE] at hbn hdir ⊢
      omega
    have h0 : ¬ nmeta = 0 := by rw [nmeta_eq]; decide
    rw [bmap, dif_neg hdir]
    dsimp only
    rw [if_pos hk]
    by_cases hi : ip.addrs ind = 0
    · -- no indirect block yet: claim one, which comes zeroed, then the entry's block
      refine Triple.bind ((addrOrAlloc_of_eq h hi).err fun _ he => he.1) fun r =>
        Triple.pre_and fun hip => ?_
      obtain ⟨r₁, ip₁⟩ := r
      dsimp only at hip ⊢
      subst hip
      refine Triple.pre fun s₁ hc₁ => ?_
      obtain ⟨hr₁, hr₁s, hn₁, hs₁⟩ := id hc₁
      subst hs₁
      refine Triple.bind (R := fun a s => a = (claim s₀ r₁).disk r₁ ∧ s = claim s₀ r₁)
        (Triple.intro fun s hs => by subst hs; exact ⟨rfl, rfl⟩) fun a => Triple.pre_and fun ha => ?_
      subst ha
      rw [if_pos (by rw [claim_disk_self]; exact entry_zero _ hk)]
      have hm₁ := Marks.claim h hr₁ hr₁s hn₁
      refine Triple.bind ((balloc_spec hm₁).err fun _ he => he.1) fun r₂ => Triple.intro fun s hc₂ => ?_
      obtain ⟨hr₂, hr₂s, hn₂, hs₂⟩ := id hc₂
      subst hs₂
      simp only [bind_apply, logWrite_apply, ok_bind, pure_apply, sat_ok]
      have hne₁₂ : r₁ ≠ r₂ := fun he => hn₂ (he ▸ List.mem_cons_self)
      -- the new indirect block, still zero, gets entry `bn - NDIRECT`
      have hzero : ∀ k < NINDIRECT, entry ((claim (claim s₀ r₁) r₂).disk r₁) k = 0 := fun k hk' => by
        rw [claim_disk_of_ne (ne_BBLOCK_of_data hr₁ hr₂s) hne₁₂, claim_disk_self]
        exact entry_zero _ hk'
      have hind₁ : (ip.setAddr ind r₁).addrs ind = r₁ := by rw [setAddr_addrs, Function.update_self]
      have hba : blockAddr (Function.update (claim (claim s₀ r₁) r₂).disk r₁
          (ByteMap.setLE ((claim (claim s₀ r₁) r₂).disk r₁) (4 * (bn - NDIRECT)) 4 r₂)) (ip.setAddr ind r₁) =
            Function.update (blockAddr s₀.disk ip) bn r₂ := by
        have := @blockAddr_setEntry (claim (claim s₀ r₁) r₂).disk (ip.setAddr ind r₁) bn r₂
          (by rw [hind₁]; omega) (by omega) hbn (by simp only [FSSIZE] at hr₂s; omega)
        rw [hind₁] at this
        rw [this, blockAddr_setInd hi hzero]
      have hdata := Sparse.nonzero_update_fill hbn (blockAddr_of_ind_eq_zero (d := s₀.disk) (by omega) hi)
        (show r₂ ≠ 0 by omega)
      have hkeep : ∀ x, x < bmapstart ∨ x ∈ R ++ refs s₀.disk ip → x ≠ r₁ →
          (claim (claim s₀ r₁) r₂).disk x = s₀.disk x := fun x hx hx₁ => by
        have hmeta : x ∈ R ++ refs s₀.disk ip → nmeta ≤ x := fun hx' => (Marks.data h x hx').1
        rw [@Claimed.keeps (r₁ :: (R ++ refs s₀.disk ip)) _ _ _ hc₂ x (hx.imp_right (List.mem_cons_of_mem _)) fun hx' => by
          rcases List.mem_cons.mp hx' with rfl | hx'
          · exact hr₁
          · exact hmeta hx']
        exact hc₁.keeps hx hmeta
      exact {
        holds := by
          refine ((hm₁.claim hr₂ hr₂s hn₂).update_data hr₁ _).of_perm ?_
          dsimp only
          rw [List.perm_iff_count]
          intro x
          have hc := hdata.count_eq x
          simp only [refs, hind₁, if_neg (show ¬ r₁ = 0 by omega), hi, if_true, List.nil_append, dataBlocks,
            hba, List.count_append, List.count_cons, List.count_nil] at hc ⊢
          omega
        addr := by rw [hba, Function.update_self]
        addr_ne := by omega
        others := fun k hk' => by rw [hba, Function.update_of_ne hk']
        fields := rfl
        keeps := fun x hx => by
          have hx' : x < bmapstart ∨ x ∈ R ++ refs s₀.disk ip := by
            rcases hx with hx | hx | hx
            · exact .inl hx
            · exact .inr (List.mem_append_left _ hx)
            · exact .inr (List.mem_append_right _ (mem_refs.mpr (.inr hx)))
          have hx₁ : x ≠ r₁ := by
            rintro rfl
            rcases hx' with hx' | hx'
            · have : bmapstart < nmeta := by decide
              omega
            · exact hn₁ hx'
          dsimp only
          rw [Function.update_of_ne hx₁]
          exact hkeep x hx' hx₁
        mapped := fun hne => absurd (blockAddr_of_ind_eq_zero (by omega) hi) hne }
    · -- the indirect block is there: read its entry
      rw [addrOrAlloc_of_ne hi, pure_bind]
      dsimp only
      obtain ⟨hil, hils, hiR⟩ := h.indirect hi
      refine Triple.bind (R := fun a s => a = s₀.disk (ip.addrs ind) ∧ s = s₀)
        (Triple.intro fun s hs => by subst hs; exact ⟨rfl, rfl⟩) fun a => Triple.pre_and fun ha => ?_
      subst ha
      have hb : blockAddr s₀.disk ip bn = entry (s₀.disk (ip.addrs ind)) (bn - NDIRECT) :=
        blockAddr_indirect (by omega) hbn hi
      refine Triple.ite (fun he => ?_) fun he => Triple.ret fun s hs => ?_
      · -- a hole: claim the block and store it in the entry
        refine Triple.bind ((balloc_spec h).err fun _ he => he.1) fun r => Triple.intro fun s hc => ?_
        obtain ⟨hr, hrs, hn, hs⟩ := id hc
        subst hs
        simp only [bind_apply, logWrite_apply, ok_bind, pure_apply, sat_ok]
        have hindk : (claim s₀ r).disk (ip.addrs ind) = s₀.disk (ip.addrs ind) :=
          hc.keeps (.inr (List.mem_append_right _ (mem_refs.mpr (.inl ⟨hi, rfl⟩)))) fun hx => (Marks.data h _ hx).1
        have hba : blockAddr (Function.update (claim s₀ r).disk (ip.addrs ind)
            (ByteMap.setLE ((claim s₀ r).disk (ip.addrs ind)) (4 * (bn - NDIRECT)) 4 r)) ip =
              Function.update (blockAddr s₀.disk ip) bn r := by
          rw [blockAddr_setEntry hi (by omega) hbn (by simp only [FSSIZE] at hrs; omega),
            blockAddr_congr_disk fun _ => hindk]
        exact {
          holds := ((h.claim hr hrs hn).update_data hil _).of_perm
            (((refs_fill rfl hba hbn (hb.trans he) (by omega)).append_left R).trans List.perm_middle).symm
          addr := by rw [hba, Function.update_self]
          addr_ne := by omega
          others := fun k hk' => by rw [hba, Function.update_of_ne hk']
          fields := rfl
          keeps := fun x hx => by
            have hx₁ : x ≠ ip.addrs ind := by
              rintro rfl
              rcases hx with hx | hx | hx
              · have : bmapstart < nmeta := by decide
                omega
              · exact hiR hx
              · exact (h.data hx).2.2.2 rfl
            dsimp only
            rw [Function.update_of_ne hx₁]
            refine hc.keeps ?_ fun hx' => (Marks.data h x hx').1
            rcases hx with hx | hx | hx
            · exact .inl hx
            · exact .inr (List.mem_append_left _ hx)
            · exact .inr (List.mem_append_right _ (mem_refs.mpr (.inr hx)))
          mapped := fun hne => absurd (hb.trans he) hne }
      · subst hs
        rw [← hb]
        exact BmapPost.of_mapped h (by rwa [hb])

end Xv6.Fs
