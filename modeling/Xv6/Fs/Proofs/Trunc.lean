import Xv6.Fs.Proofs.Write
import Mathlib

/-!
`itrunc`, the free path of `iput`, and `ialloc`.

`itrunc` frees the blocks of an inode in three loops, each a run of
`bfree`, which changes only bitmap blocks (`BitmapOnly`): the direct
slots, zeroing each; the entries of the indirect block, which it leaves
in place; the indirect block. Seen through `Marks`, each `bfree` takes
one held block off the list, so from `Holds R ip` the truncated inode
leaves exactly `R` marked, and no `bfree` can find its bit clear
(`itrunc_spec`). `ialloc` claims a free dinode, and holds no block.
-/

namespace Xv6.Fs

open Prog Inode

/-- `s'` differs from `s` in bitmap blocks only. -/
def BitmapOnly (s s' : Tx) : Prop := ∀ x, x < bmapstart ∨ nmeta ≤ x → s'.disk x = s.disk x

theorem BitmapOnly.refl (s : Tx) : BitmapOnly s s := fun _ _ => rfl

theorem BitmapOnly.trans {s₁ s₂ s₃ : Tx} (h₁ : BitmapOnly s₁ s₂) (h₂ : BitmapOnly s₂ s₃) : BitmapOnly s₁ s₃ :=
  fun x hx => (h₂ x hx).trans (h₁ x hx)

/-- `bfree` of a block of the disk writes only its bitmap block. -/
theorem BitmapOnly.release (s : Tx) {b : Nat} (hb : b < FSSIZE) : BitmapOnly s (release s b) := fun x hx =>
  release_disk_of_ne fun he => by
    have h₁ := bmapstart_le_BBLOCK b
    have h₂ := BBLOCK_lt_nmeta hb
    omega

/-- Only the indirect block's bytes matter to the block map, and it is a
data block. -/
theorem BitmapOnly.refs_eq {s s' : Tx} {R : List Nat} {ip : Inode} (hb : BitmapOnly s s') (h : Holds R ip s) :
    refs s'.disk ip = refs s.disk ip :=
  refs_congr_disk fun hi => hb _ (.inr (h.indirect hi).1)

-- ============================================================= the slots

theorem mem_directSlots {j : Fin (NDIRECT + 1)} : j ∈ directSlots ↔ j.val < NDIRECT := by
  simp only [directSlots, List.mem_map, List.mem_finRange, true_and]
  constructor
  · rintro ⟨k, rfl⟩
    exact k.isLt
  · intro h
    exact ⟨⟨j.val, h⟩, Fin.ext rfl⟩

theorem directSlots_nodup : directSlots.Nodup :=
  List.Nodup.map (fun _ _ h => Fin.castSucc_inj.mp h) (List.nodup_finRange NDIRECT)

/-- One turn of `itrunc`'s direct loop: free the slot's block, zero the
slot. -/
theorem freeSlot_spec {R : List Nat} {ip : Inode} {s₀ : Tx} (h : Holds R ip s₀) {j : Fin (NDIRECT + 1)}
    (hj : j.val < NDIRECT) :
    Triple (· = s₀) (freeSlot ip j) (fun ip' s => ip' = ip.setAddr j 0 ∧ Holds R ip' s ∧ BitmapOnly s₀ s)
      fun _ => False := by
  have hjd : direct j.val hj = j := Fin.ext rfl
  have hb : blockAddr s₀.disk ip j.val = ip.addrs j := by rw [blockAddr_direct hj, hjd]
  have hbn : j.val < MAXFILE := by simp only [MAXFILE] at hj ⊢; omega
  rw [freeSlot]
  refine Triple.ite (fun hne => ?_) fun h0 => Triple.ret fun s hs => ?_
  · have hne' : blockAddr s₀.disk ip j.val ≠ 0 := by rw [hb]; exact hne
    have hmemD := blockAddr_mem_dataBlocks hbn hne'
    have hnR := (h.data hmemD).2.2.1
    rw [hb] at hmemD hnR
    have hmem : ip.addrs j ∈ R ++ refs s₀.disk ip := List.mem_append_right _ (mem_refs.mpr (.inr hmemD))
    refine Triple.bind (bfree_spec h hmem) fun _ => Triple.ret fun s hs => ?_
    subst hs
    have hbo := BitmapOnly.release s₀ (Marks.data h _ hmem).2
    have hba : blockAddr (release s₀ (ip.addrs j)).disk (ip.setAddr j 0) =
        Function.update (blockAddr s₀.disk ip) j.val 0 := by
      rw [← hjd]
      exact blockAddr_setAddr_direct hj fun hi => hbo _ (.inr (h.indirect hi).1)
    have hind : (ip.setAddr j 0).addrs ind = ip.addrs ind := by
      rw [setAddr_addrs, Function.update_of_ne (hjd ▸ direct_ne_ind hj).symm]
    have hperm := refs_clear hind hba hbn hne'
    rw [hb] at hperm
    -- the released block leaves `R ++ refs`, which is `R ++ ip.addrs j :: refs'`
    refine ⟨rfl, (h.release hmem).of_perm ?_, hbo⟩
    rw [List.erase_append_right _ hnR]
    exact ((hperm.erase _).trans (by rw [List.erase_cons_head])).append_left R
  · subst hs
    have h0' : ip.addrs j = 0 := not_not.mp h0
    refine ⟨?_, h, BitmapOnly.refl _⟩
    rw [setAddr, ← h0', Function.update_eq_self]

/-- `itrunc`'s direct loop. -/
theorem freeDirect_spec {R : List Nat} :
    ∀ (js : List (Fin (NDIRECT + 1))) (ip : Inode) (s₀ : Tx), (∀ j ∈ js, j.val < NDIRECT) → Holds R ip s₀ →
      Triple (· = s₀) (freeDirect ip js)
        (fun ip' s => Holds R ip' s ∧ BitmapOnly s₀ s ∧
          (ip'.addrs = fun j => if j ∈ js then 0 else ip.addrs j) ∧ ip' = { ip with addrs := ip'.addrs })
        fun _ => False := by
  intro js
  induction js with
  | nil =>
      intro ip s₀ _ h
      exact Triple.ret fun s hs => by subst hs; exact ⟨h, BitmapOnly.refl _, rfl, rfl⟩
  | cons j js ih =>
      intro ip s₀ hjs h
      rw [freeDirect]
      refine Triple.bind (freeSlot_spec h (hjs j List.mem_cons_self)) fun ip₁ => ?_
      refine Triple.pre fun s₁ hs₁ => ?_
      obtain ⟨hip, h₁, hbo⟩ := hs₁
      subst hip
      refine ((ih _ s₁ (fun j' hj' => hjs j' (List.mem_cons_of_mem _ hj')) h₁).conseq (fun _ hs => hs)
        (fun ip' s hq => ?_) fun _ => id)
      obtain ⟨h', hbo', haddrs, hfields⟩ := hq
      refine ⟨h', hbo.trans hbo', ?_, ?_⟩
      · funext j'
        rw [haddrs]
        by_cases hj' : j' = j
        · subst hj'
          simp
        · simp only [List.mem_cons, hj', false_or, setAddr_addrs, Function.update_of_ne hj']
      · rw [hfields]
        rfl

-- ======================================================= the indirect block

/-- `itrunc`'s loop over the indirect block `ind`: it reads the entries
`blk` and leaves them in place; each nonzero one leaves the marks. -/
theorem freeEntries_spec {L : List Nat} {ind : Nat} (hind : nmeta ≤ ind) {blk : Block} :
    ∀ (js : List Nat) (s₀ : Tx), s₀.disk ind = blk →
      Marks s₀.disk (L ++ (js.map (entry blk)).filter (· != 0)) →
      Triple (· = s₀) (freeEntries ind js) (fun _ s => Marks s.disk L ∧ BitmapOnly s₀ s) fun _ => False := by
  intro js
  induction js with
  | nil =>
      intro s₀ _ hm
      refine Triple.ret fun s hs => ?_
      subst hs
      simp only [List.map_nil, List.filter_nil, List.append_nil] at hm
      exact ⟨hm, BitmapOnly.refl _⟩
  | cons j js ih =>
      intro s₀ hblk hm
      rw [freeEntries]
      refine Triple.bind (R := fun a s => a = blk ∧ s = s₀)
        (Triple.intro fun s hs => by subst hs; exact ⟨hblk, rfl⟩) fun a => Triple.pre_and fun ha => ?_
      subst ha
      dsimp only
      refine Triple.ite (fun hne => ?_) fun h0 => ?_
      · -- a nonzero entry leaves the marks
        have hcons : ((j :: js).map (entry a)).filter (· != 0) = entry a j :: (js.map (entry a)).filter (· != 0) := by
          simp [hne]
        rw [hcons] at hm
        have hmem : entry a j ∈ L ++ entry a j :: (js.map (entry a)).filter (· != 0) :=
          List.mem_append_right _ List.mem_cons_self
        have hnL : entry a j ∉ L := fun hL =>
          (List.nodup_append.mp hm.nodup).2.2 _ hL _ List.mem_cons_self rfl
        refine Triple.bind (bfree_spec hm hmem) fun _ => Triple.pre fun s hs => ?_
        subst hs
        have hbo := BitmapOnly.release s₀ (Marks.data hm _ hmem).2
        have hm' := hm.release hmem
        rw [List.erase_append_right _ hnL, List.erase_cons_head] at hm'
        exact (ih _ (by rw [hbo ind (.inr hind)]; exact hblk) hm').conseq (fun _ h => h)
          (fun _ _ h' => ⟨h'.1, hbo.trans h'.2⟩) fun _ => id
      · -- a zero entry is skipped
        have hcons : ((j :: js).map (entry a)).filter (· != 0) = (js.map (entry a)).filter (· != 0) := by
          simp [not_not.mp h0]
        rw [hcons] at hm
        exact ih _ hblk hm

/-- With the direct slots empty, the data blocks are the indirect block's
nonzero entries. -/
theorem dataBlocks_of_direct_zero {d : Disk} {ip : Inode} (hdir : ∀ bn (h : bn < NDIRECT), ip.addrs (direct bn h) = 0)
    (hind : ip.addrs ind ≠ 0) :
    dataBlocks d ip = ((List.range NINDIRECT).map (entry (d (ip.addrs ind)))).filter (· != 0) := by
  rw [dataBlocks, MAXFILE, Sparse.nonzero_add, Sparse.nonzero_eq_nil fun bn h => by rw [blockAddr_direct h, hdir],
    List.nil_append, Sparse.nonzero_congr fun i hi => blockAddr_indirect (by omega) (by simp only [MAXFILE]; omega) hind]
  simp only [Nat.add_sub_cancel_left]
  rfl

/-- `itrunc`'s indirect part, once the direct slots are empty: every
block left leaves the marks. -/
theorem freeIndirect_spec {R : List Nat} {ip : Inode} {s₀ : Tx} (h : Holds R ip s₀)
    (hdir : ∀ bn (h : bn < NDIRECT), ip.addrs (direct bn h) = 0) :
    Triple (· = s₀) (freeIndirect ip) (fun ip' s => ip' = ip.setAddr ind 0 ∧ Marks s.disk R ∧ BitmapOnly s₀ s)
      fun _ => False := by
  rw [freeIndirect]
  refine Triple.ite (fun hi => ?_) fun hi => Triple.ret fun s hs => ?_
  · obtain ⟨hil, -, hiR⟩ := h.indirect hi
    -- `R ++ refs` is `(R ++ [ind]) ++` the entries
    have hm : Marks s₀.disk ((R ++ [ip.addrs ind]) ++
        ((List.range NINDIRECT).map (entry (s₀.disk (ip.addrs ind)))).filter (· != 0)) := by
      have : Holds R ip s₀ := h
      unfold Holds refs at this
      rwa [if_neg hi, dataBlocks_of_direct_zero hdir hi, ← List.append_assoc] at this
    refine Triple.bind (freeEntries_spec hil _ s₀ rfl hm) fun _ => Triple.pre fun s₁ hs₁ => ?_
    obtain ⟨hm₁, hbo₁⟩ := hs₁
    have hmem : ip.addrs ind ∈ R ++ [ip.addrs ind] := List.mem_append_right _ (List.mem_singleton_self _)
    refine Triple.bind (bfree_spec hm₁ hmem) fun _ => Triple.ret fun s hs => ?_
    subst hs
    have hm₂ := hm₁.release hmem
    rw [List.erase_append_right _ hiR, List.erase_cons_head, List.append_nil] at hm₂
    exact ⟨rfl, hm₂, hbo₁.trans (BitmapOnly.release s₁ (Marks.data hm₁ _ hmem).2)⟩
  · subst hs
    have hi' : ip.addrs ind = 0 := not_not.mp hi
    -- no indirect block and no direct one: the inode holds nothing
    have hnil : refs s.disk ip = [] := by
      rw [refs, if_pos hi', List.nil_append, dataBlocks]
      refine Sparse.nonzero_eq_nil fun bn _ => ?_
      by_cases hbn : bn < NDIRECT
      · rw [blockAddr_direct hbn, hdir]
      · exact blockAddr_of_ind_eq_zero (by omega) hi'
    have hm : Marks s.disk (R ++ refs s.disk ip) := h
    rw [hnil, List.append_nil] at hm
    refine ⟨?_, hm, BitmapOnly.refl _⟩
    rw [setAddr, ← hi', Function.update_eq_self]

/-- `itrunc` frees every block the inode holds, and cannot panic: the
inode written back has no address and size zero, and the bitmap marks
exactly `R`. -/
theorem itrunc_spec {R : List Nat} {ip : Inode} {s₀ : Tx} (h : Holds R ip s₀) :
    Triple (· = s₀) (itrunc ip)
      (fun ip' s => ip' = { ip with addrs := fun _ => 0, size := 0 } ∧
        ∃ s', Marks s'.disk R ∧ BitmapOnly s₀ s' ∧ s = s'.update ip')
      fun _ => False := by
  rw [itrunc]
  refine Triple.bind (freeDirect_spec directSlots ip s₀ (fun j hj => mem_directSlots.mp hj) h) fun ip₁ => ?_
  refine Triple.pre fun s₁ hs₁ => ?_
  obtain ⟨h₁, hbo₁, haddrs, hfields⟩ := hs₁
  have hslot : ∀ j, ip₁.addrs j = if j ∈ directSlots then 0 else ip.addrs j := fun j => by
    rw [haddrs]
  have hdir : ∀ bn (hb : bn < NDIRECT), ip₁.addrs (direct bn hb) = 0 := fun bn hb => by
    rw [hslot, if_pos (mem_directSlots.mpr hb)]
  refine Triple.bind (freeIndirect_spec h₁ hdir) fun ip₂ => Triple.intro fun s₂ hs₂ => ?_
  obtain ⟨hip₂, hm₂, hbo₂⟩ := hs₂
  subst hip₂
  simp only [bind_apply, iupdate_apply, ok_bind, pure_apply, sat_ok]
  refine ⟨?_, s₂, hm₂, hbo₁.trans hbo₂, rfl⟩
  -- every slot is empty: the direct ones by the first loop, the last by the second
  have hzero : (ip₁.setAddr ind 0).addrs = fun _ => 0 := by
    funext j
    rw [setAddr_addrs, Function.update_apply]
    split
    · rfl
    · rename_i hj
      have hlt : j.val < NDIRECT := by
        have := j.isLt
        have : j.val ≠ NDIRECT := fun he => hj (Fin.ext he)
        omega
      rw [hslot, if_pos (mem_directSlots.mpr hlt)]
  rw [hfields] at hzero ⊢
  simp only [setAddr] at hzero ⊢
  rw [hzero]

/-- The free path of `iput`: the inode is truncated, and written back
with type zero. -/
theorem ifree_spec {R : List Nat} {ip : Inode} {s₀ : Tx} (h : Holds R ip s₀) :
    Triple (· = s₀) (ifree ip)
      (fun ip' s => ip' = { ip with addrs := fun _ => 0, size := 0, type := 0 } ∧
        ∃ s', Marks s'.disk R ∧ BitmapOnly s₀ s' ∧
          s = (s'.update { ip with addrs := fun _ => 0, size := 0 }).update ip')
      fun _ => False := by
  rw [ifree]
  refine Triple.bind (itrunc_spec h) fun ip₁ => Triple.intro fun s₁ hs₁ => ?_
  obtain ⟨hip₁, s', hm, hbo, hs⟩ := hs₁
  subst hip₁ hs
  simp only [bind_apply, iupdate_apply, ok_bind, pure_apply, sat_ok]
  exact ⟨trivial, s', hm, hbo, rfl⟩

-- =================================================================== ialloc

/-- The store `ialloc` makes into the block of inode `inum`. -/
def Tx.claimInode (s : Tx) (type inum : Nat) : Tx :=
  ⟨Function.update s.disk (IBLOCK inum)
      (ByteMap.setLE (ByteMap.zero (s.disk (IBLOCK inum)) (dinodeOff inum) 64) (dinodeOff inum) 2 type),
    IBLOCK inum :: s.logged⟩

/-- `ialloc`'s loop from `inum`: it returns a free inode at or after
`inum`, having zeroed its dinode and stored the type. -/
theorem iallocFrom_spec (type : Nat) (s₀ : Tx) :
    ∀ fuel inum, Triple (· = s₀) (iallocFrom type fuel inum)
      (fun r s => inum ≤ r ∧ r < NINODES ∧ (dinode s₀.disk r).type = 0 ∧ s = s₀.claimInode type r)
      fun e => e = "ialloc: no inodes" := by
  intro fuel
  induction fuel with
  | zero => exact fun _ => Triple.fail fun _ _ => rfl
  | succ fuel ih =>
      intro inum
      rw [iallocFrom]
      refine Triple.ite (fun hlt => ?_) fun _ => Triple.fail fun _ _ => rfl
      refine Triple.bind (R := fun a s => a = s₀.disk (IBLOCK inum) ∧ s = s₀)
        (Triple.intro fun s hs => by subst hs; exact ⟨rfl, rfl⟩) fun a => Triple.pre_and fun ha => ?_
      subst ha
      refine Triple.ite (fun h0 => Triple.intro fun s hs => ?_) fun _ => ?_
      · subst hs
        simp only [bind_apply, logWrite_apply, ok_bind, pure_apply, sat_ok]
        exact ⟨le_rfl, hlt, h0, rfl⟩
      · exact (ih (inum + 1)).conseq (fun _ h => h) (fun _ _ h' => ⟨by have := h'.1; omega, h'.2⟩) fun _ => id

theorem ialloc_spec (type : Nat) (s₀ : Tx) :
    Triple (· = s₀) (ialloc type)
      (fun r s => 1 ≤ r ∧ r < NINODES ∧ (dinode s₀.disk r).type = 0 ∧ s = s₀.claimInode type r)
      fun e => e = "ialloc: no inodes" :=
  iallocFrom_spec type s₀ NINODES 1

end Xv6.Fs
