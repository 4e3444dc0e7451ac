import Xv6.Fs.Inode
import Xv6.Lib.Prog

/-!
The free bitmap and the two functions that change it.

`Marks d bs` says that the bitmap of `d` marks in use exactly the
metadata blocks and the blocks of `bs`, distinct data blocks: the
blocks the inodes hold, at the top level, and in the middle of an
operation also the ones it has claimed and not yet stored.

`balloc` claims a block that `bs` does not hold, sets its bit and
zeroes it (`balloc_spec`); it fails only when `bs` holds every data
block. `bfree` of a held block clears its bit (`bfree_spec`), and of a
free block panics (`bfree_of_free`). Both leave every block but the
bitmap block and the claimed one alone.
-/

namespace Xv6.Fs

open Prog

-- ============================================================ geometry

theorem nmeta_eq_bmapstart_add : nmeta = bmapstart + nbitmap := rfl

theorem bmapstart_le_BBLOCK (b : Nat) : bmapstart ≤ BBLOCK b := Nat.le_add_left _ _

/-- The bitmap blocks are the last metadata blocks. -/
theorem BBLOCK_lt_nmeta {b : Nat} (h : b < FSSIZE) : BBLOCK b < nmeta := by
  have : b / BPB ≤ FSSIZE / BPB := Nat.div_le_div_right h.le
  simp only [BBLOCK, nmeta_eq_bmapstart_add, nbitmap, BPB] at this ⊢
  omega

/-- Block `b + bi` of the turn starting at `b` has its bit in the same
bitmap block, at position `bi`. -/
theorem BBLOCK_add {b bi : Nat} (hb : b % BPB = 0) (hbi : bi < BPB) : BBLOCK (b + bi) = BBLOCK b := by
  simp only [BBLOCK, BPB, BSIZE] at hb hbi ⊢
  omega

theorem add_mod_BPB {b bi : Nat} (hb : b % BPB = 0) (hbi : bi < BPB) : (b + bi) % BPB = bi := by
  rw [Nat.add_mod, hb, Nat.zero_add, Nat.mod_mod, Nat.mod_eq_of_lt hbi]

/-- Two blocks with one bitmap block and one position are one block. -/
theorem eq_of_BBLOCK {x r : Nat} (hb : BBLOCK x = BBLOCK r) (hm : x % BPB = r % BPB) : x = r := by
  simp only [BBLOCK, Nat.add_right_cancel_iff] at hb
  rw [← Nat.div_add_mod x BPB, ← Nat.div_add_mod r BPB, hb, hm]

-- ========================================================= the bitmap

/-- A store into a block other than `b`'s bitmap block keeps `b`'s bit. -/
theorem used_update_of_ne {d : Disk} {x b : Nat} {blk : Block} (h : x ≠ BBLOCK b) :
    used (Function.update d x blk) b = used d b := by
  simp only [used, Function.update_of_ne h.symm]

/-- A data block is no block's bitmap block. -/
theorem ne_BBLOCK_of_data {x b : Nat} (hx : nmeta ≤ x) (hb : b < FSSIZE) : x ≠ BBLOCK b :=
  Nat.ne_of_gt (Nat.lt_of_lt_of_le (BBLOCK_lt_nmeta hb) hx)

theorem used_setBit (d : Disk) (r b : Nat) :
    used (Function.update d (BBLOCK r) (ByteMap.setBit (d (BBLOCK r)) (r % BPB))) b =
      (used d b || decide (b = r)) := by
  by_cases hb : BBLOCK b = BBLOCK r
  · simp only [used, hb, Function.update_self, ByteMap.bit_setBit]
    congr 1
    exact decide_eq_decide.mpr ⟨fun h => eq_of_BBLOCK hb h, fun h => by rw [h]⟩
  · rw [used_update_of_ne (Ne.symm hb), decide_eq_false fun h => hb (by rw [h]), Bool.or_false]

theorem used_clearBit (d : Disk) (r b : Nat) :
    used (Function.update d (BBLOCK r) (ByteMap.clearBit (d (BBLOCK r)) (r % BPB))) b =
      (used d b && !decide (b = r)) := by
  by_cases hb : BBLOCK b = BBLOCK r
  · simp only [used, hb, Function.update_self, ByteMap.bit_clearBit]
    congr 2
    exact decide_eq_decide.mpr ⟨fun h => eq_of_BBLOCK hb h, fun h => by rw [h]⟩
  · rw [used_update_of_ne (Ne.symm hb), decide_eq_false fun h => hb (by rw [h]), Bool.not_false,
      Bool.and_true]

/-- The bitmap marks in use exactly the metadata blocks and the blocks of
`bs`, which are distinct data blocks. -/
structure Marks (d : Disk) (bs : List Nat) : Prop where
  nodup : bs.Nodup
  data : ∀ b ∈ bs, nmeta ≤ b ∧ b < FSSIZE
  bit : ∀ b < FSSIZE, used d b = true ↔ b < nmeta ∨ b ∈ bs

namespace Marks

variable {d d' : Disk} {bs bs' : List Nat}

theorem of_perm (h : Marks d bs) (hp : bs.Perm bs') : Marks d bs' where
  nodup := hp.nodup_iff.mp h.nodup
  data b hb := h.data b (hp.mem_iff.mpr hb)
  bit b hb := (h.bit b hb).trans (or_congr_right hp.mem_iff)

/-- Only the bitmap matters. -/
theorem of_used (h : Marks d bs) (he : ∀ b < FSSIZE, Xv6.used d' b = Xv6.used d b) : Marks d' bs where
  nodup := h.nodup
  data := h.data
  bit b hb := by rw [he b hb]; exact h.bit b hb

/-- A store into a data block keeps the marks. -/
theorem update_data (h : Marks d bs) {x : Nat} (hx : nmeta ≤ x) (blk : Block) :
    Marks (Function.update d x blk) bs :=
  h.of_used fun _ hb => used_update_of_ne (ne_BBLOCK_of_data hx hb)

/-- A free data block is not held. -/
theorem not_mem_of_free (h : Marks d bs) {b : Nat} (hb : b < FSSIZE) (hf : Xv6.used d b = false) :
    nmeta ≤ b ∧ b ∉ bs := by
  have := (h.bit b hb).not
  rw [hf] at this
  simp only [Bool.false_eq_true, not_false_eq_true, not_or, true_iff] at this
  exact ⟨Nat.le_of_not_lt this.1, this.2⟩

theorem used_of_mem (h : Marks d bs) {b : Nat} (hb : b ∈ bs) : Xv6.used d b = true :=
  (h.bit b (h.data b hb).2).mpr (.inr hb)

end Marks

-- ================================================================ balloc

/-- The transaction after `balloc` returns block `r`: `r`'s bit set, and
`r` zeroed. `log_write` got the bitmap block, then `r`. -/
def claim (s : Tx) (r : Nat) : Tx where
  disk := Function.update (Function.update s.disk (BBLOCK r) (ByteMap.setBit (s.disk (BBLOCK r)) (r % BPB)))
    r (ByteMap.zero (s.disk r) 0 BSIZE)
  logged := r :: BBLOCK r :: s.logged

theorem claim_disk_of_ne {s : Tx} {r x : Nat} (h₁ : x ≠ BBLOCK r) (h₂ : x ≠ r) :
    (claim s r).disk x = s.disk x := by
  simp only [claim, Function.update_of_ne h₂, Function.update_of_ne h₁]

theorem claim_disk_self (s : Tx) (r : Nat) : (claim s r).disk r = ByteMap.zero (s.disk r) 0 BSIZE :=
  Function.update_self ..

/-- The claimed block joins the marked ones. -/
theorem Marks.claim {s : Tx} {bs : List Nat} (h : Marks s.disk bs) {r : Nat} (hr : nmeta ≤ r)
    (hrs : r < FSSIZE) (hn : r ∉ bs) : Marks (claim s r).disk (r :: bs) where
  nodup := List.nodup_cons.mpr ⟨hn, h.nodup⟩
  data b hb := by
    rcases List.mem_cons.mp hb with rfl | hb
    · exact ⟨hr, hrs⟩
    · exact h.data b hb
  bit b hb := by
    rw [Fs.claim, used_update_of_ne (ne_BBLOCK_of_data hr hb), used_setBit, Bool.or_eq_true,
      h.bit b hb, decide_eq_true_iff, List.mem_cons]
    tauto

/-- What `balloc` returns: a data block nobody holds, with the state
after claiming it. -/
def Claimed (bs : List Nat) (s₀ : Tx) (r : Nat) (s : Tx) : Prop :=
  nmeta ≤ r ∧ r < FSSIZE ∧ r ∉ bs ∧ s = claim s₀ r

/-- Why `balloc` fails: every data block is held. -/
def OutOfBlocks (bs : List Nat) (e : String) : Prop :=
  e = "balloc: out of blocks" ∧ ∀ x, nmeta ≤ x → x < FSSIZE → x ∈ bs

/-- A clear bit `freeBit` finds is at a block of the disk. -/
theorem freeBit_some {data : Block} {b bi : Nat} (h : freeBit data b = some bi) :
    bi < BPB ∧ b + bi < FSSIZE ∧ ByteMap.bit data bi = false := by
  obtain ⟨hp, hr, -⟩ := List.find?_range_eq_some.mp h
  rw [ByteMap.test_eq_not_bit, Bool.not_eq_true'] at hp
  have := List.mem_range.mp hr
  exact ⟨by omega, by omega, hp⟩

/-- When `freeBit` finds nothing, every bit of the turn is set. -/
theorem freeBit_none {data : Block} {b : Nat} (h : freeBit data b = none) {bi : Nat} (hbi : bi < BPB)
    (hb : b + bi < FSSIZE) : ByteMap.bit data bi = true := by
  have := List.find?_eq_none.mp h bi (List.mem_range.mpr (by omega))
  rwa [ByteMap.test_eq_not_bit, Bool.not_eq_true', Bool.not_eq_false] at this

/-- `balloc`'s loop from the bitmap block of `b`, when every data block
below `b` is held. -/
theorem ballocFrom_spec {bs : List Nat} {s₀ : Tx} (hm : Marks s₀.disk bs) :
    ∀ fuel b, b % BPB = 0 → FSSIZE ≤ b + fuel * BPB →
      (∀ x, nmeta ≤ x → x < b → x < FSSIZE → x ∈ bs) →
      Triple (· = s₀) (ballocFrom fuel b) (Claimed bs s₀) (OutOfBlocks bs) := by
  intro fuel
  induction fuel with
  | zero =>
      intro b _ hfuel hbelow
      exact Triple.fail fun _ _ => ⟨rfl, fun x hx hxs => hbelow x hx (by omega) hxs⟩
  | succ fuel ih =>
      intro b hb hfuel hbelow
      rw [ballocFrom]
      refine Triple.ite (fun hbs => ?_) fun hbs =>
        Triple.fail fun _ _ => ⟨rfl, fun x hx hxs => hbelow x hx (by omega) hxs⟩
      refine Triple.bind (R := fun data s => data = s₀.disk (BBLOCK b) ∧ s = s₀)
        (Triple.intro fun s hs => by subst hs; exact ⟨rfl, rfl⟩) fun data => Triple.pre_and fun hdata => ?_
      subst hdata
      split
      next bi hbi =>
        -- a clear bit: block `b + bi` is free, and claimed
        obtain ⟨hlt, hbs', hclear⟩ := freeBit_some hbi
        refine Triple.intro ?_
        rintro s rfl
        have hfree : used s.disk (b + bi) = false := by
          rw [used, BBLOCK_add hb hlt, add_mod_BPB hb hlt, hclear]
        obtain ⟨hr, hn⟩ := hm.not_mem_of_free hbs' hfree
        have hne : b + bi ≠ BBLOCK b := BBLOCK_add hb hlt ▸ ne_BBLOCK_of_data hr hbs'
        refine ⟨hr, hbs', hn, ?_⟩
        -- the run is evaluated: what is left is the form of the state
        simp only [claim, Function.update_of_ne hne, BBLOCK_add hb hlt, add_mod_BPB hb hlt]
      next hbi =>
        -- every bit of the turn is set: the next turn starts with more held
        refine (ih (b + BPB) (by rw [Nat.add_mod_right, hb]) (by rw [Nat.succ_mul] at hfuel; omega)
          fun x hx hxb hxs => ?_)
        by_cases hxlt : x < b
        · exact hbelow x hx hxlt hxs
        · obtain ⟨bi, rfl⟩ := Nat.exists_eq_add_of_le (Nat.le_of_not_lt hxlt)
          have hset : used s₀.disk (b + bi) = true := by
            rw [used, BBLOCK_add hb (by omega), add_mod_BPB hb (by omega)]
            exact freeBit_none hbi (by omega) hxs
          rcases (hm.bit _ hxs).mp hset with hmeta | hin
          · omega
          · exact hin

/-- `balloc` returns a data block nobody holds, zeroed and marked, or
fails because every data block is held. -/
theorem balloc_spec {bs : List Nat} {s₀ : Tx} (hm : Marks s₀.disk bs) :
    Triple (· = s₀) balloc (Claimed bs s₀) (OutOfBlocks bs) := by
  unfold balloc
  -- one turn per bitmap block reaches past the last block
  have hcover : FSSIZE ≤ 0 + (FSSIZE / BPB + 1) * BPB := by
    rw [Nat.zero_add, Nat.succ_mul]
    exact (Nat.lt_div_mul_add (by decide)).le
  exact ballocFrom_spec hm (FSSIZE / BPB + 1) 0 (Nat.zero_mod _) hcover fun _ _ h _ => absurd h (Nat.not_lt_zero _)

-- ================================================================= bfree

/-- The transaction after `bfree(b)`: `b`'s bit cleared, its bitmap
block logged. -/
def release (s : Tx) (b : Nat) : Tx where
  disk := Function.update s.disk (BBLOCK b) (ByteMap.clearBit (s.disk (BBLOCK b)) (b % BPB))
  logged := BBLOCK b :: s.logged

theorem release_disk_of_ne {s : Tx} {b x : Nat} (h : x ≠ BBLOCK b) : (release s b).disk x = s.disk x :=
  Function.update_of_ne h ..

/-- The released block leaves the marked ones. -/
theorem Marks.release {s : Tx} {bs : List Nat} (h : Marks s.disk bs) {b : Nat} (hb : b ∈ bs) :
    Marks (release s b).disk (bs.erase b) where
  nodup := h.nodup.erase b
  data x hx := h.data x (List.mem_of_mem_erase hx)
  bit x hx := by
    rw [Fs.release, used_clearBit, Bool.and_eq_true, h.bit x hx, Bool.not_eq_true', decide_eq_false_iff_not,
      h.nodup.mem_erase_iff]
    have := (h.data b hb).1
    constructor
    · rintro ⟨hx' | hx', hne⟩
      · exact .inl hx'
      · exact .inr ⟨hne, hx'⟩
    · rintro (hx' | ⟨hne, hx'⟩)
      · exact ⟨.inl hx', by omega⟩
      · exact ⟨.inr hx', hne⟩

/-- `bfree` of a held block clears its bit and cannot panic. -/
theorem bfree_spec {bs : List Nat} {s₀ : Tx} (hm : Marks s₀.disk bs) {b : Nat} (hb : b ∈ bs) :
    Triple (· = s₀) (bfree b) (fun _ s => s = release s₀ b) fun _ => False := by
  refine Triple.intro ?_
  rintro s rfl
  have hset : ByteMap.bit (s.disk (BBLOCK b)) (b % BPB) = true := hm.used_of_mem hb
  simp only [bfree, bind_apply, bread_apply, ok_bind, ByteMap.test_eq_not_bit, hset, Bool.not_true,
    Bool.false_eq_true, if_false, logWrite_apply]
  rfl

/-- `bfree` of a block whose bit is clear panics. -/
theorem bfree_of_free {s : Tx} {b : Nat} (h : used s.disk b = false) :
    bfree b s = .error "freeing free block" := by
  have hclear : ByteMap.bit (s.disk (BBLOCK b)) (b % BPB) = false := h
  simp only [bfree, bind_apply, bread_apply, ok_bind, ByteMap.test_eq_not_bit, hclear, Bool.not_false,
    if_true, throw_apply, error_bind]

end Xv6.Fs
