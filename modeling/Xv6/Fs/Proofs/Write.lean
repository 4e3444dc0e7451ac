import Xv6.Fs.Proofs.Bmap
import Mathlib.Data.List.TakeWhile

/-!
`writei`: its loop over the blocks of `[off, off + n)`, and the write
back of the inode.

`WriteInv` is what holds after each turn of the loop, `tot` bytes in at
offset `off`: the bitmap invariant, a frame (the other inodes' blocks
and everything below the bitmap are as they were), a block map that
only grew, every byte position written so far in a mapped block, and the
bytes themselves: those written are the source's, and, when `copyin`
cannot fault, every byte the file had outside the written range is
still there.

A turn that copies its whole chunk keeps the invariant with `off`
moved on (`WriteInv.write`). A turn whose copy faults leaves the bytes
it did copy in the buffer, unlogged, and the loop stops with `off`
where it was (`WriteInv.fault`): the block `bmap` gave it stays in the
map, so `iupdate` records it and `itrunc` can free it.
-/

namespace Xv6.Fs

open Prog Inode

-- ================================================================ bytes

/-- Byte `i` of the file: byte `i % BSIZE` of its block `i / BSIZE`. -/
def byteAt (d : Disk) (ip : Inode) (i : Nat) : UInt8 := d (blockAddr d ip (i / BSIZE)) (i % BSIZE)

/-- `copyin` can copy all `n` bytes at `src`. -/
def Total (src : Nat → Option UInt8) (n : Nat) : Prop := ∀ j < n, (src j).isSome

theorem chunk_pos {n tot off : Nat} (h : tot < n) : 0 < chunk n tot off := by
  have := Nat.mod_lt off (show 0 < BSIZE by decide)
  simp only [chunk]
  omega

theorem chunk_le (n tot off : Nat) : chunk n tot off ≤ n - tot := Nat.min_le_left _ _

theorem chunk_fits (n tot off : Nat) : off % BSIZE + chunk n tot off ≤ BSIZE := by
  have := Nat.mod_lt off (show 0 < BSIZE by decide)
  simp only [chunk]
  omega

/-- A byte of the chunk at `off` lies in `off`'s block. -/
theorem div_of_mem_chunk {off m i : Nat} (hm : off % BSIZE + m ≤ BSIZE) (h₁ : off ≤ i) (h₂ : i < off + m) :
    i / BSIZE = off / BSIZE ∧ i % BSIZE = off % BSIZE + (i - off) := by
  simp only [BSIZE] at *
  omega

theorem mod_lt_of_lt {i off : Nat} (hd : i / BSIZE = off / BSIZE) (h : i < off) : i % BSIZE < off % BSIZE := by
  simp only [BSIZE] at *
  omega

theorem copied_le (src : Nat → Option UInt8) (tot m : Nat) : copied src tot m ≤ m := by
  have := (List.takeWhile_prefix (l := List.range m) fun j => (src (tot + j)).isSome).length_le
  rwa [List.length_range] at this

theorem copied_eq {src : Nat → Option UInt8} {tot m : Nat} (h : ∀ j < m, (src (tot + j)).isSome) :
    copied src tot m = m := by
  have hall : (List.range m).takeWhile (fun j => (src (tot + j)).isSome) = List.range m :=
    List.takeWhile_eq_self_iff.mpr fun j hj => h j (List.mem_range.mp hj)
  rw [copied, hall, List.length_range]

theorem copyInto_apply (src : Nat → Option UInt8) (tot o k : Nat) (data : Block) (i : Nat) :
    copyInto src tot o k data i = if o ≤ i ∧ i < o + k then (src (tot + (i - o))).getD 0 else data i := rfl

-- ====================================================== a store into a block

section Store

variable {R : List Nat} {ip : Inode} {s : Tx} {bn : Nat}

/-- A data block of the file is none of `R`, not the indirect block and
not below the bitmap. -/
theorem Holds.slot (h : Holds R ip s) (hbn : bn < MAXFILE) (hne : blockAddr s.disk ip bn ≠ 0) :
    nmeta ≤ blockAddr s.disk ip bn ∧ blockAddr s.disk ip bn ∉ R ∧ blockAddr s.disk ip bn ≠ ip.addrs ind := by
  obtain ⟨hge, -, hR, hind⟩ := h.data (blockAddr_mem_dataBlocks hbn hne)
  exact ⟨hge, hR, hind⟩

theorem blockAddr_store (h : Holds R ip s) (hbn : bn < MAXFILE) (hne : blockAddr s.disk ip bn ≠ 0) (blk : Block) :
    blockAddr (Function.update s.disk (blockAddr s.disk ip bn) blk) ip = blockAddr s.disk ip :=
  blockAddr_congr_disk fun _ => Function.update_of_ne (h.slot hbn hne).2.2.symm _ _

/-- Storing into a data block of the file keeps `Holds`. -/
theorem Holds.store (h : Holds R ip s) (hbn : bn < MAXFILE) (hne : blockAddr s.disk ip bn ≠ 0) (blk : Block)
    (l : List Nat) : Holds R ip ⟨Function.update s.disk (blockAddr s.disk ip bn) blk, l⟩ := by
  have hm := Marks.update_data h (h.slot hbn hne).1 blk
  unfold Holds
  rwa [refs_congr_disk fun _ => Function.update_of_ne (h.slot hbn hne).2.2.symm _ _]

/-- A store into block `bn` of the file changes no byte of another block. -/
theorem byteAt_store (h : Holds R ip s) (hbn : bn < MAXFILE) (hne : blockAddr s.disk ip bn ≠ 0) (blk : Block)
    (i : Nat) :
    byteAt (Function.update s.disk (blockAddr s.disk ip bn) blk) ip i =
      if i / BSIZE = bn then blk (i % BSIZE) else byteAt s.disk ip i := by
  simp only [byteAt, blockAddr_store h hbn hne]
  split
  next heq => rw [heq, Function.update_self]
  next hne' =>
    -- the block of byte `i` is block `bn`'s only if the slots agree
    have hdiff : blockAddr s.disk ip (i / BSIZE) ≠ blockAddr s.disk ip bn := fun he => by
      have hlt : i / BSIZE < MAXFILE := by
        by_contra hge
        rw [blockAddr_of_ge (by omega)] at he
        exact hne he.symm
      exact hne' (h.slot_inj hlt hbn (he ▸ hne) he)
    rw [Function.update_of_ne hdiff]

end Store

/-- A block `bmap` found mapped keeps its bytes through the call. -/
theorem BmapPost.byteAt_eq {R : List Nat} {ip : Inode} {bn : Nat} {s₀ s : Tx} {r : Nat × Inode}
    (hp : BmapPost R ip bn s₀ r s) {i : Nat} (hi : blockAddr s₀.disk ip (i / BSIZE) ≠ 0) :
    byteAt s.disk r.2 i = byteAt s₀.disk ip i := by
  by_cases hk : i / BSIZE = bn
  · obtain ⟨h₁, h₂⟩ := hp.mapped (hk ▸ hi)
    rw [h₁, h₂]
  · have hlt : i / BSIZE < MAXFILE := by
      by_contra hge
      exact hi (blockAddr_of_ge (by omega))
    simp only [byteAt]
    rw [hp.others _ hk, hp.keeps _ (.inr (.inr (blockAddr_mem_dataBlocks hlt hi)))]

-- ================================================================== the loop

/-- What holds after each turn of `writei`'s loop, `tot` bytes written
up to `off`, for a call on `ip₀` at `off₀` from `s₀`. -/
structure WriteInv (R : List Nat) (src : Nat → Option UInt8) (n : Nat) (s₀ : Tx) (ip₀ : Inode) (off₀ : Nat)
    (ip : Inode) (tot off : Nat) (s : Tx) : Prop where
  holds : Holds R ip s
  tot_le : tot ≤ n
  off_eq : off = off₀ + tot
  fields : ip = { ip₀ with addrs := ip.addrs }
  keeps : ∀ x, x < bmapstart ∨ x ∈ R → s.disk x = s₀.disk x
  grows : ∀ k, blockAddr s₀.disk ip₀ k ≠ 0 → blockAddr s.disk ip k = blockAddr s₀.disk ip₀ k
  covered : ∀ i, off₀ ≤ i → i < off → blockAddr s.disk ip (i / BSIZE) ≠ 0
  written : ∀ i, off₀ ≤ i → i < off → byteAt s.disk ip i = (src (i - off₀)).getD 0
  kept : Total src n → ∀ i, i < off₀ ∨ off ≤ i → blockAddr s₀.disk ip₀ (i / BSIZE) ≠ 0 →
    byteAt s.disk ip i = byteAt s₀.disk ip₀ i

namespace WriteInv

variable {R : List Nat} {src : Nat → Option UInt8} {n off₀ tot off addr : Nat} {s₀ s s₁ : Tx}
  {ip₀ ip ip₁ : Inode}

theorem start (h : Holds R ip₀ s₀) : WriteInv R src n s₀ ip₀ off₀ ip₀ 0 off₀ s₀ where
  holds := h
  tot_le := Nat.zero_le _
  off_eq := rfl
  fields := rfl
  keeps _ _ := rfl
  grows _ _ := rfl
  covered _ h₁ h₂ := absurd h₂ (Nat.not_lt.mpr h₁)
  written _ h₁ h₂ := absurd h₂ (Nat.not_lt.mpr h₁)
  kept _ _ _ _ := rfl

/-- The block of the next turn is a block of the file. -/
theorem slot_lt (hw : WriteInv R src n s₀ ip₀ off₀ ip tot off s) (hlt : tot < n)
    (hn : off₀ + n ≤ MAXFILE * BSIZE) : off / BSIZE < MAXFILE := by
  have := hw.off_eq
  simp only [MAXFILE, NDIRECT, NINDIRECT, BSIZE] at hn ⊢
  omega

section Turn

variable (hw : WriteInv R src n s₀ ip₀ off₀ ip tot off s) (hlt : tot < n) (hn : off₀ + n ≤ MAXFILE * BSIZE)
  (hp : BmapPost R ip (off / BSIZE) s (addr, ip₁) s₁)

include hw hlt hn hp

/-- The frame and the map through `bmap` and a store into its block. -/
theorem turn_frame (blk : Block) :
    (∀ x, x < bmapstart ∨ x ∈ R → Function.update s₁.disk addr blk x = s₀.disk x) ∧
    (∀ k, blockAddr s₀.disk ip₀ k ≠ 0 → blockAddr (Function.update s₁.disk addr blk) ip₁ k =
      blockAddr s₀.disk ip₀ k) ∧
    ip₁ = { ip₀ with addrs := ip₁.addrs } := by
  have hbn := hw.slot_lt hlt hn
  have haddr : blockAddr s₁.disk ip₁ (off / BSIZE) = addr := hp.addr
  obtain ⟨hge, hR, -⟩ := haddr ▸ hp.holds.slot hbn (haddr ▸ hp.addr_ne)
  refine ⟨fun x hx => ?_, fun k hk => ?_, ?_⟩
  · have hxa : x ≠ addr := by
      rintro rfl
      rcases hx with hx | hx
      · have : bmapstart < nmeta := by decide
        omega
      · exact hR hx
    rw [Function.update_of_ne hxa, hp.keeps x (hx.imp_right .inl), hw.keeps x hx]
  · rw [← haddr, blockAddr_store hp.holds hbn (haddr ▸ hp.addr_ne)]
    by_cases hkb : k = off / BSIZE
    · subst hkb
      obtain ⟨h₁, h₂⟩ := hp.mapped (by rw [hw.grows _ hk]; exact hk)
      simp only at h₁
      rw [h₁, h₂, hw.grows _ hk]
    · rw [hp.others _ hkb, hw.grows _ hk]
  · have h₁ := hp.fields
    have h₂ := hw.fields
    simp only at h₁
    rw [h₁, h₂]

/-- A byte the turn does not store into keeps its value. -/
theorem turn_byte (o k : Nat) {i : Nat} (hi : blockAddr s.disk ip (i / BSIZE) ≠ 0)
    (hout : i / BSIZE = off / BSIZE → i % BSIZE < o ∨ o + k ≤ i % BSIZE) :
    byteAt (Function.update s₁.disk addr (copyInto src tot o k (s₁.disk addr))) ip₁ i = byteAt s.disk ip i := by
  have hbn := hw.slot_lt hlt hn
  have haddr : blockAddr s₁.disk ip₁ (off / BSIZE) = addr := hp.addr
  rw [← haddr, byteAt_store hp.holds hbn (haddr ▸ hp.addr_ne), ← hp.byteAt_eq hi]
  split
  next he =>
    rw [copyInto_apply, if_neg (by omega)]
    simp only [byteAt, he]
  next => rfl

/-- A turn that copies its whole chunk. -/
theorem write (hk : copied src tot (chunk n tot off) = chunk n tot off) :
    WriteInv R src n s₀ ip₀ off₀ ip₁ (tot + chunk n tot off) (off + chunk n tot off)
      ⟨Function.update s₁.disk addr (copyInto src tot (off % BSIZE) (chunk n tot off) (s₁.disk addr)),
        addr :: s₁.logged⟩ := by
  have hbn := hw.slot_lt hlt hn
  have haddr : blockAddr s₁.disk ip₁ (off / BSIZE) = addr := hp.addr
  have hfits := chunk_fits n tot off
  have hm := chunk_le n tot off
  obtain ⟨hkeeps, hgrows, hfields⟩ := turn_frame hw hlt hn hp (copyInto src tot (off % BSIZE) (chunk n tot off) (s₁.disk addr))
  have hoff := hw.off_eq
  refine {
    holds := haddr ▸ hp.holds.store hbn (haddr ▸ hp.addr_ne) _ _
    tot_le := by omega
    off_eq := by omega
    fields := hfields
    keeps := hkeeps
    grows := hgrows
    covered := fun i h₁ h₂ => ?_
    written := fun i h₁ h₂ => ?_
    kept := fun ht i hi hi₀ => ?_ }
  · -- a byte of an earlier turn, or of this one
    show blockAddr (Function.update s₁.disk addr _) ip₁ (i / BSIZE) ≠ 0
    rw [← haddr, blockAddr_store hp.holds hbn (haddr ▸ hp.addr_ne)]
    by_cases hkb : i / BSIZE = off / BSIZE
    · rw [hkb, haddr]
      exact hp.addr_ne
    · rw [hp.others _ hkb]
      refine hw.covered i h₁ (Nat.lt_of_not_le fun hge => hkb ?_)
      exact (div_of_mem_chunk hfits hge h₂).1
  · by_cases hio : i < off
    · -- written by an earlier turn, below this chunk
      rw [turn_byte hw hlt hn hp _ _ (hw.covered i h₁ hio) fun he => .inl (mod_lt_of_lt he hio)]
      exact hw.written i h₁ hio
    · -- written by this turn
      obtain ⟨hd, hmod⟩ := div_of_mem_chunk hfits (Nat.le_of_not_lt hio) h₂
      show (Function.update s₁.disk addr _) (blockAddr (Function.update s₁.disk addr _) ip₁ (i / BSIZE))
        (i % BSIZE) = _
      rw [← haddr, blockAddr_store hp.holds hbn (haddr ▸ hp.addr_ne), hd, Function.update_self,
        copyInto_apply, if_pos (by omega), hmod]
      congr 3
      omega
  · have hmapped : blockAddr s.disk ip (i / BSIZE) ≠ 0 := by rw [hw.grows _ hi₀]; exact hi₀
    rw [turn_byte hw hlt hn hp _ _ hmapped fun he => ?_]
    · exact hw.kept ht i (hi.imp_right fun h => by omega) hi₀
    · rcases hi with hi | hi
      · exact .inl (mod_lt_of_lt he (by omega))
      · right
        simp only [BSIZE] at he hfits ⊢
        omega

/-- A turn whose copy faults after `copied` bytes: they stay in the
buffer, and the loop stops. -/
theorem fault (hk : copied src tot (chunk n tot off) < chunk n tot off) :
    WriteInv R src n s₀ ip₀ off₀ ip₁ tot off
      ⟨Function.update s₁.disk addr (copyInto src tot (off % BSIZE) (copied src tot (chunk n tot off))
        (s₁.disk addr)), s₁.logged⟩ := by
  have hbn := hw.slot_lt hlt hn
  have haddr : blockAddr s₁.disk ip₁ (off / BSIZE) = addr := hp.addr
  obtain ⟨hkeeps, hgrows, hfields⟩ := turn_frame hw hlt hn hp
    (copyInto src tot (off % BSIZE) (copied src tot (chunk n tot off)) (s₁.disk addr))
  refine {
    holds := haddr ▸ hp.holds.store hbn (haddr ▸ hp.addr_ne) _ _
    tot_le := hw.tot_le
    off_eq := hw.off_eq
    fields := hfields
    keeps := hkeeps
    grows := hgrows
    covered := fun i h₁ h₂ => ?_
    written := fun i h₁ h₂ => ?_
    kept := fun ht => ?_ }
  · show blockAddr (Function.update s₁.disk addr _) ip₁ (i / BSIZE) ≠ 0
    rw [← haddr, blockAddr_store hp.holds hbn (haddr ▸ hp.addr_ne)]
    by_cases hkb : i / BSIZE = off / BSIZE
    · rw [hkb, haddr]
      exact hp.addr_ne
    · rw [hp.others _ hkb]
      exact hw.covered i h₁ h₂
  · rw [turn_byte hw hlt hn hp _ _ (hw.covered i h₁ h₂) fun he => .inl (mod_lt_of_lt he h₂)]
    exact hw.written i h₁ h₂
  · -- `copyin` of a total source does not fault
    have hoff := hw.off_eq
    exact absurd (copied_eq fun j hj => ht _ (by have := chunk_le n tot off; omega)) (Nat.ne_of_lt hk)

end Turn

end WriteInv

/-- `writei`'s loop, from a state satisfying `WriteInv`: it ends in one,
having written all `n` bytes unless a copy faulted, or fails because
`balloc` found no free block. -/
theorem writeLoop_spec {R : List Nat} {src : Nat → Option UInt8} {n : Nat} {s₀ : Tx} {ip₀ : Inode} {off₀ : Nat}
    (hn : off₀ + n ≤ MAXFILE * BSIZE) :
    ∀ fuel ip tot off, n - tot ≤ fuel →
      Triple (WriteInv R src n s₀ ip₀ off₀ ip tot off) (writeLoop src n fuel ip tot off)
        (fun r s => WriteInv R src n s₀ ip₀ off₀ r.2.2 r.1 r.2.1 s ∧ (Total src n → r.1 = n))
        fun e => e = "balloc: out of blocks" := by
  intro fuel
  induction fuel with
  | zero =>
      intro ip tot off hf
      exact Triple.ret fun s hw => ⟨hw, fun _ => by have := hw.tot_le; omega⟩
  | succ fuel ih =>
      intro ip tot off hf
      rw [writeLoop]
      refine Triple.ite (fun hlt => ?_) fun hge =>
        Triple.ret fun s hw => ⟨hw, fun _ => by have := hw.tot_le; omega⟩
      refine Triple.pre fun s hw => ?_
      refine Triple.bind (bmap_spec hw.holds (hw.slot_lt hlt hn)) fun ⟨addr, ip₁⟩ => ?_
      dsimp only
      refine Triple.ite (fun hk => Triple.intro fun s₁ hp => ?_) fun hk => ?_
      · -- the copy faults: store what it copied, and stop
        simp only [bind_apply, touch_apply, ok_bind, pure_apply, sat_ok]
        refine ⟨hw.fault hlt hn hp hk, fun ht => absurd (copied_eq fun j hj => ht _ ?_) (Nat.ne_of_lt hk)⟩
        have := chunk_le n tot off
        omega
      · -- the chunk is copied: log the block, and go on
        have hk' : copied src tot (chunk n tot off) = chunk n tot off :=
          Nat.le_antisymm (copied_le _ _ _) (Nat.le_of_not_lt hk)
        have hpos : 0 < chunk n tot off := chunk_pos hlt
        have hle := chunk_le n tot off
        refine Triple.bind (Triple.intro fun s₁ hp => ?_)
          fun _ => ih ip₁ (tot + chunk n tot off) (off + chunk n tot off) (by omega)
        simp only [logWrite_apply, sat_ok]
        exact hw.write hlt hn hp hk'

-- ================================================================ writei

/-- `writei` refuses a write that starts past the end, wraps around, or
ends past `MAXFILE` blocks, and changes nothing. -/
theorem writei_of_refused {ip : Inode} {src : Nat → Option UInt8} {off n : Nat}
    (h : off > ip.size ∨ (off + n) % 2 ^ 32 < off ∨ off + n > MAXFILE * BSIZE) :
    writei ip src off n = pure (-1, ip) := by
  unfold writei
  by_cases h₁ : off > ip.size ∨ (off + n) % 2 ^ 32 < off
  · rw [if_pos h₁]
  · rw [if_neg h₁, if_pos (by tauto)]

/-- The inode `writei` writes back: the size raised to where the loop
stopped. -/
def grownTo (ip : Inode) (off : Nat) : Inode := if off > ip.size then { ip with size := off } else ip

/-- The transaction after `iupdate(ip)`. -/
@[grind] def Tx.update (s : Tx) (ip : Inode) : Tx :=
  ⟨Function.update s.disk (IBLOCK ip.inum) (putDinode (s.disk (IBLOCK ip.inum)) ip), IBLOCK ip.inum :: s.logged⟩

/-- `writei` that the guards let through: the loop runs from `WriteInv.start`,
and the inode is written back with its size raised. -/
theorem writei_spec {R : List Nat} {src : Nat → Option UInt8} {ip₀ : Inode} {off₀ n : Nat} {s₀ : Tx}
    (h : Holds R ip₀ s₀) (hoff : off₀ ≤ ip₀.size) (hov : off₀ + n < 2 ^ 32) (hmax : off₀ + n ≤ MAXFILE * BSIZE) :
    Triple (· = s₀) (writei ip₀ src off₀ n)
      (fun r s => ∃ tot off ip s', WriteInv R src n s₀ ip₀ off₀ ip tot off s' ∧ (Total src n → tot = n) ∧
        r = ((tot : Int), grownTo ip off) ∧ s = s'.update (grownTo ip off))
      fun e => e = "balloc: out of blocks" := by
  unfold writei
  rw [if_neg (by rw [Nat.mod_eq_of_lt hov]; omega), if_neg (by omega)]
  refine Triple.bind ((@writeLoop_spec R src n s₀ ip₀ off₀ hmax n ip₀ 0 off₀ (Nat.le_refl _)).conseq
    (fun s hs => by subst hs; exact WriteInv.start h) (fun _ _ => id) fun _ => id) fun ⟨tot, off, ip⟩ => ?_
  refine Triple.intro fun s ⟨hw, ht⟩ => ?_
  simp only [bind_apply, iupdate_apply, ok_bind, pure_apply, sat_ok]
  exact ⟨tot, off, ip, s, hw, ht, rfl, rfl⟩

end Xv6.Fs
