import Xv6.Virtio.System
import Xv6.Lib.Ring
import Mathlib.Data.Fintype.Card

/-!
What each function of the driver does to `struct disk`.

`alloc_desc` takes the first free descriptor (`allocDesc_cases`);
`free_desc` frees and zeroes one in use (`freeDesc_of_used`). So
`alloc3_desc` takes three distinct free descriptors, or gives back
the ones it took, which, as free descriptors are zero, leaves the disk
as it was (`alloc3Desc_spec`). `free_chain` frees the descriptors it
reaches by `next` while the `NEXT` flag is set (`freeChain_three`),
and its loop never runs out of turns (`freeChain_eq_loop`).
`virtio_disk_intr` clears `b->disk` of the buffer of every used entry
it has not seen, when each of them carries status `0` and a buffer
(`virtioDiskIntr_spec`).
-/

namespace Xv6.Virtio

variable {ι : Type} {d d' : Disk ι} {i j : Fin NUM}

-- ======================================================= the disk's parts

namespace Disk

/-- Descriptor `i` taken by `alloc_desc`. -/
def take (d : Disk ι) (i : Fin NUM) : Disk ι := { d with free := Function.update d.free i false }

/-- Descriptor `i` as `free_desc` leaves it. -/
def release (d : Disk ι) (i : Fin NUM) : Disk ι :=
  { d with desc := Function.update d.desc i Desc.zero, free := Function.update d.free i true }

@[simp] theorem take_desc : (d.take i).desc = d.desc := rfl
@[simp] theorem take_info : (d.take i).info = d.info := rfl
@[simp] theorem take_avail : (d.take i).avail = d.avail := rfl
@[simp] theorem take_used : (d.take i).used = d.used := rfl
@[simp] theorem take_usedIdx : (d.take i).usedIdx = d.usedIdx := rfl
@[simp] theorem take_bdisk : (d.take i).bdisk = d.bdisk := rfl
@[simp] theorem release_info : (d.release i).info = d.info := rfl
@[simp] theorem release_avail : (d.release i).avail = d.avail := rfl
@[simp] theorem release_used : (d.release i).used = d.used := rfl
@[simp] theorem release_usedIdx : (d.release i).usedIdx = d.usedIdx := rfl
@[simp] theorem release_bdisk : (d.release i).bdisk = d.bdisk := rfl

theorem take_free (j : Fin NUM) : (d.take i).free j = if j = i then false else d.free j := by
  simp only [take, Function.update_apply]

theorem release_free (j : Fin NUM) : (d.release i).free j = if j = i then true else d.free j := by
  simp only [release, Function.update_apply]

theorem release_desc (j : Fin NUM) : (d.release i).desc j = if j = i then Desc.zero else d.desc j := by
  simp only [release, Function.update_apply]

/-- Giving back a free, zero descriptor just taken leaves the disk as
it was. -/
theorem release_take (hf : d.free i = true) (hz : d.desc i = Desc.zero) : (d.take i).release i = d := by
  cases d
  simp only [take, release, Function.update_idem] at *
  rw [← hf, ← hz, Function.update_eq_self, Function.update_eq_self]

/-- The number of descriptors in use. -/
def inUse (d : Disk ι) : Nat := (Finset.univ.filter fun i => d.free i = false).card

/-- Freeing a descriptor in use lowers the count. -/
theorem inUse_release_lt (hf : d.free i = false) : (d.release i).inUse < d.inUse := by
  unfold inUse
  refine Finset.card_lt_card ⟨fun j hj => ?_, fun hsub => ?_⟩
  · simp only [Finset.mem_filter, Finset.mem_univ, true_and, release_free] at hj ⊢
    by_cases hji : j = i
    · simp [hji] at hj
    · simpa [hji] using hj
  · have : i ∈ Finset.univ.filter fun j => (d.release i).free j = false := hsub (by simpa using hf)
    simp [release_free] at this

end Disk

-- ============================================================= alloc_desc

/-- `alloc_desc` finds no free descriptor and changes nothing, or takes
a free one. -/
theorem allocDesc_cases {r : Option (Fin NUM)} (h : allocDesc d = (r, d')) :
    (r = none ∧ d' = d ∧ ∀ i, d.free i = false) ∨
    (∃ i, r = some i ∧ d.free i = true ∧ d' = d.take i) := by
  unfold allocDesc at h
  split at h
  · next i hi =>
      cases h
      exact .inr ⟨i, rfl, List.find?_some hi, rfl⟩
  · next hnone =>
      cases h
      refine .inl ⟨rfl, rfl, fun i => ?_⟩
      simpa using List.find?_eq_none.mp hnone i (List.mem_finRange i)

-- ============================================================== free_desc

theorem freeDesc_of_used (h : d.free i = false) : freeDesc d i.val = .ok (d.release i) := by
  unfold freeDesc
  rw [dif_neg (Nat.not_le.mpr i.isLt)]
  simp only [Fin.eta, h, Bool.false_eq_true, if_false]
  rfl

theorem freeDesc_of_free (h : d.free i = true) : freeDesc d i.val = throw "free_desc 2" := by
  unfold freeDesc
  rw [dif_neg (Nat.not_le.mpr i.isLt)]
  simp [h]

-- ============================================================ alloc3_desc

/-- `alloc3_desc` from a disk whose free descriptors are zero: it gives
`-1` and leaves the disk as it was, or takes three distinct free
descriptors and changes nothing else. -/
theorem alloc3Desc_spec (hz : ∀ i, d.free i = true → d.desc i = Desc.zero) :
    alloc3Desc d = .ok (none, d) ∨
    ∃ i0 i1 i2, i0 ≠ i1 ∧ i0 ≠ i2 ∧ i1 ≠ i2 ∧ d.free i0 = true ∧ d.free i1 = true ∧ d.free i2 = true ∧
      alloc3Desc d = .ok (some (i0, i1, i2), ((d.take i0).take i1).take i2) := by
  unfold alloc3Desc
  rcases h0 : allocDesc d with ⟨r0, d0⟩
  rcases allocDesc_cases h0 with ⟨rfl, rfl, -⟩ | ⟨i0, rfl, hf0, rfl⟩
  · exact .inl rfl
  dsimp only
  rcases h1 : allocDesc (d.take i0) with ⟨r1, d1⟩
  rcases allocDesc_cases h1 with ⟨rfl, rfl, -⟩ | ⟨i1, rfl, hf1, rfl⟩
  · -- one taken: it is given back
    left
    have hu : (d.take i0).free i0 = false := by simp [Disk.take_free]
    dsimp only
    rw [freeDesc_of_used hu, Disk.release_take hf0 (hz i0 hf0)]
    rfl
  have h10 : i1 ≠ i0 := fun he => by simp [Disk.take_free, he] at hf1
  have hf1' : d.free i1 = true := by simpa [Disk.take_free, h10] using hf1
  dsimp only
  rcases h2 : allocDesc ((d.take i0).take i1) with ⟨r2, d2⟩
  rcases allocDesc_cases h2 with ⟨rfl, rfl, -⟩ | ⟨i2, rfl, hf2, rfl⟩
  · -- two taken: both are given back, in the order taken
    left
    have hu0 : ((d.take i0).take i1).free i0 = false := by simp [Disk.take_free, h10.symm]
    -- giving back `i0` first leaves the disk with only `i1` taken
    have hswap : ((d.take i0).take i1).release i0 = d.take i1 := by
      have hf : (d.take i1).free i0 = true := by simp [Disk.take_free, h10.symm, hf0]
      rw [← Disk.release_take hf (hz i0 hf0)]
      cases d
      simp only [Disk.take, Disk.release]
      rw [Function.update_comm h10.symm]
    have hu1 : (d.take i1).free i1 = false := by simp [Disk.take_free]
    dsimp only
    rw [freeDesc_of_used hu0]
    dsimp only [bind, Except.bind]
    rw [hswap, freeDesc_of_used hu1, Disk.release_take hf1' (hz i1 hf1')]
    rfl
  have h20 : i2 ≠ i0 := fun he => by simp [Disk.take_free, he] at hf2
  have h21 : i2 ≠ i1 := fun he => by simp [Disk.take_free, he] at hf2
  have hf2' : d.free i2 = true := by simpa [Disk.take_free, h20, h21] using hf2
  exact .inr ⟨i0, i1, i2, h10.symm, h20.symm, h21.symm, hf0, hf1', hf2', rfl⟩

-- ============================================================= free_chain

/-- A turn of `free_chain`'s loop at a descriptor in use. -/
theorem freeChainLoop_used {fuel : Nat} (h : d.free i = false) :
    freeChainLoop (fuel + 1) d i.val =
      if (d.desc i).flags &&& VRING_DESC_F_NEXT ≠ 0 then freeChainLoop fuel (d.release i) (d.desc i).next.toNat
      else .ok (d.release i) := by
  rw [freeChainLoop, dif_pos i.isLt]
  simp only [Fin.eta, freeDesc_of_used h]
  rfl

/-- More turns than descriptors in use do not change what the loop
does: each turn frees one or panics. -/
theorem freeChainLoop_fuel : ∀ (fuel : Nat) (d : Disk ι) (k : Nat), d.inUse < fuel →
    freeChainLoop fuel d k = freeChainLoop (fuel + 1) d k := by
  intro fuel
  induction fuel with
  | zero => exact fun _ _ h => absurd h (Nat.not_lt_zero _)
  | succ fuel ih =>
      intro d k hlt
      by_cases hk : k < NUM
      · obtain ⟨i, rfl⟩ : ∃ i : Fin NUM, i.val = k := ⟨⟨k, hk⟩, rfl⟩
        cases hf : d.free i
        · rw [freeChainLoop_used hf, freeChainLoop_used hf]
          split_ifs
          · exact ih _ _ (Nat.lt_of_lt_of_le (Disk.inUse_release_lt hf) (Nat.le_of_lt_succ hlt))
          · rfl
        · -- a free descriptor: both panic in `free_desc`
          rw [freeChainLoop, freeChainLoop, dif_pos i.isLt, dif_pos i.isLt]
          simp only [Fin.eta, freeDesc_of_free hf]
          rfl
      · rw [freeChainLoop, freeChainLoop, dif_neg hk, dif_neg hk]

/-- `free_chain` does what its `while(1)` loop does with any number of
turns past `NUM`. -/
theorem freeChain_eq_loop {n : Nat} (hn : NUM < n) (k : Nat) : freeChain d k = freeChainLoop n d k := by
  -- `inUse` is at most `NUM`, below every fuel from `NUM + 1` on
  have hle : d.inUse ≤ NUM := by
    simpa [Disk.inUse] using Finset.card_filter_le (Finset.univ : Finset (Fin NUM)) fun i => d.free i = false
  induction n, hn using Nat.le_induction with
  | base => rfl
  | succ n hn ih => rw [ih, freeChainLoop_fuel n d k (by omega)]

/-- A link to descriptor `i`, as `virtio_disk_rw` stores it in `next`. -/
@[simp] theorem toNat_toUInt16_val (i : Fin NUM) : i.val.toUInt16.toNat = i.val := by
  have := i.isLt
  simp only [NUM] at this
  rw [UInt16.toNat_ofNat', Nat.mod_eq_of_lt (by omega)]

/-- `free_chain` of a chain of three descriptors in use, linked by
`next` with the `NEXT` flag on the first two and not on the last:
exactly the three are freed. -/
theorem freeChain_three {a b c : Fin NUM} (hab : a ≠ b) (hac : a ≠ c) (hbc : b ≠ c)
    (ha : d.free a = false) (hb : d.free b = false) (hc : d.free c = false)
    (ha₁ : (d.desc a).flags &&& VRING_DESC_F_NEXT ≠ 0) (ha₂ : (d.desc a).next = b.val.toUInt16)
    (hb₁ : (d.desc b).flags &&& VRING_DESC_F_NEXT ≠ 0) (hb₂ : (d.desc b).next = c.val.toUInt16)
    (hc₁ : (d.desc c).flags &&& VRING_DESC_F_NEXT = 0) :
    freeChain d a = .ok (((d.release a).release b).release c) := by
  -- three turns of the nine
  rw [freeChain, show NUM + 1 = 6 + 1 + 1 + 1 from rfl, freeChainLoop_used ha, if_pos ha₁, ha₂,
    toNat_toUInt16_val]
  have hb' : (d.release a).free b = false := by simp [Disk.release_free, Ne.symm hab, hb]
  rw [freeChainLoop_used hb', Disk.release_desc, if_neg (Ne.symm hab), if_pos hb₁, hb₂,
    toNat_toUInt16_val]
  have hc' : ((d.release a).release b).free c = false := by
    simp [Disk.release_free, Ne.symm hac, Ne.symm hbc, hc]
  rw [freeChainLoop_used hc', Disk.release_desc, Disk.release_desc, if_neg (Ne.symm hbc),
    if_neg (Ne.symm hac), if_neg (not_not.mpr hc₁)]

-- ========================================================= the queues

/-- The buffer of the request whose chain starts at descriptor `h`. -/
def Disk.bufOf (d : Disk ι) (h : Nat) : Option ι := if hh : h < NUM then (d.info ⟨h, hh⟩).b else none

/-- The used entries the handler has not yet seen, as chain heads. -/
def Disk.usedQueue (d : Disk ι) : List Nat := (Ring.queue16 d.used.ring NUM d.usedIdx d.used.idx).map UInt32.toNat

theorem Disk.bufOf_val (i : Fin NUM) : d.bufOf i.val = (d.info i).b := by
  simp [Disk.bufOf, i.isLt]

-- ========================================================= submission

section Buffers

variable [DecidableEq ι] {b : ι} {write : Bool} {i0 i1 i2 : Fin NUM}

@[simp] theorem submit_free : (submit d b write i0 i1 i2).free = d.free := rfl
@[simp] theorem submit_used : (submit d b write i0 i1 i2).used = d.used := rfl
@[simp] theorem submit_usedIdx : (submit d b write i0 i1 i2).usedIdx = d.usedIdx := rfl
@[simp] theorem submit_bdisk : (submit d b write i0 i1 i2).bdisk = Function.update d.bdisk b true := rfl
@[simp] theorem submit_info : (submit d b write i0 i1 i2).info = Function.update d.info i0 ⟨some b, 0xff⟩ := rfl
@[simp] theorem submit_avail : (submit d b write i0 i1 i2).avail =
    ⟨d.avail.idx + 1, Function.update d.avail.ring (d.avail.idx.toNat % NUM) i0.val.toUInt16⟩ := rfl

theorem submit_desc_of_ne (h0 : j ≠ i0) (h1 : j ≠ i1) (h2 : j ≠ i2) :
    (submit d b write i0 i1 i2).desc j = d.desc j := by
  simp [submit, Function.update_of_ne h0, Function.update_of_ne h1, Function.update_of_ne h2]

theorem submit_desc_i0 (h01 : i0 ≠ i1) (h02 : i0 ≠ i2) :
    (submit d b write i0 i1 i2).desc i0 = ⟨.op i0, VRING_DESC_F_NEXT, i1.val.toUInt16⟩ := by
  simp [submit, Function.update_of_ne h01, Function.update_of_ne h02]

theorem submit_desc_i1 (h12 : i1 ≠ i2) :
    (submit d b write i0 i1 i2).desc i1 =
      ⟨.data b, (if write then 0 else VRING_DESC_F_WRITE) ||| VRING_DESC_F_NEXT, i2.val.toUInt16⟩ := by
  simp [submit, Function.update_of_ne h12]

theorem submit_desc_i2 : (submit d b write i0 i1 i2).desc i2 = ⟨.status i0, VRING_DESC_F_WRITE, 0⟩ := by
  simp [submit]

-- ================================================================= intr

theorem num_dvd : NUM ∣ 2 ^ 16 := ⟨2 ^ 13, by decide⟩

/-- The handler's loop over `n` unseen used entries, each with status
`0` and a buffer: every such buffer gets `b->disk = 0`, and `used_idx`
catches up with the device. -/
theorem intrLoop_spec : ∀ (n : Nat) (d : Disk ι), d.usedQueue.length = n →
    (∀ h ∈ d.usedQueue, ∃ hh : h < NUM, (d.info ⟨h, hh⟩).status = 0 ∧ (d.info ⟨h, hh⟩).b.isSome) →
    intrLoop n d = .ok { d with
      bdisk := fun b => if b ∈ d.usedQueue.filterMap d.bufOf then false else d.bdisk b
      usedIdx := d.used.idx } := by
  intro n
  induction n with
  | zero =>
      intro d hlen _
      have hq : d.usedQueue = [] := List.length_eq_zero_iff.mp hlen
      have hidx : d.usedIdx = d.used.idx := by
        simpa [Disk.usedQueue, Ring.sub_toNat_eq_zero_iff] using hlen
      rw [hq, intrLoop]
      cases d
      simp only at hidx
      simp [hidx]
      rfl
  | succ n ih =>
      intro d hlen hall
      have hne : d.usedIdx ≠ d.used.idx := fun he => by
        simp [Disk.usedQueue, he, Ring.queue16_self] at hlen
      -- the first unseen entry, and the disk after its turn
      set h := (d.used.ring (d.usedIdx.toNat % NUM)).toNat with hh_def
      have hq : d.usedQueue = h :: (Ring.queue16 d.used.ring NUM (d.usedIdx + 1) d.used.idx).map UInt32.toNat := by
        rw [Disk.usedQueue, Ring.queue16_pop num_dvd hne, List.map_cons]
      obtain ⟨hh, hst, hb⟩ := hall h (by rw [hq]; exact List.mem_cons_self)
      obtain ⟨x, hx⟩ := Option.isSome_iff_exists.mp hb
      set d₁ : Disk ι := { d with bdisk := Function.update d.bdisk x false, usedIdx := d.usedIdx + 1 } with hd₁
      have hq₁ : d₁.usedQueue = (Ring.queue16 d.used.ring NUM (d.usedIdx + 1) d.used.idx).map UInt32.toNat := rfl
      have hbuf : d₁.bufOf = d.bufOf := rfl
      rw [intrLoop, if_pos hne]
      dsimp only
      rw [← hh_def, dif_pos hh, if_neg (by simpa using hst), hx]
      dsimp only
      rw [ih d₁ (by rw [hq₁]; simpa [hq] using hlen) fun h' hm => hall h' (by rw [hq]; exact List.mem_cons_of_mem _ (hq₁ ▸ hm))]
      -- the turn's buffer joins the ones the rest of the loop clears
      rw [hq₁, hbuf, hq, List.filterMap_cons_some (by rw [Disk.bufOf, dif_pos hh, hx])]
      congr 2
      funext b'
      by_cases hbx : b' = x
      · subst hbx
        simp [d₁]
      · simp [d₁, hbx]

/-- `virtio_disk_intr()` when every unseen used entry carries status `0`
and a buffer. -/
theorem virtioDiskIntr_spec
    (hall : ∀ h ∈ d.usedQueue, ∃ hh : h < NUM, (d.info ⟨h, hh⟩).status = 0 ∧ (d.info ⟨h, hh⟩).b.isSome) :
    virtioDiskIntr d = .ok { d with
      bdisk := fun b => if b ∈ d.usedQueue.filterMap d.bufOf then false else d.bdisk b
      usedIdx := d.used.idx } :=
  intrLoop_spec _ d (by simp [Disk.usedQueue]) hall

end Buffers

end Xv6.Virtio
