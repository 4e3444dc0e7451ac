import Xv6.Fs.Proofs.Trunc

/-!
`readi`, and the file as a byte string.

An inode is `Mapped` when its size is within `MAXFILE` blocks and every
byte below the size is in a mapped block. `content` reads those bytes.
On a mapped block `bmap` is a lookup that changes nothing
(`bmap_of_mapped`), so `readi` of a mapped inode, which only asks for
bytes below the size, never allocates: it returns the bytes of the
content it was asked for, and the state and inode it was given
(`readi_spec`).
-/

namespace Xv6.Fs

open Prog Inode

/-- Every byte below the size lies in a mapped block, and the size is
within `MAXFILE` blocks. -/
structure Mapped (d : Disk) (ip : Inode) : Prop where
  size_le : ip.size ≤ MAXFILE * BSIZE
  mapped : ∀ i < ip.size, blockAddr d ip (i / BSIZE) ≠ 0

/-- The file's content: its first `size` bytes. -/
def content (d : Disk) (ip : Inode) : List UInt8 := (List.range ip.size).map (byteAt d ip)

theorem length_content (d : Disk) (ip : Inode) : (content d ip).length = ip.size := by
  rw [content, List.length_map, List.length_range]

/-- `bmap` of a block the map has: a lookup, with no allocation. -/
theorem bmap_of_mapped {ip : Inode} {bn : Nat} {s : Tx} (hbn : bn < MAXFILE) (hne : blockAddr s.disk ip bn ≠ 0) :
    bmap ip bn s = .ok ((blockAddr s.disk ip bn, ip), s) := by
  by_cases hdir : bn < NDIRECT
  · rw [blockAddr_direct hdir] at hne ⊢
    rw [bmap, dif_pos hdir, addrOrAlloc_of_ne hne]
    rfl
  · have hi : ip.addrs ind ≠ 0 := fun hi => hne (blockAddr_of_ind_eq_zero (by omega) hi)
    have hk : bn - NDIRECT < NINDIRECT := by
      simp only [MAXFILE, NDIRECT, NINDIRECT, BSIZE] at hbn hdir ⊢
      omega
    rw [blockAddr_indirect (by omega) hbn hi] at hne ⊢
    rw [bmap, dif_neg hdir]
    simp only [if_pos hk, addrOrAlloc_of_ne hi, pure_bind, bind_apply, bread_apply, ok_bind, if_neg hne,
      pure_apply]

/-- The bytes `readi` copies out of the chunk at `off` are the file's. -/
theorem chunk_bytes {d : Disk} {ip : Inode} {n tot off : Nat} :
    ((List.range (chunk n tot off)).map fun j => d (blockAddr d ip (off / BSIZE)) (off % BSIZE + j)) =
      (List.range (chunk n tot off)).map fun j => byteAt d ip (off + j) := by
  refine List.map_congr_left fun j hj => ?_
  obtain ⟨hd, hm⟩ := div_of_mem_chunk (chunk_fits n tot off) (Nat.le_add_right off j)
    (Nat.add_lt_add_left (List.mem_range.mp hj) off)
  rw [byteAt, hd, hm, Nat.add_sub_cancel_left]

/-- `readi`'s loop over mapped bytes: the state and the inode stay as
they are; with every copy out allowed it returns all `n` bytes. -/
theorem readLoop_spec {ip : Inode} {ok : Nat → Nat → Bool} {n off₀ : Nat} {s₀ : Tx}
    (hmax : off₀ + n ≤ MAXFILE * BSIZE) (hmap : ∀ i, off₀ ≤ i → i < off₀ + n → blockAddr s₀.disk ip (i / BSIZE) ≠ 0) :
    ∀ fuel tot acc, n - tot ≤ fuel → tot ≤ n → acc = (List.range tot).map (fun j => byteAt s₀.disk ip (off₀ + j)) →
      Triple (· = s₀) (readLoop ok n fuel ip tot (off₀ + tot) acc)
        (fun r s => s = s₀ ∧ r.2.2 = ip ∧ ((∀ t m, ok t m = true) →
          r.1 = n ∧ r.2.1 = (List.range n).map fun j => byteAt s₀.disk ip (off₀ + j)))
        fun _ => False := by
  intro fuel
  induction fuel with
  | zero =>
      intro tot acc hf hle hacc
      have htot : tot = n := by omega
      subst htot hacc
      exact Triple.ret fun s hs => ⟨hs, rfl, fun _ => ⟨rfl, rfl⟩⟩
  | succ fuel ih =>
      intro tot acc hf hle hacc
      rw [readLoop]
      refine Triple.ite (fun hlt => ?_) fun hge => Triple.ret fun s hs => ?_
      · have hbn : (off₀ + tot) / BSIZE < MAXFILE := by
          simp only [MAXFILE, NDIRECT, NINDIRECT, BSIZE] at hmax ⊢
          omega
        have hne := hmap (off₀ + tot) (Nat.le_add_right _ _) (by omega)
        have hpos : 0 < chunk n tot (off₀ + tot) := chunk_pos hlt
        have hcl := chunk_le n tot (off₀ + tot)
        -- the block is mapped: `bmap` is a lookup
        refine Triple.bind (R := fun r s => r = (blockAddr s₀.disk ip ((off₀ + tot) / BSIZE), ip) ∧ s = s₀)
          (Triple.intro fun s hs => by subst hs; rw [bmap_of_mapped hbn hne]; exact ⟨rfl, rfl⟩)
          fun r => Triple.pre_and fun hr => ?_
        subst hr
        refine Triple.bind (R := fun a s => a = s₀.disk (blockAddr s₀.disk ip ((off₀ + tot) / BSIZE)) ∧ s = s₀)
          (Triple.intro fun s hs => by subst hs; exact ⟨rfl, rfl⟩) fun a => Triple.pre_and fun ha => ?_
        subst ha
        dsimp only
        refine Triple.ite (fun hok => ?_) fun hok => Triple.ret fun s hs => ⟨hs, rfl, fun hall => absurd (hall _ _) hok⟩
        rw [chunk_bytes, show off₀ + tot + chunk n tot (off₀ + tot) = off₀ + (tot + chunk n tot (off₀ + tot)) by omega]
        refine ih _ _ (by omega) (by omega) ?_
        rw [hacc, List.range_add, List.map_append, List.map_map]
        congr 1
        refine List.map_congr_left fun j _ => ?_
        simp only [Function.comp, Nat.add_assoc]
      · exact ⟨hs, rfl, fun _ => ⟨by omega, by rw [hacc, show tot = n by omega]⟩⟩

/-- `readi` refuses a read that starts past the end or wraps around. -/
theorem readi_of_refused {ip : Inode} {ok : Nat → Nat → Bool} {off n : Nat}
    (h : off > ip.size ∨ (off + n) % 2 ^ 32 < off) : readi ip ok off n = pure (0, [], ip) := by
  rw [readi, if_pos h]

/-- `readi` of a mapped inode: it reads `min(n, size - off)` bytes of
the content, and changes neither the state nor the inode; with every
copy out allowed it returns that count. -/
theorem readi_spec {ip : Inode} {ok : Nat → Nat → Bool} {off n : Nat} {s₀ : Tx} (hm : Mapped s₀.disk ip)
    (hoff : off ≤ ip.size) (hov : off + n < 2 ^ 32) :
    Triple (· = s₀) (readi ip ok off n)
      (fun r s => s = s₀ ∧ r.2.2 = ip ∧ ((∀ t m, ok t m = true) →
        r.1 = min n (ip.size - off) ∧ r.2.1 = ((content s₀.disk ip).drop off).take n))
      fun _ => False := by
  rw [readi, if_neg (by rw [Nat.mod_eq_of_lt hov]; omega)]
  dsimp only
  -- `n` is cut to the bytes below the size
  have hn : (if off + n > ip.size then ip.size - off else n) = min n (ip.size - off) := by
    split <;> omega
  rw [hn]
  have hspec := @readLoop_spec ip ok (min n (ip.size - off)) off s₀
    (by have := hm.size_le; omega) (fun i _ hi => hm.mapped i (by omega)) (min n (ip.size - off)) 0 []
    (by omega) (Nat.zero_le _) rfl
  rw [Nat.add_zero] at hspec
  refine hspec.conseq (fun _ h => h) (fun r s ⟨hs, hip, hall⟩ => ⟨hs, hip, fun h => ?_⟩) fun _ => id
  obtain ⟨h₁, h₂⟩ := hall h
  refine ⟨h₁, h₂.trans ?_⟩
  -- the `min n (size - off)` bytes from `off` are the content's
  refine List.ext_getElem (by
    simp only [List.length_take, List.length_drop, List.length_map, List.length_range, length_content])
    fun j h₁ h₂ => ?_
  simp only [List.getElem_map, List.getElem_range, List.getElem_take, List.getElem_drop, content]

end Xv6.Fs
