import Xv6.Fs.Proofs.Alloc

/-!
A locked inode refines a byte string.

# The abstract file

A file is the list of its bytes. A read of `n` bytes at `off` returns
the bytes from `off` on, at most `n`; a write of `n` bytes at `off`
splices them in (`splice`), growing the file when it writes past the
end; a truncation empties it. Reads that start past the end or whose end
wraps around the 32-bit offset return `0`; such writes, and writes
ending past `MAXFILE` blocks, return `-1`. `FileOp.spec` says this of
one call and `specFile` of a sequence.

# The refinement

The byte string of a locked inode is `content`, its first `size` bytes
in block-map order. From a state where the inode holds its blocks and
maps every byte below its size (`FileInv`), `readi`, `writei` and
`itrunc` with kernel buffers return what the byte string returns and
leave an inode whose content is the new byte string (`FileOp.run_spec`),
and so does every sequence of them (`runFile_spec`), except that a
write may find no free block for a block it must map: `balloc` then
panics with `"balloc: out of blocks"`, which a full disk shows
(`writei_out_of_blocks`).
-/

namespace Xv6.Fs

open Prog Inode

-- =================================================== the abstract file

section Splice

variable {α : Type} {c b : List α} {off : Nat}

/-- `c` with the bytes `b` written from `off` on. -/
def splice (c : List α) (off : Nat) (b : List α) : List α := c.take off ++ b ++ c.drop (off + b.length)

theorem length_splice (h : off ≤ c.length) : (splice c off b).length = max c.length (off + b.length) := by
  simp only [splice, List.length_append, List.length_take, List.length_drop]
  omega

theorem getD_splice (h : off ≤ c.length) (j : Nat) (x : α) :
    (splice c off b).getD j x =
      if j < off then c.getD j x else if j < off + b.length then b.getD (j - off) x else c.getD j x := by
  simp only [splice, List.getD_eq_getElem?_getD]
  split
  · rename_i hj
    rw [List.append_assoc, List.getElem?_append_left (by simp only [List.length_take]; omega),
      List.getElem?_take_of_lt hj]
  · split
    · rename_i hj₁ hj₂
      rw [List.getElem?_append_left (by simp only [List.length_append, List.length_take]; omega),
        List.getElem?_append_right (by simp only [List.length_take]; omega), List.length_take,
        Nat.min_eq_left h]
    · rename_i hj₁ hj₂
      rw [List.getElem?_append_right (by simp only [List.length_append, List.length_take]; omega),
        List.getElem?_drop, List.length_append, List.length_take, Nat.min_eq_left h]
      congr 2
      omega

/-- A list is its elements read off by index. -/
theorem eq_map_getD (l : List α) (x : α) : l = (List.range l.length).map fun j => l.getD j x := by
  refine List.ext_getElem (by simp) fun j h₁ h₂ => ?_
  rw [List.getElem_map, List.getElem_range]
  exact (List.getD_eq_getElem _ _ h₁).symm

end Splice

/-- A call on a locked inode with kernel buffers: `readi` of `n` bytes
at `off`, `writei` of the `n` bytes of `src` at `off`, or `itrunc`. -/
inductive FileOp
  | read (off n : UInt32)
  | write (off n : UInt32) (src : Nat → UInt8)
  | trunc

namespace FileOp

/-- A read or write refused for where it starts or ends. -/
def Refused (c : List UInt8) (off n : UInt32) : Prop := c.length < off.toNat ∨ 2 ^ 32 ≤ off.toNat + n.toNat

instance (c : List UInt8) (off n : UInt32) : Decidable (Refused c off n) := by
  unfold Refused
  exact inferInstance

/-- What a call returns, its count and the bytes it read, and the byte
string after it. -/
@[grind] def spec : FileOp → List UInt8 → (Int × List UInt8) × List UInt8
  | .read off n, c =>
      if Refused c off n then ((0, []), c)
      else ((↑(min n.toNat (c.length - off.toNat)), (c.drop off.toNat).take n.toNat), c)
  | .write off n src, c =>
      if Refused c off n ∨ MAXFILE * BSIZE < off.toNat + n.toNat then ((-1, []), c)
      else ((n.toNat, []), splice c off.toNat ((List.range n.toNat).map src))
  | .trunc, _ => ((0, []), [])

/-- The calls that change nothing: reads, and refused writes. -/
def Unchanging : FileOp → List UInt8 → Prop
  | .read _ _, _ => True
  | .write off n _, c => Refused c off n ∨ MAXFILE * BSIZE < off.toNat + n.toNat
  | .trunc, _ => False

/-- Whether a call may allocate blocks. -/
def allocates : FileOp → Bool
  | .write _ _ _ => true
  | _ => false

/-- The call, on the locked inode. -/
@[grind] def run : FileOp → Inode → FsM (Int × List UInt8 × Inode)
  | .read off n, ip => readi ip kernelDst off.toNat n.toNat
  | .write off n src, ip => do
      let (r, ip) ← writei ip (fun j => some (src j)) off.toNat n.toNat
      pure (r, [], ip)
  | .trunc, ip => do
      let ip ← itrunc ip
      pure (0, [], ip)

end FileOp

/-- The calls one after another, on the inode each leaves. -/
def runFile : List FileOp → Inode → FsM (List (Int × List UInt8) × Inode)
  | [], ip => pure ([], ip)
  | op :: ops, ip => do
      let (r, out, ip) ← op.run ip
      let (rs, ip) ← runFile ops ip
      pure ((r, out) :: rs, ip)

/-- The byte string's answers to the calls, and the byte string after them. -/
def specFile : List FileOp → List UInt8 → List (Int × List UInt8) × List UInt8
  | [], c => ([], c)
  | op :: ops, c =>
      let (r, c) := op.spec c
      let (rs, c) := specFile ops c
      (r :: rs, c)

-- =================================================== the concrete file

/-- The locked inode holds its blocks against the others' `R` and maps
every byte below its size. -/
structure FileInv (R : List Nat) (ip : Inode) (s : Tx) : Prop where
  holds : Holds R ip s
  mapped : Mapped s.disk ip
  inum : ip.inum < NINODES

variable {R : List Nat} {ip : Inode} {s₀ : Tx}

theorem getD_content {d : Disk} {ip : Inode} {j : Nat} (hj : j < ip.size) : (content d ip).getD j 0 = byteAt d ip j := by
  rw [content, List.getD_eq_getElem _ _ (by simp; exact hj), List.getElem_map, List.getElem_range]

/-- `uint` offsets: the sum wraps exactly when `writei`'s and `readi`'s
test sees it smaller than the offset. -/
theorem wraps_iff {off n : Nat} (hoff : off < 2 ^ 32) (hn : n < 2 ^ 32) :
    (off + n) % 2 ^ 32 < off ↔ 2 ^ 32 ≤ off + n := by
  constructor
  · intro h
    by_contra hlt
    rw [Nat.mod_eq_of_lt (Nat.lt_of_not_le hlt)] at h
    omega
  · intro h
    rw [Nat.mod_eq_sub_mod h, Nat.mod_eq_of_lt (by omega)]
    omega

theorem refused_iff (off n : UInt32) :
    (off.toNat > ip.size ∨ (off.toNat + n.toNat) % 2 ^ 32 < off.toNat) ↔
      FileOp.Refused (content s₀.disk ip) off n := by
  rw [FileOp.Refused, length_content, wraps_iff off.toNat_lt n.toNat_lt]

/-- What a whole `writei` of a total source leaves: the bytes spliced in. -/
theorem WriteInv.content_eq {src : Nat → Option UInt8} {n off₀ tot off : Nat} {ip₀ : Inode} {s : Tx}
    (hw : WriteInv R src n s₀ ip₀ off₀ ip tot off s) (hm : Mapped s₀.disk ip₀) (hoff : off₀ ≤ ip₀.size)
    (ht : Total src n) (htot : tot = n) (hi : ip.inum < NINODES) :
    content (s.update (grownTo ip off)).disk (grownTo ip off) =
      splice (content s₀.disk ip₀) off₀ ((List.range n).map fun j => (src j).getD 0) := by
  have hoff' : off = off₀ + n := by rw [hw.off_eq, htot]
  have hsize : ip.size = ip₀.size := by rw [hw.fields]
  have hlen : off₀ ≤ (content s₀.disk ip₀).length := by rw [length_content]; exact hoff
  rw [eq_map_getD (splice _ _ _) 0, length_splice hlen, length_content, List.length_map, List.length_range,
    content, grownTo_size, hsize, ← hoff']
  refine List.map_congr_left fun j hj => ?_
  have hj := List.mem_range.mp hj
  -- the bytes read through the inode written back are the loop's
  rw [byteAt_update (by unfold Holds; rw [refs_congr_addrs (grownTo_addrs ip off)]; exact hw.holds)
    (by rw [grownTo_inum]; exact hi), byteAt_congr_addrs (grownTo_addrs ip off),
    getD_splice hlen, List.length_map, List.length_range]
  split
  · -- below the write: kept
    rename_i hlt
    rw [getD_content (by omega)]
    exact hw.kept ht j (.inl hlt) (hm.mapped j (by omega))
  · split
    · -- written
      rename_i hge hlt
      rw [hw.written j (by omega) (by omega), List.getD_eq_getElem _ _ (by simp; omega), List.getElem_map,
        List.getElem_range]
    · -- past the write, below the old size: kept
      rename_i hge hge'
      rw [getD_content (by omega)]
      exact hw.kept ht j (.inr (by omega)) (hm.mapped j (by omega))

-- ============================================================ the calls

theorem FileInv.written {src : Nat → Option UInt8} {n off₀ tot off : Nat} {ip₁ : Inode} {s : Tx}
    (h : FileInv R ip s₀) (hw : WriteInv R src n s₀ ip off₀ ip₁ tot off s) (hoff : off₀ ≤ ip.size)
    (hmax : off₀ + n ≤ MAXFILE * BSIZE) : FileInv R (grownTo ip₁ off) (s.update (grownTo ip₁ off)) := by
  have hi : ip₁.inum < NINODES := by rw [hw.fields]; exact h.inum
  exact ⟨hw.holds_written hi, hw.mapped_written h.mapped hoff hmax hi, by rw [grownTo_inum]; exact hi⟩

/-- `itrunc` leaves an empty file holding no block. -/
theorem FileInv.truncated {s' : Tx} (h : FileInv R ip s₀) (hm : Marks s'.disk R) :
    FileInv R { ip with addrs := fun _ => 0, size := 0 } (s'.update { ip with addrs := fun _ => 0, size := 0 }) where
  holds := by
    unfold Holds
    rw [refs_of_addrs_zero rfl, List.append_nil]
    exact Marks.update_inode hm h.inum
  mapped := Mapped.of_size_zero rfl
  inum := h.inum

/-- One call refines its byte-string counterpart: it returns the same
and leaves the new byte string, changing nothing when the byte string
does not change; only a write can fail, when no block is free. -/
theorem FileOp.run_spec (op : FileOp) (h : FileInv R ip s₀) :
    Triple (· = s₀) (op.run ip)
      (fun r s => FileInv R r.2.2 s ∧ ((r.1, r.2.1), content s.disk r.2.2) = op.spec (content s₀.disk ip) ∧
        (op.Unchanging (content s₀.disk ip) → s = s₀ ∧ r.2.2 = ip))
      fun e => op.allocates ∧ e = "balloc: out of blocks" := by
  cases op with
  | read off n =>
      rw [FileOp.run]
      by_cases hr : FileOp.Refused (content s₀.disk ip) off n
      · rw [readi_of_refused ((refused_iff off n).mpr hr)]
        exact Triple.ret fun s hs => by
          subst hs
          exact ⟨h, by rw [FileOp.spec, if_pos hr], fun _ => ⟨rfl, rfl⟩⟩
      have hoff : off.toNat ≤ ip.size := by
        have := (not_or.mp hr).1
        rw [length_content] at this
        omega
      have hov : off.toNat + n.toNat < 2 ^ 32 := Nat.lt_of_not_le (not_or.mp hr).2
      refine (readi_spec h.mapped hoff hov).conseq (fun _ h => h) (fun r s ⟨hs, hip, hall⟩ => ?_) fun _ h => h.elim
      subst hs
      obtain ⟨h₁, h₂⟩ := hall kernelDst_ok
      refine ⟨hip ▸ h, ?_, fun _ => ⟨rfl, hip⟩⟩
      rw [FileOp.spec, if_neg hr, hip, length_content, ← h₁, ← h₂]
  | write off n src =>
      rw [FileOp.run]
      by_cases hr : FileOp.Refused (content s₀.disk ip) off n ∨ MAXFILE * BSIZE < off.toNat + n.toNat
      · -- refused: `-1`, and nothing changes
        have hr' : off.toNat > ip.size ∨ (off.toNat + n.toNat) % 2 ^ 32 < off.toNat ∨
            off.toNat + n.toNat > MAXFILE * BSIZE := by
          rcases hr with hr | hr
          · exact (((refused_iff off n).mpr hr).elim .inl fun h => .inr (.inl h))
          · exact .inr (.inr hr)
        rw [writei_of_refused hr', pure_bind]
        exact Triple.ret fun s hs => by
          subst hs
          exact ⟨h, by rw [FileOp.spec, if_pos hr], fun _ => ⟨rfl, rfl⟩⟩
      obtain ⟨hr₁, hmax⟩ := not_or.mp hr
      have hoff : off.toNat ≤ ip.size := by
        have := (not_or.mp hr₁).1
        rw [length_content] at this
        omega
      have hov : off.toNat + n.toNat < 2 ^ 32 := Nat.lt_of_not_le (not_or.mp hr₁).2
      refine Triple.bind ((writei_spec h.holds hoff hov (Nat.le_of_not_lt hmax)).err fun _ he => ⟨rfl, he⟩)
        fun ⟨r, ip'⟩ => Triple.ret fun s ⟨tot, off', ip₁, s', hw, htot, hr', hs⟩ => ?_
      obtain ⟨rfl, rfl⟩ := Prod.mk.inj hr'
      subst hs
      -- a kernel source copies every byte
      have ht : Total (fun j => some (src j)) n.toNat := fun _ _ => rfl
      have hn := htot ht
      subst hn
      refine ⟨h.written hw hoff (Nat.le_of_not_lt hmax), ?_, fun hu => absurd hu hr⟩
      rw [hw.content_eq h.mapped hoff ht rfl (by rw [hw.fields]; exact h.inum), FileOp.spec, if_neg hr]
      rfl
  | trunc =>
      rw [FileOp.run]
      refine Triple.bind ((itrunc_spec h.holds).err fun _ h => h.elim) fun _ =>
        Triple.ret fun s ⟨hip, s', hm, _, hs⟩ => ?_
      subst hs hip
      exact ⟨h.truncated hm, rfl, fun hu => hu.elim⟩

/-- A sequence of calls refines the byte string's answers, unless a
write finds no free block. -/
theorem runFile_spec : ∀ (ops : List FileOp) {ip : Inode} {s₀ : Tx}, FileInv R ip s₀ →
    Triple (· = s₀) (runFile ops ip)
      (fun r s => FileInv R r.2 s ∧ (r.1, content s.disk r.2) = specFile ops (content s₀.disk ip))
      fun e => e = "balloc: out of blocks"
  | [], _, _, h => Triple.ret fun s hs => by subst hs; exact ⟨h, rfl⟩
  | op :: ops, _, _, h => by
      rw [runFile]
      refine Triple.bind ((op.run_spec h).err fun _ he => he.2) fun ⟨r, out, ip₁⟩ =>
        Triple.pre fun s₁ ⟨h₁, hspec, _⟩ => ?_
      dsimp only at h₁ hspec ⊢
      refine Triple.bind ((runFile_spec ops h₁).conseq (fun _ hs => hs ▸ rfl) (fun _ _ h => h) fun _ => id)
        fun ⟨rs, ip₂⟩ => Triple.ret fun s₂ ⟨h₂, hrest⟩ => ⟨h₂, ?_⟩
      dsimp only at hrest ⊢
      -- the first call's answer, then the rest's from the byte string it left
      rw [specFile, ← hspec]
      dsimp only
      rw [← hrest]

/-- A locked inode refines its byte string, call by call and over any
sequence of calls: every call returns what the byte string returns and
leaves an inode whose content is the new byte string, reads and refused
writes change nothing, and the only failure is a write that finds no
free block. -/
theorem inode_refines_bytes (h : FileInv R ip s₀) :
    (∀ op : FileOp, Triple (· = s₀) (op.run ip)
      (fun r s => FileInv R r.2.2 s ∧ ((r.1, r.2.1), content s.disk r.2.2) = op.spec (content s₀.disk ip) ∧
        (op.Unchanging (content s₀.disk ip) → s = s₀ ∧ r.2.2 = ip))
      fun e => op.allocates ∧ e = "balloc: out of blocks") ∧
    ∀ ops : List FileOp, Triple (· = s₀) (runFile ops ip)
      (fun r s => FileInv R r.2 s ∧ (r.1, content s.disk r.2) = specFile ops (content s₀.disk ip))
      fun e => e = "balloc: out of blocks" :=
  ⟨fun op => op.run_spec h, fun ops => runFile_spec ops h⟩

/-- An allocated inode of a state satisfying the allocation invariant,
locked: it holds its blocks against the others', and is mapped. -/
theorem fileInv_of_alloc {s : Tx} (h : AllocInv s.disk) {i : Nat} (hi : i < NINODES)
    (ht : (dinode s.disk i).type ≠ 0) : FileInv (heldOthers s.disk i) (dinode s.disk i) s :=
  ⟨h.holds hi ht, h.mapped i hi ht, hi⟩

/-- The refinement at the root directory of `mkfs`'s image, for a write
and a read back. -/
theorem inode_refines_bytes_mkfs :
    FileInv (heldOthers mkfsDisk ROOTINO) (dinode mkfsDisk ROOTINO) ⟨mkfsDisk, []⟩ ∧
      Triple (· = ⟨mkfsDisk, []⟩) (runFile [.write 0 1 fun _ => 7, .read 0 1] (dinode mkfsDisk ROOTINO))
        (fun r s => FileInv (heldOthers mkfsDisk ROOTINO) r.2 s ∧
          (r.1, content s.disk r.2) =
            specFile [.write 0 1 fun _ => 7, .read 0 1] (content mkfsDisk (dinode mkfsDisk ROOTINO)))
        fun e => e = "balloc: out of blocks" :=
  have h := @fileInv_of_alloc ⟨mkfsDisk, []⟩ mkfsDisk_inv ROOTINO (by decide)
    (by rw [show (⟨mkfsDisk, []⟩ : Tx).disk = mkfsDisk from rfl, mkfs_dinode_root]; decide)
  ⟨h, (inode_refines_bytes h).2 _⟩

-- ======================================================== a full disk

/-- `balloc` on a bitmap that marks every block panics. -/
theorem balloc_of_full {s : Tx} {bs : List Nat} (hm : Marks s.disk bs)
    (hfull : ∀ x, nmeta ≤ x → x < FSSIZE → x ∈ bs) : balloc s = .error "balloc: out of blocks" :=
  -- a claimed block would be a free data block, and there is none
  ((balloc_spec hm).conseq (fun _ h => h) (fun r _ ⟨hr, hrs, hn, _⟩ => hn (hfull r hr hrs)) fun _ he => he.1).fails rfl

/-- A disk whose bitmap marks every block, all of them held by inodes. -/
def fullDisk : Disk := fun b => if b = bmapstart then fun _ => 255 else fun _ => 0

/-- An empty file on it. -/
def emptyFile : Inode where
  inum := 2
  type := T_FILE
  major := 0
  minor := 0
  nlink := 1
  size := 0
  addrs := fun _ => 0

theorem fileInv_full : FileInv (List.range' nmeta (FSSIZE - nmeta)) emptyFile ⟨fullDisk, []⟩ where
  holds := by
    unfold Holds
    rw [refs_of_addrs_zero rfl, List.append_nil]
    refine ⟨List.nodup_range', fun b hb => ?_, fun b hb => ?_⟩
    · rw [List.mem_range'_1] at hb
      omega
    · have hB : BBLOCK b = bmapstart := by
        simp only [BBLOCK, BPB, BSIZE, FSSIZE] at hb ⊢
        omega
      have h255 : ∀ k < 8, (255 : UInt8).toNat.testBit k = true := by decide
      simp only [used, fullDisk, hB, if_pos, ByteMap.bit, List.mem_range'_1, h255 _ (Nat.mod_lt _ (by decide)),
        true_iff]
      omega
  mapped := Mapped.of_size_zero rfl
  inum := by decide

/-- The write of one byte to an empty file of a full disk: `writei`
panics in `balloc` instead of returning `1`. -/
theorem writei_out_of_blocks :
    FileInv (List.range' nmeta (FSSIZE - nmeta)) emptyFile ⟨fullDisk, []⟩ ∧
      (FileOp.write 0 1 fun _ => 0).run emptyFile ⟨fullDisk, []⟩ = .error "balloc: out of blocks" := by
  refine ⟨fileInv_full, ?_⟩
  have hm : Marks fullDisk (List.range' nmeta (FSSIZE - nmeta)) := by
    have := fileInv_full.holds
    unfold Holds at this
    rwa [refs_of_addrs_zero rfl, List.append_nil] at this
  have hb : balloc ⟨fullDisk, []⟩ = .error "balloc: out of blocks" :=
    balloc_of_full hm fun x hx hxs => List.mem_range'_1.mpr ⟨hx, by omega⟩
  -- the write passes `writei`'s tests, and `bmap` of block 0 must allocate
  rw [FileOp.run, writei, if_neg (by decide), if_neg (by decide), show (1 : UInt32).toNat = 0 + 1 from rfl,
    show (0 : UInt32).toNat = 0 from rfl, writeLoop, if_pos (by decide), show 0 / BSIZE = 0 from rfl, bmap,
    dif_pos (by decide), addrOrAlloc, if_pos (show emptyFile.addrs _ = 0 from rfl)]
  simp only [bind_apply, hb, error_bind]

end Xv6.Fs
