import Xv6.User.Umalloc

/-!
A request the heap cannot hold that `malloc` hands out all the same.

For `nbytes` within 16 of `2 ^ 32`, `nunits` is `2 ^ 28 + 1`, and
`morecore` asks `sbrk` for `nunits * sizeof(Header) = 2 ^ 32 + 16`
bytes, which reach `sbrk` as the `int` 16. The heap grows by 16 bytes,
yet the new block's header says `2 ^ 28 + 1` units, and `malloc` returns
the byte after that header: the block it promises runs almost `2 ^ 32`
bytes past the break (`malloc_overruns_break`).

The steps are each function's spec lemma: `sbrk_of_lt` for a growth
that fits, `free_into_base` for the first `free` into the list of
`base` alone, and `mallocLoop_fit` and `mallocLoop_more` for the two
ways a turn of `malloc`'s scan ends.
-/

namespace Xv6.Umalloc

theorem nunitsOf_large {nbytes : UInt32} (hn : 2 ^ 32 - HEADER < nbytes.toNat) :
    nunitsOf nbytes = 268435457 := by
  have hlt := nbytes.toNat_lt
  apply UInt32.toNat_inj.1
  rw [nunitsOf, Nat.toUInt32_eq, UInt32.toNat_ofNat',
    show (268435457 : UInt32).toNat = 268435457 from rfl]
  simp only [HEADER] at hn ⊢
  omega

/-- `(int)((2 ^ 28 + 1) * sizeof(Header))`. -/
theorem toInt_large : toInt (268435457 * HEADER) = 16 := by decide

/-- `sbrk(n)` for `0 < n` with room for it below `2 ^ 32`. -/
theorem sbrk_of_lt {sz : Nat} (n : Nat) (hn : 0 < n) (h : sz + n < 2 ^ 32) :
    sbrk sz true n = some (sz, sz + n) := by
  have ht : (((sz : Int) + n) % 2 ^ 32).toNat = sz + n := by omega
  have hpos : (0 : Int) < n := by omega
  rw [sbrk, growproc]
  simp only [ht, if_pos hpos, show ¬ sz + n < sz by omega, if_false, if_true,
    show sz + n ≠ 0 by omega]
  rfl

theorem morecore_of_sbrk {fuel : Nat} {fits : Bool} {h : Heap} {nu : UInt32} {p brk : Nat}
    (hs : sbrk h.brk fits (toInt ((if nu < 4096 then 4096 else nu).toNat * HEADER)) = some (p, brk)) :
    morecore fuel fits h nu =
      (free fuel { h with mem := setSize h.mem p (if nu < 4096 then 4096 else nu), brk := brk }
        (p + HEADER)).map fun h => (h, h.freep) := by
  rw [morecore]
  simp only [hs]

/-- The first `free`, of a block above `base`, into the list of `base`
alone: the block goes after `base` and points back to it. -/
theorem free_into_base (fuel : Nat) {h : Heap} {base bp : Nat} (hf : h.freep = base)
    (hb : h.mem base = ⟨base, 0⟩) (hlt : base < bp)
    (hne : bp + HEADER * (h.mem bp).size.toNat ≠ base) :
    free (fuel + 1) h (bp + HEADER) =
      some { h with mem := setPtr (setPtr h.mem bp base) base bp, freep := base } := by
  have hbp : bp ≠ base := Nat.ne_of_gt hlt
  -- the search stops at once, at the list's wrap
  have hscan : freeScan h.mem bp (fuel + 1) base = some base := by
    simp [freeScan, hb, hlt]
  -- `bp` ends below `base`'s successor, `base` itself, and `base` is empty
  have habove : joinAbove h.mem bp base = setPtr h.mem bp base := by
    rw [joinAbove, hb]
    exact if_neg hne
  have hbelow : joinBelow (setPtr h.mem bp base) base bp = setPtr (setPtr h.mem bp base) base bp := by
    rw [joinBelow, setPtr_of_ne _ (Ne.symm hbp), hb]
    simp [hbp.symm]
  simp only [free, Nat.add_sub_cancel, hf, hscan, Option.map_some, habove, hbelow]

/-- A turn of `malloc`'s scan at a block of exactly `nunits` units:
it is unlinked and returned. -/
theorem mallocLoop_fit {fits : Bool} {nunits : UInt32} (fuel : Nat) {h : Heap} {prevp p : Nat}
    (hs : (h.mem p).size = nunits) :
    mallocLoop fits nunits (fuel + 1) h prevp p =
      some ({ h with mem := setPtr h.mem prevp (h.mem p).ptr, freep := prevp }, p + HEADER) := by
  rw [mallocLoop, if_pos (by rw [hs]; exact UInt32.le_refl _), if_pos hs]

/-- A turn of `malloc`'s scan at a block too small for the request, back
at `freep`: `morecore`, and the scan goes on from what it returns. -/
theorem mallocLoop_more {fits : Bool} {nunits : UInt32} (fuel : Nat) {h : Heap} {prevp p : Nat}
    (hs : (h.mem p).size < nunits) (hp : p = h.freep) {h' : Heap} {q : Nat}
    (hm : morecore fuel fits h nunits = some (h', q)) (hq : q ≠ 0) :
    mallocLoop fits nunits (fuel + 1) h prevp p = mallocLoop fits nunits fuel h' q (h'.mem q).ptr := by
  rw [mallocLoop, if_neg (UInt32.not_le.2 hs), if_pos hp, hm]
  simp only [if_neg hq]

/-- From the program's first heap, `malloc` of a request within 16 bytes
of `2 ^ 32` grows the heap by 16 bytes and returns the byte after the
new header: the block it promises ends far beyond the break. -/
theorem malloc_overruns_break {base b0 : Nat} (hbase : 0 < base) (hb : base + HEADER ≤ b0)
    (hb32 : b0 + HEADER < 2 ^ 32) (mem : Nat → Header) {nbytes : UInt32}
    (hn : 2 ^ 32 - HEADER < nbytes.toNat) (fuel : Nat) :
    ∃ h, malloc base (fuel + 2) true ⟨mem, 0, b0⟩ nbytes = some (h, b0 + HEADER) ∧
      h.brk = b0 + HEADER ∧ h.brk < b0 + HEADER + nbytes.toNat := by
  simp only [HEADER] at hb hb32 hn
  have hne : b0 ≠ base := by omega
  -- `malloc` starts the list with `base` alone
  let h0 : Heap := ⟨setSize (setPtr mem base base) base 0, base, b0⟩
  have h0base : h0.mem base = ⟨base, 0⟩ := by simp [h0]
  -- `morecore` gets 16 bytes at `b0` and frees them as a block of `2 ^ 28 + 1` units
  let m1 := setSize h0.mem b0 268435457
  have h1base : m1 base = ⟨base, 0⟩ := by simp [m1, setSize_of_ne _ hne.symm, h0base]
  have h1b0 : (m1 b0).size = 268435457 := by simp [m1]
  have hmore : morecore (fuel + 1) true h0 268435457 =
      some (⟨setPtr (setPtr m1 b0 base) base b0, base, b0 + HEADER⟩, base) := by
    have hs : sbrk h0.brk true (toInt ((if (268435457 : UInt32) < 4096 then (4096 : UInt32)
        else 268435457).toNat * HEADER)) = some (b0, b0 + HEADER) := by
      rw [show (if (268435457 : UInt32) < 4096 then (4096 : UInt32) else 268435457).toNat * HEADER =
        268435457 * HEADER from rfl, toInt_large]
      exact sbrk_of_lt 16 (by decide) hb32
    rw [morecore_of_sbrk hs, show (if (268435457 : UInt32) < 4096 then (4096 : UInt32)
      else 268435457) = 268435457 from rfl]
    rw [@free_into_base fuel ⟨m1, base, b0 + HEADER⟩ base b0 rfl h1base (by omega)
      (by rw [h1b0]; simp only [HEADER]; omega)]
    rfl
  refine ⟨⟨setPtr (setPtr (setPtr m1 b0 base) base b0) base base, base, b0 + HEADER⟩, ?_, rfl, ?_⟩
  · rw [malloc, if_pos rfl, nunitsOf_large (by simpa only [HEADER] using hn)]
    show mallocLoop true 268435457 (fuel + 1 + 1) h0 base (h0.mem base).ptr = _
    rw [h0base, mallocLoop_more (fuel + 1)
      (by rw [h0base]; exact (by decide : (0 : UInt32) < 268435457)) rfl hmore (by omega)]
    -- the scan moves from `base` to the new block, which fits exactly
    simp only [setPtr_self]
    rw [mallocLoop_fit fuel (by simp [setPtr_of_ne _ hne, h1b0])]
    simp [setPtr_of_ne _ hne]
  · show b0 + HEADER < b0 + HEADER + nbytes.toNat
    simp only [HEADER]
    omega

/-- `malloc(0xffffffff)` as a program's first call, with `base` at 8 and
the heap from 4096: a 16-byte heap and a pointer to its end. -/
theorem malloc_overruns_break_max :
    ∃ h, malloc 8 (0 + 2) true ⟨fun _ => ⟨0, 0⟩, 0, 4096⟩ 0xFFFFFFFF = some (h, 4096 + HEADER) ∧
      h.brk = 4096 + HEADER ∧ h.brk < 4096 + HEADER + (0xFFFFFFFF : UInt32).toNat :=
  malloc_overruns_break (by decide) (by decide) (by decide) _ (by decide) 0

end Xv6.Umalloc
