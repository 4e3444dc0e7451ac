import Mathlib.Logic.Function.Basic
import Mathlib.Tactic.Ring
import Mathlib.Tactic.Linarith
import Mathlib.Data.Nat.Bitwise

/-!
Byte-addressed memory as a function `Nat → UInt8`, with the two
operations a C structure cast over a byte buffer performs: read the
little-endian number stored in `k` consecutive bytes, and store one.

The lemmas are the ones a layout proof needs: a store reads back
modulo `256 ^ k`, a store leaves every byte outside its range alone,
and a read depends only on the bytes of its range. Nothing here is
specific to one structure layout.

A bitmap over the bytes is read bit `i % 8` of byte `i / 8`, and set
and cleared the way C does it, with `|= 1 << k` and `&= ~(1 << k)` on
one `uchar`.
-/

/-- A byte-addressed memory region: the model of a C `uchar` array.
Bytes past the end of the C array exist in the model but are never
read by a modelled function. -/
abbrev ByteMap := Nat → UInt8

namespace ByteMap

/-- The little-endian number stored in the `k` bytes at `off`. -/
@[grind] def getLE (m : ByteMap) (off : Nat) : Nat → Nat
  | 0 => 0
  | k + 1 => (m off).toNat + 256 * getLE m (off + 1) k

/-- Store the low `8k` bits of `v` little-endian in the `k` bytes at
`off`. -/
@[grind] def setLE (m : ByteMap) (off : Nat) : Nat → Nat → ByteMap
  | 0, _ => m
  | k + 1, v => setLE (Function.update m off (UInt8.ofNat v)) (off + 1) k (v / 256)

-- ===================================================== the frame

/-- A store changes no byte outside its range. -/
theorem setLE_apply_of_not_mem {m : ByteMap} {off k i : Nat} (v : Nat)
    (h : i < off ∨ off + k ≤ i) : setLE m off k v i = m i := by
  induction k generalizing m off v with
  | zero => rfl
  | succ k ih =>
      have hne : i ≠ off := by omega
      rw [setLE, ih (v / 256) (by omega), Function.update_of_ne hne]

/-- A read depends only on the bytes of its range. -/
theorem getLE_congr {m : ByteMap} (m' : ByteMap) {off : Nat} :
    ∀ {k}, (∀ i, off ≤ i → i < off + k → m i = m' i) →
      getLE m off k = getLE m' off k := by
  intro k
  induction k generalizing off with
  | zero => intro _; rfl
  | succ k ih =>
      intro h
      rw [getLE, getLE, h off le_rfl (by omega),
        ih fun i h1 h2 => h i (by omega) (by omega)]

/-- A store is invisible to a read of a disjoint range. -/
theorem getLE_setLE_of_disjoint {m : ByteMap} {off k off' k' : Nat} (v : Nat)
    (h : off' + k' ≤ off ∨ off + k ≤ off') :
    getLE (setLE m off k v) off' k' = getLE m off' k' :=
  getLE_congr m fun i h1 h2 => setLE_apply_of_not_mem v (by omega)

-- ================================================== the round trip

/-- A store reads back modulo `256 ^ k`. -/
theorem getLE_setLE (m : ByteMap) (off k v : Nat) :
    getLE (setLE m off k v) off k = v % 256 ^ k := by
  induction k generalizing m off v with
  | zero => simp [getLE, Nat.mod_one]
  | succ k ih =>
      have hlow : setLE (Function.update m off (UInt8.ofNat v)) (off + 1) k (v / 256) off
          = UInt8.ofNat v := by
        rw [setLE_apply_of_not_mem _ (by omega), Function.update_self]
      rw [setLE, getLE, hlow, ih, UInt8.toNat_ofNat']
      -- the low byte, then the remaining `k` bytes of `v / 256`
      rw [show (2 : Nat) ^ 8 = 256 from rfl, pow_succ', Nat.mod_mul]

/-- A number below `256 ^ k` reads back exactly. -/
theorem getLE_setLE_of_lt (m : ByteMap) {off k v : Nat} (hv : v < 256 ^ k) :
    getLE (setLE m off k v) off k = v := by
  rw [getLE_setLE, Nat.mod_eq_of_lt hv]

/-- Every read is below `256 ^ k`. -/
theorem getLE_lt (m : ByteMap) (off : Nat) : ∀ k, getLE m off k < 256 ^ k := by
  intro k
  induction k generalizing off with
  | zero => simp [getLE]
  | succ k ih =>
      have hb := (m off).toNat_lt
      have hr := ih (off + 1)
      rw [getLE, pow_succ']
      omega

-- ====================================================== memset

/-- `memset(m + off, 0, k)`. -/
def zero (m : ByteMap) (off k : Nat) : ByteMap := fun i => if off ≤ i ∧ i < off + k then 0 else m i

theorem zero_apply_of_not_mem {m : ByteMap} {off k i : Nat} (h : i < off ∨ off + k ≤ i) :
    zero m off k i = m i := by
  simp only [zero]
  rw [if_neg (by omega)]

/-- A read inside a zeroed range reads zero. -/
theorem getLE_zero {m : ByteMap} {off k off' k' : Nat} (h₁ : off ≤ off') (h₂ : off' + k' ≤ off + k) :
    getLE (zero m off k) off' k' = 0 := by
  induction k' generalizing off' with
  | zero => rfl
  | succ k' ih =>
      rw [getLE, ih (by omega) (by omega)]
      simp only [zero]
      rw [if_pos (by omega)]
      rfl

/-- A read of a zero-filled map reads zero. -/
theorem getLE_const_zero (off : Nat) : ∀ k, getLE (fun _ => 0) off k = 0 := by
  intro k
  induction k generalizing off with
  | zero => rfl
  | succ k ih => rw [getLE, ih]; rfl

-- ========================================================= bits

/-- `1 << k` as the `uchar` it is stored into. -/
def mask (k : Nat) : UInt8 := 1 <<< k.toUInt8

theorem mask_toNat {k : Nat} (hk : k < 8) : (mask k).toNat = 2 ^ k := by
  have h2 : 2 ^ k < 256 := by
    calc 2 ^ k < 2 ^ 8 := Nat.pow_lt_pow_right (by decide) hk
      _ = 256 := rfl
  simp [mask, UInt8.toNat_shiftLeft, Nat.mod_eq_of_lt hk, Nat.one_shiftLeft, Nat.mod_eq_of_lt h2]

/-- `(x & (1 << k)) == 0` tests bit `k`. -/
theorem and_mask_eq_zero (x : UInt8) {k : Nat} (hk : k < 8) :
    (x &&& mask k == 0) = !x.toNat.testBit k := by
  have hnat : (x &&& mask k).toNat = (x.toNat.testBit k).toNat * 2 ^ k := by
    rw [UInt8.toNat_and, mask_toNat hk, Nat.and_two_pow]
  cases hb : x.toNat.testBit k
  · have : x &&& mask k = 0 := UInt8.toNat_inj.mp (by rw [hnat, hb]; simp)
    simp [this]
  · have : x &&& mask k ≠ 0 := fun h => by
      have := congrArg UInt8.toNat h
      rw [hnat, hb] at this
      simp at this
    simp [this]

theorem testBit_or_mask (x : UInt8) {k : Nat} (hk : k < 8) (j : Nat) :
    (x ||| mask k).toNat.testBit j = (x.toNat.testBit j || decide (j = k)) := by
  rw [UInt8.toNat_or, mask_toNat hk, Nat.testBit_or, Nat.testBit_two_pow]
  simp [eq_comm]

theorem testBit_and_not_mask (x : UInt8) {k : Nat} (hk : k < 8) {j : Nat} (hj : j < 8) :
    (x &&& ~~~mask k).toNat.testBit j = (x.toNat.testBit j && !decide (j = k)) := by
  -- the complement of one bit, within a byte
  have hbits : ∀ k < 8, ∀ j < 8, (UInt8.size - 1 - 2 ^ k).testBit j = !decide (j = k) := by
    decide
  rw [UInt8.toNat_and, Nat.testBit_and, UInt8.toNat_not, mask_toNat hk, hbits k hk j hj]

/-- Bit `i` of the bitmap the bytes hold. -/
def bit (m : ByteMap) (i : Nat) : Bool := (m (i / 8)).toNat.testBit (i % 8)

/-- `m[i / 8] |= 1 << (i % 8)`. -/
def setBit (m : ByteMap) (i : Nat) : ByteMap := Function.update m (i / 8) (m (i / 8) ||| mask (i % 8))

/-- `m[i / 8] &= ~(1 << (i % 8))`. -/
def clearBit (m : ByteMap) (i : Nat) : ByteMap :=
  Function.update m (i / 8) (m (i / 8) &&& ~~~mask (i % 8))

/-- Two bits of one byte are one bit when their positions agree. -/
theorem eq_of_div_mod {i j : Nat} (hd : j / 8 = i / 8) (hm : j % 8 = i % 8) : j = i := by
  rw [← Nat.div_add_mod j 8, ← Nat.div_add_mod i 8, hd, hm]

theorem bit_setBit (m : ByteMap) (i j : Nat) : bit (setBit m i) j = (bit m j || decide (j = i)) := by
  unfold bit setBit
  by_cases hd : j / 8 = i / 8
  · rw [hd, Function.update_self, testBit_or_mask _ (Nat.mod_lt _ (by decide))]
    congr 1
    exact decide_eq_decide.mpr ⟨eq_of_div_mod hd, fun h => h ▸ rfl⟩
  · rw [Function.update_of_ne hd]
    have hne : j ≠ i := fun h => hd (h ▸ rfl)
    simp [hne]

theorem bit_clearBit (m : ByteMap) (i j : Nat) : bit (clearBit m i) j = (bit m j && !decide (j = i)) := by
  unfold bit clearBit
  by_cases hd : j / 8 = i / 8
  · rw [hd, Function.update_self,
      testBit_and_not_mask _ (Nat.mod_lt _ (by decide)) (Nat.mod_lt _ (by decide))]
    congr 2
    exact decide_eq_decide.mpr ⟨eq_of_div_mod hd, fun h => h ▸ rfl⟩
  · rw [Function.update_of_ne hd]
    have hne : j ≠ i := fun h => hd (h ▸ rfl)
    simp [hne]

/-- The test `(m[i / 8] & (1 << (i % 8))) == 0` reads bit `i`. -/
theorem test_eq_not_bit (m : ByteMap) (i : Nat) : (m (i / 8) &&& mask (i % 8) == 0) = !bit m i :=
  and_mask_eq_zero _ (Nat.mod_lt _ (by decide))

end ByteMap
