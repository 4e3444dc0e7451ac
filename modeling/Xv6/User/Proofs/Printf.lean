import Mathlib.Data.Nat.Digits.Lemmas
import Xv6.User.Printf

/-!
What `vprintf` writes, against the rendering its conversions stand for.

`render long` is that rendering: the format's bytes with `%d` the
signed decimal of its `int`, `%x` the hexadecimal of its `uint`, `%p`
`0x` and sixteen digits, `%s` the string or "(null)", `%c` the byte,
`%%` a `%`, any other `%c` both bytes, a lone `%` at the end nothing,
and `%l` whatever `long` makes of its word. Numbers have no leading
zero (`numeral`, from `Nat.digits`).

`vprintf` is `render longLow` for every format and argument list
(`vprintf_eq_render`): `%l` passes its `uint64` to `printint`'s
`int xx` and writes the low 32 bits only, so `%l` of `2 ^ 32` writes
"0" (`vprintf_long_truncates`). Every number `printint` writes fits its
16-byte buffer (`printint_fits`).
-/

namespace Xv6.Printf

-- ============================================================ the rendering

/-- Digit `d` as `digits` spells it. -/
def digit (d : Nat) : UInt8 := digits.getD d 0

/-- `n` in base `b` without leading zeros: "0" for zero. -/
def numeral (b n : Nat) : List UInt8 :=
  if n = 0 then [48] else ((Nat.digits b n).map digit).reverse

/-- The signed decimal of `v`. -/
def signedDecimal (v : Int) : List UInt8 := (if v < 0 then [45] else []) ++ numeral 10 v.natAbs

/-- Exactly sixteen hexadecimal digits of `w`, the most significant first. -/
def hex16 (w : Nat) : List UInt8 := (List.range 16).map fun i => digit (w / 16 ^ (15 - i) % 16)

/-- What conversion `%c` writes for argument `a`, when it takes one;
`long` renders a `%l` word. -/
def argText (long : UInt64 → List UInt8) (c : UInt8) (a : Arg) : Option (List UInt8) :=
  if c = 100 then some (signedDecimal a.int)
  else if c = 108 then some (long a.word)
  else if c = 120 then some (numeral 16 a.uint)
  else if c = 112 then some ([48, 120] ++ hex16 a.word.toNat)
  else if c = 115 then some (if a.word = 0 then null else a.str)
  else if c = 99 then some [a.word.toUInt8]
  else none

/-- The bytes a format and its arguments stand for. -/
@[grind] def render (long : UInt64 → List UInt8) : List UInt8 → List Arg → List UInt8
  | [], _ => []
  | [37], _ => []
  | 37 :: c :: fmt, ap =>
      match argText long c (ap.headD ⟨0, []⟩) with
      | some out => out ++ render long fmt ap.tail
      | none => (if c = 37 then [37] else [37, c]) ++ render long fmt ap
  | c :: fmt, ap => c :: render long fmt ap

/-- `%l` as a `uint64` conversion: the decimal of the whole word. -/
def longDecimal (w : UInt64) : List UInt8 := numeral 10 w.toNat

/-- `%l` through an `int`: the decimal of the word's low 32 bits. -/
def longLow (w : UInt64) : List UInt8 := numeral 10 (w.toNat % 2 ^ 32)

-- ================================================================ printint

/-- The do-while loop writes the base-`b` digits of `x`, the least
significant first, and one `0` for zero. -/
theorem printintBuf_eq (b : Base) (x : Nat) :
    printintBuf b x = if x = 0 then [48] else (Nat.digits b.val x).map digit := by
  -- strong induction on `x`, one division per step
  induction x using Nat.strongRecOn with
  | ind x ih =>
  rw [printintBuf]
  by_cases hx : x = 0
  · subst hx
    simp [digits]
  · have hb : 1 < b.val := b.two_le
    rw [if_neg hx, Nat.digits_def' hb (Nat.pos_of_ne_zero hx), List.map_cons]
    split
    · rename_i hq
      rw [hq, Nat.digits_zero, List.map_nil]
      rfl
    · rename_i hq
      rw [ih _ (Nat.div_lt_self (Nat.pos_of_ne_zero hx) hb), if_neg hq]
      rfl

theorem printintBuf_reverse (b : Base) (x : Nat) : (printintBuf b x).reverse = numeral b.val x := by
  rw [printintBuf_eq, numeral]
  split <;> rfl

/-- Unsigned, `printint` writes the numeral of `xx`'s 32 bits. -/
theorem printint_unsigned (xx : Int) (b : Base) : printint xx b false = numeral b.val (xx % 2 ^ 32).toNat := by
  simp only [printint, Bool.false_and, Bool.false_eq_true, if_false, List.append_nil]
  exact printintBuf_reverse b _

/-- Signed, `printint` writes the signed decimal of any `int`,
`INT_MIN` included: `-xx` and the `uint` agree on `|xx| ≤ 2 ^ 31`. -/
theorem printint_signed (xx : Int) (hlo : -2 ^ 31 ≤ xx) (hhi : xx < 2 ^ 31) :
    printint xx dec true = signedDecimal xx := by
  unfold printint signedDecimal
  by_cases hneg : xx < 0
  · have hx : (-xx % 2 ^ 32).toNat = xx.natAbs := by omega
    simp only [hneg, decide_true, Bool.and_true, if_true, hx]
    rw [List.reverse_append, printintBuf_reverse]
    rfl
  · have hx : (xx % 2 ^ 32).toNat = xx.natAbs := by omega
    simp only [hneg, decide_false, Bool.and_false, Bool.false_eq_true, if_false, hx, List.append_nil,
      List.nil_append]
    exact printintBuf_reverse dec _

theorem int_range (a : Arg) : -2 ^ 31 ≤ a.int ∧ a.int < 2 ^ 31 := by
  unfold Arg.int toInt
  have hlo := Int.le_bmod (x := (a.word.toNat : Int)) (m := 2 ^ 32) (by decide)
  have hhi := Int.bmod_lt (x := (a.word.toNat : Int)) (m := 2 ^ 32) (by decide)
  constructor <;> omega

theorem toInt_emod (v : Int) : (toInt v % 2 ^ 32).toNat = (v % 2 ^ 32).toNat := by
  unfold toInt
  have h := @Int.bmod_emod v (2 ^ 32)
  simp only [Nat.cast_pow, Nat.cast_ofNat] at h
  rw [h]

/-- The `uint` a 64-bit word gives up. -/
theorem toInt_word (w : UInt64) : (toInt w.toNat % 2 ^ 32).toNat = w.toNat % 2 ^ 32 := by
  rw [toInt_emod]
  omega

/-- The number of digits `x < 2 ^ 32` has in a base of 10 or more. -/
theorem printintBuf_length (b : Base) (hb : 10 ≤ b.val) (x : Nat) (hx : x < 2 ^ 32) :
    (printintBuf b x).length ≤ 10 := by
  rw [printintBuf_eq]
  split
  · simp
  · rw [List.length_map, Nat.digits_length_le_iff b.two_le]
    calc x < 2 ^ 32 := hx
      _ ≤ 10 ^ 10 := by decide
      _ ≤ b.val ^ 10 := Nat.pow_le_pow_left hb 10

/-- Every number `printint` writes in base 10 or 16 fits `buf[16]`:
at most ten digits and a sign. -/
theorem printint_fits (xx : Int) (b : Base) (sgn : Bool) (hb : 10 ≤ b.val) :
    (printint xx b sgn).length ≤ 16 := by
  unfold printint
  rw [List.length_reverse, List.length_append]
  have hbuf := printintBuf_length b hb
  split <;> simp only [List.length_cons, List.length_nil]
  · have := hbuf (-xx % 2 ^ 32).toNat (by omega)
    omega
  · have := hbuf (xx % 2 ^ 32).toNat (by omega)
    omega

theorem printint_fits_int_min : 10 ≤ dec.val ∧ (printint (-2 ^ 31) dec true).length ≤ 16 :=
  ⟨by decide, printint_fits (-2 ^ 31) dec true (by decide)⟩

-- ================================================================ printptr

/-- A shift by one hex digit moves digit `j + 1` of a 64-bit word to
digit `j`'s place below: `(a * 16 % 2 ^ 64) / 16 ^ (j + 1)` and
`a / 16 ^ j` agree on their low digit for `j < 15`. -/
theorem shift_digit (a j : Nat) (hj : j < 15) :
    (a * 16 % 2 ^ 64) / 16 ^ (j + 1) % 16 = a / 16 ^ j % 16 := by
  have h64 : (2 : Nat) ^ 64 = 16 ^ j * 16 ^ (15 - j) * 16 := by
    rw [← Nat.pow_add, Nat.add_sub_cancel' (by omega : j ≤ 15)]
    norm_num
  have hdvd : 16 ∣ 16 ^ (15 - j) := dvd_pow_self 16 (by omega)
  calc (a * 16 % 2 ^ 64) / 16 ^ (j + 1) % 16
      = (a % (16 ^ j * 16 ^ (15 - j)) * 16) / (16 ^ j * 16) % 16 := by
        rw [h64, Nat.mul_mod_mul_right, Nat.pow_succ]
    _ = a % (16 ^ j * 16 ^ (15 - j)) / 16 ^ j % 16 := by
        rw [Nat.mul_div_mul_right _ _ (by decide)]
    _ = a / 16 ^ j % 16 ^ (15 - j) % 16 := by rw [Nat.mod_mul_right_div_self]
    _ = a / 16 ^ j % 16 := Nat.mod_mod_of_dvd _ hdvd

/-- `i` rounds of the loop write the top `i` hex digits of `x`. -/
theorem printptrLoop_eq : ∀ (i : Nat) (x : UInt64), i ≤ 16 →
    printptrLoop x i = (List.range i).map fun k => digit (x.toNat / 16 ^ (15 - k) % 16)
  | 0, _, _ => rfl
  | i + 1, x, hi => by
      have htop : (x >>> 60).toNat = x.toNat / 16 ^ 15 % 16 := by
        have h60 : (60 : UInt64).toNat % 64 = 60 := by decide
        rw [UInt64.toNat_shiftRight, h60, Nat.shiftRight_eq_div_pow, show (16 : Nat) ^ 15 = 2 ^ 60 by norm_num]
        have := x.toNat_lt
        rw [Nat.mod_eq_of_lt (by omega)]
      have hshl : (x <<< 4).toNat = x.toNat * 16 % 2 ^ 64 := by
        have h4 : (4 : UInt64).toNat % 64 = 4 := by decide
        rw [UInt64.toNat_shiftLeft, h4, Nat.shiftLeft_eq]
      rw [printptrLoop, printptrLoop_eq i (x <<< 4) (by omega), List.range_succ_eq_map, List.map_cons,
        List.map_map, htop]
      congr 1
      refine List.map_congr_left fun k hk => ?_
      have hk : k < i := List.mem_range.1 hk
      -- digit `15 - k` of the shifted word is digit `15 - (k + 1)` of `x`
      simp only [Function.comp, hshl, Nat.succ_eq_add_one]
      rw [show 15 - k = 14 - k + 1 by omega, shift_digit _ _ (by omega), show 14 - k = 15 - (k + 1) by omega]

theorem printptr_eq (x : UInt64) : printptr x = [48, 120] ++ hex16 x.toNat := by
  rw [printptr, printptrLoop_eq 16 x le_rfl]
  rfl

-- ================================================================ vprintf

/-- One conversion writes what `argText` has for it, `%l` through an
`int`, and takes its argument exactly when it has one. -/
theorem conversion_eq (c : UInt8) (ap : List Arg) :
    conversion c ap =
      match argText longLow c (ap.headD ⟨0, []⟩) with
      | some out => (out, ap.tail)
      | none => (if c = 37 then [37] else [37, c], ap) := by
  unfold conversion argText
  obtain ⟨hlo, hhi⟩ := int_range (ap.headD ⟨0, []⟩)
  -- one case per conversion, in the order `vprintf` tests them
  by_cases h100 : c = 100
  · simp only [if_pos h100, printint_signed _ hlo hhi]
  by_cases h108 : c = 108
  · simp only [if_neg h100, if_pos h108, printint_unsigned, toInt_word]
    rfl
  by_cases h120 : c = 120
  · simp only [if_neg h100, if_neg h108, if_pos h120, printint_unsigned, Arg.int, toInt_word, Arg.uint]
    rfl
  by_cases h112 : c = 112
  · simp only [if_neg h100, if_neg h108, if_neg h120, if_pos h112, printptr_eq]
  by_cases h115 : c = 115
  · simp only [if_neg h100, if_neg h108, if_neg h120, if_neg h112, if_pos h115]
  by_cases h99 : c = 99
  · simp only [if_neg h100, if_neg h108, if_neg h120, if_neg h112, if_neg h115, if_pos h99]
  simp only [if_neg h100, if_neg h108, if_neg h120, if_neg h112, if_neg h115, if_neg h99]
  split <;> rfl

/-- The loop from state 0 renders the format bytes left: by induction
on the format, one conversion per `%`. -/
theorem vprintfLoop_zero_eq : ∀ (fmt : List UInt8) (ap : List Arg),
    vprintfLoop .zero fmt ap = render longLow fmt ap
  | [], _ => by rw [vprintfLoop, render]
  | c :: fmt, ap => by
      by_cases hc : c = 37
      · subst hc
        cases fmt with
        | nil => rfl
        | cons c fmt =>
            rw [vprintfLoop, if_pos rfl, vprintfLoop, conversion_eq, render]
            split <;> simp only [vprintfLoop_zero_eq fmt]
      · rw [vprintfLoop, if_neg hc, vprintfLoop_zero_eq fmt ap]
        rw [render.eq_4 _ ap c fmt (fun h _ => hc h) (fun _ _ h _ => hc h)]

/-- `vprintf` writes the rendering of its format for every argument
list, with `%l` the decimal of its word's low 32 bits. -/
theorem vprintf_eq_render (fmt : List UInt8) (ap : List Arg) : vprintf fmt ap = render longLow fmt ap :=
  vprintfLoop_zero_eq fmt ap

/-- `%l` writes the decimal of the low 32 bits of its word: at
`2 ^ 32` it writes "0", not the rendering of the `uint64`. -/
theorem vprintf_long_truncates :
    (∀ (w : UInt64) (s : List UInt8), vprintf [37, 108] [⟨w, s⟩] = longLow w) ∧
      vprintf [37, 108] [⟨4294967296, []⟩] ≠ render longDecimal [37, 108] [⟨4294967296, []⟩] := by
  have hl : ∀ (w : UInt64) (s : List UInt8), vprintf [37, 108] [⟨w, s⟩] = longLow w := by
    intro w s
    rw [vprintf, vprintfLoop_zero_eq]
    simp [render, argText]
  refine ⟨hl, ?_⟩
  have hw : (4294967296 : UInt64).toNat = 4294967296 := by decide
  have hlow : longLow 4294967296 = [48] := by
    rw [longLow, hw]
    rfl
  -- rendered as a `uint64`: the ten digits of 4294967296
  have hdec : render longDecimal [37, 108] [⟨4294967296, []⟩] = [52, 50, 57, 52, 57, 54, 55, 50, 57, 54] := by
    have hr : render longDecimal [37, 108] [⟨4294967296, []⟩] = longDecimal 4294967296 := by
      simp [render, argText]
    rw [hr, longDecimal, hw, numeral, if_neg (by decide)]
    norm_num [digit, digits]
  rw [hl, hlow, hdec]
  decide

end Xv6.Printf
