import Xv6.Vm.Proofs.Copy

/-!
`copyinstr` against a byte-at-a-time reading of the string.

`strRef` reads user bytes one at a time until a NUL, at most `max` of
them, and fails at a byte whose page does not translate. `copyinstr`'s
inner loop reads one page the same way (`strRef_page`), and its outer
loop goes on from the next page's start, or has spent `max`
(`chunk_next`): the two agree on every page table
(`copyinstrLoop_eq`). What `strRef` returns then follows by induction
on `max`: 0 exactly when a NUL comes before `max` bytes have gone by
with every page on the way translated, the bytes up to it, and never
more than `max` bytes.
-/

namespace Xv6.Vm

open ByteMap

/-- `copyinstr` byte by byte, from `dst`: the bytes stored through `dst`
and the return value. -/
def strRef (mem : ByteMap) (pagetable : Nat) : List UInt8 → Nat → Nat → List UInt8 × Int
  | dst, _, 0 => (dst, -1)
  | dst, va, max + 1 =>
      match userByte mem pagetable va with
      | none => (dst, -1)
      | some b => if b = 0 then (dst ++ [0], 0) else strRef mem pagetable (dst ++ [b]) (va + 1) max

section Steps

variable {mem : ByteMap} {pagetable : Nat} {dst : List UInt8} {va max : Nat}

theorem copyinstrLoop_zero (h : max = 0) : copyinstrLoop mem pagetable dst va max = (dst, -1) := by
  rw [copyinstrLoop, if_pos h]

/-- A turn with `max` left: the page of `va` either does not
translate, or its bytes are copied. -/
theorem copyinstrLoop_of_ne (hmax : max ≠ 0) :
    copyinstrLoop mem pagetable dst va max =
      if walkaddr mem pagetable (PGROUNDDOWN va) = 0 then (dst, -1)
      else
        if (copyinstrPage mem (min (PGSIZE - (va - PGROUNDDOWN va)) max)
            (walkaddr mem pagetable (PGROUNDDOWN va) + (va - PGROUNDDOWN va)) dst max).2.2 then
          ((copyinstrPage mem (min (PGSIZE - (va - PGROUNDDOWN va)) max)
            (walkaddr mem pagetable (PGROUNDDOWN va) + (va - PGROUNDDOWN va)) dst max).1, 0)
        else
          copyinstrLoop mem pagetable
            (copyinstrPage mem (min (PGSIZE - (va - PGROUNDDOWN va)) max)
              (walkaddr mem pagetable (PGROUNDDOWN va) + (va - PGROUNDDOWN va)) dst max).1
            (PGROUNDDOWN va + PGSIZE)
            (copyinstrPage mem (min (PGSIZE - (va - PGROUNDDOWN va)) max)
              (walkaddr mem pagetable (PGROUNDDOWN va) + (va - PGROUNDDOWN va)) dst max).2.1 := by
  rw [copyinstrLoop, if_neg hmax]

theorem copyinstrLoop_gap (hmax : max ≠ 0) (hpa : walkaddr mem pagetable (PGROUNDDOWN va) = 0) :
    copyinstrLoop mem pagetable dst va max = (dst, -1) := by
  rw [copyinstrLoop_of_ne hmax, if_pos hpa]

theorem copyinstrLoop_chunk (hmax : max ≠ 0) (hpa : walkaddr mem pagetable (PGROUNDDOWN va) ≠ 0) :
    copyinstrLoop mem pagetable dst va max =
      if (copyinstrPage mem (min (PGSIZE - (va - PGROUNDDOWN va)) max)
          (walkaddr mem pagetable (PGROUNDDOWN va) + (va - PGROUNDDOWN va)) dst max).2.2 then
        ((copyinstrPage mem (min (PGSIZE - (va - PGROUNDDOWN va)) max)
          (walkaddr mem pagetable (PGROUNDDOWN va) + (va - PGROUNDDOWN va)) dst max).1, 0)
      else
        copyinstrLoop mem pagetable
          (copyinstrPage mem (min (PGSIZE - (va - PGROUNDDOWN va)) max)
            (walkaddr mem pagetable (PGROUNDDOWN va) + (va - PGROUNDDOWN va)) dst max).1
          (PGROUNDDOWN va + PGSIZE)
          (copyinstrPage mem (min (PGSIZE - (va - PGROUNDDOWN va)) max)
            (walkaddr mem pagetable (PGROUNDDOWN va) + (va - PGROUNDDOWN va)) dst max).2.1 := by
  rw [copyinstrLoop_of_ne hmax, if_neg hpa]

theorem strRef_zero (dst : List UInt8) (va : Nat) : strRef mem pagetable dst va 0 = (dst, -1) := rfl

theorem strRef_succ (dst : List UInt8) (va max : Nat) :
    strRef mem pagetable dst va (max + 1) =
      match userByte mem pagetable va with
      | none => (dst, -1)
      | some b => if b = 0 then (dst ++ [0], 0) else strRef mem pagetable (dst ++ [b]) (va + 1) max := rfl

end Steps

/-- The bytes of one translated page, read by `copyinstr`'s inner loop:
`strRef` reads them the same way, and goes on after them where the
inner loop leaves `dst` and `max`. -/
theorem strRef_page {mem : ByteMap} {pagetable : Nat} :
    ∀ {n p dst va max}, (∀ i < n, userAddr mem pagetable (va + i) = some (p + i)) → n ≤ max →
      strRef mem pagetable dst va max =
        if (copyinstrPage mem n p dst max).2.2 then ((copyinstrPage mem n p dst max).1, 0)
        else strRef mem pagetable (copyinstrPage mem n p dst max).1 (va + n) (copyinstrPage mem n p dst max).2.1
  | 0, _, _, _, _, _, _ => rfl
  | n + 1, p, dst, va, max + 1, h, hn => by
      have hb : userByte mem pagetable va = some (mem p) := by
        rw [userByte, show va = va + 0 from rfl, h 0 (by omega)]
        rfl
      rw [strRef_succ, hb, copyinstrPage]
      by_cases h0 : mem p = 0
      · simp only [h0, if_true]
      · -- a byte that is not the NUL: both go on at the next one
        simp only [if_neg h0, Nat.add_sub_cancel]
        rw [@strRef_page mem pagetable n (p + 1) (dst ++ [mem p]) (va + 1) max
          (fun i hi => by
            rw [show va + 1 + i = va + (i + 1) by omega, h (i + 1) (by omega), show p + (i + 1) = p + 1 + i by omega])
          (by omega)]
        rw [show va + 1 + n = va + (n + 1) by omega]
  | _ + 1, _, _, _, 0, _, hn => absurd hn (by omega)

/-- `copyinstr`'s loop reads the string byte by byte: for every page
table. -/
theorem copyinstrLoop_eq (mem : ByteMap) (pagetable : Nat) (max : Nat) :
    ∀ dst va, copyinstrLoop mem pagetable dst va max = strRef mem pagetable dst va max := by
  -- induction on `max`, which every turn without the NUL shrinks
  induction max using Nat.strong_induction_on with
  | _ max ih =>
  intro dst va
  rcases Nat.eq_zero_or_pos max with rfl | hmax
  · rw [copyinstrLoop_zero rfl, strRef_zero]
  obtain ⟨max', rfl⟩ : ∃ max', max = max' + 1 := ⟨max - 1, by omega⟩
  by_cases hpa : walkaddr mem pagetable (PGROUNDDOWN va) = 0
  · rw [copyinstrLoop_gap hmax.ne' hpa, strRef_succ, userByte, userAddr_of_walkaddr hpa]
    rfl
  · have hpage := fun i (hi : i < min (PGSIZE - (va - PGROUNDDOWN va)) (max' + 1)) =>
      userAddr_page hpa (chunk_in_page va (max' + 1) hi)
    rw [copyinstrLoop_chunk hmax.ne' hpa, strRef_page hpage (Nat.min_le_right _ _)]
    split
    · rfl
    · -- no NUL in the page: `max` shrinks by the page's bytes
      rename_i hnul
      have hm := copyinstrPage_max mem _ _ dst (max' + 1) (by simpa using hnul)
      have hpos := chunk_pos va (max' + 1) (by omega)
      rw [ih _ (by omega)]
      rcases chunk_next va (max' + 1) with h0 | hnext
      · rw [hm, h0, strRef_zero, strRef_zero]
      · rw [hnext]

-- =========================================================== what it reads

/-- User bytes `va .. va + k - 1` are not NUL, and user byte `va + k`
is: a C string of length `k` at `va`, every page of it translated. -/
def StrAt (mem : ByteMap) (pagetable va k : Nat) : Prop :=
  (∀ i < k, ∃ b, userByte mem pagetable (va + i) = some b ∧ b ≠ 0) ∧ userByte mem pagetable (va + k) = some 0

section Ref

variable {mem : ByteMap} {pagetable : Nat}

/-- A string at `va + 1` of length `k` is one of length `k + 1` at `va`,
when byte `va` is a byte that is not the NUL. -/
theorem strAt_succ_iff {va k : Nat} {b : UInt8} (hb : userByte mem pagetable va = some b) (h0 : b ≠ 0) :
    StrAt mem pagetable va (k + 1) ↔ StrAt mem pagetable (va + 1) k := by
  unfold StrAt
  constructor
  · rintro ⟨hlt, hk⟩
    refine ⟨fun i hi => ?_, by rwa [Nat.add_right_comm, Nat.add_assoc]⟩
    rw [Nat.add_assoc, Nat.add_comm 1 i]
    exact hlt (i + 1) (by omega)
  · rintro ⟨hlt, hk⟩
    refine ⟨fun i hi => ?_, by rwa [Nat.add_right_comm, Nat.add_assoc] at hk⟩
    rcases i with _ | i
    · exact ⟨b, hb, h0⟩
    · rw [show va + (i + 1) = va + 1 + i by omega]
      exact hlt i (by omega)

theorem not_strAt_zero {va : Nat} {b : UInt8} (hb : userByte mem pagetable va = some b) (h0 : b ≠ 0) :
    ¬ StrAt mem pagetable va 0 := fun h => h0 (Option.some.inj (hb.symm.trans h.2))

theorem not_strAt_of_none {va : Nat} (hb : userByte mem pagetable va = none) (k : Nat) :
    ¬ StrAt mem pagetable va k := by
  rintro ⟨hlt, hk⟩
  rcases k with _ | k
  · rw [Nat.add_zero, hb] at hk
    cases hk
  · obtain ⟨_, h, _⟩ := hlt 0 (by omega)
    rw [Nat.add_zero, hb] at h
    cases h

/-- `strRef` returns 0 exactly when a string shorter than `max` starts
at `va`. -/
theorem strRef_ok_iff : ∀ (max : Nat) (dst : List UInt8) (va : Nat),
    (strRef mem pagetable dst va max).2 = 0 ↔ ∃ k < max, StrAt mem pagetable va k
  | 0, _, _ => by simp [strRef_zero]
  | max + 1, dst, va => by
      rw [strRef_succ]
      cases hb : userByte mem pagetable va with
      | none => simpa using fun k _ => not_strAt_of_none hb k
      | some b =>
          dsimp only
          by_cases h0 : b = 0
          · subst h0
            simp only [if_true]
            exact iff_of_true (by trivial) ⟨0, by omega, fun i hi => absurd hi (Nat.not_lt_zero _), hb⟩
          · rw [if_neg h0, strRef_ok_iff max]
            constructor
            · rintro ⟨k, hk, hs⟩
              exact ⟨k + 1, by omega, (strAt_succ_iff hb h0).2 hs⟩
            · rintro ⟨k, hk, hs⟩
              rcases k with _ | k
              · exact absurd hs (not_strAt_zero hb h0)
              · exact ⟨k, by omega, (strAt_succ_iff hb h0).1 hs⟩

/-- With a string of length `k < max` at `va`, `strRef` stores its bytes
and the NUL. -/
theorem strRef_bytes : ∀ {max k : Nat} {dst : List UInt8} {va : Nat}, k < max → StrAt mem pagetable va k →
    (strRef mem pagetable dst va max).1 = dst ++ bytesRead mem pagetable va k ++ [0]
  | max + 1, k, dst, va, hk, hs => by
      rw [strRef_succ]
      cases hb : userByte mem pagetable va with
      | none => exact absurd hs (not_strAt_of_none hb k)
      | some b =>
          dsimp only
          by_cases h0 : b = 0
          · -- the NUL is byte `va`: the string is empty
            subst h0
            rcases k with _ | k
            · simp [bytesRead]
            · obtain ⟨_, h, hne⟩ := hs.1 0 (by omega)
              rw [Nat.add_zero, hb] at h
              exact absurd (Option.some.inj h).symm hne
          · rcases k with _ | k
            · exact absurd hs (not_strAt_zero hb h0)
            · rw [if_neg h0, strRef_bytes (by omega) ((strAt_succ_iff hb h0).1 hs), Nat.add_comm k 1,
                bytesRead_add, show bytesRead mem pagetable va 1 = [b] by simp [bytesRead, hb]]
              simp only [List.append_assoc]
  | 0, _, _, _, hk, _ => absurd hk (Nat.not_lt_zero _)

/-- `strRef` stores at most `max` bytes. -/
theorem strRef_length : ∀ (max : Nat) (dst : List UInt8) (va : Nat),
    (strRef mem pagetable dst va max).1.length ≤ dst.length + max
  | 0, _, _ => le_of_eq rfl
  | max + 1, dst, va => by
      rw [strRef_succ]
      cases userByte mem pagetable va with
      | none => exact Nat.le_add_right _ _
      | some b =>
          dsimp only
          split
          · simp
          · have := strRef_length max (dst ++ [b]) (va + 1)
            simp only [List.length_append, List.length_singleton] at this
            omega

/-- `strRef` returns 0 or -1. -/
theorem strRef_ret : ∀ (max : Nat) (dst : List UInt8) (va : Nat),
    (strRef mem pagetable dst va max).2 = 0 ∨ (strRef mem pagetable dst va max).2 = -1
  | 0, _, _ => Or.inr rfl
  | max + 1, dst, va => by
      rw [strRef_succ]
      cases userByte mem pagetable va with
      | none => exact Or.inr rfl
      | some b =>
          dsimp only
          split
          · exact Or.inl rfl
          · exact strRef_ret max _ _

end Ref

/-- `fetchstr` fails exactly when `copyinstr` does. -/
theorem fetchstr_of_copyinstr {mem : ByteMap} {pagetable addr max : Nat}
    (h : (copyinstr mem pagetable addr max).2 = -1) : (fetchstr mem pagetable addr max).2 = -1 := by
  rw [fetchstr, if_pos (by rw [h]; decide)]
  exact h

/-- `copyinstr(pagetable, dst, srcva, max)` copies one bounded string:
it returns 0 exactly when a string shorter than `max` starts at
`srcva` with every page on the way translated, and then stores its
bytes and the NUL; otherwise it returns -1; it never stores more than
`max` bytes. So `fetchstr`, as `argstr` calls it with `MAXPATH`,
rejects `MAXPATH` bytes that are not the NUL, and a string that runs
into a page that does not translate. -/
theorem copyinstr_bounded (mem : ByteMap) (pagetable srcva max : Nat) :
    ((copyinstr mem pagetable srcva max).2 = 0 ↔ ∃ k < max, StrAt mem pagetable srcva k) ∧
    (∀ k < max, StrAt mem pagetable srcva k →
      (copyinstr mem pagetable srcva max).1 = bytesRead mem pagetable srcva k ++ [0]) ∧
    ((copyinstr mem pagetable srcva max).2 ≠ 0 → (copyinstr mem pagetable srcva max).2 = -1) ∧
    (copyinstr mem pagetable srcva max).1.length ≤ max ∧
    ((∀ i < MAXPATH, ∃ b, userByte mem pagetable (srcva + i) = some b ∧ b ≠ 0) →
      (fetchstr mem pagetable srcva MAXPATH).2 = -1) ∧
    (∀ k < MAXPATH, (∀ i < k, ∃ b, userByte mem pagetable (srcva + i) = some b ∧ b ≠ 0) →
      userByte mem pagetable (srcva + k) = none → (fetchstr mem pagetable srcva MAXPATH).2 = -1) := by
  have heq : ∀ max, copyinstr mem pagetable srcva max = strRef mem pagetable [] srcva max := fun max =>
    copyinstrLoop_eq mem pagetable max [] srcva
  -- a failing `copyinstr` at `MAXPATH` is a failing `fetchstr`
  have hfail : ¬ (∃ k < MAXPATH, StrAt mem pagetable srcva k) → (fetchstr mem pagetable srcva MAXPATH).2 = -1 := by
    intro hno
    apply fetchstr_of_copyinstr
    rw [heq]
    rcases strRef_ret MAXPATH [] srcva with h | h
    · exact absurd ((strRef_ok_iff MAXPATH [] srcva).1 h) hno
    · exact h
  rw [heq]
  refine ⟨strRef_ok_iff max [] srcva, fun k hk hs => ?_, fun hne => ?_, ?_, fun hall => hfail ?_,
    fun k hk hlt hnone => hfail ?_⟩
  · rw [strRef_bytes hk hs, List.nil_append]
  · exact (strRef_ret max [] srcva).resolve_left hne
  · simpa using strRef_length max [] srcva
  · -- every byte before `MAXPATH` is a byte that is not the NUL
    rintro ⟨k, hk, hs⟩
    obtain ⟨b, hb, h0⟩ := hall k hk
    exact h0 (Option.some.inj (hb.symm.trans hs.2))
  · -- byte `k` is neither the NUL nor a byte before it
    rintro ⟨k', hk', hs⟩
    rcases Nat.lt_trichotomy k' k with hlt' | rfl | hgt
    · obtain ⟨b, hb, h0⟩ := hlt k' hlt'
      exact h0 (Option.some.inj (hb.symm.trans hs.2))
    · have h := hs.2
      rw [hnone] at h
      cases h
    · obtain ⟨b, hb, _⟩ := hs.1 k hgt
      rw [hnone] at hb
      cases hb

end Xv6.Vm
