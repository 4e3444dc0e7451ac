import Xv6.Vm.Proofs.Walk
import Mathlib.Data.List.Basic

/-!
`copyin` and `copyout` against a byte-at-a-time reading of the page
table.

Byte by byte, a copy of `[va, va + len)` moves the bytes before the
first one whose page `walkaddr` does not translate (`firstGap`), and
returns 0 when there is none. `copyin` does exactly that, for every
page table (`copyin_eq`): each turn of its loop moves the bytes of one
page (`bytesRead_page`) and goes on from the next page's start, or has
spent its budget (`chunk_next`).

`copyout` stores what it moves into physical memory, where the page
table lives too. When no frame of the range is a page-table page its
walks see the table it started with (`walkaddr_written`), and it leaves
memory as the bytes stored one by one left it (`copyout_eq`,
`written`). Reading them back through the page table gives `src` when
the range's pages have frames apart from one another too
(`userByte_written`); two pages that share a frame hold what the later
one stored.
-/

namespace Xv6.Vm

open ByteMap

-- ================================================================ a chunk

section Chunk

variable (va len : Nat)

/-- A turn with budget left moves at least one byte. -/
theorem chunk_pos (h : len ≠ 0) : 0 < min (PGSIZE - (va - PGROUNDDOWN va)) len := by
  have := sub_PGROUNDDOWN_lt va
  omega

/-- A turn stays in the page of its first byte. -/
theorem chunk_in_page {i : Nat} (hi : i < min (PGSIZE - (va - PGROUNDDOWN va)) len) :
    va - PGROUNDDOWN va + i < PGSIZE := by
  omega

/-- After a turn the budget is spent or the next byte is the next page's
first. -/
theorem chunk_next : len - min (PGSIZE - (va - PGROUNDDOWN va)) len = 0 ∨
    va + min (PGSIZE - (va - PGROUNDDOWN va)) len = PGROUNDDOWN va + PGSIZE := by
  have := PGROUNDDOWN_le va
  have := sub_PGROUNDDOWN_lt va
  omega

end Chunk

theorem walkaddr_of_ge {mem : ByteMap} {pagetable va : Nat} (h : MAXVA ≤ va) : walkaddr mem pagetable va = 0 := by
  rw [walkaddr, if_pos h]

-- ============================================================ the first gap

/-- The bytes of `[va, va + len)` before the first one whose page
`walkaddr` does not translate. -/
@[grind] def firstGap (mem : ByteMap) (pagetable : Nat) : Nat → Nat → Nat
  | _, 0 => 0
  | va, len + 1 =>
      if walkaddr mem pagetable (PGROUNDDOWN va) = 0 then 0 else firstGap mem pagetable (va + 1) len + 1

/-- Every page of `[va, va + len)` translates. -/
def Translates (mem : ByteMap) (pagetable va len : Nat) : Prop :=
  ∀ i < len, walkaddr mem pagetable (PGROUNDDOWN (va + i)) ≠ 0

section Gap

variable {mem : ByteMap} {pagetable : Nat}

theorem firstGap_le : ∀ va len, firstGap mem pagetable va len ≤ len
  | _, 0 => le_rfl
  | va, len + 1 => by
      unfold firstGap
      split
      · omega
      · have := firstGap_le (va + 1) len
        omega

/-- The bytes before the gap translate. -/
theorem translates_of_lt_firstGap : ∀ {va len i}, i < firstGap mem pagetable va len →
    walkaddr mem pagetable (PGROUNDDOWN (va + i)) ≠ 0
  | _, 0, _, h => absurd h (Nat.not_lt_zero _)
  | va, len + 1, i, h => by
      unfold firstGap at h
      split at h
      · omega
      · rcases i with _ | i
        · assumption
        · rw [show va + (i + 1) = va + 1 + i by omega]
          exact @translates_of_lt_firstGap (va + 1) len i (by omega)

/-- The byte at the gap, inside the range, does not translate. -/
theorem gap_of_firstGap_lt : ∀ {va len}, firstGap mem pagetable va len < len →
    walkaddr mem pagetable (PGROUNDDOWN (va + firstGap mem pagetable va len)) = 0
  | _, 0, h => absurd h (Nat.not_lt_zero _)
  | va, len + 1, h => by
      unfold firstGap at h ⊢
      split
      · assumption
      · rw [if_neg (by assumption)] at h
        rw [show va + (firstGap mem pagetable (va + 1) len + 1) = va + 1 + firstGap mem pagetable (va + 1) len by
          omega]
        exact @gap_of_firstGap_lt (va + 1) len (by omega)

/-- `j` bytes that translate count in full towards the gap. -/
theorem firstGap_of_translates : ∀ {va len j}, (∀ i < j, walkaddr mem pagetable (PGROUNDDOWN (va + i)) ≠ 0) →
    j ≤ len → firstGap mem pagetable va len = j + firstGap mem pagetable (va + j) (len - j)
  | va, len, 0, _, _ => by simp
  | va, len + 1, j + 1, h, hj => by
      have h0 : walkaddr mem pagetable (PGROUNDDOWN va) ≠ 0 := by simpa using h 0 (by omega)
      rw [firstGap, if_neg h0,
        @firstGap_of_translates (va + 1) len j
          (fun i hi => by rw [show va + 1 + i = va + (i + 1) by omega]; exact h _ (by omega)) (by omega)]
      rw [show va + 1 + j = va + (j + 1) by omega, show len - j = len + 1 - (j + 1) by omega]
      omega
  | _, 0, _ + 1, _, hj => absurd hj (by omega)

theorem firstGap_of_gap {va len : Nat} (h : walkaddr mem pagetable (PGROUNDDOWN va) = 0) :
    firstGap mem pagetable va len = 0 := by
  cases len with
  | zero => rfl
  | succ len => rw [firstGap, if_pos h]

theorem firstGap_eq_iff {va len : Nat} : firstGap mem pagetable va len = len ↔ Translates mem pagetable va len := by
  constructor
  · intro h i hi
    exact @translates_of_lt_firstGap mem pagetable va len i (by omega)
  · intro h
    rw [firstGap_of_translates h le_rfl, Nat.sub_self]
    rfl

end Gap

-- ================================================================= copyin

/-- User bytes `va .. va + j - 1`, read byte by byte. -/
def bytesRead (mem : ByteMap) (pagetable va j : Nat) : List UInt8 :=
  (List.range j).map fun i => (userByte mem pagetable (va + i)).getD 0

theorem bytesRead_add (mem : ByteMap) (pagetable va n j : Nat) :
    bytesRead mem pagetable va (n + j) = bytesRead mem pagetable va n ++ bytesRead mem pagetable (va + n) j := by
  simp only [bytesRead, List.range_add, List.map_append, List.map_map, Function.comp_def, Nat.add_assoc]

/-- The bytes of one translated page are the bytes of its frame. -/
theorem bytesRead_page {mem : ByteMap} {pagetable va n p : Nat}
    (h : ∀ i < n, userAddr mem pagetable (va + i) = some (p + i)) : bytesRead mem pagetable va n = bytesAt mem p n := by
  apply List.map_congr_left
  intro i hi
  rw [userByte, h i (List.mem_range.1 hi)]
  rfl

section CopyinSteps

variable {mem : ByteMap} {pagetable : Nat} {dst : List UInt8} {va len : Nat}

theorem copyin_zero : copyin mem pagetable dst va 0 = (dst, 0) := by
  rw [copyin, if_pos rfl]

theorem copyin_gap (hlen : len ≠ 0) (hpa : walkaddr mem pagetable (PGROUNDDOWN va) = 0) :
    copyin mem pagetable dst va len = (dst, -1) := by
  rw [copyin, if_neg hlen]
  simp only [if_pos hpa]

theorem copyin_chunk (hlen : len ≠ 0) (hpa : walkaddr mem pagetable (PGROUNDDOWN va) ≠ 0) :
    copyin mem pagetable dst va len =
      copyin mem pagetable
        (dst ++ bytesAt mem (walkaddr mem pagetable (PGROUNDDOWN va) + (va - PGROUNDDOWN va))
          (min (PGSIZE - (va - PGROUNDDOWN va)) len))
        (PGROUNDDOWN va + PGSIZE) (len - min (PGSIZE - (va - PGROUNDDOWN va)) len) := by
  rw [copyin, if_neg hlen]
  simp only [if_neg hpa]

end CopyinSteps

/-- The return value after the first `n` bytes moved and the rest from
there. -/
theorem ite_gap {n j len : Nat} (h : n ≤ len) :
    (if j = len - n then (0 : Int) else -1) = if n + j = len then 0 else -1 := by
  split_ifs <;> omega

/-- `copyin` moves the bytes before the first gap, byte by byte, and
returns 0 when there is no gap: for every page table. -/
theorem copyin_eq (mem : ByteMap) (pagetable : Nat) (len : Nat) : ∀ dst va,
    copyin mem pagetable dst va len =
      (dst ++ bytesRead mem pagetable va (firstGap mem pagetable va len),
        if firstGap mem pagetable va len = len then 0 else -1) := by
  -- induction on the budget, which every turn shrinks
  induction len using Nat.strong_induction_on with
  | _ len ih =>
  intro dst va
  rcases Nat.eq_zero_or_pos len with rfl | hlen
  · simp [copyin_zero, firstGap, bytesRead]
  by_cases hpa : walkaddr mem pagetable (PGROUNDDOWN va) = 0
  · rw [copyin_gap hlen.ne' hpa, firstGap_of_gap hpa]
    simp [bytesRead, hlen.ne]
  · -- a translated page: its bytes, then the rest from the next page
    have hpos := chunk_pos va len hlen.ne'
    have hpage := fun i (hi : i < min (PGSIZE - (va - PGROUNDDOWN va)) len) =>
      userAddr_page hpa (chunk_in_page va len hi)
    have hgap := @firstGap_of_translates mem pagetable va len _
      (fun i hi => by rw [PGROUNDDOWN_add (chunk_in_page va len hi)]; exact hpa) (Nat.min_le_right _ _)
    rw [copyin_chunk hlen.ne' hpa, ih _ (by omega), hgap, bytesRead_add, bytesRead_page hpage,
      List.append_assoc, ite_gap (Nat.min_le_right _ _)]
    rcases chunk_next va len with h0 | hnext
    · simp only [h0, firstGap, bytesRead, List.range_zero, List.map_nil]
    · rw [hnext]

-- ================================================================ copyout

/-- The memory after user bytes `va .. va + j - 1` are stored from
`src` byte by byte, each at the address the page table gives it. -/
@[grind] def written (mem : ByteMap) (pagetable va : Nat) (src : Nat → UInt8) (j : Nat) : ByteMap :=
  (List.range j).foldl (fun m i =>
    match userAddr mem pagetable (va + i) with
    | some a => Function.update m a (src i)
    | none => m) mem

/-- Storing `n` bytes one by one at `p, p + 1, ...` is `memmove`. -/
theorem foldl_update_eq_memmove (p : Nat) (s : Nat → UInt8) :
    ∀ (n : Nat) (m : ByteMap), (List.range n).foldl (fun m i => Function.update m (p + i) (s i)) m = memmove m p s n
  | 0, m => by
      funext a
      simp [memmove]
  | n + 1, m => by
      rw [List.range_succ, List.foldl_append, foldl_update_eq_memmove p s n m]
      funext a
      simp only [List.foldl_cons, List.foldl_nil, Function.update, memmove]
      split
      · subst_vars
        simp
      · split <;> split <;> first | rfl | omega

section Written

variable {mem : ByteMap} {pagetable va : Nat} {src : Nat → UInt8}

theorem written_succ (j : Nat) :
    written mem pagetable va src (j + 1) =
      match userAddr mem pagetable (va + j) with
      | some a => Function.update (written mem pagetable va src j) a (src j)
      | none => written mem pagetable va src j := by
  rw [written, List.range_succ, List.foldl_append]
  rfl

theorem written_add (k n : Nat) :
    written mem pagetable va src (k + n) =
      (List.range n).foldl (fun m i =>
        match userAddr mem pagetable (va + (k + i)) with
        | some a => Function.update m a (src (k + i))
        | none => m) (written mem pagetable va src k) := by
  rw [written, List.range_add, List.foldl_append, List.foldl_map]
  rfl

/-- The bytes of one translated page are stored by one `memmove` into
its frame. -/
theorem written_page {k n p : Nat} (h : ∀ i < n, userAddr mem pagetable (va + (k + i)) = some (p + i)) :
    written mem pagetable va src (k + n) = memmove (written mem pagetable va src k) p (fun i => src (k + i)) n := by
  rw [written_add, ← foldl_update_eq_memmove]
  apply List.foldl_ext
  intro m i hi
  rw [h i (List.mem_range.1 hi)]

/-- An address no stored byte goes to keeps its byte. -/
theorem written_apply_of_ne {a : Nat} : ∀ {j}, (∀ i < j, userAddr mem pagetable (va + i) ≠ some a) →
    written mem pagetable va src j a = mem a
  | 0, _ => rfl
  | j + 1, h => by
      have ih : written mem pagetable va src j a = mem a := written_apply_of_ne fun i hi => h i (by omega)
      rw [written_succ]
      cases hu : userAddr mem pagetable (va + j) with
      | none => exact ih
      | some b =>
          have hb : a ≠ b := fun hab => h j (by omega) (hab ▸ hu)
          dsimp only
          rw [Function.update_of_ne hb]
          exact ih

/-- The byte stored last at an address is what it holds. -/
theorem written_apply_self {a i : Nat} (hi : userAddr mem pagetable (va + i) = some a) :
    ∀ {j}, i < j → (∀ i' < j, i' ≠ i → userAddr mem pagetable (va + i') ≠ some a) →
      written mem pagetable va src j a = src i
  | 0, h, _ => absurd h (Nat.not_lt_zero _)
  | j + 1, hij, h => by
      rw [written_succ]
      rcases Nat.lt_succ_iff_lt_or_eq.1 hij with hij | rfl
      · -- byte `j` goes elsewhere
        have ih := written_apply_self hi hij fun i' hi' hne => h i' (by omega) hne
        cases hu : userAddr mem pagetable (va + j) with
        | none => exact ih
        | some b =>
            have hb : a ≠ b := fun hab => h j (by omega) (by omega) (hab ▸ hu)
            dsimp only
            rw [Function.update_of_ne hb]
            exact ih
      · rw [hi]
        exact Function.update_self ..

/-- A user byte lies in its page's frame. -/
theorem userAddr_mem_frame {mem : ByteMap} {pagetable va a : Nat} (h : userAddr mem pagetable va = some a) :
    walkaddr mem pagetable (PGROUNDDOWN va) ≠ 0 ∧ walkaddr mem pagetable (PGROUNDDOWN va) ≤ a ∧
      a < walkaddr mem pagetable (PGROUNDDOWN va) + PGSIZE := by
  unfold userAddr at h
  split at h
  · cases h
  · cases h
    have := sub_PGROUNDDOWN_lt va
    exact ⟨by assumption, by omega, by omega⟩

end Written

/-- `[a, a + PGSIZE)` and `[b, b + PGSIZE)` do not meet. -/
def Apart (a b : Nat) : Prop := a + PGSIZE ≤ b ∨ b + PGSIZE ≤ a

instance (a b : Nat) : Decidable (Apart a b) := inferInstanceAs (Decidable (_ ∨ _))

/-- No frame of a translated page of `[va, va + len)` meets a page-table
page that a walk of the range reads. -/
def TablesApart (mem : ByteMap) (pagetable va len : Nat) : Prop :=
  ∀ i < len, ∀ j < len, walkaddr mem pagetable (PGROUNDDOWN (va + i)) ≠ 0 → PGROUNDDOWN (va + j) < MAXVA →
    ∀ q ∈ tablesOf mem (PGROUNDDOWN (va + j)) 2 pagetable, Apart (walkaddr mem pagetable (PGROUNDDOWN (va + i))) q

/-- Bytes stored into frames apart from the page-table pages leave every
translation of the range as it was. -/
theorem walkaddr_written {mem : ByteMap} {pagetable va len : Nat} {src : Nat → UInt8}
    (ht : TablesApart mem pagetable va len) {j : Nat} (hj : j ≤ len) {l : Nat} (hl : l < len) :
    walkaddr (written mem pagetable va src j) pagetable (PGROUNDDOWN (va + l)) =
      walkaddr mem pagetable (PGROUNDDOWN (va + l)) := by
  by_cases hmax : MAXVA ≤ PGROUNDDOWN (va + l)
  · rw [walkaddr_of_ge hmax, walkaddr_of_ge hmax]
  · refine walkaddr_congr fun q hq a h1 h2 => written_apply_of_ne fun i hi ha => ?_
    -- the byte stored at `a` would sit in a frame that meets the table page
    obtain ⟨hne, hlo, hhi⟩ := userAddr_mem_frame ha
    rcases ht i (by omega) l hl hne (by omega) q hq with h | h <;> omega

theorem copyout_zero {mem : ByteMap} {pagetable va len : Nat} {src : Nat → UInt8} (h : len = 0) :
    copyout mem pagetable va src len = (mem, 0) := by
  rw [copyout, if_pos h]

theorem copyout_gap {mem : ByteMap} {pagetable va len : Nat} {src : Nat → UInt8} (hlen : len ≠ 0)
    (hpa : walkaddr mem pagetable (PGROUNDDOWN va) = 0) : copyout mem pagetable va src len = (mem, -1) := by
  rw [copyout, if_neg hlen]
  simp only [if_pos hpa]

theorem copyout_chunk {mem : ByteMap} {pagetable va len : Nat} {src : Nat → UInt8} (hlen : len ≠ 0)
    (hpa : walkaddr mem pagetable (PGROUNDDOWN va) ≠ 0) :
    copyout mem pagetable va src len =
      copyout (memmove mem (walkaddr mem pagetable (PGROUNDDOWN va) + (va - PGROUNDDOWN va)) src
          (min (PGSIZE - (va - PGROUNDDOWN va)) len))
        pagetable (PGROUNDDOWN va + PGSIZE) (fun i => src (min (PGSIZE - (va - PGROUNDDOWN va)) len + i))
        (len - min (PGSIZE - (va - PGROUNDDOWN va)) len) := by
  rw [copyout, if_neg hlen]
  simp only [if_neg hpa]

/-- `copyout` from the `k`-th byte on, with the bytes before it stored:
it ends with the bytes before the first gap stored. -/
theorem copyout_from {mem : ByteMap} {pagetable va len : Nat} (src : Nat → UInt8)
    (ht : TablesApart mem pagetable va len) (r : Nat) :
    ∀ k, len - k = r → k ≤ firstGap mem pagetable va len →
      copyout (written mem pagetable va src k) pagetable (va + k) (fun i => src (k + i)) (len - k) =
        (written mem pagetable va src (firstGap mem pagetable va len),
          if firstGap mem pagetable va len = len then 0 else -1) := by
  have hG : firstGap mem pagetable va len ≤ len := firstGap_le va len
  -- induction on the budget left
  induction r using Nat.strong_induction_on with
  | _ r ih =>
  intro k hr hk
  rcases Nat.eq_zero_or_pos (len - k) with h0 | hlen
  · rw [copyout_zero h0, show firstGap mem pagetable va len = k by omega, if_pos (by omega)]
  have hwk : walkaddr (written mem pagetable va src k) pagetable (PGROUNDDOWN (va + k)) =
      walkaddr mem pagetable (PGROUNDDOWN (va + k)) := walkaddr_written ht (hk.trans hG) (show k < len by omega)
  by_cases hpa : walkaddr mem pagetable (PGROUNDDOWN (va + k)) = 0
  · -- the gap: byte `k` does not translate, and the bytes before it are stored
    have hgap : firstGap mem pagetable va len = k := by
      rcases Nat.lt_or_ge k (firstGap mem pagetable va len) with hlt | hge
      · exact absurd hpa (translates_of_lt_firstGap hlt)
      · omega
    rw [copyout_gap hlen.ne' (by rw [hwk]; exact hpa), hgap, if_neg (by omega)]
  · -- a translated page: one `memmove` stores its bytes
    have hpa' : walkaddr (written mem pagetable va src k) pagetable (PGROUNDDOWN (va + k)) ≠ 0 := by
      rw [hwk]; exact hpa
    have hpos := chunk_pos (va + k) (len - k) hlen.ne'
    generalize hn : min (PGSIZE - (va + k - PGROUNDDOWN (va + k))) (len - k) = n at hpos
    have hin : ∀ i < n, va + k - PGROUNDDOWN (va + k) + i < PGSIZE := fun i hi =>
      chunk_in_page (va + k) (len - k) (by omega)
    have hpage : ∀ i < n, userAddr mem pagetable (va + (k + i)) =
        some (walkaddr mem pagetable (PGROUNDDOWN (va + k)) + (va + k - PGROUNDDOWN (va + k)) + i) := by
      intro i hi
      rw [← Nat.add_assoc]
      exact userAddr_page hpa (hin i hi)
    have hkn : k + n ≤ firstGap mem pagetable va len := by
      have := @firstGap_of_translates mem pagetable va len (k + n)
        (fun i hi => by
          rcases Nat.lt_or_ge i k with hik | hik
          · exact @translates_of_lt_firstGap mem pagetable va len i (by omega)
          · rw [show va + i = va + k + (i - k) by omega, PGROUNDDOWN_add (hin (i - k) (by omega))]
            exact hpa)
        (by omega)
      omega
    rw [copyout_chunk hlen.ne' hpa', hn, hwk, ← written_page hpage]
    have hsrc : (fun i => (fun i => src (k + i)) (n + i)) = fun i => src (k + n + i) := by
      funext i
      simp only [Nat.add_assoc]
    rw [hsrc, show len - k - n = len - (k + n) by omega]
    rcases chunk_next (va + k) (len - k) with h0 | hnext
    · rw [hn] at h0
      rw [copyout_zero (show len - (k + n) = 0 by omega), show firstGap mem pagetable va len = k + n by omega,
        if_pos (by omega)]
    · rw [hn] at hnext
      rw [← hnext, Nat.add_assoc]
      exact ih _ (by omega) (k + n) rfl hkn

/-- With no frame of the range a page-table page, `copyout` leaves
memory as the bytes before the first gap, stored one by one, leave it,
and returns 0 when there is no gap. -/
theorem copyout_eq {mem : ByteMap} {pagetable va len : Nat} (src : Nat → UInt8)
    (ht : TablesApart mem pagetable va len) :
    copyout mem pagetable va src len =
      (written mem pagetable va src (firstGap mem pagetable va len),
        if firstGap mem pagetable va len = len then 0 else -1) := by
  have := copyout_from src ht len 0 (Nat.sub_zero _) (Nat.zero_le _)
  simp only [Nat.add_zero, Nat.zero_add, Nat.sub_zero] at this
  exact this

/-- Translated pages of `[va, va + len)` that differ have frames apart
from each other. -/
def FramesApart (mem : ByteMap) (pagetable va len : Nat) : Prop :=
  ∀ i < len, ∀ j < len, walkaddr mem pagetable (PGROUNDDOWN (va + i)) ≠ 0 →
    walkaddr mem pagetable (PGROUNDDOWN (va + j)) ≠ 0 → PGROUNDDOWN (va + i) ≠ PGROUNDDOWN (va + j) →
      Apart (walkaddr mem pagetable (PGROUNDDOWN (va + i))) (walkaddr mem pagetable (PGROUNDDOWN (va + j)))

/-- Distinct bytes of the range go to distinct addresses when frames do
not alias. -/
theorem userAddr_ne {mem : ByteMap} {pagetable va len : Nat} (hf : FramesApart mem pagetable va len)
    {i j a : Nat} (hi : i < len) (hj : j < len) (hij : j ≠ i) (ha : userAddr mem pagetable (va + i) = some a) :
    userAddr mem pagetable (va + j) ≠ some a := by
  intro hja
  obtain ⟨hne, hlo, hhi⟩ := userAddr_mem_frame ha
  obtain ⟨hne', hlo', hhi'⟩ := userAddr_mem_frame hja
  by_cases hpg : PGROUNDDOWN (va + i) = PGROUNDDOWN (va + j)
  · -- one page: the offsets differ
    unfold userAddr at ha hja
    rw [if_neg hne] at ha
    rw [if_neg hne'] at hja
    cases ha
    simp only [Option.some.injEq, hpg] at hja
    have := PGROUNDDOWN_le (va + i)
    have := PGROUNDDOWN_le (va + j)
    omega
  · rcases hf i hi j hj hne hne' hpg with h | h <;> omega

/-- What `copyout` stored reads back through the page table: `src`,
when every page translates and no frame aliases another or a table. -/
theorem userByte_written {mem : ByteMap} {pagetable va len : Nat} (src : Nat → UInt8)
    (ht : TablesApart mem pagetable va len) (hf : FramesApart mem pagetable va len)
    (htr : Translates mem pagetable va len) {i : Nat} (hi : i < len) :
    userByte (written mem pagetable va src len) pagetable (va + i) = some (src i) := by
  have hpa := htr i hi
  obtain ⟨a, ha⟩ : ∃ a, userAddr mem pagetable (va + i) = some a := by
    unfold userAddr
    exact ⟨_, if_neg hpa⟩
  rw [userByte, userAddr, walkaddr_written ht le_rfl hi, ← userAddr, ha, Option.map_some]
  exact congrArg some (written_apply_self ha hi fun i' hi' hne => userAddr_ne hf hi hi' hne ha)

-- ========================================================= both copies

/-- No frame of a translated page of `[va, va + len)` meets another
page's frame or a page-table page the range's walks read. -/
structure Unaliased (mem : ByteMap) (pagetable va len : Nat) : Prop where
  tables : TablesApart mem pagetable va len
  frames : FramesApart mem pagetable va len

/-- A page table at 4096, with its level-1 and level-0 pages at 8192 and
12288, that maps user page 0 to the frame at 16384. -/
def tableOne : ByteMap :=
  setLE (setLE (setLE (fun _ => 0) 4096 8 (PA2PTE 8192 ||| PTE_V)) 8192 8 (PA2PTE 12288 ||| PTE_V)) 12288 8
    (PA2PTE 16384 ||| PTE_V ||| PTE_R ||| PTE_W ||| PTE_U)

/-- `tableOne` with user page 4096 mapped to the same frame as page 0. -/
def tableAliased : ByteMap := setLE tableOne 12296 8 (PA2PTE 16384 ||| PTE_V ||| PTE_R ||| PTE_W ||| PTE_U)

end Xv6.Vm
