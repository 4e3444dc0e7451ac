import Xv6.Vm.Copy

/-!
What a walk depends on, and the user bytes a page table shows.

A walk reads one PTE in each page-table page on its way
(`tablesOf`), all inside the page (`PX_lt`), so two memories that agree
on those pages give the same walk and the same `walkaddr`
(`walkaddr_congr`). A store elsewhere, into user frames, leaves every
translation as it was.

`userAddr` is the byte-at-a-time view of a page table: the physical
address of user byte `va`, when `walkaddr` translates its page.
-/

namespace Xv6.Vm

open ByteMap

theorem PX_lt (level va : Nat) : PX level va < 512 :=
  Nat.lt_of_le_of_lt Nat.and_le_right (by decide)

/-- `m'` holds what `m` holds in the page at `q`. -/
def SameOn (m m' : ByteMap) (q : Nat) : Prop := ∀ a, q ≤ a → a < q + PGSIZE → m' a = m a

/-- A PTE of the page at `q` reads the same in memories that agree on
the page. -/
theorem load_congr {m m' : ByteMap} {q : Nat} (h : SameOn m m' q) (i : Nat) (hi : i < 512) :
    load m' (q + 8 * i) = load m (q + 8 * i) :=
  getLE_congr m fun a h1 h2 => h a (by omega) (by simp only [PGSIZE]; omega)

/-- A walk, and the leaf PTE it reaches, read the same in memories that
agree on the page-table pages it visits. -/
theorem walkLoop_congr {m m' : ByteMap} {va : Nat} :
    ∀ {level pagetable}, (∀ q ∈ tablesOf m va level pagetable, SameOn m m' q) →
      walkLoop m' va level pagetable = walkLoop m va level pagetable ∧
        ∀ pte, walkLoop m va level pagetable = some pte → load m' pte = load m pte
  | 0, pagetable, h => by
      refine ⟨rfl, fun pte hpte => ?_⟩
      cases hpte
      exact load_congr (h pagetable (by simp [tablesOf])) _ (PX_lt 0 va)
  | level + 1, pagetable, h => by
      have hload := load_congr (h pagetable (by simp [tablesOf])) _ (PX_lt (level + 1) va)
      simp only [walkLoop, hload]
      split
      · -- the PTE is valid: the walk goes on in the page it points to
        refine walkLoop_congr fun q hq => h q ?_
        simp only [tablesOf, List.mem_cons]
        exact Or.inr (by rwa [if_pos (by assumption)])
      · exact ⟨rfl, fun _ h => by cases h⟩

theorem walkaddr_congr {m m' : ByteMap} {pagetable va : Nat}
    (h : ∀ q ∈ tablesOf m va 2 pagetable, SameOn m m' q) :
    walkaddr m' pagetable va = walkaddr m pagetable va := by
  obtain ⟨hw, hpte⟩ := walkLoop_congr h
  unfold walkaddr walk
  by_cases hva : va ≥ MAXVA
  · simp only [if_pos hva]
  · simp only [if_neg hva, hw]
    cases hwl : walkLoop m va 2 pagetable with
    | none => rfl
    | some pte => simp only [hpte pte hwl]

-- ================================================================ user bytes

/-- The physical address of user byte `va`: its page's frame, when
`walkaddr` translates the page, plus the offset in the page. -/
def userAddr (mem : ByteMap) (pagetable va : Nat) : Option Nat :=
  if walkaddr mem pagetable (PGROUNDDOWN va) = 0 then none
  else some (walkaddr mem pagetable (PGROUNDDOWN va) + (va - PGROUNDDOWN va))

/-- User byte `va`. -/
def userByte (mem : ByteMap) (pagetable va : Nat) : Option UInt8 := (userAddr mem pagetable va).map mem

/-- A byte `i` past the page offset of `va`, still inside the page, is
in the page of `va`. -/
theorem PGROUNDDOWN_add {va i : Nat} (h : va - PGROUNDDOWN va + i < PGSIZE) :
    PGROUNDDOWN (va + i) = PGROUNDDOWN va := by
  simp only [PGROUNDDOWN, PGSIZE] at h ⊢
  omega

theorem PGROUNDDOWN_le (va : Nat) : PGROUNDDOWN va ≤ va := by
  simp only [PGROUNDDOWN, PGSIZE]
  omega

/-- The bytes of one translated page: user byte `va + i` is byte
`pa0 + (va - va0) + i`. -/
theorem userAddr_page {mem : ByteMap} {pagetable va : Nat} (hpa : walkaddr mem pagetable (PGROUNDDOWN va) ≠ 0)
    {i : Nat} (hi : va - PGROUNDDOWN va + i < PGSIZE) :
    userAddr mem pagetable (va + i) =
      some (walkaddr mem pagetable (PGROUNDDOWN va) + (va - PGROUNDDOWN va) + i) := by
  have hva := PGROUNDDOWN_le va
  rw [userAddr, PGROUNDDOWN_add hi, if_neg hpa]
  congr 1
  omega

theorem userAddr_of_walkaddr {mem : ByteMap} {pagetable va : Nat}
    (hpa : walkaddr mem pagetable (PGROUNDDOWN va) = 0) : userAddr mem pagetable va = none := by
  rw [userAddr, if_pos hpa]

/-- Translation reads only the page-table pages of the walk. -/
theorem userAddr_congr {m m' : ByteMap} {pagetable va : Nat}
    (h : ∀ q ∈ tablesOf m (PGROUNDDOWN va) 2 pagetable, SameOn m m' q) :
    userAddr m' pagetable va = userAddr m pagetable va := by
  rw [userAddr, userAddr, walkaddr_congr h]

end Xv6.Vm
