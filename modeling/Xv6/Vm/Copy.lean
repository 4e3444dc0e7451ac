import Xv6.Vm.Walk
import Xv6.Param

/-!
`copyout`, `copyin` and `copyinstr` (`kernel/vm.c`), and `fetchstr`
(`kernel/syscall.c`), which moves a system call's string argument
with `copyinstr`.

Each copies page by page: it translates the page of the current user
address once, with `walkaddr`, and moves the bytes from there to the
page's end or the budget's. The kernel buffer on the other side is a
separate value: the bytes `copyin` and `copyinstr` have stored through
`dst`, in order, and the source bytes of `copyout` from `src`.

The loops run while `len > 0` and `max > 0`, and every turn that goes
on moves at least one byte, so they are defined by well-founded
recursion on the budget.
-/

namespace Xv6.Vm

open ByteMap

/-- The page offset of `va`, below `PGSIZE`. -/
theorem sub_PGROUNDDOWN_lt (va : Nat) : va - PGROUNDDOWN va < PGSIZE := by
  simp only [PGROUNDDOWN, PGSIZE]
  omega

/-- `memmove(pa, src, n)` into physical memory. -/
def memmove (mem : ByteMap) (pa : Nat) (src : Nat → UInt8) (n : Nat) : ByteMap :=
  fun a => if pa ≤ a ∧ a < pa + n then src (a - pa) else mem a

/-- `memmove(dst, pa, n)` out of physical memory: the `n` bytes at `pa`. -/
def bytesAt (mem : ByteMap) (pa n : Nat) : List UInt8 := (List.range n).map fun i => mem (pa + i)

/-- `copyout(pagetable, dstva, src, len)`: physical memory and the
return value. -/
@[grind] def copyout (mem : ByteMap) (pagetable dstva : Nat) (src : Nat → UInt8) (len : Nat) : ByteMap × Int :=
  if len = 0 then (mem, 0)
  else
    let va0 := PGROUNDDOWN dstva
    let pa0 := walkaddr mem pagetable va0
    if pa0 = 0 then (mem, -1)
    else
      let n := min (PGSIZE - (dstva - va0)) len
      copyout (memmove mem (pa0 + (dstva - va0)) src n) pagetable (va0 + PGSIZE) (fun i => src (n + i))
        (len - n)
termination_by len
decreasing_by have := sub_PGROUNDDOWN_lt dstva; omega

/-- `copyin(pagetable, dst, srcva, len)`: the bytes stored through `dst`
after the ones in `dst` already, and the return value. -/
@[grind] def copyin (mem : ByteMap) (pagetable : Nat) (dst : List UInt8) (srcva len : Nat) : List UInt8 × Int :=
  if len = 0 then (dst, 0)
  else
    let va0 := PGROUNDDOWN srcva
    let pa0 := walkaddr mem pagetable va0
    if pa0 = 0 then (dst, -1)
    else
      let n := min (PGSIZE - (srcva - va0)) len
      copyin mem pagetable (dst ++ bytesAt mem (pa0 + (srcva - va0)) n) (va0 + PGSIZE) (len - n)
termination_by len
decreasing_by have := sub_PGROUNDDOWN_lt srcva; omega

/-- `copyinstr`'s inner loop over the `n` bytes from `p`: `dst`, `max`
and `got_null` after it. -/
@[grind] def copyinstrPage (mem : ByteMap) : Nat → Nat → List UInt8 → Nat → List UInt8 × Nat × Bool
  | 0, _, dst, max => (dst, max, false)
  | n + 1, p, dst, max =>
      if mem p = 0 then (dst ++ [0], max, true)
      else copyinstrPage mem n (p + 1) (dst ++ [mem p]) (max - 1)

/-- A page without the NUL takes `n` from `max`. -/
theorem copyinstrPage_max (mem : ByteMap) :
    ∀ n p dst max, (copyinstrPage mem n p dst max).2.2 = false →
      (copyinstrPage mem n p dst max).2.1 = max - n
  | 0, _, _, _, _ => rfl
  | n + 1, p, dst, max, h => by
      unfold copyinstrPage at h ⊢
      split at h
      · cases h
      · rw [if_neg (by assumption), copyinstrPage_max mem n _ _ _ h]
        omega

/-- `copyinstr(pagetable, dst, srcva, max)`'s loop, from `dst`: the bytes
stored through `dst` and the return value. -/
@[grind] def copyinstrLoop (mem : ByteMap) (pagetable : Nat) (dst : List UInt8) (srcva max : Nat) :
    List UInt8 × Int :=
  if max = 0 then (dst, -1)
  else
    let va0 := PGROUNDDOWN srcva
    let pa0 := walkaddr mem pagetable va0
    if pa0 = 0 then (dst, -1)
    else
      let n := min (PGSIZE - (srcva - va0)) max
      let r := copyinstrPage mem n (pa0 + (srcva - va0)) dst max
      -- `got_null` ends the loop, and `copyinstr` returns 0
      if r.2.2 then (r.1, 0) else copyinstrLoop mem pagetable r.1 (va0 + PGSIZE) r.2.1
termination_by max
decreasing_by
  have := sub_PGROUNDDOWN_lt srcva
  rw [copyinstrPage_max mem _ _ _ _ (by simpa using (by assumption : ¬ _ = true))]
  omega

/-- `copyinstr(pagetable, dst, srcva, max)`. -/
def copyinstr (mem : ByteMap) (pagetable srcva max : Nat) : List UInt8 × Int :=
  copyinstrLoop mem pagetable [] srcva max

/-- `strlen(s)`. -/
def strlen (s : List UInt8) : Nat := (s.takeWhile (· ≠ 0)).length

/-- `fetchstr(addr, buf, max)` in a process with page table
`pagetable`: the bytes in `buf` and the return value. -/
def fetchstr (mem : ByteMap) (pagetable addr max : Nat) : List UInt8 × Int :=
  let r := copyinstr mem pagetable addr max
  if r.2 < 0 then r else (r.1, strlen r.1)

end Xv6.Vm
