import Xv6.Lib.Bytes

/-!
The Sv39 page table, as `kernel/riscv.h` lays it out and `walk` and
`walkaddr` in `kernel/vm.c` read it.

# Memory

Physical memory is one byte map: a page-table page is 512 eight-byte
PTEs, little-endian, stored in it like any other page, so a store into
a page that is also a page-table page changes the table. Addresses and
PTEs are `uint64` in C and `Nat` here: every address the functions
compute from one below `2 ^ 64` is below `MAXVA + PGSIZE` or is never
used, so no `uint64` sum wraps. `PGROUNDDOWN(a)` is `a & ~(PGSIZE-1)`,
which for such an `a` is `a / PGSIZE * PGSIZE`.

# Walks

`walk(pagetable, va, 0)` goes down levels 2 and 1 and returns the
address of the level-0 PTE, or 0 when a PTE on the way is not valid;
it panics for `va ≥ MAXVA`, which `walkaddr` checks first.
`tablesOf` lists the page-table pages a walk reads, the pages whose
bytes its result depends on.
-/

namespace Xv6.Vm

open ByteMap

-- ================================================================ riscv.h

/-- Bytes per page. -/
def PGSIZE : Nat := 4096

/-- Bits of offset within a page. -/
def PGSHIFT : Nat := 12

/-- `PGROUNDUP(sz)`. -/
def PGROUNDUP (sz : Nat) : Nat := (sz + PGSIZE - 1) / PGSIZE * PGSIZE

/-- `PGROUNDDOWN(a)`. -/
def PGROUNDDOWN (a : Nat) : Nat := a / PGSIZE * PGSIZE

def PTE_V : Nat := 1 <<< 0
def PTE_R : Nat := 1 <<< 1
def PTE_W : Nat := 1 <<< 2
def PTE_X : Nat := 1 <<< 3
def PTE_U : Nat := 1 <<< 4

/-- Shift a physical address to the right place for a PTE. -/
def PA2PTE (pa : Nat) : Nat := (pa >>> 12) <<< 10

def PTE2PA (pte : Nat) : Nat := (pte >>> 10) <<< 12

def PXMASK : Nat := 0x1FF

def PXSHIFT (level : Nat) : Nat := PGSHIFT + 9 * level

/-- The 9-bit page-table index of `va` at `level`. -/
def PX (level va : Nat) : Nat := (va >>> PXSHIFT level) &&& PXMASK

/-- One beyond the highest possible virtual address. -/
def MAXVA : Nat := 1 <<< (9 + 9 + 9 + 12 - 1)

-- =================================================================== vm.c

/-- `*pte`: the PTE stored at address `pte`. -/
def load (mem : ByteMap) (pte : Nat) : Nat := getLE mem pte 8

/-- `walk`'s loop from `level` down, in the page-table page at
`pagetable`: the address of the level-0 PTE, or `none` for 0. -/
def walkLoop (mem : ByteMap) (va : Nat) : Nat → Nat → Option Nat
  | 0, pagetable => some (pagetable + 8 * PX 0 va)
  | level + 1, pagetable =>
      let pte := pagetable + 8 * PX (level + 1) va
      if load mem pte &&& PTE_V ≠ 0 then walkLoop mem va level (PTE2PA (load mem pte)) else none

/-- `walk(pagetable, va, 0)`. -/
def walk (mem : ByteMap) (pagetable va : Nat) : Except String (Option Nat) :=
  if va ≥ MAXVA then .error "walk" else .ok (walkLoop mem va 2 pagetable)

/-- `walkaddr(pagetable, va)`: the physical address of the user page
at `va`, or 0. -/
@[grind] def walkaddr (mem : ByteMap) (pagetable va : Nat) : Nat :=
  if va ≥ MAXVA then 0
  else
    match walk mem pagetable va with
    | .ok (some pte) =>
        if load mem pte &&& PTE_V = 0 then 0
        else if load mem pte &&& PTE_U = 0 then 0
        else PTE2PA (load mem pte)
    | _ => 0

/-- The page-table pages `walkLoop` reads from `level` down. -/
def tablesOf (mem : ByteMap) (va : Nat) : Nat → Nat → List Nat
  | 0, pagetable => [pagetable]
  | level + 1, pagetable =>
      let pte := pagetable + 8 * PX (level + 1) va
      pagetable :: if load mem pte &&& PTE_V ≠ 0 then tablesOf mem va level (PTE2PA (load mem pte)) else []

end Xv6.Vm
