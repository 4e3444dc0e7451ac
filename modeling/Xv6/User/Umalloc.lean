import Xv6.Param

/-!
`user/umalloc.c`, the Kernighan and Ritchie allocator, with the `sbrk`
it grows the heap by (`sys_sbrk`, `growproc`, `uvmalloc`,
`uvmdealloc`).

# Memory

Addresses are byte addresses. A `Header` is a pointer and a `uint`,
padded to the alignment of `long`: 16 bytes on RV64, so `p + k` for a
`Header *p` is `p + 16 * k`. The model keeps the header at every
address the allocator may read (`Heap.mem`); block contents the program
writes are not headers the allocator reads, as long as the program
stays inside its blocks. `base` is a static `Header` at a fixed address.

# Integers

`nbytes + sizeof(Header) - 1` is `size_t` arithmetic, 64 bits wide, so
`nunits` never wraps. `nu * sizeof(Header)` is 64 bits wide too, but it
is passed to `char *sbrk(int)`: GCC keeps its low 32 bits as a
two's-complement `int` (`toInt`). In the kernel `growproc` adds `n` to
its `uint sz` in 32-bit unsigned arithmetic. Sizes in headers are
`UInt32`.

# Loops

`free`'s search and `malloc`'s scan run until the list gives them what
they look for; a malformed list would keep them going, so each takes
fuel and `none` means the fuel ran out. Whether `uvmalloc` finds the
pages it needs is an oracle `fits`, one per `malloc` call.
-/

namespace Xv6.Umalloc

/-- `sizeof(Header)`. -/
def HEADER : Nat := 16

/-- The `s` fields of a `Header`. -/
structure Header where
  ptr : Nat
  size : UInt32
  deriving DecidableEq, Repr

/-- The allocator's memory, `freep` (0 is the null pointer) and the
process's break `p->sz`. -/
structure Heap where
  mem : Nat → Header
  freep : Nat
  brk : Nat

/-- `a->s.ptr = q`. -/
def setPtr (mem : Nat → Header) (a q : Nat) : Nat → Header :=
  Function.update mem a { mem a with ptr := q }

/-- `a->s.size = n`. -/
def setSize (mem : Nat → Header) (a : Nat) (n : UInt32) : Nat → Header :=
  Function.update mem a { mem a with size := n }

@[simp] theorem setPtr_self (mem : Nat → Header) (a q : Nat) :
    setPtr mem a q a = { mem a with ptr := q } := Function.update_self ..

@[simp] theorem setPtr_of_ne {mem : Nat → Header} {a b : Nat} (q : Nat) (h : b ≠ a) :
    setPtr mem a q b = mem b := Function.update_of_ne h ..

@[simp] theorem setSize_self (mem : Nat → Header) (a : Nat) (n : UInt32) :
    setSize mem a n a = { mem a with size := n } := Function.update_self ..

@[simp] theorem setSize_of_ne {mem : Nat → Header} {a b : Nat} (n : UInt32) (h : b ≠ a) :
    setSize mem a n b = mem b := Function.update_of_ne h ..

-- ====================================================================== sbrk

/-- `(int)x` for an unsigned `x`: its low 32 bits as a two's-complement
`int`. -/
def toInt (x : Nat) : Int :=
  if x % 2 ^ 32 < 2 ^ 31 then (x % 2 ^ 32 : Nat) else (x % 2 ^ 32 : Nat) - 2 ^ 32

/-- `growproc(n)` from the break `sz`: the new break, or `none` for
`-1`. `sz + n` is `uint` arithmetic; `uvmalloc` returns `oldsz` for a
smaller `newsz` and `uvmdealloc` keeps `oldsz` for a larger one. -/
def growproc (sz : Nat) (fits : Bool) (n : Int) : Option Nat :=
  let t := (((sz : Int) + n) % 2 ^ 32).toNat
  if 0 < n then
    let r := if t < sz then sz else if fits then t else 0
    -- `if((sz = uvmalloc(...)) == 0) return -1`
    if r = 0 then none else some r
  else if n < 0 then some (if sz ≤ t then sz else t)
  else some sz

/-- `sbrk(n)`: the old break and the new one, or `none` for
`(char *)-1`. -/
def sbrk (sz : Nat) (fits : Bool) (n : Int) : Option (Nat × Nat) :=
  (growproc sz fits n).map fun sz' => (sz, sz')

-- ====================================================================== free

/-- `free`'s search from `p` for the block `bp` goes after: it stops where
`bp` lies between `p` and the next block, or at the list's wrap with
`bp` beyond either end. -/
def freeScan (mem : Nat → Header) (bp : Nat) : Nat → Nat → Option Nat
  | 0, _ => none
  | fuel + 1, p =>
      if bp > p ∧ bp < (mem p).ptr then some p
      else if p ≥ (mem p).ptr ∧ (bp > p ∨ bp < (mem p).ptr) then some p
      else freeScan mem bp fuel (mem p).ptr

/-- `free`'s first join: `bp` takes in the block above it if it ends
there, and points on past it; else it points at `p`'s successor. -/
def joinAbove (mem : Nat → Header) (bp p : Nat) : Nat → Header :=
  if bp + HEADER * (mem bp).size.toNat = (mem p).ptr then
    let mem := setSize mem bp ((mem bp).size + (mem (mem p).ptr).size)
    setPtr mem bp (mem (mem p).ptr).ptr
  else setPtr mem bp (mem p).ptr

/-- `free`'s second join: `p` takes in `bp` if it ends there, and
points on past it; else it points at `bp`. -/
def joinBelow (mem : Nat → Header) (p bp : Nat) : Nat → Header :=
  if p + HEADER * (mem p).size.toNat = bp then
    let mem := setSize mem p ((mem p).size + (mem bp).size)
    setPtr mem p (mem bp).ptr
  else setPtr mem p bp

/-- `free(ap)`. -/
def free (fuel : Nat) (h : Heap) (ap : Nat) : Option Heap :=
  let bp := ap - HEADER
  (freeScan h.mem bp fuel h.freep).map fun p =>
    { h with mem := joinBelow (joinAbove h.mem bp p) p bp, freep := p }

-- ==================================================================== malloc

/-- `morecore(nu)`: `freep`, or 0 when `sbrk` fails. -/
def morecore (fuel : Nat) (fits : Bool) (h : Heap) (nu : UInt32) : Option (Heap × Nat) :=
  let nu : UInt32 := if nu < 4096 then 4096 else nu
  match sbrk h.brk fits (toInt (nu.toNat * HEADER)) with
  | none => some (h, 0)
  | some (p, brk) =>
      (free fuel { h with mem := setSize h.mem p nu, brk := brk } (p + HEADER)).map
        fun h => (h, h.freep)

/-- `nunits` for `malloc(nbytes)`. -/
def nunitsOf (nbytes : UInt32) : UInt32 := ((nbytes.toNat + HEADER - 1) / HEADER + 1).toUInt32

/-- `malloc`'s scan from `p`, the block after `prevp`. -/
@[grind] def mallocLoop (fits : Bool) (nunits : UInt32) : Nat → Heap → Nat → Nat → Option (Heap × Nat)
  | 0, _, _, _ => none
  | fuel + 1, h, prevp, p =>
      if (h.mem p).size ≥ nunits then
        if (h.mem p).size = nunits then
          some ({ h with mem := setPtr h.mem prevp (h.mem p).ptr, freep := prevp }, p + HEADER)
        else
          -- the block's tail goes
          let mem := setSize h.mem p ((h.mem p).size - nunits)
          let q := p + HEADER * (mem p).size.toNat
          some ({ h with mem := setSize mem q nunits, freep := prevp }, q + HEADER)
      else if p = h.freep then
        match morecore fuel fits h nunits with
        | none => none
        | some (h, q) => if q = 0 then some (h, 0) else mallocLoop fits nunits fuel h q (h.mem q).ptr
      else mallocLoop fits nunits fuel h p (h.mem p).ptr

/-- `malloc(nbytes)`: the heap and the pointer returned, 0 for none. -/
def malloc (base : Nat) (fuel : Nat) (fits : Bool) (h : Heap) (nbytes : UInt32) :
    Option (Heap × Nat) :=
  let h := if h.freep = 0 then { h with mem := setSize (setPtr h.mem base base) base 0, freep := base }
    else h
  mallocLoop fits (nunitsOf nbytes) fuel h h.freep (h.mem h.freep).ptr

end Xv6.Umalloc
