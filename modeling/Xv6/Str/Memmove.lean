import Xv6.Lib.Bytes
import Xv6.Lib.Copy

/-!
The two `memmove`s: the kernel's (`kernel/string.c`), with a `uint`
count, and the user library's (`user/ulib.c`), with an `int` count.

Memory is one byte map and a pointer an address in it; the buffers a
caller passes are objects of the address space, so `s + n` and `d + n`
do not wrap. The kernel copies backwards only when the source starts
below the destination and runs into it; the user version copies
forwards when the source is above the destination and backwards
otherwise. A user count `n ≤ 0` moves both pointers back by `-n` and
copies nothing: the loop of `n.toNat = 0` turns.
-/

namespace Xv6

namespace Str

/-- `memmove(dst, src, n)` of `kernel/string.c`. -/
def memmove (m : ByteMap) (dst src n : Nat) : ByteMap :=
  if n = 0 then m
  else if src < dst ∧ src + n > dst then Copy.bwd m dst src n
  else Copy.fwd m dst src n

end Str

namespace Ulib

/-- `memmove(vdst, vsrc, n)` of `user/ulib.c`. -/
def memmove (m : ByteMap) (dst src : Nat) (n : Int) : ByteMap :=
  if src > dst then Copy.fwd m dst src n.toNat
  else Copy.bwd m dst src n.toNat

end Ulib

end Xv6
