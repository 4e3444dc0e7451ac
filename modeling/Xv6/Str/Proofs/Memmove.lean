import Xv6.Str.Memmove

/-!
Both `memmove`s are safe for every overlap: each picks a direction in
which every source byte is read before a store reaches it
(`Copy.fwd_copies`, `Copy.bwd_copies`), and stores only inside the
destination (`Copy.fwd_frame`, `Copy.bwd_frame`).
-/

namespace Xv6

/-- The kernel's choice: backwards exactly when the source starts below
the destination and meets it, which leaves forwards only for a
destination at or below the source or apart from it. -/
theorem Str.memmove_copies (m : ByteMap) (dst src n : Nat) :
    ∀ i < n, Str.memmove m dst src n (dst + i) = m (src + i) := by
  intro i hi
  unfold Str.memmove
  rw [if_neg (by omega)]
  split
  · exact Copy.bwd_copies (by omega) i hi
  · exact Copy.fwd_copies (by omega) i hi

theorem Str.memmove_frame (m : ByteMap) (dst src n : Nat) {a : Nat} (ha : a < dst ∨ dst + n ≤ a) :
    Str.memmove m dst src n a = m a := by
  unfold Str.memmove
  split
  · rfl
  · split
    · exact Copy.bwd_frame ha
    · exact Copy.fwd_frame ha

/-- The user library's choice: forwards for a source above the
destination, backwards for one at or below it. -/
theorem Ulib.memmove_copies (m : ByteMap) (dst src : Nat) (n : Int) :
    ∀ i : Nat, (i : Int) < n → Ulib.memmove m dst src n (dst + i) = m (src + i) := by
  intro i hi
  have hin : i < n.toNat := by omega
  unfold Ulib.memmove
  split
  · exact Copy.fwd_copies (by omega) i hin
  · exact Copy.bwd_copies (by omega) i hin

theorem Ulib.memmove_frame (m : ByteMap) (dst src : Nat) (n : Int) {a : Nat}
    (ha : a < dst ∨ dst + n.toNat ≤ a) : Ulib.memmove m dst src n a = m a := by
  unfold Ulib.memmove
  split
  · exact Copy.fwd_frame ha
  · exact Copy.bwd_frame ha

/-- After either `memmove(dst, src, n)`, for every placement of the two
ranges, byte `dst + i` holds the original `src[i]` for each `i < n`, and
no byte outside `[dst, dst + n)` changes; a user count `n ≤ 0` changes
nothing. -/
theorem memmove_overlap_safe :
    (∀ (m : ByteMap) (dst src n : Nat),
      (∀ i < n, Str.memmove m dst src n (dst + i) = m (src + i)) ∧
      ∀ a, a < dst ∨ dst + n ≤ a → Str.memmove m dst src n a = m a) ∧
    (∀ (m : ByteMap) (dst src : Nat) (n : Int),
      (∀ i : Nat, (i : Int) < n → Ulib.memmove m dst src n (dst + i) = m (src + i)) ∧
      ∀ a, a < dst ∨ dst + n.toNat ≤ a → Ulib.memmove m dst src n a = m a) :=
  ⟨fun m dst src n => ⟨Str.memmove_copies m dst src n, fun _ ha => Str.memmove_frame m dst src n ha⟩,
    fun m dst src n => ⟨Ulib.memmove_copies m dst src n, fun _ ha => Ulib.memmove_frame m dst src n ha⟩⟩

end Xv6
