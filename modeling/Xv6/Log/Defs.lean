import Xv6.Param
import Xv6.Lib.Bytes
import Mathlib.Tactic.NormNum

/-!
The write-ahead log of `kernel/log.c`: the in-memory `struct log`, the
on-disk header format, and the three entry points the file system
calls (`begin_op`, `log_write`, `end_op`), each as the function of the
log state it computes under `log.lock`.

# Disk and header

A block is a byte map and the disk a map from block numbers to
blocks. The header block at `log.start` holds `struct logheader`
(`int n; int block[LOGSIZE]`) little-endian: `headOf` is the view
`read_head` copies out of it, `putHead` the store `write_head` makes
into it. Only the first `n` entries are read or written, exactly as
the two loops of the source.

# Panics and sleeps

`log_write` and `end_op` return `Except String`, the error carrying
the text of the source's `panic`. `begin_op` returns `none` where the
source sleeps: the caller's loop re-runs the same test after a wakeup,
so a sleep is a step that does not happen yet.

The `dev` field is not modelled: the kernel runs one disk.
-/

namespace Xv6

-- ====================================================== the header

/-- `struct logheader`: `n` is the length of `block`. -/
structure LogHeader where
  block : List Nat
  deriving DecidableEq, Repr

namespace LogHeader

/-- `lh.n`. -/
def n (lh : LogHeader) : Nat := lh.block.length

/-- The empty header `log.lh.n = 0` leaves behind. -/
def empty : LogHeader := ⟨[]⟩

@[simp] theorem n_mk (l : List Nat) : (LogHeader.mk l).n = l.length := rfl

@[simp] theorem empty_block : empty.block = [] := rfl

end LogHeader

/-- The entries `hb->block[i] = log.lh.block[i]` of `write_head`,
from index `i` on: entry `i` sits at byte `4 + 4 * i`. -/
@[grind] def putEntries (b : Block) : Nat → List Nat → Block
  | _, [] => b
  | i, x :: xs => putEntries (ByteMap.setLE b (4 + 4 * i) 4 x) (i + 1) xs

/-- `write_head`'s store into the header block: `hb->n = log.lh.n`,
then the first `n` entries. The rest of the block is left as it was. -/
def putHead (b : Block) (lh : LogHeader) : Block :=
  putEntries (ByteMap.setLE b 0 4 lh.n) 0 lh.block

/-- `read_head`'s view of the header block: `lh->n`, then
`lh->block[i]` for `i < n`. A count with the sign bit set is a
negative `int`, and the copy loop then runs no iteration. The entries
are read as the `uint` block numbers `bread` receives. -/
def headOf (b : Block) : LogHeader :=
  let raw := ByteMap.getLE b 0 4
  let n := if raw < 2 ^ 31 then raw else 0
  ⟨(List.range n).map fun i => ByteMap.getLE b (4 + 4 * i) 4⟩

/-- `putEntries` from index `i` leaves the bytes below entry `i`
alone. -/
theorem putEntries_apply_of_lt {b : Block} {i j : Nat} {xs : List Nat}
    (h : j < 4 + 4 * i) : putEntries b i xs j = b j := by
  induction xs generalizing b i with
  | nil => rfl
  | cons x xs ih =>
      rw [putEntries, ih (by omega), ByteMap.setLE_apply_of_not_mem _ (by omega)]

/-- Entry `i + k` reads back what `putEntries` from `i` stored there. -/
theorem getLE_putEntries {b : Block} {i : Nat} {xs : List Nat} {k : Nat}
    (hk : k < xs.length) :
    ByteMap.getLE (putEntries b i xs) (4 + 4 * (i + k)) 4 = xs[k] % 256 ^ 4 := by
  induction xs generalizing b i k with
  | nil => simp at hk
  | cons x xs ih =>
      cases k with
      | zero =>
          rw [putEntries, ByteMap.getLE_congr (ByteMap.setLE b (4 + 4 * i) 4 x)
            fun j _ hj => putEntries_apply_of_lt (by omega)]
          simp only [Nat.add_zero, List.getElem_cons_zero]
          exact ByteMap.getLE_setLE _ _ _ _
      | succ k =>
          rw [putEntries, show 4 + 4 * (i + (k + 1)) = 4 + 4 * (i + 1 + k) by ring]
          exact ih (by simpa using hk)

/-- The header round trip: `read_head` after `write_head` sees the
header written, for any `int` count and `uint` block numbers. -/
theorem headOf_putHead (b : Block) {lh : LogHeader} (hn : lh.n < 2 ^ 31)
    (hblk : ∀ x ∈ lh.block, x < BLOCKNO_LIMIT) : headOf (putHead b lh) = lh := by
  have hcount : ByteMap.getLE (putHead b lh) 0 4 = lh.n := by
    rw [putHead, ByteMap.getLE_congr (ByteMap.setLE b 0 4 lh.n)
      fun j _ hj => putEntries_apply_of_lt (by omega), ByteMap.getLE_setLE_of_lt]
    calc lh.n < 2 ^ 31 := hn
      _ ≤ 256 ^ 4 := by norm_num
  cases lh with
  | mk blocks =>
      simp only [headOf, hcount, if_pos hn]
      congr 1
      apply List.ext_getElem (by simp)
      intro k hk _
      simp only [List.getElem_map, List.getElem_range]
      have hget := getLE_putEntries (b := ByteMap.setLE b 0 4 blocks.length) (i := 0)
        (by simpa using hk : k < blocks.length)
      rw [Nat.zero_add] at hget
      rw [putHead, LogHeader.n_mk, hget]
      exact Nat.mod_eq_of_lt (hblk _ (List.getElem_mem _))

-- ==================================================== struct log

/-- `struct log`, less `lock` and `dev`. -/
structure Log where
  /-- `log.start`: block number of the header block. -/
  start : Nat
  /-- `log.size`: `sb.nlog`, the header block included. -/
  size : Nat
  /-- How many FS system calls are executing. -/
  outstanding : Int
  /-- In `commit()`, please wait. -/
  committing : Bool
  lh : LogHeader
  deriving DecidableEq, Repr

namespace Log

/-- The blocks of the on-disk log: the header and its data blocks. -/
def inLog (l : Log) (b : Nat) : Prop := l.start ≤ b ∧ b < l.start + l.size

instance (l : Log) (b : Nat) : Decidable (l.inLog b) :=
  inferInstanceAs (Decidable (_ ∧ _))

/-- A home block: a `uint` block number outside the log. -/
def home (l : Log) (b : Nat) : Prop := b < BLOCKNO_LIMIT ∧ ¬ l.inLog b

instance (l : Log) (b : Nat) : Decidable (l.home b) :=
  inferInstanceAs (Decidable (_ ∧ _))

/-- The log block holding entry `tail`: `log.start + tail + 1`. -/
def slot (l : Log) (tail : Nat) : Nat := l.start + tail + 1

/-- The state `initlog` leaves: `recover_from_log` ends with
`log.lh.n = 0`. -/
def init (start size : Nat) : Log :=
  { start, size, outstanding := 0, committing := false, lh := .empty }

end Log

-- ================================================== entry points

/-- One pass of `begin_op`'s loop under `log.lock`: `none` where it
sleeps (a commit is running, or this operation might exhaust the
log), else the state with the operation admitted. -/
def beginOp (l : Log) : Option Log :=
  if l.committing then none
  else if (l.lh.n : Int) + (l.outstanding + 1) * MAXOPBLOCKS > LOGSIZE then none
  else some { l with outstanding := l.outstanding + 1 }

/-- `end_op` up to the commit: the new state and `do_commit`. The
decrement of `outstanding` precedes the panic test in the source; a
panic ends the model's run, so it is written into both other
branches. -/
def endOp (l : Log) : Except String (Log × Bool) :=
  if l.committing then .error "log.committing"
  else if l.outstanding - 1 = 0 then
    .ok ({ l with outstanding := l.outstanding - 1, committing := true }, true)
  else .ok ({ l with outstanding := l.outstanding - 1 }, false)

/-- `log_write(b)` for a buffer carrying `blockno`: the new state, and
whether the block was added to the log (the `bpin(b)` branch) rather
than absorbed into an entry already present. -/
def logWrite (l : Log) (blockno : Nat) : Except String (Log × Bool) :=
  if l.lh.n ≥ LOGSIZE ∨ l.lh.n ≥ l.size - 1 then .error "too big a transaction"
  else if l.outstanding < 1 then .error "log_write outside of trans"
  -- the absorption loop: an entry equal to `blockno` is rewritten in place
  else if blockno ∈ l.lh.block then .ok (l, false)
  else .ok ({ l with lh := ⟨l.lh.block ++ [blockno]⟩ }, true)

-- ======================================== what each entry point does

/-- An admitted `begin_op`: no commit is running, the reservation
fits, and `outstanding` grows by one. -/
theorem beginOp_eq_some {l l' : Log} (h : beginOp l = some l') :
    l.committing = false ∧ (l.lh.n : Int) + (l.outstanding + 1) * MAXOPBLOCKS ≤ LOGSIZE ∧
      l' = { l with outstanding := l.outstanding + 1 } := by
  unfold beginOp at h
  split at h
  · cases h
  · split at h
    · cases h
    · next hc hr =>
        cases h
        exact ⟨by simpa using hc, by omega, rfl⟩

/-- A returning `end_op`: no commit was running, `outstanding` drops
by one, and `do_commit` is set exactly when it reaches zero. -/
theorem endOp_eq_ok {l l' : Log} {c : Bool} (h : endOp l = .ok (l', c)) :
    l.committing = false ∧ (c = true ↔ l.outstanding = 1) ∧
      l' = { l with outstanding := l.outstanding - 1, committing := c } := by
  unfold endOp at h
  split at h
  · cases h
  · next hc =>
      have hc' : l.committing = false := by simpa using hc
      split at h
      · next h0 =>
          cases h
          exact ⟨hc', by simp only [true_iff]; omega, rfl⟩
      · next h0 =>
          cases h
          exact ⟨hc', by simp only [Bool.false_eq_true, false_iff]; omega, by rw [← hc']⟩

/-- `end_op` panics only while a commit is running. -/
theorem endOp_eq_error {l : Log} {msg : String} (h : endOp l = .error msg) :
    l.committing = true := by
  unfold endOp at h
  split at h
  · next hc => simpa using hc
  · split at h <;> cases h

/-- A returning `log_write`: the capacity and transaction checks
passed, and the block joins the header unless it is there already. -/
theorem logWrite_eq_ok {l l' : Log} {b : Nat} {added : Bool} (h : logWrite l b = .ok (l', added)) :
    l.lh.n < LOGSIZE ∧ l.lh.n < l.size - 1 ∧ 1 ≤ l.outstanding ∧
      (added = true ↔ b ∉ l.lh.block) ∧
      l' = { l with lh := ⟨if b ∈ l.lh.block then l.lh.block else l.lh.block ++ [b]⟩ } := by
  unfold logWrite at h
  split at h
  · cases h
  · next hcap =>
      split at h
      · cases h
      · next htr =>
          have hcap' : l.lh.n < LOGSIZE ∧ l.lh.n < l.size - 1 := by omega
          split at h
          · next hb =>
              cases h
              exact ⟨hcap'.1, hcap'.2, by omega, by simpa using hb, by simp [hb]⟩
          · next hb =>
              cases h
              exact ⟨hcap'.1, hcap'.2, by omega, by simpa using hb, by simp [hb]⟩

end Xv6
