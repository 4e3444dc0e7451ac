import Xv6.Lib.Bytes
import Mathlib.Tactic.Basic

/-!
The kernel's compile-time constants, as `kernel/param.h`, `kernel/fs.h`
and `mkfs/mkfs.c` fix them. The file-system layout (`NINODES`, the
superblock fields) is the one `mkfs` writes: every kernel superblock
read by `fsinit` comes from that program, so the layout constants are
the model's superblock.

Every constant is a plain `def` on `Nat`, so `decide` and `omega`
see through them after `simp only` with the names (or `unfold`).

The disk, the outcome of a step and the C `uint` arithmetic, which
the log, the buffer cache and the file system share, sit here too.
-/

namespace Xv6

-- ====================================================== param.h

/-- Maximum number of processes. -/
def NPROC : Nat := 64

/-- Maximum number of CPUs. -/
def NCPU : Nat := 8

/-- Open files per process. -/
def NOFILE : Nat := 16

/-- Open files per system. -/
def NFILE : Nat := 100

/-- Maximum number of blocks any FS operation writes. -/
def MAXOPBLOCKS : Nat := 10

/-- Maximum file path name. -/
def MAXPATH : Nat := 128

/-- Maximum data blocks in the on-disk log. -/
def LOGSIZE : Nat := MAXOPBLOCKS * 3

/-- Size of the disk block cache. -/
def NBUF : Nat := MAXOPBLOCKS * 3

/-- Size of the file system in blocks. -/
def FSSIZE : Nat := 1000

/-- Device number of the file system root disk. -/
def ROOTDEV : Nat := 1

-- ========================================================= fs.h

/-- Root i-number. -/
def ROOTINO : Nat := 1

/-- Block size in bytes. -/
def BSIZE : Nat := 1024

/-- Direct block addresses in an inode. -/
def NDIRECT : Nat := 12

/-- Block addresses in the indirect block: `BSIZE / sizeof(uint)`. -/
def NINDIRECT : Nat := BSIZE / 4

/-- Maximum file size in blocks. -/
def MAXFILE : Nat := NDIRECT + NINDIRECT

/-- Inodes per block: `BSIZE / sizeof(struct dinode)`, a dinode being
64 bytes. -/
def IPB : Nat := BSIZE / 64

/-- Bitmap bits per block. -/
def BPB : Nat := BSIZE * 8

/-- Length of a directory entry's name. -/
def DIRSIZ : Nat := 14

-- ================================================= mkfs layout

/-- The number of inodes `mkfs` creates. -/
def NINODES : Nat := 200

/-- `nbitmap = FSSIZE/(BSIZE*8) + 1`. -/
def nbitmap : Nat := FSSIZE / (BSIZE * 8) + 1

/-- `ninodeblocks = NINODES / IPB + 1`. -/
def ninodeblocks : Nat := NINODES / IPB + 1

/-- `nlog = LOGSIZE`: the header block included. -/
def nlog : Nat := LOGSIZE

/-- `nmeta = 2 + nlog + ninodeblocks + nbitmap`: boot, super, log,
inode and bitmap blocks. -/
def nmeta : Nat := 2 + nlog + ninodeblocks + nbitmap

/-- `sb.logstart = 2`. -/
def logstart : Nat := 2

/-- `sb.inodestart = 2 + nlog`. -/
def inodestart : Nat := 2 + nlog

/-- `sb.bmapstart = 2 + nlog + ninodeblocks`. -/
def bmapstart : Nat := 2 + nlog + ninodeblocks

theorem nmeta_eq : nmeta = 46 := by decide

theorem bmapstart_eq : bmapstart = 45 := by decide

-- ===================================================== the disk

/-- A disk block: `uchar data[BSIZE]`. -/
abbrev Block := ByteMap

/-- The disk, or any block-indexed view of it. -/
abbrev Disk := Nat → Block

/-- Block numbers are `uint`. -/
def BLOCKNO_LIMIT : Nat := 2 ^ 32

-- =================================================== transitions

/-- What an action does in a state. -/
inductive Outcome (σ : Type)
  /-- Not enabled: the thread is elsewhere, or sleeps. -/
  | blocked
  /-- `panic(msg)`. -/
  | panic (msg : String)
  /-- The state after the step. -/
  | next (s : σ)
  deriving DecidableEq, Repr

/-- A step of a part, seen in the whole state it is part of. -/
def Outcome.map {σ τ : Type} (f : σ → τ) : Outcome σ → Outcome τ
  | .blocked => .blocked
  | .panic msg => .panic msg
  | .next s => .next (f s)

theorem Outcome.map_eq_next {σ τ : Type} {f : σ → τ} {o : Outcome σ} {t : τ}
    (h : o.map f = .next t) : ∃ s, o = .next s ∧ t = f s := by
  cases o with
  | blocked => cases h
  | panic msg => cases h
  | next s =>
      cases h
      exact ⟨s, rfl, rfl⟩

/-- What a decidable property says of the state a computed outcome
reaches: the outcome is evaluated once, with the property, by `decide`. -/
theorem Outcome.exists_of_map_decide {σ : Type} {P : σ → Prop} [DecidablePred P] {o : Outcome σ}
    (h : o.map (fun s => decide (P s)) = .next true) : ∃ s, o = .next s ∧ P s := by
  obtain ⟨s, rfl, hs⟩ := Outcome.map_eq_next h
  exact ⟨s, rfl, of_decide_eq_true hs.symm⟩

-- ============================================== uint arithmetic

/-- `x++` on a `uint`. -/
def uintInc (x : Nat) : Nat := (x + 1) % 2 ^ 32

/-- `x--` on a `uint`. -/
def uintDec (x : Nat) : Nat := (x + (2 ^ 32 - 1)) % 2 ^ 32

theorem uintInc_of_lt {x : Nat} (h : x + 1 < 2 ^ 32) : uintInc x = x + 1 :=
  Nat.mod_eq_of_lt h

theorem uintDec_of_pos {x : Nat} (h0 : 0 < x) (h : x < 2 ^ 32) : uintDec x = x - 1 := by
  unfold uintDec
  rw [show x + (2 ^ 32 - 1) = (x - 1) + 2 ^ 32 by omega, Nat.add_mod_right]
  exact Nat.mod_eq_of_lt (by omega)

/-- Decrementing a zero `uint` wraps to the largest one. -/
theorem uintDec_zero : uintDec 0 = 2 ^ 32 - 1 := by decide

end Xv6
