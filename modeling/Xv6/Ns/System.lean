import Xv6.Ns.Defs
import Xv6.Fs.Proofs.Alloc
import Mathlib.Logic.Relation

/-!
The namespace calls of any processes, one call a turn, on the image
`mkfs` writes.

A process is live from the `fork` that gives it a `cwd` to the `exit`
that drops it, so the processes that may call are those with a `cwd`.
Closing a file is `fileclose`'s `iput(ff.ip)`, when the last reference
to a file holding entry `e` goes; `exit` closes its files that way
before it drops its `cwd`.
-/

namespace Xv6

namespace Ns

/-- A call, or the inode-table part of `fileclose`, `fork` or `exit`. -/
inductive NsEv
  | link (p : Fin NPROC) (old new : List UInt8)
  | unlink (p : Fin NPROC) (path : List UInt8)
  | mkdir (p : Fin NPROC) (path : List UInt8)
  | mknod (p : Fin NPROC) (path : List UInt8) (major minor : Int)
  | chdir (p : Fin NPROC) (path : List UInt8)
  | sysopen (p : Fin NPROC) (path : List UInt8) (omode : Nat) (ftok : Bool)
  | close (e : Fin NINODE)
  /-- `np->cwd = idup(p->cwd)`, into the free slot `c`. -/
  | fork (p c : Fin NPROC)
  | exit (p : Fin NPROC)

/-- The inode of a zeroed `itable` entry. -/
def zeroInode : Inode := ⟨0, 0, 0, 0, 0, 0, fun _ => 0⟩

/-- The entry `userinit`'s `namei("/")` recycles: the first. -/
def rootEntry : Fin NINODE := ⟨0, by decide⟩

/-- After `userinit`: `initproc`'s `cwd` is `iget(ROOTDEV, ROOTINO)`, not
yet read; the rest of the table is zero. -/
def boot : Kern where
  tx := ⟨Fs.mkfsDisk, []⟩
  inode := Function.update (fun _ => ⟨0, false, zeroInode⟩) rootEntry
    ⟨1, false, { zeroInode with inum := ROOTINO }⟩
  cwd := Function.update (fun _ => none) initSlot (some rootEntry)
  fref := fun _ => 0

/-- The state a call leaves, or its panic. -/
def result {α : Type} : Except String (α × Kern) → Outcome Kern
  | .ok (_, k) => .next k
  | .error msg => .panic msg

/-- A call by `p` when `p` is live. -/
def call {α : Type} (k : Kern) (p : Fin NPROC) (m : NsM α) : Outcome Kern :=
  if (k.cwd p).isSome then result (m k) else .blocked

/-- The system after a call. -/
@[grind] def step (k : Kern) : NsEv → Outcome Kern
  | .link p old new => call k p (sys_link p old new)
  | .unlink p path => call k p (sys_unlink p path)
  | .mkdir p path => call k p (sys_mkdir p path)
  | .mknod p path major minor => call k p (sys_mknod p path major minor)
  | .chdir p path => call k p (sys_chdir p path)
  | .sysopen p path omode ftok => call k p (sys_open p path omode ftok)
  | .close e =>
      if 0 < k.fref e then result (iput e { k with fref := Function.update k.fref e (k.fref e - 1) })
      else .blocked
  | .fork p c =>
      match k.cwd p, k.cwd c with
      | some e, none =>
          result ((do
            idup e
            modify fun (k : Kern) => { k with cwd := Function.update k.cwd c (some e) }) k)
      | _, _ => .blocked
  | .exit p =>
      match k.cwd p with
      | some e =>
          if p = initSlot then .panic "init exiting"
          else result ((do
            iput e
            modify fun (k : Kern) => { k with cwd := Function.update k.cwd p none }) k)
      | none => .blocked

/-- The step relation. -/
def Step (k k' : Kern) : Prop := ∃ e, step k e = .next k'

/-- The events `evs` one after another, from `k`. -/
@[grind] def run : Kern → List NsEv → Outcome Kern
  | k, [] => .next k
  | k, e :: evs =>
      match step k e with
      | .next k' => run k' evs
      | .blocked => .blocked
      | .panic msg => .panic msg

/-- A run ends in a state the system reaches. -/
theorem reach_of_run : ∀ {k k' : Kern} {evs : List NsEv}, run k evs = .next k' → Relation.ReflTransGen Step k k'
  | _, _, [], h => by
      cases h
      exact .refl
  | k, k', e :: evs, h => by
      cases hs : step k e with
      | next k₁ =>
          simp only [run, hs] at h
          exact .head ⟨e, hs⟩ (reach_of_run h)
      | blocked => simp [run, hs] at h
      | panic msg => simp [run, hs] at h

end Ns

end Xv6
