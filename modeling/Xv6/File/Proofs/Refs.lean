import Xv6.File.System
import Xv6.Lib.Count
import Mathlib.Data.Fintype.Prod

/-!
The reference counts of the file layer, against what they count.

# The counts

`slots s f` is the number of `(process, descriptor)` slots pointing at
entry `f`, `fileRefs s ip` the number of open inode and device files
on inode `ip`, and `cwdRefs s ip` the number of processes whose `cwd`
it is. `RefInv s H I` says that each count the code keeps is what it
counts plus what the call in progress holds: `H f` references to entry
`f` and `I ip` to inode `ip`. A held count is negative for a pointer
whose reference is not there yet or any more: `sys_dup` between
`fdalloc` and `filedup`, `exit` between `fileclose` and clearing the
slot. Between calls both are `0`.

# The pipes

An open end of the pipe on page `pg` is an entry with `ref > 0` of type
`FD_PIPE` on `pg`; `writable` says which end. A page is in use by a pipe
exactly while it has an open end, each end is one entry, and
`readopen` and `writeopen` say whether it is open. `frees pg`, plus one
while the page is in use, is `allocs pg`.

Each function of `Defs.lean` gets one lemma saying how it moves the
held references; the calls are chained from them in `Calls.lean`. A
lemma takes the held counts after the function as an argument, with an
equation for them, so that a chain of calls can name its own.
-/

namespace Xv6

/-- Whether a pipe's end is open: `writeopen` for the write end. -/
def Pipe.isOpen (pi : Pipe) (w : Bool) : Bool := if w then pi.writeopen else pi.readopen

/-- `pipeclose` closes the end it is given... -/
theorem isOpen_pipeclose (pi : Pipe) (w w' : Bool) :
    (pipeclose pi w).1.isOpen w' = if w' = w then false else pi.isOpen w' := by
  cases w <;> cases w' <;> rfl

/-- ... and frees the pipe when the other end is closed. -/
theorem pipeclose_free (pi : Pipe) (w : Bool) : (pipeclose pi w).2 = !pi.isOpen (!w) := by
  cases w <;> simp [pipeclose, Pipe.isOpen]

@[simp] theorem isOpen_alloc (junk : Nat → UInt8) (w : Bool) : (Pipe.alloc junk).isOpen w = true := by
  cases w <;> rfl

namespace Files

/-- An open end of the pipe on page `pg`, the write end when `w`. -/
def IsEnd (pg : Nat) (w : Bool) (x : File) : Prop :=
  0 < x.ref ∧ x.type = .FD_PIPE ∧ x.pipe = pg ∧ x.writable = w

/-- An open file holding a reference on inode `ip`. -/
def Holds (ip : Nat) (x : File) : Prop :=
  0 < x.ref ∧ (x.type = .FD_INODE ∨ x.type = .FD_DEVICE) ∧ x.ip = ip

instance (pg : Nat) (w : Bool) : DecidablePred (IsEnd pg w) := fun x => by
  unfold IsEnd
  infer_instance

instance (ip : Nat) : DecidablePred (Holds ip) := fun x => by
  unfold Holds
  infer_instance

/-- The descriptor slots pointing at entry `f`. -/
def slots (s : Files) (f : Fin NFILE) : Nat :=
  Count.count (fun x : Fin NPROC × Fin NOFILE => s.ofile x.1 x.2) (· = some f)

/-- The open files on inode `ip`. -/
def fileRefs (s : Files) (ip : Nat) : Nat := Count.count s.file (Holds ip)

/-- The processes whose `cwd` is inode `ip`. -/
def cwdRefs (s : Files) (ip : Nat) : Nat := Count.count s.cwd (· = some ip)

/-- The counts, with `H` and `I` held by the call in progress. -/
structure RefInv (s : Files) (H : Fin NFILE → Int) (I : Nat → Int) : Prop where
  ref_eq : ∀ f, ((s.file f).ref : Int) = s.slots f + H f
  none_of_zero : ∀ f, (s.file f).ref = 0 → (s.file f).type = .FD_NONE
  inUse_iff : ∀ pg, s.inUse pg = true ↔ ∃ w f, IsEnd pg w (s.file f)
  open_iff : ∀ pg w, s.inUse pg = true → ((s.pipes pg).isOpen w = true ↔ ∃ f, IsEnd pg w (s.file f))
  end_unique : ∀ pg w f f', IsEnd pg w (s.file f) → IsEnd pg w (s.file f') → f = f'
  frees_eq : ∀ pg, s.frees pg + (if s.inUse pg then 1 else 0) = s.allocs pg
  iref_eq : ∀ ip, s.iref ip = s.fileRefs ip + s.cwdRefs ip + I ip

variable {s : Files} {H H' : Fin NFILE → Int} {I I' : Nat → Int}

-- ====================================================== the frames

section Frames

variable (s : Files)

@[simp] theorem slots_setFile (f : Fin NFILE) (x : File) : (s.setFile f x).slots = s.slots := rfl

@[simp] theorem cwdRefs_setFile (f : Fin NFILE) (x : File) : (s.setFile f x).cwdRefs = s.cwdRefs := rfl

@[simp] theorem fileRefs_setOfile (p : Fin NPROC) (fd : Fin NOFILE) (v : Option (Fin NFILE)) :
    (s.setOfile p fd v).fileRefs = s.fileRefs := rfl

@[simp] theorem cwdRefs_setOfile (p : Fin NPROC) (fd : Fin NOFILE) (v : Option (Fin NFILE)) :
    (s.setOfile p fd v).cwdRefs = s.cwdRefs := rfl

/-- `pipeclose` writes the pipe, and frees its page when the other end
is closed. -/
theorem pipeclose_eq (pg : Nat) (w : Bool) :
    s.pipeclose pg w =
      { s with
        pipes := Function.update s.pipes pg (Xv6.pipeclose (s.pipes pg) w).1
        inUse := if (s.pipes pg).isOpen (!w) then s.inUse else Function.update s.inUse pg false
        frees := if (s.pipes pg).isOpen (!w) then s.frees else Function.update s.frees pg (s.frees pg + 1) } := by
  unfold pipeclose
  rw [show (Xv6.pipeclose (s.pipes pg) w) = ((Xv6.pipeclose (s.pipes pg) w).1, (Xv6.pipeclose (s.pipes pg) w).2)
    from rfl, pipeclose_free]
  cases (s.pipes pg).isOpen (!w) <;> rfl

end Frames

/-- A slot pointing at `f` counts. -/
theorem slots_pos {p : Fin NPROC} {fd : Fin NOFILE} {f : Fin NFILE} (h : s.ofile p fd = some f) :
    0 < s.slots f :=
  Count.count_pos (g := fun x : Fin NPROC × Fin NOFILE => s.ofile x.1 x.2) (P := (· = some f)) (a := (p, fd)) h

/-- `p->ofile[fd] = v` trades the old pointer's slot for the new one's. -/
theorem slots_setOfile (s : Files) (p : Fin NPROC) (fd : Fin NOFILE) (v : Option (Fin NFILE)) (f : Fin NFILE) :
    ((s.setOfile p fd v).slots f : Int) =
      s.slots f + (if v = some f then 1 else 0) - (if s.ofile p fd = some f then 1 else 0) := by
  have hview : (fun x : Fin NPROC × Fin NOFILE => (s.setOfile p fd v).ofile x.1 x.2) =
      Function.update (fun x : Fin NPROC × Fin NOFILE => s.ofile x.1 x.2) (p, fd) v := by
    funext ⟨q, i⟩
    by_cases hq : q = p
    · subst hq
      by_cases hi : i = fd
      · subst hi
        simp [setOfile]
      · simp [setOfile, hi]
    · simp [setOfile, hq]
  have h := Count.card_update (fun x : Fin NPROC × Fin NOFILE => s.ofile x.1 x.2) (p, fd) v (· = some f)
  unfold slots
  rw [hview]
  split_ifs at h ⊢ <;> omega

/-- `cwd p = v` trades the old inode's count for the new one's. -/
theorem cwdRefs_update (s : Files) (p : Fin NPROC) (v : Option Nat) (ip : Nat) :
    (Count.count (Function.update s.cwd p v) (· = some ip) : Int) =
      s.cwdRefs ip + (if v = some ip then 1 else 0) - (if s.cwd p = some ip then 1 else 0) := by
  have h := Count.card_update s.cwd p v (· = some ip)
  unfold cwdRefs
  split_ifs at h ⊢ <;> omega

/-- Entry `f` becoming `x` trades its old inode reference for the new
one's. -/
theorem fileRefs_setFile (s : Files) (f : Fin NFILE) (x : File) (ip : Nat) :
    ((s.setFile f x).fileRefs ip : Int) =
      s.fileRefs ip + (if Holds ip x then 1 else 0) - (if Holds ip (s.file f) then 1 else 0) := by
  have h := Count.card_update s.file f x (Holds ip)
  unfold fileRefs
  simp only [setFile]
  split_ifs at h ⊢ <;> omega

-- ============================================ the lemmas per write

namespace RefInv

/-- The counts do not read the slots' states. -/
theorem with_state (h : RefInv s H I) (st : Fin NPROC → ProcState) : RefInv { s with state := st } H I :=
  ⟨h.ref_eq, h.none_of_zero, h.inUse_iff, h.open_iff, h.end_unique, h.frees_eq, h.iref_eq⟩

/-- `p->ofile[fd] = v`: the call takes the old pointer's reference and
hands out the new one's. -/
theorem setOfile (h : RefInv s H I) (p : Fin NPROC) (fd : Fin NOFILE) (v : Option (Fin NFILE))
    (hH : ∀ g, H' g = H g + (if s.ofile p fd = some g then 1 else 0) - (if v = some g then 1 else 0)) :
    RefInv (s.setOfile p fd v) H' I where
  ref_eq g := by
    rw [slots_setOfile, hH g]
    have := h.ref_eq g
    simp only [Files.setOfile] at this ⊢
    omega
  none_of_zero := h.none_of_zero
  inUse_iff := h.inUse_iff
  open_iff := h.open_iff
  end_unique := h.end_unique
  frees_eq := h.frees_eq
  iref_eq := h.iref_eq

/-- `p->ofile[fd] = f` on a null slot, as `fdalloc` does: the slot
takes a reference the call held. -/
theorem setOfile_some (h : RefInv s H I) {p : Fin NPROC} {fd : Fin NOFILE} {f : Fin NFILE}
    (hnone : s.ofile p fd = none) (hH : ∀ g, H' g = H g - if g = f then 1 else 0) :
    RefInv (s.setOfile p fd (some f)) H' I :=
  h.setOfile p fd _ fun g => by
    by_cases hg : g = f
    · subst hg
      simp [hnone, hH]
    · simp [hnone, hH, hg, Ne.symm hg]

/-- `p->ofile[fd] = 0` on a slot pointing at `f`: the call takes its
reference. -/
theorem setOfile_none (h : RefInv s H I) {p : Fin NPROC} {fd : Fin NOFILE} {f : Fin NFILE}
    (hsome : s.ofile p fd = some f) (hH : ∀ g, H' g = H g + if g = f then 1 else 0) :
    RefInv (s.setOfile p fd none) H' I :=
  h.setOfile p fd _ fun g => by
    by_cases hg : g = f
    · subst hg
      simp [hsome, hH]
    · simp [hsome, hH, hg, Ne.symm hg]

/-- `cwd p = v`: the call takes the old inode's reference and hands out
the new one's. -/
theorem setCwd (h : RefInv s H I) (p : Fin NPROC) (v : Option Nat)
    (hI : ∀ ip, I' ip = I ip + (if s.cwd p = some ip then 1 else 0) - (if v = some ip then 1 else 0)) :
    RefInv { s with cwd := Function.update s.cwd p v } H I' where
  ref_eq := h.ref_eq
  none_of_zero := h.none_of_zero
  inUse_iff := h.inUse_iff
  open_iff := h.open_iff
  end_unique := h.end_unique
  frees_eq := h.frees_eq
  iref_eq ip := by
    show s.iref ip = s.fileRefs ip + (Count.count (Function.update s.cwd p v) (· = some ip) : Int) + I' ip
    rw [cwdRefs_update, hI ip, h.iref_eq ip]
    omega

/-- `ip->ref++`: one more reference held. -/
theorem idup (h : RefInv s H I) (ip : Nat) (hI : ∀ j, I' j = I j + if j = ip then 1 else 0) :
    RefInv (s.idup ip) H I' where
  ref_eq := h.ref_eq
  none_of_zero := h.none_of_zero
  inUse_iff := h.inUse_iff
  open_iff := h.open_iff
  end_unique := h.end_unique
  frees_eq := h.frees_eq
  iref_eq j := by
    show Function.update s.iref ip (s.iref ip + 1) j = s.fileRefs j + s.cwdRefs j + I' j
    rw [hI j]
    by_cases hj : j = ip
    · subst hj
      rw [Function.update_self, h.iref_eq j, if_pos rfl]
      omega
    · rw [Function.update_of_ne hj, h.iref_eq j, if_neg hj]
      omega

/-- `ip->ref--`: one fewer. -/
theorem iput (h : RefInv s H I) (ip : Nat) (hI : ∀ j, I' j = I j - if j = ip then 1 else 0) :
    RefInv (s.iput ip) H I' where
  ref_eq := h.ref_eq
  none_of_zero := h.none_of_zero
  inUse_iff := h.inUse_iff
  open_iff := h.open_iff
  end_unique := h.end_unique
  frees_eq := h.frees_eq
  iref_eq j := by
    show Function.update s.iref ip (s.iref ip - 1) j = s.fileRefs j + s.cwdRefs j + I' j
    rw [hI j]
    by_cases hj : j = ip
    · subst hj
      rw [Function.update_self, h.iref_eq j, if_pos rfl]
      omega
    · rw [Function.update_of_ne hj, h.iref_eq j, if_neg hj]
      omega

/-- Entry `f` becoming `x` with the same pipe ends: its `ref` moves
the references held on it, and its inode reference those held on the
inode. -/
theorem setFile (h : RefInv s H I) (f : Fin NFILE) (x : File)
    (hend : ∀ pg w, IsEnd pg w x ↔ IsEnd pg w (s.file f)) (hnone : x.ref = 0 → x.type = .FD_NONE)
    (hH : ∀ g, H' g = H g + if g = f then (x.ref : Int) - (s.file f).ref else 0)
    (hI : ∀ ip, I' ip = I ip + (if Holds ip (s.file f) then 1 else 0) - (if Holds ip x then 1 else 0)) :
    RefInv (s.setFile f x) H' I' where
  ref_eq g := by
    rw [slots_setFile, hH g]
    by_cases hg : g = f
    · subst hg
      have hx : (s.setFile g x).file g = x := Function.update_self ..
      have := h.ref_eq g
      rw [hx, if_pos rfl]
      omega
    · simp only [Files.setFile, Function.update_of_ne hg, if_neg hg, h.ref_eq g]
      omega
  none_of_zero g := by
    by_cases hg : g = f
    · subst hg
      simpa [Files.setFile] using hnone
    · simpa [Files.setFile, Function.update_of_ne hg] using h.none_of_zero g
  inUse_iff pg := by
    have key : ∀ w g, IsEnd pg w (Function.update s.file f x g) ↔ IsEnd pg w (s.file g) :=
      fun w => Count.update_iff_of_iff (hend pg w)
    simp only [Files.setFile, key]
    exact h.inUse_iff pg
  open_iff pg w := by
    simp only [Files.setFile, Count.update_iff_of_iff (hend pg w)]
    exact h.open_iff pg w
  end_unique pg w := by
    simp only [Files.setFile, Count.update_iff_of_iff (hend pg w)]
    exact h.end_unique pg w
  frees_eq := h.frees_eq
  iref_eq ip := by
    show s.iref ip = ((s.setFile f x).fileRefs ip : Int) + s.cwdRefs ip + I' ip
    rw [fileRefs_setFile, hI ip, h.iref_eq ip]
    omega

end RefInv

-- ========================================================== the ends

theorem IsEnd.pos {pg : Nat} {w : Bool} {x : File} (h : IsEnd pg w x) : 0 < x.ref := h.1

/-- An entry is an end of one pipe, one end. -/
theorem IsEnd.eq {pg pg' : Nat} {w w' : Bool} {x : File} (h : IsEnd pg w x) (h' : IsEnd pg' w' x) :
    pg' = pg ∧ w' = w :=
  ⟨h'.2.2.1.symm.trans h.2.2.1, h'.2.2.2.symm.trans h.2.2.2⟩

/-- A file that is no pipe is no end. -/
theorem not_isEnd_of_type {pg : Nat} {w : Bool} {x : File} (h : x.type ≠ .FD_PIPE) : ¬IsEnd pg w x :=
  fun he => h he.2.1

/-- A pipe is no inode. -/
theorem not_holds_of_pipe {ip : Nat} {x : File} (h : x.type = .FD_PIPE) : ¬Holds ip x := by
  rintro ⟨-, ht | ht, -⟩ <;> rw [h] at ht <;> cases ht

/-- An end other than `f` is an end whatever `f` is. -/
theorem exists_end_ne_iff {pg : Nat} {w : Bool} {f : Fin NFILE} (hf : ¬IsEnd pg w (s.file f)) :
    (∃ g, IsEnd pg w (s.file g) ∧ g ≠ f) ↔ ∃ g, IsEnd pg w (s.file g) :=
  ⟨fun ⟨g, hg, _⟩ => ⟨g, hg⟩, fun ⟨g, hg⟩ => ⟨g, hg, fun hgf => hf (hgf ▸ hg)⟩⟩

-- ==================================================== the functions

/-- `filealloc` takes an entry with `ref == 0`, or finds none. -/
theorem filealloc_cases {r : Option (Fin NFILE)} {s' : Files} (h : s.filealloc = (r, s')) :
    (r = none ∧ s' = s ∧ ∀ f, (s.file f).ref ≠ 0) ∨
    (∃ f, r = some f ∧ (s.file f).ref = 0 ∧ s' = s.setFile f { s.file f with ref := 1 }) := by
  unfold filealloc at h
  split at h
  · next f hf =>
      cases h
      exact .inr ⟨f, rfl, by simpa using List.find?_some hf, rfl⟩
  · next hnone =>
      cases h
      refine .inl ⟨rfl, rfl, fun f => ?_⟩
      simpa using List.find?_eq_none.mp hnone f (List.mem_finRange f)

/-- `fdalloc` takes the first null slot, or finds none. -/
theorem fdalloc_cases {p : Fin NPROC} {f : Fin NFILE} {r : Option (Fin NOFILE)} {s' : Files}
    (h : s.fdalloc p f = (r, s')) :
    (r = none ∧ s' = s) ∨ (∃ fd, r = some fd ∧ s.ofile p fd = none ∧ s' = s.setOfile p fd (some f)) := by
  unfold fdalloc at h
  split at h
  · next fd hfd =>
      cases h
      exact .inr ⟨fd, rfl, by simpa using List.find?_some hfd, rfl⟩
  · next =>
      cases h
      exact .inl ⟨rfl, rfl⟩

theorem filedup_eq {f : Fin NFILE} (hf : 0 < (s.file f).ref) :
    s.filedup f = .ok (s.setFile f { s.file f with ref := (s.file f).ref + 1 }) := by
  unfold filedup
  rw [if_neg (by omega)]
  rfl

namespace RefInv

/-- `filealloc`'s `f->ref = 1` on a free entry: one more reference held. -/
theorem take (h : RefInv s H I) {f : Fin NFILE} (hf : (s.file f).ref = 0)
    (hH : ∀ g, H' g = H g + if g = f then 1 else 0) :
    RefInv (s.setFile f { s.file f with ref := 1 }) H' I := by
  have ht := h.none_of_zero f hf
  refine h.setFile f _ (fun pg w => ?_) (by simp) (fun g => ?_) (fun ip => ?_)
  · exact iff_of_false (not_isEnd_of_type (by simp [ht])) (not_isEnd_of_type (by simp [ht]))
  · rw [hH g]
    split_ifs
    · dsimp only
      omega
    · rfl
  · have h1 : ¬Holds ip { s.file f with ref := 1 } := by
      rintro ⟨-, hty, -⟩
      simp [ht] at hty
    have h2 : ¬Holds ip (s.file f) := by
      rintro ⟨hr, -⟩
      omega
    simp [h1, h2]

/-- `filedup`'s `f->ref++` on an open entry. -/
theorem dup (h : RefInv s H I) {f : Fin NFILE} (hf : 0 < (s.file f).ref)
    (hH : ∀ g, H' g = H g + if g = f then 1 else 0) :
    RefInv (s.setFile f { s.file f with ref := (s.file f).ref + 1 }) H' I := by
  refine h.setFile f _ (fun pg w => ?_) (by simp) (fun g => ?_) (fun ip => ?_)
  · unfold IsEnd
    exact Iff.and (by dsimp only; omega) Iff.rfl
  · rw [hH g]
    split_ifs
    · dsimp only
      omega
    · rfl
  · have : Holds ip { s.file f with ref := (s.file f).ref + 1 } ↔ Holds ip (s.file f) := by
      unfold Holds
      exact Iff.and (by dsimp only; omega) Iff.rfl
    by_cases hh : Holds ip (s.file f) <;> simp [hh, this]

/-- A reference that is not the last goes: `--f->ref > 0`. -/
theorem drop (h : RefInv s H I) {f : Fin NFILE} (hf : 1 < (s.file f).ref)
    (hH : ∀ g, H' g = H g - if g = f then 1 else 0) :
    RefInv (s.setFile f { s.file f with ref := (s.file f).ref - 1 }) H' I := by
  refine h.setFile f _ (fun pg w => ?_) (fun h0 => by dsimp only at h0; omega) (fun g => ?_) (fun ip => ?_)
  · unfold IsEnd
    exact Iff.and (by dsimp only; omega) Iff.rfl
  · rw [hH g]
    split_ifs
    · dsimp only
      omega
    · omega
  · have : Holds ip { s.file f with ref := (s.file f).ref - 1 } ↔ Holds ip (s.file f) := by
      unfold Holds
      exact Iff.and (by dsimp only; omega) Iff.rfl
    by_cases hh : Holds ip (s.file f) <;> simp [hh, this]

/-- The last reference goes and the entry becomes `FD_NONE`; the
references it held on an inode are the call's to drop. -/
theorem release (h : RefInv s H I) {f : Fin NFILE} (hr : (s.file f).ref = 1) (ht : (s.file f).type ≠ .FD_PIPE)
    (hH : ∀ g, H' g = H g - if g = f then 1 else 0)
    (hI : ∀ ip, I' ip = I ip + if Holds ip (s.file f) then 1 else 0) :
    RefInv (s.setFile f { s.file f with ref := 0, type := .FD_NONE }) H' I' := by
  refine h.setFile f _ (fun pg w => ?_) (fun _ => rfl) (fun g => ?_) (fun ip => ?_)
  · exact iff_of_false (not_isEnd_of_type (by simp)) (not_isEnd_of_type ht)
  · rw [hH g]
    split_ifs
    · dsimp only
      omega
    · omega
  · have : ¬Holds ip { s.file f with ref := 0, type := .FD_NONE } := by
      rintro ⟨hr, -⟩
      simp at hr
    simp [this, hI ip]

/-- The last reference to an end of a pipe goes: the end closes, and
the page is freed when the other end is closed too. -/
theorem closePipe (h : RefInv s H I) {f : Fin NFILE} (hr : (s.file f).ref = 1)
    (ht : (s.file f).type = .FD_PIPE) (hH : ∀ g, H' g = H g - if g = f then 1 else 0) :
    RefInv ((s.setFile f { s.file f with ref := 0, type := .FD_NONE }).pipeclose
      (s.file f).pipe (s.file f).writable) H' I := by
  set pg := (s.file f).pipe
  set w := (s.file f).writable
  set s1 := s.setFile f { s.file f with ref := 0, type := .FD_NONE }
  have hend : IsEnd pg w (s.file f) := ⟨by omega, ht, rfl, rfl⟩
  have huse : s.inUse pg = true := (h.inUse_iff pg).mpr ⟨w, f, hend⟩
  -- the ends left are the old ones but `f`
  have hends : ∀ pg' w' g, IsEnd pg' w' (s1.file g) ↔ IsEnd pg' w' (s.file g) ∧ g ≠ f := by
    intro pg' w' g
    by_cases hg : g = f
    · subst hg
      simp [s1, Files.setFile, IsEnd]
    · simp [s1, Files.setFile, hg]
  -- `f` is no other end than its own
  have hother : ∀ pg' w', (pg' ≠ pg ∨ w' ≠ w) → ¬IsEnd pg' w' (s.file f) := by
    intro pg' w' hne he
    obtain ⟨h1, h2⟩ := hend.eq he
    rcases hne with hne | hne <;> contradiction
  have hkeep : ∀ pg', pg' ≠ pg →
      (if (s.pipes pg).isOpen (!w) then s.inUse else Function.update s.inUse pg false) pg' = s.inUse pg' := by
    intro pg' hp
    split_ifs
    · rfl
    · exact Function.update_of_ne hp _ _
  rw [pipeclose_eq]
  refine { ref_eq := fun g => ?_, none_of_zero := fun g => ?_, inUse_iff := fun pg' => ?_,
           open_iff := fun pg' w' => ?_, end_unique := fun pg' w' g g' => ?_,
           frees_eq := fun pg' => ?_, iref_eq := fun ip => ?_ }
  · show ((s1.file g).ref : Int) = s.slots g + H' g
    rw [hH g]
    by_cases hg : g = f
    · subst hg
      have := h.ref_eq g
      have hx : (s1.file g).ref = 0 := by simp [s1, Files.setFile]
      rw [hx, if_pos rfl]
      omega
    · have hx : (s1.file g).ref = (s.file g).ref := by simp [s1, Files.setFile, hg]
      rw [hx, h.ref_eq g, if_neg hg]
      omega
  · by_cases hg : g = f
    · subst hg
      simp [s1, Files.setFile]
    · simpa [s1, Files.setFile, Function.update_of_ne hg] using h.none_of_zero g
  · show (if (s.pipes pg).isOpen (!w) then s.inUse else Function.update s.inUse pg false) pg' = true ↔
      ∃ w' g, IsEnd pg' w' (s1.file g)
    simp only [hends]
    rcases eq_or_ne pg' pg with rfl | hp
    · by_cases ho : (s.pipes pg).isOpen (!w) = true
      · -- the other end is open, and it is not `f`
        obtain ⟨g, hg⟩ := (h.open_iff _ (!w) huse).mp ho
        simp only [ho, if_true, huse, true_iff]
        exact ⟨!w, g, hg, fun hgf => hother _ (!w) (.inr (by simp)) (hgf ▸ hg)⟩
      · simp only [ho, Bool.false_eq_true, if_false, Function.update_self, false_iff, not_exists, not_and]
        intro w' g hg hgf
        by_cases hw : w' = w
        · exact hgf (h.end_unique _ w' g f hg (hw ▸ hend))
        · exact ho ((h.open_iff _ (!w) huse).mpr ⟨g, Bool.eq_not.mpr hw ▸ hg⟩)
    · rw [hkeep pg' hp, h.inUse_iff pg']
      exact exists_congr fun w' => (exists_end_ne_iff (hother pg' w' (.inl hp))).symm
  · intro hin
    change (if (s.pipes pg).isOpen (!w) then s.inUse else Function.update s.inUse pg false) pg' = true at hin
    show ((Function.update s.pipes pg (Xv6.pipeclose (s.pipes pg) w).1) pg').isOpen w' = true ↔
      ∃ g, IsEnd pg' w' (s1.file g)
    simp only [hends]
    rcases eq_or_ne pg' pg with rfl | hp
    · rw [Function.update_self, isOpen_pipeclose]
      by_cases hw : w' = w
      · subst hw
        simp only [if_true, Bool.false_eq_true, false_iff, not_exists, not_and]
        exact fun g hg hgf => hgf (h.end_unique _ _ g f hg hend)
      · rw [if_neg hw, h.open_iff _ w' huse]
        exact (exists_end_ne_iff (hother _ w' (.inr hw))).symm
    · rw [hkeep pg' hp] at hin
      rw [Function.update_of_ne hp, h.open_iff pg' w' hin]
      exact (exists_end_ne_iff (hother pg' w' (.inl hp))).symm
  · rw [hends, hends]
    exact fun hg hg' => h.end_unique pg' w' g g' hg.1 hg'.1
  · show (if (s.pipes pg).isOpen (!w) then s.frees else Function.update s.frees pg (s.frees pg + 1)) pg' +
      (if (if (s.pipes pg).isOpen (!w) then s.inUse else Function.update s.inUse pg false) pg' then 1 else 0) =
      s.allocs pg'
    have := h.frees_eq pg'
    by_cases ho : (s.pipes pg).isOpen (!w) = true
    · simpa only [ho, if_true] using this
    · simp only [ho, Bool.false_eq_true, if_false]
      rcases eq_or_ne pg' pg with rfl | hp
      · simp only [Function.update_self, huse, if_true, Bool.false_eq_true, if_false] at this ⊢
        omega
      · simpa only [Function.update_of_ne hp] using this
  · show s.iref ip = (s1.fileRefs ip : Int) + s.cwdRefs ip + I ip
    have hfile : s1.fileRefs ip = s.fileRefs ip :=
      Count.count_update_of_iff (iff_of_false (fun hh => by simpa using hh.2.1) (not_holds_of_pipe ht))
    rw [hfile, h.iref_eq ip]

/-- `fileclose(f)` of an open entry drops one reference; it writes no
slot, no `cwd` and no state. -/
theorem fileclose (h : RefInv s H I) {f : Fin NFILE} (hpos : 0 < (s.file f).ref)
    (hH : ∀ g, H' g = H g - if g = f then 1 else 0) :
    ∃ s', s.fileclose f = .ok s' ∧ RefInv s' H' I ∧ s'.ofile = s.ofile ∧ s'.cwd = s.cwd ∧ s'.state = s.state := by
  dsimp only [Files.fileclose]
  rw [if_neg (by omega)]
  by_cases hlast : (s.file f).ref - 1 > 0
  · rw [if_pos hlast]
    exact ⟨_, rfl, h.drop (by omega) hH, rfl, rfl, rfl⟩
  · rw [if_neg hlast]
    have hr : (s.file f).ref = 1 := by omega
    -- the entry's last reference: what it pointed at is released
    cases ht : (s.file f).type with
    | FD_PIPE =>
        refine ⟨_, rfl, h.closePipe hr ht hH, ?_, ?_, ?_⟩ <;>
          · rw [pipeclose_eq]
            rfl
    | FD_NONE =>
        exact ⟨_, rfl, h.release hr (by simp [ht]) hH (fun ip => by simp [Holds, ht]), rfl, rfl, rfl⟩
    | FD_INODE | FD_DEVICE =>
        have hh : ∀ ip, Holds ip (s.file f) ↔ ip = (s.file f).ip := fun ip => by
          simp [Holds, hpos, ht, eq_comm]
        have h1 : RefInv (s.setFile f { s.file f with ref := 0, type := .FD_NONE }) H'
            (fun ip => I ip + if ip = (s.file f).ip then 1 else 0) :=
          h.release hr (by simp [ht]) hH (fun ip => by simp only [hh])
        exact ⟨_, rfl, h1.iput _ (fun j => by simp), rfl, rfl, rfl⟩

/-- `sys_open` makes a new entry an inode or device file, which takes
over the reference the call holds on the inode. -/
theorem install (h : RefInv s H I) {f : Fin NFILE} (hpos : 0 < (s.file f).ref)
    (ht : (s.file f).type = .FD_NONE) (x : File) (hx : x.ref = (s.file f).ref)
    (hxt : x.type = .FD_INODE ∨ x.type = .FD_DEVICE) (hI : ∀ j, I' j = I j - if j = x.ip then 1 else 0) :
    RefInv (s.setFile f x) H I' := by
  refine h.setFile f x (fun pg w => ?_) (by omega) (fun g => by simp [hx]) (fun j => ?_)
  · exact iff_of_false (not_isEnd_of_type (by rcases hxt with h | h <;> simp [h]))
      (not_isEnd_of_type (by simp [ht]))
  · have hold : ¬Holds j (s.file f) := by
      rintro ⟨-, h | h, -⟩ <;> simp [ht] at h
    have hnew : Holds j x ↔ j = x.ip := ⟨fun hh => hh.2.2.symm, fun hj => ⟨by omega, hxt, hj.symm⟩⟩
    simp [hold, hnew, hI j]

/-- `pipealloc` sets up a pipe on a page no pipe holds, with two new
entries as its read and its write end. -/
theorem pipeOpen (h : RefInv s H I) {f0 f1 : Fin NFILE} (hne : f0 ≠ f1)
    (h0 : 0 < (s.file f0).ref) (h1 : 0 < (s.file f1).ref)
    (ht0 : (s.file f0).type = .FD_NONE) (ht1 : (s.file f1).type = .FD_NONE)
    {pg : Nat} (hpg : s.inUse pg = false) (junk : Nat → UInt8) (x0 x1 : File)
    (hx0 : x0.ref = (s.file f0).ref ∧ x0.type = .FD_PIPE ∧ x0.pipe = pg ∧ x0.writable = false)
    (hx1 : x1.ref = (s.file f1).ref ∧ x1.type = .FD_PIPE ∧ x1.pipe = pg ∧ x1.writable = true) :
    RefInv ((({ s with
        pipes := Function.update s.pipes pg (Pipe.alloc junk)
        inUse := Function.update s.inUse pg true
        allocs := Function.update s.allocs pg (s.allocs pg + 1) } : Files).setFile f0 x0).setFile f1 x1) H I := by
  set s5 := (({ s with
        pipes := Function.update s.pipes pg (Pipe.alloc junk)
        inUse := Function.update s.inUse pg true
        allocs := Function.update s.allocs pg (s.allocs pg + 1) } : Files).setFile f0 x0).setFile f1 x1
  have hfile : ∀ g, s5.file g = if g = f1 then x1 else if g = f0 then x0 else s.file g := by
    intro g
    by_cases g1 : g = f1
    · subst g1
      simp [s5, Files.setFile]
    · by_cases g0 : g = f0
      · subst g0
        simp [s5, Files.setFile, g1]
      · simp [s5, Files.setFile, g1, g0]
  -- no entry was an end of a pipe on the free page
  have hfree : ∀ w g, ¬IsEnd pg w (s.file g) := fun w g he =>
    absurd ((h.inUse_iff pg).mpr ⟨w, g, he⟩) (by simp [hpg])
  have hend0 : IsEnd pg false x0 := ⟨by omega, hx0.2.1, hx0.2.2.1, hx0.2.2.2⟩
  have hend1 : IsEnd pg true x1 := ⟨by omega, hx1.2.1, hx1.2.2.1, hx1.2.2.2⟩
  -- the ends of the other pages are the old ones
  have hends : ∀ pg', pg' ≠ pg → ∀ w g, IsEnd pg' w (s5.file g) ↔ IsEnd pg' w (s.file g) := by
    intro pg' hp w g
    rw [hfile g]
    split_ifs with g1 g0
    · subst g1
      exact iff_of_false (fun he => hp (hend1.eq he).1) (not_isEnd_of_type (by simp [ht1]))
    · subst g0
      exact iff_of_false (fun he => hp (hend0.eq he).1) (not_isEnd_of_type (by simp [ht0]))
    · rfl
  -- the ends of the new pipe are `f0` and `f1`
  have hnew : ∀ w g, IsEnd pg w (s5.file g) ↔ g = if w then f1 else f0 := by
    intro w g
    rw [hfile g]
    by_cases g1 : g = f1
    · subst g1
      rw [if_pos rfl]
      cases w
      · exact iff_of_false (fun he => by simpa using (hend1.eq he).2) (by simpa using hne.symm)
      · exact iff_of_true hend1 (by simp)
    · by_cases g0 : g = f0
      · subst g0
        rw [if_neg g1, if_pos rfl]
        cases w
        · exact iff_of_true hend0 (by simp)
        · exact iff_of_false (fun he => by simpa using (hend0.eq he).2) (by simpa using hne)
      · rw [if_neg g1, if_neg g0]
        cases w
        · exact iff_of_false (hfree _ g) (by simpa using g0)
        · exact iff_of_false (hfree _ g) (by simpa using g1)
  refine { ref_eq := fun g => ?_, none_of_zero := fun g => ?_, inUse_iff := fun pg' => ?_,
           open_iff := fun pg' w => ?_, end_unique := fun pg' w g g' => ?_,
           frees_eq := fun pg' => ?_, iref_eq := fun ip => ?_ }
  · show ((s5.file g).ref : Int) = s.slots g + H g
    rw [hfile g, ← h.ref_eq g]
    split_ifs with g1 g0
    · subst g1
      rw [hx1.1]
    · subst g0
      rw [hx0.1]
    · rfl
  · rw [hfile g]
    split_ifs with g1 g0
    · omega
    · omega
    · exact h.none_of_zero g
  · rcases eq_or_ne pg' pg with rfl | hp
    · exact iff_of_true (by simp [s5, Files.setFile]) ⟨false, f0, (hnew false f0).mpr rfl⟩
    · show Function.update s.inUse pg true pg' = true ↔ _
      rw [Function.update_of_ne hp, h.inUse_iff pg']
      simp only [hends pg' hp]
  · intro hin
    rcases eq_or_ne pg' pg with rfl | hp
    · exact iff_of_true (by simp [s5, Files.setFile]) ⟨_, (hnew w _).mpr rfl⟩
    · change Function.update s.inUse pg true pg' = true at hin
      rw [Function.update_of_ne hp] at hin
      show (Function.update s.pipes pg (Pipe.alloc junk) pg').isOpen w = true ↔ _
      rw [Function.update_of_ne hp, h.open_iff pg' w hin]
      simp only [hends pg' hp]
  · rcases eq_or_ne pg' pg with rfl | hp
    · rw [hnew, hnew]
      exact fun hg hg' => hg.trans hg'.symm
    · rw [hends pg' hp, hends pg' hp]
      exact h.end_unique pg' w g g'
  · show s.frees pg' + (if Function.update s.inUse pg true pg' = true then 1 else 0) =
      Function.update s.allocs pg (s.allocs pg + 1) pg'
    have := h.frees_eq pg'
    rcases eq_or_ne pg' pg with rfl | hp
    · simp only [Function.update_self, hpg, Bool.false_eq_true, if_false, if_true] at this ⊢
      omega
    · simpa only [Function.update_of_ne hp] using this
  · show s.iref ip = (s5.fileRefs ip : Int) + s.cwdRefs ip + I ip
    have hrefs : s5.fileRefs ip = s.fileRefs ip := by
      unfold fileRefs
      refine Count.count_congr fun g => ?_
      rw [hfile g]
      split_ifs with g1 g0
      · subst g1
        exact iff_of_false (not_holds_of_pipe hx1.2.1) (fun hh => by rcases hh.2.1 with h | h <;> simp [ht1] at h)
      · subst g0
        exact iff_of_false (not_holds_of_pipe hx0.2.1) (fun hh => by rcases hh.2.1 with h | h <;> simp [ht0] at h)
      · rfl
    rw [hrefs, h.iref_eq ip]

end RefInv

end Files

end Xv6
