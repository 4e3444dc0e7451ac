import Xv6.File.Proofs.Refs

/-!
The calls keep the counts.

Each call starts with nothing held and ends with nothing held, on
every path, failures included: the lemmas below chain the lemmas of
`Refs.lean` through the call's code. A call by `p` writes no `cwd`, no
state and no slot of another process (`Frame`), except `fork` and
`exit`, which write the child's and the caller's.
-/

namespace Xv6

namespace Files

variable {s : Files}

/-- A call by `p` leaves the `cwd`s, the states and the other
processes' slots as they were. -/
def Frame (p : Fin NPROC) (s s' : Files) : Prop :=
  s'.cwd = s.cwd ∧ s'.state = s.state ∧ ∀ q, q ≠ p → s'.ofile q = s.ofile q

namespace Frame

variable {p : Fin NPROC} {s1 s2 s3 : Files}

theorem refl : Frame p s s := ⟨rfl, rfl, fun _ _ => rfl⟩

theorem trans (h1 : Frame p s1 s2) (h2 : Frame p s2 s3) : Frame p s1 s3 :=
  ⟨h2.1.trans h1.1, h2.2.1.trans h1.2.1, fun q hq => (h2.2.2 q hq).trans (h1.2.2 q hq)⟩

theorem setFile (f : Fin NFILE) (x : File) : Frame p s (s.setFile f x) := refl

theorem setOfile (fd : Fin NOFILE) (v : Option (Fin NFILE)) : Frame p s (s.setOfile p fd v) :=
  ⟨rfl, rfl, fun q hq => by simp [Files.setOfile, hq]⟩

/-- A write of the slots' files that leaves them all as they were. -/
theorem of_eq (ho : s2.ofile = s1.ofile) (hc : s2.cwd = s1.cwd) (hs : s2.state = s1.state) : Frame p s1 s2 :=
  ⟨hc, hs, fun q _ => by rw [ho]⟩

end Frame

/-- `argfd` finds the file in the caller's slot. -/
theorem argfd_some {p : Fin NPROC} {fd : Int} {i : Fin NOFILE} {f : Fin NFILE}
    (h : s.argfd p fd = some (i, f)) : s.ofile p i = some f := by
  unfold argfd at h
  split at h
  · obtain ⟨f', hf', he⟩ := Option.map_eq_some_iff.mp h
    cases he
    exact hf'
  · cases h

/-- The file a slot points at is open. -/
theorem RefInv.pos_of_slot {H : Fin NFILE → Int} {I : Nat → Int} (h : RefInv s H I) {p : Fin NPROC}
    {i : Fin NOFILE} {f : Fin NFILE} (hi : s.ofile p i = some f) (hH : 0 ≤ H f) : 0 < (s.file f).ref := by
  have := h.ref_eq f
  have := slots_pos hi
  omega

/-- A file the call holds a reference on is open. -/
theorem RefInv.pos_of_held {H : Fin NFILE → Int} {I : Nat → Int} (h : RefInv s H I) {f : Fin NFILE}
    (hH : 0 < H f) : 0 < (s.file f).ref := by
  have := h.ref_eq f
  omega

-- ============================================================ the calls

namespace RefInv

/-- `fileclose` of an open entry the call holds, kept by the frame. -/
theorem fileclose_frame {H H' : Fin NFILE → Int} {I : Nat → Int} (h : RefInv s H I) {f : Fin NFILE}
    (hpos : 0 < (s.file f).ref) (hH : ∀ g, H' g = H g - if g = f then 1 else 0) (p : Fin NPROC) :
    ∃ s', s.fileclose f = .ok s' ∧ RefInv s' H' I ∧ Frame p s s' := by
  obtain ⟨s', hc, h', ho, hcwd, hst⟩ := h.fileclose hpos hH
  exact ⟨s', hc, h', Frame.of_eq ho hcwd hst⟩

/-- `sys_dup()`: `fdalloc`'s new slot points at the file before
`filedup` takes its reference. -/
theorem sys_dup (h : RefInv s 0 0) (p : Fin NPROC) (fd : Int) :
    ∃ r s', s.sys_dup p fd = .ok (r, s') ∧ RefInv s' 0 0 ∧ Frame p s s' := by
  unfold Files.sys_dup
  rcases ha : s.argfd p fd with _ | ⟨i, f⟩
  · exact ⟨_, _, rfl, h, Frame.refl⟩
  have hi := argfd_some ha
  dsimp only
  rcases hd : s.fdalloc p f with ⟨r, s1⟩
  rcases fdalloc_cases hd with ⟨rfl, rfl⟩ | ⟨fd', rfl, hnone, rfl⟩
  · exact ⟨_, _, rfl, h, Frame.refl⟩
  have h1 : RefInv (s.setOfile p fd' (some f)) (fun g => -(if g = f then 1 else 0)) 0 :=
    h.setOfile_some hnone fun g => by simp
  -- the slot `argfd` read still holds a reference
  have hpos : 0 < ((s.setOfile p fd' (some f)).file f).ref := by
    have := h.pos_of_slot hi (by simp)
    exact this
  dsimp only
  rw [filedup_eq hpos]
  exact ⟨_, _, rfl, h1.dup hpos fun g => by simp, (Frame.setOfile fd' _).trans (Frame.setFile _ _)⟩

/-- `sys_close()`: clearing the slot hands its reference to
`fileclose`. -/
theorem sys_close (h : RefInv s 0 0) (p : Fin NPROC) (fd : Int) :
    ∃ r s', s.sys_close p fd = .ok (r, s') ∧ RefInv s' 0 0 ∧ Frame p s s' := by
  unfold Files.sys_close
  rcases ha : s.argfd p fd with _ | ⟨i, f⟩
  · exact ⟨_, _, rfl, h, Frame.refl⟩
  have hi := argfd_some ha
  have h1 : RefInv (s.setOfile p i none) (fun g => if g = f then 1 else 0) 0 :=
    h.setOfile_none hi fun g => by simp
  have hpos : 0 < ((s.setOfile p i none).file f).ref := h.pos_of_slot hi (by simp)
  obtain ⟨s2, hc, h2, hfr⟩ : ∃ s', _ = Except.ok s' ∧ RefInv s' 0 0 ∧ Frame p _ s' :=
    h1.fileclose_frame hpos (fun g => by simp) p
  refine ⟨0, s2, ?_, h2, (Frame.setOfile i none).trans hfr⟩
  dsimp only
  rw [hc]
  rfl

/-- `sys_open()`: the reference `create` or `namei` took is dropped on
every `-1` path and kept by the new file otherwise. -/
theorem sys_open (h : RefInv s 0 0) (p : Fin NPROC) (omode : Nat) (found : Option Found) :
    ∃ r s', s.sys_open p omode found = .ok (r, s') ∧ RefInv s' 0 0 ∧ Frame p s s' := by
  unfold Files.sys_open
  rcases found with _ | ip
  · exact ⟨_, _, rfl, h, Frame.refl⟩
  dsimp only
  -- the reference the lookup returned with
  have h1 : RefInv (s.idup ip.inum) 0 (fun j => if j = ip.inum then 1 else 0) := h.idup _ fun j => by simp
  have hdrop : ∀ {s' : Files}, RefInv s' 0 (fun j => if j = ip.inum then 1 else 0) →
      RefInv (s'.iput ip.inum) 0 0 := fun h' => h'.iput _ fun j => by simp
  by_cases hdir : omode &&& O_CREATE = 0 ∧ ip.type = T_DIR ∧ omode ≠ O_RDONLY
  · rw [if_pos hdir]
    exact ⟨_, _, rfl, hdrop h1, Frame.refl⟩
  rw [if_neg hdir]
  by_cases hdev : ip.type = T_DEVICE ∧ (ip.major < 0 ∨ NDEV ≤ ip.major)
  · rw [if_pos hdev]
    exact ⟨_, _, rfl, hdrop h1, Frame.refl⟩
  rw [if_neg hdev]
  rcases hfa : (s.idup ip.inum).filealloc with ⟨r, s2⟩
  rcases filealloc_cases hfa with ⟨rfl, rfl, -⟩ | ⟨f, rfl, hf0, rfl⟩
  · exact ⟨_, _, rfl, hdrop h1, Frame.refl⟩
  set s1 := s.idup ip.inum
  have h2 : RefInv (s1.setFile f { s1.file f with ref := 1 }) (fun g => if g = f then 1 else 0)
      (fun j => if j = ip.inum then 1 else 0) := h1.take hf0 fun g => by simp
  have hnone : (s1.file f).type = .FD_NONE := h1.none_of_zero f hf0
  dsimp only
  rcases hd : (s1.setFile f { s1.file f with ref := 1 }).fdalloc p f with ⟨r, s3⟩
  rcases fdalloc_cases hd with ⟨rfl, rfl⟩ | ⟨fd, rfl, hslot, rfl⟩
  · -- no descriptor: the file is closed and the inode put
    obtain ⟨s3, hc, h3, hfr⟩ : ∃ s', _ = Except.ok s' ∧ RefInv s' 0 _ ∧ Frame p _ s' :=
      h2.fileclose_frame (f := f) (by simp [Files.setFile]) (fun g => by simp) p
    refine ⟨-1, _, ?_, hdrop h3, hfr.trans Frame.refl⟩
    dsimp only
    rw [hc]
    rfl
  · set s2 := s1.setFile f { s1.file f with ref := 1 }
    have h3 : RefInv (s2.setOfile p fd (some f)) 0 (fun j => if j = ip.inum then 1 else 0) :=
      h2.setOfile_some hslot fun g => by simp
    refine ⟨_, _, rfl, h3.install (by simp [s2, Files.setFile, Files.setOfile])
      (by simpa [s2, Files.setFile, Files.setOfile] using hnone) _ rfl (by by_cases ht : ip.type = T_DEVICE <;> simp [ht])
      fun j => by simp, (Frame.setOfile fd _).trans (Frame.setFile _ _)⟩

/-- `fileclose(rf); fileclose(wf)` of the two ends the call holds, as
every failure of `sys_pipe` after `pipealloc` ends. -/
theorem closeBoth {rf wf : Fin NFILE}
    (h : RefInv s (fun g => (if g = rf then 1 else 0) + (if g = wf then 1 else 0)) 0) (hne : rf ≠ wf)
    (p : Fin NPROC) :
    ∃ s', (do
        let s ← s.fileclose rf
        let s ← s.fileclose wf
        pure (-1, s) : Except String (Int × Files)) = .ok (-1, s') ∧ RefInv s' 0 0 ∧ Frame p s s' := by
  obtain ⟨s1, hc1, h1, hfr1⟩ : ∃ s', _ = Except.ok s' ∧ RefInv s' (fun g => if g = wf then 1 else 0) 0 ∧
      Frame p _ s' :=
    h.fileclose_frame (f := rf) (h.pos_of_held (by simp [hne])) (fun g => by ring) p
  obtain ⟨s2, hc2, h2, hfr2⟩ : ∃ s', _ = Except.ok s' ∧ RefInv s' 0 0 ∧ Frame p _ s' :=
    h1.fileclose_frame (f := wf) (h1.pos_of_held (by simp)) (fun g => by simp) p
  refine ⟨s2, ?_, h2, hfr1.trans hfr2⟩
  rw [hc1]
  dsimp only [bind, Except.bind]
  rw [hc2]
  rfl

/-- `pipealloc`: two new ends, each held once by the call, or nothing
held on its `-1`. -/
theorem pipealloc (h : RefInv s 0 0) {page : Option Nat} (hpage : page.all (fun pg => !s.inUse pg) = true)
    (junk : Nat → UInt8) (p : Fin NPROC) :
    (∃ s', s.pipealloc page junk = .ok (none, s') ∧ RefInv s' 0 0 ∧ Frame p s s') ∨
    (∃ rf wf s', rf ≠ wf ∧ s.pipealloc page junk = .ok (some (rf, wf), s') ∧
      RefInv s' (fun g => (if g = rf then 1 else 0) + (if g = wf then 1 else 0)) 0 ∧ Frame p s s') := by
  unfold Files.pipealloc
  rcases h0 : s.filealloc with ⟨r0, s0⟩
  rcases filealloc_cases h0 with ⟨rfl, rfl, -⟩ | ⟨f0, rfl, hf0, rfl⟩
  · exact .inl ⟨_, rfl, h, Frame.refl⟩
  set s1 := s.setFile f0 { s.file f0 with ref := 1 }
  have h1 : RefInv s1 (fun g => if g = f0 then 1 else 0) 0 := h.take hf0 fun g => by simp
  dsimp only
  rcases h1' : s1.filealloc with ⟨r1, s2⟩
  rcases filealloc_cases h1' with ⟨rfl, rfl, -⟩ | ⟨f1, rfl, hf1, rfl⟩
  · -- no second file: the first is closed
    obtain ⟨s2, hc, h2, hfr⟩ : ∃ s', _ = Except.ok s' ∧ RefInv s' 0 0 ∧ Frame p _ s' :=
      h1.fileclose_frame (f := f0) (h1.pos_of_held (by simp)) (fun g => by simp) p
    refine .inl ⟨s2, ?_, h2, hfr⟩
    dsimp only
    rw [hc]
    rfl
  have hne : f0 ≠ f1 := by
    rintro rfl
    simp [s1, Files.setFile] at hf1
  set s2 := s1.setFile f1 { s1.file f1 with ref := 1 }
  have h2 : RefInv s2 (fun g => (if g = f0 then 1 else 0) + (if g = f1 then 1 else 0)) 0 :=
    h1.take hf1 fun g => by simp
  dsimp only
  rcases page with _ | pg
  · -- `kalloc` fails: both files are closed
    obtain ⟨s3, hc3, h3, hfr3⟩ : ∃ s', _ = Except.ok s' ∧ RefInv s' (fun g => if g = f1 then 1 else 0) 0 ∧
        Frame p _ s' :=
      h2.fileclose_frame (f := f0) (h2.pos_of_held (by simp [hne])) (fun g => by ring) p
    obtain ⟨s4, hc4, h4, hfr4⟩ : ∃ s', _ = Except.ok s' ∧ RefInv s' 0 0 ∧ Frame p _ s' :=
      h3.fileclose_frame (f := f1) (h3.pos_of_held (by simp)) (fun g => by simp) p
    refine .inl ⟨s4, ?_, h4, hfr3.trans hfr4⟩
    dsimp only
    rw [hc3]
    dsimp only [bind, Except.bind]
    rw [hc4]
    rfl
  · -- the pipe on the page `kalloc` gave, with the two files as its ends
    have hpg : s.inUse pg = false := by simpa using hpage
    have ht0 : (s2.file f0).type = .FD_NONE := by
      simpa [s2, s1, Files.setFile, hne] using h.none_of_zero f0 hf0
    have ht1 : (s2.file f1).type = .FD_NONE := by
      simpa [s2, Files.setFile] using h1.none_of_zero f1 hf1
    refine .inr ⟨f0, f1, _, hne, rfl, h2.pipeOpen hne (h2.pos_of_held (by simp [hne]))
      (h2.pos_of_held (by simp [hne.symm])) ht0 ht1 hpg junk _ _ ⟨rfl, rfl, rfl, rfl⟩
      ⟨by simp [Files.setFile, Function.update_of_ne hne.symm], rfl, rfl, rfl⟩, Frame.refl⟩

/-- `sys_pipe()`: the two ends go to two descriptors, or back to
`fileclose` on each failure. -/
theorem sys_pipe (h : RefInv s 0 0) (p : Fin NPROC) {page : Option Nat}
    (hpage : page.all (fun pg => !s.inUse pg) = true) (junk : Nat → UInt8) (copyout : Bool) :
    ∃ r s', s.sys_pipe p page junk copyout = .ok (r, s') ∧ RefInv s' 0 0 ∧ Frame p s s' := by
  unfold Files.sys_pipe
  rcases h.pipealloc hpage junk p with ⟨s1, hpa, h1, hfr1⟩ | ⟨rf, wf, s1, hne, hpa, h1, hfr1⟩
  · refine ⟨-1, s1, ?_, h1, hfr1⟩
    rw [hpa]
    rfl
  rw [hpa]
  dsimp only [bind, Except.bind]
  rcases hd0 : s1.fdalloc p rf with ⟨r0, s2⟩
  rcases fdalloc_cases hd0 with ⟨rfl, rfl⟩ | ⟨fd0, rfl, hslot0, rfl⟩
  · obtain ⟨s2, hc, h2, hfr2⟩ := h1.closeBoth hne p
    exact ⟨-1, s2, hc, h2, hfr1.trans hfr2⟩
  set s2 := s1.setOfile p fd0 (some rf)
  have h2 : RefInv s2 (fun g => if g = wf then 1 else 0) 0 :=
    h1.setOfile_some hslot0 fun g => by ring
  have hrf : s2.ofile p fd0 = some rf := by simp [s2, Files.setOfile]
  dsimp only
  rcases hd1 : s2.fdalloc p wf with ⟨r1, s3⟩
  rcases fdalloc_cases hd1 with ⟨rfl, rfl⟩ | ⟨fd1, rfl, hslot1, rfl⟩
  · -- no second descriptor: the first is cleared
    have h3 : RefInv (s2.setOfile p fd0 none)
        (fun g => (if g = rf then 1 else 0) + (if g = wf then 1 else 0)) 0 :=
      h2.setOfile_none hrf fun g => by ring
    obtain ⟨s3, hc, h3', hfr3⟩ := h3.closeBoth hne p
    exact ⟨-1, s3, hc, h3', hfr1.trans ((Frame.setOfile fd0 _).trans ((Frame.setOfile fd0 _).trans hfr3))⟩
  set s3 := s2.setOfile p fd1 (some wf)
  have h3 : RefInv s3 0 0 := h2.setOfile_some hslot1 fun g => by simp
  have hfr : Frame p s s3 := hfr1.trans ((Frame.setOfile fd0 _).trans (Frame.setOfile fd1 _))
  dsimp only
  cases copyout
  · -- `copyout` fails: both descriptors are cleared
    have hne01 : fd1 ≠ fd0 := by
      rintro rfl
      rw [hrf] at hslot1
      cases hslot1
    have hrf' : s3.ofile p fd0 = some rf := by simp [s3, Files.setOfile, hne01.symm, hrf]
    have hwf' : (s3.setOfile p fd0 none).ofile p fd1 = some wf := by simp [s3, Files.setOfile, hne01]
    have h4' : RefInv (s3.setOfile p fd0 none) (fun g => if g = rf then 1 else 0) 0 :=
      h3.setOfile_none hrf' fun g => by simp
    have h4 : RefInv ((s3.setOfile p fd0 none).setOfile p fd1 none)
        (fun g => (if g = rf then 1 else 0) + (if g = wf then 1 else 0)) 0 :=
      h4'.setOfile_none hwf' fun g => by ring
    obtain ⟨s4, hc, h5, hfr4⟩ := h4.closeBoth hne p
    exact ⟨-1, s4, hc, h5, hfr.trans ((Frame.setOfile fd0 _).trans ((Frame.setOfile fd1 _).trans hfr4))⟩
  · exact ⟨0, s3, rfl, h3, hfr⟩

-- ====================================================== fork and exit

/-- `fork`'s loop over the descriptors `is`: each `filedup` is taken by
the child's new slot, which was null. -/
theorem fork_loop {I : Nat → Int} {p np : Fin NPROC} (hne : np ≠ p) :
    ∀ (is : List (Fin NOFILE)) (s : Files), RefInv s 0 I → is.Nodup → (∀ i ∈ is, s.ofile np i = none) →
    ∃ s', Files.forkFiles p np is s = .ok s' ∧ RefInv s' 0 I ∧ s'.cwd = s.cwd ∧ s'.state = s.state ∧
      ∀ q, q ≠ np → s'.ofile q = s.ofile q
  | [], s, h, _, _ => ⟨s, rfl, h, rfl, rfl, fun _ _ => rfl⟩
  | i :: is, s, h, hnd, hempty => by
      have hi : i ∉ is := (List.nodup_cons.mp hnd).1
      have hrest : ∀ j ∈ is, s.ofile np j = none := fun j hj => hempty j (List.mem_cons_of_mem _ hj)
      rcases hpi : s.ofile p i with _ | f
      · obtain ⟨s', hr, h', hc, hs, ho⟩ := fork_loop hne is s h (List.nodup_cons.mp hnd).2 hrest
        refine ⟨s', ?_, h', hc, hs, ho⟩
        simp only [Files.forkFiles, hpi]
        exact hr
      · have hpos := h.pos_of_slot hpi le_rfl
        set s1 := s.setFile f { s.file f with ref := (s.file f).ref + 1 }
        have h1 : RefInv s1 (fun g => if g = f then 1 else 0) I := h.dup hpos fun g => by simp
        have h2 : RefInv (s1.setOfile np i (some f)) 0 I :=
          h1.setOfile_some (hempty i (by simp)) fun g => by simp
        obtain ⟨s', hr, h', hc, hs, ho⟩ := fork_loop hne is _ h2 (List.nodup_cons.mp hnd).2 fun j hj => by
          have hji : j ≠ i := fun e => hi (e ▸ hj)
          simpa [s1, Files.setOfile, Files.setFile, hji] using hrest j hj
        refine ⟨s', ?_, h', hc, hs, fun q hq => ?_⟩
        · simp only [Files.forkFiles, hpi]
          rw [filedup_eq hpos]
          exact hr
        · rw [ho q hq]
          simp [s1, Files.setOfile, Files.setFile, hq]

/-- `exit`'s loop over the descriptors `fds`: `fileclose` drops the
reference before the slot is cleared, and every slot of `fds` ends
null. -/
theorem exit_loop {I : Nat → Int} {p : Fin NPROC} :
    ∀ (fds : List (Fin NOFILE)) (s : Files), RefInv s 0 I →
    ∃ s', Files.exitFiles p fds s = .ok s' ∧ RefInv s' 0 I ∧ s'.cwd = s.cwd ∧ s'.state = s.state ∧
      (∀ q, q ≠ p → s'.ofile q = s.ofile q) ∧ (∀ i ∈ fds, s'.ofile p i = none) ∧
      ∀ i, i ∉ fds → s'.ofile p i = s.ofile p i
  | [], s, h => ⟨s, rfl, h, rfl, rfl, fun _ _ => rfl, by simp, fun _ _ => rfl⟩
  | fd :: fds, s, h => by
      rcases hpf : s.ofile p fd with _ | f
      · obtain ⟨s', hr, h', hc, hs, ho, hcl, hkeep⟩ := exit_loop fds s h
        refine ⟨s', ?_, h', hc, hs, ho, fun i hi => ?_, fun i hi => hkeep i fun h => hi (List.mem_cons_of_mem _ h)⟩
        · simp only [Files.exitFiles, hpf]
          exact hr
        · by_cases hin : i ∈ fds
          · exact hcl i hin
          · have : i = fd := by simpa [hin] using hi
            rw [hkeep i hin, this, hpf]
      · obtain ⟨s1, hc1, h1, ho1, hcwd1, hst1⟩ : ∃ s', _ = Except.ok s' ∧
            RefInv s' (fun g => -(if g = f then 1 else 0)) I ∧ _ :=
          h.fileclose (h.pos_of_slot hpf le_rfl) fun g => by simp
        have hslot : s1.ofile p fd = some f := by rw [ho1, hpf]
        have h2 : RefInv (s1.setOfile p fd none) 0 I := h1.setOfile_none hslot fun g => by simp
        obtain ⟨s', hr, h', hc, hs, ho, hcl, hkeep⟩ := exit_loop fds _ h2
        refine ⟨s', ?_, h', hc.trans hcwd1, hs.trans hst1, fun q hq => ?_, fun i hi => ?_, fun i hi => ?_⟩
        · simp only [Files.exitFiles, hpf]
          rw [hc1]
          exact hr
        · rw [ho q hq, ← ho1]
          simp [Files.setOfile, hq]
        · by_cases hin : i ∈ fds
          · exact hcl i hin
          · have : i = fd := by simpa [hin] using hi
            rw [hkeep i hin, this]
            simp [Files.setOfile]
        · have hne : i ≠ fd := fun e => hi (e ▸ List.mem_cons_self ..)
          rw [hkeep i fun h => hi (List.mem_cons_of_mem _ h)]
          simp [Files.setOfile, hne, ho1]

/-- `fork()`: the child gets the parent's files, each with one more
reference, and the parent's `cwd`, with one more; or nothing changes. -/
theorem fork (h : RefInv s 0 0) (p : Fin NPROC) (ok : Bool) (hp : s.state p ≠ .UNUSED)
    (hidle : ∀ q, s.state q = .UNUSED → (∀ fd, s.ofile q fd = none) ∧ s.cwd q = none)
    (hcwd : s.cwd p ≠ none) :
    ∃ s', s.fork p ok = .ok s' ∧ RefInv s' 0 0 ∧
      (s' = s ∨ ∃ np, s.state np = .UNUSED ∧ s'.cwd = Function.update s.cwd np (s.cwd p) ∧
        s'.state = Function.update s.state np .RUNNABLE ∧ ∀ q, q ≠ np → s'.ofile q = s.ofile q) := by
  unfold Files.fork
  rcases hf : (List.finRange NPROC).find? (fun i => s.state i = .UNUSED) with _ | np
  · exact ⟨s, rfl, h, .inl rfl⟩
  have hnp : s.state np = .UNUSED := by simpa using List.find?_some hf
  dsimp only
  cases ok
  · exact ⟨s, rfl, h, .inl rfl⟩
  have hne : np ≠ p := fun e => hp (e ▸ hnp)
  obtain ⟨s1, hr, h1, hc1, hs1, ho1⟩ :=
    fork_loop hne (List.finRange NOFILE) s h (List.nodup_finRange _) fun i _ => (hidle np hnp).1 i
  obtain ⟨ip, hip⟩ := Option.ne_none_iff_exists'.mp hcwd
  have hcwd1 : s1.cwd p = some ip := by rw [hc1, hip]
  -- the child's `cwd` takes the reference `idup` adds
  have h2 : RefInv (s1.idup ip) 0 (fun j => if j = ip then 1 else 0) := h1.idup ip fun j => by simp
  have hnone : (s1.idup ip).cwd np = none := by
    show s1.cwd np = none
    rw [hc1]
    exact (hidle np hnp).2
  have h3 : RefInv { s1.idup ip with cwd := Function.update (s1.idup ip).cwd np (some ip) } 0 0 :=
    h2.setCwd np (some ip) fun j => by
      by_cases hj : j = ip
      · subst hj
        simp [hnone]
      · simp [hnone, hj, Ne.symm hj]
  refine ⟨_, ?_, h3.with_state (Function.update (s1.idup ip).state np .RUNNABLE), .inr ⟨np, hnp, ?_, ?_, ho1⟩⟩
  · rw [if_neg (by decide), hr]
    dsimp only [bind, Except.bind]
    rw [hcwd1]
    rfl
  · show Function.update s1.cwd np (some ip) = Function.update s.cwd np (s.cwd p)
    rw [hc1, hip]
  · show Function.update s1.state np .RUNNABLE = Function.update s.state np .RUNNABLE
    rw [hs1]

/-- `exit()`: every file of the caller is closed and its `cwd` put. -/
theorem exit (h : RefInv s 0 0) {p : Fin NPROC} (hinit : p ≠ initSlot) (hcwd : s.cwd p ≠ none) :
    ∃ s', s.exit p = .ok s' ∧ RefInv s' 0 0 ∧ s'.cwd = Function.update s.cwd p none ∧
      s'.state = Function.update s.state p .ZOMBIE ∧ (∀ fd, s'.ofile p fd = none) ∧
      ∀ q, q ≠ p → s'.ofile q = s.ofile q := by
  unfold Files.exit
  rw [if_neg hinit]
  obtain ⟨s1, hr, h1, hc1, hs1, ho1, hcl1, -⟩ := exit_loop (List.finRange NOFILE) s h
  obtain ⟨ip, hip⟩ := Option.ne_none_iff_exists'.mp hcwd
  have hcwd1 : s1.cwd p = some ip := by rw [hc1, hip]
  have h2 : RefInv (s1.iput ip) 0 (fun j => -(if j = ip then 1 else 0)) := h1.iput ip fun j => by simp
  -- clearing `cwd` takes the reference back from the count `iput` dropped
  have h3 : RefInv { s1.iput ip with cwd := Function.update (s1.iput ip).cwd p none } 0 0 :=
    h2.setCwd p none fun j => by
      have : (s1.iput ip).cwd p = some ip := hcwd1
      by_cases hj : j = ip
      · subst hj
        simp [this]
      · simp [this, hj, Ne.symm hj]
  refine ⟨_, ?_, h3.with_state (Function.update (s1.iput ip).state p .ZOMBIE), ?_, ?_,
    fun fd => hcl1 fd (List.mem_finRange fd), ho1⟩
  · rw [hr]
    dsimp only [bind, Except.bind]
    rw [hcwd1]
    rfl
  · show Function.update s1.cwd p none = Function.update s.cwd p none
    rw [hc1]
  · show Function.update s1.state p .ZOMBIE = Function.update s.state p .ZOMBIE
    rw [hs1]

end RefInv

end Files

end Xv6
