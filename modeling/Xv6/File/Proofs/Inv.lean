import Xv6.File.Proofs.Calls
import Xv6.Lib.Simulation

/-!
The counts between calls, over every run.

`FilesInv` is `RefInv` with nothing held, and what the slots' states
say about their files: a slot that is `UNUSED` or a `ZOMBIE` has no
open descriptor and no `cwd`, and a live one has a `cwd`. Each call
keeps it (`FilesInv.step`), so every state a run reaches from `boot`
has it (`filesInv_reach`). No call of a reachable state panics but
`exit` of `initproc`.
-/

namespace Xv6

namespace Files

/-- The counts and the slots between calls. -/
structure FilesInv (s : Files) : Prop where
  refs : RefInv s 0 0
  idle_ofile : ∀ p, s.state p = .UNUSED ∨ s.state p = .ZOMBIE → ∀ fd, s.ofile p fd = none
  idle_cwd : ∀ p, s.state p = .UNUSED ∨ s.state p = .ZOMBIE → s.cwd p = none
  live_cwd : ∀ p, s.state p ≠ .UNUSED → s.state p ≠ .ZOMBIE → s.cwd p ≠ none

variable {s s' : Files}

theorem not_idle_of_runs {p : Fin NPROC} (hp : s.runs p = true) :
    ¬(s.state p = .UNUSED ∨ s.state p = .ZOMBIE) := by
  unfold runs at hp
  rcases of_decide_eq_true hp with h | h <;> rw [h] <;> simp

namespace FilesInv

/-- A call by a running `p` that keeps the counts and its frame. -/
theorem of_frame (h : FilesInv s) {p : Fin NPROC} (hp : s.runs p = true) (h' : RefInv s' 0 0)
    (hfr : Frame p s s') : FilesInv s' where
  refs := h'
  idle_ofile q hq fd := by
    rw [hfr.2.1] at hq
    have hqp : q ≠ p := fun e => not_idle_of_runs hp (e ▸ hq)
    rw [hfr.2.2 q hqp]
    exact h.idle_ofile q hq fd
  idle_cwd q hq := by
    rw [hfr.2.1] at hq
    rw [hfr.1]
    exact h.idle_cwd q hq
  live_cwd q hq hz := by
    rw [hfr.2.1] at hq hz
    rw [hfr.1]
    exact h.live_cwd q hq hz

theorem fork (h : FilesInv s) {p : Fin NPROC} (hp : s.runs p = true) {ok : Bool} (hs : s.fork p ok = .ok s') :
    FilesInv s' := by
  have hidle := not_idle_of_runs hp
  obtain ⟨s1, hs1, h1, hcase⟩ := h.refs.fork p ok (fun e => hidle (.inl e))
    (fun q hq => ⟨h.idle_ofile q (.inl hq), h.idle_cwd q (.inl hq)⟩)
    (h.live_cwd p (fun e => hidle (.inl e)) (fun e => hidle (.inr e)))
  rw [hs1] at hs
  cases hs
  rcases hcase with rfl | ⟨np, hnp, hcwd, hst, ho⟩
  · exact h
  refine ⟨h1, fun q hq fd => ?_, fun q hq => ?_, fun q hq hz => ?_⟩
  · -- the child runs, so an idle slot is another one
    rw [hst] at hq
    have hqn : q ≠ np := by
      rintro rfl
      simp at hq
    rw [Function.update_of_ne hqn] at hq
    rw [ho q hqn]
    exact h.idle_ofile q hq fd
  · rw [hst] at hq
    have hqn : q ≠ np := by
      rintro rfl
      simp at hq
    rw [Function.update_of_ne hqn] at hq
    rw [hcwd, Function.update_of_ne hqn]
    exact h.idle_cwd q hq
  · rw [hcwd]
    by_cases hqn : q = np
    · subst hqn
      rw [Function.update_self]
      exact h.live_cwd p (fun e => hidle (.inl e)) (fun e => hidle (.inr e))
    · rw [hst, Function.update_of_ne hqn] at hq hz
      rw [Function.update_of_ne hqn]
      exact h.live_cwd q hq hz

theorem exit (h : FilesInv s) {p : Fin NPROC} (hp : s.runs p = true) (hs : s.exit p = .ok s') :
    FilesInv s' := by
  have hidle := not_idle_of_runs hp
  have hinit : p ≠ initSlot := by
    rintro rfl
    simp [Files.exit] at hs
  obtain ⟨s1, hs1, h1, hcwd, hst, hcl, ho⟩ :=
    h.refs.exit hinit (h.live_cwd p (fun e => hidle (.inl e)) (fun e => hidle (.inr e)))
  rw [hs1] at hs
  cases hs
  refine ⟨h1, fun q hq fd => ?_, fun q hq => ?_, fun q hq hz => ?_⟩
  · by_cases hqp : q = p
    · subst hqp
      exact hcl fd
    · rw [hst, Function.update_of_ne hqp] at hq
      rw [ho q hqp]
      exact h.idle_ofile q hq fd
  · by_cases hqp : q = p
    · subst hqp
      rw [hcwd, Function.update_self]
    · rw [hst, Function.update_of_ne hqp] at hq
      rw [hcwd, Function.update_of_ne hqp]
      exact h.idle_cwd q hq
  · -- the caller is a `ZOMBIE` now, so a live slot is another one
    have hqp : q ≠ p := by
      rintro rfl
      rw [hst, Function.update_self] at hz
      exact hz rfl
    rw [hst, Function.update_of_ne hqp] at hq hz
    rw [hcwd, Function.update_of_ne hqp]
    exact h.live_cwd q hq hz

/-- `wait`'s `freeproc` of a `ZOMBIE`, whose files are already gone. -/
theorem reap (h : FilesInv s) {np : Fin NPROC} (hz : s.state np = .ZOMBIE) :
    FilesInv { s with state := Function.update s.state np .UNUSED } := by
  refine ⟨h.refs.with_state _, fun q hq fd => ?_, fun q hq => ?_, fun q hq hz' => ?_⟩
  all_goals by_cases hqn : q = np
  · subst hqn
    exact h.idle_ofile q (.inr hz) fd
  · simp only [Function.update_of_ne hqn] at hq
    exact h.idle_ofile q hq fd
  · subst hqn
    exact h.idle_cwd q (.inr hz)
  · simp only [Function.update_of_ne hqn] at hq
    exact h.idle_cwd q hq
  · subst hqn
    simp at hq
  · simp only [Function.update_of_ne hqn] at hq hz'
    exact h.live_cwd q hq hz'

/-- A call's result keeps the invariant when the call keeps the counts
and its frame. -/
theorem of_result (h : FilesInv s) {p : Fin NPROC} (hp : s.runs p = true) {o : Except String (Int × Files)}
    (ho : ∃ r s₁, o = .ok (r, s₁) ∧ RefInv s₁ 0 0 ∧ Frame p s s₁) (hs : result o = .next s') : FilesInv s' := by
  obtain ⟨r, s₁, rfl, h₁, hfr⟩ := ho
  cases hs
  exact h.of_frame hp h₁ hfr

/-- Every call keeps the invariant. -/
theorem step (h : FilesInv s) {e : FileEv} (hs : s.step e = .next s') : FilesInv s' := by
  cases e with
  | pipe p page junk copyout =>
      simp only [Files.step] at hs
      split_ifs at hs with hp
      exact h.of_result hp.1 (h.refs.sys_pipe p hp.2 junk copyout) hs
  | sysopen p omode found =>
      simp only [Files.step] at hs
      split_ifs at hs with hp
      exact h.of_result hp (h.refs.sys_open p omode found) hs
  | dup p fd =>
      simp only [Files.step] at hs
      split_ifs at hs with hp
      exact h.of_result hp (h.refs.sys_dup p fd) hs
  | close p fd =>
      simp only [Files.step] at hs
      split_ifs at hs with hp
      exact h.of_result hp (h.refs.sys_close p fd) hs
  | fork p ok =>
      simp only [Files.step] at hs
      split_ifs at hs with hp
      split at hs
      · next s₁ hf =>
          cases hs
          exact h.fork hp hf
      · cases hs
  | exit p =>
      simp only [Files.step] at hs
      split_ifs at hs with hp
      split at hs
      · next s₁ hx =>
          cases hs
          exact h.exit hp hx
      · cases hs
  | reap np =>
      simp only [Files.step] at hs
      split_ifs at hs with hz
      cases hs
      exact h.reap hz

end FilesInv

/-- `boot`'s only reference is `initproc`'s `cwd`. -/
theorem cwdRefs_boot (ip : Nat) : boot.cwdRefs ip = if ip = ROOTINO then 1 else 0 := by
  have h := Count.card_update (fun _ : Fin NPROC => (none : Option Nat)) initSlot (some ROOTINO) (· = some ip)
  have h0 : Count.count (fun _ : Fin NPROC => (none : Option Nat)) (· = some ip) = 0 :=
    Count.count_eq_zero fun _ => by simp
  have hboot : boot.cwdRefs ip =
      Count.count (Function.update (fun _ : Fin NPROC => (none : Option Nat)) initSlot (some ROOTINO))
        (· = some ip) := rfl
  rw [hboot]
  rw [h0] at h
  by_cases hip : ip = ROOTINO
  · subst hip
    simpa using h
  · simpa [hip, Ne.symm hip] using h

theorem filesInv_boot : FilesInv boot where
  refs :=
    { ref_eq := fun f => by
        have : boot.slots f = 0 := Count.count_eq_zero (by simp [boot])
        rw [this]
        simp [boot, File.zero]
      none_of_zero := fun _ _ => rfl
      inUse_iff := fun pg => by simp [boot, IsEnd, File.zero]
      open_iff := fun pg w h => by simp [boot] at h
      end_unique := fun pg w f f' hf => by simp [boot, IsEnd, File.zero] at hf
      frees_eq := fun pg => rfl
      iref_eq := fun ip => by
        have hf : boot.fileRefs ip = 0 := Count.count_eq_zero (by simp [boot, Holds, File.zero])
        rw [hf, cwdRefs_boot]
        by_cases hip : ip = ROOTINO
        · subst hip
          simp [boot]
        · simp [boot, hip] }
  idle_ofile _ _ _ := rfl
  idle_cwd p hp := by
    have hpi : p ≠ initSlot := by
      rintro rfl
      simp [boot] at hp
    simp [boot, hpi]
  live_cwd p hp _ := by
    have hpi : p = initSlot := by
      by_contra hne
      simp [boot, hne] at hp
    subst hpi
    simp [boot]

/-- Every state a run reaches from `boot` keeps the invariant. -/
theorem filesInv_reach {s : Files} (h : Relation.ReflTransGen Step boot s) : FilesInv s :=
  @Relation.invariant_reach _ _ FilesInv (fun _ _ hi ⟨_, hs⟩ => hi.step hs) _ _ filesInv_boot h

/-- The reference counts over every run: each entry's `ref` is the
number of descriptor slots pointing at it and a free entry is
`FD_NONE`; a pipe's page is in use exactly while one of its two ends,
each one entry, is open, `readopen` and `writeopen` say which, and each
`kalloc` of the page is matched by one `kfree` once both are closed;
an open entry points at no freed pipe; and an inode's `ref` counts the
open inode and device files on it and the `cwd`s. -/
theorem file_refs_exact {s : Files} (h : Relation.ReflTransGen Step boot s) :
    (∀ f, (s.file f).ref = s.slots f) ∧
    (∀ f, (s.file f).ref = 0 → (s.file f).type = .FD_NONE) ∧
    (∀ pg, s.inUse pg = true →
      ((s.pipes pg).readopen = true ↔ ∃ f, IsEnd pg false (s.file f)) ∧
      ((s.pipes pg).writeopen = true ↔ ∃ f, IsEnd pg true (s.file f))) ∧
    (∀ pg w f f', IsEnd pg w (s.file f) → IsEnd pg w (s.file f') → f = f') ∧
    (∀ pg, s.inUse pg = true ↔ ∃ w f, IsEnd pg w (s.file f)) ∧
    (∀ pg, s.frees pg + (if s.inUse pg then 1 else 0) = s.allocs pg) ∧
    (∀ f, 0 < (s.file f).ref → (s.file f).type = .FD_PIPE → s.inUse (s.file f).pipe = true) ∧
    (∀ ip, s.iref ip = s.fileRefs ip + s.cwdRefs ip) := by
  have hr := (filesInv_reach h).refs
  refine ⟨fun f => ?_, hr.none_of_zero, fun pg hin => ⟨hr.open_iff pg false hin, hr.open_iff pg true hin⟩,
    hr.end_unique, hr.inUse_iff, hr.frees_eq, fun f hpos ht => ?_, fun ip => ?_⟩
  · have := hr.ref_eq f
    simp only [Pi.zero_apply, add_zero] at this
    exact_mod_cast this
  · exact (hr.inUse_iff _).mpr ⟨(s.file f).writable, f, hpos, ht, rfl, rfl⟩
  · simpa using hr.iref_eq ip

theorem file_refs_exact_boot :
    Relation.ReflTransGen Step boot boot ∧
    ((∀ f, (boot.file f).ref = boot.slots f) ∧
    (∀ f, (boot.file f).ref = 0 → (boot.file f).type = .FD_NONE) ∧
    (∀ pg, boot.inUse pg = true →
      ((boot.pipes pg).readopen = true ↔ ∃ f, IsEnd pg false (boot.file f)) ∧
      ((boot.pipes pg).writeopen = true ↔ ∃ f, IsEnd pg true (boot.file f))) ∧
    (∀ pg w f f', IsEnd pg w (boot.file f) → IsEnd pg w (boot.file f') → f = f') ∧
    (∀ pg, boot.inUse pg = true ↔ ∃ w f, IsEnd pg w (boot.file f)) ∧
    (∀ pg, boot.frees pg + (if boot.inUse pg then 1 else 0) = boot.allocs pg) ∧
    (∀ f, 0 < (boot.file f).ref → (boot.file f).type = .FD_PIPE → boot.inUse (boot.file f).pipe = true) ∧
    (∀ ip, boot.iref ip = boot.fileRefs ip + boot.cwdRefs ip)) :=
  ⟨.refl, file_refs_exact .refl⟩

/-- A call's result is never a panic when the call returns. -/
theorem result_ok {α : Type} {x : α × Files} {msg : String} : result (.ok x) ≠ .panic msg := by
  rintro ⟨⟩

/-- No file call of a reachable state panics, `filedup`'s and
`fileclose`'s checks and the null `cwd` included, except `exit` of
`initproc`. -/
theorem file_calls_safe {s : Files} (h : Relation.ReflTransGen Step boot s) (e : FileEv) (msg : String)
    (hs : s.step e = .panic msg) : e = .exit initSlot ∧ msg = "init exiting" := by
  have hi := filesInv_reach h
  cases e with
  | pipe p page junk copyout =>
      simp only [Files.step] at hs
      split_ifs at hs with hp
      obtain ⟨r, s', hc, -⟩ := hi.refs.sys_pipe p hp.2 junk copyout
      exact absurd (hc ▸ hs) result_ok
  | sysopen p omode found =>
      simp only [Files.step] at hs
      split_ifs at hs with hp
      obtain ⟨r, s', hc, -⟩ := hi.refs.sys_open p omode found
      exact absurd (hc ▸ hs) result_ok
  | dup p fd =>
      simp only [Files.step] at hs
      split_ifs at hs with hp
      obtain ⟨r, s', hc, -⟩ := hi.refs.sys_dup p fd
      exact absurd (hc ▸ hs) result_ok
  | close p fd =>
      simp only [Files.step] at hs
      split_ifs at hs with hp
      obtain ⟨r, s', hc, -⟩ := hi.refs.sys_close p fd
      exact absurd (hc ▸ hs) result_ok
  | fork p ok =>
      simp only [Files.step] at hs
      split_ifs at hs with hp
      have hidle := not_idle_of_runs hp
      obtain ⟨s', hc, -⟩ := hi.refs.fork p ok (fun e => hidle (.inl e))
        (fun q hq => ⟨hi.idle_ofile q (.inl hq), hi.idle_cwd q (.inl hq)⟩)
        (hi.live_cwd p (fun e => hidle (.inl e)) (fun e => hidle (.inr e)))
      rw [hc] at hs
      cases hs
  | exit p =>
      simp only [Files.step] at hs
      split_ifs at hs with hp
      by_cases hinit : p = initSlot
      · subst hinit
        simp only [Files.exit, if_true] at hs
        cases hs
        exact ⟨rfl, rfl⟩
      · have hidle := not_idle_of_runs hp
        obtain ⟨s', hc, -⟩ := hi.refs.exit hinit (hi.live_cwd p (fun e => hidle (.inl e)) (fun e => hidle (.inr e)))
        rw [hc] at hs
        cases hs
  | reap np =>
      -- `reap` steps or is blocked
      simp only [Files.step] at hs
      split_ifs at hs

theorem file_calls_safe_boot :
    boot.step (.exit initSlot) = .panic "init exiting" ∧
    (FileEv.exit initSlot = .exit initSlot ∧ "init exiting" = "init exiting") :=
  have hs : boot.step (.exit initSlot) = .panic "init exiting" := rfl
  ⟨hs, file_calls_safe .refl _ _ hs⟩

end Files

end Xv6
