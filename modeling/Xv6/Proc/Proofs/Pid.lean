import Xv6.Proc.Proofs.Table
import Xv6.Lib.Simulation

/-!
Process identity.

`PidInv` holds in every state of every run (`pid_unique`): a slot in
use has a pid in `[1, nextpid)`, no two slots in use share one, and an
`UNUSED` slot holds pid `0`, which `freeproc` and the zeroed table
give it. So `allocpid`'s pid is positive and fresh, and `kill` of a
nonzero pid finds exactly the process with it (`kill_of_ne_zero`).

`kill` does not skip `UNUSED` slots, though, and `allocproc` does not
reset `killed`: `kill(0)` marks the first free slot killed and
reports success, and the next `fork` hands that slot out, killed
(`kill_zero_taints_fork`).
-/

namespace Xv6

open Procs

/-- What every reachable table keeps of the pids. -/
structure PidInv (t : Procs) : Prop where
  unused : ∀ i, (t.proc i).state = .UNUSED → (t.proc i).pid = 0
  pid_pos : ∀ i, (t.proc i).state ≠ .UNUSED → 0 < (t.proc i).pid ∧ (t.proc i).pid < t.nextpid
  pid_inj : ∀ i j, (t.proc i).state ≠ .UNUSED → (t.proc j).state ≠ .UNUSED →
    (t.proc i).pid = (t.proc j).pid → i = j
  nextpid_pos : 0 < t.nextpid

variable {t t' : Procs} {i j p : Fin NPROC}

namespace PidInv

/-- A step that keeps `nextpid`, every pid and which slots are
`UNUSED` keeps the invariant. -/
theorem of_frame (h : PidInv t) (hn : t'.nextpid = t.nextpid)
    (hpid : ∀ i, (t'.proc i).pid = (t.proc i).pid)
    (hu : ∀ i, (t'.proc i).state = .UNUSED ↔ (t.proc i).state = .UNUSED) : PidInv t' where
  unused i hi := (hpid i).trans (h.unused i ((hu i).mp hi))
  pid_pos i hi := by
    rw [hpid, hn]
    exact h.pid_pos i (fun h' => hi ((hu i).mpr h'))
  pid_inj i j hi hj he := by
    rw [hpid, hpid] at he
    exact h.pid_inj i j (fun h' => hi ((hu i).mpr h')) (fun h' => hj ((hu j).mpr h')) he
  nextpid_pos := hn ▸ h.nextpid_pos

/-- A slot in use may change state among the states in use. -/
theorem of_set (h : PidInv t) (hi : (t.proc i).state ≠ .UNUSED) {x : Proc}
    (hx : x.state ≠ .UNUSED) (hp : x.pid = (t.proc i).pid) : PidInv (t.set i x) := by
  refine h.of_frame rfl (fun j => ?_) (fun j => ?_) <;> by_cases hj : j = i
  · subst hj
    simpa using hp
  · simp [set_proc_of_ne _ hj]
  · subst hj
    simp [hi, hx]
  · simp [set_proc_of_ne _ hj]

/-- A slot is freed. -/
theorem freeproc (h : PidInv t) (i : Fin NPROC) : PidInv (Xv6.freeproc t i) where
  unused j hj := by
    rw [freeproc_proc] at hj ⊢
    split_ifs at hj ⊢
    · rfl
    · exact h.unused j hj
  pid_pos j hj := by
    rw [freeproc_proc] at hj ⊢
    split_ifs at hj ⊢
    · exact absurd rfl hj
    · exact h.pid_pos j hj
  pid_inj j k hj hk he := by
    simp only [freeproc_proc] at hj hk he
    split_ifs at hj hk he
    · exact absurd rfl hj
    · exact absurd rfl hj
    · exact absurd rfl hk
    · exact h.pid_inj j k hj hk he
  nextpid_pos := h.nextpid_pos

theorem wakeup (h : PidInv t) (c : Chan) : PidInv (Xv6.wakeup t p c) := by
  refine h.of_frame rfl (fun i => by rw [wakeup_proc_eq]) (fun i => ?_)
  rw [wakeup_state]
  split_ifs with hs
  · simp [hs.2.1]
  · rfl

/-- `fork`: nothing, a pid spent, or the first free slot given the pid. -/
theorem fork (h : PidInv t) {mem copy : Bool} : PidInv (Xv6.fork t p mem copy).2 := by
  rcases hf : Xv6.fork t p mem copy with ⟨r, t'⟩
  rcases fork_cases hf with ⟨-, rfl⟩ | ⟨i, hi, -, rfl⟩ | ⟨i, hi, -, rfl⟩
  · exact h
  · -- a spent pid: the slot is zeroed again
    refine ⟨fun j hj => ?_, fun j hj => ?_, fun j k hj hk he => ?_,
      show 0 < t.nextpid + 1 by have := h.nextpid_pos; omega⟩
    · by_cases hji : j = i
      · subst hji
        simp [Proc.zero]
      · simp only [Function.update_of_ne hji] at hj ⊢
        exact h.unused j hj
    · by_cases hji : j = i
      · subst hji
        simp [Proc.zero] at hj
      · simp only [Function.update_of_ne hji] at hj ⊢
        have := h.pid_pos j hj
        omega
    · by_cases hji : j = i
      · subst hji
        simp [Proc.zero] at hj
      · by_cases hki : k = i
        · subst hki
          simp [Proc.zero] at hk
        · simp only [Function.update_of_ne hji, Function.update_of_ne hki] at hj hk he
          exact h.pid_inj j k hj hk he
  · -- the child: the free slot gets `nextpid`, above every pid in use
    have hfresh : ∀ j, (t.proc j).state ≠ .UNUSED → (t.proc j).pid ≠ t.nextpid := fun j hj =>
      Int.ne_of_lt (h.pid_pos j hj).2
    refine ⟨fun j hj => ?_, fun j hj => ?_, fun j k hj hk he => ?_,
      show 0 < t.nextpid + 1 by have := h.nextpid_pos; omega⟩
    · by_cases hji : j = i
      · subst hji
        simp at hj
      · simp only [Function.update_of_ne hji] at hj ⊢
        exact h.unused j hj
    · by_cases hji : j = i
      · subst hji
        simp only [Function.update_self]
        have := h.nextpid_pos
        omega
      · simp only [Function.update_of_ne hji] at hj ⊢
        have := h.pid_pos j hj
        omega
    · by_cases hji : j = i <;> by_cases hki : k = i
      · exact hji.trans hki.symm
      · subst hji
        simp only [Function.update_self, Function.update_of_ne hki] at hk he
        exact absurd he.symm (hfresh k hk)
      · subst hki
        simp only [Function.update_self, Function.update_of_ne hji] at hj he
        exact absurd he (hfresh j hj)
      · simp only [Function.update_of_ne hji, Function.update_of_ne hki] at hj hk he
        exact h.pid_inj j k hj hk he

theorem kill (h : PidInv t) (pid : Int) : PidInv (Xv6.kill t pid).2 := by
  rcases hk : Xv6.kill t pid with ⟨r, t'⟩
  rcases kill_cases hk with ⟨-, rfl, -⟩ | ⟨i, -, -, rfl⟩
  · exact h
  · refine h.of_frame rfl (fun j => ?_) (fun j => ?_) <;> by_cases hj : j = i
    · subst hj
      simp
    · simp [set_proc_of_ne _ hj]
    · subst hj
      simp only [set_proc_self]
      split_ifs with hs <;> simp [hs]
    · simp [set_proc_of_ne _ hj]

theorem exit (h : PidInv t) {status : Int} (hp : (t.proc p).state ≠ .UNUSED) :
    PidInv (exited t p status) := by
  refine h.of_frame exited_nextpid (fun i => ?_) (fun i => ?_) <;> by_cases hi : i = p
  · subst hi
    rw [exited_proc_self]
  · rw [exited_proc_of_ne hi]
  · subst hi
    simp [exited_proc_self, hp]
  · rw [exited_proc_of_ne hi]
    dsimp only
    split_ifs with hs
    · simp [hs.1]
    · rfl

end PidInv

theorem PidInv.userinit : PidInv userinit :=
  ⟨by decide, by decide, by decide, by decide⟩

/-- Every step keeps `PidInv`. -/
theorem PidInv.step {s s' : ProcSys} {e : ProcEv} (h : PidInv s.t) (hs : s.step e = .next s') :
    PidInv s'.t := by
  cases e with
  | fork p mem copy =>
      simp only [ProcSys.step] at hs
      split_ifs at hs
      cases hs
      exact h.fork
  | exit p status =>
      simp only [ProcSys.step] at hs
      split_ifs at hs with hr
      split at hs
      · next t' he =>
          cases hs
          obtain ⟨-, rfl⟩ := exit_eq_ok he
          refine h.exit fun hu => ?_
          simp [ProcSys.runs, hu] at hr
      · cases hs
  | wait p addr copyout =>
      simp only [ProcSys.step] at hs
      split_ifs at hs with hr
      rcases hw : Xv6.wait s.t p addr copyout with ⟨w, t'⟩
      rw [hw] at hs
      have ht' : PidInv t' := by
        rcases wait_cases hw with ⟨np, -, -, rfl⟩ | ⟨-, rfl, -⟩ | ⟨-, -, -, -, rfl⟩
        · exact h.freeproc np
        · exact h
        · refine h.of_set (fun hu => ?_) (by simp) rfl
          simp [ProcSys.runs, hu] at hr
      cases w <;> cases hs <;> exact ht'
  | kill p pid =>
      simp only [ProcSys.step] at hs
      split_ifs at hs
      cases hs
      exact h.kill pid
  | sleep p a =>
      simp only [ProcSys.step] at hs
      split_ifs at hs with hr
      cases hs
      refine h.of_set (fun hu => ?_) (by simp) rfl
      simp [ProcSys.runs, hu] at hr
  | wakeup p a =>
      simp only [ProcSys.step] at hs
      split_ifs at hs
      cases hs
      exact h.wakeup _

/-- In every state of every run from `userinit`, with any calls of
`fork`, `exit`, `wait` and `kill` by the processes that run: every
process in use has a pid in `[1, nextpid)`, no two processes in use
share a pid, and a free slot holds pid `0`. So the pid `allocpid`
hands out next, `nextpid`, is positive and held by no process. -/
theorem pid_unique {s : ProcSys} (h : Relation.ReflTransGen ProcSys.Step ProcSys.boot s) :
    PidInv s.t :=
  @Relation.invariant_reach _ _ (fun s : ProcSys => PidInv s.t) (fun _ _ hi ⟨_, hs⟩ => hi.step hs) _ _
    PidInv.userinit h

theorem pid_unique_boot :
    Relation.ReflTransGen ProcSys.Step ProcSys.boot ProcSys.boot ∧ PidInv ProcSys.boot.t :=
  ⟨.refl, pid_unique .refl⟩

/-- In every reachable state with a free slot, `kill(0)` reports
success although no process in use has pid `0`: it marks the first
free slot killed. A `fork` by any running process that gets its memory
then hands out exactly that slot, and the child is born killed. -/
theorem kill_zero_taints_fork {s : ProcSys} (h : Relation.ReflTransGen ProcSys.Step ProcSys.boot s)
    (hfree : ∃ i, (s.t.proc i).state = .UNUSED) (p : Fin NPROC) :
    (∀ i, (s.t.proc i).state ≠ .UNUSED → (s.t.proc i).pid ≠ 0) ∧ (kill s.t 0).1 = 0 ∧
      ∃ c, (s.t.proc c).state = .UNUSED ∧ ((kill s.t 0).2.proc c).killed = true ∧
        ((fork (kill s.t 0).2 p true true).2.proc c).state = .RUNNABLE ∧
        ((fork (kill s.t 0).2 p true true).2.proc c).parent = some p ∧
        ((fork (kill s.t 0).2 p true true).2.proc c).killed = true := by
  have hi := pid_unique h
  have hlive : ∀ i, (s.t.proc i).state ≠ .UNUSED → (s.t.proc i).pid ≠ 0 := fun i hu =>
    Int.ne_of_gt (hi.pid_pos i hu).1
  -- in a reachable table, pid `0` is exactly a free slot
  have hzero : ∀ i, ((s.t.proc i).pid = 0 : Bool) = ((s.t.proc i).state = .UNUSED : Bool) := by
    intro i
    by_cases hu : (s.t.proc i).state = .UNUSED
    · simp [hu, hi.unused i hu]
    · simp [hu, hlive i hu]
  obtain ⟨c, hc⟩ : ∃ c, s.t.first (fun x => x.state = .UNUSED) = some c := by
    obtain ⟨i, hu⟩ := hfree
    rcases hf : s.t.first (fun x => x.state = .UNUSED) with _ | c
    · simpa [hu] using first_none hf i
    · exact ⟨c, rfl⟩
  have hkc : s.t.first (fun x => x.pid = 0) = some c := (first_congr hzero).trans hc
  have huc : (s.t.proc c).state = .UNUSED := by simpa using first_some hc
  rcases hk : kill s.t 0 with ⟨r, t'⟩
  rcases kill_cases hk with ⟨-, -, hnone⟩ | ⟨i, hfirst, rfl, rfl⟩
  · exact absurd (hi.unused c huc) (hnone c)
  rw [hkc] at hfirst
  cases hfirst
  -- after the kill, the marked slot is still the first free one
  have hc' : (s.t.set c { s.t.proc c with
      killed := true
      state := if (s.t.proc c).state = .SLEEPING then .RUNNABLE else (s.t.proc c).state }).first
        (fun x => x.state = .UNUSED) = some c := by
    rw [← hc]
    refine first_congr fun j => ?_
    by_cases hj : j = c
    · subst hj
      simp [huc]
    · rw [set_proc_of_ne _ hj]
  refine ⟨hlive, rfl, c, huc, by simp, ?_⟩
  rw [fork_of_first hc']
  simp

theorem kill_zero_taints_fork_boot :
    Relation.ReflTransGen ProcSys.Step ProcSys.boot ProcSys.boot ∧
      (∃ i, (ProcSys.boot.t.proc i).state = .UNUSED) ∧
      ((∀ i, (ProcSys.boot.t.proc i).state ≠ .UNUSED → (ProcSys.boot.t.proc i).pid ≠ 0) ∧
        (kill ProcSys.boot.t 0).1 = 0 ∧
        ∃ c, (ProcSys.boot.t.proc c).state = .UNUSED ∧ ((kill ProcSys.boot.t 0).2.proc c).killed = true ∧
          ((fork (kill ProcSys.boot.t 0).2 0 true true).2.proc c).state = .RUNNABLE ∧
          ((fork (kill ProcSys.boot.t 0).2 0 true true).2.proc c).parent = some 0 ∧
          ((fork (kill ProcSys.boot.t 0).2 0 true true).2.proc c).killed = true) :=
  ⟨.refl, ⟨1, by decide⟩, kill_zero_taints_fork .refl ⟨1, by decide⟩ 0⟩

end Xv6
