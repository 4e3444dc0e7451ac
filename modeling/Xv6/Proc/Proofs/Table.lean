import Xv6.Proc.System

/-!
What each call does to each slot of the table.

Every function of `Proc/Defs` gets its lemma here, stated slot by
slot, so that the invariants of `Pid` and `Wait` are proved from
these and never by unfolding the calls: `allocproc` and `fork` take
the first `UNUSED` slot or change nothing but a spent pid
(`fork_cases`), `kill` marks the first slot with the pid
(`kill_cases`), `wakeup` turns sleepers on the channel runnable and
touches nothing else, and `exit` is `reparent`, two wakeups and the
`ZOMBIE` state (`exited`).
-/

namespace Xv6

variable {t t' : Procs} {i j p np : Fin NPROC}

namespace Procs

@[simp] theorem set_nextpid (x : Proc) : (t.set i x).nextpid = t.nextpid := rfl
@[simp] theorem set_initproc (x : Proc) : (t.set i x).initproc = t.initproc := rfl

theorem set_proc (x : Proc) (j : Fin NPROC) : (t.set i x).proc j = if j = i then x else t.proc j :=
  Function.update_apply _ _ _ _

@[simp] theorem set_proc_self (x : Proc) : (t.set i x).proc i = x := by
  simp [set_proc]

theorem set_proc_of_ne (x : Proc) (h : j ≠ i) : (t.set i x).proc j = t.proc j := by
  simp [set_proc, h]

theorem first_some {f : Proc → Bool} (h : t.first f = some i) : f (t.proc i) = true := by
  have := List.find?_some h
  exact this

theorem first_none {f : Proc → Bool} (h : t.first f = none) (i : Fin NPROC) : f (t.proc i) = false := by
  have := List.find?_eq_none.mp h i (List.mem_finRange i)
  simpa using this

/-- Two tests that agree on every slot of two tables find the same slot. -/
theorem first_congr {f g : Proc → Bool} (h : ∀ i, f (t.proc i) = g (t'.proc i)) :
    t.first f = t'.first g := by
  unfold first
  congr 1
  funext i
  exact h i

end Procs

open Procs

@[simp] theorem Proc.freed_eq (x : Proc) : x.freed = Proc.zero := rfl

@[simp] theorem freeproc_nextpid : (freeproc t i).nextpid = t.nextpid := rfl
@[simp] theorem freeproc_initproc : (freeproc t i).initproc = t.initproc := rfl

theorem freeproc_proc (j : Fin NPROC) : (freeproc t i).proc j = if j = i then Proc.zero else t.proc j := by
  simp [freeproc, set_proc]

@[simp] theorem freeproc_proc_self : (freeproc t i).proc i = Proc.zero := by
  simp [freeproc_proc]

theorem freeproc_proc_of_ne (h : j ≠ i) : (freeproc t i).proc j = t.proc j := by
  simp [freeproc_proc, h]

theorem hasKids_iff : hasKids t p = true ↔ ∃ i, (t.proc i).parent = some p := by
  simp [hasKids]

-- ========================================================== wakeup

@[simp] theorem wakeup_nextpid (c : Chan) : (wakeup t p c).nextpid = t.nextpid := rfl
@[simp] theorem wakeup_initproc (c : Chan) : (wakeup t p c).initproc = t.initproc := rfl

theorem wakeup_proc (c : Chan) (i : Fin NPROC) :
    (wakeup t p c).proc i = if i ≠ p ∧ (t.proc i).state = .SLEEPING ∧ (t.proc i).chan = some c then
      { t.proc i with state := .RUNNABLE } else t.proc i := rfl

/-- `wakeup` changes only states, and only from `SLEEPING`. -/
theorem wakeup_proc_eq (c : Chan) (i : Fin NPROC) :
    (wakeup t p c).proc i = { t.proc i with state := ((wakeup t p c).proc i).state } := by
  rw [wakeup_proc]
  split <;> rfl

theorem wakeup_state (c : Chan) (i : Fin NPROC) :
    ((wakeup t p c).proc i).state =
      if i ≠ p ∧ (t.proc i).state = .SLEEPING ∧ (t.proc i).chan = some c then .RUNNABLE
      else (t.proc i).state := by
  rw [wakeup_proc]
  split <;> rfl

-- ================================================= fork and kill

/-- Everything `allocproc` can do: find no `UNUSED` slot, or take the
first and give it the next pid, zeroing it again when the memory
allocations fail. -/
theorem allocproc_cases {mem : Bool} {r : Option (Fin NPROC)} (h : allocproc t mem = (r, t')) :
    (r = none ∧ t' = t) ∨
    (∃ i, t.first (fun x => x.state = .UNUSED) = some i ∧ mem = false ∧ r = none ∧
      t' = { t with proc := Function.update t.proc i Proc.zero, nextpid := t.nextpid + 1 }) ∨
    (∃ i, t.first (fun x => x.state = .UNUSED) = some i ∧ mem = true ∧ r = some i ∧
      t' = { t with
        proc := Function.update t.proc i ({ t.proc i with pid := t.nextpid, state := .USED })
        nextpid := t.nextpid + 1 }) := by
  unfold allocproc at h
  split at h
  · cases h
    exact .inl ⟨rfl, rfl⟩
  · next i hi =>
      dsimp only [allocpid] at h
      split at h
      · next hm =>
          cases h
          exact .inr (.inr ⟨i, hi, hm, rfl, rfl⟩)
      · next hm =>
          cases h
          refine .inr (.inl ⟨i, hi, by simpa using hm, rfl, ?_⟩)
          simp [freeproc, Procs.set, Function.update_idem]

/-- Everything `fork` can do: fail with no `UNUSED` slot, fail after
`allocproc` took the first `UNUSED` slot and spent a pid (the slot is
zeroed again), or give that slot the pid, the parent and `RUNNABLE`. -/
theorem fork_cases {mem copy : Bool} {r : Int} (h : fork t p mem copy = (r, t')) :
    (r = -1 ∧ t' = t) ∨
    (∃ i, t.first (fun x => x.state = .UNUSED) = some i ∧ r = -1 ∧
      t' = { t with proc := Function.update t.proc i Proc.zero, nextpid := t.nextpid + 1 }) ∨
    (∃ i, t.first (fun x => x.state = .UNUSED) = some i ∧ r = t.nextpid ∧
      t' = { t with
        proc := Function.update t.proc i ({ t.proc i with pid := t.nextpid, parent := some p, state := .RUNNABLE })
        nextpid := t.nextpid + 1 }) := by
  unfold fork at h
  rcases hal : allocproc t mem with ⟨r₁, t₁⟩
  rw [hal] at h
  rcases allocproc_cases hal with ⟨rfl, rfl⟩ | ⟨i, hi, -, rfl, rfl⟩ | ⟨i, hi, -, rfl, rfl⟩
  · cases h
    exact .inl ⟨rfl, rfl⟩
  · cases h
    exact .inr (.inl ⟨i, hi, rfl, rfl⟩)
  · dsimp only at h
    split at h
    · -- `uvmcopy` failed: `freeproc(np)` zeroes the slot again
      cases h
      refine .inr (.inl ⟨i, hi, rfl, ?_⟩)
      simp [freeproc, Procs.set, Function.update_idem]
    · cases h
      refine .inr (.inr ⟨i, hi, by simp, ?_⟩)
      simp [Procs.set, Function.update_idem]

/-- `fork` with a free slot and its memory: the first free slot is the child. -/
theorem fork_of_first {c : Fin NPROC} (hc : t.first (fun x => x.state = .UNUSED) = some c) :
    fork t p true true = (t.nextpid, { t with
      proc := Function.update t.proc c ({ t.proc c with pid := t.nextpid, parent := some p, state := .RUNNABLE })
      nextpid := t.nextpid + 1 }) := by
  unfold fork allocproc
  rw [hc]
  simp [allocpid, Procs.set, Function.update_idem]

/-- Everything `kill` can do: find no slot with the pid, or mark the
first one killed and wake it from `SLEEPING`. -/
theorem kill_cases {pid r : Int} (h : kill t pid = (r, t')) :
    (r = -1 ∧ t' = t ∧ ∀ i, (t.proc i).pid ≠ pid) ∨
    (∃ i, t.first (fun x => x.pid = pid) = some i ∧ r = 0 ∧
      t' = t.set i { t.proc i with
        killed := true
        state := if (t.proc i).state = .SLEEPING then .RUNNABLE else (t.proc i).state }) := by
  unfold kill at h
  split at h
  · next hnone =>
      cases h
      exact .inl ⟨rfl, rfl, fun i => by simpa using first_none hnone i⟩
  · next i hi =>
      cases h
      exact .inr ⟨i, hi, rfl, rfl⟩

-- ============================================================ exit

@[simp] theorem reparent_nextpid : (reparent t p).nextpid = t.nextpid := by
  unfold reparent
  split <;> rfl

@[simp] theorem reparent_initproc : (reparent t p).initproc = t.initproc := by
  unfold reparent
  split <;> rfl

/-- `reparent` changes the parents of `p`'s children, and wakes a
sleeper on `initproc`'s channel when there was a child. -/
theorem reparent_proc (i : Fin NPROC) :
    (reparent t p).proc i =
      { t.proc i with
        parent := if (t.proc i).parent = some p then some t.initproc else (t.proc i).parent
        state := if hasKids t p = true ∧ i ≠ p ∧ (t.proc i).state = .SLEEPING ∧
            (t.proc i).chan = some (.proc t.initproc) then .RUNNABLE else (t.proc i).state } := by
  unfold reparent
  by_cases hk : hasKids t p = true
  · simp only [hk, if_true, wakeup_proc, true_and]
    split_ifs <;> rfl
  · simp only [hk, Bool.false_eq_true, if_false, false_and]
    split_ifs <;> rfl

/-- Whether `exit` by `p` wakes a sleeper on channel `c`: `initproc`'s
when there are children to hand over, and the parent's. -/
def exitWakes (t : Procs) (p : Fin NPROC) (c : Chan) : Bool :=
  (hasKids t p && c == .proc t.initproc) || ((reparent t p).proc p).parent.map Chan.proc == some c

/-- `exit`'s table: `reparent`, `wakeup(p->parent)`, then the zombie. -/
@[grind] def exited (t : Procs) (p : Fin NPROC) (status : Int) : Procs :=
  let t₁ := reparent t p
  let t₂ := match (t₁.proc p).parent with
    | some q => wakeup t₁ p (.proc q)
    | none => t₁
  t₂.set p { t₂.proc p with xstate := status, state := .ZOMBIE }

theorem exit_eq_ok {status : Int} (h : Xv6.exit t p status = .ok t') :
    p ≠ t.initproc ∧ t' = exited t p status := by
  unfold Xv6.exit at h
  split at h
  · cases h
  · next hp =>
      cases h
      exact ⟨hp, rfl⟩

@[simp] theorem exited_nextpid {status : Int} : (exited t p status).nextpid = t.nextpid := by
  unfold exited
  dsimp only
  split <;> simp

@[simp] theorem exited_initproc {status : Int} : (exited t p status).initproc = t.initproc := by
  unfold exited
  dsimp only
  split <;> simp

/-- `exit`'s own slot: the status and `ZOMBIE`, its parent as
`reparent` leaves it. -/
theorem exited_proc_self {status : Int} :
    (exited t p status).proc p =
      { t.proc p with
        parent := if (t.proc p).parent = some p then some t.initproc else (t.proc p).parent
        xstate := status
        state := .ZOMBIE } := by
  unfold exited
  dsimp only
  split <;> simp only [set_proc_self, wakeup_proc, reparent_proc]
  all_goals split_ifs <;> rfl

/-- Every other slot: the parent as `reparent` leaves it, and
`RUNNABLE` for a sleeper on a channel `exit` wakes. -/
theorem exited_proc_of_ne {status : Int} (hi : i ≠ p) :
    (exited t p status).proc i =
      { t.proc i with
        parent := if (t.proc i).parent = some p then some t.initproc else (t.proc i).parent
        state := if (t.proc i).state = .SLEEPING ∧ (t.proc i).chan.any (exitWakes t p) = true then
          .RUNNABLE else (t.proc i).state } := by
  unfold exited exitWakes
  dsimp only
  rw [set_proc_of_ne _ hi]
  split
  · next q hq =>
      rw [wakeup_proc, reparent_proc]
      simp only [hq]
      -- a sleeper is woken by either wakeup when its channel is that wakeup's
      rcases hc : (t.proc i).chan with _ | c
      · simp_all
      · by_cases hs : (t.proc i).state = .SLEEPING
        · by_cases hci : c = .proc t.initproc <;> by_cases hcq : c = .proc q <;>
            by_cases hk : hasKids t p = true <;> simp_all [@eq_comm _ (Chan.proc q) c, @eq_comm _ q t.initproc]
        · simp_all
  · next hq =>
      rw [reparent_proc]
      simp only [hq]
      rcases hc : (t.proc i).chan with _ | c <;> by_cases hs : (t.proc i).state = .SLEEPING <;>
        by_cases hk : hasKids t p = true <;> simp_all

-- ============================================================ wait

/-- Everything a pass of `wait` can do: reap the first zombie child,
return `-1` with nothing changed (the copy of its status failed, there
is no child, or the caller is killed), or sleep on its own slot. -/
theorem wait_cases {addr : Nat} {copyout : Bool} {w : WaitTurn}
    (h : Xv6.wait t p addr copyout = (w, t')) :
    (∃ np, t.first (fun x => x.parent = some p ∧ x.state = .ZOMBIE) = some np ∧
      w = .reaped (t.proc np).pid (t.proc np).xstate ∧ t' = freeproc t np) ∨
    (w = .ret (-1) ∧ t' = t ∧
      ((∃ np, t.first (fun x => x.parent = some p ∧ x.state = .ZOMBIE) = some np ∧
          addr ≠ 0 ∧ copyout = false) ∨
        (t.first (fun x => x.parent = some p ∧ x.state = .ZOMBIE) = none ∧
          (hasKids t p = false ∨ (t.proc p).killed = true)))) ∨
    (w = .sleep ∧ t.first (fun x => x.parent = some p ∧ x.state = .ZOMBIE) = none ∧
      hasKids t p = true ∧ (t.proc p).killed = false ∧ t' = sleep t p (.proc p)) := by
  unfold Xv6.wait at h
  split at h
  · next np hnp =>
      split_ifs at h with hc
      · cases h
        exact .inr (.inl ⟨rfl, rfl, .inl ⟨np, hnp, hc⟩⟩)
      · cases h
        exact .inl ⟨np, hnp, rfl, rfl⟩
  · next hnone =>
      split_ifs at h with hk
      · cases h
        exact .inr (.inl ⟨rfl, rfl, .inr ⟨hnone, hk⟩⟩)
      · cases h
        simp only [not_or, Bool.not_eq_true, Bool.not_eq_false] at hk
        exact .inr (.inr ⟨rfl, hnone, hk.1, hk.2, rfl⟩)

@[simp] theorem sleep_nextpid (c : Chan) : (sleep t p c).nextpid = t.nextpid := rfl
@[simp] theorem sleep_initproc (c : Chan) : (sleep t p c).initproc = t.initproc := rfl

end Xv6
