import Xv6.Proc.Proofs.Pid

/-!
The process lifecycle: parents, zombies and the wakeups of `wait`.

`LifeInv` holds between any two steps of any run (`lifeInv_reach`).
Its parts carry one another:

* every process in use but `initproc` has a parent in use, and a
  `ZOMBIE` has no children: `exit` hands its children to `initproc`
  before it becomes a zombie, so the child `wait` frees leaves no
  orphan behind;
* `initproc` has no parent and never exits, so handing children to it
  keeps them parented;
* a process asleep on its own slot has no zombie child: `wait` sleeps
  only when it found none, and `exit` wakes both channels a new
  zombie child can appear under, the parent's and `initproc`'s;
* the ghost lists: every pid exits once, every reaped pid exited and
  is reaped once, and a zombie's pid and status are those of its exit.

A zombie is reaped only by a pass of its parent's `wait`, which
returns its pid and the status its `exit` stored, and frees the slot;
as the slot is `UNUSED` after, no zombie is reaped twice
(`proc_lifecycle`).
-/

namespace Xv6

open Procs

/-- What every reachable state keeps of the lifecycle. -/
structure LifeInv (s : ProcSys) : Prop where
  pid : PidInv s.t
  unused_parent : ∀ i, (s.t.proc i).state = .UNUSED → (s.t.proc i).parent = none
  no_used : ∀ i, (s.t.proc i).state ≠ .USED
  init_live : (s.t.proc s.t.initproc).state ≠ .UNUSED ∧ (s.t.proc s.t.initproc).state ≠ .ZOMBIE
  init_orphan : (s.t.proc s.t.initproc).parent = none
  parent_ne : ∀ i, (s.t.proc i).parent ≠ some i
  parent_live : ∀ i, i ≠ s.t.initproc → (s.t.proc i).state ≠ .UNUSED →
    ∃ q, (s.t.proc i).parent = some q ∧ (s.t.proc q).state ≠ .UNUSED
  zombie_childless : ∀ i j, (s.t.proc j).parent = some i → (s.t.proc i).state ≠ .ZOMBIE
  woken : ∀ i, (s.t.proc i).state = .SLEEPING → (s.t.proc i).chan = some (.proc i) →
    ∀ j, (s.t.proc j).parent = some i → (s.t.proc j).state ≠ .ZOMBIE
  exits_nodup : (s.exits.map Prod.fst).Nodup
  exits_lt : ∀ e ∈ s.exits, e.1 < s.t.nextpid
  reaps_sub : ∀ e ∈ s.reaps, e ∈ s.exits
  reaps_nodup : (s.reaps.map Prod.fst).Nodup
  zombie_exit : ∀ i, (s.t.proc i).state = .ZOMBIE →
    ((s.t.proc i).pid, (s.t.proc i).xstate) ∈ s.exits ∧ (s.t.proc i).pid ∉ s.reaps.map Prod.fst
  live_fresh : ∀ i, (s.t.proc i).state ≠ .UNUSED → (s.t.proc i).state ≠ .ZOMBIE →
    (s.t.proc i).pid ∉ s.exits.map Prod.fst

variable {s : ProcSys} {t' : Procs} {i j p : Fin NPROC}

/-- Appending an entry whose key is new keeps the keys of a ghost list
distinct. -/
theorem nodup_fst_append {l : List (Int × Int)} {k v : Int} (hl : (l.map Prod.fst).Nodup)
    (hk : k ∉ l.map Prod.fst) : ((l ++ [(k, v)]).map Prod.fst).Nodup := by
  rw [List.map_append, List.nodup_append]
  refine ⟨hl, by simp, ?_⟩
  intro a ha b hb
  simp only [List.map_cons, List.map_nil, List.mem_singleton] at hb
  subst hb
  exact fun he => hk (he ▸ ha)

theorem not_mem_fst_append {l : List (Int × Int)} {a k v : Int} (hl : a ∉ l.map Prod.fst) (hk : a ≠ k) :
    a ∉ (l ++ [(k, v)]).map Prod.fst := by
  simp [hk, hl]

namespace LifeInv

/-- A process that runs is in use and no zombie. -/
theorem runs_live (h : ProcSys.runs s.t p = true) :
    (s.t.proc p).state ≠ .UNUSED ∧ (s.t.proc p).state ≠ .ZOMBIE := by
  simp only [ProcSys.runs, decide_eq_true_eq] at h
  rcases h with h | h <;> rw [h] <;> simp

/-- A step that keeps the pids and parents, the statuses of the
zombies, which slots are free and which are zombies, and leaves no
sleeper on its own slot with a zombie child, keeps the invariant, with
the same ghost lists. -/
theorem of_frame (h : LifeInv s) (hpid : PidInv t') (hn : s.t.nextpid ≤ t'.nextpid)
    (hinit : t'.initproc = s.t.initproc)
    (hfix : ∀ i, (t'.proc i).pid = (s.t.proc i).pid ∧ (t'.proc i).parent = (s.t.proc i).parent)
    (hx : ∀ i, (s.t.proc i).state = .ZOMBIE → (t'.proc i).xstate = (s.t.proc i).xstate)
    (hu : ∀ i, (t'.proc i).state = .UNUSED ↔ (s.t.proc i).state = .UNUSED)
    (hz : ∀ i, (t'.proc i).state = .ZOMBIE ↔ (s.t.proc i).state = .ZOMBIE)
    (hused : ∀ i, (t'.proc i).state ≠ .USED)
    (hwoken : ∀ i, (t'.proc i).state = .SLEEPING → (t'.proc i).chan = some (.proc i) →
      ∀ j, (s.t.proc j).parent = some i → (s.t.proc j).state ≠ .ZOMBIE) :
    LifeInv ⟨t', s.exits, s.reaps⟩ where
  pid := hpid
  unused_parent i hi := (hfix i).2.trans (h.unused_parent i ((hu i).mp hi))
  no_used := hused
  init_live := by
    dsimp only
    rw [hinit]
    exact ⟨fun h' => h.init_live.1 ((hu _).mp h'), fun h' => h.init_live.2 ((hz _).mp h')⟩
  init_orphan := by
    dsimp only
    rw [hinit]
    exact (hfix _).2.trans h.init_orphan
  parent_ne i := (hfix i).2 ▸ h.parent_ne i
  parent_live i hi hu' := by
    dsimp only at hi hu' ⊢
    rw [hinit] at hi
    obtain ⟨q, hq, hlive⟩ := h.parent_live i hi fun h' => hu' ((hu i).mpr h')
    exact ⟨q, (hfix i).2.trans hq, fun h' => hlive ((hu q).mp h')⟩
  zombie_childless i j hj hzi := h.zombie_childless i j ((hfix j).2 ▸ hj) ((hz i).mp hzi)
  woken i hs hc j hj hzj := hwoken i hs hc j ((hfix j).2 ▸ hj) ((hz j).mp hzj)
  exits_nodup := h.exits_nodup
  exits_lt e he := Int.lt_of_lt_of_le (h.exits_lt e he) hn
  reaps_sub := h.reaps_sub
  reaps_nodup := h.reaps_nodup
  zombie_exit i hi := by
    dsimp only at hi ⊢
    have hzi := (hz i).mp hi
    rw [(hfix i).1, hx i hzi]
    exact h.zombie_exit i hzi
  live_fresh i hu' hz' := by
    dsimp only at hu' hz' ⊢
    rw [(hfix i).1]
    exact h.live_fresh i (fun h' => hu' ((hu i).mpr h')) (fun h' => hz' ((hz i).mpr h'))

/-- The lost-wakeup part of `of_frame` for a step that puts no process
to sleep on its own slot. -/
theorem woken_of_sleeping (h : LifeInv s)
    (hsleep : ∀ i, (t'.proc i).state = .SLEEPING → (t'.proc i).chan = some (.proc i) →
      (s.t.proc i).state = .SLEEPING ∧ (s.t.proc i).chan = some (.proc i)) :
    ∀ i, (t'.proc i).state = .SLEEPING → (t'.proc i).chan = some (.proc i) →
      ∀ j, (s.t.proc j).parent = some i → (s.t.proc j).state ≠ .ZOMBIE := fun i hs hc => by
  obtain ⟨hs', hc'⟩ := hsleep i hs hc
  exact h.woken i hs' hc'

/-- `wakeup` only wakes. -/
theorem wakeup (h : LifeInv s) (c : Chan) : LifeInv ⟨Xv6.wakeup s.t p c, s.exits, s.reaps⟩ := by
  have hst := wakeup_state (t := s.t) (p := p) c
  refine h.of_frame (h.pid.wakeup c) le_rfl rfl (fun i => ?_) (fun i _ => ?_) (fun i => ?_)
    (fun i => ?_) (fun i => ?_) (h.woken_of_sleeping fun i hs hc => ?_)
  · rw [wakeup_proc_eq]
    exact ⟨rfl, rfl⟩
  · rw [wakeup_proc_eq]
  · rw [hst]
    split_ifs with hs
    · simp [hs.2.1]
    · rfl
  · rw [hst]
    split_ifs with hs
    · simp [hs.2.1]
    · rfl
  · rw [hst]
    split_ifs with hs
    · simp
    · exact h.no_used i
  · rw [hst] at hs
    rw [wakeup_proc_eq] at hc
    split_ifs at hs with hw
    · exact ⟨hs, hc⟩

/-- `kill` marks one slot and may wake it. -/
theorem kill (h : LifeInv s) (pid : Int) : LifeInv ⟨(Xv6.kill s.t pid).2, s.exits, s.reaps⟩ := by
  rcases hk : Xv6.kill s.t pid with ⟨r, t'⟩
  have hpid := h.pid.kill pid
  rw [hk] at hpid
  rcases kill_cases hk with ⟨-, rfl, -⟩ | ⟨c, -, -, rfl⟩
  · exact h
  · refine h.of_frame hpid le_rfl rfl (fun i => ?_) (fun i _ => ?_) (fun i => ?_) (fun i => ?_)
      (fun i => ?_) (h.woken_of_sleeping fun i hs hcn => ?_) <;> by_cases hi : i = c
    · subst hi
      simp
    · simp [set_proc_of_ne _ hi]
    · subst hi
      simp
    · simp [set_proc_of_ne _ hi]
    · subst hi
      simp only [set_proc_self]
      split_ifs with hs <;> simp [hs]
    · simp [set_proc_of_ne _ hi]
    · subst hi
      simp only [set_proc_self]
      split_ifs with hs <;> simp [hs]
    · simp [set_proc_of_ne _ hi]
    · subst hi
      simp only [set_proc_self]
      split_ifs with hs
      · simp
      · exact h.no_used i
    · rw [set_proc_of_ne _ hi]
      exact h.no_used i
    · subst hi
      simp only [set_proc_self] at hs hcn
      split_ifs at hs with hs'
      · exact ⟨hs, hcn⟩
    · rw [set_proc_of_ne _ hi] at hs hcn
      exact ⟨hs, hcn⟩

/-- `sleep` of a running process on `c`; on its own slot only when it
has no zombie child, which `wait` checks under `wait_lock`. -/
theorem sleep (h : LifeInv s) (hr : ProcSys.runs s.t p = true) (c : Chan)
    (hc : c = .proc p → ∀ j, (s.t.proc j).parent = some p → (s.t.proc j).state ≠ .ZOMBIE) :
    LifeInv ⟨Xv6.sleep s.t p c, s.exits, s.reaps⟩ := by
  have hlive := runs_live hr
  refine h.of_frame (h.pid.of_set hlive.1 (by simp) rfl) le_rfl rfl (fun i => ?_) (fun i _ => ?_)
    (fun i => ?_) (fun i => ?_) (fun i => ?_) (fun i hs hcn => ?_) <;> by_cases hi : i = p
  · subst hi
    simp [Xv6.sleep]
  · simp [Xv6.sleep, set_proc_of_ne _ hi]
  · subst hi
    simp [Xv6.sleep]
  · simp [Xv6.sleep, set_proc_of_ne _ hi]
  · subst hi
    simp [Xv6.sleep, hlive.1]
  · simp [Xv6.sleep, set_proc_of_ne _ hi]
  · subst hi
    simp [Xv6.sleep, hlive.2]
  · simp [Xv6.sleep, set_proc_of_ne _ hi]
  · subst hi
    simp [Xv6.sleep]
  · simp only [Xv6.sleep, set_proc_of_ne _ hi]
    exact h.no_used i
  · -- the new sleeper: its channel is its own slot only in `wait`
    subst hi
    simp only [Xv6.sleep, set_proc_self, Option.some.injEq] at hcn
    exact hc hcn
  · simp only [Xv6.sleep, set_proc_of_ne _ hi] at hs hcn
    exact h.woken i hs hcn

/-- `fork`: nothing, a pid spent on a slot zeroed again, or the first
free slot becomes a runnable child of the caller. -/
theorem fork (h : LifeInv s) (hr : ProcSys.runs s.t p = true) {mem copy : Bool} :
    LifeInv ⟨(Xv6.fork s.t p mem copy).2, s.exits, s.reaps⟩ := by
  have hlive := runs_live hr
  rcases hf : Xv6.fork s.t p mem copy with ⟨r, t'⟩
  have hpid : PidInv (Xv6.fork s.t p mem copy).2 := h.pid.fork
  rw [hf] at hpid
  rcases fork_cases hf with ⟨-, rfl⟩ | ⟨c, hc, -, rfl⟩ | ⟨c, hc, -, rfl⟩
  · exact h
  · -- the zeroed slot was free, and is free again
    have huc : (s.t.proc c).state = .UNUSED := by simpa using first_some hc
    refine h.of_frame hpid (show s.t.nextpid ≤ s.t.nextpid + 1 by omega) rfl (fun i => ?_)
      (fun i _ => ?_) (fun i => ?_) (fun i => ?_) (fun i => ?_)
      (h.woken_of_sleeping fun i hs hcn => ?_) <;> by_cases hi : i = c
    · subst hi
      simp [Proc.zero, h.pid.unused i huc, h.unused_parent i huc]
    · simp [Function.update_of_ne hi]
    · subst hi
      simp_all
    · simp [Function.update_of_ne hi]
    · subst hi
      simp [huc, Proc.zero]
    · simp [Function.update_of_ne hi]
    · subst hi
      simp [huc, Proc.zero]
    · simp [Function.update_of_ne hi]
    · subst hi
      simp [Proc.zero]
    · simp only [Function.update_of_ne hi]
      exact h.no_used i
    · subst hi
      simp [Proc.zero] at hs
    · simp only [Function.update_of_ne hi] at hs hcn
      exact ⟨hs, hcn⟩
  · -- the child: slot `c`, free before, with parent `p`
    have huc : (s.t.proc c).state = .UNUSED := by simpa using first_some hc
    have hpc : p ≠ c := fun he => hlive.1 (he ▸ huc)
    have hinit : s.t.initproc ≠ c := fun he => h.init_live.1 (he ▸ huc)
    refine ⟨hpid, fun j hj => ?_, fun j => ?_, ?_, ?_, fun j => ?_, fun j hj hu => ?_,
      fun i j hj => ?_, fun i hs hcn j hj => ?_, h.exits_nodup, fun e he => ?_, h.reaps_sub,
      h.reaps_nodup, fun i hi => ?_, fun i hu hz => ?_⟩ <;> dsimp only at *
    · by_cases hjc : j = c
      · subst hjc
        simp at hj
      · rw [Function.update_of_ne hjc] at hj ⊢
        exact h.unused_parent j hj
    · by_cases hjc : j = c
      · subst hjc
        simp
      · rw [Function.update_of_ne hjc]
        exact h.no_used j
    · rw [Function.update_of_ne hinit]
      exact h.init_live
    · rw [Function.update_of_ne hinit]
      exact h.init_orphan
    · by_cases hjc : j = c
      · subst hjc
        simpa using hpc
      · rw [Function.update_of_ne hjc]
        exact h.parent_ne j
    · by_cases hjc : j = c
      · subst hjc
        refine ⟨p, by simp, ?_⟩
        rw [Function.update_of_ne hpc]
        exact hlive.1
      · rw [Function.update_of_ne hjc] at hu ⊢
        obtain ⟨q, hq, hq'⟩ := h.parent_live j hj hu
        refine ⟨q, hq, ?_⟩
        by_cases hqc : q = c
        · subst hqc
          simp
        · rwa [Function.update_of_ne hqc]
    · by_cases hic : i = c
      · subst hic
        simp
      · rw [Function.update_of_ne hic]
        by_cases hjc : j = c
        · subst hjc
          simp only [Function.update_self, Option.some.injEq] at hj
          subst hj
          exact hlive.2
        · rw [Function.update_of_ne hjc] at hj
          exact h.zombie_childless i j hj
    · by_cases hic : i = c
      · subst hic
        simp at hs
      · rw [Function.update_of_ne hic] at hs hcn
        by_cases hjc : j = c
        · subst hjc
          simp
        · rw [Function.update_of_ne hjc] at hj ⊢
          exact h.woken i hs hcn j hj
    · have := h.exits_lt e he
      omega
    · by_cases hic : i = c
      · subst hic
        simp at hi
      · rw [Function.update_of_ne hic] at hi ⊢
        exact h.zombie_exit i hi
    · by_cases hic : i = c
      · -- the child's pid is `nextpid`, above every pid that exited
        subst hic
        simp only [Function.update_self, List.mem_map, not_exists, not_and]
        intro e he hpe
        have := h.exits_lt e he
        omega
      · rw [Function.update_of_ne hic] at hu hz ⊢
        exact h.live_fresh i hu hz

/-- A process that runs and is not `initproc` exits. -/
theorem exit (h : LifeInv s) (hr : ProcSys.runs s.t p = true) (hp : p ≠ s.t.initproc) {status : Int} :
    LifeInv ⟨exited s.t p status, s.exits ++ [((s.t.proc p).pid, status)], s.reaps⟩ := by
  have hlive := runs_live hr
  have hpp : (s.t.proc p).parent ≠ some p := h.parent_ne p
  -- `exit` leaves every other slot's state as it was, or wakes a sleeper
  have hw : ∀ j, j ≠ p → ((exited s.t p status).proc j).state = (s.t.proc j).state ∨
      ((s.t.proc j).state = .SLEEPING ∧ ((exited s.t p status).proc j).state = .RUNNABLE) := fun j hj => by
    rw [exited_proc_of_ne hj]
    dsimp only
    split_ifs with hs
    · exact .inr ⟨hs.1, rfl⟩
    · exact .inl rfl
  have hkeep : ∀ j, j ≠ p → (s.t.proc j).state ≠ .SLEEPING →
      ((exited s.t p status).proc j).state = (s.t.proc j).state := fun j hj hs => by
    rcases hw j hj with h' | ⟨h', -⟩
    · exact h'
    · exact absurd h' hs
  have hu : ∀ j, ((exited s.t p status).proc j).state = .UNUSED → (s.t.proc j).state = .UNUSED := by
    intro j hj
    by_cases hjp : j = p
    · subst hjp
      simp [exited_proc_self] at hj
    · rcases hw j hjp with h' | ⟨-, h'⟩ <;> rw [h'] at hj
      · exact hj
      · cases hj
  have hz : ∀ j, j ≠ p → ((exited s.t p status).proc j).state = .ZOMBIE → (s.t.proc j).state = .ZOMBIE := by
    intro j hjp hj
    rcases hw j hjp with h' | ⟨-, h'⟩ <;> rw [h'] at hj
    · exact hj
    · cases hj
  have hparent : ∀ j, ((exited s.t p status).proc j).parent =
      if (s.t.proc j).parent = some p then some s.t.initproc else (s.t.proc j).parent := fun j => by
    by_cases hjp : j = p
    · subst hjp
      rw [exited_proc_self]
    · rw [exited_proc_of_ne hjp]
  have hpid : ∀ j, ((exited s.t p status).proc j).pid = (s.t.proc j).pid := fun j => by
    by_cases hjp : j = p
    · subst hjp
      rw [exited_proc_self]
    · rw [exited_proc_of_ne hjp]
  have hpfresh := h.live_fresh p hlive.1 hlive.2
  refine ⟨h.pid.exit hlive.1, fun j hj => ?_, fun j => ?_, ?_, ?_, fun j => ?_, fun j hj hu' => ?_,
    fun i j hj => ?_, fun i hs hcn j hj => ?_, ?_, fun e he => ?_, fun e he => ?_, h.reaps_nodup,
    fun i hi => ?_, fun i hu' hz' => ?_⟩ <;> dsimp only at *
  · rw [hparent, h.unused_parent j (hu j hj)]
    rfl
  · by_cases hjp : j = p
    · subst hjp
      simp [exited_proc_self]
    · rcases hw j hjp with h' | ⟨-, h'⟩ <;> rw [h']
      · exact h.no_used j
      · simp
  · rw [exited_initproc]
    rcases hw _ (Ne.symm hp) with h' | ⟨-, h'⟩ <;> rw [h']
    · exact h.init_live
    · simp
  · rw [exited_initproc, hparent, h.init_orphan]
    rfl
  · rw [hparent]
    split_ifs with hjp
    · -- a child of `p` is not `initproc`, which has no parent
      intro he
      cases he
      rw [h.init_orphan] at hjp
      cases hjp
    · exact h.parent_ne j
  · rw [exited_initproc] at hj
    rw [hparent]
    have hu'' : (s.t.proc j).state ≠ .UNUSED := fun h' => by
      by_cases hjp : j = p
      · subst hjp
        exact hlive.1 h'
      · exact hu' (by rw [hkeep j hjp (by rw [h']; simp), h'])
    obtain ⟨q, hq, hq'⟩ := h.parent_live j hj hu''
    rw [hq]
    split_ifs with hqp
    · -- handed to `initproc`
      refine ⟨s.t.initproc, rfl, fun h' => h.init_live.1 (hu _ h')⟩
    · exact ⟨q, rfl, fun h' => hq' (hu q h')⟩
  · rw [hparent] at hj
    by_cases hip : i = p
    · subst hip
      split_ifs at hj with hjp
      · cases hj
        exact absurd rfl hp
      · exact absurd hj hjp
    · intro hzi
      have hzi' := hz i hip hzi
      split_ifs at hj with hjp
      · cases hj
        exact h.init_live.2 hzi'
      · exact h.zombie_childless i j hj hzi'
  · -- a sleeper on its own slot that `exit` left asleep gets no zombie child
    have hip : i ≠ p := fun he => by
      subst he
      simp [exited_proc_self] at hs
    rw [exited_proc_of_ne hip] at hs hcn
    dsimp only at hs hcn
    split_ifs at hs with hwake
    have hno : exitWakes s.t p (.proc i) = false := by
      rw [hcn] at hwake
      simpa [hs] using hwake
    rw [hparent] at hj
    intro hzj
    by_cases hjp : j = p
    · subst hjp
      rw [if_neg hpp] at hj
      have : exitWakes s.t j (.proc i) = true := by
        simp [exitWakes, reparent_proc, hj, hip]
      rw [hno] at this
      cases this
    · have hzj' := hz j hjp hzj
      split_ifs at hj with hjc
      · cases hj
        have hk : hasKids s.t p = true := hasKids_iff.mpr ⟨j, hjc⟩
        have : exitWakes s.t p (.proc s.t.initproc) = true := by
          simp [exitWakes, hk]
        rw [hno] at this
        cases this
      · exact h.woken i hs hcn j hj hzj'
  · exact nodup_fst_append h.exits_nodup hpfresh
  · rw [exited_nextpid]
    rcases List.mem_append.mp he with he | he
    · exact h.exits_lt e he
    · simp only [List.mem_singleton] at he
      subst he
      exact (h.pid.pid_pos p hlive.1).2
  · exact List.mem_append_left _ (h.reaps_sub e he)
  · by_cases hip : i = p
    · subst hip
      rw [exited_proc_self]
      refine ⟨List.mem_append_right _ (List.mem_singleton_self _), fun hm => hpfresh ?_⟩
      obtain ⟨e, he, hpe⟩ := List.mem_map.mp hm
      exact List.mem_map.mpr ⟨e, h.reaps_sub e he, hpe⟩
    · have hzi := hz i hip hi
      rw [exited_proc_of_ne hip]
      exact ⟨List.mem_append_left _ (h.zombie_exit i hzi).1, (h.zombie_exit i hzi).2⟩
  · have hip : i ≠ p := fun he => by
      subst he
      simp [exited_proc_self] at hz'
    have hu'' : (s.t.proc i).state ≠ .UNUSED := fun h' =>
      hu' (by rw [hkeep i hip (by rw [h']; simp), h'])
    have hz'' : (s.t.proc i).state ≠ .ZOMBIE := fun h' =>
      hz' (by rw [hkeep i hip (by rw [h']; simp), h'])
    rw [hpid]
    exact not_mem_fst_append (h.live_fresh i hu'' hz'') fun he => hip (h.pid.pid_inj i p hu'' hlive.1 he)

/-- A pass of `wait` by `p` that frees its first zombie child `np`. -/
theorem reap (h : LifeInv s) {np : Fin NPROC}
    (hnp : s.t.first (fun x => x.parent = some p ∧ x.state = .ZOMBIE) = some np) :
    LifeInv ⟨freeproc s.t np, s.exits, s.reaps ++ [((s.t.proc np).pid, (s.t.proc np).xstate)]⟩ := by
  have hz : (s.t.proc np).parent = some p ∧ (s.t.proc np).state = .ZOMBIE := by simpa using first_some hnp
  have hnu : (s.t.proc np).state ≠ .UNUSED := by
    rw [hz.2]
    simp
  have hinit : s.t.initproc ≠ np := fun he => h.init_live.2 (he ▸ hz.2)
  -- a zombie has no children, so freeing it orphans nobody
  have hkids : ∀ j, (s.t.proc j).parent ≠ some np := fun j hj => h.zombie_childless np j hj hz.2
  -- every slot still in use is another one
  have hne : ∀ i, ((freeproc s.t np).proc i).state ≠ .UNUSED → i ≠ np := fun i hi he => by
    subst he
    simp [Proc.zero] at hi
  obtain ⟨hex, hre⟩ := h.zombie_exit np hz.2
  refine ⟨h.pid.freeproc np, fun j hj => ?_, fun j => ?_, ?_, ?_, fun j => ?_, fun j hj hu => ?_,
    fun i j hj => ?_, fun i hs hcn j hj => ?_, h.exits_nodup, h.exits_lt, fun e he => ?_, ?_,
    fun i hi => ?_, fun i hu hz' => ?_⟩ <;> dsimp only at *
  · by_cases hjn : j = np
    · subst hjn
      simp [Proc.zero]
    · rw [freeproc_proc_of_ne hjn] at hj ⊢
      exact h.unused_parent j hj
  · by_cases hjn : j = np
    · subst hjn
      simp [Proc.zero]
    · rw [freeproc_proc_of_ne hjn]
      exact h.no_used j
  · rw [freeproc_initproc, freeproc_proc_of_ne hinit]
    exact h.init_live
  · rw [freeproc_initproc, freeproc_proc_of_ne hinit]
    exact h.init_orphan
  · by_cases hjn : j = np
    · subst hjn
      simp [Proc.zero]
    · rw [freeproc_proc_of_ne hjn]
      exact h.parent_ne j
  · rw [freeproc_initproc] at hj
    have hjn := hne j hu
    rw [freeproc_proc_of_ne hjn] at hu ⊢
    obtain ⟨q, hq, hq'⟩ := h.parent_live j hj hu
    have hqn : q ≠ np := fun he => hkids j (he ▸ hq)
    refine ⟨q, hq, ?_⟩
    rwa [freeproc_proc_of_ne hqn]
  · by_cases hjn : j = np
    · subst hjn
      simp [Proc.zero] at hj
    · rw [freeproc_proc_of_ne hjn] at hj
      by_cases hin : i = np
      · subst hin
        simp [Proc.zero]
      · rw [freeproc_proc_of_ne hin]
        exact h.zombie_childless i j hj
  · have hin := hne i (by rw [hs]; simp)
    have hjn : j ≠ np := fun he => by
      subst he
      simp [Proc.zero] at hj
    rw [freeproc_proc_of_ne hin] at hs hcn
    rw [freeproc_proc_of_ne hjn] at hj ⊢
    exact h.woken i hs hcn j hj
  · rcases List.mem_append.mp he with he | he
    · exact h.reaps_sub e he
    · simp only [List.mem_singleton] at he
      subst he
      exact hex
  · exact nodup_fst_append h.reaps_nodup hre
  · have hin := hne i (by rw [hi]; simp)
    rw [freeproc_proc_of_ne hin] at hi ⊢
    obtain ⟨hx, hr⟩ := h.zombie_exit i hi
    -- two zombies in use have different pids
    have hiu : (s.t.proc i).state ≠ .UNUSED := by
      rw [hi]
      simp
    exact ⟨hx, not_mem_fst_append hr fun he => hin (h.pid.pid_inj i np hiu hnu he)⟩
  · have hin := hne i hu
    rw [freeproc_proc_of_ne hin] at hu hz' ⊢
    exact h.live_fresh i hu hz'

/-- Every step keeps `LifeInv`. -/
theorem step {s' : ProcSys} {e : ProcEv} (h : LifeInv s) (hs : s.step e = .next s') : LifeInv s' := by
  cases e with
  | fork p mem copy =>
      simp only [ProcSys.step] at hs
      split_ifs at hs with hr
      cases hs
      exact h.fork hr
  | exit p status =>
      simp only [ProcSys.step] at hs
      split_ifs at hs with hr
      split at hs
      · next t' he =>
          cases hs
          obtain ⟨hp, rfl⟩ := exit_eq_ok he
          exact h.exit hr hp
      · cases hs
  | wait p addr copyout =>
      simp only [ProcSys.step] at hs
      split_ifs at hs with hr
      rcases hw : Xv6.wait s.t p addr copyout with ⟨w, t'⟩
      rw [hw] at hs
      rcases wait_cases hw with ⟨np, hnp, rfl, rfl⟩ | ⟨rfl, rfl, -⟩ | ⟨rfl, hnone, -, -, rfl⟩
      · cases hs
        exact h.reap hnp
      · cases hs
        exact h
      · cases hs
        -- the pass found no zombie child, under the same lock as its sleep
        refine h.sleep hr _ fun _ j hj hzj => ?_
        simpa [hj, hzj] using first_none hnone j
  | kill p pid =>
      simp only [ProcSys.step] at hs
      split_ifs at hs
      cases hs
      exact h.kill pid
  | sleep p a =>
      simp only [ProcSys.step] at hs
      split_ifs at hs with hr
      cases hs
      exact h.sleep hr _ (by simp)
  | wakeup p a =>
      simp only [ProcSys.step] at hs
      split_ifs at hs
      cases hs
      exact h.wakeup _

theorem boot : LifeInv ProcSys.boot := by
  refine ⟨PidInv.userinit, ?_, ?_, ?_, ?_, ?_, ?_, ?_, ?_, ?_, ?_, ?_, ?_, ?_, ?_⟩ <;> decide

end LifeInv

/-- The lifecycle invariant holds in every state of every run. -/
theorem lifeInv_reach {s : ProcSys} (h : Relation.ReflTransGen ProcSys.Step ProcSys.boot s) : LifeInv s :=
  Relation.invariant_reach (fun _ _ hi ⟨_, hs⟩ => LifeInv.step hi hs) LifeInv.boot h

end Xv6
