import Xv6.LogCache.System
import Xv6.LogCache.Proofs.Pins
import Xv6.Log.Proofs.Crash

/-!
The log over the buffer cache refines the log system, and the log and
the cache agree on the pinned blocks.

# The abstraction

`Kern.toSys` reads a state of the log system off the combined one: the
control state with each `commit()` statement mapped to its phase
(`Cpc.phase`), the disk, and the cache view as `mem`. In each phase
one statement does the phase's work (the `memmove` with its `bwrite`,
the loop test that leaves the loop, `end_op`'s reset) and is the step
of the log system; every other statement, and every `bread` and
`brelse` of any thread, leaves the image where it was.

The code and the log system order one thing differently: the code
runs `log.lh.n = 0` before the second `write_head` reads its buffer,
the log system runs it with that `write_head`. In between, the image
takes the header from the disk, where it is still the committed one.

# The invariant

`KInv` is the log system's invariant `Inv` on the image, the pin
invariant of `Pins.lean` for the blocks still pinned (`Kern.Pinned`:
the header, less the entries `install_trans(0)` has unpinned), and
`CommitAt`: at each statement of `commit()`, the locals hold, locked,
the buffers of the blocks the statement reads, and the thread waits in
`bread` for the block it asked for.
-/

namespace Xv6

open BioSys

-- ============================================================ the image

namespace Cpc

/-- The phase of `Log/System.lean` a statement belongs to; a phase
ends with the step that does its work. -/
@[grind] def phase : Cpc → Phase
  | .wlTo t | .wlToLock t | .wlFrom t _ | .wlFromLock t _ | .wlCopy t _ _ => .writeLog t
  | .wlRelFrom t _ _ | .wlRelTo t _ => .writeLog (t + 1)
  | .whRead false | .whLock false | .whStore false _ => .writeHead
  | .whRel false _ => .install 0
  | .itL t | .itLLock t | .itD t _ | .itDLock t _ | .itCopy t _ _ => .install t
  | .itUnpin t _ _ | .itRelL t _ _ | .itRelD t _ => .install (t + 1)
  | .erase | .whRead true | .whLock true | .whStore true _ => .clear
  | .whRel true _ | .done => .done

/-- After `log.lh.n = 0` and before the `write_head` that stores the
empty header. -/
def erased : Cpc → Bool
  | .whRead true | .whLock true | .whStore true _ => true
  | _ => false

/-- The entries of the header still pinned: all of them until
`install_trans(0)` unpins them in order. -/
@[grind] def pinned (lh : List Nat) : Cpc → List Nat
  | .itL t | .itLLock t | .itD t _ | .itDLock t _ | .itCopy t _ _ | .itUnpin t _ _ => lh.drop t
  | .itRelL t _ _ | .itRelD t _ => lh.drop (t + 1)
  | .erase => []
  | _ => lh

theorem pinned_sublist (lh : List Nat) (c : Cpc) : List.Sublist (c.pinned lh) lh := by
  cases c <;> simp [pinned, List.drop_sublist]

end Cpc

namespace Tpc

@[grind] def toPc : Tpc → Pc
  | .idle => .idle
  | .inOp w => .inOp w
  | .commit c => .commit c.phase

def erased : Tpc → Bool
  | .commit c => c.erased
  | _ => false

theorem erased_of_ne {q : Tpc} (hq : ∀ c, q ≠ .commit c) : q.erased = false := by
  cases q with
  | commit c => exact absurd rfl (hq c)
  | idle => rfl
  | inOp w => rfl

/-- `end_op` enters `commit()` in the phase `commitEntry` names. -/
theorem toPc_endOp (l : Log) :
    (Tpc.commit (if l.lh.n > 0 then .wlTo 0 else .done)).toPc = .commit (commitEntry l) := by
  unfold commitEntry
  split <;> rfl

end Tpc

namespace Kern

/-- The committing thread has cleared `log.lh` but not yet the header
on disk. -/
def erasing (k : Kern) : Bool := k.ops.any Tpc.erased

/-- The state of the log system the combined state implements. -/
def toSys (k : Kern) : Sys where
  ctl := ⟨if k.erasing then { k.log with lh := headOf (k.bio.disk k.log.start) } else k.log,
    k.ops.map Tpc.toPc⟩
  disk := k.bio.disk
  mem := k.bio.cache.view k.bio.disk

/-- A logged block still pinned. -/
def Pinned (k : Kern) (x : Nat) : Prop :=
  x ∈ k.log.lh.block ∧
    ∀ (i : Nat) (c : Cpc), k.ops[i]? = some (Tpc.commit c) → x ∈ c.pinned k.log.lh.block

/-- No thread is in `commit()`. -/
def Quiet (k : Kern) : Prop := ∀ (i : Nat) (c : Cpc), k.ops[i]? ≠ some (Tpc.commit c)

end Kern

-- ================================================== the locals of commit

/-- What the locals of `commit()` hold at each statement: the buffers
read so far, locked and carrying their blocks, and in the second
`write_head` the cleared header. -/
def CommitAt (l : Log) (s : BioSys) (i : Nat) : Cpc → Prop
  | .wlTo _ => True
  | .wlToLock t => t < l.lh.n ∧ s.Awaits i (l.slot t)
  | .wlFrom t dst => t < l.lh.n ∧ s.Mine i dst (l.slot t)
  | .wlFromLock t dst => t < l.lh.n ∧ s.Mine i dst (l.slot t) ∧ s.Awaits i (l.lh.block.getD t 0)
  | .wlCopy t dst src => t < l.lh.n ∧ s.Mine i dst (l.slot t) ∧ s.Mine i src (l.lh.block.getD t 0)
  | .wlRelFrom t dst src => t < l.lh.n ∧ s.Mine i dst (l.slot t) ∧ s.Mine i src (l.lh.block.getD t 0)
  | .wlRelTo t dst => t < l.lh.n ∧ s.Mine i dst (l.slot t)
  | .whRead e => e = true → l.lh = .empty
  | .whLock e => (e = true → l.lh = .empty) ∧ s.Awaits i l.start
  | .whStore e b => (e = true → l.lh = .empty) ∧ s.Mine i b l.start
  | .whRel e b => (e = true → l.lh = .empty) ∧ s.Mine i b l.start
  | .itL _ => True
  | .itLLock t => t < l.lh.n ∧ s.Awaits i (l.slot t)
  | .itD t lb => t < l.lh.n ∧ s.Mine i lb (l.slot t)
  | .itDLock t lb => t < l.lh.n ∧ s.Mine i lb (l.slot t) ∧ s.Awaits i (l.lh.block.getD t 0)
  | .itCopy t lb db => t < l.lh.n ∧ s.Mine i lb (l.slot t) ∧ s.Mine i db (l.lh.block.getD t 0)
  | .itUnpin t lb db => t < l.lh.n ∧ s.Mine i lb (l.slot t) ∧ s.Mine i db (l.lh.block.getD t 0) ∧
      (s.cache.buf db).data = s.disk (l.lh.block.getD t 0)
  | .itRelL t lb db => t < l.lh.n ∧ s.Mine i lb (l.slot t) ∧ s.Mine i db (l.lh.block.getD t 0)
  | .itRelD t db => t < l.lh.n ∧ s.Mine i db (l.lh.block.getD t 0)
  | .erase => True
  | .done => True

/-- What holds of the locals survives a step that keeps every held
buffer with its bytes, the disk, and every `bread` in progress. -/
theorem CommitAt.mono {l : Log} {s s' : BioSys} {i : Nat}
    (hm : ∀ b x, s.Mine i b x → s'.Mine i b x ∧ (s'.cache.buf b).data = (s.cache.buf b).data)
    (hdisk : s'.disk = s.disk) (ha : ∀ x, s.Awaits i x → s'.Awaits i x) :
    ∀ {c : Cpc}, CommitAt l s i c → CommitAt l s' i c
  | .wlTo _, h => h
  | .wlToLock _, h => ⟨h.1, ha _ h.2⟩
  | .wlFrom _ _, h => ⟨h.1, (hm _ _ h.2).1⟩
  | .wlFromLock _ _, h => ⟨h.1, (hm _ _ h.2.1).1, ha _ h.2.2⟩
  | .wlCopy _ _ _, h => ⟨h.1, (hm _ _ h.2.1).1, (hm _ _ h.2.2).1⟩
  | .wlRelFrom _ _ _, h => ⟨h.1, (hm _ _ h.2.1).1, (hm _ _ h.2.2).1⟩
  | .wlRelTo _ _, h => ⟨h.1, (hm _ _ h.2).1⟩
  | .whRead _, h => h
  | .whLock _, h => ⟨h.1, ha _ h.2⟩
  | .whStore _ _, h => ⟨h.1, (hm _ _ h.2).1⟩
  | .whRel _ _, h => ⟨h.1, (hm _ _ h.2).1⟩
  | .itL _, h => h
  | .itLLock _, h => ⟨h.1, ha _ h.2⟩
  | .itD _ _, h => ⟨h.1, (hm _ _ h.2).1⟩
  | .itDLock _ _, h => ⟨h.1, (hm _ _ h.2.1).1, ha _ h.2.2⟩
  | .itCopy _ _ _, h => ⟨h.1, (hm _ _ h.2.1).1, (hm _ _ h.2.2).1⟩
  | .itUnpin _ _ _, h => ⟨h.1, (hm _ _ h.2.1).1, (hm _ _ h.2.2.1).1,
      by rw [(hm _ _ h.2.2.1).2, hdisk]; exact h.2.2.2⟩
  | .itRelL _ _ _, h => ⟨h.1, (hm _ _ h.2.1).1, (hm _ _ h.2.2).1⟩
  | .itRelD _ _, h => ⟨h.1, (hm _ _ h.2).1⟩
  | .erase, h => h
  | .done, h => h

/-- Another thread's call into the cache leaves the locals of
`commit()`. -/
theorem PinInv.commitAt_step {s s' : BioSys} {P : Nat → Prop} {l : Log} {i : Nat} {a : BioAct}
    {c : Cpc} (h : s.PinInv P) (hs : s.step a = .next s') (hj : a.thread ≠ i)
    (hc : CommitAt l s i c) : CommitAt l s' i c :=
  CommitAt.mono (fun _ _ hm => ⟨h.mine_step hs hm (step_owner_of_ne hs hj hm.1),
      by rw [h.keeps_of_mine hs hm]⟩)
    (step_disk hs) (fun _ hx => h.awaits_step hs hj hx) hc

-- ========================================================= the invariant

/-- The invariant of the log over the buffer cache. -/
structure KInv (k : Kern) : Prop where
  /-- The log system's invariant holds of the image. -/
  sys : Inv k.toSys
  pins : k.bio.PinInv k.Pinned
  locals : ∀ (i : Nat) (c : Cpc), k.ops[i]? = some (Tpc.commit c) → CommitAt k.log k.bio i c

namespace Kern

variable {k k' : Kern} {i j x : Nat} {c c' : Cpc}

-- ===================================================== facts of the image

@[simp] theorem toSys_ops (k : Kern) : k.toSys.ctl.ops = k.ops.map Tpc.toPc := rfl
@[simp] theorem toSys_disk (k : Kern) : k.toSys.disk = k.bio.disk := rfl
@[simp] theorem toSys_mem (k : Kern) : k.toSys.mem = k.bio.cache.view k.bio.disk := rfl

theorem toSys_log_of_not_erasing (h : k.erasing = false) : k.toSys.ctl.log = k.log := by
  simp [toSys, h]

theorem toSys_log_of_erasing (h : k.erasing = true) :
    k.toSys.ctl.log = { k.log with lh := headOf (k.bio.disk k.log.start) } := by
  simp [toSys, h]

/-- The image differs from the log only in the header. -/
theorem toSys_log (k : Kern) :
    k.toSys.ctl.log = { k.log with lh := if k.erasing then headOf (k.bio.disk k.log.start) else k.log.lh } := by
  unfold toSys
  split <;> rfl

theorem toSys_ops_getElem {p : Tpc} (h : k.ops[i]? = some p) : k.toSys.ctl.ops[i]? = some p.toPc := by
  simp [h]

/-- Two states with the same log, pcs up to their phases, disk and
view have one image. -/
theorem toSys_eq (hlog : k'.log = k.log) (hops : k'.ops.map Tpc.toPc = k.ops.map Tpc.toPc)
    (her : k'.erasing = k.erasing) (hdisk : k'.bio.disk = k.bio.disk)
    (hview : k'.bio.cache.view k'.bio.disk = k.bio.cache.view k.bio.disk) : k'.toSys = k.toSys := by
  unfold toSys
  rw [hview, hlog, hops, her, hdisk]

theorem erasing_of_quiet (h : k.Quiet) : k.erasing = false := by
  unfold erasing
  rw [List.any_eq_false]
  intro p hp
  obtain ⟨j, hj⟩ := List.mem_iff_getElem?.mp hp
  cases p with
  | commit c => exact absurd hj (h j c)
  | idle => simp [Tpc.erased]
  | inOp w => simp [Tpc.erased]

/-- The header is cleared exactly when the one thread that may be in
`commit()` is between `log.lh.n = 0` and the second `write_head`. -/
theorem erasing_eq_of {p : Tpc} (hi : k.ops[i]? = some p)
    (hothers : ∀ j q, j ≠ i → k.ops[j]? = some q → q.erased = false) : k.erasing = p.erased := by
  unfold erasing
  cases he : p.erased
  · rw [List.any_eq_false]
    intro q hq
    obtain ⟨j, hj⟩ := List.mem_iff_getElem?.mp hq
    by_cases hji : j = i
    · subst hji
      rw [hi] at hj
      cases hj
      simp [he]
    · simp [hothers j q hji hj]
  · exact List.any_eq_true.mpr ⟨p, List.mem_of_getElem? hi, he⟩

theorem erasing_set_of_quiet (h : k.Quiet) {p : Tpc} (hlt : i < k.ops.length)
    (hops : k'.ops = k.ops.set i p) : k'.erasing = p.erased := by
  refine erasing_eq_of (i := i) (by rw [hops, List.getElem?_set_self hlt]) fun j q hji hj => ?_
  rw [hops, List.getElem?_set_ne (Ne.symm hji)] at hj
  exact Tpc.erased_of_ne fun c he => h j c (he ▸ hj)

/-- In a state with no commit running, only the thread that moves can
be in `commit()` after it, at the pc it moves to. -/
theorem commit_set_of_quiet (h : k.Quiet) {p : Tpc} {P : Nat → Cpc → Prop}
    (hops : k'.ops = k.ops.set i p) (hp : ∀ c, p = .commit c → P i c) :
    ∀ (j : Nat) (c : Cpc), k'.ops[j]? = some (Tpc.commit c) → P j c := by
  intro j c hj
  rw [hops, List.getElem?_set] at hj
  split at hj
  · next hij =>
      subst hij
      split at hj
      · cases hj
        exact hp c rfl
      · cases hj
  · exact absurd hj (h j c)

/-- A thread entering `commit()` at a statement that pins the whole
header changes nothing pinned. -/
theorem pinned_set_of_quiet (h : k.Quiet) {p : Tpc} (hops : k'.ops = k.ops.set i p)
    (hp : ∀ c, p = .commit c → c.pinned k'.log.lh.block = k'.log.lh.block) :
    k'.Pinned x ↔ x ∈ k'.log.lh.block :=
  ⟨fun hx => hx.1, fun hx => ⟨hx, commit_set_of_quiet h hops fun c hc => (hp c hc).symm ▸ hx⟩⟩

/-- The image of a state, given by its parts. -/
theorem toSys_eq_mk {L : Log} {O : List Pc} {D M : Disk} (hlog : k.toSys.ctl.log = L)
    (hops : k.ops.map Tpc.toPc = O) (hdisk : k.bio.disk = D)
    (hmem : k.bio.cache.view k.bio.disk = M) : k.toSys = ⟨⟨L, O⟩, D, M⟩ := by
  subst hlog hops hdisk hmem
  rfl

theorem pinned_of_quiet (h : k.Quiet) : k.Pinned x ↔ x ∈ k.log.lh.block :=
  ⟨fun hp => hp.1, fun hx => ⟨hx, fun i c hc => absurd hc (h i c)⟩⟩

/-- Replacing one thread's pc by one outside `commit()` keeps a quiet
state quiet. -/
theorem quiet_set (h : k.Quiet) {p : Tpc} (hp : ∀ c, p ≠ .commit c) (hops : k'.ops = k.ops.set i p) :
    k'.Quiet := by
  intro j c hj
  rw [hops, List.getElem?_set] at hj
  split at hj
  · split at hj
    · cases hj
      exact hp c rfl
    · cases hj
  · exact h j c hj

end Kern

-- ================================================ facts of the invariant

namespace KInv

open Kern

variable {k k' : Kern} {i j x : Nat} {c c' : Cpc}

theorem quiet_of_inOp (hk : KInv k) {w : List Nat} (hw : k.ops[j]? = some (.inOp w)) :
    k.Quiet := by
  intro i c hi
  have h0 := (hk.sys.ctl.noCommit_of_inOp (toSys_ops_getElem hw)).1
  have hpos := countP_pos_of_getElem? (f := Pc.isCommit) (toSys_ops_getElem hi) rfl
  omega

theorem quiet_of_committing (hk : KInv k) (hc : k.log.committing = false) : k.Quiet := by
  intro i c hi
  have h0 := hk.sys.ctl.noCommit (by rw [toSys_log]; exact hc)
  have hpos := countP_pos_of_getElem? (f := Pc.isCommit) (toSys_ops_getElem hi) rfl
  omega

/-- One thread at most is in `commit()`. -/
theorem one_commit (hk : KInv k) (hi : k.ops[i]? = some (.commit c))
    (hj : k.ops[j]? = some (.commit c')) : i = j :=
  Xv6.commit_unique hk.sys.ctl.oneCommit (toSys_ops_getElem hi) (toSys_ops_getElem hj)

theorem pinned_iff (hk : KInv k) (hi : k.ops[i]? = some (.commit c)) :
    k.Pinned x ↔ x ∈ c.pinned k.log.lh.block := by
  refine ⟨fun hp => hp.2 i c hi, fun hx => ⟨(c.pinned_sublist _).subset hx, fun j c' hj => ?_⟩⟩
  obtain rfl := hk.one_commit hi hj
  rw [hi] at hj
  cases hj
  exact hx

/-- After the committing thread moves to `c'`, the pinned blocks are
those `c'` pins. -/
theorem pinned_set (hk : KInv k) (hi : k.ops[i]? = some (.commit c)) (c' : Cpc)
    (hops : k'.ops = k.ops.set i (.commit c')) : k'.Pinned x ↔ x ∈ c'.pinned k'.log.lh.block := by
  have hlt := (List.getElem?_eq_some_iff.mp hi).1
  refine ⟨fun hp => hp.2 i c' (by rw [hops, List.getElem?_set_self hlt]),
    fun hx => ⟨(c'.pinned_sublist _).subset hx, fun j c'' hj => ?_⟩⟩
  by_cases hij : i = j
  · subst hij
    rw [hops, List.getElem?_set_self hlt] at hj
    cases hj
    exact hx
  · rw [hops, List.getElem?_set_ne hij] at hj
    exact absurd (hk.one_commit hi hj) hij

/-- Every thread but the committing one is outside `commit()`. -/
theorem others_not_erased (hk : KInv k) (hi : k.ops[i]? = some (.commit c)) :
    ∀ j q, j ≠ i → k.ops[j]? = some q → q.erased = false := by
  intro j q hji hj
  cases q with
  | commit c'' => exact absurd (hk.one_commit hi hj) (Ne.symm hji)
  | idle => rfl
  | inOp w => rfl

theorem erasing_set (hk : KInv k) (hi : k.ops[i]? = some (.commit c))
    (hops : k'.ops = k.ops.set i (.commit c')) : k'.erasing = c'.erased := by
  have hlt := (List.getElem?_eq_some_iff.mp hi).1
  refine erasing_eq_of (i := i) (by rw [hops, List.getElem?_set_self hlt]) fun j q hji hj => ?_
  rw [hops, List.getElem?_set_ne (Ne.symm hji)] at hj
  exact hk.others_not_erased hi j q hji hj

theorem erasing_eq (hk : KInv k) (hi : k.ops[i]? = some (.commit c)) : k.erasing = c.erased :=
  erasing_eq_of hi (hk.others_not_erased hi)

/-- The committing thread moves; the locals of its new statement are
all there is to show. -/
theorem locals_set (hk : KInv k) (hi : k.ops[i]? = some (.commit c))
    (hops : k'.ops = k.ops.set i (.commit c')) (hat : CommitAt k'.log k'.bio i c') :
    ∀ (j : Nat) (c'' : Cpc), k'.ops[j]? = some (Tpc.commit c'') → CommitAt k'.log k'.bio j c'' := by
  have hlt := (List.getElem?_eq_some_iff.mp hi).1
  intro j c'' hj
  by_cases hij : i = j
  · subst hij
    rw [hops, List.getElem?_set_self hlt] at hj
    cases hj
    exact hat
  · rw [hops, List.getElem?_set_ne hij] at hj
    exact absurd (hk.one_commit hi hj) hij

/-- The committing thread leaves `commit()`: no thread is in it. -/
theorem quiet_set (hk : KInv k) (hi : k.ops[i]? = some (.commit c)) {p : Tpc}
    (hp : ∀ c, p ≠ .commit c) (hops : k'.ops = k.ops.set i p) : k'.Quiet := by
  have hlt := (List.getElem?_eq_some_iff.mp hi).1
  intro j c'' hj
  by_cases hij : i = j
  · subst hij
    rw [hops, List.getElem?_set_self hlt] at hj
    cases hj
    exact hp c'' rfl
  · rw [hops, List.getElem?_set_ne hij] at hj
    exact absurd (hk.one_commit hi hj) hij

/-- Outside `install_trans(0)` the header is the image's. -/
theorem nodup (hk : KInv k) (her : k.erasing = false) : k.log.lh.block.Nodup := by
  have := hk.sys.ctl.nodup
  rwa [toSys_log_of_not_erasing her] at this

end KInv

namespace Kern

variable {k : Kern} {i : Nat} {c c' : Cpc}

/-- A statement that keeps the phase keeps the pcs of the image. -/
theorem map_set_commit (hi : k.ops[i]? = some (.commit c)) (hph : c'.phase = c.phase) :
    (k.ops.set i (.commit c')).map Tpc.toPc = k.ops.map Tpc.toPc := by
  apply List.ext_getElem?
  intro j
  rw [List.getElem?_map, List.getElem?_map, List.getElem?_set]
  split
  · next hij =>
      subst hij
      rw [if_pos (List.getElem?_eq_some_iff.mp hi).1, hi]
      simp [Tpc.toPc, hph]
  · rfl

end Kern

-- ======================================================= stuttering steps

namespace KInv

open Kern

variable {k k' : Kern} {i : Nat} {c c' : Cpc} {s' : BioSys}

/-- A buffer-cache call of a thread outside `commit()`: the image does
not move. -/
theorem call (hk : KInv k) {a : BioAct} {p : Tpc} (hp : k.ops[a.thread]? = some p)
    (hnc : ∀ c, p ≠ .commit c) (hs : k.bio.step a = .next s') (hpi : s'.PinInv k.Pinned) :
    KInv { k with bio := s' } ∧ ({ k with bio := s' } : Kern).toSys = k.toSys := by
  have heq : ({ k with bio := s' } : Kern).toSys = k.toSys :=
    toSys_eq rfl rfl rfl (step_disk hs) (hk.pins.view_step hs)
  refine ⟨⟨heq ▸ hk.sys, hpi, fun j c hj => ?_⟩, heq⟩
  -- the committing thread is another one
  have hne : a.thread ≠ j := fun he => by
    rw [he, hj] at hp
    cases hp
    exact hnc c rfl
  exact PinInv.commitAt_step hk.pins hs hne (hk.locals j c hj)

/-- A statement of `commit()` that calls the cache and stays in its
phase: the image does not move. -/
theorem commitCall (hk : KInv k) (hi : k.ops[i]? = some (.commit c)) {a : BioAct}
    (hs : k.bio.step a = .next s') (hpi : s'.PinInv fun y => y ∈ c'.pinned k.log.lh.block)
    (hph : c'.phase = c.phase) (her : c'.erased = c.erased) (hat : CommitAt k.log s' i c') :
    KInv { k with bio := s', ops := k.ops.set i (.commit c') } ∧
      ({ k with bio := s', ops := k.ops.set i (.commit c') } : Kern).toSys = k.toSys := by
  have hlt := (List.getElem?_eq_some_iff.mp hi).1
  have heq : ({ k with bio := s', ops := k.ops.set i (.commit c') } : Kern).toSys = k.toSys :=
    toSys_eq rfl (map_set_commit hi hph) (by rw [hk.erasing_set hi rfl, her, hk.erasing_eq hi])
      (step_disk hs) (hk.pins.view_step hs)
  exact ⟨⟨heq ▸ hk.sys, hpi.congr fun y => hk.pinned_set hi _ rfl, hk.locals_set hi rfl hat⟩, heq⟩

/-- The pins of a state in `commit()`, against the entries its pc
pins. -/
theorem pins_at (hk : KInv k) (hi : k.ops[i]? = some (.commit c)) :
    k.bio.PinInv fun y => y ∈ c.pinned k.log.lh.block :=
  hk.pins.congr fun _ => (hk.pinned_iff hi).symm

/-- A `bget` of `commit()`. -/
theorem bread (hk : KInv k) (hi : k.ops[i]? = some (.commit c)) {x : Nat}
    (hst : k.commitStep i (.bread x c') = .next k')
    (hpin : c'.pinned k.log.lh.block = c.pinned k.log.lh.block) (hph : c'.phase = c.phase)
    (her : c'.erased = c.erased)
    (hat : ∀ s', k.bio.step (.bget i ROOTDEV x) = .next s' → s'.Awaits i x → CommitAt k.log s' i c') :
    KInv k' ∧ k'.toSys = k.toSys := by
  obtain ⟨s', hs, rfl⟩ := advance_eq_next hst
  refine hk.commitCall hi hs ?_ hph her (hat s' hs (hk.pins.awaits_bget hs))
  rw [hpin]
  exact (hk.pins_at hi).bget hs

/-- The `acquiresleep` of a `bread` of `commit()`. -/
theorem lock (hk : KInv k) (hi : k.ops[i]? = some (.commit c)) {f : BufId → Cpc}
    (hst : k.commitStep i (.lock f) = .next k')
    (hpin : ∀ b, (f b).pinned k.log.lh.block = c.pinned k.log.lh.block)
    (hph : ∀ b, (f b).phase = c.phase) (her : ∀ b, (f b).erased = c.erased)
    (hat : ∀ b s', k.bio.waiting[i]? = some (some b) → k.bio.step (.acquire i) = .next s' →
      CommitAt k.log s' i (f b)) :
    KInv k' ∧ k'.toSys = k.toSys := by
  obtain ⟨b, hw, s', hs, rfl⟩ := commitStep_lock hst
  refine hk.commitCall hi hs ?_ (hph b) (her b) (hat b s' hw hs)
  rw [hpin]
  exact (hk.pins_at hi).acquire hs

/-- A `brelse` of `commit()`. -/
theorem release (hk : KInv k) (hi : k.ops[i]? = some (.commit c)) {b : BufId}
    (hst : k.commitStep i (.release b c') = .next k')
    (hpin : c'.pinned k.log.lh.block = c.pinned k.log.lh.block) (hph : c'.phase = c.phase)
    (her : c'.erased = c.erased)
    (hat : ∀ s', k.bio.step (.brelse i b) = .next s' → CommitAt k.log s' i c') :
    KInv k' ∧ k'.toSys = k.toSys := by
  obtain ⟨s', hs, rfl⟩ := advance_eq_next hst
  refine hk.commitCall hi hs ?_ hph her (hat s' hs)
  rw [hpin]
  exact (hk.pins_at hi).brelse hs

/-- A buffer the committing thread holds stays held through its own
calls, but the `brelse` of it. -/
theorem mine_own (hk : KInv k) {a : BioAct} {b : BufId} {y : Nat} (hs : k.bio.step a = .next s')
    (ha : ∀ j, a ≠ .brelse j b) (hm : k.bio.Mine i b y) : s'.Mine i b y :=
  hk.pins.mine_step hs hm (step_owner_keep hs ha hm.1)

/-- Buffers carrying different blocks are different buffers. -/
theorem ne_of_carries {ca : BCache} {b b' : BufId} {y z : Nat} (hb : ca.carries ROOTDEV y b = true)
    (hb' : ca.carries ROOTDEV z b' = true) (hyz : y ≠ z) : b ≠ b' := fun he => by
  subst he
  simp only [BCache.carries, Bool.and_eq_true, beq_iff_eq] at hb hb'
  exact hyz (hb.2.symm.trans hb'.2)

theorem getD_of_lt {l : List Nat} {t : Nat} (ht : t < l.length) : l.getD t 0 = l[t] := by
  rw [List.getD_eq_getElem?_getD, List.getElem?_eq_getElem ht]
  rfl

/-- An entry's log block lies in the log. -/
theorem slot_lt (hk : KInv k) (her : k.erasing = false) {t : Nat} (ht : t < k.log.lh.n) :
    t < k.log.size - 1 := by
  have hcap := hk.sys.ctl.cap.1
  rw [toSys_log_of_not_erasing her] at hcap
  omega

/-- An entry of the header is a home block. -/
theorem entry_home (hk : KInv k) (her : k.erasing = false) {t : Nat} (ht : t < k.log.lh.n) :
    k.log.home (k.log.lh.block.getD t 0) := by
  have hlog := toSys_log_of_not_erasing her
  have hmem : k.log.lh.block.getD t 0 ∈ k.log.lh.block := by
    rw [getD_of_lt ht]
    exact List.getElem_mem _
  have hhome := hk.sys.home _ (by rw [hlog]; exact hmem)
  rwa [hlog] at hhome

/-- A logged home block is not the log block of its entry. -/
theorem entry_ne_slot (hk : KInv k) (her : k.erasing = false) {t : Nat} (ht : t < k.log.lh.n) :
    k.log.lh.block.getD t 0 ≠ k.log.slot t :=
  Log.home_ne_slot (hk.slot_lt her ht) (hk.entry_home her ht)

/-- The data invariant at the committing thread's phase. -/
theorem dataAt (hk : KInv k) (hi : k.ops[i]? = some (.commit c)) :
    DataAt k.toSys.ctl.log k.bio.disk (k.bio.cache.view k.bio.disk) (some c.phase) := by
  have hdata := hk.sys.data
  rwa [phaseOf_of_getElem? hk.sys.ctl.oneCommit (toSys_ops_getElem hi)] at hdata

-- ======================================================== the writes

/-- What a `memmove` into a held buffer and its `bwrite` do: the block
reaches the disk, the view sees the new bytes there, the pins stay,
and every buffer held stays held. -/
theorem write (hk : KInv k) {b : BufId} {y : Nat} {v : Block}
    (hm : k.bio.Mine i b y) (hs : (k.bio.setData b v).bwrite i b = .next s') :
    s'.disk = Function.update k.bio.disk y v ∧
      s'.cache.view s'.disk = Function.update (k.bio.cache.view k.bio.disk) y v ∧
      s'.PinInv k.Pinned ∧ (∀ b' z, k.bio.Mine i b' z → s'.Mine i b' z) ∧ (s'.cache.buf b).data = v := by
  have hpi := hk.pins.write hs
  obtain ⟨-, rfl⟩ := bwrite_eq_next hs
  obtain ⟨L, hinv⟩ := hk.pins.bio
  have hy : (k.bio.cache.buf b).blockno = y := by
    have := hm.2
    simp only [BCache.carries, Bool.and_eq_true, beq_iff_eq] at this
    exact this.2
  have hv := hk.pins.held b (by rw [hm.1]; simp)
  have hdisk : (k.bio.setData b v).cache.bwrite (k.bio.setData b v).disk b =
      Function.update k.bio.disk y v := by
    simp [BCache.bwrite, hy]
  refine ⟨hdisk, ?_, hpi, fun b' z hm' => ⟨hm'.1, by simpa [BCache.carries] using hm'.2⟩, by simp⟩
  simp only [hdisk]
  rw [BCache.view_update_disk (b := b) (by simpa [BCache.carries] using hm.2) (by simpa using hv)]
  exact BCache.view_setData hinv.unique hm.2 hv v

/-- A held buffer is what the image caches for its block. -/
theorem view_mine (hk : KInv k) {b : BufId} {y : Nat} (hm : k.bio.Mine i b y) :
    k.bio.cache.view k.bio.disk y = (k.bio.cache.buf b).data := by
  obtain ⟨L, hinv⟩ := hk.pins.bio
  exact BCache.view_of_carrier hinv.unique hm.2 (hk.pins.held b (by rw [hm.1]; simp))

end KInv

-- ==================================================== the phase steps

namespace Kern

variable {k k' : Kern} {i : Nat} {c : Cpc}

/-- The image of a statement that does its phase's work is the log
system's commit step of that phase. -/
theorem homeStep_commit (hi : k.ops[i]? = some (.commit c))
    (himg : k'.toSys = ⟨⟨(commitCtl k.toSys.ctl.log c.phase).1,
        (k.ops.map Tpc.toPc).set i (commitCtl k.toSys.ctl.log c.phase).2⟩,
      (Sys.commitData k.toSys.ctl.log k.bio.disk (k.bio.cache.view k.bio.disk) c.phase).1,
      (Sys.commitData k.toSys.ctl.log k.bio.disk (k.bio.cache.view k.bio.disk) c.phase).2⟩) :
    HomeStep k.toSys k'.toSys :=
  ⟨.commit i, fun _ => 0, fun _ _ he => (by cases he),
    (by rw [Sys.step_commit_of (fun _ => 0) (toSys_ops_getElem hi), himg]; rfl)⟩

end Kern

namespace KInv

open Kern

variable {k k' : Kern} {i t : Nat} {c : Cpc} {s' : BioSys}

theorem stutter (h : KInv k' ∧ k'.toSys = k.toSys) :
    KInv k' ∧ Relation.ReflGen HomeStep k.toSys k'.toSys :=
  ⟨h.1, h.2 ▸ .refl⟩

/-- A statement doing its phase's work while the header is the
image's: the image takes the commit step, and the invariant follows
from the log system's. -/
theorem moves (hk : KInv k) (hi : k.ops[i]? = some (.commit c)) (s' : BioSys) (c' : Cpc)
    (hc : c.erased = false) (hc' : c'.erased = false)
    (hctl : commitCtl k.log c.phase = (k.log, .commit c'.phase))
    (hdata : Sys.commitData k.log k.bio.disk (k.bio.cache.view k.bio.disk) c.phase =
      (s'.disk, s'.cache.view s'.disk))
    (hpi : s'.PinInv fun y => y ∈ c'.pinned k.log.lh.block) (hat : CommitAt k.log s' i c') :
    KInv { k with bio := s', ops := k.ops.set i (.commit c') } ∧
      Relation.ReflGen HomeStep k.toSys ({ k with bio := s', ops := k.ops.set i (.commit c') } : Kern).toSys := by
  have hlog : k.toSys.ctl.log = k.log := toSys_log_of_not_erasing ((hk.erasing_eq hi).trans hc)
  have hlog' : ({ k with bio := s', ops := k.ops.set i (.commit c') } : Kern).toSys.ctl.log = k.log :=
    toSys_log_of_not_erasing ((hk.erasing_set hi rfl).trans hc')
  have hstep : HomeStep k.toSys ({ k with bio := s', ops := k.ops.set i (.commit c') } : Kern).toSys := by
    refine homeStep_commit hi ?_
    rw [hlog, hctl, hdata]
    exact toSys_eq_mk hlog' List.map_set rfl rfl
  exact ⟨⟨(homeStep_sim _ _ hk.sys hstep).1, hpi.congr fun y => hk.pinned_set hi _ rfl,
    hk.locals_set hi rfl hat⟩, .single hstep⟩

theorem getElem?_entry (ht : t < k.log.lh.n) :
    k.log.lh.block[t]? = some (k.log.lh.block.getD t 0) := by
  rw [getD_of_lt ht]
  exact List.getElem?_eq_getElem ht

-- `write_log`

theorem wlTo_step (hk : KInv k) (hi : k.ops[i]? = some (.commit (.wlTo t)))
    (hst : k.commitStep i ((Cpc.wlTo t).stmt k.log k.bio.cache) = .next k') :
    KInv k' ∧ Relation.ReflGen HomeStep k.toSys k'.toSys := by
  simp only [Cpc.stmt] at hst
  split at hst
  · next ht => exact stutter (hk.bread hi hst rfl rfl rfl fun _ _ ha => ⟨ht, ha⟩)
  · next ht =>
      -- the loop test fails: `writeLog t` moves on to `write_head`
      simp only [commitStep, Outcome.next.injEq] at hst
      subst hst
      have hnone : k.log.lh.block[t]? = none := List.getElem?_eq_none (Nat.le_of_not_lt ht)
      exact hk.moves hi k.bio (.whRead false) rfl rfl (by simp [Cpc.phase, commitCtl, ht])
        (by simp [Cpc.phase, Sys.commitData, hnone]) ((hk.pins_at hi).congr fun _ => Iff.rfl)
        fun h => by cases h

theorem wlToLock_step (hk : KInv k) (hi : k.ops[i]? = some (.commit (.wlToLock t)))
    (hst : k.commitStep i ((Cpc.wlToLock t).stmt k.log k.bio.cache) = .next k') :
    KInv k' ∧ Relation.ReflGen HomeStep k.toSys k'.toSys := by
  obtain ⟨ht, ha⟩ : CommitAt k.log k.bio i (.wlToLock t) := hk.locals i _ hi
  exact stutter (hk.lock hi hst (fun _ => rfl) (fun _ => rfl) (fun _ => rfl)
    fun _ _ hw hs => ⟨ht, acquire_mine hs ha hw⟩)

theorem wlFrom_step (hk : KInv k) {dst : BufId} (hi : k.ops[i]? = some (.commit (.wlFrom t dst)))
    (hst : k.commitStep i ((Cpc.wlFrom t dst).stmt k.log k.bio.cache) = .next k') :
    KInv k' ∧ Relation.ReflGen HomeStep k.toSys k'.toSys := by
  obtain ⟨ht, hdst⟩ : CommitAt k.log k.bio i (.wlFrom t dst) := hk.locals i _ hi
  exact stutter (hk.bread hi hst rfl rfl rfl fun _ hs ha =>
    ⟨ht, hk.mine_own hs (fun _ he => by cases he) hdst, ha⟩)

theorem wlFromLock_step (hk : KInv k) {dst : BufId}
    (hi : k.ops[i]? = some (.commit (.wlFromLock t dst)))
    (hst : k.commitStep i ((Cpc.wlFromLock t dst).stmt k.log k.bio.cache) = .next k') :
    KInv k' ∧ Relation.ReflGen HomeStep k.toSys k'.toSys := by
  obtain ⟨ht, hdst, ha⟩ : CommitAt k.log k.bio i (.wlFromLock t dst) := hk.locals i _ hi
  exact stutter (hk.lock hi hst (fun _ => rfl) (fun _ => rfl) (fun _ => rfl)
    fun _ _ hw hs => ⟨ht, hk.mine_own hs (fun _ he => by cases he) hdst, acquire_mine hs ha hw⟩)

/-- `memmove(to->data, from->data)` and `bwrite(to)`: the log block
gets the cached home block, the log system's `writeLog t` step. -/
theorem wlCopy_step (hk : KInv k) {dst src : BufId}
    (hi : k.ops[i]? = some (.commit (.wlCopy t dst src)))
    (hst : k.commitStep i ((Cpc.wlCopy t dst src).stmt k.log k.bio.cache) = .next k') :
    KInv k' ∧ Relation.ReflGen HomeStep k.toSys k'.toSys := by
  obtain ⟨ht, hdst, hsrc⟩ : CommitAt k.log k.bio i (.wlCopy t dst src) := hk.locals i _ hi
  obtain ⟨s', hs, rfl⟩ := advance_eq_next hst
  obtain ⟨hdisk, hview, hpi, hmine, -⟩ := hk.write hdst hs
  refine hk.moves hi _ _ rfl rfl (by simp [Cpc.phase, commitCtl, ht]) ?_
    (hpi.congr fun y => (hk.pinned_iff hi).symm) ⟨ht, hmine _ _ hdst, hmine _ _ hsrc⟩
  rw [hview, hdisk]
  simp only [Cpc.phase, Sys.commitData, getElem?_entry ht, hk.view_mine hsrc]

theorem wlRelFrom_step (hk : KInv k) {dst src : BufId}
    (hi : k.ops[i]? = some (.commit (.wlRelFrom t dst src)))
    (hst : k.commitStep i ((Cpc.wlRelFrom t dst src).stmt k.log k.bio.cache) = .next k') :
    KInv k' ∧ Relation.ReflGen HomeStep k.toSys k'.toSys := by
  obtain ⟨ht, hdst, hsrc⟩ : CommitAt k.log k.bio i (.wlRelFrom t dst src) := hk.locals i _ hi
  -- `to` and `from` carry the log block and the home block: two buffers
  have hne : dst ≠ src := ne_of_carries hdst.2 hsrc.2 (hk.entry_ne_slot (hk.erasing_eq hi) ht).symm
  exact stutter (hk.release hi hst rfl rfl rfl fun _ hs =>
    ⟨ht, hk.mine_own hs (fun _ he => hne (by cases he; rfl)) hdst⟩)

theorem wlRelTo_step (hk : KInv k) {dst : BufId} (hi : k.ops[i]? = some (.commit (.wlRelTo t dst)))
    (hst : k.commitStep i ((Cpc.wlRelTo t dst).stmt k.log k.bio.cache) = .next k') :
    KInv k' ∧ Relation.ReflGen HomeStep k.toSys k'.toSys :=
  stutter (hk.release hi hst rfl rfl rfl fun _ _ => trivial)

-- `write_head`, before and after `log.lh.n = 0`

theorem whRead_step (hk : KInv k) {e : Bool} (hi : k.ops[i]? = some (.commit (.whRead e)))
    (hst : k.commitStep i ((Cpc.whRead e).stmt k.log k.bio.cache) = .next k') :
    KInv k' ∧ Relation.ReflGen HomeStep k.toSys k'.toSys := by
  have he : CommitAt k.log k.bio i (.whRead e) := hk.locals i _ hi
  cases e <;> exact stutter (hk.bread hi hst rfl rfl rfl fun _ _ ha => ⟨he, ha⟩)

theorem whLock_step (hk : KInv k) {e : Bool} (hi : k.ops[i]? = some (.commit (.whLock e)))
    (hst : k.commitStep i ((Cpc.whLock e).stmt k.log k.bio.cache) = .next k') :
    KInv k' ∧ Relation.ReflGen HomeStep k.toSys k'.toSys := by
  obtain ⟨he, ha⟩ : CommitAt k.log k.bio i (.whLock e) := hk.locals i _ hi
  cases e <;> exact stutter (hk.lock hi hst (fun _ => rfl) (fun _ => rfl) (fun _ => rfl)
    fun _ _ hw hs => ⟨he, acquire_mine hs ha hw⟩)

/-- The first `write_head`'s store and `bwrite`: the commit point, the
log system's `writeHead` step. -/
theorem whStore_step (hk : KInv k) {b : BufId} (hi : k.ops[i]? = some (.commit (.whStore false b)))
    (hst : k.commitStep i ((Cpc.whStore false b).stmt k.log k.bio.cache) = .next k') :
    KInv k' ∧ Relation.ReflGen HomeStep k.toSys k'.toSys := by
  obtain ⟨-, hb⟩ : CommitAt k.log k.bio i (.whStore false b) := hk.locals i _ hi
  obtain ⟨s', hs, rfl⟩ := advance_eq_next hst
  obtain ⟨hdisk, hview, hpi, hmine, -⟩ := hk.write hb hs
  refine hk.moves hi _ _ rfl rfl rfl ?_ (hpi.congr fun y => (hk.pinned_iff hi).symm)
    ⟨fun h => (by cases h), hmine _ _ hb⟩
  rw [hview, hdisk]
  simp only [Cpc.phase, Sys.commitData, hk.view_mine hb]

/-- The second `write_head`'s store: the header on disk becomes empty,
the log system's `clear` step. Until here the image read the header
from the disk. -/
theorem whStore_erased_step (hk : KInv k) {b : BufId}
    (hi : k.ops[i]? = some (.commit (.whStore true b)))
    (hst : k.commitStep i ((Cpc.whStore true b).stmt k.log k.bio.cache) = .next k') :
    KInv k' ∧ Relation.ReflGen HomeStep k.toSys k'.toSys := by
  obtain ⟨hempty, hb⟩ : CommitAt k.log k.bio i (.whStore true b) := hk.locals i _ hi
  have hempty := hempty rfl
  obtain ⟨s', hs, rfl⟩ := advance_eq_next hst
  obtain ⟨hdisk, hview, hpi, hmine, -⟩ := hk.write hb hs
  have hlog' : ({ k with bio := s', ops := k.ops.set i (.commit (.whRel true b)) } : Kern).toSys.ctl.log =
      k.log :=
    toSys_log_of_not_erasing ((hk.erasing_set hi rfl).trans (rfl : (Cpc.whRel true b).erased = false))
  have hstep : HomeStep k.toSys ({ k with bio := s', ops := k.ops.set i (.commit (.whRel true b)) } : Kern).toSys := by
    refine homeStep_commit hi ?_
    rw [toSys_log_of_erasing (hk.erasing_eq hi)]
    refine toSys_eq_mk (hlog'.trans ?_) List.map_set ?_ ?_
    · show k.log = { k.log with lh := .empty }
      rw [← hempty]
    · rw [hdisk]
      simp only [Cpc.phase, Sys.commitData, hk.view_mine hb, hempty]
    · rw [hview]
      simp only [Cpc.phase, Sys.commitData, hk.view_mine hb, hempty]
  exact ⟨⟨(homeStep_sim _ _ hk.sys hstep).1,
    hpi.congr fun y => (hk.pinned_set hi (.whRel true b) rfl).trans (hk.pinned_iff hi).symm,
    hk.locals_set hi rfl ⟨fun _ => hempty, hmine _ _ hb⟩⟩, .single hstep⟩

theorem whRel_step (hk : KInv k) {e : Bool} {b : BufId} (hi : k.ops[i]? = some (.commit (.whRel e b)))
    (hst : k.commitStep i ((Cpc.whRel e b).stmt k.log k.bio.cache) = .next k') :
    KInv k' ∧ Relation.ReflGen HomeStep k.toSys k'.toSys := by
  cases e <;> exact stutter (hk.release hi hst rfl rfl rfl fun _ _ => trivial)

-- `install_trans(0)`

theorem itL_step (hk : KInv k) (hi : k.ops[i]? = some (.commit (.itL t)))
    (hst : k.commitStep i ((Cpc.itL t).stmt k.log k.bio.cache) = .next k') :
    KInv k' ∧ Relation.ReflGen HomeStep k.toSys k'.toSys := by
  simp only [Cpc.stmt] at hst
  split at hst
  · next ht => exact stutter (hk.bread hi hst rfl rfl rfl fun _ _ ha => ⟨ht, ha⟩)
  · next ht =>
      -- the loop test fails: every entry is installed and unpinned
      simp only [commitStep, Outcome.next.injEq] at hst
      subst hst
      have hnone : k.log.lh.block[t]? = none := List.getElem?_eq_none (Nat.le_of_not_lt ht)
      have hpi : k.bio.PinInv fun y => y ∈ Cpc.erase.pinned k.log.lh.block :=
        (hk.pins_at hi).congr fun y => by
        simp [Cpc.pinned, List.drop_eq_nil_of_le (Nat.le_of_not_lt ht)]
      exact hk.moves hi k.bio .erase rfl rfl (by simp [Cpc.phase, commitCtl, ht])
        (by simp [Cpc.phase, Sys.commitData, hnone]) hpi trivial

theorem itLLock_step (hk : KInv k) (hi : k.ops[i]? = some (.commit (.itLLock t)))
    (hst : k.commitStep i ((Cpc.itLLock t).stmt k.log k.bio.cache) = .next k') :
    KInv k' ∧ Relation.ReflGen HomeStep k.toSys k'.toSys := by
  obtain ⟨ht, ha⟩ : CommitAt k.log k.bio i (.itLLock t) := hk.locals i _ hi
  exact stutter (hk.lock hi hst (fun _ => rfl) (fun _ => rfl) (fun _ => rfl)
    fun _ _ hw hs => ⟨ht, acquire_mine hs ha hw⟩)

theorem itD_step (hk : KInv k) {lb : BufId} (hi : k.ops[i]? = some (.commit (.itD t lb)))
    (hst : k.commitStep i ((Cpc.itD t lb).stmt k.log k.bio.cache) = .next k') :
    KInv k' ∧ Relation.ReflGen HomeStep k.toSys k'.toSys := by
  obtain ⟨ht, hlb⟩ : CommitAt k.log k.bio i (.itD t lb) := hk.locals i _ hi
  exact stutter (hk.bread hi hst rfl rfl rfl fun _ hs ha =>
    ⟨ht, hk.mine_own hs (fun _ he => by cases he) hlb, ha⟩)

theorem itDLock_step (hk : KInv k) {lb : BufId} (hi : k.ops[i]? = some (.commit (.itDLock t lb)))
    (hst : k.commitStep i ((Cpc.itDLock t lb).stmt k.log k.bio.cache) = .next k') :
    KInv k' ∧ Relation.ReflGen HomeStep k.toSys k'.toSys := by
  obtain ⟨ht, hlb, ha⟩ : CommitAt k.log k.bio i (.itDLock t lb) := hk.locals i _ hi
  exact stutter (hk.lock hi hst (fun _ => rfl) (fun _ => rfl) (fun _ => rfl)
    fun _ _ hw hs => ⟨ht, hk.mine_own hs (fun _ he => by cases he) hlb, acquire_mine hs ha hw⟩)

/-- `memmove(dbuf->data, lbuf->data)` and `bwrite(dbuf)`: the home
block gets the log block, the log system's `install t` step. -/
theorem itCopy_step (hk : KInv k) {lb db : BufId}
    (hi : k.ops[i]? = some (.commit (.itCopy t lb db)))
    (hst : k.commitStep i ((Cpc.itCopy t lb db).stmt k.log k.bio.cache) = .next k') :
    KInv k' ∧ Relation.ReflGen HomeStep k.toSys k'.toSys := by
  obtain ⟨ht, hlb, hdb⟩ : CommitAt k.log k.bio i (.itCopy t lb db) := hk.locals i _ hi
  obtain ⟨s', hs, rfl⟩ := advance_eq_next hst
  obtain ⟨hdisk, hview, hpi, hmine, hdata⟩ := hk.write hdb hs
  -- what `bunpin` will need: the home buffer now holds what the disk does
  have hclean : (s'.cache.buf db).data = s'.disk (k.log.lh.block.getD t 0) := by
    rw [hdata, hdisk, Function.update_self]
  refine hk.moves hi _ _ rfl rfl (by simp [Cpc.phase, commitCtl, ht]) ?_
    (hpi.congr fun y => (hk.pinned_iff hi).symm) ⟨ht, hmine _ _ hlb, hmine _ _ hdb, hclean⟩
  rw [hview, hdisk]
  simp only [Cpc.phase, Sys.commitData, getElem?_entry ht, hk.view_mine hlb]

theorem mem_drop_succ_iff {l : List Nat} {t y : Nat} (hnd : l.Nodup) (ht : t < l.length) :
    y ∈ l.drop (t + 1) ↔ y ∈ l.drop t ∧ y ≠ l.getD t 0 := by
  have hcons : l.drop t = l[t] :: l.drop (t + 1) := List.drop_eq_getElem_cons ht
  have hnd' : (l[t] :: l.drop (t + 1)).Nodup := hcons ▸ hnd.sublist (List.drop_sublist _ _)
  rw [hcons, getD_of_lt ht, List.mem_cons]
  constructor
  · intro hy
    exact ⟨.inr hy, fun he => (List.nodup_cons.mp hnd').1 (he ▸ hy)⟩
  · rintro ⟨hy | hy, hne⟩
    · exact absurd hy hne
    · exact hy

/-- `bunpin(dbuf)`: entry `t` leaves the pinned blocks. -/
theorem itUnpin_step (hk : KInv k) {lb db : BufId}
    (hi : k.ops[i]? = some (.commit (.itUnpin t lb db)))
    (hst : k.commitStep i ((Cpc.itUnpin t lb db).stmt k.log k.bio.cache) = .next k') :
    KInv k' ∧ Relation.ReflGen HomeStep k.toSys k'.toSys := by
  obtain ⟨ht, hlb, hdb, hclean⟩ : CommitAt k.log k.bio i (.itUnpin t lb db) := hk.locals i _ hi
  obtain ⟨s', hs, rfl⟩ := advance_eq_next hst
  have hx : k.log.lh.block.getD t 0 ∈ (Cpc.itUnpin t lb db).pinned k.log.lh.block := by
    show _ ∈ k.log.lh.block.drop t
    rw [List.drop_eq_getElem_cons ht, getD_of_lt ht]
    exact List.mem_cons_self
  have hpi := (hk.pins_at hi).bunpin hdb.1 hx hdb.2 hclean hs
  exact stutter (hk.commitCall hi hs
    (hpi.congr fun y => mem_drop_succ_iff (hk.nodup (hk.erasing_eq hi)) ht) rfl rfl
    ⟨ht, hk.mine_own hs (fun _ he => by cases he) hlb, hk.mine_own hs (fun _ he => by cases he) hdb⟩)

theorem itRelL_step (hk : KInv k) {lb db : BufId}
    (hi : k.ops[i]? = some (.commit (.itRelL t lb db)))
    (hst : k.commitStep i ((Cpc.itRelL t lb db).stmt k.log k.bio.cache) = .next k') :
    KInv k' ∧ Relation.ReflGen HomeStep k.toSys k'.toSys := by
  obtain ⟨ht, hlb, hdb⟩ : CommitAt k.log k.bio i (.itRelL t lb db) := hk.locals i _ hi
  have hne : lb ≠ db := ne_of_carries hlb.2 hdb.2 (hk.entry_ne_slot (hk.erasing_eq hi) ht).symm
  exact stutter (hk.release hi hst rfl rfl rfl fun _ hs =>
    ⟨ht, hk.mine_own hs (fun _ he => hne (by cases he; rfl)) hdb⟩)

theorem itRelD_step (hk : KInv k) {db : BufId} (hi : k.ops[i]? = some (.commit (.itRelD t db)))
    (hst : k.commitStep i ((Cpc.itRelD t db).stmt k.log k.bio.cache) = .next k') :
    KInv k' ∧ Relation.ReflGen HomeStep k.toSys k'.toSys :=
  stutter (hk.release hi hst rfl rfl rfl fun _ _ => trivial)

-- the end of `commit()`

/-- `log.lh.n = 0`: the image does not move, since it reads the header
from the disk, where the committed one still is. -/
theorem erase_step (hk : KInv k) (hi : k.ops[i]? = some (.commit .erase))
    (hst : k.commitStep i (Cpc.erase.stmt k.log k.bio.cache) = .next k') :
    KInv k' ∧ Relation.ReflGen HomeStep k.toSys k'.toSys := by
  obtain ⟨hlog', hops, hbio⟩ : k'.log = { k.log with lh := .empty } ∧
      k'.ops = k.ops.set i (.commit (.whRead true)) ∧ k'.bio = k.bio := by
    simp only [Cpc.stmt, commitStep, Outcome.next.injEq] at hst
    subst hst
    exact ⟨rfl, rfl, rfl⟩
  have hlog : k.toSys.ctl.log = k.log := toSys_log_of_not_erasing (hk.erasing_eq hi)
  have hcommitted : headOf (k.bio.disk k.log.start) = k.log.lh := by
    have hdata := hk.dataAt hi
    rw [hlog] at hdata
    exact hdata.1
  have heq : k'.toSys = k.toSys := by
    refine (toSys_eq_mk ?_ (by rw [hops]; exact map_set_commit hi rfl) (by rw [hbio])
      (by rw [hbio])).trans (toSys_eq_mk hlog rfl rfl rfl).symm
    rw [toSys_log_of_erasing (hk.erasing_set hi hops), hlog', hbio]
    show { k.log with lh := headOf (k.bio.disk k.log.start) } = k.log
    rw [hcommitted]
  refine ⟨⟨heq ▸ hk.sys, ?_, hk.locals_set hi hops fun _ => by rw [hlog']⟩, heq ▸ .refl⟩
  rw [hbio]
  exact hk.pins.congr fun y => by rw [hk.pinned_set hi _ hops, hk.pinned_iff hi, hlog']; rfl

/-- `end_op`'s reset after `commit()`: the log system's `done` step. -/
theorem done_step (hk : KInv k) (hi : k.ops[i]? = some (.commit .done))
    (hst : k.commitStep i (Cpc.done.stmt k.log k.bio.cache) = .next k') :
    KInv k' ∧ Relation.ReflGen HomeStep k.toSys k'.toSys := by
  obtain ⟨hlog', hops, hbio⟩ : k'.log = { k.log with committing := false } ∧
      k'.ops = k.ops.set i .idle ∧ k'.bio = k.bio := by
    simp only [Cpc.stmt, commitStep, Outcome.next.injEq] at hst
    subst hst
    exact ⟨rfl, rfl, rfl⟩
  have hq : k'.Quiet := hk.quiet_set hi (fun _ h => by cases h) hops
  have hstep : HomeStep k.toSys k'.toSys := by
    refine homeStep_commit hi ?_
    rw [toSys_log_of_not_erasing (hk.erasing_eq hi)]
    refine toSys_eq_mk ?_ (by rw [hops, List.map_set]; rfl) (by rw [hbio]; rfl) (by rw [hbio]; rfl)
    rw [toSys_log_of_not_erasing (erasing_of_quiet hq), hlog']
    rfl
  refine ⟨⟨(homeStep_sim _ _ hk.sys hstep).1, ?_, fun j c hj => absurd hj (hq j c)⟩, .single hstep⟩
  rw [hbio]
  exact hk.pins.congr fun y => by rw [pinned_of_quiet hq, hk.pinned_iff hi, hlog']; rfl

/-- The statement the committing thread is at. -/
theorem commit_step (hk : KInv k) (h : k.step (.commit i) = .next k') :
    KInv k' ∧ Relation.ReflGen HomeStep k.toSys k'.toSys := by
  obtain ⟨c, hi, hst⟩ := step_commit h
  cases c with
  | wlTo t => exact hk.wlTo_step hi hst
  | wlToLock t => exact hk.wlToLock_step hi hst
  | wlFrom t dst => exact hk.wlFrom_step hi hst
  | wlFromLock t dst => exact hk.wlFromLock_step hi hst
  | wlCopy t dst src => exact hk.wlCopy_step hi hst
  | wlRelFrom t dst src => exact hk.wlRelFrom_step hi hst
  | wlRelTo t dst => exact hk.wlRelTo_step hi hst
  | whRead e => exact hk.whRead_step hi hst
  | whLock e => exact hk.whLock_step hi hst
  | whStore e b =>
      cases e with
      | false => exact hk.whStore_step hi hst
      | true => exact hk.whStore_erased_step hi hst
  | whRel e b => exact hk.whRel_step hi hst
  | itL t => exact hk.itL_step hi hst
  | itLLock t => exact hk.itLLock_step hi hst
  | itD t lb => exact hk.itD_step hi hst
  | itDLock t lb => exact hk.itDLock_step hi hst
  | itCopy t lb db => exact hk.itCopy_step hi hst
  | itUnpin t lb db => exact hk.itUnpin_step hi hst
  | itRelL t lb db => exact hk.itRelL_step hi hst
  | itRelD t db => exact hk.itRelD_step hi hst
  | erase => exact hk.erase_step hi hst
  | done => exact hk.done_step hi hst

-- ============================================== the file system's calls

/-- An admitted `begin_op`: the log system's `beginOp` step. -/
theorem beginOp_step (hk : KInv k) (h : k.step (.beginOp i) = .next k') :
    KInv k' ∧ HomeStep k.toSys k'.toSys := by
  obtain ⟨hidle, l, hl, rfl⟩ := step_beginOp h
  have hq := hk.quiet_of_committing (beginOp_eq_some hl).1
  have hq' : Kern.Quiet { k with log := l, ops := k.ops.set i (.inOp []) } :=
    Kern.quiet_set hq (fun _ h => by cases h) rfl
  have hstep : HomeStep k.toSys ({ k with log := l, ops := k.ops.set i (.inOp []) } : Kern).toSys := by
    refine ⟨.beginOp i, fun _ => 0, fun _ _ he => (by cases he), ?_⟩
    rw [Sys.step_beginOp_of _ (toSys_ops_getElem hidle)
        (by rw [toSys_log_of_not_erasing (erasing_of_quiet hq)]; exact hl),
      toSys_eq_mk (toSys_log_of_not_erasing (erasing_of_quiet hq')) List.map_set rfl rfl]
    rfl
  refine ⟨⟨(homeStep_sim _ _ hk.sys hstep).1, hk.pins.congr fun y => ?_,
    fun j c hj => absurd hj (hq' j c)⟩, hstep⟩
  rw [pinned_of_quiet hq', pinned_of_quiet hq, (beginOp_eq_some hl).2.2]

/-- `log_write`'s side in the cache: the store, and the `bpin` when
the block joins the header. -/
theorem logWrite_cache (hk : KInv k) (hq : k.Quiet) {b : BufId} {v : Block} {added : Bool}
    (ho : k.bio.owner b = some i)
    (hadded : added = true ↔ (k.bio.cache.buf b).blockno ∉ k.log.lh.block)
    (hs : (if added then (k.bio.setData b v).step (.bpin i b) else .next (k.bio.setData b v)) = .next s') :
    s'.disk = k.bio.disk ∧
      s'.cache.view s'.disk = Function.update (k.bio.cache.view k.bio.disk) (k.bio.cache.buf b).blockno v ∧
      s'.PinInv fun y => y ∈ (if (k.bio.cache.buf b).blockno ∈ k.log.lh.block then k.log.lh.block
        else k.log.lh.block ++ [(k.bio.cache.buf b).blockno]) := by
  obtain ⟨L, hinv⟩ := hk.pins.bio
  have hown : k.bio.owner b ≠ none := by rw [ho]; simp
  have hc : k.bio.cache.carries ROOTDEV (k.bio.cache.buf b).blockno b = true := by
    simp [BCache.carries, hk.pins.dev_of_owner hown]
  have hset : (k.bio.setData b v).cache.view (k.bio.setData b v).disk =
      Function.update (k.bio.cache.view k.bio.disk) (k.bio.cache.buf b).blockno v :=
    BCache.view_setData hinv.unique hc (hk.pins.held b hown) v
  cases added with
  | false =>
      -- absorbed: the block is logged already, so its buffer is pinned
      have hx : (k.bio.cache.buf b).blockno ∈ k.log.lh.block := by simpa using hadded
      simp only [Bool.false_eq_true, if_false, Outcome.next.injEq] at hs
      subst hs
      have hpin : k.bio.pins b ≠ 0 := by
        rw [hk.pins.pins_eq_one ((pinned_of_quiet hq).mpr hx) hc]
        decide
      refine ⟨rfl, hset, ?_⟩
      rw [if_pos hx]
      exact (hk.pins.setData hpin v).congr fun y => (pinned_of_quiet hq).symm
  | true =>
      have hx : (k.bio.cache.buf b).blockno ∉ k.log.lh.block := hadded.mp rfl
      rw [if_pos rfl] at hs
      have hpi := hk.pins.setData_bpin ho (fun hp => hx ((pinned_of_quiet hq).mp hp)) hs
      obtain rfl := step_bpin hs
      refine ⟨rfl, ?_, ?_⟩
      · -- `bpin` moves a count only
        rw [← hset]
        exact BCache.view_of_counts fun _ => setBuf_refcnt _ _ _ _
      · rw [if_neg hx]
        exact hpi.congr fun y => by rw [List.mem_append, List.mem_singleton, pinned_of_quiet hq]

/-- A store into a held home block and its `log_write`: the log
system's `write` step with the stored bytes. -/
theorem write_step (hk : KInv k) {b : BufId} {v : Block} (ha : k.Allowed (.write i b v))
    (h : k.step (.write i b v) = .next k') : KInv k' ∧ HomeStep k.toSys k'.toSys := by
  obtain ⟨ho, hhome⟩ := ha
  obtain ⟨w, l, added, hw, hl, s, hs, rfl⟩ := step_write h
  have hq := hk.quiet_of_inOp hw
  have hlog := toSys_log_of_not_erasing (erasing_of_quiet hq)
  obtain ⟨-, -, -, hadded, hl'⟩ := logWrite_eq_ok hl
  obtain ⟨hdisk, hview, hpi⟩ := hk.logWrite_cache hq ho hadded hs
  have hq' : Kern.Quiet ⟨l, k.ops.set i (.inOp ((k.bio.cache.buf b).blockno :: w)), s⟩ :=
    Kern.quiet_set hq (fun _ h => by cases h) rfl
  have hstep : HomeStep k.toSys
      (⟨l, k.ops.set i (.inOp ((k.bio.cache.buf b).blockno :: w)), s⟩ : Kern).toSys := by
    refine ⟨.write i (k.bio.cache.buf b).blockno, v, fun _ _ he => ?_, ?_⟩
    · cases he
      rw [hlog]
      exact hhome
    · rw [Sys.step_write_of v (toSys_ops_getElem hw) (by rw [hlog]; exact hl),
        toSys_eq_mk (toSys_log_of_not_erasing (erasing_of_quiet hq')) List.map_set hdisk hview]
      rfl
  refine ⟨⟨(homeStep_sim _ _ hk.sys hstep).1, hpi.congr fun y => ?_,
    fun j c hj => absurd hj (hq' j c)⟩, hstep⟩
  rw [pinned_of_quiet hq', hl']

/-- `end_op`: the last operation out enters `commit()`, the log
system's `endOp` step. -/
theorem endOp_step (hk : KInv k) (h : k.step (.endOp i) = .next k') :
    KInv k' ∧ HomeStep k.toSys k'.toSys := by
  obtain ⟨w, l, c, hw, hl, hk'⟩ := step_endOp h
  obtain ⟨hlog', hops, hbio⟩ : k'.log = l ∧
      k'.ops = k.ops.set i (if c then .commit (if l.lh.n > 0 then .wlTo 0 else .done) else .idle) ∧
      k'.bio = k.bio := by
    subst hk'
    exact ⟨rfl, rfl, rfl⟩
  have hq := hk.quiet_of_inOp hw
  have hlt := (List.getElem?_eq_some_iff.mp hw).1
  -- the pc `end_op` leaves the thread at pins the whole header and holds no buffer
  have hp : ∀ c', (if c then Tpc.commit (if l.lh.n > 0 then .wlTo 0 else .done) else .idle) = .commit c' →
      c'.pinned l.lh.block = l.lh.block ∧ c'.erased = false ∧ CommitAt l k.bio i c' := by
    intro c' he
    cases c with
    | false => cases he
    | true =>
        cases he
        split <;> exact ⟨rfl, rfl, trivial⟩
  have her : k'.erasing = false := by
    rw [erasing_set_of_quiet hq hlt hops]
    cases c with
    | false => rfl
    | true => exact (hp _ rfl).2.1
  have htoPc : (if c then Tpc.commit (if l.lh.n > 0 then .wlTo 0 else .done) else .idle).toPc =
      if c then .commit (commitEntry l) else .idle := by
    cases c with
    | false => rfl
    | true => exact Tpc.toPc_endOp l
  have hstep : HomeStep k.toSys k'.toSys := by
    refine ⟨.endOp i, fun _ => 0, fun _ _ he => (by cases he), ?_⟩
    rw [Sys.step_endOp_of _ (toSys_ops_getElem hw)
        (by rw [toSys_log_of_not_erasing (erasing_of_quiet hq)]; exact hl),
      toSys_eq_mk ((toSys_log_of_not_erasing her).trans hlog') (by rw [hops, List.map_set, htoPc])
        (by rw [hbio]) (by rw [hbio])]
    rfl
  refine ⟨⟨(homeStep_sim _ _ hk.sys hstep).1, ?_, ?_⟩, hstep⟩
  · rw [hbio]
    refine hk.pins.congr fun y => ?_
    rw [pinned_set_of_quiet hq hops fun c' he => by rw [hlog']; exact (hp c' he).1,
      pinned_of_quiet hq, hlog', (endOp_eq_ok hl).2.2]
  · rw [hlog', hbio]
    exact commit_set_of_quiet hq hops fun c' he => (hp c' he).2.2

/-- A cache call of a thread outside `commit()`: a stutter. -/
theorem bioCall_step (hk : KInv k) {a : BioAct}
    (hpi : ∀ s', k.bio.step a = .next s' → s'.PinInv k.Pinned)
    (h : k.call a.thread a = .next k') : KInv k' ∧ k'.toSys = k.toSys := by
  obtain ⟨⟨p, hp, hnc⟩, s, hs, rfl⟩ := call_eq_next h
  exact hk.call hp hnc hs (hpi s hs)

end KInv

-- ============================================================ whole runs

/-- The log over the buffer cache refines the log system: every step
keeps `KInv` and is a stutter or one step of the image. -/
theorem kstep_sim : Relation.StutterSim Kern.KStep HomeStep KInv Kern.toSys := by
  rintro k k' hk ⟨a, ha, h⟩
  cases a with
  | beginOp i => exact (hk.beginOp_step h).imp_right .single
  | bread i x => exact KInv.stutter (hk.bioCall_step (fun _ hs => hk.pins.bget hs) h)
  | acquire i => exact KInv.stutter (hk.bioCall_step (fun _ hs => hk.pins.acquire hs) h)
  | write i b v => exact (hk.write_step ha h).imp_right .single
  | brelse i b => exact KInv.stutter (hk.bioCall_step (fun _ hs => hk.pins.brelse hs) h)
  | endOp i => exact (hk.endOp_step h).imp_right .single
  | commit i => exact hk.commit_step h

namespace Kern

theorem quiet_boot (d : Disk) (start size n : Nat) : (boot d start size n).Quiet := by
  intro i c h
  simp [boot, List.getElem?_replicate] at h

/-- Booted, the image is the log system booted on the same disk. -/
theorem toSys_boot (d : Disk) (start size n : Nat) :
    (boot d start size n).toSys = Sys.boot d start size n :=
  toSys_eq_mk (toSys_log_of_not_erasing (erasing_of_quiet (quiet_boot d start size n)))
    (by simp [boot, List.map_replicate, Tpc.toPc]) rfl (BCache.view_binit d)

end Kern

theorem kinv_boot {d : Disk} {start size n : Nat} (hc : headOf (d start) = .empty)
    (hn : n + 3 < 2 ^ 32) : KInv (Kern.boot d start size n) where
  sys := by
    rw [Kern.toSys_boot]
    exact Xv6.inv_boot hc
  pins := PinInv.boot d hn fun x hx => by simpa [Kern.boot, Log.init, LogHeader.empty] using hx.1
  locals := fun i c h => absurd h (Kern.quiet_boot d start size n i c)

/-- The run lemma: from a clean boot, every reachable state keeps the
invariant, and its image is reached by the log system. -/
theorem kern_reach {d : Disk} {start size n : Nat} {k : Kern} (hc : headOf (d start) = .empty)
    (hn : n + 3 < 2 ^ 32) (h : Relation.ReflTransGen Kern.KStep (Kern.boot d start size n) k) :
    KInv k ∧ Relation.ReflTransGen HomeStep (Sys.boot d start size n) k.toSys := by
  have hrun := kstep_sim.reach (kinv_boot hc hn) h
  rwa [Kern.toSys_boot] at hrun

end Xv6
