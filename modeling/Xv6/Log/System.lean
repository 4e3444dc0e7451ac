import Xv6.Log.Defs

/-!
The log as a concurrent system: any number of threads, each running
file-system operations bracketed by `begin_op`/`end_op`, one of them
running `commit()` after the `end_op` that brought `outstanding` to
zero. Every step is one critical section of `log.c` or one `bwrite`.

# Two layers

`LogSys` is the control state alone (`struct log` and each thread's
program counter); its `step` decides which actions are enabled and
which panic. `Sys` adds the disk and the buffer cache's view of it,
and `Sys.step` runs the control step and then the data effect of the
same action. The cache view `mem` is what `bread` returns: a block
that is cached (in particular every pinned, logged block) reads its
cached copy, any other block its disk contents.

# Granularity

An operation's write of a block — `bread`, modify, `log_write`,
`brelse` — is one step: the buffer's sleep-lock hides the modified
copy until `log_write` has run. `commit()` is one step per `bwrite`
of `write_log`, `write_head` and `install_trans(0)`, so a crash can
fall after any prefix of them. `recover_from_log` runs on the disk
alone: after a reboot the cache is empty and every recovery write is
a `bwrite`, so its reads see the disk.
-/

namespace Xv6

/-- Where the committing thread is inside `commit()` (and the tail of
`end_op` after it). -/
inductive Phase
  /-- `write_log`, about to copy entry `tail`. -/
  | writeLog (tail : Nat)
  /-- `write_head`: the commit point. -/
  | writeHead
  /-- `install_trans(0)`, about to install entry `tail`. -/
  | install (tail : Nat)
  /-- `log.lh.n = 0; write_head()`. -/
  | clear
  /-- `commit()` returned: `end_op` resets `log.committing`. -/
  | done
  deriving DecidableEq, Repr

/-- A thread's program counter. -/
inductive Pc
  /-- Outside any FS operation. -/
  | idle
  /-- Between `begin_op` and `end_op`. `written` (ghost) lists the
  block numbers this operation has passed to `log_write`. -/
  | inOp (written : List Nat)
  /-- Running `commit()` from its `end_op`. -/
  | commit (ph : Phase)
  deriving DecidableEq, Repr

/-- An action of thread `i`. -/
inductive Act
  | beginOp (i : Nat)
  /-- A logged write of block `b` by the operation of thread `i`. -/
  | write (i : Nat) (b : Nat)
  | endOp (i : Nat)
  /-- The next step of the commit thread `i`. -/
  | commit (i : Nat)
  deriving DecidableEq, Repr

/-- The control state: `struct log` and the threads. -/
structure LogSys where
  log : Log
  ops : List Pc
  deriving DecidableEq, Repr

/-- The phase `end_op` enters: `commit()` does nothing on an empty
log. -/
def commitEntry (l : Log) : Phase :=
  if l.lh.n > 0 then .writeLog 0 else .done

/-- One step of `commit()` on the control state. -/
@[grind] def commitCtl (l : Log) : Phase → Log × Pc
  | .writeLog tail => (l, .commit (if tail < l.lh.n then .writeLog (tail + 1) else .writeHead))
  | .writeHead => (l, .commit (.install 0))
  | .install tail => (l, .commit (if tail < l.lh.n then .install (tail + 1) else .clear))
  | .clear => ({ l with lh := .empty }, .commit .done)
  | .done => ({ l with committing := false }, .idle)

namespace LogSys

/-- Boot: the log as `initlog` leaves it and `k` idle threads. -/
def boot (start size k : Nat) : LogSys := ⟨Log.init start size, List.replicate k .idle⟩

/-- One action on the control state. -/
@[grind] def step (s : LogSys) : Act → Outcome LogSys
  | .beginOp i =>
      match s.ops[i]? with
      | some .idle =>
          match beginOp s.log with
          | some l => .next ⟨l, s.ops.set i (.inOp [])⟩
          | none => .blocked
      | _ => .blocked
  | .write i b =>
      match s.ops[i]? with
      | some (.inOp w) =>
          match logWrite s.log b with
          | .ok (l, _) => .next ⟨l, s.ops.set i (.inOp (b :: w))⟩
          | .error msg => .panic msg
      | _ => .blocked
  | .endOp i =>
      match s.ops[i]? with
      | some (.inOp _) =>
          match endOp s.log with
          | .ok (l, true) => .next ⟨l, s.ops.set i (.commit (commitEntry l))⟩
          | .ok (l, false) => .next ⟨l, s.ops.set i .idle⟩
          | .error msg => .panic msg
      | _ => .blocked
  | .commit i =>
      match s.ops[i]? with
      | some (.commit ph) =>
          let r := commitCtl s.log ph
          .next ⟨r.1, s.ops.set i r.2⟩
      | _ => .blocked

-- ================================================= step inversion

variable {s s' : LogSys} {i : Nat}

theorem step_beginOp (h : s.step (.beginOp i) = .next s') :
    s.ops[i]? = some .idle ∧ ∃ l, beginOp s.log = some l ∧ s' = ⟨l, s.ops.set i (.inOp [])⟩ := by
  simp only [step] at h
  split at h
  · next hi =>
      split at h
      · next l hl =>
          cases h
          exact ⟨hi, l, hl, rfl⟩
      · cases h
  · cases h

theorem step_write {b : Nat} (h : s.step (.write i b) = .next s') :
    ∃ w l added, s.ops[i]? = some (.inOp w) ∧ logWrite s.log b = .ok (l, added) ∧
      s' = ⟨l, s.ops.set i (.inOp (b :: w))⟩ := by
  simp only [step] at h
  split at h
  · next w hi =>
      split at h
      · next l added hl =>
          cases h
          exact ⟨w, l, added, hi, hl, rfl⟩
      · cases h
  · cases h

theorem step_endOp (h : s.step (.endOp i) = .next s') :
    ∃ w l c, s.ops[i]? = some (.inOp w) ∧ endOp s.log = .ok (l, c) ∧
      s' = ⟨l, s.ops.set i (if c then .commit (commitEntry l) else .idle)⟩ := by
  simp only [step] at h
  split at h
  · next w hi =>
      split at h
      · next l hl =>
          cases h
          exact ⟨w, l, true, hi, hl, rfl⟩
      · next l hl =>
          cases h
          exact ⟨w, l, false, hi, hl, rfl⟩
      · cases h
  · cases h

/-- `end_op` panics only in an operation, while a commit runs. -/
theorem step_endOp_panic {msg : String} (h : s.step (.endOp i) = .panic msg) :
    ∃ w, s.ops[i]? = some (.inOp w) ∧ s.log.committing = true := by
  simp only [step] at h
  split at h
  · next w hi =>
      split at h
      · cases h
      · cases h
      · next msg' hl => exact ⟨w, hi, endOp_eq_error hl⟩
  · cases h

theorem step_commit (h : s.step (.commit i) = .next s') :
    ∃ ph, s.ops[i]? = some (.commit ph) ∧
      s' = ⟨(commitCtl s.log ph).1, s.ops.set i (commitCtl s.log ph).2⟩ := by
  simp only [step] at h
  split at h
  · next ph hi =>
      cases h
      exact ⟨ph, hi, rfl⟩
  · cases h

end LogSys

-- ==================================================== the data layer

/-- The whole system: control state, disk, and the cache view. -/
structure Sys where
  ctl : LogSys
  disk : Disk
  mem : Disk

namespace Sys

/-- Boot on disk `d`: the cache is empty, so `bread` sees the disk. -/
def boot (d : Disk) (start size k : Nat) : Sys := ⟨LogSys.boot start size k, d, d⟩

/-- The data effect of one `commit()` step, from the log state before
it: `write_log` copies the cached home block into its log block,
`write_head` stores the header, `install_trans(0)` copies the log
block into the home block; each writes the cache copy and the disk. -/
@[grind] def commitData (l : Log) (disk mem : Disk) : Phase → Disk × Disk
  | .writeLog tail =>
      match l.lh.block[tail]? with
      | some home =>
          let v := mem home
          (Function.update disk (l.slot tail) v, Function.update mem (l.slot tail) v)
      | none => (disk, mem)
  | .writeHead =>
      let hb := putHead (mem l.start) l.lh
      (Function.update disk l.start hb, Function.update mem l.start hb)
  | .install tail =>
      match l.lh.block[tail]? with
      | some home =>
          let v := mem (l.slot tail)
          (Function.update disk home v, Function.update mem home v)
      | none => (disk, mem)
  | .clear =>
      let hb := putHead (mem l.start) .empty
      (Function.update disk l.start hb, Function.update mem l.start hb)
  | .done => (disk, mem)

/-- One action; a write carries the new contents `v` of its block. -/
@[grind] def step (s : Sys) (a : Act) (v : Block) : Outcome Sys :=
  match s.ctl.step a with
  | .blocked => .blocked
  | .panic msg => .panic msg
  | .next c =>
      match a with
      | .write _ b => .next ⟨c, s.disk, Function.update s.mem b v⟩
      | .commit i =>
          match s.ctl.ops[i]? with
          | some (.commit ph) =>
              let r := commitData s.ctl.log s.disk s.mem ph
              .next ⟨c, r.1, r.2⟩
          | _ => .next ⟨c, s.disk, s.mem⟩
      | _ => .next ⟨c, s.disk, s.mem⟩

/-- Every system step is a control step. -/
theorem step_ctl {s s' : Sys} {a : Act} {v : Block} (h : s.step a v = .next s') :
    s.ctl.step a = .next s'.ctl := by
  simp only [step] at h
  split at h
  · cases h
  · cases h
  · next c hc =>
      cases a <;> simp only at h <;> (try split at h) <;> (cases h; exact hc)

/-- A logged write changes the cached block and nothing on disk. -/
theorem step_write_data {s s' : Sys} {i b : Nat} {v : Block}
    (h : s.step (.write i b) v = .next s') :
    s'.disk = s.disk ∧ s'.mem = Function.update s.mem b v := by
  simp only [step] at h
  split at h
  · cases h
  · cases h
  · cases h
    exact ⟨rfl, rfl⟩

/-- A commit step has the data effect of its phase. -/
theorem step_commit_data {s s' : Sys} {i : Nat} {v : Block}
    (h : s.step (.commit i) v = .next s') :
    ∃ ph, s.ctl.ops[i]? = some (.commit ph) ∧
      (s'.disk, s'.mem) = commitData s.ctl.log s.disk s.mem ph := by
  have hc := step_ctl h
  obtain ⟨ph, hph, -⟩ := LogSys.step_commit hc
  simp only [step, hc, hph, Outcome.next.injEq] at h
  rw [← h]
  exact ⟨ph, hph, rfl⟩

/-- A commit step, whole: the control step of its phase and the data
effect of the same phase. -/
theorem step_commit_eq {s s' : Sys} {i : Nat} {v : Block}
    (h : s.step (.commit i) v = .next s') :
    ∃ ph, s.ctl.ops[i]? = some (.commit ph) ∧
      s' = ⟨⟨(commitCtl s.ctl.log ph).1, s.ctl.ops.set i (commitCtl s.ctl.log ph).2⟩,
        (commitData s.ctl.log s.disk s.mem ph).1, (commitData s.ctl.log s.disk s.mem ph).2⟩ := by
  have hc := step_ctl h
  obtain ⟨ph, hph, hctl⟩ := LogSys.step_commit hc
  simp only [step, LogSys.step, hph, Outcome.next.injEq] at h
  exact ⟨ph, hph, h.symm⟩

/-- The commit step of the phase the thread is in. -/
theorem step_commit_of {s : Sys} {i : Nat} {ph : Phase} (v : Block)
    (h : s.ctl.ops[i]? = some (.commit ph)) :
    s.step (.commit i) v = .next
      ⟨⟨(commitCtl s.ctl.log ph).1, s.ctl.ops.set i (commitCtl s.ctl.log ph).2⟩,
        (commitData s.ctl.log s.disk s.mem ph).1, (commitData s.ctl.log s.disk s.mem ph).2⟩ := by
  simp only [step, LogSys.step, h]

/-- An admitted `begin_op`, forward. -/
theorem step_beginOp_of {s : Sys} {i : Nat} {l : Log} (v : Block) (hi : s.ctl.ops[i]? = some .idle)
    (hl : beginOp s.ctl.log = some l) :
    s.step (.beginOp i) v = .next ⟨⟨l, s.ctl.ops.set i (.inOp [])⟩, s.disk, s.mem⟩ := by
  simp only [step, LogSys.step, hi, hl]

/-- A returning `log_write`, forward: the new bytes go to the cache. -/
theorem step_write_of {s : Sys} {i b : Nat} {w : List Nat} {l : Log} {added : Bool} (v : Block)
    (hi : s.ctl.ops[i]? = some (.inOp w)) (hl : logWrite s.ctl.log b = .ok (l, added)) :
    s.step (.write i b) v =
      .next ⟨⟨l, s.ctl.ops.set i (.inOp (b :: w))⟩, s.disk, Function.update s.mem b v⟩ := by
  simp only [step, LogSys.step, hi, hl]

/-- A returning `end_op`, forward. -/
theorem step_endOp_of {s : Sys} {i : Nat} {w : List Nat} {l : Log} {c : Bool} (v : Block)
    (hi : s.ctl.ops[i]? = some (.inOp w)) (hl : endOp s.ctl.log = .ok (l, c)) :
    s.step (.endOp i) v =
      .next ⟨⟨l, s.ctl.ops.set i (if c then .commit (commitEntry l) else .idle)⟩, s.disk, s.mem⟩ := by
  cases c <;> simp only [step, LogSys.step, hi, hl, Bool.false_eq_true, if_true, if_false]

/-- `begin_op` and `end_op` touch no data. -/
theorem step_data_of_ctl {s s' : Sys} {a : Act} {v : Block} (h : s.step a v = .next s')
    (ha : (∀ i, a ≠ .commit i) ∧ ∀ i b, a ≠ .write i b) :
    s'.disk = s.disk ∧ s'.mem = s.mem := by
  simp only [step] at h
  split at h
  · cases h
  · cases h
  · cases a with
    | write j b => exact absurd rfl (ha.2 j b)
    | commit j => exact absurd rfl (ha.1 j)
    | beginOp j =>
        cases h
        exact ⟨rfl, rfl⟩
    | endOp j =>
        cases h
        exact ⟨rfl, rfl⟩

/-- A system panic is a control panic. -/
theorem step_eq_panic {s : Sys} {a : Act} {v : Block} {msg : String}
    (h : s.step a v = .panic msg) : s.ctl.step a = .panic msg := by
  simp only [step] at h
  split at h
  · cases h
  · next msg' hc =>
      cases h
      exact hc
  · cases a <;> simp only at h <;> (try split at h) <;> cases h

end Sys

-- ======================================================== recovery

/-- Where `recover_from_log` is. -/
inductive RecPhase
  | readHead
  /-- `install_trans(1)` with the header read, about to install
  entry `tail`. -/
  | install (lh : LogHeader) (tail : Nat)
  /-- `log.lh.n = 0; write_head()`. -/
  | clear
  | done
  deriving DecidableEq, Repr

/-- The recovering system: the disk and where recovery is. -/
structure Rec where
  disk : Disk
  ph : RecPhase

namespace Rec

/-- One step of `recover_from_log` for the log at `start`. -/
@[grind] def step (start : Nat) (r : Rec) : Rec :=
  match r.ph with
  | .readHead => ⟨r.disk, .install (headOf (r.disk start)) 0⟩
  | .install lh tail =>
      match lh.block[tail]? with
      | some home =>
          ⟨Function.update r.disk home (r.disk (start + tail + 1)), .install lh (tail + 1)⟩
      | none => ⟨r.disk, .clear⟩
  | .clear => ⟨Function.update r.disk start (putHead (r.disk start) .empty), .done⟩
  | .done => r

/-- A crash: the disk survives and the next boot restarts recovery. -/
def crash (r : Rec) : Rec := ⟨r.disk, .readHead⟩

/-- One recovery step or one crash. -/
def Move (start : Nat) (r r' : Rec) : Prop := r' = step start r ∨ r' = crash r

end Rec

end Xv6
