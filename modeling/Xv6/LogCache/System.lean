import Xv6.Log.System
import Xv6.Bio.System

/-!
The log running over the buffer cache: the threads of `Log/System.lean`
with their block reads and writes made through `bio.c`, and `commit()`
one statement at a time.

# What changes against the log system

In `Sys` a logged write is one step and the cache is a view of the
disk. Here the file-system thread reads the block with `bread` (the
`bget` and `acquiresleep` halves of `Bio/System.lean`), stores into the
buffer it holds, calls `log_write`, which pins the buffer when it adds
the block to the header, and releases it with `brelse`. Any thread may
read and release blocks outside an operation too, as `fileread` does.

`commit()` is the code of `log.c` statement by statement: each `bread`
is two steps, a `memmove` into a buffer with the `bwrite` after it is
one (the buffer is locked, nobody sees the bytes before the disk
does), and `install_trans(0)` unpins each home buffer it has written.
`Cpc` is where the committing thread is, with the `struct buf *`
locals in scope, and `Cpc.stmt` is the statement there.

All reads go to the root device; `log.dev` is `ROOTDEV`.
-/

namespace Xv6

/-- Where the committing thread is in `commit()`, with the buffers its
locals hold (`write_log`'s `to` and `from` are `dst` and `src`). -/
inductive Cpc
  /-- `write_log`'s loop test at `tail`, then the `bget` of
  `to = bread(log.dev, log.start+tail+1)`. -/
  | wlTo (tail : Nat)
  /-- The `acquiresleep` of `to`'s `bread`. -/
  | wlToLock (tail : Nat)
  /-- `from = bread(log.dev, log.lh.block[tail])`. -/
  | wlFrom (tail : Nat) (dst : BufId)
  | wlFromLock (tail : Nat) (dst : BufId)
  /-- `memmove(to->data, from->data, BSIZE); bwrite(to)`. -/
  | wlCopy (tail : Nat) (dst src : BufId)
  /-- `brelse(from)`. -/
  | wlRelFrom (tail : Nat) (dst src : BufId)
  /-- `brelse(to)`. -/
  | wlRelTo (tail : Nat) (dst : BufId)
  /-- `write_head`'s `bread(log.dev, log.start)`; `erased` marks the
  call after `log.lh.n = 0`. -/
  | whRead (erased : Bool)
  | whLock (erased : Bool)
  /-- `hb->n = log.lh.n`, the entries, `bwrite(buf)`. -/
  | whStore (erased : Bool) (buf : BufId)
  | whRel (erased : Bool) (buf : BufId)
  /-- `install_trans(0)`'s loop test at `tail`, then
  `lbuf = bread(log.dev, log.start+tail+1)`. -/
  | itL (tail : Nat)
  | itLLock (tail : Nat)
  /-- `dbuf = bread(log.dev, log.lh.block[tail])`. -/
  | itD (tail : Nat) (lbuf : BufId)
  | itDLock (tail : Nat) (lbuf : BufId)
  /-- `memmove(dbuf->data, lbuf->data, BSIZE); bwrite(dbuf)`. -/
  | itCopy (tail : Nat) (lbuf dbuf : BufId)
  /-- `bunpin(dbuf)`. -/
  | itUnpin (tail : Nat) (lbuf dbuf : BufId)
  /-- `brelse(lbuf)`. -/
  | itRelL (tail : Nat) (lbuf dbuf : BufId)
  /-- `brelse(dbuf)`. -/
  | itRelD (tail : Nat) (dbuf : BufId)
  /-- `log.lh.n = 0`. -/
  | erase
  /-- `commit()` returned: `end_op` clears `log.committing`. -/
  | done
  deriving DecidableEq, Repr

/-- What one statement of `commit()` does, and where it goes next. -/
inductive CStmt
  /-- The `bget` half of `bread(log.dev, blockno)`. -/
  | bread (blockno : Nat) (next : Cpc)
  /-- The `acquiresleep` half; the buffer becomes the local. -/
  | lock (next : BufId → Cpc)
  /-- `memmove` of the bytes `v` into `dst`, then `bwrite(dst)`. -/
  | write (dst : BufId) (v : Block) (next : Cpc)
  | unpin (b : BufId) (next : Cpc)
  | release (b : BufId) (next : Cpc)
  /-- A loop test that leaves the loop. -/
  | exit (next : Cpc)
  /-- `log.lh.n = 0`. -/
  | erase (next : Cpc)
  /-- `log.committing = 0; wakeup(&log)`. -/
  | finish

namespace Cpc

/-- The statement at `c`, in the log `l` and the cache `ca`. -/
@[grind] def stmt (l : Log) (ca : BCache) : Cpc → CStmt
  | .wlTo t => if t < l.lh.n then .bread (l.slot t) (.wlToLock t) else .exit (.whRead false)
  | .wlToLock t => .lock (.wlFrom t)
  | .wlFrom t dst => .bread (l.lh.block.getD t 0) (.wlFromLock t dst)
  | .wlFromLock t dst => .lock (.wlCopy t dst)
  | .wlCopy t dst src => .write dst (ca.buf src).data (.wlRelFrom t dst src)
  | .wlRelFrom t dst src => .release src (.wlRelTo t dst)
  | .wlRelTo t dst => .release dst (.wlTo (t + 1))
  | .whRead e => .bread l.start (.whLock e)
  | .whLock e => .lock (.whStore e)
  | .whStore e b => .write b (putHead (ca.buf b).data l.lh) (.whRel e b)
  -- the first `write_head` goes on to `install_trans(0)`, the second ends `commit()`
  | .whRel e b => .release b (if e then .done else .itL 0)
  | .itL t => if t < l.lh.n then .bread (l.slot t) (.itLLock t) else .exit .erase
  | .itLLock t => .lock (.itD t)
  | .itD t lb => .bread (l.lh.block.getD t 0) (.itDLock t lb)
  | .itDLock t lb => .lock (.itCopy t lb)
  | .itCopy t lb db => .write db (ca.buf lb).data (.itUnpin t lb db)
  | .itUnpin t lb db => .unpin db (.itRelL t lb db)
  | .itRelL t lb db => .release lb (.itRelD t db)
  | .itRelD t db => .release db (.itL (t + 1))
  | .erase => .erase (.whRead true)
  | .done => .finish

end Cpc

/-- A thread's program counter. -/
inductive Tpc
  | idle
  /-- Between `begin_op` and `end_op`; `written` (ghost) lists the
  blocks passed to `log_write`. -/
  | inOp (written : List Nat)
  | commit (c : Cpc)
  deriving DecidableEq, Repr

/-- A call of thread `i`. -/
inductive KAct
  | beginOp (i : Nat)
  /-- The `bget` half of `bread(ROOTDEV, blockno)`. -/
  | bread (i blockno : Nat)
  /-- The `acquiresleep` half. -/
  | acquire (i : Nat)
  /-- Store `v` into buffer `b`, then `log_write(b)`. -/
  | write (i : Nat) (b : BufId) (v : Block)
  | brelse (i : Nat) (b : BufId)
  | endOp (i : Nat)
  /-- The next statement of `commit()`. -/
  | commit (i : Nat)

/-- `struct log`, the threads, and the buffer cache with the disk. -/
structure Kern where
  log : Log
  ops : List Tpc
  bio : BioSys

namespace Kern

/-- After `binit` and `initlog`'s recovery, with `n` idle threads. -/
@[grind] def boot (d : Disk) (start size n : Nat) : Kern :=
  ⟨Log.init start size, List.replicate n .idle, BioSys.boot d n⟩

/-- A buffer-cache call by thread `i`, outside `commit()`. -/
@[grind] def call (k : Kern) (i : Nat) (a : BioAct) : Outcome Kern :=
  match k.ops[i]? with
  | some (.commit _) => .blocked
  | some _ => (k.bio.step a).map fun s => { k with bio := s }
  | none => .blocked

/-- Thread `i` in `commit()` moves to `c` with the cache `o` leaves. -/
def advance (k : Kern) (i : Nat) (c : Cpc) (o : Outcome BioSys) : Outcome Kern :=
  o.map fun s => { k with bio := s, ops := k.ops.set i (.commit c) }

/-- Thread `i` runs one statement of `commit()`. -/
@[grind] def commitStep (k : Kern) (i : Nat) : CStmt → Outcome Kern
  | .bread x c => k.advance i c (k.bio.step (.bget i ROOTDEV x))
  | .lock f =>
      match k.bio.waiting[i]? with
      | some (some b) => k.advance i (f b) (k.bio.step (.acquire i))
      | _ => .blocked
  | .write b v c => k.advance i c ((k.bio.setData b v).bwrite i b)
  | .unpin b c => k.advance i c (k.bio.step (.bunpin i b))
  | .release b c => k.advance i c (k.bio.step (.brelse i b))
  | .exit c => .next { k with ops := k.ops.set i (.commit c) }
  | .erase c => .next { k with log := { k.log with lh := .empty }, ops := k.ops.set i (.commit c) }
  | .finish => .next { k with log := { k.log with committing := false }, ops := k.ops.set i .idle }

/-- One call, or one statement of `commit()`. -/
@[grind] def step (k : Kern) : KAct → Outcome Kern
  | .beginOp i =>
      match k.ops[i]? with
      | some .idle =>
          match beginOp k.log with
          | some l => .next { k with log := l, ops := k.ops.set i (.inOp []) }
          | none => .blocked
      | _ => .blocked
  | .bread i blockno => k.call i (.bget i ROOTDEV blockno)
  | .acquire i => k.call i (.acquire i)
  | .write i b v =>
      match k.ops[i]? with
      | some (.inOp w) =>
          let x := (k.bio.cache.buf b).blockno
          match logWrite k.log x with
          | .ok (l, added) =>
              -- `bpin(b)` when the block joins the header
              let s := k.bio.setData b v
              (if added then s.step (.bpin i b) else .next s).map fun s' =>
                ⟨l, k.ops.set i (.inOp (x :: w)), s'⟩
          | .error msg => .panic msg
      | _ => .blocked
  | .brelse i b => k.call i (.brelse i b)
  | .endOp i =>
      match k.ops[i]? with
      | some (.inOp _) =>
          match endOp k.log with
          -- `commit()` does nothing on an empty header
          | .ok (l, true) =>
              .next { k with log := l, ops := k.ops.set i (.commit (if l.lh.n > 0 then .wlTo 0 else .done)) }
          | .ok (l, false) => .next { k with log := l, ops := k.ops.set i .idle }
          | .error msg => .panic msg
      | _ => .blocked
  | .commit i =>
      match k.ops[i]? with
      | some (.commit c) => k.commitStep i (c.stmt k.log k.bio.cache)
      | _ => .blocked

-- ================================================= step inversion

variable {k k' : Kern} {i : Nat}

theorem call_eq_next {a : BioAct} (h : k.call i a = .next k') :
    (∃ p, k.ops[i]? = some p ∧ ∀ c, p ≠ .commit c) ∧
      ∃ s, k.bio.step a = .next s ∧ k' = { k with bio := s } := by
  unfold call at h
  split at h
  · cases h
  · next p hnc hp =>
      obtain ⟨s, hs, rfl⟩ := Outcome.map_eq_next h
      exact ⟨⟨p, hp, fun c he => hnc c (he ▸ rfl)⟩, s, hs, rfl⟩
  · cases h

theorem advance_eq_next {c : Cpc} {o : Outcome BioSys} (h : k.advance i c o = .next k') :
    ∃ s, o = .next s ∧ k' = { k with bio := s, ops := k.ops.set i (.commit c) } :=
  Outcome.map_eq_next h

theorem step_beginOp (h : k.step (.beginOp i) = .next k') :
    k.ops[i]? = some .idle ∧ ∃ l, beginOp k.log = some l ∧
      k' = { k with log := l, ops := k.ops.set i (.inOp []) } := by
  simp only [step] at h
  split at h
  · next hi =>
      split at h
      · next l hl =>
          cases h
          exact ⟨hi, l, hl, rfl⟩
      · cases h
  · cases h

theorem step_write {b : BufId} {v : Block} (h : k.step (.write i b v) = .next k') :
    ∃ w l added, k.ops[i]? = some (.inOp w) ∧
      logWrite k.log (k.bio.cache.buf b).blockno = .ok (l, added) ∧
      ∃ s, (if added then (k.bio.setData b v).step (.bpin i b) else .next (k.bio.setData b v)) = .next s ∧
        k' = ⟨l, k.ops.set i (.inOp ((k.bio.cache.buf b).blockno :: w)), s⟩ := by
  simp only [step] at h
  split at h
  · next w hi =>
      split at h
      · next l added hl =>
          obtain ⟨s, hs, rfl⟩ := Outcome.map_eq_next h
          exact ⟨w, l, added, hi, hl, s, hs, rfl⟩
      · cases h
  · cases h

theorem step_endOp (h : k.step (.endOp i) = .next k') :
    ∃ w l c, k.ops[i]? = some (.inOp w) ∧ endOp k.log = .ok (l, c) ∧
      k' = ⟨l, k.ops.set i (if c then .commit (if l.lh.n > 0 then .wlTo 0 else .done) else .idle), k.bio⟩ := by
  simp only [step] at h
  split at h
  · next w hi =>
      split at h
      · next l hl =>
          cases h
          exact ⟨w, l, true, hi, hl, rfl⟩
      · next l hl =>
          cases h
          exact ⟨w, l, false, hi, hl, rfl⟩
      · cases h
  · cases h

theorem step_commit (h : k.step (.commit i) = .next k') :
    ∃ c, k.ops[i]? = some (.commit c) ∧ k.commitStep i (c.stmt k.log k.bio.cache) = .next k' := by
  simp only [step] at h
  split at h
  · next c hi => exact ⟨c, hi, h⟩
  · cases h

theorem commitStep_lock {f : BufId → Cpc} (h : k.commitStep i (.lock f) = .next k') :
    ∃ b, k.bio.waiting[i]? = some (some b) ∧ ∃ s, k.bio.step (.acquire i) = .next s ∧
      k' = { k with bio := s, ops := k.ops.set i (.commit (f b)) } := by
  simp only [commitStep] at h
  split at h
  · next b hw =>
      obtain ⟨s, hs, rfl⟩ := advance_eq_next h
      exact ⟨b, hw, s, hs, rfl⟩
  · cases h

/-- The calls the file system makes: `log_write` of a home block, in
a buffer the caller holds. -/
def Allowed (k : Kern) : KAct → Prop
  | .write i b _ => k.bio.owner b = some i ∧ k.log.home (k.bio.cache.buf b).blockno
  | _ => True

/-- A step of the system under those calls. -/
def KStep (k k' : Kern) : Prop := ∃ a, k.Allowed a ∧ k.step a = .next k'

end Kern

end Xv6
