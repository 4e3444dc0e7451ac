import Xv6.Bio.Defs

/-!
The buffer cache with the threads that call it.

`bread` is two steps. The first is `bget` under `bcache.lock`: the
buffer gains its reference there. The second is the return of
`acquiresleep(&b->lock)`, which waits while another thread holds the
lock, followed by the disk read of a buffer not yet valid. Between
the two the thread is `waiting` for the buffer; it may hold other
buffers meanwhile (`bmap` holds the indirect block while `balloc`
reads the bitmap). `brelse` checks `holdingsleep` and panics for a
thread that does not hold the lock.

`bpin` and `bunpin` are unguarded in the source and are unguarded
here. Three ghost fields record what the claims about the cache are
stated in: the pins not yet undone, and, for the LRU order, when each
buffer's count last reached zero on a clock. `binit`'s pushes count as
the first releases, buffer `0` the earliest.
-/

namespace Xv6

/-- The buffer cache, the disk and the callers. -/
structure BioSys where
  cache : BCache
  disk : Disk
  /-- `b->lock`: `locked`, and the holder's thread in `pid`. -/
  owner : BufId → Option Nat
  /-- Per thread: the buffer `bget` handed it, not yet locked. -/
  waiting : List (Option BufId)
  /-- Ghost: the `bpin` calls not yet undone by a `bunpin`, per buffer. -/
  pins : BufId → Nat
  /-- Ghost: when the buffer's count last became zero. -/
  freedAt : BufId → Nat
  /-- Ghost: the clock `freedAt` is read on. -/
  clock : Nat

/-- A call of thread `i` into the cache. -/
inductive BioAct
  /-- `bread(dev, blockno)` up to `acquiresleep`. -/
  | bget (i dev blockno : Nat)
  /-- `acquiresleep` returns; `bread` reads the block if not valid. -/
  | acquire (i : Nat)
  | brelse (i : Nat) (b : BufId)
  | bpin (i : Nat) (b : BufId)
  | bunpin (i : Nat) (b : BufId)

namespace BioSys

/-- After `binit`, with `k` threads, none inside `bread`. -/
def boot (d : Disk) (k : Nat) : BioSys where
  cache := BCache.binit
  disk := d
  owner := fun _ => none
  waiting := List.replicate k none
  pins := fun _ => 0
  freedAt := fun b => b.val
  clock := NBUF

/-- Stamp buffer `b` with the clock if its count is now zero. -/
def noteFree (s : BioSys) (b : BufId) : BioSys :=
  if (s.cache.buf b).refcnt = 0 then
    { s with freedAt := Function.update s.freedAt b s.clock, clock := s.clock + 1 }
  else s

/-- One call, or one half of `bread`. -/
@[grind] def step (s : BioSys) : BioAct → Outcome BioSys
  | .bget i dev blockno =>
      match s.waiting[i]? with
      | some none =>
          match s.cache.bget dev blockno with
          | .ok (b, c) => .next { s with cache := c, waiting := s.waiting.set i (some b) }
          | .error msg => .panic msg
      | _ => .blocked
  | .acquire i =>
      match s.waiting[i]? with
      | some (some b) =>
          if s.owner b = none then
            .next { s with cache := s.cache.fill s.disk b,
                           owner := Function.update s.owner b (some i),
                           waiting := s.waiting.set i none }
          else .blocked
      | _ => .blocked
  | .brelse i b =>
      if s.owner b = some i then
        .next ({ s with cache := s.cache.brelse b, owner := Function.update s.owner b none }.noteFree b)
      else .panic "brelse"
  | .bpin _ b => .next { s with cache := s.cache.bpin b, pins := Function.update s.pins b (s.pins b + 1) }
  | .bunpin _ b =>
      .next ({ s with cache := s.cache.bunpin b,
                      pins := Function.update s.pins b (s.pins b - 1) }.noteFree b)

/-- The caller's `memmove` into a buffer: its bytes become `v`. -/
def setData (s : BioSys) (b : BufId) (v : Block) : BioSys :=
  { s with cache := s.cache.setBuf b { s.cache.buf b with data := v } }

/-- `bwrite(b)` by thread `i`: `panic("bwrite")` unless it holds the
lock, else the buffer's data goes to its block. -/
@[grind] def bwrite (s : BioSys) (i : Nat) (b : BufId) : Outcome BioSys :=
  if s.owner b = some i then .next { s with disk := s.cache.bwrite s.disk b } else .panic "bwrite"

-- ======================================================== one call

variable {s s' : BioSys} {i : Nat} {b : BufId}

@[simp] theorem setData_owner (v : Block) : (s.setData b v).owner = s.owner := rfl
@[simp] theorem setData_waiting (v : Block) : (s.setData b v).waiting = s.waiting := rfl
@[simp] theorem setData_pins (v : Block) : (s.setData b v).pins = s.pins := rfl
@[simp] theorem setData_disk (v : Block) : (s.setData b v).disk = s.disk := rfl
@[simp] theorem setData_freedAt (v : Block) : (s.setData b v).freedAt = s.freedAt := rfl
@[simp] theorem setData_clock (v : Block) : (s.setData b v).clock = s.clock := rfl
@[simp] theorem setData_links (v : Block) : (s.setData b v).cache.links = s.cache.links := rfl

/-- A store changes the bytes of one buffer and nothing else. -/
theorem setData_buf (v : Block) (b' : BufId) :
    (s.setData b v).cache.buf b' = if b' = b then { s.cache.buf b with data := v } else s.cache.buf b' := by
  by_cases hb : b' = b
  · subst hb
    simp [setData]
  · simp [setData, hb]

@[simp] theorem setData_dev (v : Block) (b' : BufId) :
    ((s.setData b v).cache.buf b').dev = (s.cache.buf b').dev := by
  rw [setData_buf]; split <;> simp_all
@[simp] theorem setData_blockno (v : Block) (b' : BufId) :
    ((s.setData b v).cache.buf b').blockno = (s.cache.buf b').blockno := by
  rw [setData_buf]; split <;> simp_all
@[simp] theorem setData_refcnt (v : Block) (b' : BufId) :
    ((s.setData b v).cache.buf b').refcnt = (s.cache.buf b').refcnt := by
  rw [setData_buf]; split <;> simp_all
@[simp] theorem setData_valid (v : Block) (b' : BufId) :
    ((s.setData b v).cache.buf b').valid = (s.cache.buf b').valid := by
  rw [setData_buf]; split <;> simp_all
@[simp] theorem setData_data_self (v : Block) : ((s.setData b v).cache.buf b).data = v := by
  simp [setData_buf]
theorem setData_data_of_ne (v : Block) {b' : BufId} (h : b' ≠ b) :
    ((s.setData b v).cache.buf b').data = (s.cache.buf b').data := by
  simp [setData_buf, h]

theorem bwrite_eq_next (h : s.bwrite i b = .next s') :
    s.owner b = some i ∧ s' = { s with disk := s.cache.bwrite s.disk b } := by
  unfold bwrite at h
  split at h
  · next ho =>
      cases h
      exact ⟨ho, rfl⟩
  · cases h

@[simp] theorem noteFree_cache (s : BioSys) (b : BufId) : (s.noteFree b).cache = s.cache := by
  unfold noteFree; split <;> rfl
@[simp] theorem noteFree_owner (s : BioSys) (b : BufId) : (s.noteFree b).owner = s.owner := by
  unfold noteFree; split <;> rfl
@[simp] theorem noteFree_waiting (s : BioSys) (b : BufId) : (s.noteFree b).waiting = s.waiting := by
  unfold noteFree; split <;> rfl
@[simp] theorem noteFree_pins (s : BioSys) (b : BufId) : (s.noteFree b).pins = s.pins := by
  unfold noteFree; split <;> rfl
@[simp] theorem noteFree_disk (s : BioSys) (b : BufId) : (s.noteFree b).disk = s.disk := by
  unfold noteFree; split <;> rfl

/-- A count that is not zero gets no stamp. -/
theorem noteFree_of_ne (h : (s.cache.buf b).refcnt ≠ 0) : s.noteFree b = s := by
  simp [noteFree, h]

theorem step_bget {dev blockno : Nat} (h : s.step (.bget i dev blockno) = .next s') :
    ∃ b c, s.waiting[i]? = some none ∧ s.cache.bget dev blockno = .ok (b, c) ∧
      s' = { s with cache := c, waiting := s.waiting.set i (some b) } := by
  simp only [step] at h
  split at h
  · next hw =>
      split at h
      · next b c hb =>
          cases h
          exact ⟨b, c, hw, hb, rfl⟩
      · cases h
  · cases h

theorem step_acquire (h : s.step (.acquire i) = .next s') :
    ∃ b, s.waiting[i]? = some (some b) ∧ s.owner b = none ∧
      s' = { s with cache := s.cache.fill s.disk b, owner := Function.update s.owner b (some i),
                    waiting := s.waiting.set i none } := by
  simp only [step] at h
  split at h
  · next b hw =>
      split at h
      · next ho =>
          cases h
          exact ⟨b, hw, ho, rfl⟩
      · cases h
  · cases h

theorem step_brelse (h : s.step (.brelse i b) = .next s') :
    s.owner b = some i ∧
      s' = ({ s with cache := s.cache.brelse b, owner := Function.update s.owner b none } :
        BioSys).noteFree b := by
  simp only [step] at h
  split at h
  · next ho =>
      cases h
      exact ⟨ho, rfl⟩
  · cases h

theorem step_bunpin (h : s.step (.bunpin i b) = .next s') :
    s' = ({ s with cache := s.cache.bunpin b, pins := Function.update s.pins b (s.pins b - 1) } :
      BioSys).noteFree b := by
  simp only [step] at h
  cases h
  rfl

theorem step_bpin (h : s.step (.bpin i b) = .next s') :
    s' = { s with cache := s.cache.bpin b, pins := Function.update s.pins b (s.pins b + 1) } := by
  simp only [step] at h
  cases h
  rfl

/-- Only `bget` panics on its own (`bget: no buffers`); `brelse`
panics for a thread without the lock. -/
theorem step_eq_panic {a : BioAct} {msg : String} (h : s.step a = .panic msg) :
    (∃ i dev blockno, a = .bget i dev blockno ∧ s.waiting[i]? = some none ∧
      s.cache.bget dev blockno = .error msg) ∨
    (∃ i b, a = .brelse i b ∧ s.owner b ≠ some i ∧ msg = "brelse") := by
  cases a with
  | bget i dev blockno =>
      simp only [step] at h
      split at h
      · next hw =>
          split at h
          · cases h
          · next e he =>
              cases h
              exact .inl ⟨i, dev, blockno, rfl, hw, he⟩
      · cases h
  | acquire i =>
      simp only [step] at h
      split at h
      · split at h <;> cases h
      · cases h
  | brelse i b =>
      simp only [step] at h
      split at h
      · cases h
      · next ho =>
          cases h
          exact .inr ⟨i, b, rfl, ho, rfl⟩
  | bpin i b => cases h
  | bunpin i b => cases h

end BioSys

end Xv6
