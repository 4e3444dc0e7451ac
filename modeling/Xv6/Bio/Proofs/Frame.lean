import Xv6.Bio.Proofs.Cache

/-!
What a call into the buffer cache leaves alone, for the callers that
did not make it.

No call writes the disk; a call by one thread leaves every other
thread's `bread` in progress and the locks it holds; and a buffer that
someone references keeps its identity, its valid bit and its bytes —
only its count moves. The last is where the representation invariant
enters: `bget` recycles only a buffer whose count, and so whose
references, are zero.
-/

namespace Xv6

/-- The thread making a call. -/
def BioAct.thread : BioAct → Nat
  | .bget i _ _ => i
  | .acquire i => i
  | .brelse i _ => i
  | .bpin i _ => i
  | .bunpin i _ => i

namespace BioSys

variable {s s' : BioSys} {L : List BufId} {a : BioAct} {i : Nat} {b : BufId}

/-- The threads holding buffer `b` or waiting for it in `bread`. -/
def holders (s : BioSys) (b : BufId) : Nat :=
  s.waiting.count (some b) + (if s.owner b = none then 0 else 1)

theorem refs_eq_holders (s : BioSys) (b : BufId) : s.refs b = s.holders b + s.pins b := rfl

theorem refcnt_ne_zero_of_owner (hinv : BioInv s L) (ho : s.owner b ≠ none) :
    (s.cache.buf b).refcnt ≠ 0 := by
  rw [hinv.count b]
  simp only [refs, ho, if_false]
  omega

theorem refcnt_ne_zero_of_waiting (hinv : BioInv s L) (hw : s.waiting[i]? = some (some b)) :
    (s.cache.buf b).refcnt ≠ 0 := by
  have hpos := count_pos_of_getElem? hw
  rw [hinv.count b]
  simp only [refs]
  omega

theorem refcnt_ne_zero_of_pins (hinv : BioInv s L) (hp : s.pins b ≠ 0) :
    (s.cache.buf b).refcnt ≠ 0 := by
  rw [hinv.count b]
  simp only [refs]
  omega

-- ================================================================ frames

/-- No call writes the disk. -/
theorem step_disk (h : s.step a = .next s') : s'.disk = s.disk := by
  cases a with
  | bget j dev blockno =>
      obtain ⟨_, _, -, -, rfl⟩ := step_bget h
      rfl
  | acquire j =>
      obtain ⟨_, -, -, rfl⟩ := step_acquire h
      rfl
  | brelse j b' =>
      obtain ⟨-, rfl⟩ := step_brelse h
      simp
  | bpin j b' => rw [step_bpin h]
  | bunpin j b' =>
      rw [step_bunpin h]
      simp

/-- Only `bpin` and `bunpin` move the pins. -/
theorem step_pins (h : s.step a = .next s') (ha : ∀ j b', a ≠ .bpin j b' ∧ a ≠ .bunpin j b') :
    s'.pins = s.pins := by
  cases a with
  | bget j dev blockno =>
      obtain ⟨_, _, -, -, rfl⟩ := step_bget h
      rfl
  | acquire j =>
      obtain ⟨_, -, -, rfl⟩ := step_acquire h
      rfl
  | brelse j b' =>
      obtain ⟨-, rfl⟩ := step_brelse h
      simp
  | bpin j b' => exact absurd rfl (ha j b').1
  | bunpin j b' => exact absurd rfl (ha j b').2

/-- Another thread's call leaves thread `i`'s `bread` where it was. -/
theorem step_waiting_of_ne (h : s.step a = .next s') (hi : a.thread ≠ i) :
    s'.waiting[i]? = s.waiting[i]? := by
  cases a with
  | bget j dev blockno =>
      obtain ⟨_, _, -, -, rfl⟩ := step_bget h
      exact List.getElem?_set_ne hi
  | acquire j =>
      obtain ⟨_, -, -, rfl⟩ := step_acquire h
      exact List.getElem?_set_ne hi
  | brelse j b' =>
      obtain ⟨-, rfl⟩ := step_brelse h
      simp
  | bpin j b' => rw [step_bpin h]
  | bunpin j b' =>
      rw [step_bunpin h]
      simp

/-- Another thread's call leaves the locks thread `i` holds: it can
only take a free lock, and only release its own. -/
theorem step_owner_of_ne (h : s.step a = .next s') (hi : a.thread ≠ i)
    (ho : s.owner b = some i) : s'.owner b = some i := by
  cases a with
  | bget j dev blockno =>
      obtain ⟨_, _, -, -, rfl⟩ := step_bget h
      exact ho
  | acquire j =>
      obtain ⟨b', -, hfree, rfl⟩ := step_acquire h
      have hne : b ≠ b' := fun he => by rw [he, hfree] at ho; cases ho
      simpa [Function.update_of_ne hne] using ho
  | brelse j b' =>
      obtain ⟨hj, rfl⟩ := step_brelse h
      have hne : b ≠ b' := fun he => hi (by rw [he, hj] at ho; simpa [BioAct.thread] using ho)
      simpa [Function.update_of_ne hne] using ho
  | bpin j b' =>
      rw [step_bpin h]
      exact ho
  | bunpin j b' =>
      rw [step_bunpin h]
      simpa using ho

/-- A lock stays with its holder through every call but its `brelse`. -/
theorem step_owner_keep (h : s.step a = .next s') (ha : ∀ j, a ≠ .brelse j b)
    (ho : s.owner b = some i) : s'.owner b = some i := by
  cases a with
  | bget j dev blockno =>
      obtain ⟨_, _, -, -, rfl⟩ := step_bget h
      exact ho
  | acquire j =>
      obtain ⟨b', -, hfree, rfl⟩ := step_acquire h
      have hne : b ≠ b' := fun he => by rw [he, hfree] at ho; cases ho
      simpa [Function.update_of_ne hne] using ho
  | brelse j b' =>
      obtain ⟨-, rfl⟩ := step_brelse h
      have hne : b ≠ b' := fun he => ha j (he ▸ rfl)
      simpa [Function.update_of_ne hne] using ho
  | bpin j b' =>
      rw [step_bpin h]
      exact ho
  | bunpin j b' =>
      rw [step_bunpin h]
      simpa using ho

/-- `acquiresleep` gives the caller the buffer it waited for. -/
theorem step_acquire_owner (h : s.step (.acquire i) = .next s') (hw : s.waiting[i]? = some (some b)) :
    s'.owner b = some i ∧ (s'.cache.buf b).dev = (s.cache.buf b).dev ∧
      (s'.cache.buf b).blockno = (s.cache.buf b).blockno := by
  obtain ⟨b', hw', -, rfl⟩ := step_acquire h
  rw [hw] at hw'
  cases hw'
  exact ⟨by simp, (BCache.fill_buf _ _ _ _).1, (BCache.fill_buf _ _ _ _).2.1⟩

/-- A count change leaves every other field of every buffer. -/
theorem setBuf_refcnt (c : BCache) (b' b : BufId) (r : Nat) :
    (c.setBuf b' { c.buf b' with refcnt := r }).buf b =
      { c.buf b with refcnt := ((c.setBuf b' { c.buf b' with refcnt := r }).buf b).refcnt } := by
  by_cases hb : b = b'
  · subst hb
    simp
  · simp only [BCache.setBuf_buf_of_ne _ _ hb]

/-- `brelse` moves one count. -/
theorem brelse_buf_counts (c : BCache) (b' b : BufId) :
    (c.brelse b').buf b = { c.buf b with refcnt := ((c.brelse b').buf b).refcnt } := by
  simp only [BCache.brelse_buf]
  by_cases hb : b = b'
  · subst hb
    simp only [if_true]
  · simp only [hb, if_false]

/-- A referenced, valid buffer keeps its identity, its valid bit and
its bytes through any call; only its count moves. -/
theorem step_keeps (hinv : BioInv s L) (h : s.step a = .next s')
    (hr : (s.cache.buf b).refcnt ≠ 0) (hv : (s.cache.buf b).valid = true) :
    s'.cache.buf b = { s.cache.buf b with refcnt := (s'.cache.buf b).refcnt } := by
  cases a with
  | bget j dev blockno =>
      obtain ⟨b', c, -, hb, rfl⟩ := step_bget h
      rcases BCache.bget_eq_ok hb with ⟨-, rfl⟩ | ⟨-, hvic, rfl⟩
      · exact setBuf_refcnt _ _ _ _
      · -- the victim had no reference, so it is another buffer
        have hzero : (s.cache.buf b').refcnt = 0 := by
          rw [BCache.victim_eq hinv.ring] at hvic
          simpa using List.find?_some hvic
        have hne : b ≠ b' := fun he => hr (he ▸ hzero)
        simp only [BCache.setBuf_buf_of_ne _ _ hne]
  | acquire j =>
      obtain ⟨b', -, -, rfl⟩ := step_acquire h
      simp only
      unfold BCache.fill
      split
      · rfl
      · next hinv' =>
          -- `fill` reads only a buffer that is not valid
          have hne : b ≠ b' := fun he => hinv' (he ▸ hv)
          simp only [BCache.setBuf_buf_of_ne _ _ hne]
  | brelse j b' =>
      obtain ⟨-, rfl⟩ := step_brelse h
      simp only [noteFree_cache]
      exact brelse_buf_counts _ _ _
  | bpin j b' =>
      rw [step_bpin h]
      exact setBuf_refcnt _ _ _ _
  | bunpin j b' =>
      rw [step_bunpin h]
      simp only [noteFree_cache]
      exact setBuf_refcnt _ _ _ _

/-- A referenced buffer keeps its identity through any call: `bget`
recycles only a buffer no one references. -/
theorem step_ids (hinv : BioInv s L) (h : s.step a = .next s') (hr : (s.cache.buf b).refcnt ≠ 0) :
    (s'.cache.buf b).dev = (s.cache.buf b).dev ∧
      (s'.cache.buf b).blockno = (s.cache.buf b).blockno := by
  cases a with
  | bget j dev blockno =>
      obtain ⟨b', c, -, hb, rfl⟩ := step_bget h
      rcases BCache.bget_eq_ok hb with ⟨-, rfl⟩ | ⟨-, hvic, rfl⟩
      · rw [setBuf_refcnt]
        exact ⟨rfl, rfl⟩
      · have hzero : (s.cache.buf b').refcnt = 0 := by
          rw [BCache.victim_eq hinv.ring] at hvic
          simpa using List.find?_some hvic
        have hne : b ≠ b' := fun he => hr (he ▸ hzero)
        simp [BCache.setBuf_buf_of_ne _ _ hne]
  | acquire j =>
      obtain ⟨b', -, -, rfl⟩ := step_acquire h
      exact ⟨(BCache.fill_buf _ _ _ _).1, (BCache.fill_buf _ _ _ _).2.1⟩
  | brelse j b' =>
      obtain ⟨-, rfl⟩ := step_brelse h
      rw [noteFree_cache, brelse_buf_counts]
      exact ⟨rfl, rfl⟩
  | bpin j b' =>
      rw [step_bpin h]
      by_cases hb : b = b'
      · subst hb; simp [BCache.bpin]
      · simp [BCache.bpin, BCache.setBuf_buf_of_ne _ _ hb]
  | bunpin j b' =>
      rw [step_bunpin h, noteFree_cache]
      by_cases hb : b = b'
      · subst hb; simp [BCache.bunpin]
      · simp [BCache.bunpin, BCache.setBuf_buf_of_ne _ _ hb]

-- ==================================================== what a bread does

/-- `bget` leaves the caller waiting for a buffer carrying the block. -/
theorem bget_waits (hinv : BioInv s L) {dev x : Nat} (h : s.step (.bget i dev x) = .next s') :
    ∃ b, s'.waiting[i]? = some (some b) ∧ s'.cache.carries dev x b = true := by
  obtain ⟨b, c, hw, hb, rfl⟩ := step_bget h
  have hi : i < s.waiting.length := (List.getElem?_eq_some_iff.mp hw).1
  refine ⟨b, by simp [hi], ?_⟩
  rcases BCache.bget_eq_ok hb with ⟨hl, rfl⟩ | ⟨-, -, rfl⟩
  · -- a hit: the count moves, the identity stays
    rw [BCache.lookup_eq hinv.ring] at hl
    simpa [BCache.carries] using List.find?_some hl
  · simp [BCache.carries]

end BioSys

end Xv6
