import Xv6.Bio.System
import Xv6.Lib.Simulation
import Mathlib.Data.Fintype.Card
import Mathlib.Logic.Relation

/-!
The buffer cache's representation invariant.

Over the cache alone: `binit` links the `NBUF` buffers into one ring,
`bget`'s loops are `find?` on the ring and on its reverse, and no step
but `brelse` moves a link.

Over the cache and its callers, `BioInv s L` ties the ring `L` to the
fields: every buffer is on it once, an identity `(dev, blockno)` with
`dev ≠ 0` sits in one buffer, each `refcnt` counts exactly the
references (threads waiting in `bread`, the holder, the pins), and the
buffers no one references are in the order their counts reached zero,
most recent first. The last field is what makes `bget`'s second loop
take the least recently released buffer.

It holds after `binit` and through every call in which `bpin` and
`bunpin` are made by the buffer's holder, at most one pin at a time,
as `log_write` and `install_trans` make them.
-/

namespace Xv6

open Relation

namespace BCache

variable {c : BCache} {L : List BufId}

theorem isRing_binit : binit.links.IsRing (List.finRange NBUF).reverse := by
  have hnd : (List.finRange NBUF ++ []).Nodup := by simpa using List.nodup_finRange NBUF
  have h := Links.isRing_empty.foldl_pushFront hnd
  simpa [binit] using h

/-- A ring of buffers is no longer than the array. -/
theorem length_le_of_isRing (h : c.links.IsRing L) : L.length ≤ NBUF := by
  simpa using h.nodup.length_le_card

/-- `bget`'s first loop finds the first buffer of the list carrying
the block. -/
theorem lookup_eq (h : c.links.IsRing L) (dev blockno : Nat) :
    c.lookup dev blockno = L.find? (c.carries dev blockno) :=
  h.scanNext_eq_find? _ (length_le_of_isRing h)

/-- `bget`'s second loop finds the last unused buffer of the list. -/
theorem victim_eq (h : c.links.IsRing L) :
    c.victim = L.reverse.find? (fun b => (c.buf b).refcnt == 0) :=
  h.scanPrev_eq_find? _ (length_le_of_isRing h)

/-- What a returning `bget` did. -/
theorem bget_eq_ok {dev blockno : Nat} {b : BufId} {c' : BCache}
    (h : c.bget dev blockno = .ok (b, c')) :
    (c.lookup dev blockno = some b ∧
        c' = c.setBuf b { c.buf b with refcnt := uintInc (c.buf b).refcnt }) ∨
      (c.lookup dev blockno = none ∧ c.victim = some b ∧
        c' = c.setBuf b { c.buf b with dev, blockno, valid := false, refcnt := 1 }) := by
  unfold bget at h
  split at h
  · next b' hl =>
      cases h
      exact .inl ⟨hl, rfl⟩
  · next hl =>
      split at h
      · next b' hv =>
          cases h
          exact .inr ⟨hl, hv, rfl⟩
      · cases h

@[simp] theorem fill_links (c : BCache) (d : Disk) (b : BufId) : (c.fill d b).links = c.links := by
  unfold fill; split <;> rfl

@[simp] theorem bpin_links (c : BCache) (b : BufId) : (c.bpin b).links = c.links := rfl

@[simp] theorem bunpin_links (c : BCache) (b : BufId) : (c.bunpin b).links = c.links := rfl

/-- `fill` changes only the data and the valid bit. -/
theorem fill_buf (c : BCache) (d : Disk) (b b' : BufId) :
    ((c.fill d b).buf b').dev = (c.buf b').dev ∧ ((c.fill d b).buf b').blockno = (c.buf b').blockno ∧
      ((c.fill d b).buf b').refcnt = (c.buf b').refcnt := by
  unfold fill
  split
  · exact ⟨rfl, rfl, rfl⟩
  · by_cases hb : b' = b
    · subst hb
      simp
    · simp [hb]

/-- `brelse`'s buffers: only `b`'s count moves, by one. -/
theorem brelse_buf (c : BCache) (b b' : BufId) :
    (c.brelse b).buf b' =
      if b' = b then { c.buf b with refcnt := uintDec (c.buf b).refcnt } else c.buf b' := by
  unfold brelse relink
  split <;> by_cases hb : b' = b <;> simp_all

/-- `brelse` moves the buffer to the front when its count reaches
zero. -/
theorem brelse_links (c : BCache) (b : BufId) :
    (c.brelse b).links =
      if uintDec (c.buf b).refcnt = 0 then c.links.moveFront b else c.links := by
  unfold brelse relink
  split <;> simp_all

end BCache

-- ========================================================= the invariant

namespace BioSys

/-- The calls the kernel makes: `bread` of a real device, and `bpin`
and `bunpin` by the buffer's holder, at most one pin at a time. -/
def Allowed (s : BioSys) : BioAct → Prop
  | .bget _ dev _ => dev ≠ 0
  | .bpin i b => s.owner b = some i ∧ s.pins b = 0
  | .bunpin i b => s.owner b = some i ∧ 0 < s.pins b
  | _ => True

/-- A step of the kernel's calls. -/
def KernelStep (s s' : BioSys) : Prop := ∃ a, s.Allowed a ∧ s.step a = .next s'

/-- The references to buffer `b`: threads waiting for it in `bread`,
its holder, its pins. -/
def refs (s : BioSys) (b : BufId) : Nat :=
  s.waiting.count (some b) + (if s.owner b = none then 0 else 1) + s.pins b

/-- The buffers with a zero count, in list order. -/
def unused (s : BioSys) (L : List BufId) : List BufId :=
  L.filter fun b => (s.cache.buf b).refcnt == 0

/-- No two buffers carry one identity with `dev ≠ 0`. -/
def Unique (c : BCache) : Prop :=
  ∀ b b', (c.buf b).dev ≠ 0 → c.carries (c.buf b).dev (c.buf b).blockno b' = true → b' = b

/-- The cache's representation invariant, with `L` the list from
`head.next` to `head.prev`. -/
structure BioInv (s : BioSys) (L : List BufId) : Prop where
  ring : s.cache.links.IsRing L
  all : ∀ b, b ∈ L
  unique : Unique s.cache
  count : ∀ b, (s.cache.buf b).refcnt = s.refs b
  pins : ∀ b, s.pins b ≤ 1
  small : s.waiting.length + 3 < 2 ^ 32
  /-- Unused buffers, most recently released first. -/
  lru : (s.unused L).Pairwise fun x y => s.freedAt y < s.freedAt x
  clock : ∀ b, s.freedAt b < s.clock

theorem inv_boot (d : Disk) {k : Nat} (hk : k + 3 < 2 ^ 32) :
    BioInv (boot d k) (List.finRange NBUF).reverse where
  ring := BCache.isRing_binit
  all := by simp
  unique := fun b _ hb => absurd rfl hb
  count := fun b => by simp [boot, refs, BCache.binit, Buf.zero, List.count_replicate]
  pins := fun _ => by simp [boot]
  small := by simpa [boot] using hk
  lru := by
    have hall : unused (boot d k) (List.finRange NBUF).reverse = (List.finRange NBUF).reverse :=
      List.filter_eq_self.mpr fun _ _ => by simp [boot, BCache.binit, Buf.zero]
    rw [hall, List.pairwise_reverse]
    simpa [boot] using List.pairwise_lt_finRange NBUF
  clock := fun b => b.isLt

-- ============================================================ helpers

variable {s s' : BioSys} {L : List BufId}

/-- A count is at most the number of threads and two. -/
theorem refs_le (hinv : BioInv s L) (b : BufId) : s.refs b ≤ s.waiting.length + 2 := by
  have hc : s.waiting.count (some b) ≤ s.waiting.length := List.count_le_length
  have hp := hinv.pins b
  unfold refs
  split <;> omega

theorem count_set_of_getElem? {l : List (Option BufId)} {i : Nat} {w : Option BufId}
    (x y : Option BufId) (h : l[i]? = some w) :
    (l.set i x).count y = l.count y - (if w = y then 1 else 0) + (if x = y then 1 else 0) := by
  obtain ⟨hi, hget⟩ := List.getElem?_eq_some_iff.mp h
  rw [List.count_set hi, hget]
  simp only [beq_iff_eq]

theorem count_pos_of_getElem? {l : List (Option BufId)} {i : Nat} {w : Option BufId}
    (h : l[i]? = some w) : 0 < l.count w :=
  List.count_pos_iff.mpr (List.mem_of_getElem? h)

/-- The identities are unchanged, so uniqueness carries over. -/
theorem unique_of_ids {c c' : BCache} (h : Unique c)
    (hid : ∀ b, (c'.buf b).dev = (c.buf b).dev ∧ (c'.buf b).blockno = (c.buf b).blockno) :
    Unique c' := by
  intro b b' hdev hcar
  simp only [BCache.carries, Bool.and_eq_true, beq_iff_eq, (hid b).1, (hid b).2, (hid b').1,
    (hid b').2] at hdev hcar
  exact h b b' hdev (by simp [BCache.carries, hcar.1, hcar.2])

/-- Fewer unused buffers, the same stamps: the order carries over. -/
theorem lru_of_sublist (hinv : BioInv s L) (hsub : List.Sublist (s'.unused L) (s.unused L))
    (hfreed : s'.freedAt = s.freedAt) :
    (s'.unused L).Pairwise fun x y => s'.freedAt y < s'.freedAt x := by
  rw [hfreed]
  exact hinv.lru.sublist hsub

/-- A step that makes no buffer unused shrinks the unused list. -/
theorem unused_sublist (h : ∀ b, (s'.cache.buf b).refcnt = 0 → (s.cache.buf b).refcnt = 0) :
    List.Sublist (s'.unused L) (s.unused L) :=
  List.monotone_filter_right _ fun b hb => by simpa using h b (by simpa using hb)

-- =========================================================== one call

/-- `bread`'s `bget` half: a cached buffer gains the caller's
reference, or an unused one is recycled for the block. -/
theorem bget_inv {i dev blockno : Nat} (hinv : BioInv s L)
    (h : s.step (.bget i dev blockno) = .next s') : BioInv s' L := by
  obtain ⟨b, c, hw, hb, rfl⟩ := step_bget h
  have hcnt : ∀ b', (s.waiting.set i (some b)).count (some b') =
      s.waiting.count (some b') + (if b = b' then 1 else 0) := fun b' => by
    rw [count_set_of_getElem? _ _ hw]
    simp
  rcases BCache.bget_eq_ok hb with ⟨-, rfl⟩ | ⟨hl, hv, rfl⟩
  · -- found: one more reference, no identity or link moves
    have hle := refs_le hinv b
    have hinc : uintInc (s.cache.buf b).refcnt = (s.cache.buf b).refcnt + 1 :=
      uintInc_of_lt (by rw [hinv.count b]; have := hinv.small; omega)
    refine ⟨hinv.ring, hinv.all, unique_of_ids hinv.unique fun b' => ?_, fun b' => ?_, hinv.pins,
      by simpa using hinv.small, lru_of_sublist hinv (unused_sublist fun b' h0 => ?_) rfl,
      hinv.clock⟩
    · by_cases hb' : b' = b
      · subst hb'; simp
      · simp [hb']
    · by_cases hb' : b' = b
      · subst hb'
        simp only [BCache.setBuf_buf_self]
        rw [hinc, hinv.count b']
        simp only [refs, hcnt, if_true]
        omega
      · simp only [BCache.setBuf_buf_of_ne _ _ hb', hinv.count b', refs, hcnt, Ne.symm hb',
          if_false, Nat.add_zero]
    · by_cases hb' : b' = b
      · subst hb'
        simp [hinc] at h0
      · simpa [hb'] using h0
  · -- recycled: the victim had no reference, and no buffer carried the block
    have hzero : (s.cache.buf b).refcnt = 0 := by
      rw [BCache.victim_eq hinv.ring] at hv
      simpa using List.find?_some hv
    have hnone : ∀ b', s.cache.carries dev blockno b' = false := by
      rw [BCache.lookup_eq hinv.ring] at hl
      intro b'
      simpa using List.find?_eq_none.mp hl b' (hinv.all b')
    have hrefs : s.refs b = 0 := (hinv.count b).symm.trans hzero
    refine ⟨hinv.ring, hinv.all, ?_, fun b' => ?_, hinv.pins, by simpa using hinv.small,
      lru_of_sublist hinv (unused_sublist fun b' h0 => ?_) rfl, hinv.clock⟩
    · intro b₁ b₂ hdev₁ hcar
      by_cases h₁ : b₁ = b <;> by_cases h₂ : b₂ = b
      · rw [h₁, h₂]
      · -- the recycled identity was nowhere else
        subst h₁
        have := hnone b₂
        simp_all [BCache.carries]
      · subst h₂
        have := hnone b₁
        simp_all [BCache.carries]
      · have hcar' : s.cache.carries (s.cache.buf b₁).dev (s.cache.buf b₁).blockno b₂ = true := by
          simpa [BCache.carries, h₁, h₂] using hcar
        exact hinv.unique b₁ b₂ (by simpa [h₁] using hdev₁) hcar'
    · by_cases hb' : b' = b
      · subst hb'
        simp only [refs] at hrefs ⊢
        simp only [BCache.setBuf_buf_self, hcnt, if_true]
        split at hrefs <;> simp_all
      · simp only [BCache.setBuf_buf_of_ne _ _ hb', hinv.count b', refs, hcnt, Ne.symm hb',
          if_false, Nat.add_zero]
    · by_cases hb' : b' = b
      · subst hb'
        simp at h0
      · simpa [hb'] using h0

/-- `bread`'s `acquiresleep` half: the waiting reference becomes the
holder's. -/
theorem acquire_inv {i : Nat} (hinv : BioInv s L) (h : s.step (.acquire i) = .next s') :
    BioInv s' L := by
  obtain ⟨b, hw, ho, rfl⟩ := step_acquire h
  have hpos := count_pos_of_getElem? hw
  have hcnt : ∀ b', (s.waiting.set i none).count (some b') =
      s.waiting.count (some b') - (if b = b' then 1 else 0) := fun b' => by
    rw [count_set_of_getElem? _ _ hw]
    simp
  have hsame : ∀ b', ((s.cache.fill s.disk b).buf b').refcnt = (s.cache.buf b').refcnt :=
    fun b' => (BCache.fill_buf _ _ _ _).2.2
  refine ⟨by simpa using hinv.ring, hinv.all,
    unique_of_ids hinv.unique fun b' => ⟨(BCache.fill_buf _ _ _ _).1, (BCache.fill_buf _ _ _ _).2.1⟩,
    fun b' => ?_, hinv.pins, by simpa using hinv.small,
    lru_of_sublist hinv (unused_sublist fun b' h0 => by rwa [hsame] at h0) rfl, hinv.clock⟩
  rw [hsame, hinv.count]
  by_cases hb' : b' = b
  · subst hb'
    simp only [refs, hcnt, if_true, ho, Function.update_self, reduceCtorEq, if_false]
    omega
  · simp only [refs, hcnt, Ne.symm hb', if_false, Nat.sub_zero, Function.update_of_ne hb']

/-- `bpin` by the holder of an unpinned buffer. -/
theorem bpin_inv {i : Nat} {b : BufId} (hinv : BioInv s L) (ho : s.owner b = some i)
    (hp : s.pins b = 0) (h : s.step (.bpin i b) = .next s') : BioInv s' L := by
  rw [step_bpin h]
  have hle := refs_le hinv b
  have hinc : uintInc (s.cache.buf b).refcnt = (s.cache.buf b).refcnt + 1 :=
    uintInc_of_lt (by rw [hinv.count b]; have := hinv.small; omega)
  refine ⟨hinv.ring, hinv.all, unique_of_ids hinv.unique fun b' => ?_, fun b' => ?_, fun b' => ?_,
    hinv.small, lru_of_sublist hinv (unused_sublist fun b' h0 => ?_) rfl, hinv.clock⟩
  · by_cases hb' : b' = b
    · subst hb'; simp [BCache.bpin]
    · simp [BCache.bpin, hb']
  · by_cases hb' : b' = b
    · subst hb'
      simp only [BCache.bpin, BCache.setBuf_buf_self]
      rw [hinc, hinv.count b']
      simp [refs, hp]
    · simp [BCache.bpin, hb', hinv.count b', refs]
  · by_cases hb' : b' = b
    · subst hb'; simp [hp]
    · simpa [hb'] using hinv.pins b'
  · by_cases hb' : b' = b
    · subst hb'
      simp [BCache.bpin, hinc] at h0
    · simpa [BCache.bpin, hb'] using h0

/-- `bunpin` by the holder of a pinned buffer: the holder's reference
keeps the count above zero. -/
theorem bunpin_inv {i : Nat} {b : BufId} (hinv : BioInv s L) (ho : s.owner b = some i)
    (hp : 0 < s.pins b) (h : s.step (.bunpin i b) = .next s') : BioInv s' L := by
  rw [step_bunpin h]
  have hge : 2 ≤ (s.cache.buf b).refcnt := by
    rw [hinv.count b]
    simp only [refs, ho, reduceCtorEq, if_false]
    omega
  have hdec : uintDec (s.cache.buf b).refcnt = (s.cache.buf b).refcnt - 1 :=
    uintDec_of_pos (by omega) (by rw [hinv.count b]; have := refs_le hinv b; have := hinv.small; omega)
  -- the count stays positive, so nothing is stamped
  have hnz : ((s.cache.bunpin b).buf b).refcnt ≠ 0 := by
    simp only [BCache.bunpin, BCache.setBuf_buf_self, hdec]
    omega
  rw [noteFree_of_ne hnz]
  refine ⟨hinv.ring, hinv.all, unique_of_ids hinv.unique fun b' => ?_, fun b' => ?_, fun b' => ?_,
    hinv.small, lru_of_sublist hinv (unused_sublist fun b' h0 => ?_) rfl, hinv.clock⟩
  · by_cases hb' : b' = b
    · subst hb'; simp [BCache.bunpin]
    · simp [BCache.bunpin, hb']
  · by_cases hb' : b' = b
    · subst hb'
      simp only [BCache.bunpin, BCache.setBuf_buf_self]
      rw [hdec, hinv.count b']
      simp only [refs, Function.update_self]
      omega
    · simp [BCache.bunpin, hb', hinv.count b', refs]
  · by_cases hb' : b' = b
    · subst hb'
      have := hinv.pins b'
      simp only [Function.update_self]
      omega
    · simpa [hb'] using hinv.pins b'
  · by_cases hb' : b' = b
    · subst hb'
      exact absurd h0 hnz
    · simpa [BCache.bunpin, hb'] using h0

/-- `brelse` by the holder. A count that reaches zero moves the buffer
to the front with the newest stamp; otherwise nothing moves. -/
theorem brelse_inv {i : Nat} {b : BufId} (hinv : BioInv s L) (h : s.step (.brelse i b) = .next s') :
    ∃ L', BioInv s' L' := by
  obtain ⟨ho, rfl⟩ := step_brelse h
  have hpos : 1 ≤ (s.cache.buf b).refcnt := by
    rw [hinv.count b]
    simp only [refs, ho, reduceCtorEq, if_false]
    omega
  have hdec : uintDec (s.cache.buf b).refcnt = (s.cache.buf b).refcnt - 1 :=
    uintDec_of_pos (by omega) (by rw [hinv.count b]; have := refs_le hinv b; have := hinv.small; omega)
  have hbuf : ∀ b', ((s.cache.brelse b).buf b') =
      if b' = b then { s.cache.buf b with refcnt := (s.cache.buf b).refcnt - 1 } else s.cache.buf b' :=
    fun b' => by rw [BCache.brelse_buf, hdec]
  have hids : ∀ b', ((s.cache.brelse b).buf b').dev = (s.cache.buf b').dev ∧
      ((s.cache.brelse b).buf b').blockno = (s.cache.buf b').blockno := fun b' => by
    rw [hbuf]
    split <;> simp_all
  have hcount : ∀ b', ((s.cache.brelse b).buf b').refcnt =
      ({ s with cache := s.cache.brelse b, owner := Function.update s.owner b none } : BioSys).refs b' :=
    fun b' => by
      rw [hbuf, refs]
      by_cases hb' : b' = b
      · subst hb'
        simp only [if_true, Function.update_self]
        rw [hinv.count b']
        simp only [refs, ho, reduceCtorEq, if_false]
        omega
      · simp only [hb', if_false, Function.update_of_ne hb']
        exact hinv.count b'
  by_cases hz : (s.cache.buf b).refcnt - 1 = 0
  · -- the last reference: to the front, stamped with the clock
    have hz' : ((s.cache.brelse b).buf b).refcnt = 0 := by simp [hbuf, hz]
    have hlinks : (s.cache.brelse b).links = s.cache.links.moveFront b := by
      rw [BCache.brelse_links, hdec, if_pos hz]
    have hmem : b ∈ L := hinv.all b
    have hnd := hinv.ring.nodup
    refine ⟨b :: L.erase b, ?_⟩
    simp only [noteFree, hz', if_true]
    refine ⟨?_, fun b' => ?_, unique_of_ids hinv.unique hids, hcount, hinv.pins, hinv.small, ?_, ?_⟩
    · rw [hlinks]
      exact hinv.ring.moveFront hmem
    · by_cases hb' : b' = b
      · simp [hb']
      · exact List.mem_cons_of_mem _ ((List.mem_erase_of_ne hb').mpr (hinv.all b'))
    · -- the front is the newest; the rest keep their order
      have hrest : ∀ y ∈ L.erase b, y ≠ b := fun y hy he => by
        subst he
        exact (hnd.mem_erase_iff.mp hy).1 rfl
      simp only [unused, List.filter_cons, hz', beq_self_eq_true, if_true]
      refine List.pairwise_cons.mpr ⟨fun y hy => ?_, ?_⟩
      · have hy' := hrest y (List.mem_of_mem_filter hy)
        simp only [Function.update_self, Function.update_of_ne hy']
        exact hinv.clock y
      · have hsub : List.Sublist ((L.erase b).filter fun y => ((s.cache.brelse b).buf y).refcnt == 0)
            (s.unused L) := by
          have hcongr : (L.erase b).filter (fun y => ((s.cache.brelse b).buf y).refcnt == 0) =
              (L.erase b).filter fun y => (s.cache.buf y).refcnt == 0 :=
            List.filter_congr fun y hy => by simp [hbuf, hrest y hy]
          rw [hcongr]
          exact (List.erase_sublist).filter _
        refine (hinv.lru.sublist hsub).imp_of_mem fun {x y} hx hy hxy => ?_
        have hx' := hrest x (List.mem_of_mem_filter hx)
        have hy' := hrest y (List.mem_of_mem_filter hy)
        simpa [Function.update_of_ne hx', Function.update_of_ne hy'] using hxy
    · intro b'
      by_cases hb' : b' = b
      · subst hb'; simp
      · simp only [Function.update_of_ne hb']
        have := hinv.clock b'
        omega
  · -- still referenced: nothing moves
    have hnz : ((s.cache.brelse b).buf b).refcnt ≠ 0 := by simp [hbuf, hz]
    have hlinks : (s.cache.brelse b).links = s.cache.links := by
      rw [BCache.brelse_links, hdec, if_neg hz]
    refine ⟨L, ?_⟩
    rw [noteFree_of_ne hnz]
    refine ⟨by rw [hlinks]; exact hinv.ring, hinv.all, unique_of_ids hinv.unique hids, hcount,
      hinv.pins, hinv.small, lru_of_sublist hinv (unused_sublist fun b' h0 => ?_) rfl, hinv.clock⟩
    by_cases hb' : b' = b
    · subst hb'
      exact absurd h0 hnz
    · simpa [hbuf, hb'] using h0

-- ========================================================== whole runs

/-- Every call the kernel makes keeps the invariant, for some list. -/
theorem kernelStep_inv (hinv : BioInv s L) (h : KernelStep s s') : ∃ L', BioInv s' L' := by
  obtain ⟨a, ha, h⟩ := h
  cases a with
  | bget i dev blockno => exact ⟨L, bget_inv hinv h⟩
  | acquire i => exact ⟨L, acquire_inv hinv h⟩
  | brelse i b => exact brelse_inv hinv h
  | bpin i b => exact ⟨L, bpin_inv hinv ha.1 ha.2 h⟩
  | bunpin i b => exact ⟨L, bunpin_inv hinv ha.1 ha.2 h⟩

/-- The run lemma: from `binit`, the invariant holds all along. -/
theorem reach_inv {d : Disk} {k : Nat} (hk : k + 3 < 2 ^ 32)
    (h : ReflTransGen KernelStep (boot d k) s) : ∃ L, BioInv s L := by
  have hstep : ∀ a b, (∃ L, BioInv a L) → KernelStep a b → ∃ L, BioInv b L :=
    fun _ _ ⟨_, hinv⟩ hab => kernelStep_inv hinv hab
  exact invariant_reach hstep ⟨_, inv_boot d hk⟩ h

-- ========================================================= bget's choice

/-- The last of a list sorted by `r` is `r`-below every other one. -/
theorem rel_getLast_of_pairwise {α : Type*} {r : α → α → Prop} {l : List α} {x y : α}
    (hl : l.Pairwise r) (hx : l.getLast? = some x) (hy : y ∈ l) (hne : y ≠ x) : r y x := by
  obtain ⟨ys, rfl⟩ := List.getLast?_eq_some_iff.mp hx
  have hys : y ∈ ys := by simpa [hne] using hy
  exact (List.pairwise_append.mp hl).2.2 y hys x (List.mem_singleton_self x)

/-- A block already cached is found in its buffer. -/
theorem bget_of_carries (hinv : BioInv s L) {dev blockno : Nat} (hdev : dev ≠ 0) {b : BufId}
    (hb : s.cache.carries dev blockno b = true) :
    ∃ c', s.cache.bget dev blockno = .ok (b, c') := by
  have hfind : (L.find? (s.cache.carries dev blockno)).isSome :=
    List.find?_isSome.mpr ⟨b, hinv.all b, hb⟩
  obtain ⟨b', hb'⟩ := Option.isSome_iff_exists.mp hfind
  -- both carry the block; the identity is unique
  have hsame : b' = b := by
    have h₁ := hb
    have h₂ := List.find?_some hb'
    simp only [BCache.carries, Bool.and_eq_true, beq_iff_eq] at h₁ h₂
    refine (hinv.unique b' b (by rw [h₂.1]; exact hdev) ?_).symm
    simp [BCache.carries, h₁.1, h₁.2, h₂.1, h₂.2]
  subst hsame
  unfold BCache.bget
  rw [BCache.lookup_eq hinv.ring, hb']
  exact ⟨_, rfl⟩

/-- An uncached block gets the unused buffer nearest the tail, the one
released least recently. -/
theorem bget_recycles (hinv : BioInv s L) {dev blockno : Nat} {b : BufId} {c' : BCache}
    (hnone : ∀ b', s.cache.carries dev blockno b' = false)
    (h : s.cache.bget dev blockno = .ok (b, c')) :
    (s.cache.buf b).refcnt = 0 ∧ (s.unused L).getLast? = some b ∧
      ∀ b', (s.cache.buf b').refcnt = 0 → b' ≠ b → s.freedAt b < s.freedAt b' := by
  rcases BCache.bget_eq_ok h with ⟨hl, -⟩ | ⟨-, hv, -⟩
  · rw [BCache.lookup_eq hinv.ring] at hl
    have := List.find?_some hl
    rw [hnone b] at this
    cases this
  · rw [BCache.victim_eq hinv.ring, ← List.head?_filter, List.filter_reverse,
      List.head?_reverse] at hv
    have hmem := (List.mem_filter.mp (List.mem_of_getLast? hv)).2
    have hzero : (s.cache.buf b).refcnt = 0 := by simpa using hmem
    refine ⟨hzero, hv, fun b' hb' hne => ?_⟩
    exact rel_getLast_of_pairwise (r := fun x y => s.freedAt y < s.freedAt x) hinv.lru hv
      (List.mem_filter.mpr ⟨hinv.all b', by simpa using hb'⟩) hne

-- ================================================ the calls unguarded

/-- The calls the claim ranges over: any, `bread` of a nonzero `dev`. -/
def devOk : BioAct → Bool
  | .bget _ dev _ => dev != 0
  | _ => true

/-- A step of any call sequence with nonzero `dev`. -/
def AnyStep (s s' : BioSys) : Prop := ∃ a, devOk a = true ∧ s.step a = .next s'

/-- Run calls in turn; `none` at the first that is refused, blocks or
panics. -/
def runCalls (s : BioSys) : List BioAct → Option BioSys
  | [] => some s
  | a :: as =>
      if devOk a then
        match s.step a with
        | .next s' => runCalls s' as
        | _ => none
      else none

theorem runCalls_reaches {as : List BioAct} (h : s.runCalls as = some s') :
    ReflTransGen AnyStep s s' := by
  induction as generalizing s with
  | nil =>
      cases h
      exact .refl
  | cons a as ih =>
      simp only [runCalls] at h
      split at h
      · next ha =>
          split at h
          · next s₁ hs => exact .head ⟨a, ha, hs⟩ (ih h)
          all_goals cases h
      · cases h

end BioSys

-- ========================================================= the cache

/-- The buffer cache's representation invariant, for the calls the
kernel makes (`bpin` and `bunpin` by the buffer's holder, one pin at a
time). After `binit` and any run: one ring through `head` holds each
buffer once, with `b->next->prev == b` and `b->prev->next == b`; no
identity with `dev ≠ 0` is in two buffers; every `refcnt` is exactly
the buffer's references, so it never wraps; and `bget` of a cached
block returns its buffer, while `bget` of an uncached one recycles the
unused buffer nearest the tail, the one released least recently. -/
theorem bcache_invariant {d : Disk} {k : Nat} (hk : k + 3 < 2 ^ 32) {s : BioSys}
    (hrun : ReflTransGen BioSys.KernelStep (BioSys.boot d k) s) :
    ∃ L : List BufId, s.cache.links.IsRing L ∧ (∀ b, b ∈ L) ∧
      (∀ b, s.cache.links.prev (s.cache.links.next (some b)) = some b ∧
        s.cache.links.next (s.cache.links.prev (some b)) = some b) ∧
      (∀ b b', (s.cache.buf b).dev ≠ 0 → (s.cache.buf b').dev = (s.cache.buf b).dev →
        (s.cache.buf b').blockno = (s.cache.buf b).blockno → b' = b) ∧
      (∀ b, (s.cache.buf b).refcnt = s.refs b ∧ (s.cache.buf b).refcnt ≤ s.waiting.length + 2) ∧
      ∀ dev blockno, dev ≠ 0 →
        (∀ b, s.cache.carries dev blockno b = true → ∃ c', s.cache.bget dev blockno = .ok (b, c')) ∧
        ∀ b c', (∀ b', s.cache.carries dev blockno b' = false) →
          s.cache.bget dev blockno = .ok (b, c') →
          (s.cache.buf b).refcnt = 0 ∧ (s.unused L).getLast? = some b ∧
            ∀ b', (s.cache.buf b').refcnt = 0 → b' ≠ b → s.freedAt b < s.freedAt b' := by
  obtain ⟨L, hinv⟩ := BioSys.reach_inv hk hrun
  refine ⟨L, hinv.ring, hinv.all, fun b => ?_, fun b b' hdev hd hbn => ?_, fun b => ?_,
    fun dev blockno hdev => ⟨fun b hb => BioSys.bget_of_carries hinv hdev hb,
      fun b c' hnone h => BioSys.bget_recycles hinv hnone h⟩⟩
  · obtain ⟨hp, hn⟩ := hinv.ring.linked_of_mem (hinv.all b)
    exact ⟨hn.2, hp.1⟩
  · exact hinv.unique b b' hdev (by simp [BCache.carries, hd, hbn])
  · exact ⟨hinv.count b, (hinv.count b).trans_le (BioSys.refs_le hinv b)⟩

/-- `bcache_invariant` right after `binit`, one thread. -/
theorem bcache_invariant_binit :
    1 + 3 < 2 ^ 32 ∧ ∃ L : List BufId, (BioSys.boot (fun _ _ => 0) 1).cache.links.IsRing L ∧ (∀ b, b ∈ L) ∧
      (∀ b, (BioSys.boot (fun _ _ => 0) 1).cache.links.prev ((BioSys.boot (fun _ _ => 0) 1).cache.links.next (some b)) = some b ∧
        (BioSys.boot (fun _ _ => 0) 1).cache.links.next ((BioSys.boot (fun _ _ => 0) 1).cache.links.prev (some b)) = some b) ∧
      (∀ b b', ((BioSys.boot (fun _ _ => 0) 1).cache.buf b).dev ≠ 0 → ((BioSys.boot (fun _ _ => 0) 1).cache.buf b').dev = ((BioSys.boot (fun _ _ => 0) 1).cache.buf b).dev →
        ((BioSys.boot (fun _ _ => 0) 1).cache.buf b').blockno = ((BioSys.boot (fun _ _ => 0) 1).cache.buf b).blockno → b' = b) ∧
      (∀ b, ((BioSys.boot (fun _ _ => 0) 1).cache.buf b).refcnt = (BioSys.boot (fun _ _ => 0) 1).refs b ∧
        ((BioSys.boot (fun _ _ => 0) 1).cache.buf b).refcnt ≤ (BioSys.boot (fun _ _ => 0) 1).waiting.length + 2) ∧
      ∀ dev blockno, dev ≠ 0 →
        (∀ b, (BioSys.boot (fun _ _ => 0) 1).cache.carries dev blockno b = true →
          ∃ c', (BioSys.boot (fun _ _ => 0) 1).cache.bget dev blockno = .ok (b, c')) ∧
        ∀ b c', (∀ b', (BioSys.boot (fun _ _ => 0) 1).cache.carries dev blockno b' = false) →
          (BioSys.boot (fun _ _ => 0) 1).cache.bget dev blockno = .ok (b, c') →
          ((BioSys.boot (fun _ _ => 0) 1).cache.buf b).refcnt = 0 ∧ ((BioSys.boot (fun _ _ => 0) 1).unused L).getLast? = some b ∧
            ∀ b', ((BioSys.boot (fun _ _ => 0) 1).cache.buf b').refcnt = 0 → b' ≠ b → (BioSys.boot (fun _ _ => 0) 1).freedAt b < (BioSys.boot (fun _ _ => 0) 1).freedAt b' :=
  ⟨by decide, bcache_invariant (by decide) .refl⟩

/-- The unguarded `bunpin` breaks the claim as stated for any call
sequence. At `binit` it wraps a zero count to `2^32 - 1`. And a
`bunpin` that takes a count to zero does not move the buffer to the
front: thread 0 reads block 1 into buffer 0, pins it and releases it,
reads block 2 into buffer 1 and releases it, then unpins buffer 0,
whose count reaches zero last; `bget(1, 3)` then recycles buffer 0,
still at the tail, although buffer 2 reached zero at `binit`. -/
theorem bunpin_breaks_bcache :
    (∃ s, ReflTransGen BioSys.AnyStep (BioSys.boot (fun _ _ => 0) 1) s ∧ (s.cache.buf ⟨0, by decide⟩).refcnt = 2 ^ 32 - 1) ∧
    (∃ s, ReflTransGen BioSys.AnyStep (BioSys.boot (fun _ _ => 0) 1) s ∧
      ∃ b c', (∀ b', s.cache.carries 1 3 b' = false) ∧ s.cache.bget 1 3 = .ok (b, c') ∧
        ∃ b', (s.cache.buf b').refcnt = 0 ∧ b' ≠ b ∧ s.freedAt b' < s.freedAt b) := by
  let b₀ : BufId := ⟨0, by decide⟩
  let b₁ : BufId := ⟨1, by decide⟩
  let b₂ : BufId := ⟨2, by decide⟩
  constructor
  · -- one `bunpin` of an unused buffer
    obtain ⟨s, hs⟩ : ∃ s, (BioSys.boot (fun _ _ => 0) 1).runCalls [.bunpin 0 b₀] = some s :=
      Option.isSome_iff_exists.mp (by decide +kernel)
    have hv : ((BioSys.boot (fun _ _ => 0) 1).runCalls [.bunpin 0 b₀]).map (fun s => (s.cache.buf b₀).refcnt) =
        some (2 ^ 32 - 1) := by decide +kernel
    rw [hs, Option.map_some, Option.some.injEq] at hv
    exact ⟨s, BioSys.runCalls_reaches hs, hv⟩
  · -- the run of the docstring, then `bget(1, 3)`
    obtain ⟨s, hs⟩ : ∃ s, (BioSys.boot (fun _ _ => 0) 1).runCalls [.bget 0 1 1, .acquire 0, .bpin 0 b₀, .brelse 0 b₀,
        .bget 0 1 2, .acquire 0, .brelse 0 b₁, .bunpin 0 b₀] = some s :=
      Option.isSome_iff_exists.mp (by decide +kernel)
    have hv : ((BioSys.boot (fun _ _ => 0) 1).runCalls [.bget 0 1 1, .acquire 0, .bpin 0 b₀, .brelse 0 b₀,
        .bget 0 1 2, .acquire 0, .brelse 0 b₁, .bunpin 0 b₀]).map (fun s =>
          (decide (∀ b', s.cache.carries 1 3 b' = false), s.cache.lookup 1 3, s.cache.victim,
            (s.cache.buf b₂).refcnt, decide (s.freedAt b₂ < s.freedAt b₀))) =
        some (true, none, some b₀, 0, true) := by decide +kernel
    rw [hs, Option.map_some, Option.some.injEq, Prod.mk.injEq, Prod.mk.injEq, Prod.mk.injEq,
      Prod.mk.injEq] at hv
    obtain ⟨hnone, hl, hvic, hzero, hlt⟩ := hv
    refine ⟨s, BioSys.runCalls_reaches hs, b₀,
      s.cache.setBuf b₀ { s.cache.buf b₀ with dev := 1, blockno := 3, valid := false, refcnt := 1 },
      of_decide_eq_true hnone, ?_, b₂, hzero, by decide, of_decide_eq_true hlt⟩
    unfold BCache.bget
    rw [hl, hvic]

end Xv6
