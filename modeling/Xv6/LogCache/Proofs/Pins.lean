import Xv6.Bio.Proofs.Frame

/-!
The cache view and the pin invariant, over the buffer cache alone.

# The view

`BCache.view c d x` is what a reader of block `x` of the root device
is given: the bytes of the valid buffer carrying it, or else the disk's,
which `bread` reads into a buffer. It is the `mem` of `Log/System.lean`,
and the simulation of the next module rests on it: a call that only
moves counts or links leaves it, recycling or filling a buffer that
agrees with the disk leaves it, and a store into the buffer carrying
`x` updates it at `x` alone.

# Pins

`PinInv s P` ties the pins to a set `P` of blocks, the logged blocks
`install_trans(0)` has not unpinned yet: each block of `P` sits in a
valid buffer pinned once and only those buffers are pinned; every
valid root-device buffer without a pin holds what the disk holds;
every referenced buffer is of the root device and every locked one is
valid. Every `bread` and `brelse` keeps it, as does a `bpin` that adds
a block to `P` and a `bunpin` that takes one out after the block has
reached the disk.
-/

namespace Xv6

namespace BCache

variable {c c' : BCache} {d : Disk} {x : Nat} {b : BufId}

/-- What `bread(ROOTDEV, x)` returns before any recycling: the valid
buffer carrying the block, else the disk. -/
@[grind] def view (c : BCache) (d : Disk) (x : Nat) : Block :=
  match (List.finRange NBUF).find? (fun b => c.carries ROOTDEV x b && (c.buf b).valid) with
  | some b => (c.buf b).data
  | none => d x

/-- Two buffers carrying one root-device block are one. -/
theorem eq_of_carries (hu : BioSys.Unique c) {b' : BufId}
    (h : c.carries ROOTDEV x b = true) (h' : c.carries ROOTDEV x b' = true) : b' = b := by
  simp only [carries, Bool.and_eq_true, beq_iff_eq] at h h'
  refine hu b b' (by rw [h.1]; decide) ?_
  simp [carries, h.1, h.2, h'.1, h'.2]

/-- The view reads a valid buffer's bytes or the disk. -/
theorem view_cases (c : BCache) (d : Disk) (x : Nat) :
    (∃ b, c.carries ROOTDEV x b = true ∧ (c.buf b).valid = true ∧ c.view d x = (c.buf b).data) ∨
      ((∀ b, c.carries ROOTDEV x b = true → (c.buf b).valid = false) ∧ c.view d x = d x) := by
  unfold view
  split
  · next b hb =>
      have := List.find?_some hb
      simp only [Bool.and_eq_true] at this
      exact .inl ⟨b, this.1, this.2, rfl⟩
  · next hb =>
      refine .inr ⟨fun b hc => ?_, rfl⟩
      have := List.find?_eq_none.mp hb b (List.mem_finRange b)
      simpa [hc] using this

theorem view_of_carrier (hu : BioSys.Unique c) (hc : c.carries ROOTDEV x b = true)
    (hv : (c.buf b).valid = true) : c.view d x = (c.buf b).data := by
  rcases view_cases c d x with ⟨b', hc', -, he⟩ | ⟨hn, -⟩
  · rw [he, eq_of_carries hu hc hc']
  · simp [hn b hc] at hv

/-- Where the test of the view and the bytes of the buffer it finds
agree, so does the view. -/
theorem view_congr_at
    (hp : ∀ b, (c'.carries ROOTDEV x b && (c'.buf b).valid) = (c.carries ROOTDEV x b && (c.buf b).valid))
    (hd : ∀ b, c.carries ROOTDEV x b = true → (c.buf b).valid = true → (c'.buf b).data = (c.buf b).data) :
    c'.view d x = c.view d x := by
  have hfun : (fun b => c'.carries ROOTDEV x b && (c'.buf b).valid) =
      fun b => c.carries ROOTDEV x b && (c.buf b).valid := funext hp
  unfold view
  rw [hfun]
  split
  · next b hb =>
      have := List.find?_some hb
      simp only [Bool.and_eq_true] at this
      exact hd b this.1 this.2
  · rfl

/-- A change of counts leaves the view. -/
theorem view_of_counts (h : ∀ b, c'.buf b = { c.buf b with refcnt := (c'.buf b).refcnt }) :
    c'.view d = c.view d := by
  funext x
  refine view_congr_at (fun b => ?_) (fun b _ _ => ?_)
  · have hb := h b
    simp only [carries]
    rw [hb]
  · rw [h b]

/-- Replacing a buffer that agrees with the disk by one that agrees
with it too leaves the view. -/
theorem view_setBuf_of_clean {y : Buf} (hu : BioSys.Unique c) (hu' : BioSys.Unique (c.setBuf b y))
    (hold : (c.buf b).valid = true → (c.buf b).dev = ROOTDEV → (c.buf b).data = d (c.buf b).blockno)
    (hnew : y.valid = true → y.dev = ROOTDEV → y.data = d y.blockno) :
    (c.setBuf b y).view d = c.view d := by
  funext x
  -- a buffer carrying `x` that agrees with the disk reads `d x`
  have hold' : c.carries ROOTDEV x b = true → (c.buf b).valid = true → (c.buf b).data = d x := by
    intro hc hv
    simp only [carries, Bool.and_eq_true, beq_iff_eq] at hc
    rw [hold hv hc.1, hc.2]
  rcases view_cases (c.setBuf b y) d x with ⟨b₁, hc₁, hv₁, he₁⟩ | ⟨hn₁, he₁⟩
  · by_cases hb₁ : b₁ = b
    · subst hb₁
      have hy : y.data = d x := by
        simp only [carries, setBuf_buf_self, Bool.and_eq_true, beq_iff_eq] at hc₁ hv₁
        rw [hnew hv₁ hc₁.1, hc₁.2]
      rw [he₁, setBuf_buf_self, hy]
      rcases view_cases c d x with ⟨b₂, hc₂, hv₂, he₂⟩ | ⟨-, he₂⟩
      · by_cases hb₂ : b₂ = b₁
        · subst hb₂
          rw [he₂, hold' hc₂ hv₂]
        · -- a second carrier of `x` after the step
          have hc₂' : (c.setBuf b₁ y).carries ROOTDEV x b₂ = true := by
            simpa [carries, setBuf_buf_of_ne _ _ hb₂] using hc₂
          exact absurd (eq_of_carries hu' hc₁ hc₂') hb₂
      · exact he₂.symm
    · have hc : c.carries ROOTDEV x b₁ = true := by simpa [carries, setBuf_buf_of_ne _ _ hb₁] using hc₁
      have hv : (c.buf b₁).valid = true := by simpa [setBuf_buf_of_ne _ _ hb₁] using hv₁
      rw [he₁, setBuf_buf_of_ne _ _ hb₁, view_of_carrier hu hc hv]
  · rw [he₁]
    rcases view_cases c d x with ⟨b₂, hc₂, hv₂, he₂⟩ | ⟨-, he₂⟩
    · by_cases hb₂ : b₂ = b
      · subst hb₂
        rw [he₂, hold' hc₂ hv₂]
      · have := hn₁ b₂ (by simpa [carries, setBuf_buf_of_ne _ _ hb₂] using hc₂)
        simp [setBuf_buf_of_ne _ _ hb₂, hv₂] at this
    · exact he₂.symm

/-- A store into the buffer carrying `x` is seen at `x` alone. -/
theorem view_setData (hu : BioSys.Unique c) (hc : c.carries ROOTDEV x b = true)
    (hv : (c.buf b).valid = true) (v : Block) :
    (c.setBuf b { c.buf b with data := v }).view d = Function.update (c.view d) x v := by
  have hu' : BioSys.Unique (c.setBuf b { c.buf b with data := v }) :=
    BioSys.unique_of_ids hu fun b' => by
      by_cases hb : b' = b
      · subst hb; simp
      · simp [setBuf_buf_of_ne _ _ hb]
  funext y
  by_cases hy : y = x
  · subst hy
    have hc' : (c.setBuf b { c.buf b with data := v }).carries ROOTDEV y b = true := by
      simpa [carries] using hc
    rw [Function.update_self, view_of_carrier (b := b) hu' hc' (by simpa using hv)]
    simp
  · rw [Function.update_of_ne hy]
    -- `b` carries `x`, so it takes no part in the view at `y`
    have hnc : ∀ b', c.carries ROOTDEV y b' = true → b' ≠ b := fun b' hc' he => by
      subst he
      simp only [carries, Bool.and_eq_true, beq_iff_eq] at hc hc'
      exact hy (hc'.2.symm.trans hc.2)
    refine view_congr_at (fun b' => ?_) (fun b' hc' _ => ?_)
    · by_cases hb : b' = b
      · subst hb
        simp [carries]
      · simp [carries, setBuf_buf_of_ne _ _ hb]
    · simp [setBuf_buf_of_ne _ _ (hnc b' hc')]

/-- A disk write under a valid buffer carrying the block is not seen. -/
theorem view_update_disk (hc : c.carries ROOTDEV x b = true) (hv : (c.buf b).valid = true)
    (w : Block) : c.view (Function.update d x w) = c.view d := by
  funext y
  unfold view
  split
  · rfl
  · next hn =>
      have hy : y ≠ x := fun he => by
        subst he
        have := List.find?_eq_none.mp hn b (List.mem_finRange b)
        simp [hc, hv] at this
      exact Function.update_of_ne hy _ _

/-- `fill` reads only the buffer it is given, and only if it is not
valid. -/
theorem fill_buf_eq (c : BCache) (d : Disk) (b b' : BufId) :
    (c.fill d b).buf b' = if b' = b ∧ (c.buf b).valid = false then
      { c.buf b with data := d (c.buf b).blockno, valid := true } else c.buf b' := by
  unfold fill
  by_cases hv : (c.buf b).valid = true
  · simp [hv]
  · by_cases hb : b' = b
    · subst hb
      simp [hv]
    · simp [hv, hb]

/-- After `binit` no buffer carries a root-device block. -/
theorem view_binit (d : Disk) : binit.view d = d := by
  funext x
  rcases view_cases binit d x with ⟨b, hc, -, -⟩ | ⟨-, he⟩
  · simp [carries, binit, Buf.zero, ROOTDEV] at hc
  · exact he

end BCache

-- ==================================================================== pins

namespace BioSys

variable {s s' : BioSys} {L : List BufId} {P P' : Nat → Prop} {i x : Nat} {b : BufId}

/-- The pins against the set `P` of blocks the log still pins. -/
structure PinInv (s : BioSys) (P : Nat → Prop) : Prop where
  bio : ∃ L, BioInv s L
  /-- Every referenced buffer is of the root device. -/
  dev : ∀ b, (s.cache.buf b).refcnt ≠ 0 → (s.cache.buf b).dev = ROOTDEV
  /-- A locked buffer holds its block. -/
  held : ∀ b, s.owner b ≠ none → (s.cache.buf b).valid = true
  /-- A valid root-device buffer without a pin holds what the disk holds. -/
  clean : ∀ b, (s.cache.buf b).valid = true → (s.cache.buf b).dev = ROOTDEV → s.pins b = 0 →
    (s.cache.buf b).data = s.disk (s.cache.buf b).blockno
  /-- Each block of `P` is in a valid buffer, pinned once. -/
  pinned : ∀ x, P x → ∃ b, s.cache.carries ROOTDEV x b = true ∧ (s.cache.buf b).valid = true ∧
    s.pins b = 1
  /-- Only those buffers are pinned. -/
  only : ∀ b, s.pins b ≠ 0 → (s.cache.buf b).dev = ROOTDEV ∧ P (s.cache.buf b).blockno

/-- Nothing is pinned after `binit`. -/
theorem PinInv.boot (d : Disk) {k : Nat} (hk : k + 3 < 2 ^ 32) (hP : ∀ x, ¬ P x) :
    PinInv (boot d k) P where
  bio := ⟨_, inv_boot d hk⟩
  dev := fun _ hb => absurd rfl hb
  held := fun _ hb => absurd rfl hb
  clean := fun _ hv => by simp [BioSys.boot, BCache.binit, Buf.zero] at hv
  pinned := fun x hx => absurd hx (hP x)
  only := fun _ hb => absurd rfl hb

/-- A buffer carrying a pinned block is the pinned one. -/
theorem PinInv.pins_eq_one (h : PinInv s P) (hx : P x) (hc : s.cache.carries ROOTDEV x b = true) :
    s.pins b = 1 := by
  obtain ⟨L, hinv⟩ := h.bio
  obtain ⟨b', hc', -, hp⟩ := h.pinned x hx
  rwa [BCache.eq_of_carries hinv.unique hc' hc]

theorem PinInv.congr (h : PinInv s P) (hP : ∀ x, P' x ↔ P x) : PinInv s P' :=
  ⟨h.bio, h.dev, h.held, h.clean, fun x hx => h.pinned x ((hP x).mp hx),
    fun b hb => ⟨(h.only b hb).1, (hP _).mpr (h.only b hb).2⟩⟩

/-- The representation invariant does not read bytes, the disk, or
the valid bits. -/
theorem bioInv_of_same (h : BioInv s L) (hl : s'.cache.links = s.cache.links)
    (hb : ∀ b, (s'.cache.buf b).dev = (s.cache.buf b).dev ∧
      (s'.cache.buf b).blockno = (s.cache.buf b).blockno ∧ (s'.cache.buf b).refcnt = (s.cache.buf b).refcnt)
    (hw : s'.waiting = s.waiting) (ho : s'.owner = s.owner) (hp : s'.pins = s.pins)
    (hf : s'.freedAt = s.freedAt) (hc : s'.clock = s.clock) : BioInv s' L := by
  have hunused : s'.unused L = s.unused L :=
    List.filter_congr fun b _ => by rw [(hb b).2.2]
  refine ⟨hl ▸ h.ring, h.all, unique_of_ids h.unique fun b => ⟨(hb b).1, (hb b).2.1⟩,
    fun b => ?_, hp ▸ h.pins, hw ▸ h.small, ?_, hc ▸ hf ▸ h.clock⟩
  · rw [(hb b).2.2, h.count b]
    simp only [refs, hw, ho, hp]
  · rw [hunused, hf]
    exact h.lru

-- ======================================================== count changes

/-- A call that moves only counts, and gives a new reference only to a
root-device buffer, keeps the pins. -/
theorem PinInv.of_counts (h : PinInv s P) (hbio : ∃ L, BioInv s' L) (hdisk : s'.disk = s.disk)
    (hpins : s'.pins = s.pins) (howner : ∀ b, s'.owner b ≠ none → s.owner b ≠ none)
    (hbuf : ∀ b, s'.cache.buf b = { s.cache.buf b with refcnt := (s'.cache.buf b).refcnt })
    (hdev : ∀ b, (s'.cache.buf b).refcnt ≠ 0 → (s.cache.buf b).refcnt = 0 →
      (s.cache.buf b).dev = ROOTDEV) :
    PinInv s' P := by
  have hf : ∀ b, (s'.cache.buf b).dev = (s.cache.buf b).dev ∧
      (s'.cache.buf b).blockno = (s.cache.buf b).blockno ∧
      (s'.cache.buf b).valid = (s.cache.buf b).valid ∧ (s'.cache.buf b).data = (s.cache.buf b).data :=
    fun b => by
      rw [hbuf b]
      exact ⟨rfl, rfl, rfl, rfl⟩
  have hcar : ∀ y b, s'.cache.carries ROOTDEV y b = s.cache.carries ROOTDEV y b := fun y b => by
    simp [BCache.carries, (hf b).1, (hf b).2.1]
  refine ⟨hbio, fun b hr => ?_, fun b ho => ?_, fun b hv hd hp => ?_, fun y hy => ?_, fun b hp => ?_⟩
  · rw [(hf b).1]
    by_cases h0 : (s.cache.buf b).refcnt = 0
    · exact hdev b hr h0
    · exact h.dev b h0
  · rw [(hf b).2.2.1]
    exact h.held b (howner b ho)
  · rw [(hf b).2.2.1] at hv
    rw [(hf b).1] at hd
    rw [(hf b).2.2.2, (hf b).2.1, hdisk]
    exact h.clean b hv hd (hpins ▸ hp)
  · obtain ⟨b, hc, hv, hp⟩ := h.pinned y hy
    exact ⟨b, by rw [hcar]; exact hc, by rw [(hf b).2.2.1]; exact hv, by rw [hpins]; exact hp⟩
  · rw [(hf b).1, (hf b).2.1]
    exact h.only b (hpins ▸ hp)

-- =============================================================== bread

/-- `bread`'s `bget` half, on the root device. -/
theorem PinInv.bget (h : PinInv s P) (hs : s.step (.bget i ROOTDEV x) = .next s') : PinInv s' P := by
  obtain ⟨L, hinv⟩ := h.bio
  have hinv' := bget_inv hinv hs
  obtain ⟨b, c, hw, hb, rfl⟩ := step_bget hs
  rcases BCache.bget_eq_ok hb with ⟨hl, rfl⟩ | ⟨-, hvic, rfl⟩
  · -- a hit: a count moves, on a buffer of the root device
    have hcar : s.cache.carries ROOTDEV x b = true := by
      rw [BCache.lookup_eq hinv.ring] at hl
      exact List.find?_some hl
    refine h.of_counts ⟨L, hinv'⟩ rfl rfl (fun _ ho => ho) (fun b' => setBuf_refcnt _ _ _ _)
      fun b' hr h0 => ?_
    by_cases hb' : b' = b
    · subst hb'
      simp only [BCache.carries, Bool.and_eq_true, beq_iff_eq] at hcar
      exact hcar.1
    · simp [BCache.setBuf_buf_of_ne _ _ hb', h0] at hr
  · -- recycled: the victim had no reference, hence no pin and no lock
    have hzero : (s.cache.buf b).refcnt = 0 := by
      rw [BCache.victim_eq hinv.ring] at hvic
      simpa using List.find?_some hvic
    have hrefs := (hinv.count b).symm.trans hzero
    have hpin : s.pins b = 0 := by simp only [refs] at hrefs; omega
    have hown : s.owner b = none := by
      simp only [refs] at hrefs
      by_contra hne
      simp [hne] at hrefs
    refine ⟨⟨L, hinv'⟩, fun b' hr => ?_, fun b' ho => ?_, fun b' hv hd hp => ?_, fun y hy => ?_,
      fun b' hp => ?_⟩ <;> simp only at *
    · by_cases hb' : b' = b
      · subst hb'; simp
      · simp only [BCache.setBuf_buf_of_ne _ _ hb'] at hr ⊢
        exact h.dev b' hr
    · have hb' : b' ≠ b := fun he => ho (he ▸ hown)
      simpa [BCache.setBuf_buf_of_ne _ _ hb'] using h.held b' ho
    · by_cases hb' : b' = b
      · subst hb'; simp at hv
      · simp only [BCache.setBuf_buf_of_ne _ _ hb'] at hv hd ⊢
        exact h.clean b' hv hd hp
    · obtain ⟨b', hc, hv, hp⟩ := h.pinned y hy
      have hb' : b' ≠ b := fun he => by rw [he, hpin] at hp; cases hp
      exact ⟨b', by simpa [BCache.carries, BCache.setBuf_buf_of_ne _ _ hb'] using hc,
        by simpa [BCache.setBuf_buf_of_ne _ _ hb'] using hv, hp⟩
    · have hb' : b' ≠ b := fun he => hp (he ▸ hpin)
      simpa [BCache.setBuf_buf_of_ne _ _ hb'] using h.only b' hp

/-- `bread`'s `acquiresleep` half: the buffer is read in if it is not
valid, which the disk then agrees with. -/
theorem PinInv.acquire (h : PinInv s P) (hs : s.step (.acquire i) = .next s') : PinInv s' P := by
  obtain ⟨L, hinv⟩ := h.bio
  have hinv' := acquire_inv hinv hs
  obtain ⟨b, hw, hfree, rfl⟩ := step_acquire hs
  have hbuf := BCache.fill_buf_eq s.cache s.disk b
  -- a valid buffer is not read again
  have hsame : ∀ b', (s.cache.buf b').valid = true → (s.cache.fill s.disk b).buf b' = s.cache.buf b' :=
    fun b' hv => by
      rw [hbuf]
      by_cases hb' : b' = b
      · subst hb'; simp [hv]
      · simp [hb']
  have hids : ∀ b', ((s.cache.fill s.disk b).buf b').dev = (s.cache.buf b').dev ∧
      ((s.cache.fill s.disk b).buf b').blockno = (s.cache.buf b').blockno :=
    fun b' => ⟨(BCache.fill_buf _ _ _ _).1, (BCache.fill_buf _ _ _ _).2.1⟩
  refine ⟨⟨L, hinv'⟩, fun b' hr => ?_, fun b' ho => ?_, fun b' hv hd hp => ?_, fun y hy => ?_,
    fun b' hp => ?_⟩ <;> simp only at *
  · rw [(hids b').1]
    exact h.dev b' (by rwa [(BCache.fill_buf _ _ _ _).2.2] at hr)
  · by_cases hb' : b' = b
    · subst hb'
      rw [hbuf]
      by_cases hv : (s.cache.buf b').valid = true
      · simp [hv]
      · simp [hv]
    · rw [hbuf]
      simp only [hb', false_and, if_false]
      exact h.held b' (by simpa [Function.update_of_ne hb'] using ho)
  · rw [hbuf] at hv hd ⊢
    by_cases hnew : b' = b ∧ (s.cache.buf b).valid = false
    · obtain ⟨rfl, hinvalid⟩ := hnew
      simp [hinvalid]
    · simp only [hnew, if_false] at hv hd ⊢
      exact h.clean b' hv hd hp
  · obtain ⟨b', hc, hv, hp⟩ := h.pinned y hy
    exact ⟨b', by simpa [BCache.carries, hsame b' hv] using hc, by rw [hsame b' hv]; exact hv, hp⟩
  · rw [(hids b').1, (hids b').2]
    exact h.only b' hp

/-- `brelse` by the holder moves a count. -/
theorem PinInv.brelse (h : PinInv s P) (hs : s.step (.brelse i b) = .next s') : PinInv s' P := by
  obtain ⟨L, hinv⟩ := h.bio
  have hbio := brelse_inv hinv hs
  obtain ⟨ho, rfl⟩ := step_brelse hs
  have hr : (s.cache.buf b).refcnt ≠ 0 := refcnt_ne_zero_of_owner hinv (by rw [ho]; simp)
  refine h.of_counts hbio (by simp) (by simp) (fun b' ho' => ?_) (fun b' => ?_) fun b' hr' h0 => ?_
  · by_cases hb' : b' = b
    · subst hb'; rw [ho]; simp
    · simpa [Function.update_of_ne hb'] using ho'
  · simp only [noteFree_cache]
    exact brelse_buf_counts _ _ _
  · by_cases hb' : b' = b
    · subst hb'; exact absurd h0 hr
    · have hsame : (s.cache.brelse b).buf b' = s.cache.buf b' := by
        rw [BCache.brelse_buf]
        simp [hb']
      simp only [noteFree_cache, hsame] at hr'
      exact absurd h0 hr'

-- ======================================================= bytes and pins

/-- A locked buffer is a referenced one, so of the root device. -/
theorem PinInv.dev_of_owner (h : PinInv s P) (ho : s.owner b ≠ none) :
    (s.cache.buf b).dev = ROOTDEV := by
  obtain ⟨L, hinv⟩ := h.bio
  exact h.dev b (refcnt_ne_zero_of_owner hinv ho)

/-- A store into a pinned buffer its caller holds: `log_write` of a
block already in the header. -/
theorem PinInv.setData (h : PinInv s P) (hp : s.pins b ≠ 0) (v : Block) :
    PinInv (s.setData b v) P := by
  obtain ⟨L, hinv⟩ := h.bio
  refine ⟨⟨L, bioInv_of_same hinv rfl (fun b' => by simp) rfl rfl rfl rfl rfl⟩,
    fun b' hr => ?_, fun b' ho => ?_, fun b' hv hd hp' => ?_, fun y hy => ?_, fun b' hp' => ?_⟩
  · simpa using h.dev b' (by simpa using hr)
  · simpa using h.held b' (by simpa using ho)
  · -- the pinned buffer is exempt; every other one keeps its bytes
    have hb' : b' ≠ b := fun he => hp (he ▸ by simpa using hp')
    simp only [setData_valid, setData_dev, setData_pins, setData_blockno, setData_disk] at hv hd hp' ⊢
    rw [setData_data_of_ne _ hb']
    exact h.clean b' hv hd hp'
  · simpa [BCache.carries] using h.pinned y hy
  · simpa using h.only b' (by simpa using hp')

/-- `log_write` of a block new to the header: the store, then `bpin`
by the holder. The block joins the pinned set. -/
theorem PinInv.setData_bpin (h : PinInv s P) (ho : s.owner b = some i)
    (hnew : ¬ P (s.cache.buf b).blockno) {v : Block} (hs : (s.setData b v).step (.bpin i b) = .next s') :
    PinInv s' fun y => P y ∨ y = (s.cache.buf b).blockno := by
  obtain ⟨L, hinv⟩ := h.bio
  have hp0 : s.pins b = 0 := by
    by_contra hne
    exact hnew (h.only b hne).2
  have hdev := h.dev_of_owner (by rw [ho]; simp)
  have hval := h.held b (by rw [ho]; simp)
  have hinv₁ : BioInv (s.setData b v) L := bioInv_of_same hinv rfl (fun b' => by simp) rfl rfl rfl rfl rfl
  have hinv' := bpin_inv hinv₁ (by simpa using ho) (by simpa using hp0) hs
  rw [step_bpin hs] at hinv' ⊢
  -- every other buffer is as it was
  have hother : ∀ b', b' ≠ b → ((s.setData b v).cache.bpin b).buf b' = s.cache.buf b' := fun b' hb' => by
    simp [BCache.bpin, setData_buf, hb']
  have hself : ((s.setData b v).cache.bpin b).buf b =
      { s.cache.buf b with data := v, refcnt := uintInc (s.cache.buf b).refcnt } := by
    simp [BCache.bpin, setData_buf]
  refine ⟨⟨L, hinv'⟩, fun b' hr => ?_, fun b' ho' => ?_, fun b' hv hd hp => ?_, fun y hy => ?_,
    fun b' hp => ?_⟩ <;> simp only at *
  · by_cases hb' : b' = b
    · subst hb'; rw [hself]; exact hdev
    · rw [hother b' hb'] at hr ⊢
      exact h.dev b' hr
  · by_cases hb' : b' = b
    · subst hb'; rw [hself]; exact hval
    · rw [hother b' hb']
      exact h.held b' (by simpa using ho')
  · -- the new pin exempts `b`
    have hb' : b' ≠ b := fun he => by subst he; simp at hp
    simp only [Function.update_of_ne hb', setData_pins] at hp
    rw [hother b' hb'] at hv hd ⊢
    exact h.clean b' hv hd hp
  · rcases hy with hy | rfl
    · obtain ⟨b', hc, hv, hp⟩ := h.pinned y hy
      have hb' : b' ≠ b := fun he => by rw [he, hp0] at hp; cases hp
      refine ⟨b', ?_, ?_, ?_⟩
      · simpa [BCache.carries, hother b' hb'] using hc
      · rw [hother b' hb']; exact hv
      · simpa [Function.update_of_ne hb'] using hp
    · refine ⟨b, ?_, by rw [hself]; exact hval, by simp [hp0]⟩
      simp [BCache.carries, hself, hdev]
  · by_cases hb' : b' = b
    · subst hb'
      rw [hself]
      exact ⟨hdev, .inr rfl⟩
    · simp only [Function.update_of_ne hb', setData_pins] at hp
      rw [hother b' hb']
      exact ⟨(h.only b' hp).1, .inl (h.only b' hp).2⟩

/-- `memmove` into a buffer the caller holds, then its `bwrite`: the
bytes reach the disk, so the buffer agrees with it again. -/
theorem PinInv.write (h : PinInv s P) {v : Block} (hs : (s.setData b v).bwrite i b = .next s') :
    PinInv s' P := by
  obtain ⟨L, hinv⟩ := h.bio
  obtain ⟨ho, rfl⟩ := bwrite_eq_next hs
  simp only [setData_owner] at ho
  have hdev := h.dev_of_owner (by rw [ho]; simp)
  refine ⟨⟨L, bioInv_of_same hinv rfl (fun b' => by simp) rfl rfl rfl rfl rfl⟩,
    fun b' hr => ?_, fun b' ho' => ?_, fun b' hv hd hp => ?_, fun y hy => ?_, fun b' hp => ?_⟩ <;>
    simp only at *
  · simpa using h.dev b' (by simpa using hr)
  · simpa using h.held b' (by simpa using ho')
  · simp only [setData_valid, setData_dev, setData_pins, setData_blockno, BCache.bwrite,
      setData_data_self] at hv hd hp ⊢
    by_cases hb' : b' = b
    · subst hb'
      simp
    · -- another buffer of the block written would carry it twice
      have hblk : (s.cache.buf b').blockno ≠ (s.cache.buf b).blockno := fun he =>
        hb' (BCache.eq_of_carries hinv.unique (x := (s.cache.buf b).blockno)
          (by simp [BCache.carries, hdev]) (by simp [BCache.carries, hd, he]))
      rw [setData_data_of_ne _ hb', Function.update_of_ne hblk]
      exact h.clean b' hv hd hp
  · simpa [BCache.carries] using h.pinned y hy
  · simpa using h.only b' (by simpa using hp)

/-- `bunpin` by the holder of a pinned buffer whose block has reached
the disk: the block leaves the pinned set. -/
theorem PinInv.bunpin (h : PinInv s P) (ho : s.owner b = some i) (hx : P x)
    (hc : s.cache.carries ROOTDEV x b = true) (hd : (s.cache.buf b).data = s.disk x)
    (hs : s.step (.bunpin i b) = .next s') : PinInv s' fun y => P y ∧ y ≠ x := by
  obtain ⟨L, hinv⟩ := h.bio
  have hp1 := h.pins_eq_one hx hc
  have hinv' := bunpin_inv hinv ho (by omega) hs
  have hr : (s.cache.buf b).refcnt ≠ 0 := refcnt_ne_zero_of_pins hinv (by omega)
  rw [step_bunpin hs] at hinv' ⊢
  have hbuf : ∀ b', (s.cache.bunpin b).buf b' =
      { s.cache.buf b' with refcnt := ((s.cache.bunpin b).buf b').refcnt } := fun b' =>
    setBuf_refcnt _ _ _ _
  have hf : ∀ b', ((s.cache.bunpin b).buf b').dev = (s.cache.buf b').dev ∧
      ((s.cache.bunpin b).buf b').blockno = (s.cache.buf b').blockno ∧
      ((s.cache.bunpin b).buf b').valid = (s.cache.buf b').valid ∧
      ((s.cache.bunpin b).buf b').data = (s.cache.buf b').data := fun b' => by
    rw [hbuf b']
    exact ⟨rfl, rfl, rfl, rfl⟩
  have hcx : (s.cache.buf b).dev = ROOTDEV ∧ (s.cache.buf b).blockno = x := by
    simpa [BCache.carries] using hc
  -- a buffer carrying another block is another buffer
  have hne : ∀ b' y, s.cache.carries ROOTDEV y b' = true → y ≠ x → b' ≠ b := fun b' y hc' hy he => by
    subst he
    simp only [BCache.carries, Bool.and_eq_true, beq_iff_eq] at hc'
    exact hy (hc'.2.symm.trans hcx.2)
  refine ⟨⟨L, hinv'⟩, fun b' hr' => ?_, fun b' ho' => ?_, fun b' hv hd' hp => ?_, fun y hy => ?_,
    fun b' hp => ?_⟩ <;> simp only [noteFree_cache, noteFree_owner, noteFree_pins, noteFree_disk] at *
  · rw [(hf b').1]
    by_cases hb' : b' = b
    · subst hb'; exact h.dev b' hr
    · exact h.dev b' (by simpa [BCache.bunpin, BCache.setBuf_buf_of_ne _ _ hb'] using hr')
  · rw [(hf b').2.2.1]
    exact h.held b' ho'
  · rw [(hf b').2.2.1] at hv
    rw [(hf b').1] at hd'
    rw [(hf b').2.2.2, (hf b').2.1]
    by_cases hb' : b' = b
    · subst hb'
      rw [hd, hcx.2]
    · exact h.clean b' hv hd' (by simpa [Function.update_of_ne hb'] using hp)
  · obtain ⟨b', hc', hv, hp⟩ := h.pinned y hy.1
    have hb' := hne b' y hc' hy.2
    refine ⟨b', by simpa [BCache.carries, (hf b').1, (hf b').2.1] using hc', by rw [(hf b').2.2.1]; exact hv,
      by simpa [Function.update_of_ne hb'] using hp⟩
  · have hb' : b' ≠ b := fun he => by subst he; simp [hp1] at hp
    have hp' : s.pins b' ≠ 0 := by simpa [Function.update_of_ne hb'] using hp
    obtain ⟨hd', hP⟩ := h.only b' hp'
    rw [(hf b').1, (hf b').2.1]
    refine ⟨hd', hP, fun hx' => hb' ?_⟩
    exact BCache.eq_of_carries hinv.unique hc (by simp [BCache.carries, hd', hx'])

-- ============================================================== the view

/-- No call changes what a reader of the root device sees: counts and
links do not show, and a recycled or filled buffer agrees with the
disk. -/
theorem PinInv.view_step (h : PinInv s P) {a : BioAct} (hs : s.step a = .next s') :
    s'.cache.view s'.disk = s.cache.view s.disk := by
  obtain ⟨L, hinv⟩ := h.bio
  rw [step_disk hs]
  cases a with
  | bget j dev x =>
      have hu' := (bget_inv hinv hs).unique
      obtain ⟨b, c, -, hb, rfl⟩ := step_bget hs
      rcases BCache.bget_eq_ok hb with ⟨-, rfl⟩ | ⟨-, hvic, rfl⟩
      · exact BCache.view_of_counts fun b' => setBuf_refcnt _ _ _ _
      · have hzero : (s.cache.buf b).refcnt = 0 := by
          rw [BCache.victim_eq hinv.ring] at hvic
          simpa using List.find?_some hvic
        have hpin : s.pins b = 0 := by
          have := (hinv.count b).symm.trans hzero
          simp only [refs] at this
          omega
        exact BCache.view_setBuf_of_clean hinv.unique hu' (fun hv hd => h.clean b hv hd hpin)
          fun hv => by simp at hv
  | acquire j =>
      have hu' := (acquire_inv hinv hs).unique
      obtain ⟨b, -, -, rfl⟩ := step_acquire hs
      simp only at hu' ⊢
      by_cases hv : (s.cache.buf b).valid = true
      · have hf : s.cache.fill s.disk b = s.cache := by simp [BCache.fill, hv]
        rw [hf]
      · have hf : s.cache.fill s.disk b = s.cache.setBuf b
            { s.cache.buf b with data := s.disk (s.cache.buf b).blockno, valid := true } := by
          simp [BCache.fill, hv]
        rw [hf] at hu' ⊢
        exact BCache.view_setBuf_of_clean hinv.unique hu' (fun hv' => absurd hv' hv) fun _ _ => rfl
  | brelse j b =>
      obtain ⟨-, rfl⟩ := step_brelse hs
      exact BCache.view_of_counts fun b' => by simpa using brelse_buf_counts _ _ _
  | bpin j b =>
      rw [step_bpin hs]
      exact BCache.view_of_counts fun b' => setBuf_refcnt _ _ _ _
  | bunpin j b =>
      rw [step_bunpin hs, noteFree_cache]
      exact BCache.view_of_counts fun b' => setBuf_refcnt _ _ _ _

-- ==================================================== a thread's buffers

/-- Thread `i` holds buffer `b`, which carries root-device block `x`. -/
def Mine (s : BioSys) (i : Nat) (b : BufId) (x : Nat) : Prop :=
  s.owner b = some i ∧ s.cache.carries ROOTDEV x b = true

/-- Thread `i` waits in `bread` for a buffer carrying root-device
block `x`. -/
def Awaits (s : BioSys) (i x : Nat) : Prop :=
  ∃ b, s.waiting[i]? = some (some b) ∧ s.cache.carries ROOTDEV x b = true

/-- A held buffer keeps all but its count through any call. -/
theorem PinInv.keeps_of_mine (h : PinInv s P) {a : BioAct} (hs : s.step a = .next s')
    (hm : s.Mine i b x) : s'.cache.buf b = { s.cache.buf b with refcnt := (s'.cache.buf b).refcnt } := by
  obtain ⟨L, hinv⟩ := h.bio
  have ho : s.owner b ≠ none := by rw [hm.1]; simp
  exact step_keeps hinv hs (refcnt_ne_zero_of_owner hinv ho) (h.held b ho)

/-- A call that leaves the lock leaves the buffer held. -/
theorem PinInv.mine_step (h : PinInv s P) {a : BioAct} (hs : s.step a = .next s')
    (hm : s.Mine i b x) (ho : s'.owner b = some i) : s'.Mine i b x := by
  refine ⟨ho, ?_⟩
  have hc := hm.2
  simp only [BCache.carries] at hc ⊢
  rw [h.keeps_of_mine hs hm]
  exact hc

/-- Another thread's call leaves thread `i` waiting for its block. -/
theorem PinInv.awaits_step (h : PinInv s P) {a : BioAct} (hs : s.step a = .next s')
    (hj : a.thread ≠ i) (ha : s.Awaits i x) : s'.Awaits i x := by
  obtain ⟨L, hinv⟩ := h.bio
  obtain ⟨b, hw, hc⟩ := ha
  have hid := step_ids hinv hs (refcnt_ne_zero_of_waiting hinv hw)
  refine ⟨b, by rw [step_waiting_of_ne hs hj]; exact hw, ?_⟩
  simp only [BCache.carries, hid.1, hid.2]
  exact hc

/-- `bget` of the root device leaves its caller waiting for the block. -/
theorem PinInv.awaits_bget (h : PinInv s P) (hs : s.step (.bget i ROOTDEV x) = .next s') :
    s'.Awaits i x := by
  obtain ⟨L, hinv⟩ := h.bio
  exact bget_waits hinv hs

/-- `acquiresleep` makes the awaited buffer the caller's. -/
theorem acquire_mine (hs : s.step (.acquire i) = .next s') (ha : s.Awaits i x)
    (hw : s.waiting[i]? = some (some b)) : s'.Mine i b x := by
  obtain ⟨b', hw', hc⟩ := ha
  rw [hw] at hw'
  cases hw'
  obtain ⟨ho, hd, hn⟩ := step_acquire_owner hs hw
  refine ⟨ho, ?_⟩
  simp only [BCache.carries, hd, hn]
  exact hc

end BioSys

end Xv6
