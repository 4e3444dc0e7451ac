import Xv6.Virtio.Proofs.Desc
import Xv6.Lib.Simulation

/-!
The descriptor bookkeeping holds between any two turns (`descInv_reach`).

A request is in flight from the `alloc3_desc` that takes its chain to
the `free_chain` that gives it back. `DescInv` says:

* the chains of the requests in flight are three distinct descriptors
  each, and no descriptor is in two chains; `free[i]` is set exactly
  for the descriptors in no chain, and a free descriptor is zero;
* each chain is linked as `virtio_disk_rw` formatted it, with
  `info[head].b` naming its buffer;
* the chain heads the device has not read in the avail ring, those it
  holds, and those it reported that the handler has not seen are
  distinct, are the heads of the requests whose buffer has
  `b->disk = 1`, and carry status `0xff` until the device reports
  them, `0` after.

Both rings are read through the queue of their 16-bit counters
(`Ring.queue16`), which wraps with the counters since `NUM` divides
`2 ^ 16`.
-/

namespace Xv6.Virtio

variable {ι : Type}

/-- Descriptor `i` is in the chain of a request in phase `p`. -/
@[grind] def Phase.Holds : Phase → Fin NUM → Prop
  | .wait a b c, i => i = a ∨ i = b ∨ i = c
  | _, _ => False

/-- The chain `virtio_disk_rw` formats for buffer `t` at `a, b, c`. -/
structure Chain (d : Disk ι) (t : ι) (a b c : Fin NUM) : Prop where
  head : d.desc a = ⟨.op a, VRING_DESC_F_NEXT, b.val.toUInt16⟩
  data : (d.desc b).addr = .data t
  data_next : (d.desc b).flags &&& VRING_DESC_F_NEXT ≠ 0
  data_link : (d.desc b).next = c.val.toUInt16
  status : d.desc c = ⟨.status a, VRING_DESC_F_WRITE, 0⟩
  buf : (d.info a).b = some t

namespace VirtioSys

/-- The avail entries the device has not read, as chain heads. -/
def availQueue (s : VirtioSys ι) : List Nat :=
  (Ring.queue16 s.d.avail.ring NUM s.dev.lastAvail s.d.avail.idx).map UInt16.toNat

/-- The chains submitted and not yet seen completed by the handler:
not read by the device, held by it, or reported in the used ring. -/
def queued (s : VirtioSys ι) : List Nat := s.availQueue ++ s.dev.pending.map UInt16.toNat ++ s.d.usedQueue

end VirtioSys

/-- What every reachable state keeps of the descriptors and rings. -/
structure DescInv (s : VirtioSys ι) : Prop where
  distinct : ∀ t a b c, s.phase t = .wait a b c → a ≠ b ∧ a ≠ c ∧ b ≠ c
  disjoint : ∀ t t' i, (s.phase t).Holds i → (s.phase t').Holds i → t = t'
  free_iff : ∀ i, s.d.free i = true ↔ ∀ t, ¬(s.phase t).Holds i
  zero : ∀ i, s.d.free i = true → s.d.desc i = Desc.zero
  chain : ∀ t a b c, s.phase t = .wait a b c → Chain s.d t a b c
  queued_nodup : s.queued.Nodup
  queued_head : ∀ h ∈ s.queued, ∃ t a b c, s.phase t = .wait a b c ∧ a.val = h ∧ s.d.bdisk t = true
  head_queued : ∀ t a b c, s.phase t = .wait a b c → s.d.bdisk t = true → a.val ∈ s.queued
  sent : ∀ t a b c, s.phase t = .wait a b c →
    a.val ∈ s.availQueue ++ s.dev.pending.map UInt16.toNat → (s.d.info a).status = 0xff
  done : ∀ t a b c, s.phase t = .wait a b c → a.val ∈ s.d.usedQueue → (s.d.info a).status = 0
  bdisk_wait : ∀ t, s.d.bdisk t = true → ∃ a b c, s.phase t = .wait a b c

variable {s : VirtioSys ι}

-- ================================================================ helpers

theorem Phase.holds_wait {a b c i : Fin NUM} : (Phase.wait a b c).Holds i ↔ i = a ∨ i = b ∨ i = c := Iff.rfl

theorem Phase.not_holds_of_ne {p : Phase} (hp : ∀ a b c, p ≠ .wait a b c) (i : Fin NUM) : ¬p.Holds i := by
  cases p with
  | wait a b c => exact absurd rfl (hp a b c)
  | _ => exact id

/-- A list of distinct descriptor numbers that misses one has fewer
than `NUM` entries. -/
theorem length_lt_of_nodup {l : List Nat} (hl : l.Nodup) (hlt : ∀ h ∈ l, h < NUM) {y : Nat} (hy : y < NUM)
    (hyl : y ∉ l) : l.length < NUM := by
  have hsub : l.toFinset ⊆ (Finset.range NUM).erase y := fun h hh => by
    rw [List.mem_toFinset] at hh
    exact Finset.mem_erase.mpr ⟨fun he => hyl (he ▸ hh), Finset.mem_range.mpr (hlt h hh)⟩
  have hcard := Finset.card_le_card hsub
  rw [List.toFinset_card_of_nodup hl, Finset.card_erase_of_mem (Finset.mem_range.mpr hy),
    Finset.card_range] at hcard
  have : 0 < NUM := by decide
  omega

/-- Taking out the `k`th entry and putting it at the end reorders the
list. -/
theorem eraseIdx_append_perm {α : Type*} {l : List α} {k : Nat} (hk : k < l.length) :
    (l.eraseIdx k ++ [l[k]]).Perm l := by
  conv_rhs => rw [← List.take_append_drop k l, List.drop_eq_getElem_cons hk]
  rw [List.eraseIdx_eq_take_drop_succ, List.append_assoc]
  exact List.Perm.append_left _ (List.perm_append_singleton _ _)

/-- A chain stays as it was where the disk keeps its three
descriptors and its head's buffer. -/
theorem Chain.congr {d d' : Disk ι} {t : ι} {a b c : Fin NUM} (hc : Chain d t a b c)
    (hdesc : ∀ i, (i = a ∨ i = b ∨ i = c) → d'.desc i = d.desc i) (hb : (d'.info a).b = (d.info a).b) :
    Chain d' t a b c where
  head := (hdesc a (.inl rfl)).trans hc.head
  data := by rw [hdesc b (.inr (.inl rfl))]; exact hc.data
  data_next := by rw [hdesc b (.inr (.inl rfl))]; exact hc.data_next
  data_link := by rw [hdesc b (.inr (.inl rfl))]; exact hc.data_link
  status := (hdesc c (.inr (.inr rfl))).trans hc.status
  buf := hb.trans hc.buf

/-- The device completes a chain `virtio_disk_rw` formatted: it writes
`0` to the request's status byte and reports the head. -/
theorem Device.complete_chain {d : Disk ι} {t : ι} {a b c : Fin NUM} (hc : Chain d t a b c) {x : UInt16}
    (hx : x.toNat = a.val) :
    Device.complete d x = some { d with
      info := Function.update d.info a { d.info a with status := 0 }
      used := ⟨d.used.idx + 1, Function.update d.used.ring (d.used.idx.toNat % NUM) x.toUInt32⟩ } := by
  have h0 : x.toNat < NUM := hx ▸ a.isLt
  have ha : (⟨x.toNat, h0⟩ : Fin NUM) = a := Fin.ext hx
  unfold Device.complete
  rw [dif_pos h0]
  simp only [ha, hc.head, toNat_toUInt16_val, Fin.eta, hc.data_link, hc.status, dif_pos b.isLt, dif_pos c.isLt]

theorem rwAlloc_of_none [DecidableEq ι] {d d' : Disk ι} {b : ι} {w : Bool}
    (h : alloc3Desc d = .ok (none, d')) : rwAlloc d b w = .ok (.sleepFree, d') := by
  rw [rwAlloc, h]
  rfl

theorem rwAlloc_of_some [DecidableEq ι] {d d' : Disk ι} {b : ι} {w : Bool} {i0 i1 i2 : Fin NUM}
    (h : alloc3Desc d = .ok (some (i0, i1, i2), d')) :
    rwAlloc d b w = .ok (.submitted i0 i1 i2, submit d' b w i0 i1 i2) := by
  rw [rwAlloc, h]
  rfl

/-- `free_chain` of a chain `virtio_disk_rw` formatted, on any disk with
the same descriptors and its three in use: the `NEXT` flags lead it
through exactly those three. -/
theorem Chain.freeChain_of {d d' : Disk ι} {t : ι} {a b c : Fin NUM} (hc : Chain d t a b c)
    (hdesc : d'.desc = d.desc) (hab : a ≠ b) (hac : a ≠ c) (hbc : b ≠ c) (ha : d'.free a = false)
    (hb : d'.free b = false) (hc' : d'.free c = false) :
    freeChain d' a = .ok (((d'.release a).release b).release c) :=
  freeChain_three hab hac hbc ha hb hc'
    (by rw [hdesc, hc.head]; exact (by decide : VRING_DESC_F_NEXT &&& VRING_DESC_F_NEXT ≠ 0))
    (by rw [hdesc, hc.head]) (by rw [hdesc]; exact hc.data_next) (by rw [hdesc]; exact hc.data_link)
    (by rw [hdesc, hc.status]; exact (by decide : VRING_DESC_F_WRITE &&& VRING_DESC_F_NEXT = 0))

/-- The end of `virtio_disk_rw` on a chain in use: `info[head].b` is
cleared and exactly the chain's three descriptors are freed. -/
theorem rwFinish_chain {d : Disk ι} {t : ι} {a b c : Fin NUM} (hc : Chain d t a b c)
    (hab : a ≠ b) (hac : a ≠ c) (hbc : b ≠ c) (ha : d.free a = false) (hb : d.free b = false)
    (hc' : d.free c = false) :
    rwFinish d a = .ok (((({ d with info := Function.update d.info a { d.info a with b := none } } :
      Disk ι).release a).release b).release c) :=
  hc.freeChain_of rfl hab hac hbc ha hb hc'

/-- A list of distinct descriptor numbers has at most `NUM` entries. -/
theorem length_le_of_nodup {l : List Nat} (hl : l.Nodup) (hlt : ∀ h ∈ l, h < NUM) : l.length ≤ NUM := by
  have hsub : l.toFinset ⊆ Finset.range NUM := fun h hh =>
    Finset.mem_range.mpr (hlt h (List.mem_toFinset.mp hh))
  simpa [List.toFinset_card_of_nodup hl] using Finset.card_le_card hsub

namespace DescInv

/-- A request in flight holds its descriptors. -/
theorem used_of_wait (h : DescInv s) {t : ι} {a b c i : Fin NUM} (ht : s.phase t = .wait a b c)
    (hi : i = a ∨ i = b ∨ i = c) : s.d.free i = false := by
  cases hf : s.d.free i
  · rfl
  · exact absurd (ht ▸ hi) ((h.free_iff i).mp hf t)

/-- A queued head is a descriptor in use. -/
theorem queued_lt (h : DescInv s) {x : Nat} (hx : x ∈ s.queued) : x < NUM := by
  obtain ⟨t, a, b, c, -, rfl, -⟩ := h.queued_head x hx
  exact a.isLt

theorem queued_used (h : DescInv s) {i : Fin NUM} (hx : i.val ∈ s.queued) : s.d.free i = false := by
  obtain ⟨t, a, b, c, ht, ha, -⟩ := h.queued_head i.val hx
  exact h.used_of_wait ht (.inl (Fin.ext ha.symm))

/-- A free descriptor heads no queued chain, so the queues have room. -/
theorem length_queued_lt (h : DescInv s) {i : Fin NUM} (hi : s.d.free i = true) : s.queued.length < NUM :=
  length_lt_of_nodup h.queued_nodup (fun _ => h.queued_lt) i.isLt fun hx => by
    rw [h.queued_used hx] at hi
    cases hi

/-- Two requests in flight with the same head are one. -/
theorem eq_of_head (h : DescInv s) {t t' : ι} {a b c a' b' c' : Fin NUM} (ht : s.phase t = .wait a b c)
    (ht' : s.phase t' = .wait a' b' c') (ha : a = a') : t = t' :=
  h.disjoint t t' a (by rw [ht]; exact .inl rfl) (by rw [ht', ha]; exact .inl rfl)

/-- Every used entry the handler has not seen heads a request in
flight. -/
theorem used_head (h : DescInv s) {y : Nat} (hy : y ∈ s.d.usedQueue) :
    ∃ t a b c, s.phase t = .wait a b c ∧ a.val = y := by
  obtain ⟨t, a, b, c, ht, hay, -⟩ := h.queued_head y (List.mem_append_right _ hy)
  exact ⟨t, a, b, c, ht, hay⟩

/-- The buffers the handler clears are those of the requests the device
reported. -/
theorem mem_cleared_iff (h : DescInv s) {t : ι} {a b c : Fin NUM} (ht : s.phase t = .wait a b c) :
    t ∈ s.d.usedQueue.filterMap s.d.bufOf ↔ a.val ∈ s.d.usedQueue := by
  constructor
  · intro hm
    obtain ⟨y, hy, hby⟩ := List.mem_filterMap.mp hm
    obtain ⟨t', a', b', c', ht', rfl⟩ := h.used_head hy
    rw [Disk.bufOf_val, (h.chain t' a' b' c' ht').buf, Option.some.injEq] at hby
    subst hby
    rw [ht] at ht'
    cases ht'
    exact hy
  · intro hy
    exact List.mem_filterMap.mpr ⟨a.val, hy, by rw [Disk.bufOf_val, (h.chain t a b c ht).buf]⟩

theorem boot : DescInv (VirtioSys.boot : VirtioSys ι) where
  distinct _ _ _ _ h := by cases h
  disjoint _ _ _ h := absurd h id
  free_iff _ := ⟨fun _ _ => id, fun _ => rfl⟩
  zero _ _ := rfl
  chain _ _ _ _ h := by cases h
  queued_nodup := by simp [VirtioSys.queued, VirtioSys.availQueue, Disk.usedQueue, VirtioSys.boot, init,
    Ring.queue16_self]
  queued_head _ h := by
    simp [VirtioSys.queued, VirtioSys.availQueue, Disk.usedQueue, VirtioSys.boot, init, Ring.queue16_self] at h
  head_queued _ _ _ _ h := by cases h
  sent _ _ _ _ h := by cases h
  done _ _ _ _ h := by cases h
  bdisk_wait _ h := by cases h

-- ============================================================ the device

/-- The device reads the next avail entry: the head moves from the
avail queue to the device's. -/
theorem fetch (h : DescInv s) (hne : s.dev.lastAvail ≠ s.d.avail.idx) :
    DescInv { s with dev := ⟨s.dev.lastAvail + 1, s.dev.pending ++ [s.d.avail.ring (s.dev.lastAvail.toNat % NUM)]⟩ } := by
  set s' : VirtioSys ι := { s with dev := ⟨s.dev.lastAvail + 1, s.dev.pending ++ [s.d.avail.ring (s.dev.lastAvail.toNat % NUM)]⟩ }
  have hpop : s.availQueue = (s.d.avail.ring (s.dev.lastAvail.toNat % NUM)).toNat :: s'.availQueue := by
    rw [VirtioSys.availQueue, Ring.queue16_pop num_dvd hne, List.map_cons]
    rfl
  -- the head moves to the end of the device's list: the same heads, reordered
  have hsent : ∀ x, x ∈ s'.availQueue ++ s'.dev.pending.map UInt16.toNat ↔
      x ∈ s.availQueue ++ s.dev.pending.map UInt16.toNat := fun x => by
    simp only [hpop, s', List.map_append, List.map_cons, List.map_nil, List.mem_append, List.mem_cons]
    tauto
  have hperm : s'.queued.Perm s.queued := by
    simp only [VirtioSys.queued, hpop, s', List.map_append, List.map_cons, List.map_nil]
    refine List.Perm.append_right _ ?_
    rw [← List.append_assoc]
    exact List.perm_append_singleton _ _
  exact ⟨h.distinct, h.disjoint, h.free_iff, h.zero, h.chain, hperm.nodup_iff.mpr h.queued_nodup,
    fun x hx => h.queued_head x (hperm.mem_iff.mp hx),
    fun t a b c ht hb => hperm.mem_iff.mpr (h.head_queued t a b c ht hb),
    fun t a b c ht hx => h.sent t a b c ht ((hsent _).mp hx), h.done, h.bdisk_wait⟩

/-- The device completes the `k`th chain it holds: the head moves to
the used ring, and its status byte becomes `0`. -/
theorem complete (h : DescInv s) {k : Nat} (hk : k < s.dev.pending.length) {d' : Disk ι}
    (hd : Device.complete s.d s.dev.pending[k] = some d') :
    DescInv { s with d := d', dev := { s.dev with pending := s.dev.pending.eraseIdx k } } := by
  set x := s.dev.pending[k]
  have hxq : x.toNat ∈ s.queued := by
    simp only [VirtioSys.queued, List.mem_append, List.mem_map]
    exact .inl (.inr ⟨x, List.getElem_mem hk, rfl⟩)
  obtain ⟨t, a, b, c, ht, hax, -⟩ := h.queued_head _ hxq
  rw [Device.complete_chain (h.chain t a b c ht) hax.symm, Option.some.injEq] at hd
  subst hd
  set s' : VirtioSys ι := { s with
    d := { s.d with
      info := Function.update s.d.info a { s.d.info a with status := 0 }
      used := ⟨s.d.used.idx + 1, Function.update s.d.used.ring (s.d.used.idx.toNat % NUM) x.toUInt32⟩ }
    dev := { s.dev with pending := s.dev.pending.eraseIdx k } } with hs'
  -- the parts of the queue are disjoint, and the completed head is in the device's
  have hnd := h.queued_nodup
  simp only [VirtioSys.queued, List.nodup_append, List.mem_append] at hnd
  have hxu : x.toNat ∉ s.d.usedQueue := fun hu => hnd.2.2 _ (.inr (List.mem_map_of_mem (List.getElem_mem hk))) _ hu rfl
  have hlen : (s.d.used.idx - s.d.usedIdx).toNat < NUM := by
    have := length_lt_of_nodup hnd.2.1 (fun y hy => h.queued_lt (by simp [VirtioSys.queued, hy]))
      a.isLt (hax ▸ hxu)
    simpa [Disk.usedQueue] using this
  have hused : s'.d.usedQueue = s.d.usedQueue ++ [x.toNat] := by
    simp only [s', Disk.usedQueue]
    rw [Ring.queue16_push num_dvd (by decide) hlen, List.map_append]
    simp
  have hperm : s'.queued.Perm s.queued := by
    simp only [VirtioSys.queued, hused, s', List.append_assoc]
    refine List.Perm.append_left _ ?_
    refine (List.Perm.append_left _ List.perm_append_comm).trans ?_
    rw [← List.append_assoc]
    refine List.Perm.append_right _ ?_
    simpa using (eraseIdx_append_perm hk).map UInt16.toNat
  have hxnot : x.toNat ∉ s'.availQueue ++ s'.dev.pending.map UInt16.toNat := fun hm => by
    have hnd' := hperm.nodup_iff.mpr h.queued_nodup
    rw [VirtioSys.queued, hused, List.nodup_append] at hnd'
    exact hnd'.2.2 _ hm _ (List.mem_append_right _ (List.mem_singleton_self _)) rfl
  -- the status byte written is the completed request's, and only its
  have hinfo : ∀ i, i ≠ a → s'.d.info i = s.d.info i := fun i hi => Function.update_of_ne hi _ _
  have hbuf : ∀ i, (s'.d.info i).b = (s.d.info i).b := fun i => by
    by_cases hi : i = a
    · subst hi
      simp [s']
    · rw [hinfo i hi]
  refine ⟨h.distinct, h.disjoint, h.free_iff, h.zero,
    fun t a b c ht => (h.chain t a b c ht).congr (fun _ _ => rfl) (hbuf a),
    hperm.nodup_iff.mpr h.queued_nodup, fun y hy => h.queued_head y (hperm.mem_iff.mp hy),
    fun t a b c ht hb => hperm.mem_iff.mpr (h.head_queued t a b c ht hb), fun t' a' b' c' ht' hm => ?_,
    fun t' a' b' c' ht' hm => ?_, h.bdisk_wait⟩
  · -- still before the device's report: another request than the completed one
    have hne : a' ≠ a := fun he => hxnot (by rw [← hax, ← he]; exact hm)
    rw [hinfo a' hne]
    refine h.sent t' a' b' c' ht' ?_
    rcases List.mem_append.mp hm with hm | hm
    · exact List.mem_append_left _ hm
    · refine List.mem_append_right _ ?_
      obtain ⟨y, hy, hya⟩ := List.mem_map.mp hm
      exact hya ▸ List.mem_map_of_mem (List.mem_of_mem_eraseIdx hy)
  · rw [hused, List.mem_append, List.mem_singleton] at hm
    by_cases hne : a' = a
    · subst hne
      simp [s']
    · rw [hinfo a' hne]
      refine h.done t' a' b' c' ht' (hm.resolve_right fun he => hne (Fin.ext (he.trans hax.symm)))

-- ============================================================ the driver

variable [DecidableEq ι]

/-- A request that is not in flight changes phase to another such
phase: nothing else moves. -/
theorem of_phase (h : DescInv s) {x : ι} {p : Phase} (hx : ∀ a b c, s.phase x ≠ .wait a b c)
    (hp : ∀ a b c, p ≠ .wait a b c) : DescInv { s with phase := Function.update s.phase x p } := by
  -- the requests in flight are the same ones
  have hwait : ∀ t a b c, Function.update s.phase x p t = .wait a b c ↔ s.phase t = .wait a b c := by
    intro t a b c
    by_cases htx : t = x
    · subst htx
      simp only [Function.update_self]
      exact ⟨fun he => absurd he (hp a b c), fun he => absurd he (hx a b c)⟩
    · rw [Function.update_of_ne htx]
  have hholds : ∀ t i, (Function.update s.phase x p t).Holds i ↔ (s.phase t).Holds i := by
    intro t i
    by_cases htx : t = x
    · subst htx
      simp only [Function.update_self]
      exact ⟨fun hh => absurd hh (Phase.not_holds_of_ne hp i), fun hh => absurd hh (Phase.not_holds_of_ne hx i)⟩
    · rw [Function.update_of_ne htx]
  refine ⟨fun t a b c ht => h.distinct t a b c ((hwait t a b c).mp ht),
    fun t t' i h1 h2 => h.disjoint t t' i ((hholds t i).mp h1) ((hholds t' i).mp h2),
    fun i => (h.free_iff i).trans (forall_congr' fun t => not_congr (hholds t i).symm), h.zero,
    fun t a b c ht => h.chain t a b c ((hwait t a b c).mp ht), h.queued_nodup, fun y hy => ?_,
    fun t a b c ht => h.head_queued t a b c ((hwait t a b c).mp ht),
    fun t a b c ht => h.sent t a b c ((hwait t a b c).mp ht),
    fun t a b c ht => h.done t a b c ((hwait t a b c).mp ht), fun t hb => ?_⟩
  · obtain ⟨t, a, b, c, ht, hy, hb⟩ := h.queued_head y hy
    exact ⟨t, a, b, c, (hwait t a b c).mpr ht, hy, hb⟩
  · obtain ⟨a, b, c, ht⟩ := h.bdisk_wait t hb
    exact ⟨a, b, c, (hwait t a b c).mpr ht⟩

/-- A request submitted on three distinct free descriptors: its chain
is formatted and its head joins the avail queue. -/
theorem submitted (h : DescInv s) {x : ι} {w : Bool} (hx : ∀ a b c, s.phase x ≠ .wait a b c)
    {i0 i1 i2 : Fin NUM} (h01 : i0 ≠ i1) (h02 : i0 ≠ i2) (h12 : i1 ≠ i2)
    (hf0 : s.d.free i0 = true) (hf1 : s.d.free i1 = true) (hf2 : s.d.free i2 = true) :
    DescInv { s with
      d := submit (((s.d.take i0).take i1).take i2) x w i0 i1 i2
      phase := Function.update s.phase x (.wait i0 i1 i2) } := by
  set s' : VirtioSys ι := { s with
    d := submit (((s.d.take i0).take i1).take i2) x w i0 i1 i2
    phase := Function.update s.phase x (.wait i0 i1 i2) } with hs'
  have hxnot : ∀ i, ¬(s.phase x).Holds i := Phase.not_holds_of_ne hx
  -- the requests in flight: the new one, and the old ones as they were
  have hwait : ∀ t a b c, s'.phase t = .wait a b c ↔
      (t = x ∧ a = i0 ∧ b = i1 ∧ c = i2) ∨ (t ≠ x ∧ s.phase t = .wait a b c) := by
    intro t a b c
    by_cases htx : t = x
    · subst htx
      simp only [s', Function.update_self, Phase.wait.injEq, true_and, ne_eq, not_true_eq_false, false_and,
        or_false]
      exact ⟨fun ⟨h1, h2, h3⟩ => ⟨h1.symm, h2.symm, h3.symm⟩, fun ⟨h1, h2, h3⟩ => ⟨h1.symm, h2.symm, h3.symm⟩⟩
    · simp [s', htx]
  have hholds : ∀ t i, (s'.phase t).Holds i ↔
      (t = x ∧ (i = i0 ∨ i = i1 ∨ i = i2)) ∨ (t ≠ x ∧ (s.phase t).Holds i) := by
    intro t i
    by_cases htx : t = x
    · subst htx
      simp [s', Phase.holds_wait, hxnot]
    · simp [s', htx]
  -- the new descriptors were in no chain
  have hnew : ∀ t i, (i = i0 ∨ i = i1 ∨ i = i2) → ¬(s.phase t).Holds i := fun t i hi => by
    rcases hi with rfl | rfl | rfl
    · exact (h.free_iff _).mp hf0 t
    · exact (h.free_iff _).mp hf1 t
    · exact (h.free_iff _).mp hf2 t
  have hold : ∀ t a b c, s.phase t = .wait a b c → ∀ i, (i = a ∨ i = b ∨ i = c) →
      ¬(i = i0 ∨ i = i1 ∨ i = i2) := fun t a b c ht i hi hn => hnew t i hn (by rw [ht]; exact hi)
  have hfree : ∀ i, s'.d.free i = if i = i0 ∨ i = i1 ∨ i = i2 then false else s.d.free i := by
    intro i
    simp only [s', submit_free, Disk.take_free]
    by_cases h0 : i = i0 <;> by_cases h1 : i = i1 <;> by_cases h2 : i = i2 <;> simp [h0, h1, h2]
  have hdesc : ∀ i, ¬(i = i0 ∨ i = i1 ∨ i = i2) → s'.d.desc i = s.d.desc i := fun i hi => by
    simp only [not_or] at hi
    exact submit_desc_of_ne hi.1 hi.2.1 hi.2.2
  have hinfo : ∀ i, i ≠ i0 → s'.d.info i = s.d.info i := fun i hi => by
    simp [s', Function.update_of_ne hi]
  have hbd : ∀ t, t ≠ x → s'.d.bdisk t = s.d.bdisk t := fun t ht => by
    simp [s', Function.update_of_ne ht]
  -- the new head, free before, is in none of the queues
  have hi0q : i0.val ∉ s.queued := fun hq => by
    rw [h.queued_used hq] at hf0
    cases hf0
  have havail : s'.availQueue = s.availQueue ++ [i0.val] := by
    have hlen : (s.d.avail.idx - s.dev.lastAvail).toNat < NUM := by
      have := Nat.lt_of_le_of_lt (List.Sublist.length_le (List.sublist_append_left _ _))
        (Nat.lt_of_le_of_lt (List.Sublist.length_le (List.sublist_append_left _ _)) (h.length_queued_lt hf0))
      simpa [VirtioSys.availQueue] using this
    simp only [VirtioSys.availQueue, s', submit_avail, Disk.take_avail]
    rw [Ring.queue16_push num_dvd (by decide) hlen, List.map_append, List.map_singleton,
      toNat_toUInt16_val]
  have hqueued : ∀ y, y ∈ s'.queued ↔ y = i0.val ∨ y ∈ s.queued := fun y => by
    simp only [VirtioSys.queued, havail, List.mem_append, List.mem_singleton]
    exact ⟨fun hy => by tauto, fun hy => by tauto⟩
  refine ⟨fun t a b c ht => ?_, fun t t' i h1 h2 => ?_, fun i => ?_, fun i hi => ?_, fun t a b c ht => ?_,
    ?_, fun y hy => ?_, fun t a b c ht hb => ?_, fun t a b c ht hm => ?_, fun t a b c ht hm => ?_,
    fun t hb => ?_⟩
  · rcases (hwait t a b c).mp ht with ⟨-, rfl, rfl, rfl⟩ | ⟨-, ht⟩
    · exact ⟨h01, h02, h12⟩
    · exact h.distinct t a b c ht
  · rcases (hholds t i).mp h1 with ⟨rfl, hi⟩ | ⟨-, h1'⟩ <;>
      rcases (hholds t' i).mp h2 with ⟨rfl, hi'⟩ | ⟨-, h2'⟩
    · rfl
    · exact absurd h2' (hnew t' i hi)
    · exact absurd h1' (hnew t i hi')
    · exact h.disjoint t t' i h1' h2'
  · rw [hfree]
    split_ifs with hi
    · -- taken by the new request
      simp only [false_iff, not_forall, not_not]
      exact ⟨x, (hholds x i).mpr (.inl ⟨rfl, hi⟩)⟩
    · rw [h.free_iff i]
      refine forall_congr' fun t => not_congr ⟨fun hh => (hholds t i).mpr (.inr ⟨?_, hh⟩), fun hh => ?_⟩
      · rintro rfl
        exact hxnot i hh
      · rcases (hholds t i).mp hh with ⟨-, hn⟩ | ⟨-, hh⟩
        · exact absurd hn hi
        · exact hh
  · have hn : ¬(i = i0 ∨ i = i1 ∨ i = i2) := fun hn => by simp [hfree, hn] at hi
    rw [hdesc i hn]
    exact h.zero i (by simpa [hfree, hn] using hi)
  · rcases (hwait t a b c).mp ht with ⟨rfl, rfl, rfl, rfl⟩ | ⟨htx, ht⟩
    · -- the chain just formatted
      refine ⟨submit_desc_i0 h01 h02, by rw [submit_desc_i1 h12], ?_, by rw [submit_desc_i1 h12],
        submit_desc_i2, by simp [s']⟩
      rw [submit_desc_i1 h12]
      show ((if w then 0 else VRING_DESC_F_WRITE) ||| VRING_DESC_F_NEXT) &&& VRING_DESC_F_NEXT ≠ 0
      cases w <;> decide
    · refine (h.chain t a b c ht).congr (fun i hi => hdesc i (hold t a b c ht i hi)) ?_
      rw [hinfo a fun he => hold t a b c ht a (.inl rfl) (.inl he)]
  · -- the new head joins a list of distinct heads it is not in
    have hperm : s'.queued.Perm (i0.val :: s.queued) := by
      simp only [VirtioSys.queued, havail, List.append_assoc]
      exact List.perm_middle
    exact hperm.nodup_iff.mpr (List.nodup_cons.mpr ⟨hi0q, h.queued_nodup⟩)
  · rcases (hqueued y).mp hy with rfl | hy
    · exact ⟨x, i0, i1, i2, by simp [s'], rfl, by simp [s']⟩
    · obtain ⟨t, a, b, c, ht, hay, hbt⟩ := h.queued_head y hy
      have htx : t ≠ x := fun he => hx a b c (he ▸ ht)
      exact ⟨t, a, b, c, (hwait t a b c).mpr (.inr ⟨htx, ht⟩), hay, (hbd t htx).trans hbt⟩
  · rcases (hwait t a b c).mp ht with ⟨-, rfl, -, -⟩ | ⟨htx, ht⟩
    · exact (hqueued _).mpr (.inl rfl)
    · exact (hqueued _).mpr (.inr (h.head_queued t a b c ht ((hbd t htx).symm.trans hb)))
  · rcases (hwait t a b c).mp ht with ⟨-, rfl, -, -⟩ | ⟨htx, ht⟩
    · simp [s']
    · have ha0 : a ≠ i0 := fun he => hold t a b c ht a (.inl rfl) (.inl he)
      rw [hinfo a ha0]
      refine h.sent t a b c ht ?_
      rw [havail, List.mem_append, List.mem_append, List.mem_singleton] at hm
      rcases hm with (hm | hm) | hm
      · exact List.mem_append_left _ hm
      · exact absurd (Fin.ext hm) ha0
      · exact List.mem_append_right _ hm
  · rcases (hwait t a b c).mp ht with ⟨-, rfl, -, -⟩ | ⟨htx, ht⟩
    · exact absurd (List.mem_append_right _ hm) hi0q
    · rw [hinfo a fun he => hold t a b c ht a (.inl rfl) (.inl he)]
      exact h.done t a b c ht hm
  · by_cases htx : t = x
    · subst htx
      exact ⟨i0, i1, i2, by simp [s']⟩
    · obtain ⟨a, b, c, ht⟩ := h.bdisk_wait t ((hbd t htx).symm.trans hb)
      exact ⟨a, b, c, (hwait t a b c).mpr (.inr ⟨htx, ht⟩)⟩

/-- A request whose buffer the handler cleared ends: its chain is
freed and the request is idle. -/
theorem finished (h : DescInv s) {x : ι} {a b c : Fin NUM} (hx : s.phase x = .wait a b c)
    (hbx : s.d.bdisk x = false) :
    ∃ d', rwFinish s.d a = .ok d' ∧ DescInv { s with d := d', phase := Function.update s.phase x .idle } := by
  obtain ⟨hab, hac, hbc⟩ := h.distinct x a b c hx
  refine ⟨_, rwFinish_chain (h.chain x a b c hx) hab hac hbc (h.used_of_wait hx (.inl rfl))
    (h.used_of_wait hx (.inr (.inl rfl))) (h.used_of_wait hx (.inr (.inr rfl))), ?_⟩
  set s' : VirtioSys ι := { s with
    d := ((({ s.d with info := Function.update s.d.info a { s.d.info a with b := none } } :
      Disk ι).release a).release b).release c
    phase := Function.update s.phase x .idle } with hs'
  -- the requests still in flight are the others
  have hwait : ∀ t a' b' c', s'.phase t = .wait a' b' c' ↔ t ≠ x ∧ s.phase t = .wait a' b' c' := by
    intro t a' b' c'
    by_cases htx : t = x
    · subst htx
      simp [s']
    · simp [s', htx]
  have hholds : ∀ t i, (s'.phase t).Holds i ↔ t ≠ x ∧ (s.phase t).Holds i := by
    intro t i
    by_cases htx : t = x
    · subst htx
      simp [s', Phase.Holds]
    · simp [s', htx]
  -- the other chains do not meet this one
  have hother : ∀ t a' b' c', t ≠ x → s.phase t = .wait a' b' c' → ∀ i, (i = a' ∨ i = b' ∨ i = c') →
      ¬(i = a ∨ i = b ∨ i = c) := fun t a' b' c' htx ht i hi hn =>
    htx (h.disjoint t x i (by rw [ht]; exact hi) (by rw [hx]; exact hn))
  have hfree : ∀ i, s'.d.free i = if i = a ∨ i = b ∨ i = c then true else s.d.free i := by
    intro i
    simp only [s', Disk.release_free]
    by_cases h0 : i = a <;> by_cases h1 : i = b <;> by_cases h2 : i = c <;> simp [h0, h1, h2]
  have hdesc : ∀ i, s'.d.desc i = if i = a ∨ i = b ∨ i = c then Desc.zero else s.d.desc i := by
    intro i
    simp only [s', Disk.release_desc]
    by_cases h0 : i = a <;> by_cases h1 : i = b <;> by_cases h2 : i = c <;> simp [h0, h1, h2]
  have hstatus : ∀ i, (s'.d.info i).status = (s.d.info i).status := fun i => by
    by_cases hi : i = a
    · subst hi
      simp [s']
    · simp [s', Function.update_of_ne hi]
  have hqueued : s'.queued = s.queued := rfl
  refine ⟨fun t a' b' c' ht => h.distinct t a' b' c' ((hwait t a' b' c').mp ht).2,
    fun t t' i h1 h2 => h.disjoint t t' i ((hholds t i).mp h1).2 ((hholds t' i).mp h2).2,
    fun i => ?_, fun i hi => ?_, fun t a' b' c' ht => ?_, hqueued ▸ h.queued_nodup, fun y hy => ?_,
    fun t a' b' c' ht hb => ?_, fun t a' b' c' ht hm => ?_, fun t a' b' c' ht hm => ?_, fun t hb => ?_⟩
  · rw [hfree]
    split_ifs with hi
    · -- freed: no other chain holds it
      refine ⟨fun _ t hh => ?_, fun _ => rfl⟩
      obtain ⟨htx, hh⟩ := (hholds t i).mp hh
      exact htx (h.disjoint t x i hh (by rw [hx]; exact hi))
    · rw [h.free_iff i]
      refine forall_congr' fun t => not_congr ⟨fun hh => (hholds t i).mpr ⟨fun he => ?_, hh⟩,
        fun hh => ((hholds t i).mp hh).2⟩
      subst he
      rw [hx] at hh
      exact hi hh
  · rw [hdesc]
    split_ifs with hn
    · rfl
    · exact h.zero i (by simpa [hfree, hn] using hi)
  · obtain ⟨htx, ht⟩ := (hwait t a' b' c').mp ht
    refine (h.chain t a' b' c' ht).congr (fun i hi => ?_) ?_
    · rw [hdesc, if_neg (hother t a' b' c' htx ht i hi)]
    · have ha' : a' ≠ a := fun he => hother t a' b' c' htx ht a' (.inl rfl) (.inl he)
      simp [s', Function.update_of_ne ha']
  · obtain ⟨t, a', b', c', ht, hay, hbt⟩ := h.queued_head y (hqueued ▸ hy)
    have htx : t ≠ x := fun he => by
      have hb' : s.d.bdisk t = true := hbt
      rw [he, hbx] at hb'
      cases hb'
    exact ⟨t, a', b', c', (hwait t a' b' c').mpr ⟨htx, ht⟩, hay, hbt⟩
  · exact hqueued ▸ h.head_queued t a' b' c' ((hwait t a' b' c').mp ht).2 hb
  · rw [hstatus]
    exact h.sent t a' b' c' ((hwait t a' b' c').mp ht).2 hm
  · rw [hstatus]
    exact h.done t a' b' c' ((hwait t a' b' c').mp ht).2 hm
  · have htx : t ≠ x := fun he => by
      have hb' : s.d.bdisk t = true := hb
      rw [he, hbx] at hb'
      cases hb'
    obtain ⟨a', b', c', ht⟩ := h.bdisk_wait t hb
    exact ⟨a', b', c', (hwait t a' b' c').mpr ⟨htx, ht⟩⟩

/-- In a reachable state `virtio_disk_intr` does not panic: each unseen
used entry carries status `0` and a buffer. -/
theorem intr_spec (h : DescInv s) :
    virtioDiskIntr s.d = .ok { s.d with
      bdisk := fun b => if b ∈ s.d.usedQueue.filterMap s.d.bufOf then false else s.d.bdisk b
      usedIdx := s.d.used.idx } := by
  refine virtioDiskIntr_spec fun y hy => ?_
  obtain ⟨t, a, b, c, ht, rfl⟩ := h.used_head hy
  exact ⟨a.isLt, h.done t a b c ht hy, by rw [Fin.eta, (h.chain t a b c ht).buf]; rfl⟩

/-- The handler clears `b->disk` for every request the device reported
and it had not seen, and catches up with the used ring. -/
theorem intr (h : DescInv s) : ∃ d', virtioDiskIntr s.d = .ok d' ∧ DescInv { s with d := d' } := by
  refine ⟨_, h.intr_spec, ?_⟩
  set C := s.d.usedQueue.filterMap s.d.bufOf
  set s' : VirtioSys ι := { s with d := { s.d with
    bdisk := fun b => if b ∈ C then false else s.d.bdisk b
    usedIdx := s.d.used.idx } } with hs'
  have hC : ∀ t a b c, s.phase t = .wait a b c → (t ∈ C ↔ a.val ∈ s.d.usedQueue) :=
    fun _ _ _ _ ht => h.mem_cleared_iff ht
  have hused : s'.d.usedQueue = [] := by
    simp [s', Disk.usedQueue, Ring.queue16_self]
  have hqueued : s'.queued = s.availQueue ++ s.dev.pending.map UInt16.toNat := by
    rw [VirtioSys.queued, hused, List.append_nil]
    rfl
  -- the parts of the queue are disjoint
  have hdisj : ∀ y, y ∈ s.availQueue ++ s.dev.pending.map UInt16.toNat → y ∉ s.d.usedQueue := by
    intro y hy hu
    have hnd := h.queued_nodup
    rw [VirtioSys.queued, List.nodup_append] at hnd
    exact hnd.2.2 y hy y hu rfl
  refine ⟨h.distinct, h.disjoint, h.free_iff, h.zero,
    fun t a b c ht => (h.chain t a b c ht).congr (fun _ _ => rfl) rfl, ?_, fun y hy => ?_,
    fun t a b c ht hb => ?_, fun t a b c ht hm => h.sent t a b c ht hm, fun t a b c ht hm => ?_,
    fun t hb => ?_⟩
  · rw [hqueued]
    exact h.queued_nodup.sublist (List.sublist_append_left _ _)
  · rw [hqueued] at hy
    obtain ⟨t, a, b, c, ht, hay, hbt⟩ := h.queued_head y (List.mem_append_left _ hy)
    have hnc : t ∉ C := fun hm => hdisj y hy (hay ▸ (hC t a b c ht).mp hm)
    exact ⟨t, a, b, c, ht, hay, by simp [s', hnc, hbt]⟩
  · have hnc : t ∉ C := fun hm => by simp [s', hm] at hb
    have hbt : s.d.bdisk t = true := by simpa [s', hnc] using hb
    rw [hqueued]
    have hq := h.head_queued t a b c ht hbt
    rw [VirtioSys.queued, List.mem_append] at hq
    exact hq.resolve_right fun hu => hnc ((hC t a b c ht).mpr hu)
  · rw [hused] at hm
    cases hm
  · have hnc : t ∉ C := fun hm => by simp [s', hm] at hb
    exact h.bdisk_wait t (by simpa [s', hnc] using hb)

/-- A pass of the allocation loop: a sleep that changes only the
request's phase, or a submission. -/
theorem alloc (h : DescInv s) {x : ι} {w : Bool} (hx : ∀ a b c, s.phase x ≠ .wait a b c) {s' : VirtioSys ι}
    (hs : s.alloc x w = .next s') : DescInv s' := by
  rcases alloc3Desc_spec h.zero with h3 | ⟨i0, i1, i2, h01, h02, h12, hf0, hf1, hf2, h3⟩
  · rw [VirtioSys.alloc, rwAlloc_of_none h3] at hs
    cases hs
    exact h.of_phase hx fun _ _ _ => nofun
  · rw [VirtioSys.alloc, rwAlloc_of_some h3] at hs
    cases hs
    exact h.submitted hx h01 h02 h12 hf0 hf1 hf2

/-- Every turn keeps `DescInv`. -/
theorem step (h : DescInv s) {e : VirtioEv ι} {s' : VirtioSys ι} (hs : s.step e = .next s') : DescInv s' := by
  cases e with
  | rw x w =>
      simp only [VirtioSys.step] at hs
      split_ifs at hs with hidle
      exact h.alloc (fun a b c he => by rw [hidle] at he; cases he) hs
  | retry x =>
      simp only [VirtioSys.step] at hs
      split at hs
      · next w hw => exact h.alloc (fun a b c he => by rw [hw] at he; cases he) hs
      · cases hs
  | finish x =>
      simp only [VirtioSys.step] at hs
      split at hs
      · next a b c hx =>
          split_ifs at hs with hbx
          obtain ⟨d', hd', hinv⟩ := h.finished hx hbx
          rw [hd'] at hs
          cases hs
          exact hinv
      · cases hs
  | intr =>
      simp only [VirtioSys.step] at hs
      obtain ⟨d', hd', hinv⟩ := h.intr
      rw [hd'] at hs
      cases hs
      exact hinv
  | fetch =>
      simp only [VirtioSys.step] at hs
      split_ifs at hs with hne
      cases hs
      exact h.fetch hne
  | complete k =>
      simp only [VirtioSys.step] at hs
      split_ifs at hs with hk
      split at hs
      · next d' hd =>
          cases hs
          exact h.complete hk hd
      · cases hs

end DescInv

/-- The bookkeeping holds in every state of every run from
`virtio_disk_init`. -/
theorem descInv_reach {s : VirtioSys ι} [DecidableEq ι]
    (h : Relation.ReflTransGen VirtioSys.Step VirtioSys.boot s) : DescInv s :=
  Relation.invariant_reach (fun _ _ hi ⟨_, hs⟩ => DescInv.step hi hs) DescInv.boot h

/-- The descriptor bookkeeping of the driver, in every state of every
run from `virtio_disk_init` with any requests for any buffers and a
device that completes the chains it has read in any order, reporting
each head once:

* the chain of each request in flight is three distinct descriptors in
  use, and no descriptor is in two chains;
* `free[i]` is set exactly for the descriptors in no chain;
* `alloc3_desc` gives `-1` and leaves the disk as it was, or takes
  three distinct free descriptors and changes nothing else;
* `free_chain` of the head of a chain in flight frees exactly its three
  descriptors, following the `NEXT` flags `virtio_disk_rw` set;
* the heads in the avail ring between the device's counter and
  `avail->idx`, those the device holds, and those in the used ring
  between `used_idx` and `used->idx`, each entry read at its counter
  modulo `NUM`, are distinct heads of requests in flight whose buffer
  has `b->disk = 1`, every such request's head is among them, and the
  counters are never more than `NUM` apart. -/
theorem virtio_desc_consistent {s : VirtioSys ι} [DecidableEq ι]
    (h : Relation.ReflTransGen VirtioSys.Step VirtioSys.boot s) :
    (∀ t a b c, s.phase t = .wait a b c →
      a ≠ b ∧ a ≠ c ∧ b ≠ c ∧ s.d.free a = false ∧ s.d.free b = false ∧ s.d.free c = false) ∧
    (∀ t t' i, (s.phase t).Holds i → (s.phase t').Holds i → t = t') ∧
    (∀ i, s.d.free i = true ↔ ∀ t, ¬(s.phase t).Holds i) ∧
    (alloc3Desc s.d = .ok (none, s.d) ∨
      ∃ i0 i1 i2, i0 ≠ i1 ∧ i0 ≠ i2 ∧ i1 ≠ i2 ∧ s.d.free i0 = true ∧ s.d.free i1 = true ∧
        s.d.free i2 = true ∧ alloc3Desc s.d = .ok (some (i0, i1, i2), ((s.d.take i0).take i1).take i2)) ∧
    (∀ t a b c, s.phase t = .wait a b c → freeChain s.d a = .ok (((s.d.release a).release b).release c)) ∧
    s.queued.Nodup ∧
    (∀ y ∈ s.queued, ∃ t a b c, s.phase t = .wait a b c ∧ a.val = y ∧ s.d.bdisk t = true) ∧
    (∀ t a b c, s.phase t = .wait a b c → s.d.bdisk t = true → a.val ∈ s.queued) ∧
    (s.d.avail.idx - s.dev.lastAvail).toNat + s.dev.pending.length + (s.d.used.idx - s.d.usedIdx).toNat ≤ NUM := by
  have hi := descInv_reach h
  -- the three descriptors of a chain in flight are in use
  have hused : ∀ t a b c, s.phase t = .wait a b c →
      s.d.free a = false ∧ s.d.free b = false ∧ s.d.free c = false := fun t a b c ht =>
    ⟨hi.used_of_wait ht (.inl rfl), hi.used_of_wait ht (.inr (.inl rfl)), hi.used_of_wait ht (.inr (.inr rfl))⟩
  refine ⟨fun t a b c ht => ⟨(hi.distinct t a b c ht).1, (hi.distinct t a b c ht).2.1,
      (hi.distinct t a b c ht).2.2, hused t a b c ht⟩, hi.disjoint, hi.free_iff, alloc3Desc_spec hi.zero,
    fun t a b c ht => ?_, hi.queued_nodup, hi.queued_head, hi.head_queued, ?_⟩
  · obtain ⟨hab, hac, hbc⟩ := hi.distinct t a b c ht
    obtain ⟨ha, hb, hc⟩ := hused t a b c ht
    exact (hi.chain t a b c ht).freeChain_of rfl hab hac hbc ha hb hc
  · -- the counters' differences count the queued heads, distinct descriptors
    have hlen := length_le_of_nodup hi.queued_nodup fun _ => hi.queued_lt
    simpa [VirtioSys.queued, VirtioSys.availQueue, Disk.usedQueue, Nat.add_assoc] using hlen

theorem virtio_desc_consistent_boot :
    Relation.ReflTransGen VirtioSys.Step (VirtioSys.boot : VirtioSys Nat) VirtioSys.boot ∧
    ((∀ t a b c, (VirtioSys.boot : VirtioSys Nat).phase t = .wait a b c →
      a ≠ b ∧ a ≠ c ∧ b ≠ c ∧ (VirtioSys.boot : VirtioSys Nat).d.free a = false ∧
        (VirtioSys.boot : VirtioSys Nat).d.free b = false ∧ (VirtioSys.boot : VirtioSys Nat).d.free c = false) ∧
    (∀ t t' i, ((VirtioSys.boot : VirtioSys Nat).phase t).Holds i →
      ((VirtioSys.boot : VirtioSys Nat).phase t').Holds i → t = t') ∧
    (∀ i, (VirtioSys.boot : VirtioSys Nat).d.free i = true ↔
      ∀ t, ¬((VirtioSys.boot : VirtioSys Nat).phase t).Holds i) ∧
    (alloc3Desc (VirtioSys.boot : VirtioSys Nat).d = .ok (none, (VirtioSys.boot : VirtioSys Nat).d) ∨
      ∃ i0 i1 i2, i0 ≠ i1 ∧ i0 ≠ i2 ∧ i1 ≠ i2 ∧ (VirtioSys.boot : VirtioSys Nat).d.free i0 = true ∧
        (VirtioSys.boot : VirtioSys Nat).d.free i1 = true ∧ (VirtioSys.boot : VirtioSys Nat).d.free i2 = true ∧
        alloc3Desc (VirtioSys.boot : VirtioSys Nat).d =
          .ok (some (i0, i1, i2), (((VirtioSys.boot : VirtioSys Nat).d.take i0).take i1).take i2)) ∧
    (∀ t a b c, (VirtioSys.boot : VirtioSys Nat).phase t = .wait a b c →
      freeChain (VirtioSys.boot : VirtioSys Nat).d a =
        .ok ((((VirtioSys.boot : VirtioSys Nat).d.release a).release b).release c)) ∧
    (VirtioSys.boot : VirtioSys Nat).queued.Nodup ∧
    (∀ y ∈ (VirtioSys.boot : VirtioSys Nat).queued, ∃ t a b c,
      (VirtioSys.boot : VirtioSys Nat).phase t = .wait a b c ∧ a.val = y ∧
        (VirtioSys.boot : VirtioSys Nat).d.bdisk t = true) ∧
    (∀ t a b c, (VirtioSys.boot : VirtioSys Nat).phase t = .wait a b c →
      (VirtioSys.boot : VirtioSys Nat).d.bdisk t = true → a.val ∈ (VirtioSys.boot : VirtioSys Nat).queued) ∧
    ((VirtioSys.boot : VirtioSys Nat).d.avail.idx - (VirtioSys.boot : VirtioSys Nat).dev.lastAvail).toNat +
      (VirtioSys.boot : VirtioSys Nat).dev.pending.length +
      ((VirtioSys.boot : VirtioSys Nat).d.used.idx - (VirtioSys.boot : VirtioSys Nat).d.usedIdx).toNat ≤ NUM) :=
  ⟨.refl, virtio_desc_consistent .refl⟩

/-- In every reachable state `virtio_disk_intr` does not panic: it
catches `used_idx` up with the device and clears `b->disk` of exactly
the requests the device reported that it had not seen. -/
theorem virtio_intr_clears {s : VirtioSys ι} [DecidableEq ι]
    (h : Relation.ReflTransGen VirtioSys.Step VirtioSys.boot s) :
    ∃ d', virtioDiskIntr s.d = .ok d' ∧ d'.usedIdx = s.d.used.idx ∧
      ∀ t, d'.bdisk t = true ↔ s.d.bdisk t = true ∧ ∀ a b c, s.phase t = .wait a b c → a.val ∉ s.d.usedQueue := by
  have hi := descInv_reach h
  refine ⟨_, hi.intr_spec, rfl, fun t => ?_⟩
  dsimp only
  by_cases hC : t ∈ s.d.usedQueue.filterMap s.d.bufOf
  · -- a cleared buffer: its request was reported
    rw [if_pos hC]
    simp only [Bool.false_eq_true, false_iff, not_and, not_forall, not_not]
    intro _
    obtain ⟨y, hy, hby⟩ := List.mem_filterMap.mp hC
    obtain ⟨t', a, b, c, ht', rfl⟩ := hi.used_head hy
    rw [Disk.bufOf_val, (hi.chain t' a b c ht').buf, Option.some.injEq] at hby
    subst hby
    exact ⟨a, b, c, ht', hy⟩
  · rw [if_neg hC]
    exact ⟨fun hb => ⟨hb, fun a b c ht hu => hC ((hi.mem_cleared_iff ht).mpr hu)⟩, fun hb => hb.1⟩

theorem virtio_intr_clears_boot :
    Relation.ReflTransGen VirtioSys.Step (VirtioSys.boot : VirtioSys Nat) VirtioSys.boot ∧
    ∃ d', virtioDiskIntr (VirtioSys.boot : VirtioSys Nat).d = .ok d' ∧
      d'.usedIdx = (VirtioSys.boot : VirtioSys Nat).d.used.idx ∧
      ∀ t, d'.bdisk t = true ↔ (VirtioSys.boot : VirtioSys Nat).d.bdisk t = true ∧
        ∀ a b c, (VirtioSys.boot : VirtioSys Nat).phase t = .wait a b c →
          a.val ∉ (VirtioSys.boot : VirtioSys Nat).d.usedQueue :=
  ⟨.refl, virtio_intr_clears .refl⟩

end Xv6.Virtio
