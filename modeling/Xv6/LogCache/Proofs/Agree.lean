import Xv6.LogCache.Proofs.Refine

/-!
What the log and the buffer cache agree on, in every state reachable
from a clean boot.

Outside `commit()` the header's entries are distinct and each is in
exactly one buffer, whose count is the threads holding it and the one
pin `log_write` made. A buffer carrying a block the log still pins
keeps its bytes through every call of the cache, so `bget` never
recycles it. What `write_log` copies into the log, and what
`install_trans(0)` copies back, are the bytes the atomic store the log
implements reads for the block. Once `install_trans(0)` has unpinned
every entry, each count is its holders again.
-/

namespace Xv6

open BioSys

namespace KInv

open Kern

variable {k : Kern} {i t x : Nat} {b : BufId}

/-- A pinned block is in exactly one buffer, and that buffer's count is
its holders and the pin. -/
theorem pinned_carrier (hk : KInv k) (hx : k.Pinned x) :
    ∃ b, k.bio.cache.carries ROOTDEV x b = true ∧
      (∀ b', k.bio.cache.carries ROOTDEV x b' = true → b' = b) ∧
      (k.bio.cache.buf b).refcnt = k.bio.holders b + 1 := by
  obtain ⟨L, hinv⟩ := hk.pins.bio
  obtain ⟨b, hc, -, hp⟩ := hk.pins.pinned x hx
  refine ⟨b, hc, fun b' hb' => BCache.eq_of_carries hinv.unique hc hb', ?_⟩
  rw [hinv.count b, refs_eq_holders, hp]

/-- A buffer carrying a pinned block keeps its identity, its valid bit
and its bytes through any call of the cache. -/
theorem pinned_kept (hk : KInv k) (hx : k.Pinned x) (hb : k.bio.cache.carries ROOTDEV x b = true)
    {a : BioAct} {s' : BioSys} (hs : k.bio.step a = .next s') :
    s'.cache.buf b = { k.bio.cache.buf b with refcnt := (s'.cache.buf b).refcnt } := by
  obtain ⟨L, hinv⟩ := hk.pins.bio
  obtain ⟨b', hc, hv, hp⟩ := hk.pins.pinned x hx
  obtain rfl := BCache.eq_of_carries hinv.unique hc hb
  -- the pin keeps the count off zero, so `bget` does not pick it
  exact step_keeps hinv hs (refcnt_ne_zero_of_pins hinv (by rw [hp]; decide)) hv

/-- `write_log` copies what the atomic store reads for the entry. -/
theorem wlCopy_reads (hk : KInv k) {dst src : BufId}
    (hi : k.ops[i]? = some (.commit (.wlCopy t dst src))) :
    (k.bio.cache.buf src).data = (abs k.toSys).view (k.log.lh.block.getD t 0) := by
  obtain ⟨ht, -, hsrc⟩ : CommitAt k.log k.bio i (.wlCopy t dst src) := hk.locals i _ hi
  have her := hk.erasing_eq hi
  have hhome : k.toSys.ctl.log.home (k.log.lh.block.getD t 0) := by
    rw [toSys_log_of_not_erasing her]
    exact hk.entry_home her ht
  show _ = homePart k.toSys.ctl.log.start k.toSys.ctl.log.size k.toSys.mem _
  rw [homePart_of_home hhome]
  exact (hk.view_mine hsrc).symm

/-- `install_trans(0)` copies back the same bytes: its log buffer holds
the log block, and at `install t` the log holds every entry. -/
theorem itCopy_reads (hk : KInv k) {lb db : BufId}
    (hi : k.ops[i]? = some (.commit (.itCopy t lb db))) :
    (k.bio.cache.buf lb).data = (abs k.toSys).view (k.log.lh.block.getD t 0) := by
  obtain ⟨ht, hlb, -⟩ : CommitAt k.log k.bio i (.itCopy t lb db) := hk.locals i _ hi
  have her := hk.erasing_eq hi
  have hlog := toSys_log_of_not_erasing her
  have hhome : k.toSys.ctl.log.home (k.log.lh.block.getD t 0) := by
    rw [hlog]
    exact hk.entry_home her ht
  obtain ⟨-, hcopied, -⟩ := hk.dataAt hi
  rw [hlog] at hcopied
  have hslot : k.toSys.ctl.log.inLog (k.log.slot t) := by
    rw [hlog]
    exact Log.slot_inLog (hk.slot_lt her ht)
  show _ = homePart k.toSys.ctl.log.start k.toSys.ctl.log.size k.toSys.mem _
  rw [homePart_of_home hhome, getD_of_lt ht]
  calc (k.bio.cache.buf lb).data
      = k.toSys.mem (k.log.slot t) := (hk.view_mine hlb).symm
    _ = k.toSys.disk (k.log.slot t) := hk.sys.coh _ hslot
    _ = k.toSys.mem k.log.lh.block[t] := hcopied t ht ht

/-- After `install_trans(0)`'s last `bunpin`, no buffer carries a pin:
each count is its holders. -/
theorem unpinned_all (hk : KInv k) (hi : k.ops[i]? = some (.commit .erase)) (b : BufId) :
    (k.bio.cache.buf b).refcnt = k.bio.holders b := by
  obtain ⟨L, hinv⟩ := hk.pins.bio
  have hp : k.bio.pins b = 0 := by
    by_contra hne
    -- only a pinned block's buffer is pinned, and at `erase` none is
    have hx := (hk.pinned_iff hi).mp (hk.pins.only b hne).2
    simp [Cpc.pinned] at hx
  rw [hinv.count b, refs_eq_holders, hp, Nat.add_zero]

end KInv

/-- What the log and the buffer cache agree on in a state. -/
structure Agree (k : Kern) : Prop where
  /-- Outside `commit()` the entries are distinct, and each is in
  exactly one buffer, counted by its holders and one pin. -/
  quiet : k.Quiet → k.log.lh.block.Nodup ∧ ∀ x ∈ k.log.lh.block, ∃ b,
    k.bio.cache.carries ROOTDEV x b = true ∧
    (∀ b', k.bio.cache.carries ROOTDEV x b' = true → b' = b) ∧
    (k.bio.cache.buf b).refcnt = k.bio.holders b + 1
  /-- No call of the cache, `bget` included, takes the buffer of a
  pinned block: only its count moves. -/
  kept : ∀ (x : Nat) (b : BufId), k.Pinned x → k.bio.cache.carries ROOTDEV x b = true →
    ∀ (a : BioAct) (s' : BioSys), k.bio.step a = .next s' →
      s'.cache.buf b = { k.bio.cache.buf b with refcnt := (s'.cache.buf b).refcnt }
  /-- `write_log`'s `memmove` copies the store's bytes of the entry. -/
  writeLog : ∀ (i t : Nat) (dst src : BufId), k.ops[i]? = some (Tpc.commit (.wlCopy t dst src)) →
    (k.bio.cache.buf src).data = (abs k.toSys).view (k.log.lh.block.getD t 0)
  /-- `install_trans(0)`'s `memmove` copies the same bytes back. -/
  install : ∀ (i t : Nat) (lb db : BufId), k.ops[i]? = some (Tpc.commit (.itCopy t lb db)) →
    (k.bio.cache.buf lb).data = (abs k.toSys).view (k.log.lh.block.getD t 0)
  /-- After `install_trans(0)`'s `bunpin` calls each count is its
  holders. -/
  unpinned : ∀ i : Nat, k.ops[i]? = some (Tpc.commit .erase) →
    ∀ b, (k.bio.cache.buf b).refcnt = k.bio.holders b

theorem KInv.agree {k : Kern} (hk : KInv k) : Agree k where
  quiet hq := ⟨hk.nodup (Kern.erasing_of_quiet hq),
    fun _ hx => hk.pinned_carrier ((Kern.pinned_of_quiet hq).mpr hx)⟩
  kept _ _ hx hb _ _ hs := hk.pinned_kept hx hb hs
  writeLog _ _ _ _ hi := hk.wlCopy_reads hi
  install _ _ _ _ hi := hk.itCopy_reads hi
  unpinned _ hi := hk.unpinned_all hi

/-- The log and the buffer cache agree on the pinned blocks, along any
interleaving of `begin_op`, `bread`, stores with `log_write`, `brelse`,
`end_op` and the statements of `commit()` from a clean boot. -/
theorem log_cache_agree {d : Disk} {start size n : Nat} {k : Kern}
    (hc : headOf (d start) = .empty) (hn : n + 3 < 2 ^ 32)
    (h : Relation.ReflTransGen Kern.KStep (Kern.boot d start size n) k) : Agree k :=
  (kern_reach hc hn h).1.agree

/-- `log_cache_agree` for two threads booted on a zeroed disk with the
`mkfs` log geometry. -/
theorem log_cache_agree_boot :
    headOf ((fun _ _ => 0 : Disk) logstart) = .empty ∧ 2 + 3 < 2 ^ 32 ∧
      Agree (Kern.boot (fun _ _ => 0) logstart nlog 2) := by
  have hz : headOf ((fun _ _ => 0 : Disk) logstart) = .empty := by decide
  exact ⟨hz, by decide, log_cache_agree hz (by decide) .refl⟩

end Xv6
