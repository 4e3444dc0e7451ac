import Xv6.Log.Proofs.Crash

/-!
`recover_from_log` after a crash, itself crashed and restarted any
number of times, and the crash-atomicity theorem of the log.

# The invariant

`installed start d` is the disk recovery would produce from `d`.
Recovery keeps it fixed. Installing entry `t` writes, to a home block
the header names, the log block `installed` already reads for it.
Clearing the header comes only after every entry is home, when
`installed start d = d`. So `RecInv G`, which says the header is one
recovery can act on and `installed` agrees with `G` on home blocks,
holds from a crash of the running system on, through every step and
every crash of recovery. A crash keeps the disk, so it keeps the
invariant; only the phase facts (`RecAt`) restart.

# Termination

Without a crash recovery is done after at most `n + 3` steps; it is
`done` from then on.
-/

namespace Xv6

open Relation

-- ================================================ recovery's header

/-- A header recovery can act on: distinct home entries, no more than
the log holds. -/
structure GoodHead (start size : Nat) (lh : LogHeader) : Prop where
  nodup : lh.block.Nodup
  home : ∀ b ∈ lh.block, (Log.init start size).home b
  fits : lh.n ≤ size - 1

theorem goodHead_empty (start size : Nat) : GoodHead start size .empty :=
  ⟨List.nodup_nil, by simp, by simp [LogHeader.n]⟩

/-- The entries below `t` are home: each home block holds its log copy. -/
def InstalledBelow (start : Nat) (d : Disk) (lh : LogHeader) (t : Nat) : Prop :=
  ∀ j (hj : j < lh.block.length), j < t → d lh.block[j] = d (start + j + 1)

/-- What recovery has established in each phase. -/
def RecAt (start : Nat) (d : Disk) : RecPhase → Prop
  | .readHead => True
  | .install lh t => headOf (d start) = lh ∧ InstalledBelow start d lh t
  | .clear => InstalledBelow start d (headOf (d start)) (headOf (d start)).n
  | .done => headOf (d start) = .empty

/-- The recovery invariant, for the home blocks `G` recovery is to
produce. -/
structure RecInv (start size : Nat) (G : Disk) (r : Rec) : Prop where
  good : GoodHead start size (headOf (r.disk start))
  durable : homePart start size (installed start r.disk) = G
  phase : RecAt start r.disk r.ph

-- ================================================= one recovery step

section Steps

variable {start size : Nat} {G d : Disk}

theorem recInv_readHead (h : RecInv start size G ⟨d, .readHead⟩) :
    RecInv start size G (Rec.step start ⟨d, .readHead⟩) :=
  ⟨h.good, h.durable, rfl, fun _ _ h0 => absurd h0 (Nat.not_lt_zero _)⟩

/-- `install_trans(1)` copies entry `t` home. -/
theorem recInv_install (hsize : 0 < size) {lh : LogHeader} {t : Nat}
    (h : RecInv start size G ⟨d, .install lh t⟩) (ht : t < lh.block.length) :
    RecInv start size G
      ⟨Function.update d lh.block[t] (d (start + t + 1)), .install lh (t + 1)⟩ := by
  obtain ⟨hgood, hdur, hhead, hbelow⟩ := h
  dsimp only at hgood hdur hhead hbelow
  have hgood' : GoodHead start size lh := hhead ▸ hgood
  have hhome := hgood'.home _ (List.getElem_mem ht)
  have hbs : lh.block[t] ≠ start := Log.home_ne_start hsize hhome
  have hfits : lh.block.length ≤ size - 1 := hgood'.fits
  have hslot : ∀ j < lh.block.length, lh.block[t] ≠ start + j + 1 := fun j hj =>
    Log.home_ne_slot (l := Log.init start size) (by simp only [Log.init]; omega) hhome
  have hhead' : headOf (Function.update d lh.block[t] (d (start + t + 1)) start) = lh := by
    rw [Function.update_of_ne hbs.symm]
    exact hhead
  refine ⟨?_, ?_, hhead', ?_⟩
  · show GoodHead start size (headOf (Function.update d _ _ start))
    rw [hhead']
    exact hgood'
  · show homePart start size (installed start (Function.update d _ _)) = G
    rw [installed_update_of_mem _ (by rw [hhead]; exact List.getElem_mem ht) hbs
      (by rw [hhead]; exact hslot)]
    exact hdur
  · intro j hj hjt
    show Function.update d _ _ _ = Function.update d _ _ _
    rw [Function.update_of_ne (hslot j hj).symm]
    rcases Nat.lt_succ_iff_lt_or_eq.mp hjt with hlt | rfl
    · -- an earlier entry: a different home block, by absorption
      have hne : lh.block[j] ≠ lh.block[t] := fun e => by
        have := (List.getElem_inj hgood'.nodup).mp e
        omega
      rw [Function.update_of_ne hne]
      exact hbelow j hj hlt
    · rw [Function.update_self]

/-- The loop of `install_trans(1)` ends after the last entry. -/
theorem recInv_install_end {lh : LogHeader} {t : Nat}
    (h : RecInv start size G ⟨d, .install lh t⟩) (ht : lh.block.length ≤ t) :
    RecInv start size G ⟨d, .clear⟩ := by
  obtain ⟨hgood, hdur, hhead, hbelow⟩ := h
  refine ⟨hgood, hdur, ?_⟩
  show InstalledBelow start d (headOf (d start)) (headOf (d start)).n
  rw [hhead]
  exact fun j hj _ => hbelow j hj (by omega)

/-- The clearing `write_head`: every entry is home, so the disk is
what recovery was to produce. -/
theorem recInv_clear (hsize : 0 < size) (h : RecInv start size G ⟨d, .clear⟩) :
    RecInv start size G (Rec.step start ⟨d, .clear⟩) := by
  obtain ⟨hgood, hdur, hbelow⟩ := h
  dsimp only at hgood hdur hbelow
  have hclean : headOf (Function.update d start (putHead (d start) .empty) start) = .empty := by
    rw [Function.update_self]
    exact headOf_putHead _ (by simp [LogHeader.n, LogHeader.empty]) (by simp [LogHeader.empty])
  have hns : ¬ (Log.init start size).home start := fun hh => hh.2 (Log.start_inLog hsize)
  have hself : installed start d = d :=
    installed_eq_self rfl hgood.nodup fun j hj => hbelow j hj hj
  refine ⟨?_, ?_, hclean⟩
  · show GoodHead start size (headOf (Function.update d start _ start))
    rw [hclean]
    exact goodHead_empty start size
  · show homePart start size (installed start (Function.update d start _)) = G
    rw [installed_eq_of_clean hclean, homePart_update_of_not_home hns, ← hdur, hself]

/-- Every recovery step keeps the invariant. -/
theorem recInv_step (hsize : 0 < size) {r : Rec} (h : RecInv start size G r) :
    RecInv start size G (Rec.step start r) := by
  obtain ⟨d, ph⟩ := r
  cases ph with
  | readHead => exact recInv_readHead h
  | install lh t =>
      by_cases ht : t < lh.block.length
      · have hstep : Rec.step start ⟨d, .install lh t⟩ =
            ⟨Function.update d lh.block[t] (d (start + t + 1)), .install lh (t + 1)⟩ := by
          simp only [Rec.step, List.getElem?_eq_getElem ht]
        rw [hstep]
        exact recInv_install hsize h ht
      · have hstep : Rec.step start ⟨d, .install lh t⟩ = ⟨d, .clear⟩ := by
          simp only [Rec.step, List.getElem?_eq_none (Nat.le_of_not_lt ht)]
        rw [hstep]
        exact recInv_install_end h (Nat.le_of_not_lt ht)
  | clear => exact recInv_clear hsize h
  | done => exact h

/-- A crash keeps the disk, and with it the invariant. -/
theorem recInv_crash {r : Rec} (h : RecInv start size G r) :
    RecInv start size G r.crash :=
  ⟨h.good, h.durable, trivial⟩

/-- Recovery, crashed and restarted any number of times, keeps the
invariant. -/
theorem recInv_reach (hsize : 0 < size) {r r' : Rec} (h : RecInv start size G r)
    (hr : ReflTransGen (Rec.Move start) r r') : RecInv start size G r' := by
  refine invariant_reach (fun a b ha hab => ?_) h hr
  rcases hab with rfl | rfl
  · exact recInv_step hsize ha
  · exact recInv_crash ha

/-- Done, recovery has produced `G` and left the header empty. -/
theorem recInv_done {r : Rec} (h : RecInv start size G r) (hd : r.ph = .done) :
    homePart start size r.disk = G ∧ headOf (r.disk start) = .empty := by
  obtain ⟨d, ph⟩ := r
  cases hd
  have hclean : headOf (d start) = .empty := h.phase
  refine ⟨?_, hclean⟩
  rw [← h.durable, installed_eq_of_clean hclean]

end Steps

-- ======================================================= termination

section Termination

variable {start : Nat}

theorem iterate_done (d : Disk) (m : Nat) :
    (Rec.step start)^[m] ⟨d, .done⟩ = ⟨d, .done⟩ :=
  Function.iterate_fixed rfl m

/-- From entry `t` of `install_trans(1)`, recovery is done after the
remaining entries and two more steps. -/
theorem install_done (lh : LogHeader) :
    ∀ (k t : Nat) (d : Disk), lh.block.length ≤ t + k →
      ((Rec.step start)^[k + 2] ⟨d, .install lh t⟩).ph = .done := by
  intro k
  -- induction on the entries left, the disk and the index growing
  induction k with
  | zero =>
      intro t d hk
      have hnone : lh.block[t]? = none := List.getElem?_eq_none (by omega)
      simp only [Function.iterate_succ_apply, Function.iterate_zero_apply, Rec.step, hnone]
  | succ k ih =>
      intro t d hk
      rw [Function.iterate_succ_apply]
      by_cases ht : t < lh.block.length
      · simp only [Rec.step, List.getElem?_eq_getElem ht]
        exact ih (t + 1) _ (by omega)
      · simp only [Rec.step, List.getElem?_eq_none (Nat.le_of_not_lt ht)]
        rw [Function.iterate_succ_apply]
        show ((Rec.step start)^[k] ⟨_, .done⟩).ph = _
        rw [iterate_done]

/-- Left to run, recovery finishes from any state. -/
theorem rec_reaches_done (r : Rec) : ∃ m, ((Rec.step start)^[m] r).ph = .done := by
  obtain ⟨d, ph⟩ := r
  cases ph with
  | readHead =>
      refine ⟨(headOf (d start)).block.length + 3, ?_⟩
      rw [Function.iterate_succ_apply]
      exact install_done (headOf (d start)) _ 0 d (by omega)
  | install lh t => exact ⟨lh.block.length + 2, install_done lh _ t d (by omega)⟩
  | clear => exact ⟨1, rfl⟩
  | done => exact ⟨0, rfl⟩

end Termination

-- ============================================== crash atomicity

/-- A crash of the running system leaves a disk recovery can act on,
and the home blocks it is to produce are the store's durable ones. -/
theorem recInv_of_inv {s : Sys} (hinv : Inv s) :
    RecInv s.ctl.log.start s.ctl.log.size (abs s).durable ⟨s.disk, .readHead⟩ where
  good := by
    by_cases hne : headOf (s.disk s.ctl.log.start) = .empty
    · show GoodHead _ _ (headOf (s.disk s.ctl.log.start))
      rw [hne]
      exact goodHead_empty _ _
    · -- a committed header is the in-memory one, which absorption and the home rule keep good
      obtain ⟨hcomm, -, -⟩ := hinv.committed_of_ne_empty hne
      show GoodHead _ _ (headOf (s.disk s.ctl.log.start))
      rw [hcomm]
      exact ⟨hinv.ctl.nodup, hinv.home, hinv.ctl.cap.1⟩
  durable := rfl
  phase := trivial

end Xv6
