import Xv6.Log.Proofs.Control
import Xv6.Lib.Txn
import Xv6.Lib.Simulation

/-!
Crash atomicity of the write-ahead log.

# What the disk means

`installed start d` is the disk recovery would produce from `d`: a
block named by the on-disk header reads its log copy, every other
block its own contents. The durable state of the running system is
`installed` of its disk, restricted to the home blocks; what readers
see is the cache view `mem`. `abs` packages both, with the header's
blocks as the open transaction until the commit point, as a
`TxnStore`.

# The refinement

Every step of the running system (with operations writing home
blocks only) is a step of `TxnStore` under `abs`, or leaves `abs`
unchanged: a logged write is a `TxnStore.write`, the first
`write_head` of `commit()` is `TxnStore.commit`, and every other step
— `write_log` into the log blocks, `install_trans(0)` copying a log
block home, the clearing `write_head` — moves bytes without changing
`abs`. The invariant carrying this is `Inv`: the control invariant,
the cache agreeing with the disk on the log blocks, and `DataAt`,
which says phase by phase which blocks of the cache the disk has
caught up with.

# Recovery

`recover_from_log`, run from any disk with a well-formed header and
restarted after any number of crashes, keeps `installed` of the disk
fixed on the home blocks and, when it finishes, leaves a clean header
and the disk equal to that `installed` image.
-/

namespace Xv6

-- ==================================================== the durable view

/-- The disk recovery would produce from `d`. -/
@[grind] def installed (start : Nat) (d : Disk) (b : Nat) : Block :=
  match (headOf (d start)).block.idxOf? b with
  | some j => d (start + j + 1)
  | none => d b

theorem installed_of_not_mem {start : Nat} {d : Disk} {b : Nat}
    (hb : b ∉ (headOf (d start)).block) : installed start d b = d b := by
  rw [installed, List.idxOf?_eq_none_iff.mpr hb]

theorem installed_of_clean {start : Nat} {d : Disk} (hc : headOf (d start) = .empty)
    (b : Nat) : installed start d b = d b :=
  installed_of_not_mem (by rw [hc]; simp)

theorem installed_getElem {start : Nat} {d : Disk} {j : Nat}
    (hnd : (headOf (d start)).block.Nodup) (hj : j < (headOf (d start)).block.length) :
    installed start d (headOf (d start)).block[j] = d (start + j + 1) := by
  have hidx : (headOf (d start)).block.idxOf? (headOf (d start)).block[j] = some j := by
    rw [List.idxOf?_eq_some_iff]
    refine ⟨hj, rfl, fun k hk heq => ?_⟩
    have := (List.getElem_inj hnd).mp heq
    omega
  rw [installed, hidx]

/-- `installed_getElem` for a header known by value. -/
theorem installed_getElem_of_head {start : Nat} {d : Disk} {lh : LogHeader} {j : Nat}
    (hh : headOf (d start) = lh) (hnd : lh.block.Nodup) (hj : j < lh.block.length) :
    installed start d lh.block[j] = d (start + j + 1) := by
  subst hh
  exact installed_getElem hnd hj

theorem installed_eq_of_clean {start : Nat} {d : Disk} (hc : headOf (d start) = .empty) :
    installed start d = d :=
  funext (installed_of_clean hc)

/-- Writing a home block that the header names changes nothing
recovery would produce. -/
theorem installed_update_of_mem {start : Nat} {d : Disk} {b : Nat} (x : Block)
    (hb : b ∈ (headOf (d start)).block) (hbs : b ≠ start)
    (hslot : ∀ j < (headOf (d start)).block.length, b ≠ start + j + 1) :
    installed start (Function.update d b x) = installed start d := by
  have hhd : headOf (Function.update d b x start) = headOf (d start) := by
    rw [Function.update_of_ne hbs.symm]
  funext c
  unfold installed
  rw [hhd]
  split
  · next j hj =>
      have hjlt := (List.idxOf?_eq_some_iff.mp hj).1
      rw [Function.update_of_ne (hslot j hjlt).symm]
  · next hnone =>
      have hc : c ∉ (headOf (d start)).block := List.idxOf?_eq_none_iff.mp hnone
      have hne : c ≠ b := fun e => hc (e ▸ hb)
      rw [Function.update_of_ne hne]

/-- Once every entry's home block holds its log copy, recovery would
produce the disk itself. -/
theorem installed_eq_self {start : Nat} {d : Disk} {lh : LogHeader}
    (hh : headOf (d start) = lh) (hnd : lh.block.Nodup)
    (hall : ∀ j (hj : j < lh.block.length), d lh.block[j] = d (start + j + 1)) :
    installed start d = d := by
  funext b
  by_cases hmem : b ∈ lh.block
  · obtain ⟨j, hj, rfl⟩ := List.getElem_of_mem hmem
    rw [installed_getElem_of_head hh hnd hj, hall j hj]
  · exact installed_of_not_mem (by rw [hh]; exact hmem)

-- ====================================================== the invariant

section DataInv

variable (l : Log) (disk mem : Disk)

/-- The on-disk header is empty. -/
def Clean : Prop := headOf (disk l.start) = .empty

/-- The on-disk header is the in-memory one: the transaction
committed. -/
def Committed : Prop := headOf (disk l.start) = l.lh

/-- The first `t` entries are in their log blocks. -/
def Copied (t : Nat) : Prop :=
  ∀ j (hj : j < l.lh.block.length), j < t → disk (l.slot j) = mem l.lh.block[j]

/-- Every home block outside entries `t, t+1, …` of the header has
reached the disk. -/
def InstalledFrom (t : Nat) : Prop :=
  ∀ b, l.home b → b ∉ l.lh.block.drop t → mem b = disk b

/-- The data invariant, by the phase of the committing thread. -/
def DataAt : Option Phase → Prop
  | none => Clean l disk ∧ InstalledFrom l disk mem 0
  | some (.writeLog t) => Clean l disk ∧ InstalledFrom l disk mem 0 ∧ Copied l disk mem t
  | some .writeHead => Clean l disk ∧ InstalledFrom l disk mem 0 ∧ Copied l disk mem l.lh.n
  | some (.install t) => Committed l disk ∧ Copied l disk mem l.lh.n ∧ InstalledFrom l disk mem t
  | some .clear => Committed l disk ∧ Copied l disk mem l.lh.n ∧ InstalledFrom l disk mem l.lh.n
  | some .done => Clean l disk ∧ InstalledFrom l disk mem 0

end DataInv

/-- The invariant of the running system. -/
structure Inv (s : Sys) : Prop where
  ctl : CtlInv s.ctl
  /-- Operations log home blocks only. -/
  home : ∀ b ∈ s.ctl.log.lh.block, s.ctl.log.home b
  /-- The cache agrees with the disk on the log blocks. -/
  coh : ∀ b, s.ctl.log.inLog b → s.mem b = s.disk b
  data : DataAt s.ctl.log s.disk s.mem (phaseOf s.ctl.ops)

/-- A step of the running system in which operations write home
blocks only. -/
def HomeStep (s s' : Sys) : Prop :=
  ∃ a v, (∀ i b, a = .write i b → s.ctl.log.home b) ∧ s.step a v = .next s'

/-- At boot no thread is in `commit()`. -/
theorem phaseOf_boot (d : Disk) (start size k : Nat) :
    phaseOf (Sys.boot d start size k).ctl.ops = none :=
  (phaseOf_eq_none_iff _).mpr (by simp [Sys.boot, LogSys.boot, List.countP_replicate])

theorem inv_boot {d : Disk} {start size k : Nat} (hc : headOf (d start) = .empty) :
    Inv (Sys.boot d start size k) where
  ctl := ctlInv_boot start size k
  home := by simp [Sys.boot, LogSys.boot, Log.init, LogHeader.empty]
  coh := fun _ _ => rfl
  data := by
    rw [phaseOf_boot]
    exact ⟨hc, fun _ _ _ => rfl⟩

/-- A header on disk that is not empty is the committed one, its
entries copied to the log, and a thread is in `commit()`. -/
theorem Inv.committed_of_ne_empty {s : Sys} (hinv : Inv s)
    (hne : headOf (s.disk s.ctl.log.start) ≠ .empty) :
    Committed s.ctl.log s.disk ∧ Copied s.ctl.log s.disk s.mem s.ctl.log.lh.n ∧
      ∃ ph, phaseOf s.ctl.ops = some ph := by
  have hdata := hinv.data
  -- every phase but `install` and `clear` keeps the header clean
  rcases hp : phaseOf s.ctl.ops with _ | ph
  · rw [hp] at hdata
    exact absurd hdata.1 hne
  · rw [hp] at hdata
    cases ph with
    | writeLog t => exact absurd hdata.1 hne
    | writeHead => exact absurd hdata.1 hne
    | install t => exact ⟨hdata.1, hdata.2.1, _, rfl⟩
    | clear => exact ⟨hdata.1, hdata.2.1, _, rfl⟩
    | done => exact absurd hdata.1 hne

-- ===================================================== block geometry

namespace Log

variable {l : Log} {b j : Nat}

theorem home_ne_start (hsize : 0 < l.size) (hb : l.home b) : b ≠ l.start := by
  rintro rfl
  exact hb.2 ⟨le_rfl, by omega⟩

theorem slot_inLog (hj : j < l.size - 1) : l.inLog (l.slot j) :=
  ⟨by simp only [slot]; omega, by simp only [slot]; omega⟩

theorem home_ne_slot (hj : j < l.size - 1) (hb : l.home b) : b ≠ l.slot j := by
  rintro rfl
  exact hb.2 (slot_inLog hj)

theorem start_inLog (hsize : 0 < l.size) : l.inLog l.start := ⟨le_rfl, by omega⟩

end Log

-- ====================================================== the abstraction

/-- The home blocks of `d` for the log at `start` of `size` blocks;
every other block reads as zeros. -/
def homePart (start size : Nat) (d : Disk) : Disk :=
  fun b => if (Log.init start size).home b then d b else fun _ => 0

/-- `homePart` does not see a write outside the home blocks. -/
theorem homePart_update_of_not_home {start size : Nat} {d : Disk} {b : Nat}
    (hb : ¬ (Log.init start size).home b) (x : Block) :
    homePart start size (Function.update d b x) = homePart start size d := by
  funext c
  by_cases hcb : c = b
  · subst hcb
    simp [homePart, hb]
  · simp [homePart, Function.update_of_ne hcb]

theorem homePart_update {l : Log} {d : Disk} {b : Nat} (hb : l.home b) (v : Block) :
    homePart l.start l.size (Function.update d b v)
      = Function.update (homePart l.start l.size d) b v := by
  funext c
  by_cases hcb : c = b
  · subst hcb
    simp only [homePart, Function.update_self, if_pos (show (Log.init l.start l.size).home c from hb)]
  · simp [homePart, Function.update_of_ne hcb]

/-- A home block of the log is its own. -/
theorem homePart_of_home {l : Log} {d : Disk} {b : Nat} (hb : l.home b) :
    homePart l.start l.size d b = d b :=
  if_pos (show (Log.init l.start l.size).home b from hb)

/-- Phases after the commit point: the transaction is durable. -/
@[grind] def committedPhase : Option Phase → Bool
  | some (.install _) => true
  | some .clear => true
  | some .done => true
  | _ => false

/-- The running system as an atomic transactional store: durable is
what recovery would produce, the view is the cache, and the header's
blocks form the open transaction until the commit point. -/
def abs (s : Sys) : TxnStore Nat Block where
  durable := homePart s.ctl.log.start s.ctl.log.size (installed s.ctl.log.start s.disk)
  view := homePart s.ctl.log.start s.ctl.log.size s.mem
  pending := if committedPhase (phaseOf s.ctl.ops) then [] else s.ctl.log.lh.block

-- ============================================ the steps of an operation

section Steps

variable {s s' : Sys} {i : Nat} {v : Block}

/-- A logged write of a home block is a write of the store. -/
theorem write_refines {b : Nat} (hinv : Inv s) (hb : s.ctl.log.home b)
    (h : s.step (.write i b) v = .next s') : Inv s' ∧ abs s' = (abs s).write b v := by
  have hc := Sys.step_ctl h
  have hctl' := hinv.ctl.step hc
  obtain ⟨hd, hm⟩ := Sys.step_write_data h
  obtain ⟨w, l, added, hw, hl, hctl⟩ := LogSys.step_write hc
  obtain ⟨-, -, -, -, rfl⟩ := logWrite_eq_ok hl
  obtain ⟨h0, -⟩ := hinv.ctl.noCommit_of_inOp hw
  have hph : phaseOf s.ctl.ops = none := (phaseOf_eq_none_iff _).mpr h0
  have hdata := hinv.data
  rw [hph] at hdata
  obtain ⟨hclean, hinst⟩ := hdata
  obtain ⟨ctl', disk', mem'⟩ := s'
  simp only at hd hm hctl hctl'
  subst hd hm hctl
  have hph' : phaseOf (s.ctl.ops.set i (.inOp (b :: w))) = none := by
    apply (phaseOf_eq_none_iff _).mpr
    have hcm := countP_set_of_getElem? (q := .inOp (b :: w)) Pc.isCommit hw
    simp only [Pc.isCommit_inOp, Bool.false_eq_true, if_false] at hcm
    omega
  -- the new header: `lh` with `b` appended unless already present
  have hmem : ∀ c, c ∈ (if b ∈ s.ctl.log.lh.block then s.ctl.log.lh.block
      else s.ctl.log.lh.block ++ [b]) ↔ c ∈ s.ctl.log.lh.block ∨ c = b := by
    intro c
    split
    · next hb' => exact ⟨Or.inl, fun h => h.elim id (fun e => e ▸ hb')⟩
    · simp
  refine ⟨⟨hctl', ?_, ?_, ?_⟩, ?_⟩
  · intro c hc'
    rcases (hmem c).mp hc' with hc' | rfl
    · exact hinv.home c hc'
    · exact hb
  · intro c hc'
    have hne : c ≠ b := fun e => hb.2 (e ▸ hc')
    simp only [Function.update_of_ne hne]
    exact hinv.coh c hc'
  · rw [hph']
    refine ⟨hclean, fun c hc' hcn => ?_⟩
    have hne : c ≠ b := fun e => hcn (by simp [e, hmem])
    simp only [Function.update_of_ne hne]
    exact hinst c hc' (fun hm' => hcn (by simp only [List.drop_zero] at hm' ⊢; exact (hmem c).mpr (Or.inl hm')))
  · simp only [abs, hph, hph', committedPhase, TxnStore.write, Bool.false_eq_true, if_false]
    rw [homePart_update hb]

/-- `begin_op` moves no data. -/
theorem beginOp_refines (hinv : Inv s) (h : s.step (.beginOp i) v = .next s') :
    Inv s' ∧ abs s' = abs s := by
  have hc := Sys.step_ctl h
  have hctl' := hinv.ctl.step hc
  obtain ⟨hd, hm⟩ := Sys.step_data_of_ctl h ⟨fun _ => nofun, fun _ _ => nofun⟩
  obtain ⟨hidle, l, hl, hctl⟩ := LogSys.step_beginOp hc
  obtain ⟨hcm, -, rfl⟩ := beginOp_eq_some hl
  have h0 := hinv.ctl.noCommit hcm
  have hph : phaseOf s.ctl.ops = none := (phaseOf_eq_none_iff _).mpr h0
  obtain ⟨ctl', disk', mem'⟩ := s'
  simp only at hd hm hctl hctl'
  subst hd hm hctl
  have hph' : phaseOf (s.ctl.ops.set i (.inOp [])) = none := by
    apply (phaseOf_eq_none_iff _).mpr
    have hcm' := countP_set_of_getElem? (q := .inOp []) Pc.isCommit hidle
    simp only [Pc.isCommit_inOp, Pc.isCommit_idle, Bool.false_eq_true, if_false] at hcm'
    omega
  have hdata := hinv.data
  rw [hph] at hdata
  refine ⟨⟨hctl', hinv.home, hinv.coh, ?_⟩, ?_⟩
  · rw [hph']
    exact hdata
  · simp only [abs, hph, hph']

/-- `end_op` moves no data; entering `commit()` opens no phase past
the commit point. -/
theorem endOp_refines (hinv : Inv s) (h : s.step (.endOp i) v = .next s') :
    Inv s' ∧ abs s' = abs s := by
  have hc := Sys.step_ctl h
  have hctl' := hinv.ctl.step hc
  obtain ⟨hd, hm⟩ := Sys.step_data_of_ctl h ⟨fun _ => nofun, fun _ _ => nofun⟩
  obtain ⟨w, l, c, hw, hl, hctl⟩ := LogSys.step_endOp hc
  obtain ⟨-, -, rfl⟩ := endOp_eq_ok hl
  obtain ⟨h0, -⟩ := hinv.ctl.noCommit_of_inOp hw
  have hph : phaseOf s.ctl.ops = none := (phaseOf_eq_none_iff _).mpr h0
  have hdata := hinv.data
  rw [hph] at hdata
  obtain ⟨hclean, hinst⟩ := hdata
  obtain ⟨ctl', disk', mem'⟩ := s'
  simp only at hd hm hctl hctl'
  subst hd hm hctl
  cases c with
  | true =>
      set l' : Log := { s.ctl.log with outstanding := s.ctl.log.outstanding - 1, committing := true }
      have hph' : phaseOf (s.ctl.ops.set i (.commit (commitEntry l'))) = some (commitEntry l') := by
        have hcm := countP_set_of_getElem? (q := .commit (commitEntry l')) Pc.isCommit hw
        simp only [Pc.isCommit_inOp, Pc.isCommit_commit, Bool.false_eq_true, if_false,
          if_true] at hcm
        refine phaseOf_of_getElem? (i := i) (by omega) ?_
        rw [getElem?_set_of_getElem? hw, if_pos rfl]
      simp only [if_true] at hctl' ⊢
      refine ⟨⟨hctl', hinv.home, hinv.coh, ?_⟩, ?_⟩
      · rw [hph']
        simp only [commitEntry]
        split
        · exact ⟨hclean, hinst, fun j _ hj => absurd hj (Nat.not_lt_zero j)⟩
        · exact ⟨hclean, hinst⟩
      · simp only [abs, hph, hph']
        simp only [commitEntry]
        split
        · rfl
        · next hn =>
            have hnil : s.ctl.log.lh.block = [] :=
              List.eq_nil_of_length_eq_zero (by simp only [l', LogHeader.n] at hn; omega)
            simp [l', committedPhase, hnil]
  | false =>
      have hph' : phaseOf (s.ctl.ops.set i .idle) = none := by
        apply (phaseOf_eq_none_iff _).mpr
        have hcm := countP_set_of_getElem? (q := .idle) Pc.isCommit hw
        simp only [Pc.isCommit_inOp, Pc.isCommit_idle, Bool.false_eq_true, if_false] at hcm
        omega
      simp only [Bool.false_eq_true, if_false] at hctl' ⊢
      refine ⟨⟨hctl', hinv.home, hinv.coh, ?_⟩, ?_⟩
      · rw [hph']
        exact ⟨hclean, hinst⟩
      · simp only [abs, hph, hph']

-- ================================================ the steps of commit()

/-- The committing thread's phase determines the commit step. -/
theorem commit_step_eq (h : s.step (.commit i) v = .next s') {ph : Phase}
    (hph : s.ctl.ops[i]? = some (.commit ph)) :
    s' = ⟨⟨(commitCtl s.ctl.log ph).1, s.ctl.ops.set i (commitCtl s.ctl.log ph).2⟩,
        (Sys.commitData s.ctl.log s.disk s.mem ph).1, (Sys.commitData s.ctl.log s.disk s.mem ph).2⟩ := by
  obtain ⟨ph', hph', rfl⟩ := Sys.step_commit_eq h
  rw [hph] at hph'
  cases hph'
  rfl

/-- `write_log` copies entry `t` into its log block: nothing home
moves. -/
theorem writeLog_refines (hinv : Inv s) {t : Nat}
    (hph : s.ctl.ops[i]? = some (.commit (.writeLog t)))
    (h : s.step (.commit i) v = .next s') : Inv s' ∧ abs s' = abs s := by
  have hctl' := hinv.ctl.step (Sys.step_ctl h)
  have hwas : phaseOf s.ctl.ops = some (.writeLog t) :=
    phaseOf_of_getElem? hinv.ctl.oneCommit hph
  have hdata := hinv.data
  rw [hwas] at hdata
  obtain ⟨hclean, hinst, hcopied⟩ := hdata
  obtain ⟨hpos, -⟩ := hinv.ctl.phase i _ hph
  have hcap := hinv.ctl.cap
  rw [commit_step_eq h hph] at hctl' ⊢
  simp only [commitCtl, Sys.commitData] at hctl' ⊢
  by_cases ht : t < s.ctl.log.lh.n
  · -- one `bwrite` of a log block
    have htb : t < s.ctl.log.lh.block.length := ht
    rw [if_pos ht] at hctl' ⊢
    rw [List.getElem?_eq_getElem htb]
    simp only
    have hnow : phaseOf (s.ctl.ops.set i (.commit (.writeLog (t + 1)))) = some (.writeLog (t + 1)) :=
      phaseOf_set_commit hinv.ctl hph
    have hslot : s.ctl.log.inLog (s.ctl.log.slot t) := Log.slot_inLog (by omega)
    have hns : ¬ (Log.init s.ctl.log.start s.ctl.log.size).home (s.ctl.log.slot t) :=
      fun hh => hh.2 hslot
    have hstart : s.ctl.log.start ≠ s.ctl.log.slot t := by simp only [Log.slot]; omega
    refine ⟨⟨hctl', hinv.home, ?_, ?_⟩, ?_⟩
    · dsimp only
      intro b hb
      by_cases hbs : b = s.ctl.log.slot t
      · subst hbs
        simp only [Function.update_self]
      · simp only [Function.update_of_ne hbs]
        exact hinv.coh b hb
    · dsimp only
      rw [hnow]
      refine ⟨?_, ?_, ?_⟩
      · show headOf (Function.update s.disk _ _ s.ctl.log.start) = _
        rw [Function.update_of_ne hstart]
        exact hclean
      · intro b hb hbn
        have hne : b ≠ s.ctl.log.slot t := Log.home_ne_slot (by omega) hb
        simp only [Function.update_of_ne hne]
        exact hinst b hb hbn
      · intro j hj hjt
        have hhome : s.ctl.log.lh.block[j] ≠ s.ctl.log.slot t :=
          Log.home_ne_slot (by omega) (hinv.home _ (List.getElem_mem hj))
        rw [Function.update_of_ne hhome]
        by_cases hjt' : j = t
        · subst hjt'
          simp only [Function.update_self]
        · have hsl : s.ctl.log.slot j ≠ s.ctl.log.slot t := by simp only [Log.slot]; omega
          rw [Function.update_of_ne hsl]
          exact hcopied j hj (by omega)
    · have hclean' : headOf (Function.update s.disk (s.ctl.log.slot t)
          (s.mem s.ctl.log.lh.block[t]) s.ctl.log.start) = .empty := by
        rw [Function.update_of_ne hstart]
        exact hclean
      simp only [abs, hwas, hnow, committedPhase]
      rw [installed_eq_of_clean hclean', installed_eq_of_clean hclean,
        homePart_update_of_not_home hns, homePart_update_of_not_home hns]
  · -- the loop ends: on to `write_head`
    rw [if_neg ht] at hctl' ⊢
    rw [List.getElem?_eq_none (by simp only [LogHeader.n] at ht; omega)]
    have hnow : phaseOf (s.ctl.ops.set i (.commit .writeHead)) = some .writeHead :=
      phaseOf_set_commit hinv.ctl hph
    refine ⟨⟨hctl', hinv.home, hinv.coh, ?_⟩, ?_⟩
    · dsimp only
      rw [hnow]
      exact ⟨hclean, hinst, fun j hj _ => hcopied j hj (by omega)⟩
    · simp only [abs, hwas, hnow, committedPhase]

/-- The first `write_head` of `commit()`: the commit point, where the
whole transaction becomes durable at once. -/
theorem writeHead_refines (hinv : Inv s)
    (hph : s.ctl.ops[i]? = some (.commit .writeHead))
    (h : s.step (.commit i) v = .next s') : Inv s' ∧ abs s' = (abs s).commit := by
  have hctl' := hinv.ctl.step (Sys.step_ctl h)
  have hwas : phaseOf s.ctl.ops = some .writeHead :=
    phaseOf_of_getElem? hinv.ctl.oneCommit hph
  have hdata := hinv.data
  rw [hwas] at hdata
  obtain ⟨hclean, hinst, hcopied⟩ := hdata
  have hpos : 0 < s.ctl.log.lh.n := hinv.ctl.phase i _ hph
  have hcap := hinv.ctl.cap
  have hsize : 0 < s.ctl.log.size := by omega
  rw [commit_step_eq h hph] at hctl' ⊢
  simp only [commitCtl, Sys.commitData] at hctl' ⊢
  have hnow : phaseOf (s.ctl.ops.set i (.commit (.install 0))) = some (.install 0) :=
    phaseOf_set_commit hinv.ctl hph
  -- the header block now holds the in-memory header
  have hhead : headOf (putHead (s.mem s.ctl.log.start) s.ctl.log.lh) = s.ctl.log.lh :=
    headOf_putHead _ (by simp only [LOGSIZE, MAXOPBLOCKS] at hcap; omega)
      fun x hx => (hinv.home x hx).1
  have hcommitted : headOf (Function.update s.disk s.ctl.log.start
      (putHead (s.mem s.ctl.log.start) s.ctl.log.lh) s.ctl.log.start) = s.ctl.log.lh := by
    rw [Function.update_self, hhead]
  have hns : ¬ (Log.init s.ctl.log.start s.ctl.log.size).home s.ctl.log.start :=
    fun hh => hh.2 (Log.start_inLog hsize)
  refine ⟨⟨hctl', hinv.home, ?_, ?_⟩, ?_⟩
  · dsimp only
    intro b hb
    by_cases hbs : b = s.ctl.log.start
    · subst hbs
      simp only [Function.update_self]
    · simp only [Function.update_of_ne hbs]
      exact hinv.coh b hb
  · dsimp only
    rw [hnow]
    refine ⟨hcommitted, ?_, ?_⟩
    · intro j hj _
      have hhome := hinv.home _ (List.getElem_mem hj)
      have hsl : s.ctl.log.slot j ≠ s.ctl.log.start := by simp only [Log.slot]; omega
      rw [Function.update_of_ne hsl, Function.update_of_ne (Log.home_ne_start hsize hhome)]
      exact hcopied j hj hj
    · intro b hb hbn
      have hne := Log.home_ne_start hsize hb
      simp only [Function.update_of_ne hne]
      exact hinst b hb hbn
  · simp only [abs, hwas, hnow, committedPhase, TxnStore.commit, if_true, Bool.false_eq_true,
      if_false]
    rw [homePart_update_of_not_home hns]
    congr 1
    funext b
    simp only [homePart]
    split
    · next hb =>
        have hb' : s.ctl.log.home b := hb
        by_cases hmem : b ∈ s.ctl.log.lh.block
        · -- a block of the transaction: recovery reads its log copy, the cached value
          obtain ⟨j, hj, rfl⟩ := List.getElem_of_mem hmem
          rw [if_pos hmem, installed_getElem_of_head hcommitted hinv.ctl.nodup hj]
          have hsl : s.ctl.log.start + j + 1 ≠ s.ctl.log.start := by omega
          rw [Function.update_of_ne hsl]
          exact hcopied j hj hj
        · -- any other home block: on disk already, and not in the header
          rw [if_neg hmem, installed_of_not_mem (by rw [hcommitted]; exact hmem),
            installed_of_clean hclean, Function.update_of_ne (Log.home_ne_start hsize hb')]
    · exact (ite_self _).symm

/-- `install_trans(0)` copies entry `t`'s log block home: the cache
already holds that value, and recovery would have produced it. -/
theorem install_refines (hinv : Inv s) {t : Nat}
    (hph : s.ctl.ops[i]? = some (.commit (.install t)))
    (h : s.step (.commit i) v = .next s') : Inv s' ∧ abs s' = abs s := by
  have hctl' := hinv.ctl.step (Sys.step_ctl h)
  have hwas : phaseOf s.ctl.ops = some (.install t) :=
    phaseOf_of_getElem? hinv.ctl.oneCommit hph
  have hdata := hinv.data
  rw [hwas] at hdata
  obtain ⟨hcommitted, hcopied, hinst⟩ := hdata
  obtain ⟨hpos, htn⟩ := hinv.ctl.phase i _ hph
  have hcap := hinv.ctl.cap
  have hsize : 0 < s.ctl.log.size := by omega
  rw [commit_step_eq h hph] at hctl' ⊢
  simp only [commitCtl, Sys.commitData] at hctl' ⊢
  by_cases ht : t < s.ctl.log.lh.n
  · have htb : t < s.ctl.log.lh.block.length := ht
    rw [if_pos ht] at hctl' ⊢
    rw [List.getElem?_eq_getElem htb]
    simp only
    have hnow : phaseOf (s.ctl.ops.set i (.commit (.install (t + 1)))) = some (.install (t + 1)) :=
      phaseOf_set_commit hinv.ctl hph
    have hhome := hinv.home _ (List.getElem_mem htb)
    -- the log block holds the cached value of its home block
    have hval : s.mem (s.ctl.log.slot t) = s.mem s.ctl.log.lh.block[t] := by
      rw [hinv.coh _ (Log.slot_inLog (by omega))]
      exact hcopied t htb ht
    rw [hval, Function.update_eq_self]
    have hstart : s.ctl.log.lh.block[t] ≠ s.ctl.log.start := Log.home_ne_start hsize hhome
    refine ⟨⟨hctl', hinv.home, ?_, ?_⟩, ?_⟩
    · dsimp only
      intro b hb
      have hne : b ≠ s.ctl.log.lh.block[t] := fun e => hhome.2 (e ▸ hb)
      rw [Function.update_of_ne hne]
      exact hinv.coh b hb
    · dsimp only
      rw [hnow]
      refine ⟨?_, ?_, ?_⟩
      · show headOf (Function.update s.disk _ _ s.ctl.log.start) = _
        rw [Function.update_of_ne hstart.symm]
        exact hcommitted
      · intro j hj hjn
        have hsl : s.ctl.log.slot j ≠ s.ctl.log.lh.block[t] :=
          (Log.home_ne_slot (by omega) hhome).symm
        rw [Function.update_of_ne hsl]
        exact hcopied j hj hjn
      · intro b hb hbn
        by_cases hbt : b = s.ctl.log.lh.block[t]
        · subst hbt
          rw [Function.update_self]
        · rw [Function.update_of_ne hbt]
          refine hinst b hb fun hmem => hbn ?_
          rw [List.drop_eq_getElem_cons htb] at hmem
          exact (List.mem_cons.mp hmem).resolve_left hbt
    · simp only [abs, hwas, hnow, committedPhase, if_true]
      rw [installed_update_of_mem _ (by rw [hcommitted]; exact List.getElem_mem htb) hstart
        fun j hj => by
          have := Log.home_ne_slot (l := s.ctl.log) (j := j)
            (by rw [hcommitted] at hj; simp only [LogHeader.n] at hcap; omega) hhome
          simpa only [Log.slot] using this]
  · rw [if_neg ht] at hctl' ⊢
    rw [List.getElem?_eq_none (by simp only [LogHeader.n] at ht; omega)]
    have hnow : phaseOf (s.ctl.ops.set i (.commit .clear)) = some .clear :=
      phaseOf_set_commit hinv.ctl hph
    have htn' : t = s.ctl.log.lh.n := by omega
    refine ⟨⟨hctl', hinv.home, hinv.coh, ?_⟩, ?_⟩
    · dsimp only
      rw [hnow]
      exact ⟨hcommitted, hcopied, htn' ▸ hinst⟩
    · simp only [abs, hwas, hnow, committedPhase]

/-- The clearing `write_head`: every entry is home, so emptying the
header changes nothing recovery would produce. -/
theorem clear_refines (hinv : Inv s)
    (hph : s.ctl.ops[i]? = some (.commit .clear))
    (h : s.step (.commit i) v = .next s') : Inv s' ∧ abs s' = abs s := by
  have hctl' := hinv.ctl.step (Sys.step_ctl h)
  have hwas : phaseOf s.ctl.ops = some .clear :=
    phaseOf_of_getElem? hinv.ctl.oneCommit hph
  have hdata := hinv.data
  rw [hwas] at hdata
  obtain ⟨hcommitted, hcopied, hinst⟩ := hdata
  have hpos : 0 < s.ctl.log.lh.n := hinv.ctl.phase i _ hph
  have hcap := hinv.ctl.cap
  have hsize : 0 < s.ctl.log.size := by omega
  rw [commit_step_eq h hph] at hctl' ⊢
  simp only [commitCtl, Sys.commitData] at hctl' ⊢
  have hnow : phaseOf (s.ctl.ops.set i (.commit .done)) = some .done :=
    phaseOf_set_commit hinv.ctl hph
  have hclean : headOf (putHead (s.mem s.ctl.log.start) .empty) = .empty :=
    headOf_putHead _ (by simp [LogHeader.n, LogHeader.empty]) (by simp [LogHeader.empty])
  have hclean' : headOf (Function.update s.disk s.ctl.log.start
      (putHead (s.mem s.ctl.log.start) .empty) s.ctl.log.start) = .empty := by
    rw [Function.update_self, hclean]
  have hns : ¬ (Log.init s.ctl.log.start s.ctl.log.size).home s.ctl.log.start :=
    fun hh => hh.2 (Log.start_inLog hsize)
  -- every home block is on disk
  have hall : ∀ b, s.ctl.log.home b → s.mem b = s.disk b := fun b hb =>
    hinst b hb (by simp [LogHeader.n])
  refine ⟨⟨hctl', by simp [LogHeader.empty], ?_, ?_⟩, ?_⟩
  · dsimp only
    intro b hb
    by_cases hbs : b = s.ctl.log.start
    · subst hbs
      simp only [Function.update_self]
    · simp only [Function.update_of_ne hbs]
      exact hinv.coh b hb
  · dsimp only
    rw [hnow]
    refine ⟨hclean', fun b hb _ => ?_⟩
    have hne := Log.home_ne_start hsize hb
    simp only [Function.update_of_ne hne]
    exact hall b hb
  · -- every home block already holds its log copy: recovery would produce the disk
    have hhomed : ∀ j (hj : j < s.ctl.log.lh.block.length),
        s.disk s.ctl.log.lh.block[j] = s.disk (s.ctl.log.start + j + 1) := fun j hj => by
      rw [← hall _ (hinv.home _ (List.getElem_mem hj)), ← hcopied j hj hj]
      rfl
    simp only [abs, hwas, hnow, committedPhase, if_true]
    rw [installed_eq_of_clean hclean', installed_eq_self hcommitted hinv.ctl.nodup hhomed]
    simp only [homePart_update_of_not_home hns]

/-- `end_op` after `commit()`: `committing` drops, no data moves. -/
theorem done_refines (hinv : Inv s)
    (hph : s.ctl.ops[i]? = some (.commit .done))
    (h : s.step (.commit i) v = .next s') : Inv s' ∧ abs s' = abs s := by
  have hctl' := hinv.ctl.step (Sys.step_ctl h)
  have hwas : phaseOf s.ctl.ops = some .done :=
    phaseOf_of_getElem? hinv.ctl.oneCommit hph
  have hdata := hinv.data
  rw [hwas] at hdata
  have hn0 : s.ctl.log.lh.n = 0 := hinv.ctl.phase i _ hph
  have hnil : s.ctl.log.lh.block = [] := List.eq_nil_of_length_eq_zero hn0
  rw [commit_step_eq h hph] at hctl' ⊢
  simp only [commitCtl, Sys.commitData] at hctl' ⊢
  have hnow : phaseOf (s.ctl.ops.set i .idle) = none := by
    apply (phaseOf_eq_none_iff _).mpr
    have hcm := countP_set_of_getElem? (q := .idle) Pc.isCommit hph
    simp only [Pc.isCommit_commit, Pc.isCommit_idle, if_true, Bool.false_eq_true,
      if_false] at hcm
    have := hinv.ctl.oneCommit
    omega
  refine ⟨⟨hctl', hinv.home, hinv.coh, ?_⟩, ?_⟩
  · dsimp only
    rw [hnow]
    exact hdata
  · simp only [abs, hwas, hnow, committedPhase, hnil, ite_self]

/-- The phases of `commit()` stutter, except the header write, which
commits the store. -/
theorem commit_refines (hinv : Inv s) (h : s.step (.commit i) v = .next s') :
    Inv s' ∧ Relation.ReflGen TxnStore.Step (abs s) (abs s') := by
  obtain ⟨ph, hph, _⟩ := Sys.step_commit_eq h
  cases ph with
  | writeLog t =>
      obtain ⟨hinv', habs⟩ := writeLog_refines hinv hph h
      rw [habs]
      exact ⟨hinv', .refl⟩
  | writeHead =>
      obtain ⟨hinv', habs⟩ := writeHead_refines hinv hph h
      rw [habs]
      exact ⟨hinv', .single (.commit _)⟩
  | install t =>
      obtain ⟨hinv', habs⟩ := install_refines hinv hph h
      rw [habs]
      exact ⟨hinv', .refl⟩
  | clear =>
      obtain ⟨hinv', habs⟩ := clear_refines hinv hph h
      rw [habs]
      exact ⟨hinv', .refl⟩
  | done =>
      obtain ⟨hinv', habs⟩ := done_refines hinv hph h
      rw [habs]
      exact ⟨hinv', .refl⟩

end Steps

-- ======================================================= whole runs

/-- The running log refines the atomic store: every step is a
stutter, a write of the store, or its commit. -/
theorem homeStep_sim : Relation.StutterSim HomeStep TxnStore.Step Inv abs := by
  rintro s s' hinv ⟨a, v, hhome, h⟩
  cases a with
  | beginOp i =>
      obtain ⟨hinv', habs⟩ := beginOp_refines hinv h
      rw [habs]
      exact ⟨hinv', .refl⟩
  | write i b =>
      obtain ⟨hinv', habs⟩ := write_refines hinv (hhome i b rfl) h
      rw [habs]
      exact ⟨hinv', .single (.write _ _ _)⟩
  | endOp i =>
      obtain ⟨hinv', habs⟩ := endOp_refines hinv h
      rw [habs]
      exact ⟨hinv', .refl⟩
  | commit i => exact commit_refines hinv h

/-- A clean boot is a fresh store of the boot disk's home blocks. -/
theorem abs_boot {d : Disk} {start size k : Nat} (hc : headOf (d start) = .empty) :
    abs (Sys.boot d start size k) = TxnStore.fresh (homePart start size d) := by
  have hnone := phaseOf_boot d start size k
  simp only [abs, hnone, committedPhase, Bool.false_eq_true, if_false]
  simp only [Sys.boot, LogSys.boot, Log.init, LogHeader.empty_block, installed_eq_of_clean hc]
  rfl

/-- No step moves the log. -/
theorem reach_start_size {s s' : Sys} (h : Relation.ReflTransGen HomeStep s s') :
    s'.ctl.log.start = s.ctl.log.start ∧ s'.ctl.log.size = s.ctl.log.size := by
  induction h with
  | refl => exact ⟨rfl, rfl⟩
  | tail _ hstep ih =>
      obtain ⟨a, v, -, h⟩ := hstep
      obtain ⟨hstart, hsize⟩ := LogSys.step_start_size (Sys.step_ctl h)
      exact ⟨hstart.trans ih.1, hsize.trans ih.2⟩

/-- The run lemma: from a clean boot, every reachable state keeps the
invariant, and the store it implements is reached from the boot
disk by writes and commits. -/
theorem reach_refines {d : Disk} {start size k : Nat} {s : Sys}
    (hc : headOf (d start) = .empty)
    (h : Relation.ReflTransGen HomeStep (Sys.boot d start size k) s) :
    Inv s ∧ Relation.ReflTransGen TxnStore.Step (TxnStore.fresh (homePart start size d)) (abs s) := by
  have hrun := homeStep_sim.reach (inv_boot hc) h
  rwa [abs_boot hc] at hrun

end Xv6
