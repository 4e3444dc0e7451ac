import Xv6.Log.System
import Mathlib.Logic.Relation

/-!
The control invariant of the log protocol, over every interleaving of
`begin_op`, `log_write`, `end_op` and the steps of `commit()`.

# The invariant

`CtlInv` ties `struct log` to the threads:

- `outstanding` counts the threads between `begin_op` and `end_op`;
- `committing` is set exactly while one thread is inside `commit()`,
  and at most one ever is;
- while a thread commits, no thread is inside an operation — the fact
  behind all of claim (a): `end_op`'s panic needs a thread in an
  operation during a commit, and `commit()` needs `outstanding = 0`;
- the header has no duplicate entry (absorption) and never outgrows
  `log.size - 1` nor `LOGSIZE` (the `log_write` check);
- the committing thread's phase is in range of the header.

The step lemma is proved once per action from the inversion lemmas of
`System.lean`; the thread counts move through `List.countP_set`.
-/

namespace Xv6

namespace Pc

/-- Between `begin_op` and `end_op`. -/
def isInOp : Pc → Bool
  | .inOp _ => true
  | _ => false

/-- Inside `commit()`. -/
def isCommit : Pc → Bool
  | .commit _ => true
  | _ => false

/-- The commit phase of a committing thread. -/
def phase? : Pc → Option Phase
  | .commit ph => some ph
  | _ => none

@[simp] theorem isInOp_inOp (w : List Nat) : (Pc.inOp w).isInOp = true := rfl
@[simp] theorem isInOp_idle : Pc.idle.isInOp = false := rfl
@[simp] theorem isInOp_commit (ph : Phase) : (Pc.commit ph).isInOp = false := rfl
@[simp] theorem isCommit_inOp (w : List Nat) : (Pc.inOp w).isCommit = false := rfl
@[simp] theorem isCommit_idle : Pc.idle.isCommit = false := rfl
@[simp] theorem isCommit_commit (ph : Phase) : (Pc.commit ph).isCommit = true := rfl

theorem phase?_eq_none_iff (p : Pc) : p.phase? = none ↔ p.isCommit = false := by
  cases p <;> simp [phase?, isCommit]

end Pc

/-- The phase of the thread inside `commit()`, if one is. -/
def phaseOf (ops : List Pc) : Option Phase := ops.findSome? Pc.phase?

/-- No thread commits exactly when `phaseOf` finds none. -/
theorem phaseOf_eq_none_iff (ops : List Pc) :
    phaseOf ops = none ↔ ops.countP Pc.isCommit = 0 := by
  simp only [phaseOf, List.findSome?_eq_none_iff, List.countP_eq_zero, Pc.phase?_eq_none_iff,
    Bool.not_eq_true]

/-- With at most one committing thread, `phaseOf` is its phase. -/
theorem phaseOf_of_getElem? {ops : List Pc} {i : Nat} {ph : Phase}
    (h1 : ops.countP Pc.isCommit ≤ 1) (hi : ops[i]? = some (.commit ph)) :
    phaseOf ops = some ph := by
  induction ops generalizing i with
  | nil => simp at hi
  | cons p ps ih =>
      cases i with
      | zero =>
          simp only [List.getElem?_cons_zero, Option.some.injEq] at hi
          subst hi
          rfl
      | succ j =>
          simp only [List.getElem?_cons_succ] at hi
          have hpos : 0 < ps.countP Pc.isCommit :=
            List.countP_pos_iff.mpr ⟨_, List.mem_of_getElem? hi, rfl⟩
          have hcons := h1
          rw [List.countP_cons] at hcons
          have hp : p.isCommit = false := by
            cases hp : p.isCommit with
            | false => rfl
            | true =>
                rw [hp, if_pos rfl] at hcons
                omega
          have hp' : p.phase? = none := (Pc.phase?_eq_none_iff p).mpr hp
          rw [phaseOf, List.findSome?_cons, hp']
          exact ih (by rw [List.countP_cons, hp] at h1; simpa using h1) hi

/-- A thread's pc is a member of the list. -/
theorem lt_length_of_getElem? {ops : List Pc} {i : Nat} {p : Pc} (h : ops[i]? = some p) :
    i < ops.length := by
  by_contra hn
  rw [List.getElem?_eq_none (by omega)] at h
  cases h

/-- The count of a predicate after replacing thread `i`'s pc. -/
theorem countP_set_of_getElem? {ops : List Pc} {i : Nat} {p q : Pc} (f : Pc → Bool)
    (h : ops[i]? = some p) :
    (ops.set i q).countP f = ops.countP f - (if f p then 1 else 0) + (if f q then 1 else 0) := by
  obtain ⟨hi, hget⟩ := List.getElem?_eq_some_iff.mp h
  rw [List.countP_set hi, hget]

/-- A thread in state `p` is counted. -/
theorem countP_pos_of_getElem? {ops : List Pc} {i : Nat} {p : Pc} {f : Pc → Bool}
    (h : ops[i]? = some p) (hp : f p = true) : 0 < ops.countP f :=
  List.countP_pos_iff.mpr ⟨p, List.mem_of_getElem? h, hp⟩

/-- Thread `j`'s pc after thread `i`'s is replaced. -/
theorem getElem?_set_of_getElem? {ops : List Pc} {i j : Nat} {p q : Pc}
    (h : ops[i]? = some p) : (ops.set i q)[j]? = if i = j then some q else ops[j]? := by
  rw [List.getElem?_set, if_pos (lt_length_of_getElem? h)]

/-- With at most one committing thread, two committing threads are
the same thread. -/
theorem commit_unique {ops : List Pc} {i j : Nat} {ph ph' : Phase}
    (h1 : ops.countP Pc.isCommit ≤ 1) (hi : ops[i]? = some (.commit ph))
    (hj : ops[j]? = some (.commit ph')) : i = j := by
  by_contra hne
  have hset := countP_set_of_getElem? (q := .idle) Pc.isCommit hi
  have hj' : (ops.set i .idle)[j]? = some (.commit ph') := by
    rw [List.getElem?_set_ne hne]
    exact hj
  have hpos := countP_pos_of_getElem? (f := Pc.isCommit) hj' rfl
  simp only [Pc.isCommit_commit, Pc.isCommit_idle, if_true, Bool.false_eq_true,
    if_false] at hset
  omega

-- ====================================================== the invariant

/-- The committing thread's phase is in range of the header; every
phase before `done` has a non-empty header, as `commit()` is entered
only when `log.lh.n > 0`. -/
def PhaseOk (l : Log) : Phase → Prop
  | .writeLog tail => 0 < l.lh.n ∧ tail ≤ l.lh.n
  | .writeHead => 0 < l.lh.n
  | .install tail => 0 < l.lh.n ∧ tail ≤ l.lh.n
  | .clear => 0 < l.lh.n
  | .done => l.lh.n = 0

/-- The control invariant. -/
structure CtlInv (s : LogSys) : Prop where
  /-- `outstanding` counts the operations in progress. -/
  out : s.log.outstanding = (s.ops.countP Pc.isInOp : Int)
  /-- At most one thread commits. -/
  oneCommit : s.ops.countP Pc.isCommit ≤ 1
  /-- `committing` is set exactly while a thread commits. -/
  committing : s.log.committing = true ↔ s.ops.countP Pc.isCommit = 1
  /-- A commit runs alone. -/
  alone : s.ops.countP Pc.isCommit = 1 → s.ops.countP Pc.isInOp = 0
  /-- Absorption keeps the header free of duplicates. -/
  nodup : s.log.lh.block.Nodup
  /-- The header fits the on-disk log and the in-memory array. -/
  cap : s.log.lh.n ≤ s.log.size - 1 ∧ s.log.lh.n ≤ LOGSIZE
  /-- The committing thread's phase is in range. -/
  phase : ∀ (i : Nat) (ph : Phase), s.ops[i]? = some (Pc.commit ph) → PhaseOk s.log ph

theorem ctlInv_boot (start size k : Nat) : CtlInv (LogSys.boot start size k) where
  out := by simp [LogSys.boot, Log.init, List.countP_replicate]
  oneCommit := by simp [LogSys.boot, List.countP_replicate]
  committing := by simp [LogSys.boot, Log.init, List.countP_replicate]
  alone := by simp [LogSys.boot, List.countP_replicate]
  nodup := by simp [LogSys.boot, Log.init, LogHeader.empty]
  cap := by simp [LogSys.boot, Log.init, LogHeader.empty, LogHeader.n]
  phase := by
    intro i ph h
    simp only [LogSys.boot, List.getElem?_replicate] at h
    split at h <;> cases h

namespace CtlInv

variable {s s' : LogSys} {i : Nat}

/-- No commit runs while `committing` is clear. -/
theorem noCommit (hi : CtlInv s) (hc : s.log.committing = false) :
    s.ops.countP Pc.isCommit = 0 := by
  have h1 := hi.oneCommit
  have h2 : s.ops.countP Pc.isCommit ≠ 1 := fun h => by simp [hi.committing.mpr h] at hc
  omega

/-- A thread inside an operation sees no commit running. -/
theorem noCommit_of_inOp (hi : CtlInv s) {w : List Nat} (hw : s.ops[i]? = some (.inOp w)) :
    s.ops.countP Pc.isCommit = 0 ∧ s.log.committing = false := by
  have hpos := countP_pos_of_getElem? (f := Pc.isInOp) hw rfl
  have h1 := hi.oneCommit
  have h2 : s.ops.countP Pc.isCommit ≠ 1 := fun h => by have := hi.alone h; omega
  have h0 : s.ops.countP Pc.isCommit = 0 := by omega
  refine ⟨h0, ?_⟩
  cases hc : s.log.committing with
  | false => rfl
  | true => have := hi.committing.mp hc; omega

/-- A committing thread is the only one, and `committing` is set. -/
theorem commit_alone (hi : CtlInv s) {ph : Phase} (hph : s.ops[i]? = some (.commit ph)) :
    s.ops.countP Pc.isCommit = 1 ∧ s.ops.countP Pc.isInOp = 0 ∧ s.log.committing = true := by
  have hpos := countP_pos_of_getElem? (f := Pc.isCommit) hph rfl
  have h1 : s.ops.countP Pc.isCommit = 1 := by have := hi.oneCommit; omega
  exact ⟨h1, hi.alone h1, hi.committing.mpr h1⟩

theorem beginOp_step (hi : CtlInv s) (h : s.step (.beginOp i) = .next s') : CtlInv s' := by
  obtain ⟨hidle, l, hl, rfl⟩ := LogSys.step_beginOp h
  obtain ⟨hc, -, rfl⟩ := beginOp_eq_some hl
  have h0 := hi.noCommit hc
  have hin := countP_set_of_getElem? (q := .inOp []) Pc.isInOp hidle
  have hcm := countP_set_of_getElem? (q := .inOp []) Pc.isCommit hidle
  simp only [Pc.isInOp_idle, Pc.isInOp_inOp, Pc.isCommit_idle, Pc.isCommit_inOp,
    if_false, if_true, Bool.false_eq_true] at hin hcm
  refine ⟨?_, ?_, ?_, ?_, hi.nodup, hi.cap, ?_⟩ <;> dsimp only
  · simp only [hin, hi.out]
    push_cast
    omega
  · omega
  · simp only [hc, Bool.false_eq_true, false_iff]
    omega
  · omega
  · intro j ph hj
    rw [getElem?_set_of_getElem? hidle] at hj
    split at hj
    · cases hj
    · exact hi.phase j ph hj

theorem write_step {b : Nat} (hi : CtlInv s) (h : s.step (.write i b) = .next s') :
    CtlInv s' := by
  obtain ⟨w, l, added, hw, hl, rfl⟩ := LogSys.step_write h
  obtain ⟨hn1, hn2, -, -, rfl⟩ := logWrite_eq_ok hl
  obtain ⟨h0, hc⟩ := hi.noCommit_of_inOp hw
  have hin := countP_set_of_getElem? (q := .inOp (b :: w)) Pc.isInOp hw
  have hcm := countP_set_of_getElem? (q := .inOp (b :: w)) Pc.isCommit hw
  simp only [Pc.isInOp_inOp, Pc.isCommit_inOp, if_false, if_true, Bool.false_eq_true] at hin hcm
  have hcount := countP_pos_of_getElem? (f := Pc.isInOp) hw rfl
  refine ⟨?_, ?_, ?_, ?_, ?_, ?_, ?_⟩ <;> dsimp only
  · simp only [hin, hi.out]
    omega
  · omega
  · simp only [hc, Bool.false_eq_true, false_iff]
    omega
  · omega
  · show (if b ∈ s.log.lh.block then s.log.lh.block else s.log.lh.block ++ [b]).Nodup
    split
    · exact hi.nodup
    · next hb => exact List.nodup_append.mpr ⟨hi.nodup, by simp,
        fun x hx y hy => by simp at hy; subst hy; exact fun e => hb (e ▸ hx)⟩
  · show (if b ∈ s.log.lh.block then s.log.lh.block else s.log.lh.block ++ [b]).length
        ≤ s.log.size - 1 ∧
      (if b ∈ s.log.lh.block then s.log.lh.block else s.log.lh.block ++ [b]).length ≤ LOGSIZE
    simp only [LogHeader.n] at hn1 hn2
    split
    · exact ⟨by omega, by omega⟩
    · simp only [List.length_append, List.length_singleton]
      omega
  · intro j ph hj
    rw [getElem?_set_of_getElem? hw] at hj
    split at hj
    · cases hj
    · have := hi.noCommit_of_inOp hw
      have hpos := countP_pos_of_getElem? (f := Pc.isCommit) hj rfl
      omega

theorem endOp_step (hi : CtlInv s) (h : s.step (.endOp i) = .next s') : CtlInv s' := by
  obtain ⟨w, l, c, hw, hl, rfl⟩ := LogSys.step_endOp h
  obtain ⟨hc0, hciff, rfl⟩ := endOp_eq_ok hl
  obtain ⟨h0, -⟩ := hi.noCommit_of_inOp hw
  have hpos := countP_pos_of_getElem? (f := Pc.isInOp) hw rfl
  have hout := hi.out
  cases c with
  | true =>
      have hone : s.log.outstanding = 1 := hciff.mp rfl
      set l' : Log := { s.log with outstanding := s.log.outstanding - 1, committing := true }
      have hin := countP_set_of_getElem? (q := .commit (commitEntry l')) Pc.isInOp hw
      have hcm := countP_set_of_getElem? (q := .commit (commitEntry l')) Pc.isCommit hw
      simp only [Pc.isInOp_inOp, Pc.isCommit_inOp, Pc.isInOp_commit, Pc.isCommit_commit,
        if_false, if_true, Bool.false_eq_true] at hin hcm
      refine ⟨?_, ?_, ?_, ?_, hi.nodup, hi.cap, ?_⟩ <;> simp only [if_true]
      · simp only [hin, l']
        omega
      · omega
      · exact ⟨fun _ => by omega, fun _ => rfl⟩
      · intro _
        omega
      · intro j ph hj
        rw [getElem?_set_of_getElem? hw] at hj
        split at hj
        · cases hj
          simp only [commitEntry]
          split
          · next hn => exact ⟨hn, Nat.zero_le _⟩
          · show l'.lh.n = 0
            omega
        · have := countP_pos_of_getElem? (f := Pc.isCommit) hj rfl
          omega
  | false =>
      have hin := countP_set_of_getElem? (q := .idle) Pc.isInOp hw
      have hcm := countP_set_of_getElem? (q := .idle) Pc.isCommit hw
      simp only [Pc.isInOp_inOp, Pc.isCommit_inOp, Pc.isInOp_idle, Pc.isCommit_idle,
        if_false, if_true, Bool.false_eq_true] at hin hcm
      refine ⟨?_, ?_, ?_, ?_, hi.nodup, hi.cap, ?_⟩ <;> simp only [Bool.false_eq_true, if_false]
      · rw [hin, hout]
        push_cast
        omega
      · omega
      · simp only [false_iff]
        omega
      · intro _
        omega
      · intro j ph hj
        rw [getElem?_set_of_getElem? hw] at hj
        split at hj
        · cases hj
        · have := countP_pos_of_getElem? (f := Pc.isCommit) hj rfl
          omega

theorem commit_step (hi : CtlInv s) (h : s.step (.commit i) = .next s') : CtlInv s' := by
  obtain ⟨ph, hph, rfl⟩ := LogSys.step_commit h
  obtain ⟨h1, h0, hc⟩ := hi.commit_alone hph
  have hok := hi.phase i ph hph
  -- any other committing thread is thread `i`
  have huniq : ∀ j ph', s.ops[j]? = some (.commit ph') → j = i :=
    fun j ph' hj => (commit_unique hi.oneCommit hph hj).symm
  -- a commit step that stays inside `commit()` keeps every count
  have hstay : ∀ ph', PhaseOk s.log ph' →
      CtlInv ⟨s.log, s.ops.set i (.commit ph')⟩ := by
    intro ph' hok'
    have hin := countP_set_of_getElem? (q := .commit ph') Pc.isInOp hph
    have hcm := countP_set_of_getElem? (q := .commit ph') Pc.isCommit hph
    simp only [Pc.isInOp_commit, Pc.isCommit_commit, if_false, if_true,
      Bool.false_eq_true] at hin hcm
    refine ⟨?_, ?_, ?_, ?_, hi.nodup, hi.cap, ?_⟩ <;> dsimp only
    · rw [hin, hi.out]
      omega
    · omega
    · rw [hc]
      simp only [true_iff]
      omega
    · intro _
      omega
    · intro j ph'' hj
      rw [getElem?_set_of_getElem? hph] at hj
      split at hj
      · cases hj
        exact hok'
      · next hne => exact absurd (huniq j ph'' hj).symm hne
  cases ph with
  | writeLog t =>
      apply hstay
      split
      · next ht => exact ⟨hok.1, Nat.succ_le_of_lt ht⟩
      · exact hok.1
  | writeHead => exact hstay _ ⟨hok, Nat.zero_le _⟩
  | install t =>
      apply hstay
      split
      · next ht => exact ⟨hok.1, Nat.succ_le_of_lt ht⟩
      · exact hok.1
  | clear =>
      have hin := countP_set_of_getElem? (q := .commit .done) Pc.isInOp hph
      have hcm := countP_set_of_getElem? (q := .commit .done) Pc.isCommit hph
      simp only [Pc.isInOp_commit, Pc.isCommit_commit, if_false, if_true,
        Bool.false_eq_true] at hin hcm
      refine ⟨?_, ?_, ?_, ?_, ?_, ?_, ?_⟩ <;> dsimp only [commitCtl]
      · rw [hin, hi.out]
        omega
      · omega
      · rw [hc]
        simp only [true_iff]
        omega
      · intro _
        omega
      · exact List.nodup_nil
      · simp [LogHeader.n, LogHeader.empty]
      · intro j ph'' hj
        rw [getElem?_set_of_getElem? hph] at hj
        split at hj
        · cases hj
          rfl
        · next hne => exact absurd (huniq j ph'' hj).symm hne
  | done =>
      have hin := countP_set_of_getElem? (q := .idle) Pc.isInOp hph
      have hcm := countP_set_of_getElem? (q := .idle) Pc.isCommit hph
      simp only [Pc.isInOp_commit, Pc.isCommit_commit, Pc.isInOp_idle, Pc.isCommit_idle,
        if_false, if_true, Bool.false_eq_true] at hin hcm
      refine ⟨?_, ?_, ?_, ?_, hi.nodup, hi.cap, ?_⟩ <;> dsimp only [commitCtl]
      · rw [hin, hi.out]
        omega
      · omega
      · simp only [Bool.false_eq_true, false_iff]
        omega
      · intro _
        omega
      · intro j ph'' hj
        rw [getElem?_set_of_getElem? hph] at hj
        split at hj
        · cases hj
        · next hne => exact absurd (huniq j ph'' hj).symm hne

/-- Every step keeps the control invariant. -/
theorem step (hi : CtlInv s) {a : Act} (h : s.step a = .next s') : CtlInv s' := by
  cases a with
  | beginOp j => exact hi.beginOp_step h
  | write j b => exact hi.write_step h
  | endOp j => exact hi.endOp_step h
  | commit j => exact hi.commit_step h

end CtlInv

/-- No step moves the log: `log.start` and `log.size` are fixed at
`initlog`. -/
theorem LogSys.step_start_size {s s' : LogSys} {a : Act} (h : s.step a = .next s') :
    s'.log.start = s.log.start ∧ s'.log.size = s.log.size := by
  cases a with
  | beginOp j =>
      obtain ⟨-, l, hl, rfl⟩ := LogSys.step_beginOp h
      obtain ⟨-, -, rfl⟩ := beginOp_eq_some hl
      exact ⟨rfl, rfl⟩
  | write j b =>
      obtain ⟨w, l, added, -, hl, rfl⟩ := LogSys.step_write h
      obtain ⟨-, -, -, -, rfl⟩ := logWrite_eq_ok hl
      exact ⟨rfl, rfl⟩
  | endOp j =>
      obtain ⟨w, l, c, -, hl, rfl⟩ := LogSys.step_endOp h
      obtain ⟨-, -, rfl⟩ := endOp_eq_ok hl
      exact ⟨rfl, rfl⟩
  | commit j =>
      obtain ⟨ph, -, rfl⟩ := LogSys.step_commit h
      cases ph <;> exact ⟨rfl, rfl⟩

/-- The phase after the committing thread's pc becomes `commit ph'`. -/
theorem phaseOf_set_commit {s : LogSys} {i : Nat} {ph ph' : Phase}
    (hi : CtlInv s) (hph : s.ops[i]? = some (.commit ph)) :
    phaseOf (s.ops.set i (.commit ph')) = some ph' := by
  have hcm := countP_set_of_getElem? (q := .commit ph') Pc.isCommit hph
  simp only [Pc.isCommit_commit, if_true] at hcm
  have h1 := hi.oneCommit
  refine phaseOf_of_getElem? (i := i) (by omega) ?_
  rw [getElem?_set_of_getElem? hph, if_pos rfl]

-- ====================================== what the protocol guarantees

namespace CtlInv

variable {s : LogSys} {i : Nat}

/-- With no operation counted, no thread is inside one. -/
theorem not_inOp_of_count (h0 : s.ops.countP Pc.isInOp = 0) (j : Nat) (w : List Nat) :
    s.ops[j]? ≠ some (.inOp w) := fun hw => by
  have := countP_pos_of_getElem? (f := Pc.isInOp) hw rfl
  omega

/-- `commit()` runs with `outstanding = 0` and no thread inside an
operation. -/
theorem quiet_of_commit (hi : CtlInv s) {ph : Phase} (hph : s.ops[i]? = some (.commit ph)) :
    s.log.outstanding = 0 ∧ ∀ (j : Nat) (w : List Nat), s.ops[j]? ≠ some (Pc.inOp w) := by
  obtain ⟨-, h0, -⟩ := hi.commit_alone hph
  refine ⟨?_, not_inOp_of_count h0⟩
  rw [hi.out, h0]
  rfl

/-- The same, for the phase `phaseOf` reports. -/
theorem quiet_of_phaseOf (hi : CtlInv s) {ph : Phase} (hph : phaseOf s.ops = some ph) :
    ∀ (j : Nat) (w : List Nat), s.ops[j]? ≠ some (Pc.inOp w) := by
  have hne : s.ops.countP Pc.isCommit ≠ 0 := fun h0 => by
    rw [(phaseOf_eq_none_iff _).mpr h0] at hph
    cases hph
  have h1 : s.ops.countP Pc.isCommit = 1 := by
    have := hi.oneCommit
    omega
  exact not_inOp_of_count (hi.alone h1)

/-- `end_op`'s `panic("log.committing")` is unreachable: the thread
ending its operation is inside it, so no commit is running. -/
theorem endOp_ne_panic (hi : CtlInv s) (msg : String) : s.step (.endOp i) ≠ .panic msg := by
  intro h
  obtain ⟨w, hw, hc⟩ := LogSys.step_endOp_panic h
  have hfalse := (hi.noCommit_of_inOp hw).2
  rw [hc] at hfalse
  cases hfalse

end CtlInv

/-- `begin_op` does not return while `committing` is set. -/
theorem LogSys.step_beginOp_of_committing {s : LogSys} (hc : s.log.committing = true) (i : Nat) :
    s.step (.beginOp i) = .blocked := by
  simp only [LogSys.step]
  split
  · simp only [beginOp, hc, if_true]
  · rfl

end Xv6
