import Xv6.Log.System
import Mathlib.Logic.Relation

/-!
Admission control of the log: `begin_op` reserves `MAXOPBLOCKS` log
entries per admitted operation against `LOGSIZE`,

  `log.lh.n + (log.outstanding+1)*MAXOPBLOCKS > LOGSIZE` → sleep,

while `log_write` refuses the entry that would not fit in the on-disk
log,

  `log.lh.n >= LOGSIZE || log.lh.n >= log.size - 1` → panic.

`mkfs` writes `sb.nlog = LOGSIZE` and the header takes one of those
blocks, so the log holds `LOGSIZE - 1` entries while `begin_op`
reserves `LOGSIZE`. The two bounds disagree by one: three operations
of ten distinct blocks each are admitted together (`0 + 3*10 ≤ 30`),
and the thirtieth entry finds `lh.n = 29 = log.size - 1`.

The operations' side of the contract (at most `MAXOPBLOCKS` distinct
blocks between `begin_op` and `end_op`) is `withinBudget`, read off
the ghost list each thread keeps of the blocks it has written.
-/

namespace Xv6

namespace LogSys

/-- The operation's contract for one action: a write keeps its
operation at `MAXOPBLOCKS` distinct blocks or fewer. -/
def withinBudget (s : LogSys) : Act → Bool
  | .write i b =>
      match s.ops[i]? with
      | some (.inOp w) => decide ((b :: w).eraseDups.length ≤ MAXOPBLOCKS)
      | _ => true
  | _ => true

/-- A step of a run whose operations keep their budget. -/
def BudgetStep (s s' : LogSys) : Prop :=
  ∃ a, s.withinBudget a = true ∧ s.step a = .next s'

/-- Run a list of actions, each within budget; `none` at the first
action that is refused, blocked or panics. -/
def runBudget (s : LogSys) : List Act → Option LogSys
  | [] => some s
  | a :: as =>
      if s.withinBudget a then
        match s.step a with
        | .next s' => runBudget s' as
        | _ => none
      else none

/-- A run that `runBudget` completes is a run of budget steps. -/
theorem runBudget_reaches {s s' : LogSys} :
    ∀ {as : List Act}, s.runBudget as = some s' → Relation.ReflTransGen BudgetStep s s' := by
  intro as
  induction as generalizing s with
  | nil =>
      intro h
      cases h
      exact .refl
  | cons a as ih =>
      intro h
      simp only [runBudget] at h
      split at h
      case isFalse => cases h
      case isTrue hw =>
        split at h
        case h_1 s₁ hs =>
          exact Relation.ReflTransGen.head ⟨a, hw, hs⟩ (ih h)
        all_goals cases h

end LogSys

-- ================================================== the boundary case

/-- Three operations, admitted before any writes: `begin_op` for
threads 0, 1, 2. -/
def admitThree : List Act := [.beginOp 0, .beginOp 1, .beginOp 2]

/-- Thread `i` writes the ten distinct blocks `base, …, base + 9`
(home blocks of the `mkfs` layout, past its 46 metadata blocks). -/
def writeTen (i base : Nat) : List Act := (List.range 10).map fun k => .write i (base + k)

/-- Threads 0 and 1 write their ten blocks; thread 2 writes nine. -/
def fillLog : List Act :=
  admitThree ++ writeTen 0 100 ++ writeTen 1 110 ++ (writeTen 2 120).take 9

/-- The state after `fillLog`: 29 entries logged, three operations
outstanding, thread 2 with one block of budget left. -/
theorem runBudget_fillLog :
    (LogSys.boot logstart nlog 3).runBudget fillLog = some
      ⟨{ start := logstart, size := nlog, outstanding := 3, committing := false,
         lh := ⟨(List.range 29).map (100 + ·)⟩ },
       [.inOp ((List.range 10).reverse.map (100 + ·)),
        .inOp ((List.range 10).reverse.map (110 + ·)),
        .inOp ((List.range 9).reverse.map (120 + ·))]⟩ := by
  decide

/-- Every operation within its budget, and still `log_write`'s
capacity check fires: after `fillLog`, thread 2's tenth distinct
block finds `lh.n = 29 ≥ log.size - 1`. -/
theorem log_write_capacity_fires :
    ∃ s, Relation.ReflTransGen LogSys.BudgetStep (LogSys.boot logstart nlog 3) s ∧
      s.withinBudget (.write 2 129) = true ∧
      s.step (.write 2 129) = .panic "too big a transaction" :=
  ⟨_, LogSys.runBudget_reaches runBudget_fillLog, by decide, by decide⟩

end Xv6
