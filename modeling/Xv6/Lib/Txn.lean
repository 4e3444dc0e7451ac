import Mathlib.Logic.Function.Basic
import Mathlib.Logic.Relation

/-!
An atomic transactional store: the specification a write-ahead log
implements. Writes change what readers see (`view`) and join the
open transaction (`pending`); a commit makes every pending key's
current value durable at once; a crash forgets everything that is
not durable.

`Consistent` — every key outside the open transaction reads its
durable value — holds of every reachable store, so a crash rolls
the view back to exactly the state before the open transaction.
-/

/-- A key-value store with one open transaction. -/
structure TxnStore (κ β : Type*) where
  /-- What survives a crash. -/
  durable : κ → β
  /-- What a read returns now. -/
  view : κ → β
  /-- The keys written since the last commit. -/
  pending : List κ

namespace TxnStore

variable {κ β : Type*}

/-- A fresh store: nothing pending. -/
def fresh (d : κ → β) : TxnStore κ β := ⟨d, d, []⟩

/-- A crash keeps the durable values. -/
def crash (t : TxnStore κ β) : TxnStore κ β := fresh t.durable

/-- Keys outside the open transaction read their durable value. -/
def Consistent (t : TxnStore κ β) : Prop := ∀ k, k ∉ t.pending → t.view k = t.durable k

theorem consistent_fresh (d : κ → β) : (fresh d).Consistent := fun _ _ => rfl

/-- A crash of a consistent store undoes exactly the open
transaction: keys outside it keep the value readers saw. -/
theorem crash_view_of_not_pending {t : TxnStore κ β} (h : t.Consistent) {k : κ}
    (hk : k ∉ t.pending) : t.crash.view k = t.view k :=
  (h k hk).symm

variable [DecidableEq κ]

/-- A write joins the open transaction. -/
def write (t : TxnStore κ β) (k : κ) (v : β) : TxnStore κ β :=
  { t with view := Function.update t.view k v,
           pending := if k ∈ t.pending then t.pending else t.pending ++ [k] }

/-- A commit makes the pending keys' current values durable. -/
def commit (t : TxnStore κ β) : TxnStore κ β :=
  { t with durable := fun k => if k ∈ t.pending then t.view k else t.durable k,
           pending := [] }

/-- One step: a write, or a commit. -/
inductive Step : TxnStore κ β → TxnStore κ β → Prop
  | write (t : TxnStore κ β) (k : κ) (v : β) : Step t (t.write k v)
  | commit (t : TxnStore κ β) : Step t t.commit

theorem consistent_write {t : TxnStore κ β} (h : t.Consistent) (k : κ) (v : β) :
    (t.write k v).Consistent := by
  intro k' hk'
  have hne : k' ≠ k := by
    rintro rfl
    apply hk'
    simp only [write]
    split <;> simp_all
  have hk'' : k' ∉ t.pending := by
    intro hm
    apply hk'
    simp only [write]
    split <;> simp [hm]
  simp only [write, Function.update_of_ne hne]
  exact h k' hk''

theorem consistent_commit {t : TxnStore κ β} (h : t.Consistent) : t.commit.Consistent := by
  intro k _
  simp only [commit]
  split
  · rfl
  · next hk => exact h k hk

/-- Every store reachable from a fresh one is consistent. -/
theorem consistent_of_reach {d : κ → β} {t : TxnStore κ β}
    (h : Relation.ReflTransGen Step (fresh d) t) : t.Consistent := by
  induction h with
  | refl => exact consistent_fresh d
  | tail _ hst ih =>
      cases hst with
      | write k v => exact consistent_write ih k v
      | commit => exact consistent_commit ih

end TxnStore
