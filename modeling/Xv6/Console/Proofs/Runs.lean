import Xv6.Console.Proofs.Queue

/-!
What every run of the console keeps.

Between any two steps the counters stay ordered and the edit line
holds no newline (`Cons.Inv`), and every sleeping call wants no more
bytes than it asked for (`ConsSys.Inv`). From such a state the handler
is `intrSpec` and a turn whose copies succeed is `readSpec`
(`console_refines`).
-/

namespace Xv6

namespace ConsSys

/-- What holds between any two steps. -/
structure Inv (S : ConsSys) : Prop where
  cons : S.cons.Inv
  calls : ∀ p call, S.calls p = some call → call.n ≤ call.target

variable {S S' : ConsSys}

theorem inv_boot : boot.Inv where
  cons := ⟨by decide, by decide⟩
  calls _ _ h := by cases h

/-- The calls after a turn that started wanting `n ≤ target`. -/
theorem settle_le {p : Fin NPROC} {target n : Nat} {dst : Nat → Bool} {t : Cons.ReadTurn}
    (h : S.Inv) (hn : n ≤ target) (ht : ∀ m out, t = .wait m out → m ≤ n) :
    ∀ q call, S.settle p target dst t q = some call → call.n ≤ call.target := by
  intro q call hq
  cases t with
  | wait m out =>
      by_cases hqp : q = p
      · subst hqp
        simp only [settle, Function.update_self, Option.some.injEq] at hq
        subst hq
        exact Nat.le_trans (ht m out rfl) hn
      · rw [settle, Function.update_of_ne hqp] at hq
        exact h.calls q call hq
  | ret r out =>
      by_cases hqp : q = p
      · subst hqp
        simp [settle] at hq
      · rw [settle, Function.update_of_ne hqp] at hq
        exact h.calls q call hq

theorem Inv.step (h : S.Inv) {e : ConsEv} (hs : S.step e = .next S') : S'.Inv := by
  cases e with
  | intr c =>
      cases hs
      exact ⟨h.cons.intr c, h.calls⟩
  | read p n killed dst =>
      cases hc : S.calls p with
      | some _ => simp [ConsSys.step, hc] at hs
      | none =>
          simp only [ConsSys.step, hc] at hs
          rcases hr : S.cons.consoleread killed dst n with ⟨c', t⟩
          rw [hr] at hs
          cases hs
          by_cases hn : 0 < n
          · -- the first turn runs the loop for `n.toNat` bytes
            rw [Cons.consoleread, if_pos hn] at hr
            have hf := @Cons.readLoop_frame killed dst n.toNat n.toNat S.cons []
            have hinv := h.cons.readLoop killed dst n.toNat n.toNat []
            rw [hr] at hf hinv
            exact ⟨hinv, settle_le h (Nat.le_refl _) hf.2.2.2.2⟩
          · rw [Cons.consoleread, if_neg hn] at hr
            cases hr
            exact ⟨h.cons, @settle_le S p n.toNat 0 dst (.ret 0 []) h (Nat.zero_le _) fun _ _ ht => by cases ht⟩
  | resume p killed =>
      cases hc : S.calls p with
      | none => simp [ConsSys.step, hc] at hs
      | some call =>
          simp only [ConsSys.step, hc] at hs
          rcases hr : S.cons.readLoop killed call.dst call.target call.n call.out with ⟨c', t⟩
          rw [hr] at hs
          cases hs
          have hf := @Cons.readLoop_frame killed call.dst call.target call.n S.cons call.out
          have hinv := h.cons.readLoop killed call.dst call.target call.n call.out
          rw [hr] at hf hinv
          exact ⟨hinv, settle_le h (h.calls p call hc) hf.2.2.2.2⟩

theorem inv_reach (h : Relation.ReflTransGen Step boot S) : S.Inv :=
  @Relation.invariant_reach _ _ Inv (fun _ _ hi ⟨_, hs⟩ => hi.step hs) _ _ inv_boot h

/-- In every state a run reaches, the counters are ordered with no
newline on the edit line; `consoleintr` is `intrSpec` on the committed
input and the edit line; and the first turn of a call, or the next turn
of a sleeping one, is `readSpec` on the committed input when its copies
succeed. -/
theorem console_refines (h : Relation.ReflTransGen Step boot S) :
    S.cons.Inv ∧
      (∀ c, ((S.cons.consoleintr c).queue, (S.cons.consoleintr c).line) =
        Cons.intrSpec c S.cons.queue S.cons.line) ∧
      (∀ (n : Int) killed (dst : Nat → Bool), 0 < n → (∀ i < n.toNat, dst i = true) →
        ((S.cons.consoleread killed dst n).1.queue, (S.cons.consoleread killed dst n).2) =
          Cons.readSpec killed n.toNat n.toNat S.cons.queue []) ∧
      ∀ p call killed, S.calls p = some call → (∀ i < call.target, call.dst i = true) →
        ((S.cons.readLoop killed call.dst call.target call.n call.out).1.queue,
          (S.cons.readLoop killed call.dst call.target call.n call.out).2) =
          Cons.readSpec killed call.target call.n S.cons.queue call.out := by
  have hi := inv_reach h
  refine ⟨hi.cons, Cons.intr_spec hi.cons, fun n killed dst hn hdst => ?_,
    fun p call killed hc hdst => Cons.readLoop_spec hdst _ (hi.calls p call hc)⟩
  simp only [Cons.consoleread, if_pos hn]
  exact Cons.readLoop_spec hdst _ (Nat.le_refl _)

/-- `console_refines` at `consoleinit`'s empty console. -/
theorem console_refines_boot :
    boot.cons.Inv ∧
      (∀ c, ((boot.cons.consoleintr c).queue, (boot.cons.consoleintr c).line) =
        Cons.intrSpec c boot.cons.queue boot.cons.line) ∧
      (∀ (n : Int) killed (dst : Nat → Bool), 0 < n → (∀ i < n.toNat, dst i = true) →
        ((boot.cons.consoleread killed dst n).1.queue, (boot.cons.consoleread killed dst n).2) =
          Cons.readSpec killed n.toNat n.toNat boot.cons.queue []) ∧
      ∀ p call killed, boot.calls p = some call → (∀ i < call.target, call.dst i = true) →
        ((boot.cons.readLoop killed call.dst call.target call.n call.out).1.queue,
          (boot.cons.readLoop killed call.dst call.target call.n call.out).2) =
          Cons.readSpec killed call.target call.n boot.cons.queue call.out :=
  console_refines .refl

end ConsSys

end Xv6
