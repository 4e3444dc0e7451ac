import Mathlib.Data.List.Chain
import Mathlib.Data.List.Nodup
import Mathlib.Logic.Function.Basic

/-!
A circular doubly-linked list through a sentinel, as pointer fields.

Nodes are `some x`; the sentinel (the list head, itself a node of
the ring) is `none`. `lk.IsRing L` says the ring, read from the
sentinel forward, is `none, L[0], …, L[n-1], none`: every
consecutive pair is `Linked` (`a.next = b` and `b.prev = a`) and no
node is repeated.

The operations are the pointer assignments a C program makes, one
`setNext`/`setPrev` per statement, each reading the fields as the
statements before it left them: `unlink` takes a node out, `pushFront`
puts one right after the sentinel. A scan that follows `next` from
the sentinel visits `L` in order (`scanNext_eq_find?`); following
`prev` visits `L.reverse` (`IsRing.swap`).

Framing carries the proofs: an assignment to a field that a pair's
link does not read keeps the pair linked.
-/

/-- The `next` and `prev` fields of every node, the sentinel `none`
included. -/
structure Links (ι : Type*) where
  next : Option ι → Option ι
  prev : Option ι → Option ι

namespace Links

variable {ι : Type*}

/-- `a.next` is `b` and `b.prev` is `a`. -/
def Linked (lk : Links ι) (a b : Option ι) : Prop := lk.next a = b ∧ lk.prev b = a

/-- The ring read from the sentinel round to the sentinel. -/
def ring (L : List ι) : List (Option ι) := none :: (L.map some ++ [none])

/-- `lk` links the nodes of `L`, in order, into one ring through the
sentinel. -/
structure IsRing (lk : Links ι) (L : List ι) : Prop where
  nodup : L.Nodup
  chain : (ring L).IsChain lk.Linked

/-- The links read backwards. -/
def swap (lk : Links ι) : Links ι := ⟨lk.prev, lk.next⟩

/-- Follow `next` from `c` to the first node satisfying `p`, stopping
at the sentinel; `fuel` bounds the nodes visited. -/
def scanNext (lk : Links ι) (p : ι → Bool) : Option ι → Nat → Option ι
  | none, _ => none
  | some _, 0 => none
  | some x, fuel + 1 => if p x then some x else scanNext lk p (lk.next (some x)) fuel

/-- The empty ring: the sentinel linked to itself. -/
def empty : Links ι := ⟨fun _ => none, fun _ => none⟩

theorem isRing_empty : (empty : Links ι).IsRing [] :=
  ⟨List.nodup_nil, by simp [ring, Linked, empty]⟩

/-- Reading the ring backwards. -/
theorem IsRing.swap {lk : Links ι} {L : List ι} (h : lk.IsRing L) : lk.swap.IsRing L.reverse := by
  refine ⟨List.nodup_reverse.mpr h.nodup, ?_⟩
  have hrev : ring L.reverse = (ring L).reverse := by simp [ring]
  rw [hrev, List.isChain_reverse]
  exact h.chain.imp fun a b hab => ⟨hab.2, hab.1⟩

/-- The first link of a linked run of nodes. -/
theorem next_of_chain {lk : Links ι} {a : Option ι} {M : List ι}
    (h : (a :: (M.map some ++ [none])).IsChain lk.Linked) : lk.next a = M.head? := by
  cases M with
  | nil => exact (List.isChain_pair.mp h).1
  | cons z M => exact (List.isChain_cons_cons.mp h).1.1

/-- A scan from the head of a linked run of nodes finds what `find?`
finds. -/
theorem scanNext_of_chain {lk : Links ι} (p : ι → Bool) :
    ∀ (M : List ι) (fuel : Nat), (M.map some ++ [none]).IsChain lk.Linked → M.length ≤ fuel →
      lk.scanNext p M.head? fuel = M.find? p := by
  intro M
  -- induction on the run, the cursor moving one link at a time
  induction M with
  | nil => intro fuel _ _; cases fuel <;> rfl
  | cons y M ih =>
      intro fuel hchain hlen
      obtain ⟨fuel, rfl⟩ : ∃ f, fuel = f + 1 := ⟨fuel - 1, by simp at hlen; omega⟩
      have hcons : ((some y) :: (M.map some ++ [none])).IsChain lk.Linked := by simpa using hchain
      by_cases hp : p y = true
      · simp only [List.head?_cons, scanNext, hp, if_true, List.find?_cons]
      · simp only [List.head?_cons, scanNext, hp, Bool.false_eq_true, if_false, List.find?_cons,
          next_of_chain hcons]
        exact ih fuel hcons.tail (by simp at hlen; omega)

/-- Scanning the ring forward from the sentinel's `next` is `find?`
on its nodes. -/
theorem IsRing.scanNext_eq_find? {lk : Links ι} {L : List ι} (h : lk.IsRing L) (p : ι → Bool)
    {fuel : Nat} (hfuel : L.length ≤ fuel) : lk.scanNext p (lk.next none) fuel = L.find? p := by
  have hhead : lk.next none = L.head? := next_of_chain h.chain
  rw [hhead]
  exact scanNext_of_chain p L fuel (by simpa [ring] using h.chain.tail) hfuel

/-- Scanning backward from the sentinel's `prev` is `find?` on the
reversed nodes. -/
theorem IsRing.scanPrev_eq_find? {lk : Links ι} {L : List ι} (h : lk.IsRing L) (p : ι → Bool)
    {fuel : Nat} (hfuel : L.length ≤ fuel) :
    lk.swap.scanNext p (lk.prev none) fuel = L.reverse.find? p :=
  h.swap.scanNext_eq_find? p (by simpa using hfuel)

-- ============================================================ the ring splits

/-- The ring around a node `x`: the part before it, the part after
it, and the two links through `x`. -/
theorem IsRing.split {lk : Links ι} {A B : List ι} {x : ι} (h : lk.IsRing (A ++ x :: B)) :
    (none :: A.map some).IsChain lk.Linked ∧ (B.map some ++ [none]).IsChain lk.Linked ∧
      lk.Linked ((none :: A.map some).getLast (List.cons_ne_nil _ _)) (some x) ∧
      lk.Linked (some x) ((B.map some ++ [none]).head (by simp)) := by
  have hring : ring (A ++ x :: B) = (none :: A.map some) ++ some x :: (B.map some ++ [none]) := by
    simp [ring]
  have hc := h.chain
  rw [hring, List.isChain_append] at hc
  obtain ⟨hL, hxR, hj⟩ := hc
  exact ⟨hL, hxR.tail, hj _ (List.getLast?_eq_some_getLast _) _ rfl,
    hxR.rel_head? (List.head?_eq_some_head _)⟩

/-- A node of the ring is linked to both its neighbours:
`x->next->prev == x` and `x->prev->next == x`. -/
theorem IsRing.linked_of_mem {lk : Links ι} {L : List ι} {x : ι} (h : lk.IsRing L) (hx : x ∈ L) :
    lk.Linked (lk.prev (some x)) (some x) ∧ lk.Linked (some x) (lk.next (some x)) := by
  obtain ⟨A, B, rfl⟩ := List.append_of_mem hx
  obtain ⟨-, -, hp, hn⟩ := h.split
  rw [← hp.2, ← hn.1] at *
  exact ⟨hp, hn⟩

/-- The nodes on either side of `x` in a ring without repeats. -/
theorem not_mem_sides {A B : List ι} {x : ι} (hnd : (A ++ x :: B).Nodup) :
    some x ∉ none :: A.map some ∧ some x ∉ B.map some ++ [none] := by
  have hA : x ∉ A := fun hm => (List.nodup_append.mp hnd).2.2 x hm x List.mem_cons_self rfl
  have hB : x ∉ B := (List.nodup_cons.mp (List.nodup_append.mp hnd).2.1).1
  constructor <;> simp [hA, hB]

-- ============================================================ assignments

variable [DecidableEq ι]

/-- `a->next = b`. -/
def setNext (lk : Links ι) (a b : Option ι) : Links ι := { lk with next := Function.update lk.next a b }

/-- `a->prev = b`. -/
def setPrev (lk : Links ι) (a b : Option ι) : Links ι := { lk with prev := Function.update lk.prev a b }

@[simp] theorem setNext_next (lk : Links ι) (a b : Option ι) :
    (lk.setNext a b).next = Function.update lk.next a b := rfl
@[simp] theorem setNext_prev (lk : Links ι) (a b : Option ι) : (lk.setNext a b).prev = lk.prev := rfl
@[simp] theorem setPrev_prev (lk : Links ι) (a b : Option ι) :
    (lk.setPrev a b).prev = Function.update lk.prev a b := rfl
@[simp] theorem setPrev_next (lk : Links ι) (a b : Option ι) : (lk.setPrev a b).next = lk.next := rfl

/-- `x->next->prev = x->prev; x->prev->next = x->next;` -/
def unlink (lk : Links ι) (x : ι) : Links ι :=
  let lk₁ := lk.setPrev (lk.next (some x)) (lk.prev (some x))
  lk₁.setNext (lk₁.prev (some x)) (lk₁.next (some x))

/-- `x->next = head.next; x->prev = &head; head.next->prev = x;
head.next = x;` -/
def pushFront (lk : Links ι) (x : ι) : Links ι :=
  let lk₁ := lk.setNext (some x) (lk.next none)
  let lk₂ := lk₁.setPrev (some x) none
  let lk₃ := lk₂.setPrev (lk₂.next none) (some x)
  lk₃.setNext none (some x)

/-- Take `x` out and put it back first. -/
def moveFront (lk : Links ι) (x : ι) : Links ι := (lk.unlink x).pushFront x

-- ================================================================ framing

theorem Linked.setNext {lk : Links ι} {a b c d : Option ι} (h : lk.Linked a b) (ha : a ≠ c) :
    (lk.setNext c d).Linked a b :=
  ⟨by rw [setNext_next, Function.update_of_ne ha, h.1], h.2⟩

theorem Linked.setPrev {lk : Links ι} {a b c d : Option ι} (h : lk.Linked a b) (hb : b ≠ c) :
    (lk.setPrev c d).Linked a b :=
  ⟨h.1, by rw [setPrev_prev, Function.update_of_ne hb, h.2]⟩

/-- `unlink` written as its two assignments, once `x` is not its own
successor. -/
theorem unlink_eq {lk : Links ι} {x : ι} (hn : lk.next (some x) ≠ some x) :
    lk.unlink x = (lk.setPrev (lk.next (some x)) (lk.prev (some x))).setNext
      (lk.prev (some x)) (lk.next (some x)) := by
  simp only [unlink, setPrev_prev, setPrev_next, Function.update_of_ne hn.symm]

/-- `pushFront` written as its four assignments. -/
theorem pushFront_eq (lk : Links ι) (x : ι) :
    lk.pushFront x = (((lk.setNext (some x) (lk.next none)).setPrev (some x) none).setPrev
      (lk.next none) (some x)).setNext none (some x) := by
  simp only [pushFront, setPrev_next, setNext_next,
    Function.update_of_ne (Option.some_ne_none x).symm]

-- ================================================================ unlink

/-- Unlinking `x` keeps every link that does not touch `x`. -/
theorem Linked.unlink {lk : Links ι} {x : ι} {a b : Option ι}
    (hnx : lk.next (some x) ≠ some x) (hp : lk.next (lk.prev (some x)) = some x)
    (hn : lk.prev (lk.next (some x)) = some x)
    (h : lk.Linked a b) (ha : a ≠ some x) (hb : b ≠ some x) : (lk.unlink x).Linked a b := by
  rw [unlink_eq hnx]
  -- the two assignments change `prev x`'s `next` and `next x`'s `prev`, which lead to `x`
  have hap : a ≠ lk.prev (some x) := by
    rintro rfl
    exact hb (h.1.symm.trans hp)
  have hbn : b ≠ lk.next (some x) := by
    rintro rfl
    exact ha (h.2.symm.trans hn)
  exact (h.setPrev hbn).setNext hap

theorem IsRing.unlink {lk : Links ι} {L : List ι} {x : ι} (h : lk.IsRing L) (hx : x ∈ L) :
    (lk.unlink x).IsRing (L.erase x) := by
  obtain ⟨A, B, rfl⟩ := List.append_of_mem hx
  have hnd := h.nodup
  obtain ⟨hxL, hxR⟩ := not_mem_sides hnd
  obtain ⟨hL, hR, hp, hn⟩ := h.split
  -- name the neighbours of `x`
  have hprev : lk.prev (some x) = (none :: A.map some).getLast (List.cons_ne_nil _ _) := hp.2
  have hnext : lk.next (some x) = (B.map some ++ [none]).head (by simp) := hn.1
  have hnx : lk.next (some x) ≠ some x := by
    rw [hnext]
    exact fun he => hxR (he ▸ List.head_mem _)
  have hframe : ∀ a b, lk.Linked a b → a ≠ some x → b ≠ some x → (lk.unlink x).Linked a b :=
    fun a b hab ha hb => hab.unlink hnx (by rw [hprev]; exact hp.1) (by rw [hnext]; exact hn.2) ha hb
  have herase : (A ++ x :: B).erase x = A ++ B := by
    have hA : x ∉ A := fun hm => hxL (by simp [hm])
    rw [List.erase_append_right _ hA, List.erase_cons_head]
  rw [herase]
  refine ⟨(List.nodup_middle.mp hnd).of_cons, ?_⟩
  have hring : ring (A ++ B) = (none :: A.map some) ++ (B.map some ++ [none]) := by simp [ring]
  rw [hring, List.isChain_append]
  refine ⟨hL.imp_of_mem_imp fun a b ha hb hab => hframe a b hab (ne_of_mem_of_not_mem ha hxL)
      (ne_of_mem_of_not_mem hb hxL),
    hR.imp_of_mem_imp fun a b ha hb hab => hframe a b hab (ne_of_mem_of_not_mem ha hxR)
      (ne_of_mem_of_not_mem hb hxR), ?_⟩
  -- the new link across the gap
  intro a ha b hb
  rw [List.getLast?_eq_some_getLast (List.cons_ne_nil _ _), Option.mem_some_iff] at ha
  rw [List.head?_eq_some_head (by simp), Option.mem_some_iff] at hb
  subst ha hb
  rw [unlink_eq hnx, ← hprev, ← hnext]
  exact ⟨by simp, by simp⟩

-- ============================================================= pushFront

/-- Pushing `x` keeps every link that does not leave the sentinel,
enter the old first node, or touch `x`. -/
theorem Linked.pushFront {lk : Links ι} {x : ι} {a b : Option ι} (h : lk.Linked a b)
    (ha : a ≠ some x) (hb : b ≠ some x) (hbn : b ≠ lk.next none) :
    (lk.pushFront x).Linked a b := by
  rw [pushFront_eq]
  -- out of the sentinel the only link is to its old first node
  have ha0 : a ≠ none := by
    rintro rfl
    exact hbn h.1.symm
  exact (((h.setNext ha).setPrev hb).setPrev hbn).setNext ha0

theorem IsRing.pushFront {lk : Links ι} {L : List ι} {x : ι} (h : lk.IsRing L) (hx : x ∉ L) :
    (lk.pushFront x).IsRing (x :: L) := by
  refine ⟨List.nodup_cons.mpr ⟨hx, h.nodup⟩, ?_⟩
  have hc := h.chain
  simp only [ring] at hc ⊢
  have hfirst : lk.next none = L.head? := next_of_chain hc
  have hxR : some x ∉ L.map some ++ [none] := by simp [hx]
  have hnx : lk.next none ≠ some x := by
    rw [hfirst]
    intro he
    exact hx (List.mem_of_mem_head? he)
  -- the old ring after the sentinel: no repeats, and its first node is the sentinel's old `next`
  have hRnd : (L.map some ++ [none]).Nodup := by
    refine List.nodup_append.mpr ⟨h.nodup.map fun _ _ he => Option.some.inj he, List.nodup_singleton _, ?_⟩
    simp
  have htail : ∀ b ∈ (L.map some ++ [none]).tail, b ≠ lk.next none := by
    intro b hb he
    rw [hfirst] at he
    cases L with
    | nil => simp at hb
    | cons y L =>
        simp only [List.head?_cons] at he
        subst he
        simp only [List.map_cons, List.cons_append, List.nodup_cons] at hRnd
        exact hRnd.1 (by simpa using hb)
  have hR0 : (L.map some ++ [none]).IsChain lk.Linked := hc.tail
  have hR := hR0.imp_of_mem_tail_imp fun a b ha hb hab =>
    hab.pushFront (ne_of_mem_of_not_mem ha hxR)
      (ne_of_mem_of_not_mem (List.mem_of_mem_tail hb) hxR) (htail b hb)
  simp only [List.map_cons, List.cons_append]
  rw [List.isChain_cons_cons, List.isChain_cons]
  refine ⟨⟨?_, ?_⟩, fun y hy => ?_, hR⟩
  · simp [pushFront_eq]
  · simp [pushFront_eq, Function.update_of_ne hnx.symm]
  · -- the link from `x` to the old first node
    have hy' : y = lk.next none := by
      rw [hfirst]
      cases L <;> simpa using hy.symm
    subst hy'
    simp [pushFront_eq, Linked]

/-- `brelse`'s move to the front. -/
theorem IsRing.moveFront {lk : Links ι} {L : List ι} {x : ι} (h : lk.IsRing L) (hx : x ∈ L) :
    (lk.moveFront x).IsRing (x :: L.erase x) :=
  (h.unlink hx).pushFront (h.nodup.not_mem_erase)

/-- Pushing a list of fresh nodes in turn, as `binit` does. -/
theorem IsRing.foldl_pushFront {lk : Links ι} {L : List ι} (h : lk.IsRing L) :
    ∀ {xs : List ι}, (xs ++ L).Nodup → (xs.foldl Links.pushFront lk).IsRing (xs.reverse ++ L) := by
  intro xs
  induction xs generalizing lk L with
  | nil => intro _; simpa using h
  | cons x xs ih =>
      intro hnd
      have hx : x ∉ L := fun hm => (List.nodup_cons.mp hnd).1 (List.mem_append_right _ hm)
      have hnd' : (xs ++ x :: L).Nodup := List.nodup_middle.mpr hnd
      simpa using ih (h.pushFront hx) hnd'

end Links
