import Xv6.User.Grep

/-!
What `grep`'s matcher accepts, and what `grep` prints.

# The matcher

A pattern is read left to right into items (`parse`): a byte followed
by `*` is a starred atom, `$` as the last byte is the end of the text,
`.` is any byte and every other byte is itself. `Here items s` says
that a prefix of `s` matches the items, the end item only at the end
of `s`. `matchhere` decides `Here` of the parsed pattern
(`matchhere_iff`), by induction on the pattern; a starred atom is
`matchstar`, which tries the fewest repetitions first and is complete
by induction on the text (`matchstar_iff`). `match` is `matchhere` at
position 0 for a leading `^`, at every position of the text otherwise
(`match_correct`). All three are total functions: their mutual
recursion ends on every input.

# The buffer

A first line of 1023 bytes or more never fits: with no newline in the
1023 bytes the buffer holds, `grep` keeps them all, asks `read` for 0
bytes, and stops having written nothing (`grep_stalls_on_long_line`).
-/

namespace Xv6.Grep

-- ============================================================ the patterns

/-- What one pattern byte stands for. -/
inductive Atom
  | lit (c : UInt8)
  | any
  deriving DecidableEq, Repr

/-- Whether the atom matches byte `t`. -/
@[grind] def Atom.accepts : Atom → UInt8 → Bool
  | .lit c, t => t == c
  | .any, _ => true

/-- One item of a pattern. -/
inductive Item
  | one (a : Atom)
  | star (a : Atom)
  | eol
  deriving DecidableEq, Repr

/-- Pattern byte `c` as an atom: `.` is any byte. -/
def atom (c : UInt8) : Atom := if c = 46 then .any else .lit c

/-- A pattern, read left to right. -/
def parse : List UInt8 → List Item
  | [] => []
  | c :: 42 :: re => .star (atom c) :: parse re
  | [36] => [.eol]
  | c :: re => .one (atom c) :: parse re

/-- A prefix of the text matches the items. -/
inductive Here : List Item → List UInt8 → Prop
  | nil (s : List UInt8) : Here [] s
  | eol : Here [.eol] []
  | one {a : Atom} {t : UInt8} {is : List Item} {s : List UInt8} :
      a.accepts t = true → Here is s → Here (.one a :: is) (t :: s)
  | starNil {a : Atom} {is : List Item} {s : List UInt8} : Here is s → Here (.star a :: is) s
  | starCons {a : Atom} {t : UInt8} {is : List Item} {s : List UInt8} :
      a.accepts t = true → Here (.star a :: is) s → Here (.star a :: is) (t :: s)

/-- `re` matches `text`: at position 0 after a leading `^`, at some
position `0 ≤ i ≤ strlen(text)` otherwise. -/
def Matches (re text : List UInt8) : Prop :=
  match re with
  | 94 :: re => Here (parse re) text
  | _ => ∃ i ≤ text.length, Here (parse re) (text.drop i)

section Here

variable {a : Atom} {is : List Item} {s : List UInt8}

theorem here_eol_iff : Here [.eol] s ↔ s = [] := by
  constructor
  · intro h
    cases h
    rfl
  · rintro rfl
    exact .eol

theorem here_one_iff : Here (.one a :: is) s ↔ ∃ t s', s = t :: s' ∧ a.accepts t = true ∧ Here is s' := by
  constructor
  · intro h
    cases h with
    | one ha h => exact ⟨_, _, rfl, ha, h⟩
  · rintro ⟨t, s', rfl, ha, h⟩
    exact .one ha h

theorem here_star_iff : Here (.star a :: is) s ↔
    Here is s ∨ ∃ t s', s = t :: s' ∧ a.accepts t = true ∧ Here (.star a :: is) s' := by
  constructor
  · intro h
    cases h with
    | starNil h => exact .inl h
    | starCons ha h => exact .inr ⟨_, _, rfl, ha, h⟩
  · rintro (h | ⟨t, s', rfl, ha, h⟩)
    · exact .starNil h
    · exact .starCons ha h

end Here

theorem accepts_atom (c t : UInt8) : (atom c).accepts t = (c == 46 || c == t) := by
  unfold atom
  split
  · simp_all [Atom.accepts]
  · rename_i h
    rw [Atom.accepts, beq_eq_false_iff_ne.mpr h, Bool.false_or]
    exact BEq.comm

theorem accepts_atom_star (c t : UInt8) : (atom c).accepts t = (t == c || c == 46) := by
  unfold atom
  split
  · simp_all [Atom.accepts]
  · simp_all [Atom.accepts]

-- ================================================================ matcher

/-- `matchstar` tries `re` after zero, one, two ... repetitions of the
atom: complete by induction on the text. -/
theorem matchstar_iff (c : UInt8) {re : List UInt8} (hre : ∀ s, matchhere re s = true ↔ Here (parse re) s) :
    ∀ s, matchstar c re s = true ↔ Here (.star (atom c) :: parse re) s
  | [] => by
      rw [matchstar, here_star_iff, ← hre]
      simp
  | t :: s => by
      have hs := matchstar_iff c hre s
      rw [matchstar, here_star_iff, ← hre]
      simp [hs, accepts_atom_star]

/-- `matchhere` decides a match of the parsed pattern at the start of
the text: by induction on the pattern, one item at a time. -/
theorem matchhere_iff : ∀ (re text : List UInt8), matchhere re text = true ↔ Here (parse re) text
  | [], text => by
      rw [matchhere, parse]
      exact iff_of_true rfl (.nil text)
  | c :: re, text => by
      by_cases hs : ∃ re', re = 42 :: re'
      · -- a starred atom
        obtain ⟨re', rfl⟩ := hs
        rw [matchhere, parse]
        exact matchstar_iff c (matchhere_iff re') text
      have hs' : ∀ re', re = 42 :: re' → False := fun re' h => hs ⟨re', h⟩
      by_cases he : c = 36 ∧ re = []
      · -- \x24 at the end
        obtain ⟨rfl, rfl⟩ := he
        rw [parse, here_eol_iff]
        cases text with
        | nil => rw [matchhere.eq_4 36 [] hs']; simp
        | cons t text => rw [matchhere.eq_3 36 [] t text hs']; simp
      · -- one atom, then the rest
        rw [parse.eq_4 c re hs' (fun h1 h2 => he ⟨h1, h2⟩), here_one_iff]
        cases text with
        | nil => rw [matchhere.eq_4 c re hs', if_neg he]; simp
        | cons t text =>
            rw [matchhere.eq_3 c re t text hs', if_neg he, Bool.and_eq_true, matchhere_iff re text,
              ← accepts_atom]
            simp
termination_by re => re.length

/-- `match`'s loop tries every position, the empty suffix last. -/
theorem matchLoop_iff (re : List UInt8) :
    ∀ text, matchLoop re text = true ↔ ∃ i ≤ text.length, Here (parse re) (text.drop i)
  | [] => by
      rw [matchLoop, matchhere_iff]
      simp
  | t :: text => by
      rw [matchLoop, Bool.or_eq_true, matchhere_iff, matchLoop_iff re text]
      constructor
      · rintro (h | ⟨i, hi, h⟩)
        · exact ⟨0, by simp, h⟩
        · exact ⟨i + 1, by simp; omega, h⟩
      · rintro ⟨i, hi, h⟩
        rcases i with _ | i
        · exact .inl h
        · exact .inr ⟨i, by simp at hi; omega, h⟩

/-- `match(re, text)` returns 1 exactly when the pattern matches a
substring of the text under its reading: from position 0 after a
leading `^`, from any position of the text, its end included,
otherwise. -/
theorem match_correct (re text : List UInt8) : «match» re text = true ↔ Matches re text := by
  by_cases h : ∃ re', re = 94 :: re'
  · -- anchored at position 0
    obtain ⟨re', rfl⟩ := h
    rw [«match», Matches]
    exact matchhere_iff re' text
  · have h' : ∀ re', re = 94 :: re' → False := fun re' hre => h ⟨re', hre⟩
    rw [«match».eq_2 re text h', matchLoop_iff re text, Matches.eq_2 re text h']

-- ================================================================== grep

/-- `strchr` finds no byte that is not there. -/
theorem strchr_of_not_mem {c : UInt8} : ∀ {s : List UInt8}, c ∉ s → strchr c s = none
  | [], _ => rfl
  | x :: s, h => by
      have hx : x ≠ c := fun hx => h (hx ▸ List.mem_cons_self ..)
      rw [strchr, if_neg hx, strchr_of_not_mem (fun hs => h (List.mem_cons_of_mem x hs))]
      split_ifs <;> rfl

/-- Without a newline the inner loop writes nothing and keeps every
byte. -/
theorem lines_of_not_mem {pattern p : List UInt8} (h : 10 ∉ p) : lines pattern p = ([], p) := by
  rw [lines]
  split
  · rfl
  · rename_i q hq
    rw [strchr_of_not_mem h] at hq
    cases hq

/-- A read asks for `1023 - m` bytes, and gets at least one of them
while bytes are left. -/
theorem readCount_pos (want left : Nat) (sched : List Nat) (hw : want ≠ 0) (hl : left ≠ 0) :
    0 < readCount want left sched ∧ readCount want left sched ≤ want := by
  unfold readCount
  rw [if_neg (by omega)]
  omega

/-- From `k ≤ 1023` bytes held, none of the first 1023 a newline, the
loop reads on to 1023, asks for 0 bytes and stops without writing. -/
theorem grepLoop_stalls {pattern input : List UInt8} (h : 10 ∉ input.take 1023) (hlen : 1023 ≤ input.length) :
    ∀ r k sched, 1023 - k = r → k ≤ 1023 → grepLoop pattern (input.take k) (input.drop k) sched = [] := by
  intro r
  -- induction on the room left in the buffer
  induction r using Nat.strongRecOn with
  | ind r ih =>
  intro k sched hr hk
  have hbuf : (input.take k).length = k := by simp; omega
  rw [grepLoop, hbuf]
  by_cases hfull : k = 1023
  · -- a full buffer: the read asks for nothing
    subst hfull
    simp [readCount]
  · obtain ⟨hpos, hle⟩ := readCount_pos (1024 - k - 1) (input.drop k).length sched (by omega) (by simp; omega)
    generalize hn : readCount (1024 - k - 1) (input.drop k).length sched = n at hpos hle
    have htake : input.take k ++ (input.drop k).take n = input.take (k + n) := by
      rw [List.take_add]
    have hno : 10 ∉ input.take (k + n) := fun hm =>
      h (List.take_subset_take_left _ (show k + n ≤ 1023 by omega) hm)
    rw [if_neg (by omega), htake, lines_of_not_mem hno, List.drop_drop, List.nil_append]
    exact ih _ (by omega) (k + n) sched.tail rfl (by omega)

/-- `grep` never writes a line when the first 1023 bytes of its input
hold no newline: the buffer fills, and the next read asks for 0 bytes. -/
theorem grep_stalls_on_long_line (pattern input : List UInt8) (sched : List Nat)
    (h : 10 ∉ input.take 1023) (hlen : 1023 ≤ input.length) : grep pattern input sched = [] :=
  grepLoop_stalls h hlen 1023 0 sched rfl (by omega)

/-- A line of 1023 bytes `b` and its newline: `grep b` matches it but
writes nothing. -/
theorem grep_stalls_on_long_line_b :
    «match» [98] (List.replicate 1023 98) = true ∧ grep [98] (List.replicate 1023 98 ++ [10]) [] = [] := by
  refine ⟨?_, grep_stalls_on_long_line [98] _ [] ?_ ?_⟩
  · show «match» [98] (98 :: List.replicate 1022 98) = true
    rw [«match».eq_2 _ _ (by simp), matchLoop, matchhere.eq_3 98 [] 98 _ (by simp), if_neg (by decide),
      matchhere.eq_1]
    rfl
  · rw [List.take_left' (List.length_replicate ..), List.mem_replicate]
    decide
  · rw [List.length_append, List.length_replicate]
    decide

end Xv6.Grep
