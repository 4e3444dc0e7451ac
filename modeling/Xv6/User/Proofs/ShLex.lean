import Xv6.User.Sh
import Mathlib.Data.List.TakeWhile

/-!
The shell's tokens, and what `peek` and `gettoken` see of them.

`tokenize` splits a command line into the tokens of its grammar: blanks
" \t\r\n\v" between tokens, each of "<|&;()" a token, `>>` one token
and `>` another, and a word every maximal run of the other bytes. The
tokens from position `ps` of the command line are `toks s ps`.

On a command line without NUL bytes, `peek` tests the first byte of
the first token left (`peek_spec`), and `gettoken` returns its kind and
moves past it (`gettoken_cons`); for a word, `q` and `eq` bound its
bytes, and `eq` is a blank, a symbol or the end (`Word`). Neither moves
before the first token left.
-/

namespace Xv6

namespace Sh

/-- A token of a command line. -/
inductive Tok
  | lt
  | gt
  | append
  | pipe
  | amp
  | semi
  | lparen
  | rparen
  | word (w : List UInt8)
  deriving DecidableEq, Repr

/-- What `gettoken` returns for the token. -/
@[grind] def Tok.ret : Tok → UInt8
  | .lt => 60
  | .gt => 62
  | .append => 43
  | .pipe => 124
  | .amp => 38
  | .semi => 59
  | .lparen => 40
  | .rparen => 41
  | .word _ => 97

/-- The token's first byte. -/
@[grind] def Tok.first : Tok → UInt8
  | .lt => 60
  | .gt => 62
  | .append => 62
  | .pipe => 124
  | .amp => 38
  | .semi => 59
  | .lparen => 40
  | .rparen => 41
  | .word w => w.headD 0

/-- A byte of a word: neither a blank nor a symbol. -/
def isWordByte (c : UInt8) : Bool := !strchr whitespace c && !strchr symbols c

/-- The tokens of a byte list. -/
@[grind] def tokenize : List UInt8 → List Tok
  | [] => []
  | c :: cs =>
      if strchr whitespace c then tokenize cs
      else if c = 124 then .pipe :: tokenize cs
      else if c = 40 then .lparen :: tokenize cs
      else if c = 41 then .rparen :: tokenize cs
      else if c = 59 then .semi :: tokenize cs
      else if c = 38 then .amp :: tokenize cs
      else if c = 60 then .lt :: tokenize cs
      -- `>>` is one token
      else if c = 62 then
        if cs.head? = some 62 then .append :: tokenize cs.tail else .gt :: tokenize cs
      else .word (c :: cs.takeWhile isWordByte) :: tokenize (cs.dropWhile isWordByte)
termination_by l => l.length
decreasing_by
  all_goals first
    | (simp only [List.length_cons, List.length_tail]; omega)
    | (have h := List.length_dropWhile_le isWordByte cs; simp only [List.length_cons]; omega)

/-- The tokens from position `ps` on. -/
def toks (s : List UInt8) (ps : Nat) : List Tok := tokenize (s.drop ps)

/-- `e` ends a token: the end of the line, or a blank or a symbol. -/
def Delim (s : List UInt8) (e : Nat) : Prop := e = s.length ∨ (e < s.length ∧ isWordByte (get s e) = false)

/-- The bytes from `q` to `eq` are the word `w`, and `eq` ends it. -/
structure Word (s : List UInt8) (q eq : Nat) (w : List UInt8) : Prop where
  text : (s.drop q).take (eq - q) = w
  lt : q < eq
  inside : ∀ k, q ≤ k → k < eq → k < s.length ∧ isWordByte (get s k) = true
  delim : Delim s eq

-- ================================================================ tokenize

section Tokenize

variable {c : UInt8} {cs : List UInt8}

theorem tokenize_cons_ws (hw : strchr whitespace c = true) : tokenize (c :: cs) = tokenize cs := by
  rw [tokenize, if_pos hw]

/-- Blanks in front change no token. -/
theorem tokenize_dropWhile_ws : ∀ l : List UInt8, tokenize (l.dropWhile (strchr whitespace)) = tokenize l
  | [] => rfl
  | c :: cs => by
      by_cases hw : strchr whitespace c = true
      · rw [List.dropWhile_cons_of_pos hw, tokenize_dropWhile_ws cs, tokenize_cons_ws hw]
      · rw [List.dropWhile_cons_of_neg hw]

theorem isWordByte_of {c : UInt8} (hw : strchr whitespace c = false) (h124 : c ≠ 124) (h40 : c ≠ 40)
    (h41 : c ≠ 41) (h59 : c ≠ 59) (h38 : c ≠ 38) (h60 : c ≠ 60) (h62 : c ≠ 62) : isWordByte c = true := by
  rw [isWordByte, hw, Bool.not_false, Bool.true_and]
  simp only [strchr, symbols, List.contains_cons, List.contains_nil, Bool.or_false, Bool.not_eq_true',
    Bool.or_eq_false_iff, beq_eq_false_iff_ne]
  exact ⟨h60, h124, h62, h38, h59, h40, h41⟩

/-- What the first token of a line is, by its first byte when that is
not blank: a one-byte symbol, `>>`, `>`, or a word. -/
theorem tokenize_cases (cs : List UInt8) (hw : strchr whitespace c = false) :
    (∃ t, (c = 124 ∨ c = 40 ∨ c = 41 ∨ c = 59 ∨ c = 38 ∨ c = 60) ∧ t.ret = c ∧ t.first = c ∧
        (∀ w, t ≠ .word w) ∧ tokenize (c :: cs) = t :: tokenize cs) ∨
      (c = 62 ∧ cs.head? = some 62 ∧ tokenize (c :: cs) = .append :: tokenize cs.tail) ∨
      (c = 62 ∧ cs.head? ≠ some 62 ∧ tokenize (c :: cs) = .gt :: tokenize cs) ∨
      (isWordByte c = true ∧
        tokenize (c :: cs) = .word (c :: cs.takeWhile isWordByte) :: tokenize (cs.dropWhile isWordByte)) := by
  rw [tokenize, if_neg (by simp [hw])]
  by_cases h124 : c = 124
  · rw [if_pos h124]
    exact .inl ⟨.pipe, .inl h124, h124.symm, h124.symm, fun _ h => (nomatch h), rfl⟩
  rw [if_neg h124]
  by_cases h40 : c = 40
  · rw [if_pos h40]
    exact .inl ⟨.lparen, .inr (.inl h40), h40.symm, h40.symm, fun _ h => (nomatch h), rfl⟩
  rw [if_neg h40]
  by_cases h41 : c = 41
  · rw [if_pos h41]
    exact .inl ⟨.rparen, .inr (.inr (.inl h41)), h41.symm, h41.symm, fun _ h => (nomatch h), rfl⟩
  rw [if_neg h41]
  by_cases h59 : c = 59
  · rw [if_pos h59]
    exact .inl ⟨.semi, .inr (.inr (.inr (.inl h59))), h59.symm, h59.symm, fun _ h => (nomatch h), rfl⟩
  rw [if_neg h59]
  by_cases h38 : c = 38
  · rw [if_pos h38]
    exact .inl ⟨.amp, .inr (.inr (.inr (.inr (.inl h38)))), h38.symm, h38.symm, fun _ h => (nomatch h), rfl⟩
  rw [if_neg h38]
  by_cases h60 : c = 60
  · rw [if_pos h60]
    exact .inl ⟨.lt, .inr (.inr (.inr (.inr (.inr h60)))), h60.symm, h60.symm, fun _ h => (nomatch h), rfl⟩
  rw [if_neg h60]
  by_cases h62 : c = 62
  · -- `>>` is one token
    rw [if_pos h62]
    by_cases h62' : cs.head? = some 62
    · rw [if_pos h62']
      exact .inr (.inl ⟨h62, h62', rfl⟩)
    · rw [if_neg h62']
      exact .inr (.inr (.inl ⟨h62, h62', rfl⟩))
  rw [if_neg h62]
  exact .inr (.inr (.inr ⟨isWordByte_of hw h124 h40 h41 h59 h38 h60 h62, rfl⟩))

/-- A line that starts with a byte that is not blank has a first
token, and the token starts with that byte. -/
theorem tokenize_first (cs : List UInt8) (hw : strchr whitespace c = false) :
    ∃ t rest, tokenize (c :: cs) = t :: rest ∧ t.first = c := by
  rcases tokenize_cases cs hw with ⟨t, -, -, hf, -, h⟩ | ⟨h62, -, h⟩ | ⟨h62, -, h⟩ | ⟨-, h⟩
  · exact ⟨t, _, h, hf⟩
  · exact ⟨.append, _, h, h62.symm⟩
  · exact ⟨.gt, _, h, h62.symm⟩
  · exact ⟨_, _, h, rfl⟩

end Tokenize

-- ================================================================ positions

section Positions

variable {s : List UInt8}

theorem get_eq_getElem {i : Nat} (h : i < s.length) : get s i = s[i] := List.getD_eq_getElem _ _ h

theorem drop_eq_get_cons {i : Nat} (h : i < s.length) : s.drop i = get s i :: s.drop (i + 1) := by
  rw [get_eq_getElem h]
  exact List.drop_eq_getElem_cons h

/-- `skipWs` drops the blanks in front. -/
theorem skipWs_drop (s : List UInt8) (i : Nat) : s.drop (skipWs s i) = (s.drop i).dropWhile (strchr whitespace) := by
  by_cases hi : i < s.length
  · by_cases hw : strchr whitespace (get s i) = true
    · rw [skipWs, if_pos ⟨hi, hw⟩, skipWs_drop s (i + 1), drop_eq_get_cons hi, List.dropWhile_cons_of_pos hw]
    · rw [skipWs, if_neg (fun h => hw h.2), drop_eq_get_cons hi, List.dropWhile_cons_of_neg hw]
  · rw [skipWs, if_neg (fun h => hi h.1), List.drop_eq_nil_of_le (by omega), List.dropWhile_nil]
termination_by s.length - i

theorem toks_skipWs (i : Nat) : toks s (skipWs s i) = toks s i := by
  rw [toks, skipWs_drop, tokenize_dropWhile_ws, toks]

theorem wordEnd_cond {i : Nat} :
    (i < s.length ∧ (!strchr whitespace (get s i)) = true ∧ (!strchr symbols (get s i)) = true) ↔
      (i < s.length ∧ isWordByte (get s i) = true) := by
  simp [isWordByte]

/-- The word loop drops the word bytes in front. -/
theorem wordEnd_drop (s : List UInt8) (i : Nat) : s.drop (wordEnd s i) = (s.drop i).dropWhile isWordByte := by
  by_cases hi : i < s.length
  · by_cases hw : isWordByte (get s i) = true
    · rw [wordEnd, if_pos (wordEnd_cond.2 ⟨hi, hw⟩), wordEnd_drop s (i + 1), drop_eq_get_cons hi,
        List.dropWhile_cons_of_pos hw]
    · rw [wordEnd, if_neg (fun h => hw (wordEnd_cond.1 h).2), drop_eq_get_cons hi, List.dropWhile_cons_of_neg hw]
  · rw [wordEnd, if_neg (fun h => hi h.1), List.drop_eq_nil_of_le (by omega), List.dropWhile_nil]
termination_by s.length - i

/-- The word loop passes the word bytes in front. -/
theorem wordEnd_take (s : List UInt8) (i : Nat) :
    (s.drop i).take (wordEnd s i - i) = (s.drop i).takeWhile isWordByte := by
  by_cases hi : i < s.length
  · by_cases hw : isWordByte (get s i) = true
    · have hle := wordEnd_le s (i + 1)
      rw [wordEnd, if_pos (wordEnd_cond.2 ⟨hi, hw⟩), drop_eq_get_cons hi, List.takeWhile_cons_of_pos hw,
        show wordEnd s (i + 1) - i = wordEnd s (i + 1) - (i + 1) + 1 by omega, List.take_succ_cons,
        wordEnd_take s (i + 1)]
    · rw [wordEnd, if_neg (fun h => hw (wordEnd_cond.1 h).2), drop_eq_get_cons hi, List.takeWhile_cons_of_neg hw,
        Nat.sub_self, List.take_zero]
  · rw [wordEnd, if_neg (fun h => hi h.1), List.drop_eq_nil_of_le (by omega), List.takeWhile_nil, List.take_nil]
termination_by s.length - i

/-- Every byte the word loop passes is a word byte. -/
theorem wordEnd_inside (s : List UInt8) (i : Nat) :
    ∀ k, i ≤ k → k < wordEnd s i → k < s.length ∧ isWordByte (get s k) = true := by
  intro k hik hk
  rw [wordEnd] at hk
  split at hk
  · rename_i h
    obtain ⟨hi, hw⟩ := wordEnd_cond.1 h
    by_cases hki : k = i
    · subst hki
      exact ⟨hi, hw⟩
    · exact wordEnd_inside s (i + 1) k (by omega) hk
  · omega
termination_by s.length - i

/-- The word loop stops at the end or at a blank or a symbol. -/
theorem wordEnd_delim {i : Nat} (h : i ≤ s.length) : Delim s (wordEnd s i) := by
  rw [wordEnd]
  split
  · rename_i hc
    exact wordEnd_delim (by have := (wordEnd_cond.1 hc).1; omega)
  · rename_i hc
    by_cases hi : i < s.length
    · refine .inr ⟨hi, ?_⟩
      rw [wordEnd_cond] at hc
      simpa [hi] using hc
    · exact .inl (by omega)
termination_by s.length - i

end Positions

-- ====================================================== peek and gettoken

section Gettoken

variable {s : List UInt8}

/-- Where `skipWs` stops with a token left, the token's first byte is
a byte of the line that is neither NUL nor blank. -/
theorem front (hs : 0 ∉ s) {ps : Nat} (h : toks s ps ≠ []) :
    skipWs s ps < s.length ∧ get s (skipWs s ps) ≠ 0 ∧ strchr whitespace (get s (skipWs s ps)) = false ∧
      s.drop (skipWs s ps) = get s (skipWs s ps) :: s.drop (skipWs s ps + 1) := by
  have hq : skipWs s ps < s.length := by
    by_contra hq
    rw [← toks_skipWs, toks, List.drop_eq_nil_of_le (by omega), tokenize] at h
    exact h rfl
  have hc0 : get s (skipWs s ps) ≠ 0 := by
    rw [get_eq_getElem hq]
    intro h0
    exact hs (h0 ▸ List.getElem_mem hq)
  have hw := skipWs_not_ws hq
  exact ⟨hq, hc0, hw, drop_eq_get_cons hq⟩

/-- With no token left, `skipWs` runs to the end. -/
theorem skipWs_of_toks_nil {ps : Nat} (hps : ps ≤ s.length) (h : toks s ps = []) : skipWs s ps = s.length := by
  have hle := skipWs_le_length hps
  by_contra hne
  have hq : skipWs s ps < s.length := by omega
  rw [← toks_skipWs, toks, drop_eq_get_cons hq] at h
  obtain ⟨t, rest, ht, -⟩ := tokenize_first (s.drop (skipWs s ps + 1)) (skipWs_not_ws hq)
  rw [ht] at h
  cases h

/-- With no token left, `skipWs` stops at the NUL. -/
theorem get_skipWs_of_nil {ps : Nat} (ht : toks s ps = []) : get s (skipWs s ps) = 0 := by
  by_cases hq : skipWs s ps < s.length
  · rw [← toks_skipWs, toks, drop_eq_get_cons hq] at ht
    obtain ⟨t, rest, ht', -⟩ := tokenize_first (s.drop (skipWs s ps + 1)) (skipWs_not_ws hq)
    rw [ht'] at ht
    cases ht
  · exact List.getD_eq_default _ _ (by omega)

/-- `peek` tests the first byte of the first token left, and moves
past blanks only. -/
theorem peek_spec (hs : 0 ∉ s) (ps : Nat) (l : List UInt8) :
    (peek s ps l).2 = (match toks s ps with | [] => false | t :: _ => strchr l t.first) ∧
      toks s (peek s ps l).1 = toks s ps := by
  refine ⟨?_, toks_skipWs ps⟩
  cases ht : toks s ps with
  | nil => simp [peek, get_skipWs_of_nil ht]
  | cons t rest =>
      obtain ⟨-, hc0, hw, hdrop⟩ := front hs (by rw [ht]; exact List.cons_ne_nil _ _)
      rw [← toks_skipWs, toks, hdrop] at ht
      obtain ⟨t', rest', ht', hfirst⟩ := tokenize_first (s.drop (skipWs s ps + 1)) hw
      rw [ht'] at ht
      obtain ⟨rfl, -⟩ := List.cons.inj ht
      simp [peek, hc0, hfirst]

/-- With no token left, `gettoken` returns 0 and stays. -/
theorem gettoken_nil {ps : Nat} (ht : toks s ps = []) :
    (gettoken s ps).ret = 0 ∧ (gettoken s ps).ps = skipWs s ps := by
  have h0 := get_skipWs_of_nil ht
  simp only [gettoken, token_nul h0, skipWs_skipWs, and_self]

/-- With a token left, `gettoken` returns its kind and moves past it;
for a word, `q` and `eq` bound its bytes. -/
theorem gettoken_cons (hs : 0 ∉ s) {ps : Nat} {t : Tok} {rest : List Tok} (ht : toks s ps = t :: rest) :
    (gettoken s ps).ret = t.ret ∧ toks s (gettoken s ps).ps = rest ∧
      ∀ w, t = .word w → Word s (gettoken s ps).q (gettoken s ps).eq w := by
  obtain ⟨hq, hc0, hw, hdrop⟩ := front hs (by rw [ht]; exact List.cons_ne_nil _ _)
  rw [← toks_skipWs, toks, hdrop] at ht
  show (token s (skipWs s ps)).1 = t.ret ∧ toks s (skipWs s (token s (skipWs s ps)).2) = rest ∧
    ∀ w, t = .word w → Word s (skipWs s ps) (token s (skipWs s ps)).2 w
  rw [toks_skipWs]
  generalize skipWs s ps = q at *
  have hq1 : get s (q + 1) = (s.drop (q + 1)).headD 0 := by
    by_cases h : q + 1 < s.length
    · rw [drop_eq_get_cons h]
      rfl
    · rw [List.drop_eq_nil_of_le (by omega)]
      exact List.getD_eq_default _ _ (by omega)
  rcases tokenize_cases (s.drop (q + 1)) hw with ⟨t', hsym, hret, -, hnw, heq⟩ | ⟨h62, hnext, heq⟩ |
    ⟨h62, hnext, heq⟩ | ⟨hword, heq⟩
  · -- a one-byte symbol
    rw [heq] at ht
    obtain ⟨rfl, rfl⟩ := List.cons.inj ht
    have htok : token s q = (get s q, q + 1) := by simp only [token, if_neg hc0, if_pos hsym]
    rw [htok]
    exact ⟨hret.symm, rfl, fun w h => absurd h (hnw w)⟩
  · -- `>>`
    rw [heq] at ht
    obtain ⟨rfl, rfl⟩ := List.cons.inj ht
    have h62' : get s (q + 1) = 62 := by
      rw [hq1, List.headD_eq_head?_getD, hnext]
      rfl
    have htok : token s q = (43, q + 2) := by simp [token, h62, h62']
    rw [htok, List.tail_drop]
    exact ⟨rfl, rfl, fun _ h => by cases h⟩
  · -- `>`
    rw [heq] at ht
    obtain ⟨rfl, rfl⟩ := List.cons.inj ht
    have h62' : get s (q + 1) ≠ 62 := by
      rw [hq1, List.headD_eq_head?_getD]
      intro h
      cases hh : (s.drop (q + 1)).head? with
      | none => simp [hh] at h
      | some x =>
          rw [hh] at h
          exact hnext (by rw [hh, show x = 62 from h])
    have htok : token s q = (62, q + 1) := by simp [token, h62, h62']
    rw [htok]
    exact ⟨rfl, rfl, fun _ h => by cases h⟩
  · -- a word
    rw [heq] at ht
    obtain ⟨rfl, rfl⟩ := List.cons.inj ht
    have hnsym : ¬(get s q = 124 ∨ get s q = 40 ∨ get s q = 41 ∨ get s q = 59 ∨ get s q = 38 ∨ get s q = 60) ∧
        get s q ≠ 62 := by
      have hsym : strchr symbols (get s q) = false := by
        simp only [isWordByte, Bool.and_eq_true, Bool.not_eq_true'] at hword
        exact hword.2
      simp only [strchr, symbols, List.contains_cons, List.contains_nil, Bool.or_false, Bool.or_eq_false_iff,
        beq_eq_false_iff_ne] at hsym
      obtain ⟨h60, h124, h62, h38, h59, h40, h41⟩ := hsym
      refine ⟨?_, h62⟩
      rintro (h | h | h | h | h | h) <;> contradiction
    have htok : token s q = (97, wordEnd s q) := by simp only [token, if_neg hc0, if_neg hnsym.1, if_neg hnsym.2]
    rw [htok]
    have hdropw := wordEnd_drop s q
    rw [hdrop, List.dropWhile_cons_of_pos hword] at hdropw
    refine ⟨rfl, by rw [toks, hdropw], fun w hw' => ?_⟩
    cases hw'
    have htake := wordEnd_take s q
    rw [hdrop, List.takeWhile_cons_of_pos hword] at htake
    have hlt : q < wordEnd s q := by
      rw [wordEnd, if_pos (wordEnd_cond.2 ⟨hq, hword⟩)]
      exact Nat.lt_of_lt_of_le (Nat.lt_succ_self q) (wordEnd_le s (q + 1))
    exact ⟨by rw [hdrop]; exact htake, hlt, wordEnd_inside s q, wordEnd_delim (by omega)⟩

end Gettoken

-- ================================================================ tokens

/-- `peek`'s test on the tokens left: the first one starts with a byte of `l`. -/
@[grind] def starts (l : List UInt8) : List Tok → Bool
  | [] => false
  | t :: _ => strchr l t.first

/-- A token as `tokenize` builds it: a word starts with a word byte. -/
def Tok.Good : Tok → Prop
  | .word w => ∃ c cs, w = c :: cs ∧ isWordByte c = true
  | _ => True

theorem good_cons {t : Tok} {l : List Tok} (ht : t.Good) (hl : ∀ t ∈ l, t.Good) : ∀ t' ∈ t :: l, t'.Good := by
  intro t' h
  rcases List.mem_cons.1 h with rfl | h
  · exact ht
  · exact hl t' h

theorem tokenize_good (l : List UInt8) : ∀ t ∈ tokenize l, t.Good := by
  -- each branch puts at most one token in front of the tokens of a shorter list
  fun_induction tokenize l with
  | case1 => simp
  | case2 => exact ‹_›
  | case3 => exact good_cons trivial ‹_›
  | case4 => exact good_cons trivial ‹_›
  | case5 => exact good_cons trivial ‹_›
  | case6 => exact good_cons trivial ‹_›
  | case7 => exact good_cons trivial ‹_›
  | case8 => exact good_cons trivial ‹_›
  | case9 => exact good_cons trivial ‹_›
  | case10 => exact good_cons trivial ‹_›
  | case11 c cs hw h124 h40 h41 h59 h38 h60 h62 ih =>
      exact good_cons ⟨c, _, rfl, isWordByte_of (by simpa using hw) h124 h40 h41 h59 h38 h60 h62⟩ ih

theorem toks_good (s : List UInt8) (ps : Nat) : ∀ t ∈ toks s ps, t.Good := tokenize_good _

/-- A word never starts with a symbol. -/
theorem starts_word {w : List UInt8} {ts : List Tok} (hg : (Tok.word w).Good) {l : List UInt8}
    (hl : ∀ b ∈ l, b ∈ symbols) : starts l (.word w :: ts) = false := by
  obtain ⟨c, cs, rfl, hc⟩ := hg
  simp only [starts, Tok.first, List.headD_cons, strchr]
  by_contra h
  have hsym : strchr symbols c = true := by
    simpa [strchr] using hl c (by simpa using h)
  simp [isWordByte, hsym] at hc

theorem Tok.ret_eq_word {t : Tok} (h : t.ret = 97) : ∃ w, t = .word w := by
  cases t <;> first | exact ⟨_, rfl⟩ | exact absurd h (by decide)

section Peek

variable {s : List UInt8}

theorem peek_starts (hs : 0 ∉ s) (ps : Nat) (l : List UInt8) : (peek s ps l).2 = starts l (toks s ps) :=
  (peek_spec hs ps l).1

theorem toks_peek (hs : 0 ∉ s) (ps : Nat) (l : List UInt8) : toks s (peek s ps l).1 = toks s ps :=
  (peek_spec hs ps l).2

/-- A token not a word, by its first byte. -/
theorem not_word_of_starts {t : Tok} {rest : List Tok} {l : List UInt8} (hg : t.Good)
    (hl : ∀ b ∈ l, b ∈ symbols) (h : starts l (t :: rest) = true) (w : List UInt8) : t ≠ .word w := by
  rintro rfl
  rw [starts_word hg hl] at h
  cases h

theorem amp_of_starts {t : Tok} {rest : List Tok} (hg : t.Good) (h : starts [38] (t :: rest) = true) :
    t = .amp := by
  have hw := not_word_of_starts hg (by simp [symbols]) h
  cases t <;> first | rfl | exact absurd rfl (hw _) | (simp only [starts, Tok.first] at h; exact absurd h (by decide))

theorem semi_of_starts {t : Tok} {rest : List Tok} (hg : t.Good) (h : starts [59] (t :: rest) = true) :
    t = .semi := by
  have hw := not_word_of_starts hg (by simp [symbols]) h
  cases t <;> first | rfl | exact absurd rfl (hw _) | (simp only [starts, Tok.first] at h; exact absurd h (by decide))

theorem pipe_of_starts {t : Tok} {rest : List Tok} (hg : t.Good) (h : starts [124] (t :: rest) = true) :
    t = .pipe := by
  have hw := not_word_of_starts hg (by simp [symbols]) h
  cases t <;> first | rfl | exact absurd rfl (hw _) | (simp only [starts, Tok.first] at h; exact absurd h (by decide))

theorem lparen_of_starts {t : Tok} {rest : List Tok} (hg : t.Good) (h : starts [40] (t :: rest) = true) :
    t = .lparen := by
  have hw := not_word_of_starts hg (by simp [symbols]) h
  cases t <;> first | rfl | exact absurd rfl (hw _) | (simp only [starts, Tok.first] at h; exact absurd h (by decide))

theorem rparen_of_starts {t : Tok} {rest : List Tok} (hg : t.Good) (h : starts [41] (t :: rest) = true) :
    t = .rparen := by
  have hw := not_word_of_starts hg (by simp [symbols]) h
  cases t <;> first | rfl | exact absurd rfl (hw _) | (simp only [starts, Tok.first] at h; exact absurd h (by decide))

/-- With a token left that `peek` finds, `gettoken` at `peek`'s
position moves past exactly that token. -/
theorem peek_gettoken (hs : 0 ∉ s) {ps : Nat} {l : List UInt8} {t : Tok} {rest : List Tok}
    (h : toks s ps = t :: rest) : toks s (gettoken s (peek s ps l).1).ps = rest :=
  (gettoken_cons hs (by rw [toks_peek hs, h])).2.1

/-- The token `peek` found, read off its first byte. -/
theorem toks_of_peek (hs : 0 ∉ s) {ps : Nat} {l : List UInt8} (h : (peek s ps l).2 = true) :
    ∃ t rest, toks s ps = t :: rest ∧ t.Good ∧ starts l (t :: rest) = true := by
  rw [peek_starts hs] at h
  cases ht : toks s ps with
  | nil => rw [ht] at h; cases h
  | cons t rest => exact ⟨t, rest, rfl, toks_good s ps t (by simp [ht]), ht ▸ h⟩

end Peek

end Sh

end Xv6
