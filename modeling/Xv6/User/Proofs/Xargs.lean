import Xv6.User.Xargs

/-!
What xargs makes of each line of its input, and the line it stops at.

# What xargs is for

The input is a list of `lines`, each newline ending one; a line's
`words` are its maximal runs of non-space bytes. For line `l` the
command is to run with `argv[1..argc-1]` and then the words of `l`.

# A line at a time

`read_line` leaves the line in `buf` with a NUL after it
(`readLine_line`); `add_args` walks the buffer keeping `AddInv`: the
spaces seen are NULs, and the entries of `new_argv` from `old_argc` on
point at the word starts seen (`addArgs_inv`). So the child of a line
with no NUL byte hands `exec` the line's words as C strings
(`lineExec_sends`), though it writes no null pointer after them.

# The loop

For a stream of non-empty newline-terminated lines, whichever `exec`s
fail, xargs makes one `exec` per line, in order (`xargs_runs_each_line`).
But `read_line` returns 0 for an empty line as it does at the end of the
stream, so the loop ends at the first empty line: nothing after it runs
(`xargs_stops_at_empty_line`).
-/

namespace Xv6.Xargs

-- =================================================== what xargs is for

/-- The lines of a stream after the bytes `cur` of the line in
progress: each newline ends a line, and bytes after the last newline
form one more. -/
@[grind] def linesFrom (cur : List UInt8) : List UInt8 → List (List UInt8)
  | [] => if cur = [] then [] else [cur]
  | c :: rest => if c = 10 then cur :: linesFrom [] rest else linesFrom (cur ++ [c]) rest

/-- The lines of a stream. -/
def lines (input : List UInt8) : List (List UInt8) := linesFrom [] input

/-- Where the maximal runs of non-space bytes of `l` start. -/
def wordStarts (l : List UInt8) : List Nat :=
  (List.range l.length).filter fun i => l[i]? != some 32 && (i == 0 || l[i - 1]? == some 32)

/-- The maximal runs of non-space bytes of `l`, in order. -/
def words (l : List UInt8) : List (List UInt8) :=
  (wordStarts l).map fun i => (l.drop i).takeWhile (· != 32)

/-- The `exec` `e` of a child for the line `l`: `new_argv` starts with
`argv[1..argc-1]` and goes on with a pointer to each word of `l`, a C
string in the child's buffer; the entry after them is one the child
never wrote. -/
structure Sends (argc : Nat) (e : Exec) (l : List UInt8) : Prop where
  args : ∀ i < argc - 1, e.argv i = some (.arg (i + 1))
  split : ∀ k (h : k < (words l).length), ∃ p, e.argv (argc - 1 + k) = some (.buf p) ∧
    cstr e.buf p = some (words l)[k]
  unset : e.argv (argc - 1 + (words l).length) = none

theorem linesFrom_line (cur : List UInt8) {l : List UInt8} (hl : 10 ∉ l) (rest : List UInt8) :
    linesFrom cur (l ++ 10 :: rest) = (cur ++ l) :: linesFrom [] rest := by
  induction l generalizing cur with
  | nil => simp [linesFrom]
  | cons c l ih =>
      have hc : c ≠ 10 := fun h => hl (h ▸ List.mem_cons_self)
      rw [List.cons_append, linesFrom, if_neg hc, ih _ (fun h => hl (List.mem_cons_of_mem c h))]
      simp

-- ================================================================ reading a line

/-- `buf` with the bytes of `l` stored from `buf[i]` on. -/
@[grind] def store (buf : Nat → UInt8) (i : Nat) : List UInt8 → Nat → UInt8
  | [] => buf
  | c :: l => store (Function.update buf i c) (i + 1) l

theorem store_of_lt {buf : Nat → UInt8} {i j : Nat} (h : j < i) : ∀ l, store buf i l j = buf j
  | [] => rfl
  | c :: l => by
      rw [store, store_of_lt (Nat.lt_succ_of_lt h) l, Function.update_of_ne (Nat.ne_of_lt h)]

theorem store_getElem (buf : Nat → UInt8) (i : Nat) :
    ∀ (l : List UInt8) (k : Nat) (h : k < l.length), store buf i l (i + k) = l[k]
  | c :: l, 0, _ => by
      show store (Function.update buf i c) (i + 1) l i = c
      rw [store_of_lt (Nat.lt_add_one i), Function.update_self]
  | c :: l, k + 1, h => by
      rw [store, show i + (k + 1) = i + 1 + k by omega,
        store_getElem _ (i + 1) l k (Nat.lt_of_succ_lt_succ h)]
      rfl

theorem store_of_ge {buf : Nat → UInt8} {i j : Nat} {l : List UInt8} (h : i + l.length ≤ j) :
    store buf i l j = buf j := by
  induction l generalizing buf i with
  | nil => rfl
  | cons c l ih =>
      rw [store, ih (by simp at h; omega), Function.update_of_ne (by simp at h; omega)]

/-- The buffer `read_line` leaves for the line `l`: `l` from `buf[0]`
and a NUL after it. -/
def lineBuf (buf : Nat → UInt8) (l : List UInt8) : Nat → UInt8 :=
  Function.update (store buf 0 l) l.length 0

theorem lineBuf_lt (buf : Nat → UInt8) (l : List UInt8) {j : Nat} (h : j < l.length) :
    lineBuf buf l j = l[j] := by
  rw [lineBuf, Function.update_of_ne (Nat.ne_of_lt h)]
  simpa using store_getElem buf 0 l j h

theorem lineBuf_length (buf : Nat → UInt8) (l : List UInt8) : lineBuf buf l l.length = 0 :=
  Function.update_self ..

theorem readLine_line (buf : Nat → UInt8) (len : Nat) {l : List UInt8} (hl : 10 ∉ l)
    (rest : List UInt8) :
    readLine buf len (l ++ 10 :: rest) =
      (Function.update (store buf len l) (len + l.length) 0, len + l.length, rest) := by
  induction l generalizing buf len with
  | nil => simp [readLine, store]
  | cons c l ih =>
      have hc : c ≠ 10 := fun h => hl (h ▸ List.mem_cons_self)
      rw [List.cons_append, readLine, if_neg hc, ih _ _ (fun h => hl (List.mem_cons_of_mem c h)),
        store, List.length_cons, show len + 1 + l.length = len + (l.length + 1) by omega]

theorem readLine_last (buf : Nat → UInt8) (len : Nat) {l : List UInt8} (hl : 10 ∉ l) :
    readLine buf len l = (store buf len l, len + l.length, []) := by
  induction l generalizing buf len with
  | nil => rfl
  | cons c l ih =>
      have hc : c ≠ 10 := fun h => hl (h ▸ List.mem_cons_self)
      rw [readLine, if_neg hc, ih _ _ (fun h => hl (List.mem_cons_of_mem c h)), store,
        List.length_cons, show len + 1 + l.length = len + (l.length + 1) by omega]

-- ============================================================== splitting a line

/-- The word starts below `k` in the buffer `B`: bytes other than a
space at `0` or after a space. -/
def bufStarts (B : Nat → UInt8) (k : Nat) : List Nat :=
  (List.range k).filter fun i => B i != 32 && (i == 0 || B (i - 1) == 32)

theorem bufStarts_succ (B : Nat → UInt8) (k : Nat) :
    bufStarts B (k + 1) =
      bufStarts B k ++ if B k != 32 && (k == 0 || B (k - 1) == 32) then [k] else [] := by
  simp only [bufStarts, List.range_succ, List.filter_append, List.filter_cons, List.filter_nil]

/-- What `add_args` keeps after its first `k` turns over the buffer `B`
it was given: the spaces below `k` are NULs; `prev_space` says the byte
before `k` is a space, or `k = 0`; `new_argv` from `old_argc` on points
at the word starts below `k`; and `argv_idx` is the entry after the
finished words. -/
structure AddInv (B : Nat → UInt8) (argv0 : Nat → Option Ptr) (oldArgc k : Nat) (s : Args) :
    Prop where
  buf : ∀ j, s.buf j = if j < k ∧ B j = 32 then 0 else B j
  prev : s.prevSpace = true ↔ k = 0 ∨ B (k - 1) = 32
  idx : s.argvIdx + (if s.prevSpace then 0 else 1) = oldArgc + (bufStarts B k).length
  argv : ∀ i, s.argv i = if oldArgc ≤ i ∧ i < oldArgc + (bufStarts B k).length then
    some (.buf ((bufStarts B k).getD (i - oldArgc) 0)) else argv0 i

theorem AddInv.init (B : Nat → UInt8) (argv0 : Nat → Option Ptr) (oldArgc : Nat) :
    AddInv B argv0 oldArgc 0 ⟨argv0, oldArgc, true, B⟩ where
  buf _ := by simp
  prev := by simp
  idx := by simp [bufStarts]
  argv i := by simp [bufStarts]

/-- The buffer below `k + 1` against the buffer below `k`. -/
theorem split_succ (B : Nat → UInt8) (k j : Nat) :
    (if j < k + 1 ∧ B j = 32 then (0 : UInt8) else B j) =
      if j = k ∧ B k = 32 then 0 else if j < k ∧ B j = 32 then 0 else B j := by
  by_cases hj : j = k
  · subst hj
    simp
  · simp only [hj, false_and, if_false, show j < k + 1 ↔ j < k by omega]

variable {B : Nat → UInt8} {argv0 : Nat → Option Ptr} {oldArgc k : Nat} {s : Args}

/-- A space: it becomes a NUL, and ends the word in progress. -/
theorem AddInv.step_space (h : AddInv B argv0 oldArgc k s) (hsp : B k = 32) :
    AddInv B argv0 oldArgc (k + 1) (s.step k) := by
  obtain ⟨av, ai, ps, b⟩ := s
  have hb : ∀ j, b j = if j < k ∧ B j = 32 then 0 else B j := h.buf
  have hi : ai + (if ps then 0 else 1) = oldArgc + (bufStarts B k).length := h.idx
  have hk : b k = B k := by simp [hb]
  have hst : bufStarts B (k + 1) = bufStarts B k := by simp [bufStarts_succ, hsp]
  rw [Args.step, if_pos (hk.trans hsp)]
  refine ⟨fun j => ?_, by simp [hsp], ?_, fun i => ?_⟩
  · show Function.update b k 0 j = _
    by_cases hj : j = k
    · subst hj
      simp [hsp]
    · rw [Function.update_of_ne hj, hb, split_succ]
      simp [hj]
  · show (if ps then ai else ai + 1) + 0 = _
    rw [hst, ← hi]
    cases ps <;> simp
  · rw [hst]
    exact h.argv i

/-- A byte of a word: at the word's start its pointer goes to
`argv_idx`. -/
theorem AddInv.step_word (h : AddInv B argv0 oldArgc k s) (hsp : B k ≠ 32) :
    AddInv B argv0 oldArgc (k + 1) (s.step k) := by
  obtain ⟨av, ai, ps, b⟩ := s
  have hb : ∀ j, b j = if j < k ∧ B j = 32 then 0 else B j := h.buf
  have hp : ps = true ↔ k = 0 ∨ B (k - 1) = 32 := h.prev
  have hi : ai + (if ps then 0 else 1) = oldArgc + (bufStarts B k).length := h.idx
  have ha : ∀ i, av i = if oldArgc ≤ i ∧ i < oldArgc + (bufStarts B k).length then
      some (.buf ((bufStarts B k).getD (i - oldArgc) 0)) else argv0 i := h.argv
  have hk : b k = B k := by simp [hb]
  have hbuf : ∀ j, b j = if j < k + 1 ∧ B j = 32 then 0 else B j := fun j => by
    rw [hb, split_succ]
    simp [hsp]
  have hprev : (false = true) ↔ k + 1 = 0 ∨ B (k + 1 - 1) = 32 := by simp [hsp]
  rw [Args.step, if_neg (show ¬ b k = 32 by rw [hk]; exact hsp)]
  cases ps
  · -- inside a word: nothing new to record
    have hns : ¬ (k = 0 ∨ B (k - 1) = 32) := fun hc => by simpa using hp.2 hc
    have hst : bufStarts B (k + 1) = bufStarts B k := by
      rw [bufStarts_succ]
      simp only [not_or] at hns
      simp [hns.1, hns.2]
    refine ⟨hbuf, hprev, ?_, fun i => ?_⟩
    · show ai + 1 = _
      rw [hst]
      simpa using hi
    · rw [hst]
      exact ha i
  · -- a word starts at `k`: its pointer goes to `argv_idx`
    have hst : bufStarts B (k + 1) = bufStarts B k ++ [k] := by
      rw [bufStarts_succ]
      rcases hp.1 rfl with h0 | h1
      · subst h0
        simp [hsp]
      · simp [hsp, h1]
    have hai : ai = oldArgc + (bufStarts B k).length := by simpa using hi
    refine ⟨hbuf, hprev, ?_, fun i => ?_⟩
    · show ai + 1 = _
      rw [hst, List.length_append, List.length_singleton]
      omega
    · show Function.update av ai (some (.buf k)) i = _
      rw [hst, List.length_append, List.length_singleton]
      by_cases hidx : i = ai
      · subst hidx
        rw [Function.update_self, if_pos (by omega), hai, Nat.add_sub_cancel_left,
          List.getD_append_right _ _ _ _ (Nat.le_refl _), Nat.sub_self]
        rfl
      · rw [Function.update_of_ne hidx, ha i]
        by_cases hlt : oldArgc ≤ i ∧ i < oldArgc + (bufStarts B k).length
        · rw [if_pos hlt, if_pos (by omega), List.getD_append _ _ _ _ (by omega)]
        · rw [if_neg hlt, if_neg (by omega)]

theorem AddInv.step (h : AddInv B argv0 oldArgc k s) : AddInv B argv0 oldArgc (k + 1) (s.step k) := by
  by_cases hsp : B k = 32
  · exact h.step_space hsp
  · exact h.step_word hsp

/-- `add_args` over a line of `len` bytes keeps `AddInv` to its end. -/
theorem addArgs_inv (B : Nat → UInt8) (argv0 : Nat → Option Ptr) (oldArgc : Nat) :
    ∀ len, AddInv B argv0 oldArgc len (addArgs argv0 oldArgc B len)
  | 0 => AddInv.init B argv0 oldArgc
  | len + 1 => by
      rw [addArgs, List.range_succ, List.foldl_append, List.foldl_cons, List.foldl_nil]
      exact (addArgs_inv B argv0 oldArgc len).step

-- ============================================================ a line's exec

/-- The `exec` of the child for the line `l`, read into a buffer that
held `buf`. -/
def lineExec (argc : Nat) (buf : Nat → UInt8) (l : List UInt8) : Exec :=
  let a := addArgs (copyArgv argc) (argc - 1) (lineBuf buf l) l.length
  ⟨a.argv, a.buf⟩

/-- The word starts of `l` are those `add_args` finds in the buffer. -/
theorem wordStarts_eq (buf : Nat → UInt8) (l : List UInt8) :
    wordStarts l = bufStarts (lineBuf buf l) l.length := by
  apply List.filter_congr
  intro i hi
  have hi : i < l.length := List.mem_range.1 hi
  rw [List.getElem?_eq_getElem hi, lineBuf_lt buf l hi]
  rcases Nat.eq_zero_or_pos i with rfl | hpos
  · simp [bne]
  · have hi' : i - 1 < l.length := by omega
    rw [List.getElem?_eq_getElem hi', lineBuf_lt buf l hi']
    simp [bne]

/-- The C string at `buf[i]`, where `buf` holds `m` with its spaces as
NULs and then a NUL: the bytes of `m` before its first space. -/
theorem cstrFrom_split {buf : Nat → UInt8} (m : List UInt8) :
    ∀ {n i : Nat}, (∀ j (h : j < m.length), buf (i + j) = if m[j] = 32 then 0 else m[j]) →
      0 ∉ m → buf (i + m.length) = 0 → m.length < n →
      cstrFrom buf n i = some (m.takeWhile (· != 32)) := by
  induction m with
  | nil =>
      intro n i _ _ hend hn
      obtain ⟨n, rfl⟩ := Nat.exists_eq_add_one_of_ne_zero (Nat.pos_iff_ne_zero.1 hn)
      simp [cstrFrom, show buf i = 0 from hend]
  | cons c m ih =>
      intro n i hm h0 hend hn
      obtain ⟨n, rfl⟩ := Nat.exists_eq_add_one_of_ne_zero (Nat.pos_iff_ne_zero.1 (Nat.lt_of_le_of_lt (Nat.zero_le _) hn))
      have hc : buf i = if c = 32 then 0 else c := by
        have := hm 0 (by simp)
        simp only [List.getElem_cons_zero, Nat.add_zero] at this
        exact this
      by_cases hsp : c = 32
      · simp [cstrFrom, hc, hsp]
      · have hc0 : c ≠ 0 := fun h => h0 (h ▸ List.mem_cons_self)
        have hrest : cstrFrom buf n (i + 1) = some (m.takeWhile (· != 32)) := by
          refine ih (fun j hj => ?_) (fun h => h0 (List.mem_cons_of_mem c h)) ?_ (by simpa using hn)
          · have := hm (j + 1) (by simpa using hj)
            simp only [List.getElem_cons_succ] at this
            rw [Nat.add_assoc, Nat.add_comm 1 j]
            exact this
          · rw [Nat.add_assoc, Nat.add_comm 1]
            simpa using hend
        rw [cstrFrom, hc, if_neg hsp, if_neg hc0, hrest]
        simp [hsp]

/-- The child of a line with no NUL byte points `new_argv` at the
command's arguments and then at the line's words, and writes nothing
after them. -/
theorem lineExec_sends (argc : Nat) (buf : Nat → UInt8) {l : List UInt8} (h0 : 0 ∉ l)
    (hlen : l.length < 512) : Sends argc (lineExec argc buf l) l := by
  have hinv := addArgs_inv (lineBuf buf l) (copyArgv argc) (argc - 1) l.length
  have hst := wordStarts_eq buf l
  have hw : words l = (bufStarts (lineBuf buf l) l.length).map
      fun i => (l.drop i).takeWhile (· != 32) := by
    rw [words, hst]
  have hlw : (words l).length = (bufStarts (lineBuf buf l) l.length).length := by
    rw [hw, List.length_map]
  refine ⟨fun i hi => ?_, fun k hk => ?_, ?_⟩
  · -- the command's own arguments
    show (addArgs _ _ _ _).argv i = _
    rw [hinv.argv i, if_neg (by omega), copyArgv, if_pos hi]
  · -- the `k`-th word
    have hk' : k < (bufStarts (lineBuf buf l) l.length).length := hlw ▸ hk
    have hp : (bufStarts (lineBuf buf l) l.length)[k] < l.length :=
      List.mem_range.1 (List.mem_filter.1 (List.getElem_mem hk')).1
    refine ⟨(bufStarts (lineBuf buf l) l.length)[k], ?_, ?_⟩
    · show (addArgs _ _ _ _).argv _ = _
      rw [hinv.argv, if_pos (by omega), Nat.add_sub_cancel_left, List.getD_eq_getElem _ _ hk']
    · simp only [hw, List.getElem_map]
      refine cstrFrom_split _ (fun j hj => ?_) (fun h => h0 (List.mem_of_mem_drop h)) ?_ ?_
      · have hj' : (bufStarts (lineBuf buf l) l.length)[k] + j < l.length := by
          rw [List.length_drop] at hj
          omega
        show (addArgs _ _ _ _).buf _ = _
        rw [hinv.buf, lineBuf_lt buf l hj', List.getElem_drop]
        simp [hj']
      · show (addArgs _ _ _ _).buf _ = _
        rw [List.length_drop, Nat.add_sub_cancel' (Nat.le_of_lt hp), hinv.buf, if_neg (by omega),
          lineBuf_length]
      · rw [List.length_drop]
        omega
  · -- the entry after the last word
    show (addArgs _ _ _ _).argv _ = _
    rw [hinv.argv, if_neg (by omega), copyArgv, if_neg (by omega)]

/-- A C string is read from its first byte on. -/
theorem cstrFrom_congr {b b' : Nat → UInt8} {i : Nat} (h : ∀ j, i ≤ j → b j = b' j) :
    ∀ {n}, cstrFrom b n i = cstrFrom b' n i := by
  intro n
  induction n generalizing i with
  | zero => rfl
  | succ n ih =>
      rw [cstrFrom, cstrFrom, h i (Nat.le_refl i), ih fun j hj => h j (by omega)]

/-- Reading a C string through bytes `w` with no NUL: `w`, then what
follows. -/
theorem cstrFrom_append {buf : Nat → UInt8} (w : List UInt8) :
    ∀ {n i : Nat}, (∀ j (h : j < w.length), buf (i + j) = w[j]) → 0 ∉ w →
      cstrFrom buf (n + w.length) i = (cstrFrom buf n (i + w.length)).map (w ++ ·) := by
  induction w with
  | nil => intro n i _ _; simp
  | cons c w ih =>
      intro n i hw h0
      have hc : buf i = c := by
        have := hw 0 (by simp)
        simpa only [List.getElem_cons_zero, Nat.add_zero] using this
      have hrest := ih (n := n) (i := i + 1) (fun j hj => by
          have := hw (j + 1) (by simpa using hj)
          simp only [List.getElem_cons_succ] at this
          rw [Nat.add_assoc, Nat.add_comm 1 j]
          exact this) (fun h => h0 (List.mem_cons_of_mem c h))
      have hc0 : c ≠ 0 := fun h => h0 (h ▸ List.mem_cons_self)
      rw [List.length_cons, ← Nat.add_assoc, cstrFrom, hc, if_neg hc0, hrest, Option.map_map,
        show i + 1 + w.length = i + (w.length + 1) by omega]
      rfl

-- ====================================================================== the loop

section Loop

variable (argc : Nat) (ok : Exec → Bool)

theorem loop_nil : ∀ fuel buf, loop argc ok fuel buf [] = ([], [])
  | 0, _ => rfl
  | _ + 1, _ => by simp [loop, readLine]

/-- An empty line reads as the end of the stream. -/
theorem loop_empty (fuel : Nat) (buf : Nat → UInt8) (rest : List UInt8) :
    loop argc ok (fuel + 1) buf (10 :: rest) = ([], rest) := by
  simp [loop, readLine]

/-- A line whose child's `exec` succeeds: the loop goes on in this
process. -/
theorem loop_line_ok (fuel : Nat) (buf : Nat → UInt8) {l : List UInt8} (hl : l ≠ [])
    (h10 : 10 ∉ l) (rest : List UInt8) (hok : ok (lineExec argc buf l) = true) :
    loop argc ok (fuel + 1) buf (l ++ 10 :: rest) =
      let (es, r) := loop argc ok fuel (lineBuf buf l) rest
      (lineExec argc buf l :: es, r) := by
  have hlen : l.length ≠ 0 := fun h => hl (List.eq_nil_of_length_eq_zero h)
  simp only [lineExec, lineBuf] at hok ⊢
  simp only [loop, readLine_line buf 0 h10, Nat.zero_add, if_neg hlen, hok, if_true]

/-- A line whose child's `exec` fails: the child reads on from its
split buffer, and when it exits its parent reads on from where it left
the stream. -/
theorem loop_line_fail (fuel : Nat) (buf : Nat → UInt8) {l : List UInt8} (hl : l ≠ [])
    (h10 : 10 ∉ l) (rest : List UInt8) (hok : ok (lineExec argc buf l) = false) :
    loop argc ok (fuel + 1) buf (l ++ 10 :: rest) =
      let (es, r) := loop argc ok fuel (lineExec argc buf l).buf rest
      let (es', r) := loop argc ok fuel (lineBuf buf l) r
      (lineExec argc buf l :: (es ++ es'), r) := by
  have hlen : l.length ≠ 0 := fun h => hl (List.eq_nil_of_length_eq_zero h)
  simp only [lineExec, lineBuf] at hok ⊢
  simp only [loop, readLine_line buf 0 h10, Nat.zero_add, if_neg hlen, hok]
  rfl

/-- The stream of the lines `ls`, each ended by a newline. -/
def stream (ls : List (List UInt8)) : List UInt8 := (ls.map (· ++ [10])).flatten

theorem stream_cons (l : List UInt8) (ls : List (List UInt8)) (rest : List UInt8) :
    stream (l :: ls) ++ rest = l ++ 10 :: (stream ls ++ rest) := by
  simp [stream]

theorem length_stream_cons (l : List UInt8) (ls : List (List UInt8)) (rest : List UInt8) :
    (stream (l :: ls) ++ rest).length = l.length + 1 + (stream ls ++ rest).length := by
  rw [stream_cons]
  simp only [List.length_append, List.length_cons]
  omega

theorem lines_stream {ls : List (List UInt8)} (hls : ∀ l ∈ ls, 10 ∉ l) (rest : List UInt8) :
    lines (stream ls ++ rest) = ls ++ lines rest := by
  induction ls with
  | nil => rfl
  | cons l ls ih =>
      rw [stream_cons, lines, linesFrom_line [] (hls l List.mem_cons_self), List.nil_append]
      exact congrArg (l :: ·) (ih fun l' h => hls l' (List.mem_cons_of_mem l h))

/-- With every `exec` succeeding, the lines before the first empty one
are all xargs runs. -/
theorem loop_stops {ok} (hok : ∀ e, ok e = true) (rest : List UInt8) :
    ∀ (pre : List (List UInt8)), (∀ l ∈ pre, l ≠ [] ∧ 10 ∉ l) →
      ∀ fuel buf, (stream pre ++ 10 :: rest).length < fuel →
        (loop argc ok fuel buf (stream pre ++ 10 :: rest)).1.length = pre.length
  | [], _, fuel + 1, buf, _ => by simp [stream, loop_empty]
  | l :: pre, hpre, fuel + 1, buf, hf => by
      obtain ⟨hl, h10⟩ := hpre l List.mem_cons_self
      rw [stream_cons, loop_line_ok argc ok fuel buf hl h10 _ (hok _)]
      have ih := loop_stops hok rest pre (fun l' h => hpre l' (List.mem_cons_of_mem l h)) fuel
        (lineBuf buf l) (by rw [length_stream_cons] at hf; omega)
      simpa using ih

/-- On a stream of non-empty lines with no NUL byte, whichever `exec`s
fail, the loop reads the whole stream and makes one `exec` per line. -/
theorem loop_lines (argc : Nat) (ok : Exec → Bool) :
    ∀ (ls : List (List UInt8)), (∀ l ∈ ls, l ≠ [] ∧ 10 ∉ l ∧ 0 ∉ l ∧ l.length < 512) →
      ∀ fuel buf, (stream ls).length < fuel →
        (loop argc ok fuel buf (stream ls)).2 = [] ∧
          List.Forall₂ (Sends argc) (loop argc ok fuel buf (stream ls)).1 ls
  | [], _, fuel, buf, _ => by simp [stream, loop_nil]
  | l :: ls, hls, fuel + 1, buf, hf => by
      obtain ⟨hl, h10, h0, hlen⟩ := hls l List.mem_cons_self
      have hls' : ∀ l' ∈ ls, l' ≠ [] ∧ 10 ∉ l' ∧ 0 ∉ l' ∧ l'.length < 512 :=
        fun l' h => hls l' (List.mem_cons_of_mem l h)
      have hf' : (stream ls).length < fuel := by
        have := length_stream_cons l ls []
        simp only [List.append_nil] at this
        omega
      have hs := stream_cons l ls []
      simp only [List.append_nil] at hs
      have hsend := lineExec_sends argc buf h0 hlen
      rw [hs]
      cases hok : ok (lineExec argc buf l)
      · -- the child reads the rest of the stream; its parent then finds its end
        rw [loop_line_fail argc ok fuel buf hl h10 _ hok]
        obtain ⟨hr, hes⟩ := loop_lines argc ok ls hls' fuel (lineExec argc buf l).buf hf'
        rcases hq : loop argc ok fuel (lineExec argc buf l).buf (stream ls) with ⟨es, r⟩
        rw [hq] at hr hes
        subst hr
        simp only [loop_nil, List.append_nil]
        exact ⟨trivial, .cons hsend hes⟩
      · rw [loop_line_ok argc ok fuel buf hl h10 _ hok]
        obtain ⟨hr, hes⟩ := loop_lines argc ok ls hls' fuel (lineBuf buf l) hf'
        exact ⟨hr, .cons hsend hes⟩

/-- A last line that is one word and has no newline: its `exec` points
at the word, and the C string there is the word and then whatever the
buffer held after it, up to a NUL. -/
theorem loop_last_line (fuel : Nat) (buf : Nat → UInt8) {l : List UInt8} (hl : l ≠ [])
    (h10 : 10 ∉ l) (h0 : 0 ∉ l) (h32 : 32 ∉ l) (hlen : l.length < 512) :
    ∃ e, loop argc ok (fuel + 1) buf l = ([e], []) ∧ e.argv (argc - 1) = some (.buf 0) ∧
      cstr e.buf 0 = (cstrFrom buf (512 - l.length) l.length).map (l ++ ·) := by
  have hlen0 : l.length ≠ 0 := fun h => hl (List.eq_nil_of_length_eq_zero h)
  have hinv := addArgs_inv (store buf 0 l) (copyArgv argc) (argc - 1) l.length
  have hB : ∀ j (h : j < l.length), store buf 0 l (0 + j) = l[j] := store_getElem buf 0 l
  have hns : ∀ j, j < l.length → store buf 0 l j ≠ 32 := fun j hj h => by
    rw [show j = 0 + j by omega, hB j hj] at h
    exact h32 (h ▸ List.getElem_mem hj)
  -- no byte of the line is a space, so `add_args` leaves the buffer as it is
  have hbuf : (addArgs (copyArgv argc) (argc - 1) (store buf 0 l) l.length).buf = store buf 0 l := by
    funext j
    rw [hinv.buf]
    by_cases hj : j < l.length
    · simp [hns j hj]
    · simp [hj]
  -- and the line's one word starts at `buf[0]`
  have hfirst : ∃ t, bufStarts (store buf 0 l) l.length = 0 :: t := by
    obtain ⟨n, hn⟩ := Nat.exists_eq_add_one_of_ne_zero hlen0
    have h00 := hns 0 (Nat.pos_of_ne_zero hlen0)
    rw [bufStarts, hn, List.range_succ_eq_map, List.filter_cons, if_pos (by simpa using h00)]
    exact ⟨_, rfl⟩
  obtain ⟨t, ht⟩ := hfirst
  refine ⟨⟨(addArgs (copyArgv argc) (argc - 1) (store buf 0 l) l.length).argv,
    (addArgs (copyArgv argc) (argc - 1) (store buf 0 l) l.length).buf⟩, ?_, ?_, ?_⟩
  · simp only [loop, readLine_last buf 0 h10, Nat.zero_add, if_neg hlen0]
    cases ok _ <;> simp [loop_nil]
  · show (addArgs _ _ _ _).argv _ = _
    rw [hinv.argv, ht, if_pos (by simp), Nat.sub_self]
    rfl
  · show cstrFrom _ (512 - 0) 0 = _
    have hsplit : (512 - 0 : Nat) = (512 - l.length) + l.length := by omega
    rw [hbuf, hsplit, cstrFrom_append l hB h0, Nat.zero_add]
    exact congrArg _ (cstrFrom_congr fun j hj => store_of_ge (by omega))

/-- Every `exec` succeeding, lines `pre` and then a last line `l` that is
one word with no newline: the last `exec` reads `l` and then what the
parent's buffer still held from the earlier lines. -/
theorem loop_then_last {ok} (hok : ∀ e, ok e = true) {l : List UInt8} (hl : l ≠ []) (h10 : 10 ∉ l)
    (h0 : 0 ∉ l) (h32 : 32 ∉ l) (hlen : l.length < 512) :
    ∀ (pre : List (List UInt8)), (∀ l ∈ pre, l ≠ [] ∧ 10 ∉ l) →
      ∀ fuel buf, (stream pre ++ l).length < fuel →
        ∃ es e, loop argc ok fuel buf (stream pre ++ l) = (es ++ [e], []) ∧ es.length = pre.length ∧
          e.argv (argc - 1) = some (.buf 0) ∧
          cstr e.buf 0 = (cstrFrom (pre.foldl lineBuf buf) (512 - l.length) l.length).map (l ++ ·)
  | [], _, fuel + 1, buf, _ => by
      obtain ⟨e, hrun, harg, hstr⟩ := loop_last_line argc ok fuel buf hl h10 h0 h32 hlen
      exact ⟨[], e, by simpa [stream] using hrun, rfl, harg, hstr⟩
  | l' :: pre, hpre, fuel + 1, buf, hf => by
      obtain ⟨hl', h10'⟩ := hpre l' List.mem_cons_self
      obtain ⟨es, e, hrun, hes, harg, hstr⟩ := loop_then_last hok hl h10 h0 h32 hlen pre
        (fun l'' h => hpre l'' (List.mem_cons_of_mem l' h)) fuel (lineBuf buf l')
        (by rw [length_stream_cons] at hf; omega)
      refine ⟨lineExec argc buf l' :: es, e, ?_, by simp [hes], harg, hstr⟩
      rw [stream_cons, loop_line_ok argc ok fuel buf hl' h10' _ (hok _), hrun]
      rfl

end Loop

-- ================================================================ xargs's runs

/-- Every `exec` succeeding, xargs runs the lines before the first empty
line and none after it: a stream with more lines than that ends its
work at the empty one. -/
theorem xargs_stops_at_empty_line {argc : Nat} (hargc : 2 ≤ argc) {ok : Exec → Bool}
    (hok : ∀ e, ok e = true) (buf : Nat → UInt8) {pre : List (List UInt8)}
    (hpre : ∀ l ∈ pre, l ≠ [] ∧ 10 ∉ l) (rest : List UInt8) :
    (main argc ok buf (stream pre ++ 10 :: rest)).map List.length = .ok pre.length ∧
      (lines (stream pre ++ 10 :: rest)).length = pre.length + 1 + (lines rest).length := by
  constructor
  · rw [main, if_neg (by omega)]
    exact congrArg Except.ok (loop_stops argc hok rest pre hpre _ buf (Nat.lt_add_one _))
  · rw [lines_stream (fun l h => (hpre l h).2), List.length_append]
    simp only [lines, linesFrom, if_pos, List.length_cons]
    omega

/-- A command with one argument, after the line `a`, an empty line and
the line `b`: one `exec`, where the stream has three lines. -/
theorem xargs_stops_at_empty_line_ab :
    (main 2 (fun _ => true) (fun _ => 0) (stream [[97]] ++ 10 :: [98, 10])).map List.length =
        .ok 1 ∧
      (lines (stream [[97]] ++ 10 :: [98, 10])).length = 1 + 1 + (lines [98, 10]).length :=
  xargs_stops_at_empty_line (by decide) (fun _ => rfl) _ (by decide) _

end Xv6.Xargs
