import Mathlib.Data.List.Basic

/-!
`user/grep.c`: the Kernighan and Pike matcher `match`, `matchhere`
and `matchstar`, and `grep`'s loop over its 1024-byte buffer, with
`strchr` of `user/ulib.c`.

# Strings

A C string is the list of its bytes before the NUL: `re[0] == '\0'` is
the empty list, `re[1] == '*'` a second element 42. The matcher reads
nothing past the NUL, so the lists are all it sees.

# The buffer

`buf[0..m)` is the list `buf` of the bytes read and not yet consumed,
and `buf[m]` is the NUL `grep` stores after each read. `strchr` scans
from `p` up to the first NUL: the one at `buf[m]`, or a NUL byte of the
input before it.

# Reads

`read(fd, buf+m, sizeof(buf)-m-1)` is given by the input stream and a
schedule: with bytes left and a nonzero request, a read returns between
1 and the requested count, its entry of the schedule clamped into that
range (the whole request once the schedule runs out); it returns 0 at
the end of the stream and for a request of 0 bytes, as `readi`,
`piperead` and `consoleread` do. Each turn of the loop that goes on
reads at least one byte, so `grepLoop` is defined by well-founded
recursion on the bytes left.
-/

namespace Xv6.Grep

-- ================================================================ matcher

mutual

/-- `matchhere(re, text)`: search for `re` at the beginning of `text`. -/
def matchhere : List UInt8 → List UInt8 → Bool
  | [], _ => true
  | c :: re, text =>
      match _h : re with
      -- `re[1] == '*'`
      | 42 :: re' => matchstar c re' text
      | _ =>
          if c = 36 ∧ re = [] then text.isEmpty
          else
            match text with
            | t :: text => (c == 46 || c == t) && matchhere re text
            | [] => false
termination_by re _ => (re.length, 0)
decreasing_by
  all_goals (subst _h; simp only [List.length_cons]; exact Prod.Lex.left _ _ (by omega))

/-- `matchstar(c, re, text)`: search for `c*re` at the beginning of
`text`, the fewest `c`s first. -/
def matchstar (c : UInt8) (re : List UInt8) : List UInt8 → Bool
  | text =>
      matchhere re text ||
        match _h : text with
        | t :: text' => (t == c || c == 46) && matchstar c re text'
        | [] => false
termination_by text => (re.length + 1, text.length)
decreasing_by
  all_goals first
    | exact Prod.Lex.left _ _ (by omega)
    | (subst _h; exact Prod.Lex.right _ (by simp))

end

/-- `match`'s loop: `matchhere` at every position of `text`, the empty
suffix included. -/
@[grind] def matchLoop (re : List UInt8) : List UInt8 → Bool
  | [] => matchhere re []
  | t :: text => matchhere re (t :: text) || matchLoop re text

/-- `match(re, text)`. -/
def «match» (re text : List UInt8) : Bool :=
  match re with
  | 94 :: re => matchhere re text
  | _ => matchLoop re text

-- ================================================================== grep

/-- `strchr(s, c)`: the index of the first `c` before the first NUL. -/
@[grind] def strchr (c : UInt8) : List UInt8 → Option Nat
  | [] => none
  | x :: s => if x = 0 then none else if x = c then some 0 else (strchr c s).map (· + 1)

/-- The inner loop from `p`: the bytes written for the complete lines,
and the bytes from the first incomplete one on. -/
@[grind] def lines (pattern : List UInt8) (p : List UInt8) : List UInt8 × List UInt8 :=
  match _h : strchr 10 p with
  | none => ([], p)
  | some q =>
      let out := if «match» pattern (p.take q) then p.take (q + 1) else []
      let r := lines pattern (p.drop (q + 1))
      (out ++ r.1, r.2)
termination_by p.length
decreasing_by
  have : q < p.length := by
    induction p generalizing q with
    | nil => simp [strchr] at _h
    | cons x p ih =>
        simp only [strchr] at _h
        split_ifs at _h with h0 h1
        · cases _h
          simp
        · obtain ⟨q', hq', rfl⟩ := Option.map_eq_some_iff.1 _h
          simpa using ih q' hq'
  simp only [List.length_drop]
  omega

/-- The count a read returns: the schedule's entry clamped into
`[1, min want (bytes left)]`, or 0 with nothing to give. -/
def readCount (want left : Nat) (sched : List Nat) : Nat :=
  if want = 0 ∨ left = 0 then 0 else min (max (sched.headD want) 1) (min want left)

/-- `grep(pattern, fd)`'s loop with `buf[0..m)` held, on the bytes left
of the stream: what it writes. -/
def grepLoop (pattern : List UInt8) (buf input : List UInt8) (sched : List Nat) : List UInt8 :=
  let n := readCount (1024 - buf.length - 1) input.length sched
  if n = 0 then []
  else
    let r := lines pattern (buf ++ input.take n)
    -- `m -= p - buf; memmove(buf, p, m)`
    r.1 ++ grepLoop pattern r.2 (input.drop n) sched.tail
termination_by input.length
decreasing_by
  have : n ≤ input.length := by simp only [n, readCount]; split_ifs <;> omega
  simp only [List.length_drop]
  omega

/-- `grep(pattern, fd)` on the stream `input`, read by the schedule
`sched`. -/
def grep (pattern input : List UInt8) (sched : List Nat) : List UInt8 := grepLoop pattern [] input sched

end Xv6.Grep
