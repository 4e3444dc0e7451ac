import Xv6.Ns.Defs
import Xv6.Lib.Bytes

/-!
The shell's parser (user/sh.c): `gettoken`, `peek`, the recursive
descent from `parsecmd` to `parseexec`, and `nulterminate`.

# Conventions

* The command line `s` is the list of its bytes before the NUL, and a
  pointer into it is a position: `*ps` is `get s ps`, the NUL at `es`,
  which is `s.length`.
* `panic(msg)` is `.error msg`; `parsecmd`'s "leftovers" message goes to
  fd 2 before its `panic("syntax")` and is left out.
* A `struct cmd *` is the tree `Cmd` it points to. An `execcmd` keeps
  the positions `(argv[i], eargv[i])` of its arguments; `parseexec`
  fills them in through its pointer to the `execcmd` after the
  `redircmd`s of its redirections wrap it (`Cmd.setArgv`).
* `malloc` does not fail.

# Termination

Each parser returns where it left `*ps`, never before where it started
(`After`). A call from `parseline` to itself, from `parsepipe` to
itself and from `parseblock` to `parseline` comes after a `gettoken`
that consumed a byte; the other calls stay at the position and go down
the order `parseline`, `parsepipe`, `parseexec`, `parseblock`.
-/

namespace Xv6

namespace Sh

/-- `MAXARGS`. -/
def MAXARGS : Nat := 10

/-- `whitespace`: " \t\r\n\v". -/
def whitespace : List UInt8 := [32, 9, 13, 10, 11]

/-- `symbols`: "<|>&;()". -/
def symbols : List UInt8 := [60, 124, 62, 38, 59, 40, 41]

/-- `strchr(str, c) != 0` for a literal `str`: ulib's `strchr` never
finds the NUL. -/
def strchr (str : List UInt8) (c : UInt8) : Bool := str.contains c

/-- `*s` at position `i`. -/
def get (s : List UInt8) (i : Nat) : UInt8 := s.getD i 0

/-- `while(s < es && strchr(whitespace, *s)) s++`. -/
@[grind] def skipWs (s : List UInt8) (i : Nat) : Nat :=
  if i < s.length ∧ strchr whitespace (get s i) then skipWs s (i + 1) else i
termination_by s.length - i

/-- The word loop of `gettoken`:
`while(s < es && !strchr(whitespace, *s) && !strchr(symbols, *s)) s++`. -/
@[grind] def wordEnd (s : List UInt8) (i : Nat) : Nat :=
  if i < s.length ∧ !strchr whitespace (get s i) ∧ !strchr symbols (get s i) then wordEnd s (i + 1) else i
termination_by s.length - i

/-- `gettoken`'s `switch(*s)` at `q`: `ret`, and where `s` stops. -/
def token (s : List UInt8) (q : Nat) : UInt8 × Nat :=
  let c := get s q
  if c = 0 then (0, q)
  else if c = 124 ∨ c = 40 ∨ c = 41 ∨ c = 59 ∨ c = 38 ∨ c = 60 then (c, q + 1)
  else if c = 62 then
    -- `>>` is `+`
    if get s (q + 1) = 62 then (43, q + 2) else (62, q + 1)
  else (97, wordEnd s q)

/-- What `gettoken(ps, es, &q, &eq)` returns, the `q` and `eq` it sets,
and the new `*ps`. -/
structure Got where
  ret : UInt8
  q : Nat
  eq : Nat
  ps : Nat

/-- `gettoken(ps, es, q, eq)`. -/
def gettoken (s : List UInt8) (ps : Nat) : Got :=
  let q := skipWs s ps
  let t := token s q
  ⟨t.1, q, t.2, skipWs s t.2⟩

/-- `peek(ps, es, toks)`: the new `*ps`, and whether the byte there is
one of `toks`. -/
def peek (s : List UInt8) (ps : Nat) (toks : List UInt8) : Nat × Bool :=
  let p := skipWs s ps
  (p, get s p != 0 && strchr toks (get s p))

-- ============================================================ positions

theorem skipWs_le (s : List UInt8) (i : Nat) : i ≤ skipWs s i := by
  rw [skipWs]
  split
  · have := skipWs_le s (i + 1)
    omega
  · exact Nat.le_refl i
termination_by s.length - i

theorem skipWs_le_length {s : List UInt8} {i : Nat} (h : i ≤ s.length) : skipWs s i ≤ s.length := by
  rw [skipWs]
  split
  · exact skipWs_le_length (by omega)
  · exact h
termination_by s.length - i

theorem wordEnd_le (s : List UInt8) (i : Nat) : i ≤ wordEnd s i := by
  rw [wordEnd]
  split
  · have := wordEnd_le s (i + 1)
    omega
  · exact Nat.le_refl i
termination_by s.length - i

theorem wordEnd_le_length {s : List UInt8} {i : Nat} (h : i ≤ s.length) : wordEnd s i ≤ s.length := by
  rw [wordEnd]
  split
  · exact wordEnd_le_length (by omega)
  · exact h
termination_by s.length - i

/-- A byte that is not the NUL lies before `es`. -/
theorem lt_length_of_get {s : List UInt8} {i : Nat} (h : get s i ≠ 0) : i < s.length := by
  by_contra hi
  exact h (List.getD_eq_default _ _ (by omega))

theorem token_nul {s : List UInt8} {q : Nat} (h : get s q = 0) : token s q = (0, q) := by
  simp only [token, if_pos h]

theorem token_ret_ne_zero {s : List UInt8} {q : Nat} (h : get s q ≠ 0) : (token s q).1 ≠ 0 := by
  by_cases h1 : get s q = 124 ∨ get s q = 40 ∨ get s q = 41 ∨ get s q = 59 ∨ get s q = 38 ∨ get s q = 60
  · simp only [token, if_neg h, if_pos h1]
    exact h
  by_cases h2 : get s q = 62
  · by_cases h3 : get s (q + 1) = 62
    · simp only [token, if_neg h, if_neg h1, if_pos h2, if_pos h3]
      decide
    · simp only [token, if_neg h, if_neg h1, if_pos h2, if_neg h3]
      decide
  · simp only [token, if_neg h, if_neg h1, if_neg h2]
    decide

/-- The `switch` stays within the string, and moves past a byte that
is neither the NUL nor whitespace. -/
theorem token_bounds {s : List UInt8} {q : Nat} (hq : q ≤ s.length) :
    q ≤ (token s q).2 ∧ (token s q).2 ≤ s.length ∧
      (get s q ≠ 0 → strchr whitespace (get s q) = false → q < (token s q).2) := by
  by_cases h0 : get s q = 0
  · rw [token_nul h0]
    exact ⟨Nat.le_refl q, hq, fun h => absurd h0 h⟩
  have hlt := lt_length_of_get h0
  by_cases h1 : get s q = 124 ∨ get s q = 40 ∨ get s q = 41 ∨ get s q = 59 ∨ get s q = 38 ∨ get s q = 60
  · simp only [token, if_neg h0, if_pos h1]
    exact ⟨by omega, by omega, fun _ _ => by omega⟩
  by_cases h2 : get s q = 62
  · by_cases h3 : get s (q + 1) = 62
    · have := lt_length_of_get (s := s) (i := q + 1) (by rw [h3]; decide)
      simp only [token, if_neg h0, if_neg h1, if_pos h2, if_pos h3]
      exact ⟨by omega, by omega, fun _ _ => by omega⟩
    · simp only [token, if_neg h0, if_neg h1, if_pos h2, if_neg h3]
      exact ⟨by omega, by omega, fun _ _ => by omega⟩
  · -- a word: the loop takes at least the first byte
    simp only [token, if_neg h0, if_neg h1, if_neg h2]
    refine ⟨wordEnd_le s q, wordEnd_le_length hq, fun _ hw => ?_⟩
    have hsym : strchr symbols (get s q) = false := by
      simp only [strchr, symbols, List.contains_cons, List.contains_nil, Bool.or_false, Bool.or_eq_false_iff,
        beq_eq_false_iff_ne, ne_eq]
      simp only [not_or] at h1
      exact ⟨h1.2.2.2.2.2, h1.1, h2, h1.2.2.2.2.1, h1.2.2.2.1, h1.2.1, h1.2.2.1⟩
    rw [wordEnd, if_pos ⟨hlt, by simp [hw], by simp [hsym]⟩]
    have := wordEnd_le s (q + 1)
    omega

theorem gettoken_le (s : List UInt8) (ps : Nat) : ps ≤ (gettoken s ps).ps := by
  by_cases hps : ps ≤ s.length
  · have h1 := skipWs_le s ps
    have h2 := (token_bounds (skipWs_le_length hps)).1
    have h3 := skipWs_le s (token s (skipWs s ps)).2
    show ps ≤ skipWs s (token s (skipWs s ps)).2
    omega
  · -- past the end nothing moves
    have hs : skipWs s ps = ps := by
      rw [skipWs, if_neg (by omega)]
    show ps ≤ skipWs s (token s (skipWs s ps)).2
    rw [hs, token_nul (List.getD_eq_default _ _ (by omega)), hs]

theorem gettoken_le_length {s : List UInt8} {ps : Nat} (h : ps ≤ s.length) : (gettoken s ps).ps ≤ s.length :=
  skipWs_le_length (token_bounds (skipWs_le_length h)).2.1

/-- `skipWs` stops at a byte that is not whitespace, or at `es`. -/
theorem skipWs_stop (s : List UInt8) (i : Nat) :
    ¬(skipWs s i < s.length ∧ strchr whitespace (get s (skipWs s i)) = true) := by
  rw [skipWs]
  split
  · exact skipWs_stop s (i + 1)
  · assumption
termination_by s.length - i

/-- Inside the line, the byte `skipWs` stops at is not whitespace. -/
theorem skipWs_not_ws {s : List UInt8} {i : Nat} (h : skipWs s i < s.length) :
    strchr whitespace (get s (skipWs s i)) = false :=
  Bool.eq_false_iff.2 fun hw => skipWs_stop s i ⟨h, hw⟩

theorem skipWs_skipWs (s : List UInt8) (i : Nat) : skipWs s (skipWs s i) = skipWs s i := by
  rw [skipWs, if_neg (skipWs_stop s i)]

/-- A `gettoken` that returns a token consumes it. -/
theorem gettoken_lt {s : List UInt8} {ps : Nat} (h : (gettoken s ps).ret ≠ 0) :
    ps < (gettoken s ps).ps ∧ (gettoken s ps).ps ≤ s.length := by
  have h0 : get s (skipWs s ps) ≠ 0 := fun h0 => h (by simp only [gettoken, token_nul h0])
  have hlt := lt_length_of_get h0
  have hps := skipWs_le s ps
  have hws := skipWs_not_ws hlt
  obtain ⟨-, hle, hadv⟩ := token_bounds (s := s) (q := skipWs s ps) (by omega)
  have hadv := hadv h0 hws
  have he := skipWs_le s (token s (skipWs s ps)).2
  exact ⟨by show ps < skipWs s (token s (skipWs s ps)).2; omega, skipWs_le_length hle⟩

/-- After a `peek` that found one of its bytes, `gettoken` consumes it. -/
theorem gettoken_peek_lt {s : List UInt8} {ps : Nat} {toks : List UInt8} (h : (peek s ps toks).2 = true) :
    ps < (gettoken s (peek s ps toks).1).ps ∧ (gettoken s (peek s ps toks).1).ps ≤ s.length := by
  simp only [peek, Bool.and_eq_true, bne_iff_ne, ne_eq] at h
  have hret : (gettoken s (skipWs s ps)).ret ≠ 0 := by
    show (token s (skipWs s (skipWs s ps))).1 ≠ 0
    rw [skipWs_skipWs]
    exact token_ret_ne_zero h.1
  have hlt := gettoken_lt hret
  have hps := skipWs_le s ps
  exact ⟨by show ps < (gettoken s (skipWs s ps)).ps; omega, hlt.2⟩

theorem peek_le (s : List UInt8) (ps : Nat) (toks : List UInt8) : ps ≤ (peek s ps toks).1 := skipWs_le s ps

theorem peek_le_length {s : List UInt8} {ps : Nat} (toks : List UInt8) (h : ps ≤ s.length) :
    (peek s ps toks).1 ≤ s.length :=
  skipWs_le_length h

theorem peek_gettoken_le (s : List UInt8) (ps : Nat) (toks : List UInt8) :
    ps ≤ (gettoken s (peek s ps toks).1).ps :=
  Nat.le_trans (peek_le s ps toks) (gettoken_le s _)

-- ============================================================= commands

/-- A parsed command; a position is a pointer into the command line. -/
inductive Cmd
  /-- `execcmd`: `(argv[i], eargv[i])` for each argument. -/
  | exec (argv : List (Nat × Nat))
  /-- `redircmd(cmd, file, efile, mode, fd)`. -/
  | redir (cmd : Cmd) (file efile mode fd : Nat)
  /-- `pipecmd(left, right)`. -/
  | pipe (left right : Cmd)
  /-- `listcmd(left, right)`. -/
  | list (left right : Cmd)
  /-- `backcmd(cmd)`. -/
  | back (cmd : Cmd)
  deriving DecidableEq, Repr

/-- `cmd->argv[argc] = q; cmd->eargv[argc] = eq`, through the pointer
`parseexec` keeps to the `execcmd` that its redirections wrap. -/
@[grind] def Cmd.setArgv : Cmd → List (Nat × Nat) → Cmd
  | .exec _, argv => .exec argv
  | .redir c file efile mode fd, argv => .redir (c.setArgv argv) file efile mode fd
  | c, _ => c

/-- `parseredirs(cmd, ps, es)`: the command, and the new `*ps`. -/
@[grind] def parseredirs (s : List UInt8) (cmd : Cmd) (ps : Nat) : Except String (Cmd × Nat) :=
  if _h : (peek s ps [60, 62]).2 then
    let tok := gettoken s (peek s ps [60, 62]).1
    let f := gettoken s tok.ps
    if f.ret ≠ 97 then .error "missing file for redirection"
    else
      let cmd :=
        if tok.ret = 60 then Cmd.redir cmd f.q f.eq O_RDONLY 0
        else if tok.ret = 62 then Cmd.redir cmd f.q f.eq (O_WRONLY ||| O_CREATE ||| O_TRUNC) 1
        else if tok.ret = 43 then Cmd.redir cmd f.q f.eq (O_WRONLY ||| O_CREATE) 1
        else cmd
      parseredirs s cmd f.ps
  else .ok (cmd, (peek s ps [60, 62]).1)
termination_by s.length - ps
decreasing_by
  have h1 := gettoken_peek_lt _h
  have h2 := gettoken_le s (gettoken s (peek s ps [60, 62]).1).ps
  have h3 := gettoken_le_length h1.2
  omega

theorem parseredirs_le {s : List UInt8} {cmd : Cmd} {ps : Nat} {c : Cmd} {j : Nat}
    (h : parseredirs s cmd ps = .ok (c, j)) : ps ≤ j ∧ (ps ≤ s.length → j ≤ s.length) := by
  -- one case per turn of the loop
  fun_induction parseredirs s cmd ps with
  | case1 cmd ps hp tok f hf =>
      cases h
  | case2 cmd ps hp tok f hf cmd' ih =>
      have h1 : ps < tok.ps ∧ tok.ps ≤ s.length := gettoken_peek_lt hp
      have h2 : tok.ps ≤ f.ps := gettoken_le s tok.ps
      have h3 : f.ps ≤ s.length := gettoken_le_length h1.2
      have := ih h
      omega
  | case3 cmd ps hp =>
      cases h
      exact ⟨peek_le s ps _, peek_le_length _⟩

/-- `parseexec`'s loop, with the arguments read so far and `ret` the
command built so far: the arguments, the command and the new `*ps`. -/
@[grind] def execLoop (s : List UInt8) (argv : List (Nat × Nat)) (ret : Cmd) (ps : Nat) :
    Except String (List (Nat × Nat) × Cmd × Nat) :=
  if (peek s ps [124, 41, 38, 59]).2 then .ok (argv, ret, (peek s ps [124, 41, 38, 59]).1)
  else
    let t := gettoken s (peek s ps [124, 41, 38, 59]).1
    if _h0 : t.ret = 0 then .ok (argv, ret, t.ps)
    else if t.ret ≠ 97 then .error "syntax"
    else
      let argv := argv ++ [(t.q, t.eq)]
      if argv.length ≥ MAXARGS then .error "too many args"
      else
        match _h : parseredirs s ret t.ps with
        | .error e => .error e
        | .ok (ret, j) => execLoop s argv ret j
termination_by s.length - ps
decreasing_by
  have h1 : (peek s ps [124, 41, 38, 59]).1 < t.ps ∧ t.ps ≤ s.length := gettoken_lt _h0
  have h2 := peek_le s ps [124, 41, 38, 59]
  have h3 : t.ps ≤ j ∧ _ := parseredirs_le _h
  omega

theorem execLoop_le {s : List UInt8} {argv : List (Nat × Nat)} {ret : Cmd} {ps : Nat}
    {argv' : List (Nat × Nat)} {c : Cmd} {j : Nat} (h : execLoop s argv ret ps = .ok (argv', c, j)) :
    ps ≤ j ∧ (ps ≤ s.length → j ≤ s.length) := by
  fun_induction execLoop s argv ret ps with
  | case1 argv ret ps hp =>
      cases h
      exact ⟨peek_le s ps _, peek_le_length _⟩
  | case2 argv ret ps hp t h0 =>
      cases h
      exact ⟨Nat.le_trans (peek_le s ps _) (gettoken_le s _), fun hl => gettoken_le_length (peek_le_length _ hl)⟩
  | case3 => cases h
  | case4 => cases h
  | case5 => cases h
  | case6 argv ret ps hp t h0 h97 argv₁ hmax ret₁ j₁ hr ih =>
      have h1 : (peek s ps [124, 41, 38, 59]).1 < t.ps ∧ t.ps ≤ s.length := gettoken_lt h0
      have h2 := peek_le s ps [124, 41, 38, 59]
      have h3 := parseredirs_le hr
      have := ih h
      omega

/-- `while(peek(ps, es, "&")) { gettoken(ps, es, 0, 0); cmd = backcmd(cmd); }`. -/
@[grind] def backLoop (s : List UInt8) (cmd : Cmd) (ps : Nat) : Cmd × Nat :=
  if _h : (peek s ps [38]).2 then backLoop s (.back cmd) (gettoken s (peek s ps [38]).1).ps
  else (cmd, (peek s ps [38]).1)
termination_by s.length - ps
decreasing_by
  have := gettoken_peek_lt _h
  omega

theorem backLoop_le (s : List UInt8) (cmd : Cmd) (ps : Nat) :
    ps ≤ (backLoop s cmd ps).2 ∧ (ps ≤ s.length → (backLoop s cmd ps).2 ≤ s.length) := by
  fun_induction backLoop s cmd ps with
  | case1 cmd ps hp ih =>
      have := gettoken_peek_lt hp
      omega
  | case2 cmd ps _ => exact ⟨peek_le s ps [38], peek_le_length [38]⟩

/-- A position at or after `ps`. -/
abbrev After (ps : Nat) := {j : Nat // ps ≤ j}

mutual

/-- `parseline(ps, es)`. -/
def parseline (s : List UInt8) (ps : Nat) : Except String (Cmd × After ps) :=
  match parsepipe s ps with
  | .error e => .error e
  | .ok (cmd, ⟨j, hj⟩) =>
      match hb : backLoop s cmd j with
      | (bcmd, k) =>
          if h : (peek s k [59]).2 then
            match parseline s (gettoken s (peek s k [59]).1).ps with
            | .error e => .error e
            | .ok (right, ⟨r, hr⟩) =>
                .ok (.list bcmd right, ⟨r, by
                  have h1 := (backLoop_le s cmd j).1
                  rw [hb] at h1
                  have := peek_gettoken_le s k [59]
                  omega⟩)
          else
            .ok (bcmd, ⟨(peek s k [59]).1, by
              have h1 := (backLoop_le s cmd j).1
              rw [hb] at h1
              have := peek_le s k [59]
              omega⟩)
termination_by 4 * (s.length - ps) + 3
decreasing_by
  · omega
  · have h1 := gettoken_peek_lt h
    have h2 := (backLoop_le s cmd j).1
    rw [hb] at h2
    omega

/-- `parsepipe(ps, es)`. -/
def parsepipe (s : List UInt8) (ps : Nat) : Except String (Cmd × After ps) :=
  match parseexec s ps with
  | .error e => .error e
  | .ok (cmd, ⟨j, hj⟩) =>
      if h : (peek s j [124]).2 then
        match parsepipe s (gettoken s (peek s j [124]).1).ps with
        | .error e => .error e
        | .ok (right, ⟨r, hr⟩) =>
            .ok (.pipe cmd right, ⟨r, by
              have := peek_gettoken_le s j [124]
              omega⟩)
      else .ok (cmd, ⟨(peek s j [124]).1, Nat.le_trans hj (peek_le s j _)⟩)
termination_by 4 * (s.length - ps) + 2
decreasing_by
  · omega
  · have := gettoken_peek_lt h
    omega

/-- `parseexec(ps, es)`. -/
def parseexec (s : List UInt8) (ps : Nat) : Except String (Cmd × After ps) :=
  if (peek s ps [40]).2 then
    match parseblock s (peek s ps [40]).1 with
    | .error e => .error e
    | .ok (cmd, ⟨j, hj⟩) => .ok (cmd, ⟨j, Nat.le_trans (peek_le s ps _) hj⟩)
  else
    match h : parseredirs s (.exec []) (peek s ps [40]).1 with
    | .error e => .error e
    | .ok (ret, j) =>
        match h' : execLoop s [] ret j with
        | .error e => .error e
        | .ok (argv, ret, k) =>
            -- `cmd->argv[argc] = 0` ends the arguments
            .ok (ret.setArgv argv, ⟨k, by
              have := peek_le s ps [40]
              have := (parseredirs_le h).1
              have := (execLoop_le h').1
              omega⟩)
termination_by 4 * (s.length - ps) + 1
decreasing_by
  have := peek_le s ps [40]
  omega

/-- `parseblock(ps, es)`. -/
def parseblock (s : List UInt8) (ps : Nat) : Except String (Cmd × After ps) :=
  if h : (peek s ps [40]).2 then
    match parseline s (gettoken s (peek s ps [40]).1).ps with
    | .error e => .error e
    | .ok (cmd, ⟨j, hj⟩) =>
        if (peek s j [41]).2 then
          match h' : parseredirs s cmd (gettoken s (peek s j [41]).1).ps with
          | .error e => .error e
          | .ok (cmd, k) =>
              .ok (cmd, ⟨k, by
                have := peek_gettoken_le s ps [40]
                have := peek_gettoken_le s j [41]
                have := (parseredirs_le h').1
                omega⟩)
        else .error "syntax - missing )"
  else .error "parseblock"
termination_by 4 * (s.length - ps)
decreasing_by
  have := gettoken_peek_lt h
  omega

end

/-- `nulterminate(cmd)`: a NUL after every argument and every file name. -/
def nulterminate : Cmd → ByteMap → ByteMap
  | .exec argv, m => argv.foldl (fun m a => Function.update m a.2 0) m
  | .redir c _ efile _ _, m => Function.update (nulterminate c m) efile 0
  | .pipe l r, m => nulterminate r (nulterminate l m)
  | .list l r, m => nulterminate r (nulterminate l m)
  | .back c, m => nulterminate c m

/-- `parsecmd(s)`: the command, and the command line after
`nulterminate`. -/
@[grind] def parsecmd (s : List UInt8) : Except String (Cmd × ByteMap) :=
  match parseline s 0 with
  | .error e => .error e
  | .ok (cmd, ⟨j, _⟩) =>
      -- `peek(&s, es, ""); if(s != es) panic("syntax")`
      if (peek s j []).1 ≠ s.length then .error "syntax"
      else .ok (cmd, nulterminate cmd (get s))

end Sh

end Xv6
