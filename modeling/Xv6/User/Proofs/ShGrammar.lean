import Xv6.User.Proofs.ShLex
import Mathlib.Data.List.Forall2

/-!
The shell's grammar, and how a parsed command reads in memory.

Over the tokens of a command line (`tokenize`):

    line  := pipe ('&')* (';' line)?
    pipe  := exec ('|' pipe)?
    exec  := '(' line ')' redir* | redir* (word redir*)*
    redir := ('<' | '>' | '>>') word

with fewer than `MAXARGS` words in an `exec`. A derivation builds a
`Tree`: `back` nodes around the whole pipeline before the `&`s, pipes
and lists nested to the right, and each redirection around the command
built before it, so that later redirections are outermost.

A `Cmd` holds positions into the line. `Cmd.text` reads each pair as
the bytes it bounds; `Reads m c t` reads each pointer as the C string
at it in memory `m`. When every pair bounds a word (`Placed`), the NULs
`nulterminate` writes fall on the bytes after the words, and each word
is then a C string (`reads_text`); a C string is determined by where it
starts, so a command reads as one tree (`Reads.unique`).
-/

namespace Xv6

namespace Sh

-- ============================================================== the grammar

/-- A command, its arguments and file names as text. -/
inductive Tree
  | exec (argv : List (List UInt8))
  | redir (cmd : Tree) (file : List UInt8) (mode fd : Nat)
  | pipe (left right : Tree)
  | list (left right : Tree)
  | back (cmd : Tree)
  deriving DecidableEq, Repr

/-- A redirection: the file, the mode and the descriptor. -/
abbrev Rd := List UInt8 × Nat × Nat

/-- `c` inside the redirections `rs`, the first innermost. -/
def Tree.wrap (c : Tree) (rs : List Rd) : Tree := rs.foldl (fun c r => .redir c r.1 r.2.1 r.2.2) c

/-- `c` inside `k` background nodes. -/
@[grind] def Tree.backs (c : Tree) : Nat → Tree
  | 0 => c
  | k + 1 => .back (c.backs k)

/-- `redir := ('<' | '>' | '>>') word`. -/
inductive Redir : List Tok → Rd → Prop
  | lt (w : List UInt8) : Redir [.lt, .word w] (w, O_RDONLY, 0)
  | gt (w : List UInt8) : Redir [.gt, .word w] (w, O_WRONLY ||| O_CREATE ||| O_TRUNC, 1)
  | append (w : List UInt8) : Redir [.append, .word w] (w, O_WRONLY ||| O_CREATE, 1)

/-- `redir*`. -/
inductive Redirs : List Tok → List Rd → Prop
  | nil : Redirs [] []
  | cons {t ts : List Tok} {r : Rd} {rs : List Rd} : Redir t r → Redirs ts rs → Redirs (t ++ ts) (r :: rs)

/-- `(word redir*)*`: the words, and the redirections after them in order. -/
inductive Words : List Tok → List (List UInt8) → List Rd → Prop
  | nil : Words [] [] []
  | cons {w : List UInt8} {r ts : List Tok} {rs rs' : List Rd} {ws : List (List UInt8)} :
      Redirs r rs → Words ts ws rs' → Words (.word w :: r ++ ts) (w :: ws) (rs ++ rs')

mutual

/-- `line := pipe ('&')* (';' line)?`. -/
inductive Line : List Tok → Tree → Prop
  | pipe {p : List Tok} {c : Tree} (k : Nat) : Pipe p c → Line (p ++ List.replicate k .amp) (c.backs k)
  | list {p l : List Tok} {c c' : Tree} (k : Nat) :
      Pipe p c → Line l c' → Line (p ++ List.replicate k .amp ++ .semi :: l) (.list (c.backs k) c')

/-- `pipe := exec ('|' pipe)?`. -/
inductive Pipe : List Tok → Tree → Prop
  | exec {e : List Tok} {c : Tree} : Exec e c → Pipe e c
  | pipe {e p : List Tok} {c c' : Tree} : Exec e c → Pipe p c' → Pipe (e ++ .pipe :: p) (.pipe c c')

/-- `exec := '(' line ')' redir* | redir* (word redir*)*`. -/
inductive Exec : List Tok → Tree → Prop
  | block {l r : List Tok} {c : Tree} {rs : List Rd} :
      Line l c → Redirs r rs → Exec (.lparen :: l ++ .rparen :: r) (c.wrap rs)
  | simple {r ts : List Tok} {rs rs' : List Rd} {ws : List (List UInt8)} :
      Redirs r rs → Words ts ws rs' → ws.length < MAXARGS → Exec (r ++ ts) ((Tree.exec ws).wrap (rs ++ rs'))

end

-- ======================================================= reading positions

/-- The bytes from `q` to `e`. -/
def slice (s : List UInt8) (q e : Nat) : List UInt8 := (s.drop q).take (e - q)

/-- A redirection's positions read as text. -/
def rdText (s : List UInt8) (r : Nat × Nat × Nat × Nat) : Rd := (slice s r.1 r.2.1, r.2.2.1, r.2.2.2)

/-- An argument's positions read as its text. -/
def argText (s : List UInt8) (a : Nat × Nat) : List UInt8 := slice s a.1 a.2

/-- A parsed command with its positions read as the bytes they bound. -/
@[grind] def Cmd.text (s : List UInt8) : Cmd → Tree
  | .exec argv => .exec (argv.map (argText s))
  | .redir c file efile mode fd => .redir (c.text s) (slice s file efile) mode fd
  | .pipe l r => .pipe (l.text s) (r.text s)
  | .list l r => .list (l.text s) (r.text s)
  | .back c => .back (c.text s)

/-- The C string at `p` in `m` is `w`: its bytes up to the first NUL. -/
inductive CStr (m : ByteMap) : Nat → List UInt8 → Prop
  | nil {p : Nat} : m p = 0 → CStr m p []
  | cons {p : Nat} {c : UInt8} {w : List UInt8} : m p = c → c ≠ 0 → CStr m (p + 1) w → CStr m p (c :: w)

/-- Reading a command's pointers in memory `m` gives the tree. -/
inductive Reads (m : ByteMap) : Cmd → Tree → Prop
  | exec {argv : List (Nat × Nat)} {ws : List (List UInt8)} :
      List.Forall₂ (fun a w => CStr m a.1 w) argv ws → Reads m (.exec argv) (.exec ws)
  | redir {c : Cmd} {t : Tree} {file efile mode fd : Nat} {w : List UInt8} :
      Reads m c t → CStr m file w → Reads m (.redir c file efile mode fd) (.redir t w mode fd)
  | pipe {l r : Cmd} {tl tr : Tree} : Reads m l tl → Reads m r tr → Reads m (.pipe l r) (.pipe tl tr)
  | list {l r : Cmd} {tl tr : Tree} : Reads m l tl → Reads m r tr → Reads m (.list l r) (.list tl tr)
  | back {c : Cmd} {t : Tree} : Reads m c t → Reads m (.back c) (.back t)

/-- Every pair of positions bounds a word of the line. -/
def PlacedArgs (s : List UInt8) (argv : List (Nat × Nat)) : Prop := ∀ a ∈ argv, ∃ w, Word s a.1 a.2 w

/-- Every pair of positions the command holds bounds a word of the line. -/
def Placed (s : List UInt8) : Cmd → Prop
  | .exec argv => PlacedArgs s argv
  | .redir c file efile _ _ => Placed s c ∧ ∃ w, Word s file efile w
  | .pipe l r => Placed s l ∧ Placed s r
  | .list l r => Placed s l ∧ Placed s r
  | .back c => Placed s c

@[simp] theorem Tree.wrap_nil (c : Tree) : c.wrap [] = c := rfl

@[simp] theorem Tree.wrap_cons (c : Tree) (r : Rd) (rs : List Rd) :
    c.wrap (r :: rs) = (Tree.redir c r.1 r.2.1 r.2.2).wrap rs := rfl

@[simp] theorem Tree.wrap_append (c : Tree) (rs rs' : List Rd) : c.wrap (rs ++ rs') = (c.wrap rs).wrap rs' :=
  List.foldl_append

/-- `Cmd.setArgv` on trees. -/
@[grind] def Tree.setArgv : Tree → List (List UInt8) → Tree
  | .exec _, ws => .exec ws
  | .redir c file mode fd, ws => .redir (c.setArgv ws) file mode fd
  | c, _ => c

theorem text_setArgv (s : List UInt8) (c : Cmd) (argv : List (Nat × Nat)) :
    (c.setArgv argv).text s = (c.text s).setArgv (argv.map (argText s)) := by
  induction c with
  | exec => rfl
  | redir c file efile mode fd ih => simp only [Cmd.setArgv, Cmd.text, Tree.setArgv, ih]
  | pipe => rfl
  | list => rfl
  | back => rfl

theorem Tree.setArgv_wrap (c : Tree) (rs : List Rd) (ws : List (List UInt8)) :
    (c.wrap rs).setArgv ws = (c.setArgv ws).wrap rs := by
  induction rs generalizing c with
  | nil => rfl
  | cons r rs ih => simp only [Tree.wrap_cons, ih, Tree.setArgv]

theorem placed_setArgv {s : List UInt8} {argv : List (Nat × Nat)} (ha : PlacedArgs s argv) :
    ∀ {c : Cmd}, Placed s c → Placed s (c.setArgv argv)
  | .exec _, _ => ha
  | .redir _ _ _ _ _, ⟨hc, hf⟩ => ⟨placed_setArgv ha hc, hf⟩
  | .pipe _ _, h => h
  | .list _ _, h => h
  | .back _, h => h

theorem slice_word {s : List UInt8} {q e : Nat} {w : List UInt8} (hw : Word s q e w) : slice s q e = w :=
  hw.text

theorem placedArgs_append {s : List UInt8} {argv : List (Nat × Nat)} {q e : Nat} {w : List UInt8}
    (ha : PlacedArgs s argv) (hw : Word s q e w) : PlacedArgs s (argv ++ [(q, e)]) := by
  intro a h
  rcases List.mem_append.1 h with h | h
  · exact ha a h
  · rw [List.mem_singleton.1 h]
    exact ⟨w, hw⟩

-- ================================================================ nulterminate

section Nulterminate

variable {s : List UInt8}

/-- Where `nulterminate` writes its NULs: after every argument and every file name. -/
def Cmd.ends : Cmd → List Nat
  | .exec argv => argv.map Prod.snd
  | .redir c _ efile _ _ => c.ends ++ [efile]
  | .pipe l r => l.ends ++ r.ends
  | .list l r => l.ends ++ r.ends
  | .back c => c.ends

theorem foldl_update_apply (argv : List (Nat × Nat)) (m : ByteMap) (p : Nat) :
    argv.foldl (fun m a => Function.update m a.2 0) m p = if p ∈ argv.map Prod.snd then 0 else m p := by
  induction argv generalizing m with
  | nil => rfl
  | cons a argv ih =>
      rw [List.foldl_cons, ih, List.map_cons, Function.update_apply]
      by_cases h1 : p ∈ argv.map Prod.snd
      · simp [h1]
      · by_cases h2 : p = a.2 <;> simp [h1, h2]

/-- `nulterminate` zeroes its ends and leaves every other byte. -/
theorem nulterminate_apply (c : Cmd) (m : ByteMap) (p : Nat) :
    nulterminate c m p = if p ∈ c.ends then 0 else m p := by
  induction c generalizing m with
  | exec argv => exact foldl_update_apply argv m p
  | redir c file efile mode fd ih =>
      rw [nulterminate, Function.update_apply, ih, Cmd.ends]
      by_cases hp : p = efile <;> simp [hp]
  | pipe l r ihl ihr =>
      rw [nulterminate, ihr, ihl, Cmd.ends]
      by_cases hl : p ∈ l.ends <;> simp [hl]
  | list l r ihl ihr =>
      rw [nulterminate, ihr, ihl, Cmd.ends]
      by_cases hl : p ∈ l.ends <;> simp [hl]
  | back c ih => exact ih m

/-- Every end of a placed command ends a word. -/
theorem placed_ends (c : Cmd) (h : Placed s c) : ∀ e ∈ c.ends, Delim s e := by
  induction c with
  | exec argv =>
      intro e he
      obtain ⟨a, ha, rfl⟩ := List.mem_map.1 he
      obtain ⟨w, hw⟩ := h a ha
      exact hw.delim
  | redir c file efile mode fd ih =>
      obtain ⟨hc, w, hw⟩ := h
      intro e he
      rcases List.mem_append.1 he with he | he
      · exact ih hc e he
      · rw [List.mem_singleton.1 he]
        exact hw.delim
  | pipe l r ihl ihr =>
      intro e he
      rcases List.mem_append.1 he with he | he
      · exact ihl h.1 e he
      · exact ihr h.2 e he
  | list l r ihl ihr =>
      intro e he
      rcases List.mem_append.1 he with he | he
      · exact ihl h.1 e he
      · exact ihr h.2 e he
  | back c ih => exact ih h

/-- No end falls inside a word. -/
theorem Word.not_delim {q e p : Nat} {w : List UInt8} (hw : Word s q e w) (hq : q ≤ p) (hp : p < e) :
    ¬ Delim s p := by
  obtain ⟨hlen, hword⟩ := hw.inside p hq hp
  rintro (h | ⟨-, h⟩)
  · omega
  · rw [hword] at h
    cases h

theorem Word.le_length {q e : Nat} {w : List UInt8} (hw : Word s q e w) : e ≤ s.length := by
  rcases hw.delim with h | ⟨h, -⟩ <;> omega

theorem cstr_of_bytes {m : ByteMap} : ∀ {w : List UInt8} {q : Nat}, 0 ∉ w →
    (∀ i (h : i < w.length), m (q + i) = w[i]) → m (q + w.length) = 0 → CStr m q w
  | [], _, _, _, hend => .nil hend
  | c :: w, q, h0, hbytes, hend => by
      refine .cons (hbytes 0 (Nat.zero_lt_succ _)) (fun hc => h0 (hc ▸ List.mem_cons_self)) ?_
      refine cstr_of_bytes (fun h => h0 (List.mem_cons_of_mem _ h)) (fun i hi => ?_) ?_
      · rw [Nat.add_assoc, Nat.add_comm 1 i]
        exact hbytes (i + 1) (by simp; omega)
      · rw [Nat.add_assoc, Nat.add_comm 1]
        exact hend

/-- After `nulterminate`, a word of a placed command whose end it wrote
is a C string. -/
theorem cstr_word (hs : 0 ∉ s) {c : Cmd} (hc : Placed s c) {q e : Nat} {w : List UInt8} (hw : Word s q e w)
    (he : e ∈ c.ends) : CStr (nulterminate c (get s)) q w := by
  have hle := hw.le_length
  have hlen : w.length = e - q := by
    rw [← hw.text, List.length_take, List.length_drop]
    omega
  refine cstr_of_bytes (fun h0 => hs (List.mem_of_mem_drop (List.mem_of_mem_take (hw.text ▸ h0)))) ?_ ?_
  · intro i hi
    have hnot : q + i ∉ c.ends := fun h => hw.not_delim (by omega) (by omega) (placed_ends c hc _ h)
    rw [nulterminate_apply, if_neg hnot, get_eq_getElem (by omega)]
    simp only [← hw.text, List.getElem_take, List.getElem_drop]
  · rw [nulterminate_apply, if_pos (by rw [hlen, Nat.add_sub_cancel' (Nat.le_of_lt hw.lt)]; exact he)]

/-- Every part of a placed command reads, after `nulterminate`, as its text. -/
theorem reads_sub (hs : 0 ∉ s) {c₀ : Cmd} (h₀ : Placed s c₀) :
    ∀ {c : Cmd}, Placed s c → (∀ e ∈ c.ends, e ∈ c₀.ends) → Reads (nulterminate c₀ (get s)) c (c.text s)
  | .exec argv, h, hsub => by
      refine .exec (List.forall₂_map_right_iff.2 (List.forall₂_same.2 fun a ha => ?_))
      obtain ⟨w, hw⟩ := h a ha
      rw [argText, slice_word hw]
      exact cstr_word hs h₀ hw (hsub _ (List.mem_map_of_mem ha))
  | .redir c file efile mode fd, ⟨hc, w, hw⟩, hsub => by
      rw [Cmd.text, slice_word hw]
      exact .redir (reads_sub hs h₀ hc fun e he => hsub e (List.mem_append_left _ he))
        (cstr_word hs h₀ hw (hsub _ (List.mem_append_right _ (List.mem_singleton_self _))))
  | .pipe l r, ⟨hl, hr⟩, hsub =>
      .pipe (reads_sub hs h₀ hl fun e he => hsub e (List.mem_append_left _ he))
        (reads_sub hs h₀ hr fun e he => hsub e (List.mem_append_right _ he))
  | .list l r, ⟨hl, hr⟩, hsub =>
      .list (reads_sub hs h₀ hl fun e he => hsub e (List.mem_append_left _ he))
        (reads_sub hs h₀ hr fun e he => hsub e (List.mem_append_right _ he))
  | .back c, h, hsub => .back (reads_sub hs h₀ h hsub)

theorem reads_text (hs : 0 ∉ s) {c : Cmd} (hc : Placed s c) : Reads (nulterminate c (get s)) c (c.text s) :=
  reads_sub hs hc hc fun _ he => he

/-- A C string is determined by where it starts. -/
theorem CStr.unique {m : ByteMap} {p : Nat} {w w' : List UInt8} (h : CStr m p w) (h' : CStr m p w') : w = w' := by
  induction h generalizing w' with
  | nil h0 =>
      cases h' with
      | nil => rfl
      | cons hc hne _ => exact absurd (hc ▸ h0) hne
  | cons hc hne _ ih =>
      cases h' with
      | nil h0 => exact absurd (hc ▸ h0) hne
      | cons hc' _ hw' => rw [← hc, ← hc', ih hw']

theorem cstrs_unique {m : ByteMap} {argv : List (Nat × Nat)} {ws ws' : List (List UInt8)}
    (h : List.Forall₂ (fun a w => CStr m a.1 w) argv ws) (h' : List.Forall₂ (fun a w => CStr m a.1 w) argv ws') :
    ws = ws' := by
  induction h generalizing ws' with
  | nil => exact (List.forall₂_nil_left_iff.1 h').symm
  | cons hw _ ih =>
      cases h' with
      | cons hw' hws' => rw [hw.unique hw', ih hws']

/-- Reading a command in memory gives one tree. -/
theorem Reads.unique {m : ByteMap} {c : Cmd} {t t' : Tree} (h : Reads m c t) (h' : Reads m c t') : t = t' := by
  induction h generalizing t' with
  | exec hws =>
      cases h' with
      | exec hws' => rw [cstrs_unique hws hws']
  | redir _ hf ih =>
      cases h' with
      | redir hc' hf' => rw [ih hc', hf.unique hf']
  | pipe _ _ ihl ihr =>
      cases h' with
      | pipe hl' hr' => rw [ihl hl', ihr hr']
  | list _ _ ihl ihr =>
      cases h' with
      | list hl' hr' => rw [ihl hl', ihr hr']
  | back _ ih =>
      cases h' with
      | back hc' => rw [ih hc']

end Nulterminate

end Sh

end Xv6
