import Xv6.User.Proofs.ShGrammar

/-!
`parsecmd` parses exactly the shell's grammar.

Each parser, run where the tokens left are `pre ++ rest`, reads a
command derived from `pre` and stops at `rest`. Sound: whatever a
parser returns is derived from the tokens it passed, at positions that
bound their words (`parseline_sound`). Complete: a derivation of `pre`,
followed by a token that may follow it in the grammar (`FollowLine`,
`FollowPipe`, `FollowExec`), is what the parser returns
(`parseline_complete`). The loops `parseredirs`, `parseexec`'s loop and
the `&` loop each get an equation per kind of next token, and both
directions are proved from those. `parsecmd`'s leftover check holds
exactly when no token is left, so the whole line is one `line`
(`parsecmd_parses_grammar`).

Soundness recurses on the measure of the parsers' own termination
argument, on tokens rather than bytes; completeness on the derivation.
-/

namespace Xv6

namespace Sh

-- ================================================================ parseredirs

/-- At a token that starts with `<` or `>`, a word after it makes a redirection. -/
theorem redir_of_starts {t : Tok} {ts : List Tok} (hg : t.Good) (h : starts [60, 62] (t :: ts) = true)
    (w : List UInt8) : ∃ r, Redir [t, .word w] r := by
  cases t with
  | lt => exact ⟨_, .lt w⟩
  | gt => exact ⟨_, .gt w⟩
  | append => exact ⟨_, .append w⟩
  | word v => simp [starts_word hg (l := [60, 62]) (by simp [symbols])] at h
  | _ =>
      simp only [starts, Tok.first] at h
      exact absurd h (by decide)

section Parseredirs

variable {s : List UInt8} {cmd : Cmd} {ps : Nat}

/-- At a redirection and its word, `parseredirs` wraps the command and
goes on after the word. -/
theorem parseredirs_redir (hs : 0 ∉ s) (cmd : Cmd) {t : Tok} {w : List UInt8} {rest : List Tok} {r : Rd}
    (hr : Redir [t, .word w] r) (ht : toks s ps = t :: .word w :: rest) :
    ∃ q e p, Word s q e w ∧ toks s p = rest ∧
      parseredirs s cmd ps = parseredirs s (.redir cmd q e r.2.1 r.2.2) p := by
  have hp : (peek s ps [60, 62]).2 = true := by
    rw [peek_starts hs, ht]
    cases hr <;> rfl
  have ht0 : toks s (peek s ps [60, 62]).1 = t :: .word w :: rest := by rw [toks_peek hs, ht]
  obtain ⟨hret1, ht1, -⟩ := gettoken_cons hs ht0
  obtain ⟨hret2, ht2, hw⟩ := gettoken_cons hs ht1
  refine ⟨_, _, _, hw w rfl, ht2, ?_⟩
  rw [parseredirs, dif_pos hp]
  simp only [hret2, hret1, Tok.ret]
  cases hr <;> rfl

/-- No redirection next: `parseredirs` stops. -/
theorem parseredirs_stop (hs : 0 ∉ s) (h : starts [60, 62] (toks s ps) = false) :
    parseredirs s cmd ps = .ok (cmd, (peek s ps [60, 62]).1) := by
  rw [parseredirs, dif_neg (by rw [peek_starts hs, h]; exact Bool.false_ne_true)]

/-- A redirection without a word after it. -/
theorem parseredirs_missing (hs : 0 ∉ s) {t : Tok} {rest : List Tok} (ht : toks s ps = t :: rest)
    (hst : starts [60, 62] (t :: rest) = true) (hw : ∀ w rest', rest ≠ .word w :: rest') :
    parseredirs s cmd ps = .error "missing file for redirection" := by
  have hp : (peek s ps [60, 62]).2 = true := by rw [peek_starts hs, ht, hst]
  have ht0 : toks s (peek s ps [60, 62]).1 = t :: rest := by rw [toks_peek hs, ht]
  obtain ⟨-, ht1, -⟩ := gettoken_cons hs ht0
  have hret : (gettoken s (gettoken s (peek s ps [60, 62]).1).ps).ret ≠ 97 := by
    cases hrest : rest with
    | nil =>
        rw [(gettoken_nil (hrest ▸ ht1)).1]
        decide
    | cons u rest' =>
        rw [(gettoken_cons hs (hrest ▸ ht1)).1]
        intro h97
        obtain ⟨v, rfl⟩ := Tok.ret_eq_word h97
        exact hw v rest' hrest
  rw [parseredirs, dif_pos hp]
  simp only [if_pos hret]

theorem Redir.shape {t : List Tok} {r : Rd} (h : Redir t r) : ∃ x w, t = [x, .word w] ∧ r.1 = w := by
  cases h <;> exact ⟨_, _, rfl, rfl⟩

theorem Redir.file {x : Tok} {w : List UInt8} {r : Rd} (h : Redir [x, .word w] r) : r.1 = w := by
  cases h <;> rfl

/-- Whatever `parseredirs` returns wraps `cmd` in the redirections of
the tokens it passed, at positions that bound their words. -/
theorem parseredirs_sound (hs : 0 ∉ s) {c : Cmd} {j : Nat} (h : parseredirs s cmd ps = .ok (c, j)) :
    ∃ pre rs, toks s ps = pre ++ toks s j ∧ Redirs pre rs ∧ c.text s = (cmd.text s).wrap rs ∧
      (Placed s cmd → Placed s c) := by
  -- on the number of tokens left: each turn passes two
  induction hn : (toks s ps).length using Nat.strongRecOn generalizing cmd ps with
  | ind n ih =>
      cases hst : starts [60, 62] (toks s ps) with
      | false =>
          rw [parseredirs_stop hs hst] at h
          obtain ⟨rfl, rfl⟩ := Prod.mk.inj (Except.ok.inj h)
          exact ⟨[], [], by rw [toks_peek hs]; rfl, .nil, rfl, id⟩
      | true =>
          obtain ⟨t, rest, ht⟩ : ∃ t rest, toks s ps = t :: rest := by
            cases h' : toks s ps with
            | nil => simp [h', starts] at hst
            | cons t rest => exact ⟨t, rest, rfl⟩
          rw [ht] at hst
          by_cases hw : ∃ w rest', rest = .word w :: rest'
          · obtain ⟨w, rest', rfl⟩ := hw
            obtain ⟨r, hr⟩ := redir_of_starts (toks_good s ps t (by simp [ht])) hst w
            obtain ⟨q, e, p, hword, hp, heq⟩ := parseredirs_redir hs cmd hr ht
            rw [heq] at h
            have hlen : (toks s p).length < n := by
              rw [← hn, ht, hp, List.length_cons, List.length_cons]
              omega
            obtain ⟨pre, rs, hpre, hrs, htext, hplaced⟩ := ih _ hlen h rfl
            refine ⟨t :: .word w :: pre, r :: rs, ?_, Redirs.cons hr hrs, ?_, fun hc => hplaced ⟨hc, w, hword⟩⟩
            · rw [ht, ← hp, hpre]
              rfl
            · rw [htext, Cmd.text, slice_word hword, ← Redir.file hr]
              rfl
          · rw [parseredirs_missing hs ht hst (fun w rest' h' => hw ⟨w, rest', h'⟩)] at h
            cases h

/-- Redirections followed by a token that is none: `parseredirs` reads
them all and stops after them. -/
theorem parseredirs_complete (hs : 0 ∉ s) (cmd : Cmd) {r : List Tok} {rs : List Rd} (hr : Redirs r rs) {rest : List Tok}
    (ht : toks s ps = r ++ rest) (hst : starts [60, 62] rest = false) :
    ∃ c j, parseredirs s cmd ps = .ok (c, j) ∧ toks s j = rest ∧ c.text s = (cmd.text s).wrap rs := by
  induction hr generalizing cmd ps with
  | nil =>
      refine ⟨cmd, _, parseredirs_stop hs (by rwa [ht]), ?_, rfl⟩
      rw [toks_peek hs, ht]
      rfl
  | cons hr _ ih =>
      obtain ⟨x, w, rfl, hfile⟩ := Redir.shape hr
      obtain ⟨q, e, p, hword, hp, heq⟩ := parseredirs_redir hs cmd hr ht
      obtain ⟨c, j, hc, hj, htext⟩ := ih _ hp
      refine ⟨c, j, by rw [heq, hc], hj, ?_⟩
      rw [htext, Cmd.text, slice_word hword, ← hfile]
      rfl

end Parseredirs

-- ================================================================ backLoop

section BackLoop

variable {s : List UInt8} {cmd : Cmd} {ps : Nat}

/-- `cmd` inside `k` background nodes. -/
@[grind] def Cmd.backs (c : Cmd) : Nat → Cmd
  | 0 => c
  | k + 1 => .back (c.backs k)

theorem Cmd.backs_back (c : Cmd) (k : Nat) : (Cmd.back c).backs k = .back (c.backs k) := by
  induction k with
  | zero => rfl
  | succ k ih => rw [Cmd.backs, ih, Cmd.backs]

theorem text_backs (c : Cmd) (k : Nat) : (c.backs k).text s = (c.text s).backs k := by
  induction k with
  | zero => rfl
  | succ k ih => rw [Cmd.backs, Cmd.text, ih, Tree.backs]

theorem placed_backs {c : Cmd} (h : Placed s c) (k : Nat) : Placed s (c.backs k) := by
  induction k with
  | zero => exact h
  | succ k ih => exact ih

theorem backLoop_amp (hs : 0 ∉ s) (cmd : Cmd) {rest : List Tok} (h : toks s ps = .amp :: rest) :
    ∃ p, toks s p = rest ∧ backLoop s cmd ps = backLoop s (.back cmd) p := by
  have hp : (peek s ps [38]).2 = true := by rw [peek_starts hs, h]; rfl
  exact ⟨_, peek_gettoken hs h, by rw [backLoop, dif_pos hp]⟩

theorem backLoop_stop (hs : 0 ∉ s) (h : starts [38] (toks s ps) = false) :
    backLoop s cmd ps = (cmd, (peek s ps [38]).1) := by
  rw [backLoop, dif_neg (by rw [peek_starts hs, h]; exact Bool.false_ne_true)]

/-- `backLoop` passes the `&`s in front and wraps one `back` per `&`. -/
theorem backLoop_sound (hs : 0 ∉ s) (cmd : Cmd) (ps : Nat) :
    ∃ k, toks s ps = List.replicate k .amp ++ toks s (backLoop s cmd ps).2 ∧
      (backLoop s cmd ps).1 = cmd.backs k := by
  induction hn : (toks s ps).length using Nat.strongRecOn generalizing cmd ps with
  | ind n ih =>
      cases hst : starts [38] (toks s ps) with
      | false =>
          rw [backLoop_stop hs hst, toks_peek hs]
          exact ⟨0, rfl, rfl⟩
      | true =>
          obtain ⟨t, rest, ht, hg, hst'⟩ := toks_of_peek hs (l := [38]) (by rw [peek_starts hs, hst])
          rw [amp_of_starts hg hst'] at ht
          obtain ⟨p, hp, heq⟩ := backLoop_amp hs cmd ht
          have hlt : (toks s p).length < n := by
            rw [← hn, ht, hp, List.length_cons]
            omega
          obtain ⟨k, hk, hc⟩ := ih _ hlt (.back cmd) p rfl
          refine ⟨k + 1, ?_, ?_⟩
          · rw [heq, ht, ← hp, hk]
            rfl
          · rw [heq, hc, Cmd.backs_back, Cmd.backs]

/-- `k` `&`s and then none: `backLoop` passes exactly them. -/
theorem backLoop_complete (hs : 0 ∉ s) (cmd : Cmd) {k : Nat} {rest : List Tok} (h : toks s ps = List.replicate k .amp ++ rest)
    (hst : starts [38] rest = false) :
    toks s (backLoop s cmd ps).2 = rest ∧ (backLoop s cmd ps).1 = cmd.backs k := by
  induction k generalizing cmd ps with
  | zero =>
      rw [backLoop_stop hs (by rwa [h]), toks_peek hs, h]
      exact ⟨rfl, rfl⟩
  | succ k ih =>
      obtain ⟨p, hp, heq⟩ := backLoop_amp hs cmd (show toks s ps = .amp :: (List.replicate k .amp ++ rest) from h)
      obtain ⟨hj, hc⟩ := ih (.back cmd) hp
      rw [heq]
      exact ⟨hj, by rw [hc, Cmd.backs_back, Cmd.backs]⟩

end BackLoop

-- ================================================================ what may follow

/-- The tokens that may follow a `line`: none, or `)`. -/
def FollowLine : List Tok → Prop
  | [] => True
  | t :: _ => t = .rparen

/-- The tokens that may follow a `pipe`: none, `)`, `&` or `;`. -/
def FollowPipe : List Tok → Prop
  | [] => True
  | t :: _ => t = .rparen ∨ t = .amp ∨ t = .semi

/-- The tokens that may follow an `exec`: none, `)`, `&`, `;` or `|`. -/
def FollowExec : List Tok → Prop
  | [] => True
  | t :: _ => t = .rparen ∨ t = .amp ∨ t = .semi ∨ t = .pipe

theorem FollowLine.pipe : ∀ {rest : List Tok}, FollowLine rest → FollowPipe rest
  | [], _ => trivial
  | _ :: _, h => .inl h

theorem FollowPipe.exec : ∀ {rest : List Tok}, FollowPipe rest → FollowExec rest
  | [], _ => trivial
  | _ :: _, .inl h => .inl h
  | _ :: _, .inr (.inl h) => .inr (.inl h)
  | _ :: _, .inr (.inr h) => .inr (.inr (.inl h))

/-- What `exec`'s loop and its callers test of a token that may follow an `exec`. -/
theorem FollowExec.tests : ∀ {t : Tok} {rest : List Tok}, FollowExec (t :: rest) →
    starts [124, 41, 38, 59] (t :: rest) = true ∧ starts [60, 62] (t :: rest) = false ∧
      starts [40] (t :: rest) = false
  | _, _, .inl rfl | _, _, .inr (.inl rfl) | _, _, .inr (.inr (.inl rfl)) | _, _, .inr (.inr (.inr rfl)) =>
    ⟨rfl, rfl, rfl⟩

theorem FollowExec.not_redir {rest : List Tok} (h : FollowExec rest) : starts [60, 62] rest = false := by
  cases rest with
  | nil => rfl
  | cons t rest => exact (FollowExec.tests h).2.1

theorem FollowExec.not_lparen {rest : List Tok} (h : FollowExec rest) : starts [40] rest = false := by
  cases rest with
  | nil => rfl
  | cons t rest => exact (FollowExec.tests h).2.2

-- ================================================================ parseexec's loop

section ExecLoop

variable {s : List UInt8} {argv : List (Nat × Nat)} {ret : Cmd} {ps : Nat}

/-- A token that ends an `exec` next: the loop stops before it. -/
theorem execLoop_stop (hs : 0 ∉ s) (h : starts [124, 41, 38, 59] (toks s ps) = true) :
    execLoop s argv ret ps = .ok (argv, ret, (peek s ps [124, 41, 38, 59]).1) := by
  rw [execLoop, if_pos (by rw [peek_starts hs, h])]

/-- No token left: the loop stops. -/
theorem execLoop_end (hs : 0 ∉ s) (argv : List (Nat × Nat)) (ret : Cmd) (h : toks s ps = []) :
    ∃ j, execLoop s argv ret ps = .ok (argv, ret, j) ∧ toks s j = [] := by
  have hst : (peek s ps [124, 41, 38, 59]).2 = false := by rw [peek_starts hs, h]; rfl
  have ht0 : toks s (peek s ps [124, 41, 38, 59]).1 = [] := by rw [toks_peek hs, h]
  obtain ⟨h0, hps⟩ := gettoken_nil ht0
  refine ⟨(gettoken s (peek s ps [124, 41, 38, 59]).1).ps, ?_, by rw [hps, toks_skipWs, ht0]⟩
  rw [execLoop, if_neg (by rw [hst]; exact Bool.false_ne_true), dif_pos h0]

/-- A word next: the loop stores it, checks the count, reads the
redirections after it and goes on. -/
theorem execLoop_word (hs : 0 ∉ s) (argv : List (Nat × Nat)) (ret : Cmd) {w : List UInt8} {rest : List Tok} (h : toks s ps = .word w :: rest) :
    ∃ q e p, Word s q e w ∧ toks s p = rest ∧
      execLoop s argv ret ps =
        if (argv ++ [(q, e)]).length ≥ MAXARGS then .error "too many args"
        else
          match parseredirs s ret p with
          | .error err => .error err
          | .ok (r, j) => execLoop s (argv ++ [(q, e)]) r j := by
  have hst : (peek s ps [124, 41, 38, 59]).2 = false := by
    rw [peek_starts hs, h]
    exact starts_word (toks_good s ps _ (by simp [h])) (by simp [symbols])
  have ht0 : toks s (peek s ps [124, 41, 38, 59]).1 = .word w :: rest := by rw [toks_peek hs, h]
  obtain ⟨hret, hrest, hword⟩ := gettoken_cons hs ht0
  refine ⟨_, _, _, hword w rfl, hrest, ?_⟩
  rw [execLoop, if_neg (by rw [hst]; exact Bool.false_ne_true), dif_neg (by rw [hret, Tok.ret]; decide),
    if_neg (by rw [hret, Tok.ret]; decide)]
  dsimp only
  split_ifs
  · rfl
  · split <;> next heq => rw [heq]

/-- Any other token next: a syntax error. -/
theorem execLoop_other (hs : 0 ∉ s) {t : Tok} {rest : List Tok} (h : toks s ps = t :: rest)
    (hw : ∀ w, t ≠ .word w) (hst : starts [124, 41, 38, 59] (t :: rest) = false) :
    execLoop s argv ret ps = .error "syntax" := by
  have hst' : (peek s ps [124, 41, 38, 59]).2 = false := by rw [peek_starts hs, h, hst]
  have ht0 : toks s (peek s ps [124, 41, 38, 59]).1 = t :: rest := by rw [toks_peek hs, h]
  obtain ⟨hret, -, -⟩ := gettoken_cons hs ht0
  have h97 : t.ret ≠ 97 := fun h97 => by
    obtain ⟨v, rfl⟩ := Tok.ret_eq_word h97
    exact hw v rfl
  have h0 : t.ret ≠ 0 := by cases t <;> first | decide | exact absurd rfl (hw _)
  rw [execLoop, if_neg (by rw [hst']; exact Bool.false_ne_true), dif_neg (by rw [hret]; exact h0),
    if_pos (by rw [hret]; exact h97)]

/-- After the words and their redirections come no redirection. -/
theorem Words.not_redir {ts rest : List Tok} {ws : List (List UInt8)} {rs : List Rd} (hw : Words ts ws rs)
    (hg : ∀ t ∈ ts ++ rest, t.Good) (hf : FollowExec rest) : starts [60, 62] (ts ++ rest) = false := by
  cases hw with
  | nil => exact hf.not_redir
  | cons => exact starts_word (hg _ List.mem_cons_self) (by simp [symbols])

/-- Whatever the loop returns adds the words of the tokens it passed
to `argv`, and wraps `ret` in their redirections. -/
theorem execLoop_sound (hs : 0 ∉ s) {argv' : List (Nat × Nat)} {c : Cmd} {j : Nat}
    (h : execLoop s argv ret ps = .ok (argv', c, j)) (hlen : argv.length < MAXARGS) :
    ∃ pre ws rs, toks s ps = pre ++ toks s j ∧ Words pre ws rs ∧
      argv'.map (argText s) = argv.map (argText s) ++ ws ∧ c.text s = (ret.text s).wrap rs ∧
      argv'.length < MAXARGS ∧ (PlacedArgs s argv → Placed s ret → PlacedArgs s argv' ∧ Placed s c) := by
  -- on the number of tokens left: each turn passes a word
  induction hn : (toks s ps).length using Nat.strongRecOn generalizing argv ret ps with
  | ind n ih =>
      cases hts : toks s ps with
      | nil =>
          obtain ⟨j', hj', hjt⟩ := execLoop_end hs argv ret hts
          rw [hj'] at h
          cases h
          exact ⟨[], [], [], by rw [hjt]; rfl, .nil, by simp, rfl, hlen, fun ha hr => ⟨ha, hr⟩⟩
      | cons t rest =>
          cases hst : starts [124, 41, 38, 59] (t :: rest) with
          | true =>
              rw [execLoop_stop hs (hts ▸ hst)] at h
              cases h
              exact ⟨[], [], [], by rw [toks_peek hs, hts]; rfl, .nil, by simp, rfl, hlen, fun ha hr => ⟨ha, hr⟩⟩
          | false =>
              by_cases hw : ∃ w, t = .word w
              · obtain ⟨w, rfl⟩ := hw
                obtain ⟨q, e, p, hword, hp, heq⟩ := execLoop_word hs argv ret hts
                rw [heq] at h
                split_ifs at h with hmax
                rcases hr : parseredirs s ret p with err | ⟨r, k⟩
                · rw [hr] at h
                  cases h
                rw [hr] at h
                obtain ⟨pre1, rs1, hpre1, hrs1, htext1, hpl1⟩ := parseredirs_sound hs hr
                have hlt : (toks s k).length < n := by
                  have hk := congrArg List.length (hp.symm.trans hpre1)
                  rw [← hn, hts, List.length_cons]
                  simp only [List.length_append] at hk
                  omega
                have hlen' : (argv ++ [(q, e)]).length < MAXARGS := Nat.lt_of_not_le hmax
                obtain ⟨pre2, ws2, rs2, hpre2, hws2, hargv2, htext2, hlen2, hpl2⟩ := ih _ hlt h hlen' rfl
                refine ⟨.word w :: pre1 ++ pre2, w :: ws2, rs1 ++ rs2, ?_, .cons hrs1 hws2, ?_, ?_, hlen2, ?_⟩
                · rw [← hp, hpre1, hpre2, List.append_assoc]
                  rfl
                · rw [hargv2, List.map_append, List.map_singleton, argText, slice_word hword]
                  simp
                · rw [htext2, htext1, Tree.wrap_append]
                · intro ha hr
                  exact hpl2 (placedArgs_append ha hword) (hpl1 hr)
              · rw [execLoop_other hs hts (fun w h => hw ⟨w, h⟩) hst] at h
                cases h

/-- Words with their redirections, followed by a token that may follow
an `exec`: the loop reads them all and stops after them. -/
theorem execLoop_complete (hs : 0 ∉ s) {ts : List Tok} {ws : List (List UInt8)} {rs : List Rd}
    (hw : Words ts ws rs) : ∀ {argv : List (Nat × Nat)} {ret : Cmd} {ps : Nat} {rest : List Tok},
      toks s ps = ts ++ rest → FollowExec rest → argv.length + ws.length < MAXARGS →
      ∃ argv' c j, execLoop s argv ret ps = .ok (argv', c, j) ∧ toks s j = rest ∧
        argv'.map (argText s) = argv.map (argText s) ++ ws ∧ c.text s = (ret.text s).wrap rs := by
  induction hw with
  | nil =>
      intro argv ret ps rest ht hf _
      cases rest with
      | nil =>
          obtain ⟨j, hj, hjt⟩ := execLoop_end hs argv ret ht
          exact ⟨argv, ret, j, hj, hjt, by simp, rfl⟩
      | cons t rest =>
          refine ⟨argv, ret, _, execLoop_stop hs (by rw [ht]; exact (FollowExec.tests hf).1), ?_, by simp, rfl⟩
          rw [toks_peek hs, ht]
          rfl
  | @cons w r ts rs rs' ws hr hw' ih =>
      intro argv ret ps rest ht hf hlen
      have ht' : toks s ps = .word w :: (r ++ (ts ++ rest)) := by simp only [ht, List.cons_append, List.append_assoc]
      obtain ⟨q, e, p, hword, hp, heq⟩ := execLoop_word hs argv ret ht'
      have hst : starts [60, 62] (ts ++ rest) = false :=
        hw'.not_redir (fun t h => toks_good s p t (by rw [hp]; exact List.mem_append_right _ h)) hf
      obtain ⟨r', k, hr', hk, htext⟩ := parseredirs_complete hs ret hr hp hst
      have hlen' : (argv ++ [(q, e)]).length + ws.length < MAXARGS := by
        simp only [List.length_append, List.length_cons, List.length_nil] at hlen ⊢
        omega
      obtain ⟨argv', c, j, hj, hjt, hargv, htext'⟩ := ih hk hf hlen'
      refine ⟨argv', c, j, ?_, hjt, ?_, ?_⟩
      · rw [heq, if_neg (by omega), hr']
        exact hj
      · rw [hargv, List.map_append, List.map_singleton, argText, slice_word hword]
        simp
      · rw [htext', htext, Tree.wrap_append]

end ExecLoop

-- ================================================================ soundness

section Sound

variable {s : List UInt8}

theorem toks_length_peek (hs : 0 ∉ s) (ps : Nat) (l : List UInt8) :
    (toks s (peek s ps l).1).length = (toks s ps).length := by
  rw [toks_peek hs]

mutual

/-- Whatever `parseline` returns is derived from the tokens it passed. -/
theorem parseline_sound (hs : 0 ∉ s) {ps : Nat} {c : Cmd} {j : After ps} (h : parseline s ps = .ok (c, j)) :
    ∃ pre, toks s ps = pre ++ toks s j.1 ∧ Line pre (c.text s) ∧ Placed s c := by
  rw [parseline] at h
  rcases hp : parsepipe s ps with err | ⟨cmd, j1, hj1⟩
  · rw [hp] at h
    cases h
  rw [hp] at h
  dsimp only at h
  obtain ⟨pre1, ht1, hpipe, hpl1⟩ := parsepipe_sound hs hp
  obtain ⟨k, hamp, hback⟩ := backLoop_sound hs cmd j1
  split at h
  · -- `;` and the rest of the line
    next hsemi =>
    obtain ⟨t, rest, ht, hg, hst⟩ := toks_of_peek hs hsemi
    rw [semi_of_starts hg hst] at ht
    rcases hr : parseline s (gettoken s (peek s (backLoop s cmd j1).2 [59]).1).ps with err | ⟨right, r, hr'⟩
    · rw [hr] at h
      cases h
    rw [hr] at h
    cases h
    have hrest := peek_gettoken hs (l := [59]) ht
    have hlt : (toks s (gettoken s (peek s (backLoop s cmd j1).2 [59]).1).ps).length < (toks s ps).length := by
      rw [hrest, ht1, hamp, ht]
      simp only [List.length_append, List.length_cons, List.length_replicate]
      omega
    obtain ⟨pre2, ht2, hline, hpl2⟩ := parseline_sound hs hr
    refine ⟨pre1 ++ List.replicate k .amp ++ .semi :: pre2, ?_, ?_, ⟨?_, hpl2⟩⟩
    · rw [ht1, hamp, ht, ← hrest, ht2]
      simp
    · rw [Cmd.text, hback, text_backs]
      exact .list k hpipe hline
    · rw [hback]
      exact placed_backs hpl1 k
  · -- the line ends after the `&`s
    cases h
    refine ⟨pre1 ++ List.replicate k .amp, ?_, ?_, ?_⟩
    · rw [ht1, hamp, toks_peek hs]
      simp
    · rw [hback, text_backs]
      exact .pipe k hpipe
    · rw [hback]
      exact placed_backs hpl1 k
termination_by 4 * (toks s ps).length + 3
decreasing_by all_goals omega

/-- Whatever `parsepipe` returns is derived from the tokens it passed. -/
theorem parsepipe_sound (hs : 0 ∉ s) {ps : Nat} {c : Cmd} {j : After ps} (h : parsepipe s ps = .ok (c, j)) :
    ∃ pre, toks s ps = pre ++ toks s j.1 ∧ Pipe pre (c.text s) ∧ Placed s c := by
  rw [parsepipe] at h
  rcases he : parseexec s ps with err | ⟨cmd, j1, hj1⟩
  · rw [he] at h
    cases h
  rw [he] at h
  dsimp only at h
  obtain ⟨pre1, ht1, hexec, hpl1⟩ := parseexec_sound hs he
  split at h
  · -- `|` and the rest of the pipeline
    next hbar =>
    obtain ⟨t, rest, ht, hg, hst⟩ := toks_of_peek hs hbar
    rw [pipe_of_starts hg hst] at ht
    rcases hr : parsepipe s (gettoken s (peek s j1 [124]).1).ps with err | ⟨right, r, hr'⟩
    · rw [hr] at h
      cases h
    rw [hr] at h
    cases h
    have hrest := peek_gettoken hs (l := [124]) ht
    have hlt : (toks s (gettoken s (peek s j1 [124]).1).ps).length < (toks s ps).length := by
      rw [hrest, ht1, ht]
      simp only [List.length_append, List.length_cons]
      omega
    obtain ⟨pre2, ht2, hpipe, hpl2⟩ := parsepipe_sound hs hr
    refine ⟨pre1 ++ .pipe :: pre2, ?_, .pipe hexec hpipe, ⟨hpl1, hpl2⟩⟩
    rw [ht1, ht, ← hrest, ht2]
    simp
  · cases h
    refine ⟨pre1, ?_, .exec hexec, hpl1⟩
    rw [ht1, toks_peek hs]
termination_by 4 * (toks s ps).length + 2
decreasing_by all_goals omega

/-- Whatever `parseexec` returns is derived from the tokens it passed. -/
theorem parseexec_sound (hs : 0 ∉ s) {ps : Nat} {c : Cmd} {j : After ps} (h : parseexec s ps = .ok (c, j)) :
    ∃ pre, toks s ps = pre ++ toks s j.1 ∧ Exec pre (c.text s) ∧ Placed s c := by
  rw [parseexec] at h
  split at h
  · -- a block
    rcases hb : parseblock s (peek s ps [40]).1 with err | ⟨cmd, j1, hj1⟩
    · rw [hb] at h
      cases h
    rw [hb] at h
    cases h
    have hlt := toks_length_peek hs ps [40]
    obtain ⟨pre, ht, hexec, hpl⟩ := parseblock_sound hs hb
    exact ⟨pre, by rw [← toks_peek hs ps [40], ht], hexec, hpl⟩
  · -- redirections and words
    split at h
    · cases h
    next ret j1 hr =>
    split at h
    · cases h
    next argv ret' k he =>
    cases h
    obtain ⟨pre1, rs1, ht1, hrs1, htext1, hpl1⟩ := parseredirs_sound hs hr
    obtain ⟨pre2, ws, rs2, ht2, hws, hargv, htext2, hlen, hpl2⟩ := execLoop_sound hs he (by decide)
    have hargv' : argv.map (argText s) = ws := by simpa using hargv
    obtain ⟨hpa, hpr⟩ := hpl2 (fun _ h => by cases h) (hpl1 (fun _ h => by cases h))
    refine ⟨pre1 ++ pre2, ?_, ?_, placed_setArgv hpa hpr⟩
    · rw [← toks_peek hs ps [40], ht1, ht2, List.append_assoc]
    · rw [text_setArgv, htext2, htext1, hargv', ← Tree.wrap_append, Tree.setArgv_wrap]
      exact .simple hrs1 hws (by rw [← hargv', List.length_map]; exact hlen)
termination_by 4 * (toks s ps).length + 1
decreasing_by omega

/-- Whatever `parseblock` returns is a block derived from the tokens it passed. -/
theorem parseblock_sound (hs : 0 ∉ s) {ps : Nat} {c : Cmd} {j : After ps} (h : parseblock s ps = .ok (c, j)) :
    ∃ pre, toks s ps = pre ++ toks s j.1 ∧ Exec pre (c.text s) ∧ Placed s c := by
  rw [parseblock] at h
  split at h
  · next hpar =>
    obtain ⟨t, rest, ht, hg, hst⟩ := toks_of_peek hs hpar
    rw [lparen_of_starts hg hst] at ht
    rcases hl : parseline s (gettoken s (peek s ps [40]).1).ps with err | ⟨cmd, j1, hj1⟩
    · rw [hl] at h
      cases h
    rw [hl] at h
    dsimp only at h
    have hrest := peek_gettoken hs (l := [40]) ht
    have hlt : (toks s (gettoken s (peek s ps [40]).1).ps).length < (toks s ps).length := by
      rw [hrest, ht, List.length_cons]
      omega
    obtain ⟨pre1, ht1, hline, hpl1⟩ := parseline_sound hs hl
    split at h
    · next hclose =>
      obtain ⟨t', rest', ht', hg', hst'⟩ := toks_of_peek hs hclose
      rw [rparen_of_starts hg' hst'] at ht'
      split at h
      · cases h
      next cmd' k hr =>
      cases h
      obtain ⟨pre2, rs, ht2, hrs, htext, hpl2⟩ := parseredirs_sound hs hr
      refine ⟨.lparen :: pre1 ++ .rparen :: pre2, ?_, ?_, hpl2 hpl1⟩
      · rw [ht, ← hrest, ht1, ht', ← peek_gettoken hs (l := [41]) ht', ht2]
        simp
      · rw [htext]
        exact .block hline hrs
    · cases h
  · cases h
termination_by 4 * (toks s ps).length
decreasing_by omega

end

end Sound

-- ================================================================ completeness

section Complete

variable {s : List UInt8}

theorem FollowPipe.amps {k : Nat} {rest : List Tok} (h : FollowLine rest) :
    FollowPipe (List.replicate k .amp ++ rest) := by
  cases k with
  | zero => exact h.pipe
  | succ k => exact .inr (.inl rfl)

theorem FollowPipe.amps_semi {k : Nat} {l : List Tok} : FollowPipe (List.replicate k .amp ++ .semi :: l) := by
  cases k with
  | zero => exact .inr (.inr rfl)
  | succ k => exact .inr (.inl rfl)

theorem FollowLine.tests {rest : List Tok} (h : FollowLine rest) :
    starts [59] rest = false ∧ starts [38] rest = false := by
  cases rest with
  | nil => exact ⟨rfl, rfl⟩
  | cons t rest =>
      rw [show t = .rparen from h]
      exact ⟨rfl, rfl⟩

theorem FollowPipe.not_pipe {rest : List Tok} (h : FollowPipe rest) : starts [124] rest = false := by
  cases rest with
  | nil => rfl
  | cons t rest => rcases h with rfl | rfl | rfl <;> rfl

/-- A simple command does not start with `(`. -/
theorem Redirs.not_lparen {r ts rest : List Tok} {rs rs' : List Rd} {ws : List (List UInt8)} (hr : Redirs r rs)
    (hw : Words ts ws rs') (hg : ∀ t ∈ ts ++ rest, t.Good) (hf : FollowExec rest) :
    starts [40] (r ++ (ts ++ rest)) = false := by
  cases hr with
  | nil =>
      cases hw with
      | nil => exact hf.not_lparen
      | cons => exact starts_word (hg _ List.mem_cons_self) (by simp [symbols])
  | cons hr' _ => cases hr' <;> rfl

mutual

/-- A derivation of a `line`, followed by what may follow one, is what
`parseline` returns. -/
theorem parseline_complete (hs : 0 ∉ s) {pre : List Tok} {t : Tree} (h : Line pre t) {ps : Nat}
    {rest : List Tok} (ht : toks s ps = pre ++ rest) (hf : FollowLine rest) (hps : ps ≤ s.length) :
    ∃ c j, parseline s ps = .ok (c, j) ∧ toks s j.1 = rest ∧ j.1 ≤ s.length ∧ c.text s = t := by
  match h with
  | @Line.pipe p _ k hp =>
      obtain ⟨c0, ⟨j0, hj0⟩, hc0, ht0, hl0, htext0⟩ :=
        parsepipe_complete hs hp (show toks s ps = p ++ (List.replicate k .amp ++ rest) by rw [ht, List.append_assoc])
          (FollowPipe.amps hf) hps
      obtain ⟨hk, hb⟩ := backLoop_complete hs c0 ht0 hf.tests.2
      have hno : (peek s (backLoop s c0 j0).2 [59]).2 = false := by
        rw [peek_starts hs, hk]
        exact hf.tests.1
      have hres : ∃ pf, parseline s ps =
          .ok ((backLoop s c0 j0).1, ⟨(peek s (backLoop s c0 j0).2 [59]).1, pf⟩) := by
        rw [parseline, hc0]
        dsimp only
        rw [dif_neg (by rw [hno]; exact Bool.false_ne_true)]
        exact ⟨_, rfl⟩
      obtain ⟨pf, hres⟩ := hres
      refine ⟨_, _, hres, ?_, ?_, ?_⟩
      · rw [toks_peek hs, hk]
      · exact peek_le_length [59] ((backLoop_le s c0 j0).2 hl0)
      · rw [hb, text_backs, htext0]
  | @Line.list p l _ _ k hp hl =>
      obtain ⟨c0, ⟨j0, hj0⟩, hc0, ht0, hl0, htext0⟩ :=
        parsepipe_complete hs hp (show toks s ps = p ++ (List.replicate k .amp ++ .semi :: (l ++ rest)) by simp [ht])
          FollowPipe.amps_semi hps
      obtain ⟨hk, hb⟩ := backLoop_complete hs c0 ht0 rfl
      have hyes : (peek s (backLoop s c0 j0).2 [59]).2 = true := by
        rw [peek_starts hs, hk]
        rfl
      have hlen : (gettoken s (peek s (backLoop s c0 j0).2 [59]).1).ps ≤ s.length :=
        gettoken_le_length (peek_le_length _ ((backLoop_le s c0 j0).2 hl0))
      obtain ⟨c1, ⟨j1, hj1⟩, hc1, ht1, hl1, htext1⟩ := parseline_complete hs hl (peek_gettoken hs hk) hf hlen
      have hres : ∃ pf, parseline s ps = .ok (.list (backLoop s c0 j0).1 c1, ⟨j1, pf⟩) := by
        rw [parseline, hc0]
        dsimp only
        rw [dif_pos hyes, hc1]
        exact ⟨_, rfl⟩
      obtain ⟨pf, hres⟩ := hres
      refine ⟨_, _, hres, ht1, hl1, ?_⟩
      rw [Cmd.text, hb, text_backs, htext0, htext1]

/-- A derivation of a `pipe`, followed by what may follow one, is what
`parsepipe` returns. -/
theorem parsepipe_complete (hs : 0 ∉ s) {pre : List Tok} {t : Tree} (h : Pipe pre t) {ps : Nat}
    {rest : List Tok} (ht : toks s ps = pre ++ rest) (hf : FollowPipe rest) (hps : ps ≤ s.length) :
    ∃ c j, parsepipe s ps = .ok (c, j) ∧ toks s j.1 = rest ∧ j.1 ≤ s.length ∧ c.text s = t := by
  match h with
  | .exec he =>
      obtain ⟨c0, ⟨j0, hj0⟩, hc0, ht0, hl0, htext0⟩ := parseexec_complete hs he ht hf.exec hps
      have hno : (peek s j0 [124]).2 = false := by
        rw [peek_starts hs, ht0]
        exact hf.not_pipe
      have hres : ∃ pf, parsepipe s ps = .ok (c0, ⟨(peek s j0 [124]).1, pf⟩) := by
        rw [parsepipe, hc0]
        dsimp only
        rw [dif_neg (by rw [hno]; exact Bool.false_ne_true)]
        exact ⟨_, rfl⟩
      obtain ⟨pf, hres⟩ := hres
      refine ⟨_, _, hres, ?_, peek_le_length [124] hl0, htext0⟩
      rw [toks_peek hs, ht0]
  | @Pipe.pipe e p _ _ he hp =>
      obtain ⟨c0, ⟨j0, hj0⟩, hc0, ht0, hl0, htext0⟩ :=
        parseexec_complete hs he (show toks s ps = e ++ (.pipe :: (p ++ rest)) by simp [ht]) (.inr (.inr (.inr rfl)))
          hps
      have hyes : (peek s j0 [124]).2 = true := by
        rw [peek_starts hs, ht0]
        rfl
      obtain ⟨c1, ⟨j1, hj1⟩, hc1, ht1, hl1, htext1⟩ :=
        parsepipe_complete hs hp (peek_gettoken hs ht0) hf (gettoken_le_length (peek_le_length _ hl0))
      have hres : ∃ pf, parsepipe s ps = .ok (.pipe c0 c1, ⟨j1, pf⟩) := by
        rw [parsepipe, hc0]
        dsimp only
        rw [dif_pos hyes, hc1]
        exact ⟨_, rfl⟩
      obtain ⟨pf, hres⟩ := hres
      refine ⟨_, _, hres, ht1, hl1, ?_⟩
      rw [Cmd.text, htext0, htext1]

/-- A derivation of an `exec`, followed by what may follow one, is what
`parseexec` returns. -/
theorem parseexec_complete (hs : 0 ∉ s) {pre : List Tok} {t : Tree} (h : Exec pre t) {ps : Nat}
    {rest : List Tok} (ht : toks s ps = pre ++ rest) (hf : FollowExec rest) (hps : ps ≤ s.length) :
    ∃ c j, parseexec s ps = .ok (c, j) ∧ toks s j.1 = rest ∧ j.1 ≤ s.length ∧ c.text s = t := by
  match h with
  | @Exec.block l r _ _ hl hr =>
      -- `parseblock` at `peek`'s position
      have ht0 : toks s (peek s ps [40]).1 = .lparen :: (l ++ .rparen :: (r ++ rest)) := by
        rw [toks_peek hs, ht]
        simp
      have hyes : (peek s ps [40]).2 = true := by
        rw [peek_starts hs, ← toks_peek hs, ht0]
        rfl
      have hyes' : (peek s (peek s ps [40]).1 [40]).2 = true := by
        rw [peek_starts hs, ht0]
        rfl
      obtain ⟨c0, ⟨j0, hj0⟩, hc0, ht0', hl0, htext0⟩ := parseline_complete hs hl (peek_gettoken hs ht0) rfl
        (gettoken_le_length (peek_le_length _ (peek_le_length _ hps)))
      have hclose : (peek s j0 [41]).2 = true := by
        rw [peek_starts hs, ht0']
        rfl
      obtain ⟨c1, k, hc1, hk, htext1⟩ := parseredirs_complete hs c0 hr (peek_gettoken hs ht0') hf.not_redir
      have hblock : ∃ pf, parseblock s (peek s ps [40]).1 = .ok (c1, ⟨k, pf⟩) := by
        rw [parseblock, dif_pos hyes', hc0]
        dsimp only
        rw [if_pos hclose]
        split
        · next heq => cases hc1.symm.trans heq
        · next heq =>
          cases hc1.symm.trans heq
          refine ⟨?_, rfl⟩
          have h1 := peek_gettoken_le s (peek s ps [40]).1 [40]
          have h2 := peek_gettoken_le s j0 [41]
          have h3 := (parseredirs_le heq).1
          omega
      obtain ⟨pf0, hblock⟩ := hblock
      have hres : ∃ pf, parseexec s ps = .ok (c1, ⟨k, pf⟩) := by
        rw [parseexec, if_pos hyes, hblock]
        exact ⟨_, rfl⟩
      obtain ⟨pf, hres⟩ := hres
      exact ⟨c1, ⟨k, pf⟩, hres, hk, (parseredirs_le hc1).2 (gettoken_le_length (peek_le_length _ hl0)),
        by rw [htext1, htext0]⟩
  | @Exec.simple r ts _ _ _ hr hw hlen =>
      have hg : ∀ t ∈ ts ++ rest, t.Good := fun t h => toks_good s ps t (by rw [ht, List.append_assoc]; exact List.mem_append_right _ h)
      have hno : (peek s ps [40]).2 = false := by
        rw [peek_starts hs, ht, List.append_assoc]
        exact hr.not_lparen hw hg hf
      have ht0 : toks s (peek s ps [40]).1 = r ++ (ts ++ rest) := by rw [toks_peek hs, ht, List.append_assoc]
      obtain ⟨c1, k1, hc1, hk1, htext1⟩ := parseredirs_complete hs (.exec []) hr ht0
        (hw.not_redir hg hf)
      obtain ⟨argv, c2, k2, hc2, hk2, hargv, htext2⟩ := execLoop_complete hs hw hk1 hf
        (show ([] : List (Nat × Nat)).length + _ < MAXARGS by simpa using hlen)
      have hres : ∃ pf, parseexec s ps = .ok (c2.setArgv argv, ⟨k2, pf⟩) := by
        rw [parseexec, if_neg (by rw [hno]; exact Bool.false_ne_true)]
        split
        · next heq => cases hc1.symm.trans heq
        · next heq =>
          cases hc1.symm.trans heq
          split
          · next heq' => cases hc2.symm.trans heq'
          · next heq' =>
            cases hc2.symm.trans heq'
            refine ⟨?_, rfl⟩
            have h1 := peek_le s ps [40]
            have h2 := (parseredirs_le heq).1
            have h3 := (execLoop_le heq').1
            omega
      obtain ⟨pf, hres⟩ := hres
      have hl1 := (parseredirs_le hc1).2 (peek_le_length _ hps)
      refine ⟨_, ⟨k2, pf⟩, hres, hk2, (execLoop_le hc2).2 hl1, ?_⟩
      rw [text_setArgv, htext2, htext1, ← Tree.wrap_append, Tree.setArgv_wrap]
      simp only [List.map_nil, List.nil_append] at hargv
      rw [hargv]
      rfl

end

end Complete

-- ================================================================ parsecmd

section Parsecmd

variable {s : List UInt8}

theorem toks_length (s : List UInt8) : toks s s.length = [] := by
  rw [toks, List.drop_length, tokenize]

/-- Whatever `parsecmd` returns is derived from the whole line, with
its positions on words and the line after `nulterminate`. -/
theorem parsecmd_sound (hs : 0 ∉ s) {c : Cmd} {m : ByteMap} (h : parsecmd s = .ok (c, m)) :
    Line (tokenize s) (c.text s) ∧ Placed s c ∧ m = nulterminate c (get s) := by
  rw [parsecmd] at h
  rcases hl : parseline s 0 with err | ⟨cmd, j, hj⟩
  · rw [hl] at h
    cases h
  rw [hl] at h
  dsimp only at h
  split_ifs at h with hend
  cases h
  obtain ⟨pre, ht, hline, hpl⟩ := parseline_sound hs hl
  have hnil : toks s j = [] := by
    rw [← toks_peek hs j [], not_not.1 hend, toks_length]
  rw [hnil, List.append_nil, toks, List.drop_zero] at ht
  exact ⟨ht ▸ hline, hpl, rfl⟩

/-- A derivation of the whole line is what `parsecmd` returns. -/
theorem parsecmd_complete (hs : 0 ∉ s) {t : Tree} (h : Line (tokenize s) t) :
    ∃ c, parsecmd s = .ok (c, nulterminate c (get s)) ∧ c.text s = t := by
  obtain ⟨c, ⟨j, hj⟩, hc, ht, hl, htext⟩ :=
    parseline_complete hs h (show toks s 0 = tokenize s ++ [] by rw [toks, List.drop_zero, List.append_nil])
      trivial (Nat.zero_le _)
  have hend : (peek s j []).1 = s.length := skipWs_of_toks_nil hl ht
  refine ⟨c, ?_, htext⟩
  rw [parsecmd, hc]
  dsimp only
  rw [if_neg (not_not.2 hend)]

/-- The shell parses exactly its grammar. On a line without NUL bytes,
`parsecmd` returns, rather than panics, iff the line's tokens derive a
`line`; and then a tree is derived iff it is what the returned command
reads as in the line after `nulterminate`: its nodes, modes and
descriptors, and each argument and file name as the C string of its
word. -/
theorem parsecmd_parses_grammar (s : List UInt8) (hs : 0 ∉ s) :
    ((∃ r, parsecmd s = .ok r) ↔ ∃ t, Line (tokenize s) t) ∧
      ∀ c m, parsecmd s = .ok (c, m) → ∀ t, Line (tokenize s) t ↔ Reads m c t := by
  refine ⟨⟨fun ⟨⟨c, m⟩, h⟩ => ⟨_, (parsecmd_sound hs h).1⟩, fun ⟨t, ht⟩ => ?_⟩, fun c m h t => ?_⟩
  · obtain ⟨c, hc, -⟩ := parsecmd_complete hs ht
    exact ⟨_, hc⟩
  obtain ⟨hline, hpl, rfl⟩ := parsecmd_sound hs h
  have hreads := reads_text hs hpl
  constructor
  · -- the derivation's tree is what the parser built
    intro ht
    obtain ⟨c', hc', htext⟩ := parsecmd_complete hs ht
    obtain ⟨rfl, -⟩ := Prod.mk.inj (Except.ok.inj (h.symm.trans hc'))
    rw [← htext]
    exact hreads
  · -- reading is a function, and the built tree is derived
    intro hr
    rw [hr.unique hreads]
    exact hline

theorem parsecmd_parses_grammar_redirect :
    0 ∉ [108, 115, 32, 62, 32, 102] ∧
      (((∃ r, parsecmd [108, 115, 32, 62, 32, 102] = .ok r) ↔ ∃ t, Line (tokenize [108, 115, 32, 62, 32, 102]) t) ∧
        ∀ c m, parsecmd [108, 115, 32, 62, 32, 102] = .ok (c, m) →
          ∀ t, Line (tokenize [108, 115, 32, 62, 32, 102]) t ↔ Reads m c t) :=
  ⟨by decide, parsecmd_parses_grammar [108, 115, 32, 62, 32, 102] (by decide)⟩

end Parsecmd

end Sh

end Xv6
