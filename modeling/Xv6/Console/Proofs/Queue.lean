import Xv6.Console.System
import Xv6.Lib.Ring
import Xv6.Lib.Simulation

/-!
The console's two queues, and what the interrupt handler and a reader
do to them.

# The queues

The committed input is the `w - r` cells after `r` (`queue`), and the
line being edited the `e - w` cells after `w` (`line`), on the ring of
`INPUT_BUF` cells of `Lib/Ring`. As `INPUT_BUF` divides `2 ^ 32`, the
wrap of a counter moves no cell. `Inv` says that the two together fit
the ring and that the edit line holds no newline: a newline commits
the line it ends.

# The handler

`consoleintr` is `intrSpec` on the two queues (`intr_spec`): a byte is
appended to the edit line while both queues leave room, and the line
is committed by a newline, a `^D` or the last free cell; `^H` and `DEL`
drop the line's last byte and `^U` the whole line, never a committed
one.

# A reader

A turn of a call whose copies all succeed is `readSpec` on the
committed queue (`readLoop_spec`): it takes bytes from the front and
hands them out until it has `n`, a newline or a `^D`, which it leaves
unless it is the call's first byte. A turn moves only `r`, forward over
committed cells (`readLoop_cases`). A copy that fails is the exception:
the byte was taken before the copy, so it leaves the queue without
being handed out (`consoleread_loses_byte`).
-/

namespace Xv6

namespace Cons

/-- The committed input, oldest first: `buf[r..w)`. -/
def queue (s : Cons) : List UInt8 := Ring.view s.buf INPUT_BUF s.r.toNat (s.w - s.r).toNat

/-- The line being edited: `buf[w..e)`. -/
def line (s : Cons) : List UInt8 := Ring.view s.buf INPUT_BUF s.w.toNat (s.e - s.w).toNat

/-- `r ≤ w ≤ e ≤ r + INPUT_BUF` across the wrap, and no newline in the
edit line. -/
structure Inv (s : Cons) : Prop where
  bound : (s.w - s.r).toNat + (s.e - s.w).toNat ≤ INPUT_BUF
  no_nl : 10 ∉ s.line

variable {s : Cons}

-- ================================================== the counters

theorem dvd_word : INPUT_BUF ∣ 2 ^ 32 := by decide

@[simp] theorem toNat_INPUT_BUF : INPUT_BUF.toUInt32.toNat = INPUT_BUF := rfl

/-- `e - r` counts both queues. -/
theorem sub_e_r (hb : (s.w - s.r).toNat + (s.e - s.w).toNat ≤ INPUT_BUF) :
    (s.e - s.r).toNat = (s.w - s.r).toNat + (s.e - s.w).toNat := by
  simp only [UInt32.toNat_sub] at *
  have := s.r.toNat_lt
  have := s.w.toNat_lt
  have := s.e.toNat_lt
  unfold INPUT_BUF at hb
  omega

theorem w_eq : (s.r.toNat + (s.w - s.r).toNat) % 2 ^ 32 = s.w.toNat := by
  simp only [UInt32.toNat_sub]
  have := s.r.toNat_lt
  have := s.w.toNat_lt
  omega

theorem e_eq : (s.w.toNat + (s.e - s.w).toNat) % 2 ^ 32 = s.e.toNat := by
  simp only [UInt32.toNat_sub]
  have := s.w.toNat_lt
  have := s.e.toNat_lt
  omega

/-- `e`'s cell is the one after the edit line. -/
theorem e_mod_line : s.e.toNat % INPUT_BUF = (s.w.toNat + (s.e - s.w).toNat) % INPUT_BUF := by
  conv_lhs => rw [← e_eq]
  exact Nat.mod_mod_of_dvd _ dvd_word

/-- `e`'s cell, counted from `r`. -/
theorem e_mod_queue (hb : (s.w - s.r).toNat + (s.e - s.w).toNat ≤ INPUT_BUF) :
    s.e.toNat % INPUT_BUF = (s.r.toNat + ((s.w - s.r).toNat + (s.e - s.w).toNat)) % INPUT_BUF := by
  rw [← sub_e_r hb]
  have : (s.r.toNat + (s.e - s.r).toNat) % 2 ^ 32 = s.e.toNat := by
    simp only [UInt32.toNat_sub]
    have := s.r.toNat_lt
    have := s.e.toNat_lt
    omega
  conv_lhs => rw [← this]
  exact Nat.mod_mod_of_dvd _ dvd_word

/-- The ring read from `x + 1`, for a `UInt32` counter `x`. -/
theorem view_succ_counter (data : Nat → UInt8) (x : UInt32) (n : Nat) :
    Ring.view data INPUT_BUF (x + 1).toNat n = Ring.view data INPUT_BUF (x.toNat + 1) n := by
  rw [UInt32.toNat_add, UInt32.toNat_one, Ring.view_mod dvd_word]

-- ================================================= the handler's stores

/-- The store of a typed byte: `cons.buf[cons.e++ % INPUT_BUF] = c`. -/
def put (s : Cons) (c : UInt8) : Cons :=
  { s with buf := Function.update s.buf (s.e.toNat % INPUT_BUF) c, e := s.e + 1 }

/-- `cons.w = cons.e`. -/
def commit (s : Cons) : Cons := { s with w := s.e }

/-- `cons.e--`. -/
def back (s : Cons) : Cons := { s with e := s.e - 1 }

theorem length_queue : s.queue.length = (s.w - s.r).toNat := by simp [queue]

theorem length_line : s.line.length = (s.e - s.w).toNat := by simp [line]

theorem sub_put_w (hl : (s.e - s.w).toNat < INPUT_BUF) (c : UInt8) :
    ((s.put c).e - (s.put c).w).toNat = (s.e - s.w).toNat + 1 := by
  simp only [put, UInt32.toNat_sub, UInt32.toNat_add, UInt32.toNat_one] at *
  have := s.w.toNat_lt
  have := s.e.toNat_lt
  unfold INPUT_BUF at hl
  omega

theorem queue_put (hb : (s.w - s.r).toNat + (s.e - s.w).toNat < INPUT_BUF) (c : UInt8) :
    (s.put c).queue = s.queue := by
  unfold queue put
  dsimp only
  rw [e_mod_queue hb.le, Ring.view_update_out (Nat.le_add_right _ _) hb]

/-- A typed byte is appended to the edit line. -/
theorem line_put (hl : (s.e - s.w).toNat < INPUT_BUF) (c : UInt8) : (s.put c).line = s.line ++ [c] := by
  have hsub := sub_put_w hl c
  unfold line
  rw [hsub]
  unfold put
  dsimp only
  rw [e_mod_line, Ring.view_push hl]

/-- Committing moves the edit line to the end of the committed input. -/
theorem queue_commit (hb : (s.w - s.r).toNat + (s.e - s.w).toNat ≤ INPUT_BUF) :
    s.commit.queue = s.queue ++ s.line := by
  have hw : Ring.view s.buf INPUT_BUF (s.r.toNat + (s.w - s.r).toNat) (s.e - s.w).toNat = s.line := by
    rw [← Ring.view_mod dvd_word, w_eq]
    rfl
  unfold queue commit
  dsimp only
  rw [sub_e_r hb, Ring.view_add, hw]

theorem line_commit : s.commit.line = [] := by
  simp [line, commit]

theorem queue_back : s.back.queue = s.queue := rfl

/-- `cons.e--` drops the edit line's last byte. -/
theorem line_back (he : s.e ≠ s.w) : s.back.line = s.line.dropLast := by
  have hne : (s.e - s.w).toNat ≠ 0 := by
    intro h0
    apply he
    rw [UInt32.ext_iff]
    simp only [UInt32.toNat_sub] at h0
    have := s.w.toNat_lt
    have := s.e.toNat_lt
    omega
  have hsub : (s.back.e - s.back.w).toNat = (s.e - s.w).toNat - 1 := by
    simp only [back, UInt32.toNat_sub, UInt32.toNat_one] at *
    have := s.w.toNat_lt
    have := s.e.toNat_lt
    omega
  rw [List.dropLast_eq_take, length_line]
  unfold line
  rw [hsub, Ring.take_view (Nat.sub_le _ _)]
  rfl

/-- The byte before `e` is the edit line's last. -/
theorem last_mem_line (he : s.e ≠ s.w) : s.buf ((s.e - 1).toNat % INPUT_BUF) ∈ s.line := by
  obtain ⟨k, hk⟩ : ∃ k, (s.e - s.w).toNat = k + 1 := by
    refine Nat.exists_eq_add_one.mpr (Nat.pos_of_ne_zero fun h0 => he ?_)
    rw [UInt32.ext_iff]
    simp only [UInt32.toNat_sub] at h0
    have := s.w.toNat_lt
    have := s.e.toNat_lt
    omega
  have hidx : (s.e - 1).toNat % INPUT_BUF = (s.w.toNat + k) % INPUT_BUF := by
    have : (s.e - 1).toNat = (s.w.toNat + k) % 2 ^ 32 := by
      simp only [UInt32.toNat_sub, UInt32.toNat_one] at *
      have := s.w.toNat_lt
      have := s.e.toNat_lt
      omega
    rw [this, Nat.mod_mod_of_dvd _ dvd_word]
  unfold line
  rw [hk, Ring.view_succ, hidx]
  exact List.mem_append_right _ (List.mem_singleton_self _)

theorem with_e_self (he : s.e = s.w) : { s with e := s.w } = s := by
  cases s
  dsimp only at he ⊢
  rw [he]

/-- `^U` with no newline on the edit line drops the whole line. -/
theorem killLine_eq : ∀ (fuel : Nat) {s : Cons}, 10 ∉ s.line → (s.e - s.w).toNat ≤ fuel →
    killLine fuel s = { s with e := s.w }
  | 0, s, _, hf => by
      have he : s.e = s.w := by
        rw [UInt32.ext_iff]
        simp only [UInt32.toNat_sub, Nat.le_zero] at hf
        have := s.w.toNat_lt
        have := s.e.toNat_lt
        omega
      rw [with_e_self he]
      rfl
  | fuel + 1, s, hnl, hf => by
      by_cases he : s.e = s.w
      · rw [killLine, if_neg (fun h => h.1 he), with_e_self he]
      -- the byte before `e` is on the line, so it is no newline: back up one
      have hlast : s.buf ((s.e - 1).toNat % INPUT_BUF) ≠ 10 := fun h => hnl (h ▸ last_mem_line he)
      have hnl' : 10 ∉ s.back.line := by
        rw [line_back he]
        exact fun hm => hnl (List.dropLast_subset _ hm)
      have hf' : (s.back.e - s.back.w).toNat ≤ fuel := by
        have hne : s.e.toNat ≠ s.w.toNat := fun h => he (UInt32.ext_iff.mpr h)
        simp only [back, UInt32.toNat_sub, UInt32.toNat_one] at *
        have := s.w.toNat_lt
        have := s.e.toNat_lt
        omega
      rw [killLine, if_pos ⟨he, hlast⟩]
      exact killLine_eq fuel hnl' hf'

-- ============================================================ the handler

/-- What the handler is for: the committed input and the edit line
after the input byte `c`. -/
def intrSpec (c : UInt8) (Q L : List UInt8) : List UInt8 × List UInt8 :=
  if c = ctrl 'P' then (Q, L)
  else if c = ctrl 'U' then (Q, [])
  else if c = ctrl 'H' ∨ c = 0x7f then (Q, L.dropLast)
  else if c ≠ 0 ∧ Q.length + L.length < INPUT_BUF then
    let c : UInt8 := if c = 13 then 10 else c
    if c = 10 ∨ c = ctrl 'D' ∨ Q.length + L.length + 1 = INPUT_BUF then (Q ++ (L ++ [c]), [])
    else (Q, L ++ [c])
  else (Q, L)

theorem line_eq_nil (he : s.e = s.w) : s.line = [] := by
  simp [line, he]

/-- The test for a full buffer after a store, `cons.e == cons.r + INPUT_BUF`. -/
theorem full_iff (hb : (s.w - s.r).toNat + (s.e - s.w).toNat < INPUT_BUF) (c : UInt8) :
    (s.put c).e = (s.put c).r + INPUT_BUF.toUInt32 ↔
      (s.w - s.r).toNat + (s.e - s.w).toNat + 1 = INPUT_BUF := by
  rw [← sub_e_r hb.le, UInt32.ext_iff]
  simp only [put, UInt32.toNat_sub, UInt32.toNat_add, UInt32.toNat_one, toNat_INPUT_BUF] at *
  have := s.r.toNat_lt
  have := s.w.toNat_lt
  have := s.e.toNat_lt
  unfold INPUT_BUF at *
  omega

/-- The handler's default case: store the byte, and commit the line when
it is whole, ends the input, or fills the buffer. -/
theorem consoleintr_default {c : UInt8} (hP : c ≠ ctrl 'P') (hU : c ≠ ctrl 'U')
    (hH : ¬(c = ctrl 'H' ∨ c = 0x7f)) (hd : c ≠ 0 ∧ (s.e - s.r).toNat < INPUT_BUF) :
    s.consoleintr c =
      let c : UInt8 := if c = 13 then 10 else c
      if c = 10 ∨ c = ctrl 'D' ∨ (s.put c).e = (s.put c).r + INPUT_BUF.toUInt32 then (s.put c).commit
      else s.put c := by
  rw [consoleintr, if_neg hP, if_neg hU, if_neg hH, if_pos hd]
  rfl

/-- `consoleintr` is `intrSpec` on the two queues. -/
theorem intr_spec (h : s.Inv) (c : UInt8) :
    ((s.consoleintr c).queue, (s.consoleintr c).line) = intrSpec c s.queue s.line := by
  have hb := h.bound
  by_cases hP : c = ctrl 'P'
  · rw [consoleintr, intrSpec, if_pos hP, if_pos hP]
  by_cases hU : c = ctrl 'U'
  · rw [consoleintr, intrSpec, if_neg hP, if_neg hP, if_pos hU, if_pos hU,
      killLine_eq _ h.no_nl (Nat.le_refl _)]
    exact Prod.ext rfl (line_eq_nil rfl)
  by_cases hH : c = ctrl 'H' ∨ c = 0x7f
  · rw [consoleintr, intrSpec, if_neg hP, if_neg hP, if_neg hU, if_neg hU, if_pos hH, if_pos hH]
    by_cases he : s.e = s.w
    · rw [if_neg (not_not.mpr he), line_eq_nil he]
      rfl
    · rw [if_pos he]
      exact Prod.ext queue_back (line_back he)
  rw [intrSpec, if_neg hP, if_neg hU, if_neg hH, length_queue, length_line]
  by_cases hd : c ≠ 0 ∧ (s.w - s.r).toNat + (s.e - s.w).toNat < INPUT_BUF
  · rw [consoleintr_default hP hU hH (sub_e_r hb ▸ hd), if_pos hd]
    dsimp only
    generalize (if c = 13 then (10 : UInt8) else c) = c'
    have hq := queue_put hd.2 c'
    have hl := line_put (Nat.lt_of_le_of_lt (Nat.le_add_left _ _) hd.2) c'
    simp only [full_iff hd.2]
    split_ifs
    · -- the line is committed with its last byte
      have hb' : ((s.put c').w - (s.put c').r).toNat + ((s.put c').e - (s.put c').w).toNat ≤ INPUT_BUF := by
        rw [← length_queue, ← length_line, hq, hl, List.length_append, length_queue, length_line]
        exact Nat.succ_le_of_lt hd.2
      rw [queue_commit hb', hq, hl, line_commit]
    · rw [hq, hl]
  · rw [consoleintr, if_neg hP, if_neg hU, if_neg hH, if_neg (sub_e_r hb ▸ hd), if_neg hd]

theorem inv_iff : s.Inv ↔ s.queue.length + s.line.length ≤ INPUT_BUF ∧ 10 ∉ s.line := by
  rw [length_queue, length_line]
  exact ⟨fun h => ⟨h.bound, h.no_nl⟩, fun h => ⟨h.1, h.2⟩⟩

/-- The handler's queues fit the ring, and a newline never stays on the
edit line. -/
theorem intrSpec_keeps {c : UInt8} {Q L : List UInt8} (hb : Q.length + L.length ≤ INPUT_BUF) (hnl : 10 ∉ L) :
    (intrSpec c Q L).1.length + (intrSpec c Q L).2.length ≤ INPUT_BUF ∧ 10 ∉ (intrSpec c Q L).2 := by
  unfold intrSpec
  by_cases hP : c = ctrl 'P'
  · rw [if_pos hP]
    exact ⟨hb, hnl⟩
  rw [if_neg hP]
  by_cases hU : c = ctrl 'U'
  · rw [if_pos hU]
    exact ⟨by simp only [List.length_nil]; omega, List.not_mem_nil⟩
  rw [if_neg hU]
  by_cases hH : c = ctrl 'H' ∨ c = 0x7f
  · rw [if_pos hH]
    exact ⟨by simp only [List.length_dropLast]; omega, fun h => hnl (List.dropLast_subset L h)⟩
  rw [if_neg hH]
  by_cases hd : c ≠ 0 ∧ Q.length + L.length < INPUT_BUF
  · rw [if_pos hd]
    dsimp only
    generalize (if c = 13 then (10 : UInt8) else c) = c'
    by_cases hcm : c' = 10 ∨ c' = ctrl 'D' ∨ Q.length + L.length + 1 = INPUT_BUF
    · -- committed: the line moves over with its new byte
      rw [if_pos hcm]
      simp only [List.length_append, List.length_singleton, List.length_nil]
      exact ⟨by omega, List.not_mem_nil⟩
    · -- kept on the line: the byte is no newline
      rw [if_neg hcm]
      refine ⟨by simp only [List.length_append, List.length_singleton]; omega, fun h => ?_⟩
      rcases List.mem_append.mp h with h | h
      · exact hnl h
      · exact hcm (.inl (List.mem_singleton.mp h).symm)
  · rw [if_neg hd]
    exact ⟨hb, hnl⟩

theorem Inv.intr (h : s.Inv) (c : UInt8) : (s.consoleintr c).Inv := by
  rw [inv_iff] at h ⊢
  have hs := intr_spec (inv_iff.mpr h) c
  have hq : (s.consoleintr c).queue = _ := congrArg Prod.fst hs
  have hl : (s.consoleintr c).line = _ := congrArg Prod.snd hs
  rw [hq, hl]
  exact intrSpec_keeps h.1 h.2

-- =============================================================== a reader

/-- What a reader's turn is for, on the committed input: take bytes
from the front and hand them out until `n` are out, a newline is out,
or a `^D` comes, which stays unless it is the call's first byte. -/
def readSpec (killed : Bool) (target : Nat) : Nat → List UInt8 → List UInt8 → List UInt8 × ReadTurn
  | 0, Q, out => (Q, .ret target out)
  | n + 1, [], out => ([], if killed then .ret (-1) out else .wait (n + 1) out)
  | n + 1, c :: Q, out =>
      if c = ctrl 'D' then (if n + 1 < target then c :: Q else Q, .ret (target - (n + 1)) out)
      else if c = 10 then (Q, .ret (target - n) (out ++ [c]))
      else readSpec killed target n Q (out ++ [c])

theorem queue_eq_nil (hrw : s.r = s.w) : s.queue = [] := by
  simp [queue, hrw]

/-- `cons.buf[cons.r++ % INPUT_BUF]` is the committed input's first byte. -/
theorem queue_pop (hrw : s.r ≠ s.w) :
    s.queue = s.buf (s.r.toNat % INPUT_BUF) :: { s with r := s.r + 1 }.queue := by
  obtain ⟨k, hk⟩ : ∃ k, (s.w - s.r).toNat = k + 1 := by
    refine Nat.exists_eq_add_one.mpr (Nat.pos_of_ne_zero fun h0 => hrw ?_)
    rw [UInt32.ext_iff]
    simp only [UInt32.toNat_sub] at h0
    have := s.r.toNat_lt
    have := s.w.toNat_lt
    omega
  have hk' : (s.w - (s.r + 1)).toNat = k := by
    simp only [UInt32.toNat_sub, UInt32.toNat_add, UInt32.toNat_one] at *
    have := s.r.toNat_lt
    have := s.w.toNat_lt
    omega
  unfold queue
  dsimp only
  rw [hk, hk', Ring.view_pop, view_succ_counter]

theorem pushback (x : UInt32) : x + 1 - 1 = x := by simp

/-- A turn whose copies all succeed is `readSpec` on the committed input. -/
theorem readLoop_spec {killed : Bool} {dst : Nat → Bool} {target : Nat} (hdst : ∀ i < target, dst i = true) :
    ∀ (n : Nat) {s : Cons} {out : List UInt8}, n ≤ target →
      ((s.readLoop killed dst target n out).1.queue, (s.readLoop killed dst target n out).2) =
        readSpec killed target n s.queue out
  | 0, s, out, _ => rfl
  | n + 1, s, out, hn => by
      by_cases hrw : s.r = s.w
      · -- nothing committed: the call sleeps, or returns `-1` when killed
        have hq := queue_eq_nil hrw
        cases killed <;> simp [readLoop, hrw, hq, readSpec]
      rw [readLoop, if_neg hrw, queue_pop hrw, readSpec]
      dsimp only
      have hd : dst (target - (n + 1)) = true := hdst _ (by omega)
      by_cases hD : s.buf (s.r.toNat % INPUT_BUF) = ctrl 'D'
      · rw [if_pos hD, if_pos hD]
        split_ifs
        · -- the `^D` is put back: `r` is where it was
          show ({ s with r := s.r + 1 - 1 }.queue, _) = _
          rw [pushback, ← queue_pop hrw]
        · rfl
      rw [if_neg hD, if_neg hD, hd]
      by_cases hnl : s.buf (s.r.toNat % INPUT_BUF) = 10
      · rw [if_pos hnl, if_pos hnl]
        rfl
      rw [if_neg hnl, if_neg hnl]
      exact readLoop_spec hdst n (by omega)

/-- The edit line reads only `buf`, `w` and `e`. -/
theorem line_congr {s' : Cons} (hb : s'.buf = s.buf) (hw : s'.w = s.w) (he : s'.e = s.e) :
    s'.line = s.line := by
  unfold line
  rw [hb, hw, he]

theorem length_pop (hrw : s.r ≠ s.w) : ({ s with r := s.r + 1 }.w - { s with r := s.r + 1 }.r).toNat <
    (s.w - s.r).toNat := by
  have h := congrArg List.length (queue_pop hrw)
  rw [List.length_cons, length_queue, length_queue] at h
  omega

/-- A turn, whatever its copies do, moves only `r`, and only over
committed input; a call that sleeps wants no more than it did. -/
theorem readLoop_frame {killed : Bool} {dst : Nat → Bool} {target : Nat} :
    ∀ (n : Nat) {s : Cons} {out : List UInt8},
      (s.readLoop killed dst target n out).1.buf = s.buf ∧ (s.readLoop killed dst target n out).1.w = s.w ∧
        (s.readLoop killed dst target n out).1.e = s.e ∧
        ((s.readLoop killed dst target n out).1.w - (s.readLoop killed dst target n out).1.r).toNat ≤
          (s.w - s.r).toNat ∧
        ∀ m out', (s.readLoop killed dst target n out).2 = .wait m out' → m ≤ n
  | 0, s, out => ⟨rfl, rfl, rfl, Nat.le_refl _, fun _ _ h => by cases h⟩
  | n + 1, s, out => by
      by_cases hrw : s.r = s.w
      · -- the call sleeps, or returns `-1` when killed: nothing moves
        rw [readLoop, if_pos hrw]
        cases killed
        · refine ⟨rfl, rfl, rfl, Nat.le_refl _, fun m out' h => ?_⟩
          cases h
          exact Nat.le_refl _
        · exact ⟨rfl, rfl, rfl, Nat.le_refl _, fun _ _ h => by cases h⟩
      have hlt := length_pop hrw
      rw [readLoop, if_neg hrw]
      dsimp only
      split_ifs
      · -- the `^D` put back
        refine ⟨rfl, rfl, rfl, ?_, fun _ _ h => by cases h⟩
        show (s.w - (s.r + 1 - 1)).toNat ≤ _
        rw [pushback]
      · exact ⟨rfl, rfl, rfl, hlt.le, fun _ _ h => by cases h⟩
      · exact ⟨rfl, rfl, rfl, hlt.le, fun _ _ h => by cases h⟩
      · exact ⟨rfl, rfl, rfl, hlt.le, fun _ _ h => by cases h⟩
      · obtain ⟨hb, hw, he, hq, hm⟩ := @readLoop_frame killed dst target n { s with r := s.r + 1 }
          (out ++ [s.buf (s.r.toNat % INPUT_BUF)])
        exact ⟨hb, hw, he, Nat.le_trans hq hlt.le, fun m out' h => Nat.le_succ_of_le (hm m out' h)⟩

theorem Inv.readLoop (h : s.Inv) (killed : Bool) (dst : Nat → Bool) (target n : Nat) (out : List UInt8) :
    (s.readLoop killed dst target n out).1.Inv := by
  obtain ⟨hb, hw, he, hq, -⟩ := @readLoop_frame killed dst target n s out
  refine ⟨?_, ?_⟩
  · rw [hw, he] at *
    have := h.bound
    omega
  · rw [line_congr hb hw he]
    exact h.no_nl

-- ========================================================= a failed copy

/-- A call whose first `copyout` fails, on committed input that does
not start with `^D`, returns `0` and leaves the input without its first
byte: the byte is taken and handed to no one. -/
theorem consoleread_loses_byte {c : UInt8} {rest : List UInt8} {killed : Bool} {dst : Nat → Bool}
    {n : Int} (hq : s.queue = c :: rest) (hc : c ≠ ctrl 'D') (hdst : dst 0 = false) (hn : 0 < n) :
    (s.consoleread killed dst n).2 = .ret 0 [] ∧ (s.consoleread killed dst n).1.queue = rest := by
  have hrw : s.r ≠ s.w := fun h => by rw [queue_eq_nil h] at hq; cases hq
  rw [queue_pop hrw] at hq
  obtain ⟨hc', hrest⟩ := List.cons.inj hq
  obtain ⟨k, hk⟩ : ∃ k, n.toNat = k + 1 := ⟨n.toNat - 1, by omega⟩
  rw [consoleread, if_pos hn, hk, readLoop, if_neg hrw]
  dsimp only
  rw [hc', if_neg hc, Nat.sub_self, hdst]
  exact ⟨by simp, hrest⟩

/-- After the line `a` is typed, a one-byte `read` into a buffer
`copyout` cannot reach returns `0`, and the `a` is gone. -/
theorem consoleread_loses_byte_typed :
    ((ConsSys.boot.cons.consoleintr 97).consoleintr 10).queue = [97, 10] ∧ (97 : UInt8) ≠ ctrl 'D' ∧
      (fun _ => false : Nat → Bool) 0 = false ∧ (0 : Int) < 1 ∧
      (((ConsSys.boot.cons.consoleintr 97).consoleintr 10).consoleread false (fun _ => false) 1).2 = .ret 0 [] ∧
      (((ConsSys.boot.cons.consoleintr 97).consoleintr 10).consoleread false (fun _ => false) 1).1.queue = [10] :=
  have hq : ((ConsSys.boot.cons.consoleintr 97).consoleintr 10).queue = [97, 10] := by decide
  ⟨hq, by decide, rfl, by decide, consoleread_loses_byte hq (by decide) rfl (by decide)⟩

end Cons

end Xv6
