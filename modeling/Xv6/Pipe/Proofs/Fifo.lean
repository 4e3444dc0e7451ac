import Xv6.Pipe.System
import Xv6.Lib.Simulation

/-!
The pipe's queue, and what every run keeps of it.

The bytes in the pipe are the `count = nwrite - nread` cells after
`nread` (`buffered`), on the ring of `PIPESIZE` cells of `Lib/Ring`.
As `PIPESIZE` divides `2 ^ 32`, the wrap of either counter moves no
cell. A store (`Pipe.store`) appends to the queue, and a copy loop
that takes `a` bytes (`Pipe.advance`) drops them from its front.

`PipeInv` holds between any two steps of any run (`pipe_fifo`): at
most `PIPESIZE` bytes are in the pipe, the bytes stored are the bytes
taken followed by the queue, and the bytes returned are a sublist of
the bytes taken. They are not all of them: `piperead` takes a byte
before its `copyout`, and a byte whose copy fails is neither returned
nor in the pipe any more (`piperead_of_fault`, `pipe_loses_byte`).
-/

namespace Xv6

namespace Pipe

/-- The number of bytes in the pipe. -/
def count (pi : Pipe) : Nat := (pi.nwrite - pi.nread).toNat

/-- The bytes in the pipe, oldest first. -/
def buffered (pi : Pipe) : List UInt8 := Ring.view pi.data PIPESIZE pi.nread.toNat pi.count

/-- The pipe after `pi->data[pi->nwrite++ % PIPESIZE] = ch`. -/
def store (pi : Pipe) (ch : UInt8) : Pipe :=
  { pi with data := Function.update pi.data (pi.nwrite.toNat % PIPESIZE) ch, nwrite := pi.nwrite + 1 }

/-- The pipe after `a` bytes taken by `pi->nread++`. -/
def advance (pi : Pipe) (a : Nat) : Pipe := { pi with nread := pi.nread + a.toUInt32 }

variable {pi : Pipe} {ch : UInt8} {a : Nat}

-- ================================================== the counters

@[simp] theorem toNat_PIPESIZE : PIPESIZE.toUInt32.toNat = PIPESIZE := rfl

theorem count_lt : pi.count < 2 ^ 32 := UInt32.toNat_lt _

/-- `pi->nwrite == pi->nread + PIPESIZE` tests for a full pipe. -/
theorem full_iff (h : pi.count ≤ PIPESIZE) :
    pi.nwrite = pi.nread + PIPESIZE.toUInt32 ↔ pi.count = PIPESIZE := by
  unfold count at *
  rw [UInt32.ext_iff]
  simp only [UInt32.toNat_sub, UInt32.toNat_add, toNat_PIPESIZE] at *
  have := pi.nwrite.toNat_lt
  have := pi.nread.toNat_lt
  unfold PIPESIZE at *
  omega

/-- `pi->nread == pi->nwrite` tests for an empty pipe. -/
theorem empty_iff : pi.nread = pi.nwrite ↔ pi.count = 0 := by
  unfold count
  rw [UInt32.ext_iff]
  simp only [UInt32.toNat_sub]
  have := pi.nwrite.toNat_lt
  have := pi.nread.toNat_lt
  omega

/-- `nwrite`'s cell is the one after the queue, across either wrap. -/
theorem nwrite_mod : pi.nwrite.toNat % PIPESIZE = (pi.nread.toNat + pi.count) % PIPESIZE := by
  unfold count PIPESIZE
  simp only [UInt32.toNat_sub]
  have := pi.nwrite.toNat_lt
  have := pi.nread.toNat_lt
  omega

theorem count_alloc (junk : Nat → UInt8) : (Pipe.alloc junk).count = 0 :=
  show (0 - 0 : UInt32).toNat = 0 by decide

theorem buffered_alloc (junk : Nat → UInt8) : (Pipe.alloc junk).buffered = [] := by
  unfold buffered
  rw [count_alloc]
  rfl

-- ======================================================= a store

@[simp] theorem store_nread : (pi.store ch).nread = pi.nread := rfl
@[simp] theorem store_readopen : (pi.store ch).readopen = pi.readopen := rfl

theorem count_store (h : pi.count < PIPESIZE) : (pi.store ch).count = pi.count + 1 := by
  unfold count store PIPESIZE at *
  simp only [UInt32.toNat_sub, UInt32.toNat_add] at *
  have := pi.nwrite.toNat_lt
  have := pi.nread.toNat_lt
  simp only [UInt32.reduceToNat]
  omega

/-- A store into a pipe with room appends the byte. -/
theorem buffered_store (h : pi.count < PIPESIZE) : (pi.store ch).buffered = pi.buffered ++ [ch] := by
  unfold buffered
  rw [count_store h]
  show Ring.view (Function.update pi.data (pi.nwrite.toNat % PIPESIZE) ch) PIPESIZE pi.nread.toNat
    (pi.count + 1) = _
  rw [nwrite_mod, Ring.view_push h]

-- ================================================== bytes taken

@[simp] theorem advance_data : (pi.advance a).data = pi.data := rfl
@[simp] theorem advance_nwrite : (pi.advance a).nwrite = pi.nwrite := rfl

theorem advance_zero : pi.advance 0 = pi := by
  simp [advance]

theorem advance_one : pi.advance 1 = { pi with nread := pi.nread + 1 } := rfl

theorem advance_advance : (pi.advance 1).advance a = pi.advance (a + 1) := by
  have h : pi.nread + (1 : Nat).toUInt32 + a.toUInt32 = pi.nread + (a + 1).toUInt32 := by
    rw [UInt32.ext_iff]
    simp only [UInt32.toNat_add, UInt32.toNat_ofNat']
    omega
  simp only [advance, h]

theorem nread_advance (h : a < 2 ^ 32) :
    (pi.advance a).nread.toNat = (pi.nread.toNat + a) % 2 ^ 32 := by
  simp only [advance, UInt32.toNat_add, UInt32.toNat_ofNat', Nat.mod_eq_of_lt h]

/-- `a` bytes taken advance `nread` by `a`. -/
theorem advance_sub (h : a < 2 ^ 32) : ((pi.advance a).nread - pi.nread).toNat = a := by
  simp only [UInt32.toNat_sub, nread_advance h]
  have := pi.nread.toNat_lt
  omega

theorem count_advance (h : a ≤ pi.count) : (pi.advance a).count = pi.count - a := by
  have hlt := (Nat.lt_of_le_of_lt h count_lt)
  unfold count at *
  simp only [UInt32.toNat_sub, nread_advance hlt, advance_nwrite] at *
  have := pi.nwrite.toNat_lt
  have := pi.nread.toNat_lt
  omega

/-- Taking `a` bytes drops them from the front of the queue. -/
theorem buffered_advance (h : a ≤ pi.count) : (pi.advance a).buffered = pi.buffered.drop a := by
  unfold buffered
  rw [count_advance h, nread_advance (Nat.lt_of_le_of_lt h count_lt),
    Ring.view_mod (by decide : PIPESIZE ∣ 2 ^ 32), Ring.drop_view, advance_data]

/-- The bytes `a` turns took are the first `a` of the queue. -/
theorem taken_advance (h : a ≤ pi.count) : PipeSys.taken pi (pi.advance a) = pi.buffered.take a := by
  unfold PipeSys.taken buffered
  rw [advance_sub (Nat.lt_of_le_of_lt h count_lt), Ring.take_view h]

/-- A pipe with a byte in it: that byte, `data[nread % PIPESIZE]`, is first. -/
theorem buffered_eq_cons (h : 0 < pi.count) :
    pi.buffered = pi.data (pi.nread.toNat % PIPESIZE) :: (pi.advance 1).buffered := by
  have hb : pi.buffered = pi.data (pi.nread.toNat % PIPESIZE) ::
      Ring.view pi.data PIPESIZE (pi.nread.toNat + 1) (pi.count - 1) := by
    unfold buffered
    rw [← Ring.view_pop]
    congr 1
    omega
  rw [buffered_advance h, hb, List.drop_one, List.tail_cons]

end Pipe

-- ============================================================ turns

open Pipe

variable {pi pi' : Pipe} {killed : Bool}

/-- Every turn of `pipewrite` either changes nothing or stores one
byte of the caller's, into a pipe with room. -/
theorem pipewrite_cases {src : Nat → Option UInt8} {n : Int} {i : Nat} {t : WriteTurn}
    (hc : pi.count ≤ PIPESIZE) (h : pipewrite pi killed src n i = (pi', t)) :
    (pi' = pi ∧ ∀ ch, t ≠ .wrote ch) ∨
      ∃ ch, t = .wrote ch ∧ src i = some ch ∧ pi.count < PIPESIZE ∧ pi' = pi.store ch := by
  unfold pipewrite at h
  split_ifs at h with hi hstop hfull
  · cases h
    exact .inl ⟨rfl, fun _ => WriteTurn.noConfusion⟩
  · cases h
    exact .inl ⟨rfl, fun _ => WriteTurn.noConfusion⟩
  · split at h
    · cases h
      exact .inl ⟨rfl, fun _ => WriteTurn.noConfusion⟩
    · next ch hsrc =>
        cases h
        have hlt : pi.count < PIPESIZE := Nat.lt_of_le_of_ne hc fun he => hfull ((full_iff hc).mpr he)
        exact .inr ⟨ch, rfl, hsrc, hlt, rfl⟩
  · cases h
    exact .inl ⟨rfl, fun _ => WriteTurn.noConfusion⟩

/-- Where `piperead`'s copy loop from byte `i` stops at byte `k`
having copied `out`: it took `a` bytes, `out` being the first of the
queue, and one more than it copied only when the copy of byte `k`
failed. -/
def CopyPost (dst : Nat → Bool) (pi : Pipe) (i k : Nat) (out : List UInt8) (pi' : Pipe) : Prop :=
  ∃ a ≤ pi.count, pi' = pi.advance a ∧ out = pi.buffered.take out.length ∧ k = i + out.length ∧
    (a = out.length ∨ a = out.length + 1 ∧ dst k = false)

namespace CopyPost

variable {dst : Nat → Bool} {i k : Nat} {out : List UInt8}

/-- The loop stops with nothing taken. -/
theorem stop : CopyPost dst pi i i [] pi :=
  ⟨0, Nat.zero_le _, advance_zero.symm, rfl, rfl, .inl rfl⟩

/-- `copyout` of the first byte fails: the byte is taken all the same. -/
theorem fault (h : 0 < pi.count) (hd : dst i = false) : CopyPost dst pi i i [] (pi.advance 1) :=
  ⟨1, h, rfl, rfl, rfl, .inr ⟨rfl, hd⟩⟩

/-- The first byte is copied, and the loop goes on from the next. -/
theorem cons (h : 0 < pi.count) (ih : CopyPost dst (pi.advance 1) (i + 1) k out pi') :
    CopyPost dst pi i k (pi.data (pi.nread.toNat % PIPESIZE) :: out) pi' := by
  obtain ⟨a, ha, hp, hout, hk, hacc⟩ := ih
  rw [count_advance h] at ha
  refine ⟨a + 1, by omega, by rw [hp, advance_advance], ?_, by simp only [hk, List.length_cons]; omega, ?_⟩
  · rw [List.length_cons, buffered_eq_cons h, List.take_succ_cons, ← hout]
  · rcases hacc with rfl | ⟨rfl, hd⟩
    · exact .inl rfl
    · exact .inr ⟨rfl, hd⟩

end CopyPost

theorem copyLoop_spec {dst : Nat → Bool} {n : Int} :
    ∀ {fuel i pi k out pi'}, copyLoop dst n fuel i pi = (k, out, pi') → CopyPost dst pi i k out pi' := by
  intro fuel
  induction fuel with
  | zero =>
      intro i pi k out pi' h
      cases h
      exact .stop
  | succ fuel ih =>
      intro i pi k out pi' h
      rw [copyLoop] at h
      split_ifs at h with hi he hd
      · cases h
        exact .stop
      · -- a byte is taken and copied
        have hpos : 0 < pi.count := Nat.pos_of_ne_zero fun h0 => he (empty_iff.mpr h0)
        rcases hrec : copyLoop dst n fuel (i + 1) (pi.advance 1) with ⟨k', out', pi''⟩
        rw [← advance_one] at h
        dsimp only at h
        rw [hrec] at h
        cases h
        exact .cons hpos (ih hrec)
      · -- a byte is taken and its copy fails
        have hpos : 0 < pi.count := Nat.pos_of_ne_zero fun h0 => he (empty_iff.mpr h0)
        dsimp only at h
        cases h
        exact .fault hpos (by simpa using hd)
      · cases h
        exact .stop

/-- What a `piperead` turn that returns has done: a killed caller
facing an empty pipe gets `-1` and nothing changes; otherwise the
copy loop from byte `0` ran. -/
theorem piperead_ret {dst : Nat → Bool} {n r : Int} {out : List UInt8}
    (h : piperead pi killed dst n = (pi', .ret r out)) :
    (r = -1 ∧ out = [] ∧ pi' = pi) ∨ (r = out.length ∧ CopyPost dst pi 0 out.length out pi') := by
  unfold piperead at h
  split_ifs at h with hw hk
  · cases h
    exact .inl ⟨rfl, rfl, rfl⟩
  · cases h
  · rcases hloop : copyLoop dst n n.toNat 0 pi with ⟨k, out', pi''⟩
    rw [hloop] at h
    dsimp only at h
    cases h
    have hpost := copyLoop_spec hloop
    have hk : k = out.length := by
      obtain ⟨_, _, _, _, hk, _⟩ := hpost
      omega
    subst hk
    exact .inr ⟨rfl, hpost⟩

theorem piperead_wait {dst : Nat → Bool} {n : Int} (h : piperead pi killed dst n = (pi', .wait)) :
    pi' = pi := by
  unfold piperead at h
  split_ifs at h
  · cases h
  · cases h
    rfl
  · split at h
    cases h

/-- A `piperead` that returns `r ≥ 0` returned the first `r` bytes of
the pipe and advanced `nread` by `r`, or by `r + 1` exactly when the
`copyout` of byte `r` failed. -/
theorem piperead_accounting {dst : Nat → Bool} {n r : Int} {out : List UInt8}
    (h : piperead pi killed dst n = (pi', .ret r out)) (hr : 0 ≤ r) :
    out = pi.buffered.take r.toNat ∧
      ((pi'.nread - pi.nread).toNat = r.toNat ∨
        (pi'.nread - pi.nread).toNat = r.toNat + 1 ∧ dst r.toNat = false) := by
  rcases piperead_ret h with ⟨rfl, -, -⟩ | ⟨rfl, a, ha, hp, hout, -, hacc⟩
  · omega
  · rw [Int.toNat_natCast, hp, advance_sub (Nat.lt_of_le_of_lt ha count_lt)]
    exact ⟨hout, hacc⟩

/-- `piperead` with a byte in the pipe and a buffer whose first byte
`copyout` cannot reach returns `0`, and the byte is gone. -/
theorem piperead_of_fault {dst : Nat → Bool} {n : Int} (he : pi.nread ≠ pi.nwrite) (hn : 0 < n)
    (hd : dst 0 = false) : piperead pi killed dst n = (pi.advance 1, .ret 0 []) := by
  obtain ⟨m, hm⟩ : ∃ m, n.toNat = m + 1 := ⟨n.toNat - 1, by omega⟩
  unfold piperead
  rw [if_neg fun hw => he hw.1, hm, copyLoop, if_pos (by exact_mod_cast hn), if_neg he, hd]
  rfl

theorem piperead_accounting_fault :
    ∃ pi' out, piperead ((Pipe.alloc fun _ => 0).store 1) false (fun _ => false) 1 = (pi', .ret 0 out) ∧
      0 ≤ (0 : Int) ∧ out = ((Pipe.alloc fun _ => 0).store 1).buffered.take 0 ∧
      ((pi'.nread - ((Pipe.alloc fun _ => 0).store 1).nread).toNat = 0 ∨
        (pi'.nread - ((Pipe.alloc fun _ => 0).store 1).nread).toNat = 0 + 1 ∧
          (fun _ => false : Nat → Bool) 0 = false) :=
  have h : piperead ((Pipe.alloc fun _ => 0).store 1) false (fun _ => false) 1 =
      (((Pipe.alloc fun _ => 0).store 1).advance 1, .ret 0 []) :=
    piperead_of_fault (by decide) (by decide) rfl
  ⟨_, _, h, le_refl 0, piperead_accounting h (le_refl 0)⟩

-- =========================================================== runs

/-- What holds between any two steps: the pipe holds at most
`PIPESIZE` bytes, the bytes stored are the bytes taken then those in
the pipe, and the bytes returned are among those taken, in order. -/
structure PipeInv (s : PipeSys) : Prop where
  count_le : s.pipe.count ≤ PIPESIZE
  fifo : s.accepted = s.consumed ++ s.pipe.buffered
  returned : s.returned.Sublist s.consumed

namespace PipeSys

variable {s s' : PipeSys} {e : PipeEv}

@[simp] theorem setCall_pipe (p : Nat) (c : Option PipeCall) : (s.setCall p c).pipe = s.pipe := rfl
@[simp] theorem setCall_accepted (p : Nat) (c : Option PipeCall) :
    (s.setCall p c).accepted = s.accepted := rfl
@[simp] theorem setCall_consumed (p : Nat) (c : Option PipeCall) :
    (s.setCall p c).consumed = s.consumed := rfl
@[simp] theorem setCall_returned (p : Nat) (c : Option PipeCall) :
    (s.setCall p c).returned = s.returned := rfl

theorem count_pipeclose (w : Bool) : (pipeclose pi w).1.count = pi.count := by
  unfold pipeclose
  split <;> rfl

theorem buffered_pipeclose (w : Bool) : (pipeclose pi w).1.buffered = pi.buffered := by
  unfold pipeclose
  split <;> rfl

/-- Everything a step does to the queue and the ghost lists: nothing,
a store of one byte into a pipe with room, or a read that took `a`
bytes from the front and returned a prefix of them. -/
theorem step_cases (hc : s.pipe.count ≤ PIPESIZE) (h : s.step e = .next s') :
    (s'.pipe.count = s.pipe.count ∧ s'.pipe.buffered = s.pipe.buffered ∧
      s'.accepted = s.accepted ∧ s'.consumed = s.consumed ∧ s'.returned = s.returned) ∨
    (∃ ch, s.pipe.count < PIPESIZE ∧ s'.pipe = s.pipe.store ch ∧
      s'.accepted = s.accepted ++ [ch] ∧ s'.consumed = s.consumed ∧ s'.returned = s.returned) ∨
    (∃ a ≤ s.pipe.count, ∃ out, out <+: s.pipe.buffered.take a ∧ s'.pipe = s.pipe.advance a ∧
      s'.accepted = s.accepted ∧ s'.consumed = s.consumed ++ s.pipe.buffered.take a ∧
      s'.returned = s.returned ++ out) := by
  cases e with
  | call p c =>
      dsimp only [step] at h
      split_ifs at h
      cases h
      exact .inl ⟨rfl, rfl, rfl, rfl, rfl⟩
  | kill p =>
      cases h
      exact .inl ⟨rfl, rfl, rfl, rfl, rfl⟩
  | close w =>
      cases h
      exact .inl ⟨count_pipeclose w, buffered_pipeclose w, rfl, rfl, rfl⟩
  | turn p =>
      dsimp only [step] at h
      split at h
      · cases h
      · -- a turn of `pipewrite`
        next src n i _ =>
          rcases hw : pipewrite s.pipe (s.procs p).killed src n i with ⟨pi, t⟩
          rw [hw] at h
          rcases pipewrite_cases hc hw with ⟨rfl, hnot⟩ | ⟨ch, rfl, -, hlt, rfl⟩
          · cases t with
            | ret r =>
                cases h
                exact .inl ⟨rfl, rfl, rfl, rfl, rfl⟩
            | wait =>
                cases h
                exact .inl ⟨rfl, rfl, rfl, rfl, rfl⟩
            | wrote ch => exact absurd rfl (hnot ch)
          · cases h
            exact .inr (.inl ⟨ch, hlt, rfl, rfl, rfl, rfl⟩)
      · -- a turn of `piperead`
        next dst n _ =>
          rcases hr : piperead s.pipe (s.procs p).killed dst n with ⟨pi, t⟩
          rw [hr] at h
          cases t with
          | wait =>
              cases h
              exact .inl ⟨rfl, rfl, rfl, rfl, rfl⟩
          | ret r out =>
              cases h
              refine .inr (.inr ?_)
              rcases piperead_ret hr with ⟨-, rfl, rfl⟩ | ⟨-, a, ha, rfl, hout, -, hacc⟩
              · refine ⟨0, Nat.zero_le _, [], List.nil_prefix, advance_zero.symm, rfl, ?_, rfl⟩
                rw [← taken_advance (Nat.zero_le _), advance_zero]
              · have hle : out.length ≤ a := by omega
                refine ⟨a, ha, out, ?_, rfl, rfl, by rw [taken_advance ha], rfl⟩
                rw [hout]
                exact List.take_prefix_take_left hle

end PipeSys

variable {s s' : PipeSys} {e : PipeEv}

theorem PipeInv.boot (junk : Nat → UInt8) : PipeInv (PipeSys.boot junk) :=
  ⟨by rw [PipeSys.boot, count_alloc]; exact Nat.zero_le _,
    by rw [PipeSys.boot, buffered_alloc]; rfl, List.Sublist.slnil⟩

theorem PipeInv.step (hi : PipeInv s) (h : s.step e = .next s') : PipeInv s' := by
  rcases PipeSys.step_cases hi.count_le h with ⟨hc, hb, ha, hcon, hr⟩ | ⟨ch, hlt, hp, ha, hcon, hr⟩ |
      ⟨a, hale, out, hout, hp, ha, hcon, hr⟩
  · refine ⟨hc ▸ hi.count_le, ?_, ?_⟩
    · rw [ha, hcon, hb]
      exact hi.fifo
    · rw [hr, hcon]
      exact hi.returned
  · refine ⟨?_, ?_, ?_⟩
    · rw [hp, count_store hlt]
      exact hlt
    · rw [ha, hcon, hp, buffered_store hlt, hi.fifo, List.append_assoc]
    · rw [hr, hcon]
      exact hi.returned
  · refine ⟨?_, ?_, ?_⟩
    · rw [hp, count_advance hale]
      exact Nat.le_trans (Nat.sub_le _ _) hi.count_le
    · rw [ha, hcon, hp, buffered_advance hale, List.append_assoc, List.take_append_drop]
      exact hi.fifo
    · rw [hr, hcon]
      exact hi.returned.append hout.sublist

/-- In every state of every run from `pipealloc`, with any processes
calling `pipewrite` and `piperead`, kills and closes at any point and
the counters wrapping past `2 ^ 32`: `nwrite - nread` stays within
`PIPESIZE`, the bytes stored are the bytes taken followed by the
bytes in the pipe, and the bytes returned by `piperead` are a sublist
of those taken. -/
theorem pipe_fifo {junk : Nat → UInt8} {s : PipeSys}
    (h : Relation.ReflTransGen PipeSys.Step (PipeSys.boot junk) s) : PipeInv s :=
  Relation.invariant_reach (fun _ _ hi ⟨_, hs⟩ => hi.step hs) (PipeInv.boot junk) h

theorem pipe_fifo_boot :
    Relation.ReflTransGen PipeSys.Step (PipeSys.boot fun _ => 0) (PipeSys.boot fun _ => 0) ∧
      PipeInv (PipeSys.boot fun _ => 0) :=
  ⟨.refl, pipe_fifo .refl⟩

/-- A writer stores two bytes; a reader asks for one into a buffer
`copyout` cannot reach, and again into a good one. -/
def lossRun : List PipeEv :=
  [.call 0 (.write (fun i => ([1, 2] : List UInt8)[i]?) 2 0), .turn 0, .turn 0, .turn 0,
   .call 1 (.read (fun _ => false) 1), .turn 1,
   .call 1 (.read (fun _ => true) 1), .turn 1]

/-- The reader gets byte `2` although byte `1` was stored first: the
failed `copyout` took byte `1` from the pipe without returning it, so
the bytes returned are not a prefix of the bytes stored. -/
theorem pipe_loses_byte :
    ∃ s, Relation.ReflTransGen PipeSys.Step (PipeSys.boot fun _ => 0) s ∧
      s.accepted = [1, 2] ∧ s.returned = [2] ∧ ¬ s.returned <+: s.accepted := by
  obtain ⟨s, hrun, hs⟩ : ∃ s, (PipeSys.boot fun _ => 0).run lossRun = some s ∧
      (s.accepted, s.returned) = (([1, 2] : List UInt8), ([2] : List UInt8)) := ⟨_, rfl, rfl⟩
  obtain ⟨ha, hr⟩ := Prod.mk.inj hs
  refine ⟨s, PipeSys.run_reaches hrun, ha, hr, ?_⟩
  rw [ha, hr]
  decide

end Xv6
