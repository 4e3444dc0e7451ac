import Xv6.File.Shared

/-!
Turns on a shared file offset take consecutive ranges.

Each turn that moves bytes starts at the offset where the one before it
ended (`Consec`), the offset is the start plus the bytes moved so far,
and the file from the start holds the bytes of all turns, one after
another (`Inv`). A chunk splices its bytes in at the offset
(`region_splice`) and a read returns the bytes there (`region_read`),
so every step keeps `Inv` (`Inv.step`) and every run does
(`shared_fd_consecutive`): no turn's bytes are lost or overwritten by
another's (`Inv.op_bytes`).
-/

namespace Xv6.Shared

open Fs

/-- The bytes the turns `ops` moved. -/
def total (ops : List Op) : Nat := (ops.map fun op => op.bytes.length).sum

/-- Each turn of `ops` starts where the one before ended, the first at
`o`. -/
def Consec : Nat → List Op → Prop
  | _, [] => True
  | o, op :: ops => op.off = o ∧ Consec (o + op.bytes.length) ops

theorem total_append (ops ops' : List Op) : total (ops ++ ops') = total ops + total ops' := by
  simp [total]

theorem consec_append : ∀ {o : Nat} (ops : List Op) {op : Op},
    Consec o ops → op.off = o + total ops → Consec o (ops ++ [op])
  | _, [], _, _, h => ⟨by simpa [total] using h, trivial⟩
  | o, x :: ops, op, ⟨hx, hc⟩, h => ⟨hx, consec_append ops hc (by simp [total] at h ⊢; omega)⟩

/-- `off` plus a count, as a `uint`, below `2 ^ 32`. -/
theorem toNat_add_toUInt32 {off : UInt32} {r : Nat} (h : off.toNat + r < 2 ^ 32) :
    (off + r.toUInt32).toNat = off.toNat + r := by
  rw [UInt32.toNat_add, Nat.toUInt32_eq, UInt32.toNat_ofNat', Nat.mod_eq_of_lt (show r < 2 ^ 32 by omega),
    Nat.mod_eq_of_lt h]

-- ======================================================== the file from `off0`

/-- A write spliced in at `off`: the file from `off0 ≤ off` holds what it
held below `off`, then the bytes. -/
theorem region_splice {c b : List UInt8} {off0 off : Nat} (h0 : off0 ≤ off) (h : off ≤ c.length) :
    ((splice c off b).drop off0).take (off - off0 + b.length) = (c.drop off0).take (off - off0) ++ b := by
  have hlen : ((c.take off).drop off0).length = off - off0 := by simp; omega
  rw [splice, List.append_assoc, List.drop_append_of_le_length (by simp; omega),
    ← List.append_assoc, List.take_append_of_le_length (by simp; omega)]
  rw [List.take_append, hlen, Nat.add_sub_cancel_left, List.take_of_length_le (Nat.le_refl _),
    List.take_of_length_le (by rw [hlen]; omega), List.drop_take]

/-- A read of `r` bytes at `off0 + t`: the file from `off0` holds the
bytes below `off0 + t`, then the bytes read. -/
theorem region_read (c : List UInt8) (off0 t r : Nat) :
    (c.drop off0).take (t + r) = (c.drop off0).take t ++ (c.drop (off0 + t)).take r := by
  rw [List.take_add, List.drop_drop]

/-- The bytes of one turn, inside the file from the start of all the
turns. -/
theorem op_of_region : ∀ {o : Nat} {c : List UInt8} (ops : List Op), Consec o ops →
    (c.drop o).take (total ops) = (ops.map Op.bytes).flatten →
      ∀ op ∈ ops, (c.drop op.off).take op.bytes.length = op.bytes
  | _, _, [], _, _ => by simp
  | o, c, x :: ops, ⟨hx, hc⟩, h => by
      simp only [total, List.map_cons, List.sum_cons, List.flatten_cons] at h
      -- the first turn's bytes, then the others' from where it ended
      have hfirst := congrArg (List.take x.bytes.length) h
      rw [List.take_take, Nat.min_eq_left (Nat.le_add_right _ _), List.take_left' rfl] at hfirst
      have hrest := congrArg (List.drop x.bytes.length) h
      rw [List.drop_take, Nat.add_sub_cancel_left, List.drop_drop, List.drop_left' rfl] at hrest
      intro op hop
      rcases List.mem_cons.1 hop with rfl | hop
      · rw [hx]
        exact hfirst
      · exact op_of_region ops hc (by rw [total]; exact hrest) op hop

-- ============================================================== one turn

/-- What a chunk can do: be refused, changing nothing, or write its
bytes at the offset and move the offset past them. -/
inductive ChunkSpec (f : SFile) (c : WriteCall) : SFile × List UInt8 × Next → Prop
  | refused : ChunkSpec f c (f, [], .ret (-1))
  | wrote (bytes : List UInt8) (next : Next) (hne : bytes ≠ []) (hoff : f.off.toNat ≤ f.content.length)
      (hmax : f.off.toNat + bytes.length ≤ MAXFILE * BSIZE)
      (hnext : ∀ c', next = .more c' → c'.i < c'.data.length) :
      ChunkSpec f c (⟨splice f.content f.off.toNat bytes, f.off + bytes.length.toUInt32⟩, bytes, next)

theorem maxChunk_eq : maxChunk = 3072 := rfl

theorem chunk_spec (f : SFile) {c : WriteCall} (hi : c.i < c.data.length) :
    ChunkSpec f c (chunk f c) := by
  -- the chunk is `n1` bytes of the call's data, and `n1` is positive
  have hpos : 0 < min (c.data.length - c.i) maxChunk := by rw [maxChunk_eq]; omega
  have hn1 : (min (c.data.length - c.i) maxChunk).toUInt32.toNat = min (c.data.length - c.i) maxChunk := by
    rw [Nat.toUInt32_eq, UInt32.toNat_ofNat', Nat.mod_eq_of_lt (by rw [maxChunk_eq]; omega)]
  have hlen : ((c.data.drop c.i).take (min (c.data.length - c.i) maxChunk)).length =
      min (c.data.length - c.i) maxChunk := by
    simp only [List.length_take, List.length_drop]
    omega
  simp only [chunk, FileOp.spec, hn1]
  generalize (c.data.drop c.i).take (min (c.data.length - c.i) maxChunk) = bytes at hlen ⊢
  generalize min (c.data.length - c.i) maxChunk = n1 at hlen hpos ⊢
  subst hlen
  rw [← eq_map_getD bytes 0]
  by_cases hr : FileOp.Refused f.content f.off bytes.length.toUInt32 ∨
      MAXFILE * BSIZE < f.off.toNat + bytes.length
  · simp only [if_pos hr, show ¬ (0 : Int) < -1 by decide, if_false]
    exact .refused
  · have hne := List.ne_nil_of_length_pos hpos
    have hoff : f.off.toNat ≤ f.content.length := by
      have := (not_or.1 hr).1
      unfold FileOp.Refused at this
      omega
    have hmax := Nat.le_of_not_lt (not_or.1 hr).2
    simp only [if_neg hr, Int.natCast_pos, hpos, if_true, Int.toNat_natCast, ne_eq, not_true_eq_false,
      if_false]
    -- the call goes on while bytes are left
    split
    · exact .wrote bytes _ hne hoff hmax fun c' hc' => by cases hc'; assumption
    · exact .wrote bytes _ hne hoff hmax fun c' hc' => by cases hc'

/-- What a read can do: return nothing and change nothing, or return
the bytes at the offset and move the offset past them. -/
inductive ReadSpec (f : SFile) : SFile × List UInt8 → Prop
  | none : ReadSpec f (f, [])
  | read (out : List UInt8) (hne : out ≠ [])
      (hout : out = (f.content.drop f.off.toNat).take out.length)
      (hle : f.off.toNat + out.length ≤ f.content.length) (h32 : f.off.toNat + out.length < 2 ^ 32) :
      ReadSpec f (⟨f.content, f.off + out.length.toUInt32⟩, out)

theorem fileread_spec (f : SFile) (n : UInt32) : ReadSpec f (fileread f n) := by
  unfold fileread
  simp only [FileOp.spec]
  by_cases hr : FileOp.Refused f.content f.off n
  · simp only [if_pos hr, lt_irrefl, if_false]
    exact .none
  · simp only [if_neg hr]
    have hlen : ((f.content.drop f.off.toNat).take n.toNat).length =
        min n.toNat (f.content.length - f.off.toNat) := by simp
    by_cases hpos : 0 < min n.toNat (f.content.length - f.off.toNat)
    · simp only [Int.natCast_pos, hpos, if_true, Int.toNat_natCast]
      rw [← hlen]
      unfold FileOp.Refused at hr
      refine .read _ (fun h => by simp [h] at hlen; omega) ?_ (by rw [hlen]; omega) (by rw [hlen]; omega)
      rw [List.take_eq_take_iff, List.length_take]
      omega
    · simp only [Int.natCast_pos, hpos, if_false]
      exact .none

-- ============================================================ the invariant

/-- What every run from a file at `off0` keeps: the offset is `off0`
plus the bytes moved, the turns took consecutive ranges from `off0`,
the file from `off0` holds their bytes in order, and every call in
progress has bytes left. -/
structure Inv (off0 : Nat) (S : FdSys) : Prop where
  off : S.file.off.toNat = off0 + total S.ops
  consec : Consec off0 S.ops
  region : (S.file.content.drop off0).take (total S.ops) = (S.ops.map Op.bytes).flatten
  calls : ∀ p c, S.calls p = some c → c.i < c.data.length

theorem Inv.boot (content : List UInt8) (off0 : UInt32) : Inv off0.toNat (FdSys.boot content off0) :=
  ⟨by simp [FdSys.boot, total], trivial, by simp [FdSys.boot, total], fun _ _ h => by cases h⟩

section Turn

variable {off0 : Nat} {S : FdSys}

/-- A turn under the lock: it moves `bytes` at the offset, the offset
moves past them, and the file from `off0` holds the bytes before and
then these. Logging the turn keeps `Inv`. -/
theorem Inv.turn (hS : Inv off0 S) {f : SFile} {bytes : List UInt8} (w : Bool)
    (hoff : f.off.toNat = S.file.off.toNat + bytes.length)
    (hreg : (f.content.drop off0).take (total S.ops + bytes.length) =
      (S.file.content.drop off0).take (total S.ops) ++ bytes)
    {calls : Fin NPROC → Option WriteCall} (hcalls : ∀ p c, calls p = some c → c.i < c.data.length) :
    Inv off0 ⟨f, calls, S.ops ++ logged S.file.off.toNat bytes w⟩ := by
  unfold logged
  split_ifs with hb
  · subst hb
    simp only [List.length_nil, Nat.add_zero, List.append_nil] at hoff hreg ⊢
    exact ⟨hoff.trans hS.off, hS.consec, hreg.trans hS.region, hcalls⟩
  · have htot : total (S.ops ++ [⟨S.file.off.toNat, bytes, w⟩]) = total S.ops + bytes.length := by
      simp [total]
    refine ⟨?_, consec_append _ hS.consec hS.off, ?_, hcalls⟩
    · rw [htot, hoff, hS.off, Nat.add_assoc]
    · simp only [htot, hreg, hS.region, List.map_append, List.flatten_append, List.map_cons,
        List.map_nil, List.flatten_cons, List.flatten_nil, List.append_nil]

/-- The call moves on to its next chunk or returns: the calls in
progress keep bytes left. -/
theorem calls_update (hS : Inv off0 S) {p : Fin NPROC} {c' : Option WriteCall}
    (hc' : ∀ c, c' = some c → c.i < c.data.length) :
    ∀ q c, Function.update S.calls p c' q = some c → c.i < c.data.length := by
  intro q c hq
  rcases eq_or_ne q p with rfl | hne
  · rw [Function.update_self] at hq
    exact hc' c hq
  · rw [Function.update_of_ne hne] at hq
    exact hS.calls q c hq

/-- A chunk of a call in progress keeps `Inv`. -/
theorem Inv.chunk_step (hS : Inv off0 S) {p : Fin NPROC} {S' : FdSys} (he : S.step (.chunk p) = some S') :
    Inv off0 S' := by
  simp only [FdSys.step] at he
  split at he
  · rename_i c hp
    have hspec := chunk_spec S.file (hS.calls p c hp)
    generalize chunk S.file c = r at hspec he
    cases hspec with
    | refused =>
        cases he
        exact hS.turn true (by simp) (by simp) (calls_update hS fun _ h => by cases h)
    | wrote bytes next hne hoff hmax hnext =>
        cases he
        have h32 : S.file.off.toNat + bytes.length < 2 ^ 32 := by
          have : MAXFILE * BSIZE < 2 ^ 32 := by decide
          omega
        refine hS.turn true (toNat_add_toUInt32 h32) ?_ (calls_update hS fun c' hc' => ?_)
        · -- the chunk is spliced in where the turns before it ended
          have hreg := region_splice (b := bytes) (show off0 ≤ S.file.off.toNat by rw [hS.off]; omega) hoff
          rw [show S.file.off.toNat - off0 = total S.ops by rw [hS.off]; omega] at hreg
          exact hreg
        · cases next with
          | more c0 =>
              cases hc'
              exact hnext _ rfl
          | ret r => cases hc'
  · cases he

/-- A `fileread` keeps `Inv`. -/
theorem Inv.read_step (hS : Inv off0 S) {p : Fin NPROC} {n : UInt32} {S' : FdSys}
    (he : S.step (.read p n) = some S') : Inv off0 S' := by
  simp only [FdSys.step] at he
  split at he
  · have hspec := fileread_spec S.file n
    generalize fileread S.file n = r at hspec he
    cases hspec with
    | none =>
        cases he
        exact hS.turn false (by simp) (by simp) hS.calls
    | read out hne hout hle h32 =>
        cases he
        refine hS.turn false (toNat_add_toUInt32 h32) ?_ hS.calls
        -- the bytes read are the file's from where the turns before ended
        rw [region_read, ← hS.off, ← hout]
  · cases he

/-- A new `filewrite` call keeps `Inv`: it has bytes left, or returns at
once. -/
theorem Inv.write_step (hS : Inv off0 S) {p : Fin NPROC} {data : List UInt8} {S' : FdSys}
    (he : S.step (.write p data) = some S') : Inv off0 S' := by
  simp only [FdSys.step] at he
  split at he
  · cases he
    refine ⟨hS.off, hS.consec, hS.region, calls_update hS fun c hc => ?_⟩
    split at hc
    · cases hc
    · cases hc
      exact List.length_pos_of_ne_nil (by assumption)
  · cases he

theorem Inv.step (hS : Inv off0 S) {S' : FdSys} (h : FdSys.Step S S') : Inv off0 S' := by
  obtain ⟨e, he⟩ := h
  cases e with
  | write p data => exact hS.write_step he
  | chunk p => exact hS.chunk_step he
  | read p n => exact hS.read_step he

end Turn

theorem Inv.reach {content : List UInt8} {off0 : UInt32} {S : FdSys}
    (h : Relation.ReflTransGen FdSys.Step (FdSys.boot content off0) S) : Inv off0.toNat S := by
  induction h with
  | refl => exact Inv.boot content off0
  | tail _ hstep ih => exact ih.step hstep

/-- Turns that start where the ones before them ended take ranges that do
not meet, each after the one before. -/
theorem Consec.le_off : ∀ {o : Nat} {ops : List Op}, Consec o ops → ∀ op ∈ ops, o ≤ op.off
  | _, [], _, _, h => by cases h
  | o, _ :: ops, ⟨hx, hc⟩, op, hop => by
      rcases List.mem_cons.1 hop with rfl | hop
      · exact hx.ge
      · have := Consec.le_off hc op hop
        omega

theorem Consec.pairwise : ∀ {o : Nat} {ops : List Op}, Consec o ops →
    ops.Pairwise fun a b => a.off + a.bytes.length ≤ b.off
  | _, [], _ => List.Pairwise.nil
  | _, _ :: _, ⟨hx, hc⟩ => List.Pairwise.cons (fun op hop => hx ▸ Consec.le_off hc op hop) (Consec.pairwise hc)

/-- Any interleaving of `filewrite` chunks and `fileread` calls on one
shared file, from the offset `off0`: the offset is `off0` plus the bytes
moved, the turns took consecutive ranges in the order they held the
lock, ranges that do not meet, the file from `off0` holds all their
bytes in that order, and each turn's bytes are still at its range. -/
theorem shared_fd_consecutive {content : List UInt8} {off0 : UInt32} {S : FdSys}
    (h : Relation.ReflTransGen FdSys.Step (FdSys.boot content off0) S) :
    S.file.off.toNat = off0.toNat + total S.ops ∧ Consec off0.toNat S.ops ∧
      S.ops.Pairwise (fun a b => a.off + a.bytes.length ≤ b.off) ∧
      (S.file.content.drop off0.toNat).take (total S.ops) = (S.ops.map Op.bytes).flatten ∧
      ∀ op ∈ S.ops, (S.file.content.drop op.off).take op.bytes.length = op.bytes := by
  have hS := Inv.reach h
  exact ⟨hS.off, hS.consec, hS.consec.pairwise, hS.region, op_of_region S.ops hS.consec hS.region⟩

/-- From offset 0 of a four-byte file: process 0 calls
`filewrite(f, [1, 2], 2)`, process 1 reads one byte, then process 0's
chunk runs. The read took byte 0 and the chunk bytes 1 and 2. -/
theorem shared_fd_consecutive_read_write :
    ∃ S, Relation.ReflTransGen FdSys.Step (FdSys.boot [5, 6, 7, 8] 0) S ∧
      S.ops = [⟨0, [5], false⟩, ⟨1, [1, 2], true⟩] ∧ S.file.content = [5, 1, 2, 8] ∧
      (S.file.off.toNat = (0 : UInt32).toNat + total S.ops ∧ Consec (0 : UInt32).toNat S.ops ∧
      S.ops.Pairwise (fun a b => a.off + a.bytes.length ≤ b.off) ∧
      (S.file.content.drop (0 : UInt32).toNat).take (total S.ops) = (S.ops.map Op.bytes).flatten ∧
      ∀ op ∈ S.ops, (S.file.content.drop op.off).take op.bytes.length = op.bytes) := by
  have run : Relation.ReflTransGen FdSys.Step (FdSys.boot [5, 6, 7, 8] 0)
      ⟨⟨[5, 1, 2, 8], 3⟩, Function.update (Function.update (fun _ => none) ⟨0, by decide⟩ (some ⟨[1, 2], 0⟩))
        ⟨0, by decide⟩ none,
        [⟨0, [5], false⟩, ⟨1, [1, 2], true⟩]⟩ :=
    .tail (.tail (.tail .refl ⟨.write ⟨0, by decide⟩ [1, 2], rfl⟩) ⟨.read ⟨1, by decide⟩ 1, rfl⟩)
      ⟨.chunk ⟨0, by decide⟩, rfl⟩
  exact ⟨_, run, rfl, rfl, shared_fd_consecutive run⟩

end Xv6.Shared
