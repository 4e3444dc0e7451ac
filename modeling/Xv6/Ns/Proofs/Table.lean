import Xv6.Ns.System
import Xv6.Lib.Count
import Mathlib.Data.Fintype.Basic

/-!
The inode table's reference counts, against the pointers that hold
them.

# The invariant

`TableInv k H` says two things of the table. Each entry's `ref` is the
number of open files holding it (`fref`), plus the processes whose
`cwd` it is (`cwds`), plus `H e`, the references the call in progress
holds on it. And no two entries with references carry the same inode
number, so that `iget` finds the one entry of an inode.

A call starts with `H = 0`; `iget` and `idup` add one for the entry
they return, `iput` takes one away. Each function of `Defs.lean` gets
one triple saying how it moves `H` (`iget_inv`, `iput_inv`,
`dirlookup_inv` and so on); the calls are chained from them in
`Calls.lean`.

# The inode numbers

`iget` compares inode numbers, so the invariant needs every store into
an entry's copy to keep the number. The copies the code stores back
come out of `ilock` and the file-system functions, which all return
the inode they were given with other fields changed (`readi_inum`,
`writei_inum`, `itrunc_inum` and the rest below).
-/

namespace Xv6

open Prog

namespace Fs

/-- Every program satisfies the triple that asks nothing. -/
theorem triple_true {α : Type} {P : Tx → Prop} (x : FsM α) : Triple P x (fun _ _ => True) fun _ => True :=
  Triple.intro fun s _ => by
    rcases x s with _ | ⟨_, _⟩ <;> trivial

/-- A triple from every state holds from any. -/
theorem triple_of_true {α : Type} {P : Tx → Prop} {x : FsM α} {Q : α → Tx → Prop} {E : String → Prop}
    (h : Triple (fun _ => True) x Q E) : Triple P x Q E :=
  h.conseq (fun _ _ => trivial) (fun _ _ => id) fun _ => id

-- ==================================================== the inode numbers

section Inum

/-- `ip->addrs[j] = balloc(ip->dev)` keeps the inode's number. -/
theorem addrOrAlloc_inum (ip : Inode) (j : Fin (NDIRECT + 1)) :
    Triple (fun _ => True) (addrOrAlloc ip j) (fun r _ => r.2.inum = ip.inum) fun _ => True := by
  unfold addrOrAlloc
  refine Triple.ite (fun _ => ?_) fun _ => Triple.ret fun _ _ => rfl
  exact Triple.bind (triple_true _) fun _ => Triple.ret fun _ _ => rfl

theorem bmap_inum (ip : Inode) (bn : Nat) :
    Triple (fun _ => True) (bmap ip bn) (fun r _ => r.2.inum = ip.inum) fun _ => True := by
  unfold bmap
  refine Triple.dite (fun _ => addrOrAlloc_inum ip _) fun _ => ?_
  refine Triple.ite (fun _ => ?_) fun _ => Triple.fail fun _ _ => trivial
  refine Triple.bind (addrOrAlloc_inum ip _) fun res => Triple.pre fun _ hip => ?_
  obtain ⟨ind, ip'⟩ := res
  dsimp only at hip ⊢
  -- what follows stores into the indirect block only
  refine Triple.bind (triple_true _) fun a => Triple.ite (fun _ => ?_) fun _ => Triple.ret fun _ _ => hip
  exact Triple.bind (triple_true _) fun _ => Triple.bind (triple_true _) fun _ => Triple.ret fun _ _ => hip

theorem readLoop_inum (ok : Nat → Nat → Bool) (n : Nat) :
    ∀ fuel ip tot off acc, Triple (fun _ => True) (readLoop ok n fuel ip tot off acc)
      (fun r _ => r.2.2.inum = ip.inum) fun _ => True := by
  intro fuel
  induction fuel with
  | zero => exact fun _ _ _ _ => Triple.ret fun _ _ => rfl
  | succ fuel ih =>
      intro ip tot off acc
      rw [readLoop]
      refine Triple.ite (fun _ => ?_) fun _ => Triple.ret fun _ _ => rfl
      refine Triple.bind (bmap_inum ip _) fun res => Triple.pre fun _ hip => ?_
      obtain ⟨addr, ip'⟩ := res
      dsimp only at hip ⊢
      refine Triple.bind (triple_true _) fun _ => Triple.ite (fun _ => ?_) fun _ => Triple.ret fun _ _ => hip
      exact (ih ip' _ _ _).conseq (fun _ _ => trivial) (fun _ _ h => h.trans hip) fun _ h => h

theorem readi_inum (ip : Inode) (ok : Nat → Nat → Bool) (off n : Nat) :
    Triple (fun _ => True) (readi ip ok off n) (fun r _ => r.2.2.inum = ip.inum) fun _ => True := by
  unfold readi
  exact Triple.ite (fun _ => Triple.ret fun _ _ => rfl) fun _ => readLoop_inum ok _ _ ip 0 off []

theorem writeLoop_inum (src : Nat → Option UInt8) (n : Nat) :
    ∀ fuel ip tot off, Triple (fun _ => True) (writeLoop src n fuel ip tot off)
      (fun r _ => r.2.2.inum = ip.inum) fun _ => True := by
  intro fuel
  induction fuel with
  | zero => exact fun _ _ _ => Triple.ret fun _ _ => rfl
  | succ fuel ih =>
      intro ip tot off
      rw [writeLoop]
      refine Triple.ite (fun _ => ?_) fun _ => Triple.ret fun _ _ => rfl
      refine Triple.bind (bmap_inum ip _) fun res => Triple.pre fun _ hip => ?_
      obtain ⟨addr, ip'⟩ := res
      dsimp only at hip ⊢
      refine Triple.ite (fun _ => Triple.bind (triple_true _) fun _ => Triple.ret fun _ _ => hip) fun _ => ?_
      exact Triple.bind (triple_true _) fun _ =>
        (ih ip' _ _).conseq (fun _ _ => trivial) (fun _ _ h => h.trans hip) fun _ h => h

theorem writei_inum (ip : Inode) (src : Nat → Option UInt8) (off n : Nat) :
    Triple (fun _ => True) (writei ip src off n) (fun r _ => r.2.inum = ip.inum) fun _ => True := by
  unfold writei
  refine Triple.ite (fun _ => Triple.ret fun _ _ => rfl) fun _ =>
    Triple.ite (fun _ => Triple.ret fun _ _ => rfl) fun _ => ?_
  refine Triple.bind (writeLoop_inum src n n ip 0 off) fun res => Triple.pre fun _ hip => ?_
  obtain ⟨tot, off', ip'⟩ := res
  dsimp only at hip ⊢
  -- the size raised or not, the number is the loop's
  refine Triple.bind (triple_true _) fun _ => Triple.ret fun _ _ => ?_
  split_ifs <;> exact hip

theorem freeSlot_inum (ip : Inode) (j : Fin (NDIRECT + 1)) :
    Triple (fun _ => True) (freeSlot ip j) (fun r _ => r.inum = ip.inum) fun _ => True := by
  unfold freeSlot
  refine Triple.ite (fun _ => ?_) fun _ => Triple.ret fun _ _ => rfl
  exact Triple.bind (triple_true _) fun _ => Triple.ret fun _ _ => rfl

theorem freeDirect_inum :
    ∀ (js : List (Fin (NDIRECT + 1))) (ip : Inode),
      Triple (fun _ => True) (freeDirect ip js) (fun r _ => r.inum = ip.inum) fun _ => True
  | [], _ => Triple.ret fun _ _ => rfl
  | j :: js, ip => by
      rw [freeDirect]
      refine Triple.bind (freeSlot_inum ip j) fun ip' => Triple.pre fun _ hip => ?_
      exact (freeDirect_inum js ip').conseq (fun _ _ => trivial) (fun _ _ h => h.trans hip) fun _ h => h

theorem itrunc_inum (ip : Inode) :
    Triple (fun _ => True) (itrunc ip) (fun r _ => r.inum = ip.inum) fun _ => True := by
  unfold itrunc
  refine Triple.bind (freeDirect_inum directSlots ip) fun ip₁ => Triple.pre fun _ h₁ => ?_
  -- the indirect part clears one slot
  have hind : Triple (fun _ => True) (freeIndirect ip₁) (fun r _ => r.inum = ip₁.inum) fun _ => True := by
    unfold freeIndirect
    refine Triple.ite (fun _ => ?_) fun _ => Triple.ret fun _ _ => rfl
    exact Triple.bind (triple_true _) fun _ => Triple.bind (triple_true _) fun _ => Triple.ret fun _ _ => rfl
  refine Triple.bind (hind.conseq (fun _ _ => trivial) (fun _ _ h => h.trans h₁) fun _ h => h)
    fun ip₂ => Triple.pre fun _ h₂ => ?_
  exact Triple.bind (triple_true _) fun _ => Triple.ret fun _ _ => h₂

theorem ifree_inum (ip : Inode) :
    Triple (fun _ => True) (ifree ip) (fun r _ => r.inum = ip.inum) fun _ => True := by
  unfold ifree
  refine Triple.bind (itrunc_inum ip) fun ip' => Triple.pre fun _ h => ?_
  exact Triple.bind (triple_true _) fun _ => Triple.ret fun _ _ => h

/-- `ilock` reads the disk inode of the number it is given. -/
theorem ilock_inum (inum : Nat) :
    Triple (fun _ => True) (ilock inum) (fun r _ => r.inum = inum) fun _ => True := by
  unfold ilock
  refine Triple.bind (triple_true _) fun _ => ?_
  exact Triple.ite (fun _ => Triple.fail fun _ _ => trivial) fun _ => Triple.ret fun _ _ => rfl

theorem lookupLoop_inum (name : List UInt8) :
    ∀ fuel dp off, Triple (fun _ => True) (lookupLoop name fuel dp off)
      (fun r _ => r.2.inum = dp.inum) fun _ => True := by
  intro fuel
  induction fuel with
  | zero => exact fun _ _ => Triple.ret fun _ _ => rfl
  | succ fuel ih =>
      intro dp off
      rw [lookupLoop]
      refine Triple.ite (fun _ => ?_) fun _ => Triple.ret fun _ _ => rfl
      refine Triple.bind (readi_inum dp _ _ _) fun res => Triple.pre fun _ hdp => ?_
      obtain ⟨r, de, dp'⟩ := res
      dsimp only at hdp ⊢
      refine Triple.ite (fun _ => Triple.fail fun _ _ => trivial) fun _ =>
        Triple.ite (fun _ => Triple.ret fun _ _ => hdp) fun _ => ?_
      exact (ih dp' _).conseq (fun _ _ => trivial) (fun _ _ h => h.trans hdp) fun _ h => h

theorem dirlookup_inum (dp : Inode) (name : List UInt8) :
    Triple (fun _ => True) (dirlookup dp name) (fun r _ => r.2.inum = dp.inum) fun _ => True := by
  unfold dirlookup
  exact Triple.ite (fun _ => Triple.fail fun _ _ => trivial) fun _ => lookupLoop_inum name _ dp 0

theorem emptyLoop_inum :
    ∀ fuel dp off, Triple (fun _ => True) (emptyLoop fuel dp off) (fun r _ => r.2.inum = dp.inum) fun _ => True := by
  intro fuel
  induction fuel with
  | zero => exact fun _ _ => Triple.ret fun _ _ => rfl
  | succ fuel ih =>
      intro dp off
      rw [emptyLoop]
      refine Triple.ite (fun _ => ?_) fun _ => Triple.ret fun _ _ => rfl
      refine Triple.bind (readi_inum dp _ _ _) fun res => Triple.pre fun _ hdp => ?_
      obtain ⟨r, de, dp'⟩ := res
      dsimp only at hdp ⊢
      refine Triple.ite (fun _ => Triple.fail fun _ _ => trivial) fun _ =>
        Triple.ite (fun _ => Triple.ret fun _ _ => hdp) fun _ => ?_
      exact (ih dp' _).conseq (fun _ _ => trivial) (fun _ _ h => h.trans hdp) fun _ h => h

theorem dirlink_inum (dp : Inode) (name : List UInt8) (inum : Nat) :
    Triple (fun _ => True) (dirlink dp name inum) (fun r _ => r.2.inum = dp.inum) fun _ => True := by
  unfold dirlink
  refine Triple.bind (dirlookup_inum dp name) fun res => Triple.pre fun _ h₁ => ?_
  obtain ⟨found, dp₁⟩ := res
  dsimp only at h₁ ⊢
  split
  · exact Triple.ret fun _ _ => h₁
  refine Triple.bind (triple_of_true (emptyLoop_inum _ dp₁ 0)) fun res => Triple.pre fun _ h₂ => ?_
  obtain ⟨off, dp₂⟩ := res
  dsimp only at h₂ ⊢
  refine Triple.bind (triple_of_true (writei_inum dp₂ _ off _)) fun res => Triple.pre fun _ h₃ => ?_
  obtain ⟨r, dp₃⟩ := res
  dsimp only at h₃ ⊢
  exact Triple.ite (fun _ => Triple.fail fun _ _ => trivial) fun _ =>
    Triple.ret fun _ _ => h₃.trans (h₂.trans h₁)

end Inum

end Fs

namespace Ns

open Fs

theorem emptyDirLoop_inum :
    ∀ fuel dp off, Triple (fun _ => True) (emptyDirLoop fuel dp off) (fun r _ => r.2.inum = dp.inum)
      fun _ => True := by
  intro fuel
  induction fuel with
  | zero => exact fun _ _ => Triple.ret fun _ _ => rfl
  | succ fuel ih =>
      intro dp off
      rw [emptyDirLoop]
      refine Triple.ite (fun _ => ?_) fun _ => Triple.ret fun _ _ => rfl
      refine Triple.bind (readi_inum dp _ _ _) fun res => Triple.pre fun _ hdp => ?_
      obtain ⟨r, de, dp'⟩ := res
      dsimp only at hdp ⊢
      refine Triple.ite (fun _ => Triple.fail fun _ _ => trivial) fun _ =>
        Triple.ite (fun _ => Triple.ret fun _ _ => hdp) fun _ => ?_
      exact (ih dp' _).conseq (fun _ _ => trivial) (fun _ _ h => h.trans hdp) fun _ h => h

theorem isdirempty_inum (dp : Inode) :
    Triple (fun _ => True) (isdirempty dp) (fun r _ => r.2.inum = dp.inum) fun _ => True :=
  emptyDirLoop_inum _ dp _

-- ============================================================ the counts

/-- The processes whose `cwd` is entry `e`. -/
def cwds (k : Kern) (e : Fin NINODE) : Nat := Count.count k.cwd (· = some e)

/-- The reference a function returns holding: one on the entry, or
none. -/
@[grind] def held : Option (Fin NINODE) → Fin NINODE → Int
  | none => 0
  | some e => Pi.single e 1

@[simp] theorem held_none : held none = 0 := rfl

@[simp] theorem held_some (e : Fin NINODE) : held (some e) = Pi.single e 1 := rfl

theorem held_apply (v : Option (Fin NINODE)) (e : Fin NINODE) : held v e = if v = some e then 1 else 0 := by
  cases v with
  | none => simp
  | some e' =>
      by_cases he : e = e'
      · subst he
        simp
      · simp [he, Ne.symm he]

/-- The counts of the table, with `H` held by the call in progress. -/
structure TableInv (k : Kern) (H : Fin NINODE → Int) : Prop where
  ref_eq : ∀ e, (k.inode e).ref = k.fref e + cwds k e + H e
  inum_unique : ∀ e e', 0 < (k.inode e).ref → 0 < (k.inode e').ref →
    (k.inode e).ip.inum = (k.inode e').ip.inum → e = e'

variable {k : Kern} {H H' : Fin NINODE → Int}

namespace TableInv

/-- A store into entry `e` moves the references held on it by what
its `ref` moves. The entries with references keep distinct numbers
when the new one's is no other's. -/
theorem update (h : TableInv k H) (e : Fin NINODE) (x : IEntry)
    (hH : ∀ e', H' e' = H e' + if e' = e then x.ref - (k.inode e).ref else 0)
    (hx : 0 < x.ref → ∀ e', e' ≠ e → 0 < (k.inode e').ref → (k.inode e').ip.inum ≠ x.ip.inum) :
    TableInv { k with inode := Function.update k.inode e x } H' where
  ref_eq e' := by
    have := h.ref_eq e'
    show (Function.update k.inode e x e').ref = k.fref e' + cwds k e' + H' e'
    rw [hH e']
    by_cases he : e' = e
    · subst he
      rw [Function.update_self, if_pos rfl]
      omega
    · rw [Function.update_of_ne he, if_neg he]
      omega
  inum_unique a b ha hb hab := by
    simp only at ha hb hab
    by_cases hae : a = e <;> by_cases hbe : b = e
    · exact hae.trans hbe.symm
    · subst hae
      rw [Function.update_self] at ha hab
      rw [Function.update_of_ne hbe] at hb hab
      exact absurd hab.symm (hx ha b hbe hb)
    · subst hbe
      rw [Function.update_self] at hb hab
      rw [Function.update_of_ne hae] at ha hab
      exact absurd hab (hx hb a hae ha)
    · simp only [Function.update_of_ne hae, Function.update_of_ne hbe] at ha hb hab
      exact h.inum_unique a b ha hb hab

/-- A store that keeps the entry's number, into an entry with
references whenever the new one has them. -/
theorem update_same (h : TableInv k H) (e : Fin NINODE) (x : IEntry)
    (hH : ∀ e', H' e' = H e' + if e' = e then x.ref - (k.inode e).ref else 0)
    (hinum : x.ip.inum = (k.inode e).ip.inum) (hpos : 0 < x.ref → 0 < (k.inode e).ref) :
    TableInv { k with inode := Function.update k.inode e x } H' :=
  h.update e x hH fun hx e' hne hpos' heq => hne (h.inum_unique e' e hpos' (hpos hx) (heq.trans hinum))

/-- A store into an entry's copy that keeps its number and its
references. -/
theorem set_ip (h : TableInv k H) (e : Fin NINODE) (x : IEntry) (href : x.ref = (k.inode e).ref)
    (hinum : x.ip.inum = (k.inode e).ip.inum) : TableInv { k with inode := Function.update k.inode e x } H :=
  h.update_same e x (fun e' => by simp [href]) hinum fun hpos => href ▸ hpos

/-- The counts do not read the transaction. -/
theorem with_tx (h : TableInv k H) (tx : Fs.Tx) : TableInv { k with tx := tx } H :=
  ⟨h.ref_eq, h.inum_unique⟩

/-- An entry the call holds a reference on has references. -/
theorem pos_of_held (h : TableInv k H) {e : Fin NINODE} (hH : 0 < H e) : 0 < (k.inode e).ref := by
  have := h.ref_eq e
  omega

/-- So does an entry that is some process's `cwd`. -/
theorem pos_of_cwd (h : TableInv k H) {p : Fin NPROC} {e : Fin NINODE} (hc : k.cwd p = some e)
    (hH : 0 ≤ H e) : 0 < (k.inode e).ref := by
  have := h.ref_eq e
  have := Count.count_pos (g := k.cwd) (P := (· = some e)) hc
  unfold cwds at *
  omega

/-- `p->cwd = v`: the call takes the old `cwd`'s reference and hands
out the new one's. -/
theorem setCwd (h : TableInv k H) (p : Fin NPROC) (v : Option (Fin NINODE)) :
    TableInv { k with cwd := Function.update k.cwd p v } (H + held (k.cwd p) - held v) where
  ref_eq e := by
    have hc := Count.card_update k.cwd p v (· = some e)
    have := h.ref_eq e
    show (k.inode e).ref = k.fref e + (Count.count (Function.update k.cwd p v) (· = some e) : Int) + _
    rw [Pi.sub_apply, Pi.add_apply, held_apply, held_apply]
    unfold cwds at this
    split_ifs at hc ⊢ <;> omega
  inum_unique := h.inum_unique

/-- One more open file on `e` holds a reference the call held. -/
theorem addFref (h : TableInv k H) (e : Fin NINODE) :
    TableInv { k with fref := Function.update k.fref e (k.fref e + 1) } (H - Pi.single e 1) where
  ref_eq e' := by
    have := h.ref_eq e'
    show _ = ((Function.update k.fref e (k.fref e + 1) e' : Nat) : Int) + cwds k e' + _
    by_cases he : e' = e
    · subst he
      simp only [Function.update_self, Pi.sub_apply, Pi.single_eq_same]
      omega
    · simp only [Function.update_of_ne he, Pi.sub_apply, Pi.single_eq_of_ne he]
      omega
  inum_unique := h.inum_unique

/-- An open file on `e` closed hands its reference to the call. -/
theorem subFref (h : TableInv k H) {e : Fin NINODE} (hpos : 0 < k.fref e) :
    TableInv { k with fref := Function.update k.fref e (k.fref e - 1) } (H + Pi.single e 1) where
  ref_eq e' := by
    have := h.ref_eq e'
    show _ = ((Function.update k.fref e (k.fref e - 1) e' : Nat) : Int) + cwds k e' + _
    by_cases he : e' = e
    · subst he
      simp only [Function.update_self, Pi.add_apply, Pi.single_eq_same]
      omega
    · simp only [Function.update_of_ne he, Pi.add_apply, Pi.single_eq_of_ne he]
      omega
  inum_unique := h.inum_unique

end TableInv

-- ========================================================= the functions

section Functions

variable {α : Type}

/-- A file-system function keeps what does not read the transaction. -/
theorem fs_spec {P : Kern → Prop} (hP : ∀ k tx, P k → P { k with tx := tx }) {m : Fs.FsM α}
    {Q : α → Prop} (hm : Triple (fun _ => True) m (fun a _ => Q a) fun _ => True) :
    Triple P (fs m) (fun a k => P k ∧ Q a) fun _ => True := by
  refine Triple.intro fun k hk => ?_
  have := hm.apply (s := k.tx) trivial
  unfold fs
  revert this
  rcases m k.tx with _ | ⟨a, tx⟩
  · exact fun _ => trivial
  · exact fun hq => ⟨hP k tx hk, hq⟩

theorem fs_frame {P : Kern → Prop} (hP : ∀ k tx, P k → P { k with tx := tx }) (m : Fs.FsM α) :
    Triple P (fs m) (fun _ k => P k) fun _ => True :=
  (fs_spec hP (Q := fun _ => True) (triple_true m)).conseq (fun _ => id) (fun _ _ h => h.1) fun _ => id

/-- Two triples of one function, from the two halves of a state. -/
theorem both {P₁ P₂ : Kern → Prop} {x : NsM α} {Q₁ Q₂ : α → Kern → Prop}
    (h₁ : Triple P₁ x Q₁ fun _ => True) (h₂ : Triple P₂ x Q₂ fun _ => True) :
    Triple (fun k => P₁ k ∧ P₂ k) x (fun a k => Q₁ a k ∧ Q₂ a k) fun _ => True :=
  ((h₁.conseq (fun _ h => h.1) (fun _ _ => id) fun _ => id).and
    (h₂.conseq (fun _ h => h.2) (fun _ _ => id) fun _ => id)).err fun _ _ => trivial

/-- A `panic` ends the call. -/
theorem throw_bind {β : Type} {P : Kern → Prop} {Q : β → Kern → Prop} (msg : String) (f : α → NsM β) :
    Triple P (throw msg >>= f) Q fun _ => True :=
  Triple.intro fun _ _ => trivial

theorem getEntry_spec {P : Kern → Prop} (e : Fin NINODE) :
    Triple P (getEntry e) (fun x k => P k ∧ x = k.inode e) fun _ => True :=
  Triple.intro fun _ hk => ⟨hk, rfl⟩

theorem copyOf_spec {P : Kern → Prop} (e : Fin NINODE) :
    Triple P (copyOf e) (fun x k => P k ∧ x = (k.inode e).ip) fun _ => True :=
  Triple.intro fun _ hk => ⟨hk, rfl⟩

theorem iunlock_spec {P : Kern → Prop} (e : Fin NINODE) :
    Triple P (iunlock e) (fun _ k => P k) fun _ => True := by
  unfold iunlock
  refine Triple.bind (getEntry_spec e) fun x => Triple.pre fun k hk => ?_
  exact Triple.ite (fun _ => Triple.fail fun _ _ => trivial) fun _ => Triple.ret fun _ h => h ▸ hk.1

/-- `ip->... = ...` on the locked copy, keeping its number. -/
theorem setIp_inv (e : Fin NINODE) (ip : Inode) :
    Triple (fun k => TableInv k H ∧ ip.inum = (k.inode e).ip.inum) (setIp e ip)
      (fun _ k => TableInv k H ∧ (k.inode e).ip = ip) fun _ => True :=
  Triple.intro fun _ ⟨h, hinum⟩ => ⟨h.set_ip e _ rfl hinum, by simp⟩

theorem idup_inv (e : Fin NINODE) :
    Triple (fun k => TableInv k H ∧ 0 < (k.inode e).ref) (idup e) (fun _ k => TableInv k (H + Pi.single e 1))
      fun _ => True :=
  Triple.intro fun k ⟨h, hpos⟩ => by
    refine h.update_same e _ (fun e' => ?_) rfl fun _ => hpos
    by_cases he : e' = e
    · subst he
      simp
    · simp [he]

/-- `iput(ip)` drops one reference, freeing the inode or not. -/
theorem iput_inv (e : Fin NINODE) :
    Triple (TableInv · H) (iput e) (fun _ k => TableInv k (H - Pi.single e 1)) fun _ => True := by
  unfold iput
  refine Triple.bind (getEntry_spec e) fun x => ?_
  -- either way the entry's `ref` drops by one
  have hH : ∀ r : Int, r = x.ref - 1 → ∀ k : Kern, x = k.inode e → ∀ e',
      (H - Pi.single e 1 : Fin NINODE → Int) e' = H e' + if e' = e then r - (k.inode e).ref else 0 := by
    intro r hr k hx e'
    by_cases he : e' = e
    · subst he
      rw [Pi.sub_apply, Pi.single_eq_same, if_pos rfl, hr, ← hx]
      omega
    · simp [he]
  refine Triple.ite (fun hfree => ?_) fun _ => ?_
  · -- the last reference: the inode is freed, and the entry has none left
    refine Triple.bind (fs_frame (fun _ tx h => ⟨h.1.with_tx tx, h.2⟩) _) fun ip => Triple.intro fun k hk => ?_
    obtain ⟨h, hx⟩ := hk
    exact h.update e _ (hH 0 (by omega) k hx) fun hpos => absurd hpos (lt_irrefl 0)
  · refine Triple.intro fun k hk => ?_
    obtain ⟨h, hx⟩ := hk
    exact h.update_same e _ (hH _ rfl k hx) (by rw [hx]) fun hpos => by
      rw [← hx]
      simp only at hpos
      omega

theorem iunlockput_inv (e : Fin NINODE) :
    Triple (TableInv · H) (iunlockput e) (fun _ k => TableInv k (H - Pi.single e 1)) fun _ => True :=
  Triple.bind (iunlock_spec e) fun _ => iput_inv e

/-- `iget` returns an entry of the inode holding one more reference:
the entry already holding it, else a free one, recycled. -/
theorem iget_inv (inum : Nat) :
    Triple (TableInv · H) (iget inum)
      (fun e k => TableInv k (H + Pi.single e 1) ∧ (k.inode e).ip.inum = inum) fun _ => True := by
  refine Triple.intro fun k h => ?_
  unfold iget
  rcases hfind : (List.finRange NINODE).find? (fun e => 0 < (k.inode e).ref ∧ (k.inode e).ip.inum = inum)
    with _ | e
  · -- no entry holds the inode: the first free one is recycled
    have hnone := List.find?_eq_none.mp hfind
    rcases hfree : (List.finRange NINODE).find? (fun e => (k.inode e).ref = 0) with _ | e
    · trivial
    have he0 : (k.inode e).ref = 0 := by simpa using List.find?_some hfree
    refine ⟨h.update e _ (fun e' => ?_) fun _ e' _ hpos heq => ?_, by simp⟩
    · by_cases he : e' = e
      · subst he
        simp [he0]
      · simp [he]
    · exact hnone e' (List.mem_finRange e') (by simpa using ⟨hpos, heq⟩)
  · obtain ⟨hpos, hinum⟩ : 0 < (k.inode e).ref ∧ (k.inode e).ip.inum = inum := by
      simpa using List.find?_some hfind
    refine ⟨h.update_same e _ (fun e' => ?_) rfl fun _ => hpos, by simp [hinum]⟩
    by_cases he : e' = e
    · subst he
      simp
    · simp [he]

/-- An entry `iget` recycles is not valid: the next `ilock` reads the
disk inode. -/
theorem iget_recycled {inum : Nat} {e : Fin NINODE} {k' : Kern} (h : iget inum k = .ok (e, k'))
    (h0 : (k.inode e).ref = 0) : (k'.inode e).valid = false := by
  unfold iget at h
  split at h
  · -- an entry found holds references
    rename_i e' hfind
    obtain ⟨rfl, -⟩ := Prod.mk.inj (Except.ok.inj h)
    have hpos : 0 < (k.inode e').ref ∧ (k.inode e').ip.inum = inum := by simpa using List.find?_some hfind
    omega
  · split at h
    · obtain ⟨rfl, rfl⟩ := Prod.mk.inj (Except.ok.inj h)
      simp
    · cases h

/-- `ilock` returns the copy, read from the disk if not valid. -/
theorem ilock_inv (e : Fin NINODE) :
    Triple (TableInv · H) (ilock e) (fun x k => TableInv k H ∧ (k.inode e).ip = x) fun _ => True := by
  unfold ilock
  refine Triple.bind (getEntry_spec e) fun x => ?_
  refine Triple.ite (fun _ => throw_bind _ _) fun _ => ?_
  refine Triple.ite (fun _ => Triple.ret fun k hk => ⟨hk.1, by rw [← hk.2]⟩) fun _ => ?_
  refine Triple.bind (fs_spec (fun _ tx h => ⟨h.1.with_tx tx, h.2⟩) (ilock_inum x.ip.inum)) fun ip => ?_
  refine Triple.intro fun k hk => ?_
  obtain ⟨⟨h, hx⟩, hip⟩ := hk
  exact ⟨h.set_ip e _ (by rw [hx]) (by rw [hip, hx]), by simp⟩

/-- `dirlookup` returns holding a reference on the entry it found. -/
theorem dirlookup_inv (dp : Fin NINODE) (name : List UInt8) :
    Triple (TableInv · H) (dirlookup dp name) (fun r k => TableInv k (H + held (r.map Prod.fst)))
      fun _ => True := by
  unfold dirlookup
  refine Triple.bind (copyOf_spec dp) fun x => ?_
  refine Triple.bind (fs_spec (fun _ tx h => ⟨h.1.with_tx tx, h.2⟩) (Fs.dirlookup_inum x name)) fun res => ?_
  obtain ⟨r, d⟩ := res
  -- the directory's copy is stored back with its number
  refine Triple.bind ((setIp_inv dp d).conseq (fun k hk => ⟨hk.1.1, hk.2.trans (congrArg Inode.inum hk.1.2)⟩)
    (fun _ _ h => h.1) fun _ => id) fun _ => ?_
  split
  · exact Triple.ret fun k h => by simpa using h
  · exact Triple.bind (iget_inv _) fun ip => Triple.ret fun k h => by simpa using h.1

/-- `dirlink` holds nothing when it returns: a name found is put back. -/
theorem dirlink_inv (dp : Fin NINODE) (name : List UInt8) (inum : Nat) :
    Triple (TableInv · H) (dirlink dp name inum) (fun _ k => TableInv k H) fun _ => True := by
  unfold dirlink
  refine Triple.bind (dirlookup_inv dp name) fun r => ?_
  split
  · refine Triple.bind ((iput_inv _).conseq (fun _ h => by simpa using h) (fun _ _ h => h) fun _ => id)
      fun _ => Triple.ret fun k h => by simpa using h
  refine Triple.bind (copyOf_spec dp) fun x => ?_
  refine Triple.bind (fs_spec (fun _ tx h => ⟨h.1.with_tx tx, h.2⟩) (Fs.emptyLoop_inum _ x 0))
    fun res₁ => ?_
  obtain ⟨off, d₁⟩ := res₁
  refine Triple.bind (fs_spec (fun _ tx h => ⟨⟨h.1.1.with_tx tx, h.1.2⟩, h.2⟩) (Fs.writei_inum d₁ _ off _))
    fun res₂ => ?_
  obtain ⟨w, d₂⟩ := res₂
  refine Triple.bind ((setIp_inv dp d₂).conseq (fun k hk => by
      obtain ⟨⟨⟨h, hx⟩, h₁⟩, h₂⟩ := hk
      exact ⟨by simpa using h, h₂.trans (h₁.trans (congrArg Inode.inum hx))⟩) (fun _ _ h => h.1) fun _ => id) fun _ => ?_
  exact Triple.ite (fun _ => throw_bind _ _) fun _ => Triple.ret fun _ h => h

/-- `iput` and `idup` write no `cwd`. -/
theorem iput_cwd (e : Fin NINODE) (c : Fin NPROC → Option (Fin NINODE)) :
    Triple (fun k : Kern => k.cwd = c) (iput e) (fun _ k => k.cwd = c) fun _ => True := by
  unfold iput
  refine Triple.bind (getEntry_spec e) fun x => Triple.ite (fun _ => ?_) fun _ => Triple.intro fun _ h => h.1
  exact Triple.bind (fs_frame (fun _ _ h => h) _) fun _ => Triple.intro fun _ h => h.1

theorem idup_cwd (e : Fin NINODE) (c : Fin NPROC → Option (Fin NINODE)) :
    Triple (fun k : Kern => k.cwd = c) (idup e) (fun _ k => k.cwd = c) fun _ => True :=
  Triple.bind (getEntry_spec e) fun _ => Triple.intro fun _ h => h.1

theorem modify_spec {P : Kern → Prop} (f : Kern → Kern) :
    Triple (fun k => P (f k)) (modify f : NsM PUnit) (fun _ k => P k) fun _ => True :=
  Triple.intro fun _ h => h

end Functions

end Ns

end Xv6
