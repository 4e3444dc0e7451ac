import Xv6.Ns.Proofs.Table
import Mathlib.Tactic.Abel

/-!
The namespace calls keep the inode table's counts.

Each call starts holding nothing and ends holding nothing, on every
path that returns, the `-1` paths included: the triples below chain
those of `Table.lean` through the call's code. `namex` returns holding
one reference on the inode it returns and none otherwise; so do
`create` and the part of `sys_open` before the file takes the
reference. Every state the calls reach from `boot` satisfies the
counts with nothing held (`table_reach`).
-/

namespace Xv6

namespace Ns

open Prog

variable {k : Kern} {H : Fin NINODE → Int}

theorem TableInv.of_eq {H' : Fin NINODE → Int} (h : TableInv k H) (hH : H = H') : TableInv k H' := hH ▸ h

theorem get_spec {P : Kern → Prop} : Triple P (get : NsM Kern) (fun s k => P k ∧ s = k) fun _ => True :=
  Triple.intro fun _ hk => ⟨hk, rfl⟩

-- ============================================================== paths

/-- `namex`'s loop, entered holding `ip`, returns holding the inode it
returns. -/
theorem namexLoop_inv (np : Bool) :
    ∀ fuel (ip : Fin NINODE) path name H, Triple (TableInv · (H + Pi.single ip 1))
      (namexLoop np fuel ip path name) (fun r k => TableInv k (H + held r.1)) fun _ => True := by
  intro fuel
  induction fuel with
  | zero => exact fun _ _ _ _ => Triple.fail fun _ _ => trivial
  | succ fuel ih =>
      intro ip path name H
      rw [namexLoop]
      split
      · -- no element left: `ip` is the answer, or is put back by `nameiparent`
        refine Triple.ite (fun _ => Triple.bind (iput_inv ip) fun _ => Triple.ret fun k h => ?_)
          fun _ => Triple.ret fun k h => h
        exact h.of_eq (by simp)
      refine Triple.bind (ilock_inv ip) fun x => ?_
      refine Triple.ite (fun _ => Triple.bind ((iunlockput_inv ip).conseq (fun _ h => h.1) (fun _ _ h => h) fun _ => id)
        fun _ => Triple.ret fun k h => h.of_eq (by simp)) fun _ => ?_
      refine Triple.ite (fun _ => Triple.bind (iunlock_spec ip) fun _ => Triple.ret fun k h => h.1) fun _ => ?_
      refine Triple.bind ((dirlookup_inv ip _).conseq (fun _ h => h.1) (fun _ _ h => h) fun _ => id) fun r => ?_
      split
      · exact Triple.bind (iunlockput_inv ip) fun _ => Triple.ret fun k h => h.of_eq (by simp)
      · -- the next inode is held, `ip` is put back
        refine Triple.bind (iunlockput_inv ip) fun _ => ?_
        exact (ih _ _ _ H).conseq (fun k h => h.of_eq (by simp; abel)) (fun _ _ h => h) fun _ => id

/-- `namex` takes a reference on its start, the root or the `cwd`,
which holds one already. -/
theorem namex_inv (hH : ∀ e, 0 ≤ H e) (p : Fin NPROC) (path : List UInt8) (np : Bool) :
    Triple (TableInv · H) (namex p path np) (fun r k => TableInv k (H + held r.1)) fun _ => True := by
  unfold namex
  dsimp only
  -- either start holds one reference, which the loop carries
  have hloop : ∀ ip, Triple (TableInv · (H + Pi.single ip 1)) (namexLoop np (path.length + 1) ip path [])
      (fun r k => TableInv k (H + held r.1)) fun _ => True := fun ip => namexLoop_inv np _ ip path [] H
  refine Triple.ite (fun _ => Triple.bind ((iget_inv _).conseq (fun _ => id) (fun _ _ h => h.1) fun _ => id) hloop)
    fun _ => ?_
  refine Triple.bind get_spec fun s => ?_
  split
  · rename_i c hc
    refine Triple.bind ((idup_inv c).conseq (fun k hk => ⟨hk.1, hk.1.pos_of_cwd (hk.2 ▸ hc) (hH c)⟩)
      (fun _ _ h => h) fun _ => id) fun _ => ?_
    rw [pure_bind]
    exact hloop c
  · exact throw_bind _ _

theorem namei_inv (hH : ∀ e, 0 ≤ H e) (p : Fin NPROC) (path : List UInt8) :
    Triple (TableInv · H) (namei p path) (fun r k => TableInv k (H + held r)) fun _ => True :=
  Triple.bind (namex_inv hH p path false) fun _ => Triple.ret fun _ h => h

theorem nameiparent_inv (hH : ∀ e, 0 ≤ H e) (p : Fin NPROC) (path : List UInt8) :
    Triple (TableInv · H) (nameiparent p path) (fun r k => TableInv k (H + held r.1)) fun _ => True :=
  namex_inv hH p path true

-- ============================================================= create

theorem create_inv (hH : ∀ e, 0 ≤ H e) (p : Fin NPROC) (path : List UInt8) (type major minor : Nat) :
    Triple (TableInv · H) (create p path type major minor) (fun r k => TableInv k (H + held r))
      fun _ => True := by
  unfold create
  refine Triple.bind (nameiparent_inv hH p path) fun res => ?_
  obtain ⟨dp?, name⟩ := res
  dsimp only
  split
  · exact Triple.ret fun _ h => by simpa using h
  rename_i dp
  refine Triple.bind (ilock_inv dp) fun _ => ?_
  refine Triple.bind ((dirlookup_inv dp name).conseq (fun _ h => h.1) (fun _ _ h => h) fun _ => id) fun r => ?_
  split
  · -- the name is there: `dp` is put back, and the inode returned or put back
    rename_i ip _
    refine (show Triple (TableInv · (H + Pi.single dp 1 + Pi.single ip 1)) _ _ _ from ?_).conseq
      (fun _ h => h.of_eq (by simp)) (fun _ _ => id) fun _ => id
    refine Triple.bind (iunlockput_inv dp) fun _ => Triple.bind (ilock_inv ip) fun x => ?_
    refine Triple.ite (fun _ => Triple.ret fun _ h => h.1.of_eq (by rw [held_some]; abel)) fun _ => ?_
    refine Triple.bind ((iunlockput_inv ip).conseq (fun _ h => h.1) (fun _ _ h => h) fun _ => id) fun _ => ?_
    exact Triple.ret fun _ h => h.of_eq (by rw [held_none]; abel)
  -- a new inode, linked into `dp`
  refine (show Triple (TableInv · (H + Pi.single dp 1)) _ _ _ from ?_).conseq
    (fun _ h => h.of_eq (by simp)) (fun _ _ => id) fun _ => id
  -- what follows the `.` and `..` of a directory
  have htail : ∀ (ip : Fin NINODE) (n : Nat), Triple (TableInv · (H + Pi.single dp 1 + Pi.single ip 1))
      (do
        if (← dirlink dp name n) < 0 then throw "create: dirlink"
        iunlockput dp
        pure (some ip))
      (fun r k => TableInv k (H + held r)) fun _ => True := by
    intro ip n
    refine Triple.bind (dirlink_inv dp name n) fun _ => Triple.ite (fun _ => throw_bind _ _) fun _ => ?_
    exact Triple.bind (iunlockput_inv dp) fun _ => Triple.ret fun _ h => h.of_eq (by rw [held_some]; abel)
  refine Triple.bind (fs_frame (fun _ tx h => h.with_tx tx) _) fun inum => ?_
  refine Triple.bind ((iget_inv inum).conseq (fun _ => id) (fun _ _ h => h.1) fun _ => id) fun ip => ?_
  refine Triple.bind (ilock_inv ip) fun x => ?_
  refine Triple.bind ((setIp_inv ip _).conseq (fun _ h => ⟨h.1, by rw [h.2]⟩) (fun _ _ h => h.1) fun _ => id)
    fun _ => ?_
  refine Triple.bind (fs_frame (fun _ tx h => h.with_tx tx) _) fun _ => ?_
  refine Triple.ite (fun _ => ?_) fun _ => htail ip x.inum
  -- a directory: `dp->nlink++`, then `.` and `..`
  refine Triple.bind (copyOf_spec dp) fun d => ?_
  refine Triple.bind ((setIp_inv dp _).conseq (fun _ h => ⟨h.1, by rw [h.2]⟩) (fun _ _ h => h.1) fun _ => id)
    fun _ => ?_
  refine Triple.bind (fs_frame (fun _ tx h => h.with_tx tx) _) fun _ => ?_
  refine Triple.bind (dirlink_inv ip _ _) fun _ => Triple.ite (fun _ => throw_bind _ _) fun _ => ?_
  exact Triple.bind (dirlink_inv ip _ _) fun _ => Triple.ite (fun _ => throw_bind _ _) fun _ => htail ip x.inum

-- ============================================================== calls

theorem sys_chdir_inv (p : Fin NPROC) (path : List UInt8) :
    Triple (TableInv · 0) (sys_chdir p path) (fun _ k => TableInv k 0) fun _ => True := by
  unfold sys_chdir
  refine Triple.bind (namei_inv (H := 0) (fun _ => le_rfl) p path) fun ip? => ?_
  split
  · exact Triple.ret fun _ h => by simpa using h
  rename_i ip
  refine Triple.bind (ilock_inv ip) fun x => ?_
  refine Triple.ite (fun _ => ?_) fun _ => ?_
  · refine Triple.bind ((iunlockput_inv ip).conseq (fun _ h => h.1) (fun _ _ h => h) fun _ => id) fun _ => ?_
    exact Triple.ret fun _ h => h.of_eq (by simp)
  refine Triple.bind ((iunlock_spec ip).conseq (fun _ h => h.1) (fun _ _ h => h) fun _ => id) fun _ => ?_
  refine Triple.bind get_spec fun s => ?_
  dsimp only
  split
  · -- the old `cwd` is put back, still pointed at until the store
    rename_i c hc
    refine Triple.bind ((both (iput_inv c) (iput_cwd c s.cwd)).conseq (fun k h => ⟨h.1, by rw [h.2]⟩)
      (fun _ _ h => h) fun _ => id) fun _ => ?_
    refine Triple.bind ((modify_spec (P := fun k => TableInv k 0) _).conseq
      (fun k hk => (hk.1.setCwd p (some ip)).of_eq (by rw [hk.2, hc]; simp)) (fun _ _ => id) fun _ => id)
      fun _ => Triple.ret fun _ h => h
  · exact throw_bind _ _

/-- What `create` returns is put back at once. -/
theorem create_put_inv {β : Type} (p : Fin NPROC) (path : List UInt8) (type major minor : Nat) (none some : β) :
    Triple (TableInv · 0)
      (do
        match ← create p path type major minor with
        | Option.none => pure none
        | Option.some ip => do
            iunlockput ip
            pure some)
      (fun _ k => TableInv k 0) fun _ => True := by
  refine Triple.bind (create_inv (H := 0) (fun _ => le_rfl) p path type major minor) fun r => ?_
  split
  · exact Triple.ret fun _ h => by simpa using h
  · exact Triple.bind (iunlockput_inv _) fun _ => Triple.ret fun _ h => h.of_eq (by simp)

theorem sys_mkdir_inv (p : Fin NPROC) (path : List UInt8) :
    Triple (TableInv · 0) (sys_mkdir p path) (fun _ k => TableInv k 0) fun _ => True :=
  create_put_inv p path T_DIR 0 0 (-1) 0

theorem sys_mknod_inv (p : Fin NPROC) (path : List UInt8) (major minor : Int) :
    Triple (TableInv · 0) (sys_mknod p path major minor) (fun _ k => TableInv k 0) fun _ => True :=
  create_put_inv p path T_DEVICE _ _ (-1) 0

theorem sys_open_inv (p : Fin NPROC) (path : List UInt8) (omode : Nat) (ftok : Bool) :
    Triple (TableInv · 0) (sys_open p path omode ftok) (fun _ k => TableInv k 0) fun _ => True := by
  unfold sys_open
  -- once the inode is found: put back on `-1`, else handed to the new file
  have hsome : ∀ ip : Fin NINODE, Triple (TableInv · (Pi.single ip 1))
      (do
        let x ← copyOf ip
        if x.type = T_DEVICE ∧ (shortVal x.major < 0 ∨ NDEV ≤ shortVal x.major) then do
          iunlockput ip
          pure none
        else if !ftok then do
          iunlockput ip
          pure none
        else do
          if omode &&& O_TRUNC ≠ 0 ∧ x.type = T_FILE then setIp ip (← fs (Fs.itrunc x))
          iunlock ip
          modify fun k => { k with fref := Function.update k.fref ip (k.fref ip + 1) }
          pure (some ip))
      (fun _ k => TableInv k 0) fun _ => True := by
    intro ip
    have hput : Triple (TableInv · (Pi.single ip 1)) (do iunlockput ip; pure none : NsM (Option (Fin NINODE)))
        (fun _ k => TableInv k 0)
        fun _ => True :=
      Triple.bind (iunlockput_inv ip) fun _ => Triple.ret fun _ h => h.of_eq (by simp)
    have hopen : Triple (TableInv · (Pi.single ip 1))
        (do
          iunlock ip
          modify fun k => { k with fref := Function.update k.fref ip (k.fref ip + 1) }
          pure (some ip))
        (fun _ k => TableInv k 0) fun _ => True := by
      refine Triple.bind (iunlock_spec ip) fun _ => Triple.bind ?_ fun _ => Triple.ret fun _ h => h
      exact (modify_spec (P := fun k => TableInv k 0) _).conseq (fun _ h => (h.addFref ip).of_eq (by simp))
        (fun _ _ => id) fun _ => id
    refine Triple.bind (copyOf_spec ip) fun x => ?_
    refine Triple.ite (fun _ => hput.conseq (fun _ h => h.1) (fun _ _ => id) fun _ => id) fun _ =>
      Triple.ite (fun _ => hput.conseq (fun _ h => h.1) (fun _ _ => id) fun _ => id) fun _ => ?_
    refine Triple.ite (fun _ => ?_) fun _ => hopen.conseq (fun _ h => h.1) (fun _ _ => id) fun _ => id
    -- `O_TRUNC`: the truncated copy keeps its number
    refine Triple.bind (fs_spec (fun _ tx h => ⟨h.1.with_tx tx, h.2⟩) (Fs.itrunc_inum x)) fun r => ?_
    refine Triple.bind ((setIp_inv ip r).conseq (fun _ h => ⟨h.1.1, by rw [h.2, h.1.2]⟩)
      (fun _ _ h => h.1) fun _ => id) fun _ => hopen
  refine Triple.ite (fun _ => ?_) fun _ => ?_
  · refine Triple.bind (create_inv (H := 0) (fun _ => le_rfl) p path T_FILE 0 0) fun r => ?_
    beta_reduce
    split
    · exact Triple.ret fun _ h => by simpa using h
    · exact (hsome _).conseq (fun _ h => h.of_eq (by simp)) (fun _ _ => id) fun _ => id
  refine Triple.bind (namei_inv (H := 0) (fun _ => le_rfl) p path) fun r => ?_
  split
  · rw [pure_bind]
    exact Triple.ret fun _ h => by simpa using h
  rename_i ip
  refine Triple.bind (ilock_inv ip) fun x => ?_
  refine Triple.ite (fun _ => ?_) fun _ => ?_
  · refine Triple.bind ((iunlockput_inv ip).conseq (fun _ h => h.1) (fun _ _ => id) fun _ => id) fun _ => ?_
    rw [pure_bind]
    exact Triple.ret fun _ h => h.of_eq (by simp)
  · rw [pure_bind]
    exact (hsome ip).conseq (fun _ h => h.1.of_eq (by simp)) (fun _ _ => id) fun _ => id

/-- A reference held on one entry is no negative count. -/
theorem single_nonneg (e e' : Fin NINODE) : 0 ≤ (Pi.single e 1 : Fin NINODE → Int) e' := by
  by_cases he : e' = e
  · subst he
    simp
  · simp [he]

theorem sys_link_inv (p : Fin NPROC) (old new : List UInt8) :
    Triple (TableInv · 0) (sys_link p old new) (fun _ k => TableInv k 0) fun _ => True := by
  unfold sys_link
  refine Triple.bind (namei_inv (H := 0) (fun _ => le_rfl) p old) fun r => ?_
  split
  · exact Triple.ret fun _ h => by simpa using h
  rename_i ip
  refine Triple.bind ((ilock_inv (H := Pi.single ip 1) ip).conseq (fun _ h => h.of_eq (by simp))
    (fun _ _ => id) fun _ => id) fun x => ?_
  refine Triple.ite (fun _ => ?_) fun _ => ?_
  · refine Triple.bind ((iunlockput_inv ip).conseq (fun _ h => h.1) (fun _ _ => id) fun _ => id) fun _ => ?_
    exact Triple.ret fun _ h => h.of_eq (by simp)
  -- linked or not, the reference on `ip` is put back
  have hfinish : ∀ linked : Bool, Triple (TableInv · (Pi.single ip 1))
      (if linked = true then do
        iput ip
        pure 0
      else do
        let x ← ilock ip
        let x := { x with nlink := (x.nlink + 2 ^ 16 - 1) % 2 ^ 16 }
        setIp ip x
        fs (Fs.iupdate x)
        iunlockput ip
        pure (-1))
      (fun _ k => TableInv k 0) fun _ => True := by
    intro linked
    refine Triple.ite (fun _ => Triple.bind (iput_inv ip) fun _ => Triple.ret fun _ h => h.of_eq (by simp))
      fun _ => ?_
    refine Triple.bind (ilock_inv ip) fun x' => ?_
    refine Triple.bind ((setIp_inv ip _).conseq (fun _ h => ⟨h.1, by rw [h.2]⟩) (fun _ _ h => h.1) fun _ => id)
      fun _ => Triple.bind (fs_frame (fun _ tx h => h.with_tx tx) _) fun _ => ?_
    exact Triple.bind (iunlockput_inv ip) fun _ => Triple.ret fun _ h => h.of_eq (by simp)
  dsimp only
  refine Triple.bind ((setIp_inv ip _).conseq (fun _ h => ⟨h.1, by rw [h.2]⟩) (fun _ _ h => h.1) fun _ => id)
    fun _ => Triple.bind (fs_frame (fun _ tx h => h.with_tx tx) _) fun _ => Triple.bind (iunlock_spec ip) fun _ => ?_
  refine Triple.bind (nameiparent_inv (single_nonneg ip) p new) fun r => ?_
  split
  · rw [pure_bind]
    exact (hfinish false).conseq (fun _ h => h.of_eq (by simp)) (fun _ _ => id) fun _ => id
  rename_i dp name
  refine Triple.bind (ilock_inv dp) fun _ => ?_
  refine Triple.bind ((dirlink_inv dp name _).conseq (fun _ h => h.1) (fun _ _ => id) fun _ => id) fun _ => ?_
  refine Triple.bind (iunlockput_inv dp) fun _ => ?_
  rw [pure_bind]
  exact (hfinish _).conseq (fun _ h => h.of_eq (by simp)) (fun _ _ => id) fun _ => id

/-- The end of `sys_unlink`, once it knows whether the victim is a
directory with entries: the entry is cleared or not, and both
references are put back. -/
theorem unlink_finish_inv (dp ip : Fin NINODE) (off : Nat) (x : Inode) (busy : Bool) :
    Triple (TableInv · (Pi.single dp 1 + Pi.single ip 1))
      (if busy then do
        iunlockput ip
        iunlockput dp
        pure (-1)
      else do
        let (r, d) ← fs (Fs.writei (← copyOf dp) (Fs.kernelSrc (List.replicate 16 0)) off Fs.direntSize)
        setIp dp d
        if r ≠ Fs.direntSize then throw "unlink: writei"
        if x.type = T_DIR then do
          let d := { d with nlink := (d.nlink + 2 ^ 16 - 1) % 2 ^ 16 }
          setIp dp d
          fs (Fs.iupdate d)
        iunlockput dp
        let x ← copyOf ip
        let x := { x with nlink := (x.nlink + 2 ^ 16 - 1) % 2 ^ 16 }
        setIp ip x
        fs (Fs.iupdate x)
        iunlockput ip
        pure 0)
      (fun _ k => TableInv k 0) fun _ => True := by
  -- the entry is cleared, then both references put back
  have htail : Triple (TableInv · (Pi.single dp 1 + Pi.single ip 1))
      (do
        iunlockput dp
        let x ← copyOf ip
        let x := { x with nlink := (x.nlink + 2 ^ 16 - 1) % 2 ^ 16 }
        setIp ip x
        fs (Fs.iupdate x)
        iunlockput ip
        pure (0 : Int))
      (fun _ k => TableInv k 0) fun _ => True := by
    refine Triple.bind (iunlockput_inv dp) fun _ => Triple.bind (copyOf_spec ip) fun x' => ?_
    refine Triple.bind ((setIp_inv ip _).conseq (fun _ h => ⟨h.1, by rw [h.2]⟩) (fun _ _ h => h.1) fun _ => id)
      fun _ => Triple.bind (fs_frame (fun _ tx h => h.with_tx tx) _) fun _ => ?_
    exact Triple.bind (iunlockput_inv ip) fun _ => Triple.ret fun _ h => h.of_eq (by abel)
  refine Triple.ite (fun _ => ?_) fun _ => ?_
  · refine Triple.bind (iunlockput_inv ip) fun _ => Triple.bind (iunlockput_inv dp) fun _ => ?_
    exact Triple.ret fun _ h => h.of_eq (by abel)
  refine Triple.bind (copyOf_spec dp) fun c => ?_
  refine Triple.bind (fs_spec (fun _ tx h => ⟨h.1.with_tx tx, h.2⟩) (Fs.writei_inum c _ off _)) fun res => ?_
  obtain ⟨r, d⟩ := res
  dsimp only
  refine Triple.bind ((setIp_inv dp d).conseq (fun _ h => ⟨h.1.1, by rw [h.2, h.1.2]⟩) (fun _ _ => id)
    fun _ => id) fun _ => ?_
  refine Triple.ite (fun _ => throw_bind _ _) fun _ => Triple.ite (fun _ => ?_) fun _ => ?_
  · -- a directory's `..` no longer names `dp`
    refine Triple.bind ((setIp_inv dp _).conseq (fun _ h => ⟨h.1, by rw [h.2]⟩) (fun _ _ h => h.1) fun _ => id)
      fun _ => Triple.bind (fs_frame (fun _ tx h => h.with_tx tx) _) fun _ => htail
  · exact htail.conseq (fun _ h => h.1) (fun _ _ => id) fun _ => id

theorem sys_unlink_inv (p : Fin NPROC) (path : List UInt8) :
    Triple (TableInv · 0) (sys_unlink p path) (fun _ k => TableInv k 0) fun _ => True := by
  unfold sys_unlink
  refine Triple.bind (nameiparent_inv (H := 0) (fun _ => le_rfl) p path) fun r => ?_
  split
  · exact Triple.ret fun _ h => by simpa using h
  rename_i dp name
  refine Triple.bind ((ilock_inv (H := Pi.single dp 1) dp).conseq (fun _ h => h.of_eq (by simp))
    (fun _ _ => id) fun _ => id) fun _ => ?_
  refine Triple.ite (fun _ => ?_) fun _ => ?_
  · refine Triple.bind ((iunlockput_inv dp).conseq (fun _ h => h.1) (fun _ _ => id) fun _ => id) fun _ => ?_
    exact Triple.ret fun _ h => h.of_eq (by simp)
  refine Triple.bind ((dirlookup_inv dp name).conseq (fun _ h => h.1) (fun _ _ => id) fun _ => id) fun r => ?_
  split
  · refine Triple.bind (iunlockput_inv dp) fun _ => Triple.ret fun _ h => h.of_eq (by simp)
  rename_i ip off
  refine Triple.bind ((ilock_inv (H := Pi.single dp 1 + Pi.single ip 1) ip).conseq (fun _ h => h.of_eq (by simp))
    (fun _ _ => id) fun _ => id) fun x => ?_
  refine Triple.ite (fun _ => throw_bind _ _) fun _ => ?_
  dsimp only
  -- `isdirempty` on a directory decides `busy`; the rest is shared
  refine Triple.ite (fun _ => ?_) fun _ => ?_
  · refine Triple.bind (fs_spec (fun _ tx h => ⟨h.1.with_tx tx, h.2⟩) (isdirempty_inum x)) fun res => ?_
    obtain ⟨empty, x'⟩ := res
    dsimp only
    refine Triple.bind ((setIp_inv ip x').conseq (fun _ h => ⟨h.1.1, by rw [h.2, h.1.2]⟩)
      (fun _ _ h => h.1) fun _ => id) fun _ => ?_
    rw [pure_bind]
    exact unlink_finish_inv dp ip off x _
  · rw [pure_bind]
    exact (unlink_finish_inv dp ip off x false).conseq (fun _ h => h.1) (fun _ _ => id) fun _ => id

-- ============================================================== runs

/-- A step that goes on came from a call that returned. -/
theorem result_next {α : Type} {o : Except String (α × Kern)} {k' : Kern} (h : result o = .next k') :
    ∃ a, o = .ok (a, k') := by
  rcases o with _ | ⟨a, k''⟩
  · cases h
  · cases h
    exact ⟨a, rfl⟩

/-- A call that keeps the counts keeps them as a step. -/
theorem call_inv {α : Type} {m : NsM α} (hm : Triple (TableInv · 0) m (fun _ k => TableInv k 0) fun _ => True)
    {p : Fin NPROC} {k' : Kern} (h : TableInv k 0) (hs : call k p m = .next k') : TableInv k' 0 := by
  unfold call at hs
  split at hs
  · obtain ⟨_, hok⟩ := result_next hs
    exact hm.ok h hok
  · cases hs

/-- Every step keeps the counts with nothing held. -/
theorem step_inv {ev : NsEv} {k' : Kern} (h : TableInv k 0) (hs : step k ev = .next k') : TableInv k' 0 := by
  cases ev with
  | link p old new => exact call_inv (sys_link_inv p old new) h hs
  | unlink p path => exact call_inv (sys_unlink_inv p path) h hs
  | mkdir p path => exact call_inv (sys_mkdir_inv p path) h hs
  | mknod p path major minor => exact call_inv (sys_mknod_inv p path major minor) h hs
  | chdir p path => exact call_inv (sys_chdir_inv p path) h hs
  | sysopen p path omode ftok => exact call_inv (sys_open_inv p path omode ftok) h hs
  | close e =>
      -- `fileclose` hands the file's reference to `iput`
      simp only [step] at hs
      split at hs
      · rename_i hpos
        obtain ⟨_, hok⟩ := result_next hs
        exact ((iput_inv e).ok (h.subFref hpos) hok).of_eq (by simp)
      · cases hs
  | fork p c =>
      simp only [step] at hs
      split at hs
      · -- `np->cwd = idup(p->cwd)` into a slot with no `cwd`
        rename_i e hp hc
        obtain ⟨_, hok⟩ := result_next hs
        have hm : Triple (fun k₀ => TableInv k₀ 0 ∧ k₀.cwd = k.cwd)
            (idup e >>= fun _ => modify fun (k : Kern) => { k with cwd := Function.update k.cwd c (some e) })
            (fun _ k => TableInv k 0) fun _ => True :=
          Triple.bind ((both (idup_inv (H := 0) e) (idup_cwd e k.cwd)).conseq
            (fun k₀ h₀ => ⟨⟨h₀.1, h₀.1.pos_of_cwd (h₀.2 ▸ hp) le_rfl⟩, h₀.2⟩) (fun _ _ h => h) fun _ => id)
            fun _ => (modify_spec (P := fun k => TableInv k 0) _).conseq
              (fun k₁ h₁ => (h₁.1.setCwd c (some e)).of_eq (by rw [h₁.2, hc]; simp)) (fun _ _ => id) fun _ => id
        exact hm.ok ⟨h, rfl⟩ hok
      · cases hs
  | exit p =>
      simp only [step] at hs
      split at hs
      · rename_i e hp
        split at hs
        · cases hs
        · -- the `cwd`'s reference goes with the slot
          obtain ⟨_, hok⟩ := result_next hs
          have hm : Triple (fun k₀ => TableInv k₀ 0 ∧ k₀.cwd = k.cwd)
              (iput e >>= fun _ => modify fun (k : Kern) => { k with cwd := Function.update k.cwd p none })
              (fun _ k => TableInv k 0) fun _ => True :=
            Triple.bind (both (iput_inv e) (iput_cwd e k.cwd))
              fun _ => (modify_spec (P := fun k => TableInv k 0) _).conseq
                (fun k₁ h₁ => (h₁.1.setCwd p none).of_eq (by rw [h₁.2, hp]; simp)) (fun _ _ => id) fun _ => id
          exact hm.ok ⟨h, rfl⟩ hok
      · cases hs

/-- `userinit`'s table: the root entry, held by `initproc`'s `cwd`. -/
theorem cwds_boot (e : Fin NINODE) : cwds boot e = if e = rootEntry then 1 else 0 := by
  have hc := Count.card_update (fun _ : Fin NPROC => (none : Option (Fin NINODE))) initSlot (some rootEntry)
    (· = some e)
  have h0 : Count.count (fun _ : Fin NPROC => (none : Option (Fin NINODE))) (· = some e) = 0 :=
    Count.count_eq_zero fun _ h => by cases h
  unfold cwds
  show Count.count (Function.update _ initSlot _) _ = _
  by_cases he : e = rootEntry
  · subst he
    simp only [h0] at hc ⊢
    simpa using hc
  · have hne : ¬(some rootEntry = some e) := fun h => he (Option.some_injective _ h).symm
    simp only [h0, if_neg hne, if_neg he] at hc ⊢
    simpa using hc

theorem boot_inv : TableInv boot 0 where
  ref_eq e := by
    rw [cwds_boot]
    by_cases he : e = rootEntry
    · subst he
      simp [boot]
    · simp [boot, he]
  inum_unique e e' he he' _ := by
    -- only the root entry has a reference
    have hroot : ∀ e, 0 < (boot.inode e).ref → e = rootEntry := fun e h => by
      by_contra hne
      simp [boot, hne] at h
    exact (hroot e he).trans (hroot e' he').symm

/-- Every state the calls reach keeps the counts with nothing held. -/
theorem table_reach {k : Kern} (h : Relation.ReflTransGen Step boot k) : TableInv k 0 := by
  induction h with
  | refl => exact boot_inv
  | tail _ hs ih =>
      obtain ⟨ev, hev⟩ := hs
      exact step_inv ih hev

end Ns

end Xv6
