/-
What every call gives back on every exit.

- `call_balance`: the reference counts are right, the same inodes are locked as before, and `begin_op` and `end_op` have
  been called equally often.
- `calls_consistent`: what holds of blocks, inodes, locks and transactions after any number of calls.
-/
import Xv6.Fs.Runs

namespace Xv6.Fs

open Xv6.Core

variable {sb : Superblock} {s t : St} {p : ℕ} {c : Call}

/-- the calls that look up paths or drop inodes -/
def Call.names : Call → Bool
  | .openPath _ _ | .mkdir _ | .mknod _ _ _ | .link _ _ | .symlink _ _ | .unlink _ | .chdir _ | .exec _ _ | .close _ |
    .exit => true
  | .read _ _ _ _ | .write _ _ _ _ | .fstat _ _ _ | .dup _ | .fork _ => false

/-- the locks and the transactions, in any state -/
theorem Call.kept (hc : c.names = true) : Within Kept (c.run sb p) := by
  cases c with
  | openPath path omode => exact (kept_sysOpen p path omode).bind fun _ => .pure _
  | mkdir path => exact (kept_sysCreate p path T_DIR 0 0).bind fun _ => .pure _
  | mknod path major minor => exact (kept_sysCreate p path T_DEVICE major minor).bind fun _ => .pure _
  | link old new => exact (kept_sysLink p old new).bind fun _ => .pure _
  | symlink target path => exact (kept_sysSymlink p target path).bind fun _ => .pure _
  | unlink path => exact (kept_sysUnlink p path).bind fun _ => .pure _
  | chdir path => exact (kept_sysChdir p path).bind fun _ => .pure _
  | exec path mem => exact (kept_kexec p path mem).bind fun _ => .pure _
  | close fd => exact (kept_sysClose p fd).bind fun _ => .pure _
  | exit => exact kept_exit p
  | read | write | fstat | dup | fork => cases hc

/-! ## Files and processes -/

theorem kept_argfd (p fd : ℕ) : Within Kept (argfd p fd) := fun s => Spec.bind_ok rfl (Spec.pure (Kept.refl s))

theorem kept_fileread (f : ℕ) (writable : ℕ → Bool) (addr n : ℕ) : Within Kept (fileread sb f writable addr n) := by
  intro s
  unfold fileread
  refine Spec.bind_ok rfl (Spec.ite (fun _ => Spec.pure (Kept.refl s)) fun _ => ?_)
  split
  · exact Spec.pure (Kept.refl s)
  · refine Spec.bind bal_ilock fun _ t ht => Spec.bind (within_readi (ρ := Kept) _ _ _ t) fun r u hu =>
      Spec.bind_ok rfl ?_
    exact Spec.bind bal_iunlock fun _ v hv => Spec.pure (((ht.then hu).then (kept_files u _ u.proc)).unlocked hv)
  · exact Spec.throw trivial

theorem kept_filewriteLoop (f : ℕ) (mem : UserMem) (addr n fuel i : ℕ) :
    Within Kept (filewriteLoop sb f mem addr n fuel i) := by
  induction fuel generalizing i with
  | zero => exact .pure _
  | succ fuel ih =>
    unfold filewriteLoop
    refine .ite (fun s => Spec.bind_ok rfl (Ends.begin (fun s => ?_) s)) (.pure _)
    refine Spec.bind bal_ilock fun _ t ht => Spec.bind (kept_writei _ _ _ t) fun r u hu => Spec.bind_ok rfl ?_
    refine Spec.bind bal_iunlock fun _ v hv => ?_
    refine Ends.resume (((ht.then hu).then (kept_files u _ u.proc)).unlocked hv) fun w => Spec.bind_ok rfl ?_
    refine Spec.ite (fun _ => Spec.post (ih _ _) fun _ x hx => (bal_endOp w).then hx) fun _ => Spec.pure (bal_endOp w)

theorem kept_filewrite (f : ℕ) (mem : UserMem) (addr n : ℕ) : Within Kept (filewrite sb f mem addr n) := by
  intro s
  unfold filewrite
  refine Spec.bind_ok rfl (Spec.ite (fun _ => Spec.pure (Kept.refl s)) fun _ => ?_)
  split
  · exact Spec.pure (Kept.refl s)
  · exact ((kept_filewriteLoop f mem addr n n 0).bind fun _ => .pure _) s
  · exact Spec.throw trivial

theorem kept_filestat (f : ℕ) (writable : ℕ → Bool) (addr : ℕ) : Within Kept (filestat sb f writable addr) := by
  intro s
  unfold filestat
  refine Spec.bind_ok rfl (Spec.ite (fun _ => ?_) fun _ => Spec.pure (Kept.refl s))
  refine Spec.bind bal_ilock fun _ t ht => Spec.bind_ok rfl ?_
  exact Spec.bind bal_iunlock fun _ u hu => Spec.pure (ht.unlocked hu)

theorem kept_filedup (f : ℕ) : Within Kept (filedup f) := by
  intro s
  unfold filedup
  exact Spec.bind_ok rfl (Spec.ite (fun _ => Spec.throw trivial) fun _ => Spec.of_ok rfl (kept_files s _ s.proc))

theorem kept_sysDup (p fd : ℕ) : Within Kept (sysDup p fd) := by
  refine (kept_argfd p fd).bind fun r => ?_
  cases r with
  | none => exact .pure _
  | some f =>
    refine (kept_fdalloc p f).bind fun r => ?_
    cases r with
    | none => exact .pure _
    | some fd => exact (kept_filedup f).bind fun _ => .pure _

theorem kept_forkFiles (p n fd : ℕ) : Within Kept (forkFiles p n fd) := by
  induction n generalizing fd with
  | zero => exact .pure _
  | succ n ih =>
    intro s
    unfold forkFiles
    refine Spec.bind_ok rfl ?_
    split
    · exact ih _ s
    · exact ((kept_filedup _).bind fun _ => ih _) s

theorem kept_fork (p q : ℕ) : Within Kept (fork p q) :=
  (kept_forkFiles p NOFILE 0).bind fun _ s => Spec.bind_ok rfl (Spec.bind (within_idup (ρ := Kept) s) fun _ t ht =>
    Spec.of_ok rfl (ht.trans (kept_files t t.file _)))

/-- every call gives back the locks that it takes -/
theorem Call.locks_kept (c : Call) (p : ℕ) : Within Kept (c.run sb p) := by
  have hfd : ∀ {β : Type} (fd : ℕ) {k : Option ℕ → FsM β}, Within Kept (k none) → (∀ f, Within Kept (k (some f))) →
      Within Kept (argfd p fd >>= k) := fun fd k h0 h1 => (kept_argfd p fd).bind fun r => by
    cases r with
    | none => exact h0
    | some f => exact h1 f
  by_cases hc : c.names = true
  · exact Call.kept hc
  cases c with
  | read fd writable addr n =>
    exact Within.bind (hfd fd (.pure _) fun f => kept_fileread f writable addr n) fun _ => .pure _
  | write fd mem addr n => exact Within.bind (hfd fd (.pure _) fun f => kept_filewrite f mem addr n) fun _ => .pure _
  | fstat fd writable addr =>
    exact Within.bind (hfd fd (.pure _) fun f => kept_filestat f writable addr) fun _ => .pure _
  | dup fd => exact (kept_sysDup p fd).bind fun _ => .pure _
  | fork child => exact kept_fork p child
  | _ => exact absurd rfl hc

/-- no entry of the inode table is locked -/
def St.Unlocked (s : St) : Prop := ∀ k, k < NINODE → s.locks k = false

instance (s : St) : Decidable s.Unlocked := by unfold St.Unlocked; infer_instance

theorem St.Unlocked.congr (h : s.Unlocked) (ht : t.locks = s.locks) : t.Unlocked := fun k hk => by rw [ht]; exact h k hk

/-- between calls no inode is locked -/
theorem reach_unlocked (hr : (calls sb).Reach s t) (h : s.Unlocked) : t.Unlocked :=
  hr.inv St.Unlocked h fun s a t hs _ ht => by
    have hk : Kept s t := calls_ok (Q := Kept s) (E := fun _ => True) (a.2.locks_kept a.1 s) ht
    exact hs.congr hk.locks

/-! ## References -/

/-- the references, in a well-formed state in which they are those of the processes and open files -/
theorem Call.acct (hl : Layout sb) (h : WF sb s) (ha : Acct s) (hp : (s.proc p).cwd ≠ none) (hc : c.names = true) :
    Spec (c.run sb p) s (fun _ t => Acct t) fun _ => True := by
  have hcwd := ha.has_cwd h hp
  have hdrop : ∀ {α : Type} {m : FsM α} {ok : Change → Prop}, Spec m s (fun _ t => Step sb ok s t) (Fault True) →
      Spec m s (fun _ t => Acct t) fun _ => True := fun hm => hm.mono (fun _ _ ht => ht.acct) fun _ _ => trivial
  have htrue : ¬ Safe sb s → True := fun _ => trivial
  cases c with
  | chdir path =>
    cases path with
    | none => exact Spec.bind_ok rfl (Spec.pure (ha.to ((to_event s .beginOp).trans (to_event _ .endOp))))
    | some path => exact Spec.bind (hdrop (sysChdir_spec hl h ha hcwd htrue)) fun _ _ ht => Spec.pure ht
  | exec path mem => exact Spec.bind (hdrop (kexec_spec hl h ha hcwd htrue mem)) fun _ _ ht => Spec.pure ht
  | close fd => exact Spec.bind (hdrop (sysClose_spec hl h ha p fd)) fun _ _ ht => Spec.pure ht
  | exit => exact hdrop (exit_spec hl h ha hcwd)
  | read | write | fstat | dup | fork => cases hc
  | _ => exact (links_spec hl h ha hcwd htrue rfl).mono (fun _ _ ht => ht.acct) fun _ _ => trivial

/-- **References, locks and transactions balance** on every exit of every call, in every well-formed state. -/
theorem call_balance (hl : Layout sb) (h : WF sb s) (ha : Acct s) (hp : (s.proc p).cwd ≠ none) (hc : c.names = true)
    (hrun : c.run sb p s = .ok ((), t)) :
    (∀ k, (t.inode k).ref = ∑ q ∈ Finset.range NPROC, (if (t.proc q).cwd = some k then 1 else 0) +
      ∑ f ∈ Finset.range NFILE, if 0 < (t.file f).ref ∧ (t.file f).type ≠ .none ∧ (t.file f).ip = k then 1 else 0) ∧
    (∀ k, (t.inode k).locked = (s.inode k).locked) ∧ depth t.trace = depth s.trace := by
  have hacct : Acct t := (Call.acct hl h ha hp hc).ok hrun
  have hkept : Kept s t := (Call.kept hc s).ok hrun
  refine ⟨hacct.refs, fun k => congrFun hkept.locks k, ?_⟩
  rw [hkept.depth, add_zero]

/-- process 0 creates a file -/
theorem call_balance_open : ∃ t, (Call.openPath (some [97]) (2 ^ O_CREATE)).run Ownership.tiny 0 boot = .ok ((), t) ∧
    (∀ k, (t.inode k).locked = (boot.inode k).locked) ∧ depth t.trace = depth boot.trace := by
  have hok : ((Call.openPath (some [97]) (2 ^ O_CREATE)).run Ownership.tiny 0 boot).toBool = true := by decide +kernel
  cases hrun : (Call.openPath (some [97]) (2 ^ O_CREATE)).run Ownership.tiny 0 boot with
  | error e => rw [hrun] at hok; cases hok
  | ok r =>
    refine ⟨r.2, rfl, (call_balance Ownership.tiny_layout boot_wf boot_idle.acct (p := 0) ?_ rfl hrun).2⟩
    show (some 0 : Option ℕ) ≠ none
    nofun

/-- **The file system stays consistent.** After any calls of any processes, whatever fails in them: a data block is
marked in the free map iff exactly one slot holds it, an inode has one entry in the table, which agrees with the disk,
its reference count is the number of its users, none is locked, and every transaction has ended. -/
theorem calls_consistent (hl : Layout sb) (h : Idle sb s) (hu : s.Unlocked)
    (hr : ((calls sb).restrict fun s a => a.2.wraps sb s a.1 = false).Reach s t) :
    (∀ b, IsData sb b → (bitAt sb t.blk b = true ↔ ∃! x, slot sb t.blk (dino sb t.blk) x = b)) ∧
    (∀ k l i, Ptr t k i → Ptr t l i → k = l) ∧
    (∀ k i, Ptr t k i → (t.inode k).valid = true → (t.inode k).din = dino sb t.blk i) ∧
    (∀ k, t.refs k = t.procUses k + t.fileUses k) ∧ t.Unlocked ∧ depth t.trace = depth s.trace := by
  have ht := h.reach hl hr
  refine ⟨fun b hb => ht.wf.good.own.existsUnique hb hb.ne_zero, ht.wf.unique, fun k i hk hv =>
    (ht.wf.coherent k i hk hv).1, ht.acct.refs, reach_unlocked hr.of_restrict hu, ?_⟩
  refine hr.inv (fun t => depth t.trace = depth s.trace) rfl fun u a v hd _ hv => ?_
  have hk : Kept u v := calls_ok (Q := Kept u) (E := fun _ => True) (a.2.locks_kept a.1 u) hv
  rw [hk.depth, add_zero, hd]

/-- process 0 creates a file -/
theorem calls_consistent_open : ∃ t, (calls Ownership.tiny).Reach boot t ∧ t.Unlocked := by
  obtain ⟨t, hr, -⟩ := Machine.exists_reach_of_steps (M := (calls Ownership.tiny).restrict fun s a =>
    a.2.wraps Ownership.tiny s a.1 = false) (s := boot) (l := [(0, .openPath (some [97]) (2 ^ O_CREATE))])
    (p := fun _ => true) (by decide +kernel)
  exact ⟨t, hr.of_restrict, (calls_consistent Ownership.tiny_layout boot_idle (by decide +kernel) hr).2.2.2.2.1⟩

end Xv6.Fs
