/-
Reading never allocates.

`bmap` allocates a block where none is mapped, for `readi` as for `writei`, and `fileread` runs outside any transaction.
In every state of a run all blocks below the size of every inode are mapped, so `readi` only reads.

- `readi_reads`: `readi` reads and releases blocks, and nothing else changes (`Reads`).
- `reads_never_allocate`: so it is along every run, with any failures.
-/
import Xv6.Fs.Calls
import Xv6.Fs.Ownership

namespace Xv6.Fs

open Xv6.Core

variable {sb : Superblock} {s t u : St} {ip i : ℕ} {n : Node} {E : Panic → Prop}

/-! ## `fileread` -/

/-- the panics of `ilock` on an inode in use, and that of `fileread` on a file that is not open -/
def ReadPanic (e : Panic) : Prop := e = .deadlock ∨ e = .ilockNoType ∨ e = .fileread

theorem looks_ilock (hr : 0 < (s.inode ip).ref) :
    Spec (ilock sb ip) s (fun _ t => Looks s t ∧ (t.inode ip).locked = true) ReadPanic := by
  unfold ilock
  refine Spec.bind_ok rfl (Spec.ite (fun h => absurd h (by omega)) fun _ => ?_)
  refine Spec.ite (fun _ => Spec.throw (Or.inl rfl)) fun _ => Spec.ite (fun _ => Spec.of_ok rfl ?_) fun _ => ?_
  · exact ⟨Looks.tables s _ _ _, by simp [Store.set]⟩
  · refine Spec.bind_ok rfl (Spec.bind_ok rfl (Spec.bind_ok rfl ?_))
    refine Spec.ite (fun _ => Spec.throw (Or.inr (Or.inl rfl))) fun _ => Spec.pure ⟨?_, by simp [Store.set]⟩
    exact (Reads.block s _).looks.trans (Looks.tables _ _ _ _)

/-- `fileread` writes no block; it can only fail when it locks the inode, before it reads -/
theorem fileread_looks (h : WF sb s) {f : ℕ} (hf : (s.file f).type = .inode → Ownership.Used s (s.file f).ip)
    (writable : ℕ → Bool) (addr len : ℕ) :
    Spec (fileread sb f writable addr len) s (fun _ t => Looks s t) ReadPanic := by
  have hrefl : Looks s s := (Reads.refl s).looks
  unfold fileread
  refine Spec.bind_ok rfl (Spec.ite (fun _ => Spec.pure hrefl) fun _ => ?_)
  cases hty : (s.file f).type with
  | device => exact Spec.pure hrefl
  | none => exact Spec.throw (Or.inr (Or.inr rfl))
  | inode =>
    have hptr := (hf hty).ptr
    refine Spec.bind ((looks_ilock hptr.2.1).and (ilock_spec (P := True) h hptr fun _ => trivial)) ?_
    rintro _ t ⟨⟨ht, hlock⟩, hload⟩
    have hlive : Live sb t (s.file f).ip _ _ := ⟨hload.ptr, hload.valid, hload.quiet.wf.node_ptr hload.ptr hload.valid⟩
    refine Spec.bind (readi_reads hload.quiet.wf hlive _ _ _) fun r u hu => Spec.bind_ok rfl ?_
    have hgo : ¬ ((u.inode (s.file f).ip).locked = false ∨ (u.inode (s.file f).ip).ref < 1) := by
      rw [hu.to.inode, hlock]
      have := hload.ptr.2.1
      simpa [St.refs, Nat.pos_iff_ne_zero] using this
    refine Spec.bind (R := fun _ w => Looks s w) (Spec.bind_ok rfl ?_) fun _ w hw => Spec.pure hw
    rw [if_neg hgo]
    exact Spec.of_ok rfl (ht.trans (hu.looks.trans (Looks.tables u _ _ _)))

/-! ## Runs -/

namespace Reading

/-- the functions of kernel/fs.c on inodes, and `sys_unlink` -/
inductive Act where
  | fs (a : Ownership.Act)
  | unlink (p : ℕ) (path : List UInt8)

def call (sb : Superblock) : Act → FsM Unit
  | .fs a => Ownership.call sb a
  | .unlink p path => do let _ ← sysUnlink sb p (some path)

def legal (sb : Superblock) (s : St) : Act → Prop
  | .fs a => Ownership.legal sb s a
  | .unlink p _ => (s.proc p).cwd.any fun k => Ownership.Used s k

instance (sb : Superblock) (s : St) (a : Act) : Decidable (legal sb s a) := by
  cases a <;> unfold legal <;> infer_instance

def machine (sb : Superblock) : Machine St Act Panic where
  legal := legal sb
  step s a := (call sb a s).map Prod.snd

instance (sb : Superblock) (s : St) (a : Act) : Decidable ((machine sb).legal s a) := by
  unfold machine; infer_instance

theorem call_wf (hl : Layout sb) (h : WF sb s) {a : Act} (ha : legal sb s a) :
    Spec (call sb a) s (fun _ t => WF sb t) (Fault True) := by
  cases a with
  | fs a => exact Ownership.call_spec hl h ha
  | unlink p path =>
    obtain ⟨k, hk, hu⟩ := (Option.any_eq_true _ _).1 ha
    have hcwd : Cwd s p := ⟨k, _, hk, (of_decide_eq_true hu).ptr⟩
    exact Spec.bind (sysUnlink_spec hl h hcwd (fun _ => trivial) path) fun _ t ht => Spec.pure ht.wf

theorem step_wf (hl : Layout sb) (h : WF sb s) {a : Act} (ha : legal sb s a) (hs : (machine sb).step s a = .ok t) :
    WF sb t := by
  cases hc : call sb a s with
  | error e => simp [machine, hc, Except.map] at hs
  | ok r =>
    simp only [machine, hc, Except.map, Except.ok.injEq] at hs
    subst hs
    exact (call_wf hl h ha).ok hc

/-- **Reading never allocates.** From every well-formed state, along every run: every block below the size of every
inode in use is mapped; `readi` on every loaded inode returns and only reads; and `fileread` returns without having
written to the log, or has failed to lock the inode. -/
theorem reads_never_allocate (hl : Layout sb) (h : WF sb s) (as : List Act) (hlegal : (machine sb).LegalRun s as) :
    ∀ t, (machine sb).run s as = .ok t →
      (∀ i, i < sb.ninodes → (dino sb t.blk i).type ≠ 0 → Mapped t.blk (dino sb t.blk i)) ∧
      (∀ ip, Ownership.Ready t ip → ∀ dst off n, ∃ r u, readi sb ip dst off n t = .ok (r, u) ∧ Reads t u) ∧
      ∀ f, ((t.file f).type = .inode → Ownership.Used t (t.file f).ip) → ∀ writable addr n,
        Spec (fileread sb f writable addr n) t (fun _ u => Looks t u) ReadPanic := by
  intro t hr
  have hreach : (machine sb).Reach s t := ⟨as, hlegal, hr⟩
  have hwf := hreach.inv (WF sb) h fun _ _ _ h ha hs => step_wf hl h ha hs
  refine ⟨hwf.good.mapped, fun ip hip dst off n => ?_, fun f hf writable addr n => fileread_looks hwf hf
    writable addr n⟩
  have hspec := readi_reads (E := fun _ => False) hwf (hip.live hwf) dst off n
  cases hc : readi sb ip dst off n t with
  | error e => exact (hspec.error hc).elim
  | ok r => exact ⟨r.1, r.2, rfl, hspec.ok hc⟩

/-- a file is created, written, dropped and removed -/
def sample : List Act := Ownership.sample.map .fs ++ [.unlink 0 [SLASH, 97]]

theorem reads_never_allocate_sample : ∃ t, (machine Ownership.tiny).run Ownership.bare sample = .ok t ∧
    ∃ r u, readi Ownership.tiny 0 .kernel 0 100 t = .ok (r, u) ∧ Reads t u := by
  obtain ⟨t, hlegal, hr, ht⟩ := Machine.exists_run_of_steps (M := machine Ownership.tiny) (s := Ownership.bare)
    (l := sample)
    (p := fun t => decide (Ownership.Ready t 0)) (by decide +kernel)
  have hall := reads_never_allocate Ownership.tiny_layout Ownership.bare_wf sample hlegal t hr
  exact ⟨t, hr, hall.2.1 0 (of_decide_eq_true ht) .kernel 0 100⟩

end Reading

end Xv6.Fs
