/-
Block ownership over whole runs (kernel/fs.c).

The machine's actions are the calls that take, use and drop inodes. A caller may use an inode to which there is a
reference, and its content once it is loaded; it writes to directories entry by entry. Any copy from user memory and any
allocation may fail.

- `step_wf`, `step_error`: every action keeps `WF`, and none ends in `bfree: freeing free block`.
- `block_ownership`: so free map and slots agree in every state of every run.
-/
import Xv6.Core.Machine
import Xv6.Fs.Create

namespace Xv6.Fs

open Xv6.Core

namespace Ownership

inductive Act where
  | iget (inum : ℕ)
  | idup (ip : ℕ)
  | ilock (ip : ℕ)
  | iunlock (ip : ℕ)
  | iput (ip : ℕ)
  | ialloc (type : UInt16)
  | writei (ip : ℕ) (src : Src) (off n : ℕ)
  /-- `writei` of entry k of a directory, as `sys_unlink` does -/
  | writeEntry (dp k : ℕ) (e : Dirent)
  | itrunc (ip : ℕ)
  | dirlink (dp : ℕ) (name : List UInt8) (inum : ℕ)
  | create (p : ℕ) (path : List UInt8) (type major minor : UInt16)

def call (sb : Superblock) : Act → FsM Unit
  | .iget inum => do let _ ← Fs.iget inum
  | .idup ip => do let _ ← Fs.idup ip
  | .ilock ip => Fs.ilock sb ip
  | .iunlock ip => Fs.iunlock ip
  | .iput ip => Fs.iput sb ip
  | .ialloc type => do let _ ← Fs.ialloc sb type
  | .writei ip src off n => do let _ ← Fs.writei sb ip src off n
  | .writeEntry dp k e => do let _ ← Fs.writei sb dp (.kernel e.bytes) (k * DESIZE) DESIZE
  | .itrunc ip => Fs.itrunc sb ip
  | .dirlink dp name inum => do let _ ← Fs.dirlink sb dp name inum
  | .create p path type major minor => do let _ ← Fs.create sb p path type major minor

/-- there is a reference to entry ip of the inode table -/
def Used (s : St) (ip : ℕ) : Prop := ip < NINODE ∧ 0 < s.refs ip

/-- and the inode has been read from disk -/
def Ready (s : St) (ip : ℕ) : Prop := Used s ip ∧ (s.inode ip).valid = true

instance (s : St) (ip : ℕ) : Decidable (Used s ip) := by unfold Used; infer_instance
instance (s : St) (ip : ℕ) : Decidable (Ready s ip) := by unfold Ready; infer_instance

/-- the kernel buffer that is written from is as long as the write -/
def Src.holds (n : ℕ) : Src → Bool
  | .kernel bytes => n ≤ bytes.length
  | .user _ _ => true

def legal (sb : Superblock) (s : St) : Act → Prop
  | .iget inum => inum < sb.ninodes
  | .idup ip => Used s ip
  | .ilock ip => Used s ip
  | .iunlock ip => Ready s ip
  | .iput ip => Used s ip
  | .ialloc type => type ≠ 0
  | .writei ip src _ n => Ready s ip ∧ (s.inode ip).din.type ≠ T_DIR ∧ Src.holds n src = true
  | .writeEntry dp k e => Ready s dp ∧ (s.inode dp).din.type = T_DIR ∧ k ≤ (s.inode dp).din.size.toNat / DESIZE ∧
      e.name.length = DIRSIZ ∧ e.inum < sb.ninodes
  | .itrunc ip => Ready s ip
  | .dirlink dp _ inum => Ready s dp ∧ (s.inode dp).din.type = T_DIR ∧ inum < sb.ninodes
  | .create p _ type _ _ => type ≠ 0 ∧ (s.proc p).cwd.any fun k => Used s k

instance (sb : Superblock) (s : St) (a : Act) : Decidable (legal sb s a) := by
  cases a <;> unfold legal <;> infer_instance

def machine (sb : Superblock) : Machine St Act Panic where
  legal := legal sb
  step s a := (call sb a s).map Prod.snd

instance (sb : Superblock) (s : St) (a : Act) : Decidable ((machine sb).legal s a) := by
  unfold machine; infer_instance

/-! ## Steps -/

variable {sb : Superblock} {s t : St} {ip : ℕ} {a : Act}

theorem Used.ptr (h : Used s ip) : Ptr s ip (s.inode ip).inum := ⟨h.1, h.2, rfl⟩

theorem Ready.live (hr : Ready s ip) (h : WF sb s) :
    Live sb s ip (s.inode ip).inum ((s.inode ip).din.node s.blk) :=
  ⟨hr.1.ptr, hr.2, h.node_ptr hr.1.ptr hr.2⟩

theorem Used.refs (h : Used s ip) : s.refs = Function.update s.refs ip (s.refs ip - 1) + Pi.single ip 1 := by
  funext k
  by_cases hk : k = ip
  · subst hk
    have := h.2
    rw [Pi.add_apply, Function.update_self, Pi.single_eq_same]; omega
  · rw [Pi.add_apply, Function.update_of_ne hk, Pi.single_eq_of_ne hk, Nat.add_zero]

theorem has_of_holds {src : Src} {n : ℕ} (h : Src.holds n src = true) : src.Has n := by
  rintro bytes rfl
  simpa [Src.holds] using h

theorem call_spec (hl : Layout sb) (h : WF sb s) (ha : legal sb s a) :
    Spec (call sb a) s (fun _ t => WF sb t) (Fault True) := by
  cases a with
  | iget inum => exact Spec.bind (iget_spec h ha) fun _ t ht => Spec.pure ht.quiet.wf
  | idup ip => exact Spec.bind (idup_spec h ha.ptr) fun _ t ht => Spec.pure ht.2.quiet.wf
  | ilock ip => exact Spec.post (ilock_spec h ha.ptr fun _ => trivial) fun _ t ht => ht.quiet.wf
  | iunlock ip => exact Spec.post (iunlock_spec h ha.1.ptr ha.2) fun _ t ht => ht.quiet.wf
  | iput ip => exact Spec.post (iput_spec hl h ha.ptr ha.refs) fun _ t ht => ht.quiet.wf
  | ialloc type =>
    refine Spec.bind (ialloc_spec hl h ha) ?_
    rintro (_ | ip) t ht
    · exact Spec.pure (h.congr ht)
    · obtain ⟨-, -, -, -, hwf, -⟩ := ht
      exact Spec.pure hwf
  | writei ip src off n =>
    obtain ⟨hr, hty, hsrc⟩ := ha
    refine Spec.bind (writei_puts hl h (hr.live h) (has_of_holds hsrc) fun hdir => absurd hdir hty) ?_
    rintro r t (⟨-, -, ht⟩ | ⟨m, w, -, -, ht⟩)
    · exact Spec.pure (h.congr ht)
    · exact Spec.pure ht.wf
  | writeEntry dp k e =>
    obtain ⟨hr, hty, hk, he, hin⟩ := ha
    have hlive := hr.live h
    refine Spec.bind (write_entry hl h hlive hty (by rwa [← (hlive.din h).2.2]) he hin) ?_
    rintro r t (⟨-, hq, -⟩ | ⟨-, hp⟩)
    · exact Spec.pure hq.wf
    · exact Spec.pure hp.wf
  | itrunc ip => exact Spec.post (itrunc_puts hl h ha.1.ptr ha.2) fun _ t ht => ht.1.wf
  | dirlink dp name inum =>
    obtain ⟨hr, hty, hin⟩ := ha
    refine Spec.bind (dirlink_spec hl h (hr.live h) hty hin) ?_
    rintro (_ | _) t ht
    · exact Spec.pure ht.1.wf
    · obtain ⟨_, -, -, -, -, hp⟩ := ht
      exact Spec.pure hp.wf
  | create p path type major minor =>
    obtain ⟨hty, hcwd⟩ := ha
    have hcwd' : ∃ k i, (s.proc p).cwd = some k ∧ Ptr s k i := by
      cases hc : (s.proc p).cwd with
      | none => rw [hc] at hcwd; cases hcwd
      | some k =>
        rw [hc] at hcwd
        exact ⟨k, _, rfl, Used.ptr (by simpa using hcwd)⟩
    exact Spec.bind (create_spec hl h hcwd' (fun _ => trivial) hty) fun _ t ht => Spec.pure ht.1

theorem step_wf (hl : Layout sb) (h : WF sb s) (ha : legal sb s a) (hs : (machine sb).step s a = .ok t) :
    WF sb t := by
  have hspec := call_spec hl h ha
  cases hc : call sb a s with
  | error e => simp [machine, hc, Except.map] at hs
  | ok r =>
    simp only [machine, hc, Except.map, Except.ok.injEq] at hs
    subst hs
    exact hspec.ok hc

theorem step_error (hl : Layout sb) (h : WF sb s) (ha : legal sb s a) {e : Panic}
    (hs : (machine sb).step s a = .error e) : e ≠ .freeingFree := by
  have hspec := call_spec hl h ha
  cases hc : call sb a s with
  | error e' =>
    simp only [machine, hc, Except.map, Except.error.injEq] at hs
    subst hs
    exact (hspec.error hc).1
  | ok r => simp [machine, hc, Except.map] at hs

/-! ## Runs -/

/-- **Block ownership.** From every well-formed state, along every run: the free map marks exactly the data blocks that
one slot holds, no block is held twice, every block below a size is mapped, `bfree` never finds a free block, and
`balloc` returns only blocks that no slot holds. -/
theorem block_ownership (hl : Layout sb) (h : WF sb s) (as : List Act) (hlegal : (machine sb).LegalRun s as) :
    (machine sb).run s as ≠ .error .freeingFree ∧ ∀ t, (machine sb).run s as = .ok t →
      (∀ b, IsData sb b → (bitAt sb t.blk b = true ↔ ∃! x, slot sb t.blk (dino sb t.blk) x = b)) ∧
      (∀ x y, slot sb t.blk (dino sb t.blk) x = slot sb t.blk (dino sb t.blk) y →
        slot sb t.blk (dino sb t.blk) x ≠ 0 → x = y) ∧
      (∀ i, i < sb.ninodes → (dino sb t.blk i).type ≠ 0 → Mapped t.blk (dino sb t.blk i)) ∧
      ∀ b u, balloc sb t = .ok (b, u) → b ≠ 0 → IsData sb b ∧ ∀ x, slot sb t.blk (dino sb t.blk) x ≠ b := by
  refine ⟨fun hr => ?_, fun t hr => ?_⟩
  · obtain ⟨-, a, -, t, -, -, hreach, ha, he⟩ := Machine.run_error_split hlegal hr
    exact step_error hl (hreach.inv (WF sb) h fun _ _ _ h ha hs => step_wf hl h ha hs) ha he rfl
  have hreach : (machine sb).Reach s t := ⟨as, hlegal, hr⟩
  have hgood := (hreach.inv (WF sb) h fun _ _ _ h ha hs => step_wf hl h ha hs).good
  refine ⟨fun b hb => hgood.own.existsUnique hb hb.ne_zero, hgood.own.inj, hgood.mapped, fun b u hb h0 => ?_⟩
  rcases (balloc_spec (E := fun _ => True) hgood.reserved).ok hb with ⟨rfl, -⟩ | ⟨hdata, hfree, -⟩
  · exact absurd rfl h0
  · exact ⟨hdata, hgood.own.fresh h0 hfree⟩

/-! ## A small disk -/

/-- a disk whose inodes in use have no content, and an inode table without references -/
theorem wf_of_bare (hl : Layout sb) (hbit : ∀ b, b < sb.size → bitAt sb s.blk b = decide (b < dataStart sb))
    (hino : ∀ i, i < sb.ninodes → (dino sb s.blk i).type ≠ 0 → ∃ d : Dinode, dino sb s.blk i = d.truncated)
    (hrefs : ∀ k, s.refs k = 0) : WF sb s := by
  have hslot : ∀ x, slot sb s.blk (dino sb s.blk) x = 0 := by
    rintro ⟨i, k⟩
    unfold slot
    split_ifs with hi
    · obtain ⟨d, hd⟩ := hino i hi.1 hi.2
      rw [hd]; exact slotOf_truncated _ _ _
    · rfl
  have hptr : ∀ k i, ¬ Ptr s k i := fun k i hp => absurd hp.2.1 (by rw [hrefs k]; exact lt_irrefl 0)
  refine ⟨⟨⟨fun x hx => absurd (hslot x) hx, fun x _ _ hx => absurd (hslot x) hx, fun b hb h0 => ?_⟩, fun b hb => ?_,
    fun i hi ht k hk => ?_, fun i hi ht => ?_⟩, fun k hk => ?_, fun k _ i hk => absurd hk (hptr k i),
    fun k i hk => absurd hk (hptr k i), fun k i hk => absurd hk (hptr k i), fun i n hn _ => ?_⟩
  · rw [hbit b hb.2, decide_eq_true_iff]
    refine ⟨fun hlt => absurd hb.1 (by omega), ?_⟩
    rintro ⟨x, hx⟩
    rw [hslot x] at hx
    exact absurd hx.symm h0
  · rw [hbit b (lt_of_lt_of_le hb hl.data)]
    exact decide_eq_true hb
  · obtain ⟨d, hd⟩ := hino i hi ht
    rw [hd] at hk
    exact absurd hk (Nat.not_lt_zero _)
  · obtain ⟨d, hd⟩ := hino i hi ht
    rw [hd]; exact Nat.zero_le _
  · rw [hrefs k] at hk
    exact absurd hk (lt_irrefl 0)
  · unfold St.node node at hn
    split_ifs at hn with hi
    cases hn
    obtain ⟨d, hd⟩ := hino i hi.1 hi.2
    rw [hd, Dinode.node, content_truncated]
    exact dirOK_nil sb

/-- 64 blocks: boot block, superblock, log, 16 inodes, free map, 28 data blocks -/
def tiny : Superblock :=
  { size := 64, nblocks := 28, ninodes := 16, nlog := 31, logstart := 2, inodestart := 33, bmapstart := 35 }

/-- the root inode is in use and has no content; nothing has been looked up -/
def bare : St where
  blk := setDino tiny (Store.set (fun _ => zeroBlock) 35 fun j => if j.val < 4 then 0xff else if j.val =
    4 then 0x0f else 0)
    ROOTINO { Dinode.zero with type := T_DIR, nlink := 1 }
  inode _ := ⟨0, 0, false, false, Dinode.zero⟩
  file _ := ⟨.none, 0, false, false, 0, 0, 0⟩
  proc p := ⟨if p = 0 then some 0 else none, fun _ => none⟩
  trace := []

theorem tiny_layout : Layout tiny := by constructor <;> decide

theorem bare_empty {i : ℕ} (hi : i < 16) (ht : (dino tiny bare.blk i).type ≠ 0) :
    ∃ d : Dinode, dino tiny bare.blk i = d.truncated := by
  by_cases h1 : i = ROOTINO
  · subst h1
    exact ⟨{ Dinode.zero with type := T_DIR, nlink := 1 }, by unfold bare; rw [dino_setDino, if_pos rfl]; rfl⟩
  · have hfree : ∀ i, i < 16 → i ≠ ROOTINO → (dino tiny bare.blk i).type = 0 := by decide +kernel
    exact absurd (hfree i hi h1) ht

theorem bare_wf : WF tiny bare := wf_of_bare tiny_layout (by decide +kernel) (fun _ => bare_empty) fun _ => rfl

/-- the root directory gets its two entries and a file, which is written, dropped and removed -/
def sample : List Act :=
  [.iget ROOTINO, .ilock 0, .dirlink 0 DOT ROOTINO, .dirlink 0 DOTDOT ROOTINO, .iunlock 0,
    .create 0 [SLASH, 97] T_FILE 0 0,
    .writei 1 (.kernel [1, 2, 3]) 0 3, .iunlock 1, .iput 1]

theorem block_ownership_sample : ∃ t, (machine tiny).run bare sample = .ok t ∧
    (∀ b, IsData tiny b → (bitAt tiny t.blk b = true ↔ ∃! x, slot tiny t.blk (dino tiny t.blk) x = b)) ∧
    bitAt tiny t.blk 36 = true ∧ bitAt tiny t.blk 37 = true ∧ bitAt tiny t.blk 38 = false := by
  obtain ⟨t, hl, hr, ht⟩ := Machine.exists_run_of_steps (M := machine tiny) (s := bare) (l := sample)
    (p := fun t => bitAt tiny t.blk 36 && bitAt tiny t.blk 37 && !bitAt tiny t.blk 38) (by decide +kernel)
  simp only [Bool.and_eq_true, Bool.not_eq_true'] at ht
  exact ⟨t, hr, ((block_ownership tiny_layout bare_wf sample hl).2 t hr).1, ht.1.1, ht.1.2, ht.2⟩

end Ownership

end Xv6.Fs
