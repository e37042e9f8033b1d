/-
Runs of system calls.

`Idle`: the state when no call is in progress. `Idle.step`: every call that does not make the link count of a file wrap
leads to such a state again, and changes the tree as the call allows. `boot`: a small disk with an empty root directory,
which is the current directory of process 0.
-/
import Xv6.Fs.Calls
import Xv6.Fs.Ownership

namespace Xv6.Fs

open Xv6.Core

variable {sb : Superblock} {s t : St} {a : ℕ × Call} {i j k : ℕ} {n m : Node} {T T' : Tree} {ok : Change → Prop}
  {name : List UInt8}

structure Idle (sb : Superblock) (s : St) : Prop where
  wf : WF sb s
  acct : Acct s
  calm : Calm sb s
  files : Files sb s
  sound : Sound sb.ninodes (s.node sb)

/-- the call makes a link to an inode that has 65535 -/
def Call.wraps (sb : Superblock) (s : St) (p : ℕ) : Call → Bool
  | .link (some old) (some _) => (s.walk sb p old false).any fun x => (s.node sb x.1).any fun m => m.nlink = 65535
  | _ => false

theorem WF.node_size (h : WF sb s) (hn : s.node sb i = some n) : n.bytes.length ≤ MAXFILE * BSIZE := by
  unfold St.node node at hn
  split_ifs at hn with hi
  cases hn
  rw [Dinode.node, length_content]
  exact h.good.size i hi.1 hi.2

theorem Idle.spare (h : Idle sb s) : Spare (s.node sb) := by
  intro i n hn hd hwrap
  have hlt := h.sound.nlink_lt hn hd (h.wf.node_size hn)
  have h1 := congrArg UInt16.toNat hwrap
  rw [toNat_add_one (by omega)] at h1
  cases h1

theorem Idle.stable (h : Idle sb s) : Stable sb s := ⟨h.wf, h.acct, h.calm, h.spare, h.files⟩

/-- the path of the entry that the call may write -/
def Call.newEntry : Call → Option (List UInt8)
  | .openPath path omode => if omode.testBit O_CREATE then path else none
  | .mkdir path => path
  | .mknod path _ _ => path
  | .link (some _) new => new
  | .symlink (some _) path => path
  | _ => none

/-- which call writes the content l into the file j, whose node was m -/
def Call.Writes (s : St) (p j : ℕ) (m : Node) (l : List UInt8) : Call → Prop
  | .openPath _ omode => l = [] ∧ omode.testBit O_TRUNC = true ∧ m.type = T_FILE ∧ omode.testBit O_APPEND = false
  | .symlink (some target) _ => l.length ≤ max m.bytes.length target.length
  | .write fd _ _ n => ∃ f, (s.proc p).ofile fd = some f ∧ (s.file f).type = .inode ∧
      j = (s.inode (s.file f).ip).inum ∧ l.length ≤ max m.bytes.length ((s.file f).off + n)
  | _ => False

/-- which call makes a change -/
def Call.Makes (sb : Superblock) (s : St) (p : ℕ) (c : Call) : Change → Prop
  | .create i name => ∃ path, c.newEntry = some path ∧ s.walk sb p path true = some (i, name)
  | .link i j name => ∃ old new name', c = .link (some old) (some new) ∧ s.walk sb p old false = some (j, name') ∧
      s.walk sb p new true = some (i, name)
  | .unlink i j name => ∃ path n, c = .unlink (some path) ∧ s.walk sb p path true = some (i, name) ∧
      s.node sb i = some n ∧ lookup n.bytes name = some j
  | .write j m l => c.Writes s p j m l

theorem Call.Allows.makes {c : Call} {p : ℕ} {x : Change} (h : c.Allows sb s p x) : c.Makes sb s p x := by
  have hcreate : ∀ path, c.newEntry = some path → CreateOk sb s p path x → c.Makes sb s p x := by
    rintro path hp ⟨i, name, rfl, hw⟩
    exact ⟨path, hp, hw⟩
  cases c with
  | openPath path omode =>
    cases path with
    | none => exact h.elim
    | some path =>
      rcases h with h | ⟨j, m, rfl, h⟩
      · exact hcreate path (if_pos h.1) h.2
      · exact ⟨rfl, h⟩
  | mkdir path =>
    cases path with
    | none => exact h.elim
    | some path => exact hcreate path rfl h
  | mknod path _ _ =>
    cases path with
    | none => exact h.elim
    | some path => exact hcreate path rfl h
  | symlink target path =>
    cases target <;> cases path
    case some.some target path =>
      rcases h with h | ⟨j, m, l, rfl, h⟩
      · exact hcreate path rfl h
      · exact h
    all_goals exact h.elim
  | link old new =>
    cases old <;> cases new
    case some.some old new =>
      obtain ⟨i, j, name, name', rfl, h1, h2⟩ := h
      exact ⟨old, new, name', rfl, h1, h2⟩
    all_goals exact h.elim
  | unlink path =>
    cases path with
    | none => exact h.elim
    | some path =>
      obtain ⟨i, j, n, name, rfl, h1, h2, h3⟩ := h
      exact ⟨path, n, rfl, h1, h2, h3⟩
  | write fd mem addr n =>
    obtain ⟨f, hf, hty, m, l, rfl, hlen⟩ := h
    exact ⟨f, hf, hty, rfl, hlen⟩
  | _ => exact h.elim

/-- a link that does not wrap the count -/
theorem Call.Allows.no_wrap (h : a.2.Allows sb s a.1 (.link i j name)) (hw : a.2.wraps sb s a.1 = false)
    (hm : s.node sb j = some m) : m.nlink + 1 ≠ 0 := fun hwrap => by
  obtain ⟨old, new, name', hcall, hwalk, -⟩ := h.makes
  have h1 : m.nlink = 0 - 1 := by rw [← hwrap, UInt16.add_sub_cancel]
  rw [hcall, Call.wraps, hwalk, Option.any_some, hm, Option.any_some, h1] at hw
  exact absurd hw (by decide)

theorem Idle.returns (hl : Layout sb) (h : Idle sb s) (ha : (calls sb).legal s a) (hs : (calls sb).step s a = .ok t) :
    Step sb (fun c => a.2.Allows sb s a.1 c) s t :=
  calls_ok (call_spec (P := True) hl h.stable (fun _ => trivial) ha) hs

theorem Idle.step (hl : Layout sb) (h : Idle sb s) (ha : (calls sb).legal s a) (hw : a.2.wraps sb s a.1 = false)
    (hs : (calls sb).step s a = .ok t) :
    Idle sb t ∧ Effect sb (fun c => a.2.Allows sb s a.1 c) (s.node sb) (t.node sb) := by
  have hstep := h.returns hl ha hs
  obtain ⟨hc, heff⟩ := hstep.tree h.calm h.spare
  refine ⟨⟨hstep.wf, hstep.acct, hc, hstep.files h.calm h.spare h.files, ?_⟩, heff⟩
  exact h.sound.effect heff (fun i n hn => h.wf.node_size hn) fun i j _ m hok hm => hok.no_wrap hw hm

/-! ### Removed directories -/

/-- the directory that the call removes, after the one that it is in: `sys_unlink` refuses "." and "..", and a directory
with other entries -/
def Call.removes (sb : Superblock) (s : St) (p : ℕ) : Call → Option (ℕ × ℕ)
  | .unlink (some path) => do
    let x ← s.walk sb p path true
    let n ← s.node sb x.1
    let j ← lookup n.bytes x.2
    let m ← s.node sb j
    if namecmp x.2 DOT ∨ namecmp x.2 DOTDOT ∨ m.type ≠ T_DIR ∨ m.kids ≠ [] then none else some (x.1, j)
  | _ => none

theorem Idle.removes (h : Idle sb s) (hc : DropLink name (s.node sb) T i j k n m) (hm : m.type = T_DIR)
    (hok : a.2.Allows sb s a.1 (.unlink i j name)) : a.2.removes sb s a.1 = some (i, j) := by
  obtain ⟨path, n', hcall, hwalk, hn, hlook⟩ := hok.makes
  have hkids : m.kids = [] := by rw [← kids_of hc.node]; exact hc.kids_nil h.sound
  rw [hcall]
  simp [Call.removes, hwalk, hn, hlook, hc.node, hc.notDot, hc.notDotDot, hm, hkids]

/-- what a call that removes a directory unlinks is a directory -/
theorem Call.Allows.unlinks_dir (hok : a.2.Allows sb s a.1 (.unlink i j name)) (hm : s.node sb j = some m)
    (hrem : a.2.removes sb s a.1 = some e) : m.type = T_DIR := by
  obtain ⟨path, n, hcall, hwalk, hn, hlook⟩ := hok.makes
  rw [hcall] at hrem
  simp only [Call.removes, hwalk, hn, hlook, hm, Option.bind_eq_bind, Option.bind_some] at hrem
  split_ifs at hrem with hno
  by_contra hdir
  exact hno (Or.inr (Or.inr (Or.inl hdir)))

/-- an inode of the later tree was in use before, with the same type and links -/
theorem minors_node (h : Relation.ReflTransGen (Minor ok) T T') (hi : T' i = some m) :
    ∃ n, T i = some n ∧ n.type = m.type ∧ n.nlink = m.nlink := by
  induction h generalizing m with
  | refl => exact ⟨m, hi, rfl, rfl⟩
  | @tail T1 T2 _ hm ih =>
    cases hm with
    | @write j p hj hp l _ =>
      rcases node_write hi with ⟨rfl, rfl⟩ | hi
      · obtain ⟨n, hn, ht, hl⟩ := ih hj
        exact ⟨n, hn, ht, hl⟩
      · exact ih hi
    | @free j p hj h0 =>
      by_cases hij : i = j
      · rw [hij, Function.update_self] at hi; cases hi
      · rw [Function.update_of_ne hij] at hi
        exact ih hi

theorem find_none : s.find i = none ↔ ∀ k, k < NINODE → 0 < s.refs k → (s.inode k).inum ≠ i := by
  unfold St.find
  simp [List.find?_eq_none, St.refs]

/-- what `unlink` leaves without links is freed if nobody uses it -/
theorem Idle.dropped (hl : Layout sb) (h : Idle sb s) (ha : (calls sb).legal s a)
    (hok : a.2.Allows sb s a.1 (.unlink i j name)) (hs : (calls sb).step s a = .ok t)
    (h2 : Relation.ReflTransGen (Minor ok) T (t.node sb)) (hk : T k = some n) (h0 : n.nlink = 0)
    (hfind : s.find k = none) : t.node sb k = none := by
  obtain ⟨p, c⟩ := a
  obtain ⟨path, -, rfl, -⟩ := hok.makes
  have hcalled : Called sb (UnlinkOk sb s p path) s t := calls_ok (a := (p, .unlink (some path))) (Spec.bind
    (sysUnlink_spec (P := True) hl h.wf (h.acct.has_cwd h.wf ha) (fun _ => trivial) path) fun _ _ ht => Spec.pure ht) hs
  cases ht : t.node sb k with
  | none => rfl
  | some m =>
    -- the call has left every reference as it was
    obtain ⟨n', hn', -, hnl⟩ := minors_node h2 ht
    rw [hk] at hn'
    cases hn'
    obtain ⟨x, hx, hxk, -⟩ := (hcalled.tree h.calm h.spare).1.held k m ht (hnl ▸ h0)
    rw [hcalled.refs] at hx
    exact absurd ((hcalled.tab.kept x hx).1.symm.trans hxk) (find_none.1 hfind x (h.wf.bound x hx) hx)

/-- a run in which no link count wraps -/
theorem Idle.reach (hl : Layout sb) (h : Idle sb s)
    (hr : ((calls sb).restrict fun s a => a.2.wraps sb s a.1 = false).Reach s t) : Idle sb t :=
  hr.inv (Idle sb) h fun _ _ _ hu ha hs => (hu.step hl ha.1 ha.2 hs).1

/-- a call that comes to a free inode has found an entry for it -/
theorem Idle.error (hl : Layout sb) (h : Idle sb s) (ha : (calls sb).legal s a)
    (hs : (calls sb).step s a = .error .ilockNoType) : ¬ Safe sb s :=
  (calls_error (call_spec hl h.stable (P := ¬ Safe sb s) id ha) hs).2 rfl

/-! ## A small disk -/

open Ownership in
/-- the two entries of the root directory are written -/
def format : St :=
  match (machine tiny).run bare [.iget ROOTINO, .ilock 0, .dirlink 0 DOT ROOTINO, .dirlink 0 DOTDOT ROOTINO,
    .iunlock 0] with
  | .ok t => t
  | .error _ => bare

/-- a disk with an empty root directory, the current directory of process 0 -/
def boot : St := { format with file := Ownership.bare.file, proc := Ownership.bare.proc, trace := [] }

/-- the tree that consists of the root directory -/
def rootOnly : Tree := Function.update (fun _ => none) ROOTINO (some ⟨T_DIR, 1, newDir ROOTINO ROOTINO⟩)

theorem rootOnly_some (h : rootOnly i = some n) : i = ROOTINO ∧ n = ⟨T_DIR, 1, newDir ROOTINO ROOTINO⟩ := by
  unfold rootOnly at h
  by_cases hi : i = ROOTINO
  · rw [hi, Function.update_self] at h
    exact ⟨hi, (Option.some.inj h).symm⟩
  · rw [Function.update_of_ne hi] at h; cases h

theorem rootOnly_kids (i : ℕ) : rootOnly.kids i = [] := by
  cases h : rootOnly i with
  | none => exact kids_none h
  | some n =>
    obtain ⟨-, rfl⟩ := rootOnly_some h
    rw [kids_of h]
    exact (kids_newNode (by decide) (by decide) : (newNode T_DIR ROOTINO ROOTINO).kids = [])

theorem rootOnly_sound {N : ℕ} (hN : N ≤ 2 ^ 16) (hr : ROOTINO < N) : Sound N rootOnly := by
  obtain ⟨hlen, -, h1⟩ := entries_newDir (j := ROOTINO) (i := ROOTINO) (by decide) (by decide)
  have hroot : rootOnly ROOTINO = some ⟨T_DIR, 1, newDir ROOTINO ROOTINO⟩ := Function.update_self ..
  have hnaming : ∀ x, rootOnly.naming N x = 0 := fun x => Finset.sum_eq_zero fun y _ => by rw [rootOnly_kids]; rfl
  have hinside : ∀ x, rootOnly.inside x = 0 := fun x => by rw [Tree.inside, rootOnly_kids]; rfl
  refine ⟨⟨hN, rfl, fun i n hi => ?_, fun i n hi hd => ?_, fun i n hi hd => ?_, _, hroot, rfl, ?_⟩, fun i j hj => ?_,
    fun i n hi hd => ?_, fun i hd => ?_, fun i n hi hd => ?_, fun i j m hj => ?_⟩
  · rw [(rootOnly_some hi).1]; exact hr
  · rw [(rootOnly_some hi).2, hlen]; rfl
  · rw [(rootOnly_some hi).1, (rootOnly_some hi).2]
    exact (dots_newNode (by decide) (by decide) (by decide) rfl : Dots ROOTINO (newNode T_DIR ROOTINO ROOTINO))
  · rw [h1]; rfl
  · rw [rootOnly_kids] at hj; cases hj
  · rw [hnaming, hinside, (rootOnly_some hi).1, (rootOnly_some hi).2]; rfl
  · rw [hnaming]; split_ifs <;> decide
  · rw [(rootOnly_some hi).2] at hd
    exact absurd rfl hd
  · rw [rootOnly_kids] at hj; cases hj

/-- the tree, if it is right for the inodes of the disk -/
theorem node_rootOnly (hr : ROOTINO < sb.ninodes) (h : ∀ i, i < sb.ninodes → s.node sb i = rootOnly i) :
    s.node sb = rootOnly := by
  funext i
  by_cases hi : i < sb.ninodes
  · exact h i hi
  · have h1 : i ≠ ROOTINO := by rintro rfl; exact hi hr
    rw [rootOnly, Function.update_of_ne h1]
    show node sb s.blk i = none
    rw [node, if_neg fun hc => hi hc.1]

theorem boot_node : boot.node Ownership.tiny = rootOnly := node_rootOnly (by decide) (by decide +kernel)

open Ownership in
theorem boot_wf : WF tiny boot := by
  have hrun := Machine.exists_run_of_steps (M := machine tiny) (s := bare) (p := fun _ => true)
    (l := [.iget ROOTINO, .ilock 0, .dirlink 0 DOT ROOTINO, .dirlink 0 DOTDOT ROOTINO, .iunlock 0]) (by decide +kernel)
  obtain ⟨t, hlegal, hr, -⟩ := hrun
  have hreach : (machine tiny).Reach bare t := ⟨_, hlegal, hr⟩
  have hwf := hreach.inv (WF tiny) bare_wf fun _ _ _ h ha hs => step_wf tiny_layout h ha hs
  have hformat : format = t := by
    unfold format
    rw [hr]
  exact (hformat ▸ hwf).of_eq rfl rfl

/-- the reference counts, if they are right for the entries of the table -/
theorem refs_boot (h : WF sb s) (hr : ∀ k, k < NINODE → s.refs k = if k = 0 then 1 else 0) (k : ℕ) :
    s.refs k = if k = 0 then 1 else 0 := by
  by_cases hk : k < NINODE
  · exact hr k hk
  have h0 : s.refs k = 0 := by
    by_contra hc
    exact hk (h.bound k (Nat.pos_of_ne_zero hc))
  rw [h0, if_neg]
  rintro rfl
  exact hk (by decide)

theorem boot_refs (k : ℕ) : boot.refs k = if k = 0 then 1 else 0 := refs_boot boot_wf (by decide +kernel) k

theorem acct_boot (hr : ∀ k, s.refs k = if k = 0 then 1 else 0) (hf : s.file = Ownership.bare.file)
    (hp : s.proc = Ownership.bare.proc) : Acct s := by
  refine ⟨fun k => ?_, fun f _ => by rw [hf]; rfl, fun f _ => by rw [hf]; rfl, fun p h => ?_⟩
  · have hfile : s.fileUses k = 0 := Finset.sum_eq_zero fun f _ => File.uses_none (by rw [hf]; rfl) k
    have hproc : s.procUses k = if k = 0 then 1 else 0 := by
      unfold St.procUses
      rw [hp, Finset.sum_eq_single 0]
      · by_cases hk : k = 0
        · rw [if_pos hk, uses_cwd (k := 0) rfl, hk, Pi.single_eq_same]
        · rw [if_neg hk, uses_cwd (k := 0) rfl, Pi.single_eq_of_ne hk]
      · intro p _ hp
        exact uses_no_cwd (if_neg hp) k
      · exact fun h => absurd (Finset.mem_range.2 (by decide)) h
    rw [hr, hproc, hfile, Nat.add_zero]
  · rw [hp]
    exact if_neg (by unfold NPROC at h; omega)

theorem calm_rootOnly (hnode : s.node sb = rootOnly) (hr : ∀ k, s.refs k = if k = 0 then 1 else 0)
    (h1 : (s.inode 0).inum = ROOTINO) : Calm sb s := by
  refine ⟨fun i n hn h0 => ?_, fun k hk => ?_⟩
  · rw [hnode] at hn
    rw [(rootOnly_some hn).2] at h0
    exact absurd h0 (by decide)
  rw [hr] at hk
  have hk0 : k = 0 := by
    by_contra hc
    rw [if_neg hc] at hk
    exact absurd hk (lt_irrefl 0)
  rw [hk0, h1, hnode, rootOnly, Function.update_self]; nofun

theorem boot_idle : Idle Ownership.tiny boot := by
  refine ⟨boot_wf, acct_boot boot_refs rfl rfl, calm_rootOnly boot_node boot_refs (by decide +kernel), fun f hf =>
    (nofun : ¬ FileType.none = .inode) hf |>.elim, ?_⟩
  rw [boot_node]
  exact rootOnly_sound (by decide) (by decide)

/-- process 0 opens "/" -/
example : (sysOpen Ownership.tiny 0 (some [SLASH]) 0 boot).toOption.map (·.1) = some (some 0) := by decide +kernel

end Xv6.Fs
