/-
Who holds the references to inodes between system calls.

`Acct`: the reference count of every entry of the inode table is the number of processes that have it as current
directory plus the number of open files on it. `Step`: what every system call keeps: this count, the well-formedness of
the disk, and calmness, while the tree changes by an `Effect`; and files open for writing are not directories (`Files`).
-/
import Xv6.Fs.Link

namespace Xv6.Fs

open Xv6.Core

/-- the references that a process holds -/
def Proc.uses (k : ℕ) (x : Proc) : ℕ := if x.cwd = some k then 1 else 0

/-- the references that an open file holds -/
def File.uses (k : ℕ) (x : File) : ℕ := if 0 < x.ref ∧ x.type ≠ .none ∧ x.ip = k then 1 else 0

def St.procUses (s : St) (k : ℕ) : ℕ := ∑ p ∈ Finset.range NPROC, (s.proc p).uses k

def St.fileUses (s : St) (k : ℕ) : ℕ := ∑ f ∈ Finset.range NFILE, (s.file f).uses k

structure Acct (s : St) : Prop where
  refs : ∀ k, s.refs k = s.procUses k + s.fileUses k
  idle : ∀ f, (s.file f).ref = 0 → (s.file f).type = .none
  files : ∀ f, NFILE ≤ f → (s.file f).type = .none
  procs : ∀ p, NPROC ≤ p → (s.proc p).cwd = none

/-- files that are open for writing are not directories -/
def Files (sb : Superblock) (s : St) : Prop :=
  ∀ f, (s.file f).type = .inode → (s.file f).writable = true →
    Tree.isDir (s.node sb) (s.inode (s.file f).ip).inum = false

variable {sb : Superblock} {p f i j k ip dp : ℕ} {s t u v w : St} {F G : ℕ → ℕ} {P : Prop} {n m : Node} {T T' : Tree}
  {name path : List UInt8} {ok ok' : Change → Prop} {E : Panic → Prop} {file : Store File} {proc : Store Proc}

/-! ## Holders -/

theorem procUses_set (hp : p < NPROC) (x : Proc) (k : ℕ) :
    St.procUses { s with proc := s.proc.set p x } k + (s.proc p).uses k = s.procUses k + x.uses k :=
  sum_set_add s.proc (Proc.uses k) hp x

theorem fileUses_set (hf : f < NFILE) (x : File) (k : ℕ) :
    St.fileUses { s with file := s.file.set f x } k + (s.file f).uses k = s.fileUses k + x.uses k :=
  sum_set_add s.file (File.uses k) hf x

theorem procUses_same {x : Proc} (hx : x.cwd = (s.proc p).cwd) :
    St.procUses { s with proc := s.proc.set p x } = s.procUses := by
  funext k
  refine Finset.sum_congr rfl fun q _ => ?_
  by_cases hq : q = p
  · subst hq
    simp [Proc.uses, hx]
  · simp [Store.set_ne _ _ hq]

theorem fileUses_same {x : File} (hx : ∀ k, x.uses k = (s.file f).uses k) :
    St.fileUses { s with file := s.file.set f x } = s.fileUses := by
  funext k
  refine Finset.sum_congr rfl fun g _ => ?_
  by_cases hg : g = f
  · subst hg
    simp [hx]
  · simp [Store.set_ne _ _ hg]

theorem procUses_congr (h : t.proc = s.proc) : t.procUses = s.procUses := by unfold St.procUses; rw [h]

theorem fileUses_congr (h : t.file = s.file) : t.fileUses = s.fileUses := by unfold St.fileUses; rw [h]

theorem Acct.cwd_pos (h : Acct s) (hk : (s.proc p).cwd = some k) : 0 < s.refs k := by
  have hp : p < NPROC := by
    by_contra hc
    rw [h.procs p (by omega)] at hk; cases hk
  have : 0 < s.procUses k := sum_pos_of _ hp (by rw [Proc.uses, if_pos hk]; exact Nat.one_pos)
  have := h.refs k
  omega

theorem File.uses_of {x : File} (h0 : x.ref = 0 → x.type = .none) (ht : x.type ≠ .none) : x.uses x.ip = 1 :=
  if_pos ⟨Nat.pos_of_ne_zero fun h => ht (h0 h), ht, rfl⟩

theorem Acct.fileUses_pos (h : Acct s) (ht : (s.file f).type ≠ .none) : 0 < s.fileUses (s.file f).ip := by
  have hf : f < NFILE := by
    by_contra hc
    exact ht (h.files f (by omega))
  refine sum_pos_of (fun f' => (s.file f').uses (s.file f).ip) hf ?_
  rw [File.uses_of (h.idle f) ht]
  exact Nat.one_pos

theorem Acct.file_pos (h : Acct s) (ht : (s.file f).type ≠ .none) : 0 < s.refs (s.file f).ip := by
  have := h.fileUses_pos ht
  have := h.refs (s.file f).ip
  omega

theorem WF.ptr (h : WF sb s) (hk : 0 < s.refs k) : Ptr s k (s.inode k).inum := ⟨h.bound k hk, hk, rfl⟩

theorem Acct.has_cwd (ha : Acct s) (h : WF sb s) (hp : (s.proc p).cwd ≠ none) : Cwd s p := by
  obtain ⟨k, hk⟩ := Option.ne_none_iff_exists'.1 hp
  exact ⟨k, _, hk, h.ptr (ha.cwd_pos hk)⟩

theorem Acct.congr (h : Acct s) (hr : t.refs = s.refs) (hf : t.file = s.file) (hp : t.proc = s.proc) : Acct t := by
  refine ⟨fun k => ?_, ?_, ?_, ?_⟩
  · rw [hr, procUses_congr hp, fileUses_congr hf]; exact h.refs k
  · rw [hf]; exact h.idle
  · rw [hf]; exact h.files
  · rw [hp]; exact h.procs

/-! ## Types -/

theorem Minor.type (h : Minor ok T T') (hi : T i = some n) (hi' : T' i = some m) : m.type = n.type := by
  cases h with
  | @write j p hj hp l _ =>
    by_cases hij : i = j
    · rw [hij, Function.update_self] at hi'
      rw [hij, hj] at hi
      cases hi; cases hi'
      rfl
    · rw [Function.update_of_ne hij, hi] at hi'
      cases hi'
      rfl
  | @free j p hj h0 =>
    by_cases hij : i = j
    · rw [hij, Function.update_self] at hi'; cases hi'
    · rw [Function.update_of_ne hij, hi] at hi'
      cases hi'
      rfl

theorem Edit.type {n' m' p q : Node} (h : Edit T T' i j n' m') (hi : T i = some n) (hn : n'.type = n.type)
    (hj : ∀ m, T j = some m → m'.type = m.type) {x : ℕ} (hx : T x = some p)
      (hx' : T' x = some q) : q.type = p.type := by
  rcases h.cases hx' with ⟨rfl, rfl⟩ | ⟨-, rfl, rfl⟩ | ⟨-, -, hq⟩
  · rw [hi] at hx
    cases hx
    exact hn
  · exact hj p hx
  · rw [hx] at hq
    cases hq
    rfl

theorem Major.type (h : Major sb ok T T') (hi : T i = some n) (hi' : T' i = some m) : m.type = n.type := by
  cases h with
  | create h _ => exact h.edit.type h.dir rfl (fun m hm => by rw [h.fresh] at hm; cases hm) hi hi'
  | link h _ => exact h.edit.type h.dir rfl (fun m hm => by rw [h.file] at hm; cases hm; rfl) hi hi'
  | unlink h _ => exact h.edit.type h.dir rfl (fun m hm => by rw [h.node] at hm; cases hm; rfl) hi hi'

theorem Minor.some (h : Minor ok T T') (hi' : T' i = some m) : ∃ n, T i = some n := by
  cases h with
  | @write j p hj hp l _ =>
    by_cases hij : i = j
    · exact ⟨p, hij ▸ hj⟩
    · rw [Function.update_of_ne hij] at hi'
      exact ⟨m, hi'⟩
  | @free j p hj h0 =>
    by_cases hij : i = j
    · rw [hij, Function.update_self] at hi'; cases hi'
    · rw [Function.update_of_ne hij] at hi'
      exact ⟨m, hi'⟩

theorem Effect.type (h : Effect sb ok T T') (hi : T i = some n) (hi' : T' i = some m) : m.type = n.type := by
  obtain ⟨T1, h1, h2⟩ := h
  induction h2 generalizing m with
  | refl =>
    rcases h1 with rfl | h1
    · rw [hi] at hi'
      cases hi'
      rfl
    · exact h1.type hi hi'
  | tail _ hm ih =>
    obtain ⟨p, hp⟩ := hm.some hi'
    exact (hm.type hp hi').trans (ih hp)

theorem Effect.isDir (h : Effect sb ok T T') (hi : T i ≠ none) (hd : T'.isDir i = true) : T.isDir i = true := by
  obtain ⟨m, hm, hmd⟩ := isDir_iff.1 hd
  obtain ⟨n, hn⟩ := Option.ne_none_iff_exists'.1 hi
  exact isDir_iff.2 ⟨n, hn, (h.type hn hm).symm.trans hmd⟩

/-! ## Steps -/

/-- a system call has returned -/
structure Step (sb : Superblock) (ok : Change → Prop) (s t : St) : Prop where
  wf : WF sb t
  acct : Acct t
  tree : Calm sb s → Spare (s.node sb) → Calm sb t ∧ Effect sb ok (s.node sb) (t.node sb)
  files : Calm sb s → Spare (s.node sb) → Files sb s → Files sb t

/-- a call that has dropped no reference -/
structure Keeps (sb : Superblock) (ok : Change → Prop) (s t : St) : Prop extends Step sb ok s t where
  kept : ∀ k, 0 < s.refs k → 0 < t.refs k ∧ (t.inode k).inum = (s.inode k).inum

theorem Files.of (ha : Acct s) (hc : Calm sb s) (heff : Effect sb ok (s.node sb) (t.node sb)) (hf : Files sb s)
    (hkept : ∀ f, (t.file f).type = .inode → (t.file f).writable = true →
      ((s.file f).type = .inode ∧ (s.file f).writable = true ∧
        (t.inode (t.file f).ip).inum = (s.inode (s.file f).ip).inum) ∨
      Tree.isDir (t.node sb) (t.inode (t.file f).ip).inum = false) : Files sb t := by
  intro f hty hw
  rcases hkept f hty hw with ⟨h1, h2, h3⟩ | h
  · rw [h3]
    by_contra hd
    rw [Bool.not_eq_false] at hd
    have hpos := ha.file_pos (f := f) (by rw [h1]; nofun)
    have := heff.isDir (hc.alive _ hpos) hd
    rw [hf f h1 h2] at this; cases this
  · exact h

theorem Step.of_to (h : WF sb s) (hto : To s t s.blk s.inode) (h' : Step sb ok t u) : Step sb ok s u := by
  have hnode := node_congr sb hto.blk
  refine ⟨h'.wf, h'.acct, fun hc hsp => ?_, fun hc hsp hf => ?_⟩
  · rw [← hnode] at hsp ⊢
    exact h'.tree (hc.to h hto) hsp
  · rw [← hnode] at hsp
    refine h'.files (hc.to h hto) hsp ?_
    unfold Files
    rw [hto.file, hnode, hto.inode]; exact hf

theorem Step.mono (h : Step sb ok s t) (hok : ∀ c, ok c → ok' c) : Step sb ok' s t :=
  ⟨h.wf, h.acct, fun hc hsp => ⟨(h.tree hc hsp).1, (h.tree hc hsp).2.mono hok⟩, h.files⟩

theorem Keeps.mono (h : Keeps sb ok s t) (hok : ∀ c, ok c → ok' c) : Keeps sb ok' s t :=
  ⟨h.toStep.mono hok, h.kept⟩

theorem Keeps.of_to (h : WF sb s) (hto : To s t s.blk s.inode) (h' : Keeps sb ok t u) : Keeps sb ok s u := by
  refine ⟨h'.toStep.of_to h hto, fun k hk => ?_⟩
  have := h'.kept k (by rw [refs_to hto]; exact hk)
  rwa [hto.inode] at this

theorem Acct.to (h : Acct s) (hto : To s t s.blk s.inode) : Acct t := h.congr (refs_to hto) hto.file hto.proc

theorem Step.begin {α : Type} {body : FsM α} (ok : St → Change → Prop) (h : WF sb s) (ha : Acct s)
    (hok : ∀ t, To s t s.blk s.inode → ∀ c, ok t c → ok s c)
    (hm : ∀ t, To s t s.blk s.inode → WF sb t → Acct t → Spec body t (fun _ u => Step sb (ok t) t u) E) :
    Spec (do beginOp; body) s (fun _ u => Step sb (ok s) s u) E := by
  have hto := to_event s .beginOp
  exact Spec.bind_ok rfl (Spec.post (hm _ hto (h.congr hto) (ha.to hto)) fun _ u hu =>
    (hu.mono (hok _ hto)).of_to h hto)

theorem Keeps.begin {α : Type} {body : FsM α} (ok : St → Change → Prop) (h : WF sb s) (ha : Acct s)
    (hok : ∀ t, To s t s.blk s.inode → ∀ c, ok t c → ok s c)
    (hm : ∀ t, To s t s.blk s.inode → WF sb t → Acct t → Spec body t (fun _ u => Keeps sb (ok t) t u) E) :
    Spec (do beginOp; body) s (fun _ u => Keeps sb (ok s) s u) E := by
  have hto := to_event s .beginOp
  exact Spec.bind_ok rfl (Spec.post (hm _ hto (h.congr hto) (ha.to hto)) fun _ u hu =>
    (hu.mono (hok _ hto)).of_to h hto)

/-- the state inside a call: F counts the references, and those of before are kept -/
structure Mid (sb : Superblock) (ok : Change → Prop) (s : St) (F : ℕ → ℕ) (t : St) : Prop where
  wf : WF sb t
  tab : Tab s.refs s t
  refs : t.refs = F
  le : ∀ k, 0 < s.refs k → 0 < F k
  tree : Calm sb s → Spare (s.node sb) → Calm sb t ∧ Effect sb ok (s.node sb) (t.node sb)

theorem Mid.refl (h : WF sb s) : Mid sb ok s s.refs s :=
  ⟨h, Tab.refl _ _, rfl, fun _ => id, fun hc _ => ⟨hc, Effect.refl _ _ _⟩⟩

theorem Called.mid (h : Called sb ok s t) : Mid sb ok s s.refs t := ⟨h.wf, h.tab, h.refs, fun _ => id, h.tree⟩

theorem Mid.le_refs (h : Mid sb ok s F t) (hk : 0 < s.refs k) : 0 < t.refs k := by rw [h.refs]; exact h.le k hk

theorem Mid.same (h : Mid sb ok s F t) (hu : Same sb t u) : Mid sb ok s F u := by
  have htab := hu.quiet.tab.mono fun k hk => h.le_refs hk
  refine ⟨hu.quiet.wf, h.tab.trans htab, hu.refs.trans h.refs, h.le, fun hc hsp => ?_⟩
  obtain ⟨hct, heff⟩ := h.tree hc hsp
  obtain ⟨hcu, hnode⟩ := hu.calm hct
  exact ⟨hcu, by rw [hnode]; exact heff⟩

theorem Mid.to (h : Mid sb ok s F t) (hto : To t u t.blk t.inode) : Mid sb ok s F u := h.same (Same.of_to h.wf hto)

theorem Mid.loaded (h : Mid sb ok s F t) (hu : Loaded sb ip i t u) : Mid sb ok s F u := h.same ⟨hu.quiet, hu.refs⟩

theorem Mid.found (h : Mid sb ok s F t) (hu : Found sb ip i n t u) : Mid sb ok s (F + Pi.single ip 1) u := by
  have htab := hu.quiet.tab.mono fun k hk => h.le_refs hk
  refine ⟨hu.quiet.wf, h.tab.trans htab, by rw [hu.refs, h.refs], fun k hk => le_add_single _ _ _ (h.le k hk),
    fun hc hsp => ?_⟩
  obtain ⟨hct, heff⟩ := h.tree hc hsp
  exact ⟨hu.calm hct, by rw [hct.held.node hu.quiet]; exact heff⟩

/-- a reference is dropped, and with it perhaps an inode without links -/
theorem Effect.drop (hc : Calm sb t) (h : WF sb t) (hp : Ptr t ip i) (hd : Dropped sb F ip i t u)
    (heff : Effect sb ok T (t.node sb)) : Effect sb ok T (u.node sb) := by
  rw [hd.node_eq hc h hp]
  split_ifs with hz
  · obtain ⟨-, n, hn, h0⟩ := hz
    exact heff.minor (.free hn h0)
  · exact heff

theorem Mid.drop (h : Mid sb ok s (F + Pi.single ip 1) t) (hp : Ptr t ip i) (hd : Dropped sb F ip i t u)
    (hle : ∀ k, 0 < s.refs k → 0 < F k) : Mid sb ok s F u := by
  refine ⟨hd.quiet.wf, h.tab.trans (hd.quiet.tab.mono hle), hd.refs, hle, fun hc hsp => ?_⟩
  obtain ⟨hct, heff⟩ := h.tree hc hsp
  exact ⟨hct.drop h.wf hp h.refs hd, heff.drop hct h.wf hp hd⟩

theorem Mid.write {l : List UInt8} (h : Mid sb ok s F t) (hl : Live sb t ip i m) (hm : m.type ≠ T_DIR)
    (hu : Puts sb t u i (some { m with bytes := l })) (hok : ok (.write i m l)) : Mid sb ok s F u := by
  have htab := hu.tab.mono fun k hk => h.le_refs hk
  refine ⟨hu.wf, h.tab.trans htab, hu.refs.trans h.refs, h.le, fun hc hsp => ?_⟩
  obtain ⟨hct, heff⟩ := h.tree hc hsp
  refine ⟨hct.puts hu fun _ => ⟨ip, hl.ptr.2.1, hl.ptr.2.2, hl.valid⟩, ?_⟩
  rw [hu.node]
  exact heff.minor (.write hl.node hm l hok)

theorem Mid.mono (h : Mid sb ok s F t) (hok : ∀ c, ok c → ok' c) : Mid sb ok' s F t :=
  ⟨h.wf, h.tab, h.refs, h.le, fun hc hsp => ⟨(h.tree hc hsp).1, (h.tree hc hsp).2.mono hok⟩⟩

theorem Mid.kept (h : Mid sb ok s F t) (hk : 0 < s.refs k) : 0 < t.refs k ∧ (t.inode k).inum = (s.inode k).inum :=
  ⟨h.le_refs hk, (h.tab.kept k hk).1⟩

theorem Mid.step (h : Mid sb ok s s.refs t) (ha : Acct s) : Keeps sb ok s t := by
  refine ⟨⟨h.wf, ha.congr h.refs h.tab.file h.tab.proc, h.tree, fun hc hsp hf => ?_⟩, fun k hk => h.kept hk⟩
  refine Files.of ha hc (h.tree hc hsp).2 hf fun f hty hw => Or.inl ?_
  rw [h.tab.file] at hty hw ⊢
  exact ⟨hty, hw, (h.tab.kept _ (ha.file_pos (by rw [hty]; nofun))).1⟩

theorem Mid.files (h : Mid sb ok s F t) (file : Store File) (proc : Store Proc) :
    Mid sb ok { s with file := file, proc := proc } F { t with file := file, proc := proc } := by
  refine ⟨⟨h.wf.good, h.wf.bound, h.wf.unique, h.wf.range, h.wf.coherent, h.wf.dirs⟩, ⟨rfl, rfl, h.tab.kept⟩,
    h.refs, h.le,
    fun hc hsp => ?_⟩
  obtain ⟨hct, heff⟩ := h.tree ⟨hc.held, hc.alive⟩ hsp
  exact ⟨⟨hct.held, hct.alive⟩, heff⟩

theorem Mid.step_files (h : Mid sb ok { s with file := file, proc := proc } F t) (ha : Acct s) (hat : Acct t)
    (hkept : ∀ f, (t.file f).type = .inode → (t.file f).writable = true →
      ((s.file f).type = .inode ∧ (s.file f).writable = true ∧ (t.file f).ip = (s.file f).ip) ∨
      ∀ n, t.node sb (t.inode (t.file f).ip).inum = some n → n.type ≠ T_DIR) : Keeps sb ok s t := by
  have htree : Calm sb s → Spare (s.node sb) → Calm sb t ∧ Effect sb ok (s.node sb) (t.node sb) := fun hc hsp =>
    h.tree ⟨hc.held, hc.alive⟩ hsp
  refine ⟨⟨h.wf, hat, htree, fun hc hsp hf => Files.of ha hc (htree hc hsp).2 hf fun f hty hw => ?_⟩,
    fun k hk => h.kept hk⟩
  rcases hkept f hty hw with ⟨h1, h2, h3⟩ | h1
  · refine Or.inl ⟨h1, h2, ?_⟩
    rw [h3]
    exact (h.tab.kept _ (ha.file_pos (f := f) (by rw [h1]; nofun))).1
  · refine Or.inr ?_
    by_contra hd
    rw [Bool.not_eq_false] at hd
    obtain ⟨n, hn, hnd⟩ := isDir_iff.1 hd
    exact h1 n hn hnd

theorem WF.of_eq (h : WF sb s) (hb : t.blk = s.blk) (hi : t.inode = s.inode) : WF sb t := by
  have hr : t.refs = s.refs := by unfold St.refs; rw [hi]
  have hp : ∀ k i, Ptr t k i ↔ Ptr s k i := fun k i => by unfold Ptr; rw [hr, hi]
  have hn : t.node sb = s.node sb := node_congr sb hb
  refine ⟨by rw [hb]; exact h.good, by rw [hr]; exact h.bound, fun k l i => ?_, fun k i => ?_, fun k i => ?_,
    by rw [hn]; exact h.dirs⟩
  · rw [hp, hp]; exact h.unique k l i
  · rw [hp]; exact h.range k i
  · rw [hp, hi, hb]; exact h.coherent k i

theorem Calm.of_eq (h : Calm sb s) (hb : t.blk = s.blk) (hi : t.inode = s.inode) : Calm sb t := by
  have hr : t.refs = s.refs := by unfold St.refs; rw [hi]
  have hn : t.node sb = s.node sb := node_congr sb hb
  refine ⟨?_, ?_⟩
  · unfold Held
    rw [hn, hr, hi]; exact h.held
  · rw [hn, hr, hi]; exact h.alive

/-- a reference that an open file or a process held is dropped -/
theorem Mid.release (h : Mid sb ok { s with file := file, proc := proc } (F + Pi.single ip 1) t) (hp : Ptr t ip i)
    (hd : Dropped sb F ip i t u) (hb : v.blk = u.blk) (hi : v.inode = u.inode) (ha : Acct s) (hav : Acct v)
    (hkept : ∀ f, (v.file f).type = .inode → (v.file f).writable = true →
      (s.file f).type = .inode ∧ (s.file f).writable = true ∧ (v.file f).ip = (s.file f).ip) : Step sb ok s v := by
  have htree : Calm sb s → Spare (s.node sb) → Calm sb v ∧ Effect sb ok (s.node sb) (v.node sb) := fun hc hsp => by
    obtain ⟨hct, heff⟩ := h.tree ⟨hc.held, hc.alive⟩ hsp
    refine ⟨(hct.drop h.wf hp h.refs hd).of_eq hb hi, ?_⟩
    rw [node_congr sb hb]
    exact heff.drop hct h.wf hp hd
  refine ⟨hd.quiet.wf.of_eq hb hi, hav, htree, fun hc hsp hf => Files.of ha hc (htree hc hsp).2 hf fun f hty hw => ?_⟩
  obtain ⟨h1, h2, h3⟩ := hkept f hty hw
  refine Or.inl ⟨h1, h2, ?_⟩
  -- the file is still referenced
  have hpos := hav.file_pos (f := f) (by rw [hty]; nofun)
  have hvr : v.refs = F := by rw [← hd.refs]; unfold St.refs; rw [hi]
  rw [hvr, h3] at hpos
  rw [hi, h3, (hd.quiet.tab.kept _ hpos).1]
  exact (h.tab.kept _ (ha.file_pos (f := f) (by rw [h1]; nofun))).1

end Xv6.Fs
