/-
The calls that create and open files, and `chdir` (kernel/sysfile.c).

Each is a `Step`: the references it leaves behind are those of open files and current directories.
-/
import Xv6.Fs.Users

namespace Xv6.Fs

open Xv6.Core

variable {sb : Superblock} {p f i j k ip dp : ℕ} {s t u v w : St} {F G : ℕ → ℕ} {P : Prop} {n m : Node} {T T' : Tree}
  {name path : List UInt8} {ok : Change → Prop} {type : UInt16} {x : File} {E : Panic → Prop}

/-! ## Creating -/

/-- what a call that creates an inode may do: write an entry into the directory of the path -/
def CreateOk (sb : Superblock) (s : St) (p : ℕ) (path : List UInt8) (c : Change) : Prop :=
  ∃ i name, c = .create i name ∧ s.walk sb p path true = some (i, name)

theorem CreateOk.to (hto : To s t s.blk s.inode) (c : Change) (h : CreateOk sb t p path c) :
    CreateOk sb s p path c := by
  obtain ⟨i, name, hc, hw⟩ := h
  rw [walk_to hto] at hw
  exact ⟨i, name, hc, hw⟩

/-- a function that may return an inode, locked -/
def MidPost (sb : Superblock) (ok : Change → Prop) (Q : Node → Prop) (s : St) (r : Option ℕ) (t : St) : Prop :=
  match r with
  | none => Mid sb ok s s.refs t
  | some ip => Mid sb ok s (s.refs + Pi.single ip 1) t ∧ ∃ j m, Live sb t ip j m ∧ Q m

theorem create_mid (hl : Layout sb) (h : WF sb s) (hcwd : Cwd s p) (hP : ¬ Safe sb s → P) (hty : type ≠ 0)
    {major minor : UInt16} :
    Spec (create sb p path type major minor) s
      (MidPost sb (CreateOk sb s p path) (fun m => m.type = type ∨ type = T_FILE ∧ m.type = T_DEVICE) s) (Fault P) := by
  refine Spec.post (create_spec hl h hcwd (fun hc => hP fun hs => hc (hs.lookup hcwd path)) hty) ?_
  rintro r t ⟨hwf, htab, hr⟩
  cases r with
  | none =>
    refine ⟨hwf, htab, hr.1, fun _ => id, fun hc _ => ?_⟩
    obtain ⟨hct, hnode⟩ := hr.2 hc
    exact ⟨hct, by rw [hnode]; exact Effect.refl _ _ _⟩
  | some ip =>
    obtain ⟨hr, j, m, hlive, hdone⟩ := hr
    refine ⟨⟨hwf, htab, hr, fun k hk => le_add_single _ _ _ hk, fun hc hsp => ?_⟩, j, m, hlive, ?_⟩
    · cases hdone with
      | old _ _ tree =>
        obtain ⟨hct, hnode⟩ := tree hc
        exact ⟨hct, by rw [hnode]; exact Effect.refl _ _ _⟩
      | new i k name n _ tree =>
        have hroom : Roomy sb s p path type := fun _ i name n hw hn => by
          obtain ⟨n', hn', hd⟩ := walk_parent_dir hw
          rw [hn] at hn'
          cases hn'
          exact hsp i n hn hd
        obtain ⟨hct, hwalk, hcr⟩ := tree hc hroom
        exact ⟨hct, t.node sb, Or.inr (.create hcr ⟨i, name, rfl, hwalk⟩), .refl⟩
    · cases hdone with
      | old h1 h2 _ => exact h2.elim (fun h2 => Or.inl (h2.trans h1.symm)) fun h2 => Or.inr ⟨h1, h2⟩
      | new i k name n hm _ => exact Or.inl (by rw [hm]; rfl)

theorem Mid.put (hl : Layout sb) (h : Mid sb ok s (s.refs + Pi.single ip 1) t) (hlive : Live sb t ip j m) :
    Spec (iunlockput sb ip) t (fun _ u => Mid sb ok s s.refs u) (Fault P) :=
  Spec.post (iunlockput_spec hl h.wf hlive.ptr hlive.valid h.refs) fun _ _ hu => h.drop hlive.ptr hu fun _ => id

theorem Mid.end {α : Type} {a : α} (h : Mid sb ok s s.refs t) (ha : Acct s) :
    Spec (do endOp; return a) t (fun _ u => Keeps sb ok s u) (Fault P) :=
  Spec.bind_ok rfl (Spec.pure ((h.to (to_event t .endOp)).step ha))

theorem Mid.put_end {α : Type} {a : α} (hl : Layout sb) (h : Mid sb ok s (s.refs + Pi.single ip 1) t)
    (hlive : Live sb t ip j m) (ha : Acct s) :
    Spec (do iunlockput sb ip; endOp; return a) t (fun _ u => Keeps sb ok s u) (Fault P) :=
  Spec.bind (h.put hl hlive) fun _ _ hu => hu.end ha

theorem sysCreate_spec (hl : Layout sb) (h : WF sb s) (ha : Acct s) (hcwd : Cwd s p) (hP : ¬ Safe sb s → P)
    (hty : type ≠ 0) (major minor : UInt16) :
    Spec (sysCreate sb p (some path) type major minor) s (fun _ t => Keeps sb (CreateOk sb s p path) s t)
      (Fault P) := by
  refine Keeps.begin (CreateOk sb · p path) h ha (fun t hto => CreateOk.to hto) fun s0 hto h0 ha0 => ?_
  refine Spec.bind (create_mid hl h0 (hcwd.to hto) (fun hc => hP fun hs => hc (hs.to h hto)) hty) ?_
  intro r t ht
  cases r with
  | none => exact ht.end ha0
  | some ip =>
    obtain ⟨hmid, j, m, hlive, -⟩ := ht
    exact hmid.put_end hl hlive ha0

/-- what `sys_symlink` may do: create an inode, and write the target into it -/
def SymlinkOk (sb : Superblock) (s : St) (p : ℕ) (target path : List UInt8) (c : Change) : Prop :=
  CreateOk sb s p path c ∨ ∃ j m l, c = .write j m l ∧ l.length ≤ max m.bytes.length target.length

theorem SymlinkOk.to {target : List UInt8} (hto : To s t s.blk s.inode) (c : Change)
    (h : SymlinkOk sb t p target path c) :
    SymlinkOk sb s p target path c := h.imp_left (CreateOk.to hto c)

theorem sysSymlink_spec (hl : Layout sb) (h : WF sb s) (ha : Acct s) (hcwd : Cwd s p) (hP : ¬ Safe sb s → P)
    (target : List UInt8) :
    Spec (sysSymlink sb p (some target) (some path)) s (fun _ t => Keeps sb (SymlinkOk sb s p target path) s t)
      (Fault P) := by
  refine Keeps.begin (SymlinkOk sb · p target path) h ha (fun t hto => SymlinkOk.to hto) fun s0 hto h0 ha0 => ?_
  refine Spec.bind (create_mid hl h0 (hcwd.to hto) (fun hc => hP fun hs => hc (hs.to h hto)) (by decide)) ?_
  intro r t ht
  cases r with
  | none => exact (Mid.mono ht fun _ hc => Or.inl hc).end ha0
  | some ip =>
    obtain ⟨hmid, j, m, hlive, hm⟩ := ht
    replace hmid : Mid sb (SymlinkOk sb s0 p target path) s0 (s0.refs + Pi.single ip 1) t :=
      hmid.mono fun _ hc => Or.inl hc
    have hnd : m.type ≠ T_DIR := by
      rcases hm with hm | ⟨hm, -⟩
      · rw [hm]; decide
      · exact absurd hm (by decide)
    refine Spec.bind (writei_puts hl hmid.wf hlive (fun b hb => by cases hb; exact le_rfl) fun hd => absurd hd hnd) ?_
    rintro r u (⟨-, -, hu⟩ | ⟨x, l, -, hw, hu⟩)
    · exact (hmid.to hu).put_end hl (hlive.congr hu) ha0
    · refine (hmid.write hlive hnd hu (Or.inr ⟨j, m, _, rfl, ?_⟩)).put_end hl (hu.live hlive) ha0
      exact (length_written_le hw).trans (by rw [Nat.zero_add])

/-! ## Looking up -/

theorem Found.after (h : Same sb s t) (hf : Found sb ip i n t u) : Found sb ip i n s u :=
  Found.of (h.quiet.trans (h.refs ▸ hf.quiet)) (by rw [hf.refs, h.refs]) hf.live

theorem Safe.same (hs : Safe sb s) (h : Same sb s t) : Safe sb t := by
  obtain ⟨hc, hn⟩ := h.calm hs.calm
  exact hs.of_nodes hc fun i => by rw [hn]

theorem Cwd.same (hc : Cwd s p) (h : Same sb s t) : Cwd t p :=
  hc.tab h.quiet.tab fun k hk => by rw [h.refs]; exact hk

theorem openLoop_spec (hl : Layout sb) (h : WF sb s) (hcwd : Cwd s p) (hP : ¬ Safe sb s → P) (omode left : ℕ)
    (path : List UInt8) :
    Spec (openLoop sb p omode left path) s (fun r t => match r with
      | none => Same sb s t
      | some ip => ∃ i n, Found sb ip i n s t) (Fault P) := by
  induction left using Nat.strong_induction_on generalizing s path with
  | _ left ih =>
    unfold openLoop
    refine Spec.bind (namei_spec hl h hcwd hP) ?_
    intro r t ht
    cases r with
    | none => exact Spec.pure ⟨ht.1, ht.2⟩
    | some ip =>
      refine Spec.bind (ht.lock hP) ?_
      rintro _ u ⟨i, n, hf, -⟩
      refine Spec.bind_ok rfl (Spec.ite (fun _ => ?_) fun _ => Spec.pure ⟨i, n, hf⟩)
      cases left with
      | zero => exact Spec.bind (hf.put hl) fun _ v hv => Spec.pure hv
      | succ left =>
        refine Spec.bind (readi_node hf.quiet.wf hf.live (by decide)) ?_
        rintro r v ⟨hv, -⟩
        replace hv := hv.to
        have hfv : Found sb ip i n s v :=
          Found.of (hf.quiet.trans (Quiet.of_to hf.quiet.wf hv _)) ((refs_to hv).trans hf.refs) (hf.live.congr hv)
        refine Spec.bind (hfv.put hl) fun _ w hw => Spec.ite (fun _ => Spec.pure hw) fun _ => ?_
        refine Spec.post (ih left (Nat.lt_succ_self left) hw.quiet.wf (hcwd.same hw)
          (fun hc => hP fun hs => hc (hs.same hw)) _) ?_
        intro r x hx
        cases r with
        | none => exact hw.trans hx
        | some ip' =>
          obtain ⟨i', n', hx⟩ := hx
          exact ⟨i', n', hx.after hw⟩

/-! ## Open files -/

/-- no change that needs permission -/
abbrev NoChange : Change → Prop := fun _ => False

theorem File.uses_none (h : x.type = .none) (k : ℕ) : x.uses k = 0 := if_neg fun hc => hc.2.1 h

/-- two entries of the file table that hold the same reference -/
structure SameUse (x y : File) : Prop where
  type : x.type = y.type
  writable : x.writable = y.writable
  ip : x.type ≠ .none → x.ip = y.ip
  ref : x.type ≠ .none → (0 < x.ref ↔ 0 < y.ref)

theorem SameUse.uses {y : File} (h : SameUse x y) (k : ℕ) : x.uses k = y.uses k := by
  by_cases hn : x.type = .none
  · rw [File.uses_none hn, File.uses_none (h.type ▸ hn)]
  · unfold File.uses
    simp only [h.ref hn, h.type, h.ip hn]

theorem Acct.set_file (ha : Acct s) (hx : SameUse x (s.file f)) (hr : t.refs = s.refs)
    (hf : t.file = s.file.set f x) (hp : t.proc = s.proc) : Acct t := by
  refine ⟨fun k => ?_, fun g hg => ?_, fun g hg => ?_, by rw [hp]; exact ha.procs⟩
  · rw [hr, procUses_congr hp, fileUses_congr (t := t) (s := { s with file := s.file.set f x }) hf,
      fileUses_same hx.uses]
    exact ha.refs k
  · rw [hf] at hg ⊢
    by_cases hgf : g = f
    · rw [hgf, Store.set_self] at hg ⊢
      by_contra hn
      have h0 : (s.file f).ref = 0 := by have := hx.ref hn; omega
      exact hn (hx.type.trans (ha.idle f h0))
    · rw [Store.set_ne _ _ hgf] at hg ⊢
      exact ha.idle g hg
  · rw [hf]
    by_cases hgf : g = f
    · rw [hgf, Store.set_self]
      exact hx.type.trans (ha.files f (hgf ▸ hg))
    · rw [Store.set_ne _ _ hgf]
      exact ha.files g hg

theorem SameUse.kept (hx : SameUse x (s.file f)) (g : ℕ) (hty : (s.file.set f x g).type = .inode)
    (hw : (s.file.set f x g).writable = true) :
    (s.file g).type = .inode ∧ (s.file g).writable = true ∧ (s.file.set f x g).ip = (s.file g).ip := by
  by_cases hg : g = f
  · subst hg
    rw [Store.set_self] at hty hw ⊢
    exact ⟨hx.type ▸ hty, hx.writable ▸ hw, hx.ip (by rw [hty]; nofun)⟩
  · rw [Store.set_ne _ _ hg] at hty hw ⊢
    exact ⟨hty, hw, rfl⟩

theorem Step.set_file (h : WF sb s) (ha : Acct s) (hx : SameUse x (s.file f)) :
    Step sb NoChange s { s with file := s.file.set f x } :=
  (((Mid.refl h).files (s.file.set f x) s.proc).step_files ha (ha.set_file hx rfl rfl rfl) fun g hty hw =>
    Or.inl (hx.kept g hty hw)).toStep

theorem Acct.close (ha : Acct s) (hty : (s.file f).type ≠ .none) (hx : x.type = .none)
    (hr : ∀ k, t.refs k + (Pi.single (s.file f).ip 1 : ℕ → ℕ) k = s.refs k) (hf : t.file = s.file.set f x)
    (hp : t.proc = s.proc) : Acct t := by
  have hlt : f < NFILE := by
    by_contra hc
    exact hty (ha.files f (by omega))
  refine ⟨fun k => ?_, fun g hg => ?_, fun g hg => ?_, by rw [hp]; exact ha.procs⟩
  · have h1 := fileUses_set (s := s) hlt x k
    have h2 := ha.refs k
    have h3 : (s.file f).uses k = (Pi.single (s.file f).ip 1 : ℕ → ℕ) k := by
      by_cases hk : k = (s.file f).ip
      · rw [hk, Pi.single_eq_same, File.uses_of (ha.idle f) hty]
      · rw [Pi.single_eq_of_ne hk, File.uses, if_neg fun hc => hk hc.2.2.symm]
    have h4 := hr k
    rw [File.uses_none hx] at h1
    rw [procUses_congr hp, fileUses_congr (t := t) (s := { s with file := s.file.set f x }) hf]
    omega
  · rw [hf] at hg ⊢
    by_cases hgf : g = f
    · rw [hgf, Store.set_self]; exact hx
    · rw [Store.set_ne _ _ hgf] at hg ⊢
      exact ha.idle g hg
  · rw [hf, Store.set_ne _ _ (by omega)]
    exact ha.files g hg

theorem kept_of_close (hx : x.type = .none) (g : ℕ) (hty : (s.file.set f x g).type = .inode)
    (hw : (s.file.set f x g).writable = true) :
    (s.file g).type = .inode ∧ (s.file g).writable = true ∧ (s.file.set f x g).ip = (s.file g).ip := by
  have hg : g ≠ f := by
    rintro rfl
    rw [Store.set_self, hx] at hty; cases hty
  rw [Store.set_ne _ _ hg] at hty hw ⊢
  exact ⟨hty, hw, rfl⟩

theorem sub_single (hk : 0 < F k) : F = (fun x => F x - (Pi.single k 1 : ℕ → ℕ) x) + Pi.single k 1 := by
  funext x
  rw [Pi.add_apply]
  by_cases hx : x = k
  · subst hx
    simp only [Pi.single_eq_same]
    omega
  · simp [Pi.single_eq_of_ne hx]

theorem fileclose_spec (hl : Layout sb) (h : WF sb s) (ha : Acct s) (f : ℕ) :
    Spec (fileclose sb f) s (fun _ t => Step sb NoChange s t ∧ t.proc = s.proc) (Fault P) := by
  unfold fileclose
  refine Spec.bind_ok rfl (Spec.ite (fun _ => Spec.throw ⟨nofun, nofun⟩) fun h1 => Spec.ite (fun h2 => ?_) fun h2 => ?_)
  · -- other descriptors refer to the file
    refine Spec.of_ok rfl ⟨Step.set_file h ha ⟨rfl, rfl, fun _ => rfl, fun _ => ?_⟩, rfl⟩
    simp only
    omega
  set x : File := { s.file f with ref := 0, type := .none } with hx
  refine Spec.bind_ok rfl (Spec.ite (fun h3 => ?_) fun h3 => ?_)
  · -- the last one, and the file is an inode
    have hty : (s.file f).type ≠ .none := by rcases h3 with h3 | h3 <;> rw [h3] <;> nofun
    have hpos := ha.file_pos hty
    have hmid := ((Mid.refl h : Mid sb NoChange s s.refs s).files (s.file.set f x) s.proc).to
      (to_event { s with file := s.file.set f x } .beginOp)
    have hsF := sub_single hpos
    rw [hsF] at hmid
    have hptr := hmid.wf.ptr (k := (s.file f).ip) hpos
    refine Spec.bind_ok rfl (Spec.bind (iput_spec hl hmid.wf hptr hmid.refs) fun _ t ht => ?_)
    have htf : t.file = s.file.set f x := ht.quiet.tab.file
    have htp : t.proc = s.proc := ht.quiet.tab.proc
    refine Spec.of_ok rfl (show Step sb NoChange s { t with trace := t.trace ++ [.endOp] } ∧ _ from ⟨?_, htp⟩)
    refine hmid.release hptr ht rfl rfl ha (ha.close hty rfl (fun k => ?_) htf htp) fun g hg hw => ?_
    · show t.refs k + _ = _
      rw [ht.refs]
      exact (congrFun hsF k).symm
    · simp only [htf] at hg hw ⊢
      exact kept_of_close rfl g hg hw
  · -- a file that is not an inode
    have hnone : (s.file f).type = .none := by
      cases hty : (s.file f).type with
      | none => rfl
      | inode => exact absurd (Or.inl hty) h3
      | device => exact absurd (Or.inr hty) h3
    exact Spec.of_ok rfl ⟨Step.set_file h ha ⟨hnone.symm, rfl, fun hc => absurd rfl hc, fun hc => absurd rfl hc⟩, rfl⟩

/-! ## `open` -/

theorem filealloc_spec :
    Spec filealloc s (fun r t => match r with
      | none => t = s
      | some f => f < NFILE ∧ (s.file f).ref = 0 ∧ t = { s with file := s.file.set f { s.file f with ref := 1 } })
          E := by
  unfold filealloc
  refine Spec.bind_ok rfl ?_
  split
  · exact Spec.pure rfl
  · rename_i f hf
    have hmem := List.mem_of_find?_eq_some hf
    have hprop := List.find?_some hf
    exact Spec.of_ok rfl ⟨List.mem_range.1 hmem, by simpa using hprop, rfl⟩

theorem fdalloc_spec :
    Spec (fdalloc p f) s (fun r t => match r with
      | none => t = s
      | some _ => ∃ x : Proc, x.cwd = (s.proc p).cwd ∧ t = { s with proc := s.proc.set p x }) E := by
  unfold fdalloc
  refine Spec.bind_ok rfl ?_
  split
  · exact Spec.pure rfl
  · rename_i fd _
    exact Spec.of_ok rfl ⟨{ s.proc p with ofile := Function.update (s.proc p).ofile fd (some f) }, rfl, rfl⟩

theorem Acct.set_proc (ha : Acct s) {x : Proc} (hx : x.cwd = (s.proc p).cwd) (hr : t.refs = s.refs)
    (hf : t.file = s.file) (hp : t.proc = s.proc.set p x) : Acct t := by
  refine ⟨fun k => ?_, by rw [hf]; exact ha.idle, by rw [hf]; exact ha.files, fun q hq => ?_⟩
  · rw [hr, fileUses_congr hf, procUses_congr (t := t) (s := { s with proc := s.proc.set p x }) hp, procUses_same hx]
    exact ha.refs k
  · rw [hp]
    by_cases hqp : q = p
    · rw [hqp, Store.set_self, hx]; exact ha.procs p (hqp ▸ hq)
    · rw [Store.set_ne _ _ hqp]; exact ha.procs q hq

theorem Step.set_proc (h : WF sb s) (ha : Acct s) {x : Proc} (hx : x.cwd = (s.proc p).cwd) :
    Step sb NoChange s { s with proc := s.proc.set p x } :=
  (((Mid.refl h).files s.file (s.proc.set p x)).step_files ha (ha.set_proc hx rfl rfl rfl) fun _ hty hw =>
    Or.inl ⟨hty, hw, rfl⟩).toStep

theorem Acct.open (ha : Acct s) {y : Proc} (h0 : (s.file f).ref = 0) (hlt : f < NFILE) (hx : 0 < x.ref)
    (hty : x.type ≠ .none) (hy : y.cwd = (s.proc p).cwd) (hr : t.refs = s.refs + Pi.single x.ip 1)
    (hf : t.file = s.file.set f x) (hp : t.proc = s.proc.set p y) : Acct t := by
  refine ⟨fun k => ?_, fun g hg => ?_, fun g hg => ?_, fun q hq => ?_⟩
  · have h1 := fileUses_set (s := s) hlt x k
    have h2 := ha.refs k
    have h3 : x.uses k = (Pi.single x.ip 1 : ℕ → ℕ) k := by
      by_cases hk : k = x.ip
      · rw [hk, Pi.single_eq_same, File.uses, if_pos ⟨hx, hty, rfl⟩]
      · rw [Pi.single_eq_of_ne hk, File.uses, if_neg fun hc => hk hc.2.2.symm]
    rw [File.uses_none (ha.idle f h0)] at h1
    rw [fileUses_congr (t := t) (s := { s with file := s.file.set f x }) hf,
      procUses_congr (t := t) (s := { s with proc := s.proc.set p y }) hp, procUses_same hy, hr, Pi.add_apply]
    omega
  · rw [hf] at hg ⊢
    by_cases hgf : g = f
    · rw [hgf, Store.set_self] at hg; omega
    · rw [Store.set_ne _ _ hgf] at hg ⊢
      exact ha.idle g hg
  · rw [hf, Store.set_ne _ _ (by omega)]
    exact ha.files g hg
  · rw [hp]
    by_cases hqp : q = p
    · rw [hqp, Store.set_self, hy]; exact ha.procs p (hqp ▸ hq)
    · rw [Store.set_ne _ _ hqp]; exact ha.procs q hq

theorem fileclose_fresh (h0 : (s.file f).type = .none) :
    fileclose sb f { s with file := s.file.set f { s.file f with ref := 1 } } =
      .ok ((), { s with file := s.file.set f { s.file f with ref := 0, type := .none } }) := by
  unfold fileclose
  rw [Core.bind_ok (m := getFile f) rfl]
  simp only [Store.set_self, h0]
  rw [if_neg (by omega), if_neg (by omega), Core.bind_ok rfl, if_neg (by simp)]
  simp only [Store.set_set]
  rfl

theorem Mid.open_fail (hl : Layout sb) (h : Mid sb ok s (s.refs + Pi.single ip 1) t) (hlive : Live sb t ip j m)
    (ha : Acct s) (h0 : (s.file f).ref = 0) :
    Spec (do fileclose sb f; openFail sb ip) { t with file := t.file.set f { t.file f with ref := 1 } }
      (fun _ u => Keeps sb ok s u) (Fault P) := by
  have hfile := h.tab.file
  have hnone := ha.idle f h0
  refine Spec.bind_ok (fileclose_fresh (by rw [hfile]; exact hnone)) ?_
  set x : File := { t.file f with ref := 0, type := .none } with hx
  have hmid := h.files (t.file.set f x) t.proc
  refine Spec.bind (hmid.put hl ⟨hlive.ptr, hlive.valid, hlive.node⟩) fun _ u hu => Spec.bind_ok rfl (Spec.pure ?_)
  have huf : u.file = s.file.set f x := by rw [hu.tab.file, hfile]
  have hup : u.proc = s.proc := by rw [hu.tab.proc]; exact h.tab.proc
  have hsame : SameUse x (s.file f) :=
    ⟨hnone.symm, by rw [hx, hfile], fun hc => absurd rfl hc, fun hc => absurd rfl hc⟩
  refine (hu.to (to_event u .endOp)).step_files ha (ha.set_file hsame hu.refs huf hup) fun g hg hw => Or.inl ?_
  simp only [huf] at hg hw ⊢
  exact hsame.kept g hg hw

theorem Mid.open_done {omode fd : ℕ} {y : Proc} (hl : Layout sb)
    (h : Mid sb ok s (s.refs + Pi.single ip 1) t) (hlive : Live sb t ip j m) (ha : Acct s) (h0 : (s.file f).ref = 0)
    (hlt : f < NFILE) (hx : 0 < x.ref) (hty : x.type ≠ .none) (hip : x.ip = ip)
    (hdir : x.writable = true → m.type ≠ T_DIR) (hy : y.cwd = (s.proc p).cwd)
    (hok : omode.testBit O_TRUNC = true ∧ m.type = T_FILE ∧ omode.testBit O_APPEND = false → ok (.write j m [])) :
    Spec (do
      if omode.testBit O_TRUNC ∧ m.type = T_FILE ∧ omode.testBit O_APPEND = false then itrunc sb ip
      iunlock ip
      endOp
      return some fd) { t with file := t.file.set f x, proc := t.proc.set p y }
      (fun _ u => Keeps sb ok s u) (Fault P) := by
  subst hip
  have hmid := h.files (t.file.set f x) (t.proc.set p y)
  have hlive' : Live sb { t with file := t.file.set f x, proc := t.proc.set p y } x.ip j m :=
    ⟨hlive.ptr, hlive.valid, hlive.node⟩
  -- the content may have been dropped
  have hend : ∀ (u : St) (m' : Node), m'.type = m.type → Live sb u x.ip j m' →
      Mid sb ok { s with file := t.file.set f x, proc := t.proc.set p y } (s.refs + Pi.single x.ip 1) u →
      Spec (do iunlock x.ip; endOp; return some fd) u (fun _ u => Keeps sb ok s u) (Fault P) := by
    intro u m' hm' hlu hu
    refine Spec.bind (iunlock_spec hu.wf hlu.ptr hlu.valid) fun _ v hv => Spec.bind_ok rfl (Spec.pure ?_)
    have hlv := hlu.quiet hv.quiet hlu.ptr.2.1 (by rw [hv.refs]; exact hlu.ptr.2.1)
    have hmv := hu.loaded hv
    have hvf : v.file = s.file.set f x := by rw [hmv.tab.file, h.tab.file]
    have hvp : v.proc = s.proc.set p y := by rw [hmv.tab.proc, h.tab.proc]
    refine (hmv.to (to_event v .endOp)).step_files ha (ha.open h0 hlt hx hty hy hmv.refs hvf hvp) fun g hg hw => ?_
    simp only [hvf] at hg hw ⊢
    by_cases hgf : g = f
    · subst hgf
      rw [Store.set_self] at hw ⊢
      refine Or.inr fun n hn => ?_
      rw [hlv.ptr.2.2] at hn
      have := hlv.node
      rw [show v.node sb j = some n from hn] at this
      cases this
      rw [hm']; exact hdir hw
    · rw [Store.set_ne _ _ hgf] at hg hw ⊢
      exact Or.inl ⟨hg, hw, rfl⟩
  refine Spec.ite (fun hc => ?_) fun _ => hend _ m rfl hlive' hmid
  refine Spec.bind (itrunc_live hl hmid.wf hlive') fun _ u hu => ?_
  have hnd : m.type ≠ T_DIR := by rw [hc.2.1]; decide
  exact hend u { m with bytes := [] } rfl (hu.live hlive') (hmid.write hlive' hnd hu (hok hc))

theorem Mid.open_finish {omode : ℕ} (hl : Layout sb) (h : Mid sb ok s (s.refs + Pi.single ip 1) t)
    (hlive : Live sb t ip j m) (ha : Acct s) (hdir : m.type = T_DIR → omode = 0)
    (hok : omode.testBit O_TRUNC = true ∧ m.type = T_FILE ∧ omode.testBit O_APPEND = false → ok (.write j m [])) :
    Spec (openFinish sb p omode ip) t (fun _ u => Keeps sb ok s u) (Fault P) := by
  have hput : Spec (openFail sb ip) t (fun _ u => Keeps sb ok s u) (Fault P) := h.put_end hl hlive ha
  have hdin := hlive.din h.wf
  unfold openFinish
  refine Spec.bind_ok rfl (Spec.ite (fun _ => hput) fun _ => ?_)
  refine Spec.bind filealloc_spec ?_
  intro r u hu
  cases r with
  | none =>
    subst hu
    exact hput
  | some f =>
    obtain ⟨hlt, h0, rfl⟩ := hu
    rw [h.tab.file] at h0
    refine Spec.bind fdalloc_spec ?_
    intro r v hv
    cases r with
    | none =>
      subst hv
      exact h.open_fail hl hlive ha h0
    | some fd =>
      obtain ⟨y, hy, rfl⟩ := hv
      refine Spec.bind_ok rfl (Spec.bind_ok rfl ?_)
      rw [hdin.1]
      simp only [Store.set_self, Store.set_set]
      refine h.open_done hl hlive ha h0 hlt Nat.one_pos ?_ rfl (fun hw hd => ?_) (by rw [hy, h.tab.proc]) hok
      · simp only
        split_ifs <;> nofun
      · simp only [hdir hd] at hw
        simp at hw

/-- what `sys_open` may do: create the file, or drop the content of one, if the mode says so -/
def OpenOk (sb : Superblock) (s : St) (p : ℕ) (path : List UInt8) (omode : ℕ) (c : Change) : Prop :=
  omode.testBit O_CREATE = true ∧ CreateOk sb s p path c ∨
    ∃ j m, c = .write j m [] ∧ omode.testBit O_TRUNC = true ∧ m.type = T_FILE ∧ omode.testBit O_APPEND = false

theorem sysOpen_spec (hl : Layout sb) (h : WF sb s) (ha : Acct s) (hcwd : Cwd s p) (hP : ¬ Safe sb s → P) (omode : ℕ) :
    Spec (sysOpen sb p (some path) omode) s (fun _ t => Keeps sb (OpenOk sb s p path omode) s t) (Fault P) := by
  refine Keeps.begin (OpenOk sb · p path omode) h ha (fun t hto c hc => hc.imp_left fun hc => ⟨hc.1, hc.2.to hto⟩)
    fun s0 hto h0 ha0 => ?_
  have hP0 : ¬ Safe sb s0 → P := fun hc => hP fun hs => hc (hs.to h hto)
  refine Spec.ite (fun hcreate => ?_) fun _ => ?_
  · refine Spec.bind (create_mid hl h0 (hcwd.to hto) hP0 (by decide)) ?_
    have hmono : ∀ c, CreateOk sb s0 p path c → OpenOk sb s0 p path omode c := fun _ hc => Or.inl ⟨hcreate, hc⟩
    intro r t ht
    cases r with
    | none => exact (Mid.mono ht hmono).end ha0
    | some ip =>
      obtain ⟨hmid, j, m, hlive, hm⟩ := ht
      refine (hmid.mono hmono).open_finish hl hlive ha0 (fun hd => ?_) fun hc => Or.inr ⟨j, m, rfl, hc⟩
      rcases hm with hm | ⟨-, hm⟩ <;> rw [hm] at hd <;> exact absurd hd (by decide)
  · refine Spec.bind (openLoop_spec hl h0 (hcwd.to hto) hP0 omode 10 path) ?_
    intro r t ht
    cases r with
    | none => exact ((Mid.refl h0).same ht).end ha0
    | some ip =>
      obtain ⟨i, n, hf⟩ := ht
      have hmid : Mid sb (OpenOk sb s0 p path omode) s0 (s0.refs + Pi.single ip 1) t := (Mid.refl h0).found hf
      refine Spec.bind_ok rfl (Spec.ite (fun _ => hmid.put_end hl hf.live ha0) fun hd => ?_)
      refine hmid.open_finish hl hf.live ha0 (fun hdir => ?_) fun hc => Or.inr ⟨i, n, rfl, hc⟩
      rw [(hf.live.din hf.quiet.wf).1] at hd
      by_contra hne
      exact hd ⟨hdir, hne⟩

/-! ## `chdir` -/

theorem uses_cwd {x : Proc} (hx : x.cwd = some k) (i : ℕ) : x.uses i = (Pi.single k 1 : ℕ → ℕ) i := by
  by_cases hi : i = k
  · rw [hi, Pi.single_eq_same, Proc.uses, if_pos hx]
  · rw [Pi.single_eq_of_ne hi, Proc.uses, if_neg]
    rw [hx]
    exact fun hc => hi (Option.some.inj hc).symm

theorem uses_no_cwd {x : Proc} (hx : x.cwd = none) (i : ℕ) : x.uses i = 0 := by
  rw [Proc.uses, if_neg]
  rw [hx]
  exact (Option.some_ne_none _).symm

/-- a process is replaced by another one; G and H are the references of its current directory -/
theorem Acct.replace (ha : Acct s) {x : Proc} {H : ℕ → ℕ} (hlt : p < NPROC) (hG : ∀ i, (s.proc p).uses i = G i)
    (hH : ∀ i, x.uses i = H i) (hr : ∀ i, t.refs i + G i = s.refs i + H i) (hf : t.file = s.file)
    (hp : t.proc = s.proc.set p x) : Acct t := by
  refine ⟨fun i => ?_, by rw [hf]; exact ha.idle, by rw [hf]; exact ha.files, fun q hq => ?_⟩
  · have h1 := procUses_set (s := s) hlt x i
    rw [hG, hH] at h1
    have h2 := ha.refs i
    have h3 := hr i
    rw [fileUses_congr hf, procUses_congr (t := t) (s := { s with proc := s.proc.set p x }) hp]
    omega
  · rw [hp, Store.set_ne _ _ (by omega)]
    exact ha.procs q hq

theorem sysChdir_spec (hl : Layout sb) (h : WF sb s) (ha : Acct s) (hcwd : Cwd s p) (hP : ¬ Safe sb s → P) :
    Spec (sysChdir sb p (some path)) s (fun _ t => Step sb NoChange s t) (Fault P) := by
  unfold sysChdir
  refine Spec.bind_ok rfl ?_
  refine Step.begin (fun _ => NoChange) h ha (fun _ _ _ => id) fun s0 hto h0 ha0 => ?_
  have hP0 : ¬ Safe sb s0 → P := fun hc => hP fun hs => hc (hs.to h hto)
  have hcwd0 := hcwd.to hto
  refine Spec.bind (namei_spec hl h0 hcwd0 hP0) ?_
  intro r t ht
  cases r with
  | none => exact Spec.post (((Mid.refl h0).same ⟨ht.1, ht.2⟩).end ha0) fun _ _ hu => hu.toStep
  | some ip =>
    refine Spec.bind (ht.lock hP0) ?_
    rintro _ u ⟨i, n, hf, -⟩
    have hmid : Mid sb NoChange s0 (s0.refs + Pi.single ip 1) u := (Mid.refl h0).found hf
    refine Spec.bind_ok rfl (Spec.ite (fun _ =>
      Spec.post (hmid.put_end hl hf.live ha0) fun _ _ hu => hu.toStep) fun _ => ?_)
    refine Spec.bind (iunlock_spec hmid.wf hf.live.ptr hf.live.valid) fun _ v hv => ?_
    have hmv := hmid.loaded hv
    -- the old directory
    obtain ⟨k, i0, hk, hpk⟩ := hcwd0
    have hks : (s.proc p).cwd = some k := by rw [← hto.proc]; exact hk
    have hlt : p < NPROC := by
      by_contra hc
      rw [ha0.procs p (by omega)] at hk; cases hk
    have hpv : Ptr v k i0 := hmv.tab.ptr hpk.2.1 (hmv.le_refs hpk.2.1) hpk
    have hsF := sub_single (F := s0.refs + Pi.single ip 1) (k := k) (le_add_single _ _ _ hpk.2.1)
    rw [hsF] at hmv
    rw [hks]
    refine Spec.bind (iput_spec hl hmv.wf hpv hmv.refs) fun _ w hw => Spec.bind_ok rfl (Spec.of_ok rfl ?_)
    have hwf : w.file = s0.file := hw.quiet.tab.file.trans hmv.tab.file
    have hwp : w.proc = s0.proc := hw.quiet.tab.proc.trans hmv.tab.proc
    have hmv' : Mid sb NoChange { s0 with file := s0.file, proc := s0.proc } _ v := hmv
    refine hmv'.release hpv hw rfl rfl ha0 (ha0.replace hlt (fun _ => uses_cwd hk _)
      (x := { s.proc p with cwd := some ip }) (fun _ => uses_cwd rfl _) (fun i => ?_) hwf (by rw [← hwp]))
        fun g hg hgw => ?_
    · show w.refs i + _ = _
      rw [hw.refs]
      exact (congrFun hsF i).symm
    · simp only [hwf] at hg hgw ⊢
      exact ⟨hg, hgw, trivial⟩

end Xv6.Fs
