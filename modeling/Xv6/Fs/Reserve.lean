/-
Every call fits its log reservation.

`begin_op` reserves MAXOPBLOCKS blocks of the log for a call. On a disk with one block of free map, a call logs the free
map, the blocks of two inodes and at most seven blocks more.

- `call_fits_reservation`: so it is in every well-formed state and on every exit, and in every step of `ireclaim`.
-/
import Xv6.Fs.Spends

namespace Xv6.Fs

open Xv6.Core

variable {sb : Superblock} {s t u : St} {R : Finset ℕ} {k ip dp i j p f : ℕ} {n m : Node} {F : ℕ → ℕ} {e : Ev}
  {name path : List UInt8} {α : Type}

def Ev.logBlock : Ev → Option ℕ
  | .logWrite b => some b
  | .beginOp | .endOp | .bread _ | .store _ _ | .brelse _ => none

/-- the blocks passed to `log_write` -/
def logged (es : List Ev) : Finset ℕ := (es.filterMap Ev.logBlock).toFinset

theorem mem_logged {es : List Ev} {b : ℕ} : b ∈ logged es ↔ Ev.logWrite b ∈ es := by
  simp only [logged, List.mem_toFinset, List.mem_filterMap]
  constructor
  · rintro ⟨e, he, hb⟩
    cases e <;> cases hb
    exact he
  · exact fun h => ⟨_, h, rfl⟩

/-- what a call may log -/
def Fits (sb : Superblock) (s t : St) : Prop := ∃ i j, Spends (metas sb i j) 7 s t

theorem Fits.card (h : Fits sb s t) : ∃ es, t.trace = s.trace ++ es ∧ (logged es).card ≤ MAXOPBLOCKS := by
  obtain ⟨i, j, D, hD, es, ht, he⟩ := h
  have hsub : logged es ⊆ metas sb i j ∪ D := fun b hb => he b (mem_logged.1 hb)
  have hmetas : (metas sb i j).card ≤ 3 := Finset.card_le_three
  refine ⟨es, ht, ?_⟩
  calc (logged es).card ≤ (metas sb i j ∪ D).card := Finset.card_le_card hsub
    _ ≤ (metas sb i j).card + D.card := Finset.card_union_le _ _
    _ ≤ 3 + 7 := Nat.add_le_add hmetas hD

theorem Spends.fits (h : Spends (metas sb i j) k s t) (hk : k ≤ 7) : Fits sb s t :=
  ⟨i, j, h.mono (Finset.Subset.refl _) hk⟩

theorem Logs.fits (h : Logs (metas sb i j) s t) : Fits sb s t := h.spends.fits (Nat.zero_le _)

theorem Looks.fits (h : Looks s t) : Fits sb s t := (h.logs (metas sb 0 0)).fits

/-- `begin_op` and `end_op` -/
def Ev.isMark : Ev → Bool
  | .beginOp | .endOp => true
  | .bread _ | .store _ _ | .logWrite _ | .brelse _ => false

theorem Logs.mark (he : e.isMark = true) (R : Finset ℕ) (s : St) : Logs R s { s with trace := s.trace ++ [e] } :=
  Logs.event (fun b hb => by rw [hb] at he; cases he) R s

theorem Fits.begin (h : Fits sb { s with trace := s.trace ++ [.beginOp] } t) : Fits sb s t := by
  obtain ⟨i, j, h⟩ := h
  refine ⟨i, j, ?_⟩
  have := (Logs.mark (e := .beginOp) rfl (metas sb i j) s).spends.trans h
  rwa [Nat.zero_add] at this

theorem Fits.end {a : α} (h : Fits sb s t) :
    Spec (do endOp; return a) t (fun _ u => Fits sb s u) fun _ => True := by
  obtain ⟨i, j, h⟩ := h
  exact Spec.bind_ok rfl (Spec.pure ⟨i, j, h.logs (Logs.mark rfl _ t)⟩)

/-! ## Dropping and truncating -/

section

variable (hl : Layout sb) (hone : sb.size ≤ BPB) (h : WF sb s)
include hl hone h

theorem fits_put_end {s0 : St} {a : α} (hn : Live sb s ip i n) (hs : Spends (metas sb j i) k s0 s) (hk : k ≤ 7) :
    Spec (do iunlockput sb ip; endOp; return a) s (fun _ t => Fits sb s0 t) fun _ => True :=
  Spec.bind (logs_iunlockput hl hone h hn.ptr hn.valid) fun _ _ ht =>
    ((hs.logs (ht.mono (right_metas sb j i))).fits hk).end

theorem logs_itrunc (hn : Live sb s ip i n) :
    Spec (itrunc sb ip) s (fun _ t => Logs {sb.bmapstart, iblock sb i} s t) fun _ => True := by
  obtain ⟨hc, ht⟩ := h.coherent ip i hn.ptr hn.valid
  rw [← hc] at ht
  refine Spec.post (itrunc_shed hl (h.range ip i hn.ptr) ht hn.ptr.2.2 (h.good_ptr hn.ptr hn.valid).own) ?_
  rintro - t ⟨-, -, -, -, hed⟩
  exact hed.logs.mono (mapBlocks_one hone i)

theorem fits_fileclose (ha : Acct s) (f : ℕ) : Spec (fileclose sb f) s (fun _ t => Fits sb s t) fun _ => True := by
  have hfile : ∀ x : File, Looks s { s with file := s.file.set f x } := fun x => Looks.tables s s.inode _ s.proc
  unfold fileclose
  refine Spec.bind_ok rfl (Spec.ite (fun _ => Spec.throw trivial) fun _ => Spec.ite (fun _ => ?_) fun _ => ?_)
  · exact Spec.of_ok rfl (hfile _).fits
  refine Spec.bind_ok rfl (Spec.ite (fun hty => ?_) fun _ => Spec.of_ok rfl (hfile _).fits)
  have hpos : 0 < s.refs (s.file f).ip := ha.file_pos (by rcases hty with hty | hty <;> rw [hty] <;> nofun)
  set x : File := { s.file f with ref := 0, type := .none }
  set s1 : St := { s with file := s.file.set f x, trace := s.trace ++ [.beginOp] }
  have hwf : WF sb s1 := h.of_eq rfl rfl
  refine Spec.bind_ok (t := s1) rfl (Spec.bind (logs_iput hl hone hwf (hwf.ptr hpos)) fun _ t ht => ?_)
  have hlog : Spends (metas sb (s.inode (s.file f).ip).inum (s.inode (s.file f).ip).inum) 0 s1 t :=
    (ht.mono (left_metas sb _ _)).spends
  have hall := (hfile x).then ((Logs.mark (e := .beginOp) rfl _ _).spends.trans hlog)
  exact Spec.of_ok rfl ((hall.logs (Logs.mark (e := .endOp) rfl _ t)).fits (by decide))

end

/-! ## `open` -/

section

variable (hl : Layout sb) (hone : sb.size ≤ BPB) (h : WF sb s)
include hl hone h

theorem fits_openFinish {s0 : St} {omode : ℕ} (hn : Live sb s ip i n) (hs : Spends (metas sb j i) k s0 s) (hk : k ≤ 7)
    (hidle : ∀ f, (s.file f).ref = 0 → (s.file f).type = .none) :
    Spec (openFinish sb p omode ip) s (fun _ t => Fits sb s0 t) fun _ => True := by
  have hput : ∀ file : Store File, Spec (openFail sb ip) { s with file := file } (fun _ t => Fits sb s0 t)
    fun _ => True :=
    fun file => fits_put_end (s := { s with file := file }) hl hone (h.of_eq rfl rfl) ⟨hn.ptr, hn.valid, hn.node⟩
      (hs.looks (Looks.tables s s.inode file s.proc)) hk
  unfold openFinish
  refine Spec.bind_ok rfl (Spec.ite (fun _ => hput s.file) fun _ => Spec.bind filealloc_spec ?_)
  intro r t ht
  cases r with
  | none =>
    rw [ht]; exact hput s.file
  | some f =>
    obtain ⟨-, h0, rfl⟩ := ht
    refine Spec.bind fdalloc_spec ?_
    intro r u hu
    cases r with
    | none =>
      rw [hu]; exact Spec.bind_ok (fileclose_fresh (hidle f h0)) (hput _)
    | some fd =>
      obtain ⟨y, -, rfl⟩ := hu
      refine Spec.bind_ok rfl (Spec.bind_ok rfl ?_)
      -- the file table and the descriptors have changed
      have hend : ∀ u : St, Spends (metas sb j i) k s0 u →
          Spec (do iunlock ip; endOp; return some fd) u (fun _ v => Fits sb s0 v) fun _ => True := fun u hu =>
        Spec.bind looks_iunlock fun _ v hv => ((hu.looks hv).fits hk).end
      have htab : ∀ file proc, Spends (metas sb j i) k s0 { s with file := file, proc := proc } := fun file proc =>
        hs.looks (Looks.tables s s.inode file proc)
      refine Spec.ite (fun _ => ?_) fun _ => hend _ (htab _ _)
      refine Spec.bind (logs_itrunc hl hone (h.of_eq rfl rfl) ⟨hn.ptr, hn.valid, hn.node⟩) fun _ u hu => hend u ?_
      exact (htab _ _).logs (hu.mono (right_metas sb j i))

end

/-! ## Lookups -/

/-- a well-formed state in which process p makes a call -/
structure Ready (sb : Superblock) (s : St) (p : ℕ) : Prop where
  wf : WF sb s
  acct : Acct s
  calm : Calm sb s
  cwd : Cwd s p

theorem Ready.begin {body : FsM α} (h : Ready sb s p)
    (hm : ∀ t, t.proc = s.proc → Ready sb t p → Spec body t (fun _ u => Fits sb t u) fun _ => True) :
    Spec (do beginOp; body) s (fun _ u => Fits sb s u) fun _ => True := by
  have hto := to_event s .beginOp
  have hr : Ready sb { s with trace := s.trace ++ [.beginOp] } p :=
    ⟨h.wf.congr hto, h.acct.to hto, h.calm.to h.wf hto, h.cwd.to hto⟩
  exact Spec.bind_ok rfl (Spec.post (hm _ rfl hr) fun _ u hu => hu.begin)

theorem Ready.namei (hl : Layout sb) (h : Ready sb s p) (path : List UInt8) :
    Spec (namei sb p path) s (fun r t => Looks s t ∧ NameiPost sb p path s r t) fun _ => True := by
  have hlook : Spec (Fs.namei sb p path) s (fun _ t => Looks s t) fun _ => True := by
    unfold Fs.namei
    exact Spec.bind (looks_namex hl h.wf h.cwd h.calm.held path false) fun _ t ht => Spec.pure ht
  exact hlook.and (namei_spec (P := True) hl h.wf h.cwd fun _ => trivial)

theorem NameiPost.looks (h : NameiPost sb p path s (some ip) t) :
    Spec (ilock sb ip) t (fun _ u => Looks t u ∧ ∃ i n, Found sb ip i n s u) fun _ => True := by
  have href : 0 < (t.inode ip).ref := by
    obtain ⟨i, -, hptr, -⟩ := h
    exact hptr.2.1
  have hlook : Spec (ilock sb ip) t (fun _ u => Looks t u) fun _ => True :=
    (looks_ilock href).mono (fun _ _ hu => hu.1) fun _ _ => trivial
  refine Spec.post (hlook.and (h.lock (P := True) fun _ => trivial)) ?_
  rintro _ u ⟨hu, i, n, hf, -⟩
  exact ⟨hu, i, n, hf⟩

theorem Found.looks (hl : Layout sb) (h : Found sb ip i n s t) (hc : Calm sb s) :
    Spec (iunlockput sb ip) t (fun _ u => Looks t u ∧ Same sb s u) fun _ => True :=
  Spec.post (keeps_iunlockput hl h.quiet.wf h.live.ptr h.live.valid h.refs (hc.held.quiet h.quiet) fun _ => trivial)
    fun _ _ hu => ⟨hu.1, h.drop hu.2.1⟩

theorem Ready.same (h : Ready sb s p) (ht : Same sb s t) : Ready sb t p :=
  ⟨ht.quiet.wf, h.acct.congr ht.refs ht.quiet.tab.file ht.quiet.tab.proc, (ht.calm h.calm).1, h.cwd.same ht⟩

theorem looks_openLoop (hl : Layout sb) (h : Ready sb s p) (omode left : ℕ) (path : List UInt8) :
    Spec (openLoop sb p omode left path) s (fun _ t => Looks s t) fun _ => True := by
  induction left using Nat.strong_induction_on generalizing s path with
  | _ left ih =>
    unfold openLoop
    refine Spec.bind (h.namei hl path) ?_
    rintro r t ⟨ht, hpost⟩
    cases r with
    | none => exact Spec.pure ht
    | some ip =>
      refine Spec.bind hpost.looks ?_
      rintro _ u ⟨hu, i, n, hf⟩
      refine Spec.bind_ok rfl (Spec.ite (fun _ => ?_) fun _ => Spec.pure (ht.trans hu))
      cases left with
      | zero => exact Spec.bind (hf.looks hl h.calm) fun _ v hv => Spec.pure ((ht.trans hu).trans hv.1)
      | succ left =>
        refine Spec.bind (readi_reads hf.quiet.wf hf.live _ _ _) fun r v hv => ?_
        have hfv : Found sb ip i n s v := Found.of (hf.quiet.trans (Quiet.of_to hf.quiet.wf hv.to _))
          ((refs_to hv.to).trans hf.refs) (hf.live.congr hv.to)
        refine Spec.bind (hfv.looks hl h.calm) ?_
        rintro _ w ⟨hw, hsame⟩
        have hall := ((ht.trans hu).trans hv.looks).trans hw
        refine Spec.ite (fun _ => Spec.pure hall) fun _ => ?_
        exact Spec.post (ih left (Nat.lt_succ_self left) (h.same hsame) _) fun _ x hx => hall.trans hx

/-! ## Calls that create -/

theorem entryCost_le (type : UInt16) : entryCost type ≤ 7 := by
  unfold entryCost
  split_ifs <;> omega

section

variable (hl : Layout sb) (hone : sb.size ≤ BPB) (h : Ready sb s p) {type : UInt16}
include hl hone h

theorem spends_made {major minor : UInt16} (hty : type ≠ 0) (path : List UInt8) :
    Spec (create sb p path type major minor) s (fun r t => match r with
      | none => Fits sb s t
      | some ip => ∃ i j m, WF sb t ∧ Live sb t ip j m ∧ (m.type = type ∨ type = T_FILE ∧ m.type = T_DEVICE) ∧
          t.file = s.file ∧ Spends (metas sb i j) (entryCost type) s t) fun _ => True := by
  refine Spec.post ((spends_create hl hone h.wf h.calm h.cwd path hty).and
    (create_mid (P := True) hl h.wf h.cwd (fun _ => trivial) hty)) ?_
  rintro r t ⟨⟨i, j, ht, hj⟩, hr⟩
  cases r with
  | none => exact ht.fits (entryCost_le type)
  | some ip =>
    obtain ⟨hmid, j', m, hlive, hm⟩ := hr
    obtain rfl : j' = j := hlive.ptr.2.2.symm.trans (hj ip rfl)
    exact ⟨i, j', m, hmid.wf, hlive, hm, hmid.tab.file, ht⟩

theorem fits_create (hty : type ≠ 0) (path : List UInt8) (major minor : UInt16) :
    Spec (sysCreate sb p (some path) type major minor) s (fun _ t => Fits sb s t) fun _ => True := by
  refine h.begin fun s0 _ h0 => Spec.bind (spends_made hl hone h0 hty path) ?_
  intro r t ht
  cases r with
  | none => exact ht.end
  | some ip =>
    obtain ⟨i, j, m, hwf, hlive, -, -, hs⟩ := ht
    exact fits_put_end hl hone hwf hlive hs (entryCost_le type)

theorem fits_open (path : List UInt8) (omode : ℕ) :
    Spec (sysOpen sb p (some path) omode) s (fun _ t => Fits sb s t) fun _ => True := by
  refine h.begin fun s0 _ h0 => Spec.ite (fun _ => ?_) fun _ => ?_
  · refine Spec.bind (spends_made hl hone h0 (by decide) path) ?_
    intro r t ht
    cases r with
    | none => exact ht.end
    | some ip =>
      obtain ⟨i, j, m, hwf, hlive, -, hfile, hs⟩ := ht
      refine fits_openFinish hl hone hwf hlive hs (entryCost_le _) ?_
      rw [hfile]; exact h0.acct.idle
  · refine Spec.bind ((looks_openLoop hl h0 omode 10 path).and
      (openLoop_spec (P := True) hl h0.wf h0.cwd (fun _ => trivial) omode 10 path)) ?_
    rintro r t ⟨ht, hpost⟩
    cases r with
    | none => exact ht.fits.end
    | some ip =>
      obtain ⟨i, n, hf⟩ := hpost
      have hs := ht.spends (metas sb i i)
      refine Spec.bind_ok rfl (Spec.ite (fun _ => fits_put_end hl hone hf.quiet.wf hf.live hs (Nat.zero_le _))
        fun _ => ?_)
      refine fits_openFinish hl hone hf.quiet.wf hf.live hs (Nat.zero_le _) ?_
      rw [hf.quiet.tab.file]; exact h0.acct.idle

/-- the target of a symbolic link is shorter than a block -/
theorem fits_symlink (target path : List UInt8) (hlen : target.length < MAXPATH) :
    Spec (sysSymlink sb p (some target) (some path)) s (fun _ t => Fits sb s t) fun _ => True := by
  refine h.begin fun s0 _ h0 => Spec.bind (spends_made hl hone h0 (by decide) path) ?_
  intro r t ht
  cases r with
  | none => exact ht.end
  | some ip =>
    obtain ⟨i, j, m, hwf, hlive, hm, -, hs⟩ := ht
    have hnd : m.type ≠ T_DIR := by
      rcases hm with hm | ⟨hm, -⟩
      · rw [hm]; decide
      · exact absurd hm (by decide)
    have hfit : 0 % BSIZE + target.length ≤ BSIZE := by
      unfold MAXPATH at hlen
      unfold BSIZE
      omega
    refine Spec.bind ((edits_writei hone (.kernel target) 0 target.length hfit).and (writei_puts (P := True) hl hwf
      hlive (fun b hb => by cases hb; exact le_rfl) fun hd => absurd hd hnd)) ?_
    rintro r u ⟨⟨a, x, hlog⟩, hu⟩
    rw [hlive.ptr.2.2] at hlog
    have hs := hs.trans (hlog.spends.mono (right_metas sb i j) le_rfl)
    have hk : entryCost T_SYMLINK + 2 ≤ 7 := by decide
    rcases hu with ⟨-, -, hu⟩ | ⟨_, l, -, -, hu⟩
    · exact fits_put_end hl hone (hwf.congr hu) (hlive.congr hu) hs hk
    · exact fits_put_end hl hone hu.wf (hu.live hlive) hs hk

end

/-! ## `link` and `unlink` -/

section

variable (hl : Layout sb) (hone : sb.size ≤ BPB)
include hl hone

theorem fits_linkBad {s0 : St} (h : WF sb s) (hn : Live sb s ip j m) (hs : Spends (metas sb i j) k s0 s) (hk : k ≤ 7) :
    Spec (linkBad sb ip) s (fun _ t => Fits sb s0 t) fun _ => True := by
  refine Spec.bind (logs_lock h hn.ptr) ?_
  rintro _ t ⟨ht, hload⟩
  have hnt := hn.quiet hload.quiet hn.ptr.2.1 (by rw [hload.refs]; exact hn.ptr.2.1)
  refine Spec.bind (logs_setNlink hl hload.quiet.wf hnt _) ?_
  rintro _ u ⟨hu, hput⟩
  exact fits_put_end hl hone hput.wf (hput.live hnt) ((hs.looks ht).logs (hu.mono (right_metas sb i j))) hk

theorem fits_link (h : Ready sb s p) (old new : List UInt8) :
    Spec (sysLink sb p (some old) (some new)) s (fun _ t => Fits sb s t) fun _ => True := by
  refine h.begin fun s0 _ h0 => Spec.bind (h0.namei hl old) ?_
  rintro r t ⟨ht, hpost⟩
  cases r with
  | none => exact ht.fits.end
  | some ip =>
    refine Spec.bind hpost.looks ?_
    rintro _ u ⟨hu, j, m, hf⟩
    have htu := ht.trans hu
    refine Spec.bind_ok rfl (Spec.ite (fun _ => ?_) fun _ => ?_)
    · exact Spec.bind (hf.looks hl h0.calm) fun _ v hv => Fits.end (htu.trans hv.1).fits
    refine Spec.bind (logs_setNlink hl hf.quiet.wf hf.live _) ?_
    rintro _ v ⟨hv, hput⟩
    have hlv := hput.live hf.live
    refine Spec.bind (looks_iunlock.and (iunlock_spec (P := True) hput.wf hlv.ptr hlv.valid)) ?_
    rintro _ w ⟨hw, hload⟩
    have hr := hf.raise hput hload
    have hcw := h0.cwd.tab hr.tab hr.le
    have hcalm := (hr.calm h0.calm).1
    refine Spec.bind ((looks_namex hl hr.wf hcw hcalm.held new true).and
      (namex_spec (P := True) hl hr.wf hcw fun _ => trivial)) ?_
    rintro r x ⟨hx, hpost⟩
    have hlog : ∀ i, Spends (metas sb i j) 0 s0 x := fun i =>
      (htu.then (hv.mono (right_metas sb i j)).spends).looks (hw.trans hx)
    cases r with
    | none =>
      have hlx := hr.live.quiet hpost.1 hr.live.ptr.2.1 (by rw [hpost.2.1]; exact hr.live.ptr.2.1)
      exact fits_linkBad hl hone hpost.1.wf hlx (hlog 0) (Nat.zero_le _)
    | some y =>
      obtain ⟨dp, name⟩ := y
      obtain ⟨i, n, hlive, hpar⟩ := hpost.parent
      refine Spec.bind (logs_lock hpost.1.wf hlive.ptr) ?_
      rintro _ y ⟨hy, hload⟩
      have hpar := hpar y hload
      have hdp := hpar.live.ptr.2.1
      have hly : Live sb y ip j _ := hr.live.quiet hpar.quiet hr.live.ptr.2.1
        (pos_refs hpar.refs _ hr.live.ptr.2.1)
      rw [hf.live.ptr.2.2]
      refine Spec.bind ((spends_dirlink hl hone hpar.quiet.wf hpar.live hpar.dir name j).and
        (dirlink_spec (P := True) hl hpar.quiet.wf hpar.live hpar.dir (hf.quiet.wf.range ip j hf.live.ptr))) ?_
      rintro r z ⟨hz, hpost⟩
      have hs : Spends (metas sb i j) 2 s0 z := ((hlog i).looks hy).trans (hz.mono (left_metas sb i j) le_rfl)
      cases r with
      | true =>
        obtain ⟨_, -, -, -, -, hputs⟩ := hpost
        have hptr : Ptr z ip j := hputs.tab.ptr hly.ptr.2.1 (by rw [hputs.refs]; exact hly.ptr.2.1) hly.ptr
        refine Spec.bind (logs_drop hl hone hputs.wf (hputs.live hpar.live) (hputs.refs.trans hpar.refs)) ?_
        rintro _ a ⟨ha, hdrop⟩
        have hpa : Ptr a ip j :=
          hdrop.quiet.tab.ptr hr.live.ptr.2.1 (by rw [hdrop.refs]; exact hr.live.ptr.2.1) hptr
        refine Spec.bind (logs_iput hl hone hdrop.quiet.wf hpa) fun _ b hb => ?_
        have hall := (hs.logs (ha.mono (left_metas sb i j))).logs (hb.mono (right_metas sb i j))
        exact (hall.fits (by decide)).end
      | false =>
        obtain ⟨hq, hrefs⟩ := hpost
        have hlz := hly.quiet hq hly.ptr.2.1 (by rw [hrefs]; exact hly.ptr.2.1)
        have hdz := hpar.live.quiet hq hdp (by rw [hrefs]; exact hdp)
        refine Spec.bind (logs_drop hl hone hq.wf hdz (hrefs.trans hpar.refs)) ?_
        rintro _ a ⟨ha, hdrop⟩
        exact fits_linkBad hl hone hdrop.quiet.wf (hlz.dropped hdrop hr.live.ptr.2.1)
          (hs.logs (ha.mono (left_metas sb i j))) (by decide)

theorem fits_unlinkDone {s0 : St} (h : WF sb s) (hdp : Live sb s dp i n) (hip : Live sb s ip j m)
    (hF : s.refs = F + Pi.single ip 1 + Pi.single dp 1) (hs : Spends (metas sb i j) k s0 s) (hk : k ≤ 7) :
    Spec (unlinkDone sb dp ip) s (fun _ t => Fits sb s0 t) fun _ => True := by
  refine Spec.bind (logs_drop hl hone h hdp hF) ?_
  rintro _ t ⟨ht, hdrop⟩
  have hipt := hip.dropped hdrop (single_pos F ip)
  refine Spec.bind (logs_setNlink hl hdrop.quiet.wf hipt _) ?_
  rintro _ u ⟨hu, hput⟩
  have hs := (hs.logs (ht.mono (left_metas sb i j))).logs (hu.mono (right_metas sb i j))
  exact fits_put_end hl hone hput.wf (hput.live hipt) hs hk

theorem fits_unlinkEntry {s0 : St} {empty : Bool} (h : Both sb dp ip i j n m s t) (hdir : n.type = T_DIR)
    (hk : k < n.bytes.length / DESIZE) (ht : Looks s0 t) :
    Spec (unlinkEntry sb dp ip (k * DESIZE) m.type empty) t (fun _ u => Fits sb s0 u) fun _ => True := by
  unfold unlinkEntry
  refine Spec.ite (fun _ => ?_) fun _ => ?_
  · have hr : t.refs = s.refs + Pi.single dp 1 + Pi.single ip 1 := by rw [h.refs, add_right_comm]
    refine Spec.bind (logs_drop hl hone h.quiet.wf h.node hr) ?_
    rintro _ u ⟨hu, hdrop⟩
    exact fits_put_end hl hone hdrop.quiet.wf (h.dir.dropped hdrop (single_pos _ dp))
      ((ht.spends (metas sb j i)).logs (hu.mono (left_metas sb j i))) (Nat.zero_le _)
  · have hsrc : List.replicate DESIZE 0 = noEntry.bytes := bytes_noEntry.symm
    have hfit : k * DESIZE % BSIZE + DESIZE ≤ BSIZE := entry_fits (Nat.mul_mod_left k DESIZE)
    rw [hsrc]
    refine Spec.bind ((edits_writei hone (.kernel noEntry.bytes) (k * DESIZE) DESIZE hfit).and
      (write_entry (P := True) hl h.quiet.wf h.dir hdir hk.le (by simp [noEntry]) ?_)) ?_
    · exact (Nat.zero_le _).trans_lt (h.quiet.wf.range dp i h.dir.ptr)
    rintro r u ⟨⟨a, x, hlog⟩, hu⟩
    rw [h.dir.ptr.2.2] at hlog
    have hs : Spends (metas sb i j) 2 s0 u := ht.then (hlog.spends.mono (left_metas sb i j) le_rfl)
    rcases hu with ⟨hr, -⟩ | ⟨rfl, hu⟩
    · rw [if_pos hr]; exact Spec.throw trivial
    rw [if_neg (not_not.2 rfl)]
    have hdu := hu.live h.dir
    have hiu := hu.live_ne h.node h.ne.symm
    have hru := hu.refs.trans h.refs
    refine Spec.ite (fun _ => ?_) fun _ => fits_unlinkDone hl hone hu.wf hdu hiu hru hs (by decide)
    refine Spec.bind (logs_setNlink hl hu.wf hdu _) ?_
    rintro _ v ⟨hv, hput⟩
    exact fits_unlinkDone hl hone hput.wf (hput.live hdu) (hput.live_ne hiu h.ne.symm) (hput.refs.trans hru)
      (hs.logs (hv.mono (left_metas sb i j))) (by decide)

theorem fits_unlinkIn {s0 : St} {w : Option (ℕ × List UInt8)} (hpar : Parent sb w dp i n name s t)
    (hlock : t.locks dp = true) (ht : Looks s0 t) :
    Spec (unlinkIn sb dp name) t (fun _ u => Fits sb s0 u) fun _ => True := by
  have hput : ∀ u, To t u t.blk t.inode → Looks s0 u → Spec (unlinkBad sb dp) u (fun _ u => Fits sb s0 u)
    fun _ => True :=
    fun u hto hu => fits_put_end hl hone (hpar.quiet.wf.congr hto) (hpar.live.congr hto) (hu.spends (metas sb i i))
      (Nat.zero_le _)
  unfold unlinkIn
  refine Spec.ite (fun _ => hput t (To.refl t) ht) fun _ => ?_
  refine Spec.bind ((dirlookup_post hpar.quiet.wf hpar.live hpar.dir fun _ => trivial).and
    (within_dirlookup (ρ := Kept) (E := FsPanic) name t)) ?_
  rintro r u ⟨⟨hpost, hu⟩, hkept⟩
  have htu := ht.trans hu
  cases r with
  | none => exact hput u hpost.1 htu
  | some x =>
    obtain ⟨ip, off⟩ := x
    obtain ⟨k, hk, rfl, -, -, htook⟩ := hpost
    refine Spec.bind ((logs_lock htook.quiet.wf htook.ptr).and bal_ilock) ?_
    rintro _ v ⟨⟨hv, hload⟩, hvl⟩
    have hboth := hpar.both htook hkept hlock hload hvl.free
    have htv := htu.trans hv
    refine Spec.bind_ok rfl (Spec.ite (fun _ => Spec.throw trivial) fun _ => Spec.ite (fun hd => ?_) fun _ => ?_)
    · refine Spec.bind (isdirempty_spec hboth.quiet.wf hboth.node hd) ?_
      rintro empty w ⟨hw, -⟩
      exact fits_unlinkEntry hl hone (hboth.to hw.to) hpar.dir hk (htv.trans hw.looks)
    · exact fits_unlinkEntry hl hone hboth hpar.dir hk htv

theorem fits_unlink (h : Ready sb s p) (path : List UInt8) :
    Spec (sysUnlink sb p (some path)) s (fun _ t => Fits sb s t) fun _ => True := by
  rw [sysUnlink_some]
  refine h.begin fun s0 _ h0 => Spec.bind ((looks_namex hl h0.wf h0.cwd h0.calm.held path true).and
    (namex_spec (P := True) hl h0.wf h0.cwd fun _ => trivial)) ?_
  rintro r t ⟨ht, hpost⟩
  cases r with
  | none => exact ht.fits.end
  | some x =>
    obtain ⟨dp, name⟩ := x
    obtain ⟨i, n, hlive, hpar⟩ := hpost.parent
    refine Spec.bind ((logs_lock hpost.1.wf hlive.ptr).and bal_ilock) ?_
    rintro _ u ⟨⟨hu, hload⟩, hul⟩
    refine fits_unlinkIn hl hone (hpar u hload) ?_ (ht.trans hu)
    rw [hul.bal.locks, Function.update_self]

/-! ## The other calls -/

theorem fits_close (h : Ready sb s p) (fd : ℕ) :
    Spec (sysClose sb p fd) s (fun _ t => Fits sb s t) fun _ => True := by
  unfold sysClose argfd
  refine Spec.bind_ok rfl ?_
  split
  · exact Spec.pure (Reads.refl s).looks.fits
  rename_i f _
  have hstep := Step.set_proc (p := p) h.wf h.acct
    (x := { s.proc p with ofile := Function.update (s.proc p).ofile fd none }) rfl
  refine Spec.bind_ok rfl (Spec.bind_ok rfl (Spec.bind (fits_fileclose hl hone hstep.wf hstep.acct f) ?_))
  rintro _ t ⟨i, j, ht⟩
  exact Spec.pure ⟨i, j, (Looks.tables s s.inode s.file _).then ht⟩

theorem fits_chdir (h : Ready sb s p) (path : List UInt8) :
    Spec (sysChdir sb p (some path)) s (fun _ t => Fits sb s t) fun _ => True := by
  unfold sysChdir
  refine Spec.bind_ok rfl ?_
  refine h.begin fun s0 hproc h0 => Spec.bind (h0.namei hl path) ?_
  rintro r t ⟨ht, hpost⟩
  cases r with
  | none => exact ht.fits.end
  | some ip =>
    refine Spec.bind hpost.looks ?_
    rintro _ u ⟨hu, i, n, hf⟩
    have htu := ht.trans hu
    refine Spec.bind_ok rfl (Spec.ite (fun _ => ?_) fun _ => ?_)
    · exact Spec.bind (hf.looks hl h0.calm) fun _ v hv => Fits.end (htu.trans hv.1).fits
    refine Spec.bind (looks_iunlock.and (iunlock_spec (P := True) hf.quiet.wf hf.live.ptr hf.live.valid)) ?_
    rintro _ v ⟨hv, hload⟩
    -- the old directory
    obtain ⟨k, i0, hk, hpk⟩ := h0.cwd
    have hmid : Mid sb NoChange s0 (s0.refs + Pi.single ip 1) v := ((Mid.refl h0.wf).found hf).loaded hload
    have hpv : Ptr v k i0 := hmid.tab.ptr hpk.2.1 (hmid.le_refs hpk.2.1) hpk
    rw [← hproc, hk]
    refine Spec.bind (logs_iput hl hone hmid.wf hpv) fun _ w hw => Spec.bind_ok rfl (Spec.of_ok rfl ?_)
    have hall := ((htu.trans hv).spends (metas sb i0 i0)).logs (hw.mono (left_metas sb i0 i0))
    exact ((hall.logs (Logs.mark (e := .endOp) rfl _ w)).looks (Looks.tables _ w.inode w.file _)).fits (Nat.zero_le _)

/-- one step of `ireclaim`, in any well-formed state -/
theorem fits_reclaim (h : WF sb s) {inum : ℕ} (hi : inum < sb.ninodes) :
    Spec (reclaim sb inum) s (fun _ t => Fits sb s t) fun _ => True := by
  have hblock := Reads.block s (iblock sb inum)
  unfold reclaim
  refine Spec.bind_ok rfl (Spec.ite (fun _ => ?_) fun _ => Spec.of_ok rfl hblock.looks.fits)
  have hread : Reads s { s with trace := s.trace ++ [.bread (iblock sb inum)] } := ⟨[_], by simp [Ev.isRead], rfl⟩
  refine Spec.bind ((looks_iget inum).and (iget_spec (P := True) (h.congr hread.to) hi)) ?_
  rintro ip t ⟨⟨ht, -⟩, htook⟩
  have hrel : Reads t { t with trace := t.trace ++ [.brelse (iblock sb inum)] } := ⟨[_], by simp [Ev.isRead], rfl⟩
  have hwf := (htook.quiet.wf.congr hrel.to).congr (to_event _ .beginOp)
  refine Spec.bind_ok rfl (Spec.bind_ok rfl (Spec.bind (logs_lock hwf htook.ptr) ?_))
  rintro _ u ⟨hu, hload⟩
  refine Spec.bind (looks_iunlock.and (iunlock_spec (P := True) hload.quiet.wf hload.ptr hload.valid)) ?_
  rintro _ v ⟨hv, hload'⟩
  refine Spec.bind (logs_iput hl hone hload'.quiet.wf hload'.ptr) fun _ w hw => Spec.of_ok rfl ?_
  have hstart := (((hread.looks.trans ht).trans hrel.looks).logs (metas sb inum inum)).trans
    (Logs.mark (e := .beginOp) rfl _ _)
  have hall := (hstart.trans ((hu.trans hv).logs _)).trans (hw.mono (left_metas sb inum inum))
  exact (hall.trans (Logs.mark (e := .endOp) rfl _ w)).fits

end

/-- the calls with one transaction on paths and descriptors -/
def Call.single : Call → Bool
  | .openPath _ _ | .mkdir _ | .mknod _ _ _ | .link _ _ | .symlink _ _ | .unlink _ | .chdir _ | .close _ => true
  | .exec _ _ | .exit | .read _ _ _ _ | .write _ _ _ _ | .fstat _ _ _ | .dup _ | .fork _ => false

theorem Call.fits (hl : Layout sb) (hone : sb.size ≤ BPB) (h : Ready sb s p) {c : Call} (hc : c.single = true)
    (hf : c.fetched = true) : Spec (c.run sb p) s (fun _ t => Fits sb s t) fun _ => True := by
  have hnone : Fits sb s s := (Reads.refl s).looks.fits
  have hempty : ∀ {α : Type} (a : α), Spec (do beginOp; endOp; return a) s (fun _ t => Fits sb s t) fun _ => True :=
    fun a => h.begin fun t _ _ => ((Reads.refl t).looks.fits).end
  cases c with
  | openPath path omode =>
    cases path with
    | none => exact Spec.pure hnone
    | some path => exact Spec.bind (fits_open hl hone h path omode) fun _ _ ht => Spec.pure ht
  | mkdir path =>
    cases path with
    | none => exact Spec.bind (hempty false) fun _ _ ht => Spec.pure ht
    | some path => exact Spec.bind (fits_create hl hone h (by decide) path 0 0) fun _ _ ht => Spec.pure ht
  | mknod path major minor =>
    cases path with
    | none => exact Spec.bind (hempty false) fun _ _ ht => Spec.pure ht
    | some path => exact Spec.bind (fits_create hl hone h (by decide) path major minor) fun _ _ ht => Spec.pure ht
  | link old new =>
    rcases old with _ | old
    · exact Spec.pure hnone
    · rcases new with _ | new
      · exact Spec.pure hnone
      · exact Spec.bind (fits_link hl hone h old new) fun _ _ ht => Spec.pure ht
  | symlink target path =>
    rcases target with _ | target
    · exact Spec.pure hnone
    · rcases path with _ | path
      · exact Spec.pure hnone
      · exact Spec.bind (fits_symlink hl hone h target path (of_decide_eq_true hf)) fun _ _ ht => Spec.pure ht
  | unlink path =>
    cases path with
    | none => exact Spec.pure hnone
    | some path => exact Spec.bind (fits_unlink hl hone h path) fun _ _ ht => Spec.pure ht
  | chdir path =>
    cases path with
    | none => exact Spec.bind (hempty false) fun _ _ ht => Spec.pure ht
    | some path => exact Spec.bind (fits_chdir hl hone h path) fun _ _ ht => Spec.pure ht
  | close fd => exact Spec.bind (fits_close hl hone h fd) fun _ _ ht => Spec.pure ht
  | exec | exit | read | write | fstat | dup | fork => cases hc

/-- **Every call fits its reservation.** On a disk with one block of free map, a call in a well-formed state logs at
most MAXOPBLOCKS distinct blocks, whatever it returns, and so does a step of `ireclaim` in a state with any inodes
without links. -/
theorem call_fits_reservation (hl : Layout sb) (hone : sb.size ≤ BPB) (h : WF sb s) :
    (∀ (p : ℕ) (c : Call), Acct s → Calm sb s → (s.proc p).cwd ≠ none → c.single = true → c.fetched = true → ∀ t,
      c.run sb p s = .ok ((), t) →
      ∃ es, t.trace = s.trace ++ es ∧ (logged es).card ≤ MAXOPBLOCKS) ∧
    ∀ inum, inum < sb.ninodes → ∀ t, reclaim sb inum s = .ok ((), t) →
      ∃ es, t.trace = s.trace ++ es ∧ (logged es).card ≤ MAXOPBLOCKS := by
  refine ⟨fun p c ha hc hp hb hf t hrun => ?_, fun inum hi t hrun => ?_⟩
  · have hfits : Fits sb s t := (Call.fits hl hone ⟨h, ha, hc, ha.has_cwd h hp⟩ hb hf).ok hrun
    exact hfits.card
  · have hfits : Fits sb s t := (fits_reclaim hl hone h hi).ok hrun
    exact hfits.card

/-- process 0 makes a directory -/
theorem mkdir_fits_reservation : ∃ t es, (Call.mkdir (some [97])).run Ownership.tiny 0 boot = .ok ((), t) ∧
    t.trace = boot.trace ++ es ∧ (logged es).card ≤ MAXOPBLOCKS := by
  have hok : ((Call.mkdir (some [97])).run Ownership.tiny 0 boot).toBool = true := by decide +kernel
  have hcwd : (boot.proc 0).cwd ≠ none := by
    show (some 0 : Option ℕ) ≠ none
    nofun
  cases hrun : (Call.mkdir (some [97])).run Ownership.tiny 0 boot with
  | error e => rw [hrun] at hok; cases hok
  | ok r =>
    obtain ⟨es, hes⟩ := (call_fits_reservation Ownership.tiny_layout (by decide) boot_wf).1 0 (.mkdir (some [97]))
      boot_idle.acct boot_idle.calm hcwd rfl rfl r.2 hrun
    exact ⟨r.2, es, rfl, hes⟩

end Xv6.Fs
