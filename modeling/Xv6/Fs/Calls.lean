/-
The system calls of the file system, as one machine.

`Call`: the calls of a process; `machine`: any number of processes make them, one at a time. `call_spec`: each call is a
`Step`, and comes to a free inode only if some entry names one.
-/
import Xv6.Core.Machine
import Xv6.Fs.Open

namespace Xv6.Fs

open Xv6.Core

variable {sb : Superblock} {p q f i j k ip dp : ℕ} {s t u v w : St} {F G : ℕ → ℕ} {P : Prop} {n m : Node}
  {T T' T'' : Tree} {name path : List UInt8} {ok ok' : Change → Prop} {E : Panic → Prop} {Q : St → Prop}

/-! ## Sequences of steps -/

/-- no entry is written -/
def OnlyWrites (ok : Change → Prop) : Prop := ∀ c, ok c → ∃ j m l, c = .write j m l

theorem onlyWrites_noChange : OnlyWrites NoChange := nofun

theorem Effect.minors (hw : OnlyWrites ok) (h : Effect sb ok T T') : Relation.ReflTransGen (Minor ok) T T' := by
  have hno : ∀ c, (∀ j m l, c ≠ .write j m l) → ¬ ok c := fun c hc h => by
    obtain ⟨j, m, l, rfl⟩ := hw c h
    exact hc j m l rfl
  obtain ⟨T1, rfl | h, h2⟩ := h
  · exact h2
  · cases h with
    | create _ h => exact absurd h (hno _ nofun)
    | link _ h => exact absurd h (hno _ nofun)
    | unlink _ h => exact absurd h (hno _ nofun)

theorem Effect.trans (h : Effect sb ok T T') (h' : Effect sb ok' T' T'') (hw : OnlyWrites ok')
    (hle : ∀ c, ok' c → ok c) :
    Effect sb ok T T'' := by
  obtain ⟨T1, h1, h2⟩ := h
  exact ⟨T1, h1, h2.trans (Relation.ReflTransGen.mono (fun _ _ hm => hm.mono hle) _ _ (h'.minors hw))⟩

theorem Spare.minor (h : Spare T) (hm : Minor ok T T') : Spare T' := by
  intro i n hn hd
  cases hm with
  | @write j m hj hm l _ =>
    rcases node_write hn with ⟨rfl, rfl⟩ | hn
    · exact absurd hd hm
    · exact h i n hn hd
  | @free j m hj h0 =>
    by_cases hij : i = j
    · rw [hij, Function.update_self] at hn; cases hn
    · rw [Function.update_of_ne hij] at hn; exact h i n hn hd

theorem Spare.effect (h : Spare T) (he : Effect sb ok T T') (hw : OnlyWrites ok) : Spare T' := by
  have := he.minors hw
  clear he
  induction this with
  | refl => exact h
  | tail _ hm ih => exact ih.minor hm

theorem Step.then (h : Step sb ok s t) (h' : Step sb ok' t u) (hw : OnlyWrites ok) (hle : ∀ c, ok' c → ok c) :
    Step sb ok s u := by
  refine ⟨h'.wf, h'.acct, fun hc hsp => ?_, fun hc hsp hf => ?_⟩
  · obtain ⟨hct, he⟩ := h.tree hc hsp
    obtain ⟨hcu, he'⟩ := h'.tree hct (hsp.effect he hw)
    exact ⟨hcu, he.trans he' (fun c hc => hw c (hle c hc)) hle⟩
  · obtain ⟨hct, he⟩ := h.tree hc hsp
    exact h'.files hct (hsp.effect he hw) (h.files hc hsp hf)

theorem Step.trans (h : Step sb NoChange s t) (h' : Step sb NoChange t u) : Step sb NoChange s u :=
  h.then h' onlyWrites_noChange fun _ => id

theorem Step.refl (h : WF sb s) (ha : Acct s) : Step sb ok s s := ((Mid.refl h).step ha).toStep

/-! ## Descriptors -/

theorem sysClose_spec (hl : Layout sb) (h : WF sb s) (ha : Acct s) (p fd : ℕ) :
    Spec (sysClose sb p fd) s (fun _ t => Step sb NoChange s t) (Fault P) := by
  unfold sysClose argfd
  refine Spec.bind_ok rfl ?_
  split
  · exact Spec.pure (Step.refl h ha)
  rename_i f _
  have hstep := Step.set_proc (p := p) h ha (x := { s.proc p with ofile := Function.update (s.proc p).ofile fd none })
    rfl
  refine Spec.bind_ok rfl (Spec.bind_ok rfl (Spec.bind (fileclose_spec hl hstep.wf hstep.acct f) ?_))
  rintro _ t ⟨ht, -⟩
  exact Spec.pure (hstep.trans ht)

theorem filedup_spec (h : WF sb s) (ha : Acct s) (f : ℕ) :
    Spec (filedup f) s (fun _ t => Step sb NoChange s t ∧ t.proc = s.proc) (Fault P) := by
  unfold filedup
  refine Spec.bind_ok rfl (Spec.ite (fun _ => Spec.throw ⟨nofun, nofun⟩) fun h1 => Spec.of_ok rfl ⟨?_, rfl⟩)
  refine Step.set_file h ha ⟨rfl, rfl, fun _ => rfl, fun _ => ?_⟩
  simp only
  omega

theorem sysDup_spec (h : WF sb s) (ha : Acct s) (p fd : ℕ) :
    Spec (sysDup p fd) s (fun _ t => Step sb NoChange s t) (Fault P) := by
  unfold sysDup argfd
  refine Spec.bind_ok rfl ?_
  split
  · exact Spec.pure (Step.refl h ha)
  rename_i f _
  refine Spec.bind fdalloc_spec ?_
  intro r t ht
  cases r with
  | none =>
    subst ht
    exact Spec.pure (Step.refl h ha)
  | some fd' =>
    obtain ⟨x, hx, rfl⟩ := ht
    have hstep := Step.set_proc h ha hx
    refine Spec.bind (filedup_spec hstep.wf hstep.acct f) ?_
    rintro _ t ⟨ht, -⟩
    exact Spec.pure (hstep.trans ht)

/-! ## Reading and writing -/

/-- **`readi` only reads**, whatever the destination, the offset and the length. -/
theorem readi_reads (h : WF sb s) (hn : Live sb s ip i n) (dst : Dst) (off len : ℕ) :
    Spec (readi sb ip dst off len) s (fun _ t => Reads s t) E := by
  obtain ⟨hc, ht⟩ := h.coherent ip i hn.ptr hn.valid
  have hi := h.range ip i hn.ptr
  have hm : Mapped s.blk (s.inode ip).din := by rw [hc]; exact h.good.mapped i hi ht
  have hs : (s.inode ip).din.size.toNat ≤ MAXFILE * BSIZE := by rw [hc]; exact h.good.size i hi ht
  unfold readi
  refine Spec.bind_ok rfl (Spec.ite (fun _ => Spec.pure (Reads.refl s)) fun hoff => ?_)
  refine (readiLoop_spec hm hs _ off _ [] le_rfl ?_).post fun _ _ ht => ht.1
  split_ifs <;> omega

theorem readi_to (h : WF sb s) (hn : Live sb s ip i n) (dst : Dst) (off len : ℕ) :
    Spec (readi sb ip dst off len) s (fun _ t => To s t s.blk s.inode) E :=
  Spec.post (readi_reads h hn dst off len) fun _ _ ht => ht.to

theorem Acct.lock (ha : Acct s) (h : WF sb s) (hty : (s.file f).type ≠ .none) (hP : ¬ Safe sb s → P) :
    Spec (ilock sb (s.file f).ip) s (fun _ t => Mid sb NoChange s s.refs t ∧
      ∃ n, Live sb t (s.file f).ip (s.inode (s.file f).ip).inum n) (Fault P) := by
  have hpos := ha.file_pos hty
  refine Spec.post (ilock_spec h (h.ptr hpos) fun h0 => hP fun hs => hs.calm.alive _ hpos h0) ?_
  intro _ t ht
  exact ⟨(Mid.refl h).loaded ht, _, ht.ptr, ht.valid, ht.quiet.wf.node_ptr ht.ptr ht.valid⟩

theorem SameUse.off (x : File) (off : ℕ) : SameUse { x with off := off } x := ⟨rfl, rfl, fun _ => rfl, fun _ => Iff.rfl⟩

theorem Mid.advance (h : Mid sb ok s s.refs t) (hlive : Live sb t ip i n) (ha : Acct s) {off : ℕ} {α : Type}
    {rest : FsM α} {Q : α → St → Prop}
    (hrest : ∀ u, Step sb ok s u → u.file = s.file.set f { s.file f with off := off } →
      (∀ k, 0 < s.refs k → (u.inode k).inum = (s.inode k).inum) → Spec rest u Q (Fault P)) :
    Spec (do setFile f { s.file f with off := off }; iunlock ip; rest) t Q (Fault P) := by
  have hmid := h.files (t.file.set f { s.file f with off := off }) t.proc
  refine Spec.bind_ok rfl (Spec.bind (iunlock_spec hmid.wf ⟨hlive.ptr.1, hlive.ptr.2.1, hlive.ptr.2.2⟩ hlive.valid) ?_)
  intro _ u hu
  have hmu := hmid.loaded hu
  have huf : u.file = s.file.set f { s.file f with off := off } := by rw [hmu.tab.file, h.tab.file]
  have hup : u.proc = s.proc := by rw [hmu.tab.proc]; exact h.tab.proc
  refine hrest u (hmu.step_files ha (ha.set_file (SameUse.off _ _) hmu.refs huf hup) fun g hg hw => Or.inl ?_).toStep
    huf
    fun k hk => (hmu.tab.kept k hk).1
  simp only [huf] at hg hw ⊢
  exact (SameUse.off _ _).kept g hg hw

theorem sysRead_spec (h : WF sb s) (ha : Acct s) (hP : ¬ Safe sb s → P) (p fd : ℕ) (writable : ℕ → Bool) (addr n : ℕ) :
    Spec (sysRead sb p fd writable addr n) s (fun _ t => Step sb NoChange s t) (Fault P) := by
  unfold sysRead argfd
  refine Spec.bind_ok rfl ?_
  split
  · exact Spec.pure (Step.refl h ha)
  rename_i f _
  unfold fileread
  refine Spec.bind_ok rfl (Spec.ite (fun _ => Spec.pure (Step.refl h ha)) fun _ => ?_)
  split
  · exact Spec.pure (Step.refl h ha)
  · rename_i hty
    refine Spec.bind (ha.lock h (by rw [hty]; nofun) hP) ?_
    rintro _ t ⟨hmid, n, hlive⟩
    refine Spec.bind (readi_to hmid.wf hlive _ _ _) fun r u hu => ?_
    exact (hmid.to hu).advance (hlive.congr hu) ha fun v hv _ _ => Spec.pure hv
  · exact Spec.throw ⟨nofun, nofun⟩

theorem sysFstat_spec (h : WF sb s) (ha : Acct s) (hP : ¬ Safe sb s → P) (p fd : ℕ) (writable : ℕ → Bool) (addr : ℕ) :
    Spec (sysFstat sb p fd writable addr) s (fun _ t => Step sb NoChange s t) (Fault P) := by
  unfold sysFstat argfd
  refine Spec.bind_ok rfl ?_
  split
  · exact Spec.pure (Step.refl h ha)
  rename_i f _
  unfold filestat
  refine Spec.bind_ok rfl (Spec.ite (fun hty => ?_) fun _ => Spec.pure (Step.refl h ha))
  refine Spec.bind (ha.lock h (by rcases hty with hty | hty <;> rw [hty] <;> nofun) hP) ?_
  rintro _ t ⟨hmid, n, hlive⟩
  refine Spec.bind_ok rfl (Spec.bind (iunlock_spec hmid.wf hlive.ptr hlive.valid) fun _ u hu => Spec.pure ?_)
  exact ((hmid.loaded hu).step ha).toStep

/-- what writing needs: the tree is the one of a calm state, and the file is not a directory -/
structure Stable (sb : Superblock) (s : St) : Prop where
  wf : WF sb s
  acct : Acct s
  calm : Calm sb s
  spare : Spare (s.node sb)
  files : Files sb s

theorem Stable.step (h : Stable sb s) (hs : Step sb ok s t) (hw : OnlyWrites ok) : Stable sb t := by
  obtain ⟨hc, he⟩ := hs.tree h.calm h.spare
  exact ⟨hs.wf, hs.acct, hc, h.spare.effect he hw, hs.files h.calm h.spare h.files⟩

/-- what a write of n bytes through file f may do: make the content of its inode as long as the offset allows -/
def WriteOk (s : St) (f n : ℕ) (c : Change) : Prop :=
  ∃ m l, c = .write (s.inode (s.file f).ip).inum m l ∧ l.length ≤ max m.bytes.length ((s.file f).off + n)

theorem WriteOk.to (hto : To s t s.blk s.inode) (c : Change) (h : WriteOk t f k c) : WriteOk s f k c := by
  unfold WriteOk at h ⊢
  rwa [hto.inode, hto.file] at h

theorem onlyWrites_writeOk : OnlyWrites (WriteOk s f k) := fun _ ⟨m, l, hc, _⟩ => ⟨_, m, l, hc⟩

theorem filewriteLoop_spec (hl : Layout sb) (hw : Stable sb s) (mem : UserMem) (addr n fuel i : ℕ)
    (hty : (s.file f).type = .inode) (hwr : (s.file f).writable = true) :
    Spec (filewriteLoop sb f mem addr n fuel i) s (fun _ t => Step sb (WriteOk s f (n - i)) s t) (Fault P) := by
  induction fuel generalizing s i with
  | zero => exact Spec.pure (Step.refl hw.wf hw.acct)
  | succ fuel ih =>
    unfold filewriteLoop
    refine Spec.ite (fun _ => ?_) fun _ => Spec.pure (Step.refl hw.wf hw.acct)
    refine Spec.bind_ok rfl ?_
    refine Step.begin (WriteOk · f (n - i)) hw.wf hw.acct (fun _ hto => WriteOk.to hto) fun s0 hto h0 ha0 => ?_
    have hs0 : Step sb NoChange s s0 := (Step.refl h0 ha0).of_to hw.wf hto
    have hw0 := hw.step hs0 onlyWrites_noChange
    rw [← hto.file] at hty hwr ⊢
    have hpos := ha0.file_pos (f := f) (by rw [hty]; nofun)
    have hnode := hw0.calm.alive _ hpos
    refine Spec.bind (ilock_spec h0 (h0.ptr hpos) fun hn => absurd hn hnode) fun _ t ht => ?_
    have hmid : Mid sb (WriteOk s0 f (n - i)) s0 s0.refs t := (Mid.refl h0).loaded ht
    have hlive : Live sb t (s0.file f).ip _ _ := ⟨ht.ptr, ht.valid, ht.quiet.wf.node_ptr ht.ptr ht.valid⟩
    have hnd : Node.type (Dinode.node t.blk (t.inode (s0.file f).ip).din) ≠ T_DIR := fun hd => by
      have h1 := hw0.files f hty hwr
      have h2 := hlive.node
      rw [node_congr sb ht.blk] at h2
      rw [isDir_of h2] at h1
      simp [hd] at h1
    refine Spec.bind (writei_puts hl hmid.wf hlive (by nofun) fun hd => absurd hd hnd) ?_
    intro r u hu
    -- the state after the chunk, whatever was written
    have hgo : ∀ u, Mid sb (WriteOk s0 f (n - i)) s0 s0.refs u →
        (∃ n, Live sb u (s0.file f).ip (s0.inode (s0.file f).ip).inum n) →
        Spec (do
          setFile f { s0.file f with off := (s0.file f).off + r.getD 0 }
          iunlock (s0.file f).ip
          endOp
          if r = some (min (n - i) MAXWRITE) then filewriteLoop sb f mem addr n fuel (i + min (n - i) MAXWRITE)
          else return i) u (fun _ t => Step sb (WriteOk s0 f (n - i)) s0 t) (Fault P) := by
      rintro u hmu ⟨n', hlu⟩
      refine hmu.advance hlu ha0 fun v hv hvf hvi => Spec.bind_ok rfl ?_
      have hev := to_event v .endOp
      have hsv : Step sb (WriteOk s0 f (n - i)) s0 { v with trace := v.trace ++ [.endOp] } :=
        hv.then ((Step.refl (hv.wf.congr hev) (hv.acct.to hev) : Step sb NoChange _ _).of_to hv.wf hev)
          onlyWrites_writeOk nofun
      refine Spec.ite (fun hr => ?_) fun _ => Spec.pure hsv
      have hfile : v.file f = { s0.file f with off := (s0.file f).off + r.getD 0 } := by rw [hvf, Store.set_self]
      refine Spec.post (ih (hw0.step hsv onlyWrites_writeOk) _ ?_ ?_) fun _ _ hx => hsv.then hx onlyWrites_writeOk ?_
      · simp only [hfile]; exact hty
      · simp only [hfile]; exact hwr
      · -- the offset has advanced by what was written
        rintro c ⟨m, l, rfl, hlen⟩
        simp only [hfile, hr, Option.getD_some] at hlen ⊢
        refine ⟨m, l, by rw [hvi _ (ha0.file_pos (by rw [hty]; nofun))], hlen.trans (max_le_max le_rfl ?_)⟩
        omega
    rcases hu with ⟨-, -, hu⟩ | ⟨x, l, -, hwrote, hu⟩
    · exact hgo u (hmid.to hu) ⟨_, hlive.congr hu⟩
    · refine hgo u (hmid.write hlive hnd hu ⟨_, _, rfl, (length_written_le hwrote).trans (max_le_max le_rfl ?_)⟩)
        ⟨_, hu.live hlive⟩
      omega

theorem sysWrite_spec (hl : Layout sb) (hw : Stable sb s) (p fd : ℕ) (mem : UserMem) (addr n : ℕ) :
    Spec (sysWrite sb p fd mem addr n) s (fun _ t => Step sb (fun c => ∃ f,
      (s.proc p).ofile fd = some f ∧ (s.file f).type = .inode ∧ WriteOk s f n c) s t)
      (Fault P) := by
  have hrefl : ∀ {ok}, Step sb ok s s := Step.refl hw.wf hw.acct
  unfold sysWrite argfd
  refine Spec.bind_ok rfl ?_
  split
  · exact Spec.pure hrefl
  rename_i f hf
  have hof : (s.proc p).ofile fd = some f := by
    split_ifs at hf
    exact hf
  unfold filewrite
  refine Spec.bind_ok rfl (Spec.ite (fun _ => Spec.pure hrefl) fun hwr => ?_)
  split
  · exact Spec.pure hrefl
  · rename_i hty
    refine Spec.bind (filewriteLoop_spec hl hw mem addr n n 0 hty (by simpa using hwr)) fun _ t ht => Spec.pure
      (ht.mono fun c hc => ⟨f, hof, hty, hc⟩)
  · exact Spec.throw ⟨nofun, nofun⟩

/-! ## Processes -/

theorem forkFiles_spec (h : WF sb s) (ha : Acct s) (p n fd : ℕ) :
    Spec (forkFiles p n fd) s (fun _ t => Step sb NoChange s t ∧ t.proc = s.proc) (Fault P) := by
  induction n generalizing s fd with
  | zero => exact Spec.pure ⟨Step.refl h ha, rfl⟩
  | succ n ih =>
    unfold forkFiles
    refine Spec.bind_ok rfl ?_
    split
    · exact ih h ha _
    rename_i f _
    refine Spec.bind (filedup_spec h ha f) ?_
    rintro _ t ⟨ht, htp⟩
    refine Spec.post (ih ht.wf ht.acct _) ?_
    rintro _ u ⟨hu, hup⟩
    exact ⟨ht.trans hu, hup.trans htp⟩

theorem fork_spec (h : WF sb s) (ha : Acct s) (hcwd : Cwd s p) (hq : q < NPROC) (hfree : (s.proc q).cwd = none) :
    Spec (fork p q) s (fun _ t => Step sb NoChange s t) (Fault P) := by
  unfold fork
  refine Spec.bind (forkFiles_spec h ha p NOFILE 0) ?_
  rintro _ t ⟨ht, htp⟩
  obtain ⟨k, i, hk, -⟩ := hcwd
  rw [← htp] at hk hfree
  have hpk := ht.wf.ptr (ht.acct.cwd_pos hk)
  refine Spec.bind_ok rfl ?_
  rw [hk]
  refine Spec.bind (idup_spec ht.wf hpk) ?_
  rintro _ u ⟨-, hu⟩
  refine Spec.of_ok rfl (show Step sb NoChange s { u with proc := u.proc.set q (t.proc p) } from ht.trans ?_)
  have huf := hu.quiet.tab.file
  have hup := hu.quiet.tab.proc
  have hmid : Mid sb NoChange t (t.refs + Pi.single k 1) u := by
    refine ⟨hu.quiet.wf, hu.quiet.tab, hu.refs, fun l hl => le_add_single _ _ _ hl, fun hc _ => ⟨?_, ?_⟩⟩
    · exact hc.take hu.quiet hu.refs (by
        rw [hu.ptr.2.2, node_congr sb hu.blk]; exact hc.alive k hpk.2.1)
    · rw [node_congr sb hu.blk]; exact Effect.refl _ _ _
  refine ((hmid.files u.file (u.proc.set q (t.proc p))).step_files ht.acct ?_ fun f hf hw => Or.inl ?_).toStep
  · refine ht.acct.replace hq (fun _ => uses_no_cwd hfree _) (fun _ => uses_cwd hk _) (fun i => ?_) huf (by rw [← hup])
    exact congrFun hu.refs i
  · simp only [huf] at hf hw ⊢
    exact ⟨hf, hw, trivial⟩

theorem exitFiles_spec (hl : Layout sb) (h : WF sb s) (ha : Acct s) (p n fd : ℕ) :
    Spec (exitFiles sb p n fd) s (fun _ t => Step sb NoChange s t ∧ (t.proc p).cwd = (s.proc p).cwd) (Fault P) := by
  induction n generalizing s fd with
  | zero => exact Spec.pure ⟨Step.refl h ha, rfl⟩
  | succ n ih =>
    unfold exitFiles
    refine Spec.bind_ok rfl ?_
    split
    · exact ih h ha _
    rename_i f _
    refine Spec.bind (fileclose_spec hl h ha f) ?_
    rintro _ t ⟨ht, htp⟩
    have hstep := Step.set_proc (p := p) ht.wf ht.acct
      (x := { t.proc p with ofile := Function.update (t.proc p).ofile fd none }) rfl
    refine Spec.bind_ok rfl (Spec.bind_ok rfl (Spec.post (ih hstep.wf hstep.acct _) ?_))
    rintro _ u ⟨hu, hup⟩
    refine ⟨(ht.trans hstep).trans hu, hup.trans ?_⟩
    simp only [Store.set_self]
    rw [htp]

theorem exit_spec (hl : Layout sb) (h : WF sb s) (ha : Acct s) (hcwd : Cwd s p) :
    Spec (exit sb p) s (fun _ t => Step sb NoChange s t) (Fault P) := by
  unfold exit
  refine Spec.bind (exitFiles_spec hl h ha p NOFILE 0) ?_
  rintro _ t ⟨ht, htp⟩
  obtain ⟨k, i, hk, -⟩ := hcwd
  rw [← htp] at hk
  have hlt : p < NPROC := by
    by_contra hc
    rw [ht.acct.procs p (by omega)] at hk; cases hk
  refine Spec.bind_ok rfl (Spec.post (Step.begin (fun _ => NoChange) ht.wf ht.acct (fun _ _ _ => id) ?_)
    fun _ u hu => ht.trans hu)
  intro t0 hto h0 ha0
  have hk0 : (t0.proc p).cwd = some k := by rw [hto.proc]; exact hk
  have hpk := h0.ptr (ha0.cwd_pos hk0)
  have hsF := sub_single (F := t0.refs) hpk.2.1
  have hmid : Mid sb NoChange { t0 with file := t0.file, proc := t0.proc } t0.refs t0 := Mid.refl h0
  rw [hsF] at hmid
  rw [hk]
  refine Spec.bind (iput_spec hl h0 hpk hsF) fun _ w hw => Spec.bind_ok rfl (Spec.of_ok rfl ?_)
  have hwf : w.file = t0.file := hw.quiet.tab.file
  have hwp : w.proc = t0.proc := hw.quiet.tab.proc
  refine hmid.release hpk hw rfl rfl ha0 (ha0.replace hlt (fun _ => uses_cwd hk0 _)
    (x := { t.proc p with cwd := none }) (fun _ => uses_no_cwd rfl _) (fun i => ?_) hwf (by rw [← hwp]))
      fun g hg hgw => ?_
  · show w.refs i + _ = _
    rw [hw.refs]
    exact (congrFun hsF i).symm
  · simp only [hwf] at hg hgw ⊢
    exact ⟨hg, hgw, trivial⟩

/-! ## Programs -/

theorem loadseg_to (h : WF sb s) (hn : Live sb s ip i n) (offset sz fuel j : ℕ) :
    Spec (loadseg sb ip offset sz fuel j) s (fun _ t => To s t s.blk s.inode) E := by
  induction fuel generalizing s j with
  | zero => exact Spec.pure (To.refl s)
  | succ fuel ih =>
    unfold loadseg
    refine Spec.ite (fun _ => ?_) fun _ => Spec.pure (To.refl s)
    refine Spec.bind (readi_to h hn _ _ _) fun r t ht => Spec.ite (fun _ => Spec.pure ht) fun _ => ?_
    refine Spec.post (ih (h.congr ht) (hn.congr ht) _) fun _ u hu => ?_
    exact ht.next hu

theorem execLoop_to (h : WF sb s) (hn : Live sb s ip i n) (mem : ExecMem) (left j off : ℕ) :
    Spec (execLoop sb ip mem left j off) s (fun _ t => To s t s.blk s.inode) E := by
  induction left generalizing s j off with
  | zero => exact Spec.pure (To.refl s)
  | succ left ih =>
    unfold execLoop
    refine Spec.bind (readi_to h hn _ _ _) fun r t ht => ?_
    have hnext : ∀ {u} j off, To s u s.blk s.inode → Spec (execLoop sb ip mem left j off) u
        (fun _ t => To s t s.blk s.inode) E := fun j off hu =>
      Spec.post (ih (h.congr hu) (hn.congr hu) j off) fun _ v hv => hu.next hv
    refine Spec.ite (fun _ => Spec.pure ht) fun _ => Spec.ite (fun _ => hnext _ _ ht) fun _ => ?_
    refine Spec.ite (fun _ => Spec.pure ht) fun _ => Spec.ite (fun _ => Spec.pure ht) fun _ => ?_
    refine Spec.ite (fun _ => Spec.pure ht) fun _ => Spec.ite (fun _ => Spec.pure ht) fun _ => ?_
    refine Spec.bind (loadseg_to (h.congr ht) (hn.congr ht) _ _ _ _) fun b u hu => ?_
    exact Spec.ite (fun _ => hnext _ _ (ht.next hu)) fun _ => Spec.pure (ht.next hu)

theorem execLoad_to (h : WF sb s) (hn : Live sb s ip i n) (mem : ExecMem) :
    Spec (execLoad sb ip mem) s (fun _ t => To s t s.blk s.inode) E := by
  unfold execLoad
  refine Spec.bind (readi_to h hn _ _ _) fun r t ht => ?_
  refine Spec.ite (fun _ => Spec.pure ht) fun _ => Spec.ite (fun _ => Spec.pure ht) fun _ => ?_
  refine Spec.ite (fun _ => Spec.pure ht) fun _ => ?_
  exact Spec.post (execLoop_to (h.congr ht) (hn.congr ht) _ _ _ _) fun _ u hu => ht.next hu

theorem kexec_spec (hl : Layout sb) (h : WF sb s) (ha : Acct s) (hcwd : Cwd s p) (hP : ¬ Safe sb s → P)
    (mem : ExecMem) :
    Spec (kexec sb p path mem) s (fun _ t => Step sb NoChange s t) (Fault P) := by
  unfold kexec
  refine Step.begin (fun _ => NoChange) h ha (fun _ _ _ => id) fun s0 hto h0 ha0 => ?_
  have hP0 : ¬ Safe sb s0 → P := fun hc => hP fun hs => hc (hs.to h hto)
  refine Spec.bind (namei_spec hl h0 (hcwd.to hto) hP0) ?_
  intro r t ht
  cases r with
  | none => exact Spec.post (((Mid.refl h0).same ⟨ht.1, ht.2⟩).end ha0) fun _ _ hu => hu.toStep
  | some ip =>
    refine Spec.bind (ht.lock hP0) ?_
    rintro _ u ⟨i, n, hf, -⟩
    have hmid : Mid sb NoChange s0 (s0.refs + Pi.single ip 1) u := (Mid.refl h0).found hf
    refine Spec.bind (execLoad_to hmid.wf hf.live mem) fun b v hv => ?_
    exact Spec.post ((hmid.to hv).put_end hl (hf.live.congr hv) ha0) fun _ _ hu => hu.toStep

/-! ## The machine -/

/-- a system call; a path is what was fetched from user memory -/
inductive Call where
  | openPath (path : Option (List UInt8)) (omode : ℕ)
  | mkdir (path : Option (List UInt8))
  | mknod (path : Option (List UInt8)) (major minor : UInt16)
  | link (old new : Option (List UInt8))
  | symlink (target path : Option (List UInt8))
  | unlink (path : Option (List UInt8))
  | chdir (path : Option (List UInt8))
  | exec (path : List UInt8) (mem : ExecMem)
  | read (fd : ℕ) (writable : ℕ → Bool) (addr n : ℕ)
  | write (fd : ℕ) (mem : UserMem) (addr n : ℕ)
  | fstat (fd : ℕ) (writable : ℕ → Bool) (addr : ℕ)
  | dup (fd : ℕ)
  | close (fd : ℕ)
  | fork (child : ℕ)
  | exit

/-- process p makes the call -/
def Call.run (sb : Superblock) (p : ℕ) : Call → FsM Unit
  | .openPath path omode => do let _ ← sysOpen sb p path omode
  | .mkdir path => do let _ ← sysMkdir sb p path
  | .mknod path major minor => do let _ ← sysMknod sb p path major minor
  | .link old new => do let _ ← sysLink sb p old new
  | .symlink target path => do let _ ← sysSymlink sb p target path
  | .unlink path => do let _ ← sysUnlink sb p path
  | .chdir path => do let _ ← sysChdir sb p path
  | .exec path mem => do let _ ← kexec sb p path mem
  | .read fd writable addr n => do let _ ← sysRead sb p fd writable addr n
  | .write fd mem addr n => do let _ ← sysWrite sb p fd mem addr n
  | .fstat fd writable addr => do let _ ← sysFstat sb p fd writable addr
  | .dup fd => do let _ ← sysDup p fd
  | .close fd => do let _ ← sysClose sb p fd
  | .fork child => Fs.fork p child
  | .exit => Fs.exit sb p

/-- the changes of the tree that the call may make in state s -/
def Call.Allows (sb : Superblock) (s : St) (p : ℕ) (c : Change) : Call → Prop
  | .openPath (some path) omode => OpenOk sb s p path omode c
  | .mkdir (some path) => CreateOk sb s p path c
  | .mknod (some path) _ _ => CreateOk sb s p path c
  | .link (some old) (some new) => LinkOk sb s p old new c
  | .symlink (some target) (some path) => SymlinkOk sb s p target path c
  | .unlink (some path) => UnlinkOk sb s p path c
  | .write fd _ _ n => ∃ f, (s.proc p).ofile fd = some f ∧ (s.file f).type = .inode ∧ WriteOk s f n c
  | _ => False

/-- the target of a link is one that `argstr` can fetch -/
def Call.fetched : Call → Bool
  | .symlink (some target) _ => target.length < MAXPATH
  | _ => true

/-- process p exists, and a child takes a place that is free -/
def Call.legal (s : St) (p : ℕ) : Call → Prop
  | .fork child => (s.proc p).cwd ≠ none ∧ child < NPROC ∧ (s.proc child).cwd = none
  | _ => (s.proc p).cwd ≠ none

instance (s : St) (p : ℕ) (c : Call) : Decidable (c.legal s p) := by
  cases c <;> unfold Call.legal <;> infer_instance

/-- an action: a process and the call it makes -/
def calls (sb : Superblock) : Machine St (ℕ × Call) Panic where
  legal s a := a.2.legal s a.1
  step s a := (a.2.run sb a.1 s).map Prod.snd

instance (sb : Superblock) (s : St) (a : ℕ × Call) : Decidable ((calls sb).legal s a) := by
  unfold calls; infer_instance

variable {a : ℕ × Call} {c : Call}

/-- what the specification of a call says about a step -/
theorem calls_ok (h : Spec (a.2.run sb a.1) s (fun _ u => Q u) E) (hs : (calls sb).step s a = .ok t) : Q t := by
  cases hc : a.2.run sb a.1 s with
  | error e => simp [calls, hc, Except.map] at hs
  | ok r =>
    simp only [calls, hc, Except.map, Except.ok.injEq] at hs
    subst hs
    exact h.ok hc

theorem calls_error {e : Panic}
    (h : Spec (a.2.run sb a.1) s (fun _ u => Q u) E) (hs : (calls sb).step s a = .error e) : E e := by
  cases hc : a.2.run sb a.1 s with
  | error e' =>
    simp only [calls, hc, Except.map, Except.error.injEq] at hs
    subst hs
    exact h.error hc
  | ok r => simp [calls, hc, Except.map] at hs

theorem Call.legal.cwd (h : c.legal s p) : (s.proc p).cwd ≠ none := by
  cases c
  case fork => exact h.1
  all_goals exact h

/-- the calls that change links -/
def Call.links : Call → Bool
  | .openPath _ _ | .mkdir _ | .mknod _ _ _ | .link _ _ | .symlink _ _ | .unlink _ => true
  | _ => false

theorem links_spec (hl : Layout sb) (h : WF sb s) (ha : Acct s) (hcwd : Cwd s p) (hP : ¬ Safe sb s → P)
    (hc : c.links = true) : Spec (c.run sb p) s (fun _ t => Keeps sb (fun x => c.Allows sb s p x) s t) (Fault P) := by
  have hrefl : ∀ {ok}, Keeps sb ok s s := fun {ok} => (Mid.refl h).step ha
  -- the arguments could not be fetched
  have hnop : ∀ {ok : Change → Prop}, Spec (do beginOp; endOp; return false) s (fun _ t => Keeps sb ok s t) (Fault P) :=
    fun {ok} => Keeps.begin (fun _ => ok) h ha (fun _ _ _ => id) fun _ _ h0 ha0 => (Mid.refl h0).end ha0
  cases c with
  | openPath path omode =>
    cases path with
    | none => exact Spec.bind (Spec.pure hrefl) fun _ t ht => Spec.pure ht
    | some path => exact Spec.bind (sysOpen_spec hl h ha hcwd hP omode) fun _ t ht => Spec.pure ht
  | mkdir path =>
    cases path with
    | none => exact Spec.bind hnop fun _ t ht => Spec.pure ht
    | some path => exact Spec.bind (sysCreate_spec hl h ha hcwd hP (by decide) 0 0) fun _ t ht => Spec.pure ht
  | mknod path major minor =>
    cases path with
    | none => exact Spec.bind hnop fun _ t ht => Spec.pure ht
    | some path => exact Spec.bind (sysCreate_spec hl h ha hcwd hP (by decide) major minor) fun _ t ht => Spec.pure ht
  | link old new =>
    cases old with
    | none => exact Spec.bind (Spec.pure hrefl) fun _ t ht => Spec.pure ht
    | some old =>
      cases new with
      | none => exact Spec.bind (Spec.pure hrefl) fun _ t ht => Spec.pure ht
      | some new => exact Spec.bind (sysLink_spec hl h hcwd hP old new) fun _ t ht => Spec.pure (ht.mid.step ha)
  | symlink target path =>
    cases target with
    | none => exact Spec.bind (Spec.pure hrefl) fun _ t ht => Spec.pure ht
    | some target =>
      cases path with
      | none => exact Spec.bind (Spec.pure hrefl) fun _ t ht => Spec.pure ht
      | some path => exact Spec.bind (sysSymlink_spec hl h ha hcwd hP target) fun _ t ht => Spec.pure ht
  | unlink path =>
    cases path with
    | none => exact Spec.bind (Spec.pure hrefl) fun _ t ht => Spec.pure ht
    | some path => exact Spec.bind (sysUnlink_spec hl h hcwd hP path) fun _ t ht => Spec.pure (ht.mid.step ha)
  | _ => cases hc

theorem call_spec (hl : Layout sb) (hw : Stable sb s) (hP : ¬ Safe sb s → P) (hc : c.legal s p) :
    Spec (c.run sb p) s (fun _ t => Step sb (fun x => c.Allows sb s p x) s t) (Fault P) := by
  have h := hw.wf
  have ha := hw.acct
  have hcwd : Cwd s p := ha.has_cwd h hc.cwd
  have hno : ∀ {t}, Step sb NoChange s t → Step sb (fun x => c.Allows sb s p x) s t := fun ht =>
    ht.mono fun _ hf => hf.elim
  cases c with
  | chdir path =>
    cases path with
    | none =>
      refine Spec.bind (Spec.bind_ok rfl ?_) fun _ t ht => Spec.pure (hno ht)
      exact Spec.post (Keeps.begin (fun _ => NoChange) h ha (fun _ _ _ => id) fun _ _ h0 ha0 => (Mid.refl h0).end ha0)
        fun _ _ ht => ht.toStep
    | some path => exact Spec.bind (sysChdir_spec hl h ha hcwd hP) fun _ t ht => Spec.pure (hno ht)
  | exec path mem => exact Spec.bind (kexec_spec hl h ha hcwd hP mem) fun _ t ht => Spec.pure (hno ht)
  | read fd writable addr n =>
    exact Spec.bind (sysRead_spec h ha hP p fd writable addr n) fun _ t ht => Spec.pure (hno ht)
  | write fd mem addr n => exact Spec.bind (sysWrite_spec hl hw p fd mem addr n) fun _ t ht => Spec.pure ht
  | fstat fd writable addr =>
    exact Spec.bind (sysFstat_spec h ha hP p fd writable addr) fun _ t ht => Spec.pure (hno ht)
  | dup fd => exact Spec.bind (sysDup_spec h ha p fd) fun _ t ht => Spec.pure (hno ht)
  | close fd => exact Spec.bind (sysClose_spec hl h ha p fd) fun _ t ht => Spec.pure (hno ht)
  | fork child => exact Spec.post (fork_spec h ha hcwd hc.2.1 hc.2.2) fun _ t ht => hno ht
  | exit => exact Spec.post (exit_spec hl h ha hcwd) fun _ t ht => hno ht
  | _ => exact Spec.post (links_spec hl h ha hcwd hP rfl) fun _ _ ht => ht.toStep

end Xv6.Fs
