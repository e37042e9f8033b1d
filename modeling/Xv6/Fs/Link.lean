/-
`sys_link` and `sys_unlink` (kernel/sysfile.c).

`Called`: what is left when a call on paths returns: the references are those of before, and, if the state was calm, the
tree has changed as the call allows. `sysLink_spec`, `sysUnlink_spec`: this holds on every exit; the calls come to a
free inode only if an entry names one (`Safe`).
-/
import Xv6.Fs.Sound
import Xv6.Fs.Balance

namespace Xv6.Fs

open Xv6.Core

variable {sb : Superblock} {p i j k ip dp : ℕ} {s t u v w : St} {F : ℕ → ℕ} {P : Prop} {n m : Node} {T T' : Tree}
  {name path old new : List UInt8} {ok : Change → Prop}

/-! ## Lookups -/

/-- no entry leads to an inode that is not in use -/
structure Safe (sb : Superblock) (s : St) : Prop where
  calm : Calm sb s
  named : ∀ i n, s.node sb i = some n → n.type = T_DIR → ∀ e ∈ entries n.bytes, e.inum ≠ 0 → s.node sb e.inum ≠ none
  root : s.node sb ROOTINO ≠ none

/-- the current directory of a process -/
def Cwd (s : St) (p : ℕ) : Prop := ∃ k i, (s.proc p).cwd = some k ∧ Ptr s k i

theorem Safe.start (hs : Safe sb s) (hcwd : Cwd s p) (path : List UInt8) : s.node sb (startInum s p path) ≠ none := by
  unfold startInum
  split_ifs
  · exact hs.root
  · obtain ⟨k, i, hk, hp⟩ := hcwd
    rw [hk]
    exact hs.calm.alive k hp.2.1

theorem Safe.lookup (hs : Safe sb s) (hcwd : Cwd s p) (path : List UInt8) :
    Sure sb s.refs s ∧ s.node sb (startInum s p path) ≠ none := ⟨⟨hs.calm.held, hs.named⟩, hs.start hcwd path⟩

theorem Safe.of_nodes (hs : Safe sb s) (hc : Calm sb t)
    (hnode : ∀ i, (t.node sb i).map (fun n => (n.type, n.bytes)) = (s.node sb i).map fun n => (n.type, n.bytes)) :
    Safe sb t := by
  have hnone : ∀ i, t.node sb i = none ↔ s.node sb i = none := fun i => by
    have := congrArg Option.isNone (hnode i)
    simpa [← Option.isNone_iff_eq_none] using this
  refine ⟨hc, fun i n hn hd e he h0 => ?_, fun h => hs.root ((hnone _).1 h)⟩
  rw [ne_eq, hnone]
  obtain ⟨m, hm, hmn⟩ : ∃ m, s.node sb i = some m ∧ (m.type, m.bytes) = (n.type, n.bytes) := by
    have := hnode i
    rw [hn] at this
    simpa using this.symm
  obtain ⟨h1, h2⟩ := Prod.mk.inj hmn
  exact hs.named i m hm (h1.trans hd) e (h2 ▸ he) h0

/-- a lookup does not see link counts -/
theorem walk_nlink (hj : T j = some m) (x : UInt16) (parent : Bool) (fuel : ℕ) (path : List UInt8) (i : ℕ)
    (name : List UInt8) : walk (Function.update T j (some { m with nlink := x })) parent fuel path i name =
      walk T parent fuel path i name := by
  induction fuel generalizing path i name with
  | zero => rfl
  | succ fuel ih =>
    unfold walk
    split
    · rfl
    · by_cases hij : i = j
      · rw [hij, Function.update_self, hj]
        simp only [ih]
      · rw [Function.update_of_ne hij]
        simp only [ih]

theorem walk_parent_dir {fuel : ℕ} {name' : List UInt8} (h : walk T true fuel path i name = some (j, name')) :
    ∃ n, T j = some n ∧ n.type = T_DIR := by
  induction fuel generalizing path i name with
  | zero => simp [walk] at h
  | succ fuel ih =>
    unfold walk at h
    split at h
    · simp at h
    split at h
    · cases h
    rename_i n hn
    split_ifs at h with hd hp
    · simp only [Option.some.injEq, Prod.mk.injEq] at h
      exact ⟨n, h.1 ▸ hn, not_not.1 hd⟩
    · split at h
      · cases h
      · exact ih h

theorem startInum_tab (htab : Tab s.refs s t) (hcwd : Cwd s p) (path : List UInt8) :
    startInum t p path = startInum s p path := by
  obtain ⟨k, i, hk, hp⟩ := hcwd
  unfold startInum
  rw [htab.proc, hk]
  split_ifs
  · rfl
  · exact (htab.kept k hp.2.1).1

theorem Cwd.tab (hcwd : Cwd s p) (htab : Tab s.refs s t) (hle : ∀ k, 0 < s.refs k → 0 < t.refs k) : Cwd t p := by
  obtain ⟨k, i, hk, hp⟩ := hcwd
  exact ⟨k, i, by rw [htab.proc]; exact hk, htab.ptr hp.2.1 (hle k hp.2.1) hp⟩

/-- what `namei` can return -/
def NameiPost (sb : Superblock) (p : ℕ) (path : List UInt8) (s : St) (r : Option ℕ) (t : St) : Prop :=
  match r with
  | none => Quiet sb s.refs s t ∧ t.refs = s.refs
  | some ip => ∃ i, Quiet sb s.refs s t ∧ Ptr t ip i ∧ t.refs = s.refs + Pi.single ip 1 ∧
      (Calm sb s → ∃ name, s.walk sb p path false = some (i, name)) ∧ (Safe sb s → s.node sb i ≠ none)

theorem namei_spec (hl : Layout sb) (h : WF sb s) (hcwd : Cwd s p) (hP : ¬ Safe sb s → P) :
    Spec (namei sb p path) s (NameiPost sb p path s) (Fault P) := by
  unfold namei
  refine Spec.bind (namex_spec hl h hcwd fun hc => hP fun hs => hc (hs.lookup hcwd path)) ?_
  rintro r t ⟨hq, hr⟩
  cases r with
  | none => exact Spec.pure ⟨hq, hr.1⟩
  | some x =>
    obtain ⟨i, hp, hr, -, hw, hs⟩ := hr
    exact Spec.pure ⟨i, hq, hp, hr, fun hc => ⟨x.2, hw hc.held⟩, fun hsafe =>
      hs (hsafe.lookup hcwd path).1 (hsafe.lookup hcwd path).2⟩

theorem NameiPost.lock (h : NameiPost sb p path s (some ip) t) (hP : ¬ Safe sb s → P) :
    Spec (ilock sb ip) t (fun _ u => ∃ i n, Found sb ip i n s u ∧
      (Calm sb s → ∃ name, s.walk sb p path false = some (i, name))) (Fault P) := by
  obtain ⟨i, hq, hp, hr, hw, hs⟩ := h
  refine Spec.post (ilock_spec hq.wf hp fun h0 => hP fun hsafe => hs hsafe ?_) ?_
  · rw [← hsafe.calm.held.node hq]; exact h0
  · intro _ u hu
    have hle := pos_refs hr
    exact ⟨i, _, Found.of (hq.trans (hu.quiet.mono hle)) (hu.refs.trans hr)
      ⟨hu.ptr, hu.valid, hu.quiet.wf.node_ptr hu.ptr hu.valid⟩, hw⟩

/-! ## Dropping what was found -/

/-- nothing has changed -/
structure Same (sb : Superblock) (s t : St) : Prop where
  quiet : Quiet sb s.refs s t
  refs : t.refs = s.refs

theorem Same.calm (h : Same sb s t) (hc : Calm sb s) : Calm sb t ∧ t.node sb = s.node sb :=
  ⟨hc.quiet h.quiet h.refs, hc.held.node h.quiet⟩

theorem Found.drop (h : Found sb ip i n s t) (hd : Dropped sb s.refs ip i t u) : Same sb s u :=
  ⟨h.quiet.trans hd.quiet, hd.refs⟩

theorem Found.put (hl : Layout sb) (h : Found sb ip i n s t) :
    Spec (iunlockput sb ip) t (fun _ u => Same sb s u) (Fault P) :=
  Spec.post (iunlockput_spec hl h.quiet.wf h.live.ptr h.live.valid h.refs) fun _ _ hu => h.drop hu

/-! ## Calls -/

/-- directories have room for one more link -/
def Spare (T : Tree) : Prop := ∀ i n, T i = some n → n.type = T_DIR → n.nlink + 1 ≠ 0

/-- a call on paths has returned -/
structure Called (sb : Superblock) (ok : Change → Prop) (s t : St) : Prop where
  wf : WF sb t
  tab : Tab s.refs s t
  refs : t.refs = s.refs
  tree : Calm sb s → Spare (s.node sb) → Calm sb t ∧ Effect sb ok (s.node sb) (t.node sb)

theorem Same.called (h : Same sb s t) : Called sb ok s t :=
  ⟨h.quiet.wf, h.quiet.tab, h.refs, fun hc _ => ⟨(h.calm hc).1, by rw [(h.calm hc).2]; exact Effect.refl _ _ _⟩⟩

theorem refs_to (hto : To s t s.blk s.inode) : t.refs = s.refs := by unfold St.refs; rw [hto.inode]

theorem Same.of_to (h : WF sb s) (hto : To s t s.blk s.inode) : Same sb s t := ⟨Quiet.of_to h hto _, refs_to hto⟩

theorem Same.trans (h : Same sb s t) (h' : Same sb t u) : Same sb s u :=
  ⟨h.quiet.trans (h.refs ▸ h'.quiet), h'.refs.trans h.refs⟩

theorem Same.then (h : Same sb s t) (h' : Called sb ok t u) : Called sb ok s u := by
  refine ⟨h'.wf, h.quiet.tab.trans (h.refs ▸ h'.tab), h'.refs.trans h.refs, fun hc hsp => ?_⟩
  obtain ⟨hc', hnode⟩ := h.calm hc
  rw [← hnode] at hsp ⊢
  exact h'.tree hc' hsp

theorem Called.then (h : Called sb ok s t) (h' : Same sb t u) : Called sb ok s u := by
  have htab := h'.quiet.tab
  rw [h.refs] at htab
  refine ⟨h'.quiet.wf, h.tab.trans htab, h'.refs.trans h.refs, fun hc hsp => ?_⟩
  obtain ⟨hc1, heff⟩ := h.tree hc hsp
  obtain ⟨hc2, hnode⟩ := h'.calm hc1
  exact ⟨hc2, by rw [hnode]; exact heff⟩

theorem to_event (s : St) (e : Ev) : To s { s with trace := s.trace ++ [e] } s.blk s.inode := ⟨rfl, rfl, rfl, rfl⟩

theorem Called.end {α : Type} {a : α} (h : Called sb ok s t) :
    Spec (do endOp; return a) t (fun _ u => Called sb ok s u) (Fault P) :=
  Spec.bind_ok rfl (Spec.pure (h.then (Same.of_to h.wf (to_event t .endOp))))

theorem walk_to (hto : To s t s.blk s.inode) (p : ℕ) (path : List UInt8) (parent : Bool) :
    t.walk sb p path parent = s.walk sb p path parent := by
  unfold St.walk startInum
  rw [node_congr sb hto.blk, hto.inode, hto.proc]

theorem Safe.to (h : Safe sb s) (hwf : WF sb s) (hto : To s t s.blk s.inode) : Safe sb t := by
  refine h.of_nodes (h.calm.to hwf hto) fun i => ?_
  rw [node_congr sb hto.blk]

theorem Cwd.to (h : Cwd s p) (hto : To s t s.blk s.inode) : Cwd t p := by
  obtain ⟨k, i, hk, hp⟩ := h
  refine ⟨k, i, by rw [hto.proc]; exact hk, ?_⟩
  unfold Ptr St.refs
  rw [hto.inode]; exact hp

theorem Called.mono {ok' : Change → Prop} (h : Called sb ok s t) (hok : ∀ c, ok c → ok' c) : Called sb ok' s t :=
  ⟨h.wf, h.tab, h.refs, fun hc hsp => ⟨(h.tree hc hsp).1, (h.tree hc hsp).2.mono hok⟩⟩

/-- the start of a call: its lookups are those of the state before -/
theorem Called.begin {α : Type} {body : FsM α} {E : Panic → Prop} (ok : St → Change → Prop) (h : WF sb s)
    (hok : ∀ t, To s t s.blk s.inode → ∀ c, ok t c → ok s c)
    (hm : ∀ t, To s t s.blk s.inode → WF sb t → Spec body t (fun _ u => Called sb (ok t) t u) E) :
    Spec (do beginOp; body) s (fun _ u => Called sb (ok s) s u) E := by
  have hto := to_event s .beginOp
  exact Spec.bind_ok rfl (Spec.post (hm _ hto (h.congr hto)) fun _ u hu =>
    (Same.of_to h hto).then (hu.mono (hok _ hto)))

/-! ## `sys_link` -/

theorem linkBad_spec (hl : Layout sb) (h : WF sb s) (hip : Live sb s ip j m) (hF : s.refs = F + Pi.single ip 1) :
    Spec (linkBad sb ip) s (fun _ t => WF sb t ∧ Tab F s t ∧ t.refs = F ∧
      (Calm sb s → 0 < F ip ∨ m.nlink - 1 ≠ 0 →
        Calm sb t ∧ t.node sb = Function.update (s.node sb) j (some { m with nlink := m.nlink - 1 }))) (Fault P) := by
  have hle := pos_refs hF
  unfold linkBad
  refine Spec.bind (ilock_spec h hip.ptr fun h0 => by rw [hip.node] at h0; cases h0) ?_
  intro _ t ht
  have hipt := hip.quiet ht.quiet hip.ptr.2.1 (by rw [ht.refs]; exact hip.ptr.2.1)
  refine Spec.bind (setNlink_spec hl ht.quiet.wf hipt _) ?_
  intro _ u hu
  have hipu := hu.live hipt
  have hur : u.refs = F + Pi.single ip 1 := (hu.refs.trans ht.refs).trans hF
  refine Spec.bind (iunlockput_spec hl hu.wf hipu.ptr hipu.valid hur) ?_
  intro _ v hv
  have hto := to_event v .endOp
  refine Spec.bind_ok rfl (Spec.pure ⟨hv.quiet.wf.congr hto, ?_, (refs_to hto).trans hv.refs, fun hc h0 => ?_⟩)
  · have htu := hu.tab
    rw [ht.refs] at htu
    exact (((ht.quiet.tab.trans htu).mono hle).trans hv.quiet.tab).trans (Quiet.of_to hv.quiet.wf hto F).tab
  have hcu : Calm sb u := (hc.loaded ht).puts hu fun _ => ⟨ip, hipt.ptr.2.1, hipt.ptr.2.2, hipt.valid⟩
  have hcv := hcu.drop hu.wf hipu.ptr hur hv
  refine ⟨hcv.to hv.quiet.wf hto, ?_⟩
  rw [node_congr sb hto.blk, hv.node_same hcu hu.wf hipu.ptr (h0.imp_right fun h0 x hx => ?_), hu.node,
    node_congr sb ht.blk]
  rw [hipu.node] at hx
  cases hx
  exact h0

/-- `sys_link` has found the old inode j and counted the new link -/
structure Raised (sb : Superblock) (ip j : ℕ) (m : Node) (s t : St) : Prop where
  wf : WF sb t
  tab : Tab s.refs s t
  refs : t.refs = s.refs + Pi.single ip 1
  live : Live sb t ip j { m with nlink := m.nlink + 1 }
  node : s.node sb j = some m
  calm : Calm sb s → Calm sb t ∧ t.node sb = Function.update (s.node sb) j (some { m with nlink := m.nlink + 1 })
  held : Calm sb s → 0 < s.refs ip ∨ m.nlink ≠ 0

theorem Found.raise (h : Found sb ip j m s t) (hu : Puts sb t u j (some { m with nlink := m.nlink + 1 }))
    (hv : Loaded sb ip j u v) : Raised sb ip j m s v := by
  have hlive := hu.live h.live
  have hle := pos_refs h.refs
  have htab := hv.quiet.tab
  rw [hu.refs] at htab
  refine ⟨hv.quiet.wf, h.quiet.tab.trans ((hu.tab.trans htab).mono hle), (hv.refs.trans hu.refs).trans h.refs,
    hlive.quiet hv.quiet hlive.ptr.2.1 (by rw [hv.refs]; exact hlive.ptr.2.1), h.node, fun hc => ⟨?_, ?_⟩, h.held⟩
  · exact ((h.calm hc).puts hu fun _ => ⟨ip, h.live.ptr.2.1, h.live.ptr.2.2, h.live.valid⟩).loaded hv
  · rw [node_congr sb hv.blk, hu.node, hc.held.node h.quiet]

theorem Raised.le (h : Raised sb ip j m s t) : ∀ k, 0 < s.refs k → 0 < t.refs k := pos_refs h.refs

theorem Raised.fail (hl : Layout sb) (h : Raised sb ip j m s t) (hu : Same sb t u) :
    Spec (linkBad sb ip) u (fun _ v => Called sb ok s v) (Fault P) := by
  have hlive := h.live.quiet hu.quiet h.live.ptr.2.1 (by rw [hu.refs]; exact h.live.ptr.2.1)
  refine Spec.post (linkBad_spec hl hu.quiet.wf hlive (hu.refs.trans h.refs)) ?_
  rintro _ v ⟨hwf, htab, hr, htree⟩
  refine ⟨hwf, (h.tab.trans (hu.quiet.tab.mono h.le)).trans htab, hr, fun hc _ => ?_⟩
  obtain ⟨hct, hnt⟩ := h.calm hc
  obtain ⟨hcu, hnu⟩ := hu.calm hct
  obtain ⟨hcv, hnv⟩ := htree hcu ((h.held hc).imp_right fun h0 => by simpa using h0)
  refine ⟨hcv, ?_⟩
  have hback : ({ m with nlink := m.nlink + 1 - 1 } : Node) = m := by simp
  rw [hnv, hnu, hnt, Function.update_idem]
  simp only [hback]
  rw [← h.node, Function.update_eq_self]
  exact Effect.refl _ _ _

theorem Raised.safe (h : Raised sb ip j m s t) (hs : Safe sb s) : Safe sb t := by
  obtain ⟨hc, hn⟩ := h.calm hs.calm
  refine hs.of_nodes hc fun i => ?_
  rw [hn]
  by_cases hij : i = j
  · rw [hij, Function.update_self, h.node]; rfl
  · rw [Function.update_of_ne hij]

theorem Raised.walk (h : Raised sb ip j m s t) (hc : Calm sb s) (hcwd : Cwd s p) (path : List UInt8) (parent : Bool) :
    t.walk sb p path parent = s.walk sb p path parent := by
  unfold St.walk
  rw [(h.calm hc).2, walk_nlink h.node, startInum_tab h.tab hcwd]

/-- what `sys_link` may do: link the file j that the path old leads to into the directory i of the path new -/
def LinkOk (sb : Superblock) (s : St) (p : ℕ) (old new : List UInt8) (c : Change) : Prop :=
  ∃ i j name name', c = .link i j name ∧ s.walk sb p old false = some (j, name') ∧ s.walk sb p new true = some (i, name)

theorem Raised.done (hl : Layout sb) (h : Raised sb ip j m s t) (hm : m.type ≠ T_DIR)
    (hcwd : Cwd s p) (hold : Calm sb s → ∃ name', s.walk sb p old false = some (j, name'))
    (hpar : Parent sb (t.walk sb p new true) dp i n name t u)
    (hput : LinkPost sb i n name j u true v) :
    Spec (do iunlockput sb dp; iput sb ip; endOp; return true) v
      (fun _ w => Called sb (LinkOk sb s p old new) s w) (Fault P) := by
  obtain ⟨k, hk, hfree, -, habs, hput⟩ := hput
  have hij : i ≠ j := by
    rintro rfl
    have := hpar.node
    rw [h.live.node] at this
    cases this
    exact hm hpar.dir
  have hdp := hput.live hpar.live
  have hvr : v.refs = t.refs + Pi.single dp 1 := hput.refs.trans hpar.refs
  refine Spec.bind (iunlockput_spec hl hput.wf hdp.ptr hdp.valid hvr) ?_
  intro _ w hw
  -- the reference to the file is still there
  have hipu : Live sb u ip j { m with nlink := m.nlink + 1 } :=
    h.live.quiet hpar.quiet h.live.ptr.2.1 (pos_refs hpar.refs _ h.live.ptr.2.1)
  have hipw := (hput.live_ne hipu hij.symm).dropped hw h.live.ptr.2.1
  have hwr : w.refs = s.refs + Pi.single ip 1 := hw.refs.trans h.refs
  refine Spec.bind (iput_spec hl hw.quiet.wf hipw.ptr hwr) ?_
  intro _ x hx
  refine Called.end ⟨hx.quiet.wf, ?_, hx.refs, fun hc _ => ?_⟩
  · have hle := pos_refs hpar.refs
    have h1 := (hpar.quiet.tab.trans (hput.tab.mono hle)).trans hw.quiet.tab
    exact (h.tab.trans (h1.mono h.le)).trans hx.quiet.tab
  obtain ⟨hct, hnt⟩ := h.calm hc
  have hcu := hpar.calm hct
  have hcv := hcu.puts hput fun _ => ⟨dp, hpar.live.ptr.2.1, hpar.live.ptr.2.2, hpar.live.valid⟩
  have hcw := hcv.drop hput.wf hdp.ptr hvr hw
  have hnw : w.node sb = Function.update (Function.update (s.node sb) j (some { m with nlink := m.nlink + 1 })) i
      (some { n with bytes := putEntry n.bytes k (link name j) }) := by
    rw [hw.node_same hcv hput.wf hdp.ptr ((hpar.held hct).imp_right fun h0 y hy => ?_), hput.node,
      hct.held.node hpar.quiet, hnt]
    rw [hdp.node] at hy
    cases hy
    exact h0
  have hdir : s.node sb i = some n := by
    have := hpar.node
    rwa [hnt, Function.update_of_ne hij] at this
  obtain ⟨name', hold⟩ := hold hc
  have hok : LinkOk sb s p old new (.link i j name) :=
    ⟨i, j, name, name', rfl, hold, by rw [← h.walk hc hcwd]; exact hpar.walk hct⟩
  have heff : Effect sb (LinkOk sb s p old new) (s.node sb) (w.node sb) :=
    ⟨w.node sb, Or.inr (.link ⟨hdir, hpar.dir, h.node, hm, hk, hfree, habs, hnw⟩ hok), .refl⟩
  refine ⟨hcw.drop hw.quiet.wf hipw.ptr hwr hx, ?_⟩
  rw [hx.node_eq hcw hw.quiet.wf hipw.ptr]
  split_ifs with hz
  · obtain ⟨-, y, hy, h0⟩ := hz
    exact heff.minor (.free hy h0)
  · exact heff

theorem LinkOk.to (hto : To s t s.blk s.inode) (c : Change) (h : LinkOk sb t p old new c) :
    LinkOk sb s p old new c := by
  obtain ⟨i, j, name, name', hc, h1, h2⟩ := h
  rw [walk_to hto] at h1 h2
  exact ⟨i, j, name, name', hc, h1, h2⟩

theorem sysLink_spec (hl : Layout sb) (h : WF sb s) (hcwd : Cwd s p) (hP : ¬ Safe sb s → P) (old new : List UInt8) :
    Spec (sysLink sb p (some old) (some new)) s (fun _ t => Called sb (LinkOk sb s p old new) s t) (Fault P) := by
  refine Called.begin (LinkOk sb · p old new) h (fun t hto => LinkOk.to hto) fun s0 hto h0 => ?_
  have hP0 : ¬ Safe sb s0 → P := fun hc => hP fun hs => hc (hs.to h hto)
  have hcwd0 := hcwd.to hto
  refine Spec.bind (namei_spec hl h0 hcwd0 hP0) ?_
  intro r t ht
  cases r with
  | none => exact Called.end (Same.called ⟨ht.1, ht.2⟩)
  | some ip =>
    refine Spec.bind (ht.lock hP0) ?_
    rintro _ u ⟨j, m, hf, hold⟩
    refine Spec.bind_ok rfl (Spec.ite (fun _ => ?_) fun hty => ?_)
    · exact Spec.bind (hf.put hl) fun _ v hv => Called.end hv.called
    rw [(hf.live.din hf.quiet.wf).1] at hty
    refine Spec.bind (setNlink_spec hl hf.quiet.wf hf.live _) ?_
    intro _ v hv
    have hlv := hv.live hf.live
    refine Spec.bind (iunlock_spec hv.wf hlv.ptr hlv.valid) ?_
    intro _ w hw
    have hr := hf.raise hv hw
    have hcw := hcwd0.tab hr.tab hr.le
    refine Spec.bind (namex_spec hl hr.wf hcw fun hc => hP0 fun hs => hc ((hr.safe hs).lookup hcw new)) ?_
    intro r x hx
    cases r with
    | none => exact hr.fail hl ⟨hx.1, hx.2.1⟩
    | some y =>
      obtain ⟨dp, name⟩ := y
      obtain ⟨i, n, hlive, hpar⟩ := hx.parent
      refine Spec.bind (ilock_spec hx.1.wf hlive.ptr fun h0 => by rw [hlive.node] at h0; cases h0) ?_
      intro _ y hy
      have hpar := hpar y hy
      have hinum : (u.inode ip).inum = j := hf.live.ptr.2.2
      have hj : j < sb.ninodes := hf.quiet.wf.range ip j hf.live.ptr
      rw [hinum]
      refine Spec.bind (dirlink_spec hl hpar.quiet.wf hpar.live hpar.dir hj) ?_
      intro r z hz
      cases r with
      | true => exact hr.done hl hty hcwd0 hold hpar hz
      | false =>
        have hfz : Found sb dp i n w z := by
          refine Found.of (hpar.quiet.trans (hz.1.mono fun k hk => ?_)) (hz.2.trans hpar.refs)
            (hpar.live.quiet hz.1 hpar.live.ptr.2.1 (by rw [hz.2]; exact hpar.live.ptr.2.1))
          rw [hpar.refs]; exact le_add_single _ _ _ hk
        exact Spec.bind (hfz.put hl) fun _ a ha => hr.fail hl ha

/-! ## `sys_unlink` -/

/-- `sys_unlink` has found and locked the directory i and the inode j -/
structure Both (sb : Superblock) (dp ip i j : ℕ) (n m : Node) (s t : St) : Prop where
  quiet : Quiet sb s.refs s t
  refs : t.refs = s.refs + Pi.single ip 1 + Pi.single dp 1
  dir : Live sb t dp i n
  node : Live sb t ip j m
  ne : i ≠ j
  calm : Calm sb s → Calm sb t

theorem Both.fail (hl : Layout sb) (h : Both sb dp ip i j n m s t) :
    Spec (do iunlockput sb ip; unlinkBad sb dp) t (fun _ u => Called sb ok s u) (Fault P) := by
  have hr : t.refs = s.refs + Pi.single dp 1 + Pi.single ip 1 := by rw [h.refs, add_right_comm]
  refine Spec.bind (iunlockput_spec hl h.quiet.wf h.node.ptr h.node.valid hr) ?_
  intro _ u hu
  have hdir := h.dir.dropped hu (single_pos _ dp)
  refine Spec.bind (iunlockput_spec hl hu.quiet.wf hdir.ptr hdir.valid hu.refs) ?_
  intro _ v hv
  have hq : Quiet sb s.refs s v := (h.quiet.trans (hu.quiet.mono (le_add_single _ _))).trans hv.quiet
  exact Called.end (Same.called ⟨hq, hv.refs⟩)

/-- what `sys_unlink` may do: remove the entry with the last name of the path -/
def UnlinkOk (sb : Superblock) (s : St) (p : ℕ) (path : List UInt8) (c : Change) : Prop :=
  ∃ i j n name, c = .unlink i j name ∧ s.walk sb p path true = some (i, name) ∧ s.node sb i = some n ∧
    lookup n.bytes name = some j

theorem UnlinkOk.to (hto : To s t s.blk s.inode) (c : Change) (h : UnlinkOk sb t p path c) :
    UnlinkOk sb s p path c := by
  obtain ⟨i, j, n, name, hc, h1, h2, h3⟩ := h
  rw [walk_to hto] at h1
  rw [node_congr sb hto.blk] at h2
  exact ⟨i, j, n, name, hc, h1, h2, h3⟩

/-- the directory without the entry -/
def Node.without (n : Node) (k : ℕ) (type : UInt16) : Node :=
  { n with nlink := if type = T_DIR then n.nlink - 1 else n.nlink, bytes := putEntry n.bytes k noEntry }

/-- the entry has been cleared: drop the directory, and then the inode with one link less -/
theorem Both.done (hl : Layout sb) (h : Both sb dp ip i j n m s t) (hu : Puts sb t u i (some (n.without k m.type)))
    (hok : Calm sb s → ∃ T1, Major sb ok (s.node sb) T1 ∧ T1 = Function.update (Function.update (s.node sb) i
      (some (n.without k m.type))) j (some { m with nlink := m.nlink - 1 })) :
    Spec (unlinkDone sb dp ip) u (fun _ v => Called sb ok s v) (Fault P) := by
  have hdir := hu.live h.dir
  have hnode := hu.live_ne h.node h.ne.symm
  have hur : u.refs = s.refs + Pi.single ip 1 + Pi.single dp 1 := hu.refs.trans h.refs
  have hle : ∀ k, 0 < s.refs k → 0 < t.refs k := fun k hk => by
    rw [h.refs]; exact le_add_single _ _ _ (le_add_single _ _ _ hk)
  unfold unlinkDone
  refine Spec.bind (iunlockput_spec hl hu.wf hdir.ptr hdir.valid hur) ?_
  intro _ v hv
  have hnv := hnode.dropped hv (single_pos _ ip)
  refine Spec.bind (setNlink_spec hl hv.quiet.wf hnv _) ?_
  intro _ w hw
  have hnw := hw.live hnv
  have hwr : w.refs = s.refs + Pi.single ip 1 := hw.refs.trans hv.refs
  refine Spec.bind (iunlockput_spec hl hw.wf hnw.ptr hnw.valid hwr) ?_
  intro _ x hx
  refine Called.end ⟨hx.quiet.wf, ?_, hx.refs, fun hc _ => ?_⟩
  · have htw := hw.tab
    rw [hv.refs] at htw
    have h1 := ((hv.quiet.tab.trans htw).mono (le_add_single s.refs ip)).trans hx.quiet.tab
    exact (h.quiet.tab.trans (hu.tab.mono hle)).trans h1
  obtain ⟨T1, hmajor, hT1⟩ := hok hc
  have hcu := (h.calm hc).puts hu fun _ => ⟨dp, h.dir.ptr.2.1, h.dir.ptr.2.2, h.dir.valid⟩
  have hcv := hcu.drop hu.wf hdir.ptr hur hv
  have hcw := hcv.puts hw fun _ => ⟨ip, hnv.ptr.2.1, hnv.ptr.2.2, hnv.valid⟩
  have heff : Effect sb ok (s.node sb) (w.node sb) := by
    have h1 : Effect sb ok (s.node sb) T1 := ⟨T1, Or.inr hmajor, .refl⟩
    rw [hw.node, hv.node_eq hcu hu.wf hdir.ptr, hu.node, hc.held.node h.quiet]
    split_ifs with hz
    · obtain ⟨-, y, hy, h0⟩ := hz
      rw [Function.update_self] at hy
      cases hy
      rw [Function.update_comm h.ne, ← hT1]
      refine h1.minor (.free (m := n.without k m.type) ?_ h0)
      rw [hT1, Function.update_of_ne h.ne, Function.update_self]
    · rw [← hT1]; exact h1
  refine ⟨hcw.drop hw.wf hnw.ptr hwr hx, ?_⟩
  rw [hx.node_eq hcw hw.wf hnw.ptr]
  split_ifs with hz
  · obtain ⟨-, y, hy, h0⟩ := hz
    exact heff.minor (.free hy h0)
  · exact heff

theorem bytes_noEntry : noEntry.bytes = List.replicate DESIZE 0 := by decide +kernel

theorem Both.entry (hl : Layout sb) (h : Both sb dp ip i j n m s t) (hdir : n.type = T_DIR) {empty : Bool}
    (hempty : empty = true → m.type = T_DIR → ∀ x, 2 ≤ x → x < m.bytes.length / DESIZE → (entry m.bytes x).inum = 0)
    (hk : k < n.bytes.length / DESIZE) (hit : Hit n.bytes name k) (hfirst : ∀ x, x < k → ¬ Hit n.bytes name x)
    (hj : (entry n.bytes k).inum = j) (h1 : namecmp name DOT = false) (h2 : namecmp name DOTDOT = false)
    (hwalk : Calm sb s → s.walk sb p path true = some (i, name)) :
    Spec (unlinkEntry sb dp ip (k * DESIZE) m.type empty) t (fun _ u => Called sb (UnlinkOk sb s p path) s u)
      (Fault P) := by
  unfold unlinkEntry
  refine Spec.ite (fun _ => h.fail hl) fun he => ?_
  rw [← bytes_noEntry]
  refine Spec.bind (write_entry hl h.quiet.wf h.dir hdir hk.le (by simp [noEntry]) ?_) ?_
  · show 0 < sb.ninodes
    have := h.quiet.wf.range dp i h.dir.ptr
    omega
  rintro r u (⟨hr, -⟩ | ⟨rfl, hu⟩)
  · rw [if_pos hr]; exact Spec.throw (by simp [Fault])
  rw [if_neg (not_not.2 rfl)]
  have hmajor : Calm sb s → ∃ T1, Major sb (UnlinkOk sb s p path) (s.node sb) T1 ∧
      T1 = Function.update (Function.update (s.node sb) i (some (n.without k m.type))) j
        (some { m with nlink := m.nlink - 1 }) := fun hc => by
    have hnode := hc.held.node h.quiet
    have hn : s.node sb i = some n := by rw [← hnode]; exact h.dir.node
    have hm : s.node sb j = some m := by rw [← hnode]; exact h.node.node
    refine ⟨_, .unlink ⟨hn, hdir, hm, h.ne, hk, hit, hj, h1, h2, hempty (by simpa using he), rfl⟩ ?_, rfl⟩
    exact ⟨i, j, n, name, rfl, hwalk hc, hn, by rw [lookup_some hk hit hfirst, hj]⟩
  refine Spec.ite (fun hd => ?_) fun hd => ?_
  · have hlive := hu.live h.dir
    refine Spec.bind (setNlink_spec hl hu.wf hlive _) ?_
    intro _ v hv
    refine h.done hl (hu.trans ?_) hmajor
    rw [Node.without, if_pos hd]; exact hv
  · refine h.done hl ?_ hmajor
    rw [Node.without, if_neg hd]; exact hu

theorem Both.to (h : Both sb dp ip i j n m s t) (hto : To t u t.blk t.inode) : Both sb dp ip i j n m s u :=
  ⟨h.quiet.trans (Quiet.of_to h.quiet.wf hto _), (refs_to hto).trans h.refs, h.dir.congr hto, h.node.congr hto, h.ne,
    fun hc => (h.calm hc).to h.quiet.wf hto⟩

theorem Parent.both {w : Option (ℕ × List UInt8)} (h : Parent sb w dp i n name s t) (hu : Took sb j t ip u)
    (hkept : Kept t u) (hlock : t.locks dp = true) (hv : Loaded sb ip j u v) (hfree : u.locks ip = false) :
    Both sb dp ip i j n ((v.inode ip).din.node v.blk) s v := by
  have hdp := h.live.ptr.2.1
  have hdu := h.live.quiet hu.quiet hdp (pos_refs hu.refs _ hdp)
  have hdv := hdu.quiet hv.quiet hdu.ptr.2.1 (by rw [hv.refs]; exact hdu.ptr.2.1)
  have hru : u.refs = s.refs + Pi.single ip 1 + Pi.single dp 1 := by rw [hu.refs, h.refs, add_right_comm]
  have hle := pos_refs h.refs
  have hleu : ∀ k, 0 < s.refs k → 0 < u.refs k := fun k hk => by
    rw [hru]; exact le_add_single _ _ _ (le_add_single _ _ _ hk)
  have hlv : Live sb v ip j _ := ⟨hv.ptr, hv.valid, hv.quiet.wf.node_ptr hv.ptr hv.valid⟩
  -- the directory itself is locked, so it is not what the entry names
  have hne : i ≠ j := by
    intro heq
    have hip : ip = dp := hu.quiet.wf.unique ip dp i (heq ▸ hu.ptr) hdu.ptr
    rw [hip, hkept.locks, hlock] at hfree; cases hfree
  refine ⟨(h.quiet.trans (hu.quiet.mono hle)).trans (hv.quiet.mono hleu), hv.refs.trans hru, hdv, hlv, hne,
    fun hc => ?_⟩
  refine Calm.loaded (Calm.take (h.calm hc) hu.quiet hu.refs ?_) hv
  rw [hu.ptr.2.2, ← node_congr sb hv.blk, hlv.node]; nofun

theorem unlinkIn_spec (hl : Layout sb) (hP : ¬ Safe sb s → P)
    (hpar : Parent sb (s.walk sb p path true) dp i n name s t) (hlock : t.locks dp = true) :
    Spec (unlinkIn sb dp name) t (fun _ u => Called sb (UnlinkOk sb s p path) s u) (Fault P) := by
  have hput : ∀ u, To t u t.blk t.inode →
      Spec (unlinkBad sb dp) u (fun _ u => Called sb (UnlinkOk sb s p path) s u) (Fault P) := fun u hu => by
    have hf := Found.of (hpar.quiet.trans (Quiet.of_to hpar.quiet.wf hu s.refs)) ((refs_to hu).trans hpar.refs)
      (hpar.live.congr hu)
    exact Spec.bind (hf.put hl) fun _ v hv => Called.end hv.called
  unfold unlinkIn
  refine Spec.ite (fun _ => hput t (To.refl t)) fun hname => ?_
  rw [not_or, Bool.not_eq_true, Bool.not_eq_true] at hname
  refine Spec.bind ((dirlookup_spec hpar.quiet.wf hpar.live hpar.dir).and
    (within_dirlookup (ρ := Kept) (E := FsPanic) name t)) ?_
  rintro r u ⟨hu, hkept⟩
  cases r with
  | none => exact hput u hu.1
  | some x =>
    obtain ⟨ip, off⟩ := x
    obtain ⟨k, hk, rfl, hit, hfirst, hu⟩ := hu
    have hle := pos_refs hpar.refs
    have hqu : Quiet sb s.refs s u := hpar.quiet.trans (hu.quiet.mono hle)
    refine Spec.bind ((ilock_spec hu.quiet.wf hu.ptr fun h0 => hP fun hs => ?_).and bal_ilock) ?_
    · exact Sure.entry ⟨hs.calm.held, hs.named⟩ hqu hpar.node hpar.dir hk hit.1 h0
    rintro _ v ⟨hv, hvl⟩
    have hboth := hpar.both hu hkept hlock hv hvl.free
    refine Spec.bind_ok rfl (Spec.ite (fun _ => Spec.throw ⟨nofun, nofun⟩) fun _ => ?_)
    refine Spec.ite (fun hd => ?_) fun hd => ?_
    · refine Spec.bind (isdirempty_spec hboth.quiet.wf hboth.node hd) ?_
      rintro empty w ⟨hw, he⟩
      exact (hboth.to hw.to).entry hl hpar.dir (fun h0 _ => he.1 h0) hk hit hfirst rfl hname.1 hname.2 hpar.walk
    · exact hboth.entry hl hpar.dir (fun _ h0 => absurd h0 hd) hk hit hfirst rfl hname.1 hname.2 hpar.walk

theorem sysUnlink_spec (hl : Layout sb) (h : WF sb s) (hcwd : Cwd s p) (hP : ¬ Safe sb s → P) (path : List UInt8) :
    Spec (sysUnlink sb p (some path)) s (fun _ t => Called sb (UnlinkOk sb s p path) s t) (Fault P) := by
  rw [sysUnlink_some]
  refine Called.begin (UnlinkOk sb · p path) h (fun t hto => UnlinkOk.to hto) fun s0 hto h0 => ?_
  have hP0 : ¬ Safe sb s0 → P := fun hc => hP fun hs => hc (hs.to h hto)
  have hcwd0 := hcwd.to hto
  refine Spec.bind (namex_spec hl h0 hcwd0 fun hc => hP0 fun hs => hc (hs.lookup hcwd0 path)) ?_
  intro r t ht
  cases r with
  | none => exact Called.end (Same.called ⟨ht.1, ht.2.1⟩)
  | some x =>
    obtain ⟨dp, name⟩ := x
    obtain ⟨i, n, hlive, hpar⟩ := ht.parent
    refine Spec.bind ((ilock_spec ht.1.wf hlive.ptr fun h0 => by rw [hlive.node] at h0; cases h0).and bal_ilock) ?_
    rintro _ u ⟨hu, hul⟩
    refine unlinkIn_spec hl hP0 (hpar u hu) ?_
    rw [hul.bal.locks, Function.update_self]

end Xv6.Fs
