/-
How many blocks lookups and `create` log.

`Spends R k`: apart from the blocks in R, at most k blocks have been logged. In a calm state path lookups log nothing
(`looks_namex`): they never drop the last reference to an inode without links. `dirlink` logs the free map, the inode
block of the directory and two blocks at most (`spends_dirlink`), and `create` the inode blocks of the new inode and of
its parent, the free map, and two blocks for each entry it makes (`spends_create`).
-/
import Xv6.Fs.Logged
import Xv6.Fs.Exits

namespace Xv6.Fs

open Xv6.Core

variable {sb : Superblock} {s t u : St} {R R' : Finset ℕ} {k k' ip dp i j p : ℕ} {n m : Node} {F G : ℕ → ℕ}
  {type major minor : UInt16} {name path : List UInt8} {E : Panic → Prop}

def Spends (R : Finset ℕ) (k : ℕ) (s t : St) : Prop := ∃ D : Finset ℕ, D.card ≤ k ∧ Logs (R ∪ D) s t

theorem Logs.spends (h : Logs R s t) : Spends R 0 s t := ⟨∅, le_rfl, by rwa [Finset.union_empty]⟩

theorem Looks.spends (h : Looks s t) (R : Finset ℕ) : Spends R 0 s t := (h.logs R).spends

theorem Spends.mono (h : Spends R k s t) (hR : R ⊆ R') (hk : k ≤ k') : Spends R' k' s t := by
  obtain ⟨D, hD, ht⟩ := h
  exact ⟨D, hD.trans hk, ht.mono (Finset.union_subset_union_left hR)⟩

theorem Spends.trans (h : Spends R k s t) (h' : Spends R k' t u) : Spends R (k + k') s u := by
  obtain ⟨D, hD, ht⟩ := h
  obtain ⟨D', hD', hu⟩ := h'
  refine ⟨D ∪ D', (Finset.card_union_le D D').trans (by omega), (ht.mono ?_).trans (hu.mono ?_)⟩
  · exact Finset.union_subset_union_right Finset.subset_union_left
  · exact Finset.union_subset_union_right Finset.subset_union_right

theorem Spends.logs (h : Spends R k s t) (h' : Logs R t u) : Spends R k s u := h.trans h'.spends

theorem Spends.looks (h : Spends R k s t) (h' : Looks t u) : Spends R k s u := h.logs (h'.logs R)

theorem Looks.then (h : Looks s t) (h' : Spends R k t u) : Spends R k s u := by
  have := (h.spends R).trans h'
  rwa [Nat.zero_add] at this

theorem Edits.spends {x y : ℕ} (h : Edits {i, j, x, y} s t) : Spends {i, j} 2 s t := by
  refine ⟨{x, y}, Finset.card_le_two, h.logs.mono ?_⟩
  intro b
  simp
  tauto

/-! ## Directories -/

theorem reads_dirlinkLoop (h : WF sb s) (hn : Live sb s dp i n) (m off : ℕ) (hoff : off % DESIZE = 0) :
    Spec (dirlinkLoop sb dp m off) s (fun r t => Reads s t ∧ r % DESIZE = 0) fun _ => True := by
  induction m generalizing off s with
  | zero => exact Spec.pure ⟨Reads.refl s, hoff⟩
  | succ m ih =>
    unfold dirlinkLoop
    refine Spec.bind (readi_reads h hn _ _ _) fun r t ht => Spec.ite (fun _ => Spec.throw trivial) fun _ => ?_
    refine Spec.ite (fun _ => Spec.pure ⟨ht, hoff⟩) fun _ => ?_
    exact Spec.post (ih (h.congr ht.to) (hn.congr ht.to) _ (by rw [Nat.add_mod_right]; exact hoff)) fun r u hu =>
      ⟨ht.trans hu.1, hu.2⟩

theorem entry_fits {off : ℕ} (h : off % DESIZE = 0) : off % BSIZE + DESIZE ≤ BSIZE := by
  unfold DESIZE BSIZE at *
  omega

theorem spends_dirlink (hl : Layout sb) (hone : sb.size ≤ BPB) (h : WF sb s) (hn : Live sb s dp i n)
    (hdir : n.type = T_DIR) (name : List UInt8) (inum : ℕ) :
    Spec (dirlink sb dp name inum) s (fun _ t => Spends {sb.bmapstart, iblock sb i} 2 s t) fun _ => True := by
  unfold dirlink
  refine Spec.bind (dirlookup_post h hn hdir fun _ => trivial) ?_
  rintro r t ⟨hpost, ht⟩
  cases r with
  | some x =>
    -- the name exists: its inode is dropped
    obtain ⟨k, -, -, -, -, hu⟩ := hpost
    refine Spec.bind (logs_iput hl hone hu.quiet.wf hu.ptr) fun _ u hlog =>
      Spec.pure (ht.then ⟨{iblock sb (entry n.bytes k).inum}, by simp, hlog.mono ?_⟩)
    intro b
    simp
    tauto
  | none =>
    obtain ⟨hto, -⟩ := hpost
    refine Spec.bind_ok rfl (Spec.bind (reads_dirlinkLoop (h.congr hto) (hn.congr hto) _ 0 rfl) ?_)
    rintro off u ⟨hu, hoff⟩
    refine Spec.bind (edits_writei hone _ off DESIZE (entry_fits hoff)) ?_
    rintro r v ⟨a, x, hv⟩
    rw [((hn.congr hto).congr hu.to).ptr.2.2] at hv
    exact Spec.pure ((ht.trans hu.looks).then hv.spends)

/-! ## Paths -/

theorem Held.mono (h : Held sb F s) (hF : ∀ k, 0 < F k → 0 < G k) : Held sb G s := fun i n hn h0 => by
  obtain ⟨k, hk, hki⟩ := h i n hn h0
  exact ⟨k, hF k hk, hki⟩

/-- a reference that was taken to an inode which the others keep -/
theorem Held.kept (h : WF sb s) (hp : Ptr s ip i) (hF : s.refs = F + Pi.single ip 1) (hh : Held sb F s) :
    ¬ ((s.inode ip).ref = 1 ∧ (s.inode ip).valid = true ∧ (s.inode ip).din.nlink = 0) := by
  rintro ⟨h1, h2, h3⟩
  obtain ⟨k, hk, hki, -⟩ := hh i _ (h.node_ptr hp h2) h3
  have hks : 0 < s.refs k := pos_refs hF _ hk
  obtain rfl := h.unique k ip i ⟨h.bound k hks, hks, hki⟩ hp
  have h4 : s.refs k = F k + 1 := by rw [hF, Pi.add_apply, Pi.single_eq_same]
  unfold St.refs at h4
  omega

theorem keeps_iput (hl : Layout sb) (h : WF sb s) (hp : Ptr s ip i) (hF : s.refs = F + Pi.single ip 1)
    (hh : Held sb F s) : Spec (iput sb ip) s (fun _ t => Looks s t ∧ Dropped sb F ip i s t) E :=
  (looks_iput (hh.kept h hp hF)).and (iput_spec (P := True) hl h hp hF)

theorem keeps_iunlockput (hl : Layout sb) (h : WF sb s) (hp : Ptr s ip i) (hv : (s.inode ip).valid = true)
    (hF : s.refs = F + Pi.single ip 1) (hh : Held sb F s) (hE : (s.inode ip).locked = false → E .iunlock) :
    Spec (iunlockput sb ip) s (fun _ t => Looks s t ∧ Dropped sb F ip i s t ∧ Unlocked s t ip) E := by
  have hlook : Spec (iunlockput sb ip) s (fun _ t => Looks s t) E := by
    refine Spec.bind ((iunlock_loaded h hp hv hE).and looks_iunlock) ?_
    rintro _ t ⟨hload, ht⟩
    have hq : Quiet sb F s t := hload.quiet.mono (pos_refs hF)
    exact Spec.post (looks_iput ((hh.quiet hq).kept hload.quiet.wf hload.ptr (hload.refs.trans hF)))
      fun _ u hu => ht.trans hu
  exact hlook.and ((iunlockput_spec (P := True) hl h hp hv hF).and bal_iunlockput)

/-- two entries of the inode table are free -/
def Room (F : ℕ → ℕ) : Prop := ∃ a b, a < NINODE ∧ b < NINODE ∧ a ≠ b ∧ F a = 0 ∧ F b = 0

/-- `iget` finds a free entry, also if one of them is taken -/
theorem Room.empty (h : Room F) (ip : ℕ) (hF : ∀ k, k ≠ ip → s.refs k = F k) : s.empty ≠ none := by
  intro he
  have hfull : ∀ k, k < NINODE → s.refs k ≠ 0 := fun k hk h0 => by
    have := List.find?_eq_none.1 he k (List.mem_range.2 hk)
    simp only [decide_eq_true_eq] at this
    exact this h0
  obtain ⟨a, b, ha, hb, hab, hFa, hFb⟩ := h
  by_cases hc : a = ip
  · exact hfull b hb ((hF b (hc ▸ hab.symm)).trans hFb)
  · exact hfull a ha ((hF a hc).trans hFa)

theorem looks_namexEnd (hl : Layout sb) (h : WF sb s) (hp : Ptr s ip i) (hF : s.refs = F + Pi.single ip 1)
    (hh : Held sb F s) (parent : Bool) (name : List UInt8) :
    Spec (namexEnd sb parent ip name) s (fun _ t => Looks s t) E :=
  Spec.ite (fun _ => Spec.bind (keeps_iput hl h hp hF hh) fun _ _ ht => Spec.pure ht.1) fun _ =>
    Spec.pure (Reads.refl s).looks

theorem looks_namexLoop (hl : Layout sb) (h : WF sb s) (hp : Ptr s ip i) (hF : s.refs = F + Pi.single ip 1)
    (hh : Held sb F s) (hR : ¬ Room F → E .igetNoInodes)
    (hT : ¬ (Sure sb F s ∧ s.node sb i ≠ none) → E .ilockNoType) (hD : ¬ s.Unlocked → E .deadlock) (parent : Bool)
    (fuel : ℕ) (path name : List UInt8) :
    Spec (namexLoop sb parent fuel path ip name) s (fun _ t => Looks s t) E := by
  induction fuel generalizing s ip i path name with
  | zero => exact looks_namexEnd hl h hp hF hh parent name
  | succ fuel ih =>
    unfold namexLoop
    cases skipelem path with
    | none => exact looks_namexEnd hl h hp hF hh parent name
    | some x =>
      obtain ⟨name', path'⟩ := x
      simp only
      refine Spec.bind (((ilock_loaded h hp (fun h0 => hT fun hc => hc.2 h0) fun h0 => hD fun hu => ?_).and
        (looks_ilock hp.2.1)).and bal_ilock) ?_
      · exact absurd h0 (by simpa [St.locks] using hu ip hp.1)
      rintro _ t ⟨⟨hload, ht, -⟩, hlock⟩
      have hq : Quiet sb F s t := hload.quiet.mono (pos_refs hF)
      have hwf := hload.quiet.wf
      have hFt : t.refs = F + Pi.single ip 1 := hload.refs.trans hF
      have hht := hh.quiet hq
      obtain ⟨n, hn⟩ : ∃ n, t.node sb i = some n := ⟨_, hwf.node_ptr hload.ptr hload.valid⟩
      have hlive : Live sb t ip i n := ⟨hload.ptr, hload.valid, hn⟩
      -- the inode stays locked until the walk goes on
      have hheld : ∀ {u}, Kept t u → (u.inode ip).locked = false → E .iunlock := fun hk h0 => by
        have := congrFun (hlock.then hk).bal.locks ip
        rw [Function.update_self, St.locks, h0] at this
        cases this
      refine Spec.bind_ok rfl (Spec.ite (fun _ => ?_) fun hdir => Spec.ite (fun _ => ?_) fun _ => ?_)
      · exact Spec.bind (keeps_iunlockput hl hwf hload.ptr hload.valid hFt hht (hheld (Kept.refl t))) fun _ _ hu =>
          Spec.pure (ht.trans hu.1)
      · exact Spec.bind ((iunlock_loaded hwf hload.ptr hload.valid (hheld (Kept.refl t))).and looks_iunlock)
          fun _ _ hu => Spec.pure (ht.trans hu.2)
      rw [(hlive.din hwf).1] at hdir
      have hroom : t.empty = none → E .igetNoInodes := fun he => hR fun hroom =>
        hroom.empty ip (fun k hk => by rw [hFt, Pi.add_apply, Pi.single_eq_of_ne hk, Nat.add_zero]) he
      refine Spec.bind ((dirlookup_post hwf hlive (not_not.1 hdir) hroom).and
        (within_dirlookup (ρ := Kept) (E := FsPanic) name' t)) ?_
      rintro r u ⟨⟨hpost, hu⟩, hkept⟩
      cases r with
      | none =>
        have hto := hpost.1
        have hlive' := hlive.congr hto
        exact Spec.bind (keeps_iunlockput hl (hwf.congr hto) hlive'.ptr hlive'.valid ((refs_to hto).trans hFt)
          (hht.quiet (Quiet.of_to hwf hto F)) (hheld hkept)) fun _ _ hv => Spec.pure ((ht.trans hu).trans hv.1)
      | some y =>
        obtain ⟨jp, off⟩ := y
        obtain ⟨k, hk, -, hit, -, htook⟩ := hpost
        have hpos : 0 < t.refs ip := hload.ptr.2.1
        have hlive' := hlive.quiet htook.quiet hpos (pos_refs htook.refs _ hpos)
        have hqu : Quiet sb F t u := htook.quiet.mono (pos_refs hFt)
        have hFu : u.refs = F + Pi.single jp 1 + Pi.single ip 1 := by rw [htook.refs, hFt, add_right_comm]
        -- what the caller holds keeps the directory, with or without the inode that was found
        have hhu : Held sb (F + Pi.single jp 1) u := (hht.quiet hqu).mono (le_add_single F jp)
        refine Spec.bind (keeps_iunlockput hl htook.quiet.wf hlive'.ptr hlive'.valid hFu hhu (hheld hkept)) ?_
        rintro _ w ⟨hw, hdrop, hunlock⟩
        have hqall := (hq.trans hqu).trans (hdrop.quiet.mono (le_add_single F jp))
        have hpw : Ptr w jp (entry n.bytes k).inum :=
          hdrop.quiet.tab.ptr (single_pos F jp) (by rw [hdrop.refs]; exact single_pos F jp) htook.ptr
        have hlocks : w.locks = s.locks := ((hlock.then hkept).unlocked hunlock).locks
        refine Spec.post (ih hdrop.quiet.wf hpw hdrop.refs (hh.quiet hqall) (fun hc => hT fun hs =>
          hc ⟨hs.1.quiet hqall, ?_⟩) (fun hc => hD fun hu => hc (hu.congr hlocks)) path' name') fun _ x hx =>
          ((ht.trans hu).trans hw).trans hx
        have hns : s.node sb i = some n := by rw [← node_congr sb hload.blk]; exact hn
        rw [hs.1.node hqall]
        exact hs.1.named i n hns (not_not.1 hdir) _ (mem_entries.2 ⟨k, hk, rfl⟩) hit.1

/-- **A path lookup logs nothing** in a calm state. It fails only if the inode table is full, an entry names a free
inode or an inode is locked. -/
theorem namex_looks (hl : Layout sb) (h : WF sb s) (hcwd : Cwd s p) (hh : Held sb s.refs s)
    (hR : ¬ Room s.refs → E .igetNoInodes)
    (hT : ¬ (Sure sb s.refs s ∧ s.node sb (startInum s p path) ≠ none) → E .ilockNoType)
    (hD : ¬ s.Unlocked → E .deadlock) (parent : Bool) :
    Spec (namex sb p path parent) s (fun _ t => Looks s t) E := by
  have key : ∀ ip t, Took sb (startInum s p path) s ip t → Looks s t → Kept s t →
      Spec (namexLoop sb parent path.length path ip []) t (fun _ u => Looks s u) E := by
    intro ip t ht hlook hk
    refine Spec.post (looks_namexLoop hl ht.quiet.wf ht.ptr ht.refs (hh.quiet ht.quiet) hR (fun hc => hT fun hs =>
      hc ⟨hs.1.quiet ht.quiet, ?_⟩) (fun hc => hD fun hu => hc (hu.congr hk.locks)) parent _ path []) fun _ u hu =>
      hlook.trans hu
    rw [hs.1.node ht.quiet]; exact hs.2
  obtain ⟨k, i, hk, hki⟩ := hcwd
  unfold namex
  refine Spec.bind_ok rfl (Spec.ite (fun hroot => ?_) fun hroot => ?_)
  · have hstart : startInum s p path = ROOTINO := if_pos hroot
    rw [hstart] at key
    refine Spec.bind (((iget_took h hl.root fun he => hR fun hroom => hroom.empty 0 (fun _ _ => rfl) he).and
      (looks_iget ROOTINO)).and (within_iget (ρ := Kept) (E := FsPanic) ROOTINO s)) ?_
    rintro ip t ⟨⟨htook, ht, -⟩, hkept⟩
    exact key ip t htook ht hkept
  · have hstart : startInum s p path = i := by rw [startInum, if_neg hroot, hk, Option.getD_some, hki.2.2]
    rw [hstart] at key
    rw [hk, Option.getD_some]
    have hdup : Spec (idup k) s (fun _ t => Looks s t) fun _ => True := Spec.of_ok rfl (Looks.tables s _ _ _)
    refine Spec.bind (((idup_spec h hki).and hdup).and (within_idup (ρ := Kept) (E := FsPanic) s)) ?_
    rintro ip t ⟨⟨⟨rfl, htook⟩, ht⟩, hkept⟩
    exact key ip t htook ht hkept

theorem looks_namex (hl : Layout sb) (h : WF sb s) (hcwd : Cwd s p) (hh : Held sb s.refs s) (path : List UInt8)
    (parent : Bool) : Spec (namex sb p path parent) s (fun _ t => Looks s t) fun _ => True :=
  namex_looks hl h hcwd hh (fun _ => trivial) (fun _ => trivial) (fun _ => trivial) parent

/-! ## `create` -/

/-- the free map and the blocks of the inodes i and j -/
def metas (sb : Superblock) (i j : ℕ) : Finset ℕ := {sb.bmapstart, iblock sb i, iblock sb j}

theorem left_metas (sb : Superblock) (i j : ℕ) : {sb.bmapstart, iblock sb i} ⊆ metas sb i j := by
  intro b
  simp [metas]
  tauto

theorem right_metas (sb : Superblock) (i j : ℕ) : {sb.bmapstart, iblock sb j} ⊆ metas sb i j := by
  intro b
  simp [metas]
  tauto

theorem one_subset (sb : Superblock) (i : ℕ) : {iblock sb i} ⊆ ({sb.bmapstart, iblock sb i} : Finset ℕ) := by simp

theorem logs_lock (h : WF sb s) (hp : Ptr s ip i) :
    Spec (ilock sb ip) s (fun _ t => Looks s t ∧ Loaded sb ip i s t) fun _ => True :=
  ((looks_ilock hp.2.1).mono (fun _ _ ht => ht.1) fun _ _ => trivial).and (ilock_spec (P := True) h hp fun _ => trivial)

theorem logs_drop (hl : Layout sb) (hone : sb.size ≤ BPB) (h : WF sb s) (hn : Live sb s ip i n)
    (hF : s.refs = F + Pi.single ip 1) :
    Spec (iunlockput sb ip) s (fun _ t => Logs {sb.bmapstart, iblock sb i} s t ∧ Dropped sb F ip i s t) fun _ => True :=
  (logs_iunlockput hl hone h hn.ptr hn.valid).and (iunlockput_spec (P := True) hl h hn.ptr hn.valid hF)

theorem edits_fields (hp : Ptr s ip i) (d : Dinode) :
    Spec (iupdate sb ip) { s with inode := s.inode.set ip { s.inode ip with din := d } }
      (fun _ t => Edits {iblock sb i} s t) fun _ => True := by
  have hset : Edits {iblock sb i} s { s with inode := s.inode.set ip { s.inode ip with din := d } } :=
    Edits.setInode _ s rfl
  refine Spec.post edits_iupdate fun _ t ht => hset.trans ?_
  rwa [hset.inum, hp.2.2] at ht

theorem logs_setNlink (hl : Layout sb) (h : WF sb s) (hn : Live sb s ip i n) (f : UInt16 → UInt16) :
    Spec (setNlink sb ip f) s (fun _ t => Logs {sb.bmapstart, iblock sb i} s t ∧
      Puts sb s t i (some { n with nlink := f n.nlink })) fun _ => True := by
  have hlog : Spec (setNlink sb ip f) s (fun _ t => Logs {sb.bmapstart, iblock sb i} s t) fun _ => True :=
    Spec.bind_ok rfl (Spec.bind_ok rfl (Spec.post (edits_fields hn.ptr _) fun _ t ht =>
      ht.logs.mono (one_subset sb i)))
  exact hlog.and (setNlink_spec (E := fun _ => True) hl h hn f)

section

variable (hl : Layout sb) (hone : sb.size ≤ BPB) (h : WF sb s)
include hl hone h

theorem logs_createFail (hip : Live sb s ip j m) (hdp : Live sb s dp i n) (hij : i ≠ j)
    (hF : s.refs = F + Pi.single dp 1 + Pi.single ip 1) :
    Spec (createFail sb ip dp) s (fun _ t => Logs (metas sb i j) s t) fun _ => True := by
  unfold createFail
  refine Spec.bind (logs_setNlink hl h hip _) ?_
  rintro _ t ⟨ht, hp⟩
  refine Spec.bind (logs_drop hl hone hp.wf (hp.live hip) (hp.refs.trans hF)) ?_
  rintro _ u ⟨hu, hdrop⟩
  have hdu := (hp.live_ne hdp hij).dropped hdrop (single_pos F dp)
  refine Spec.bind (logs_iunlockput hl hone hdrop.quiet.wf hdu.ptr hdu.valid) fun _ v hv => Spec.pure ?_
  exact ((ht.trans hu).mono (right_metas sb i j)).trans (hv.mono (left_metas sb i j))

theorem spends_createDots (hip : Live sb s ip j m) (hm : m.type = type) :
    Spec (createDots sb ip dp type) s
      (fun _ t => Spends {sb.bmapstart, iblock sb j} (if type = T_DIR then 4 else 0) s t) fun _ => True := by
  unfold createDots
  refine Spec.bind_ok rfl (Spec.bind_ok rfl (Spec.ite (fun hd => ?_) fun hd => ?_))
  · rw [if_pos hd, hip.ptr.2.2]
    have hj := h.range ip j hip.ptr
    refine Spec.bind ((spends_dirlink hl hone h hip (hm.trans hd) _ _).and
      (dirlink_spec (P := True) hl h hip (hm.trans hd) hj)) ?_
    rintro (_ | _) t ⟨ht, hpost⟩
    · exact Spec.pure (ht.mono (Finset.Subset.refl _) (by decide))
    · obtain ⟨k, -, -, -, -, hp⟩ := hpost
      exact Spec.post (spends_dirlink hl hone hp.wf (hp.live hip) (hm.trans hd) _ _) fun _ u hu => ht.trans hu
  · rw [if_neg hd]
    exact Spec.pure ((Reads.refl s).looks.spends _)

theorem spends_createLink (hip : Live sb s ip j m) (hdp : Live sb s dp i n) (hij : i ≠ j)
    (hF : s.refs = F + Pi.single dp 1 + Pi.single ip 1) (hdir : n.type = T_DIR) (name : List UInt8) (type : UInt16) :
    Spec (createLink sb ip dp name type) s (fun _ t => Spends (metas sb i j) 2 s t) fun _ => True := by
  have hleft := left_metas sb i j
  unfold createLink
  refine Spec.bind_ok rfl ?_
  rw [hip.ptr.2.2]
  refine Spec.bind ((spends_dirlink hl hone h hdp hdir name j).and
    (dirlink_spec (P := True) hl h hdp hdir (h.range ip j hip.ptr))) ?_
  rintro (_ | _) t ⟨ht, hpost⟩
  · obtain ⟨hq, hr⟩ := hpost
    have hpos := hip.ptr.2.1
    have hpos' := hdp.ptr.2.1
    simp only [Bool.false_eq_true, if_false]
    exact Spec.post (logs_createFail hl hone hq.wf (hip.quiet hq hpos (by rw [hr]; exact hpos))
      (hdp.quiet hq hpos' (by rw [hr]; exact hpos')) hij (hr.trans hF)) fun _ u hu => (ht.mono hleft le_rfl).logs hu
  · obtain ⟨k, -, -, -, -, hp⟩ := hpost
    have hdp1 := hp.live hdp
    have hend : ∀ u (n' : Node), WF sb u → Live sb u dp i n' → Spends (metas sb i j) 2 s u →
        Spec (do iunlockput sb dp; pure (some ip)) u (fun _ v => Spends (metas sb i j) 2 s v) fun _ => True :=
      fun u n' hwf hn hu => Spec.bind (logs_iunlockput hl hone hwf hn.ptr hn.valid) fun _ v hv =>
        Spec.pure (hu.logs (hv.mono hleft))
    simp only [if_true]
    refine Spec.ite (fun _ => Spec.bind (logs_setNlink hl hp.wf hdp1 _) ?_) fun _ =>
      hend t _ hp.wf hdp1 (ht.mono hleft le_rfl)
    rintro _ u ⟨hu, hp'⟩
    exact hend u _ hp'.wf (hp'.live hdp1) ((ht.mono hleft le_rfl).logs (hu.mono hleft))

/-- the blocks that `create` logs for entries -/
def entryCost (type : UInt16) : ℕ := if type = T_DIR then 6 else 2

/-- what `create` has logged, when it returns inode j -/
def CreateSpends (sb : Superblock) (type : UInt16) (i : ℕ) (s : St) (r : Option ℕ) (t : St) : Prop :=
  ∃ j, Spends (metas sb i j) (entryCost type) s t ∧ ∀ ip, r = some ip → (t.inode ip).inum = j

theorem spends_createNew (hdp : Live sb s dp i n) (hF : s.refs = F + Pi.single dp 1) (hdir : n.type = T_DIR)
    (hty : type ≠ 0) :
    Spec (createNew sb dp name type major minor) s (CreateSpends sb type i s) fun _ => True := by
  unfold createNew
  refine Spec.bind ((logs_iallocLoop type _ 1).and (ialloc_spec (P := True) hl h hty)) ?_
  rintro r t ⟨ht, hpost⟩
  cases r with
  | none =>
    have hlive := hdp.congr hpost
    refine Spec.bind (logs_iunlockput hl hone (h.congr hpost) hlive.ptr hlive.valid) fun _ u hu =>
      Spec.pure ⟨i, ?_, nofun⟩
    exact ht.then ((hu.mono (left_metas sb i i)).spends.mono (Finset.Subset.refl _) (Nat.zero_le _))
  | some ip =>
    obtain ⟨j, hwf, hp, hj, hfresh⟩ := hpost.fresh hl hdp hF
    simp only
    refine Spec.bind (logs_lock hwf hp) ?_
    rintro _ u ⟨hu, hload⟩
    refine Spec.bind_ok rfl (Spec.bind_ok rfl (Spec.bind ((edits_fields hload.ptr _).and
      (iupdate_spec (E := fun _ => True))) ?_))
    rintro _ w ⟨hw, hto⟩
    have hf := hfresh u w major minor hload fun v hv => hv ▸ hto
    -- the inode has been initialised
    have hlog : Logs (metas sb i j) s w := by
      have ht' : Logs {iblock sb j} s t := by rw [← hp.2.2]; exact ht
      exact ((ht'.trans (hu.logs _)).trans hw.logs).mono ((one_subset sb j).trans (right_metas sb i j))
    refine Spec.bind ((spends_createDots hl hone hf.wf hf.new rfl).and
      (createDots_spec (P := True) hl hf.wf hf.new hf.dir hf.ne hf.pos.ne')) ?_
    rintro r x ⟨hx, hdots⟩
    have hsum := hlog.spends.trans (hx.mono (right_metas sb i j) le_rfl)
    rcases hdots with ⟨rfl, hp⟩ | ⟨rfl, hwf, -, hr, ⟨m, hip⟩, hdp, -⟩
    · simp only [if_true]
      have hnew := hp.live hf.new
      have hdp := hp.live_ne hf.dir hf.ne
      have hr := hp.refs.trans hf.refs
      refine Spec.post ((spends_createLink hl hone hp.wf hnew hdp hf.ne hr hdir name type).and
        (createLink_spec (P := True) hl hp.wf hnew hdp hf.ne hr hdir)) ?_
      rintro r y ⟨hy, -, -, hres⟩
      refine ⟨j, (hsum.trans hy).mono (Finset.Subset.refl _) (by unfold entryCost; split_ifs <;> omega), ?_⟩
      rintro _ rfl
      obtain ⟨-, rfl, k, hlink⟩ := hres
      exact hlink.live.ptr.2.2
    · simp only [Bool.false_eq_true, if_false]
      refine Spec.post ((logs_createFail hl hone hwf hip hdp hf.ne (hr.trans hf.refs)).and
        (createFail_spec (P := True) hl hwf hip hdp hf.ne (hr.trans hf.refs))) ?_
      rintro r y ⟨hy, rfl, -⟩
      exact ⟨j, (hsum.logs hy).mono (Finset.Subset.refl _) (by unfold entryCost; split_ifs <;> omega), nofun⟩

omit hone in
theorem looks_createOld (hp : Ptr s ip i) (hF : s.refs = F + Pi.single ip 1) (hh : Held sb F s) (type : UInt16) :
    Spec (createOld sb ip type) s (fun _ t => Looks s t) fun _ => True := by
  unfold createOld
  refine Spec.bind (logs_lock h hp) ?_
  rintro _ t ⟨ht, hload⟩
  have hht := hh.quiet (hload.quiet.mono (pos_refs hF))
  refine Spec.bind_ok rfl (Spec.ite (fun _ => Spec.pure ht) fun _ => ?_)
  exact Spec.bind (keeps_iunlockput hl hload.quiet.wf hload.ptr hload.valid (hload.refs.trans hF) hht
    fun _ => trivial) fun _ u hu => Spec.pure (ht.trans hu.1)

theorem spends_create (hc : Calm sb s) (hcwd : Cwd s p) (path : List UInt8) (hty : type ≠ 0) :
    Spec (create sb p path type major minor) s (fun r t => ∃ i, CreateSpends sb type i s r t) fun _ => True := by
  -- nothing has been logged
  have hlook : ∀ (r : Option ℕ) (t : St), Looks s t → ∃ i, CreateSpends sb type i s r t := fun r t ht =>
    ⟨0, ((r.map fun ip => (t.inode ip).inum).getD 0), (ht.spends _).mono (Finset.Subset.refl _) (Nat.zero_le _), by
      rintro ip rfl; rfl⟩
  unfold create nameiparent
  refine Spec.bind ((looks_namex hl h hcwd hc.held path true).and (namex_spec (P := True) hl h hcwd fun _ => trivial))
    ?_
  rintro r t ⟨ht, hpost⟩
  cases r with
  | none => exact Spec.pure (hlook _ _ ht)
  | some x =>
    obtain ⟨dp, name⟩ := x
    obtain ⟨i, n, hlive, hpar⟩ := hpost.parent
    simp only
    refine Spec.bind (logs_lock hpost.1.wf hlive.ptr) ?_
    rintro _ u ⟨hu, hload⟩
    have hpar := hpar u hload
    have hwf := hpar.quiet.wf
    have htu := ht.trans hu
    refine Spec.bind (dirlookup_post hwf hpar.live hpar.dir fun _ => trivial) ?_
    rintro r v ⟨hpost, hv⟩
    cases r with
    | none =>
      obtain ⟨hto, -⟩ := hpost
      refine Spec.post (spends_createNew hl hone (hwf.congr hto) (hpar.live.congr hto) ((refs_to hto).trans hpar.refs)
        hpar.dir hty) ?_
      rintro r w ⟨j, hw, hj⟩
      exact ⟨i, j, (htu.trans hv).then hw, hj⟩
    | some x =>
      obtain ⟨ip, off⟩ := x
      obtain ⟨k, -, -, -, -, htook⟩ := hpost
      have hdp := hpar.live.ptr.2.1
      have hlv := hpar.live.quiet htook.quiet hdp (pos_refs htook.refs _ hdp)
      have hrv : v.refs = s.refs + Pi.single ip 1 + Pi.single dp 1 := by rw [htook.refs, hpar.refs, add_right_comm]
      have hqv : Quiet sb s.refs s v := hpar.quiet.trans (htook.quiet.mono (pos_refs hpar.refs))
      have hhv : Held sb (s.refs + Pi.single ip 1) v := (hc.held.quiet hqv).mono (le_add_single s.refs ip)
      simp only
      refine Spec.bind (keeps_iunlockput hl htook.quiet.wf hlv.ptr hlv.valid hrv hhv fun _ => trivial) ?_
      rintro _ w ⟨hw, hdrop, -⟩
      have hpw : Ptr w ip (entry n.bytes k).inum :=
        hdrop.quiet.tab.ptr (single_pos _ ip) (by rw [hdrop.refs]; exact single_pos _ ip) htook.ptr
      have hhw := (hc.held.quiet hqv).quiet (hdrop.quiet.mono (le_add_single s.refs ip))
      exact Spec.post (looks_createOld hl hdrop.quiet.wf hpw hdrop.refs hhw type) fun r x hx =>
        hlook r x (((htu.trans hv).trans hw).trans hx)

end

end Xv6.Fs
