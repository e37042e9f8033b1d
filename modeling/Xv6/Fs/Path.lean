/-
Path lookup (kernel/fs.c, `namex`).

`walk` is the lookup as a function of the directory tree. `namex` computes it (`namex_spec`) if no entry names a free
inode and every inode without links is referenced (`Sure`): then it changes nothing but reference counts. Without that,
it may come to a free inode and panic, or drop the last reference to an inode without links and so free it.
-/
import Xv6.Fs.Dir

namespace Xv6.Fs

open Xv6.Core

variable {sb : Superblock} {i ip dp : ℕ} {s t u : St} {F : ℕ → ℕ} {P : Prop} {l name : List UInt8} {n : Node}
  {parent : Bool}

/-! ## Lookup in a tree -/

/-- the inode number that a directory has for a name -/
def lookup (l name : List UInt8) : Option ℕ :=
  ((entries l).find? fun e => decide (e.inum ≠ 0) && namecmp name e.name).map Dirent.inum

theorem lookup_none (h : ∀ k, k < l.length / DESIZE → ¬ Hit l name k) : lookup l name = none := by
  rw [lookup, Option.map_eq_none_iff, List.find?_eq_none]
  intro e he hc
  obtain ⟨k, hk, rfl⟩ := mem_entries.1 he
  simp only [Bool.and_eq_true, decide_eq_true_eq] at hc
  exact h k hk hc

theorem lookup_some {k : ℕ} (hk : k < l.length / DESIZE) (hit : Hit l name k)
    (hfirst : ∀ j, j < k → ¬ Hit l name j) : lookup l name = some (entry l k).inum := by
  rw [lookup, Option.map_eq_some_iff]
  refine ⟨entry l k, ?_, rfl⟩
  have hlen : k < (entries l).length := by rwa [length_entries]
  rw [List.find?_eq_some_iff_getElem]
  refine ⟨by simpa [Hit] using hit, k, hlen, getElem_entries l hlen, fun j hj => ?_⟩
  rw [getElem_entries]
  have := hfirst j hj
  unfold Hit at this
  simp only [Bool.not_eq_true', Bool.and_eq_false_iff, decide_eq_false_iff_not]
  by_cases h0 : (entry l j).inum ≠ 0
  · exact Or.inr (by simpa using fun h => this ⟨h0, h⟩)
  · exact Or.inl h0

/-- the walk of `namex` through a tree: the inode it ends at and the last path element -/
def walk (tree : ℕ → Option Node) (parent : Bool) : ℕ → List UInt8 → ℕ → List UInt8 → Option (ℕ × List UInt8)
  | 0, _, i, name => if parent then none else some (i, name)
  | fuel + 1, path, i, name =>
    match skipelem path with
    | none => if parent then none else some (i, name)
    | some (name, path) =>
      match tree i with
      | none => none
      | some n =>
        if n.type ≠ T_DIR then none
        else if parent ∧ path = [] then some (i, name)
        else match lookup n.bytes name with
          | none => none
          | some j => walk tree parent fuel path j name

/-! ## `namex` -/

/-- every inode without links has a reference counted in F, and is loaded -/
def Held (sb : Superblock) (F : ℕ → ℕ) (s : St) : Prop :=
  ∀ i n, s.node sb i = some n → n.nlink = 0 → ∃ k, 0 < F k ∧ (s.inode k).inum = i ∧ (s.inode k).valid = true

theorem Held.node (hs : Held sb F s) (hq : Quiet sb F s t) : t.node sb = s.node sb := by
  funext i
  rcases hq.node i with h | ⟨-, ⟨n, hn, h0⟩, h⟩
  · exact h
  · obtain ⟨k, hk, hki, -⟩ := hs i n hn h0
    exact absurd hki (h k hk)

theorem Held.tab (hs : Held sb F s) (ht : Tab F s t) (hnode : t.node sb = s.node sb) : Held sb F t := by
  intro i n hn h0
  rw [hnode] at hn
  obtain ⟨k, hk, hki, hv⟩ := hs i n hn h0
  exact ⟨k, hk, (ht.kept k hk).1.trans hki, (ht.kept k hk).2 hv⟩

theorem Held.quiet (hs : Held sb F s) (hq : Quiet sb F s t) : Held sb F t := hs.tab hq.tab (hs.node hq)

/-- no lookup reaches a free inode, and no reference taken by a lookup is the last one to an inode without links -/
structure Sure (sb : Superblock) (F : ℕ → ℕ) (s : St) : Prop where
  held : Held sb F s
  named : ∀ i n, s.node sb i = some n → n.type = T_DIR → ∀ e ∈ entries n.bytes, e.inum ≠ 0 → s.node sb e.inum ≠ none

theorem Sure.node (hs : Sure sb F s) (hq : Quiet sb F s t) : t.node sb = s.node sb := hs.held.node hq

theorem Sure.quiet (hs : Sure sb F s) (hq : Quiet sb F s t) : Sure sb F t :=
  ⟨hs.held.quiet hq, by rw [hs.node hq]; exact hs.named⟩

/-- what `namex` can return, when the lookup starts at inode i0 and w is its walk -/
def NamexPost (sb : Superblock) (F : ℕ → ℕ) (parent : Bool) (i0 : ℕ) (w : Option (ℕ × List UInt8)) (s : St)
    (r : Option (ℕ × List UInt8)) (t : St) : Prop :=
  Quiet sb F s t ∧ match r with
    | none => t.refs = F ∧ (Held sb F s → w = none)
    | some (ip, name) => ∃ i, Ptr t ip i ∧ t.refs = F + Pi.single ip 1 ∧
        (parent = true → ∃ n, Live sb t ip i n ∧ n.type = T_DIR) ∧ (Held sb F s → w = some (i, name)) ∧
        (Sure sb F s → s.node sb i0 ≠ none → s.node sb i ≠ none)

theorem le_add_single (F : ℕ → ℕ) (k : ℕ) : ∀ j, 0 < F j → 0 < (F + Pi.single k 1 : ℕ → ℕ) j := fun j hj => by
  rw [Pi.add_apply]; omega

theorem pos_refs (h : s.refs = F + Pi.single ip 1) (k : ℕ) (hk : 0 < F k) : 0 < s.refs k := by
  rw [h]
  exact le_add_single F ip k hk

theorem single_pos (F : ℕ → ℕ) (k : ℕ) : 0 < (F + Pi.single k 1 : ℕ → ℕ) k := by
  rw [Pi.add_apply, Pi.single_eq_same]; omega

theorem namexEnd_spec (hl : Layout sb) (h : WF sb s) (hp : Ptr s ip i) (hF : s.refs = F + Pi.single ip 1) :
    Spec (namexEnd sb parent ip name) s
      (NamexPost sb F parent i (if parent then none else some (i, name)) s) (Fault P) := by
  unfold namexEnd
  cases parent with
  | true =>
    refine Spec.bind (iput_spec hl h hp hF) ?_
    intro _ t ht
    exact Spec.pure ⟨ht.quiet, ht.refs, fun _ => rfl⟩
  | false => exact Spec.pure ⟨Quiet.refl h F, i, hp, hF, nofun, fun _ => rfl, fun _ => id⟩

theorem namexLoop_spec (hl : Layout sb) (h : WF sb s) (hp : Ptr s ip i) (hF : s.refs = F + Pi.single ip 1)
    (fuel : ℕ) (path name : List UInt8) (hP : ¬ (Sure sb F s ∧ s.node sb i ≠ none) → P) :
    Spec (namexLoop sb parent fuel path ip name) s
      (NamexPost sb F parent i (walk (s.node sb) parent fuel path i name) s) (Fault P) := by
  induction fuel generalizing s ip i path name with
  | zero => exact namexEnd_spec hl h hp hF
  | succ fuel ih =>
    unfold namexLoop walk
    cases hsk : skipelem path with
    | none => exact namexEnd_spec hl h hp hF
    | some x =>
      obtain ⟨name', path'⟩ := x
      simp only
      refine Spec.bind (ilock_spec h hp fun h0 => hP fun hc => hc.2 h0) ?_
      intro _ t ht
      refine Spec.bind_ok rfl ?_
      have hq : Quiet sb F s t := ht.quiet.mono (pos_refs hF)
      have hwf := ht.quiet.wf
      have hF' : t.refs = F + Pi.single ip 1 := ht.refs.trans hF
      obtain ⟨n, hn⟩ : ∃ n, t.node sb i = some n := ⟨_, hwf.node_ptr ht.ptr ht.valid⟩
      have hlive : Live sb t ip i n := ⟨ht.ptr, ht.valid, hn⟩
      have hns : s.node sb i = some n := by rw [← node_congr sb ht.blk]; exact hn
      rw [(hlive.din hwf).1, hns]
      simp only
      split_ifs with hdir hpar
      · refine Spec.bind (iunlockput_spec hl hwf ht.ptr ht.valid hF') ?_
        intro _ u hu
        exact Spec.pure ⟨hq.trans hu.quiet, hu.refs, fun _ => rfl⟩
      · refine Spec.bind (iunlock_spec hwf ht.ptr ht.valid) ?_
        intro _ u hu
        have hqu : Quiet sb F t u := hu.quiet.mono (pos_refs hF')
        refine Spec.pure ⟨hq.trans hqu, i, hu.ptr, hu.refs.trans hF', fun _ => ⟨n, ⟨hu.ptr, hu.valid, ?_⟩,
          not_not.1 hdir⟩,
          fun _ => rfl, fun _ => id⟩
        rw [node_congr sb hu.blk]; exact hn
      · refine Spec.bind (dirlookup_spec hwf hlive (not_not.1 hdir)) ?_
        intro r u hu
        cases r with
        | none =>
          obtain ⟨hto, hno⟩ := hu
          have hlive' := hlive.congr hto
          have hrefs : u.refs = F + Pi.single ip 1 := by rw [← hF']; unfold St.refs; rw [hto.inode]
          rw [lookup_none hno]
          refine Spec.bind (iunlockput_spec hl (hwf.congr hto) hlive'.ptr hlive'.valid hrefs) ?_
          intro _ w hw
          exact Spec.pure ⟨(hq.trans (Quiet.of_to hwf hto F)).trans hw.quiet, hw.refs, fun _ => rfl⟩
        | some x =>
          obtain ⟨jp, off⟩ := x
          obtain ⟨k, hk, -, hit, hfirst, hu⟩ := hu
          rw [lookup_some hk hit hfirst]
          simp only
          have hpos : 0 < t.refs ip := ht.ptr.2.1
          have hlive' : Live sb u ip i n :=
            hlive.quiet hu.quiet hpos (pos_refs hu.refs _ hpos)
          have hqu : Quiet sb F t u := hu.quiet.mono (pos_refs hF')
          have hFu : u.refs = F + Pi.single jp 1 + Pi.single ip 1 := by
            rw [hu.refs, hF', add_right_comm]
          refine Spec.bind (iunlockput_spec hl hu.quiet.wf hlive'.ptr hlive'.valid hFu) ?_
          intro _ w hw
          have hqw : Quiet sb F u w := hw.quiet.mono (le_add_single F jp)
          have hqall := (hq.trans hqu).trans hqw
          have hpw : Ptr w jp (entry n.bytes k).inum :=
            hw.quiet.tab.ptr (single_pos F jp) (by rw [hw.refs]; exact single_pos F jp) hu.ptr
          have hmem : entry n.bytes k ∈ entries n.bytes := mem_entries.2 ⟨k, hk, rfl⟩
          have hnamed : Sure sb F s → s.node sb (entry n.bytes k).inum ≠ none := fun hs =>
            hs.named i n hns (not_not.1 hdir) _ hmem hit.1
          refine Spec.post (ih hw.quiet.wf hpw hw.refs path' name' fun hc => hP fun ⟨hs, _⟩ => hc ⟨hs.quiet hqall, ?_⟩)
            ?_
          · rw [hs.node hqall]; exact hnamed hs
          rintro r y ⟨hqy, hr⟩
          refine ⟨hqall.trans hqy, ?_⟩
          cases r with
          | none => exact ⟨hr.1, fun hs => by rw [← hs.node hqall]; exact hr.2 (hs.quiet hqall)⟩
          | some z =>
            obtain ⟨i', h1, h2, h3, h4, h5⟩ := hr
            refine ⟨i', h1, h2, h3, fun hs => by rw [← hs.node hqall]; exact h4 (hs.quiet hqall), fun hs _ => ?_⟩
            have h6 := h5 (hs.quiet hqall)
            rw [hs.node hqall] at h6
            exact h6 (hnamed hs)

/-- the inode at which a lookup by process p starts -/
def startInum (s : St) (p : ℕ) (path : List UInt8) : ℕ :=
  if path.head? = some SLASH then ROOTINO else (s.inode ((s.proc p).cwd.getD 0)).inum

/-- the walk of a path by process p -/
def St.walk (sb : Superblock) (s : St) (p : ℕ) (path : List UInt8) (parent : Bool) : Option (ℕ × List UInt8) :=
  Fs.walk (s.node sb) parent path.length path (startInum s p path) []

theorem namex_spec (hl : Layout sb) (h : WF sb s) {p : ℕ} {path : List UInt8}
    (hcwd : ∃ k i, (s.proc p).cwd = some k ∧ Ptr s k i)
    (hP : ¬ (Sure sb s.refs s ∧ s.node sb (startInum s p path) ≠ none) → P) :
    Spec (namex sb p path parent) s
      (NamexPost sb s.refs parent (startInum s p path) (s.walk sb p path parent) s) (Fault P) := by
  -- both ways to start take a reference to the inode
  have key : ∀ ip t, Took sb (startInum s p path) s ip t →
      Spec (namexLoop sb parent path.length path ip []) t
        (NamexPost sb s.refs parent (startInum s p path) (s.walk sb p path parent) s) (Fault P) := by
    intro ip t ht
    refine Spec.post (namexLoop_spec hl ht.quiet.wf ht.ptr ht.refs _ path [] fun hc => hP fun ⟨hs, h0⟩ =>
      hc ⟨hs.quiet ht.quiet, ?_⟩) ?_
    · rw [hs.node ht.quiet]; exact h0
    rintro r u ⟨hq, hr⟩
    have hnode := node_congr sb ht.blk
    rw [hnode] at hr
    refine ⟨ht.quiet.trans hq, ?_⟩
    cases r with
    | none => exact ⟨hr.1, fun hs => hr.2 (hs.quiet ht.quiet)⟩
    | some z =>
      obtain ⟨i', h1, h2, h3, h4, h5⟩ := hr
      exact ⟨i', h1, h2, h3, fun hs => h4 (hs.quiet ht.quiet), fun hs => h5 (hs.quiet ht.quiet)⟩
  obtain ⟨k, i, hk, hki⟩ := hcwd
  unfold namex
  refine Spec.bind_ok rfl ?_
  split_ifs with hroot
  · have hstart : startInum s p path = ROOTINO := if_pos hroot
    rw [hstart] at key ⊢
    exact Spec.bind (iget_spec h hl.root) fun ip t ht => key ip t ht
  have hstart : startInum s p path = i := by rw [startInum, if_neg hroot, hk, Option.getD_some, hki.2.2]
  rw [hstart] at key ⊢
  rw [hk, Option.getD_some]
  refine Spec.bind (idup_spec h hki) ?_
  rintro ip t ⟨rfl, ht⟩
  exact key ip t ht

end Xv6.Fs
