/-
The file system between the steps of a system call.

`Calm`: every inode without links is referenced and loaded, so that the last `iput` frees it, and every reference is to
an inode in use. In a calm state the functions of kernel/fs.c do to the tree of inodes what their names say and nothing
else, and they lead to calm states again (`Calm.quiet` .. `Calm.drop`).
-/
import Xv6.Fs.Path

namespace Xv6.Fs

open Xv6.Core

variable {sb : Superblock} {i ip dp : ℕ} {s t u : St} {F : ℕ → ℕ} {P : Prop} {n m : Node} {E : Panic → Prop}

structure Calm (sb : Superblock) (s : St) : Prop where
  held : Held sb s.refs s
  alive : ∀ k, 0 < s.refs k → s.node sb (s.inode k).inum ≠ none

theorem Calm.quiet (hc : Calm sb s) (hq : Quiet sb s.refs s t) (hr : t.refs = s.refs) : Calm sb t := by
  refine ⟨by rw [hr]; exact hc.held.quiet hq, fun k hk => ?_⟩
  rw [hr] at hk
  rw [hc.held.node hq, (hq.tab.kept k hk).1]
  exact hc.alive k hk

theorem Calm.to (hc : Calm sb s) (h : WF sb s) (hto : To s t s.blk s.inode) : Calm sb t :=
  hc.quiet (Quiet.of_to h hto _) (by unfold St.refs; rw [hto.inode])

theorem Calm.loaded (hc : Calm sb s) (ht : Loaded sb ip i s t) : Calm sb t := hc.quiet ht.quiet ht.refs

theorem Calm.take (hc : Calm sb s) {k : ℕ} (hq : Quiet sb s.refs s t) (hr : t.refs = s.refs + Pi.single k 1)
    (hi : t.node sb (t.inode k).inum ≠ none) : Calm sb t := by
  have hnode := hc.held.node hq
  refine ⟨fun j n hn h0 => ?_, fun l hl => ?_⟩
  · obtain ⟨l, hl, hlj, hv⟩ := hc.held.quiet hq j n hn h0
    exact ⟨l, by rw [hr]; exact le_add_single s.refs k l hl, hlj, hv⟩
  by_cases hpos : 0 < s.refs l
  · rw [hnode, (hq.tab.kept l hpos).1]; exact hc.alive l hpos
  · have hlk : l = k := by
      by_contra hne
      rw [hr, Pi.add_apply, Pi.single_eq_of_ne hne, Nat.add_zero] at hl
      exact hpos hl
    rw [hlk]; exact hi

theorem Calm.puts (hc : Calm sb s) (hp : Puts sb s t i (some n))
    (h0 : n.nlink = 0 → ∃ k, 0 < s.refs k ∧ (s.inode k).inum = i ∧ (s.inode k).valid = true) : Calm sb t := by
  refine ⟨fun j m hm hm0 => ?_, fun k hk => ?_⟩
  · have key : ∃ k, 0 < s.refs k ∧ (s.inode k).inum = j ∧ (s.inode k).valid = true := by
      rw [hp.node] at hm
      by_cases hj : j = i
      · rw [hj, Function.update_self] at hm
        cases hm
        rw [hj]; exact h0 hm0
      · rw [Function.update_of_ne hj] at hm
        exact hc.held j m hm hm0
    obtain ⟨k, hk, hki, hv⟩ := key
    exact ⟨k, by rw [hp.refs]; exact hk, (hp.tab.kept k hk).1.trans hki, (hp.tab.kept k hk).2 hv⟩
  · rw [hp.refs] at hk
    rw [(hp.tab.kept k hk).1, hp.node]
    by_cases hj : (s.inode k).inum = i
    · rw [hj, Function.update_self]; nofun
    · rw [Function.update_of_ne hj]; exact hc.alive k hk

/-- dropping a reference: the inode is freed if nothing else refers to it and it has no links -/
theorem Dropped.node_eq (hc : Calm sb s) (h : WF sb s) (hp : Ptr s ip i) (hd : Dropped sb F ip i s t) :
    t.node sb = if F ip = 0 ∧ ∃ n, s.node sb i = some n ∧ n.nlink = 0 then
      Function.update (s.node sb) i none else s.node sb := by
  funext j
  by_cases hj : j = i
  · subst hj
    split_ifs with hz
    · obtain ⟨h0, n, hn, hn0⟩ := hz
      obtain ⟨k, hk, hki, hv⟩ := hc.held j n hn hn0
      have hkip : k = ip := h.unique k ip j ⟨h.bound k hk, hk, hki⟩ hp
      rw [Function.update_self]
      exact hd.freed h0 (hkip ▸ hv) n hn hn0
    · rcases hd.quiet.node j with h | ⟨-, ⟨n, hn, hn0⟩, h⟩
      · exact h
      · refine absurd ⟨?_, n, hn, hn0⟩ hz
        by_contra hpos
        exact h ip (Nat.pos_of_ne_zero hpos) hp.2.2
  · rw [hd.other j hj]
    split_ifs
    · rw [Function.update_of_ne hj]
    · rfl

theorem Calm.drop (hc : Calm sb s) (h : WF sb s) (hp : Ptr s ip i) (hF : s.refs = F + Pi.single ip 1)
    (hd : Dropped sb F ip i s t) : Calm sb t := by
  have hnode := hd.node_eq hc h hp
  have hle := pos_refs hF
  refine ⟨fun j m hm hm0 => ?_, fun k hk => ?_⟩
  · have hsm : s.node sb j = some m ∧ ¬ (F ip = 0 ∧ j = i) := by
      rw [hnode] at hm
      split_ifs at hm with hz
      · by_cases hj : j = i
        · rw [hj, Function.update_self] at hm; cases hm
        · rw [Function.update_of_ne hj] at hm
          exact ⟨hm, fun hc => hj hc.2⟩
      · exact ⟨hm, fun ⟨h0, hj⟩ => hz ⟨h0, m, hj ▸ hm, hm0⟩⟩
    obtain ⟨k, hk, hki, hv⟩ := hc.held j m hsm.1 hm0
    have hpos : 0 < F k := by
      by_contra h0
      have hkip : k = ip := by
        by_contra hne
        rw [hF, Pi.add_apply, Pi.single_eq_of_ne hne] at hk
        omega
      subst hkip
      exact hsm.2 ⟨by omega, hki.symm.trans hp.2.2⟩
    exact ⟨k, by rw [hd.refs]; exact hpos, (hd.quiet.tab.kept k hpos).1.trans hki, (hd.quiet.tab.kept k hpos).2 hv⟩
  · rw [hd.refs] at hk
    rw [(hd.quiet.tab.kept k hk).1, hnode]
    split_ifs with hz
    · have hne : (s.inode k).inum ≠ i := by
        intro hki
        have hkip := h.unique k ip i ⟨h.bound k (hle k hk), hle k hk, hki⟩ hp
        rw [hkip] at hk
        omega
      rw [Function.update_of_ne hne]; exact hc.alive k (hle k hk)
    · exact hc.alive k (hle k hk)

/-- a reference to an inode with links, or not the last one -/
theorem Dropped.node_same (hc : Calm sb s) (h : WF sb s) (hp : Ptr s ip i) (hd : Dropped sb F ip i s t)
    (hk : 0 < F ip ∨ ∀ n, s.node sb i = some n → n.nlink ≠ 0) : t.node sb = s.node sb := by
  rw [hd.node_eq hc h hp, if_neg]
  rintro ⟨h0, n, hn, hn0⟩
  rcases hk with hk | hk
  · omega
  · exact hk n hn hn0

theorem Calm.alloc (hc : Calm sb s) {type : UInt16} (hr : t.refs = s.refs + Pi.single ip 1) (htab : Tab s.refs s t)
    (hnode : t.node sb = Function.update (s.node sb) i (some ⟨type, 0, []⟩))
    (hl : Loaded sb ip i t u) : Calm sb u := by
  have htu := hl.quiet.tab
  rw [hr] at htu
  have hun : u.node sb = t.node sb := node_congr sb hl.blk
  have hle := le_add_single s.refs ip
  refine ⟨fun j m hm hm0 => ?_, fun k hk => ?_⟩
  · rw [hun, hnode] at hm
    by_cases hj : j = i
    · exact ⟨ip, hl.ptr.2.1, hj ▸ hl.ptr.2.2, hl.valid⟩
    · rw [Function.update_of_ne hj] at hm
      obtain ⟨k, hk, hki, hv⟩ := hc.held j m hm hm0
      refine ⟨k, by rw [hl.refs, hr]; exact hle k hk, ?_, ?_⟩
      · rw [(htu.kept k (hle k hk)).1, (htab.kept k hk).1, hki]
      · exact (htu.kept k (hle k hk)).2 ((htab.kept k hk).2 hv)
  · rw [hl.refs, hr] at hk
    rw [(htu.kept k hk).1, hun, hnode]
    by_cases hki : (t.inode k).inum = i
    · rw [hki, Function.update_self]; nofun
    rw [Function.update_of_ne hki]
    by_cases hpos : 0 < s.refs k
    · rw [(htab.kept k hpos).1]; exact hc.alive k hpos
    have hkip : k = ip := by
      by_contra hne
      rw [Pi.add_apply, Pi.single_eq_of_ne hne] at hk
      omega
    subst hkip
    rw [← (htu.kept k hk).1] at hki
    exact absurd hl.ptr.2.2 hki

/-! ## Fields of an inode -/

theorem Live.fields (hl : Layout sb) (h : WF sb s) (hn : Live sb s ip i n) (d : Dinode)
    (hd : d.addrs = (s.inode ip).din.addrs ∧ d.size = (s.inode ip).din.size ∧ d.type = (s.inode ip).din.type)
    (hs : t = { s with inode := s.inode.set ip { s.inode ip with din := d } })
    (hu : To t u (setDino sb t.blk (t.inode ip).inum (t.inode ip).din) t.inode) :
    Puts sb s u i (some { n with nlink := d.nlink }) := by
  have hset : Upd s t ip s.blk d := by subst hs; exact ⟨rfl, rfl, rfl, rfl⟩
  have hupd := hset.iupdate hu
  rw [hn.ptr.2.2] at hupd
  have hnode := hn.node
  rw [h.node_ptr hn.ptr hn.valid] at hnode
  cases hnode
  exact h.fields hl hn.ptr hn.valid hd hupd

theorem setNlink_spec (hl : Layout sb) (h : WF sb s) (hn : Live sb s ip i n) (f : UInt16 → UInt16) :
    Spec (setNlink sb ip f) s (fun _ t => Puts sb s t i (some { n with nlink := f n.nlink })) E := by
  unfold setNlink
  refine Spec.bind_ok rfl (Spec.bind_ok rfl (Spec.post iupdate_spec ?_))
  intro _ t ht
  rw [← (hn.din h).2.1]
  exact hn.fields hl h { (s.inode ip).din with nlink := f (s.inode ip).din.nlink } ⟨rfl, rfl, rfl⟩ rfl ht

theorem itrunc_live (hl : Layout sb) (h : WF sb s) (hn : Live sb s ip i n) :
    Spec (itrunc sb ip) s (fun _ t => Puts sb s t i (some { n with bytes := [] })) E := by
  have hnode := hn.node
  rw [h.node_ptr hn.ptr hn.valid] at hnode
  cases hnode
  exact Spec.post (itrunc_puts hl h hn.ptr hn.valid) fun _ _ ht => ht.1

end Xv6.Fs
