/-
The inode table, and the inodes as the rest of the kernel sees them (kernel/fs.c, `iget` .. `iput`).

`node sb blk i`: inode i on disk, none if it is free: its type, its link count and its content. `WF` is what holds of a
file-system state whenever no function of kernel/fs.c is in the middle of its work: the blocks are owned as they should
be, the entries of the inode table are about different inodes and agree with the disk, and directories consist of
entries.

Functions that only take, use and drop references are `Quiet`: inodes without links and without a reference counted in F
may have been freed. Functions that change one inode are `Puts`.
-/
import Xv6.Fs.Content

namespace Xv6.Fs

open Xv6.Core

variable {sb : Superblock} {blk blk' : Store Block} {v v' : ℕ → Dinode} {i ip k : ℕ} {d d' : Dinode} {s t u : St}
  {F G : ℕ → ℕ} {x : Inode} {E : Panic → Prop} {P : Prop}

/-! ## Nodes -/

/-- an inode in use -/
structure Node where
  type : UInt16
  nlink : UInt16
  bytes : List UInt8
deriving DecidableEq, Repr

def Dinode.node (blk : Store Block) (d : Dinode) : Node := ⟨d.type, d.nlink, content blk d⟩

def node (sb : Superblock) (blk : Store Block) (i : ℕ) : Option Node :=
  if i < sb.ninodes ∧ (dino sb blk i).type ≠ 0 then some ((dino sb blk i).node blk) else none

def St.node (sb : Superblock) (s : St) : ℕ → Option Node := Fs.node sb s.blk

/-- entry k of a directory -/
def entry (l : List UInt8) (k : ℕ) : Dirent := Dirent.decode ((l.drop (k * DESIZE)).take DESIZE)

/-- the entries of a directory -/
def entries (l : List UInt8) : List Dirent := (List.range (l.length / DESIZE)).map (entry l)

/-- a directory consists of entries, and they name inodes -/
def DirOK (sb : Superblock) (l : List UInt8) : Prop := l.length % DESIZE = 0 ∧ ∀ e ∈ entries l, e.inum < sb.ninodes

/-- a panic that is not about a free block, and about a free inode only if P -/
def Fault (P : Prop) (e : Panic) : Prop := e ≠ .freeingFree ∧ (e = .ilockNoType → P)

/-! ## The table -/

/-- the reference counts of the inode table -/
def St.refs (s : St) (k : ℕ) : ℕ := (s.inode k).ref

/-- entry k of the inode table is in use, for inode i -/
def Ptr (s : St) (k i : ℕ) : Prop := k < NINODE ∧ 0 < s.refs k ∧ (s.inode k).inum = i

structure WF (sb : Superblock) (s : St) : Prop where
  good : Good sb s.blk (dino sb s.blk)
  bound : ∀ k, 0 < s.refs k → k < NINODE
  unique : ∀ k l i, Ptr s k i → Ptr s l i → k = l
  range : ∀ k i, Ptr s k i → i < sb.ninodes
  coherent : ∀ k i, Ptr s k i → (s.inode k).valid = true → (s.inode k).din = dino sb s.blk i ∧
    (dino sb s.blk i).type ≠ 0
  dirs : ∀ i n, s.node sb i = some n → n.type = T_DIR → DirOK sb n.bytes

/-- the references counted in F are kept, and open files and processes are as before -/
structure Tab (F : ℕ → ℕ) (s t : St) : Prop where
  file : t.file = s.file
  proc : t.proc = s.proc
  kept : ∀ k, 0 < F k → (t.inode k).inum = (s.inode k).inum ∧ ((s.inode k).valid = true → (t.inode k).valid = true)

theorem Tab.refl (F : ℕ → ℕ) (s : St) : Tab F s s := ⟨rfl, rfl, fun _ _ => ⟨rfl, id⟩⟩

theorem Tab.trans (h : Tab F s t) (h' : Tab F t u) : Tab F s u :=
  ⟨h'.file.trans h.file, h'.proc.trans h.proc, fun k hk =>
    ⟨(h'.kept k hk).1.trans (h.kept k hk).1, fun hv => (h'.kept k hk).2 ((h.kept k hk).2 hv)⟩⟩

theorem Tab.mono (h : Tab F s t) (hG : ∀ k, 0 < G k → 0 < F k) : Tab G s t :=
  ⟨h.file, h.proc, fun k hk => h.kept k (hG k hk)⟩

theorem Tab.ptr (h : Tab F s t) (hk : 0 < F k) (ht : 0 < t.refs k) (hp : Ptr s k i) : Ptr t k i :=
  ⟨hp.1, ht, (h.kept k hk).1.trans hp.2.2⟩

/-- inodes without links, to which F has no reference, may have been freed -/
structure Quiet (sb : Superblock) (F : ℕ → ℕ) (s t : St) : Prop where
  wf : WF sb t
  tab : Tab F s t
  node : ∀ i, t.node sb i = s.node sb i ∨
    t.node sb i = none ∧ (∃ n, s.node sb i = some n ∧ n.nlink = 0) ∧ ∀ k, 0 < F k → (s.inode k).inum ≠ i

theorem Quiet.refl (h : WF sb s) (F : ℕ → ℕ) : Quiet sb F s s := ⟨h, Tab.refl F s, fun _ => Or.inl rfl⟩

theorem Quiet.trans (h : Quiet sb F s t) (h' : Quiet sb F t u) : Quiet sb F s u := by
  refine ⟨h'.wf, h.tab.trans h'.tab, fun i => ?_⟩
  rcases h'.node i with h1 | ⟨h1, h2, h3⟩
  · rw [h1]; exact h.node i
  · rcases h.node i with h4 | ⟨h4, -, -⟩
    · rw [h4] at h2
      exact Or.inr ⟨h1, h2, fun k hk => by rw [← (h.tab.kept k hk).1]; exact h3 k hk⟩
    · obtain ⟨n, hn, -⟩ := h2
      rw [h4] at hn; cases hn

theorem Quiet.mono (h : Quiet sb F s t) (hG : ∀ k, 0 < G k → 0 < F k) : Quiet sb G s t :=
  ⟨h.wf, h.tab.mono hG, fun i => (h.node i).imp_right fun ⟨h1, h2, h3⟩ => ⟨h1, h2, fun k hk => h3 k (hG k hk)⟩⟩

/-- inode i has become n; the table is as before -/
structure Puts (sb : Superblock) (s t : St) (i : ℕ) (n : Option Node) : Prop where
  wf : WF sb t
  tab : Tab s.refs s t
  refs : t.refs = s.refs
  node : t.node sb = Function.update (s.node sb) i n

/-! ## Blocks and nodes -/

/-- only the inodes of the disk matter -/
theorem Good.congr_table (h : Good sb blk v) (hv : ∀ j, j < sb.ninodes → v' j = v j) : Good sb blk v' := by
  refine ⟨h.own.congr (fun _ _ => rfl) ?_, h.reserved, fun j hj => ?_, fun j hj => ?_⟩
  · rintro ⟨j, k⟩
    unfold slot
    by_cases hj : j < sb.ninodes
    · simp only [hv j hj]
    · simp [hj]
  · rw [hv j hj]; exact h.mapped j hj
  · rw [hv j hj]; exact h.size j hj

theorem Good.content_setDino (h : Good sb blk v) (hl : Layout sb) (hi : i < sb.ninodes) {j : ℕ} (hj : j < sb.ninodes)
    (ht : (v j).type ≠ 0) (d : Dinode) : content (Fs.setDino sb blk i d) (v j) = content blk (v j) := by
  refine content_congr (h.mapped j hj ht) fun k h0 => Store.set_ne _ _ ?_
  intro heq
  exact hl.iblock_not_data hi (heq ▸ h.slot_data hj ht h0)

theorem node_of (hi : i < sb.ninodes) (ht : (dino sb blk i).type ≠ 0) :
    node sb blk i = some ((dino sb blk i).node blk) := if_pos ⟨hi, ht⟩

/-- the blocks of inode i have been changed and its disk inode has been written -/
theorem node_setDino (hl : Layout sb) (h : Good sb blk (dino sb blk)) (hi : i < sb.ninodes)
    (ht : Touch sb (dino sb blk) i blk blk' d') :
    Good sb (setDino sb blk' i d') (dino sb (setDino sb blk' i d')) ∧
      node sb (setDino sb blk' i d') =
        Function.update (node sb blk) i (if d'.type ≠ 0 then some (d'.node blk') else none) := by
  have hdino : ∀ j, j < sb.ninodes → dino sb (setDino sb blk' i d') j = Function.update (dino sb blk) i d' j := by
    intro j hj
    rw [dino_setDino, ht.dino j hj]
    by_cases hji : j = i
    · rw [hji, if_pos rfl, Function.update_self]
    · rw [if_neg hji, Function.update_of_ne hji]
  refine ⟨(ht.good.setDino hl hi).congr_table hdino, ?_⟩
  funext j
  by_cases hji : j = i
  · subst hji
    have hself := hdino j hi
    rw [Function.update_self] at hself
    rw [Function.update_self, node, hself]
    by_cases hd' : d'.type ≠ 0
    · have hc := ht.good.content_setDino hl hi hi (by rwa [Function.update_self]) d'
      rw [Function.update_self] at hc
      rw [if_pos ⟨hi, hd'⟩, if_pos hd']
      simp only [Dinode.node, hc]
    · rw [if_neg (by tauto), if_neg hd']
  · rw [Function.update_of_ne hji]
    unfold node
    by_cases hj : j < sb.ninodes
    · have hsame := hdino j hj
      rw [Function.update_of_ne hji] at hsame
      rw [hsame]
      by_cases hjt : (dino sb blk j).type ≠ 0
      · rw [if_pos ⟨hj, hjt⟩, if_pos ⟨hj, hjt⟩]
        have hup : Function.update (dino sb blk) i d' j = dino sb blk j := Function.update_of_ne hji _ _
        have hc := ht.good.content_setDino hl hi hj (by rwa [hup]) d'
        rw [hup, ht.frame.content hji hj hjt (h.mapped j hj hjt)] at hc
        simp only [Dinode.node, hc]
      · rw [if_neg (by tauto), if_neg (by tauto)]
    · rw [if_neg (by tauto), if_neg (by tauto)]

theorem WF.good_ptr (h : WF sb s) (hp : Ptr s ip i) (hv : (s.inode ip).valid = true) :
    Good sb s.blk (Function.update (dino sb s.blk) i (s.inode ip).din) := by
  rw [(h.coherent ip i hp hv).1, Function.update_eq_self]; exact h.good

theorem WF.puts (hl : Layout sb) (h : WF sb s) (hp : Ptr s ip i) (ht : Touch sb (dino sb s.blk) i s.blk blk' d')
    (hd' : d'.type ≠ 0) (hdir : d'.type = T_DIR → DirOK sb (content blk' d'))
    (hu : Upd s t ip (setDino sb blk' i d') d') : Puts sb s t i (some (d'.node blk')) := by
  have hi := h.range ip i hp
  obtain ⟨hgood, hnode⟩ := node_setDino hl h.good hi ht
  rw [if_pos hd'] at hnode
  have hrefs : t.refs = s.refs := by
    funext k
    unfold St.refs
    rw [hu.inode]
    by_cases hk : k = ip
    · rw [hk, Store.set_self]
    · rw [Store.set_ne _ _ hk]
  have hsame : ∀ k, (t.inode k).inum = (s.inode k).inum ∧ (t.inode k).valid = (s.inode k).valid := by
    intro k
    rw [hu.inode]
    by_cases hk : k = ip
    · rw [hk, Store.set_self]; exact ⟨rfl, rfl⟩
    · rw [Store.set_ne _ _ hk]; exact ⟨rfl, rfl⟩
  have hptr : ∀ k j, Ptr t k j → Ptr s k j := fun k j ⟨h1, h2, h3⟩ => ⟨h1, hrefs ▸ h2, (hsame k).1 ▸ h3⟩
  refine ⟨⟨?_, by rw [hrefs]; exact h.bound, fun k l j hk hk' => h.unique k l j (hptr k j hk) (hptr l j hk'),
    fun k j hk => h.range k j (hptr k j hk), fun k j hk hv => ?_, fun j n hn hdt => ?_⟩, ⟨hu.file, hu.proc, fun k _ =>
      ⟨(hsame k).1, fun hv => ?_⟩⟩, hrefs, ?_⟩
  · rw [hu.blk]; exact hgood
  · rw [(hsame k).2] at hv
    rw [hu.blk, hu.inode, dino_setDino]
    by_cases hki : k = ip
    · subst hki
      obtain rfl : i = j := hp.2.2.symm.trans (hptr k j hk).2.2
      rw [Store.set_self, if_pos rfl]; exact ⟨rfl, hd'⟩
    · have hji : j ≠ i := by
        rintro rfl; exact hki (h.unique k ip j (hptr k j hk) hp)
      rw [Store.set_ne _ _ hki, if_neg hji, ht.dino j (h.range k j (hptr k j hk))]
      exact h.coherent k j (hptr k j hk) hv
  · rw [St.node, hu.blk, hnode] at hn
    by_cases hji : j = i
    · rw [hji, Function.update_self] at hn
      cases hn
      exact hdir hdt
    · rw [Function.update_of_ne hji] at hn
      exact h.dirs j n hn hdt
  · rw [(hsame k).2]; exact hv
  · rw [St.node, hu.blk, hnode]; rfl

theorem WF.set (h : WF sb s) (ht : To s t s.blk (s.inode.set k x))
    (hx : 0 < x.ref → k < NINODE ∧ x.inum < sb.ninodes ∧ (∀ l, l ≠ k → ¬ Ptr s l x.inum) ∧
      (x.valid = true → x.din = dino sb s.blk x.inum ∧ (dino sb s.blk x.inum).type ≠ 0)) : WF sb t := by
  have hself : ∀ j, Ptr t k j → 0 < x.ref ∧ x.inum = j := by
    rintro j ⟨-, h2, h3⟩
    rw [St.refs, ht.inode, Store.set_self] at h2
    rw [ht.inode, Store.set_self] at h3
    exact ⟨h2, h3⟩
  have hother : ∀ l j, l ≠ k → Ptr t l j → Ptr s l j := by
    rintro l j hl ⟨h1, h2, h3⟩
    rw [St.refs, ht.inode, Store.set_ne _ _ hl] at h2
    rw [ht.inode, Store.set_ne _ _ hl] at h3
    exact ⟨h1, h2, h3⟩
  refine ⟨by rw [ht.blk]; exact h.good, fun a ha => ?_, fun a b j ha hb => ?_, fun a j ha => ?_,
    fun a j ha hv => ?_, ?_⟩
  · rw [St.refs, ht.inode] at ha
    by_cases hak : a = k
    · subst hak
      rw [Store.set_self] at ha
      exact (hx ha).1
    · rw [Store.set_ne _ _ hak] at ha
      exact h.bound a ha
  · by_cases hak : a = k <;> by_cases hbk : b = k
    · rw [hak, hbk]
    · subst hak
      obtain ⟨h1, rfl⟩ := hself j ha
      exact absurd (hother b _ hbk hb) ((hx h1).2.2.1 b hbk)
    · subst hbk
      obtain ⟨h1, rfl⟩ := hself j hb
      exact absurd (hother a _ hak ha) ((hx h1).2.2.1 a hak)
    · exact h.unique a b j (hother a j hak ha) (hother b j hbk hb)
  · by_cases hak : a = k
    · subst hak
      obtain ⟨h1, rfl⟩ := hself j ha
      exact (hx h1).2.1
    · exact h.range a j (hother a j hak ha)
  · rw [ht.blk, ht.inode]
    rw [ht.inode] at hv
    by_cases hak : a = k
    · subst hak
      obtain ⟨h1, rfl⟩ := hself j ha
      rw [Store.set_self] at hv ⊢
      exact (hx h1).2.2.2 hv
    · rw [Store.set_ne _ _ hak] at hv ⊢
      exact h.coherent a j (hother a j hak ha) hv
  · unfold St.node
    rw [ht.blk]; exact h.dirs

theorem WF.set_same (h : WF sb s) (ht : To s t s.blk (s.inode.set k x))
    (href : 0 < x.ref → 0 < s.refs k) (hinum : x.inum = (s.inode k).inum) (hvalid : x.valid = (s.inode k).valid)
    (hdin : x.din = (s.inode k).din) : WF sb t := by
  refine h.set ht fun hr => ?_
  have hp : Ptr s k x.inum := ⟨h.bound k (href hr), href hr, hinum.symm⟩
  refine ⟨hp.1, h.range k _ hp, fun l hl hpl => hl (h.unique l k _ hpl hp), fun hv => ?_⟩
  rw [hdin]
  exact h.coherent k _ hp (hvalid ▸ hv)

theorem Tab.of_set (ht : To s t blk (s.inode.set k x))
    (hx : 0 < F k → x.inum = (s.inode k).inum ∧ ((s.inode k).valid = true → x.valid = true)) : Tab F s t := by
  refine ⟨ht.file, ht.proc, fun l hl => ?_⟩
  rw [ht.inode]
  by_cases hlk : l = k
  · subst hlk
    rw [Store.set_self]; exact hx hl
  · rw [Store.set_ne _ _ hlk]; exact ⟨rfl, id⟩

theorem refs_set (ht : To s t blk (s.inode.set k x)) : t.refs = Function.update s.refs k x.ref := by
  funext l
  unfold St.refs
  rw [ht.inode]
  by_cases hlk : l = k
  · rw [hlk, Store.set_self, Function.update_self]
  · rw [Store.set_ne _ _ hlk, Function.update_of_ne hlk]

theorem update_add_one (f : ℕ → ℕ) (k : ℕ) : Function.update f k (f k + 1) = f + Pi.single k 1 := by
  funext l
  by_cases hl : l = k
  · rw [hl, Function.update_self, Pi.add_apply, Pi.single_eq_same]
  · rw [Function.update_of_ne hl, Pi.add_apply, Pi.single_eq_of_ne hl, Nat.add_zero]

theorem node_congr (sb : Superblock) (hb : t.blk = s.blk) : t.node sb = s.node sb := by unfold St.node; rw [hb]

theorem Quiet.of_table (hwf : WF sb t) (hb : t.blk = s.blk) (htab : Tab F s t) : Quiet sb F s t :=
  ⟨hwf, htab, fun i => Or.inl (by rw [node_congr sb hb])⟩

/-- a reference to inode i more -/
structure Took (sb : Superblock) (i : ℕ) (s : St) (k : ℕ) (t : St) : Prop where
  quiet : Quiet sb s.refs s t
  blk : t.blk = s.blk
  refs : t.refs = s.refs + Pi.single k 1
  ptr : Ptr t k i

theorem WF.took (h : WF sb s) (hp : Ptr s k i)
    (ht : To s t s.blk (s.inode.set k { s.inode k with ref := (s.inode k).ref + 1 })) : Took sb i s k t := by
  have hrefs := refs_set ht
  refine ⟨Quiet.of_table (h.set_same ht (fun _ => hp.2.1) rfl rfl rfl) ht.blk (Tab.of_set ht fun _ => ⟨rfl, id⟩),
    ht.blk, ?_, hp.1, ?_, ?_⟩
  · rw [hrefs]; exact update_add_one s.refs k
  · rw [hrefs, Function.update_self]; exact Nat.succ_pos _
  · rw [ht.inode, Store.set_self]; exact hp.2.2

/-- `iget` fails only if every entry is in use -/
theorem iget_took (h : WF sb s) (hi : i < sb.ninodes) (hE : s.empty = none → E .igetNoInodes) :
    Spec (iget i) s (Took sb i s) E := by
  unfold iget
  refine Spec.bind_ok rfl ?_
  cases hf : s.find i with
  | some k =>
    have hk := List.find?_some hf
    have hmem := List.mem_range.1 (List.mem_of_find?_eq_some hf)
    simp only [decide_eq_true_eq] at hk
    exact Spec.of_ok rfl (h.took ⟨hmem, hk⟩ ⟨rfl, rfl, rfl, rfl⟩)
  | none =>
    have hno : ∀ l, ¬ Ptr s l i := by
      rintro l ⟨h1, h2, h3⟩
      have := List.find?_eq_none.1 hf l (List.mem_range.2 h1)
      simp only [decide_eq_true_eq] at this
      exact this ⟨h2, h3⟩
    cases he : s.empty with
    | none => exact Spec.throw (hE he)
    | some k =>
      have hk := List.find?_some he
      have hmem := List.mem_range.1 (List.mem_of_find?_eq_some he)
      simp only [decide_eq_true_eq] at hk
      set x : Inode := { s.inode k with inum := i, ref := 1, valid := false } with hx
      have hto : To s { s with inode := s.inode.set k x } s.blk (s.inode.set k x) := ⟨rfl, rfl, rfl, rfl⟩
      have hrefs := refs_set hto
      refine Spec.of_ok rfl (show Took sb i s k { s with inode := s.inode.set k x } from ?_)
      refine ⟨Quiet.of_table (h.set hto fun _ => ⟨hmem, hi, fun l _ => hno l, fun hv => by cases hv⟩) rfl
        (Tab.of_set hto fun hpos => ?_), rfl, ?_, hmem, ?_, ?_⟩
      · rw [St.refs, hk] at hpos; cases hpos
      · have := update_add_one s.refs k
        rw [St.refs, hk] at this
        rw [hrefs]; exact this
      · rw [hrefs, Function.update_self]; exact Nat.one_pos
      · rw [hto.inode, Store.set_self]

theorem iget_spec (h : WF sb s) (hi : i < sb.ninodes) : Spec (iget i) s (Took sb i s) (Fault P) :=
  iget_took h hi fun _ => ⟨nofun, nofun⟩

theorem looks_iget (inum : ℕ) : Spec (iget inum) s (fun k t => Looks s t ∧ (t.inode k).inum = inum) fun _ => True := by
  unfold iget
  refine Spec.bind_ok rfl ?_
  split
  · rename_i k hk
    refine Spec.of_ok rfl ⟨Looks.tables s _ _ _, ?_⟩
    have := List.find?_some hk
    simp only [decide_eq_true_eq] at this
    simp [Store.set, this.2]
  · split
    · exact Spec.throw trivial
    · exact Spec.of_ok rfl ⟨Looks.tables s _ _ _, by simp [Store.set]⟩

theorem idup_spec (h : WF sb s) (hp : Ptr s ip i) :
    Spec (idup ip) s (fun k t => k = ip ∧ Took sb i s ip t) E :=
  Spec.of_ok rfl ⟨rfl, h.took hp ⟨rfl, rfl, rfl, rfl⟩⟩

/-- the entry is loaded, and the lock state has changed -/
structure Loaded (sb : Superblock) (ip i : ℕ) (s t : St) : Prop where
  quiet : Quiet sb s.refs s t
  blk : t.blk = s.blk
  refs : t.refs = s.refs
  ptr : Ptr t ip i
  valid : (t.inode ip).valid = true

/-- `ilock` fails only on an inode that is not in use, or that is locked -/
theorem ilock_loaded (h : WF sb s) (hp : Ptr s ip i) (hT : s.node sb i = none → E .ilockNoType)
    (hD : (s.inode ip).locked = true → E .deadlock) : Spec (ilock sb ip) s (fun _ t => Loaded sb ip i s t) E := by
  have hi := h.range ip i hp
  obtain ⟨hlt, hpos, hinum⟩ := hp
  -- the entry after the lock is taken, whether it was loaded before or not
  have key : ∀ x : Inode, x.ref = (s.inode ip).ref → x.inum = i → x.valid = true → x.din = dino sb s.blk i →
      (dino sb s.blk i).type ≠ 0 → ∀ t, To s t s.blk (s.inode.set ip x) → Loaded sb ip i s t := by
    intro x hr hn hv hd ht t hto
    have hrefs : t.refs = s.refs := by
      rw [refs_set hto, hr]; exact Function.update_eq_self _ _
    have hwf : WF sb t := by
      refine h.set hto fun _ => ⟨hlt, hn ▸ hi, fun l hl hpl => hl ?_, fun _ => by rw [hn]; exact ⟨hd, ht⟩⟩
      rw [hn] at hpl
      exact h.unique l ip i hpl ⟨hlt, hpos, hinum⟩
    refine ⟨Quiet.of_table hwf hto.blk (Tab.of_set hto fun _ => ⟨hn.trans hinum.symm, fun _ => hv⟩), hto.blk, hrefs,
      ⟨hlt, hrefs ▸ hpos, ?_⟩, ?_⟩
    · rw [hto.inode, Store.set_self]; exact hn
    · rw [hto.inode, Store.set_self]; exact hv
  unfold ilock
  refine Spec.bind_ok rfl ?_
  split_ifs with h1 h2 h3
  · exact absurd hpos (by unfold St.refs; omega)
  · exact Spec.throw (hD h2)
  · have hc := h.coherent ip i ⟨hlt, hpos, hinum⟩ h3
    exact Spec.of_ok rfl (key { s.inode ip with locked := true } rfl hinum h3 hc.1 hc.2 _ ⟨rfl, rfl, rfl, rfl⟩)
  · refine Spec.bind_ok rfl (Spec.bind_ok rfl (Spec.bind_ok rfl ?_))
    have hd : getDinode (s.blk (iblock sb (s.inode ip).inum)) ((s.inode ip).inum % IPB) = dino sb s.blk i := by
      rw [hinum]; rfl
    simp only [hd]
    split_ifs with h4
    · refine Spec.throw (hT ?_)
      rw [St.node, node, if_neg (by tauto)]
    · exact Spec.of_ok rfl (key { s.inode ip with locked := true, valid := true, din := dino sb s.blk i } rfl hinum rfl
        rfl h4 _ ⟨rfl, rfl, rfl, rfl⟩)

theorem ilock_spec (h : WF sb s) (hp : Ptr s ip i) (hP : s.node sb i = none → P) :
    Spec (ilock sb ip) s (fun _ t => Loaded sb ip i s t) (Fault P) :=
  ilock_loaded h hp (fun h0 => ⟨nofun, fun _ => hP h0⟩) fun _ => ⟨nofun, nofun⟩

/-- `iunlock` fails only on an inode that is not locked -/
theorem iunlock_loaded (h : WF sb s) (hp : Ptr s ip i) (hv : (s.inode ip).valid = true)
    (hE : (s.inode ip).locked = false → E .iunlock) : Spec (iunlock ip) s (fun _ t => Loaded sb ip i s t) E := by
  unfold iunlock
  refine Spec.bind_ok rfl ?_
  split_ifs with h1
  · refine Spec.throw (hE (h1.resolve_right fun h1 => ?_))
    have := hp.2.1
    unfold St.refs at this
    omega
  set x : Inode := { s.inode ip with locked := false } with hx
  have hto : To s { s with inode := s.inode.set ip x } s.blk (s.inode.set ip x) := ⟨rfl, rfl, rfl, rfl⟩
  have hrefs : St.refs { s with inode := s.inode.set ip x } = s.refs := by
    rw [refs_set hto]; exact Function.update_eq_self _ _
  refine Spec.of_ok rfl (show Loaded sb ip i s { s with inode := s.inode.set ip x } from ?_)
  refine ⟨Quiet.of_table (h.set_same hto (fun _ => hp.2.1) rfl rfl rfl) rfl (Tab.of_set hto fun _ => ⟨rfl, id⟩), rfl,
    hrefs, ⟨hp.1, hrefs ▸ hp.2.1, ?_⟩, ?_⟩
  · rw [hto.inode, Store.set_self]; exact hp.2.2
  · rw [hto.inode, Store.set_self]; exact hv

theorem iunlock_spec (h : WF sb s) (hp : Ptr s ip i) (hv : (s.inode ip).valid = true) :
    Spec (iunlock ip) s (fun _ t => Loaded sb ip i s t) (Fault P) := iunlock_loaded h hp hv fun _ => ⟨nofun, nofun⟩

/-! ## Changing inodes -/

theorem WF.node_ptr (h : WF sb s) (hp : Ptr s ip i) (hv : (s.inode ip).valid = true) :
    s.node sb i = some ((s.inode ip).din.node s.blk) := by
  obtain ⟨hd, ht⟩ := h.coherent ip i hp hv
  rw [St.node, node_of (h.range ip i hp) ht, hd]

theorem WF.fields (hl : Layout sb) (h : WF sb s) (hp : Ptr s ip i) (hv : (s.inode ip).valid = true)
    (hd : d'.addrs = (s.inode ip).din.addrs ∧ d'.size = (s.inode ip).din.size ∧ d'.type = (s.inode ip).din.type)
    (hu : Upd s t ip (setDino sb s.blk i d') d') :
    Puts sb s t i (some { (s.inode ip).din.node s.blk with nlink := d'.nlink }) := by
  obtain ⟨ha, hs, htype⟩ := hd
  have hi := h.range ip i hp
  obtain ⟨hc, ht⟩ := h.coherent ip i hp hv
  rw [← hc] at ht
  have hslot : ∀ k, slotOf s.blk d' k = slotOf s.blk (s.inode ip).din k := fun k => by simp [slotOf, Dinode.addr, ha]
  have hcont : content s.blk d' = content s.blk (s.inode ip).din := by simp [content, byteAt, hslot, hs]
  have hgood := h.good_ptr hp hv
  have hm := hgood.mapped i hi
  have hsz := hgood.size i hi
  rw [Function.update_self] at hm hsz
  have hmap : Mapped s.blk d' := fun k hk => by
    rw [hs] at hk
    rw [hslot]; exact hm ht k hk
  have htouch : Touch sb (dino sb s.blk) i s.blk s.blk d' :=
    ⟨hgood.fields ht ha (by rw [htype]; exact ht) hmap (by rw [hs]; exact hsz ht), Frame.refl _ _ _ _, fun _ _ => rfl⟩
  have hput := h.puts hl hp htouch (by rw [htype]; exact ht) ?_ hu
  · have hn : d'.node s.blk = { (s.inode ip).din.node s.blk with nlink := d'.nlink } := by
      simp [Dinode.node, htype, hcont]
    rwa [hn] at hput
  · intro hdt
    rw [hcont]
    exact h.dirs i _ (h.node_ptr hp hv) (htype.symm.trans hdt)

theorem content_truncated (blk : Store Block) (d : Dinode) : content blk d.truncated = [] := by
  simp [content, Dinode.truncated]

theorem dirOK_nil (sb : Superblock) : DirOK sb [] := ⟨rfl, by simp [entries]⟩

theorem itrunc_puts (hl : Layout sb) (h : WF sb s) (hp : Ptr s ip i) (hv : (s.inode ip).valid = true) :
    Spec (itrunc sb ip) s (fun _ t => Puts sb s t i (some { (s.inode ip).din.node s.blk with bytes := [] }) ∧
      (t.inode ip).din = (s.inode ip).din.truncated) E := by
  obtain ⟨hc, ht⟩ := h.coherent ip i hp hv
  rw [← hc] at ht
  refine Spec.post (itrunc_spec hl (h.good_ptr hp hv) (h.range ip i hp) ht hp.2.2) ?_
  rintro - t ⟨blk', hu, hg, hf, hd⟩
  have hput := h.puts hl hp ⟨hg, hf, hd⟩ ht (fun _ => by rw [content_truncated]; exact dirOK_nil sb) hu
  rw [Dinode.node, content_truncated] at hput
  exact ⟨hput, by rw [hu.entry]⟩

theorem Good.free (h : Good sb blk (Function.update v i d.truncated)) (hi : i < sb.ninodes) (ht : d.type ≠ 0) :
    Good sb blk (Function.update v i { d.truncated with type := 0 }) := by
  refine h.of_frame (Frame.refl _ _ _ _) (h.own.congr (fun _ _ => rfl) ?_) h.reserved (fun h0 => absurd rfl h0)
    (fun h0 => absurd rfl h0)
  rintro ⟨j, k⟩
  by_cases hj : j = i
  · subst hj
    rw [slot_self hi (show d.truncated.type ≠ 0 from ht), slotOf_truncated]
    simp [slot]
  · rw [slot_update hj, slot_update hj]

/-- the inode has been freed; the entry is still in use and no longer loaded -/
structure Unloaded (sb : Superblock) (ip i : ℕ) (s t : St) : Prop where
  wf : WF sb t
  tab : Tab (Function.update s.refs ip 0) s t
  refs : t.refs = s.refs
  ptr : Ptr t ip i
  node : t.node sb = Function.update (s.node sb) i none

theorem WF.unloaded (hl : Layout sb) (h : WF sb s) (hp : Ptr s ip i)
    (hto : To s t (setDino sb blk' i d') (s.inode.set ip x)) (ht : Touch sb (dino sb s.blk) i s.blk blk' d')
    (hd' : d'.type = 0) (href : x.ref = (s.inode ip).ref) (hinum : x.inum = (s.inode ip).inum) (hv : x.valid = false) :
    Unloaded sb ip i s t := by
  have hi := h.range ip i hp
  obtain ⟨hgood, hnode⟩ := node_setDino hl h.good hi ht
  rw [if_neg (by simp [hd'])] at hnode
  have hrefs : t.refs = s.refs := by
    rw [refs_set hto, href]; exact Function.update_eq_self _ _
  have hsame : ∀ k, (t.inode k).inum = (s.inode k).inum := by
    intro k
    rw [hto.inode]
    by_cases hk : k = ip
    · rw [hk, Store.set_self]; exact hinum
    · rw [Store.set_ne _ _ hk]
  have hptr : ∀ k j, Ptr t k j → Ptr s k j := fun k j ⟨h1, h2, h3⟩ => ⟨h1, hrefs ▸ h2, hsame k ▸ h3⟩
  refine ⟨⟨?_, by rw [hrefs]; exact h.bound, fun k l j hk hk' => h.unique k l j (hptr k j hk) (hptr l j hk'),
    fun k j hk => h.range k j (hptr k j hk), fun k j hk hvk => ?_, fun j n hn hdt => ?_⟩, Tab.of_set hto fun h0 => ?_,
    hrefs, ⟨hp.1, hrefs ▸ hp.2.1, (hsame ip).trans hp.2.2⟩, ?_⟩
  · rw [hto.blk]; exact hgood
  · rw [hto.inode] at hvk
    have hki : k ≠ ip := by
      rintro rfl
      rw [Store.set_self, hv] at hvk; cases hvk
    have hji : j ≠ i := by
      rintro rfl; exact hki (h.unique k ip j (hptr k j hk) hp)
    rw [Store.set_ne _ _ hki] at hvk
    rw [hto.blk, hto.inode, dino_setDino, Store.set_ne _ _ hki, if_neg hji, ht.dino j (h.range k j (hptr k j hk))]
    exact h.coherent k j (hptr k j hk) hvk
  · rw [St.node, hto.blk, hnode] at hn
    by_cases hji : j = i
    · rw [hji, Function.update_self] at hn; cases hn
    · rw [Function.update_of_ne hji] at hn
      exact h.dirs j n hn hdt
  · rw [Function.update_self] at h0; cases h0
  · rw [St.node, hto.blk, hnode]; rfl

theorem ifree_spec (hl : Layout sb) (h : WF sb s) (hp : Ptr s ip i) (hv : (s.inode ip).valid = true) :
    Spec (ifree sb ip) s (fun _ t => Unloaded sb ip i s t) (Fault P) := by
  obtain ⟨hc, ht⟩ := h.coherent ip i hp hv
  rw [← hc] at ht
  have hi := h.range ip i hp
  have hgood := h.good_ptr hp hv
  refine Spec.post (ifree_shed hl hi ht hp.2.2 (fun _ => ⟨nofun, nofun⟩) hgood.own) ?_
  rintro - t ⟨blk', hto, hf, hown, -⟩
  obtain ⟨hg, hframe⟩ := hgood.truncated hf hown
  exact h.unloaded hl hp hto ⟨hg.free hi ht, hframe, hf.dino⟩ rfl rfl hp.2.2.symm rfl

/-- a reference to inode i has been dropped, F is left -/
structure Dropped (sb : Superblock) (F : ℕ → ℕ) (ip i : ℕ) (s t : St) : Prop where
  quiet : Quiet sb F s t
  refs : t.refs = F
  other : ∀ j, j ≠ i → t.node sb j = s.node sb j
  freed : F ip = 0 → (s.inode ip).valid = true → ∀ n, s.node sb i = some n → n.nlink = 0 → t.node sb i = none

theorem decr_spec (h : WF sb s) (hp : Ptr s ip i) (hF : s.refs = F + Pi.single ip 1) :
    Spec (do
      let x ← getInode ip
      setInode ip { x with ref := x.ref - 1 }) s (fun _ t => Quiet sb F s t ∧ t.refs = F ∧ t.blk = s.blk) E := by
  set x : Inode := { s.inode ip with ref := (s.inode ip).ref - 1 } with hx
  have hto : To s { s with inode := s.inode.set ip x } s.blk (s.inode.set ip x) := ⟨rfl, rfl, rfl, rfl⟩
  have hpos : s.refs ip = F ip + 1 := by rw [hF, Pi.add_apply, Pi.single_eq_same]
  refine Spec.of_ok rfl (show Quiet sb F s { s with inode := s.inode.set ip x } ∧ _ ∧ _ from ⟨?_, ?_, rfl⟩)
  · exact Quiet.of_table (h.set_same hto (fun _ => hp.2.1) rfl rfl rfl) rfl (Tab.of_set hto fun _ => ⟨rfl, id⟩)
  rw [refs_set hto]
  funext k
  by_cases hk : k = ip
  · rw [hk, Function.update_self]
    show s.refs ip - 1 = F ip
    omega
  · rw [Function.update_of_ne hk, hF, Pi.add_apply, Pi.single_eq_of_ne hk, Nat.add_zero]

theorem iput_spec (hl : Layout sb) (h : WF sb s) (hp : Ptr s ip i) (hF : s.refs = F + Pi.single ip 1) :
    Spec (iput sb ip) s (fun _ t => Dropped sb F ip i s t) (Fault P) := by
  have hself : s.refs ip = F ip + 1 := by rw [hF, Pi.add_apply, Pi.single_eq_same]
  have hle : ∀ k, 0 < F k → 0 < s.refs k := fun k hk => by rw [hF, Pi.add_apply]; omega
  unfold iput
  refine Spec.bind_ok rfl ?_
  split_ifs with hcond
  · obtain ⟨h1, h2, h3⟩ := hcond
    have hF0 : F ip = 0 := by unfold St.refs at hself; omega
    have hne : ∀ k, 0 < F k → k ≠ ip := by
      rintro k hk rfl
      omega
    refine Spec.bind (ifree_spec hl h hp h2) ?_
    intro _ t ht
    have htab : Tab F s t := ht.tab.mono fun k hk => by rw [Function.update_of_ne (hne k hk)]; exact hle k hk
    refine Spec.post (decr_spec ht.wf ht.ptr (by rw [ht.refs]; exact hF)) ?_
    rintro - u ⟨hq, hr, hb⟩
    have hnode : u.node sb = Function.update (s.node sb) i none := (node_congr sb hb).trans ht.node
    refine ⟨⟨hq.wf, htab.trans hq.tab, fun j => ?_⟩, hr, fun j hj => ?_, fun _ _ n _ _ => ?_⟩
    · by_cases hj : j = i
      · subst hj
        refine Or.inr ⟨by rw [hnode, Function.update_self], ⟨_, h.node_ptr hp h2, h3⟩, fun k hk hkj => hne k hk ?_⟩
        exact h.unique k ip j ⟨h.bound k (hle k hk), hle k hk, hkj⟩ hp
      · exact Or.inl (by rw [hnode, Function.update_of_ne hj])
    · rw [hnode, Function.update_of_ne hj]
    · rw [hnode, Function.update_self]
  · refine Spec.post (decr_spec h hp hF) ?_
    rintro - t ⟨hq, hr, hb⟩
    refine ⟨hq, hr, fun j _ => by rw [node_congr sb hb], fun hF0 hv n hn hn0 => ?_⟩
    exfalso
    refine hcond ⟨by unfold St.refs at hself; omega, hv, ?_⟩
    rw [h.node_ptr hp hv] at hn
    cases hn
    exact hn0

end Xv6.Fs
