/-
Operations on inodes, at the level of nodes (kernel/fs.c, `ialloc`, `iunlockput`, `readi`, `writei`).

- `ialloc_spec`: a free inode gets the type; it has no links and no content.
- `writei_puts`: the content of the inode is what `writei_spec` says, and nothing else changes.
-/
import Xv6.Fs.Itable

namespace Xv6.Fs

open Xv6.Core

variable {sb : Superblock} {blk blk' : Store Block} {v : ℕ → Dinode} {i ip off : ℕ} {d d' : Dinode} {s t u : St}
  {F : ℕ → ℕ} {P : Prop} {n : Node} {type : UInt16}

/-- ip is a reference to inode i, loaded, and the inode is n -/
structure Live (sb : Superblock) (s : St) (ip i : ℕ) (n : Node) : Prop where
  ptr : Ptr s ip i
  valid : (s.inode ip).valid = true
  node : s.node sb i = some n

theorem Live.din (h : WF sb s) (hn : Live sb s ip i n) : (s.inode ip).din.type = n.type ∧
    (s.inode ip).din.nlink = n.nlink ∧ (s.inode ip).din.size.toNat = n.bytes.length := by
  have := hn.node
  rw [h.node_ptr hn.ptr hn.valid] at this
  cases this
  exact ⟨rfl, rfl, (length_content _ _).symm⟩

theorem Live.size (h : WF sb s) (hn : Live sb s ip i n) : n.bytes.length ≤ MAXFILE * BSIZE := by
  obtain ⟨hc, ht⟩ := h.coherent ip i hn.ptr hn.valid
  rw [← (hn.din h).2.2, hc]
  exact h.good.size i (h.range ip i hn.ptr) ht

theorem Live.congr (hn : Live sb s ip i n) (hto : To s t s.blk s.inode) : Live sb t ip i n := by
  refine ⟨?_, ?_, ?_⟩
  · unfold Ptr St.refs
    rw [hto.inode]; exact hn.ptr
  · rw [hto.inode]; exact hn.valid
  · rw [node_congr sb hto.blk]; exact hn.node

theorem Live.quiet (hn : Live sb s ip i n) (hq : Quiet sb F s t) (hF : 0 < F ip) (ht : 0 < t.refs ip) :
    Live sb t ip i n := by
  refine ⟨hq.tab.ptr hF ht hn.ptr, (hq.tab.kept ip hF).2 hn.valid, ?_⟩
  rcases hq.node i with h | ⟨-, -, h⟩
  · rw [h]; exact hn.node
  · exact absurd hn.ptr.2.2 (h ip hF)

theorem iunlockput_spec (hl : Layout sb) (h : WF sb s) (hp : Ptr s ip i) (hv : (s.inode ip).valid = true)
    (hF : s.refs = F + Pi.single ip 1) :
    Spec (iunlockput sb ip) s (fun _ t => Dropped sb F ip i s t) (Fault P) := by
  have hle : ∀ k, 0 < F k → 0 < s.refs k := fun k hk => by rw [hF, Pi.add_apply]; omega
  unfold iunlockput
  refine Spec.bind (iunlock_spec h hp hv) ?_
  intro _ t ht
  refine Spec.post (iput_spec hl ht.quiet.wf ht.ptr (by rw [ht.refs]; exact hF)) ?_
  intro _ u hu
  have hnode := node_congr sb ht.blk
  refine ⟨(ht.quiet.mono hle).trans hu.quiet, hu.refs, fun j hj => ?_, fun hF0 _ n hn => ?_⟩
  · rw [hu.other j hj, hnode]
  · exact hu.freed hF0 ht.valid n (by rw [hnode]; exact hn)

/-! ## Allocating an inode -/

theorem Good.fresh (h : Good sb blk v) (ht : (v i).type = 0) (type : UInt16) :
    Good sb blk (Function.update v i { Dinode.zero with type := type }) := by
  have hzero : ∀ k, slotOf blk { Dinode.zero with type := type } k = 0 := fun k => by
    simp [slotOf, Dinode.addr, Dinode.zero]
  have h' : Good sb blk (Function.update v i (v i)) := by rwa [Function.update_eq_self]
  refine h'.of_frame (Frame.refl _ _ _ _) (h'.own.congr (fun _ _ => rfl) ?_) h.reserved (fun _ k hk => ?_) (fun _ => ?_)
  · rintro ⟨j, k⟩
    by_cases hj : j = i
    · subst hj
      simp [slot, hzero, ht]
    · rw [slot_update hj, slot_update hj]
  · exact absurd hk (Nat.not_lt_zero _)
  · exact Nat.zero_le _

theorem node_none (hi : i < sb.ninodes) : node sb blk i = none ↔ (dino sb blk i).type = 0 := by
  unfold node
  split_ifs with h
  · simp [h.2]
  · simp only [true_iff]; tauto

theorem WF.alloc (hl : Layout sb) (h : WF sb s) (hi : i < sb.ninodes) (hfree : s.node sb i = none)
    (hty : type ≠ 0) (hto : To s t (setDino sb s.blk i { Dinode.zero with type := type }) s.inode) :
    WF sb t ∧ t.node sb = Function.update (s.node sb) i (some ⟨type, 0, []⟩) := by
  have hz : (dino sb s.blk i).type = 0 := (node_none hi).1 hfree
  obtain ⟨hgood, hnode⟩ := node_setDino hl h.good hi
    ⟨h.good.fresh hz type, Frame.refl _ _ _ _, fun _ _ => rfl⟩
  rw [if_pos hty] at hnode
  have hn : t.node sb = Function.update (s.node sb) i (some ⟨type, 0, []⟩) := by
    rw [St.node, hto.blk, hnode]; rfl
  have hptr : ∀ k j, Ptr t k j ↔ Ptr s k j := fun k j => by unfold Ptr St.refs; rw [hto.inode]
  refine ⟨⟨?_, ?_, fun k l j hk hk' => ?_, fun k j hk => ?_, fun k j hk hv => ?_, fun j n hjn hdt => ?_⟩, hn⟩
  · rw [hto.blk]; exact hgood
  · unfold St.refs
    rw [hto.inode]; exact h.bound
  · exact h.unique k l j ((hptr k j).1 hk) ((hptr l j).1 hk')
  · exact h.range k j ((hptr k j).1 hk)
  · rw [hto.inode] at hv ⊢
    have hc := h.coherent k j ((hptr k j).1 hk) hv
    have hji : j ≠ i := by rintro rfl; exact hc.2 hz
    rw [hto.blk, dino_setDino, if_neg hji]; exact hc
  · rw [hn] at hjn
    by_cases hji : j = i
    · rw [hji, Function.update_self] at hjn
      cases hjn
      exact dirOK_nil sb
    · rw [Function.update_of_ne hji] at hjn
      exact h.dirs j n hjn hdt

/-- what `ialloc` can return -/
def IallocPost (sb : Superblock) (type : UInt16) (s : St) (r : Option ℕ) (t : St) : Prop :=
  match r with
  | none => To s t s.blk s.inode
  | some ip => ∃ i, 0 < i ∧ i < sb.ninodes ∧ s.node sb i = none ∧ WF sb t ∧ Tab s.refs s t ∧
      t.refs = s.refs + Pi.single ip 1 ∧ Ptr t ip i ∧ t.node sb = Function.update (s.node sb) i (some ⟨type, 0, []⟩)

theorem WF.congr (h : WF sb s) (hto : To s t s.blk s.inode) : WF sb t := by
  refine h.set_same (k := 0) (x := s.inode 0) ⟨hto.blk, ?_, hto.file, hto.proc⟩ id rfl rfl rfl
  rw [Store.set_same]; exact hto.inode

theorem IallocPost.congr {r : Option ℕ} (h : IallocPost sb type t r u) (hto : To s t s.blk s.inode) :
    IallocPost sb type s r u := by
  have hnode := node_congr sb hto.blk
  have hrefs : t.refs = s.refs := by unfold St.refs; rw [hto.inode]
  cases r with
  | none =>
    have h : To t u t.blk t.inode := h
    exact ⟨h.blk.trans hto.blk, h.inode.trans hto.inode, h.file.trans hto.file, h.proc.trans hto.proc⟩
  | some ip =>
    obtain ⟨i, h1, h2, h3, h4, h5, h6, h7, h8⟩ := h
    rw [hrefs] at h5 h6
    rw [hnode] at h3 h8
    refine ⟨i, h1, h2, h3, h4, ⟨h5.file.trans hto.file, h5.proc.trans hto.proc, ?_⟩, h6, h7, h8⟩
    rw [← hto.inode]; exact h5.kept

theorem iget_alloc (hl : Layout sb) (h : WF sb s) (hi : i < sb.ninodes) (hpos : 0 < i) (hfree : s.node sb i = none)
    (hty : type ≠ 0) (hto : To s t (setDino sb s.blk i { Dinode.zero with type := type }) s.inode) :
    Spec (do
      let ip ← iget i
      return some ip) t (IallocPost sb type s) (Fault P) := by
  obtain ⟨hwf, hnode⟩ := h.alloc hl hi hfree hty hto
  have hrefs : t.refs = s.refs := by unfold St.refs; rw [hto.inode]
  refine Spec.bind (iget_spec hwf hi) ?_
  intro ip u hu
  have htab := hu.quiet.tab
  rw [hrefs] at htab
  refine Spec.pure ⟨i, hpos, hi, hfree, hu.quiet.wf, ⟨htab.file.trans hto.file, htab.proc.trans hto.proc, ?_⟩, ?_,
    hu.ptr,
    (node_congr sb hu.blk).trans hnode⟩
  · rw [← hto.inode]; exact htab.kept
  · rw [hu.refs, hrefs]

theorem iallocLoop_spec (hl : Layout sb) (h : WF sb s) (hty : type ≠ 0) (n inum : ℕ) (hpos : 0 < inum) :
    Spec (iallocLoop sb type n inum) s (IallocPost sb type s) (Fault P) := by
  induction n generalizing inum s with
  | zero => exact Spec.pure (To.refl s)
  | succ n ih =>
    unfold iallocLoop
    split_ifs with hlt
    · refine Spec.bind_ok rfl ?_
      split_ifs with hz
      · refine Spec.bind_ok rfl (Spec.bind_ok rfl (Spec.bind_ok rfl ?_))
        have hfree : s.node sb inum = none := (node_none hlt).2 hz
        refine iget_alloc hl h hlt hpos hfree hty ⟨?_, rfl, rfl, rfl⟩
        rfl
      · refine Spec.bind_ok rfl (Spec.post (ih (h.congr ?_) (inum + 1) (by omega)) ?_)
        · exact ⟨rfl, rfl, rfl, rfl⟩
        · intro r t ht
          exact ht.congr ⟨rfl, rfl, rfl, rfl⟩
    · exact Spec.pure (To.refl s)

theorem ialloc_spec (hl : Layout sb) (h : WF sb s) (hty : type ≠ 0) :
    Spec (ialloc sb type) s (IallocPost sb type s) (Fault P) :=
  iallocLoop_spec hl h hty sb.ninodes 1 Nat.one_pos

/-! ## Content -/

theorem readi_node (h : WF sb s) (hn : Live sb s ip i n) {len : ℕ} (hlen : off + len < 2 ^ 32) {E : Panic → Prop} :
    Spec (readi sb ip .kernel off len) s (fun r t => Reads s t ∧ r = some ((n.bytes.drop off).take len)) E := by
  obtain ⟨hp, hv, hnode⟩ := hn
  obtain ⟨hc, ht⟩ := h.coherent ip i hp hv
  have hi := h.range ip i hp
  rw [h.node_ptr hp hv] at hnode
  cases hnode
  refine readi_kernel ?_ ?_ hlen
  · rw [hc]; exact h.good.mapped i hi ht
  · rw [hc]; exact h.good.size i hi ht

/-- what `writei` does to the content of an inode: w is stored from offset off on, and the first m bytes of it count -/
def written (l : List UInt8) (off : ℕ) (w : List UInt8) (m : ℕ) : List UInt8 :=
  (overwrite l off w).take (max l.length (off + m))

/-- what `writei` can return, for an inode with content l -/
structure Wrote (l : List UInt8) (src : Src) (off n m : ℕ) (w : List UInt8) : Prop where
  le : m ≤ n
  offset : off ≤ l.length
  max : off + n ≤ MAXFILE * BSIZE
  room : m ≤ w.length ∧ w.length ≤ n
  bytes : w.take m = (List.range m).map src.byte
  clean : src.Clean → w.length = m
  whole : src.Clean → off % BSIZE + n ≤ BSIZE → m = 0 ∨ m = n

theorem length_written_le {l w : List UInt8} {src : Src} {n m : ℕ} (h : Wrote l src off n m w) :
    (written l off w m).length ≤ max l.length (off + n) := by
  unfold written
  rw [List.length_take]
  have := h.le
  omega

theorem writei_puts (hl : Layout sb) (h : WF sb s) (hn : Live sb s ip i n) {src : Src} {len : ℕ} (hsrc : src.Has len)
    (hdir : n.type = T_DIR → ∀ m w, Wrote n.bytes src off len m w → DirOK sb (written n.bytes off w m)) :
    Spec (writei sb ip src off len) s (fun r t =>
      (r = none ∧ (n.bytes.length < off ∨ MAXFILE * BSIZE < off + len) ∧ To s t s.blk s.inode) ∨
      ∃ m w, r = some m ∧ Wrote n.bytes src off len m w ∧
        Puts sb s t i (some { n with bytes := written n.bytes off w m })) (Fault P) := by
  obtain ⟨hp, hv, hnode⟩ := hn
  obtain ⟨hc, ht⟩ := h.coherent ip i hp hv
  have hi := h.range ip i hp
  rw [← hc] at ht
  rw [h.node_ptr hp hv] at hnode
  cases hnode
  refine Spec.post (writei_spec hl hi (h.good_ptr hp hv) ht hp.2.2 hsrc) ?_
  rintro r t (⟨rfl, hbad, hto⟩ | ⟨m, w, blk', d', rfl, hoff, hmax, hw⟩)
  · exact Or.inl ⟨rfl, by rwa [Dinode.node, length_content], hto⟩
  have hwrote : Wrote (content s.blk (s.inode ip).din) src off len m w :=
    ⟨hw.le, by rwa [length_content], hmax, hw.room, hw.bytes, hw.clean, hw.whole⟩
  have hcont : content blk' d' = written (content s.blk (s.inode ip).din) off w m := by
    rw [hw.content, written, length_content]
  obtain ⟨a, size, hd'⟩ := hw.fields
  have htype : d'.type = (s.inode ip).din.type := by rw [hd']
  have hput := h.puts hl hp hw.touch (by rw [htype]; exact ht)
    (fun hdt => by rw [hcont]; exact hdir (htype.symm.trans hdt) m w hwrote) hw.upd
  have hnode : d'.node blk' = ⟨(s.inode ip).din.type, (s.inode ip).din.nlink,
      written (content s.blk (s.inode ip).din) off w m⟩ := by
    rw [Dinode.node, hcont, htype, show d'.nlink = (s.inode ip).din.nlink by rw [hd']]
  rw [hnode] at hput
  exact Or.inr ⟨m, w, rfl, hwrote, hput⟩

theorem Puts.live {m : Node} (hp : Puts sb s t i (some m)) (hn : Live sb s ip i n) : Live sb t ip i m := by
  have hpos := hn.ptr.2.1
  refine ⟨hp.tab.ptr hpos (by rw [hp.refs]; exact hpos) hn.ptr, (hp.tab.kept ip hpos).2 hn.valid, ?_⟩
  rw [hp.node, Function.update_self]

theorem Puts.live_ne {o : Option Node} {j jp : ℕ} (hp : Puts sb s t i o) (hn : Live sb s jp j n)
    (hj : j ≠ i) : Live sb t jp j n := by
  have hpos := hn.ptr.2.1
  refine ⟨hp.tab.ptr hpos (by rw [hp.refs]; exact hpos) hn.ptr, (hp.tab.kept jp hpos).2 hn.valid, ?_⟩
  rw [hp.node, Function.update_of_ne hj]; exact hn.node

end Xv6.Fs
