/-
Mapping the blocks of an inode (kernel/fs.c, `bmap`).
-/
import Xv6.Fs.Good

namespace Xv6.Fs

open Xv6.Core

variable {sb : Superblock} {blk blk' : Store Block} {v : ℕ → Dinode} {i ip bn : ℕ} {d d' : Dinode} {s : St}
  {E : Panic → Prop}

theorem slot_self (hi : i < sb.ninodes) (ht : d.type ≠ 0) (k : ℕ) :
    slot sb blk (Function.update v i d) (i, k) = slotOf blk d k := by
  rw [slot_of hi (by rwa [Function.update_self]), Function.update_self]

section Attach

theorem Good.kept (h : Good sb blk (Function.update v i d)) (hi : i < sb.ninodes) (ht : d.type ≠ 0) {b k : ℕ}
    (hb : IsData sb b) (hfree : bitAt sb blk b = false) (h0 : slotOf blk d k ≠ 0) :
    allocBlk sb blk b (slotOf blk d k) = blk (slotOf blk d k) := by
  have hd := h.slot_data hi (by rwa [Function.update_self]) (k := k)
  have hbit := h.own.allocated (x := (i, k))
  rw [slot_self hi ht] at hbit
  rw [Function.update_self] at hd
  refine allocBlk_data hb (hd h0) ?_
  rintro rfl
  rw [hbit h0] at hfree; cases hfree

variable (hl : Layout sb) (h : Good sb blk (Function.update v i d)) (hi : i < sb.ninodes) (ht : d.type ≠ 0) {b k : ℕ}
  (hb : IsData sb b) (hfree : bitAt sb blk b = false)
include hl h hi ht hb hfree

/-- store a newly allocated block in an empty slot -/
theorem Good.attach (hf : Frame sb v i blk blk')
    (hbit : ∀ c, c < sb.size → bitAt sb blk' c = if c = b then true else bitAt sb blk c)
    (hsame : ∃ a, d' = { d with addrs := a }) (h0 : slotOf blk d k = 0) (hself : slotOf blk' d' k = b)
    (hne : ∀ k', k' ≠ k → slotOf blk' d' k' = slotOf blk d k')
    (hdata : ∀ k', k' < MAXFILE → slotOf blk d k' ≠ 0 → blk' (slotOf blk d k') = blk (slotOf blk d k'))
    (hdino : ∀ j, j < sb.ninodes → dino sb blk' j = dino sb blk j) : Grow sb v i blk d blk' d' := by
  have hext : Ext blk d blk' d' := by
    refine ⟨hsame, fun k' hk' hk0 => ⟨hne k' ?_, hdata k' hk' hk0⟩⟩
    rintro rfl; exact hk0 h0
  have ht' : d'.type ≠ 0 := by rw [hext.type]; exact ht
  have hm := h.mapped i hi
  have hs := h.size i hi
  rw [Function.update_self] at hm hs
  refine ⟨h.of_frame hf ?_ (fun c hc => ?_) (fun _ => hext.mapped (hm ht) (hs ht)) (fun _ => ?_), hf, hext, hdino⟩
  · refine h.own.alloc hb hb.ne_zero hfree (x := (i, k)) ?_ (fun c hc => hbit c hc.2) ?_ ?_
    · rw [slot_self hi ht]; exact h0
    · rw [slot_self hi (by rwa [hext.type])]; exact hself
    · rintro ⟨j, k'⟩ hjk
      by_cases hj : j = i
      · subst hj
        rw [slot_self hi ht, slot_self hi ht']
        exact hne k' fun hk => hjk (by rw [hk])
      · rw [slot_update hj, slot_update hj, hf.slot hj]
  · have := hl.data
    rw [hbit c (by omega), h.reserved c hc, ite_self]
  · rw [hext.size]; exact hs ht

theorem Good.attach_direct (hk : k < NDIRECT) (h0 : d.addr k = 0) :
    Grow sb v i blk d (allocBlk sb blk b) (d.setAddr k b) := by
  have hind : (d.setAddr k b).addr NDIRECT = d.addr NDIRECT := d.addr_setAddr_ne b (by omega)
  refine h.attach hl hi ht hb hfree (h.frame_alloc hb hfree) (fun c hc => bitAt_allocBlk hb hc) ⟨_, rfl⟩
    (k := k) ?_ ?_ (fun k' hk' => ?_) (fun k' _ hk0 => h.kept hi ht hb hfree hk0) (fun j hj => dino_allocBlk hb hl hj)
  · rw [slotOf_direct _ _ hk]; exact h0
  · rw [slotOf_direct _ _ hk]
    exact d.addr_setAddr (by omega) (hb.lt hl)
  · have hkeep := h.kept hi ht hb hfree (k := MAXFILE)
    rw [slotOf_max] at hkeep
    unfold slotOf
    rw [hind, d.addr_setAddr_ne b hk']
    split_ifs <;> first | rfl | rw [hkeep (by assumption)]

theorem Good.attach_indirect (h0 : d.addr NDIRECT = 0) :
    Grow sb v i blk d (allocBlk sb blk b) (d.setAddr NDIRECT b) := by
  have hself : (d.setAddr NDIRECT b).addr NDIRECT = b := d.addr_setAddr (by omega) (hb.lt hl)
  refine h.attach hl hi ht hb hfree (h.frame_alloc hb hfree) (fun c hc => bitAt_allocBlk hb hc) ⟨_, rfl⟩
    (k := MAXFILE) ?_ ?_ (fun k' hk' => ?_) (fun k' _ hk0 => h.kept hi ht hb hfree hk0)
    (fun j hj => dino_allocBlk hb hl hj)
  · rw [slotOf_max]; exact h0
  · rw [slotOf_max]; exact hself
  · -- the entries of the new indirect block are zero
    have hzero : allocBlk sb blk b b = zeroBlock := Store.set_self _ _ _
    by_cases hk : k' < NDIRECT
    · rw [slotOf_direct _ _ hk, slotOf_direct _ _ hk, d.addr_setAddr_ne b (by omega)]
    · unfold slotOf
      rw [hself, h0, hzero, word_zeroBlock, if_neg hk, if_neg hk]
      simp [hk']

theorem Good.attach_entry {j : ℕ} (hj : j < NINDIRECT) (hind : d.addr NDIRECT ≠ 0)
    (h0 : word (blk (d.addr NDIRECT)) j = 0) :
    Grow sb v i blk d
      ((allocBlk sb blk b).set (d.addr NDIRECT) (setWord (blk (d.addr NDIRECT)) j b)) d := by
  have ht' : (Function.update v i d i).type ≠ 0 := by rwa [Function.update_self]
  have hdat : IsData sb (d.addr NDIRECT) := by
    have := h.indirect_data hi ht'
    rw [Function.update_self] at this
    exact this hind
  have hmax : NDIRECT + j < MAXFILE := by unfold MAXFILE; omega
  have hslot : slotOf blk d (NDIRECT + j) = 0 := by
    rw [slotOf_indirect _ _ (by omega) hmax hind, Nat.add_sub_cancel_left]; exact h0
  have hown : slot sb blk (Function.update v i d) (i, MAXFILE) = d.addr NDIRECT := by
    rw [slot_self hi ht, slotOf_max]
  refine h.attach hl hi ht hb hfree ?_ (fun c hc => ?_) ⟨d.addrs, rfl⟩ (k := NDIRECT + j) hslot ?_ (fun k' hk' => ?_)
    (fun k' hk' hk0 => ?_) (fun c hc => ?_)
  · refine (h.frame_alloc hb hfree).trans fun c k' hc hk0 => Store.set_ne _ _ ?_
    rw [(h.frame_alloc hb hfree).slot hc, ← slot_update (d := d) hc] at hk0 ⊢
    rw [← hown]
    intro heq
    have := h.own.inj _ _ heq hk0
    simp only [Prod.mk.injEq] at this
    exact hc this.1
  · rw [bitAt_set_data hdat _ hc]; exact bitAt_allocBlk hb hc
  · rw [slotOf_indirect _ _ (by omega) hmax hind, Store.set_self, Nat.add_sub_cancel_left,
      word_setWord _ _ hj (hb.lt hl), if_pos rfl]
  · by_cases hk1 : k' < NDIRECT
    · rw [slotOf_direct _ _ hk1, slotOf_direct _ _ hk1]
    · by_cases hk2 : k' < MAXFILE
      · rw [slotOf_indirect _ _ (by omega) hk2 hind, slotOf_indirect _ _ (by omega) hk2 hind, Store.set_self,
          word_setWord _ _ hj (hb.lt hl), if_neg (by omega)]
      · unfold slotOf
        rw [if_neg hk1, if_neg hk2, if_neg hk1, if_neg hk2]
  · rw [Store.set_ne, h.kept hi ht hb hfree hk0]
    have := h.slot_ne hi ht' (show k' ≠ MAXFILE by omega)
    rw [Function.update_self, slotOf_max] at this
    exact this hk0
  · rw [dino_set_data hl hdat _ hc]; exact dino_allocBlk hb hl hc

end Attach

/-! ## `bmap` -/

/-- what `bmap` can return for slot bn of inode i -/
def BmapPost (sb : Superblock) (v : ℕ → Dinode) (i ip bn : ℕ) (s : St) (a : ℕ) (t : St) : Prop :=
  ∃ blk' d', Upd s t ip blk' d' ∧
    Grow sb v i s.blk (s.inode ip).din blk' d' ∧ (a ≠ 0 → a = slotOf blk' d' bn)

theorem bmap_mapped (hbn : bn < MAXFILE) (h0 : slotOf s.blk (s.inode ip).din bn ≠ 0) :
    Spec (bmap sb ip bn) s (fun a t => a = slotOf s.blk (s.inode ip).din bn ∧ Reads s t) E := by
  unfold bmap
  refine Spec.bind_ok rfl ?_
  by_cases hk : bn < NDIRECT
  · rw [slotOf_direct _ _ hk] at h0 ⊢
    rw [if_pos hk, if_neg h0]
    exact Spec.pure ⟨rfl, Reads.refl s⟩
  have hind : (s.inode ip).din.addr NDIRECT ≠ 0 := by
    intro hz
    apply h0
    unfold slotOf
    rw [if_neg hk, if_pos hbn, if_pos hz]
  rw [slotOf_indirect _ _ (by omega) hbn hind] at h0 ⊢
  rw [if_neg hk, if_pos (by unfold MAXFILE at hbn; omega), if_neg hind]
  refine Spec.bind_ok rfl ?_
  beta_reduce
  rw [if_neg hind]
  refine Spec.bind_ok rfl ?_
  beta_reduce
  rw [if_neg h0]
  exact Spec.of_ok rfl ⟨rfl, Reads.block s _⟩

theorem bmap_reads (hbn : bn < MAXFILE) (h0 : slotOf s.blk (s.inode ip).din bn ≠ 0) :
    Spec (bmap sb ip bn) s (fun a t => a ≠ 0 ∧ Reads s t) E :=
  Spec.post (bmap_mapped hbn h0) fun _ _ h => ⟨h.1 ▸ h0, h.2⟩

theorem BmapPost.of_refl {a : ℕ} {t : St} (h : Good sb s.blk (Function.update v i (s.inode ip).din))
    (ht : To s t s.blk s.inode) (ha : a ≠ 0 → a = slotOf s.blk (s.inode ip).din bn) :
    BmapPost sb v i ip bn s a t :=
  ⟨s.blk, (s.inode ip).din, Upd.of_to ht ip, Grow.refl h, ha⟩

section

variable (hl : Layout sb) (h : Good sb s.blk (Function.update v i (s.inode ip).din)) (hi : i < sb.ninodes)
  (ht : (s.inode ip).din.type ≠ 0)
include hl h hi ht

theorem ballocAddr_spec {k : ℕ} (hk : k ≤ NDIRECT) (h0 : (s.inode ip).din.addr k = 0) :
    Spec (ballocAddr sb ip k) s (fun a t => ∃ blk' d', Upd s t ip blk' d' ∧
      Grow sb v i s.blk (s.inode ip).din blk' d' ∧ (a ≠ 0 → a = d'.addr k) ∧ (a = 0 → Full sb t.blk)) E := by
  refine Spec.bind (Spec.and (balloc_spec h.reserved) (balloc_full (E := E) h.reserved)) ?_
  rintro a t ⟨⟨rfl, ht'⟩ | ⟨hd, hfree, ht'⟩, hfull⟩
  · rw [if_pos rfl]
    exact Spec.pure ⟨s.blk, _, Upd.of_to ht' ip, Grow.refl h, fun h => absurd rfl h, hfull⟩
  rw [if_neg hd.ne_zero]
  refine Spec.of_ok rfl ⟨allocBlk sb s.blk a, (s.inode ip).din.setAddr k a, ⟨ht'.blk, ?_, ht'.file, ht'.proc⟩, ?_,
    fun _ => ?_, fun h0 => absurd h0 hd.ne_zero⟩
  · show t.inode.set ip { t.inode ip with din := (t.inode ip).din.setAddr k a } = _
    rw [ht'.inode]
  · rcases Nat.lt_or_eq_of_le hk with hk | rfl
    · exact h.attach_direct hl hi ht hd hfree hk h0
    · exact h.attach_indirect hl hi ht hd hfree h0
  · exact (Dinode.addr_setAddr _ (by omega) (hd.lt hl)).symm

theorem bmapEntry_spec (hk : NDIRECT ≤ bn) (hbn : bn < MAXFILE) (hind : (s.inode ip).din.addr NDIRECT ≠ 0) :
    Spec (bmapEntry sb ((s.inode ip).din.addr NDIRECT) (bn - NDIRECT)) s (fun a t => BmapPost sb v i ip bn s a t ∧
      (a = 0 → Full sb t.blk)) E := by
  have hj : bn - NDIRECT < NINDIRECT := by unfold MAXFILE at hbn; omega
  refine Spec.bind_ok rfl ?_
  split_ifs with h0
  · refine Spec.bind (Spec.and (balloc_spec h.reserved) (balloc_full (E := E) h.reserved)) ?_
    rintro a t ⟨⟨rfl, ht'⟩ | ⟨hd, hfree, ht'⟩, hfull⟩
    · refine Spec.of_ok rfl ⟨BmapPost.of_refl h ?_ fun h0 => absurd rfl h0, hfull⟩
      exact ⟨ht'.blk, ht'.inode, ht'.file, ht'.proc⟩
    have hd0 := hd.ne_zero
    simp only [hd0, ne_eq, not_false_eq_true, if_true]
    refine Spec.of_ok rfl ⟨⟨_, (s.inode ip).din, ⟨?_, ?_, ht'.file, ht'.proc⟩,
      h.attach_entry hl hi ht hd hfree hj hind h0, fun _ => ?_⟩, fun h0 => absurd h0 hd0⟩
    · show t.blk.set _ _ = _
      rw [ht'.blk]
    · rw [Store.set_same]; exact ht'.inode
    · rw [slotOf_indirect _ _ hk hbn hind, Store.set_self, word_setWord _ _ hj (hd.lt hl), if_pos rfl]
  · refine Spec.of_ok rfl ⟨BmapPost.of_refl h ⟨rfl, rfl, rfl, rfl⟩ fun _ => ?_, fun ha => absurd ha h0⟩
    exact (slotOf_indirect _ _ hk hbn hind).symm

/-- it returns 0 only if no block is free -/
theorem bmap_spec (hbn : bn < MAXFILE) :
    Spec (bmap sb ip bn) s (fun a t => BmapPost sb v i ip bn s a t ∧ (a = 0 → Full sb t.blk)) E := by
  unfold bmap
  refine Spec.bind_ok rfl ?_
  by_cases hk : bn < NDIRECT
  · rw [if_pos hk]
    split_ifs with h0
    · refine Spec.post (ballocAddr_spec hl h hi ht hk.le h0) ?_
      rintro a t ⟨blk', d', ht', hg, ha, hfull⟩
      exact ⟨⟨blk', d', ht', hg, fun h0 => by rw [slotOf_direct _ _ hk]; exact ha h0⟩, hfull⟩
    · refine Spec.pure ⟨BmapPost.of_refl h (To.refl s) fun _ => ?_, fun ha => absurd ha h0⟩
      rw [slotOf_direct _ _ hk]
  · rw [if_neg hk, if_pos (by unfold MAXFILE at hbn; omega)]
    have hk' : NDIRECT ≤ bn := by omega
    split_ifs with h0
    · refine Spec.bind (ballocAddr_spec hl h hi ht le_rfl h0) ?_
      rintro a t ⟨blk', d', ht', hg, ha, hfull⟩
      beta_reduce
      split_ifs with ha0
      · exact Spec.pure ⟨⟨blk', d', ht', hg, fun h => absurd rfl h⟩, fun _ => hfull ha0⟩
      obtain rfl := ha ha0
      have hind : (t.inode ip).din = d' := by rw [ht'.entry]
      have hgood := hg.good
      rw [← ht'.blk, ← hind] at hgood
      rw [← hind] at ha0
      have htype : (t.inode ip).din.type ≠ 0 := by rw [hind, hg.ext.type]; exact ht
      have := bmapEntry_spec (E := E) hl hgood hi htype hk' hbn ha0
      rw [hind] at this
      refine Spec.post this ?_
      rintro b u ⟨⟨blk'', d'', hu, hg', hb⟩, hfull'⟩
      rw [hind, ht'.blk] at hg'
      exact ⟨⟨blk'', d'', ht'.trans hu, hg.trans hg', hb⟩, hfull'⟩
    · refine Spec.bind_ok rfl ?_
      beta_reduce
      rw [if_neg h0]
      exact bmapEntry_spec hl h hi ht hk' hbn h0

end

end Xv6.Fs
