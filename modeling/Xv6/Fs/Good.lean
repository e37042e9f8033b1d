/-
Block ownership (kernel/fs.c): the free map, the slots of the inodes, and what it takes to keep them in step.

`Good sb blk v`: with the inode table v, every data block's bit is set exactly when one slot holds it, the blocks before
the data blocks are marked in use, and every inode has the blocks below its size. The inode table is a parameter because
the kernel changes the in-memory copy of one inode first and writes it back later.

A function that works on inode i may write blocks of that inode and free blocks; `Frame` says that it leaves the blocks
of every other inode alone, and so its content (`Frame.content`). `Grow` is what `bmap` does to inode i.
-/
import Xv6.Fs.Alloc

namespace Xv6.Fs

open Xv6.Core

variable {sb : Superblock} {blk blk' blk'' : Store Block} {v : ℕ → Dinode} {i k j : ℕ} {d d' d'' : Dinode}

structure Good (sb : Superblock) (blk : Store Block) (v : ℕ → Dinode) : Prop where
  own : Owned (IsData sb) (bitAt sb blk) (slot sb blk v)
  reserved : ∀ b, b < dataStart sb → bitAt sb blk b = true
  mapped : ∀ i, i < sb.ninodes → (v i).type ≠ 0 → Mapped blk (v i)
  size : ∀ i, i < sb.ninodes → (v i).type ≠ 0 → (v i).size.toNat ≤ MAXFILE * BSIZE

theorem slot_of (hi : i < sb.ninodes) (ht : (v i).type ≠ 0) (k : ℕ) : slot sb blk v (i, k) = slotOf blk (v i) k := by
  simp [slot, hi, ht]

theorem Good.slot_data (h : Good sb blk v) (hi : i < sb.ninodes) (ht : (v i).type ≠ 0)
    (h0 : slotOf blk (v i) k ≠ 0) : IsData sb (slotOf blk (v i) k) := by
  have := h.own.alloc_cell (i, k)
  rw [slot_of hi ht] at this
  exact this h0

theorem Good.slot_ne (h : Good sb blk v) (hi : i < sb.ninodes) (ht : (v i).type ≠ 0) {k' : ℕ} (hk : k ≠ k')
    (h0 : slotOf blk (v i) k ≠ 0) : slotOf blk (v i) k ≠ slotOf blk (v i) k' := by
  intro heq
  have := h.own.inj (i, k) (i, k')
  rw [slot_of hi ht, slot_of hi ht] at this
  simpa [hk] using this heq h0

theorem Good.indirect_data (h : Good sb blk v) (hi : i < sb.ninodes) (ht : (v i).type ≠ 0)
    (h0 : (v i).addr NDIRECT ≠ 0) : IsData sb ((v i).addr NDIRECT) := by
  have := h.slot_data hi ht (k := MAXFILE)
  rw [slotOf_max] at this
  exact this h0

theorem Good.congr (h : Good sb blk v) (hl : Layout sb) (hdata : ∀ b, IsData sb b → blk' b = blk b)
    (hbit : ∀ b, b < sb.size → bitAt sb blk' b = bitAt sb blk b) : Good sb blk' v := by
  have hslot : ∀ j, j < sb.ninodes → (v j).type ≠ 0 → ∀ k, slotOf blk' (v j) k = slotOf blk (v j) k := fun j hj ht =>
    slotOf_congr fun h0 => hdata _ (h.indirect_data hj ht h0)
  refine ⟨h.own.congr (fun b hb => hbit b hb.2) ?_, ?_, ?_, h.size⟩
  · rintro ⟨j, k⟩
    unfold slot
    split_ifs with hj
    · exact hslot j hj.1 hj.2 k
    · rfl
  · intro b hb
    rw [hbit b (by have := hl.data; omega)]; exact h.reserved b hb
  · intro j hj ht k hk
    rw [hslot j hj ht]; exact h.mapped j hj ht k hk

theorem Good.setDino (h : Good sb blk v) (hl : Layout sb) (hi : i < sb.ninodes) :
    Good sb (Fs.setDino sb blk i d) v := by
  refine h.congr hl (fun b hb => ?_) (fun b _ => bitAt_congr ?_)
  · exact Store.set_ne _ _ (by rintro rfl; exact hl.iblock_not_data hi hb)
  · exact Store.set_ne _ _ (hl.iblock_ne_bblock hi b).symm

/-! ## Frames -/

/-- the blocks that inodes other than i hold are the same -/
def Frame (sb : Superblock) (v : ℕ → Dinode) (i : ℕ) (blk blk' : Store Block) : Prop :=
  ∀ j k, j ≠ i → slot sb blk v (j, k) ≠ 0 → blk' (slot sb blk v (j, k)) = blk (slot sb blk v (j, k))

theorem Frame.refl (sb : Superblock) (v : ℕ → Dinode) (i : ℕ) (blk : Store Block) : Frame sb v i blk blk :=
  fun _ _ _ _ => rfl

theorem slot_update (hj : j ≠ i) (k : ℕ) : slot sb blk (Function.update v i d) (j, k) = slot sb blk
    v (j, k) := by
  simp [slot, Function.update_of_ne hj]

theorem Frame.slotOf (h : Frame sb v i blk blk') (hj : j ≠ i) (hjn : j < sb.ninodes) (ht : (v j).type ≠ 0)
    (k : ℕ) : slotOf blk' (v j) k = slotOf blk (v j) k := by
  refine slotOf_congr (fun h0 => ?_) k
  have := h j MAXFILE hj
  rw [slot_of hjn ht, slotOf_max] at this
  exact this h0

theorem Frame.slot (h : Frame sb v i blk blk') (hj : j ≠ i) (k : ℕ) :
    slot sb blk' v (j, k) = slot sb blk v (j, k) := by
  unfold Fs.slot
  split_ifs with hjn
  · exact h.slotOf hj hjn.1 hjn.2 k
  · rfl

theorem Frame.trans (h : Frame sb v i blk blk') (h' : Frame sb v i blk' blk'') : Frame sb v i blk blk'' := by
  intro j k hj h0
  have h1 := h' j k hj
  rw [h.slot hj] at h1
  rw [h1 h0, h j k hj h0]

theorem Frame.content (h : Frame sb v i blk blk') (hj : j ≠ i) (hjn : j < sb.ninodes) (ht : (v j).type ≠ 0)
    (hm : Mapped blk (v j)) : content blk' (v j) = content blk (v j) := by
  refine content_congr hm fun k h0 => ?_
  have := h j k hj
  rw [slot_of hjn ht] at this
  exact this h0

/-- a write to a free block, or to a block that is no data block, or to a block of inode i -/
theorem Good.frame_set (h : Good sb blk (Function.update v i d)) {b : ℕ} {x : Block}
    (hb : ¬ IsData sb b ∨ bitAt sb blk b = false ∨ ∃ k, slot sb blk (Function.update v i d) (i, k) = b) :
    Frame sb v i blk (blk.set b x) := by
  intro j k hj h0
  rw [← slot_update (d := d) hj] at h0 ⊢
  refine Store.set_ne _ _ ?_
  rintro rfl
  rcases hb with hb | hb | ⟨k', hb⟩
  · exact hb (h.own.alloc_cell _ h0)
  · rw [h.own.allocated h0] at hb; cases hb
  · have := h.own.inj _ _ hb.symm h0
    simp only [Prod.mk.injEq] at this
    exact hj this.1

theorem Good.of_frame (h : Good sb blk (Function.update v i d)) (hf : Frame sb v i blk blk')
    (hown : Owned (IsData sb) (bitAt sb blk') (slot sb blk' (Function.update v i d')))
    (hres : ∀ b, b < dataStart sb → bitAt sb blk' b = true) (hm : d'.type ≠ 0 → Mapped blk' d')
    (hs : d'.type ≠ 0 → d'.size.toNat ≤ MAXFILE * BSIZE) : Good sb blk' (Function.update v i d') := by
  refine ⟨hown, hres, fun j hj ht => ?_, fun j hj ht => ?_⟩
  · by_cases hji : j = i
    · subst hji
      rw [Function.update_self] at ht ⊢; exact hm ht
    · rw [Function.update_of_ne hji] at ht ⊢
      have hold := h.mapped j hj
      rw [Function.update_of_ne hji] at hold
      intro k hk
      rw [hf.slotOf hji hj ht]
      exact hold ht k hk
  · by_cases hji : j = i
    · subst hji
      rw [Function.update_self] at ht ⊢; exact hs ht
    · rw [Function.update_of_ne hji] at ht ⊢
      have hold := h.size j hj
      rw [Function.update_of_ne hji] at hold
      exact hold ht

/-! ## Growing an inode -/

/-- d' has the fields and the blocks of d, with the same data, and possibly more blocks -/
structure Ext (blk : Store Block) (d : Dinode) (blk' : Store Block) (d' : Dinode) : Prop where
  same : ∃ a, d' = { d with addrs := a }
  keep : ∀ k, k < MAXFILE → slotOf blk d k ≠ 0 →
    slotOf blk' d' k = slotOf blk d k ∧ blk' (slotOf blk d k) = blk (slotOf blk d k)

theorem Ext.refl (blk : Store Block) (d : Dinode) : Ext blk d blk d := ⟨⟨d.addrs, rfl⟩, fun _ _ _ => ⟨rfl, rfl⟩⟩

theorem Ext.trans (h : Ext blk d blk' d') (h' : Ext blk' d' blk'' d'') : Ext blk d blk'' d'' := by
  refine ⟨?_, fun k hk h0 => ?_⟩
  · obtain ⟨a, rfl⟩ := h.same
    obtain ⟨a', rfl⟩ := h'.same
    exact ⟨a', rfl⟩
  · obtain ⟨h1, h2⟩ := h.keep k hk h0
    obtain ⟨h3, h4⟩ := h'.keep k hk (by rw [h1]; exact h0)
    rw [h1] at h3 h4
    exact ⟨h3, h4.trans h2⟩

theorem Ext.size (h : Ext blk d blk' d') : d'.size = d.size := by obtain ⟨a, rfl⟩ := h.same; rfl
theorem Ext.type (h : Ext blk d blk' d') : d'.type = d.type := by obtain ⟨a, rfl⟩ := h.same; rfl

theorem index_lt (hs : d.size.toNat ≤ MAXFILE * BSIZE) (hk : k * BSIZE < d.size.toNat) : k < MAXFILE := by
  by_contra hge
  have : MAXFILE * BSIZE ≤ k * BSIZE := Nat.mul_le_mul_right _ (by omega)
  omega

theorem Ext.mapped (h : Ext blk d blk' d') (hm : Mapped blk d) (hs : d.size.toNat ≤ MAXFILE * BSIZE) :
    Mapped blk' d' := by
  intro k hk
  rw [h.size] at hk
  rw [(h.keep k (index_lt hs hk) (hm k hk)).1]
  exact hm k hk

/-- what `bmap` does to inode i: d and the blocks before, d' and the blocks after -/
structure Grow (sb : Superblock) (v : ℕ → Dinode) (i : ℕ) (blk : Store Block) (d : Dinode) (blk' : Store Block)
    (d' : Dinode) : Prop where
  good : Good sb blk' (Function.update v i d')
  frame : Frame sb v i blk blk'
  ext : Ext blk d blk' d'
  dino : ∀ j, j < sb.ninodes → dino sb blk' j = dino sb blk j

theorem Grow.refl (h : Good sb blk (Function.update v i d)) : Grow sb v i blk d blk d :=
  ⟨h, Frame.refl _ _ _ _, Ext.refl _ _, fun _ _ => rfl⟩

theorem Grow.trans (h : Grow sb v i blk d blk' d') (h' : Grow sb v i blk' d' blk'' d'') : Grow sb v i blk d blk'' d'' :=
  ⟨h'.good, h.frame.trans h'.frame, h.ext.trans h'.ext, fun j hj => (h'.dino j hj).trans (h.dino j hj)⟩

/-! ## Allocating and freeing -/

section Alloc

variable {b c : ℕ} (hb : IsData sb b)
include hb

theorem bitAt_allocBlk (hc : c < sb.size) :
    bitAt sb (allocBlk sb blk b) c = if c = b then true else bitAt sb blk c := by
  have hne : bblock sb c ≠ b := by
    have := bblock_lt hc
    have := hb.1
    omega
  rw [← bitAt_setBit]
  exact bitAt_congr (Store.set_ne _ _ hne)

theorem allocBlk_data (hc : IsData sb c) (hcb : c ≠ b) : allocBlk sb blk b c = blk c := by
  rw [allocBlk, Store.set_ne _ _ hcb, Store.set_ne]
  rintro rfl; exact bblock_not_data hb.2 hc

theorem freeBlk_data (hc : IsData sb c) : freeBlk sb blk b c = blk c := by
  refine Store.set_ne _ _ ?_
  rintro rfl; exact bblock_not_data hb.2 hc

theorem dino_allocBlk (hl : Layout sb) (hj : j < sb.ninodes) :
    dino sb (allocBlk sb blk b) j = dino sb blk j := by
  refine dino_congr ?_
  rw [allocBlk, Store.set_ne, Store.set_ne]
  · exact hl.iblock_ne_bblock hj b
  · rintro heq; exact hl.iblock_not_data hj (heq ▸ hb)

end Alloc

theorem dino_freeBlk (hl : Layout sb) (b : ℕ) (hj : j < sb.ninodes) :
    dino sb (freeBlk sb blk b) j = dino sb blk j :=
  dino_congr (Store.set_ne _ _ (hl.iblock_ne_bblock hj b))

theorem dino_set_data (hl : Layout sb) {b : ℕ} (hb : IsData sb b) (x : Block) (hj : j < sb.ninodes) :
    dino sb (blk.set b x) j = dino sb blk j := by
  refine dino_congr (Store.set_ne _ _ ?_)
  rintro rfl; exact hl.iblock_not_data hj hb

theorem bitAt_set_data {b : ℕ} (hb : IsData sb b) (x : Block) {c : ℕ} (hc : c < sb.size) :
    bitAt sb (blk.set b x) c = bitAt sb blk c := by
  refine bitAt_congr (Store.set_ne _ _ ?_)
  rintro rfl; exact bblock_not_data hc hb

theorem Good.frame_alloc (h : Good sb blk (Function.update v i d)) {b : ℕ} (hb : IsData sb b)
    (hfree : bitAt sb blk b = false) : Frame sb v i blk (allocBlk sb blk b) := by
  intro j k hj h0
  rw [← slot_update (d := d) hj] at h0 ⊢
  refine allocBlk_data hb (h.own.alloc_cell _ h0) ?_
  rintro rfl
  rw [h.own.allocated h0] at hfree; cases hfree

end Xv6.Fs
