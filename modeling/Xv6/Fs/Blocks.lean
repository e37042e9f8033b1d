/-
What the blocks of the disk mean: the inode table, the free map, the blocks an inode's slots hold, and its content.

The kernel writes a block for one of three reasons: it is an inode block, a free-map block, or a data block. `Layout`
keeps the three apart, and for each kind of write there are lemmas that say what it changes and that it changes nothing
else: `dino_setDino` / `dino_set`, `bitAt_setBit` / `bitAt_set`, `slotOf_congr` / `content_congr`.

Slot k of an inode is its k-th data block for k < MAXFILE (direct, or an entry of its indirect block), and the indirect
block itself for k = MAXFILE.
-/
import Xv6.Core.Ownership
import Xv6.Core.Crash
import Xv6.Fs.Layout

namespace Xv6.Fs

open Xv6.Core

/-! ## Layout -/

/-- the first data block -/
def dataStart (sb : Superblock) : ℕ := sb.bmapstart + sb.size / BPB + 1

def IsData (sb : Superblock) (b : ℕ) : Prop := dataStart sb ≤ b ∧ b < sb.size

instance (sb : Superblock) (b : ℕ) : Decidable (IsData sb b) := by unfold IsData; infer_instance

/-- the disk layout: log, inode blocks, free map and data blocks, in this order -/
structure Layout (sb : Superblock) : Prop where
  inodes : 2 ≤ sb.inodestart
  bmap : sb.inodestart + sb.ninodes / IPB + 1 ≤ sb.bmapstart
  root : ROOTINO < sb.ninodes
  /-- `inum` of a directory entry is 16 bits -/
  inum : sb.ninodes ≤ 2 ^ 16
  size : sb.size + BPB ≤ 2 ^ 31
  data : dataStart sb ≤ sb.size

variable {sb : Superblock} {blk blk' : Store Block} {b i : ℕ}

theorem bmapstart_lt (sb : Superblock) : sb.bmapstart < dataStart sb := Nat.lt_succ_of_le (Nat.le_add_right _ _)

theorem IsData.ne_zero (hb : IsData sb b) : b ≠ 0 := by
  have := bmapstart_lt sb
  unfold IsData at hb
  omega

theorem IsData.lt (h : Layout sb) (hb : IsData sb b) : b < 2 ^ 32 := by
  have := h.size
  unfold IsData at hb
  omega

/-- inode blocks and free-map blocks are no data blocks, and not each other -/
theorem Layout.iblock_lt (h : Layout sb) (hi : i < sb.ninodes) : iblock sb i < sb.bmapstart := by
  have := h.bmap
  have : i / IPB ≤ sb.ninodes / IPB := Nat.div_le_div_right hi.le
  unfold iblock; omega

theorem bblock_ge (sb : Superblock) (b : ℕ) : sb.bmapstart ≤ bblock sb b := Nat.le_add_left _ _

theorem bblock_lt (hb : b < sb.size) : bblock sb b < dataStart sb := by
  have : b / BPB ≤ sb.size / BPB := Nat.div_le_div_right hb.le
  unfold bblock dataStart; omega

theorem Layout.iblock_ne_bblock (h : Layout sb) (hi : i < sb.ninodes) (b : ℕ) : iblock sb i ≠ bblock sb b := by
  have := h.iblock_lt hi
  have := bblock_ge sb b
  omega

theorem Layout.iblock_not_data (h : Layout sb) (hi : i < sb.ninodes) : ¬ IsData sb (iblock sb i) := by
  have := h.iblock_lt hi
  have := bmapstart_lt sb
  unfold IsData; omega

theorem bblock_not_data (hb : b < sb.size) : ¬ IsData sb (bblock sb b) := by
  have := bblock_lt hb
  unfold IsData; omega

/-! ## The inode table and the free map -/

/-- the disk inode with number i -/
def dino (sb : Superblock) (blk : Store Block) (i : ℕ) : Dinode := getDinode (blk (iblock sb i)) (i % IPB)

/-- write the disk inode with number i -/
def setDino (sb : Superblock) (blk : Store Block) (i : ℕ) (d : Dinode) : Store Block :=
  blk.set (iblock sb i) (setDinode (blk (iblock sb i)) (i % IPB) d)

theorem dino_setDino (sb : Superblock) (blk : Store Block) (i j : ℕ) (d : Dinode) :
    dino sb (setDino sb blk i d) j = if j = i then d else dino sb blk j := by
  unfold dino setDino
  have hlt : i % IPB < IPB := Nat.mod_lt _ (by decide)
  split_ifs with h
  · rw [h, Store.set_self, getDinode_setDinode _ _ hlt]
  by_cases hb : iblock sb j = iblock sb i
  · have hne : j % IPB ≠ i % IPB := by
      intro hm
      apply h
      have hd : j / IPB = i / IPB := by unfold iblock at hb; omega
      rw [← Nat.div_add_mod j IPB, ← Nat.div_add_mod i IPB, hd, hm]
    rw [hb, Store.set_self, getDinode_setDinode_ne _ _ hne]
  · rw [Store.set_ne _ _ hb]

theorem setDino_setDino (sb : Superblock) (blk : Store Block) (i : ℕ) (d e : Dinode) :
    setDino sb (setDino sb blk i d) i e = setDino sb blk i e := by
  simp [setDino, setDinode_setDinode]

theorem dino_congr (h : blk' (iblock sb i) = blk (iblock sb i)) : dino sb blk' i = dino sb blk i := by
  unfold dino; rw [h]

/-- the bit of block b in the free map -/
def bitAt (sb : Superblock) (blk : Store Block) (b : ℕ) : Bool := bit (blk (bblock sb b)) (b % BPB)

theorem bitAt_congr (h : blk' (bblock sb b) = blk (bblock sb b)) : bitAt sb blk' b = bitAt sb blk b := by
  unfold bitAt; rw [h]

theorem eq_of_bblock {a : ℕ} (h : bblock sb a = bblock sb b) (hm : a % BPB = b % BPB) : a = b := by
  have hd : a / BPB = b / BPB := by unfold bblock at h; omega
  rw [← Nat.div_add_mod a BPB, ← Nat.div_add_mod b BPB, hd, hm]

theorem bitAt_edit {d : Block} {x : Bool}
    (hd : ∀ j, bit d j = if j = b % BPB then x else bit (blk (bblock sb b)) j) (c : ℕ) :
    bitAt sb (blk.set (bblock sb b) d) c = if c = b then x else bitAt sb blk c := by
  unfold bitAt
  by_cases hb : bblock sb c = bblock sb b
  · rw [hb, Store.set_self, hd]
    by_cases hc : c = b
    · rw [if_pos (by rw [hc]), if_pos hc]
    · rw [if_neg (fun hm => hc (eq_of_bblock hb hm)), if_neg hc]
  · rw [Store.set_ne _ _ hb, if_neg (by rintro rfl; exact hb rfl)]

theorem bitAt_setBit (sb : Superblock) (blk : Store Block) (b c : ℕ) :
    bitAt sb (blk.set (bblock sb b) (setBit (blk (bblock sb b)) (b % BPB))) c =
      if c = b then true else bitAt sb blk c :=
  bitAt_edit (fun j => bit_setBit _ j (Nat.mod_lt _ (by decide))) c

theorem bitAt_clearBit (sb : Superblock) (blk : Store Block) (b c : ℕ) :
    bitAt sb (blk.set (bblock sb b) (clearBit (blk (bblock sb b)) (b % BPB))) c =
      if c = b then false else bitAt sb blk c :=
  bitAt_edit (fun j => bit_clearBit _ j (Nat.mod_lt _ (by decide))) c

/-! ## Slots and content -/

/-- the block that slot k of an inode holds; 0 if none -/
def slotOf (blk : Store Block) (d : Dinode) (k : ℕ) : ℕ :=
  if k < NDIRECT then d.addr k
  else if k < MAXFILE then if d.addr NDIRECT = 0 then 0 else word (blk (d.addr NDIRECT)) (k - NDIRECT)
  else if k = MAXFILE then d.addr NDIRECT
  else 0

theorem slotOf_max (blk : Store Block) (d : Dinode) : slotOf blk d MAXFILE = d.addr NDIRECT := by
  simp [slotOf, MAXFILE]

theorem slotOf_direct (blk : Store Block) (d : Dinode) {k : ℕ} (hk : k < NDIRECT) : slotOf blk d k = d.addr k := by
  simp [slotOf, hk]

theorem slotOf_indirect (blk : Store Block) (d : Dinode) {k : ℕ} (hk : NDIRECT ≤ k) (hm : k < MAXFILE)
    (h0 : d.addr NDIRECT ≠ 0) : slotOf blk d k = word (blk (d.addr NDIRECT)) (k - NDIRECT) := by
  simp [slotOf, Nat.not_lt.2 hk, hm, h0]

theorem slotOf_congr {d : Dinode} (h : d.addr NDIRECT ≠ 0 → blk' (d.addr NDIRECT) = blk (d.addr NDIRECT)) (k : ℕ) :
    slotOf blk' d k = slotOf blk d k := by
  unfold slotOf
  by_cases h0 : d.addr NDIRECT = 0
  · simp [h0]
  · rw [h h0]

/-- what slot k of inode i holds, in the inode table v; free inodes have no slots -/
def slot (sb : Superblock) (blk : Store Block) (v : ℕ → Dinode) (x : ℕ × ℕ) : ℕ :=
  if x.1 < sb.ninodes ∧ (v x.1).type ≠ 0 then slotOf blk (v x.1) x.2 else 0

/-- byte `off` of an inode's content -/
def byteAt (blk : Store Block) (d : Dinode) (off : ℕ) : UInt8 := (blk (slotOf blk d (off / BSIZE))).get (off % BSIZE)

/-- the content of an inode -/
def content (blk : Store Block) (d : Dinode) : List UInt8 := (List.range d.size.toNat).map (byteAt blk d)

@[simp] theorem length_content (blk : Store Block) (d : Dinode) : (content blk d).length = d.size.toNat := by
  simp [content]

/-- every block below the size is mapped -/
def Mapped (blk : Store Block) (d : Dinode) : Prop := ∀ k, k * BSIZE < d.size.toNat → slotOf blk d k ≠ 0

theorem content_congr {d : Dinode} (hm : Mapped blk d)
    (h : ∀ k, slotOf blk d k ≠ 0 → blk' (slotOf blk d k) = blk (slotOf blk d k)) : content blk' d = content blk d := by
  have hind : d.addr NDIRECT ≠ 0 → blk' (d.addr NDIRECT) = blk (d.addr NDIRECT) := by
    intro h0
    have := h MAXFILE
    rw [slotOf_max] at this
    exact this h0
  refine List.map_congr_left fun off hoff => ?_
  have hlt : off < d.size.toNat := List.mem_range.1 hoff
  have hk : off / BSIZE * BSIZE < d.size.toNat := lt_of_le_of_lt (Nat.div_mul_le_self off BSIZE) hlt
  unfold byteAt
  rw [slotOf_congr hind, h _ (hm _ hk)]

end Xv6.Fs
