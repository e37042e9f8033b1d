/-
A file with many names.

`crowd K`: a disk of 2000 blocks, with the layout that mkfs gives it, on which one file has K names: "/a" and up to
17150 in each of the four directories "/p", "/q", "/r", "/s", which fill the largest file size.

- `crowd_idle`, `crowd_exact`: the state is one between system calls, for every K from 1 to 65535.
-/
import Xv6.Fs.Reachable

namespace Xv6.Fs

open Xv6.Core

namespace Crowd

variable {K d i j k n b : ℕ} {ents : ℕ → Dirent} {x : ℕ × ℕ}

/-! ## Directories given by their entries -/

def dirByte (ents : ℕ → Dirent) (off : ℕ) : UInt8 := (ents (off / DESIZE)).bytes.getD (off % DESIZE) 0

/-- the content of a directory with n entries -/
def dirBytes (ents : ℕ → Dirent) (n : ℕ) : List UInt8 := (List.range (n * DESIZE)).map (dirByte ents)

theorem length_dirBytes (ents : ℕ → Dirent) (n : ℕ) : (dirBytes ents n).length = n * DESIZE := by simp [dirBytes]

theorem entry_dirBytes (hk : k < n) (hlen : (ents k).name.length = DIRSIZ) (hi : (ents k).inum < 2 ^ 16) :
    entry (dirBytes ents n) k = ents k := by
  have hbytes := (ents k).length_bytes hlen
  have hle : k * DESIZE + DESIZE ≤ n * DESIZE := by
    rw [← Nat.succ_mul]; exact Nat.mul_le_mul_right _ hk
  have hslice : ((dirBytes ents n).drop (k * DESIZE)).take DESIZE = (ents k).bytes := by
    apply List.ext_getElem
    · rw [hbytes, List.length_take, List.length_drop, length_dirBytes]; omega
    intro r h1 h2
    have hr : r < DESIZE := by omega
    have hdiv : (k * DESIZE + r) / DESIZE = k := by
      rw [Nat.mul_comm, Nat.mul_add_div (by decide), Nat.div_eq_of_lt hr, Nat.add_zero]
    have hmod : (k * DESIZE + r) % DESIZE = r := by rw [Nat.mul_comm, Nat.mul_add_mod, Nat.mod_eq_of_lt hr]
    simp only [List.getElem_take, List.getElem_drop, dirBytes, List.getElem_map, List.getElem_range,
      dirByte, hdiv, hmod]
    exact List.getD_eq_getElem _ _ h2
  rw [entry, hslice, Dirent.decode_bytes _ hi]

theorem entries_dirBytes (h : ∀ k, (ents k).name.length = DIRSIZ ∧ (ents k).inum < 2 ^ 16) :
    entries (dirBytes ents n) = (List.range n).map ents := by
  unfold entries
  rw [length_dirBytes, Nat.mul_div_cancel _ (by decide)]
  exact List.map_congr_left fun k hk => entry_dirBytes (List.mem_range.1 hk) (h k).1 (h k).2

/-! ## The disk -/

/-- the disk that mkfs makes -/
def disk : Superblock :=
  { size := 2000, nblocks := 1953, ninodes := 200, nlog := 31, logstart := 2, inodestart := 33, bmapstart := 46 }

/-- one of 456976 different names -/
def nameOf (x : ℕ) : List UInt8 :=
  [120, UInt8.ofNat (97 + x % 26), UInt8.ofNat (97 + x / 26 % 26), UInt8.ofNat (97 + x / 676 % 26),
    UInt8.ofNat (97 + x / 17576 % 26)]

/-- the entries of the root; three places are free -/
def rootEntry : ℕ → Dirent
  | 0 => link DOT 1
  | 1 => link DOTDOT 1
  | 2 => link [97] 2
  | 3 => link [112] 3
  | 4 => link [113] 4
  | 5 => link [114] 5
  | 6 => link [115] 6
  | _ => noEntry

/-- the entries of the directory 3 + d -/
def bigEntry (K d : ℕ) : ℕ → Dirent
  | 0 => link DOT (3 + d)
  | 1 => link DOTDOT 1
  | k + 2 => if d * 17150 + k + 1 < K then link (nameOf (d * 17150 + k)) 2 else noEntry

/-- free map: block 47 and the blocks from 1125 on are free -/
def freeMap : Block := fun j =>
  if j.val < 5 then 0xff else if j.val = 5 then 0x7f else if j.val < 140 then 0xff else if j.val = 140 then 0x1f else 0

/-- block r of the 269 blocks of the directory 3 + d: twelve of content, the indirect block, the rest of the content -/
def bigBlock (K d r : ℕ) : Block := fun j =>
  if r = 12 then (leBytes 4 (49 + 269 * d + 13 + j.val / 4)).getD (j.val % 4) 0
  else dirByte (bigEntry K d) ((if r < 12 then r else r - 1) * BSIZE + j.val)

def raw (K : ℕ) : Store Block := fun b =>
  if b = 46 then freeMap
  else if b = 48 then fun j => dirByte rootEntry j.val
  else if 49 ≤ b ∧ b < 1125 then bigBlock K ((b - 49) / 269) ((b - 49) % 269)
  else zeroBlock

def rootInode : Dinode := ⟨T_DIR, 0, 0, 5, 160, fun k => if k.val = 0 then 48 else 0⟩
def fileInode (K : ℕ) : Dinode := ⟨T_FILE, 0, 0, UInt16.ofNat K, 0, fun _ => 0⟩
def bigInode (d : ℕ) : Dinode := ⟨T_DIR, 0, 0, 1, 274432, fun k => UInt32.ofNat (49 + 269 * d + k.val)⟩

def inodeOf (K : ℕ) : ℕ → Dinode
  | 1 => rootInode
  | 2 => fileInode K
  | 3 => bigInode 0
  | 4 => bigInode 1
  | 5 => bigInode 2
  | 6 => bigInode 3
  | _ => Dinode.zero

/-- the blocks of the disk -/
def blocks (K : ℕ) : Store Block := [1, 2, 3, 4, 5, 6].foldl (fun b i => setDino disk b i (inodeOf K i)) (raw K)

/-- the root is the current directory of process 0 -/
def crowd (K : ℕ) : St where
  blk := blocks K
  inode k := ⟨ROOTINO, if k = 0 then 1 else 0, false, false, Dinode.zero⟩
  file := Ownership.bare.file
  proc := Ownership.bare.proc
  trace := []

/-! ## Blocks and inodes -/

theorem blocks_ne (hb : b ≠ 33) : blocks K b = raw K b := by
  simp only [blocks, List.foldl, setDino]
  repeat rw [Store.set_ne _ _ (by simpa [iblock, disk, IPB, BSIZE] using hb)]

theorem getDinode_zeroBlock (k : ℕ) : (getDinode zeroBlock k).type = 0 := by
  have h : zeroBlock.read (64 * k) 2 = List.replicate 2 0 := by
    unfold Bytes.read
    rw [List.eq_replicate_iff]
    simp [get_zeroBlock]
  simp only [getDinode, u16, h, leVal_replicate]
  rfl

theorem inodeOf_type (K i : ℕ) : (inodeOf K i).type = if i = 2 then T_FILE else if 1 ≤ i ∧ i ≤ 6 then T_DIR else 0 := by
  unfold inodeOf
  split
  case h_7 h1 h2 h3 h4 h5 h6 =>
    rw [if_neg h2, if_neg]
    · rfl
    · rintro ⟨ha, hb⟩
      interval_cases i
      exacts [h1 rfl, h2 rfl, h3 rfl, h4 rfl, h5 rfl, h6 rfl]
  all_goals rfl

theorem dino_blocks (h1 : 1 ≤ i) (h6 : i ≤ 6) : dino disk (blocks K) i = inodeOf K i := by
  simp only [blocks, List.foldl, dino_setDino]
  interval_cases i <;> rfl

theorem dino_free (hi : i < 200) (h : ¬ (1 ≤ i ∧ i ≤ 6)) : (dino disk (blocks K) i).type = 0 := by
  have hne : ∀ j, 1 ≤ j → j ≤ 6 → i ≠ j := fun j h1 h6 hc => h ⟨hc ▸ h1, hc ▸ h6⟩
  simp only [blocks, List.foldl, dino_setDino]
  rw [if_neg (hne 6 (by omega) (by omega)), if_neg (hne 5 (by omega) (by omega)), if_neg (hne 4 (by omega) (by omega)),
    if_neg (hne 3 (by omega) (by omega)), if_neg (hne 2 (by omega) (by omega)), if_neg (hne 1 (by omega) (by omega))]
  have hblk : raw K (iblock disk i) = zeroBlock := by
    have h33 : 33 ≤ iblock disk i := Nat.le_add_left _ _
    have h46 : iblock disk i < 46 := by
      show i / 16 + 33 < 46
      omega
    unfold raw
    rw [if_neg (by omega), if_neg (by omega), if_neg (by omega)]
  unfold dino
  rw [hblk]; exact getDinode_zeroBlock _

theorem dino_used (hi : i < 200) : (dino disk (blocks K) i).type ≠ 0 ↔ 1 ≤ i ∧ i ≤ 6 := by
  constructor
  · intro ht
    by_contra hc
    exact ht (dino_free hi hc)
  · rintro ⟨h1, h6⟩
    rw [dino_blocks h1 h6, inodeOf_type]
    by_cases h2 : i = 2
    · rw [if_pos h2]; decide
    · rw [if_neg h2, if_pos ⟨h1, h6⟩]; decide

theorem bit_freeMap (hb : b < 2000) : bit freeMap b = decide (b < 1125 ∧ b ≠ 47) := by
  have hff : ∀ r, r < 8 → (0xff : UInt8).toBitVec.getLsbD r = true := by decide
  have h7f : ∀ r, r < 8 → (0x7f : UInt8).toBitVec.getLsbD r = decide (r < 7) := by decide
  have h1f : ∀ r, r < 8 → (0x1f : UInt8).toBitVec.getLsbD r = decide (r < 5) := by decide
  have hr : b % 8 < 8 := Nat.mod_lt _ (by decide)
  unfold bit
  rw [Bytes.get, dif_pos (show b / 8 < BSIZE by unfold BSIZE; omega)]
  simp only [freeMap]
  split_ifs
  · rw [hff _ hr, eq_comm, decide_eq_true_iff]; omega
  · rw [h7f _ hr, decide_eq_decide]; omega
  · rw [hff _ hr, eq_comm, decide_eq_true_iff]; omega
  · rw [h1f _ hr, decide_eq_decide]; omega
  · rw [show (0 : UInt8).toBitVec.getLsbD (b % 8) = false from BitVec.getLsbD_zero, eq_comm, decide_eq_false_iff_not]
    omega

theorem bitAt_blocks (hb : b < 2000) : bitAt disk (blocks K) b = decide (b < 1125 ∧ b ≠ 47) := by
  have h46 : bblock disk b = 46 := by
    show b / 8192 + 46 = 46
    omega
  unfold bitAt
  rw [h46, blocks_ne (by decide), Nat.mod_eq_of_lt (show b < BPB by unfold BPB BSIZE; omega)]
  exact bit_freeMap hb

theorem word_bigBlock (hk : k < 256) (hd : d < 4) : word (bigBlock K d 12) k = 49 + 269 * d + 13 + k := by
  have hread : (bigBlock K d 12).read (4 * k) 4 = leBytes 4 (49 + 269 * d + 13 + k) := by
    apply List.ext_getElem
    · simp
    intro r h1 h2
    have hr : r < 4 := by simpa using h1
    rw [Bytes.getElem_read, Bytes.get, dif_pos (show 4 * k + r < BSIZE by unfold BSIZE; omega)]
    show (if 12 = 12 then (leBytes 4 (49 + 269 * d + 13 + (4 * k + r) / 4)).getD ((4 * k + r) % 4) 0 else _) = _
    rw [if_pos rfl, show (4 * k + r) / 4 = k by omega, show (4 * k + r) % 4 = r by omega]
    exact List.getD_eq_getElem _ _ h2
  rw [word, hread, leVal_leBytes_lt (by norm_num; omega)]

theorem addr_bigInode (hk : k ≤ 12) (hd : d < 4) : (bigInode d).addr k = 49 + 269 * d + k := by
  rw [Dinode.addr, dif_pos (show k < NDIRECT + 1 by unfold NDIRECT; omega)]
  show (UInt32.ofNat (49 + 269 * d + k)).toNat = _
  exact UInt32.toNat_ofNat_of_lt' (by unfold UInt32.size; omega)

theorem slotOf_bigInode (hd : d < 4) : slotOf (blocks K) (bigInode d) k =
    if k < 12 then 49 + 269 * d + k else if k < 268 then 49 + 269 * d + k + 1 else if k = 268 then 49 + 269 * d + 12
      else 0 := by
  have hind : (bigInode d).addr NDIRECT = 49 + 269 * d + 12 := addr_bigInode le_rfl hd
  unfold slotOf
  rw [show NDIRECT = 12 from rfl, show MAXFILE = 268 from rfl]
  split_ifs with h1 h2 h3 h4
  · exact addr_bigInode h1.le hd
  · rw [show NDIRECT = 12 from rfl] at hind
    omega
  · rw [show NDIRECT = 12 from rfl] at hind
    rw [hind, blocks_ne (by omega), raw, if_neg (by omega), if_neg (by omega), if_pos (by omega),
      show (49 + 269 * d + 12 - 49) / 269 = d by omega, show (49 + 269 * d + 12 - 49) % 269 = 12 by omega,
      word_bigBlock (by omega) hd]
    omega
  · exact hind
  · rfl

theorem slotOf_rootInode : slotOf (blocks K) rootInode k = if k = 0 then 48 else 0 := by
  have haddr : ∀ k, rootInode.addr k = if k = 0 then 48 else 0 := fun k => by
    unfold Dinode.addr
    split_ifs with h1 h2 h3
    · subst h2; rfl
    · show (if k = 0 then (48 : UInt32) else 0).toNat = 0
      rw [if_neg h2]; rfl
    · subst h3
      exact absurd (by decide) h1
    · rfl
  unfold slotOf
  rw [haddr, haddr, show NDIRECT = 12 from rfl, show MAXFILE = 268 from rfl]
  split_ifs <;> first | rfl | omega

theorem slotOf_fileInode : slotOf (blocks K) (fileInode K) k = 0 := slotOf_truncated (blocks K) (fileInode K) k

/-- the block that slot k of inode i holds -/
def place (x : ℕ × ℕ) : ℕ :=
  if x.1 = 1 then if x.2 = 0 then 48 else 0
  else if 3 ≤ x.1 ∧ x.1 ≤ 6 then
    if x.2 < 12 then 49 + 269 * (x.1 - 3) + x.2 else if x.2 < 268 then 49 + 269 * (x.1 - 3) + x.2 + 1
    else if x.2 = 268 then 49 + 269 * (x.1 - 3) + 12 else 0
  else 0

theorem slot_blocks (x : ℕ × ℕ) : slot disk (blocks K) (dino disk (blocks K)) x = place x := by
  obtain ⟨i, k⟩ := x
  unfold slot
  split_ifs with h
  · obtain ⟨h1, h6⟩ := (dino_used h.1).1 h.2
    simp only at h1 h6 ⊢
    rw [dino_blocks h1 h6]
    interval_cases i
    · exact slotOf_rootInode
    · exact slotOf_fileInode
    all_goals exact slotOf_bigInode (by decide)
  · have hi : ¬ (1 ≤ i ∧ i ≤ 6) := fun hi => h ⟨show i < 200 by omega, (dino_used (show i < 200 by omega)).2 hi⟩
    unfold place
    rw [if_neg (by simp only; omega), if_neg (by simp only; omega)]

/-- the slot that holds a block -/
def holder (b : ℕ) : ℕ × ℕ :=
  if b = 48 then (1, 0)
  else (3 + (b - 49) / 269, if (b - 49) % 269 < 12 then (b - 49) % 269 else if (b - 49) % 269 = 12 then 268
    else (b - 49) % 269 - 1)

theorem place_big (hd : d < 4) : place (3 + d, k) = if k < 12 then 49 + 269 * d + k else if k < 268 then 49 +
    269 * d + k + 1
    else if k = 268 then 49 + 269 * d + 12 else 0 := by
  rw [place, if_neg (by simp only; omega), if_pos (by simp only; omega), Nat.add_sub_cancel_left]

theorem holder_big {r : ℕ} (hr : r < 269) : holder (49 + 269 * d + r) =
    (3 + d, if r < 12 then r else if r = 12 then 268 else r - 1) := by
  rw [holder, if_neg (by omega), show (49 + 269 * d + r - 49) / 269 = d by omega,
    show (49 + 269 * d + r - 49) % 269 = r by omega]

/-- a slot that holds a block is the root's first one, or one of the first 269 of a large directory -/
theorem place_cases (h0 : place x ≠ 0) : x = (1, 0) ∨ ∃ d k, d < 4 ∧ k < 269 ∧ x = (3 + d, k) := by
  obtain ⟨i, k⟩ := x
  by_cases h1 : i = 1
  · rw [place, if_pos h1] at h0
    split_ifs at h0 with hk
    · exact Or.inl (by rw [h1, show k = 0 from hk])
    · exact absurd rfl h0
  by_cases hi : 3 ≤ i ∧ i ≤ 6
  · obtain ⟨d, rfl⟩ := Nat.exists_eq_add_of_le hi.1
    refine Or.inr ⟨d, k, by omega, ?_, rfl⟩
    by_contra hk
    rw [place_big (by omega), if_neg (by omega), if_neg (by omega), if_neg (by omega)] at h0
    exact h0 rfl
  · rw [place, if_neg h1, if_neg hi] at h0
    exact absurd rfl h0

theorem holder_place (h0 : place x ≠ 0) : holder (place x) = x := by
  rcases place_cases h0 with rfl | ⟨d, k, hd, hk, rfl⟩
  · rfl
  rw [place_big hd]
  by_cases h1 : k < 12
  · rw [if_pos h1, holder_big hk, if_pos h1]
  · by_cases h2 : k < 268
    · rw [if_neg h1, if_pos h2, Nat.add_assoc, holder_big (by omega), if_neg (by omega), if_neg (by omega),
        Nat.add_sub_cancel]
    · rw [if_neg h1, if_neg h2, if_pos (by omega), holder_big (by decide), if_neg (by decide), if_pos rfl,
        show k = 268 by omega]

theorem place_holder (h48 : 48 ≤ b) (hb : b < 1125) : place (holder b) = b := by
  by_cases h : b = 48
  · rw [h]; rfl
  · obtain ⟨d, r, hd, hr, rfl⟩ : ∃ d r, d < 4 ∧ r < 269 ∧ b = 49 + 269 * d + r :=
      ⟨(b - 49) / 269, (b - 49) % 269, by omega, by omega, by omega⟩
    rw [holder_big hr, place_big hd]
    split_ifs <;> omega

theorem blocks_owned : Owned (IsData disk) (bitAt disk (blocks K)) (slot disk (blocks K) (dino disk (blocks K))) := by
  have hdata : ∀ b, IsData disk b ↔ 47 ≤ b ∧ b < 2000 := fun b => Iff.rfl
  have hlt : ∀ x, place x ≠ 0 → 48 ≤ place x ∧ place x < 1125 := fun x hx => by
    rcases place_cases hx with rfl | ⟨d, k, hd, hk, rfl⟩
    · decide
    · rw [place_big hd]
      split_ifs <;> omega
  simp only [funext slot_blocks]
  refine ⟨fun x hx => ?_, fun x y h h0 => ?_, fun b hb h0 => ?_⟩
  · have := hlt x hx
    rw [hdata]; omega
  · rw [← holder_place h0, h, holder_place (h ▸ h0)]
  · rw [hdata] at hb
    rw [bitAt_blocks hb.2, decide_eq_true_iff]
    refine ⟨fun h => ⟨holder b, place_holder (by omega) h.1⟩, ?_⟩
    rintro ⟨x, rfl⟩
    have := hlt x h0
    omega

theorem blocks_good : Good disk (blocks K) (dino disk (blocks K)) := by
  refine ⟨blocks_owned, fun b hb => ?_, fun i hi ht k hk => ?_, fun i hi ht => ?_⟩
  · have hb : b < 47 := hb
    rw [bitAt_blocks (by omega), decide_eq_true_iff]; omega
  · obtain ⟨h1, h6⟩ := (dino_used hi).1 ht
    have hslot := slot_blocks (K := K) (i, k)
    rw [slot, if_pos ⟨hi, ht⟩] at hslot
    simp only at hslot
    rw [dino_blocks h1 h6] at hk hslot ⊢
    rw [hslot]
    interval_cases i
    · have hk : k * 1024 < 160 := hk
      unfold place
      simp only
      split_ifs <;> omega
    · exact absurd hk (Nat.not_lt_zero _)
    all_goals
      have hk : k * 1024 < 274432 := hk
      unfold place
      simp only
      split_ifs <;> omega
  · obtain ⟨h1, h6⟩ := (dino_used hi).1 ht
    rw [dino_blocks h1 h6]
    interval_cases i
    · show 160 ≤ MAXFILE * BSIZE
      decide
    · exact Nat.zero_le _
    all_goals
      show 274432 ≤ MAXFILE * BSIZE
      decide

/-! ## The tree -/

theorem rootEntry_ok (k : ℕ) : (rootEntry k).name.length = DIRSIZ ∧ (rootEntry k).inum < 2 ^ 16 := by
  unfold rootEntry
  split <;> exact ⟨by decide, by decide⟩

theorem bigEntry_ok (hd : d < 4) (k : ℕ) : (bigEntry K d k).name.length = DIRSIZ ∧ (bigEntry K d k).inum < 2 ^ 16 := by
  unfold bigEntry
  split
  · exact ⟨length_link _ _, show 3 + d < 2 ^ 16 by omega⟩
  · exact ⟨by decide, by decide⟩
  · split_ifs
    · exact ⟨length_link _ _, by show 2 < 2 ^ 16; decide⟩
    · exact ⟨by decide, by decide⟩

theorem content_root : content (blocks K) rootInode = dirBytes rootEntry 10 := by
  refine List.map_congr_left fun off hoff => ?_
  have hoff : off < 160 := List.mem_range.1 hoff
  unfold byteAt
  rw [slotOf_rootInode, if_pos (Nat.div_eq_of_lt (by unfold BSIZE; omega)), blocks_ne (by decide), raw,
    if_neg (by decide),
    if_pos rfl, Nat.mod_eq_of_lt (by unfold BSIZE; omega), Bytes.get, dif_pos (show off < BSIZE by unfold BSIZE; omega)]

theorem get_bigBlock {r : ℕ} (hr : r ≠ 12) (hj : j < BSIZE) :
    (bigBlock K d r).get j = dirByte (bigEntry K d) ((if r < 12 then r else r - 1) * BSIZE + j) := by
  rw [Bytes.get, dif_pos hj, bigBlock, if_neg hr]

theorem content_big (hd : d < 4) : content (blocks K) (bigInode d) = dirBytes (bigEntry K d) 17152 := by
  refine List.map_congr_left fun off hoff => ?_
  have hoff : off < 274432 := List.mem_range.1 hoff
  have hlt : off / BSIZE < 268 := Nat.div_lt_of_lt_mul (by unfold BSIZE; omega)
  have hmod : off % BSIZE < BSIZE := Nat.mod_lt _ (by decide)
  have hdiv : off / BSIZE * BSIZE + off % BSIZE = off := Nat.div_add_mod' off BSIZE
  unfold byteAt
  rw [slotOf_bigInode hd]
  generalize off / BSIZE = q at hlt hdiv
  generalize off % BSIZE = r at hmod hdiv
  by_cases h1 : q < 12
  · rw [if_pos h1, blocks_ne (by omega), raw, if_neg (by omega), if_neg (by omega), if_pos (by omega),
      show (49 + 269 * d + q - 49) / 269 = d by omega, show (49 + 269 * d + q - 49) % 269 = q by omega,
      get_bigBlock (by omega) hmod, if_pos h1, hdiv]
  · rw [if_neg h1, if_pos hlt, blocks_ne (by omega), raw, if_neg (by omega), if_neg (by omega), if_pos (by omega),
      show (49 + 269 * d + q + 1 - 49) / 269 = d by omega, show (49 + 269 * d + q + 1 - 49) % 269 = q + 1 by omega,
      get_bigBlock (by omega) hmod, if_neg (by omega), Nat.add_sub_cancel, hdiv]

def tree (K : ℕ) : Tree
  | 1 => some ⟨T_DIR, 5, dirBytes rootEntry 10⟩
  | 2 => some ⟨T_FILE, UInt16.ofNat K, []⟩
  | 3 => some ⟨T_DIR, 1, dirBytes (bigEntry K 0) 17152⟩
  | 4 => some ⟨T_DIR, 1, dirBytes (bigEntry K 1) 17152⟩
  | 5 => some ⟨T_DIR, 1, dirBytes (bigEntry K 2) 17152⟩
  | 6 => some ⟨T_DIR, 1, dirBytes (bigEntry K 3) 17152⟩
  | _ => none

theorem tree_none (h : ¬ (1 ≤ i ∧ i ≤ 6)) : tree K i = none := by
  unfold tree
  split <;> first | rfl | exact absurd ⟨by decide, by decide⟩ h

theorem crowd_node : (crowd K).node disk = tree K := by
  funext i
  show node disk (blocks K) i = tree K i
  unfold node
  by_cases hi : i < disk.ninodes ∧ (dino disk (blocks K) i).type ≠ 0
  · obtain ⟨h1, h6⟩ := (dino_used hi.1).1 hi.2
    rw [if_pos hi, dino_blocks h1 h6]
    have hbig : ∀ d, d < 4 → (bigInode d).node (blocks K) = ⟨T_DIR, 1, dirBytes (bigEntry K d) 17152⟩ := fun d hd => by
      rw [Dinode.node, content_big hd]; rfl
    interval_cases i
    · exact congrArg some (by rw [inodeOf, Dinode.node, content_root]; rfl)
    · exact congrArg some (by rw [inodeOf, Dinode.node]; rfl)
    · exact congrArg some (hbig 0 (by decide))
    · exact congrArg some (hbig 1 (by decide))
    · exact congrArg some (hbig 2 (by decide))
    · exact congrArg some (hbig 3 (by decide))
  · rw [if_neg hi, tree_none fun h => hi ⟨show i < 200 by omega, (dino_used (by omega)).2 h⟩]

theorem tree_some {x : Node} (h : tree K i = some x) : (i = 1 ∧ x = ⟨T_DIR, 5, dirBytes rootEntry 10⟩) ∨
    (i = 2 ∧ x = ⟨T_FILE, UInt16.ofNat K, []⟩) ∨
    ∃ d, d < 4 ∧ i = 3 + d ∧ x = ⟨T_DIR, 1, dirBytes (bigEntry K d) 17152⟩ := by
  unfold tree at h
  split at h
  · exact Or.inl ⟨rfl, (Option.some.inj h).symm⟩
  · exact Or.inr (Or.inl ⟨rfl, (Option.some.inj h).symm⟩)
  · exact Or.inr (Or.inr ⟨0, by decide, rfl, (Option.some.inj h).symm⟩)
  · exact Or.inr (Or.inr ⟨1, by decide, rfl, (Option.some.inj h).symm⟩)
  · exact Or.inr (Or.inr ⟨2, by decide, rfl, (Option.some.inj h).symm⟩)
  · exact Or.inr (Or.inr ⟨3, by decide, rfl, (Option.some.inj h).symm⟩)
  · cases h

theorem tree_big (K : ℕ) (hd : d < 4) : tree K (3 + d) = some ⟨T_DIR, 1, dirBytes (bigEntry K d) 17152⟩ := by
  interval_cases d <;> rfl

/-- the number of names in the directory 3 + d -/
def names (K d : ℕ) : ℕ := min 17150 (K - 1 - d * 17150)

theorem kids_root : (tree K).kids 1 = [2, 3, 4, 5, 6] := by
  rw [kids_of (n := ⟨T_DIR, 5, dirBytes rootEntry 10⟩) rfl, Node.kids, if_pos rfl, entries_dirBytes rootEntry_ok]
  decide

theorem kids_file : (tree K).kids 2 = [] := kids_of (n := ⟨T_FILE, UInt16.ofNat K, []⟩) rfl

theorem proper_nameOf (x : ℕ) : (link (nameOf x) 2).proper = true := proper_link (by decide) rfl rfl

theorem kids_places (n : ℕ) :
    (((List.range n).map fun k => bigEntry K d (k + 2)).filter Dirent.proper).map Dirent.inum =
      List.replicate (min n (K - 1 - d * 17150)) 2 := by
  induction n with
  | zero => simp
  | succ n ih =>
    rw [List.range_succ, List.map_append, List.filter_append, List.map_append, ih]
    simp only [List.map_cons, List.map_nil, bigEntry]
    split_ifs with h
    · rw [List.filter_cons_of_pos (proper_nameOf _), show min (n + 1) (K - 1 - d * 17150) = min n
        (K - 1 - d * 17150) + 1 by
        omega, List.replicate_succ']
      rfl
    · rw [List.filter_cons_of_neg (by decide), show min (n + 1) (K - 1 - d * 17150) = min n
        (K - 1 - d * 17150) by omega]
      simp

theorem kids_big (hd : d < 4) : (tree K).kids (3 + d) = List.replicate (names K d) 2 := by
  rw [kids_of (tree_big K hd), Node.kids, if_pos rfl, entries_dirBytes (bigEntry_ok hd),
    show 17152 = 2 + 17150 from rfl, List.range_add, List.map_append, List.filter_append, List.map_append, List.map_map]
  have htwo : ((List.range 2).map (bigEntry K d)).filter Dirent.proper = [] := by
    show [link DOT (3 + d), link DOTDOT 1].filter Dirent.proper = []
    rw [List.filter_cons_of_neg (by rw [not_proper_dot]; decide), List.filter_cons_of_neg
      (by rw [not_proper_dotdot]; decide)]
    rfl
  have hcomm : (bigEntry K d ∘ fun x => 2 + x) = fun k => bigEntry K d (k + 2) := by
    funext k
    rw [Function.comp_apply, Nat.add_comm]
  rw [htwo, List.map_nil, List.nil_append, hcomm, kids_places]
  rfl

theorem kids_nil (h : ¬ (1 ≤ i ∧ i ≤ 6)) : (tree K).kids i = [] := kids_none (tree_none h)

theorem naming_tree (j : ℕ) : (tree K).naming 200 j = [2, 3, 4, 5, 6].count j + (List.replicate (names K 0) 2).count j +
    (List.replicate (names K 1) 2).count j + (List.replicate (names K 2) 2).count j +
      (List.replicate (names K 3) 2).count j := by
  have hsub : ({1, 3, 4, 5, 6} : Finset ℕ) ⊆ Finset.range 200 := by decide
  unfold Tree.naming
  rw [← Finset.sum_subset hsub]
  · rw [Finset.sum_insert (by decide), Finset.sum_insert (by decide), Finset.sum_insert (by decide),
      Finset.sum_insert (by decide), Finset.sum_singleton, kids_root, kids_big (d := 0) (by decide),
      kids_big (d := 1) (by decide), kids_big (d := 2) (by decide), kids_big (d := 3) (by decide)]
    omega
  · intro x _ hx
    simp only [Finset.mem_insert, Finset.mem_singleton, not_or] at hx
    by_cases h2 : x = 2
    · rw [h2, kids_file]; rfl
    · rw [kids_nil (by omega)]; rfl

theorem naming_file (h1 : 1 ≤ K) (hK : K ≤ 65535) : (tree K).naming 200 2 = K := by
  rw [naming_tree]
  simp only [List.count_replicate_self, names]
  rw [show [2, 3, 4, 5, 6].count 2 = 1 from rfl]
  omega

theorem naming_other (h : j ≠ 2) : (tree K).naming 200 j = if 3 ≤ j ∧ j ≤ 6 then 1 else 0 := by
  rw [naming_tree]
  simp only [List.count_replicate, beq_iff_eq, if_neg h.symm, Nat.add_zero]
  by_cases hj : 3 ≤ j ∧ j ≤ 6
  · rw [if_pos hj]
    obtain ⟨h3, h6⟩ := hj
    interval_cases j <;> rfl
  · rw [if_neg hj, List.count_eq_zero]
    simp only [List.mem_cons, List.not_mem_nil, or_false]
    omega

theorem inside_tree : (tree K).inside i = if i = 1 then 4 else 0 := by
  unfold Tree.inside
  by_cases h1 : i = 1
  · rw [h1, kids_root, if_pos rfl]
    simp [Tree.isDir, tree, T_DIR, T_FILE]
  rw [if_neg h1, List.countP_eq_zero]
  intro y hy hd
  have hy2 : y = 2 := by
    by_cases h : 3 ≤ i ∧ i ≤ 6
    · obtain ⟨d, rfl⟩ := Nat.exists_eq_add_of_le h.1
      rw [kids_big (by omega)] at hy
      exact (List.mem_replicate.1 hy).2
    · by_cases h2 : i = 2
      · rw [h2, kids_file] at hy; cases hy
      · rw [kids_nil (by omega)] at hy; cases hy
  rw [hy2] at hd
  cases hd

theorem mem_kids (h : j ∈ (tree K).kids i) : 2 ≤ j ∧ j ≤ 6 ∧ (j ≠ 2 → i = 1) := by
  by_cases h1 : i = 1
  · rw [h1, kids_root] at h
    simp only [List.mem_cons, List.not_mem_nil, or_false] at h
    omega
  by_cases hi : 3 ≤ i ∧ i ≤ 6
  · obtain ⟨d, rfl⟩ := Nat.exists_eq_add_of_le hi.1
    rw [kids_big (by omega)] at h
    have := (List.mem_replicate.1 h).2
    omega
  · by_cases h2 : i = 2
    · rw [h2, kids_file] at h; cases h
    · rw [kids_nil (by omega)] at h; cases h

theorem dots_dirBytes {b : UInt16} (h : ∀ k, (ents k).name.length = DIRSIZ ∧ (ents k).inum < 2 ^ 16) (hn : 2 ≤ n)
    (h0 : ents 0 = link DOT i) (h1 : ents 1 = link DOTDOT 1)
    (hrest : ∀ k, 2 ≤ k → (ents k).inum ≠ 0 → (ents k).proper = true) : Dots i ⟨T_DIR, b, dirBytes ents n⟩ := by
  have hent : ∀ k, k < n → entry (dirBytes ents n) k = ents k := fun k hk => entry_dirBytes hk (h k).1 (h k).2
  have hlen : (dirBytes ents n).length / DESIZE = n := by rw [length_dirBytes, Nat.mul_div_cancel _ (by decide)]
  refine ⟨by rw [hlen]; exact hn, ?_, ?_, ?_, ?_, fun k hk hlt h0 => ?_⟩
  · rw [hent 0 (by omega), h0]; rfl
  · rw [hent 1 (by omega), h1]; decide
  · rw [hent 0 (by omega), h0]; show namecmp (strncpy DIRSIZ DOT) DOT = true; decide
  · rw [hent 1 (by omega), h1]; show namecmp (strncpy DIRSIZ DOTDOT) DOTDOT = true; decide
  · rw [hlen] at hlt
    simp only [hent k hlt] at h0 ⊢
    exact hrest k hk h0

theorem dots_root : Dots 1 ⟨T_DIR, 5, dirBytes rootEntry 10⟩ :=
  dots_dirBytes rootEntry_ok (by decide) rfl rfl fun k hk h0 => by
    unfold rootEntry at h0 ⊢
    split at h0 <;> first | rfl | omega | exact absurd rfl h0

theorem dots_big (hd : d < 4) : Dots (3 + d) ⟨T_DIR, 1, dirBytes (bigEntry K d) 17152⟩ :=
  dots_dirBytes (bigEntry_ok hd) (by decide) rfl rfl fun k hk h0 => by
    obtain ⟨r, rfl⟩ := Nat.exists_eq_add_of_le' hk
    simp only [bigEntry] at h0 ⊢
    split_ifs at h0 ⊢ with hlt
    · exact proper_nameOf _
    · exact absurd rfl h0

theorem file_ne_dir : T_FILE ≠ T_DIR := by decide

theorem tree_sound (h1 : 1 ≤ K) (hK : K ≤ 65535) : Sound 200 (tree K) := by
  have hup : ∀ (e : ℕ → Dirent) n, (∀ k, (e k).name.length = DIRSIZ ∧ (e k).inum < 2 ^ 16) → 2 ≤ n →
    e 1 = link DOTDOT 1 →
      (entry (dirBytes e n) 1).inum = 1 := fun e n he hn h => by
    rw [entry_dirBytes (by omega) (he 1).1 (he 1).2, h]; rfl
  refine ⟨⟨by decide, rfl, fun i x hx => ?_, fun i x hx hd => ?_, fun i x hx hd => ?_,
    _, rfl, rfl, hup rootEntry 10 rootEntry_ok (by decide) rfl⟩, fun i j hj hn => ?_, fun i x hx hd => ?_,
      fun i hd => ?_,
    fun i x hx hd => ?_, fun i j x hj hx hd => ?_⟩
  · rcases tree_some hx with ⟨rfl, -⟩ | ⟨rfl, -⟩ | ⟨d, hd, rfl, -⟩ <;> omega
  · rcases tree_some hx with ⟨-, rfl⟩ | ⟨-, rfl⟩ | ⟨d, hd, -, rfl⟩
    · rw [length_dirBytes, Nat.mul_mod_left]
    · rfl
    · rw [length_dirBytes, Nat.mul_mod_left]
  · rcases tree_some hx with ⟨rfl, rfl⟩ | ⟨-, rfl⟩ | ⟨d, hd', rfl, rfl⟩
    · exact dots_root
    · exact absurd hd file_ne_dir
    · exact dots_big hd'
  · obtain ⟨h2, h6, -⟩ := mem_kids hj
    interval_cases j <;> cases hn
  · rw [inside_tree]
    rcases tree_some hx with ⟨rfl, rfl⟩ | ⟨-, rfl⟩ | ⟨d, hd, rfl, rfl⟩
    · rw [naming_other (by decide)]; rfl
    · exact absurd hd file_ne_dir
    · rw [naming_other (by omega), if_pos (by omega), if_neg (by omega), if_neg (by unfold ROOTINO; omega)]; rfl
  · obtain ⟨x, hx, hxd⟩ := isDir_iff.1 hd
    rcases tree_some hx with ⟨rfl, rfl⟩ | ⟨-, rfl⟩ | ⟨d, hd, rfl, rfl⟩
    · rw [naming_other (by decide)]; decide
    · exact absurd hxd file_ne_dir
    · rw [naming_other (by omega), if_pos (by omega), if_neg (by unfold ROOTINO; omega)]
  · rcases tree_some hx with ⟨rfl, rfl⟩ | ⟨rfl, rfl⟩ | ⟨d, hd', rfl, rfl⟩
    · exact absurd rfl hd
    · rw [naming_file h1 hK]
      exact (UInt16.toNat_ofNat_of_lt' (by unfold UInt16.size; omega)).ge
    · exact absurd rfl hd
  · obtain ⟨h2, -, h3⟩ := mem_kids hj
    rcases tree_some hx with ⟨rfl, rfl⟩ | ⟨rfl, rfl⟩ | ⟨d, hd', rfl, rfl⟩
    · omega
    · exact absurd hd file_ne_dir
    · rw [h3 (by omega)]
      simp only
      exact hup (bigEntry K d) 17152 (bigEntry_ok hd') (by omega) rfl

theorem crowd_exact (h1 : 1 ≤ K) (hK : K ≤ 65535) : Exact disk.ninodes ((crowd K).node disk) := by
  rw [crowd_node]
  refine ⟨fun i hd h0 hr => ?_, fun i x hx hd => ?_, fun i hpos => ?_⟩
  · obtain ⟨x, hx, hxd⟩ := isDir_iff.1 hd
    rcases tree_some hx with ⟨rfl, rfl⟩ | ⟨-, rfl⟩ | ⟨d, hd, rfl, rfl⟩
    · exact absurd rfl hr
    · exact absurd hxd file_ne_dir
    · rw [show disk.ninodes = 200 from rfl, naming_other (by omega), if_pos (by omega)] at h0
      cases h0
  · rcases tree_some hx with ⟨-, rfl⟩ | ⟨rfl, rfl⟩ | ⟨d, -, -, rfl⟩
    · exact absurd rfl hd
    · rw [show disk.ninodes = 200 from rfl, naming_file h1 hK]
      exact UInt16.toNat_ofNat_of_lt' (by unfold UInt16.size; omega)
    · exact absurd rfl hd
  · obtain ⟨y, -, hy⟩ := exists_of_naming_pos hpos
    obtain ⟨h2, h6, -⟩ := mem_kids hy
    refine (Tree.Reach.root (tree K)).kid (?_ : i ∈ (tree K).kids 1)
    rw [kids_root]
    simp only [List.mem_cons, List.not_mem_nil, or_false]
    omega

theorem crowd_wf : WF disk (crowd K) := by
  have hrefs : ∀ k, 0 < (crowd K).refs k → k = 0 := fun k hk => by
    by_contra hc
    exact absurd hk (by rw [show (crowd K).refs k = if k = 0 then 1 else 0 from rfl, if_neg hc]; exact lt_irrefl 0)
  refine ⟨blocks_good, fun k hk => by rw [hrefs k hk]; decide, fun k l i hk hl => ?_, fun k i hk => ?_,
    fun k i _ hv => (nofun : ¬ false = true) hv |>.elim, fun i x hx hd => ?_⟩
  · rw [hrefs k hk.2.1, hrefs l hl.2.1]
  · rw [← hk.2.2]
    show ROOTINO < 200
    decide
  · rw [crowd_node] at hx
    have hall : ∀ (e : ℕ → Dirent) n, (∀ k, (e k).name.length = DIRSIZ ∧ (e k).inum < 2 ^ 16) →
      (∀ k, (e k).inum < 200) →
        DirOK disk (dirBytes e n) := fun e n he hin => by
      refine ⟨by rw [length_dirBytes, Nat.mul_mod_left], fun x hx => ?_⟩
      rw [entries_dirBytes he] at hx
      obtain ⟨k, -, rfl⟩ := List.mem_map.1 hx
      exact hin k
    rcases tree_some hx with ⟨-, rfl⟩ | ⟨-, rfl⟩ | ⟨d, hd', -, rfl⟩
    · refine hall rootEntry 10 rootEntry_ok fun k => ?_
      unfold rootEntry
      split <;> decide
    · exact dirOK_nil disk
    · simp only
      refine hall (bigEntry K d) 17152 (bigEntry_ok hd') fun k => ?_
      unfold bigEntry
      split
      · show 3 + d < 200
        omega
      · decide
      · split_ifs
        · show 2 < 200
          decide
        · decide

theorem crowd_idle (h1 : 1 ≤ K) (hK : K ≤ 65535) : Idle disk (crowd K) := by
  refine ⟨crowd_wf, acct_boot (fun _ => rfl) rfl rfl, ⟨fun i x hx h0 => ?_, fun k _ => ?_⟩,
    fun f hf => (nofun : ¬ FileType.none = .inode) hf |>.elim, by rw [crowd_node]; exact tree_sound h1 hK⟩
  · rw [crowd_node] at hx
    rcases tree_some hx with ⟨-, rfl⟩ | ⟨-, rfl⟩ | ⟨d, -, -, rfl⟩
    · exact absurd h0 (by decide)
    · have := congrArg UInt16.toNat h0
      rw [UInt16.toNat_ofNat_of_lt' (by unfold UInt16.size; omega)] at this
      rw [this] at h1
      exact absurd h1 (by decide)
    · exact absurd h0 (show (1 : UInt16) ≠ 0 by decide)
  · rw [crowd_node]; nofun

end Crowd

end Xv6.Fs
