/-
The on-disk format of the file system (kernel/fs.h): super block, inodes, free map, indirect blocks and directory
entries, all as little-endian bytes of disk blocks.

Every field is read and written at its byte offset, so that what one kernel function stores is what another one reads:
- `getDinode_setDinode`, `getDinode_setDinode_ne`: an inode slot of an inode block;
- `bit_setBit`, `bit_clearBit`: a bit of a free-map block;
- `word_setWord`: an entry of an indirect block;
- `Dirent.decode_encode`: a directory entry.
-/
import Xv6.Log.Header

namespace Xv6.Fs

open Xv6.Core

def ROOTINO : ℕ := 1
def NDIRECT : ℕ := 12
def NINDIRECT : ℕ := BSIZE / 4
def MAXFILE : ℕ := NDIRECT + NINDIRECT
def DIRSIZ : ℕ := 14
/-- inodes per block -/
def IPB : ℕ := BSIZE / 64
/-- bitmap bits per block -/
def BPB : ℕ := BSIZE * 8

def T_DIR : UInt16 := 1
def T_FILE : UInt16 := 2
def T_DEVICE : UInt16 := 3
def T_SYMLINK : UInt16 := 4

/-- `struct superblock`, without the magic number -/
structure Superblock where
  size : ℕ
  nblocks : ℕ
  ninodes : ℕ
  nlog : ℕ
  logstart : ℕ
  inodestart : ℕ
  bmapstart : ℕ
deriving DecidableEq, Repr

/-- block containing inode i -/
def iblock (sb : Superblock) (i : ℕ) : ℕ := i / IPB + sb.inodestart

/-- block of free map containing bit for block b -/
def bblock (sb : Superblock) (b : ℕ) : ℕ := b / BPB + sb.bmapstart

/-! ## Fields of a block -/

def u16 (b : Block) (off : ℕ) : UInt16 := UInt16.ofNat (leVal (b.read off 2))

def u32 (b : Block) (off : ℕ) : UInt32 := UInt32.ofNat (leVal (b.read off 4))

variable {off k j bi : ℕ}

theorem u16_of_read {b : Block} {v : UInt16} (h : b.read off 2 = leBytes 2 v.toNat) : u16 b off = v := by
  rw [u16, h, leVal_leBytes_lt (by simpa using v.toNat_lt)]
  exact UInt16.ofNat_toNat

theorem u32_of_read {b : Block} {v : UInt32} (h : b.read off 4 = leBytes 4 v.toNat) : u32 b off = v := by
  rw [u32, h, leVal_leBytes_lt (by simpa using v.toNat_lt)]
  exact UInt32.ofNat_toNat

/-! ## Inodes -/

/-- `struct dinode`, and the copy of it in `struct inode` -/
structure Dinode where
  type : UInt16
  major : UInt16
  minor : UInt16
  nlink : UInt16
  size : UInt32
  addrs : Fin (NDIRECT + 1) → UInt32

/-- the inode that `memset` leaves -/
def Dinode.zero : Dinode := ⟨0, 0, 0, 0, 0, fun _ => 0⟩

/-- `addrs[k]`, as a block number -/
def Dinode.addr (d : Dinode) (k : ℕ) : ℕ := if h : k < NDIRECT + 1 then (d.addrs ⟨k, h⟩).toNat else 0

/-- `addrs[k] = a` -/
def Dinode.setAddr (d : Dinode) (k a : ℕ) : Dinode :=
  { d with addrs := fun j => if j.val = k then UInt32.ofNat a else d.addrs j }

theorem Dinode.addr_setAddr (d : Dinode) {a : ℕ} (hk : k < NDIRECT + 1) (ha : a < 2 ^ 32) :
    (d.setAddr k a).addr k = a := by
  have ha' : a < 4294967296 := ha
  simp [Dinode.addr, Dinode.setAddr, hk, ha']

theorem Dinode.addr_setAddr_ne (d : Dinode) (a : ℕ) (h : j ≠ k) : (d.setAddr k a).addr j = d.addr j := by
  simp [Dinode.addr, Dinode.setAddr, h]

def Dinode.bytes (d : Dinode) : List UInt8 :=
  leBytes 2 d.type.toNat ++ (leBytes 2 d.major.toNat ++ (leBytes 2 d.minor.toNat ++ (leBytes 2 d.nlink.toNat ++
    (leBytes 4 d.size.toNat ++ (List.ofFn fun j => (d.addrs j).toNat).flatMap (leBytes 4)))))

/-- inode slot k of an inode block -/
def getDinode (b : Block) (k : ℕ) : Dinode where
  type := u16 b (64 * k)
  major := u16 b (64 * k + 2)
  minor := u16 b (64 * k + 4)
  nlink := u16 b (64 * k + 6)
  size := u32 b (64 * k + 8)
  addrs := fun j => u32 b (64 * k + (12 + 4 * j.val))

def setDinode (b : Block) (k : ℕ) (d : Dinode) : Block := b.write (64 * k) d.bytes

theorem Dinode.length_bytes (d : Dinode) : d.bytes.length = 64 := by
  simp [Dinode.bytes, NDIRECT]

theorem setDinode_setDinode (b : Block) (k : ℕ) (d e : Dinode) : setDinode (setDinode b k d) k e = setDinode b k e :=
  Bytes.write_write b _ (by rw [d.length_bytes, e.length_bytes])

theorem read_setDinode (b : Block) (d : Dinode) (hk : k < IPB) {len : ℕ} (h : off + len ≤ 64) :
    (setDinode b k d).read (64 * k + off) len = (d.bytes.drop off).take len := by
  have hk' : k < 16 := hk
  have hlen := d.length_bytes
  refine Bytes.read_write_sub b (64 * k) d.bytes off len (by omega) ?_
  rw [hlen]; show 64 * k + 64 ≤ 1024; omega

/-- the digits of a number in front of a list, skipped and taken -/
theorem drop_leBytes (w v k : ℕ) (l : List UInt8) : (leBytes w v ++ l).drop (w + k) = l.drop k := by
  rw [← List.drop_drop, List.drop_left' (length_leBytes w v)]

theorem take_leBytes (w v : ℕ) (l : List UInt8) : (leBytes w v ++ l).take w = leBytes w v :=
  List.take_left' (length_leBytes w v)

theorem getDinode_setDinode (b : Block) (d : Dinode) (hk : k < IPB) : getDinode (setDinode b k d) k = d := by
  have hread : ∀ {off len : ℕ}, off + len ≤ 64 →
      (setDinode b k d).read (64 * k + off) len = (d.bytes.drop off).take len := read_setDinode b d hk
  have htype : (setDinode b k d).read (64 * k + 0) 2 = leBytes 2 d.type.toNat := by
    rw [hread (by omega), Dinode.bytes, List.drop_zero, take_leBytes]
  have hmajor : (setDinode b k d).read (64 * k + (2 + 0)) 2 = leBytes 2 d.major.toNat := by
    rw [hread (by omega), Dinode.bytes, drop_leBytes, List.drop_zero, take_leBytes]
  have hminor : (setDinode b k d).read (64 * k + (2 + (2 + 0))) 2 = leBytes 2 d.minor.toNat := by
    rw [hread (by omega), Dinode.bytes, drop_leBytes, drop_leBytes, List.drop_zero, take_leBytes]
  have hnlink : (setDinode b k d).read (64 * k + (2 + (2 + (2 + 0)))) 2 = leBytes 2 d.nlink.toNat := by
    rw [hread (by omega), Dinode.bytes, drop_leBytes, drop_leBytes, drop_leBytes, List.drop_zero, take_leBytes]
  have hsize : (setDinode b k d).read (64 * k + (2 + (2 + (2 + (2 + 0))))) 4 = leBytes 4 d.size.toNat := by
    rw [hread (by omega), Dinode.bytes, drop_leBytes, drop_leBytes, drop_leBytes, drop_leBytes, List.drop_zero,
      take_leBytes]
  have haddr : ∀ j : Fin (NDIRECT + 1), (setDinode b k d).read (64 * k + (12 + 4 * j.val)) 4 =
      leBytes 4 (d.addrs j).toNat := by
    intro j
    have hj : j.val < 13 := j.isLt
    have hw := take_drop_words (List.ofFn fun j => (d.addrs j).toNat) j.val (by simpa using j.isLt)
    rw [List.getElem_ofFn] at hw
    rw [hread (by omega), ← hw, Dinode.bytes, show 12 + 4 * j.val = 2 + (2 + (2 + (2 + (4 + 4 * j.val)))) by omega,
      drop_leBytes, drop_leBytes, drop_leBytes, drop_leBytes, drop_leBytes]
  unfold getDinode
  rw [Nat.add_zero] at htype
  rw [u16_of_read htype, u16_of_read hmajor, u16_of_read hminor, u16_of_read hnlink, u32_of_read hsize]
  congr 1
  funext j
  exact u32_of_read (haddr j)

theorem getDinode_setDinode_ne (b : Block) (d : Dinode) (h : j ≠ k) :
    getDinode (setDinode b k d) j = getDinode b j := by
  have hlen := d.length_bytes
  have hread : ∀ off len, off + len ≤ 64 → (setDinode b k d).read (64 * j + off) len = b.read (64 * j + off) len := by
    intro off len ho
    refine Bytes.read_write_disjoint b _ _ _ _ ?_
    rw [hlen]
    rcases Nat.lt_or_gt_of_ne h with hlt | hgt
    · left; omega
    · right; omega
  have h0 := hread 0 2 (by omega)
  rw [Nat.add_zero] at h0
  unfold getDinode u16 u32
  rw [h0, hread 2 2 (by omega), hread 4 2 (by omega), hread 6 2 (by omega), hread 8 4 (by omega)]
  congr 1
  funext j'
  have : j'.val < 13 := j'.isLt
  rw [hread _ 4 (by omega)]

/-! ## Free map -/

/-- `bp->data[bi/8] & (1 << (bi % 8))` -/
def bit (b : Block) (bi : ℕ) : Bool := (b.get (bi / 8)).toBitVec.getLsbD (bi % 8)

/-- `bp->data[bi/8] |= 1 << (bi % 8)` -/
def setBit (b : Block) (bi : ℕ) : Block :=
  b.write (bi / 8) [b.get (bi / 8) ||| (1 <<< UInt8.ofNat (bi % 8))]

/-- `bp->data[bi/8] &= ~(1 << (bi % 8))` -/
def clearBit (b : Block) (bi : ℕ) : Block :=
  b.write (bi / 8) [b.get (bi / 8) &&& ~~~(1 <<< UInt8.ofNat (bi % 8))]

theorem toBitVec_one_shift (hk : k < 8) : (1 <<< UInt8.ofNat k : UInt8).toBitVec = 1#8 <<< k := by
  have : ∀ k : Fin 8, (1 <<< UInt8.ofNat k.val : UInt8).toBitVec = 1#8 <<< k.val := by decide
  exact this ⟨k, hk⟩

theorem get_write_one (b : Block) {o : ℕ} (v : UInt8) (i : ℕ) (ho : o < BSIZE) :
    (b.write o [v]).get i = if i = o then v else b.get i := by
  split_ifs with h
  · have := Bytes.get_write_in b o [v] 0 (by simp) (by simp; omega)
    rw [h]; simpa using this
  · refine Bytes.get_write_out b o [v] i ?_
    simp only [List.length_singleton]; omega

theorem getLsbD_one_shift (hj : j < 8) (hk : k < 8) : (1#8 <<< k).getLsbD j = decide (j = k) := by
  have : ∀ j k : Fin 8, (1#8 <<< k.val).getLsbD j.val = decide (j.val = k.val) := by decide
  exact this ⟨j, hj⟩ ⟨k, hk⟩

/-- the byte v is stored, which has x at bit bi and is as before at the others -/
theorem bit_write (b : Block) {v : UInt8} {x : Bool} (bj : ℕ) (h : bi < BPB) (hv : ∀ j, j < 8 →
    v.toBitVec.getLsbD j = if j = bi % 8 then x else (b.get (bi / 8)).toBitVec.getLsbD j) :
    bit (b.write (bi / 8) [v]) bj = if bj = bi then x else bit b bj := by
  have hb : bi < 8192 := h
  unfold bit
  rw [get_write_one b _ _ (show bi / 8 < 1024 by omega)]
  by_cases hbyte : bj / 8 = bi / 8
  · rw [if_pos hbyte, hv _ (by omega), hbyte]
    exact if_congr (by omega) rfl rfl
  · rw [if_neg hbyte, if_neg (by rintro rfl; exact hbyte rfl)]

theorem bit_setBit (b : Block) (bj : ℕ) (h : bi < BPB) : bit (setBit b bi) bj = if bj = bi then true else
    bit b bj := by
  refine bit_write b bj h fun j hj => ?_
  have hlt : bi % 8 < 8 := by omega
  rw [UInt8.toBitVec_or, toBitVec_one_shift hlt, BitVec.getLsbD_or, getLsbD_one_shift hj hlt]
  split_ifs with he <;> simp [he]

theorem bit_clearBit (b : Block) (bj : ℕ) (h : bi < BPB) :
    bit (clearBit b bi) bj = if bj = bi then false else bit b bj := by
  refine bit_write b bj h fun j hj => ?_
  have hlt : bi % 8 < 8 := by omega
  rw [UInt8.toBitVec_and, UInt8.toBitVec_not, toBitVec_one_shift hlt, BitVec.getLsbD_and, BitVec.getLsbD_not,
    getLsbD_one_shift hj hlt]
  split_ifs with he <;> simp [he, hj]

/-- clearing a bit that has been set -/
theorem clearBit_setBit (b : Block) (h : bi < BPB) (hclear : bit b bi = false) : clearBit (setBit b bi) bi = b := by
  have hb : bi < 8192 := h
  have hlt : bi % 8 < 8 := by omega
  refine Bytes.ext_get fun i => ?_
  unfold clearBit setBit
  rw [get_write_one _ _ _ (show bi / 8 < 1024 by omega), get_write_one _ _ _ (show bi / 8 < 1024 by omega), if_pos rfl,
    get_write_one _ _ _ (show bi / 8 < 1024 by omega)]
  split_ifs with hi
  · rw [hi]
    refine UInt8.toBitVec_inj.1 (BitVec.eq_of_getLsbD_eq fun j hj => ?_)
    rw [UInt8.toBitVec_and, UInt8.toBitVec_or, UInt8.toBitVec_not, toBitVec_one_shift hlt, BitVec.getLsbD_and,
      BitVec.getLsbD_or, BitVec.getLsbD_not, getLsbD_one_shift hj hlt]
    by_cases hj' : j = bi % 8
    · have hclear : (b.get (bi / 8)).toBitVec.getLsbD (bi % 8) = false := hclear
      simp [hj', hclear]
    · simp [hj', hj]
  · rfl

/-! ## Indirect blocks -/

/-- `a[j] = v` -/
def setWord (b : Block) (j v : ℕ) : Block := b.write (4 * j) (leBytes 4 v)

theorem word_setWord (b : Block) {v : ℕ} (i : ℕ) (hj : j < NINDIRECT) (hv : v < 2 ^ 32) :
    word (setWord b j v) i = if i = j then v else word b i := by
  have hj' : j < 256 := hj
  have hlen := length_leBytes 4 v
  unfold word setWord
  split_ifs with h
  · have := Bytes.read_write_same b (4 * j) (leBytes 4 v) (by rw [hlen]; show 4 * j + 4 ≤ 1024; omega)
    rw [hlen] at this
    rw [h, this, leVal_leBytes_lt hv]
  · rw [Bytes.read_write_disjoint]
    rw [hlen]; omega

/-- a block of zeros -/
def zeroBlock : Block := fun _ => 0

theorem leVal_replicate (n : ℕ) : leVal (List.replicate n 0) = 0 := by
  induction n with
  | zero => rfl
  | succ n ih => simp [List.replicate_succ, leVal, ih]

theorem get_zeroBlock (i : ℕ) : zeroBlock.get i = 0 := by simp [Bytes.get, zeroBlock]

theorem word_zeroBlock (i : ℕ) : word zeroBlock i = 0 := by
  have : zeroBlock.read (4 * i) 4 = List.replicate 4 0 := by
    simp [Bytes.read, get_zeroBlock]
  rw [word, this, leVal_replicate]

/-! ## Names and directory entries -/

/-- `strncmp(p, q, n) == 0`; past the end of a list is the terminating NUL -/
def strncmp : ℕ → List UInt8 → List UInt8 → Bool
  | 0, _, _ => true
  | n + 1, p, q =>
    let a := p.headD 0
    if a ≠ 0 ∧ a = q.headD 0 then strncmp n p.tail q.tail else a == q.headD 0

/-- `strncpy(s, t, n)`: the bytes it stores -/
def strncpy : ℕ → List UInt8 → List UInt8
  | 0, _ => []
  | n + 1, t => if t.headD 0 = 0 then List.replicate (n + 1) 0 else t.headD 0 :: strncpy n t.tail

/-- the C string in the first n bytes of a buffer -/
def cstr (n : ℕ) (l : List UInt8) : List UInt8 := (l.take n).takeWhile fun c => c ≠ 0

/-- `namecmp(s, t) == 0` -/
def namecmp (s t : List UInt8) : Bool := strncmp DIRSIZ s t

theorem cstr_nil (n : ℕ) : cstr n [] = [] := by simp [cstr]

theorem cstr_cons (n : ℕ) (c : UInt8) (l : List UInt8) :
    cstr (n + 1) (c :: l) = if c = 0 then [] else c :: cstr n l := by
  split_ifs with h <;> simp [cstr, h]

theorem strncmp_iff (n : ℕ) (p q : List UInt8) : strncmp n p q = true ↔ cstr n p = cstr n q := by
  induction n generalizing p q with
  | zero => simp [strncmp, cstr]
  | succ n ih =>
    rcases p with - | ⟨a, p⟩ <;> rcases q with - | ⟨c, q⟩ <;>
      simp only [strncmp, cstr_nil, cstr_cons, List.headD_nil, List.headD_cons, List.tail_cons]
    · simp
    · by_cases hc : c = 0
      · simp [hc]
      · simp [hc, Ne.symm hc]
    · by_cases ha : a = 0 <;> simp [ha]
    · by_cases ha : a = 0
      · by_cases hc : c = 0
        · simp [ha, hc]
        · simp [ha, hc, Ne.symm hc]
      · by_cases hac : a = c
        · subst hac; simp [ha, ih]
        · by_cases hc : c = 0 <;> simp [ha, hac, hc]

theorem length_strncpy (n : ℕ) (t : List UInt8) : (strncpy n t).length = n := by
  induction n generalizing t with
  | zero => rfl
  | succ n ih =>
    unfold strncpy
    split_ifs
    · simp
    · simp [ih]

theorem cstr_strncpy (n : ℕ) (t : List UInt8) : cstr n (strncpy n t) = cstr n t := by
  induction n generalizing t with
  | zero => simp [cstr]
  | succ n ih =>
    rcases t with - | ⟨c, t⟩ <;>
      simp only [strncpy, List.headD_nil, List.headD_cons, List.tail_cons, if_true, List.replicate_succ, cstr_nil,
        cstr_cons]
    by_cases hc : c = 0
    · simp only [hc, if_true, cstr_cons]
    · simp only [hc, if_false, cstr_cons, ih]

/-- `struct dirent` -/
structure Dirent where
  inum : ℕ
  name : List UInt8
deriving DecidableEq, Repr

/-- `sizeof(struct dirent)` -/
def DESIZE : ℕ := 16

def Dirent.bytes (e : Dirent) : List UInt8 := leBytes 2 e.inum ++ e.name

def Dirent.decode (l : List UInt8) : Dirent := ⟨leVal (l.take 2), l.drop 2⟩

theorem Dirent.decode_bytes (e : Dirent) (h : e.inum < 2 ^ 16) : Dirent.decode e.bytes = e := by
  unfold Dirent.decode Dirent.bytes
  rw [take_leBytes, leVal_leBytes_lt (by simpa using h), List.drop_left' (length_leBytes 2 e.inum)]

theorem Dirent.length_bytes (e : Dirent) (h : e.name.length = DIRSIZ) : e.bytes.length = DESIZE := by
  simp [Dirent.bytes, h, DIRSIZ, DESIZE]

-- the lemmas above say what is needed about these; unfolding them byte by byte is never what a proof wants
attribute [irreducible] setWord bit setBit clearBit getDinode setDinode Dirent.bytes Dirent.decode

end Xv6.Fs
