/-
The block allocator (kernel/fs.c, `balloc`, `bfree`): what each does to the blocks of the disk.

- `balloc_first`: `balloc` takes the first free block (`Takes`), or there is none (`Full`) and it only reads (`Reads`).
  `balloc_spec`: so it returns 0 and changes nothing, or a data block whose bit was clear: its bit is now set and it is
  zeroed.
- `bfree_spec`: the bit of the block is cleared; it panics only if the bit was clear.
- `balloc_exact`: the two together, on any free map in which its own blocks are not free. `balloc_own_map`: on others
  `balloc` may zero a block of the map.
-/
import Xv6.Fs.Blocks
import Xv6.Fs.Model

namespace Xv6.Fs

open Xv6.Core

variable {sb : Superblock} {s t u : St} {S S' : Finset ℕ} {ip b r : ℕ} {E : Panic → Prop} {data : Block}

/-- the blocks after `balloc` has returned b -/
def allocBlk (sb : Superblock) (blk : Store Block) (b : ℕ) : Store Block :=
  (blk.set (bblock sb b) (setBit (blk (bblock sb b)) (b % BPB))).set b zeroBlock

/-- the blocks after `bfree` of b -/
def freeBlk (sb : Superblock) (blk : Store Block) (b : ℕ) : Store Block :=
  blk.set (bblock sb b) (clearBit (blk (bblock sb b)) (b % BPB))

/-- the free map has no free block -/
def Full (sb : Superblock) (blk : Store Block) : Prop := ∀ b, b < sb.size → bitAt sb blk b = true

/-- the event leaves blocks and log alone -/
def Ev.isRead : Ev → Bool
  | .bread _ | .brelse _ => true
  | .beginOp | .endOp | .store _ _ | .logWrite _ => false

/-- t is s after blocks have been read -/
def Reads (s t : St) : Prop := ∃ es : List Ev, (∀ e ∈ es, e.isRead = true) ∧ t = { s with trace := s.trace ++ es }

theorem Reads.refl (s : St) : Reads s s := ⟨[], by simp, by simp⟩

theorem Reads.trans (h : Reads s t) (h' : Reads t u) : Reads s u := by
  obtain ⟨es, he, rfl⟩ := h
  obtain ⟨es', he', rfl⟩ := h'
  refine ⟨es ++ es', fun e hm => ?_, by simp⟩
  rcases List.mem_append.1 hm with hm | hm
  · exact he e hm
  · exact he' e hm

theorem Reads.block (s : St) (b : ℕ) : Reads s { s with trace := s.trace ++ [.bread b] ++ [.brelse b] } :=
  ⟨[.bread b, .brelse b], by simp [Ev.isRead], by simp⟩

theorem Reads.to (h : Reads s t) : To s t s.blk s.inode := by
  obtain ⟨es, -, rfl⟩ := h
  exact ⟨rfl, rfl, rfl, rfl⟩

theorem To.next (h : To s t s.blk s.inode) (h' : To t u t.blk t.inode) : To s u s.blk s.inode := by
  rw [h.blk, h.inode] at h'
  exact h.trans h'

/-- t has the blocks of s, and since s only reads have been recorded -/
structure Looks (s t : St) : Prop where
  blk : t.blk = s.blk
  trace : ∃ es : List Ev, (∀ e ∈ es, e.isRead = true) ∧ t.trace = s.trace ++ es

theorem Reads.looks (h : Reads s t) : Looks s t := by
  obtain ⟨es, he, rfl⟩ := h
  exact ⟨rfl, es, he, rfl⟩

theorem Looks.trans (h : Looks s t) (h' : Looks t u) : Looks s u := by
  obtain ⟨es, he, ht⟩ := h.trace
  obtain ⟨es', he', hu⟩ := h'.trace
  refine ⟨h'.blk.trans h.blk, es ++ es', fun e hm => ?_, by rw [hu, ht, List.append_assoc]⟩
  rcases List.mem_append.1 hm with hm | hm
  · exact he e hm
  · exact he' e hm

/-- files, processes and the inode table may change -/
theorem Looks.tables (s : St) (inode : Store Inode) (file : Store File) (proc : Store Proc) :
    Looks s { s with inode := inode, file := file, proc := proc } := ⟨rfl, [], by simp, by simp⟩

/-! ## What is logged -/

/-- only blocks in S have been logged -/
def Logs (S : Finset ℕ) (s t : St) : Prop :=
  ∃ es : List Ev, t.trace = s.trace ++ es ∧ ∀ b, Ev.logWrite b ∈ es → b ∈ S

theorem Logs.refl (S : Finset ℕ) (s : St) : Logs S s s := ⟨[], by simp, by simp⟩

theorem Logs.mono (h : Logs S s t) (hS : S ⊆ S') : Logs S' s t := by
  obtain ⟨es, ht, he⟩ := h
  exact ⟨es, ht, fun b hb => hS (he b hb)⟩

theorem Logs.trans (h : Logs S s t) (h' : Logs S t u) : Logs S s u := by
  obtain ⟨es, ht, he⟩ := h
  obtain ⟨es', hu, he'⟩ := h'
  refine ⟨es ++ es', by rw [hu, ht, List.append_assoc], fun b hb => ?_⟩
  rcases List.mem_append.1 hb with hb | hb
  · exact he b hb
  · exact he' b hb

theorem Logs.of_reads (h : Reads s t) (S : Finset ℕ) : Logs S s t := by
  obtain ⟨es, he, rfl⟩ := h
  exact ⟨es, rfl, fun b hb => absurd (he _ hb) Bool.noConfusion⟩

/-- and the entries of the inode table are for the same inodes -/
structure Edits (S : Finset ℕ) (s t : St) : Prop where
  logs : Logs S s t
  inum : ∀ k, (t.inode k).inum = (s.inode k).inum

theorem Edits.refl (S : Finset ℕ) (s : St) : Edits S s s := ⟨Logs.refl S s, fun _ => rfl⟩

theorem Edits.mono (h : Edits S s t) (hS : S ⊆ S') : Edits S' s t := ⟨h.logs.mono hS, h.inum⟩

theorem Edits.trans (h : Edits S s t) (h' : Edits S t u) : Edits S s u :=
  ⟨h.logs.trans h'.logs, fun k => (h'.inum k).trans (h.inum k)⟩

theorem Reads.edits (h : Reads s t) (S : Finset ℕ) : Edits S s t := ⟨Logs.of_reads h S, fun k => by rw [h.to.inode]⟩

/-- a block is read, modified, logged and released -/
theorem Edits.block (s : St) (b : ℕ) (d : Block) : Edits {b} s
    { s with blk := s.blk.set b d, trace := s.trace ++ [.bread b] ++ [.store b d] ++ [.logWrite b] ++ [.brelse b] } :=
  ⟨⟨[.bread b, .store b d, .logWrite b, .brelse b], by simp, by simp⟩, fun _ => rfl⟩

theorem Edits.setInode (S : Finset ℕ) (s : St) {x : Inode} (hx : x.inum = (s.inode ip).inum) :
    Edits S s { s with inode := s.inode.set ip x } := by
  refine ⟨⟨[], by simp, by simp⟩, fun k => ?_⟩
  by_cases hk : k = ip
  · subst hk
    show (s.inode.set k x k).inum = _
    rw [Store.set_self, hx]
  · show (s.inode.set ip x k).inum = _
    rw [Store.set_ne _ _ hk]

/-- the blocks of the free map -/
def mapBlocks (sb : Superblock) : Finset ℕ := (Finset.range sb.size).image (bblock sb)

theorem bblock_one (hone : sb.size ≤ BPB) (hb : b < sb.size) : bblock sb b = sb.bmapstart := by
  rw [bblock, Nat.div_eq_of_lt (by omega), Nat.zero_add]

theorem mapBlocks_one (hone : sb.size ≤ BPB) (i : ℕ) : mapBlocks sb ∪ {iblock sb i} ⊆ {sb.bmapstart, iblock sb i} := by
  intro x hx
  rcases Finset.mem_union.1 hx with hx | hx
  · obtain ⟨b, hb, rfl⟩ := Finset.mem_image.1 hx
    rw [bblock_one hone (Finset.mem_range.1 hb)]
    exact Finset.mem_insert_self _ _
  · exact Finset.mem_insert_of_mem hx

/-! ## The loops of `balloc` -/

theorem firstFree_some {n bi : ℕ} (h : firstFree sb data b n bi = some r) :
    bi ≤ r ∧ r < bi + n ∧ b + r < sb.size ∧ bit data r = false ∧ ∀ k, bi ≤ k → k < r → bit data k = true := by
  induction n generalizing bi with
  | zero => simp [firstFree] at h
  | succ n ih =>
    unfold firstFree at h
    split_ifs at h with hlt hbit
    · cases h; exact ⟨le_rfl, by omega, hlt, hbit, fun k h1 h2 => by omega⟩
    · obtain ⟨h1, h2, h3, h4, h5⟩ := ih h
      refine ⟨by omega, by omega, h3, h4, fun k hk hkr => ?_⟩
      rcases Nat.eq_or_lt_of_le hk with rfl | hk
      · simpa using hbit
      · exact h5 k hk hkr

theorem firstFree_none {n bi : ℕ} (h : firstFree sb data b n bi = none) (h1 : bi ≤ r)
    (h2 : r < bi + n) (hr : b + r < sb.size) : bit data r = true := by
  induction n generalizing bi with
  | zero => omega
  | succ n ih =>
    unfold firstFree at h
    split_ifs at h with hlt hbit
    · rcases Nat.eq_or_lt_of_le h1 with rfl | h1
      · simpa using hbit
      · exact ih h h1 (by omega)
    · omega

/-- for b at the start of a block of the free map, bit r of that block is the bit of block b + r -/
theorem bitAt_add (sb : Superblock) (hb : b % BPB = 0) (hr : r < BPB) (blk : Store Block) :
    bblock sb (b + r) = bblock sb b ∧ (b + r) % BPB = r ∧ bitAt sb blk (b + r) = bit (blk (bblock sb b)) r := by
  have hblk : bblock sb (b + r) = bblock sb b := by
    unfold bblock BPB BSIZE at *
    omega
  have hmod : (b + r) % BPB = r := by
    unfold BPB BSIZE at *
    omega
  exact ⟨hblk, hmod, by rw [bitAt, hblk, hmod]⟩

/-- block a, the first free one, has been marked and zeroed -/
structure Takes (sb : Superblock) (s : St) (a : ℕ) (t : St) : Prop where
  lt : a < sb.size
  free : bitAt sb s.blk a = false
  first : ∀ c, c < a → bitAt sb s.blk c = true
  done : To s t (allocBlk sb s.blk a) s.inode
  trace : ∃ es d, (∀ e ∈ es, e.isRead = true) ∧ t.trace = s.trace ++ es ++ [.store (bblock sb a) d,
    .logWrite (bblock sb a), .brelse (bblock sb a), .bread a, .store a zeroBlock, .logWrite a, .brelse a]

/-- **The first free block.** The loop from block b on, where none before b is free and n rounds are enough. -/
theorem ballocLoop_first (n b : ℕ) (hb : b % BPB = 0) (hbefore : ∀ c, c < b → c < sb.size → bitAt sb s.blk c = true)
    (hn : sb.size ≤ b + n * BPB) : Spec (ballocLoop sb n b) s
      (fun a t => (a = 0 ∧ Full sb s.blk ∧ Reads s t) ∨ Takes sb s a t) E := by
  induction n generalizing b s with
  | zero => exact Spec.pure (Or.inl ⟨rfl, fun c hc => hbefore c (by omega) hc, Reads.refl s⟩)
  | succ n ih =>
    unfold ballocLoop
    split_ifs with hlt
    · refine Spec.bind_ok rfl ?_
      cases hf : firstFree sb (s.blk (bblock sb b)) b BPB 0 with
      | some bi =>
        obtain ⟨-, hbi, hsz, hbit, hbits⟩ := firstFree_some hf
        obtain ⟨hblk, hmod, hat⟩ := bitAt_add sb hb (by omega : bi < BPB) s.blk
        refine Spec.of_ok rfl (Or.inr ⟨hsz, hat.trans hbit, fun c hc => ?_, ⟨?_, rfl, rfl, rfl⟩, ?_⟩)
        · by_cases hcb : c < b
          · exact hbefore c hcb (by omega)
          · obtain ⟨r, rfl⟩ := Nat.exists_eq_add_of_le (Nat.le_of_not_lt hcb)
            rw [(bitAt_add sb hb (by omega) s.blk).2.2]
            exact hbits r (Nat.zero_le r) (by omega)
        · rw [allocBlk, hblk, hmod]
        · exact ⟨[.bread (bblock sb b)], _, by simp [Ev.isRead], by rw [hblk]; simp; rfl⟩
      | none =>
        refine Spec.bind_ok rfl (Spec.post (ih (b + BPB) (by rw [Nat.add_mod_right]; exact hb) (fun c hc hcs => ?_)
          (by rw [Nat.succ_mul] at hn; omega)) ?_)
        · by_cases hcb : c < b
          · exact hbefore c hcb hcs
          · obtain ⟨r, rfl⟩ := Nat.exists_eq_add_of_le (Nat.le_of_not_lt hcb)
            exact (bitAt_add sb hb (by omega) s.blk).2.2.trans (firstFree_none hf (Nat.zero_le r) (by omega) hcs)
        · have hread := Reads.block s (bblock sb b)
          rintro a t (⟨h0, hfull, ht⟩ | ⟨h1, h2, h3, ht, es, d, he, htr⟩)
          · exact Or.inl ⟨h0, hfull, hread.trans ht⟩
          · refine Or.inr ⟨h1, h2, h3, hread.to.trans ht, .bread (bblock sb b) :: .brelse (bblock sb b) :: es, d, ?_,
              by simp [htr]⟩
            simpa [Ev.isRead] using he
    · exact Spec.pure (Or.inl ⟨rfl, fun c hc => hbefore c (by omega) hc, Reads.refl s⟩)

theorem balloc_first : Spec (balloc sb) s (fun a t => (a = 0 ∧ Full sb s.blk ∧ Reads s t) ∨ Takes sb s a t) E := by
  refine ballocLoop_first _ 0 rfl (fun c hc => absurd hc (Nat.not_lt_zero c)) ?_
  have := Nat.lt_div_mul_add (a := sb.size) (b := BPB) (by decide)
  rw [Nat.succ_mul]
  omega

/-- what `balloc` can return -/
def BallocPost (sb : Superblock) (s : St) (a : ℕ) (t : St) : Prop :=
  (a = 0 ∧ To s t s.blk s.inode) ∨
    (IsData sb a ∧ bitAt sb s.blk a = false ∧ To s t (allocBlk sb s.blk a) s.inode)

theorem balloc_spec (hmeta : ∀ b, b < dataStart sb → bitAt sb s.blk b = true) :
    Spec (balloc sb) s (BallocPost sb s) E := by
  refine Spec.post balloc_first ?_
  rintro a t (⟨h0, -, ht⟩ | ht)
  · exact Or.inl ⟨h0, ht.to⟩
  · refine Or.inr ⟨⟨?_, ht.lt⟩, ht.free, ht.done⟩
    by_contra hlt
    exact absurd (hmeta a (by omega)) (by rw [ht.free]; exact Bool.noConfusion)

theorem balloc_full (hmeta : ∀ b, b < dataStart sb → bitAt sb s.blk b = true) :
    Spec (balloc sb) s (fun a t => a = 0 → Full sb t.blk) E := by
  refine Spec.post balloc_first ?_
  rintro a t (⟨-, hfull, ht⟩ | ht) h0
  · rwa [ht.to.blk]
  · -- the block found is not block 0
    have := ht.free
    rw [h0, hmeta 0 (Nat.zero_lt_of_lt (bmapstart_lt sb))] at this
    cases this

theorem bfree_spec (hE : bitAt sb s.blk b = false → E .freeingFree) :
    Spec (bfree sb b) s (fun _ t => To s t (freeBlk sb s.blk b) s.inode) E := by
  unfold bfree
  refine Spec.bind_ok rfl ?_
  split_ifs with hbit
  · exact Spec.throw (hE hbit)
  · exact Spec.of_ok rfl ⟨rfl, rfl, rfl, rfl⟩

theorem edits_bfree (hb : b < sb.size) :
    Spec (bfree sb b) s (fun _ t => Edits (mapBlocks sb) s t) fun _ => True := by
  refine Spec.bind_ok rfl (Spec.ite (fun _ => Spec.throw trivial) fun _ => Spec.of_ok rfl ((Edits.block s _ _).mono ?_))
  exact Finset.singleton_subset_iff.2 (Finset.mem_image_of_mem _ (Finset.mem_range.2 hb))

/-- **`balloc` and `bfree` are exact**, whatever the size and the free map, as long as the blocks of the map are marked
in it. With no free block `balloc` returns 0 and changes nothing. Otherwise it returns the first free block a, sets its
bit only, zeroes a only and leaves every other block alone; `bfree` of a then makes the map what it was. -/
theorem balloc_exact (sb : Superblock) (s : St)
    (hmap : ∀ c, c < sb.size → bblock sb c < sb.size → bitAt sb s.blk (bblock sb c) = true) :
    (Full sb s.blk → ∃ t, balloc sb s = .ok (0, t) ∧ To s t s.blk s.inode) ∧
    (¬ Full sb s.blk → ∃ a t u, balloc sb s = .ok (a, t) ∧
      (a < sb.size ∧ bitAt sb s.blk a = false ∧ ∀ c, c < a → bitAt sb s.blk c = true) ∧
      t.blk (bblock sb a) = setBit (s.blk (bblock sb a)) (a % BPB) ∧
      (∀ c, c < sb.size → bitAt sb t.blk c = if c = a then true else bitAt sb s.blk c) ∧
      t.blk a = zeroBlock ∧ (∀ b, b ≠ a → b ≠ bblock sb a → t.blk b = s.blk b) ∧ To s t t.blk s.inode ∧
      bfree sb a t = .ok ((), u) ∧ ∀ c, c < sb.size → u.blk (bblock sb c) = s.blk (bblock sb c)) := by
  obtain ⟨a, t, hrun, ⟨rfl, hfull, ht⟩ | ht⟩ := (balloc_first : Spec (balloc sb) s _ fun _ => False).returns
  · exact ⟨fun _ => ⟨t, hrun, ht.to⟩, fun h => absurd hfull h⟩
  refine ⟨fun h => absurd (h a ht.lt) (by rw [ht.free]; exact Bool.noConfusion), fun _ => ?_⟩
  -- a is free, so it is no block of the map
  have hne : ∀ c, c < sb.size → bblock sb c ≠ a := fun c hc e => by
    have := hmap c hc (e ▸ ht.lt)
    rw [e, ht.free] at this
    cases this
  have hbit : ∀ c, c < sb.size → bitAt sb t.blk c = if c = a then true else bitAt sb s.blk c := fun c hc => by
    rw [ht.done.blk, ← bitAt_setBit]
    exact bitAt_congr (Store.set_ne _ _ (hne c hc))
  have hset : bitAt sb t.blk a ≠ false := by
    rw [hbit a ht.lt, if_pos rfl]; exact Bool.noConfusion
  obtain ⟨⟨⟩, u, hfree, hu⟩ := (bfree_spec hset : Spec (bfree sb a) t _ fun _ => False).returns
  have hmapped : t.blk (bblock sb a) = setBit (s.blk (bblock sb a)) (a % BPB) := by
    rw [ht.done.blk, allocBlk, Store.set_ne _ _ (hne a ht.lt), Store.set_self]
  refine ⟨a, t, u, hrun, ⟨ht.lt, ht.free, ht.first⟩, hmapped, hbit, ?_, fun b hb hb' => ?_, ?_, hfree, fun c hc => ?_⟩
  · rw [ht.done.blk, allocBlk, Store.set_self]
  · rw [ht.done.blk, allocBlk, Store.set_ne _ _ hb, Store.set_ne _ _ hb']
  · exact ⟨rfl, ht.done.inode, ht.done.file, ht.done.proc⟩
  · rw [hu.blk, freeBlk, hmapped]
    by_cases h : bblock sb c = bblock sb a
    · rw [h, Store.set_self, clearBit_setBit _ (Nat.mod_lt _ (by decide)) ht.free]
    · rw [Store.set_ne _ _ h, ht.done.blk, allocBlk, Store.set_ne _ _ (hne c hc), Store.set_ne _ _ h]

/-- four blocks, the free map in block 2 -/
def four : Superblock := ⟨4, 0, 0, 0, 0, 0, 2⟩

/-- nothing is open, and the first k blocks are marked -/
def marked (k : ℕ) : St :=
  ⟨Store.set (fun _ => zeroBlock) 2 fun j => if j.val = 0 then UInt8.ofNat (2 ^ k - 1) else 0,
    fun _ => ⟨0, 0, false, false, Dinode.zero⟩, fun _ => ⟨.none, 0, false, false, 0, 0, 0⟩,
    fun _ => ⟨none, fun _ => none⟩, []⟩

theorem bitAt_marked : ∀ k, k < 4 → ∀ b, b < 4 → bitAt four (marked k).blk b = decide (b < k) := by decide +kernel

theorem balloc_exact_four : ∃ a t u, balloc four (marked 3) = .ok (a, t) ∧ a < 4 ∧ bfree four a t = .ok ((), u) := by
  obtain ⟨a, t, u, hrun, ⟨hlt, -, -⟩, -, -, -, -, -, hfree, -⟩ := (balloc_exact four (marked 3) (by decide +kernel)).2
    fun h => absurd (h 3 (by decide)) (by rw [bitAt_marked 3 (by decide) 3 (by decide)]; decide)
  exact ⟨a, t, u, hrun, hlt, hfree⟩

/-- block 2, the map itself, is not marked: it is taken and zeroed, and no block is marked any more -/
theorem balloc_own_map : ∃ t, balloc four (marked 2) = .ok (2, t) ∧ ∀ b, b < 4 → bitAt four t.blk b = false := by
  obtain ⟨a, t, hrun, ⟨-, hfull, -⟩ | ht⟩ := (balloc_first : Spec (balloc four) (marked 2) _ fun _ => False).returns
  · have := hfull 2 (by decide)
    rw [bitAt_marked 2 (by decide) 2 (by decide)] at this
    cases this
  have hlt : a < 4 := ht.lt
  have hfree := ht.free
  rw [bitAt_marked 2 (by decide) a hlt, decide_eq_false_iff_not] at hfree
  obtain rfl : a = 2 := by
    by_contra hne
    have := ht.first 2 (by omega)
    rw [bitAt_marked 2 (by decide) 2 (by decide)] at this
    cases this
  refine ⟨t, hrun, ?_⟩
  rw [ht.done.blk]
  decide +kernel

end Xv6.Fs
