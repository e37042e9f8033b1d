/-
Discarding the blocks of an inode (kernel/fs.c, `itrunc`).

The two loops free the blocks one at a time while the inode still has its old size, so what they keep is not `Good` but
its ownership part. `Freed` is what a number of `bfree` calls leaves: the data blocks are as they were. While the second
loop runs, the entries of the indirect block whose blocks are already free count as empty (`cut`).

- `itrunc_spec`: the inode has no blocks and size 0, every block it held is free, and no other inode is affected.
-/
import Xv6.Fs.Bmap

namespace Xv6.Fs

open Xv6.Core

variable {sb : Superblock} {blk blk' blk'' : Store Block} {v : ℕ → Dinode} {i ip : ℕ} {d d' : Dinode} {s : St}
  {E : Panic → Prop} {holds : ℕ × ℕ → ℕ}

/-- only free-map bits of data blocks have changed -/
structure Freed (sb : Superblock) (blk blk' : Store Block) : Prop where
  data : ∀ b, IsData sb b → blk' b = blk b
  reserved : ∀ b, b < dataStart sb → bitAt sb blk' b = bitAt sb blk b
  dino : ∀ j, j < sb.ninodes → dino sb blk' j = dino sb blk j

theorem Freed.refl (sb : Superblock) (blk : Store Block) : Freed sb blk blk :=
  ⟨fun _ _ => rfl, fun _ _ => rfl, fun _ _ => rfl⟩

theorem Freed.trans (h : Freed sb blk blk') (h' : Freed sb blk' blk'') : Freed sb blk blk'' :=
  ⟨fun b hb => (h'.data b hb).trans (h.data b hb), fun b hb => (h'.reserved b hb).trans (h.reserved b hb),
    fun j hj => (h'.dino j hj).trans (h.dino j hj)⟩

theorem freed_freeBlk (hl : Layout sb) {b : ℕ} (hb : IsData sb b) : Freed sb blk (freeBlk sb blk b) := by
  refine ⟨fun c hc => freeBlk_data hb hc, fun c hc => ?_, fun j hj => dino_freeBlk hl b hj⟩
  rw [freeBlk, bitAt_clearBit, if_neg]
  have := hb.1
  omega

theorem bfree_owned {holds' : ℕ × ℕ → ℕ} (h : Owned (IsData sb) (bitAt sb s.blk) holds) (hl : Layout sb)
    {x : ℕ × ℕ} (h0 : holds x ≠ 0) (hself : holds' x = 0) (hne : ∀ y, y ≠ x → holds' y = holds y) :
    Spec (bfree sb (holds x)) s (fun _ t => ∃ blk', To s t blk' s.inode ∧ Freed sb s.blk blk' ∧
      Owned (IsData sb) (bitAt sb blk') holds' ∧ Edits (mapBlocks sb) s t) E := by
  have hd := h.alloc_cell x h0
  refine Spec.post ((bfree_spec fun hbit => ?_).and (edits_bfree hd.2)) fun _ t ht =>
    ⟨_, ht.1, freed_freeBlk hl hd, ?_, ht.2⟩
  · rw [h.allocated h0] at hbit; cases hbit
  · exact h.free h0 (fun c _ => bitAt_clearBit sb s.blk _ c) hself hne

/-- the slots, with the first j entries of the indirect block of inode i counted as empty -/
def cut (i j : ℕ) (holds : ℕ × ℕ → ℕ) (x : ℕ × ℕ) : ℕ :=
  if x.1 = i ∧ NDIRECT ≤ x.2 ∧ x.2 < NDIRECT + j then 0 else holds x

theorem itruncIndirect_spec (hl : Layout sb) {data : Block} (n j : ℕ)
    (hdata : ∀ k, j ≤ k → k < j + n → holds (i, NDIRECT + k) = word data k)
    (h : Owned (IsData sb) (bitAt sb s.blk) (cut i j holds)) :
    Spec (itruncIndirect sb data n j) s (fun _ t => ∃ blk', To s t blk' s.inode ∧ Freed sb s.blk blk' ∧
      Owned (IsData sb) (bitAt sb blk') (cut i (j + n) holds) ∧ Edits (mapBlocks sb) s t) E := by
  induction n generalizing j s with
  | zero => exact Spec.pure ⟨s.blk, To.refl s, Freed.refl _ _, h, Edits.refl _ s⟩
  | succ n ih =>
    have hword : cut i j holds (i, NDIRECT + j) = word data j := by
      rw [cut, if_neg (by omega)]; exact hdata j le_rfl (by omega)
    have hself : cut i (j + 1) holds (i, NDIRECT + j) = 0 := by rw [cut, if_pos (by omega)]
    have hne : ∀ y, y ≠ (i, NDIRECT + j) → cut i (j + 1) holds y = cut i j holds y := by
      rintro ⟨a, b⟩ hy
      have : ¬ (a = i ∧ b = NDIRECT + j) := by rintro ⟨rfl, rfl⟩; exact hy rfl
      unfold cut
      by_cases hc : a = i ∧ NDIRECT ≤ b ∧ b < NDIRECT + j
      · rw [if_pos hc, if_pos (by omega)]
      · rw [if_neg hc, if_neg (by omega)]
    have hlast : j + (n + 1) = j + 1 + n := by omega
    have hdata' : ∀ k, j + 1 ≤ k → k < j + 1 + n → holds (i, NDIRECT + k) = word data k :=
      fun k h1 h2 => hdata k (by omega) (by omega)
    unfold itruncIndirect
    rw [hlast]
    split_ifs with h0
    · rw [← hword] at h0 ⊢
      refine Spec.bind (bfree_owned h hl h0 hself hne) ?_
      rintro - t ⟨blk', ht, hf, ho, hed⟩
      rw [← ht.blk] at ho hf
      refine Spec.post (ih (j + 1) hdata' ho) ?_
      rintro - u ⟨blk'', hu, hf', ho', hed'⟩
      exact ⟨blk'', ⟨hu.blk, hu.inode.trans ht.inode, hu.file.trans ht.file, hu.proc.trans ht.proc⟩, hf.trans hf', ho',
        hed.trans hed'⟩
    · refine ih (j + 1) hdata' (h.congr (fun _ _ => rfl) fun y => ?_)
      by_cases hy : y = (i, NDIRECT + j)
      · rw [hy, hself, hword]
        exact (not_not.1 h0).symm
      · exact hne y hy

theorem slot_data_congr {bits : ℕ → Bool} (h : Owned (IsData sb) bits (slot sb blk v)) (hd : ∀ b, IsData sb b →
    blk' b = blk b)
    (x : ℕ × ℕ) : slot sb blk' v x = slot sb blk v x := by
  unfold slot
  split_ifs with hx
  · refine slotOf_congr (fun h0 => hd _ ?_) x.2
    have := h.alloc_cell (x.1, MAXFILE)
    rw [slot_of hx.1 hx.2, slotOf_max] at this
    exact this h0
  · rfl

theorem slot_clear (blk : Store Block) (v : ℕ → Dinode) (hi : i < sb.ninodes) (ht : d.type ≠ 0) {a : ℕ}
    (ha : a < NDIRECT) :
    slot sb blk (Function.update v i (d.setAddr a 0)) (i, a) = 0 ∧
      ∀ y, y ≠ (i, a) → slot sb blk (Function.update v i (d.setAddr a 0)) y = slot sb blk
        (Function.update v i d) y := by
  have ht' : (d.setAddr a 0).type ≠ 0 := ht
  constructor
  · rw [slot_self hi ht', slotOf_direct _ _ ha]
    exact Dinode.addr_setAddr _ (by omega) (by norm_num)
  · rintro ⟨j, k⟩ hy
    by_cases hj : j = i
    · subst hj
      have hk : k ≠ a := fun hk => hy (by rw [hk])
      rw [slot_self hi ht', slot_self hi ht]
      unfold slotOf
      rw [Dinode.addr_setAddr_ne _ _ hk, Dinode.addr_setAddr_ne _ _ (show NDIRECT ≠ a by omega)]
    · rw [slot_update hj, slot_update hj]

/-- empty the indirect address of inode i; the entries of the indirect block count as empty already -/
theorem slot_clear_indirect (blk : Store Block) (v : ℕ → Dinode) (hi : i < sb.ninodes) (ht : d.type ≠ 0) :
    slot sb blk (Function.update v i (d.setAddr NDIRECT 0)) (i, MAXFILE) = 0 ∧
      ∀ y, y ≠ (i, MAXFILE) → slot sb blk (Function.update v i (d.setAddr NDIRECT 0)) y =
        cut i NINDIRECT (slot sb blk (Function.update v i d)) y := by
  have ht' : (d.setAddr NDIRECT 0).type ≠ 0 := ht
  have h0 : (d.setAddr NDIRECT 0).addr NDIRECT = 0 := Dinode.addr_setAddr _ (by omega) (by norm_num)
  constructor
  · rw [slot_self hi ht', slotOf_max]; exact h0
  · rintro ⟨j, k⟩ hy
    unfold cut
    by_cases hj : j = i
    · subst hj
      have hk : k ≠ MAXFILE := fun hk => hy (by rw [hk])
      have hM : MAXFILE = NDIRECT + NINDIRECT := rfl
      rw [slot_self hi ht', slot_self hi ht]
      by_cases hk1 : k < NDIRECT
      · rw [slotOf_direct _ _ hk1, slotOf_direct _ _ hk1, Dinode.addr_setAddr_ne _ _ (by omega), if_neg (by omega)]
      · by_cases hk2 : k < MAXFILE
        · rw [if_pos ⟨rfl, by omega, by omega⟩, slotOf, if_neg hk1, if_pos hk2, if_pos h0]
        · rw [if_neg (by omega), slotOf, slotOf, if_neg hk1, if_neg hk2, if_neg hk, if_neg hk1, if_neg hk2, if_neg hk]
    · rw [slot_update hj, slot_update hj, if_neg (by simp [hj])]

/-- inode i has given back blocks -/
structure Shed (sb : Superblock) (v : ℕ → Dinode) (i : ℕ) (blk : Store Block) (d : Dinode) (blk' : Store Block)
    (d' : Dinode) : Prop where
  freed : Freed sb blk blk'
  own : Owned (IsData sb) (bitAt sb blk') (slot sb blk' (Function.update v i d'))
  same : ∃ x, d' = { d with addrs := x }

theorem Shed.type (h : Shed sb v i blk d blk' d') : d'.type = d.type := by obtain ⟨x, rfl⟩ := h.same; rfl

theorem Shed.trans {d'' : Dinode} (h : Shed sb v i blk d blk' d') (h' : Shed sb v i blk' d' blk'' d'') :
    Shed sb v i blk d blk'' d'' := by
  obtain ⟨x, rfl⟩ := h.same
  obtain ⟨y, rfl⟩ := h'.same
  exact ⟨h.freed.trans h'.freed, h'.own, y, rfl⟩

section

variable (hl : Layout sb) (hi : i < sb.ninodes) (ht : (s.inode ip).din.type ≠ 0) (h : Owned (IsData sb) (bitAt sb s.blk)
  (slot sb s.blk (Function.update v i (s.inode ip).din)))
include hl hi ht h

theorem freeAddr_spec {a : ℕ} (ha : a < NDIRECT) :
    Spec (freeAddr sb ip a) s (fun _ t => ∃ blk' d', Upd s t ip blk' d' ∧ Shed sb v i s.blk (s.inode ip).din blk' d' ∧
      (∀ k, d'.addr k = if k = a then 0 else (s.inode ip).din.addr k) ∧ Edits (mapBlocks sb) s t) E := by
  unfold freeAddr
  refine Spec.bind_ok rfl ?_
  split_ifs with h0
  · have hself : slot sb s.blk (Function.update v i (s.inode ip).din) (i, a) = _ := slot_self hi ht a
    rw [slotOf_direct _ _ ha] at hself
    obtain ⟨hclear, hne⟩ := slot_clear s.blk v hi ht ha
    rw [← hself] at h0 ⊢
    refine Spec.bind (bfree_owned h hl h0 hclear hne) ?_
    rintro - t ⟨blk', ht', hf, ho, hed⟩
    refine Spec.of_ok rfl ⟨blk', (s.inode ip).din.setAddr a 0, ⟨ht'.blk, ?_, ht'.file, ht'.proc⟩, ⟨hf, ?_, _, rfl⟩, ?_,
      hed.trans (Edits.setInode _ t rfl)⟩
    · show t.inode.set ip { t.inode ip with din := (t.inode ip).din.setAddr a 0 } = _
      rw [ht'.inode]
    · exact ho.congr (fun _ _ => rfl) (slot_data_congr ho hf.data)
    · intro k
      split_ifs with hk
      · rw [hk]; exact Dinode.addr_setAddr _ (by omega) (by norm_num)
      · exact Dinode.addr_setAddr_ne _ _ hk
  · refine Spec.pure ⟨s.blk, (s.inode ip).din, Upd.of_to (To.refl s) ip, ⟨Freed.refl _ _, h, _, rfl⟩, fun k => ?_,
      Edits.refl _ s⟩
    split_ifs with hk
    · rw [hk]; exact not_not.1 h0
    · rfl

theorem itruncDirect_spec (n a : ℕ) (ha : a + n ≤ NDIRECT) :
    Spec (itruncDirect sb ip n a) s (fun _ t => ∃ blk' d', Upd s t ip blk' d' ∧
      Shed sb v i s.blk (s.inode ip).din blk' d' ∧
      (∀ k, d'.addr k = if a ≤ k ∧ k < a + n then 0 else (s.inode ip).din.addr k) ∧ Edits (mapBlocks sb) s t) E := by
  induction n generalizing a s with
  | zero =>
    refine Spec.pure ⟨s.blk, (s.inode ip).din, Upd.of_to (To.refl s) ip, ⟨Freed.refl _ _, h, _, rfl⟩, fun k => ?_,
      Edits.refl _ s⟩
    rw [if_neg (by omega)]
  | succ n ih =>
    unfold itruncDirect
    refine Spec.bind (freeAddr_spec hl hi ht h (by omega)) ?_
    rintro - t ⟨blk', d', ht', hs, hd, hed⟩
    have hdin : (t.inode ip).din = d' := by rw [ht'.entry]
    have hown := hs.own
    rw [← ht'.blk, ← hdin] at hown
    refine Spec.post (ih (by rw [hdin, hs.type]; exact ht) hown (a + 1) (by omega)) ?_
    rintro - u ⟨blk'', d'', hu, hs', hd', hed'⟩
    rw [ht'.blk, hdin] at hs'
    refine ⟨blk'', d'', ht'.trans hu, hs.trans hs', fun k => ?_, hed.trans hed'⟩
    rw [hd', hdin, hd]
    split_ifs <;> first | rfl | omega

theorem freeIndirect_spec :
    Spec (freeIndirect sb ip) s (fun _ t => ∃ blk' d', Upd s t ip blk' d' ∧ Shed sb v i s.blk (s.inode ip).din blk' d' ∧
      (∀ k, d'.addr k = if k = NDIRECT then 0 else (s.inode ip).din.addr k) ∧ Edits (mapBlocks sb) s t) E := by
  unfold freeIndirect
  refine Spec.bind_ok rfl ?_
  set d := (s.inode ip).din with hd
  split_ifs with h0
  · refine Spec.bind_ok rfl ?_
    have hentry : ∀ k, 0 ≤ k → k < 0 + NINDIRECT →
        slot sb s.blk (Function.update v i d) (i, NDIRECT + k) = word (s.blk (d.addr NDIRECT)) k := by
      intro k _ hk
      rw [slot_self hi ht, slotOf_indirect _ _ (by omega) (by unfold MAXFILE; omega) h0, Nat.add_sub_cancel_left]
    have hcut : Owned (IsData sb) (bitAt sb s.blk) (cut i 0 (slot sb s.blk (Function.update v i d))) :=
      h.congr (fun _ _ => rfl) fun x => by rw [cut, if_neg (by omega)]
    refine Spec.bind (itruncIndirect_spec hl NINDIRECT 0 hentry hcut) ?_
    rintro - t ⟨blk', ht', hf, ho, hed⟩
    refine Spec.bind_ok rfl ?_
    have hread : ∀ e : Ev, e.isRead = true → ∀ t : St, Edits (mapBlocks sb) t { t with trace := t.trace ++ [e] } :=
      fun e he t => Reads.edits ⟨[e], by simp [he], rfl⟩ _
    rw [Nat.zero_add] at ho
    obtain ⟨hclear, hne⟩ := slot_clear_indirect s.blk v hi ht
    have hmax : cut i NINDIRECT (slot sb s.blk (Function.update v i d)) (i, MAXFILE) = d.addr NDIRECT := by
      rw [cut, if_neg (by unfold MAXFILE; omega), slot_self hi ht, slotOf_max]
    rw [← hmax] at h0 ⊢
    rw [← ht'.blk] at ho hf
    refine Spec.bind (bfree_owned ?_ hl h0 hclear hne) ?_
    · exact ho
    rintro - u ⟨blk'', hu, hf', ho', hed'⟩
    have hfreed := hf.trans hf'
    have hall := ((hread (.bread _) rfl s).trans hed).trans ((hread (.brelse _) rfl t).trans hed')
    have hinode : u.inode = s.inode := hu.inode.trans ht'.inode
    refine Spec.of_ok rfl ⟨blk'', d.setAddr NDIRECT 0, ⟨hu.blk, ?_, hu.file.trans ht'.file, hu.proc.trans ht'.proc⟩,
      ⟨hfreed, ho'.congr (fun _ _ => rfl) (slot_data_congr ho' hfreed.data), _, rfl⟩, fun k => ?_,
      hall.trans (Edits.setInode _ u rfl)⟩
    · show u.inode.set ip { u.inode ip with din := (u.inode ip).din.setAddr NDIRECT 0 } = _
      rw [hinode]
    · split_ifs with hk
      · rw [hk]; exact Dinode.addr_setAddr _ (by omega) (by norm_num)
      · exact Dinode.addr_setAddr_ne _ _ hk
  · refine Spec.pure ⟨s.blk, d, Upd.of_to (To.refl s) ip, ⟨Freed.refl _ _, h, _, rfl⟩, fun k => ?_, Edits.refl _ s⟩
    split_ifs with hk
    · rw [hk]; exact not_not.1 h0
    · rfl

end

theorem iupdate_spec : Spec (iupdate sb ip) s
    (fun _ t => To s t (setDino sb s.blk (s.inode ip).inum (s.inode ip).din) s.inode) E :=
  Spec.of_ok rfl ⟨rfl, rfl, rfl, rfl⟩

theorem edits_iupdate : Spec (iupdate sb ip) s (fun _ t => Edits {iblock sb (s.inode ip).inum} s t) fun _ => True :=
  Spec.of_ok rfl (Edits.block s _ _)

theorem Upd.iupdate {t u : St} (h : Upd s t ip blk d)
    (hu : To t u (setDino sb t.blk (t.inode ip).inum (t.inode ip).din) t.inode) :
    Upd s u ip (setDino sb blk (s.inode ip).inum d) d := by
  rw [h.entry, h.blk] at hu
  exact ⟨hu.blk, hu.inode.trans h.inode, hu.file.trans h.file, hu.proc.trans h.proc⟩

/-- an inode without content -/
def Dinode.truncated (d : Dinode) : Dinode := { d with size := 0, addrs := fun _ => 0 }

theorem Dinode.addr_truncated (d : Dinode) (k : ℕ) : d.truncated.addr k = 0 := by
  simp [Dinode.addr, Dinode.truncated]

theorem slotOf_truncated (blk : Store Block) (d : Dinode) (k : ℕ) : slotOf blk d.truncated k = 0 := by
  simp [slotOf, Dinode.addr_truncated]

theorem eq_truncated (hsame : ∃ x, d' = { d with addrs := x }) (h : ∀ k, d'.addr k = 0) :
    { d' with size := 0 } = d.truncated := by
  obtain ⟨x, rfl⟩ := hsame
  have hx : x = fun _ => 0 := by
    funext k
    have := h k.val
    simp only [Dinode.addr, k.isLt, dif_pos, Fin.eta] at this
    exact UInt32.toNat_inj.1 this
  rw [hx]; rfl

/-- `itrunc` frees the blocks of the inode, and no slot holds them afterwards -/
theorem itrunc_shed (hl : Layout sb) (hi : i < sb.ninodes) (ht : (s.inode ip).din.type ≠ 0)
    (hinum : (s.inode ip).inum = i)
    (h : Owned (IsData sb) (bitAt sb s.blk) (slot sb s.blk (Function.update v i (s.inode ip).din))) :
    Spec (itrunc sb ip) s (fun _ t => ∃ blk', Upd s t ip (setDino sb blk' i (s.inode ip).din.truncated)
        (s.inode ip).din.truncated ∧ Freed sb s.blk blk' ∧
      Owned (IsData sb) (bitAt sb blk') (slot sb blk' (Function.update v i (s.inode ip).din.truncated)) ∧
      Edits (mapBlocks sb ∪ {iblock sb i}) s t) E := by
  unfold itrunc
  refine Spec.bind (itruncDirect_spec hl hi ht h NDIRECT 0 (by omega)) ?_
  rintro - t ⟨blk', d', ht', hs, hd, hed⟩
  have hdin : (t.inode ip).din = d' := by rw [ht'.entry]
  have hown := hs.own
  rw [← ht'.blk, ← hdin] at hown
  refine Spec.bind (freeIndirect_spec hl hi (by rw [hdin, hs.type]; exact ht) hown) ?_
  rintro - u ⟨blk'', d'', hu, hs', hd', hed'⟩
  rw [ht'.blk, hdin] at hs'
  have hshed := hs.trans hs'
  have hzero : ∀ k, d''.addr k = 0 := by
    intro k
    rw [hd', hdin, hd]
    split_ifs with h1 h2
    · rfl
    · rfl
    · exact dif_neg (by omega)
  have hupd := ht'.trans hu
  have htr := eq_truncated hshed.same hzero
  have howned : Owned (IsData sb) (bitAt sb blk'')
      (slot sb blk'' (Function.update v i (s.inode ip).din.truncated)) := by
    refine hshed.own.congr (fun _ _ => rfl) ?_
    rintro ⟨j, k⟩
    by_cases hj : j = i
    · subst hj
      have ht' : (s.inode ip).din.truncated.type ≠ 0 := ht
      rw [slot_self hi ht', slot_self hi (by rw [hshed.type]; exact ht), slotOf_truncated]
      simp [slotOf, hzero]
    · rw [slot_update hj, slot_update hj]
  have huip : { (u.inode ip).din with size := 0 } = (s.inode ip).din.truncated := by rw [hupd.entry, ← htr]
  refine Spec.bind_ok rfl (Spec.bind_ok rfl (Spec.post (iupdate_spec.and edits_iupdate) ?_))
  rintro _ w ⟨hw, hedw⟩
  have hall : Edits (mapBlocks sb ∪ {iblock sb i}) s _ := ((hed.trans hed').mono Finset.subset_union_left).trans
    (Edits.setInode _ u (x := { u.inode ip with din := { (u.inode ip).din with size := 0 } }) rfl)
  rw [hall.inum, hinum] at hedw
  refine ⟨blk'', ?_, hshed.freed, howned, hall.trans (hedw.mono Finset.subset_union_right)⟩
  have hset : Upd u { u with inode := u.inode.set ip { u.inode ip with din := { (u.inode ip).din with size := 0 } } } ip
      blk'' (s.inode ip).din.truncated := by
    rw [huip]; exact ⟨hupd.blk, rfl, rfl, rfl⟩
  have := (hupd.trans hset).iupdate hw
  rwa [hinum] at this

theorem Good.truncated (h : Good sb blk (Function.update v i d)) (hf : Freed sb blk blk')
    (hown : Owned (IsData sb) (bitAt sb blk') (slot sb blk' (Function.update v i d.truncated))) :
    Good sb blk' (Function.update v i d.truncated) ∧ Frame sb v i blk blk' := by
  have hframe : Frame sb v i blk blk' := by
    intro j k hj h0
    rw [← slot_update (d := d) hj] at h0 ⊢
    exact hf.data _ (h.own.alloc_cell _ h0)
  refine ⟨h.of_frame hframe hown (fun b hb => ?_) (fun _ k hk => ?_) (fun _ => Nat.zero_le _), hframe⟩
  · rw [hf.reserved b hb]; exact h.reserved b hb
  · exact absurd hk (Nat.not_lt_zero _)

theorem itrunc_spec (hl : Layout sb) (h : Good sb s.blk (Function.update v i (s.inode ip).din)) (hi : i < sb.ninodes)
    (ht : (s.inode ip).din.type ≠ 0) (hinum : (s.inode ip).inum = i) :
    Spec (itrunc sb ip) s (fun _ t => ∃ blk', Upd s t ip (setDino sb blk' i (s.inode ip).din.truncated)
        (s.inode ip).din.truncated ∧ Good sb blk' (Function.update v i (s.inode ip).din.truncated) ∧
      Frame sb v i s.blk blk' ∧ ∀ j, j < sb.ninodes → dino sb blk' j = dino sb s.blk j) E := by
  refine Spec.post (itrunc_shed hl hi ht hinum h.own) ?_
  rintro - t ⟨blk', hu, hf, hown, -⟩
  obtain ⟨hgood, hframe⟩ := h.truncated hf hown
  exact ⟨blk', hu, hgood, hframe, hf.dino⟩

/-- an inode that has been freed -/
def Dinode.released (d : Dinode) : Dinode := { d.truncated with type := 0 }

/-- `ifree` frees the blocks of the inode and the inode itself -/
theorem ifree_shed (hl : Layout sb) (hi : i < sb.ninodes) (ht : (s.inode ip).din.type ≠ 0)
    (hinum : (s.inode ip).inum = i) (hE : (s.inode ip).locked = true → E .deadlock)
    (h : Owned (IsData sb) (bitAt sb s.blk) (slot sb s.blk (Function.update v i (s.inode ip).din))) :
    Spec (ifree sb ip) s (fun _ t => ∃ blk', To s t (setDino sb blk' i (s.inode ip).din.released)
        (s.inode.set ip ⟨i, (s.inode ip).ref, false, false, (s.inode ip).din.released⟩) ∧ Freed sb s.blk blk' ∧
      Owned (IsData sb) (bitAt sb blk') (slot sb blk' (Function.update v i (s.inode ip).din.truncated)) ∧
      Edits (mapBlocks sb ∪ {iblock sb i}) s t) E := by
  unfold ifree
  refine Spec.bind_ok rfl ?_
  split_ifs with hlk
  · exact Spec.throw (hE hlk)
  refine Spec.bind_ok rfl ?_
  -- the state with the lock taken
  set x : Inode := { s.inode ip with locked := true } with hx
  have hxe : St.inode { s with inode := s.inode.set ip x } ip = x := Store.set_self _ _ _
  refine Spec.bind (itrunc_shed (v := v) (i := i) hl hi ?_ ?_ ?_) ?_
  · rw [hxe]; exact ht
  · rw [hxe]; exact hinum
  · rw [hxe]; exact h
  rintro - t ⟨blk', hu, hf, hown, hed⟩
  rw [hxe] at hu hown
  refine Spec.bind_ok rfl (Spec.bind_ok rfl (Spec.bind (iupdate_spec.and edits_iupdate) ?_))
  rintro - w ⟨hw, hedw⟩
  have hlock : Edits (mapBlocks sb ∪ {iblock sb i}) s { s with inode := s.inode.set ip x } := Edits.setInode _ s rfl
  have hall := (hlock.trans hed).trans
    (Edits.setInode _ t (x := { t.inode ip with din := { (t.inode ip).din with type := 0 } }) rfl)
  rw [hall.inum, hinum] at hedw
  set y : Inode := { t.inode ip with din := { (t.inode ip).din with type := 0 } } with hy
  have htip : t.inode ip = { x with din := (s.inode ip).din.truncated } := by rw [hu.entry, hxe]
  have hye : y = ⟨i, (s.inode ip).ref, true, (s.inode ip).valid, (s.inode ip).din.released⟩ := by
    rw [hy, htip, hx, ← hinum]; rfl
  have hin : w.inode = s.inode.set ip y := by
    rw [hw.inode]
    show t.inode.set ip y = _
    rw [hu.inode, Store.set_set]
    exact Store.set_set _ _ _ _
  refine Spec.of_ok rfl ⟨blk', ⟨?_, ?_, hw.file.trans hu.file, hw.proc.trans hu.proc⟩, hf, hown,
    (hall.trans (hedw.mono Finset.subset_union_right)).trans (Edits.setInode _ w rfl)⟩
  · show w.blk = _
    rw [hw.blk]
    show setDino sb t.blk (t.inode.set ip y ip).inum (t.inode.set ip y ip).din = _
    rw [Store.set_self, hu.blk, hye, setDino_setDino]
  · show w.inode.set ip { w.inode ip with valid := false, locked := false } = _
    rw [hin, Store.set_self, Store.set_set, hye]

end Xv6.Fs
