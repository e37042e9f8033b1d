/-
Orphan reclamation (kernel/fs.c: `ireclaim`, which `fsinit` calls after the log has been recovered).

Nothing is assumed about the disk but that a data block's bit in the free map is set exactly when one slot of an inode
in use holds it (`BlockOwned`); the inode table has a free entry and no reference to an orphan (`Unheld`). When `fsinit`
runs in the first process, `userinit` has already looked up the root directory.

- `ireclaim_swept`: the loop frees the orphans from inode 1 on, and their blocks.
- `orphans_reclaimed`: which inodes and which blocks are free afterwards.
- `inode_zero_stays`: inode 0 is not looked at.
-/
import Xv6.Fs.DirMap

namespace Xv6.Fs

open Xv6.Core

variable {sb : Superblock} {i ip n : ℕ} {s t u : St} {E : Panic → Prop} {P Q : ℕ → Prop} {v : ℕ → Dinode} {d : Dinode}
  {blk blk' : Store Block} {α : Type} {x : ℕ × ℕ}

/-- an inode in use without links -/
def Dinode.Orphan (d : Dinode) : Prop := d.type ≠ 0 ∧ d.nlink = 0

instance (d : Dinode) : Decidable d.Orphan := inferInstanceAs (Decidable (_ ∧ _))

theorem Dinode.not_orphan_released (d : Dinode) : ¬ d.released.Orphan := fun h => h.1 rfl

/-- a data block's bit is set exactly when one slot of an inode in use holds the block -/
def BlockOwned (sb : Superblock) (blk : Store Block) : Prop :=
  Owned (IsData sb) (bitAt sb blk) (slot sb blk (dino sb blk))

/-- the inode table has a free entry, and no reference to an orphan -/
structure Unheld (sb : Superblock) (s : St) : Prop where
  room : ∃ k, k < NINODE ∧ (s.inode k).ref = 0
  unlocked : ∀ k, (s.inode k).ref = 0 → (s.inode k).locked = false
  others : ∀ k, 0 < (s.inode k).ref → (s.inode k).inum < sb.ninodes → ¬ (dino sb s.blk (s.inode k).inum).Orphan

/-- t has the references of s, and the entries with one are as they were -/
def SameRefs (s t : St) : Prop := ∀ k, (t.inode k).ref = (s.inode k).ref ∧ (t.inode k).locked = (s.inode k).locked ∧
  (0 < (s.inode k).ref → t.inode k = s.inode k)

/-- of the inodes in P, the orphans have been freed -/
structure Swept (sb : Superblock) (P : ℕ → Prop) (s t : St) : Prop where
  freed : ∀ j, j < sb.ninodes → P j → (dino sb s.blk j).Orphan → dino sb t.blk j = (dino sb s.blk j).released
  kept : ∀ j, j < sb.ninodes → ¬ (P j ∧ (dino sb s.blk j).Orphan) → dino sb t.blk j = dino sb s.blk j
  data : ∀ b, IsData sb b → t.blk b = s.blk b
  reserved : ∀ b, b < dataStart sb → bitAt sb t.blk b = bitAt sb s.blk b
  own : BlockOwned sb t.blk
  table : SameRefs s t

theorem Swept.refl (hown : BlockOwned sb s.blk) (hP : ∀ j, ¬ P j) : Swept sb P s s :=
  ⟨fun j _ hj => absurd hj (hP j), fun _ _ _ => rfl, fun _ _ => rfl, fun _ _ => rfl, hown,
    fun _ => ⟨rfl, rfl, fun _ => rfl⟩⟩

theorem SameRefs.trans (h : SameRefs s t) (h' : SameRefs t u) : SameRefs s u := fun k =>
  ⟨(h' k).1.trans (h k).1, (h' k).2.1.trans (h k).2.1, fun hpos =>
    ((h' k).2.2 (by rw [(h k).1]; exact hpos)).trans ((h k).2.2 hpos)⟩

theorem Unheld.swept (hun : Unheld sb s) (h : Swept sb P s t) : Unheld sb t := by
  refine ⟨?_, fun k h0 => ?_, fun k hpos hlt => ?_⟩
  · obtain ⟨k, hk, h0⟩ := hun.room
    exact ⟨k, hk, by rw [(h.table k).1, h0]⟩
  · rw [(h.table k).1] at h0
    rw [(h.table k).2.1, hun.unlocked k h0]
  · rw [(h.table k).1] at hpos
    rw [(h.table k).2.2 hpos] at hlt ⊢
    have hno := hun.others k hpos hlt
    rwa [h.kept _ hlt fun hc => hno hc.2]

theorem Swept.trans (h : Swept sb P s t) (h' : Swept sb Q t u) : Swept sb (fun j => P j ∨ Q j) s u := by
  refine ⟨fun j hj hpq ho => ?_, fun j hj hno => ?_, fun b hb => (h'.data b hb).trans (h.data b hb),
    fun b hb => (h'.reserved b hb).trans (h.reserved b hb), h'.own, h.table.trans h'.table⟩
  · by_cases hp : P j
    · have ht := h.freed j hj hp ho
      rw [h'.kept j hj fun hc => Dinode.not_orphan_released _ (ht ▸ hc.2), ht]
    · have ht := h.kept j hj fun hc => hp hc.1
      rw [h'.freed j hj (hpq.resolve_left hp) (ht.symm ▸ ho), ht]
  · have ht := h.kept j hj fun hc => hno ⟨Or.inl hc.1, hc.2⟩
    rw [h'.kept j hj fun hc => hno ⟨Or.inr hc.1, ht ▸ hc.2⟩, ht]

theorem Swept.mono (h : Swept sb P s t) (hPQ : ∀ j, P j ↔ Q j) : Swept sb Q s t := by
  obtain rfl : P = Q := funext fun j => propext (hPQ j)
  exact h

/-! ## One inode -/

theorem BlockOwned.released (hl : Layout sb) (hi : i < sb.ninodes) (ht : (dino sb blk i).type ≠ 0)
    (hf : Freed sb blk blk')
    (hown : Owned (IsData sb) (bitAt sb blk')
      (slot sb blk' (Function.update (dino sb blk) i (dino sb blk i).truncated))) :
    BlockOwned sb (setDino sb blk' i (dino sb blk i).released) := by
  have hdata : ∀ b, IsData sb b → setDino sb blk' i (dino sb blk i).released b = blk' b := fun b hb =>
    Store.set_ne _ _ (by rintro rfl; exact hl.iblock_not_data hi hb)
  refine hown.congr (fun b _ => bitAt_congr (Store.set_ne _ _ (hl.iblock_ne_bblock hi b).symm)) ?_
  rintro ⟨j, k⟩
  rw [← slot_data_congr hown hdata]
  unfold slot
  by_cases hj : j < sb.ninodes
  · rw [dino_setDino]
    by_cases hji : j = i
    · subst hji
      have ht' : (dino sb blk j).truncated.type ≠ 0 := ht
      simp [Dinode.released, hj, ht', slotOf_truncated]
    · simp [hji, hf.dino j hj]
  · simp [hj]

theorem Unheld.empty (h : Unheld sb s) : s.empty ≠ none := by
  intro he
  obtain ⟨k, hk, h0⟩ := h.room
  have := List.find?_eq_none.1 he k (List.mem_range.2 hk)
  simp only [decide_eq_true_eq] at this
  exact this h0

theorem iput_orphan (hl : Layout sb) (hi : i < sb.ninodes) (hown : BlockOwned sb s.blk)
    (horphan : (dino sb s.blk i).Orphan) (hx : s.inode ip = ⟨i, 1, false, true, dino sb s.blk i⟩) :
    Spec (iput sb ip) s (fun _ t => ∃ blk', t.blk = setDino sb blk' i (dino sb s.blk i).released ∧
      Freed sb s.blk blk' ∧ BlockOwned sb t.blk ∧
      t.inode = s.inode.set ip ⟨i, 0, false, false, (dino sb s.blk i).released⟩) E := by
  unfold iput
  refine Spec.bind_ok rfl ?_
  rw [if_pos (by rw [hx]; exact ⟨rfl, rfl, horphan.2⟩)]
  have hdin : (s.inode ip).din = dino sb s.blk i := by rw [hx]
  have hupd : Function.update (dino sb s.blk) i (s.inode ip).din = dino sb s.blk := by
    rw [hdin, Function.update_eq_self]
  refine Spec.bind (ifree_shed (v := dino sb s.blk) (i := i) hl hi ?_ ?_ ?_ ?_) ?_
  · rw [hdin]; exact horphan.1
  · rw [hx]
  · rw [hx]; simp
  · rw [hupd]; exact hown
  rintro - t ⟨blk', hto, hf, hown', -⟩
  rw [hdin] at hto hown'
  refine Spec.of_ok rfl ⟨blk', hto.blk, hf, ?_, ?_⟩
  · show BlockOwned sb t.blk
    rw [hto.blk]
    exact BlockOwned.released hl hi horphan.1 hf hown'
  · show t.inode.set ip { t.inode ip with ref := (t.inode ip).ref - 1 } = _
    rw [hto.inode, Store.set_self, Store.set_set, hx]
    rfl

theorem ilock_orphan (hx : s.inode ip = ⟨i, 1, false, false, d⟩) (ht : (dino sb s.blk i).type ≠ 0) :
    Spec (ilock sb ip) s (fun _ t => t.blk = s.blk ∧
      t.inode = s.inode.set ip ⟨i, 1, true, true, dino sb s.blk i⟩) E := by
  unfold ilock
  refine Spec.bind_ok rfl ?_
  rw [hx, if_neg (by simp), if_neg (by simp), if_neg (by simp)]
  refine Spec.bind_ok rfl (Spec.bind_ok rfl (Spec.bind_ok rfl ?_))
  exact Spec.ite (fun h0 => absurd h0 ht) fun _ => Spec.pure ⟨rfl, rfl⟩

theorem iunlock_orphan (hx : s.inode ip = ⟨i, 1, true, true, d⟩) :
    Spec (iunlock ip) s (fun _ t => t.blk = s.blk ∧ t.inode = s.inode.set ip ⟨i, 1, false, true, d⟩) E := by
  unfold iunlock
  refine Spec.bind_ok rfl ?_
  rw [hx, if_neg (by simp)]
  exact Spec.of_ok rfl ⟨rfl, rfl⟩

/-- **One round of the loop.** -/
theorem reclaim_swept (hl : Layout sb) (hown : BlockOwned sb s.blk) (hun : Unheld sb s) (hi : i < sb.ninodes) :
    Spec (reclaim sb i) s (fun _ t => Swept sb (fun j => j = i) s t) E := by
  unfold reclaim
  refine Spec.bind_ok rfl (Spec.ite (fun horphan => ?_) fun hno => ?_)
  · -- a new reference, the only one
    refine Spec.bind (iget_got i fun he => absurd he hun.empty) fun ip t hg => ?_
    obtain ⟨hfree, hent⟩ : (s.inode ip).ref = 0 ∧ t.inode = s.inode.set ip ⟨i, 1, false, false, (s.inode ip).din⟩ := by
      rcases hg.entry with ⟨hpos, hent⟩ | ⟨h0, hent⟩
      · have hinum : (s.inode ip).inum = i := by
          have := hg.inum
          rwa [hent, Store.set_self] at this
        subst hinum
        exact absurd horphan (hun.others ip hpos hi)
      · refine ⟨h0, hent.trans ?_⟩
        show s.inode.set ip { s.inode ip with inum := i, ref := 1, valid := false } = _
        rw [← hun.unlocked ip h0]
    have hblk : t.blk = s.blk := hg.blk
    refine Spec.bind_ok rfl (Spec.bind_ok rfl (Spec.bind (ilock_orphan (i := i) (d := (s.inode ip).din) ?_ ?_) ?_))
    · show t.inode ip = _
      rw [hent, Store.set_self]
    · show (dino sb t.blk i).type ≠ 0
      rw [hblk]
      exact horphan.1
    rintro - w ⟨hwb, hwi⟩
    change w.blk = t.blk at hwb
    change w.inode = t.inode.set ip ⟨i, 1, true, true, dino sb t.blk i⟩ at hwi
    rw [hblk] at hwb hwi
    rw [hent, Store.set_set] at hwi
    refine Spec.bind (iunlock_orphan (i := i) (d := dino sb s.blk i) (by rw [hwi, Store.set_self])) ?_
    rintro - x ⟨hxb, hxi⟩
    rw [hwb] at hxb
    rw [hwi, Store.set_set] at hxi
    refine Spec.bind (iput_orphan (s := x) hl hi (hxb.symm ▸ hown) (hxb.symm ▸ horphan) ?_) ?_
    · rw [hxi, Store.set_self, hxb]
    rintro - y ⟨blk', hyb, hf, hyown, hyi⟩
    rw [hxb] at hyb hf
    refine Spec.of_ok rfl ⟨fun j hj hji ho => ?_, fun j hj hno => ?_, fun b hb => ?_, fun b hb => ?_, hyown,
      fun k => ?_⟩
    · subst hji
      show dino sb y.blk j = _
      rw [hyb, dino_setDino, if_pos rfl]
    · show dino sb y.blk j = _
      have hji : j ≠ i := fun hji => hno ⟨hji, hji ▸ horphan⟩
      rw [hyb, dino_setDino, if_neg hji, hf.dino j hj]
    · show y.blk b = _
      rw [hyb, ← hf.data b hb]
      exact Store.set_ne _ _ (by rintro rfl; exact hl.iblock_not_data hi hb)
    · show bitAt sb y.blk b = _
      rw [hyb, ← hf.reserved b hb]
      exact bitAt_congr (Store.set_ne _ _ (hl.iblock_ne_bblock hi b).symm)
    · show (y.inode k).ref = (s.inode k).ref ∧ (y.inode k).locked = (s.inode k).locked ∧ (_ → y.inode k = s.inode k)
      rw [hyi, hxi, Store.set_set]
      by_cases hk : k = ip
      · rw [hk, Store.set_self, hfree, hun.unlocked ip hfree]
        exact ⟨rfl, rfl, fun hpos => absurd hpos (lt_irrefl 0)⟩
      · rw [Store.set_ne _ _ hk]
        exact ⟨rfl, rfl, fun _ => rfl⟩
  · refine Spec.of_ok rfl ⟨fun j _ hj ho => ?_, fun _ _ _ => rfl, fun _ _ => rfl, fun _ _ => rfl, hown,
      fun _ => ⟨rfl, rfl, fun _ => rfl⟩⟩
    subst hj
    exact absurd ho hno

theorem ireclaimLoop_swept (hl : Layout sb) (hown : BlockOwned sb s.blk) (hun : Unheld sb s)
    (hn : i + n ≤ sb.ninodes) :
    Spec (ireclaimLoop sb n i) s (fun _ t => Swept sb (fun j => i ≤ j ∧ j < i + n) s t) E := by
  induction n generalizing i s with
  | zero => exact Spec.pure (Swept.refl hown fun j hj => by omega)
  | succ n ih =>
    refine Spec.bind (reclaim_swept hl hown hun (by omega)) fun _ t ht => ?_
    refine Spec.post (ih ht.own (hun.swept ht) (by omega)) fun _ u hu => ?_
    exact (ht.trans hu).mono fun j => by omega

theorem ireclaim_swept (hl : Layout sb) (hown : BlockOwned sb s.blk) (hun : Unheld sb s) :
    Spec (ireclaim sb) s (fun _ t => Swept sb (fun j => 0 < j ∧ j < sb.ninodes) s t) E := by
  have := hl.root
  refine Spec.post (ireclaimLoop_swept hl hown hun (by omega)) fun _ t ht => ?_
  exact ht.mono fun j => by omega

/-! ## All inodes -/

theorem Swept.slot_freed (h : Swept sb P s t) (hP : P x.1) (ho : (dino sb s.blk x.1).Orphan) :
    slot sb t.blk (dino sb t.blk) x = 0 := by
  by_cases hx : x.1 < sb.ninodes
  · have hfree : (dino sb t.blk x.1).type = 0 := by rw [h.freed x.1 hx hP ho]; rfl
    simp [slot, hfree]
  · simp [slot, hx]

theorem Swept.slot_kept (h : Swept sb P s t) (hno : ¬ (P x.1 ∧ (dino sb s.blk x.1).Orphan)) :
    slot sb t.blk (dino sb t.blk) x = slot sb s.blk (dino sb s.blk) x := by
  rw [← slot_data_congr h.own fun b hb => (h.data b hb).symm]
  by_cases hx : x.1 < sb.ninodes
  · unfold slot
    rw [h.kept x.1 hx hno]
  · simp [slot, hx]

theorem Swept.content (h : Swept sb P s t) (hown : BlockOwned sb s.blk) {j : ℕ} (hj : j < sb.ninodes)
    (hno : ¬ (P j ∧ (dino sb s.blk j).Orphan)) (hu : (dino sb s.blk j).type ≠ 0) (hm : Mapped s.blk (dino sb s.blk j)) :
    content t.blk (dino sb t.blk j) = content s.blk (dino sb s.blk j) := by
  rw [h.kept j hj hno]
  refine content_congr hm fun k h0 => h.data _ ?_
  have := hown.alloc_cell (j, k)
  rw [slot_of hj hu] at this
  exact this h0

theorem Swept.bit (h : Swept sb P s t) (hown : BlockOwned sb s.blk) {b : ℕ} (hb : IsData sb b) :
    bitAt sb t.blk b = true ↔ bitAt sb s.blk b = true ∧
      ¬ ∃ j k, j < sb.ninodes ∧ P j ∧ (dino sb s.blk j).Orphan ∧ slotOf s.blk (dino sb s.blk j) k = b := by
  have h0 : b ≠ 0 := (lt_of_lt_of_le (Nat.succ_pos _) hb.1).ne'
  rw [h.own.bit_iff b hb h0, hown.bit_iff b hb h0]
  constructor
  · rintro ⟨x, hx⟩
    have hno : ¬ (P x.1 ∧ (dino sb s.blk x.1).Orphan) := fun hc => h0 (hx.symm.trans (h.slot_freed hc.1 hc.2))
    rw [h.slot_kept hno] at hx
    refine ⟨⟨x, hx⟩, ?_⟩
    rintro ⟨j, k, hj, hP, ho, hk⟩
    -- no other slot holds the block
    have hjk : slot sb s.blk (dino sb s.blk) (j, k) = b := (slot_of hj ho.1 k).trans hk
    have := hown.inj x (j, k) (hx.trans hjk.symm) (hx ▸ h0)
    subst this
    exact hno ⟨hP, ho⟩
  · rintro ⟨⟨x, hx⟩, hnone⟩
    refine ⟨x, (h.slot_kept fun hc => hnone ?_).trans hx⟩
    have hlt : x.1 < sb.ninodes := by
      by_contra hlt
      exact h0 (hx.symm.trans (by simp [slot, hlt]))
    exact ⟨x.1, x.2, hlt, hc.1, hc.2, (slot_of hlt hc.2.1 x.2).symm.trans hx⟩

/-- **Orphan reclamation.** On every disk on which blocks are owned, `ireclaim` ends, without a panic, with every orphan
from inode 1 on free, every other inode and its content unchanged, exactly the blocks that the orphans held additionally
free in the free map, the blocks owned, and the references to inodes as they were. -/
theorem orphans_reclaimed (hl : Layout sb) (hown : BlockOwned sb s.blk) (hun : Unheld sb s) :
    ∃ t, ireclaim sb s = .ok ((), t) ∧
      (∀ j, 0 < j → j < sb.ninodes → (dino sb s.blk j).Orphan → (dino sb t.blk j).type = 0) ∧
      (∀ j, j < sb.ninodes → j = 0 ∨ ¬ (dino sb s.blk j).Orphan → dino sb t.blk j = dino sb s.blk j ∧
        ((dino sb s.blk j).type ≠ 0 → Mapped s.blk (dino sb s.blk j) →
          content t.blk (dino sb t.blk j) = content s.blk (dino sb s.blk j))) ∧
      (∀ b, IsData sb b → t.blk b = s.blk b) ∧
      (∀ b, IsData sb b → (bitAt sb t.blk b = true ↔ bitAt sb s.blk b = true ∧ ¬ ∃ j k, 0 < j ∧ j < sb.ninodes ∧
        (dino sb s.blk j).Orphan ∧ slotOf s.blk (dino sb s.blk j) k = b)) ∧
      (∀ b, b < dataStart sb → bitAt sb t.blk b = bitAt sb s.blk b) ∧
      BlockOwned sb t.blk ∧ SameRefs s t := by
  obtain ⟨_, t, hrun, ht⟩ := (ireclaim_swept hl hown hun).returns
  refine ⟨t, hrun, fun j h0 hj ho => ?_, fun j hj hno => ?_, ht.data, fun b hb => ?_, ht.reserved, ht.own, ht.table⟩
  · rw [ht.freed j hj ⟨h0, hj⟩ ho]
    rfl
  · have hno' : ¬ ((0 < j ∧ j < sb.ninodes) ∧ (dino sb s.blk j).Orphan) := fun hc =>
      hno.elim (fun h0 => by omega) fun hn => hn hc.2
    exact ⟨ht.kept j hj hno', ht.content hown hj hno'⟩
  · rw [ht.bit hown hb]
    refine and_congr_right fun _ => not_congr ⟨?_, ?_⟩
    · rintro ⟨j, k, hj, hP, ho, hk⟩
      exact ⟨j, k, hP.1, hj, ho, hk⟩
    · rintro ⟨j, k, h0, hj, ho, hk⟩
      exact ⟨j, k, hj, ⟨h0, hj⟩, ho, hk⟩

/-- the disk is used again after a restart; `userinit` has looked up the root -/
def St.restart (s : St) : St :=
  { s with inode := Ownership.bare.inode.set 0 { Ownership.bare.inode 0 with inum := ROOTINO, ref := 1 } }

theorem unheld_restart (hroot : ¬ (dino sb s.blk ROOTINO).Orphan) : Unheld sb s.restart := by
  refine ⟨⟨1, by decide, rfl⟩, fun k _ => ?_, fun k hpos _ => ?_⟩
  · by_cases hk : k = 0
    · rw [hk]; rfl
    · simp only [St.restart, Store.set_ne _ _ hk]
      rfl
  · by_cases hk : k = 0
    · rw [hk]; exact hroot
    · simp only [St.restart, Store.set_ne _ _ hk] at hpos
      exact absurd hpos (lt_irrefl 0)

/-- "/f" has one byte, and is removed while process 0 has it open -/
def orphanF : List (ℕ × Call) := openF ++ [(0, .write 0 pageA 0 1), (0, .unlink (some pathF))]

theorem orphans_reclaimed_file : ∃ t, ireclaim Ownership.tiny (after orphanF).restart = .ok ((), t) ∧
    (dino Ownership.tiny (after orphanF).blk 2).Orphan ∧ (dino Ownership.tiny t.blk 2).type = 0 := by
  have horphan : (dino Ownership.tiny (after orphanF).blk 2).Orphan := by decide +kernel
  have hidle : Idle Ownership.tiny (after orphanF) := Append.idle_after (by decide +kernel)
  obtain ⟨t, hrun, hfree, -⟩ := orphans_reclaimed (s := (after orphanF).restart) Ownership.tiny_layout hidle.wf.good.own
    (unheld_restart (by decide +kernel))
  exact ⟨t, hrun, horphan, hfree 2 (by decide) (by decide) horphan⟩

/-- inode 0 is an orphan without content -/
def zeroUsed : St :=
  { Ownership.bare with blk := setDino Ownership.tiny Ownership.bare.blk 0 { Dinode.zero with type := T_FILE } }

theorem zeroUsed_owned : BlockOwned Ownership.tiny zeroUsed.blk := by
  have hwf : WF Ownership.tiny zeroUsed := by
    refine Ownership.wf_of_bare Ownership.tiny_layout (by decide +kernel) (fun i hi ht => ?_) fun _ => rfl
    have hempty : ∀ i, i < 16 → (dino Ownership.tiny zeroUsed.blk i).size = 0 ∧
        ∀ k, (dino Ownership.tiny zeroUsed.blk i).addrs k = 0 := by decide +kernel
    obtain ⟨hsize, haddrs⟩ := hempty i hi
    refine ⟨dino Ownership.tiny zeroUsed.blk i, ?_⟩
    generalize dino Ownership.tiny zeroUsed.blk i = d at hsize haddrs
    obtain ⟨_, _, _, _, _, _⟩ := d
    cases hsize
    cases funext haddrs
    rfl
  exact hwf.good.own

/-- **Inode 0 is not looked at.** If it is in use without links, it stays so. -/
theorem inode_zero_stays : BlockOwned Ownership.tiny zeroUsed.blk ∧ Unheld Ownership.tiny zeroUsed ∧
    (dino Ownership.tiny zeroUsed.blk 0).Orphan ∧
    ∃ t, ireclaim Ownership.tiny zeroUsed = .ok ((), t) ∧ (dino Ownership.tiny t.blk 0).type ≠ 0 := by
  have horphan : (dino Ownership.tiny zeroUsed.blk 0).Orphan := by decide +kernel
  have hun : Unheld Ownership.tiny zeroUsed :=
    ⟨⟨0, by decide, rfl⟩, fun _ _ => rfl, fun _ hpos => absurd hpos (lt_irrefl 0)⟩
  obtain ⟨_, t, hrun, ht⟩ := (ireclaim_swept Ownership.tiny_layout zeroUsed_owned hun).returns
  refine ⟨zeroUsed_owned, hun, horphan, t, hrun, ?_⟩
  rw [ht.kept 0 (by decide) fun hc => absurd hc.1.1 (lt_irrefl 0)]
  exact horphan.1

end Xv6.Fs
