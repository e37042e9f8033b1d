/-
Which blocks the functions of kernel/fs.c pass to `log_write`.

`Logs S`: only blocks in S have been logged. On a disk with one block of free map, allocating and freeing log that
block; an inode is written back to its inode block; and a write that stays within one block of a file logs at most two
more: the data block and the indirect block. Dropping the last reference to an inode without links logs the free map and
its inode block, whatever its size (`logs_iput`).
-/
import Xv6.Fs.Reads

namespace Xv6.Fs

open Xv6.Core

variable {sb : Superblock} {s t u : St} {S S' : Finset ℕ} {ip i : ℕ} {n : Node} {F : ℕ → ℕ} {E : Panic → Prop}

theorem Looks.logs (h : Looks s t) (S : Finset ℕ) : Logs S s t := by
  obtain ⟨es, he, ht⟩ := h.trace
  refine ⟨es, ht, fun b hb => ?_⟩
  have := he _ hb
  cases this

theorem Logs.event {e : Ev} (h : ∀ b, e ≠ .logWrite b) (S : Finset ℕ) (s : St) :
    Logs S s { s with trace := s.trace ++ [e] } :=
  ⟨[e], rfl, fun b hb => absurd (List.mem_singleton.1 hb).symm (h b)⟩

/-! ## Blocks -/

/-- a free block costs itself, which is zeroed, and a block of the free map -/
theorem balloc_logs : Spec (balloc sb) s (fun a t => ∃ c, (sb.size ≤ BPB → c = sb.bmapstart) ∧ Logs {c, a} s t ∧
    t.inode = s.inode ∧ (a = 0 ∨ a < sb.size)) E := by
  refine Spec.post balloc_first ?_
  rintro a t (⟨h0, -, ht⟩ | ht)
  · exact ⟨_, fun _ => rfl, Logs.of_reads ht _, ht.to.inode, Or.inl h0⟩
  obtain ⟨es, d, he, htr⟩ := ht.trace
  refine ⟨bblock sb a, fun hone => bblock_one hone ht.lt, ⟨es ++ _, by rw [htr, List.append_assoc], fun b hb => ?_⟩,
    ht.done.inode, Or.inr ht.lt⟩
  rcases List.mem_append.1 hb with hb | hb
  · exact absurd (he _ hb) Bool.noConfusion
  · simpa using hb

theorem edits_balloc (hone : sb.size ≤ BPB) : Spec (balloc sb) s (fun a t => Edits {sb.bmapstart, a} s t)
    fun _ => True := by
  refine Spec.post balloc_logs ?_
  rintro a t ⟨c, hc, hlog, hi, -⟩
  exact ⟨hc hone ▸ hlog, fun k => by rw [hi]⟩

/-! ## Writing within one block -/

theorem edits_ballocAddr (hone : sb.size ≤ BPB) (k : ℕ) :
    Spec (ballocAddr sb ip k) s (fun a t => Edits {sb.bmapstart, a} s t) fun _ => True := by
  refine Spec.bind (edits_balloc hone) fun a t ht => Spec.ite (fun h0 => Spec.pure ?_) fun _ => ?_
  · rwa [h0] at ht
  · exact Spec.of_ok rfl (ht.trans (Edits.setInode _ t rfl))

theorem bmapEntry_logs (ind j : ℕ) :
    Spec (bmapEntry sb ind j) s (fun a t => t.inode = s.inode ∧ ∃ c, (sb.size ≤ BPB → c = sb.bmapstart) ∧
      Logs ({ind} ∪ {c, a}) s t) E := by
  unfold bmapEntry
  refine Spec.bind_ok rfl (Spec.ite (fun _ => ?_) fun _ => ?_)
  · refine Spec.bind balloc_logs ?_
    rintro a t ⟨c, hone, hc, hi, -⟩
    have hread : Logs ({ind} ∪ {c, a}) s { s with trace := s.trace ++ [.bread ind] } :=
      Logs.of_reads ⟨[.bread ind], by simp [Ev.isRead], rfl⟩ _
    have hall := hread.trans (hc.mono Finset.subset_union_right)
    refine Spec.ite (fun _ => Spec.of_ok rfl ⟨hi, c, hone, hall.trans ?_⟩) fun _ =>
      Spec.of_ok rfl ⟨hi, c, hone, hall.trans ?_⟩
    · exact ⟨[.store ind (setWord (s.blk ind) j a), .logWrite ind, .brelse ind], by simp, by simp⟩
    · exact Logs.of_reads ⟨[.brelse ind], by simp [Ev.isRead], rfl⟩ _
  · exact Spec.of_ok rfl ⟨rfl, _, fun _ => rfl, Logs.of_reads (Reads.block s ind) _⟩

theorem edits_bmapEntry (hone : sb.size ≤ BPB) (ind j : ℕ) :
    Spec (bmapEntry sb ind j) s (fun a t => Edits {sb.bmapstart, a, ind} s t) fun _ => True := by
  refine Spec.post (bmapEntry_logs ind j) ?_
  rintro a t ⟨hi, c, hc, hlog⟩
  rw [hc hone] at hlog
  exact ⟨hlog.mono (by intro x; simp; tauto), fun k => by rw [hi]⟩

/-- `bmap` logs the free map, the block it returns and the indirect block at most -/
theorem edits_bmap (hone : sb.size ≤ BPB) (bn : ℕ) :
    Spec (bmap sb ip bn) s (fun a t => ∃ x, Edits {sb.bmapstart, a, x} s t) fun _ => True := by
  unfold bmap
  refine Spec.bind_ok rfl (Spec.ite (fun _ => Spec.ite (fun _ => ?_) fun _ => ?_) fun _ => ?_)
  · exact Spec.post (edits_ballocAddr hone bn) fun a t ht => ⟨a, ht.mono (by intro x; simp)⟩
  · exact Spec.pure ⟨0, Edits.refl _ s⟩
  · refine Spec.ite (fun _ => ?_) fun _ => Spec.throw trivial
    have hend : ∀ ind t, Edits {sb.bmapstart, ind} s t → Spec (if ind = 0 then pure 0 else bmapEntry sb ind
      (bn - NDIRECT)) t
        (fun a u => ∃ x, Edits {sb.bmapstart, a, x} s u) fun _ => True := fun ind t ht =>
      Spec.ite (fun h0 => Spec.pure ⟨0, by rw [h0] at ht; exact ht.mono (by intro x; simp)⟩) fun _ =>
        Spec.post (edits_bmapEntry hone ind _) fun a u hu => ⟨ind, (ht.mono (by intro x; simp; tauto)).trans hu⟩
    refine Spec.ite (fun _ => Spec.bind (edits_ballocAddr hone NDIRECT) hend) fun _ => ?_
    exact Spec.bind_ok rfl (hend _ s (Edits.refl _ s))

theorem writeiLoop_zero (src : Src) (fuel tot off : ℕ) : writeiLoop sb ip src fuel tot off 0 = pure (tot, off) := by
  cases fuel <;> rfl

theorem writeiLoop_once {src : Src} {off tot rest fuel : ℕ} {B : ℕ → St → Prop} {Q : ℕ × ℕ → St → Prop} (h0 : rest ≠ 0)
    (hb : Spec (bmap sb ip (off / BSIZE)) s B E) (hstop : ∀ a t u r, B a t → u.inode = t.inode → Logs ∅ t u → Q r u)
    (hnext : ∀ a t u, B a t → u.inode = t.inode → Logs {a} t u →
      Spec (writeiLoop sb ip src fuel (tot + min rest (BSIZE - off % BSIZE)) (off + min rest (BSIZE - off % BSIZE))
        (rest - min rest (BSIZE - off % BSIZE))) u Q E) :
    Spec (writeiLoop sb ip src (fuel + 1) tot off rest) s Q E := by
  unfold writeiLoop
  rw [if_neg h0]
  refine Spec.bind hb fun a t ht => Spec.ite (fun _ => Spec.pure (hstop a t t _ ht rfl (Logs.refl _ t))) fun _ => ?_
  refine Spec.bind_ok rfl ?_
  have hread : Logs ∅ t { t with trace := t.trace ++ [.bread a] } :=
    Logs.of_reads ⟨[.bread a], by simp [Ev.isRead], rfl⟩ _
  refine Spec.bind (R := fun _ u => u.inode = t.inode ∧ Logs ∅ t u) ?_ ?_
  · refine Spec.ite (fun _ => Spec.pure ⟨rfl, hread⟩) fun _ => Spec.of_ok rfl ⟨rfl, hread.trans ⟨[_], rfl, by simp⟩⟩
  rintro _ u ⟨hi, hlog⟩
  refine Spec.ite (fun _ => Spec.bind_ok rfl (Spec.bind_ok rfl ?_)) fun _ => Spec.of_ok rfl ?_
  · refine hnext a t _ ht hi ((hlog.mono (Finset.empty_subset _)).trans ?_)
    exact ⟨[.logWrite a, .brelse a], by simp, by simp⟩
  · exact hstop a t _ _ ht hi (hlog.trans (Logs.of_reads ⟨[.brelse a], by simp [Ev.isRead], rfl⟩ _))

theorem edits_writeiLoop (hone : sb.size ≤ BPB) (src : Src) (fuel tot off rest : ℕ)
    (hfit : off % BSIZE + rest ≤ BSIZE) :
    Spec (writeiLoop sb ip src fuel tot off rest) s (fun _ t => ∃ a x, Edits {sb.bmapstart, a, x} s t)
      fun _ => True := by
  by_cases h0 : rest = 0
  · rw [h0, writeiLoop_zero]
    exact Spec.pure ⟨0, 0, Edits.refl _ s⟩
  cases fuel with
  | zero => exact Spec.pure ⟨0, 0, Edits.refl _ s⟩
  | succ fuel =>
    refine writeiLoop_once h0 (edits_bmap hone _) ?_ ?_
    · rintro a t u _ ⟨x, ht⟩ hi hlog
      exact ⟨a, x, ht.trans ⟨hlog.mono (Finset.empty_subset _), fun k => by rw [hi]⟩⟩
    · rintro a t u ⟨x, ht⟩ hi hlog
      rw [show rest - min rest (BSIZE - off % BSIZE) = 0 by omega, writeiLoop_zero]
      exact Spec.pure ⟨a, x, ht.trans ⟨hlog.mono (by simp), fun k => by rw [hi]⟩⟩

/-- a write within one block logs the free map, the inode, and at most two blocks of the file -/
theorem edits_writei (hone : sb.size ≤ BPB) (src : Src) (off n : ℕ) (hfit : off % BSIZE + n ≤ BSIZE) :
    Spec (writei sb ip src off n) s
      (fun _ t => ∃ a x, Edits {sb.bmapstart, iblock sb (s.inode ip).inum, a, x} s t) fun _ => True := by
  have hrefl := Edits.refl {sb.bmapstart, iblock sb (s.inode ip).inum, 0, 0} s
  unfold writei
  refine Spec.bind_ok rfl (Spec.ite (fun _ => Spec.pure ⟨0, 0, hrefl⟩) fun _ => Spec.ite (fun _ => Spec.pure
    ⟨0, 0, hrefl⟩)
    fun _ => Spec.bind (edits_writeiLoop hone src _ _ off n hfit) ?_)
  rintro r t ⟨a, x, ht⟩
  have ht' : Edits {sb.bmapstart, iblock sb (s.inode ip).inum, a, x} s t := ht.mono (by intro y; simp; tauto)
  -- the last part, in a state in which the table is for the same inodes
  have hend : ∀ u, Edits {sb.bmapstart, iblock sb (s.inode ip).inum, a, x} s u →
      Spec (do iupdate sb ip; pure (some r.1)) u
        (fun _ w => ∃ a x, Edits {sb.bmapstart, iblock sb (s.inode ip).inum, a, x} s w) fun _ => True := fun u hu =>
    Spec.bind edits_iupdate fun _ w hw => Spec.pure ⟨a, x, hu.trans (hw.mono (by rw [hu.inum]; simp))⟩
  refine Spec.bind_ok rfl (Spec.ite (fun _ => Spec.bind_ok rfl ?_) fun _ => hend t ht')
  exact hend _ (ht'.trans (Edits.setInode _ t rfl))

/-! ## Freeing -/

theorem logs_ifree (hl : Layout sb) (hone : sb.size ≤ BPB) (h : WF sb s) (hp : Ptr s ip i)
    (hv : (s.inode ip).valid = true) :
    Spec (ifree sb ip) s (fun _ t => Edits {sb.bmapstart, iblock sb i} s t) fun _ => True := by
  obtain ⟨hc, ht⟩ := h.coherent ip i hp hv
  rw [← hc] at ht
  refine Spec.post (ifree_shed hl (h.range ip i hp) ht hp.2.2 (fun _ => trivial) (h.good_ptr hp hv).own) ?_
  rintro - t ⟨-, -, -, -, hed⟩
  exact hed.mono (mapBlocks_one hone i)

/-- dropping a reference logs the free map and the inode block at most -/
theorem logs_iput (hl : Layout sb) (hone : sb.size ≤ BPB) (h : WF sb s) (hp : Ptr s ip i) :
    Spec (iput sb ip) s (fun _ t => Logs {sb.bmapstart, iblock sb i} s t) fun _ => True := by
  have hdecr : ∀ t, Logs {sb.bmapstart, iblock sb i} s t →
      Spec (do let x ← getInode ip; setInode ip { x with ref := x.ref - 1 }) t
        (fun _ u => Logs {sb.bmapstart, iblock sb i} s u) fun _ => True := fun t ht =>
    Spec.of_ok rfl (ht.trans (Edits.setInode _ t (x := { t.inode ip with ref := (t.inode ip).ref - 1 }) rfl).logs)
  unfold iput
  refine Spec.bind_ok rfl (Spec.ite (fun hc => ?_) fun _ => hdecr s (Logs.refl _ s))
  exact Spec.bind (logs_ifree hl hone h hp hc.2.1) fun _ t ht => hdecr t ht.logs

theorem looks_iunlock : Spec (iunlock ip) s (fun _ t => Looks s t) fun _ => True := by
  unfold iunlock
  exact Spec.bind_ok rfl (Spec.ite (fun _ => Spec.throw trivial) fun _ => Spec.of_ok rfl (Looks.tables s _ _ _))

theorem logs_iunlockput (hl : Layout sb) (hone : sb.size ≤ BPB) (h : WF sb s) (hp : Ptr s ip i)
    (hv : (s.inode ip).valid = true) :
    Spec (iunlockput sb ip) s (fun _ t => Logs {sb.bmapstart, iblock sb i} s t) fun _ => True := by
  refine Spec.bind (looks_iunlock.and (iunlock_spec (P := True) h hp hv)) ?_
  rintro _ t ⟨ht, hload⟩
  exact Spec.post (logs_iput hl hone hload.quiet.wf hload.ptr) fun _ u hu => (ht.logs _).trans hu

/-- a reference that is not the last one to an inode without links is dropped without a trace -/
theorem looks_iput (hkeep : ¬ ((s.inode ip).ref = 1 ∧ (s.inode ip).valid = true ∧ (s.inode ip).din.nlink = 0)) :
    Spec (iput sb ip) s (fun _ t => Looks s t) E := by
  unfold iput
  refine Spec.bind_ok rfl ?_
  rw [if_neg hkeep]
  exact Spec.of_ok rfl (Looks.tables s _ _ _)

theorem logs_iallocLoop (type : UInt16) (n inum : ℕ) : Spec (iallocLoop sb type n inum) s (fun r t => match r with
    | none => Looks s t
    | some ip => Logs {iblock sb (t.inode ip).inum} s t) fun _ => True := by
  induction n generalizing inum s with
  | zero => exact Spec.pure (Reads.refl s).looks
  | succ n ih =>
    unfold iallocLoop
    refine Spec.ite (fun _ => Spec.bind_ok rfl ?_) fun _ => Spec.pure (Reads.refl s).looks
    refine Spec.ite (fun _ => ?_) fun _ => Spec.bind_ok rfl (Spec.post (ih (inum + 1)) fun r t ht => ?_)
    · refine Spec.bind_ok rfl (Spec.bind_ok rfl (Spec.bind_ok rfl (Spec.bind (looks_iget inum) ?_)))
      rintro ip t ⟨ht, hinum⟩
      refine Spec.pure ?_
      show Logs {iblock sb (t.inode ip).inum} s t
      rw [hinum]
      exact (Edits.block s (iblock sb inum) _).logs.trans (ht.logs _)
    · have hread := (Reads.block s (iblock sb inum)).looks
      cases r with
      | none => exact hread.trans ht
      | some ip => exact (hread.logs _).trans ht

end Xv6.Fs
