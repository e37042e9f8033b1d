/-
Crash atomicity of the redo log (kernel/log.c: `write_log`, `write_head`, `install_trans`, `commit`,
`recover_from_log`).

The disk is the store of the library `Core.Crash`; each `bwrite` is one atomic write, in program order. A write of
`write_log` takes its content from the buffer cache, every other one from the disk (the log blocks and the header are
read back as they were last written).

- `crash_atomic`: at every crash point, and however often recovery is cut off, the disk ends up all old or all new.
-/
import Xv6.Core.Crash
import Xv6.Log.Header

namespace Xv6.Recovery

open Xv6.Core

abbrev Disk := Store Block

/-! ## Model -/

/-- the blocks of the log: the header block and the data blocks behind it -/
def InLog (start b : ℕ) : Prop := start ≤ b ∧ b ≤ start + LOGBLOCKS

instance (start b : ℕ) : Decidable (InLog start b) := by unfold InLog; infer_instance

/-- copy modified blocks from cache to log -/
def writeLog (start : ℕ) (lh : List ℕ) (cache : ℕ → Block) : List (Write Block) :=
  lh.mapIdx fun tail b => fun _ => (start + tail + 1, cache b)

/-- write in-memory log header to disk -/
def writeHead (start : ℕ) (lh : List ℕ) : Write Block := fun d => (start, setHead (d start) lh)

/-- copy committed blocks from log to their home location -/
def installTrans (start : ℕ) (lh : List ℕ) : List (Write Block) :=
  lh.mapIdx fun tail b => fun d => (b, d (start + tail + 1))

def commit (start : ℕ) (lh : List ℕ) (cache : ℕ → Block) : List (Write Block) :=
  if lh.length > 0 then
    writeLog start lh cache ++ writeHead start lh :: (installTrans start lh ++ [writeHead start []])
  else []

/-- `read_head` fixes the in-memory header from the disk that recovery finds; `lh.n = 0` before the last write -/
def recoverFromLog (start : ℕ) (d : Disk) : List (Write Block) :=
  installTrans start (readHead (d start)) ++ [writeHead start []]

/-- the disk e with all logged blocks replaced by their cached contents -/
def replaced (lh : List ℕ) (cache : ℕ → Block) (e : Disk) : Disk := fun b => if b ∈ lh then cache b else e b

theorem replaced_nil (cache : ℕ → Block) (e : Disk) : replaced [] cache e = e := by funext b; simp [replaced]

/-! ## The two states a crash can leave -/

/-- no transaction in the log, and the disk outside the log is `e` -/
structure Clean (start : ℕ) (e d : Disk) : Prop where
  head : headN (d start) = 0
  home : ∀ b, ¬ InLog start b → d b = e b

/-- the transaction is committed and partly installed -/
structure Committed (start : ℕ) (lh : List ℕ) (cache : ℕ → Block) (e d : Disk) : Prop where
  head : readHead (d start) = lh
  logged : ∀ i, ∀ h : i < lh.length, d (start + i + 1) = cache lh[i]
  home : ∀ b, ¬ InLog start b → d b = e b ∨ (b ∈ lh ∧ d b = cache b)

variable {start : ℕ} {lh : List ℕ} {cache : ℕ → Block} {e d : Disk}

theorem inLog_head (start : ℕ) : InLog start start := ⟨le_rfl, Nat.le_add_right _ _⟩

theorem inLog_data (hn : lh.length ≤ LOGBLOCKS) {i : ℕ} (hi : i < lh.length) : InLog start (start + i + 1) :=
  ⟨by omega, by omega⟩

theorem Clean.write_log (h : Clean start e d) (hn : lh.length ≤ LOGBLOCKS) (w : Write Block)
    (hw : w ∈ writeLog start lh cache) : Clean start e (apply d w) := by
  obtain ⟨i, hi, rfl⟩ := List.mem_mapIdx.1 hw
  refine ⟨?_, fun b hb => ?_⟩
  · rw [apply, Store.set_ne _ _ (by omega)]; exact h.head
  · rw [apply, Store.set_ne]
    · exact h.home b hb
    · rintro rfl; exact hb (inLog_data hn hi)

theorem Clean.clear (hd : ∀ b, ¬ InLog start b → d b = e b) : Clean start e (apply d (writeHead start [])) := by
  refine ⟨?_, fun b hb => ?_⟩
  · simp only [apply, writeHead, Store.set_self]; exact headN_clear _
  · rw [apply, writeHead, Store.set_ne]
    · exact hd b hb
    · rintro rfl; exact hb (inLog_head _)

/-- recovery of a clean disk only rewrites the empty header -/
theorem Clean.recover (h : Clean start e d) : recoverFromLog start d = [writeHead start []] := by
  simp [recoverFromLog, readHead_of_headN_zero h.head, installTrans]

theorem Clean.cut_recover (h : Clean start e d) (k : ℕ) : Clean start e (cut k (recoverFromLog start d) d) := by
  rw [h.recover]
  refine cut_inv (Clean start e) k _ d h fun w hw f hf => ?_
  rw [List.mem_singleton.1 hw]
  exact Clean.clear hf.home

theorem Clean.exec_recover (h : Clean start e d) : Clean start e (exec (recoverFromLog start d) d) := by
  rw [h.recover]; exact Clean.clear h.home

theorem Committed.install (h : Committed start lh cache e d) (hn : lh.length ≤ LOGBLOCKS)
    (hout : ∀ b ∈ lh, ¬ InLog start b) (w : Write Block) (hw : w ∈ installTrans start lh) :
    Committed start lh cache e (apply d w) := by
  obtain ⟨i, hi, rfl⟩ := List.mem_mapIdx.1 hw
  have hib := hout _ (List.getElem_mem hi)
  refine ⟨?_, fun j hj => ?_, fun b hb => ?_⟩
  · rw [apply, Store.set_ne]
    · exact h.head
    · intro heq
      have hs : lh[i] = start := heq.symm
      rw [hs] at hib; exact hib (inLog_head start)
  · rw [apply, Store.set_ne]
    · exact h.logged j hj
    · intro heq
      have hj' : InLog start (start + j + 1) := inLog_data hn hj
      rw [heq] at hj'; exact hib hj'
  · by_cases hbi : b = lh[i]
    · subst hbi
      right
      refine ⟨List.getElem_mem hi, ?_⟩
      rw [apply, Store.set_self]; exact h.logged i hi
    · rw [apply, Store.set_ne _ _ hbi]; exact h.home b hb

/-- installing all of the transaction gives every logged block its logged content -/
theorem Committed.exec_install (h : Committed start lh cache e d) (hn : lh.length ≤ LOGBLOCKS)
    (hout : ∀ b ∈ lh, ¬ InLog start b) (b : ℕ) (hb : ¬ InLog start b) :
    exec (installTrans start lh) d b = replaced lh cache e b := by
  by_cases hm : b ∈ lh
  · rw [replaced, if_pos hm]
    refine exec_reaches (Committed start lh cache e) (fun d => d b = cache b) _ d h
      (fun w hw f hf => hf.install hn hout w hw) (fun w hw f hf hfb => ?_) ?_
    · -- a later write to the same block writes the same content
      obtain ⟨i, hi, rfl⟩ := List.mem_mapIdx.1 hw
      by_cases hbi : b = lh[i]
      · subst hbi; rw [apply, Store.set_self]; exact hf.logged i hi
      · rw [apply, Store.set_ne _ _ hbi]; exact hfb
    · obtain ⟨i, hi, rfl⟩ := List.getElem_of_mem hm
      refine ⟨_, List.mem_mapIdx.2 ⟨i, hi, rfl⟩, fun f hf => ?_⟩
      rw [apply, Store.set_self]; exact hf.logged i hi
  · have hall := exec_inv (Committed start lh cache e) _ d h (fun w hw f hf => hf.install hn hout w hw)
    rw [replaced, if_neg hm]
    rcases hall.home b hb with hh | hh
    · exact hh
    · exact absurd hh.1 hm

/-- from a committed disk, installing and clearing the log, cut off anywhere, leaves the transaction committed or
completely installed -/
theorem Committed.cut_install (h : Committed start lh cache e d) (hn : lh.length ≤ LOGBLOCKS)
    (hout : ∀ b ∈ lh, ¬ InLog start b) (k : ℕ) :
    Committed start lh cache e (cut k (installTrans start lh ++ [writeHead start []]) d) ∨
      Clean start (replaced lh cache e) (cut k (installTrans start lh ++ [writeHead start []]) d) := by
  rw [cut_append]
  split_ifs with hk
  · exact Or.inl (cut_inv _ _ _ d h fun w hw f hf => hf.install hn hout w hw)
  · right
    obtain ⟨j, hj⟩ : ∃ j, k - (installTrans start lh).length = j + 1 := ⟨_, (Nat.succ_pred (by omega)).symm⟩
    rw [hj, cut_succ_cons]
    simp only [cut, List.take_nil, exec_nil]
    exact Clean.clear (h.exec_install hn hout)

theorem Committed.exec_recover (h : Committed start lh cache e d) (hn : lh.length ≤ LOGBLOCKS)
    (hout : ∀ b ∈ lh, ¬ InLog start b) : Clean start (replaced lh cache e) (exec (recoverFromLog start d) d) := by
  rw [recoverFromLog, h.head, exec_append]
  exact Clean.clear (h.exec_install hn hout)

/-! ## Writing the log and the header -/

theorem exec_writeLog_logged (h : Clean start e d) (hn : lh.length ≤ LOGBLOCKS) (i : ℕ) (hi : i < lh.length) :
    exec (writeLog start lh cache) d (start + i + 1) = cache lh[i] := by
  refine exec_reaches (Clean start e) (fun d => d (start + i + 1) = cache lh[i]) _ d h
    (fun w hw f hf => hf.write_log hn w hw) (fun w hw f hf hfi => ?_)
    ⟨_, List.mem_mapIdx.2 ⟨i, hi, rfl⟩, fun f _ => by rw [apply, Store.set_self]⟩
  obtain ⟨j, hj, rfl⟩ := List.mem_mapIdx.1 hw
  by_cases hij : i = j
  · subst hij; rw [apply, Store.set_self]
  · rw [apply, Store.set_ne _ _ (by omega)]; exact hfi

/-- the write of the header is the commit point -/
theorem committed_writeHead (h : Clean start e d) (hn : lh.length ≤ LOGBLOCKS) (hw : ∀ b ∈ lh, b < 2 ^ 32) :
    Committed start lh cache e (apply (exec (writeLog start lh cache) d) (writeHead start lh)) := by
  have hlog : Clean start e (exec (writeLog start lh cache) d) :=
    exec_inv (Clean start e) _ d h fun w hm f hf => hf.write_log hn w hm
  refine ⟨?_, fun i hi => ?_, fun b hb => ?_⟩
  · simp only [apply, writeHead, Store.set_self]; exact readHead_setHead _ lh hn hw
  · rw [apply, writeHead, Store.set_ne _ _ (by omega)]; exact exec_writeLog_logged h hn i hi
  · left
    rw [apply, writeHead, Store.set_ne]
    · exact hlog.home b hb
    · rintro rfl; exact hb (inLog_head _)

theorem length_writeLog (start : ℕ) (lh : List ℕ) (cache : ℕ → Block) :
    (writeLog start lh cache).length = lh.length := by simp [writeLog]

/-- a commit cut off before the header write leaves the old disk -/
theorem cut_commit_before (h : Clean start e d) (hn : lh.length ≤ LOGBLOCKS) (k : ℕ) (hk : k ≤ lh.length) :
    Clean start e (cut k (commit start lh cache) d) := by
  unfold commit
  split_ifs with h0
  · rw [cut_append, if_pos (by rw [length_writeLog]; exact hk)]
    exact cut_inv _ _ _ d h fun w hw f hf => hf.write_log hn w hw
  · simpa [cut] using h

/-- a commit cut off after the header write leaves the transaction committed or completely installed -/
theorem cut_commit_after (h : Clean start e d) (hn : lh.length ≤ LOGBLOCKS) (hout : ∀ b ∈ lh, ¬ InLog start b)
    (hw : ∀ b ∈ lh, b < 2 ^ 32) (k : ℕ) (hk : lh.length < k) :
    Committed start lh cache e (cut k (commit start lh cache) d) ∨
      Clean start (replaced lh cache e) (cut k (commit start lh cache) d) := by
  unfold commit
  split_ifs with h0
  · rw [cut_append, if_neg (by rw [length_writeLog]; omega), length_writeLog]
    obtain ⟨j, hj⟩ : ∃ j, k - lh.length = j + 1 := ⟨_, (Nat.succ_pred (by omega)).symm⟩
    rw [hj, cut_succ_cons]
    exact (committed_writeHead h hn hw).cut_install hn hout j
  · right
    obtain rfl : lh = [] := List.eq_nil_of_length_eq_zero (by omega)
    simpa [cut, replaced_nil] using h

/-! ## Crash atomicity -/

/-- a crash after k writes of `commit`, recovery attempts cut off after `ks` writes, and one that completes -/
def crashAndRecover (start : ℕ) (lh : List ℕ) (cache : ℕ → Block) (d : Disk) (k : ℕ) (ks : List ℕ) : Disk :=
  let crashed := restarts (recoverFromLog start) ks (cut k (commit start lh cache) d)
  exec (recoverFromLog start crashed) crashed

/-- **Crash atomicity.** The header is empty on disk when the commit starts, the logged blocks lie outside the log area.
Whatever prefix of the writes of `commit` reaches the disk, and however many recovery attempts are cut off wherever,
the recovery that completes leaves an empty header, and the disk outside the log is the old one if the first
`write_head` (write number n + 1) had not completed and the one with all n logged blocks replaced if it had. -/
theorem crash_atomic (start : ℕ) (lh : List ℕ) (cache : ℕ → Block) (d : Disk) (hn : lh.length ≤ LOGBLOCKS)
    (hw : ∀ b ∈ lh, b < 2 ^ 32) (hout : ∀ b ∈ lh, ¬ InLog start b) (h0 : headN (d start) = 0) (k : ℕ) (ks : List ℕ) :
    headN (crashAndRecover start lh cache d k ks start) = 0 ∧
    ∀ b, ¬ InLog start b →
      crashAndRecover start lh cache d k ks b = if lh.length < k then replaced lh cache d b else d b := by
  have hclean : Clean start d d := ⟨h0, fun _ _ => rfl⟩
  by_cases hk : lh.length < k
  · have hrec : ∀ f, Committed start lh cache d f ∨ Clean start (replaced lh cache d) f → ∀ j,
        Committed start lh cache d (cut j (recoverFromLog start f) f) ∨
          Clean start (replaced lh cache d) (cut j (recoverFromLog start f) f) := by
      rintro f (hf | hf) j
      · have := hf.cut_install hn hout j
        rwa [← hf.head] at this ⊢
      · exact Or.inr (hf.cut_recover j)
    have hend : Clean start (replaced lh cache d) (crashAndRecover start lh cache d k ks) := by
      rcases restarts_inv _ _ ks _ (cut_commit_after hclean hn hout hw k hk) hrec with hf | hf
      · exact hf.exec_recover hn hout
      · exact hf.exec_recover
    exact ⟨hend.head, fun b hb => by rw [if_pos hk]; exact hend.home b hb⟩
  · have hend : Clean start d (crashAndRecover start lh cache d k ks) :=
      (restarts_inv _ _ ks _ (cut_commit_before hclean hn k (by omega)) fun f hf j => hf.cut_recover j).exec_recover
    exact ⟨hend.head, fun b hb => by rw [if_neg hk]; exact hend.home b hb⟩

/-- two blocks logged, the crash right after the header write, recovery cut off once after installing one block -/
theorem crash_atomic_two_blocks :
    crashAndRecover 2 [40, 41] (fun b _ => UInt8.ofNat b) (fun _ _ => 0) 3 [1] 41 = fun _ => 41 := by
  have h := (crash_atomic 2 [40, 41] (fun b _ => UInt8.ofNat b) (fun _ _ => 0) (by decide) (by decide) (by decide)
    (by decide +kernel) 3 [1]).2 41 (by decide +kernel)
  simpa [replaced] using h

end Xv6.Recovery
