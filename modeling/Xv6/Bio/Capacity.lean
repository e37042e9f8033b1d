/-
Is the buffer cache large enough for a commit (kernel/bio.c, kernel/log.c, kernel/param.h)?

Every logged block pins one of the NBUF buffers, and `commit` needs one more for the log block or the header. NBUF and
LOGBLOCKS are the same number, so a full log leaves none.

- `commit_has_buffers`: if operations release what they use, `commit` reaches "bget: no buffers" iff NBUF blocks are
  logged when it starts.
- `full_log_commit_panics`: three operations of MAXOPBLOCKS blocks each get there.
-/
import Xv6.Bio.Coherence

namespace Xv6.System

open Xv6.Core Bio
open GroupCommit (Panic)
open Recovery (InLog)

variable {start : ℕ} {s t : St}

/-- buffers are used inside an operation only, and all are released when it ends -/
def Released (s : St) : Act → Prop
  | .bget p _ => ∃ o ∈ s.group.ops, o.pid = p
  | .endOp p => ∀ r ∈ s.refs, r.1.pid ≠ p
  | _ => True

/-- the `end_op` that starts a commit finds fewer than NBUF blocks logged -/
def RoomToCommit (s : St) : Act → Prop
  | .endOp _ => s.group.log.outstanding = 1 → s.group.log.lh.length < NBUF
  | _ => True

instance (s : St) : (a : Act) → Decidable (Released s a)
  | .bget p _ => inferInstanceAs (Decidable (∃ o ∈ s.group.ops, o.pid = p))
  | .endOp p => inferInstanceAs (Decidable (∀ r ∈ s.refs, r.1.pid ≠ p))
  | .lock _ | .store _ _ | .logWrite _ | .unlock _ | .drop _ | .beginOp _ | .commit => inferInstanceAs (Decidable True)

instance (s : St) : (a : Act) → Decidable (RoomToCommit s a)
  | .endOp _ => inferInstanceAs (Decidable (s.group.log.outstanding = 1 → s.group.log.lh.length < NBUF))
  | .bget _ _ | .lock _ | .store _ _ | .logWrite _ | .unlock _ | .drop _ | .beginOp _ | .commit =>
    inferInstanceAs (Decidable True)

/-- the system under the discipline of the operations -/
def operations (start : ℕ) : Machine St Act Panic := (system start).restrict Released

instance (start : ℕ) (s : St) (a : Act) : Decidable ((operations start).legal s a) :=
  inferInstanceAs (Decidable (legal start s a ∧ Released s a))

/-! ## The discipline over runs -/

/-- every reference belongs to an operation in progress -/
def InOps (s : St) : Prop := ∀ r ∈ s.refs, ∃ o ∈ s.group.ops, o.pid = r.1.pid

theorem exec_refs {i : Instr} (hs : exec start s i = .ok t) :
    t.refs = s.refs ∧ t.group.ops = s.group.ops ∧ t.prog = s.prog := by
  cases i with
  | bget r b =>
    simp only [exec] at hs
    split at hs
    · cases hs
    · cases hs; exact ⟨rfl, rfl, rfl⟩
  | _ => cases hs; exact ⟨rfl, rfl, rfl⟩

theorem step_inOps {a : Act} (h : InOps s) (hl : (operations start).legal s a)
    (hs : step start s a = .ok t) : InOps t := by
  obtain ⟨hleg, hrel⟩ := hl
  cases a with
  | bget p b =>
    simp only [step] at hs
    split at hs
    · cases hs
    · cases hs
      intro r hr
      rcases List.mem_cons.1 hr with rfl | hr
      · exact hrel
      · exact h r hr
  | lock u =>
    cases hs
    intro r hr
    rcases List.mem_cons.1 hr with rfl | hr
    · exact h (u, .waiting) hleg.1
    · exact h r (List.mem_of_mem_erase hr)
  | store u d => cases hs; exact h
  | logWrite u =>
    simp only [step] at hs
    split at hs
    · rename_i l new g hlw hg
      cases hs
      simp only [GroupCommit.step, hlw] at hg
      cases hg
      intro r hr
      obtain ⟨o, ho, hp⟩ := h r hr
      refine ⟨_, List.mem_map.2 ⟨o, ho, rfl⟩, ?_⟩
      split_ifs
      · rw [GroupCommit.add_pid]; exact hp
      · exact hp
    · cases hs
    · cases hs
  | unlock u =>
    cases hs
    intro r hr
    rcases List.mem_cons.1 hr with rfl | hr
    · exact h (u, .held) hleg.1
    · exact h r (List.mem_of_mem_erase hr)
  | drop u =>
    cases hs
    intro r hr
    exact h r (List.mem_of_mem_erase hr)
  | beginOp p =>
    simp only [step] at hs
    split at hs
    · cases hs
    rename_i g hg
    cases hs
    intro r hr
    obtain ⟨o, ho, hp⟩ := h r hr
    simp only [GroupCommit.step] at hg
    split at hg
    · cases hg; exact ⟨o, ho, hp⟩
    · cases hg; exact ⟨o, List.mem_append_left _ ho, hp⟩
  | endOp p =>
    simp only [step] at hs
    split at hs
    · cases hs
    rename_i g hg
    cases hs
    intro r hr
    obtain ⟨o, ho, hp⟩ := h r hr
    simp only [GroupCommit.step] at hg
    split at hg
    · cases hg
    · cases hg
      exact ⟨o, List.mem_filter.2 ⟨ho, by simpa [hp] using hrel r hr⟩, hp⟩
  | commit =>
    simp only [step] at hs
    split at hs
    · cases hs; exact h
    · rename_i i is _
      obtain ⟨hr, ho, -⟩ := exec_refs hs
      intro r hm
      rw [hr] at hm; rw [ho]; exact h r hm

theorem reach_inOps {s0 : St} (h0 : Boot s0) (h : (operations start).Reach s0 s) : InOps s :=
  h.inv InOps (by simp [InOps, h0.refs]) fun _ _ _ hs hl ht => step_inOps hs hl ht

/-- during a commit only `commit` uses buffers -/
theorem refs_nil (h : Inv start s) (hops : InOps s) (hc : s.group.committer.isSome) : s.refs = [] := by
  rw [List.eq_nil_iff_forall_not_mem]
  intro r hr
  obtain ⟨o, ho, -⟩ := hops r hr
  rw [h.group.alone hc] at ho; simp at ho

/-! ## Main result -/

/-- a step of `commit` finds a buffer if fewer than NBUF are pinned -/
theorem commit_ok (h : Inv start s) (hops : InOps s) (hroom : s.pins.length < NBUF) :
    step start s .commit ≠ .error .noBuffers := by
  intro he
  simp only [step] at he
  split at he
  · cases he
  rename_i i is hp
  cases i with
  | bget r b =>
    simp only [exec] at he
    split at he
    · rename_i e hg
      obtain ⟨-, hmiss, hfull⟩ := (bget_error_iff _ _ _).1 hg
      have hcom := h.committing hp
      obtain ⟨A, hA, hm⟩ := h.check
      rw [hp] at hA
      obtain ⟨-, hfree | hb, -⟩ := hA
      · have huses : uses s.refs s.reg = [] := by
          have hnone : ∀ r, s.reg r = none := fun r => by have := hm r; rwa [hfree r] at this
          simp [uses, refs_nil h hops hcom, hnone]
        have hc := h.cache
        rw [huses] at hc
        have := hc.all_pinned hfull
        omega
      · have hpin : b ∈ s.pins := by rw [St.pins, if_pos hcom, hp]; exact hb
        obtain ⟨j, hj, hjb, -⟩ := h.cache.pinned b hpin
        exact hmiss j hj hjb
    · cases he
  | _ => cases he

/-- with as many blocks logged as there are buffers, the first `bread` of `commit` finds none -/
theorem commit_error (h : Inv start s) (hfull : s.group.log.lh.length = NBUF) {p : ℕ}
    (hcom : s.group.committer = some (p, false)) (hprog : s.prog = commitProg start s.group.log.lh) :
    legal start s .commit ∧ step start s .commit = .error .noBuffers := by
  have hpos : s.group.log.lh.length > 0 := by rw [hfull]; decide
  obtain ⟨b, lh, hlh⟩ : ∃ b lh, s.group.log.lh = b :: lh := by
    cases hl : s.group.log.lh with
    | nil => rw [hl] at hpos; simp at hpos
    | cons b lh => exact ⟨b, lh, rfl⟩
  obtain ⟨is, his⟩ : ∃ is, s.prog = .bget .a (start + 0 + 1) :: is := by
    rw [hprog, commitProg, if_pos hpos, hlh]; exact ⟨_, rfl⟩
  have hpins : s.pins = s.group.log.lh := by simp [St.pins, hcom, hprog, unpins_commitProg]
  have hall : ∀ i ∈ s.cache.lru, (s.cache.buf i).dev = ROOTDEV ∧ (s.cache.buf i).blockno ∈ s.pins :=
    fun i hi => h.cache.holds_pinned (by rw [hpins, hfull]) hi
  have herr : Bio.bget s.cache (start + 0 + 1) = .error .noBuffers := by
    refine (bget_error_iff _ _ _).2 ⟨rfl, fun i hi hb => ?_, fun i hi => ?_⟩
    · -- the log block is not one of the pinned ones
      have hin : InLog start (start + 0 + 1) := ⟨by omega, by simp [LOGBLOCKS, MAXOPBLOCKS]⟩
      exact h.outside _ (hb.2 ▸ (hall i hi).2) hin
    · exact h.cache.pinned_used hi ⟨(hall i hi).1, rfl⟩ (hall i hi).2
  refine ⟨⟨by simp [his], by simp [his]⟩, ?_⟩
  simp only [step, his, exec, herr]

/-- the `end_op` of the only operation in progress starts the commit -/
theorem endOp_last (h : Inv start s) {p : ℕ} (hl : legal start s (.endOp p)) (h1 : s.group.log.outstanding = 1) :
    ∃ t, step start s (.endOp p) = .ok t ∧ t.group.committer = some (p, false) ∧
      t.group.log.lh = s.group.log.lh ∧ t.prog = commitProg start s.group.log.lh := by
  obtain ⟨o, ho, -⟩ := id hl
  have hc : s.group.log.committing = false := by
    rw [h.group.committing, h.committer_none ho]; rfl
  have hend : GroupCommit.endOp s.group.log =
      .ok ({ s.group.log with outstanding := s.group.log.outstanding - 1, committing := true }, true) := by
    simp [GroupCommit.endOp, hc, h1]
  simp only [step, GroupCommit.step, hend]
  exact ⟨_, rfl, rfl, rfl, rfl⟩

theorem exec_pins {i : Instr} {is : List Instr} (h : Inv start s) (hp : s.prog = i :: is)
    (hs : exec start { s with prog := is } i = .ok t) (hc : t.group.committer.isSome) :
    t.pins.length ≤ s.pins.length := by
  obtain ⟨-, -, hprog⟩ := exec_refs hs
  have hprog' : t.prog = is := hprog
  rw [St.pins, if_pos hc, hprog', St.pins, if_pos (h.committing hp), hp]
  exact ((List.sublist_cons_self i is).filterMap _).length_le

/-- a commit in progress leaves a buffer free -/
def Room (s : St) : Prop := s.group.committer.isSome → s.pins.length < NBUF

theorem step_room {a : Act} (h : Inv start s) (hr : Room s) (hl : legal start s a) (hC : RoomToCommit s a)
    (hs : step start s a = .ok t) : Room t := by
  cases a with
  | commit =>
    simp only [step] at hs
    split at hs
    · cases hs; exact hr
    · rename_i i is hp
      intro hc
      have := exec_pins h hp hs hc
      have := hr (h.committing hp)
      omega
  | endOp p =>
    obtain ⟨o, ho, -⟩ := id hl
    have hcom := h.committer_none ho
    intro hc
    by_cases h1 : s.group.log.outstanding = 1
    · obtain ⟨t', ht', hct, -, hpt⟩ := endOp_last h hl h1
      rw [hs] at ht'; cases ht'
      rw [St.pins, if_pos hc, hpt, unpins_commitProg]
      exact hC h1
    simp only [step] at hs
    split at hs
    · cases hs
    rename_i g hg
    cases hs
    simp only [GroupCommit.step] at hg
    split at hg
    · cases hg
    · rename_i l c hend
      obtain ⟨-, ⟨h1', -⟩ | ⟨-, -, rfl⟩⟩ := GroupCommit.endOp_ok hend
      · exact absurd h1' h1
      · cases hg; simp [hcom] at hc
  | logWrite u =>
    obtain ⟨-, ⟨o, ho, -⟩, -⟩ := id hl
    have hcom := h.committer_none ho
    intro hc
    simp only [step] at hs
    split at hs
    · rename_i l new g hlw hg
      cases hs
      simp only [GroupCommit.step, hlw] at hg
      cases hg
      simp [hcom] at hc
    · cases hs
    · cases hs
  | beginOp p =>
    simp only [step] at hs
    split at hs
    · cases hs
    rename_i g hg
    cases hs
    simp only [GroupCommit.step] at hg
    split at hg
    · cases hg; exact hr
    rename_i l hb
    obtain ⟨hnc, -, -⟩ := GroupCommit.beginOp_some hb
    cases hg
    intro hc
    have := h.group.committing
    rw [hnc] at this
    have hc' : s.group.committer.isSome := hc
    rw [← this] at hc'; cases hc'
  | bget p b =>
    simp only [step] at hs
    split at hs
    · cases hs
    · cases hs; exact hr
  | lock u | store u d | unlock u | drop u => cases hs; exact hr

/-- **Buffers for a commit.** Operations that use buffers only while they are in progress:
- as long as every commit starts with fewer than NBUF blocks logged, no step of any `commit` reaches
  "bget: no buffers";
- an `end_op` that starts a commit with NBUF blocks logged is followed by that panic, in the first `bread` of
  `write_log`. -/
theorem commit_has_buffers (start : ℕ) (s0 : St) (h0 : Boot s0) :
    (∀ s, ((operations start).restrict RoomToCommit).Reach s0 s →
      (operations start).step s .commit ≠ .error .noBuffers) ∧
    ∀ s p, (operations start).Reach s0 s → (operations start).legal s (.endOp p) → ¬ RoomToCommit s (.endOp p) →
      ∃ t, (operations start).step s (.endOp p) = .ok t ∧ (operations start).legal t .commit ∧
        (operations start).step t .commit = .error .noBuffers := by
  constructor
  · intro s h
    have hinv : Inv start s := reach_inv h0 h.of_restrict.of_restrict
    have hops := reach_inOps h0 h.of_restrict
    have hroom : Inv start s ∧ Room s := h.inv (fun s => Inv start s ∧ Room s)
      ⟨inv_boot h0, fun hc => by rw [h0.group] at hc; simp [GroupCommit.init] at hc⟩
      fun s a t hi hl hs => ⟨step_inv s a t hi.1 hl.1.1 hs, step_room hi.1 hi.2 hl.1.1 hl.2 hs⟩
    intro he
    by_cases hc : s.group.committer.isSome
    · exact commit_ok hinv hops (hroom.2 hc) he
    · have hp := hinv.idle (by simpa using hc)
      simp only [operations, Machine.restrict, system, step, hp] at he
      cases he
  · intro s p h hl hC
    have hinv : Inv start s := reach_inv h0 h.of_restrict
    simp only [RoomToCommit, Classical.not_imp] at hC
    obtain ⟨t, ht, hcom, hlh, hprog⟩ := endOp_last hinv hl.1 hC.1
    have hle := hinv.group.space
    have hfull : t.group.log.lh.length = NBUF := by
      have hN : NBUF = LOGBLOCKS := rfl
      rw [hlh]; omega
    obtain ⟨hleg, herr⟩ := commit_error (step_inv s (.endOp p) t hinv hl.1 ht) hfull hcom (by rw [hprog, hlh])
    exact ⟨t, ht, ⟨hleg, trivial⟩, herr⟩

instance (start : ℕ) (s : St) (a : Act) : Decidable (((operations start).restrict RoomToCommit).legal s a) :=
  inferInstanceAs (Decidable ((operations start).legal s a ∧ RoomToCommit s a))

/-- an operation that logs one block starts a commit that finds its buffers -/
theorem commit_has_buffers_one_block :
    ∃ s, ((operations 2).restrict RoomToCommit).Reach (binit fun _ _ => 0) s ∧ s.prog.length = 31 ∧
      (operations 2).step s .commit ≠ .error .noBuffers := by
  obtain ⟨s, hs, hp⟩ := Machine.exists_reach_of_steps (M := (operations 2).restrict RoomToCommit)
    (s := binit fun _ _ => 0)
    (l := [.beginOp 1, .bget 1 100, .lock ⟨1, 0, 100⟩, .logWrite ⟨1, 0, 100⟩, .unlock ⟨1, 0, 100⟩, .drop ⟨1, 0, 100⟩,
      .endOp 1]) (p := fun s => decide (s.prog.length = 31)) (by decide)
  exact ⟨s, hs, by simpa using hp, (commit_has_buffers 2 _ (boot_binit _)).1 s hs⟩

/-- three operations log MAXOPBLOCKS distinct blocks each and release their buffers; two of them end -/
def fillCache : List Act :=
  [.beginOp 1, .beginOp 2, .beginOp 3] ++
    (List.range 30).flatMap (fun k =>
      let u : Use := ⟨k / 10 + 1, k, 100 + k⟩
      [.bget u.pid u.block, .lock u, .logWrite u, .unlock u, .drop u]) ++
    [.endOp 1, .endOp 2]

/-- **A full log cannot be committed.** The last of three operations that have logged ten blocks each ends, and the
commit finds all thirty buffers pinned. -/
theorem full_log_commit_panics :
    ∃ s, (operations 2).Reach (binit fun _ _ => 0) s ∧ (operations 2).legal s .commit ∧
      (operations 2).step s .commit = .error .noBuffers := by
  obtain ⟨s, hs, hp⟩ := Machine.exists_reach_of_steps (M := operations 2) (s := binit fun _ _ => 0) (l := fillCache)
    (p := fun s => decide ((operations 2).legal s (.endOp 3)) && decide (s.group.log.outstanding = 1) &&
      decide (s.group.log.lh.length = NBUF)) (by decide +kernel)
  simp only [Bool.and_eq_true, decide_eq_true_eq] at hp
  obtain ⟨⟨hl, h1⟩, hfull⟩ := hp
  have hinv : Inv 2 s := reach_inv (boot_binit _) hs.of_restrict
  obtain ⟨t, ht, hcom, hlh, hprog⟩ := endOp_last hinv hl.1 h1
  have hinv' : Inv 2 t := step_inv s (.endOp 3) t hinv hl.1 ht
  obtain ⟨hleg, herr⟩ := commit_error hinv' (by rw [hlh, hfull]) hcom (by rw [hprog, hlh])
  exact ⟨t, hs.step hl ht, ⟨hleg, trivial⟩, herr⟩

end Xv6.System
