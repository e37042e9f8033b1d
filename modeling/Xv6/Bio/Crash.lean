/-
A crash at any moment (kernel/bio.c, kernel/log.c): any number of processes use buffers and run operations, one of them
commits, and the power fails between two steps.

- `Stage`: whether the header of the commit in progress is on the disk.
- `crash_recovers`: recovery leaves what had been logged at a moment with no operation in progress.
-/
import Xv6.Bio.Coherence

namespace Xv6.Recovery

open Xv6.Core

variable {start : ℕ} {lh : List ℕ} {c : ℕ → Block} {e d : Disk}

/-- recovery attempts that are cut off, and one that completes -/
def recovered (start : ℕ) (ks : List ℕ) (d : Disk) : Disk :=
  let f := restarts (recoverFromLog start) ks d
  exec (recoverFromLog start f) f

theorem clean_recovered (h : Committed start lh c e d ∨ Clean start (replaced lh c e) d)
    (hn : lh.length ≤ LOGBLOCKS) (hout : ∀ b ∈ lh, ¬ InLog start b) (ks : List ℕ) :
    Clean start (replaced lh c e) (recovered start ks d) := by
  have hf := restarts_inv (fun d => Committed start lh c e d ∨ Clean start (replaced lh c e) d)
    (recoverFromLog start) ks d h fun f hf k => by
      rcases hf with hf | hf
      · have := hf.cut_install hn hout k
        rwa [← hf.head] at this ⊢
      · exact .inr (hf.cut_recover k)
  exact hf.elim (·.exec_recover hn hout) (·.exec_recover)

end Xv6.Recovery

namespace Xv6.System

open Xv6.Core Bio
open Recovery (InLog Clean recovered clean_recovered replaced)

variable {start : ℕ} {s0 s t u : St} {i : Instr} {is q : List Instr} {lh : List ℕ} {a : Act}

/-! ## Where a commit is -/

/-- from the first `write_head` to the second -/
def installing (start : ℕ) (lh : List ℕ) : List Instr :=
  .unlock .a :: .drop .a :: (loop (installIter start) 0 lh ++ [.clear, .bget .a start, .lock .a])

/-- after the second `write_head` -/
def ending : List Instr := [.unlock .a, .drop .a, .finish]

/-- steps before the first `write_head` -/
def Instr.early : Instr → Bool
  | .head | .clear | .finish | .fromLog _ _ => false
  | _ => true

/-- steps that write nothing to the log -/
def Instr.late : Instr → Bool
  | .head | .toLog _ _ => false
  | _ => true

theorem loop_all {body : ℕ → ℕ → List Instr} (p : Instr → Bool) (h : ∀ k b, (body k b).all p = true) (k : ℕ)
    (lh : List ℕ) : (loop body k lh).all p = true := by
  induction lh generalizing k with
  | nil => rfl
  | cons b lh ih => rw [loop, List.all_append, h, ih, Bool.and_self]

theorem late_installing (start : ℕ) (lh : List ℕ) : (installing start lh).all Instr.late = true := by
  have hloop : (loop (installIter start) 0 lh).all Instr.late = true := loop_all _ (fun _ _ => rfl) 0 lh
  simp [installing, Instr.late, hloop, -List.all_eq_true]

theorem fromLog_mem_loop (start : ℕ) {j k : ℕ} (hk : k < lh.length) :
    .fromLog (j + k) lh[k] ∈ loop (installIter start) j lh := by
  induction lh generalizing j k with
  | nil => cases hk
  | cons b lh ih =>
    cases k with
    | zero => exact List.mem_append_left _ (by simp [installIter])
    | succ k =>
      have := ih (j := j + 1) (k := k) (by simpa using hk)
      rw [show j + 1 + k = j + (k + 1) by omega] at this
      exact List.mem_append_right _ this

/-! ## What a step of commit writes -/

/-- how the step changes the disk and what was last written; installing a block does not concern `last` -/
def Writes (start : ℕ) (s t : St) : Instr → Prop
  | .head => ∃ d, t.disk = s.disk.set start (setHead d s.group.log.lh) ∧
      t.last = s.last.set start (setHead d s.group.log.lh)
  | .toLog k _ => k < LOGBLOCKS ∧ ∃ d, t.disk = s.disk.set (start + k + 1) d
  | .fromLog _ _ => t.last = s.last
  | _ => t.disk = s.disk ∧ t.last = s.last

theorem exec_writes (h : Inv start s) (hp : s.prog = i :: is) (hs : exec start { s with prog := is } i = .ok t) :
    Writes start s t i ∧ t.prog = is ∧ t.group.ops = s.group.ops ∧ (i ≠ .clear → i ≠ .finish → t.group = s.group) := by
  obtain ⟨A, hA, hm⟩ := h.check_prog hp
  cases i with
  | bget r b =>
    simp only [exec] at hs
    split at hs
    · cases hs
    · cases hs; exact ⟨⟨rfl, rfl⟩, rfl, rfl, fun _ _ => rfl⟩
  | head =>
    obtain ⟨j, hj, hb⟩ := (hm .a).some hA.1
    simp only [exec] at hs
    rw [bwrite_log (s := { s with prog := is }) hj hb (Recovery.inLog_head start)] at hs
    cases hs
    exact ⟨⟨_, rfl, rfl⟩, rfl, rfl, fun _ _ => rfl⟩
  | toLog k b =>
    obtain ⟨ha, -, hk, -⟩ := hA
    obtain ⟨j, hj, hb⟩ := (hm .a).some ha
    simp only [exec] at hs
    rw [bwrite_log (s := { s with prog := is }) hj hb ⟨by omega, by omega⟩] at hs
    cases hs
    exact ⟨⟨hk, _, rfl⟩, rfl, rfl, fun _ _ => rfl⟩
  | fromLog k b =>
    obtain ⟨j, hj, hb⟩ := (hm .b).some hA.2.1
    have hout := h.outside_prog hp ((h.cache_prog hp).stalePinned b List.mem_cons_self)
    simp only [exec] at hs
    rw [bwrite_home (s := { s with prog := is }) hj hb hout] at hs
    cases hs
    exact ⟨rfl, rfl, rfl, fun _ _ => rfl⟩
  | clear | finish => cases hs; exact ⟨⟨rfl, rfl⟩, rfl, rfl, by simp⟩
  | lock r | unpin b | unlock r | drop r => cases hs; exact ⟨⟨rfl, rfl⟩, rfl, rfl, fun _ _ => rfl⟩

/-! ## Stages -/

/-- the block numbers fit the 32-bit words of the header -/
def fits (s : St) : Act → Bool
  | .endOp _ => s.group.log.lh.all (· < 2 ^ 32)
  | _ => true

/-- u was a moment with no operation in progress, and no commit has ended since -/
structure Moment (start : ℕ) (s0 u s : St) : Prop where
  before : (system start).Reach s0 u
  after : (system start).Reach u s
  ops : u.group.ops = []
  commits : u.group.commits = s.group.commits

/-- the first `write_head` is still to come, or the second has been -/
def Outside (start : ℕ) (s : St) : Prop :=
  (∃ q, s.prog = q ++ .head :: (installing start s.group.log.lh ++ .head :: ending) ∧ q.all Instr.early = true ∧
    ∀ b ∈ s.group.log.lh, b < 2 ^ 32) ∨ s.prog.all (fun i => i.late && i.early || i = .clear || i = .finish) = true

/-- between them: the header on the disk lists lh, and what is logged is in the log -/
structure Inside (start : ℕ) (lh : List ℕ) (q : List Instr) (s : St) : Prop where
  prog : s.prog = q ++ .head :: ending
  late : q.all Instr.late = true
  sub : ∀ b ∈ installs q, b ∈ lh
  len : lh.length ≤ LOGBLOCKS
  out : ∀ b ∈ lh, ¬ InLog start b
  head : readHead (s.last start) = lh
  logged : ∀ j, ∀ h : j < lh.length, s.last (start + j + 1) = s.last lh[j]

/-- what recovery would find: the content of a moment, or the header of the commit in progress -/
def Stage (start : ℕ) (s0 s : St) : Prop :=
  (∃ u, Moment start s0 u s ∧ Clean start u.last s.disk ∧ Outside start s) ∨ ∃ lh q, Inside start lh q s

theorem Moment.step (h : Moment start s0 u s) (hr : (system start).Reach s t)
    (hc : t.group.commits = s.group.commits) : Moment start s0 u t :=
  ⟨h.before, h.after.trans hr, h.ops, h.commits.trans hc.symm⟩

theorem Stage.keep (h : Stage start s0 s) (hr : (system start).Reach s t) (hd : t.disk = s.disk) (hl : t.last = s.last)
    (hp : t.prog = s.prog) (hlh : t.group.log.lh = s.group.log.lh) (hc : t.group.commits = s.group.commits) :
    Stage start s0 t := by
  rcases h with ⟨u, hu, hd', hb⟩ | ⟨lh, q, h⟩
  · refine .inl ⟨u, hu.step hr hc, hd ▸ hd', ?_⟩
    unfold Outside
    rwa [hp, hlh]
  · exact .inr ⟨lh, q, hp ▸ h.prog, h.late, h.sub, h.len, h.out, hl ▸ h.head, hl ▸ h.logged⟩

/-- without a commit in progress there is nothing to install -/
theorem Stage.idle (h : Stage start s0 s) (hp : s.prog = []) :
    ∃ u, Moment start s0 u s ∧ Clean start u.last s.disk := by
  rcases h with ⟨u, hu, hd, -⟩ | ⟨lh, q, h⟩
  · exact ⟨u, hu, hd⟩
  · have := h.prog
    simp [hp] at this

/-- the first `write_head` -/
theorem inside_head (h : Inv start s) (hp : s.prog = .head :: (installing start s.group.log.lh ++ .head :: ending))
    (hw : ∀ b ∈ s.group.log.lh, b < 2 ^ 32)
    (hs : exec start { s with prog := installing start s.group.log.lh ++ .head :: ending } .head = .ok t) :
    Inside start s.group.log.lh (installing start s.group.log.lh) t := by
  obtain ⟨⟨d, -, hl⟩, hprog, -⟩ := exec_writes h hp hs
  have hn : s.group.log.lh.length ≤ LOGBLOCKS := by have := h.group.space; omega
  have hmem : ∀ j, ∀ hj : j < s.group.log.lh.length, .fromLog j s.group.log.lh[j] ∈ s.prog := by
    intro j hj
    have := fromLog_mem_loop start (j := 0) hj
    rw [Nat.zero_add] at this
    simp [hp, installing, this]
  have hout : ∀ b ∈ s.group.log.lh, ¬ InLog start b := by
    intro b hb
    obtain ⟨j, hj, rfl⟩ := List.getElem_of_mem hb
    exact h.outside_prog hp ((h.cache_prog hp).stalePinned _ (mem_installs.mpr ⟨j, hp ▸ hmem j hj⟩))
  refine ⟨hprog, late_installing _ _, fun b hb => ?_, hn, hout, ?_, fun j hj => ?_⟩
  · obtain ⟨k, hk⟩ := mem_installs.mp hb
    rw [← installs_install start 0 s.group.log.lh]
    exact mem_installs.mpr ⟨k, by simpa [installing] using hk⟩
  · rw [hl, Store.set_self]
    exact readHead_setHead d _ hn hw
  · have hne : s.group.log.lh[j] ≠ start := fun he => hout _ (List.getElem_mem hj) (he ▸ Recovery.inLog_head _)
    rw [hl, Store.set_ne _ _ (by omega), Store.set_ne _ _ hne]
    refine (h.logged _ _ (hmem j hj)).resolve_left fun hm => ?_
    -- everything has been copied to the log by now
    rw [hp] at hm
    rcases List.mem_append.mp ((List.mem_cons.mp hm).resolve_left (by simp)) with hm | hm
    · exact absurd (List.all_eq_true.mp (late_installing _ _) _ hm) (by simp [Instr.late])
    · simp [ending] at hm

/-- when all blocks are installed and the header is empty, the present is such a moment -/
theorem stage_now (h : Inv start s) (hp : s.prog = i :: is) (h0 : (system start).Reach s0 t)
    (hi : ∀ k b, .fromLog k b ∉ i :: is) (ho : t.group.ops = s.group.ops) (hz : headN (t.disk start) = 0)
    (hd : ∀ b, ¬ InLog start b → t.disk b = s.disk b ∧ t.last b = s.last b) (hb : Outside start t) :
    Stage start s0 t := by
  refine .inl ⟨t, ⟨h0, .refl t, ho.trans (h.group.alone (h.committing hp)), rfl⟩, ⟨hz, fun b hout => ?_⟩, hb⟩
  rw [(hd b hout).1, (hd b hout).2]
  refine (h.cache_prog hp).fresh b fun hm => ?_
  obtain ⟨k, hk⟩ := mem_installs.mp hm
  exact hi k b hk

theorem stage_outside (h : Inv start s) (hu : Moment start s0 u s) (hc : Clean start u.last s.disk)
    (hb : Outside start s) (hp : s.prog = i :: is) (hr : (system start).Reach s t)
    (hs : exec start { s with prog := is } i = .ok t) : Stage start s0 t := by
  obtain ⟨hw, hp', ho, hg⟩ := exec_writes h hp hs
  rcases hb with ⟨- | ⟨j, q⟩, hq, he, hlt⟩ | hq
  · obtain ⟨rfl, rfl⟩ := List.cons.inj (hp.symm.trans hq)
    exact .inr ⟨_, _, inside_head h hp hlt hs⟩
  · obtain ⟨rfl, rfl⟩ := List.cons.inj (hp.symm.trans hq)
    rw [List.all_cons, Bool.and_eq_true] at he
    have hg : t.group = s.group := hg (by rintro rfl; cases he.1) (by rintro rfl; cases he.1)
    refine .inl ⟨u, hu.step hr (by rw [hg]), ?_, .inl ⟨q, hg ▸ hp', he.2, hg ▸ hlt⟩⟩
    cases i with
    | toLog k b =>
      obtain ⟨hk, d, hd⟩ := hw
      refine ⟨?_, fun b hout => ?_⟩
      · rw [hd, Store.set_ne _ _ (by omega)]
        exact hc.head
      · rw [hd, Store.set_ne]
        · exact hc.home b hout
        · rintro rfl
          exact hout ⟨by omega, by omega⟩
    | head | clear | finish | fromLog k b => cases he.1
    | bget r b | lock r | unpin b | unlock r | drop r => exact hw.1 ▸ hc
  · rw [hp, List.all_cons, Bool.and_eq_true] at hq
    have hw : t.disk = s.disk ∧ t.last = s.last := by cases i <;> first | exact hw | cases hq.1
    refine stage_now h hp ((hu.before.trans hu.after).trans hr) (fun k b hm => ?_) ho (hw.1 ▸ hc.head)
      (fun b _ => ⟨congrFun hw.1 b, congrFun hw.2 b⟩) (.inr (hp' ▸ hq.2))
    rcases List.mem_cons.mp hm with rfl | hm
    · cases hq.1
    · exact absurd (List.all_eq_true.mp hq.2 _ hm) (by simp [Instr.early])

theorem stage_inside (h : Inv start s) (ha : Inside start lh q s) (hp : s.prog = i :: is)
    (h0 : (system start).Reach s0 t) (hs : exec start { s with prog := is } i = .ok t) : Stage start s0 t := by
  obtain ⟨hw, hp', ho, -⟩ := exec_writes h hp hs
  rcases q with - | ⟨j, q⟩
  · obtain ⟨rfl, rfl⟩ := List.cons.inj (hp.symm.trans ha.prog)
    -- the second `write_head`: the log is cleared in memory
    obtain ⟨⟨p, cl⟩, hcom⟩ := Option.isSome_iff_exists.mp (h.committing hp)
    have hcl : cl = true := by
      by_contra hne
      have := (h.cleared _ hcom).mp (by simpa using hne)
      simp [hp, ending] at this
    obtain ⟨d, hd, hl⟩ := hw
    rw [h.group.cleared p (hcl ▸ hcom)] at hd hl
    refine stage_now h hp h0 (by simp [ending]) ho ?_ (fun b hb => ?_) (.inr (hp' ▸ rfl))
    · rw [hd, Store.set_self]
      exact headN_clear d
    · have hne : b ≠ start := fun he => hb (he ▸ Recovery.inLog_head start)
      rw [hd, hl, Store.set_ne _ _ hne, Store.set_ne _ _ hne]
      exact ⟨rfl, rfl⟩
  · obtain ⟨rfl, rfl⟩ := List.cons.inj (hp.symm.trans ha.prog)
    have hlate := ha.late
    rw [List.all_cons, Bool.and_eq_true] at hlate
    have hl : t.last = s.last := by cases i <;> first | exact hw | exact hw.2 | cases hlate.1
    refine .inr ⟨lh, q, hp', hlate.2, fun b hb => ha.sub b ?_, ha.len, ha.out, hl ▸ ha.head, hl ▸ ha.logged⟩
    exact ((List.sublist_cons_self i q).filterMap _).subset hb

/-- what the operations do to the log -/
theorem group_same {g g' : GroupCommit.St} {b : GroupCommit.Act} (hg : GroupCommit.step g b = .ok g')
    (hb : ∀ p, b ≠ .commit p) : g'.commits = g.commits ∧ ((∀ p x, b ≠ .logWrite p x) → g'.log.lh = g.log.lh) := by
  cases b with
  | commit p => exact absurd rfl (hb p)
  | finish p => cases hg; exact ⟨rfl, fun _ => rfl⟩
  | logWrite p x =>
    simp only [GroupCommit.step] at hg
    split at hg <;> cases hg
    exact ⟨rfl, fun h => absurd rfl (h p x)⟩
  | beginOp p =>
    simp only [GroupCommit.step] at hg
    split at hg <;> cases hg
    · exact ⟨rfl, fun _ => rfl⟩
    · rename_i l hl
      obtain ⟨-, -, rfl⟩ := GroupCommit.beginOp_some hl
      exact ⟨rfl, fun _ => rfl⟩
  | endOp p =>
    simp only [GroupCommit.step] at hg
    split at hg <;> cases hg
    rename_i l c hl
    obtain ⟨-, ⟨-, rfl, -⟩ | ⟨-, rfl, -⟩⟩ := GroupCommit.endOp_ok hl <;> exact ⟨rfl, fun _ => rfl⟩

theorem stage_step (h : Inv start s) (hst : Stage start s0 s) (h0 : (system start).Reach s0 s)
    (hl : legal start s a) (hf : fits s a = true) (hs : step start s a = .ok t) : Stage start s0 t := by
  have hr : (system start).Reach s t := .single hl hs
  cases a with
  | bget p b =>
    simp only [step] at hs
    split at hs <;> cases hs
    exact hst.keep hr rfl rfl rfl rfl rfl
  | lock u | store u d | unlock u | drop u => cases hs; exact hst.keep hr rfl rfl rfl rfl rfl
  | beginOp p =>
    simp only [step] at hs
    split at hs <;> cases hs
    rename_i g hg
    exact hst.keep hr rfl rfl rfl ((group_same hg (by simp)).2 (by simp)) (group_same hg (by simp)).1
  | logWrite u =>
    obtain ⟨o, ho, -⟩ := hl.2.1
    have hp := h.idle (h.committer_none ho)
    obtain ⟨v, hv, hd⟩ := hst.idle hp
    simp only [step] at hs
    split at hs <;> cases hs
    rename_i hg
    exact .inl ⟨v, hv.step hr (group_same hg (by simp)).1, hd, .inr (by simp [hp])⟩
  | endOp p =>
    obtain ⟨o, ho, -⟩ := hl
    have hp := h.idle (h.committer_none ho)
    obtain ⟨v, hv, hd⟩ := hst.idle hp
    simp only [step] at hs
    split at hs <;> cases hs
    rename_i g hg
    refine .inl ⟨v, hv.step hr (group_same hg (by simp)).1, hd, ?_⟩
    unfold Outside
    dsimp only
    split_ifs with hgc
    · by_cases hn : g.log.lh.length > 0
      · refine .inl ⟨loop (writeLogIter start) 0 g.log.lh ++ [.bget .a start, .lock .a], ?_, ?_, fun b hb => ?_⟩
        · simp [commitProg, hn, writeHead, installing, ending]
        · rw [List.all_append, loop_all _ (fun _ _ => rfl)]
          rfl
        · rw [(group_same hg (by simp)).2 (by simp)] at hb
          simpa using List.all_eq_true.mp hf b hb
      · exact .inr (by simp [commitProg, hn])
    · exact .inr (by simp [hp])
  | commit =>
    simp only [step] at hs
    split at hs
    · cases hs; exact hst
    · rename_i i is hp
      rcases hst with ⟨u, hu, hd, hb⟩ | ⟨lh, q, ha⟩
      · exact stage_outside h hu hd hb hp hr hs
      · exact stage_inside h ha hp (h0.trans hr) hs

/-- **Operations survive a crash whole or not at all.** Processes run operations in any interleaving, and the power
fails after any step, also in the middle of a commit. However often recovery is cut off, the one that completes leaves
an empty header, and outside the log exactly what had been logged at a moment u of the run: no operation was in progress
then, and no commit has ended since. -/
theorem crash_recovers (hb : Boot s0) (hz : headN (s0.disk start) = 0)
    (h : ((system start).restrict fun s a => fits s a = true).Reach s0 s) (ks : List ℕ) :
    headN (recovered start ks s.disk start) = 0 ∧ ∃ u, Moment start s0 u s ∧
      ∀ b, ¬ InLog start b → recovered start ks s.disk b = u.last b := by
  have hi := reach_inv hb h.of_restrict
  have hst : Stage start s0 s := by
    refine (h.inv (fun s => (system start).Reach s0 s ∧ Stage start s0 s) ⟨.refl _, .inl ⟨s0, ⟨.refl _, .refl _, ?_,
      rfl⟩, ⟨hz, fun b _ => by rw [hb.last]⟩, .inr (by simp [hb.prog])⟩⟩ fun s a t hi hl hs =>
      ⟨hi.1.step hl.1 hs, stage_step (reach_inv hb hi.1) hi.2 hi.1 hl.1 hl.2 hs⟩).2
    rw [hb.group]
    rfl
  rcases hst with ⟨u, hu, hc, -⟩ | ⟨lh, q, ha⟩
  · rw [← Recovery.replaced_nil u.last u.last] at hc
    have hc := clean_recovered (.inr hc) (by simp) (by simp) ks
    rw [Recovery.replaced_nil] at hc
    exact ⟨hc.head, u, hu, hc.home⟩
  · obtain ⟨i, is, hp⟩ := List.exists_cons_of_ne_nil (show s.prog ≠ [] by simp [ha.prog])
    have hstale : ∀ b ∈ s.stale, b ∈ lh := by
      intro b hm
      rw [St.stale, if_pos (hi.committing hp), ha.prog, installs_append] at hm
      exact ha.sub b (by simpa [installs, ending] using hm)
    have hfresh : ∀ b, InLog start b → s.disk b = s.last b := fun b hin =>
      hi.cache.fresh b fun hm => ha.out b (hstale b hm) hin
    have hc := clean_recovered (e := s.disk) (c := s.last) (.inl ⟨(congrArg readHead (hfresh _
      (Recovery.inLog_head start))).trans ha.head, fun j hj => (hfresh _ (Recovery.inLog_data ha.len hj)).trans
      (ha.logged j hj), fun _ _ => .inl rfl⟩) ha.len ha.out ks
    refine ⟨hc.head, s, ⟨h.of_restrict, .refl s, hi.group.alone (hi.committing hp), rfl⟩, fun b hout => ?_⟩
    rw [hc.home b hout, replaced]
    split_ifs with hm
    · rfl
    · exact hi.cache.fresh b fun hs => hm (hstale b hs)

/-- the crash is right after the header of a commit of one block is written -/
theorem crash_recovers_commit : ∃ s u : St, (system 2).Reach (binit fun _ _ => 0) s ∧ s.prog.length = 19 ∧
    recovered 2 [1] s.disk 100 = u.last 100 ∧ u.group.ops = [] := by
  obtain ⟨s, hs, hp⟩ := Machine.exists_reach_of_steps (M := (system 2).restrict fun s a => fits s a = true)
    (s := binit fun _ _ => 0) (l := [.beginOp 1, .bget 1 100, .lock ⟨1, 0, 100⟩, .store ⟨1, 0, 100⟩ fun _ => 7,
      .logWrite ⟨1, 0, 100⟩, .unlock ⟨1, 0, 100⟩, .drop ⟨1, 0, 100⟩, .endOp 1] ++ List.replicate 12 .commit)
    (p := fun s => decide (s.prog.length = 19)) (by decide +kernel)
  obtain ⟨-, u, hu, hc⟩ := crash_recovers (boot_binit _) (by decide +kernel) hs [1]
  exact ⟨s, u, hs.of_restrict, of_decide_eq_true hp, hc 100 (by decide), hu.ops⟩

end Xv6.System
