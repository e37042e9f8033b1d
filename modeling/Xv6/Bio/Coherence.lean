/-
No modified block is lost by the buffer cache (kernel/bio.c, kernel/log.c), over any interleaving of any number of
processes and across any number of commits.

- `Inv`: the cache invariant with the pins and the uninstalled blocks that the log records, together with where `commit`
  is in its program. One lemma for each step of a process (`step_inv`) and of `commit` (`exec_inv`).
- `no_block_lost`: what follows for reference counts, logged blocks, `bread` and `write_log`.
-/
import Xv6.Bio.System

namespace Xv6.System

open Xv6.Core Bio
open GroupCommit (Panic)
open Recovery (InLog)

/-! ## The invariant -/

/-- a local of `commit` holds what the program says it holds -/
def Match (c : Bcache) (v : Option (ℕ × Phase)) : Option (ℕ × Phase) → Prop
  | none => v = none
  | some (b, ph) => ∃ i, v = some (i, ph) ∧ (c.buf i).Holds b

structure Inv (start : ℕ) (s : St) : Prop where
  group : GroupCommit.Inv s.group
  cache : CacheInv s.cache (uses s.refs s.reg) s.pins s.stale s.dirty s.disk s.last
  holds : ∀ r ∈ s.refs, (s.cache.buf r.1.buf).Holds r.1.block
  /-- only a process has a modified buffer that it has not logged -/
  owned : ∀ i ∈ s.dirty, ∃ u : Use, u.buf = i ∧ (u, Phase.held) ∈ s.refs
  outside : ∀ b ∈ s.pins, ¬ InLog start b
  check : ∃ A, Check start A s.prog ∧ ∀ r, Match s.cache (s.reg r) (A r)
  idle : s.group.committer = none → s.prog = []
  cleared : ∀ x, s.group.committer = some x → (x.2 = false ↔ .clear ∈ s.prog)
  /-- what is still to be installed is still to be copied to the log, or has been -/
  logged : ∀ t b, .fromLog t b ∈ s.prog → .toLog t b ∈ s.prog ∨ s.last (start + t + 1) = s.last b

variable {start b p : ℕ} {s t : St} {c : Bcache} {v x : Option (ℕ × Phase)} {reg : Locals} {r : Reg} {i : Instr}
  {u : Use} {ph : Phase} {d : Block} {is : List Instr}

theorem inv_boot (h : Boot s) : Inv start s := by
  have hR : uses s.refs s.reg = [] := by rw [h.refs, h.reg]; rfl
  have hp : s.pins = [] := by rw [St.pins, h.group]; rfl
  have hst : s.stale = [] := by rw [St.stale, h.group]; rfl
  refine ⟨by rw [h.group]; exact GroupCommit.inv_init, ?_, ?_, ?_, ?_, ⟨.empty, ?_, ?_⟩, fun _ => h.prog, ?_, ?_⟩
  · rw [hR, hp, hst, h.dirty, h.last]
    refine ⟨h.lru, h.uniq, by simp, ?_, ?_, by simp, by simp, by simp, ?_, by simp, fun _ _ => rfl, by simp⟩
    · intro i hi; simp [(h.unused i hi).1]
    · intro i hi; simp [(h.unused i hi).2]
    · intro i hi hd hv _; exact h.coherent i hi hd hv
  · simp [h.refs]
  · simp [h.dirty]
  · simp [hp]
  · rw [h.prog]; rfl
  · intro r; rw [h.reg]; rfl
  · intro x hx; rw [h.group] at hx; cases hx
  · simp [h.prog]

theorem Match.keeps {c' : Bcache} (hk : Keeps c c')
    (hu : ∀ y, v = some y → y.1 ∈ c.lru ∧ (c.buf y.1).refcnt ≠ 0) (h : Match c v x) : Match c' v x := by
  rcases x with - | ⟨b, ph⟩
  · exact h
  · obtain ⟨i, hv, hb⟩ := h
    obtain ⟨hi, h0⟩ := hu _ hv
    exact ⟨i, hv, hk i hi h0 b hb⟩

theorem match_update {c' : Bcache} {A : Locals} (h : ∀ r, Match c (reg r) (A r)) (hk : Keeps c c')
    (hu : ∀ r y, reg r = some y → y.1 ∈ c.lru ∧ (c.buf y.1).refcnt ≠ 0) (r : Reg)
    (hv : Match c' v x) (r' : Reg) : Match c' (Function.update reg r v r') (Function.update A r x r') := by
  by_cases hr : r' = r
  · subst hr; simpa using hv
  · rw [Function.update_of_ne hr, Function.update_of_ne hr]
    exact (h r').keeps hk (hu r')

theorem Inv.reg_used (h : Inv start s) (r : Reg) (y : ℕ × Phase) (hy : s.reg r = some y) :
    y.1 ∈ s.cache.lru ∧ (s.cache.buf y.1).refcnt ≠ 0 :=
  h.cache.used (mem_uses_of_reg _ hy)

theorem Inv.ref_used (h : Inv start s) {r : Use × Phase} (hr : r ∈ s.refs) :
    r.1.buf ∈ s.cache.lru ∧ (s.cache.buf r.1.buf).refcnt ≠ 0 :=
  h.cache.used (mem_uses_of_mem _ hr)

theorem Inv.holds_keeps (h : Inv start s) (hk : Keeps s.cache c) {r : Use × Phase} (hr : r ∈ s.refs) :
    (c.buf r.1.buf).Holds r.1.block :=
  hk _ (h.ref_used hr).1 (h.ref_used hr).2 _ (h.holds r hr)

/-- a buffer that `commit` holds has no modification that is not logged: nobody else holds it -/
theorem Inv.reg_not_dirty (h : Inv start s) {i : ℕ} (hr : s.reg r = some (i, .held)) : i ∉ s.dirty := by
  intro hd
  obtain ⟨u, rfl, hu⟩ := h.owned i hd
  have hone := (h.cache.count_held (mem_uses_of_reg _ hr)).1
  have hmem := mem_uses_of_mem (Function.update s.reg r none) hu
  rw [(uses_of_reg hr).count_eq, List.count_cons_self] at hone
  have := List.count_pos_iff.2 hmem
  omega

theorem Inv.reg_data (h : Inv start s) {i : ℕ} (hr : s.reg r = some (i, .held))
    (hb : (s.cache.buf i).Holds b) : (s.cache.buf i).data = s.last b := by
  have hmem := mem_uses_of_reg s.refs hr
  rw [← hb.2]
  exact h.cache.content i (h.cache.refs _ hmem).1 hb.1 (h.cache.heldValid i hmem) (h.reg_not_dirty hr)

/-! ## Steps of the processes -/

/-- a step of a process that changes the cache, its references and what is modified, and nothing else -/
theorem Inv.process (h : Inv start s) {refs : List (Use × Phase)} {dirty : List ℕ}
    (hc : CacheInv c (uses refs s.reg) s.pins s.stale dirty s.disk s.last) (hk : Keeps s.cache c)
    (hh : ∀ r ∈ refs, (c.buf r.1.buf).Holds r.1.block)
    (ho : ∀ i ∈ dirty, ∃ u : Use, u.buf = i ∧ (u, Phase.held) ∈ refs) :
    Inv start { s with cache := c, refs := refs, dirty := dirty } := by
  obtain ⟨A, hA, hm⟩ := h.check
  exact { h with
    cache := hc, holds := hh, owned := ho
    check := ⟨A, hA, fun r => (hm r).keeps hk (h.reg_used r)⟩ }

theorem inv_bget {i : ℕ} (h : Inv start s) (hg : Bio.bget s.cache b = .ok (c, i)) :
    Inv start { s with cache := c, refs := (⟨p, i, b⟩, .waiting) :: s.refs } := by
  obtain ⟨hc, hb, -⟩ := h.cache.bget hg
  refine h.process hc (keeps_bget hg) ?_ ?_
  · intro r hr
    rcases List.mem_cons.1 hr with rfl | hr
    · exact hb
    · exact h.holds_keeps (keeps_bget hg) hr
  · intro j hj
    obtain ⟨u, hu, hr⟩ := h.owned j hj
    exact ⟨u, hu, List.mem_cons_of_mem _ hr⟩

theorem holds_phase (h : Inv start s) (hk : Keeps s.cache c) {ph' : Phase}
    (hu : (u, ph) ∈ s.refs) : ∀ r ∈ (u, ph') :: s.refs.erase (u, ph), (c.buf r.1.buf).Holds r.1.block := by
  intro r hr
  rcases List.mem_cons.1 hr with rfl | hr
  · exact h.holds_keeps (r := (u, ph)) hk hu
  · exact h.holds_keeps hk (List.mem_of_mem_erase hr)

theorem inv_lock (h : Inv start s) (hu : (u, .waiting) ∈ s.refs) (hfree : (s.cache.buf u.buf).locked = false) :
    Inv start { s with cache := Bio.lock s.cache s.disk u.buf, refs := (u, .held) :: s.refs.erase (u, .waiting) } := by
  have hc := (h.cache.perm (uses_erase s.reg hu).symm).lock hfree
  refine h.process hc (keeps_lock _ _ _) (holds_phase h (keeps_lock _ _ _) hu) ?_
  intro i hi
  obtain ⟨v, hv, hr⟩ := h.owned i hi
  exact ⟨v, hv, List.mem_cons_of_mem _ ((List.mem_erase_of_ne (by simp)).2 hr)⟩

theorem inv_store (h : Inv start s) (hu : (u, .held) ∈ s.refs) :
    Inv start { s with cache := Bio.store s.cache u.buf d, dirty := u.buf :: s.dirty } := by
  have hk : Keeps s.cache (Bio.store s.cache u.buf d) := keeps_set _ _ rfl rfl
  refine h.process (h.cache.store (mem_uses_of_mem _ hu) d) hk (fun r hr => h.holds_keeps hk hr) ?_
  intro i hi
  rcases List.mem_cons.1 hi with rfl | hi
  · exact ⟨u, rfl, hu⟩
  · exact h.owned i hi

theorem inv_unlock (h : Inv start s) (hu : (u, .held) ∈ s.refs) (hnd : u.buf ∉ s.dirty) :
    Inv start { s with cache := Bio.unlock s.cache u.buf, refs := (u, .releasing) :: s.refs.erase (u, .held) } := by
  have hc := (h.cache.perm (uses_erase s.reg hu).symm).unlock hnd
  have hk : Keeps s.cache (Bio.unlock s.cache u.buf) := keeps_set _ _ rfl rfl
  refine h.process hc hk (holds_phase h hk hu) ?_
  intro i hi
  obtain ⟨v, rfl, hr⟩ := h.owned i hi
  have hne : v ≠ u := by rintro rfl; exact hnd hi
  exact ⟨v, rfl, List.mem_cons_of_mem _ ((List.mem_erase_of_ne (by simp [hne])).2 hr)⟩

theorem inv_drop (h : Inv start s) (hu : (u, .releasing) ∈ s.refs) :
    Inv start { s with cache := Bio.drop s.cache u.buf, refs := s.refs.erase (u, .releasing) } := by
  have hc := (h.cache.perm (uses_erase s.reg hu).symm).drop
  refine h.process hc (keeps_drop _ _) (fun r hr => h.holds_keeps (keeps_drop _ _) (List.mem_of_mem_erase hr)) ?_
  intro i hi
  obtain ⟨v, rfl, hr⟩ := h.owned i hi
  exact ⟨v, rfl, (List.mem_erase_of_ne (by simp)).2 hr⟩

theorem Inv.committer_none (h : Inv start s) {o : GroupCommit.Op} (ho : o ∈ s.group.ops) :
    s.group.committer = none := by
  by_contra hne
  rw [h.group.alone (Option.isSome_iff_ne_none.2 hne)] at ho
  simp at ho

theorem Inv.pins_idle (h : s.group.committer = none) : s.pins = s.group.log.lh ∧ s.stale = s.group.log.lh := by
  simp [St.pins, St.stale, h]

theorem inv_logWrite (h : Inv start s) (hl : legal start s (.logWrite u))
    (hs : step start s (.logWrite u) = .ok t) : Inv start t := by
  obtain ⟨hu, hleg, hout⟩ := hl
  have hop : ∃ o ∈ s.group.ops, o.pid = u.pid := by
    obtain ⟨o, ho, hp, -⟩ := hleg; exact ⟨o, ho, hp⟩
  obtain ⟨o, ho, -⟩ := hop
  have hcom := h.committer_none ho
  have hheld := mem_uses_of_mem s.reg hu
  obtain ⟨hpins, hstale⟩ := Inv.pins_idle hcom
  have hcache := h.cache
  rw [hpins, hstale] at hcache
  have howned : ∀ i ∈ s.dirty.filter (fun k => k ≠ u.buf), ∃ v : Use, v.buf = i ∧ (v, Phase.held) ∈ s.refs :=
    fun i hi => h.owned i (List.mem_filter.1 hi).1
  have hprog := h.idle hcom
  simp only [step] at hs
  split at hs
  · rename_i l new g hlw hg
    cases hs
    have hinv := GroupCommit.step_inv _ _ _ h.group hleg hg
    simp only [GroupCommit.step, hlw] at hg
    cases hg
    obtain ⟨A, hA, hm⟩ := h.check
    obtain ⟨-, -, ⟨hmem, rfl, rfl⟩ | ⟨hmem, rfl, rfl⟩⟩ := GroupCommit.logWrite_ok hlw
    · refine { group := hinv, cache := ?_, holds := h.holds, owned := howned, outside := ?_, check := ⟨A, hA, hm⟩,
               idle := h.idle, cleared := h.cleared, logged := ?_ }
      · have := hcache.relog hheld hmem
        simpa [St.pins, St.stale, hcom] using this
      · simpa [St.pins, hcom] using h.outside
      · simp [hprog]
    · have hk : Keeps s.cache (Bio.pin s.cache u.buf) := keeps_set _ _ rfl rfl
      refine { group := hinv, cache := ?_, holds := fun r hr => h.holds_keeps hk hr, owned := howned, outside := ?_,
               check := ⟨A, hA, fun r => (hm r).keeps hk (h.reg_used r)⟩, idle := h.idle, cleared := h.cleared,
               logged := ?_ }
      · have := hcache.log hheld hmem
        simpa [St.pins, St.stale, hcom] using this
      · have hold := h.outside
        rw [hpins] at hold
        simp only [St.pins, hcom, Option.isSome_none, Bool.false_eq_true, if_false, List.mem_append, List.mem_singleton]
        rintro b (hb | rfl)
        · exact hold b hb
        · exact hout
      · simp [hprog]
  · cases hs
  · cases hs

theorem inv_beginOp (h : Inv start s) (hl : legal start s (.beginOp p))
    (hs : step start s (.beginOp p) = .ok t) : Inv start t := by
  simp only [step] at hs
  split at hs
  · cases hs
  rename_i g hg
  cases hs
  have hinv := GroupCommit.step_inv _ (.beginOp p) _ h.group hl hg
  have hsame : g.committer = s.group.committer ∧ g.log.lh = s.group.log.lh := by
    simp only [GroupCommit.step] at hg
    split at hg
    · cases hg; exact ⟨rfl, rfl⟩
    · rename_i l hl
      obtain ⟨-, -, rfl⟩ := GroupCommit.beginOp_some hl
      cases hg; exact ⟨rfl, rfl⟩
  have hpins : St.pins { s with group := g } = s.pins := by simp [St.pins, hsame]
  have hstale : St.stale { s with group := g } = s.stale := by simp [St.stale, hsame]
  refine { h with group := hinv, cache := ?_, outside := ?_, idle := ?_, cleared := ?_ }
  · rw [hpins, hstale]; exact h.cache
  · rw [hpins]; exact h.outside
  · intro hc; exact h.idle (hsame.1 ▸ hc)
  · intro x hx; exact h.cleared x (hsame.1 ▸ hx)

/-- the last `end_op` starts a commit of what the log records; any other one changes nothing here -/
theorem endOp_cases {g : GroupCommit.St} (h : s.group.committer = none)
    (hg : GroupCommit.step s.group (.endOp p) = .ok g) :
    g.log.lh = s.group.log.lh ∧ (g.committer = none ∨ g.committer = some (p, false)) := by
  simp only [GroupCommit.step] at hg
  split at hg
  · cases hg
  · rename_i l c hl
    obtain ⟨-, ⟨-, rfl, rfl⟩ | ⟨-, rfl, rfl⟩⟩ := GroupCommit.endOp_ok hl
    · cases hg; exact ⟨rfl, Or.inr rfl⟩
    · cases hg; exact ⟨rfl, Or.inl h⟩

theorem inv_endOp (h : Inv start s) (hl : legal start s (.endOp p))
    (hs : step start s (.endOp p) = .ok t) : Inv start t := by
  obtain ⟨o, ho, -⟩ := id hl
  have hcom := h.committer_none ho
  have hprog := h.idle hcom
  obtain ⟨hpins, hstale⟩ := Inv.pins_idle hcom
  obtain ⟨A, hA, hm⟩ := h.check
  rw [hprog] at hA
  have hcache := h.cache
  have hout := h.outside
  rw [hpins] at hout
  rw [hpins, hstale] at hcache
  simp only [step] at hs
  split at hs
  · cases hs
  rename_i g hg
  cases hs
  have hinv := GroupCommit.step_inv _ (.endOp p) _ h.group hl hg
  obtain ⟨hlh, hc | hc⟩ := endOp_cases hcom hg
  · refine { h with group := hinv, cache := ?_, outside := ?_, check := ?_, idle := ?_, cleared := ?_, logged := ?_ }
    · simpa [St.pins, St.stale, hc, hlh] using hcache
    · simpa [St.pins, hc, hlh] using hout
    · exact ⟨A, by simpa [hc, hprog] using hA, hm⟩
    · intro _; simp [hc, hprog]
    · intro x hx; rw [hc] at hx; cases hx
    · simp [hc, hprog]
  · have hnd := h.group.nodup
    have hspace := h.group.space
    have hprog' : (if g.committer.isSome then commitProg start g.log.lh else s.prog) =
        commitProg start s.group.log.lh := by simp [hc, hlh]
    rw [hprog']
    refine { h with group := hinv, cache := ?_, outside := ?_, check := ?_, idle := ?_, cleared := ?_, logged := ?_ }
    · simpa [St.pins, St.stale, hc, unpins_commitProg, installs_commitProg] using hcache
    · simpa [St.pins, hc, unpins_commitProg] using hout
    · refine ⟨.empty, check_commitProg start hnd (by omega), ?_⟩
      have : A = fun _ => none := hA
      intro r; rw [this] at hm; exact hm r
    · intro hn; rw [hc] at hn; cases hn
    · intro x hx
      rw [hc] at hx; cases hx
      simp only [true_iff]
      unfold commitProg; split_ifs <;> simp
    · intro t b hb
      exact Or.inl (toLog_mem_commitProg hb)

/-! ## Steps of commit -/

theorem Inv.committing (h : Inv start s) (hp : s.prog = i :: is) :
    s.group.committer.isSome := by
  rw [Option.isSome_iff_ne_none]
  intro hn
  rw [h.idle hn] at hp; cases hp

/-- a step of `commit` other than the last two: it uses its locals, the cache and the disk -/
theorem Inv.commit (h : Inv start s) (hp : s.prog = i :: is) (hi : i ≠ .clear) {A : Locals} {disk last : Disk}
    (hc : CacheInv c (uses s.refs reg) (unpins is) (installs is) s.dirty disk last) (hk : Keeps s.cache c)
    (hA : Check start A is) (hm : ∀ r, Match c (reg r) (A r))
    (hl : ∀ t b, .fromLog t b ∈ is → .toLog t b ∈ is ∨ last (start + t + 1) = last b) :
    Inv start { s with prog := is, cache := c, reg := reg, disk := disk, last := last } := by
  have hcom := h.committing hp
  refine { group := h.group, cache := ?_, holds := fun r hr => h.holds_keeps hk hr, owned := h.owned, outside := ?_,
           check := ⟨A, hA, hm⟩, idle := ?_, cleared := ?_, logged := hl }
  · simpa [St.pins, St.stale, hcom] using hc
  · intro b hb
    apply h.outside b
    simp only [St.pins, hcom, if_true, hp] at hb ⊢
    exact ((List.sublist_cons_self i is).filterMap _).subset hb
  · intro hn
    have hn' : s.group.committer = none := hn
    rw [hn'] at hcom; cases hcom
  · intro x hx
    rw [h.cleared x hx, hp]
    simp [Ne.symm hi]

theorem Inv.logged_tail (h : Inv start s) (hp : s.prog = i :: is)
    (hi : ∀ t b, i ≠ .toLog t b) (t b : ℕ) (hb : .fromLog t b ∈ is) :
    .toLog t b ∈ is ∨ s.last (start + t + 1) = s.last b := by
  rcases h.logged t b (by rw [hp]; exact List.mem_cons_of_mem _ hb) with hm | hm
  · rw [hp] at hm
    exact Or.inl ((List.mem_cons.1 hm).resolve_left (fun heq => hi t b heq.symm))
  · exact Or.inr hm

theorem Inv.cache_prog (h : Inv start s) (hp : s.prog = i :: is) :
    CacheInv s.cache (uses s.refs s.reg) (unpins (i :: is)) (installs (i :: is)) s.dirty s.disk s.last := by
  have hc := h.cache
  simpa [St.pins, St.stale, h.committing hp, hp] using hc

theorem Inv.check_prog (h : Inv start s) (hp : s.prog = i :: is) :
    ∃ A, Check start A (i :: is) ∧ ∀ r, Match s.cache (s.reg r) (A r) := by
  rw [← hp]
  exact h.check

theorem Inv.outside_prog (h : Inv start s) (hp : s.prog = i :: is) (hb : b ∈ unpins (i :: is)) : ¬ InLog start b := by
  apply h.outside b
  simpa [St.pins, h.committing hp, hp] using hb

theorem Match.some (h : Match c v x) (hx : x = some (b, ph)) : ∃ i, v = some (i, ph) ∧ (c.buf i).Holds b := by
  rw [hx] at h; exact h

theorem St.idx_eq {i : ℕ} (h : s.reg r = some (i, ph)) : s.idx r = i := by simp [St.idx, h]

theorem exec_bget (h : Inv start s) (hp : s.prog = .bget r b :: is)
    (hs : exec start { s with prog := is } (.bget r b) = .ok t) : Inv start t := by
  obtain ⟨A, ⟨hr, -, hA⟩, hm⟩ := h.check_prog hp
  simp only [exec] at hs
  split at hs
  · cases hs
  rename_i c i hg
  cases hs
  obtain ⟨hc, hb, -⟩ := (h.cache_prog hp).bget hg
  have hnone : s.reg r = none := by have := hm r; rwa [hr] at this
  have hreg : Function.update s.reg r none = s.reg := by rw [← hnone, Function.update_eq_self]
  refine h.commit hp (by simp) (hc.perm ?_) (keeps_bget hg) hA
    (match_update hm (keeps_bget hg) h.reg_used r ⟨i, rfl, hb⟩) (h.logged_tail hp (by simp))
  have := uses_set s.refs s.reg r (i, .waiting)
  rwa [hreg] at this

theorem exec_lock (h : Inv start s) (hp : s.prog = .lock r :: is)
    (hfree : (s.cache.buf (s.idx r)).locked = false) (hs : exec start { s with prog := is } (.lock r) = .ok t) :
    Inv start t := by
  obtain ⟨A, ⟨b, hr, hA⟩, hm⟩ := h.check_prog hp
  obtain ⟨i, hi, hb⟩ := (hm r).some hr
  have hidx := St.idx_eq hi
  rw [hidx] at hfree
  cases hs
  have hc := ((h.cache_prog hp).perm (uses_of_reg hi).symm).lock hfree
  have hk := keeps_lock s.cache s.disk i
  have hu := h.reg_used r _ hi
  simp only [St.idx] at hidx ⊢
  rw [hidx]
  exact h.commit hp (by simp) (hc.perm (uses_set _ _ _ _)) hk hA
    (match_update hm hk h.reg_used r ⟨i, rfl, hk i hu.1 hu.2 b hb⟩) (h.logged_tail hp (by simp))

theorem exec_unlock (h : Inv start s) (hp : s.prog = .unlock r :: is)
    (hs : exec start { s with prog := is } (.unlock r) = .ok t) : Inv start t := by
  obtain ⟨A, ⟨b, hr, hA⟩, hm⟩ := h.check_prog hp
  obtain ⟨i, hi, hb⟩ := (hm r).some hr
  have hidx := St.idx_eq hi
  cases hs
  have hc := ((h.cache_prog hp).perm (uses_of_reg hi).symm).unlock (h.reg_not_dirty hi)
  have hk : Keeps s.cache (Bio.unlock s.cache i) := keeps_set _ _ rfl rfl
  have hu := h.reg_used r _ hi
  simp only [St.idx] at hidx ⊢
  rw [hidx]
  exact h.commit hp (by simp) (hc.perm (uses_set _ _ _ _)) hk hA
    (match_update hm hk h.reg_used r ⟨i, rfl, hk i hu.1 hu.2 b hb⟩) (h.logged_tail hp (by simp))

theorem exec_drop (h : Inv start s) (hp : s.prog = .drop r :: is)
    (hs : exec start { s with prog := is } (.drop r) = .ok t) : Inv start t := by
  obtain ⟨A, ⟨b, hr, hA⟩, hm⟩ := h.check_prog hp
  obtain ⟨i, hi, hb⟩ := (hm r).some hr
  have hidx := St.idx_eq hi
  cases hs
  have hc := ((h.cache_prog hp).perm (uses_of_reg hi).symm).drop
  have hk := keeps_drop s.cache i
  simp only [St.idx] at hidx ⊢
  rw [hidx]
  exact h.commit hp (by simp) hc hk hA (match_update hm hk h.reg_used r rfl) (h.logged_tail hp (by simp))

theorem exec_unpin (h : Inv start s) (hp : s.prog = .unpin b :: is)
    (hs : exec start { s with prog := is } (.unpin b) = .ok t) : Inv start t := by
  obtain ⟨A, ⟨hr, hns, hA⟩, hm⟩ := h.check_prog hp
  obtain ⟨i, hi, hb⟩ := (hm .b).some hr
  have hidx := St.idx_eq hi
  have hu := h.reg_used .b _ hi
  cases hs
  have hc := (h.cache_prog hp).unpin hu.1 hb hns
  have hk : Keeps s.cache (Bio.unpin s.cache i) := keeps_set _ _ rfl rfl
  simp only [St.idx] at hidx ⊢
  rw [hidx]
  exact h.commit hp (by simp) hc hk hA (fun r => (hm r).keeps hk (h.reg_used r)) (h.logged_tail hp (by simp))

theorem bwrite_log {i : ℕ} (hi : s.reg r = some (i, .held)) (hb : (s.cache.buf i).Holds b)
    (hin : InLog start b) : s.bwrite start r d =
      { s with cache := Bio.store s.cache i d, disk := s.disk.set b d, last := s.last.set b d } := by
  simp [St.bwrite, St.idx_eq hi, hb.2, hin]

theorem bwrite_home {i : ℕ} (hi : s.reg r = some (i, .held)) (hb : (s.cache.buf i).Holds b)
    (hout : ¬ InLog start b) : s.bwrite start r d =
      { s with cache := Bio.store s.cache i d, disk := s.disk.set b d } := by
  simp [St.bwrite, St.idx_eq hi, hb.2, hout]

/-- **`write_log` copies the last logged content.** -/
theorem exec_toLog {tail : ℕ} (h : Inv start s) (hp : s.prog = .toLog tail b :: is)
    (hs : exec start { s with prog := is } (.toLog tail b) = .ok t) :
    Inv start t ∧ t.disk (start + tail + 1) = s.last b := by
  obtain ⟨A, ⟨ha, hb, htail, huniq, hA⟩, hm⟩ := h.check_prog hp
  obtain ⟨i, hi, hib⟩ := (hm .a).some ha
  obtain ⟨j, hj, hjb⟩ := (hm .b).some hb
  have hin : InLog start (start + tail + 1) := ⟨by omega, by omega⟩
  have hdata : St.data { s with prog := is } .b = s.last b := by
    rw [← h.reg_data hj hjb]; simp [St.data, St.idx, hj]
  have hcache := h.cache_prog hp
  have hout : ∀ b' ∈ installs is, ¬ InLog start b' := fun b' hb' => h.outside_prog hp (hcache.stalePinned b' hb')
  have hnp : start + tail + 1 ∉ unpins is := fun hmem => h.outside_prog hp hmem hin
  have hk : Keeps s.cache (Bio.store s.cache i (s.last b)) := keeps_set _ _ rfl rfl
  simp only [exec, hdata] at hs
  rw [bwrite_log (s := { s with prog := is }) hi hib hin] at hs
  cases hs
  refine ⟨h.commit hp (by simp) (hcache.writeThrough (mem_uses_of_reg _ hi) hib hnp (h.reg_not_dirty hi) _) hk hA
    (fun r => (hm r).keeps hk (h.reg_used r)) ?_, Store.set_self _ _ _⟩
  intro t b' hb'
  have hb'out := hout b' (mem_installs.2 ⟨t, hb'⟩)
  have hne : b' ≠ start + tail + 1 := by rintro rfl; exact hb'out hin
  rw [Store.set_ne _ _ hne]
  by_cases ht : t = tail
  · subst ht
    rw [huniq b' hb', Store.set_self]; exact Or.inr rfl
  · rw [Store.set_ne _ _ (by omega)]
    rcases h.logged t b' (by rw [hp]; exact List.mem_cons_of_mem _ hb') with hmem | heq
    · rw [hp] at hmem
      exact Or.inl (by simpa [ht] using hmem)
    · exact Or.inr heq

theorem exec_fromLog {tail : ℕ} (h : Inv start s) (hp : s.prog = .fromLog tail b :: is)
    (hs : exec start { s with prog := is } (.fromLog tail b) = .ok t) : Inv start t := by
  obtain ⟨A, ⟨ha, hb, hnot, hA⟩, hm⟩ := h.check_prog hp
  obtain ⟨i, hi, hib⟩ := (hm .a).some ha
  obtain ⟨j, hj, hjb⟩ := (hm .b).some hb
  have hcache := h.cache_prog hp
  -- the block was copied to the log before, and neither side has changed since
  have hlog : s.last (start + tail + 1) = s.last b := by
    refine (h.logged tail b (by rw [hp]; exact List.mem_cons_self)).resolve_left ?_
    rw [hp]; simpa using hnot
  have hdata : St.data { s with prog := is } .a = s.last b := by
    rw [← hlog, ← h.reg_data hi hib]; simp [St.data, St.idx, hi]
  have hout : ¬ InLog start b := h.outside_prog hp (hcache.stalePinned b List.mem_cons_self)
  have hk : Keeps s.cache (Bio.store s.cache j (s.last b)) := keeps_set _ _ rfl rfl
  simp only [exec, hdata] at hs
  rw [bwrite_home (s := { s with prog := is }) hj hjb hout] at hs
  cases hs
  exact h.commit hp (by simp) (hcache.writeHome (mem_uses_of_reg _ hj) hjb (h.reg_not_dirty hj) rfl) hk hA
    (fun r => (hm r).keeps hk (h.reg_used r)) (h.logged_tail hp (by simp))

theorem exec_head (h : Inv start s) (hp : s.prog = .head :: is)
    (hs : exec start { s with prog := is } .head = .ok t) : Inv start t := by
  obtain ⟨A, ⟨ha, hA⟩, hm⟩ := h.check_prog hp
  obtain ⟨i, hi, hib⟩ := (hm .a).some ha
  have hin : InLog start start := Recovery.inLog_head start
  have hcache := h.cache_prog hp
  have hnp : start ∉ unpins is := fun hmem => h.outside_prog hp hmem hin
  simp only [exec] at hs
  rw [bwrite_log (s := { s with prog := is }) hi hib hin] at hs
  cases hs
  have hk := keeps_set s.cache i (x := { s.cache.buf i with
    data := setHead (St.data { s with prog := is } .a) s.group.log.lh }) rfl rfl
  refine h.commit hp (by simp) (hcache.writeThrough (mem_uses_of_reg _ hi) hib hnp (h.reg_not_dirty hi) _) hk hA
    (fun r => (hm r).keeps hk (h.reg_used r)) ?_
  intro t b hb
  have hne : b ≠ start := by
    rintro rfl
    exact h.outside_prog hp (hcache.stalePinned b (mem_installs.2 ⟨t, List.mem_cons_of_mem _ hb⟩)) hin
  rw [Store.set_ne _ _ hne, Store.set_ne _ _ (by omega)]
  exact h.logged_tail hp (by simp) t b hb

theorem exec_clear (h : Inv start s) (hp : s.prog = .clear :: is)
    (hs : exec start { s with prog := is } .clear = .ok t) : Inv start t := by
  obtain ⟨A, ⟨hup, hin, hncl, hA⟩, hm⟩ := h.check_prog hp
  obtain ⟨⟨p, cl⟩, hcom⟩ := Option.isSome_iff_exists.1 (h.committing hp)
  have hcl : cl = false := (h.cleared _ hcom).2 (by rw [hp]; exact List.mem_cons_self)
  subst hcl
  have hcache := h.cache_prog hp
  have hu : unpins (.clear :: is) = unpins is := rfl
  have hi : installs (.clear :: is) = installs is := rfl
  rw [hu, hi] at hcache
  simp only [exec, hcom, Option.getD_some, GroupCommit.step] at hs
  cases hs
  refine { group := GroupCommit.inv_commit p h.group hcom, cache := ?_, holds := h.holds, owned := h.owned,
           outside := ?_, check := ⟨A, hA, hm⟩, idle := fun hn => by simp at hn, cleared := ?_, logged := ?_ }
  · simpa [St.pins, St.stale] using hcache
  · simp [St.pins, hup]
  · intro x hx
    simp only [Option.some.injEq] at hx
    subst hx
    simp [hncl]
  · intro t b hb
    have := mem_installs.2 ⟨t, hb⟩
    rw [hin] at this; simp at this

theorem exec_finish (h : Inv start s) (hp : s.prog = .finish :: is)
    (hs : exec start { s with prog := is } .finish = .ok t) : Inv start t := by
  obtain ⟨A, ⟨rfl, hA⟩, hm⟩ := h.check_prog hp
  obtain ⟨⟨p, cl⟩, hcom⟩ := Option.isSome_iff_exists.1 (h.committing hp)
  have hcl : cl = true := by
    by_contra hne
    have := (h.cleared _ hcom).1 (by simpa using hne)
    rw [hp] at this; simp at this
  subst hcl
  have hlh := h.group.cleared p hcom
  have hcache : CacheInv s.cache (uses s.refs s.reg) [] [] s.dirty s.disk s.last := h.cache_prog hp
  simp only [exec, GroupCommit.step] at hs
  cases hs
  refine { group := GroupCommit.inv_finish h.group, cache := ?_, holds := h.holds, owned := h.owned,
           outside := ?_, check := ⟨A, hA, hm⟩, idle := fun _ => rfl, cleared := fun x hx => by simp at hx,
           logged := fun t b hb => by simp at hb }
  · simpa [St.pins, St.stale, hlh] using hcache
  · simp [St.pins, hlh]

theorem exec_inv (h : Inv start s) (hp : s.prog = i :: is)
    (hl : legal start s .commit) (hs : exec start { s with prog := is } i = .ok t) : Inv start t := by
  cases i with
  | bget r b => exact exec_bget h hp hs
  | lock r => exact exec_lock h hp (hl.2 r (by cases r <;> simp) (by rw [hp]; rfl)) hs
  | toLog tail b => exact (exec_toLog h hp hs).1
  | fromLog tail b => exact exec_fromLog h hp hs
  | head => exact exec_head h hp hs
  | unpin b => exact exec_unpin h hp hs
  | unlock r => exact exec_unlock h hp hs
  | drop r => exact exec_drop h hp hs
  | clear => exact exec_clear h hp hs
  | finish => exact exec_finish h hp hs

theorem step_inv (s : St) (a : Act) (t : St) (h : Inv start s) (hl : legal start s a) (hs : step start s a = .ok t) :
    Inv start t := by
  cases a with
  | bget p b =>
    simp only [step] at hs
    split at hs
    · cases hs
    · rename_i c i hg
      cases hs; exact inv_bget h hg
  | lock u => cases hs; exact inv_lock h hl.1 hl.2
  | store u d => cases hs; exact inv_store h hl
  | logWrite u => exact inv_logWrite h hl hs
  | unlock u => cases hs; exact inv_unlock h hl.1 hl.2
  | drop u => cases hs; exact inv_drop h hl
  | beginOp p => exact inv_beginOp h hl hs
  | endOp p => exact inv_endOp h hl hs
  | commit =>
    simp only [step] at hs
    split at hs
    · cases hs; exact h
    · rename_i i is hp
      exact exec_inv h hp hl hs

theorem reach_inv {s0 : St} (h0 : Boot s0) (h : (system start).Reach s0 s) : Inv start s :=
  h.inv (Inv start) (inv_boot h0) step_inv

/-! ## Main result -/

theorem exec_keeps (hs : exec start s i = .ok t) : Keeps s.cache t.cache := by
  cases i with
  | bget r b =>
    simp only [exec] at hs
    split at hs
    · cases hs
    · rename_i c i hg
      cases hs; exact keeps_bget hg
  | lock r => cases hs; exact keeps_lock _ _ _
  | drop r => cases hs; exact keeps_drop _ _
  | toLog _ _ | fromLog _ _ | head | unpin _ | unlock _ => cases hs; exact keeps_set _ _ rfl rfl
  | clear | finish => cases hs; exact Keeps.refl _

/-- no step gives a buffer in use to another block -/
theorem step_keeps {a : Act} (hs : step start s a = .ok t) : Keeps s.cache t.cache := by
  cases a with
  | bget p b =>
    simp only [step] at hs
    split at hs
    · cases hs
    · rename_i c i hg
      cases hs; exact keeps_bget hg
  | lock u => cases hs; exact keeps_lock _ _ _
  | drop u => cases hs; exact keeps_drop _ _
  | store u _ | unlock u => cases hs; exact keeps_set _ _ rfl rfl
  | logWrite u =>
    simp only [step] at hs
    split at hs
    · cases hs
      dsimp only
      split_ifs
      · exact keeps_set _ _ rfl rfl
      · exact Keeps.refl _
    · cases hs
    · cases hs
  | beginOp p | endOp p =>
    simp only [step] at hs
    split at hs
    · cases hs
    · cases hs; exact Keeps.refl _
  | commit =>
    simp only [step] at hs
    split at hs
    · cases hs; exact Keeps.refl _
    · rename_i i is _
      exact exec_keeps (s := { s with prog := is }) hs

theorem Inv.bread (h : Inv start s) (hl : legal start s (.lock u)) (hs : step start s (.lock u) = .ok t) :
    (t.cache.buf u.buf).Holds u.block ∧ (t.cache.buf u.buf).data = t.last u.block := by
  have ht := step_inv s _ t h hl hs
  have hfree := h.cache.not_dirty_of_unlocked hl.2
  cases hs
  have hu : (u, Phase.held) ∈ (u, Phase.held) :: s.refs.erase (u, .waiting) := List.mem_cons_self
  have hb := ht.holds _ hu
  have hheld := mem_uses_of_mem s.reg hu
  refine ⟨hb, ?_⟩
  have hc := ht.cache.content u.buf (ht.cache.refs _ hheld).1 hb.1 (ht.cache.heldValid _ hheld) hfree
  rwa [hb.2] at hc

theorem Inv.mem_lru (h : Inv start s) (i : ℕ) : i ∈ s.cache.lru ↔ i < NBUF := by
  rw [h.cache.lru.mem_iff, List.mem_range]

/-- **No modified block is lost.** In every state that any interleaving reaches:
- outside `commit`, a buffer's refcnt is the number of uses not yet given back, plus one if the log records its block;
- a logged block that is not yet installed is in a valid buffer, and no step gives that buffer to another block;
- `bread` returns the block it was asked for with the content of the last `log_write` to it;
- that is what the disk holds, once the block is installed;
- `write_log` copies that content to the log. -/
theorem no_block_lost (start : ℕ) (s0 s : St) (h0 : Boot s0) (h : (system start).Reach s0 s) :
    (s.group.log.committing = false → ∀ i < NBUF, (s.cache.buf i).refcnt = s.refs.countP (fun r => r.1.buf = i) +
      if (s.cache.buf i).dev = ROOTDEV ∧ (s.cache.buf i).blockno ∈ s.group.log.lh then 1 else 0) ∧
    (∀ b ∈ s.stale, ∃ i < NBUF, (s.cache.buf i).Holds b ∧ (s.cache.buf i).valid = true ∧
      ∀ a t, (system start).legal s a → (system start).step s a = .ok t → (t.cache.buf i).Holds b) ∧
    (∀ u t, (system start).legal s (.lock u) → (system start).step s (.lock u) = .ok t →
      (t.cache.buf u.buf).Holds u.block ∧ (t.cache.buf u.buf).data = t.last u.block) ∧
    (∀ b, b ∉ s.stale → s.disk b = s.last b) ∧
    ∀ tail b is t, s.prog = .toLog tail b :: is → (system start).step s .commit = .ok t →
      t.disk (start + tail + 1) = s.last b := by
  have hi := reach_inv h0 h
  refine ⟨fun hidle i hlt => ?_, fun b hb => ?_, fun u t hl hs => hi.bread hl hs, hi.cache.fresh, ?_⟩
  · have hcom : s.group.committer = none := by
      have := hi.group.committing; rw [hidle] at this; simpa using this.symm
    have hcount := hi.cache.count i ((hi.mem_lru i).2 hlt)
    obtain ⟨A, hA, hm⟩ := hi.check
    rw [hi.idle hcom] at hA
    have hnone : ∀ r, s.reg r = none := fun r => by
      have := hm r; rwa [show A = fun _ => none from hA] at this
    rw [(Inv.pins_idle hcom).1] at hcount
    rw [hcount]
    simp only [uses, hnone, Option.toList_none, List.append_nil, List.countP_map]
    rfl
  · have hp := hi.cache.stalePinned b hb
    obtain ⟨i, hil, hib, hv⟩ := hi.cache.pinned b hp
    exact ⟨i, (hi.mem_lru i).1 hil, hib, hv, fun a t _ hs =>
      step_keeps hs i hil (hi.cache.pinned_used hil hib hp) b hib⟩
  · intro tail b is t hp hs
    simp only [system, step, hp] at hs
    exact (exec_toLog hi hp hs).2

/-- one process logs block 100 and still holds it: its buffer is referenced once and pinned once -/
theorem no_block_lost_one_process :
    ∃ s, (system 2).Reach (binit fun _ _ => 0) s ∧ s.group.log.lh = [100] ∧ (s.cache.buf 0).refcnt = 2 := by
  obtain ⟨s, hs, hp⟩ := Machine.exists_reach_of_steps (M := system 2) (s := binit fun _ _ => 0)
    (l := [.beginOp 1, .bget 1 100, .lock ⟨1, 0, 100⟩, .store ⟨1, 0, 100⟩ fun _ => 7, .logWrite ⟨1, 0, 100⟩])
    (p := fun s => decide (s.group.log = ⟨1, false, [100]⟩) && decide (s.refs = [(⟨1, 0, 100⟩, .held)]) &&
      decide ((s.cache.buf 0).Holds 100)) (by decide)
  simp only [Bool.and_eq_true, decide_eq_true_eq] at hp
  obtain ⟨⟨hlog, hrefs⟩, hh⟩ := hp
  have hcnt := (no_block_lost 2 _ s (boot_binit _) hs).1 (by rw [hlog]) 0 (by decide)
  refine ⟨s, hs, by rw [hlog], ?_⟩
  rw [hcnt, hrefs, hlog, hh.1, hh.2]
  decide

end Xv6.System
