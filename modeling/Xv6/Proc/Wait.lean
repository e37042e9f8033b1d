/-
The exit/wait protocol: who holds wait_lock, and why no wakeup is lost (kernel/proc.c).

`kexit` wakes its parent before it becomes a ZOMBIE, and `reparent` wakes init before it has looked at the rest of the
table. Both are safe because a process goes to sleep in `kwait` only while it holds wait_lock, after a scan of the table
made under the same wait_lock.

- `Promise`: what is true of a process at each of its positions, as long as it is there.
- `Inv`: the lock, and the promises of all processes, with `Inv.alone` for a step of the holder of wait_lock and
  `Inv.calm` for the others.
- `Woken`: a ZOMBIE's parent is not asleep in `kwait`, unless it is init and a wakeup of init is under way.
-/
import Xv6.Proc.Exit

namespace Xv6.Procs.Exit

open Xv6.Core

variable {s t : St} {p q r : ℕ} {ok : Bool} {x : Pos} {a : Proc} {f : Proc → Proc}

/-! ## The invariant -/

/-- p is SLEEPING inside `kwait` -/
def Asleep (s : St) (p : ℕ) : Prop := s.pos p = .asleep ∧ (s.proc p).state = .sleeping

/-- what is true while process p is at a position -/
def Promise (s : St) (p : ℕ) : Pos → Prop
  | .exit _ => p ≠ INIT
  | .reparent _ q => p ≠ INIT ∧ ∀ r < q, (s.proc r).parent ≠ some p
  | .wakeInit _ q _ => p ≠ INIT ∧ ∀ r < q + 1, (s.proc r).parent ≠ some p
  | .wakeParent _ r =>
    p ≠ INIT ∧ (∀ u, (s.proc u).parent ≠ some p) ∧ ∀ u < r, (s.proc p).parent = some u → ¬ Asleep s u
  | .dying _ => p ≠ INIT ∧ (∀ u, (s.proc u).parent ≠ some p) ∧ ∀ u, (s.proc p).parent = some u → ¬ Asleep s u
  | .scan q b =>
    (∀ r < q, (s.proc r).parent = some p → (s.proc r).state ≠ .zombie) ∧
      (b = false → ∀ r < q, (s.proc r).parent ≠ some p)
  | .toSleep => ∀ r, (s.proc r).parent = some p → (s.proc r).state ≠ .zombie
  | .asleep => (s.proc p).state = .sleeping → (s.proc p).chan = some (.proc p)
  | _ => True

structure Inv (s : St) : Prop where
  holds : ∀ p, (s.pos p).holds = true ↔ s.waitLock = some p
  runs : ∀ p, s.waitLock = some p → (s.proc p).state = .running
  made : ∀ p q, (s.pos p).making = some q → q < NPROC ∧ (s.proc q).state = .used
  made_inj : ∀ p p' q, (s.pos p).making = some q → (s.pos p').making = some q → p = p'
  promise : ∀ p, Promise s p (s.pos p)
  child : ∀ q p, (s.proc q).parent = some p → q < NPROC ∧ p < NPROC ∧ (s.proc q).state ≠ .unused

theorem Inv.unique (h : Inv s) (hp : (s.pos p).holds = true) (hq : q ≠ p) : (s.pos q).holds = false := by
  by_contra hc
  have := (h.holds q).1 (by simpa using hc)
  rw [(h.holds p).1 hp] at this
  exact hq (by simpa using this.symm)

theorem Inv.none_holds (h : Inv s) (hl : s.waitLock = none) (q : ℕ) : (s.pos q).holds = false := by
  by_contra hc
  have := (h.holds q).1 (by simpa using hc)
  rw [hl] at this; cases this

/-! ## A step of the process with wait_lock -/

theorem Promise.free (h : Promise s p x) (hx : x.holds = false) (hasleep : x = .asleep → (t.proc p).state = .sleeping →
      (s.proc p).state = .sleeping ∧ (t.proc p).chan = (s.proc p).chan) : Promise t p x := by
  cases x with
  | asleep =>
    intro hs
    obtain ⟨h1, h2⟩ := hasleep rfl hs
    rw [h2]; exact h h1
  | exit => exact h
  | user | alloc | adopt | start | dead | wait | kill => trivial
  | reparent | wakeInit | wakeParent | dying | scan | toSleep => cases hx

/-- nobody else has wait_lock: only the promise of p has to be shown -/
theorem Inv.alone (h : Inv s) (halone : ∀ q, q ≠ p → (s.pos q).holds = false)
    (hpos : t.pos = s.pos.set p x) (hlock : x.holds = true ↔ t.waitLock = some p)
    (hothers : ∀ q, q ≠ p → t.waitLock ≠ some q) (hruns : t.waitLock = some p → (t.proc p).state = .running)
    (hmaking : ∀ q, x.making = some q → (s.pos p).making = some q)
    (hused : ∀ q, (s.proc q).state = .used → (t.proc q).state = .used)
    (hasleep : ∀ q, q ≠ p → s.pos q = .asleep → (t.proc q).state = .sleeping →
      (s.proc q).state = .sleeping ∧ (t.proc q).chan = (s.proc q).chan)
    (hpromise : Promise t p x)
    (hchild : ∀ q u, (t.proc q).parent = some u → q < NPROC ∧ u < NPROC ∧ (t.proc q).state ≠ .unused) : Inv t := by
  have hne : ∀ q, q ≠ p → t.pos q = s.pos q := fun q hq => by rw [hpos, Store.set_ne _ _ hq]
  have hself : t.pos p = x := by rw [hpos, Store.set_self]
  have hmk : ∀ q r, (t.pos q).making = some r → (s.pos q).making = some r := by
    intro q r hq
    by_cases hqp : q = p
    · subst hqp
      rw [hself] at hq; exact hmaking r hq
    · rwa [hne q hqp] at hq
  refine ⟨fun q => ?_, fun q hq => ?_, fun q r hq => ?_, fun q q' r hq hq' => h.made_inj q q' r (hmk q r hq)
    (hmk q' r hq'),
    fun q => ?_, hchild⟩
  · by_cases hqp : q = p
    · subst hqp
      rw [hself]; exact hlock
    · rw [hne q hqp, halone q hqp]
      simpa using hothers q hqp
  · by_cases hqp : q = p
    · subst hqp
      exact hruns hq
    · exact absurd hq (hothers q hqp)
  · obtain ⟨h1, h2⟩ := h.made q r (hmk q r hq)
    exact ⟨h1, hused r h2⟩
  · by_cases hqp : q = p
    · subst hqp
      rw [hself]; exact hpromise
    · rw [hne q hqp]
      exact (h.promise q).free (halone q hqp) (hasleep q hqp)

/-! ## A step of another process -/

/-- a change that no process with wait_lock notices -/
structure Calm (s t : St) : Prop where
  parent : ∀ r, (t.proc r).parent = (s.proc r).parent
  zombie : ∀ r, (t.proc r).state = .zombie → (s.proc r).state = .zombie
  unused : ∀ r, (t.proc r).state = .unused → (s.proc r).state = .unused
  asleep : ∀ r, t.pos r = .asleep → s.pos r = .asleep ∧
    ((t.proc r).state = .sleeping → (s.proc r).state = .sleeping ∧ (t.proc r).chan = (s.proc r).chan)
  runs : ∀ r, s.waitLock = some r → (t.proc r).state = .running

theorem Calm.trans {u : St} (h : Calm s t) (h' : Calm t u) (hl : t.waitLock = s.waitLock) : Calm s u := by
  refine ⟨fun r => (h'.parent r).trans (h.parent r), fun r e => h.zombie r (h'.zombie r e),
    fun r e => h.unused r (h'.unused r e), fun r e => ?_, fun r e => h'.runs r (hl ▸ e)⟩
  obtain ⟨h1, h2⟩ := h'.asleep r e
  obtain ⟨h3, h4⟩ := h.asleep r h1
  refine ⟨h3, fun hs => ?_⟩
  obtain ⟨h5, h6⟩ := h2 hs
  obtain ⟨h7, h8⟩ := h4 h5
  exact ⟨h7, h6.trans h8⟩

theorem Calm.awake (h : Calm s t) {u : ℕ} (hu : Asleep t u) : Asleep s u :=
  ⟨(h.asleep u hu.1).1, ((h.asleep u hu.1).2 hu.2).1⟩

theorem Promise.calm (hc : Calm s t) (hx : t.pos p = x) (h : Promise s p x) : Promise t p x := by
  cases x with
  | exit => exact h
  | reparent _ q | wakeInit _ q _ => exact ⟨h.1, fun r hr => by rw [hc.parent r]; exact h.2 r hr⟩
  | wakeParent _ r =>
    refine ⟨h.1, fun u => by rw [hc.parent u]; exact h.2.1 u, fun u hu hp ha => ?_⟩
    rw [hc.parent p] at hp
    exact h.2.2 u hu hp (hc.awake ha)
  | dying _ =>
    refine ⟨h.1, fun u => by rw [hc.parent u]; exact h.2.1 u, fun u hp ha => ?_⟩
    rw [hc.parent p] at hp
    exact h.2.2 u hp (hc.awake ha)
  | scan q b =>
    refine ⟨fun r hr hp hz => ?_, fun hb r hr => by rw [hc.parent r]; exact h.2 hb r hr⟩
    rw [hc.parent r] at hp
    exact h.1 r hr hp (hc.zombie r hz)
  | toSleep =>
    intro r hp hz
    rw [hc.parent r] at hp
    exact h r hp (hc.zombie r hz)
  | asleep =>
    intro hs
    obtain ⟨h1, h2⟩ := (hc.asleep p hx).2 hs
    rw [h2]; exact h h1
  | user | alloc | adopt | start | dead | wait | kill => trivial

/-- p, which does not hold wait_lock, goes on to x without taking it -/
theorem Inv.calm (h : Inv s) (hc : Calm s t) (hpos : t.pos = s.pos.set p x) (hlock : t.waitLock = s.waitLock)
    (hp : (s.pos p).holds = false) (hx : x.holds = false)
    (hmade : ∀ q, x.making = some q →
      q < NPROC ∧ (t.proc q).state = .used ∧ ∀ p', p' ≠ p → (s.pos p').making ≠ some q)
    (hused : ∀ p' q, p' ≠ p → (s.pos p').making = some q → (t.proc q).state = .used)
    (hpromise : Promise t p x) : Inv t := by
  have hne : ∀ q, q ≠ p → t.pos q = s.pos q := fun q hq => by rw [hpos, Store.set_ne _ _ hq]
  have hself : t.pos p = x := by rw [hpos, Store.set_self]
  refine ⟨fun q => ?_, fun q hq => hc.runs q (hlock ▸ hq), fun q r hq => ?_, fun q q' r hq hq' => ?_, fun q => ?_,
    fun q u hq => ?_⟩
  · by_cases hqp : q = p
    · subst hqp
      rw [hself, hx, hlock, ← h.holds q, hp]
    · rw [hne q hqp, hlock]; exact h.holds q
  · by_cases hqp : q = p
    · subst hqp
      rw [hself] at hq
      exact ⟨(hmade r hq).1, (hmade r hq).2.1⟩
    · rw [hne q hqp] at hq
      exact ⟨(h.made q r hq).1, hused q r hqp hq⟩
  · by_cases hqp : q = p <;> by_cases hqp' : q' = p
    · rw [hqp, hqp']
    · subst hqp
      rw [hself] at hq
      rw [hne q' hqp'] at hq'
      exact absurd hq' ((hmade r hq).2.2 q' hqp')
    · subst hqp'
      rw [hself] at hq'
      rw [hne q hqp] at hq
      exact absurd hq ((hmade r hq').2.2 q hqp)
    · rw [hne q hqp] at hq
      rw [hne q' hqp'] at hq'
      exact h.made_inj q q' r hq hq'
  · by_cases hqp : q = p
    · subst hqp
      rw [hself]; exact hpromise
    · have := h.promise q
      rw [← hne q hqp] at this
      exact this.calm hc rfl
  · rw [hc.parent q] at hq
    obtain ⟨h1, h2, h3⟩ := h.child q u hq
    exact ⟨h1, h2, fun e => h3 (hc.unused q e)⟩

/-! ## Changes of one slot -/

/-- a slot keeps its process, its parent and its exit status -/
structure Kin (a b : Proc) : Prop where
  pid : b.pid = a.pid
  parent : b.parent = a.parent
  xstate : b.xstate = a.xstate
  unused : b.state = .unused ↔ a.state = .unused
  zombie : b.state = .zombie ↔ a.state = .zombie

theorem Kin.refl (a : Proc) : Kin a a := ⟨rfl, rfl, rfl, Iff.rfl, Iff.rfl⟩

/-- the state changes, and neither the old nor the new one is UNUSED or ZOMBIE -/
theorem Kin.of_state {b : Proc} (hpid : b.pid = a.pid) (hparent : b.parent = a.parent) (hx : b.xstate = a.xstate)
    (ha : a.state ≠ .unused ∧ a.state ≠ .zombie) (hb : b.state ≠ .unused ∧ b.state ≠ .zombie) : Kin a b :=
  ⟨hpid, hparent, hx, by simp [ha.1, hb.1], by simp [ha.2, hb.2]⟩

theorem Kin.wake (a : Proc) (c : Option Chan) : Kin a (a.wake c) := by
  unfold Proc.wake
  split_ifs with h
  · exact Kin.of_state rfl rfl rfl (by simp [h.1]) (by simp)
  · exact Kin.refl a

theorem Kin.kill (a : Proc) : Kin a a.kill := by
  by_cases h : a.state = .sleeping
  · exact Kin.of_state rfl rfl rfl (by simp [h]) (by simp [Proc.kill, h])
  · exact ⟨rfl, rfl, rfl, by simp [Proc.kill, h], by simp [Proc.kill, h]⟩

theorem wake_of_ne (h : a.state ≠ .sleeping) (c : Option Chan) : a.wake c = a := by
  unfold Proc.wake
  exact if_neg fun e => h e.1

theorem wake_quiet (a : Proc) (c : Option Chan) (h : (a.wake c).state = .sleeping) : a.wake c = a := by
  unfold Proc.wake at h ⊢
  split_ifs at h ⊢
  rfl

theorem kill_quiet (a : Proc) (h : a.kill.state = .sleeping) : False := by
  unfold Proc.kill at h
  simp only at h
  split_ifs at h with hs
  exact hs h

theorem kill_of_ne (h : a.state ≠ .sleeping) : a.kill.state = a.state := if_neg h

theorem put_all {P : ℕ → Proc → Prop} (h : ∀ r, P r (s.proc r)) (hq : P q (f (s.proc q))) (r : ℕ) :
    P r ((s.put q f).proc r) := Table.update_all h hq r

theorem Inv.calm_put (h : Inv s) (hp : (f (s.proc q)).parent = (s.proc q).parent)
    (hz : (f (s.proc q)).state = .zombie → (s.proc q).state = .zombie)
    (hu : (f (s.proc q)).state = .unused → (s.proc q).state = .unused)
    (hs : s.pos q = .asleep → (f (s.proc q)).state = .sleeping →
      (s.proc q).state = .sleeping ∧ (f (s.proc q)).chan = (s.proc q).chan)
    (hr : s.waitLock = some q → (f (s.proc q)).state = .running) (hx : x = .asleep → s.pos p = .asleep) :
    Calm s ((s.put q f).go p x) := by
  refine ⟨put_all (P := fun r b => b.parent = (s.proc r).parent) (fun _ => rfl) hp,
    put_all (P := fun r b => b.state = .zombie → (s.proc r).state = .zombie) (fun _ e => e) hz,
    put_all (P := fun r b => b.state = .unused → (s.proc r).state = .unused) (fun _ e => e) hu,
    fun r hpos => ?_, ?_⟩
  · have hpos : s.pos r = .asleep := by
      by_cases hrp : r = p
      · subst hrp
        rw [go_pos, Store.set_self] at hpos
        exact hx hpos
      · rwa [go_pos, Store.set_ne _ _ hrp] at hpos
    exact ⟨hpos, put_all (P := fun r b => s.pos r = .asleep → b.state = .sleeping →
      (s.proc r).state = .sleeping ∧ b.chan = (s.proc r).chan) (fun _ _ e => ⟨e, rfl⟩) hs r hpos⟩
  · exact put_all (P := fun r b => s.waitLock = some r → b.state = .running) h.runs hr

theorem Inv.calm_go (h : Inv s) (hx : x = .asleep → s.pos p = .asleep) : Calm s (s.go p x) := by
  refine ⟨fun _ => rfl, fun _ e => e, fun _ e => e, fun r hpos => ⟨?_, fun e => ⟨e, rfl⟩⟩, h.runs⟩
  by_cases hrp : r = p
  · subst hrp
    rw [go_pos, Store.set_self] at hpos
    exact hx hpos
  · rwa [go_pos, Store.set_ne _ _ hrp] at hpos

theorem Inv.go (h : Inv s) (hp : (s.pos p).holds = false) (hx : x.holds = false) (hm : x.making = none)
    (ha : x ≠ .asleep) (hpr : Promise s p x) : Inv (s.go p x) := by
  have hc := h.calm_go (p := p) (x := x) fun e => absurd e ha
  refine h.calm hc rfl rfl hp hx (fun q hq => ?_) (fun p' q _ hq => (h.made p' q hq).2) (hpr.calm hc ?_)
  · rw [hm] at hq; cases hq
  · rw [go_pos, Store.set_self]

theorem Inv.put_go (h : Inv s) (hk : Kin (s.proc q) (f (s.proc q)))
    (hs : s.pos q = .asleep → (f (s.proc q)).state = .sleeping →
      (s.proc q).state = .sleeping ∧ (f (s.proc q)).chan = (s.proc q).chan)
    (hr : (s.proc q).state = .running → s.waitLock = some q → (f (s.proc q)).state = .running)
    (hu : (s.proc q).state = .used → (f (s.proc q)).state = .used)
    (hp : (s.pos p).holds = false) (hx : x = s.pos p ∨ x.holds = false ∧ x.making = none ∧ x ≠ .asleep)
    (hpr : x ≠ s.pos p → Promise s p x) : Inv ((s.put q f).go p x) := by
  have hc : Calm s ((s.put q f).go p x) := by
    refine h.calm_put hk.parent hk.zombie.1 hk.unused.1 hs (fun hl => hr (h.runs q hl) hl) fun e => ?_
    obtain he | he := hx
    · rw [← he, e]
    · exact absurd e he.2.2
  have hused : ∀ r, (s.proc r).state = .used → ((s.put q f).proc r).state = .used :=
    put_all (P := fun r b => (s.proc r).state = .used → b.state = .used) (fun _ e => e) hu
  refine h.calm hc rfl rfl hp ?_ (fun r hr => ?_) (fun p' r _ hr => hused r (h.made p' r hr).2) ?_
  · obtain he | he := hx
    · rw [he]; exact hp
    · exact he.1
  · obtain he | he := hx
    · rw [he] at hr
      exact ⟨(h.made p r hr).1, hused r (h.made p r hr).2, fun p' hp' hr' => hp' (h.made_inj p' p r hr' hr)⟩
    · rw [he.2.1] at hr; cases hr
  · have hpos : ((s.put q f).go p x).pos p = x := by rw [go_pos, Store.set_self]
    by_cases he : x = s.pos p
    · rw [he] at hc hpos ⊢
      exact (h.promise p).calm hc hpos
    · exact (hpr he).calm hc hpos

/-! ## Every step keeps the invariant -/

theorem holds_making (h : x.holds = true) : x.making = none := by cases x <;> first | rfl | cases h

/-- the holder of wait_lock goes on, keeps it, and its change of the table is one that others do not notice -/
theorem Inv.held (h : Inv s) (hp : (s.pos p).holds = true) (hx : x.holds = true) (hc : Calm s t)
    (hpos : t.pos = s.pos.set p x) (hlock : t.waitLock = s.waitLock)
    (hused : ∀ q, (s.proc q).state = .used → (t.proc q).state = .used) (hpr : Promise t p x) : Inv t := by
  have hl : s.waitLock = some p := (h.holds p).1 hp
  have hne : ∀ q, q ≠ p → t.waitLock ≠ some q := fun q hq e => by
    rw [hlock, hl] at e
    exact hq (by simpa using e.symm)
  refine h.alone (fun q hq => h.unique hp hq) hpos (by simp [hx, hlock, hl]) hne (fun _ => hc.runs p hl)
    (fun q hq => ?_)
    hused (fun q hq ha => (hc.asleep q (by rw [hpos, Store.set_ne _ _ hq]; exact ha)).2) hpr fun q u hq => ?_
  · rw [holds_making hx] at hq; cases hq
  · rw [hc.parent q] at hq
    obtain ⟨h1, h2, h3⟩ := h.child q u hq
    exact ⟨h1, h2, fun e => h3 (hc.unused q e)⟩

theorem Inv.held_go (h : Inv s) (hp : (s.pos p).holds = true) (hx : x.holds = true) (hpr : Promise s p x) :
    Inv (s.go p x) := by
  have hc := h.calm_go (p := p) (x := x) fun e => by rw [e] at hx; cases hx
  exact h.held hp hx hc rfl rfl (fun _ e => e) (hpr.calm hc (by rw [go_pos, Store.set_self]))

theorem Inv.calm_wake (h : Inv s) (p r : ℕ) (c : Option Chan) (hx : x ≠ .asleep) :
    Calm s ((s.wake p r c).go p x) := by
  unfold St.wake
  split_ifs
  · exact h.calm_go fun e => absurd e hx
  have hk := Kin.wake (s.proc r) c
  refine h.calm_put hk.parent hk.zombie.1 hk.unused.1 (fun _ e => ?_) (fun hl => ?_) fun e => absurd e hx
  · have hw := wake_quiet _ c e
    rw [hw] at e ⊢
    exact ⟨e, rfl⟩
  · rw [wake_of_ne (by simp [h.runs r hl])]; exact h.runs r hl

theorem wake_used (s : St) (p r : ℕ) (c : Option Chan) (q : ℕ) (hq : (s.proc q).state = .used) :
    ((s.wake p r c).proc q).state = .used := by
  unfold St.wake
  split_ifs
  · exact hq
  · refine put_all (P := fun r b => (s.proc r).state = .used → b.state = .used) (fun _ e => e) (fun e => ?_) q hq
    rw [wake_of_ne (by simp [e])]; exact e

/-- after the wakeup of its channel at its slot, a process is not asleep in `kwait` -/
theorem Inv.wakes (h : Inv s) (hp : s.pos p ≠ .asleep) (x : Pos) (hx : x ≠ .asleep) :
    ¬ Asleep ((s.wake p r (some (.proc r))).go p x) r := by
  rintro ⟨hpos, hst⟩
  by_cases hrp : r = p
  · subst hrp
    rw [go_pos, Store.set_self] at hpos
    exact hx hpos
  rw [go_pos, Store.set_ne _ _ hrp] at hpos
  have hpos : s.pos r = .asleep := by
    unfold St.wake at hpos
    rwa [if_neg hrp] at hpos
  have hst : ((s.proc r).wake (some (.proc r))).state = .sleeping := by
    unfold St.wake at hst
    rw [if_neg hrp] at hst
    simpa using hst
  have hs : (s.proc r).state = .sleeping := by rw [wake_quiet _ _ hst] at hst; exact hst
  have hch : (s.proc r).chan = some (.proc r) := by
    have := h.promise r
    rw [hpos] at this; exact this hs
  simp [Proc.wake, hs, hch] at hst

theorem Inv.not_holds (h : Inv s) (hq : (s.proc q).state ≠ .running) : (s.pos q).holds = false := by
  by_contra hc
  exact hq (h.runs q ((h.holds q).1 (by simpa using hc)))

theorem Inv.reset (h : Inv s) (hq : (s.proc q).state ≠ .running) (r : ℤ) : Inv (s.go q (.user r)) :=
  h.go (h.not_holds hq) rfl rfl (by simp) trivial

theorem Inv.orphan (h : Inv s) (hq : (s.proc q).state = .unused) : (s.proc q).parent = none := by
  cases hp : (s.proc q).parent with
  | none => rfl
  | some u => exact absurd hq (h.child q u hp).2.2

/-- the slot of a process that is being made is not the slot of a process in another state -/
theorem Inv.made_ne (h : Inv s) {p' : ℕ} (hr : (s.pos p').making = some r) (hq : (s.proc q).state ≠ .used) :
    r ≠ q := by
  rintro rfl
  exact hq (h.made p' r hr).2

/-- `allocproc` takes a slot: the child's position is set first -/
theorem Inv.calm_allocs (h : Inv s) (hu : (s.proc q).state = .unused) : Calm (s.go q (.user 0)) (s.allocs p q) := by
  have hc := (h.reset (q := q) (by simp [hu]) 0).calm_put (p := p) (q := q) (f := (·.alloc s.nextpid))
    (x := .adopt q s.nextpid) rfl (fun e => by cases e) (fun e => by cases e) (fun _ e => by cases e)
    (fun hl => by have := h.runs q hl; rw [hu] at this; cases this) fun e => by cases e
  exact ⟨hc.parent, hc.zombie, hc.unused, hc.asleep, hc.runs⟩

theorem Inv.allocs (h : Inv s) (hrun : (s.proc p).state = .running) (hpos : s.pos p = .alloc q) (hq : q < NPROC)
    (hu : (s.proc q).state = .unused) : Inv (s.allocs p q) := by
  have hpq : p ≠ q := by
    rintro rfl
    rw [hrun] at hu; cases hu
  have h' := h.reset (q := q) (by simp [hu]) 0
  have hpos' : (s.go q (.user 0)).pos p = .alloc q := by rw [go_pos, Store.set_ne _ _ hpq, hpos]
  refine h'.calm (p := p) (x := .adopt q s.nextpid) (h.calm_allocs hu) rfl rfl
    (by rw [hpos']; rfl) rfl (fun r hr => ?_) (fun p' r _ hr => ?_) trivial
  · cases hr
    refine ⟨hq, ?_, fun p' _ hp' => h'.made_ne hp' (q := q) (by simp [hu]) rfl⟩
    show (s.proc.update q (·.alloc s.nextpid) q).state = .used
    rw [Table.update_self]; rfl
  · show (s.proc.update q (·.alloc s.nextpid) r).state = .used
    rw [Table.update_ne _ _ (h'.made_ne hr (by simp [hu]))]
    exact (h'.made p' r hr).2

theorem Inv.calm_allocFails (h : Inv s) (hu : (s.proc q).state = .unused) : Calm s (s.allocFails p q) := by
  have hc := h.calm_put (p := p) (q := q) (f := Proc.freeproc) (x := .user (-1)) (h.orphan hu).symm
    (fun e => by cases e) (fun _ => hu) (fun _ e => by cases e)
    (fun hl => by have := h.runs q hl; rw [hu] at this; cases this) fun e => by cases e
  exact ⟨hc.parent, hc.zombie, hc.unused, hc.asleep, hc.runs⟩

theorem Inv.allocFails (h : Inv s) (hpos : s.pos p = .alloc q) (hu : (s.proc q).state = .unused) :
    Inv (s.allocFails p q) := by
  refine h.calm (p := p) (x := .user (-1)) (h.calm_allocFails hu) rfl rfl
    (by rw [hpos]; rfl) rfl (fun r hr => by cases hr) (fun p' r _ hr => ?_) trivial
  show (s.proc.update q Proc.freeproc r).state = .used
  rw [Table.update_ne _ _ (h.made_ne hr (by simp [hu]))]
  exact (h.made p' r hr).2

theorem Inv.calm_starts (h : Inv s) {pid : ℤ} (hpos : s.pos p = .start q pid) :
    Calm s ((s.put q fun np => { np with state := .runnable }).go p (.user pid)) := by
  have hu := (h.made p q (by rw [hpos]; rfl)).2
  exact h.calm_put rfl (fun e => by cases e) (fun e => by cases e) (fun _ e => by cases e)
    (fun hl => by have := h.runs q hl; rw [hu] at this; cases this) fun e => by cases e

theorem Inv.starts (h : Inv s) {pid : ℤ} (hpos : s.pos p = .start q pid) :
    Inv ((s.put q fun np => { np with state := .runnable }).go p (.user pid)) := by
  have hmk : (s.pos p).making = some q := by rw [hpos]; rfl
  refine h.calm (h.calm_starts hpos) rfl rfl (by rw [hpos]; rfl) rfl (fun r hr => by cases hr)
    (fun p' r hp' hr => ?_) trivial
  have hrq : r ≠ q := by
    rintro rfl
    exact hp' (h.made_inj p' p r hr hmk)
  show (s.proc.update q _ r).state = .used
  rw [Table.update_ne _ _ hrq]
  exact (h.made p' r hr).2

theorem Inv.adopts (h : Inv s) {pid : ℤ} (hlt : p < NPROC) (hpos : s.pos p = .adopt q pid) (hl : s.waitLock = none) :
    Inv ((s.put q fun np => { np with parent := some p }).go p (.start q pid)) := by
  have hmk : (s.pos p).making = some q := by rw [hpos]; rfl
  obtain ⟨hq, hu⟩ := h.made p q hmk
  have hstate : ∀ r, ((s.put q fun np => { np with parent := some p }).proc r).state = (s.proc r).state :=
    put_all (P := fun r b => b.state = (s.proc r).state) (fun _ => rfl) rfl
  have hchan : ∀ r, ((s.put q fun np => { np with parent := some p }).proc r).chan = (s.proc r).chan :=
    put_all (P := fun r b => b.chan = (s.proc r).chan) (fun _ => rfl) rfl
  refine h.alone (fun r _ => h.none_holds hl r) rfl (by simp [Pos.holds, hl]) (fun r _ => by simp [hl])
    (fun e => by simp [hl] at e) (fun r hr => by rw [hmk]; exact hr) (fun r e => (hstate r).trans e)
    (fun r _ _ e => ⟨(hstate r).symm.trans e, hchan r⟩) trivial fun r u hr => ?_
  rw [go_proc, hstate r]
  by_cases hrq : r = q
  · subst hrq
    rw [go_proc, put_proc, Table.update_self] at hr
    cases hr
    exact ⟨hq, hlt, by simp [hu]⟩
  · rw [go_proc, put_proc, Table.update_ne _ _ hrq] at hr
    exact h.child r u hr

theorem Inv.reparents (h : Inv s) {status : ℤ} (hpos : s.pos p = .reparent status q) (hq : q < NPROC)
    (hc : (s.proc q).parent = some p) :
    Inv ((s.put q fun pp => { pp with parent := some INIT }).go p (.wakeInit status q 0)) := by
  have hp : (s.pos p).holds = true := by rw [hpos]; rfl
  have hl := (h.holds p).1 hp
  have hpr : Promise s p (.reparent status q) := hpos ▸ h.promise p
  have hstate : ∀ r, ((s.put q fun pp => { pp with parent := some INIT }).proc r).state = (s.proc r).state :=
    put_all (P := fun r b => b.state = (s.proc r).state) (fun _ => rfl) rfl
  have hchan : ∀ r, ((s.put q fun pp => { pp with parent := some INIT }).proc r).chan = (s.proc r).chan :=
    put_all (P := fun r b => b.chan = (s.proc r).chan) (fun _ => rfl) rfl
  refine h.alone (fun r hr => h.unique hp hr) rfl (by simp [Pos.holds, hl]) (fun r hr e => ?_)
    (fun _ => (hstate p).trans (h.runs p hl)) (fun r hr => by cases hr) (fun r e => (hstate r).trans e)
    (fun r _ _ e => ⟨(hstate r).symm.trans e, hchan r⟩) ⟨hpr.1, fun r hr => ?_⟩ fun r u hr => ?_
  · rw [go_waitLock, put_waitLock, hl] at e
    exact hr (by simpa using e.symm)
  · by_cases hrq : r = q
    · subst hrq
      rw [go_proc, put_proc, Table.update_self]
      simpa using hpr.1.symm
    · rw [go_proc, put_proc, Table.update_ne _ _ hrq]
      exact hpr.2 r (by omega)
  · rw [go_proc, hstate r]
    by_cases hrq : r = q
    · subst hrq
      rw [go_proc, put_proc, Table.update_self] at hr
      cases hr
      exact ⟨hq, by decide, (h.child r p hc).2.2⟩
    · rw [go_proc, put_proc, Table.update_ne _ _ hrq] at hr
      exact h.child r u hr

theorem Inv.gives (h : Inv s) (hp : (s.pos p).holds = true) (hx : x.holds = false) (hm : x.making = none)
    (hpos : t.pos = s.pos.set p x) (hlock : t.waitLock = none) (hne : ∀ r, r ≠ q → t.proc r = s.proc r)
    (hused : (s.proc q).state ≠ .used) (hasleep : q ≠ p → (t.proc q).state ≠ .sleeping) (hpr : Promise t p x)
    (hchild : ∀ u, (t.proc q).parent = some u → q < NPROC ∧ u < NPROC ∧ (t.proc q).state ≠ .unused) : Inv t := by
  refine h.alone (fun r hr => h.unique hp hr) hpos (by simp [hx, hlock]) (fun r _ => by simp [hlock])
    (fun e => by simp [hlock] at e) (fun r hr => by rw [hm] at hr; cases hr) (fun r e => ?_) (fun r hr _ e => ?_) hpr
    fun r u hr => ?_
  · rw [hne r (by rintro rfl; exact hused e)]; exact e
  · by_cases hrq : r = q
    · subst hrq
      exact absurd e (hasleep hr)
    · rw [hne r hrq] at e ⊢
      exact ⟨e, rfl⟩
  · by_cases hrq : r = q
    · subst hrq
      exact hchild u hr
    · rw [hne r hrq] at hr ⊢
      exact h.child r u hr

theorem Inv.move (h : Inv s) (hrun : (s.proc p).state = .running) (hlt : p < NPROC) (hm : Move s p ok t) : Inv t := by
  have hpr := h.promise p
  cases hm with
  | allocFull hpos | killEnd hpos | allocNext hpos | killNext hpos =>
    exact h.go (by rw [hpos]; rfl) rfl rfl (by simp) trivial
  | allocFails hpos hq hu => exact h.allocFails hpos hu
  | allocs hpos hq hu => exact h.allocs hrun hpos hq hu
  | adopts hpos hl => exact h.adopts hlt hpos hl
  | starts hpos => exact h.starts hpos
  | exits hpos hl =>
    rw [hpos] at hpr
    exact h.alone (fun r _ => h.none_holds hl r) rfl (by simp [Pos.holds]) (fun r hr => by simpa using hr.symm)
      (fun _ => hrun) (fun r hr => by cases hr) (fun _ e => e) (fun _ _ _ e => ⟨e, rfl⟩)
      ⟨hpr, fun r hr => absurd hr (Nat.not_lt_zero r)⟩ h.child
  | waits hpos hl =>
    exact h.alone (fun r _ => h.none_holds hl r) rfl (by simp [Pos.holds]) (fun r hr => by simpa using hr.symm)
      (fun _ => hrun) (fun r hr => by cases hr) (fun _ e => e) (fun _ _ _ e => ⟨e, rfl⟩)
      ⟨fun r hr => absurd hr (Nat.not_lt_zero r), fun _ r hr => absurd hr (Nat.not_lt_zero r)⟩ h.child
  | reparents hpos hq hc => exact h.reparents hpos hq hc
  | reparentNext hpos hc =>
    rw [hpos] at hpr
    refine h.held_go (by rw [hpos]; rfl) rfl ⟨hpr.1, fun r hr => ?_⟩
    obtain hr | rfl := Nat.lt_succ_iff_lt_or_eq.1 hr
    · exact hpr.2 r hr
    · exact hc
  | reparentEnd hpos hq =>
    rw [hpos] at hpr
    refine h.held_go (by rw [hpos]; rfl) rfl ⟨hpr.1, fun u hu => ?_, fun u hu => absurd hu (Nat.not_lt_zero u)⟩
    exact hpr.2 u (by have := (h.child u p hu).1; omega) hu
  | @wakesInit status q r hpos hr =>
    rw [hpos] at hpr
    have hc := h.calm_wake p r (some (.proc INIT)) (x := .wakeInit status q (r + 1)) (by simp)
    exact h.held (by rw [hpos]; rfl) rfl hc (by simp) (by simp) (wake_used s p r _)
      (Promise.calm hc (by simp) (x := .wakeInit status q (r + 1)) hpr)
  | wakeInitEnd hpos hr =>
    rw [hpos] at hpr
    exact h.held_go (by rw [hpos]; rfl) rfl hpr
  | @wakesParent status r hpos hr =>
    rw [hpos] at hpr
    have hc := h.calm_wake p r ((s.proc p).parent.map .proc) (x := .wakeParent status (r + 1)) (by simp)
    refine h.held (p := p) (x := .wakeParent status (r + 1)) (by rw [hpos]; rfl) rfl hc (by simp) (by simp)
      (wake_used s p r _)
      ⟨hpr.1, fun u => by rw [hc.parent u]; exact hpr.2.1 u, fun u hu hp ha => ?_⟩
    rw [hc.parent p] at hp
    obtain hu | rfl := Nat.lt_succ_iff_lt_or_eq.1 hu
    · exact hpr.2.2 u hu hp (hc.awake ha)
    · rw [hp] at ha
      exact h.wakes (by simp [hpos]) _ (by simp) ha
  | wakeParentEnd hpos hr =>
    rw [hpos] at hpr
    refine h.held_go (by rw [hpos]; rfl) rfl ⟨hpr.1, hpr.2.1, fun u hu => ?_⟩
    exact hpr.2.2 u (by have := (h.child p u hu).2.1; omega) hu
  | dies hpos =>
    refine h.gives (q := p) (by rw [hpos]; rfl) rfl rfl rfl rfl
      (fun r hr => by rw [dies_proc]; exact Table.update_ne _ _ hr) (by simp [hrun]) (fun e => absurd rfl e) trivial
      fun u hu => ?_
    rw [dies_proc, Table.update_self] at hu ⊢
    obtain ⟨h1, h2, -⟩ := h.child p u hu
    exact ⟨h1, h2, by simp [Proc.exit]⟩
  | scanNext hpos hc =>
    rw [hpos] at hpr
    refine h.held_go (by rw [hpos]; rfl) rfl ⟨fun r hr hp => ?_, fun hb r hr => ?_⟩
    · obtain hr | rfl := Nat.lt_succ_iff_lt_or_eq.1 hr
      · exact hpr.1 r hr hp
      · exact absurd hp hc
    · obtain hr | rfl := Nat.lt_succ_iff_lt_or_eq.1 hr
      · exact hpr.2 hb r hr
      · exact hc
  | scanLive hpos hz =>
    rw [hpos] at hpr
    refine h.held_go (by rw [hpos]; rfl) rfl ⟨fun r hr hp => ?_, fun hb => by cases hb⟩
    obtain hr | rfl := Nat.lt_succ_iff_lt_or_eq.1 hr
    · exact hpr.1 r hr hp
    · exact hz
  | @reaps q b hpos hq hc hz =>
    refine h.gives (q := q) (by rw [hpos]; rfl) rfl rfl rfl rfl
      (fun r hr => by rw [reap_proc]; exact Table.update_ne _ _ hr) (by simp [hz]) (fun _ => ?_) trivial fun u hu => ?_
    · rw [reap_proc, Table.update_self]
      simp [Proc.freeproc]
    · rw [reap_proc, Table.update_self] at hu
      cases hu
  | copyFails hpos _ _ _ | noChild hpos _ _ =>
    exact h.gives (q := p) (by rw [hpos]; rfl) rfl rfl rfl rfl (fun _ _ => rfl) (by simp [hrun]) (fun e => absurd rfl e)
      trivial (h.child p)
  | decides hpos hq =>
    rw [hpos] at hpr
    refine h.held_go (by rw [hpos]; rfl) rfl fun r hp => ?_
    exact hpr.1 r (by have := (h.child r p hp).1; omega) hp
  | sleeps hpos =>
    refine h.gives (q := p) (by rw [hpos]; rfl) rfl rfl rfl rfl
      (fun r hr => by simp only [go_proc, locked_proc, put_proc]; exact Table.update_ne _ _ hr) (by simp [hrun])
      (fun e => absurd rfl e) (fun _ => by simp [Proc.sleep]) fun u hu => ?_
    simp only [go_proc, locked_proc, put_proc, Table.update_self] at hu ⊢
    obtain ⟨h1, h2, -⟩ := h.child p u hu
    exact ⟨h1, h2, by simp [Proc.sleep]⟩
  | resumes hpos =>
    refine h.put_go ⟨rfl, rfl, rfl, Iff.rfl, Iff.rfl⟩ (fun _ e => ?_) (fun e _ => e) (fun e => e) (by rw [hpos]; rfl)
      (.inr ⟨rfl, rfl, by simp⟩) fun _ => trivial
    rw [hrun] at e; cases e
  | kills hpos =>
    exact h.put_go (Kin.kill _) (fun _ e => (kill_quiet _ e).elim) (fun e _ => (kill_of_ne (by simp [e])).trans e)
      (fun e => (kill_of_ne (by simp [e])).trans e) (by rw [hpos]; rfl) (.inr ⟨rfl, rfl, by simp⟩) fun _ => trivial

theorem go_self (s : St) (p : ℕ) : s.go p (s.pos p) = s := by
  unfold St.go
  rw [Store.set_same]

theorem Inv.put (h : Inv s) (hk : Kin (s.proc q) (f (s.proc q)))
    (hs : s.pos q = .asleep → (f (s.proc q)).state = .sleeping →
      (s.proc q).state = .sleeping ∧ (f (s.proc q)).chan = (s.proc q).chan)
    (hu : (s.proc q).state = .used → (f (s.proc q)).state = .used) (hq : (s.pos q).holds = false) : Inv
      (s.put q f) := by
  have hl : s.waitLock ≠ some q := fun e => by rw [(h.holds q).2 e] at hq; cases hq
  have := h.put_go (p := q) (x := s.pos q) hk hs (fun _ e => absurd e hl) hu hq (.inl rfl) fun e => absurd rfl e
  rwa [← put_pos s q f, go_self] at this

theorem user_holds (h : x.isUser = true) : x.holds = false := by cases x <;> first | rfl | cases h

/-- a call starts here -/
def Pos.starts (p : ℕ) : Pos → Prop
  | .alloc _ | .wait | .kill _ _ => True
  | .exit _ => p ≠ INIT
  | _ => False

/-- what a step of the machine can do -/
inductive Change (s : St) : St → Prop
  /-- a process goes on in the function it is in -/
  | move {p : ℕ} {ok : Bool} {t : St} (hlt : p < NPROC) (hrun : (s.proc p).state = .running)
      (hm : Move s p ok t) : Change s t
  /-- a process calls a function -/
  | call {p : ℕ} {x : Pos} (hrun : (s.proc p).state = .running) (hp : (s.pos p).isUser = true)
      (hx : x.starts p) : Change s (s.go p x)
  /-- a slot changes in a way that does not concern the protocol -/
  | slot {q : ℕ} {f : Proc → Proc} (hk : Kin (s.proc q) (f (s.proc q)))
      (hs : s.pos q = .asleep → (f (s.proc q)).state = .sleeping →
        (s.proc q).state = .sleeping ∧ (f (s.proc q)).chan = (s.proc q).chan)
      (hu : (s.proc q).state = .used → (f (s.proc q)).state = .used)
      (hq : (s.proc q).state = .running → (s.pos q).holds = false ∨ f (s.proc q) = s.proc q) : Change s (s.put q f)

theorem change_of_step {a : Act} (h : Inv s) (hl : legal s a) (hs : step s a = .ok t) : Change s t := by
  have hstate : ∀ {x : Proc} {y : ProcState}, x.state = y → y ≠ .unused → y ≠ .zombie →
      x.state ≠ .unused ∧ x.state ≠ .zombie := fun hx h1 h2 => by rw [hx]; exact ⟨h1, h2⟩
  cases a with
  | fork p => cases hs; exact .call hl.2.1 hl.2.2 trivial
  | wait p => cases hs; exact .call hl.2.1 hl.2.2 trivial
  | kill p pid => cases hs; exact .call hl.2.1 hl.2.2 trivial
  | exit p status =>
    simp only [Exit.step] at hs
    split_ifs at hs with hp
    cases hs
    exact .call hl.2.1 hl.2.2 hp
  | advance p ok =>
    cases hs
    exact .move hl.1 hl.2.1 (move_of_advance hl)
  | fault p =>
    cases hs
    exact .slot ⟨rfl, rfl, rfl, Iff.rfl, Iff.rfl⟩ (fun _ e => ⟨e, rfl⟩) (fun e => e) fun _ => .inl (user_holds hl.2.2)
  | sleep p c =>
    cases hs
    refine .slot (Kin.of_state rfl rfl rfl (hstate hl.2.1 (by simp) (by simp)) (by simp [Proc.sleep])) (fun e => ?_)
      (fun e => ?_) fun _ => .inl (user_holds hl.2.2)
    · have := hl.2.2
      rw [e] at this; cases this
    · rw [hl.2.1] at e; cases e
  | wakeup c r =>
    cases hs
    refine .slot (Kin.wake _ _) (fun _ e => ?_) (fun e => ?_) fun e => .inr (wake_of_ne (by simp [e]) _)
    · have hw := wake_quiet _ _ e
      rw [hw] at e ⊢
      exact ⟨e, rfl⟩
    · rw [wake_of_ne (by simp [e])]; exact e
  | dispatch p =>
    cases hs
    refine .slot (Kin.of_state rfl rfl rfl (hstate hl.2 (by simp) (by simp)) (by simp)) (fun _ e => by cases e)
      (fun e => ?_) fun e => ?_
    · rw [hl.2] at e; cases e
    · rw [hl.2] at e; cases e
  | yield p =>
    cases hs
    refine .slot (Kin.of_state rfl rfl rfl (hstate hl.2.1 (by simp) (by simp)) (by simp)) (fun _ e => by cases e)
      (fun e => ?_) fun _ => .inl ?_
    · rw [hl.2.1] at e; cases e
    · by_contra hc
      exact hl.2.2 ((h.holds p).1 (by simpa using hc))

theorem Inv.change (h : Inv s) (hc : Change s t) : Inv t := by
  cases hc with
  | move hlt hrun hm => exact h.move hrun hlt hm
  | @call p x hrun hp hx =>
    cases x with
    | alloc | wait | kill | exit => exact h.go (user_holds hp) rfl rfl (by simp) hx
    | _ => exact hx.elim
  | @slot q f hk hs hu hq =>
    by_cases hrun : (s.proc q).state = .running
    · obtain hq | hid := hq hrun
      · exact h.put hk hs hu hq
      · have : s.put q f = s := by
          unfold St.put Table.update
          rw [hid, Store.set_same]
        rw [this]; exact h
    · exact h.put hk hs hu (h.not_holds hrun)

theorem Inv.boot : Inv boot := by
  refine ⟨fun p => by simp [Exit.boot, Pos.holds], fun p hp => (by cases hp), fun p q hp => (by cases hp),
    fun p p' q hp => (by cases hp), fun p => trivial, fun q p hp => ?_⟩
  have hparent : (bootTable q).parent = none := by unfold bootTable; split_ifs <;> rfl
  exact absurd (hparent.symm.trans hp) (by simp)

/-! ## No wakeup is lost -/

/-- a ZOMBIE's parent is not asleep in `kwait`, unless it is init and a wakeup of init is still to reach its slot -/
def Woken (s : St) : Prop :=
  ∀ u q, Asleep s u → (s.proc q).state = .zombie → (s.proc q).parent = some u →
    u = INIT ∧ ∃ x status r, s.pos x = .wakeInit status q r ∧ r ≤ INIT

/-- a step that puts nobody to sleep, makes no ZOMBIE and gives none a new parent -/
theorem Woken.keep (h : Woken s) (hA : ∀ u, Asleep t u → Asleep s u)
    (hz : ∀ q u, (t.proc q).state = .zombie → (t.proc q).parent = some u →
      (s.proc q).state = .zombie ∧ (s.proc q).parent = some u)
    (hpos : ∀ x status q r, s.pos x = .wakeInit status q r → r ≤ INIT → Asleep t INIT →
      ∃ status' r', t.pos x = .wakeInit status' q r' ∧ r' ≤ INIT) : Woken t := by
  intro u q hu hq hp
  obtain ⟨h1, h2⟩ := hz q u hq hp
  obtain ⟨hinit, x, status, r, hx, hr⟩ := h u q (hA u hu) h1 h2
  obtain ⟨status', r', hx', hr'⟩ := hpos x status q r hx hr (hinit ▸ hu)
  exact ⟨hinit, x, status', r', hx', hr'⟩

theorem Woken.calm (h : Woken s) (hc : Calm s t)
    (hpos : ∀ x status q r, s.pos x = .wakeInit status q r → r ≤ INIT → Asleep t INIT →
      ∃ status' r', t.pos x = .wakeInit status' q r' ∧ r' ≤ INIT) : Woken t :=
  h.keep (fun _ hu => hc.awake hu) (fun q _ hq hp => ⟨hc.zombie q hq, (hc.parent q).symm.trans hp⟩) hpos

theorem pos_kept (hpos : t.pos = s.pos.set p x) (hp : ∀ status q r, s.pos p ≠ .wakeInit status q r)
    (y : ℕ) (status : ℤ) (q r : ℕ) (hy : s.pos y = .wakeInit status q r) (hr : r ≤ INIT) (_ : Asleep t INIT) :
    ∃ status' r', t.pos y = .wakeInit status' q r' ∧ r' ≤ INIT := by
  have hyp : y ≠ p := by
    rintro rfl
    exact hp status q r hy
  exact ⟨status, r, by rw [hpos, Store.set_ne _ _ hyp]; exact hy, hr⟩

/-- the steps that another process can notice -/
inductive Notable (s : St) (p : ℕ) : St → Prop
  | adopts {q pid} (hpos : s.pos p = .adopt q pid) :
      Notable s p ((s.put q fun np => { np with parent := some p }).go p (.start q pid))
  | reparents {status q} (hpos : s.pos p = .reparent status q) :
      Notable s p ((s.put q fun pp => { pp with parent := some INIT }).go p (.wakeInit status q 0))
  | dies {status} (hpos : s.pos p = .dying status) : Notable s p (s.dies p status)
  | reaps {q b} (hpos : s.pos p = .scan q b) : Notable s p (s.reap p q)
  | sleeps (hpos : s.pos p = .toSleep) : Notable s p (((s.put p (·.sleep (.proc p))).locked none).go p .asleep)

/-- no other step is noticed -/
theorem Inv.calm_move (h : Inv s) (hrun : (s.proc p).state = .running) (hm : Move s p ok t) :
    Notable s p t ∨ Calm s t := by
  have hgo : ∀ {x : Pos}, x ≠ .asleep → Calm s (s.go p x) := fun hx => h.calm_go fun e => absurd e hx
  cases hm with
  | adopts hpos => exact .inl (.adopts hpos)
  | reparents hpos => exact .inl (.reparents hpos)
  | dies hpos => exact .inl (.dies hpos)
  | reaps hpos => exact .inl (.reaps hpos)
  | sleeps hpos => exact .inl (.sleeps hpos)
  | allocFails hpos hq hu => exact .inr (h.calm_allocFails hu)
  | allocs hpos hq hu =>
    exact .inr ((h.calm_go (p := _) (x := .user 0) fun e => by cases e).trans (h.calm_allocs hu) rfl)
  | starts hpos => exact .inr (h.calm_starts hpos)
  | wakesInit | wakesParent => exact .inr (h.calm_wake p _ _ (by simp))
  | exits | waits | copyFails | noChild =>
    have hc := hgo (x := .user 0) (by simp)
    refine .inr ⟨hc.parent, hc.zombie, hc.unused, fun r hr => ⟨?_, fun e => ⟨e, rfl⟩⟩, hc.runs⟩
    by_cases hrp : r = p
    · subst hrp
      simp at hr
    · rwa [go_pos, locked_pos, Store.set_ne _ _ hrp] at hr
  | resumes hpos =>
    refine .inr (h.calm_put rfl (fun e => e) (fun e => e) (fun _ e => ?_) (fun _ => hrun) fun e => by cases e)
    rw [hrun] at e; cases e
  | @kills pid q hpos =>
    have hk := Kin.kill (s.proc q)
    exact .inr (h.calm_put hk.parent hk.zombie.1 hk.unused.1 (fun _ e => (kill_quiet _ e).elim)
      (fun hl => (kill_of_ne (by simp [h.runs _ hl])).trans (h.runs _ hl)) fun e => by cases e)
  | _ => exact .inr (hgo (by simp))

theorem Move.pos_ne (hm : Move s p ok t) {x : ℕ} (hx : x ≠ p) (hu : (s.proc x).state ≠ .unused) :
    t.pos x = s.pos x := by
  cases hm with
  | @allocs q hpos hq huq =>
    have hxq : x ≠ q := by
      rintro rfl
      exact hu huq
    show (s.pos.set q (.user 0)).set p _ x = s.pos x
    rw [Store.set_ne _ _ hx, Store.set_ne _ _ hxq]
  | wakesInit | wakesParent => rw [go_pos, wake_pos, Store.set_ne _ _ hx]
  | _ => exact Store.set_ne _ _ hx

/-- while p holds wait_lock and no wakeup of init is under way, no ZOMBIE's parent is asleep -/
theorem Woken.strict (hw : Woken s) (h : Inv s) (hh : (s.pos p).holds = true)
    (hp : ∀ status q r, s.pos p ≠ .wakeInit status q r) {u : ℕ} (hu : Asleep s u) (hq : (s.proc q).state = .zombie)
    (hc : (s.proc q).parent = some u) : False := by
  obtain ⟨-, x, status, r, hx, -⟩ := hw u q hu hq hc
  by_cases hxp : x = p
  · subst hxp
    exact hp status q r hx
  · have := h.unique hh hxp
    rw [hx] at this; cases this

theorem Woken.notable (hw : Woken s) (h : Inv s) (hm : Notable s p t) : Woken t := by
  have hpr := h.promise p
  cases hm with
  | @adopts q pid hpos =>
    have hu := (h.made p q (by rw [hpos]; rfl)).2
    have hstate : ∀ r, ((s.put q fun np => { np with parent := some p }).proc r).state = (s.proc r).state :=
      put_all (P := fun r b => b.state = (s.proc r).state) (fun _ => rfl) rfl
    refine hw.keep (fun u hA => ⟨?_, (hstate u).symm.trans hA.2⟩) (fun r u hz hp => ?_) (pos_kept rfl (by simp [hpos]))
    · have := hA.1
      by_cases hup : u = p
      · subst hup
        simp at this
      · rwa [go_pos, Store.set_ne _ _ hup] at this
    · rw [go_proc, hstate r] at hz
      have hrq : r ≠ q := by
        rintro rfl
        rw [hu] at hz; cases hz
      rw [go_proc, put_proc, Table.update_ne _ _ hrq] at hp
      exact ⟨hz, hp⟩
  | @reparents status q hpos =>
    have hstate : ∀ r, ((s.put q fun pp => { pp with parent := some INIT }).proc r).state = (s.proc r).state :=
      put_all (P := fun r b => b.state = (s.proc r).state) (fun _ => rfl) rfl
    intro u r hA hz hp
    rw [go_proc, hstate r] at hz
    by_cases hrq : r = q
    · subst hrq
      rw [go_proc, put_proc, Table.update_self] at hp
      cases hp
      exact ⟨rfl, p, status, 0, by simp, Nat.zero_le _⟩
    rw [go_proc, put_proc, Table.update_ne _ _ hrq] at hp
    have hup : u ≠ p := by
      rintro rfl
      have := hA.1
      simp at this
    refine (hw.strict h (p := p) (by rw [hpos]; rfl) (by simp [hpos]) (u := u) ⟨?_, ?_⟩ hz hp).elim
    · have := hA.1
      rwa [go_pos, Store.set_ne _ _ hup] at this
    · exact (hstate u).symm.trans hA.2
  | @dies status hpos =>
    rw [hpos] at hpr
    intro u r hA hz hp
    have hup : u ≠ p := by
      rintro rfl
      have := hA.1
      simp [St.dies] at this
    have hA' : Asleep s u := by
      obtain ⟨h1, h2⟩ := hA
      refine ⟨?_, ?_⟩
      · have h1 : s.pos.set p .dead u = .asleep := h1
        rwa [Store.set_ne _ _ hup] at h1
      · rwa [dies_proc, Table.update_ne _ _ hup] at h2
    rw [dies_proc] at hz hp
    by_cases hrp : r = p
    · subst hrp
      rw [Table.update_self] at hp
      exact absurd hA' (hpr.2.2 u hp)
    · rw [Table.update_ne _ _ hrp] at hz hp
      exact (hw.strict h (p := p) (by rw [hpos]; rfl) (by simp [hpos]) hA' hz hp).elim
  | @reaps q b hpos =>
    refine hw.keep (fun u hA => ?_) (fun r u hz hp => ?_) (pos_kept rfl (by simp [hpos]))
    · obtain ⟨h1, h2⟩ := hA
      have hup : u ≠ p := by
        rintro rfl
        simp [St.reap] at h1
      have h1 : s.pos.set p _ u = .asleep := h1
      rw [Store.set_ne _ _ hup] at h1
      refine ⟨h1, ?_⟩
      by_cases huq : u = q
      · subst huq
        rw [reap_proc, Table.update_self] at h2
        cases h2
      · rwa [reap_proc, Table.update_ne _ _ huq] at h2
    · rw [reap_proc] at hz hp
      by_cases hrq : r = q
      · subst hrq
        rw [Table.update_self] at hz
        cases hz
      · rw [Table.update_ne _ _ hrq] at hz hp
        exact ⟨hz, hp⟩
  | sleeps hpos =>
    rw [hpos] at hpr
    intro u r hA hz hp
    simp only [go_proc, locked_proc, put_proc] at hz hp
    have hrp : r ≠ p := by
      rintro rfl
      rw [Table.update_self] at hz
      cases hz
    rw [Table.update_ne _ _ hrp] at hz hp
    by_cases hup : u = p
    · subst hup
      exact absurd hz (hpr r hp)
    · refine (hw.strict h (p := p) (by rw [hpos]; rfl) (by simp [hpos]) (u := u) ⟨?_, ?_⟩ hz hp).elim
      · have := hA.1
        rwa [go_pos, locked_pos, put_pos, Store.set_ne _ _ hup] at this
      · have := hA.2
        rwa [go_proc, locked_proc, put_proc, Table.update_ne _ _ hup] at this

/-- the steps of a wakeup of init -/
theorem Move.of_wakeInit (hm : Move s p ok t) {status : ℤ} {r : ℕ} (hpos : s.pos p = .wakeInit status q r) :
    (r < NPROC ∧ t = (s.wake p r (some (.proc INIT))).go p (.wakeInit status q (r + 1))) ∨ NPROC ≤ r := by
  cases hm with
  | wakesInit h hr =>
    rw [hpos] at h
    cases h
    exact .inl ⟨hr, rfl⟩
  | wakeInitEnd h hr =>
    rw [hpos] at h
    cases h
    exact .inr hr
  | _ => simp_all

theorem Woken.move (hw : Woken s) (h : Inv s) (hrun : (s.proc p).state = .running) (hm : Move s p ok t) : Woken t := by
  obtain hn | hc := h.calm_move hrun hm
  · exact hw.notable h hn
  refine hw.calm hc fun x status q r hx hr hA => ?_
  by_cases hxp : x = p
  · subst hxp
    obtain ⟨-, rfl⟩ | hr' := hm.of_wakeInit hx
    · have hne : r ≠ INIT := by
        rintro rfl
        exact h.wakes (by simp [hx]) _ (by simp) hA
      exact ⟨status, r + 1, by simp, by omega⟩
    · exact absurd (hr'.trans hr) (by decide)
  · have hrx := h.runs x ((h.holds x).1 (by rw [hx]; rfl))
    exact ⟨status, r, by rw [hm.pos_ne hxp (by simp [hrx])]; exact hx, hr⟩

/-- a slot changes, nobody falls asleep in `kwait`, and no process moves -/
theorem Woken.put (hw : Woken s) (hk : Kin (s.proc q) (f (s.proc q)))
    (hs : s.pos q = .asleep → (f (s.proc q)).state = .sleeping → (s.proc q).state = .sleeping) : Woken (s.put q f) := by
  have hkin : ∀ r, Kin (s.proc r) ((s.put q f).proc r) := put_all (P := fun r b => Kin (s.proc r) b)
    (fun _ => Kin.refl _) hk
  have hsl : ∀ r, s.pos r = .asleep → ((s.put q f).proc r).state = .sleeping → (s.proc r).state = .sleeping :=
    put_all (P := fun r b => s.pos r = .asleep → b.state = .sleeping → (s.proc r).state = .sleeping) (fun _ _ e => e) hs
  exact hw.keep (fun u hA => ⟨hA.1, hsl u hA.1 hA.2⟩)
    (fun r _ hz hp => ⟨(hkin r).zombie.1 hz, (hkin r).parent.symm.trans hp⟩) fun x st r' r hx hr _ => ⟨st, r, hx, hr⟩

theorem Woken.call (hw : Woken s) (h : Inv s) (hp : (s.pos p).isUser = true) (hx : x ≠ .asleep) :
    Woken (s.go p x) :=
  hw.calm (h.calm_go fun e => absurd e hx) (pos_kept rfl fun st q r e => by rw [e] at hp; cases hp)

theorem Woken.change (hw : Woken s) (h : Inv s) (hc : Change s t) : Woken t := by
  cases hc with
  | move hlt hrun hm => exact hw.move h hrun hm
  | @call p x hrun hp hx => exact hw.call h hp (by rintro rfl; exact hx)
  | slot hk hs hu hq => exact hw.put hk fun e e' => (hs e e').1

theorem Woken.boot : Woken boot := fun u q hA => by cases hA.1

end Xv6.Procs.Exit
