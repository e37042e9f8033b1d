/-
Scheduling (kernel/proc.c: `scheduler`, `sched`, `yield`, `forkret`, `sleep`, and the critical sections of `wakeup`,
`kkill`, `allocproc`, `kfork`, `kwait` and `kexit` as far as they touch p->state). Any number of CPUs.

Every CPU executes its scheduler or a process. p->lock is taken on one side of a `swtch` and released on the other:
`lock` is the CPU that holds it. A step is one access to a lock, to p->state or to c->proc, or a `swtch`.

- `Inv`: the invariant.
- `scheduler_exclusive`: so a process is on one CPU at a time, and no check of `sched` fails.
-/
import Xv6.Proc.Table

namespace Xv6.Procs.Sched

open Xv6.Core

/-! ## The machine -/

/-- the functions that call `sched` -/
inductive Why where
  | yield
  | sleep
  | exit
deriving DecidableEq, Repr

/-- p->state when `sched` is called -/
def Why.state : Why → ProcState
  | .yield => .runnable
  | .sleep => .sleeping
  | .exit => .zombie

/-- what a process does to a slot whose lock it has taken -/
inductive Op where
  /-- `wakeup`; hit: the channel is the one of the sleeper -/
  | wakeup (hit : Bool)
  /-- `kkill`; hit: the pid is the one of the slot -/
  | kill (hit : Bool)
  /-- `killed`, `setkilled`, the scan of `kwait`: no change of the state -/
  | look
  /-- `allocproc` and the rest of `kfork` up to the release of np->lock; ok: there is memory -/
  | alloc (ok : Bool)
  /-- the end of `kfork` -/
  | start
  /-- `freeproc` in `kwait` -/
  | free
deriving DecidableEq, Repr

/-- where a process that has a CPU is -/
inductive Pc where
  /-- just switched to, in `forkret` or at the end of `sched`, holding p->lock -/
  | resumed
  /-- in user space, or in the kernel without a p->lock -/
  | run
  /-- holding the lock of slot q -/
  | locked (q : ℕ) (op : Op)
  /-- about to release the lock of slot q -/
  | done (q : ℕ)
  /-- holding p->lock to give up the CPU -/
  | giving (w : Why)
  /-- in `sched`, before `swtch` -/
  | sched (w : Why)
deriving DecidableEq, Repr

/-- what a CPU executes -/
inductive Exec where
  /-- `scheduler`, before `acquire(&p->lock)` -/
  | scan (p : ℕ)
  /-- `scheduler`, before it looks at p->state -/
  | looking (p : ℕ)
  /-- `scheduler`, before `c->proc = p` -/
  | chosen (p : ℕ)
  /-- `scheduler`, before `swtch` -/
  | switch (p : ℕ)
  /-- `scheduler`, back from `swtch` -/
  | back (p : ℕ)
  /-- `scheduler`, before `release(&p->lock)` -/
  | releasing (p : ℕ)
  /-- in the interrupt handler at the top of the scheduler's loop, calling `wakeup` with the lock of slot q held -/
  | waking (q : ℕ) (hit : Bool)
  /-- in the interrupt handler, about to release the lock of slot q -/
  | woken (q : ℕ)
  | process (p : ℕ) (pc : Pc)
deriving DecidableEq, Repr

/-- p->context: where a process goes on when it is switched to -/
inductive Ctx where
  | forkret
  | sched
  /-- after the `sched` of `kexit` -/
  | exited
deriving DecidableEq, Repr

/-- the context that `sched` saves -/
def Why.ctx : Why → Ctx
  | .exit => .exited
  | _ => .sched

inductive Panic where
  /-- "sched p->lock" -/
  | schedLock
  /-- "sched RUNNING" -/
  | schedRunning
  /-- "zombie exit" -/
  | zombieExit
deriving DecidableEq, Repr

structure St where
  state : Store ProcState
  /-- the CPU that holds p->lock -/
  lock : Store (Option ℕ)
  ctx : Store Ctx
  /-- `kfork`'s np, from its allocation until it is made RUNNABLE -/
  np : Store (Option ℕ)
  /-- c->proc -/
  cur : Store (Option ℕ)
  exec : Store Exec

namespace St

variable (s : St)

def goto (c : ℕ) (e : Exec) : St := { s with exec := s.exec.set c e }

def setState (p : ℕ) (x : ProcState) : St := { s with state := s.state.set p x }

def setLock (p : ℕ) (o : Option ℕ) : St := { s with lock := s.lock.set p o }

def setCur (c : ℕ) (o : Option ℕ) : St := { s with cur := s.cur.set c o }

/-- a sleeper is made RUNNABLE -/
def wake (q : ℕ) (hit : Bool) : St := if hit = true ∧ s.state q = .sleeping then s.setState q .runnable else s

/-- process p does op to slot q -/
def apply (p q : ℕ) : Op → St
  | .wakeup hit | .kill hit => s.wake q hit
  | .look => s
  | .alloc ok =>
    if s.state q = .unused ∧ ok = true then
      { s.setState q .used with ctx := s.ctx.set q .forkret, np := s.np.set p (some q) }
    else s
  | .start => { s.setState q .runnable with np := s.np.set p none }
  | .free => if s.state q = .zombie then s.setState q .unused else s

/-- the next step of CPU c -/
def next (c : ℕ) : Except Panic St :=
  match s.exec c with
  | .scan p => .ok ((s.setLock p (some c)).goto c (.looking p))
  | .looking p =>
    if s.state p = .runnable then .ok ((s.setState p .running).goto c (.chosen p)) else .ok (s.goto c (.releasing p))
  | .chosen p => .ok ((s.setCur c (some p)).goto c (.switch p))
  | .switch p => if s.ctx p = .exited then .error .zombieExit else .ok (s.goto c (.process p .resumed))
  | .back p => .ok ((s.setCur c none).goto c (.releasing p))
  | .releasing p => .ok ((s.setLock p none).goto c (.scan ((p + 1) % NPROC)))
  | .waking q hit => .ok ((s.wake q hit).goto c (.woken q))
  | .woken q => .ok ((s.setLock q none).goto c (.scan 0))
  | .process p .resumed => .ok ((s.setLock p none).goto c (.process p .run))
  | .process _ .run => .ok s
  | .process p (.locked q op) => .ok ((s.apply p q op).goto c (.process p (.done q)))
  | .process p (.done q) => .ok ((s.setLock q none).goto c (.process p .run))
  | .process p (.giving w) => .ok ((s.setState p w.state).goto c (.process p (.sched w)))
  | .process p (.sched w) =>
    if s.lock p ≠ some c then .error .schedLock
    else if s.state p = .running then .error .schedRunning
    else .ok ({ s with ctx := s.ctx.set p w.ctx }.goto c (.back p))

end St

inductive Act where
  /-- the next step of CPU c -/
  | next (c : ℕ)
  /-- the process on CPU c takes the lock of slot q -/
  | take (c q : ℕ) (op : Op)
  /-- the process on CPU c takes its own lock to give up the CPU -/
  | give (c : ℕ) (w : Why)
  /-- an interrupt on CPU c, which runs no process, calls `wakeup`; the handler takes the lock of slot q -/
  | intr (c q : ℕ) (hit : Bool)
deriving DecidableEq, Repr

def step (s : St) : Act → Except Panic St
  | .next c => s.next c
  | .take c q op =>
    match s.exec c with
    | .process p _ => .ok ((s.setLock q (some c)).goto c (.process p (.locked q op)))
    | _ => .ok s
  | .give c w =>
    match s.exec c with
    | .process p _ => .ok ((s.setLock p (some c)).goto c (.process p (.giving w)))
    | _ => .ok s
  | .intr c q hit => .ok ((s.setLock q (some c)).goto c (.waking q hit))

/-- process p takes the lock of slot q for op: `wakeup` passes over its caller, and `kfork` ends with the child it has
allocated -/
def Op.aims (s : St) (p q : ℕ) : Op → Prop
  | .wakeup _ => q ≠ p
  | .start => s.np p = some q
  | _ => True

/-- a process that runs with no p->lock held may take that of slot q -/
def mayTake (s : St) (q : ℕ) (op : Op) : Exec → Prop
  | .process p .run => s.lock q = none ∧ q < NPROC ∧ op.aims s p q
  | _ => False

def mayGive (s : St) : Exec → Prop
  | .process p .run => s.lock p = none
  | _ => False

/-- the scheduler's next step is not blocked, and a running process has none of its own -/
def mayStep (s : St) : Exec → Prop
  | .scan p => s.lock p = none
  | .process _ .run => False
  | _ => True

def legal (s : St) : Act → Prop
  | .next c => mayStep s (s.exec c)
  | .take c q op => mayTake s q op (s.exec c)
  | .give c _ => mayGive s (s.exec c)
  | .intr c q _ => s.exec c = .scan 0 ∧ s.lock q = none ∧ q < NPROC

instance (s : St) (p q : ℕ) (op : Op) : Decidable (op.aims s p q) := by cases op <;> unfold Op.aims <;> infer_instance

instance (s : St) (q : ℕ) (op : Op) (e : Exec) : Decidable (mayTake s q op e) := by
  unfold mayTake; split <;> infer_instance

instance (s : St) (e : Exec) : Decidable (mayGive s e) := by unfold mayGive; split <;> infer_instance

instance (s : St) (e : Exec) : Decidable (mayStep s e) := by unfold mayStep; split <;> infer_instance

instance (s : St) (a : Act) : Decidable (legal s a) := by cases a <;> unfold legal <;> infer_instance

def cpus : Machine St Act Panic := ⟨legal, step⟩

instance (s : St) (a : Act) : Decidable (cpus.legal s a) := inferInstanceAs (Decidable (legal s a))

/-- init is RUNNABLE, and every CPU has just called `scheduler` -/
def boot : St :=
  ⟨fun p => if p = INIT then .runnable else .unused, fun _ => none, fun _ => .forkret, fun _ => none, fun _ => none,
    fun _ => .scan 0⟩

/-! ## What a CPU stands for -/

/-- the slot whose lock the CPU holds -/
def Exec.holds : Exec → Option ℕ
  | .scan _ => none
  | .looking p | .chosen p | .switch p | .back p | .releasing p => some p
  | .waking q _ | .woken q => some q
  | .process p .resumed | .process p (.giving _) | .process p (.sched _) => some p
  | .process _ (.locked q _) | .process _ (.done q) => some q
  | .process _ .run => none

/-- its current process -/
def Exec.current : Exec → Option ℕ
  | .switch p | .process p _ | .back p => some p
  | _ => none

/-- the process that it has made RUNNING and not yet given back -/
def Exec.claims : Exec → Option ℕ
  | .chosen p | .switch p | .process p _ | .back p => some p
  | _ => none

/-- the process that is RUNNING because of it -/
def Exec.runs : Exec → Option ℕ
  | .chosen p | .switch p => some p
  | .process _ (.sched _) => none
  | .process p _ => some p
  | _ => none

/-- the process that is not RUNNING, and stays so as long as the CPU holds its lock -/
def Exec.parks : Exec → Option ℕ
  | .process p (.sched _) | .back p => some p
  | _ => none

theorem claims_of_runs {e : Exec} {p : ℕ} (h : e.runs = some p) : e.claims = some p := by
  cases e with
  | process q pc => cases pc <;> first | exact h | cases h
  | _ => first | exact h | cases h

theorem holds_of_parks {e : Exec} {p : ℕ} (h : e.parks = some p) : e.holds = some p := by
  cases e with
  | process q pc => cases pc <;> first | exact h | cases h
  | _ => first | exact h | cases h

theorem claims_of_current {e : Exec} {p : ℕ} (h : e.current = some p) : e.claims = some p := by
  cases e <;> first | exact h | cases h

theorem runs_or_parks {e : Exec} {p : ℕ} (h : e.claims = some p) : e.runs = some p ∨ e.parks = some p := by
  cases e with
  | process q pc => cases pc <;> first | exact .inl h | exact .inr h
  | _ => first | exact .inl h | exact .inr h

/-! ## The invariant -/

structure Inv (s : St) : Prop where
  lock : ∀ c p, s.lock p = some c ↔ (s.exec c).holds = some p
  cur : ∀ c, s.cur c = (s.exec c).current
  runs : ∀ c p, (s.exec c).runs = some p → s.state p = .running
  parks : ∀ c p, (s.exec c).parks = some p → s.state p ≠ .running
  unique : ∀ c d p, (s.exec c).claims = some p → (s.exec d).claims = some p → c = d
  claimed : ∀ p, s.state p = .running → ∃ c, (s.exec c).claims = some p
  np : ∀ p q, s.np p = some q → s.state q = .used
  np_inj : ∀ p p' q, s.np p = some q → s.np p' = some q → p = p'
  start : ∀ c p q, s.exec c = .process p (.locked q .start) → s.np p = some q
  ctx : ∀ p, s.ctx p = .exited → s.state p = .zombie ∨ s.state p = .unused
  exiting : ∀ c p, s.exec c = .process p (.sched .exit) → s.state p = .zombie

variable {s t : St} {c d : ℕ}

/-- CPU c goes on to e: what has to be shown. It may change the states of slots whose lock it holds, and stop a process
from RUNNING only if the process is its own. -/
structure Goes (s t : St) (c : ℕ) (e : Exec) : Prop where
  exec : t.exec = s.exec.set c e
  lock_other : ∀ d p, d ≠ c → (t.lock p = some d ↔ s.lock p = some d)
  lock_self : ∀ p, t.lock p = some c ↔ e.holds = some p
  cur : t.cur = s.cur.set c e.current
  state : ∀ p, t.state p ≠ s.state p → s.lock p = some c ∧ (s.state p = .running → (s.exec c).claims = some p)
  runs : ∀ p, e.runs = some p → t.state p = .running
  parks : ∀ p, e.parks = some p → t.state p ≠ .running
  claims : ∀ p, e.claims = some p → (s.exec c).claims = some p ∨ s.lock p = some c ∧ s.state p ≠ .running
  claimed : ∀ p, t.state p = .running → (s.exec c).claims = some p ∨ s.state p ≠ .running → e.claims = some p
  np : ∀ p q, t.np p = some q → t.state q = .used
  np_inj : ∀ p p' q, t.np p = some q → t.np p' = some q → p = p'
  np_other : ∀ p, t.np p ≠ s.np p → (s.exec c).claims = some p
  start : ∀ p q, e = .process p (.locked q .start) → t.np p = some q
  ctx : ∀ p, t.ctx p = .exited → t.state p = .zombie ∨ t.state p = .unused
  exiting : ∀ p, e = .process p (.sched .exit) → t.state p = .zombie

theorem Inv.other_runs (h : Inv s) {e : Exec} (g : Goes s t c e) {p : ℕ} (hd : d ≠ c) (hp : (s.exec d).runs = some p) :
    t.state p = .running := by
  by_contra hne
  have hrun : s.state p = .running := h.runs d p hp
  have hch := g.state p (by rw [hrun]; exact hne)
  exact hd (h.unique d c p (claims_of_runs hp) (hch.2 hrun))

/-- the state of a slot does not change while another CPU holds its lock -/
theorem Inv.other_state (h : Inv s) {e : Exec} (g : Goes s t c e) {p : ℕ} (hd : d ≠ c)
    (hp : (s.exec d).holds = some p) :
    t.state p = s.state p := by
  by_contra hne
  have hheld := (h.lock d p).mpr hp
  rw [(g.state p hne).1] at hheld
  exact hd (Option.some.inj hheld).symm

/-- nobody else claims what CPU c claims next -/
theorem Inv.other_claims (h : Inv s) {e : Exec} (g : Goes s t c e) {p : ℕ} (hd : d ≠ c) (hp : e.claims = some p) :
    (s.exec d).claims ≠ some p := by
  intro hdp
  rcases g.claims p hp with hc | ⟨hlock, hnot⟩
  · exact hd (h.unique d c p hdp hc)
  · rcases runs_or_parks hdp with hr | hk
    · exact hnot (h.runs d p hr)
    · have hheld := (h.lock d p).mpr (holds_of_parks hk)
      rw [hlock] at hheld
      exact hd (Option.some.inj hheld).symm

theorem Inv.goes (h : Inv s) {e : Exec} (g : Goes s t c e) : Inv t := by
  have hself : t.exec c = e := by rw [g.exec]; exact Store.set_self ..
  have hother : ∀ d, d ≠ c → t.exec d = s.exec d := by
    intro d hd
    rw [g.exec]
    exact Store.set_ne _ _ hd
  constructor
  case lock =>
    intro d p
    by_cases hd : d = c
    · subst hd; rw [hself]; exact g.lock_self p
    · rw [hother d hd]; exact (g.lock_other d p hd).trans (h.lock d p)
  case cur =>
    intro d
    rw [g.cur]
    by_cases hd : d = c
    · subst hd; rw [hself]; exact Store.set_self ..
    · rw [hother d hd]; exact (Store.set_ne _ _ hd).trans (h.cur d)
  case runs =>
    intro d p hp
    by_cases hd : d = c
    · subst hd; rw [hself] at hp; exact g.runs p hp
    · rw [hother d hd] at hp; exact h.other_runs g hd hp
  case parks =>
    intro d p hp
    by_cases hd : d = c
    · subst hd; rw [hself] at hp; exact g.parks p hp
    · rw [hother d hd] at hp
      rw [h.other_state g hd (holds_of_parks hp)]
      exact h.parks d p hp
  case unique =>
    intro d d' p hp hp'
    by_cases hd : d = c <;> by_cases hd' : d' = c
    · rw [hd, hd']
    · subst hd
      rw [hself] at hp
      rw [hother d' hd'] at hp'
      exact absurd hp' (h.other_claims g hd' hp)
    · subst hd'
      rw [hself] at hp'
      rw [hother d hd] at hp
      exact absurd hp (h.other_claims g hd hp')
    · rw [hother d hd] at hp
      rw [hother d' hd'] at hp'
      exact h.unique d d' p hp hp'
  case claimed =>
    intro p hp
    by_cases hnew : (s.exec c).claims = some p ∨ s.state p ≠ .running
    · exact ⟨c, by rw [hself]; exact g.claimed p hp hnew⟩
    · obtain ⟨hc, hrun⟩ := not_or.mp hnew
      obtain ⟨d, hd⟩ := h.claimed p (not_not.mp hrun)
      have hne : d ≠ c := by rintro rfl; exact hc hd
      exact ⟨d, by rw [hother d hne]; exact hd⟩
  case np => exact g.np
  case np_inj => exact g.np_inj
  case start =>
    intro d p q hd
    by_cases hdc : d = c
    · subst hdc; rw [hself] at hd; exact g.start p q hd
    rw [hother d hdc] at hd
    have hkeep : t.np p = s.np p := by
      by_contra hne
      exact hdc (h.unique d c p (by rw [hd]; rfl) (g.np_other p hne))
    rw [hkeep]
    exact h.start d p q hd
  case ctx => exact g.ctx
  case exiting =>
    intro d p hd
    by_cases hdc : d = c
    · subst hdc; rw [hself] at hd; exact g.exiting p hd
    · rw [hother d hdc] at hd
      rw [h.other_state g hdc (by rw [hd]; rfl)]
      exact h.exiting d p hd

/-! ### Steps that change no state -/

theorem Inv.quiet (h : Inv s) {e : Exec} (hexec : t.exec = s.exec.set c e) (hstate : t.state = s.state)
    (hnp : t.np = s.np) (hctx : ∀ p, t.ctx p = .exited → s.ctx p = .exited ∨ s.state p = .zombie)
    (hother : ∀ d p, d ≠ c → (t.lock p = some d ↔ s.lock p = some d))
    (hself : ∀ p, t.lock p = some c ↔ e.holds = some p) (hcur : t.cur = s.cur.set c e.current)
    (hruns : ∀ p, e.runs = some p → s.state p = .running) (hparks : ∀ p, e.parks = some p → s.state p ≠ .running)
    (hclaims : ∀ p, e.claims = some p → (s.exec c).claims = some p)
    (hkeep : ∀ p, (s.exec c).claims = some p → e.claims = some p ∨ s.state p ≠ .running)
    (hstart : ∀ p q, e = .process p (.locked q .start) → s.np p = some q)
    (hexit : ∀ p, e = .process p (.sched .exit) → s.state p = .zombie) : Inv t := by
  refine h.goes (c := c) (e := e) ⟨hexec, hother, hself, hcur, ?_, ?_, ?_, ?_, ?_, ?_, ?_, ?_, ?_, ?_, ?_⟩
  · intro p hp; exact absurd (congrFun hstate p) hp
  · rw [hstate]; exact hruns
  · rw [hstate]; exact hparks
  · intro p hp; exact .inl (hclaims p hp)
  · intro p hp hor
    rw [hstate] at hp
    rcases hor with hc | hn
    · exact (hkeep p hc).resolve_right (not_not.mpr hp)
    · exact absurd hp hn
  · rw [hnp, hstate]; exact h.np
  · rw [hnp]; exact h.np_inj
  · intro p hp; exact absurd (congrFun hnp p) hp
  · rw [hnp]; exact hstart
  · intro p hp
    rw [hstate]
    exact (hctx p hp).elim (h.ctx p) .inl
  · rw [hstate]; exact hexit

/-! ### Locks -/

variable {p q : ℕ} {x : ProcState}

theorem take_other (hfree : s.lock q = none) (d r : ℕ) (hd : d ≠ c) :
    (s.lock.set q (some c)) r = some d ↔ s.lock r = some d := by
  by_cases hr : r = q
  · subst hr
    rw [Store.set_self, hfree]
    exact ⟨fun e => absurd (Option.some.inj e).symm hd, fun e => by cases e⟩
  · rw [Store.set_ne _ _ hr]

theorem Inv.take_self (h : Inv s) (hnone : (s.exec c).holds = none) (r : ℕ) :
    (s.lock.set q (some c)) r = some c ↔ some q = some r := by
  by_cases hr : r = q
  · subst hr; rw [Store.set_self]; exact iff_of_true rfl rfl
  · rw [Store.set_ne _ _ hr, h.lock c r, hnone]
    exact iff_of_false (by simp) fun e => hr (Option.some.inj e).symm

theorem Inv.release_other (h : Inv s) (hq : (s.exec c).holds = some q) (d r : ℕ) (hd : d ≠ c) :
    (s.lock.set q none) r = some d ↔ s.lock r = some d := by
  by_cases hr : r = q
  · subst hr
    rw [Store.set_self, (h.lock c r).mpr hq]
    exact iff_of_false (by simp) fun e => hd (Option.some.inj e).symm
  · rw [Store.set_ne _ _ hr]

theorem Inv.release_self (h : Inv s) (hq : (s.exec c).holds = some q) (r : ℕ) :
    (s.lock.set q none) r = some c ↔ (none : Option ℕ) = some r := by
  refine iff_of_false ?_ (by simp)
  by_cases hr : r = q
  · subst hr; rw [Store.set_self]; simp
  · rw [Store.set_ne _ _ hr, h.lock c r, hq]
    exact fun e => hr (Option.some.inj e).symm

theorem Inv.keep_self (h : Inv s) {e : Exec} (he : e.holds = (s.exec c).holds) (r : ℕ) :
    s.lock r = some c ↔ e.holds = some r := by
  rw [he]; exact h.lock c r

theorem Inv.keep_cur (h : Inv s) {e : Exec} (he : e.current = (s.exec c).current) : s.cur = s.cur.set c e.current := by
  rw [he, ← h.cur c]
  exact (Store.set_same s.cur c).symm

/-! ### Steps that change a state -/

theorem set_state_ne (hstate : t.state = s.state.set q x) (hp : p ≠ q) : t.state p = s.state p := by
  rw [hstate]; exact Store.set_ne _ _ hp

theorem set_state_self (hstate : t.state = s.state.set q x) : t.state q = x := by
  rw [hstate]; exact Store.set_self ..

theorem Inv.choose (h : Inv s) (he : s.exec c = .looking p) (hp : s.state p = .runnable) :
    Inv ((s.setState p .running).goto c (.chosen p)) := by
  have hlock : s.lock p = some c := (h.lock c p).mpr (by rw [he]; rfl)
  have hself : ((s.setState p .running).goto c (.chosen p)).state p = .running := set_state_self rfl
  have hother : ∀ r, r ≠ p → ((s.setState p .running).goto c (.chosen p)).state r = s.state r :=
    fun r hr => set_state_ne rfl hr
  refine h.goes (c := c) (e := .chosen p) ⟨rfl, fun d r _ => Iff.rfl, h.keep_self (by rw [he]; rfl),
    h.keep_cur (by rw [he]; rfl), ?_, ?_, ?_, ?_, ?_, ?_, h.np_inj, ?_, ?_, ?_, ?_⟩
  · intro r hr
    have hrp : r = p := by
      by_contra hne
      exact hr (hother r hne)
    subst hrp
    exact ⟨hlock, fun e => by rw [hp] at e; cases e⟩
  · intro r hr; cases hr; exact hself
  · intro r hr; cases hr
  · intro r hr
    cases hr
    exact .inr ⟨hlock, by rw [hp]; decide⟩
  · intro r hr hor
    by_cases hrp : r = p
    · rw [hrp]; rfl
    · rw [hother r hrp] at hr
      rcases hor with hc | hn
      · rw [he] at hc; cases hc
      · exact absurd hr hn
  · intro r r' hr
    have hused := h.np r r' hr
    rw [hother r' (by rintro rfl; rw [hp] at hused; cases hused)]
    exact hused
  · intro r hr; exact absurd rfl hr
  · intro r r' hr; cases hr
  · intro r hr
    have hold := h.ctx r hr
    rw [hother r (by rintro rfl; rw [hp] at hold; rcases hold with e | e <;> cases e)]
    exact hold
  · intro r hr; cases hr

theorem Inv.park (h : Inv s) {w : Why} (he : s.exec c = .process p (.giving w)) :
    Inv ((s.setState p w.state).goto c (.process p (.sched w))) := by
  have hlock : s.lock p = some c := (h.lock c p).mpr (by rw [he]; rfl)
  have hrun : s.state p = .running := h.runs c p (by rw [he]; rfl)
  have hself : ((s.setState p w.state).goto c (.process p (.sched w))).state p = w.state := set_state_self rfl
  have hother : ∀ r, r ≠ p → ((s.setState p w.state).goto c (.process p (.sched w))).state r = s.state r :=
    fun r hr => set_state_ne rfl hr
  have hw : w.state ≠ .running := by cases w <;> decide
  refine h.goes (c := c) (e := .process p (.sched w)) ⟨rfl, fun d r _ => Iff.rfl, h.keep_self (by rw [he]; rfl),
    h.keep_cur (by rw [he]; rfl), ?_, ?_, ?_, ?_, ?_, ?_, h.np_inj, ?_, ?_, ?_, ?_⟩
  · intro r hr
    have hrp : r = p := by
      by_contra hne
      exact hr (hother r hne)
    subst hrp
    exact ⟨hlock, fun _ => by rw [he]; rfl⟩
  · intro r hr; cases hr
  · intro r hr
    cases hr
    rw [hself]
    exact hw
  · intro r hr; exact .inl (by rw [he]; exact hr)
  · intro r hr hor
    have hrp : r ≠ p := by rintro rfl; exact hw (hself.symm.trans hr)
    rw [hother r hrp] at hr
    rcases hor with hc | hn
    · rw [he] at hc; exact hc
    · exact absurd hr hn
  · intro r r' hr
    have hused := h.np r r' hr
    rw [hother r' (by rintro rfl; rw [hrun] at hused; cases hused)]
    exact hused
  · intro r hr; exact absurd rfl hr
  · intro r r' hr; cases hr
  · intro r hr
    have hold := h.ctx r hr
    rw [hother r (by rintro rfl; rw [hrun] at hold; rcases hold with e | e <;> cases e)]
    exact hold
  · intro r hr
    cases hr
    exact hself

/-- from e to e' inside a critical section of slot q that is not on the way to `sched` -/
structure Inside (q : ℕ) (e e' : Exec) : Prop where
  holds : e.holds = some q
  holds' : e'.holds = some q
  current : e'.current = e.current
  claims : e'.claims = e.claims
  runs : e'.runs = e.runs
  parks : e'.parks = none
  start : ∀ p r, e' ≠ .process p (.locked r .start)
  exiting : ∀ p, e' ≠ .process p (.sched .exit)

theorem inside_process (p q : ℕ) (op : Op) : Inside q (.process p (.locked q op)) (.process p (.done q)) :=
  ⟨rfl, rfl, rfl, rfl, rfl, rfl, fun _ _ => by simp, fun _ => by simp⟩

theorem inside_intr (q : ℕ) (hit : Bool) : Inside q (.waking q hit) (.woken q) :=
  ⟨rfl, rfl, rfl, rfl, rfl, rfl, fun _ _ => by simp, fun _ => by simp⟩

section

variable {e : Exec}

/-- the state of a slot that is not RUNNING changes, under its lock -/
theorem Inv.touch (h : Inv s) (hin : Inside q (s.exec c) e)
    (hexec : t.exec = s.exec) (hlock : t.lock = s.lock) (hcur : t.cur = s.cur) (hstate : t.state = s.state.set q x)
    (hold : s.state q ≠ .running) (hnew : x ≠ .running) (hnp : ∀ r r', t.np r = some r' → t.state r' = .used)
    (hinj : ∀ r r' y, t.np r = some y → t.np r' = some y → r = r')
    (hother : ∀ r, t.np r ≠ s.np r → (s.exec c).claims = some r)
    (hctx : ∀ r, t.ctx r = .exited → t.state r = .zombie ∨ t.state r = .unused) : Inv (t.goto c e) := by
  have hheld : s.lock q = some c := (h.lock c q).mpr hin.holds
  have hne : ∀ r, r ≠ q → t.state r = s.state r := fun r hr => set_state_ne hstate hr
  refine h.goes (c := c) (e := e) ⟨?_, ?_, ?_, ?_, ?_, ?_, ?_, ?_, ?_, hnp, hinj, hother, ?_, hctx, ?_⟩
  · exact congrArg (fun f : Store Exec => f.set c e) hexec
  · intro d r _
    exact iff_of_eq (congrArg (fun f : Store (Option ℕ) => f r = some d) hlock)
  · intro r
    exact (iff_of_eq (congrArg (fun f : Store (Option ℕ) => f r = some c) hlock)).trans
      (h.keep_self (hin.holds'.trans hin.holds.symm) r)
  · exact hcur.trans (h.keep_cur hin.current)
  · intro r hr
    have hrq : r = q := by
      by_contra hrq
      exact hr (hne r hrq)
    subst hrq
    exact ⟨hheld, fun e => absurd e hold⟩
  · intro r hr
    rw [hin.runs] at hr
    have hrun : s.state r = .running := h.runs c r hr
    exact (hne r (by rintro rfl; exact hold hrun)).trans hrun
  · intro r hr
    rw [hin.parks] at hr
    cases hr
  · intro r hr
    rw [hin.claims] at hr
    exact .inl hr
  · intro r hr hor
    have hrq : r ≠ q := by
      rintro rfl
      exact hnew ((set_state_self hstate).symm.trans hr)
    rw [hin.claims]
    exact hor.resolve_right (not_not.mpr ((hne r hrq).symm.trans hr))
  · intro r r' hr; exact absurd hr (hin.start r r')
  · intro r hr; exact absurd hr (hin.exiting r)

theorem Inv.pass (h : Inv s) (hin : Inside q (s.exec c) e) : Inv (s.goto c e) := by
  refine h.quiet (c := c) (e := e) rfl rfl rfl (fun r hr => .inl hr) (fun d r _ => Iff.rfl)
    (h.keep_self (hin.holds'.trans hin.holds.symm)) (h.keep_cur hin.current) ?_ ?_ ?_ ?_
    (fun r r' hr => absurd hr (hin.start r r')) (fun r hr => absurd hr (hin.exiting r))
  · intro r hr; exact h.runs c r (hin.runs ▸ hr)
  · intro r hr; rw [hin.parks] at hr; cases hr
  · intro r hr; rw [← hin.claims]; exact hr
  · intro r hr; rw [hin.claims]; exact .inl hr

theorem Inv.wake (h : Inv s) (hin : Inside q (s.exec c) e) (hit : Bool) : Inv ((s.wake q hit).goto c e) := by
  unfold St.wake
  split
  case isFalse => exact h.pass hin
  case isTrue hw =>
    have hne : ∀ r, s.state r ≠ .sleeping → (s.setState q .runnable).state r = s.state r :=
      fun r hr => set_state_ne rfl fun e => hr (by rw [e]; exact hw.2)
    refine h.touch hin rfl rfl rfl rfl (by rw [hw.2]; decide) (by decide) ?_ h.np_inj (fun r hr => absurd rfl hr) ?_
    · intro r r' hr
      have hused := h.np r r' hr
      exact (hne r' (by rw [hused]; decide)).trans hused
    · intro r hr
      have hgone := h.ctx r hr
      rw [hne r (by rcases hgone with e | e <;> rw [e] <;> decide)]
      exact hgone

theorem Inv.alloc (h : Inv s) (hin : Inside q (s.exec c) e) (hp : (s.exec c).claims = some p)
    (hq : s.state q = .unused) :
    Inv (({ s.setState q .used with ctx := s.ctx.set q .forkret, np := s.np.set p (some q) } : St).goto c e) := by
  have hne : ∀ r, r ≠ q → (s.setState q .used).state r = s.state r := fun r hr => set_state_ne rfl hr
  -- no other `kfork` has slot q in hand, which is UNUSED
  have hfresh : ∀ r, s.np r ≠ some q := fun r hr => by
    have hused := h.np r q hr
    rw [hq] at hused
    cases hused
  have hnp : ∀ r y, (s.np.set p (some q)) r = some y → (r = p ∧ y = q) ∨ (y ≠ q ∧ s.np r = some y) := by
    intro r y hr
    by_cases hrp : r = p
    · subst hrp
      rw [Store.set_self] at hr
      exact .inl ⟨rfl, (Option.some.inj hr).symm⟩
    · rw [Store.set_ne _ _ hrp] at hr
      exact .inr ⟨fun e => hfresh r (e ▸ hr), hr⟩
  refine h.touch hin rfl rfl rfl rfl (by rw [hq]; decide) (by decide) ?_ ?_ ?_ ?_
  · intro r y hr
    rcases hnp r y hr with ⟨-, rfl⟩ | ⟨hy, hold⟩
    · exact set_state_self (s := s) rfl
    · exact (hne y hy).trans (h.np r y hold)
  · intro r r' y hr hr'
    rcases hnp r y hr with ⟨hrp, hy⟩ | ⟨hy, hold⟩ <;> rcases hnp r' y hr' with ⟨hrp', hy'⟩ | ⟨hy', hold'⟩
    · rw [hrp, hrp']
    · exact absurd hy hy'
    · exact absurd hy' hy
    · exact h.np_inj r r' y hold hold'
  · intro r hr
    have hrp : r = p := by
      by_contra hrp
      exact hr (Store.set_ne _ _ hrp)
    rw [hrp]
    exact hp
  · intro r hr
    have hrq : r ≠ q := by
      rintro rfl
      exact absurd ((Store.set_self s.ctx r .forkret).symm.trans hr) (by decide)
    rw [show _ = s.state r from hne r hrq]
    exact h.ctx r ((Store.set_ne s.ctx .forkret hrq).symm.trans hr)

theorem Inv.startChild (h : Inv s) (hin : Inside q (s.exec c) e) (hp : (s.exec c).claims = some p)
    (hpq : s.np p = some q) :
    Inv (({ s.setState q .runnable with np := s.np.set p none } : St).goto c e) := by
  have hused : s.state q = .used := h.np p q hpq
  have hne : ∀ r, r ≠ q → (s.setState q .runnable).state r = s.state r := fun r hr => set_state_ne rfl hr
  have hnp : ∀ r y, (s.np.set p none) r = some y → s.np r = some y ∧ y ≠ q := by
    intro r y hr
    have hrp : r ≠ p := by
      rintro rfl
      rw [Store.set_self] at hr
      cases hr
    rw [Store.set_ne _ _ hrp] at hr
    exact ⟨hr, fun e => hrp (h.np_inj r p q (e ▸ hr) hpq)⟩
  refine h.touch hin rfl rfl rfl rfl (by rw [hused]; decide) (by decide) ?_ ?_ ?_ ?_
  · intro r y hr
    obtain ⟨hold, hy⟩ := hnp r y hr
    exact (hne y hy).trans (h.np r y hold)
  · intro r r' y hr hr'; exact h.np_inj r r' y (hnp r y hr).1 (hnp r' y hr').1
  · intro r hr
    have hrp : r = p := by
      by_contra hrp
      exact hr (Store.set_ne _ _ hrp)
    rw [hrp]
    exact hp
  · intro r hr
    have hgone := h.ctx r hr
    rw [show _ = s.state r from hne r (by rintro rfl; rw [hused] at hgone; rcases hgone with e | e <;> cases e)]
    exact hgone

theorem Inv.freeZombie (h : Inv s) (hin : Inside q (s.exec c) e) (hq : s.state q = .zombie) :
    Inv ((s.setState q .unused).goto c e) := by
  have hne : ∀ r, r ≠ q → (s.setState q .unused).state r = s.state r := fun r hr => set_state_ne rfl hr
  refine h.touch hin rfl rfl rfl rfl (by rw [hq]; decide) (by decide) ?_ h.np_inj (fun r hr => absurd rfl hr) ?_
  · intro r r' hr
    have hused := h.np r r' hr
    exact (hne r' (by rintro rfl; rw [hq] at hused; cases hused)).trans hused
  · intro r hr
    by_cases hrq : r = q
    · subst hrq; exact .inr (set_state_self rfl)
    · rw [hne r hrq]; exact h.ctx r hr

end

theorem Inv.apply (h : Inv s) {op : Op} (he : s.exec c = .process p (.locked q op)) :
    Inv ((s.apply p q op).goto c (.process p (.done q))) := by
  have hin : Inside q (s.exec c) (.process p (.done q)) := he ▸ inside_process p q op
  have hp : (s.exec c).claims = some p := by rw [he]; rfl
  unfold St.apply
  cases op with
  | wakeup hit | kill hit => exact h.wake hin hit
  | look => exact h.pass hin
  | alloc ok =>
    dsimp only
    split
    case isTrue hw => exact h.alloc hin hp hw.1
    case isFalse => exact h.pass hin
  | start => exact h.startChild hin hp (h.start c p q he)
  | free =>
    dsimp only
    split
    case isTrue hw => exact h.freeZombie hin hw
    case isFalse => exact h.pass hin

/-! ## Runs -/

theorem Inv.take (h : Inv s) {e : Exec} (hnone : (s.exec c).holds = none) (hfree : s.lock q = none)
    (hholds : e.holds = some q) (hcur : e.current = (s.exec c).current) (hruns : e.runs = (s.exec c).runs)
    (hparks : e.parks = none) (hclaims : e.claims = (s.exec c).claims)
    (hstart : ∀ r r', e = .process r (.locked r' .start) → s.np r = some r')
    (hexit : ∀ r, e ≠ .process r (.sched .exit)) : Inv ((s.setLock q (some c)).goto c e) := by
  refine h.quiet (c := c) (e := e) rfl rfl rfl (fun r hr => .inl hr) (fun d r hd => take_other hfree d r hd) ?_
    (h.keep_cur hcur) ?_ ?_ ?_ ?_ hstart (fun r hr => absurd hr (hexit r))
  · rw [hholds]; exact fun r => h.take_self hnone r
  · intro r hr; exact h.runs c r (hruns ▸ hr)
  · intro r hr; rw [hparks] at hr; cases hr
  · intro r hr; rw [← hclaims]; exact hr
  · intro r hr; rw [hclaims]; exact .inl hr

theorem Inv.release (h : Inv s) {e : Exec} (hq : (s.exec c).holds = some q) (hholds : e.holds = none)
    (hcur : e.current = (s.exec c).current) (hruns : e.runs = (s.exec c).runs) (hparks : e.parks = none)
    (hclaims : e.claims = (s.exec c).claims) : Inv ((s.setLock q none).goto c e) := by
  refine h.quiet (c := c) (e := e) rfl rfl rfl (fun r hr => .inl hr) (fun d r hd => h.release_other hq d r hd) ?_
    (h.keep_cur hcur) ?_ ?_ ?_ ?_ ?_ ?_
  · rw [hholds]; exact fun r => h.release_self hq r
  · intro r hr; exact h.runs c r (hruns ▸ hr)
  · intro r hr; rw [hparks] at hr; cases hr
  · intro r hr; rw [← hclaims]; exact hr
  · intro r hr; rw [hclaims]; exact .inl hr
  · rintro r r' rfl; cases hholds
  · rintro r rfl; cases hholds

/-- `c->proc = 0` and `c->proc = p`, and the two `swtch`es: c goes on to e with the same lock -/
theorem Inv.turn (h : Inv s) {e : Exec} (ctx : Store Ctx) (cur : Store (Option ℕ))
    (hctx : ∀ r, ctx r = .exited → s.ctx r = .exited ∨ s.state r = .zombie) (hholds : e.holds = (s.exec c).holds)
    (hcur : cur = s.cur.set c e.current) (hruns : ∀ r, e.runs = some r → (s.exec c).runs = some r)
    (hparks : ∀ r, e.parks = some r → (s.exec c).parks = some r)
    (hclaims : ∀ r, e.claims = some r → (s.exec c).claims = some r)
    (hkeep : ∀ r, (s.exec c).claims = some r → e.claims = some r ∨ (s.exec c).parks = some r)
    (hstart : ∀ r r', e ≠ .process r (.locked r' .start)) (hexit : ∀ r, e ≠ .process r (.sched .exit)) :
    Inv (({ s with ctx := ctx, cur := cur } : St).goto c e) := by
  refine h.quiet (c := c) (e := e) rfl rfl rfl hctx (fun d r _ => Iff.rfl) (h.keep_self hholds) hcur ?_ ?_ hclaims ?_
    (fun r r' hr => absurd hr (hstart r r')) (fun r hr => absurd hr (hexit r))
  · intro r hr; exact h.runs c r (hruns r hr)
  · intro r hr; exact h.parks c r (hparks r hr)
  · intro r hr; exact (hkeep r hr).imp_right (h.parks c r)

theorem Inv.switchTo (h : Inv s) (he : s.exec c = .switch p) : ∃ t, s.next c = .ok t ∧ Inv t := by
  have hrun : s.state p = .running := h.runs c p (by rw [he]; rfl)
  -- a process that has called `kexit` is not RUNNING again
  have hctx : s.ctx p ≠ .exited := by
    intro e
    have hgone := h.ctx p e
    rw [hrun] at hgone
    rcases hgone with e | e <;> cases e
  simp only [St.next, he, if_neg hctx]
  refine ⟨_, rfl, h.turn s.ctx s.cur (fun r hr => .inl hr) ?_ (h.keep_cur ?_) ?_ ?_ ?_ ?_ ?_ ?_⟩
  all_goals simp [he, Exec.holds, Exec.current, Exec.runs, Exec.parks, Exec.claims]

theorem Inv.switchBack (h : Inv s) {w : Why} (he : s.exec c = .process p (.sched w)) :
    ∃ t, s.next c = .ok t ∧ Inv t := by
  have hlock : s.lock p = some c := (h.lock c p).mpr (by rw [he]; rfl)
  have hnot : s.state p ≠ .running := h.parks c p (by rw [he]; rfl)
  simp only [St.next, he, if_neg (not_not.mpr hlock), if_neg hnot]
  refine ⟨_, rfl, h.turn _ s.cur ?_ ?_ (h.keep_cur ?_) ?_ ?_ ?_ ?_ ?_ ?_⟩
  · intro r hr
    by_cases hrp : r = p
    · subst hrp
      rw [Store.set_self] at hr
      cases w with
      | exit => exact .inr (h.exiting c r he)
      | yield => cases hr
      | sleep => cases hr
    · exact .inl ((Store.set_ne s.ctx w.ctx hrp).symm.trans hr)
  all_goals simp [he, Exec.holds, Exec.current, Exec.runs, Exec.parks, Exec.claims]

/-- a step of a CPU panics nowhere and keeps the invariant -/
theorem Inv.next (h : Inv s) (hl : mayStep s (s.exec c)) : ∃ t, s.next c = .ok t ∧ Inv t := by
  cases he : s.exec c with
  | scan p =>
    rw [he] at hl
    simp only [St.next, he]
    refine ⟨_, rfl, h.take (by rw [he]; rfl) hl rfl ?_ ?_ rfl ?_ (by simp) (by simp)⟩
    all_goals rw [he]; rfl
  | looking p =>
    by_cases hp : s.state p = .runnable
    · simp only [St.next, he, if_pos hp]
      exact ⟨_, rfl, h.choose he hp⟩
    · simp only [St.next, he, if_neg hp]
      refine ⟨_, rfl, h.turn s.ctx s.cur (fun r hr => .inl hr) ?_ (h.keep_cur ?_) ?_ ?_ ?_ ?_ ?_ ?_⟩
      all_goals simp [he, Exec.holds, Exec.current, Exec.runs, Exec.parks, Exec.claims]
  | chosen p =>
    simp only [St.next, he]
    refine ⟨_, rfl, h.turn s.ctx _ (fun r hr => .inl hr) ?_ rfl ?_ ?_ ?_ ?_ ?_ ?_⟩
    all_goals simp [he, Exec.holds, Exec.runs, Exec.parks, Exec.claims]
  | switch p => exact h.switchTo he
  | back p =>
    simp only [St.next, he]
    refine ⟨_, rfl, h.turn s.ctx _ (fun r hr => .inl hr) ?_ rfl ?_ ?_ ?_ ?_ ?_ ?_⟩
    all_goals simp [he, Exec.holds, Exec.runs, Exec.parks, Exec.claims]
  | releasing p | woken q =>
    simp only [St.next, he]
    refine ⟨_, rfl, h.release (by rw [he]; rfl) rfl ?_ ?_ rfl ?_⟩
    all_goals rw [he]; rfl
  | waking q hit =>
    simp only [St.next, he]
    exact ⟨_, rfl, h.wake (he ▸ inside_intr q hit) hit⟩
  | process p pc =>
    cases pc with
    | run => rw [he] at hl; exact hl.elim
    | resumed | done q =>
      simp only [St.next, he]
      refine ⟨_, rfl, h.release (by rw [he]; rfl) rfl ?_ ?_ rfl ?_⟩
      all_goals rw [he]; rfl
    | locked q op =>
      simp only [St.next, he]
      exact ⟨_, rfl, h.apply he⟩
    | giving w =>
      simp only [St.next, he]
      exact ⟨_, rfl, h.park he⟩
    | sched w => exact h.switchBack he

/-- a process that may take a lock runs and holds none -/
theorem of_mayTake {op : Op} {e : Exec} (hl : mayTake s q op e) :
    ∃ p, e = .process p .run ∧ s.lock q = none ∧ op.aims s p q := by
  unfold mayTake at hl
  split at hl
  case h_1 p => exact ⟨p, rfl, hl.1, hl.2.2⟩
  case h_2 => exact hl.elim

theorem of_mayGive {e : Exec} (hl : mayGive s e) : ∃ p, e = .process p .run ∧ s.lock p = none := by
  unfold mayGive at hl
  split at hl
  case h_1 p => exact ⟨p, rfl, hl⟩
  case h_2 => exact hl.elim

/-- **One step.** Every legal step succeeds and keeps the invariant. -/
theorem Inv.step (h : Inv s) {a : Act} (hl : legal s a) : ∃ t, Sched.step s a = .ok t ∧ Inv t := by
  cases a with
  | next c => exact h.next hl
  | take c q op =>
    obtain ⟨p, he, hfree, haims⟩ := of_mayTake hl
    refine ⟨(s.setLock q (some c)).goto c (.process p (.locked q op)), by simp only [Sched.step, he], ?_⟩
    refine h.take (by rw [he]; rfl) hfree rfl (by rw [he]; rfl) (by rw [he]; rfl) rfl (by rw [he]; rfl) ?_ (by simp)
    intro r r' hr
    cases hr
    exact haims
  | give c w =>
    obtain ⟨p, he, hfree⟩ := of_mayGive hl
    refine ⟨(s.setLock p (some c)).goto c (.process p (.giving w)), by simp only [Sched.step, he], ?_⟩
    exact h.take (by rw [he]; rfl) hfree rfl (by rw [he]; rfl) (by rw [he]; rfl) rfl (by rw [he]; rfl)
      (by simp) (by simp)
  | intr c q hit =>
    obtain ⟨he, hfree, -⟩ := hl
    exact ⟨_, rfl, h.take (by rw [he]; rfl) hfree rfl (by rw [he]; rfl) (by rw [he]; rfl) rfl
      (by rw [he]; rfl) (by simp)
      (by simp)⟩

theorem inv_boot : Inv boot := by
  have hnot : ∀ p, boot.state p ≠ .running := by
    intro p
    show (if p = INIT then ProcState.runnable else .unused) ≠ .running
    split <;> decide
  constructor
  case lock => intro c p; exact iff_of_false (nomatch ·) (nomatch ·)
  case cur => intro c; rfl
  case claimed => intro p hp; exact absurd hp (hnot p)
  all_goals intros; contradiction

theorem inv_of_reach (hs : cpus.Reach boot s) : Inv s :=
  hs.inv Inv inv_boot fun _ _ _ h hl hstep => by
    obtain ⟨t, ht, hinv⟩ := h.step hl
    cases ht.symm.trans hstep
    exact hinv

/-- the process whose kernel stack the CPU is on, or whose context it is about to load -/
def Exec.stack : Exec → Option ℕ
  | .switch p | .process p _ => some p
  | _ => none

theorem claims_of_stack {e : Exec} (h : e.stack = some p) : e.claims = some p := by
  cases e <;> first | exact h | cases h

/-- a process whose lock is free is RUNNING iff it is the current process of some CPU -/
theorem Inv.running_iff (h : Inv s) (hfree : s.lock p = none) : s.state p = .running ↔ ∃ c, s.cur c = some p := by
  constructor
  · intro hrun
    obtain ⟨c, hc⟩ := h.claimed p hrun
    refine ⟨c, (h.cur c).trans ?_⟩
    -- the CPU has set c->proc already: before that it holds the lock
    have hheld : (s.exec c).holds ≠ some p := fun e => by
      rw [(h.lock c p).mpr e] at hfree
      cases hfree
    cases he : s.exec c with
    | chosen r =>
      rw [he] at hc hheld
      exact absurd hc hheld
    | _ => rw [he] at hc; exact hc
  · rintro ⟨c, hc⟩
    have hclaim := claims_of_current ((h.cur c).symm.trans hc)
    rcases runs_or_parks hclaim with hr | hk
    · exact h.runs c p hr
    · rw [(h.lock c p).mpr (holds_of_parks hk)] at hfree
      cases hfree

/-- **A process is on one CPU at a time.** In every reachable state, for any number of CPUs: a process is the current
process of at most one; one whose lock is free is RUNNING iff it is the current process of exactly one; the process that
a scheduler is about to switch to is RUNNING, so it is neither a ZOMBIE nor an UNUSED slot; no kernel stack or context
is used by two CPUs; and no panic of `sched` or `kexit` is next. -/
theorem scheduler_exclusive (hs : cpus.Reach boot s) :
    (∀ p c d, s.cur c = some p → s.cur d = some p → c = d) ∧
    (∀ p, s.lock p = none → (s.state p = .running ↔ ∃! c, s.cur c = some p)) ∧
    (∀ c p, s.exec c = .switch p → s.state p = .running) ∧
    (∀ p c d, (s.exec c).stack = some p → (s.exec d).stack = some p → c = d) ∧
    (∀ a, cpus.legal s a → ∃ t, cpus.step s a = .ok t) := by
  have h := inv_of_reach hs
  have hcur : ∀ p c d, s.cur c = some p → s.cur d = some p → c = d := fun p c d hc hd =>
    h.unique c d p (claims_of_current ((h.cur c).symm.trans hc)) (claims_of_current ((h.cur d).symm.trans hd))
  refine ⟨hcur, ?_, ?_, ?_, ?_⟩
  · intro p hfree
    rw [h.running_iff hfree]
    exact ⟨fun ⟨c, hc⟩ => ⟨c, hc, fun d hd => hcur p d c hd hc⟩, fun ⟨c, hc, _⟩ => ⟨c, hc⟩⟩
  · intro c p he; exact h.runs c p (by rw [he]; rfl)
  · intro p c d hc hd; exact h.unique c d p (claims_of_stack hc) (claims_of_stack hd)
  · intro a hl
    obtain ⟨t, ht, -⟩ := h.step hl
    exact ⟨t, ht⟩

/-- CPU 0 runs init, which forks slot 1; CPU 1 runs the child, which exits -/
def forkAndExit : List Act :=
  (List.replicate 5 (.next 0)) ++ [.take 0 1 (.alloc true), .next 0, .next 0, .take 0 1 .start, .next 0, .next 0] ++
  (List.replicate 8 (.next 1)) ++ [.give 1 .exit, .next 1]

theorem scheduler_exclusive_twoCpus : ∃ s, cpus.Reach boot s ∧
    (s.cur 0 = some INIT ∧ s.cur 1 = some 1 ∧ s.state 1 = .zombie) ∧
    (∀ p, s.lock p = none → (s.state p = .running ↔ ∃! c, s.cur c = some p)) := by
  obtain ⟨s, hs, hp⟩ := Machine.exists_reach_of_steps (M := cpus) (s := boot) (l := forkAndExit)
    (p := fun s => decide (s.cur 0 = some INIT ∧ s.cur 1 = some 1 ∧ s.state 1 = .zombie)) (by decide +kernel)
  exact ⟨s, hs, of_decide_eq_true hp, (scheduler_exclusive hs).2.1⟩

end Xv6.Procs.Sched
