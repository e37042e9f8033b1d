/-
Pipes (kernel/pipe.c: `pipewrite`, `piperead`, `pipeclose`; `sleep`, `wakeup` and `kkill` of kernel/proc.c as far as a
pipe sees them). Any number of processes share one pipe.

A process in `pipewrite` or `piperead` holds pi->lock through its loops and releases it when it sleeps or returns. One
step is one pass of a loop, so that a process can be killed between two bytes: `kkill` takes the victim's p->lock only.
`pipeclose` is one step, and so is what a process does between taking its own p->lock in `sleep` and giving up the CPU.

The state also keeps, for the statements only, the bytes stored into the pipe and the bytes copied out to readers.
-/
import Xv6.Core.Machine
import Xv6.Core.Ring
import Xv6.Param

namespace Xv6.Pipes

open Xv6.Core

/-! ## The pipe -/

def PIPESIZE : ℕ := 512

/-- `struct pipe` without its lock -/
structure Pipe where
  data : Store UInt8
  nread : ℕ
  nwrite : ℕ
  readopen : Bool
  writeopen : Bool

namespace Pipe

/-- `pi->nread == pi->nwrite` -/
def Empty (pi : Pipe) : Prop := pi.nread = pi.nwrite

/-- `pi->nwrite == pi->nread + PIPESIZE` -/
def Full (pi : Pipe) : Prop := pi.nwrite = (pi.nread + PIPESIZE) % UINT

instance (pi : Pipe) : Decidable pi.Empty := inferInstanceAs (Decidable (_ = _))
instance (pi : Pipe) : Decidable pi.Full := inferInstanceAs (Decidable (_ = _))

/-- `pi->data[pi->nwrite++ % PIPESIZE] = ch` -/
def store (pi : Pipe) (ch : UInt8) : Pipe :=
  { pi with data := pi.data.set (pi.nwrite % PIPESIZE) ch, nwrite := (pi.nwrite + 1) % UINT }

/-- `ch = pi->data[pi->nread++ % PIPESIZE]`: the byte -/
def front (pi : Pipe) : UInt8 := pi.data (pi.nread % PIPESIZE)

/-- `ch = pi->data[pi->nread++ % PIPESIZE]`: the pipe after it -/
def take (pi : Pipe) : Pipe := { pi with nread := (pi.nread + 1) % UINT }

/-- the page has not been freed by `pipeclose` -/
def Live (pi : Pipe) : Prop := pi.readopen = true ∨ pi.writeopen = true

instance (pi : Pipe) : Decidable pi.Live := inferInstanceAs (Decidable (_ ∨ _))

end Pipe

/-! ## Processes -/

/-- the two channels of a pipe: `&pi->nread` and `&pi->nwrite` -/
inductive Chan where
  | nread
  | nwrite
deriving DecidableEq, Repr

/-- where a process is -/
inductive Pos where
  /-- outside; what its last call on the pipe returned -/
  | out (ret : ℤ)
  /-- in the loop of `pipewrite(pi, addr, n)` -/
  | writing (n : ℤ) (i : ℕ)
  /-- in the first loop of `piperead(pi, addr, n)` -/
  | waiting (n : ℤ)
  /-- in the second loop of `piperead(pi, addr, n)` -/
  | copying (n : ℤ) (i : ℕ)
deriving DecidableEq, Repr

def Pos.inside : Pos → Bool
  | .out _ => false
  | _ => true

structure St where
  pi : Pipe
  /-- the process that holds pi->lock -/
  lock : Option ℕ
  pos : Store Pos
  /-- the channel of a process that is SLEEPING -/
  chan : Store (Option Chan)
  killed : Store Bool
  stored : List UInt8
  delivered : List UInt8

/-- `wakeup(c)`: the sleepers go on to take pi->lock again -/
def St.wakeup (s : St) (c : Chan) : St := { s with chan := fun q => if s.chan q = some c then none else s.chan q }

/-- `sleep(c, &pi->lock)` up to the switch to another process -/
def St.sleep (s : St) (p : ℕ) (c : Chan) : St := { s with lock := none, chan := s.chan.set p (some c) }

/-- release pi->lock and return r -/
def St.leave (s : St) (p : ℕ) (r : ℤ) : St := { s with lock := none, pos := s.pos.set p (.out r) }

/-- one pass of the loop of `pipewrite`; ch is the byte at addr + i and ok says whether `copyin` can read it -/
def pipewrite (s : St) (p : ℕ) (n : ℤ) (i : ℕ) (ch : UInt8) (ok : Bool) : St :=
  if i < n then
    if s.pi.readopen = false ∨ s.killed p = true then s.leave p (-1)
    else if s.pi.Full then (s.wakeup .nread).sleep p .nwrite
    else if ok then
      { s with pi := s.pi.store ch, pos := s.pos.set p (.writing n (i + 1)), stored := s.stored ++ [ch] }
    else (s.wakeup .nread).leave p i
  else (s.wakeup .nread).leave p i

/-- one pass of the first loop of `piperead` -/
def pipereadWait (s : St) (p : ℕ) (n : ℤ) : St :=
  if s.pi.Empty ∧ s.pi.writeopen = true then
    if s.killed p = true then s.leave p (-1) else s.sleep p .nread
  else { s with pos := s.pos.set p (.copying n 0) }

/-- one pass of the second loop of `piperead`; ok says whether `copyout` can write addr + i. The byte is taken out of
the pipe before it is copied. -/
def pipereadCopy (s : St) (p : ℕ) (n : ℤ) (i : ℕ) (ok : Bool) : St :=
  if i < n then
    if s.pi.Empty then (s.wakeup .nwrite).leave p i
    else if ok then
      { s with pi := s.pi.take, pos := s.pos.set p (.copying n (i + 1)), delivered := s.delivered ++ [s.pi.front] }
    else ({ s with pi := s.pi.take }.wakeup .nwrite).leave p i
  else (s.wakeup .nwrite).leave p i

/-- `pipeclose`; when both ends are closed the page is freed, and the pipe is not `Live` -/
def pipeclose (s : St) (writable : Bool) : St :=
  if writable then { s with pi := { s.pi with writeopen := false } }.wakeup .nread
  else { s with pi := { s.pi with readopen := false } }.wakeup .nwrite

/-- `kkill` of process p -/
def kkill (s : St) (p : ℕ) : St := { s with killed := s.killed.set p true, chan := s.chan.set p none }

/-! ## The machine -/

inductive Act where
  /-- process p calls `pipewrite` -/
  | write (p : ℕ) (n : ℤ)
  /-- process p calls `piperead` -/
  | read (p : ℕ) (n : ℤ)
  /-- process p gets pi->lock, at the start of a call or back from `sleep` -/
  | acquire (p : ℕ)
  /-- one pass of the loop that p is in -/
  | loop (p : ℕ) (ch : UInt8) (ok : Bool)
  | close (writable : Bool)
  | kill (p : ℕ)
deriving DecidableEq, Repr

def step (s : St) : Act → Except Unit St
  | .write p n => .ok { s with pos := s.pos.set p (.writing n 0) }
  | .read p n => .ok { s with pos := s.pos.set p (.waiting n) }
  | .acquire p => .ok { s with lock := some p }
  | .loop p ch ok =>
    match s.pos p with
    | .out _ => .ok s
    | .writing n i => .ok (pipewrite s p n i ch ok)
    | .waiting n => .ok (pipereadWait s p n)
    | .copying n i => .ok (pipereadCopy s p n i ok)
  | .close w => .ok (pipeclose s w)
  | .kill p => .ok (kkill s p)

/-- one call a process at a time, the lock is exclusive, sleepers do not run, and nobody uses a freed pipe -/
def legal (s : St) : Act → Prop
  | .write p _ => (s.pos p).inside = false ∧ s.pi.Live
  | .read p _ => (s.pos p).inside = false ∧ s.pi.Live
  | .acquire p => (s.pos p).inside = true ∧ s.lock = none ∧ s.chan p = none ∧ s.pi.Live
  | .loop p _ _ => s.lock = some p
  | .close _ => s.lock = none ∧ s.pi.Live
  | .kill _ => True

instance (s : St) (a : Act) : Decidable (legal s a) := by cases a <;> unfold legal <;> infer_instance

/-- processes that share a pipe -/
def sharing : Machine St Act Unit := ⟨legal, step⟩

instance (s : St) (a : Act) : Decidable (sharing.legal s a) := inferInstanceAs (Decidable (legal s a))

/-- a pipe as `pipealloc` leaves it, its buffer holding whatever was in the page -/
def init (data : Store UInt8) (killed : Store Bool) : St :=
  ⟨⟨data, 0, 0, true, true⟩, none, fun _ => .out 0, fun _ => none, killed, [], []⟩

/-! ## What a step does -/

section Fields
variable (s : St) (c : Chan) (p : ℕ) (r : ℤ)

@[simp] theorem wakeup_lock : (s.wakeup c).lock = s.lock := rfl
@[simp] theorem wakeup_pos : (s.wakeup c).pos = s.pos := rfl
@[simp] theorem sleep_pos : (s.sleep p c).pos = s.pos := rfl
@[simp] theorem sleep_chan : (s.sleep p c).chan = s.chan.set p (some c) := rfl
@[simp] theorem leave_pos : (s.leave p r).pos = s.pos.set p (.out r) := rfl
@[simp] theorem kkill_chan : (kkill s p).chan = s.chan.set p none := rfl

end Fields

/-- after a wakeup nobody sleeps on the channel; the sleepers on the other one are those from before -/
theorem wakeup_chan_iff (s : St) (c d : Chan) (q : ℕ) : (s.wakeup c).chan q = some d ↔ s.chan q = some d ∧ d ≠ c := by
  show (if s.chan q = some c then none else s.chan q) = some d ↔ _
  split_ifs with h
  · simp only [h, Option.some.injEq, false_iff, not_and, not_not]
    exact fun e => e.symm
  · refine ⟨fun e => ⟨e, fun hd => h (hd ▸ e)⟩, fun e => e.1⟩

theorem wakeup_chan_ne (s : St) (c : Chan) (q : ℕ) : (s.wakeup c).chan q ≠ some c := fun h =>
  ((wakeup_chan_iff s c c q).1 h).2 rfl

variable {q : ℕ} {t : St}

/-- who still sleeps after a kill has slept before -/
theorem spared {s : St} {p : ℕ} {c : Chan} (h : (kkill s p).chan q = some c) : s.chan q = some c := by
  by_cases hqp : q = p
  · subst hqp
    rw [kkill_chan, Store.set_self] at h; cases h
  · rwa [kkill_chan, Store.set_ne _ _ hqp] at h

/-- what one pass of a loop can do -/
inductive Pass (s : St) (p : ℕ) (ch : UInt8) (ok : Bool) : St → Prop
  /-- `pipewrite` gives up -/
  | broken {n i} (hpos : s.pos p = .writing n i) (hlt : (i : ℤ) < n)
      (hwhy : s.pi.readopen = false ∨ s.killed p = true) : Pass s p ch ok (s.leave p (-1))
  /-- `pipewrite` waits for room -/
  | full {n i} (hpos : s.pos p = .writing n i) (hopen : s.pi.readopen = true) (hfull : s.pi.Full) :
      Pass s p ch ok ((s.wakeup .nread).sleep p .nwrite)
  /-- `pipewrite` stores a byte -/
  | stores {n i} (hpos : s.pos p = .writing n i) (hopen : s.pi.readopen = true) (hkilled : s.killed p = false)
      (hroom : ¬ s.pi.Full) : Pass s p ch ok
        { s with pi := s.pi.store ch, pos := s.pos.set p (.writing n (i + 1)), stored := s.stored ++ [ch] }
  /-- `pipewrite` returns the number of bytes written -/
  | wrote {n i} (hpos : s.pos p = .writing n i) : Pass s p ch ok ((s.wakeup .nread).leave p i)
  /-- `piperead` gives up -/
  | killed {n} (hpos : s.pos p = .waiting n) (hkilled : s.killed p = true) : Pass s p ch ok (s.leave p (-1))
  /-- `piperead` waits for a byte -/
  | empty {n} (hpos : s.pos p = .waiting n) (hempty : s.pi.Empty) (hopen : s.pi.writeopen = true) :
      Pass s p ch ok (s.sleep p .nread)
  /-- `piperead` goes on to its second loop -/
  | begins {n} (hpos : s.pos p = .waiting n) (hwhy : ¬ (s.pi.Empty ∧ s.pi.writeopen = true)) :
      Pass s p ch ok { s with pos := s.pos.set p (.copying n 0) }
  /-- `piperead` delivers a byte -/
  | delivers {n i} (hpos : s.pos p = .copying n i) (hbyte : ¬ s.pi.Empty) : Pass s p ch ok
      { s with pi := s.pi.take, pos := s.pos.set p (.copying n (i + 1)), delivered := s.delivered ++ [s.pi.front] }
  /-- `piperead` takes a byte that it cannot deliver -/
  | drops {n i} (hpos : s.pos p = .copying n i) (hbyte : ¬ s.pi.Empty) (hbad : ok = false) :
      Pass s p ch ok (({ s with pi := s.pi.take }.wakeup .nwrite).leave p i)
  /-- `piperead` returns the number of bytes read -/
  | readAll {n i} (hpos : s.pos p = .copying n i) (hwhy : (i : ℤ) < n → s.pi.Empty) :
      Pass s p ch ok ((s.wakeup .nwrite).leave p i)

/-- every pass of a loop is one of these -/
theorem pass_of_step {s : St} {p : ℕ} {ch : UInt8} {ok : Bool} (hin : (s.pos p).inside = true)
    (h : step s (.loop p ch ok) = .ok t) : Pass s p ch ok t := by
  cases hpos : s.pos p with
  | out r => rw [hpos] at hin; cases hin
  | writing n i =>
    simp only [step, hpos] at h
    cases h
    unfold pipewrite
    split_ifs with h1 h2 h3 h4
    · exact .broken hpos h1 h2
    · simp only [not_or, Bool.not_eq_false, Bool.not_eq_true] at h2
      exact .full hpos h2.1 h3
    · simp only [not_or, Bool.not_eq_false, Bool.not_eq_true] at h2
      exact .stores hpos h2.1 h2.2 h3
    · exact .wrote hpos
    · exact .wrote hpos
  | waiting n =>
    simp only [step, hpos] at h
    cases h
    unfold pipereadWait
    split_ifs with h1 h2
    · exact .killed hpos h2
    · exact .empty hpos h1.1 h1.2
    · exact .begins hpos h1
  | copying n i =>
    simp only [step, hpos] at h
    cases h
    unfold pipereadCopy
    split_ifs with h1 h2 h3
    · exact .readAll hpos fun _ => h2
    · exact .delivers hpos h2
    · exact .drops hpos h2 (by simpa using h3)
    · exact .readAll hpos fun hlt => absurd hlt h1

/-! ## The lock -/

/-- the holder of the lock is in a call and awake, and a sleeper is in the loop that its channel belongs to -/
structure Wf (s : St) : Prop where
  holder : ∀ p, s.lock = some p → (s.pos p).inside = true ∧ s.chan p = none
  nread : ∀ p, s.chan p = some .nread → ∃ n, s.pos p = .waiting n
  nwrite : ∀ p, s.chan p = some .nwrite → ∃ n i, s.pos p = .writing n i

/-- a process that is awake moves on, and others may be woken -/
theorem Wf.move {s : St} (h : Wf s) {p : ℕ} {x : Pos} (hp : s.chan p = none) (hpos : t.pos = s.pos.set p x)
    (hself : t.lock = some p → x.inside = true) (hlock : ∀ q, q ≠ p → t.lock = some q → s.lock = some q)
    (hchan : ∀ q c, t.chan q = some c → s.chan q = some c) : Wf t := by
  have hne : ∀ q c, t.chan q = some c → q ≠ p := by
    rintro q c hq rfl
    have := hchan q c hq
    rw [hp] at this; cases this
  refine ⟨fun q hq => ⟨?_, ?_⟩, fun q hq => ?_, fun q hq => ?_⟩
  · rw [hpos]
    by_cases hqp : q = p
    · subst hqp
      rw [Store.set_self]; exact hself hq
    · rw [Store.set_ne _ _ hqp]; exact (h.holder q (hlock q hqp hq)).1
  · cases hc : t.chan q with
    | none => rfl
    | some c =>
      have := (h.holder q (hlock q (hne q c hc) hq)).2
      rw [hchan q c hc] at this; cases this
  · rw [hpos, Store.set_ne _ _ (hne q _ hq)]; exact h.nread q (hchan q _ hq)
  · rw [hpos, Store.set_ne _ _ (hne q _ hq)]; exact h.nwrite q (hchan q _ hq)

/-- the holder of the lock goes to sleep in its loop, and others may be woken -/
theorem Wf.falls_asleep {s : St} (h : Wf s) {p : ℕ} {c : Chan} (hpos : t.pos = s.pos) (hlock : t.lock = none)
    (hchan : ∀ q d, t.chan q = some d → (q = p ∧ d = c) ∨ s.chan q = some d)
    (hloop : match c with | .nread => ∃ n, s.pos p = .waiting n | .nwrite => ∃ n i, s.pos p = .writing n i) : Wf t := by
  refine ⟨fun q hq => absurd (hlock ▸ hq) (by simp), fun q hq => ?_, fun q hq => ?_⟩
  · rw [hpos]
    obtain ⟨rfl, rfl⟩ | hs := hchan q _ hq
    · exact hloop
    · exact h.nread q hs
  · rw [hpos]
    obtain ⟨rfl, rfl⟩ | hs := hchan q _ hq
    · exact hloop
    · exact h.nwrite q hs

theorem Wf.kill {s : St} (h : Wf s) (p : ℕ) : Wf (kkill s p) := by
  refine ⟨fun q hq => ⟨(h.holder q hq).1, ?_⟩, fun q hq => h.nread q (spared hq), fun q hq => h.nwrite q (spared hq)⟩
  cases hc : (kkill s p).chan q with
  | none => rfl
  | some c =>
    have := (h.holder q hq).2
    rw [spared hc] at this; cases this

theorem Wf.outside_awake {s : St} (h : Wf s) {p : ℕ} (hp : (s.pos p).inside = false) : s.chan p = none := by
  cases hc : s.chan p with
  | none => rfl
  | some c =>
    cases c with
    | nread => obtain ⟨n, hn⟩ := h.nread p hc; rw [hn] at hp; cases hp
    | nwrite => obtain ⟨n, i, hn⟩ := h.nwrite p hc; rw [hn] at hp; cases hp

theorem woken {s : St} {c : Chan} (q : ℕ) (d : Chan) (h : (s.wakeup c).chan q = some d) : s.chan q = some d :=
  ((wakeup_chan_iff s c d q).1 h).1

theorem asleep {s : St} {p : ℕ} {c d : Chan} (h : (s.sleep p c).chan q = some d) :
    (q = p ∧ d = c) ∨ s.chan q = some d := by
  by_cases hqp : q = p
  · subst hqp
    rw [sleep_chan, Store.set_self] at h
    cases h
    exact .inl ⟨rfl, rfl⟩
  · rw [sleep_chan, Store.set_ne _ _ hqp] at h
    exact .inr h

theorem Wf.pass {s : St} {p : ℕ} {ch : UInt8} {ok : Bool} (h : Wf s) (hl : s.lock = some p)
    (hp : Pass s p ch ok t) : Wf t := by
  have hawake := (h.holder p hl).2
  have hno : ∀ q, q ≠ p → s.lock = some q → s.lock = some q := fun _ _ hq => hq
  cases hp with
  | broken | killed =>
    exact h.move hawake rfl (fun e => by cases e) (fun _ _ e => by cases e) fun _ _ e => e
  | wrote | readAll | drops =>
    exact h.move hawake rfl (fun e => by cases e) (fun _ _ e => by cases e) woken
  | stores | begins | delivers => exact h.move hawake rfl (fun _ => rfl) hno fun _ _ e => e
  | full hpos =>
    exact h.falls_asleep rfl rfl (fun q d e => (asleep e).imp id (woken q d)) ⟨_, _, hpos⟩
  | empty hpos => exact h.falls_asleep rfl rfl (fun q d e => asleep e) ⟨_, hpos⟩

theorem Wf.step {s : St} {a : Act} (h : Wf s) (hl : legal s a) (hs : step s a = .ok t) : Wf t := by
  cases a with
  | write p n =>
    cases hs
    exact h.move (h.outside_awake hl.1) rfl (fun _ => rfl) (fun _ _ e => e) fun _ _ e => e
  | read p n =>
    cases hs
    exact h.move (h.outside_awake hl.1) rfl (fun _ => rfl) (fun _ _ e => e) fun _ _ e => e
  | acquire p =>
    cases hs
    refine h.move hl.2.2.1 (Store.set_same _ p).symm (fun _ => hl.1) (fun q hq e => ?_) fun _ _ e => e
    cases e
    exact absurd rfl hq
  | loop p ch ok => exact h.pass hl (pass_of_step (h.holder p hl).1 hs)
  | close w =>
    cases hs
    have hw : ∀ c pi, Wf ({ s with pi := pi }.wakeup c) := by
      intro c pi
      refine ⟨fun q hq => ?_, fun q hq => h.nread q (woken q _ hq), fun q hq => h.nwrite q (woken q _ hq)⟩
      rw [wakeup_lock, hl.1] at hq; cases hq
    unfold pipeclose
    split_ifs
    · exact hw _ _
    · exact hw _ _
  | kill p =>
    cases hs
    exact h.kill p

theorem Wf.init (data : Store UInt8) (killed : Store Bool) : Wf (init data killed) :=
  ⟨fun _ h => (by cases h), fun _ h => (by cases h), fun _ h => (by cases h)⟩

end Xv6.Pipes
