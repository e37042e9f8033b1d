/-
fork, exit, wait and kill, interleaved (kernel/proc.c: `kfork`, `reparent`, `kexit`, `kwait`, `sleep`, `wakeup`,
`kkill`).

Any process that is RUNNING may take the next step of the kernel function it is in. A step is what the function does
between acquiring and releasing the p->lock of one slot; wait_lock is held from step to step, through the loops of
`kexit` and `kwait`. So another process may be killed, created, woken or scheduled between any two slots that a loop
visits.

The state also keeps, for the statements only, who forked the process in a slot, which processes have exited with which
status, and what the successful calls of wait returned.
-/
import Xv6.Proc.Table

namespace Xv6.Procs.Exit

open Xv6.Core

/-- where a process is in the kernel -/
inductive Pos where
  /-- outside the functions modelled; what the last of them returned -/
  | user (ret : ℤ)
  /-- `allocproc` in `kfork`, at slot q -/
  | alloc (q : ℕ)
  /-- `kfork`, before it takes wait_lock to set np->parent -/
  | adopt (q : ℕ) (pid : ℤ)
  /-- `kfork`, before it makes np RUNNABLE -/
  | start (q : ℕ) (pid : ℤ)
  /-- `kexit`, before it takes wait_lock -/
  | exit (status : ℤ)
  /-- `reparent` in `kexit`, at slot q -/
  | reparent (status : ℤ) (q : ℕ)
  /-- `wakeup(initproc)` in `reparent` at slot q, at slot r -/
  | wakeInit (status : ℤ) (q r : ℕ)
  /-- `wakeup(p->parent)` in `kexit`, at slot r -/
  | wakeParent (status : ℤ) (r : ℕ)
  /-- `kexit`, before it takes its own p->lock -/
  | dying (status : ℤ)
  /-- in the `sched` at the end of `kexit` -/
  | dead
  /-- `kwait`, before it takes wait_lock, at the start or back from `sleep` -/
  | wait
  /-- `kwait`, at slot q of its scan -/
  | scan (q : ℕ) (havekids : Bool)
  /-- `kwait`, before the p->lock of `sleep(p, &wait_lock)` -/
  | toSleep
  /-- `kwait`, in the `sched` of `sleep` -/
  | asleep
  /-- `kkill`, at slot q -/
  | kill (pid : ℤ) (q : ℕ)
deriving DecidableEq, Repr

/-- wait_lock is held here -/
def Pos.holds : Pos → Bool
  | .reparent _ _ | .wakeInit _ _ _ | .wakeParent _ _ | .dying _ | .scan _ _ | .toSleep => true
  | _ => false

/-- the slot of the child that `kfork` has allocated and not yet made RUNNABLE -/
def Pos.making : Pos → Option ℕ
  | .adopt q _ | .start q _ => some q
  | _ => none

/-- in `kwait` -/
def Pos.waits : Pos → Bool
  | .wait | .scan _ _ | .toSleep | .asleep => true
  | _ => false

/-- a successful wait: who got what -/
structure Reap where
  waiter : ℕ
  waiterPid : ℤ
  pid : ℤ
  status : ℤ
  /-- the pid of the process that forked the one returned -/
  forker : ℤ
deriving DecidableEq, Repr

structure St where
  proc : Table
  nextpid : ℤ
  waitLock : Option ℕ
  pos : Store Pos
  /-- the pid of the process that forked the one in the slot -/
  forker : Store ℤ
  /-- pid and status of the processes that have become ZOMBIE -/
  exits : List (ℤ × ℤ)
  reaps : List Reap

namespace St

variable (s : St)

/-- p goes on to x -/
def go (p : ℕ) (x : Pos) : St := { s with pos := s.pos.set p x }

/-- the slot q changes -/
def put (q : ℕ) (f : Proc → Proc) : St := { s with proc := s.proc.update q f }

/-- wait_lock is taken or given back -/
def locked (o : Option ℕ) : St := { s with waitLock := o }

/-- `wakeup(c)` of process p, at slot r -/
def wake (p r : ℕ) (c : Option Chan) : St := if r = p then s else s.put r (·.wake c)

/-- `allocproc` of process p takes slot q -/
def allocs (p q : ℕ) : St :=
  { s.put q (·.alloc s.nextpid) with
    nextpid := s.nextpid + 1
    pos := (s.pos.set q (.user 0)).set p (.adopt q s.nextpid)
    forker := s.forker.set q (s.proc p).pid }

/-- `allocproc` or `uvmcopy` runs out of memory: slot q is free again -/
def allocFails (p q : ℕ) : St := { s.put q Proc.freeproc with nextpid := s.nextpid + 1 }.go p (.user (-1))

/-- `kexit` of process p becomes a ZOMBIE -/
def dies (p : ℕ) (status : ℤ) : St :=
  { ((s.put p (·.exit status)).locked none).go p .dead with exits := s.exits ++ [((s.proc p).pid, status)] }

/-- `kwait` of process p returns its child in slot q -/
def reap (p q : ℕ) : St :=
  { ((s.put q Proc.freeproc).locked none).go p (.user (s.proc q).pid) with
    reaps := s.reaps ++ [⟨p, (s.proc p).pid, (s.proc q).pid, (s.proc q).xstate, s.forker q⟩] }

/-- the next step of process p; ok: whether the allocations or the copyout in it succeed -/
def advance (p : ℕ) (ok : Bool) : St :=
  match s.pos p with
  | .user _ | .dead => s
  | .alloc q =>
    if q < NPROC then
      if (s.proc q).state = .unused then if ok then s.allocs p q else s.allocFails p q
      else s.go p (.alloc (q + 1))
    else s.go p (.user (-1))
  | .adopt q pid => (s.put q fun np => { np with parent := some p }).go p (.start q pid)
  | .start q pid => (s.put q fun np => { np with state := .runnable }).go p (.user pid)
  | .exit status => (s.locked (some p)).go p (.reparent status 0)
  | .reparent status q =>
    if q < NPROC then
      if (s.proc q).parent = some p then
        (s.put q fun pp => { pp with parent := some INIT }).go p (.wakeInit status q 0)
      else s.go p (.reparent status (q + 1))
    else s.go p (.wakeParent status 0)
  | .wakeInit status q r =>
    if r < NPROC then (s.wake p r (some (.proc INIT))).go p (.wakeInit status q (r + 1))
    else s.go p (.reparent status (q + 1))
  | .wakeParent status r =>
    if r < NPROC then (s.wake p r ((s.proc p).parent.map .proc)).go p (.wakeParent status (r + 1))
    else s.go p (.dying status)
  | .dying status => s.dies p status
  | .wait => (s.locked (some p)).go p (.scan 0 false)
  | .scan q havekids =>
    if q < NPROC then
      if (s.proc q).parent = some p then
        if (s.proc q).state = .zombie then if ok then s.reap p q else (s.locked none).go p (.user (-1))
        else s.go p (.scan (q + 1) true)
      else s.go p (.scan (q + 1) havekids)
    else if havekids = false ∨ (s.proc p).killed = true then (s.locked none).go p (.user (-1))
    else s.go p .toSleep
  | .toSleep => ((s.put p (·.sleep (.proc p))).locked none).go p .asleep
  | .asleep => (s.put p fun q => { q with chan := none }).go p .wait
  | .kill pid q =>
    if q < NPROC then
      if (s.proc q).pid = pid then (s.put q Proc.kill).go p (.user 0) else s.go p (.kill pid (q + 1))
    else s.go p (.user (-1))

end St

/-! ## The machine -/

inductive Act where
  | fork (p : ℕ)
  | exit (p : ℕ) (status : ℤ)
  | wait (p : ℕ)
  | kill (p : ℕ) (pid : ℤ)
  /-- the next step of the function p is in -/
  | advance (p : ℕ) (ok : Bool)
  /-- `setkilled(p)` -/
  | fault (p : ℕ)
  /-- p sleeps on another channel than `kwait` does -/
  | sleep (p c : ℕ)
  /-- a wakeup of such a channel, at slot r -/
  | wakeup (c r : ℕ)
  | dispatch (p : ℕ)
  | yield (p : ℕ)
deriving DecidableEq, Repr

def step (s : St) : Act → Except Panic St
  | .fork p => .ok (s.go p (.alloc 0))
  | .exit p status => if p = INIT then .error .initExiting else .ok (s.go p (.exit status))
  | .wait p => .ok (s.go p .wait)
  | .kill p pid => .ok (s.go p (.kill pid 0))
  | .advance p ok => .ok (s.advance p ok)
  | .fault p => .ok (s.put p fun q => { q with killed := true })
  | .sleep p c => .ok (s.put p (·.sleep (.other c)))
  | .wakeup c r => .ok (s.put r (·.wake (some (.other c))))
  | .dispatch p => .ok (s.put p fun q => { q with state := .running })
  | .yield p => .ok (s.put p fun q => { q with state := .runnable })

def Pos.isUser : Pos → Bool
  | .user _ => true
  | _ => false

/-- there is a next step -/
def Pos.steps : Pos → Bool
  | .user _ | .dead => false
  | _ => true

/-- the next step takes wait_lock -/
def Pos.takes : Pos → Bool
  | .adopt _ _ | .exit _ | .wait => true
  | _ => false

/-- a process steps when it is RUNNING, takes wait_lock when it is free, and is not preempted while it holds it -/
def legal (s : St) : Act → Prop
  | .fork p | .exit p _ | .wait p | .kill p _ | .fault p | .sleep p _ =>
    p < NPROC ∧ (s.proc p).state = .running ∧ (s.pos p).isUser = true
  | .advance p _ =>
    p < NPROC ∧ (s.proc p).state = .running ∧ (s.pos p).steps = true ∧ ((s.pos p).takes = true → s.waitLock = none)
  | .wakeup _ r => r < NPROC
  | .dispatch p => p < NPROC ∧ (s.proc p).state = .runnable
  | .yield p => p < NPROC ∧ (s.proc p).state = .running ∧ s.waitLock ≠ some p

instance (s : St) (a : Act) : Decidable (legal s a) := by cases a <;> unfold legal <;> infer_instance

def protocol : Machine St Act Panic := ⟨legal, step⟩

instance (s : St) (a : Act) : Decidable (protocol.legal s a) := inferInstanceAs (Decidable (legal s a))

def boot : St := ⟨bootTable, 2, none, fun _ => .user 0, fun _ => 0, [], []⟩

/-! ## What a step can do -/

/-- the next step of process p -/
inductive Move (s : St) (p : ℕ) (ok : Bool) : St → Prop
  | allocFull {q} (hpos : s.pos p = .alloc q) (hq : NPROC ≤ q) : Move s p ok (s.go p (.user (-1)))
  | allocNext {q} (hpos : s.pos p = .alloc q) : Move s p ok (s.go p (.alloc (q + 1)))
  | allocFails {q} (hpos : s.pos p = .alloc q) (hq : q < NPROC) (hu : (s.proc q).state = .unused) :
      Move s p ok (s.allocFails p q)
  | allocs {q} (hpos : s.pos p = .alloc q) (hq : q < NPROC) (hu : (s.proc q).state = .unused) : Move s p ok
      (s.allocs p q)
  | adopts {q pid} (hpos : s.pos p = .adopt q pid) (hl : s.waitLock = none) :
      Move s p ok ((s.put q fun np => { np with parent := some p }).go p (.start q pid))
  | starts {q pid} (hpos : s.pos p = .start q pid) :
      Move s p ok ((s.put q fun np => { np with state := .runnable }).go p (.user pid))
  | exits {status} (hpos : s.pos p = .exit status) (hl : s.waitLock = none) :
      Move s p ok ((s.locked (some p)).go p (.reparent status 0))
  | reparents {status q} (hpos : s.pos p = .reparent status q) (hq : q < NPROC) (hc : (s.proc q).parent = some p) :
      Move s p ok ((s.put q fun pp => { pp with parent := some INIT }).go p (.wakeInit status q 0))
  | reparentNext {status q} (hpos : s.pos p = .reparent status q) (hc : (s.proc q).parent ≠ some p) :
      Move s p ok (s.go p (.reparent status (q + 1)))
  | reparentEnd {status q} (hpos : s.pos p = .reparent status q) (hq : NPROC ≤ q) :
      Move s p ok (s.go p (.wakeParent status 0))
  | wakesInit {status q r} (hpos : s.pos p = .wakeInit status q r) (hr : r < NPROC) :
      Move s p ok ((s.wake p r (some (.proc INIT))).go p (.wakeInit status q (r + 1)))
  | wakeInitEnd {status q r} (hpos : s.pos p = .wakeInit status q r) (hr : NPROC ≤ r) :
      Move s p ok (s.go p (.reparent status (q + 1)))
  | wakesParent {status r} (hpos : s.pos p = .wakeParent status r) (hr : r < NPROC) :
      Move s p ok ((s.wake p r ((s.proc p).parent.map .proc)).go p (.wakeParent status (r + 1)))
  | wakeParentEnd {status r} (hpos : s.pos p = .wakeParent status r) (hr : NPROC ≤ r) :
      Move s p ok (s.go p (.dying status))
  | dies {status} (hpos : s.pos p = .dying status) : Move s p ok (s.dies p status)
  | waits (hpos : s.pos p = .wait) (hl : s.waitLock = none) : Move s p ok ((s.locked (some p)).go p (.scan 0 false))
  | scanNext {q b} (hpos : s.pos p = .scan q b) (hc : (s.proc q).parent ≠ some p) : Move s p ok
      (s.go p (.scan (q + 1) b))
  | scanLive {q b} (hpos : s.pos p = .scan q b) (hz : (s.proc q).state ≠ .zombie) :
      Move s p ok (s.go p (.scan (q + 1) true))
  | reaps {q b} (hpos : s.pos p = .scan q b) (hq : q < NPROC) (hc : (s.proc q).parent = some p)
      (hz : (s.proc q).state = .zombie) : Move s p ok (s.reap p q)
  | copyFails {q b} (hpos : s.pos p = .scan q b) (hc : (s.proc q).parent = some p) (hz : (s.proc q).state = .zombie)
      (hok : ok = false) :
      Move s p ok ((s.locked none).go p (.user (-1)))
  | noChild {q b} (hpos : s.pos p = .scan q b) (hq : NPROC ≤ q) (hwhy : b = false ∨ (s.proc p).killed = true) :
      Move s p ok ((s.locked none).go p (.user (-1)))
  | decides {q} (hpos : s.pos p = .scan q true) (hq : NPROC ≤ q) : Move s p ok (s.go p .toSleep)
  | sleeps (hpos : s.pos p = .toSleep) : Move s p ok (((s.put p (·.sleep (.proc p))).locked none).go p .asleep)
  | resumes (hpos : s.pos p = .asleep) : Move s p ok ((s.put p fun q => { q with chan := none }).go p .wait)
  | kills {pid q} (hpos : s.pos p = .kill pid q) : Move s p ok ((s.put q Proc.kill).go p (.user 0))
  | killNext {pid q} (hpos : s.pos p = .kill pid q) : Move s p ok (s.go p (.kill pid (q + 1)))
  | killEnd {pid q} (hpos : s.pos p = .kill pid q) : Move s p ok (s.go p (.user (-1)))

theorem move_of_advance {s : St} {p : ℕ} {ok : Bool} (hl : legal s (.advance p ok)) : Move s p ok (s.advance p ok) := by
  obtain ⟨-, -, hsteps, hl⟩ := hl
  cases hpos : s.pos p with
  | user r => rw [hpos] at hsteps; cases hsteps
  | dead => rw [hpos] at hsteps; cases hsteps
  | alloc q =>
    simp only [St.advance, hpos]
    split_ifs with hq hu
    · exact .allocs hpos hq hu
    · exact .allocFails hpos hq hu
    · exact .allocNext hpos
    · exact .allocFull hpos (by omega)
  | adopt q pid =>
    simp only [St.advance, hpos]
    exact .adopts hpos (hl (by rw [hpos]; rfl))
  | start q pid =>
    simp only [St.advance, hpos]
    exact .starts hpos
  | exit status =>
    simp only [St.advance, hpos]
    exact .exits hpos (hl (by rw [hpos]; rfl))
  | reparent status q =>
    simp only [St.advance, hpos]
    split_ifs with hq hc
    · exact .reparents hpos hq hc
    · exact .reparentNext hpos hc
    · exact .reparentEnd hpos (by omega)
  | wakeInit status q r =>
    simp only [St.advance, hpos]
    split_ifs with hr
    · exact .wakesInit hpos hr
    · exact .wakeInitEnd hpos (by omega)
  | wakeParent status r =>
    simp only [St.advance, hpos]
    split_ifs with hr
    · exact .wakesParent hpos hr
    · exact .wakeParentEnd hpos (by omega)
  | dying status =>
    simp only [St.advance, hpos]
    exact .dies hpos
  | wait =>
    simp only [St.advance, hpos]
    exact .waits hpos (hl (by rw [hpos]; rfl))
  | scan q b =>
    simp only [St.advance, hpos]
    split_ifs with hq hc hz hok hwhy
    · exact .reaps hpos hq hc hz
    · exact .copyFails hpos hc hz (by simpa using hok)
    · exact .scanLive hpos hz
    · exact .scanNext hpos hc
    · exact .noChild hpos (by omega) hwhy
    · cases b with
      | false => exact absurd (.inl rfl) hwhy
      | true => exact .decides hpos (by omega)
  | toSleep =>
    simp only [St.advance, hpos]
    exact .sleeps hpos
  | asleep =>
    simp only [St.advance, hpos]
    exact .resumes hpos
  | kill pid q =>
    simp only [St.advance, hpos]
    split_ifs with hq hk
    · exact .kills hpos
    · exact .killNext hpos
    · exact .killEnd hpos

/-! ## Fields -/

section Fields
variable (s : St) (p q : ℕ) (x : Pos) (f : Proc → Proc) (o : Option ℕ)

@[simp] theorem go_proc : (s.go p x).proc = s.proc := rfl
@[simp] theorem go_waitLock : (s.go p x).waitLock = s.waitLock := rfl
@[simp] theorem go_pos : (s.go p x).pos = s.pos.set p x := rfl
@[simp] theorem go_forker : (s.go p x).forker = s.forker := rfl
@[simp] theorem go_exits : (s.go p x).exits = s.exits := rfl
@[simp] theorem go_reaps : (s.go p x).reaps = s.reaps := rfl
@[simp] theorem go_nextpid : (s.go p x).nextpid = s.nextpid := rfl
@[simp] theorem put_proc : (s.put q f).proc = s.proc.update q f := rfl
@[simp] theorem put_waitLock : (s.put q f).waitLock = s.waitLock := rfl
@[simp] theorem put_pos : (s.put q f).pos = s.pos := rfl
@[simp] theorem put_nextpid : (s.put q f).nextpid = s.nextpid := rfl
@[simp] theorem locked_proc : (s.locked o).proc = s.proc := rfl
@[simp] theorem locked_waitLock : (s.locked o).waitLock = o := rfl
@[simp] theorem locked_pos : (s.locked o).pos = s.pos := rfl
@[simp] theorem locked_nextpid : (s.locked o).nextpid = s.nextpid := rfl
@[simp] theorem dies_proc (status : ℤ) : (s.dies p status).proc = s.proc.update p (·.exit status) := rfl
@[simp] theorem reap_proc : (s.reap p q).proc = s.proc.update q Proc.freeproc := rfl

variable (r : ℕ) (c : Option Chan)

@[simp] theorem wake_waitLock : (s.wake p r c).waitLock = s.waitLock := by unfold St.wake; split_ifs <;> rfl
@[simp] theorem wake_pos : (s.wake p r c).pos = s.pos := by unfold St.wake; split_ifs <;> rfl
@[simp] theorem wake_forker : (s.wake p r c).forker = s.forker := by unfold St.wake; split_ifs <;> rfl
@[simp] theorem wake_exits : (s.wake p r c).exits = s.exits := by unfold St.wake; split_ifs <;> rfl
@[simp] theorem wake_reaps : (s.wake p r c).reaps = s.reaps := by unfold St.wake; split_ifs <;> rfl
@[simp] theorem wake_nextpid : (s.wake p r c).nextpid = s.nextpid := by unfold St.wake; split_ifs <;> rfl

end Fields

end Xv6.Procs.Exit
