/-
The process table (kernel/proc.h, kernel/proc.c): the fields of a slot that `allocproc`, `freeproc`, `kfork`, `kexit`,
`kwait`, `wakeup` and `kkill` read and write, and what these functions do to one slot while they hold its lock.

What a process owns besides (memory, files, current directory) is not here: the allocations of `allocproc` and `kfork`
succeed or fail as the caller of the model says, and so does the `copyout` of `kwait`. The counter of pids does not
wrap (overflow of the `int` nextpid is undefined).
-/
import Xv6.Core.Machine
import Xv6.Core.Crash
import Xv6.Param

namespace Xv6.Procs

open Xv6.Core

/-- the value of an `int` after an overflow -/
def toInt (x : ℤ) : ℤ := (x + 0x80000000) % 0x100000000 - 0x80000000

/-- the slot of initproc -/
def INIT : ℕ := 0

/-- `enum procstate` -/
inductive ProcState where
  | unused
  | used
  | sleeping
  | runnable
  | running
  | zombie
deriving DecidableEq, Repr

/-- what processes sleep on: a slot of the table in `kwait`, or something else -/
inductive Chan where
  | proc (p : ℕ)
  | other (c : ℕ)
deriving DecidableEq, Repr

/-- `struct proc` -/
structure Proc where
  state : ProcState
  chan : Option Chan
  killed : Bool
  xstate : ℤ
  pid : ℤ
  parent : Option ℕ
deriving DecidableEq, Repr

namespace Proc

/-- a slot that has never been used -/
def zero : Proc := ⟨.unused, none, false, 0, 0, none⟩

/-- what `allocproc` sets -/
def alloc (p : Proc) (pid : ℤ) : Proc := { p with pid := pid, state := .used }

/-- what `freeproc` sets -/
def freeproc (p : Proc) : Proc :=
  { p with pid := 0, parent := none, chan := none, killed := false, xstate := 0, state := .unused }

/-- what `wakeup(c)` does to a slot -/
def wake (p : Proc) (c : Option Chan) : Proc :=
  if p.state = .sleeping ∧ p.chan = c then { p with state := .runnable } else p

/-- what `kkill` does to the slot with its pid -/
def kill (p : Proc) : Proc :=
  { p with killed := true, state := if p.state = .sleeping then .runnable else p.state }

/-- the last thing `kexit` does to its own slot -/
def exit (p : Proc) (status : ℤ) : Proc := { p with xstate := status, state := .zombie }

/-- what `sleep` does to its own slot -/
def sleep (p : Proc) (c : Chan) : Proc := { p with chan := some c, state := .sleeping }

end Proc

/-- the slots 0 .. NPROC - 1 of the table -/
abbrev Table := Store Proc

/-- change the slot p of the table -/
def Table.update (t : Table) (p : ℕ) (f : Proc → Proc) : Table := t.set p (f (t p))

@[simp] theorem Table.update_self (t : Table) (p : ℕ) (f : Proc → Proc) : t.update p f p = f (t p) :=
  Store.set_self _ _ _

theorem Table.update_ne (t : Table) (f : Proc → Proc) {p q : ℕ} (h : q ≠ p) : t.update p f q = t q := Store.set_ne _ _ h

/-- what holds of every slot and of the changed slot holds of every slot after the change -/
theorem Table.update_all {P : ℕ → Proc → Prop} {t : Table} {p : ℕ} {f : Proc → Proc} (h : ∀ q, P q (t q))
    (hp : P p (f (t p))) (q : ℕ) : P q (t.update p f q) := by
  by_cases hq : q = p
  · rw [hq, Table.update_self]; exact hp
  · rw [Table.update_ne _ _ hq]; exact h q

/-- what `userinit` leaves: initproc in the first slot, ready to run -/
def bootTable : Table := fun q => if q = INIT then { Proc.zero with state := .runnable, pid := 1 } else Proc.zero

/-- the panics of process management -/
inductive Panic where
  /-- "init exiting" -/
  | initExiting
deriving DecidableEq, Repr

end Xv6.Procs
