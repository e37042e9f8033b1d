/-
Console input (kernel/console.c: `cons`, `consoleintr`, `consoleread`).

The input ring has three free-running `uint` indices: r (read), w (end of the committed input) and e (end of the line
being edited). `consoleintr` is one section under cons.lock. `consoleread` holds cons.lock too and gives it up only in
`sleep` and when it returns, so what a reader does from a call or a wake-up to its next sleep is one step; `killed` is
read at most once in such a step. Copies to the user succeed. Echo and `procdump` do not touch the ring and are left
out.

`system` is the machine of any number of readers over an input device with these two operations; `console` is the
machine of the source.
-/
import Xv6.Core.Machine
import Xv6.Core.Ring
import Xv6.Param

namespace Xv6.Console

open Xv6.Core

def INPUT_BUF_SIZE : ℕ := 128

/-- `C('D')` and the other characters the driver treats specially -/
def ctrlD : UInt8 := 0x04
def ctrlH : UInt8 := 0x08
def ctrlP : UInt8 := 0x10
def ctrlU : UInt8 := 0x15
def delete : UInt8 := 0x7f
def newline : UInt8 := 0x0a
def carriageReturn : UInt8 := 0x0d

/-- the input part of `cons` -/
structure Cons where
  buf : Store UInt8
  r : ℕ
  w : ℕ
  e : ℕ

/-- the difference of two `uint`s -/
def usub (a b : ℕ) : ℕ := (UINT + a - b) % UINT

namespace Cons

/-- `cons.e--` -/
def back (s : Cons) : Cons := { s with e := usub s.e 1 }

/-- `cons.r++` -/
def get (s : Cons) : Cons := { s with r := (s.r + 1) % UINT }

/-- `cons.r--` -/
def unget (s : Cons) : Cons := { s with r := usub s.r 1 }

/-- the loop of `C('U')`; e is n steps before w, so n bounds its passes -/
def killLine : ℕ → Cons → Cons
  | 0, s => s
  | n + 1, s => if s.e ≠ s.w ∧ s.buf (usub s.e 1 % INPUT_BUF_SIZE) ≠ newline then killLine n s.back else s

/-- `cons.buf[cons.e++ % INPUT_BUF_SIZE] = c` -/
def store (s : Cons) (c : UInt8) : Cons :=
  { s with buf := s.buf.set (s.e % INPUT_BUF_SIZE) c, e := (s.e + 1) % UINT }

def consoleintr (s : Cons) (c : UInt8) : Cons :=
  if c = ctrlP then s
  else if c = ctrlU then killLine (usub s.e s.w) s
  else if c = ctrlH ∨ c = delete then
    if s.e ≠ s.w then s.back else s
  else if c ≠ 0 ∧ usub s.e s.r < INPUT_BUF_SIZE then
    let c := if c = carriageReturn then newline else c
    let s := s.store c
    if c = newline ∨ c = ctrlD ∨ usub s.e s.r = INPUT_BUF_SIZE then { s with w := s.e } else s
  else s

end Cons

/-! ## Readers -/

/-- a call `consoleread(_, _, n)` in progress: target, n, and the characters copied out so far -/
structure Reader where
  target : ℕ
  n : ℕ
  got : List UInt8
deriving DecidableEq, Repr

/-- what a reader does at the end of a step -/
inductive Next where
  /-- it sleeps on &cons.r -/
  | sleeps (rd : Reader)
  /-- it returns, having copied out these characters -/
  | returns (value : ℤ) (got : List UInt8)
deriving DecidableEq, Repr

namespace Cons

/-- the loop of `consoleread`, up to the next sleep or the return -/
def readLoop (killed : Bool) (target : ℕ) : ℕ → Cons → List UInt8 → Cons × Next
  | 0, s, got => (s, .returns target got)
  | n + 1, s, got =>
    if s.r = s.w then
      if killed then (s, .returns (-1) got) else (s, .sleeps ⟨target, n + 1, got⟩)
    else
      let c := s.buf (s.r % INPUT_BUF_SIZE)
      if c = ctrlD then
        (if n + 1 < target then s.get.unget else s.get, .returns (target - (n + 1 : ℕ)) got)
      else if c = newline then (s.get, .returns (target - n) (got ++ [c]))
      else readLoop killed target n s.get (got ++ [c])

/-- a reader runs until it sleeps or returns -/
def consoleread (killed : Bool) (rd : Reader) (s : Cons) : Cons × Next := readLoop killed rd.target rd.n s rd.got

end Cons

/-- what an input device does with a character, and what it gives a reader that runs -/
structure Device (δ : Type) where
  key : δ → UInt8 → δ
  read : Bool → Reader → δ → δ × Next

structure St (δ : Type) where
  dev : δ
  reader : ℕ → Option Reader
  /-- the last return of each process: the value, and what was copied out -/
  result : ℕ → Option (ℤ × List UInt8)

inductive Act where
  | intr (c : UInt8)
  /-- process p calls `consoleread` with n -/
  | call (p : ℕ) (n : ℤ) (killed : Bool)
  /-- process p wakes up in `consoleread` -/
  | wake (p : ℕ) (killed : Bool)
deriving DecidableEq, Repr

variable {δ : Type}

/-- process p runs as reader rd -/
def Device.go (D : Device δ) (s : St δ) (p : ℕ) (killed : Bool) (rd : Reader) : St δ :=
  match D.read killed rd s.dev with
  | (d, .sleeps rd) => { s with dev := d, reader := Function.update s.reader p (some rd) }
  | (d, .returns v got) => { s with
      dev := d, reader := Function.update s.reader p none, result := Function.update s.result p (some (v, got)) }

/-- a call with a negative n returns 0, as with n = 0 -/
def Device.step (D : Device δ) (s : St δ) : Act → St δ
  | .intr c => { s with dev := D.key s.dev c }
  | .call p n killed => D.go s p killed ⟨n.toNat, n.toNat, []⟩
  | .wake p killed => D.go s p killed ((s.reader p).getD ⟨0, 0, []⟩)

/-- a process is in at most one call -/
def legal (s : St δ) : Act → Prop
  | .intr _ => True
  | .call p _ _ => s.reader p = none
  | .wake p _ => (s.reader p).isSome

def system (D : Device δ) : Machine (St δ) Act Empty := ⟨legal, fun s a => .ok (D.step s a)⟩

instance (D : Device δ) (s : St δ) (a : Act) : Decidable ((system D).legal s a) := by
  cases a <;> unfold system legal <;> infer_instance

/-- the driver -/
def driver : Device Cons := ⟨Cons.consoleintr, Cons.consoleread⟩

abbrev console : Machine (St Cons) Act Empty := system driver

/-- at boot -/
def start : St Cons := ⟨⟨fun _ => 0, 0, 0, 0⟩, fun _ => none, fun _ => none⟩

end Xv6.Console
