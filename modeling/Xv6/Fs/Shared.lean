/-
Processes that share one open file (kernel/file.c: `filewrite`; kernel/sysfile.c: `sys_dup`, `kfork`).

Any number of processes have descriptors for the same `struct file` and write through it. A step of a process is one
chunk of the write it is in, under the lock of the inode, or the return from a write that has made all of its chunks:
`filewriteLoop_round` says that this is what the loop of `filewrite` does. A chunk that is not written whole is a
failure.

`shared_writes`: if the file is at its end at the start, every run without a failure appends the chunks in the order of
the steps, and those of each process in the order of its writes.
-/
import Xv6.Fs.Splice

namespace Xv6.Fs.Shared

open Xv6.Core
open Xv6.Fs.Append (writeChunk Fail)

/-! ## The machine -/

/-- a call of `filewrite` -/
structure Write where
  mem : UserMem
  addr : ℕ
  n : ℕ

/-- the length of the chunk that a write makes after i bytes -/
def Write.next (w : Write) (i : ℕ) : ℕ := min (w.n - i) MAXWRITE

/-- the data of this chunk -/
def Write.chunk (w : Write) (i : ℕ) : List UInt8 := (Src.user w.mem (w.addr + i)).data (w.next i)

theorem Write.next_pos (w : Write) {i : ℕ} (h : i < w.n) : 0 < w.next i := lt_min (by omega) (by decide)

/-- the chunks that a write makes after i bytes -/
def Write.chunksFrom (w : Write) (i : ℕ) : List (List UInt8) :=
  if i < w.n then w.chunk i :: w.chunksFrom (i + w.next i) else []
termination_by w.n - i
decreasing_by
  have := w.next_pos ‹_›
  omega

def Write.chunks (w : Write) : List (List UInt8) := w.chunksFrom 0

structure Sys where
  st : St
  /-- the writes that a process has not finished; it is in the first of them -/
  todo : Store (List Write)
  /-- the bytes that this one has written -/
  done : Store ℕ
  /-- the chunks written so far, with the process that wrote each -/
  log : List (ℕ × List UInt8)

/-- process p makes the next step of its first write -/
def step (sb : Superblock) (f : ℕ) (c : Sys) (p : ℕ) : Except Fail Sys :=
  match c.todo p with
  | [] => .ok c
  | w :: rest =>
    if c.done p < w.n then
      match writeChunk sb f w.mem (w.addr + c.done p) (w.next (c.done p)) c.st with
      | .error e => .error (.panic e)
      | .ok (r, t) =>
        if r = some (w.next (c.done p)) then
          .ok { c with
            st := t
            done := c.done.set p (c.done p + w.next (c.done p))
            log := c.log ++ [(p, w.chunk (c.done p))] }
        else .error .short
    else .ok { c with todo := c.todo.set p rest, done := c.done.set p 0 }

/-- the process has a descriptor for the file, and a write to make -/
def legal (f : ℕ) (c : Sys) (p : ℕ) : Prop := c.todo p ≠ [] ∧ ∃ fd, fd < NOFILE ∧ (c.st.proc p).ofile fd = some f

instance (f : ℕ) (c : Sys) (p : ℕ) : Decidable (legal f c p) := by unfold legal; infer_instance

def shared (sb : Superblock) (f : ℕ) : Machine Sys ℕ Fail := ⟨legal f, step sb f⟩

instance (sb : Superblock) (f : ℕ) (c : Sys) (p : ℕ) : Decidable ((shared sb f).legal c p) :=
  inferInstanceAs (Decidable (legal f c p))

/-- the processes are about to run their programs -/
def start (s : St) (program : Store (List Write)) : Sys := ⟨s, program, fun _ => 0, []⟩

/-! ## What a step does -/

variable {sb : Superblock} {f X p : ℕ} {s : St} {m : Node} {c d : Sys} {rest : List Write} {x : List UInt8}
  {done : Store ℕ}

/-- the chunks that process p has still to write -/
def Sys.left (c : Sys) (p : ℕ) : List (List UInt8) :=
  match c.todo p with
  | [] => []
  | w :: rest => w.chunksFrom (c.done p) ++ rest.flatMap Write.chunks

/-- the chunks that process p has written -/
def Sys.wrote (c : Sys) (p : ℕ) : List (List UInt8) := (c.log.filter fun x => x.1 = p).map Prod.snd

/-- all chunks written -/
def Sys.data (c : Sys) : List UInt8 := (c.log.map Prod.snd).flatten

/-- a step of process p -/
inductive Move (sb : Superblock) (f : ℕ) (c : Sys) (p : ℕ) : Sys → Prop
  | chunk {w rest t} (htodo : c.todo p = w :: rest) (hlt : c.done p < w.n)
      (hrun : writeChunk sb f w.mem (w.addr + c.done p) (w.next (c.done p)) c.st = .ok (some (w.next (c.done p)), t)) :
      Move sb f c p { c with
        st := t
        done := c.done.set p (c.done p + w.next (c.done p))
        log := c.log ++ [(p, w.chunk (c.done p))] }
  | finish {w rest} (htodo : c.todo p = w :: rest) (hge : w.n ≤ c.done p) :
      Move sb f c p { c with todo := c.todo.set p rest, done := c.done.set p 0 }

theorem move_of_step (hl : legal f c p) (h : step sb f c p = .ok d) : Move sb f c p d := by
  unfold step at h
  cases htodo : c.todo p with
  | nil => exact absurd htodo hl.1
  | cons w rest =>
    rw [htodo] at h
    simp only at h
    split_ifs at h with hlt
    · cases hrun : writeChunk sb f w.mem (w.addr + c.done p) (w.next (c.done p)) c.st with
      | error e =>
        rw [hrun] at h
        cases h
      | ok x =>
        obtain ⟨r, t⟩ := x
        rw [hrun] at h
        simp only at h
        split_ifs at h with hr
        cases h
        subst hr
        exact .chunk htodo hlt hrun
    · cases h
      exact .finish htodo (by omega)

/-! ## The content -/

/-- the file is at its end, and its content is l followed by what has been written -/
structure AtEnd (sb : Superblock) (f X : ℕ) (m : Node) (c : Sys) : Prop where
  file : FileAt sb c.st f X
  node : c.st.node sb X = some { m with bytes := m.bytes ++ c.data }
  off : (c.st.file f).off = (m.bytes ++ c.data).length

theorem overwrite_end (l w : List UInt8) : overwrite l l.length w = l ++ w := by
  simp [overwrite]

theorem AtEnd.move (hl : Layout sb) (h : AtEnd sb f X m c) (hm : Move sb f c p d) : AtEnd sb f X m d := by
  cases hm with
  | finish => exact ⟨h.file, h.node, h.off⟩
  | @chunk w rest t htodo hlt hrun =>
    obtain ⟨hfile, -, htab, l, hpost, hnode⟩ := (h.file.chunk (E := fun _ => True) hl h.node).ok hrun
    obtain ⟨-, hl'⟩ := hpost.whole
    have hdata : Sys.data { c with
        st := t
        done := c.done.set p (c.done p + w.next (c.done p))
        log := c.log ++ [(p, w.chunk (c.done p))] } = c.data ++ w.chunk (c.done p) := by
      simp [Sys.data]
    rw [h.off, overwrite_end] at hl'
    refine ⟨hfile, ?_, ?_⟩
    · rw [hdata, ← List.append_assoc, hnode, Function.update_self, hl']
      rfl
    · rw [hdata, ← List.append_assoc, htab, Store.set_self, List.length_append, ← h.off]
      show _ + w.next (c.done p) = _ + (w.chunk (c.done p)).length
      rw [Write.chunk, length_data]

/-! ## The order -/

theorem Sys.left_cons {w : Write} (h : c.todo p = w :: rest) :
    c.left p = w.chunksFrom (c.done p) ++ rest.flatMap Write.chunks := by
  unfold Sys.left
  rw [h]

theorem Sys.left_zero (h : c.done p = 0) : c.left p = (c.todo p).flatMap Write.chunks := by
  cases htodo : c.todo p with
  | nil =>
    unfold Sys.left
    rw [htodo]
    rfl
  | cons w rest => rw [Sys.left_cons htodo, h, List.flatMap_cons, Write.chunks]

theorem Sys.left_congr {q : ℕ} (htodo : d.todo q = c.todo q) (hdone : d.done q = c.done q) : d.left q = c.left q := by
  unfold Sys.left
  rw [htodo, hdone]

theorem wrote_append_of_ne {q : ℕ} {t : St} (hq : q ≠ p) :
    Sys.wrote { c with st := t, done := done, log := c.log ++ [(p, x)] } q = c.wrote q := by
  simp [Sys.wrote, Ne.symm hq]

theorem wrote_append_self {t : St} :
    Sys.wrote { c with st := t, done := done, log := c.log ++ [(p, x)] } p = c.wrote p ++ [x] := by
  simp [Sys.wrote]

theorem left_set {w : Write} (h : c.todo p = w :: rest) (t : St) (n : ℕ) (log : List (ℕ × List UInt8)) :
    Sys.left { c with st := t, done := c.done.set p n, log := log } p =
      w.chunksFrom n ++ rest.flatMap Write.chunks := by
  obtain ⟨d, hd⟩ : ∃ d : Sys, d = { c with st := t, done := c.done.set p n, log := log } := ⟨_, rfl⟩
  have hdone : d.done p = n := by rw [hd]; exact Store.set_self _ _ _
  have htodo : d.todo p = w :: rest := by rw [hd]; exact h
  rw [← hd, Sys.left_cons htodo, hdone]

/-- a step takes the chunk it writes from those its process had left -/
theorem wrote_left_move (hm : Move sb f c p d) (q : ℕ) : d.wrote q ++ d.left q = c.wrote q ++ c.left q := by
  cases hm with
  | @finish w rest htodo hge =>
    refine congrArg (c.wrote q ++ ·) ?_
    by_cases hq : q = p
    · subst hq
      have hnone : w.chunksFrom (c.done q) = [] := by
        rw [Write.chunksFrom, if_neg (by omega)]
      rw [Sys.left_cons htodo, hnone, List.nil_append, Sys.left_zero (Store.set_self _ _ _)]
      show ((c.todo.set q rest) q).flatMap Write.chunks = _
      rw [Store.set_self]
    · exact Sys.left_congr (Store.set_ne _ _ hq) (Store.set_ne _ _ hq)
  | @chunk w rest t htodo hlt hrun =>
    by_cases hq : q = p
    · subst hq
      have hfirst : w.chunksFrom (c.done q) = w.chunk (c.done q) :: w.chunksFrom (c.done q + w.next (c.done q)) := by
        rw [Write.chunksFrom, if_pos hlt]
      rw [Sys.left_cons htodo, hfirst, wrote_append_self, left_set htodo]
      simp
    · rw [wrote_append_of_ne hq]
      exact congrArg (c.wrote q ++ ·) (Sys.left_congr rfl (Store.set_ne _ _ hq))

/-! ## Runs -/

/-- **No data is lost** through a shared descriptor. Any number of processes write through file f, which is open for the
inode X and at its end, in any interleaving of their chunks. After a run without a failure the content is the
initial one followed by all chunks in the order of the steps, and f->off is the size; what a process has written and
what it has left are the chunks of its writes, in order. -/
theorem shared_writes (hl : Layout sb) (h : FileAt sb s f X) (hnode : s.node sb X = some m)
    (hoff : (s.file f).off = m.bytes.length) (program : Store (List Write)) {ps : List ℕ}
    (hlegal : (shared sb f).LegalRun (start s program) ps) (hrun : (shared sb f).run (start s program) ps = .ok c) :
    c.st.node sb X = some { m with bytes := m.bytes ++ (c.log.map Prod.snd).flatten } ∧
      (c.st.file f).off = (m.bytes ++ (c.log.map Prod.snd).flatten).length ∧
      ∀ p, ((c.log.filter fun x => x.1 = p).map Prod.snd) ++ c.left p = (program p).flatMap Write.chunks := by
  have hinv : AtEnd sb f X m c ∧ ∀ p, c.wrote p ++ c.left p = (program p).flatMap Write.chunks := by
    refine Machine.Reach.inv (fun c => AtEnd sb f X m c ∧ ∀ p, c.wrote p ++ c.left p = (program p).flatMap Write.chunks)
      ⟨ps, hlegal, hrun⟩ ⟨⟨h, ?_, ?_⟩, fun p => ?_⟩ ?_
    · simpa [start, Sys.data] using hnode
    · simpa [start, Sys.data] using hoff
    · exact Sys.left_zero (c := start s program) rfl
    · intro c p d hc hp hstep
      have hm := move_of_step hp hstep
      exact ⟨hc.1.move hl hm, fun q => (wrote_left_move hm q).trans (hc.2 q)⟩
  exact ⟨hinv.1.node, hinv.1.off, hinv.2⟩

/-- processes 0 and 1 share the open file "/f" -/
def openTwo : List (ℕ × Call) := openF ++ [(0, .fork 1)]

/-- a write of the byte x -/
def one (x : UInt8) : Write := ⟨fun _ => some fun _ => x, 0, 1⟩

/-- process 0 writes "a" and "c", process 1 writes "b" -/
def abc : Store (List Write) := fun p => if p = 0 then [one 97, one 99] else if p = 1 then [one 98] else []

theorem openTwo_state :
    (after openTwo).node Ownership.tiny 2 = some ⟨T_FILE, 1, []⟩ ∧ ((after openTwo).file 0).type = .inode ∧
      ((after openTwo).inode ((after openTwo).file 0).ip).inum = 2 ∧
      ((after openTwo).inode ((after openTwo).file 0).ip).locked = false ∧ ((after openTwo).file 0).off = 0 := by
  decide +kernel

theorem shared_writes_abc : ∃ c, (shared Ownership.tiny 0).LegalRun (start (after openTwo) abc) [0, 1, 0, 0] ∧
    (shared Ownership.tiny 0).run (start (after openTwo) abc) [0, 1, 0, 0] = .ok c ∧
    c.st.node Ownership.tiny 2 = some ⟨T_FILE, 1, [97, 98, 99]⟩ ∧ (c.st.file 0).off = 3 := by
  obtain ⟨hnode, hty, hinum, hlock, hoff⟩ := openTwo_state
  have hat : FileAt Ownership.tiny (after openTwo) 0 2 :=
    hinum ▸ (Append.idle_after (by decide +kernel) : Idle _ _).fileAt hty hlock
  obtain ⟨c, hlegal, hrun, hlog⟩ := Machine.exists_run_of_steps (s := start (after openTwo) abc) (l := [0, 1, 0, 0])
    (p := fun c => decide (c.log = [(0, [97]), (1, [98]), (0, [99])])) (M := shared Ownership.tiny 0)
    (by decide +kernel)
  obtain ⟨hcont, hend, -⟩ := shared_writes Ownership.tiny_layout hat hnode hoff abc hlegal hrun
  rw [of_decide_eq_true hlog] at hcont hend
  exact ⟨c, hlegal, hrun, hcont, hend⟩

end Xv6.Fs.Shared
