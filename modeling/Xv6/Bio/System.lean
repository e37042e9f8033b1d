/-
The buffer cache and the log together (kernel/bio.c, kernel/log.c): any number of processes use buffers and run
file-system operations, and one of them commits.

A step is what one process does under bcache.lock, under log.lock, or to a buffer it holds. `bread` is the two steps
`bget` (the look-up) and `lock` (the sleep-lock and the disk read), `brelse` is `unlock` and `drop`. `commit` is a
program of such steps (`commitProg`) over its two local buffers: `a` is `to` / `lbuf` / the header buffer, `b` is `from`
/ `dbuf`. Other processes may run between any two steps of it.

The state also keeps, for the statements only, the buffers modified since they were last logged (`dirty`) and the
content of the last `log_write` of every block (`last`; of a block of the log, its last `bwrite`).

- `Check`: what a commit in progress relies on. `check_commitProg`: the whole program has it.
-/
import Xv6.Bio.Cache
import Xv6.Log.Recovery

namespace Xv6.System

open Xv6.Core Bio
open GroupCommit (Panic)
open Recovery (InLog)

/-! ## The program of commit -/

/-- the two local buffers of `commit` -/
inductive Reg where
  | a
  | b
deriving DecidableEq, Repr

/-- one step of `commit`; `tail` and the block number are the loop's, and only the statements read them -/
inductive Instr where
  | bget (r : Reg) (block : ℕ)
  | lock (r : Reg)
  /-- `memmove(to->data, from->data, BSIZE); bwrite(to)` -/
  | toLog (tail block : ℕ)
  /-- `memmove(dbuf->data, lbuf->data, BSIZE); bwrite(dbuf)` -/
  | fromLog (tail block : ℕ)
  /-- the assignments of `write_head`, and its `bwrite` -/
  | head
  | unpin (block : ℕ)
  | unlock (r : Reg)
  | drop (r : Reg)
  /-- `log.lh.n = 0` -/
  | clear
  /-- `log.committing = 0` -/
  | finish
deriving DecidableEq, Repr

/-- one iteration of `write_log` -/
def writeLogIter (start tail block : ℕ) : List Instr :=
  [.bget .a (start + tail + 1), .lock .a, .bget .b block, .lock .b, .toLog tail block,
    .unlock .b, .drop .b, .unlock .a, .drop .a]

/-- one iteration of `install_trans(0)` -/
def installIter (start tail block : ℕ) : List Instr :=
  [.bget .a (start + tail + 1), .lock .a, .bget .b block, .lock .b, .fromLog tail block, .unpin block,
    .unlock .a, .drop .a, .unlock .b, .drop .b]

/-- the iterations of a loop over `log.lh.block`, from index `tail` on -/
def loop (body : ℕ → ℕ → List Instr) : ℕ → List ℕ → List Instr
  | _, [] => []
  | tail, b :: lh => body tail b ++ loop body (tail + 1) lh

def writeHead (start : ℕ) : List Instr := [.bget .a start, .lock .a, .head, .unlock .a, .drop .a]

/-- `commit`, and the end of `end_op`. With nothing logged, clearing the header changes nothing. -/
def commitProg (start : ℕ) (lh : List ℕ) : List Instr :=
  if lh.length > 0 then
    loop (writeLogIter start) 0 lh ++ (writeHead start ++
      (loop (installIter start) 0 lh ++ .clear :: (writeHead start ++ [.finish])))
  else [.clear, .finish]

/-! ## The machine -/

/-- a use of a buffer: the process, the buffer, and the block it asked `bget` for -/
structure Use where
  pid : ℕ
  buf : ℕ
  block : ℕ
deriving DecidableEq, Repr

structure St where
  disk : Disk
  cache : Bcache
  group : GroupCommit.St
  /-- what `bget` has returned and `brelse` has not yet given back -/
  refs : List (Use × Phase)
  /-- the local buffers of `commit` -/
  reg : Reg → Option (ℕ × Phase)
  /-- the rest of `commit` -/
  prog : List Instr
  dirty : List ℕ
  last : Disk

inductive Act where
  | bget (p b : ℕ)
  | lock (u : Use)
  | store (u : Use) (d : Block)
  | logWrite (u : Use)
  | unlock (u : Use)
  | drop (u : Use)
  | beginOp (p : ℕ)
  | endOp (p : ℕ)
  | commit

/-- the buffer in a local of `commit` -/
def St.idx (s : St) (r : Reg) : ℕ := ((s.reg r).getD (0, .waiting)).1

def St.data (s : St) (r : Reg) : Block := (s.cache.buf (s.idx r)).data

/-- give the buffer in r new content and write it to the disk -/
def St.bwrite (s : St) (start : ℕ) (r : Reg) (d : Block) : St :=
  let b := (s.cache.buf (s.idx r)).blockno
  { s with
    cache := Bio.store s.cache (s.idx r) d
    disk := s.disk.set b d
    last := if InLog start b then s.last.set b d else s.last }

/-- one step of `commit` -/
def exec (start : ℕ) (s : St) : Instr → Except Panic St
  | .bget r b =>
    match Bio.bget s.cache b with
    | .error e => .error e
    | .ok (c, i) => .ok { s with cache := c, reg := Function.update s.reg r (some (i, .waiting)) }
  | .lock r => .ok { s with
      cache := Bio.lock s.cache s.disk (s.idx r), reg := Function.update s.reg r (some (s.idx r, .held)) }
  | .toLog _ _ => .ok (s.bwrite start .a (s.data .b))
  | .fromLog _ _ => .ok (s.bwrite start .b (s.data .a))
  | .head => .ok (s.bwrite start .a (setHead (s.data .a) s.group.log.lh))
  | .unpin _ => .ok { s with cache := Bio.unpin s.cache (s.idx .b) }
  | .unlock r => .ok { s with
      cache := Bio.unlock s.cache (s.idx r), reg := Function.update s.reg r (some (s.idx r, .releasing)) }
  | .drop r => .ok { s with cache := Bio.drop s.cache (s.idx r), reg := Function.update s.reg r none }
  | .clear =>
    match GroupCommit.step s.group (.commit ((s.group.committer.getD (0, false)).1)) with
    | .error e => .error e
    | .ok g => .ok { s with group := g }
  | .finish =>
    match GroupCommit.step s.group (.finish ((s.group.committer.getD (0, false)).1)) with
    | .error e => .error e
    | .ok g => .ok { s with group := g }

def step (start : ℕ) (s : St) : Act → Except Panic St
  | .bget p b =>
    match Bio.bget s.cache b with
    | .error e => .error e
    | .ok (c, i) => .ok { s with cache := c, refs := (⟨p, i, b⟩, .waiting) :: s.refs }
  | .lock u => .ok { s with
      cache := Bio.lock s.cache s.disk u.buf, refs := (u, .held) :: s.refs.erase (u, .waiting) }
  | .store u d => .ok { s with cache := Bio.store s.cache u.buf d, dirty := u.buf :: s.dirty }
  | .logWrite u =>
    let x := s.cache.buf u.buf
    match GroupCommit.logWrite s.group.log x.blockno, GroupCommit.step s.group (.logWrite u.pid x.blockno) with
    | .ok (_, new), .ok g => .ok { s with
        group := g
        cache := if new then Bio.pin s.cache u.buf else s.cache
        dirty := s.dirty.filter fun k => k ≠ u.buf
        last := s.last.set x.blockno x.data }
    | .error e, _ => .error e
    | _, .error e => .error e
  | .unlock u => .ok { s with
      cache := Bio.unlock s.cache u.buf, refs := (u, .releasing) :: s.refs.erase (u, .held) }
  | .drop u => .ok { s with cache := Bio.drop s.cache u.buf, refs := s.refs.erase (u, .releasing) }
  | .beginOp p =>
    match GroupCommit.step s.group (.beginOp p) with
    | .error e => .error e
    | .ok g => .ok { s with group := g }
  | .endOp p =>
    match GroupCommit.step s.group (.endOp p) with
    | .error e => .error e
    | .ok g => .ok { s with group := g, prog := if g.committer.isSome then commitProg start g.log.lh else s.prog }
  | .commit =>
    match s.prog with
    | [] => .ok s
    | i :: is => exec start { s with prog := is } i

/-- the discipline of the callers, and that the step does not sleep on a lock: operations as in `GroupCommit.legal`, a
buffer is modified and logged only under its lock and is logged before it is released, no block of the log is logged -/
def legal (start : ℕ) (s : St) : Act → Prop
  | .bget _ _ => True
  | .lock u => (u, .waiting) ∈ s.refs ∧ (s.cache.buf u.buf).locked = false
  | .store u _ => (u, .held) ∈ s.refs
  | .logWrite u => (u, .held) ∈ s.refs ∧ GroupCommit.legal s.group (.logWrite u.pid (s.cache.buf u.buf).blockno) ∧
      ¬ InLog start (s.cache.buf u.buf).blockno
  | .unlock u => (u, .held) ∈ s.refs ∧ u.buf ∉ s.dirty
  | .drop u => (u, .releasing) ∈ s.refs
  | .beginOp p => GroupCommit.legal s.group (.beginOp p)
  | .endOp p => GroupCommit.legal s.group (.endOp p)
  | .commit => s.prog ≠ [] ∧
      ∀ r ∈ [Reg.a, Reg.b], s.prog.head? = some (.lock r) → (s.cache.buf (s.idx r)).locked = false

instance (s : St) (u : Use) (ph : Phase) : Decidable ((u, ph) ∈ s.refs) := inferInstance

instance (start : ℕ) (s : St) (a : Act) : Decidable (legal start s a) := by
  cases a <;> unfold legal <;> infer_instance

def system (start : ℕ) : Machine St Act Panic := ⟨legal start, step start⟩

instance (start : ℕ) (s : St) (a : Act) : Decidable ((system start).legal s a) :=
  inferInstanceAs (Decidable (legal start s a))

/-- a state in which the file system starts: nothing in use, nothing logged, every valid buffer equal to its block -/
structure Boot (s : St) : Prop where
  group : s.group = GroupCommit.init
  refs : s.refs = []
  reg : s.reg = fun _ => none
  prog : s.prog = []
  dirty : s.dirty = []
  last : s.last = s.disk
  lru : s.cache.lru.Perm (List.range NBUF)
  uniq : ∀ i ∈ s.cache.lru, ∀ j ∈ s.cache.lru, ∀ b, (s.cache.buf i).Holds b → (s.cache.buf j).Holds b → i = j
  unused : ∀ i ∈ s.cache.lru, (s.cache.buf i).refcnt = 0 ∧ (s.cache.buf i).locked = false
  coherent : ∀ i ∈ s.cache.lru, (s.cache.buf i).dev = ROOTDEV → (s.cache.buf i).valid = true →
    (s.cache.buf i).data = s.disk (s.cache.buf i).blockno

/-- the state that `binit` leaves on a given disk -/
def binit (disk : Disk) : St where
  disk := disk
  cache := ⟨fun _ => ⟨false, 0, 0, 0, false, fun _ => 0⟩, (List.range NBUF).reverse⟩
  group := GroupCommit.init
  refs := []
  reg := fun _ => none
  prog := []
  dirty := []
  last := disk

theorem boot_binit (disk : Disk) : Boot (binit disk) where
  group := rfl
  refs := rfl
  reg := rfl
  prog := rfl
  dirty := rfl
  last := rfl
  lru := List.reverse_perm _
  uniq := fun i _ j _ b hb _ => absurd hb.1 (by simp [binit, ROOTDEV])
  unused := fun _ _ => ⟨rfl, rfl⟩
  coherent := fun _ _ hd => absurd hd (by simp [binit, ROOTDEV])

/-! ## What is pinned, and what is not yet installed -/

/-- the blocks that the rest of a commit unpins -/
def unpins (prog : List Instr) : List ℕ := prog.filterMap fun
  | .unpin b => some b
  | _ => none

/-- the blocks that the rest of a commit installs -/
def installs (prog : List Instr) : List ℕ := prog.filterMap fun
  | .fromLog _ b => some b
  | _ => none

/-- the pinned blocks: outside `commit` these are `log.lh.block[0..n)` -/
def St.pins (s : St) : List ℕ := if s.group.committer.isSome then unpins s.prog else s.group.log.lh

/-- the logged blocks that are not yet installed -/
def St.stale (s : St) : List ℕ := if s.group.committer.isSome then installs s.prog else s.group.log.lh

/-- the uses of buffers by the processes and by `commit` -/
def uses (refs : List (Use × Phase)) (reg : Reg → Option (ℕ × Phase)) : List (ℕ × Phase) :=
  refs.map (fun r => (r.1.buf, r.2)) ++ ((reg .a).toList ++ (reg .b).toList)

theorem uses_set (refs : List (Use × Phase)) (reg : Reg → Option (ℕ × Phase)) (r : Reg) (x : ℕ × Phase) :
    (uses refs (Function.update reg r (some x))).Perm (x :: uses refs (Function.update reg r none)) := by
  cases r
  · simp [uses]
  · simp only [uses, Function.update_self, Option.toList_some, Option.toList_none, List.append_nil, ← List.append_assoc]
    exact List.perm_append_singleton _ _

variable {refs : List (Use × Phase)} {reg : Reg → Option (ℕ × Phase)} {x : ℕ × Phase} {b start t : ℕ} {lh : List ℕ}
  {is : List Instr}

theorem uses_of_reg {r : Reg}
    (h : reg r = some x) : (uses refs reg).Perm (x :: uses refs (Function.update reg r none)) := by
  have := uses_set refs reg r x
  rwa [← h, Function.update_eq_self] at this

theorem uses_erase (reg : Reg → Option (ℕ × Phase)) {u : Use} {ph : Phase}
    (h : (u, ph) ∈ refs) : (uses refs reg).Perm ((u.buf, ph) :: uses (refs.erase (u, ph)) reg) :=
  ((List.perm_cons_erase h).map _).append_right _

theorem mem_uses_of_mem (reg : Reg → Option (ℕ × Phase)) {u : Use} {ph : Phase}
    (h : (u, ph) ∈ refs) : (u.buf, ph) ∈ uses refs reg :=
  List.mem_append_left _ (List.mem_map.2 ⟨_, h, rfl⟩)

theorem mem_uses_of_reg (refs : List (Use × Phase)) {r : Reg} (h : reg r = some x) : x ∈ uses refs reg :=
  (uses_of_reg h).mem_iff.2 List.mem_cons_self

/-! ## What the program relies on -/

/-- what the two locals hold at a point of the program: the block and how far its `bread` or `brelse` has got -/
abbrev Locals := Reg → Option (ℕ × Phase)

/-- The rest of a commit, started with locals A, uses its buffers in order; `to` and `lbuf` are looked up with no other
buffer in hand and `from` and `dbuf` while they are pinned; what is installed has been copied to the log before. -/
def Check (start : ℕ) : Locals → List Instr → Prop
  | A, [] => A = fun _ => none
  | A, .bget r b :: is => A r = none ∧ ((∀ r, A r = none) ∨ b ∈ unpins is) ∧
      Check start (Function.update A r (some (b, .waiting))) is
  | A, .lock r :: is => ∃ b, A r = some (b, .waiting) ∧ Check start (Function.update A r (some (b, .held))) is
  | A, .toLog t b :: is => A .a = some (start + t + 1, .held) ∧ A .b = some (b, .held) ∧ t < LOGBLOCKS ∧
      (∀ b', .fromLog t b' ∈ is → b' = b) ∧ Check start A is
  | A, .fromLog t b :: is => A .a = some (start + t + 1, .held) ∧ A .b = some (b, .held) ∧ .toLog t b ∉ is ∧
      Check start A is
  | A, .head :: is => A .a = some (start, .held) ∧ Check start A is
  | A, .unpin b :: is => A .b = some (b, .held) ∧ b ∉ installs is ∧ Check start A is
  | A, .unlock r :: is => ∃ b, A r = some (b, .held) ∧ Check start (Function.update A r (some (b, .releasing))) is
  | A, .drop r :: is => ∃ b, A r = some (b, .releasing) ∧ Check start (Function.update A r none) is
  | A, .clear :: is => unpins is = [] ∧ installs is = [] ∧ .clear ∉ is ∧ Check start A is
  | A, .finish :: is => is = [] ∧ Check start A is

theorem unpins_append (p q : List Instr) : unpins (p ++ q) = unpins p ++ unpins q := List.filterMap_append
theorem installs_append (p q : List Instr) : installs (p ++ q) = installs p ++ installs q := List.filterMap_append

theorem mem_installs {prog : List Instr} : b ∈ installs prog ↔ ∃ t, .fromLog t b ∈ prog := by
  simp only [installs, List.mem_filterMap]
  constructor
  · rintro ⟨i, hi, heq⟩
    cases i <;> simp at heq
    subst heq; exact ⟨_, hi⟩
  · rintro ⟨t, ht⟩; exact ⟨_, ht, rfl⟩

theorem unpins_install (start t : ℕ) (lh : List ℕ) : unpins (loop (installIter start) t lh) = lh := by
  induction lh generalizing t with
  | nil => rfl
  | cons b lh ih => rw [loop, unpins_append, ih]; rfl

theorem installs_install (start t : ℕ) (lh : List ℕ) : installs (loop (installIter start) t lh) = lh := by
  induction lh generalizing t with
  | nil => rfl
  | cons b lh ih => rw [loop, installs_append, ih]; rfl

theorem unpins_writeLog (start t : ℕ) (lh : List ℕ) : unpins (loop (writeLogIter start) t lh) = [] := by
  induction lh generalizing t with
  | nil => rfl
  | cons b lh ih => rw [loop, unpins_append, ih]; rfl

theorem installs_writeLog (start t : ℕ) (lh : List ℕ) : installs (loop (writeLogIter start) t lh) = [] := by
  induction lh generalizing t with
  | nil => rfl
  | cons b lh ih => rw [loop, installs_append, ih]; rfl

theorem unpins_commitProg (start : ℕ) (lh : List ℕ) : unpins (commitProg start lh) = lh := by
  unfold commitProg
  split_ifs with h
  · rw [unpins_append, unpins_append, unpins_append, unpins_writeLog, unpins_install]
    simp [unpins, writeHead]
  · have hnil : lh = [] := List.length_eq_zero_iff.1 (by omega)
    rw [hnil]; rfl

theorem installs_commitProg (start : ℕ) (lh : List ℕ) : installs (commitProg start lh) = lh := by
  unfold commitProg
  split_ifs with h
  · rw [installs_append, installs_append, installs_append, installs_writeLog, installs_install]
    simp [installs, writeHead]
  · have hnil : lh = [] := List.length_eq_zero_iff.1 (by omega)
    rw [hnil]; rfl

theorem mem_install_loop {i : Instr} (h : i ∈ loop (installIter start) t lh) :
    ∃ k, ∃ hk : k < lh.length, i ∈ installIter start (t + k) lh[k] := by
  induction lh generalizing t with
  | nil => simp [loop] at h
  | cons b lh ih =>
    rcases List.mem_append.1 h with h | h
    · exact ⟨0, by simp, h⟩
    · obtain ⟨k, hk, hi⟩ := ih h
      exact ⟨k + 1, by simpa using hk, by simpa [Nat.add_assoc, Nat.add_comm 1 k] using hi⟩

theorem toLog_mem_loop {k : ℕ} (hk : k < lh.length) :
    .toLog (t + k) lh[k] ∈ loop (writeLogIter start) t lh := by
  induction lh generalizing t k with
  | nil => simp at hk
  | cons b lh ih =>
    cases k with
    | zero => exact List.mem_append_left _ (by simp [writeLogIter])
    | succ k =>
      have := ih (t := t + 1) (k := k) (by simpa using hk)
      rw [show t + 1 + k = t + (k + 1) by omega] at this
      exact List.mem_append_right _ this

/-- every block that a commit installs it has copied to the log before -/
theorem toLog_mem_commitProg (h : .fromLog t b ∈ commitProg start lh) :
    .toLog t b ∈ commitProg start lh := by
  unfold commitProg at h ⊢
  split_ifs at h ⊢ with hpos
  · have hin : .fromLog t b ∈ loop (installIter start) 0 lh := by
      rcases List.mem_append.1 h with h | h
      · have : b ∈ installs (loop (writeLogIter start) 0 lh) := mem_installs.2 ⟨t, h⟩
        simp [installs_writeLog] at this
      · simpa [writeHead] using h
    obtain ⟨k, hk, hm⟩ := mem_install_loop hin
    simp only [installIter, List.mem_cons, Instr.fromLog.injEq, reduceCtorEq, false_or, or_false,
      List.not_mem_nil] at hm
    obtain ⟨rfl, rfl⟩ := hm
    exact List.mem_append_left _ (toLog_mem_loop hk)
  · simp at h

/-- the locals between two iterations -/
def Locals.empty : Locals := fun _ => none

theorem check_writeLogIter (ht : t < LOGBLOCKS) (hb : b ∈ unpins is)
    (hu : ∀ b', .fromLog t b' ∈ is → b' = b) (h : Check start .empty is) :
    Check start .empty (writeLogIter start t b ++ is) := by
  have hmem : ∀ b', Instr.fromLog t b' ∈ .unlock .b :: .drop .b :: .unlock .a :: .drop .a :: is → b' = b := by
    intro b' hb'; exact hu b' (by simpa using hb')
  refine ⟨rfl, Or.inl fun _ => rfl, _, rfl, rfl, Or.inr hb, _, rfl, rfl, rfl, ht, hmem, _, rfl, _, rfl, _, rfl, _, rfl,
    ?_⟩
  show Check start _ is
  convert h using 1
  funext r; cases r <;> rfl

theorem check_installIter (hl : .toLog t b ∉ is) (hb : b ∉ installs is)
    (h : Check start .empty is) : Check start .empty (installIter start t b ++ is) := by
  refine ⟨rfl, Or.inl fun _ => rfl, _, rfl, rfl, Or.inr List.mem_cons_self, _, rfl, rfl, rfl, ?_, rfl, hb,
    _, rfl, _, rfl,
    _, rfl, _, rfl, ?_⟩
  · simpa using hl
  · show Check start _ is
    convert h using 1
    funext r; cases r <;> rfl

theorem check_writeHead (h : Check start .empty is) :
    Check start .empty (writeHead start ++ is) := by
  refine ⟨rfl, Or.inl fun _ => rfl, _, rfl, rfl, _, rfl, _, rfl, ?_⟩
  show Check start _ is
  convert h using 1
  funext r; cases r <;> rfl

theorem check_install (hnd : lh.Nodup) (hi : installs is = [])
    (hl : ∀ t b, .toLog t b ∉ is) (h : Check start .empty is) :
    Check start .empty (loop (installIter start) t lh ++ is) := by
  induction lh generalizing t with
  | nil => exact h
  | cons b lh ih =>
    rw [List.nodup_cons] at hnd
    rw [loop, List.append_assoc]
    refine check_installIter ?_ ?_ (ih hnd.2)
    · intro hm
      rcases List.mem_append.1 hm with hm | hm
      · obtain ⟨k, hk, hm⟩ := mem_install_loop hm
        simp [installIter] at hm
      · exact hl _ _ hm
    · rw [installs_append, installs_install, hi, List.append_nil]; exact hnd.1

theorem check_writeLog (hn : t + lh.length ≤ LOGBLOCKS) (hp : ∀ b ∈ lh, b ∈ unpins is)
    (hu : ∀ k b', .fromLog (t + k) b' ∈ is → ∀ hk : k < lh.length, b' = lh[k]) (h : Check start .empty is) :
    Check start .empty (loop (writeLogIter start) t lh ++ is) := by
  induction lh generalizing t with
  | nil => exact h
  | cons b lh ih =>
    have hlen : t + (lh.length + 1) ≤ LOGBLOCKS := hn
    have hrest : ∀ i, i ∈ loop (writeLogIter start) (t + 1) lh ++ is → (∃ k b, i = .fromLog k b) → i ∈ is := by
      rintro i hi ⟨k, b, rfl⟩
      rcases List.mem_append.1 hi with hi | hi
      · have : b ∈ installs (loop (writeLogIter start) (t + 1) lh) := mem_installs.2 ⟨k, hi⟩
        simp [installs_writeLog] at this
      · exact hi
    rw [loop, List.append_assoc]
    refine check_writeLogIter (by omega) ?_ ?_ (ih (by omega) (fun b hb => hp b (List.mem_cons_of_mem _ hb)) ?_)
    · rw [unpins_append, unpins_writeLog]; exact hp b List.mem_cons_self
    · intro b' hb'
      exact hu 0 b' (hrest _ hb' ⟨_, _, rfl⟩) (by simp)
    · intro k b' hb' hk
      have := hu (k + 1) b' (by rwa [show t + (k + 1) = t + 1 + k by omega]) (by simpa using hk)
      simpa using this

/-- the program of a commit keeps to its rules, whatever distinct blocks are logged -/
theorem check_commitProg (start : ℕ) (hnd : lh.Nodup) (hn : lh.length ≤ LOGBLOCKS) :
    Check start .empty (commitProg start lh) := by
  unfold commitProg
  split_ifs with hpos
  · have hend : Check start .empty (.clear :: (writeHead start ++ [.finish])) :=
      ⟨rfl, rfl, by simp [writeHead], check_writeHead ⟨rfl, rfl⟩⟩
    have htail : ∀ i ∈ writeHead start ++ (loop (installIter start) 0 lh ++ .clear :: (writeHead start ++ [.finish])),
        (∃ t b, i = .fromLog t b) → i ∈ loop (installIter start) 0 lh := by
      rintro i hi ⟨t, b, rfl⟩
      simpa [writeHead] using hi
    refine check_writeLog (by simpa using hn) ?_ ?_ (check_writeHead (check_install hnd rfl ?_ hend))
    · intro b hb
      rw [unpins_append, unpins_append, unpins_install]
      simp [hb]
    · intro k b' hb' hk
      obtain ⟨j, hj, hm⟩ := mem_install_loop (htail _ hb' ⟨_, _, rfl⟩)
      simp only [installIter, List.mem_cons, Instr.fromLog.injEq, reduceCtorEq, false_or, or_false, List.not_mem_nil,
        Nat.zero_add] at hm
      obtain ⟨rfl, rfl⟩ := hm
      rfl
    · intro t b; simp [writeHead]
  · exact ⟨rfl, rfl, by simp, rfl, rfl⟩

end Xv6.System
