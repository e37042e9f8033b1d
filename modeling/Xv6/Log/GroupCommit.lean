/-
Group commit (kernel/log.c: `begin_op`, `log_write`, `end_op`). Any number of processes run file-system operations;
every step is atomic under log.lock, and `commit` runs while log.committing is set.

The machine `group` interleaves `beginOp`, `logWrite` and `endOp`, which are what the functions do under the lock: an
operation logs at most MAXOPBLOCKS distinct blocks, and the process whose `end_op` finds no other one outstanding
commits and then clears log.committing. For the statements the state also keeps what each operation has logged and which
operations each commit contains.

- `Inv`: the invariant. The log entries plus the unused budgets of the operations in progress fit the log.
-/
import Xv6.Core.Machine
import Xv6.Param

namespace Xv6.GroupCommit

open Xv6.Core

/-! ## The log -/

/-- the panics of the log and of the buffer cache below it -/
inductive Panic where
  /-- "too big a transaction" -/
  | tooBig
  /-- "log_write outside of trans" -/
  | outsideTrans
  /-- "log.committing" -/
  | logCommitting
  /-- "bget: no buffers" -/
  | noBuffers
deriving DecidableEq, Repr

/-- `struct log`, without its lock and device; `lh` is `lh.block[0..lh.n)` -/
structure Log where
  outstanding : ℤ
  committing : Bool
  lh : List ℕ
deriving DecidableEq, Repr

/-- one pass of the loop of `begin_op`; none: the process sleeps -/
def beginOp (l : Log) : Option Log :=
  if l.committing then none
  else if (l.lh.length : ℤ) + (l.outstanding + 1) * MAXOPBLOCKS > LOGBLOCKS then none
  else some { l with outstanding := l.outstanding + 1 }

/-- `log_write` of block b; true: the block is new in the log and its buffer is to be pinned -/
def logWrite (l : Log) (b : ℕ) : Except Panic (Log × Bool) :=
  if l.lh.length ≥ LOGBLOCKS then .error .tooBig
  else if l.outstanding < 1 then .error .outsideTrans
  else if b ∈ l.lh then .ok (l, false) -- log absorption
  else .ok ({ l with lh := l.lh ++ [b] }, true)

/-- `end_op` up to the release of the lock; true: this was the last operation and the caller commits -/
def endOp (l : Log) : Except Panic (Log × Bool) :=
  if l.committing then .error .logCommitting
  else if l.outstanding - 1 = 0 then .ok ({ l with outstanding := l.outstanding - 1, committing := true }, true)
  else .ok ({ l with outstanding := l.outstanding - 1 }, false)

/-! ## Processes -/

/-- an operation: the process that runs it, how many commits there had been when it began, what it has logged -/
structure Op where
  id : ℕ
  pid : ℕ
  epoch : ℕ
  logged : List ℕ
deriving DecidableEq, Repr

def Op.add (o : Op) (b : ℕ) : Op := if b ∈ o.logged then o else { o with logged := o.logged ++ [b] }

/-- the distinct blocks an operation may still log -/
def Op.unused (o : Op) : ℕ := MAXOPBLOCKS - o.logged.length

/-- a commit: the blocks written and the operations it contains -/
structure Commit where
  blocks : List ℕ
  ops : List Op
deriving DecidableEq, Repr

structure St where
  log : Log
  /-- operations between begin_op and end_op -/
  ops : List Op
  /-- operations that have ended since the last commit -/
  ended : List Op
  commits : List Commit
  nextId : ℕ
  /-- the process in `commit`, and whether it has cleared the header -/
  committer : Option (ℕ × Bool)
deriving DecidableEq, Repr

inductive Act where
  | beginOp (p : ℕ)
  | logWrite (p b : ℕ)
  | endOp (p : ℕ)
  | commit (p : ℕ)
  | finish (p : ℕ)
deriving DecidableEq, Repr

def init : St := ⟨⟨0, false, []⟩, [], [], [], 0, none⟩

def step (s : St) : Act → Except Panic St
  | .beginOp p =>
    match beginOp s.log with
    | none => .ok s
    | some l => .ok { s with log := l, ops := s.ops ++ [⟨s.nextId, p, s.commits.length, []⟩], nextId := s.nextId + 1 }
  | .logWrite p b =>
    match logWrite s.log b with
    | .error e => .error e
    | .ok (l, _) => .ok { s with log := l, ops := s.ops.map fun o => if o.pid = p then o.add b else o }
  | .endOp p =>
    match endOp s.log with
    | .error e => .error e
    | .ok (l, doCommit) => .ok { s with
        log := l
        ops := s.ops.filter fun o => o.pid ≠ p
        ended := s.ended ++ s.ops.filter fun o => o.pid = p
        committer := if doCommit then some (p, false) else s.committer }
  | .commit p => .ok { s with
      log := { s.log with lh := [] }
      ended := []
      commits := s.commits ++ [⟨s.log.lh, s.ended⟩]
      committer := some (p, true) }
  | .finish _ => .ok { s with log := { s.log with committing := false }, committer := none }

/-- the discipline of the callers: one operation a process at a time, at most MAXOPBLOCKS distinct blocks each -/
def legal (s : St) : Act → Prop
  | .beginOp p => (∀ o ∈ s.ops, o.pid ≠ p) ∧ ∀ c ∈ s.committer, c.1 ≠ p
  | .logWrite p b => ∃ o ∈ s.ops, o.pid = p ∧ (b ∈ o.logged ∨ o.logged.length < MAXOPBLOCKS)
  | .endOp p => ∃ o ∈ s.ops, o.pid = p
  | .commit p => s.committer = some (p, false)
  | .finish p => s.committer = some (p, true)

instance (s : St) (a : Act) : Decidable (legal s a) := by cases a <;> unfold legal <;> infer_instance

def group : Machine St Act Panic := ⟨legal, step⟩

instance (s : St) (a : Act) : Decidable (group.legal s a) := inferInstanceAs (Decidable (legal s a))

/-! ## Lemmas about the list of operations -/

theorem split_op {ops : List Op} (hnd : (ops.map Op.pid).Nodup) {o : Op} (ho : o ∈ ops) :
    ∃ l1 l2, ops = l1 ++ o :: l2 ∧ ∀ x ∈ l1 ++ l2, x.pid ≠ o.pid := by
  obtain ⟨l1, l2, rfl⟩ := List.append_of_mem ho
  refine ⟨l1, l2, rfl, fun x hx heq => ?_⟩
  have hperm : ((l1 ++ o :: l2).map Op.pid).Perm (o.pid :: (l1 ++ l2).map Op.pid) := by
    simp
  have hnd' := hperm.nodup_iff.1 hnd
  exact (List.nodup_cons.1 hnd').1 (List.mem_map.2 ⟨x, hx, heq⟩)

theorem map_split (f : Op → Op) (o : Op) (l1 l2 : List Op) (h : ∀ x ∈ l1 ++ l2, x.pid ≠ o.pid) :
    (l1 ++ o :: l2).map (fun x => if x.pid = o.pid then f x else x) = l1 ++ f o :: l2 := by
  have hid : ∀ l : List Op, (∀ x ∈ l, x.pid ≠ o.pid) → l.map (fun x => if x.pid = o.pid then f x else x) = l := by
    intro l hl
    conv_rhs => rw [← List.map_id l]
    exact List.map_congr_left fun x hx => by simp [hl x hx]
  rw [List.map_append, List.map_cons, if_pos rfl, hid l1 fun x hx => h x (by simp [hx]),
    hid l2 fun x hx => h x (by simp [hx])]

theorem filter_ne_split (o : Op) (l1 l2 : List Op) (h : ∀ x ∈ l1 ++ l2, x.pid ≠ o.pid) :
    (l1 ++ o :: l2).filter (fun x => x.pid ≠ o.pid) = l1 ++ l2 := by
  have hall : ∀ l : List Op, (∀ x ∈ l, x.pid ≠ o.pid) → l.filter (fun x => x.pid ≠ o.pid) = l := fun l hl =>
    List.filter_eq_self.2 fun x hx => by simpa using hl x hx
  rw [List.filter_append, List.filter_cons_of_neg (by simp), hall l1 fun x hx => h x (by simp [hx]),
    hall l2 fun x hx => h x (by simp [hx])]

theorem filter_eq_split (o : Op) (l1 l2 : List Op) (h : ∀ x ∈ l1 ++ l2, x.pid ≠ o.pid) :
    (l1 ++ o :: l2).filter (fun x => x.pid = o.pid) = [o] := by
  have hnone : ∀ l : List Op, (∀ x ∈ l, x.pid ≠ o.pid) → l.filter (fun x => x.pid = o.pid) = [] := fun l hl =>
    List.filter_eq_nil_iff.2 fun x hx => by simpa using hl x hx
  rw [List.filter_append, List.filter_cons_of_pos (by simp), hnone l1 fun x hx => h x (by simp [hx]),
    hnone l2 fun x hx => h x (by simp [hx]), List.nil_append]

theorem mem_add (o : Op) (b x : ℕ) : x ∈ (o.add b).logged ↔ x ∈ o.logged ∨ x = b := by
  unfold Op.add
  split_ifs with h
  · exact ⟨Or.inl, fun hx => hx.elim id fun hx => hx ▸ h⟩
  · simp

@[simp] theorem add_id (o : Op) (b : ℕ) : (o.add b).id = o.id := by unfold Op.add; split_ifs <;> rfl
@[simp] theorem add_pid (o : Op) (b : ℕ) : (o.add b).pid = o.pid := by unfold Op.add; split_ifs <;> rfl
@[simp] theorem add_epoch (o : Op) (b : ℕ) : (o.add b).epoch = o.epoch := by unfold Op.add; split_ifs <;> rfl

/-! ## The invariant -/

/-- every operation begun so far -/
def St.all (s : St) : List Op := s.ops ++ s.ended ++ s.commits.flatMap Commit.ops

structure Inv (s : St) : Prop where
  count : s.log.outstanding = s.ops.length
  pids : (s.ops.map Op.pid).Nodup
  nodup : s.log.lh.Nodup
  budget : ∀ o ∈ s.ops, o.logged.length ≤ MAXOPBLOCKS
  /-- the space invariant -/
  space : s.log.lh.length + (s.ops.map Op.unused).sum ≤ LOGBLOCKS
  /-- the entries are what operations of the pending transaction have logged -/
  entries : ∀ b, b ∈ s.log.lh ↔ ∃ o ∈ s.ops ++ s.ended, b ∈ o.logged
  current : ∀ o ∈ s.ops ++ s.ended, o.epoch = s.commits.length
  committing : s.log.committing = s.committer.isSome
  alone : s.committer.isSome → s.ops = []
  cleared : ∀ p, s.committer = some (p, true) → s.log.lh = []
  commits : ∀ (i : ℕ) (c : Commit), s.commits[i]? = some c →
    (∀ b, b ∈ c.blocks ↔ ∃ o ∈ c.ops, b ∈ o.logged) ∧ ∀ o ∈ c.ops, o.epoch = i
  ids : (s.all.map Op.id).Perm (List.range s.nextId)

theorem inv_init : Inv init := by
  constructor <;> simp [init, St.all]

variable {l l' : Log} {s : St}

theorem beginOp_some (h : beginOp l = some l') :
    l.committing = false ∧ (l.lh.length : ℤ) + (l.outstanding + 1) * MAXOPBLOCKS ≤ LOGBLOCKS ∧
      l' = { l with outstanding := l.outstanding + 1 } := by
  unfold beginOp at h
  split_ifs at h with h1 h2
  refine ⟨by simpa using h1, by omega, ?_⟩
  simpa using h.symm

theorem logWrite_ok {b : ℕ} {pin : Bool} (h : logWrite l b = .ok (l', pin)) :
    l.lh.length < LOGBLOCKS ∧ 1 ≤ l.outstanding ∧
      (b ∈ l.lh ∧ l' = l ∧ pin = false ∨ b ∉ l.lh ∧ l' = { l with lh := l.lh ++ [b] } ∧ pin = true) := by
  unfold logWrite at h
  split_ifs at h with h1 h2 h3
  · cases h; exact ⟨by omega, by omega, Or.inl ⟨h3, rfl, rfl⟩⟩
  · cases h; exact ⟨by omega, by omega, Or.inr ⟨h3, rfl, rfl⟩⟩

theorem endOp_ok {c : Bool} (h : endOp l = .ok (l', c)) :
    l.committing = false ∧
      (l.outstanding = 1 ∧ l' = { l with outstanding := l.outstanding - 1, committing := true } ∧ c = true ∨
        l.outstanding ≠ 1 ∧ l' = { l with outstanding := l.outstanding - 1 } ∧ c = false) := by
  unfold endOp at h
  split_ifs at h with h1 h2
  · cases h; exact ⟨by simpa using h1, Or.inl ⟨by omega, rfl, rfl⟩⟩
  · cases h; exact ⟨by simpa using h1, Or.inr ⟨by omega, rfl, rfl⟩⟩

theorem sum_unused_le (ops : List Op) : (ops.map Op.unused).sum ≤ ops.length * MAXOPBLOCKS := by
  induction ops with
  | nil => simp
  | cons o ops ih =>
    have ho : o.unused ≤ MAXOPBLOCKS := Nat.sub_le _ _
    simp only [List.map_cons, List.sum_cons, List.length_cons, Nat.add_mul, one_mul]
    omega

theorem inv_beginOp (p : ℕ) (h : Inv s) (hl : ∀ o ∈ s.ops, o.pid ≠ p) (hb : beginOp s.log = some l) :
    Inv { s with log := l, ops := s.ops ++ [⟨s.nextId, p, s.commits.length, []⟩], nextId := s.nextId + 1 } := by
  obtain ⟨hc, hroom, rfl⟩ := beginOp_some hb
  have hnone : s.committer = none := by
    have := h.committing; rw [hc] at this; simpa using this.symm
  refine { h with
    count := ?_, pids := ?_, budget := ?_, space := ?_, entries := ?_, current := ?_, alone := ?_, ids := ?_ }
  · simp [h.count]
  · rw [List.map_append, List.nodup_append]
    refine ⟨h.pids, by simp, fun x hx y hy => ?_⟩
    obtain ⟨o, ho, rfl⟩ := List.mem_map.1 hx
    simp only [List.map_cons, List.map_nil, List.mem_singleton] at hy
    subst hy; exact hl o ho
  · intro o ho
    rcases List.mem_append.1 ho with ho | ho
    · exact h.budget o ho
    · rw [List.mem_singleton.1 ho]; exact Nat.zero_le _
  · -- the admission check of begin_op
    have hs := sum_unused_le s.ops
    have hcount := h.count
    rw [hcount] at hroom
    simp only [List.map_append, List.map_cons, List.map_nil, List.sum_append, List.sum_cons, List.sum_nil, Op.unused,
      List.length_nil, Nat.sub_zero, add_zero] at *
    have : (s.ops.length : ℤ) * MAXOPBLOCKS = ((s.ops.length * MAXOPBLOCKS : ℕ) : ℤ) := by push_cast; rfl
    rw [add_mul, this] at hroom
    omega
  · intro b
    rw [h.entries b]
    simp only [List.append_assoc, List.mem_append, List.mem_singleton]
    constructor
    · rintro ⟨o, ho | ho, hb⟩
      · exact ⟨o, Or.inl ho, hb⟩
      · exact ⟨o, Or.inr (Or.inr ho), hb⟩
    · rintro ⟨o, ho | rfl | ho, hb⟩
      · exact ⟨o, Or.inl ho, hb⟩
      · simp at hb
      · exact ⟨o, Or.inr ho, hb⟩
  · intro o ho
    simp only [List.append_assoc, List.mem_append, List.mem_singleton] at ho
    rcases ho with ho | rfl | ho
    · exact h.current o (List.mem_append_left _ ho)
    · rfl
    · exact h.current o (List.mem_append_right _ ho)
  · intro hsome; simp [hnone] at hsome
  · have hperm := h.ids
    rw [List.range_succ]
    refine List.Perm.trans ?_ (hperm.append_right [s.nextId])
    rw [List.perm_iff_count]
    intro x
    simp only [St.all, List.map_append, List.map_cons, List.map_nil, List.count_append]
    omega

theorem inv_logWrite {pin : Bool} (p b : ℕ) (h : Inv s)
    (hl : ∃ o ∈ s.ops, o.pid = p ∧ (b ∈ o.logged ∨ o.logged.length < MAXOPBLOCKS))
    (hb : logWrite s.log b = .ok (l, pin)) :
    Inv { s with log := l, ops := s.ops.map fun o => if o.pid = p then o.add b else o } := by
  obtain ⟨o, ho, rfl, hbud⟩ := hl
  obtain ⟨l1, l2, hops, hne⟩ := split_op h.pids ho
  have hmap := map_split (fun x => x.add b) o l1 l2 hne
  rw [← hops] at hmap
  rw [hmap]
  have hentries := h.entries
  have hbl : b ∈ o.logged → b ∈ s.log.lh := fun hb => (h.entries b).2 ⟨o, List.mem_append_left _ ho, hb⟩
  obtain ⟨hroom, hout, hcase⟩ := logWrite_ok hb
  have hlog : l.outstanding = s.log.outstanding ∧ l.committing = s.log.committing := by
    rcases hcase with ⟨-, rfl, -⟩ | ⟨-, rfl, -⟩ <;> exact ⟨rfl, rfl⟩
  have hlh : ∀ x, x ∈ l.lh ↔ x ∈ s.log.lh ∨ x = b := by
    rcases hcase with ⟨hm, rfl, -⟩ | ⟨-, rfl, -⟩
    · exact fun x => ⟨Or.inl, fun hx => hx.elim id fun hx => hx ▸ hm⟩
    · intro x; simp
  have hspace := h.space
  have hbudget := h.budget o ho
  refine { h with
    count := ?_, pids := ?_, nodup := ?_, budget := ?_, space := ?_, entries := ?_, current := ?_, committing := ?_,
    alone := ?_, cleared := ?_, ids := ?_ }
  · rw [hlog.1, h.count, hops]; simp
  · have := h.pids; rw [hops] at this; simpa using this
  · rcases hcase with ⟨-, rfl, -⟩ | ⟨hm, rfl, -⟩
    · exact h.nodup
    · rw [List.nodup_append]
      exact ⟨h.nodup, by simp, fun x hx y hy => by rw [List.mem_singleton.1 hy]; exact fun heq => hm (heq ▸ hx)⟩
  · intro x hx
    rcases List.mem_append.1 hx with hx | hx
    · exact h.budget x (by rw [hops]; simp [hx])
    rcases List.mem_cons.1 hx with rfl | hx
    · unfold Op.add
      split_ifs with hm
      · exact hbudget
      · have := hbud.resolve_left hm; simpa using this
    · exact h.budget x (by rw [hops]; simp [hx])
  · -- a new entry is paid for by the budget of the operation that logs it
    rw [hops] at hspace
    simp only [List.map_append, List.map_cons, List.sum_append, List.sum_cons] at hspace ⊢
    have hadd : (o.add b).unused + l.lh.length ≤ o.unused + s.log.lh.length := by
      unfold Op.add Op.unused
      rcases hcase with ⟨-, rfl, -⟩ | ⟨hm, rfl, -⟩
      · split_ifs
        · exact le_rfl
        · simp only [List.length_append, List.length_singleton]; omega
      · rw [if_neg (fun hb => hm (hbl hb))]
        have := hbud.resolve_left (fun hb => hm (hbl hb))
        simp only [List.length_append, List.length_singleton]; omega
    omega
  · intro x
    rw [hlh, hentries, hops]
    constructor
    · rintro (⟨y, hy, hx⟩ | rfl)
      · simp only [List.append_assoc, List.cons_append, List.mem_append, List.mem_cons] at hy ⊢
        rcases hy with hy | rfl | hy | hy
        · exact ⟨y, Or.inl hy, hx⟩
        · exact ⟨y.add b, Or.inr (Or.inl rfl), (mem_add y b x).2 (Or.inl hx)⟩
        · exact ⟨y, Or.inr (Or.inr (Or.inl hy)), hx⟩
        · exact ⟨y, Or.inr (Or.inr (Or.inr hy)), hx⟩
      · exact ⟨o.add x, by simp, (mem_add o x x).2 (Or.inr rfl)⟩
    · rintro ⟨y, hy, hx⟩
      simp only [List.append_assoc, List.cons_append, List.mem_append, List.mem_cons] at hy ⊢
      rcases hy with hy | rfl | hy | hy
      · exact Or.inl ⟨y, Or.inl hy, hx⟩
      · rcases (mem_add o b x).1 hx with hx | rfl
        · exact Or.inl ⟨o, Or.inr (Or.inl rfl), hx⟩
        · exact Or.inr rfl
      · exact Or.inl ⟨y, Or.inr (Or.inr (Or.inl hy)), hx⟩
      · exact Or.inl ⟨y, Or.inr (Or.inr (Or.inr hy)), hx⟩
  · intro x hx
    have hcur := h.current
    simp only [hops, List.append_assoc, List.cons_append, List.mem_append, List.mem_cons] at hx hcur
    rcases hx with hx | rfl | hx | hx
    · exact hcur x (Or.inl hx)
    · rw [add_epoch]; exact hcur o (Or.inr (Or.inl rfl))
    · exact hcur x (Or.inr (Or.inr (Or.inl hx)))
    · exact hcur x (Or.inr (Or.inr (Or.inr hx)))
  · rw [hlog.2]; exact h.committing
  · intro hsome; rw [h.alone hsome] at ho; simp at ho
  · intro q hq
    have hq' : s.committer = some (q, true) := hq
    rw [h.alone (by simp [hq'])] at ho; simp at ho
  · have hids := h.ids
    rw [St.all, hops] at hids
    simpa [St.all] using hids

theorem inv_endOp {c : Bool} (p : ℕ) (h : Inv s) (hl : ∃ o ∈ s.ops, o.pid = p) (hb : endOp s.log = .ok (l, c)) :
    Inv { s with
      log := l
      ops := s.ops.filter fun o => o.pid ≠ p
      ended := s.ended ++ s.ops.filter fun o => o.pid = p
      committer := if c then some (p, false) else s.committer } := by
  obtain ⟨o, ho, rfl⟩ := hl
  obtain ⟨l1, l2, hops, hne⟩ := split_op h.pids ho
  have hf1 := filter_ne_split o l1 l2 hne
  have hf2 := filter_eq_split o l1 l2 hne
  rw [← hops] at hf1 hf2
  rw [hf1, hf2]
  obtain ⟨hcom, hcase⟩ := endOp_ok hb
  have hnone : s.committer = none := by
    have := h.committing; rw [hcom] at this; simpa using this.symm
  have hlh : l.lh = s.log.lh := by rcases hcase with ⟨-, rfl, -⟩ | ⟨-, rfl, -⟩ <;> rfl
  have hcount : l.outstanding = (l1 ++ l2).length := by
    have hc := h.count
    rw [hops] at hc
    simp only [List.length_append, List.length_cons] at hc ⊢
    rcases hcase with ⟨-, rfl, -⟩ | ⟨-, rfl, -⟩ <;> (push_cast at hc ⊢; omega)
  have hmem : ∀ x : Op, x ∈ l1 ++ l2 ++ (s.ended ++ [o]) ↔ x ∈ s.ops ++ s.ended := by
    intro x
    rw [hops]
    simp only [List.mem_append, List.mem_cons, List.not_mem_nil, or_false]
    tauto
  refine { h with
    count := hcount, pids := ?_, nodup := ?_, budget := ?_, space := ?_, entries := ?_, current := ?_,
    committing := ?_, alone := ?_, cleared := ?_, ids := ?_ }
  · have := h.pids
    rw [hops] at this
    exact this.sublist (by simp)
  · rw [hlh]; exact h.nodup
  · intro x hx; apply h.budget; rw [hops]
    rcases List.mem_append.1 hx with hx | hx <;> simp [hx]
  · have hspace := h.space
    rw [hops] at hspace
    simp only [hlh, List.map_append, List.map_cons, List.sum_append, List.sum_cons] at hspace ⊢
    omega
  · intro b
    rw [hlh, h.entries b]
    simp only [hmem]
  · intro x hx; exact h.current x ((hmem x).1 hx)
  · rcases hcase with ⟨-, rfl, rfl⟩ | ⟨-, rfl, rfl⟩
    · simp
    · simp [hcom, hnone]
  · intro hsome
    rcases hcase with ⟨h1, rfl, rfl⟩ | ⟨-, rfl, rfl⟩
    · have hc := h.count
      rw [h1, hops] at hc
      simp only [List.length_append, List.length_cons] at hc
      push_cast at hc
      exact List.eq_nil_of_length_eq_zero (by rw [List.length_append]; omega)
    · simp [hnone] at hsome
  · intro q hq
    rcases hcase with ⟨-, rfl, rfl⟩ | ⟨-, rfl, rfl⟩
    · simp at hq
    · simp [hnone] at hq
  · refine List.Perm.trans ?_ h.ids
    rw [List.perm_iff_count]
    intro x
    simp only [St.all, hops, List.map_append, List.map_cons, List.map_nil, List.count_append, List.count_cons,
      List.count_nil]
    omega

theorem inv_commit (p : ℕ) (h : Inv s) (hl : s.committer = some (p, false)) :
    Inv { s with
      log := { s.log with lh := [] }
      ended := []
      commits := s.commits ++ [⟨s.log.lh, s.ended⟩]
      committer := some (p, true) } := by
  have hops : s.ops = [] := h.alone (by simp [hl])
  have hcur := h.current
  have hent := h.entries
  simp only [hops, List.nil_append] at hcur hent
  refine { h with
    nodup := ?_, space := ?_, entries := ?_, current := ?_, committing := ?_, alone := fun _ => hops,
    cleared := fun _ _ => rfl, commits := ?_, ids := ?_ }
  · simp
  · simp [hops]
  · simp [hops]
  · simp [hops]
  · simpa [hl] using h.committing
  · intro i c hc
    rw [List.getElem?_append] at hc
    split_ifs at hc with hi
    · exact h.commits i c hc
    have hi' : i - s.commits.length = 0 := by
      by_contra hne
      rw [List.getElem?_eq_none (by simp; omega)] at hc; cases hc
    rw [hi'] at hc
    simp only [List.getElem?_cons_zero, Option.some.injEq] at hc
    subst hc
    exact ⟨hent, fun o ho => by rw [hcur o ho]; omega⟩
  · have hids := h.ids
    simpa [St.all, hops] using (List.perm_append_comm.map Op.id).trans (by simpa [St.all, hops] using hids)

theorem inv_finish (h : Inv s) :
    Inv { s with log := { s.log with committing := false }, committer := none } :=
  { h with
    committing := rfl
    alone := fun hsome => by simp at hsome
    cleared := fun q hq => by simp at hq }

theorem step_inv (s : St) (a : Act) (t : St) (h : Inv s) (hl : legal s a) (hs : step s a = .ok t) : Inv t := by
  cases a with
  | beginOp p =>
    simp only [step] at hs
    split at hs
    · cases hs; exact h
    · rename_i l hb
      cases hs; exact inv_beginOp p h hl.1 hb
  | logWrite p b =>
    simp only [step] at hs
    split at hs
    · cases hs
    · rename_i l pin hb
      cases hs; exact inv_logWrite p b h hl hb
  | endOp p =>
    simp only [step] at hs
    split at hs
    · cases hs
    · rename_i l c hb
      cases hs; exact inv_endOp p h hl hb
  | commit p => cases hs; exact inv_commit p h hl
  | finish p => cases hs; exact inv_finish h

theorem reach_inv (h : group.Reach init s) : Inv s :=
  h.inv Inv inv_init step_inv

/-! ## Main results -/

/-- **Group commit.** In every reachable state:
- the log entries and the unused budgets of the operations in progress fit the log;
- the log entries are distinct;
- while a commit runs, no operation is outstanding or in progress, and no `end_op` finds log.committing set;
- the blocks of the i-th commit are exactly what its operations logged, and these began after the commit before it;
- every operation begun so far is in progress, has ended since the last commit, or is in exactly one commit. -/
theorem group_commit (s : St) (h : group.Reach init s) :
    s.log.lh.length + (s.ops.map Op.unused).sum ≤ LOGBLOCKS ∧
    s.log.lh.Nodup ∧
    (s.log.committing = true → s.log.outstanding = 0 ∧ s.ops = []) ∧
    (∀ p, group.legal s (.endOp p) → group.step s (.endOp p) ≠ .error .logCommitting) ∧
    (∀ (i : ℕ) (c : Commit), s.commits[i]? = some c →
      (∀ b, b ∈ c.blocks ↔ ∃ o ∈ c.ops, b ∈ o.logged) ∧ ∀ o ∈ c.ops, o.epoch = i) ∧
    ((s.ops ++ s.ended ++ s.commits.flatMap Commit.ops).map Op.id).Perm (List.range s.nextId) := by
  have hi := reach_inv h
  have hempty : s.log.committing = true → s.ops = [] := fun hc => hi.alone (by rw [← hi.committing]; exact hc)
  refine ⟨hi.space, hi.nodup, fun hc => ⟨?_, hempty hc⟩, ?_, hi.commits, hi.ids⟩
  · rw [hi.count, hempty hc]; rfl
  rintro p ⟨o, ho, -⟩ herr
  have hc : s.log.committing = false := by
    by_contra hc
    rw [hempty (by simpa using hc)] at ho; simp at ho
  have hend : ∀ e, endOp s.log ≠ .error e := by
    intro e
    rw [endOp, hc, if_neg (by decide)]
    split_ifs <;> simp
  simp only [group, step] at herr
  split at herr
  · rename_i e he; exact hend e he
  · cases herr

/-- two overlapping operations share block 40 and are committed together -/
theorem group_commit_two_ops :
    ∃ s, group.Reach init s ∧ s.commits = [⟨[40, 41], [⟨0, 1, 0, [40]⟩, ⟨1, 2, 0, [40, 41]⟩]⟩] ∧
      s.log.lh.length + (s.ops.map Op.unused).sum ≤ LOGBLOCKS := by
  obtain ⟨s, hs, hp⟩ := Machine.exists_reach_of_steps (M := group) (s := init)
    (l := [.beginOp 1, .beginOp 2, .logWrite 1 40, .logWrite 2 40, .endOp 1, .logWrite 2 41, .endOp 2, .commit 2])
    (p := fun s => s.commits = [⟨[40, 41], [⟨0, 1, 0, [40]⟩, ⟨1, 2, 0, [40, 41]⟩]⟩]) (by decide)
  exact ⟨s, hs, by simpa using hp, (group_commit s hs).1⟩

/-- a legal `log_write` reaches the panic exactly when the log is full and its block is already recorded in it -/
theorem logWrite_tooBig_iff (h : Inv s) {p b : ℕ} (hl : legal s (.logWrite p b)) :
    step s (.logWrite p b) = .error .tooBig ↔ s.log.lh.length = LOGBLOCKS ∧ b ∈ s.log.lh := by
  have hspace := h.space
  obtain ⟨o, ho, -, hbud⟩ := hl
  have hsum : o.unused ≤ (s.ops.map Op.unused).sum := List.single_le_sum (fun _ _ => Nat.zero_le _) _
    (List.mem_map_of_mem ho)
  constructor
  · intro he
    have hfull : s.log.lh.length ≥ LOGBLOCKS := by
      by_contra hlt
      simp only [step, logWrite, if_neg hlt] at he
      split_ifs at he
      cases he
    refine ⟨by omega, ?_⟩
    -- an unrecorded block would still have budget, and with it a free slot
    rcases hbud with hb | hb
    · exact (h.entries b).2 ⟨o, List.mem_append_left _ ho, hb⟩
    · have : 0 < o.unused := by unfold Op.unused; omega
      omega
  · rintro ⟨hfull, -⟩
    simp [step, logWrite, hfull]

/-- the step does not log an already recorded block while the log is full -/
def NoRelogWhenFull (s : St) : Act → Prop
  | .logWrite _ b => ¬ (s.log.lh.length = LOGBLOCKS ∧ b ∈ s.log.lh)
  | _ => True

instance (s : St) (a : Act) : Decidable (NoRelogWhenFull s a) := by
  cases a <;> unfold NoRelogWhenFull <;> infer_instance

/-- **Admission control.** A run of any number of processes, each operation within its budget, reaches
"too big a transaction" if and only if some `log_write` in it is for a block that is already recorded while the log is
full: that one would only be absorbed. -/
theorem admission_control (as : List Act) (hl : group.LegalRun init as) :
    group.run init as ≠ .error .tooBig ↔
      ∀ pre a post s, as = pre ++ a :: post → group.run init pre = .ok s → NoRelogWhenFull s a := by
  constructor
  · rintro hne pre a post s rfl hr
    obtain ⟨hpre, hpost⟩ := Machine.legalRun_split hl hr
    cases a with
    | logWrite p b =>
      rintro hfull
      have hstep := (logWrite_tooBig_iff (reach_inv ⟨pre, hpre, hr⟩) hpost.1).2 hfull
      exact hne (by rw [Machine.run_append hr]; exact Machine.run_cons_error _ hstep)
    | _ => trivial
  · intro hC herr
    obtain ⟨pre, a, post, s, rfl, hr, hR, hla, he⟩ := Machine.run_error_split hl herr
    have hc := hC pre a post s rfl hr
    cases a with
    | logWrite p b => exact hc ((logWrite_tooBig_iff (reach_inv hR) hla).1 he)
    | beginOp p =>
      simp only [group, step] at he
      split at he <;> cases he
    | endOp p =>
      simp only [group, step, endOp] at he
      split_ifs at he
      cases he
    | commit p => cases he
    | finish p => cases he

/-- one operation that logs a block twice -/
theorem admission_control_one_op :
    group.run init [.beginOp 1, .logWrite 1 40, .logWrite 1 40] ≠ .error .tooBig := by
  refine (admission_control _ ?_).2 ?_
  · refine ⟨by decide, fun t ht => ?_⟩
    cases ht
    refine ⟨by decide, fun t ht => ?_⟩
    cases ht
    exact ⟨by decide, fun _ _ => trivial⟩
  · intro pre a post s has hr
    rcases pre with - | ⟨x, - | ⟨y, - | ⟨z, pre⟩⟩⟩
    · simp at has hr; obtain ⟨rfl, -⟩ := has; trivial
    · simp at has
      obtain ⟨rfl, rfl, -⟩ := has
      cases hr; decide
    · simp at has
      obtain ⟨rfl, rfl, rfl, -⟩ := has
      cases hr; decide
    · simp at has

/-- three operations of ten distinct blocks each fill the log -/
def fillLog : List Act :=
  [.beginOp 1, .beginOp 2, .beginOp 3] ++ (List.range 30).map fun k => .logWrite (k / 10 + 1) (100 + k)

/-- **A full log panics on absorption.** Three operations are admitted and log ten distinct blocks each; the last one
then logs one of its blocks again. -/
theorem full_log_relog_panics :
    ∃ s, group.Reach init s ∧ group.legal s (.logWrite 3 129) ∧ group.step s (.logWrite 3 129) = .error .tooBig := by
  obtain ⟨s, hs, hp⟩ := Machine.exists_reach_of_steps (M := group) (s := init) (l := fillLog)
    (p := fun s => decide (group.legal s (.logWrite 3 129)) && decide (s.log.lh.length = LOGBLOCKS)
      && decide (129 ∈ s.log.lh)) (by decide +kernel)
  simp only [Bool.and_eq_true, decide_eq_true_eq] at hp
  exact ⟨s, hs, hp.1.1, (logWrite_tooBig_iff (reach_inv hs) hp.1.1).2 ⟨hp.1.2, hp.2⟩⟩

end Xv6.GroupCommit
