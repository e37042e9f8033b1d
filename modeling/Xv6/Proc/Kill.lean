/-
kill (kernel/proc.c: `kkill`, with `allocproc`, `freeproc`, `kfork`, `kexit`, `kwait`, `setkilled`), call by call.

`freeproc` clears a slot's pid and killed flag and `allocproc` resets neither flag nor exit status, so a new process is
born unkilled only because UNUSED slots are clean. `kkill` compares its argument with the pid of every slot, the UNUSED
ones included, and those have pid 0.

- `kill_hits_target`: as long as nobody calls kill(0), a killed flag is set only by a kill of that process or by its own
  fault.
- `kill_zero`: kill(0) returns 0 and marks an UNUSED slot; the next process born there is killed at birth.
-/
import Xv6.Proc.Table

namespace Xv6.Procs

open Xv6.Core

/-! ## The calls -/

/-- the table and the counter of pids, an `int` -/
structure Kernel where
  proc : Table
  nextpid : ℤ

namespace Kernel

def boot : Kernel := ⟨bootTable, 2⟩

/-- `wakeup(c)` called by process p -/
def wakeup (s : Kernel) (p : ℕ) (c : Option Chan) : Kernel :=
  { s with proc := fun q => if q = p then s.proc q else (s.proc q).wake c }

/-- `allocproc`; ok: there is memory for the trapframe and the page table -/
def allocproc (s : Kernel) (ok : Bool) : Option ℕ × Kernel :=
  match (List.range NPROC).find? fun q => (s.proc q).state = .unused with
  | none => (none, s)
  | some q =>
    let s := { s with proc := s.proc.update q (·.alloc s.nextpid), nextpid := toInt (s.nextpid + 1) }
    if ok then (some q, s) else (none, { s with proc := s.proc.update q Proc.freeproc })

/-- `kfork` of process p; ok, ok': whether the allocations of `allocproc` and those of `uvmcopy` succeed -/
def kfork (s : Kernel) (p : ℕ) (ok ok' : Bool) : ℤ × Kernel :=
  match s.allocproc ok with
  | (none, s) => (-1, s)
  | (some q, s) =>
    if ok' then
      ((s.proc q).pid, { s with proc := s.proc.update q fun np => { np with parent := some p, state := .runnable } })
    else (-1, { s with proc := s.proc.update q Proc.freeproc })

/-- `reparent` -/
def reparent (s : Kernel) (p : ℕ) : Kernel :=
  (List.range NPROC).foldl (fun s q =>
    if (s.proc q).parent = some p then
      { s with proc := s.proc.update q fun pp => { pp with parent := some INIT } }.wakeup p (some (.proc INIT))
    else s) s

/-- `kexit` of process p -/
def kexit (s : Kernel) (p : ℕ) (status : ℤ) : Except Panic Kernel :=
  if p = INIT then .error .initExiting
  else
    let s := s.reparent p
    let s := s.wakeup p ((s.proc p).parent.map .proc)
    .ok { s with proc := s.proc.update p (·.exit status) }

/-- one pass of the loop of `kwait` of process p; none: it sleeps. copied: whether `copyout` succeeds -/
def kwait (s : Kernel) (p : ℕ) (copied : Bool) : Option ℤ × Kernel :=
  match (List.range NPROC).find? fun q => (s.proc q).parent = some p ∧ (s.proc q).state = .zombie with
  | some q =>
    if copied then (some (s.proc q).pid, { s with proc := s.proc.update q Proc.freeproc }) else (some (-1), s)
  | none =>
    if (∀ q ∈ List.range NPROC, (s.proc q).parent ≠ some p) ∨ (s.proc p).killed = true then (some (-1), s)
    else (none, { s with proc := s.proc.update p (·.sleep (.proc p)) })

/-- `kkill` -/
def kkill (s : Kernel) (pid : ℤ) : ℤ × Kernel :=
  match (List.range NPROC).find? fun q => (s.proc q).pid = pid with
  | some q => (0, { s with proc := s.proc.update q Proc.kill })
  | none => (-1, s)

/-- `setkilled(p)` -/
def setkilled (s : Kernel) (p : ℕ) : Kernel := { s with proc := s.proc.update p fun q => { q with killed := true } }

end Kernel

/-! ## The machine -/

inductive Call where
  | fork (p : ℕ) (ok ok' : Bool)
  | exit (p : ℕ) (status : ℤ)
  | wait (p : ℕ) (copied : Bool)
  | kill (p : ℕ) (pid : ℤ)
  /-- process p traps with something `usertrap` cannot handle -/
  | fault (p : ℕ)
  /-- the scheduler runs process p -/
  | dispatch (p : ℕ)
  /-- process p gives up the CPU -/
  | yield (p : ℕ)
deriving DecidableEq, Repr

def Call.caller : Call → ℕ
  | .fork p _ _ | .exit p _ | .wait p _ | .kill p _ | .fault p | .dispatch p | .yield p => p

def call (s : Kernel) : Call → Except Panic Kernel
  | .fork p ok ok' => .ok (s.kfork p ok ok').2
  | .exit p status => s.kexit p status
  | .wait p copied => .ok (s.kwait p copied).2
  | .kill _ pid => .ok (s.kkill pid).2
  | .fault p => .ok (s.setkilled p)
  | .dispatch p => .ok { s with proc := s.proc.update p fun q => { q with state := .running } }
  | .yield p => .ok { s with proc := s.proc.update p fun q => { q with state := .runnable } }

/-- the process that calls is running, and the one that is dispatched is ready -/
def mayCall (s : Kernel) (c : Call) : Prop :=
  c.caller < NPROC ∧ match c with
    | .dispatch p => (s.proc p).state = .runnable
    | c => (s.proc c.caller).state = .running

instance (s : Kernel) (c : Call) : Decidable (mayCall s c) := by cases c <;> unfold mayCall <;> infer_instance

def calls : Machine Kernel Call Panic := ⟨mayCall, call⟩

instance (s : Kernel) (c : Call) : Decidable (calls.legal s c) := inferInstanceAs (Decidable (mayCall s c))

/-! ## Clean slots -/

/-- an UNUSED slot has pid 0 and is not killed -/
def Proc.Clean (p : Proc) : Prop := p.state = .unused → p.pid = 0 ∧ p.killed = false

theorem Proc.Clean.freeproc (p : Proc) : p.freeproc.Clean := fun _ => ⟨rfl, rfl⟩

theorem Proc.Clean.of_inUse {q : Proc} (hq : q.state ≠ .unused) : q.Clean := fun e => absurd e hq

theorem Proc.Clean.wake {p : Proc} (h : p.Clean) (c : Option Chan) : (p.wake c).Clean := by
  unfold Proc.wake
  split_ifs with hs
  · exact .of_inUse (by simp)
  · exact h

theorem wake_killed (p : Proc) (c : Option Chan) : (p.wake c).killed = p.killed := by
  unfold Proc.wake
  split_ifs <;> rfl

def Kernel.Clean (s : Kernel) : Prop := ∀ q, (s.proc q).Clean

variable {s t : Kernel} {p q : ℕ} {f : Proc → Proc}

/-- t comes from s by changes that keep the slots clean and set no killed flag -/
structure Mild (s t : Kernel) : Prop where
  clean : t.Clean
  flags : ∀ q, (t.proc q).killed = true → (s.proc q).killed = true

theorem Mild.refl (h : s.Clean) : Mild s s := ⟨h, fun _ hq => hq⟩

theorem Mild.trans {u : Kernel} (h : Mild s t) (h' : Mild t u) : Mild s u :=
  ⟨h'.clean, fun q hq => h.flags q (h'.flags q hq)⟩

theorem Kernel.Clean.update (h : s.Clean) (hf : (f (s.proc p)).Clean) :
    Kernel.Clean { s with proc := s.proc.update p f } := Table.update_all (P := fun _ => Proc.Clean) h hf

theorem Kernel.Clean.mild (h : s.Clean) (hf : (f (s.proc p)).Clean)
    (hk : (f (s.proc p)).killed = true → (s.proc p).killed = true) : Mild s { s with proc := s.proc.update p f } :=
  ⟨h.update hf, Table.update_all (P := fun q x => x.killed = true → (s.proc q).killed = true) (fun _ hq => hq) hk⟩

theorem Kernel.Clean.free (h : s.Clean) (p : ℕ) : Mild s { s with proc := s.proc.update p Proc.freeproc } :=
  h.mild (Proc.Clean.freeproc _) fun hk => by cases hk

theorem Kernel.Clean.wakeup (h : s.Clean) (p : ℕ) (c : Option Chan) : Mild s (s.wakeup p c) := by
  refine ⟨fun q => ?_, fun q hq => ?_⟩
  · show Proc.Clean (if q = p then s.proc q else (s.proc q).wake c)
    split_ifs
    · exact h q
    · exact (h q).wake c
  · change (if q = p then s.proc q else (s.proc q).wake c).killed = true at hq
    split_ifs at hq
    · exact hq
    · rwa [wake_killed] at hq

/-! ## The calls that are not kill -/

theorem allocproc_found (h : s.Clean) (hq : (s.proc q).state = .unused) :
    let t : Kernel := { s with proc := s.proc.update q (·.alloc s.nextpid), nextpid := toInt (s.nextpid + 1) }
    Mild s t ∧ (t.proc q).killed = false ∧ (t.proc q).state = .used := by
  have hk : ((s.proc q).alloc s.nextpid).killed = false := (h q hq).2
  have hclean : ((s.proc q).alloc s.nextpid).Clean := .of_inUse nofun
  have hm := h.mild (p := q) (f := (·.alloc s.nextpid)) hclean fun e => absurd e (by simp [hk])
  refine ⟨⟨hm.clean, hm.flags⟩, ?_, ?_⟩
  · show (s.proc.update q (·.alloc s.nextpid) q).killed = false
    rw [Table.update_self]; exact hk
  · show (s.proc.update q (·.alloc s.nextpid) q).state = .used
    rw [Table.update_self]; rfl

theorem allocproc_spec (h : s.Clean) (ok : Bool) :
    Mild s (s.allocproc ok).2 ∧ ∀ q, (s.allocproc ok).1 = some q →
      ((s.allocproc ok).2.proc q).killed = false ∧ ((s.allocproc ok).2.proc q).state = .used := by
  unfold Kernel.allocproc
  split
  · exact ⟨Mild.refl h, fun q hq => by cases hq⟩
  rename_i q hfind
  have hq : (s.proc q).state = .unused := by simpa using List.find?_some hfind
  obtain ⟨hm, hk, hst⟩ := allocproc_found h hq
  split_ifs
  · refine ⟨hm, fun r hr => ?_⟩
    cases hr
    exact ⟨hk, hst⟩
  · exact ⟨hm.trans (hm.clean.free q), fun r hr => by cases hr⟩

theorem kfork_mild (h : s.Clean) (p : ℕ) (ok ok' : Bool) : Mild s (s.kfork p ok ok').2 := by
  obtain ⟨hm, hnew⟩ := allocproc_spec h ok
  unfold Kernel.kfork
  split
  · rename_i t ht
    rw [ht] at hm; exact hm
  rename_i q t ht
  rw [ht] at hm hnew
  obtain ⟨hk, hst⟩ := hnew q rfl
  split_ifs
  · refine hm.trans (hm.clean.mild ?_ fun hk' => hk')
    exact .of_inUse (by simp)
  · exact hm.trans (hm.clean.free q)

/-- by induction over the slots that `reparent` visits -/
theorem reparent_mild (h : s.Clean) (p : ℕ) : Mild s (s.reparent p) := by
  unfold Kernel.reparent
  generalize List.range NPROC = l
  induction l generalizing s with
  | nil => exact Mild.refl h
  | cons q l ih =>
    rw [List.foldl_cons]
    split_ifs
    · have hm : Mild s { s with proc := s.proc.update q fun pp => { pp with parent := some INIT } } :=
        h.mild (h q) fun hk => hk
      have hw := hm.trans (hm.clean.wakeup p (some (.proc INIT)))
      exact hw.trans (ih hw.clean)
    · exact ih h

theorem update_state_mild (h : s.Clean) (hf : (f (s.proc p)).state ≠ .unused)
    (hk : (f (s.proc p)).killed = (s.proc p).killed) : Mild s { s with proc := s.proc.update p f } :=
  h.mild (.of_inUse hf) fun e => hk ▸ e

theorem kexit_mild (h : s.Clean) {status : ℤ} (he : s.kexit p status = .ok t) : Mild s t := by
  unfold Kernel.kexit at he
  split_ifs at he
  cases he
  have hm := reparent_mild h p
  have hw := hm.trans (hm.clean.wakeup p (((s.reparent p).proc p).parent.map .proc))
  exact hw.trans (update_state_mild hw.clean (by simp [Proc.exit]) rfl)

theorem kwait_mild (h : s.Clean) (p : ℕ) (copied : Bool) : Mild s (s.kwait p copied).2 := by
  unfold Kernel.kwait
  split
  · split_ifs
    · exact h.free _
    · exact Mild.refl h
  · split_ifs
    · exact Mild.refl h
    · exact update_state_mild h (by simp [Proc.sleep]) rfl

/-! ## kill -/

/-- a kill with a pid that is not 0 finds a process or nothing -/
theorem kkill_spec (h : s.Clean) {pid : ℤ} (hpid : pid ≠ 0) :
    (∃ q < NPROC, (s.proc q).state ≠ .unused ∧ (s.proc q).pid = pid ∧
        s.kkill pid = (0, { s with proc := s.proc.update q Proc.kill })) ∨
      ((∀ q < NPROC, (s.proc q).pid ≠ pid) ∧ s.kkill pid = (-1, s)) := by
  unfold Kernel.kkill
  split
  · rename_i q hfind
    have hq : (s.proc q).pid = pid := by simpa using List.find?_some hfind
    have hlt := List.mem_range.1 (List.mem_of_find?_eq_some hfind)
    exact .inl ⟨q, hlt, fun hu => hpid (hq ▸ (h q hu).1), hq, rfl⟩
  · rename_i hfind
    refine .inr ⟨fun q hq heq => ?_, rfl⟩
    exact absurd heq (by simpa using List.find?_eq_none.1 hfind q (List.mem_range.2 hq))

/-- nobody kills pid 0 -/
def Call.aimed : Call → Prop
  | .kill _ pid => pid ≠ 0
  | _ => True

instance (c : Call) : Decidable c.aimed := by cases c <;> unfold Call.aimed <;> infer_instance

theorem call_flags (h : s.Clean) {c : Call} (hl : mayCall s c) (ha : c.aimed) (hs : call s c = .ok t) :
    t.Clean ∧ ∀ q, (t.proc q).killed = true → (s.proc q).killed = true ∨
      (∃ p, c = .kill p (s.proc q).pid ∧ (s.proc q).state ≠ .unused) ∨ c = .fault q := by
  have hmild : Mild s t → t.Clean ∧ ∀ q, (t.proc q).killed = true → (s.proc q).killed = true ∨
      (∃ p, c = .kill p (s.proc q).pid ∧ (s.proc q).state ≠ .unused) ∨ c = .fault q :=
    fun hm => ⟨hm.clean, fun q hq => .inl (hm.flags q hq)⟩
  cases c with
  | fork p ok ok' => cases hs; exact hmild (kfork_mild h p ok ok')
  | exit p status => exact hmild (kexit_mild h hs)
  | wait p copied =>
    cases hs
    exact hmild (kwait_mild h p copied)
  | dispatch p =>
    cases hs
    exact hmild (update_state_mild h (by simp) rfl)
  | yield p =>
    cases hs
    exact hmild (update_state_mild h (by simp) rfl)
  | fault p =>
    cases hs
    have hp : (s.proc p).state ≠ .unused := by
      have : (s.proc p).state = .running := hl.2
      simp [this]
    refine ⟨h.update (.of_inUse hp), fun q hq => ?_⟩
    by_cases hqp : q = p
    · exact .inr (.inr (by rw [hqp]))
    · left
      change (s.proc.update p (fun q => { q with killed := true }) q).killed = true at hq
      rwa [Table.update_ne _ _ hqp] at hq
  | kill p pid =>
    cases hs
    obtain ⟨r, -, hr, hpid, he⟩ | ⟨-, he⟩ := kkill_spec h ha
    · rw [he]
      refine ⟨h.update (.of_inUse ?_), fun q hq => ?_⟩
      · show (if (s.proc r).state = .sleeping then ProcState.runnable else (s.proc r).state) ≠ .unused
        split_ifs
        · simp
        · exact hr
      by_cases hqr : q = r
      · subst hqr
        exact .inr (.inl ⟨p, by rw [hpid], hr⟩)
      · left
        change (s.proc.update r Proc.kill q).killed = true at hq
        rwa [Table.update_ne _ _ hqr] at hq
    · rw [he]; exact ⟨h, fun q hq => .inl hq⟩

theorem boot_clean : Kernel.boot.Clean := by
  intro q
  show (bootTable q).Clean
  unfold bootTable
  split_ifs
  · exact .of_inUse nofun
  · exact fun _ => ⟨rfl, rfl⟩

/-- calls of which none is kill(0) -/
def aiming : Machine Kernel Call Panic := calls.restrict fun _ c => c.aimed

instance (s : Kernel) (c : Call) : Decidable (aiming.legal s c) := inferInstanceAs (Decidable (mayCall s c ∧ c.aimed))

/-- **kill hits only its target.** -/
theorem kill_hits_target (h : aiming.Reach Kernel.boot s) :
    (∀ ok q t, s.allocproc ok = (some q, t) → (t.proc q).killed = false) ∧
    (∀ c t, aiming.legal s c → aiming.step s c = .ok t → ∀ q, (s.proc q).killed = false → (t.proc q).killed = true →
      (∃ p, c = .kill p (s.proc q).pid ∧ (s.proc q).state ≠ .unused) ∨ c = .fault q) ∧
    ∀ pid, pid ≠ 0 → (∀ q < NPROC, (s.proc q).state ≠ .unused → (s.proc q).pid ≠ pid) → s.kkill pid = (-1, s) := by
  have hc : s.Clean := h.inv Kernel.Clean boot_clean fun _ _ _ hi hl hs => (call_flags hi hl.1 hl.2 hs).1
  refine ⟨fun ok q t ht => ?_, fun c t hl hs q h0 h1 => ?_, fun pid hpid hno => ?_⟩
  · have := (allocproc_spec hc ok).2 q (by rw [ht])
    rw [ht] at this; exact this.1
  · refine ((call_flags hc hl.1 hl.2 hs).2 q h1).resolve_left fun e => ?_
    rw [h0] at e; cases e
  · obtain ⟨q, hlt, hq, hpq, he⟩ | ⟨-, he⟩ := kkill_spec hc hpid
    · exact absurd hpq (hno q hlt hq)
    · exact he

/-- init forks and kills its child -/
theorem kill_hits_target_child : ∃ s, aiming.Reach Kernel.boot s ∧ (s.proc 1).pid = 2 ∧ (s.proc 1).killed = true ∧
    s.kkill 7 = (-1, s) := by
  obtain ⟨s, hr, hp⟩ := Machine.exists_reach_of_steps (M := aiming) (s := Kernel.boot)
    (l := [.dispatch 0, .fork 0 true true, .kill 0 2])
    (p := fun s => decide (((s.proc 1).pid = 2 ∧ (s.proc 1).killed = true) ∧
      ∀ q < NPROC, (s.proc q).state ≠ .unused → (s.proc q).pid ≠ 7)) (by decide +kernel)
  obtain ⟨⟨h1, h2⟩, h3⟩ := of_decide_eq_true hp
  exact ⟨s, hr, h1, h2, (kill_hits_target hr).2.2 7 (by decide) h3⟩

/-- **kill(0).** No process has pid 0, but `kkill` returns 0 and marks an UNUSED slot, and the process that is born
there next is killed at birth. -/
theorem kill_zero : ∃ s, calls.Reach Kernel.boot s ∧
    ((∀ q < NPROC, (s.proc q).state ≠ .unused → (s.proc q).pid ≠ 0) ∧ (s.kkill 0).1 = 0 ∧
      (s.proc 1).state = .unused ∧ (s.proc 1).killed = false ∧ ((s.kkill 0).2.proc 1).killed = true) ∧
    (∃ t, calls.step s (.kill 0 0) = .ok t ∧ calls.legal s (.kill 0 0) ∧
      ((t.allocproc true).2.proc 1).killed = true ∧ (t.allocproc true).1 = some 1) := by
  refine ⟨{ Kernel.boot with proc := Kernel.boot.proc.update 0 fun q => { q with state := .running } }, ?_,
    by decide +kernel, _, rfl, by decide +kernel, by decide +kernel, by decide +kernel⟩
  exact Machine.Reach.single (M := calls) (a := .dispatch 0) (by decide +kernel) rfl

end Xv6.Procs
