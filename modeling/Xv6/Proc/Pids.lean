/-
Process ids with a 32-bit counter (kernel/proc.c: `allocpid`, `allocproc`, `kfork`).

`wrapping` is the machine of `Xv6.Proc.Exit` with nextpid cut to an `int` after every step. Every `allocpid` counts,
also that of a fork which then runs out of memory.

- `pids_identify`: until nextpid wraps, every slot in use has a positive pid of its own; the machine is the one with the
  unbounded counter (`exists_unwrapped`).
- `exit_wait_protocol`: until then the exit/wait protocol holds as well. `wait_wrapped`: later a `wait` that returns -1
  has reaped a child, whose pid was -1.
- `pids_repeat`: after the counter has wrapped, fork returns a negative pid, and after another 2^31 pids the child of
  init has the pid of init.
-/
import Xv6.Proc.Reap

namespace Xv6.Procs.Exit

open Xv6.Core

variable {s t : St} {p q : ℕ}

def St.wrap (s : St) : St := { s with nextpid := toInt s.nextpid }

/-- the machine with a counter of 32 bits -/
def wrapping : Machine St Act Panic := ⟨legal, fun s a => (step s a).map St.wrap⟩

/-- nextpid has not wrapped -/
def Unwrapped (s : St) (_ : Act) : Prop := 0 < s.nextpid

instance (s : St) (a : Act) : Decidable (wrapping.legal s a) := inferInstanceAs (Decidable (legal s a))

instance (s : St) (a : Act) : Decidable (Unwrapped s a) := inferInstanceAs (Decidable (0 < s.nextpid))

theorem wrap_of_lt (h0 : 0 < s.nextpid) (h : s.nextpid < 0x80000000) : s.wrap = s := by
  have hn : toInt s.nextpid = s.nextpid := by
    unfold toInt
    omega
  unfold St.wrap
  rw [hn]

/-! ## Before the counter wraps -/

theorem nextpid_move {ok : Bool} (hm : Move s p ok t) : t.nextpid ≤ s.nextpid + 1 := by
  cases hm with
  | allocFails => exact le_refl _
  | allocs => exact le_refl _
  | _ => simp [St.dies, St.reap]

theorem nextpid_step {a : Act} (hl : legal s a) (hs : step s a = .ok t) : t.nextpid ≤ s.nextpid + 1 := by
  cases a with
  | advance p ok =>
    cases hs
    exact nextpid_move (move_of_advance hl)
  | exit p status =>
    simp only [Exit.step] at hs
    split_ifs at hs
    cases hs
    simp
  | _ =>
    cases hs
    simp

theorem wrap_unwrapped (h0 : 0 < s.nextpid) (hle : s.nextpid ≤ 0x80000000) (h : 0 < s.wrap.nextpid) : s.wrap = s := by
  refine wrap_of_lt h0 ?_
  have h : 0 < toInt s.nextpid := h
  unfold toInt at h
  omega

theorem step_wrapping {a : Act} (h : wrapping.step s a = .ok t) : ∃ v, step s a = .ok v ∧ t = v.wrap := by
  cases hv : step s a with
  | error e =>
    have h : (step s a).map St.wrap = .ok t := h
    rw [hv] at h
    cases h
  | ok v =>
    have h : (step s a).map St.wrap = .ok t := h
    rw [hv] at h
    cases h
    exact ⟨v, rfl, rfl⟩

/-- while the counter is positive the run is one of the machine with the unbounded counter -/
theorem exists_unwrapped (h : (wrapping.restrict Unwrapped).Reach boot t) :
    ∃ u, protocol.Reach boot u ∧ t = u.wrap ∧ u.nextpid ≤ 0x80000000 := by
  refine h.inv (fun t => ∃ u, protocol.Reach boot u ∧ t = u.wrap ∧ u.nextpid ≤ 0x80000000)
    ⟨boot, .refl _, rfl, by decide⟩ ?_
  intro s a t hs hl hst
  obtain ⟨u, hu, rfl, hle⟩ := hs
  obtain ⟨hl, hpos⟩ := hl
  have hu0 : 0 < u.nextpid := (good_of_reach hu).ledger.next
  have hwrap := wrap_unwrapped hu0 hle hpos
  have hlt : u.nextpid < 0x80000000 := by
    have hpos : 0 < toInt u.nextpid := hpos
    unfold toInt at hpos
    omega
  rw [hwrap] at hl hst
  obtain ⟨v, hv, rfl⟩ := step_wrapping hst
  have := nextpid_step hl hv
  exact ⟨v, hu.step hl hv, rfl, by omega⟩

/-- **Process ids identify processes** as long as the counter has not wrapped: in every state of every run of fork,
exit, wait and kill whose steps are taken while nextpid is positive, a slot that is not UNUSED has a positive pid, and
no two such slots have the same pid. -/
theorem pids_identify (h : (wrapping.restrict Unwrapped).Reach boot t) :
    (∀ q, q < NPROC → (t.proc q).state ≠ .unused → 0 < (t.proc q).pid) ∧
      ∀ q r, q < NPROC → r < NPROC → (t.proc q).state ≠ .unused → (t.proc r).state ≠ .unused →
        (t.proc q).pid = (t.proc r).pid → q = r := by
  obtain ⟨u, hu, rfl, -⟩ := exists_unwrapped h
  have hg := (good_of_reach hu).ledger
  exact ⟨fun q _ hq => (hg.pid q hq).1, fun q r _ _ hq hr => hg.inj q r hq hr⟩

/-- init has forked a child -/
theorem pids_identify_child : ∃ t, (wrapping.restrict Unwrapped).Reach boot t ∧ (t.proc 1).state = .runnable ∧
    0 < (t.proc 1).pid ∧ (t.proc INIT).pid ≠ (t.proc 1).pid := by
  obtain ⟨t, ht, hp⟩ := Machine.exists_reach_of_steps (M := wrapping.restrict Unwrapped) (s := boot)
    (l := [.dispatch INIT, .fork INIT, .advance INIT true, .advance INIT true, .advance INIT true, .advance INIT true])
    (p := fun t => decide ((t.proc INIT).state = .running ∧ (t.proc 1).state = .runnable)) (by decide +kernel)
  obtain ⟨hinit, hone⟩ := of_decide_eq_true hp
  have hid := pids_identify ht
  refine ⟨t, ht, hone, hid.1 1 (by decide) (by simp [hone]), fun heq => ?_⟩
  exact absurd (hid.2 INIT 1 (by decide) (by decide) (by simp [hinit]) (by simp [hone]) heq) (by decide)

/-- **The exit/wait protocol** as long as the counter has not wrapped: in every state of every run of fork, exit, wait
and kill whose steps are taken while nextpid is positive, and in every such step from there. -/
theorem exit_wait_protocol (h : (wrapping.restrict Unwrapped).Reach boot s) :
    ExitWait (wrapping.restrict Unwrapped) s := by
  obtain ⟨u, hu, rfl, hle⟩ := exists_unwrapped h
  have hexit := exit_wait hu
  -- a step while the counter is positive is one of the machine with the unbounded counter
  have hstep : ∀ {a t}, (wrapping.restrict Unwrapped).legal u.wrap a →
      (wrapping.restrict Unwrapped).step u.wrap a = .ok t → ∃ v, legal u a ∧ step u a = .ok v ∧ t = v.wrap :=
      fun {a t} hl hst => by
    obtain ⟨hl, hpos⟩ := hl
    have hwrap := wrap_unwrapped (good_of_reach hu).ledger.next hle hpos
    rw [hwrap] at hl hst
    obtain ⟨v, hv, rfl⟩ := step_wrapping hst
    exact ⟨v, hl, hv, rfl⟩
  refine ⟨hexit.exits, hexit.reaps, hexit.reaped, fun a t hl hst => ?_, fun a t p hl hst => ?_, hexit.woken⟩
  · obtain ⟨v, hl, hv, rfl⟩ := hstep hl hst
    refine (hexit.returns a v hl hv).imp_left fun ⟨p, q, hret, hother⟩ => ⟨p, q, ?_, hother⟩
    exact ⟨hret.zombie, hret.parent, hret.freed, hret.result, hret.reaps⟩
  · obtain ⟨v, hl, hv, rfl⟩ := hstep hl hst
    exact hexit.fails a v p hl hv

/-- init forks, the child exits, and init waits for it -/
def oneChild : List Act :=
  [.dispatch 0, .fork 0, .advance 0 true, .advance 0 true, .advance 0 true, .advance 0 true, .dispatch 1, .exit 1 7] ++
    List.replicate (1 + (NPROC + 1) + (NPROC + 1) + 1) (.advance 1 true) ++ [.wait 0] ++ List.replicate 3
      (.advance 0 true)

theorem exit_wait_oneChild : ∃ s, (wrapping.restrict Unwrapped).Reach boot s ∧ s.reaps = [⟨0, 1, 2, 7, 1⟩] ∧
    (2, 7) ∈ s.exits := by
  obtain ⟨s, hr, hp⟩ := Machine.exists_reach_of_steps (M := wrapping.restrict Unwrapped) (s := boot) (l := oneChild)
    (p := fun s => s.reaps == [⟨0, 1, 2, 7, 1⟩]) (by decide +kernel)
  have hreaps : s.reaps = [⟨0, 1, 2, 7, 1⟩] := by simpa using hp
  refine ⟨s, hr, hreaps, ?_⟩
  exact ((exit_wait_protocol hr).reaped ⟨0, 1, 2, 7, 1⟩ (by rw [hreaps]; simp)).1

/-! ## After it has wrapped -/

/-- init runs; its last call returned r -/
def forking (r n : ℤ) : St :=
  { boot with
    proc := bootTable.update INIT fun q => { q with state := .running }
    pos := Store.set (fun _ => .user 0) INIT (.user r)
    nextpid := toInt n }

theorem toInt_toInt (n : ℤ) : toInt (toInt n) = toInt n := by
  unfold toInt
  omega

theorem toInt_succ (n : ℤ) : toInt (toInt n + 1) = toInt (n + 1) := by
  unfold toInt
  omega

theorem reach_wrap {a : Act} (hl : legal s a) (hs : step s a = .ok t) : wrapping.Reach s t.wrap := by
  have hstep : wrapping.step s a = .ok t.wrap := by
    show (step s a).map St.wrap = _
    rw [hs]
    rfl
  exact .single hl hstep

theorem reach_forking : wrapping.Reach boot (forking 0 2) := by
  have hrun := reach_wrap (s := boot) (a := .dispatch INIT) ⟨by decide, rfl⟩ rfl
  have hpos : Store.set (fun _ => Pos.user 0) INIT (.user 0) = fun _ => .user 0 := Store.set_same _ INIT
  have heq : (boot.put INIT fun q => { q with state := .running }).wrap = forking 0 2 := by
    unfold forking
    rw [hpos]
    rfl
  rw [heq] at hrun
  exact hrun

/-- the state in which a fork of init comes to slot 1 -/
def scanning (n : ℤ) : St := (forking 0 n).go INIT (.alloc 1)

theorem fork_scans (r n : ℤ) : wrapping.Reach (forking r n) (scanning n) := by
  have hcall := reach_wrap (s := forking r n) (a := .fork INIT) ⟨by decide, rfl, rfl⟩ rfl
  have hnext := reach_wrap (s := ((forking r n).go INIT (.alloc 0)).wrap) (a := .advance INIT true)
    ⟨by decide, rfl, rfl, fun _ => rfl⟩ rfl
  have heq : (((forking r n).go INIT (.alloc 0)).wrap.go INIT (.alloc 1)).wrap = scanning n := by
    simp only [scanning, forking, St.go, St.wrap, Store.set_set, toInt_toInt]
  exact hcall.trans (heq ▸ hnext)

theorem fork_fails (r n : ℤ) : wrapping.Reach (forking r n) (forking (-1) (n + 1)) := by
  have hfail := reach_wrap (s := scanning n) (a := .advance INIT false) ⟨by decide, rfl, rfl, fun _ => rfl⟩ rfl
  have hfree : (forking 0 n).proc.update 1 Proc.freeproc = (forking 0 n).proc := Store.set_same _ 1
  have heq : ((scanning n).allocFails INIT 1).wrap = forking (-1) (n + 1) := by
    simp only [scanning, St.allocFails, St.put, St.go, St.wrap, Store.set_set, hfree]
    simp only [forking, toInt_succ, Store.set_set]
  exact (fork_scans r n).trans (heq ▸ hfail)

theorem forks_fail (k : ℕ) : ∃ r, wrapping.Reach boot (forking r (2 + k)) := by
  induction k with
  | zero => exact ⟨0, reach_forking⟩
  | succ k ih =>
    obtain ⟨r, hr⟩ := ih
    have hfail := fork_fails r (2 + k)
    rw [add_assoc] at hfail
    exact ⟨-1, hr.trans (by exact_mod_cast hfail)⟩

theorem reach_scanning (k : ℕ) : wrapping.Reach boot (scanning (2 + k)) := by
  obtain ⟨r, hr⟩ := forks_fail k
  exact hr.trans (fork_scans r _)

/-- a fork after k forks that failed: the child has the pid that the counter has come to -/
theorem fork_after (k : ℕ) : ∃ t, wrapping.Reach boot t ∧ (t.proc INIT).state = .running ∧ (t.proc INIT).pid = 1 ∧
    (t.proc 1).state = .used ∧ (t.proc 1).pid = toInt (2 + k) := by
  have htake := reach_wrap (s := scanning (2 + k)) (a := .advance INIT true) ⟨by decide, rfl, rfl, fun _ => rfl⟩ rfl
  exact ⟨_, (reach_scanning k).trans htake, rfl, rfl, rfl, rfl⟩

/-- **The counter wraps.** After 2^31 - 2 forks the child of init has the pid -2^31, and after 2^32 - 1 forks it has the
pid 1 of init. -/
theorem pids_repeat :
    (∃ t, wrapping.Reach boot t ∧ (t.proc 1).state ≠ .unused ∧ (t.proc 1).pid = -0x80000000) ∧
      ∃ t, wrapping.Reach boot t ∧ (t.proc INIT).state ≠ .unused ∧ (t.proc 1).state ≠ .unused ∧
        (t.proc INIT).pid = 1 ∧ (t.proc 1).pid = 1 := by
  constructor
  · obtain ⟨t, ht, -, -, hstate, hpid⟩ := fork_after 0x7ffffffe
    exact ⟨t, ht, by simp [hstate], hpid⟩
  · obtain ⟨t, ht, hinit, hone, hstate, hpid⟩ := fork_after 0xffffffff
    exact ⟨t, ht, by simp [hinit], by simp [hstate], hone, hpid⟩

/-- the fork of a child that exits, and a `wait` of init up to where it has found the ZOMBIE -/
def lastChild : List Act :=
  [.advance 0 true, .advance 0 true, .advance 0 true, .dispatch 1, .exit 1 7] ++
    List.replicate (1 + (NPROC + 1) + (NPROC + 1) + 1) (.advance 1 true) ++ [.wait 0, .advance 0 true, .advance 0 true]

/-- **A wait that returns -1 and reaps a child.** After 2^32 - 3 forks the child of init has the pid -1. -/
theorem wait_wrapped : ∃ s t, wrapping.Reach boot s ∧ wrapping.legal s (.advance INIT true) ∧
    wrapping.step s (.advance INIT true) = .ok t ∧ (s.pos INIT).waits = true ∧ t.pos INIT = .user (-1) ∧
    (s.proc INIT).killed = false ∧ (s.proc 1).parent = some INIT ∧ (s.proc 1).state = .zombie ∧
    (t.proc 1).state = .unused := by
  obtain ⟨s, hr, hp⟩ := Machine.exists_reach_of_steps (M := wrapping) (s := scanning (2 + 0xfffffffd)) (l := lastChild)
    (p := fun s => decide (wrapping.legal s (.advance INIT true)) && decide ((s.pos INIT).waits = true ∧
      (s.proc INIT).killed = false ∧ (s.proc 1).parent = some INIT ∧ (s.proc 1).state = .zombie) &&
      (wrapping.step s (.advance INIT true)).toOption.any fun (t : St) => decide (t.pos INIT = .user (-1) ∧
        (t.proc 1).state = .unused)) (by decide +kernel)
  rw [Bool.and_eq_true, Bool.and_eq_true, decide_eq_true_eq, decide_eq_true_eq] at hp
  obtain ⟨⟨hl, hw, hk, hpar, hz⟩, ht⟩ := hp
  cases hs : wrapping.step s (.advance INIT true) with
  | error e => rw [hs] at ht; cases ht
  | ok t =>
    rw [hs] at ht
    have ht : t.pos INIT = .user (-1) ∧ (t.proc 1).state = .unused := of_decide_eq_true ht
    have hreach : wrapping.Reach boot (scanning (2 + 0xfffffffd)) := reach_scanning 0xfffffffd
    exact ⟨s, t, hreach.trans hr, hl, hs, hw, ht.1, hk, hpar, hz, ht.2⟩

end Xv6.Procs.Exit
