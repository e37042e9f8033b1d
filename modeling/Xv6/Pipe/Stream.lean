/-
Pipes are FIFO byte streams (kernel/pipe.c).

The counters nread and nwrite are free-running `uint`s and PIPESIZE divides 2^32, so the pipe is a ring in the sense of
`Core.RingBuf` and its buffer a queue through any number of wraps.

- `Fifo`: the invariant. What has been stored is what has been delivered followed by what is in the buffer.
- `pipe_fifo`: so it is in every reachable state, if user copies succeed: `piperead` takes a byte out of the pipe before
  it copies it.
-/
import Xv6.Pipe.Model

namespace Xv6.Pipes

open Xv6.Core

/-! ## The buffer -/

def Pipe.ring (pi : Pipe) : RingBuf UInt8 := ⟨pi.data, pi.nread, pi.nwrite⟩

/-- the bytes in the pipe, the oldest first -/
def Pipe.buffer (pi : Pipe) : List UInt8 := pi.ring.contents PIPESIZE UINT

abbrev Pipe.Ok (pi : Pipe) : Prop := pi.ring.Ok PIPESIZE UINT

theorem pipesize_dvd : PIPESIZE ∣ UINT := by decide

theorem pipesize_lt : PIPESIZE < UINT := by decide

variable {pi : Pipe}

theorem Pipe.Ok.empty_iff (h : pi.Ok) : pi.Empty ↔ pi.ring.count UINT = 0 := (RingBuf.count_eq_zero_iff h).symm

theorem Pipe.Ok.full_iff (h : pi.Ok) : pi.Full ↔ pi.ring.count UINT = PIPESIZE :=
  (RingBuf.count_eq_full_iff h pipesize_lt).symm

theorem Pipe.Ok.buffer_nil_iff (h : pi.Ok) : pi.buffer = [] ↔ pi.Empty := by
  rw [h.empty_iff, ← List.length_eq_zero_iff, Pipe.buffer, RingBuf.length_contents]

theorem Pipe.Ok.buffer_store (h : pi.Ok) (hroom : ¬ pi.Full) (ch : UInt8) :
    (pi.store ch).Ok ∧ (pi.store ch).buffer = pi.buffer ++ [ch] := by
  rw [h.full_iff] at hroom
  exact ⟨RingBuf.Ok.put ch h pipesize_lt hroom, RingBuf.contents_put ch h pipesize_dvd pipesize_lt hroom⟩

theorem Pipe.Ok.buffer_take (h : pi.Ok) (hbyte : ¬ pi.Empty) :
    pi.take.Ok ∧ pi.buffer = pi.front :: pi.take.buffer := by
  rw [h.empty_iff] at hbyte
  exact ⟨RingBuf.Ok.get h hbyte, RingBuf.contents_get h hbyte⟩

/-! ## The invariant -/

/-- user copies succeed -/
def Act.copies : Act → Prop
  | .loop _ _ ok => ok = true
  | _ => True

instance : (a : Act) → Decidable a.copies
  | .loop _ _ ok => inferInstanceAs (Decidable (ok = true))
  | .write _ _ | .read _ _ | .acquire _ | .close _ | .kill _ => inferInstanceAs (Decidable True)

structure Fifo (s : St) : Prop where
  wf : Wf s
  ring : s.pi.Ok
  stream : s.stored = s.delivered ++ s.pi.buffer
  /-- a reader that has left its first loop holds the lock, and until it has a byte what made it leave is still true -/
  begun : ∀ p n i, s.pos p = .copying n i → s.lock = some p ∧ (i = 0 → ¬ (s.pi.Empty ∧ s.pi.writeopen = true))

variable {s t : St} {p : ℕ} {ch : UInt8}

/-- only the holder of the lock is in the second loop of `piperead` -/
theorem Fifo.not_copying (h : Fifo s) {q : ℕ} (hl : s.lock = some p) (hq : q ≠ p) (n : ℤ) (i : ℕ) :
    s.pos q ≠ .copying n i := by
  intro hpos
  have := (h.begun q n i hpos).1
  rw [hl] at this
  cases this
  exact hq rfl

theorem Fifo.released (h : Fifo s) (hwf : Wf t) (hl : s.lock = some p) (hpi : t.pi = s.pi)
    (hst : t.stored = s.stored) (hde : t.delivered = s.delivered) (hpos : ∀ q, q ≠ p → t.pos q = s.pos q)
    (hout : ∀ n i, t.pos p ≠ .copying n i) : Fifo t := by
  refine ⟨hwf, hpi ▸ h.ring, by rw [hst, hde, hpi]; exact h.stream, fun q n i hq => ?_⟩
  by_cases hqp : q = p
  · subst hqp
    exact absurd hq (hout n i)
  · rw [hpos q hqp] at hq
    exact absurd hq (h.not_copying hl hqp n i)

theorem Fifo.moved (h : Fifo s) {x : Pos} (hwf : Wf t) (hl : s.lock = some p) (hlt : t.lock = some p)
    (hpos : t.pos = s.pos.set p x) (hring : t.pi.Ok) (hstream : t.stored = t.delivered ++ t.pi.buffer)
    (hx : ∀ n, x = .copying n 0 → ¬ (t.pi.Empty ∧ t.pi.writeopen = true)) : Fifo t := by
  refine ⟨hwf, hring, hstream, fun q n i hq => ?_⟩
  rw [hpos] at hq
  by_cases hqp : q = p
  · subst hqp
    rw [Store.set_self] at hq
    exact ⟨hlt, by rintro rfl; exact hx n hq⟩
  · rw [Store.set_ne _ _ hqp] at hq
    exact absurd hq (h.not_copying hl hqp n i)

theorem Fifo.pass (h : Fifo s) (hl : s.lock = some p) (hp : Pass s p ch true t) : Fifo t := by
  have hwf := h.wf.pass hl hp
  have hother : ∀ (x : Pos) (q : ℕ), q ≠ p → s.pos.set p x q = s.pos q := fun x q hq => Store.set_ne _ _ hq
  have hself : ∀ (r : ℤ) n i, s.pos.set p (.out r) p ≠ .copying n i := fun r n i => by rw [Store.set_self]; simp
  cases hp with
  | broken | killed => exact h.released hwf hl rfl rfl rfl (hother _) (hself _)
  | wrote | readAll => exact h.released hwf hl rfl rfl rfl (hother _) (hself _)
  | full hpos =>
    refine h.released hwf hl rfl rfl rfl (fun _ _ => rfl) fun n i e => ?_
    rw [sleep_pos, wakeup_pos, hpos] at e; cases e
  | empty hpos =>
    refine h.released hwf hl rfl rfl rfl (fun _ _ => rfl) fun n i e => ?_
    rw [sleep_pos, hpos] at e; cases e
  | drops hpos hbyte hbad => cases hbad
  | begins hpos hwhy => exact h.moved hwf hl hl rfl h.ring h.stream fun n _ => hwhy
  | stores hpos hopen hkilled hroom =>
    obtain ⟨hok, hbuf⟩ := h.ring.buffer_store hroom ch
    refine h.moved hwf hl hl rfl hok ?_ fun n e => by cases e
    show s.stored ++ [ch] = s.delivered ++ (s.pi.store ch).buffer
    rw [hbuf, h.stream, List.append_assoc]
  | delivers hpos hbyte =>
    obtain ⟨hok, hbuf⟩ := h.ring.buffer_take hbyte
    refine h.moved hwf hl hl rfl hok ?_ fun n e => by cases e
    show s.stored = s.delivered ++ [s.pi.front] ++ s.pi.take.buffer
    rw [h.stream, hbuf, List.append_assoc, List.singleton_append]

theorem Fifo.quiet (h : Fifo s) (hwf : Wf t) (hpi : t.pi = s.pi) (hst : t.stored = s.stored)
    (hde : t.delivered = s.delivered)
    (hpos : ∀ q n i, t.pos q = .copying n i → s.pos q = .copying n i ∧ t.lock = s.lock) : Fifo t := by
  refine ⟨hwf, hpi ▸ h.ring, by rw [hst, hde, hpi]; exact h.stream, fun q n i hq => ?_⟩
  obtain ⟨hq, hlock⟩ := hpos q n i hq
  rw [hlock, hpi]
  exact h.begun q n i hq

theorem Fifo.step (h : Fifo s) {a : Act} (hl : legal s a) (ha : a.copies) (hs : step s a = .ok t) : Fifo t := by
  have hwf := h.wf.step hl hs
  -- nobody is in the second loop of `piperead` while the lock is free
  have hfree : s.lock = none → ∀ q n i, s.pos q ≠ .copying n i := fun hnone q n i hq => by
    have := (h.begun q n i hq).1
    rw [hnone] at this; cases this
  have hcall : ∀ p (x : Pos), (∀ n i, x ≠ .copying n i) → ∀ q n i, s.pos.set p x q = .copying n i →
      s.pos q = .copying n i := by
    intro p x hx q n i hq
    by_cases hqp : q = p
    · subst hqp
      rw [Store.set_self] at hq; exact absurd hq (hx n i)
    · rwa [Store.set_ne _ _ hqp] at hq
  cases a with
  | write p n =>
    cases hs
    exact h.quiet hwf rfl rfl rfl fun q m i hq => ⟨hcall p _ (by simp) q m i hq, rfl⟩
  | read p n =>
    cases hs
    exact h.quiet hwf rfl rfl rfl fun q m i hq => ⟨hcall p _ (by simp) q m i hq, rfl⟩
  | acquire p =>
    cases hs
    exact h.quiet hwf rfl rfl rfl fun q m i hq => absurd hq (hfree hl.2.1 q m i)
  | loop p ch ok =>
    cases ha
    exact h.pass hl (pass_of_step (h.wf.holder p hl).1 hs)
  | close w =>
    cases hs
    have hnone : ∀ u : St, u.pos = s.pos → ∀ q n i, u.pos q = .copying n i → False := fun u hu q n i hq =>
      hfree hl.1 q n i (hu ▸ hq)
    cases w with
    | true => exact ⟨hwf, h.ring, h.stream, fun q n i hq => (hnone _ rfl q n i hq).elim⟩
    | false => exact ⟨hwf, h.ring, h.stream, fun q n i hq => (hnone _ rfl q n i hq).elim⟩
  | kill p =>
    cases hs
    exact h.quiet hwf rfl rfl rfl fun q n i hq => ⟨hq, rfl⟩

theorem Fifo.init (data : Store UInt8) (killed : Store Bool) : Fifo (init data killed) := by
  have hring : (Pipes.init data killed).pi.Ok := RingBuf.Ok.empty data (by decide)
  refine ⟨Wf.init data killed, hring, ?_, fun p n i hp => by cases hp⟩
  rw [hring.buffer_nil_iff.2 rfl]
  rfl

/-! ## End of file -/

theorem Pass.pos_ne {q : ℕ} {ok : Bool} (h : Pass s p ch ok t) (hq : q ≠ p) : t.pos q = s.pos q := by
  cases h with
  | full | empty => rfl
  | _ => exact Store.set_ne _ _ hq

/-- a reader that returns 0 for n > 0 found the pipe empty and its write end closed -/
theorem Fifo.eof_pass (h : Fifo s) (hp : Pass s p ch true t) {n : ℤ}
    (hin : s.pos p = .waiting n ∨ ∃ i, s.pos p = .copying n i) (hn : 0 < n) (hret : t.pos p = .out 0) :
    s.pi.buffer = [] ∧ s.pi.writeopen = false := by
  cases hp with
  | broken hpos | full hpos | stores hpos | wrote hpos => simp [hpos] at hin
  | killed => rw [leave_pos, Store.set_self] at hret; cases hret
  | empty hpos => rw [sleep_pos, hpos] at hret; cases hret
  | begins | delivers => simp at hret
  | drops hpos hbyte hbad => cases hbad
  | readAll hpos hwhy =>
    rw [leave_pos, Store.set_self, Pos.out.injEq, Nat.cast_eq_zero] at hret
    subst hret
    obtain rfl : _ = n := by simpa [hpos] using hin
    have hempty := hwhy (by simpa using hn)
    refine ⟨h.ring.buffer_nil_iff.2 hempty, ?_⟩
    have := (h.begun p _ 0 hpos).2 rfl
    simpa [hempty] using this

theorem Fifo.eof (h : Fifo s) {a : Act} (hl : legal s a) (ha : a.copies) (hs : Pipes.step s a = .ok t) {n : ℤ}
    (hin : s.pos p = .waiting n ∨ ∃ i, s.pos p = .copying n i) (hn : 0 < n) (hret : t.pos p = .out 0) :
    s.pi.buffer = [] ∧ s.pi.writeopen = false := by
  have hinside : (s.pos p).inside = true := by
    obtain hp | ⟨i, hp⟩ := hin <;> rw [hp] <;> rfl
  -- a step that leaves p where it is does not make it return
  have hmoved : t.pos p ≠ s.pos p := by
    intro heq
    rw [← heq, hret] at hinside; cases hinside
  have hcaller : ∀ q, (s.pos q).inside = false → p ≠ q := by
    rintro q hq rfl
    rw [hq] at hinside; cases hinside
  cases a with
  | write q m => cases hs; exact absurd (Store.set_ne _ _ (hcaller q hl.1)) hmoved
  | read q m => cases hs; exact absurd (Store.set_ne _ _ (hcaller q hl.1)) hmoved
  | acquire q => cases hs; exact absurd rfl hmoved
  | close w => cases hs; cases w <;> exact absurd rfl hmoved
  | kill q => cases hs; exact absurd rfl hmoved
  | loop q ch ok =>
    cases ha
    have hpass := pass_of_step (h.wf.holder q hl).1 hs
    by_cases hpq : p = q
    · subst hpq
      exact h.eof_pass hpass hin hn hret
    · exact absurd (hpass.pos_ne hpq) hmoved

/-! ## Every run -/

/-- processes that share a pipe and whose user copies succeed -/
def copying : Machine St Act Unit := sharing.restrict fun _ a => a.copies

instance (s : St) (a : Act) : Decidable (copying.legal s a) := inferInstanceAs (Decidable (legal s a ∧ a.copies))

theorem fifo_of_reach {data : Store UInt8} {killed : Store Bool} (h : copying.Reach (init data killed) s) : Fifo s :=
  h.inv Fifo (Fifo.init data killed) fun _ _ _ hi hl hs => hi.step hl.1 hl.2 hs

/-- **Pipes are FIFO byte streams.** The bytes delivered to readers, followed by the at most PIPESIZE bytes in the
buffer, are the bytes stored by writers; and a reader that asks for a byte and returns 0 found no byte and no writer. -/
theorem pipe_fifo {data : Store UInt8} {killed : Store Bool} (h : copying.Reach (init data killed) s) :
    s.stored = s.delivered ++ s.pi.buffer ∧ s.pi.buffer.length ≤ PIPESIZE ∧
      ∀ a t p n, copying.legal s a → copying.step s a = .ok t →
        (s.pos p = .waiting n ∨ ∃ i, s.pos p = .copying n i) → 0 < n → t.pos p = .out 0 →
        s.pi.buffer = [] ∧ s.pi.writeopen = false := by
  have hf := fifo_of_reach h
  refine ⟨hf.stream, ?_, fun a t p n hl hs hin hn hret => hf.eof hl.1 hl.2 hs hin hn hret⟩
  rw [Pipe.buffer, RingBuf.length_contents]
  exact hf.ring.le

/-- process 1 writes two bytes, process 2 reads one of them -/
def twoBytes : List Act :=
  [.write 1 2, .acquire 1, .loop 1 7 true, .loop 1 8 true, .loop 1 0 true, .read 2 1, .acquire 2, .loop 2 0 true,
    .loop 2 0 true, .loop 2 0 true]

theorem pipe_fifo_twoBytes : ∃ s, copying.Reach (init (fun _ => 5) fun _ => false) s ∧ s.delivered = [7] ∧
    s.stored = s.delivered ++ s.pi.buffer := by
  obtain ⟨s, hr, hp⟩ := Machine.exists_reach_of_steps (M := copying) (s := init (fun _ => 5) fun _ => false)
    (l := twoBytes) (p := fun s => s.delivered == [7]) (by decide +kernel)
  exact ⟨s, hr, by simpa using hp, (pipe_fifo hr).1⟩

end Xv6.Pipes
