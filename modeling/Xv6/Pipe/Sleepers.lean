/-
Sleepers of a pipe (kernel/pipe.c).

A process sleeps on &pi->nread when it has found the pipe empty and on &pi->nwrite when it has found it full. Whoever
changes that wakes the sleepers before it releases pi->lock, with one exception: `pipewrite` returns without
`wakeup(&pi->nread)` when it finds itself killed, and it may have stored bytes since it got the lock.

- `Served`: the invariant. While the lock is held, a sleeper may have to wait for the holder to get to its wakeup.
- `no_stranded_sleepers`: if nobody is killed inside the loop of `pipewrite`, nobody sleeps for what is there already
  while pi->lock is free.
- `stranded_reader`: a writer that is killed between two bytes leaves a reader asleep although there is a byte to read.
-/
import Xv6.Pipe.Model

namespace Xv6.Pipes

open Xv6.Core

def Pos.inWrite : Pos → Bool
  | .writing _ _ => true
  | _ => false

/-- nobody is killed inside the loop of `pipewrite` -/
def Spares (s : St) : Act → Prop
  | .kill p => ¬ (s.lock = some p ∧ (s.pos p).inWrite = true)
  | _ => True

instance (s : St) : (a : Act) → Decidable (Spares s a)
  | .kill p => inferInstanceAs (Decidable (¬ (s.lock = some p ∧ (s.pos p).inWrite = true)))
  | .write _ _ | .read _ _ | .acquire _ | .loop _ _ _ | .close _ => inferInstanceAs (Decidable True)

/-- p is in `pipewrite`, and the next test of its loop will not make it give up -/
structure Writer (s : St) (p : ℕ) : Prop where
  pos : (s.pos p).inWrite = true
  opened : s.pi.readopen = true
  alive : s.killed p = false

structure Served (s : St) : Prop where
  wf : Wf s
  copier : ∀ p n i, s.pos p = .copying n i → s.lock = some p
  nread : ∀ p, s.chan p = some .nread → (s.pi.Empty ∧ s.pi.writeopen = true) ∨ ∃ q, s.lock = some q ∧ Writer s q
  nwrite : ∀ p, s.chan p = some .nwrite →
    (s.pi.Full ∧ s.pi.readopen = true) ∨ ∃ q n i, s.lock = some q ∧ s.pos q = .copying n i

variable {s t : St} {p : ℕ}

/-! ## While the lock is free -/

theorem Served.reader_free (h : Served s) (hl : s.lock = none) (hp : s.chan p = some .nread) :
    s.pi.Empty ∧ s.pi.writeopen = true := by
  obtain he | ⟨q, hq, -⟩ := h.nread p hp
  · exact he
  · rw [hl] at hq; cases hq

theorem Served.writer_free (h : Served s) (hl : s.lock = none) (hp : s.chan p = some .nwrite) :
    s.pi.Full ∧ s.pi.readopen = true := by
  obtain he | ⟨q, n, i, hq, -⟩ := h.nwrite p hp
  · exact he
  · rw [hl] at hq; cases hq

/-! ## While it is held -/

theorem Served.reader_held (h : Served s) {q : ℕ} (hl : s.lock = some q) (hp : s.chan p = some .nread) :
    (s.pi.Empty ∧ s.pi.writeopen = true) ∨ Writer s q := by
  refine (h.nread p hp).imp id ?_
  rintro ⟨r, hr, hw⟩
  rw [hl] at hr
  cases hr
  exact hw

theorem Served.writer_held (h : Served s) {q : ℕ} (hl : s.lock = some q) (hp : s.chan p = some .nwrite) :
    (s.pi.Full ∧ s.pi.readopen = true) ∨ ∃ n i, s.pos q = .copying n i := by
  refine (h.nwrite p hp).imp id ?_
  rintro ⟨r, n, i, hr, hpos⟩
  rw [hl] at hr
  cases hr
  exact ⟨n, i, hpos⟩

theorem Served.released (h : Served s) (hwf : Wf t) (hl : s.lock = some p)
    (hpos : ∀ q, q ≠ p → t.pos q = s.pos q) (hout : ∀ n i, t.pos p ≠ .copying n i)
    (hr : ∀ q, t.chan q = some .nread → t.pi.Empty ∧ t.pi.writeopen = true)
    (hw : ∀ q, t.chan q = some .nwrite → t.pi.Full ∧ t.pi.readopen = true) : Served t := by
  refine ⟨hwf, fun q n i hq => ?_, fun q hq => .inl (hr q hq), fun q hq => .inl (hw q hq)⟩
  by_cases hqp : q = p
  · subst hqp
    exact absurd hq (hout n i)
  · rw [hpos q hqp] at hq
    have := h.copier q n i hq
    rw [hl] at this
    cases this
    exact absurd rfl hqp

theorem Served.moved (h : Served s) {x : Pos} (hwf : Wf t) (hl : s.lock = some p) (hlt : t.lock = some p)
    (hpos : t.pos = s.pos.set p x)
    (hr : ∀ q, t.chan q = some .nread → (t.pi.Empty ∧ t.pi.writeopen = true) ∨ Writer t p)
    (hw : ∀ q, t.chan q = some .nwrite → (t.pi.Full ∧ t.pi.readopen = true) ∨ ∃ n i, x = .copying n i) : Served t := by
  refine ⟨hwf, fun q n i hq => ?_, fun q hq => (hr q hq).imp id fun hw => ⟨p, hlt, hw⟩, fun q hq => ?_⟩
  · rw [hpos] at hq
    by_cases hqp : q = p
    · subst hqp
      exact hlt
    · rw [Store.set_ne _ _ hqp] at hq
      rw [hlt, ← hl]; exact h.copier q n i hq
  · refine (hw q hq).imp id ?_
    rintro ⟨n, i, rfl⟩
    exact ⟨p, n, i, hlt, by rw [hpos, Store.set_self]⟩

theorem Served.pass (h : Served s) {ch : UInt8} {ok : Bool} (hl : s.lock = some p) (hp : Pass s p ch ok t) :
    Served t := by
  have hwf := h.wf.pass hl hp
  have hother : ∀ (x : Pos) (q : ℕ), q ≠ p → s.pos.set p x q = s.pos q := fun x q hq => Store.set_ne _ _ hq
  have hout : ∀ (r : ℤ) n i, s.pos.set p (.out r) p ≠ .copying n i := fun r n i => by rw [Store.set_self]; simp
  -- the holder is in `pipewrite`: sleeping writers found no room, and there still is none
  have hfull : ∀ {n i}, s.pos p = .writing n i → ∀ q, s.chan q = some .nwrite → s.pi.Full ∧ s.pi.readopen = true := by
    intro n i hpos q hq
    refine (h.writer_held hl hq).resolve_right ?_
    rintro ⟨m, j, hm⟩
    rw [hpos] at hm; cases hm
  -- it is in `piperead`: sleeping readers found no byte, and there still is none
  have hempty : (s.pos p).inWrite = false → ∀ q, s.chan q = some .nread → s.pi.Empty ∧ s.pi.writeopen = true := by
    intro hpos q hq
    refine (h.reader_held hl hq).resolve_right fun hw => ?_
    rw [hw.pos] at hpos; cases hpos
  cases hp with
  | broken hpos hlt hwhy =>
    refine h.released hwf hl (hother _) (hout _) (fun q hq => ?_) (hfull hpos)
    refine (h.reader_held hl hq).resolve_right fun hw => ?_
    simp [hw.opened, hw.alive] at hwhy
  | wrote hpos =>
    exact h.released hwf hl (hother _) (hout _) (fun q hq => absurd hq (wakeup_chan_ne _ _ q)) fun q hq =>
      hfull hpos q (woken q _ hq)
  | full hpos hopen hfl =>
    refine h.released hwf hl (fun _ _ => rfl) (fun n i e => ?_) (fun q hq => ?_) fun q hq => ⟨hfl, hopen⟩
    · rw [sleep_pos, wakeup_pos, hpos] at e; cases e
    · obtain ⟨-, hc⟩ | hq := asleep hq
      · cases hc
      · exact absurd hq (wakeup_chan_ne _ _ q)
  | stores hpos hopen hkilled hroom =>
    refine h.moved hwf hl hl rfl (fun q _ => .inr ⟨?_, hopen, hkilled⟩) fun q hq => absurd (hfull hpos q hq).1 hroom
    simp [Pos.inWrite]
  | killed hpos =>
    refine h.released hwf hl (hother _) (hout _) (hempty (by rw [hpos]; rfl)) fun q hq => ?_
    refine (h.writer_held hl hq).resolve_right ?_
    rintro ⟨m, j, hm⟩
    rw [hpos] at hm; cases hm
  | empty hpos hemp hopen =>
    refine h.released hwf hl (fun _ _ => rfl) (fun n i e => ?_) (fun q hq => ⟨hemp, hopen⟩) fun q hq => ?_
    · rw [sleep_pos, hpos] at e; cases e
    · obtain ⟨-, hc⟩ | hq := asleep hq
      · cases hc
      · refine (h.writer_held hl hq).resolve_right ?_
        rintro ⟨m, j, hm⟩
        rw [hpos] at hm; cases hm
  | begins hpos hwhy =>
    exact h.moved hwf hl hl rfl (fun q hq => .inl (hempty (by rw [hpos]; rfl) q hq)) fun q hq => .inr ⟨_, _, rfl⟩
  | delivers hpos hbyte =>
    exact h.moved hwf hl hl rfl (fun q hq => absurd (hempty (by rw [hpos]; rfl) q hq).1 hbyte)
      fun q hq => .inr ⟨_, _, rfl⟩
  | drops hpos hbyte hbad =>
    refine h.released hwf hl (hother _) (hout _) (fun q hq => ?_) fun q hq => absurd hq (wakeup_chan_ne _ _ q)
    exact absurd (hempty (by rw [hpos]; rfl) q (woken q _ hq)).1 hbyte
  | readAll hpos hwhy =>
    exact h.released hwf hl (hother _) (hout _) (fun q hq => hempty (by rw [hpos]; rfl) q (woken q _ hq))
      fun q hq => absurd hq (wakeup_chan_ne _ _ q)

/-! ## Every run -/

theorem Served.calls (h : Served s) {x : Pos} (hp : (s.pos p).inside = false) (hx : ∀ n i, x ≠ .copying n i)
    (hwf : Wf { s with pos := s.pos.set p x }) : Served { s with pos := s.pos.set p x } := by
  have hne : ∀ q, (s.pos q).inside = true → q ≠ p := by
    rintro q hq rfl
    rw [hp] at hq; cases hq
  refine ⟨hwf, fun q n i hq => ?_, fun q hq => (h.nread q hq).imp id ?_, fun q hq => (h.nwrite q hq).imp id ?_⟩
  · by_cases hqp : q = p
    · subst hqp
      simp only [Store.set_self] at hq
      exact absurd hq (hx n i)
    · simp only [Store.set_ne _ _ hqp] at hq
      exact h.copier q n i hq
  · rintro ⟨r, hr, hw⟩
    have hrp := hne r (h.wf.holder r hr).1
    exact ⟨r, hr, (congrArg Pos.inWrite (Store.set_ne _ _ hrp)).trans hw.pos, hw.opened, hw.alive⟩
  · rintro ⟨r, n, i, hr, hpos⟩
    exact ⟨r, n, i, hr, (Store.set_ne _ _ (hne r (h.wf.holder r hr).1)).trans hpos⟩

theorem Served.kill (h : Served s) (hp : ¬ (s.lock = some p ∧ (s.pos p).inWrite = true)) :
    Served (kkill s p) := by
  refine ⟨h.wf.kill p, h.copier, fun q hq => (h.nread q (spared hq)).imp id ?_, fun q hq => h.nwrite q (spared hq)⟩
  rintro ⟨r, hr, hw⟩
  have hrp : r ≠ p := by
    rintro rfl
    exact hp ⟨hr, hw.pos⟩
  exact ⟨r, hr, hw.pos, hw.opened, (Store.set_ne _ _ hrp).trans hw.alive⟩

theorem Served.step (h : Served s) {a : Act} (hl : legal s a) (ha : Spares s a) (hs : step s a = .ok t) : Served t := by
  have hwf := h.wf.step hl hs
  cases a with
  | write p n => cases hs; exact h.calls hl.1 (by simp) hwf
  | read p n => cases hs; exact h.calls hl.1 (by simp) hwf
  | acquire p =>
    cases hs
    refine ⟨hwf, fun q n i hq => ?_, fun q hq => .inl (h.reader_free hl.2.1 hq), fun q hq => .inl
      (h.writer_free hl.2.1 hq)⟩
    have := h.copier q n i hq
    rw [hl.2.1] at this; cases this
  | loop p ch ok => exact h.pass hl (pass_of_step (h.wf.holder p hl).1 hs)
  | close w =>
    cases hs
    cases w with
    | true =>
      exact ⟨hwf, h.copier, fun q hq => absurd hq (wakeup_chan_ne _ _ q), fun q hq => .inl (h.writer_free hl.1
        (woken q _ hq))⟩
    | false =>
      exact ⟨hwf, h.copier, fun q hq => .inl (h.reader_free hl.1 (woken q _ hq)), fun q hq => absurd hq
        (wakeup_chan_ne _ _ q)⟩
  | kill p => cases hs; exact h.kill ha

theorem Served.init (data : Store UInt8) (killed : Store Bool) : Served (init data killed) :=
  ⟨Wf.init data killed, fun p n i hp => (by cases hp), fun p hp => (by cases hp), fun p hp => (by cases hp)⟩

/-- processes that share a pipe, none of them killed inside the loop of `pipewrite` -/
def sparing : Machine St Act Unit := sharing.restrict Spares

instance (s : St) (a : Act) : Decidable (sparing.legal s a) := inferInstanceAs (Decidable (legal s a ∧ Spares s a))

/-- **No stranded pipe sleepers.** -/
theorem no_stranded_sleepers {data : Store UInt8} {killed : Store Bool} (h : sparing.Reach (init data killed) s)
    (hl : s.lock = none) (p : ℕ) :
    (s.chan p = some .nread → s.pi.Empty ∧ s.pi.writeopen = true) ∧
      (s.chan p = some .nwrite → s.pi.Full ∧ s.pi.readopen = true) := by
  have hs := h.inv Served (Served.init data killed) fun _ _ _ hi hl hs => hi.step hl.1 hl.2 hs
  exact ⟨fun hp => hs.reader_free hl hp, fun hp => hs.writer_free hl hp⟩

/-- process 2 finds the pipe empty and sleeps -/
def readerSleeps : List Act := [.read 2 1, .acquire 2, .loop 2 0 true]

theorem no_stranded_sleepers_reader : ∃ s, sparing.Reach (init (fun _ => 5) fun _ => false) s ∧ s.lock = none ∧
    s.chan 2 = some .nread ∧ s.pi.Empty ∧ s.pi.writeopen = true := by
  obtain ⟨s, hr, hp⟩ := Machine.exists_reach_of_steps (M := sparing) (s := init (fun _ => 5) fun _ => false)
    (l := readerSleeps) (p := fun s => decide (s.lock = none ∧ s.chan 2 = some .nread)) (by decide +kernel)
  obtain ⟨hl, hc⟩ := of_decide_eq_true hp
  exact ⟨s, hr, hl, hc, (no_stranded_sleepers hr hl 2).1 hc⟩

/-- **A stranded reader.** While process 2 sleeps, process 1 writes two bytes and is killed between them: it returns
without a wakeup, and process 2 sleeps on although there is a byte to read. -/
theorem stranded_reader : ∃ s, sharing.Reach (init (fun _ => 5) fun _ => false) s ∧ s.lock = none ∧
    s.chan 2 = some .nread ∧ ¬ s.pi.Empty ∧ s.pi.writeopen = true ∧ s.pi.readopen = true := by
  obtain ⟨s, hr, hp⟩ := Machine.exists_reach_of_steps (M := sharing) (s := init (fun _ => 5) fun _ => false)
    (l := readerSleeps ++ [.write 1 2, .acquire 1, .loop 1 7 true, .kill 1, .loop 1 8 true])
    (p := fun s => decide (s.lock = none ∧ s.chan 2 = some .nread ∧ ¬ s.pi.Empty ∧ s.pi.writeopen = true ∧
      s.pi.readopen = true)) (by decide +kernel)
  exact ⟨s, hr, of_decide_eq_true hp⟩

end Xv6.Pipes
