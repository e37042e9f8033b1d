/-
What console input is for: a queue of committed characters and a line that is still being edited.

`Lines` says it with two lists; `discipline` is the device that works on them. The driver is that device: the cells from
r to w are the queue and those from w to e the line, through every wrap of the indices.

- `Rep`: the ring stands for the two lists, and the driver follows them (`Rep.key`, `Rep.read`).
- `console_refines`: every run of the driver is a run of the line discipline.
-/
import Xv6.Console.Model

namespace Xv6.Console

open Xv6.Core

/-! ## The line discipline -/

structure Lines where
  queue : List UInt8
  line : List UInt8

namespace Lines

/-- what a character does to the line -/
def key (m : Lines) (c : UInt8) : Lines :=
  if c = ctrlP ∨ c = 0 then m
  else if c = ctrlU then { m with line := [] }
  else if c = ctrlH ∨ c = delete then { m with line := m.line.dropLast }
  else if m.queue.length + m.line.length < INPUT_BUF_SIZE then
    let c := if c = carriageReturn then newline else c
    let line := m.line ++ [c]
    if c = newline ∨ c = ctrlD ∨ m.queue.length + line.length = INPUT_BUF_SIZE then ⟨m.queue ++ line, []⟩
    else { m with line := line }
  else m

/-- a reader takes characters from the front of the queue until it has n more of them, has taken a newline or meets a
control-D, which it removes if it has taken nothing yet -/
def take (killed : Bool) (target : ℕ) (line : List UInt8) : ℕ → List UInt8 → List UInt8 → Lines × Next
  | 0, queue, got => (⟨queue, line⟩, .returns got.length got)
  | n + 1, [], got => (⟨[], line⟩, if killed then .returns (-1) got else .sleeps ⟨target, n + 1, got⟩)
  | n + 1, c :: queue, got =>
    if c = ctrlD then (⟨if got = [] then queue else c :: queue, line⟩, .returns got.length got)
    else if c = newline then (⟨queue, line⟩, .returns (got ++ [c]).length (got ++ [c]))
    else take killed target line n queue (got ++ [c])

def read (killed : Bool) (rd : Reader) (m : Lines) : Lines × Next := take killed rd.target m.line rd.n m.queue rd.got

end Lines

def discipline : Device Lines := ⟨Lines.key, Lines.read⟩

/-- no input yet -/
def quiet : St Lines := ⟨⟨[], []⟩, fun _ => none, fun _ => none⟩

/-! ## The ring as two lists -/

/-- the cells in use -/
def Cons.ring (s : Cons) : RingBuf UInt8 := ⟨s.buf, s.r, s.e⟩

/-- the ring stands for the queue and the line -/
structure Rep (s : Cons) (m : Lines) : Prop where
  ok : s.ring.Ok INPUT_BUF_SIZE UINT
  contents : s.ring.contents INPUT_BUF_SIZE UINT = m.queue ++ m.line
  w_eq : s.w = (s.r + m.queue.length) % UINT
  /-- these characters end a line -/
  open_line : newline ∉ m.line ∧ ctrlD ∉ m.line

variable {s : Cons} {m : Lines} {c : UInt8} {rd : Reader} {killed : Bool} {line queue got : List UInt8} {target : ℕ}

theorem Rep.count (h : Rep s m) : s.ring.count UINT = m.queue.length + m.line.length := by
  rw [← RingBuf.length_contents (N := INPUT_BUF_SIZE), h.contents, List.length_append]

theorem Rep.room (h : Rep s m) : m.queue.length + m.line.length ≤ INPUT_BUF_SIZE := h.count ▸ h.ok.le

theorem Rep.e_eq (h : Rep s m) : s.e = (s.r + (m.queue.length + m.line.length)) % UINT := h.count ▸ h.ok.w_eq

/-- indices that are less than a full turn apart are equal only if they are the same -/
theorem turn {r a b : ℕ} (ha : a ≤ INPUT_BUF_SIZE) (hb : b ≤ INPUT_BUF_SIZE) (h : (r + a) % UINT = (r + b) % UINT) :
    a = b := by
  simp only [INPUT_BUF_SIZE, UINT] at ha hb h
  omega

/-- `cons.r == cons.w` tests for an empty queue -/
theorem Rep.queue_nil (h : Rep s m) : s.r = s.w ↔ m.queue = [] := by
  have hroom := h.room
  have hr : s.r < UINT := h.ok.r_lt
  rw [h.w_eq, ← List.length_eq_zero_iff]
  constructor
  · intro heq
    refine turn (r := s.r) (by omega) (Nat.zero_le _) ?_
    rw [← heq, Nat.add_zero, Nat.mod_eq_of_lt hr]
  · intro h0
    rw [h0, Nat.add_zero, Nat.mod_eq_of_lt hr]

/-- `cons.e != cons.w` tests for a line -/
theorem Rep.line_nil (h : Rep s m) : s.e = s.w ↔ m.line = [] := by
  have hroom := h.room
  rw [h.w_eq, h.e_eq, ← List.length_eq_zero_iff]
  constructor
  · intro heq
    have := turn (by omega) (by omega) heq
    omega
  · intro h0
    rw [h0, Nat.add_zero]

theorem usub_eq_count (h : s.r < UINT) : usub s.e s.r = s.ring.count UINT := by
  show (UINT + s.e - s.r) % UINT = (s.e + (UINT - s.r)) % UINT
  rw [Nat.add_comm UINT, Nat.add_sub_assoc h.le]

theorem Rep.usub (h : Rep s m) : usub s.e s.r = m.queue.length + m.line.length :=
  (usub_eq_count h.ok.r_lt).trans h.count

theorem Rep.usub_w (h : Rep s m) : Console.usub s.e s.w = m.line.length := by
  have hroom := h.room
  rw [h.e_eq, h.w_eq]
  simp only [Console.usub, INPUT_BUF_SIZE, UINT] at hroom ⊢
  omega

/-! ## Editing -/

@[simp] theorem back_r (s : Cons) : s.back.r = s.r := rfl
@[simp] theorem back_w (s : Cons) : s.back.w = s.w := rfl
@[simp] theorem store_r (s : Cons) (c : UInt8) : (s.store c).r = s.r := rfl

theorem Rep.back (h : Rep s m) (hl : m.line ≠ []) :
    Rep s.back { m with line := m.line.dropLast } ∧ s.buf (Console.usub s.e 1 % INPUT_BUF_SIZE) =
      m.line.getLast hl := by
  have hpos := List.length_pos_of_ne_nil hl
  have hne : s.ring.count UINT ≠ 0 := by rw [h.count]; omega
  have hc := RingBuf.contents_unput h.ok hne
  rw [h.contents, ← List.dropLast_append_getLast hl, ← List.append_assoc] at hc
  obtain ⟨h1, h2⟩ := List.append_inj' hc rfl
  refine ⟨⟨h.ok.unput hne, h1.symm, ?_, ?_⟩, (List.cons.inj h2).1.symm⟩
  · rw [back_w, back_r]
    exact h.w_eq
  · exact ⟨fun hm => h.open_line.1 (List.mem_of_mem_dropLast hm), fun hm => h.open_line.2 (List.mem_of_mem_dropLast hm)⟩

theorem Rep.killLine (h : Rep s m) : Rep (Cons.killLine m.line.length s) { m with line := [] } := by
  generalize hn : m.line.length = n
  induction n generalizing s m with
  | zero =>
    rw [← List.length_eq_zero_iff.1 hn]
    exact h
  | succ n ih =>
    have hl : m.line ≠ [] := fun e => by rw [e] at hn; cases hn
    obtain ⟨hback, hlast⟩ := h.back hl
    have hcond : s.e ≠ s.w ∧ s.buf (Console.usub s.e 1 % INPUT_BUF_SIZE) ≠ newline := by
      refine ⟨fun e => hl (h.line_nil.1 e), ?_⟩
      rw [hlast]
      exact fun e => h.open_line.1 (e ▸ List.getLast_mem hl)
    rw [Cons.killLine, if_pos hcond]
    exact ih (m := { m with line := m.line.dropLast }) hback (by rw [List.length_dropLast, hn, Nat.succ_sub_one])

theorem store_ring (s : Cons) (c : UInt8) : (s.store c).ring = s.ring.put INPUT_BUF_SIZE UINT c := rfl

theorem Rep.put (h : Rep s m) (hroom : m.queue.length + m.line.length < INPUT_BUF_SIZE) (c : UInt8) :
    (s.store c).ring.Ok INPUT_BUF_SIZE UINT ∧
      (s.store c).ring.contents INPUT_BUF_SIZE UINT = m.queue ++ (m.line ++ [c]) := by
  have hne : s.ring.count UINT ≠ INPUT_BUF_SIZE := by rw [h.count]; omega
  rw [store_ring, RingBuf.contents_put c h.ok (by decide) (by decide) hne, h.contents, List.append_assoc]
  exact ⟨h.ok.put c (by decide) hne, rfl⟩

theorem commit_rep (hok : s.ring.Ok INPUT_BUF_SIZE UINT)
    (hc : s.ring.contents INPUT_BUF_SIZE UINT = m.queue ++ line) : Rep { s with w := s.e } ⟨m.queue ++ line, []⟩ := by
  refine ⟨hok, by rw [List.append_nil]; exact hc, ?_, List.not_mem_nil, List.not_mem_nil⟩
  show s.e = (s.r + (m.queue ++ line).length) % UINT
  rw [← hc, RingBuf.length_contents]
  exact hok.w_eq

/-- **A character does to the ring what it does to the lists.** -/
theorem Rep.key (h : Rep s m) (c : UInt8) : Rep (s.consoleintr c) (m.key c) := by
  unfold Cons.consoleintr Lines.key
  by_cases hP : c = ctrlP
  · rw [if_pos hP, if_pos (Or.inl hP)]
    exact h
  by_cases h0 : c = 0
  · subst h0
    exact h
  rw [if_neg hP, if_neg (not_or.2 ⟨hP, h0⟩)]
  by_cases hU : c = ctrlU
  · rw [if_pos hU, if_pos hU, h.usub_w]
    exact h.killLine
  rw [if_neg hU, if_neg hU]
  by_cases hH : c = ctrlH ∨ c = delete
  · rw [if_pos hH, if_pos hH]
    by_cases hl : m.line = []
    · rw [if_neg (not_not.2 (h.line_nil.2 hl)), hl, List.dropLast_nil, ← hl]
      exact h
    · rw [if_pos fun e => hl (h.line_nil.1 e)]
      exact (h.back hl).1
  rw [if_neg hH, if_neg hH, h.usub]
  by_cases hroom : m.queue.length + m.line.length < INPUT_BUF_SIZE
  swap
  · rw [if_neg fun hc => hroom hc.2, if_neg hroom]
    exact h
  rw [if_pos ⟨h0, hroom⟩, if_pos hroom]
  generalize (if c = carriageReturn then newline else c) = d
  obtain ⟨hok, hcont⟩ := h.put hroom d
  have hfull : Console.usub (s.store d).e (s.store d).r = m.queue.length + (m.line ++ [d]).length := by
    rw [← List.length_append, ← hcont, RingBuf.length_contents]
    exact usub_eq_count hok.r_lt
  simp only [hfull]
  by_cases hend : d = newline ∨ d = ctrlD ∨ m.queue.length + (m.line ++ [d]).length = INPUT_BUF_SIZE
  · rw [if_pos hend, if_pos hend]
    exact commit_rep hok hcont
  · rw [if_neg hend, if_neg hend]
    refine ⟨hok, hcont, h.w_eq, ?_, ?_⟩
    · simpa [h.open_line.1] using fun e : newline = d => hend (Or.inl e.symm)
    · simpa [h.open_line.2] using fun e : ctrlD = d => hend (Or.inr (Or.inl e.symm))

/-! ## Reading -/

theorem unget_get (h : s.r < UINT) : s.get.unget = s := by
  have hr : Console.usub ((s.r + 1) % UINT) 1 = s.r := by
    simp only [Console.usub, UINT] at h ⊢
    omega
  obtain ⟨buf, r, w, e⟩ := s
  simp only [Cons.get, Cons.unget, hr]

theorem Rep.get (h : Rep s ⟨c :: queue, line⟩) :
    s.buf (s.r % INPUT_BUF_SIZE) = c ∧ Rep s.get ⟨queue, line⟩ := by
  have hne : s.ring.count UINT ≠ 0 := by rw [h.count, List.length_cons]; omega
  have hc := RingBuf.contents_get h.ok hne
  rw [h.contents] at hc
  obtain ⟨h1, h2⟩ := List.cons.inj hc
  refine ⟨h1.symm, h.ok.get hne, h2.symm, ?_, h.open_line⟩
  show s.w = ((s.r + 1) % UINT + queue.length) % UINT
  rw [h.w_eq, Nat.mod_add_mod, List.length_cons, Nat.add_assoc, Nat.add_comm 1]

/-- **A reader takes from the ring what it takes from the queue.** -/
theorem Rep.readLoop {n : ℕ} (h : Rep s m) (hn : got.length + n = target) :
    Rep (s.readLoop killed target n got).1 (Lines.take killed target m.line n m.queue got).1 ∧
      (s.readLoop killed target n got).2 = (Lines.take killed target m.line n m.queue got).2 := by
  obtain ⟨queue, line⟩ := m
  induction n generalizing s queue got with
  | zero =>
    have hlen : got.length = target := hn
    refine ⟨h, ?_⟩
    show Next.returns (target : ℤ) got = .returns (got.length : ℤ) got
    rw [hlen]
  | succ n ih =>
    cases queue with
    | nil =>
      have hempty : s.r = s.w := h.queue_nil.2 rfl
      rw [Cons.readLoop, if_pos hempty, Lines.take]
      cases killed <;> exact ⟨h, rfl⟩
    | cons c queue =>
      have hne : s.r ≠ s.w := fun e => List.cons_ne_nil _ _ (h.queue_nil.1 e)
      have hlen : (got.length : ℤ) = target - (n + 1 : ℕ) := by omega
      obtain ⟨hc, hget⟩ := h.get
      rw [Cons.readLoop, if_neg hne, Lines.take]
      simp only [hc]
      by_cases hD : c = ctrlD
      · rw [if_pos hD, if_pos hD, hlen]
        refine ⟨?_, rfl⟩
        by_cases hgot : got = []
        · have hfirst : ¬ n + 1 < target := by rw [hgot] at hn; simp at hn; omega
          rw [if_neg hfirst, if_pos hgot]
          exact hget
        · -- what was taken is put back: r is what it was
          have hlater : n + 1 < target := by have := List.length_pos_of_ne_nil hgot; omega
          rw [if_pos hlater, if_neg hgot, unget_get h.ok.r_lt]
          exact h
      · rw [if_neg hD, if_neg hD]
        by_cases hnl : c = newline
        · rw [if_pos hnl, if_pos hnl]
          refine ⟨hget, ?_⟩
          have hlen' : ((got ++ [c]).length : ℤ) = target - n := by
            rw [List.length_append, List.length_singleton]
            omega
          rw [hlen']
        · rw [if_neg hnl, if_neg hnl]
          exact ih (by rw [List.length_append, List.length_singleton]; omega) queue hget

/-! ## Runs -/

/-- every waiting reader has as many characters as it says -/
def Counted (s : St Lines) : Prop := ∀ p rd, s.reader p = some rd → rd.got.length + rd.n = rd.target

/-- the driver and the line discipline side by side -/
structure Sim (s : St Cons) (m : St Lines) : Prop where
  rep : Rep s.dev m.dev
  reader : s.reader = m.reader
  result : s.result = m.result
  counted : Counted m

theorem take_counted {n : ℕ} (hn : got.length + n = target)
    (h : (Lines.take killed target line n queue got).2 = .sleeps rd) : rd.got.length + rd.n = rd.target := by
  induction n generalizing queue got with
  | zero => cases h
  | succ n ih =>
    cases queue with
    | nil =>
      rw [Lines.take] at h
      cases killed
      · cases h
        exact hn
      · cases h
    | cons c queue =>
      rw [Lines.take] at h
      split_ifs at h
      exact ih (by rw [List.length_append, List.length_singleton]; omega) h

theorem Sim.go {s : St Cons} {m : St Lines} (h : Sim s m) (p : ℕ) (hn : rd.got.length + rd.n = rd.target) :
    Sim (driver.go s p killed rd) (discipline.go m p killed rd) := by
  have hread : Rep (driver.read killed rd s.dev).1 (discipline.read killed rd m.dev).1 ∧
      (driver.read killed rd s.dev).2 = (discipline.read killed rd m.dev).2 := h.rep.readLoop hn
  have hcount : ∀ rd', (discipline.read killed rd m.dev).2 = .sleeps rd' → rd'.got.length + rd'.n = rd'.target :=
    fun rd' hd => take_counted hn hd
  unfold Device.go
  obtain ⟨hrep, hnext⟩ := hread
  generalize driver.read killed rd s.dev = x at hrep hnext ⊢
  generalize discipline.read killed rd m.dev = y at hrep hnext hcount ⊢
  obtain ⟨d, nx⟩ := x
  obtain ⟨d', nx'⟩ := y
  obtain rfl : nx = nx' := hnext
  cases nx with
  | sleeps rd' =>
    refine ⟨hrep, by simp only [h.reader], h.result, fun q rq hq => ?_⟩
    by_cases hqp : q = p
    · subst hqp
      simp only [Function.update_self, Option.some.injEq] at hq
      exact hq ▸ hcount rd' rfl
    · exact h.counted q rq (by simpa [Function.update_of_ne hqp] using hq)
  | returns v got =>
    refine ⟨hrep, by simp only [h.reader], by simp only [h.result], fun q rq hq => ?_⟩
    by_cases hqp : q = p
    · subst hqp
      simp at hq
    · exact h.counted q rq (by simpa [Function.update_of_ne hqp] using hq)

/-- **Every step of the driver is a step of the line discipline.** -/
theorem Sim.step {s : St Cons} {m : St Lines} {a : Act} (h : Sim s m) (hl : legal s a) :
    legal m a ∧ Sim (driver.step s a) (discipline.step m a) := by
  cases a with
  | intr c => exact ⟨trivial, h.rep.key c, h.reader, h.result, h.counted⟩
  | call p n killed =>
    have hp : s.reader p = none := hl
    exact ⟨show m.reader p = none from h.reader ▸ hp, h.go p (Nat.zero_add _)⟩
  | wake p killed =>
    obtain ⟨rd, hrd⟩ := Option.isSome_iff_exists.1 hl
    have hrd' : m.reader p = some rd := h.reader ▸ hrd
    refine ⟨Option.isSome_iff_exists.2 ⟨rd, hrd'⟩, ?_⟩
    show Sim (driver.go s p killed ((s.reader p).getD ⟨0, 0, []⟩)) (discipline.go m p killed
      ((m.reader p).getD ⟨0, 0, []⟩))
    rw [hrd, hrd']
    exact h.go p (h.counted p rd hrd')

theorem start_sim : Sim start quiet where
  rep := ⟨RingBuf.Ok.empty _ (by decide), rfl, rfl, List.not_mem_nil, List.not_mem_nil⟩
  reader := rfl
  result := rfl
  counted := fun _ _ h => by cases h

/-- **Whole runs.** -/
theorem Sim.run {s t : St Cons} {m : St Lines} {as : List Act} (h : Sim s m) (hl : console.LegalRun s as)
    (hr : console.run s as = .ok t) :
    ∃ k, (system discipline).LegalRun m as ∧ (system discipline).run m as = .ok k ∧ Sim t k := by
  induction as generalizing s m with
  | nil =>
    cases hr
    exact ⟨m, trivial, rfl, h⟩
  | cons a as ih =>
    obtain ⟨hla, hsim⟩ := h.step hl.1
    obtain ⟨k, hk, hrk, hsk⟩ := ih hsim (hl.2 _ rfl) hr
    exact ⟨k, ⟨hla, fun u hu => by cases hu; exact hk⟩, hrk, hsk⟩

/-! ## The committed characters stay -/

theorem key_queue (m : Lines) (c : UInt8) : m.queue <+: (m.key c).queue := by
  unfold Lines.key
  simp only
  split_ifs
  all_goals first
    | exact List.prefix_rfl
    | exact List.prefix_append _ _

theorem killLine_r (n : ℕ) (s : Cons) : (Cons.killLine n s).r = s.r := by
  induction n generalizing s with
  | zero => rfl
  | succ n ih =>
    rw [Cons.killLine]
    split_ifs
    · exact ih s.back
    · rfl

theorem consoleintr_r (s : Cons) (c : UInt8) : (s.consoleintr c).r = s.r := by
  unfold Cons.consoleintr
  simp only
  split_ifs <;> simp [killLine_r]

theorem Rep.cell (h : Rep s m) {k : ℕ} (hk : k < m.queue.length) :
    m.queue[k]? = some (s.buf ((s.r + k) % UINT % INPUT_BUF_SIZE)) := by
  have hlt : k < s.ring.count UINT := by rw [h.count]; omega
  have happ : (m.queue ++ m.line)[k]? = m.queue[k]? := List.getElem?_append_left hk
  rw [← happ, ← h.contents, RingBuf.contents, List.getElem?_map, List.getElem?_range hlt]
  rfl

/-- an edit does not touch the cells of the queue -/
theorem Rep.committed (h : Rep s m) (c : UInt8) {k : ℕ} (hk : k < m.queue.length) :
    (s.consoleintr c).buf ((s.r + k) % UINT % INPUT_BUF_SIZE) = s.buf ((s.r + k) % UINT % INPUT_BUF_SIZE) := by
  obtain ⟨x, hx⟩ := key_queue m c
  have hk' : k < (m.key c).queue.length := by rw [← hx, List.length_append]; omega
  have h1 := (h.key c).cell hk'
  rw [consoleintr_r, ← hx, List.getElem?_append_left hk, h.cell hk] at h1
  exact (Option.some.inj h1).symm

/-- **The console is a line discipline.** For every run of input characters, reads and wake-ups, the ring stands for the
queue and the line that the same run leaves in the list model, the waiting readers are the same and so is what every
read returned; both lists fit into the buffer; and no further character changes a cell of the queue. -/
theorem console_refines {as : List Act} {s : St Cons} (hl : console.LegalRun start as)
    (hr : console.run start as = .ok s) :
    ∃ m, (system discipline).LegalRun quiet as ∧ (system discipline).run quiet as = .ok m ∧
      Rep s.dev m.dev ∧ s.reader = m.reader ∧ s.result = m.result ∧
      m.dev.queue.length + m.dev.line.length ≤ INPUT_BUF_SIZE ∧
      ∀ c k, k < m.dev.queue.length → (s.dev.consoleintr c).buf ((s.dev.r + k) % UINT % INPUT_BUF_SIZE) =
        s.dev.buf ((s.dev.r + k) % UINT % INPUT_BUF_SIZE) := by
  obtain ⟨m, hlm, hrm, hsim⟩ := start_sim.run hl hr
  exact ⟨m, hlm, hrm, hsim.rep, hsim.reader, hsim.result, hsim.rep.room, fun c k hk => hsim.rep.committed c hk⟩

/-- a reader waits, "hix", backspace and return are typed, and the reader gets a line -/
theorem console_refines_line : ∃ as s m, console.run start as = .ok s ∧ (system discipline).run quiet as = .ok m ∧
    s.result 1 = some (3, [0x68, 0x69, newline]) ∧ s.result = m.result := by
  obtain ⟨s, hl, hr, hp⟩ := Machine.exists_run_of_steps (M := console) (s := start)
    (l := [.call 1 10 false, .intr 0x68, .intr 0x69, .intr 0x78, .intr ctrlH, .intr carriageReturn, .wake 1 false])
    (p := fun s => decide (s.result 1 = some (3, [0x68, 0x69, newline]))) (by decide +kernel)
  obtain ⟨m, -, hrm, -, -, hres, -⟩ := console_refines hl hr
  exact ⟨_, s, m, hr, hrm, of_decide_eq_true hp, hres⟩

end Xv6.Console
