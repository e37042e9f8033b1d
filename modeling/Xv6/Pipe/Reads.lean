/-
What a reader takes out of a pipe (kernel/pipe.c, `piperead`).

The second loop of `piperead` runs with pi->lock held, so the pipe is the reader's own until it returns. `copyLoop` is
the whole loop: `ok i` says whether `copyout` can write addr + i. `run_copyLoop`: the passes of `Pipes.sharing` compute
it.

- `read_conserves`: the pipe loses the bytes that were delivered and no others if and only if no `copyout` fails.
- `failed_read_loses`: `nread` is advanced before the byte is copied, so the byte that `copyout` refuses is gone.
-/
import Xv6.Pipe.Stream

namespace Xv6.Pipes

open Xv6.Core

variable {s t : St} {pi : Pipe} {ok : ℕ → Bool} {p i : ℕ} {n : ℤ}

/-! ## The loop -/

/-- how the second loop of `piperead` leaves the pipe -/
structure Copied where
  delivered : List UInt8
  /-- it ended because `copyout` failed -/
  failed : Bool
  pipe : Pipe

/-- the second loop of `piperead` from i on, for at most m more bytes -/
def copyLoop (ok : ℕ → Bool) : ℕ → ℕ → Pipe → Copied
  | 0, _, pi => ⟨[], false, pi⟩
  | m + 1, i, pi =>
    if pi.Empty then ⟨[], false, pi⟩
    else if ok i then
      let r := copyLoop ok m (i + 1) pi.take
      { r with delivered := pi.front :: r.delivered }
    else ⟨[], true, pi.take⟩

section

variable {m : ℕ}

theorem copyLoop_empty (h : pi.Empty) : copyLoop ok m i pi = ⟨[], false, pi⟩ := by
  cases m with
  | zero => rfl
  | succ m => rw [copyLoop, if_pos h]

theorem copyLoop_ok (h : ¬ pi.Empty) (hok : ok i = true) : copyLoop ok (m + 1) i pi =
    { copyLoop ok m (i + 1) pi.take with delivered := pi.front :: (copyLoop ok m (i + 1) pi.take).delivered } := by
  rw [copyLoop, if_neg h, if_pos hok]

theorem copyLoop_bad (h : ¬ pi.Empty) (hok : ok i = false) : copyLoop ok (m + 1) i pi = ⟨[], true, pi.take⟩ := by
  rw [copyLoop, if_neg h, if_neg (by rw [hok]; decide)]

end

/-- the byte that was taken out and not delivered -/
def Copied.lost (r : Copied) : ℕ := if r.failed then 1 else 0

/-- **Every exit of the loop.** The bytes delivered are the first ones of the pipe; the pipe has lost these, and one
more if a copy failed. -/
theorem copyLoop_spec (h : pi.Ok) (ok : ℕ → Bool) (m i : ℕ) :
    (copyLoop ok m i pi).delivered = pi.buffer.take (copyLoop ok m i pi).delivered.length ∧
    (copyLoop ok m i pi).pipe.buffer = pi.buffer.drop ((copyLoop ok m i pi).delivered.length +
      (copyLoop ok m i pi).lost) := by
  induction m generalizing i pi with
  | zero => exact ⟨rfl, rfl⟩
  | succ m ih =>
    by_cases hempty : pi.Empty
    · rw [copyLoop_empty hempty]
      exact ⟨rfl, rfl⟩
    obtain ⟨htake, hbuf⟩ := h.buffer_take hempty
    cases hok : ok i with
    | true =>
      obtain ⟨h1, h2⟩ := ih htake (i + 1)
      rw [copyLoop_ok hempty hok, hbuf]
      refine ⟨congrArg (List.cons _) h1, ?_⟩
      rw [List.length_cons, Nat.add_right_comm, List.drop_succ_cons]
      exact h2
    | false =>
      rw [copyLoop_bad hempty hok, hbuf]
      exact ⟨rfl, rfl⟩

/-- the copy that failed was that of the first byte that was not delivered -/
theorem copyLoop_failed (h : pi.Ok) {m : ℕ} (hf : (copyLoop ok m i pi).failed = true) :
    (copyLoop ok m i pi).delivered.length < m ∧ (copyLoop ok m i pi).delivered.length < pi.buffer.length ∧
      ok (i + (copyLoop ok m i pi).delivered.length) = false := by
  induction m generalizing i pi with
  | zero => cases hf
  | succ m ih =>
    by_cases hempty : pi.Empty
    · rw [copyLoop_empty hempty] at hf
      cases hf
    obtain ⟨htake, hbuf⟩ := h.buffer_take hempty
    cases hok : ok i with
    | true =>
      rw [copyLoop_ok hempty hok] at hf ⊢
      obtain ⟨h1, h2, h3⟩ := ih htake hf
      rw [hbuf, List.length_cons, List.length_cons, ← Nat.add_assoc, Nat.add_right_comm]
      exact ⟨Nat.succ_lt_succ h1, Nat.succ_lt_succ h2, h3⟩
    | false =>
      rw [copyLoop_bad hempty hok, hbuf]
      exact ⟨Nat.succ_pos _, Nat.succ_pos _, hok⟩

theorem copyLoop_all (h : pi.Ok) {m : ℕ} (hf : (copyLoop ok m i pi).failed = false) :
    ∀ j, j < m → j < pi.buffer.length → ok (i + j) = true := by
  induction m generalizing i pi with
  | zero => exact fun j hj => absurd hj (Nat.not_lt_zero j)
  | succ m ih =>
    intro j hj hlen
    have hempty : ¬ pi.Empty := fun he => by
      rw [Pipe.Ok.buffer_nil_iff h |>.mpr he] at hlen
      exact absurd hlen (Nat.not_lt_zero j)
    obtain ⟨htake, hbuf⟩ := h.buffer_take hempty
    cases hok : ok i with
    | false =>
      rw [copyLoop_bad hempty hok] at hf
      cases hf
    | true =>
      rw [copyLoop_ok hempty hok] at hf
      cases j with
      | zero => exact hok
      | succ j =>
        rw [hbuf, List.length_cons] at hlen
        rw [← Nat.add_assoc, Nat.add_right_comm]
        exact ih htake hf j (Nat.lt_of_succ_lt_succ hj) (Nat.lt_of_succ_lt_succ hlen)

/-! ## Its passes -/

/-- k passes of the loop of process p, from i on -/
def passes (p : ℕ) (ok : ℕ → Bool) (i k : ℕ) : List Act := (List.range' i k).map fun j => .loop p 0 (ok j)

theorem passes_succ (p : ℕ) (ok : ℕ → Bool) (i k : ℕ) :
    passes p ok i (k + 1) = .loop p 0 (ok i) :: passes p ok (i + 1) k := by
  rw [passes, List.range'_succ, List.map_cons]
  rfl

/-- how the reader is left after the whole loop -/
structure Done (s : St) (p i : ℕ) (r : Copied) (t : St) : Prop where
  pipe : t.pi = r.pipe
  delivered : t.delivered = s.delivered ++ r.delivered
  ret : t.pos p = .out ↑(i + r.delivered.length)

/-- **The passes of a reader compute the loop.** -/
theorem run_copyLoop (hl : s.lock = some p) (hpos : s.pos p = .copying n i) (ok : ℕ → Bool) {m : ℕ}
    (hm : m = (n - i).toNat) :
    ∃ t, sharing.LegalRun s (passes p ok i ((copyLoop ok m i s.pi).delivered.length + 1)) ∧
      sharing.run s (passes p ok i ((copyLoop ok m i s.pi).delivered.length + 1)) = .ok t ∧
      Done s p i (copyLoop ok m i s.pi) t := by
  have hstep : sharing.step s (.loop p 0 (ok i)) = .ok (pipereadCopy s p n i (ok i)) := by simp only [sharing, step,
    hpos]
  unfold pipereadCopy at hstep
  induction m generalizing s i with
  | zero =>
    rw [if_neg (by omega)] at hstep
    exact ⟨_, ⟨hl, fun _ _ => trivial⟩, Machine.run_cons_ok [] hstep, rfl, (List.append_nil _).symm,
      Store.set_self _ _ _⟩
  | succ m ih =>
    rw [if_pos (by omega)] at hstep
    by_cases hempty : s.pi.Empty
    · rw [if_pos hempty] at hstep
      rw [copyLoop_empty hempty]
      exact ⟨_, ⟨hl, fun _ _ => trivial⟩, Machine.run_cons_ok [] hstep, rfl, (List.append_nil _).symm,
        Store.set_self _ _ _⟩
    rw [if_neg hempty] at hstep
    cases hok : ok i with
    | false =>
      rw [hok, if_neg (by decide)] at hstep
      rw [copyLoop_bad hempty hok]
      refine ⟨({ s with pi := s.pi.take }.wakeup .nwrite).leave p i, ⟨hl, fun _ _ => trivial⟩, ?_, rfl,
        (List.append_nil _).symm, Store.set_self _ _ _⟩
      rw [passes_succ, hok]
      exact Machine.run_cons_ok [] hstep
    | true =>
      rw [hok, if_pos rfl] at hstep
      -- the state after the pass
      set u : St := { s with
        pi := s.pi.take, pos := s.pos.set p (.copying n (i + 1)), delivered := s.delivered ++ [s.pi.front] } with hu
      have hupos : u.pos p = .copying n (i + 1) := Store.set_self _ _ _
      obtain ⟨t, h1, h2, hd⟩ := ih (s := u) hl hupos (by omega) (by simp only [sharing, step, hupos]; rfl)
      rw [copyLoop_ok hempty hok, List.length_cons, passes_succ, hok]
      refine ⟨t, ⟨hl, fun v hv => ?_⟩, by rw [Machine.run_cons_ok _ hstep]; exact h2, hd.pipe, ?_, ?_⟩
      · rw [hstep] at hv
        cases hv
        exact h1
      · rw [hd.delivered]
        show s.delivered ++ [s.pi.front] ++ _ = _
        rw [List.append_assoc, List.singleton_append]
      · rw [hd.ret]
        show Pos.out ↑(i + 1 + (copyLoop ok m (i + 1) s.pi.take).delivered.length) = _
        rw [List.length_cons, Nat.add_assoc, Nat.add_comm 1]

/-! ## The call -/

/-- **A read takes out what it delivers, if no copy fails.** Process p is about to copy up to n bytes. It returns k,
having delivered the first k bytes of the pipe. The pipe then holds the others if and only if `copyout` can write the
address of every byte that there is for it. -/
theorem read_conserves (h : s.pi.Ok) (hl : s.lock = some p) (hpos : s.pos p = .copying n 0) (ok : ℕ → Bool) :
    ∃ k t, sharing.LegalRun s (passes p ok 0 (k + 1)) ∧ sharing.run s (passes p ok 0 (k + 1)) = .ok t ∧
      t.pos p = .out ↑k ∧ t.delivered = s.delivered ++ s.pi.buffer.take k ∧
      (t.pi.buffer = s.pi.buffer.drop k ↔ ∀ i : ℕ, i < n → i < s.pi.buffer.length → ok i = true) := by
  obtain ⟨t, h1, h2, hd⟩ := run_copyLoop hl hpos ok rfl
  obtain ⟨hdel, hpipe⟩ := copyLoop_spec h ok (n - (0 : ℕ)).toNat 0
  refine ⟨_, t, h1, h2, by rw [hd.ret, Nat.zero_add], by rw [hd.delivered, ← hdel], ?_⟩
  rw [hd.pipe, hpipe, Copied.lost]
  cases hf : (copyLoop ok (n - (0 : ℕ)).toNat 0 s.pi).failed with
  | false =>
    refine ⟨fun _ i hi hlen => ?_, fun _ => by rw [if_neg (by decide), Nat.add_zero]⟩
    have := copyLoop_all h hf i (by omega) hlen
    rwa [Nat.zero_add] at this
  | true =>
    obtain ⟨h3, h4, h5⟩ := copyLoop_failed h hf
    rw [if_pos rfl]
    refine ⟨fun hb => ?_, fun hok => ?_⟩
    · -- one byte more is gone
      have := congrArg List.length hb
      rw [List.length_drop, List.length_drop] at this
      omega
    · rw [hok _ (by omega) (by omega)] at h5
      cases h5

/-- a pipe that holds two bytes, with process 1 about to read -/
def holding : St :=
  ⟨⟨fun k => if k = 0 then 7 else 8, 0, 2, true, true⟩, some 1, fun _ => .copying 1 0, fun _ => none, fun _ => false,
    [7, 8], []⟩

theorem holding_ok : holding.pi.Ok := ⟨by decide, by decide, by decide⟩

theorem read_conserves_one : ∃ k t, sharing.run holding (passes 1 (fun _ => true) 0 (k + 1)) = .ok t ∧
    t.pos 1 = .out ↑k ∧ t.delivered = holding.delivered ++ holding.pi.buffer.take k ∧
    t.pi.buffer = holding.pi.buffer.drop k := by
  obtain ⟨k, t, -, hr, hk, hd, hb⟩ := read_conserves holding_ok rfl rfl fun _ => true
  exact ⟨k, t, hr, hk, hd, hb.mpr fun _ _ _ => rfl⟩

/-- **A failed read loses a byte.** The pipe holds 7 and 8; a read to an address that `copyout` cannot write returns 0,
has delivered nothing, and leaves the pipe with 8 only. -/
theorem failed_read_loses : holding.pi.Ok ∧ holding.pi.buffer = [7, 8] ∧
    ∃ t, sharing.LegalRun holding (passes 1 (fun _ => false) 0 1) ∧
      sharing.run holding (passes 1 (fun _ => false) 0 1) = .ok t ∧ t.pos 1 = .out 0 ∧ t.delivered = [] ∧
      t.pi.buffer = [8] := by
  refine ⟨holding_ok, by decide, _, ⟨rfl, fun _ _ => trivial⟩, rfl, rfl, rfl, by decide⟩

end Xv6.Pipes
