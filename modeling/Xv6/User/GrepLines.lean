/-
The main loop of grep (user/grep.c: `grep`): lines are cut out of a buffer of 1024 bytes that is filled by reads of any
size, and what is left of a line is moved to the front.

`buf` is memory, the file is the list of bytes that are left, and `match` is any predicate on the string at p. The i-th
`read` gets at most `size i` bytes; stores outside `buf` and a loop that does not end are faults.

- `grep_chunks`: for every input, all read sizes and every predicate, `grep` returns without a fault and has written
  `selected`: the lines that satisfy it, up to the first that is longer than 1022 bytes or has a NUL.
-/
import Xv6.Core.Hoare
import Xv6.Core.Ram

namespace Xv6.Grep

open Xv6.Core Ram

/-- `sizeof(buf)` -/
def BUFSIZE : ℕ := 1024
def newline : UInt8 := 0x0a

inductive Fault where
  | outside
  | endless
deriving DecidableEq, Repr

structure St where
  buf : Ram
  /-- the bytes that are in `buf` -/
  m : ℕ
  /-- what is left of the file -/
  input : List UInt8
  /-- what has been written to the output -/
  out : List UInt8

abbrev GrepM := StateT St (Except Fault)

def putBuf (i : ℕ) (l : List UInt8) : GrepM Unit := do
  if i + l.length ≤ BUFSIZE then modify fun s => { s with buf := s.buf.write i l } else throw .outside

/-- `read(fd, buf+m, n)`, which gets at most k bytes -/
def readBuf (k n : ℕ) : GrepM ℕ := do
  let s ← get
  putBuf s.m (s.input.take (min k n))
  modify fun s => { s with input := s.input.drop (min k n) }
  return (s.input.take (min k n)).length

/-- `strchr` of c, for a string of fewer bytes than the bound -/
def strchr (buf : Ram) (c : UInt8) : ℕ → ℕ → Option ℕ
  | 0, _ => none
  | n + 1, i => if buf i = 0 then none else if buf i = c then some i else strchr buf c n (i + 1)

/-- the string at p -/
def stringAt (buf : Ram) (p : ℕ) : List UInt8 := (buf.read p (BUFSIZE - p)).takeWhile (· ≠ 0)

/-- the body of the loop over the lines, with a newline found at q -/
def matchLine (accepts : List UInt8 → Bool) (p q : ℕ) : GrepM Unit := do
  putBuf q [0]
  let s ← get
  if accepts (stringAt s.buf p) then do
    putBuf q [newline]
    modify fun s => { s with out := s.out ++ s.buf.read p (q + 1 - p) }
    putBuf q [newline]
  else putBuf q [newline]

/-- the loop over the lines from p on; where it ends -/
def lineLoop (accepts : List UInt8 → Bool) : ℕ → ℕ → GrepM ℕ
  | 0, _ => throw .endless
  | n + 1, p => do
    let s ← get
    match strchr s.buf newline BUFSIZE p with
    | none => return p
    | some q => do
      matchLine accepts p q
      lineLoop accepts n (q + 1)

/-- `memmove(buf, p, m)` -/
def moveBuf (p m : ℕ) : GrepM Unit := do
  if m ≤ BUFSIZE then modify fun s => { s with buf := s.buf.copy 0 p m } else throw .outside

def grepLoop (accepts : List UInt8 → Bool) (size : ℕ → ℕ) : ℕ → ℕ → GrepM Unit
  | 0, _ => throw .endless
  | rounds + 1, i => do
    let s ← get
    let n ← readBuf (size i) (BUFSIZE - s.m - 1)
    if n = 0 then return ()
    else do
      putBuf (s.m + n) [0]
      let p ← lineLoop accepts BUFSIZE 0
      -- the source tests m > 0 here, which holds since n > 0
      let m := s.m + n - p
      moveBuf p m
      modify fun s => { s with m := m }
      grepLoop accepts size rounds (i + 1)

variable {accepts : List UInt8 → Bool} {size : ℕ → ℕ} {s : St} {buf : Ram} {t l line rest : List UInt8} {p q n i : ℕ}
  {E : Fault → Prop}

/-! ## The lines of an input -/

/-- a line that fits in the buffer with its newline -/
def fits (line : List UInt8) : Bool := line.length ≤ BUFSIZE - 2 && !line.contains 0

/-- what `grep` has to write for an input -/
def selected (accepts : List UInt8 → Bool) (input : List UInt8) : List UInt8 :=
  (((input.splitOn newline).dropLast.takeWhile fits).filter accepts).flatMap fun line => line ++ [newline]

theorem splitOn_line (hline : newline ∉ line) (rest : List UInt8) :
    (line ++ newline :: rest).splitOn newline = line :: rest.splitOn newline := by
  unfold List.splitOn
  refine List.splitOnP_append_cons_of_forall_mem (fun x hx => ?_) newline (by simp) rest
  simpa using fun h : x = newline => hline (h ▸ hx)

theorem selected_line (hline : newline ∉ line) (rest : List UInt8) : selected accepts (line ++ newline :: rest) =
    if fits line then (if accepts line then line ++ [newline] else []) ++ selected accepts rest else [] := by
  unfold selected
  rw [splitOn_line hline, List.dropLast_cons_of_ne_nil (List.splitOn_ne_nil _ _), List.takeWhile_cons]
  split_ifs with hfits haccepts
  · rw [List.filter_cons_of_pos haccepts, List.flatMap_cons]
  · rw [List.filter_cons_of_neg haccepts, List.nil_append]
  · rfl

/-- `strchr` finds no newline: every newline has a NUL before it -/
def Blocked (t : List UInt8) : Prop := ∀ line rest, t = line ++ newline :: rest → 0 ∈ line

/-- there is no line to be found, and the buffer is full or the input ends -/
theorem selected_blocked (ht : Blocked t) (hend : t.length = BUFSIZE - 1 ∨ rest = []) :
    selected accepts (t ++ rest) = [] := by
  by_cases hmem : newline ∈ t ++ rest
  · obtain ⟨line, r, hsplit, hline⟩ := List.eq_append_cons_of_mem hmem
    rw [hsplit, selected_line hline]
    refine if_neg fun hfits => ?_
    obtain ⟨hlen, hnul⟩ : line.length ≤ BUFSIZE - 2 ∧ 0 ∉ line := by simpa [fits] using hfits
    -- a line that fits would lie within t
    have hin : ∃ r', t = line ++ newline :: r' := by
      rcases hend with hfull | rfl
      · rcases List.append_eq_append_iff.mp hsplit with ⟨x, rfl, -⟩ | ⟨x, rfl, hx⟩
        · rw [List.length_append, hfull] at hlen
          exact absurd hlen (by unfold BUFSIZE; omega)
        · cases x with
          | nil =>
            rw [List.append_nil] at hfull
            exact absurd hlen (by unfold BUFSIZE at *; omega)
          | cons c x => exact ⟨x, by rw [(List.cons.inj hx).1]⟩
      · exact ⟨r, by simpa using hsplit⟩
    obtain ⟨r', hr'⟩ := hin
    exact hnul (ht line r' hr')
  · have hone : (t ++ rest).splitOn newline = [t ++ rest] := by
      unfold List.splitOn
      exact List.splitOnP_eq_singleton fun x hx => by simpa using fun h : x = newline => hmem (h ▸ hx)
    unfold selected
    rw [hone]
    rfl

/-! ## The buffer -/

/-- **`strchr`** finds the end of the first line, or there is none before a NUL. -/
theorem strchr_spec (h : Holds buf p (t ++ [0])) (hn : t.length < n) :
    (∃ line rest, t = line ++ newline :: rest ∧ newline ∉ line ∧ 0 ∉ line ∧
      strchr buf newline n p = some (p + line.length)) ∨ strchr buf newline n p = none ∧ Blocked t := by
  induction t generalizing p n with
  | nil =>
    obtain ⟨n, rfl⟩ := Nat.exists_eq_add_of_lt hn
    refine .inr ⟨if_pos h.head.1, fun line rest hnil => ?_⟩
    simp at hnil
  | cons c t ih =>
    obtain ⟨n, rfl⟩ : ∃ k, n = k + 1 := ⟨n - 1, by omega⟩
    obtain ⟨hc, htail⟩ := Holds.head (l := t ++ [0]) h
    unfold strchr
    rw [hc]
    by_cases h0 : c = 0
    · refine .inr ⟨if_pos h0, fun line rest hsplit => ?_⟩
      cases line with
      | nil =>
        rw [List.nil_append, List.cons.injEq] at hsplit
        exact absurd (h0.symm.trans hsplit.1) (by decide)
      | cons d line =>
        rw [List.cons_append, List.cons.injEq] at hsplit
        rw [← hsplit.1, h0]
        exact List.mem_cons_self
    rw [if_neg h0]
    by_cases hnl : c = newline
    · exact .inl ⟨[], t, by rw [hnl, List.nil_append], by simp, by simp, by rw [if_pos hnl]; rfl⟩
    rw [if_neg hnl]
    rcases ih htail (by simpa using hn) with ⟨line, rest, rfl, h1, h2, hs⟩ | ⟨hs, hb⟩
    · refine .inl ⟨c :: line, rest, rfl, ?_, ?_, by rw [hs, List.length_cons]; congr 1; omega⟩
      · simpa [h1] using fun h : newline = c => hnl h.symm
      · simpa [h2] using fun h : 0 = c => h0 h.symm
    refine .inr ⟨hs, fun line rest hsplit => ?_⟩
    cases line with
    | nil =>
      rw [List.nil_append, List.cons.injEq] at hsplit
      exact absurd hsplit.1 hnl
    | cons d line =>
      rw [List.cons_append, List.cons.injEq] at hsplit
      exact List.mem_cons_of_mem _ (hb line rest hsplit.2)

/-- **One line**: the newline is overwritten and put back, and the line is written if it is accepted. -/
theorem matchLine_run (h : Holds s.buf p (line ++ newline :: rest)) (hnul : 0 ∉ line)
    (hlen : p + line.length < BUFSIZE) : matchLine accepts p (p + line.length) s =
      .ok ((), { s with out := s.out ++ if accepts line then line ++ [newline] else [] }) := by
  obtain ⟨hq, -⟩ := h.right.head
  -- the newline is put back
  have hback : ∀ b : Ram, (∀ x, x ≠ p + line.length → b x = s.buf x) → b.write (p + line.length) [newline] = s.buf := by
    intro b hb
    funext x
    by_cases hx : x = p + line.length
    · rw [hx, hq]
      exact Ram.write_in (k := 0) [newline] (by simp)
    · rw [Ram.write_out _ (by simp; omega), hb x hx]
  have hout : ∀ x, x ≠ p + line.length → s.buf.write (p + line.length) [0] x = s.buf x := fun x hx =>
    Ram.write_out _ (by simp; omega)
  have hstring : stringAt (s.buf.write (p + line.length) [0]) p = line := by
    have hold : Holds (s.buf.write (p + line.length) [0]) p (line ++ [0]) :=
      (h.left.write (.inl le_rfl)).append (holds_write _ _ _)
    generalize s.buf.write (p + line.length) [0] = b at hold
    have hr := hold.read
    unfold stringAt
    rw [show BUFSIZE - p = (line ++ [0]).length + (BUFSIZE - p - (line.length + 1)) by simp; omega, read_add, hr,
      List.append_assoc, List.takeWhile_append_of_pos fun c hc => by simpa using fun h0 : c = 0 => hnul (h0 ▸ hc)]
    simp
  have hread : s.buf.read p (p + line.length + 1 - p) = line ++ [newline] := by
    have hold : Holds s.buf p (line ++ [newline]) :=
      (show Holds s.buf p ((line ++ [newline]) ++ rest) by rw [List.append_assoc]; exact h).left
    rw [show p + line.length + 1 - p = (line ++ [newline]).length by simp; omega]
    exact hold.read
  have hput : ∀ (u : St) (c : UInt8), putBuf (p + line.length) [c] u =
      .ok ((), { u with buf := u.buf.write (p + line.length) [c] }) := fun u c => by
    unfold putBuf
    rw [if_pos (by simpa using hlen)]
    rfl
  unfold matchLine
  rw [bind_ok (hput _ 0), bind_ok (a := _) (t := _) rfl]
  dsimp only
  rw [hstring]
  by_cases hacc : accepts line = true
  · rw [if_pos hacc, if_pos hacc, bind_ok (hput _ newline)]
    dsimp only
    rw [hback _ hout, bind_ok (a := ()) (t := { s with out := s.out ++ s.buf.read p (p + line.length + 1 - p) }) rfl,
      hput, hread]
    dsimp only
    rw [hback _ fun _ _ => rfl]
  · rw [if_neg hacc, if_neg hacc, hput, List.append_nil]
    dsimp only
    rw [hback _ hout]

/-- **The loop over the lines**: what is left is a line that is not complete, and what has been written is right for
every rest of the input. -/
theorem lineLoop_run (accepts : List UInt8 → Bool) (h : Holds s.buf p (t ++ [0])) (hlen : p + t.length < BUFSIZE)
    (hn : t.length < n) :
    ∃ p' t' o, lineLoop accepts n p s = .ok (p', { s with out := s.out ++ o }) ∧ Holds s.buf p' t' ∧
      p' + t'.length = p + t.length ∧ Blocked t' ∧
      ∀ r, selected accepts (t ++ r) = o ++ selected accepts (t' ++ r) := by
  induction n generalizing p t s with
  | zero => omega
  | succ n ih =>
    rcases strchr_spec (n := BUFSIZE) h (by omega) with ⟨line, rest, rfl, hline, hnul, hs⟩ | ⟨hs, hb⟩
    · rw [List.length_append, List.length_cons] at hlen hn
      rw [List.append_assoc, List.cons_append] at h
      have hfits : fits line = true := by
        simp only [fits, Bool.and_eq_true, decide_eq_true_eq, Bool.not_eq_true', List.contains_eq_mem]
        exact ⟨by omega, by simpa using hnul⟩
      have hnext : Holds s.buf (p + line.length + 1) (rest ++ [0]) := h.right.head.2
      obtain ⟨p', t', o, hrun, hold, hsum, hb, hsel⟩ := ih (p := p + line.length + 1) (t := rest)
        (s := { s with out := s.out ++ if accepts line then line ++ [newline] else [] }) hnext (by omega) (by omega)
      refine ⟨p', t', (if accepts line then line ++ [newline] else []) ++ o, ?_, hold, ?_, hb, fun r => ?_⟩
      · unfold lineLoop
        rw [bind_ok (a := s) (t := s) rfl, hs]
        dsimp only
        rw [bind_ok (matchLine_run h hnul (by omega)), hrun, List.append_assoc]
      · rw [hsum, List.length_append, List.length_cons]
        omega
      · rw [List.append_assoc, List.cons_append, selected_line hline, if_pos hfits, hsel, List.append_assoc]
    · refine ⟨p, t, [], ?_, h.left, rfl, hb, fun r => rfl⟩
      unfold lineLoop
      rw [bind_ok (a := s) (t := s) rfl, hs, List.append_nil]
      rfl

/-- the loop over the reads, with the part t of a line in the buffer -/
theorem grepLoop_run (hpos : ∀ i, 0 < size i) (h : Holds s.buf 0 t) (hm : s.m = t.length) (ht : t.length < BUFSIZE)
    (hb : Blocked t) (hn : s.input.length < n) : ∃ u, grepLoop accepts size n i s = .ok ((), u) ∧
      u.out = s.out ++ selected accepts (t ++ s.input) := by
  induction n generalizing s t i with
  | zero => omega
  | succ n ih =>
    have hk := hpos i
    have hread : readBuf (size i) (BUFSIZE - s.m - 1) s = .ok ((s.input.take (min (size i) (BUFSIZE - s.m - 1))).length,
        { s with
          buf := s.buf.write s.m (s.input.take (min (size i) (BUFSIZE - s.m - 1)))
          input := s.input.drop (min (size i) (BUFSIZE - s.m - 1)) }) := by
      unfold readBuf putBuf
      rw [bind_ok (a := s) (t := s) rfl, if_pos (by rw [List.length_take]; omega)]
      rfl
    generalize hK : min (size i) (BUFSIZE - s.m - 1) = k at hread
    have hcat := List.take_append_drop k s.input
    have hlen : (s.input.take k).length = min k s.input.length := List.length_take
    generalize s.input.take k = l, s.input.drop k = r at hread hcat hlen
    have hrest : l.length + r.length = s.input.length := by rw [← hcat, List.length_append]
    unfold grepLoop
    rw [bind_ok (a := s) (t := s) rfl, bind_ok hread]
    by_cases h0 : l.length = 0
    · -- the buffer is full or the file ends
      rw [if_pos h0]
      refine ⟨_, rfl, ?_⟩
      rw [selected_blocked hb, List.append_nil]
      rcases Nat.eq_zero_or_pos s.input.length with h1 | h1
      · exact .inr (List.length_eq_zero_iff.mp h1)
      · exact .inl (by omega)
    · have hsum : s.m + l.length < BUFSIZE := by omega
      have hput : ∀ u : St, putBuf (s.m + l.length) [0] u =
          .ok ((), { u with buf := u.buf.write (s.m + l.length) [0] }) := fun u => by
        unfold putBuf
        rw [if_pos (by simpa using hsum)]
        rfl
      generalize hbuf : (s.buf.write s.m l).write (s.m + l.length) [0] = b
      have hold : Holds b 0 ((t ++ l) ++ [0]) := by
        have hl' : Holds (s.buf.write s.m l) 0 (t ++ l) :=
          (h.write (.inl (by omega))).append (by rw [Nat.zero_add, ← hm]; exact holds_write _ _ _)
        rw [← hbuf]
        refine (hl'.write (.inl (by rw [List.length_append]; omega))).append ?_
        rw [List.length_append, ← hm, Nat.zero_add]
        exact holds_write _ _ _
      have hlt : (t ++ l).length < BUFSIZE := by rw [List.length_append]; omega
      obtain ⟨p', t', o, hrun, hold', hp', hb', hsel⟩ := lineLoop_run accepts (n := BUFSIZE) (s := { s with
        buf := b
        input := r }) hold (by omega) hlt
      have hm' : s.m + l.length - p' = t'.length := by
        rw [List.length_append] at hp'
        omega
      have hmove : Holds (b.copy 0 p' t'.length) 0 t' := fun j hj => by
        rw [Nat.zero_add, Ram.copy_in (Nat.zero_le j) (by omega), Nat.sub_zero]
        exact hold' j hj
      obtain ⟨u, hu, hout⟩ := ih (i := i + 1) (t := t') (s := ⟨b.copy 0 p' t'.length, t'.length, r,
        s.out ++ o⟩) hmove rfl (by omega) hb' (by show r.length < n; omega)
      refine ⟨u, ?_, ?_⟩
      · rw [if_neg h0, bind_ok (hput _)]
        dsimp only
        rw [hbuf, bind_ok hrun, hm', bind_ok (a := ()) (t := ⟨b.copy 0 p' t'.length, s.m, r, s.out ++ o⟩)
          (by unfold moveBuf; rw [if_pos (by omega)]; rfl), bind_ok (a := ()) (t := _) rfl]
        exact hu
      · rw [hout, List.append_assoc, ← hsel, List.append_assoc, hcat]

/-- **The output of grep does not depend on how the input is read.** -/
theorem grep_chunks (accepts : List UInt8 → Bool) (size : ℕ → ℕ) (hpos : ∀ i, 0 < size i) (buf : Ram)
    (input : List UInt8) (n : ℕ) (hn : input.length < n) :
    ∃ t, grepLoop accepts size n 0 ⟨buf, 0, input, []⟩ = .ok ((), t) ∧ t.out = selected accepts input :=
  grepLoop_run (t := []) hpos (fun _ hi => absurd hi (by simp)) rfl (by decide) (fun _ _ hnil => by simp at hnil) hn

/-- "a\nb", one byte at a time -/
theorem grep_chunks_bytewise :
    ∃ t, grepLoop (fun _ => true) (fun _ => 1) 4 0 ⟨fun _ => 0, 0, [0x61, newline, 0x62], []⟩ = .ok ((), t) ∧
      t.out = [0x61, newline] := by
  obtain ⟨t, hrun, hout⟩ := grep_chunks (fun _ => true) (fun _ => 1) (fun _ => Nat.one_pos) (fun _ => 0)
    [0x61, newline, 0x62] 4 (by decide)
  exact ⟨t, hrun, hout.trans (by decide)⟩

end Xv6.Grep
