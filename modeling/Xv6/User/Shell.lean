/-
The parser of the shell (user/sh.c).

A pointer into the line is the list of the bytes from there to its end, and `*s` at the end is the NUL. `struct cmd`s
are trees; memory for them is always there. The functions recurse and loop without a bound, so they take one here, and
using it up is an error of its own.

- `parsecmd_exact`: `parsecmd` returns a tree if and only if the tokens of the line derive it, and otherwise ends with a
  message; it never runs on.
- `nulterminate_strings`: the terminators leave the words of the tree as strings in the line.
-/
import Mathlib.Data.List.TakeWhile
import Xv6.Core.Hoare
import Xv6.Core.Ram
import Xv6.Param

namespace Xv6.Shell

open Xv6.Core

/-! ## The source -/

def MAXARGS : ℕ := 10

/-- the modes of the redirections; O_RDONLY is 0 -/
def O_RDONLY : ℕ := 0
def truncating : ℕ := 2 ^ O_WRONLY ||| 2 ^ O_CREATE ||| 2 ^ O_TRUNC
def appending : ℕ := 2 ^ O_WRONLY ||| 2 ^ O_CREATE ||| 2 ^ O_APPEND

abbrev ch (c : Char) : UInt8 := c.toNat.toUInt8

/-- where a word begins and where it ends: q and eq -/
structure Span where
  q : List UInt8
  eq : List UInt8
deriving DecidableEq, Repr

inductive Cmd where
  | exec (argv : List Span)
  | redir (cmd : Cmd) (file : Span) (mode fd : ℕ)
  | pipe (left right : Cmd)
  | list (left right : Cmd)
  | back (cmd : Cmd)
deriving Repr

inductive Panic where
  | badSyntax
  | missingParen
  | missingFile
  | parseblock
  | tooManyArgs
  /-- the bound is used up -/
  | endless
deriving DecidableEq, Repr

abbrev ShM := StateT (List UInt8) (Except Panic)

def whitespace : List UInt8 := [0x20, 0x09, 0x0d, 0x0a, 0x0b]
def symbols : List UInt8 := [ch '<', ch '|', ch '>', ch '&', ch ';', ch '(', ch ')']

def skip (s : List UInt8) : List UInt8 := s.dropWhile (whitespace.contains ·)

def wordChar (c : UInt8) : Bool := !whitespace.contains c && !symbols.contains c

/-- the token and its end: `gettoken` without the whitespace on both sides. '+' stands for ">>" and 'a' for a word. -/
def scan : List UInt8 → UInt8 × List UInt8
  | [] => (0, [])
  | c :: s =>
    if c ∈ [ch '|', ch '(', ch ')', ch ';', ch '&', ch '<'] then (c, s)
    else if c = ch '>' then if s.head? = some (ch '>') then (ch '+', s.tail) else (c, s)
    else (ch 'a', (c :: s).dropWhile wordChar)

def gettoken : ShM (UInt8 × Span) := do
  let q := skip (← get)
  let (ret, eq) := scan q
  set (skip eq)
  return (ret, ⟨q, eq⟩)

def peek (toks : List UInt8) : ShM Bool := do
  let s := skip (← get)
  set s
  return s.head?.any (toks.contains ·)

/-- what `redircmd` is called with, but for the command -/
structure Redir where
  file : Span
  mode : ℕ
  fd : ℕ
deriving DecidableEq, Repr

/-- the case of the token in `parseredirs` -/
def redirOf (tok : UInt8) (file : Span) : Redir :=
  if tok = ch '<' then ⟨file, O_RDONLY, 0⟩
  else if tok = ch '>' then ⟨file, truncating, 1⟩
  else ⟨file, appending, 1⟩

/-- the redirections in their order; the last one is the outermost -/
def wrap (cmd : Cmd) (rs : List Redir) : Cmd := rs.foldl (fun c r => .redir c r.file r.mode r.fd) cmd

/-- the redirections that `parseredirs` puts around its command -/
def parseredirs : ℕ → ShM (List Redir)
  | 0 => throw .endless
  | n + 1 => do
    if ← peek [ch '<', ch '>'] then do
      let (tok, _) ← gettoken
      let (w, file) ← gettoken
      if w ≠ ch 'a' then throw .missingFile
      else return redirOf tok file :: (← parseredirs n)
    else return []

/-- the loop of `parseexec`: the further words and redirections, after argc words -/
def argLoop : ℕ → ℕ → ShM (List Span × List Redir)
  | 0, _ => throw .endless
  | n + 1, argc => do
    if ← peek [ch '|', ch ')', ch '&', ch ';'] then return ([], [])
    else do
      let (tok, w) ← gettoken
      if tok = 0 then return ([], [])
      else if tok ≠ ch 'a' then throw .badSyntax
      else if argc + 1 ≥ MAXARGS then throw .tooManyArgs
      else do
        let rs ← parseredirs n
        let (argv, rs') ← argLoop n (argc + 1)
        return (w :: argv, rs ++ rs')

/-- the loop of `parseline` over '&' -/
def ampLoop : ℕ → Cmd → ShM Cmd
  | 0, _ => throw .endless
  | n + 1, cmd => do
    if ← peek [ch '&'] then do
      let _ ← gettoken
      ampLoop n (.back cmd)
    else return cmd

mutual

def parseline : ℕ → ShM Cmd
  | 0 => throw .endless
  | n + 1 => do
    let cmd ← parsepipe n
    let cmd ← ampLoop n cmd
    if ← peek [ch ';'] then do
      let _ ← gettoken
      return .list cmd (← parseline n)
    else return cmd

def parsepipe : ℕ → ShM Cmd
  | 0 => throw .endless
  | n + 1 => do
    let cmd ← parseexec n
    if ← peek [ch '|'] then do
      let _ ← gettoken
      return .pipe cmd (← parsepipe n)
    else return cmd

def parseblock : ℕ → ShM Cmd
  | 0 => throw .endless
  | n + 1 => do
    if ← peek [ch '('] then do
      let _ ← gettoken
      let cmd ← parseline n
      if ← peek [ch ')'] then do
        let _ ← gettoken
        return wrap cmd (← parseredirs n)
      else throw .missingParen
    else throw .parseblock

def parseexec : ℕ → ShM Cmd
  | 0 => throw .endless
  | n + 1 => do
    if ← peek [ch '('] then parseblock n
    else do
      let rs ← parseredirs n
      let (argv, rs') ← argLoop n 0
      return wrap (.exec argv) (rs ++ rs')

end

/-- `parsecmd` before `nulterminate`, on the string in a buffer -/
def parsecmd (n : ℕ) (buf : List UInt8) : Except Panic Cmd := do
  let (cmd, s) ← parseline n (buf.takeWhile (· ≠ 0))
  let (_, s) ← peek [] s
  if s ≠ [] then throw .badSyntax else return cmd

/-! ## Tokens -/

inductive Tok where
  | lt
  | gt
  | append
  | bar
  | amp
  | semi
  | lparen
  | rparen
  | word (w : Span)
deriving DecidableEq, Repr

/-- the operator of one character -/
def opOf (c : UInt8) : Tok :=
  if c = ch '<' then .lt else if c = ch '>' then .gt else if c = ch '|' then .bar else if c = ch '&' then .amp
  else if c = ch ';' then .semi else if c = ch '(' then .lparen else .rparen

/-- the first token of a line that does not begin with whitespace, and the rest; a word is as long as possible, and so
is ">>" -/
def lex : List UInt8 → Option (Tok × List UInt8)
  | [] => none
  | c :: s =>
    if wordChar c then some (.word ⟨c :: s, s.dropWhile wordChar⟩, s.dropWhile wordChar)
    else if c = ch '>' ∧ s.head? = some (ch '>') then some (.append, s.tail)
    else some (opOf c, s)

variable {s s' u : List UInt8} {t : Tok} {ts us : List Tok} {toks toks' buf : List UInt8} {c : UInt8} {n k : ℕ}
  {w : Span} {cmd : Cmd} {rs : List Redir} {argv : List Span}

theorem dropWhile_le (f : UInt8 → Bool) (s : List UInt8) : (s.dropWhile f).length ≤ s.length :=
  (List.dropWhile_suffix f).length_le

theorem lex_lt (h : lex s = some (t, u)) : u.length < s.length := by
  cases s with
  | nil => cases h
  | cons c s =>
    have := dropWhile_le wordChar s
    rw [lex] at h
    split_ifs at h <;> cases h
    · simpa using Nat.lt_succ_of_le this
    · simp
    · simp

/-- the tokens of a line -/
def tokens (s : List UInt8) : List Tok :=
  match h : lex (skip s) with
  | none => []
  | some (t, u) =>
    have : u.length < s.length := (lex_lt h).trans_le (dropWhile_le _ s)
    t :: tokens u
termination_by s.length

theorem tokens_none (h : lex (skip s) = none) : tokens s = [] := by
  rw [tokens]
  split <;> simp_all

theorem tokens_some (h : lex (skip s) = some (t, u)) : tokens s = t :: tokens u := by
  rw [tokens]
  split <;> simp_all

theorem skip_skip (s : List UInt8) : skip (skip s) = skip s := by
  unfold skip
  induction s with
  | nil => rfl
  | cons c s ih =>
    rw [List.dropWhile_cons]
    split_ifs with h
    · exact ih
    · rw [List.dropWhile_cons, if_neg h]

theorem tokens_skip (s : List UInt8) : tokens (skip s) = tokens s := by
  cases h : lex (skip s) with
  | none => rw [tokens_none h, tokens_none (by rwa [skip_skip])]
  | some p => rw [tokens_some h, tokens_some (by rwa [skip_skip])]

/-- what `gettoken` returns for a token -/
def Tok.code : Tok → UInt8
  | .lt => ch '<'
  | .gt => ch '>'
  | .append => ch '+'
  | .bar => ch '|'
  | .amp => ch '&'
  | .semi => ch ';'
  | .lparen => ch '('
  | .rparen => ch ')'
  | .word _ => ch 'a'

/-- the character that `peek` compares, if it is an operator -/
def Tok.first : Tok → Option UInt8
  | .append => some (ch '>')
  | .word _ => none
  | t => some t.code

/-- does the first token begin with one of the characters? -/
def sees (toks : List UInt8) (ts : List Tok) : Bool := ts.head?.any fun t => t.first.any (toks.contains ·)

theorem skip_head (h : skip s = c :: u) : whitespace.contains c = false := by
  have := List.head?_dropWhile_not (whitespace.contains ·) s
  unfold skip at h
  rw [h] at this
  simpa using this

theorem symbol_of (hs : whitespace.contains c = false) (hw : wordChar c = false) : c ∈ symbols := by
  unfold wordChar at hw
  rw [hs] at hw
  simpa using hw

/-- **What `gettoken` and `peek` see** at a token. -/
theorem lex_scan (hs : skip s = c :: u) : ∃ t r, lex (c :: u) = some (t, r) ∧ scan (c :: u) = (t.code, r) ∧
    (∀ w, t = .word w → w = ⟨c :: u, r⟩) ∧ ∀ d ∈ symbols, (some d = t.first ↔ d = c) := by
  by_cases hw : wordChar c = true
  · have hne : c ∉ symbols := fun h => by simp [wordChar, h] at hw
    refine ⟨_, _, by rw [lex, if_pos hw], ?_, fun w hw => (by cases hw; rfl), fun d hd => ?_⟩
    · have hop : c ∉ [ch '|', ch '(', ch ')', ch ';', ch '&', ch '<'] := fun h =>
        hne (by revert h; simp [symbols]; tauto)
      rw [scan, if_neg hop, if_neg (fun h => hne (by simp [symbols, h])), List.dropWhile_cons, if_pos hw]
      rfl
    · constructor
      · simp [Tok.first]
      · rintro rfl
        exact absurd hd hne
  · have hc := symbol_of (skip_head hs) (by simpa using hw)
    rw [lex, if_neg hw]
    by_cases happ : c = ch '>' ∧ u.head? = some (ch '>')
    · refine ⟨.append, u.tail, by rw [if_pos happ], ?_, fun w hw => (by cases hw), fun d _ => ?_⟩
      · rw [scan, happ.1, if_neg (by decide), if_pos rfl, if_pos happ.2]
        rfl
      · rw [happ.1]
        simp [Tok.first]
    · refine ⟨opOf c, u, by rw [if_neg happ], ?_, ?_, ?_⟩
      · simp only [symbols, List.mem_cons, List.not_mem_nil, or_false] at hc
        rcases hc with rfl | rfl | rfl | rfl | rfl | rfl | rfl
        all_goals first | rfl | (rw [scan, if_neg (by decide), if_pos rfl, if_neg fun h => happ ⟨rfl, h⟩]; rfl)
      · simp only [symbols, List.mem_cons, List.not_mem_nil, or_false] at hc
        rcases hc with rfl | rfl | rfl | rfl | rfl | rfl | rfl <;> intro w hw <;> cases hw
      · simp only [symbols, List.mem_cons, List.not_mem_nil, or_false] at hc
        rcases hc with rfl | rfl | rfl | rfl | rfl | rfl | rfl <;>
          simp only [symbols, List.forall_mem_cons, List.not_mem_nil, false_implies, implies_true, and_true] <;> decide

theorem peek_run (h : toks.all symbols.contains = true) : peek toks s = .ok (sees toks (tokens s), skip s) := by
  cases hs : skip s with
  | nil =>
    show Except.ok ((skip s).head?.any (toks.contains ·), skip s) = _
    rw [tokens_none (by rw [hs]; rfl), hs]
    rfl
  | cons c u =>
    obtain ⟨t, r, hl, -, -, hf⟩ := lex_scan hs
    show Except.ok ((skip s).head?.any (toks.contains ·), skip s) = _
    rw [tokens_some (by rw [hs]; exact hl), hs]
    refine congrArg (fun b => Except.ok (b, c :: u)) ?_
    rw [Bool.eq_iff_iff]
    simp only [List.head?_cons, Option.any_some, List.contains_eq_mem, decide_eq_true_eq, sees, Option.any_eq_true]
    have h : ∀ c ∈ toks, c ∈ symbols := by simpa using h
    constructor
    · intro hc
      exact ⟨c, ((hf c (h c hc)).mpr rfl).symm, hc⟩
    · rintro ⟨d, hd, hmem⟩
      rwa [(hf d (h d hmem)).mp hd.symm] at hmem

theorem gettoken_nil (h : tokens s = []) : ∃ q, gettoken s = .ok ((0, q), []) := by
  cases hs : skip s with
  | nil =>
    refine ⟨⟨[], []⟩, ?_⟩
    show Except.ok (((scan (skip s)).1, (⟨skip s, (scan (skip s)).2⟩ : Span)), skip (scan (skip s)).2) = _
    rw [hs]
    rfl
  | cons c u =>
    obtain ⟨t, r, hl, -⟩ := lex_scan hs
    rw [tokens_some (by rw [hs]; exact hl)] at h
    cases h

theorem gettoken_cons (h : tokens s = t :: ts) : ∃ q s', gettoken s = .ok ((t.code, q), s') ∧ tokens s' = ts ∧
    ∀ w, t = .word w → q = w := by
  cases hs : skip s with
  | nil =>
    rw [tokens_none (by rw [hs]; rfl)] at h
    cases h
  | cons c u =>
    obtain ⟨t', r, hl, hsc, hw, -⟩ := lex_scan hs
    rw [tokens_some (by rw [hs]; exact hl)] at h
    cases h
    refine ⟨⟨c :: u, r⟩, skip r, ?_, tokens_skip r, fun w ht => (hw w ht).symm⟩
    show Except.ok (((scan (skip s)).1, (⟨skip s, (scan (skip s)).2⟩ : Span)), skip (scan (skip s)).2) = _
    rw [hs, hsc]

/-! ## The grammar -/

/-- how the file of a redirection is opened: the mode, and the descriptor -/
def Tok.mode : Tok → Option (ℕ × ℕ)
  | .lt => some (O_RDONLY, 0)
  | .gt => some (truncating, 1)
  | .append => some (appending, 1)
  | _ => none

/-- redir* -/
inductive Redirs : List Tok → List Redir → Prop
  | nil : Redirs [] []
  | cons {t : Tok} {ts : List Tok} {w : Span} {mode fd : ℕ} {rs : List Redir} (hm : t.mode = some (mode, fd))
    (h : Redirs ts rs) : Redirs (t :: .word w :: ts) (⟨w, mode, fd⟩ :: rs)

/-- (word redir*)* -/
inductive Words : List Tok → List Span → List Redir → Prop
  | nil : Words [] [] []
  | cons {ts us : List Tok} {w : Span} {argv : List Span} {rs rs' : List Redir} (hr : Redirs ts rs)
    (h : Words us argv rs') : Words (.word w :: (ts ++ us)) (w :: argv) (rs ++ rs')

mutual

/-- pipe '&'* [';' line] -/
inductive Line : List Tok → Cmd → Prop
  | last {ts : List Tok} {c : Cmd} (k : ℕ) (h : Pipe ts c) : Line (ts ++ List.replicate k .amp) (Cmd.back^[k] c)
  | more {ts us : List Tok} {c d : Cmd} (k : ℕ) (h : Pipe ts c) (h' : Line us d) :
    Line (ts ++ (List.replicate k .amp ++ .semi :: us)) (.list (Cmd.back^[k] c) d)

/-- exec ['|' pipe] -/
inductive Pipe : List Tok → Cmd → Prop
  | last {ts : List Tok} {c : Cmd} (h : Exec ts c) : Pipe ts c
  | more {ts us : List Tok} {c d : Cmd} (h : Exec ts c) (h' : Pipe us d) : Pipe (ts ++ .bar :: us) (.pipe c d)

/-- '(' line ')' redir*, or redir* (word redir*)* with fewer than MAXARGS words -/
inductive Exec : List Tok → Cmd → Prop
  | block {ts us : List Tok} {c : Cmd} {rs : List Redir} (h : Line ts c) (hr : Redirs us rs) :
    Exec (.lparen :: (ts ++ .rparen :: us)) (wrap c rs)
  | words {ts us : List Tok} {argv : List Span} {rs rs' : List Redir} (hr : Redirs ts rs) (h : Words us argv rs')
    (hlt : argv.length < MAXARGS) : Exec (ts ++ us) (wrap (.exec argv) (rs ++ rs'))

end

theorem redirOf_code {mode fd : ℕ} (h : t.mode = some (mode, fd)) : redirOf t.code w = ⟨w, mode, fd⟩ := by
  cases t <;> cases h <;> rfl

theorem code_word (h : t.code = ch 'a') : ∃ w, t = .word w := by
  cases t with
  | word w => exact ⟨w, rfl⟩
  | _ => exact absurd h (by decide)

theorem code_ne_zero (t : Tok) : t.code ≠ 0 := by
  cases t with
  | word w => exact (by decide : ch 'a' ≠ 0)
  | _ => decide

theorem sees_cons (h : sees toks ts = true) : ∃ t us, ts = t :: us ∧ t.first.any (toks.contains ·) = true := by
  cases ts with
  | nil => cases h
  | cons t us => exact ⟨t, us, rfl, h⟩

theorem sees_redir (h : sees [ch '<', ch '>'] ts = true) :
    ∃ t us mode fd, ts = t :: us ∧ t.mode = some (mode, fd) := by
  obtain ⟨t, us, rfl, ht⟩ := sees_cons h
  cases t with
  | lt => exact ⟨_, us, _, _, rfl, rfl⟩
  | gt => exact ⟨_, us, _, _, rfl, rfl⟩
  | append => exact ⟨_, us, _, _, rfl, rfl⟩
  | word w => cases ht
  | _ => exact absurd ht (by decide)

theorem sees_op (t : Tok) (ht : t ∈ [Tok.bar, .amp, .semi, .lparen, .rparen]) (h : sees [t.code] ts = true) :
    ∃ us, ts = t :: us := by
  obtain ⟨t', us, rfl, ht'⟩ := sees_cons h
  refine ⟨us, congrArg (· :: us) ?_⟩
  simp only [List.mem_cons, List.not_mem_nil, or_false] at ht
  rcases ht with rfl | rfl | rfl | rfl | rfl <;> cases t' <;> first | rfl | cases ht'

/-! ## Programs over tokens -/

section

variable {α β : Type} {m : ShM α} {f : α → ShM β} {a : α} {Q : α → List Tok → Prop} {R : β → List Tok → Prop}
  {E : Panic → Prop}

/-- what m does on a line with tokens ts: it returns a result and a rest of the tokens with `Q`, or it fails -/
def Parses (m : ShM α) (ts : List Tok) (Q : α → List Tok → Prop) (E : Panic → Prop) : Prop :=
  ∀ s, tokens s = ts → Spec m s (fun a s' => Q a (tokens s')) E

theorem Parses.pure (h : Q a ts) : Parses (pure a) ts Q E := fun _ hs => Spec.pure (by rwa [hs])

theorem Parses.throw {e : Panic} (h : E e) : Parses (throw e : ShM α) ts Q E := fun _ _ => Spec.throw h

theorem Parses.ite {c : Prop} [Decidable c] {m' : ShM α} (h : c → Parses m ts Q E) (h' : ¬ c → Parses m' ts Q E) :
    Parses (if c then m else m') ts Q E :=
  fun s hs => Spec.ite (fun hc => h hc s hs) fun hc => h' hc s hs

theorem Parses.bind (hm : Parses m ts Q E) (hf : ∀ a us, Q a us → Parses (f a) us R E) : Parses (m >>= f) ts R E :=
  fun s hs => Spec.bind (hm s hs) fun a s' ha => hf a _ ha s' rfl

theorem Parses.peek {f : Bool → ShM β} (h : toks.all symbols.contains = true) (hf : Parses (f (sees toks ts)) ts R E) :
    Parses (peek toks >>= f) ts R E := fun s hs => by
  refine Spec.bind_ok (peek_run h) ?_
  rw [hs]
  exact hf _ (by rw [tokens_skip, hs])

theorem Parses.token {f : UInt8 × Span → ShM β} (hf : ∀ q, (∀ w, t = .word w → q = w) → Parses (f (t.code, q)) ts R E) :
    Parses (gettoken >>= f) (t :: ts) R E := fun s hs => by
  obtain ⟨q, s', hget, hs', hq⟩ := gettoken_cons hs
  exact Spec.bind_ok hget (hf q hq s' hs')

theorem Parses.none {f : UInt8 × Span → ShM β} (hf : ∀ q, Parses (f (0, q)) [] R E) :
    Parses (gettoken >>= f) [] R E := fun s hs => by
  obtain ⟨q, hget⟩ := gettoken_nil hs
  exact Spec.bind_ok hget (hf q [] (tokens_none rfl))

/-- m takes ts up to us, and returns a -/
def Returns (m : ShM α) (ts : List Tok) (a : α) (us : List Tok) : Prop :=
  Parses m ts (fun b vs => b = a ∧ vs = us) fun _ => False

theorem Returns.bind (h : Returns m ts a us) (hf : Parses (f a) us R E) : Parses (m >>= f) ts R E := fun s hs => by
  obtain ⟨_, s', hm, rfl, hs'⟩ := (h s hs).returns
  exact Spec.bind_ok hm (hf s' hs')

end

/-! ## What is returned is derived -/

/-- the messages about the line: not the bound used up, and not the panic of `parseblock` -/
abbrev Message (e : Panic) : Prop := e ≠ .endless ∧ e ≠ .parseblock

/-- the tokens up to the rest have been derived -/
def Parsed {α : Type} (X : List Tok → α → Prop) (ts : List Tok) (a : α) (us : List Tok) : Prop :=
  ∃ vs, ts = vs ++ us ∧ X vs a

theorem Parsed.length_le {α : Type} {X : List Tok → α → Prop} {a : α} (h : Parsed X ts a us) :
    us.length ≤ ts.length := by
  obtain ⟨vs, rfl, -⟩ := h
  rw [List.length_append]
  omega

theorem parseredirs_spec (hn : ts.length < n) : Parses (parseredirs n) ts (Parsed Redirs ts) Message := by
  induction n generalizing ts with
  | zero => omega
  | succ n ih =>
    unfold parseredirs
    refine .peek (by decide) (.ite (fun hsee => ?_) fun _ => .pure ⟨[], rfl, .nil⟩)
    obtain ⟨t, us, mode, fd, rfl, hm⟩ := sees_redir hsee
    refine .token fun _ _ => ?_
    cases us with
    | nil => exact .none fun _ => .throw (by decide)
    | cons t' us =>
      refine .token fun q hq => .ite (fun _ => .throw (by decide)) fun hw => ?_
      obtain ⟨w, rfl⟩ := code_word (not_not.mp hw)
      simp only [List.length_cons] at hn
      refine (ih (by omega)).bind ?_
      rintro rs us ⟨vs, rfl, hr⟩
      rw [redirOf_code hm, hq w rfl]
      exact .pure ⟨t :: .word w :: vs, rfl, .cons hm hr⟩

theorem argLoop_spec {argc : ℕ} (hn : ts.length < n) (hargc : argc < MAXARGS) :
    Parses (argLoop n argc) ts (fun r us => Parsed (fun vs r => Words vs r.1 r.2) ts r us ∧ argc + r.1.length < MAXARGS)
      Message := by
  induction n generalizing ts argc with
  | zero => omega
  | succ n ih =>
    unfold argLoop
    refine .peek (by decide) (.ite (fun _ => .pure ⟨⟨[], rfl, .nil⟩, hargc⟩) fun _ => ?_)
    cases ts with
    | nil => exact .none fun _ => .pure ⟨⟨[], rfl, .nil⟩, hargc⟩
    | cons t us =>
      refine .token fun q hq => .ite (fun h0 => absurd h0 (code_ne_zero t)) fun _ => ?_
      refine .ite (fun _ => .throw (by decide)) fun hw => .ite (fun _ => .throw (by decide)) fun hlt => ?_
      obtain ⟨w, rfl⟩ := code_word (not_not.mp hw)
      simp only [List.length_cons] at hn
      refine (parseredirs_spec (by omega)).bind fun rs us' h => ?_
      have hle := h.length_le
      obtain ⟨vs, rfl, hr⟩ := h
      refine (ih (by omega) (Nat.lt_of_not_le hlt)).bind ?_
      rintro ⟨argv, rs'⟩ us ⟨⟨vs', rfl, hwords⟩, hlen⟩
      rw [hq w rfl]
      refine .pure ⟨⟨.word w :: (vs ++ vs'), by simp, .cons hr hwords⟩, ?_⟩
      show argc + (argv.length + 1) < MAXARGS
      dsimp only at hlen
      omega

theorem ampLoop_spec (hn : ts.length < n) : Parses (ampLoop n cmd) ts
    (Parsed (fun vs c => ∃ k, vs = List.replicate k .amp ∧ c = Cmd.back^[k] cmd) ts) Message := by
  induction n generalizing ts cmd with
  | zero => omega
  | succ n ih =>
    unfold ampLoop
    refine .peek (by decide) (.ite (fun hsee => ?_) fun _ => .pure ⟨[], rfl, 0, rfl, rfl⟩)
    obtain ⟨us, rfl⟩ := sees_op .amp (by decide) hsee
    simp only [List.length_cons] at hn
    refine .token fun _ _ s hs => Spec.post (ih (by omega) s hs) ?_
    rintro c s' ⟨vs, hvs, k, rfl, rfl⟩
    exact ⟨.amp :: List.replicate k .amp, by rw [hvs]; rfl, k + 1, rfl, rfl⟩

theorem parse_spec (n : ℕ) :
    (∀ ts : List Tok, 4 * ts.length + 4 ≤ n → Parses (parseline n) ts (Parsed Line ts) Message) ∧
    (∀ ts : List Tok, 4 * ts.length + 3 ≤ n → Parses (parsepipe n) ts (Parsed Pipe ts) Message) ∧
    (∀ ts : List Tok, 4 * ts.length + 1 ≤ n → sees [ch '('] ts = true →
      Parses (parseblock n) ts (Parsed Exec ts) Message) ∧
    (∀ ts : List Tok, 4 * ts.length + 2 ≤ n → Parses (parseexec n) ts (Parsed Exec ts) Message) := by
  induction n with
  | zero => exact ⟨fun _ h => by omega, fun _ h => by omega, fun _ h => by omega, fun _ h => by omega⟩
  | succ n ih =>
    obtain ⟨hline, hpipe, hblock, hexec⟩ := ih
    refine ⟨fun ts hn => ?_, fun ts hn => ?_, fun ts hn hsee => ?_, fun ts hn => ?_⟩
    · unfold parseline
      refine (hpipe ts (by omega)).bind fun c us h => ?_
      have hle := h.length_le
      obtain ⟨vs, rfl, hp⟩ := h
      refine (ampLoop_spec (by omega)).bind fun c' us' h => ?_
      have hle' := h.length_le
      obtain ⟨-, rfl, k, rfl, rfl⟩ := h
      refine .peek (by decide) (.ite (fun hsee => ?_) fun _ => .pure ⟨_, by simp, .last k hp⟩)
      obtain ⟨us, rfl⟩ := sees_op .semi (by decide) hsee
      simp only [List.length_cons] at hle'
      refine .token fun _ _ => (hline us (by omega)).bind ?_
      rintro d us' ⟨vs', rfl, hl⟩
      exact .pure ⟨_, by simp, .more k hp hl⟩
    · unfold parsepipe
      refine (hexec ts (by omega)).bind fun c us h => ?_
      have hle := h.length_le
      obtain ⟨vs, rfl, he⟩ := h
      refine .peek (by decide) (.ite (fun hsee => ?_) fun _ => .pure ⟨vs, rfl, .last he⟩)
      obtain ⟨us, rfl⟩ := sees_op .bar (by decide) hsee
      simp only [List.length_cons] at hle
      refine .token fun _ _ => (hpipe us (by omega)).bind ?_
      rintro d us' ⟨vs', rfl, hp⟩
      exact .pure ⟨_, by simp, .more he hp⟩
    · unfold parseblock
      refine .peek (by decide) (.ite (fun _ => ?_) fun h => absurd hsee h)
      obtain ⟨us, rfl⟩ := sees_op .lparen (by decide) hsee
      simp only [List.length_cons] at hn
      refine .token fun _ _ => (hline us (by omega)).bind fun c us' h => ?_
      have hle := h.length_le
      obtain ⟨vs, rfl, hl⟩ := h
      refine .peek (by decide) (.ite (fun hsee => ?_) fun _ => .throw (by decide))
      obtain ⟨us, rfl⟩ := sees_op .rparen (by decide) hsee
      simp only [List.length_cons] at hle
      refine .token fun _ _ => (parseredirs_spec (by omega)).bind ?_
      rintro rs us' ⟨vs', rfl, hr⟩
      exact .pure ⟨_, by simp, .block hl hr⟩
    · unfold parseexec
      refine .peek (by decide) (.ite (fun hsee => hblock ts (by omega) hsee) fun _ => ?_)
      refine (parseredirs_spec (by omega)).bind fun rs us h => ?_
      have hle := h.length_le
      obtain ⟨vs, rfl, hr⟩ := h
      refine (argLoop_spec (by omega) (by decide)).bind ?_
      rintro ⟨argv, rs'⟩ us ⟨⟨vs', rfl, hw⟩, hlt⟩
      exact .pure ⟨vs ++ vs', by simp, .words hr hw (by simpa using hlt)⟩

/-! ## What is derived is returned -/

/-- the line ends here, or one of the operators follows -/
def Follows (toks : List UInt8) (us : List Tok) : Prop := us = [] ∨ sees toks us = true

theorem Follows.not_sees (h : Follows toks us)
    (hd : toks.all (fun c => !toks'.contains c) = true) : sees toks' us = false := by
  rcases h with rfl | h
  · rfl
  · obtain ⟨t, us, rfl, ht⟩ := sees_cons h
    obtain ⟨c, hc, hmem⟩ := (Option.any_eq_true _ _).mp ht
    have := List.all_eq_true.mp hd c (by simpa using hmem)
    simp_all [sees]

theorem Follows.mono (h : Follows toks us) (hsub : toks.all toks'.contains = true) :
    Follows toks' us := by
  refine h.imp_right fun h => ?_
  obtain ⟨t, us, rfl, ht⟩ := sees_cons h
  obtain ⟨c, hc, hmem⟩ := (Option.any_eq_true _ _).mp ht
  have := List.all_eq_true.mp hsub c (by simpa using hmem)
  simp_all [sees]

theorem mode_first {mode fd : ℕ} (h : t.mode = some (mode, fd)) : sees [ch '<', ch '>'] (t :: us) = true := by
  cases t <;> first | rfl | cases h

theorem mode_block {mode fd : ℕ} (h : t.mode = some (mode, fd)) : sees [ch '('] (t :: us) = false := by
  cases t <;> first | rfl | cases h

theorem parseredirs_run (h : Redirs ts rs) (hu : sees [ch '<', ch '>'] us = false) (hn : ts.length < n) :
    Returns (parseredirs n) (ts ++ us) rs us := by
  obtain ⟨n, rfl⟩ := Nat.exists_eq_add_one_of_ne_zero (Nat.ne_zero_of_lt hn)
  unfold parseredirs
  refine .peek (by decide) ?_
  induction h generalizing n with
  | nil =>
    rw [List.nil_append, hu]
    exact .pure ⟨rfl, rfl⟩
  | @cons t ts w mode fd rs hm h ih =>
    simp only [List.length_cons] at hn
    obtain ⟨n, rfl⟩ := Nat.exists_eq_add_one_of_ne_zero (show n ≠ 0 by omega)
    rw [List.cons_append, mode_first hm]
    refine .token fun _ _ => .token fun q hq => ?_
    have hrest : Returns (parseredirs (n + 1)) (ts ++ us) rs us := by
      unfold parseredirs
      exact .peek (by decide) (ih n (by omega))
    refine hrest.bind ?_
    rw [redirOf_code hm, hq w rfl]
    exact .pure ⟨rfl, rfl⟩

/-- what an argument or its redirections begin with is not an operator of the grammar above -/
theorem words_head (h : Words ts argv rs) (hu : Follows toks us)
    (hd : toks.all (fun c => !toks'.contains c) = true) : sees toks' (ts ++ us) = false := by
  cases h with
  | nil => exact hu.not_sees hd
  | cons hr h => rfl

theorem argLoop_run {argc : ℕ} (h : Words ts argv rs)
    (hu : Follows [ch '|', ch ')', ch '&', ch ';'] us) (hn : ts.length < n) (hlt : argc + argv.length < MAXARGS) :
    Returns (argLoop n argc) (ts ++ us) (argv, rs) us := by
  induction h generalizing n argc with
  | nil =>
    obtain ⟨n, rfl⟩ := Nat.exists_eq_add_one_of_ne_zero (Nat.ne_zero_of_lt hn)
    unfold argLoop
    refine .peek (by decide) ?_
    rcases hu with rfl | hu
    · exact .none fun _ => .pure ⟨rfl, rfl⟩
    · rw [List.nil_append, hu]
      exact .pure ⟨rfl, rfl⟩
  | @cons ts us' w argv rs rs' hr h ih =>
    simp only [List.length_cons, List.length_append] at hn hlt
    obtain ⟨n, rfl⟩ := Nat.exists_eq_add_one_of_ne_zero (Nat.ne_zero_of_lt hn)
    unfold argLoop
    refine .peek (by decide) (.token fun q hq => .ite (fun h0 => absurd h0 (code_ne_zero _)) fun _ => ?_)
    refine .ite (fun hw => absurd rfl hw) fun _ => .ite (fun hge => by omega) fun _ => ?_
    rw [hq w rfl]
    have hr := parseredirs_run hr (words_head h hu (by decide)) (n := n) (by omega)
    rw [← List.append_assoc] at hr
    exact hr.bind ((ih (by omega) (by omega)).bind (.pure ⟨rfl, rfl⟩))

theorem ampLoop_run (hu : sees [ch '&'] us = false) (hn : k < n) :
    Returns (ampLoop n cmd) (List.replicate k .amp ++ us) (Cmd.back^[k] cmd) us := by
  induction k generalizing n cmd with
  | zero =>
    obtain ⟨n, rfl⟩ := Nat.exists_eq_add_one_of_ne_zero (Nat.ne_zero_of_lt hn)
    unfold ampLoop
    refine .peek (by decide) ?_
    rw [List.replicate_zero, List.nil_append, hu]
    exact .pure ⟨rfl, rfl⟩
  | succ k ih =>
    obtain ⟨n, rfl⟩ := Nat.exists_eq_add_one_of_ne_zero (Nat.ne_zero_of_lt hn)
    unfold ampLoop
    exact .peek (by decide) (.token fun _ _ => ih (by omega))

/-- the '&'s of a line, and then its end -/
theorem follows_amps (h : Follows [ch ')', ch ';'] us) (k : ℕ) :
    Follows [ch ')', ch ';', ch '&'] (List.replicate k .amp ++ us) := by
  cases k with
  | zero => exact h.mono (by decide)
  | succ k => exact .inr rfl

mutual

theorem parseline_run {ts us : List Tok} {n : ℕ} {cmd : Cmd} (h : Line ts cmd) (hu : Follows [ch ')'] us)
    (hn : 4 * ts.length + 4 ≤ n) : Returns (parseline n) (ts ++ us) cmd us := by
  obtain ⟨n, rfl⟩ := Nat.exists_eq_add_one_of_ne_zero (show n ≠ 0 by omega)
  unfold parseline
  cases h with
  | @last ts c k h =>
    simp only [List.length_append, List.length_replicate] at hn
    rw [List.append_assoc]
    refine (parsepipe_run h (follows_amps (hu.mono (by decide)) k) (by omega)).bind ?_
    refine (ampLoop_run (hu.not_sees (by decide)) (by omega)).bind (.peek (by decide) ?_)
    rw [hu.not_sees (by decide)]
    exact .pure ⟨rfl, rfl⟩
  | @more ts us' c d k h h' =>
    simp only [List.length_append, List.length_replicate, List.length_cons] at hn
    rw [List.append_assoc, List.append_assoc]
    refine (parsepipe_run h (follows_amps (.inr rfl) k) (by omega)).bind ?_
    refine (ampLoop_run rfl (by omega)).bind (.peek (by decide) (.token fun _ _ => ?_))
    exact (parseline_run h' hu (by omega)).bind (.pure ⟨rfl, rfl⟩)

theorem parsepipe_run {ts us : List Tok} {n : ℕ} {cmd : Cmd} (h : Pipe ts cmd)
    (hu : Follows [ch ')', ch ';', ch '&'] us) (hn : 4 * ts.length + 3 ≤ n) :
    Returns (parsepipe n) (ts ++ us) cmd us := by
  obtain ⟨n, rfl⟩ := Nat.exists_eq_add_one_of_ne_zero (show n ≠ 0 by omega)
  unfold parsepipe
  cases h with
  | last h =>
    refine (parseexec_run h (hu.mono (by decide)) (by omega)).bind (.peek (by decide) ?_)
    rw [hu.not_sees (by decide)]
    exact .pure ⟨rfl, rfl⟩
  | @more ts us' c d h h' =>
    simp only [List.length_append, List.length_cons] at hn
    rw [List.append_assoc]
    refine (parseexec_run h (.inr rfl) (by omega)).bind (.peek (by decide) (.token fun _ _ => ?_))
    exact (parsepipe_run h' hu (by omega)).bind (.pure ⟨rfl, rfl⟩)

theorem parseexec_run {ts us : List Tok} {n : ℕ} {cmd : Cmd} (h : Exec ts cmd)
    (hu : Follows [ch '|', ch ')', ch '&', ch ';'] us) (hn : 4 * ts.length + 2 ≤ n) :
    Returns (parseexec n) (ts ++ us) cmd us := by
  obtain ⟨n, rfl⟩ := Nat.exists_eq_add_one_of_ne_zero (show n ≠ 0 by omega)
  unfold parseexec
  refine .peek (by decide) ?_
  cases h with
  | @block ts us' c rs h hr =>
    simp only [List.length_append, List.length_cons] at hn
    obtain ⟨n, rfl⟩ := Nat.exists_eq_add_one_of_ne_zero (show n ≠ 0 by omega)
    rw [List.cons_append, List.append_assoc]
    show Returns (parseblock (n + 1)) _ _ _
    unfold parseblock
    refine .peek (by decide) (.token fun _ _ => ?_)
    refine (parseline_run h (.inr rfl) (by omega)).bind (.peek (by decide) (.token fun _ _ => ?_))
    exact (parseredirs_run hr (hu.not_sees (by decide)) (by omega)).bind (.pure ⟨rfl, rfl⟩)
  | @words ts us' argv rs rs' hr h hlt =>
    simp only [List.length_append] at hn
    have hsee : sees [ch '('] (ts ++ (us' ++ us)) = false := by
      cases hr with
      | nil =>
        rw [List.nil_append]
        exact words_head h hu (by decide)
      | cons hm _ => exact mode_block hm
    rw [List.append_assoc, hsee]
    refine (parseredirs_run hr (words_head h hu (by decide)) (by omega)).bind ?_
    exact (argLoop_run h hu (by omega) (by omega)).bind (.pure ⟨rfl, rfl⟩)

end

/-! ## The parser and the grammar -/

theorem tokens_eq_nil : tokens s = [] ↔ skip s = [] := by
  constructor
  · intro h
    cases hs : skip s with
    | nil => rfl
    | cons c u =>
      obtain ⟨t, r, hl, -⟩ := lex_scan hs
      rw [tokens_some (by rw [hs]; exact hl)] at h
      cases h
  · exact fun h => tokens_none (by rw [h]; rfl)

theorem parsecmd_of_error {e : Panic} (h : parseline n (buf.takeWhile (· ≠ 0)) = .error e) :
    parsecmd n buf = .error e := by
  unfold parsecmd
  rw [h]
  rfl

theorem parsecmd_of_ok (h : parseline n (buf.takeWhile (· ≠ 0)) = .ok (cmd, s)) :
    parsecmd n buf = if tokens s = [] then .ok cmd else .error .badSyntax := by
  unfold parsecmd
  rw [h]
  show (if skip s ≠ [] then Except.error Panic.badSyntax else .ok cmd) = _
  simp only [tokens_eq_nil, ne_eq, ite_not]

/-- what `parsecmd` returns is derived from the whole line -/
theorem parsecmd_spec (hn : 4 * (tokens (buf.takeWhile (· ≠ 0))).length + 4 ≤ n) :
    (∃ cmd, parsecmd n buf = .ok cmd ∧ Line (tokens (buf.takeWhile (· ≠ 0))) cmd) ∨
    ∃ e, parsecmd n buf = .error e ∧ Message e := by
  have hspec := (parse_spec n).1 _ hn _ rfl
  cases hl : parseline n (buf.takeWhile (· ≠ 0)) with
  | error e => exact .inr ⟨e, parsecmd_of_error hl, hspec.error hl⟩
  | ok p =>
    obtain ⟨c, s⟩ := p
    obtain ⟨ts, hs, hts⟩ := hspec.ok hl
    rw [parsecmd_of_ok hl]
    split_ifs with hnil
    · rw [hnil, List.append_nil] at hs
      exact .inl ⟨c, rfl, hs ▸ hts⟩
    · exact .inr ⟨.badSyntax, rfl, by decide⟩

/-- what is derived from the whole line is returned -/
theorem parsecmd_run (hn : 4 * (tokens (buf.takeWhile (· ≠ 0))).length + 4 ≤ n)
    (h : Line (tokens (buf.takeWhile (· ≠ 0))) cmd) : parsecmd n buf = .ok cmd := by
  obtain ⟨_, s, hl, rfl, hnil⟩ := (parseline_run h (.inl rfl) hn _ (List.append_nil _).symm).returns
  rw [parsecmd_of_ok hl, if_pos hnil]

/-- **`parsecmd` accepts its grammar.** On every buffer and with a large enough bound it returns a tree if and only if
the tokens of the string derive it; on a string that derives none it ends with one of its messages. -/
theorem parsecmd_exact (buf : List UInt8) : ∃ N, ∀ n ≥ N,
    (∀ cmd, parsecmd n buf = .ok cmd ↔ Line (tokens (buf.takeWhile (· ≠ 0))) cmd) ∧
    ((∀ cmd, ¬ Line (tokens (buf.takeWhile (· ≠ 0))) cmd) → ∃ e, parsecmd n buf = .error e ∧ Message e) := by
  refine ⟨_, fun n hn => ⟨fun cmd => ⟨fun h => ?_, parsecmd_run hn⟩, fun hnone => ?_⟩⟩
  · obtain ⟨c, hc, hl⟩ | ⟨e, he, -⟩ := parsecmd_spec hn
    · rw [hc] at h
      cases h
      exact hl
    · rw [he] at h
      cases h
  · obtain ⟨c, -, hl⟩ | he := parsecmd_spec hn
    · exact absurd hl (hnone c)
    · exact he

/-! ## Strings in the line -/

/-- the address of a pointer into a line of len bytes at a -/
def addr (a len : ℕ) (p : List UInt8) : ℕ := a + (len - p.length)

def nulterminate (a len : ℕ) : Cmd → Ram → Ram
  | .exec argv, m => argv.foldl (fun m w => m.write (addr a len w.eq) [0]) m
  | .redir cmd file _ _, m => (nulterminate a len cmd m).write (addr a len file.eq) [0]
  | .pipe left right, m => nulterminate a len right (nulterminate a len left m)
  | .list left right, m => nulterminate a len right (nulterminate a len left m)
  | .back cmd, m => nulterminate a len cmd m

/-- the arguments and the files of a tree -/
def Cmd.words : Cmd → List Span
  | .exec argv => argv
  | .redir cmd file _ _ => cmd.words ++ [file]
  | .pipe left right => left.words ++ right.words
  | .list left right => left.words ++ right.words
  | .back cmd => cmd.words

def Span.text (w : Span) : List UInt8 := w.q.take (w.q.length - w.eq.length)

/-- the characters of a word, which ends where it has to -/
structure Maximal (line : List UInt8) (w : Span) : Prop where
  suffix : w.q <:+ line
  split : w.q = w.text ++ w.eq
  chars : ∀ c ∈ w.text, wordChar c = true
  stop : ∀ c ∈ w.eq.head?, wordChar c = false

theorem maximal_lex (h : lex s = some (.word w, u)) : Maximal s w := by
  cases s with
  | nil => cases h
  | cons c s =>
    rw [lex] at h
    split_ifs at h with hc happ
    · cases h
      have hsplit : c :: s = (c :: s.takeWhile wordChar) ++ s.dropWhile wordChar := by
        rw [List.cons_append, List.takeWhile_append_dropWhile]
      have htext : Span.text ⟨c :: s, s.dropWhile wordChar⟩ = c :: s.takeWhile wordChar := by
        have hlen := congrArg List.length hsplit
        rw [List.length_append] at hlen
        show List.take ((c :: s).length - (s.dropWhile wordChar).length) (c :: s) = _
        conv_lhs => rw [hlen, hsplit]
        exact List.take_left' (by omega)
      refine ⟨List.suffix_rfl, by rw [htext]; exact hsplit, fun d hd => ?_, fun d hd => ?_⟩
      · rw [htext] at hd
        rcases List.mem_cons.mp hd with rfl | hd
        · exact hc
        · exact List.mem_takeWhile_imp hd
      · have := List.head?_dropWhile_not wordChar s
        rw [hd] at this
        simpa using this
    · cases h
    · simp only [Option.some.injEq, Prod.mk.injEq] at h
      unfold opOf at h
      split_ifs at h <;> cases h.1

theorem lex_suffix (h : lex s = some (t, u)) : u <:+ s := by
  cases s with
  | nil => cases h
  | cons c s =>
    rw [lex] at h
    split_ifs at h <;> cases h
    · exact (List.dropWhile_suffix _).trans (List.suffix_cons c s)
    · exact (List.tail_suffix s).trans (List.suffix_cons c s)
    · exact List.suffix_cons _ _

theorem maximal_of_mem (h : .word w ∈ tokens s) : Maximal s w := by
  induction hn : s.length using Nat.strong_induction_on generalizing s with
  | _ n ih =>
    cases hl : lex (skip s) with
    | none =>
      rw [tokens_none hl] at h
      cases h
    | some p =>
      obtain ⟨t, u⟩ := p
      have hskip : skip s <:+ s := List.dropWhile_suffix _
      rw [tokens_some hl] at h
      rcases List.mem_cons.mp h with rfl | h
      · have hm := maximal_lex hl
        exact { hm with suffix := hm.suffix.trans hskip }
      · have hm := ih u.length (hn ▸ (lex_lt hl).trans_le hskip.length_le) h rfl
        exact { hm with suffix := (hm.suffix.trans (lex_suffix hl)).trans hskip }

theorem words_wrap (c : Cmd) (rs : List Redir) : (wrap c rs).words = c.words ++ rs.map (·.file) := by
  induction rs generalizing c with
  | nil => simp [wrap]
  | cons r rs ih =>
    show (wrap (.redir c r.file r.mode r.fd) rs).words = _
    rw [ih]
    simp [Cmd.words]

theorem words_back (c : Cmd) (k : ℕ) : (Cmd.back^[k] c).words = c.words := by
  induction k generalizing c with
  | zero => rfl
  | succ k ih => exact ih (.back c)

theorem redirs_words (h : Redirs ts rs) : ∀ w ∈ rs.map (·.file), .word w ∈ ts := by
  induction h with
  | nil => simp
  | cons hm h ih =>
    intro w hw
    rcases List.mem_cons.mp hw with rfl | hw
    · simp
    · simp [ih w hw]

theorem words_words (h : Words ts argv rs) : ∀ w ∈ argv ++ rs.map (·.file), .word w ∈ ts := by
  induction h with
  | nil => simp
  | cons hr h ih =>
    intro w hw
    simp only [List.map_append, List.cons_append, List.mem_cons, List.mem_append] at hw ih ⊢
    rcases hw with rfl | hw | hw | hw
    · exact .inl rfl
    · exact .inr (.inr (ih w (.inl hw)))
    · exact .inr (.inl (redirs_words hr w hw))
    · exact .inr (.inr (ih w (.inr hw)))

mutual

theorem line_words : ∀ {ts : List Tok} {c : Cmd}, Line ts c → ∀ w ∈ c.words, .word w ∈ ts
  | _, _, .last k h, w, hw => by
    rw [words_back] at hw
    exact List.mem_append_left _ (pipe_words h w hw)
  | _, _, .more k h h', w, hw => by
    rw [Cmd.words, words_back] at hw
    rcases List.mem_append.mp hw with hw | hw
    · exact List.mem_append_left _ (pipe_words h w hw)
    · exact List.mem_append_right _ (List.mem_append_right _ (.tail _ (line_words h' w hw)))

theorem pipe_words : ∀ {ts : List Tok} {c : Cmd}, Pipe ts c → ∀ w ∈ c.words, .word w ∈ ts
  | _, _, .last h, w, hw => exec_words h w hw
  | _, _, .more h h', w, hw => by
    rcases List.mem_append.mp hw with hw | hw
    · exact List.mem_append_left _ (exec_words h w hw)
    · exact List.mem_append_right _ (.tail _ (pipe_words h' w hw))

theorem exec_words : ∀ {ts : List Tok} {c : Cmd}, Exec ts c → ∀ w ∈ c.words, .word w ∈ ts
  | _, _, .block h hr, w, hw => by
    rw [words_wrap] at hw
    rcases List.mem_append.mp hw with hw | hw
    · exact .tail _ (List.mem_append_left _ (line_words h w hw))
    · exact .tail _ (List.mem_append_right _ (.tail _ (redirs_words hr w hw)))
  | _, _, .words hr h hlt, w, hw => by
    rw [words_wrap, List.map_append, ← List.append_assoc, List.mem_append, List.mem_append] at hw
    rcases hw with (hw | hw) | hw
    · exact List.mem_append_right _ (words_words h w (List.mem_append_left _ hw))
    · exact List.mem_append_left _ (redirs_words hr w hw)
    · exact List.mem_append_right _ (words_words h w (List.mem_append_right _ hw))

end

/-- the stores of zeros -/
def zero (a len : ℕ) (m : Ram) (ws : List Span) : Ram := ws.foldl (fun m w => m.write (addr a len w.eq) [0]) m

theorem nulterminate_eq (a len : ℕ) (c : Cmd) (m : Ram) : nulterminate a len c m = zero a len m c.words := by
  induction c generalizing m with
  | exec argv => rfl
  | redir c file mode fd ih =>
    rw [nulterminate, ih]
    simp [zero, Cmd.words]
  | pipe c d ih ih' | list c d ih ih' =>
    rw [nulterminate, ih, ih']
    simp [zero, Cmd.words]
  | back c ih => exact ih m

theorem zero_at {a len x : ℕ} {m : Ram} {ws : List Span} :
    zero a len m ws x = if ∃ w ∈ ws, addr a len w.eq = x then 0 else m x := by
  induction ws generalizing m with
  | nil => simp [zero]
  | cons w ws ih =>
    show zero a len (m.write (addr a len w.eq) [0]) ws x = _
    rw [ih]
    by_cases hx : addr a len w.eq = x
    · have : m.write (addr a len w.eq) [0] x = 0 := by simpa [hx] using Ram.holds_write m x [0] 0 (by simp)
      rw [this, ite_self, if_pos ⟨w, by simp, hx⟩]
    · have : m.write (addr a len w.eq) [0] x = m x := Ram.write_out _ (by simp; omega)
      simp [hx, this]

/-- a C string at a -/
def CString (m : Ram) (a : ℕ) (l : List UInt8) : Prop := 0 ∉ l ∧ m.Holds a (l ++ [0])

/-- no word ends inside another one: the character there would be in a word and not in one -/
theorem Maximal.apart {line : List UInt8} {v : Span} (hv : Maximal line v) (hw : Maximal line w) {i : ℕ}
    (hi : i < w.text.length) : line.length - v.eq.length ≠ line.length - w.q.length + i := by
  intro heq
  obtain ⟨pre, hpre⟩ := hw.suffix
  obtain ⟨pre', hpre'⟩ := hv.suffix
  have hq := congrArg List.length hw.split
  have hline := congrArg List.length hpre
  have hv' := congrArg List.length hv.split
  have hline' := congrArg List.length hpre'
  simp only [List.length_append] at hq hline hv' hline'
  have hin : (line.drop (pre.length + i)).head? = some w.text[i] := by
    rw [← hpre, hw.split, ← List.drop_drop, List.drop_left, List.drop_append_of_le_length hi.le,
      List.drop_eq_getElem_cons hi]
    rfl
  have hat : line.drop (pre.length + i) = v.eq := by
    rw [show pre.length + i = (pre' ++ v.text).length by simp; omega, ← hpre', hv.split, ← List.append_assoc,
      List.drop_left]
  rw [hat] at hin
  have := hv.stop w.text[i] hin
  rw [hw.chars _ (List.getElem_mem hi)] at this
  cases this

/-- **The strings of a tree.** When `parsecmd` has returned a tree, every argument and every file of it is a word of the
line, and after `nulterminate` it is a string in the buffer: the terminators are all outside the words. -/
theorem nulterminate_strings (n a : ℕ) (buf : List UInt8) (cmd : Cmd) (m : Ram)
    (hn : 4 * (tokens (buf.takeWhile (· ≠ 0))).length + 4 ≤ n) (h : parsecmd n buf = .ok cmd)
    (hm : m.Holds a (buf.takeWhile (· ≠ 0) ++ [0])) : ∀ w ∈ cmd.words, .word w ∈ tokens (buf.takeWhile (· ≠ 0)) ∧
    CString (nulterminate a (buf.takeWhile (· ≠ 0)).length cmd m) (addr a (buf.takeWhile (· ≠ 0)).length w.q)
      w.text := by
  intro w hw
  set line := buf.takeWhile (· ≠ 0)
  have hnul : 0 ∉ line := fun h0 => by simpa using List.mem_takeWhile_imp h0
  have hline : ∀ v ∈ cmd.words, .word v ∈ tokens line := by
    obtain ⟨c, hc, hl⟩ | ⟨e, he, -⟩ := parsecmd_spec hn
    · rw [hc] at h
      cases h
      exact line_words hl
    · rw [he] at h
      cases h
  have hmax : ∀ v ∈ cmd.words, Maximal line v := fun v hv => maximal_of_mem (hline v hv)
  obtain ⟨pre, hpre⟩ := (hmax w hw).suffix
  have hsplit := (hmax w hw).split
  have hlen := congrArg List.length hpre
  have hlen' := congrArg List.length hsplit
  rw [List.length_append] at hlen hlen'
  refine ⟨hline w hw, fun h0 => hnul ?_, Ram.Holds.append (fun i hi => ?_) fun i hi => ?_⟩
  · rw [← hpre, hsplit]
    exact List.mem_append_right _ (List.mem_append_left _ h0)
  · have hat : m (addr a line.length w.q + i) = w.text[i] := by
      rw [← hpre, hsplit, List.append_assoc, List.append_assoc] at hm
      have := hm.right.left i hi
      rwa [show a + pre.length = addr a line.length w.q by unfold addr; omega] at this
    rw [nulterminate_eq, zero_at, if_neg, hat]
    rintro ⟨v, hv, hx⟩
    refine (hmax v hv).apart (hmax w hw) hi ?_
    unfold addr at hx
    omega
  · obtain rfl : i = 0 := by simpa using hi
    rw [nulterminate_eq, zero_at, if_pos ⟨w, hw, by unfold addr; omega⟩]
    rfl

/-- the line "a>b": the terminator of the argument replaces the '>' -/
theorem nulterminate_strings_redir :
    ∃ cmd m, parsecmd 16 [ch 'a', ch '>', ch 'b', 0] = .ok cmd ∧ cmd.words.length = 2 ∧
      ∀ w ∈ cmd.words, CString (nulterminate 0 3 cmd m) (addr 0 3 w.q) w.text := by
  have htok : tokens [ch 'a', ch '>', ch 'b'] =
      [.word ⟨[ch 'a', ch '>', ch 'b'], [ch '>', ch 'b']⟩, .gt, .word ⟨[ch 'b'], []⟩] := by
    rw [tokens_some rfl, tokens_some rfl, tokens_some rfl, tokens_none rfl]
    rfl
  refine ⟨.redir (.exec [⟨[ch 'a', ch '>', ch 'b'], [ch '>', ch 'b']⟩]) ⟨[ch 'b'], []⟩
    truncating 1, Ram.write (fun _ => 0) 0 [ch 'a', ch '>', ch 'b', 0], rfl, rfl, ?_⟩
  intro w hw
  refine (nulterminate_strings 16 0 [ch 'a', ch '>', ch 'b', 0] _ _ ?_ rfl (Ram.holds_write _ _ _) w hw).2
  show 4 * (tokens [ch 'a', ch '>', ch 'b']).length + 4 ≤ 16
  rw [htok]
  decide

end Xv6.Shell
