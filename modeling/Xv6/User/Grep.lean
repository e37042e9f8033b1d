/-
The pattern matcher of grep (user/grep.c: `match`, `matchhere`, `matchstar`).

A string is the list of its bytes before the terminating NUL, and `peek` reads the NUL at its end. The functions of the
source recurse and loop without a bound, so they take a bound on the depth here and give none when it is used up: a call
returns if some bound gives a result.

- `matcher_terminates`: the calls return on every text exactly if what follows a ".*" of the pattern is found in every
  text but the empty one. For '.' the loop of `matchstar` does not advance text: it tests `c == '.'` first, and
  `*text++` stands behind the `||`. So ".*" on a text where the rest of the pattern is not found loops for ever
  (`dot_star_loops`).
- `match_computes_language`: without ".*", `match` decides whether a substring of the text is in the language of the
  pattern.
-/
import Mathlib.Computability.Language
import Mathlib.Data.List.Infix
import Mathlib.Tactic

namespace Xv6.Grep

/-! ## The source -/

def caret : UInt8 := 0x5e
def dollar : UInt8 := 0x24
def dot : UInt8 := 0x2e
def asterisk : UInt8 := 0x2a

/-- the character that a pointer into a string points at -/
def peek (s : List UInt8) : UInt8 := s.headD 0

/-- `to_lower` -/
def toLower (c : UInt8) : UInt8 := if 0x41 ≤ c ∧ c ≤ 0x5a then c + 32 else c

/-- the comparison of a character of the pattern with one of the text -/
def same (ic : Bool) (a b : UInt8) : Bool := if ic then toLower a == toLower b else a == b

/-- the loop condition of `matchstar`: where text points when the loop goes on -/
def starNext (ic : Bool) (c : UInt8) (text : List UInt8) : Option (List UInt8) :=
  if peek text ≠ 0 then
    -- the increment stands in the second operand of ||
    if c = dot then some text
    else if same ic (peek text) c then some text.tail
    else none
  else none

mutual

/-- `matchhere`: search for re at the beginning of text -/
def matchhere (ic : Bool) : ℕ → List UInt8 → List UInt8 → Option Bool
  | 0, _, _ => none
  | n + 1, re, text =>
    if peek re = 0 then some true
    else if peek re.tail = asterisk then matchstar ic n (peek re) re.tail.tail text
    else if peek re = dollar ∧ peek re.tail = 0 then some (peek text == 0)
    else if peek text ≠ 0 ∧ (peek re = dot ∨ same ic (peek re) (peek text)) then matchhere ic n re.tail text.tail
    else some false

/-- `matchstar`: search for c*re at the beginning of text -/
def matchstar (ic : Bool) : ℕ → UInt8 → List UInt8 → List UInt8 → Option Bool
  | 0, _, _, _ => none
  | n + 1, c, re, text =>
    (matchhere ic n re text).bind fun found =>
      if found then some true
      else (starNext ic c text).elim (some false) (matchstar ic n c re)

end

/-- the loop of `match` over the positions of the text -/
def matchFrom (ic : Bool) : ℕ → List UInt8 → List UInt8 → Option Bool
  | 0, _, _ => none
  | n + 1, re, text =>
    (matchhere ic n re text).bind fun found =>
      if found then some true
      else if peek text ≠ 0 then matchFrom ic n re text.tail
      else some false

/-- `match` -/
def matchRe (ic : Bool) (n : ℕ) (re text : List UInt8) : Option Bool :=
  if peek re = caret then matchhere ic n re.tail text else matchFrom ic n re text

variable {ic : Bool} {n m : ℕ} {c : UInt8} {re text s text' w : List UInt8} {b : Bool}

@[simp] theorem peek_nil : peek [] = 0 := rfl
@[simp] theorem peek_cons (c : UInt8) (s : List UInt8) : peek (c :: s) = c := rfl

theorem exists_cons_of_peek (h : peek s ≠ 0) : ∃ t, s = peek s :: t := by
  cases s with
  | nil => exact absurd rfl h
  | cons a t => exact ⟨t, rfl⟩

/-! ## Termination -/

/-- the pattern has starred characters only: it is found in every text -/
def starred : List UInt8 → Bool
  | [] => true
  | [c] => c == 0
  | c :: d :: re => c == 0 || (d == asterisk && starred re)

/-- the pattern has starred characters and at most one '.' that is not: it is found in every text but the empty one -/
def foundAnywhere : List UInt8 → Bool
  | [] => true
  | [c] => c == 0 || c == dot
  | c :: d :: re => c == 0 || if d = asterisk then foundAnywhere re else c == dot && starred (d :: re)

/-- whatever follows a ".*" of the pattern is found in every text but the empty one -/
def harmless : List UInt8 → Bool
  | [] => true
  | [_] => true
  | c :: d :: re =>
    c == 0 || if d = asterisk then (if c = dot then foundAnywhere re else harmless re) else harmless (d :: re)

theorem starred_foundAnywhere : ∀ re, starred re = true → foundAnywhere re = true
  | [], _ => rfl
  | [c], h => by simp_all [starred, foundAnywhere]
  | c :: d :: re, h => by
    simp only [starred, foundAnywhere, Bool.or_eq_true, Bool.and_eq_true, beq_iff_eq] at h ⊢
    rcases h with h | ⟨rfl, h⟩
    · exact Or.inl h
    · exact Or.inr (by simpa using starred_foundAnywhere re h)

theorem foundAnywhere_harmless : ∀ re, foundAnywhere re = true → harmless re = true
  | [], _ => rfl
  | [_], _ => rfl
  | c :: d :: re, h => by
    rw [foundAnywhere, Bool.or_eq_true] at h
    rw [harmless, Bool.or_eq_true]
    refine h.imp_right fun h => ?_
    by_cases hd : d = asterisk
    · rw [if_pos hd] at h ⊢
      split_ifs
      · exact h
      · exact foundAnywhere_harmless re h
    · rw [if_neg hd, Bool.and_eq_true] at h
      rw [if_neg hd]
      exact foundAnywhere_harmless _ (starred_foundAnywhere _ h.2)

/-- no '.' of the pattern is directly followed by '*' -/
def NoDotStar (re : List UInt8) : Prop := ¬ [dot, asterisk] <:+: re

instance (re : List UInt8) : Decidable (NoDotStar re) := inferInstanceAs (Decidable (¬ _))

theorem NoDotStar.tail (h : NoDotStar re) : NoDotStar re.tail :=
  fun hi => h (hi.trans (List.tail_suffix re).isInfix)

theorem NoDotStar.harmless : ∀ {re : List UInt8}, NoDotStar re → harmless re = true
  | [], _ => rfl
  | [_], _ => rfl
  | c :: d :: re, h => by
    rw [Grep.harmless, Bool.or_eq_true]
    right
    split_ifs with hd hc
    · exact absurd ⟨[], re, by simp [hd, hc]⟩ h
    · exact NoDotStar.harmless h.tail.tail
    · exact NoDotStar.harmless h.tail

theorem length_tail_lt (h : peek s ≠ 0) : s.tail.length < s.length := by
  obtain ⟨t, ht⟩ := exists_cons_of_peek h
  rw [ht]
  simp

/-- what a round of the loop of `matchstar` leaves, unless the character is '.' -/
theorem starNext_eq_some (hc : c ≠ dot) (h : starNext ic c text = some text') :
    peek text ≠ 0 ∧ same ic (peek text) c = true ∧ text' = text.tail := by
  simp only [starNext, hc, if_false] at h
  split_ifs at h with h0 hs
  exact ⟨h0, hs, (Option.some.inj h).symm⟩

theorem starNext_shorter (hc : c ≠ dot) (h : starNext ic c text = some text') :
    text'.length < text.length := by
  obtain ⟨h0, -, rfl⟩ := starNext_eq_some hc h
  exact length_tail_lt h0

/-- the cases of a call of `matchhere`, by the first item of the pattern -/
theorem matchhere_star (hc : c ≠ 0) (n : ℕ) :
    matchhere ic (n + 1) (c :: asterisk :: re) text = matchstar ic n c re text := by
  simp [matchhere, hc]

theorem matchhere_one (hc : c ≠ 0) (hstar : peek s ≠ asterisk) (hend : ¬ (c = dollar ∧ peek s = 0)) (n : ℕ) :
    matchhere ic (n + 1) (c :: s) text =
      if peek text ≠ 0 ∧ (c = dot ∨ same ic c (peek text)) then matchhere ic n s text.tail else some false := by
  rw [matchhere, peek_cons, List.tail_cons, if_neg hc, if_neg hstar, if_neg hend]

/-- a pattern of starred characters only is found in every text -/
theorem matchhere_starred (ic : Bool) : ∀ (re : List UInt8) (n : ℕ) (text : List UInt8), starred re = true →
    re.length < n → matchhere ic n re text = some true
  | re, 0, _, _, h => absurd h (Nat.not_lt_zero _)
  | [], n + 1, _, _, _ => by simp [matchhere]
  | [c], n + 1, _, hre, _ => by
    have hc : c = 0 := by simpa [starred] using hre
    simp [matchhere, hc]
  | c :: d :: re, n + 1, text, hre, hlen => by
    by_cases hc : c = 0
    · simp [matchhere, hc]
    have hre : d = asterisk ∧ starred re = true := by simpa [starred, hc] using hre
    obtain ⟨n, rfl⟩ : ∃ k, n = k + 1 := ⟨n - 1, by simp at hlen; omega⟩
    rw [hre.1, matchhere_star hc, matchstar, matchhere_starred ic re n text hre.2 (by simp at hlen; omega)]
    rfl

/-- a pattern that has one more '.' is found in every text but the empty one -/
theorem matchhere_foundAnywhere (ic : Bool) : ∀ (re : List UInt8) (n : ℕ) (text : List UInt8), peek text ≠ 0 →
    foundAnywhere re = true → re.length < n → matchhere ic n re text = some true
  | re, 0, _, _, _, h => absurd h (Nat.not_lt_zero _)
  | [], n + 1, _, _, _, _ => by simp [matchhere]
  | [c], n + 1, text, h0, hre, hlen => by
    by_cases hc : c = 0
    · simp [matchhere, hc]
    have hdot : c = dot := by simpa [foundAnywhere, hc] using hre
    rw [matchhere_one hc (by decide) (by rw [hdot]; decide), if_pos ⟨h0, Or.inl hdot⟩]
    exact matchhere_starred ic [] n _ rfl (by simpa using hlen)
  | c :: d :: re, n + 1, text, h0, hre, hlen => by
    by_cases hc : c = 0
    · simp [matchhere, hc]
    have hlen : re.length + 1 < n := by simpa using hlen
    rw [foundAnywhere, Bool.or_eq_true, beq_iff_eq, or_iff_right hc] at hre
    by_cases hd : d = asterisk
    · rw [if_pos hd] at hre
      obtain ⟨n, rfl⟩ : ∃ k, n = k + 1 := ⟨n - 1, by omega⟩
      rw [hd, matchhere_star hc, matchstar, matchhere_foundAnywhere ic re n text h0 hre (by omega)]
      rfl
    · rw [if_neg hd, Bool.and_eq_true, beq_iff_eq] at hre
      rw [matchhere_one (s := d :: re) hc hd (by rw [hre.1]; simp [dot, dollar]), if_pos ⟨h0, Or.inl hre.1⟩]
      exact matchhere_starred ic _ n _ hre.2 hlen

/-- the call of `matchstar` is harmless: for '.' the rest is found wherever the loop could stay -/
def harmlessStar (c : UInt8) (re : List UInt8) : Bool := if c = dot then foundAnywhere re else harmless re

theorem harmlessStar_harmless (h : harmlessStar c re = true) : harmless re = true := by
  rw [harmlessStar] at h
  split_ifs at h
  · exact foundAnywhere_harmless _ h
  · exact h

/-- a round of a harmless call that goes on advances text -/
theorem harmlessStar_shorter (h : harmlessStar c re = true) (hn : re.length < n)
    (hf : matchhere ic n re text = some false) (hnext : starNext ic c text = some text') :
    text'.length < text.length := by
  by_cases hc : c = dot
  · have h0 : peek text ≠ 0 := by
      intro h0
      simp [starNext, h0] at hnext
    rw [harmlessStar, if_pos hc] at h
    rw [matchhere_foundAnywhere ic re n text h0 h hn] at hf
    simp at hf
  · exact starNext_shorter hc hnext

/-- how deep the calls of a pattern and a text go: every call drops a character of one of the two -/
theorem matchhere_isSome (ic : Bool) : ∀ n,
    (∀ re text, harmless re = true → re.length + text.length < n → (matchhere ic n re text).isSome) ∧
    ∀ c re text, harmlessStar c re = true → re.length + text.length + 1 < n →
      (matchstar ic n c re text).isSome := by
  intro n
  induction n with
  | zero => exact ⟨by simp, by simp⟩
  | succ n ih =>
    constructor
    · intro re text hre hlen
      rcases re with _ | ⟨c, re⟩
      · rfl
      by_cases hc : c = 0
      · simp [matchhere, hc]
      simp only [List.length_cons] at hlen
      by_cases hstar : peek re = asterisk
      · obtain ⟨re, rfl⟩ : ∃ t, re = asterisk :: t := by
          obtain ⟨t, ht⟩ := exists_cons_of_peek (s := re) (by rw [hstar]; decide)
          exact ⟨t, by rw [ht, hstar]⟩
        rw [matchhere_star hc]
        simp only [List.length_cons] at hlen
        exact ih.2 _ _ _ (by simpa [harmless, hc, harmlessStar] using hre) (by omega)
      by_cases hend : c = dollar ∧ peek re = 0
      · simp [matchhere, hend.1, hend.2, dollar, asterisk]
      rw [matchhere_one hc hstar hend]
      split_ifs with hs
      · have := length_tail_lt hs.1
        refine ih.1 _ _ ?_ (by omega)
        rcases re with _ | ⟨d, re⟩
        · rfl
        · have hd : d ≠ asterisk := hstar
          simpa [harmless, hc, hd] using hre
      · rfl
    · intro c re text hre hlen
      rw [matchstar]
      obtain ⟨found, hf⟩ :=
        Option.isSome_iff_exists.1 (ih.1 re text (harmlessStar_harmless hre) (by omega))
      rw [hf, Option.bind_some]
      cases found with
      | true => rfl
      | false =>
        cases hn : starNext ic c text with
        | none => rfl
        | some text' =>
          have := harmlessStar_shorter hre (by omega) hf hn
          exact ih.2 _ _ _ hre (by omega)

theorem matchFrom_isSome (hre : harmless re = true) : ∀ n text, re.length + text.length + 1 < n →
    (matchFrom ic n re text).isSome := by
  intro n
  induction n with
  | zero => simp
  | succ n ih =>
    intro text hlen
    rw [matchFrom]
    obtain ⟨found, hf⟩ := Option.isSome_iff_exists.1 ((matchhere_isSome ic n).1 re text hre (by omega))
    rw [hf, Option.bind_some]
    split_ifs with _ h0
    · rfl
    · have := length_tail_lt h0
      exact ih _ (by omega)
    · rfl

/-- the pattern that `match` gives to `matchhere` -/
def harmlessRe (re : List UInt8) : Bool := if peek re = caret then harmless re.tail else harmless re

theorem NoDotStar.harmlessRe (h : NoDotStar re) : harmlessRe re = true := by
  rw [Grep.harmlessRe]
  split_ifs
  · exact h.tail.harmless
  · exact h.harmless

theorem matchRe_isSome (ic : Bool) (hre : harmlessRe re = true) (hlen : re.length + text.length + 1 < n) :
    (matchRe ic n re text).isSome := by
  rw [harmlessRe] at hre
  rw [matchRe]
  split_ifs at hre ⊢ with h
  · have := length_tail_lt (s := re) (by rw [h]; decide)
    exact (matchhere_isSome ic n).1 _ _ hre (by omega)
  · exact matchFrom_isSome hre n text hlen

/-! ### The loop that does not end -/

/-- the loop of `matchstar` for '.' stays where it is while the rest of the pattern is not found there -/
theorem matchstar_dot (h0 : peek text ≠ 0) (h : ∀ n, matchhere ic n re text ≠ some true) :
    ∀ n, matchstar ic n dot re text = none := by
  intro n
  induction n with
  | zero => rfl
  | succ n ih =>
    rw [matchstar]
    cases hf : matchhere ic n re text with
    | none => rfl
    | some found =>
      cases found with
      | true => exact absurd hf (h n)
      | false => simp [starNext, h0, ih]

/-- the pattern ends in '$', that is, `matchhere` finds it only where the text ends -/
def anchored : List UInt8 → Bool
  | [] => false
  | [c] => c == dollar
  | c :: d :: re => c != 0 && if d = asterisk then anchored re else (c == dollar && d == 0) || anchored (d :: re)

theorem same_self (ic : Bool) (c : UInt8) : same ic c c = true := by simp [same]

theorem same_trans {a b c : UInt8} (h : same ic a b = true) (h' : same ic b c = true) : same ic a c = true := by
  cases ic <;> simp_all [same]

theorem same_comm (ic : Bool) (a b : UInt8) : same ic a b = same ic b a := by
  cases ic <;> simp [same, Bool.beq_comm]

/-- a text in which no two neighbours are the same -/
def Alternating (ic : Bool) (text : List UInt8) : Prop :=
  (0 : UInt8) ∉ text ∧ text.IsChain fun a b => same ic a b = false

theorem Alternating.tail (h : Alternating ic text) : Alternating ic text.tail :=
  ⟨fun h0 => h.1 (List.mem_of_mem_tail h0), h.2.tail⟩

theorem Alternating.peek_ne (h : Alternating ic text) (hlen : 0 < text.length) : peek text ≠ 0 := by
  cases text with
  | nil => simp at hlen
  | cons a text => exact fun h0 => h.1 (by simp [← h0])

/-- alternating texts of every length -/
def zigzag : ℕ → List UInt8
  | 0 => []
  | k + 1 => (if k % 2 = 0 then 0x61 else 0x62) :: zigzag k

theorem length_zigzag (k : ℕ) : (zigzag k).length = k := by
  induction k with
  | zero => rfl
  | succ k ih => simp [zigzag, ih]

theorem alternating_zigzag (ic : Bool) (k : ℕ) : Alternating ic (zigzag k) := by
  induction k with
  | zero => exact ⟨by simp [zigzag], .nil⟩
  | succ k ih =>
    constructor
    · have hc : (0 : UInt8) ≠ if k % 2 = 0 then 0x61 else 0x62 := by split_ifs <;> decide
      simpa [zigzag, hc] using ih.1
    · cases k with
      | zero => exact .singleton _
      | succ k =>
        refine List.IsChain.cons_cons ?_ ih.2
        rcases Nat.mod_two_eq_zero_or_one k with h | h
        · have h' : (k + 1) % 2 ≠ 0 := by omega
          rw [if_neg h', if_pos h]
          cases ic <;> decide
        · have h' : (k + 1) % 2 = 0 := by omega
          have hk : k % 2 ≠ 0 := by omega
          rw [if_pos h', if_neg hk]
          cases ic <;> decide

/-- the loop of `matchstar` finds nothing if the rest is not found at any place it comes to -/
theorem matchstar_ne_true {P : List UInt8 → Prop} (hP : ∀ t, P t → ∀ n, matchhere ic n re t ≠ some true)
    (hnext : ∀ t t', P t → starNext ic c t = some t' → P t') :
    ∀ n text, P text → matchstar ic n c re text ≠ some true := by
  intro n
  induction n with
  | zero => simp [matchstar]
  | succ n ih =>
    intro text ht
    rw [matchstar]
    cases hf : matchhere ic n re text with
    | none => simp
    | some found =>
      cases found with
      | true => exact absurd hf (hP text ht n)
      | false =>
        cases hn : starNext ic c text with
        | none => simp
        | some text' => exact ih text' (hnext text text' ht hn)

/-- a pattern that ends in '$' is not found in a long alternating text: no item takes more than one character of it -/
theorem matchhere_anchored (ic : Bool) : ∀ (re text : List UInt8), anchored re = true → Alternating ic text →
    re.length < text.length → ∀ n, matchhere ic n re text ≠ some true
  | _, _, _, _, _, 0 => by simp [matchhere]
  | [], _, hre, _, _, _ + 1 => by simp [anchored] at hre
  | [c], text, hre, ht, hlen, n + 1 => by
    have hc : c = dollar := by simpa [anchored] using hre
    have h0 := ht.peek_ne (by omega)
    simp [matchhere, hc, h0, dollar, asterisk]
  | c :: d :: re, text, hre, ht, hlen, n + 1 => by
    rw [anchored, Bool.and_eq_true, bne_iff_ne] at hre
    obtain ⟨hc, hre⟩ := hre
    simp only [List.length_cons] at hlen
    by_cases hd : d = asterisk
    · rw [if_pos hd] at hre
      rw [hd, matchhere_star hc]
      -- after one character of the text the next one is another
      refine matchstar_ne_true (P := fun t => Alternating ic t ∧ re.length < t.length ∧
        (re.length + 1 < t.length ∨ same ic (peek t) c = false)) (fun t h => matchhere_anchored ic re t hre h.1 h.2.1)
        ?_ n text ⟨ht, by omega, Or.inl (by omega)⟩
      rintro t t' ⟨hat, hl, hs⟩ hnext
      by_cases hdot : c = dot
      · have : t' = t := by
          simp only [starNext, hdot, if_true] at hnext
          split_ifs at hnext
          exact (Option.some.inj hnext).symm
        exact this ▸ ⟨hat, hl, hs⟩
      obtain ⟨-, hsame, rfl⟩ := starNext_eq_some hdot hnext
      have hl : re.length + 1 < t.length := hs.resolve_right (by simp [hsame])
      refine ⟨hat.tail, by simp; omega, Or.inr ?_⟩
      rcases t with _ | ⟨a, _ | ⟨b, t⟩⟩
      · simp at hl
      · simp at hl
      · have hab : same ic a b = false := (List.isChain_cons_cons.1 hat.2).1
        rw [Bool.eq_false_iff] at hab ⊢
        exact fun hb => hab (same_trans hsame (same_comm ic c b ▸ hb))
    · rw [if_neg hd, Bool.or_eq_true, Bool.and_eq_true, beq_iff_eq, beq_iff_eq] at hre
      by_cases hend : c = dollar ∧ d = 0
      · have h0 := ht.peek_ne (by omega)
        simp [matchhere, hend.1, hend.2, h0, dollar, asterisk]
      rw [matchhere_one (s := d :: re) hc hd hend]
      split_ifs
      · exact matchhere_anchored ic _ _ (hre.resolve_left hend) ht.tail (by simp; omega) n
      · simp

/-- any other pattern that needs a character is not found in the empty text -/
theorem matchhere_nil (ic : Bool) : ∀ re : List UInt8, anchored re = false → starred re = false →
    ∀ n, matchhere ic n re [] ≠ some true
  | _, _, _, 0 => by simp [matchhere]
  | [], _, hre, _ + 1 => by simp [starred] at hre
  | [c], hend, hre, n + 1 => by
    have hc : c ≠ 0 := by simpa [starred] using hre
    have hend : c ≠ dollar := by simpa [anchored] using hend
    rw [matchhere_one hc (by decide) (fun h => hend h.1)]
    simp
  | c :: d :: re, hend, hre, n + 1 => by
    rw [starred, Bool.or_eq_false_iff, beq_eq_false_iff_ne] at hre
    obtain ⟨hc, hre⟩ := hre
    by_cases hd : d = asterisk
    · have hre : starred re = false := by simpa [hd] using hre
      have hend : anchored re = false := by simpa [anchored, hc, hd] using hend
      rw [hd, matchhere_star hc]
      refine matchstar_ne_true (P := fun t => t = []) (fun t h => h ▸ matchhere_nil ic re hend hre) ?_ n [] rfl
      rintro t t' rfl hnext
      simp [starNext] at hnext
    · have hend : ¬ (c = dollar ∧ d = 0) := by
        rintro ⟨rfl, rfl⟩
        simp [anchored, dollar, asterisk] at hend
      rw [matchhere_one (s := d :: re) hc hd hend]
      simp

/-- and one that needs more than one character, or one that is not '.', is not found in some text of one character -/
theorem matchhere_single (ic : Bool) : ∀ re : List UInt8, anchored re = false → foundAnywhere re = false →
    ∃ x, x ≠ 0 ∧ ∀ n, matchhere ic n re [x] ≠ some true
  | [], _, hre => by simp [foundAnywhere] at hre
  | c :: re, hend, hre => by
    have hc : c ≠ 0 := by
      rintro rfl
      cases re <;> simp [foundAnywhere] at hre
    by_cases hstar : ∃ re', re = asterisk :: re'
    · obtain ⟨re, rfl⟩ := hstar
      have hre : foundAnywhere re = false := by simpa [foundAnywhere, hc] using hre
      have hend : anchored re = false := by simpa [anchored, hc] using hend
      have hnil : starred re = false :=
        Bool.eq_false_iff.2 fun h => Bool.eq_false_iff.1 hre (starred_foundAnywhere re h)
      obtain ⟨x, hx, hsingle⟩ := matchhere_single ic re hend hre
      refine ⟨x, hx, fun n => ?_⟩
      cases n with
      | zero => simp [matchhere]
      | succ n =>
        rw [matchhere_star hc]
        refine matchstar_ne_true (P := fun t => t = [x] ∨ t = []) ?_ ?_ n [x] (Or.inl rfl)
        · rintro t (rfl | rfl)
          · exact hsingle
          · exact matchhere_nil ic re hend hnil
        · rintro t t' (rfl | rfl) hnext
          · rw [starNext, if_pos (by simpa using hx)] at hnext
            split_ifs at hnext
            · exact Or.inl (Option.some.inj hnext).symm
            · exact Or.inr (Option.some.inj hnext).symm
          · simp [starNext] at hnext
    have hd : peek re ≠ asterisk := by
      intro h
      obtain ⟨t, ht⟩ := exists_cons_of_peek (s := re) (by rw [h]; decide)
      exact hstar ⟨t, by rw [ht, h]⟩
    have hlast : ¬ (c = dollar ∧ peek re = 0) := by
      rintro ⟨rfl, h⟩
      cases re with
      | nil => simp [anchored] at hend
      | cons d re =>
        have hd0 : d = 0 := h
        simp [anchored, hd0, dollar, asterisk] at hend
    by_cases hdot : c = dot
    · -- the '.' takes the character, the rest needs one more
      have hrest : anchored re = false ∧ starred re = false := by
        cases re with
        | nil => simp [foundAnywhere, hdot] at hre
        | cons d re =>
          have hd : d ≠ asterisk := hd
          simp only [foundAnywhere, anchored, hd, if_false, hdot] at hre hend
          simpa [dot, dollar] using And.intro hend hre
      refine ⟨0x61, by decide, fun n => ?_⟩
      cases n with
      | zero => simp [matchhere]
      | succ n =>
        rw [matchhere_one hc hd hlast]
        split_ifs
        · exact matchhere_nil ic re hrest.1 hrest.2 n
        · simp
    · -- a character other than the one of the pattern
      obtain ⟨x, hx, hne⟩ : ∃ x, x ≠ 0 ∧ same ic c x = false := by
        by_cases h : same ic c 0x61 = true
        · refine ⟨0x62, by decide, Bool.eq_false_iff.2 fun h' => ?_⟩
          have hab := same_trans (same_comm ic c 0x61 ▸ h) h'
          cases ic <;> exact absurd hab (by decide)
        · exact ⟨0x61, by decide, Bool.eq_false_iff.2 h⟩
      refine ⟨x, hx, fun n => ?_⟩
      cases n with
      | zero => simp [matchhere]
      | succ n =>
        rw [matchhere_one hc hd hlast]
        simp [hdot, hne]

theorem exists_not_found (ic : Bool) (hre : foundAnywhere re = false) :
    ∃ text, peek text ≠ 0 ∧ ∀ n, matchhere ic n re text ≠ some true := by
  cases hend : anchored re with
  | true =>
    have hlen := length_zigzag (re.length + 1)
    have ht := alternating_zigzag ic (re.length + 1)
    exact ⟨zigzag (re.length + 1), ht.peek_ne (by omega), matchhere_anchored ic re _ hend ht (by omega)⟩
  | false =>
    obtain ⟨x, hx, h⟩ := matchhere_single ic re hend hre
    exact ⟨[x], hx, h⟩

/-- a text on which the call does not return: one character for each item before the ".*", then a text in which the rest
is not found -/
theorem exists_matchhere_none (ic : Bool) : ∀ re : List UInt8, harmless re = false →
    ∃ text, ∀ n, matchhere ic n re text = none
  | [], hre => by simp [harmless] at hre
  | [_], hre => by simp [harmless] at hre
  | c :: d :: re, hre => by
    rw [harmless, Bool.or_eq_false_iff, beq_eq_false_iff_ne] at hre
    obtain ⟨hc, hre⟩ := hre
    by_cases hd : d = asterisk
    · rw [if_pos hd] at hre
      by_cases hdot : c = dot
      · rw [if_pos hdot] at hre
        obtain ⟨text, h0, h⟩ := exists_not_found ic hre
        refine ⟨text, fun n => ?_⟩
        cases n with
        | zero => rfl
        | succ n => rw [hd, matchhere_star hc, hdot, matchstar_dot h0 h]
      · rw [if_neg hdot] at hre
        obtain ⟨text, h⟩ := exists_matchhere_none ic re hre
        refine ⟨text, fun n => ?_⟩
        rcases n with _ | _ | n
        · rfl
        · rw [hd, matchhere_star hc]
          rfl
        · rw [hd, matchhere_star hc, matchstar, h]
          rfl
    · rw [if_neg hd] at hre
      obtain ⟨text, h⟩ := exists_matchhere_none ic (d :: re) hre
      have hend : ¬ (c = dollar ∧ d = 0) := by
        rintro ⟨-, rfl⟩
        cases re <;> simp [harmless] at hre
      refine ⟨c :: text, fun n => ?_⟩
      cases n with
      | zero => rfl
      | succ n =>
        rw [matchhere_one (s := d :: re) hc hd hend, if_pos ⟨hc, Or.inr (same_self ic c)⟩]
        exact h n

theorem exists_matchstar_none (ic : Bool) (hre : harmlessStar c re = false) :
    ∃ text, ∀ n, matchstar ic n c re text = none := by
  rw [harmlessStar] at hre
  split_ifs at hre with hdot
  · obtain ⟨text, h0, h⟩ := exists_not_found ic hre
    exact ⟨text, hdot ▸ matchstar_dot h0 h⟩
  · obtain ⟨text, h⟩ := exists_matchhere_none ic re hre
    refine ⟨text, fun n => ?_⟩
    cases n with
    | zero => rfl
    | succ n => rw [matchstar, h]; rfl

theorem exists_matchRe_none (ic : Bool) (hre : harmlessRe re = false) : ∃ text, ∀ n, matchRe ic n re text = none := by
  rw [harmlessRe] at hre
  split_ifs at hre with hcaret
  · obtain ⟨text, h⟩ := exists_matchhere_none ic _ hre
    exact ⟨text, fun n => by rw [matchRe, if_pos hcaret, h]⟩
  · obtain ⟨text, h⟩ := exists_matchhere_none ic _ hre
    refine ⟨text, fun n => ?_⟩
    cases n with
    | zero => rw [matchRe, if_neg hcaret]; rfl
    | succ n => rw [matchRe, if_neg hcaret, matchFrom, h]; rfl

/-- the calls of a function return on every text -/
def Returns (f : ℕ → List UInt8 → Option Bool) : Prop := ∀ text, ∃ n, ∀ m, n ≤ m → (f m text).isSome

theorem not_returns {f : ℕ → List UInt8 → Option Bool} (h : ∃ text, ∀ n, f n text = none) : ¬ Returns f := by
  obtain ⟨text, hnone⟩ := h
  intro hf
  obtain ⟨n, hn⟩ := hf text
  simpa [hnone] using hn n le_rfl

/-- **When the matcher returns.** `match`, `matchhere` and `matchstar` return on every text exactly if whatever follows
a ".*" of the pattern is found in every text but the empty one (starred characters, and at most one '.' that is not);
then each round of the loop of `matchstar` that continues advances text. -/
theorem matcher_terminates (ic : Bool) (re : List UInt8) :
    (Returns (fun n => matchRe ic n re) ↔ harmlessRe re = true) ∧
      (Returns (fun n => matchhere ic n re) ↔ harmless re = true) ∧
      ∀ c, (Returns (fun n => matchstar ic n c re) ↔ harmlessStar c re = true) ∧
        (harmlessStar c re = true → ∀ n text text', re.length < n → matchhere ic n re text = some false →
          starNext ic c text = some text' → text'.length < text.length) := by
  refine ⟨⟨fun h => ?_, fun h text => ?_⟩, ⟨fun h => ?_, fun h text => ?_⟩,
    fun c => ⟨⟨fun h => ?_, fun h text => ?_⟩, ?_⟩⟩
  · exact Bool.not_eq_false _ ▸ fun hf => not_returns (exists_matchRe_none ic hf) h
  · exact ⟨re.length + text.length + 2, fun m hm => matchRe_isSome ic h (by omega)⟩
  · exact Bool.not_eq_false _ ▸ fun hf => not_returns (exists_matchhere_none ic re hf) h
  · exact ⟨re.length + text.length + 1, fun m hm => (matchhere_isSome ic m).1 re text h (by omega)⟩
  · exact Bool.not_eq_false _ ▸ fun hf => not_returns (exists_matchstar_none ic hf) h
  · exact ⟨re.length + text.length + 2, fun m hm => (matchhere_isSome ic m).2 c re text h (by omega)⟩
  · exact fun h n text text' hn hf hnext => harmlessStar_shorter h hn hf hnext

/-- the pattern "a.*" -/
theorem matcher_terminates_star :
    harmlessRe [0x61, dot, asterisk] = true ∧ Returns (fun n => matchRe false n [0x61, dot, asterisk]) :=
  ⟨by decide, (matcher_terminates false _).1.2 (by decide)⟩

-- ".*", ".*." and "a.*" return, "a.*x" does not
example : harmlessRe [dot, asterisk] = true ∧ harmlessRe [dot, asterisk, dot] = true ∧
    harmlessRe [0x61, dot, asterisk, 0x78] = false := by decide

theorem matchhere_x (n : ℕ) : matchhere false n [0x78] [0x61] ≠ some true := by
  cases n with
  | zero => simp [matchhere]
  | succ n => simp [matchhere, asterisk, dollar, dot, same]

theorem matchhere_dot_star (n : ℕ) : matchhere false n [dot, asterisk, 0x78] [0x61] = none := by
  cases n with
  | zero => rfl
  | succ n =>
    rw [matchhere]
    exact matchstar_dot (by decide) matchhere_x n

/-- **The loop that does not end.** `match(".*x", "a")` never returns, nor do the calls it makes; the loop of
`matchstar` continues with the text it had. -/
theorem dot_star_loops :
    (∀ n, matchRe false n [dot, asterisk, 0x78] [0x61] = none) ∧
      (∀ n, matchhere false n [dot, asterisk, 0x78] [0x61] = none) ∧
      (∀ n, matchstar false n dot [0x78] [0x61] = none) ∧
      starNext false dot [0x61] = some [0x61] := by
  refine ⟨?_, matchhere_dot_star, matchstar_dot (by decide) matchhere_x, by decide⟩
  intro n
  cases n with
  | zero => rfl
  | succ n =>
    have hcaret : peek [dot, asterisk, 0x78] ≠ caret := by decide
    rw [matchRe, if_neg hcaret, matchFrom, matchhere_dot_star]
    rfl

/-! ## The language of a pattern -/

/-- a part of a pattern: one character, any one character, or any number of one character -/
inductive Item where
  | lit (c : UInt8)
  | any
  | star (c : UInt8)
deriving Repr, DecidableEq

/-- a pattern read from left to right -/
def items : List UInt8 → List Item
  | [] => []
  | [c] => [if c = dot then .any else .lit c]
  | c :: d :: re => if d = asterisk then .star c :: items re else (if c = dot then .any else .lit c) :: items (d :: re)

def Item.lang : Item → Language UInt8
  | lit c => {[c]}
  | any => {w | ∃ c, w = [c]}
  | star c => KStar.kstar {[c]}

def language (l : List Item) : Language UInt8 := (l.map Item.lang).prod

/-- the pattern before a final '$' -/
def dropDollar (re : List UInt8) : List UInt8 := if re.getLast? = some dollar then re.dropLast else re

/-- the pattern after a leading '^' -/
def dropCaret (re : List UInt8) : List UInt8 := if re.head? = some caret then re.tail else re

/-- some substring of the text is in the language of the pattern: a prefix if the pattern starts with '^', a suffix if
it ends in '$' -/
def Accepts (re text : List UInt8) : Prop :=
  ∃ before w after, text = before ++ w ++ after ∧ w ∈ language (items (dropDollar (dropCaret re))) ∧
    (re.head? = some caret → before = []) ∧ (re.getLast? = some dollar → after = [])

/-- a prefix of the text is in the language of the pattern, the whole text if the pattern ends in '$' -/
def Begins (re text : List UInt8) : Prop :=
  ∃ w after, text = w ++ after ∧ w ∈ language (items (dropDollar re)) ∧ (re.getLast? = some dollar → after = [])

theorem mem_star : w ∈ (Item.star c).lang ↔ ∃ k, w = List.replicate k c := by
  rw [Item.lang, Language.mem_kstar]
  constructor
  · rintro ⟨L, rfl, hL⟩
    refine ⟨L.length, ?_⟩
    have : L = List.replicate L.length [c] := List.eq_replicate_iff.2 ⟨rfl, hL⟩
    conv_lhs => rw [this]
    simp
  · rintro ⟨k, rfl⟩
    refine ⟨List.replicate k [c], by simp, fun y hy => List.eq_of_mem_replicate hy⟩

theorem begins_nil (text : List UInt8) : Begins [] text :=
  ⟨[], text, rfl, rfl, by simp⟩

theorem begins_dollar : Begins [dollar] text ↔ text = [] := by
  constructor
  · rintro ⟨w, after, rfl, hw, hend⟩
    have hw : w = [] := hw
    rw [hw, hend rfl]
    rfl
  · rintro rfl
    exact ⟨[], [], rfl, rfl, fun _ => rfl⟩

theorem dropDollar_cons (hre : re ≠ []) : dropDollar (c :: re) = c :: dropDollar re := by
  cases re with
  | nil => exact absurd rfl hre
  | cons d re =>
    simp only [dropDollar, List.getLast?_cons_cons, List.dropLast_cons_cons]
    split_ifs <;> rfl

theorem dropDollar_star (c : UInt8) (re : List UInt8) :
    dropDollar (c :: asterisk :: re) = c :: asterisk :: dropDollar re := by
  rw [dropDollar_cons (by simp)]
  cases re with
  | nil => rfl
  | cons d re => rw [dropDollar_cons (by simp)]

theorem getLast_star (c : UInt8) (re : List UInt8) :
    (c :: asterisk :: re).getLast? = some dollar ↔ re.getLast? = some dollar := by
  cases re with
  | nil => simp [asterisk, dollar]
  | cons d re => simp only [List.getLast?_cons_cons]

/-- the first item of a pattern that starts with a starred character -/
theorem begins_star :
    Begins (c :: asterisk :: re) text ↔ ∃ k rest, text = List.replicate k c ++ rest ∧ Begins re rest := by
  have hitems : language (items (dropDollar (c :: asterisk :: re))) =
      (Item.star c).lang * language (items (dropDollar re)) := by
    simp [dropDollar_star, items, language]
  rw [Begins, hitems]
  constructor
  · rintro ⟨w, after, rfl, hw, hend⟩
    obtain ⟨u, hu, v, hv, rfl⟩ := Language.mem_mul.1 hw
    obtain ⟨k, rfl⟩ := mem_star.1 hu
    exact ⟨k, v ++ after, by simp, v, after, rfl, hv, fun h => hend ((getLast_star c re).2 h)⟩
  · rintro ⟨k, rest, rfl, v, after, rfl, hv, hend⟩
    exact ⟨List.replicate k c ++ v, after, by simp,
      Language.mem_mul.2 ⟨_, mem_star.2 ⟨k, rfl⟩, v, hv, rfl⟩, fun h => hend ((getLast_star c re).1 h)⟩

theorem mem_one : w ∈ (if c = dot then Item.any else .lit c).lang ↔
    ∃ x, w = [x] ∧ (c = dot ∨ c = x) := by
  split_ifs with h
  · exact ⟨fun ⟨x, hx⟩ => ⟨x, hx, Or.inl h⟩, fun ⟨x, hx, _⟩ => ⟨x, hx⟩⟩
  constructor
  · intro hw
    exact ⟨c, hw, Or.inr rfl⟩
  · rintro ⟨x, rfl, hx⟩
    rw [hx.resolve_left h]
    rfl

theorem items_cons (hstar : peek re ≠ asterisk) :
    items (c :: re) = (if c = dot then .any else .lit c) :: items re := by
  cases re with
  | nil => rfl
  | cons d re =>
    have hd : d ≠ asterisk := hstar
    rw [items, if_neg hd]

theorem peek_dropDollar (hstar : peek re ≠ asterisk) : peek (dropDollar re) ≠ asterisk := by
  rcases re with _ | ⟨d, _ | ⟨e, re⟩⟩
  · exact hstar
  · rw [dropDollar]
    split_ifs
    · simp [asterisk]
    · exact hstar
  · rw [dropDollar_cons (by simp)]
    exact hstar

/-- the first item of any other pattern but "$" -/
theorem begins_one (hstar : peek re ≠ asterisk) (hend : ¬ (c = dollar ∧ re = [])) :
    Begins (c :: re) text ↔ ∃ x rest, text = x :: rest ∧ (c = dot ∨ c = x) ∧ Begins re rest := by
  have hlast : (c :: re).getLast? = some dollar ↔ re.getLast? = some dollar := by
    cases re with
    | nil => simpa using hend
    | cons d re => rw [List.getLast?_cons_cons]
  have hdrop : dropDollar (c :: re) = c :: dropDollar re := by
    cases re with
    | nil =>
      have hc : c ≠ dollar := fun h => hend ⟨h, rfl⟩
      simp [dropDollar, hc]
    | cons d re => exact dropDollar_cons (by simp)
  have hitems : language (items (dropDollar (c :: re))) =
      (if c = dot then Item.any else .lit c).lang * language (items (dropDollar re)) := by
    rw [hdrop, items_cons (peek_dropDollar hstar)]
    simp [language]
  rw [Begins, hitems]
  constructor
  · rintro ⟨w, after, rfl, hw, hend⟩
    obtain ⟨u, hu, v, hv, rfl⟩ := Language.mem_mul.1 hw
    obtain ⟨x, rfl, hx⟩ := mem_one.1 hu
    exact ⟨x, v ++ after, rfl, hx, v, after, rfl, hv, fun h => hend (hlast.2 h)⟩
  · rintro ⟨x, rest, rfl, hx, v, after, rfl, hv, hend⟩
    exact ⟨x :: v, after, rfl, Language.mem_mul.2 ⟨[x], mem_one.2 ⟨x, rfl, hx⟩, v, hv, rfl⟩, fun h => hend (hlast.1 h)⟩

/-! ## The matcher computes it -/

theorem notMem_tail (h : (0 : UInt8) ∉ s) : (0 : UInt8) ∉ s.tail :=
  fun ht => h (List.mem_of_mem_tail ht)

theorem eq_nil_of_peek (h : (0 : UInt8) ∉ s) (h0 : peek s = 0) : s = [] := by
  cases s with
  | nil => rfl
  | cons a s => exact absurd (by rw [← h0]; simp) h

/-- one more character of a run: what a round of `matchstar` that fails leaves to look for -/
theorem replicate_round {P : List UInt8 → Prop} (hP : ¬ P text) :
    (∃ k rest, text = List.replicate k c ++ rest ∧ P rest) ↔
      ∃ x rest, text = x :: rest ∧ x = c ∧ ∃ k rest', rest = List.replicate k c ++ rest' ∧ P rest' := by
  constructor
  · rintro ⟨k, rest, rfl, hr⟩
    cases k with
    | zero => exact absurd hr hP
    | succ k => exact ⟨c, _, rfl, rfl, k, rest, rfl, hr⟩
  · rintro ⟨_, _, rfl, rfl, k, rest', rfl, hr⟩
    exact ⟨k + 1, rest', rfl, hr⟩

theorem exists_cons_iff {P : UInt8 → List UInt8 → Prop} (htext : (0 : UInt8) ∉ text) :
    (∃ x rest, text = x :: rest ∧ P x rest) ↔ peek text ≠ 0 ∧ P (peek text) text.tail := by
  cases text with
  | nil => simp
  | cons a s =>
    have ha : a ≠ 0 := fun h => htext (by simp [h])
    constructor
    · rintro ⟨x, rest, heq, hP⟩
      obtain ⟨rfl, rfl⟩ := List.cons.inj heq
      exact ⟨ha, hP⟩
    · exact fun h => ⟨a, s, rfl, h.2⟩

/-- what `matchhere` returns within depth n is right -/
def HereRight (n : ℕ) : Prop :=
  ∀ re text b, (0 : UInt8) ∉ re → (0 : UInt8) ∉ text → matchhere false n re text = some b → (b = true ↔ Begins re text)

/-- what `matchstar` returns within depth n is right -/
def StarRight (n : ℕ) : Prop :=
  ∀ c re text b, (0 : UInt8) ∉ re → (0 : UInt8) ∉ text → matchstar false n c re text = some b →
    (b = true ↔ ∃ k rest, text = List.replicate k c ++ rest ∧ Begins re rest)

theorem matchhere_cons {a : UInt8} (ha : a ≠ 0) :
    matchhere ic (n + 1) (a :: re) text =
      if peek re = asterisk then matchstar ic n a re.tail text
      else if a = dollar ∧ peek re = 0 then some (peek text == 0)
      else if peek text ≠ 0 ∧ (a = dot ∨ same ic a (peek text)) then matchhere ic n re text.tail
      else some false :=
  if_neg ha

theorem HereRight.succ (ih : HereRight n) (ihstar : StarRight n) : HereRight (n + 1) := by
  intro re text b hre htext h
  rcases re with _ | ⟨a, re⟩
  · have hb : b = true := (Option.some.inj h).symm
    exact iff_of_true hb (begins_nil text)
  have ha : a ≠ 0 := fun h => hre (by simp [h])
  have hre' : (0 : UInt8) ∉ re := notMem_tail hre
  rw [matchhere_cons ha] at h
  by_cases hstar : peek re = asterisk
  · obtain ⟨re', hr⟩ := exists_cons_of_peek (s := re) (by rw [hstar]; decide)
    rw [hstar] at hr
    subst hr
    rw [if_pos hstar] at h
    rw [begins_star]
    exact ihstar a re' text b (notMem_tail hre') htext h
  rw [if_neg hstar] at h
  by_cases hend : a = dollar ∧ peek re = 0
  · rw [if_pos hend] at h
    obtain ⟨rfl, hnil⟩ := hend
    rw [eq_nil_of_peek hre' hnil, begins_dollar, ← Option.some.inj h, beq_iff_eq]
    exact ⟨eq_nil_of_peek htext, fun h => by rw [h]; rfl⟩
  have hone : ¬ (a = dollar ∧ re = []) := fun hd => hend ⟨hd.1, by rw [hd.2]; rfl⟩
  rw [if_neg hend] at h
  simp only [same, Bool.false_eq_true, if_false, beq_iff_eq] at h
  rw [begins_one hstar hone, exists_cons_iff htext]
  by_cases hc : peek text ≠ 0 ∧ (a = dot ∨ a = peek text)
  · rw [if_pos hc] at h
    rw [ih re text.tail b hre' (notMem_tail htext) h]
    exact ⟨fun hb => ⟨hc.1, hc.2, hb⟩, fun hb => hb.2.2⟩
  · rw [if_neg hc] at h
    rw [← Option.some.inj h]
    exact iff_of_false (by simp) fun hb => hc ⟨hb.1, hb.2.1⟩

theorem StarRight.succ (ih : HereRight n) (ihstar : StarRight n) : StarRight (n + 1) := by
  intro c re text b hre htext h
  rw [matchstar] at h
  obtain ⟨found, hf, h⟩ := Option.bind_eq_some_iff.1 h
  have hfound := ih re text found hre htext hf
  cases found with
  | true =>
    have hb : b = true := (Option.some.inj h).symm
    exact iff_of_true hb ⟨0, text, rfl, hfound.1 rfl⟩
  | false =>
    have hnot : ¬ Begins re text := fun hb => by simpa using hfound.2 hb
    simp only [Bool.false_eq_true, if_false] at h
    cases hn : starNext false c text with
    | some text' =>
      rw [hn] at h
      by_cases hc : c = dot
      · -- the same call again: it is right by induction
        have : text' = text := by
          simp only [starNext, hc, if_true] at hn
          split_ifs at hn
          exact (Option.some.inj hn).symm
        exact this ▸ ihstar c re text' b hre (this ▸ htext) h
      · obtain ⟨h0, hs, rfl⟩ := starNext_eq_some hc hn
        rw [replicate_round hnot, exists_cons_iff htext, ihstar c re _ b hre (notMem_tail htext) h]
        simp only [same, Bool.false_eq_true, if_false, beq_iff_eq] at hs
        exact ⟨fun hb => ⟨h0, hs, hb⟩, fun hb => hb.2.2⟩
    | none =>
      rw [hn] at h
      rw [replicate_round hnot, exists_cons_iff htext, ← Option.some.inj h]
      refine iff_of_false (by simp) fun hb => ?_
      obtain ⟨h0, hs, -⟩ := hb
      have hmore : starNext false c text ≠ none := by
        rw [starNext, if_pos h0, hs]
        split_ifs <;> simp_all [same]
      exact hmore hn

theorem right (n : ℕ) : HereRight n ∧ StarRight n := by
  induction n with
  | zero =>
    constructor
    · intro re text b _ _ h
      simp [matchhere] at h
    · intro c re text b _ _ h
      simp [matchstar] at h
  | succ n ih => exact ⟨ih.1.succ ih.2, StarRight.succ ih.1 ih.2⟩

theorem accepts_iff (hcaret : re.head? ≠ some caret) :
    Accepts re text ↔ ∃ before rest, text = before ++ rest ∧ Begins re rest := by
  simp only [Accepts, dropCaret, hcaret, if_false, false_implies, true_and]
  constructor
  · rintro ⟨before, w, after, rfl, hw, hend⟩
    exact ⟨before, w ++ after, by simp, w, after, rfl, hw, hend⟩
  · rintro ⟨before, _, rfl, w, after, rfl, hw, hend⟩
    exact ⟨before, w, after, by simp, hw, hend⟩

theorem accepts_caret (re text : List UInt8) : Accepts (caret :: re) text ↔ Begins re text := by
  have hlast : (caret :: re).getLast? = some dollar ↔ re.getLast? = some dollar := by
    cases re with
    | nil => simp [caret, dollar]
    | cons d re => rw [List.getLast?_cons_cons]
  simp only [Accepts, dropCaret, List.head?_cons, if_true, List.tail_cons, hlast, true_implies]
  constructor
  · rintro ⟨_, w, after, rfl, hw, rfl, hend⟩
    exact ⟨w, after, rfl, hw, hend⟩
  · rintro ⟨w, after, rfl, hw, hend⟩
    exact ⟨[], w, after, rfl, hw, rfl, hend⟩

theorem matchFrom_right (hre : (0 : UInt8) ∉ re) : ∀ n text b, (0 : UInt8) ∉ text →
    matchFrom false n re text = some b → (b = true ↔ ∃ before rest, text = before ++ rest ∧ Begins re rest) := by
  intro n
  induction n with
  | zero =>
    intro text b _ h
    simp [matchFrom] at h
  | succ n ih =>
    intro text b htext h
    rw [matchFrom] at h
    obtain ⟨found, hf, h⟩ := Option.bind_eq_some_iff.1 h
    have hfound := (right n).1 re text found hre htext hf
    cases found with
    | true =>
      have hb : b = true := (Option.some.inj h).symm
      exact iff_of_true hb ⟨[], text, rfl, hfound.1 rfl⟩
    | false =>
      have hnot : ¬ Begins re text := fun hb => by simpa using hfound.2 hb
      simp only [Bool.false_eq_true, if_false] at h
      cases text with
      | nil =>
        have hb : b = false := (Option.some.inj h).symm
        refine iff_of_false (by simp [hb]) fun hacc => hnot ?_
        obtain ⟨before, rest, heq, hr⟩ := hacc
        rw [(List.append_eq_nil_iff.1 heq.symm).2] at hr
        exact hr
      | cons a text =>
        have ha : a ≠ 0 := fun h => htext (by simp [h])
        simp only [peek_cons, ne_eq, ha, not_false_eq_true, if_true, List.tail_cons] at h
        rw [ih text b (notMem_tail htext) h]
        constructor
        · rintro ⟨before, rest, rfl, hr⟩
          exact ⟨a :: before, rest, rfl, hr⟩
        · rintro ⟨before, rest, heq, hr⟩
          cases before with
          | nil => exact absurd (heq ▸ hr) hnot
          | cons x before =>
            obtain ⟨-, rfl⟩ := List.cons.inj heq
            exact ⟨before, rest, rfl, hr⟩

theorem matchRe_right (hre : (0 : UInt8) ∉ re) (htext : (0 : UInt8) ∉ text) (h : matchRe false n re text = some b) :
    b = true ↔ Accepts re text := by
  rw [matchRe] at h
  split_ifs at h with hcaret
  · obtain ⟨re', hr⟩ := exists_cons_of_peek (s := re) (by rw [hcaret]; decide)
    rw [hcaret] at hr
    subst hr
    rw [accepts_caret]
    exact (right n).1 re' text b (notMem_tail hre) htext h
  · have hhead : re.head? ≠ some caret := by
      intro heq
      obtain ⟨re', rfl⟩ := List.head?_eq_some_iff.1 heq
      exact hcaret rfl
    rw [accepts_iff hhead]
    exact matchFrom_right hre n text b htext h

/-! ## Case -/

theorem peek_map (s : List UInt8) : peek (s.map toLower) = toLower (peek s) := by
  cases s with
  | nil => rfl
  | cons a s => rfl

theorem toLower_eq_iff (hc : c ∈ [0, caret, dollar, dot, asterisk]) (a : UInt8) : toLower a = c ↔ a = c := by
  unfold toLower
  split_ifs with h
  · simp only [UInt8.le_iff_toNat_le] at h
    have hsum : (a + 32).toNat = (a.toNat + 32) % 256 := UInt8.toNat_add a 32
    have h41 : (0x41 : UInt8).toNat = 0x41 := rfl
    have h5a : (0x5a : UInt8).toNat = 0x5a := rfl
    have hcn : c.toNat ∈ [0, 0x5e, 0x24, 0x2e, 0x2a] := by
      simp only [List.mem_cons, List.not_mem_nil, or_false] at hc
      rcases hc with rfl | rfl | rfl | rfl | rfl <;> decide
    simp only [List.mem_cons, List.not_mem_nil, or_false] at hcn
    rw [← UInt8.toNat_inj, ← UInt8.toNat_inj]
    omega
  · rfl

theorem toLower_beq_zero (a : UInt8) : (toLower a == 0) = (a == 0) := by
  rw [Bool.eq_iff_iff, beq_iff_eq, beq_iff_eq]
  exact toLower_eq_iff (by simp) a

theorem same_lower (a b : UInt8) : same false (toLower a) (toLower b) = same true a b := rfl

theorem starNext_lower (c : UInt8) (text : List UInt8) :
    starNext false (toLower c) (text.map toLower) = (starNext true c text).map (List.map toLower) := by
  simp only [starNext, peek_map, same_lower, ne_eq, toLower_eq_iff (c := 0) (by simp),
    toLower_eq_iff (c := dot) (by simp)]
  split_ifs <;> simp

/-- both functions ignore case exactly by comparing lower-case characters, by induction on the depth of the calls -/
theorem matchhere_lower (n : ℕ) :
    (∀ re text, matchhere false n (re.map toLower) (text.map toLower) = matchhere true n re text) ∧
      ∀ c re text, matchstar false n (toLower c) (re.map toLower) (text.map toLower) = matchstar true n c re text := by
  induction n with
  | zero => exact ⟨fun _ _ => rfl, fun _ _ _ => rfl⟩
  | succ n ih =>
    constructor
    · intro re text
      simp only [matchhere, ← List.map_tail, peek_map, same_lower, ne_eq, toLower_eq_iff (c := 0) (by simp),
        toLower_eq_iff (c := asterisk) (by simp), toLower_eq_iff (c := dollar) (by simp),
        toLower_eq_iff (c := dot) (by simp), toLower_beq_zero, ih.1, ih.2]
    · intro c re text
      rw [matchstar, matchstar, ih.1, starNext_lower]
      cases starNext true c text with
      | none => rfl
      | some text' => simp only [Option.map_some, Option.elim_some, ih.2]

theorem matchFrom_lower (re : List UInt8) : ∀ n text,
    matchFrom false n (re.map toLower) (text.map toLower) = matchFrom true n re text := by
  intro n
  induction n with
  | zero => exact fun _ => rfl
  | succ n ih =>
    intro text
    simp only [matchFrom, (matchhere_lower n).1, ← List.map_tail, ih, peek_map, ne_eq,
      toLower_eq_iff (c := 0) (by simp)]

theorem matchRe_lower (n : ℕ) (re text : List UInt8) :
    matchRe false n (re.map toLower) (text.map toLower) = matchRe true n re text := by
  simp only [matchRe, peek_map, toLower_eq_iff (c := caret) (by simp), ← List.map_tail, (matchhere_lower n).1,
    matchFrom_lower]

/-- the characters of a NUL-terminated string -/
def Str : Type := { s : List UInt8 // (0 : UInt8) ∉ s }

/-- **`match` computes the language of the pattern.** For every text and every pattern without ".*", `match` returns 1
if and only if the pattern accepts the text; with `ignore_case` it returns what it returns without for the
lower-case pattern and text. -/
theorem match_computes_language (re text : Str) (hre : NoDotStar re.1) :
    ∃ n, ∀ m, n ≤ m →
      (∃ b, matchRe false m re.1 text.1 = some b ∧ (b = true ↔ Accepts re.1 text.1)) ∧
      ∃ b, matchRe true m re.1 text.1 = some b ∧
        matchRe false m (re.1.map toLower) (text.1.map toLower) = some b := by
  refine ⟨re.1.length + text.1.length + 2, fun m hm => ⟨?_, ?_⟩⟩
  · obtain ⟨b, hb⟩ := Option.isSome_iff_exists.1
      (matchRe_isSome false hre.harmlessRe (by omega : _ + text.1.length + 1 < m))
    exact ⟨b, hb, matchRe_right re.2 text.2 hb⟩
  · obtain ⟨b, hb⟩ := Option.isSome_iff_exists.1
      (matchRe_isSome true hre.harmlessRe (by omega : _ + text.1.length + 1 < m))
    exact ⟨b, hb, (matchRe_lower m re.1 text.1).trans hb⟩

/-- the pattern "b*$" on "ab" -/
theorem match_computes_language_anchored :
    NoDotStar [0x62, asterisk, dollar] ∧ ∃ n, ∀ m, n ≤ m →
      ∃ b, matchRe false m [0x62, asterisk, dollar] [0x61, 0x62] = some b ∧
        (b = true ↔ Accepts [0x62, asterisk, dollar] [0x61, 0x62]) := by
  refine ⟨by decide, ?_⟩
  obtain ⟨n, hn⟩ := match_computes_language ⟨[0x62, asterisk, dollar], by decide⟩ ⟨[0x61, 0x62], by decide⟩ (by decide)
  exact ⟨n, fun m hm => (hn m hm).1⟩

end Xv6.Grep
