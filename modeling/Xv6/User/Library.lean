/-
Functions that the kernel and the user library both have: `memmove` (kernel/string.c, user/ulib.c) and `printint`
(kernel/printf.c, user/printf.c), with the `vprintf` of user programs.

- `memmove_overlap`: both copy, whatever the ranges, and so they agree. Memory is a function of the address, and a range
  does not wrap around its end.
- `vprintf_numeral`: the user's `vprintf` prints a `long` of up to 32 bits like the kernel's `printint`, which prints
  every 64-bit number (`Kernel.printint_eq`). `vprintf_truncates`: longer ones lose their upper half.
-/
import Xv6.Core.Crash

namespace Xv6.Lib

open Xv6.Core

/-! ## `memmove` -/

/-- `while(n-- > 0) *d++ = *s++` -/
def forward : ℕ → ℕ → ℕ → Store UInt8 → Store UInt8
  | 0, _, _, m => m
  | n + 1, d, s, m => forward n (d + 1) (s + 1) (m.set d (m s))

/-- `while(n-- > 0) *--d = *--s` -/
def backward : ℕ → ℕ → ℕ → Store UInt8 → Store UInt8
  | 0, _, _, m => m
  | n + 1, d, s, m => backward n (d - 1) (s - 1) (m.set (d - 1) (m (s - 1)))

def Kernel.memmove (dst src : ℕ) (n : UInt32) (m : Store UInt8) : Store UInt8 :=
  if n = 0 then m
  else if src < dst ∧ src + n.toNat > dst then backward n.toNat (dst + n.toNat) (src + n.toNat) m
  else forward n.toNat dst src m

def User.memmove (dst src : ℕ) (n : Int32) (m : Store UInt8) : Store UInt8 :=
  if src > dst then forward n.toInt.toNat dst src m
  else backward n.toInt.toNat (dst + n.toInt).toNat (src + n.toInt).toNat m

/-- the n bytes at src are at dst, and every other byte is as it was -/
def copied (dst src n : ℕ) (m : Store UInt8) : Store UInt8 :=
  fun a => if dst ≤ a ∧ a < dst + n then m (src + (a - dst)) else m a

variable {m : Store UInt8} {dst src n : ℕ}

/-- upwards, no byte is overwritten before it is read if dst is below src or behind its end -/
theorem forward_eq (h : dst ≤ src ∨ src + n ≤ dst) : forward n dst src m = copied dst src n m := by
  induction n generalizing dst src m with
  | zero =>
    funext a
    rw [copied, if_neg (by omega)]
    rfl
  | succ n ih =>
    rw [forward, ih (by omega)]
    funext a
    unfold copied
    by_cases ha : dst + 1 ≤ a ∧ a < dst + 1 + n
    · rw [if_pos ha, if_pos (by omega), Store.set_ne _ _ (by omega), show src + 1 + (a - (dst + 1)) = src + (a - dst) by
        omega]
    · rw [if_neg ha]
      by_cases hd : a = dst
      · rw [if_pos (by omega), hd, Store.set_self, Nat.sub_self, Nat.add_zero]
      · rw [if_neg (by omega), Store.set_ne _ _ hd]

theorem backward_eq (h : src ≤ dst ∨ dst + n ≤ src) :
    backward n (dst + n) (src + n) m = copied dst src n m := by
  induction n generalizing m with
  | zero =>
    funext a
    rw [copied, if_neg (by omega)]
    rfl
  | succ n ih =>
    show backward n (dst + n) (src + n) (m.set (dst + n) (m (src + n))) = _
    rw [ih (by omega)]
    funext a
    unfold copied
    by_cases ha : dst ≤ a ∧ a < dst + n
    · rw [if_pos ha, if_pos (by omega), Store.set_ne _ _ (by omega)]
    · rw [if_neg ha]
      by_cases hd : a = dst + n
      · rw [if_pos (by omega), hd, Store.set_self, Nat.add_sub_cancel_left]
      · rw [if_neg (by omega), Store.set_ne _ _ hd]

theorem Kernel.memmove_eq (n : UInt32) : Kernel.memmove dst src n m = copied dst src n.toNat m := by
  unfold Kernel.memmove
  split_ifs with h0 hover
  · subst h0
    exact forward_eq (n := 0) (Nat.le_total _ _)
  · exact backward_eq (Or.inl hover.1.le)
  · exact forward_eq (by omega)

theorem User.memmove_eq (n : Int32) : User.memmove dst src n m = copied dst src n.toInt.toNat m := by
  unfold User.memmove
  split_ifs with h
  · exact forward_eq (Or.inl h.le)
  rcases Int.le_total 0 n.toInt with hn | hn
  · obtain ⟨k, hk⟩ := Int.eq_ofNat_of_zero_le hn
    rw [hk, ← Nat.cast_add, ← Nat.cast_add, Int.toNat_natCast, Int.toNat_natCast, Int.toNat_natCast]
    exact backward_eq (Or.inl (Nat.le_of_not_lt h))
  · -- nothing is copied
    rw [Int.toNat_of_nonpos hn]
    exact forward_eq (n := 0) (Nat.le_total _ _)

/-- **`memmove` copies, also between ranges that overlap**, in the kernel for every `uint` and in the user library for
every `int`, where a negative length is one of 0. So the two agree. -/
theorem memmove_overlap (m : Store UInt8) (dst src : ℕ) :
    (∀ n : UInt32, Kernel.memmove dst src n m = copied dst src n.toNat m) ∧
    (∀ n : Int32, User.memmove dst src n m = copied dst src n.toInt.toNat m) ∧
    ∀ n : Int32, User.memmove dst src n m = Kernel.memmove dst src (UInt32.ofNat n.toInt.toNat) m := by
  refine ⟨Kernel.memmove_eq, User.memmove_eq, fun n => ?_⟩
  have := n.toInt_lt
  rw [Kernel.memmove_eq, User.memmove_eq, UInt32.toNat_ofNat_of_lt' (by show _ < 2 ^ 32; omega)]

/-! ## `printint` -/

/-- the digits of x in the order in which they are printed: the last one is stored first. n bounds the rounds. -/
def digitLoop (digits : List Char) (base : ℕ) : ℕ → ℕ → List Char → List Char
  | 0, _, buf => buf
  | n + 1, x, buf =>
    if x / base = 0 then digits.getD (x % base) '*' :: buf
    else digitLoop digits base n (x / base) (digits.getD (x % base) '*' :: buf)

/-- what is printed for x, after a sign if there is one -/
def printDigits (digits : List Char) (base x : ℕ) (neg : Bool) : List Char :=
  (if neg then ['-'] else []) ++ digitLoop digits base (x + 1) x []

def Kernel.digits : List Char := "0123456789abcdef".toList

def User.digits : List Char := "0123456789ABCDEF".toList

def Kernel.printint (xx : Int64) (base : ℕ) (sign : Bool) : List Char :=
  let neg := sign && decide (xx < 0)
  let x : UInt64 := (if neg then -xx else xx).toUInt64
  printDigits Kernel.digits base x.toNat neg

/-- x is a `uint` here -/
def User.printint (xx : Int64) (base : ℕ) (sgn : Bool) : List Char :=
  let neg := sgn && decide (xx < 0)
  let x : UInt32 := (if neg then -xx else xx).toUInt64.toUInt32
  printDigits User.digits base x.toNat neg

def printptrLoop : ℕ → UInt64 → List Char
  | 0, _ => []
  | n + 1, x => User.digits.getD (x >>> 60).toNat '*' :: printptrLoop n (x <<< 4)

def printptr (x : UInt64) : List Char := '0' :: 'x' :: printptrLoop 16 x

/-- The arguments are 64-bit words, and str is the string at an address. -/
def vprintf (str : UInt64 → List Char) : List Char → List UInt64 → List Char
  | [], _ => []
  | '%' :: 'd' :: fmt, ap => User.printint (ap.headD 0).toUInt32.toInt32.toInt64 10 true ++ vprintf str fmt ap.tail
  | '%' :: 'l' :: 'd' :: fmt, ap => User.printint (ap.headD 0).toInt64 10 true ++ vprintf str fmt ap.tail
  | '%' :: 'l' :: 'l' :: 'd' :: fmt, ap => User.printint (ap.headD 0).toInt64 10 true ++ vprintf str fmt ap.tail
  | '%' :: 'u' :: fmt, ap => User.printint (ap.headD 0).toUInt32.toUInt64.toInt64 10 false ++ vprintf str fmt ap.tail
  | '%' :: 'l' :: 'u' :: fmt, ap => User.printint (ap.headD 0).toInt64 10 false ++ vprintf str fmt ap.tail
  | '%' :: 'l' :: 'l' :: 'u' :: fmt, ap => User.printint (ap.headD 0).toInt64 10 false ++ vprintf str fmt ap.tail
  | '%' :: 'x' :: fmt, ap => User.printint (ap.headD 0).toUInt32.toUInt64.toInt64 16 false ++ vprintf str fmt ap.tail
  | '%' :: 'l' :: 'x' :: fmt, ap => User.printint (ap.headD 0).toInt64 16 false ++ vprintf str fmt ap.tail
  | '%' :: 'l' :: 'l' :: 'x' :: fmt, ap => User.printint (ap.headD 0).toInt64 16 false ++ vprintf str fmt ap.tail
  | '%' :: 'p' :: fmt, ap => printptr (ap.headD 0) ++ vprintf str fmt ap.tail
  | '%' :: 'c' :: fmt, ap => Char.ofNat ((ap.headD 0).toNat % 256) :: vprintf str fmt ap.tail
  | '%' :: 's' :: fmt, ap =>
    (if ap.headD 0 = 0 then "(null)".toList else str (ap.headD 0)) ++ vprintf str fmt ap.tail
  | '%' :: '%' :: fmt, ap => '%' :: vprintf str fmt ap
  | ['%'], _ => []
  | '%' :: c :: fmt, ap => '%' :: c :: vprintf str fmt ap
  | c :: fmt, ap => c :: vprintf str fmt ap

/-- the number that v stands for -/
def value (sgn : Bool) (v : UInt64) : ℤ := if sgn then v.toInt64.toInt else v.toNat

/-- the numeral of a number -/
def numeral (base : ℕ) (z : ℤ) : List Char := (if z < 0 then ['-'] else []) ++ Nat.toDigits base z.natAbs

/-- the digits are those of core's numerals -/
theorem digitLoop_eq {digits : List Char} {f : Char → Char} {base : ℕ} (hb : 0 < base)
    (hd : ∀ k, k < base → digits.getD k '*' = f (Nat.digitChar k)) (n x : ℕ) (buf : List Char) :
    digitLoop digits base n x (buf.map f) = (Nat.toDigitsCore base n x buf).map f := by
  induction n generalizing x buf with
  | zero => rfl
  | succ n ih =>
    rw [digitLoop, Nat.toDigitsCore, hd _ (Nat.mod_lt _ hb)]
    split_ifs
    · rfl
    · exact ih _ (_ :: buf)

theorem printDigits_eq {digits : List Char} {f : Char → Char} {base : ℕ} (hb : 0 < base) (hf : f '-' = '-')
    (hd : ∀ k, k < base → digits.getD k '*' = f (Nat.digitChar k)) (x : ℕ) (neg : Bool) :
    printDigits digits base x neg = ((if neg then ['-'] else []) ++ Nat.toDigits base x).map f := by
  rw [List.map_append, Nat.toDigits, ← digitLoop_eq hb hd]
  cases neg <;> simp [printDigits, hf]

theorem toNat_magnitude (v : UInt64) (sgn : Bool) : (sgn && decide (v.toInt64 < 0)) = decide (value sgn v < 0) ∧
    (if sgn && decide (v.toInt64 < 0) then -v.toInt64 else v.toInt64).toUInt64.toNat = (value sgn v).natAbs := by
  have hneg : v.toInt64 < 0 ↔ v.toInt64.toInt < 0 := Int64.lt_iff_toInt_lt
  have hint : v.toInt64.toInt = if 2 * v.toNat < 2 ^ 64 then (v.toNat : ℤ) else v.toNat - (2 ^ 64 : ℕ) :=
    BitVec.toInt_eq_toNat_cond v.toBitVec
  have hlt := v.toNat_lt
  cases sgn with
  | false => simp [value]
  | true =>
    simp only [Bool.true_and, value, if_true, hneg, decide_eq_true_eq]
    refine ⟨trivial, ?_⟩
    split_ifs at hint ⊢ <;>
      simp only [Int64.toUInt64_neg, UInt64.toUInt64_toInt64, UInt64.toNat_neg, UInt64.size] <;> omega

/-- the kernel prints every number -/
theorem Kernel.printint_eq {base : ℕ} (hb : base = 10 ∨ base = 16) (v : UInt64) (sign : Bool) :
    Kernel.printint v.toInt64 base sign = numeral base (value sign v) := by
  obtain ⟨hsign, habs⟩ := toNat_magnitude v sign
  have hd : ∀ k, k < base → Kernel.digits.getD k '*' = id (Nat.digitChar k) := by
    rcases hb with rfl | rfl <;> decide
  unfold Kernel.printint numeral
  rw [printDigits_eq (by omega) rfl hd, List.map_id, habs, hsign]
  simp

/-- the format of a 64-bit number, its base and whether it has a sign -/
def conversions : List (List Char × ℕ × Bool) :=
  [("ld".toList, 10, true), ("lld".toList, 10, true), ("lu".toList, 10, false), ("llu".toList, 10, false),
    ("lx".toList, 16, false), ("llx".toList, 16, false)]

/-- different digits stay different in upper case -/
theorem upper_digit_inj {a b : ℕ} (ha : a < 16) (hb : b < 16)
    (h : Char.toUpper (Nat.digitChar a) = Char.toUpper (Nat.digitChar b)) : a = b :=
  (by decide : ∀ a < 16, ∀ b < 16, Char.toUpper (Nat.digitChar a) = Char.toUpper (Nat.digitChar b) → a = b) a ha b hb h

theorem upper_toDigits_inj {base x y : ℕ} (h1 : 1 < base) (h16 : base ≤ 16)
    (h : (Nat.toDigits base x).map Char.toUpper = (Nat.toDigits base y).map Char.toUpper) : x = y := by
  induction x using Nat.strong_induction_on generalizing y with
  | _ x ih =>
    have hmod : ∀ z, z % base < 16 := fun z => (Nat.mod_lt z (by omega)).trans_le h16
    rw [Nat.toDigits_eq_if (n := x) h1, Nat.toDigits_eq_if (n := y) h1] at h
    split_ifs at h with hx hy hy
    · exact upper_digit_inj (by omega) (by omega) (by simpa using h)
    · have hlen := congrArg List.length h
      have hpos : 0 < (Nat.toDigits base (y / base)).length := Nat.length_toDigits_pos
      simp only [List.length_map, List.length_append, List.length_singleton] at hlen
      omega
    · have hlen := congrArg List.length h
      have hpos : 0 < (Nat.toDigits base (x / base)).length := Nat.length_toDigits_pos
      simp only [List.length_map, List.length_append, List.length_singleton] at hlen
      omega
    · rw [List.map_append, List.map_append] at h
      obtain ⟨hdiv, hlast⟩ := List.append_inj' h rfl
      have hq := ih (x / base) (Nat.div_lt_self (by omega) h1) hdiv
      have hr := upper_digit_inj (hmod x) (hmod y) (by simpa using hlast)
      rw [← Nat.div_add_mod x base, ← Nat.div_add_mod y base, hq, hr]

theorem User.printint_eq {base : ℕ} (hb : base = 10 ∨ base = 16) (v : UInt64) (sgn : Bool) :
    User.printint v.toInt64 base sgn = ((if value sgn v < 0 then ['-'] else []) ++
      Nat.toDigits base ((value sgn v).natAbs % 2 ^ 32)).map Char.toUpper := by
  obtain ⟨hsign, habs⟩ := toNat_magnitude v sgn
  have hd : ∀ k, k < base → User.digits.getD k '*' = Char.toUpper (Nat.digitChar k) := by
    rcases hb with rfl | rfl <;> decide
  unfold User.printint
  rw [printDigits_eq (by omega) (by decide) hd, UInt64.toNat_toUInt32, habs, hsign]
  simp

theorem User.printint_iff {base : ℕ} (hb : base = 10 ∨ base = 16) (v : UInt64) (sgn : Bool) :
    User.printint v.toInt64 base sgn = (numeral base (value sgn v)).map Char.toUpper ↔
      (value sgn v).natAbs < 2 ^ 32 := by
  rw [User.printint_eq hb, numeral, List.map_append, List.map_append, List.append_cancel_left_eq]
  constructor
  · intro h
    rw [← upper_toDigits_inj (by omega) (by omega) h]
    exact Nat.mod_lt _ (by decide)
  · intro h
    rw [Nat.mod_eq_of_lt h]

/-- **`vprintf` prints exactly the numbers of up to 32 bits right.** The kernel's `printint` prints the numeral of every
number. At any place of a format, `vprintf` prints the same numeral, in upper case, if and only if the number without
its sign is below 2^32. -/
theorem vprintf_numeral (str : UInt64 → List Char) (fmt : List Char) (ap : List UInt64) (v : UInt64)
    (x : List Char × ℕ × Bool) (hx : x ∈ conversions) :
    Kernel.printint v.toInt64 x.2.1 x.2.2 = numeral x.2.1 (value x.2.2 v) ∧
    (vprintf str ('%' :: x.1 ++ fmt) (v :: ap) =
      (Kernel.printint v.toInt64 x.2.1 x.2.2).map Char.toUpper ++ vprintf str fmt ap ↔
        (value x.2.2 v).natAbs < 2 ^ 32) := by
  have hbase : x.2.1 = 10 ∨ x.2.1 = 16 := (by decide : ∀ x ∈ conversions, x.2.1 = 10 ∨ x.2.1 = 16) x hx
  have hkernel := Kernel.printint_eq hbase v x.2.2
  have hprint : vprintf str ('%' :: x.1 ++ fmt) (v :: ap) =
      User.printint v.toInt64 x.2.1 x.2.2 ++ vprintf str fmt ap := by
    simp only [conversions, List.mem_cons, List.not_mem_nil, or_false] at hx
    rcases hx with rfl | rfl | rfl | rfl | rfl | rfl <;> rfl
  rw [hprint, hkernel, List.append_cancel_right_eq]
  exact ⟨rfl, User.printint_iff hbase v x.2.2⟩

theorem vprintf_numeral_minus_one : vprintf (fun _ => []) "%ld".toList [0xFFFFFFFFFFFFFFFF] = "-1".toList :=
  ((vprintf_numeral (fun _ => []) [] [] 0xFFFFFFFFFFFFFFFF ("ld".toList, 10, true) List.mem_cons_self).2.mpr
    (by decide +kernel)).trans (by decide +kernel)

/-- 2^32 is printed as 0 -/
theorem vprintf_truncates :
    vprintf (fun _ => []) "%ld %llu %lx".toList [4294967296, 4294967296, 4294967296] = "0 0 0".toList ∧
    Kernel.printint 4294967296 10 true = "4294967296".toList := by decide +kernel

end Xv6.Lib
