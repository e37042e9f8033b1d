/-
Fixed-size byte blocks and the little-endian fields stored in them.

A block of n bytes is a function on `Fin n`; `get` and `read` look at it by natural-number offset, `write` stores a list
of bytes at an offset. A stored structure is a list of bytes, so every statement about a field is one of two facts:
- `read_write_same`: reading back the range just written gives the list written;
- `read_write_disjoint`: a range that does not meet the written one is unchanged.
`leBytes` and `leVal` are the little-endian digits of a number and their value (`leVal_leBytes`).
-/
import Mathlib.Tactic

namespace Xv6.Core

/-- a block of n bytes -/
abbrev Bytes (n : ℕ) := Fin n → UInt8

namespace Bytes

variable {n : ℕ}

/-- the byte at offset i (0 past the end) -/
def get (b : Bytes n) (i : ℕ) : UInt8 := if h : i < n then b ⟨i, h⟩ else 0

/-- the `len` bytes from offset `off` on -/
def read (b : Bytes n) (off len : ℕ) : List UInt8 := (List.range len).map fun k => b.get (off + k)

/-- store the bytes `l` at offset `off` -/
def write (b : Bytes n) (off : ℕ) (l : List UInt8) : Bytes n :=
  fun j => if off ≤ j.val ∧ j.val < off + l.length then l.getD (j.val - off) 0 else b j

theorem ext_get {b c : Bytes n} (h : ∀ i, b.get i = c.get i) : b = c :=
  funext fun j => by simpa [get] using h j.val

theorem get_write (b : Bytes n) (off : ℕ) (l : List UInt8) (i : ℕ) (hi : i < n) :
    (b.write off l).get i = if off ≤ i ∧ i < off + l.length then l.getD (i - off) 0 else b.get i := by
  simp [get, write, hi]

theorem get_write_in (b : Bytes n) (off : ℕ) (l : List UInt8) (k : ℕ) (hk : k < l.length) (hn : off + l.length ≤ n) :
    (b.write off l).get (off + k) = l[k] := by
  rw [get_write b off l _ (by omega), if_pos ⟨by omega, by omega⟩, Nat.add_sub_cancel_left]
  simp [hk]

theorem get_write_out (b : Bytes n) (off : ℕ) (l : List UInt8) (i : ℕ) (h : i < off ∨ off + l.length ≤ i) :
    (b.write off l).get i = b.get i := by
  by_cases hi : i < n
  · rw [get_write b off l i hi, if_neg (by omega)]
  · simp [get, hi]

@[simp] theorem length_read (b : Bytes n) (off len : ℕ) : (b.read off len).length = len := by simp [read]

theorem getElem_read (b : Bytes n) (off len k : ℕ) (h : k < (b.read off len).length) :
    (b.read off len)[k] = b.get (off + k) := by simp [read]

/-- writing the same range again -/
theorem write_write (b : Bytes n) (off : ℕ) {l m : List UInt8} (h : l.length = m.length) :
    (b.write off l).write off m = b.write off m := by
  funext j
  simp only [write, h]
  split_ifs <;> rfl

/-- reading back what was written -/
theorem read_write_same (b : Bytes n) (off : ℕ) (l : List UInt8) (hn : off + l.length ≤ n) :
    (b.write off l).read off l.length = l := by
  apply List.ext_getElem (by simp)
  intro k h1 h2
  rw [getElem_read, get_write_in b off l k h2 hn]

/-- a range the write does not meet is unchanged -/
theorem read_write_disjoint (b : Bytes n) (off : ℕ) (l : List UInt8) (off' len : ℕ)
    (h : off' + len ≤ off ∨ off + l.length ≤ off') : (b.write off l).read off' len = b.read off' len := by
  apply List.ext_getElem (by simp)
  intro k h1 h2
  simp only [length_read] at h1
  rw [getElem_read, getElem_read, get_write_out b off l _ (by omega)]

/-- a sub-range of the range just written -/
theorem read_write_sub (b : Bytes n) (off : ℕ) (l : List UInt8) (k len : ℕ) (hk : k + len ≤ l.length)
    (hn : off + l.length ≤ n) : (b.write off l).read (off + k) len = (l.drop k).take len := by
  apply List.ext_getElem (by simp; omega)
  intro j h1 h2
  simp only [length_read] at h1
  rw [getElem_read, Nat.add_assoc, get_write_in b off l (k + j) (by omega) hn]
  simp

end Bytes

/-! ## Little-endian numbers -/

/-- the w low-order little-endian digits of v -/
def leBytes : ℕ → ℕ → List UInt8
  | 0, _ => []
  | w + 1, v => UInt8.ofNat (v % 256) :: leBytes w (v / 256)

/-- the number a list of little-endian digits denotes -/
def leVal : List UInt8 → ℕ
  | [] => 0
  | d :: l => d.toNat + 256 * leVal l

@[simp] theorem length_leBytes (w v : ℕ) : (leBytes w v).length = w := by
  induction w generalizing v with
  | zero => rfl
  | succ w ih => simp [leBytes, ih]

theorem leVal_leBytes (w v : ℕ) : leVal (leBytes w v) = v % 256 ^ w := by
  induction w generalizing v with
  | zero => simp [leBytes, leVal, Nat.mod_one]
  | succ w ih =>
    have hd : (UInt8.ofNat (v % 256)).toNat = v % 256 := by simp
    rw [leBytes, leVal, ih, hd, pow_succ', Nat.mod_mul]

theorem leVal_leBytes_lt {w v : ℕ} (h : v < 256 ^ w) : leVal (leBytes w v) = v := by
  rw [leVal_leBytes, Nat.mod_eq_of_lt h]

theorem leVal_lt (l : List UInt8) : leVal l < 256 ^ l.length := by
  induction l with
  | nil => simp [leVal]
  | cons d l ih =>
    have := d.toNat_lt
    simp only [leVal, List.length_cons, pow_succ']
    omega

end Xv6.Core
