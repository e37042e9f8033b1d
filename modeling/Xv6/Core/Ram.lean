/-
Flat memory: a byte at every address.

`write` stores a list of bytes, `fill` a constant, `read` gets a list of bytes, `load` and `store` a little-endian
number.
- `load_store`: a number that fits is read back.
- `Holds`: the bytes of a list are at an address, with the rules for appending and for stores.
- `load_congr`: what is read depends only on the bytes of the range, so a write outside it is not seen.
-/
import Xv6.Core.Bytes
import Xv6.Core.Crash

namespace Xv6.Core

abbrev Ram := Store UInt8

namespace Ram

variable {m m' : Ram} {a n x v w : ℕ} {c : UInt8}

def read (m : Ram) (a n : ℕ) : List UInt8 := (List.range n).map fun k => m (a + k)

def write (m : Ram) (a : ℕ) (l : List UInt8) : Ram :=
  fun x => if a ≤ x ∧ x < a + l.length then l.getD (x - a) 0 else m x

def fill (m : Ram) (a n : ℕ) (v : UInt8) : Ram := fun x => if a ≤ x ∧ x < a + n then v else m x

/-- copy n bytes from b to a; the ranges do not overlap -/
def copy (m : Ram) (a b n : ℕ) : Ram := fun x => if a ≤ x ∧ x < a + n then m (b + (x - a)) else m x

/-- the number in the w bytes from a on -/
def load (m : Ram) (w a : ℕ) : ℕ := leVal (m.read a w)

def store (m : Ram) (w a v : ℕ) : Ram := m.write a (leBytes w v)

@[simp] theorem length_read (m : Ram) (a n : ℕ) : (m.read a n).length = n := by simp [read]

theorem read_congr (h : ∀ x, a ≤ x → x < a + n → m' x = m x) : m'.read a n = m.read a n := by
  unfold read
  refine List.map_congr_left fun k hk => ?_
  have hk' := List.mem_range.mp hk
  exact h _ (by omega) (by omega)

theorem load_congr (h : ∀ x, a ≤ x → x < a + w → m' x = m x) : m'.load w a = m.load w a := by
  unfold load
  rw [read_congr h]

theorem write_out (l : List UInt8) (h : x < a ∨ a + l.length ≤ x) : m.write a l x = m x := by
  unfold write
  rw [if_neg (by omega)]

theorem write_in (l : List UInt8) {k : ℕ} (hk : k < l.length) : m.write a l (a + k) = l[k] := by
  unfold write
  rw [if_pos (by omega), Nat.add_sub_cancel_left]
  exact (List.getElem_eq_getD 0).symm

theorem read_write (l : List UInt8) : (m.write a l).read a l.length = l := by
  refine List.ext_getElem (by simp) fun k _ hk => ?_
  simp only [read, List.getElem_map, List.getElem_range]
  exact write_in l hk

theorem fill_in (h : a ≤ x) (h' : x < a + n) : m.fill a n c x = c := by
  unfold fill
  rw [if_pos ⟨h, h'⟩]

theorem fill_out (h : x < a ∨ a + n ≤ x) : m.fill a n c x = m x := by
  unfold fill
  rw [if_neg (by omega)]

theorem copy_in {b : ℕ} (h : a ≤ x) (h' : x < a + n) : m.copy a b n x = m (b + (x - a)) := by
  unfold copy
  rw [if_pos ⟨h, h'⟩]

theorem copy_out {b : ℕ} (h : x < a ∨ a + n ≤ x) : m.copy a b n x = m x := by
  unfold copy
  rw [if_neg (by omega)]

theorem store_out (h : x < a ∨ a + w ≤ x) : m.store w a v x = m x := by
  unfold store
  exact write_out _ (by rwa [length_leBytes])

theorem load_store (h : v < 256 ^ w) : (m.store w a v).load w a = v := by
  have hread : (m.store w a v).read a w = leBytes w v := by
    have := read_write (m := m) (a := a) (leBytes w v)
    rwa [length_leBytes] at this
  unfold load
  rw [hread, leVal_leBytes_lt h]

theorem load_store_ne {b : ℕ} (h : b + w ≤ a ∨ a + w ≤ b) : (m.store w a v).load w b = m.load w b :=
  load_congr fun x _ _ => store_out (by omega)

theorem load_lt (m : Ram) (w a : ℕ) : m.load w a < 256 ^ w := by
  have := leVal_lt (m.read a w)
  rwa [length_read] at this

theorem leVal_zeros (l : List UInt8) (h : ∀ d ∈ l, d = 0) : leVal l = 0 := by
  induction l with
  | nil => rfl
  | cons d l ih =>
    have hd : d = 0 := h d List.mem_cons_self
    have hl := ih fun e he => h e (List.mem_cons_of_mem _ he)
    rw [leVal, hl, hd]
    rfl

theorem load_zero (h : ∀ x, a ≤ x → x < a + w → m x = 0) : m.load w a = 0 := by
  refine leVal_zeros _ fun d hd => ?_
  obtain ⟨k, hk, rfl⟩ := List.mem_map.mp hd
  have hk' := List.mem_range.mp hk
  exact h _ (by omega) (by omega)

/-! ### Ranges -/

section
variable {b : ℕ} {l l' : List UInt8}

/-- the bytes l are at a -/
def Holds (m : Ram) (a : ℕ) (l : List UInt8) : Prop := ∀ i, (hi : i < l.length) → m (a + i) = l[i]

theorem read_add (m : Ram) (a n k : ℕ) : m.read a (n + k) = m.read a n ++ m.read (a + n) k := by
  simp [read, List.range_add, Function.comp_def, Nat.add_assoc]

theorem Holds.read (h : Holds m a l) : m.read a l.length = l :=
  List.ext_getElem (by simp) fun i h1 h2 => by simpa [Ram.read] using h i h2

theorem Holds.append (h : Holds m a l) (h' : Holds m (a + l.length) l') : Holds m a (l ++ l') := by
  intro i hi
  rw [List.length_append] at hi
  by_cases hit : i < l.length
  · rw [List.getElem_append_left hit]
    exact h i hit
  · rw [List.getElem_append_right (by omega), ← h' (i - l.length) (by omega)]
    congr 1
    omega

theorem Holds.left (h : Holds m a (l ++ l')) : Holds m a l := fun i hi => by
  rw [h i (by rw [List.length_append]; omega), List.getElem_append_left hi]

theorem Holds.right (h : Holds m a (l ++ l')) : Holds m (a + l.length) l' := fun i hi => by
  have := h (l.length + i) (by rw [List.length_append]; omega)
  rw [Nat.add_assoc, this, List.getElem_append_right (by omega)]
  simp

theorem Holds.head (h : Holds m a (c :: l)) : m a = c ∧ Holds m (a + 1) l :=
  ⟨h 0 (by simp), Holds.right (l := [c]) h⟩

theorem Holds.write (h : Holds m a l) (hb : a + l.length ≤ b ∨ b + l'.length ≤ a) : Holds (m.write b l') a l :=
  fun i hi => by rw [write_out l' (by omega), h i hi]

theorem holds_write (m : Ram) (a : ℕ) (l : List UInt8) : Holds (m.write a l) a l := fun _ hi => write_in l hi

end

end Ram

end Xv6.Core
