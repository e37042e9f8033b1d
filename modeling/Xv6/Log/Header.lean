/-
The log header (kernel/log.c, `struct logheader`): an `int n` and an array of `int` block numbers, at the front of the
header block. In memory it is the list `block[0..n)`; on disk it is the bytes of the header block.

- `setHead` is the assignment loop of `write_head`, `readHead` the loop of `read_head`.
-/
import Xv6.Core.Bytes
import Xv6.Param

namespace Xv6

open Xv6.Core

/-- the content of one disk block -/
abbrev Block := Bytes BSIZE

/-- the i-th 32-bit word of a block -/
def word (b : Block) (i : ℕ) : ℕ := leVal (b.read (4 * i) 4)

/-- `lh->n`: an `int`, so a word with the top bit set counts as negative and no loop up to it runs -/
def headN (b : Block) : ℕ := if word b 0 < 2 ^ 31 then word b 0 else 0

/-- the entries that `read_head` copies out of the header block -/
def readHead (b : Block) : List ℕ := (List.range (headN b)).map fun i => word b (i + 1)

/-- the words that `write_head` assigns: n, then `block[0..n)` -/
def headWords (lh : List ℕ) : List UInt8 := (lh.length :: lh).flatMap (leBytes 4)

/-- the header block after the assignments of `write_head`; the words past `block[n-1]` keep their old content -/
def setHead (b : Block) (lh : List ℕ) : Block := b.write 0 (headWords lh)

theorem length_flatMap_leBytes (l : List ℕ) : (l.flatMap (leBytes 4)).length = 4 * l.length := by
  induction l with
  | nil => rfl
  | cons v l ih => simp only [List.flatMap_cons, List.length_append, length_leBytes, ih, List.length_cons]; omega

theorem length_headWords (lh : List ℕ) : (headWords lh).length = 4 * (lh.length + 1) := by
  rw [headWords, length_flatMap_leBytes, List.length_cons]

theorem take_drop_words (l : List ℕ) (i : ℕ) (h : i < l.length) :
    ((l.flatMap (leBytes 4)).drop (4 * i)).take 4 = leBytes 4 l[i] := by
  induction l generalizing i with
  | nil => simp at h
  | cons v l ih =>
    cases i with
    | zero => simp
    | succ i =>
      have hlen : (leBytes 4 v).length = 4 := length_leBytes 4 v
      rw [List.flatMap_cons, List.drop_append, List.drop_of_length_le (by omega), List.nil_append, hlen,
        show 4 * (i + 1) - 4 = 4 * i by omega]
      exact ih i (by simpa using h)

theorem word_setHead (b : Block) (lh : List ℕ) (hn : lh.length ≤ LOGBLOCKS) (hw : ∀ x ∈ lh, x < 2 ^ 32) (i : ℕ)
    (hi : i < (lh.length :: lh).length) : word (setHead b lh) i = (lh.length :: lh)[i] := by
  have hlen := length_headWords lh
  have hi' : i < lh.length + 1 := by simpa using hi
  have hB : lh.length ≤ 30 := hn
  have hsmall : ∀ x ∈ lh.length :: lh, x < 256 ^ 4 := by
    intro x hx
    rcases List.mem_cons.1 hx with rfl | hx
    · have : (30 : ℕ) < 256 ^ 4 := by norm_num
      omega
    · exact hw x hx
  have hr := Bytes.read_write_sub b 0 (headWords lh) (4 * i) 4 (by omega)
    (by rw [hlen]; show 0 + 4 * (lh.length + 1) ≤ 1024; omega)
  rw [Nat.zero_add] at hr
  rw [word, setHead, hr, headWords, take_drop_words _ _ hi, leVal_leBytes_lt (hsmall _ (List.getElem_mem hi))]

theorem headN_setHead (b : Block) (lh : List ℕ) (hn : lh.length ≤ LOGBLOCKS) (hw : ∀ x ∈ lh, x < 2 ^ 32) :
    headN (setHead b lh) = lh.length := by
  have h0 : word (setHead b lh) 0 = lh.length := word_setHead b lh hn hw 0 (by simp)
  have hB : lh.length ≤ 30 := hn
  rw [headN, h0, if_pos (by omega)]

/-- **A written header is read back.** -/
theorem readHead_setHead (b : Block) (lh : List ℕ) (hn : lh.length ≤ LOGBLOCKS) (hw : ∀ x ∈ lh, x < 2 ^ 32) :
    readHead (setHead b lh) = lh := by
  apply List.ext_getElem
  · simp [readHead, headN_setHead b lh hn hw]
  · intro i h1 h2
    simp only [readHead, List.getElem_map, List.getElem_range]
    rw [word_setHead b lh hn hw (i + 1) (by simpa using h2)]
    simp

theorem headN_clear (b : Block) : headN (setHead b []) = 0 := headN_setHead b [] (by simp) (by simp)

theorem readHead_of_headN_zero {b : Block} (h : headN b = 0) : readHead b = [] := by simp [readHead, h]

-- a word is used through `word_setHead` and its like, never byte by byte
attribute [irreducible] word

end Xv6
