/-
Counting over a table: a sum over its cells when one of them changes.
-/
import Mathlib.Tactic
import Xv6.Core.Crash

namespace Xv6.Core

variable {α : Type} {i n : ℕ}

theorem sum_add_of_ne (g g' : ℕ → ℕ) (hi : i < n) (h : ∀ x, x ≠ i → g' x = g x) :
    ∑ x ∈ Finset.range n, g' x + g i = ∑ x ∈ Finset.range n, g x + g' i := by
  have hmem : i ∈ Finset.range n := Finset.mem_range.2 hi
  have herase : ∑ x ∈ (Finset.range n).erase i, g' x = ∑ x ∈ (Finset.range n).erase i, g x :=
    Finset.sum_congr rfl fun x hx => h x (Finset.ne_of_mem_erase hx)
  rw [← Finset.add_sum_erase _ g' hmem, ← Finset.add_sum_erase _ g hmem, herase]
  ring

theorem sum_set_add (d : Store α) (g : α → ℕ) (hi : i < n) (v : α) :
    ∑ x ∈ Finset.range n, g (d.set i v x) + g (d i) = ∑ x ∈ Finset.range n, g (d x) + g v := by
  have := sum_add_of_ne (fun x => g (d x)) (fun x => g (d.set i v x)) hi fun x hx => by rw [Store.set_ne _ _ hx]
  simpa using this

theorem sum_pos_of (g : ℕ → ℕ) (hi : i < n) (h : 0 < g i) : 0 < ∑ x ∈ Finset.range n, g x :=
  Finset.sum_pos' (fun _ _ => Nat.zero_le _) ⟨i, Finset.mem_range.2 hi, h⟩

end Xv6.Core
