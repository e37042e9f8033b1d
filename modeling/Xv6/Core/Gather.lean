/-
The values of a partial function on the numbers below a bound, as a multiset.

- `gather_update_some`, `gather_update_none`: filling an empty place adds a value, and emptying one takes it away.
- `nodup_gather`: no value is there twice iff no two places have the same value.
-/
import Mathlib.Tactic

namespace Xv6.Core

variable {α : Type} {n i : ℕ} {f g : ℕ → Option α} {a : α}

def gather (n : ℕ) (f : ℕ → Option α) : Multiset α := (Multiset.range n).filterMap f

theorem mem_gather : a ∈ gather n f ↔ ∃ i, i < n ∧ f i = some a := by
  unfold gather
  rw [Multiset.mem_filterMap]
  simp only [Multiset.mem_range]

theorem gather_succ (n : ℕ) (f : ℕ → Option α) : gather (n + 1) f = (f n).elim 0 (fun a => {a}) + gather n f := by
  unfold gather
  rw [Multiset.range_succ]
  cases h : f n with
  | none => rw [Multiset.filterMap_cons_none _ _ h, Option.elim_none, zero_add]
  | some a => rw [Multiset.filterMap_cons_some _ _ _ h, Option.elim_some, Multiset.singleton_add]

theorem gather_congr (h : ∀ i, i < n → f i = g i) : gather n f = gather n g := by
  induction n with
  | zero => rfl
  | succ n ih => rw [gather_succ, gather_succ, h n (Nat.lt_succ_self n), ih fun i hi => h i (by omega)]

@[simp] theorem gather_none (n : ℕ) : gather n (fun _ => (none : Option α)) = 0 := by
  induction n with
  | zero => rfl
  | succ n ih => rw [gather_succ, ih]; rfl

theorem gather_split (n : ℕ) (f : ℕ → Option α) (q : ℕ → Prop) [DecidablePred q] :
    gather n f = gather n (fun i => if q i then f i else none) + gather n (fun i => if q i then none else f i) := by
  induction n with
  | zero => rfl
  | succ n ih =>
    rw [gather_succ, gather_succ, gather_succ, ih]
    by_cases hq : q n
    · rw [if_pos hq, if_pos hq, Option.elim_none, zero_add, add_assoc]
    · rw [if_neg hq, if_neg hq, Option.elim_none, zero_add, add_left_comm]

theorem gather_erase (hi : i < n) (f : ℕ → Option α) :
    gather n f = (f i).elim 0 (fun a => {a}) + gather n (Function.update f i none) := by
  induction n with
  | zero => omega
  | succ n ih =>
    rw [gather_succ, gather_succ]
    by_cases hin : i = n
    · subst hin
      rw [Function.update_self, Option.elim_none, zero_add]
      congr 1
      exact gather_congr fun k hk => (Function.update_of_ne (by omega) _ _).symm
    · rw [Function.update_of_ne (fun h => hin h.symm), ih (by omega), add_left_comm]

theorem gather_update_none (hi : i < n) (h : f i = some a) :
    gather n f = a ::ₘ gather n (Function.update f i none) := by
  rw [gather_erase hi, h, Option.elim_some, Multiset.singleton_add]

theorem gather_update_some (hi : i < n) (h : f i = none) :
    gather n (Function.update f i (some a)) = a ::ₘ gather n f := by
  rw [gather_update_none hi (Function.update_self i (some a) f), Function.update_idem, ← h, Function.update_eq_self]

theorem nodup_gather : (gather n f).Nodup ↔ ∀ i j a, i < n → j < n → f i = some a → f j = some a → i = j := by
  induction n with
  | zero => exact iff_of_true Multiset.nodup_zero fun i j a hi => absurd hi (Nat.not_lt_zero i)
  | succ n ih =>
    rw [gather_succ]
    constructor
    · intro h i j a hi hj hfi hfj
      have hrest := ih.mp (Multiset.nodup_of_le (Multiset.le_add_left _ _) h)
      -- a value of place n is not the value of a smaller place
      have hlast : ∀ k, k < n → f n = some a → f k = some a → False := by
        intro k hk hn hfk
        rw [hn, Option.elim_some, Multiset.singleton_add, Multiset.nodup_cons] at h
        exact h.1 (mem_gather.mpr ⟨k, hk, hfk⟩)
      rcases Nat.lt_succ_iff_lt_or_eq.mp hi with hi' | rfl <;> rcases Nat.lt_succ_iff_lt_or_eq.mp hj with hj' | rfl
      · exact hrest i j a hi' hj' hfi hfj
      · exact (hlast i hi' hfj hfi).elim
      · exact (hlast j hj' hfi hfj).elim
      · rfl
    · intro h
      have hrest := ih.mpr fun i j a hi hj => h i j a (by omega) (by omega)
      cases hn : f n with
      | none => rwa [Option.elim_none, zero_add]
      | some a =>
        rw [Option.elim_some, Multiset.singleton_add, Multiset.nodup_cons]
        refine ⟨fun hmem => ?_, hrest⟩
        obtain ⟨k, hk, hfk⟩ := mem_gather.mp hmem
        have := h k n a (by omega) (by omega) hfk hn
        omega

theorem gather_eq_zero (h : ∀ i, i < n → f i = none) : gather n f = 0 := by
  rw [gather_congr h, gather_none]

end Xv6.Core
