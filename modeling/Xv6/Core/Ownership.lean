/-
Allocation maps: a bit for every cell says whether the cell is allocated, and slots refer to cells (0: no cell).

`Owned`: every slot refers to an allocatable cell or to none, no two slots refer to the same cell, and a cell's bit is
set exactly when some slot refers to it.

- `Owned.existsUnique`: a cell's bit is set iff exactly one slot holds it.
- `Owned.alloc`, `Owned.free`: setting the bit of a free cell and filling an empty slot with it, and the other way
  round, keep the map right.
-/
import Mathlib.Tactic

namespace Xv6.Core

variable {κ : Type} {cell : ℕ → Prop} {bit bit' : ℕ → Bool} {holds holds' : κ → ℕ} {b : ℕ} {x : κ}

structure Owned (cell : ℕ → Prop) (bit : ℕ → Bool) (holds : κ → ℕ) : Prop where
  alloc_cell : ∀ x, holds x ≠ 0 → cell (holds x)
  inj : ∀ x y, holds x = holds y → holds x ≠ 0 → x = y
  bit_iff : ∀ b, cell b → b ≠ 0 → (bit b = true ↔ ∃ x, holds x = b)

/-- a cell is allocated iff exactly one slot holds it -/
theorem Owned.existsUnique (h : Owned cell bit holds) (hb : cell b) (h0 : b ≠ 0) :
    bit b = true ↔ ∃! x, holds x = b := by
  rw [h.bit_iff b hb h0]
  constructor
  · rintro ⟨x, rfl⟩
    exact ⟨x, rfl, fun y hy => h.inj y x hy (by rwa [hy])⟩
  · rintro ⟨x, hx, -⟩; exact ⟨x, hx⟩

theorem Owned.fresh (h : Owned cell bit holds) (h0 : b ≠ 0) (hfree : bit b = false) (x : κ) : holds x ≠ b := by
  rintro rfl
  have := (h.bit_iff _ (h.alloc_cell x h0) h0).2 ⟨x, rfl⟩
  rw [hfree] at this; cases this

theorem Owned.allocated (h : Owned cell bit holds) (h0 : holds x ≠ 0) : bit (holds x) = true :=
  (h.bit_iff _ (h.alloc_cell x h0) h0).2 ⟨x, rfl⟩

theorem Owned.congr (h : Owned cell bit holds) (hbit : ∀ b, cell b → bit' b = bit b) (hh : ∀ x, holds' x = holds x) :
    Owned cell bit' holds' := by
  obtain rfl : holds' = holds := funext hh
  exact ⟨h.alloc_cell, h.inj, fun b hb h0 => by rw [hbit b hb]; exact h.bit_iff b hb h0⟩

/-- allocate a free cell and store it in an empty slot -/
theorem Owned.alloc (h : Owned cell bit holds) (hb : cell b) (h0 : b ≠ 0) (hfree : bit b = false)
    (hx : holds x = 0) (hbit : ∀ c, cell c → bit' c = if c = b then true else bit c) (hself : holds' x = b)
    (hne : ∀ y, y ≠ x → holds' y = holds y) : Owned cell bit' holds' := by
  have hfresh := h.fresh h0 hfree
  refine ⟨fun y hy => ?_, fun y z hyz hy => ?_, fun c hc hc0 => ?_⟩
  · by_cases hyx : y = x
    · rw [hyx, hself]; exact hb
    · rw [hne y hyx] at hy ⊢; exact h.alloc_cell y hy
  · by_cases hyx : y = x <;> by_cases hzx : z = x
    · rw [hyx, hzx]
    · rw [hyx, hself, hne z hzx] at hyz; exact absurd hyz.symm (hfresh z)
    · rw [hzx, hself, hne y hyx] at hyz; exact absurd hyz (hfresh y)
    · rw [hne y hyx] at hyz hy
      rw [hne z hzx] at hyz
      exact h.inj y z hyz hy
  · rw [hbit c hc]
    split_ifs with hcb
    · simp only [true_iff]; exact ⟨x, by rw [hself, hcb]⟩
    rw [h.bit_iff c hc hc0]
    constructor
    · rintro ⟨y, rfl⟩
      have hyx : y ≠ x := by rintro rfl; exact hc0 hx
      exact ⟨y, hne y hyx⟩
    · rintro ⟨y, rfl⟩
      have hyx : y ≠ x := by rintro rfl; exact hcb hself
      exact ⟨y, (hne y hyx).symm⟩

/-- free a cell and empty the slot that held it -/
theorem Owned.free (h : Owned cell bit holds) (h0 : holds x ≠ 0)
    (hbit : ∀ c, cell c → bit' c = if c = holds x then false else bit c) (hself : holds' x = 0)
    (hne : ∀ y, y ≠ x → holds' y = holds y) : Owned cell bit' holds' := by
  refine ⟨fun y hy => ?_, fun y z hyz hy => ?_, fun c hc hc0 => ?_⟩
  · have hyx : y ≠ x := by rintro rfl; exact hy hself
    rw [hne y hyx] at hy ⊢; exact h.alloc_cell y hy
  · have hyx : y ≠ x := by rintro rfl; exact hy hself
    have hzx : z ≠ x := by rintro rfl; exact hy (hyz.trans hself)
    rw [hne y hyx] at hyz hy
    rw [hne z hzx] at hyz
    exact h.inj y z hyz hy
  · rw [hbit c hc]
    split_ifs with hcx
    · simp only [false_iff]
      rintro ⟨y, hy⟩
      have hyx : y ≠ x := by rintro rfl; exact hc0 (hy.symm.trans hself)
      rw [hne y hyx] at hy
      exact hyx (h.inj y x (hy.trans hcx) (by rw [hy]; exact hc0))
    · rw [h.bit_iff c hc hc0]
      constructor
      · rintro ⟨y, rfl⟩
        have hyx : y ≠ x := by rintro rfl; exact hcx rfl
        exact ⟨y, hne y hyx⟩
      · rintro ⟨y, rfl⟩
        have hyx : y ≠ x := by rintro rfl; exact hc0 hself
        exact ⟨y, (hne y hyx).symm⟩

end Xv6.Core
