/-
Ring buffers with free-running counters: N cells, and two counters that count the elements taken and put modulo M. The
cell of an element is its number modulo N, so the order of the elements survives a wrap of the counters only if N
divides M.

- `RingBuf.Ok`: both counters are below M and at most N elements are in the ring.
- `RingBuf.contents`: the elements in the ring, the oldest first.
- `contents_put`, `contents_get`: the ring is a queue, through any number of wraps of the counters.
- `contents_unput`: the last element can be taken back.
- `count_eq_zero_iff`, `count_eq_full_iff`: the tests for an empty and a full ring.
-/
import Mathlib.Tactic
import Xv6.Core.Crash

namespace Xv6.Core

variable {α : Type}

structure RingBuf (α : Type) where
  data : Store α
  /-- number of elements taken, modulo M -/
  r : ℕ
  /-- number of elements put, modulo M -/
  w : ℕ

namespace RingBuf

variable (N M : ℕ) (q : RingBuf α)

/-- the number of elements in the ring -/
def count : ℕ := (q.w + (M - q.r)) % M

/-- the elements in the ring, the oldest first -/
def contents : List α := (List.range (q.count M)).map fun k => q.data ((q.r + k) % M % N)

def put (x : α) : RingBuf α := { q with data := q.data.set (q.w % N) x, w := (q.w + 1) % M }

/-- the element that is taken next -/
def front : α := q.data (q.r % N)

def get : RingBuf α := { q with r := (q.r + 1) % M }

/-- take back the element that was put last -/
def unput : RingBuf α := { q with w := (M + q.w - 1) % M }

structure Ok : Prop where
  r_lt : q.r < M
  w_lt : q.w < M
  le : q.count M ≤ N

variable {N M} {q}

@[simp] theorem length_contents : (q.contents N M).length = q.count M := by simp [contents]

theorem Ok.w_eq (h : q.Ok N M) : q.w = (q.r + q.count M) % M := by
  have hr := h.r_lt
  have hsum : q.r + (q.w + (M - q.r)) = q.w + M := by omega
  rw [count, Nat.add_mod_mod, hsum, Nat.add_mod_right, Nat.mod_eq_of_lt h.w_lt]

theorem count_eq {c : ℕ} (hr : q.r < M) (hc : c < M) (hw : q.w = (q.r + c) % M) : q.count M = c := by
  have hsum : q.r + c + (M - q.r) = c + M := by omega
  rw [count, hw, Nat.mod_add_mod, hsum, Nat.add_mod_right, Nat.mod_eq_of_lt hc]

theorem count_eq_zero_iff (h : q.Ok N M) : q.count M = 0 ↔ q.r = q.w := by
  constructor
  · intro h0
    rw [h.w_eq, h0, Nat.add_zero, Nat.mod_eq_of_lt h.r_lt]
  · intro heq
    have hr := h.r_lt
    exact count_eq h.r_lt (by omega) (by rw [Nat.add_zero, Nat.mod_eq_of_lt hr, heq])

theorem count_eq_full_iff (h : q.Ok N M) (hNM : N < M) : q.count M = N ↔ q.w = (q.r + N) % M := by
  constructor
  · intro hN
    rw [h.w_eq, hN]
  · exact count_eq h.r_lt hNM

theorem Ok.empty (data : Store α) (hM : 0 < M) : (⟨data, 0, 0⟩ : RingBuf α).Ok N M := by
  have hcount : (⟨data, 0, 0⟩ : RingBuf α).count M = 0 := count_eq hM hM (Nat.zero_mod M).symm
  exact ⟨hM, hM, by rw [hcount]; exact Nat.zero_le N⟩

/-! ## Putting and taking -/

theorem count_put (x : α) (h : q.Ok N M) (hNM : N < M) (hfull : q.count M ≠ N) :
    (q.put N M x).count M = q.count M + 1 := by
  have hle := h.le
  refine count_eq h.r_lt (by omega) ?_
  show (q.w + 1) % M = (q.r + (q.count M + 1)) % M
  rw [h.w_eq, Nat.mod_add_mod, Nat.add_assoc]

theorem Ok.put (x : α) (h : q.Ok N M) (hNM : N < M) (hfull : q.count M ≠ N) : (q.put N M x).Ok N M := by
  have hle := h.le
  refine ⟨h.r_lt, Nat.mod_lt _ (by omega), ?_⟩
  rw [count_put x h hNM hfull]
  omega

/-- elements that are in the ring together are in different cells: here it matters that N divides M -/
theorem cell_ne (h : q.Ok N M) (hd : N ∣ M) {k : ℕ} (hk : k < q.count M) (hfull : q.count M ≠ N) :
    (q.r + k) % M % N ≠ q.w % N := by
  have hle := h.le
  rw [h.w_eq, Nat.mod_mod_of_dvd _ hd, Nat.mod_mod_of_dvd _ hd]
  intro heq
  have hdvd : N ∣ q.count M - k := by
    have := (Nat.modEq_iff_dvd' (by omega)).1 (show q.r + k ≡ q.r + q.count M [MOD N] from heq)
    rwa [Nat.add_sub_add_left] at this
  have := Nat.le_of_dvd (by omega) hdvd
  omega

/-- **A put element is the last one.** -/
theorem contents_put (x : α) (h : q.Ok N M) (hd : N ∣ M) (hNM : N < M) (hfull : q.count M ≠ N) :
    (q.put N M x).contents N M = q.contents N M ++ [x] := by
  rw [contents, count_put x h hNM hfull, List.range_succ, List.map_append, List.map_cons, List.map_nil]
  congr 1
  · refine List.map_congr_left fun k hk => ?_
    exact Store.set_ne _ _ (cell_ne h hd (List.mem_range.1 hk) hfull)
  · show [(q.data.set (q.w % N) x) ((q.r + q.count M) % M % N)] = [x]
    rw [← h.w_eq, Store.set_self]

theorem count_get (h : q.Ok N M) (hempty : q.count M ≠ 0) : (q.get M).count M = q.count M - 1 := by
  have hlt : q.count M < M := Nat.mod_lt _ (by have := h.r_lt; omega)
  refine count_eq (Nat.mod_lt _ (by omega)) (by omega) ?_
  show q.w = ((q.r + 1) % M + (q.count M - 1)) % M
  have hsum : q.r + 1 + (q.count M - 1) = q.r + q.count M := by omega
  rw [Nat.mod_add_mod, hsum, ← h.w_eq]

theorem Ok.get (h : q.Ok N M) (hempty : q.count M ≠ 0) : (q.get M).Ok N M := by
  have hle := h.le
  have hr := h.r_lt
  refine ⟨Nat.mod_lt _ (by omega), h.w_lt, ?_⟩
  rw [count_get h hempty]
  omega

/-- **The element that is taken is the first one.** -/
theorem contents_get (h : q.Ok N M) (hempty : q.count M ≠ 0) :
    q.contents N M = q.front N :: (q.get M).contents N M := by
  have hr := h.r_lt
  obtain ⟨c, hc⟩ := Nat.exists_eq_succ_of_ne_zero hempty
  rw [contents, contents, count_get h hempty, hc, Nat.succ_sub_one, List.range_succ_eq_map, List.map_cons, List.map_map]
  congr 1
  · show q.data ((q.r + 0) % M % N) = q.data (q.r % N)
    rw [Nat.add_zero, Nat.mod_eq_of_lt hr]
  · refine List.map_congr_left fun k _ => ?_
    show q.data ((q.r + (k + 1)) % M % N) = q.data (((q.r + 1) % M + k) % M % N)
    rw [Nat.mod_add_mod, Nat.add_assoc, Nat.add_comm 1 k]

theorem count_unput (h : q.Ok N M) (hempty : q.count M ≠ 0) : (q.unput M).count M = q.count M - 1 := by
  have hr := h.r_lt
  have hlt : q.count M < M := Nat.mod_lt _ (by omega)
  refine count_eq h.r_lt (by omega) ?_
  show (M + q.w - 1) % M = (q.r + (q.count M - 1)) % M
  have hw : M + q.w - 1 = q.w + (M - 1) := by omega
  have hsum : q.r + q.count M + (M - 1) = q.r + (q.count M - 1) + M := by omega
  rw [hw, h.w_eq, Nat.mod_add_mod, hsum, Nat.add_mod_right]

theorem Ok.unput (h : q.Ok N M) (hempty : q.count M ≠ 0) : (q.unput M).Ok N M := by
  have hle := h.le
  have hr := h.r_lt
  refine ⟨h.r_lt, Nat.mod_lt _ (by omega), ?_⟩
  rw [count_unput h hempty]
  omega

/-- **The element that is taken back is the last one**, and it is in the cell before the write counter. -/
theorem contents_unput (h : q.Ok N M) (hempty : q.count M ≠ 0) :
    q.contents N M = (q.unput M).contents N M ++ [q.data ((q.unput M).w % N)] := by
  obtain ⟨c, hc⟩ := Nat.exists_eq_succ_of_ne_zero hempty
  have hcount := count_unput h hempty
  have hw := (h.unput hempty).w_eq
  rw [hcount, hc, Nat.succ_sub_one] at hw
  rw [contents, contents, hcount, hc, Nat.succ_sub_one, List.range_succ, List.map_append, List.map_cons,
    List.map_nil, hw]
  rfl

end RingBuf

end Xv6.Core
