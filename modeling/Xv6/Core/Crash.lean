/-
Programs of atomic writes to a store of numbered cells, and the crashes that cut them off.

A write is computed from the store it runs on (it may read other cells first) and replaces one cell. A program is a list
of writes; a crash after k writes leaves the store that the first k of them produce (`cut`). A recovery procedure reads
the store to decide its program, may itself be cut off, and is then restarted (`restarts`).

- `exec_inv` / `cut_inv`: what every write of a program keeps holds after the program and at every crash point.
- `exec_reaches`: what one write of a program establishes and none of them destroys holds after the program.
- `restarts_inv`: what every crash point of every recovery attempt keeps holds after any number of failed attempts.
-/
import Mathlib.Tactic

namespace Xv6.Core

variable {β : Type}

/-- a store: the content of every cell -/
abbrev Store (β : Type) := ℕ → β

/-- replace one cell -/
def Store.set (d : Store β) (i : ℕ) (v : β) : Store β := fun j => if j = i then v else d j

@[simp] theorem Store.set_self (d : Store β) (i : ℕ) (v : β) : d.set i v i = v := by simp [Store.set]

theorem Store.set_ne (d : Store β) (v : β) {i j : ℕ} (h : j ≠ i) : d.set i v j = d j := by simp [Store.set, h]

@[simp] theorem Store.set_same (d : Store β) (i : ℕ) : d.set i (d i) = d := by
  funext j
  by_cases hj : j = i
  · rw [hj, Store.set_self]
  · rw [Store.set_ne _ _ hj]

@[simp] theorem Store.set_set (d : Store β) (i : ℕ) (v w : β) : (d.set i v).set i w = d.set i w := by
  funext j
  by_cases hj : j = i
  · rw [hj, Store.set_self, Store.set_self]
  · rw [Store.set_ne _ _ hj, Store.set_ne _ _ hj, Store.set_ne _ _ hj]

/-- one atomic write: the cell and its new content, computed from the store -/
abbrev Write (β : Type) := Store β → ℕ × β

/-- run one write -/
def apply (d : Store β) (w : Write β) : Store β := d.set (w d).1 (w d).2

/-- run a program of writes -/
def exec (ws : List (Write β)) (d : Store β) : Store β := ws.foldl apply d

/-- run a program that a crash cuts off after k writes -/
def cut (k : ℕ) (ws : List (Write β)) (d : Store β) : Store β := exec (ws.take k) d

/-- recovery attempts that are cut off, the i-th after `ks[i]` writes, each started from what the one before left -/
def restarts (recovery : Store β → List (Write β)) (ks : List ℕ) (d : Store β) : Store β :=
  ks.foldl (fun d k => cut k (recovery d) d) d

@[simp] theorem exec_nil (d : Store β) : exec [] d = d := rfl

@[simp] theorem exec_cons (w : Write β) (ws : List (Write β)) (d : Store β) :
    exec (w :: ws) d = exec ws (apply d w) := rfl

theorem exec_append (ws vs : List (Write β)) (d : Store β) : exec (ws ++ vs) d = exec vs (exec ws d) := by
  simp [exec, List.foldl_append]

theorem exec_inv (I : Store β → Prop) (ws : List (Write β)) (d : Store β) (h : I d)
    (hw : ∀ w ∈ ws, ∀ d, I d → I (apply d w)) : I (exec ws d) := by
  induction ws generalizing d with
  | nil => exact h
  | cons w ws ih =>
    exact ih _ (hw w List.mem_cons_self d h) (fun v hv => hw v (List.mem_cons_of_mem w hv))

theorem cut_inv (I : Store β → Prop) (k : ℕ) (ws : List (Write β)) (d : Store β) (h : I d)
    (hw : ∀ w ∈ ws, ∀ d, I d → I (apply d w)) : I (cut k ws d) :=
  exec_inv I _ d h (fun w hm => hw w (List.mem_of_mem_take hm))

theorem exec_reaches (I Q : Store β → Prop) (ws : List (Write β)) (d : Store β) (h : I d)
    (hI : ∀ w ∈ ws, ∀ d, I d → I (apply d w)) (hQ : ∀ w ∈ ws, ∀ d, I d → Q d → Q (apply d w))
    (hex : ∃ w ∈ ws, ∀ d, I d → Q (apply d w)) : Q (exec ws d) := by
  induction ws generalizing d with
  | nil => obtain ⟨w, hw, -⟩ := hex; simp at hw
  | cons v ws ih =>
    have hI' : ∀ w ∈ ws, ∀ d, I d → I (apply d w) := fun w hw => hI w (List.mem_cons_of_mem v hw)
    have hQ' : ∀ w ∈ ws, ∀ d, I d → Q d → Q (apply d w) := fun w hw => hQ w (List.mem_cons_of_mem v hw)
    have h1 : I (apply d v) := hI v List.mem_cons_self d h
    obtain ⟨w, hw, hest⟩ := hex
    rcases List.mem_cons.1 hw with rfl | hw
    · -- the establishing write is the first one: the rest keep what it established
      have hkeep := exec_inv (fun d => I d ∧ Q d) ws (apply d w) ⟨h1, hest d h⟩
        (fun u hu e he => ⟨hI' u hu e he.1, hQ' u hu e he.1 he.2⟩)
      exact hkeep.2
    · exact ih _ h1 hI' hQ' ⟨w, hw, hest⟩

/-- a program cut off inside its second half has run its first half -/
theorem cut_append (k : ℕ) (ws vs : List (Write β)) (d : Store β) :
    cut k (ws ++ vs) d = if k ≤ ws.length then cut k ws d else cut (k - ws.length) vs (exec ws d) := by
  split_ifs with h
  · simp [cut, List.take_append_of_le_length h]
  · rw [cut, List.take_append, List.take_of_length_le (by omega), exec_append, cut]

theorem cut_succ_cons (k : ℕ) (w : Write β) (ws : List (Write β)) (d : Store β) :
    cut (k + 1) (w :: ws) d = cut k ws (apply d w) := rfl

theorem restarts_inv (I : Store β → Prop) (recovery : Store β → List (Write β)) (ks : List ℕ) (d : Store β) (h : I d)
    (hr : ∀ d, I d → ∀ k, I (cut k (recovery d) d)) : I (restarts recovery ks d) := by
  induction ks generalizing d with
  | nil => exact h
  | cons k ks ih => exact ih _ (hr d h k)

end Xv6.Core
