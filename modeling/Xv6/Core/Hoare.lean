/-
Pre- and postconditions of programs with a state and errors (`StateT σ (Except ε)`).

`Spec m s Q E`: started in s, the program m returns a result and a state with `Q`, or fails with an error with `E`.
Since the start state is a parameter, preconditions are hypotheses of a specification and frame conditions are equations
between the two states. One specification a function, and callers use it through `Spec.bind`; straight-line code is run
with `Spec.bind_ok`.
-/
import Mathlib.Tactic

namespace Xv6.Core

variable {σ ε α β : Type}

/-- what m does when it is started in state s -/
def Spec (m : StateT σ (Except ε) α) (s : σ) (Q : α → σ → Prop) (E : ε → Prop) : Prop :=
  match m s with
  | .ok (a, t) => Q a t
  | .error e => E e

variable {m m' : StateT σ (Except ε) α} {f : α → StateT σ (Except ε) β} {s t : σ} {a : α} {Q R : α → σ → Prop}
  {P : β → σ → Prop} {E F : ε → Prop} {e : ε}

theorem Spec.of_ok (h : m s = .ok (a, t)) (hQ : Q a t) : Spec m s Q E := by simpa [Spec, h] using hQ

theorem Spec.ok (h : Spec m s Q E) (hm : m s = .ok (a, t)) : Q a t := by simpa [Spec, hm] using h

theorem Spec.error (h : Spec m s Q E) (hm : m s = .error e) : E e := by simpa [Spec, hm] using h

theorem Spec.returns (h : Spec m s Q fun _ => False) : ∃ a t, m s = .ok (a, t) ∧ Q a t := by
  cases hm : m s with
  | error e => exact absurd (h.error hm) id
  | ok x => exact ⟨x.1, x.2, rfl, h.ok hm⟩

theorem Spec.mono (h : Spec m s R F) (hQ : ∀ a t, R a t → Q a t) (hE : ∀ e, F e → E e) : Spec m s Q E := by
  unfold Spec at h ⊢
  split
  · rename_i a t hm
    rw [hm] at h; exact hQ a t h
  · rename_i e hm
    rw [hm] at h; exact hE e h

theorem Spec.post (h : Spec m s R E) (hQ : ∀ a t, R a t → Q a t) : Spec m s Q E := h.mono hQ fun _ he => he

theorem Spec.congr (h : m s = m' s) (hs : Spec m' s Q E) : Spec m s Q E := by
  unfold Spec
  rw [h]
  exact hs

theorem Spec.and (h : Spec m s Q E) (h' : Spec m s R F) : Spec m s (fun a t => Q a t ∧ R a t) E := by
  unfold Spec at h h' ⊢
  split
  · rename_i a t hm
    rw [hm] at h h'; exact ⟨h, h'⟩
  · rename_i e hm
    rw [hm] at h; exact h

theorem bind_ok (h : m s = .ok (a, t)) : (m >>= f) s = f a t := by
  show StateT.bind m f s = f a t
  simp [StateT.bind, h]
  rfl

theorem bind_error (h : m s = .error e) : (m >>= f) s = .error e := by
  show StateT.bind m f s = .error e
  simp [StateT.bind, h]
  rfl

theorem Spec.bind_ok (h : m s = .ok (a, t)) (hf : Spec (f a) t P E) : Spec (m >>= f) s P E := by
  unfold Spec at hf ⊢
  rw [Core.bind_ok h]; exact hf

theorem Spec.bind_error (h : m s = .error e) (hE : E e) : Spec (m >>= f) s P E := by
  unfold Spec
  rw [Core.bind_error h]
  exact hE

/-- **Sequencing.** -/
theorem Spec.bind (hm : Spec m s R E) (hf : ∀ a t, R a t → Spec (f a) t P E) : Spec (m >>= f) s P E := by
  cases h : m s with
  | error e =>
    unfold Spec
    rw [Core.bind_error h]; exact hm.error h
  | ok r =>
    obtain ⟨a, t⟩ := r
    exact Spec.bind_ok h (hf a t (hm.ok h))

theorem Spec.pure (h : Q a s) : Spec (pure a) s Q E := h

theorem Spec.throw (h : E e) : Spec (throw e : StateT σ (Except ε) α) s Q E := h

theorem Spec.ite {c : Prop} [Decidable c] (h : c → Spec m s Q E) (h' : ¬ c → Spec m' s Q E) :
    Spec (if c then m else m') s Q E := by
  split_ifs with hc
  · exact h hc
  · exact h' hc

theorem bind_eq_ok {b : β} {u : σ} (h : (m >>= f) s = .ok (b, u)) : ∃ a t, m s = .ok (a, t) ∧ f a t = .ok (b, u) := by
  cases hm : m s with
  | error e => rw [bind_error hm] at h; cases h
  | ok r => exact ⟨r.1, r.2, rfl, by rwa [Core.bind_ok hm] at h⟩

end Xv6.Core
