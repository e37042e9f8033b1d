/-
Labelled machines that can fail: `step s a` is the state after action a or the error it ends in, `legal s a` says that
the action may be taken in state s (the discipline of its actor, and that it is not blocked there).

- `run`, `LegalRun`, `Reach`: runs, runs that take only legal actions, and the states such runs end in.
- `Reach.inv`: what holds initially and is kept by every legal step holds in every reachable state.
- `restrict`: the same machine under a stronger discipline; `Reach.of_restrict` forgets it.
- `run_of_steps`, `reach_of_steps`: a concrete run, checked by evaluation, is legal and reaches a state.
-/
import Mathlib.Tactic

namespace Xv6.Core

/-- a machine with states σ, actions α and errors ε -/
structure Machine (σ α ε : Type) where
  legal : σ → α → Prop
  step : σ → α → Except ε σ

namespace Machine

variable {σ α ε : Type} (M : Machine σ α ε)

/-- take the actions in order, up to the first error -/
def run : σ → List α → Except ε σ
  | s, [] => .ok s
  | s, a :: as => match M.step s a with
    | .ok t => run t as
    | .error e => .error e

/-- every action is legal in the state in which it is taken -/
def LegalRun : σ → List α → Prop
  | _, [] => True
  | s, a :: as => M.legal s a ∧ ∀ t, M.step s a = .ok t → LegalRun t as

/-- t is reached from s by legal actions -/
def Reach (s t : σ) : Prop := ∃ as, M.LegalRun s as ∧ M.run s as = .ok t

/-- the machine whose actions also meet the condition C -/
def restrict (C : σ → α → Prop) : Machine σ α ε := { M with legal := fun s a => M.legal s a ∧ C s a }

instance [∀ s a, Decidable (M.legal s a)] (C : σ → α → Prop) [∀ s a, Decidable (C s a)] (s : σ) (a : α) :
    Decidable ((M.restrict C).legal s a) := inferInstanceAs (Decidable (M.legal s a ∧ C s a))

variable {M} {s t u : σ} {a : α} {e : ε} {as bs l : List α} {C : σ → α → Prop} {p : σ → Bool}

theorem run_cons_ok (as : List α) (h : M.step s a = .ok t) : M.run s (a :: as) = M.run t as := by
  simp only [run, h]

theorem run_cons_error (as : List α) (h : M.step s a = .error e) : M.run s (a :: as) = .error e := by
  simp only [run, h]

theorem run_append (h : M.run s as = .ok t) : M.run s (as ++ bs) = M.run t bs := by
  induction as generalizing s with
  | nil => cases h; rfl
  | cons a as ih =>
    cases hs : M.step s a with
    | error e => rw [run_cons_error as hs] at h; cases h
    | ok v =>
      rw [run_cons_ok as hs] at h
      rw [List.cons_append, run_cons_ok _ hs]; exact ih h

theorem legalRun_append (h1 : M.LegalRun s as) (hr : M.run s as = .ok t) (h2 : M.LegalRun t bs) :
    M.LegalRun s (as ++ bs) := by
  induction as generalizing s with
  | nil => cases hr; exact h2
  | cons a as ih =>
    refine ⟨h1.1, fun v hv => ih (h1.2 v hv) ?_⟩
    rwa [run_cons_ok as hv] at hr

/-- a legal run up to a given action: the state before it is reachable and the action is legal there -/
theorem legalRun_split (h : M.LegalRun s (as ++ bs)) (hr : M.run s as = .ok t) :
    M.LegalRun s as ∧ M.LegalRun t bs := by
  induction as generalizing s with
  | nil => cases hr; exact ⟨trivial, h⟩
  | cons a as ih =>
    cases hs : M.step s a with
    | error e => rw [run_cons_error as hs] at hr; cases hr
    | ok v =>
      rw [run_cons_ok as hs] at hr
      refine ⟨⟨h.1, fun w hw => ?_⟩, (ih (h.2 v hs) hr).2⟩
      rw [hs] at hw; cases hw
      exact (ih (h.2 v hs) hr).1

theorem Reach.refl (s : σ) : M.Reach s s := ⟨[], trivial, rfl⟩

theorem Reach.trans (h1 : M.Reach s t) (h2 : M.Reach t u) : M.Reach s u := by
  obtain ⟨as, ha, hra⟩ := h1
  obtain ⟨bs, hb, hrb⟩ := h2
  exact ⟨as ++ bs, legalRun_append ha hra hb, by rw [run_append hra, hrb]⟩

theorem Reach.single (hl : M.legal s a) (hs : M.step s a = .ok t) : M.Reach s t :=
  ⟨[a], ⟨hl, fun _ _ => trivial⟩, by rw [run_cons_ok [] hs]; rfl⟩

theorem Reach.step (h : M.Reach s t) (hl : M.legal t a) (hs : M.step t a = .ok u) : M.Reach s u :=
  h.trans (Reach.single hl hs)

/-- **The invariant rule.** -/
theorem Reach.inv (I : σ → Prop) (h : M.Reach s t) (h0 : I s)
    (hstep : ∀ s a t, I s → M.legal s a → M.step s a = .ok t → I t) : I t := by
  obtain ⟨as, hl, hr⟩ := h
  induction as generalizing s with
  | nil => cases hr; exact h0
  | cons a as ih =>
    cases hs : M.step s a with
    | error e => rw [run_cons_error as hs] at hr; cases hr
    | ok v =>
      rw [run_cons_ok as hs] at hr
      exact ih (hstep s a v h0 hl.1 hs) (hl.2 v hs) hr

/-- a run that ends in an error took a legal action, in a reachable state, that produced it -/
theorem run_error_split (hl : M.LegalRun s as) (h : M.run s as = .error e) :
    ∃ pre a post t, as = pre ++ a :: post ∧ M.run s pre = .ok t ∧ M.Reach s t ∧ M.legal t a ∧
      M.step t a = .error e := by
  induction as generalizing s with
  | nil => cases h
  | cons a as ih =>
    cases hs : M.step s a with
    | error e' =>
      rw [run_cons_error as hs] at h
      cases h
      exact ⟨[], a, as, s, rfl, rfl, Reach.refl s, hl.1, hs⟩
    | ok v =>
      rw [run_cons_ok as hs] at h
      obtain ⟨pre, b, post, t, rfl, hr, hR, hb, he⟩ := ih (hl.2 v hs) h
      exact ⟨a :: pre, b, post, t, rfl, by rw [run_cons_ok pre hs]; exact hr,
        (Reach.single hl.1 hs).trans hR, hb, he⟩

theorem Reach.of_restrict (h : (M.restrict C).Reach s t) : M.Reach s t :=
  h.inv (fun u => M.Reach s u) (Reach.refl s) fun _ _ _ hu hl hs => hu.step hl.1 hs

theorem run_restrict (C : σ → α → Prop) (as : List α) : (M.restrict C).run s as = M.run s as := by
  induction as generalizing s with
  | nil => rfl
  | cons a as ih =>
    cases hs : M.step s a with
    | error e => rw [run_cons_error as hs]; exact run_cons_error as hs
    | ok v => rw [run_cons_ok as hs, ← ih]; exact run_cons_ok as hs

/-! ## Concrete runs -/

/-- run the actions as long as they are legal and do not fail -/
def steps (M : Machine σ α ε) [∀ s a, Decidable (M.legal s a)] : σ → List α → Option σ
  | s, [] => some s
  | s, a :: as => if M.legal s a then
      match M.step s a with
      | .ok t => steps M t as
      | .error _ => none
    else none

theorem run_of_steps [∀ s a, Decidable (M.legal s a)] (h : M.steps s l = some t) :
    M.LegalRun s l ∧ M.run s l = .ok t := by
  induction l generalizing s with
  | nil => cases h; exact ⟨trivial, rfl⟩
  | cons a l ih =>
    simp only [steps] at h
    split_ifs at h with hl
    cases hs : M.step s a with
    | error e => rw [hs] at h; cases h
    | ok v =>
      rw [hs] at h
      obtain ⟨h1, h2⟩ := ih h
      refine ⟨⟨hl, fun w hw => ?_⟩, by rw [run_cons_ok l hs]; exact h2⟩
      rw [hs] at hw; cases hw
      exact h1

theorem exists_run_of_steps [∀ s a, Decidable (M.legal s a)]
    (h : (M.steps s l).any p = true) : ∃ t, M.LegalRun s l ∧ M.run s l = .ok t ∧ p t = true := by
  cases hs : M.steps s l with
  | none => rw [hs] at h; cases h
  | some t => rw [hs] at h; exact ⟨t, (run_of_steps hs).1, (run_of_steps hs).2, h⟩

theorem exists_reach_of_steps [∀ s a, Decidable (M.legal s a)]
    (h : (M.steps s l).any p = true) : ∃ t, M.Reach s t ∧ p t = true := by
  obtain ⟨t, hl, hr, hp⟩ := exists_run_of_steps h
  exact ⟨t, ⟨l, hl, hr⟩, hp⟩

theorem error_of_steps [∀ s a, Decidable (M.legal s a)] [DecidableEq ε]
    (h : (M.steps s l).any (fun t => decide (M.legal t a) && match M.step t a with
      | .ok _ => false
      | .error e' => e' = e) = true) : M.LegalRun s (l ++ [a]) ∧ M.run s (l ++ [a]) = .error e := by
  cases hs : M.steps s l with
  | none => rw [hs] at h; cases h
  | some t =>
    rw [hs, Option.any_some, Bool.and_eq_true, decide_eq_true_iff] at h
    obtain ⟨hl, hr⟩ := run_of_steps hs
    obtain ⟨ha, he⟩ := h
    refine ⟨legalRun_append hl hr ⟨ha, fun _ _ => trivial⟩, ?_⟩
    rw [run_append hr]
    cases hst : M.step t a with
    | ok v => rw [hst] at he; cases he
    | error e' =>
      rw [hst] at he
      rw [run_cons_error [] hst, of_decide_eq_true he]

end Machine

end Xv6.Core
