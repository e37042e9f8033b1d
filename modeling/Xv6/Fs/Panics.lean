/-
Which panics the functions of kernel/fs.c end in.

`Raises E m`: the program m ends in no other panics than those with E. The functions of kernel/fs.c end in those of that
file (`Runs.raises`, `raises_ilock` .. `raises_namex`), so that a panic of kernel/sysfile.c comes from a check made
there.
-/
import Xv6.Fs.Events

namespace Xv6.Fs

open Xv6.Core

def Raises (E : Panic → Prop) {α : Type} (m : FsM α) : Prop := ∀ s e, m s = .error e → E e

variable {E F : Panic → Prop} {α β : Type} {m m' : FsM α} {f : α → FsM β} {sb : Superblock} {ip : ℕ} {s : St}
  {Q : α → St → Prop}

/-! ## Rules -/

theorem Raises.bind (hm : Raises E m) (hf : ∀ a, Raises E (f a)) : Raises E (m >>= f) := by
  intro s e h
  cases hs : m s with
  | error e' =>
    rw [bind_error hs] at h
    cases h
    exact hm s e hs
  | ok r =>
    rw [bind_ok (a := r.1) (t := r.2) hs] at h
    exact hf r.1 r.2 e h

theorem Raises.ok (h : ∀ s, ∃ r, m s = .ok r) : Raises E m := by
  intro s e he
  obtain ⟨r, hr⟩ := h s
  rw [hr] at he; cases he

theorem Raises.mono (h : Raises E m) (hE : ∀ e, E e → F e) : Raises F m := fun s e he => hE e (h s e he)

theorem Raises.spec (h : Raises F m) (hs : Spec m s Q E) : Spec m s Q F := by
  cases hm : m s with
  | error e => unfold Spec; rw [hm]; exact h s e hm
  | ok r => exact Spec.of_ok (a := r.1) (t := r.2) hm (hs.ok (a := r.1) (t := r.2) hm)

theorem Raises.any (h : Raises E m) : Spec m s (fun _ _ => True) E :=
  h.spec (E := fun _ => True) <| by unfold Spec; split <;> trivial

theorem Raises.pure (a : α) : Raises E (pure a : FsM α) := .ok fun s => ⟨(a, s), rfl⟩

theorem Raises.throw {e : Panic} (h : E e) : Raises E (throw e : FsM α) := by
  intro s e' he
  cases he
  exact h

theorem Raises.ite {c : Prop} [Decidable c] (hm : Raises E m) (hm' : Raises E m') : Raises E (if c then m else m') := by
  split_ifs
  · exact hm
  · exact hm'

theorem Raises.getInode : Raises E (getInode ip) := .ok fun s => ⟨(s.inode ip, s), rfl⟩

theorem Raises.setInode (x : Inode) : Raises E (setInode ip x) := .ok fun _ => ⟨_, rfl⟩

theorem Raises.bread (b : ℕ) : Raises E (bread b) := .ok fun _ => ⟨_, rfl⟩

theorem Raises.emit (e : Ev) : Raises E (emit e) := .ok fun _ => ⟨_, rfl⟩

/-- what is related to what does not matter here -/
instance : Steps fun _ _ => True := by constructor <;> intros <;> trivial

theorem Runs.raises (h : Runs (fun _ _ => True) E m) : Raises E m := fun s e he => by
  have hs := h s
  rwa [Spec, he] at hs

/-! ## Inodes and their content -/

theorem raises_iupdate : Raises FsPanic (iupdate sb ip) := within_iupdate.raises

theorem raises_writei (src : Src) (off n : ℕ) : Raises FsPanic (writei sb ip src off n) :=
  (within_writei (.inr fun _ _ _ => Spec.of_ok rfl trivial)).raises

theorem raises_dirlookup (name : List UInt8) : Raises FsPanic (dirlookup sb ip name) := (within_dirlookup name).raises

theorem raises_ilock : Raises FsPanic (ilock sb ip) := by
  refine Raises.getInode.bind fun x => .ite (.throw rfl) (.ite (.throw rfl) (.ite (.setInode _) ?_))
  exact (Raises.bread _).bind fun _ => (Raises.emit _).bind fun _ => (Raises.setInode _).bind fun _ =>
    .ite (.throw rfl) (.pure _)

theorem raises_iunlock : Raises FsPanic (iunlock ip) := Raises.getInode.bind fun _ => .ite (.throw rfl) (.setInode _)

theorem raises_ifree : Raises FsPanic (ifree sb ip) :=
  Raises.getInode.bind fun _ => .ite (.throw rfl) ((Raises.setInode _).bind fun _ => within_itrunc.raises.bind fun _ =>
    Raises.getInode.bind fun _ => (Raises.setInode _).bind fun _ => raises_iupdate.bind fun _ =>
      Raises.getInode.bind fun _ => .setInode _)

theorem raises_iput : Raises FsPanic (iput sb ip) := by
  have hdecr : Raises FsPanic (do let x ← getInode ip; setInode ip { x with ref := x.ref - 1 }) :=
    Raises.getInode.bind fun _ => .setInode _
  exact Raises.getInode.bind fun _ => .ite (raises_ifree.bind fun _ => hdecr) hdecr

theorem raises_iunlockput : Raises FsPanic (iunlockput sb ip) := raises_iunlock.bind fun _ => raises_iput

/-! ## Paths -/

theorem raises_namexEnd (parent : Bool) (name : List UInt8) : Raises FsPanic (namexEnd sb parent ip name) :=
  .ite (raises_iput.bind fun _ => .pure _) (.pure _)

theorem raises_namexLoop (parent : Bool) (fuel : ℕ) (path : List UInt8) (ip : ℕ) (name : List UInt8) :
    Raises FsPanic (namexLoop sb parent fuel path ip name) := by
  induction fuel generalizing path ip name with
  | zero => exact raises_namexEnd _ _
  | succ fuel ih =>
    unfold namexLoop
    split
    · exact raises_namexEnd _ _
    have hput : ∀ r : Option (ℕ × List UInt8), Raises FsPanic (do iunlockput sb ip; return r) := fun _ =>
      raises_iunlockput.bind fun _ => .pure _
    refine raises_ilock.bind fun _ => Raises.getInode.bind fun _ => .ite (hput _) (.ite ?_ ?_)
    · exact raises_iunlock.bind fun _ => .pure _
    · refine (raises_dirlookup _).bind fun r => ?_
      cases r with
      | none => exact hput _
      | some x => exact raises_iunlockput.bind fun _ => ih _ _ _

theorem raises_namex (p : ℕ) (path : List UInt8) (parent : Bool) : Raises FsPanic (namex sb p path parent) :=
  Raises.bind (.ok fun s => ⟨(s.proc p, s), rfl⟩) fun _ =>
    .ite ((within_iget _).raises.bind fun _ => raises_namexLoop _ _ _ _ _)
    (within_idup.raises.bind fun _ => raises_namexLoop _ _ _ _ _)

end Xv6.Fs
