/-
How the functions of kernel/fs.c use the block layer and the inode table, whatever state they start in.

`Steps ρ`: the relation ρ between states is kept by the primitives, where a modified buffer is passed to `log_write` at
once and the lock of an inode is left alone. `Within ρ m`: the program m leads from a state to a related one;
`Runs ρ E m`: it does, or it ends in a panic with E. Every function that takes no inode lock does this for every such
relation, with the panics of kernel/fs.c (`within_bzero` .. `within_dirlookup`), except that `writei` modifies a buffer
and releases it as it is when a copy from user memory fails half-way into a block; `CleanWrite` excludes this.
-/
import Xv6.Fs.Sysfile

namespace Xv6.Fs

open Xv6.Core

/-- a relation that the primitives respect -/
class Steps (ρ : St → St → Prop) : Prop where
  refl : ∀ s, ρ s s
  trans : ∀ {s t u}, ρ s t → ρ t u → ρ s u
  bread : ∀ s b, ρ s { s with trace := s.trace ++ [.bread b] }
  brelse : ∀ s b, ρ s { s with trace := s.trace ++ [.brelse b] }
  logWrite : ∀ s b, ρ s { s with trace := s.trace ++ [.logWrite b] }
  write : ∀ s b d, ρ s { s with blk := s.blk.set b d, trace := s.trace ++ [.store b d] ++ [.logWrite b] }
  table : ∀ s (x : Store Inode), (∀ k, (x k).locked = (s.inode k).locked) → ρ s { s with inode := x }

/-- m leads to related states -/
def Within (ρ : St → St → Prop) {α : Type} (m : FsM α) : Prop := ∀ s, Spec m s (fun _ t => ρ s t) fun _ => True

/-- m leads to related states or ends in a panic with E -/
def Runs (ρ : St → St → Prop) (E : Panic → Prop) {α : Type} (m : FsM α) : Prop := ∀ s, Spec m s (fun _ t => ρ s t) E

/-- the panics in kernel/fs.c, and a lock that is taken twice -/
def Panic.ofFs : Panic → Bool
  | .freeingFree | .igetNoInodes | .ilock | .ilockNoType | .iunlock | .bmapRange | .dirlookupNotDir | .dirlookupRead
  | .dirlinkRead | .deadlock => true
  | _ => false

def FsPanic (e : Panic) : Prop := e.ofFs = true

/-- the panics of kernel/fs.c have E -/
class OfFs (E : Panic → Prop) : Prop where
  of : ∀ e, FsPanic e → E e

instance : OfFs FsPanic := ⟨fun _ h => h⟩

instance : OfFs fun _ => True := ⟨fun _ _ => trivial⟩

variable {ρ : St → St → Prop} {E : Panic → Prop} {α β : Type} {m m' : FsM α} {f : α → FsM β} {sb : Superblock}
  {s t u : St} {ip off : ℕ}

/-! ## Rules -/

theorem Runs.ite {c : Prop} [Decidable c] (hm : Runs ρ E m) (hm' : Runs ρ E m') : Runs ρ E (if c then m else m') := by
  split_ifs
  · exact hm
  · exact hm'

theorem Runs.throw [OfFs E] {e : Panic} (h : FsPanic e) : Runs ρ E (throw e : FsM α) := fun _ =>
  Spec.throw (OfFs.of e h)

variable [Steps ρ]

theorem Runs.bind (hm : Runs ρ E m) (hf : ∀ a, Runs ρ E (f a)) : Runs ρ E (m >>= f) := fun s =>
  Spec.bind (hm s) fun a t ht => Spec.post (hf a t) fun _ _ hu => Steps.trans ht hu

theorem Runs.pure (a : α) : Runs ρ E (pure a : FsM α) := fun s => Spec.pure (Steps.refl s)

theorem Runs.getInode (ip : ℕ) : Runs ρ E (getInode ip) := fun s => Spec.of_ok rfl (Steps.refl s)

theorem Runs.bread (b : ℕ) : Runs ρ E (bread b) := fun s => Spec.of_ok rfl (Steps.bread s b)

theorem Runs.brelse (b : ℕ) : Runs ρ E (brelse b) := fun s => Spec.of_ok rfl (Steps.brelse s b)

theorem Runs.logWrite (b : ℕ) : Runs ρ E (logWrite b) := fun s => Spec.of_ok rfl (Steps.logWrite s b)

theorem Runs.write {b : ℕ} {d : Block} (hm : Runs ρ E m) : Runs ρ E (do store b d; Fs.logWrite b; m) := fun s =>
  Spec.bind_ok rfl (Spec.bind_ok rfl (Spec.post (hm _) fun _ _ ht => Steps.trans (Steps.write s b d) ht))

theorem within_setInode {x : Inode} (hx : x.locked = (s.inode ip).locked) :
    Spec (setInode ip x) s (fun _ t => ρ s t) E := by
  refine Spec.of_ok rfl (Steps.table s _ fun k => ?_)
  by_cases hk : k = ip
  · rw [hk, Store.set_self]; exact hx
  · rw [Store.set_ne _ _ hk]

theorem Runs.modify {g : Inode → Inode} (hg : ∀ x, (g x).locked = x.locked) (hm : Runs ρ E m) :
    Runs ρ E (do let x ← Fs.getInode ip; setInode ip (g x); m) := fun _ =>
  Spec.bind_ok rfl (Spec.bind (within_setInode (hg _)) fun _ t ht =>
    Spec.post (hm t) fun _ _ hu => Steps.trans ht hu)

/-! The same for `Within`. -/

theorem Within.bind (hm : Within ρ m) (hf : ∀ a, Within ρ (f a)) : Within ρ (m >>= f) := Runs.bind hm hf

theorem Within.pure (a : α) : Within ρ (pure a : FsM α) := Runs.pure a

theorem Within.getInode (ip : ℕ) : Within ρ (getInode ip) := Runs.getInode ip

theorem Within.bread (b : ℕ) : Within ρ (bread b) := Runs.bread b

theorem Within.brelse (b : ℕ) : Within ρ (brelse b) := Runs.brelse b

omit [Steps ρ] in
theorem Within.throw (e : Panic) : Within ρ (throw e : FsM α) := fun _ => Spec.throw trivial

omit [Steps ρ] in
theorem Within.ite {c : Prop} [Decidable c] (hm : Within ρ m) (hm' : Within ρ m') : Within ρ (if c then m else m') :=
  Runs.ite hm hm'

/-! ## Blocks -/

theorem within_bzero (b : ℕ) : Runs ρ E (bzero b) := (Runs.bread b).bind fun _ => .write (.brelse b)

theorem within_ballocLoop (n b : ℕ) : Runs ρ E (ballocLoop sb n b) := by
  induction n generalizing b with
  | zero => exact .pure 0
  | succ n ih =>
    refine .ite ((Runs.bread _).bind fun data => ?_) (.pure 0)
    split
    · exact .write ((Runs.brelse _).bind fun _ => (within_bzero _).bind fun _ => .pure _)
    · exact (Runs.brelse _).bind fun _ => ih _

theorem within_balloc : Runs ρ E (balloc sb) := within_ballocLoop _ _

variable [OfFs E]

theorem within_bfree (b : ℕ) : Runs ρ E (bfree sb b) :=
  (Runs.bread _).bind fun _ => .ite (.throw rfl) (.write (.brelse _))

/-! ## Inodes -/

omit [OfFs E] in
theorem within_iupdate : Runs ρ E (iupdate sb ip) :=
  (Runs.getInode ip).bind fun _ => (Runs.bread _).bind fun _ => .write (.brelse _)

omit [OfFs E] in
theorem within_setAddr (k a : ℕ) : Runs ρ E (setAddr ip k a) := fun _ =>
  Spec.bind_ok rfl (within_setInode (by rfl))

theorem within_iget (inum : ℕ) : Runs ρ E (iget inum) := by
  intro s
  refine Spec.bind_ok rfl ?_
  split
  · exact Spec.bind (within_setInode (by rfl)) fun _ t ht => Spec.pure ht
  · split
    · exact Spec.throw (OfFs.of _ rfl)
    · exact Spec.bind (within_setInode (by rfl)) fun _ t ht => Spec.pure ht

omit [OfFs E] in
theorem within_idup : Runs ρ E (idup ip) := fun _ =>
  Spec.bind_ok rfl (Spec.bind (within_setInode (by rfl)) fun _ _ ht => Spec.pure ht)

theorem within_iallocLoop (type : UInt16) (n inum : ℕ) : Runs ρ E (iallocLoop sb type n inum) := by
  induction n generalizing inum with
  | zero => exact .pure _
  | succ n ih =>
    refine .ite ((Runs.bread _).bind fun data => .ite ?_ ((Runs.brelse _).bind fun _ => ih _)) (.pure _)
    exact .write ((Runs.brelse _).bind fun _ => (within_iget _).bind fun _ => .pure _)

theorem within_ialloc (type : UInt16) : Runs ρ E (ialloc sb type) := within_iallocLoop _ _ _

/-! ## Content -/

omit [OfFs E] in
theorem within_ballocAddr (k : ℕ) : Runs ρ E (ballocAddr sb ip k) :=
  within_balloc.bind fun _ => .ite (.pure 0) ((within_setAddr _ _).bind fun _ => .pure _)

omit [OfFs E] in
theorem within_bmapEntry (ind j : ℕ) : Runs ρ E (bmapEntry sb ind j) := by
  refine (Runs.bread ind).bind fun data => .ite (within_balloc.bind fun addr => ?_)
    ((Runs.brelse ind).bind fun _ => .pure _)
  split_ifs
  · exact .write ((Runs.brelse ind).bind fun _ => .pure _)
  · exact (Runs.brelse ind).bind fun _ => .pure _

theorem within_bmap (bn : ℕ) : Runs ρ E (bmap sb ip bn) := by
  refine (Runs.getInode ip).bind fun x => .ite (.ite (within_ballocAddr _) (.pure _)) (.ite ?_ (.throw rfl))
  have hend : ∀ ind, Runs ρ E (if ind = 0 then pure 0 else bmapEntry sb ind (bn - NDIRECT)) := fun ind =>
    .ite (.pure 0) (within_bmapEntry _ _)
  exact .ite ((within_ballocAddr _).bind hend) ((Runs.pure _).bind hend)

theorem within_freeAddr (k : ℕ) : Runs ρ E (freeAddr sb ip k) := by
  refine (Runs.getInode ip).bind fun x => .ite ?_ (.pure _)
  exact (within_bfree _).bind fun _ => within_setAddr _ _

theorem within_itruncDirect (n i : ℕ) : Runs ρ E (itruncDirect sb ip n i) := by
  induction n generalizing i with
  | zero => exact .pure _
  | succ n ih => exact (within_freeAddr _).bind fun _ => ih _

theorem within_itruncIndirect (data : Block) (n j : ℕ) : Runs ρ E (itruncIndirect sb data n j) := by
  induction n generalizing j with
  | zero => exact .pure _
  | succ n ih => exact .ite ((within_bfree _).bind fun _ => ih _) (ih _)

theorem within_freeIndirect : Runs ρ E (freeIndirect sb ip) := by
  refine (Runs.getInode ip).bind fun x => .ite ?_ (.pure _)
  exact (Runs.bread _).bind fun _ => (within_itruncIndirect _ _ _).bind fun _ => (Runs.brelse _).bind fun _ =>
    (within_bfree _).bind fun _ => within_setAddr _ _

theorem within_itrunc : Runs ρ E (itrunc sb ip) :=
  (within_itruncDirect _ _).bind fun _ => within_freeIndirect.bind fun _ => .modify (fun _ => rfl) within_iupdate

theorem within_readiLoop (dst : Dst) (fuel off rest : ℕ) (acc : List UInt8) :
    Runs ρ E (readiLoop sb ip dst fuel off rest acc) := by
  induction fuel generalizing off rest acc with
  | zero => exact .pure _
  | succ fuel ih =>
    refine .ite (.pure _) ((within_bmap _).bind fun addr => .ite (.pure _) ((Runs.bread _).bind fun data => ?_))
    exact (Runs.brelse _).bind fun _ => .ite (ih _ _ _) (.pure _)

theorem within_readi (dst : Dst) (off n : ℕ) : Runs ρ E (readi sb ip dst off n) :=
  (Runs.getInode ip).bind fun _ => .ite (.pure _) (within_readiLoop _ _ _ _ _)

/-- no copy of the part of the source that goes into one block fails after it has copied something; the write is of n
bytes at offset off -/
def CleanWrite (src : Src) (off n : ℕ) : Prop :=
  ∀ tot, tot < n → tot = 0 ∨ (off + tot) % BSIZE = 0 →
    (eitherCopyin src tot (min (n - tot) (BSIZE - (off + tot) % BSIZE))).2 = false →
    (eitherCopyin src tot (min (n - tot) (BSIZE - (off + tot) % BSIZE))).1 = []

omit [OfFs E] in
theorem within_fill {addr : ℕ} {data : Block} {bytes : List UInt8} (hm : Runs ρ E m) :
    Runs ρ E (do fill addr data off bytes; Fs.logWrite addr; m) := by
  unfold fill
  split_ifs
  · exact (Runs.pure ()).bind fun _ => (Runs.logWrite addr).bind fun _ => hm
  · exact .write hm

/-- how `writei` may end half-way into a block: not at all, or the relation does not mind -/
def Partial (ρ : St → St → Prop) (src : Src) (off n : ℕ) : Prop :=
  CleanWrite src off n ∨ ∀ b d, Within ρ (store b d)

theorem within_writeiLoop {src : Src} {n : ℕ} (hc : Partial ρ src off n) (fuel tot : ℕ)
    (htot : tot = 0 ∨ (off + tot) % BSIZE = 0 ∨ n - tot = 0) :
    Runs ρ E (writeiLoop sb ip src fuel tot (off + tot) (n - tot)) := by
  induction fuel generalizing tot with
  | zero => exact .pure _
  | succ fuel ih =>
    unfold writeiLoop
    by_cases hrest : n - tot = 0
    · rw [if_pos hrest]; exact .pure _
    rw [if_neg hrest]
    refine (within_bmap _).bind fun addr => .ite (.pure _) ((Runs.bread addr).bind fun data => ?_)
    set m := min (n - tot) (BSIZE - (off + tot) % BSIZE) with hm
    simp only
    cases hr : (eitherCopyin src tot m).2 with
    | true =>
      -- the next part starts at a block boundary, or there is none
      have hnext : (off + (tot + m)) % BSIZE = 0 ∨ n - (tot + m) = 0 := by
        unfold BSIZE at hm ⊢
        omega
      have hgo := ih (tot + m) (Or.inr hnext)
      rw [← Nat.add_assoc, ← Nat.sub_sub] at hgo
      exact within_fill ((Runs.brelse addr).bind fun _ => hgo)
    | false =>
      refine Runs.bind ?_ fun _ => (Runs.brelse addr).bind fun _ => .pure _
      rcases hc with hc | hc
      · rw [hc tot (by omega) (by omega) hr]; exact .pure _
      · exact .ite (.pure _) fun s => Spec.of_ok rfl ((hc _ _ s).ok rfl)

theorem within_writei {src : Src} {n : ℕ} (hc : Partial ρ src off n) : Runs ρ E (writei sb ip src off n) := by
  refine (Runs.getInode ip).bind fun x => .ite (.pure _) (.ite (.pure _) ?_)
  have hloop : Runs ρ E (writeiLoop sb ip src n 0 (off + 0) (n - 0)) := within_writeiLoop hc n 0 (Or.inl rfl)
  rw [Nat.add_zero, Nat.sub_zero] at hloop
  refine hloop.bind fun r => fun s => Spec.bind_ok rfl ?_
  split_ifs
  · exact Spec.bind (within_setInode (by rfl)) fun _ t ht =>
      Spec.bind (within_iupdate t) fun _ u hu => Spec.pure (Steps.trans ht hu)
  · exact Spec.bind (within_iupdate s) fun _ u hu => Spec.pure hu

theorem within_dirlookupLoop (name : List UInt8) (n off : ℕ) : Runs ρ E (dirlookupLoop sb ip name n off) := by
  induction n generalizing off with
  | zero => exact .pure _
  | succ n ih =>
    refine (within_readi _ _ _).bind fun r => .ite (.throw rfl) (.ite (ih _) (.ite ?_ (ih _)))
    exact (within_iget _).bind fun _ => .pure _

theorem within_dirlookup (name : List UInt8) : Runs ρ E (dirlookup sb ip name) :=
  (Runs.getInode ip).bind fun _ => .ite (.throw rfl) (within_dirlookupLoop _ _ _)

theorem within_dirlinkLoop (n off : ℕ) : Runs ρ E (dirlinkLoop sb ip n off) := by
  induction n generalizing off with
  | zero => exact .pure _
  | succ n ih => exact (within_readi _ _ _).bind fun r => .ite (.throw rfl) (.ite (.pure _) (ih _))

/-- the panic is one of kernel/sysfile.c -/
theorem within_isdiremptyLoop (h : E .isdiremptyRead) (n off : ℕ) : Runs ρ E (isdiremptyLoop sb ip n off) := by
  induction n generalizing off with
  | zero => exact .pure _
  | succ n ih =>
    exact (within_readi _ _ _).bind fun r => .ite (fun _ => Spec.throw h) (.ite (.pure _) (ih _))

theorem within_isdirempty (h : E .isdiremptyRead) : Runs ρ E (isdirempty sb ip) :=
  (Runs.getInode ip).bind fun _ => within_isdiremptyLoop h _ _

end Xv6.Fs
