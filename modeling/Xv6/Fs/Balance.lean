/-
Locks and transactions: every call gives back the inode locks it takes, and ends the transactions it begins.

`Kept`: the same inodes are locked, and `begin_op` and `end_op` have been called equally often in between. Nothing about
the file system is assumed: a call that returns has kept both, on each of its exits (`kept_sysOpen` ..).
-/
import Xv6.Fs.Events

namespace Xv6.Fs

open Xv6.Core

/-- which inodes of the table are locked -/
def St.locks (s : St) (k : ℕ) : Bool := (s.inode k).locked

/-- how many more calls of `begin_op` than of `end_op` there are -/
def depth : List Ev → ℤ
  | [] => 0
  | .beginOp :: es => depth es + 1
  | .endOp :: es => depth es - 1
  | _ :: es => depth es

theorem depth_append (es es' : List Ev) : depth (es ++ es') = depth es + depth es' := by
  induction es with
  | nil => simp [depth]
  | cons e es ih => cases e <;> simp only [List.cons_append, depth, ih] <;> ring

/-- t has the locks L, and d more transactions have been begun than ended since s -/
structure Bal (s t : St) (L : ℕ → Bool) (d : ℤ) : Prop where
  locks : t.locks = L
  depth : depth t.trace = depth s.trace + d

abbrev Kept (s t : St) : Prop := Bal s t s.locks 0

variable {α β : Type} {sb : Superblock} {s t u : St} {ip dp : ℕ} {L L' : ℕ → Bool} {d d' : ℤ} {type : UInt16}
  {m : FsM α}

theorem Bal.trans (h : Bal s t L d) (h' : Bal t u L' d') : Bal s u L' (d + d') :=
  ⟨h'.locks, by rw [h'.depth, h.depth, add_assoc]⟩

theorem Kept.refl (s : St) : Kept s s := ⟨rfl, (add_zero _).symm⟩

theorem Kept.then (h : Kept s t) (h' : Bal t u L d) : Bal s u L d := by simpa using h.trans h'

theorem Bal.then (h : Bal s t L d) (h' : Kept t u) : Bal s u L d := by
  have := h.trans h'
  rw [h.locks, add_zero] at this
  exact this

theorem Kept.trans (h : Kept s t) (h' : Kept t u) : Kept s u := Bal.then h h'

theorem kept_event {e : Ev} (he : depth [e] = 0) (s : St) : Kept s { s with trace := s.trace ++ [e] } :=
  ⟨rfl, by simp only [depth_append, he]⟩

instance : Steps Kept where
  refl := Kept.refl
  trans := Kept.trans
  bread s b := kept_event (e := .bread b) rfl s
  brelse s b := kept_event (e := .brelse b) rfl s
  logWrite s b := kept_event (e := .logWrite b) rfl s
  write s b d := ⟨rfl, by simp [depth_append, depth]⟩
  table s x h := ⟨funext h, (add_zero _).symm⟩

theorem kept_store (b : ℕ) (d : Block) : Within Kept (store b d) := fun s =>
  Spec.of_ok rfl ⟨rfl, by simp [depth_append, depth]⟩

theorem kept_writei (src : Src) (off n : ℕ) : Within Kept (writei sb ip src off n) := within_writei (Or.inr kept_store)

/-! ## Locks -/

theorem bal_setInode (s : St) (ip : ℕ) (x : Inode) :
    Bal s { s with inode := s.inode.set ip x } (Function.update s.locks ip x.locked) 0 := by
  refine ⟨funext fun k => ?_, (add_zero _).symm⟩
  show ((s.inode.set ip x) k).locked = _
  by_cases hk : k = ip
  · rw [hk, Function.update_self, Store.set_self]
  · rw [Function.update_of_ne hk, Store.set_ne _ _ hk]; rfl

/-- t holds the lock of ip in addition -/
structure Locked (s t : St) (ip : ℕ) (d : ℤ) : Prop where
  free : s.locks ip = false
  bal : Bal s t (Function.update s.locks ip true) d

theorem Locked.then (h : Locked s t ip d) (h' : Kept t u) : Locked s u ip d := ⟨h.free, h.bal.then h'⟩

theorem bal_ilock : Spec (ilock sb ip) s (fun _ t => Locked s t ip 0) fun _ => True := by
  unfold ilock
  refine Spec.bind_ok rfl ?_
  split_ifs with h1 h2 h3
  · exact Spec.throw trivial
  · exact Spec.throw trivial
  · exact Spec.of_ok rfl ⟨by simpa [St.locks] using h2, bal_setInode s ip _⟩
  · refine Spec.bind (Within.bread (ρ := Kept) _ s) fun data t ht => ?_
    refine Spec.bind (Within.brelse (ρ := Kept) _ t) fun _ u hu => ?_
    refine Spec.bind_ok rfl ?_
    split_ifs
    · exact Spec.throw trivial
    · have hk := ht.trans hu
      have := hk.then (bal_setInode u ip { s.inode ip with
        locked := true, valid := true, din := getDinode data ((s.inode ip).inum % IPB) })
      rw [hk.locks] at this
      exact Spec.pure ⟨by simpa [St.locks] using h2, this⟩

/-- the lock of ip is given up -/
structure Unlocked (s t : St) (ip : ℕ) : Prop where
  held : s.locks ip = true
  bal : Bal s t (Function.update s.locks ip false) 0

theorem bal_iunlock : Spec (iunlock ip) s (fun _ t => Unlocked s t ip) fun _ => True := by
  unfold iunlock
  refine Spec.bind_ok rfl ?_
  split_ifs with h1
  · exact Spec.throw trivial
  · exact Spec.of_ok rfl ⟨by simpa [St.locks] using fun h => h1 (Or.inl h), bal_setInode s ip _⟩

theorem Locked.unlocked (h : Locked s t ip d) (h' : Unlocked t u ip) : Bal s u s.locks d := by
  have := h.bal.trans h'.bal
  rw [h.bal.locks, Function.update_idem, add_zero, ← h.free, Function.update_eq_self] at this
  exact this

theorem Locked.swap (h : Locked s t dp d) (h' : Locked t u ip d') {w : St} (h'' : Unlocked u w dp) :
    Locked s w ip (d + d') := by
  have hne : ip ≠ dp := by
    rintro rfl
    have := h'.free
    rw [h.bal.locks, Function.update_self] at this; cases this
  have hbal := (h.bal.trans h'.bal).trans h''.bal
  have hfree := h'.free
  rw [h.bal.locks, Function.update_of_ne hne] at hfree
  rw [h'.bal.locks, h.bal.locks, Function.update_comm hne, Function.update_idem, add_zero] at hbal
  have hdp : Function.update s.locks dp false = s.locks := by rw [← h.free, Function.update_eq_self]
  rw [hdp] at hbal
  exact ⟨hfree, hbal⟩

theorem kept_ifree : Within Kept (ifree sb ip) := by
  intro s
  unfold ifree
  refine Spec.bind_ok rfl ?_
  split_ifs with h1
  · exact Spec.throw trivial
  refine Spec.bind_ok rfl (Spec.bind (within_itrunc (ρ := Kept) _) fun _ t ht => ?_)
  have hl : Locked s t ip 0 := ⟨by simpa [St.locks] using h1, (bal_setInode s ip _).then ht⟩
  refine Spec.bind_ok rfl (Spec.bind (within_setInode (ρ := Kept) (by rfl)) fun _ u hu => ?_)
  refine Spec.bind (within_iupdate (ρ := Kept) u) fun _ w hw => Spec.bind_ok rfl (Spec.of_ok rfl ?_)
  have hlw := (hl.then hu).then hw
  refine hlw.unlocked ⟨?_, bal_setInode w ip _⟩
  rw [hlw.bal.locks, Function.update_self]

theorem kept_iput : Within Kept (iput sb ip) := by
  intro s
  have hdecr : Within Kept (do let x ← getInode ip; setInode ip { x with ref := x.ref - 1 }) := fun s =>
    Spec.bind_ok rfl (within_setInode (by rfl))
  unfold iput
  refine Spec.bind_ok rfl ?_
  split_ifs
  · exact (kept_ifree.bind fun _ => hdecr) s
  · exact hdecr s

theorem bal_iunlockput : Spec (iunlockput sb ip) s (fun _ t => Unlocked s t ip) fun _ => True := by
  unfold iunlockput
  refine Spec.bind bal_iunlock fun _ t ht => Spec.post (kept_iput t) fun _ u hu => ⟨ht.held, ht.bal.then hu⟩

theorem Locked.put (h : Locked s t ip d) : Spec (iunlockput sb ip) t (fun _ u => Bal s u s.locks d) fun _ => True :=
  Spec.post bal_iunlockput fun _ _ hu => h.unlocked hu

/-! ## Paths -/

theorem kept_dirlink (name : List UInt8) (inum : ℕ) : Within Kept (dirlink sb dp name inum) := by
  refine (within_dirlookup name).bind fun r => ?_
  cases r with
  | some x => exact kept_iput.bind fun _ => .pure _
  | none =>
    exact (Within.getInode dp).bind fun _ => (within_dirlinkLoop _ _).bind fun _ => (kept_writei _ _ _).bind fun _ =>
      .pure _

theorem kept_namexEnd (parent : Bool) (name : List UInt8) : Within Kept (namexEnd sb parent ip name) :=
  .ite (kept_iput.bind fun _ => .pure _) (.pure _)

theorem kept_namexLoop (parent : Bool) (fuel : ℕ) (path : List UInt8) (ip : ℕ) (name : List UInt8) :
    Within Kept (namexLoop sb parent fuel path ip name) := by
  induction fuel generalizing path ip name with
  | zero => exact kept_namexEnd parent name
  | succ fuel ih =>
    intro s
    unfold namexLoop
    split
    · exact kept_namexEnd parent name s
    rename_i name' path' _
    refine Spec.bind bal_ilock fun _ t ht => Spec.bind_ok rfl ?_
    split_ifs
    · exact Spec.bind ht.put fun _ u hu => Spec.pure hu
    · exact Spec.bind bal_iunlock fun _ u hu => Spec.pure (ht.unlocked hu)
    · refine Spec.bind (within_dirlookup (ρ := Kept) name' t) fun r u hu => ?_
      split
      · exact Spec.bind (ht.then hu).put fun _ w hw => Spec.pure hw
      · refine Spec.bind (ht.then hu).put fun _ w hw => ?_
        exact Spec.post (ih path' _ name' w) fun _ _ hx => Kept.trans hw hx

theorem kept_namex (p : ℕ) (path : List UInt8) (parent : Bool) : Within Kept (namex sb p path parent) := by
  intro s
  unfold namex
  refine Spec.bind_ok rfl ?_
  have hend : ∀ ip, Within Kept (namexLoop sb parent path.length path ip []) := fun ip => kept_namexLoop _ _ _ _ _
  split_ifs
  · exact ((within_iget _).bind hend) s
  · exact (within_idup.bind hend) s

theorem kept_namei (p : ℕ) (path : List UInt8) : Within Kept (namei sb p path) :=
  (kept_namex p path false).bind fun _ => .pure _

theorem kept_setNlink (f : UInt16 → UInt16) : Within Kept (setNlink sb ip f) := fun s => by
  unfold setNlink
  exact Spec.bind_ok rfl (Spec.bind (within_setInode (ρ := Kept) (by rfl)) fun _ t ht =>
    Spec.post (within_iupdate (ρ := Kept) t) fun _ _ hu => ht.trans hu)

/-! ## Transactions -/

theorem bal_beginOp (s : St) : Bal s { s with trace := s.trace ++ [.beginOp] } s.locks 1 :=
  ⟨rfl, by simp [depth_append, depth]⟩

theorem bal_endOp (s : St) : Bal s { s with trace := s.trace ++ [.endOp] } s.locks (-1) :=
  ⟨rfl, by simp [depth_append, depth]⟩

/-- a program that ends the transaction -/
def Ends (m : FsM α) : Prop := ∀ s, Spec m s (fun _ t => Bal s t s.locks (-1)) fun _ => True

theorem Ends.end (a : α) : Ends (do endOp; return a) := fun s => Spec.bind_ok rfl (Spec.pure (bal_endOp s))

/-- it may start later, when nothing more is locked -/
theorem Ends.resume (h : Kept s t) (hm : Ends m) :
    Spec m t (fun _ u => Bal s u s.locks (-1)) fun _ => True := Spec.post (hm t) fun _ u hu => by
  have := h.then hu
  rwa [h.locks] at this

theorem Ends.after {f : α → FsM β} (hm : Within Kept m) (hf : ∀ a, Ends (f a)) : Ends (m >>= f) := fun s =>
  Spec.bind (hm s) fun a _ ht => (hf a).resume ht

theorem Ends.put (hm : Ends m) (h : Locked s t ip 0) :
    Spec (do iunlockput sb ip; m) t (fun _ u => Bal s u s.locks (-1)) fun _ => True :=
  Spec.bind h.put fun _ _ hw => hm.resume hw

theorem Ends.begin (hm : Ends m) : Within Kept (do beginOp; m) := fun s =>
  Spec.bind_ok rfl (Spec.post (hm _) fun _ t ht => by
    have := (bal_beginOp s).trans ht
    rwa [show (1 : ℤ) + -1 = 0 by norm_num] at this)

/-! ## Links -/

theorem ends_linkBad : Ends (linkBad sb ip) := fun s => by
  unfold linkBad
  refine Spec.bind bal_ilock fun _ t ht => Spec.bind (kept_setNlink _ t) fun _ u hu => ?_
  exact (Ends.end false).put (ht.then hu)

theorem kept_sysLink (p : ℕ) (old new : Option (List UInt8)) : Within Kept (sysLink sb p old new) := by
  unfold sysLink
  split
  · rename_i old new
    refine Ends.begin (.after (kept_namei p old) fun r => ?_)
    cases r with
    | none => exact Ends.end false
    | some ip =>
      intro s
      refine Spec.bind bal_ilock fun _ t ht => Spec.bind_ok rfl ?_
      split_ifs
      · exact (Ends.end false).put ht
      refine Spec.bind (kept_setNlink _ t) fun _ u hu => Spec.bind bal_iunlock fun _ v hv => ?_
      refine Ends.resume ((ht.then hu).unlocked hv) (.after (kept_namex p new true) fun r => ?_)
      cases r with
      | none => exact ends_linkBad
      | some x =>
        intro s
        refine Spec.bind bal_ilock fun _ t ht => Spec.bind (kept_dirlink _ _ t) fun r u hu => ?_
        split_ifs
        · exact Ends.put (.after kept_iput fun _ => Ends.end true) (ht.then hu)
        · exact ends_linkBad.put (ht.then hu)
  · exact .pure _

theorem bal_unlinkDone (hdp : Locked s u dp 0) (hip : Locked u t ip 0) :
    Spec (unlinkDone sb dp ip) t (fun _ w => Bal s w s.locks (-1)) fun _ => True := by
  unfold unlinkDone
  refine Spec.bind bal_iunlockput fun _ v hv => Spec.bind (kept_setNlink _ v) fun _ w hw => ?_
  exact (Ends.end true).put ((hdp.swap hip hv).then hw)

theorem bal_unlinkEntry (off : ℕ) (empty : Bool) (hdp : Locked s u dp 0) (hip : Locked u t ip 0) :
    Spec (unlinkEntry sb dp ip off type empty) t (fun _ w => Bal s w s.locks (-1)) fun _ => True := by
  refine Spec.ite (fun _ => ?_) fun _ => ?_
  · exact Spec.bind hip.put fun _ v hv => (Ends.end false).put (hdp.then hv)
  · refine Spec.bind (kept_writei _ _ _ t) fun r v hv => Spec.ite (fun _ => Spec.throw trivial) fun _ => ?_
    refine Spec.ite (fun _ => ?_) fun _ => bal_unlinkDone hdp (hip.then hv)
    exact Spec.bind (kept_setNlink _ v) fun _ w hw => bal_unlinkDone hdp ((hip.then hv).then hw)

theorem bal_unlinkIn (name : List UInt8) (hdp : Locked s t dp 0) :
    Spec (unlinkIn sb dp name) t (fun _ w => Bal s w s.locks (-1)) fun _ => True := by
  unfold unlinkIn
  split_ifs
  · exact (Ends.end false).put hdp
  refine Spec.bind (within_dirlookup (ρ := Kept) name t) fun r u hu => ?_
  split
  · exact (Ends.end false).put (hdp.then hu)
  refine Spec.bind bal_ilock fun _ v hv => Spec.bind_ok rfl ?_
  split_ifs
  · exact Spec.throw trivial
  · exact Spec.bind (within_isdirempty (ρ := Kept) (E := fun _ => True) trivial v) fun e w hw =>
      bal_unlinkEntry _ e (hdp.then hu) (hv.then hw)
  · exact bal_unlinkEntry _ true (hdp.then hu) hv

theorem kept_sysUnlink (p : ℕ) (path : Option (List UInt8)) : Within Kept (sysUnlink sb p path) := by
  cases path with
  | none => exact .pure _
  | some path =>
    rw [sysUnlink_some]
    refine Ends.begin (.after (kept_namex p path true) fun r => ?_)
    cases r with
    | none => exact Ends.end false
    | some x => exact fun s => Spec.bind bal_ilock fun _ t ht => bal_unlinkIn x.2 ht

/-! ## Creating and opening -/

/-- a function that may return an inode, locked -/
def Gives (s : St) (r : Option ℕ) (t : St) : Prop :=
  match r with
  | none => Kept s t
  | some ip => Locked s t ip 0

theorem bal_createFail (hdp : Locked s u dp 0) (hip : Locked u t ip 0) :
    Spec (createFail sb ip dp) t (Gives s) fun _ => True := by
  unfold createFail
  refine Spec.bind (kept_setNlink _ t) fun _ v hv => Spec.bind (hip.then hv).put fun _ w hw => ?_
  exact Spec.bind (hdp.then hw).put fun _ y hy => Spec.pure hy

theorem bal_createLink (name : List UInt8) (hdp : Locked s u dp 0) (hip : Locked u t ip 0) :
    Spec (createLink sb ip dp name type) t (Gives s) fun _ => True := by
  have hput : ∀ t, Locked u t ip 0 → Spec (do iunlockput sb dp; return some ip) t (Gives s) fun _ => True :=
    fun t ht => Spec.bind bal_iunlockput fun _ v hv => Spec.pure (hdp.swap ht hv)
  unfold createLink
  refine Spec.bind_ok rfl (Spec.bind (kept_dirlink _ _ t) fun r v hv => ?_)
  split_ifs
  · exact Spec.bind (kept_setNlink _ v) fun _ w hw => hput w ((hip.then hv).then hw)
  · exact hput v (hip.then hv)
  · exact bal_createFail hdp (hip.then hv)

theorem kept_createDots : Within Kept (createDots sb ip dp type) := by
  refine (Within.getInode ip).bind fun x => (Within.getInode dp).bind fun y => .ite ?_ (.pure _)
  refine (kept_dirlink _ _).bind fun r => ?_
  split_ifs
  · exact kept_dirlink _ _
  · exact .pure _

theorem bal_createNew (name : List UInt8) (major minor : UInt16) (hdp : Locked s t dp 0) :
    Spec (createNew sb dp name type major minor) t (Gives s) fun _ => True := by
  unfold createNew
  refine Spec.bind (within_ialloc (ρ := Kept) type t) fun r u hu => ?_
  split
  · exact Spec.bind (hdp.then hu).put fun _ v hv => Spec.pure hv
  rename_i ip
  refine Spec.bind bal_ilock fun _ v hv => Spec.bind_ok rfl (Spec.bind (within_setInode (ρ := Kept) (by rfl)) ?_)
  intro _ w hw
  refine Spec.bind (within_iupdate (ρ := Kept) w) fun _ x hx => Spec.bind (kept_createDots x) fun r y hy => ?_
  have hip := ((hv.then hw).then hx).then hy
  split_ifs
  · exact bal_createLink name (hdp.then hu) hip
  · exact bal_createFail (hdp.then hu) hip

theorem bal_createOld : Spec (createOld sb ip type) s (Gives s) fun _ => True := by
  unfold createOld
  refine Spec.bind bal_ilock fun _ t ht => Spec.bind_ok rfl ?_
  split_ifs
  · exact Spec.pure ht
  · exact Spec.bind ht.put fun _ u hu => Spec.pure hu

theorem Gives.after {r : Option ℕ} (hk : Kept s t) (h : Gives t r u) : Gives s r u := by
  cases r with
  | none => exact hk.trans h
  | some ip =>
    have hb := hk.then h.bal
    have hf := h.free
    rw [hk.locks] at hb hf
    exact ⟨hf, hb⟩

theorem bal_create (p : ℕ) (path : List UInt8) (major minor : UInt16) :
    Spec (create sb p path type major minor) s (Gives s) fun _ => True := by
  unfold create
  refine Spec.bind (kept_namex p path true s) fun r t ht => ?_
  split
  · exact Spec.pure ht
  rename_i dp name
  refine Spec.bind bal_ilock fun _ u hu => Spec.bind (within_dirlookup (ρ := Kept) name u) fun r v hv => ?_
  split
  · exact Spec.bind (hu.then hv).put fun _ w hw =>
      Spec.post bal_createOld fun _ _ hx => Gives.after (ht.trans hw) hx
  · exact Spec.post (bal_createNew name major minor (hu.then hv)) fun _ _ hw => hw.after ht

theorem bal_openLoop (p omode left : ℕ) (path : List UInt8) :
    Spec (openLoop sb p omode left path) s (Gives s) fun _ => True := by
  induction left using Nat.strong_induction_on generalizing s path with
  | _ left ih =>
    unfold openLoop
    refine Spec.bind (kept_namei p path s) fun r t ht => ?_
    split
    · exact Spec.pure ht
    refine Spec.bind bal_ilock fun _ u hu => Spec.bind_ok rfl (Spec.ite (fun _ => ?_) fun _ => ?_)
    · cases left with
      | zero => exact Spec.bind hu.put fun _ v hv => Spec.pure (ht.trans hv)
      | succ left =>
        refine Spec.bind (within_readi (ρ := Kept) _ _ _ u) fun l v hv => Spec.bind (hu.then hv).put fun _ w hw => ?_
        have hk : Kept s w := ht.trans hw
        refine Spec.ite (fun _ => Spec.pure hk) fun _ => ?_
        exact Spec.post (ih left (Nat.lt_succ_self left) _) fun _ _ hx => Gives.after hk hx
    · exact Spec.pure (Gives.after ht hu)

theorem kept_files (s : St) (file : Store File) (proc : Store Proc) : Kept s { s with file := file, proc := proc } :=
  ⟨rfl, (add_zero _).symm⟩

theorem kept_filealloc : Within Kept filealloc := by
  intro s
  unfold filealloc
  refine Spec.bind_ok rfl ?_
  split
  · exact Spec.pure (Kept.refl s)
  · exact Spec.bind_ok rfl (Spec.pure (kept_files s _ _))

theorem kept_fdalloc (p f : ℕ) : Within Kept (fdalloc p f) := by
  intro s
  unfold fdalloc
  refine Spec.bind_ok rfl ?_
  split
  · exact Spec.pure (Kept.refl s)
  · exact Spec.bind_ok rfl (Spec.pure (kept_files s _ _))

theorem kept_fileclose (f : ℕ) : Within Kept (fileclose sb f) := by
  intro s
  unfold fileclose
  refine Spec.bind_ok rfl ?_
  split_ifs with h1 h2 h3
  · exact Spec.throw trivial
  · exact Spec.of_ok rfl (kept_files s _ _)
  · refine Spec.bind_ok rfl (Spec.post (Ends.begin (m := do iput sb (s.file f).ip; endOp) ?_ _) fun _ _ ht =>
      (kept_files s _ _).trans ht)
    exact .after kept_iput fun _ s => Spec.of_ok rfl (bal_endOp s)
  · exact Spec.of_ok rfl (kept_files s _ _)

theorem bal_openFinish (p omode : ℕ) (h : Locked s t ip 0) :
    Spec (openFinish sb p omode ip) t (fun _ u => Bal s u s.locks (-1)) fun _ => True := by
  unfold openFinish
  refine Spec.bind_ok rfl (Spec.ite (fun _ => (Ends.end none).put h) fun _ => ?_)
  refine Spec.bind (kept_filealloc t) fun r u hu => ?_
  split
  · exact (Ends.end none).put (h.then hu)
  rename_i f
  refine Spec.bind (kept_fdalloc p f u) fun r v hv => ?_
  have hv := (h.then hu).then hv
  split
  · exact Spec.bind (kept_fileclose f v) fun _ w hw => (Ends.end none).put (hv.then hw)
  rename_i fd
  have hend : ∀ v, Locked s v ip 0 → Spec (do iunlock ip; endOp; return some fd) v
      (fun _ u => Bal s u s.locks (-1)) fun _ => True := fun v hv =>
    Spec.bind bal_iunlock fun _ w hw => (Ends.end (some fd)).resume (hv.unlocked hw)
  refine Spec.bind_ok rfl (Spec.bind_ok rfl (Spec.ite (fun _ => ?_) fun _ => ?_))
  · exact Spec.bind (within_itrunc (ρ := Kept) _) fun _ w hw => hend w ((hv.then (kept_files v _ _)).then hw)
  · exact hend _ (hv.then (kept_files v _ _))

theorem kept_sysOpen (p : ℕ) (path : Option (List UInt8)) (omode : ℕ) : Within Kept (sysOpen sb p path omode) := by
  unfold sysOpen
  split
  · exact .pure _
  rename_i path
  refine Ends.begin fun s => ?_
  split_ifs
  · refine Spec.bind (bal_create p path 0 0) fun r t ht => ?_
    split
    · exact (Ends.end none).resume ht
    · exact bal_openFinish p omode ht
  refine Spec.bind (bal_openLoop p omode 10 path) fun r t ht => ?_
  split
  · exact (Ends.end none).resume ht
  · refine Spec.bind_ok rfl ?_
    split_ifs
    · exact (Ends.end none).put ht
    · exact bal_openFinish p omode ht

/-! ## The other calls -/

theorem kept_sysCreate (p : ℕ) (path : Option (List UInt8)) (type major minor : UInt16) :
    Within Kept (sysCreate sb p path type major minor) := by
  refine Ends.begin fun s => ?_
  split
  · exact Ends.end false s
  · rename_i path
    refine Spec.bind (bal_create p path major minor) fun r t ht => ?_
    split
    · exact (Ends.end false).resume ht
    · exact (Ends.end true).put ht

theorem kept_sysSymlink (p : ℕ) (target path : Option (List UInt8)) : Within Kept (sysSymlink sb p target path) := by
  unfold sysSymlink
  split
  · rename_i target path
    refine Ends.begin fun s => Spec.bind (bal_create p path 0 0) fun r t ht => ?_
    split
    · exact (Ends.end false).resume ht
    · exact Spec.bind (kept_writei _ _ _ t) fun r u hu => (Ends.end (r == some target.length)).put (ht.then hu)
  · exact .pure _

theorem kept_sysChdir (p : ℕ) (path : Option (List UInt8)) : Within Kept (sysChdir sb p path) := by
  intro s
  unfold sysChdir
  refine Spec.bind_ok rfl (Ends.begin (fun s => ?_) s)
  split
  · exact Ends.end false s
  rename_i path
  refine Spec.bind (kept_namei p path s) fun r t ht => ?_
  split
  · exact (Ends.end false).resume ht
  refine Spec.bind bal_ilock fun _ u hu => Spec.bind_ok rfl ?_
  split_ifs
  · exact ((Ends.end false).put hu).post fun _ _ hv => by
      have := ht.then hv
      rwa [ht.locks] at this
  refine Spec.bind bal_iunlock fun _ v hv => Spec.bind (kept_iput v) fun _ w hw => ?_
  have hk : Kept s w := (ht.trans (hu.unlocked hv)).trans hw
  refine Spec.bind_ok rfl (Spec.bind_ok rfl (Spec.pure ?_))
  have := hk.then (bal_endOp w)
  rw [hk.locks] at this
  exact this.then (kept_files _ _ _)

theorem kept_loadseg (offset sz fuel i : ℕ) : Within Kept (loadseg sb ip offset sz fuel i) := by
  induction fuel generalizing i with
  | zero => exact .pure _
  | succ fuel ih => exact .ite ((within_readi _ _ _).bind fun _ => .ite (.pure _) (ih _)) (.pure _)

theorem kept_execLoop (mem : ExecMem) (left i off : ℕ) : Within Kept (execLoop sb ip mem left i off) := by
  induction left generalizing i off with
  | zero => exact .pure _
  | succ left ih =>
    refine (within_readi _ _ _).bind fun r => .ite (.pure _) (.ite (ih _ _) (.ite (.pure _) (.ite (.pure _)
      (.ite (.pure _) (.ite (.pure _) ((kept_loadseg _ _ _ _).bind fun r => ?_))))))
    split_ifs
    · exact ih _ _
    · exact .pure _

theorem kept_kexec (p : ℕ) (path : List UInt8) (mem : ExecMem) : Within Kept (kexec sb p path mem) := by
  refine Ends.begin (.after (kept_namei p path) fun r => ?_)
  cases r with
  | none => exact Ends.end false
  | some ip =>
    intro s
    refine Spec.bind bal_ilock fun _ t ht => ?_
    have hload : Within Kept (execLoad sb ip mem) := (within_readi _ _ _).bind fun r =>
      .ite (.pure _) (.ite (.pure _) (.ite (.pure _) (kept_execLoop _ _ _ _)))
    exact Spec.bind (hload t) fun ok u hu => (Ends.end (ok && mem.stack)).put (ht.then hu)

theorem kept_sysClose (p fd : ℕ) : Within Kept (sysClose sb p fd) := by
  intro s
  unfold sysClose argfd
  refine Spec.bind_ok rfl ?_
  split
  · exact Spec.pure (Kept.refl s)
  · rename_i f _
    refine Spec.bind_ok rfl (Spec.bind_ok rfl (Spec.bind (kept_fileclose f _) fun _ t ht => Spec.pure ?_))
    exact (kept_files s _ _).trans ht

theorem kept_exitFiles (p n fd : ℕ) : Within Kept (exitFiles sb p n fd) := by
  induction n generalizing fd with
  | zero => exact .pure _
  | succ n ih =>
    intro s
    unfold exitFiles
    refine Spec.bind_ok rfl ?_
    split
    · exact ih _ s
    · rename_i f _
      refine Spec.bind (kept_fileclose f s) fun _ t ht => Spec.bind_ok rfl (Spec.bind_ok rfl ?_)
      exact Spec.post (ih (fd + 1) _) fun _ _ hu => (ht.trans (kept_files t _ _)).trans hu

theorem kept_exit (p : ℕ) : Within Kept (exit sb p) := by
  intro s
  unfold exit
  refine Spec.bind (kept_exitFiles p _ _ s) fun _ t ht => Spec.bind_ok rfl ?_
  refine Spec.post (Ends.begin (.after kept_iput fun _ s => ?_) t) fun _ u hu => ht.trans hu
  exact Spec.bind_ok rfl (Spec.of_ok rfl ((bal_endOp s).then (kept_files _ _ _)))

end Xv6.Fs
