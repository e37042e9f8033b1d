/-
The modes of `sys_open` against each other (kernel/sysfile.c, kernel/fcntl.h). Nothing about the file system is assumed:
two calls that agree do so in every state, with the same result and the same state after it.

- `nofollow_agrees`: on a path that does not end at a symbolic link, O_NOFOLLOW makes no difference, except that a
  directory cannot be opened with it (`nofollow_directory`): the test `omode != O_RDONLY` sees the flag.
- `create_agrees`: on a path that ends at a file or a device, O_CREATE makes no difference; through a symbolic link it
  does (`create_symlink`): `create` does not follow links.
- `absolute_agrees`: an absolute path leads every process to the same inode, unless a link on the way has a relative
  target (`relative_target`), which is looked up from the caller's directory.
-/
import Mathlib.Data.List.DropRight
import Xv6.Fs.Runs

namespace Xv6.Fs

open Xv6.Core

variable {sb : Superblock} {p q ip m left omode : ℕ} {s t u : St} {path name : List UInt8}

/-! ## Looking up -/

/-- what every round of `sys_open` begins with: look the path up and lock the inode -/
def nameiLock (sb : Superblock) (p : ℕ) (path : List UInt8) : FsM (Option ℕ) := do
  match ← namei sb p path with
  | none => return none
  | some ip =>
    ilock sb ip
    return some ip

/-- the path of a call ends at entry ip of the inode table, which is locked and loaded in state t -/
def Finds (sb : Superblock) (p : ℕ) (path : List UInt8) (s : St) (ip : ℕ) (t : St) : Prop :=
  (do beginOp; nameiLock sb p path) s = .ok (some ip, t)

/-- the rest of a round: what happens to the inode that was found -/
def openRest (sb : Superblock) (p omode left ip : ℕ) : FsM (Option ℕ) := do
  let x ← getInode ip
  if x.din.type = T_SYMLINK ∧ omode.testBit O_NOFOLLOW = false then
    match left with
    | 0 => do
      iunlockput sb ip
      return none
    | left + 1 => do
      let r ← readi sb ip .kernel 0 MAXPATH
      iunlockput sb ip
      if (r.getD []).length = 0 then return none
      else openLoop sb p omode left ((r.getD []).takeWhile fun c => c ≠ 0)
  else return some ip

theorem openLoop_eq (omode left : ℕ) (path : List UInt8) : openLoop sb p omode left path = (do
    match ← nameiLock sb p path with
    | none => return none
    | some ip => openRest sb p omode left ip) := by
  conv_lhs => unfold openLoop
  unfold nameiLock
  rw [bind_assoc]
  congr 1
  funext r
  cases r with
  | none => rfl
  | some ip =>
    show _ = (ilock sb ip >>= fun _ => pure (some ip)) >>= _
    rw [bind_assoc]
    rfl

theorem openRest_found (h : (t.inode ip).din.type = T_SYMLINK → omode.testBit O_NOFOLLOW = true) :
    openRest sb p omode left ip t = .ok (some ip, t) := by
  unfold openRest
  rw [bind_ok (a := t.inode ip) (t := t) rfl, if_neg fun hc => by rw [h hc.1] at hc; exact Bool.noConfusion hc.2]
  rfl

/-- the check of a directory, and the end of `sys_open` without O_CREATE -/
def openFound (sb : Superblock) (p omode ip : ℕ) : FsM (Option ℕ) := do
  let x ← getInode ip
  if x.din.type = T_DIR ∧ omode ≠ 0 then openFail sb ip
  else openFinish sb p omode ip

/-- what `sys_open` does after `begin_op` -/
def openBody (sb : Superblock) (p omode : ℕ) (path : List UInt8) : FsM (Option ℕ) :=
  if omode.testBit O_CREATE then do
    match ← create sb p path T_FILE 0 0 with
    | none =>
      endOp
      return none
    | some ip => openFinish sb p omode ip
  else do
    match ← openLoop sb p omode 10 path with
    | none =>
      endOp
      return none
    | some ip => openFound sb p omode ip

theorem sysOpen_eq (omode : ℕ) : sysOpen sb p (some path) omode = (do beginOp; openBody sb p omode path) := rfl

/-- the end of `sys_open` looks at these bits only -/
theorem openFinish_congr {m' : ℕ} (h : ∀ b ∈ [O_WRONLY, O_RDWR, O_TRUNC, O_APPEND], m'.testBit b = m.testBit b) :
    openFinish sb p m' ip = openFinish sb p m ip := by
  unfold openFinish
  rw [h O_WRONLY (by decide), h O_RDWR (by decide), h O_TRUNC (by decide), h O_APPEND (by decide)]

theorem testBit_flag {b c : ℕ} (h : c ≠ b) : (m ||| 2 ^ b).testBit c = m.testBit c := by
  rw [Nat.testBit_or, Nat.testBit_two_pow_of_ne (Ne.symm h), Bool.or_false]

/-- the end of `sys_open` does not look at O_CREATE and O_NOFOLLOW -/
theorem openFinish_flag {b : ℕ} (hb : b = O_CREATE ∨ b = O_NOFOLLOW) : openFinish sb p (m ||| 2 ^ b) ip = openFinish
    sb p m ip := by
  refine openFinish_congr fun c hc => testBit_flag ?_
  rcases hb with rfl | rfl <;> revert c <;> decide

/-! ## O_NOFOLLOW -/

theorem ilock_ok {a : Unit} (h : ilock sb ip s = .ok (a, t)) :
    (t.inode ip).locked = true ∧ (t.inode ip).valid = true ∧ ¬ (t.inode ip).ref < 1 := by
  unfold ilock at h
  rw [bind_ok (a := s.inode ip) (t := s) rfl] at h
  split_ifs at h with h1 h2 h3
  · cases h
  · cases h
  · cases h
    simp only [Store.set_self]
    exact ⟨trivial, h3, h1⟩
  · obtain ⟨data, t1, hb, h⟩ := bind_eq_ok h
    cases hb
    obtain ⟨u2, t2, hr, h⟩ := bind_eq_ok h
    cases hr
    obtain ⟨u3, t3, hs, h⟩ := bind_eq_ok h
    cases hs
    split_ifs at h with h4
    · cases h
    · cases h
      simp only [Store.set_self]
      exact ⟨trivial, trivial, h1⟩

theorem Finds.locked (h : Finds sb p path s ip t) :
    (t.inode ip).locked = true ∧ (t.inode ip).valid = true ∧ ¬ (t.inode ip).ref < 1 := by
  obtain ⟨_, s0, hbegin, h⟩ := bind_eq_ok h
  obtain ⟨r, t1, -, h⟩ := bind_eq_ok h
  cases r with
  | none => cases h
  | some ip' =>
    obtain ⟨a, t2, hlock, hret⟩ := bind_eq_ok h
    cases hret
    exact ilock_ok hlock

/-- the call has returned a descriptor -/
def Opens (r : Except Panic (Option ℕ × St)) : Prop := ∃ fd t, r = .ok (some fd, t)

/-- the file table is full, or the process has no free descriptor -/
def NoSlot (p : ℕ) (s : St) : Prop :=
  (∀ f, f < NFILE → (s.file f).ref ≠ 0) ∨ ∀ fd, fd < NOFILE → (s.proc p).ofile fd ≠ none

theorem not_opens_bind {α : Type} {f : FsM α} : ¬ Opens ((do let _ ← f; openFail sb ip) s) := by
  rintro ⟨fd, t, h⟩
  obtain ⟨_, s1, -, h⟩ := bind_eq_ok h
  obtain ⟨_, s2, -, h⟩ := bind_eq_ok h
  obtain ⟨_, s3, -, h⟩ := bind_eq_ok h
  cases h

theorem not_opens_openFail : ¬ Opens (openFail sb ip s) := not_opens_bind (f := pure ())

theorem filealloc_find (t : St) : filealloc t = match (List.range NFILE).find? fun f => (t.file f).ref = 0 with
    | none => .ok (none, t)
    | some f => .ok (some f, { t with file := t.file.set f { t.file f with ref := 1 } }) := by
  unfold filealloc
  rw [bind_ok (a := t) (t := t) rfl]
  cases (List.range NFILE).find? fun f => (t.file f).ref = 0 <;> rfl

theorem fdalloc_find (t : St) :
    fdalloc p f t = match (List.range NOFILE).find? fun fd => (t.proc p).ofile fd = none with
    | none => .ok (none, t)
    | some fd => .ok (some fd, { t with proc := t.proc.set p { t.proc p with
        ofile := Function.update (t.proc p).ofile fd (some f) } }) := by
  unfold fdalloc
  rw [bind_ok (a := t.proc p) (t := t) rfl]
  cases (List.range NOFILE).find? fun fd => (t.proc p).ofile fd = none <;> rfl

/-- the end of a successful `open` -/
theorem opens_iunlock (hlock : (t.inode ip).locked = true) (href : ¬ (t.inode ip).ref < 1) :
    Opens ((do iunlock ip; endOp; return some fd : FsM (Option ℕ)) t) := by
  have hunlock : iunlock ip t = .ok ((), { t with inode := t.inode.set ip { t.inode ip with locked := false } }) := by
    unfold iunlock
    rw [bind_ok (a := t.inode ip) (t := t) rfl, if_neg (by rw [hlock]; simpa using href)]
    rfl
  rw [bind_ok hunlock]
  exact ⟨fd, _, rfl⟩

/-- a directory is opened for reading if there is room for an open file -/
theorem openFinish_dir (hd : (t.inode ip).din.type = T_DIR) (hlock : (t.inode ip).locked = true)
    (href : ¬ (t.inode ip).ref < 1) : Opens (openFinish sb p 0 ip t) ↔ ¬ NoSlot p t := by
  have hfind : ∀ (n : ℕ) (q : ℕ → Bool), (List.range n).find? q = none ↔ ∀ x, x < n → q x = false := fun n q => by
    simp [List.find?_eq_none]
  unfold openFinish
  rw [bind_ok (a := t.inode ip) (t := t) rfl, if_neg (by rw [hd]; simp [T_DIR, T_DEVICE])]
  cases hf : (List.range NFILE).find? fun f => (t.file f).ref = 0 with
  | none =>
    rw [bind_ok (a := none) (t := t) (by rw [filealloc_find, hf])]
    refine iff_of_false not_opens_openFail (not_not.2 (Or.inl fun f hlt => ?_))
    simpa using (hfind _ _).1 hf f hlt
  | some f =>
    have hfile : ¬ ∀ f, f < NFILE → (t.file f).ref ≠ 0 := fun hall =>
      hall f (List.mem_range.1 (List.mem_of_find?_eq_some hf)) (by simpa using List.find?_some hf)
    set t1 : St := { t with file := t.file.set f { t.file f with ref := 1 } }
    rw [bind_ok (a := some f) (t := t1) (by rw [filealloc_find, hf])]
    show Opens ((fdalloc p f >>= _) t1) ↔ _
    cases hfd : (List.range NOFILE).find? fun fd => (t.proc p).ofile fd = none with
    | none =>
      rw [bind_ok (a := none) (t := t1) (by rw [fdalloc_find, show t1.proc = t.proc from rfl, hfd])]
      refine iff_of_false not_opens_bind (not_not.2 (Or.inr fun fd hlt => ?_))
      simpa using (hfind _ _).1 hfd fd hlt
    | some fd =>
      have hnofd : ¬ ∀ fd, fd < NOFILE → (t.proc p).ofile fd ≠ none := fun hall =>
        hall fd (List.mem_range.1 (List.mem_of_find?_eq_some hfd)) (by simpa using List.find?_some hfd)
      refine iff_of_true ?_ fun h => h.elim hfile hnofd
      rw [bind_ok (a := some fd) (t := { t1 with proc := t1.proc.set p { t.proc p with
        ofile := Function.update (t.proc p).ofile fd (some f) } })
        (by rw [fdalloc_find, show t1.proc = t.proc from rfl, hfd])]
      show Opens ((getFile f >>= _) _)
      rw [bind_ok (m := getFile f) rfl, bind_ok (m := setFile f _) (a := ()) rfl]
      dsimp only
      rw [if_neg (by rw [hd]; simp [T_DIR, T_FILE])]
      exact opens_iunlock hlock href

/-- **O_NOFOLLOW changes nothing** for a path that does not end at a symbolic link, if and only if it is not a directory
that is opened with O_RDONLY while there is room for an open file. -/
theorem nofollow_agrees (hm : m.testBit O_CREATE = false)
    (h : ∀ ip t, Finds sb p path s ip t → (t.inode ip).din.type ≠ T_SYMLINK) :
    (Opens (sysOpen sb p (some path) (m ||| 2 ^ O_NOFOLLOW) s) ∨ Opens (sysOpen sb p (some path) m s) →
        sysOpen sb p (some path) (m ||| 2 ^ O_NOFOLLOW) s = sysOpen sb p (some path) m s) ↔
      ∀ ip t, Finds sb p path s ip t → (t.inode ip).din.type = T_DIR → m ≠ 0 ∨ NoSlot p t := by
  rw [sysOpen_eq, sysOpen_eq]
  set s0 : St := { s with trace := s.trace ++ [.beginOp] }
  rw [bind_ok (a := ()) (t := s0) rfl, bind_ok (a := ()) (t := s0) rfl]
  have hm' : (m ||| 2 ^ O_NOFOLLOW).testBit O_CREATE = false := by rw [testBit_flag (by decide), hm]
  unfold openBody
  rw [hm, hm', if_neg Bool.false_ne_true, if_neg Bool.false_ne_true, openLoop_eq, openLoop_eq]
  have hfinds : ∀ {ip t}, Finds sb p path s ip t ↔ nameiLock sb p path s0 = .ok (some ip, t) := Iff.rfl
  simp only [hfinds]
  cases hn : nameiLock sb p path s0 with
  | error e =>
    rw [bind_error (bind_error hn), bind_error (bind_error hn)]
    exact iff_of_true (fun _ => rfl) (by simp)
  | ok r =>
    obtain ⟨r, t⟩ := r
    cases r with
    | none =>
      rw [bind_ok (bind_ok hn), bind_ok (bind_ok hn)]
      exact iff_of_true (fun _ => rfl) (by simp)
    | some ip =>
      have hsym := h ip t hn
      obtain ⟨hlock, -, href⟩ := Finds.locked hn
      have hrest : ∀ omode, openRest sb p omode 10 ip t = .ok (some ip, t) := fun _ => openRest_found fun hc =>
        absurd hc hsym
      rw [bind_ok ((bind_ok hn).trans (hrest _)), bind_ok ((bind_ok hn).trans (hrest _))]
      show (Opens (openFound sb p (m ||| 2 ^ O_NOFOLLOW) ip t) ∨ Opens (openFound sb p m ip t) → openFound sb p (m |||
        2 ^ O_NOFOLLOW) ip t = openFound sb p m ip t) ↔ _
      have hall : (∀ ip' t', (Except.ok (some ip, t) : Except Panic _) = .ok (some ip', t') →
          (t'.inode ip').din.type = T_DIR → m ≠ 0 ∨ NoSlot p t') ↔
            ((t.inode ip).din.type = T_DIR → m ≠ 0 ∨ NoSlot p t) :=
        ⟨fun hall => hall ip t rfl, fun hone ip' t' he => by cases he; exact hone⟩
      rw [hall]
      unfold openFound
      rw [openFinish_flag (Or.inr rfl), bind_ok (a := t.inode ip) (t := t) rfl, bind_ok (a := t.inode ip) (t := t) rfl]
      by_cases hd : (t.inode ip).din.type = T_DIR
      · have hne : m ||| 2 ^ O_NOFOLLOW ≠ 0 := fun h0 => absurd (Nat.or_eq_zero_iff.1 h0).2 (by decide)
        rw [if_pos ⟨hd, hne⟩]
        by_cases h0 : m = 0
        · rw [if_neg fun hc => hc.2 h0, h0]
          have hopen := @openFinish_dir sb p _ _ hd hlock href
          constructor
          · intro heq _
            refine Or.inr (by_contra fun hslot => ?_)
            have hok := hopen.2 hslot
            exact not_opens_openFail (heq (Or.inr hok) ▸ hok)
          · intro hslot hor
            exact absurd (hslot hd) (not_or.2 ⟨not_not.2 rfl, hopen.1 (hor.resolve_left not_opens_openFail)⟩)
        · rw [if_pos ⟨hd, h0⟩]
          exact iff_of_true (fun _ => rfl) fun _ => Or.inl h0
      · rw [if_neg fun hc => hd hc.1, if_neg fun hc => hd hc.1]
        exact iff_of_true (fun _ => rfl) fun hc => absurd hc hd

/-- the state after some calls of process 0, if all of them return -/
def after (as : List (ℕ × Call)) : St :=
  match (calls Ownership.tiny).run boot as with
  | .ok t => t
  | .error _ => boot

/-- what a call returns, if it does -/
def result (s : St) (m : FsM (Option ℕ)) : Option (Option ℕ) :=
  match m s with
  | .ok (r, _) => some r
  | .error _ => none

theorem opens_of_result {m : FsM (Option ℕ)} {fd : ℕ} (h : result s m = some (some fd)) : Opens (m s) := by
  unfold result at h
  split at h
  · cases h
    exact ⟨_, _, by assumption⟩
  · cases h

/-- "/f", and the calls that create it -/
def pathF : List UInt8 := [47, 102]
def makeF : List (ℕ × Call) := [(0, .openPath (some pathF) (2 ^ O_CREATE)), (0, .close 0)]

/-- the type of the inode that a call finds, if it finds one -/
def foundType (s : St) (path : List UInt8) : Option UInt16 :=
  match (do beginOp; nameiLock Ownership.tiny 0 path) s with
  | .ok (some ip, t) => some (t.inode ip).din.type
  | _ => none

theorem foundType_eq (h : Finds Ownership.tiny 0 path s ip t) : foundType s path = some (t.inode ip).din.type := by
  unfold foundType
  rw [h]

theorem foundType_makeF : foundType (after makeF) pathF = some T_FILE := by decide +kernel

example : foundType (after makeF) [SLASH] = some T_DIR := by decide +kernel

theorem nofollow_agrees_file : result (after makeF) (sysOpen Ownership.tiny 0 (some pathF) 1) = some (some 0) ∧
    sysOpen Ownership.tiny 0 (some pathF) (1 ||| 2 ^ O_NOFOLLOW) (after makeF) =
      sysOpen Ownership.tiny 0 (some pathF) 1 (after makeF) := by
  have hty : ∀ ip t, Finds Ownership.tiny 0 pathF (after makeF) ip t → (t.inode ip).din.type = T_FILE := fun ip t h =>
    Option.some.inj ((foundType_eq h).symm.trans foundType_makeF)
  have hopen : result (after makeF) (sysOpen Ownership.tiny 0 (some pathF) 1) = some (some 0) := by decide +kernel
  refine ⟨hopen, (nofollow_agrees (by decide) fun ip t h => ?_).2 (fun ip t h hc => ?_) (Or.inr ?_)⟩
  · rw [hty ip t h]; decide
  · rw [hty ip t h] at hc
    exact absurd hc (by decide)
  · exact opens_of_result hopen

/-- **A directory cannot be opened with O_NOFOLLOW**, although "/" is no symbolic link. -/
theorem nofollow_directory : foundType boot [SLASH] = some T_DIR ∧
    result boot (sysOpen Ownership.tiny 0 (some [SLASH]) 0) = some (some 0) ∧
    result boot (sysOpen Ownership.tiny 0 (some [SLASH]) (0 ||| 2 ^ O_NOFOLLOW)) = some none := by
  decide +kernel

/-! ## O_CREATE -/

/-- what `create` does with the directory it has found, if the name exists there -/
def createIn (sb : Superblock) : Option (ℕ × List UInt8) → FsM (Option ℕ)
  | none => return none
  | some (dp, name) => do
    ilock sb dp
    match ← dirlookup sb dp name with
    | some (ip, _) =>
      iunlockput sb dp
      return some ip
    | none =>
      iunlockput sb dp
      return none

/-- `create` up to the point where it knows whether the name exists -/
def createFind (sb : Superblock) (p : ℕ) (path : List UInt8) : FsM (Option ℕ) := do
  let r ← nameiparent sb p path
  createIn sb r

/-- when the name exists, `create` tries to open it -/
theorem create_found {type major minor : UInt16} (h : createFind sb p path s = .ok (some ip, t)) :
    create sb p path type major minor s = createOld sb ip type t := by
  unfold createFind at h
  obtain ⟨r, t1, h1, h⟩ := bind_eq_ok h
  cases r with
  | none => cases h
  | some x =>
    obtain ⟨dp, name⟩ := x
    obtain ⟨u2, t2, h2, h⟩ := bind_eq_ok h
    obtain ⟨r, t3, h3, h⟩ := bind_eq_ok h
    cases r with
    | none =>
      obtain ⟨u4, t4, h4, h⟩ := bind_eq_ok h
      cases h
    | some y =>
      obtain ⟨ip', off⟩ := y
      obtain ⟨u4, t4, h4, h⟩ := bind_eq_ok h
      cases h
      unfold create
      rw [bind_ok h1]
      show (do ilock sb dp; _) t1 = _
      rw [bind_ok h2, bind_ok h3]
      exact bind_ok h4

theorem relock {α : Type} {a : Unit} (h : ilock sb ip s = .ok (a, t)) (f : FsM α) :
    (do iunlock ip; ilock sb ip; f) t = f t := by
  obtain ⟨hlock, hvalid, href⟩ := ilock_ok h
  set x : Inode := { t.inode ip with locked := false }
  set t' : St := { t with inode := t.inode.set ip x }
  have hx : t'.inode ip = x := Store.set_self _ _ _
  have h1 : iunlock ip t = .ok ((), t') := by
    unfold iunlock
    rw [bind_ok (a := t.inode ip) (t := t) rfl, if_neg (by rw [hlock]; simpa using href)]
    rfl
  have h2 : ilock sb ip t' = .ok ((), t) := by
    unfold ilock
    rw [bind_ok (a := x) (t := t') (by rw [← hx]; rfl), if_neg href, if_neg Bool.false_ne_true, if_pos hvalid]
    have hset : (t'.inode.set ip { x with locked := true }) = t.inode := by
      show (t.inode.set ip x).set ip { x with locked := true } = t.inode
      rw [Store.set_set, show ({ x with locked := true } : Inode) = t.inode ip by rw [← hlock], Store.set_same]
    show Except.ok ((), { t' with inode := t'.inode.set ip { x with locked := true } }) = _
    rw [hset]
  rw [bind_ok h1, bind_ok h2]

/-- what is left of a path after its first element begins with an element or is empty -/
theorem skipelem_rest {rest : List UInt8} (h : skipelem path = some (name, rest)) :
    (rest ≠ [] → skipelem rest ≠ none) ∧ rest.length < path.length := by
  unfold skipelem at h
  simp only at h
  split_ifs at h with h0
  simp only [Option.some.injEq, Prod.mk.injEq] at h
  obtain ⟨-, rfl⟩ := h
  set l := path.dropWhile fun c => decide (c = SLASH)
  refine ⟨fun hne hsk => ?_, ?_⟩
  · unfold skipelem at hsk
    simp only at hsk
    split_ifs at hsk with h1
    rw [List.dropWhile_idempotent] at h1
    exact hne h1
  · have hl : l.length ≤ path.length := (List.dropWhile_suffix _).length_le
    obtain ⟨c, l', hc⟩ := List.exists_cons_of_ne_nil h0
    have hcs : c ≠ SLASH := by
      have hhead := List.head_dropWhile_not (fun c => decide (c = SLASH)) h0
      rw [show (path.dropWhile fun c => decide (c = SLASH)).head h0 = c by
        simp only [show (path.dropWhile fun c => decide (c = SLASH)) = c :: l' from hc, List.head_cons]] at hhead
      simpa using hhead
    have h2 : ((l.dropWhile fun c => decide (c ≠ SLASH)).dropWhile fun c => decide (c = SLASH)).length ≤ l'.length := by
      rw [hc, List.dropWhile_cons_of_pos (by simpa using hcs)]
      exact ((List.dropWhile_suffix _).trans (List.dropWhile_suffix _)).length_le
    have h3 : l.length = l'.length + 1 := by rw [hc]; rfl
    omega

theorem namexLoop_nil (fuel : ℕ) : namexLoop sb false fuel [] ip name = pure (some (ip, name)) := by
  cases fuel <;> rfl

/-- the last step of `namei` is what `create` does after `nameiparent` -/
theorem createFind_loop {fuel : ℕ} (hsk : skipelem path ≠ none) (hfuel : path.length ≤ fuel) :
    (namexLoop sb true fuel path ip name >>= createIn sb) s =
      (namexLoop sb false fuel path ip name >>= fun r => pure (r.map Prod.fst)) s := by
  induction fuel generalizing path ip name s with
  | zero =>
    rw [List.length_eq_zero_iff.1 (Nat.le_zero.1 hfuel)] at hsk
    exact absurd rfl hsk
  | succ fuel ih =>
    obtain ⟨⟨nm, rest⟩, hx⟩ := Option.ne_none_iff_exists'.1 hsk
    obtain ⟨hrest, hlen⟩ := skipelem_rest hx
    simp only [namexLoop, hx, bind_assoc]
    cases hi : ilock sb ip s with
    | error e => rw [bind_error hi, bind_error hi]
    | ok r =>
      obtain ⟨a, t⟩ := r
      rw [bind_ok hi, bind_ok hi, bind_ok (a := t.inode ip) (t := t) rfl, bind_ok (a := t.inode ip) (t := t) rfl]
      by_cases hd : (t.inode ip).din.type ≠ T_DIR
      · rw [if_pos hd, if_pos hd, bind_assoc, bind_assoc]
        rfl
      rw [if_neg hd, if_neg hd, if_neg (c := false = true ∧ rest = []) fun hc => Bool.false_ne_true hc.1]
      by_cases hr : rest = []
      · -- the directory is unlocked and locked again
        rw [if_pos (c := True ∧ rest = []) ⟨trivial, hr⟩, bind_assoc]
        show (do iunlock ip; ilock sb ip; _) t = _
        rw [relock hi, bind_assoc]
        refine congrFun (congrArg (dirlookup sb ip nm >>= ·) (funext fun r => ?_)) t
        cases r with
        | none =>
          show (do iunlockput sb ip; pure none) =
            (do iunlockput sb ip; pure none) >>= fun r => pure (r.map Prod.fst)
          rw [bind_assoc]
          rfl
        | some y =>
          show (do iunlockput sb ip; pure (some y.1)) =
            (do iunlockput sb ip; namexLoop sb false fuel rest y.1 nm) >>= fun r => pure (r.map Prod.fst)
          rw [bind_assoc, hr, namexLoop_nil]
          rfl
      · rw [if_neg (c := True ∧ rest = []) fun hc => hr hc.2, bind_assoc, bind_assoc]
        cases hl : dirlookup sb ip nm t with
        | error e => rw [bind_error hl, bind_error hl]
        | ok r =>
          obtain ⟨r, u⟩ := r
          rw [bind_ok hl, bind_ok hl]
          cases r with
          | none =>
            show ((do iunlockput sb ip; pure none) >>= createIn sb) u =
              ((do iunlockput sb ip; pure none) >>= fun r => pure (r.map Prod.fst)) u
            rw [bind_assoc, bind_assoc]
            rfl
          | some y =>
            show ((do iunlockput sb ip; namexLoop sb true fuel rest y.1 nm) >>= createIn sb) u =
              ((do iunlockput sb ip; namexLoop sb false fuel rest y.1 nm) >>= fun r => pure (r.map Prod.fst)) u
            rw [bind_assoc, bind_assoc]
            cases hp : iunlockput sb ip u with
            | error e => rw [bind_error hp, bind_error hp]
            | ok x =>
              obtain ⟨x, v⟩ := x
              rw [bind_ok hp, bind_ok hp]
              exact ih (hrest hr) (by omega)

/-- a lookup first takes a reference to the inode it starts at -/
def startAt (p : ℕ) (path : List UInt8) : FsM ℕ := do
  let pr ← getProc p
  if path.head? = some SLASH then iget ROOTINO else idup (pr.cwd.getD 0)

theorem namex_eq (parent : Bool) : namex sb p path parent = (do
    let ip ← startAt p path
    namexLoop sb parent path.length path ip []) := by
  unfold namex startAt
  rw [bind_assoc]
  congr 1
  funext pr
  split_ifs <;> rfl

/-- **`create` finds what `namei` finds**, if the path has an element. -/
theorem createFind_eq (hsk : skipelem path ≠ none) : createFind sb p path s = namei sb p path s := by
  unfold createFind nameiparent namei
  rw [namex_eq, namex_eq, bind_assoc, bind_assoc]
  cases hs : startAt p path s with
  | error e => rw [bind_error hs, bind_error hs]
  | ok r =>
    rw [bind_ok (a := r.1) (t := r.2) hs, bind_ok (a := r.1) (t := r.2) hs]
    exact createFind_loop hsk le_rfl

/-- **O_CREATE changes nothing** for a path with an element that can be opened, if and only if the path itself ends at a
file or a device: then `create` finds it, ends in the state in which the lookup ends, and has allocated nothing. -/
theorem create_agrees (hm : m.testBit O_CREATE = false) (hsk : skipelem path ≠ none) (h : Finds sb p path s ip t)
    (hopen : Opens (sysOpen sb p (some path) m s)) :
    (sysOpen sb p (some path) (m ||| 2 ^ O_CREATE) s = sysOpen sb p (some path) m s ↔
      (t.inode ip).din.type = T_FILE ∨ (t.inode ip).din.type = T_DEVICE) ∧
    ((t.inode ip).din.type = T_FILE ∨ (t.inode ip).din.type = T_DEVICE →
      (do beginOp; create sb p path T_FILE 0 0) s = .ok (some ip, t)) := by
  set s0 : St := { s with trace := s.trace ++ [.beginOp] }
  have hlook : nameiLock sb p path s0 = .ok (some ip, t) := h
  have hm' : (m ||| 2 ^ O_CREATE).testBit O_CREATE = true := by
    rw [Nat.testBit_or, Nat.testBit_two_pow_self, Bool.or_true]
  obtain ⟨r, t1, hn, hlock⟩ := bind_eq_ok hlook
  cases r with
  | none => cases hlock
  | some ip' =>
    obtain ⟨a, t2, hlock, hret⟩ := bind_eq_ok hlock
    cases hret
    -- `create` finds the inode, and locks it
    have hold : create sb p path T_FILE 0 0 s0 = createOld sb ip T_FILE t1 :=
      create_found ((createFind_eq hsk).trans hn)
    rw [createOld, bind_ok hlock, bind_ok (a := t.inode ip) (t := t) rfl] at hold
    rw [bind_ok (m := beginOp) (a := ()) (t := s0) rfl]
    by_cases hty : (t.inode ip).din.type = T_FILE ∨ (t.inode ip).din.type = T_DEVICE
    swap
    · refine ⟨iff_of_false (fun heq => ?_) hty, fun hc => absurd hc hty⟩
      rw [← heq, sysOpen_eq, bind_ok (a := ()) (t := s0) rfl] at hopen
      obtain ⟨fd, u, hopen⟩ := hopen
      unfold openBody at hopen
      rw [hm', if_pos rfl] at hopen
      obtain ⟨r, u1, hcreate, hopen⟩ := bind_eq_ok hopen
      rw [hold, if_neg fun hc => hty hc.2] at hcreate
      obtain ⟨_, u2, -, hcreate⟩ := bind_eq_ok hcreate
      cases hcreate
      obtain ⟨_, u3, -, hopen⟩ := bind_eq_ok hopen
      cases hopen
    rw [if_pos ⟨rfl, hty⟩] at hold
    have hcreate : create sb p path T_FILE 0 0 s0 = .ok (some ip, t) := hold
    have hne : (t.inode ip).din.type ≠ T_SYMLINK ∧ (t.inode ip).din.type ≠ T_DIR := by
      rcases hty with hty | hty <;> rw [hty] <;> decide
    have hloop : openLoop sb p m 10 path s0 = .ok (some ip, t) := by
      rw [openLoop_eq, bind_ok hlook]
      exact openRest_found fun hc => absurd hc hne.1
    refine ⟨iff_of_true ?_ hty, fun _ => hcreate⟩
    rw [sysOpen_eq, sysOpen_eq, bind_ok (a := ()) (t := s0) rfl, bind_ok (a := ()) (t := s0) rfl]
    unfold openBody
    rw [hm, hm', if_pos rfl, if_neg Bool.false_ne_true, bind_ok hcreate, bind_ok hloop]
    show openFinish sb p (m ||| 2 ^ O_CREATE) ip t = openFound sb p m ip t
    unfold openFound
    rw [openFinish_flag (Or.inl rfl), bind_ok (a := t.inode ip) (t := t) rfl, if_neg fun hc => hne.2 hc.1]

theorem create_agrees_file : result (after makeF) (sysOpen Ownership.tiny 0 (some pathF) 2) = some (some 0) ∧
    sysOpen Ownership.tiny 0 (some pathF) (2 ||| 2 ^ O_CREATE) (after makeF) =
      sysOpen Ownership.tiny 0 (some pathF) 2 (after makeF) := by
  have hf := foundType_makeF
  have hopen : result (after makeF) (sysOpen Ownership.tiny 0 (some pathF) 2) = some (some 0) := by decide +kernel
  obtain ⟨ip, t, h⟩ : ∃ ip t, Finds Ownership.tiny 0 pathF (after makeF) ip t := by
    unfold foundType at hf
    unfold Finds
    split at hf
    · exact ⟨_, _, by assumption⟩
    · cases hf
  rw [foundType_eq h, Option.some.injEq] at hf
  exact ⟨hopen, (create_agrees (by decide) (by decide) h (opens_of_result hopen)).1.2 (Or.inl hf)⟩

/-- "/l", a symbolic link to "/f" -/
def pathL : List UInt8 := [47, 108]
def makeL : List (ℕ × Call) := makeF ++ [(0, .symlink (some pathF) (some pathL))]

/-- **O_CREATE does not follow a symbolic link**: "/l" leads to the file "/f" without it and cannot be opened with it.
-/
theorem create_symlink : foundType (after makeL) pathF = some T_FILE ∧
    result (after makeL) (sysOpen Ownership.tiny 0 (some pathL) 0) = some (some 0) ∧
    result (after makeL) (sysOpen Ownership.tiny 0 (some pathL) (0 ||| 2 ^ O_CREATE)) = some none := by
  decide +kernel

/-! ## Absolute paths -/

/-- the part of `sys_open` that reads the target of a symbolic link -/
def readTarget (sb : Superblock) (ip : ℕ) : FsM (Option (List UInt8)) := do
  let r ← readi sb ip .kernel 0 MAXPATH
  iunlockput sb ip
  return if (r.getD []).length = 0 then none else some ((r.getD []).takeWhile fun c => c ≠ 0)

theorem openRest_link (h : (s.inode ip).din.type = T_SYMLINK ∧ omode.testBit O_NOFOLLOW = false) :
    openRest sb p omode (left + 1) ip s = (do
      match ← readTarget sb ip with
      | none => return none
      | some target => openLoop sb p omode left target : FsM (Option ℕ)) s := by
  unfold openRest readTarget
  rw [bind_ok (a := s.inode ip) (t := s) rfl, if_pos h, bind_assoc]
  refine congrFun (congrArg (readi sb ip .kernel 0 MAXPATH >>= ·) (funext fun r => ?_)) s
  simp only [bind_assoc, pure_bind]
  refine congrArg (iunlockput sb ip >>= ·) (funext fun _ => ?_)
  by_cases h0 : (r.getD []).length = 0
  · rw [if_pos h0, if_pos h0]
  · rw [if_neg h0, if_neg h0]

/-- the target that `sys_open` goes on with, if it follows a link at the end of the path -/
def linkTarget (sb : Superblock) (p omode : ℕ) (path : List UInt8) : FsM (Option (List UInt8)) := do
  match ← nameiLock sb p path with
  | none => return none
  | some ip =>
    let x ← getInode ip
    if x.din.type = T_SYMLINK ∧ omode.testBit O_NOFOLLOW = false then readTarget sb ip
    else return none

/-- the path, and the targets of the at most `left` links that `sys_open` follows from it, are absolute -/
def absoluteLinks (sb : Superblock) (p omode : ℕ) : ℕ → List UInt8 → St → Bool
  | 0, path, _ => path.head? = some SLASH
  | left + 1, path, s => path.head? = some SLASH &&
      match linkTarget sb p omode path s with
      | .ok (some target, t) => absoluteLinks sb p omode left target t
      | _ => true

theorem absoluteLinks_head (h : absoluteLinks sb p omode left path s = true) :
    path.head? = some SLASH := by
  cases left with
  | zero => exact of_decide_eq_true h
  | succ left => exact of_decide_eq_true (Bool.and_eq_true_iff.1 h).1

theorem absoluteLinks_target {target : List UInt8} (h : absoluteLinks sb p omode (left + 1)
    path s = true)
    (ht : linkTarget sb p omode path s = .ok (some target, t)) : absoluteLinks sb p omode left target t = true := by
  unfold absoluteLinks at h
  rw [ht] at h
  exact (Bool.and_eq_true_iff.1 h).2

/-- an absolute path is looked up from the root, whoever does it -/
theorem nameiLock_absolute (h : path.head? = some SLASH) (p q : ℕ) : nameiLock sb q path = nameiLock sb p path := by
  have hstart : ∀ p, startAt p path = (do let _ ← getProc p; iget ROOTINO) := fun p => by
    unfold startAt
    simp only [if_pos h]
  funext s
  unfold nameiLock namei
  rw [namex_eq, namex_eq, hstart, hstart]
  rfl

/-- as long as the links that are followed have absolute targets, the loop does the same for every process -/
theorem openLoop_absolute (h : absoluteLinks sb p omode left path s = true) (q : ℕ) :
    openLoop sb q omode left path s = openLoop sb p omode left path s := by
  induction left generalizing path s with
  | zero =>
    rw [openLoop_eq, openLoop_eq, nameiLock_absolute (absoluteLinks_head h) p q]
    rfl
  | succ left ih =>
    rw [openLoop_eq, openLoop_eq, nameiLock_absolute (absoluteLinks_head h) p q]
    cases hn : nameiLock sb p path s with
    | error e => rw [bind_error hn, bind_error hn]
    | ok r =>
      obtain ⟨r, t⟩ := r
      rw [bind_ok hn, bind_ok hn]
      cases r with
      | none => rfl
      | some ip =>
        show openRest sb q omode (left + 1) ip t = openRest sb p omode (left + 1) ip t
        by_cases hc : (t.inode ip).din.type = T_SYMLINK ∧ omode.testBit O_NOFOLLOW = false
        · have hlink : linkTarget sb p omode path s = readTarget sb ip t := by
            unfold linkTarget
            rw [bind_ok hn]
            show (do let x ← getInode ip; _) t = _
            rw [bind_ok (a := t.inode ip) (t := t) rfl, if_pos hc]
          rw [openRest_link hc, openRest_link hc]
          cases hr : readTarget sb ip t with
          | error e => rw [bind_error hr, bind_error hr]
          | ok r =>
            obtain ⟨r, u⟩ := r
            rw [bind_ok hr, bind_ok hr]
            cases r with
            | none => rfl
            | some target => exact ih (absoluteLinks_target h (hlink.trans hr))
        · rw [openRest_found fun ht => by simpa [ht] using hc, openRest_found fun ht => by simpa [ht] using hc]

/-- `sys_open` by process q without O_CREATE, on the inode to which the path leads process p -/
def openAs (sb : Superblock) (p q omode : ℕ) (path : List UInt8) : FsM (Option ℕ) := do
  beginOp
  match ← openLoop sb p omode 10 path with
  | none =>
    endOp
    return none
  | some ip => openFound sb q omode ip

/-- **Absolute paths mean the same to every process**, as long as the links that are followed have absolute targets: a
call of process q goes on with the inode that p finds. -/
theorem absolute_agrees {omode : ℕ} (hm : omode.testBit O_CREATE = false)
    (h : absoluteLinks sb p omode 10 path { s with trace := s.trace ++ [.beginOp] } = true) (q : ℕ) :
    sysOpen sb q (some path) omode s = openAs sb p q omode path s := by
  set s0 : St := { s with trace := s.trace ++ [.beginOp] }
  rw [sysOpen_eq]
  unfold openBody openAs
  rw [hm, if_neg Bool.false_ne_true, bind_ok (a := ()) (t := s0) rfl, bind_ok (a := ()) (t := s0) rfl]
  have hloop := openLoop_absolute h q
  cases hr : openLoop sb p omode 10 path s0 with
  | error e => rw [bind_error hr, bind_error (hloop.trans hr)]
  | ok r => rw [bind_ok hr, bind_ok (hloop.trans hr)]

/-- process 1 in the directory "/d", and the links "/l" to "/f" and "/m" to "f" -/
def pathM : List UInt8 := [47, 109]
def makeM : List (ℕ × Call) := makeL ++ [(0, .symlink (some [102]) (some pathM)), (0, .mkdir (some [47, 100])),
    (0, .fork 1),
  (1, .chdir (some [47, 100]))]

example : foundType (after makeM) pathM = some T_SYMLINK := by decide +kernel

theorem absolute_agrees_link : result (after makeM) (sysOpen Ownership.tiny 0 (some pathL) 0) = some (some 0) ∧
    sysOpen Ownership.tiny 1 (some pathL) 0 (after makeM) = openAs Ownership.tiny 0 1 0 pathL (after makeM) :=
  ⟨by decide +kernel, absolute_agrees (by decide) (by decide +kernel) 1⟩

/-- **A relative target is looked up from the caller's directory**: "/m" leads process 0, in "/", to "/f" and process 1,
in "/d", nowhere. -/
theorem relative_target : result (after makeM) (sysOpen Ownership.tiny 0 (some pathM) 0) = some (some 0) ∧
    result (after makeM) (sysOpen Ownership.tiny 1 (some pathM) 0) = some none := by
  decide +kernel

end Xv6.Fs
