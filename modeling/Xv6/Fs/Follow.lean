/-
Symbolic links (kernel/sysfile.c, the loop of `sys_open`).

`Chain`: what the links at the end of a path mean, in terms of lookups and the contents of the links. Lookups return
when no inode is locked: they fail only if the inode table is full or an entry names a free inode (`namex_returns`).

- `open_follows`: `open` returns -1 if no chain of at most 10 links leads to a file; and no descriptor that is opened
  without O_NOFOLLOW refers to a symbolic link.
-/
import Xv6.Fs.Modes
import Xv6.Fs.Lookup
import Xv6.Fs.Spends

namespace Xv6.Fs

open Xv6.Core

variable {sb : Superblock} {p i j k ip left omode : ℕ} {s t u v w : St} {F : ℕ → ℕ} {P : Prop}
  {E : Panic → Prop} {n m : Node} {T : Tree} {name path target : List UInt8}

/-! ## Chains of links -/

section
variable (look : List UInt8 → Option ℕ) (T : Tree)

/-- the path leads through k symbolic links to inode i, which is none -/
inductive Chain : ℕ → List UInt8 → ℕ → Prop
  | here {path : List UInt8} {i : ℕ} {n : Node} (hlook : look path = some i) (hn : T i = some n)
      (hty : n.type ≠ T_SYMLINK) : Chain 0 path i
  | link {path : List UInt8} {i j k : ℕ} {n : Node} (hlook : look path = some j) (hn : T j = some n)
      (hty : n.type = T_SYMLINK) (hrest : Chain k n.bytes i) : Chain (k + 1) path i

variable {look T}

theorem Chain.look_ne_none (h : Chain look T k path i) : look path ≠ none := by
  cases h with
  | here hlook _ _ => rw [hlook]; nofun
  | link hlook _ _ _ => rw [hlook]; nofun

theorem Chain.of_file (h : Chain look T k path i) (hlook : look path = some j) (hn : T j = some n)
    (hty : n.type ≠ T_SYMLINK) : i = j := by
  cases h with
  | here hlook' _ _ => exact Option.some.inj (hlook'.symm.trans hlook)
  | link hlook' hn' hty' _ =>
    cases hlook'.symm.trans hlook
    cases hn'.symm.trans hn
    exact absurd hty' hty

theorem Chain.of_link (h : Chain look T k path i) (hlook : look path = some j) (hn : T j = some n)
    (hty : n.type = T_SYMLINK) : ∃ l, k = l + 1 ∧ Chain look T l n.bytes i := by
  cases h with
  | here hlook' hn' hty' =>
    cases hlook'.symm.trans hlook
    cases hn'.symm.trans hn
    exact absurd hty hty'
  | link hlook' hn' _ hrest =>
    cases hlook'.symm.trans hlook
    cases hn'.symm.trans hn
    exact ⟨_, rfl, hrest⟩

/-- all chains from a path end at the same inode -/
theorem Chain.unique (h : Chain look T k path i) {l : ℕ} (h' : Chain look T l path j) : i = j := by
  induction h generalizing l with
  | here hlook hn hty => exact (h'.of_file hlook hn hty).symm
  | link hlook hn hty _ ih =>
    obtain ⟨_, -, hrest⟩ := h'.of_link hlook hn hty
    exact ih hrest

end

/-- the contents of symbolic links are those that `sys_symlink` writes -/
def Targets (T : Tree) : Prop :=
  ∀ i n, T i = some n → n.type = T_SYMLINK → n.bytes ≠ [] ∧ n.bytes.length < MAXPATH ∧ (0 : UInt8) ∉ n.bytes

/-- the inode to which a path leads process p -/
def St.look (sb : Superblock) (s : St) (p : ℕ) (path : List UInt8) : Option ℕ := (s.walk sb p path false).map Prod.fst

/-! ## The loop -/

/-- a state between calls, in which process p looks up paths -/
structure AtRest (sb : Superblock) (s : St) (p : ℕ) : Prop where
  wf : WF sb s
  calm : Calm sb s
  cwd : Cwd s p
  unlocked : s.Unlocked

/-- why a lookup can fail -/
def Stuck (sb : Superblock) (s : St) (e : Panic) : Prop :=
  e = .igetNoInodes ∧ ¬ Room s.refs ∨ e = .ilockNoType ∧ ¬ Safe sb s

/-- nothing has changed since, and the locks are those of before -/
structure Back (sb : Superblock) (s t : St) : Prop extends Same sb s t where
  locks : t.locks = s.locks

theorem AtRest.back (h : AtRest sb s p) (hb : Back sb s t) : AtRest sb t p :=
  ⟨hb.quiet.wf, (hb.calm h.calm).1, h.cwd.same hb.toSame, h.unlocked.congr hb.locks⟩

theorem AtRest.look_back (h : AtRest sb s p) (hb : Back sb s t) (path : List UInt8) :
    t.look sb p path = s.look sb p path := by
  unfold St.look St.walk
  rw [(hb.calm h.calm).2, startInum_tab hb.quiet.tab h.cwd]

theorem Stuck.back (hb : Back sb s t) {e : Panic} (he : Stuck sb t e) : Stuck sb s e := by
  unfold Stuck at he ⊢
  rw [hb.refs] at he
  exact he.imp_right fun ⟨h1, h2⟩ => ⟨h1, fun hs => h2 (hs.same hb.toSame)⟩

theorem namex_returns (hl : Layout sb) (h : AtRest sb s p) (path : List UInt8) (parent : Bool) :
    Spec (namex sb p path parent) s (fun r t => NamexPost sb s.refs parent (startInum s p path)
      (s.walk sb p path parent) s r t ∧
      Kept s t) (Stuck sb s) := by
  have hE : Spec (namex sb p path parent) s (fun _ t => Looks s t) (Stuck sb s) :=
    namex_looks hl h.wf h.cwd h.calm.held (fun hc => .inl ⟨rfl, hc⟩)
      (fun hc => .inr ⟨rfl, fun hs => hc (hs.lookup h.cwd path)⟩) (fun hc => absurd h.unlocked hc) parent
  refine ((hE.and (namex_spec hl h.wf h.cwd (P := True) fun _ => trivial)).and (kept_namex p path parent s)).post ?_
  rintro r t ⟨⟨-, h1⟩, h2⟩
  exact ⟨h1, h2⟩

/-- the inode that was found is locked -/
structure Holds (sb : Superblock) (p : ℕ) (path : List UInt8) (ip i : ℕ) (n : Node) (s t : St) : Prop
    extends Found sb ip i n s t where
  lock : Locked s t ip 0
  look : s.look sb p path = some i

theorem nameiLock_spec (hl : Layout sb) (h : AtRest sb s p) (path : List UInt8) :
    Spec (nameiLock sb p path) s (fun r t => match r with
      | none => Back sb s t ∧ s.look sb p path = none
      | some ip => ∃ i n, Holds sb p path ip i n s t) (Stuck sb s) := by
  unfold nameiLock namei
  rw [bind_assoc]
  refine Spec.bind (namex_returns hl h path false) ?_
  rintro r t ⟨⟨hq, hr⟩, hk⟩
  cases r with
  | none => exact Spec.pure ⟨⟨⟨hq, hr.1⟩, hk.locks⟩, by rw [St.look, hr.2 h.calm.held]; rfl⟩
  | some x =>
    obtain ⟨i, hp, hr, -, hw, hs⟩ := hr
    show Spec (do ilock sb x.1; return some x.1) t _ _
    have hT : t.node sb i = none → Stuck sb s .ilockNoType := fun h0 => Or.inr ⟨rfl, fun hsafe => by
      obtain ⟨h1, h2⟩ := hsafe.lookup h.cwd path
      exact hs h1 h2 (by rw [← h1.node hq]; exact h0)⟩
    have hD : (t.inode x.1).locked = true → Stuck sb s .deadlock := fun h0 => by
      have := h.unlocked.congr hk.locks x.1 hp.1
      rw [St.locks, h0] at this; cases this
    refine Spec.bind ((ilock_loaded hq.wf hp hT hD).and bal_ilock) ?_
    · rintro _ u ⟨hu, hlock⟩
      have hle := pos_refs hr
      have hf := Found.of (hq.trans (hu.quiet.mono hle)) (hu.refs.trans hr)
        ⟨hu.ptr, hu.valid, hu.quiet.wf.node_ptr hu.ptr hu.valid⟩
      refine Spec.pure ⟨i, _, hf, ⟨?_, ?_⟩, by rw [St.look, hw h.calm.held]; rfl⟩
      · rw [← hk.locks]; exact hlock.free
      · have := hk.then hlock.bal
        rwa [hk.locks] at this

theorem Holds.put (hl : Layout sb) (h : AtRest sb s p) (hf : Holds sb p path ip i n s t) :
    Spec (iunlockput sb ip) t (fun _ u => Back sb s u) E := by
  have hheld : t.locks ip = true := by rw [hf.lock.bal.locks, Function.update_self]
  refine (keeps_iunlockput hl hf.quiet.wf hf.live.ptr hf.live.valid hf.refs (h.calm.held.quiet hf.quiet)
    fun h0 => ?_).post ?_
  · rw [St.locks, h0] at hheld; cases hheld
  rintro _ u ⟨-, hu, hunlock⟩
  exact ⟨hf.toFound.drop hu, (hf.lock.unlocked hunlock).locks⟩

theorem readTarget_spec (hl : Layout sb) (h : AtRest sb s p) (hT : Targets (s.node sb))
    (hf : Holds sb p path ip i n s t)
    (hty : n.type = T_SYMLINK) : Spec (readTarget sb ip) t (fun r u => Back sb s u ∧ r = some n.bytes) E := by
  obtain ⟨hne, hlen, hnul⟩ := hT i n hf.node hty
  unfold readTarget
  refine Spec.bind ((readi_node hf.quiet.wf hf.live (by decide)).and
    (within_readi (ρ := Kept) (E := FsPanic) .kernel 0 MAXPATH t)) ?_
  rintro r u ⟨⟨hu, rfl⟩, hk⟩
  replace hu := hu.to
  have hfu : Holds sb p path ip i n s u :=
    ⟨Found.of (hf.quiet.trans (Quiet.of_to hf.quiet.wf hu _)) ((refs_to hu).trans hf.refs) (hf.live.congr hu),
      hf.lock.then hk, hf.look⟩
  refine Spec.bind (hfu.put hl h) fun _ v hv => Spec.pure ⟨hv, ?_⟩
  have hall : ∀ c ∈ n.bytes, decide (c ≠ 0) = true := fun c hc => decide_eq_true (ne_of_mem_of_not_mem hc hnul)
  rw [List.drop_zero, List.take_of_length_le hlen.le, Option.getD_some, if_neg (by simpa using hne),
    List.takeWhile_eq_self_iff.2 hall]

/-- **The loop follows chains**: it selects the inode at the end of the chain, if there is one of at most `left` links.
-/
theorem openLoop_chain (hl : Layout sb) (h : AtRest sb s p) (hT : Targets (s.node sb))
    (hn : omode.testBit O_NOFOLLOW = false) (left : ℕ) (path : List UInt8) :
    Spec (openLoop sb p omode left path) s (fun r t => match r with
      | none => Back sb s t ∧ ∀ k i, k ≤ left → ¬ Chain (s.look sb p) (s.node sb) k path i
      | some ip => ∃ i n, Found sb ip i n s t ∧ n.type ≠ T_SYMLINK ∧ ∃ k, k ≤ left ∧ Chain (s.look sb p)
          (s.node sb) k path i)
      (Stuck sb s) := by
  induction left using Nat.strong_induction_on generalizing s path with
  | _ left ih =>
    rw [openLoop_eq]
    refine Spec.bind (nameiLock_spec hl h path) fun r t ht => ?_
    cases r with
    | none => exact Spec.pure ⟨ht.1, fun k i _ hc => hc.look_ne_none ht.2⟩
    | some ip =>
      obtain ⟨i, n, hf⟩ := ht
      have htype := (hf.live.din hf.quiet.wf).1
      by_cases hty : n.type = T_SYMLINK
      · cases left with
        | zero =>
          refine Spec.bind_ok rfl ?_
          rw [if_pos ⟨htype.trans hty, hn⟩]
          refine Spec.bind (hf.put hl h) fun _ u hu => Spec.pure ⟨hu, fun k j hk hc => ?_⟩
          obtain ⟨l, rfl, -⟩ := hc.of_link hf.look hf.node hty
          omega
        | succ left =>
          refine Spec.congr (openRest_link ⟨htype.trans hty, hn⟩) (Spec.bind (readTarget_spec hl h hT hf hty) ?_)
          rintro r u ⟨hu, rfl⟩
          have hnode := (hu.calm h.calm).2
          have hlook : u.look sb p = s.look sb p := funext (h.look_back hu)
          refine (ih left (Nat.lt_succ_self left) (h.back hu) (hnode ▸ hT) n.bytes).mono ?_ fun e he => he.back hu
          rw [hnode, hlook]
          intro r v hv
          cases r with
          | none =>
            refine ⟨⟨hu.toSame.trans hv.1.toSame, hv.1.locks.trans hu.locks⟩, fun k j hk hc => ?_⟩
            obtain ⟨l, rfl, hrest⟩ := hc.of_link hf.look hf.node hty
            exact hv.2 l j (Nat.le_of_succ_le_succ hk) hrest
          | some ip' =>
            obtain ⟨j, m, hv, hm, k, hk, hc⟩ := hv
            exact ⟨j, m, hv.after hu.toSame, hm, k + 1, Nat.succ_le_succ hk, .link hf.look hf.node hty hc⟩
      · refine Spec.of_ok (openRest_found fun hc => absurd (htype.symm.trans hc) hty) ?_
        exact ⟨i, n, hf.toFound, hty, 0, Nat.zero_le _, .here hf.look hf.node hty⟩

/-! ## The counter -/

/-- the loop as the source has it, with its counter; none if it has not ended after `fuel` lookups -/
def openWhile (sb : Superblock) (p omode : ℕ) : ℕ → ℕ → List UInt8 → FsM (Option (Option ℕ))
  | 0, _, _ => return none
  | fuel + 1, depth, path => do
    match ← namei sb p path with
    | none => return some none
    | some ip =>
      ilock sb ip
      let x ← getInode ip
      if x.din.type = T_SYMLINK ∧ omode.testBit O_NOFOLLOW = false then
        if depth ≥ 10 then do
          iunlockput sb ip
          return some none
        else do
          let r ← readi sb ip .kernel 0 MAXPATH
          if (r.getD []).length = 0 then do
            iunlockput sb ip
            return some none
          else do
            iunlockput sb ip
            openWhile sb p omode fuel (depth + 1) ((r.getD []).takeWhile fun c => c ≠ 0)
      else return some (some ip)

/-- the loop ends after at most 11 lookups -/
theorem openWhile_eq {depth : ℕ} (h : depth + left = 10) (path : List UInt8) :
    openWhile sb p omode (left + 1) depth path = (do return some (← openLoop sb p omode left path)) := by
  induction left using Nat.strong_induction_on generalizing depth path with
  | _ left ih =>
    unfold openWhile openLoop
    simp only [bind_assoc]
    refine congrArg (namei sb p path >>= ·) (funext fun r => ?_)
    cases r with
    | none => rfl
    | some ip =>
      simp only [bind_assoc]
      refine congrArg (ilock sb ip >>= ·) (funext fun _ => congrArg (getInode ip >>= ·) (funext fun x => ?_))
      cases left with
      | zero =>
        split_ifs with hc hd
        · simp only [bind_assoc, pure_bind]
        · omega
        · rfl
      | succ left =>
        split_ifs with hc hd
        · omega
        · simp only [bind_assoc]
          refine congrArg (readi sb ip .kernel 0 MAXPATH >>= ·) (funext fun r => ?_)
          split_ifs with h0
          · simp only [pure_bind]
          · exact congrArg (iunlockput sb ip >>= ·) (funext fun _ => ih left (Nat.lt_succ_self left) (by omega) _)
        · rfl

/-! ## The descriptor -/

/-- a process with one more descriptor -/
def Proc.opened (x : Proc) (fd f : ℕ) : Proc := { x with ofile := Function.update x.ofile fd (some f) }

theorem fdalloc_opened {f : ℕ} : Spec (fdalloc p f) s (fun r t => match r with
    | none => t = s
    | some fd => t = { s with proc := s.proc.set p ((s.proc p).opened fd f) }) E := by
  unfold fdalloc
  refine Spec.bind_ok rfl ?_
  split
  · exact Spec.pure rfl
  · exact Spec.of_ok rfl rfl

/-- descriptor fd of process p refers to an inode of the type -/
def Refers (sb : Superblock) (t : St) (p fd : ℕ) (type : UInt16) : Prop :=
  ∃ f n, (t.proc p).ofile fd = some f ∧ t.node sb (t.inode (t.file f).ip).inum = some n ∧ n.type = type

theorem spec_any {α : Type} {m : FsM α} : Spec m s (fun _ _ => True) fun _ => True := by
  unfold Spec
  split <;> trivial

theorem openFail_none : Spec (openFail sb ip) s (fun r _ => r = none) fun _ => True :=
  Spec.bind spec_any fun _ _ _ => Spec.bind_ok rfl (Spec.pure rfl)

/-- the end of `sys_open`: the file and the descriptor are set, and the inode is locked -/
theorem openEnd_refers {fd f : ℕ} {x : File} (hl : Layout sb) (h : WF sb t) (hlive : Live sb t ip j m) (hip : x.ip = ip)
    {c : Prop} [Decidable c] :
    Spec (do
      if c then itrunc sb ip
      iunlock ip
      endOp
      return some fd) { t with file := t.file.set f x, proc := t.proc.set p ((t.proc p).opened fd f) }
      (fun r u => ∀ fd, r = some fd → Refers sb u p fd m.type) fun _ => True := by
  set t1 : St := { t with file := t.file.set f x, proc := t.proc.set p ((t.proc p).opened fd f) }
  have hlive1 : Live sb t1 ip j m := ⟨hlive.ptr, hlive.valid, hlive.node⟩
  have hwf1 : WF sb t1 := h.of_eq rfl rfl
  have hend : ∀ (u : St) (m' : Node), m'.type = m.type → WF sb u → Live sb u ip j m' → u.file = t1.file →
    u.proc = t1.proc →
      Spec (do iunlock ip; endOp; return some fd) u (fun r u => ∀ fd, r = some fd → Refers sb u p fd m.type)
        fun _ => True := by
    intro u m' hm' hu hlu hfile hproc
    refine Spec.bind (iunlock_loaded hu hlu.ptr hlu.valid fun _ => trivial) fun _ v hv => Spec.bind_ok rfl
      (Spec.pure ?_)
    rintro _ ⟨⟩
    have hlv := hlu.quiet hv.quiet hlu.ptr.2.1 (by rw [hv.refs]; exact hlu.ptr.2.1)
    have hvf : v.file f = x := by rw [hv.quiet.tab.file, hfile]; exact Store.set_self ..
    have hvp : v.proc p = (t.proc p).opened fd f := by rw [hv.quiet.tab.proc, hproc]; exact Store.set_self ..
    refine ⟨f, m', ?_, ?_, hm'⟩
    · show (v.proc p).ofile fd = some f
      rw [hvp]
      exact Function.update_self ..
    · show v.node sb (v.inode (v.file f).ip).inum = some m'
      rw [hvf, hip, hlv.ptr.2.2]
      exact hlv.node
  refine Spec.ite (fun _ => Spec.bind (itrunc_live hl hwf1 hlive1) fun _ u hu => ?_) fun _ =>
    hend t1 m rfl hwf1 hlive1 rfl rfl
  exact hend u { m with bytes := [] } rfl hu.wf (hu.live hlive1) hu.tab.file hu.tab.proc

theorem openFinish_refers (hl : Layout sb) (h : WF sb t) (hlive : Live sb t ip j m) :
    Spec (openFinish sb p omode ip) t (fun r u => ∀ fd, r = some fd → Refers sb u p fd m.type) fun _ => True := by
  have hfail : ∀ t, Spec (openFail sb ip) t (fun r u => ∀ fd, r = some fd → Refers sb u p fd m.type) fun _ => True :=
    fun t => openFail_none.post fun _ _ h0 fd hr => by rw [h0] at hr; cases hr
  unfold openFinish
  refine Spec.bind_ok rfl (Spec.ite (fun _ => hfail t) fun _ => Spec.bind filealloc_spec fun r u hu => ?_)
  cases r with
  | none => exact hfail u
  | some f =>
    obtain ⟨-, -, rfl⟩ := hu
    refine Spec.bind fdalloc_opened fun r v hv => ?_
    cases r with
    | none => exact Spec.bind spec_any fun _ w _ => hfail w
    | some fd =>
      subst hv
      refine Spec.bind_ok rfl (Spec.bind_ok rfl ?_)
      simp only [Store.set_self, Store.set_set]
      exact openEnd_refers hl h hlive rfl

theorem AtRest.to (h : AtRest sb s p) (hto : To s t s.blk s.inode) : AtRest sb t p :=
  ⟨h.wf.congr hto, h.calm.to h.wf hto, h.cwd.to hto, h.unlocked.congr (by unfold St.locks; rw [hto.inode])⟩

/-- **Symbolic links are followed** along chains of at most 10 links: the loop ends after at most 11 lookups and selects
the inode at the end of the chain; if there is none, `open` returns -1. A descriptor that is opened without O_NOFOLLOW
refers to no symbolic link. -/
theorem open_follows (hl : Layout sb) (h : AtRest sb s p) (hT : Targets (s.node sb))
    (hc : omode.testBit O_CREATE = false)
    (hn : omode.testBit O_NOFOLLOW = false) (path : List UInt8) :
    openWhile sb p omode 11 0 path = (do return some (← openLoop sb p omode 10 path)) ∧
    Spec (do beginOp; openLoop sb p omode 10 path) s (fun r t => ∀ i, (∃ ip, r = some ip ∧ Ptr t ip i) ↔
      ∃ k, k ≤ 10 ∧ Chain (s.look sb p) (s.node sb) k path i) (Stuck sb s) ∧
    ((∀ k i, k ≤ 10 → ¬ Chain (s.look sb p) (s.node sb) k path i) →
      Spec (sysOpen sb p (some path) omode) s (fun r _ => r = none) (Stuck sb s)) ∧
    ∀ m fd t, m.testBit O_NOFOLLOW = false → sysOpen sb p (some path) m s = .ok (some fd, t) →
      ∃ type, type ≠ T_SYMLINK ∧ Refers sb t p fd type := by
  have hto := to_event s .beginOp
  set s0 : St := { s with trace := s.trace ++ [.beginOp] }
  have h0 := h.to hto
  have hback : Back sb s s0 := ⟨Same.of_to h.wf hto, rfl⟩
  have hnode : s0.node sb = s.node sb := node_congr sb hto.blk
  have hlook : s0.look sb p = s.look sb p := funext (h.look_back hback)
  have hloop : ∀ m, m.testBit O_NOFOLLOW = false → Spec (openLoop sb p m 10 path) s0 _ (Stuck sb s) := fun m hm =>
    (openLoop_chain hl h0 (hnode ▸ hT) hm 10 path).mono (fun _ _ hr => hr) fun e he => he.back hback
  rw [hnode, hlook] at hloop
  refine ⟨openWhile_eq rfl path, ?_, ?_, ?_⟩
  · refine Spec.bind_ok rfl ((hloop omode hn).post fun r t ht i => ?_)
    cases r with
    | none =>
      refine ⟨?_, fun ⟨k, hk, hch⟩ => absurd hch (ht.2 k i hk)⟩
      rintro ⟨ip, hr, -⟩
      cases hr
    | some ip =>
      obtain ⟨j, n, hf, hty, k, hk, hch⟩ := ht
      refine ⟨?_, ?_⟩
      · rintro ⟨ip', ⟨⟩, hp⟩
        have hij : j = i := hf.live.ptr.2.2.symm.trans hp.2.2
        exact ⟨k, hk, hij ▸ hch⟩
      · rintro ⟨k', hk', hch'⟩
        exact ⟨ip, rfl, hch.unique hch' ▸ hf.live.ptr⟩
  · intro hno
    rw [sysOpen_eq]
    unfold openBody
    rw [hc, if_neg Bool.false_ne_true]
    refine Spec.bind_ok rfl (Spec.bind (hloop omode hn) fun r t ht => ?_)
    cases r with
    | none => exact Spec.bind_ok rfl (Spec.pure rfl)
    | some ip =>
      obtain ⟨j, n, -, -, k, hk, hch⟩ := ht
      exact absurd hch (hno k j hk)
  · intro m fd t hm hok
    have hspec : Spec (sysOpen sb p (some path) m) s (fun r u => ∀ fd, r = some fd →
        ∃ type, type ≠ T_SYMLINK ∧ Refers sb u p fd type) fun _ => True := by
      rw [sysOpen_eq]
      unfold openBody
      refine Spec.bind_ok rfl (Spec.ite (fun _ => ?_) fun _ => ?_)
      · refine Spec.bind ((create_mid hl h0.wf h0.cwd (P := True) (fun _ => trivial) (by decide)).mono
          (fun _ _ hr => hr)
          fun _ _ => trivial) fun r u hu => ?_
        cases r with
        | none => exact Spec.bind_ok rfl (Spec.pure nofun)
        | some ip =>
          obtain ⟨hmid, j, n, hlive, hty⟩ := hu
          refine (openFinish_refers hl hmid.wf hlive).post fun _ v hv fd hr => ⟨n.type, ?_, hv fd hr⟩
          rcases hty with hty | ⟨-, hty⟩ <;> rw [hty] <;> decide
      · refine Spec.bind ((hloop m hm).mono (fun _ _ hr => hr) fun _ _ => trivial) fun r u hu => ?_
        cases r with
        | none => exact Spec.bind_ok rfl (Spec.pure nofun)
        | some ip =>
          obtain ⟨j, n, hf, hty, -⟩ := hu
          refine Spec.bind_ok rfl (Spec.ite (fun _ => ?_) fun _ => ?_)
          · exact openFail_none.post fun _ _ h0 fd hr => by rw [h0] at hr; cases hr
          · exact (openFinish_refers hl hf.quiet.wf hf.live).post fun _ v hv fd hr => ⟨n.type, hty, hv fd hr⟩
    exact hspec.ok hok fd rfl

theorem Idle.atRest (h : Idle sb s) (hu : s.Unlocked) (hp : (s.proc p).cwd ≠ none) : AtRest sb s p :=
  ⟨h.wf, h.calm, h.acct.has_cwd h.wf hp, hu⟩

/-- "/l" is a link to "/f", and every link has a content that can be followed -/
def linked (s : St) : Bool :=
  ((List.range Ownership.tiny.ninodes).all fun i => (s.node Ownership.tiny i).all fun n =>
    n.type = T_SYMLINK → n.bytes ≠ [] ∧ n.bytes.length < MAXPATH ∧ (0 : UInt8) ∉ n.bytes) &&
  ((s.look Ownership.tiny 0 pathL).any fun i => (s.node Ownership.tiny i).any fun n => n.type = T_SYMLINK ∧
    n.bytes = pathF) &&
  ((s.look Ownership.tiny 0 pathF).any fun i => (s.node Ownership.tiny i).any fun n => n.type ≠ T_SYMLINK) &&
  decide ((s.proc 0).cwd ≠ none)

example : linked (after makeL) = true := by decide +kernel

theorem open_follows_link : ∃ s i, AtRest Ownership.tiny s 0 ∧ Targets (s.node Ownership.tiny) ∧
    Chain (s.look Ownership.tiny 0) (s.node Ownership.tiny) 1 pathL i ∧
    Spec (do beginOp; openLoop Ownership.tiny 0 0 10 pathL) s (fun r t => ∃ ip, r = some ip ∧ Ptr t ip i)
      (Stuck Ownership.tiny s) := by
  obtain ⟨s, hlegal, hr, hs⟩ := Machine.exists_run_of_steps (s := boot) (l := makeL) (p := linked)
    (M := (calls Ownership.tiny).restrict fun s a => a.2.wraps Ownership.tiny s a.1 = false) (by decide +kernel)
  have hreach : ((calls Ownership.tiny).restrict fun s a => a.2.wraps Ownership.tiny s a.1 = false).Reach boot s :=
    ⟨_, hlegal, hr⟩
  have hidle := boot_idle.reach Ownership.tiny_layout hreach
  unfold linked at hs
  simp only [Bool.and_eq_true, List.all_eq_true, List.mem_range, Option.all_eq_true, Option.any_eq_true,
    decide_eq_true_eq] at hs
  obtain ⟨⟨⟨htargets, j, hj, n, hn, hty, hbytes⟩, i, hi, m, hm, hmty⟩, hcwd⟩ := hs
  have hT : Targets (s.node Ownership.tiny) := fun i n hn => htargets i (hidle.sound.lt i n hn) n hn
  have hrest : AtRest Ownership.tiny s 0 := hidle.atRest (reach_unlocked hreach.of_restrict (by decide +kernel)) hcwd
  have hch : Chain (s.look Ownership.tiny 0) (s.node Ownership.tiny) 1 pathL i :=
    .link hj hn hty (hbytes ▸ .here hi hm hmty)
  refine ⟨s, i, hrest, hT, hch, ?_⟩
  exact (open_follows Ownership.tiny_layout hrest hT (by decide) (by decide) pathL).2.1.post fun r t ht =>
    (ht i).2 ⟨1, by decide, hch⟩

end Xv6.Fs
