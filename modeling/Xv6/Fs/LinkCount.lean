/-
Link counts as the kernel compares them.

The link count of an inode is a short: `sys_link` adds one to it without a check, and `sys_unlink` panics when it is
less than one. A file with 32767 names is given one more (`nlink_negative`): its count is then negative, and removing a
name panics. The count of a directory that is removed while somebody uses it is zero, although its own "." names it.

- `nlink_positive`: as long as no call makes a link to a file that has 32767, or removes a directory that is in use, the
  count of what is named is positive.
-/
import Xv6.Fs.Crowd
import Xv6.Fs.Panics

namespace Xv6.Fs

open Xv6.Core

variable {sb : Superblock} {s t : St} {a : ℕ × Call} {p N i j k x : ℕ} {n m : Node} {T T' : Tree} {ok : Change → Prop}
  {name path : List UInt8}

/-- the call makes a link to an inode that has 32767 -/
def Call.overflows (sb : Superblock) (s : St) (p : ℕ) : Call → Bool
  | .link (some old) (some _) => (s.walk sb p old false).any fun x => (s.node sb x.1).any fun m => m.nlink = 32767
  | _ => false

/-- the call removes a directory that somebody uses -/
def Call.evicts (sb : Superblock) (s : St) (p : ℕ) (c : Call) : Bool :=
  (c.removes sb s p).any fun x => (s.find x.2).isSome

/-- every directory is named, except for the root -/
def Tree.Named (N : ℕ) (T : Tree) : Prop := ∀ d, T.isDir d = true → 0 < T.naming N d ∨ d = ROOTINO

/-- no link count is negative -/
def Tree.Counted (T : Tree) : Prop := ∀ i n, T i = some n → n.nlink.toNat ≤ 32767

theorem toInt16_pos {c : UInt16} (h1 : 1 ≤ c.toNat) (h2 : c.toNat ≤ 32767) : 1 ≤ c.toInt16 := by
  have h : c.toInt16.toInt = c.toNat := by
    show c.toBitVec.toInt = c.toBitVec.toNat
    exact BitVec.toInt_eq_toNat_of_lt (by show 2 * c.toNat < 2 ^ 16; omega)
  rw [Int16.le_iff_toInt_le, h]
  exact Int.ofNat_le.2 h1

theorem Sound.linked (hs : Sound N T) (hc : T.Counted) (hj : j ∈ T.kids i) :
    ∃ n, T j = some n ∧ 1 ≤ n.nlink.toInt16 := by
  obtain ⟨n, hn⟩ := Option.ne_none_iff_exists'.1 (hs.named i j hj)
  refine ⟨n, hn, toInt16_pos ?_ (hc j n hn)⟩
  have hpos := naming_pos (hs.mem_lt hj) hj
  by_cases hd : n.type = T_DIR
  · have := hs.dir j n hn hd; omega
  · have := hs.file j n hn hd; omega

theorem isDir_of_kid (hj : j ∈ T.kids i) : ∃ n, T i = some n ∧ n.type = T_DIR := by
  cases hi : T i with
  | none => rw [kids_none hi] at hj; cases hj
  | some n =>
    refine ⟨n, rfl, ?_⟩
    by_contra hd
    rw [kids_of hi, kids_file hd] at hj; cases hj

/-- what an entry names is in use and has links, "." and ".." included -/
theorem Sound.entry_linked (hs : Sound N T) (hc : T.Counted) (hn : T.Named N) (hi : T i = some n) (hd : n.type = T_DIR)
    {e : Dirent} (he : e ∈ entries n.bytes) (h0 : e.inum ≠ 0) : ∃ q, T e.inum = some q ∧ 1 ≤ q.nlink.toInt16 := by
  obtain ⟨k, hk, rfl⟩ := mem_entries.1 he
  have hdots := hs.dots i n hi hd
  have hcount := hs.dir i n hi hd
  have hself : 1 ≤ n.nlink.toInt16 := by
    refine toInt16_pos ?_ (hc i n hi)
    rcases hn i (isDir_iff.2 ⟨n, hi, hd⟩) with hpos | hr
    · omega
    · rw [if_pos hr] at hcount; omega
  rcases (by omega : k = 0 ∨ k = 1 ∨ 2 ≤ k) with rfl | rfl | h2
  · exact ⟨n, by rw [hdots.self, hi], hself⟩
  · rcases hn i (isDir_iff.2 ⟨n, hi, hd⟩) with hpos | rfl
    · -- the directory that i is in
      obtain ⟨d, -, hmem⟩ := exists_of_naming_pos hpos
      rw [hs.up d i n hmem hi hd]
      obtain ⟨q, hq, hqd⟩ := isDir_of_kid hmem
      refine ⟨q, hq, toInt16_pos ?_ (hc d q hq)⟩
      have hin := inside_pos hmem (isDir_iff.2 ⟨n, hi, hd⟩)
      have := hs.dir d q hq hqd
      omega
    · obtain ⟨r, hr, -, hru⟩ := hs.root
      rw [hr] at hi
      cases hi
      exact ⟨n, by rw [hru, hr], hself⟩
  · refine hs.linked hc (i := i) ?_
    rw [kids_of hi, Node.kids, if_pos hd]
    exact List.mem_map.2 ⟨_, List.mem_filter.2 ⟨he, hdots.rest k h2 hk h0⟩, rfl⟩

/-! ## Steps -/

theorem minors_named (h : Relation.ReflTransGen (Minor ok) T T') (hs : Sound N T)
    (hx : T.isDir x = true → 0 < T.naming N x ∨ x = ROOTINO) : T'.isDir x = true → 0 < T'.naming N x ∨ x = ROOTINO := by
  suffices Sound N T' ∧ (T'.isDir x = true → 0 < T'.naming N x ∨ x = ROOTINO) from this.2
  induction h with
  | refl => exact ⟨hs, hx⟩
  | tail _ hm ih =>
    refine ⟨ih.1.minor hm, fun hd => ?_⟩
    cases hm with
    | write hj hm l _ =>
      rw [isDir_write hj] at hd
      rw [Tree.naming, kids_write hj hm l]
      exact ih.2 hd
    | @free j m hj h0 =>
      obtain ⟨n, hn, hnd⟩ := isDir_iff.1 hd
      have hxj : x ≠ j := by
        rintro rfl
        rw [Function.update_self] at hn; cases hn
      rw [Function.update_of_ne hxj] at hn
      have hd' := isDir_iff.2 ⟨n, hn, hnd⟩
      rw [ih.1.naming_free_dir hj h0 hd']
      exact ih.2 hd'

/-- a call that removes no directory that is in use -/
theorem Idle.named (hl : Layout sb) (h : Idle sb s) (hn : Tree.Named sb.ninodes (s.node sb)) (ha : (calls sb).legal s a)
    (hw : a.2.wraps sb s a.1 = false) (he : a.2.evicts sb s a.1 = false) (hs : (calls sb).step s a = .ok t) :
    Tree.Named sb.ninodes (t.node sb) := by
  obtain ⟨-, T1, h1, h2⟩ := h.step hl ha hw hs
  intro d hd
  have hlt {i n} : s.node sb i = some n → i < sb.ninodes := h.sound.lt i n
  rcases h1 with rfl | h1
  · exact minors_named h2 h.sound (hn d) hd
  cases h1 with
  | @create type name i j k n T1 hc _ =>
    refine minors_named h2 (h.sound.create hc rfl (h.wf.node_size hc.dir)) (fun hd => ?_) hd
    rw [(hc.adds h.sound rfl).naming (hlt hc.dir)]
    by_cases hdj : d = j
    · exact Or.inl (by rw [if_pos hdj.symm]; omega)
    · rw [hc.isDir_eq hdj] at hd
      exact (hn d hd).imp_left fun hpos => by omega
  | @link name i j k n m T1 hc hok =>
    refine minors_named h2 (h.sound.link hc (hok.no_wrap hw hc.file)) (fun hd => ?_) hd
    rw [hc.isDir_eq] at hd
    rw [(hc.adds h.sound).naming (hlt hc.dir)]
    exact (hn d hd).imp_left fun hpos => by omega
  | @unlink name i j k n m T1 hc hok =>
    refine minors_named h2 (h.sound.unlink hc) (fun hd1 => ?_) hd
    have hdir := hd1
    rw [hc.isDir_eq] at hdir
    have hnaming := (hc.adds h.sound).naming (x := d) (hlt hc.dir)
    by_cases hdj : d = j
    · -- what the call removes has gone, as nobody uses it
      subst hdj
      obtain ⟨m', hm', hm⟩ := isDir_iff.1 hdir
      rw [hc.node] at hm'
      cases hm'
      rw [Call.evicts, h.removes hc hm hok, Option.any_some, Option.isSome_eq_false_iff,
        Option.isNone_iff_eq_none] at he
      obtain ⟨q, hq, -⟩ := isDir_iff.1 hd
      rw [h.dropped hl ha hok hs h2 hc.edit.node (hc.last h.sound hm) he] at hq
      cases hq
    · rw [if_neg (Ne.symm hdj)] at hnaming
      exact (hn d hdir).imp_left fun hpos => by omega

/-- the link counts of the files -/
def Tree.Bounded (T : Tree) : Prop := ∀ i n, T i = some n → n.type ≠ T_DIR → n.nlink.toNat ≤ 32767

theorem Tree.Bounded.minor (h : T.Bounded) (hm : Minor ok T T') : T'.Bounded := by
  intro x p hx hd
  cases hm with
  | @write j m hj hm l _ =>
    rcases node_write hx with ⟨rfl, rfl⟩ | hx
    · exact h x m hj hm
    · exact h x p hx hd
  | @free j m hj h0 =>
    by_cases hxj : x = j
    · rw [hxj, Function.update_self] at hx; cases hx
    · rw [Function.update_of_ne hxj] at hx
      exact h x p hx hd

theorem Tree.Bounded.major (h : T.Bounded) (hs : Sound N T) (hm : Major sb ok T T')
    (hlink : ∀ i j name m, ok (.link i j name) → T j = some m → m.nlink ≠ 32767) : T'.Bounded := by
  intro x p hx hd
  cases hm with
  | create hc _ =>
    rcases hc.edit.cases hx with ⟨rfl, rfl⟩ | ⟨-, -, rfl⟩ | ⟨-, -, hx⟩
    · exact absurd hc.isDir hd
    · exact (by decide : (1 : UInt16).toNat ≤ 32767)
    · exact h x p hx hd
  | @link name i j k n m T' hc hok =>
    rcases hc.edit.cases hx with ⟨rfl, rfl⟩ | ⟨-, rfl, rfl⟩ | ⟨-, -, hx⟩
    · exact absurd hc.isDir hd
    · have hle := h x m hc.file hc.notDir
      have hne : m.nlink.toNat ≠ 32767 := fun h0 => hlink i x name m hok hc.file (UInt16.toNat_inj.1 h0)
      show (m.nlink + 1).toNat ≤ 32767
      rw [toNat_add_one (by omega)]
      omega
    · exact h x p hx hd
  | @unlink name i j k n m T' hc _ =>
    rcases hc.edit.cases hx with ⟨rfl, rfl⟩ | ⟨-, rfl, rfl⟩ | ⟨-, -, hx⟩
    · exact absurd hc.isDir hd
    · have hle := h x m hc.node hd
      show (m.nlink - 1).toNat ≤ 32767
      rw [toNat_sub_one (hc.nlink_pos hs)]
      omega
    · exact h x p hx hd

theorem Tree.Counted.not_wraps (hc : Tree.Counted (s.node sb)) (a : ℕ × Call) : a.2.wraps sb s a.1 = false := by
  rw [Bool.eq_false_iff]
  intro hw
  unfold Call.wraps at hw
  split at hw
  · rw [Option.any_eq_true] at hw
    obtain ⟨y, -, hw⟩ := hw
    rw [Option.any_eq_true] at hw
    obtain ⟨m, hm, hw⟩ := hw
    have hle := hc y.1 m hm
    rw [of_decide_eq_true hw] at hle
    exact absurd hle (by decide)
  · cases hw

/-- a call that makes no link too many -/
theorem Idle.counted (hl : Layout sb) (h : Idle sb s) (hc : Tree.Counted (s.node sb)) (ha : (calls sb).legal s a)
    (ho : a.2.overflows sb s a.1 = false) (hs : (calls sb).step s a = .ok t) :
    Idle sb t ∧ Tree.Counted (t.node sb) := by
  have hw := hc.not_wraps a
  obtain ⟨hi, T1, h1, h2⟩ := h.step hl ha hw hs
  have hfiles : Tree.Bounded T1 := by
    rcases h1 with rfl | h1
    · exact fun x n hn _ => hc x n hn
    · refine Tree.Bounded.major (fun x n hn _ => hc x n hn) h.sound h1 fun x y _ m hok hm h0 => ?_
      obtain ⟨old, new, name', hcall, hwalk, -⟩ := hok.makes
      rw [hcall, Call.overflows, hwalk, Option.any_some, hm, Option.any_some, h0] at ho
      exact absurd ho (by decide)
  have hlast : Tree.Bounded (t.node sb) := by
    clear hi hs
    generalize t.node sb = T' at h2
    induction h2 with
    | refl => exact hfiles
    | tail _ hm ih => exact ih.minor hm
  refine ⟨hi, fun x n hn => ?_⟩
  by_cases hd : n.type = T_DIR
  · have := hi.sound.nlink_lt hn hd (hi.wf.node_size hn); omega
  · exact hlast x n hn hd

/-! ## The check in `sys_unlink` -/

/-- any panic but that over the link count -/
def Other (e : Panic) : Prop := e ≠ .unlinkNlink

theorem FsPanic.other {e : Panic} (h : FsPanic e) : Other e := by
  rintro rfl
  cases h

theorem Raises.other {α : Type} {m : FsM α} (h : Raises FsPanic m) : Raises Other m := h.mono fun _ => FsPanic.other

theorem other_setNlink (ip : ℕ) (f : UInt16 → UInt16) : Raises Other (setNlink sb ip f) :=
  Raises.getInode.bind fun _ => (Raises.setInode _).bind fun _ => raises_iupdate.other

theorem other_unlinkBad (dp : ℕ) : Raises Other (unlinkBad sb dp) :=
  raises_iunlockput.other.bind fun _ => (Raises.emit _).bind fun _ => .pure _

theorem other_unlinkDone (dp ip : ℕ) : Raises Other (unlinkDone sb dp ip) :=
  raises_iunlockput.other.bind fun _ => (other_setNlink ip _).bind fun _ => raises_iunlockput.other.bind fun _ =>
    (Raises.emit _).bind fun _ => .pure _

theorem other_unlinkEntry (dp ip off : ℕ) (type : UInt16) (empty : Bool) :
    Raises Other (unlinkEntry sb dp ip off type empty) := by
  refine .ite (raises_iunlockput.other.bind fun _ => other_unlinkBad dp) ((raises_writei _ _ _).other.bind fun r => ?_)
  exact .ite (.throw (nofun : Panic.unlinkWritei ≠ .unlinkNlink))
    (.ite ((other_setNlink dp _).bind fun _ => other_unlinkDone dp ip) (other_unlinkDone dp ip))

instance : OfFs Other := ⟨fun _ => FsPanic.other⟩

/-- an entry names an inode whose link count is not positive -/
def Tree.Overdrawn (T : Tree) : Prop := ∃ i j m, j ∈ T.kids i ∧ T j = some m ∧ m.nlink.toInt16 < 1

theorem Raises.overdrawn {α : Type} {m : FsM α} (h : Raises FsPanic m) {Q : α → St → Prop} {E : Panic → Prop}
    (hs : Spec m s Q E) : Spec m s Q fun e => e = .unlinkNlink → T.Overdrawn :=
  (h.spec hs).mono (fun _ _ h => h) fun _ he h0 => absurd h0 he.other

theorem unlinkIn_nlink {w : Option (ℕ × List UInt8)} {dp : ℕ} (hc : Calm sb s) (hs : Sound N (s.node sb))
    (hpar : Parent sb w dp i n name s t) :
    Spec (unlinkIn sb dp name) t (fun _ _ => True) fun e => e = .unlinkNlink → Tree.Overdrawn (s.node sb) := by
  have hother : ∀ {α : Type} {m : FsM α} {u : St}, Raises Other m →
      Spec m u (fun _ _ => True) fun e => e = .unlinkNlink → Tree.Overdrawn (s.node sb) := fun h =>
    h.any.mono (fun _ _ h => h) fun _ he h0 => absurd h0 he
  unfold unlinkIn
  refine Spec.ite (fun _ => hother (other_unlinkBad dp)) fun hname => ?_
  rw [not_or, Bool.not_eq_true, Bool.not_eq_true] at hname
  refine Spec.bind ((raises_dirlookup name).overdrawn (dirlookup_spec (P := True) hpar.quiet.wf hpar.live hpar.dir)) ?_
  intro r u hu
  cases r with
  | none => exact hother (other_unlinkBad dp)
  | some y =>
    obtain ⟨ip, off⟩ := y
    obtain ⟨k, hk, rfl, hit, -, hu⟩ := hu
    refine Spec.bind (raises_ilock.overdrawn (ilock_spec (P := True) hu.quiet.wf hu.ptr fun _ => trivial)) ?_
    intro _ v hv
    refine Spec.bind_ok rfl (Spec.ite (fun hlt => Spec.throw fun _ => ?_) fun _ => Spec.ite (fun _ => ?_) fun _ => ?_)
    · -- the inode that was found is the child that the entry names
      have hle := pos_refs hpar.refs
      have hleu : ∀ k, 0 < s.refs k → 0 < u.refs k := fun k hk => by
        rw [hu.refs]; exact le_add_single _ _ _ (hle k hk)
      have hq : Quiet sb s.refs s v := (hpar.quiet.trans (hu.quiet.mono hle)).trans (hv.quiet.mono hleu)
      have hnode := hv.quiet.wf.node_ptr hv.ptr hv.valid
      rw [hc.held.node hq] at hnode
      refine ⟨i, (entry n.bytes k).inum, _, ?_, hnode, hlt⟩
      rw [kids_of hpar.node, mem_kids hpar.dir]
      exact ⟨k, hk, ((hs.dots i n hpar.node hpar.dir).later hk hit hname.1 hname.2).2, rfl⟩
    · exact Spec.bind (hother (within_isdirempty (E := Other) nofun).raises) fun _ _ _ =>
        hother (other_unlinkEntry _ _ _ _ _)
    · exact hother (other_unlinkEntry _ _ _ _ _)

/-- `sys_unlink` panics over a link count only if an entry names an inode with such a count -/
theorem sysUnlink_nlink (hl : Layout sb) (hs : Idle sb s) (hcwd : Cwd s p) (path : List UInt8) :
    Spec (sysUnlink sb p (some path)) s (fun _ _ => True) fun e => e = .unlinkNlink → Tree.Overdrawn (s.node sb) := by
  rw [sysUnlink_some]
  have hto := to_event s .beginOp
  have hnode := node_congr sb hto.blk
  refine Spec.bind_ok rfl ?_
  rw [← hnode]
  refine Spec.bind ((raises_namex _ _ _).overdrawn (namex_spec (P := True) hl (hs.wf.congr hto) (hcwd.to hto)
    fun _ => trivial)) ?_
  intro r t ht
  cases r with
  | none => exact Spec.bind_ok rfl (Spec.pure trivial)
  | some y =>
    obtain ⟨dp, name⟩ := y
    obtain ⟨i, n, hlive, hpar⟩ := ht.parent
    refine Spec.bind (raises_ilock.overdrawn (ilock_spec (P := True) ht.1.wf hlive.ptr fun _ => trivial)) ?_
    intro _ u hu
    refine unlinkIn_nlink (N := sb.ninodes) (hs.calm.to hs.wf hto) ?_ (hpar u hu)
    rw [hnode]; exact hs.sound

/-! ## Runs -/

/-- **Link counts stay positive.** In every run of system calls in which no `link` adds to a count of 32767 and no
`unlink` removes a directory that is in use, in every state each inode that an entry names is in use and its link count
is at least one, and no `unlink` panics over it. -/
theorem nlink_positive (hl : Layout sb) (h : Idle sb s) (hc : Tree.Counted (s.node sb))
    (hn : Tree.Named sb.ninodes (s.node sb)) (as : List (ℕ × Call))
    (hlegal : ((calls sb).restrict fun s a => a.2.overflows sb s a.1 = false ∧ a.2.evicts sb s a.1 = false).LegalRun s
      as) :
    ∀ t, (calls sb).run s as = .ok t →
      (∀ i n, t.node sb i = some n → n.type = T_DIR → ∀ e ∈ entries n.bytes, e.inum ≠ 0 →
        ∃ q, t.node sb e.inum = some q ∧ 1 ≤ q.nlink.toInt16) ∧
      ∀ p path, (calls sb).legal t (p, .unlink path) → (calls sb).step t (p, .unlink path) ≠ .error .unlinkNlink := by
  intro t hr
  rw [← Machine.run_restrict] at hr
  have hreach : ((calls sb).restrict fun s a => a.2.overflows sb s a.1 = false ∧ a.2.evicts sb s a.1 = false).Reach s
    t := ⟨as, hlegal, hr⟩
  obtain ⟨hi, hct, hnt⟩ := hreach.inv
    (fun u => Idle sb u ∧ Tree.Counted (u.node sb) ∧ Tree.Named sb.ninodes (u.node sb)) ⟨h, hc, hn⟩
    fun u a v hu ha hs => by
      obtain ⟨hi, hct⟩ := hu.1.counted hl hu.2.1 ha.1 ha.2.1 hs
      exact ⟨hi, hct, hu.1.named hl hu.2.2 ha.1 (hu.2.1.not_wraps a) ha.2.2 hs⟩
  refine ⟨fun i n hin hd e he h0 => hi.sound.entry_linked hct hnt hin hd he h0, fun p path hp hstep => ?_⟩
  cases path with
  | none => exact absurd hstep nofun
  | some path =>
    have hspec : Spec (Call.run sb p (.unlink (some path))) t (fun _ _ => True)
        fun e => e = .unlinkNlink → Tree.Overdrawn (t.node sb) :=
      Spec.bind (sysUnlink_nlink hl hi (hi.acct.has_cwd hi.wf hp) path) fun _ _ _ => Spec.pure trivial
    obtain ⟨i, j, m, hj, hm, hlt⟩ := calls_error (a := (p, .unlink (some path))) hspec hstep rfl
    obtain ⟨n, hn, hle⟩ := hi.sound.linked hct hj
    rw [hm] at hn
    cases hn
    exact absurd hle (Int16.not_le.2 hlt)

theorem boot_counted : Tree.Counted (boot.node Ownership.tiny) := by
  rw [boot_node]
  intro i n hn
  rw [(rootOnly_some hn).2]
  decide

theorem boot_named : Tree.Named Ownership.tiny.ninodes (boot.node Ownership.tiny) := by
  rw [boot_node]
  intro d hd
  obtain ⟨n, hn, -⟩ := isDir_iff.1 hd
  exact Or.inr (rootOnly_some hn).1

/-- process 0 creates a file, links it and removes a name, and makes a directory and removes it -/
def relink : List (ℕ × Call) :=
  [(0, .openPath (some [97]) (2 ^ O_CREATE + 2 ^ O_WRONLY)), (0, .link (some [97]) (some [98])),
    (0, .unlink (some [97])), (0, .mkdir (some pathP)), (0, .unlink (some pathP))]

theorem nlink_positive_relink : ∃ t, (calls Ownership.tiny).run boot relink = .ok t ∧
    ∀ i n, t.node Ownership.tiny i = some n → n.type = T_DIR → ∀ e ∈ entries n.bytes, e.inum ≠ 0 →
      ∃ q, t.node Ownership.tiny e.inum = some q ∧ 1 ≤ q.nlink.toInt16 := by
  obtain ⟨t, hlegal, hr, -⟩ := Machine.exists_run_of_steps (s := boot) (l := relink) (p := fun _ => true)
    (M := (calls Ownership.tiny).restrict fun s a => a.2.overflows Ownership.tiny s a.1 = false ∧
      a.2.evicts Ownership.tiny s a.1 = false) (by decide +kernel)
  rw [Machine.run_restrict] at hr
  exact ⟨t, hr, (nlink_positive Ownership.tiny_layout boot_idle boot_counted boot_named _ hlegal t hr).1⟩

/-- "/a" and "/z" -/
def pathA : List UInt8 := [47, 97]
def pathZ : List UInt8 := [47, 122]

/-- **A negative link count.** On a sound disk a file has 32767 names and as many links; it is given one more, and
removing it again panics. -/
theorem nlink_negative : Idle Crowd.disk (Crowd.crowd 32767) ∧
    Exact Crowd.disk.ninodes ((Crowd.crowd 32767).node Crowd.disk) ∧
    Tree.Counted ((Crowd.crowd 32767).node Crowd.disk) ∧
    Tree.Named Crowd.disk.ninodes ((Crowd.crowd 32767).node Crowd.disk) ∧
    ∃ as, (calls Crowd.disk).LegalRun (Crowd.crowd 32767) as ∧
      (calls Crowd.disk).run (Crowd.crowd 32767) as = .error .unlinkNlink := by
  have hidle : Idle Crowd.disk (Crowd.crowd 32767) := Crowd.crowd_idle (by decide) (by decide)
  have hexact : Exact Crowd.disk.ninodes ((Crowd.crowd 32767).node Crowd.disk) :=
    Crowd.crowd_exact (by decide) (by decide)
  have hcount : ∀ i n, (Crowd.crowd 32767).node Crowd.disk i = some n → n.nlink ≠ 0 ∧ n.nlink.toNat ≤ 32767 := by
    rw [Crowd.crowd_node]
    intro i n hn
    rcases Crowd.tree_some hn with ⟨-, rfl⟩ | ⟨-, rfl⟩ | ⟨d, -, -, rfl⟩
    · exact (by decide : (5 : UInt16) ≠ 0 ∧ (5 : UInt16).toNat ≤ 32767)
    · exact (by decide : UInt16.ofNat 32767 ≠ 0 ∧ (UInt16.ofNat 32767).toNat ≤ 32767)
    · exact (by decide : (1 : UInt16) ≠ 0 ∧ (1 : UInt16).toNat ≤ 32767)
  refine ⟨hidle, hexact, fun i n hn => (hcount i n hn).2, fun d hd => ?_,
    [(0, .link (some pathA) (some pathZ))] ++ [(0, .unlink (some pathZ))], Machine.error_of_steps (by decide +kernel)⟩
  obtain ⟨n, hn, hdir⟩ := isDir_iff.1 hd
  exact hexact.linked hidle.sound hn hdir (hcount d n hn).1

end Xv6.Fs
