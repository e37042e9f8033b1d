/-
Files that nothing names.

A removed directory can live on as somebody's current directory, and the kernel still creates files in it; when the
directory is dropped and freed, they stay allocated under no name (`unreachable_file`).

- `Exact`: a directory that has been removed is empty, a file has as many links as names, and what is named can be
  reached from the root.
- `reachable_or_used`: as long as no entry is made in a removed directory, there are no such files.
-/
import Xv6.Fs.Lookup

namespace Xv6.Fs

open Xv6.Core

variable {sb : Superblock} {s t : St} {a : ℕ × Call} {N i j k x : ℕ} {n m : Node} {T T' : Tree} {ok : Change → Prop}
  {name : List UInt8} {type : UInt16}

/-- a path of proper entries leads from the root to inode i -/
def Tree.Reach (T : Tree) (i : ℕ) : Prop := Relation.ReflTransGen (fun x y => y ∈ T.kids x) ROOTINO i

structure Exact (N : ℕ) (T : Tree) : Prop where
  empty : ∀ i, T.isDir i = true → T.naming N i = 0 → i ≠ ROOTINO → T.kids i = []
  file : ∀ i n, T i = some n → n.type ≠ T_DIR → n.nlink.toNat = T.naming N i
  reach : ∀ i, 0 < T.naming N i → T.Reach i

/-- the call has something to enter in a directory: the file that `link` is to link, or a free inode -/
def Call.supplied (sb : Superblock) (s : St) (p : ℕ) : Call → Bool
  | .link (some old) _ => (s.walk sb p old false).any fun x => (s.node sb x.1).any fun m => m.type ≠ T_DIR
  | _ => (List.range sb.ninodes).any fun j => 0 < j && (s.node sb j).isNone

/-- the call makes an entry in a directory without links, where the name is not taken -/
def Call.buries (sb : Superblock) (s : St) (p : ℕ) (c : Call) : Bool :=
  c.supplied sb s p && c.newEntry.any fun path => (s.walk sb p path true).any fun x => (s.node sb x.1).any fun n =>
    n.nlink = 0 && (lookup n.bytes x.2).isNone

/-! ## Steps -/

theorem Tree.Reach.root (T : Tree) : T.Reach ROOTINO := .refl

theorem Tree.Reach.kid (h : T.Reach i) (hj : j ∈ T.kids i) : T.Reach j := h.tail hj

theorem Tree.Reach.mono (h : T.Reach x) (hk : ∀ i j, j ∈ T.kids i → j ∈ T'.kids i) : T'.Reach x :=
  Relation.ReflTransGen.mono (fun i j => hk i j) _ _ h

/-- the children of a directory are reachable: it is named itself, or the root -/
theorem Exact.kid_reach (h : Exact N T) (hj : j ∈ T.kids i) : T.Reach i := by
  by_cases hr : i = ROOTINO
  · rw [hr]; exact Tree.Reach.root T
  refine h.reach i (Nat.pos_of_ne_zero fun h0 => ?_)
  by_cases hd : T.isDir i = true
  · rw [h.empty i hd h0 hr] at hj; cases hj
  · cases hi : T i with
    | none => rw [kids_none hi] at hj; cases hj
    | some n =>
      rw [isDir_of hi, decide_eq_true_eq] at hd
      rw [kids_of hi, kids_file hd] at hj; cases hj

/-- a directory with links is named, or the root -/
theorem Exact.linked (h : Exact N T) (hs : Sound N T) (hi : T i = some n) (hd : n.type = T_DIR) (h0 : n.nlink ≠ 0) :
    0 < T.naming N i ∨ i = ROOTINO := by
  by_contra hc
  rw [not_or, Nat.pos_iff_ne_zero, not_not] at hc
  have hkids := h.empty i (isDir_iff.2 ⟨n, hi, hd⟩) hc.1 hc.2
  have hn := hs.dir i n hi hd
  rw [hc.1, Tree.inside, hkids, if_neg hc.2] at hn
  exact h0 (UInt16.toNat_inj.1 hn)

/-- an entry more, in a directory that is named or the root -/
theorem Adds.exact_reach (h : Adds T T' i j) (hx : Exact N T) (hi : i < N) (hin : 0 < T.naming N i ∨ i = ROOTINO) :
    ∀ x, 0 < T'.naming N x → T'.Reach x := by
  have hmono : ∀ y z, z ∈ T.kids y → z ∈ T'.kids y := fun y z hz => h.mem.2 (Or.inl hz)
  intro x hpos
  rw [h.naming hi] at hpos
  by_cases hxj : j = x
  · subst hxj
    have hri : T.Reach i := hin.elim (hx.reach i) fun hr => by rw [hr]; exact Tree.Reach.root T
    exact (hri.mono hmono).kid (h.mem.2 (Or.inr ⟨rfl, rfl⟩))
  · rw [if_neg hxj] at hpos
    exact (hx.reach x hpos).mono hmono

theorem Adds.exact_empty (h : Adds T T' i j) (hx : Exact N T) (hi : i < N) (hin : 0 < T.naming N i ∨ i = ROOTINO)
    (hd : T'.isDir x = true → T.isDir x = true ∨ T.kids x = []) (hdir : T'.isDir x = true) (h0 : T'.naming N x = 0)
    (hr : x ≠ ROOTINO) : T'.kids x = [] := by
  rw [h.naming hi] at h0
  have hxi : x ≠ i := by
    rintro rfl
    rcases hin with hin | hin
    · omega
    · exact hr hin
  rw [h.kids x hxi]
  rcases hd hdir with hd | hd
  · exact hx.empty x hd (by omega) hr
  · exact hd

theorem Exact.create (hx : Exact N T) (hs : Sound N T) (h : Created sb type name T T' i j k n) (hN : sb.ninodes = N)
    (h0 : n.nlink ≠ 0) : Exact N T' := by
  have hadds := h.adds hs hN
  have hi := hs.lt i n h.dir
  have hin := hx.linked hs h.dir h.isDir h0
  refine ⟨fun x hd hn hr => hadds.exact_empty hx hi hin (fun hd => ?_) hd hn hr, fun x p hp hd => ?_,
    hadds.exact_reach hx hi hin⟩
  · by_cases hxj : x = j
    · rw [hxj]; exact Or.inr (kids_none h.fresh)
    · rw [h.isDir_eq hxj] at hd; exact Or.inl hd
  · rw [hadds.naming hi]
    rcases h.edit.cases hp with ⟨rfl, rfl⟩ | ⟨-, rfl, rfl⟩ | ⟨-, hxj, hp⟩
    · exact absurd h.isDir hd
    · rw [if_pos rfl, hs.naming_none h.fresh]; rfl
    · rw [if_neg (Ne.symm hxj)]; exact hx.file x p hp hd

theorem Exact.addLink (hx : Exact N T) (hs : Sound N T) (h : AddLink name T T' i j k n m) (h0 : n.nlink ≠ 0)
    (hwrap : m.nlink.toNat + 1 < 2 ^ 16) : Exact N T' := by
  have hadds := h.adds hs
  have hi := hs.lt i n h.dir
  have hin := hx.linked hs h.dir h.isDir h0
  refine ⟨fun x hd hn hr => hadds.exact_empty hx hi hin (fun hd => ?_) hd hn hr, fun x p hp hd => ?_,
    hadds.exact_reach hx hi hin⟩
  · rw [h.isDir_eq] at hd; exact Or.inl hd
  · rw [hadds.naming hi]
    rcases h.edit.cases hp with ⟨rfl, rfl⟩ | ⟨-, rfl, rfl⟩ | ⟨-, hxj, hp⟩
    · exact absurd h.isDir hd
    · rw [if_pos rfl, toNat_add_one hwrap, hx.file x m h.file h.notDir]
    · rw [if_neg (Ne.symm hxj)]; exact hx.file x p hp hd

/-- removing a name of an inode that has no entries cuts off nothing else -/
theorem DropLink.reach (h : DropLink name T T' i j k n m) (hs : Sound N T) (hx : T.Reach x) : T'.Reach x ∨ x = j := by
  induction hx with
  | refl => exact Or.inl (Tree.Reach.root T')
  | @tail y z _ hz ih =>
    rcases ih with ih | rfl
    · rcases (h.adds hs).mem.1 hz with hz | ⟨-, rfl⟩
      · exact Or.inl (ih.kid hz)
      · exact Or.inr rfl
    · rw [h.kids_nil hs] at hz; cases hz

theorem Exact.dropLink (hx : Exact N T) (hs : Sound N T) (h : DropLink name T T' i j k n m) : Exact N T' := by
  have hadds := h.adds hs
  have hi := hs.lt i n h.dir
  have hnaming := fun x => hadds.naming (x := x) hi
  have hij : T.Reach i := hx.kid_reach (hadds.mem.2 (Or.inr ⟨rfl, rfl⟩))
  refine ⟨fun x hd h0 hr => ?_, fun x p hp hd => ?_, fun x hpos => ?_⟩
  · rw [h.isDir_eq] at hd
    by_cases hxj : x = j
    · subst hxj
      have hxi : x ≠ i := h.ne.symm
      rw [← hadds.kids x hxi]; exact h.kids_nil hs
    have hn := hnaming x
    rw [if_neg (Ne.symm hxj)] at hn
    have hnil := hx.empty x hd (by omega) hr
    refine List.eq_nil_iff_forall_not_mem.2 fun y hy => ?_
    have := hadds.mem.2 (Or.inl hy)
    rw [hnil] at this; cases this
  · have hn := hnaming x
    rcases h.edit.cases hp with ⟨rfl, rfl⟩ | ⟨-, rfl, rfl⟩ | ⟨-, hxj, hp⟩
    · exact absurd h.isDir hd
    · rw [if_pos rfl] at hn
      have := hx.file x m h.node hd
      show (m.nlink - 1).toNat = _
      rw [toNat_sub_one (h.nlink_pos hs)]
      omega
    · rw [if_neg (Ne.symm hxj)] at hn
      have := hx.file x p hp hd
      omega
  · obtain ⟨y, -, hy⟩ := exists_of_naming_pos hpos
    have hy' := hadds.mem.2 (Or.inl hy)
    rcases h.reach hs (hx.kid_reach hy') with hr | rfl
    · exact hr.kid hy
    · rw [h.kids_nil hs] at hy'; cases hy'

theorem Exact.minor (hx : Exact N T) (hs : Sound N T) (h : Minor ok T T') : Exact N T' := by
  cases h with
  | @write j m hj hm l _ =>
    have hkids := kids_write hj hm l
    have hnaming : ∀ x, Tree.naming N (Function.update T j (some { m with bytes := l })) x = T.naming N x := fun x => by
      unfold Tree.naming
      rw [hkids]
    refine ⟨fun x hd h0 hr => ?_, fun x p hp hd => ?_, fun x hpos => ?_⟩
    · rw [isDir_write hj] at hd
      rw [hnaming] at h0
      rw [hkids]; exact hx.empty x hd h0 hr
    · rw [hnaming]
      rcases node_write hp with ⟨rfl, rfl⟩ | hp
      · exact hx.file x m hj hm
      · exact hx.file x p hp hd
    · rw [hnaming] at hpos
      exact (hx.reach x hpos).mono fun y z hz => by rwa [hkids]
  | @free j m hj h0 =>
    -- nothing is in the freed inode
    obtain ⟨hun, hin, hroot⟩ := hs.unnamed hj h0
    have hnil : T.kids j = [] := by
      by_cases hd : m.type = T_DIR
      · exact hx.empty j (isDir_iff.2 ⟨m, hj, hd⟩) hun hroot
      · rw [kids_of hj, kids_file hd]
    have hkids : ∀ x, Tree.kids (Function.update T j none) x = T.kids x := fun x => by
      by_cases hxj : x = j
      · rw [hxj, kids_none (Function.update_self ..), hnil]
      · exact kids_free hxj
    have hnaming : ∀ x, Tree.naming N (Function.update T j none) x = T.naming N x := fun x => by
      unfold Tree.naming
      simp only [hkids]
    have hnode : ∀ x p, Function.update T j none x = some p → T x = some p := fun x p hp => by
      by_cases hxj : x = j
      · rw [hxj, Function.update_self] at hp; cases hp
      · rwa [Function.update_of_ne hxj] at hp
    refine ⟨fun x hd hn hr => ?_, fun x p hp hd => ?_, fun x hpos => ?_⟩
    · obtain ⟨p, hp, hpd⟩ := isDir_iff.1 hd
      rw [hnaming] at hn
      rw [hkids]; exact hx.empty x (isDir_iff.2 ⟨p, hnode x p hp, hpd⟩) hn hr
    · rw [hnaming]; exact hx.file x p (hnode x p hp) hd
    · rw [hnaming] at hpos
      exact (hx.reach x hpos).mono fun y z hz => by rwa [hkids]

/-- a call that makes no entry in a removed directory -/
theorem Idle.exact (hl : Layout sb) (h : Idle sb s) (hx : Exact sb.ninodes (s.node sb)) (ha : (calls sb).legal s a)
    (hw : a.2.wraps sb s a.1 = false) (hb : a.2.buries sb s a.1 = false) (hs : (calls sb).step s a = .ok t) :
    Exact sb.ninodes (t.node sb) := by
  obtain ⟨-, T1, h1, h2⟩ := h.step hl ha hw hs
  have hne : ∀ {path name i n}, a.2.newEntry = some path → s.walk sb a.1 path true = some (i, name) →
      s.node sb i = some n → (∀ x, x < n.bytes.length / DESIZE → ¬ Hit n.bytes name x) → a.2.supplied sb s a.1 = true →
      n.nlink ≠ 0 := fun hp hwalk hn habs hsup h0 => by
    rw [Call.buries, hsup, hp, Option.any_some, hwalk, Option.any_some, hn, Option.any_some, h0, lookup_none habs] at hb
    exact absurd hb (by decide)
  have key : Sound sb.ninodes T1 ∧ Exact sb.ninodes T1 := by
    rcases h1 with rfl | h1
    · exact ⟨h.sound, hx⟩
    cases h1 with
    | create hc hok =>
      obtain ⟨path, hp, hwalk⟩ := hok.makes
      have hsup : a.2.supplied sb s a.1 = true := by
        unfold Call.supplied
        split
        · rename_i old new hcall
          rw [hcall] at hok
          cases new with
          | none => exact hok.elim
          | some new =>
            obtain ⟨_, _, _, _, hbad, -⟩ := hok
            cases hbad
        · rw [List.any_eq_true]
          exact ⟨_, List.mem_range.2 hc.lt, by simp [hc.pos, hc.fresh]⟩
      exact ⟨h.sound.create hc rfl (h.wf.node_size hc.dir),
        hx.create h.sound hc rfl (hne hp hwalk hc.dir hc.absent hsup)⟩
    | @link name i j k n m T1 hc hok =>
      obtain ⟨old, new, name', hcall, hold, hnew⟩ := hok.makes
      have hwrap := hok.no_wrap hw hc.file
      have hlt' : m.nlink.toNat + 1 < 2 ^ 16 := by
        have h1 := m.nlink.toNat_lt
        have h2 : m.nlink.toNat ≠ 65535 := fun h0 => by
          rw [show m.nlink = 65535 from UInt16.toNat_inj.1 h0] at hwrap
          exact hwrap rfl
        omega
      have hsup : a.2.supplied sb s a.1 = true := by
        rw [hcall, Call.supplied, hold, Option.any_some, hc.file, Option.any_some]
        exact decide_eq_true hc.notDir
      exact ⟨h.sound.link hc hwrap,
        hx.addLink h.sound hc (hne (by rw [hcall]; rfl) hnew hc.dir hc.absent hsup) hlt'⟩
    | unlink hc _ => exact ⟨h.sound.unlink hc, hx.dropLink h.sound hc⟩
  generalize t.node sb = T' at h2
  have : Sound sb.ninodes T' ∧ Exact sb.ninodes T' := by
    induction h2 with
    | refl => exact key
    | tail _ hm ih => exact ⟨ih.1.minor hm, ih.2.minor ih.1 hm⟩
  exact this.2

/-! ## Runs -/

/-- a referenced inode is a current directory, or open -/
theorem Acct.holder (h : Acct s) (hk : 0 < s.refs k) :
    (∃ p, (s.proc p).cwd = some k) ∨ ∃ f, (s.file f).type ≠ .none ∧ (s.file f).ip = k := by
  by_contra hc
  rw [not_or, not_exists, not_exists] at hc
  have h1 : s.procUses k = 0 := Finset.sum_eq_zero fun p _ => if_neg (hc.1 p)
  have h2 : s.fileUses k = 0 := Finset.sum_eq_zero fun f _ => if_neg fun hu => hc.2 f ⟨hu.2.1, hu.2.2⟩
  rw [h.refs, h1, h2] at hk
  exact absurd hk (lt_irrefl 0)

/-- **No unreachable files.** In every run of system calls in which no `link` wraps a link count and no call makes an
entry in a directory without links, in every state each inode in use that is no process's current directory and not open
is reachable from the root. -/
theorem reachable_or_used (hl : Layout sb) (h : Idle sb s) (hx : Exact sb.ninodes (s.node sb)) (as : List (ℕ × Call))
    (hlegal : ((calls sb).restrict fun s a => a.2.wraps sb s a.1 = false ∧ a.2.buries sb s a.1 = false).LegalRun s as) :
    ∀ t, (calls sb).run s as = .ok t → ∀ i n, t.node sb i = some n →
      (∀ p k, (t.proc p).cwd = some k → (t.inode k).inum ≠ i) →
      (∀ f, (t.file f).type ≠ .none → (t.inode (t.file f).ip).inum ≠ i) → Tree.Reach (t.node sb) i := by
  intro t hr i n hn hcwd hfile
  rw [← Machine.run_restrict] at hr
  have hreach : ((calls sb).restrict fun s a => a.2.wraps sb s a.1 = false ∧ a.2.buries sb s a.1 = false).Reach s t :=
    ⟨as, hlegal, hr⟩
  obtain ⟨hi, hxt⟩ := hreach.inv (fun u => Idle sb u ∧ Exact sb.ninodes (u.node sb)) ⟨h, hx⟩ fun u a v hu ha hs =>
    ⟨(hu.1.step hl ha.1 ha.2.1 hs).1, hu.1.exact hl hu.2 ha.1 ha.2.1 ha.2.2 hs⟩
  have h0 : n.nlink ≠ 0 := fun h0 => by
    obtain ⟨k, hk, hki, -⟩ := hi.calm.held i n hn h0
    rcases hi.acct.holder hk with ⟨p, hp⟩ | ⟨f, hf, hfk⟩
    · exact hcwd p k hp hki
    · exact hfile f hf (by rw [hfk]; exact hki)
  by_cases hd : n.type = T_DIR
  · rcases hxt.linked hi.sound hn hd h0 with hpos | hroot
    · exact hxt.reach i hpos
    · rw [hroot]; exact Tree.Reach.root _
  · refine hxt.reach i (Nat.pos_of_ne_zero fun hz => h0 ?_)
    have := hxt.file i n hn hd
    rw [hz] at this
    exact UInt16.toNat_inj.1 this

theorem boot_exact : Exact Ownership.tiny.ninodes (boot.node Ownership.tiny) := by
  rw [boot_node]
  have hnaming : ∀ x, rootOnly.naming Ownership.tiny.ninodes x = 0 := fun x =>
    Finset.sum_eq_zero fun y _ => by rw [rootOnly_kids]; rfl
  refine ⟨fun i _ _ _ => rootOnly_kids i, fun i n hn hd => ?_, fun i hpos => ?_⟩
  · rw [(rootOnly_some hn).2] at hd
    exact absurd rfl hd
  · rw [hnaming] at hpos
    exact absurd hpos (lt_irrefl 0)

theorem reachable_or_used_leave : ∃ t, (calls Ownership.tiny).run boot leave = .ok t ∧
    ∀ i n, t.node Ownership.tiny i = some n → (∀ p k, (t.proc p).cwd = some k → (t.inode k).inum ≠ i) →
      (∀ f, (t.file f).type ≠ .none → (t.inode (t.file f).ip).inum ≠ i) → Tree.Reach (t.node Ownership.tiny) i := by
  obtain ⟨t, hlegal, hr, -⟩ := Machine.exists_run_of_steps (s := boot) (l := leave) (p := fun _ => true)
    (M := (calls Ownership.tiny).restrict fun s a => a.2.wraps Ownership.tiny s a.1 = false ∧
      a.2.buries Ownership.tiny s a.1 = false) (by decide +kernel)
  rw [Machine.run_restrict] at hr
  exact ⟨t, hr, reachable_or_used Ownership.tiny_layout boot_idle boot_exact _ hlegal t hr⟩

/-- process 0 creates a file in its current directory, which has been removed, closes it and leaves -/
def bury : List (ℕ × Call) :=
  [(0, .mkdir (some pathP)), (0, .chdir (some pathP)), (0, .unlink (some pathP)),
    (0, .openPath (some [102]) (2 ^ O_CREATE + 2 ^ O_WRONLY)), (0, .close 0), (0, .chdir (some [SLASH]))]

/-- nobody uses inode i and no entry names it -/
def lost (i : ℕ) (t : St) : Bool :=
  (t.node Ownership.tiny i).isSome && ((List.range NPROC).all fun p => (t.proc p).cwd.all fun k => (t.inode k).inum ≠ i)
    &&
    ((List.range NFILE).all fun f => (t.file f).type = .none) &&
    (List.range Ownership.tiny.ninodes).all fun x => !(Tree.kids (t.node Ownership.tiny) x).contains i

/-- **A file that nothing names.** It was created in a removed directory, which was then freed. -/
theorem unreachable_file : Idle Ownership.tiny boot ∧ Exact Ownership.tiny.ninodes (boot.node Ownership.tiny) ∧
    ∃ as t i n, (calls Ownership.tiny).LegalRun boot as ∧ (calls Ownership.tiny).run boot as = .ok t ∧
      t.node Ownership.tiny i = some n ∧ (∀ p k, (t.proc p).cwd = some k → (t.inode k).inum ≠ i) ∧
      (∀ f, (t.file f).type ≠ .none → (t.inode (t.file f).ip).inum ≠ i) ∧ ¬ Tree.Reach (t.node Ownership.tiny) i := by
  obtain ⟨t, hlegal, hr, ht⟩ := Machine.exists_run_of_steps (s := boot) (l := bury) (p := lost 3)
    (M := (calls Ownership.tiny).restrict fun s a => a.2.wraps Ownership.tiny s a.1 = false) (by decide +kernel)
  have hreach : ((calls Ownership.tiny).restrict fun s a => a.2.wraps Ownership.tiny s a.1 = false).Reach boot t :=
    ⟨_, hlegal, hr⟩
  have hidle := boot_idle.reach Ownership.tiny_layout hreach
  obtain ⟨as, hlegal', hr'⟩ := hreach.of_restrict
  unfold lost at ht
  simp only [Bool.and_eq_true, List.all_eq_true, List.mem_range, Option.all_eq_true, decide_eq_true_eq,
    Bool.not_eq_true',
    List.contains_eq_mem, decide_eq_false_iff_not] at ht
  obtain ⟨⟨⟨hn, hcwd⟩, hfile⟩, hkids⟩ := ht
  obtain ⟨n, hn⟩ := Option.isSome_iff_exists.1 hn
  refine ⟨boot_idle, boot_exact, as, t, 3, n, hlegal', hr', hn, fun p k hp => ?_, fun f hf => ?_, fun hc => ?_⟩
  · by_cases hlt : p < NPROC
    · exact hcwd p hlt k hp
    · rw [hidle.acct.procs p (by omega)] at hp; cases hp
  · by_cases hlt : f < NFILE
    · exact absurd (hfile f hlt) hf
    · exact absurd (hidle.acct.files f (by omega)) hf
  · rcases hc.cases_tail with h1 | ⟨x, -, hx⟩
    · exact absurd h1 (by decide)
    · exact hkids x (hidle.sound.mem_lt hx) hx

end Xv6.Fs
