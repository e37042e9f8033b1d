/-
The directories form a tree.

- `directories_form_tree`: as long as no link count wraps, in every state of every run exactly one path leads to every
  directory that can be reached, and its ".." goes back along it.
- `directory_named_elsewhere`: a link too many makes the count of a file zero, so it is freed while entries name it, and
  its number goes to the next directory.
-/
import Xv6.Fs.LinkCount

namespace Xv6.Fs

open Xv6.Core

variable {sb : Superblock} {s t : St} {N i j k : ℕ} {n : Node} {T : Tree} {l l' : List ℕ}

/-- the directories above inode i, up to the root -/
inductive Tree.Path (T : Tree) : ℕ → List ℕ → Prop where
  | root : Tree.Path T ROOTINO []
  | kid {i j : ℕ} {l : List ℕ} (h : Tree.Path T i l) (hj : j ∈ T.kids i) : Tree.Path T j (i :: l)

theorem Tree.Reach.path (h : T.Reach i) : ∃ l, T.Path i l := by
  induction h with
  | refl => exact ⟨[], .root⟩
  | tail _ hj ih =>
    obtain ⟨l, hl⟩ := ih
    exact ⟨_, .kid hl hj⟩

theorem Sound.root_unnamed (h : Sound N T) : ROOTINO ∉ T.kids i := fun hm => by
  obtain ⟨n, hn, hd, -⟩ := h.root
  have h1 := naming_pos (h.mem_lt hm) hm
  have h2 := h.once ROOTINO (isDir_iff.2 ⟨n, hn, hd⟩)
  rw [if_pos rfl] at h2
  omega

/-- the way up from a directory is determined by the ".." entries -/
theorem Sound.path_unique (h : Sound N T) (hn : T i = some n) (hd : n.type = T_DIR) (hl : T.Path i l)
    (hl' : T.Path i l') :
    l = l' := by
  induction hl generalizing n l' with
  | root =>
    cases hl' with
    | root => rfl
    | kid _ hj => exact absurd hj h.root_unnamed
  | kid _ hj ih =>
    cases hl' with
    | root => exact absurd hj h.root_unnamed
    | kid hx hj' =>
      have h1 := h.up _ _ n hj hn hd
      have h2 := h.up _ _ n hj' hn hd
      obtain rfl := h1.symm.trans h2
      obtain ⟨m, hm, hmd⟩ := isDir_of_kid hj
      rw [ih hm hmd hx]

/-- a directory that can be reached is named exactly once -/
theorem Sound.naming_reach (h : Sound N T) (hn : T i = some n) (hd : n.type = T_DIR) (hr : T.Reach i) :
    T.naming N i = if i = ROOTINO then 0 else 1 := by
  have h1 := h.once i (isDir_iff.2 ⟨n, hn, hd⟩)
  split_ifs at h1 ⊢ with hi
  · omega
  · rcases hr.cases_tail with h0 | ⟨x, -, hx⟩
    · exact absurd h0.symm (Ne.symm hi)
    · have := naming_pos (h.mem_lt hx) hx
      omega

/-! ## Runs -/

/-- directory i with content n as the parts of a tree are: "." and "..", named once, and ".." leads to where it is named
-/
structure InTree (N : ℕ) (T : Tree) (i : ℕ) (n : Node) : Prop where
  dot : (entry n.bytes 0).inum = i ∧ namecmp (entry n.bytes 0).name DOT = true
  dotdot : (entry n.bytes 1).inum ≠ 0 ∧ namecmp (entry n.bytes 1).name DOTDOT = true
  two : 2 ≤ n.bytes.length / DESIZE
  named : T.naming N i = if i = ROOTINO then 0 else 1
  up : ∀ x, i ∈ T.kids x → (entry n.bytes 1).inum = x
  root : i = ROOTINO → (entry n.bytes 1).inum = ROOTINO
  path : ∃! l, T.Path i l

theorem Sound.inTree (h : Sound N T) (hn : T i = some n) (hd : n.type = T_DIR) (hr : T.Reach i) : InTree N T i n := by
  have hdots := h.dots i n hn hd
  obtain ⟨l, hl⟩ := hr.path
  refine ⟨⟨hdots.self, hdots.dot⟩, ⟨hdots.up, hdots.dotdot⟩, hdots.two, h.naming_reach hn hd hr,
    fun x hx => h.up x i n hx hn hd, fun hi => ?_, l, hl, fun l' hl' => h.path_unique hn hd hl' hl⟩
  obtain ⟨m, hm, -, hup⟩ := h.root
  rw [hi, hm] at hn
  cases hn
  exact hup

/-- **Directories form a tree.** In every run of system calls in which no `link` wraps a link count, in every state
every directory that can be reached from the root is in its place of the tree. -/
theorem directories_form_tree (hl : Layout sb) (h : Idle sb s) (as : List (ℕ × Call))
    (hlegal : ((calls sb).restrict fun s a => a.2.wraps sb s a.1 = false).LegalRun s as) :
    ∀ t, (calls sb).run s as = .ok t → ∀ i n, t.node sb i = some n → n.type = T_DIR → Tree.Reach (t.node sb) i →
      InTree sb.ninodes (t.node sb) i n := by
  intro t hr i n hn hd hreach
  rw [← Machine.run_restrict] at hr
  exact (h.reach hl ⟨as, hlegal, hr⟩).sound.inTree hn hd hreach

theorem directories_form_tree_leave : ∃ t, (calls Ownership.tiny).run boot leave = .ok t ∧
    ∀ i n, t.node Ownership.tiny i = some n → n.type = T_DIR → Tree.Reach (t.node Ownership.tiny) i →
      InTree Ownership.tiny.ninodes (t.node Ownership.tiny) i n := by
  obtain ⟨t, hlegal, hr, -⟩ := Machine.exists_run_of_steps (s := boot) (l := leave) (p := fun _ => true)
    (M := (calls Ownership.tiny).restrict fun s a => a.2.wraps Ownership.tiny s a.1 = false) (by decide +kernel)
  rw [Machine.run_restrict] at hr
  exact ⟨t, hr, directories_form_tree Ownership.tiny_layout boot_idle _ hlegal t hr⟩

/-! ## A directory in two places -/

/-- "/y" -/
def pathY : List UInt8 := [47, 121]

/-- entry k of a directory, without reading the others -/
def entryOf (sb : Superblock) (t : St) (i k : ℕ) : Dirent :=
  Dirent.decode (slice t.blk (dino sb t.blk i) (k * DESIZE) DESIZE)

/-- inode i is a directory with an entry k -/
def hasEntry (sb : Superblock) (t : St) (i k : ℕ) : Bool :=
  decide (i < sb.ninodes ∧ (dino sb t.blk i).type = T_DIR ∧ k * DESIZE + DESIZE ≤ (dino sb t.blk i).size.toNat)

theorem node_of_hasEntry (h : hasEntry sb t i k = true) : ∃ n, t.node sb i = some n ∧ n.type = T_DIR ∧
    k < n.bytes.length / DESIZE ∧ entry n.bytes k = entryOf sb t i k := by
  obtain ⟨hi, hd, hk⟩ := of_decide_eq_true h
  refine ⟨_, node_of hi (by rw [hd]; decide), hd, ?_, ?_⟩
  · rw [Dinode.node, length_content, Nat.lt_iff_add_one_le, Nat.le_div_iff_mul_le (by decide), Nat.succ_mul]
    exact hk
  · rw [entryOf, slice_eq hk]; rfl

theorem mem_kids_of_hasEntry (h : hasEntry sb t i k = true) (hp : (entryOf sb t i k).proper = true) :
    (entryOf sb t i k).inum ∈ Tree.kids (t.node sb) i := by
  obtain ⟨n, hn, hd, hk, he⟩ := node_of_hasEntry h
  rw [kids_of hn, mem_kids hd]
  exact ⟨k, hk, by rw [he]; exact hp, by rw [he]⟩

/-- entry 2 of the directory 3, which is in the root, names the directory 2, whose ".." is the root -/
def misplaced (t : St) : Bool :=
  hasEntry Crowd.disk t 1 3 && (entryOf Crowd.disk t 1 3).proper && decide ((entryOf Crowd.disk t 1 3).inum = 3) &&
    hasEntry Crowd.disk t 3 2 && (entryOf Crowd.disk t 3 2).proper && decide ((entryOf Crowd.disk t 3 2).inum = 2) &&
    hasEntry Crowd.disk t 2 1 && decide ((entryOf Crowd.disk t 2 1).inum = 1)

/-- **A directory that is named elsewhere.** A file with 65535 names is given one more, and a directory is created. -/
theorem directory_named_elsewhere : Idle Crowd.disk (Crowd.crowd 65535) ∧
    Exact Crowd.disk.ninodes ((Crowd.crowd 65535).node Crowd.disk) ∧
    ∃ as t i n, (calls Crowd.disk).LegalRun (Crowd.crowd 65535) as ∧ (calls Crowd.disk).run
      (Crowd.crowd 65535) as = .ok t ∧
      t.node Crowd.disk i = some n ∧ n.type = T_DIR ∧ Tree.Reach (t.node Crowd.disk) i ∧
      ∃ x, i ∈ Tree.kids (t.node Crowd.disk) x ∧ (entry n.bytes 1).inum ≠ x := by
  refine ⟨Crowd.crowd_idle (by decide) (by decide), Crowd.crowd_exact (by decide) (by decide), ?_⟩
  obtain ⟨t, hlegal, hr, ht⟩ := Machine.exists_run_of_steps (M := calls Crowd.disk) (s := Crowd.crowd 65535)
    (l := [(0, .link (some pathA) (some pathZ)), (0, .mkdir (some pathY))]) (p := misplaced) (by decide +kernel)
  unfold misplaced at ht
  simp only [Bool.and_eq_true, decide_eq_true_eq] at ht
  obtain ⟨⟨⟨⟨⟨⟨⟨h1, p1⟩, i1⟩, h3⟩, p3⟩, i3⟩, h2⟩, i2⟩ := ht
  have hk1 := mem_kids_of_hasEntry h1 p1
  have hk3 := mem_kids_of_hasEntry h3 p3
  rw [i1] at hk1
  rw [i3] at hk3
  obtain ⟨n, hn, hd, -, he⟩ := node_of_hasEntry h2
  refine ⟨_, t, 2, n, hlegal, hr, hn, hd, ((Tree.Reach.root _).kid hk1).kid hk3, 3, hk3, ?_⟩
  rw [he, i2]
  decide

end Xv6.Fs
