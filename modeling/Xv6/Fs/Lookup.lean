/-
Path lookups and inodes in use.

An entry of a directory leads to an inode in use, except that the ".." of a removed directory, which lives on as
somebody's current directory, goes on naming its parent, which can then be removed and freed (`lookup_freed_parent`).

- `lookup_in_use`: as long as no call takes the last link from a directory that the ".." of another one names, every
  entry leads to an inode in use and no `ilock` finds a free inode.
-/
import Xv6.Fs.Runs

namespace Xv6.Fs

open Xv6.Core

variable {sb : Superblock} {s t : St} {a : ℕ × Call} {N i j k d : ℕ} {n m : Node} {T T' : Tree} {ok : Change → Prop}
  {name : List UInt8} {type : UInt16}

/-- the inode that the second entry of a directory names -/
def Node.up (n : Node) : ℕ := (entry n.bytes 1).inum

/-- ".." names a directory with links -/
def Node.Homed (T : Tree) (m : Node) : Prop := ∃ n, T m.up = some n ∧ n.type = T_DIR ∧ n.nlink ≠ 0

def Parents (T : Tree) : Prop := ∀ d m, T d = some m → m.type = T_DIR → m.Homed T

/-- the call removes a directory j, and the ".." of a directory d names j, or names the directory that j was in, which
has lost its last link; not if d is j itself and nobody uses it, as it is freed then -/
def Call.orphans (sb : Superblock) (s : St) (p : ℕ) (c : Call) : Bool :=
  (c.removes sb s p).any fun (i, j) => (List.range sb.ninodes).any fun d => (s.node sb d).any fun m =>
    m.type = T_DIR && (m.up = j ||
      m.up = i && (s.node sb i).any (fun n => n.nlink = 1) && (d ≠ j || (s.find j).isSome))

/-! ## Steps -/

theorem Edit.dir_kept {n' m' : Node} (h : Edit T T' i j n' m') (hi : T i = some n) (hn : n'.type = n.type)
    (h0 : n.nlink ≠ 0 → n'.nlink ≠ 0) (hj : ∀ p, T j = some p → p.type ≠ T_DIR) (x : ℕ) (p : Node) (hx : T x = some p)
    (hd : p.type = T_DIR) (hp : p.nlink ≠ 0) : ∃ q, T' x = some q ∧ q.type = T_DIR ∧ q.nlink ≠ 0 := by
  by_cases hxi : x = i
  · rw [hxi, hi] at hx
    cases hx
    exact ⟨n', hxi ▸ h.dir, hn.trans hd, h0 hp⟩
  have hxj : x ≠ j := by
    rintro rfl
    exact hj p hx hd
  exact ⟨p, (h.other x hxi hxj).trans hx, hd, hp⟩

theorem Parents.create (hp : Parents T) (hs : Sound N T) (h : Created sb type name T T' i j k n) (hN : sb.ninodes = N)
    (hroom : n.nlink.toNat + 1 < 2 ^ 16) : Parents T' := by
  obtain ⟨hi, hj⟩ := h.lt_bound hs hN
  have hdots := hs.dots i n h.dir h.isDir
  have hup : (n.linked k name type j).up = n.up := congrArg Dirent.inum
    (hdots.put (hdots.place (hs.pos h.dir) h.free) h.place (length_link name j) hj (fun _ => h.proper hs) n.nlink).2
  -- the directory i has not lost a link
  have hlinked : n.nlink ≠ 0 ∨ type = T_DIR → (n.linked k name type j).nlink ≠ 0 := fun h0 => by
    show (if type = T_DIR then n.nlink + 1 else n.nlink) ≠ 0
    split_ifs with ht
    · intro hc
      have := congrArg UInt16.toNat hc
      rw [toNat_add_one hroom] at this
      cases this
    · exact h0.resolve_right ht
  have hold := h.edit.dir_kept h.dir rfl (fun h0 => hlinked (Or.inl h0)) (by rw [h.fresh]; nofun)
  intro d m hd hdir
  rcases h.edit.cases hd with ⟨rfl, rfl⟩ | ⟨-, rfl, rfl⟩ | ⟨-, -, hd⟩
  · rw [Node.Homed, hup]
    obtain ⟨p, hp1, hp2, hp3⟩ := hp d n h.dir h.isDir
    exact hold _ p hp1 hp2 hp3
  · -- the new directory lies in i
    have ht : type = T_DIR := hdir
    have hnew : (newNode type d i).up = i := by
      show (entry (if type = T_DIR then newDir d i else []) 1).inum = i
      rw [if_pos ht, (entries_newDir hj hi).2.2]; rfl
    rw [Node.Homed, hnew]
    exact ⟨_, h.edit.dir, h.isDir, hlinked (Or.inr ht)⟩
  · obtain ⟨p, hp1, hp2, hp3⟩ := hp d m hd hdir
    exact hold _ p hp1 hp2 hp3

theorem Parents.link (hp : Parents T) (hs : Sound N T) (h : AddLink name T T' i j k n m) : Parents T' := by
  have hup : Node.up { n with bytes := putEntry n.bytes k (Fs.link name j) } = n.up := congrArg Dirent.inum
    (h.dots hs).2
  have hold := h.edit.dir_kept h.dir rfl id (by rw [h.file]; rintro _ ⟨⟩; exact h.notDir)
  intro d p hd hdir
  rcases h.edit.cases hd with ⟨rfl, rfl⟩ | ⟨-, rfl, rfl⟩ | ⟨-, -, hd⟩
  · rw [Node.Homed, hup]
    obtain ⟨q, h1, h2, h3⟩ := hp d n h.dir h.isDir
    exact hold _ q h1 h2 h3
  · exact absurd hdir h.notDir
  · obtain ⟨q, h1, h2, h3⟩ := hp d p hd hdir
    exact hold _ q h1 h2 h3

theorem DropLink.up_eq (h : DropLink name T T' i j k n m) (hs : Sound N T) {p : Node} (hd : T' d = some p)
    (hdir : p.type = T_DIR) : ∃ q, T d = some q ∧ q.type = T_DIR ∧ q.up = p.up := by
  rcases h.edit.cases hd with ⟨rfl, rfl⟩ | ⟨-, rfl, rfl⟩ | ⟨-, -, hd⟩
  · exact ⟨n, h.dir, h.isDir, congrArg Dirent.inum (h.dots hs n.nlink).2.symm⟩
  · exact ⟨m, h.node, hdir, rfl⟩
  · exact ⟨p, hd, hdir, rfl⟩

/-- an entry less: ".." of d named neither the inode that has lost its link nor a directory with no other link -/
theorem Parents.unlink (hp : Parents T) (hs : Sound N T) (h : DropLink name T T' i j k n m) {p : Node}
    (hd : T' d = some p) (hdir : p.type = T_DIR) (hup : m.type = T_DIR → p.up ≠ j ∧ (p.up = i → n.nlink ≠ 1)) :
    p.Homed T' := by
  obtain ⟨q, hq, hqd, hqu⟩ := h.up_eq hs hd hdir
  obtain ⟨r, h1, h2, h3⟩ := hp d q hq hqd
  rw [hqu] at h1
  by_cases hxi : p.up = i
  · rw [hxi, h.dir] at h1
    cases h1
    refine ⟨n.without k m.type, by rw [hxi]; exact h.edit.dir, h2, ?_⟩
    show (if m.type = T_DIR then n.nlink - 1 else n.nlink) ≠ 0
    split_ifs with hm
    · intro hc
      exact (hup hm).2 hxi (by rw [← UInt16.sub_add_cancel n.nlink 1, hc]; rfl)
    · exact h3
  · have hxj : p.up ≠ j := fun hxj => by
      rw [hxj, h.node] at h1
      cases h1
      exact (hup h2).1 hxj
    exact ⟨r, (h.edit.other _ hxi hxj).trans h1, h2, h3⟩

theorem homed_minor (h : Minor ok T T') (hp : ∀ p, T d = some p → p.type = T_DIR → p.Homed T) (p : Node)
    (hd : T' d = some p) (hdir : p.type = T_DIR) : p.Homed T' := by
  cases h with
  | @write j m hj hm l _ =>
    rcases node_write hd with ⟨rfl, rfl⟩ | hd
    · exact absurd hdir hm
    obtain ⟨q, h1, h2, h3⟩ := hp p hd hdir
    have hne : p.up ≠ j := by
      intro hc
      rw [hc, hj] at h1
      cases h1
      exact hm h2
    exact ⟨q, by rw [Function.update_of_ne hne]; exact h1, h2, h3⟩
  | @free j m hj h0 =>
    have hdj : d ≠ j := by
      rintro rfl
      rw [Function.update_self] at hd; cases hd
    rw [Function.update_of_ne hdj] at hd
    obtain ⟨q, h1, h2, h3⟩ := hp p hd hdir
    have hne : p.up ≠ j := by
      intro hc
      rw [hc, hj] at h1
      cases h1
      exact h3 h0
    exact ⟨q, by rw [Function.update_of_ne hne]; exact h1, h2, h3⟩

theorem minors_homed (h : Relation.ReflTransGen (Minor ok) T T')
    (hp : ∀ p, T d = some p → p.type = T_DIR → p.Homed T) : ∀ p, T' d = some p → p.type = T_DIR → p.Homed T' := by
  induction h with
  | refl => exact hp
  | tail _ hm ih => exact homed_minor hm ih

/-- a directory that is removed had one link -/
theorem DropLink.last (h : DropLink name T T' i j k n m) (hs : Sound N T) (hm : m.type = T_DIR) : m.nlink - 1 = 0 := by
  have hpos := h.naming_pos hs
  have hdir := hs.dir j m h.node hm
  have honce := hs.once j (isDir_iff.2 ⟨m, h.node, hm⟩)
  have hin : T.inside j = 0 := by rw [Tree.inside, h.kids_nil hs]; rfl
  have h1 : m.nlink.toNat = 1 := by omega
  rw [show m.nlink = 1 from UInt16.toNat_inj.1 h1]
  rfl

/-- a call that orphans no directory -/
theorem Idle.parents (hl : Layout sb) (h : Idle sb s) (hp : Parents (s.node sb)) (ha : (calls sb).legal s a)
    (hw : a.2.wraps sb s a.1 = false) (ho : a.2.orphans sb s a.1 = false) (hs : (calls sb).step s a = .ok t) :
    Parents (t.node sb) := by
  obtain ⟨-, T1, h1, h2⟩ := h.step hl ha hw hs
  intro d p hd hdir
  refine minors_homed h2 (fun q hq hqd => ?_) p hd hdir
  rcases h1 with rfl | h1
  · exact hp d q hq hqd
  cases h1 with
  | create hc _ =>
    have := h.sound.nlink_lt hc.dir hc.isDir (h.wf.node_size hc.dir)
    exact hp.create h.sound hc rfl (by omega) d q hq hqd
  | link hc _ => exact hp.link h.sound hc d q hq hqd
  | @unlink name i j k n m T1 hc hok =>
    refine hp.unlink h.sound hc hq hqd fun hm => ?_
    rw [Call.orphans, h.removes hc hm hok, Option.any_some, List.any_eq_false] at ho
    -- d is still there, so somebody uses it if it is what the call removes
    have huse : d = j → s.find j ≠ none := fun hdj hfind => by
      have := h.dropped hl ha hok hs h2 hc.edit.node (hc.last h.sound hm) hfind
      rw [← hdj, hd] at this; cases this
    obtain ⟨q0, hq0, hqd0, hup⟩ := hc.up_eq h.sound hq hqd
    have hno := ho d (List.mem_range.2 (h.sound.lt d q0 hq0))
    rw [hq0, Option.any_some, hc.dir, Option.any_some, hqd0, hup] at hno
    refine ⟨fun hc => hno (by simp [hc]), fun hi h1 => hno ?_⟩
    by_cases hdj : d = j
    · simp [hi, h1, Option.isSome_iff_ne_none.2 (huse hdj)]
    · simp [hi, h1, hdj]

/-! ## Runs -/

theorem Idle.safe (h : Idle sb s) (hp : Parents (s.node sb)) : Safe sb s := by
  refine ⟨h.calm, fun i n hn hd e he h0 => ?_, ?_⟩
  · obtain ⟨k, hk, rfl⟩ := mem_entries.1 he
    have hdots := h.sound.dots i n hn hd
    rcases (by omega : k = 0 ∨ k = 1 ∨ 2 ≤ k) with rfl | rfl | h2
    · rw [hdots.self, hn]; nofun
    · obtain ⟨q, hq, -⟩ := hp i n hn hd
      rw [show (entry n.bytes 1).inum = n.up from rfl, hq]; nofun
    · refine h.sound.named i _ ?_
      rw [kids_of hn, Node.kids, if_pos hd]
      exact List.mem_map.2 ⟨_, List.mem_filter.2 ⟨he, hdots.rest k h2 hk h0⟩, rfl⟩
  · obtain ⟨n, hn, -⟩ := h.sound.root
    rw [hn]; nofun

/-- **Lookups find inodes in use.** In every run of system calls in which no `link` wraps a link count and no `unlink`
takes the last link from a directory that the ".." of a directory in use names: no `ilock` finds a free inode, and in
every state every entry of every directory leads to an inode in use. -/
theorem lookup_in_use (hl : Layout sb) (h : Idle sb s) (hp : Parents (s.node sb)) (as : List (ℕ × Call))
    (hlegal : ((calls sb).restrict fun s a => a.2.wraps sb s a.1 = false ∧ a.2.orphans sb s a.1 = false).LegalRun s
      as) :
    (calls sb).run s as ≠ .error .ilockNoType ∧ ∀ t, (calls sb).run s as = .ok t →
      ∀ i n, t.node sb i = some n → n.type = T_DIR → ∀ e ∈ entries n.bytes, e.inum ≠ 0 → t.node sb e.inum ≠ none := by
  have hinv : ∀ {t}, ((calls sb).restrict fun s a => a.2.wraps sb s a.1 = false ∧ a.2.orphans sb s a.1 = false).Reach s
    t →
      Idle sb t ∧ Parents (t.node sb) := fun hr =>
    hr.inv (fun u => Idle sb u ∧ Parents (u.node sb)) ⟨h, hp⟩ fun u a v hu ha hs =>
      ⟨(hu.1.step hl ha.1 ha.2.1 hs).1, hu.1.parents hl hu.2 ha.1 ha.2.1 ha.2.2 hs⟩
  rw [← Machine.run_restrict]
  refine ⟨fun hr => ?_, fun t hr => ?_⟩
  · obtain ⟨-, a, -, t, -, -, hreach, ha, he⟩ := Machine.run_error_split hlegal hr
    obtain ⟨hi, hpar⟩ := hinv hreach
    exact hi.error hl ha.1 he (hi.safe hpar)
  · obtain ⟨hi, hpar⟩ := hinv ⟨as, hlegal, hr⟩
    exact (hi.safe hpar).named

theorem boot_parents : Parents (boot.node Ownership.tiny) := by
  rw [boot_node]
  intro d m hd _
  obtain ⟨rfl, rfl⟩ := rootOnly_some hd
  have hup : Node.up ⟨T_DIR, 1, newDir ROOTINO ROOTINO⟩ = ROOTINO :=
    congrArg Dirent.inum (entries_newDir (by decide) (by decide)).2.2
  rw [Node.Homed, hup]
  exact ⟨_, Function.update_self .., rfl, by decide⟩

/-- "/p" and "/p/d" -/
def pathP : List UInt8 := [47, 112]
def pathPD : List UInt8 := [47, 112, 47, 100]

/-- process 0 removes its current directory and leaves it -/
def leave : List (ℕ × Call) :=
  [(0, .mkdir (some pathP)), (0, .chdir (some pathP)), (0, .unlink (some pathP)), (0, .chdir (some DOTDOT))]

theorem lookup_in_use_leave : ∃ t, (calls Ownership.tiny).run boot leave = .ok t ∧
    ∀ i n, t.node Ownership.tiny i = some n → n.type = T_DIR → ∀ e ∈ entries n.bytes, e.inum ≠ 0 →
      t.node Ownership.tiny e.inum ≠ none := by
  obtain ⟨t, hlegal, hr, -⟩ := Machine.exists_run_of_steps (s := boot) (l := leave) (p := fun _ => true)
    (M := (calls Ownership.tiny).restrict fun s a => a.2.wraps Ownership.tiny s a.1 = false ∧
      a.2.orphans Ownership.tiny s a.1 = false) (by decide +kernel)
  rw [Machine.run_restrict] at hr
  exact ⟨t, hr, (lookup_in_use Ownership.tiny_layout boot_idle boot_parents _ hlegal).2 t hr⟩

/-- process 0 stays in /p/d while that directory and then /p are removed -/
def orphan : List (ℕ × Call) :=
  [(0, .mkdir (some pathP)), (0, .mkdir (some pathPD)), (0, .chdir (some pathPD)), (0, .unlink (some pathPD)),
    (0, .unlink (some pathP))]

/-- **The ".." of a removed directory leads to a free inode.** -/
theorem lookup_freed_parent : Idle Ownership.tiny boot ∧ Parents (boot.node Ownership.tiny) ∧
    ∃ as, (calls Ownership.tiny).LegalRun boot as ∧ (calls Ownership.tiny).run boot as = .error .ilockNoType :=
  ⟨boot_idle, boot_parents, orphan ++ [(0, .openPath (some DOTDOT) 0)], Machine.error_of_steps (by decide +kernel)⟩

end Xv6.Fs
