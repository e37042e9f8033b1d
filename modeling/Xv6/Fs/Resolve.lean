/-
Path resolution (kernel/fs.c: `skipelem`, `namex`, `namei`, `nameiparent`).

`names`: the components of a path, each cut to DIRSIZ characters. `reach` looks up components one after the other in a
tree of directories, and `reachParent` all but the last one.

- `walk_reach`, `walk_reachParent`: the loop of `namex`, whose early exit asks only whether the rest of the path is
  empty, computes them.
- `path_resolution` puts this together with what `namex` does to the state.
-/
import Xv6.Fs.Follow

namespace Xv6.Fs

open Xv6.Core

variable {sb : Superblock} {p i fuel : ℕ} {s t u : St} {T : Tree} {path name c : List UInt8} {cs : List (List UInt8)}

/-! ## Components -/

/-- the longest parts of a path without a slash -/
def components (path : List UInt8) : List (List UInt8) := (path.splitOn SLASH).filter (· ≠ [])

/-- the components, cut to DIRSIZ characters -/
def names (path : List UInt8) : List (List UInt8) := (components path).map fun c => c.take DIRSIZ

/-- the elements that `skipelem` gives, one after the other, until it returns 0 -/
inductive Iterates : List UInt8 → List (List UInt8) → Prop
  | done {path : List UInt8} (h : skipelem path = none) : Iterates path []
  | next {path name rest : List UInt8} {l : List (List UInt8)} (h : skipelem path = some (name, rest))
      (hrest : Iterates rest l) : Iterates path (name :: l)

theorem components_slash (path : List UInt8) : components (SLASH :: path) = components path := by
  unfold components List.splitOn
  rw [List.splitOnP_cons_eq_if_modifyHead, if_pos (by simp)]
  rfl

theorem components_skip (path : List UInt8) : components (path.dropWhile fun c => c = SLASH) = components path := by
  induction path with
  | nil => rfl
  | cons a path ih =>
    by_cases ha : a = SLASH
    · rw [ha, components_slash, List.dropWhile_cons_of_pos (by simp), ih]
    · rw [List.dropWhile_cons_of_neg (by simpa using ha)]

/-- after slashes have been skipped, the path is at its end or does not start with one -/
theorem skip_cases (path : List UInt8) : (path.dropWhile fun c => c = SLASH) = [] ∨
    ∃ a q, (path.dropWhile fun c => c = SLASH) = a :: q ∧ a ≠ SLASH := by
  have hhead := List.head?_dropWhile_not (fun c => decide (c = SLASH)) path
  generalize path.dropWhile (fun c => decide (c = SLASH)) = q at hhead
  cases q with
  | nil => exact Or.inl rfl
  | cons a q => exact Or.inr ⟨a, q, rfl, by simpa using hhead⟩

/-- a path that does not start with a slash starts with its first component -/
theorem components_cons {a : UInt8} (ha : a ≠ SLASH) (q : List UInt8) :
    components (a :: q) = ((a :: q).takeWhile fun c => c ≠ SLASH) ::
      components ((a :: q).dropWhile fun c => c ≠ SLASH) := by
  have hw : (a :: q).takeWhile (fun c => decide (c ≠ SLASH)) ≠ [] := by simp [ha]
  have hno : ∀ x ∈ (a :: q).takeWhile (fun c => decide (c ≠ SLASH)), (x == SLASH) = false := fun x hx => by
    simpa using List.mem_takeWhile_imp hx
  have happ := List.takeWhile_append_dropWhile (p := fun c => decide (c ≠ SLASH)) (l := a :: q)
  have hslash := List.head?_dropWhile_not (fun c => decide (c ≠ SLASH)) (a :: q)
  generalize (a :: q).takeWhile (fun c => decide (c ≠ SLASH)) = w at *
  generalize (a :: q).dropWhile (fun c => decide (c ≠ SLASH)) = r at *
  rw [← happ]
  cases r with
  | nil =>
    unfold components List.splitOn
    rw [List.append_nil, List.splitOnP_eq_singleton hno]
    simp [hw]
  | cons b r =>
    have hb : b = SLASH := by simpa using hslash
    rw [hb, components_slash]
    unfold components List.splitOn
    rw [List.splitOnP_append_cons_of_forall_mem hno SLASH (by simp) r, List.filter_cons_of_pos (by simpa using hw)]

/-- **One call of `skipelem`**: the first component, and a rest that has the other ones and is empty only if there are
none. -/
theorem skipelem_components (path : List UInt8) :
    components path = [] ∧ skipelem path = none ∨
    ∃ c rest, components path = c :: components rest ∧ skipelem path = some (c.take DIRSIZ, rest) ∧
      rest.length < path.length ∧ (rest = [] ↔ components rest = []) := by
  have hskip := components_skip path
  have hlen := List.length_dropWhile_le (fun c => decide (c = SLASH)) path
  rcases skip_cases path with hq | ⟨a, q, hq, ha⟩
  · left
    rw [hq] at hskip
    refine ⟨hskip.symm, ?_⟩
    unfold skipelem
    exact if_pos hq
  · right
    rw [hq] at hskip hlen
    have hcons := components_cons ha q
    set r := (a :: q).dropWhile fun c => decide (c ≠ SLASH) with hr
    have hrlen : r.length < (a :: q).length := by
      rw [hr, List.dropWhile_cons_of_pos (by simpa using ha)]
      exact Nat.lt_succ_of_le (List.length_dropWhile_le _ q)
    refine ⟨(a :: q).takeWhile fun c => decide (c ≠ SLASH), r.dropWhile fun c => decide (c = SLASH), ?_, ?_, ?_, ?_⟩
    · rw [components_skip r, ← hcons, hskip]
    · unfold skipelem
      simp only [hq]
      rw [if_neg (List.cons_ne_nil a q)]
    · have := List.length_dropWhile_le (fun c => decide (c = SLASH)) r
      omega
    · -- what follows the slashes starts with a component
      rcases skip_cases r with hnil | ⟨b, x, hx, hb⟩
      · rw [hnil]
        exact ⟨fun _ => rfl, fun _ => rfl⟩
      · rw [hx, components_cons hb x]
        simp

theorem iterates_names (path : List UInt8) : Iterates path (names path) := by
  induction hlen : path.length using Nat.strong_induction_on generalizing path with
  | _ n ih =>
    unfold names
    rcases skipelem_components path with ⟨hc, hs⟩ | ⟨c, rest, hc, hs, hlt, -⟩
    · rw [hc]
      exact .done hs
    · rw [hc]
      exact .next hs (ih rest.length (hlen ▸ hlt) rest rfl)

/-! ## The walk -/

/-- the inode that a directory of the tree has for a name -/
def Tree.child (T : Tree) (i : ℕ) (name : List UInt8) : Option ℕ :=
  (T i).bind fun n => if n.type = T_DIR then lookup n.bytes name else none

/-- look up names one after the other, from inode i on -/
def Tree.reach (T : Tree) : ℕ → List (List UInt8) → Option ℕ
  | i, [] => some i
  | i, c :: cs => (T.child i c).bind fun j => T.reach j cs

/-- the directory reached by all names but the last one, with the last one -/
def Tree.reachParent (T : Tree) (i : ℕ) (cs : List (List UInt8)) : Option (ℕ × List UInt8) :=
  cs.getLast?.bind fun c => (T.reach i cs.dropLast).bind fun j =>
    if (T j).any fun n => n.type = T_DIR then some (j, c) else none

theorem Tree.reach_append (T : Tree) (i : ℕ) (l l' : List (List UInt8)) :
    T.reach i (l ++ l') = (T.reach i l).bind fun j => T.reach j l' := by
  induction l generalizing i with
  | nil => rfl
  | cons c l ih =>
    show (T.child i c).bind _ = ((T.child i c).bind _).bind _
    rw [Option.bind_assoc]
    exact congrArg _ (funext ih)

theorem Tree.reachParent_concat (T : Tree) (i : ℕ) (l : List (List UInt8)) (c : List UInt8) :
    T.reachParent i (l ++ [c]) = (T.reach i l).bind fun j =>
      if (T j).any fun n => n.type = T_DIR then some (j, c) else none := by
  unfold Tree.reachParent
  rw [List.getLast?_concat, List.dropLast_concat]
  rfl

theorem Tree.reachParent_cons (T : Tree) (i : ℕ) (c : List UInt8) (h : cs ≠ []) :
    T.reachParent i (c :: cs) = (T.child i c).bind fun j => T.reachParent j cs := by
  rcases List.eq_nil_or_concat' cs with rfl | ⟨l, d, rfl⟩
  · exact absurd rfl h
  · simp only [← List.cons_append, Tree.reachParent_concat]
    exact Option.bind_assoc _ _ _

/-- the last name is looked up in the directory that the other ones lead to -/
theorem Tree.reach_of_parent (T : Tree) (i : ℕ) (h : cs ≠ []) :
    T.reach i cs = (T.reachParent i cs).bind fun x => T.child x.1 x.2 := by
  rcases List.eq_nil_or_concat' cs with rfl | ⟨l, c, rfl⟩
  · exact absurd rfl h
  rw [Tree.reach_append, Tree.reachParent_concat, Option.bind_assoc]
  congr 1
  funext j
  show (T.child j c).bind some = _
  rw [Option.bind_fun_some]
  split_ifs with hdir
  · rfl
  -- an inode that is no directory has no children
  cases hj : T j with
  | none => simp [Tree.child, hj]
  | some n =>
    have hty : n.type ≠ T_DIR := by simpa [hj] using hdir
    simp [Tree.child, hj, hty]

theorem walk_next (T : Tree) (parent : Bool) (i : ℕ) {rest : List UInt8} (h : skipelem path = some (c, rest)) :
    walk T parent (fuel + 1) path i name =
      if parent ∧ rest = [] then if (T i).any fun n => n.type = T_DIR then some (i, c) else none
      else (T.child i c).bind fun j => walk T parent fuel rest j c := by
  rw [walk, h]
  unfold Tree.child
  cases hi : T i with
  | none => simp
  | some n =>
    by_cases hty : n.type = T_DIR
    · simp only [hty, ne_eq, not_true_eq_false, if_false, Option.any_some, decide_true, if_true, Option.bind_some]
      congr 1
      cases lookup n.bytes c <;> rfl
    · simp [hty]

theorem walk_reach (T : Tree) (hf : path.length ≤ fuel) (i : ℕ) (name : List UInt8) :
    (walk T false fuel path i name).map Prod.fst = T.reach i (names path) := by
  induction fuel generalizing path i name with
  | zero =>
    cases List.length_eq_zero_iff.1 (Nat.le_zero.1 hf)
    rfl
  | succ fuel ih =>
    rcases skipelem_components path with ⟨hc, hs⟩ | ⟨c, rest, hc, hs, hlt, -⟩
    · unfold walk names
      rw [hc, hs]
      rfl
    · rw [walk_next T false i hs, if_neg (by simp), names, hc, Option.map_bind]
      show _ = (T.child i (c.take DIRSIZ)).bind fun j => T.reach j (names rest)
      congr 1
      funext j
      exact ih (by omega) j _

/-- the early exit is taken at the last component -/
theorem walk_reachParent (T : Tree) (hf : path.length ≤ fuel) (i : ℕ) (name : List UInt8) :
    walk T true fuel path i name = T.reachParent i (names path) := by
  induction fuel generalizing path i name with
  | zero =>
    cases List.length_eq_zero_iff.1 (Nat.le_zero.1 hf)
    rfl
  | succ fuel ih =>
    rcases skipelem_components path with ⟨hc, hs⟩ | ⟨c, rest, hc, hs, hlt, hlast⟩
    · unfold walk names
      rw [hc, hs]
      rfl
    rw [walk_next T true i hs, names, hc, List.map_cons]
    by_cases hr : rest = []
    · rw [if_pos ⟨rfl, hr⟩, hlast.1 hr]
      exact (T.reachParent_concat i [] (c.take DIRSIZ)).symm
    · rw [if_neg fun h => hr h.2, Tree.reachParent_cons]
      · congr 1
        funext j
        exact ih (by omega) j _
      · exact fun h => hr (hlast.2 (List.map_eq_nil_iff.1 h))

/-! ## `namei` and `nameiparent` -/

/-- the inode number of an entry of the table -/
def St.inum (s : St) (ip : ℕ) : ℕ := (s.inode ip).inum

theorem namei_reach (hl : Layout sb) (h : AtRest sb s p) (path : List UInt8) :
    Spec (namei sb p path) s (fun r t => t.node sb = s.node sb ∧
      r.map t.inum = Tree.reach (s.node sb) (startInum s p path) (names path)) (Stuck sb s) := by
  unfold namei
  refine Spec.bind (namex_returns hl h path false) ?_
  rintro r t ⟨⟨hq, hr⟩, -⟩
  refine Spec.pure ⟨h.calm.held.node hq, ?_⟩
  have hwalk := walk_reach (s.node sb) (le_refl path.length) (startInum s p path) []
  rw [← hwalk]
  show _ = (s.walk sb p path false).map Prod.fst
  cases r with
  | none => rw [hr.2 h.calm.held]; rfl
  | some x =>
    obtain ⟨i, hp, -, -, hw, -⟩ := hr
    rw [hw h.calm.held]
    exact congrArg some hp.2.2

theorem nameiparent_reach (hl : Layout sb) (h : AtRest sb s p) (path : List UInt8) :
    Spec (nameiparent sb p path) s (fun r t => t.node sb = s.node sb ∧
      r.map (fun x => (t.inum x.1, x.2)) = Tree.reachParent (s.node sb) (startInum s p path) (names path))
      (Stuck sb s) := by
  unfold nameiparent
  refine Spec.post (namex_returns hl h path true) ?_
  rintro r t ⟨⟨hq, hr⟩, -⟩
  refine ⟨h.calm.held.node hq, ?_⟩
  rw [← walk_reachParent (s.node sb) (le_refl path.length) (startInum s p path) []]
  show _ = s.walk sb p path true
  cases r with
  | none => rw [hr.2 h.calm.held]; rfl
  | some x =>
    obtain ⟨i, hp, -, -, hw, -⟩ := hr
    rw [hw h.calm.held]
    exact congrArg (fun j => some (j, x.2)) hp.2.2

/-- look up the last component in the directory that `nameiparent` returns -/
def lookParent (sb : Superblock) (p : ℕ) (path : List UInt8) : FsM (Option ℕ) := do
  match ← nameiparent sb p path with
  | none => return none
  | some (dp, name) =>
    ilock sb dp
    let r ← dirlookup sb dp name
    return r.map Prod.fst

theorem lookParent_reach (hl : Layout sb) (h : AtRest sb s p) (hpath : names path ≠ []) :
    Spec (lookParent sb p path) s (fun r t =>
      r.map t.inum = Tree.reach (s.node sb) (startInum s p path) (names path)) (Stuck sb s) := by
  rw [Tree.reach_of_parent _ _ hpath]
  unfold lookParent
  refine Spec.bind ((nameiparent_reach hl h path).and (namex_returns hl h path true)) ?_
  rintro r t ⟨⟨hnode, heq⟩, ⟨hq, hr⟩, hk⟩
  rw [← heq]
  cases r with
  | none => exact Spec.pure rfl
  | some x =>
    obtain ⟨dp, c⟩ := x
    obtain ⟨i, hp, hrefs, hdir, -, -⟩ := hr
    obtain ⟨n, hlive, hty⟩ := hdir rfl
    have hfree : (t.inode dp).locked = false := by
      have := (h.unlocked.congr hk.locks) dp hp.1
      simpa [St.locks] using this
    refine Spec.bind (ilock_loaded hq.wf hp ?_ ?_) ?_
    · intro h0
      rw [hlive.node] at h0
      cases h0
    · intro h1
      rw [hfree] at h1
      cases h1
    intro _ u hu
    have hlive' : Live sb u dp i n := ⟨hu.ptr, hu.valid, by rw [node_congr sb hu.blk]; exact hlive.node⟩
    refine Spec.bind (dirlookup_post hu.quiet.wf hlive' hty fun he => ?_) ?_
    · refine Or.inl ⟨rfl, fun hroom => hroom.empty dp (fun k hk => ?_) he⟩
      rw [hu.refs, hrefs, Pi.add_apply, Pi.single_eq_of_ne hk, Nat.add_zero]
    rintro y w ⟨hy, -⟩
    have hnum : t.inum dp = i := hp.2.2
    have hchild : Tree.child (s.node sb) i c = lookup n.bytes c := by
      unfold Tree.child
      rw [← hnode, hlive.node]
      exact if_pos hty
    refine Spec.pure ?_
    show (y.map Prod.fst).map w.inum = Tree.child (s.node sb) (t.inum dp) c
    rw [hnum, hchild]
    cases y with
    | none => rw [lookup_none hy.2]; rfl
    | some z =>
      obtain ⟨k, hk, -, hit, hfirst, hw⟩ := hy
      rw [lookup_some hk hit hfirst]
      exact congrArg some hw.ptr.2.2

/-- **Path resolution.** `skipelem`, called until it returns 0, gives the components of the path. `namei` returns the
inode reached by looking them up in order, from the root or the current directory, and 0 if one is missing or is
looked up in an inode that is no directory. `nameiparent` returns the directory reached by all but the last one,
with the last one in `name`; 0 if there is none. So `namei` is the lookup of `name` in the directory that
`nameiparent` returns. -/
theorem path_resolution :
    (∀ path, Iterates path (names path)) ∧
    ∀ sb s p, Layout sb → AtRest sb s p → ∀ path,
      Spec (namei sb p path) s (fun r t => t.node sb = s.node sb ∧
        r.map t.inum = Tree.reach (s.node sb) (startInum s p path) (names path)) (Stuck sb s) ∧
      Spec (nameiparent sb p path) s (fun r t => t.node sb = s.node sb ∧
        r.map (fun x => (t.inum x.1, x.2)) = Tree.reachParent (s.node sb) (startInum s p path) (names path))
        (Stuck sb s) ∧
      (names path ≠ [] → Spec (lookParent sb p path) s (fun r t => ∀ r' t', namei sb p path s = .ok (r', t') →
        r'.map t'.inum = r.map t.inum) (Stuck sb s)) := by
  refine ⟨iterates_names, fun sb s p hl h path => ⟨namei_reach hl h path, nameiparent_reach hl h path, fun hpath => ?_⟩⟩
  refine Spec.post (lookParent_reach hl h hpath) fun r t hr r' t' hrun => ?_
  rw [((namei_reach hl h path).ok hrun).2, hr]

theorem path_resolution_file : names ([47] ++ pathF ++ [47]) = [[102]] ∧ ∃ s, AtRest Ownership.tiny s 0 ∧
    Tree.reach (s.node Ownership.tiny) ROOTINO [[102]] = some 2 ∧
    Spec (namei Ownership.tiny 0 ([47] ++ pathF ++ [47])) s (fun r t => r.map t.inum = some 2)
      (Stuck Ownership.tiny s) := by
  have hnames : names ([47] ++ pathF ++ [47]) = [[102]] := by decide +kernel
  obtain ⟨s, hlegal, hr, hs⟩ := Machine.exists_run_of_steps (s := boot) (l := makeF)
    (p := fun s => decide (Tree.reach (s.node Ownership.tiny) ROOTINO [[102]] = some 2 ∧ (s.proc 0).cwd ≠ none))
    (M := (calls Ownership.tiny).restrict fun s a => a.2.wraps Ownership.tiny s a.1 = false) (by decide +kernel)
  have hreach : ((calls Ownership.tiny).restrict fun s a => a.2.wraps Ownership.tiny s a.1 = false).Reach boot s :=
    ⟨_, hlegal, hr⟩
  obtain ⟨hreached, hcwd⟩ := of_decide_eq_true hs
  have hrest : AtRest Ownership.tiny s 0 := (boot_idle.reach Ownership.tiny_layout hreach).atRest
    (reach_unlocked hreach.of_restrict (by decide +kernel)) hcwd
  refine ⟨hnames, s, hrest, hreached, ?_⟩
  refine Spec.post (path_resolution.2 _ s 0 Ownership.tiny_layout hrest _).1 fun r t ht => ?_
  rw [ht.2, hnames]
  exact hreached

end Xv6.Fs
