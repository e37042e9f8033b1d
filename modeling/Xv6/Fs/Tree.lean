/-
The directory tree as links between inodes.

A tree gives every inode number in use its node. `kids`: what the proper entries of a directory name (those other than
"." and ".."). The link count of a directory is `naming + inside`, plus one for the root.

- `Adds.naming`, `Adds.inside`: the counts of a tree with one proper entry more.
-/
import Xv6.Core.Counting
import Xv6.Fs.Create

namespace Xv6.Fs

open Xv6.Core

/-- a node for every inode in use -/
abbrev Tree := ℕ → Option Node

/-- an entry in use other than "." and ".." -/
def Dirent.proper (e : Dirent) : Bool := decide (e.inum ≠ 0) && !namecmp e.name DOT && !namecmp e.name DOTDOT

/-- the inodes that the proper entries of a directory name -/
def Node.kids (n : Node) : List ℕ :=
  if n.type = T_DIR then ((entries n.bytes).filter Dirent.proper).map Dirent.inum else []

namespace Tree

def kids (T : Tree) (i : ℕ) : List ℕ := ((T i).map Node.kids).getD []

def isDir (T : Tree) (i : ℕ) : Bool := (T i).any fun n => decide (n.type = T_DIR)

/-- the number of proper entries that name inode j -/
def naming (N : ℕ) (T : Tree) (j : ℕ) : ℕ := ∑ i ∈ Finset.range N, (T.kids i).count j

/-- the number of proper entries of directory i that name directories -/
def inside (T : Tree) (i : ℕ) : ℕ := (T.kids i).countP T.isDir

end Tree

variable {T T' : Tree} {N i j k x : ℕ} {n m : Node} {o : Option Node} {l name : List UInt8} {e : Dirent} {type : UInt16}
  {sb : Superblock}

/-! ## Counts and updates -/

theorem kids_of (h : T i = some n) : T.kids i = n.kids := by rw [Tree.kids, h]; rfl

theorem kids_none (h : T i = none) : T.kids i = [] := by rw [Tree.kids, h]; rfl

theorem isDir_of (h : T i = some n) : T.isDir i = decide (n.type = T_DIR) := by rw [Tree.isDir, h]; rfl

theorem isDir_iff : T.isDir i = true ↔ ∃ n, T i = some n ∧ n.type = T_DIR := by
  cases h : T i with
  | none => simp [Tree.isDir, h]
  | some n => simp [Tree.isDir, h]

theorem kids_file (h : n.type ≠ T_DIR) : n.kids = [] := by rw [Node.kids, if_neg h]

theorem mem_kids (hd : n.type = T_DIR) : j ∈ n.kids ↔
    ∃ k, k < n.bytes.length / DESIZE ∧ (entry n.bytes k).proper = true ∧ (entry n.bytes k).inum = j := by
  simp [Node.kids, hd, entries, and_assoc]

theorem naming_of_kids (hi : i < N) (h : ∀ y, y ≠ i → T'.kids y = T.kids y) :
    T'.naming N x + (T.kids i).count x = T.naming N x + (T'.kids i).count x :=
  sum_add_of_ne (fun y => (T.kids y).count x) (fun y => (T'.kids y).count x) hi fun y hy => by rw [h y hy]

theorem naming_pos (hi : i < N) (h : x ∈ T.kids i) : 0 < T.naming N x :=
  sum_pos_of (fun y => (T.kids y).count x) hi (List.count_pos_iff.2 h)

theorem exists_of_naming_pos (h : 0 < T.naming N x) : ∃ i, i < N ∧ x ∈ T.kids i := by
  by_contra hc
  refine h.ne' (Finset.sum_eq_zero fun i hi => ?_)
  rw [List.count_eq_zero]
  exact fun hx => hc ⟨i, Finset.mem_range.1 hi, hx⟩

theorem inside_pos (hx : x ∈ T.kids i) (hd : T.isDir x = true) : 0 < T.inside i := List.countP_pos_iff.2 ⟨x, hx, hd⟩

/-! ## One entry more -/

/-- T' has a proper entry more than T: one in directory i for inode j -/
structure Adds (T T' : Tree) (i j : ℕ) : Prop where
  kids : ∀ x, x ≠ i → T'.kids x = T.kids x
  kid : (T'.kids i).Perm (j :: T.kids i)

theorem Adds.mem (h : Adds T T' i j) {y : ℕ} : y ∈ T'.kids x ↔ y ∈ T.kids x ∨ x = i ∧ y = j := by
  by_cases hx : x = i
  · rw [hx, h.kid.mem_iff, List.mem_cons]; tauto
  · rw [h.kids x hx]; tauto

theorem Adds.naming (h : Adds T T' i j) (hi : i < N) : T'.naming N x = T.naming N x + if j = x then 1 else 0 := by
  have hk := naming_of_kids (x := x) hi h.kids
  rw [h.kid.count_eq, List.count_cons] at hk
  simp only [beq_iff_eq] at hk
  omega

theorem Adds.inside (h : Adds T T' i j) (hd : ∀ y, y ∈ T.kids x → T'.isDir y = T.isDir y) :
    T'.inside x = T.inside x + if x = i ∧ T'.isDir j = true then 1 else 0 := by
  have hcongr : (T.kids x).countP T'.isDir = T.inside x := List.countP_congr fun y hy => by rw [hd y hy]
  unfold Tree.inside at hcongr ⊢
  by_cases hx : x = i
  · subst hx
    rw [h.kid.countP_eq, List.countP_cons, hcongr]
    simp
  · rw [h.kids x hx, hcongr, if_neg fun hc => hx hc.1]; rfl

/-! ## Names -/

theorem namecmp_iff (p q : List UInt8) : namecmp p q = true ↔ cstr DIRSIZ p = cstr DIRSIZ q := strncmp_iff DIRSIZ p q

/-- a name that is not one of two entries is not equal to what those are called -/
theorem not_namecmp_of_absent (ha : ¬ Hit l name k) (h0 : (entry l k).inum ≠ 0) {d : List UInt8}
    (hd : namecmp (entry l k).name d = true) : namecmp name d = false := by
  rw [Bool.eq_false_iff]
  intro hc
  refine ha ⟨h0, ?_⟩
  rw [namecmp_iff] at hc hd ⊢
  rw [hc, hd]

theorem proper_link (hj : j ≠ 0) (h1 : namecmp name DOT = false) (h2 : namecmp name DOTDOT = false) :
    (link name j).proper = true := by
  have hcmp : ∀ d, namecmp (link name j).name d = namecmp name d := fun d => by
    rw [Bool.eq_iff_iff, namecmp_iff, namecmp_iff]
    show cstr DIRSIZ (strncpy DIRSIZ name) = _ ↔ _
    rw [cstr_strncpy]
  have hinum : (link name j).inum = j := rfl
  simp [Dirent.proper, hcmp, h1, h2, hinum, hj]

theorem not_proper_dot (j : ℕ) : (link DOT j).proper = false := by
  have : namecmp (link DOT j).name DOT = true := by show namecmp (strncpy DIRSIZ DOT) DOT = true; decide
  simp [Dirent.proper, this]

theorem not_proper_dotdot (j : ℕ) : (link DOTDOT j).proper = false := by
  have : namecmp (link DOTDOT j).name DOTDOT = true := by show namecmp (strncpy DIRSIZ DOTDOT) DOTDOT = true; decide
  simp [Dirent.proper, this]

/-- the entry that `sys_unlink` writes over another -/
def noEntry : Dirent := ⟨0, List.replicate DIRSIZ 0⟩

/-! ## One entry -/

theorem length_link (name : List UInt8) (j : ℕ) : (link name j).name.length = DIRSIZ := length_strncpy _ _

/-- a proper entry in a free place -/
theorem kids_add (hd : n.type = T_DIR) (hw : n.bytes.length % DESIZE = 0) (hk : k ≤ n.bytes.length / DESIZE)
    (hfree : k < n.bytes.length / DESIZE → (entry n.bytes k).inum = 0) (he : e.name.length = DIRSIZ)
    (hi : e.inum < 2 ^ 16) (hp : e.proper = true) (nlink : UInt16) :
    (Node.mk n.type nlink (putEntry n.bytes k e)).kids.Perm (e.inum :: n.kids) := by
  unfold Node.kids
  rw [if_pos hd, if_pos hd, entries_putEntry hw hk he hi, ← List.map_cons]
  refine List.Perm.map _ ?_
  split_ifs with hlt
  · have hlen : k < (entries n.bytes).length := by rwa [length_entries]
    have hnot : (entries n.bytes)[k].proper = false := by
      rw [getElem_entries]
      simp [Dirent.proper, hfree hlt]
    have h1 := (List.set_perm_cons_eraseIdx hlen e).filter Dirent.proper
    have h2 := (List.getElem_cons_eraseIdx_perm hlen).filter Dirent.proper
    rw [List.filter_cons_of_pos hp] at h1
    rw [List.filter_cons_of_neg (by rw [hnot]; decide)] at h2
    exact h1.trans (h2.cons e)
  · rw [List.filter_append, List.filter_singleton, hp]
    exact List.perm_append_comm

/-- a proper entry is cleared -/
theorem kids_clear (hd : n.type = T_DIR) (hw : n.bytes.length % DESIZE = 0) (hk : k < n.bytes.length / DESIZE)
    (hp : (entry n.bytes k).proper = true) (nlink : UInt16) :
    n.kids.Perm ((entry n.bytes k).inum :: (Node.mk n.type nlink (putEntry n.bytes k noEntry)).kids) := by
  unfold Node.kids
  rw [if_pos hd, if_pos hd, entries_putEntry hw hk.le (by simp [noEntry]) (by simp [noEntry]), if_pos hk,
    ← List.map_cons]
  refine List.Perm.map _ ?_
  have hlen : k < (entries n.bytes).length := by rwa [length_entries]
  have h1 := (List.set_perm_cons_eraseIdx hlen noEntry).filter Dirent.proper
  have h2 := (List.getElem_cons_eraseIdx_perm hlen).filter Dirent.proper
  rw [List.filter_cons_of_neg (by decide)] at h1
  rw [getElem_entries, List.filter_cons_of_pos hp] at h2
  exact h2.symm.trans (h1.symm.cons _)

theorem kids_newNode (hj : j < 2 ^ 16) (hi : i < 2 ^ 16) : (newNode type j i).kids = [] := by
  unfold Node.kids newNode
  simp only
  split_ifs with ht
  · have h0 : entries (putEntry [] 0 (link DOT j)) = [link DOT j] := by
      rw [entries_putEntry (l := []) rfl (Nat.zero_le _) (length_link _ _) hj]; rfl
    have hlen := length_putEntry_nil (link DOT j) (length_link _ _)
    have h1 : entries (newDir j i) = [link DOT j, link DOTDOT i] := by
      rw [newDir, entries_putEntry (by rw [hlen]; rfl) (by rw [hlen]; decide) (length_link _ _) hi, hlen, h0]; rfl
    rw [h1, List.filter_cons_of_neg (by rw [not_proper_dot]; decide),
      List.filter_cons_of_neg (by rw [not_proper_dotdot]; decide)]
    rfl
  · rfl

end Xv6.Fs
