/-
The shape of the directory tree.

`Sound`: every directory has its "." and "..", entries name inodes in use, the link count of a directory is the number
of entries that name it and of the directories in it, a directory is named at most once and its ".." names where, and a
file has at least as many links as names. Every change that the system calls make to the tree keeps this (`Sound.create`
.. `Sound.free`), as long as the 16 bit link count of a file does not wrap.
-/
import Xv6.Fs.Tree

namespace Xv6.Fs

open Xv6.Core

variable {T T' : Tree} {N i j k x : ℕ} {n m n' m' : Node} {o : Option Node} {l name : List UInt8} {e : Dirent}
  {type : UInt16} {sb : Superblock}

/-! ## The first two entries -/

/-- the directory i starts with "." and "..", and these names occur nowhere else -/
structure Dots (i : ℕ) (n : Node) : Prop where
  two : 2 ≤ n.bytes.length / DESIZE
  self : (entry n.bytes 0).inum = i
  up : (entry n.bytes 1).inum ≠ 0
  dot : namecmp (entry n.bytes 0).name DOT = true
  dotdot : namecmp (entry n.bytes 1).name DOTDOT = true
  rest : ∀ k, 2 ≤ k → k < n.bytes.length / DESIZE → (entry n.bytes k).inum ≠ 0 → (entry n.bytes k).proper = true

theorem Dots.place (h : Dots i n) (hi : i ≠ 0) (hfree : k < n.bytes.length / DESIZE → (entry n.bytes k).inum = 0) :
    2 ≤ k := by
  by_contra hk
  have hlt : k < n.bytes.length / DESIZE := by have := h.two; omega
  rcases (by omega : k = 0 ∨ k = 1) with rfl | rfl
  · exact hi (h.self ▸ hfree hlt)
  · exact h.up (hfree hlt)

theorem Dots.proper (h : Dots i n) (hi : i ≠ 0) (ha : ∀ x, x < n.bytes.length / DESIZE → ¬ Hit n.bytes name x)
    (hj : j ≠ 0) :
    (link name j).proper = true := by
  have h2 := h.two
  refine proper_link hj (not_namecmp_of_absent (ha 0 (by omega)) ?_ h.dot) (not_namecmp_of_absent (ha 1 h2)
    h.up h.dotdot)
  rw [h.self]; exact hi

theorem Dots.later (h : Dots i n) (hk : k < n.bytes.length / DESIZE) (hit : Hit n.bytes name k)
    (h1 : namecmp name DOT = false) (h2 : namecmp name DOTDOT = false) : 2 ≤ k ∧ (entry n.bytes k).proper = true := by
  have hne : 2 ≤ k := by
    by_contra hlt
    have hcmp := hit.2
    rcases (by omega : k = 0 ∨ k = 1) with rfl | rfl
    · have hd := h.dot
      rw [namecmp_iff] at hcmp hd
      rw [Bool.eq_false_iff] at h1
      exact h1 ((namecmp_iff _ _).2 (hcmp.trans hd))
    · have hd := h.dotdot
      rw [namecmp_iff] at hcmp hd
      rw [Bool.eq_false_iff] at h2
      exact h2 ((namecmp_iff _ _).2 (hcmp.trans hd))
  exact ⟨hne, h.rest k hne hk hit.1⟩

theorem Dots.put (h : Dots i n) (hk2 : 2 ≤ k) (hk : k ≤ n.bytes.length / DESIZE) (he : e.name.length = DIRSIZ)
    (hi : e.inum < 2 ^ 16) (hp : e.inum ≠ 0 → e.proper = true) (nlink : UInt16) :
    Dots i ⟨n.type, nlink, putEntry n.bytes k e⟩ ∧ entry (putEntry n.bytes k e) 1 = entry n.bytes 1 := by
  have hlen := length_putEntry hk he
  have hle : n.bytes.length / DESIZE ≤ (putEntry n.bytes k e).length / DESIZE :=
    Nat.div_le_div_right (by rw [hlen]; exact le_max_left _ _)
  have h2 := h.two
  have hent : ∀ x, x < (putEntry n.bytes k e).length / DESIZE →
      entry (putEntry n.bytes k e) x = if x = k then e else entry n.bytes x := fun x => entry_putEntry hk he hi
  have h0 : entry (putEntry n.bytes k e) 0 = entry n.bytes 0 := by rw [hent 0 (by omega), if_neg (by omega)]
  have h1 : entry (putEntry n.bytes k e) 1 = entry n.bytes 1 := by rw [hent 1 (by omega), if_neg (by omega)]
  refine ⟨⟨h2.trans hle, by rw [h0]; exact h.self, by rw [h1]; exact h.up, by rw [h0]; exact h.dot,
    by rw [h1]; exact h.dotdot, fun x hx hlt h0 => ?_⟩, h1⟩
  simp only at hlt h0 ⊢
  rw [hent x hlt] at h0 ⊢
  split_ifs at h0 ⊢ with hxk
  · exact hp h0
  refine h.rest x hx ?_ h0
  -- the place k is the only one that can be new
  have hkl : (k + 1) * DESIZE / DESIZE = k + 1 := Nat.mul_div_cancel _ (by decide)
  rcases max_choice n.bytes.length ((k + 1) * DESIZE) with hm | hm
  · rw [hlen, hm] at hlt; exact hlt
  · rw [hlen, hm, hkl] at hlt; omega

theorem whole_putEntry (hw : l.length % DESIZE = 0) (hk : k ≤ l.length / DESIZE) (he : e.name.length = DIRSIZ) :
    (putEntry l k e).length % DESIZE = 0 := by
  rw [length_putEntry hk he]
  rcases max_choice l.length ((k + 1) * DESIZE) with h | h
  · rw [h]; exact hw
  · rw [h]; exact Nat.mul_mod_left _ _

theorem entries_newDir (hj : j < 2 ^ 16) (hi : i < 2 ^ 16) :
    (newDir j i).length = 2 * DESIZE ∧ entry (newDir j i) 0 = link DOT j ∧ entry (newDir j i) 1 = link DOTDOT i := by
  have hlen := length_putEntry_nil (link DOT j) (length_link _ _)
  have h1 : 1 ≤ (putEntry [] 0 (link DOT j)).length / DESIZE := by rw [hlen]; decide
  have hlen2 : (newDir j i).length = 2 * DESIZE := by
    rw [newDir, length_putEntry h1 (length_link _ _), hlen]; rfl
  have hent : ∀ x, x < 2 → entry (newDir j i) x =
      if x = 1 then link DOTDOT i else entry (putEntry [] 0 (link DOT j)) x := fun x hx =>
    entry_putEntry h1 (length_link _ _) hi (by
      show x < (newDir j i).length / DESIZE
      rw [hlen2]; exact hx)
  refine ⟨hlen2, ?_, ?_⟩
  · rw [hent 0 (by omega), if_neg (by omega), entry_putEntry (Nat.zero_le _) (length_link _ _) hj
      (by rw [hlen]; decide),
      if_pos rfl]
  · rw [hent 1 (by omega), if_pos rfl]

theorem dots_newNode (hj : j < 2 ^ 16) (hi : i < 2 ^ 16) (hi0 : i ≠ 0) (ht : type = T_DIR) :
    Dots j (newNode type j i) := by
  obtain ⟨hlen, h0, h1⟩ := entries_newDir hj hi
  have hb : (newNode type j i).bytes = newDir j i := by simp [newNode, ht]
  refine ⟨by rw [hb, hlen]; decide, by rw [hb, h0]; rfl, by rw [hb, h1]; exact hi0, ?_, ?_, fun k hk hlt => ?_⟩
  · rw [hb, h0]; show namecmp (strncpy DIRSIZ DOT) DOT = true; decide
  · rw [hb, h1]; show namecmp (strncpy DIRSIZ DOTDOT) DOTDOT = true; decide
  · rw [hb, hlen, Nat.mul_div_cancel _ (by decide)] at hlt
    omega

/-! ## Sound trees -/

/-- each directory by itself -/
structure Shape (N : ℕ) (T : Tree) : Prop where
  bound : N ≤ 2 ^ 16
  zero : T 0 = none
  lt : ∀ i n, T i = some n → i < N
  whole : ∀ i n, T i = some n → n.type = T_DIR → n.bytes.length % DESIZE = 0
  dots : ∀ i n, T i = some n → n.type = T_DIR → Dots i n
  root : ∃ n, T ROOTINO = some n ∧ n.type = T_DIR ∧ (entry n.bytes 1).inum = ROOTINO

/-- and the links between them -/
structure Sound (N : ℕ) (T : Tree) : Prop extends Shape N T where
  named : ∀ i j, j ∈ T.kids i → T j ≠ none
  dir : ∀ i n, T i = some n → n.type = T_DIR →
    n.nlink.toNat = T.naming N i + T.inside i + if i = ROOTINO then 1 else 0
  once : ∀ i, T.isDir i = true → T.naming N i + (if i = ROOTINO then 1 else 0) ≤ 1
  file : ∀ i n, T i = some n → n.type ≠ T_DIR → T.naming N i ≤ n.nlink.toNat
  up : ∀ i j m, j ∈ T.kids i → T j = some m → m.type = T_DIR → (entry m.bytes 1).inum = i

theorem Sound.naming_none (h : Sound N T) (hj : T j = none) : T.naming N j = 0 := by
  by_contra hc
  obtain ⟨i, -, hm⟩ := exists_of_naming_pos (Nat.pos_of_ne_zero hc)
  exact h.named i j hm hj

theorem Shape.pos (h : Shape N T) (hi : T i = some n) : i ≠ 0 := by
  rintro rfl
  rw [h.zero] at hi; cases hi

theorem Sound.mem_lt (h : Sound N T) (hm : j ∈ T.kids i) : i < N := by
  cases hi : T i with
  | none => rw [kids_none hi] at hm; cases hm
  | some n => exact h.lt i n hi

/-- an inode without links is not named, and if it is a directory it holds none -/
theorem Sound.unnamed (h : Sound N T) (hi : T i = some n) (h0 : n.nlink = 0) :
    T.naming N i = 0 ∧ T.inside i = 0 ∧ i ≠ ROOTINO := by
  have hz : n.nlink.toNat = 0 := by rw [h0]; rfl
  by_cases hd : n.type = T_DIR
  · have := h.dir i n hi hd
    by_cases hr : i = ROOTINO
    · rw [if_pos hr] at this; omega
    · rw [if_neg hr] at this
      exact ⟨by omega, by omega, hr⟩
  · refine ⟨by have := h.file i n hi hd; omega, ?_, ?_⟩
    · rw [Tree.inside, kids_of hi, kids_file hd]; rfl
    · rintro rfl
      obtain ⟨n', hn', hd', -⟩ := h.root
      rw [hi] at hn'
      cases hn'
      exact hd hd'

/-- a directory has far fewer links than its count can hold -/
theorem Sound.nlink_lt (h : Sound N T) (hi : T i = some n) (hd : n.type = T_DIR)
    (hsize : n.bytes.length ≤ MAXFILE * BSIZE) : n.nlink.toNat < 20000 := by
  have h1 := h.dir i n hi hd
  have h2 := h.once i (isDir_iff.2 ⟨n, hi, hd⟩)
  have h3 : T.inside i ≤ n.bytes.length / DESIZE := by
    unfold Tree.inside
    rw [kids_of hi, Node.kids, if_pos hd]
    refine List.countP_le_length.trans ?_
    rw [List.length_map]
    refine List.length_filter_le _ _ |>.trans ?_
    rw [length_entries]
  have h4 : n.bytes.length / DESIZE ≤ 17152 := Nat.div_le_of_le_mul (by simpa [MAXFILE, NDIRECT, NINDIRECT, BSIZE,
    DESIZE] using hsize)
  omega

/-! ## The changes -/

/-- the nodes i and j have changed -/
structure Edit (T T' : Tree) (i j : ℕ) (n' m' : Node) : Prop where
  dir : T' i = some n'
  node : T' j = some m'
  other : ∀ x, x ≠ i → x ≠ j → T' x = T x

theorem Edit.of_eq (hne : i ≠ j) (h : T' = Function.update (Function.update T j (some m')) i (some n')) :
    Edit T T' i j n' m' := by
  refine ⟨?_, ?_, fun x hi hj => ?_⟩
  · rw [h, Function.update_self]
  · rw [h, Function.update_of_ne hne.symm, Function.update_self]
  · rw [h, Function.update_of_ne hi, Function.update_of_ne hj]

theorem Edit.ne_none (h : Edit T T' i j n' m') (hx : T x ≠ none) : T' x ≠ none := by
  by_cases hi : x = i
  · rw [hi, h.dir]; nofun
  by_cases hj : x = j
  · rw [hj, h.node]; nofun
  rw [h.other x hi hj]
  exact hx

theorem Edit.cases {p : Node} (h : Edit T T' i j n' m') (hx : T' x = some p) :
    (x = i ∧ p = n') ∨ (x ≠ i ∧ x = j ∧ p = m') ∨ (x ≠ i ∧ x ≠ j ∧ T x = some p) := by
  by_cases hi : x = i
  · rw [hi, h.dir] at hx
    exact Or.inl ⟨hi, (Option.some.inj hx).symm⟩
  · by_cases hj : x = j
    · rw [hj, h.node] at hx
      exact Or.inr (Or.inl ⟨hi, hj, (Option.some.inj hx).symm⟩)
    · rw [h.other x hi hj] at hx
      exact Or.inr (Or.inr ⟨hi, hj, hx⟩)

/-- a directory i whose first two entries stay, and an inode j other than the root -/
theorem Shape.edit (hs : Shape N T) (h : Edit T T' i j n' m') (hi : T i = some n) (hd' : n'.type = T_DIR)
    (hw : n'.bytes.length % DESIZE = 0) (hdots : Dots i n') (hup : entry n'.bytes 1 = entry n.bytes 1)
    (hj : j < N) (hj0 : j ≠ 0) (hjr : j ≠ ROOTINO)
    (hm : m'.type = T_DIR → m'.bytes.length % DESIZE = 0 ∧ Dots j m') : Shape N T' := by
  refine ⟨hs.bound, ?_, fun x p hx => ?_, fun x p hx hd => ?_, fun x p hx hd => ?_, ?_⟩
  · rw [h.other 0 (hs.pos hi).symm hj0.symm]; exact hs.zero
  · rcases h.cases hx with ⟨rfl, -⟩ | ⟨-, rfl, -⟩ | ⟨-, -, hx⟩
    · exact hs.lt x n hi
    · exact hj
    · exact hs.lt x p hx
  · rcases h.cases hx with ⟨-, rfl⟩ | ⟨-, -, rfl⟩ | ⟨-, -, hx⟩
    · exact hw
    · exact (hm hd).1
    · exact hs.whole x p hx hd
  · rcases h.cases hx with ⟨rfl, rfl⟩ | ⟨-, rfl, rfl⟩ | ⟨-, -, hx⟩
    · exact hdots
    · exact (hm hd).2
    · exact hs.dots x p hx hd
  · obtain ⟨p, hp, hpd, hpu⟩ := hs.root
    by_cases hri : ROOTINO = i
    · rw [hri, hi] at hp
      cases hp
      exact ⟨n', hri ▸ h.dir, hd', by rw [hup]; exact hpu⟩
    · exact ⟨p, (h.other _ hri hjr.symm).trans hp, hpd, hpu⟩

/-- inode j, a file, has a link more: entry k of the directory i -/
structure AddLink (name : List UInt8) (T T' : Tree) (i j k : ℕ) (n m : Node) : Prop where
  dir : T i = some n
  isDir : n.type = T_DIR
  file : T j = some m
  notDir : m.type ≠ T_DIR
  place : k ≤ n.bytes.length / DESIZE
  free : k < n.bytes.length / DESIZE → (entry n.bytes k).inum = 0
  absent : ∀ x, x < n.bytes.length / DESIZE → ¬ Hit n.bytes name x
  eq : T' = Function.update (Function.update T j (some { m with nlink := m.nlink + 1 })) i
    (some { n with bytes := putEntry n.bytes k (link name j) })

/-- inode j has lost its link in entry k of the directory i -/
structure DropLink (name : List UInt8) (T T' : Tree) (i j k : ℕ) (n m : Node) : Prop where
  dir : T i = some n
  isDir : n.type = T_DIR
  node : T j = some m
  ne : i ≠ j
  place : k < n.bytes.length / DESIZE
  hit : Hit n.bytes name k
  target : (entry n.bytes k).inum = j
  notDot : namecmp name DOT = false
  notDotDot : namecmp name DOTDOT = false
  empty : m.type = T_DIR → ∀ x, 2 ≤ x → x < m.bytes.length / DESIZE → (entry m.bytes x).inum = 0
  eq : T' = Function.update (Function.update T i (some { n with
      nlink := if m.type = T_DIR then n.nlink - 1 else n.nlink, bytes := putEntry n.bytes k noEntry })) j
    (some { m with nlink := m.nlink - 1 })

theorem toNat_add_one {a : UInt16} (h : a.toNat + 1 < 2 ^ 16) : (a + 1).toNat = a.toNat + 1 := by
  rw [UInt16.toNat_add]
  exact Nat.mod_eq_of_lt h

theorem toNat_sub_one {a : UInt16} (h : 0 < a.toNat) : (a - 1).toNat = a.toNat - 1 :=
  UInt16.toNat_sub_of_le _ _ (UInt16.le_iff_toNat_le.2 h)

/-! ### A new inode -/

theorem Created.ne (h : Created sb type name T T' i j k n) : i ≠ j := by
  rintro rfl
  have := h.dir
  rw [h.fresh] at this; cases this

theorem Created.edit (h : Created sb type name T T' i j k n) :
    Edit T T' i j (n.linked k name type j) (newNode type j i) :=
  .of_eq h.ne h.eq

/-- the new entry has another name than "." and ".." -/
theorem Created.proper (h : Created sb type name T T' i j k n) (hs : Sound N T) : (link name j).proper = true :=
  (hs.dots i n h.dir h.isDir).proper (hs.pos h.dir) h.absent h.pos.ne'

theorem Created.lt_bound (h : Created sb type name T T' i j k n) (hs : Sound N T) (hN : sb.ninodes = N) :
    i < 2 ^ 16 ∧ j < 2 ^ 16 := by
  have := hs.bound
  have := hs.lt i n h.dir
  have := h.lt
  omega

theorem Created.adds (h : Created sb type name T T' i j k n) (hs : Sound N T) (hN : sb.ninodes = N) :
    Adds T T' i j := by
  obtain ⟨hi, hj⟩ := h.lt_bound hs hN
  refine ⟨fun x hx => ?_, ?_⟩
  · by_cases hxj : x = j
    · rw [hxj, kids_of h.edit.node, kids_newNode hj hi, kids_none h.fresh]
    · unfold Tree.kids
      rw [h.edit.other x hx hxj]
  · rw [kids_of h.edit.dir, kids_of h.dir]
    exact kids_add h.isDir (hs.whole i n h.dir h.isDir) h.place h.free (length_link _ _) hj (h.proper hs) _

theorem Created.isDir_eq (h : Created sb type name T T' i j k n) {y : ℕ} (hy : y ≠ j) : T'.isDir y = T.isDir y := by
  by_cases hyi : y = i
  · rw [hyi, isDir_of h.edit.dir, isDir_of h.dir]; rfl
  · unfold Tree.isDir
    rw [h.edit.other y hyi hy]

theorem Created.inside (h : Created sb type name T T' i j k n) (hs : Sound N T) (hN : sb.ninodes = N) :
    T'.inside x = T.inside x + if x = i ∧ type = T_DIR then 1 else 0 := by
  have hd : T'.isDir j = decide (type = T_DIR) := isDir_of h.edit.node
  rw [(h.adds hs hN).inside fun y hy => h.isDir_eq ?_, hd]
  · simp only [decide_eq_true_eq]
  · rintro rfl
    exact hs.named x y hy h.fresh

theorem Created.ne_root (h : Created sb type name T T' i j k n) (hs : Sound N T) : j ≠ ROOTINO := by
  rintro rfl
  obtain ⟨m, hm, -⟩ := hs.root
  rw [h.fresh] at hm; cases hm

theorem Created.shape (h : Created sb type name T T' i j k n) (hs : Sound N T) (hN : sb.ninodes = N) : Shape N T' := by
  obtain ⟨hi, hj⟩ := h.lt_bound hs hN
  have hdots := hs.dots i n h.dir h.isDir
  obtain ⟨hput, hup⟩ := hdots.put (hdots.place (hs.pos h.dir) h.free) h.place (length_link name j) hj
    (fun _ => h.proper hs) (n.linked k name type j).nlink
  refine hs.toShape.edit h.edit h.dir h.isDir ?_ hput hup (hN ▸ h.lt) h.pos.ne' (h.ne_root hs) fun ht => ?_
  · exact whole_putEntry (hs.whole i n h.dir h.isDir) h.place (length_link _ _)
  · refine ⟨?_, dots_newNode hj hi (hs.pos h.dir) ht⟩
    have ht : type = T_DIR := ht
    show (if type = T_DIR then newDir j i else []).length % DESIZE = 0
    rw [if_pos ht, (entries_newDir hj hi).1]; rfl

theorem Sound.create (hs : Sound N T) (h : Created sb type name T T' i j k n) (hN : sb.ninodes = N)
    (hsize : n.bytes.length ≤ MAXFILE * BSIZE) : Sound N T' := by
  have hadds := h.adds hs hN
  obtain ⟨hi16, hj16⟩ := h.lt_bound hs hN
  have hnaming := fun x => hadds.naming (x := x) (hs.lt i n h.dir)
  have hnj : T.naming N j = 0 := hs.naming_none h.fresh
  have hjr := h.ne_root hs
  have hlt := hs.nlink_lt h.dir h.isDir hsize
  have hdots := hs.dots i n h.dir h.isDir
  refine ⟨h.shape hs hN, fun x y hy => ?_, fun x p hx hd => ?_, fun x hd => ?_, fun x p hx hd => ?_,
    fun x y p hy hp hd => ?_⟩
  · rcases hadds.mem.1 hy with hy | ⟨-, rfl⟩
    · exact h.edit.ne_none (hs.named x y hy)
    · rw [h.edit.node]; nofun
  · rw [hnaming, h.inside hs hN]
    rcases h.edit.cases hx with ⟨rfl, rfl⟩ | ⟨hxi, rfl, rfl⟩ | ⟨hxi, hxj, hx⟩
    · have := hs.dir x n h.dir h.isDir
      rw [if_neg h.ne.symm]
      by_cases ht : type = T_DIR
      · rw [if_pos ⟨rfl, ht⟩]
        show (if type = T_DIR then n.nlink + 1 else n.nlink).toNat = _
        rw [if_pos ht, toNat_add_one (by omega)]
        omega
      · rw [if_neg fun hc => ht hc.2]
        show (if type = T_DIR then n.nlink + 1 else n.nlink).toNat = _
        rw [if_neg ht]
        omega
    · have hin : T.inside x = 0 := by rw [Tree.inside, kids_none h.fresh]; rfl
      rw [hnj, hin, if_pos rfl, if_neg fun hc => hxi hc.1, if_neg hjr]; rfl
    · rw [if_neg (Ne.symm hxj), if_neg fun hc => hxi hc.1]
      exact hs.dir x p hx hd
  · rw [hnaming]
    by_cases hxj : x = j
    · rw [hxj, hnj, if_pos rfl, if_neg hjr]
    · rw [if_neg (Ne.symm hxj)]
      rw [h.isDir_eq hxj] at hd
      exact hs.once x hd
  · rw [hnaming]
    rcases h.edit.cases hx with ⟨rfl, rfl⟩ | ⟨-, rfl, rfl⟩ | ⟨hxi, hxj, hx⟩
    · exact absurd h.isDir hd
    · rw [hnj, if_pos rfl]; exact le_rfl
    · rw [if_neg (Ne.symm hxj)]; exact hs.file x p hx hd
  · rcases hadds.mem.1 hy with hy | ⟨rfl, rfl⟩
    · rcases h.edit.cases hp with ⟨rfl, rfl⟩ | ⟨-, rfl, -⟩ | ⟨-, -, hp⟩
      · have hup := (hdots.put (hdots.place (hs.pos h.dir) h.free) h.place (length_link name j) hj16
          (fun _ => h.proper hs) n.nlink).2
        show (entry (putEntry n.bytes k (link name j)) 1).inum = x
        rw [hup]
        exact hs.up x y n hy h.dir h.isDir
      · exact absurd h.fresh (hs.named x y hy)
      · exact hs.up x y p hy hp hd
    · rw [h.edit.node] at hp
      cases hp
      have ht : type = T_DIR := hd
      show (entry (if type = T_DIR then newDir y x else []) 1).inum = x
      rw [if_pos ht, (entries_newDir hj16 hi16).2.2]; rfl

/-! ### A link more -/

theorem AddLink.ne (h : AddLink name T T' i j k n m) : i ≠ j := by
  rintro rfl
  have := h.dir
  rw [h.file] at this
  cases this
  exact h.notDir h.isDir

theorem AddLink.edit (h : AddLink name T T' i j k n m) : Edit T T' i j
    { n with bytes := putEntry n.bytes k (link name j) } { m with nlink := m.nlink + 1 } :=
  .of_eq h.ne h.eq

theorem AddLink.proper (h : AddLink name T T' i j k n m) (hs : Sound N T) : (link name j).proper = true :=
  (hs.dots i n h.dir h.isDir).proper (hs.pos h.dir) h.absent (hs.pos h.file)

theorem AddLink.adds (h : AddLink name T T' i j k n m) (hs : Sound N T) : Adds T T' i j := by
  have hj : j < 2 ^ 16 := (hs.lt j m h.file).trans_le hs.bound
  refine ⟨fun x hx => ?_, ?_⟩
  · by_cases hxj : x = j
    · rw [hxj, kids_of h.edit.node, kids_of h.file]; rfl
    · unfold Tree.kids
      rw [h.edit.other x hx hxj]
  · rw [kids_of h.edit.dir, kids_of h.dir]
    exact kids_add h.isDir (hs.whole i n h.dir h.isDir) h.place h.free (length_link _ _) hj (h.proper hs) _

theorem Edit.isDir_eq (h : Edit T T' i j n' m') (hi : T i = some n) (hj : T j = some m)
    (hn : n'.type = n.type) (hm : m'.type = m.type) : T'.isDir = T.isDir := by
  funext y
  by_cases hyi : y = i
  · rw [hyi, isDir_of h.dir, isDir_of hi, hn]
  · by_cases hyj : y = j
    · rw [hyj, isDir_of h.node, isDir_of hj, hm]
    · unfold Tree.isDir
      rw [h.other y hyi hyj]

theorem AddLink.isDir_eq (h : AddLink name T T' i j k n m) : T'.isDir = T.isDir :=
  h.edit.isDir_eq h.dir h.file rfl rfl

theorem AddLink.inside (h : AddLink name T T' i j k n m) (hs : Sound N T) : T'.inside x = T.inside x := by
  have hj : T'.isDir j ≠ true := by rw [isDir_of h.edit.node]; simpa using h.notDir
  rw [(h.adds hs).inside fun y _ => by rw [h.isDir_eq], if_neg fun hc => hj hc.2]; rfl

theorem AddLink.ne_root (h : AddLink name T T' i j k n m) (hs : Sound N T) : j ≠ ROOTINO := by
  rintro rfl
  obtain ⟨p, hp, hd, -⟩ := hs.root
  rw [h.file] at hp
  cases hp
  exact h.notDir hd

theorem AddLink.dots (h : AddLink name T T' i j k n m) (hs : Sound N T) :
    Dots i { n with bytes := putEntry n.bytes k (link name j) } ∧
      entry (putEntry n.bytes k (link name j)) 1 = entry n.bytes 1 := by
  have hdots := hs.dots i n h.dir h.isDir
  exact hdots.put (hdots.place (hs.pos h.dir) h.free) h.place (length_link name j)
    ((hs.lt j m h.file).trans_le hs.bound) (fun _ => h.proper hs) n.nlink

theorem Sound.link (hs : Sound N T) (h : AddLink name T T' i j k n m) (hwrap : m.nlink + 1 ≠ 0) : Sound N T' := by
  have hadds := h.adds hs
  have hnaming := fun x => hadds.naming (x := x) (hs.lt i n h.dir)
  obtain ⟨hdots, hup⟩ := h.dots hs
  have hshape : Shape N T' := hs.toShape.edit h.edit h.dir h.isDir
    (whole_putEntry (hs.whole i n h.dir h.isDir) h.place (length_link _ _)) hdots hup (hs.lt j m h.file)
    (hs.pos h.file) (h.ne_root hs) fun hd => absurd hd h.notDir
  refine ⟨hshape, fun x y hy => ?_, fun x p hx hd => ?_, fun x hd => ?_, fun x p hx hd => ?_,
    fun x y p hy hp hd => ?_⟩
  · rcases hadds.mem.1 hy with hy | ⟨-, rfl⟩
    · exact h.edit.ne_none (hs.named x y hy)
    · rw [h.edit.node]; nofun
  · rw [hnaming, h.inside hs]
    rcases h.edit.cases hx with ⟨rfl, rfl⟩ | ⟨-, -, rfl⟩ | ⟨-, hxj, hx⟩
    · rw [if_neg h.ne.symm]; exact hs.dir x n h.dir h.isDir
    · exact absurd hd h.notDir
    · rw [if_neg (Ne.symm hxj)]; exact hs.dir x p hx hd
  · rw [h.isDir_eq] at hd
    have hxj : j ≠ x := by
      rintro rfl
      rw [isDir_of h.file] at hd
      exact h.notDir (by simpa using hd)
    rw [hnaming, if_neg hxj]; exact hs.once x hd
  · rw [hnaming]
    rcases h.edit.cases hx with ⟨rfl, rfl⟩ | ⟨-, rfl, rfl⟩ | ⟨-, hxj, hx⟩
    · exact absurd h.isDir hd
    · have := hs.file x m h.file h.notDir
      have hlt : m.nlink.toNat + 1 < 2 ^ 16 := by
        by_contra hc
        have : m.nlink.toNat < 2 ^ 16 := m.nlink.toNat_lt
        refine hwrap (UInt16.toNat_inj.1 ?_)
        rw [UInt16.toNat_add]
        show (m.nlink.toNat + 1) % 2 ^ 16 = 0
        omega
      rw [if_pos rfl]
      simp only
      rw [toNat_add_one hlt]
      omega
    · rw [if_neg (Ne.symm hxj)]; exact hs.file x p hx hd
  · rcases h.edit.cases hp with ⟨rfl, rfl⟩ | ⟨-, -, rfl⟩ | ⟨-, hyj, hp⟩
    · rcases hadds.mem.1 hy with hy | ⟨-, hyj⟩
      · simp only
        rw [hup]
        exact hs.up x y n hy h.dir h.isDir
      · exact absurd hyj h.ne
    · exact absurd hd h.notDir
    · rcases hadds.mem.1 hy with hy | ⟨-, hyj'⟩
      · exact hs.up x y p hy hp hd
      · exact absurd hyj' hyj

/-! ### A link less -/

theorem DropLink.edit (h : DropLink name T T' i j k n m) : Edit T T' i j
    { n with nlink := if m.type = T_DIR then n.nlink - 1 else n.nlink, bytes := putEntry n.bytes k noEntry }
    { m with nlink := m.nlink - 1 } := by
  refine ⟨?_, ?_, fun x hi hj => ?_⟩
  · rw [h.eq, Function.update_of_ne h.ne, Function.update_self]
  · rw [h.eq, Function.update_self]
  · rw [h.eq, Function.update_of_ne hj, Function.update_of_ne hi]

theorem DropLink.later (h : DropLink name T T' i j k n m) (hs : Sound N T) :
    2 ≤ k ∧ (entry n.bytes k).proper = true :=
  (hs.dots i n h.dir h.isDir).later h.place h.hit h.notDot h.notDotDot

theorem DropLink.adds (h : DropLink name T T' i j k n m) (hs : Sound N T) : Adds T' T i j := by
  refine ⟨fun x hx => ?_, ?_⟩
  · by_cases hxj : x = j
    · rw [hxj, kids_of h.edit.node, kids_of h.node]; rfl
    · unfold Tree.kids
      rw [h.edit.other x hx hxj]
  · rw [kids_of h.edit.dir, kids_of h.dir, ← h.target]
    exact kids_clear h.isDir (hs.whole i n h.dir h.isDir) h.place (h.later hs).2 _

theorem DropLink.isDir_eq (h : DropLink name T T' i j k n m) : T'.isDir = T.isDir :=
  h.edit.isDir_eq h.dir h.node rfl rfl

theorem DropLink.inside (h : DropLink name T T' i j k n m) (hs : Sound N T) :
    T.inside x = T'.inside x + if x = i ∧ m.type = T_DIR then 1 else 0 := by
  rw [(h.adds hs).inside fun y _ => by rw [h.isDir_eq], isDir_of h.node]
  simp only [decide_eq_true_eq]

theorem DropLink.naming_pos (h : DropLink name T T' i j k n m) (hs : Sound N T) : 0 < T.naming N j :=
  Fs.naming_pos (hs.lt i n h.dir) ((h.adds hs).mem.2 (Or.inr ⟨rfl, rfl⟩))

theorem DropLink.ne_root (h : DropLink name T T' i j k n m) (hs : Sound N T) : j ≠ ROOTINO := by
  rintro rfl
  obtain ⟨p, hp, hd, -⟩ := hs.root
  have h1 := hs.once ROOTINO (isDir_iff.2 ⟨p, hp, hd⟩)
  have h2 := h.naming_pos hs
  rw [if_pos rfl] at h1
  omega

theorem DropLink.kids_nil (h : DropLink name T T' i j k n m) (hs : Sound N T) : T.kids j = [] := by
  rw [kids_of h.node, Node.kids]
  split_ifs with hd
  · rw [List.map_eq_nil_iff, List.filter_eq_nil_iff]
    intro e he hp
    obtain ⟨x, hx, rfl⟩ := mem_entries.1 he
    have hdots := hs.dots j m h.node hd
    have h2 : ¬ 2 ≤ x := fun h2 => by simp [Dirent.proper, h.empty hd x h2 hx] at hp
    rcases (by omega : x = 0 ∨ x = 1) with rfl | rfl
    · simp [Dirent.proper, hdots.dot] at hp
    · simp [Dirent.proper, hdots.dotdot] at hp
  · rfl

theorem DropLink.dots (h : DropLink name T T' i j k n m) (hs : Sound N T) (nlink : UInt16) :
    Dots i ⟨n.type, nlink, putEntry n.bytes k noEntry⟩ ∧ entry (putEntry n.bytes k noEntry) 1 = entry n.bytes 1 :=
  (hs.dots i n h.dir h.isDir).put (h.later hs).1 h.place.le (by simp [noEntry]) (by simp [noEntry])
    (fun h0 => absurd rfl h0) nlink

theorem DropLink.nlink_pos (h : DropLink name T T' i j k n m) (hs : Sound N T) : 0 < m.nlink.toNat := by
  have h1 := h.naming_pos hs
  by_cases hd : m.type = T_DIR
  · have := hs.dir j m h.node hd; omega
  · have := hs.file j m h.node hd; omega

theorem Sound.unlink (hs : Sound N T) (h : DropLink name T T' i j k n m) : Sound N T' := by
  have hadds := h.adds hs
  have hnaming := fun x => hadds.naming (x := x) (hs.lt i n h.dir)
  have hpos := h.nlink_pos hs
  obtain ⟨hdots, hup⟩ := h.dots hs (if m.type = T_DIR then n.nlink - 1 else n.nlink)
  have hshape : Shape N T' := hs.toShape.edit h.edit h.dir h.isDir
    (whole_putEntry (hs.whole i n h.dir h.isDir) h.place.le (by simp [noEntry])) hdots hup (hs.lt j m h.node)
    (hs.pos h.node) (h.ne_root hs) fun hd => ⟨hs.whole j m h.node hd, by
      have := hs.dots j m h.node hd
      exact ⟨this.two, this.self, this.up, this.dot, this.dotdot, this.rest⟩⟩
  refine ⟨hshape, fun x y hy => ?_, fun x p hx hd => ?_, fun x hd => ?_, fun x p hx hd => ?_,
    fun x y p hy hp hd => ?_⟩
  · exact h.edit.ne_none (hs.named x y (hadds.mem.2 (Or.inl hy)))
  · have hn := hnaming x
    have hin := h.inside hs (x := x)
    rcases h.edit.cases hx with ⟨rfl, rfl⟩ | ⟨hxi, rfl, rfl⟩ | ⟨hxi, hxj, hx⟩
    · have := hs.dir x n h.dir h.isDir
      rw [if_neg h.ne.symm] at hn
      show (if m.type = T_DIR then n.nlink - 1 else n.nlink).toNat = _
      by_cases hm : m.type = T_DIR
      · rw [if_pos ⟨rfl, hm⟩] at hin
        rw [if_pos hm, toNat_sub_one (by omega)]
        omega
      · rw [if_neg fun hc => hm hc.2] at hin
        rw [if_neg hm]
        omega
    · have := hs.dir x m h.node hd
      rw [if_pos rfl] at hn
      rw [if_neg fun hc => hxi hc.1] at hin
      show (m.nlink - 1).toNat = _
      rw [toNat_sub_one hpos]
      omega
    · rw [if_neg (Ne.symm hxj)] at hn
      rw [if_neg fun hc => hxi hc.1] at hin
      have := hs.dir x p hx hd
      omega
  · rw [h.isDir_eq] at hd
    have := hs.once x hd
    have := hnaming x
    omega
  · have hn := hnaming x
    rcases h.edit.cases hx with ⟨rfl, rfl⟩ | ⟨-, rfl, rfl⟩ | ⟨-, hxj, hx⟩
    · exact absurd h.isDir hd
    · have := hs.file x m h.node hd
      rw [if_pos rfl] at hn
      show _ ≤ (m.nlink - 1).toNat
      rw [toNat_sub_one hpos]
      omega
    · have := hs.file x p hx hd
      omega
  · have hy := hadds.mem.2 (Or.inl hy)
    rcases h.edit.cases hp with ⟨rfl, rfl⟩ | ⟨-, rfl, rfl⟩ | ⟨-, -, hp⟩
    · simp only
      rw [hup]
      exact hs.up x y n hy h.dir h.isDir
    · exact hs.up x y m hy h.node hd
    · exact hs.up x y p hy hp hd

/-! ### Content and freeing -/

/-- the kinds of changes: an entry is written in the directory i, for the inode j or a new one, or the content of the
file j becomes l -/
inductive Change where
  | create (i : ℕ) (name : List UInt8)
  | link (i j : ℕ) (name : List UInt8)
  | unlink (i j : ℕ) (name : List UInt8)
  | write (j : ℕ) (m : Node) (l : List UInt8)

/-- what else a system call does to the tree: a file is written as ok allows, or an inode without links is freed -/
inductive Minor (ok : Change → Prop) (T : Tree) : Tree → Prop where
  | write {j : ℕ} {m : Node} (hj : T j = some m) (hm : m.type ≠ T_DIR) (l : List UInt8) (hok : ok (.write j m l)) :
      Minor ok T (Function.update T j (some { m with bytes := l }))
  | free {j : ℕ} {m : Node} (hj : T j = some m) (h0 : m.nlink = 0) : Minor ok T (Function.update T j none)

variable {ok ok' : Change → Prop}

theorem Minor.mono (h : Minor ok T T') (hok : ∀ c, ok c → ok' c) : Minor ok' T T' := by
  cases h with
  | write hj hm l hc => exact .write hj hm l (hok _ hc)
  | free hj h0 => exact .free hj h0

theorem kids_write (hj : T j = some m) (hm : m.type ≠ T_DIR) (l : List UInt8) :
    Tree.kids (Function.update T j (some { m with bytes := l })) = T.kids := by
  funext x
  by_cases hx : x = j
  · rw [hx, kids_of (Function.update_self ..), kids_of hj, kids_file hm, kids_file (n := { m with bytes := l }) hm]
  · unfold Tree.kids
    rw [Function.update_of_ne hx]

theorem isDir_write (hj : T j = some m) (l : List UInt8) :
    Tree.isDir (Function.update T j (some { m with bytes := l })) = T.isDir := by
  funext x
  by_cases hx : x = j
  · rw [hx, isDir_of (Function.update_self ..), isDir_of hj]
  · unfold Tree.isDir
    rw [Function.update_of_ne hx]

theorem node_write {p : Node} (hx : Function.update T j (some { m with bytes := l }) x = some p) :
    (x = j ∧ p = { m with bytes := l }) ∨ T x = some p := by
  by_cases hxj : x = j
  · rw [hxj, Function.update_self] at hx
    exact Or.inl ⟨hxj, (Option.some.inj hx).symm⟩
  · rw [Function.update_of_ne hxj] at hx
    exact Or.inr hx

theorem Sound.write (hs : Sound N T) (hj : T j = some m) (hm : m.type ≠ T_DIR) (l : List UInt8) :
    Sound N (Function.update T j (some { m with bytes := l })) := by
  have hkids := kids_write hj hm l
  have hisDir := isDir_write hj l
  have hnaming : ∀ x, Tree.naming N (Function.update T j (some { m with bytes := l })) x = T.naming N x := fun x => by
    unfold Tree.naming
    rw [hkids]
  have hinside : ∀ x, Tree.inside (Function.update T j (some { m with bytes := l })) x = T.inside x := fun x => by
    unfold Tree.inside
    rw [hkids, hisDir]
  have hdir : ∀ x p, Function.update T j (some { m with bytes := l }) x = some p → p.type = T_DIR → T x = some p :=
    fun x p hx hd => (node_write hx).resolve_left fun hc => hm (by rw [hc.2] at hd; exact hd)
  obtain ⟨r, hr, hrd, hru⟩ := hs.root
  have hrj : ROOTINO ≠ j := by
    rintro rfl
    rw [hj] at hr
    cases hr
    exact hm hrd
  refine ⟨⟨hs.bound, ?_, fun x p hx => ?_, fun x p hx hd => hs.whole x p (hdir x p hx hd) hd,
    fun x p hx hd => hs.dots x p (hdir x p hx hd) hd, r, by rw [Function.update_of_ne hrj]; exact hr, hrd, hru⟩,
    fun x y hy => ?_, fun x p hx hd => ?_, fun x hd => ?_, fun x p hx hd => ?_, fun x y p hy hp hd => ?_⟩
  · rw [Function.update_of_ne (hs.pos hj).symm]; exact hs.zero
  · rcases node_write hx with ⟨rfl, -⟩ | hx
    · exact hs.lt x m hj
    · exact hs.lt x p hx
  · rw [hkids] at hy
    have := hs.named x y hy
    by_cases hyj : y = j
    · rw [hyj, Function.update_self]; nofun
    · rw [Function.update_of_ne hyj]; exact this
  · rw [hnaming, hinside]; exact hs.dir x p (hdir x p hx hd) hd
  · rw [hisDir] at hd
    rw [hnaming]; exact hs.once x hd
  · rw [hnaming]
    rcases node_write hx with ⟨rfl, rfl⟩ | hx
    · exact hs.file x m hj hm
    · exact hs.file x p hx hd
  · rw [hkids] at hy
    exact hs.up x y p hy (hdir y p hp hd) hd

theorem Sound.free_not_mem (hs : Sound N T) (hj : T j = some m) (h0 : m.nlink = 0) : j ∉ T.kids x := fun hx => by
  have := naming_pos (hs.mem_lt hx) hx
  have := (hs.unnamed hj h0).1
  omega

theorem kids_free (hx : x ≠ j) : Tree.kids (Function.update T j none) x = T.kids x := by
  unfold Tree.kids
  rw [Function.update_of_ne hx]

theorem naming_free (hj : j < N) : T.naming N x = Tree.naming N (Function.update T j none) x + (T.kids j).count x := by
  have h := naming_of_kids (x := x) hj fun y hy => kids_free (T := T) hy
  rw [kids_none (Function.update_self ..), List.count_nil] at h
  omega

theorem Sound.naming_free_dir (hs : Sound N T) (hj : T j = some m) (h0 : m.nlink = 0) (hd : T.isDir x = true) :
    Tree.naming N (Function.update T j none) x = T.naming N x := by
  have hin := (hs.unnamed hj h0).2.1
  have hx : x ∉ T.kids j := fun hx => by
    have := inside_pos hx hd
    omega
  have h := naming_free (T := T) (x := x) (hs.lt j m hj)
  rw [List.count_eq_zero.2 hx] at h
  exact h.symm

theorem Sound.free (hs : Sound N T) (hj : T j = some m) (h0 : m.nlink = 0) : Sound N (Function.update T j none) := by
  have hmem := fun x => hs.free_not_mem (x := x) hj h0
  have hnode : ∀ x p, Function.update T j none x = some p → x ≠ j ∧ T x = some p := fun x p hx => by
    by_cases hxj : x = j
    · rw [hxj, Function.update_self] at hx; cases hx
    · rw [Function.update_of_ne hxj] at hx; exact ⟨hxj, hx⟩
  have hinside : ∀ x, x ≠ j → Tree.inside (Function.update T j none) x = T.inside x := fun x hx => by
    unfold Tree.inside
    rw [kids_free hx]
    refine List.countP_congr fun y hy => ?_
    have hyj : y ≠ j := by
      rintro rfl
      exact hmem x hy
    unfold Tree.isDir
    rw [Function.update_of_ne hyj]
  have hkids : ∀ x y, y ∈ Tree.kids (Function.update T j none) x → y ∈ T.kids x := fun x y hy => by
    by_cases hxj : x = j
    · rw [hxj, kids_none (Function.update_self ..)] at hy; cases hy
    · rwa [kids_free hxj] at hy
  obtain ⟨r, hr, hrd, hru⟩ := hs.root
  have hrj : ROOTINO ≠ j := (hs.unnamed hj h0).2.2.symm
  refine ⟨⟨hs.bound, ?_, fun x p hx => hs.lt x p (hnode x p hx).2, fun x p hx hd => hs.whole x p (hnode x p hx).2 hd,
    fun x p hx hd => hs.dots x p (hnode x p hx).2 hd, r, by rw [Function.update_of_ne hrj]; exact hr, hrd, hru⟩,
    fun x y hy => ?_, fun x p hx hd => ?_, fun x hd => ?_, fun x p hx hd => ?_, fun x y p hy hp hd => ?_⟩
  · rw [Function.update_of_ne (hs.pos hj).symm]; exact hs.zero
  · have hmy := hkids x y hy
    have hyj : y ≠ j := by
      rintro rfl
      exact hmem x hmy
    rw [Function.update_of_ne hyj]; exact hs.named x y hmy
  · obtain ⟨hxj, hx⟩ := hnode x p hx
    rw [hs.naming_free_dir hj h0 (isDir_iff.2 ⟨p, hx, hd⟩), hinside x hxj]
    exact hs.dir x p hx hd
  · obtain ⟨p, hp, hpd⟩ := isDir_iff.1 hd
    have hd : T.isDir x = true := isDir_iff.2 ⟨p, (hnode x p hp).2, hpd⟩
    rw [hs.naming_free_dir hj h0 hd]; exact hs.once x hd
  · have := hs.file x p (hnode x p hx).2 hd
    have := naming_free (T := T) (x := x) (hs.lt j m hj)
    omega
  · exact hs.up x y p (hkids x y hy) (hnode y p hp).2 hd

/-- a change of the kind that ok allows -/
inductive Major (sb : Superblock) (ok : Change → Prop) (T : Tree) : Tree → Prop where
  | create {type : UInt16} {name : List UInt8} {i j k : ℕ} {n : Node} {T' : Tree}
      (h : Created sb type name T T' i j k n) (hok : ok (.create i name)) : Major sb ok T T'
  | link {name : List UInt8} {i j k : ℕ} {n m : Node} {T' : Tree}
      (h : AddLink name T T' i j k n m) (hok : ok (.link i j name)) : Major sb ok T T'
  | unlink {name : List UInt8} {i j k : ℕ} {n m : Node} {T' : Tree}
      (h : DropLink name T T' i j k n m) (hok : ok (.unlink i j name)) : Major sb ok T T'

/-- what a system call does to the tree: at most one such change, and then others -/
def Effect (sb : Superblock) (ok : Change → Prop) (T T' : Tree) : Prop :=
  ∃ T1, (T1 = T ∨ Major sb ok T T1) ∧ Relation.ReflTransGen (Minor ok) T1 T'

theorem Effect.refl (sb : Superblock) (ok : Change → Prop) (T : Tree) : Effect sb ok T T := ⟨T, Or.inl rfl, .refl⟩

theorem Effect.minor {T'' : Tree} (h : Effect sb ok T T') (h' : Minor ok T' T'') :
    Effect sb ok T T'' := by
  obtain ⟨T1, h1, h2⟩ := h
  exact ⟨T1, h1, h2.tail h'⟩

theorem Effect.mono (h : Effect sb ok T T') (hok : ∀ c, ok c → ok' c) :
    Effect sb ok' T T' := by
  obtain ⟨T1, h1, h2⟩ := h
  refine ⟨T1, h1.imp_right fun h => ?_, Relation.ReflTransGen.mono (fun _ _ hm => hm.mono hok) _ _ h2⟩
  cases h with
  | create h hc => exact .create h (hok _ hc)
  | link h hc => exact .link h (hok _ hc)
  | unlink h hc => exact .unlink h (hok _ hc)

theorem Sound.minor (hs : Sound N T) (h : Minor ok T T') : Sound N T' := by
  cases h with
  | write hj hm l _ => exact hs.write hj hm l
  | free hj h0 => exact hs.free hj h0

/-- **A system call keeps the tree sound** if it does not make the link count of a file wrap. -/
theorem Sound.effect (hs : Sound sb.ninodes T) (h : Effect sb ok T T')
    (hsize : ∀ i n, T i = some n → n.bytes.length ≤ MAXFILE * BSIZE)
    (hwrap : ∀ i j name m, ok (.link i j name) → T j = some m → m.nlink + 1 ≠ 0) : Sound sb.ninodes T' := by
  obtain ⟨T1, h1, h2⟩ := h
  have hs1 : Sound sb.ninodes T1 := by
    rcases h1 with rfl | h1
    · exact hs
    · cases h1 with
      | create h hok => exact hs.create h rfl (hsize _ _ h.dir)
      | link h hok => exact hs.link h (hwrap _ _ _ _ hok h.file)
      | unlink h hok => exact hs.unlink h
  induction h2 with
  | refl => exact hs1
  | tail _ hm ih => exact ih.minor hm

end Xv6.Fs
