/-
Link counts and entries.

The surplus of an inode is its link count less the entries that name it and the entries in it that name directories. No
call on paths changes the surplus of an inode that stays in use (modulo 2^16, the link count being 16 bits wide),
whether it succeeds or fails, and that of a new inode is zero (`links_conserve`).

There is one exception: `unlink` of the last directory in a directory that has itself been removed and that nobody uses.
The parent is freed with whatever files have been created in it since (`links_lost`).
-/
import Xv6.Fs.Reachable

namespace Xv6.Fs

open Xv6.Core

variable {sb : Superblock} {s t : St} {a : ℕ × Call} {N i j k x : ℕ} {n m : Node} {T T' : Tree} {ok : Change → Prop}
  {name : List UInt8} {type : UInt16}

def Tree.surplus (N : ℕ) (T : Tree) (i : ℕ) (n : Node) : ℤ := n.nlink.toNat - T.naming N i - T.inside i

/-- the call removes a directory from a directory that has no other link, that nobody uses and that has other entries -/
def Call.strands (sb : Superblock) (s : St) (p : ℕ) (c : Call) : Bool :=
  (c.removes sb s p).any fun x => (s.find x.1).isNone && (s.node sb x.1).any fun n => n.nlink = 1 && 1 < n.kids.length

/-- the link counts follow the entries -/
structure Conserves (N : ℕ) (T T' : Tree) : Prop where
  old : ∀ x n m, T x = some n → T' x = some m → T'.surplus N x m ≡ T.surplus N x n [ZMOD 2 ^ 16]
  new : ∀ x m, T x = none → T' x = some m → T'.surplus N x m = 0

/-! ## Counting modulo 2^16 -/

theorem surplus_inc (a : UInt16) {y x' y' : ℕ} (h : x' + y' = x + y + 1) :
    ((a + 1).toNat : ℤ) - x' - y' ≡ a.toNat - x - y [ZMOD 2 ^ 16] := by
  rw [UInt16.toNat_add]
  show (((a.toNat + 1) % 2 ^ 16 : ℕ) - (x' : ℤ) - y') % 2 ^ 16 = (a.toNat - (x : ℤ) - y) % 2 ^ 16
  omega

theorem surplus_dec (a : UInt16) {y x' y' : ℕ} (h : x + y = x' + y' + 1) :
    ((a - 1).toNat : ℤ) - x' - y' ≡ a.toNat - x - y [ZMOD 2 ^ 16] := by
  rw [UInt16.toNat_sub]
  show (((2 ^ 16 - 1 + a.toNat) % 2 ^ 16 : ℕ) - (x' : ℤ) - y') % 2 ^ 16 = (a.toNat - (x : ℤ) - y) % 2 ^ 16
  omega

/-! ## One change -/

theorem Created.conserves (h : Created sb type name T T' i j k n) (hs : Sound N T) (hN : sb.ninodes = N) :
    Conserves N T T' := by
  have hadds := h.adds hs hN
  have hi := hs.lt i n h.dir
  refine ⟨fun x p q hp hq => ?_, fun x q hx hq => ?_⟩
  · have hxj : j ≠ x := by
      rintro rfl
      rw [h.fresh] at hp; cases hp
    unfold Tree.surplus
    rw [hadds.naming hi, if_neg hxj, h.inside hs hN]
    rcases h.edit.cases hq with ⟨rfl, rfl⟩ | ⟨-, rfl, -⟩ | ⟨hxi, -, hq⟩
    · rw [h.dir] at hp
      cases hp
      show ((if type = T_DIR then n.nlink + 1 else n.nlink).toNat : ℤ) - _ - _ ≡ _ [ZMOD 2 ^ 16]
      by_cases ht : type = T_DIR
      · rw [if_pos ht, if_pos ⟨rfl, ht⟩]
        exact surplus_inc n.nlink rfl
      · rw [if_neg ht, if_neg fun hc => ht hc.2]; simp
    · exact absurd rfl hxj
    · rw [hp] at hq
      cases hq
      rw [if_neg fun hc => hxi hc.1]; simp
  · rcases h.edit.cases hq with ⟨rfl, -⟩ | ⟨hxi, rfl, rfl⟩ | ⟨-, -, hq⟩
    · rw [h.dir] at hx; cases hx
    · have hin : T.inside x = 0 := by rw [Tree.inside, kids_none h.fresh]; rfl
      unfold Tree.surplus
      rw [hadds.naming hi, hs.naming_none h.fresh, if_pos rfl, h.inside hs hN, hin, if_neg fun hc => hxi hc.1]
      rfl
    · rw [hx] at hq; cases hq

theorem AddLink.conserves (h : AddLink name T T' i j k n m) (hs : Sound N T) : Conserves N T T' := by
  have hadds := h.adds hs
  have hi := hs.lt i n h.dir
  refine ⟨fun x p q hp hq => ?_, fun x q hx hq => ?_⟩
  · unfold Tree.surplus
    rw [hadds.naming hi, h.inside hs]
    rcases h.edit.cases hq with ⟨rfl, rfl⟩ | ⟨-, rfl, rfl⟩ | ⟨-, hxj, hq⟩
    · rw [h.dir] at hp
      cases hp
      rw [if_neg h.ne.symm]; simp
    · rw [h.file] at hp
      cases hp
      rw [if_pos rfl]
      exact surplus_inc m.nlink (by omega)
    · rw [hp] at hq
      cases hq
      rw [if_neg (Ne.symm hxj)]; simp
  · rcases h.edit.cases hq with ⟨rfl, -⟩ | ⟨-, rfl, -⟩ | ⟨-, -, hq⟩
    · rw [h.dir] at hx; cases hx
    · rw [h.file] at hx; cases hx
    · rw [hx] at hq; cases hq

theorem DropLink.conserves (h : DropLink name T T' i j k n m) (hs : Sound N T) : Conserves N T T' := by
  have hadds := h.adds hs
  have hi := hs.lt i n h.dir
  refine ⟨fun x p q hp hq => ?_, fun x q hx hq => ?_⟩
  · unfold Tree.surplus
    rw [hadds.naming hi, h.inside hs]
    rcases h.edit.cases hq with ⟨rfl, rfl⟩ | ⟨hxi, rfl, rfl⟩ | ⟨hxi, hxj, hq⟩
    · rw [h.dir] at hp
      cases hp
      rw [if_neg h.ne.symm]
      show ((if m.type = T_DIR then n.nlink - 1 else n.nlink).toNat : ℤ) - _ - _ ≡ _ [ZMOD 2 ^ 16]
      by_cases ht : m.type = T_DIR
      · rw [if_pos ht, if_pos ⟨rfl, ht⟩]
        exact surplus_dec n.nlink rfl
      · rw [if_neg ht, if_neg fun hc => ht hc.2]; simp
    · rw [h.node] at hp
      cases hp
      rw [if_pos rfl, if_neg fun hc => hxi hc.1]
      exact surplus_dec m.nlink (by omega)
    · rw [hp] at hq
      cases hq
      rw [if_neg (Ne.symm hxj), if_neg fun hc => hxi hc.1]; simp
  · rcases h.edit.cases hq with ⟨rfl, -⟩ | ⟨-, rfl, -⟩ | ⟨-, -, hq⟩
    · rw [h.dir] at hx; cases hx
    · rw [h.node] at hx; cases hx
    · rw [hx] at hq; cases hq

/-! ## What follows it -/

/-- an inode that has gone had no links -/
theorem minors_freed (h : Relation.ReflTransGen (Minor ok) T T') (hx : T x = some n) (hx' : T' x = none) :
    n.nlink = 0 := by
  induction h with
  | refl => rw [hx] at hx'; cases hx'
  | @tail T1 T2 h1 hm ih =>
    cases hT : T1 x with
    | none => exact ih hT
    | some p =>
      obtain ⟨n', hn', -, hl⟩ := minors_node h1 hT
      rw [hx] at hn'
      cases hn'
      cases hm with
      | @write j q hj _ l _ =>
        by_cases hxj : x = j
        · rw [hxj, Function.update_self] at hx'; cases hx'
        · rw [Function.update_of_ne hxj, hT] at hx'; cases hx'
      | @free j q hj h0 =>
        by_cases hxj : x = j
        · rw [hxj, hj] at hT
          cases hT
          rw [hl]; exact h0
        · rw [Function.update_of_ne hxj, hT] at hx'; cases hx'

/-- if the directories that have gone were empty then the entries are the same -/
theorem minors_kids (h : Relation.ReflTransGen (Minor ok) T T')
    (hfree : ∀ j m, T j = some m → T' j = none → m.type = T_DIR → T.kids j = []) (x : ℕ) : T'.kids x = T.kids x := by
  induction h with
  | refl => rfl
  | @tail T1 T2 h1 hm ih =>
    have hgone : ∀ j, T1 j = none → T2 j = none := fun j hj => by
      cases hT : T2 j with
      | none => rfl
      | some p =>
        obtain ⟨q, hq⟩ := hm.some hT
        rw [hj] at hq; cases hq
    rw [← ih fun j m hj hn hd => hfree j m hj (hgone j hn) hd]
    cases hm with
    | write hj hp l _ => rw [kids_write hj hp l]
    | @free j p hj h0 =>
      by_cases hxj : x = j
      · subst hxj
        obtain ⟨n, hn, ht, -⟩ := minors_node h1 hj
        rw [kids_none (Function.update_self ..)]
        by_cases hd : p.type = T_DIR
        · rw [ih fun j m hj hn hd => hfree j m hj (hgone j hn) hd, hfree x n hn (Function.update_self ..) (ht.trans hd)]
        · rw [kids_of hj, kids_file hd]
      · exact kids_free hxj

/-- and if nothing named them so are the counts -/
theorem minors_conserve (h : Relation.ReflTransGen (Minor ok) T T') (hlt : ∀ i n, T i = some n → i < N)
    (hfree : ∀ j m, T j = some m → T' j = none → m.type = T_DIR → T.kids j = [] ∧ T.naming N j = 0) (hx : T x = some n)
    (hx' : T' x = some m) : T'.surplus N x m = T.surplus N x n := by
  have hkids := minors_kids h fun j m h1 h2 h3 => (hfree j m h1 h2 h3).1
  obtain ⟨n', hn', -, hl⟩ := minors_node h hx'
  rw [hx] at hn'
  cases hn'
  have hinside : T'.inside x = T.inside x := by
    unfold Tree.inside
    rw [hkids]
    refine List.countP_congr fun y hy => ?_
    cases hT' : T' y with
    | some p =>
      obtain ⟨q, hq, ht, -⟩ := minors_node h hT'
      rw [isDir_of hT', isDir_of hq, ht]
    | none =>
      cases hT : T y with
      | none => simp [Tree.isDir, hT, hT']
      | some q =>
        have hd : q.type ≠ T_DIR := fun hd => by
          have := naming_pos (hlt x n hx) hy
          rw [(hfree y q hT hT' hd).2] at this
          exact absurd this (lt_irrefl 0)
        simp [Tree.isDir, hT, hT', hd]
  unfold Tree.surplus Tree.naming
  rw [hl, hinside]
  simp only [hkids]

/-- a tree after frees only -/
theorem minors_frees (h : Relation.ReflTransGen (Minor ok) T T') (hw : ∀ j m l, ¬ ok (.write j m l)) (x : ℕ) :
    T' x = T x ∨ T' x = none := by
  induction h with
  | refl => exact Or.inl rfl
  | tail _ hm ih =>
    cases hm with
    | write hj _ l hok => exact absurd hok (hw _ _ l)
    | @free j m hj h0 =>
      by_cases hxj : x = j
      · exact Or.inr (by rw [hxj, Function.update_self])
      · rw [Function.update_of_ne hxj]; exact ih

/-- the entries of a directory that is freed are lost to what they name -/
theorem minors_lose (h : Relation.ReflTransGen (Minor ok) T T') (hw : ∀ j m l, ¬ ok (.write j m l)) (hs : Sound N T)
    (hi : T' i = none) (hx : x ∈ T.kids i) :
    ∃ n, T x = some n ∧ T' x = some n ∧ ¬ T'.surplus N x n ≡ T.surplus N x n [ZMOD 2 ^ 16] := by
  obtain ⟨n, hn⟩ := Option.ne_none_iff_exists'.1 (hs.named i x hx)
  have hN := hs.mem_lt hx
  have hpos := naming_pos hN hx
  -- the count of the entries is at most the link count
  have hle : T.naming N x + T.inside x ≤ n.nlink.toNat := by
    by_cases hd : n.type = T_DIR
    · have := hs.dir x n hn hd; omega
    · have := hs.file x n hn hd
      rw [Tree.inside, kids_of hn, kids_file hd]
      exact this
  have hn' : T' x = some n := ((minors_frees h hw x).resolve_right fun hc => by
    have := minors_freed h hn hc
    rw [this] at hle
    have : (0 : UInt16).toNat = 0 := rfl
    omega).trans hn
  have hkids : ∀ y, T'.kids y = T.kids y ∨ T'.kids y = [] := fun y => by
    rcases minors_frees h hw y with hy | hy
    · exact Or.inl (by unfold Tree.kids; rw [hy])
    · exact Or.inr (kids_none hy)
  have hnaming : T'.naming N x < T.naming N x := by
    refine Finset.sum_lt_sum (fun y _ => ?_) ⟨i, Finset.mem_range.2 hN, ?_⟩
    · rcases hkids y with hy | hy <;> simp [hy]
    · rw [kids_none hi, List.count_nil]
      exact List.count_pos_iff.2 hx
  have hinside : T'.inside x ≤ T.inside x := by
    unfold Tree.inside
    rcases hkids x with hy | hy
    · rw [hy]
      refine List.countP_mono_left fun y _ hd => ?_
      obtain ⟨q, hq, hqd⟩ := isDir_iff.1 hd
      obtain ⟨p, hp, ht, -⟩ := minors_node h hq
      exact isDir_iff.2 ⟨p, hp, ht.trans hqd⟩
    · rw [hy]; exact Nat.zero_le _
  refine ⟨n, hn, hn', fun hc => ?_⟩
  have hlt := n.nlink.toNat_lt
  unfold Tree.surplus at hc
  have hc : ((n.nlink.toNat : ℤ) - T'.naming N x - T'.inside x) % 2 ^ 16 =
    ((n.nlink.toNat : ℤ) - T.naming N x - T.inside x) % 2 ^ 16 := hc
  omega

/-! ## Calls -/

/-- a directory without links after the change is referenced, or has lost its name and is empty -/
theorem Idle.unlinked_dir (h : Idle sb s) (hm : Major sb (fun c => a.2.Allows sb s a.1 c) (s.node sb) T)
    (hst : a.2.strands sb s a.1 = false) (hj : T j = some m) (hd : m.type = T_DIR) (h0 : m.nlink = 0) :
    (∃ k, 0 < s.refs k ∧ (s.inode k).inum = j) ∨ T.kids j = [] ∧ T.naming sb.ninodes j = 0 := by
  have hold : ∀ {n}, s.node sb j = some n → n.nlink = 0 → ∃ k, 0 < s.refs k ∧ (s.inode k).inum = j := fun hn h0 => by
    obtain ⟨k, hk, hkj, -⟩ := h.calm.held j _ hn h0
    exact ⟨k, hk, hkj⟩
  cases hm with
  | @create type name i j' k n T hc _ =>
    refine Or.inl ?_
    rcases hc.edit.cases hj with ⟨rfl, rfl⟩ | ⟨-, -, rfl⟩ | ⟨-, -, hj⟩
    · refine hold hc.dir ?_
      have h0' : (if type = T_DIR then n.nlink + 1 else n.nlink) = 0 := h0
      split_ifs at h0'
      · exact absurd h0' (h.spare j n hc.dir hc.isDir)
      · exact h0'
    · exact absurd h0 (by show (1 : UInt16) ≠ 0; decide)
    · exact hold hj h0
  | @link name i j' k n m' T hc _ =>
    refine Or.inl ?_
    rcases hc.edit.cases hj with ⟨rfl, rfl⟩ | ⟨-, -, rfl⟩ | ⟨-, -, hj⟩
    · exact hold hc.dir h0
    · exact absurd hd hc.notDir
    · exact hold hj h0
  | @unlink name i j' k n m' T hc hok =>
    have hs1 := h.sound.unlink hc
    rcases hc.edit.cases hj with ⟨rfl, rfl⟩ | ⟨hji, rfl, rfl⟩ | ⟨-, -, hj⟩
    · have h0' : (if m'.type = T_DIR then n.nlink - 1 else n.nlink) = 0 := h0
      split_ifs at h0' with ht
      · have h1 : n.nlink = 1 := by rw [← UInt16.sub_add_cancel n.nlink 1, h0']; rfl
        rw [Call.strands, h.removes hc ht hok, Option.any_some, hc.dir, Option.any_some, h1] at hst
        cases hf : s.find j with
        | some k =>
          rw [St.find] at hf
          have hk := List.find?_some hf
          exact Or.inl ⟨k, of_decide_eq_true hk⟩
        | none =>
          -- the entry that has gone was the last
          refine Or.inr ⟨?_, (hs1.unnamed hj h0).1⟩
          have hlen := (hc.adds h.sound).kid.length_eq
          rw [kids_of hc.dir, List.length_cons] at hlen
          simp only [hf, Option.isNone_none, Bool.true_and, decide_true, decide_eq_false_iff_not] at hst
          exact List.length_eq_zero_iff.1 (by omega)
      · exact Or.inl (hold hc.dir h0')
    · refine Or.inr ⟨?_, (hs1.unnamed hj h0).1⟩
      rw [← (hc.adds h.sound).kids j hji]; exact hc.kids_nil h.sound
    · exact Or.inl (hold hj h0)

/-- the surplus of every inode that stays in use is as it was, that of a new one is zero -/
def St.Conserved (sb : Superblock) (s t : St) : Prop :=
  (∀ i n m, s.node sb i = some n → t.node sb i = some m →
    Tree.surplus sb.ninodes (t.node sb) i m ≡ Tree.surplus sb.ninodes (s.node sb) i n [ZMOD 2 ^ 16]) ∧
  ∀ i m, s.node sb i = none → t.node sb i = some m → Tree.surplus sb.ninodes (t.node sb) i m = 0

/-- what is referenced before a call on paths stays in use -/
theorem Keeps.stays (h : Keeps sb ok s t) (hc : Calm sb t) (hj : ∃ k, 0 < s.refs k ∧ (s.inode k).inum = j) :
    t.node sb j ≠ none := by
  obtain ⟨k, hk, rfl⟩ := hj
  obtain ⟨hk', hi⟩ := h.kept k hk
  rw [← hi]
  exact hc.alive k hk'

/-- a call that only drops references leaves the tree as it was -/
theorem Idle.unchanged (h : Idle sb s) (hkeeps : Keeps sb ok s t) (hct : Calm sb t)
    (h2 : Relation.ReflTransGen (Minor ok) (s.node sb) (t.node sb)) (hw : ∀ j m l, ¬ ok (.write j m l)) :
    t.node sb = s.node sb := by
  funext x
  refine (minors_frees h2 hw x).elim id fun hx => ?_
  cases hx' : s.node sb x with
  | none => exact hx
  | some n =>
    -- an inode that had no links is referenced
    obtain ⟨k, hk, hkx, -⟩ := h.calm.held x n hx' (minors_freed h2 hx' hx)
    exact absurd hx (hkeeps.stays hct ⟨k, hk, hkx⟩)

/-- a call that strands nothing -/
theorem Idle.conserved (h : Idle sb s) {p : ℕ} {c : Call} (hst : c.strands sb s p = false)
    (hkeeps : Keeps sb (fun x => c.Allows sb s p x) s t) : St.Conserved sb s t := by
  obtain ⟨hct, T1, h1, h2⟩ := hkeeps.tree h.calm h.spare
  have hheld : ∀ j, (∃ k, 0 < s.refs k ∧ (s.inode k).inum = j) → t.node sb j ≠ none := fun j => hkeeps.stays hct
  have hcons : Conserves sb.ninodes (s.node sb) T1 ∧ (∀ i n, T1 i = some n → i < sb.ninodes) ∧
      ∀ j m, T1 j = some m → t.node sb j = none → m.type = T_DIR → T1.kids j = [] ∧ T1.naming sb.ninodes j = 0 := by
    rcases h1 with rfl | h1
    · refine ⟨⟨fun x n m hn hm => ?_, fun x m hn hm => ?_⟩, h.sound.lt, fun j m hj hn _ => ?_⟩
      · rw [hn] at hm; cases hm; rfl
      · rw [hn] at hm; cases hm
      · obtain ⟨k, hk, hkj, -⟩ := h.calm.held j m hj (minors_freed h2 hj hn)
        exact absurd hn (hheld j ⟨k, hk, hkj⟩)
    have hdir : ∀ j m, T1 j = some m → t.node sb j = none → m.type = T_DIR →
        T1.kids j = [] ∧ T1.naming sb.ninodes j = 0 := fun j m hj hn hd =>
      (h.unlinked_dir (a := (p, c)) h1 hst hj hd (minors_freed h2 hj hn)).resolve_left fun hk => hheld j hk hn
    refine ⟨?_, ?_, hdir⟩
    · cases h1 with
      | create hc _ => exact hc.conserves h.sound rfl
      | link hc _ => exact hc.conserves h.sound
      | unlink hc _ => exact hc.conserves h.sound
    intro i n hi
    cases h1 with
    | create hc _ => exact (hc.shape h.sound rfl).lt i n hi
    | link hc _ =>
      rcases hc.edit.cases hi with ⟨rfl, -⟩ | ⟨-, rfl, -⟩ | ⟨-, -, hi⟩
      · exact h.sound.lt _ _ hc.dir
      · exact h.sound.lt _ _ hc.file
      · exact h.sound.lt i n hi
    | unlink hc _ => exact (h.sound.unlink hc).lt i n hi
  obtain ⟨hcons, hlt, hfree⟩ := hcons
  refine ⟨fun i n m hn hm => ?_, fun i m hn hm => ?_⟩
  · obtain ⟨n1, hn1, -, -⟩ := minors_node h2 hm
    rw [minors_conserve h2 hlt hfree hn1 hm]
    exact hcons.old i n n1 hn hn1
  · obtain ⟨n1, hn1, -, -⟩ := minors_node h2 hm
    rw [minors_conserve h2 hlt hfree hn1 hm]
    exact hcons.new i n1 hn hn1

/-- one that strands something: it changes nothing, or a count -/
theorem Idle.stranded (hl : Layout sb) (h : Idle sb s) {p : ℕ} {c : Call} (hlegal : (calls sb).legal s (p, c))
    (hst : c.strands sb s p = true) (hkeeps : Keeps sb (fun x => c.Allows sb s p x) s t)
    (hs : (calls sb).step s (p, c) = .ok t) (hcons : St.Conserved sb s t) : t.node sb = s.node sb := by
  obtain ⟨hct, T1, h1, h2⟩ := hkeeps.tree h.calm h.spare
  unfold Call.strands at hst
  rw [Option.any_eq_true] at hst
  obtain ⟨⟨i, j⟩, hrem, hst⟩ := hst
  obtain ⟨path, rfl⟩ : ∃ path, c = .unlink (some path) := by
    unfold Call.removes at hrem
    split at hrem
    · exact ⟨_, rfl⟩
    · cases hrem
  have hw : ∀ j m l, ¬ Call.Allows sb s p (.write j m l) (.unlink (some path)) := fun j m l hok => hok.makes
  rcases h1 with rfl | h1
  · exact h.unchanged hkeeps hct h2 hw
  cases h1 with
  | create _ hok =>
    obtain ⟨_, hbad, -⟩ := hok.makes
    cases hbad
  | link _ hok =>
    obtain ⟨_, _, _, hbad, -⟩ := hok.makes
    cases hbad
  | @unlink name i' j' k n m T1 hc hok =>
    have hm := hok.unlinks_dir (a := (p, _)) hc.node hrem
    have heq := h.removes (a := (p, _)) hc hm hok
    rw [show Call.removes sb s p (.unlink (some path)) = some (i, j) from hrem] at heq
    cases heq
    rw [hc.dir, Option.any_some, Bool.and_eq_true, Bool.and_eq_true, Option.isNone_iff_eq_none, decide_eq_true_eq,
      decide_eq_true_eq] at hst
    obtain ⟨hfind, h1, hlen⟩ := hst
    have hgone : t.node sb i = none := by
      refine h.dropped (a := (p, _)) hl hlegal hok hs h2 hc.edit.dir ?_ hfind
      show (if m.type = T_DIR then n.nlink - 1 else n.nlink) = 0
      rw [if_pos hm, h1]; rfl
    obtain ⟨x, hx⟩ : ∃ x, x ∈ T1.kids i := by
      have hperm := (hc.adds h.sound).kid.length_eq
      rw [kids_of hc.dir, List.length_cons] at hperm
      exact List.exists_mem_of_length_pos (by omega)
    obtain ⟨q, hq, hqt, hne⟩ := minors_lose h2 hw (h.sound.unlink hc) hgone hx
    obtain ⟨q0, hq0⟩ : ∃ q0, s.node sb x = some q0 := by
      rcases hc.edit.cases hq with ⟨rfl, -⟩ | ⟨-, rfl, -⟩ | ⟨-, -, hq⟩
      · exact ⟨_, hc.dir⟩
      · exact ⟨_, hc.node⟩
      · exact ⟨_, hq⟩
    exact absurd ((hcons.1 x q0 q hq0 hqt).trans ((hc.conserves h.sound).old x q0 q hq0 hq).symm) hne

/-- **Link counts are conserved.** In every state between calls, a call of `open`, `mkdir`, `mknod`, `link`, `symlink`
or `unlink` leaves the surplus of every inode that stays in use as it was, modulo 2^16, and that of a new inode is zero,
if and only if it does not remove the last directory in a removed directory that has other entries and that nobody uses,
or has changed nothing. -/
theorem links_conserve (hl : Layout sb) (h : Idle sb s) {p : ℕ} {c : Call} (hc : c.links = true)
    (hlegal : (calls sb).legal s (p, c)) (hs : (calls sb).step s (p, c) = .ok t) :
    St.Conserved sb s t ↔ (c.strands sb s p = true → t.node sb = s.node sb) := by
  have hkeeps : Keeps sb (fun x => c.Allows sb s p x) s t := calls_ok (a := (p, c))
    (links_spec (P := True) hl h.wf h.acct (h.acct.has_cwd h.wf hlegal.cwd) (fun _ => trivial) hc) hs
  refine ⟨fun hcons hst => h.stranded hl hlegal hst hkeeps hs hcons, fun hst => ?_⟩
  by_cases hf : c.strands sb s p = true
  · -- nothing has changed
    unfold St.Conserved
    rw [hst hf]
    refine ⟨fun i n m hn hm => ?_, fun i m hn hm => ?_⟩
    · rw [hn] at hm; cases hm; rfl
    · rw [hn] at hm; cases hm
  · exact h.conserved (Bool.not_eq_true _ ▸ hf) hkeeps

theorem links_conserve_boot : ∃ t, (calls Ownership.tiny).step boot (0, .mkdir (some pathP)) = .ok t ∧
    ∀ i n m, boot.node Ownership.tiny i = some n → t.node Ownership.tiny i = some m →
      Tree.surplus 16 (t.node Ownership.tiny) i m ≡ Tree.surplus 16 (boot.node Ownership.tiny) i n [ZMOD 2 ^ 16] := by
  obtain ⟨t, hlegal, hr, -⟩ := Machine.exists_run_of_steps (M := calls Ownership.tiny) (s := boot)
    (l := [(0, .mkdir (some pathP))]) (p := fun _ => true) (by decide +kernel)
  have hs : (calls Ownership.tiny).step boot (0, .mkdir (some pathP)) = .ok t := by
    unfold Machine.run at hr
    split at hr
    · rename_i h
      cases hr
      exact h
    · cases hr
  refine ⟨t, hs, ((links_conserve Ownership.tiny_layout boot_idle rfl hlegal.1 hs).2 fun hst => ?_).1⟩
  exact absurd hst Bool.false_ne_true

/-- process 0 makes a directory and a file in its removed current directory, and goes into the new directory -/
def strand : List (ℕ × Call) :=
  [(0, .mkdir (some pathP)), (0, .chdir (some pathP)), (0, .unlink (some pathP)), (0, .mkdir (some [101])),
    (0, .openPath (some [102]) (2 ^ O_CREATE + 2 ^ O_WRONLY)), (0, .close 0), (0, .chdir (some [101]))]

/-- "../e" -/
def pathUpE : List UInt8 := [46, 46, 47, 101]

/-- the surplus of inode i is not the same in t as in s -/
def differs (i : ℕ) (s t : St) : Bool :=
  match s.node Ownership.tiny i, t.node Ownership.tiny i with
  | some n, some m => decide (¬ Tree.surplus 16 (t.node Ownership.tiny) i m ≡
      Tree.surplus 16 (s.node Ownership.tiny) i n [ZMOD 2 ^ 16])
  | _, _ => false

/-- **A link count that nothing accounts for.** Removing "../e" frees the parent directory, and with it the only name of
the file. -/
theorem links_lost : ∃ s t i n m, Idle Ownership.tiny s ∧ (calls Ownership.tiny).legal s (0, .unlink (some pathUpE)) ∧
    (calls Ownership.tiny).step s (0, .unlink (some pathUpE)) = .ok t ∧ s.node Ownership.tiny i = some n ∧
    t.node Ownership.tiny i = some m ∧
    ¬ Tree.surplus 16 (t.node Ownership.tiny) i m ≡ Tree.surplus 16 (s.node Ownership.tiny) i n [ZMOD 2 ^ 16] := by
  obtain ⟨s, hlegal, hr, hp⟩ := Machine.exists_run_of_steps (s := boot) (l := strand)
    (M := (calls Ownership.tiny).restrict fun s a => a.2.wraps Ownership.tiny s a.1 = false)
    (p := fun s => decide ((calls Ownership.tiny).legal s (0, .unlink (some pathUpE))) &&
      ((calls Ownership.tiny).step s (0, .unlink (some pathUpE))).toOption.any (differs 4 s)) (by decide +kernel)
  have hreach : ((calls Ownership.tiny).restrict fun s a => a.2.wraps Ownership.tiny s a.1 = false).Reach boot s :=
    ⟨_, hlegal, hr⟩
  have hidle := boot_idle.reach Ownership.tiny_layout hreach
  rw [Bool.and_eq_true, decide_eq_true_eq] at hp
  obtain ⟨hleg, hp⟩ := hp
  cases hs : (calls Ownership.tiny).step s (0, .unlink (some pathUpE)) with
  | error e => rw [hs] at hp; cases hp
  | ok t =>
    rw [hs] at hp
    have hp : differs 4 s t = true := hp
    unfold differs at hp
    split at hp
    · rename_i n m hn hm
      exact ⟨s, t, 4, n, m, hidle, hleg, hs, hn, hm, of_decide_eq_true hp⟩
    · cases hp

end Xv6.Fs
