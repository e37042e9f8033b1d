/-
A directory as a finite map from names to inode numbers (kernel/fs.c: `dirlookup`, `dirlink`; the cleared entry of
`sys_unlink`).

A name counts up to DIRSIZ characters (`cstr DIRSIZ`): this is what `strncmp` compares and `strncpy` keeps. `binding l`
is the map that the content l of a directory stands for, if the entries in use have different names (`Distinct`).

- `dirlookup_binding`, `dirlink_binding`, `clear_binding`: what the functions do to it. An entry does not cross a block
  boundary, so it is written whole or not at all.
- `directory_is_map` puts them together. Nothing is assumed about the rest of the inode table and of the tree.
-/
import Xv6.Fs.Splice

namespace Xv6.Fs

open Xv6.Core

variable {sb : Superblock} {v : ℕ → Dinode} {i ip dp j n : ℕ} {s t u : St} {E : Panic → Prop} {l name key : List UInt8}

/-! ## The map -/

/-- the inode number bound to a name: that of the first entry in use with this name -/
def binding (l key : List UInt8) : Option ℕ :=
  ((entries l).find? fun e => decide (e.inum ≠ 0 ∧ cstr DIRSIZ e.name = key)).map Dirent.inum

/-- entry k is in use with the name -/
def Names (l key : List UInt8) (k : ℕ) : Prop :=
  k < l.length / DESIZE ∧ (entry l k).inum ≠ 0 ∧ cstr DIRSIZ (entry l k).name = key

/-- the entries in use have different names -/
def Distinct (l : List UInt8) : Prop := ∀ key a b, Names l key a → Names l key b → a = b

instance (l : List UInt8) : Decidable (Distinct l) :=
  decidable_of_iff (∀ a < l.length / DESIZE, ∀ b < l.length / DESIZE, (entry l a).inum ≠ 0 ∧ (entry l b).inum ≠ 0 ∧
    cstr DIRSIZ (entry l a).name = cstr DIRSIZ (entry l b).name → a = b)
    ⟨fun h _ a b ha hb => h a ha.1 b hb.1 ⟨ha.2.1, hb.2.1, ha.2.2.trans hb.2.2.symm⟩,
      fun h a ha b hb heq => h _ a b ⟨ha, heq.1, heq.2.2⟩ ⟨hb, heq.2.1, rfl⟩⟩

theorem binding_eq_none : binding l key = none ↔ ∀ k, ¬ Names l key k := by
  rw [binding, Option.map_eq_none_iff, List.find?_eq_none]
  simp only [mem_entries, decide_eq_true_eq]
  constructor
  · rintro h k ⟨hk, hu⟩
    exact h _ ⟨k, hk, rfl⟩ hu
  · rintro h _ ⟨k, hk, rfl⟩ hu
    exact h k ⟨hk, hu⟩

theorem exists_names (h : binding l key = some j) : ∃ k, Names l key k ∧ (entry l k).inum = j := by
  obtain ⟨e, he, rfl⟩ := Option.map_eq_some_iff.1 h
  obtain ⟨k, hk, rfl⟩ := mem_entries.1 (List.mem_of_find?_eq_some he)
  have hu := List.find?_some he
  simp only [decide_eq_true_eq] at hu
  exact ⟨k, ⟨hk, hu⟩, rfl⟩

theorem binding_of_names (hd : Distinct l) {k : ℕ} (hk : Names l key k) : binding l key = some (entry l k).inum := by
  cases hb : binding l key with
  | none => exact absurd hk (binding_eq_none.1 hb k)
  | some j =>
    obtain ⟨a, ha, rfl⟩ := exists_names hb
    rw [hd key a k ha hk]

section

variable {k : ℕ} {e : Dirent} (hmod : l.length % DESIZE = 0) (hk : k ≤ l.length / DESIZE) (he : e.name.length = DIRSIZ)
  (hi : e.inum < 2 ^ 16)
include hmod hk he hi

theorem names_putEntry (key : List UInt8) (a : ℕ) : Names (putEntry l k e) key a ↔
    if a = k then e.inum ≠ 0 ∧ cstr DIRSIZ e.name = key else Names l key a := by
  have hlen := length_putEntry hk he
  have hcount : (putEntry l k e).length / DESIZE = max (l.length / DESIZE) (k + 1) := by
    have hdiv : DESIZE * (l.length / DESIZE) = l.length := Nat.mul_div_cancel' (Nat.dvd_of_mod_eq_zero hmod)
    have : (putEntry l k e).length = DESIZE * max (l.length / DESIZE) (k + 1) := by
      rw [hlen, ← Nat.mul_max_mul_left, hdiv, Nat.mul_comm]
    rw [this, Nat.mul_div_cancel_left _ (by decide)]
  unfold Names
  by_cases ha : a < (putEntry l k e).length / DESIZE
  · rw [entry_putEntry hk he hi ha]
    split_ifs with hak
    · simp only [ha, true_and]
    · rw [hcount] at ha ⊢
      have hlt : a < l.length / DESIZE ↔ a < max (l.length / DESIZE) (k + 1) := by omega
      rw [hlt]
  · rw [hcount] at ha ⊢
    have hak : a ≠ k := by omega
    simp only [hak, if_false]
    exact ⟨fun h => absurd h.1 ha, fun h => absurd (lt_of_lt_of_le h.1 (le_max_left _ _)) ha⟩

theorem binding_putEntry_of_ne (hd' : Distinct (putEntry l k e)) (hold : ¬ Names l key k)
    (hnew : ¬ (e.inum ≠ 0 ∧ cstr DIRSIZ e.name = key)) : binding (putEntry l k e) key = binding l key := by
  have hnames := names_putEntry hmod hk he hi key
  cases hb : binding l key with
  | none =>
    rw [binding_eq_none] at hb ⊢
    intro a ha
    have ha' := (hnames a).1 ha
    split_ifs at ha' with hak
    · exact hnew ha'
    · exact hb a ha'
  | some j =>
    obtain ⟨a, ha, rfl⟩ := exists_names hb
    have hak : a ≠ k := fun hak => hold (hak ▸ ha)
    have ha' : Names (putEntry l k e) key a := (hnames a).2 (by rw [if_neg hak]; exact ha)
    rw [binding_of_names hd' ha', entry_putEntry hk he hi ha'.1, if_neg hak]

/-- **A free place is filled**: the map is updated at the new name. -/
theorem binding_put (hd : Distinct l) (hfree : k < l.length / DESIZE → (entry l k).inum = 0) (h0 : e.inum ≠ 0)
    (hnew : binding l (cstr DIRSIZ e.name) = none) :
    Distinct (putEntry l k e) ∧
      binding (putEntry l k e) = Function.update (binding l) (cstr DIRSIZ e.name) (some e.inum) := by
  have hnames := names_putEntry hmod hk he hi
  have habsent := binding_eq_none.1 hnew
  have hd' : Distinct (putEntry l k e) := by
    intro key a b ha hb
    rw [hnames] at ha hb
    split_ifs at ha hb with h1 h2 h2
    · rw [h1, h2]
    · exact absurd (ha.2 ▸ hb) (habsent b)
    · exact absurd (hb.2 ▸ ha) (habsent a)
    · exact hd key a b ha hb
  refine ⟨hd', ?_⟩
  funext key
  by_cases hkey : key = cstr DIRSIZ e.name
  · have hself : Names (putEntry l k e) key k := (hnames key k).2 (by rw [if_pos rfl]; exact ⟨h0, hkey.symm⟩)
    rw [binding_of_names hd' hself, entry_putEntry hk he hi hself.1, if_pos rfl, hkey, Function.update_self]
  · rw [Function.update_of_ne hkey]
    exact binding_putEntry_of_ne hmod hk he hi hd' (fun h => h.2.1 (hfree h.1)) fun h => hkey h.2.symm

omit hk in
/-- **An entry is cleared**: the map is updated at its name. -/
theorem binding_clear (hd : Distinct l) (hn : Names l key k) (h0 : e.inum = 0) :
    Distinct (putEntry l k e) ∧ binding (putEntry l k e) = Function.update (binding l) key none := by
  have hnames := names_putEntry hmod hn.1.le he hi
  have hd' : Distinct (putEntry l k e) := by
    intro key a b ha hb
    rw [hnames] at ha hb
    split_ifs at ha hb with h1 h2 h2
    · rw [h1, h2]
    · exact absurd h0 ha.1
    · exact absurd h0 hb.1
    · exact hd key a b ha hb
  refine ⟨hd', ?_⟩
  funext x
  by_cases hx : x = key
  · subst hx
    rw [Function.update_self, binding_eq_none]
    intro a ha
    rw [hnames] at ha
    split_ifs at ha with hak
    · exact ha.1 h0
    · exact hak (hd x a k ha hn)
  · rw [Function.update_of_ne hx]
    exact binding_putEntry_of_ne hmod hn.1.le he hi hd' (fun h => hx (h.2.2.symm.trans hn.2.2)) fun h => h.1 h0

end

/-! ## Reading and writing entries -/

/-- the content of the inode in entry dp of the table -/
def St.bytes (s : St) (dp : ℕ) : List UInt8 := content s.blk (s.inode dp).din

/-- entry dp of the table is in use for the directory i, whose entries have different names -/
structure DirAt (sb : Superblock) (v : ℕ → Dinode) (s : St) (i dp : ℕ) : Prop extends InodeAt sb v s i dp where
  ref : 0 < (s.inode dp).ref
  dir : (s.inode dp).din.type = T_DIR
  whole : (s.bytes dp).length % DESIZE = 0
  distinct : Distinct (s.bytes dp)

theorem InodeAt.congr (h : InodeAt sb v s i dp) (hto : To s t s.blk s.inode) : InodeAt sb v t i dp := by
  refine ⟨h.range, ?_, ?_, ?_⟩
  · rw [hto.inode]
    exact h.inum
  · rw [hto.inode]
    exact h.used
  · rw [hto.inode, hto.blk]
    exact h.good

theorem bytes_congr (hto : To s t s.blk s.inode) (dp : ℕ) : t.bytes dp = s.bytes dp := by
  unfold St.bytes
  rw [hto.blk, hto.inode]

theorem length_bytes (s : St) (dp : ℕ) : (s.bytes dp).length = (s.inode dp).din.size.toNat := length_content _ _

theorem InodeAt.size (h : InodeAt sb v s i dp) : (s.bytes dp).length ≤ MAXFILE * BSIZE := by
  have hs := h.good.size i h.range
  rw [Function.update_self] at hs
  rw [length_bytes]
  exact hs h.used

theorem slot_le {k : ℕ} (hk : k < l.length / DESIZE) : k * DESIZE + DESIZE ≤ l.length := by
  have h1 := Nat.div_mul_le_self l.length DESIZE
  have h2 : (k + 1) * DESIZE ≤ l.length / DESIZE * DESIZE := Nat.mul_le_mul_right _ hk
  rw [Nat.succ_mul] at h2
  omega

theorem read_slot (h : InodeAt sb v s i dp) (hto : To s t s.blk s.inode) {k : ℕ}
    (hk : k < (s.bytes dp).length / DESIZE) :
    Spec (readi sb dp .kernel (k * DESIZE) DESIZE) t (fun r u => To s u s.blk s.inode ∧
      (r.getD []).length = DESIZE ∧ Dirent.decode (r.getD []) = entry (s.bytes dp) k) E := by
  have hle := slot_le hk
  have hsz := h.size
  have hM : MAXFILE * BSIZE < 2 ^ 32 := by decide
  have hdst : Dst.Copies .kernel DESIZE := fun _ _ _ => rfl
  have ht := h.congr hto
  refine Spec.post (readi_content ht.good ht.used ht.range hdst) ?_
  rintro r u ⟨hu, rfl⟩
  have hsu := hto.trans hu
  rw [hto.blk, hto.inode] at hsu
  have hbytes : content t.blk (t.inode dp).din = s.bytes dp := bytes_congr hto dp
  rw [hbytes, if_pos (by omega)]
  refine ⟨hsu, ?_, rfl⟩
  simp only [Option.getD_some, List.length_take, List.length_drop]
  omega

/-- `writei` of entry k: all of it or nothing, because it does not cross a block boundary -/
theorem write_slot (hl : Layout sb) (h : InodeAt sb v s i dp) {k : ℕ} (hk : k ≤ (s.bytes dp).length / DESIZE)
    {e : Dirent} (he : e.name.length = DIRSIZ) :
    Spec (writei sb dp (.kernel e.bytes) (k * DESIZE) DESIZE) s (fun r t =>
      InodeAt sb v t i dp ∧ (t.inode dp).ref = (s.inode dp).ref ∧
        (t.inode dp).din.type = (s.inode dp).din.type ∧
      (r = some DESIZE ∧ t.bytes dp = putEntry (s.bytes dp) k e ∨
        r ≠ some DESIZE ∧ t.bytes dp = s.bytes dp ∧ (Full sb t.blk ∨ MAXFILE * BSIZE < k * DESIZE + DESIZE))) E := by
  have hlen := e.length_bytes he
  have hsrc : (Src.kernel e.bytes).Copies DESIZE := by
    refine ⟨?_, fun _ _ _ => rfl⟩
    rintro _ ⟨⟩
    exact hlen.ge
  have hmod : k * DESIZE % BSIZE + DESIZE ≤ BSIZE := by unfold DESIZE BSIZE; omega
  have hoff : k * DESIZE ≤ (s.inode dp).din.size.toNat := by
    rw [← length_bytes]
    have := Nat.div_mul_le_self (s.bytes dp).length DESIZE
    have : k * DESIZE ≤ (s.bytes dp).length / DESIZE * DESIZE := Nat.mul_le_mul_right _ hk
    omega
  refine Spec.post ((writei_content hl h.range h.good h.used h.inum hsrc).and
    (writei_spec (E := E) hl h.range h.good h.used h.inum hsrc.1)) ?_
  rintro r t ⟨⟨hin, hout⟩, ⟨rfl, hbad, hto⟩ | ⟨m, w, blk', d', rfl, -, hmax, hwr⟩⟩
  · refine ⟨h.congr hto, by rw [hto.inode], by rw [hto.inode], Or.inr ⟨by simp, bytes_congr hto dp, Or.inr ?_⟩⟩
    omega
  obtain ⟨x, hx, -, hfull, hs⟩ := hin ⟨hoff, hmax⟩
  cases hx
  obtain ⟨a, size, hd'⟩ := hwr.fields
  have hent : t.inode dp = { s.inode dp with din := d' } := hwr.upd.entry
  have hty : (t.inode dp).din.type = (s.inode dp).din.type := by rw [hent, hd']
  refine ⟨⟨h.range, by rw [hent]; exact h.inum, by rw [hty]; exact h.used, hs.good⟩, by rw [hent], hty, ?_⟩
  have hcont : t.bytes dp = overwrite (s.bytes dp) (k * DESIZE) ((Src.kernel e.bytes).data m) := hs.content
  rcases hwr.whole (clean_kernel _) hmod with rfl | rfl
  · refine Or.inr ⟨by simp [DESIZE], ?_, Or.inl (hfull (by decide))⟩
    rw [hcont]
    exact overwrite_nil _ _
  refine Or.inl ⟨rfl, ?_⟩
  have hdata : (Src.kernel e.bytes).data DESIZE = e.bytes := by
    apply List.ext_getElem
    · simp [Src.data, hlen]
    · intro j h1 h2
      simp [Src.data, Src.byte, h2]
  rw [hcont, hdata]
  rfl

/-- a write inside one block that the inode has -/
theorem writeiLoop_one {bytes : List UInt8} {off : ℕ} (fuel : ℕ) (h0 : 0 < n) (hmod : off % BSIZE + n ≤ BSIZE)
    (hbn : off / BSIZE < MAXFILE) (hslot : slotOf s.blk (s.inode dp).din (off / BSIZE) ≠ 0) :
    Spec (writeiLoop sb dp (.kernel bytes) (fuel + 1) 0 off n) s (fun r _ => r.1 = n) E := by
  unfold writeiLoop
  rw [if_neg (by omega)]
  refine Spec.bind (bmap_mapped hbn hslot) ?_
  rintro a t ⟨rfl, -⟩
  rw [if_neg hslot]
  refine Spec.bind_ok rfl (Spec.bind fill_spec fun _ u _ => Spec.bind_ok rfl (Spec.bind_ok rfl ?_))
  have hm : min n (BSIZE - off % BSIZE) = n := min_eq_left (by omega)
  rw [hm, Nat.sub_self, Nat.zero_add]
  cases fuel with
  | zero => exact Spec.pure rfl
  | succ fuel =>
    unfold writeiLoop
    rw [if_pos rfl]
    exact Spec.pure rfl

theorem write_inside (h : InodeAt sb v s i dp) {k : ℕ} (hk : k < (s.bytes dp).length / DESIZE) (bytes : List UInt8) :
    Spec (writei sb dp (.kernel bytes) (k * DESIZE) DESIZE) s (fun r _ => r = some DESIZE) E := by
  have hle := slot_le hk
  have hsz := h.size
  have hM : MAXFILE * BSIZE < 2 ^ 32 := by decide
  have hmap := h.good.mapped i h.range
  rw [Function.update_self] at hmap
  rw [length_bytes] at hle hsz
  have hpos : 0 < DESIZE := by decide
  have hslot := hmap h.used (k * DESIZE / BSIZE) (lt_of_le_of_lt (Nat.div_mul_le_self _ _) (by omega))
  have hmod : k * DESIZE % BSIZE + DESIZE ≤ BSIZE := by unfold DESIZE BSIZE; omega
  unfold writei
  refine Spec.bind_ok rfl ?_
  rw [if_neg (by omega), if_neg (by omega)]
  refine Spec.bind (writeiLoop_one 15 hpos hmod (div_lt_maxfile (by omega)) hslot) ?_
  rintro r t hr
  refine Spec.bind_ok rfl ?_
  split_ifs
  · exact Spec.bind_ok rfl (Spec.bind iupdate_spec fun _ _ _ => Spec.pure (congrArg some hr))
  · exact Spec.bind iupdate_spec fun _ _ _ => Spec.pure (congrArg some hr)

/-! ## Looking up -/

/-- `iget` has taken a reference to inode j: one more to an entry of the table, or the first to a free one -/
structure Got (s : St) (j ip : ℕ) (t : St) : Prop where
  blk : t.blk = s.blk
  file : t.file = s.file
  proc : t.proc = s.proc
  inum : (t.inode ip).inum = j
  entry : (0 < (s.inode ip).ref ∧ t.inode = s.inode.set ip { s.inode ip with ref := (s.inode ip).ref + 1 }) ∨
    ((s.inode ip).ref = 0 ∧ t.inode = s.inode.set ip { s.inode ip with inum := j, ref := 1, valid := false })

theorem iget_got (j : ℕ) (hE : s.empty = none → E .igetNoInodes) : Spec (iget j) s (Got s j) E := by
  unfold iget
  refine Spec.bind_ok rfl ?_
  cases hf : s.find j with
  | some k =>
    have hk := List.find?_some hf
    simp only [decide_eq_true_eq] at hk
    refine Spec.of_ok rfl ⟨rfl, rfl, rfl, ?_, Or.inl ⟨hk.1, rfl⟩⟩
    show ((s.inode.set k _) k).inum = j
    rw [Store.set_self]
    exact hk.2
  | none =>
    cases he : s.empty with
    | none => exact Spec.throw (hE he)
    | some k =>
      have hk := List.find?_some he
      simp only [decide_eq_true_eq] at hk
      refine Spec.of_ok rfl ⟨rfl, rfl, rfl, ?_, Or.inr ⟨hk, rfl⟩⟩
      show ((s.inode.set k _) k).inum = j
      rw [Store.set_self]

/-- the reference is given back: it was not the only one to an inode that is loaded, so nothing is freed -/
theorem Got.iput (h : Got s j ip t) :
    Spec (iput sb ip) t (fun _ u => u.blk = s.blk ∧ u.file = s.file ∧ u.proc = s.proc ∧
      ∀ k, 0 < (s.inode k).ref → u.inode k = s.inode k) E := by
  have hkeep : ¬ ((t.inode ip).ref = 1 ∧ (t.inode ip).valid = true ∧ (t.inode ip).din.nlink = 0) := by
    rcases h.entry with ⟨hpos, hi⟩ | ⟨-, hi⟩
    · rw [hi, Store.set_self]
      intro hc
      have hc := hc.1
      simp only at hc
      omega
    · rw [hi, Store.set_self]
      intro hc
      cases hc.2.1
  unfold Fs.iput
  refine Spec.bind_ok rfl ?_
  rw [if_neg hkeep]
  refine Spec.of_ok rfl ⟨h.blk, h.file, h.proc, fun k hk => ?_⟩
  show (t.inode.set ip { t.inode ip with ref := (t.inode ip).ref - 1 }) k = s.inode k
  by_cases hki : k = ip
  · subst hki
    rcases h.entry with ⟨-, hi⟩ | ⟨h0, -⟩
    · rw [hi, Store.set_self, Store.set_self]
      rfl
    · omega
  · rw [Store.set_ne _ _ hki]
    rcases h.entry with ⟨-, hi⟩ | ⟨-, hi⟩ <;> rw [hi, Store.set_ne _ _ hki]

theorem Got.of_to (hto : To s t s.blk s.inode) (h : Got t j ip u) : Got s j ip u := by
  have hent := h.entry
  rw [hto.inode] at hent
  exact ⟨h.blk.trans hto.blk, h.file.trans hto.file, h.proc.trans hto.proc, h.inum, hent⟩

theorem DirAt.congr (h : DirAt sb v s i dp) (hblk : t.blk = s.blk) (hnum : (t.inode dp).inum = (s.inode dp).inum)
    (hdin : (t.inode dp).din = (s.inode dp).din) (href : 0 < (t.inode dp).ref) : DirAt sb v t i dp := by
  have hb : t.bytes dp = s.bytes dp := by
    unfold St.bytes
    rw [hblk, hdin]
  refine ⟨⟨h.range, hnum.trans h.inum, ?_, ?_⟩, href, ?_, ?_, ?_⟩
  · rw [hdin]; exact h.used
  · rw [hblk, hdin]; exact h.good
  · rw [hdin]; exact h.dir
  · rw [hb]; exact h.whole
  · rw [hb]; exact h.distinct

theorem DirAt.of_to (h : DirAt sb v s i dp) (hto : To s t s.blk s.inode) : DirAt sb v t i dp := by
  refine h.congr hto.blk ?_ ?_ ?_ <;> rw [hto.inode]
  exact h.ref

theorem Got.keeps (hg : Got s j ip t) (href : 0 < (s.inode dp).ref) :
    (t.inode dp).inum = (s.inode dp).inum ∧ (t.inode dp).din = (s.inode dp).din ∧ 0 < (t.inode dp).ref := by
  by_cases hd : dp = ip
  · subst hd
    rcases hg.entry with ⟨-, hi⟩ | ⟨h0, -⟩
    · rw [hi, Store.set_self]
      exact ⟨rfl, rfl, Nat.succ_pos _⟩
    · omega
  · have hk : t.inode dp = s.inode dp := by
      rcases hg.entry with ⟨-, hi⟩ | ⟨-, hi⟩ <;> rw [hi, Store.set_ne _ _ hd]
    rw [hk]
    exact ⟨rfl, rfl, href⟩

theorem DirAt.of_got (h : DirAt sb v s i dp) (hg : Got s j ip t) : DirAt sb v t i dp := by
  obtain ⟨hnum, hdin, href⟩ := hg.keeps h.ref
  exact h.congr hg.blk hnum hdin href

theorem DirAt.bytes_of_got (h : DirAt sb v s i dp) (hg : Got s j ip t) : t.bytes dp = s.bytes dp := by
  unfold St.bytes
  rw [hg.blk, (hg.keeps h.ref).2.1]

/-- what `dirlookup` returns: the inode that the name is bound to, with the place of its entry -/
structure Looked (s : St) (dp : ℕ) (name : List UInt8) (r : Option (ℕ × ℕ)) (t : St) : Prop where
  bound : ∀ j, binding (s.bytes dp) (cstr DIRSIZ name) = some j →
    ∃ ip k, r = some (ip, k * DESIZE) ∧ Names (s.bytes dp) (cstr DIRSIZ name) k ∧ Got s j ip t
  unbound : binding (s.bytes dp) (cstr DIRSIZ name) = none → r = none ∧ To s t s.blk s.inode

/-- the panic that `iget` can end in: no entry of the inode table is free -/
def NoInodes (s : St) (e : Panic) : Prop := e = .igetNoInodes ∧ s.empty = none

theorem empty_congr (h : t.inode = s.inode) : t.empty = s.empty := by
  unfold St.empty
  rw [h]

theorem dirlookupLoop_binding (h : DirAt sb v s i dp) (name : List UInt8) (hto : To s t s.blk s.inode) {k : ℕ}
    (hn : k + n = (s.bytes dp).length / DESIZE) (hno : ∀ a < k, ¬ Names (s.bytes dp) (cstr DIRSIZ name) a) :
    Spec (dirlookupLoop sb dp name n (k * DESIZE)) t (Looked s dp name) (NoInodes s) := by
  induction n generalizing k t with
  | zero =>
    refine Spec.pure ⟨fun j hj => ?_, fun _ => ⟨rfl, hto⟩⟩
    obtain ⟨a, ha, -⟩ := exists_names hj
    exact absurd ha (hno a (by have := ha.1; omega))
  | succ n ih =>
    have hk : k < (s.bytes dp).length / DESIZE := by omega
    unfold dirlookupLoop
    refine Spec.bind (read_slot h.toInodeAt hto hk) ?_
    rintro r u ⟨hsu, hlen, hde⟩
    simp only [hlen, ne_eq, not_true_eq_false, if_false, hde]
    -- this entry does not have the name
    have next (hne : ¬ Names (s.bytes dp) (cstr DIRSIZ name) k) :
        Spec (dirlookupLoop sb dp name n (k * DESIZE + DESIZE)) u (Looked s dp name) (NoInodes s) := by
      rw [← Nat.succ_mul]
      exact ih hsu (by omega) (Nat.forall_lt_succ_right.2 ⟨hno, hne⟩)
    by_cases h0 : (entry (s.bytes dp) k).inum = 0
    · rw [if_pos h0]
      exact next fun hc => hc.2.1 h0
    rw [if_neg h0]
    by_cases hcmp : namecmp name (entry (s.bytes dp) k).name = true
    · rw [if_pos hcmp]
      have hnames : Names (s.bytes dp) (cstr DIRSIZ name) k := ⟨hk, h0, ((namecmp_iff _ _).1 hcmp).symm⟩
      have hbind := binding_of_names h.distinct hnames
      refine Spec.bind (iget_got _ fun he => ⟨rfl, empty_congr hsu.inode ▸ he⟩) fun ip w hw => Spec.pure ?_
      refine ⟨fun j hj => ?_, fun hc => ?_⟩
      · rw [hbind] at hj
        exact ⟨ip, k, rfl, hnames, (Option.some.inj hj) ▸ hw.of_to hsu⟩
      · rw [hbind] at hc
        cases hc
    · rw [if_neg hcmp]
      exact next fun hc => hcmp ((namecmp_iff _ _).2 hc.2.2.symm)

theorem rounds (h : n % DESIZE = 0) : (n + (DESIZE - 1)) / DESIZE = n / DESIZE := by
  unfold DESIZE at *
  omega

theorem dirlookup_binding (h : DirAt sb v s i dp) (name : List UInt8) :
    Spec (dirlookup sb dp name) s (Looked s dp name) (NoInodes s) := by
  have hwhole := h.whole
  rw [length_bytes] at hwhole
  unfold dirlookup
  refine Spec.bind_ok rfl ?_
  rw [if_neg (by rw [not_not]; exact h.dir), rounds hwhole]
  have := dirlookupLoop_binding h name (To.refl s) (k := 0) (by rw [length_bytes, Nat.zero_add]) (by simp)
  rwa [Nat.zero_mul] at this

/-! ## Entering and clearing -/

/-- the first place that is free: an entry not in use, or the end -/
def FirstFree (l : List UInt8) (k : ℕ) : Prop :=
  k ≤ l.length / DESIZE ∧ (k < l.length / DESIZE → (entry l k).inum = 0) ∧ ∀ a < k, (entry l a).inum ≠ 0

theorem dirlinkLoop_firstFree (h : InodeAt sb v s i dp) (hto : To s t s.blk s.inode) {k : ℕ}
    (hn : k + n = (s.bytes dp).length / DESIZE) (hused : ∀ a < k, (entry (s.bytes dp) a).inum ≠ 0) :
    Spec (dirlinkLoop sb dp n (k * DESIZE)) t (fun off u => To s u s.blk s.inode ∧
      ∃ a, off = a * DESIZE ∧ FirstFree (s.bytes dp) a) E := by
  induction n generalizing k t with
  | zero => exact Spec.pure ⟨hto, k, rfl, by omega, by omega, hused⟩
  | succ n ih =>
    have hk : k < (s.bytes dp).length / DESIZE := by omega
    unfold dirlinkLoop
    refine Spec.bind (read_slot h hto hk) ?_
    rintro r u ⟨hsu, hlen, hde⟩
    simp only [hlen, ne_eq, not_true_eq_false, if_false, hde]
    split_ifs with h0
    · exact Spec.pure ⟨hsu, k, rfl, hk.le, fun _ => h0, hused⟩
    · rw [← Nat.succ_mul]
      exact ih hsu (by omega) (Nat.forall_lt_succ_right.2 ⟨hused, h0⟩)

theorem mod_putEntry (hmod : l.length % DESIZE = 0) {k : ℕ} {e : Dirent} (hk : k ≤ l.length / DESIZE)
    (he : e.name.length = DIRSIZ) : (putEntry l k e).length % DESIZE = 0 := by
  rw [length_putEntry hk he]
  rcases max_choice l.length ((k + 1) * DESIZE) with hm | hm <;> rw [hm]
  · exact hmod
  · exact Nat.mul_mod_left _ _

/-- what `dirlink` does to the map -/
structure Entered (sb : Superblock) (dp : ℕ) (name : List UInt8) (inum : ℕ) (s : St) (r : Bool) (t : St) : Prop where
  success : r = true → binding (s.bytes dp) (cstr DIRSIZ name) = none ∧
    (∃ k, FirstFree (s.bytes dp) k ∧ t.bytes dp = putEntry (s.bytes dp) k (link name inum)) ∧
    binding (t.bytes dp) = Function.update (binding (s.bytes dp)) (cstr DIRSIZ name) (some inum)
  failure : r = false → t.bytes dp = s.bytes dp ∧
    (binding (s.bytes dp) (cstr DIRSIZ name) ≠ none ∨ Full sb t.blk ∨ MAXFILE * BSIZE < (s.bytes dp).length + DESIZE)

theorem dirlink_binding (hl : Layout sb) (h : DirAt sb v s i dp) (name : List UInt8) {inum : ℕ} (h0 : 0 < inum)
    (hi : inum < 2 ^ 16) :
    Spec (dirlink sb dp name inum) s (fun r t => DirAt sb v t i dp ∧ Entered sb dp name inum s r t) (NoInodes s) := by
  unfold dirlink
  refine Spec.bind (dirlookup_binding h name) ?_
  intro r t hr
  cases hb : binding (s.bytes dp) (cstr DIRSIZ name) with
  | some j =>
    -- the name is present: the reference that `dirlookup` took is given back
    obtain ⟨ip, k, rfl, -, hg⟩ := hr.bound j hb
    refine Spec.bind hg.iput fun _ u hu => Spec.pure ?_
    obtain ⟨hblk, -, -, hkeep⟩ := hu
    have hdp := hkeep dp h.ref
    have hbytes : u.bytes dp = s.bytes dp := by
      unfold St.bytes
      rw [hblk, hdp]
    refine ⟨h.congr hblk (by rw [hdp]) (by rw [hdp]) (by rw [hdp]; exact h.ref), by simp, fun _ => ⟨hbytes, Or.inl ?_⟩⟩
    rw [hb]
    simp
  | none =>
    obtain ⟨rfl, hto⟩ := hr.unbound hb
    have hwhole := h.whole
    rw [length_bytes] at hwhole
    refine Spec.bind_ok rfl ?_
    have hin : t.inode dp = s.inode dp := by rw [hto.inode]
    rw [hin, rounds hwhole]
    have hloop := dirlinkLoop_firstFree (E := NoInodes s) h.toInodeAt hto (k := 0)
      (by rw [length_bytes, Nat.zero_add]) (by simp)
    rw [Nat.zero_mul] at hloop
    refine Spec.bind hloop ?_
    rintro _ u ⟨hu, k, rfl, hk, hfree, hused⟩
    have hname : (link name inum).name.length = DIRSIZ := length_strncpy _ _
    have hkey : cstr DIRSIZ (link name inum).name = cstr DIRSIZ name := cstr_strncpy _ _
    have hbu := bytes_congr hu dp
    refine Spec.bind (write_slot hl (h.toInodeAt.congr hu) (hbu ▸ hk) hname) ?_
    rintro r w ⟨hat, href, hty, hw⟩
    rw [hu.inode] at href hty
    have hpos : 0 < (w.inode dp).ref := href ▸ h.ref
    rw [hbu] at hw
    rcases hw with ⟨rfl, hput⟩ | ⟨hr, hsame, hcause⟩
    · change w.bytes dp = putEntry (s.bytes dp) k (link name inum) at hput
      obtain ⟨hdist, hmap⟩ := binding_put h.whole hk hname hi h.distinct hfree h0.ne' (hkey ▸ hb)
      rw [hkey, ← hput] at hmap
      refine Spec.pure ⟨⟨hat, hpos, hty.trans h.dir, ?_, hput ▸ hdist⟩,
        fun _ => ⟨hb, ⟨k, ⟨hk, hfree, hused⟩, hput⟩, hmap⟩, by simp⟩
      rw [hput]
      exact mod_putEntry h.whole hk hname
    · have hne : (r == some DESIZE) = false := by simpa using hr
      rw [hne]
      have hend : k * DESIZE ≤ (s.bytes dp).length := (Nat.mul_le_mul_right _ hk).trans (Nat.div_mul_le_self _ _)
      refine Spec.pure ⟨⟨hat, hpos, hty.trans h.dir, hsame ▸ h.whole, hsame ▸ h.distinct⟩, by simp,
        fun _ => ⟨hsame, Or.inr (hcause.imp_right fun hc => by omega)⟩⟩

theorem clear_binding (hl : Layout sb) (h : DirAt sb v s i dp) {k : ℕ} (hn : Names (s.bytes dp) key k) :
    Spec (writei sb dp (.kernel (List.replicate DESIZE 0)) (k * DESIZE) DESIZE) s (fun r t => r = some DESIZE ∧
      DirAt sb v t i dp ∧ binding (t.bytes dp) = Function.update (binding (s.bytes dp)) key none) E := by
  have hname : noEntry.name.length = DIRSIZ := by simp [noEntry]
  rw [← bytes_noEntry]
  refine Spec.post ((write_inside h.toInodeAt hn.1 noEntry.bytes).and
    (write_slot (E := E) hl h.toInodeAt hn.1.le hname)) ?_
  rintro r t ⟨rfl, hat, href, hty, ⟨-, hput⟩ | ⟨hne, -⟩⟩
  · obtain ⟨hdist, hmap⟩ := binding_clear h.whole hname (by decide) h.distinct hn rfl
    refine ⟨rfl, ⟨hat, href ▸ h.ref, hty.trans h.dir, ?_, hput ▸ hdist⟩, hput ▸ hmap⟩
    rw [hput]
    exact mod_putEntry h.whole hn.1.le hname
  · exact absurd rfl hne

/-- **A directory is a finite map.** `dirlookup` returns the inode that the name's first DIRSIZ characters are bound
to, or 0. `dirlink` that succeeds binds a name that was not bound, in the first free place, and changes no other
binding; `dirlink` that fails changes none. Clearing the entry that `dirlookup` reported removes exactly its
binding. The names stay different. The only panic is that the table has no entry for the inode found. -/
theorem directory_is_map (hl : Layout sb) (h : DirAt sb v s i dp) (name : List UInt8) :
    Spec (dirlookup sb dp name) s (fun r t => DirAt sb v t i dp ∧ t.bytes dp = s.bytes dp ∧ Looked s dp name r t)
      (NoInodes s) ∧
    (∀ inum, 0 < inum → inum < 2 ^ 16 →
      Spec (dirlink sb dp name inum) s (fun r t => DirAt sb v t i dp ∧ Entered sb dp name inum s r t) (NoInodes s)) ∧
    ∀ ip off t, dirlookup sb dp name s = .ok (some (ip, off), t) → ∀ u, DirAt sb v u i dp → u.bytes dp = s.bytes dp →
      Spec (writei sb dp (.kernel (List.replicate DESIZE 0)) off DESIZE) u (fun r w => r = some DESIZE ∧
        DirAt sb v w i dp ∧ binding (w.bytes dp) = Function.update (binding (s.bytes dp)) (cstr DIRSIZ name) none)
        fun _ => False := by
  refine ⟨Spec.post (dirlookup_binding h name) fun r t hr => ?_, fun inum h0 hi => dirlink_binding hl h name h0 hi, ?_⟩
  · cases hb : binding (s.bytes dp) (cstr DIRSIZ name) with
    | none =>
      have hto := (hr.unbound hb).2
      exact ⟨h.of_to hto, bytes_congr hto dp, hr⟩
    | some j =>
      obtain ⟨ip, k, -, -, hg⟩ := hr.bound j hb
      exact ⟨h.of_got hg, h.bytes_of_got hg, hr⟩
  · intro ip off t hrun u hu hbytes
    have hr := (dirlookup_binding h name).ok hrun
    cases hb : binding (s.bytes dp) (cstr DIRSIZ name) with
    | none => cases (hr.unbound hb).1
    | some j =>
      obtain ⟨ip', k, heq, hn, -⟩ := hr.bound j hb
      cases heq
      rw [← hbytes] at hn ⊢
      exact clear_binding hl hu hn

theorem Idle.dirAt (h : Idle sb s) (hpos : 0 < (s.inode dp).ref) (hv : (s.inode dp).valid = true)
    (hdir : (s.inode dp).din.type = T_DIR) (hwhole : (s.bytes dp).length % DESIZE = 0) (hd : Distinct (s.bytes dp)) :
    DirAt sb (dino sb s.blk) s (s.inode dp).inum dp := by
  have hptr := h.wf.ptr hpos
  have hrange := h.wf.range _ _ hptr
  refine ⟨⟨hrange, rfl, by rw [hdir]; decide, ?_⟩, hpos, hdir, hwhole, hd⟩
  rw [(h.wf.coherent _ _ hptr hv).1, Function.update_eq_self]
  exact h.wf.good

theorem openF_root : ∃ dp, 0 < ((after openF).inode dp).ref ∧ ((after openF).inode dp).valid = true ∧
    ((after openF).inode dp).din.type = T_DIR ∧ ((after openF).bytes dp).length % DESIZE = 0 ∧
    Distinct ((after openF).bytes dp) ∧ binding ((after openF).bytes dp) [102] = some 2 := by
  refine ⟨0, ?_⟩
  decide +kernel

theorem directory_is_map_root : ∃ v i dp, DirAt Ownership.tiny v (after openF) i dp ∧
    binding ((after openF).bytes dp) [102] = some 2 ∧
    Spec (dirlookup Ownership.tiny dp [102]) (after openF) (fun r t => ∃ ip k, r = some (ip, k * DESIZE) ∧
      (t.inode ip).inum = 2) (NoInodes (after openF)) := by
  obtain ⟨dp, hpos, hv, hdir, hwhole, hd, hb⟩ := openF_root
  have h := (Append.idle_after (by decide +kernel) : Idle _ _).dirAt hpos hv hdir hwhole hd
  refine ⟨_, _, dp, h, hb, ?_⟩
  refine Spec.post (directory_is_map Ownership.tiny_layout h [102]).1 ?_
  rintro r t ⟨-, -, hr⟩
  obtain ⟨ip, k, rfl, -, hg⟩ := hr.bound 2 hb
  exact ⟨ip, k, rfl, hg.inum⟩

end Xv6.Fs
