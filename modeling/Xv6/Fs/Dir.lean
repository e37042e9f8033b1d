/-
Directories (kernel/fs.c, `dirlookup`, `dirlink`; kernel/sysfile.c, `isdirempty`).

The content of a directory is a list of entries (`entries`), an entry with inode number 0 is free. `dirlookup` finds the
first entry in use with the name, `dirlink` puts an entry into the first free place (`putEntry`).

- `dirlookup_spec`, `dirlink_spec`, `isdirempty_spec`.
-/
import Xv6.Fs.Inodes
import Xv6.Fs.Sysfile

namespace Xv6.Fs

open Xv6.Core

variable {sb : Superblock} {i ip dp k : ℕ} {s t u : St} {F : ℕ → ℕ} {P : Prop} {l name : List UInt8} {n : Node}
  {e : Dirent} {E : Panic → Prop}

/-! ## Entries -/

theorem length_entries (l : List UInt8) : (entries l).length = l.length / DESIZE := by simp [entries]

theorem getElem_entries (l : List UInt8) (h : k < (entries l).length) : (entries l)[k] = entry l k := by
  simp [entries]

theorem mem_entries : e ∈ entries l ↔ ∃ k, k < l.length / DESIZE ∧ entry l k = e := by
  simp [entries]

/-- write entry k -/
def putEntry (l : List UInt8) (k : ℕ) (e : Dirent) : List UInt8 := overwrite l (k * DESIZE) e.bytes

theorem length_putEntry (hk : k ≤ l.length / DESIZE) (he : e.name.length = DIRSIZ) :
    (putEntry l k e).length = max l.length ((k + 1) * DESIZE) := by
  have hle : k * DESIZE ≤ l.length := by
    have := Nat.div_mul_le_self l.length DESIZE
    have : k * DESIZE ≤ l.length / DESIZE * DESIZE := Nat.mul_le_mul_right _ hk
    omega
  rw [putEntry, length_overwrite _ _ hle, e.length_bytes he, Nat.succ_mul]

theorem entry_putEntry {j : ℕ} (hk : k ≤ l.length / DESIZE) (he : e.name.length = DIRSIZ)
    (hi : e.inum < 2 ^ 16) (hj : j < (putEntry l k e).length / DESIZE) :
    entry (putEntry l k e) j = if j = k then e else entry l j := by
  have hpos : 0 < DESIZE := by decide
  have hle : k * DESIZE ≤ l.length := by
    have := Nat.div_mul_le_self l.length DESIZE
    have : k * DESIZE ≤ l.length / DESIZE * DESIZE := Nat.mul_le_mul_right _ hk
    omega
  have hlen := length_putEntry hk he
  have hb := e.length_bytes he
  have hjlen : (j + 1) * DESIZE ≤ (putEntry l k e).length := by
    have := Nat.div_mul_le_self (putEntry l k e).length DESIZE
    have : (j + 1) * DESIZE ≤ (putEntry l k e).length / DESIZE * DESIZE := Nat.mul_le_mul_right _ hj
    omega
  rw [Nat.succ_mul] at hjlen hlen
  unfold entry
  split_ifs with hjk
  · subst hjk
    have : ((putEntry l j e).drop (j * DESIZE)).take DESIZE = e.bytes := by
      apply List.ext_getElem
      · simp; omega
      · intro q h1 h2
        rw [List.getElem_take, List.getElem_drop]
        simp only [putEntry]
        rw [getElem_overwrite _ _ hle, if_pos (by omega), Nat.add_sub_cancel_left, List.getD_eq_getElem _ _ h2]
    rw [this, Dirent.decode_bytes e hi]
  · congr 1
    have hne : j * DESIZE + DESIZE ≤ k * DESIZE ∨ k * DESIZE + DESIZE ≤ j * DESIZE := by
      rcases Nat.lt_or_gt_of_ne hjk with hlt | hgt
      · left
        have := Nat.mul_le_mul_right DESIZE hlt
        rwa [Nat.succ_mul] at this
      · right
        have := Nat.mul_le_mul_right DESIZE hgt
        rwa [Nat.succ_mul] at this
    apply List.ext_getElem
    · simp; omega
    · intro q h1 h2
      simp only [List.length_take, List.length_drop] at h1 h2
      rw [List.getElem_take, List.getElem_drop, List.getElem_take, List.getElem_drop]
      simp only [putEntry]
      rw [getElem_overwrite _ _ hle, if_neg (by omega), List.getD_eq_getElem _ _ (by omega)]

/-- **Entries after a write.** -/
theorem entries_putEntry (hl : l.length % DESIZE = 0) (hk : k ≤ l.length / DESIZE)
    (he : e.name.length = DIRSIZ) (hi : e.inum < 2 ^ 16) :
    entries (putEntry l k e) = if k < l.length / DESIZE then (entries l).set k e else entries l ++ [e] := by
  have hlen := length_putEntry hk he
  have hdiv : DESIZE * (l.length / DESIZE) = l.length := Nat.mul_div_cancel' (Nat.dvd_of_mod_eq_zero hl)
  have hN : (putEntry l k e).length / DESIZE = max (l.length / DESIZE) (k + 1) := by
    have : (putEntry l k e).length = DESIZE * max (l.length / DESIZE) (k + 1) := by
      rw [hlen, ← Nat.mul_max_mul_left, hdiv, Nat.mul_comm]
    rw [this, Nat.mul_div_cancel_left _ (by decide)]
  apply List.ext_getElem
  · rw [length_entries, hN]
    split_ifs with h
    · rw [List.length_set, length_entries]; omega
    · rw [List.length_append, length_entries, List.length_singleton]; omega
  intro j h1 h2
  rw [length_entries] at h1
  rw [getElem_entries, entry_putEntry hk he hi h1]
  rw [hN] at h1
  split_ifs with hjk hlt hlt
  · subst hjk
    rw [List.getElem_set_self]
  · subst hjk
    have : j = (entries l).length := by rw [length_entries]; omega
    simp [this]
  · rw [List.getElem_set_ne (Ne.symm hjk), getElem_entries]
  · rw [List.getElem_append_left (by rw [length_entries]; omega), getElem_entries]

theorem dirOK_putEntry (hl : DirOK sb l) (hk : k ≤ l.length / DESIZE)
    (he : e.name.length = DIRSIZ) (hi : e.inum < 2 ^ 16) (hin : e.inum < sb.ninodes) : DirOK sb (putEntry l k e) := by
  constructor
  · rw [length_putEntry hk he]
    rcases max_choice l.length ((k + 1) * DESIZE) with h | h
    · rw [h]; exact hl.1
    · rw [h]; exact Nat.mul_mod_left _ _
  · intro x hx
    rw [entries_putEntry hl.1 hk he hi] at hx
    split_ifs at hx with hlt
    · rcases List.mem_or_eq_of_mem_set hx with hx | rfl
      · exact hl.2 x hx
      · exact hin
    · rcases List.mem_append.1 hx with hx | hx
      · exact hl.2 x hx
      · rw [List.mem_singleton.1 hx]; exact hin

/-! ## Looking up -/

/-- entry k is in use and has the name -/
def Hit (l name : List UInt8) (k : ℕ) : Prop := (entry l k).inum ≠ 0 ∧ namecmp name (entry l k).name = true

instance (l name : List UInt8) (k : ℕ) : Decidable (Hit l name k) := by unfold Hit; infer_instance

theorem read_entry (h : WF sb s) (hn : Live sb s ip i n) (hk : k < n.bytes.length / DESIZE) :
    Spec (readi sb ip .kernel (k * DESIZE) DESIZE) s (fun r t => Reads s t ∧
      (r.getD []).length = DESIZE ∧ Dirent.decode (r.getD []) = entry n.bytes k) E := by
  have hsz := hn.size h
  have hM : MAXFILE * BSIZE < 2 ^ 32 := by decide
  have hle : k * DESIZE + DESIZE ≤ n.bytes.length := by
    have h1 := Nat.div_mul_le_self n.bytes.length DESIZE
    have h2 : (k + 1) * DESIZE ≤ n.bytes.length / DESIZE * DESIZE := Nat.mul_le_mul_right _ hk
    rw [Nat.succ_mul] at h2
    omega
  refine Spec.post (readi_node h hn (by omega)) ?_
  rintro r t ⟨ht, rfl⟩
  refine ⟨ht, ?_, rfl⟩
  simp only [Option.getD_some, List.length_take, List.length_drop]
  omega

theorem Took.congr (h : Took sb i t k u) (hto : To s t s.blk s.inode) : Took sb i s k u := by
  have hrefs : t.refs = s.refs := by unfold St.refs; rw [hto.inode]
  have hq := h.quiet
  rw [hrefs] at hq
  refine ⟨⟨hq.wf, ⟨hq.tab.file.trans hto.file, hq.tab.proc.trans hto.proc, ?_⟩, ?_⟩, h.blk.trans hto.blk, ?_, h.ptr⟩
  · rw [← hto.inode]; exact hq.tab.kept
  · rw [← node_congr sb hto.blk, ← hto.inode]; exact hq.node
  · rw [h.refs, hrefs]

/-- what `dirlookup` can return: the first entry with the name, and a reference to its inode -/
def LookupPost (sb : Superblock) (l name : List UInt8) (s : St) (r : Option (ℕ × ℕ)) (t : St) : Prop :=
  match r with
  | none => To s t s.blk s.inode ∧ ∀ k, k < l.length / DESIZE → ¬ Hit l name k
  | some (ip, off) => ∃ k, k < l.length / DESIZE ∧ off = k * DESIZE ∧ Hit l name k ∧ (∀ j, j < k → ¬ Hit l name j) ∧
      Took sb (entry l k).inum s ip t

theorem LookupPost.congr {r : Option (ℕ × ℕ)} (h : LookupPost sb l name t r u)
    (hto : To s t s.blk s.inode) : LookupPost sb l name s r u := by
  cases r with
  | none =>
    obtain ⟨h1, h2⟩ := h
    exact ⟨hto.next h1, h2⟩
  | some x =>
    obtain ⟨k, h1, h2, h3, h4, h5⟩ := h
    exact ⟨k, h1, h2, h3, h4, h5.congr hto⟩

theorem dirlookupLoop_spec (h : WF sb s) (hn : Live sb s ip i n) (hd : DirOK sb n.bytes) (name : List UInt8)
    (m k : ℕ) (hm : k + m = n.bytes.length / DESIZE) (hk : ∀ j, j < k → ¬ Hit n.bytes name j)
    (hE : s.empty = none → E .igetNoInodes) :
    Spec (dirlookupLoop sb ip name m (k * DESIZE)) s (fun r t => LookupPost sb n.bytes name s r t ∧ Looks s t) E := by
  induction m generalizing k s with
  | zero =>
    rw [Nat.add_zero] at hm
    exact Spec.pure ⟨⟨To.refl s, fun j hj => hk j (hm ▸ hj)⟩, (Reads.refl s).looks⟩
  | succ m ih =>
    unfold dirlookupLoop
    refine Spec.bind (read_entry h hn (k := k) (by omega)) ?_
    rintro r t ⟨hread, hlen, hdec⟩
    have ht := hread.to
    have hnext : k * DESIZE + DESIZE = (k + 1) * DESIZE := (Nat.succ_mul _ _).symm
    have hEt : t.empty = none → E .igetNoInodes := by
      unfold St.empty at hE ⊢
      rw [ht.inode]
      exact hE
    have hskip : ¬ Hit n.bytes name k → ∀ j, j < k + 1 → ¬ Hit n.bytes name j := by
      intro hno j hj
      rcases Nat.lt_succ_iff_lt_or_eq.1 hj with hj | rfl
      · exact hk j hj
      · exact hno
    have hgo : ¬ Hit n.bytes name k →
        Spec (dirlookupLoop sb ip name m (k * DESIZE + DESIZE)) t (fun r u => LookupPost sb n.bytes name s r u ∧
          Looks s u) E := by
      intro hno
      rw [hnext]
      exact Spec.post (ih (h.congr ht) (hn.congr ht) (k + 1) (by omega) (hskip hno) hEt) fun r u hu =>
        ⟨hu.1.congr ht, hread.looks.trans hu.2⟩
    simp only [hlen, ne_eq, not_true_eq_false, if_false, hdec]
    split_ifs with h0 h1
    · exact hgo fun hit => hit.1 h0
    · have hmem : entry n.bytes k ∈ entries n.bytes := mem_entries.2 ⟨k, by omega, rfl⟩
      refine Spec.bind ((iget_took (h.congr ht) (hd.2 _ hmem) hEt).and (looks_iget _)) ?_
      rintro jp u ⟨hu, hlook, -⟩
      exact Spec.pure ⟨⟨k, by omega, rfl, ⟨h0, h1⟩, hk, hu.congr ht⟩, hread.looks.trans hlook⟩
    · exact hgo fun hit => h1 hit.2

/-- `dirlookup` in a directory fails only if the inode table is full -/
theorem dirlookup_post (h : WF sb s) (hn : Live sb s ip i n) (hdir : n.type = T_DIR)
    (hE : s.empty = none → E .igetNoInodes) :
    Spec (dirlookup sb ip name) s (fun r t => LookupPost sb n.bytes name s r t ∧ Looks s t) E := by
  have hd := h.dirs i n hn.node hdir
  obtain ⟨htype, -, hsize⟩ := hn.din h
  unfold dirlookup
  refine Spec.bind_ok rfl ?_
  rw [if_neg (by rw [htype]; exact not_not.2 hdir), hsize]
  have hN : (n.bytes.length + (DESIZE - 1)) / DESIZE = n.bytes.length / DESIZE := by
    have := hd.1
    unfold DESIZE at this ⊢
    omega
  rw [hN]
  have := dirlookupLoop_spec h hn hd name (n.bytes.length / DESIZE) 0 (Nat.zero_add _)
    (fun j hj => absurd hj (Nat.not_lt_zero j)) hE
  rwa [Nat.zero_mul] at this

theorem dirlookup_spec (h : WF sb s) (hn : Live sb s ip i n) (hdir : n.type = T_DIR) :
    Spec (dirlookup sb ip name) s (LookupPost sb n.bytes name s) (Fault P) :=
  Spec.post (dirlookup_post h hn hdir fun _ => ⟨nofun, nofun⟩) fun _ _ ht => ht.1

/-! ## Linking -/

/-- writing one entry: all of it or nothing, because it does not cross a block boundary -/
theorem wrote_entry {m : ℕ} {w : List UInt8} (he : e.name.length = DIRSIZ)
    (hw : Wrote l (.kernel e.bytes) (k * DESIZE) DESIZE m w) :
    m = 0 ∧ written l (k * DESIZE) w m = l ∨ m = DESIZE ∧ written l (k * DESIZE) w m = putEntry l k e := by
  have hb := e.length_bytes he
  have hoff := hw.offset
  have hmod : k * DESIZE % BSIZE + DESIZE ≤ BSIZE := by unfold DESIZE BSIZE; omega
  have hlen := hw.clean (clean_kernel _)
  have hbytes := hw.bytes
  rw [← hlen, List.take_length] at hbytes
  unfold written
  rcases hw.whole (clean_kernel _) hmod with rfl | rfl
  · refine Or.inl ⟨rfl, ?_⟩
    rw [List.length_eq_zero_iff.1 hlen]
    simp [overwrite, hoff]
  have hwb : w = e.bytes := by
    rw [hbytes, hlen]
    apply List.ext_getElem
    · simp [hb]
    · intro j h1 h2
      simp [Src.byte, h2]
  refine Or.inr ⟨rfl, ?_⟩
  rw [hwb, List.take_of_length_le]
  · rfl
  · rw [length_overwrite _ _ hoff, hb]

theorem write_entry (hl : Layout sb) (h : WF sb s) (hn : Live sb s ip i n) (hdir : n.type = T_DIR)
    (hk : k ≤ n.bytes.length / DESIZE) (he : e.name.length = DIRSIZ) (hin : e.inum < sb.ninodes) :
    Spec (writei sb ip (.kernel e.bytes) (k * DESIZE) DESIZE) s (fun r t =>
      (r ≠ some DESIZE ∧ Quiet sb s.refs s t ∧ t.refs = s.refs ∧ t.node sb = s.node sb) ∨
      (r = some DESIZE ∧ Puts sb s t i (some { n with bytes := putEntry n.bytes k e }))) (Fault P) := by
  have hd := h.dirs i n hn.node hdir
  have hi16 : e.inum < 2 ^ 16 := lt_of_lt_of_le hin hl.inum
  have hsrc : (Src.kernel e.bytes).Has DESIZE := by
    intro b hb
    cases hb
    exact (e.length_bytes he).ge
  refine Spec.post (writei_puts hl h hn hsrc ?_) ?_
  · intro _ m w hw
    rcases wrote_entry he hw with ⟨-, h2⟩ | ⟨-, h2⟩
    · rw [h2]; exact hd
    · rw [h2]; exact dirOK_putEntry hd hk he hi16 hin
  rintro r t (⟨rfl, -, ht⟩ | ⟨m, w, rfl, hw, hp⟩)
  · have hrefs : t.refs = s.refs := by unfold St.refs; rw [ht.inode]
    exact Or.inl ⟨nofun,
      Quiet.of_table (h.congr ht) ht.blk ⟨ht.file, ht.proc, fun k _ => by rw [ht.inode]; exact ⟨rfl, id⟩⟩,
      hrefs, node_congr sb ht.blk⟩
  rcases wrote_entry he hw with ⟨rfl, h2⟩ | ⟨rfl, h2⟩
  · rw [h2] at hp
    have hnode : t.node sb = s.node sb := by
      rw [hp.node]
      have := hn.node
      rw [show some { n with bytes := n.bytes } = s.node sb i from this.symm, Function.update_eq_self]
    exact Or.inl ⟨by simp [DESIZE], ⟨hp.wf, hp.tab, fun j => Or.inl (by rw [hnode])⟩, hp.refs, hnode⟩
  · rw [h2] at hp
    exact Or.inr ⟨rfl, hp⟩

theorem dirlinkLoop_spec (h : WF sb s) (hn : Live sb s ip i n) (m k : ℕ)
    (hm : k + m = n.bytes.length / DESIZE) (hk : ∀ j, j < k → (entry n.bytes j).inum ≠ 0) :
    Spec (dirlinkLoop sb ip m (k * DESIZE)) s (fun off t => Reads s t ∧ ∃ k, k ≤ n.bytes.length / DESIZE ∧
      off = k * DESIZE ∧ (k < n.bytes.length / DESIZE → (entry n.bytes k).inum = 0) ∧
      ∀ j, j < k → (entry n.bytes j).inum ≠ 0) E := by
  induction m generalizing k s with
  | zero => exact Spec.pure ⟨Reads.refl s, k, by omega, rfl, by omega, hk⟩
  | succ m ih =>
    unfold dirlinkLoop
    refine Spec.bind (read_entry h hn (k := k) (by omega)) ?_
    rintro r t ⟨ht, hlen, hdec⟩
    simp only [hlen, ne_eq, not_true_eq_false, if_false, hdec]
    split_ifs with h0
    · exact Spec.pure ⟨ht, k, by omega, rfl, fun _ => h0, hk⟩
    rw [← Nat.succ_mul]
    refine Spec.post (ih (h.congr ht.to) (hn.congr ht.to) (k + 1) (by omega) fun j hj => ?_) ?_
    · rcases Nat.lt_succ_iff_lt_or_eq.1 hj with hj | rfl
      · exact hk j hj
      · exact h0
    · rintro off u ⟨hu, hrest⟩
      exact ⟨ht.trans hu, hrest⟩

/-- the entry that `dirlink` writes -/
def link (name : List UInt8) (inum : ℕ) : Dirent := ⟨inum, strncpy DIRSIZ name⟩

/-- what `dirlink` can return: the name was not there, and it is now in the first free place -/
def LinkPost (sb : Superblock) (i : ℕ) (n : Node) (name : List UInt8) (inum : ℕ) (s : St) (r : Bool) (t : St) : Prop :=
  match r with
  | false => Quiet sb s.refs s t ∧ t.refs = s.refs
  | true => ∃ k, k ≤ n.bytes.length / DESIZE ∧ (k < n.bytes.length / DESIZE → (entry n.bytes k).inum = 0) ∧
      (∀ j, j < k → (entry n.bytes j).inum ≠ 0) ∧ (∀ j, j < n.bytes.length / DESIZE → ¬ Hit n.bytes name j) ∧
      Puts sb s t i (some { n with bytes := putEntry n.bytes k (link name inum) })

theorem Puts.congr {o : Option Node} (h : Puts sb t u i o) (hto : To s t s.blk s.inode) : Puts sb s u i o := by
  have hrefs : t.refs = s.refs := by unfold St.refs; rw [hto.inode]
  have htab := h.tab
  rw [hrefs] at htab
  refine ⟨h.wf, ⟨htab.file.trans hto.file, htab.proc.trans hto.proc, ?_⟩, h.refs.trans hrefs, ?_⟩
  · rw [← hto.inode]; exact htab.kept
  · rw [h.node, node_congr sb hto.blk]

theorem Quiet.of_to (h : WF sb s) (hto : To s t s.blk s.inode) (F : ℕ → ℕ) : Quiet sb F s t :=
  Quiet.of_table (h.congr hto) hto.blk ⟨hto.file, hto.proc, fun k _ => by rw [hto.inode]; exact ⟨rfl, id⟩⟩

theorem dirlink_spec (hl : Layout sb) (h : WF sb s) (hn : Live sb s dp i n) (hdir : n.type = T_DIR)
    {inum : ℕ} (hinum : inum < sb.ninodes) :
    Spec (dirlink sb dp name inum) s (LinkPost sb i n name inum s) (Fault P) := by
  unfold dirlink
  refine Spec.bind (dirlookup_spec h hn hdir) ?_
  intro r t ht
  cases r with
  | some x =>
    obtain ⟨ip, off⟩ := x
    obtain ⟨k, -, -, -, -, htk⟩ := ht
    refine Spec.bind (iput_spec hl htk.quiet.wf htk.ptr htk.refs) ?_
    intro _ u hu
    exact Spec.pure ⟨htk.quiet.trans hu.quiet, hu.refs⟩
  | none =>
    obtain ⟨ht, hno⟩ := ht
    have hwf := h.congr ht
    have hn' := hn.congr ht
    have hd := h.dirs i n hn.node hdir
    have hsize := (hn'.din hwf).2.2
    have hN : ((t.inode dp).din.size.toNat + (DESIZE - 1)) / DESIZE = n.bytes.length / DESIZE := by
      have := hd.1
      rw [hsize]
      unfold DESIZE at this ⊢
      omega
    refine Spec.bind_ok rfl ?_
    rw [hN]
    have hloop := dirlinkLoop_spec (E := Fault P) hwf hn' (n.bytes.length / DESIZE) 0 (Nat.zero_add _)
      (fun j hj => absurd hj (Nat.not_lt_zero j))
    rw [Nat.zero_mul] at hloop
    refine Spec.bind hloop ?_
    rintro off u ⟨hu, k, hk, rfl, hfree, hused⟩
    have htu := ht.next hu.to
    have hrefs : u.refs = s.refs := by unfold St.refs; rw [htu.inode]
    refine Spec.bind (write_entry hl (h.congr htu) (hn.congr htu) hdir hk (e := link name inum)
      (length_strncpy _ _) hinum) ?_
    rintro r w (⟨hr, hq, hwr, -⟩ | ⟨rfl, hp⟩)
    · have : (r == some DESIZE) = false := by simpa using hr
      rw [this]
      refine Spec.pure ⟨(Quiet.of_to h htu s.refs).trans ?_, hwr.trans hrefs⟩
      rwa [hrefs] at hq
    · exact Spec.pure ⟨k, hk, hfree, hused, hno, hp.congr htu⟩

/-! ## Empty directories -/

theorem isdiremptyLoop_spec (h : WF sb s) (hn : Live sb s ip i n) (m k : ℕ) (hm : k + m = n.bytes.length / DESIZE) :
    Spec (isdiremptyLoop sb ip m (k * DESIZE)) s (fun r t => Reads s t ∧
      (r = true ↔ ∀ j, k ≤ j → j < n.bytes.length / DESIZE → (entry n.bytes j).inum = 0)) E := by
  induction m generalizing k s with
  | zero => exact Spec.pure ⟨Reads.refl s, by simp; omega⟩
  | succ m ih =>
    unfold isdiremptyLoop
    refine Spec.bind (read_entry h hn (k := k) (by omega)) ?_
    rintro r t ⟨ht, hlen, hdec⟩
    simp only [hlen, ne_eq, not_true_eq_false, if_false, hdec]
    split_ifs with h0
    · rw [← Nat.succ_mul]
      refine Spec.post (ih (h.congr ht.to) (hn.congr ht.to) (k + 1) (by omega)) ?_
      rintro r u ⟨hu, hr⟩
      refine ⟨ht.trans hu, hr.trans ⟨fun hall j hj => ?_, fun hall j hj => hall j (by omega)⟩⟩
      rcases Nat.eq_or_lt_of_le hj with rfl | hj
      · exact fun _ => h0
      · exact hall j hj
    · refine Spec.pure ⟨ht, ?_⟩
      simp only [Bool.false_eq_true, false_iff, not_forall]
      exact ⟨k, le_rfl, by omega, h0⟩

/-- `isdirempty` looks at the entries after the first two -/
theorem isdirempty_spec (h : WF sb s) (hn : Live sb s ip i n) (hdir : n.type = T_DIR) :
    Spec (isdirempty sb ip) s (fun r t => Reads s t ∧
      (r = true ↔ ∀ j, 2 ≤ j → j < n.bytes.length / DESIZE → (entry n.bytes j).inum = 0)) E := by
  have hd := h.dirs i n hn.node hdir
  have hsize := (hn.din h).2.2
  unfold isdirempty
  refine Spec.bind_ok rfl ?_
  rw [hsize]
  have hN : (n.bytes.length - 2 * DESIZE + (DESIZE - 1)) / DESIZE = n.bytes.length / DESIZE - 2 := by
    have := hd.1
    unfold DESIZE at this ⊢
    omega
  rw [hN]
  by_cases h2 : 2 ≤ n.bytes.length / DESIZE
  · exact isdiremptyLoop_spec h hn _ 2 (by omega)
  · rw [show n.bytes.length / DESIZE - 2 = 0 by omega]
    exact Spec.pure ⟨Reads.refl s, by simp; omega⟩

end Xv6.Fs
