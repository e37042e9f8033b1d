/-
Reading and writing the content of an inode (kernel/fs.c, `readi`, `writei`).

- `readi_spec`: `readi` returns the bytes of the content that the range covers and changes nothing.
- `writei_spec`: the content after `writei` is the old one with the bytes of the source written over it, up to where a
  block could not be allocated or a copy failed. A copy that fails in the middle leaves the bytes it had copied: they
  are part of the content if they fall below the size.
-/
import Mathlib.Data.List.GetD
import Xv6.Fs.Itrunc

namespace Xv6.Fs

open Xv6.Core

variable {sb : Superblock} {blk blk' blk'' : Store Block} {v : ℕ → Dinode} {i ip m : ℕ} {d d' d'' : Dinode} {s t : St}
  {E : Panic → Prop} {w : List UInt8}

/-! ## Reading -/

/-- n bytes of the content from offset off on -/
def slice (blk : Store Block) (d : Dinode) (off n : ℕ) : List UInt8 := (List.range n).map fun k =>
    byteAt blk d (off + k)

theorem slice_add (blk : Store Block) (d : Dinode) (off m n : ℕ) :
    slice blk d off (m + n) = slice blk d off m ++ slice blk d (off + m) n := by
  simp [slice, List.range_add, Nat.add_assoc, Function.comp_def]

theorem slice_eq {off n : ℕ} (h : off + n ≤ d.size.toNat) : slice blk d off n = ((content blk d).drop off).take n := by
  apply List.ext_getElem
  · simp [slice]; omega
  · intro k h1 h2
    simp [slice, content]

theorem mod_add_lt (off k : ℕ) (h : off % BSIZE + k < BSIZE) :
    (off + k) / BSIZE = off / BSIZE ∧ (off + k) % BSIZE = off % BSIZE + k := by
  have hpos : 0 < BSIZE := by decide
  constructor
  · rw [Nat.add_div hpos, if_neg (by rw [Nat.mod_eq_of_lt (show k < BSIZE by omega)]; omega),
      Nat.div_eq_of_lt (show k < BSIZE by omega)]
    rfl
  · rw [Nat.add_mod, Nat.mod_eq_of_lt (show k < BSIZE by omega), Nat.mod_eq_of_lt h]

theorem slice_block {off : ℕ} (h : off % BSIZE + m ≤ BSIZE) :
    slice blk d off m = (blk (slotOf blk d (off / BSIZE))).read (off % BSIZE) m := by
  refine List.map_congr_left fun k hk => ?_
  obtain ⟨h1, h2⟩ := mod_add_lt off k (by have := List.mem_range.1 hk; omega)
  unfold byteAt
  rw [h1, h2]

theorem div_lt_maxfile {off : ℕ} (h : off < MAXFILE * BSIZE) : off / BSIZE < MAXFILE :=
  Nat.div_lt_of_lt_mul (by rw [Nat.mul_comm]; exact h)

theorem readiLoop_spec {dst : Dst} (hm : Mapped s.blk (s.inode ip).din)
    (hs : (s.inode ip).din.size.toNat ≤ MAXFILE * BSIZE) (fuel off rest : ℕ) (acc : List UInt8) (hf : rest ≤ fuel)
    (hoff : off + rest ≤ (s.inode ip).din.size.toNat) :
    Spec (readiLoop sb ip dst fuel off rest acc) s (fun r t => Reads s t ∧
      (r = some (acc ++ slice s.blk (s.inode ip).din off rest) ∨ r = none ∧ dst ≠ .kernel)) E := by
  induction fuel generalizing off rest acc s with
  | zero =>
    obtain rfl : rest = 0 := by omega
    exact Spec.pure ⟨Reads.refl s, Or.inl (by simp [slice])⟩
  | succ fuel ih =>
    unfold readiLoop
    split_ifs with h0
    · subst h0
      exact Spec.pure ⟨Reads.refl s, Or.inl (by simp [slice])⟩
    have hlt : off / BSIZE < MAXFILE := div_lt_maxfile (by omega)
    have hslot := hm (off / BSIZE) (lt_of_le_of_lt (Nat.div_mul_le_self off BSIZE) (by omega))
    refine Spec.bind (bmap_mapped hlt hslot) ?_
    rintro a t ⟨rfl, ht⟩
    rw [if_neg hslot]
    refine Spec.bind_ok rfl (Spec.bind_ok rfl ?_)
    have hread := ht.trans (Reads.block t (slotOf s.blk (s.inode ip).din (off / BSIZE)))
    have hpos : 0 < BSIZE - off % BSIZE := Nat.sub_pos_of_lt (Nat.mod_lt _ (by decide))
    obtain ⟨m, hm'⟩ : ∃ m, m = min rest (BSIZE - off % BSIZE) := ⟨_, rfl⟩
    rw [← hm']
    split_ifs with hcopy
    · refine Spec.post (ih ?_ ?_ (off + m) (rest - m) _ (by omega) ?_) ?_
      · rw [hread.to.blk, hread.to.inode]; exact hm
      · rw [hread.to.inode]; exact hs
      · rw [hread.to.inode]; omega
      · rintro r u ⟨hu, hr⟩
        refine ⟨hread.trans hu, hr.imp_left fun hr => ?_⟩
        have hsum := slice_add s.blk (s.inode ip).din off m (rest - m)
        rw [slice_block (m := m) (by omega), show m + (rest - m) = rest by omega] at hsum
        rw [hr, List.append_assoc, hsum]
        show some (acc ++ ((t.blk _).read _ m ++ slice t.blk (t.inode ip).din _ _)) = _
        rw [ht.to.blk, ht.to.inode]
    · refine Spec.pure ⟨hread, Or.inr ⟨rfl, ?_⟩⟩
      rintro rfl; exact hcopy rfl

theorem readi_spec {dst : Dst} (hm : Mapped s.blk (s.inode ip).din)
    (hs : (s.inode ip).din.size.toNat ≤ MAXFILE * BSIZE) {off n : ℕ} (hn : off + n < 2 ^ 32) :
    Spec (readi sb ip dst off n) s (fun r t => Reads s t ∧
      (r = some (((content s.blk (s.inode ip).din).drop off).take n) ∨ r = none ∧ dst ≠ .kernel)) E := by
  unfold readi
  refine Spec.bind_ok rfl ?_
  split_ifs with hoff hgt
  · refine Spec.pure ⟨Reads.refl s, Or.inl ?_⟩
    rw [List.drop_eq_nil_of_le (by rw [length_content]; omega), List.take_nil]
  · refine Spec.post (readiLoop_spec hm hs _ off _ [] le_rfl (by omega)) ?_
    rintro r t ⟨ht, hr⟩
    refine ⟨ht, hr.imp_left fun hr => ?_⟩
    rw [hr, List.nil_append, slice_eq (by omega), List.take_of_length_le (by simp),
      List.take_of_length_le (by simp; omega)]
  · refine Spec.post (readiLoop_spec hm hs _ off _ [] le_rfl (by omega)) ?_
    rintro r t ⟨ht, hr⟩
    refine ⟨ht, hr.imp_left fun hr => ?_⟩
    rw [hr, List.nil_append, slice_eq (by omega)]

theorem readi_kernel (hm : Mapped s.blk (s.inode ip).din) (hs : (s.inode ip).din.size.toNat ≤ MAXFILE * BSIZE)
    {off n : ℕ} (hn : off + n < 2 ^ 32) :
    Spec (readi sb ip .kernel off n) s (fun r t => Reads s t ∧
      r = some (((content s.blk (s.inode ip).din).drop off).take n)) E :=
  Spec.post (readi_spec hm hs hn) fun _ _ h => ⟨h.1, h.2.resolve_right fun h => h.2 rfl⟩

/-! ## Writing -/

/-- byte x of a source -/
def Src.byte (src : Src) (x : ℕ) : UInt8 :=
  match src with
  | .kernel bytes => bytes.getD x 0
  | .user mem va => match mem ((va + x) / PGSIZE) with
    | some page => page.get ((va + x) % PGSIZE)
    | none => 0

/-- the source has n bytes; user memory is read as far as it goes -/
def Src.Has (src : Src) (n : ℕ) : Prop := ∀ bytes, src = .kernel bytes → n ≤ bytes.length

theorem copyin_length (mem : UserMem) (fuel va len : ℕ) : (copyin mem fuel va len).1.length ≤ len := by
  induction fuel generalizing va len with
  | zero => exact Nat.zero_le _
  | succ fuel ih =>
    unfold copyin
    split_ifs with h0
    · exact Nat.zero_le _
    cases mem (va / PGSIZE) with
    | none => exact Nat.zero_le _
    | some page =>
      have := ih ((va / PGSIZE + 1) * PGSIZE) (len - min (PGSIZE - va % PGSIZE) len)
      simp only [List.length_append, Bytes.length_read]
      omega

theorem copyin_ok (mem : UserMem) (fuel va len : ℕ) (hf : len ≤ fuel) (h : (copyin mem fuel va len).2 = true) :
    (copyin mem fuel va len).1 = (List.range len).map fun k => (Src.user mem va).byte k := by
  induction fuel generalizing va len with
  | zero =>
    obtain rfl : len = 0 := by omega
    rfl
  | succ fuel ih =>
    unfold copyin at h ⊢
    split_ifs at h ⊢ with h0
    · rw [h0]; rfl
    cases hp : mem (va / PGSIZE) with
    | none => rw [hp] at h; cases h
    | some page =>
      rw [hp] at h
      have hmod : va % PGSIZE < PGSIZE := Nat.mod_lt _ (by decide)
      have hdiv := Nat.div_add_mod va PGSIZE
      obtain ⟨n, hn⟩ : ∃ n, n = min (PGSIZE - va % PGSIZE) len := ⟨_, rfl⟩
      simp only [← hn] at h ⊢
      have hlen : len = n + (len - n) := by omega
      rw [ih _ _ (by omega) h]
      conv_rhs => rw [hlen, List.range_add, List.map_append, List.map_map]
      congr 1
      · refine List.map_congr_left fun k hk => ?_
        have hk := List.mem_range.1 hk
        have h1 : (va + k) / PGSIZE = va / PGSIZE := by
          rw [Nat.add_div (by decide), if_neg (by rw [Nat.mod_eq_of_lt (show k < PGSIZE by omega)]; omega),
            Nat.div_eq_of_lt (show k < PGSIZE by omega)]
          rfl
        have h2 : (va + k) % PGSIZE = va % PGSIZE + k := by
          rw [Nat.add_mod, Nat.mod_eq_of_lt (show k < PGSIZE by omega), Nat.mod_eq_of_lt (by omega)]
        simp only [Src.byte, h1, h2, hp]
      · refine List.map_congr_left fun k hk => ?_
        have hk := List.mem_range.1 hk
        -- there is a next page only if this one was read to its end
        have hnext : va + n = (va / PGSIZE + 1) * PGSIZE := by
          rw [Nat.add_mul, Nat.mul_comm, Nat.one_mul]; omega
        simp only [Src.byte, Function.comp_apply, ← hnext, Nat.add_assoc]

theorem eitherCopyin_length (src : Src) (off m : ℕ) : (eitherCopyin src off m).1.length ≤ m := by
  cases src with
  | kernel bytes => simp [eitherCopyin]
  | user mem va => exact copyin_length mem m (va + off) m

theorem eitherCopyin_ok {src : Src} {off : ℕ} (hs : src.Has (off + m)) (h : (eitherCopyin src off m).2 = true) :
    (eitherCopyin src off m).1 = (List.range m).map fun k => src.byte (off + k) := by
  cases src with
  | kernel bytes =>
    have := hs bytes rfl
    apply List.ext_getElem
    · simp [eitherCopyin]; omega
    · intro k h1 h2
      simp only [List.length_map, List.length_range] at h2
      simp [eitherCopyin, Src.byte, show off + k < bytes.length by omega]
  | user mem va =>
    show (copyin mem m (va + off) m).1 = _
    rw [copyin_ok mem m (va + off) m le_rfl h]
    simp only [Src.byte, Nat.add_assoc]

/-- replace the bytes from offset off on -/
def overwrite (l : List UInt8) (off : ℕ) (w : List UInt8) : List UInt8 := l.take off ++ (w ++ l.drop (off + w.length))

theorem length_overwrite (l : List UInt8) {off : ℕ} (w : List UInt8) (h : off ≤ l.length) :
    (overwrite l off w).length = max l.length (off + w.length) := by
  simp [overwrite]; omega

theorem getElem_overwrite (l : List UInt8) {off : ℕ} (w : List UInt8) (h : off ≤ l.length) {q : ℕ}
    (hq : q < (overwrite l off w).length) :
    (overwrite l off w)[q] = if off ≤ q ∧ q < off + w.length then w.getD (q - off) 0 else l.getD q 0 := by
  have hlen : (l.take off).length = off := by simp; omega
  have hq' := hq
  rw [length_overwrite l w h] at hq'
  simp only [overwrite, List.getElem_append, List.getElem_take, List.getElem_drop, hlen]
  by_cases h1 : q < off
  · rw [dif_pos h1, if_neg (by omega), List.getD_eq_getElem _ _ (by omega)]
  rw [dif_neg h1]
  by_cases h2 : q - off < w.length
  · rw [dif_pos h2, if_pos (by omega), List.getD_eq_getElem _ _ (by omega)]
  · rw [dif_neg h2, if_neg (by omega), List.getD_eq_getElem _ _ (by omega)]
    congr 1
    omega

/-- the bytes w have been stored from offset off on; the first m of them have a block in any case -/
structure Patch (blk : Store Block) (d : Dinode) (blk' : Store Block) (d' : Dinode) (off : ℕ) (w : List UInt8) (m : ℕ) :
    Prop where
  le : m ≤ w.length
  same : ∃ a, d' = { d with addrs := a }
  byte : ∀ q, q < MAXFILE * BSIZE → slotOf blk d (q / BSIZE) ≠ 0 ∨ off ≤ q ∧ q < off + m →
    slotOf blk' d' (q / BSIZE) ≠ 0 ∧
      byteAt blk' d' q = if off ≤ q ∧ q < off + w.length then w.getD (q - off) 0 else byteAt blk d q

theorem Ext.patch (h : Ext blk d blk' d') (off : ℕ) : Patch blk d blk' d' off [] 0 := by
  refine ⟨le_rfl, h.same, fun q hq hc => ?_⟩
  obtain ⟨h1, h2⟩ := h.keep (q / BSIZE) (div_lt_maxfile hq) (hc.resolve_right (by omega))
  rw [h1, if_neg (by simp)]
  refine ⟨hc.resolve_right (by omega), ?_⟩
  unfold byteAt
  rw [h1, h2]

theorem Patch.trans {off n : ℕ} {x : List UInt8} (h : Patch blk d blk' d' off w m) (hw : w.length = m)
    (h' : Patch blk' d' blk'' d'' (off + m) x n) : Patch blk d blk'' d'' off (w ++ x) (m + n) := by
  have hle := h'.le
  refine ⟨by rw [List.length_append]; omega, ?_, fun q hq hc => ?_⟩
  · obtain ⟨a, rfl⟩ := h.same
    obtain ⟨b, rfl⟩ := h'.same
    exact ⟨b, rfl⟩
  by_cases hq1 : slotOf blk d (q / BSIZE) ≠ 0 ∨ off ≤ q ∧ q < off + m
  · obtain ⟨h1, h2⟩ := h.byte q hq hq1
    obtain ⟨h3, h4⟩ := h'.byte q hq (Or.inl h1)
    refine ⟨h3, ?_⟩
    rw [h4, h2, List.length_append]
    by_cases hin : off ≤ q ∧ q < off + m
    · rw [if_neg (by omega), if_pos (by omega), if_pos (by omega), List.getD_append _ _ _ _ (by omega)]
    · by_cases hx : off + m ≤ q ∧ q < off + m + x.length
      · rw [if_pos hx, if_pos (by omega), List.getD_append_right _ _ _ _ (by omega)]
        congr 1
        omega
      · rw [if_neg hx, if_neg (by omega), if_neg (by omega)]
  · have hq2 : off + m ≤ q ∧ q < off + m + n := by
      rcases hc with hc | hc
      · exact absurd (Or.inl hc) hq1
      · refine ⟨?_, by omega⟩
        by_contra hlt
        exact hq1 (Or.inr ⟨hc.1, by omega⟩)
    obtain ⟨h3, h4⟩ := h'.byte q hq (Or.inr hq2)
    refine ⟨h3, ?_⟩
    rw [h4, if_pos (by omega), List.length_append, if_pos (by omega), List.getD_append_right _ _ _ _ (by omega)]
    congr 1
    omega

/-- what a write to inode i keeps -/
structure Touch (sb : Superblock) (v : ℕ → Dinode) (i : ℕ) (blk blk' : Store Block) (d' : Dinode) : Prop where
  good : Good sb blk' (Function.update v i d')
  frame : Frame sb v i blk blk'
  dino : ∀ j, j < sb.ninodes → dino sb blk' j = dino sb blk j

theorem Grow.touch (h : Grow sb v i blk d blk' d') : Touch sb v i blk blk' d' := ⟨h.good, h.frame, h.dino⟩

theorem Touch.trans (h : Touch sb v i blk blk' d') (h' : Touch sb v i blk' blk'' d'') : Touch sb v i blk blk'' d'' :=
  ⟨h'.good, h.frame.trans h'.frame, fun j hj => (h'.dino j hj).trans (h.dino j hj)⟩

section Store

variable (h : Good sb blk (Function.update v i d)) (hi : i < sb.ninodes) (ht : d.type ≠ 0) {k : ℕ} (hk : k < MAXFILE)
  (h0 : slotOf blk d k ≠ 0)
include h hi ht hk h0

theorem slotOf_store (x : Block) (j : ℕ) : slotOf (blk.set (slotOf blk d k) x) d j = slotOf blk d j := by
  refine slotOf_congr (fun _ => Store.set_ne _ _ ?_) j
  have hne := h.slot_ne hi (by rwa [Function.update_self]) (show k ≠ MAXFILE by omega)
  rw [Function.update_self, slotOf_max] at hne
  exact (hne h0).symm

theorem Good.store (hl : Layout sb) (x : Block) : Touch sb v i blk (blk.set (slotOf blk d k) x) d := by
  have hd : IsData sb (slotOf blk d k) := by
    have := h.slot_data hi (by rwa [Function.update_self]) (k := k)
    rw [Function.update_self] at this
    exact this h0
  have hf : Frame sb v i blk (blk.set (slotOf blk d k) x) :=
    h.frame_set (Or.inr (Or.inr ⟨k, slot_self hi ht k⟩))
  have hslot := slotOf_store h hi ht hk h0 x
  have hm := h.mapped i hi
  have hs := h.size i hi
  rw [Function.update_self] at hm hs
  refine ⟨h.of_frame hf (h.own.congr (fun c hc => bitAt_set_data hd x hc.2) ?_) (fun c hc => ?_) (fun ht j hj => ?_) hs,
    hf, fun j hj => dino_set_data hl hd x hj⟩
  · rintro ⟨j, k'⟩
    by_cases hj : j = i
    · subst hj
      rw [slot_self hi ht, slot_self hi ht, hslot]
    · rw [slot_update hj, slot_update hj, hf.slot hj]
  · have := hl.data
    rw [bitAt_set_data hd x (by omega)]; exact h.reserved c hc
  · rw [hslot]; exact hm ht j hj

theorem Good.patch {off : ℕ} (hoff : off / BSIZE = k) {w : List UInt8} (hw : off % BSIZE + w.length ≤ BSIZE) {m : ℕ}
    (hm : m ≤ w.length) :
    Patch blk d (blk.set (slotOf blk d k) ((blk (slotOf blk d k)).write (off % BSIZE) w)) d off w m := by
  have hslot := slotOf_store h hi ht hk h0 ((blk (slotOf blk d k)).write (off % BSIZE) w)
  have hqk : ∀ q, off ≤ q → q < off + w.length → q / BSIZE = k ∧ q % BSIZE = off % BSIZE + (q - off) := by
    intro q h1 h2
    have := mod_add_lt off (q - off) (by omega)
    rw [show off + (q - off) = q by omega, hoff] at this
    exact this
  refine ⟨hm, ⟨d.addrs, rfl⟩, fun q hq hc => ⟨?_, ?_⟩⟩
  · rw [hslot]
    rcases hc with hc | hc
    · exact hc
    · rw [(hqk q hc.1 (by omega)).1]; exact h0
  unfold byteAt
  rw [hslot]
  have hmod : q % BSIZE < BSIZE := Nat.mod_lt _ (by decide)
  by_cases hin : off ≤ q ∧ q < off + w.length
  · obtain ⟨h1, h2⟩ := hqk q hin.1 hin.2
    rw [if_pos hin, h1, Store.set_self, Bytes.get_write _ _ _ _ hmod, if_pos (by omega), h2, Nat.add_sub_cancel_left]
  rw [if_neg hin]
  by_cases hqk' : q / BSIZE = k
  · rw [hqk', Store.set_self, Bytes.get_write _ _ _ _ hmod, if_neg]
    -- the same block, another offset
    have hd1 := Nat.div_add_mod q BSIZE
    have hd2 := Nat.div_add_mod off BSIZE
    rw [hqk', ← hoff] at hd1
    omega
  · by_cases hz : slotOf blk d (q / BSIZE) = 0
    · rw [Store.set_ne _ _ (by rw [hz]; exact h0.symm)]
    · rw [Store.set_ne]
      have := h.slot_ne hi (by rwa [Function.update_self]) hqk' (by rwa [Function.update_self])
      rwa [Function.update_self] at this

end Store

/-- a failed copy has copied nothing -/
def Src.Clean (src : Src) : Prop := ∀ off m, (eitherCopyin src off m).2 = false → (eitherCopyin src off m).1 = []

theorem clean_kernel (bytes : List UInt8) : (Src.kernel bytes).Clean := fun _ _ h => by cases h

theorem fill_spec {addr off : ℕ} {bytes : List UInt8} :
    Spec (fill addr (s.blk addr) off bytes) s
      (fun _ t => To s t (s.blk.set addr ((s.blk addr).write off bytes)) s.inode) E := by
  unfold fill
  split_ifs with h
  · have : (s.blk addr).write off [] = s.blk addr := by
      funext j
      simp [Bytes.write]
    rw [h, this, Store.set_same]
    exact Spec.pure (To.refl s)
  · exact Spec.of_ok rfl ⟨rfl, rfl, rfl, rfl⟩

/-- what the loop of `writei` can return: m more bytes have been written, w has been stored -/
structure WritePost (sb : Superblock) (v : ℕ → Dinode) (i ip : ℕ) (src : Src) (tot off rest : ℕ) (s t : St) (m : ℕ)
    (w : List UInt8) (blk' : Store Block) (d' : Dinode) : Prop where
  le : m ≤ rest
  upd : Upd s t ip blk' d'
  touch : Touch sb v i s.blk blk' d'
  patch : Patch s.blk (s.inode ip).din blk' d' off w m
  max : w.length ≤ rest
  bytes : w.take m = (List.range m).map fun k => src.byte (tot + k)
  clean : src.Clean → w.length = m
  whole : src.Clean → off % BSIZE + rest ≤ BSIZE → m = 0 ∨ m = rest

theorem WritePost.nothing {src : Src} {tot off rest : ℕ} (hu : Upd s t ip blk' d')
    (hg : Grow sb v i s.blk (s.inode ip).din blk' d') : WritePost sb v i ip src tot off rest s t 0 [] blk' d' :=
  ⟨Nat.zero_le _, hu, hg.touch, hg.ext.patch off, Nat.zero_le _, rfl, fun _ => rfl, fun _ _ => Or.inl rfl⟩

/-- one round that copied all of its m bytes, and the rounds after it -/
theorem WritePost.cons {src : Src} {tot off rest m' : ℕ} {u : St} {w' : List UInt8} (hu : Upd s t ip blk' d')
    (ht : Touch sb v i s.blk blk' d') (hp : Patch s.blk (s.inode ip).din blk' d' off w m) (hlen : w.length = m)
    (hw : w = (List.range m).map fun k => src.byte (tot + k)) (hm : m ≤ rest)
    (hmod : off % BSIZE + rest ≤ BSIZE → m = rest)
    (h : WritePost sb v i ip src (tot + m) (off + m) (rest - m) t u m' w' blk'' d'') :
    WritePost sb v i ip src tot off rest s u (m + m') (w ++ w') blk'' d'' := by
  have hle := h.le
  have hmax := h.max
  have htouch := h.touch
  have hpatch := h.patch
  rw [hu.blk] at htouch hpatch
  rw [show (t.inode ip).din = d' by rw [hu.entry]] at hpatch
  refine ⟨by omega, hu.trans h.upd, ht.trans htouch, hp.trans hlen hpatch, ?_, ?_, fun hc => ?_, fun hc hb => ?_⟩
  · rw [List.length_append]; omega
  · rw [← hlen, List.take_length_add_append, h.bytes, hlen, List.range_add, List.map_append, List.map_map, ← hw]
    simp only [Function.comp_def, Nat.add_assoc]
  · rw [List.length_append, hlen, h.clean hc]
  · have := hmod hb
    omega

theorem writeiLoop_spec (hl : Layout sb) (hi : i < sb.ninodes) {src : Src} (fuel tot off rest : ℕ) (hf : rest ≤ fuel)
    (h : Good sb s.blk (Function.update v i (s.inode ip).din)) (ht : (s.inode ip).din.type ≠ 0)
    (hmax : off + rest ≤ MAXFILE * BSIZE) (hsrc : src.Has (tot + rest)) :
    Spec (writeiLoop sb ip src fuel tot off rest) s (fun r t => ∃ m w blk' d', r = (tot + m, off + m) ∧
      WritePost sb v i ip src tot off rest s t m w blk' d' ∧
      ((∀ off m, (eitherCopyin src off m).2 = true) → m < rest → Full sb t.blk)) E := by
  induction fuel generalizing tot off rest s with
  | zero => exact Spec.pure ⟨0, [], s.blk, _, rfl, WritePost.nothing (Upd.of_to (To.refl s) ip) (Grow.refl h),
      fun _ hlt => by omega⟩
  | succ fuel ih =>
    unfold writeiLoop
    split_ifs with h0
    · exact Spec.pure ⟨0, [], s.blk, _, rfl, WritePost.nothing (Upd.of_to (To.refl s) ip) (Grow.refl h),
      fun _ hlt => by omega⟩
    have hlt : off / BSIZE < MAXFILE := div_lt_maxfile (by omega)
    refine Spec.bind (bmap_spec hl h hi ht hlt) ?_
    rintro a t ⟨⟨blk', d', hu, hg, ha⟩, hfull⟩
    split_ifs with ha0
    · exact Spec.pure ⟨0, [], blk', d', rfl, WritePost.nothing hu hg, fun _ _ => hfull ha0⟩
    have ha := ha ha0
    refine Spec.bind_ok rfl ?_
    have hmod : off % BSIZE < BSIZE := Nat.mod_lt _ (by decide)
    obtain ⟨m, hm⟩ : ∃ m, m = min rest (BSIZE - off % BSIZE) := ⟨_, rfl⟩
    rw [← hm]
    refine Spec.bind fill_spec ?_
    rintro - u hu'
    have hlen := eitherCopyin_length src tot m
    have ht' : d'.type ≠ 0 := by rw [hg.ext.type]; exact ht
    have hblk : t.blk = blk' := hu.blk
    subst ha
    -- the state after the copy: the block of this offset has been overwritten
    have hupd : Upd s u ip _ d' := ⟨hu'.blk, hu'.inode.trans hu.inode, hu'.file.trans hu.file,
      hu'.proc.trans hu.proc⟩
    have htouch := hg.touch.trans (hg.good.store hi ht' hlt ha0 hl
      ((blk' (slotOf blk' d' (off / BSIZE))).write (off % BSIZE) (eitherCopyin src tot m).1))
    have hpatch : ∀ n, n ≤ (eitherCopyin src tot m).1.length → Patch s.blk (s.inode ip).din
        (blk'.set (slotOf blk' d' (off / BSIZE)) ((blk' (slotOf blk' d' (off / BSIZE))).write (off % BSIZE)
          (eitherCopyin src tot m).1)) d' off (eitherCopyin src tot m).1 n := fun n hn => by
      have := (hg.ext.patch off).trans rfl (hg.good.patch hi ht' hlt ha0 rfl (by omega) hn)
      rwa [Nat.zero_add, List.nil_append] at this
    simp only [hblk] at hupd
    split_ifs with hok
    · have hbytes := eitherCopyin_ok (fun b hb => by have := hsrc b hb; omega) hok
      have hwlen : (eitherCopyin src tot m).1.length = m := by rw [hbytes]; simp
      refine Spec.bind_ok rfl (Spec.bind_ok rfl ?_)
      refine Spec.post (ih (tot + m) (off + m) (rest - m) (by omega) ?_ ?_ (by omega)
        fun b hb => by have := hsrc b hb; omega) ?_
      · show Good sb u.blk (Function.update v i (u.inode ip).din)
        rw [hupd.blk, hupd.entry]; exact htouch.good
      · show (u.inode ip).din.type ≠ 0
        rw [hupd.entry]; exact ht'
      · rintro r x ⟨m', w', blk'', d'', rfl, hp, hfull'⟩
        refine ⟨m + m', (eitherCopyin src tot m).1 ++ w', blk'', d'', by simp only [Nat.add_assoc], ?_,
          fun hcopy hlt => hfull' hcopy (by omega)⟩
        refine WritePost.cons ?_ htouch (hpatch m hwlen.ge) hwlen hbytes (by omega) (fun _ => by omega) hp
        exact ⟨hupd.blk, hupd.inode, hupd.file, hupd.proc⟩
    · refine Spec.of_ok rfl ⟨0, (eitherCopyin src tot m).1, _, d', rfl, ⟨Nat.zero_le _,
        ⟨hupd.blk, hupd.inode, hupd.file, hupd.proc⟩, htouch, hpatch 0 (Nat.zero_le _), by omega, rfl, fun hc => ?_,
        fun _ _ => Or.inl rfl⟩, fun hcopy => absurd (hcopy tot m) hok⟩
      rw [hc tot m (by simpa using hok)]; rfl

/-- the fields other than the addresses change: the inode keeps its slots -/
theorem Good.fields (h : Good sb blk (Function.update v i d)) (ht : d.type ≠ 0) (ha : d'.addrs = d.addrs)
    (ht' : d'.type ≠ 0) (hm : Mapped blk d') (hs : d'.size.toNat ≤ MAXFILE * BSIZE) :
    Good sb blk (Function.update v i d') := by
  have haddr : ∀ k, d'.addr k = d.addr k := fun k => by simp [Dinode.addr, ha]
  refine h.of_frame (Frame.refl _ _ _ _) (h.own.congr (fun _ _ => rfl) ?_) h.reserved (fun _ => hm) (fun _ => hs)
  rintro ⟨j, k⟩
  by_cases hj : j = i
  · subst hj
    simp [slot, slotOf, haddr, ht, ht']
  · rw [slot_update hj, slot_update hj]

theorem Patch.contents {off n : ℕ} (h : Patch blk d blk' d' off w m) (hm : Mapped blk d)
    (hoff : off ≤ d.size.toNat) (hn : n = max d.size.toNat (off + m)) (hmax : n ≤ MAXFILE * BSIZE) {e : Dinode}
    (he : e.size.toNat = n) (hea : e.addrs = d'.addrs) :
    Mapped blk' e ∧ content blk' e = (overwrite (content blk d) off w).take n := by
  have hle := h.le
  have hslot : ∀ k, slotOf blk' e k = slotOf blk' d' k := fun k => by simp [slotOf, Dinode.addr, hea]
  -- every offset below the new size has a block
  have hq : ∀ q, q < n → slotOf blk d (q / BSIZE) ≠ 0 ∨ off ≤ q ∧ q < off + m := by
    intro q hq
    by_cases hlt : q < d.size.toNat
    · exact Or.inl (hm _ (lt_of_le_of_lt (Nat.div_mul_le_self q BSIZE) hlt))
    · exact Or.inr ⟨by omega, by omega⟩
  constructor
  · intro k hk
    rw [he] at hk
    have := (h.byte (k * BSIZE) (by omega) (hq _ hk)).1
    rwa [Nat.mul_div_cancel _ (by decide), ← hslot] at this
  · apply List.ext_getElem
    · rw [List.length_take, length_overwrite _ _ (by rwa [length_content]), length_content, length_content, he]
      omega
    · intro q h1 h2
      rw [length_content, he] at h1
      have hb := (h.byte q (by omega) (hq q h1)).2
      have hbe : byteAt blk' e q = byteAt blk' d' q := by unfold byteAt; rw [hslot]
      rw [List.getElem_take, getElem_overwrite _ _ (by rwa [length_content])]
      simp only [content, List.getElem_map, List.getElem_range]
      rw [hbe, hb]
      split_ifs with hin
      · rfl
      · rw [List.getD_eq_getElem _ _ (by simp; omega)]
        simp

/-- what `writei` leaves when it returns m: w has been stored from offset off on, and the first m bytes of it count -/
structure Written (sb : Superblock) (v : ℕ → Dinode) (i ip : ℕ) (src : Src) (off n : ℕ) (s t : St) (m : ℕ)
    (w : List UInt8) (blk' : Store Block) (d' : Dinode) : Prop where
  le : m ≤ n
  upd : Upd s t ip (setDino sb blk' i d') d'
  touch : Touch sb v i s.blk blk' d'
  fields : ∃ a size, d' = { (s.inode ip).din with addrs := a, size := size }
  content : content blk' d' = (overwrite (content s.blk (s.inode ip).din) off w).take
    (max (s.inode ip).din.size.toNat (off + m))
  room : m ≤ w.length ∧ w.length ≤ n
  bytes : w.take m = (List.range m).map src.byte
  clean : src.Clean → w.length = m
  whole : src.Clean → off % BSIZE + n ≤ BSIZE → m = 0 ∨ m = n

/-- what `writei` can return -/
def WriteiPost (sb : Superblock) (v : ℕ → Dinode) (i ip : ℕ) (src : Src) (off n : ℕ) (s : St) (r : Option ℕ) (t : St) :
    Prop :=
  (r = none ∧ ((s.inode ip).din.size.toNat < off ∨ MAXFILE * BSIZE < off + n) ∧ To s t s.blk s.inode) ∨
    ∃ m w blk' d', r = some m ∧ off ≤ (s.inode ip).din.size.toNat ∧ off + n ≤ MAXFILE * BSIZE ∧
      Written sb v i ip src off n s t m w blk' d'

section

variable (hl : Layout sb) (hi : i < sb.ninodes) (h : Good sb s.blk (Function.update v i (s.inode ip).din))
  (ht : (s.inode ip).din.type ≠ 0) (hinum : (s.inode ip).inum = i) {src : Src} {off n : ℕ}
include hi h ht hinum

/-- the end of `writei`: the inode e is written back, which is d' with its size raised if necessary -/
theorem writei_finish {u : St} {e : Dinode}
    (hoff : off ≤ (s.inode ip).din.size.toNat) (hmax : off + n ≤ MAXFILE * BSIZE)
    (hp : WritePost sb v i ip src 0 off n s t m w blk' d') (hu : Upd s u ip blk' e)
    (he : ∃ size, e = { d' with size := size })
    (hes : e.size.toNat = max (s.inode ip).din.size.toNat (off + m)) :
    Spec (do
      iupdate sb ip
      pure (some (0 + m))) u (WriteiPost sb v i ip src off n s) E := by
  have hm := h.mapped i hi
  have hsz := h.size i hi
  rw [Function.update_self] at hm hsz
  have hsz := hsz ht
  have hle := hp.le
  obtain ⟨a, hd'⟩ := hp.patch.same
  obtain ⟨size, he⟩ := he
  have hea : e.addrs = d'.addrs := by rw [he]
  have htype : d'.type ≠ 0 := by rw [hd']; exact ht
  obtain ⟨hmap, hcont⟩ := hp.patch.contents (hm ht) hoff rfl (by omega) hes hea
  refine Spec.bind iupdate_spec ?_
  rintro - x hx
  refine Spec.pure (Or.inr ⟨m, w, blk', e, by rw [Nat.zero_add], hoff, hmax, ?_⟩)
  have hupd := hu.iupdate hx
  rw [hinum] at hupd
  refine ⟨hle, hupd, ⟨hp.touch.good.fields htype hea (by rw [he]; exact htype) hmap (by omega), hp.touch.frame,
    hp.touch.dino⟩, ⟨a, size, by rw [he, hd']⟩, hcont, ⟨hp.patch.le, hp.max⟩, ?_, hp.clean, hp.whole⟩
  simpa only [Nat.zero_add] using hp.bytes

include hl in
theorem writei_spec (hsrc : src.Has n) :
    Spec (writei sb ip src off n) s (WriteiPost sb v i ip src off n s) E := by
  have hM : MAXFILE * BSIZE < 2 ^ 32 := by decide
  unfold writei
  refine Spec.bind_ok rfl ?_
  split_ifs with h1 h2
  · exact Spec.pure (Or.inl ⟨rfl, by omega, To.refl s⟩)
  · exact Spec.pure (Or.inl ⟨rfl, by omega, To.refl s⟩)
  · refine Spec.bind (writeiLoop_spec hl hi n 0 off n le_rfl h ht (by omega) (by rwa [Nat.zero_add])) ?_
    rintro r t ⟨m, w, blk', d', rfl, hp, -⟩
    have hle := hp.le
    have hsize : d'.size = (s.inode ip).din.size := by
      obtain ⟨a, rfl⟩ := hp.patch.same
      rfl
    refine Spec.bind_ok rfl ?_
    have htd : (t.inode ip).din = d' := by rw [hp.upd.entry]
    rw [htd, hsize]
    split_ifs with hgrow
    · refine Spec.bind_ok rfl (writei_finish hi h ht hinum (by omega) (by omega) hp (hp.upd.trans ?_)
        ⟨UInt32.ofNat (off + m), rfl⟩ ?_)
      · exact ⟨hp.upd.blk, rfl, rfl, rfl⟩
      · show (UInt32.ofNat (off + m)).toNat = _
        simp only at hgrow
        rw [UInt32.toNat_ofNat_of_lt' (by show off + m < 2 ^ 32; omega)]
        omega
    · refine writei_finish hi h ht hinum (by omega) (by omega) hp hp.upd ⟨d'.size, rfl⟩ ?_
      rw [hsize]
      simp only at hgrow
      omega

end

end Xv6.Fs
