/-
The content of a file as a byte string (kernel/fs.c: `readi`, `writei`; kernel/file.c: `filewrite`).

- `writei_content`: if the copies from the source succeed, `writei` replaces the bytes from off on by the first k of the
  data. It stops before the last of them only when the disk is full (`Full`).
- `readi_content`: `readi` returns the bytes of the content in the range.
- `file_content` puts them together. In all of them the other inodes are as before.
-/
import Xv6.Fs.Append

namespace Xv6.Fs

open Xv6.Core
open Xv6.Fs.Append (writeChunk filewriteLoop_round)

variable {sb : Superblock} {v : ℕ → Dinode} {i ip : ℕ} {s t : St} {E : Panic → Prop} {src : Src} {dst : Dst}
  {l : List UInt8}

/-! ## A full disk -/

theorem Full.setDino {blk : Store Block} (hfull : Full sb blk) (hl : Layout sb) (hi : i < sb.ninodes) (d : Dinode) :
    Full sb (Fs.setDino sb blk i d) := by
  intro c hc
  exact (bitAt_congr (Store.set_ne _ _ (hl.iblock_ne_bblock hi c).symm)).trans (hfull c hc)

section

variable (hl : Layout sb) (hi : i < sb.ninodes) (h : Good sb s.blk (Function.update v i (s.inode ip).din))
  (ht : (s.inode ip).din.type ≠ 0)
include h

include hl hi ht

/-- `writei` from kernel memory writes less than it should only if no block is free -/
theorem writei_full (hinum : (s.inode ip).inum = i) {bytes : List UInt8} {n : ℕ} (off : ℕ) (hn : n ≤ bytes.length) :
    Spec (writei sb ip (.kernel bytes) off n) s
      (fun r t => ∀ k, r = some k → k < n → Full sb t.blk) E := by
  have hsrc : (Src.kernel bytes).Has (0 + n) := by
    rintro _ ⟨⟩
    omega
  unfold writei
  refine Spec.bind_ok rfl ?_
  split_ifs with h1 h2
  · exact Spec.pure fun k hk => by cases hk
  · exact Spec.pure fun k hk => by cases hk
  · refine Spec.bind (writeiLoop_spec hl hi n 0 off n le_rfl h ht (by omega) hsrc) ?_
    rintro r t ⟨m, w, blk', d', rfl, hp, hfull⟩
    replace hfull := hfull fun _ _ => rfl
    have hti : (t.inode ip).inum = i := by rw [hp.upd.entry]; exact hinum
    refine Spec.bind_ok rfl ?_
    split_ifs with hgrow
    · refine Spec.bind_ok rfl (Spec.bind iupdate_spec fun _ u hu => Spec.pure fun k hk hlt => ?_)
      cases hk
      rw [hu.blk]
      show Full sb (setDino sb t.blk ((t.inode.set ip _) ip).inum _)
      rw [Store.set_self]
      show Full sb (setDino sb t.blk (t.inode ip).inum _)
      rw [hti]
      exact (hfull (by simpa using hlt)).setDino hl hi _
    · refine Spec.bind iupdate_spec fun _ u hu => Spec.pure fun k hk hlt => ?_
      cases hk
      rw [hu.blk, hti]
      exact (hfull (by simpa using hlt)).setDino hl hi _

end

/-! ## Copies that succeed -/

/-- all copies from the first n bytes of the source succeed -/
def Src.Copies (src : Src) (n : ℕ) : Prop := src.Has n ∧ ∀ off m, off + m ≤ n → (eitherCopyin src off m).2 = true

/-- all copies of the first n bytes to the destination succeed -/
def Dst.Copies (dst : Dst) (n : ℕ) : Prop := ∀ off m, off + m ≤ n → eitherCopyout dst off m = true

/-- the first n bytes of a source -/
def Src.data (src : Src) (n : ℕ) : List UInt8 := (List.range n).map src.byte

theorem Src.Copies.eq {n off m : ℕ} (h : src.Copies n) (hm : off + m ≤ n) :
    eitherCopyin src off m = eitherCopyin (.kernel (src.data n)) off m := by
  have hok := h.2 off m hm
  have hbytes := eitherCopyin_ok (fun b hb => by have := h.1 b hb; omega) hok
  refine Prod.ext ?_ hok
  rw [hbytes]
  apply List.ext_getElem
  · simp [eitherCopyin, Src.data]
    omega
  · intro k h1 h2
    simp [eitherCopyin, Src.data]

/-- then `writei` is a write from kernel memory -/
theorem writeiLoop_copies {n : ℕ} (h : src.Copies n) (fuel tot off rest : ℕ) (hn : tot + rest ≤ n) :
    writeiLoop sb ip src fuel tot off rest = writeiLoop sb ip (.kernel (src.data n)) fuel tot off rest := by
  induction fuel generalizing tot off rest with
  | zero => rfl
  | succ fuel ih =>
    have hm : min rest (BSIZE - off % BSIZE) ≤ rest := min_le_left _ _
    unfold writeiLoop
    have hcopy := h.eq (show tot + min rest (BSIZE - off % BSIZE) ≤ n by omega)
    simp only [hcopy,
      ih (tot + min rest (BSIZE - off % BSIZE)) _ (rest - min rest (BSIZE - off % BSIZE)) (by omega)]

theorem writei_copies {n off : ℕ} (h : src.Copies n) :
    writei sb ip src off n = writei sb ip (.kernel (src.data n)) off n := by
  unfold writei
  rw [writeiLoop_copies h n 0 off n (by omega)]

theorem readiLoop_copies {n : ℕ} (h : dst.Copies n) (fuel off rest : ℕ) (acc : List UInt8)
    (hn : acc.length + rest ≤ n) :
    readiLoop sb ip dst fuel off rest acc = readiLoop sb ip .kernel fuel off rest acc := by
  induction fuel generalizing off rest acc with
  | zero => rfl
  | succ fuel ih =>
    have hm : min rest (BSIZE - off % BSIZE) ≤ rest := min_le_left _ _
    unfold readiLoop
    have hdst : eitherCopyout dst acc.length (min rest (BSIZE - off % BSIZE)) = true := h _ _ (by omega)
    have hker : eitherCopyout .kernel acc.length (min rest (BSIZE - off % BSIZE)) = true := rfl
    have hlen : ∀ data : Block, (acc ++ data.read (off % BSIZE) (min rest (BSIZE - off % BSIZE))).length =
        acc.length + min rest (BSIZE - off % BSIZE) := fun data => by simp
    simp only [hdst, hker, if_true, fun data : Block => ih (off + min rest (BSIZE - off % BSIZE))
      (rest - min rest (BSIZE - off % BSIZE)) _ (by rw [hlen data]; omega)]

theorem readi_copies {n off : ℕ} (h : dst.Copies n) :
    readi sb ip dst off n = readi sb ip .kernel off n := by
  unfold readi
  refine congrArg (getInode ip >>= ·) (funext fun x => ?_)
  split_ifs with h1 h2
  · rfl
  · exact readiLoop_copies h _ _ _ [] (by simp; omega)
  · exact readiLoop_copies h _ _ _ [] (by simp)

/-! ## `writei` and `readi` -/

/-- the bytes w have replaced those of inode i from offset off on, and nothing else has changed: ip is the entry of the
inode in the table, v are the other inodes -/
structure Spliced (sb : Superblock) (v : ℕ → Dinode) (i ip off : ℕ) (w : List UInt8) (s t : St) : Prop where
  content : content t.blk (t.inode ip).din = overwrite (content s.blk (s.inode ip).din) off w
  size : (t.inode ip).din.size.toNat = max (s.inode ip).din.size.toNat (off + w.length)
  /-- the inode has been written back -/
  disk : dino sb t.blk i = (t.inode ip).din
  good : Good sb t.blk (Function.update v i (t.inode ip).din)
  others : ∀ j, j < sb.ninodes → j ≠ i → (v j).type ≠ 0 → Fs.content t.blk (v j) = Fs.content s.blk (v j)
  inodes : ∀ j, j < sb.ninodes → j ≠ i → dino sb t.blk j = dino sb s.blk j
  table : ∀ k, k ≠ ip → t.inode k = s.inode k
  file : t.file = s.file
  proc : t.proc = s.proc

section

variable (hl : Layout sb) (hi : i < sb.ninodes) (h : Good sb s.blk (Function.update v i (s.inode ip).din))
  (ht : (s.inode ip).din.type ≠ 0) {off n : ℕ}
include hl hi h

theorem spliced_of_written {m : ℕ} {w : List UInt8} {blk' : Store Block} {d' : Dinode}
    (hoff : off ≤ (s.inode ip).din.size.toNat) (ht' : d'.type ≠ 0) (hw : w.length = m)
    (hwr : Written sb v i ip src off n s t m w blk' d') : Spliced sb v i ip off w s t := by
  have hent : (t.inode ip).din = d' := by rw [hwr.upd.entry]
  have hself : (Function.update v i d') i = d' := Function.update_self ..
  have hcont : content (setDino sb blk' i d') d' = content blk' d' := by
    have := hwr.touch.good.content_setDino hl hi hi (by rwa [hself]) d'
    rwa [hself] at this
  have hnew : content blk' d' = overwrite (content s.blk (s.inode ip).din) off w := by
    rw [hwr.content, List.take_of_length_le]
    rw [length_overwrite _ _ (by rwa [length_content]), length_content, hw]
  refine ⟨?_, ?_, ?_, ?_, fun j hj hji hjt => ?_, fun j hj hji => ?_, fun k hk => ?_, hwr.upd.file, hwr.upd.proc⟩
  · rw [hent, hwr.upd.blk, hcont, hnew]
  · rw [hent, ← length_content blk', hnew, length_overwrite _ _ (by rwa [length_content]), length_content]
  · rw [hwr.upd.blk, dino_setDino, if_pos rfl, hent]
  · rw [hent, hwr.upd.blk]
    exact hwr.touch.good.setDino hl hi
  · have hvj : Function.update v i d' j = v j := Function.update_of_ne hji ..
    have hstep := hwr.touch.good.content_setDino hl hi hj (by rwa [hvj]) d'
    have hmap := h.mapped j hj
    rw [Function.update_of_ne hji] at hmap
    rw [hvj] at hstep
    rw [hwr.upd.blk, hstep, hwr.touch.frame.content hji hj hjt (hmap hjt)]
  · rw [hwr.upd.blk, dino_setDino, if_neg hji, hwr.touch.dino j hj]
  · rw [hwr.upd.inode, Store.set_ne _ _ hk]

include ht

theorem writei_content (hinum : (s.inode ip).inum = i) (hsrc : src.Copies n) :
    Spec (writei sb ip src off n) s (fun r t =>
      (off ≤ (s.inode ip).din.size.toNat ∧ off + n ≤ MAXFILE * BSIZE →
        ∃ k, r = some k ∧ k ≤ n ∧ (k < n → Full sb t.blk) ∧ Spliced sb v i ip off (src.data k) s t) ∧
      (¬ (off ≤ (s.inode ip).din.size.toNat ∧ off + n ≤ MAXFILE * BSIZE) →
        r = none ∧ To s t s.blk s.inode)) E := by
  have hlen : (src.data n).length = n := by simp [Src.data]
  have hhas : (Src.kernel (src.data n)).Has n := by
    rintro _ ⟨⟩
    exact hlen.ge
  rw [writei_copies hsrc]
  refine Spec.post ((writei_spec hl hi h ht hinum hhas).and
    (writei_full (E := E) hl hi h ht hinum off hlen.ge)) ?_
  rintro r t ⟨⟨rfl, hbad, hto⟩ | ⟨m, w, blk', d', rfl, hoff, hmax, hwr⟩, hfull⟩
  · exact ⟨fun hin => by omega, fun _ => ⟨rfl, hto⟩⟩
  refine ⟨fun _ => ⟨m, rfl, hwr.le, hfull m rfl, ?_⟩, fun hout => absurd ⟨hoff, hmax⟩ hout⟩
  have hw : w.length = m := hwr.clean (clean_kernel _)
  have hdata : w = src.data m := by
    have hle := hwr.le
    rw [← List.take_of_length_le hw.le, hwr.bytes]
    refine List.map_congr_left fun x hx => ?_
    have hx : x < n := lt_of_lt_of_le (List.mem_range.1 hx) hle
    simp [Src.byte, Src.data, List.getD_eq_getElem?_getD, hx]
  obtain ⟨a, size, hd'⟩ := hwr.fields
  exact hdata ▸ spliced_of_written hl hi h hoff (by rw [hd']; exact ht) hw hwr

omit hl hi in
theorem readi_content (hi : i < sb.ninodes) (hdst : dst.Copies n) :
    Spec (readi sb ip dst off n) s (fun r t => To s t s.blk s.inode ∧
      r = some (if off + n < 2 ^ 32 then ((content s.blk (s.inode ip).din).drop off).take n else [])) E := by
  have hm := h.mapped i hi
  have hs := h.size i hi
  rw [Function.update_self] at hm hs
  rw [readi_copies hdst]
  split_ifs with hn
  · exact Spec.post (readi_kernel (hm ht) (hs ht) hn) fun _ _ h => ⟨h.1.to, h.2⟩
  · unfold readi
    refine Spec.bind_ok rfl ?_
    rw [if_pos (Or.inr (Nat.le_of_not_lt hn))]
    exact Spec.pure ⟨To.refl s, rfl⟩

end

/-! ## `filewrite` -/

/-- file f is an open file of inode X, which nobody has locked -/
structure FileAt (sb : Superblock) (s : St) (f X : ℕ) : Prop where
  good : Good sb s.blk (dino sb s.blk)
  range : X < sb.ninodes
  used : (dino sb s.blk X).type ≠ 0
  inum : (s.inode (s.file f).ip).inum = X
  ref : 0 < (s.inode (s.file f).ip).ref
  free : (s.inode (s.file f).ip).locked = false
  loaded : (s.inode (s.file f).ip).valid = true → (s.inode (s.file f).ip).din = dino sb s.blk X

variable {f X n addr : ℕ} {mem : UserMem} {m : Node}

theorem FileAt.of_entry {x : Inode} (hip : (s.file f).ip = ip) (hx : s.inode ip = x)
    (good : Good sb s.blk (dino sb s.blk)) (range : X < sb.ninodes) (used : (dino sb s.blk X).type ≠ 0)
    (inum : x.inum = X) (ref : 0 < x.ref) (free : x.locked = false)
    (loaded : x.valid = true → x.din = dino sb s.blk X) : FileAt sb s f X := by
  subst hip hx
  exact ⟨good, range, used, inum, ref, free, loaded⟩

/-- the inode while `filewrite` has it locked -/
def St.held (sb : Superblock) (s : St) (ip : ℕ) : Inode :=
  { s.inode ip with locked := true, valid := true, din := dino sb s.blk (s.inode ip).inum }

theorem FileAt.ilock (h : FileAt sb s f X) :
    Spec (ilock sb (s.file f).ip) s
      (fun _ t => To s t s.blk (s.inode.set (s.file f).ip (s.held sb (s.file f).ip))) E := by
  unfold Fs.ilock
  refine Spec.bind_ok rfl ?_
  rw [if_neg (by have := h.ref; omega), if_neg (by simp [h.free])]
  split_ifs with hv
  · have heq : { s.inode (s.file f).ip with locked := true } = s.held sb (s.file f).ip := by
      unfold St.held
      rw [h.inum, ← h.loaded hv, ← hv]
    rw [heq]
    exact Spec.of_ok rfl ⟨rfl, rfl, rfl, rfl⟩
  · refine Spec.bind_ok rfl (Spec.bind_ok rfl (Spec.bind_ok rfl ?_))
    have hty : (getDinode (s.blk (iblock sb (s.inode (s.file f).ip).inum)) ((s.inode (s.file f).ip).inum % IPB)).type ≠
        0 := by
      rw [h.inum]
      exact h.used
    rw [if_neg hty]
    exact Spec.pure ⟨rfl, rfl, rfl, rfl⟩

/-- what a chunk can do to the content l of the file; r is what `writei` returned -/
def ChunkPost (l : List UInt8) (src : Src) (off n : ℕ) (r : Option ℕ) (l' : List UInt8) : Prop :=
  (r = none ∧ l' = l) ∨ ∃ k w, r = some k ∧ Wrote l src off n k w ∧ l' = written l off w k

theorem writei_node (hl : Layout sb) (hi : i < sb.ninodes) (hgood : Good sb s.blk (dino sb s.blk))
    (hnode : s.node sb i = some m) (hinum : (s.inode ip).inum = i) (hdin : (s.inode ip).din = dino sb s.blk i)
    (src : Src) (off : ℕ) (hsrc : src.Has n) :
    Spec (writei sb ip src off n) s (fun r t =>
      To s t t.blk (s.inode.set ip { s.inode ip with din := dino sb t.blk i }) ∧ Good sb t.blk (dino sb t.blk) ∧
      ∃ l, ChunkPost m.bytes src off n r l ∧
        t.node sb = Function.update (s.node sb) i (some { m with bytes := l })) E := by
  have hused : (dino sb s.blk i).type ≠ 0 := fun h0 => by
    cases hnode.symm.trans ((node_none hi).2 h0)
  have hm : m = (dino sb s.blk i).node s.blk := Option.some.inj (hnode.symm.trans (node_of hi hused))
  have hsame : Good sb s.blk (Function.update (dino sb s.blk) i (s.inode ip).din) := by
    rw [hdin, Function.update_eq_self]
    exact hgood
  have hbytes : m.bytes = content s.blk (s.inode ip).din := by rw [hm, hdin]; rfl
  refine Spec.post (writei_spec hl hi hsame (by rwa [hdin]) hinum hsrc) ?_
  rintro r t (⟨rfl, -, hto⟩ | ⟨k, w, blk', d', rfl, hoff, hmax, hwr⟩)
  · refine ⟨⟨rfl, ?_, hto.file, hto.proc⟩, by rw [hto.blk]; exact hgood, m.bytes, Or.inl ⟨rfl, rfl⟩, ?_⟩
    · rw [hto.inode, hto.blk, ← hdin, Store.set_same]
    · rw [node_congr sb hto.blk]
      exact (Function.update_eq_self_iff.2 hnode.symm).symm
  obtain ⟨a, size, hd'⟩ := hwr.fields
  have hty : d'.type ≠ 0 := by rw [hd', hdin]; exact hused
  obtain ⟨hg, hn⟩ := node_setDino hl hgood hi hwr.touch
  rw [if_pos hty, ← hwr.upd.blk] at hn
  rw [← hwr.upd.blk] at hg
  have hself : dino sb t.blk i = d' := by rw [hwr.upd.blk, dino_setDino, if_pos rfl]
  refine ⟨⟨rfl, ?_, hwr.upd.file, hwr.upd.proc⟩, hg, written m.bytes off w k, Or.inr ⟨k, w, rfl, ?_, rfl⟩, ?_⟩
  · rw [hself]
    exact hwr.upd.inode
  · refine ⟨hwr.le, ?_, hmax, hwr.room, hwr.bytes, hwr.clean, hwr.whole⟩
    rw [hbytes, length_content]
    exact hoff
  · show node sb t.blk = _
    rw [hn]
    have hlen : written m.bytes off w k = content blk' d' := by
      rw [hwr.content, written, hbytes, length_content]
    rw [hlen, hm, Dinode.node, hd', ← hdin]
    rfl

theorem iunlock_held (hlock : (s.inode ip).locked = true) (href : 0 < (s.inode ip).ref) :
    iunlock ip s = .ok ((), { s with inode := s.inode.set ip { s.inode ip with locked := false } }) := by
  unfold iunlock
  rw [bind_ok (a := s.inode ip) (t := s) rfl, if_neg (by simp [hlock]; omega)]
  rfl

theorem FileAt.chunk (hl : Layout sb) (h : FileAt sb s f X) (hnode : s.node sb X = some m) :
    Spec (writeChunk sb f mem addr n) s (fun r t => FileAt sb t f X ∧ t.proc = s.proc ∧
      t.file = s.file.set f { s.file f with off := (s.file f).off + r.getD 0 } ∧
      ∃ l, ChunkPost m.bytes (.user mem addr) (s.file f).off n r l ∧
        t.node sb = Function.update (s.node sb) X (some { m with bytes := l })) E := by
  have h1 : FileAt sb { s with trace := s.trace ++ [.beginOp] } f X :=
    ⟨h.good, h.range, h.used, h.inum, h.ref, h.free, h.loaded⟩
  unfold writeChunk
  refine Spec.bind_ok rfl (Spec.bind_ok rfl (Spec.bind h1.ilock ?_))
  intro _ t ht
  have hent : t.inode (s.file f).ip = s.held sb (s.file f).ip := by
    rw [ht.inode]
    exact Store.set_self _ _ _
  have hnt : t.node sb X = some m := (congrFun (node_congr sb ht.blk) X).trans hnode
  refine Spec.bind (writei_node hl h.range ?_ hnt (hent ▸ h.inum) ?_ (.user mem addr) _ (by rintro _ ⟨⟩)) ?_
  · rw [ht.blk]
    exact h.good
  · rw [hent, ht.blk, ← h.inum]
    rfl
  rintro r u ⟨hto, hg, l, hpost, hn⟩
  have huent : u.inode (s.file f).ip = { s.held sb (s.file f).ip with din := dino sb u.blk X } := by
    rw [hto.inode, Store.set_self, hent]
  refine Spec.bind_ok rfl (Spec.bind_ok (iunlock_held ?_ ?_) (Spec.bind_ok rfl (Spec.pure ⟨?_, ?_, ?_, l, hpost, ?_⟩)))
  · show (u.inode (s.file f).ip).locked = true
    rw [huent]
    rfl
  · show 0 < (u.inode (s.file f).ip).ref
    rw [huent]
    exact h.ref
  · refine .of_entry (x := { s.held sb (s.file f).ip with locked := false, din := dino sb u.blk X })
      (?_ : _ = (s.file f).ip) ?_ hg h.range ?_ h.inum h.ref rfl fun _ => rfl
    · show ((u.file.set f _) f).ip = _
      rw [Store.set_self]
    · show (u.inode.set (s.file f).ip _) (s.file f).ip = _
      rw [Store.set_self]
      show { u.inode (s.file f).ip with locked := false } = _
      rw [huent]
    · intro h0
      have hnone : u.node sb X = none := (node_none h.range).2 h0
      rw [hn, Function.update_self] at hnone
      cases hnone
  · show u.proc = s.proc
    rw [hto.proc, ht.proc]
  · show u.file.set f _ = _
    rw [hto.file, ht.file]
  · show u.node sb = _
    rw [hn, node_congr sb ht.blk]
    rfl

theorem overwrite_nil (l : List UInt8) (off : ℕ) : overwrite l off [] = l := by
  simp [overwrite]

theorem overwrite_overwrite (w w' : List UInt8) {off : ℕ} (hoff : off ≤ l.length) :
    overwrite (overwrite l off w) (off + w.length) w' = overwrite l off (w ++ w') := by
  have hlen : (l.take off ++ w).length = off + w.length := by simp [hoff]
  have hsplit : overwrite l off w = (l.take off ++ w) ++ l.drop (off + w.length) := by simp [overwrite]
  have htake : (overwrite l off w).take (off + w.length) = l.take off ++ w := by
    rw [hsplit, List.take_left' hlen]
  have hdrop : (overwrite l off w).drop (off + w.length + w'.length) = l.drop (off + (w ++ w').length) := by
    rw [hsplit, ← List.drop_drop, List.drop_left' hlen, List.drop_drop, List.length_append]
    congr 1
    omega
  rw [overwrite, htake, hdrop]
  simp [overwrite]

/-- the data of a write from address addr on, after its first i bytes -/
theorem data_add (mem : UserMem) (addr i n : ℕ) :
    (Src.user mem addr).data (i + n) = (Src.user mem addr).data i ++ (Src.user mem (addr + i)).data n := by
  simp [Src.data, Src.byte, List.range_add, Function.comp_def, Nat.add_assoc]

theorem length_data (src : Src) (n : ℕ) : (src.data n).length = n := by simp [Src.data]

theorem ChunkPost.whole {l' : List UInt8} {off : ℕ} (h : ChunkPost l src off n (some n) l') :
    off ≤ l.length ∧ l' = overwrite l off (src.data n) := by
  rcases h with ⟨h, -⟩ | ⟨k, w, hk, hw, rfl⟩
  · cases h
  cases hk
  have hlen : w.length = n := le_antisymm hw.room.2 hw.room.1
  have hdata : w = src.data n := by
    rw [Src.data, ← hw.bytes, List.take_of_length_le hlen.le]
  refine ⟨hw.offset, ?_⟩
  rw [← hdata, written, List.take_of_length_le]
  rw [length_overwrite _ _ hw.offset, hlen]

/-- the loop of `filewrite` after i bytes: the first i bytes of the data have been written from off on, and the offset
of the file has been advanced by i -/
theorem FileAt.loop (hl : Layout sb) {off : ℕ} (fuel i : ℕ) (hf : n ≤ i + fuel) (hi : i ≤ n)
    (h : FileAt sb s f X) (hoff : (s.file f).off = off + i) (hin : 0 < i → off ≤ l.length)
    (hnode : s.node sb X = some { m with bytes := overwrite l off ((Src.user mem addr).data i) }) :
    Spec (filewriteLoop sb f mem addr n fuel i) s (fun r t => FileAt sb t f X ∧
      (∀ j, j ≠ X → t.node sb j = s.node sb j) ∧
      (r = n → t.node sb X = some { m with bytes := overwrite l off ((Src.user mem addr).data n) } ∧
        t.file = s.file.set f { s.file f with off := off + n })) E := by
  have hdone : ∀ (s : St) (i : ℕ), (s.file f).off = off + i →
      s.node sb X = some { m with bytes := overwrite l off ((Src.user mem addr).data i) } → i = n →
      s.node sb X = some { m with bytes := overwrite l off ((Src.user mem addr).data n) } ∧
        s.file = s.file.set f { s.file f with off := off + n } := by
    rintro s i hoff hnode rfl
    exact ⟨hnode, by rw [← hoff, Store.set_same]⟩
  induction fuel generalizing i s with
  | zero => exact Spec.pure ⟨h, fun _ _ => rfl, hdone s i hoff hnode⟩
  | succ fuel ih =>
    rcases Nat.eq_or_lt_of_le hi with rfl | hlt
    · rw [Append.filewriteLoop_done]
      exact Spec.pure ⟨h, fun _ _ => rfl, hdone s _ hoff hnode⟩
    obtain ⟨n1, hn1⟩ : ∃ n1, n1 = min (n - i) MAXWRITE := ⟨_, rfl⟩
    have hpos : 0 < n1 := by rw [hn1]; exact lt_min (by omega) (by decide)
    have hle : n1 ≤ n - i := by rw [hn1]; exact min_le_left _ _
    rw [filewriteLoop_round hlt, ← hn1]
    refine Spec.bind (h.chunk hl hnode) ?_
    rintro r t ⟨ht, -, hfile, l', hpost, hn⟩
    have hothers : ∀ j, j ≠ X → t.node sb j = s.node sb j := fun j hj => by rw [hn, Function.update_of_ne hj]
    split_ifs with hr
    · subst hr
      obtain ⟨hin', rfl⟩ := hpost.whole
      rw [hoff] at hin'
      have hl0 : off ≤ l.length := by
        rcases Nat.eq_zero_or_pos i with rfl | h0
        · rwa [show (Src.user mem addr).data 0 = [] from rfl, overwrite_nil] at hin'
        · exact hin h0
      have hcont := overwrite_overwrite ((Src.user mem addr).data i) ((Src.user mem (addr + i)).data n1) hl0
      rw [length_data, ← data_add] at hcont
      rw [hoff, hcont] at hn
      have hoff' : (t.file f).off = off + (i + n1) := by
        rw [hfile, Store.set_self, ← Nat.add_assoc, ← hoff]
        rfl
      refine Spec.post (ih (i + n1) (by omega) (by omega) ht hoff' (fun _ => hl0)
        (by rw [hn, Function.update_self])) ?_
      rintro r u ⟨hu, hothers', hres⟩
      refine ⟨hu, fun j hj => (hothers' j hj).trans (hothers j hj), fun hr => ⟨(hres hr).1, ?_⟩⟩
      rw [(hres hr).2, hfile, Store.set_self, Store.set_set]
    · exact Spec.pure ⟨ht, hothers, fun h => absurd h hlt.ne⟩

/-- a write through an open file -/
theorem filewrite_content (hl : Layout sb) (h : FileAt sb s f X) (hnode : s.node sb X = some m)
    (hty : (s.file f).type = .inode) :
    Spec (filewrite sb f mem addr n) s (fun r t => (∀ j, j ≠ X → t.node sb j = s.node sb j) ∧
      (r = some n →
        t.node sb X = some { m with bytes := overwrite m.bytes (s.file f).off ((Src.user mem addr).data n) } ∧
          t.file = s.file.set f { s.file f with off := (s.file f).off + n })) E := by
  unfold filewrite
  refine Spec.bind_ok rfl ?_
  split_ifs with hw
  · exact Spec.pure ⟨fun _ _ => rfl, fun hr => by cases hr⟩
  rw [hty]
  have hstart : s.node sb X =
      some { m with bytes := overwrite m.bytes (s.file f).off ((Src.user mem addr).data 0) } := by
    rw [show (Src.user mem addr).data 0 = [] from rfl, overwrite_nil]
    exact hnode
  refine Spec.bind (h.loop hl n 0 (by omega) (by omega) rfl (fun h0 => absurd h0 (by omega)) hstart) ?_
  rintro r t ⟨-, hothers, hres⟩
  refine Spec.pure ⟨hothers, fun hr => hres ?_⟩
  split_ifs at hr with hrn
  exact hrn

theorem Idle.fileAt (h : Idle sb s) (hty : (s.file f).type = .inode)
    (hlock : (s.inode (s.file f).ip).locked = false) : FileAt sb s f (s.inode (s.file f).ip).inum := by
  have hpos : 0 < s.refs (s.file f).ip := h.acct.file_pos (by simp [hty])
  have hptr := h.wf.ptr hpos
  have hrange := h.wf.range _ _ hptr
  refine ⟨h.wf.good, hrange, fun h0 => ?_, rfl, hpos, hlock, fun hv => (h.wf.coherent _ _ hptr hv).1⟩
  exact h.calm.alive _ hpos ((node_none hrange).2 h0)

/-! ## Content -/

/-- entry ip of the table has the inode i in use, with the blocks below its size and no block that another inode, v, has
or that is free -/
structure InodeAt (sb : Superblock) (v : ℕ → Dinode) (s : St) (i ip : ℕ) : Prop where
  range : i < sb.ninodes
  inum : (s.inode ip).inum = i
  used : (s.inode ip).din.type ≠ 0
  good : Good sb s.blk (Function.update v i (s.inode ip).din)

/-- **The content of a file.** In range, `writei` returns k ≤ n after it has replaced the bytes from off on by the first
k bytes of the data, and k < n only if the disk is full; out of range it returns -1 and changes nothing. `readi`
returns the bytes in the range, none if off + n overflows. `filewrite` that returns n has replaced the bytes from
f->off on by the n bytes of the data and advanced f->off by n. No other inode changes, and nothing panics. -/
theorem file_content (hl : Layout sb) (s : St) :
    (∀ v i ip off n src, InodeAt sb v s i ip → Src.Copies src n →
      Spec (writei sb ip src off n) s (fun r t =>
        (off ≤ (s.inode ip).din.size.toNat ∧ off + n ≤ MAXFILE * BSIZE →
          ∃ k, r = some k ∧ k ≤ n ∧ (k < n → Full sb t.blk) ∧ Spliced sb v i ip off (src.data k) s t) ∧
        (¬ (off ≤ (s.inode ip).din.size.toNat ∧ off + n ≤ MAXFILE * BSIZE) → r = none ∧ To s t s.blk s.inode))
        fun _ => False) ∧
    (∀ v i ip off n dst, InodeAt sb v s i ip → Dst.Copies dst n →
      Spec (readi sb ip dst off n) s (fun r t => To s t s.blk s.inode ∧
        r = some (if off + n < 2 ^ 32 then ((content s.blk (s.inode ip).din).drop off).take n else []))
        fun _ => False) ∧
    ∀ f X m mem addr n, FileAt sb s f X → s.node sb X = some m → (s.file f).type = .inode →
      Spec (filewrite sb f mem addr n) s (fun r t => (∀ j, j ≠ X → t.node sb j = s.node sb j) ∧
        (r = some n →
          t.node sb X = some { m with bytes := overwrite m.bytes (s.file f).off ((Src.user mem addr).data n) } ∧
            t.file = s.file.set f { s.file f with off := (s.file f).off + n }))
        fun _ => False := by
  refine ⟨fun v i ip off n src h hsrc => ?_, fun v i ip off n dst h hdst => ?_, fun f X m mem addr n h hm hty => ?_⟩
  · exact writei_content hl h.range h.good h.used h.inum hsrc
  · exact readi_content h.good h.used h.range hdst
  · exact filewrite_content hl h hm hty

theorem FileAt.inodeAt (h : FileAt sb s f X) (hv : (s.inode (s.file f).ip).valid = true) :
    InodeAt sb (dino sb s.blk) s X (s.file f).ip := by
  have hdin := h.loaded hv
  refine ⟨h.range, h.inum, ?_, ?_⟩
  · rw [hdin]
    exact h.used
  · rw [hdin, Function.update_eq_self]
    exact h.good

/-- "/f" is empty, and process 0 has it open for writing -/
def openF : List (ℕ × Call) := makeF ++ [(0, .openPath (some pathF) (2 ^ O_WRONLY))]

/-- a page of the byte 97 -/
def pageA : UserMem := fun _ => some fun _ => 97

theorem openF_state :
    (after openF).node Ownership.tiny 2 = some ⟨T_FILE, 1, []⟩ ∧ ((after openF).file 0).type = .inode ∧
      ((after openF).inode ((after openF).file 0).ip).inum = 2 ∧
      ((after openF).inode ((after openF).file 0).ip).locked = false ∧
      ((after openF).inode ((after openF).file 0).ip).valid = true ∧ ((after openF).file 0).off = 0 ∧
      result (after openF) (filewrite Ownership.tiny 0 pageA 0 1) = some (some 1) := by
  decide +kernel

theorem openF_fileAt : FileAt Ownership.tiny (after openF) 0 2 := by
  obtain ⟨-, hty, hinum, hlock, -, -, -⟩ := openF_state
  exact hinum ▸ (Append.idle_after (by decide +kernel) : Idle _ _).fileAt hty hlock

theorem file_content_open : ∃ t, filewrite Ownership.tiny 0 pageA 0 1 (after openF) = .ok (some 1, t) ∧
    t.node Ownership.tiny 2 = some ⟨T_FILE, 1, [97]⟩ ∧ (t.file 0).off = 1 ∧
    Spec (writei Ownership.tiny ((after openF).file 0).ip (.kernel [98]) 0 1) (after openF)
      (fun r u => ∃ k, r = some k ∧ Spliced Ownership.tiny (dino Ownership.tiny (after openF).blk) 2
        ((after openF).file 0).ip 0 ((Src.kernel [98]).data k) (after openF) u) (fun _ => False) ∧
    Spec (readi Ownership.tiny ((after openF).file 0).ip .kernel 0 1) (after openF) (fun r _ => r = some [])
      (fun _ => False) := by
  obtain ⟨hnode, hty, -, -, hv, hoff, hres⟩ := openF_state
  have hat := openF_fileAt
  have hin := hat.inodeAt hv
  obtain ⟨hwrite, hread, hfile⟩ := file_content Ownership.tiny_layout (after openF)
  have hempty : content (after openF).blk ((after openF).inode ((after openF).file 0).ip).din = [] := by
    have := hnode.symm.trans (node_of hat.range hat.used)
    rw [hat.loaded hv]
    exact (congrArg Node.bytes (Option.some.inj this)).symm
  have hrun : ∃ t, filewrite Ownership.tiny 0 pageA 0 1 (after openF) = .ok (some 1, t) := by
    unfold result at hres
    split at hres
    · rename_i r t heq
      exact ⟨t, by rw [heq, Option.some.inj hres]⟩
    · cases hres
  obtain ⟨t, ht⟩ := hrun
  obtain ⟨-, hdone⟩ := (hfile 0 2 _ pageA 0 1 hat hnode hty).ok ht
  obtain ⟨hn, hf⟩ := hdone rfl
  rw [hoff] at hn hf
  refine ⟨t, ht, hn, by rw [hf, Store.set_self], ?_, ?_⟩
  · have hcopies : Src.Copies (.kernel [98]) 1 := ⟨by rintro _ ⟨⟩; simp, fun _ _ _ => rfl⟩
    refine (hwrite _ 2 _ 0 1 _ hin hcopies).post fun r u hu => ?_
    obtain ⟨k, hk, -, -, hs⟩ := hu.1 ⟨Nat.zero_le _, by decide⟩
    exact ⟨k, hk, hs⟩
  · refine (hread _ 2 _ 0 1 .kernel hin fun _ _ _ => rfl).post fun r u hu => ?_
    rw [hu.2, hempty]
    rfl

end Xv6.Fs
