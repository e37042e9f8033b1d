/-
A chunk of a write fits the log (kernel/file.c: the chunks of `filewrite`; kernel/fs.c: `writei`, `bmap`, `balloc`).

`filewrite` cuts a write into chunks of ((MAXOPBLOCKS-1-1-2)/2)*BSIZE = 3072 bytes. Here the free map may have any
number of blocks, and every allocation may find its bit in a different one.

- `bmap_logs`: a block of the file costs two blocks of the log, itself and one of the free map; the indirect block costs
  two, once.
- `chunk_fits`: ten blocks are enough: if the chunk comes to four blocks of the file, the first is already there.
-/
import Xv6.Fs.Reserve

namespace Xv6.Fs

open Xv6.Core

variable {sb : Superblock} {ip off tot rest fuel q k : ℕ} {s t u : St} {E : Panic → Prop} {S S' : Finset ℕ}

/-! ## Blocks of the file -/

/-- the address of the indirect block; 0 if there is none -/
def St.ind (s : St) (ip : ℕ) : ℕ := (s.inode ip).din.addr NDIRECT

/-- the indirect block, if there is one -/
def St.known (s : St) (ip : ℕ) : Finset ℕ := if s.ind ip = 0 then ∅ else {s.ind ip}

/-- what a new indirect block costs, if there is none -/
def St.extra (s : St) (ip : ℕ) : ℕ := if s.ind ip = 0 then 2 else 0

theorem known_congr (h : t.inode = s.inode) (ip : ℕ) : t.known ip = s.known ip := by
  unfold St.known St.ind
  rw [h]

theorem extra_congr (h : t.inode = s.inode) (ip : ℕ) : t.extra ip = s.extra ip := by
  unfold St.extra St.ind
  rw [h]

theorem card_known_add_extra (s : St) (ip : ℕ) : (s.known ip).card + s.extra ip ≤ 2 := by
  unfold St.known St.extra
  split_ifs <;> simp

/-- what `bmap` may log to return block a -/
structure Maps (ip : ℕ) (s : St) (a : ℕ) (t : St) : Prop where
  inum : (t.inode ip).inum = (s.inode ip).inum
  logs : ∃ c, t.ind ip = s.ind ip ∧ Logs (s.known ip ∪ {c, a}) s t ∨
    s.ind ip = 0 ∧ t.ind ip ≠ 0 ∧ ∃ c', Logs ({t.ind ip, c'} ∪ {c, a}) s t

theorem ballocAddr_logs (k : ℕ) : Spec (ballocAddr sb ip k) s (fun a t => (t.inode ip).inum = (s.inode ip).inum ∧
    ∃ c, Logs {c, a} s t ∧ (a = 0 ∧ t.inode = s.inode ∨
      a ≠ 0 ∧ a < sb.size ∧ (t.inode ip).din = (s.inode ip).din.setAddr k a)) E := by
  refine Spec.bind balloc_logs ?_
  rintro a t ⟨c, -, hc, hi, ha⟩
  refine Spec.ite (fun h0 => Spec.pure ?_) fun h0 => Spec.of_ok rfl ?_
  · exact ⟨by rw [hi], c, h0 ▸ hc, Or.inl ⟨rfl, hi⟩⟩
  · have hset : (t.inode.set ip { t.inode ip with din := (t.inode ip).din.setAddr k a }) ip =
        { s.inode ip with din := (s.inode ip).din.setAddr k a } := by rw [Store.set_self, hi]
    have hnum := congrArg Inode.inum hset
    have hdin := congrArg Inode.din hset
    exact ⟨hnum, c, hc.trans ⟨[], by simp, by simp⟩, Or.inr ⟨h0, ha.resolve_left h0, hdin⟩⟩

theorem bmap_logs (hsize : sb.size ≤ 2 ^ 32) {bn : ℕ} (hbn : bn < MAXFILE) :
    Spec (bmap sb ip bn) s (Maps ip s) E := by
  unfold bmap
  refine Spec.bind_ok rfl (Spec.ite (fun hd => Spec.ite (fun _ => ?_) fun _ => ?_) fun hd => ?_)
  · -- a direct block
    refine Spec.post (ballocAddr_logs bn) ?_
    rintro a t ⟨hnum, c, hc, hin⟩
    refine ⟨hnum, c, Or.inl ⟨?_, hc.mono Finset.subset_union_right⟩⟩
    unfold St.ind
    rcases hin with ⟨-, hin⟩ | ⟨-, -, hdin⟩
    · rw [hin]
    · rw [hdin]
      exact Dinode.addr_setAddr_ne _ _ (by omega)
  · exact Spec.pure ⟨rfl, 0, Or.inl ⟨rfl, Logs.refl _ s⟩⟩
  · rw [if_pos (by unfold MAXFILE at hbn; omega)]
    by_cases h0 : (s.inode ip).din.addr NDIRECT = 0
    · -- the indirect block is allocated
      rw [if_pos h0]
      refine Spec.bind (ballocAddr_logs NDIRECT) ?_
      rintro ind t ⟨hnum, c', hc', hin⟩
      dsimp only
      rcases hin with ⟨rfl, hin⟩ | ⟨hne, hlt, hdin⟩
      · rw [if_pos rfl]
        refine Spec.pure ⟨hnum, c', Or.inl ⟨?_, hc'.mono Finset.subset_union_right⟩⟩
        unfold St.ind
        rw [hin]
      rw [if_neg hne]
      have hind : t.ind ip = ind := by
        unfold St.ind
        rw [hdin]
        exact Dinode.addr_setAddr _ (Nat.lt_succ_self _) (by omega)
      refine Spec.post (bmapEntry_logs ind _) ?_
      rintro a u ⟨hiu, c, -, hc⟩
      have hindu : u.ind ip = ind := by
        rw [← hind]
        unfold St.ind
        rw [hiu]
      refine ⟨by rw [hiu]; exact hnum, c, Or.inr ⟨h0, by rw [hindu]; exact hne, c', ?_⟩⟩
      rw [hindu]
      refine (hc'.mono ?_).trans (hc.mono ?_)
      · intro x hx
        simp only [Finset.mem_insert, Finset.mem_singleton, Finset.mem_union] at hx ⊢
        tauto
      · intro x hx
        simp only [Finset.mem_insert, Finset.mem_singleton, Finset.mem_union] at hx ⊢
        tauto
    · rw [if_neg h0]
      refine Spec.bind_ok rfl ?_
      dsimp only
      rw [if_neg h0]
      refine Spec.post (bmapEntry_logs _ _) ?_
      rintro a t ⟨hin, c, -, hc⟩
      have hknown : s.known ip = {(s.inode ip).din.addr NDIRECT} := if_neg h0
      refine ⟨by rw [hin], c, Or.inl ⟨by unfold St.ind; rw [hin], ?_⟩⟩
      rw [hknown]
      exact hc

/-! ## The loop -/

/-- at most k blocks have been logged besides those of S, and entry ip is for the same inode -/
def Costs (S : Finset ℕ) (k ip : ℕ) (s t : St) : Prop := (t.inode ip).inum = (s.inode ip).inum ∧ Spends S k s t

theorem Costs.of_logs (hi : t.inode = s.inode) (h : Logs S s t) : Costs S k ip s t :=
  ⟨by rw [hi], ⟨∅, Nat.zero_le _, by rwa [Finset.union_empty]⟩⟩

theorem Costs.trans (hi : t.inode = s.inode) (h : Logs S s t) (h' : Costs S k ip t u) : Costs S k ip s u := by
  obtain ⟨hnum, D, hD, hlog⟩ := h'
  exact ⟨by rw [hnum, hi], D, hD, (h.mono Finset.subset_union_left).trans hlog⟩

theorem Maps.costs {a : ℕ} (h : Maps ip s a t) (hu : Costs (t.known ip ∪ {a}) (t.extra ip + k) ip t u) :
    Costs (s.known ip) (s.extra ip + (k + 2)) ip s u := by
  obtain ⟨hnum, D, hD, hD'⟩ := hu
  refine ⟨hnum.trans h.inum, ?_⟩
  have hpair : ∀ x y : ℕ, ({x, y} : Finset ℕ).card ≤ 2 := fun x y => Finset.card_le_two
  obtain ⟨c, ⟨hind, hlog⟩ | ⟨h0, hne, c', hlog⟩⟩ := h.logs
  · have hknown : t.known ip = s.known ip := by unfold St.known; rw [hind]
    have hextra : t.extra ip = s.extra ip := by unfold St.extra; rw [hind]
    rw [hknown] at hD'
    rw [hextra] at hD
    refine ⟨{c, a} ∪ D, ?_, (hlog.mono ?_).trans (hD'.mono ?_)⟩
    · have := Finset.card_union_le {c, a} D
      have := hpair c a
      omega
    · exact Finset.union_subset_union_right Finset.subset_union_left
    · intro x hx
      simp only [Finset.mem_union, Finset.mem_insert, Finset.mem_singleton] at hx ⊢
      tauto
  · -- the indirect block is new, and known from now on
    have hknown : t.known ip = {t.ind ip} := if_neg hne
    have hextra : t.extra ip = 0 := if_neg hne
    have hextra' : s.extra ip = 2 := if_pos h0
    rw [hknown] at hD'
    rw [hextra] at hD
    rw [hextra']
    refine ⟨{t.ind ip, c'} ∪ {c, a} ∪ D, ?_, (hlog.mono ?_).trans (hD'.mono ?_)⟩
    · have := Finset.card_union_le ({t.ind ip, c'} ∪ {c, a}) D
      have := Finset.card_union_le {t.ind ip, c'} {c, a}
      have := hpair (t.ind ip) c'
      have := hpair c a
      omega
    · exact fun x hx => Finset.mem_union_right _ (Finset.mem_union_left _ hx)
    · intro x hx
      simp only [Finset.mem_union, Finset.mem_insert, Finset.mem_singleton] at hx ⊢
      tauto

/-- after a round that does not end the write, the offset is at a block boundary -/
theorem next_aligned (h : rest - min rest (BSIZE - off % BSIZE) ≠ 0) :
    (off + min rest (BSIZE - off % BSIZE)) % BSIZE = 0 ∧
      off % BSIZE + rest = BSIZE + (rest - min rest (BSIZE - off % BSIZE)) := by
  unfold BSIZE at *
  omega

/-- `rest` bytes from offset off on lie in q blocks of the file -/
theorem writeiLoop_logs (hsize : sb.size ≤ 2 ^ 32) (src : Src) (hmax : off + rest ≤ MAXFILE * BSIZE)
    (hq : rest ≠ 0 → off % BSIZE + rest ≤ q * BSIZE) :
    Spec (writeiLoop sb ip src fuel tot off rest) s (fun _ t => Costs (s.known ip) (s.extra ip + 2 * q) ip s t) E := by
  have hstay : ∀ s : St, Costs (s.known ip) (s.extra ip + 2 * q) ip s s := fun s => Costs.of_logs rfl (Logs.refl _ s)
  induction fuel generalizing s tot off rest q with
  | zero => exact Spec.pure (hstay s)
  | succ fuel ih =>
    by_cases h0 : rest = 0
    · rw [h0, writeiLoop_zero]
      exact Spec.pure (hstay s)
    have hfit := hq h0
    have hB : 0 < BSIZE := by decide
    obtain ⟨q, rfl⟩ : ∃ q', q = q' + 1 := by
      refine Nat.exists_eq_succ_of_ne_zero fun hq0 => ?_
      rw [hq0] at hfit
      omega
    have hround : ∀ a t u, Maps ip s a t → Costs (t.known ip ∪ {a}) (t.extra ip + 2 * q) ip t u →
        Costs (s.known ip) (s.extra ip + 2 * (q + 1)) ip s u := fun a t u ht hu => ht.costs hu
    refine writeiLoop_once h0 (bmap_logs hsize (div_lt_maxfile (by omega))) ?_ ?_
    · intro a t u _ ht hi hlog
      exact hround a t u ht (Costs.of_logs hi (hlog.mono (Finset.empty_subset _)))
    intro a t u ht hi hlog
    have hle := Nat.min_le_left rest (BSIZE - off % BSIZE)
    refine Spec.post (ih (q := q) (by omega) (fun hne => ?_) fun s => Costs.of_logs rfl (Logs.refl _ s)) ?_
    · obtain ⟨hmod, hsum⟩ := next_aligned hne
      rw [Nat.succ_mul] at hfit
      omega
    · intro _ w hw
      rw [known_congr hi, extra_congr hi] at hw
      exact hround a t w ht (Costs.trans hi (hlog.mono Finset.subset_union_right)
        ⟨hw.1, hw.2.mono Finset.subset_union_left le_rfl⟩)

/-! ## A chunk -/

/-- the loop of `writei` for a chunk of at most three blocks' length -/
theorem chunkLoop_logs (hsize : sb.size ≤ 2 ^ 32) (src : Src) (hm : Mapped s.blk (s.inode ip).din)
    (hoff : off ≤ (s.inode ip).din.size.toNat) {n : ℕ} (hn : n ≤ 3 * BSIZE) (hmax : off + n ≤ MAXFILE * BSIZE) :
    Spec (writeiLoop sb ip src n 0 off n) s (fun _ t => ∃ a, Costs (s.known ip ∪ {a}) (s.extra ip + 6) ip s t) E := by
  by_cases h0 : off % BSIZE = 0 ∨ n = 0
  · -- three blocks of the file
    refine Spec.post (writeiLoop_logs (q := 3) hsize src hmax fun hne => ?_) fun _ t ht => ⟨0, ht.1, ?_⟩
    · rw [h0.resolve_right hne]
      omega
    · exact ht.2.mono Finset.subset_union_left le_rfl
  · -- the first block lies below the size
    obtain ⟨hun, hne⟩ := not_or.1 h0
    obtain ⟨fuel, rfl⟩ := Nat.exists_eq_succ_of_ne_zero hne
    have hbn : off / BSIZE < MAXFILE := div_lt_maxfile (by omega)
    have hbelow : off / BSIZE * BSIZE < (s.inode ip).din.size.toNat := by
      unfold BSIZE at *
      omega
    refine writeiLoop_once hne (bmap_reads hbn (hm _ hbelow)) ?_ ?_
    · rintro a t u _ ⟨-, hr⟩ hi hlog
      exact ⟨a, Costs.of_logs (hi.trans hr.to.inode) ((Logs.of_reads hr _).trans (hlog.mono (Finset.empty_subset _)))⟩
    rintro a t u ⟨-, hr⟩ hi hlog
    have hiu : u.inode = s.inode := hi.trans hr.to.inode
    have hle := Nat.min_le_left (fuel + 1) (BSIZE - off % BSIZE)
    refine Spec.post (writeiLoop_logs (q := 3) hsize src (by omega) fun hne => ?_) fun _ w hw => ⟨a, ?_⟩
    · rw [(next_aligned hne).1]
      omega
    · rw [known_congr hiu, extra_congr hiu] at hw
      exact Costs.trans hiu ((Logs.of_reads hr _).trans (hlog.mono Finset.subset_union_right))
        ⟨hw.1, hw.2.mono Finset.subset_union_left le_rfl⟩

theorem writeBack_logs {r : ℕ} (hnum : (t.inode ip).inum = (s.inode ip).inum) (h : Logs S s t) :
    Spec (do iupdate sb ip; return some r) t (fun _ u => Logs (S ∪ {iblock sb (s.inode ip).inum}) s u) E := by
  rw [← hnum]
  exact Spec.of_ok rfl ((h.mono Finset.subset_union_left).trans
    ((Edits.block t _ _).logs.mono Finset.subset_union_right))

/-- **A chunk of a write fits the log**, on a disk of any size (a 32-bit number): `writei` of at most
((MAXOPBLOCKS-1-1-2)/2)*BSIZE bytes to an inode whose blocks below the size are mapped passes at most MAXOPBLOCKS
distinct blocks to `log_write`. -/
theorem chunk_fits (hsize : sb.size ≤ 2 ^ 32) (src : Src) {n : ℕ} (hm : Mapped s.blk (s.inode ip).din)
    (hoff : off ≤ (s.inode ip).din.size.toNat) (hn : n ≤ (MAXOPBLOCKS - 1 - 1 - 2) / 2 * BSIZE) :
    ∃ r t es, writei sb ip src off n s = .ok (r, t) ∧ t.trace = s.trace ++ es ∧ (logged es).card ≤ MAXOPBLOCKS := by
  have hspec : Spec (writei sb ip src off n) s (fun _ t => ∃ a D, D.card ≤ s.extra ip + 6 ∧
      Logs (s.known ip ∪ {a} ∪ D ∪ {iblock sb (s.inode ip).inum}) s t) fun _ => False := by
    unfold writei
    refine Spec.bind_ok rfl (Spec.ite (fun _ => ?_) fun _ => Spec.ite (fun _ => ?_) fun hmax => ?_)
    · exact Spec.pure ⟨0, ∅, Nat.zero_le _, Logs.refl _ s⟩
    · exact Spec.pure ⟨0, ∅, Nat.zero_le _, Logs.refl _ s⟩
    refine Spec.bind (chunkLoop_logs hsize src hm hoff hn (not_lt.1 hmax)) ?_
    rintro r t ⟨a, hnum, D, hD, hlog⟩
    refine Spec.bind_ok rfl (Spec.ite (fun _ => Spec.bind_ok rfl ?_) fun _ => ?_)
    · refine Spec.post (writeBack_logs (s := s) ?_ (hlog.trans ⟨[], by simp, by simp⟩)) fun _ u hu => ⟨a, D, hD, hu⟩
      show ((t.inode.set ip _) ip).inum = _
      rw [Store.set_self]
      exact hnum
    · exact Spec.post (writeBack_logs hnum hlog) fun _ u hu => ⟨a, D, hD, hu⟩
  obtain ⟨r, t, hrun, a, D, hD, es, ht, hes⟩ := hspec.returns
  refine ⟨r, t, es, hrun, ht, ?_⟩
  have hsub : logged es ⊆ s.known ip ∪ {a} ∪ D ∪ {iblock sb (s.inode ip).inum} := fun b hb => hes b (mem_logged.1 hb)
  have h2 := card_known_add_extra s ip
  calc (logged es).card ≤ (s.known ip ∪ {a} ∪ D ∪ {iblock sb (s.inode ip).inum}).card := Finset.card_le_card hsub
    _ ≤ (s.known ip ∪ {a} ∪ D).card + 1 := Finset.card_union_le _ _
    _ ≤ (s.known ip ∪ {a}).card + D.card + 1 := by
      have := Finset.card_union_le (s.known ip ∪ {a}) D
      omega
    _ ≤ (s.known ip).card + 1 + D.card + 1 := by
      have := Finset.card_union_le (s.known ip) {a}
      rw [Finset.card_singleton] at this
      omega
    _ ≤ MAXOPBLOCKS := by unfold MAXOPBLOCKS; omega

theorem chunk_fits_empty : Mapped Ownership.bare.blk (Ownership.bare.inode 0).din ∧
    ∃ r t es, writei Ownership.tiny 0 (.kernel (List.replicate 3072 1)) 0 3072 Ownership.bare = .ok (r, t) ∧
      t.trace = Ownership.bare.trace ++ es ∧ (logged es).card ≤ MAXOPBLOCKS := by
  have hm : Mapped Ownership.bare.blk (Ownership.bare.inode 0).din := fun k hk => absurd hk (Nat.not_lt_zero _)
  exact ⟨hm, chunk_fits (by decide) _ hm (Nat.zero_le _) (by decide)⟩

end Xv6.Fs
