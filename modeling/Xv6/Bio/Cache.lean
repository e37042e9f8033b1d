/-
The buffer cache (kernel/bio.c) and its invariant.

Buffers are numbered 0..NBUF-1; `lru` is the linked list from bcache.head.next (most recently used) to bcache.head.prev.
`bget` is the look-up-or-recycle under bcache.lock; `lock`, `unlock` and `drop` are the rest of `bread` and the two
halves of `brelse`; `pin` and `unpin` are `bpin` and `bunpin`.

`CacheInv` relates the cache to who is using it. Its parameters are the references handed out by `bget` and not yet
given back (`R`: buffer and phase), the pinned block numbers, the blocks whose home location on disk is out of date
(`stale`), the buffers modified since they were last logged (`dirty`), the disk, and the content each block should have
(`last`). There is one lemma for each operation; the log and the file system only use these.
-/
import Xv6.Core.Crash
import Xv6.Log.Header
import Xv6.Log.GroupCommit

namespace Xv6.Bio

open Xv6.Core GroupCommit

abbrev Disk := Store Block

/-! ## Model -/

/-- `struct buf`, without its links; `locked` is the sleep-lock -/
structure Buf where
  valid : Bool
  dev : ℕ
  blockno : ℕ
  refcnt : ℕ
  locked : Bool
  data : Block

structure Bcache where
  buf : Store Buf
  lru : List ℕ

/-- the buffer holds block b of the file system's disk -/
def Buf.Holds (x : Buf) (b : ℕ) : Prop := x.dev = ROOTDEV ∧ x.blockno = b

instance (x : Buf) (b : ℕ) : Decidable (x.Holds b) := by unfold Buf.Holds; infer_instance

/-- replace buffer i -/
def Bcache.set (c : Bcache) (i : ℕ) (x : Buf) : Bcache := { c with buf := c.buf.set i x }

/-- look through the cache for a block; if not found, recycle the least recently used unused buffer -/
def bget (c : Bcache) (b : ℕ) : Except Panic (Bcache × ℕ) :=
  match c.lru.find? fun i => (c.buf i).Holds b with
  | some i => .ok (c.set i { c.buf i with refcnt := (c.buf i).refcnt + 1 }, i)
  | none =>
    match c.lru.reverse.find? fun i => (c.buf i).refcnt = 0 with
    | some i => .ok (c.set i { c.buf i with dev := ROOTDEV, blockno := b, valid := false, refcnt := 1 }, i)
    | none => .error .noBuffers

/-- `acquiresleep`, and the disk read of `bread` if the buffer is not valid -/
def lock (c : Bcache) (disk : Disk) (i : ℕ) : Bcache :=
  let x := c.buf i
  c.set i (if x.valid then { x with locked := true }
    else { x with locked := true, valid := true, data := disk x.blockno })

/-- `releasesleep`, the first half of `brelse` -/
def unlock (c : Bcache) (i : ℕ) : Bcache := c.set i { c.buf i with locked := false }

/-- the second half of `brelse`: a buffer nobody waits for moves to the head of the list -/
def drop (c : Bcache) (i : ℕ) : Bcache :=
  let c' := c.set i { c.buf i with refcnt := (c.buf i).refcnt - 1 }
  if (c'.buf i).refcnt = 0 then { c' with lru := i :: c.lru.erase i } else c'

/-- `bpin` -/
def pin (c : Bcache) (i : ℕ) : Bcache := c.set i { c.buf i with refcnt := (c.buf i).refcnt + 1 }

/-- `bunpin` -/
def unpin (c : Bcache) (i : ℕ) : Bcache := c.set i { c.buf i with refcnt := (c.buf i).refcnt - 1 }

/-- overwrite the data of a buffer -/
def store (c : Bcache) (i : ℕ) (d : Block) : Bcache := c.set i { c.buf i with data := d }

/-- what the holder of a reference is doing: waiting for the lock, holding it, or between the halves of `brelse` -/
inductive Phase where
  | waiting
  | held
  | releasing
deriving DecidableEq, Repr

/-! ## The invariant -/

structure CacheInv (c : Bcache) (R : List (ℕ × Phase)) (pins stale dirty : List ℕ) (disk last : Disk) : Prop where
  lru : c.lru.Perm (List.range NBUF)
  uniq : ∀ i ∈ c.lru, ∀ j ∈ c.lru, ∀ b, (c.buf i).Holds b → (c.buf j).Holds b → i = j
  refs : ∀ r ∈ R, r.1 ∈ c.lru ∧ (c.buf r.1).dev = ROOTDEV
  count : ∀ i ∈ c.lru, (c.buf i).refcnt =
    R.countP (fun r => r.1 = i) + if (c.buf i).dev = ROOTDEV ∧ (c.buf i).blockno ∈ pins then 1 else 0
  locks : ∀ i ∈ c.lru, R.count (i, .held) = if (c.buf i).locked then 1 else 0
  heldValid : ∀ i, (i, Phase.held) ∈ R → (c.buf i).valid = true
  pinned : ∀ b ∈ pins, ∃ i ∈ c.lru, (c.buf i).Holds b ∧ (c.buf i).valid = true
  pinsNodup : pins.Nodup
  content : ∀ i ∈ c.lru, (c.buf i).dev = ROOTDEV → (c.buf i).valid = true → i ∉ dirty →
    (c.buf i).data = last (c.buf i).blockno
  dirtyHeld : ∀ i ∈ dirty, (i, Phase.held) ∈ R
  fresh : ∀ b, b ∉ stale → disk b = last b
  stalePinned : ∀ b ∈ stale, b ∈ pins

variable {c c' : Bcache} {R R' : List (ℕ × Phase)} {pins stale dirty l : List ℕ} {disk last : Disk} {i b : ℕ}

@[simp] theorem set_lru (c : Bcache) (i : ℕ) (x : Buf) : (c.set i x).lru = c.lru := rfl
@[simp] theorem set_buf_self (c : Bcache) (i : ℕ) (x : Buf) : (c.set i x).buf i = x := by simp [Bcache.set]

theorem set_buf_ne (c : Bcache) (x : Buf) {j : ℕ} (h : j ≠ i) : (c.set i x).buf j = c.buf j := by
  simp [Bcache.set, Store.set_ne _ _ h]

/-- the invariant only counts the references -/
theorem CacheInv.perm (h : CacheInv c R pins stale dirty disk last) (hp : R'.Perm R) :
    CacheInv c R' pins stale dirty disk last :=
  { h with
    refs := fun r hr => h.refs r (hp.mem_iff.1 hr)
    count := fun i hi => by rw [hp.countP_eq]; exact h.count i hi
    locks := fun i hi => by rw [hp.count_eq]; exact h.locks i hi
    heldValid := fun i hi => h.heldValid i (hp.mem_iff.1 hi)
    dirtyHeld := fun i hi => hp.mem_iff.2 (h.dirtyHeld i hi) }

theorem CacheInv.pinned_of_holds (h : CacheInv c R pins stale dirty disk last) (hb : b ∈ pins)
    (hi : i ∈ c.lru) (hh : (c.buf i).Holds b) : (c.buf i).valid = true := by
  obtain ⟨j, hj, hjb, hv⟩ := h.pinned b hb
  rw [h.uniq i hi j hj b hh hjb]; exact hv

/-- a buffer that is free to be recycled is neither referenced nor pinned -/
theorem CacheInv.of_refcnt_zero (h : CacheInv c R pins stale dirty disk last) (hi : i ∈ c.lru)
    (h0 : (c.buf i).refcnt = 0) : (∀ r ∈ R, r.1 ≠ i) ∧ ¬ ((c.buf i).dev = ROOTDEV ∧ (c.buf i).blockno ∈ pins) := by
  have hc := h.count i hi
  rw [h0] at hc
  constructor
  · have : R.countP (fun r => r.1 = i) = 0 := by omega
    intro r hr
    simpa using List.countP_eq_zero.1 this r hr
  · intro hp
    rw [if_pos hp] at hc; omega

/-! ## The operations -/

/-- what `bget` can do: find the block, or recycle an unused buffer -/
theorem bget_cases (h : bget c b = .ok (c', i)) :
    i ∈ c.lru ∧
    ((c.buf i).Holds b ∧ c' = c.set i { c.buf i with refcnt := (c.buf i).refcnt + 1 } ∨
      (∀ j ∈ c.lru, ¬ (c.buf j).Holds b) ∧ (c.buf i).refcnt = 0 ∧
        c' = c.set i { c.buf i with dev := ROOTDEV, blockno := b, valid := false, refcnt := 1 }) := by
  unfold bget at h
  split at h
  · rename_i j hj
    cases h
    exact ⟨List.mem_of_find?_eq_some hj, Or.inl ⟨by simpa using List.find?_some hj, rfl⟩⟩
  rename_i hnone
  split at h
  · rename_i j hj
    cases h
    refine ⟨by simpa using List.mem_of_find?_eq_some hj, Or.inr ⟨fun k hk => ?_, ?_, rfl⟩⟩
    · simpa using List.find?_eq_none.1 hnone k hk
    · simpa using List.find?_some hj
  · cases h

/-- `bget` fails only if the block is not cached and every buffer is in use -/
theorem bget_error_iff (c : Bcache) (b : ℕ) (e : Panic) :
    bget c b = .error e ↔ e = .noBuffers ∧ (∀ i ∈ c.lru, ¬ (c.buf i).Holds b) ∧ ∀ i ∈ c.lru, (c.buf i).refcnt ≠ 0 := by
  unfold bget
  split
  · rename_i j hj
    constructor
    · intro h; cases h
    · rintro ⟨-, h, -⟩
      exact absurd (by simpa using List.find?_some hj) (h j (List.mem_of_find?_eq_some hj))
  · rename_i hnone
    have hmiss : ∀ i ∈ c.lru, ¬ (c.buf i).Holds b := fun k hk => by simpa using List.find?_eq_none.1 hnone k hk
    split
    · rename_i j hj
      constructor
      · intro h; cases h
      · rintro ⟨-, -, h⟩
        exact absurd (by simpa using List.find?_some hj) (h j (by simpa using List.mem_of_find?_eq_some hj))
    · rename_i hfull
      constructor
      · intro h
        cases h
        exact ⟨rfl, hmiss, fun i hi => by simpa using List.find?_eq_none.1 hfull i (by simpa using hi)⟩
      · rintro ⟨rfl, -⟩; rfl

/-- one buffer i changes, but not the block it holds. What the other buffers need is only that the references to them,
and the pins and contents of other blocks, stay as they are. -/
theorem CacheInv.update (h : CacheInv c R pins stale dirty disk last) (hi : i ∈ c.lru)
    (hdev : (c.buf i).dev = ROOTDEV) (x : Buf) (hxd : x.dev = ROOTDEV) (hxb : x.blockno = (c.buf i).blockno)
    {pins' stale' dirty' : List ℕ} {disk' last' : Disk}
    (hmem : ∀ r ∈ R', r.1 = i ∨ r ∈ R)
    (hcnt : ∀ j, j ≠ i → R'.countP (fun r => r.1 = j) = R.countP fun r => r.1 = j)
    (hheld : ∀ j, j ≠ i → R'.count (j, .held) = R.count (j, .held))
    (hpins : ∀ b, b ≠ (c.buf i).blockno → (b ∈ pins' ↔ b ∈ pins)) (hnd : pins'.Nodup)
    (hlast : ∀ b, b ≠ (c.buf i).blockno → last' b = last b)
    (hdirty : ∀ j, j ≠ i → (j ∈ dirty' ↔ j ∈ dirty))
    (hrc : x.refcnt = R'.countP (fun r => r.1 = i) + if (c.buf i).blockno ∈ pins' then 1 else 0)
    (hlk : R'.count (i, .held) = if x.locked then 1 else 0)
    (hval : (i, Phase.held) ∈ R' ∨ (c.buf i).blockno ∈ pins' → x.valid = true)
    (hcont : x.valid = true → i ∉ dirty' → x.data = last' (c.buf i).blockno)
    (hdh : i ∈ dirty' → (i, Phase.held) ∈ R')
    (hfresh : ∀ b, b ∉ stale' → disk' b = last' b) (hstale : ∀ b ∈ stale', b ∈ pins') :
    CacheInv (c.set i x) R' pins' stale' dirty' disk' last' := by
  have hother : ∀ j ∈ c.lru, j ≠ i → (c.buf j).dev = ROOTDEV → (c.buf j).blockno ≠ (c.buf i).blockno :=
    fun j hj hji hjd heq => hji (h.uniq j hj i hi _ ⟨hjd, heq⟩ ⟨hdev, rfl⟩)
  have hholds : ∀ j b, ((c.set i x).buf j).Holds b → (c.buf j).Holds b := by
    intro j b hb
    by_cases hji : j = i
    · subst hji; rw [set_buf_self] at hb; exact ⟨hdev, hxb ▸ hb.2⟩
    · rwa [set_buf_ne c _ hji] at hb
  refine ⟨h.lru, ?_, ?_, ?_, ?_, ?_, ?_, hnd, ?_, ?_, hfresh, hstale⟩
  · intro j hj k hk b hjb hkb
    exact h.uniq j hj k hk b (hholds j b hjb) (hholds k b hkb)
  · intro r hr
    by_cases hri : r.1 = i
    · rw [hri]; exact ⟨hi, by rw [set_buf_self]; exact hxd⟩
    · rw [set_lru, set_buf_ne c _ hri]; exact h.refs r ((hmem r hr).resolve_left hri)
  · intro j hj
    by_cases hji : j = i
    · subst hji; simp only [set_buf_self, hxd, hxb, true_and]; exact hrc
    · rw [set_buf_ne c _ hji, hcnt j hji, h.count j hj]
      by_cases hjd : (c.buf j).dev = ROOTDEV
      · simp only [hjd, true_and, hpins _ (hother j hj hji hjd)]
      · simp only [hjd, false_and]
  · intro j hj
    by_cases hji : j = i
    · subst hji; rw [set_buf_self]; exact hlk
    · rw [set_buf_ne c _ hji, hheld j hji]; exact h.locks j hj
  · intro j hj
    by_cases hji : j = i
    · subst hji; rw [set_buf_self]; exact hval (Or.inl hj)
    · rw [set_buf_ne c _ hji]; exact h.heldValid j ((hmem _ hj).resolve_left hji)
  · intro b hb
    by_cases hbi : b = (c.buf i).blockno
    · subst hbi
      exact ⟨i, hi, by rw [set_buf_self]; exact ⟨⟨hxd, hxb⟩, hval (Or.inr hb)⟩⟩
    · obtain ⟨j, hj, hjb, hv⟩ := h.pinned b ((hpins b hbi).1 hb)
      have hji : j ≠ i := by rintro rfl; exact hbi hjb.2.symm
      exact ⟨j, hj, by rw [set_buf_ne c _ hji]; exact ⟨hjb, hv⟩⟩
  · intro j hj hjd hv hnd'
    by_cases hji : j = i
    · subst hji; rw [set_buf_self] at hv ⊢; rw [hxb]; exact hcont hv hnd'
    · rw [set_buf_ne c _ hji] at hjd hv ⊢
      rw [hlast _ (hother j hj hji hjd)]
      exact h.content j hj hjd hv (fun hm => hnd' ((hdirty j hji).2 hm))
  · intro j hj
    by_cases hji : j = i
    · subst hji; exact hdh hj
    · have hR := h.dirtyHeld j ((hdirty j hji).1 hj)
      have hpos := List.count_pos_iff.2 hR
      rw [← hheld j hji] at hpos
      exact List.count_pos_iff.1 hpos

/-- the order of the list does not matter to the invariant -/
theorem CacheInv.reorder (h : CacheInv c R pins stale dirty disk last) (hl : l.Perm c.lru) :
    CacheInv { c with lru := l } R pins stale dirty disk last :=
  { h with
    lru := hl.trans h.lru
    uniq := fun i hi j hj => h.uniq i (hl.mem_iff.1 hi) j (hl.mem_iff.1 hj)
    refs := fun r hr => ⟨hl.mem_iff.2 (h.refs r hr).1, (h.refs r hr).2⟩
    count := fun i hi => h.count i (hl.mem_iff.1 hi)
    locks := fun i hi => h.locks i (hl.mem_iff.1 hi)
    pinned := fun b hb => by
      obtain ⟨i, hi, hr⟩ := h.pinned b hb
      exact ⟨i, hl.mem_iff.2 hi, hr⟩
    content := fun i hi => h.content i (hl.mem_iff.1 hi) }

theorem CacheInv.nodup (h : CacheInv c R pins stale dirty disk last) : c.lru.Nodup :=
  h.lru.nodup_iff.2 List.nodup_range

/-- a buffer that somebody holds is locked, so nobody else does -/
theorem CacheInv.count_held (h : CacheInv c R pins stale dirty disk last) (hi : (i, Phase.held) ∈ R) :
    R.count (i, .held) = 1 ∧ (c.buf i).locked = true := by
  have hl := h.locks i (h.refs _ hi).1
  have hpos := List.count_pos_iff.2 hi
  split_ifs at hl with hlk
  · exact ⟨hl, hlk⟩
  · omega

theorem CacheInv.not_dirty_of_unlocked (h : CacheInv c R pins stale dirty disk last) (hlk : (c.buf i).locked = false) :
    i ∉ dirty := by
  intro hd
  have := (h.count_held (h.dirtyHeld i hd)).2
  rw [hlk] at this; cases this

theorem CacheInv.bget (h : CacheInv c R pins stale dirty disk last) (hg : bget c b = .ok (c', i)) :
    CacheInv c' ((i, .waiting) :: R) pins stale dirty disk last ∧ (c'.buf i).Holds b ∧ i ∈ c.lru := by
  obtain ⟨hi, ⟨hb, rfl⟩ | ⟨hmiss, h0, rfl⟩⟩ := bget_cases hg
  · have hc := h.count i hi
    have hlk := h.locks i hi
    have hcell : (c.buf i).dev = ROOTDEV := hb.1
    refine ⟨h.update hi hb.1 { c.buf i with refcnt := (c.buf i).refcnt + 1 } hb.1 rfl ?_ ?_ ?_ (fun _ _ => Iff.rfl)
      h.pinsNodup (fun _ _ => rfl)
      (fun _ _ => Iff.rfl) ?_ ?_ ?_ ?_ ?_ h.fresh h.stalePinned, by simpa [Buf.Holds] using hb, hi⟩
    · intro r hr
      rcases List.mem_cons.1 hr with rfl | hr
      · exact Or.inl rfl
      · exact Or.inr hr
    · intro j hj; rw [List.countP_cons_of_neg (by simpa using Ne.symm hj)]
    · intro j _; rw [List.count_cons_of_ne (by simp)]
    · simp only [hcell, true_and] at hc
      simp only [List.countP_cons, decide_true, if_true]
      omega
    · rw [List.count_cons_of_ne (by simp)]; exact hlk
    · rintro (hm | hm)
      · exact h.heldValid i (by simpa using hm)
      · exact h.pinned_of_holds hm hi ⟨hcell, rfl⟩
    · exact h.content i hi hcell
    · intro hd; exact List.mem_cons_of_mem _ (h.dirtyHeld i hd)
  · -- recycled: nobody has a reference to i, and its old block is not pinned
    obtain ⟨hfree, hnp⟩ := h.of_refcnt_zero hi h0
    have hbp : b ∉ pins := fun hbp => by
      obtain ⟨j, hj, hjb, -⟩ := h.pinned b hbp
      exact hmiss j hj hjb
    have hcnt : R.countP (fun r => r.1 = i) = 0 := List.countP_eq_zero.2 fun r hr => by simpa using hfree r hr
    refine ⟨{ h with
      uniq := ?_, refs := ?_, count := ?_, locks := ?_, heldValid := ?_, pinned := ?_, content := ?_,
      dirtyHeld := ?_ }, by simp [Buf.Holds], hi⟩
    · intro j hj k hk b' hjb hkb
      by_cases hji : j = i <;> by_cases hki : k = i
      · rw [hji, hki]
      · subst hji
        rw [set_buf_ne c _ hki] at hkb
        simp only [set_buf_self, Buf.Holds] at hjb
        rw [← hjb.2] at hkb; exact absurd hkb (hmiss k hk)
      · subst hki
        rw [set_buf_ne c _ hji] at hjb
        simp only [set_buf_self, Buf.Holds] at hkb
        rw [← hkb.2] at hjb; exact absurd hjb (hmiss j hj)
      · rw [set_buf_ne c _ hji] at hjb
        rw [set_buf_ne c _ hki] at hkb
        exact h.uniq j hj k hk b' hjb hkb
    · intro r hr
      rcases List.mem_cons.1 hr with rfl | hr
      · exact ⟨hi, by simp⟩
      · rw [set_lru, set_buf_ne c _ (hfree r hr)]; exact h.refs r hr
    · intro j hj
      by_cases hji : j = i
      · subst hji
        simp [hcnt, hbp]
      · rw [set_buf_ne c _ hji, List.countP_cons_of_neg (by simpa using Ne.symm hji)]; exact h.count j hj
    · intro j hj
      rw [List.count_cons_of_ne (by simp)]
      by_cases hji : j = i
      · subst hji; simpa using h.locks j hj
      · rw [set_buf_ne c _ hji]; exact h.locks j hj
    · intro j hj
      have hj' : (j, Phase.held) ∈ R := by simpa using hj
      rw [set_buf_ne c _ (hfree _ hj')]; exact h.heldValid j hj'
    · intro b' hb'
      obtain ⟨j, hj, hjb, hv⟩ := h.pinned b' hb'
      have hji : j ≠ i := by
        rintro rfl
        exact hnp ⟨hjb.1, hjb.2 ▸ hb'⟩
      exact ⟨j, hj, by rw [set_buf_ne c _ hji]; exact ⟨hjb, hv⟩⟩
    · intro j hj hd hv hnd
      by_cases hji : j = i
      · subst hji; simp at hv
      · rw [set_buf_ne c _ hji] at hd hv ⊢; exact h.content j hj hd hv hnd
    · intro j hj; exact List.mem_cons_of_mem _ (h.dirtyHeld j hj)

theorem CacheInv.lock (h : CacheInv c ((i, .waiting) :: R) pins stale dirty disk last)
    (hfree : (c.buf i).locked = false) : CacheInv (lock c disk i) ((i, .held) :: R) pins stale dirty disk last := by
  obtain ⟨hi, hdev⟩ := h.refs (i, .waiting) List.mem_cons_self
  have hc := h.count i hi
  have hlk := h.locks i hi
  have hnd := h.not_dirty_of_unlocked hfree
  rw [hfree, List.count_cons_of_ne (by simp)] at hlk
  -- an invalid buffer is not pinned, so the disk is up to date for its block
  have hread : (c.buf i).valid = false → disk (c.buf i).blockno = last (c.buf i).blockno := by
    intro hv
    apply h.fresh
    intro hs
    have := h.pinned_of_holds (h.stalePinned _ hs) hi ⟨hdev, rfl⟩
    rw [hv] at this; cases this
  refine h.update hi hdev _ (by split_ifs <;> exact hdev) (by split_ifs <;> rfl) ?_ ?_ ?_ (fun _ _ => Iff.rfl)
    h.pinsNodup (fun _ _ => rfl) (fun _ _ => Iff.rfl) ?_ ?_ ?_ ?_ ?_ h.fresh h.stalePinned
  · intro r hr
    rcases List.mem_cons.1 hr with rfl | hr
    · exact Or.inl rfl
    · exact Or.inr (List.mem_cons_of_mem _ hr)
  · intro j hj
    rw [List.countP_cons_of_neg (by simpa using Ne.symm hj), List.countP_cons_of_neg (by simpa using Ne.symm hj)]
  · intro j hj
    rw [List.count_cons_of_ne (by simpa using Ne.symm hj), List.count_cons_of_ne (by simp)]
  · simp only [hdev, true_and, List.countP_cons, decide_true, if_true] at hc ⊢
    rw [← hc]; split_ifs <;> rfl
  · rw [List.count_cons_self, hlk]
    split_ifs <;> simp_all
  · intro _; split_ifs with hv
    · exact hv
    · rfl
  · intro hv hd
    split_ifs at hv ⊢ with hval
    · exact h.content i hi hdev hval hnd
    · exact hread (by simpa using hval)
  · intro hd; exact absurd hd hnd

/-- giving the lock up; the buffer must have been logged since it was modified -/
theorem CacheInv.unlock (h : CacheInv c ((i, .held) :: R) pins stale dirty disk last) (hnd : i ∉ dirty) :
    CacheInv (unlock c i) ((i, .releasing) :: R) pins stale dirty disk last := by
  obtain ⟨hi, hdev⟩ := h.refs (i, .held) List.mem_cons_self
  have hc := h.count i hi
  have hlk := (h.count_held (i := i) List.mem_cons_self).1
  rw [List.count_cons_self] at hlk
  refine h.update hi hdev { c.buf i with locked := false } hdev rfl ?_ ?_ ?_ (fun _ _ => Iff.rfl)
    h.pinsNodup (fun _ _ => rfl) (fun _ _ => Iff.rfl) ?_ ?_ ?_ ?_ ?_ h.fresh h.stalePinned
  · intro r hr
    rcases List.mem_cons.1 hr with rfl | hr
    · exact Or.inl rfl
    · exact Or.inr (List.mem_cons_of_mem _ hr)
  · intro j hj
    rw [List.countP_cons_of_neg (by simpa using Ne.symm hj), List.countP_cons_of_neg (by simpa using Ne.symm hj)]
  · intro j hj
    rw [List.count_cons_of_ne (by simp), List.count_cons_of_ne (by simpa using Ne.symm hj)]
  · simp only [hdev, true_and, List.countP_cons, decide_true, if_true] at hc ⊢
    exact hc
  · rw [List.count_cons_of_ne (by simp)]; simp; omega
  · intro _; exact h.heldValid i List.mem_cons_self
  · intro hv _; exact h.content i hi hdev hv hnd
  · intro hd; exact absurd hd hnd

theorem CacheInv.drop (h : CacheInv c ((i, .releasing) :: R) pins stale dirty disk last) :
    CacheInv (drop c i) R pins stale dirty disk last := by
  obtain ⟨hi, hdev⟩ := h.refs (i, .releasing) List.mem_cons_self
  have hc := h.count i hi
  have hlk := h.locks i hi
  have hset : CacheInv (c.set i { c.buf i with refcnt := (c.buf i).refcnt - 1 }) R pins stale dirty disk last := by
    refine h.update hi hdev { c.buf i with refcnt := (c.buf i).refcnt - 1 } hdev rfl ?_ ?_ ?_ (fun _ _ => Iff.rfl)
      h.pinsNodup (fun _ _ => rfl) (fun _ _ => Iff.rfl) ?_ ?_ ?_ ?_ ?_ h.fresh h.stalePinned
    · intro r hr; exact Or.inr (List.mem_cons_of_mem _ hr)
    · intro j hj; rw [List.countP_cons_of_neg (by simpa using Ne.symm hj)]
    · intro j _; rw [List.count_cons_of_ne (by simp)]
    · simp only [hdev, true_and, List.countP_cons, decide_true, if_true] at hc
      simp only [hc]; omega
    · rw [List.count_cons_of_ne (by simp)] at hlk; exact hlk
    · rintro (hm | hm)
      · exact h.heldValid i (List.mem_cons_of_mem _ hm)
      · exact h.pinned_of_holds hm hi ⟨hdev, rfl⟩
    · exact h.content i hi hdev
    · intro hd; simpa using h.dirtyHeld i hd
  unfold Bio.drop
  simp only
  split_ifs
  · exact hset.reorder (List.perm_cons_erase hi).symm
  · exact hset

theorem set_buf_eta (c : Bcache) (i : ℕ) : c.set i (c.buf i) = c := by simp [Bcache.set]

theorem CacheInv.store (h : CacheInv c R pins stale dirty disk last) (hh : (i, Phase.held) ∈ R) (d : Block) :
    CacheInv (store c i d) R pins stale (i :: dirty) disk last := by
  obtain ⟨hi, hdev⟩ := h.refs _ hh
  have hc := h.count i hi
  simp only [hdev, true_and] at hc
  refine h.update hi hdev { c.buf i with data := d } hdev rfl (fun r hr => Or.inr hr) (fun _ _ => rfl) (fun _ _ => rfl)
    (fun _ _ => Iff.rfl) h.pinsNodup (fun _ _ => rfl) ?_ hc (h.locks i hi) (fun _ => h.heldValid i hh) ?_ (fun _ => hh)
    h.fresh h.stalePinned
  · intro j hj; simp [hj]
  · intro _ hnd; exact absurd List.mem_cons_self hnd

theorem mem_filter_ne {j : ℕ} (h : j ≠ i) : j ∈ l.filter (fun k => k ≠ i) ↔ j ∈ l := by simp [h]

/-- logging a block that is already recorded: its content changes, its pin stays -/
theorem CacheInv.relog (h : CacheInv c R pins stale dirty disk last) (hh : (i, Phase.held) ∈ R)
    (hb : (c.buf i).blockno ∈ stale) :
    CacheInv c R pins stale (dirty.filter fun k => k ≠ i) disk (last.set (c.buf i).blockno (c.buf i).data) := by
  obtain ⟨hi, hdev⟩ := h.refs _ hh
  have hc := h.count i hi
  simp only [hdev, true_and] at hc
  have hup : CacheInv (c.set i (c.buf i)) R pins stale (dirty.filter fun k => k ≠ i) disk
      (last.set (c.buf i).blockno (c.buf i).data) := by
    refine h.update hi hdev (c.buf i) hdev rfl (fun r hr => Or.inr hr) (fun _ _ => rfl) (fun _ _ => rfl)
      (fun _ _ => Iff.rfl) h.pinsNodup ?_ (fun j hj => mem_filter_ne hj) hc (h.locks i hi) (fun _ => h.heldValid i hh)
      ?_ (fun _ => hh) ?_ h.stalePinned
    · intro b hne; exact Store.set_ne _ _ hne
    · intro _ _; rw [Store.set_self]
    · intro b hbs
      have hne : b ≠ (c.buf i).blockno := fun heq => hbs (heq ▸ hb)
      rw [Store.set_ne _ _ hne]; exact h.fresh b hbs
  rwa [set_buf_eta] at hup

/-- logging a block for the first time: it is pinned, and its home location is out of date -/
theorem CacheInv.log (h : CacheInv c R pins stale dirty disk last) (hh : (i, Phase.held) ∈ R)
    (hb : (c.buf i).blockno ∉ pins) :
    CacheInv (pin c i) R (pins ++ [(c.buf i).blockno]) (stale ++ [(c.buf i).blockno]) (dirty.filter fun k => k ≠ i) disk
      (last.set (c.buf i).blockno (c.buf i).data) := by
  obtain ⟨hi, hdev⟩ := h.refs _ hh
  have hc := h.count i hi
  simp only [hdev, true_and, if_neg hb] at hc
  refine h.update hi hdev { c.buf i with refcnt := (c.buf i).refcnt + 1 } hdev rfl (fun r hr => Or.inr hr)
    (fun _ _ => rfl) (fun _ _ => rfl) ?_ ?_ ?_ (fun j hj => mem_filter_ne hj) ?_ (h.locks i hi)
    (fun _ => h.heldValid i hh) ?_ (fun _ => hh) ?_ ?_
  · intro b hne; simp [hne]
  · rw [List.nodup_append]
    exact ⟨h.pinsNodup, by simp, fun x hx y hy => by rw [List.mem_singleton.1 hy]; exact fun heq => hb (heq ▸ hx)⟩
  · intro b hne; exact Store.set_ne _ _ hne
  · rw [if_pos (by simp)]; simp only; omega
  · intro _ _; rw [Store.set_self]
  · intro b hbs
    simp only [List.mem_append, List.mem_singleton, not_or] at hbs
    rw [Store.set_ne _ _ hbs.2]; exact h.fresh b hbs.1
  · intro b hbs
    rcases List.mem_append.1 hbs with hbs | hbs
    · exact List.mem_append_left _ (h.stalePinned b hbs)
    · exact List.mem_append_right _ hbs

theorem CacheInv.unpin (h : CacheInv c R (b :: pins) stale dirty disk last) (hi : i ∈ c.lru)
    (hb : (c.buf i).Holds b) (hs : b ∉ stale) : CacheInv (unpin c i) R pins stale dirty disk last := by
  obtain ⟨hdev, rfl⟩ := hb
  have hc := h.count i hi
  have hnd := List.nodup_cons.1 h.pinsNodup
  have hv := h.pinned_of_holds List.mem_cons_self hi ⟨hdev, rfl⟩
  rw [if_pos ⟨hdev, List.mem_cons_self⟩] at hc
  refine h.update hi hdev { c.buf i with refcnt := (c.buf i).refcnt - 1 } hdev rfl (fun r hr => Or.inr hr)
    (fun _ _ => rfl) (fun _ _ => rfl) ?_ hnd.2 (fun _ _ => rfl) (fun _ _ => Iff.rfl) ?_ (h.locks i hi)
    (fun _ => hv) (h.content i hi hdev) (h.dirtyHeld i) h.fresh ?_
  · intro b hne; simp [hne]
  · rw [if_neg hnd.1]; simp only; omega
  · intro b hbs
    rcases List.mem_cons.1 (h.stalePinned b hbs) with rfl | hm
    · exact absurd hbs hs
    · exact hm

/-- writing a buffer that the log does not record through to the disk -/
theorem CacheInv.writeThrough (h : CacheInv c R pins stale dirty disk last) (hh : (i, Phase.held) ∈ R)
    (hb : (c.buf i).Holds b) (hp : b ∉ pins) (hnd : i ∉ dirty) (d : Block) :
    CacheInv (Bio.store c i d) R pins stale dirty (disk.set b d) (last.set b d) := by
  obtain ⟨hdev, rfl⟩ := hb
  have hi := (h.refs _ hh).1
  have hc := h.count i hi
  simp only [hdev, true_and] at hc
  refine h.update hi hdev { c.buf i with data := d } hdev rfl (fun r hr => Or.inr hr) (fun _ _ => rfl) (fun _ _ => rfl)
    (fun _ _ => Iff.rfl) h.pinsNodup ?_ (fun _ _ => Iff.rfl) hc (h.locks i hi) (fun _ => h.heldValid i hh) ?_
    (fun hd => absurd hd hnd) ?_ h.stalePinned
  · intro b hne; exact Store.set_ne _ _ hne
  · intro _ _; simp
  · intro b hbs
    by_cases hbi : b = (c.buf i).blockno
    · subst hbi; simp
    · rw [Store.set_ne _ _ hbi, Store.set_ne _ _ hbi]; exact h.fresh b hbs

/-- installing a recorded block: its logged content goes to its home location -/
theorem CacheInv.writeHome (h : CacheInv c R pins (b :: stale) dirty disk last) (hh : (i, Phase.held) ∈ R)
    (hb : (c.buf i).Holds b) (hnd : i ∉ dirty) {d : Block} (hd : d = last b) :
    CacheInv (Bio.store c i d) R pins stale dirty (disk.set b d) last := by
  obtain ⟨hdev, rfl⟩ := hb
  have hi := (h.refs _ hh).1
  have hc := h.count i hi
  simp only [hdev, true_and] at hc
  refine h.update hi hdev { c.buf i with data := d } hdev rfl (fun r hr => Or.inr hr) (fun _ _ => rfl) (fun _ _ => rfl)
    (fun _ _ => Iff.rfl) h.pinsNodup (fun _ _ => rfl) (fun _ _ => Iff.rfl) hc (h.locks i hi)
    (fun _ => h.heldValid i hh) (fun _ _ => hd) (fun hd => absurd hd hnd) ?_
    (fun b hbs => h.stalePinned b (List.mem_cons_of_mem _ hbs))
  intro b hbs
  by_cases hbi : b = (c.buf i).blockno
  · subst hbi; rw [Store.set_self]; exact hd
  · rw [Store.set_ne _ _ hbi]; exact h.fresh b (by simp [hbi, hbs])

/-! ## Buffers in use keep their block -/

/-- a buffer in use is not given to another block -/
def Keeps (c c' : Bcache) : Prop :=
  ∀ j ∈ c.lru, (c.buf j).refcnt ≠ 0 → ∀ b, (c.buf j).Holds b → (c'.buf j).Holds b

theorem CacheInv.used (h : CacheInv c R pins stale dirty disk last) {r : ℕ × Phase} (hr : r ∈ R) :
    r.1 ∈ c.lru ∧ (c.buf r.1).refcnt ≠ 0 := by
  have hi := (h.refs r hr).1
  have hpos : 0 < R.countP fun x => x.1 = r.1 := List.countP_pos_iff.2 ⟨r, hr, by simp⟩
  have := h.count r.1 hi
  exact ⟨hi, by omega⟩

theorem CacheInv.pinned_used (h : CacheInv c R pins stale dirty disk last) (hi : i ∈ c.lru)
    (hb : (c.buf i).Holds b) (hp : b ∈ pins) : (c.buf i).refcnt ≠ 0 := by
  intro h0
  exact (h.of_refcnt_zero hi h0).2 ⟨hb.1, hb.2 ▸ hp⟩

theorem Keeps.refl (c : Bcache) : Keeps c c := fun _ _ _ _ hb => hb

theorem keeps_set (c : Bcache) (i : ℕ) {x : Buf} (hd : x.dev = (c.buf i).dev) (hb : x.blockno = (c.buf i).blockno) :
    Keeps c (c.set i x) := by
  intro j _ _ b hjb
  by_cases hji : j = i
  · subst hji
    rw [set_buf_self]; exact ⟨hd.trans hjb.1, hb.trans hjb.2⟩
  · rwa [set_buf_ne c _ hji]

theorem keeps_bget (hg : bget c b = .ok (c', i)) : Keeps c c' := by
  obtain ⟨-, ⟨-, rfl⟩ | ⟨-, h0, rfl⟩⟩ := bget_cases hg
  · exact keeps_set c i rfl rfl
  · intro j _ hj b hjb
    have hji : j ≠ i := by rintro rfl; exact hj h0
    rwa [set_buf_ne c _ hji]

theorem keeps_lock (c : Bcache) (disk : Disk) (i : ℕ) : Keeps c (lock c disk i) :=
  keeps_set c i (by split_ifs <;> rfl) (by split_ifs <;> rfl)

theorem keeps_drop (c : Bcache) (i : ℕ) : Keeps c (drop c i) := by
  have hset := keeps_set c i (x := { c.buf i with refcnt := (c.buf i).refcnt - 1 }) rfl rfl
  unfold drop
  simp only
  split_ifs <;> exact hset

/-! ## Counting buffers -/

/-- if every buffer is in use and nobody has a reference, every buffer is pinned -/
theorem CacheInv.all_pinned (h : CacheInv c [] pins stale dirty disk last)
    (hfull : ∀ i ∈ c.lru, (c.buf i).refcnt ≠ 0) : NBUF ≤ pins.length := by
  have hpin : ∀ i ∈ c.lru, (c.buf i).dev = ROOTDEV ∧ (c.buf i).blockno ∈ pins := by
    intro i hi
    by_contra hne
    have hc := h.count i hi
    rw [if_neg hne] at hc
    exact hfull i hi (by simpa using hc)
  have hnd : (c.lru.map fun i => (c.buf i).blockno).Nodup := by
    refine (List.nodup_map_iff_inj_on h.nodup).2 fun i hi j hj heq => ?_
    exact h.uniq i hi j hj _ ⟨(hpin i hi).1, rfl⟩ ⟨(hpin j hj).1, heq.symm⟩
  have hsub : (c.lru.map fun i => (c.buf i).blockno) ⊆ pins := by
    intro b hb
    obtain ⟨i, hi, rfl⟩ := List.mem_map.1 hb
    exact (hpin i hi).2
  have hlen := (List.subperm_of_subset hnd hsub).length_le
  rw [List.length_map, h.lru.length_eq, List.length_range] at hlen
  exact hlen

/-- if as many blocks are pinned as there are buffers, every buffer holds one of them -/
theorem CacheInv.holds_pinned (h : CacheInv c R pins stale dirty disk last) (hfull : NBUF ≤ pins.length)
    (hi : i ∈ c.lru) :
    (c.buf i).dev = ROOTDEV ∧ (c.buf i).blockno ∈ pins := by
  by_contra hne
  -- otherwise the pinned blocks fit into the other buffers
  have hsub : pins ⊆ (c.lru.erase i).map fun j => (c.buf j).blockno := by
    intro b hb
    obtain ⟨j, hj, hjb, -⟩ := h.pinned b hb
    have hji : j ≠ i := by
      rintro rfl
      exact hne ⟨hjb.1, hjb.2 ▸ hb⟩
    exact List.mem_map.2 ⟨j, (List.mem_erase_of_ne hji).2 hj, hjb.2⟩
  have hlen := (List.subperm_of_subset h.pinsNodup hsub).length_le
  rw [List.length_map, List.length_erase_of_mem hi, h.lru.length_eq, List.length_range] at hlen
  have : 0 < NBUF := by decide
  omega

end Xv6.Bio
