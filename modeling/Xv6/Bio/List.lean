/-
The linked list of the buffer cache (kernel/bio.c: bcache.head, binit, bget, brelse, bpin, bunpin).

The buffers are nodes 0..NBUF-1 of a doubly linked ring whose head, bcache.head, is node NBUF. One step of the machine
is what one call does under bcache.lock. For the statements the state also counts the references (`refs`)
and the pins of the log (`pins`), and keeps the time of the last release to zero of every buffer (`stamp`).

A caller of `brelse` or `bpin` has a reference, and `install_trans` unpins a pinned buffer that it holds.

- `cache_structure`: one cycle, no block cached twice, and the buffer released longest ago is recycled.
- `ring_refines_list`: in every run the calls do what the list model of Bio.Cache says (`bget_eq`, `brelse_eq`).
-/
import Xv6.Core.Links
import Xv6.Bio.Cache

namespace Xv6.BufList

open Xv6.Core Bio
open GroupCommit (Panic)

/-! ## Model -/

/-- the buffers and their links -/
structure Linked where
  buf : Store Buf
  links : Dll

/-- `&bcache.head` -/
def head : ℕ := NBUF

/-- replace buffer i -/
def Linked.set (c : Linked) (i : ℕ) (x : Buf) : Linked := { c with buf := c.buf.set i x }

/-- the loop of `binit` on zeroed memory -/
def binit (d : Dll) : Dll := (List.range NBUF).foldl (fun d b => d.push head b) (d.single head)

/-- the part of `bget` under bcache.lock; a loop over the list takes at most NBUF + 1 tests of its condition -/
def bget (c : Linked) (dev blockno : ℕ) : Except Panic (Linked × ℕ) :=
  -- is the block already cached?
  match Dll.search c.links.next head (fun i => (c.buf i).dev = dev ∧ (c.buf i).blockno = blockno) (NBUF + 1)
      (c.links.next head) with
  | some i => .ok (c.set i { c.buf i with refcnt := (c.buf i).refcnt + 1 }, i)
  | none =>
    -- recycle the least recently used unused buffer
    match Dll.search c.links.prev head (fun i => (c.buf i).refcnt = 0) (NBUF + 1) (c.links.prev head) with
    | some i => .ok (c.set i { c.buf i with dev := dev, blockno := blockno, valid := false, refcnt := 1 }, i)
    | none => .error .noBuffers

/-- the part of `brelse` under bcache.lock -/
def brelse (c : Linked) (i : ℕ) : Linked :=
  let c := c.set i { c.buf i with refcnt := (c.buf i).refcnt - 1 }
  if (c.buf i).refcnt = 0 then { c with links := (c.links.unlink i).push head i } else c

def bpin (c : Linked) (i : ℕ) : Linked := c.set i { c.buf i with refcnt := (c.buf i).refcnt + 1 }

def bunpin (c : Linked) (i : ℕ) : Linked := c.set i { c.buf i with refcnt := (c.buf i).refcnt - 1 }

/-! ## The machine -/

structure St where
  cache : Linked
  refs : Store ℕ
  pins : Store ℕ
  stamp : Store (WithBot ℕ)
  clock : ℕ

inductive Act where
  | bget (dev blockno : ℕ)
  | brelse (i : ℕ)
  | bpin (i : ℕ)
  | bunpin (i : ℕ)
deriving DecidableEq, Repr

/-- a call has taken back a reference to buffer i, perhaps the last one -/
def St.release (s : St) (c : Linked) (i : ℕ) : St :=
  if (c.buf i).refcnt = 0 then { s with cache := c, stamp := s.stamp.set i s.clock, clock := s.clock + 1 }
  else { s with cache := c }

def step (s : St) : Act → Except Panic St
  | .bget dev b =>
    match bget s.cache dev b with
    | .error e => .error e
    | .ok (c, i) => .ok { s with cache := c, refs := s.refs.set i (s.refs i + 1) }
  | .brelse i => .ok { s.release (brelse s.cache i) i with refs := s.refs.set i (s.refs i - 1) }
  | .bpin i => .ok { s with cache := bpin s.cache i, pins := s.pins.set i (s.pins i + 1) }
  | .bunpin i => .ok { s.release (bunpin s.cache i) i with pins := s.pins.set i (s.pins i - 1) }

/-- the calls of the file system and the log -/
def legal (s : St) : Act → Prop
  | .bget _ _ => True
  | .brelse i | .bpin i => 0 < s.refs i
  | .bunpin i => 0 < s.refs i ∧ 0 < s.pins i

def calls : Machine St Act Panic := ⟨legal, step⟩

instance (s : St) (a : Act) : Decidable (calls.legal s a) := by cases a <;> unfold calls legal <;> infer_instance

/-- after `binit` -/
def start : St where
  cache := ⟨fun _ => ⟨false, 0, 0, 0, false, fun _ => 0⟩, binit ⟨fun _ => 0, fun _ => 0⟩⟩
  refs := fun _ => 0
  pins := fun _ => 0
  stamp := fun _ => ⊥
  clock := 0

/-! ## The list model -/

/-- the list a ring of links stands for -/
def Linked.toCache (c : Linked) (l : List ℕ) : Bcache := ⟨c.buf, l⟩

variable {s t : St} {c : Linked} {l : List ℕ} {i j dev b : ℕ}

/-- the lists of the ring: every buffer once -/
structure Order (d : Dll) (l : List ℕ) : Prop where
  ring : d.Ring head l
  perm : l.Perm (List.range NBUF)

theorem Order.mem (h : Order c.links l) : i ∈ l ↔ i < NBUF := by rw [h.perm.mem_iff, List.mem_range]

theorem Order.length (h : Order c.links l) : l.length < NBUF + 1 := by
  rw [h.perm.length_eq, List.length_range]
  exact Nat.lt_succ_self _

/-- **Looking up and recycling follow the list.** -/
theorem bget_eq (h : Order c.links l) : bget c dev b =
    match l.find? fun i => (c.buf i).dev = dev ∧ (c.buf i).blockno = b with
    | some i => .ok (c.set i { c.buf i with refcnt := (c.buf i).refcnt + 1 }, i)
    | none =>
      match l.reverse.find? fun i => (c.buf i).refcnt = 0 with
      | some i => .ok (c.set i { c.buf i with dev := dev, blockno := b, valid := false, refcnt := 1 }, i)
      | none => .error .noBuffers := by
  unfold bget
  rw [h.ring.search_next h.length, h.ring.search_prev h.length]

/-- on the file system's disk this is `bget` of the list model -/
theorem bget_root (h : Order c.links l) :
    (bget c ROOTDEV b).map (fun r => (r.1.toCache l, r.2)) = Bio.bget (c.toCache l) b := by
  rw [bget_eq h]
  show _ = (match l.find? fun i => decide ((c.buf i).Holds b) with | some i => _ | none => _)
  have hq : (fun i => decide ((c.buf i).dev = ROOTDEV ∧ (c.buf i).blockno = b)) = fun i => decide ((c.buf i).Holds b) :=
    rfl
  rw [hq]
  cases l.find? fun i => decide ((c.buf i).Holds b) with
  | some i => rfl
  | none =>
    show Except.map _ (match l.reverse.find? fun i => decide ((c.buf i).refcnt = 0) with | some i => _ | none => _) = 
      (match l.reverse.find? fun i => decide ((c.buf i).refcnt = 0) with | some i => _ | none => _)
    cases l.reverse.find? fun i => decide ((c.buf i).refcnt = 0) <;> rfl

/-- the surgery of `brelse` moves a buffer to the front, also when it is there already -/
theorem Order.touch {d : Dll} (h : Order d l) (hi : i < NBUF) : Order ((d.unlink i).push head i) (i :: l.erase i) := by
  have him : i ∈ l := h.perm.mem_iff.2 (List.mem_range.2 hi)
  obtain ⟨l1, l2, hni, hl, he⟩ := List.exists_erase_eq him
  rw [he]
  have hr : (d.unlink i).Ring head (l1 ++ l2) := Dll.Ring.unlink (hl ▸ h.ring)
  have hnd : (head :: (l1 ++ i :: l2)).Nodup := hl ▸ h.ring.2
  refine ⟨hr.push ?_, ?_⟩
  · rw [List.nodup_cons, List.nodup_middle, List.nodup_cons] at hnd
    rw [List.mem_cons]
    exact fun hm => hm.elim (fun e => hnd.1 (e ▸ by simp)) hnd.2.1
  · exact (List.perm_middle.symm.trans (hl ▸ List.Perm.refl _)).trans h.perm

/-- **Releasing follows the list.** -/
theorem brelse_eq (h : Order c.links l) (hi : i < NBUF) :
    ∃ l', Order (brelse c i).links l' ∧ (brelse c i).toCache l' = drop (c.toCache l) i := by
  by_cases h0 : (c.buf i).refcnt - 1 = 0
  · have h1 : (brelse c i) =
        ⟨c.buf.set i { c.buf i with refcnt := (c.buf i).refcnt - 1 }, (c.links.unlink i).push head i⟩ :=
      if_pos (by simpa [Linked.set] using h0)
    refine ⟨i :: l.erase i, h1 ▸ h.touch hi, ?_⟩
    rw [h1]
    exact (if_pos (by simpa [Linked.toCache] using h0)).symm
  · have h1 : (brelse c i) = c.set i { c.buf i with refcnt := (c.buf i).refcnt - 1 } :=
      if_neg (by simpa [Linked.set] using h0)
    refine ⟨l, h1 ▸ h, ?_⟩
    rw [h1]
    exact (if_neg (by simpa [Linked.toCache] using h0)).symm

/-! ## The initial ring -/

theorem binit_order (d : Dll) : Order (binit d) (List.range NBUF).reverse := by
  have hpre : ∀ n, n ≤ NBUF → ((List.range n).foldl (fun d b => d.push head b) (d.single head)).Ring head
    (List.range n).reverse := by
    intro n
    induction n with
    | zero => exact fun _ => Dll.ring_single d head
    | succ n ih =>
      intro hn
      rw [List.range_succ, List.foldl_append, List.reverse_append]
      refine (ih (by omega)).push ?_
      rw [List.mem_cons, List.mem_reverse, List.mem_range]
      exact fun hm => hm.elim (fun e => by rw [e] at hn; exact absurd hn (by decide)) (fun hlt => lt_irrefl _ hlt)
  exact ⟨hpre NBUF le_rfl, List.reverse_perm _⟩

/-! ## The invariant -/

/-- a buffer before another one in the list was released later, unless neither was ever used -/
def Later (stamp : Store (WithBot ℕ)) (i j : ℕ) : Prop := stamp j < stamp i ∨ stamp i = ⊥ ∧ stamp j = ⊥

structure Inv (s : St) (l : List ℕ) : Prop where
  order : Order s.cache.links l
  uniq : ∀ i < NBUF, ∀ j < NBUF, (s.cache.buf i).dev = ROOTDEV → (s.cache.buf j).dev = ROOTDEV →
    (s.cache.buf i).blockno = (s.cache.buf j).blockno → i = j
  count : ∀ i < NBUF, (s.cache.buf i).refcnt = s.refs i + s.pins i
  /-- only buffers are used -/
  used : ∀ i, 0 < s.refs i → i < NBUF
  sorted : l.Pairwise (Later s.stamp)
  past : ∀ i, s.stamp i < s.clock

theorem start_inv : Inv start (List.range NBUF).reverse where
  order := binit_order _
  uniq := fun _ _ _ _ (h : 0 = 1) => absurd h (by decide)
  count := fun _ _ => rfl
  used := fun _ h => absurd h (lt_irrefl 0)
  sorted := List.Pairwise.imp (fun _ => Or.inr ⟨rfl, rfl⟩) (List.pairwise_of_forall (R := fun _ _ => True)
    fun _ _ => trivial)
  past := fun _ => WithBot.bot_lt_coe 0

@[simp] theorem set_buf (c : Linked) (i : ℕ) (x : Buf) : (c.set i x).buf i = x := Store.set_self _ _ _

theorem set_buf_of_ne (c : Linked) (x : Buf) (h : j ≠ i) : (c.set i x).buf j = c.buf j := Store.set_ne _ _ h

theorem set_eq {α : Type} (f : Buf → α) {x : Buf} (hf : f x = f (c.buf i)) (j : ℕ) :
    f ((c.set i x).buf j) = f (c.buf j) := by
  by_cases hj : j = i
  · rw [hj, set_buf, hf]
  · rw [set_buf_of_ne _ _ hj]

theorem set_refcnt (c : Linked) (i n j : ℕ) :
    ((c.set i { c.buf i with refcnt := n }).buf j).dev = (c.buf j).dev ∧
      ((c.set i { c.buf i with refcnt := n }).buf j).blockno = (c.buf j).blockno :=
  ⟨set_eq (x := { c.buf i with refcnt := n }) Buf.dev rfl j, set_eq (x := { c.buf i with refcnt := n })
    Buf.blockno rfl j⟩

theorem Inv.recount (h : Inv s l) (hi : i < NBUF) {x : Buf} {r p : ℕ} (hdev : x.dev = (s.cache.buf i).dev)
    (hb : x.blockno = (s.cache.buf i).blockno) (hx : x.refcnt = r + p) :
    Inv { s with cache := s.cache.set i x, refs := s.refs.set i r, pins := s.pins.set i p } l where
  order := h.order
  uniq := fun j hj k hk => by
    show ((s.cache.set i x).buf j).dev = _ → ((s.cache.set i x).buf k).dev = _ →
      ((s.cache.set i x).buf j).blockno = ((s.cache.set i x).buf k).blockno → j = k
    rw [set_eq Buf.dev hdev, set_eq Buf.dev hdev, set_eq Buf.blockno hb, set_eq Buf.blockno hb]
    exact h.uniq j hj k hk
  count := fun j hj => by
    by_cases hji : j = i
    · subst hji
      simpa using hx
    · show ((s.cache.set i x).buf j).refcnt = s.refs.set i r j + s.pins.set i p j
      rw [set_buf_of_ne _ _ hji, Store.set_ne _ _ hji, Store.set_ne _ _ hji]
      exact h.count j hj
  used := fun j hj => by
    by_cases hji : j = i
    · exact hji ▸ hi
    · exact h.used j (by simpa [Store.set_ne _ _ hji] using hj)
  sorted := h.sorted
  past := h.past

theorem Inv.touch (h : Inv s l) (hi : i < NBUF) :
    Inv { s with
      cache := { s.cache with links := (s.cache.links.unlink i).push head i }
      stamp := s.stamp.set i s.clock
      clock := s.clock + 1 } (i :: l.erase i) where
  order := h.order.touch hi
  uniq := h.uniq
  count := h.count
  used := h.used
  sorted := by
    have hnd : l.Nodup := h.order.perm.nodup_iff.2 List.nodup_range
    have hne : ∀ j ∈ l.erase i, j ≠ i := fun j hj => (hnd.mem_erase_iff.1 hj).1
    refine List.pairwise_cons.2 ⟨fun j hj => Or.inl ?_, ?_⟩
    · show s.stamp.set i s.clock j < s.stamp.set i s.clock i
      rw [Store.set_self, Store.set_ne _ _ (hne j hj)]
      exact h.past j
    · refine (h.sorted.sublist List.erase_sublist).imp_of_mem fun hj hk hlt => ?_
      show s.stamp.set i s.clock _ < s.stamp.set i s.clock _ ∨ s.stamp.set i s.clock _ = ⊥ ∧ s.stamp.set i s.clock _ = ⊥
      rw [Store.set_ne _ _ (hne _ hj), Store.set_ne _ _ (hne _ hk)]
      exact hlt
  past := fun j => by
    have hclock : (s.clock : WithBot ℕ) < ((s.clock + 1 : ℕ) : WithBot ℕ) := WithBot.coe_lt_coe.2 (Nat.lt_succ_self _)
    by_cases hj : j = i
    · subst hj
      simpa using hclock
    · show s.stamp.set i s.clock j < _
      rw [Store.set_ne _ _ hj]
      exact (h.past j).trans hclock

/-! ## What a call does -/

/-- the block is not cached -/
def Missing (s : St) (dev b : ℕ) : Prop := ∀ j < NBUF, ¬ ((s.cache.buf j).dev = dev ∧ (s.cache.buf j).blockno = b)

/-- of the unused buffers, i was released longest ago; a buffer that was never used comes before all others -/
def Oldest (s : St) (i : ℕ) : Prop :=
  (s.cache.buf i).refcnt = 0 ∧ ∀ j < NBUF, (s.cache.buf j).refcnt = 0 → j ≠ i →
    s.stamp i < s.stamp j ∨ s.stamp i = ⊥ ∧ s.stamp j = ⊥

theorem Inv.oldest (h : Inv s l) (hf : (l.reverse.find? fun i => (s.cache.buf i).refcnt = 0) = some i) :
    i < NBUF ∧ Oldest s i := by
  obtain ⟨h0, as, bs, hl, has⟩ := List.find?_eq_some_iff_append.1 hf
  have hil : i ∈ l := List.mem_reverse.1 (hl ▸ by simp)
  refine ⟨h.order.mem.1 hil, by simpa using h0, fun j hj hj0 hji => ?_⟩
  have hjl : j ∈ l.reverse := List.mem_reverse.2 (h.order.mem.2 hj)
  rw [hl] at hjl
  -- what the loop has passed is in use; what it has not reached was released later
  rcases List.mem_append.1 hjl with hj' | hj'
  · exact absurd hj0 (by simpa using has j hj')
  · have hbs : j ∈ bs := (List.mem_cons.1 hj').resolve_left hji
    have hsort : (as ++ i :: bs).Pairwise fun x y => Later s.stamp y x := hl ▸ List.pairwise_reverse.2 h.sorted
    have hlt := (List.pairwise_cons.1 (List.pairwise_append.1 hsort).2.1).1 j hbs
    exact hlt.imp id And.symm

/-- **One call of `bget`.** -/
theorem Inv.bget_cases (h : Inv s l) (hg : bget s.cache dev b = .ok (c, i)) :
    i < NBUF ∧
      ((s.cache.buf i).dev = dev ∧ (s.cache.buf i).blockno = b ∧
          c = s.cache.set i { s.cache.buf i with refcnt := (s.cache.buf i).refcnt + 1 } ∨
        Missing s dev b ∧ Oldest s i ∧
          c = s.cache.set i { s.cache.buf i with dev := dev, blockno := b, valid := false, refcnt := 1 }) := by
  rw [bget_eq h.order] at hg
  cases hf : l.find? fun i => (s.cache.buf i).dev = dev ∧ (s.cache.buf i).blockno = b with
  | some k =>
    rw [hf] at hg
    cases hg
    have hk := List.find?_some hf
    exact ⟨h.order.mem.1 (List.mem_of_find?_eq_some hf), Or.inl ⟨(of_decide_eq_true hk).1, (of_decide_eq_true hk).2,
      rfl⟩⟩
  | none =>
    rw [hf] at hg
    have hmiss : Missing s dev b := fun j hj => by simpa using List.find?_eq_none.1 hf j (h.order.mem.2 hj)
    cases hr : l.reverse.find? fun i => (s.cache.buf i).refcnt = 0 with
    | some k =>
      rw [hr] at hg
      cases hg
      obtain ⟨hlt, hold⟩ := h.oldest hr
      exact ⟨hlt, Or.inr ⟨hmiss, hold, rfl⟩⟩
    | none =>
      rw [hr] at hg
      cases hg

theorem Inv.recycle (h : Inv s l) (hi : i < NBUF) (hmiss : Missing s dev b) (h0 : (s.cache.buf i).refcnt = 0) :
    Inv { s with
      cache := s.cache.set i { s.cache.buf i with dev := dev, blockno := b, valid := false, refcnt := 1 }
      refs := s.refs.set i (s.refs i + 1) } l := by
  have hcount := h.count i hi
  refine ⟨h.order, fun j hj k hk hjd hkd hjk => ?_, fun j hj => ?_, fun j hj => ?_, h.sorted, h.past⟩
  · simp only at hjd hkd hjk
    by_cases hji : j = i
    · by_cases hki : k = i
      · rw [hji, hki]
      · subst hji
        rw [set_buf] at hjd hjk
        rw [set_buf_of_ne _ _ hki] at hkd hjk
        exact absurd ⟨hkd.trans hjd.symm, hjk.symm⟩ (hmiss k hk)
    · by_cases hki : k = i
      · subst hki
        rw [set_buf] at hkd hjk
        rw [set_buf_of_ne _ _ hji] at hjd hjk
        exact absurd ⟨hjd.trans hkd.symm, hjk⟩ (hmiss j hj)
      · rw [set_buf_of_ne _ _ hji] at hjd hjk
        rw [set_buf_of_ne _ _ hki] at hkd hjk
        exact h.uniq j hj k hk hjd hkd hjk
  · by_cases hji : j = i
    · subst hji
      simp only [set_buf, Store.set_self]
      omega
    · simp only [set_buf_of_ne _ _ hji, Store.set_ne _ _ hji]
      exact h.count j hj
  · by_cases hji : j = i
    · exact hji ▸ hi
    · exact h.used j (by simpa [Store.set_ne _ _ hji] using hj)

/-- **Every call keeps the invariant**, and the blocks of the buffers in use. -/
theorem Inv.step (h : Inv s l) {a : Act} (hl : legal s a) (hs : step s a = .ok t) :
    (∃ l', Inv t l') ∧ ∀ i < NBUF, 0 < (s.cache.buf i).refcnt →
      (t.cache.buf i).dev = (s.cache.buf i).dev ∧ (t.cache.buf i).blockno = (s.cache.buf i).blockno := by
  cases a with
  | bget dev b =>
    cases hg : bget s.cache dev b with
    | error e => simp [BufList.step, hg] at hs
    | ok r =>
      obtain ⟨c, i⟩ := r
      have ht : t = { s with cache := c, refs := s.refs.set i (s.refs i + 1) } := by
        simpa [BufList.step, hg] using hs.symm
      obtain ⟨hi, ⟨-, -, rfl⟩ | ⟨hmiss, hold, rfl⟩⟩ := h.bget_cases hg
      · have hcount := h.count i hi
        have hinv := h.recount (p := s.pins i) (r := s.refs i + 1) hi
          (x := { s.cache.buf i with refcnt := (s.cache.buf i).refcnt + 1 })
          rfl rfl (by simp only; omega)
        rw [Store.set_same] at hinv
        subst ht
        exact ⟨⟨l, hinv⟩, fun j _ _ => set_refcnt s.cache i _ j⟩
      · subst ht
        refine ⟨⟨l, h.recycle hi hmiss hold.1⟩, fun j _ hj => ?_⟩
        have hji : j ≠ i := fun e => by rw [e, hold.1] at hj; exact lt_irrefl 0 hj
        simp only [set_buf_of_ne _ _ hji, and_self]
  | brelse i =>
    have hi := h.used i hl
    have hcount := h.count i hi
    have hpos : 0 < s.refs i := hl
    have hinv := h.recount (r := s.refs i - 1) (p := s.pins i) hi
      (x := { s.cache.buf i with refcnt := (s.cache.buf i).refcnt - 1 })
      rfl rfl (by simp only; omega)
    rw [Store.set_same] at hinv
    have ht : t = { s.release (brelse s.cache i) i with refs := s.refs.set i (s.refs i - 1) } := (Except.ok.inj hs).symm
    by_cases h0 : (s.cache.buf i).refcnt - 1 = 0
    · have hc : brelse s.cache i = { s.cache.set i { s.cache.buf i with refcnt := (s.cache.buf i).refcnt - 1 } with
          links := (s.cache.links.unlink i).push head i } := if_pos (by simpa using h0)
      have hrel : s.release (brelse s.cache i) i =
          { s with cache := brelse s.cache i, stamp := s.stamp.set i s.clock, clock := s.clock + 1 } :=
        if_pos (by rw [hc]; simpa using h0)
      subst ht
      rw [hrel, hc]
      exact ⟨⟨_, hinv.touch hi⟩, fun j _ _ => set_refcnt s.cache i _ j⟩
    · have hc : brelse s.cache i = s.cache.set i { s.cache.buf i with refcnt := (s.cache.buf i).refcnt - 1 } :=
        if_neg (by simpa using h0)
      have hrel : s.release (brelse s.cache i) i = { s with cache := brelse s.cache i } :=
        if_neg (by rw [hc]; simpa using h0)
      subst ht
      rw [hrel, hc]
      exact ⟨⟨_, hinv⟩, fun j _ _ => set_refcnt s.cache i _ j⟩
  | bpin i =>
    have hi := h.used i hl
    have hcount := h.count i hi
    have hinv := h.recount (r := s.refs i) (p := s.pins i + 1) hi
      (x := { s.cache.buf i with refcnt := (s.cache.buf i).refcnt + 1 })
      rfl rfl (by simp only; omega)
    rw [Store.set_same] at hinv
    have ht : t = { s with cache := bpin s.cache i, pins := s.pins.set i (s.pins i + 1) } := (Except.ok.inj hs).symm
    subst ht
    exact ⟨⟨l, hinv⟩, fun j _ _ => set_refcnt s.cache i _ j⟩
  | bunpin i =>
    have hi := h.used i hl.1
    have hcount := h.count i hi
    have hpos : 0 < s.refs i ∧ 0 < s.pins i := hl
    have hinv := h.recount (r := s.refs i) (p := s.pins i - 1) hi
      (x := { s.cache.buf i with refcnt := (s.cache.buf i).refcnt - 1 })
      rfl rfl (by simp only; omega)
    rw [Store.set_same] at hinv
    -- the caller still holds the buffer, so this is never the last reference
    have hrel : s.release (bunpin s.cache i) i = { s with cache := bunpin s.cache i } :=
      if_neg (by simp [bunpin]; omega)
    have ht : t = { s.release (bunpin s.cache i) i with pins := s.pins.set i (s.pins i - 1) } := (Except.ok.inj hs).symm
    subst ht
    rw [hrel]
    exact ⟨⟨l, hinv⟩, fun j _ _ => set_refcnt s.cache i _ j⟩

/-- **Whole runs.** -/
theorem reach_inv (h : calls.Reach start s) : ∃ l, Inv s l :=
  h.inv (fun s => ∃ l, Inv s l) ⟨_, start_inv⟩ fun _ _ _ ⟨_, hi⟩ hl hs => (hi.step hl hs).1

/-- the calls on the list model -/
def lists : Machine Bcache Act Panic where
  legal _ _ := True
  step c
    | .bget _ b => (Bio.bget c b).map Prod.fst
    | .brelse i => .ok (drop c i)
    | .bpin i => .ok (pin c i)
    | .bunpin i => .ok (unpin c i)

/-- the call is about the file system's disk -/
def onRoot (_ : St) : Act → Bool
  | .bget dev _ => dev = ROOTDEV
  | _ => true

theorem release_cache (s : St) (c : Linked) (i : ℕ) : (s.release c i).cache = c := by
  unfold St.release; split <;> rfl

/-- **Every call on the ring is the call on the list.** -/
theorem Inv.refines {l₁ : List ℕ} {a : Act} (h : Inv s l₁) (ho : Order s.cache.links l) (hl : legal s a)
    (hr : onRoot s a) (hs : BufList.step s a = .ok t) :
    ∃ l', Order t.cache.links l' ∧ lists.step (s.cache.toCache l) a = .ok (t.cache.toCache l') := by
  cases a with
  | bget dev b =>
    obtain rfl : dev = ROOTDEV := of_decide_eq_true hr
    simp only [lists, ← bget_root ho]
    cases hg : bget s.cache ROOTDEV b with
    | error e => simp [BufList.step, hg] at hs
    | ok r =>
      obtain ⟨c, i⟩ := r
      obtain rfl : _ = t := by simpa [BufList.step, hg] using hs
      -- the links stay as they are
      obtain ⟨-, ⟨-, -, rfl⟩ | ⟨-, -, rfl⟩⟩ := h.bget_cases hg <;> exact ⟨l, ho, rfl⟩
  | brelse i =>
    obtain ⟨l', ho', he⟩ := brelse_eq ho (h.used i hl)
    cases hs
    exact ⟨l', by rwa [release_cache], by rw [release_cache, he]; rfl⟩
  | bpin i =>
    cases hs
    exact ⟨l, ho, rfl⟩
  | bunpin i =>
    cases hs
    exact ⟨l, by rwa [release_cache], by rw [release_cache]; rfl⟩

/-- **The ring refines the list.** Whatever the calls on the file system's disk are, the ring goes through states of the
list model, which the log is proved over, and the next `bget` returns the same buffer or panics on both. -/
theorem ring_refines_list (h : (calls.restrict fun s a => onRoot s a).Reach start s) :
    ∃ l, Order s.cache.links l ∧ lists.Reach (start.cache.toCache (List.range NBUF).reverse) (s.cache.toCache l) ∧
      ∀ b, (bget s.cache ROOTDEV b).map (fun r => (r.1.toCache l, r.2)) = Bio.bget (s.cache.toCache l) b := by
  obtain ⟨-, l, ho, hr⟩ := h.inv (fun s => (∃ l, Inv s l) ∧ ∃ l, Order s.cache.links l ∧
    lists.Reach (start.cache.toCache (List.range NBUF).reverse) (s.cache.toCache l))
    ⟨⟨_, start_inv⟩, _, binit_order _, .refl _⟩ fun s a t hi ha ht => by
      obtain ⟨⟨l', hinv⟩, l, ho, hr⟩ := hi
      obtain ⟨l₁, ho₁, hs⟩ := hinv.refines ho ha.1 ha.2 ht
      exact ⟨(hinv.step ha.1 ht).1, l₁, ho₁, hr.step trivial hs⟩
  exact ⟨l, ho, hr, fun b => bget_root ho⟩

theorem ring_refines_list_run : ∃ (s : St) (l : _), s.refs 0 = 1 ∧ Order s.cache.links l ∧
    lists.Reach (start.cache.toCache (List.range NBUF).reverse) (s.cache.toCache l) := by
  obtain ⟨s, hr, hp⟩ := Machine.exists_reach_of_steps (M := calls.restrict fun s a => onRoot s a) (s := start)
    (l := [.bget ROOTDEV 7, .bpin 0]) (p := fun s => s.refs 0 = 1) (by decide +kernel)
  obtain ⟨l, ho, hl, -⟩ := ring_refines_list hr
  exact ⟨s, l, of_decide_eq_true hp, ho, hl⟩

end Xv6.BufList
