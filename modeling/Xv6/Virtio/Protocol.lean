/-
The request protocol of the disk driver: which descriptors are in use, and what becomes of every request.

A request is in one of three stages: the device has its chain (in the avail ring or taken), its completion is in the
used ring, or `virtio_disk_intr` has seen it. Everything follows from the heads in flight being different and each being
the head of one waiting process.

- `Inv`: the invariant, with one lemma for each step.
- `virtio_protocol`: what holds of descriptors and requests in every reachable state.
-/
import Xv6.Virtio.Model

namespace Xv6.Virtio

open Xv6.Core

variable {s t : St} {p q i h k b sector i0 i1 i2 : ℕ} {r r' : Call} {idx : List ℕ} {P P' : Store Pos} {write : Bool}

/-! ## Allocating descriptors -/

theorem wakeFree_wait (x : Pos) {z : Bool} : x.wakeFree = .wait r z ↔ x = .wait r z := by
  cases x <;> simp [Pos.wakeFree]

@[simp] theorem wakeFree_buf (x : Pos) : x.wakeFree.buf = x.buf := by cases x <;> rfl

theorem freeDesc_ok (hi : i < NUM) (hf : s.free i = false) : freeDesc s i = .ok (s.putBack i) := by
  rw [freeDesc, if_neg (not_le.2 hi), hf]
  rfl

/-- processes asleep on &disk.free[0] may have been woken -/
def Woken (P P' : Store Pos) : Prop := ∀ p, P' p = P p ∨ P' p = (P p).wakeFree

theorem Woken.wait (hw : Woken P P') {z : Bool} : P' p = .wait r z ↔ P p = .wait r z := by
  rcases hw p with hp | hp
  · rw [hp]
  · rw [hp, wakeFree_wait]

theorem Woken.buf (hw : Woken P P') (p : ℕ) : (P' p).buf = (P p).buf := by
  rcases hw p with hp | hp
  · rw [hp]
  · rw [hp, wakeFree_buf]

theorem Woken.trans {P'' : Store Pos} (h1 : Woken P P') (h2 : Woken P' P'') : Woken P P'' := fun p => by
  rcases h1 p with h1 | h1 <;> rcases h2 p with h2 | h2
  · exact Or.inl (h2.trans h1)
  · exact Or.inr (h2.trans (by rw [h1]))
  · exact Or.inr (h2.trans h1)
  · refine Or.inr (h2.trans ?_)
    rw [h1]
    cases P p <;> rfl

/-- t is s with the descriptors idx freed -/
structure Freed (s : St) (idx : List ℕ) (t : St) : Prop where
  eq : t = { s with desc := t.desc, free := t.free, proc := t.proc }
  free : ∀ i, t.free i = if i ∈ idx then true else s.free i
  desc : ∀ i, i ∉ idx → t.desc i = s.desc i
  proc : Woken s.proc t.proc

theorem Freed.nil (s : St) : Freed s [] s := ⟨rfl, fun _ => rfl, fun _ _ => rfl, fun _ => Or.inl rfl⟩

theorem Freed.cons (hf : Freed (s.putBack i) idx t) : Freed s (i :: idx) t := by
  refine ⟨hf.eq, fun j => ?_, fun j hj => ?_, Woken.trans (fun p => Or.inr rfl) hf.proc⟩
  · rw [hf.free j]
    by_cases hji : j = i
    · subst hji
      simp [St.putBack]
    · simp [hji, St.putBack, Store.set_ne _ _ hji]
  · rw [hf.desc j fun hm => hj (List.mem_cons_of_mem _ hm)]
    exact Store.set_ne _ _ fun e => hj (e ▸ List.mem_cons_self)

theorem freeAll_spec (hnd : idx.Nodup) (hidx : ∀ i ∈ idx, i < NUM ∧ s.free i = false) :
    ∃ t, freeAll idx s = .ok t ∧ Freed s idx t := by
  induction idx generalizing s with
  | nil => exact ⟨s, rfl, Freed.nil s⟩
  | cons i idx ih =>
    obtain ⟨hi, hf⟩ := hidx i List.mem_cons_self
    obtain ⟨hni, hnd⟩ := List.nodup_cons.1 hnd
    obtain ⟨t, ht, hfr⟩ := ih (s := s.putBack i) hnd fun j hj => by
        have hji : j ≠ i := fun e => hni (e ▸ hj)
        obtain ⟨hj1, hj2⟩ := hidx j (List.mem_cons_of_mem _ hj)
        exact ⟨hj1, (Store.set_ne _ _ hji).trans hj2⟩
    refine ⟨t, ?_, hfr.cons⟩
    rw [freeAll, freeDesc_ok hi hf]
    exact ht

/-- t is s with the descriptors idx allocated -/
structure Took (s : St) (idx : List ℕ) (t : St) : Prop where
  eq : t = { s with free := t.free }
  free : ∀ i, t.free i = if i ∈ idx then false else s.free i
  nodup : idx.Nodup
  was : ∀ i ∈ idx, i < NUM ∧ s.free i = true

theorem Took.nil (s : St) : Took s [] s := ⟨rfl, fun _ => rfl, List.nodup_nil, fun _ hi => by cases hi⟩

theorem Took.snoc {u : St} (ht : Took s idx t) (ha : allocDesc t = some (u, i)) : Took s (idx ++ [i]) u := by
  obtain ⟨j, hj, hu⟩ := Option.map_eq_some_iff.1 ha
  obtain ⟨rfl, rfl⟩ := Prod.mk.inj hu
  have hfree : t.free j = true := List.find?_some hj
  have hlt : j < NUM := List.mem_range.1 (List.mem_of_find?_eq_some hj)
  have hni : j ∉ idx := fun hm => by rw [ht.free j, if_pos hm] at hfree; cases hfree
  refine ⟨by rw [ht.eq], fun i => ?_, ?_, fun i hi => ?_⟩
  · show t.free.set j false i = _
    by_cases hij : i = j
    · subst hij
      simp
    · rw [Store.set_ne _ _ hij, ht.free i]
      simp [hij]
  · exact List.nodup_append.2 ⟨ht.nodup, List.nodup_singleton j, fun a ha b hb => by
      rw [List.mem_singleton.1 hb]
      exact fun e => hni (e ▸ ha)⟩
  · rcases List.mem_append.1 hi with hi | hi
    · exact ht.was i hi
    · rw [List.mem_singleton.1 hi]
      rw [ht.free j, if_neg hni] at hfree
      exact ⟨hlt, hfree⟩

/-- nothing was allocated; free descriptors may have been cleared and processes woken -/
structure Failed (s t : St) : Prop where
  eq : t = { s with desc := t.desc, proc := t.proc }
  desc : ∀ i, s.free i = false → t.desc i = s.desc i
  proc : Woken s.proc t.proc

theorem Took.undo {u : St} (ht : Took s idx t) (hf : Freed t idx u) : Failed s u := by
  have hfree : u.free = s.free := funext fun i => by
    rw [hf.free i]
    by_cases hi : i ∈ idx
    · rw [if_pos hi, (ht.was i hi).2]
    · rw [if_neg hi, ht.free i, if_neg hi]
  have hproc : t.proc = s.proc := by rw [ht.eq]
  have hdesc : t.desc = s.desc := by rw [ht.eq]
  refine ⟨?_, fun i hi => ?_, hproc ▸ hf.proc⟩
  · rw [hf.eq, ht.eq]
    simp only [hfree]
  · rw [← hdesc]
    exact hf.desc i fun hm => by rw [(ht.was i hm).2] at hi; cases hi

theorem allocLoop_spec (n : ℕ) (ht : Took s idx t) :
    (∃ u, allocLoop n idx t = .ok (u, none) ∧ Failed s u) ∨
      ∃ u idx', allocLoop n idx t = .ok (u, some idx') ∧ Took s idx' u ∧ idx'.length = idx.length + n := by
  induction n generalizing idx t with
  | zero => exact Or.inr ⟨t, idx, rfl, ht, rfl⟩
  | succ n ih =>
    cases ha : allocDesc t with
    | none =>
      obtain ⟨u, hu, hfr⟩ := freeAll_spec ht.nodup fun i hi => ⟨(ht.was i hi).1, by rw [ht.free i, if_pos hi]⟩
      refine Or.inl ⟨u, ?_, ht.undo hfr⟩
      simp only [allocLoop, ha, hu]
      rfl
    | some x =>
      obtain ⟨v, i⟩ := x
      rcases ih (ht.snoc ha) with ⟨u, hu, hfail⟩ | ⟨u, idx', hu, htook, hlen⟩
      · refine Or.inl ⟨u, ?_, hfail⟩
        simpa only [allocLoop, ha] using hu
      · refine Or.inr ⟨u, idx', ?_, htook, ?_⟩
        · simpa only [allocLoop, ha] using hu
        · rw [hlen, List.length_append, List.length_singleton]
          omega

/-- **Three descriptors or none.** -/
theorem alloc3Desc_spec (s : St) :
    (∃ t, alloc3Desc s = .ok (t, none) ∧ Failed s t) ∨
      ∃ t i0 i1 i2, alloc3Desc s = .ok (t, some [i0, i1, i2]) ∧ Took s [i0, i1, i2] t := by
  rcases allocLoop_spec 3 (Took.nil s) with hf | ⟨t, idx, ht, htook, hlen⟩
  · exact Or.inl hf
  · obtain ⟨i0, i1, i2, rfl⟩ := List.length_eq_three.1 hlen
    exact Or.inr ⟨t, i0, i1, i2, ht, htook⟩

/-! ## The invariant -/

/-- process p waits for request r -/
def Waits (s : St) (p : ℕ) (r : Call) : Prop := ∃ z, s.proc p = .wait r z

/-- the heads in the avail ring, and those in the used ring -/
def St.queue (s : St) : List ℕ := s.avail.contents NUM UINT16
def St.completed (s : St) : List ℕ := s.used.contents NUM UINT16

/-- the heads the driver has handed out and not yet seen again -/
def St.flight (s : St) : List ℕ := s.queue ++ s.taken ++ s.completed

/-- the chain of a request -/
structure Chain (s : St) (r : Call) : Prop where
  nodup : r.idx.Nodup
  lt : ∀ i ∈ r.idx, i < NUM
  used : ∀ i ∈ r.idx, s.free i = false
  desc0 : s.desc r.i0 = ⟨.op r.i0, 16, VRING_DESC_F_NEXT, r.i1⟩
  desc1 : s.desc r.i1 = ⟨.data r.buf, BSIZE, (if r.write then 0 else VRING_DESC_F_WRITE) ||| VRING_DESC_F_NEXT, r.i2⟩
  desc2 : s.desc r.i2 = ⟨.status r.i0, 1, VRING_DESC_F_WRITE, 0⟩

/-- the chain and the records of a request -/
structure CallOk (s : St) (r : Call) : Prop extends Chain s r where
  info : (s.info r.i0).b = some r.buf
  serial : s.serial r.i0 = r.serial
  buf : (s.req r.serial).buf = r.buf
  returned : (s.req r.serial).returned = false

/-- the device has the chain -/
structure AtDevice (s : St) (r : Call) : Prop where
  mem : r.i0 ∈ s.queue ++ s.taken
  disk : s.disk r.buf = true
  done : (s.req r.serial).done = 0
  credits : (s.req r.serial).credits = []

/-- the completion is in the used ring -/
structure Completed (s : St) (r : Call) : Prop where
  mem : r.i0 ∈ s.completed
  disk : s.disk r.buf = true
  status : (s.info r.i0).status = 0
  done : (s.req r.serial).done = 1
  credits : (s.req r.serial).credits = []

/-- the completion has been seen -/
structure Noticed (s : St) (r : Call) : Prop where
  mem : r.i0 ∉ s.flight
  disk : s.disk r.buf = false
  done : (s.req r.serial).done = 1
  credits : (s.req r.serial).credits = [r.buf]

def Stage (s : St) (r : Call) : Prop := AtDevice s r ∨ Completed s r ∨ Noticed s r

/-- the request is over -/
structure Settled (s : St) (k : ℕ) : Prop where
  returned : (s.req k).returned = true
  done : (s.req k).done = 1
  credits : (s.req k).credits = [(s.req k).buf]

structure Inv (s : St) : Prop where
  calls : ∀ p r, Waits s p r → CallOk s r ∧ Stage s r
  /-- a process whose request is over has been woken -/
  awake : ∀ p r z, s.proc p = .wait r z → s.disk r.buf = false → z = false
  apart : ∀ p q r r', Waits s p r → Waits s q r' → p ≠ q → r.idx.Disjoint r'.idx ∧ r.serial ≠ r'.serial
  owned : ∀ i < NUM, s.free i = false → ∃ p r, Waits s p r ∧ i ∈ r.idx
  bufs : ∀ p q b, (s.proc p).buf = some b → (s.proc q).buf = some b → p = q
  avail : s.avail.Ok NUM UINT16
  used : s.used.Ok NUM UINT16
  nodup : s.flight.Nodup
  heads : ∀ h ∈ s.flight, ∃ p r, Waits s p r ∧ r.i0 = h
  past : ∀ k < s.next, (∃ p r, Waits s p r ∧ r.serial = k) ∨ Settled s k
  fresh : ∀ p r, Waits s p r → r.serial < s.next

theorem Waits.unique (h1 : Waits s p r) (h2 : Waits s p r') : r = r' := by
  obtain ⟨z, hz⟩ := h1
  obtain ⟨z', hz'⟩ := h2
  rw [hz] at hz'
  exact (Pos.wait.inj hz').1

theorem Waits.buf (hw : Waits s p r) : (s.proc p).buf = some r.buf := by
  obtain ⟨z, hz⟩ := hw
  rw [hz]
  rfl

theorem Call.i0_mem (r : Call) : r.i0 ∈ r.idx := List.mem_cons_self

theorem Inv.buf_ne (hI : Inv s) (hp : Waits s p r) (hq : Waits s q r') (hne : p ≠ q) : r.buf ≠ r'.buf :=
  fun e => hne (hI.bufs p q r.buf hp.buf (e ▸ hq.buf))

theorem Inv.head_ne (hI : Inv s) (hp : Waits s p r) (hq : Waits s q r') (hne : p ≠ q) : r.i0 ≠ r'.i0 :=
  fun e => (hI.apart p q r r' hp hq hne).1 r.i0_mem (e ▸ r'.i0_mem)

theorem Inv.head_lt (hI : Inv s) (hh : h ∈ s.flight) : h < NUM ∧ s.free h = false := by
  obtain ⟨p, r, hw, rfl⟩ := hI.heads h hh
  obtain ⟨hok, -⟩ := hI.calls p r hw
  exact ⟨hok.lt _ r.i0_mem, hok.used _ r.i0_mem⟩

theorem Inv.in_flight (hI : Inv s) (hw : Waits s p r) : r.i0 ∈ s.flight ↔ s.disk r.buf = true := by
  rcases (hI.calls p r hw).2 with hs | hs | hs
  · exact ⟨fun _ => hs.disk, fun _ => List.mem_append_left _ hs.mem⟩
  · exact ⟨fun _ => hs.disk, fun _ => List.mem_append_right _ hs.mem⟩
  · exact ⟨fun hm => absurd hm hs.mem, fun hd => by rw [hs.disk] at hd; cases hd⟩

theorem length_le_num {l : List ℕ} (hnd : l.Nodup) (hl : ∀ i ∈ l, i < NUM) : l.length ≤ NUM := by
  have hsub : l.Subperm (List.range NUM) := List.subperm_of_subset hnd fun i hi => List.mem_range.2 (hl i hi)
  simpa using hsub.length_le

theorem start_inv : Inv start where
  calls := fun _ _ ⟨_, hz⟩ => by cases hz
  awake := fun _ _ _ hz => by cases hz
  apart := fun _ _ _ _ ⟨_, hz⟩ => by cases hz
  owned := fun _ _ hf => by cases hf
  bufs := fun _ _ _ hb => by cases hb
  avail := RingBuf.Ok.empty _ (by decide)
  used := RingBuf.Ok.empty _ (by decide)
  nodup := List.nodup_nil
  heads := fun _ hh => by cases hh
  past := fun _ hk => absurd hk (Nat.not_lt_zero _)
  fresh := fun _ _ ⟨_, hz⟩ => by cases hz

/-! ## What the other requests see of a step -/

/-- a step that leaves the records of a request alone -/
structure Same (s t : St) (r : Call) : Prop where
  free : ∀ i ∈ r.idx, t.free i = s.free i
  desc : ∀ i ∈ r.idx, t.desc i = s.desc i
  info : t.info r.i0 = s.info r.i0
  serial : t.serial r.i0 = s.serial r.i0
  req : t.req r.serial = s.req r.serial
  disk : t.disk r.buf = s.disk r.buf

theorem CallOk.same (hc : CallOk s r) (he : Same s t r) : CallOk t r where
  nodup := hc.nodup
  lt := hc.lt
  used := fun i hi => (he.free i hi).trans (hc.used i hi)
  desc0 := (he.desc _ (by simp [Call.idx])).trans hc.desc0
  desc1 := (he.desc _ (by simp [Call.idx])).trans hc.desc1
  desc2 := (he.desc _ (by simp [Call.idx])).trans hc.desc2
  info := by rw [he.info]; exact hc.info
  serial := he.serial.trans hc.serial
  buf := by rw [he.req]; exact hc.buf
  returned := by rw [he.req]; exact hc.returned

theorem Stage.same (hs : Stage s r) (he : Same s t r) (h1 : r.i0 ∈ s.queue ++ s.taken → r.i0 ∈ t.queue ++ t.taken)
    (h2 : r.i0 ∈ s.completed → r.i0 ∈ t.completed) (h3 : r.i0 ∈ t.flight → r.i0 ∈ s.flight) : Stage t r := by
  rcases hs with hs | hs | hs
  · exact Or.inl ⟨h1 hs.mem, he.disk.trans hs.disk, by rw [he.req]; exact hs.done, by rw [he.req]; exact hs.credits⟩
  · exact Or.inr (Or.inl ⟨h2 hs.mem, he.disk.trans hs.disk, by rw [he.info]; exact hs.status,
      by rw [he.req]; exact hs.done, by rw [he.req]; exact hs.credits⟩)
  · exact Or.inr (Or.inr ⟨fun hm => hs.mem (h3 hm), he.disk.trans hs.disk, by rw [he.req]; exact hs.done,
      by rw [he.req]; exact hs.credits⟩)

theorem Settled.same (hs : Settled s k) (he : t.req k = s.req k) : Settled t k :=
  ⟨by rw [he]; exact hs.returned, by rw [he]; exact hs.done, by rw [he]; exact hs.credits⟩

/-! ## Steps of processes -/

/-- processes that do not wait for a request move, and free descriptors change -/
theorem Inv.reproc (hI : Inv s) {d : Store Desc} (hd : ∀ i, s.free i = false → d i = s.desc i)
    (hw : ∀ p r, (∃ z, P p = .wait r z) ↔ Waits s p r)
    (ha : ∀ p r z, P p = .wait r z → s.disk r.buf = false → z = false)
    (hb : ∀ p q b, (P p).buf = some b → (P q).buf = some b → p = q) : Inv { s with desc := d, proc := P } where
  calls := fun p r hp => by
    obtain ⟨hok, hst⟩ := hI.calls p r ((hw p r).1 hp)
    have he : Same s { s with desc := d, proc := P } r :=
      ⟨fun _ _ => rfl, fun i hi => hd i (hok.used i hi), rfl, rfl, rfl, rfl⟩
    exact ⟨hok.same he, hst.same he id id id⟩
  awake := ha
  apart := fun p q r r' hp hq => hI.apart p q r r' ((hw p r).1 hp) ((hw q r').1 hq)
  owned := fun i hi hf => by
    obtain ⟨p, r, hp, hm⟩ := hI.owned i hi hf
    exact ⟨p, r, (hw p r).2 hp, hm⟩
  bufs := hb
  avail := hI.avail
  used := hI.used
  nodup := hI.nodup
  heads := fun h hh => by
    obtain ⟨p, r, hp, hm⟩ := hI.heads h hh
    exact ⟨p, r, (hw p r).2 hp, hm⟩
  past := fun k hk => (hI.past k hk).imp (fun ⟨p, r, hp, hm⟩ => ⟨p, r, (hw p r).2 hp, hm⟩) fun hs => hs.same rfl
  fresh := fun p r hp => hI.fresh p r ((hw p r).1 hp)

theorem Inv.failed (hI : Inv s) (hf : Failed s t) : Inv t := by
  rw [hf.eq]
  refine hI.reproc hf.desc (fun p r => exists_congr fun z => hf.proc.wait) ?_ ?_
  · exact fun p r z hz => hI.awake p r z (hf.proc.wait.1 hz)
  · intro p q b hp hq
    rw [hf.proc.buf] at hp hq
    exact hI.bufs p q b hp hq

theorem Inv.park (hI : Inv s) (hp : ∀ r, ¬ Waits s p r)
    (hb : ∀ q, q ≠ p → (s.proc q).buf ≠ some b) : Inv { s with proc := s.proc.set p (.alloc b sector write true) } := by
  have hself : s.proc.set p (.alloc b sector write true) p = .alloc b sector write true := Store.set_self _ _ _
  have hother : ∀ q, q ≠ p → s.proc.set p (.alloc b sector write true) q = s.proc q := fun q hq => Store.set_ne _ _ hq
  refine hI.reproc (d := s.desc) (fun _ _ => rfl) (fun q r => ?_) (fun q r z hz => ?_) fun q q' c hq hq' => ?_
  · by_cases hqp : q = p
    · subst hqp
      exact ⟨fun ⟨z, hz⟩ => (by rw [hself] at hz; cases hz), fun hw => absurd hw (hp r)⟩
    · rw [hother q hqp]
      exact Iff.rfl
  · by_cases hqp : q = p
    · subst hqp
      rw [hself] at hz
      cases hz
    · rw [hother q hqp] at hz
      exact hI.awake q r z hz
  · by_cases hqp : q = p <;> by_cases hqp' : q' = p
    · rw [hqp, hqp']
    · subst hqp
      rw [hself] at hq
      rw [hother q' hqp', ← hq] at hq'
      exact absurd hq' (hb q' hqp')
    · subst hqp'
      rw [hself] at hq'
      rw [hother q hqp, ← hq'] at hq
      exact absurd hq (hb q hqp)
    · rw [hother q hqp] at hq
      rw [hother q' hqp'] at hq'
      exact hI.bufs q q' c hq hq'

theorem Inv.resleep (hI : Inv s) (hw : Waits s p r) (hd : s.disk r.buf = true) :
    Inv { s with proc := s.proc.set p (.wait r true) } := by
  have hself : s.proc.set p (.wait r true) p = .wait r true := Store.set_self _ _ _
  have hother : ∀ q, q ≠ p → s.proc.set p (.wait r true) q = s.proc q := fun q hq => Store.set_ne _ _ hq
  have hbuf : ∀ q, (s.proc.set p (.wait r true) q).buf = (s.proc q).buf := fun q => by
    by_cases hqp : q = p
    · subst hqp
      rw [hself, hw.buf]
      rfl
    · rw [hother q hqp]
  refine hI.reproc (d := s.desc) (fun _ _ => rfl) (fun q r' => ?_) (fun q r' z hz hdisk => ?_) fun q q' c hq hq' => ?_
  · by_cases hqp : q = p
    · subst hqp
      rw [hself]
      exact ⟨fun ⟨z, hz⟩ => (Pos.wait.inj hz).1 ▸ hw, fun hw' => ⟨true, by rw [hw.unique hw']⟩⟩
    · rw [hother q hqp]
      exact Iff.rfl
  · by_cases hqp : q = p
    · subst hqp
      rw [hself] at hz
      rw [← (Pos.wait.inj hz).1, hd] at hdisk
      cases hdisk
    · rw [hother q hqp] at hz
      exact hI.awake q r' z hz hdisk
  · rw [hbuf] at hq hq'
    exact hI.bufs q q' c hq hq'

/-- the chain of a new request is apart from the others: its descriptors were free -/
theorem Inv.new_disjoint (hI : Inv s) (hw : Waits s q r') (hwas : ∀ i ∈ r.idx, i < NUM ∧ s.free i = true) :
    r'.idx.Disjoint r.idx := fun i hi hi' => by
  have h1 := (hI.calls q r' hw).1.used i hi
  rw [(hwas i hi').2] at h1
  cases h1

/-- there is room in the avail ring for a head that is not in flight -/
theorem Inv.avail_room (hI : Inv s) (hi : i < NUM) (hf : i ∉ s.flight) : s.avail.count UINT16 ≠ NUM := by
  have hle := length_le_num (List.nodup_cons.2 ⟨hf, hI.nodup⟩) fun j hj => by
    rcases List.mem_cons.1 hj with rfl | hj
    · exact hi
    · exact (hI.head_lt hj).1
  have hlen : s.queue.length = s.avail.count UINT16 := RingBuf.length_contents
  simp only [St.flight, List.length_cons, List.length_append] at hle
  omega

/-- the descriptors of a request after `virtio_disk_rw` has formatted them -/
theorem submit_desc (b sector : ℕ) (write : Bool) (hnd : [i0, i1, i2].Nodup) :
    (submit s p b sector write i0 i1 i2).desc i0 = ⟨.op i0, 16, VRING_DESC_F_NEXT, i1⟩ ∧
      (submit s p b sector write i0 i1 i2).desc i1 =
        ⟨.data b, BSIZE, (if write then 0 else VRING_DESC_F_WRITE) ||| VRING_DESC_F_NEXT, i2⟩ ∧
      (submit s p b sector write i0 i1 i2).desc i2 = ⟨.status i0, 1, VRING_DESC_F_WRITE, 0⟩ := by
  have h01 : i0 ≠ i1 := fun e => by simp [e] at hnd
  have h02 : i0 ≠ i2 := fun e => by simp [e] at hnd
  have h12 : i1 ≠ i2 := fun e => by simp [e] at hnd
  refine ⟨?_, ?_, Store.set_self _ _ _⟩
  · exact (Store.set_ne _ _ h02).trans ((Store.set_ne _ _ h01).trans (Store.set_self _ _ _))
  · exact (Store.set_ne _ _ h12).trans (Store.set_self _ _ _)

theorem submit_desc_ne (hi : i ∉ [i0, i1, i2]) :
    (submit s p b sector write i0 i1 i2).desc i = s.desc i := by
  simp only [List.mem_cons, List.not_mem_nil, or_false, not_or] at hi
  exact (Store.set_ne _ _ hi.2.2).trans ((Store.set_ne _ _ hi.2.1).trans (Store.set_ne _ _ hi.1))

/-- **Handing a chain to the device.** -/
theorem Inv.submit (hI : Inv s) (ht : Took s [i0, i1, i2] t)
    (hp : ∀ r, ¬ Waits s p r) (hb : ∀ q, q ≠ p → (s.proc q).buf ≠ some b) :
    Inv (submit t p b sector write i0 i1 i2) := by
  obtain ⟨f, rfl⟩ : ∃ f, t = { s with free := f } := ⟨t.free, ht.eq⟩
  set r : Call := ⟨b, s.next, write, i0, i1, i2⟩
  set u := Virtio.submit { s with free := f } p b sector write i0 i1 i2
  have hfree : ∀ i, u.free i = if i ∈ r.idx then false else s.free i := ht.free
  have hwas : ∀ i ∈ r.idx, i < NUM ∧ s.free i = true := ht.was
  have hself : Waits u p r := ⟨true, Store.set_self _ _ _⟩
  have hother : ∀ q r', q ≠ p → (Waits u q r' ↔ Waits s q r') := fun q r' hq =>
    exists_congr fun z => by rw [show u.proc q = s.proc q from Store.set_ne _ _ hq]
  have hcases : ∀ q r', Waits u q r' → q ≠ p ∧ Waits s q r' ∨ q = p ∧ r' = r := fun q r' hw => by
    by_cases hq : q = p
    · subst hq
      exact Or.inr ⟨rfl, hw.unique hself⟩
    · exact Or.inl ⟨hq, (hother q r' hq).1 hw⟩
  have hkeep : ∀ q r', Waits s q r' → Waits u q r' := fun q r' hw =>
    (hother q r' fun e => hp r' (e ▸ hw)).2 hw
  have hni : i0 ∉ s.flight := fun hm => by
    have h1 := (hI.head_lt hm).2
    rw [(hwas i0 r.i0_mem).2] at h1
    cases h1
  have hroom := hI.avail_room (hwas i0 r.i0_mem).1 hni
  have hqueue : u.queue = s.queue ++ [i0] := RingBuf.contents_put i0 hI.avail (by decide) (by decide) hroom
  have hflight : ∀ x, x ∈ u.flight ↔ x ∈ s.flight ∨ x = i0 := fun x => by
    show x ∈ u.queue ++ s.taken ++ s.completed ↔ x ∈ s.queue ++ s.taken ++ s.completed ∨ x = i0
    simp only [hqueue, List.mem_append, List.mem_singleton]
    tauto
  -- what the other requests see
  have hsame : ∀ q r', Waits s q r' → Same s u r' := fun q r' hw => by
    have hdis := hI.new_disjoint hw hwas
    have h0 : r'.i0 ≠ i0 := fun e => hdis r'.i0_mem (e ▸ r.i0_mem)
    have hbuf : r'.buf ≠ b := fun e => hb q (fun e' => hp r' (e' ▸ hw)) (e ▸ hw.buf)
    exact ⟨fun i hi => by rw [hfree i, if_neg (hdis hi)], fun i hi => submit_desc_ne (hdis hi), Store.set_ne _ _ h0,
      Store.set_ne _ _ h0, Store.set_ne _ _ (hI.fresh q r' hw).ne, Store.set_ne _ _ hbuf⟩
  refine ⟨fun q r' hw => ?_, fun q r' z hz hd => ?_, fun q q' r1 r2 h1 h2 hne => ?_, fun i hi hf => ?_,
    fun q q' c hq hq' => ?_, hI.avail.put i0 (by decide) hroom, hI.used, ?_, fun h hh => ?_, fun k hk =>
      ?_, fun q r' hw => ?_⟩
  · rcases hcases q r' hw with ⟨hq, hw'⟩ | ⟨rfl, rfl⟩
    · obtain ⟨hok, hst⟩ := hI.calls q r' hw'
      have hne : r'.i0 ≠ i0 := fun e => hI.new_disjoint hw' hwas r'.i0_mem (e ▸ r.i0_mem)
      refine ⟨hok.same (hsame q r' hw'), hst.same (hsame q r' hw') ?_ id fun hm => ?_⟩
      · show r'.i0 ∈ s.queue ++ s.taken → r'.i0 ∈ u.queue ++ s.taken
        rw [hqueue]
        simp only [List.mem_append]
        tauto
      · exact ((hflight _).1 hm).resolve_right hne
    · obtain ⟨hd0, hd1, hd2⟩ := 
        submit_desc (s := { s with free := f }) (p := q) b sector write ht.nodup
      refine ⟨⟨⟨ht.nodup, fun i hi => (hwas i hi).1, fun i hi => by rw [hfree i, if_pos hi], hd0, hd1, hd2⟩,
        ?_, ?_, ?_, ?_⟩,
        Or.inl ⟨?_, Store.set_self _ _ _, ?_, ?_⟩⟩
      · exact congrArg Info.b (Store.set_self _ _ _)
      · exact Store.set_self _ _ _
      · exact congrArg Req.buf (Store.set_self _ _ _)
      · exact congrArg Req.returned (Store.set_self _ _ _)
      · show i0 ∈ u.queue ++ s.taken
        simp [hqueue]
      · exact congrArg Req.done (Store.set_self _ _ _)
      · exact congrArg Req.credits (Store.set_self _ _ _)
  · rcases hcases q r' ⟨z, hz⟩ with ⟨hq, hw'⟩ | ⟨rfl, rfl⟩
    · rw [show u.proc q = s.proc q from Store.set_ne _ _ hq] at hz
      exact hI.awake q r' z hz ((hsame q r' hw').disk ▸ hd)
    · rw [show u.disk r.buf = true from Store.set_self _ _ _] at hd
      cases hd
  · rcases hcases q r1 h1 with ⟨hq, hw1⟩ | ⟨rfl, rfl⟩ <;> rcases hcases q' r2 h2 with ⟨hq', hw2⟩ | ⟨hq', rfl⟩
    · exact hI.apart q q' r1 r2 hw1 hw2 hne
    · exact ⟨hI.new_disjoint hw1 hwas, (hI.fresh q r1 hw1).ne⟩
    · exact ⟨(hI.new_disjoint hw2 hwas).symm, (hI.fresh q' r2 hw2).ne'⟩
    · exact absurd hq'.symm hne
  · rw [hfree i] at hf
    by_cases him : i ∈ r.idx
    · exact ⟨p, r, hself, him⟩
    · rw [if_neg him] at hf
      obtain ⟨q, r', hw, hm⟩ := hI.owned i hi hf
      exact ⟨q, r', hkeep q r' hw, hm⟩
  · have hbuf : ∀ q, q ≠ p → (u.proc q).buf = (s.proc q).buf := fun q hq => by
      rw [show u.proc q = s.proc q from Store.set_ne _ _ hq]
    have hbp : (u.proc p).buf = some b := hself.buf
    by_cases hqp : q = p <;> by_cases hqp' : q' = p
    · rw [hqp, hqp']
    · rw [hqp, hbp] at hq
      rw [hbuf q' hqp', ← hq] at hq'
      exact absurd hq' (hb q' hqp')
    · rw [hqp', hbp] at hq'
      rw [hbuf q hqp, ← hq'] at hq
      exact absurd hq (hb q hqp)
    · rw [hbuf q hqp] at hq
      rw [hbuf q' hqp'] at hq'
      exact hI.bufs q q' c hq hq'
  · have hperm : u.flight.Perm (i0 :: s.flight) := by
      show (u.queue ++ s.taken ++ s.completed).Perm (i0 :: (s.queue ++ s.taken ++ s.completed))
      rw [hqueue]
      simp only [List.append_assoc, List.singleton_append]
      exact List.perm_middle
    exact hperm.nodup_iff.2 (List.nodup_cons.2 ⟨hni, hI.nodup⟩)
  · rcases (hflight h).1 hh with hh | rfl
    · obtain ⟨q, r', hw, hm⟩ := hI.heads h hh
      exact ⟨q, r', hkeep q r' hw, hm⟩
    · exact ⟨p, r, hself, rfl⟩
  · rcases Nat.lt_succ_iff_lt_or_eq.1 hk with hk | rfl
    · refine (hI.past k hk).imp (fun ⟨q, r', hw, hm⟩ => ⟨q, r', hkeep q r' hw, hm⟩) fun hs => hs.same ?_
      exact Store.set_ne _ _ hk.ne
    · exact Or.inl ⟨p, r, hself, rfl⟩
  · rcases hcases q r' hw with ⟨-, hw'⟩ | ⟨rfl, rfl⟩
    · exact (hI.fresh q r' hw').trans (Nat.lt_succ_self _)
    · exact Nat.lt_succ_self _

theorem Inv.allocate (hI : Inv s) (hp : ∀ r, ¬ Waits s p r)
    (hb : ∀ q, q ≠ p → (s.proc q).buf ≠ some b) : ∃ t, allocate s p b sector write = .ok t ∧ Inv t := by
  rcases alloc3Desc_spec s with ⟨t, ht, hf⟩ | ⟨t, i0, i1, i2, ht, htook⟩
  · refine ⟨{ t with proc := t.proc.set p (.alloc b sector write true) }, by simp only [Virtio.allocate, ht], ?_⟩
    refine (hI.failed hf).park (fun r hw => hp r ?_) fun q hq => by rw [hf.proc.buf]; exact hb q hq
    obtain ⟨z, hz⟩ := hw
    exact ⟨z, hf.proc.wait.1 hz⟩
  · exact ⟨Virtio.submit t p b sector write i0 i1 i2, by simp only [Virtio.allocate, ht]; rfl, hI.submit htook hp hb⟩

theorem freeLoop_succ {n : ℕ} (hi : i < NUM) (hf : s.free i = false) : freeLoop (n + 1) s i =
    if (s.desc i).flags &&& VRING_DESC_F_NEXT ≠ 0 then freeLoop n (s.putBack i) (s.desc i).next else .ok
      (s.putBack i) := by
  rw [freeLoop, freeDesc_ok hi hf]

/-- `free_chain` frees the three descriptors of a request -/
theorem Chain.freeChain (hc : Chain s r) : ∃ t, freeChain s r.i0 = .ok t ∧ Freed s r.idx t := by
  have h0 : r.i0 ∈ r.idx := by simp [Call.idx]
  have h1 : r.i1 ∈ r.idx := by simp [Call.idx]
  have h2 : r.i2 ∈ r.idx := by simp [Call.idx]
  have hnd := hc.nodup
  have h01 : r.i1 ≠ r.i0 := fun e => by simp [Call.idx, e] at hnd
  have h02 : r.i2 ≠ r.i0 := fun e => by simp [Call.idx, e] at hnd
  have h12 : r.i2 ≠ r.i1 := fun e => by simp [Call.idx, e] at hnd
  have hf1 : (s.putBack r.i0).free r.i1 = false := (Store.set_ne _ _ h01).trans (hc.used _ h1)
  have hd1 : (s.putBack r.i0).desc r.i1 = s.desc r.i1 := Store.set_ne _ _ h01
  have hf2 : ((s.putBack r.i0).putBack r.i1).free r.i2 = false :=
    (Store.set_ne _ _ h12).trans ((Store.set_ne _ _ h02).trans (hc.used _ h2))
  have hd2 : ((s.putBack r.i0).putBack r.i1).desc r.i2 = s.desc r.i2 :=
    (Store.set_ne _ _ h12).trans (Store.set_ne _ _ h02)
  have hnext : ((if r.write then 0 else VRING_DESC_F_WRITE) ||| VRING_DESC_F_NEXT) &&& VRING_DESC_F_NEXT ≠ 0 := by
    cases r.write <;> decide
  have hfirst : VRING_DESC_F_NEXT &&& VRING_DESC_F_NEXT ≠ 0 := by decide
  have hlast : ¬ VRING_DESC_F_WRITE &&& VRING_DESC_F_NEXT ≠ 0 := by decide
  refine ⟨((s.putBack r.i0).putBack r.i1).putBack r.i2, ?_, (Freed.nil _).cons.cons.cons⟩
  rw [Virtio.freeChain, freeLoop_succ (hc.lt _ h0) (hc.used _ h0), hc.desc0, if_pos hfirst]
  show freeLoop (7 + 1) (s.putBack r.i0) r.i1 = _
  rw [freeLoop_succ (hc.lt _ h1) hf1, hd1, hc.desc1, if_pos hnext]
  show freeLoop (6 + 1) ((s.putBack r.i0).putBack r.i1) r.i2 = _
  rw [freeLoop_succ (hc.lt _ h2) hf2, hd2, hc.desc2, if_neg hlast]

/-- **A call returns.** Its descriptors become free, and no other request is touched. -/
theorem Inv.finish (hI : Inv s) (hw : Waits s p r) (hd : s.disk r.buf = false) : ∃ t, finish s p r = .ok t ∧ Inv t := by
  obtain ⟨hok, hst⟩ := hI.calls p r hw
  have hni : r.i0 ∉ s.flight := fun hm => by rw [(hI.in_flight hw).1 hm] at hd; cases hd
  have hdone : (s.req r.serial).done = 1 ∧ (s.req r.serial).credits = [r.buf] := by
    rcases hst with hs | hs | hs
    · rw [hs.disk] at hd; cases hd
    · rw [hs.disk] at hd; cases hd
    · exact ⟨hs.done, hs.credits⟩
  set s' : St := { s with info := s.info.set r.i0 { s.info r.i0 with b := none } } with hs'
  have hchain : Chain s' r := ⟨hok.nodup, hok.lt, hok.used, hok.desc0, hok.desc1, hok.desc2⟩
  obtain ⟨t, ht, hfr⟩ := hchain.freeChain
  set u : St := { t with proc := t.proc.set p .out, req := t.req.set r.serial { t.req r.serial with returned := true } }
    with hu
  have hfin : Virtio.finish s p r = .ok u := by simp only [Virtio.finish, ← hs', ht, hu]
  refine ⟨u, hfin, ?_⟩
  have hreq : u.req = s.req.set r.serial { s.req r.serial with returned := true } := by rw [hu, hfr.eq]
  have hinfo : u.info = s'.info := by rw [hu, hfr.eq]
  have hserial : u.serial = s.serial := by rw [hu, hfr.eq]
  have hdisk : u.disk = s.disk := by rw [hu, hfr.eq]
  have havail : u.avail = s.avail := by rw [hu, hfr.eq]
  have hused : u.used = s.used := by rw [hu, hfr.eq]
  have htaken : u.taken = s.taken := by rw [hu, hfr.eq]
  have hnext : u.next = s.next := by rw [hu, hfr.eq]
  have hqueue : u.queue = s.queue := congrArg (RingBuf.contents NUM UINT16) havail
  have hcompl : u.completed = s.completed := congrArg (RingBuf.contents NUM UINT16) hused
  have hflight : u.flight = s.flight := by rw [St.flight, hqueue, htaken, hcompl]; rfl
  have hout : u.proc p = .out := Store.set_self _ _ _
  have hprocne : ∀ q, q ≠ p → ∀ r' z, (u.proc q = .wait r' z ↔ s.proc q = .wait r' z) := fun q hq r' z => by
    rw [show u.proc q = t.proc q from Store.set_ne _ _ hq]
    exact hfr.proc.wait
  have hbufne : ∀ q, q ≠ p → (u.proc q).buf = (s.proc q).buf := fun q hq => by
    rw [show u.proc q = t.proc q from Store.set_ne _ _ hq]
    exact hfr.proc.buf q
  have hwaits : ∀ q r', Waits u q r' → q ≠ p ∧ Waits s q r' := fun q r' ⟨z, hz⟩ => by
    by_cases hq : q = p
    · rw [hq, hout] at hz
      cases hz
    · exact ⟨hq, z, (hprocne q hq r' z).1 hz⟩
  have hkeep : ∀ q r', q ≠ p → Waits s q r' → Waits u q r' := fun q r' hq ⟨z, hz⟩ => ⟨z, (hprocne q hq r' z).2 hz⟩
  have hsame : ∀ q r', q ≠ p → Waits s q r' → Same s u r' := fun q r' hq hw' => by
    obtain ⟨hdis, hser⟩ := hI.apart q p r' r hw' hw hq
    refine ⟨fun i hi => ?_, fun i hi => hfr.desc i (hdis hi), ?_, by rw [hserial], ?_, by rw [hdisk]⟩
    · rw [show u.free i = t.free i from rfl, hfr.free i, if_neg (hdis hi)]
    · rw [hinfo]
      exact Store.set_ne _ _ (hI.head_ne hw' hw hq)
    · rw [hreq]
      exact Store.set_ne _ _ hser
  refine ⟨fun q r' hw' => ?_, fun q r' z hz hdq => ?_, fun q q' r1 r2 h1 h2 hne => ?_, fun i hi hf => ?_,
    fun q q' c hq hq' => ?_,
    havail ▸ hI.avail, hused ▸ hI.used, hflight ▸ hI.nodup, fun h hh => ?_, fun k hk => ?_, fun q r' hw' => ?_⟩
  · obtain ⟨hq, hw'⟩ := hwaits q r' hw'
    obtain ⟨hok', hst'⟩ := hI.calls q r' hw'
    refine ⟨hok'.same (hsame q r' hq hw'), hst'.same (hsame q r' hq hw') ?_ ?_ ?_⟩
    · rw [hqueue, htaken]
      exact id
    · rw [hcompl]
      exact id
    · rw [hflight]
      exact id
  · obtain ⟨hq, -⟩ := hwaits q r' ⟨z, hz⟩
    exact hI.awake q r' z ((hprocne q hq r' z).1 hz) (hdisk ▸ hdq)
  · exact hI.apart q q' r1 r2 (hwaits q r1 h1).2 (hwaits q' r2 h2).2 hne
  · rw [show u.free i = t.free i from rfl, hfr.free i] at hf
    by_cases him : i ∈ r.idx
    · rw [if_pos him] at hf
      cases hf
    · rw [if_neg him] at hf
      obtain ⟨q, r', hw', hm⟩ := hI.owned i hi hf
      exact ⟨q, r', hkeep q r' (fun e => him ((hw'.unique (e ▸ hw)) ▸ hm)) hw', hm⟩
  · by_cases hqp : q = p
    · rw [hqp, hout] at hq
      cases hq
    · by_cases hqp' : q' = p
      · rw [hqp', hout] at hq'
        cases hq'
      · rw [hbufne q hqp] at hq
        rw [hbufne q' hqp'] at hq'
        exact hI.bufs q q' c hq hq'
  · rw [hflight] at hh
    obtain ⟨q, r', hw', hm⟩ := hI.heads h hh
    refine ⟨q, r', hkeep q r' (fun e => hni ?_) hw', hm⟩
    subst e
    rw [hw.unique hw', hm]
    exact hh
  · by_cases hk' : k = r.serial
    · refine Or.inr ⟨?_, ?_, ?_⟩ <;> rw [hreq, hk', Store.set_self]
      · exact hdone.1
      · exact hdone.2.trans (by rw [hok.buf])
    · rw [hnext] at hk
      refine (hI.past k hk).imp (fun ⟨q, r', hw', hm⟩ => ⟨q, r', hkeep q r' (fun e => hk' ?_) hw', hm⟩)
        fun hs => hs.same ?_
      · subst e
        rw [← hm, hw.unique hw']
      · rw [hreq]
        exact Store.set_ne _ _ hk'
  · rw [hnext]
    exact hI.fresh q r' (hwaits q r' hw').2

/-! ## Steps of the device and of the handler -/

theorem Inv.devTake (hI : Inv s) (hne : s.avail.r ≠ s.avail.w) : Inv (devTake s) := by
  have hcount : s.avail.count UINT16 ≠ 0 := fun h0 => hne ((RingBuf.count_eq_zero_iff hI.avail).1 h0)
  set u := Virtio.devTake s
  have hqueue : s.queue = s.avail.front NUM :: u.queue := RingBuf.contents_get hI.avail hcount
  have htaken : u.taken = s.taken ++ [s.avail.front NUM] := rfl
  have hmem : ∀ x, x ∈ u.queue ++ u.taken ↔ x ∈ s.queue ++ s.taken := fun x => by
    rw [hqueue, htaken]
    simp only [List.mem_append, List.mem_cons, List.not_mem_nil, or_false]
    tauto
  have hflight : ∀ x, x ∈ u.flight ↔ x ∈ s.flight := fun x => by
    simp only [St.flight, List.mem_append (s := u.queue ++ u.taken), List.mem_append (s := s.queue ++ s.taken), hmem]
    exact Iff.rfl
  have hsame : ∀ r, Same s u r := fun r => ⟨fun _ _ => rfl, fun _ _ => rfl, rfl, rfl, rfl, rfl⟩
  refine ⟨fun q r hw => ?_, hI.awake, hI.apart, hI.owned, hI.bufs, hI.avail.get hcount, hI.used, ?_, fun h hh => ?_,
    fun k hk => (hI.past k hk).imp id fun hs => hs.same rfl, hI.fresh⟩
  · obtain ⟨hok, hst⟩ := hI.calls q r hw
    exact ⟨hok.same (hsame r), hst.same (hsame r) (hmem _).2 id (hflight _).1⟩
  · have hperm : u.flight.Perm s.flight := by
      show (u.queue ++ u.taken ++ s.completed).Perm (s.queue ++ s.taken ++ s.completed)
      rw [hqueue, htaken, ← List.append_assoc]
      have hswap : ((u.queue ++ s.taken) ++ [s.avail.front NUM]).Perm ([s.avail.front NUM] ++ (u.queue ++ s.taken)) :=
        List.perm_append_comm
      exact hswap.append_right _
    exact hperm.nodup_iff.2 hI.nodup
  · exact hI.heads h ((hflight h).1 hh)

theorem Inv.taken_owner (hI : Inv s) (hh : h ∈ s.taken) : ∃ p r, Waits s p r ∧ r.i0 = h ∧ CallOk s r ∧
    AtDevice s r := by
  have hm : h ∈ s.queue ++ s.taken := List.mem_append_right _ hh
  obtain ⟨p, r, hw, rfl⟩ := hI.heads h (List.mem_append_left _ hm)
  obtain ⟨hok, hst⟩ := hI.calls p r hw
  refine ⟨p, r, hw, rfl, hok, ?_⟩
  rcases hst with hs | hs | hs
  · exact hs
  · exact absurd rfl ((List.nodup_append.1 hI.nodup).2.2 r.i0 hm r.i0 hs.mem)
  · exact absurd (List.mem_append_left _ hm) hs.mem

/-- **The device completes a request.** -/
theorem Inv.devComplete (hI : Inv s) (hh : h ∈ s.taken) : Inv (devComplete s h) := by
  obtain ⟨p, r, hw, rfl, hok, hat⟩ := hI.taken_owner hh
  set u := Virtio.devComplete s r.i0
  have hinfo : u.info = s.info.set r.i0 { s.info r.i0 with status := 0 } := by
    show writeStatus s.info (s.desc (s.desc (s.desc r.i0).next).next).addr = _
    rw [hok.desc0, hok.desc1, hok.desc2]
    rfl
  have hreq : u.req = s.req.set r.serial { s.req r.serial with done := (s.req r.serial).done + 1 } := by
    show s.req.set (s.serial r.i0) _ = _
    rw [hok.serial]
  have hnd : (s.queue ++ s.taken).Nodup := (List.nodup_append.1 hI.nodup).1
  have hndt : s.taken.Nodup := (List.nodup_append.1 hnd).2.1
  -- the head moves from the chains at work to the used ring
  have hroom : s.used.count UINT16 ≠ NUM := by
    have hle := length_le_num hI.nodup fun i hi => (hI.head_lt hi).1
    have hlen : s.completed.length = s.used.count UINT16 := RingBuf.length_contents
    have hpos := List.length_pos_of_mem hh
    simp only [St.flight, List.length_append] at hle
    omega
  have hcompl : u.completed = s.completed ++ [r.i0] := RingBuf.contents_put r.i0 hI.used (by decide) (by decide) hroom
  have hqueue : u.queue = s.queue := rfl
  have htaken : u.taken = s.taken.erase r.i0 := rfl
  have hperm : u.flight.Perm s.flight := by
    show (s.queue ++ s.taken.erase r.i0 ++ u.completed).Perm (s.queue ++ s.taken ++ s.completed)
    rw [hcompl, List.append_assoc, List.append_assoc]
    refine List.Perm.append_left _ ?_
    calc s.taken.erase r.i0 ++ (s.completed ++ [r.i0])
        _ = s.taken.erase r.i0 ++ s.completed ++ [r.i0] := (List.append_assoc _ _ _).symm
        _ |>.Perm ([r.i0] ++ (s.taken.erase r.i0 ++ s.completed)) := List.perm_append_comm
        _ |>.Perm (s.taken ++ s.completed) := (List.perm_cons_erase hh).symm.append_right _
  have hflight : ∀ x, x ∈ u.flight ↔ x ∈ s.flight := fun x => hperm.mem_iff
  have hsame : ∀ q r', q ≠ p → Waits s q r' → Same s u r' := fun q r' hq hw' => by
    refine ⟨fun _ _ => rfl, fun _ _ => rfl, ?_, rfl, ?_, rfl⟩
    · rw [hinfo, Store.set_ne _ _ (hI.head_ne hw' hw hq)]
    · rw [hreq, Store.set_ne _ _ (hI.apart q p r' r hw' hw hq).2]
  refine ⟨fun q r' hw' => ?_, hI.awake, hI.apart, hI.owned, hI.bufs, hI.avail, hI.used.put r.i0 (by decide) hroom,
    hperm.nodup_iff.2 hI.nodup, fun x hx => hI.heads x ((hflight x).1 hx), fun k hk => ?_, hI.fresh⟩
  · by_cases hq : q = p
    · subst hq
      obtain rfl := hw.unique hw'
      have hreqr : u.req r.serial = { s.req r.serial with done := (s.req r.serial).done + 1 } := by rw [hreq,
        Store.set_self]
      have hinfor : u.info r.i0 = { s.info r.i0 with status := 0 } := by rw [hinfo, Store.set_self]
      refine ⟨⟨⟨hok.nodup, hok.lt, hok.used, hok.desc0, hok.desc1, hok.desc2⟩, ?_, hok.serial, ?_, ?_⟩,
        Or.inr (Or.inl ⟨?_, hat.disk, ?_, ?_, ?_⟩)⟩
      · rw [hinfor]; exact hok.info
      · rw [hreqr]; exact hok.buf
      · rw [hreqr]; exact hok.returned
      · rw [hcompl]; exact List.mem_append_right _ (List.mem_singleton_self _)
      · rw [hinfor]
      · rw [hreqr, hat.done]
      · rw [hreqr]; exact hat.credits
    · obtain ⟨hok', hst'⟩ := hI.calls q r' hw'
      have he := hsame q r' hq hw'
      refine ⟨hok'.same he, hst'.same he (fun hm => ?_) (fun hm => ?_) (hflight _).1⟩
      · rw [hqueue, htaken]
        refine (List.mem_append.1 hm).elim (List.mem_append_left _) fun hm => List.mem_append_right _ ?_
        exact (List.mem_erase_of_ne (hI.head_ne hw' hw hq)).2 hm
      · rw [hcompl]
        exact List.mem_append_left _ hm
  · refine (hI.past k hk).imp id fun hs => hs.same ?_
    have hne : k ≠ r.serial := fun e => by
      have h1 := hs.returned
      rw [e, hok.returned] at h1
      cases h1
    rw [hreq, Store.set_ne _ _ hne]

theorem wakeBuf_wait (x : Pos) : (∃ z, x.wakeBuf b = .wait r z) ↔ ∃ z, x = .wait r z := by
  cases x with
  | out => exact Iff.rfl
  | alloc b sector write z => exact Iff.rfl
  | wait r' z =>
    constructor
    · rintro ⟨z', hz⟩
      exact ⟨z, by rw [(Pos.wait.inj hz).1]⟩
    · rintro ⟨z', hz⟩
      exact ⟨_, by rw [(Pos.wait.inj hz).1]; rfl⟩

theorem wakeBuf_buf (x : Pos) : (x.wakeBuf b).buf = x.buf := by cases x <;> rfl

/-- **The handler sees a completion.** It finds status 0 and the buffer of the request, and nobody else's flag changes.
-/
theorem Inv.intrPass (hI : Inv s) (hne : s.used.r ≠ s.used.w) : ∃ t, intrPass s = .ok t ∧ Inv t := by
  have hcount : s.used.count UINT16 ≠ 0 := fun h0 => hne ((RingBuf.count_eq_zero_iff hI.used).1 h0)
  have hcompl := RingBuf.contents_get hI.used hcount
  have hmem : s.used.front NUM ∈ s.completed := by rw [St.completed, hcompl]; exact List.mem_cons_self
  obtain ⟨p, r, hw, hr⟩ := hI.heads _ (List.mem_append_right _ hmem)
  rw [← hr] at hmem hcompl
  obtain ⟨hok, hst⟩ := hI.calls p r hw
  have hco : Completed s r := by
    rcases hst with hs | hs | hs
    · exact absurd rfl ((List.nodup_append.1 hI.nodup).2.2 r.i0 hs.mem r.i0 hmem)
    · exact hs
    · exact absurd (List.mem_append_right _ hmem) hs.mem
  set u : St := { s with
    disk := s.disk.set r.buf false
    proc := fun p => (s.proc p).wakeBuf r.buf
    used := s.used.get UINT16
    req := s.req.set r.serial { s.req r.serial with credits := (s.req r.serial).credits ++ [r.buf] } }
  have hstep : Virtio.intrPass s = .ok u := by
    simp only [Virtio.intrPass, ← hr, hco.status, ne_eq, not_true_eq_false, if_false, hok.info, hok.serial]
    rfl
  refine ⟨u, hstep, ?_⟩
  have hcompl' : s.completed = r.i0 :: u.completed := hcompl
  have hflight : ∀ x, x ∈ s.flight ↔ x ∈ u.flight ∨ x = r.i0 := fun x => by
    show x ∈ s.queue ++ s.taken ++ s.completed ↔ x ∈ s.queue ++ s.taken ++ u.completed ∨ x = r.i0
    rw [hcompl']
    simp only [List.mem_append, List.mem_cons]
    tauto
  have hperm : s.flight.Perm (r.i0 :: u.flight) := by
    show (s.queue ++ s.taken ++ s.completed).Perm (r.i0 :: (s.queue ++ s.taken ++ u.completed))
    rw [hcompl']
    exact List.perm_middle
  obtain ⟨hni, hnd⟩ := List.nodup_cons.1 (hperm.nodup_iff.1 hI.nodup)
  have hwaits : ∀ q r', Waits u q r' ↔ Waits s q r' := fun q r' => wakeBuf_wait _
  have hsame : ∀ q r', q ≠ p → Waits s q r' → Same s u r' := fun q r' hq hw' =>
    ⟨fun _ _ => rfl, fun _ _ => rfl, rfl, rfl, Store.set_ne _ _ (hI.apart q p r' r hw' hw hq).2,
      Store.set_ne _ _ (hI.buf_ne hw' hw hq)⟩
  refine ⟨fun q r' hw' => ?_, fun q r' z hz hd => ?_, fun q q' r1 r2 h1 h2 => ?_, fun i hi hf => ?_,
    fun q q' c hq hq' => ?_,
    hI.avail, hI.used.get hcount, hnd, fun x hx => ?_, fun k hk => ?_, fun q r' hw' => hI.fresh q r'
      ((hwaits q r').1 hw')⟩
  · have hw' := (hwaits q r').1 hw'
    by_cases hq : q = p
    · subst hq
      obtain rfl := hw.unique hw'
      have hreqr : u.req r.serial = { s.req r.serial with credits := (s.req r.serial).credits ++ [r.buf] } :=
        Store.set_self _ _ _
      refine ⟨⟨⟨hok.nodup, hok.lt, hok.used, hok.desc0, hok.desc1, hok.desc2⟩, hok.info, hok.serial, ?_, ?_⟩,
        Or.inr (Or.inr ⟨hni, Store.set_self _ _ _, ?_, ?_⟩)⟩
      · rw [hreqr]; exact hok.buf
      · rw [hreqr]; exact hok.returned
      · rw [hreqr]; exact hco.done
      · rw [hreqr, hco.credits, List.nil_append]
    · obtain ⟨hok', hst'⟩ := hI.calls q r' hw'
      have he := hsame q r' hq hw'
      refine ⟨hok'.same he, hst'.same he id (fun hm => ?_) fun hm => (hflight _).2 (Or.inl hm)⟩
      rw [hcompl'] at hm
      exact (List.mem_cons.1 hm).resolve_left (hI.head_ne hw' hw hq)
  · obtain ⟨z', hz'⟩ := (hwaits q r').1 ⟨z, hz⟩
    have hzz : z = if r'.buf = r.buf then false else z' := by
      have h1 : (s.proc q).wakeBuf r.buf = .wait r' z := hz
      rw [hz'] at h1
      exact (Pos.wait.inj h1).2.symm
    by_cases hb : r'.buf = r.buf
    · rw [hzz, if_pos hb]
    · rw [hzz, if_neg hb]
      exact hI.awake q r' z' hz' (by rw [← hd]; exact (Store.set_ne _ _ hb).symm)
  · exact hI.apart q q' r1 r2 ((hwaits q r1).1 h1) ((hwaits q' r2).1 h2)
  · obtain ⟨q, r', hw', hm⟩ := hI.owned i hi hf
    exact ⟨q, r', (hwaits q r').2 hw', hm⟩
  · rw [show (u.proc q).buf = _ from wakeBuf_buf _] at hq
    rw [show (u.proc q').buf = _ from wakeBuf_buf _] at hq'
    exact hI.bufs q q' c hq hq'
  · obtain ⟨q, r', hw', hm⟩ := hI.heads x ((hflight x).2 (Or.inl hx))
    exact ⟨q, r', (hwaits q r').2 hw', hm⟩
  · refine (hI.past k hk).imp (fun ⟨q, r', hw', hm⟩ => ⟨q, r', (hwaits q r').2 hw', hm⟩) fun hs => hs.same ?_
    have hne : k ≠ r.serial := fun e => by
      have h1 := hs.returned
      rw [e, hok.returned] at h1
      cases h1
    exact Store.set_ne _ _ hne

/-! ## Runs -/

/-- **No legal step panics, and every one keeps the invariant.** -/
theorem Inv.step {a : Act} (hI : Inv s) (hl : legal s a) : ∃ t, step s a = .ok t ∧ Inv t := by
  cases a with
  | call p b blockno write =>
    refine hI.allocate (fun r ⟨z, hz⟩ => ?_) fun q _ => hl.2 q
    rw [hl.1] at hz
    cases hz
  | resume p =>
    have hawake : (s.proc p).Awake := hl
    show ∃ t, Virtio.resume s p = .ok t ∧ Inv t
    unfold Virtio.resume
    cases hp : s.proc p with
    | out =>
      rw [hp] at hawake
      exact hawake.elim
    | alloc b sector write z =>
      refine hI.allocate (fun r ⟨z', hz⟩ => ?_) fun q hq hb => hq (hI.bufs q p b hb (by rw [hp]; rfl))
      rw [hp] at hz
      cases hz
    | wait r z =>
      have hw : Waits s p r := ⟨z, hp⟩
      cases hd : s.disk r.buf with
      | true => exact ⟨_, if_pos hd, hI.resleep hw hd⟩
      | false =>
        obtain ⟨t, ht, hIt⟩ := hI.finish hw hd
        exact ⟨t, (if_neg (by rw [hd]; exact Bool.false_ne_true)).trans ht, hIt⟩
  | devTake => exact ⟨_, rfl, hI.devTake hl⟩
  | devComplete h => exact ⟨_, rfl, hI.devComplete hl⟩
  | intrPass => exact hI.intrPass hl

theorem reach_inv (hr : disk.Reach start s) : Inv s := hr.inv Inv start_inv fun _ _ _ hI hl hs => by
  obtain ⟨u, hu, hIu⟩ := hI.step hl
  rw [show disk.step _ _ = _ from hu] at hs
  cases hs
  exact hIu

/-- a request that has not returned is that of a waiting process -/
theorem Inv.pending_iff (hI : Inv s) (hk : k < s.next) :
    (s.req k).returned = false ↔ ∃ p r, Waits s p r ∧ r.serial = k := by
  constructor
  · intro hret
    refine (hI.past k hk).resolve_right fun hs => ?_
    rw [hs.returned] at hret
    cases hret
  · rintro ⟨p, r, hw, rfl⟩
    exact (hI.calls p r hw).1.returned

/-- what has become of request k -/
theorem Inv.account (hI : Inv s) (hk : k < s.next) :
    Settled s k ∨ ∃ p r, Waits s p r ∧ r.serial = k ∧ (s.req k).buf = r.buf ∧ (s.req k).returned = false ∧
      Stage s r := by
  rcases hI.past k hk with ⟨p, r, hw, rfl⟩ | hs
  · obtain ⟨hok, hst⟩ := hI.calls p r hw
    exact Or.inr ⟨p, r, hw, rfl, hok.buf, hok.returned, hst⟩
  · exact Or.inl hs

/-- **The request protocol.** In every reachable state: the descriptors in use are exactly those of the requests that
have not returned, each request has its own chain of three, and these are disjoint; a failed `alloc3_desc` leaves the
free map as it was; no step can panic; every request was completed at most once and credited at most once, to its own
buffer and after its completion; a call has returned only if both have happened; a completion that has not been credited
is in the used ring; and a process whose request was credited is awake and sees its flag cleared. -/
theorem virtio_protocol (hr : disk.Reach start s) :
    (∀ i < NUM, s.free i = false ↔ ∃ p r, Waits s p r ∧ i ∈ r.idx) ∧
    (∀ k < s.next, (s.req k).returned = false ↔ ∃ p r, Waits s p r ∧ r.serial = k) ∧
    (∀ p r, Waits s p r → Chain s r) ∧
    (∀ p q r r', Waits s p r → Waits s q r' → p ≠ q → r.idx.Disjoint r'.idx ∧ r.serial ≠ r'.serial) ∧
    (∀ t, alloc3Desc s = .ok (t, none) → t.free = s.free) ∧
    (∀ a, legal s a → ∃ t, step s a = .ok t) ∧
    (∀ k < s.next, (s.req k).done ≤ 1 ∧
      ((s.req k).credits = [] ∨ (s.req k).credits = [(s.req k).buf] ∧ (s.req k).done = 1) ∧
      ((s.req k).returned = true → (s.req k).done = 1 ∧ (s.req k).credits = [(s.req k).buf]) ∧
      ((s.req k).done = 1 → (s.req k).credits = [] → ∃ p r, Waits s p r ∧ r.serial = k ∧ r.i0 ∈ s.completed)) ∧
    ∀ p r z, s.proc p = .wait r z → (s.req r.serial).credits ≠ [] → z = false ∧ s.disk r.buf = false := by
  have hI := reach_inv hr
  refine ⟨fun i hi => ⟨hI.owned i hi, ?_⟩, fun k hk => hI.pending_iff hk, fun p r hw => (hI.calls p r hw).1.toChain,
    hI.apart,
    fun t ht => ?_, fun a hl => ?_, fun k hk => ?_, fun p r z hz hc => ?_⟩
  · rintro ⟨p, r, hw, hm⟩
    exact (hI.calls p r hw).1.used i hm
  · rcases alloc3Desc_spec s with ⟨u, hu, hf⟩ | ⟨u, i0, i1, i2, hu, -⟩
    · rw [hu] at ht
      cases ht
      rw [hf.eq]
    · rw [hu] at ht
      cases ht
  · obtain ⟨t, ht, -⟩ := hI.step hl
    exact ⟨t, ht⟩
  · rcases hI.account hk with hs | ⟨p, r, hw, rfl, hbuf, hret, hs | hs | hs⟩
    · exact ⟨hs.done.le, Or.inr ⟨hs.credits, hs.done⟩, fun _ => ⟨hs.done, hs.credits⟩, fun _ h0 => by
        rw [hs.credits] at h0
        cases h0⟩
    all_goals refine ⟨?_, ?_, fun h1 => (by rw [hret] at h1; cases h1), fun h1 h0 => ?_⟩
    · exact hs.done.le.trans (Nat.zero_le 1)
    · exact Or.inl hs.credits
    · rw [hs.done] at h1
      cases h1
    · exact hs.done.le
    · exact Or.inl hs.credits
    · exact ⟨p, r, hw, rfl, hs.mem⟩
    · exact hs.done.le
    · exact Or.inr ⟨hbuf ▸ hs.credits, hs.done⟩
    · rw [hs.credits] at h0
      cases h0
  · have hd : s.disk r.buf = false := by
      rcases (hI.calls p r ⟨z, hz⟩).2 with hs | hs | hs
      · exact absurd hs.credits hc
      · exact absurd hs.credits hc
      · exact hs.disk
    exact ⟨hI.awake p r z hz hd, hd⟩

/-- a write of buffer 5 from the call to its return -/
theorem virtio_protocol_write : ∃ s, disk.Reach start s ∧ (s.req 0).returned = true ∧
    (s.req 0).done = 1 ∧ (s.req 0).credits = [5] ∧ ∀ a, legal s a → ∃ t, step s a = .ok t := by
  have h1 : disk.Reach start _ := Machine.Reach.single (a := .call 0 5 7 true) ⟨rfl, fun _ => nofun⟩ rfl
  have h2 := h1.step (a := .devTake) (by simp only [disk, legal]; decide +kernel) rfl
  have h3 := h2.step (a := .devComplete 0) (by simp only [disk, legal]; decide +kernel) rfl
  have h4 := h3.step (a := .intrPass) (by simp only [disk, legal]; decide +kernel) rfl
  have h5 := h4.step (a := .resume 0) (by simp only [disk, legal]; decide +kernel) rfl
  obtain ⟨-, -, -, -, -, hstep, -⟩ := virtio_protocol h5
  exact ⟨_, h5, rfl, rfl, rfl, hstep⟩

end Xv6.Virtio
