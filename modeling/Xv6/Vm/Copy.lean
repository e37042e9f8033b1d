/-
Copying between the kernel and user memory: `copyin`, `copyout` and `copyinstr`.

- `user`: user memory as the process sees it, in which pages that a lazy `sbrk` has not allocated yet are zeroed pages.
-/
import Mathlib.Data.List.GetD
import Xv6.Vm.Fault

namespace Xv6.Vm

open Xv6.Core
open Fs (PGSIZE)

variable {K : Set ℕ} {m m' m'' : Mem} {r k n w e a b va z sz tf off fuel : ℕ} {h : Multiset ℕ} {l l' : List UInt8}
  {E : Panic → Prop} {v : ℕ → Option (Bool × UInt8)} {ok : Bool} {P : Prop}

/-! ## User memory -/

/-- the byte at a user address, and whether it may be written. Pages that are not mapped count as zeroed pages if their
number is below n. -/
def user (m : Mem) (r n va : ℕ) : Option (Bool × UInt8) :=
  match leaf m.entry r (va / PGSIZE) with
  | some e => if has e PTE_U then some (has e PTE_W, m.byte (PTE2PA e + va % PGSIZE)) else none
  | none => if va / PGSIZE < n then some (true, 0) else none

theorem user_some (he : leaf m.entry r (va / PGSIZE) = some e) :
    user m r n va = if has e PTE_U then some (has e PTE_W, m.byte (PTE2PA e + va % PGSIZE)) else none := by
  unfold user
  rw [he]

theorem user_none (he : leaf m.entry r (va / PGSIZE) = none) :
    user m r n va = if va / PGSIZE < n then some (true, 0) else none := by
  unfold user
  rw [he]

/-- user memory depends on the mappings and on the contents of the user pages -/
theorem user_congr_at (hs : Space m r sz tf) (hl : leaf m'.entry r (va / PGSIZE) = leaf m.entry r (va / PGSIZE))
    (hb : ∀ x, PGROUNDDOWN x ∈ users Set.univ m r → m'.byte x = m.byte x) : user m' r n va = user m r n va := by
  cases he : leaf m.entry r (va / PGSIZE) with
  | none => rw [user_none he, user_none (hl.trans he)]
  | some e =>
    rw [user_some he, user_some (hl.trans he)]
    split_ifs with hU
    · have hmem : PTE2PA e ∈ users Set.univ m r :=
        mem_users.mpr ⟨_, e, (hs.user he hU).trans_le hs.pages_le, Set.mem_univ _, he, rfl⟩
      rw [hb _ (by rw [page_offset (PTE2PA_aligned e) (Nat.mod_lt _ (by decide))]; exact hmem)]
    · rfl

theorem user_congr (hs : Space m r sz tf) (hl : leaf m'.entry r = leaf m.entry r)
    (hb : ∀ x, PGROUNDDOWN x ∈ users Set.univ m r → m'.byte x = m.byte x) : user m' r n = user m r n :=
  funext fun _ => user_congr_at hs (congrFun hl _) hb

theorem pteOf_RWU {p : ℕ} (hp : Usable m p) :
    has (pteOf p RWU) PTE_U = true ∧ has (pteOf p RWU) PTE_W = true ∧ PTE2PA (pteOf p RWU) = p := by
  have hlt : RWU < 2 ^ 10 := by decide
  refine ⟨?_, ?_, (pteOf_facts hp.lt hlt).2.2.2 hp.1⟩
  · rw [has_pteOf hp.lt hlt (by decide)]; decide
  · rw [has_pteOf hp.lt hlt (by decide)]; decide

/-- mapping a lazy page to a zeroed page does not change user memory -/
theorem user_fresh {p : ℕ} (hs : Space m r sz tf) (hnone : leaf m.entry r k = none) (hk : k < pages sz)
    (hp : Usable m' p)
    (hl : leaf m'.entry r = Function.update (leaf m.entry r) k (some (pteOf p RWU)))
    (hzero : ∀ x, PGROUNDDOWN x = p → m'.byte x = 0)
    (hb : ∀ x, PGROUNDDOWN x ∈ users Set.univ m r → m'.byte x = m.byte x) :
    user m' r (pages sz) = user m r (pages sz) := by
  funext va
  have hmod : va % PGSIZE < PGSIZE := Nat.mod_lt _ (by decide)
  by_cases hva : va / PGSIZE = k
  · obtain ⟨hU, hW, hpa⟩ := pteOf_RWU hp
    have hold : leaf m.entry r (va / PGSIZE) = none := by rw [hva]; exact hnone
    have hnew : leaf m'.entry r (va / PGSIZE) = some (pteOf p RWU) := by rw [hl, hva, Function.update_self]
    rw [user_none hold, user_some hnew, if_pos hU, if_pos (hva ▸ hk), hW, hpa, hzero _ (page_offset hp.1 hmod)]
  · exact user_congr_at hs (by rw [hl, Function.update_of_ne hva]) hb

/-- user memory with the bytes l stored at a -/
def overwrite (v : ℕ → Option (Bool × UInt8)) (a : ℕ) (l : List UInt8) : ℕ → Option (Bool × UInt8) := fun x =>
  if a ≤ x ∧ x < a + l.length then (v x).map fun c => (c.1, l.getD (x - a) 0) else v x

@[simp] theorem overwrite_nil (v : ℕ → Option (Bool × UInt8)) (a : ℕ) : overwrite v a [] = v := by
  funext x
  exact if_neg fun h => by simp at h; omega

theorem overwrite_out {x : ℕ} (hx : x < a ∨ a + l.length ≤ x) :
    overwrite v a l x = v x :=
  if_neg (by omega)

theorem overwrite_append (v : ℕ → Option (Bool × UInt8)) (a : ℕ) (l l' : List UInt8) :
    overwrite (overwrite v a l) (a + l.length) l' = overwrite v a (l ++ l') := by
  funext x
  unfold overwrite
  rw [List.length_append]
  by_cases h1 : a ≤ x ∧ x < a + l.length
  · rw [if_neg (by omega), if_pos h1, if_pos (by omega), List.getD_append _ _ _ _ (by omega)]
  · by_cases h2 : a + l.length ≤ x ∧ x < a + l.length + l'.length
    · rw [if_pos h2, if_neg h1, if_pos (by omega), List.getD_append_right _ _ _ _ (by omega), Nat.sub_sub]
    · rw [if_neg h2, if_neg h1, if_neg (by omega)]

/-- the pages of different page numbers are different -/
theorem Good.users_inj {k' e' : ℕ} (hg : Good Set.univ m r h) (hk : k < FRAME) (hk' : k' < FRAME)
    (he : leaf m.entry r k = some e) (he' : leaf m.entry r k' = some e') (hp : PTE2PA e = PTE2PA e') : k = k' := by
  have hnd : (users Set.univ m r).Nodup :=
    Multiset.nodup_of_le users_le (Multiset.nodup_of_le (Multiset.le_add_left _ _) hg.base.nodup)
  unfold users at hnd
  refine nodup_gather.mp hnd k k' (PTE2PA e) hk hk' ?_ ?_
  · rw [if_pos (Set.mem_univ k), he]; rfl
  · rw [if_pos (Set.mem_univ k'), he', hp]; rfl

/-- memory with the bytes l stored at the physical address a -/
def Mem.put (m : Mem) (a : ℕ) (l : List UInt8) : Mem := { m with byte := m.byte.write a l }

theorem byte_put (m : Mem) (a : ℕ) (l : List UInt8) (x : ℕ) :
    (m.put a l).byte x = if a ≤ x ∧ x < a + l.length then l.getD (x - a) 0 else m.byte x := rfl

/-- bytes are stored in a user page -/
theorem put_user (off : ℕ) (hg : Good Set.univ m r h) (hs : Space m r sz tf) (he : leaf m.entry r k = some e)
    (hU : has e PTE_U = true)
    (hoff : off + l.length ≤ PGSIZE) :
    Moves Set.univ r h h m (m.put (PTE2PA e + off) l) ∧
      leaf (m.put (PTE2PA e + off) l).entry r = leaf m.entry r ∧
      user (m.put (PTE2PA e + off) l) r n = overwrite (user m r n) (k * PGSIZE + off) l := by
  obtain ⟨hmem, hu⟩ := hs.usable hg he hU
  have hkF := (hs.user he hU).trans_le hs.pages_le
  have hout : ∀ x, PGROUNDDOWN x ≠ PTE2PA e → (m.put (PTE2PA e + off) l).byte x = m.byte x := by
    intro x hx
    refine Ram.write_out l ?_
    have := out_of_page hu.1 hx
    omega
  have hst : Still r m (m.put (PTE2PA e + off) l) :=
    still_of_frame hg.tree fun x hx => hout x fun he' => hg.user_notMem hmem (he' ▸ hx)
  refine ⟨⟨hst.tree, ?_⟩, hst.leaf, ?_⟩
  · rw [hst.pagesOf]
    exact shuffle_of_page (Multiset.mem_of_le users_le hmem) hout rfl rfl rfl
  funext va
  have hmod : va % PGSIZE < PGSIZE := Nat.mod_lt _ (by decide)
  have hdm := Nat.div_add_mod va PGSIZE
  -- outside the page nothing is stored
  have hrange : va / PGSIZE ≠ k → va < k * PGSIZE + off ∨ k * PGSIZE + off + l.length ≤ va := by
    intro hne
    unfold PGSIZE at *
    omega
  have hother := congrFun hst.leaf (va / PGSIZE)
  cases he' : leaf m.entry r (va / PGSIZE) with
  | none =>
    have hne : va / PGSIZE ≠ k := by
      rintro rfl
      rw [he] at he'
      cases he'
    rw [overwrite_out (hrange hne), user_none he', user_none (hother.trans he')]
  | some e' =>
    rw [user_some (hother.trans he')]
    by_cases hva : va / PGSIZE = k
    · subst hva
      rw [he] at he'
      cases he'
      unfold overwrite
      rw [user_some he, if_pos hU, if_pos hU, byte_put]
      rw [Nat.mul_comm] at hdm
      by_cases hin : off ≤ va % PGSIZE ∧ va % PGSIZE < off + l.length
      · have hsub : va - (va / PGSIZE * PGSIZE + off) = va % PGSIZE - off := by omega
        rw [if_pos (by omega), if_pos (by omega), hsub,
          show PTE2PA e + va % PGSIZE - (PTE2PA e + off) = va % PGSIZE - off by omega]
        rfl
      · rw [if_neg (by omega), if_neg (by omega)]
    · rw [overwrite_out (hrange hva), user_some he']
      split_ifs with hU'
      · have hne : PTE2PA e' ≠ PTE2PA e := fun hp =>
          hva (hg.users_inj ((hs.user he' hU').trans_le hs.pages_le) hkF he' he hp)
        rw [hout _ (by rw [page_offset (PTE2PA_aligned e') hmod]; exact hne)]
      · rfl

/-! ## Enough memory -/

/-- the pages with number from a to b that are not mapped and count as zeroed pages -/
def lazies (m : Mem) (r n a b : ℕ) : Finset ℕ := (Finset.Ico a b).filter fun k => k < n ∧ leaf m.entry r k = none

/-- there is memory for the pages with number from a to b that are not allocated yet: each takes a page and at most two
page-table pages -/
def Enough (m : Mem) (r n a b : ℕ) : Prop :=
  lazies m r n a b ≠ ∅ → m.deny = [] ∧ 3 * (lazies m r n a b).card ≤ m.free.length

theorem lazies_mono (ha : a ≤ a') (hb : b' ≤ b) : lazies m r n a' b' ⊆ lazies m r n a b :=
  Finset.filter_subset_filter _ (Finset.Ico_subset_Ico ha hb)

theorem Enough.mono (he : Enough m r n a b) (ha : a ≤ a') (hb : b' ≤ b) : Enough m r n a' b' := by
  intro hne
  have hsub : lazies m r n a' b' ⊆ lazies m r n a b := lazies_mono ha hb
  obtain ⟨hd, hle⟩ := he fun h0 => hne (Finset.subset_empty.mp (h0 ▸ hsub))
  exact ⟨hd, (Nat.mul_le_mul_left 3 (Finset.card_le_card hsub)).trans hle⟩

theorem Enough.next {len : ℕ} (he : Enough m r n (va / PGSIZE + 1) (pages (va + len))) :
    Enough m r n (va / PGSIZE + 1) (pages ((va / PGSIZE + 1) * PGSIZE + (len - min (PGSIZE - va % PGSIZE) len))) := by
  by_cases hlen : len ≤ PGSIZE - va % PGSIZE
  · rw [min_eq_right hlen, Nat.sub_self, Nat.add_zero ((va / PGSIZE + 1) * PGSIZE), pages_mul]
    intro hne
    unfold lazies at hne
    rw [Finset.Ico_self, Finset.filter_empty] at hne
    exact absurd rfl hne
  · refine he.mono le_rfl (pages_mono ?_)
    have := Nat.div_add_mod va PGSIZE
    unfold PGSIZE at *
    omega

/-- what is mapped stays mapped -/
def Keeps (r : ℕ) (m m' : Mem) : Prop := ∀ k e, leaf m.entry r k = some e → leaf m'.entry r k = some e

theorem Keeps.of_leaf (hl : leaf m'.entry r = leaf m.entry r) : Keeps r m m' := fun k e he => by rw [hl]; exact he

theorem Keeps.trans (h1 : Keeps r m m') (h2 : Keeps r m' m'') : Keeps r m m'' := fun k e he => h2 k e (h1 k e he)

theorem Found.got (hf : Found sz k r m m' w) (hg : Good Set.univ m r h) (hs : Space m r sz tf)
    (hm : Moves Set.univ r h h m m') :
    Space m' r sz tf ∧ user m' r (pages sz) = user m r (pages sz) ∧ Keeps r m m' ∧
      (w ≠ 0 → ∃ e, leaf m'.entry r k = some e ∧ has e PTE_U = true ∧ PTE2PA e = w) ∧
      ∀ b, k < b → Enough m r (pages sz) k b → Enough m' r (pages sz) (k + 1) b ∧
        (w = 0 → ∀ va, va / PGSIZE = k → user m r (pages sz) va = none) := by
  -- a page that is not allocated is one of those that there is memory for
  have hlazy : ∀ b, k < b → leaf m.entry r k = none → k < pages sz → Enough m r (pages sz) k b →
      m.deny = [] ∧ 3 * ((lazies m r (pages sz) (k + 1) b).card + 1) ≤ m.free.length := by
    intro b hb hnone hk hen
    have hmem : k ∈ lazies m r (pages sz) k b := Finset.mem_filter.mpr ⟨Finset.mem_Ico.mpr ⟨le_rfl, hb⟩, hk, hnone⟩
    obtain ⟨hd, hle⟩ := hen (Finset.ne_empty_of_mem hmem)
    refine ⟨hd, le_trans (Nat.mul_le_mul_left 3 ?_) hle⟩
    rw [← Finset.card_insert_of_notMem (a := k) (by simp [lazies])]
    exact Finset.card_le_card (Finset.insert_subset hmem (lazies_mono (Nat.le_succ k) le_rfl))
  cases hf with
  | hit he hU hmm =>
    subst hmm
    exact ⟨hs, rfl, .of_leaf rfl, fun _ => ⟨_, he, hU, rfl⟩, fun b hb hen => ⟨hen.mono (Nat.le_succ k) le_rfl, fun h0 =>
      absurd h0 (hs.usable hg he hU).2.ne_zero⟩⟩
  | miss hmm hnone hU =>
    subst hmm
    refine ⟨hs, rfl, .of_leaf rfl, fun h0 => absurd rfl h0, fun b hb hen => ⟨hen.mono (Nat.le_succ k) le_rfl,
      fun _ va hva => ?_⟩⟩
    subst hva
    cases he : leaf m'.entry r (va / PGSIZE) with
    | none => rw [user_none he, if_neg (by have := hnone he; omega)]
    | some e => rw [user_some he, if_neg (by rw [hU e he]; decide)]
  | fresh hnone hk hp hl hzero hb hfree hdeny =>
    have hkF := hk.trans_le hs.pages_le
    have hother : ∀ x, x ≠ k → leaf m'.entry r x = leaf m.entry r x := fun x hx => by rw [hl, Function.update_of_ne hx]
    refine ⟨?_, user_fresh hs hnone hk hp hl hzero hb, fun x e he => ?_, fun _ => ⟨_, by rw [hl, Function.update_self],
      ?_, ?_⟩,
      fun b hkb hen => ⟨fun _ => ?_, fun h0 => absurd h0 hp.ne_zero⟩⟩
    · refine hs.of_leaf hm.shuffle.trampoline hs.sz_le (hother _ hkF.ne') (hother _ ?_) fun x hx => ?_
      · intro hT
        rw [← hT] at hkF
        exact absurd hkF (by decide)
      · by_cases hxk : x = k
        · exact .inl (hxk ▸ hk)
        · exact hs.below x (by rw [← hother x hxk]; exact hx)
    · rw [hother x fun hxk => by rw [hxk, hnone] at he; cases he]
      exact he
    · exact (pteOf_RWU hp).1
    · exact (pteOf_RWU hp).2.2
    · have hcard : lazies m' r (pages sz) (k + 1) b = lazies m r (pages sz) (k + 1) b := by
        refine Finset.filter_congr fun x hx => ?_
        rw [hother x (by have := (Finset.mem_Ico.mp hx).1; omega)]
      obtain ⟨hd, hle⟩ := hlazy b hkb hnone hk hen
      rw [hcard]
      exact ⟨hdeny hd, by omega⟩
  | full hnone hk hl hb hfull =>
    refine ⟨hs.congr hm.shuffle.trampoline hl, user_congr hs hl hb, .of_leaf hl, fun h0 => absurd rfl h0,
      fun b hkb hen => ?_⟩
    obtain ⟨hd, hle⟩ := hlazy b hkb hnone hk hen
    rcases hfull with hlt | hd'
    · omega
    · exact absurd hd hd'

/-- what a copy at a leaves that ended after n bytes, and wrote w of them: if it failed, it ended at a page boundary,
and the mapped pages are as before elsewhere -/
structure Leaves (r a n w : ℕ) (ok : Bool) (m m' : Mem) : Prop where
  part : ok = false → n = 0 ∨ (a + n) % PGSIZE = 0
  frame : ∀ k e y, k < FRAME → leaf m.entry r k = some e → y < PGSIZE →
    ¬ (a ≤ k * PGSIZE + y ∧ k * PGSIZE + y < a + w) → m'.byte (PTE2PA e + y) = m.byte (PTE2PA e + y)

theorem Leaves.refl (r a : ℕ) (ok : Bool) (m : Mem) : Leaves r a 0 0 ok m m :=
  ⟨fun _ => .inl rfl, fun _ _ _ _ _ _ _ => rfl⟩

/-- looking for a page changes no mapped page -/
theorem Found.frame {y : ℕ} (hf : Found sz b r m m' w) (hk : k < FRAME) (he : leaf m.entry r k = some e)
    (hy : y < PGSIZE) : m'.byte (PTE2PA e + y) = m.byte (PTE2PA e + y) := by
  have hin : PGROUNDDOWN (PTE2PA e + y) ∈ users Set.univ m r := by
    rw [page_offset (PTE2PA_aligned e) hy]
    exact mem_users.mpr ⟨k, e, hk, Set.mem_univ k, he, rfl⟩
  cases hf with
  | hit _ _ hm => rw [hm]
  | miss hm => rw [hm]
  | fresh _ _ _ _ _ hb => exact hb _ hin
  | full _ _ _ hb => exact hb _ hin

theorem Leaves.append {n' w' : ℕ} (hk : Keeps r m m')
    (hf : ∀ k e y, k < FRAME → leaf m.entry r k = some e → y < PGSIZE →
      ¬ (a ≤ k * PGSIZE + y ∧ k * PGSIZE + y < a + w) → m'.byte (PTE2PA e + y) = m.byte (PTE2PA e + y))
    (hl : Leaves r b n' w' ok m' m'') (hb : b % PGSIZE = 0) (hend : ok = false ∨ w' ≠ 0 → b = a + n)
    (hw : w' ≠ 0 → w = n) : Leaves r a (n + n') (w + w') ok m m'' := by
  refine ⟨fun hok => ?_, fun k e y hkF he hy hout => ?_⟩
  · have := hend (.inl hok)
    rcases hl.part hok with h0 | h0
    · exact .inr (by rw [h0, Nat.add_zero, ← this]; exact hb)
    · exact .inr (by rw [← Nat.add_assoc, ← this]; exact h0)
  · rw [hl.frame k e y hkF (hk k e he) hy, hf k e y hkF he hy (by omega)]
    intro hin
    have := hend (.inr (by omega))
    have := hw (by omega)
    omega

/-! ## `copyin` -/

/-- the bytes l have been read at a; all n of them if ok, else up to the first one that is not there, if there was
enough memory -/
structure Reads (v : ℕ → Option (Bool × UInt8)) (a n : ℕ) (l : List UInt8) (ok : Bool) (enough : Prop) : Prop where
  le : l.length ≤ n
  bytes : ∀ i, (hi : i < l.length) → ∃ c, v (a + i) = some (c, l[i])
  all : ok = true → l.length = n
  stop : ok = false → l.length < n ∧ (enough → v (a + l.length) = none)

theorem Reads.nil : Reads v a 0 [] true P :=
  ⟨le_rfl, fun i hi => absurd hi (Nat.not_lt_zero i), fun _ => rfl, (by simp)⟩

theorem Reads.append {Q : Prop} (hle : l.length ≤ n)
    (hl : ∀ i, (hi : i < l.length) → ∃ c, v (a + i) = some (c, l[i])) (hr : Reads v b (n - l.length) l' ok Q)
    (hb : n - l.length ≠ 0 → b = a + l.length) (hP : P → Q) : Reads v a n (l ++ l') ok P := by
  have hlen := hr.le
  refine ⟨by rw [List.length_append]; omega, fun i hi => ?_, fun hok => ?_, fun hok => ?_⟩
  · rw [List.length_append] at hi
    by_cases hi' : i < l.length
    · rw [List.getElem_append_left hi']
      exact hl i hi'
    · obtain ⟨c, hc⟩ := hr.bytes (i - l.length) (by omega)
      rw [hb (by omega), show a + l.length + (i - l.length) = a + i by omega] at hc
      rw [List.getElem_append_right (by omega)]
      exact ⟨c, hc⟩
  · have := hr.all hok
    rw [List.length_append]
    omega
  · obtain ⟨h1, h2⟩ := hr.stop hok
    rw [List.length_append, ← Nat.add_assoc, ← hb (by omega)]
    exact ⟨by omega, fun hp => h2 (hP hp)⟩

theorem user_read (he : leaf m.entry r (va / PGSIZE) = some e) (hU : has e PTE_U = true) (hn : va % PGSIZE + n ≤ PGSIZE)
    (i : ℕ)
    (hi : i < (m.byte.read (PTE2PA e + va % PGSIZE) n).length) :
    user m r k (va + i) = some (has e PTE_W, (m.byte.read (PTE2PA e + va % PGSIZE) n)[i]) := by
  rw [Ram.length_read] at hi
  have hdiv : (va + i) / PGSIZE = va / PGSIZE := by
    unfold PGSIZE at *
    omega
  have hmod : (va + i) % PGSIZE = va % PGSIZE + i := by
    unfold PGSIZE at *
    omega
  rw [user_some (by rw [hdiv]; exact he), if_pos hU, hmod]
  simp only [Ram.read, List.getElem_map, List.getElem_range, Nat.add_assoc]

theorem sub_PGROUNDDOWN (va : ℕ) : va - PGROUNDDOWN va = va % PGSIZE := by
  unfold PGROUNDDOWN PGSIZE
  omega

theorem copyinLoop_spec {len : ℕ} (hg : Good Set.univ m r h) (hs : Space m r sz tf) (hz : Capped z sz E)
    (hfuel : len ≤ fuel) (dst : List UInt8) :
    Spec (copyinLoop ⟨z, r⟩ r fuel va len dst) m (fun res m' => Moves Set.univ r h h m m' ∧ Space m' r sz tf ∧
      Keeps r m m' ∧ user m' r (pages sz) = user m r (pages sz) ∧ ∃ l, res.2 = dst ++ l ∧
        Leaves r va l.length 0 res.1 m m' ∧
        Reads (user m r (pages sz)) va len l res.1 (Enough m r (pages sz) (va / PGSIZE) (pages (va + len)))) E := by
  induction fuel generalizing m va len dst with
  | zero =>
    obtain rfl : len = 0 := by omega
    exact Spec.pure ⟨hg.refl, hs, .of_leaf rfl, rfl, [], (List.append_nil dst).symm, .refl r va true m, Reads.nil⟩
  | succ fuel ih =>
    unfold copyinLoop
    refine Spec.ite (fun h0 => ?_) fun h0 => ?_
    · subst h0
      exact Spec.pure ⟨hg.refl, hs, .of_leaf rfl, rfl, [], (List.append_nil dst).symm, .refl r va true m, Reads.nil⟩
    have hkb : va / PGSIZE < pages (va + len) := lt_pages (by omega)
    refine Spec.bind (userPage_spec (k := va / PGSIZE) hg hs hz) ?_
    rintro w m1 ⟨hm1, hf⟩
    obtain ⟨hs1, huser, hkeep1, hfound, hen⟩ := hf.got hg hs hm1
    refine Spec.ite (fun hw => ?_) fun hw => ?_
    · refine Spec.pure ⟨hm1, hs1, hkeep1, huser, [], (List.append_nil dst).symm,
        ⟨fun _ => .inl rfl, fun k e y hk he hy _ => hf.frame hk he hy⟩, Nat.zero_le _,
        fun i hi => absurd hi (Nat.not_lt_zero i), (by simp), fun _ => ⟨Nat.pos_of_ne_zero h0, fun he => ?_⟩⟩
      exact (hen _ hkb he).2 hw va rfl
    obtain ⟨e, he, hU, rfl⟩ := hfound hw
    have hmod : va % PGSIZE < PGSIZE := Nat.mod_lt _ (by decide)
    dsimp only
    rw [sub_PGROUNDDOWN]
    refine Spec.bind_ok (a := m1.byte.read (PTE2PA e + va % PGSIZE) (min (PGSIZE - va % PGSIZE) len)) (t := m1) rfl ?_
    have hk : va / PGSIZE < 2 ^ 26 := ((hs1.user he hU).trans_le hs1.pages_le).trans (by decide)
    have hnext : (PGROUNDDOWN va + PGSIZE) % 2 ^ 64 = (va / PGSIZE + 1) * PGSIZE := by
      unfold PGROUNDDOWN PGSIZE at *
      omega
    rw [hnext]
    refine Spec.post (ih (hg.moves hm1) hs1 (by omega)
      (dst ++ m1.byte.read (PTE2PA e + va % PGSIZE) (min (PGSIZE - va % PGSIZE) len))) ?_
    rintro ⟨ok, res⟩ m2 ⟨hm2, hs2, hkeep2, huser2, l, hl, hlv, hr⟩
    rw [huser] at huser2 hr
    have hstart : len - min (PGSIZE - va % PGSIZE) len ≠ 0 →
        (va / PGSIZE + 1) * PGSIZE = va + min (PGSIZE - va % PGSIZE) len := by
      intro hne
      have := Nat.div_add_mod va PGSIZE
      unfold PGSIZE at *
      omega
    refine ⟨hm1.trans hm2, hs2, hkeep1.trans hkeep2, huser2, m1.byte.read (PTE2PA e + va % PGSIZE)
      (min (PGSIZE - va % PGSIZE) len) ++ l,
      by rw [hl, List.append_assoc], ?_, ?_⟩
    · rw [List.length_append, Ram.length_read]
      refine hlv.append (w := 0) hkeep1 (fun k e y hk he hy _ => hf.frame hk he hy) (Nat.mul_mod_left _ _)
        (fun hor => hstart ?_) (by simp)
      have := hr.stop (hor.resolve_right (by simp))
      omega
    rw [page_div] at hr
    refine Reads.append (b := (va / PGSIZE + 1) * PGSIZE)
      (Q := Enough m1 r (pages sz) (va / PGSIZE + 1) (pages ((va / PGSIZE + 1) * PGSIZE +
        (len - min (PGSIZE - va % PGSIZE) len))))
      ?_ ?_ ?_ ?_ ?_
    · rw [Ram.length_read]; exact min_le_right _ _
    · intro i hi
      rw [← huser]
      exact ⟨_, user_read he hU (by omega) i hi⟩
    · rw [Ram.length_read]
      exact hr
    · rw [Ram.length_read]
      exact hstart
    · exact fun henough => (hen _ hkb henough).1.next

/-- **Reading user memory.** -/
theorem copyin_spec (hg : Good Set.univ m r h) (hs : Space m r sz tf) (hz : Capped z sz E) (va len : ℕ) :
    Spec (copyin ⟨z, r⟩ r va len) m (fun res m' => Moves Set.univ r h h m m' ∧ Space m' r sz tf ∧
      Keeps r m m' ∧ user m' r (pages sz) = user m r (pages sz) ∧ Leaves r va res.2.length 0 res.1 m m' ∧
        Reads (user m r (pages sz)) va len res.2 res.1 (Enough m r (pages sz) (va / PGSIZE) (pages (va + len)))) E := by
  refine Spec.post (copyinLoop_spec hg hs hz le_rfl []) ?_
  rintro res m' ⟨h1, h2, h3, h4, l, hl, h5, h6⟩
  rw [List.nil_append] at hl
  rw [hl]
  exact ⟨h1, h2, h3, h4, h5, h6⟩

/-! ## `copyout` -/

/-- the first n bytes of l may be written at a; all of them if ok, else up to the first one that may not, if there was
enough memory -/
structure Writes (v : ℕ → Option (Bool × UInt8)) (a : ℕ) (l : List UInt8) (n : ℕ) (ok : Bool) (enough : Prop) :
    Prop where
  le : n ≤ l.length
  bytes : ∀ i, i < n → ∃ c, v (a + i) = some (true, c)
  all : ok = true → n = l.length
  stop : ok = false → n < l.length ∧ (enough → ∀ c, v (a + n) ≠ some (true, c))

theorem Writes.nil : Writes v a [] 0 true P :=
  ⟨le_rfl, fun i hi => absurd hi (Nat.not_lt_zero i), fun _ => rfl, (by simp)⟩

theorem Writes.append {n' : ℕ} {P' : Prop} (hle : n ≤ l.length) (hl : ∀ i, i < n → ∃ c, v (a + i) = some (true, c))
    (hw : Writes (overwrite v a (l.take n)) b (l.drop n) n' ok P') (hb : n < l.length → b = a + n) (hP : P → P') :
    Writes v a l (n + n') ok P ∧
      overwrite (overwrite v a (l.take n)) b ((l.drop n).take n') = overwrite v a (l.take (n + n')) := by
  have hlen := hw.le
  rw [List.length_drop] at hlen
  have htake : (l.take n).length = n := by rw [List.length_take]; omega
  have hout : ∀ i, n ≤ i → overwrite v a (l.take n) (a + i) = v (a + i) := fun i hi =>
    overwrite_out (.inr (by rw [htake]; omega))
  refine ⟨⟨by omega, fun i hi => ?_, fun hok => ?_, fun hok => ?_⟩, ?_⟩
  · by_cases hi' : i < n
    · exact hl i hi'
    · obtain ⟨c, hc⟩ := hw.bytes (i - n) (by omega)
      rw [hb (by omega), show a + n + (i - n) = a + i by omega, hout i (by omega)] at hc
      exact ⟨c, hc⟩
  · have := hw.all hok
    rw [List.length_drop] at this
    omega
  · obtain ⟨h1, h2⟩ := hw.stop hok
    rw [List.length_drop] at h1
    rw [hb (by omega), Nat.add_assoc, hout _ (by omega)] at h2
    exact ⟨by omega, fun hp => h2 (hP hp)⟩
  · rw [List.take_add]
    by_cases hn : n < l.length
    · rw [hb hn, ← overwrite_append, htake]
    · rw [List.drop_eq_nil_of_le (by omega), List.take_nil, List.append_nil, overwrite_nil]

/-- user memory lies below MAXVA -/
theorem user_lt_maxva (hs : Space m r sz tf) {x : Bool × UInt8} (hc : user m r (pages sz) va = some x) :
    va / PGSIZE < 2 ^ 26 := by
  have hF := hs.pages_le
  cases he : leaf m.entry r (va / PGSIZE) with
  | none =>
    rw [user_none he] at hc
    split_ifs at hc with hk
    exact (hk.trans_le hF).trans (by decide)
  | some e =>
    rw [user_some he] at hc
    split_ifs at hc with hU
    exact ((hs.user he hU).trans_le hF).trans (by decide)

/-- bytes put into the page of va go to the addresses from va on, and to no other of the process -/
theorem put_outside {e e' : ℕ} {k' y : ℕ} (hg : Good Set.univ m r h) (hs : Space m r sz tf)
    (he : leaf m.entry r (va / PGSIZE) = some e) (hU : has e PTE_U = true) (hl : l.length ≤ PGSIZE - va % PGSIZE)
    (hk' : k' < FRAME) (he' : leaf m.entry r k' = some e') (hy : y < PGSIZE)
    (hout : ¬ (va ≤ k' * PGSIZE + y ∧ k' * PGSIZE + y < va + l.length)) :
    (m.put (PTE2PA e + va % PGSIZE) l).byte (PTE2PA e' + y) = m.byte (PTE2PA e' + y) := by
  rw [byte_put]
  refine if_neg fun hin => hout ?_
  have h1 := PTE2PA_aligned e
  have h2 := PTE2PA_aligned e'
  have hpa : PTE2PA e' = PTE2PA e := by
    unfold PGSIZE at *
    omega
  have hkF := (hs.user he hU).trans_le hs.pages_le
  have := hg.users_inj hk' hkF he' he hpa
  have := Nat.div_add_mod va PGSIZE
  subst k'
  rw [Nat.mul_comm]
  omega

theorem copyoutLoop_spec (hg : Good Set.univ m r h) (hs : Space m r sz tf) (hz : Capped z sz E)
    (hfuel : l.length ≤ fuel) :
    Spec (copyoutLoop ⟨z, r⟩ r fuel va l) m (fun ok m' => Moves Set.univ r h h m m' ∧ Space m' r sz tf ∧ Keeps r m m' ∧
      ∃ n, user m' r (pages sz) = overwrite (user m r (pages sz)) va (l.take n) ∧ Leaves r va n n ok m m' ∧
        Writes (user m r (pages sz)) va l n ok (Enough m r (pages sz) (va / PGSIZE) (pages (va + l.length)))) E := by
  induction fuel generalizing m va l with
  | zero =>
    obtain rfl : l = [] := List.length_eq_zero_iff.mp (by omega)
    exact Spec.pure ⟨hg.refl, hs, .of_leaf rfl, 0, (by simp), .refl r va true m, Writes.nil⟩
  | succ fuel ih =>
    unfold copyoutLoop
    refine Spec.ite (fun h0 => ?_) fun h0 => ?_
    · subst h0
      exact Spec.pure ⟨hg.refl, hs, .of_leaf rfl, 0, (by simp), .refl r va true m, Writes.nil⟩
    have hpos : 0 < l.length := List.length_pos_iff.mpr h0
    have hkb : va / PGSIZE < pages (va + l.length) := lt_pages (by omega)
    -- nothing is written if the first byte may not be written
    have hstop : ∀ m', Moves Set.univ r h h m m' → Space m' r sz tf → Keeps r m m' → user m' r (pages sz) = user m
      r (pages sz) → Leaves r va 0 0 false m m' →
        (Enough m r (pages sz) (va / PGSIZE) (pages (va + l.length)) → ∀ c, user m r (pages sz) va ≠ some (true, c)) →
        Spec (pure false : VmM Bool) m' (fun ok m' => Moves Set.univ r h h m m' ∧ Space m' r sz tf ∧ Keeps r m m' ∧
          ∃ n, user m' r (pages sz) = overwrite (user m r (pages sz)) va (l.take n) ∧ Leaves r va n n ok m m' ∧
            Writes (user m r (pages sz)) va l n ok (Enough m r (pages sz) (va / PGSIZE) (pages (va + l.length))))
              E := by
      intro m' hm' hs' hk' hu hlv hc
      exact Spec.pure ⟨hm', hs', hk', 0, (by simpa using hu), hlv, Nat.zero_le _,
        fun i hi => absurd hi (Nat.not_lt_zero i), (by simp), fun _ => ⟨hpos, hc⟩⟩
    refine Spec.ite (fun hmax => hstop m hg.refl hs (.of_leaf rfl) rfl (.refl r va false m) fun _ c hc => ?_)
      fun hmax => ?_
    · have hlt := user_lt_maxva hs hc
      unfold MAXVA PGROUNDDOWN PGSIZE at *
      omega
    refine Spec.bind (userPage_spec (k := va / PGSIZE) hg hs hz) ?_
    rintro w m1 ⟨hm1, hf⟩
    obtain ⟨hs1, huser, hkeep1, hfound, hen⟩ := hf.got hg hs hm1
    have hlv1 : Leaves r va 0 0 false m m1 := ⟨fun _ => .inl rfl, fun k e y hk he hy _ => hf.frame hk he hy⟩
    refine Spec.ite (fun hw => hstop m1 hm1 hs1 hkeep1 huser hlv1 fun he c => ?_) fun hw => ?_
    · rw [(hen _ hkb he).2 hw va rfl]
      simp
    obtain ⟨e, he, hU, rfl⟩ := hfound hw
    have hk : va / PGSIZE < 2 ^ 26 := ((hs1.user he hU).trans_le hs1.pages_le).trans (by decide)
    have hva : va / PGSIZE * PGSIZE < MAXVA := page_lt_maxva hk
    obtain ⟨t, hlow, hval⟩ := leaf_low he
    obtain ⟨-, hent⟩ := valid_eq_some.mp hval
    refine Spec.bind_ok (walk_lookup (show PGROUNDDOWN va < MAXVA from hva)) ?_
    rw [show PGROUNDDOWN va / PGSIZE = va / PGSIZE from page_div _, hlow]
    refine Spec.bind_ok (loadPte_eq m1 t (va / PGSIZE % 512)) ?_
    rw [hent]
    have hbyte : user m r (pages sz) va = some (has e PTE_W, m1.byte (PTE2PA e + va % PGSIZE)) := by
      rw [← huser, user_some he, if_pos hU]
    refine Spec.ite (fun hW => hstop m1 hm1 hs1 hkeep1 huser hlv1 fun _ c => ?_) fun hW => ?_
    · rw [hbyte, hW]
      simp
    have hmod : va % PGSIZE < PGSIZE := Nat.mod_lt _ (by decide)
    have hW : has e PTE_W = true := by simpa using hW
    dsimp only
    rw [sub_PGROUNDDOWN]
    have hnext : (PGROUNDDOWN va + PGSIZE) % 2 ^ 64 = (va / PGSIZE + 1) * PGSIZE := by
      unfold PGROUNDDOWN PGSIZE at *
      omega
    rw [hnext]
    generalize hn : min (PGSIZE - va % PGSIZE) l.length = n
    have hnl : n ≤ l.length := by omega
    have htake : (l.take n).length = n := by rw [List.length_take]; omega
    obtain ⟨hm2, hl2, huser2⟩ := put_user (n := pages sz) (l := l.take n) (va % PGSIZE) (hg.moves hm1) hs1 he hU
      (by rw [htake]; omega)
    rw [Nat.mul_comm, Nat.div_add_mod, huser] at huser2
    refine Spec.bind_ok (a := ()) (t := m1.put (PTE2PA e + va % PGSIZE) (l.take n)) rfl ?_
    have hs2 : Space (m1.put (PTE2PA e + va % PGSIZE) (l.take n)) r sz tf := hs1.congr rfl hl2
    have hlen : (l.drop n).length = l.length - n := List.length_drop
    refine Spec.post (ih ((hg.moves hm1).moves hm2) hs2 (by rw [hlen]; omega)) ?_
    rintro ok m3 ⟨hm3, hs3, hkeep3, n', huser3, hlv3, hw3⟩
    rw [huser2] at huser3 hw3
    have henough : Enough m r (pages sz) (va / PGSIZE) (pages (va + l.length)) →
        Enough (m1.put (PTE2PA e + va % PGSIZE) (l.take n)) r (pages sz) ((va / PGSIZE + 1) * PGSIZE / PGSIZE)
          (pages ((va / PGSIZE + 1) * PGSIZE + (l.drop n).length)) := by
      intro he
      rw [page_div, hlen, ← hn]
      refine Enough.next ?_
      have h1 := (hen _ hkb he).1
      unfold Enough lazies at h1 ⊢
      rwa [hn, hl2]
    have hpage : ∀ i, i < n → ∃ c, user m r (pages sz) (va + i) = some (true, c) := by
      intro i hi
      have hdiv : (va + i) / PGSIZE = va / PGSIZE := by
        unfold PGSIZE at *
        omega
      have he' : leaf m1.entry r ((va + i) / PGSIZE) = some e := by rw [hdiv]; exact he
      rw [← huser, user_some he', if_pos hU, hW]
      exact ⟨_, rfl⟩
    have hstart : n < l.length → (va / PGSIZE + 1) * PGSIZE = va + n := by
      intro hlt
      have := Nat.div_add_mod va PGSIZE
      unfold PGSIZE at *
      omega
    obtain ⟨hwrites, hover⟩ := Writes.append hnl hpage hw3 hstart henough
    have hkeep2 := hkeep1.trans (.of_leaf hl2)
    have hput : ∀ k' e' y, k' < FRAME → leaf m.entry r k' = some e' → y < PGSIZE →
        ¬ (va ≤ k' * PGSIZE + y ∧ k' * PGSIZE + y < va + n) →
        (m1.put (PTE2PA e + va % PGSIZE) (l.take n)).byte (PTE2PA e' + y) = m.byte (PTE2PA e' + y) := by
      intro k' e' y hk' he' hy hout
      rw [← hf.frame hk' he' hy]
      exact put_outside (hg.moves hm1) hs1 he hU (by rw [htake]; omega) hk' (hkeep1 k' e' he') hy (by rwa [htake])
    refine ⟨(hm1.trans hm2).trans hm3, hs3, hkeep2.trans hkeep3, n + n', by rw [huser3, hover],
      hlv3.append hkeep2 hput (Nat.mul_mod_left _ _) (fun hor => hstart ?_) fun _ => rfl, hwrites⟩
    have hle := hw3.le
    rcases hor with hok | hne
    · have := (hw3.stop hok).1
      omega
    · omega

/-- **Writing user memory.** -/
theorem copyout_spec (hg : Good Set.univ m r h) (hs : Space m r sz tf) (hz : Capped z sz E) (va : ℕ)
    (l : List UInt8) :
    Spec (copyout ⟨z, r⟩ r va l) m (fun ok m' => Moves Set.univ r h h m m' ∧ Space m' r sz tf ∧ Keeps r m m' ∧
      ∃ n, user m' r (pages sz) = overwrite (user m r (pages sz)) va (l.take n) ∧ Leaves r va n n ok m m' ∧
        Writes (user m r (pages sz)) va l n ok (Enough m r (pages sz) (va / PGSIZE) (pages (va + l.length)))) E :=
  copyoutLoop_spec hg hs hz le_rfl

/-! ## `copyinstr` -/

/-- the bytes l before a NUL have been read at a, with the NUL if ok; else max of them, or up to the first one that is
not there -/
structure Scans (v : ℕ → Option (Bool × UInt8)) (a max : ℕ) (l : List UInt8) (ok : Bool) : Prop where
  le : l.length ≤ max
  bytes : ∀ i, (hi : i < l.length) → l[i] ≠ 0 ∧ ∃ c, v (a + i) = some (c, l[i])
  nul : ok = true → l.length < max ∧ ∃ c, v (a + l.length) = some (c, 0)
  stop : ok = false → l.length = max ∨ v (a + l.length) = none

theorem Scans.append (hle : l.length ≤ n)
    (hl : ∀ i, (hi : i < l.length) → l[i] ≠ 0 ∧ ∃ c, v (a + i) = some (c, l[i])) (hr : Scans v b (n - l.length) l' ok)
    (hb : n - l.length ≠ 0 → b = a + l.length) : Scans v a n (l ++ l') ok := by
  have hlen := hr.le
  refine ⟨by rw [List.length_append]; omega, fun i hi => ?_, fun hok => ?_, fun hok => ?_⟩
  · rw [List.length_append] at hi
    by_cases hi' : i < l.length
    · rw [List.getElem_append_left hi']
      exact hl i hi'
    · have hc := hr.bytes (i - l.length) (by omega)
      rw [hb (by omega), show a + l.length + (i - l.length) = a + i by omega] at hc
      rw [List.getElem_append_right (by omega)]
      exact hc
  · obtain ⟨h1, h2⟩ := hr.nul hok
    rw [hb (by omega), Nat.add_assoc] at h2
    rw [List.length_append]
    exact ⟨by omega, h2⟩
  · rw [List.length_append]
    by_cases h0 : n - l.length = 0
    · exact .inl (by omega)
    · rw [← Nat.add_assoc, ← hb h0]
      exact (hr.stop hok).imp_left fun h => by omega

theorem beforeNul_split (l : List UInt8) :
    (∀ c ∈ beforeNul l, c ≠ 0) ∧ (0 ∈ l → ∃ rest, l = beforeNul l ++ 0 :: rest) := by
  induction l with
  | nil => exact ⟨fun c hc => absurd hc List.not_mem_nil, fun hc => absurd hc List.not_mem_nil⟩
  | cons d l ih =>
    unfold beforeNul at ih ⊢
    rw [List.takeWhile_cons]
    by_cases hd : d = 0
    · subst hd
      exact ⟨(by simp), fun _ => ⟨l, (by simp)⟩⟩
    rw [if_pos (by simpa using hd)]
    refine ⟨fun c hc => ?_, fun h0 => ?_⟩
    · rcases List.mem_cons.mp hc with rfl | hc
      · exact hd
      · exact ih.1 c hc
    · obtain ⟨rest, hrest⟩ := ih.2 ((List.mem_cons.mp h0).resolve_left fun h => hd h.symm)
      exact ⟨rest, by rw [List.cons_append, ← hrest]⟩

theorem Scans.of_nul (h0 : 0 ∈ l) (hle : l.length ≤ n)
    (hl : ∀ i, (hi : i < l.length) → ∃ c, v (a + i) = some (c, l[i])) : Scans v a n (beforeNul l) true := by
  obtain ⟨hne, hsplit⟩ := beforeNul_split l
  obtain ⟨rest, hrest⟩ := hsplit h0
  generalize beforeNul l = pre at hne hrest ⊢
  subst hrest
  rw [List.length_append, List.length_cons] at hle
  refine ⟨by omega, fun i hi => ⟨hne _ (List.getElem_mem hi), ?_⟩, fun _ => ⟨by omega, ?_⟩, (by simp)⟩
  · obtain ⟨c, hc⟩ := hl i (by rw [List.length_append]; omega)
    rw [List.getElem_append_left hi] at hc
    exact ⟨c, hc⟩
  · obtain ⟨c, hc⟩ := hl pre.length (by simp)
    rw [List.getElem_append_right le_rfl] at hc
    exact ⟨c, by simpa using hc⟩

/-- the byte at an address below MAXVA in a mapped user page -/
def present (m : Mem) (r va : ℕ) : Option (Bool × UInt8) := if va < MAXVA then user m r 0 va else none

theorem copyinstrLoop_spec {max : ℕ}
    (hne : ∀ k e, leaf m.entry r k = some e → has e PTE_U = true → PTE2PA e ≠ 0) (hfuel : max ≤ fuel)
    (dst : List UInt8) :
    Spec (copyinstrLoop r fuel va max dst) m (fun res m' => m' = m ∧ ∃ l, Scans (present m r) va max l res.1 ∧
      res.2 = dst ++ l ++ if res.1 then [0] else []) E := by
  have hnil : ∀ a, Scans (present m r) a 0 [] false := fun a =>
    ⟨le_rfl, fun i hi => absurd hi (Nat.not_lt_zero i), (by simp), fun _ => .inl rfl⟩
  induction fuel generalizing va max dst with
  | zero =>
    obtain rfl : max = 0 := by omega
    exact Spec.pure ⟨rfl, [], hnil va, (by simp)⟩
  | succ fuel ih =>
    unfold copyinstrLoop
    refine Spec.ite (fun h0 => ?_) fun h0 => ?_
    · subst h0
      exact Spec.pure ⟨rfl, [], hnil va, (by simp)⟩
    have hstop : present m r va = none → Spec (pure (false, dst)) m (fun res m' => m' = m ∧
        ∃ l, Scans (present m r) va max l res.1 ∧ res.2 = dst ++ l ++ if res.1 then [0] else []) E := fun hv =>
      Spec.pure ⟨rfl, [], ⟨Nat.zero_le _, fun i hi => absurd hi (Nat.not_lt_zero i), (by simp), fun _ => .inr hv⟩,
        (by simp)⟩
    by_cases hk : va / PGSIZE < 2 ^ 26
    swap
    · have hmax : MAXVA ≤ PGROUNDDOWN va := by
        unfold MAXVA PGROUNDDOWN PGSIZE at *
        omega
      refine Spec.bind_ok (a := 0) (t := m) (by unfold walkaddr; rw [if_pos hmax]; rfl) ?_
      exact hstop (if_neg fun h0 => absurd (hmax.trans (Nat.div_mul_le_self va PGSIZE)) (not_le.mpr h0))
    have hlt : ∀ i, i < PGSIZE - va % PGSIZE → present m r (va + i) = user m r 0 (va + i) := fun i hi => if_pos (by
      unfold MAXVA PGSIZE at *
      omega)
    have hva : present m r va = user m r 0 va := if_pos (by
      unfold MAXVA PGSIZE at *
      omega)
    refine Spec.bind_ok (walkaddr_eq (k := va / PGSIZE) hk) (Spec.ite (fun hw => ?_) fun hw => ?_)
    · refine hstop ?_
      rw [hva]
      cases he : leaf m.entry r (va / PGSIZE) with
      | none => rw [user_none he, if_neg (Nat.not_lt_zero _)]
      | some e =>
        rw [user_some he]
        refine if_neg fun hU => hne _ _ he hU ?_
        rw [he] at hw
        unfold userAddr at hw
        dsimp only at hw
        rwa [if_pos hU] at hw
    · obtain ⟨e, he, hU, haddr⟩ : ∃ e, leaf m.entry r (va / PGSIZE) = some e ∧ has e PTE_U = true ∧
          userAddr (leaf m.entry r (va / PGSIZE)) = PTE2PA e := by
        cases he : leaf m.entry r (va / PGSIZE) with
        | none => rw [he] at hw; exact absurd rfl hw
        | some e =>
          have hU : has e PTE_U = true := by
            by_contra hU
            rw [he] at hw
            unfold userAddr at hw
            dsimp only at hw
            rw [if_neg hU] at hw
            exact hw rfl
          exact ⟨e, rfl, hU, if_pos hU⟩
      have hmod : va % PGSIZE < PGSIZE := Nat.mod_lt _ (by decide)
      dsimp only
      rw [sub_PGROUNDDOWN, haddr]
      generalize hn : min (PGSIZE - va % PGSIZE) max = n
      refine Spec.bind_ok (a := m.byte.read (PTE2PA e + va % PGSIZE) n) (t := m) rfl ?_
      have hread : ∀ i, (hi : i < (m.byte.read (PTE2PA e + va % PGSIZE) n).length) →
          ∃ c, present m r (va + i) = some (c, (m.byte.read (PTE2PA e + va % PGSIZE) n)[i]) := fun i hi => by
        rw [hlt i (by rw [Ram.length_read] at hi; omega)]
        exact ⟨_, user_read he hU (by omega) i hi⟩
      have hlen : (m.byte.read (PTE2PA e + va % PGSIZE) n).length = n := Ram.length_read _ _ _
      refine Spec.ite (fun hnul => ?_) fun hnul => ?_
      · exact Spec.pure ⟨rfl, _, Scans.of_nul hnul (by rw [hlen]; omega) hread, rfl⟩
      have hnext : (PGROUNDDOWN va + PGSIZE) % 2 ^ 64 = (va / PGSIZE + 1) * PGSIZE := by
        unfold PGROUNDDOWN PGSIZE at *
        omega
      rw [hnext]
      refine Spec.post (ih (by omega)
        (dst ++ m.byte.read (PTE2PA e + va % PGSIZE) n)) ?_
      rintro res m' ⟨hm, l, hsc, hres⟩
      refine ⟨hm, m.byte.read (PTE2PA e + va % PGSIZE) n ++ l,
        Scans.append (by rw [hlen]; omega) (fun i hi => ⟨?_, hread i hi⟩) (by rw [hlen]; exact hsc) fun hne => ?_,
        by rw [hres]; simp only [List.append_assoc]⟩
      · exact fun h0 => hnul (h0 ▸ List.getElem_mem hi)
      · rw [hlen] at hne ⊢
        have := Nat.div_add_mod va PGSIZE
        unfold PGSIZE at *
        omega

/-- **Reading a string.** -/
theorem copyinstr_spec (hg : Good Set.univ m r h) (hs : Space m r sz tf) (va max : ℕ) :
    Spec (copyinstr r va max) m (fun res m' => m' = m ∧ ∃ l, Scans (user m r 0) va max l res.1 ∧
      res.2 = l ++ if res.1 then [0] else []) E := by
  -- no user page is mapped from MAXVA on
  have hpres : present m r = user m r 0 := by
    funext a
    unfold present
    split_ifs with ha
    · rfl
    cases he : leaf m.entry r (a / PGSIZE) with
    | none => rw [user_none he, if_neg (Nat.not_lt_zero _)]
    | some e =>
      rw [user_some he]
      refine (if_neg fun hU => ha ?_).symm
      have := (hs.user he hU).trans_le hs.pages_le
      unfold FRAME at this
      unfold MAXVA PGSIZE at *
      omega
  refine Spec.post (copyinstrLoop_spec (fun k e he hU => (hs.usable hg he hU).2.ne_zero) le_rfl []) ?_
  rintro res m' ⟨hm, l, hsc, hres⟩
  rw [hpres] at hsc
  exact ⟨hm, l, hsc, hres⟩

end Xv6.Vm
