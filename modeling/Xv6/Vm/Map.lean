/-
Page tables as maps: `mappages`, `uvmunmap`, `uvmclear`.

- `page_table_is_map`: the three together, in terms of `translate`.
-/
import Xv6.Vm.Pages

namespace Xv6.Vm

open Xv6.Core
open Fs (PGSIZE)

variable {K : Set ℕ} {m m' m'' : Mem} {r t p a va k n i x e v pa perm size : ℕ} {h h' : Multiset ℕ} {E : Panic → Prop}
  {gone : List ℕ}

/-! ## One entry of the lowest level -/

theorem setPte_leaf (ht : Tree m.entry r) (hl : low m.entry r (k / 512) = some t) (hv : v < 256 ^ 8) :
    Tree (m.setPte (t + 8 * (k % 512)) v).entry r ∧ mid (m.setPte (t + 8 * (k % 512)) v).entry r = mid m.entry r ∧
      low (m.setPte (t + 8 * (k % 512)) v).entry r = low m.entry r ∧
      leaf (m.setPte (t + 8 * (k % 512)) v).entry r = Function.update (leaf m.entry r) k (valid v) := by
  have hta := ht.tables_aligned (low_mem_tables hl)
  have hi : k % 512 < 512 := Nat.mod_lt _ (by decide)
  -- an address that is not aligned is no page-table page
  have hc : r + 1 ∉ tables m.entry r := fun hmem => by
    have h0 := ht.aligned
    have h1 := ht.tables_aligned hmem
    unfold PGSIZE at h0 h1
    omega
  have hset := ht.setLeaf hl hi hc fun t' ht' _ i' hi' hne =>
    entry_setPte_ne (v := v) hta (ht.tables_aligned ht') hi hi' hne
  rw [entry_setPte_self hv, show k / 512 * 512 + k % 512 = k by omega] at hset
  exact hset

/-- only an entry of the lowest level changes: no page moves -/
theorem Good.grows_setPte (hg : Good ∅ m r h) (hl : low m.entry r (k / 512) = some t) (hv : v < 256 ^ 8) :
    Grows r h m (m.setPte (t + 8 * (k % 512)) v) := by
  obtain ⟨htree, hmid, hlow, -⟩ := setPte_leaf hg.tree hl hv
  refine ⟨⟨htree, ?_⟩, List.suffix_rfl⟩
  rw [pagesOf_empty, pagesOf_empty, tables_of_eq hmid hlow]
  exact shuffle_of_page (p := t) (Multiset.mem_add.mpr (.inl (low_mem_tables hl)))
    (fun x hx => byte_setPte_out (hg.tree.tables_aligned (low_mem_tables hl)) (Nat.mod_lt _ (by decide)) hx) rfl rfl rfl

theorem loadPte_eq (m : Mem) (t i : ℕ) : loadPte (t + 8 * i) m = .ok (m.entry t i, m) := rfl

theorem page_div (k : ℕ) : k * PGSIZE / PGSIZE = k := Nat.mul_div_cancel k (by decide)

/-! ## `mappages` -/

/-- the entry that `mappages` writes -/
def pteOf (pa perm : ℕ) : ℕ := PA2PTE pa ||| perm ||| PTE_V

theorem pteOf_facts (hpa : pa < 2 ^ 64) (hperm : perm < 2 ^ 10) :
    has (pteOf pa perm) PTE_V = true ∧ pteOf pa perm < 256 ^ 8 ∧ PTE_FLAGS (pteOf pa perm) = perm ||| PTE_V ∧
      (pa % PGSIZE = 0 → PTE2PA (pteOf pa perm) = pa) := by
  have hf : perm ||| PTE_V < 2 ^ 10 := Nat.or_lt_two_pow hperm (by decide)
  unfold pteOf
  rw [Nat.or_assoc]
  refine ⟨?_, PA2PTE_lt hpa hf, PTE_FLAGS_PA2PTE hpa hf, fun hal => PTE2PA_PA2PTE hpa hal hf⟩
  have hor : (perm ||| PTE_V) % 2 = 1 := by
    show (perm ||| 1) % 2 = 1
    rw [Nat.or_mod_two_eq_one]
    exact .inr rfl
  rw [has_V, PA2PTE_or hpa hf]
  omega

/-- f with the n pages from k on mapped -/
def mapped (f : ℕ → Option ℕ) (k n pa perm : ℕ) : ℕ → Option ℕ := fun x =>
  if k ≤ x ∧ x < k + n then some (pteOf ((pa + (x - k) * PGSIZE) % 2 ^ 64) perm) else f x

theorem mapped_zero (f : ℕ → Option ℕ) (k pa perm : ℕ) : mapped f k 0 pa perm = f := by
  funext x
  unfold mapped
  rw [if_neg (by omega)]

theorem mapped_succ (f : ℕ → Option ℕ) (k n : ℕ) (hpa : pa < 2 ^ 64) :
    mapped (Function.update f k (some (pteOf pa perm))) (k + 1) n ((pa + PGSIZE) % 2 ^ 64) perm =
      mapped f k (n + 1) pa perm := by
  funext x
  unfold mapped
  by_cases hx : x = k
  · subst hx
    rw [if_neg (by omega), Function.update_self, if_pos (by omega), Nat.sub_self, Nat.zero_mul, Nat.add_zero,
      Nat.mod_eq_of_lt hpa]
  rw [Function.update_of_ne hx]
  by_cases hin : k + 1 ≤ x ∧ x < k + 1 + n
  · rw [if_pos hin, if_pos (by omega)]
    have hpage : (x - k) * PGSIZE = PGSIZE + (x - (k + 1)) * PGSIZE := by
      rw [show x - k = (x - (k + 1)) + 1 by omega]
      ring
    rw [hpage, ← Nat.add_assoc, Nat.mod_add_mod]
  · rw [if_neg hin, if_neg (by omega)]

/-- the loop of `mappages`: the panic in `walk` is not excluded -/
theorem mappagesLoop_spec (hg : Good ∅ m r h) (hk : k ≤ 2 ^ 26) (hpa : pa < 2 ^ 64) (hperm : perm < 2 ^ 10)
    (hroom : k + n ≤ 2 ^ 26 ∨ E .walk) (hfree : ∀ x, k ≤ x → x < k + n → leaf m.entry r x = none) :
    Spec (mappagesLoop r perm n (k * PGSIZE) pa) m (fun ok m' => Grows r h m m' ∧
      (ok = true → k + n ≤ 2 ^ 26 ∧ leaf m'.entry r = mapped (leaf m.entry r) k n pa perm) ∧
      (ok = false → ∃ j, j < n ∧ leaf m'.entry r = mapped (leaf m.entry r) k j pa perm)) E := by
  induction n generalizing m k pa with
  | zero => exact Spec.pure ⟨hg.grows, fun _ => ⟨hk, (mapped_zero _ _ _ _).symm⟩, fun hf => by cases hf⟩
  | succ n ih =>
    unfold mappagesLoop
    by_cases hlt : k < 2 ^ 26
    case neg =>
      have hE : E .walk := hroom.resolve_left (by omega)
      have hge : k * PGSIZE ≥ MAXVA := by
        rw [maxva_eq]
        exact Nat.mul_le_mul_right _ (by omega)
      unfold walk
      rw [if_pos hge]
      exact hE
    case pos =>
      have hva : k * PGSIZE < MAXVA := page_lt_maxva hlt
      refine Spec.bind (walk_alloc_spec hg hva) ?_
      rintro o m1 ⟨hm1, hleaf1, hpte⟩
      rw [page_div] at hpte
      cases o with
      | none =>
        exact Spec.pure ⟨hm1, (by simp), fun _ => ⟨0, by omega, by rw [hleaf1, mapped_zero]⟩⟩
      | some pte =>
        obtain ⟨t, hlow, rfl⟩ := hpte pte rfl
        refine Spec.bind_ok (loadPte_eq m1 t (k % 512)) ?_
        have hnone : valid (m1.entry t (k % 512)) = none := by
          rw [← leaf_of_low hlow, hleaf1]
          exact hfree k le_rfl (by omega)
        rw [if_neg (by rw [valid_eq_none.mp hnone]; decide)]
        obtain ⟨hvalid, hbound, -⟩ := pteOf_facts hpa hperm
        have hg1 := hg.moves hm1.toMoves
        have hm2 : Grows r h m1 (m1.setPte (t + 8 * (k % 512)) (pteOf pa perm)) := hg1.grows_setPte hlow hbound
        have hleaf2 := (setPte_leaf hg1.tree hlow hbound).2.2.2
        rw [hleaf1, show valid (pteOf pa perm) = some (pteOf pa perm) from valid_eq_some.mpr ⟨hvalid, rfl⟩] at hleaf2
        refine Spec.bind_ok (a := ()) (t := m1.setPte (t + 8 * (k % 512)) (pteOf pa perm)) rfl ?_
        rw [show (k * PGSIZE + PGSIZE) % 2 ^ 64 = (k + 1) * PGSIZE by unfold PGSIZE; omega]
        refine Spec.post (ih (hg1.moves hm2.toMoves) (by omega) (Nat.mod_lt _ (by decide)) (hroom.imp_left (by omega))
          fun x hx hx' => ?_) ?_
        · rw [hleaf2, Function.update_of_ne (by omega)]
          exact hfree x (by omega) (by omega)
        rintro ok m3 ⟨hm3, htrue, hfalse⟩
        rw [hleaf2] at htrue hfalse
        refine ⟨(hm1.trans hm2).trans hm3, fun hok => ?_, fun hok => ?_⟩
        · obtain ⟨hle, hl⟩ := htrue hok
          exact ⟨by omega, by rw [hl, mapped_succ _ _ _ hpa]⟩
        · obtain ⟨j, hj, hl⟩ := hfalse hok
          exact ⟨j + 1, by omega, by rw [hl, mapped_succ _ _ _ hpa]⟩

/-- **Mapping a range** of pages that are not mapped. -/
theorem mappages_spec (va size pa perm : ℕ) (hg : Good ∅ m r h) (hva : va % PGSIZE = 0) (hsize : size % PGSIZE = 0)
    (hpos : 0 < size)
    (hpa : pa < 2 ^ 64) (hperm : perm < 2 ^ 10) (hmax : va < MAXVA)
    (hroom : va + size ≤ MAXVA ∨ E .walk)
    (hfree : ∀ x, va / PGSIZE ≤ x → x < va / PGSIZE + size / PGSIZE → leaf m.entry r x = none) :
    Spec (mappages r va size pa perm) m (fun ok m' => Grows r h m m' ∧
      (ok = true → va + size ≤ MAXVA ∧
        leaf m'.entry r = mapped (leaf m.entry r) (va / PGSIZE) (size / PGSIZE) pa perm) ∧
      (ok = false → ∃ j, j < size / PGSIZE ∧ leaf m'.entry r = mapped (leaf m.entry r) (va / PGSIZE) j pa perm)) E := by
  have hva' : va / PGSIZE * PGSIZE = va := Nat.div_mul_cancel (Nat.dvd_of_mod_eq_zero hva)
  have hsz' : size / PGSIZE * PGSIZE = size := Nat.div_mul_cancel (Nat.dvd_of_mod_eq_zero hsize)
  have hiff : va + size ≤ MAXVA ↔ va / PGSIZE + size / PGSIZE ≤ 2 ^ 26 := by
    rw [maxva_eq]
    unfold PGSIZE at *
    omega
  unfold mappages
  rw [if_neg (not_not.mpr hva), if_neg (not_not.mpr hsize), if_neg (by omega)]
  have hloop := mappagesLoop_spec (E := E) (n := size / PGSIZE) (k := va / PGSIZE) hg
    (by rw [maxva_eq] at hmax; unfold PGSIZE at *; omega) hpa hperm (hroom.imp_left hiff.mp) hfree
  rw [hva'] at hloop
  refine Spec.post hloop fun ok m' ⟨hm, htrue, hfalse⟩ => ⟨hm, fun hok => ?_, hfalse⟩
  exact ⟨hiff.mpr (htrue hok).1, (htrue hok).2⟩

/-- **Mapping one page** that is not mapped: if there is not enough memory, at either level, no mapping changes. -/
theorem mapPage_spec (hg : Good ∅ m r h) (hk : k < 2 ^ 26) (hpa : pa < 2 ^ 64) (hperm : perm < 2 ^ 10)
    (hfree : leaf m.entry r k = none) :
    Spec (mappages r (k * PGSIZE) PGSIZE pa perm) m (fun ok m' => Grows r h m m' ∧ leaf m'.entry r =
      if ok = true then Function.update (leaf m.entry r) k (some (pteOf pa perm)) else leaf m.entry r) E := by
  have hone : PGSIZE / PGSIZE = 1 := by decide
  have hmax : k * PGSIZE + PGSIZE ≤ MAXVA := by
    rw [maxva_eq, ← Nat.succ_mul]
    exact Nat.mul_le_mul_right _ hk
  refine Spec.post (mappages_spec (E := E) _ _ _ perm hg (Nat.mul_mod_left _ _) (Nat.mod_self _) (by decide) hpa hperm
    (by rw [← Nat.add_one_le_iff]; exact (Nat.add_le_add_left (by decide) _).trans hmax) (.inl hmax) fun x hx hx' =>
      ?_) ?_
  · rw [page_div] at hx hx'
    rw [hone] at hx'
    rw [show x = k by omega]
    exact hfree
  · rintro ok m' ⟨hm, htrue, hfalse⟩
    refine ⟨hm, ?_⟩
    rw [page_div, hone] at htrue hfalse
    cases ok with
    | false =>
      obtain ⟨j, hj, hl⟩ := hfalse rfl
      rw [hl, show j = 0 by omega, mapped_zero]
      rfl
    | true =>
      rw [(htrue rfl).2, ← mapped_succ _ _ _ hpa, mapped_zero]
      rfl

/-! ## `uvmunmap` -/

/-- some entries of the lowest level and the contents of some pages change, and the pages go to the free list -/
structure Unmaps (r : ℕ) (gone : List ℕ) (m m' : Mem) : Prop where
  tree : Tree m'.entry r
  mid : mid m'.entry r = mid m.entry r
  low : low m'.entry r = low m.entry r
  free : m'.free = gone ++ m.free
  frame : ∀ x, PGROUNDDOWN x ∉ tables m.entry r → PGROUNDDOWN x ∉ gone → m'.byte x = m.byte x
  kend : m'.kend = m.kend
  trampoline : m'.trampoline = m.trampoline

theorem Unmaps.tables (hu : Unmaps r gone m m') : tables m'.entry r = Vm.tables m.entry r :=
  tables_of_eq hu.mid hu.low

theorem Unmaps.refl (ht : Tree m.entry r) : Unmaps r [] m m := ⟨ht, rfl, rfl, rfl, fun _ _ _ => rfl, rfl, rfl⟩

theorem Unmaps.trans {g g' : List ℕ} (h1 : Unmaps r g m m') (h2 : Unmaps r g' m' m'') : Unmaps r (g' ++ g) m m'' := by
  refine ⟨h2.tree, h2.mid.trans h1.mid, h2.low.trans h1.low, ?_, fun x hx hg => ?_, h2.kend.trans h1.kend,
    h2.trampoline.trans h1.trampoline⟩
  · rw [h2.free, h1.free, List.append_assoc]
  · rw [List.mem_append, not_or] at hg
    rw [h2.frame x (by rw [h1.tables]; exact hx) hg.1]
    exact h1.frame x hx hg.2

/-- the pages at the n page numbers from k on, the last one first -/
def removed (f : ℕ → Option ℕ) (k : ℕ) : ℕ → List ℕ
  | 0 => []
  | n + 1 => removed f (k + 1) n ++ ((f k).map PTE2PA).toList

/-- the pages that may be freed: pages of the allocator that are not page-table pages -/
def Freeable (m : Mem) (r : ℕ) (o : Option ℕ) : Prop :=
  ∀ e, o = some e → PTE2PA e ∉ tables m.entry r ∧ m.kend ≤ PTE2PA e ∧ PTE2PA e < PHYSTOP

theorem Unmaps.freeable (hu : Unmaps r gone m m') {o : Option ℕ} (hf : Freeable m r o) :
    Freeable m' r o := by
  unfold Freeable
  rw [hu.tables, hu.kend]
  exact hf

/-- f without the n pages from k on -/
def without (f : ℕ → Option ℕ) (k n : ℕ) : ℕ → Option ℕ := fun x => if k ≤ x ∧ x < k + n then none else f x

theorem without_zero (f : ℕ → Option ℕ) (k : ℕ) : without f k 0 = f := by
  funext x
  unfold without
  rw [if_neg (by omega)]

theorem without_succ (f : ℕ → Option ℕ) (k n : ℕ) :
    without (Function.update f k none) (k + 1) n = without f k (n + 1) := by
  funext x
  unfold without
  by_cases hx : x = k
  · subst hx
    rw [if_neg (by omega), Function.update_self, if_pos (by omega)]
  · rw [Function.update_of_ne hx]
    exact if_congr (by omega) rfl rfl

theorem removed_congr {f g : ℕ → Option ℕ} (hfg : ∀ x, k ≤ x → f x = g x) : removed f k n = removed g k n := by
  induction n generalizing k with
  | zero => rfl
  | succ n ih =>
    unfold removed
    rw [hfg k le_rfl, ih fun x hx => hfg x (by omega)]

/-- `*pte = 0` -/
theorem clearPte_unmaps (ht : Tree m.entry r) (hl : low m.entry r (k / 512) = some t) :
    Unmaps r [] m (m.setPte (t + 8 * (k % 512)) 0) ∧
      leaf (m.setPte (t + 8 * (k % 512)) 0).entry r = Function.update (leaf m.entry r) k none := by
  obtain ⟨htree, hmid, hlow, hleaf⟩ := setPte_leaf (v := 0) ht hl (by decide)
  refine ⟨⟨htree, hmid, hlow, rfl, fun x hx _ => ?_, rfl, rfl⟩, hleaf⟩
  exact byte_setPte_out (ht.tables_aligned (low_mem_tables hl)) (Nat.mod_lt _ (by decide)) fun e =>
    hx (e ▸ low_mem_tables hl)

/-- `kfree` of a page that is not a page-table page -/
theorem kfree_unmaps (ht : Tree m.entry r) (hp : p ∉ tables m.entry r) (hal : p % PGSIZE = 0) (hlo : m.kend ≤ p)
    (hhi : p < PHYSTOP) : Spec (kfree p) m (fun _ m' => Unmaps r [p] m m' ∧ leaf m'.entry r = leaf m.entry r) E := by
  have hb : ∀ x, PGROUNDDOWN x ≠ p → (m.fillPage p 1).byte x = m.byte x := fun x hx => byte_fillPage_out hal hx
  have hs : Still r m { m.fillPage p 1 with free := p :: m.free } :=
    still_of_frame ht fun x hx => hb x fun e => hp (e ▸ hx)
  unfold kfree
  refine Spec.bind_ok rfl (Spec.ite (fun hbad => ?_) fun _ => Spec.of_ok rfl ⟨⟨hs.tree, hs.mid, hs.low, rfl,
    ?_, rfl, rfl⟩,
    hs.leaf⟩)
  · exfalso
    rcases hbad with h1 | h1 | h1
    · exact h1 hal
    · omega
    · omega
  · intro x _ hx
    exact hb x fun e => hx (e ▸ List.mem_cons_self)

/-- one round of the loop of `uvmunmap` -/
theorem unmapPage_spec (ht : Tree m.entry r) (hk : k < 2 ^ 26) (doFree : Bool)
    (hf : doFree = true → Freeable m r (leaf m.entry r k)) :
    Spec (unmapPage r (k * PGSIZE) doFree) m (fun _ m' =>
      Unmaps r (if doFree then ((leaf m.entry r k).map PTE2PA).toList else []) m m' ∧
      leaf m'.entry r = Function.update (leaf m.entry r) k none) E := by
  have hva : k * PGSIZE < MAXVA := page_lt_maxva hk
  -- a page that is not mapped stays so
  have hsame : leaf m.entry r k = none →
      Unmaps r (if doFree then ((leaf m.entry r k).map PTE2PA).toList else []) m m ∧
        leaf m.entry r = Function.update (leaf m.entry r) k none := by
    intro hnone
    rw [← hnone, Function.update_eq_self, hnone]
    refine ⟨?_, rfl⟩
    cases doFree <;> exact Unmaps.refl ht
  unfold unmapPage
  refine Spec.bind_ok (walk_lookup hva) ?_
  rw [page_div]
  cases hlow : low m.entry r (k / 512) with
  | none => exact Spec.pure (hsame (leaf_none_of_low hlow))
  | some t =>
    refine Spec.bind_ok (loadPte_eq m t (k % 512)) (Spec.ite (fun hv => Spec.pure (hsame ?_)) fun hv => ?_)
    · rw [leaf_of_low hlow]; exact valid_eq_none.mpr hv
    have hleaf : leaf m.entry r k = some (m.entry t (k % 512)) := by
      rw [leaf_of_low hlow]
      exact valid_eq_some.mpr ⟨by simpa using hv, rfl⟩
    cases doFree with
    | false => exact Spec.of_ok rfl (clearPte_unmaps ht hlow)
    | true =>
      obtain ⟨hnot, hlo, hhi⟩ := hf rfl _ hleaf
      refine Spec.bind (kfree_unmaps ht hnot (PTE2PA_aligned _) hlo hhi) fun _ m1 ⟨hu, hl1⟩ => ?_
      obtain ⟨hu2, hl2⟩ := clearPte_unmaps hu.tree (k := k) (t := t) (by rw [hu.low]; exact hlow)
      rw [hleaf, if_pos rfl]
      rw [hl1] at hl2
      exact Spec.of_ok rfl ⟨hu.trans hu2, hl2⟩

theorem uvmunmapLoop_spec (ht : Tree m.entry r) (hk : k + n ≤ 2 ^ 26) (doFree : Bool)
    (hf : doFree = true → ∀ x, k ≤ x → x < k + n → Freeable m r (leaf m.entry r x)) :
    Spec (uvmunmapLoop r doFree n (k * PGSIZE)) m (fun _ m' =>
      Unmaps r (if doFree then removed (leaf m.entry r) k n else []) m m' ∧
      leaf m'.entry r = without (leaf m.entry r) k n) E := by
  induction n generalizing m k with
  | zero =>
    rw [without_zero]
    refine Spec.pure ⟨?_, rfl⟩
    cases doFree <;> exact Unmaps.refl ht
  | succ n ih =>
    refine Spec.bind (unmapPage_spec ht (by omega) doFree fun hd => hf hd k le_rfl (by omega)) ?_
    rintro _ m1 ⟨hu1, hl1⟩
    rw [show k * PGSIZE + PGSIZE = (k + 1) * PGSIZE by ring]
    refine Spec.post (ih hu1.tree (by omega) fun hd x hx hx' => ?_) ?_
    · rw [hl1, Function.update_of_ne (by omega)]
      exact hu1.freeable (hf hd x (by omega) (by omega))
    rintro _ m2 ⟨hu2, hl2⟩
    rw [hl1] at hu2 hl2
    refine ⟨?_, by rw [hl2, without_succ]⟩
    have htr := hu1.trans hu2
    cases doFree with
    | false => exact htr
    | true =>
      rw [if_pos rfl, if_pos rfl, removed_congr (g := leaf m.entry r) fun x hx => Function.update_of_ne
        (by omega) _ _]
        at htr
      exact htr

/-- **Unmapping a range.** Exactly the mappings of the range are removed, and their pages are freed, each once, if that
is asked for and they are pages of the allocator other than page-table pages. -/
theorem uvmunmap_spec (ht : Tree m.entry r) (hk : k + n ≤ 2 ^ 26) (doFree : Bool)
    (hf : doFree = true → ∀ x, k ≤ x → x < k + n → Freeable m r (leaf m.entry r x)) :
    Spec (uvmunmap r (k * PGSIZE) n doFree) m (fun _ m' =>
      Unmaps r (if doFree then removed (leaf m.entry r) k n else []) m m' ∧
      leaf m'.entry r = without (leaf m.entry r) k n) E := by
  have hrounds : ((k * PGSIZE + n * PGSIZE) % 2 ^ 64 - k * PGSIZE) / PGSIZE = n := by
    have : (k + n) * PGSIZE < 2 ^ 64 := (Nat.mul_le_mul_right PGSIZE hk).trans_lt (by decide)
    rw [← Nat.add_mul, Nat.mod_eq_of_lt this, ← Nat.sub_mul, Nat.add_sub_cancel_left, page_div]
  unfold uvmunmap
  rw [if_neg (by simp), hrounds]
  exact uvmunmapLoop_spec ht hk doFree hf

/-! ## `uvmclear` -/

/-- all bits but PTE_U -/
def notU : ℕ := 2 ^ 64 - 1 - PTE_U

theorem notU_facts (he : e < 2 ^ 64) : has (e &&& notU) PTE_V = has e PTE_V ∧ PTE2PA (e &&& notU) = PTE2PA e ∧
    PTE_FLAGS (e &&& notU) = PTE_FLAGS e &&& (0x3FF - PTE_U) ∧ e &&& notU < 256 ^ 8 := by
  refine ⟨?_, ?_, ?_, ?_⟩
  · unfold has
    rw [Nat.and_assoc, show notU &&& PTE_V = PTE_V by decide]
  · unfold PTE2PA
    have hlt : e >>> 10 < 2 ^ 54 := by
      rw [Nat.shiftRight_eq_div_pow]
      omega
    rw [Nat.shiftRight_and_distrib, show notU >>> 10 = 2 ^ 54 - 1 by decide, Nat.and_two_pow_sub_one_eq_mod,
      Nat.mod_eq_of_lt hlt]
  · unfold PTE_FLAGS
    rw [Nat.and_assoc, Nat.and_assoc, show notU &&& 0x3FF = 0x3FF &&& (0x3FF - PTE_U) by decide]
  · exact (Nat.and_le_left).trans_lt he

/-- **Clearing the user bit** of one page. -/
theorem uvmclear_spec (ht : Tree m.entry r) (hva : va < MAXVA) (hk : va / PGSIZE = k)
    (hlow : low m.entry r (k / 512) ≠ none ∨ E .uvmclear) :
    Spec (uvmclear r va) m (fun _ m' => Unmaps r [] m m' ∧
      leaf m'.entry r = Function.update (leaf m.entry r) k ((leaf m.entry r k).map (· &&& notU))) E := by
  unfold uvmclear
  refine Spec.bind_ok (walk_lookup hva) ?_
  rw [hk]
  cases hl : low m.entry r (k / 512) with
  | none => exact hlow.resolve_left (not_not.mpr hl)
  | some t =>
    obtain ⟨hV, -, -, hlt⟩ := notU_facts (entry_lt m t (k % 512))
    obtain ⟨htree, hmid, hlow', hleaf⟩ := setPte_leaf ht hl hlt
    have hvalid : valid (m.entry t (k % 512) &&& notU) = (valid (m.entry t (k % 512))).map (· &&& notU) := by
      unfold valid
      rw [hV]
      split_ifs <;> rfl
    refine Spec.bind_ok (loadPte_eq m t (k % 512)) (Spec.of_ok rfl ⟨⟨htree, hmid, hlow', rfl, ?_, rfl, rfl⟩, ?_⟩)
    · intro x hx _
      exact byte_setPte_out (ht.tables_aligned (low_mem_tables hl)) (Nat.mod_lt _ (by decide)) fun e =>
        hx (e ▸ low_mem_tables hl)
    · rw [leaf_of_low hl, ← hvalid]
      exact hleaf

/-! ## The translation -/

/-- what page number k is mapped to: the physical page and the flags of the entry that `walk` finds -/
def translate (m : Mem) (r k : ℕ) : Option (ℕ × ℕ) :=
  match walk r (k * PGSIZE) false m with
  | .ok (some pte, _) =>
    let e := m.byte.load 8 pte
    if has e PTE_V then some (PTE2PA e, PTE_FLAGS e) else none
  | _ => none

theorem translate_eq (hk : k < 2 ^ 26) :
    translate m r k = (leaf m.entry r k).map fun e => (PTE2PA e, PTE_FLAGS e) := by
  have hva : k * PGSIZE < MAXVA := page_lt_maxva hk
  unfold translate leaf
  rw [walk_lookup hva, page_div]
  cases low m.entry r (k / 512) with
  | none => rfl
  | some t =>
    show (if has (m.entry t (k % 512)) PTE_V = true then some _ else none) = (valid (m.entry t (k % 512))).map _
    unfold valid
    split_ifs <;> rfl

theorem translate_none (hk : k < 2 ^ 26) : translate m r k = none ↔ leaf m.entry r k = none := by
  rw [translate_eq hk, Option.map_eq_none_iff]

theorem removed_eq (f : ℕ → Option ℕ) (k n : ℕ) :
    removed f k n = ((List.range n).filterMap fun i => (f (k + i)).map PTE2PA).reverse := by
  induction n generalizing k with
  | zero => rfl
  | succ n ih =>
    rw [removed, ih, List.range_succ_eq_map, List.filterMap_cons, List.filterMap_map]
    have hshift : (fun i => (f (k + 1 + i)).map PTE2PA) = (fun i => (f (k + i)).map PTE2PA) ∘ Nat.succ := by
      funext i
      show _ = (f (k + (i + 1))).map PTE2PA
      rw [show k + 1 + i = k + (i + 1) by omega]
    rw [hshift]
    cases f k with
    | none => simp
    | some e => simp

theorem translate_mapped (hpa : pa % PGSIZE = 0) (hmax : pa + n * PGSIZE ≤ 2 ^ 64) (hperm : perm < 2 ^ 10)
    (hx : x < 2 ^ 26)
    (hl : leaf m'.entry r = mapped (leaf m.entry r) k n pa perm) :
    translate m' r x =
      if k ≤ x ∧ x < k + n then some (pa + (x - k) * PGSIZE, perm ||| PTE_V) else translate m r x := by
  rw [translate_eq hx, hl]
  unfold mapped
  split_ifs with hin
  · have hlt : pa + (x - k) * PGSIZE < 2 ^ 64 := by
      unfold PGSIZE at hmax ⊢
      omega
    obtain ⟨-, -, hflags, haddr⟩ := pteOf_facts hlt hperm
    rw [Nat.mod_eq_of_lt hlt, Option.map_some, hflags, haddr (by unfold PGSIZE at hpa ⊢; omega)]
  · exact (translate_eq hx).symm

theorem run_of_spec {α : Type} {f : VmM α} {Q : α → Mem → Prop} (hs : Spec f m Q fun _ => False) :
    ∃ a m', f m = .ok (a, m') ∧ Q a m' := by
  cases hf : f m with
  | ok w => exact ⟨w.1, w.2, rfl, hs.ok hf⟩
  | error e => exact (hs.error hf).elim

/-- **A page table is a map.** On a well-formed page table of pages of the allocator, apart from the free ones:
`mappages` on a range that is not mapped adds exactly the mappings of the range, or fails, and then, for one page,
changes no translation; `uvmunmap` removes exactly the mappings of its range, and frees every removed page once if that
is asked for, as long as the pages to be freed are pages of the allocator other than page-table pages; `uvmclear`
changes the user bit of one page; and the page table stays well formed. -/
theorem page_table_is_map (hg : Good ∅ m r 0) :
    (∀ k n pa perm, 0 < n → k + n ≤ MAXVA / PGSIZE → pa % PGSIZE = 0 → pa + n * PGSIZE ≤ 2 ^ 64 → perm < 2 ^ 10 →
      (∀ x, k ≤ x → x < k + n → translate m r x = none) →
      ∃ ok m', mappages r (k * PGSIZE) (n * PGSIZE) pa perm m = .ok (ok, m') ∧ Good ∅ m' r 0 ∧
        (ok = true → ∀ x, x < MAXVA / PGSIZE → translate m' r x =
          if k ≤ x ∧ x < k + n then some (pa + (x - k) * PGSIZE, perm ||| PTE_V) else translate m r x) ∧
        (ok = false → n = 1 → ∀ x, x < MAXVA / PGSIZE → translate m' r x = translate m r x)) ∧
    (∀ k n doFree, k + n ≤ MAXVA / PGSIZE →
      (doFree = true → ∀ x pa flags, k ≤ x → x < k + n → translate m r x = some (pa, flags) →
        pa ∉ tables m.entry r ∧ m.kend ≤ pa ∧ pa < PHYSTOP) →
      ∃ m', uvmunmap r (k * PGSIZE) n doFree m = .ok ((), m') ∧ Tree m'.entry r ∧
        m'.free = (if doFree then ((List.range n).filterMap fun i => (translate m r (k + i)).map Prod.fst).reverse else
          [])
          ++ m.free ∧
        ∀ x, x < MAXVA / PGSIZE → translate m' r x = if k ≤ x ∧ x < k + n then none else translate m r x) ∧
    (∀ va, va < MAXVA → walk r va false m ≠ .ok (none, m) → ∃ m', uvmclear r va m = .ok ((), m') ∧ Tree m'.entry r ∧
      ∀ x, x < MAXVA / PGSIZE → translate m' r x = if x = va / PGSIZE
        then (translate m r x).map fun w => (w.1, w.2 &&& (0x3FF - PTE_U)) else translate m r x) := by
  have hmax : MAXVA / PGSIZE = 2 ^ 26 := by decide
  rw [hmax]
  refine ⟨?_, ?_, ?_⟩
  · intro k n pa perm hn hk hpa hsize hperm hfree
    have hlast : k * PGSIZE + n * PGSIZE ≤ MAXVA := by
      rw [← Nat.add_mul, maxva_eq]
      exact Nat.mul_le_mul_right _ hk
    have hpos : 0 < n * PGSIZE := Nat.mul_pos hn (by decide)
    obtain ⟨ok, m', hrun, hm, htrue, hfalse⟩ := run_of_spec (mappages_spec _ _ pa perm hg (Nat.mul_mod_left k _)
      (Nat.mul_mod_left n _) hpos (by omega) hperm (by omega) (.inl hlast) fun x hx hx' => by
        rw [page_div] at hx hx'
        rw [page_div] at hx'
        exact (translate_none (by omega)).mp (hfree x hx hx'))
    rw [page_div, page_div] at htrue hfalse
    refine ⟨ok, m', hrun, hg.moves hm.toMoves, fun hok x hx => ?_, fun hok hone x hx => ?_⟩
    · exact translate_mapped hpa hsize hperm hx (htrue hok).2
    · obtain ⟨j, hj, hl⟩ := hfalse hok
      rw [show j = 0 by omega, mapped_zero] at hl
      rw [translate_eq hx, translate_eq hx, hl]
  · intro k n doFree hk hfree
    have hf : doFree = true → ∀ x, k ≤ x → x < k + n → Freeable m r (leaf m.entry r x) := by
      intro hd x hx hx' e he
      exact hfree hd x (PTE2PA e) (PTE_FLAGS e) hx hx' (by rw [translate_eq (by omega), he]; rfl)
    obtain ⟨_, m', hrun, hu, hl⟩ := run_of_spec (uvmunmap_spec hg.tree hk doFree hf)
    refine ⟨m', hrun, hu.tree, ?_, fun x hx => ?_⟩
    · rw [hu.free, removed_eq]
      have hlist : ((List.range n).filterMap fun i => (translate m r (k + i)).map Prod.fst) =
          (List.range n).filterMap fun i => (leaf m.entry r (k + i)).map PTE2PA := by
        refine List.filterMap_congr fun i hi => ?_
        rw [translate_eq (by have := List.mem_range.mp hi; omega), Option.map_map]
        rfl
      rw [hlist]
    · rw [translate_eq hx, hl]
      unfold without
      split_ifs
      · rfl
      · exact (translate_eq hx).symm
  · intro va hva hwalk
    rw [walk_lookup hva] at hwalk
    have hlow : low m.entry r (va / PGSIZE / 512) ≠ none := fun hn => hwalk (by rw [hn]; rfl)
    obtain ⟨_, m', hrun, hu, hl⟩ := run_of_spec (uvmclear_spec hg.tree hva rfl (.inl hlow))
    refine ⟨m', hrun, hu.tree, fun x hx => ?_⟩
    rw [translate_eq hx, hl]
    by_cases hxk : x = va / PGSIZE
    · subst hxk
      rw [if_pos rfl, Function.update_self, translate_eq hx]
      cases hle : leaf m.entry r (va / PGSIZE) with
      | none => rfl
      | some e =>
        obtain ⟨t, -, hv⟩ := leaf_low hle
        have he : e < 2 ^ 64 := (valid_eq_some.mp hv).2 ▸ entry_lt m t _
        obtain ⟨-, haddr, hflags, -⟩ := notU_facts he
        show some (PTE2PA (e &&& notU), PTE_FLAGS (e &&& notU)) = some (PTE2PA e, PTE_FLAGS e &&& (0x3FF - PTE_U))
        rw [haddr, hflags]
    · rw [Function.update_of_ne hxk, if_neg hxk]
      exact (translate_eq hx).symm

/-! ### An empty page table -/

/-- a page of zeros is a page table with no mappings -/
theorem tree_of_zero (hr : r % PGSIZE = 0) (hz : ∀ x, PGROUNDDOWN x = r → m.byte x = 0) :
    Tree m.entry r ∧ tables m.entry r = {r} ∧ ∀ k, leaf m.entry r k = none := by
  have hent : ∀ i, i < 512 → m.entry r i = 0 := fun i hi => entry_zero hr hi hz
  have hmid : ∀ i, mid m.entry r i = none := by
    intro i
    unfold mid
    split_ifs with hi
    · rw [hent i hi]; rfl
    · rfl
  have hlow : ∀ j, low m.entry r j = none := fun j => low_none_of_mid (hmid _)
  have htab : tables m.entry r = {r} := by
    unfold tables
    rw [gather_eq_zero fun i _ => hmid i, gather_eq_zero fun j _ => hlow j]
    rfl
  refine ⟨⟨hr, ?_, ?_, ?_⟩, htab, fun k => leaf_none_of_low (hlow _)⟩
  · rw [htab]; exact Multiset.nodup_singleton r
  · intro i hi
    rw [hent i hi]
    exact fun hv => absurd hv (by decide)
  · intro a t ha
    rw [hmid a] at ha
    cases ha

/-- three pages of zeros, the first of them a page table -/
def blank : Mem := ⟨[KERNBASE + PGSIZE, KERNBASE + 2 * PGSIZE], fun _ => 0, [], KERNBASE, KERNBASE - PGSIZE⟩

theorem good_blank : Good ∅ blank KERNBASE 0 := by
  obtain ⟨htree, htab, -⟩ := tree_of_zero (m := blank) (r := KERNBASE) (by decide) fun _ _ => rfl
  have hpages : pagesOf ∅ blank KERNBASE + 0 = {KERNBASE} := by rw [add_zero, pagesOf_empty, htab]
  refine ⟨htree, ?_⟩
  rw [hpages]
  refine ⟨by decide, fun p hp => ?_⟩
  have hp' : p ∈ ({KERNBASE + PGSIZE, KERNBASE + 2 * PGSIZE, KERNBASE} : Multiset ℕ) := hp
  simp only [Multiset.insert_eq_cons, Multiset.mem_cons, Multiset.mem_singleton] at hp'
  rcases hp' with rfl | rfl | rfl <;> exact ⟨by decide, by decide, by decide, by decide⟩

theorem page_table_is_map_blank : ∃ m', mappages KERNBASE (5 * PGSIZE) (1 * PGSIZE) (7 * PGSIZE) PTE_R blank =
    .ok (true, m') ∧ translate m' KERNBASE 5 = some (7 * PGSIZE, PTE_R ||| PTE_V) := by
  obtain ⟨ok, m', hrun, -, htrue, -⟩ := (page_table_is_map good_blank).1 5 1 (7 * PGSIZE) PTE_R (by decide) (by decide)
    (by decide) (by decide) (by decide) fun x _ hx' =>
      (translate_none (by omega)).mpr ((tree_of_zero (m := blank) (r := KERNBASE) (by decide) fun _ _ => rfl).2.2 x)
  have htest : (match mappages KERNBASE (5 * PGSIZE) (1 * PGSIZE) (7 * PGSIZE) PTE_R blank with
      | .ok (ok, _) => ok
      | .error _ => false) = true := by decide +kernel
  rw [hrun] at htest
  obtain rfl : ok = true := htest
  exact ⟨m', hrun, (htrue rfl 5 (by decide)).trans (if_pos ⟨le_rfl, by decide⟩)⟩

/-- freeing a page-table page that is mapped: page 0 is mapped to the page-table page of the lowest level, so `uvmunmap`
fills the page table with ones, and there are mappings that were not there before -/
theorem unmap_own_table : ∃ m r, Good ∅ m r 0 ∧ ∃ m', uvmunmap r 0 1 true m = .ok ((), m') ∧
    translate m r 1 = none ∧ translate m' r 1 ≠ none := by
  have hrun := run_of_spec (mappages_spec (r := KERNBASE) 0 PGSIZE (KERNBASE + 2 * PGSIZE) PTE_R
    good_blank (by decide) (by decide) (by decide) (by decide) (by decide) (by decide) (.inl (by decide))
    fun x _ _ => (tree_of_zero (m := blank) (r := KERNBASE) (by decide) fun _ _ => rfl).2.2 x)
  obtain ⟨ok, m, hm, hmoves, -⟩ := hrun
  have htest : (match mappages KERNBASE 0 PGSIZE (KERNBASE + 2 * PGSIZE) PTE_R blank with
      | .ok (_, m) => match uvmunmap KERNBASE 0 1 true m with
        | .ok (_, m') => decide (translate m KERNBASE 1 = none ∧ translate m' KERNBASE 1 ≠ none)
        | .error _ => false
      | .error _ => false) = true := by decide +kernel
  rw [hm] at htest
  refine ⟨m, KERNBASE, good_blank.moves hmoves.toMoves, ?_⟩
  cases hu : uvmunmap KERNBASE 0 1 true m with
  | error e => simp only [hu] at htest; cases htest
  | ok w =>
    simp only [hu] at htest
    exact ⟨w.2, rfl, of_decide_eq_true htest⟩

end Xv6.Vm
