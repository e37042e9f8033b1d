/-
Making and freeing page tables: `freewalk`, `uvmfree`, `uvmcreate`, `proc_pagetable`, `proc_freepagetable`.
-/
import Xv6.Vm.Space

namespace Xv6.Vm

open Xv6.Core
open Fs (PGSIZE)

variable {K : Set ℕ} {m m' m'' : Mem} {r t c p a k n i sz tf : ℕ} {h H : Multiset ℕ} {E : Panic → Prop}

/-! ## `freewalk` -/

theorem freewalkLoop_invalid {free : ℕ → VmM Unit} (hinv : ∀ j, i ≤ j → j < i + n → has (m.entry t j) PTE_V = false) :
    freewalkLoop free t n i m = .ok ((), m) := by
  induction n generalizing i with
  | zero => rfl
  | succ n ih =>
    have h0 := hinv i le_rfl (by omega)
    unfold freewalkLoop
    rw [bind_ok (loadPte_eq m t i), if_neg (by rw [h0]; simp), if_neg (by rw [h0]; simp)]
    exact ih fun j hj hj' => hinv j (by omega) (by omega)

theorem freewalk_invalid {levels : ℕ} (hinv : ∀ j, j < 512 → has (m.entry t j) PTE_V = false) :
    freewalk (levels + 1) t m = kfree t m := by
  show (freewalkLoop (freewalk levels) t 512 0 >>= fun _ => kfree t) m = _
  rw [bind_ok (freewalkLoop_invalid fun j _ hj => hinv j (by omega))]

/-- a page of the tree is freed and the entry that points to it is cleared -/
theorem cut_spec (hg : Good ∅ m r h) (ht : t ∈ tables m.entry r) (hc : c ∈ tables m.entry r) (htc : t ≠ c)
    (hi : i < 512) :
    Spec (kfree c) m (fun _ m' => Changes m.entry (m'.setPte (t + 8 * i) 0).entry r c t i ∧
      (m'.setPte (t + 8 * i) 0).entry t i = 0 ∧
      (tables m.entry r = c ::ₘ tables (m'.setPte (t + 8 * i) 0).entry r → Tree (m'.setPte (t + 8 * i) 0).entry r →
        Moves ∅ r h h m (m'.setPte (t + 8 * i) 0))) E := by
  have hta := hg.tree.tables_aligned ht
  -- all pages of the table but c
  obtain ⟨T, hT⟩ := Multiset.exists_cons_of_mem hc
  have hb : Base m (c ::ₘ (T + h)) := by
    have := hg.base
    rwa [pagesOf_empty, hT, Multiset.cons_add] at this
  refine Spec.post (kfree_spec hb) ?_
  rintro _ m' ⟨hsh, hfree, hout⟩
  refine ⟨fun t' ht' hne i' hi' hti => ?_, entry_setPte_self (by decide), fun htab htree => ⟨htree, ?_⟩⟩
  · rw [entry_setPte_ne hta (hg.tree.tables_aligned ht') hi hi' hti]
    exact entry_congr (hg.tree.tables_aligned ht') hi' fun x hx => hout x (hx ▸ hne)
  rw [pagesOf_empty, pagesOf_empty, htab, Multiset.cons_add]
  have hrest : tables (m'.setPte (t + 8 * i) 0).entry r = T := by
    rw [hT] at htab
    exact (Multiset.cons_inj_right c).mp htab.symm
  rw [hrest]
  refine hsh.trans (shuffle_of_page (p := t) ?_ (fun x hx => byte_setPte_out hta hi hx) rfl rfl rfl)
  rw [hT] at ht
  exact Multiset.mem_add.mpr (.inl ((Multiset.mem_cons.mp ht).resolve_left htc))

/-- the loop over a page of the second level, from entry i on -/
theorem freewalkLoop_mid (hg : Good ∅ m r h) (ha : mid m.entry r a = some t) (hi : i + n = 512)
    (hleaf : ∀ k, leaf m.entry r k = none) (hdone : ∀ j, j < i → low m.entry r (a * 512 + j) = none) :
    Spec (freewalkLoop (freewalk 1) t n i) m (fun _ m' => Moves ∅ r h h m m' ∧ leaf m'.entry r = leaf m.entry r ∧
      mid m'.entry r = mid m.entry r ∧ (∀ j, j / 512 = a → low m'.entry r j = none) ∧
      ∀ j, j / 512 ≠ a → low m'.entry r j = low m.entry r j) E := by
  induction n generalizing m i with
  | zero =>
    refine Spec.pure ⟨hg.refl, rfl, rfl, fun j hj => ?_, fun _ _ => rfl⟩
    rw [show j = a * 512 + j % 512 by omega]
    exact hdone _ (by omega)
  | succ n ih =>
    have hi' : i < 512 := by omega
    have hlow : low m.entry r (a * 512 + i) = child (m.entry t i) := by
      have hm : mid m.entry r ((a * 512 + i) / 512) = some t := by
        rw [show (a * 512 + i) / 512 = a by omega]
        exact ha
      rw [low_of_mid hm, show (a * 512 + i) % 512 = i by omega]
    unfold freewalkLoop
    refine Spec.bind_ok (loadPte_eq m t i) ?_
    by_cases hv : has (m.entry t i) PTE_V = true
    · have hold : low m.entry r (a * 512 + i) = some (PTE2PA (m.entry t i)) := by
        rw [hlow]
        exact child_eq_some.mpr ⟨hv, rfl⟩
      rw [if_pos ⟨hv, hg.tree.mid_inner a t ha i hi' hv⟩]
      have hinv : ∀ j, j < 512 → has (m.entry (PTE2PA (m.entry t i)) j) PTE_V = false := by
        intro j hj
        have hk := hleaf ((a * 512 + i) * 512 + j)
        have hlow' : low m.entry r (((a * 512 + i) * 512 + j) / 512) = some (PTE2PA (m.entry t i)) := by
          rw [show ((a * 512 + i) * 512 + j) / 512 = a * 512 + i by omega]
          exact hold
        rw [leaf_of_low hlow', show ((a * 512 + i) * 512 + j) % 512 = j by omega] at hk
        exact valid_eq_none.mp hk
      refine Spec.bind (Spec.congr (freewalk_invalid hinv) (cut_spec (t := t) (i := i) hg (mid_mem_tables ha)
        (low_mem_tables hold) (fun e => hg.tree.low_ne_mid hold (e ▸ ha)) hi')) ?_
      rintro _ m1 ⟨hch, hzero, hmoves⟩
      refine Spec.bind_ok (a := ()) (t := m1.setPte (t + 8 * i) 0) rfl ?_
      obtain ⟨htree, htab, hleaf2, hmid2, hlow2⟩ := hg.tree.cutLow ha hi' hold (fun k _ => hleaf k) hzero hch
      have hm2 := hmoves htab htree
      refine Spec.post (ih (hg.moves hm2) (by rw [hmid2]; exact ha) (by omega) (fun k => by rw [hleaf2]; exact hleaf k)
        fun j hj => ?_) ?_
      · rw [hlow2]
        by_cases hji : j = i
        · rw [hji, Function.update_self]
        · rw [Function.update_of_ne (by omega)]
          exact hdone j (by omega)
      · rintro _ m3 ⟨hm3, hleaf3, hmid3, hnone3, hsame3⟩
        refine ⟨hm2.trans hm3, hleaf3.trans hleaf2, hmid3.trans hmid2, hnone3, fun j hj => ?_⟩
        rw [hsame3 j hj, hlow2, Function.update_of_ne (by omega)]
    · have hv' : has (m.entry t i) PTE_V = false := by simpa using hv
      rw [if_neg fun hc => hv hc.1, if_neg hv]
      refine ih hg ha (by omega) hleaf fun j hj => ?_
      by_cases hji : j = i
      · rw [hji, hlow]
        exact child_eq_none.mpr hv'
      · exact hdone j (by omega)

/-- the loop over the root, from entry i on -/
theorem freewalkLoop_root (hg : Good ∅ m r h) (hi : i + n = 512) (hleaf : ∀ k, leaf m.entry r k = none)
    (hdone : ∀ j, j < i → mid m.entry r j = none) :
    Spec (freewalkLoop (freewalk 2) r n i) m (fun _ m' => Moves ∅ r h h m m' ∧ ∀ j, mid m'.entry r j = none) E := by
  induction n generalizing m i with
  | zero =>
    refine Spec.pure ⟨hg.refl, fun j => ?_⟩
    by_cases hj : j < 512
    · exact hdone j (by omega)
    · exact if_neg hj
  | succ n ih =>
    have hi' : i < 512 := by omega
    unfold freewalkLoop
    refine Spec.bind_ok (loadPte_eq m r i) ?_
    by_cases hv : has (m.entry r i) PTE_V = true
    · have hold : mid m.entry r i = some (PTE2PA (m.entry r i)) := by
        rw [mid_of_lt hi']
        exact child_eq_some.mpr ⟨hv, rfl⟩
      rw [if_pos ⟨hv, hg.tree.root_inner i hi' hv⟩]
      generalize PTE2PA (m.entry r i) = c at hold ⊢
      have hfw : Spec (freewalk 2 c) m (fun _ m2 => ∃ m1, Moves ∅ r h h m m1 ∧ leaf m1.entry r = leaf m.entry r ∧
          mid m1.entry r = mid m.entry r ∧ (∀ j, j / 512 = i → low m1.entry r j = none) ∧
          Changes m1.entry (m2.setPte (r + 8 * i) 0).entry r c r i ∧ (m2.setPte (r + 8 * i) 0).entry r i = 0 ∧
          (tables m1.entry r = c ::ₘ tables (m2.setPte (r + 8 * i) 0).entry r → Tree (m2.setPte (r + 8 * i) 0).entry r →
            Moves ∅ r h h m1 (m2.setPte (r + 8 * i) 0))) E := by
        refine Spec.bind (freewalkLoop_mid hg hold (by omega) hleaf fun j hj => by omega) ?_
        rintro _ m1 ⟨hm1, hleaf1, hmid1, hnone1, -⟩
        have hold1 : mid m1.entry r i = some c := by rw [hmid1]; exact hold
        refine Spec.post (cut_spec (t := r) (i := i) (hg.moves hm1) (root_mem_tables _ r) (mid_mem_tables hold1)
          (hm1.tree.mid_ne hold1).symm hi') ?_
        rintro _ m2 ⟨hch, hzero, hmoves⟩
        exact ⟨m1, hm1, hleaf1, hmid1, hnone1, hch, hzero, hmoves⟩
      refine Spec.bind hfw ?_
      rintro _ m2 ⟨m1, hm1, hleaf1, hmid1, hnone1, hch, hzero, hmoves⟩
      refine Spec.bind_ok (a := ()) (t := m2.setPte (r + 8 * i) 0) rfl ?_
      obtain ⟨htree, htab, hleaf3, -, hmid3⟩ := hm1.tree.cutMid hi' (by rw [hmid1]; exact hold) hnone1 hzero hch
      have hm3 := hmoves htab htree
      refine Spec.post (ih (hg.moves (hm1.trans hm3)) (by omega) (fun k => by rw [hleaf3, hleaf1]; exact hleaf k)
        fun j hj => ?_) ?_
      · rw [hmid3, hmid1]
        by_cases hji : j = i
        · rw [hji, Function.update_self]
        · rw [Function.update_of_ne hji]
          exact hdone j (by omega)
      · rintro _ m4 ⟨hm4, hnone4⟩
        exact ⟨(hm1.trans hm3).trans hm4, hnone4⟩
    · rw [if_neg fun hc => hv hc.1, if_neg hv]
      refine ih hg (by omega) hleaf fun j hj => ?_
      by_cases hji : j = i
      · rw [hji, mid_of_lt hi']
        exact child_eq_none.mpr (by simpa using hv)
      · exact hdone j (by omega)

/-- **Freeing a page table without mappings**: every page of it is freed once. -/
theorem freewalk_spec (hg : Good ∅ m r h) (hleaf : ∀ k, leaf m.entry r k = none) :
    Spec (freewalk 3 r) m (fun _ m' => Shuffle (tables m.entry r + h) h m m') E := by
  refine Spec.bind (freewalkLoop_root hg (by omega) hleaf fun j hj => by omega) ?_
  rintro _ m1 ⟨hm1, hnone⟩
  have htab : tables m1.entry r = {r} := by
    unfold tables
    rw [gather_eq_zero fun i _ => hnone i, gather_eq_zero fun j _ => low_none_of_mid (hnone _)]
    rfl
  have hsh := hm1.shuffle
  have hg1 := hg.moves hm1
  have hb := hg1.base
  rw [pagesOf_empty, pagesOf_empty, htab, Multiset.singleton_add] at hsh
  rw [pagesOf_empty, htab, Multiset.singleton_add] at hb
  refine Spec.post (kfree_spec hb) ?_
  rintro _ m2 ⟨hsh2, -⟩
  exact hsh.trans hsh2

/-! ## Freeing user memory -/

/-- **`uvmfree`** with all mappings below the size: the mapped pages and the page-table pages are freed. -/
theorem uvmfree_spec (sz : ℕ) (hg : Good Set.univ m r h) (hsz : sz ≤ TRAPFRAME) (hleaf : ∀ k, pages sz ≤ k →
    leaf m.entry r k = none) :
    Spec (uvmfree r sz) m (fun _ m' => Shuffle (pagesOf Set.univ m r + h) h m m') E := by
  have hF := pages_le hsz
  have hbig : TRAPFRAME < 2 ^ 63 := by decide
  -- when nothing is mapped
  have hend : ∀ m, Good Set.univ m r h → (∀ k, leaf m.entry r k = none) →
      Spec (freewalk 3 r) m (fun _ m' => Shuffle (pagesOf Set.univ m r + h) h m m') E := by
    intro m hg hnone
    have hpages : pagesOf Set.univ m r = tables m.entry r := by
      unfold pagesOf
      rw [users_eq, usersOf_eq_zero fun k _ => hnone k, add_zero]
    rw [hpages]
    exact freewalk_spec (hg.mono (Set.empty_subset _)) hnone
  unfold uvmfree
  by_cases hpos : sz > 0
  · rw [if_pos hpos, PGROUNDUP_eq (by omega), page_div]
    have hun := unmapUser_spec (E := E) (k := 0) (n := pages sz) hg (by omega) fun x _ _ => Set.mem_univ x
    rw [Nat.zero_mul] at hun
    refine Spec.bind hun ?_
    rintro _ m1 ⟨hm1, -, hl1⟩
    refine Spec.post (hend m1 (hg.moves hm1) fun k => ?_) fun _ m2 hsh => hm1.shuffle.trans hsh
    rw [hl1]
    unfold without
    split_ifs with hin
    · rfl
    · exact hleaf k (by omega)
  · have h0 : pages sz = 0 := by
      rw [show sz = 0 by omega]
      rfl
    rw [if_neg hpos]
    exact hend m hg fun k => hleaf k (by omega)

/-- **Freeing the page table of a process** of size sz. -/
theorem procFreepagetable_spec (hg : Good Set.univ m r h) (hsz : sz ≤ TRAPFRAME)
    (hleaf : ∀ k, pages sz ≤ k → k ≠ FRAME → k ≠ TRAMP → leaf m.entry r k = none) :
    Spec (procFreepagetable r sz) m (fun _ m' => Shuffle (pagesOf Set.univ m r + h) h m m') E := by
  unfold procFreepagetable
  rw [trampoline_eq, trapframe_eq]
  refine Spec.bind (unmapAbove_spec (E := E) hg (by decide) (by decide)) ?_
  rintro _ m1 ⟨hm1, hl1⟩
  refine Spec.bind (unmapAbove_spec (E := E) (hg.moves hm1) le_rfl (by decide)) ?_
  rintro _ m2 ⟨hm2, hl2⟩
  refine Spec.post (uvmfree_spec _ (hg.moves (hm1.trans hm2)) hsz fun k hk => ?_) fun _ m3 hsh =>
    (hm1.trans hm2).shuffle.trans hsh
  rw [hl2]
  by_cases hF : k = FRAME
  · rw [hF, Function.update_self]
  · rw [Function.update_of_ne hF, hl1]
    by_cases hT : k = TRAMP
    · rw [hT, Function.update_self]
    · rw [Function.update_of_ne hT]
      exact hleaf k hk hF hT

/-! ## Making one -/

theorem uvmcreate_spec (hb : Base m H) :
    Spec uvmcreate m (fun o m' => match o with
      | none => Shuffle H H m m'
      | some r => Tree m'.entry r ∧ (∀ k, leaf m'.entry r k = none) ∧ Shuffle H (pagesOf Set.univ m' r + H)
          m m') E := by
  unfold uvmcreate
  refine Spec.bind (kalloc_spec hb) fun o m1 hal => ?_
  cases o with
  | none => exact Spec.pure hal.2.2
  | some r =>
    have hf := fresh_of_alloced hb hal
    obtain ⟨htree, htab, hleaf⟩ := tree_of_zero (hb.free_usable hf.mem).1 hf.zero
    refine Spec.of_ok (a := some r) (t := m1.fillPage r 0) rfl ⟨htree, hleaf, ?_⟩
    unfold pagesOf
    rw [users_eq, usersOf_eq_zero fun k _ => hleaf k, htab, add_zero, Multiset.singleton_add]
    exact hf.shuffle

/-- a mapping at or above TRAPFRAME is added -/
theorem mapAbove_spec {pa perm : ℕ} (hg : Good K m r h) (hk : FRAME ≤ k) (hk' : k < 2 ^ 26) (hpa : pa < 2 ^ 64)
    (hperm : perm < 2 ^ 10) (hnone : leaf m.entry r k = none) :
    Spec (mappages r (k * PGSIZE) PGSIZE pa perm) m (fun ok m' => Moves K r h h m m' ∧ leaf m'.entry r =
      if ok = true then Function.update (leaf m.entry r) k (some (pteOf pa perm)) else leaf m.entry r) E := by
  refine Spec.post (mapPage_spec (E := E) (hg.mono (Set.empty_subset K)) hk' hpa hperm hnone) ?_
  rintro ok m' ⟨hgr, hl⟩
  have husers : users K m' r = users K m r := by
    rw [users_eq, users_eq, hl]
    cases ok with
    | true => exact usersOf_above hk _
    | false => rfl
  refine ⟨⟨hgr.tree, ?_⟩, hl⟩
  have hsh := hgr.shuffle.more (users K m r)
  rw [pagesOf_empty, pagesOf_empty] at hsh
  unfold pagesOf
  rw [husers, add_right_comm, add_right_comm _ (users K m r) h]
  exact hsh

/-- the mappings of a process without user memory -/
def framed (m : Mem) (tf : ℕ) : ℕ → Option ℕ :=
  Function.update (Function.update (fun _ => none) TRAMP (some (pteOf m.trampoline (PTE_R ||| PTE_X)))) FRAME
    (some (pteOf tf (PTE_R ||| PTE_W)))

/-- **A page table for a new process** maps the trampoline and the trapframe, or no page is used. -/
theorem procPagetable_spec (hb : Base m H) (htf : tf < 2 ^ 64) (htr : m.trampoline < 2 ^ 64) :
    Spec (procPagetable tf) m (fun o m' => match o with
      | none => Shuffle H H m m'
      | some r => Tree m'.entry r ∧ leaf m'.entry r = framed m tf ∧ Shuffle H (pagesOf Set.univ m' r + H) m m') E := by
  have hzero : (0 : ℕ) ≤ TRAPFRAME := Nat.zero_le _
  have hp0 : pages 0 = 0 := rfl
  unfold procPagetable
  refine Spec.bind (uvmcreate_spec hb) fun o m1 h1 => ?_
  cases o with
  | none => exact Spec.pure h1
  | some r =>
    obtain ⟨htree1, hleaf1, hsh1⟩ := h1
    have hg1 : Good Set.univ m1 r H := ⟨htree1, hb.shuffle hsh1⟩
    refine Spec.bind_ok (a := m1) (t := m1) rfl ?_
    rw [hsh1.trampoline, trampoline_eq, trapframe_eq]
    refine Spec.bind (mapAbove_spec hg1 (by decide) (by decide) htr (by decide) (hleaf1 _)) ?_
    rintro ok m2 ⟨hm2, hl2⟩
    have hg2 := hg1.moves hm2
    have hleaf1' : leaf m1.entry r = fun _ => none := funext hleaf1
    cases ok with
    | false =>
      refine Spec.bind (uvmfree_spec 0 hg2 hzero fun k _ => ?_) fun _ m3 h3 =>
        Spec.pure ((hsh1.trans hm2.shuffle).trans h3)
      rw [hl2]
      exact hleaf1 k
    | true =>
      rw [if_pos rfl, hleaf1'] at hl2
      refine Spec.bind (mapAbove_spec hg2 le_rfl (by decide) htf (by decide) ?_) ?_
      · rw [hl2, Function.update_of_ne (by decide)]
      rintro ok m3 ⟨hm3, hl3⟩
      have hg3 := hg2.moves hm3
      cases ok with
      | true =>
        rw [if_pos rfl, hl2] at hl3
        exact Spec.pure ⟨hm3.tree, hl3, (hsh1.trans hm2.shuffle).trans hm3.shuffle⟩
      | false =>
        rw [if_neg (by decide), hl2] at hl3
        refine Spec.bind (unmapAbove_spec (E := E) hg3 (by decide) (by decide)) ?_
        rintro _ m4 ⟨hm4, hl4⟩
        refine Spec.bind (uvmfree_spec 0 (hg3.moves hm4) hzero fun k _ => ?_) fun _ m5 h5 =>
          Spec.pure ((((hsh1.trans hm2.shuffle).trans hm3.shuffle).trans hm4.shuffle).trans h5)
        rw [hl4, hl3, Function.update_idem]
        by_cases hk : k = TRAMP
        · rw [hk, Function.update_self]
        · rw [Function.update_of_ne hk]

end Xv6.Vm
