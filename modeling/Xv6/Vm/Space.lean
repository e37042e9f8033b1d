/-
User memory: `uvmalloc`, `uvmdealloc` and `uvmfree`.

`pages sz` is the number of pages of a process of size sz. All specifications keep the books with `Moves`; what they say
about the mappings is an equation or `Extended`.

- `freewalk_spec`, `uvmfree_spec`: all pages of a page table are freed; `freewalk` finds no leaf.
-/
import Xv6.Vm.Map

namespace Xv6.Vm

open Xv6.Core
open Fs (PGSIZE)

variable {K : Set ℕ} {m m' m'' : Mem} {r t c p a va k n s i j x e pa perm xperm sz oldsz newsz : ℕ} {h h' : Multiset ℕ}
  {f : ℕ → Option ℕ} {E : Panic → Prop}

/-! ## Sizes -/

/-- the number of pages of a process of size sz -/
def pages (sz : ℕ) : ℕ := (sz + (PGSIZE - 1)) / PGSIZE

theorem pages_le (hsz : sz ≤ TRAPFRAME) : pages sz ≤ FRAME := by
  unfold TRAPFRAME TRAMPOLINE MAXVA PGSIZE at hsz
  unfold pages PGSIZE FRAME
  omega

theorem PGROUNDUP_eq (hsz : sz < 2 ^ 63) : PGROUNDUP sz = pages sz * PGSIZE := by
  unfold PGROUNDUP pages PGSIZE
  omega

theorem pages_mul (n : ℕ) : pages (n * PGSIZE) = n := by
  unfold pages PGSIZE
  omega

theorem pages_mono {sz' : ℕ} (hle : sz ≤ sz') : pages sz ≤ pages sz' := by
  unfold pages
  exact Nat.div_le_div_right (by omega)

theorem lt_pages (hlt : a < sz) : a / PGSIZE < pages sz := by
  unfold pages PGSIZE
  omega

theorem le_pages (sz : ℕ) : sz ≤ pages sz * PGSIZE := by
  unfold pages PGSIZE
  omega

/-! ## Mapped pages -/

/-- the pages below TRAPFRAME that f maps page numbers in K to -/
noncomputable def usersOf (K : Set ℕ) (f : ℕ → Option ℕ) : Multiset ℕ :=
  open Classical in gather FRAME fun k => if k ∈ K then (f k).map PTE2PA else none

theorem users_eq (K : Set ℕ) (m : Mem) (r : ℕ) : users K m r = usersOf K (leaf m.entry r) := rfl

theorem usersOf_add (hk : k < FRAME) (hK : k ∈ K) (hnone : f k = none) (e : ℕ) :
    usersOf K (Function.update f k (some e)) = PTE2PA e ::ₘ usersOf K f := by
  classical
  unfold usersOf
  rw [← gather_update_some hk (by rw [if_pos hK, hnone]; rfl)]
  refine gather_congr fun x _ => ?_
  by_cases hx : x = k
  · subst hx
    rw [Function.update_self, Function.update_self, if_pos hK]
    rfl
  · rw [Function.update_of_ne hx, Function.update_of_ne hx]

theorem usersOf_erase (hk : k < FRAME) (hK : k ∈ K) :
    usersOf K f = ↑((f k).map PTE2PA).toList + usersOf K (Function.update f k none) := by
  classical
  unfold usersOf
  rw [gather_erase hk, if_pos hK]
  refine congrArg₂ (· + ·) ?_ (gather_congr fun x _ => ?_)
  · cases f k <;> rfl
  · by_cases hx : x = k
    · subst hx
      rw [Function.update_self, Function.update_self, if_pos hK]
      rfl
    · rw [Function.update_of_ne hx, Function.update_of_ne hx]

theorem usersOf_without (hk : k + n ≤ FRAME) (hK : ∀ x, k ≤ x → x < k + n → x ∈ K) :
    usersOf K f = ↑(removed f k n) + usersOf K (without f k n) := by
  induction n generalizing k f with
  | zero => rw [without_zero]; exact (zero_add _).symm
  | succ n ih =>
    rw [usersOf_erase (f := f) (show k < FRAME by omega) (hK k le_rfl (by omega)),
      ih (k := k + 1) (by omega) fun x hx hx' => hK x (by omega) (by omega), without_succ, removed, ← Multiset.coe_add,
      removed_congr (g := f) fun x hx => Function.update_of_ne (by omega) _ _]
    abel

theorem usersOf_above (hk : FRAME ≤ k) (o : Option ℕ) : usersOf K (Function.update f k o) = usersOf K f := by
  unfold usersOf
  refine gather_congr fun x hx => ?_
  rw [Function.update_of_ne (by omega)]

theorem usersOf_eq_zero (hf : ∀ k, k < FRAME → f k = none) : usersOf K f = 0 := by
  unfold usersOf
  refine gather_eq_zero fun k hk => ?_
  rw [hf k hk]
  split_ifs <;> rfl

/-- **Mapping a page** that the caller has, at a page number that is not mapped. -/
theorem mapUser_spec (hg : Good K m r (p ::ₘ h)) (hk : k < FRAME) (hK : k ∈ K) (hperm : perm < 2 ^ 10)
    (hfree : leaf m.entry r k = none) :
    Spec (mappages r (k * PGSIZE) PGSIZE p perm) m (fun ok m' => m'.free <:+ m.free ∧
      Moves K r (p ::ₘ h) (if ok = true then h else p ::ₘ h) m m' ∧ Shuffle (tables m.entry r)
        (tables m'.entry r) m m' ∧
      leaf m'.entry r = if ok = true then Function.update (leaf m.entry r) k (some (pteOf p perm)) else leaf m.entry r)
        E := by
  have hp := hg.held_usable (Multiset.mem_cons_self p h)
  have hg0 : Good ∅ m r 0 := ⟨hg.tree, hg.base.le (by rw [add_zero, pagesOf_empty]; exact tables_le)⟩
  refine Spec.post (mapPage_spec (E := E) hg0 (hk.trans (by decide)) hp.lt hperm hfree) ?_
  rintro ok m' ⟨hgr, hl⟩
  have hsh : Shuffle (tables m.entry r) (tables m'.entry r) m m' := by
    have := hgr.shuffle
    rwa [pagesOf_empty, pagesOf_empty, add_zero, add_zero] at this
  have hmore := hsh.more (users K m r + p ::ₘ h)
  refine ⟨hgr.suffix, ⟨hgr.tree, ?_⟩, hsh, hl⟩
  unfold pagesOf
  rw [add_assoc, add_assoc]
  cases ok with
  | false =>
    rw [users_eq K m', hl]
    exact hmore
  | true =>
    rw [users_eq K m', hl, if_pos rfl, usersOf_add hk hK hfree, (pteOf_facts hp.lt hperm).2.2.2 hp.1, if_pos rfl,
      Multiset.cons_add, ← Multiset.add_cons]
    exact hmore

/-- the pages that a good page table maps may be freed -/
theorem Good.freeable (hg : Good K m r h) (hk : k < FRAME) (hK : k ∈ K) : Freeable m r (leaf m.entry r k) := by
  intro e he
  have hmem : PTE2PA e ∈ users K m r := mem_users.mpr ⟨k, e, hk, hK, he, rfl⟩
  obtain ⟨-, -, hlo, hhi⟩ := hg.base.held_usable (Multiset.mem_of_le users_le hmem)
  exact ⟨hg.user_notMem hmem, hlo, hhi⟩

/-- **Freeing mapped pages.** -/
theorem unmapUser_spec (hg : Good K m r h) (hk : k + n ≤ FRAME) (hK : ∀ x, k ≤ x → x < k + n → x ∈ K) :
    Spec (uvmunmap r (k * PGSIZE) n true) m (fun _ m' => Moves K r h h m m' ∧
      Unmaps r (removed (leaf m.entry r) k n) m m' ∧ leaf m'.entry r = without (leaf m.entry r) k n) E := by
  refine Spec.post (uvmunmap_spec (E := E) hg.tree (hk.trans (by decide)) true
    fun _ x hx hx' => hg.freeable (by omega) (hK x hx hx')) ?_
  rintro _ m' ⟨hu, hl⟩
  rw [if_pos rfl] at hu
  refine ⟨⟨hu.tree, ?_⟩, hu, hl⟩
  have husers : users K m r = ↑(removed (leaf m.entry r) k n) + users K m' r := by
    rw [users_eq, users_eq, hl]
    exact usersOf_without hk hK
  refine ⟨?_, fun x hx => hu.frame x (fun ht => hx ?_) fun hgone => hx ?_, hu.kend, hu.trampoline⟩
  · unfold pagesOf
    rw [hu.free, hu.tables, husers, ← Multiset.coe_add]
    abel
  · exact Multiset.mem_add.mpr (.inr (Multiset.mem_of_le tables_le ht))
  · refine Multiset.mem_add.mpr (.inr (Multiset.mem_of_le users_le ?_))
    rw [husers]
    exact Multiset.mem_add.mpr (.inl (Multiset.mem_coe.mpr hgone))

/-- removing a mapping at or above TRAPFRAME -/
theorem unmapAbove_spec (hg : Good K m r h) (hk : FRAME ≤ k) (hk' : k < 2 ^ 26) :
    Spec (uvmunmap r (k * PGSIZE) 1 false) m (fun _ m' => Moves K r h h m m' ∧
      leaf m'.entry r = Function.update (leaf m.entry r) k none) E := by
  refine Spec.post (uvmunmap_spec (E := E) (n := 1) hg.tree hk' false fun hf => by cases hf) ?_
  rintro _ m' ⟨hu, hl⟩
  rw [← without_succ, without_zero] at hl
  refine ⟨⟨hu.tree, ?_⟩, hl⟩
  have husers : users K m' r = users K m r := by
    rw [users_eq, users_eq, hl]
    exact usersOf_above hk none
  refine ⟨?_, fun x hx => hu.frame x (fun ht => hx ?_) List.not_mem_nil, hu.kend, hu.trampoline⟩
  · unfold pagesOf
    rw [hu.free, hu.tables, husers]
    rfl
  · exact Multiset.mem_add.mpr (.inr (Multiset.mem_of_le tables_le ht))

/-! ## Shrinking -/

theorem uvmdealloc_spec (hg : Good K m r h) (ho : oldsz ≤ TRAPFRAME) (hK : ∀ x, pages newsz ≤ x →
    x < pages oldsz → x ∈ K) :
    Spec (uvmdealloc r oldsz newsz) m (fun w m' => w = min oldsz newsz ∧ Moves K r h h m m' ∧
      leaf m'.entry r = without (leaf m.entry r) (pages newsz) (pages oldsz - pages newsz) ∧
      m'.free = removed (leaf m.entry r) (pages newsz) (pages oldsz - pages newsz) ++ m.free) E := by
  have hoo := pages_le ho
  have hbig : TRAPFRAME < 2 ^ 63 := by decide
  unfold uvmdealloc
  have hnone : pages oldsz - pages newsz = 0 →
      leaf m.entry r = without (leaf m.entry r) (pages newsz) (pages oldsz - pages newsz) ∧
        m.free = removed (leaf m.entry r) (pages newsz) (pages oldsz - pages newsz) ++ m.free := fun h0 => by
    rw [h0, without_zero]
    exact ⟨rfl, rfl⟩
  refine Spec.ite (fun hge => Spec.pure ⟨by omega, hg.refl, hnone ?_⟩) fun hlt => ?_
  · exact Nat.sub_eq_zero_of_le (pages_mono hge)
  rw [PGROUNDUP_eq (by omega), PGROUNDUP_eq (by omega)]
  have hle := pages_mono (not_le.1 hlt).le
  have hint : viaInt ((pages oldsz * PGSIZE - pages newsz * PGSIZE) / PGSIZE) = pages oldsz - pages newsz := by
    rw [← Nat.sub_mul, Nat.mul_div_cancel _ (by decide)]
    unfold viaInt
    unfold FRAME at hoo
    rw [Nat.mod_eq_of_lt (by omega), if_pos (by omega)]
  refine Spec.ite (fun _ => ?_) fun hno => Spec.pure ⟨by omega, hg.refl, hnone ?_⟩
  · rw [hint]
    refine Spec.bind (unmapUser_spec hg (by omega) fun x hx hx' => hK x hx (by omega)) ?_
    rintro _ m' ⟨hm, hun, hl⟩
    exact Spec.pure ⟨by omega, hm, hl, hun.free⟩
  · refine Nat.sub_eq_zero_of_le ?_
    by_contra hcon
    exact hno (Nat.mul_lt_mul_of_pos_right (not_le.1 hcon) (by decide))

/-! ## Growing -/

/-- f with the pages from s to k mapped to zeroed pages of the allocator -/
structure Extended (f : ℕ → Option ℕ) (s k perm : ℕ) (m : Mem) (r : ℕ) : Prop where
  outside : ∀ x, ¬ (s ≤ x ∧ x < k) → leaf m.entry r x = f x
  inside : ∀ x, s ≤ x → x < k → ∃ p, Usable m p ∧ leaf m.entry r x = some (pteOf p perm) ∧
    ∀ y, PGROUNDDOWN y = p → m.byte y = 0

theorem Extended.without (hx : Extended f s k perm m r) (hf : ∀ x, s ≤ x → x < k → f x = none) :
    Vm.without (leaf m.entry r) s (k - s) = f := by
  funext x
  unfold Vm.without
  split_ifs with hin
  · exact (hf x hin.1 (by omega)).symm
  · exact hx.outside x (by omega)

/-- a mapped page keeps its contents when page-table pages are added -/
theorem Good.user_byte (hg : Good K m r h) (hsh : Shuffle (tables m.entry r) (tables m'.entry r) m m')
    (hp : p ∈ users K m r + h) (hx : PGROUNDDOWN x = p) : m'.byte x = m.byte x := by
  refine hsh.frame x fun hmem => ?_
  rw [hx] at hmem
  have hb := hg.base
  unfold pagesOf at hb
  rw [add_assoc] at hb
  rcases Multiset.mem_add.mp hmem with hf | ht
  · exact hb.free_notMem (Multiset.mem_coe.mp hf) (Multiset.mem_add.mpr (.inr hp))
  · exact hb.notMem_of_mem ht hp

theorem Extended.keep (m' : Mem) (hx : Extended f s k perm m r) (hK : ∀ x, s ≤ x → x ∈ K) (hkF : k ≤ FRAME)
    (hperm : perm < 2 ^ 10)
    (hl : ∀ x, x ≠ k → leaf m'.entry r x = leaf m.entry r x) (hkend : m'.kend = m.kend)
    (hb : ∀ q, q ∈ users K m r → ∀ y, PGROUNDDOWN y = q → m'.byte y = m.byte y) :
    (∀ x, ¬ (s ≤ x ∧ x < k) → x ≠ k → leaf m'.entry r x = f x) ∧
      ∀ x, s ≤ x → x < k → ∃ p, Usable m' p ∧ leaf m'.entry r x = some (pteOf p perm) ∧
        ∀ y, PGROUNDDOWN y = p → m'.byte y = 0 := by
  refine ⟨fun x hxo hxk => (hl x hxk).trans (hx.outside x hxo), fun x hsx hxk => ?_⟩
  obtain ⟨q, hq, hlq, hz⟩ := hx.inside x hsx hxk
  have hmem : q ∈ users K m r :=
    mem_users.mpr ⟨x, _, by omega, hK x hsx, hlq, (pteOf_facts hq.lt hperm).2.2.2 hq.1⟩
  refine ⟨q, ?_, (hl x (by omega)).trans hlq, fun y hy => (hb q hmem y hy).trans (hz y hy)⟩
  unfold Usable at hq ⊢
  rwa [hkend]

theorem Extended.still (hx : Extended f s k perm m r) (hK : ∀ x, s ≤ x → x ∈ K) (hkF : k ≤ FRAME)
    (hperm : perm < 2 ^ 10)
    (hl : leaf m'.entry r = leaf m.entry r) (hkend : m'.kend = m.kend)
    (hb : ∀ q, q ∈ users K m r → ∀ y, PGROUNDDOWN y = q → m'.byte y = m.byte y) : Extended f s k perm m' r := by
  obtain ⟨-, hin⟩ := hx.keep _ hK hkF hperm (fun x _ => congrFun hl x) hkend hb
  exact ⟨fun x hxo => (congrFun hl x).trans (hx.outside x hxo), hin⟩

theorem Extended.push (hx : Extended f s k perm m r) (hg : Good K m r (p ::ₘ h)) (hsk : s ≤ k) (hkF : k < FRAME)
    (hK : ∀ x, s ≤ x → x ∈ K) (hperm : perm < 2 ^ 10) (hzero : ∀ y, PGROUNDDOWN y = p → m.byte y = 0)
    (hsh : Shuffle (tables m.entry r) (tables m'.entry r) m m')
    (hl : leaf m'.entry r = Function.update (leaf m.entry r) k (some (pteOf p perm))) :
    Extended f s (k + 1) perm m' r := by
  obtain ⟨hout, hin⟩ := hx.keep m' hK hkF.le hperm (fun x hxk => by rw [hl, Function.update_of_ne hxk]) hsh.kend
    fun q hq y hy => hg.user_byte hsh (Multiset.mem_add.mpr (.inl hq)) hy
  refine ⟨fun x hxo => hout x (by omega) (by omega), fun x hsx hxk => ?_⟩
  by_cases hxe : x = k
  · subst hxe
    have hp := hg.held_usable (Multiset.mem_cons_self p h)
    refine ⟨p, ?_, by rw [hl, Function.update_self], fun y hy => ?_⟩
    · unfold Usable at hp ⊢
      rwa [hsh.kend]
    · rw [hg.user_byte hsh (Multiset.mem_add.mpr (.inr (Multiset.mem_cons_self p h))) hy]
      exact hzero y hy
  · exact hin x hsx (by omega)

theorem Extended.undo (hx : Extended f s k perm m r) (hg : Good K m r h) (hK : ∀ x, s ≤ x → x ∈ K)
    (hf : ∀ x, s ≤ x → x < FRAME → f x = none) (hkF : k ≤ FRAME) :
    Spec (uvmdealloc r (k * PGSIZE) (s * PGSIZE)) m (fun _ m' => Moves K r h h m m' ∧ leaf m'.entry r = f) E := by
  have hle : k * PGSIZE ≤ TRAPFRAME := by
    rw [trapframe_eq]
    exact Nat.mul_le_mul_right _ hkF
  refine Spec.post (uvmdealloc_spec hg hle fun x hxs _ => hK x (by rwa [pages_mul] at hxs)) ?_
  rintro _ m' ⟨-, hm, hl, -⟩
  rw [pages_mul, pages_mul, hx.without fun x h1 h2 => hf x h1 (by omega)] at hl
  exact ⟨hm, hl⟩

/-- room for n more pages from k on: below TRAPFRAME, or there is not so much memory -/
def Room (k n free : ℕ) : Prop := k + n ≤ FRAME ∨ k + free ≤ FRAME

theorem mappages_taken (hk : k < 2 ^ 26) (he : leaf m.entry r k ≠ none) :
    mappages r (k * PGSIZE) PGSIZE p perm m = .error .remap := by
  have hva : k * PGSIZE < MAXVA := page_lt_maxva hk
  have hval : k * PGSIZE % PGSIZE = 0 := Nat.mul_mod_left k PGSIZE
  have hlevel : ∀ t level c, child (m.entry t (PX level (k * PGSIZE))) = some c →
      walkLevel (k * PGSIZE) true t level m = .ok (some c, m) := by
    intro t level c hc
    obtain ⟨hv, rfl⟩ := child_eq_some.mp hc
    unfold walkLevel
    rw [bind_ok (m := loadPte _) (a := m.entry t (PX level (k * PGSIZE))) (t := m) rfl, if_pos hv]
    rfl
  obtain ⟨t, hlow, hv⟩ : ∃ t, low m.entry r (k / 512) = some t ∧ has (m.entry t (k % 512)) PTE_V = true := by
    cases hl : low m.entry r (k / 512) with
    | none => exact absurd (leaf_none_of_low hl) he
    | some t =>
      rw [leaf_of_low hl] at he
      exact ⟨t, rfl, by by_contra hv; exact he (valid_eq_none.mpr (by simpa using hv))⟩
  obtain ⟨c, hmid⟩ : ∃ c, mid m.entry r (k / 512 / 512) = some c := by
    cases hm : mid m.entry r (k / 512 / 512) with
    | none => unfold low at hlow; rw [hm] at hlow; cases hlow
    | some c => exact ⟨c, rfl⟩
  have h2 : walkLevel (k * PGSIZE) true r 2 m = .ok (some c, m) := by
    refine hlevel r 2 c ?_
    rw [PX_two hva, page_div, ← mid_of_lt (by omega)]
    exact hmid
  have h1 : walkLevel (k * PGSIZE) true c 1 m = .ok (some t, m) := by
    refine hlevel c 1 t ?_
    rw [PX_one, page_div, ← low_of_mid hmid]
    exact hlow
  have hwalk : walk r (k * PGSIZE) true m = .ok (some (t + 8 * (k % 512)), m) := by
    unfold walk
    rw [if_neg (by omega), bind_ok h2]
    show (walkLevel (k * PGSIZE) true c 1 >>= _) m = _
    rw [bind_ok h1, PX_zero, page_div]
    rfl
  unfold mappages
  rw [if_neg (by simp [hval]), if_neg (by decide), if_neg (by decide), show PGSIZE / PGSIZE = 0 + 1 by decide,
    mappagesLoop,
    bind_ok hwalk]
  show (loadPte (t + 8 * (k % 512)) >>= _) m = _
  rw [bind_ok (loadPte_eq m t (k % 512)), if_pos hv]
  rfl

/-- `kalloc` and `memset` from the viewpoint of a page table -/
theorem Fresh.still (hg : Good K m r h) (hf : Fresh m m' p) : Still r m m' :=
  still_of_frame hg.tree fun x hxt => hf.out x fun he => hg.free_notMem hf.mem (he ▸ hxt)

/-- a page outside the page table is freed: the page table and its pages stay as they are -/
theorem kfree_held (hg : Good K m r (p ::ₘ h)) :
    Spec (kfree p) m (fun _ m' => Moves K r (p ::ₘ h) h m m' ∧ leaf m'.entry r = leaf m.entry r ∧
      (∀ x, PGROUNDDOWN x ≠ p → m'.byte x = m.byte x) ∧
      ∀ q, q ∈ users K m r → ∀ y, PGROUNDDOWN y = q → m'.byte y = m.byte y) E := by
  have hp : p ∈ p ::ₘ h := Multiset.mem_cons_self p h
  refine Spec.post (kfree_spec (H := pagesOf K m r + h) (by rw [← Multiset.add_cons]; exact hg.base)) ?_
  rintro _ m' ⟨hsh, -, hout⟩
  have hs : Still r m m' := still_of_frame hg.tree fun x hx => hout x fun he => hg.held_notMem hp (he ▸ hx)
  refine ⟨⟨hs.tree, by rw [hs.pagesOf, Multiset.add_cons]; exact hsh⟩, hs.leaf, hout, fun q hq y hy =>
    hout y fun he => ?_⟩
  exact hg.base.notMem_of_mem (Multiset.mem_add.mpr (.inr hq)) (by rw [← hy, he]; exact hp)

theorem uvmallocLoop_spec (hg : Good K m r h) (hK : ∀ x, s ≤ x → x ∈ K) (hx : Extended f s k
    (PTE_R ||| PTE_U ||| xperm) m r)
    (hf : ∀ x, s ≤ x → x < FRAME → f x = none) (hsk : s ≤ k) (hkF : k ≤ FRAME) (hperm : xperm < 2 ^ 10)
    (hroom : Room k n m.free.length ∨ f FRAME ≠ none ∧ E .remap) :
    Spec (uvmallocLoop r (s * PGSIZE) xperm n (k * PGSIZE)) m (fun ok m' => Moves K r h h m m' ∧
      (ok = true → k + n ≤ FRAME ∧ Extended f s (k + n) (PTE_R ||| PTE_U ||| xperm) m' r) ∧
      (ok = false → leaf m'.entry r = f)) E := by
  have hperm' : PTE_R ||| PTE_U ||| xperm < 2 ^ 10 := Nat.or_lt_two_pow (by decide) hperm
  induction n generalizing m k with
  | zero => exact Spec.pure ⟨hg.refl, fun _ => ⟨hkF, hx⟩, fun hcon => by cases hcon⟩
  | succ n ih =>
    unfold uvmallocLoop
    refine Spec.bind (kalloc_spec hg.base) fun o m1 hal => ?_
    cases o with
    | none =>
      obtain ⟨-, hbyte, hsh⟩ := hal
      have hs : Still r m m1 := still_of_frame hg.tree fun x _ => congrFun hbyte x
      have hm1 : Moves K r h h m m1 := ⟨hs.tree, by rw [hs.pagesOf]; exact hsh⟩
      have hx1 := hx.still hK hkF hperm' hs.leaf hsh.kend fun _ _ y _ => congrFun hbyte y
      refine Spec.bind (hx1.undo (hg.moves hm1) hK hf hkF) ?_
      rintro _ m2 ⟨hm2, hl2⟩
      exact Spec.pure ⟨hm1.trans hm2, (by simp), fun _ => hl2⟩
    | some p =>
      have hfr := fresh_of_alloced hg.base hal
      refine Spec.bind_ok (a := ()) (t := m1.fillPage p 0) rfl ?_
      have hs := hfr.still hg
      have hm1 : Moves K r h (p ::ₘ h) m (m1.fillPage p 0) := hs.moves hfr.shuffle
      have hg1 := hg.moves hm1
      -- there was a page, so the next page number is below that of TRAPFRAME
      rcases hkF.lt_or_eq with hkF' | hkF'
      case inr =>
        rcases hroom with hroom | ⟨hframe, hE⟩
        · have hlen : 0 < m.free.length := List.length_pos_of_mem hfr.mem
          unfold Room at hroom
          omega
        · refine Spec.bind_error (mappages_taken (hkF'.trans_lt (by decide)) ?_) hE
          rw [hs.leaf, hx.outside k (by omega), hkF']
          exact hframe
      have hx1 := hx.still hK hkF hperm' hs.leaf hfr.kend fun q hq y hy =>
        hfr.out y fun he => hg.base.free_notMem hfr.mem (Multiset.mem_of_le users_le (he ▸ hy ▸ hq))
      have hnone : leaf (m1.fillPage p 0).entry r k = none := by
        rw [hs.leaf, hx.outside k (by omega)]
        exact hf k hsk hkF'
      refine Spec.bind (mapUser_spec hg1 hkF' (hK k hsk) hperm' hnone) ?_
      rintro ok m2 ⟨hsuf, hm2, hsh, hl2⟩
      cases ok with
      | true =>
        rw [if_pos rfl] at hl2 hm2
        have hx2 := hx1.push hg1 hsk hkF' hK hperm' hfr.zero hsh hl2
        show Spec (uvmallocLoop r (s * PGSIZE) xperm n ((k * PGSIZE + PGSIZE) % 2 ^ 64)) m2 _ E
        rw [show (k * PGSIZE + PGSIZE) % 2 ^ 64 = (k + 1) * PGSIZE by
          unfold FRAME at hkF
          unfold PGSIZE
          omega]
        have hlen : m2.free.length + 1 ≤ m.free.length := by
          have h1 := hsuf.length_le
          rw [hfr.free]
          exact Nat.succ_le_succ h1
        refine Spec.post (ih (hg1.moves hm2) hx2 (by omega) hkF' ?_) ?_
        · refine hroom.imp_left fun hroom => ?_
          unfold Room at hroom ⊢
          omega
        · rintro ok m3 ⟨hm3, htrue, hfalse⟩
          refine ⟨(hm1.trans hm2).trans hm3, fun hok => ?_, hfalse⟩
          rw [show k + (n + 1) = k + 1 + n by omega]
          exact htrue hok
      | false =>
        rw [if_neg (by decide)] at hl2 hm2
        have hg2 := hg1.moves hm2
        have hx2 := hx1.still hK hkF hperm' hl2 hsh.kend fun q hq y hy =>
          hg1.user_byte hsh (Multiset.mem_add.mpr (.inl hq)) hy
        refine Spec.bind (kfree_held hg2) ?_
        rintro _ m3 ⟨hm3, hl3, -, hb3⟩
        have hx3 := hx2.still hK hkF hperm' hl3 hm3.shuffle.kend hb3
        refine Spec.bind (hx3.undo (hg2.moves hm3) hK hf hkF) ?_
        rintro _ m4 ⟨hm4, hl4⟩
        exact Spec.pure ⟨((hm1.trans hm2).trans hm3).trans hm4, (by simp), fun _ => hl4⟩

/-- **Growing.** The pages up to the new size are mapped to zeroed pages, or the mappings are as before. There are no
mappings from the old size to TRAPFRAME; if the trapframe is mapped there and reached, that is a remap. -/
theorem uvmalloc_spec (hg : Good K m r h) (hK : ∀ x, pages oldsz ≤ x → x ∈ K) (hold : oldsz ≤ TRAPFRAME)
    (hnone : ∀ x, pages oldsz ≤ x → x < FRAME → leaf m.entry r x = none) (hperm : xperm < 2 ^ 10)
    (hroom : (newsz ≤ TRAPFRAME ∨ pages oldsz + m.free.length ≤ FRAME) ∨ leaf m.entry r FRAME ≠ none ∧ E .remap) :
    Spec (uvmalloc r oldsz newsz xperm) m (fun w m' => Moves K r h h m m' ∧
      ((w = 0 ∧ leaf m'.entry r = leaf m.entry r) ∨
        w = max oldsz newsz ∧ w ≤ TRAPFRAME ∧
          Extended (leaf m.entry r) (pages oldsz) (pages w) (PTE_R ||| PTE_U ||| xperm) m' r)) E := by
  have hbig : TRAPFRAME < 2 ^ 63 := by decide
  have hself : ∀ m, Extended (leaf m.entry r) (pages oldsz) (pages oldsz) (PTE_R ||| PTE_U ||| xperm) m r := fun m =>
    ⟨fun _ _ => rfl, fun x h1 h2 => by omega⟩
  unfold uvmalloc
  refine Spec.ite (fun hlt => Spec.pure ⟨hg.refl, .inr ⟨by omega, hold, ?_⟩⟩) fun hge => ?_
  · exact hself m
  rw [PGROUNDUP_eq (by omega)]
  have hkF := pages_le hold
  -- the loop runs for the pages between the two sizes
  have hn : (newsz - pages oldsz * PGSIZE + (PGSIZE - 1)) / PGSIZE = pages newsz - pages oldsz := by
    unfold pages PGSIZE
    omega
  have hle : pages oldsz ≤ pages newsz := pages_mono (by omega)
  dsimp only
  rw [hn]
  refine Spec.bind (uvmallocLoop_spec hg hK (hself m) hnone le_rfl hkF hperm ?_) ?_
  · refine hroom.imp_left fun h => h.imp_left fun hnew => ?_
    have := pages_le hnew
    omega
  rintro ok m' ⟨hm, htrue, hfalse⟩
  rw [show pages oldsz + (pages newsz - pages oldsz) = pages newsz by omega] at htrue
  cases ok with
  | true =>
    obtain ⟨hF, hx⟩ := htrue rfl
    have hmax : max oldsz newsz = newsz := by omega
    refine Spec.pure ⟨hm, .inr ⟨hmax.symm, ?_, hx⟩⟩
    rw [trapframe_eq]
    exact (le_pages newsz).trans (Nat.mul_le_mul_right _ hF)
  | false => exact Spec.pure ⟨hm, .inl ⟨rfl, hfalse rfl⟩⟩

end Xv6.Vm
