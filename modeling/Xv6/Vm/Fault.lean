/-
The address space of a process, page faults and `uvmcopy`.

- `Space`: the mappings of a process: user memory below its size, the trapframe and the trampoline.
-/
import Xv6.Vm.Free

namespace Xv6.Vm

open Xv6.Core
open Fs (PGSIZE)

variable {K : Set ℕ} {m m' m'' m0 : Mem} {r t p a va k n i x e z sz tf old new : ℕ} {h H R H' : Multiset ℕ}
  {E : Panic → Prop}

/-! ## Address spaces -/

/-- the mappings of a process of size sz with trapframe page tf -/
structure Space (m : Mem) (r sz tf : ℕ) : Prop where
  frame : leaf m.entry r FRAME = some (pteOf tf (PTE_R ||| PTE_W))
  tramp : leaf m.entry r TRAMP = some (pteOf m.trampoline (PTE_R ||| PTE_X))
  below : ∀ k, leaf m.entry r k ≠ none → k < pages sz ∨ k = FRAME ∨ k = TRAMP
  tf_lt : tf < 2 ^ 64
  tramp_lt : m.trampoline < 2 ^ 64
  sz_le : sz ≤ TRAPFRAME

theorem has_pteOf (hp : p < 2 ^ 64) {f b : ℕ} (hf : f < 2 ^ 10) (hb : 0x3FF &&& b = b) :
    has (pteOf p f) b = has (f ||| PTE_V) b := by
  have hflags := (pteOf_facts hp hf).2.2.1
  have hand : pteOf p f &&& b = PTE_FLAGS (pteOf p f) &&& b := by
    unfold PTE_FLAGS
    rw [Nat.and_assoc, hb]
  unfold has
  rw [hand, hflags]

theorem Space.user (hs : Space m r sz tf) (he : leaf m.entry r k = some e) (hU : has e PTE_U = true) :
    k < pages sz := by
  rcases hs.below k (by rw [he]; simp) with hk | rfl | rfl
  · exact hk
  · rw [hs.frame] at he
    cases he
    rw [has_pteOf hs.tf_lt (by decide) (by decide)] at hU
    exact absurd hU (by decide)
  · rw [hs.tramp] at he
    cases he
    rw [has_pteOf hs.tramp_lt (by decide) (by decide)] at hU
    exact absurd hU (by decide)

theorem Space.pages_le (hs : Space m r sz tf) : pages sz ≤ FRAME := Vm.pages_le hs.sz_le

/-- user mappings change below the new size only -/
theorem Space.of_leaf {sz' : ℕ} (hs : Space m r sz tf) (htr : m'.trampoline = m.trampoline) (hsz : sz' ≤ TRAPFRAME)
    (hF : leaf m'.entry r FRAME = leaf m.entry r FRAME) (hT : leaf m'.entry r TRAMP = leaf m.entry r TRAMP)
    (hl : ∀ k, leaf m'.entry r k ≠ none → k < pages sz' ∨ k = FRAME ∨ k = TRAMP) : Space m' r sz' tf :=
  ⟨hF.trans hs.frame, by rw [hT, htr]; exact hs.tramp, hl, hs.tf_lt, by rw [htr]; exact hs.tramp_lt, hsz⟩

theorem Space.congr (hs : Space m r sz tf) (htr : m'.trampoline = m.trampoline)
    (hl : leaf m'.entry r = leaf m.entry r) :
    Space m' r sz tf :=
  hs.of_leaf htr hs.sz_le (by rw [hl]) (by rw [hl]) fun k hk => hs.below k (by rw [← hl]; exact hk)

/-- a page table with trampoline and trapframe, for a process of any size -/
theorem Space.of_framed (htr : m'.trampoline = m.trampoline) (htf : tf < 2 ^ 64) (htr' : m.trampoline < 2 ^ 64)
    (hsz : sz ≤ TRAPFRAME) (hl : leaf m'.entry r = framed m tf) : Space m' r sz tf := by
  have hne : TRAMP ≠ FRAME := by decide
  unfold framed at hl
  refine ⟨?_, ?_, fun k hk => ?_, htf, by rw [htr]; exact htr', hsz⟩
  · rw [hl, Function.update_self]
  · rw [hl, Function.update_of_ne hne, Function.update_self, htr]
  · by_contra hcon
    rw [not_or, not_or] at hcon
    rw [hl, Function.update_of_ne hcon.2.1, Function.update_of_ne hcon.2.2] at hk
    exact hk rfl

/-! ## Pages that a function does not touch -/

/-- the pages in R are neither free nor in H -/
def Apart (R : Multiset ℕ) (m : Mem) (H : Multiset ℕ) : Prop := ∀ p, p ∈ R → p ∉ ↑m.free + H

theorem Base.apart (hb : Base m (H + R)) : Apart R m H := by
  intro p hp hmem
  have hb' := hb
  rcases Multiset.mem_add.mp hmem with hf | hH
  · exact hb'.free_notMem (Multiset.mem_coe.mp hf) (Multiset.mem_add.mpr (.inr hp))
  · exact hb'.notMem_of_mem hH hp

theorem Apart.shuffle (ha : Apart R m H) (hs : Shuffle H H' m m') : Apart R m' H' := by
  intro p hp
  rw [hs.pages]
  exact ha p hp

theorem Apart.byte (ha : Apart R m H) (hs : Shuffle H H' m m') (hx : PGROUNDDOWN x ∈ R) :
    m'.byte x = m.byte x := hs.frame x (ha _ hx)

theorem Apart.still (ha : Apart R m H) (hs : Shuffle H H' m m') (ht : Tree m.entry r)
    (hR : ∀ p, p ∈ tables m.entry r → p ∈ R) : Still r m m' :=
  still_of_frame ht fun _ hx => ha.byte hs (hR _ hx)

/-! ## Page faults -/

theorem ismapped_eq (hk : k < 2 ^ 26) : ismapped r (k * PGSIZE) m = .ok ((leaf m.entry r k).isSome, m) := by
  have hva : k * PGSIZE < MAXVA := page_lt_maxva hk
  unfold ismapped
  rw [bind_ok (walk_lookup hva), page_div]
  unfold leaf
  cases low m.entry r (k / 512) with
  | none => rfl
  | some t =>
    show (loadPte _ >>= _) m = _
    rw [bind_ok (loadPte_eq m t (k % 512))]
    show Except.ok (has (m.entry t (k % 512)) PTE_V, m) = _
    rw [Option.bind_some]
    unfold valid
    split_ifs with hv
    · rw [hv]; rfl
    · rw [Bool.eq_false_of_not_eq_true hv]; rfl

/-- the user page of an entry, 0 for none -/
def userAddr (o : Option ℕ) : ℕ :=
  match o with
  | some e => if has e PTE_U then PTE2PA e else 0
  | none => 0

theorem walkaddr_eq (hk : k < 2 ^ 26) : walkaddr r (k * PGSIZE) m = .ok (userAddr (leaf m.entry r k), m) := by
  have hva : k * PGSIZE < MAXVA := page_lt_maxva hk
  unfold walkaddr
  rw [if_neg (by omega), bind_ok (walk_lookup hva), page_div]
  unfold leaf
  cases low m.entry r (k / 512) with
  | none => rfl
  | some t =>
    show (loadPte _ >>= _) m = _
    rw [bind_ok (loadPte_eq m t (k % 512)), Option.bind_some]
    unfold valid
    cases has (m.entry t (k % 512)) PTE_V with
    | false => rfl
    | true =>
      rw [if_neg (by decide), if_pos rfl]
      unfold userAddr
      dsimp only
      cases has (m.entry t (k % 512)) PTE_U <;> rfl

/-- the permissions that `vmfault` gives -/
def RWU : ℕ := PTE_W ||| PTE_U ||| PTE_R

/-! ### Enough memory -/

/-- at most n pages are used, and no failure of `kalloc` is added -/
def Uses (n : ℕ) (m m' : Mem) : Prop := (m.deny = [] → m'.deny = []) ∧ m.free.length ≤ m'.free.length + n

theorem Uses.trans {n' : ℕ} (h1 : Uses n m m') (h2 : Uses n' m' m'') : Uses (n + n') m m'' :=
  ⟨fun hd => h2.1 (h1.1 hd), by have := h1.2; have := h2.2; omega⟩

theorem kalloc_memory : Spec kalloc m (fun o m' => (Uses 1 m m' ∧ (o = none → m.deny ≠ [] ∨ m.free = []))) E := by
  have hdeny : m.deny = [] → m.deny.tail = [] := fun hd => by rw [hd]; rfl
  unfold kalloc
  refine Spec.bind_ok rfl (Spec.ite (fun hd => ?_) fun _ => ?_)
  · exact Spec.of_ok rfl ⟨⟨hdeny, Nat.le_succ _⟩, fun _ => .inl fun h0 => by rw [h0] at hd; cases hd⟩
  split
  case h_1 hfree => exact Spec.of_ok rfl ⟨⟨hdeny, Nat.le_succ _⟩, fun _ => .inr hfree⟩
  case h_2 p rest hfree =>
    refine Spec.of_ok rfl ⟨⟨hdeny, ?_⟩, fun hcon => by cases hcon⟩
    rw [hfree]
    exact le_rfl

theorem walkLevel_memory {level : ℕ} : Spec (walkLevel va true t level) m
    (fun o m' => Uses 1 m m' ∧ (o = none → m.deny ≠ [] ∨ m.free = [])) E := by
  unfold walkLevel
  refine Spec.bind_ok (a := m.entry t (PX level va)) (t := m) rfl (Spec.ite (fun _ => ?_) fun _ => ?_)
  · exact Spec.pure ⟨⟨id, Nat.le_succ _⟩, fun hcon => by cases hcon⟩
  · refine Spec.ite (fun hf => by cases hf) fun _ => Spec.bind kalloc_memory fun o m1 h1 => ?_
    cases o with
    | none => exact Spec.pure h1
    | some p => exact Spec.of_ok rfl ⟨h1.1, fun hcon => by cases hcon⟩

theorem mapPage_memory {perm : ℕ} : Spec (mappages r va PGSIZE p perm) m
    (fun ok m' => Uses 2 m m' ∧ (ok = false → m.deny ≠ [] ∨ m.free.length < 2)) fun _ => True := by
  unfold mappages
  refine Spec.ite (fun _ => Spec.throw trivial) fun _ => Spec.ite (fun _ => Spec.throw trivial) fun _ =>
    Spec.ite (fun _ => Spec.throw trivial) fun _ => ?_
  rw [show PGSIZE / PGSIZE = 0 + 1 by decide, mappagesLoop]
  have hwalk : Spec (walk r va true) m (fun o m' => Uses 2 m m' ∧ (o = none → m.deny ≠ [] ∨ m.free.length < 2))
      fun _ => True := by
    unfold walk
    refine Spec.ite (fun _ => Spec.throw trivial) fun _ => Spec.bind walkLevel_memory fun o m1 h1 => ?_
    cases o with
    | none =>
      refine Spec.pure ⟨⟨h1.1.1, h1.1.2.trans (by omega)⟩, fun _ => (h1.2 rfl).imp_right fun hf => ?_⟩
      rw [hf]
      decide
    | some t =>
      refine Spec.bind walkLevel_memory fun o m2 h2 => ?_
      cases o with
      | none =>
        refine Spec.pure ⟨h1.1.trans h2.1, fun _ => ?_⟩
        by_cases hd : m.deny = []
        · have hlen := h1.1.2
          have hf := (h2.2 rfl).resolve_left (not_not.mpr (h1.1.1 hd))
          rw [hf] at hlen
          exact .inr (by simpa using Nat.lt_succ_of_le hlen)
        · exact .inl hd
      | some t' => exact Spec.pure ⟨h1.1.trans h2.1, fun hcon => by cases hcon⟩
  refine Spec.bind hwalk fun o m1 h1 => ?_
  cases o with
  | none => exact Spec.pure ⟨h1.1, fun _ => h1.2 rfl⟩
  | some pte =>
    refine Spec.bind_ok (a := m1.byte.load 8 pte) (t := m1) rfl (Spec.ite (fun _ => Spec.throw trivial) fun _ => ?_)
    exact Spec.of_ok rfl ⟨h1.1, fun hcon => by cases hcon⟩

/-! ### `vmfault` -/

/-- how the page of number k is found -/
inductive Found (sz k r : ℕ) (m m' : Mem) : ℕ → Prop
  /-- it is a mapped user page -/
  | hit {e : ℕ} (he : leaf m.entry r k = some e) (hU : has e PTE_U = true) (hm : m' = m) : Found sz k r m m' (PTE2PA e)
  /-- it is not a page of the process, or not for the user -/
  | miss (hm : m' = m) (hnone : leaf m.entry r k = none → pages sz ≤ k)
      (hU : ∀ e, leaf m.entry r k = some e → has e PTE_U = false) : Found sz k r m m' 0
  /-- it is mapped to a zeroed page now -/
  | fresh {p : ℕ} (hnone : leaf m.entry r k = none) (hk : k < pages sz) (hp : Usable m' p)
      (hl : leaf m'.entry r = Function.update (leaf m.entry r) k (some (pteOf p RWU)))
      (hzero : ∀ x, PGROUNDDOWN x = p → m'.byte x = 0)
      (hb : ∀ x, PGROUNDDOWN x ∈ users Set.univ m r → m'.byte x = m.byte x)
      (hfree : m.free.length ≤ m'.free.length + 3) (hdeny : m.deny = [] → m'.deny = []) : Found sz k r m m' p
  /-- there is not enough memory -/
  | full (hnone : leaf m.entry r k = none) (hk : k < pages sz) (hl : leaf m'.entry r = leaf m.entry r)
      (hb : ∀ x, PGROUNDDOWN x ∈ users Set.univ m r → m'.byte x = m.byte x)
      (hfull : m.free.length < 3 ∨ m.deny ≠ []) : Found sz k r m m' 0

/-- sz is the part of the size z that can be mapped; with more the kernel may reach the panic of `walk` -/
structure Capped (z sz : ℕ) (E : Panic → Prop) : Prop where
  eq : sz = min z TRAPFRAME
  panic : TRAPFRAME < z → E .walk

theorem Space.capped (hs : Space m r sz tf) : Capped sz sz E :=
  ⟨(min_eq_left hs.sz_le).symm, fun hlt => absurd hs.sz_le (not_le.mpr hlt)⟩

/-- the pages from TRAPFRAME on are mapped, or beyond what `walk` takes -/
theorem ismapped_above (hs : Space m r sz tf) (hz : Capped z sz E) (hk : FRAME ≤ k) (hlt : k * PGSIZE < z) :
    Spec (ismapped r (k * PGSIZE)) m (fun b m' => b = true ∧ m' = m ∧ leaf m.entry r k ≠ none) E := by
  rcases lt_or_ge k (2 ^ 26) with h26 | h26
  · have hleaf : leaf m.entry r k ≠ none := by
      obtain rfl | rfl : k = FRAME ∨ k = TRAMP := by unfold FRAME at *; unfold TRAMP; omega
      · rw [hs.frame]; simp
      · rw [hs.tramp]; simp
    exact Spec.of_ok (ismapped_eq h26) ⟨Option.isSome_iff_ne_none.mpr hleaf, rfl, hleaf⟩
  · have hva : MAXVA ≤ k * PGSIZE := by
      rw [maxva_eq]
      exact Nat.mul_le_mul_right _ h26
    unfold ismapped walk
    rw [if_pos hva]
    exact Spec.bind_error (e := .walk) rfl (hz.panic ((show TRAPFRAME < MAXVA by decide).trans_le (hva.trans hlt.le)))

/-- `vmfault` for a page that is not mapped: the page is mapped now, or there is not enough memory -/
theorem vmfault_spec (hg : Good Set.univ m r h) (hs : Space m r sz tf) (hz : Capped z sz E) :
    Spec (vmfault ⟨z, r⟩ r (k * PGSIZE)) m (fun w m' => Moves Set.univ r h h m m' ∧
      ((w = 0 ∧ m' = m ∧ (leaf m.entry r k = none → pages sz ≤ k)) ∨ leaf m.entry r k = none ∧ Found sz k r m m' w))
        E := by
  have hlt : k * PGSIZE < sz ↔ k < pages sz := by
    unfold pages PGSIZE
    omega
  have hle : sz ≤ z := hz.eq ▸ min_le_left _ _
  unfold vmfault
  refine Spec.ite (fun hge => Spec.pure ⟨hg.refl, .inl ⟨rfl, rfl, fun _ => ?_⟩⟩) fun hge => ?_
  · exact not_lt.mp fun hk => absurd ((hlt.mpr hk).trans_le hle) (by simpa using hge)
  have hltz : k * PGSIZE < z := by simpa using hge
  rw [show PGROUNDDOWN (k * PGSIZE) = k * PGSIZE by unfold PGROUNDDOWN; rw [page_div]]
  rcases lt_or_ge k FRAME with hkF | hkF
  swap
  · refine Spec.bind (ismapped_above hs hz hkF hltz) ?_
    rintro _ _ ⟨rfl, rfl, hne⟩
    exact Spec.pure ⟨hg.refl, .inl ⟨rfl, rfl, fun hcon => absurd hcon hne⟩⟩
  have hk : k < pages sz := hlt.mp (by
    rw [hz.eq, trapframe_eq]
    exact lt_min hltz (Nat.mul_lt_mul_of_pos_right hkF (by decide)))
  refine Spec.bind_ok (ismapped_eq (hkF.trans (by decide))) ?_
  cases hl : leaf m.entry r k with
  | some e => exact Spec.pure ⟨hg.refl, .inl ⟨rfl, rfl, fun hcon => by cases hcon⟩⟩
  | none =>
    show Spec (kalloc >>= _) m _ E
    refine Spec.bind (Spec.and (kalloc_spec hg.base) (kalloc_memory (E := fun _ => True))) ?_
    rintro o m1 ⟨hal, huse1, hfull1⟩
    cases o with
    | none =>
      obtain ⟨-, hbyte, hsh⟩ := hal
      have hst : Still r m m1 := still_of_frame hg.tree fun x _ => congrFun hbyte x
      refine Spec.pure ⟨⟨hst.tree, by rw [hst.pagesOf]; exact hsh⟩, .inr ⟨rfl, .full hl hk hst.leaf
        (fun x _ => congrFun hbyte x) ?_⟩⟩
      refine (hfull1 rfl).symm.imp_left fun hf => ?_
      rw [hf]
      decide
    | some q =>
      have hfr := fresh_of_alloced hg.base hal
      refine Spec.bind_ok (a := ()) (t := m1.fillPage q 0) rfl ?_
      have hst := hfr.still hg
      have hm1 : Moves Set.univ r h (q ::ₘ h) m (m1.fillPage q 0) := hst.moves hfr.shuffle
      have hg1 := hg.moves hm1
      have hb1 : ∀ x, PGROUNDDOWN x ∈ users Set.univ m r → (m1.fillPage q 0).byte x = m.byte x := fun x hx =>
        hfr.out x fun he => hg.base.free_notMem hfr.mem (Multiset.mem_of_le users_le (he ▸ hx))
      have husers : users Set.univ (m1.fillPage q 0) r = users Set.univ m r := users_congr hst.leaf
      refine Spec.bind (Spec.and (mapUser_spec hg1 hkF (Set.mem_univ k) (by decide) (by rw [hst.leaf]; exact hl))
        (mapPage_memory (m := m1.fillPage q 0))) ?_
      rintro ok m2 ⟨⟨-, hm2, hsh2, hl2⟩, huse2, hfull2⟩
      have hb2 : ∀ x, PGROUNDDOWN x ∈ users Set.univ m r → m2.byte x = m.byte x := fun x hx => by
        rw [hg1.user_byte hsh2 (Multiset.mem_add.mpr (.inl (by rw [husers]; exact hx))) rfl]
        exact hb1 x hx
      have hzero2 : ∀ x, PGROUNDDOWN x = q → m2.byte x = 0 := fun x hx => by
        rw [hg1.user_byte hsh2 (Multiset.mem_add.mpr (.inr (Multiset.mem_cons_self q h))) hx]
        exact hfr.zero x hx
      cases ok with
      | true =>
        rw [if_pos rfl] at hl2 hm2
        rw [hst.leaf] at hl2
        have hq : Usable m2 q := by
          have := hg.base.free_usable hfr.mem
          unfold Usable at this ⊢
          rwa [hm2.shuffle.kend, hfr.kend]
        have huse : Uses 3 m m2 := huse1.trans huse2
        exact Spec.pure ⟨hm1.trans hm2, .inr ⟨rfl, .fresh hl hk hq hl2 hzero2 hb2 huse.2 huse.1⟩⟩
      | false =>
        rw [if_neg (by decide)] at hl2 hm2
        have hg2 := hg1.moves hm2
        refine Spec.bind (kfree_held hg2) ?_
        rintro _ m3 ⟨hm3, hl3, hout3, -⟩
        refine Spec.pure ⟨(hm1.trans hm2).trans hm3, .inr ⟨rfl, .full hl hk (hl3.trans (hl2.trans hst.leaf))
          (fun x hx => ?_) ?_⟩⟩
        · rw [hout3 x fun he => hg.base.free_notMem hfr.mem (Multiset.mem_of_le users_le (he ▸ hx))]
          exact hb2 x hx
        rcases hfull2 rfl with hd | hlen
        · exact .inr fun h0 => hd (huse1.1 h0)
        · have := huse1.2
          refine .inl ?_
          have h2 : (m1.fillPage q 0).free.length = m1.free.length := rfl
          omega

/-- no page from MAXVA on is mapped -/
theorem walkaddr_space (hs : Space m r sz tf) : walkaddr r (k * PGSIZE) m = .ok (userAddr (leaf m.entry r k), m) := by
  by_cases hk : k < 2 ^ 26
  · exact walkaddr_eq hk
  have hnone : leaf m.entry r k = none := by
    by_contra hne
    have hF := hs.pages_le
    unfold FRAME at hF
    rcases hs.below k hne with h1 | h1 | h1
    · omega
    · rw [h1] at hk; exact hk (by decide)
    · rw [h1] at hk; exact hk (by decide)
  have hge : k * PGSIZE ≥ MAXVA := by
    rw [maxva_eq]
    exact Nat.mul_le_mul_right _ (not_lt.mp hk)
  unfold walkaddr
  rw [if_pos hge, hnone]
  rfl

theorem Space.usable (hs : Space m r sz tf) (hg : Good Set.univ m r h) (he : leaf m.entry r k = some e)
    (hU : has e PTE_U = true) : PTE2PA e ∈ users Set.univ m r ∧ Usable m (PTE2PA e) := by
  have hmem : PTE2PA e ∈ users Set.univ m r :=
    mem_users.mpr ⟨k, e, (hs.user he hU).trans_le hs.pages_le, Set.mem_univ k, he, rfl⟩
  exact ⟨hmem, hg.base.held_usable (Multiset.mem_of_le users_le hmem)⟩

/-- **Finding the page of a user address.** -/
theorem userPage_spec (hg : Good Set.univ m r h) (hs : Space m r sz tf) (hz : Capped z sz E) :
    Spec (userPage ⟨z, r⟩ r (k * PGSIZE)) m (fun w m' => Moves Set.univ r h h m m' ∧ Found sz k r m m' w) E := by
  have hnz : ∀ e, leaf m.entry r k = some e → has e PTE_U = true → PTE2PA e ≠ 0 := fun e he hU =>
    (hs.usable hg he hU).2.ne_zero
  unfold userPage
  refine Spec.bind_ok (walkaddr_space hs) (Spec.ite (fun h0 => ?_) fun h0 => ?_)
  · have hU : ∀ e, leaf m.entry r k = some e → has e PTE_U = false := fun e he => by
      by_contra hU
      have hU' : has e PTE_U = true := by simpa using hU
      rw [he] at h0
      unfold userAddr at h0
      dsimp only at h0
      rw [if_pos hU'] at h0
      exact hnz e he hU' h0
    refine Spec.post (vmfault_spec hg hs hz) ?_
    rintro w m' ⟨hm, ⟨rfl, hmm, hnone⟩ | ⟨-, hfound⟩⟩
    · exact ⟨hm, .miss hmm hnone hU⟩
    · exact ⟨hm, hfound⟩
  · refine Spec.pure ⟨hg.refl, ?_⟩
    cases hl : leaf m.entry r k with
    | none => rw [hl] at h0; exact absurd rfl h0
    | some e =>
      rw [hl] at h0
      unfold userAddr at h0 ⊢
      dsimp only at h0 ⊢
      cases hU : has e PTE_U with
      | false => rw [hU] at h0; exact absurd rfl h0
      | true =>
        rw [if_pos rfl]
        exact .hit hl hU rfl

/-! ## `uvmcopy` -/

/-- the pages of the old table below page number k are copied to the new table; m0 is where it began -/
structure Copied (m0 : Mem) (old new k : ℕ) (m : Mem) : Prop where
  rest : ∀ x, k ≤ x → leaf m.entry new x = leaf m0.entry new x
  unmapped : ∀ x, x < k → leaf m0.entry old x = none → leaf m.entry new x = none
  page : ∀ x e, x < k → leaf m0.entry old x = some e → ∃ p, Usable m p ∧
    leaf m.entry new x = some (pteOf p (PTE_FLAGS e)) ∧ ∀ y, y < PGSIZE → m.byte (p + y) = m0.byte (PTE2PA e + y)

theorem flags_lt (e : ℕ) : PTE_FLAGS e < 2 ^ 10 := by
  unfold PTE_FLAGS
  rw [show 0x3FF = 2 ^ 10 - 1 from rfl, Nat.and_two_pow_sub_one_eq_mod]
  exact Nat.mod_lt _ (by decide)

theorem page_offset (hp : p % PGSIZE = 0) {y : ℕ} (hy : y < PGSIZE) : PGROUNDDOWN (p + y) = p :=
  page_of_in hp (Nat.le_add_right _ _) (Nat.add_lt_add_left hy p)

theorem Copied.keep (m' : Mem) (hc : Copied m0 old new k m) (hkF : k ≤ FRAME)
    (hl : ∀ x, x ≠ k → leaf m'.entry new x = leaf m.entry new x) (hkend : m'.kend = m.kend)
    (hb : ∀ q, q ∈ users Set.univ m new → ∀ y, PGROUNDDOWN y = q → m'.byte y = m.byte y) :
    (∀ x, k < x → leaf m'.entry new x = leaf m0.entry new x) ∧
      (∀ x, x < k → leaf m0.entry old x = none → leaf m'.entry new x = none) ∧
      ∀ x e, x < k → leaf m0.entry old x = some e → ∃ p, Usable m' p ∧
        leaf m'.entry new x = some (pteOf p (PTE_FLAGS e)) ∧ ∀ y, y < PGSIZE → m'.byte (p + y) = m0.byte
          (PTE2PA e + y) := by
  refine ⟨fun x hx => (hl x (by omega)).trans (hc.rest x hx.le), fun x hx h0 => (hl x (by omega)).trans
    (hc.unmapped x hx h0),
    fun x e hx he => ?_⟩
  obtain ⟨q, hq, hlq, hbytes⟩ := hc.page x e hx he
  have hmem : q ∈ users Set.univ m new :=
    mem_users.mpr ⟨x, _, by omega, Set.mem_univ x, hlq, (pteOf_facts hq.lt (flags_lt e)).2.2.2 hq.1⟩
  refine ⟨q, ?_, (hl x (by omega)).trans hlq, fun y hy => ?_⟩
  · unfold Usable at hq ⊢
    rwa [hkend]
  · rw [hb q hmem _ (page_offset hq.1 hy)]
    exact hbytes y hy

theorem Copied.still (hc : Copied m0 old new k m) (hkF : k ≤ FRAME) (hl : leaf m'.entry new = leaf m.entry new)
    (hkend : m'.kend = m.kend) (hb : ∀ q, q ∈ users Set.univ m new → ∀ y, PGROUNDDOWN y = q → m'.byte y = m.byte y) :
    Copied m0 old new k m' := by
  obtain ⟨-, hu, hp⟩ := hc.keep _ hkF (fun x _ => congrFun hl x) hkend hb
  exact ⟨fun x hx => (congrFun hl x).trans (hc.rest x hx), hu, hp⟩

theorem Copied.skip (hc : Copied m0 old new k m) (hold : leaf m0.entry old k = none)
    (hnew : leaf m0.entry new k = none) :
    Copied m0 old new (k + 1) m := by
  refine ⟨fun x hx => hc.rest x (by omega), fun x hx h0 => ?_, fun x e hx he => ?_⟩
  · by_cases hxk : x = k
    · rw [hxk, hc.rest k le_rfl]; exact hnew
    · exact hc.unmapped x (by omega) h0
  · have hxk : x ≠ k := by
      rintro rfl
      rw [hold] at he
      cases he
    exact hc.page x e (by omega) he

theorem Copied.push (hc : Copied m0 old new k m) (hg : Good Set.univ m new (p ::ₘ h)) (hkF : k < FRAME)
    (hold : leaf m0.entry old k = some e) (hcopy : ∀ y, y < PGSIZE → m.byte (p + y) = m0.byte (PTE2PA e + y))
    (hsh : Shuffle (tables m.entry new) (tables m'.entry new) m m')
    (hl : leaf m'.entry new = Function.update (leaf m.entry new) k (some (pteOf p (PTE_FLAGS e)))) :
    Copied m0 old new (k + 1) m' := by
  obtain ⟨hrest, hu, hpage⟩ := hc.keep m' hkF.le (fun x hxk => by rw [hl, Function.update_of_ne hxk]) hsh.kend
    fun q hq y hy => hg.user_byte hsh (Multiset.mem_add.mpr (.inl hq)) hy
  have hp := hg.held_usable (Multiset.mem_cons_self p h)
  refine ⟨fun x hx => hrest x (by omega), fun x hx h0 => hu x ?_ h0, fun x e' hx he => ?_⟩
  · have hxk : x ≠ k := by
      rintro rfl
      rw [hold] at h0
      cases h0
    omega
  · by_cases hxk : x = k
    · subst hxk
      rw [hold] at he
      cases he
      refine ⟨p, ?_, by rw [hl, Function.update_self], fun y hy => ?_⟩
      · unfold Usable at hp ⊢
        rwa [hsh.kend]
      · rw [hg.user_byte hsh (Multiset.mem_add.mpr (.inr (Multiset.mem_cons_self p h))) (page_offset hp.1 hy)]
        exact hcopy y hy
    · exact hpage x e' (by omega) he

theorem Copied.undo (hc : Copied m0 old new k m) (hg : Good Set.univ m new h) (hkF : k ≤ FRAME)
    (hnew : ∀ x, x < FRAME → leaf m0.entry new x = none) :
    Spec (uvmunmap new 0 k true) m (fun _ m' => Moves Set.univ new h h m m' ∧ leaf m'.entry new = leaf m0.entry new)
      E := by
  have hun := unmapUser_spec (E := E) (k := 0) (n := k) hg (by omega) fun x _ _ => Set.mem_univ x
  rw [Nat.zero_mul] at hun
  refine Spec.post hun ?_
  rintro _ m' ⟨hm, -, hl⟩
  refine ⟨hm, ?_⟩
  funext x
  rw [hl]
  unfold without
  split_ifs with hin
  · exact (hnew x (by omega)).symm
  · exact hc.rest x (by omega)

/-- the pages that the new table maps were free when it began -/
def Drawn (m0 : Mem) (new : ℕ) (m : Mem) : Prop :=
  m.free <:+ m0.free ∧ ∀ k e, k < FRAME → leaf m.entry new k = some e → PTE2PA e ∈ m0.free

theorem Drawn.push {perm : ℕ} (hd : Drawn m0 new m) (hfree : m.free = p :: m'.free) (hsuf : m''.free <:+ m'.free)
    (hp : Usable m p) (hperm : perm < 2 ^ 10)
    (hl : leaf m''.entry new = Function.update (leaf m.entry new) k (some (pteOf p perm))) : Drawn m0 new m'' := by
  have hsuf' : m'.free <:+ m.free := by
    rw [hfree]
    exact List.suffix_cons p m'.free
  refine ⟨(hsuf.trans hsuf').trans hd.1, fun x e hx he => ?_⟩
  rw [hl] at he
  by_cases hxk : x = k
  · rw [hxk, Function.update_self] at he
    cases he
    rw [(pteOf_facts hp.lt hperm).2.2.2 hp.1]
    exact hd.1.subset (by rw [hfree]; exact List.mem_cons_self)
  · rw [Function.update_of_ne hxk] at he
    exact hd.2 x e hx he

theorem uvmcopyLoop_spec (hg : Good Set.univ m new h) (hold : Tree m0.entry old) (hc : Copied m0 old new k m)
    (hap : Apart (pagesOf Set.univ m0 old) m (pagesOf Set.univ m new + h))
    (hsame : ∀ x, PGROUNDDOWN x ∈ pagesOf Set.univ m0 old → m.byte x = m0.byte x)
    (hnew : ∀ x, x < FRAME → leaf m0.entry new x = none) (hkn : k + n ≤ FRAME) (hd : Drawn m0 new m) :
    Spec (uvmcopyLoop old new n (k * PGSIZE)) m (fun ok m' => Moves Set.univ new h h m m' ∧
      (ok = true → Copied m0 old new (k + n) m' ∧ Drawn m0 new m') ∧
      (ok = false → leaf m'.entry new = leaf m0.entry new)) E := by
  induction n generalizing m k with
  | zero => exact Spec.pure ⟨hg.refl, fun _ => ⟨hc, hd⟩, fun hcon => by cases hcon⟩
  | succ n ih =>
    have hkF : k < FRAME := by omega
    have hva : k * PGSIZE < MAXVA := page_lt_maxva (hkF.trans (by decide))
    -- the old page table is as it was
    have hst : Still old m0 m := still_of_frame hold fun x hx => hsame x (Multiset.mem_add.mpr (.inl hx))
    have hnext : k * PGSIZE + PGSIZE = (k + 1) * PGSIZE := by ring
    have hskip : leaf m0.entry old k = none → Spec (uvmcopyLoop old new n (k * PGSIZE + PGSIZE)) m (fun ok m' =>
        Moves Set.univ new h h m m' ∧ (ok = true → Copied m0 old new (k + (n + 1)) m' ∧ Drawn m0 new m') ∧
        (ok = false → leaf m'.entry new = leaf m0.entry new)) E := by
      intro h0
      rw [hnext, show k + (n + 1) = k + 1 + n by omega]
      exact ih hg (hc.skip h0 (hnew k hkF)) hap hsame (by omega) hd
    unfold uvmcopyLoop
    refine Spec.bind_ok (walk_lookup hva) ?_
    rw [page_div, hst.low]
    cases hlow : low m0.entry old (k / 512) with
    | none => exact hskip (leaf_none_of_low hlow)
    | some t =>
      have hent : leaf m0.entry old k = valid (m.entry t (k % 512)) := by
        rw [← hst.leaf, leaf_of_low (by rw [hst.low]; exact hlow)]
      refine Spec.bind_ok (loadPte_eq m t (k % 512)) (Spec.ite (fun hv => ?_) fun hv => ?_)
      · exact hskip (by rw [hent]; exact valid_eq_none.mpr hv)
      have he : leaf m0.entry old k = some (m.entry t (k % 512)) := by
        rw [hent]
        exact valid_eq_some.mpr ⟨by simpa using hv, rfl⟩
      generalize m.entry t (k % 512) = e at he ⊢
      refine Spec.bind (kalloc_spec hg.base) fun o m1 hal => ?_
      cases o with
      | none =>
        obtain ⟨-, hbyte, hsh⟩ := hal
        have hs1 : Still new m m1 := still_of_frame hg.tree fun x _ => congrFun hbyte x
        have hm1 : Moves Set.univ new h h m m1 := ⟨hs1.tree, by rw [hs1.pagesOf]; exact hsh⟩
        have hc1 := hc.still hkF.le hs1.leaf hsh.kend fun _ _ y _ => congrFun hbyte y
        refine Spec.bind (hc1.undo (hg.moves hm1) hkF.le hnew) ?_
        rintro _ m2 ⟨hm2, hl2⟩
        exact Spec.pure ⟨hm1.trans hm2, (by simp), fun _ => hl2⟩
      | some p =>
        obtain ⟨hfree, hout, hsh⟩ := hal
        have hpf : p ∈ m.free := by rw [hfree]; exact List.mem_cons_self
        have hpu := hg.base.free_usable hpf
        -- the page and its copy
        let m2 : Mem := { m1 with byte := m1.byte.copy p (PTE2PA e) PGSIZE }
        have hout2 : ∀ x, PGROUNDDOWN x ≠ p → m2.byte x = m.byte x := fun x hx =>
          (Ram.copy_out (out_of_page hpu.1 hx)).trans (hout x hx)
        have hsh2 : Shuffle h (p ::ₘ h) m m2 := by
          refine ⟨?_, fun x hx => hout2 x ?_, hsh.kend, hsh.trampoline⟩
          · show (↑m1.free : Multiset ℕ) + p ::ₘ h = ↑m.free + h
            rw [hfree, ← Multiset.cons_coe, Multiset.cons_add, Multiset.add_cons]
          · rintro rfl
            exact hx (Multiset.mem_add.mpr (.inl (Multiset.mem_coe.mpr hpf)))
        have hs2 : Still new m m2 := still_of_frame hg.tree fun x hx => hout2 x fun h' => hg.free_notMem hpf (h' ▸ hx)
        have hm2 : Moves Set.univ new h (p ::ₘ h) m m2 := hs2.moves hsh2
        have hg2 := hg.moves hm2
        have hsrc : PTE2PA e ∈ pagesOf Set.univ m0 old :=
          Multiset.mem_add.mpr (.inr (mem_users.mpr ⟨k, e, hkF, Set.mem_univ k, he, rfl⟩))
        have hcopy : ∀ y, y < PGSIZE → m2.byte (p + y) = m0.byte (PTE2PA e + y) := by
          intro y hy
          have hoff := page_offset (PTE2PA_aligned e) hy
          have hne : PTE2PA e ≠ p := fun h' =>
            hap _ hsrc (Multiset.mem_add.mpr (.inl (Multiset.mem_coe.mpr (h' ▸ hpf))))
          calc m2.byte (p + y) = m1.byte (PTE2PA e + (p + y - p)) :=
                Ram.copy_in (Nat.le_add_right _ _) (Nat.add_lt_add_left hy p)
            _ = m1.byte (PTE2PA e + y) := by rw [Nat.add_sub_cancel_left]
            _ = m.byte (PTE2PA e + y) := hout _ (by rw [hoff]; exact hne)
            _ = m0.byte (PTE2PA e + y) := hsame _ (by rw [hoff]; exact hsrc)
        have hc2 := hc.still hkF.le hs2.leaf hsh2.kend fun q hq y hy =>
          hout2 y fun h' => hg.base.free_notMem hpf (Multiset.mem_of_le users_le (h' ▸ hy ▸ hq))
        refine Spec.bind_ok (a := ()) (t := m2) rfl ?_
        refine Spec.bind (mapUser_spec hg2 hkF (Set.mem_univ k) (flags_lt e)
          (by rw [hs2.leaf, hc.rest k le_rfl]; exact hnew k hkF)) ?_
        rintro ok m3 ⟨hsuf, hm3, hsh3, hl3⟩
        cases ok with
        | true =>
          rw [if_pos rfl] at hl3 hm3
          have hd3 : Drawn m0 new m3 := hd.push hfree hsuf hpu (flags_lt e) (by rw [hl3, hs2.leaf])
          have hc3 := hc2.push hg2 hkF he hcopy hsh3 hl3
          have hm13 := hm2.trans hm3
          show Spec (uvmcopyLoop old new n (k * PGSIZE + PGSIZE)) m3 _ E
          rw [hnext]
          refine Spec.post (ih (hg.moves hm13) hc3 (hap.shuffle hm13.shuffle)
            (fun x hx => (hap.byte hm13.shuffle hx).trans (hsame x hx)) (by omega) hd3) ?_
          rintro ok m4 ⟨hm4, htrue, hfalse⟩
          rw [show k + 1 + n = k + (n + 1) by omega] at htrue
          exact ⟨hm13.trans hm4, htrue, hfalse⟩
        | false =>
          rw [if_neg (by decide)] at hl3 hm3
          have hg3 := hg2.moves hm3
          have hc3 := hc2.still hkF.le hl3 hsh3.kend fun q hq y hy =>
            hg2.user_byte hsh3 (Multiset.mem_add.mpr (.inl hq)) hy
          refine Spec.bind (kfree_held hg3) ?_
          rintro _ m4 ⟨hm4, hl4, -, hb4⟩
          have hc4 := hc3.still hkF.le hl4 hm4.shuffle.kend hb4
          refine Spec.bind (hc4.undo (hg3.moves hm4) hkF.le hnew) ?_
          rintro _ m5 ⟨hm5, hl5⟩
          exact Spec.pure ⟨((hm2.trans hm3).trans hm4).trans hm5, (by simp), fun _ => hl5⟩

/-- **Copying the memory of a process** of size sz to a page table without user mappings. -/
theorem uvmcopy_spec (hg : Good Set.univ m new h) (hold : Tree m.entry old) (hsz : sz ≤ TRAPFRAME)
    (hap : Apart (pagesOf Set.univ m old) m (pagesOf Set.univ m new + h))
    (hnew : ∀ x, x < FRAME → leaf m.entry new x = none) :
    Spec (uvmcopy old new sz) m (fun ok m' => Moves Set.univ new h h m m' ∧
      (ok = true → Copied m old new (pages sz) m' ∧ Drawn m new m') ∧
      (ok = false → leaf m'.entry new = leaf m.entry new)) E := by
  have hF := pages_le hsz
  have hloop := uvmcopyLoop_spec (E := E) (n := pages sz) (k := 0) hg hold
    ⟨fun _ _ => rfl, fun x hx => by omega, fun x e hx => by omega⟩ hap (fun _ _ => rfl) hnew (by omega)
    ⟨List.suffix_rfl, fun x e hx he => by rw [hnew x hx] at he; cases he⟩
  rw [Nat.zero_mul, Nat.zero_add] at hloop
  exact hloop

end Xv6.Vm
