/-
Pages and who has them: the allocator and `walk`.

A function that works on one page table moves pages between the free list, the page-table pages, the mapped pages and
its own variables.
- `Base m H`, `Shuffle H H' m m'`: the free pages and those in H are distinct pages of the allocator; m' has the same
  pages, free or in H', and memory has not changed outside them.
- `Good K m r h`, `Moves K r h h' m m'`: the same for the pages of page table r, where only the mappings of page numbers
  in K are looked at, and the pages h in variables.
- `kalloc_spec`, `kfree_spec`: the allocator.
-/
import Xv6.Vm.Tree

namespace Xv6.Vm

open Xv6.Core
open Fs (PGSIZE)

variable {K L : Set ℕ} {m m' m'' : Mem} {r t p a va k i x v : ℕ} {h h' h'' g : Multiset ℕ} {E : Panic → Prop}

/-! ## Addresses -/

/-- the page numbers of TRAPFRAME and TRAMPOLINE -/
def FRAME : ℕ := 2 ^ 26 - 2
def TRAMP : ℕ := 2 ^ 26 - 1

theorem trapframe_eq : TRAPFRAME = FRAME * PGSIZE := by decide

theorem trampoline_eq : TRAMPOLINE = TRAMP * PGSIZE := by decide

theorem maxva_eq : MAXVA = 2 ^ 26 * PGSIZE := by decide

theorem page_lt_maxva (hk : k < 2 ^ 26) : k * PGSIZE < MAXVA := by
  rw [maxva_eq]
  exact Nat.mul_lt_mul_of_pos_right hk (by decide)

theorem PX_two (hva : va < MAXVA) : PX 2 va = va / PGSIZE / 512 / 512 := by
  unfold MAXVA at hva
  unfold PX PXSHIFT PGSIZE
  rw [show 0x1FF = 2 ^ 9 - 1 from rfl, Nat.and_two_pow_sub_one_eq_mod, Nat.shiftRight_eq_div_pow]
  omega

theorem PX_one (va : ℕ) : PX 1 va = va / PGSIZE / 512 % 512 := by
  unfold PX PXSHIFT PGSIZE
  rw [show 0x1FF = 2 ^ 9 - 1 from rfl, Nat.and_two_pow_sub_one_eq_mod, Nat.shiftRight_eq_div_pow]
  omega

theorem PX_zero (va : ℕ) : PX 0 va = va / PGSIZE % 512 := by
  unfold PX PXSHIFT PGSIZE
  rw [show 0x1FF = 2 ^ 9 - 1 from rfl, Nat.and_two_pow_sub_one_eq_mod, Nat.shiftRight_eq_div_pow]

theorem page_of_in (ht : t % PGSIZE = 0) (hx : t ≤ x) (hx' : x < t + PGSIZE) : PGROUNDDOWN x = t := by
  unfold PGROUNDDOWN
  unfold PGSIZE at *
  omega

theorem in_of_page (hx : PGROUNDDOWN x = t) : t ≤ x ∧ x < t + PGSIZE := by
  unfold PGROUNDDOWN at hx
  unfold PGSIZE at *
  omega

theorem out_of_page (ht : t % PGSIZE = 0) (hx : PGROUNDDOWN x ≠ t) : x < t ∨ t + PGSIZE ≤ x := by
  by_contra hcon
  exact hx (page_of_in ht (by omega) (by omega))

/-! ## Entries in memory -/

/-- the entries of page-table pages -/
def Mem.entry (m : Mem) (t i : ℕ) : ℕ := m.byte.load 8 (t + 8 * i)

theorem entry_congr (ht : t % PGSIZE = 0) (hi : i < 512) (hb : ∀ x, PGROUNDDOWN x = t → m'.byte x = m.byte x) :
    m'.entry t i = m.entry t i := by
  refine Ram.load_congr fun x hx hx' => hb x (page_of_in ht (by omega) ?_)
  unfold PGSIZE
  omega

theorem entry_zero (ht : t % PGSIZE = 0) (hi : i < 512) (hb : ∀ x, PGROUNDDOWN x = t → m.byte x = 0) :
    m.entry t i = 0 := by
  refine Ram.load_zero fun x hx hx' => hb x (page_of_in ht (by omega) ?_)
  unfold PGSIZE
  omega

theorem entry_lt (m : Mem) (t i : ℕ) : m.entry t i < 2 ^ 64 := Ram.load_lt _ _ _

/-- `*pte = v` -/
def Mem.setPte (m : Mem) (a v : ℕ) : Mem := { m with byte := m.byte.store 8 a v }

theorem entry_setPte_self (hv : v < 256 ^ 8) : (m.setPte (t + 8 * i) v).entry t i = v := Ram.load_store hv

theorem entry_setPte_ne {t' i' : ℕ} (ht : t % PGSIZE = 0) (ht' : t' % PGSIZE = 0) (hi : i < 512) (hi' : i' < 512)
    (hne : t' = t → i' ≠ i) : (m.setPte (t + 8 * i) v).entry t' i' = m.entry t' i' := by
  refine Ram.load_store_ne ?_
  by_cases htt : t' = t
  · have := hne htt
    omega
  · unfold PGSIZE at ht ht'
    omega

theorem byte_setPte_out (ht : t % PGSIZE = 0) (hi : i < 512) (hx : PGROUNDDOWN x ≠ t) :
    (m.setPte (t + 8 * i) v).byte x = m.byte x := by
  refine Ram.store_out ?_
  have := out_of_page ht hx
  unfold PGSIZE at this
  omega

/-! ## Pages -/

/-- the pages of the allocator -/
def Usable (m : Mem) (p : ℕ) : Prop := p % PGSIZE = 0 ∧ KERNBASE ≤ p ∧ m.kend ≤ p ∧ p < PHYSTOP

theorem Usable.lt (hp : Usable m p) : p < 2 ^ 64 := hp.2.2.2.trans (by decide)

theorem Usable.ne_zero (hp : Usable m p) : p ≠ 0 := fun e => absurd (e ▸ hp.2.1) (by decide)

/-- the free pages and the pages in H are distinct pages of the allocator -/
structure Base (m : Mem) (H : Multiset ℕ) : Prop where
  nodup : (↑m.free + H).Nodup
  usable : ∀ p, p ∈ ↑m.free + H → Usable m p

/-- pages move between the free list and H, and nothing changes outside them -/
structure Shuffle (H H' : Multiset ℕ) (m m' : Mem) : Prop where
  pages : ↑m'.free + H' = ↑m.free + H
  frame : ∀ x, PGROUNDDOWN x ∉ ↑m.free + H → m'.byte x = m.byte x
  kend : m'.kend = m.kend
  trampoline : m'.trampoline = m.trampoline

section

variable {H H' H'' : Multiset ℕ}

theorem Shuffle.refl (H : Multiset ℕ) (m : Mem) : Shuffle H H m m := ⟨rfl, fun _ _ => rfl, rfl, rfl⟩

theorem Shuffle.trans (h1 : Shuffle H H' m m') (h2 : Shuffle H' H'' m' m'') : Shuffle H H'' m m'' :=
  ⟨h2.pages.trans h1.pages, fun x hx => (h2.frame x (by rw [h1.pages]; exact hx)).trans (h1.frame x hx),
    h2.kend.trans h1.kend, h2.trampoline.trans h1.trampoline⟩

/-- pages that the function does not know of -/
theorem Shuffle.more (hs : Shuffle H H' m m') (G : Multiset ℕ) : Shuffle (H + G) (H' + G) m m' := by
  refine ⟨?_, fun x hx => hs.frame x fun hx' => hx ?_, hs.kend, hs.trampoline⟩
  · rw [← add_assoc, hs.pages, add_assoc]
  · rw [← add_assoc]
    exact Multiset.mem_add.mpr (.inl hx')

theorem Base.shuffle (hb : Base m H) (hs : Shuffle H H' m m') : Base m' H' := by
  refine ⟨?_, fun p hp => ?_⟩
  · rw [hs.pages]; exact hb.nodup
  · rw [hs.pages] at hp
    have := hb.usable p hp
    unfold Usable at this ⊢
    rwa [hs.kend]

theorem Base.le (hb : Base m H) (hle : H' ≤ H) : Base m H' :=
  ⟨Multiset.nodup_of_le (add_le_add_right hle _) hb.nodup,
    fun p hp => hb.usable p (Multiset.mem_of_le (add_le_add_right hle _) hp)⟩

theorem Base.free_usable (hb : Base m H) (hp : p ∈ m.free) : Usable m p :=
  hb.usable p (Multiset.mem_add.mpr (.inl (Multiset.mem_coe.mpr hp)))

theorem Base.held_usable (hb : Base m H) (hp : p ∈ H) : Usable m p := hb.usable p (Multiset.mem_add.mpr (.inr hp))

theorem Base.free_notMem (hb : Base m H) (hp : p ∈ m.free) : p ∉ H := fun hH =>
  Multiset.disjoint_left.mp (Multiset.nodup_add.mp hb.nodup).2.2 (Multiset.mem_coe.mpr hp) hH

/-- the pages of one owner are not those of another -/
theorem Base.notMem_of_mem (hb : Base m (H + H')) (hp : p ∈ H) : p ∉ H' := fun hp' =>
  Multiset.disjoint_left.mp (Multiset.nodup_add.mp (Multiset.nodup_add.mp hb.nodup).2.1).2.2 hp hp'

end

/-! ### The pages of a page table -/

open Classical in
/-- the pages below TRAPFRAME that are mapped at page numbers in K -/
noncomputable def users (K : Set ℕ) (m : Mem) (r : ℕ) : Multiset ℕ :=
  gather FRAME fun k => if k ∈ K then (leaf m.entry r k).map PTE2PA else none

/-- its page-table pages and the mapped pages -/
noncomputable def pagesOf (K : Set ℕ) (m : Mem) (r : ℕ) : Multiset ℕ := tables m.entry r + users K m r

structure Good (K : Set ℕ) (m : Mem) (r : ℕ) (h : Multiset ℕ) : Prop where
  tree : Tree m.entry r
  base : Base m (pagesOf K m r + h)

structure Moves (K : Set ℕ) (r : ℕ) (h h' : Multiset ℕ) (m m' : Mem) : Prop where
  tree : Tree m'.entry r
  shuffle : Shuffle (pagesOf K m r + h) (pagesOf K m' r + h') m m'

theorem Good.refl (hg : Good K m r h) : Moves K r h h m m := ⟨hg.tree, Shuffle.refl _ m⟩

theorem Moves.trans (h1 : Moves K r h h' m m') (h2 : Moves K r h' h'' m' m'') : Moves K r h h'' m m'' :=
  ⟨h2.tree, h1.shuffle.trans h2.shuffle⟩

theorem Good.moves (hg : Good K m r h) (hm : Moves K r h h' m m') : Good K m' r h' :=
  ⟨hm.tree, hg.base.shuffle hm.shuffle⟩

theorem mem_users : p ∈ users K m r ↔ ∃ k e, k < FRAME ∧ k ∈ K ∧ leaf m.entry r k = some e ∧ PTE2PA e = p := by
  unfold users
  rw [mem_gather]
  constructor
  · rintro ⟨k, hk, he⟩
    split_ifs at he with hK
    obtain ⟨e, hl, rfl⟩ := Option.map_eq_some_iff.mp he
    exact ⟨k, e, hk, hK, hl, rfl⟩
  · rintro ⟨k, e, hk, hK, hl, rfl⟩
    exact ⟨k, hk, by rw [if_pos hK, hl]; rfl⟩

theorem tables_le : tables m.entry r ≤ pagesOf K m r + h :=
  (Multiset.le_add_right _ _).trans (Multiset.le_add_right _ _)

theorem held_le : h ≤ pagesOf K m r + h := Multiset.le_add_left _ _

theorem users_le : users K m r ≤ pagesOf K m r + h := (Multiset.le_add_left _ _).trans (Multiset.le_add_right _ _)

theorem Good.free_notMem (hg : Good K m r h) (hp : p ∈ m.free) : p ∉ tables m.entry r := fun ht =>
  hg.base.free_notMem hp (Multiset.mem_of_le tables_le ht)

/-- a page in a variable is not a page-table page -/
theorem Good.held_notMem (hg : Good K m r h) (hp : p ∈ h) : p ∉ tables m.entry r := fun ht =>
  hg.base.notMem_of_mem (Multiset.mem_add.mpr (.inl ht)) hp

/-- a mapped page is not a page-table page -/
theorem Good.user_notMem (hg : Good K m r h) (hp : p ∈ users K m r) : p ∉ tables m.entry r := fun ht => by
  have hb : Base m (tables m.entry r + users K m r) := hg.base.le (Multiset.le_add_right _ _)
  exact hb.notMem_of_mem ht hp

theorem Good.held_usable (hg : Good K m r h) (hp : p ∈ h) : Usable m p :=
  hg.base.held_usable (Multiset.mem_of_le held_le hp)

theorem users_congr (hleaf : leaf m'.entry r = leaf m.entry r) : users K m' r = users K m r := by
  unfold users
  rw [hleaf]

/-! ### More or fewer mappings looked at -/

theorem users_split (hK : K ⊆ L) : users L m r = users K m r + users (L \ K) m r := by
  classical
  unfold users
  rw [gather_split FRAME _ (· ∈ K)]
  refine congrArg₂ (· + ·) (gather_congr fun k _ => ?_) (gather_congr fun k _ => ?_)
  · by_cases hk : k ∈ K
    · rw [if_pos hk, if_pos (hK hk), if_pos hk]
    · rw [if_neg hk, if_neg hk]
  by_cases hk : k ∈ K
  · rw [if_pos hk, if_neg fun h => h.2 hk]
  · rw [if_neg hk]
    by_cases hk' : k ∈ L
    · rw [if_pos hk', if_pos ⟨hk', hk⟩]
    · rw [if_neg hk', if_neg fun h => hk' h.1]

theorem pagesOf_split (hK : K ⊆ L) : pagesOf L m r = pagesOf K m r + users (L \ K) m r := by
  unfold pagesOf
  rw [users_split hK, ← add_assoc]

theorem pagesOf_empty (m : Mem) (r : ℕ) : pagesOf ∅ m r = tables m.entry r := by
  have hnone : users ∅ m r = 0 := gather_eq_zero fun k _ => if_neg (Set.notMem_empty k)
  unfold pagesOf
  rw [hnone, add_zero]

theorem Good.mono (hK : K ⊆ L) (hg : Good L m r h) : Good K m r h := by
  refine ⟨hg.tree, hg.base.le ?_⟩
  rw [pagesOf_split hK]
  exact add_le_add_left (Multiset.le_add_right _ _) h

/-! ### The tree stays -/

/-- memory changes outside the page-table pages only: the tree is as before -/
structure Still (r : ℕ) (m m' : Mem) : Prop where
  mid : mid m'.entry r = mid m.entry r
  low : low m'.entry r = low m.entry r
  leaf : leaf m'.entry r = leaf m.entry r
  tree : Tree m'.entry r

theorem Still.tables (hs : Still r m m') : tables m'.entry r = Vm.tables m.entry r := tables_of_eq hs.mid hs.low

theorem Still.pagesOf (hs : Still r m m') : pagesOf K m' r = Vm.pagesOf K m r := by
  unfold Vm.pagesOf
  rw [hs.tables, users_congr hs.leaf]

theorem still_of_frame (ht : Tree m.entry r) (hb : ∀ x, PGROUNDDOWN x ∈ tables m.entry r → m'.byte x = m.byte x) :
    Still r m m' := by
  have hag : ∀ t, t ∈ tables m.entry r → ∀ i, i < 512 → m'.entry t i = m.entry t i := fun t htt i hi =>
    entry_congr (ht.tables_aligned htt) hi fun x hx => hb x (hx ▸ htt)
  exact ⟨mid_congr fun i hi => hag r (root_mem_tables _ r) i hi, low_congr hag, leaf_congr hag, ht.congr hag⟩

/-- pages move between the free list and variables -/
theorem Still.moves (hs : Still r m m') (hsh : Shuffle h h' m m') : Moves K r h h' m m' := by
  refine ⟨hs.tree, ?_⟩
  rw [hs.pagesOf, add_comm, add_comm _ h']
  exact hsh.more _

/-! ## The allocator -/

/-- memory with the contents of page p changed -/
def Mem.fillPage (m : Mem) (p : ℕ) (c : UInt8) : Mem := { m with byte := m.byte.fill p PGSIZE c }

theorem byte_fillPage_out {c : UInt8} (hp : p % PGSIZE = 0) (hx : PGROUNDDOWN x ≠ p) :
    (m.fillPage p c).byte x = m.byte x :=
  Ram.fill_out (out_of_page hp hx)

theorem byte_fillPage_in {c : UInt8} (hx : PGROUNDDOWN x = p) : (m.fillPage p c).byte x = c :=
  Ram.fill_in (in_of_page hx).1 (in_of_page hx).2

section

variable {H : Multiset ℕ}

/-- a change of a page in H -/
theorem shuffle_of_page (hp : p ∈ H) (hb : ∀ x, PGROUNDDOWN x ≠ p → m'.byte x = m.byte x) (hf : m'.free = m.free)
    (hk : m'.kend = m.kend) (ht : m'.trampoline = m.trampoline) : Shuffle H H m m' := by
  refine ⟨by rw [hf], fun x hx => hb x ?_, hk, ht⟩
  rintro rfl
  exact hx (Multiset.mem_add.mpr (.inr hp))

/-- what `kalloc` may do -/
def Alloced (H : Multiset ℕ) (m : Mem) (o : Option ℕ) (m' : Mem) : Prop :=
  match o with
  | none => m'.free = m.free ∧ m'.byte = m.byte ∧ Shuffle H H m m'
  | some p => m.free = p :: m'.free ∧ (∀ x, PGROUNDDOWN x ≠ p → m'.byte x = m.byte x) ∧ Shuffle H (p ::ₘ H) m m'

theorem kalloc_spec (hb : Base m H) : Spec kalloc m (Alloced H m) E := by
  unfold kalloc
  refine Spec.bind_ok rfl (Spec.ite (fun _ => ?_) fun _ => ?_)
  · exact Spec.of_ok rfl ⟨rfl, rfl, rfl, fun _ _ => rfl, rfl, rfl⟩
  split
  case h_1 hfree => exact Spec.of_ok rfl ⟨rfl, rfl, rfl, fun _ _ => rfl, rfl, rfl⟩
  case h_2 p rest hfree =>
    have hmem : p ∈ m.free := by rw [hfree]; exact List.mem_cons_self
    have hal := (hb.free_usable hmem).1
    have hout : ∀ x, PGROUNDDOWN x ≠ p →
        (({ m with deny := m.deny.tail, free := rest } : Mem).fillPage p 5).byte x = m.byte x :=
      fun x hx => byte_fillPage_out (m := { m with deny := m.deny.tail, free := rest }) hal hx
    refine Spec.of_ok rfl ⟨hfree, hout, ?_, fun x hx => hout x ?_, rfl, rfl⟩
    · rw [hfree]
      show (↑rest : Multiset ℕ) + p ::ₘ H = ↑(p :: rest) + H
      rw [← Multiset.cons_coe, Multiset.cons_add, Multiset.add_cons]
    · rintro rfl
      exact hx (Multiset.mem_add.mpr (.inl (Multiset.mem_coe.mpr hmem)))

theorem kfree_spec (hb : Base m (p ::ₘ H)) :
    Spec (kfree p) m (fun _ m' => Shuffle (p ::ₘ H) H m m' ∧ m'.free = p :: m.free ∧
      ∀ x, PGROUNDDOWN x ≠ p → m'.byte x = m.byte x) E := by
  have hp : p ∈ p ::ₘ H := Multiset.mem_cons_self p H
  obtain ⟨hal, -, hlo, hhi⟩ := hb.held_usable hp
  have hout : ∀ x, PGROUNDDOWN x ≠ p → (m.fillPage p 1).byte x = m.byte x := fun x hx => byte_fillPage_out hal hx
  unfold kfree
  refine Spec.bind_ok rfl (Spec.ite (fun hbad => ?_) fun _ => Spec.of_ok rfl ⟨⟨?_, ?_, rfl, rfl⟩, rfl, hout⟩)
  · exfalso
    rcases hbad with h1 | h1 | h1
    · exact h1 hal
    · omega
    · omega
  · show (↑(p :: m.free) : Multiset ℕ) + H = ↑m.free + p ::ₘ H
    rw [← Multiset.cons_coe, Multiset.cons_add, Multiset.add_cons]
  · intro x hx
    refine hout x ?_
    rintro rfl
    exact hx (Multiset.mem_add.mpr (.inr hp))

end

/-! ## `walk` -/

theorem walkLevel_lookup (va t level : ℕ) :
    walkLevel va false t level m = .ok (child (m.entry t (PX level va)), m) := by
  unfold walkLevel
  rw [bind_ok (m := loadPte _) (a := m.entry t (PX level va)) (t := m) rfl]
  unfold child
  split
  case isTrue => rfl
  case isFalse => rfl

/-- **Looking up an entry**: the page-table page above it, if there is one. -/
theorem walk_lookup (hva : va < MAXVA) : walk r va false m =
    .ok ((low m.entry r (va / PGSIZE / 512)).map fun t => t + 8 * (va / PGSIZE % 512), m) := by
  have hmid : mid m.entry r (va / PGSIZE / 512 / 512) = child (m.entry r (PX 2 va)) := by
    rw [PX_two hva]
    refine mid_of_lt ?_
    unfold MAXVA at hva
    unfold PGSIZE
    omega
  unfold walk low
  rw [if_neg (by omega), bind_ok (walkLevel_lookup va r 2), hmid]
  cases child (m.entry r (PX 2 va)) with
  | none => rfl
  | some t =>
    rw [Option.bind_some]
    show (walkLevel va false t 1 >>= _) m = _
    rw [bind_ok (walkLevel_lookup va t 1), PX_one]
    cases child (m.entry t (va / PGSIZE / 512 % 512)) with
    | none => rfl
    | some t' => rw [← PX_zero]; rfl

/-! ### With allocation -/

/-- page-table pages may have been added, taken from the front of the free list -/
structure Grows (r : ℕ) (h : Multiset ℕ) (m m' : Mem) : Prop extends Moves ∅ r h h m m' where
  suffix : m'.free <:+ m.free

theorem Good.grows (hg : Good ∅ m r h) : Grows r h m m := ⟨hg.refl, List.suffix_rfl⟩

theorem Grows.trans (h1 : Grows r h m m') (h2 : Grows r h m' m'') : Grows r h m m'' :=
  ⟨h1.toMoves.trans h2.toMoves, h2.suffix.trans h1.suffix⟩

/-- m' is m with the page p taken from the allocator and zeroed -/
structure Fresh (m m' : Mem) (p : ℕ) : Prop where
  free : m.free = p :: m'.free
  out : ∀ x, PGROUNDDOWN x ≠ p → m'.byte x = m.byte x
  zero : ∀ x, PGROUNDDOWN x = p → m'.byte x = 0
  kend : m'.kend = m.kend
  trampoline : m'.trampoline = m.trampoline

theorem fresh_of_alloced {H : Multiset ℕ} (hb : Base m H) (ha : Alloced H m (some p) m') :
    Fresh m (m'.fillPage p 0) p := by
  obtain ⟨hfree, hout, hsh⟩ := ha
  have hp : p ∈ m.free := by rw [hfree]; exact List.mem_cons_self
  refine ⟨hfree, fun x hx => ?_, fun x hx => byte_fillPage_in hx, hsh.kend, hsh.trampoline⟩
  rw [byte_fillPage_out (hb.free_usable hp).1 hx]
  exact hout x hx

theorem Fresh.mem (hf : Fresh m m' p) : p ∈ m.free := by
  rw [hf.free]
  exact List.mem_cons_self

theorem Fresh.shuffle {H : Multiset ℕ} (hf : Fresh m m' p) : Shuffle H (p ::ₘ H) m m' := by
  refine ⟨?_, fun x hx => hf.out x ?_, hf.kend, hf.trampoline⟩
  · rw [hf.free, ← Multiset.cons_coe, Multiset.cons_add, Multiset.add_cons]
  · rintro rfl
    exact hx (Multiset.mem_add.mpr (.inl (Multiset.mem_coe.mpr hf.mem)))

/-- the entry that points to a page-table page -/
theorem pointer_facts (hp : Usable m p) :
    child (PA2PTE p ||| PTE_V) = some p ∧ Inner (PA2PTE p ||| PTE_V) ∧ PA2PTE p ||| PTE_V < 256 ^ 8 := by
  have hlt := hp.lt
  have hf : PTE_V < 2 ^ 10 := by decide
  have heq := PA2PTE_or hlt hf
  refine ⟨child_eq_some.mpr ⟨?_, PTE2PA_PA2PTE hlt hp.1 hf⟩, fun _ => ?_, PA2PTE_lt hlt hf⟩
  · rw [has_V, heq]
    show (p / 2 ^ 12 * 2 ^ 10 + 1) % 2 = 1
    omega
  have hand : (PA2PTE p ||| PTE_V) &&& (PTE_R ||| PTE_W ||| PTE_X) = 0 := by
    have hflags := PTE_FLAGS_PA2PTE hlt hf
    unfold PTE_FLAGS at hflags
    rw [show PTE_R ||| PTE_W ||| PTE_X = 0x3FF &&& (PTE_R ||| PTE_W ||| PTE_X) from rfl, ← Nat.and_assoc, hflags]
    rfl
  unfold has
  rw [hand]
  rfl

/-- the entries after a new page-table page is entered at index i of page t -/
theorem Fresh.changes (hg : Good K m r h) (hf : Fresh m m' p) (ht : t ∈ tables m.entry r) (hi : i < 512) :
    Changes m.entry (m'.setPte (t + 8 * i) (PA2PTE p ||| PTE_V)).entry r p t i ∧
      (m'.setPte (t + 8 * i) (PA2PTE p ||| PTE_V)).entry t i = PA2PTE p ||| PTE_V ∧
      ∀ i', i' < 512 → has ((m'.setPte (t + 8 * i) (PA2PTE p ||| PTE_V)).entry p i') PTE_V = false := by
  have hu := hg.base.free_usable hf.mem
  have htp : p ≠ t := fun e => hg.free_notMem hf.mem (e ▸ ht)
  have hta := hg.tree.tables_aligned ht
  refine ⟨fun t' ht' hne i' hi' hti => ?_, entry_setPte_self (pointer_facts hu).2.2, fun i' hi' => ?_⟩
  · rw [entry_setPte_ne hta (hg.tree.tables_aligned ht') hi hi' hti]
    exact entry_congr (hg.tree.tables_aligned ht') hi' fun x hx => hf.out x (hx ▸ hne)
  · rw [entry_setPte_ne hta hu.1 hi hi' fun e => absurd e htp, entry_zero hu.1 hi' hf.zero]
    rfl

theorem Fresh.grows (hg : Good ∅ m r h) (hf : Fresh m m' p) (ht : t ∈ tables m.entry r) (hi : i < 512)
    (htree : Tree (m'.setPte (t + 8 * i) v).entry r)
    (htab : tables (m'.setPte (t + 8 * i) v).entry r = p ::ₘ tables m.entry r) :
    Grows r h m (m'.setPte (t + 8 * i) v) := by
  have hset : Shuffle (p ::ₘ (tables m.entry r + h)) (p ::ₘ (tables m.entry r + h)) m' (m'.setPte (t + 8 * i) v) :=
    shuffle_of_page (p := t) (Multiset.mem_cons_of_mem (Multiset.mem_add.mpr (.inl ht)))
      (fun x hx => byte_setPte_out (hg.tree.tables_aligned ht) hi hx) rfl rfl rfl
  refine ⟨⟨htree, ?_⟩, ?_⟩
  · rw [pagesOf_empty, pagesOf_empty, htab, Multiset.cons_add]
    exact hf.shuffle.trans hset
  · rw [hf.free]
    exact List.suffix_cons _ _

/-- one level of `walk` with allocation; Q is what is known of the page-table page that is found or entered -/
theorem walkLevel_alloc_spec {level : ℕ} {Q : ℕ → Mem → Prop} (hg : Good ∅ m r h)
    (hfound : ∀ c, child (m.entry t (PX level va)) = some c → Q c m)
    (hgrow : ∀ m' p, Fresh m m' p → child (m.entry t (PX level va)) = none →
      Grows r h m (m'.setPte (t + 8 * PX level va) (PA2PTE p ||| PTE_V)) ∧
        leaf (m'.setPte (t + 8 * PX level va) (PA2PTE p ||| PTE_V)).entry r = leaf m.entry r ∧
        Q p (m'.setPte (t + 8 * PX level va) (PA2PTE p ||| PTE_V))) :
    Spec (walkLevel va true t level) m
      (fun o m' => Grows r h m m' ∧ leaf m'.entry r = leaf m.entry r ∧ ∀ c, o = some c → Q c m') E := by
  unfold walkLevel
  refine Spec.bind_ok (a := m.entry t (PX level va)) (t := m) rfl (Spec.ite (fun hv => ?_) fun hv => ?_)
  · refine Spec.pure ⟨hg.grows, rfl, fun c hc => ?_⟩
    cases hc
    exact hfound _ (child_eq_some.mpr ⟨hv, rfl⟩)
  refine Spec.ite (fun hf => by cases hf) fun _ => Spec.bind (kalloc_spec hg.base) fun o m1 hal => ?_
  cases o with
  | none =>
    obtain ⟨hfree, hbyte, hsh⟩ := hal
    have hs : Still r m m1 := still_of_frame hg.tree fun x _ => congrFun hbyte x
    refine Spec.pure ⟨⟨⟨hs.tree, ?_⟩, by rw [hfree]⟩, hs.leaf, fun c hc => by cases hc⟩
    rw [hs.pagesOf]
    exact hsh
  | some p =>
    have hf := fresh_of_alloced hg.base hal
    obtain ⟨hm, hleaf, hQ⟩ := hgrow _ p hf (child_eq_none.mpr (by simpa using hv))
    refine Spec.of_ok rfl ⟨hm, hleaf, fun c hc => ?_⟩
    cases hc
    exact hQ

/-- **Looking up an entry and allocating the page-table pages above it.** No mapping changes, also if there is not
enough memory at either level. -/
theorem walk_alloc_spec (hg : Good ∅ m r h) (hva : va < MAXVA) :
    Spec (walk r va true) m (fun o m' => Grows r h m m' ∧ leaf m'.entry r = leaf m.entry r ∧ ∀ pte, o = some pte →
      ∃ t, low m'.entry r (va / PGSIZE / 512) = some t ∧ pte = t + 8 * (va / PGSIZE % 512)) E := by
  have hidx : va / PGSIZE / 512 / 512 < 512 := by
    unfold MAXVA at hva
    unfold PGSIZE
    omega
  have htop : mid m.entry r (va / PGSIZE / 512 / 512) = child (m.entry r (PX 2 va)) := by
    rw [PX_two hva]
    exact mid_of_lt hidx
  unfold walk
  rw [if_neg (by omega)]
  refine Spec.bind (walkLevel_alloc_spec (Q := fun c m' => mid m'.entry r (va / PGSIZE / 512 / 512) = some c) hg
    (fun c hc => htop.trans hc) fun m' p hf hnone => ?_) ?_
  · have hi : PX 2 va < 512 := by rw [PX_two hva]; exact hidx
    obtain ⟨hch, hnew, hempty⟩ := hf.changes hg (root_mem_tables _ r) hi
    obtain ⟨hchild, hinner, -⟩ := pointer_facts (hg.base.free_usable hf.mem)
    obtain ⟨htree, htab, hleaf, -, hmid⟩ := hg.tree.addMid hi
      (by rw [PX_two hva, htop]; exact hnone) (hg.free_notMem hf.mem) (by rw [hnew]; exact hchild)
      (by rw [hnew]; exact hinner) hempty hch
    refine ⟨hf.grows hg (root_mem_tables _ r) hi htree htab, hleaf, ?_⟩
    rw [hmid, PX_two hva, Function.update_self]
  · rintro o m1 ⟨hm1, hleaf1, hmid⟩
    cases o with
    | none => exact Spec.pure ⟨hm1, hleaf1, fun c hc => by cases hc⟩
    | some t =>
      have hg1 := hg.moves hm1.toMoves
      have ht := hmid t rfl
      have hj : va / PGSIZE / 512 / 512 * 512 + va / PGSIZE / 512 % 512 = va / PGSIZE / 512 := by omega
      have hlow : low m1.entry r (va / PGSIZE / 512) = child (m1.entry t (PX 1 va)) := by
        rw [PX_one]
        exact low_of_mid ht
      have hi : PX 1 va < 512 := by rw [PX_one]; exact Nat.mod_lt _ (by decide)
      refine Spec.bind (walkLevel_alloc_spec (Q := fun c m' => low m'.entry r (va / PGSIZE / 512) = some c) hg1
        (fun c hc => hlow.trans hc) fun m' p hf hnone => ?_) ?_
      · obtain ⟨hch, hnew, hempty⟩ := hf.changes hg1 (mid_mem_tables ht) hi
        obtain ⟨hchild, hinner, -⟩ := pointer_facts (hg1.base.free_usable hf.mem)
        obtain ⟨htree, htab, hleaf, -, hlow'⟩ := hg1.tree.addLow ht hi (by rw [PX_one, hj, hlow]; exact hnone)
          (hg1.free_notMem hf.mem) (by rw [hnew]; exact hchild) (by rw [hnew]; exact hinner) hempty hch
        refine ⟨hf.grows hg1 (mid_mem_tables ht) hi htree htab, hleaf, ?_⟩
        rw [hlow', PX_one, hj, Function.update_self]
      · rintro o m2 ⟨hm2, hleaf2, hl2⟩
        cases o with
        | none => exact Spec.pure ⟨hm1.trans hm2, hleaf2.trans hleaf1, fun c hc => by cases hc⟩
        | some c =>
          refine Spec.pure ⟨hm1.trans hm2, hleaf2.trans hleaf1, fun pte hpte => ⟨c, hl2 c rfl, ?_⟩⟩
          cases hpte
          rw [PX_zero]

end Xv6.Vm
