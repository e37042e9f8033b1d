/-
The memory of a process grows and shrinks (`growproc` of kernel/proc.c, `sys_sbrk` of kernel/sysproc.c).

- `growproc_atomic`: growing gives exactly the pages up to the new size, or leaves the process as it was; shrinking
  frees exactly the pages that are mapped above the new size if and only if the size is at most TRAMPOLINE or no page is
  given up. Above that the range has the trampoline in it, or addresses from MAXVA on, and the kernel panics.
-/
import Xv6.Vm.Isolation

namespace Xv6.Sys

open Xv6.Core Vm
open Fs (PGSIZE)

/-! ## The source -/

/-- physical memory, and p->sz and p->pagetable of the processes -/
structure Kernel where
  mem : Mem
  proc : Store Self

abbrev SysM := StateT Kernel (Except Panic)

/-- a function of kernel/vm.c and kernel/kalloc.c -/
def vm {α : Type} (f : VmM α) : SysM α := fun s =>
  match f s.mem with
  | .ok (a, m) => .ok (a, { s with mem := m })
  | .error e => .error e

def getProc (p : ℕ) : SysM Self := return (← get).proc p
def setProc (p : ℕ) (x : Self) : SysM Unit := modify fun s => { s with proc := s.proc.set p x }

/-- a + n for an int n, in 64 bits -/
def addInt (a : ℕ) (n : ℤ) : ℕ := ((a + n) % 2 ^ 64).toNat

def growproc (p : ℕ) (n : ℤ) : SysM Bool := do
  let x ← getProc p
  if 0 < n then do
    let sz ← vm (uvmalloc x.pagetable x.sz (addInt x.sz n) PTE_W)
    if sz = 0 then return false
    else do
      setProc p { x with sz := sz }
      return true
  else if n < 0 then do
    let sz ← vm (uvmdealloc x.pagetable x.sz (addInt x.sz n))
    setProc p { x with sz := sz }
    return true
  else do
    setProc p { x with sz := x.sz }
    return true

def SBRK_EAGER : ℤ := 1

/-- the old size -/
def sysSbrk (p : ℕ) (n t : ℤ) : SysM (Option ℕ) := do
  let x ← getProc p
  if t = SBRK_EAGER ∨ n < 0 then
    if ← growproc p n then return some x.sz else return none
  else if addInt x.sz n < x.sz then return none
  else do
    setProc p { x with sz := addInt x.sz n }
    return some x.sz

variable {s : Kernel} {m m' : Mem} {p r k sz newsz tf : ℕ} {n : ℤ}

theorem run_vm {α : Type} {g : VmM α} {a : α} (hg : g s.mem = .ok (a, m)) : vm g s = .ok (a, { s with mem := m }) := by
  unfold vm
  rw [hg]

theorem run_vm_error {α : Type} {g : VmM α} {e : Panic} (hg : g s.mem = .error e) : vm g s = .error e := by
  unfold vm
  rw [hg]

/-! ## The memory of a process -/

/-- the page table of a process: its pages and the trapframe page are the allocator's, the trampoline is the kernel's -/
structure Framed (m : Mem) (r tf : ℕ) : Prop where
  good : Good Set.univ m r {tf}
  frame : leaf m.entry r FRAME = some (pteOf tf (PTE_R ||| PTE_W))
  tramp : leaf m.entry r TRAMP = some (pteOf m.trampoline (PTE_R ||| PTE_X))
  aligned : m.trampoline % PGSIZE = 0
  kernel : m.trampoline < m.kend

theorem Framed.good_zero (hf : Framed m r tf) : Good Set.univ m r 0 :=
  ⟨hf.good.tree, hf.good.base.le (by simp)⟩

theorem Framed.usable (hf : Framed m r tf) : Usable m tf := hf.good.held_usable (Multiset.mem_singleton_self tf)

theorem Framed.trampoline (hf : Framed m r tf) : PTE2PA (pteOf m.trampoline (PTE_R ||| PTE_X)) = m.trampoline := by
  have htf := hf.usable
  have hlt : m.trampoline < 2 ^ 64 := (hf.kernel.trans_le htf.2.2.1).trans htf.lt
  exact (pteOf_facts hlt (by decide)).2.2.2 hf.aligned

/-- all pages below the trampoline may be freed -/
theorem Framed.freeable (hf : Framed m r tf) (hk : k ≤ FRAME) : Freeable m r (leaf m.entry r k) := by
  rcases hk.lt_or_eq with hk | rfl
  · exact hf.good.freeable hk trivial
  intro e he
  have htf := hf.usable
  rw [hf.frame, Option.some.injEq] at he
  rw [← he, (pteOf_facts htf.lt (by decide)).2.2.2 htf.1]
  exact ⟨hf.good.held_notMem (Multiset.mem_singleton_self tf), htf.2.2.1, htf.2.2.2⟩

/-- no user mapping at or above PGROUNDUP(sz) -/
def Bounded (m : Mem) (r sz : ℕ) : Prop := ∀ k, pages sz ≤ k → k < FRAME → translate m r k = none

theorem Bounded.leaf (hb : Bounded m r sz) (h1 : pages sz ≤ k) (h2 : k < FRAME) : leaf m.entry r k = none :=
  (translate_none (h2.trans (by decide))).mp (hb k h1 h2)

/-- m' is m with zeroed pages mapped from size sz to newsz that the user may write -/
structure Grown (m m' : Mem) (r sz newsz : ℕ) : Prop where
  inside : ∀ k, pages sz ≤ k → k < pages newsz → ∃ q, translate m' r k = some (q, PTE_R ||| PTE_U ||| PTE_W ||| PTE_V) ∧
    ∀ y, y < PGSIZE → m'.byte (q + y) = 0
  outside : ∀ k, k < 2 ^ 26 → ¬ (pages sz ≤ k ∧ k < pages newsz) → translate m' r k = translate m r k

theorem grown_of_extended (hF : pages newsz ≤ FRAME)
    (hx : Extended (leaf m.entry r) (pages sz) (pages newsz) (PTE_R ||| PTE_U ||| PTE_W) m' r) :
    Grown m m' r sz newsz := by
  refine ⟨fun k h1 h2 => ?_, fun k hk hout => ?_⟩
  · obtain ⟨q, hq, hl, hzero⟩ := hx.inside k h1 h2
    obtain ⟨-, -, hflags, hpa⟩ := pteOf_facts hq.lt (show PTE_R ||| PTE_U ||| PTE_W < 2 ^ 10 by decide)
    refine ⟨q, ?_, fun y hy => hzero _ (page_offset hq.1 hy)⟩
    rw [translate_eq ((h2.trans_le hF).trans (by decide)), hl, Option.map_some, hflags, hpa hq.1]
  · rw [translate_eq hk, translate_eq hk, hx.outside k hout]

theorem Grown.bounded (hx : Grown m m' r sz newsz) (hb : Bounded m r sz) (hle : sz ≤ newsz) : Bounded m' r newsz := by
  intro k h1 h2
  rw [hx.outside k (h2.trans (by decide)) (by omega)]
  exact hb k ((pages_mono hle).trans h1) h2

theorem removed_translate {n : ℕ} (hk : k + n ≤ 2 ^ 26) : removed (leaf m.entry r) k n =
    ((List.range n).filterMap fun i => (translate m r (k + i)).map Prod.fst).reverse := by
  rw [removed_eq]
  refine congrArg List.reverse (List.filterMap_congr fun i hi => ?_)
  rw [translate_eq (by have := List.mem_range.mp hi; omega), Option.map_map]
  rfl

theorem translate_beyond (hk : 2 ^ 26 ≤ k) : translate m r k = none := by
  have hva : MAXVA ≤ k * PGSIZE := by
    rw [maxva_eq]
    exact Nat.mul_le_mul_right _ hk
  unfold Vm.translate walk
  rw [if_pos hva]
  rfl

/-! ## Shrinking -/

/-- m' is m with the pages from size newsz to sz unmapped and freed, each once -/
structure Shrunk (m m' : Mem) (r newsz sz : ℕ) : Prop where
  tree : Tree m'.entry r
  mappings : ∀ k, translate m' r k = if pages newsz ≤ k ∧ k < pages sz then none else translate m r k
  free : m'.free = ((List.range (pages sz - pages newsz)).filterMap fun i =>
    (translate m r (pages newsz + i)).map Prod.fst).reverse ++ m.free

theorem Shrunk.bounded (hx : Shrunk m m' r newsz sz) (hb : Bounded m r sz) : Bounded m' r newsz := by
  intro k h1 h2
  rw [hx.mappings]
  split_ifs with hin
  · rfl
  · exact hb k (by omega) h2

/-- nothing to do where no page of the range can be mapped -/
theorem Shrunk.refl (ht : Tree m.entry r) (hnone : ∀ k, pages newsz ≤ k → k < pages sz → translate m r k = none) :
    Shrunk m m r newsz sz := by
  refine ⟨ht, fun k => ?_, ?_⟩
  · split_ifs with hin
    · exact hnone k hin.1 hin.2
    · rfl
  · have hnil : ((List.range (pages sz - pages newsz)).filterMap fun i =>
        (translate m r (pages newsz + i)).map Prod.fst) = [] := by
      refine List.filterMap_eq_nil_iff.mpr fun i hi => ?_
      have := List.mem_range.mp hi
      rw [hnone _ (by omega) (by omega)]
      rfl
    rw [hnil]
    rfl

theorem uvmunmapLoop_add (doFree : Bool) (a b va : ℕ) : uvmunmapLoop r doFree (a + b) va =
    uvmunmapLoop r doFree a va >>= fun _ => uvmunmapLoop r doFree b (va + a * PGSIZE) := by
  induction a generalizing va with
  | zero => simp [uvmunmapLoop]
  | succ a ih =>
    rw [show a + 1 + b = a + b + 1 by ring, uvmunmapLoop, uvmunmapLoop, ih, bind_assoc,
      show va + PGSIZE + a * PGSIZE = va + (a + 1) * PGSIZE by ring]

/-- a mapped page of the kernel cannot be freed -/
theorem unmapPage_kernel {e : ℕ} (hk : k < 2 ^ 26) (hl : leaf m.entry r k = some e) (he : PTE2PA e < m.kend) :
    unmapPage r (k * PGSIZE) true m = .error .kfree := by
  have hva : k * PGSIZE < MAXVA := page_lt_maxva hk
  unfold unmapPage
  rw [bind_ok (walk_lookup hva), page_div]
  cases hlow : low m.entry r (k / 512) with
  | none =>
    rw [leaf_none_of_low hlow] at hl
    cases hl
  | some t =>
    rw [leaf_of_low hlow] at hl
    obtain ⟨hv, rfl⟩ := valid_eq_some.mp hl
    show (loadPte (t + 8 * (k % 512)) >>= _) m = _
    rw [bind_ok (loadPte_eq m t (k % 512)), if_neg (by simp [hv])]
    refine bind_error ?_
    show kfree _ m = _
    unfold kfree
    rw [bind_ok (a := m) (t := m) rfl, if_pos (Or.inr (Or.inl he))]
    rfl

/-- the loop of `uvmunmap` over the trampoline, or over addresses from MAXVA on, panics -/
theorem uvmunmapLoop_panics {N : ℕ} (hf : Framed m r tf) (hN : 0 < N) (htop : TRAMP < k + N) :
    Spec (uvmunmapLoop r true N (k * PGSIZE)) m (fun _ _ => False) fun _ => True := by
  rcases le_or_gt k TRAMP with hk | hk
  · -- the pages below the trampoline are freed first
    obtain ⟨c, rfl⟩ : ∃ c, N = (TRAMP - k) + (c + 1) := ⟨N - (TRAMP - k) - 1, by omega⟩
    rw [uvmunmapLoop_add, show k * PGSIZE + (TRAMP - k) * PGSIZE = TRAMP * PGSIZE by
      rw [← Nat.add_mul, Nat.add_sub_cancel' hk]]
    have h26 : k + (TRAMP - k) ≤ 2 ^ 26 := by rw [Nat.add_sub_cancel' hk]; decide
    refine Spec.bind (uvmunmapLoop_spec hf.good.tree h26 true fun _ x hx hx' =>
      hf.freeable (by unfold FRAME; unfold TRAMP at hx'; omega)) ?_
    rintro _ m1 ⟨hu, hl⟩
    have htramp : leaf m1.entry r TRAMP = some (pteOf m.trampoline (PTE_R ||| PTE_X)) := by
      rw [hl, without, if_neg (by omega), hf.tramp]
    refine Spec.bind_error (unmapPage_kernel (by decide) htramp ?_) trivial
    rw [hf.trampoline, hu.kend]
    exact hf.kernel
  · obtain ⟨N, rfl⟩ : ∃ c, N = c + 1 := ⟨N - 1, by omega⟩
    have hva : MAXVA ≤ k * PGSIZE := by
      rw [maxva_eq]
      exact Nat.mul_le_mul_right _ (by unfold TRAMP at hk; omega)
    have hwalk : walk r (k * PGSIZE) false m = .error .walk := by
      unfold walk
      rw [if_pos hva]
      rfl
    exact Spec.bind_error (e := .walk) (bind_error hwalk) trivial

/-- PGROUNDUP in 64 bits -/
theorem PGROUNDUP_cases (hsz : sz < 2 ^ 64) :
    PGROUNDUP sz = pages sz * PGSIZE ∧ pages sz < 2 ^ 52 ∨ PGROUNDUP sz = 0 ∧ 2 ^ 64 - PGSIZE < sz := by
  unfold PGROUNDUP pages PGSIZE
  omega

/-- what `uvmdealloc` does: nothing, or the loop over the pages of the range -/
theorem uvmdealloc_eq (hsz : sz < 2 ^ 64) (hlt : newsz < sz) (hint : sz ≤ newsz + 2 ^ 31) :
    (PGROUNDUP sz ≤ PGROUNDUP newsz → uvmdealloc r sz newsz = pure newsz) ∧
    (PGROUNDUP newsz < PGROUNDUP sz → pages newsz < pages sz ∧ uvmdealloc r sz newsz = (do
      uvmunmapLoop r true (pages sz - pages newsz) (pages newsz * PGSIZE)
      return newsz)) := by
  unfold uvmdealloc
  rw [if_neg (by omega)]
  refine ⟨fun h => if_neg (not_lt.mpr h), fun h => ?_⟩
  rw [if_pos h]
  obtain ⟨hup, hlt52⟩ : PGROUNDUP sz = pages sz * PGSIZE ∧ pages sz < 2 ^ 52 := by
    rcases PGROUNDUP_cases hsz with h1 | h1
    · exact h1
    · omega
  have hnew : PGROUNDUP newsz = pages newsz * PGSIZE := by
    rcases PGROUNDUP_cases (hlt.trans hsz) with h1 | h1
    · exact h1.1
    · have : sz ≤ 2 ^ 64 - PGSIZE := by
        unfold pages at hlt52
        unfold PGSIZE at hlt52 ⊢
        omega
      omega
  rw [hup, hnew] at h ⊢
  have hpos : pages newsz < pages sz := lt_of_mul_lt_mul_right h (Nat.zero_le _)
  have hdiff : pages sz - pages newsz ≤ 2 ^ 20 := by
    unfold pages PGSIZE
    omega
  have hvia : viaInt ((pages sz * PGSIZE - pages newsz * PGSIZE) / PGSIZE) = pages sz - pages newsz := by
    rw [← Nat.sub_mul, Nat.mul_div_cancel _ (by decide)]
    unfold viaInt
    rw [Nat.mod_eq_of_lt (by omega), if_pos (by omega)]
  have hrounds : ((pages newsz * PGSIZE + (pages sz - pages newsz) * PGSIZE) % 2 ^ 64 - pages newsz * PGSIZE) / PGSIZE =
      pages sz - pages newsz := by
    rw [← Nat.add_mul, Nat.add_sub_cancel' hpos.le, Nat.mod_eq_of_lt (by unfold PGSIZE; omega), ← Nat.sub_mul,
      Nat.mul_div_cancel _ (by decide)]
  refine ⟨hpos, ?_⟩
  rw [hvia, uvmunmap, if_neg (by simp), hrounds]

/-- **Shrinking**: the call frees exactly the pages of the range, or panics. -/
theorem uvmdealloc_shrinks (hf : Framed m r tf) (hsz : sz < 2 ^ 64) (hlt : newsz < sz) (hint : sz ≤ newsz + 2 ^ 31)
    (h : PGROUNDUP sz ≤ PGROUNDUP newsz ∨ sz ≤ TRAMPOLINE) :
    ∃ m', uvmdealloc r sz newsz m = .ok (newsz, m') ∧ Shrunk m m' r newsz sz := by
  obtain ⟨hsame, hless⟩ := uvmdealloc_eq (r := r) hsz hlt hint
  rcases le_or_gt (PGROUNDUP sz) (PGROUNDUP newsz) with hle | hgt
  · refine ⟨m, by rw [hsame hle]; rfl, Shrunk.refl hf.good.tree fun k h1 h2 => ?_⟩
    rcases PGROUNDUP_cases hsz with ⟨hup, -⟩ | ⟨-, hbig⟩
    · -- both sizes have the same number of pages
      exfalso
      rcases PGROUNDUP_cases (hlt.trans hsz) with ⟨hnew, -⟩ | ⟨hnew, -⟩
      · rw [hup, hnew] at hle
        have := Nat.le_of_mul_le_mul_right hle (by decide)
        omega
      · have h0 : pages sz * PGSIZE = 0 := by omega
        have := (Nat.mul_eq_zero.mp h0).resolve_right (by decide)
        omega
    · -- PGROUNDUP of the old size is 0, and the new size is far beyond MAXVA
      refine translate_beyond (le_trans ?_ h1)
      unfold pages PGSIZE at *
      omega
  · have htop : sz ≤ TRAMPOLINE := h.resolve_left (not_le.mpr hgt)
    obtain ⟨hpos, heq⟩ := hless hgt
    have hpages : pages sz ≤ TRAMP := by
      unfold TRAMPOLINE MAXVA PGSIZE at htop
      unfold pages PGSIZE TRAMP
      omega
    have h26 : pages newsz + (pages sz - pages newsz) ≤ 2 ^ 26 := by
      rw [Nat.add_sub_cancel' hpos.le]
      exact hpages.trans (by decide)
    obtain ⟨_, m', hrun, hu, hl⟩ := run_of_spec (uvmunmapLoop_spec hf.good.tree h26 true fun _ x _ hx' =>
      hf.freeable (by unfold FRAME; unfold TRAMP at hpages; omega))
    refine ⟨m', by rw [heq, bind_ok hrun]; rfl, hu.tree, fun k => ?_, ?_⟩
    · rcases lt_or_ge k (2 ^ 26) with hk | hk
      · rw [translate_eq hk, translate_eq hk, hl, without, Nat.add_sub_cancel' hpos.le]
        split_ifs <;> rfl
      · rw [translate_beyond hk, translate_beyond hk, ite_self]
    · rw [hu.free, if_pos rfl, removed_translate h26]

theorem uvmdealloc_panics (hf : Framed m r tf) (hsz : sz < 2 ^ 64) (hlt : newsz < sz) (hint : sz ≤ newsz + 2 ^ 31)
    (hup : PGROUNDUP newsz < PGROUNDUP sz) (htop : TRAMPOLINE < sz) : ∃ e, uvmdealloc r sz newsz m = .error e := by
  obtain ⟨hpos, heq⟩ := (uvmdealloc_eq (r := r) hsz hlt hint).2 hup
  have hpages : TRAMP < pages sz := by
    unfold TRAMPOLINE MAXVA PGSIZE at htop
    unfold pages PGSIZE TRAMP
    omega
  have hspec := uvmunmapLoop_panics (N := pages sz - pages newsz) (k := pages newsz) hf (by omega) (by omega)
  rw [heq]
  cases hrun : uvmunmapLoop r true (pages sz - pages newsz) (pages newsz * PGSIZE) m with
  | ok x => exact absurd (hspec.ok hrun) id
  | error e => exact ⟨e, bind_error hrun⟩

/-! ## `growproc` -/

theorem addInt_eq (h0 : 0 ≤ sz + n) (h1 : sz + n < 2 ^ 64) : (addInt sz n : ℤ) = sz + n := by
  unfold addInt
  rw [Int.emod_eq_of_lt h0 h1, Int.toNat_of_nonneg h0]

/-- the state with new memory and size -/
def Kernel.resize (s : Kernel) (p : ℕ) (m : Mem) (sz : ℕ) : Kernel :=
  { s with
    mem := m
    proc := s.proc.set p { s.proc p with sz := sz } }

theorem growproc_pos (hpos : 0 < n) {w : ℕ}
    (hrun : uvmalloc (s.proc p).pagetable (s.proc p).sz (addInt (s.proc p).sz n) PTE_W s.mem = .ok (w, m)) :
    growproc p n s = .ok (if w = 0 then (false, { s with mem := m }) else (true, s.resize p m w)) := by
  unfold growproc
  rw [bind_ok (a := s.proc p) (t := s) rfl, if_pos hpos, bind_ok (run_vm hrun)]
  split_ifs <;> rfl

theorem growproc_neg (hneg : n < 0) : growproc p n s = (do
    let sz ← vm (uvmdealloc (s.proc p).pagetable (s.proc p).sz (addInt (s.proc p).sz n))
    setProc p { s.proc p with sz := sz }
    return true : SysM Bool) s := by
  unfold growproc
  rw [bind_ok (a := s.proc p) (t := s) rfl, if_neg (by omega), if_pos hneg]

theorem growproc_grows (hr : (s.proc p).pagetable = r) (hg : Good Set.univ s.mem r 0)
    (hb : Bounded s.mem r (s.proc p).sz) (hpos : 0 < n) (hmax : (s.proc p).sz + n ≤ TRAPFRAME) :
    (∃ m' newsz, growproc p n s = .ok (true, s.resize p m' newsz) ∧ (newsz : ℤ) = (s.proc p).sz + n ∧
      Good Set.univ m' r 0 ∧ Grown s.mem m' r (s.proc p).sz newsz ∧ Bounded m' r newsz) ∨
    ∃ m', growproc p n s = .ok (false, { s with mem := m' }) ∧ Good Set.univ m' r 0 ∧
      (∀ k, k < 2 ^ 26 → translate m' r k = translate s.mem r k) ∧ Bounded m' r (s.proc p).sz ∧
      ∀ q, q ∈ s.mem.free → q ∈ m'.free ∨ q ∈ tables m'.entry r := by
  have hT : (TRAPFRAME : ℤ) < 2 ^ 64 := by decide
  have hsz : (s.proc p).sz ≤ TRAPFRAME := by omega
  have hnew : (addInt (s.proc p).sz n : ℤ) = (s.proc p).sz + n := addInt_eq (by omega) (by omega)
  have hspec : Spec (uvmalloc r (s.proc p).sz (addInt (s.proc p).sz n) PTE_W) s.mem _ fun _ => False :=
    uvmalloc_spec hg (fun x _ => Set.mem_univ x) hsz (fun x h1 h2 => hb.leaf h1 h2) (by decide)
      (.inl (.inl (by omega)))
  obtain ⟨w, m', hrun, hm, hw⟩ := run_of_spec hspec
  have hgrow := growproc_pos (s := s) (p := p) hpos (by rw [hr]; exact hrun)
  rcases hw with ⟨rfl, hl⟩ | ⟨rfl, hT, hx⟩
  · have htr : ∀ k, k < 2 ^ 26 → translate m' r k = translate s.mem r k := fun k hk => by
      rw [translate_eq hk, translate_eq hk, hl]
    have hF : FRAME < 2 ^ 26 := by decide
    exact .inr ⟨m', hgrow, hg.moves hm, htr, fun k h1 h2 => by rw [htr k (by omega)]; exact hb k h1 h2, fun q =>
      hm.back hg hl⟩
  · rw [max_eq_right (by omega)] at hgrow hT hx
    rw [if_neg (by omega)] at hgrow
    have hG := grown_of_extended (pages_le hT) hx
    exact .inl ⟨m', _, hgrow, hnew, hg.moves hm, hG, hG.bounded hb (by omega)⟩

/-- **Growing is atomic, and shrinking is exact** where the range does not reach the trampoline. -/
theorem growproc_atomic (hr : (s.proc p).pagetable = r) (hf : Framed s.mem r tf) (hsz : (s.proc p).sz < 2 ^ 64)
    (hb : Bounded s.mem r (s.proc p).sz) (hn : -2 ^ 31 ≤ n) :
    (0 < n → (s.proc p).sz + n ≤ TRAPFRAME →
      (∃ m' newsz, growproc p n s = .ok (true, s.resize p m' newsz) ∧ (newsz : ℤ) = (s.proc p).sz + n ∧
        Good Set.univ m' r 0 ∧ Grown s.mem m' r (s.proc p).sz newsz ∧ Bounded m' r newsz) ∨
      ∃ m', growproc p n s = .ok (false, { s with mem := m' }) ∧ Good Set.univ m' r 0 ∧
        (∀ k, k < 2 ^ 26 → translate m' r k = translate s.mem r k) ∧ Bounded m' r (s.proc p).sz ∧
        ∀ q, q ∈ s.mem.free → q ∈ m'.free ∨ q ∈ tables m'.entry r) ∧
    (n < 0 → -n ≤ (s.proc p).sz →
      ((∃ m' newsz, growproc p n s = .ok (true, s.resize p m' newsz) ∧ (newsz : ℤ) = (s.proc p).sz + n ∧
          Shrunk s.mem m' r newsz (s.proc p).sz ∧ Bounded m' r newsz) ↔
        (s.proc p).sz ≤ TRAMPOLINE ∨ PGROUNDUP (s.proc p).sz ≤ PGROUNDUP (addInt (s.proc p).sz n))) := by
  refine ⟨fun hpos hmax => growproc_grows hr hf.good_zero hb hpos hmax, fun hneg hle => ?_⟩
  have hnew : (addInt (s.proc p).sz n : ℤ) = (s.proc p).sz + n := addInt_eq (by omega) (by omega)
  have hlt : addInt (s.proc p).sz n < (s.proc p).sz := by omega
  have hint : (s.proc p).sz ≤ addInt (s.proc p).sz n + 2 ^ 31 := by omega
  rw [growproc_neg hneg, hr]
  constructor
  · rintro ⟨m', newsz, hok, -⟩
    by_contra hcon
    rw [not_or, not_le, not_le] at hcon
    obtain ⟨e, he⟩ := uvmdealloc_panics hf hsz hlt hint hcon.2 hcon.1
    rw [bind_error (run_vm_error he)] at hok
    cases hok
  · intro h
    obtain ⟨m', hok, hx⟩ := uvmdealloc_shrinks hf hsz hlt hint h.symm
    refine ⟨m', _, ?_, hnew, hx, hx.bounded hb⟩
    rw [bind_ok (run_vm hok)]
    rfl

/-- the page table of a new process -/
theorem exists_framed : ∃ m r, Framed m r KERNBASE ∧ ∀ sz, Bounded m r sz := by
  have htest := procPagetable_small
  have hspec := procPagetable_spec (E := fun _ => False) base_small (show KERNBASE < 2 ^ 64 by decide)
    (show small.trampoline < 2 ^ 64 by decide)
  obtain ⟨o, m, hrun, hQ⟩ := hspec.returns
  rw [hrun] at htest
  cases o with
  | none => cases htest
  | some r =>
    obtain ⟨htree, hl, hsh⟩ := hQ
    have hbase := base_small.shuffle hsh
    refine ⟨m, r, ⟨⟨htree, hbase⟩, ?_, ?_, ?_, ?_⟩, fun sz k _ hk => ?_⟩
    · rw [hl, framed, Function.update_self]
    · rw [hl, framed, Function.update_of_ne (by decide), Function.update_self, hsh.trampoline]
    · rw [hsh.trampoline]
      decide
    · rw [hsh.trampoline, hsh.kend]
      decide
    · have hT : k ≠ TRAMP := by unfold TRAMP; unfold FRAME at hk; omega
      rw [translate_none (hk.trans (by decide)), hl, framed, Function.update_of_ne hk.ne, Function.update_of_ne hT]

/-- a process that has not touched its page gives it up -/
theorem growproc_atomic_page : ∃ s m' newsz, Framed s.mem (s.proc 0).pagetable KERNBASE ∧ (s.proc 0).sz = PGSIZE ∧
    growproc 0 (-PGSIZE) s = .ok (true, s.resize 0 m' newsz) := by
  obtain ⟨m, r, hf, hb⟩ := exists_framed
  let s : Kernel := ⟨m, fun _ => ⟨PGSIZE, r⟩⟩
  have hsz : PGSIZE < 2 ^ 64 := by decide
  obtain ⟨m', newsz, hrun, -⟩ := ((growproc_atomic (s := s) (p := 0) (n := -PGSIZE) rfl hf hsz (hb _)
    (by decide)).2 (by decide) (neg_neg _).le).mpr (.inl (show PGSIZE ≤ TRAMPOLINE by decide))
  exact ⟨s, m', newsz, hf, rfl, hrun⟩

/-- **Shrinking from a size beyond MAXVA panics.** A lazy `sbrk` adds to the size without a look at TRAPFRAME. -/
theorem growproc_beyond_maxva : ∃ s r, (s.proc 0).pagetable = r ∧ Framed s.mem r KERNBASE ∧
    Bounded s.mem r (s.proc 0).sz ∧
    (sysSbrk 0 PGSIZE 0 s).map (fun t => (t.2.proc 0).sz) = .ok (MAXVA + 2 * PGSIZE) ∧
    growproc 0 (-PGSIZE) s = .error .walk := by
  obtain ⟨m, r, hf, hb⟩ := exists_framed
  let s : Kernel := ⟨m, fun _ => ⟨MAXVA + PGSIZE, r⟩⟩
  have hrun : uvmdealloc r (MAXVA + PGSIZE) MAXVA m = .error .walk := rfl
  have hup : addInt (MAXVA + PGSIZE) PGSIZE = MAXVA + 2 * PGSIZE := by decide
  have hdown : addInt (MAXVA + PGSIZE) (-PGSIZE) = MAXVA := by decide
  refine ⟨s, r, rfl, hf, hb _, ?_, ?_⟩
  · unfold sysSbrk
    rw [bind_ok (a := s.proc 0) (t := s) rfl, if_neg (by decide)]
    show Except.map _ ((if addInt (MAXVA + PGSIZE) PGSIZE < MAXVA + PGSIZE then _ else _ : SysM (Option ℕ)) s) = _
    rw [hup, if_neg (by decide)]
    rfl
  · unfold growproc
    rw [bind_ok (a := s.proc 0) (t := s) rfl, if_neg (by decide), if_pos (by decide)]
    show (vm (uvmdealloc r (MAXVA + PGSIZE) (addInt (MAXVA + PGSIZE) (-PGSIZE))) >>= _) s = _
    rw [hdown]
    exact bind_error (run_vm_error hrun)

end Xv6.Sys
