/-
The lifetime of a page table, from `proc_pagetable` to `proc_freepagetable`: eager and lazy growth, shrinking, faults.

- `lifetime_conserves`: no page is lost.
-/
import Xv6.Core.Machine
import Xv6.Vm.Lazy

namespace Xv6.Vm

open Xv6.Core
open Fs (PGSIZE)

/-- calls of the process with the page table; `sbrk` is the lazy branch of `sys_sbrk` -/
inductive Use where
  | uvmalloc (newsz xperm : ℕ)
  | uvmdealloc (newsz : ℕ)
  | sbrk (newsz : ℕ)
  | vmfault (va : ℕ)

/-- on memory and the size of the process, which stays as it is when `uvmalloc` returns 0 -/
def uses (r : ℕ) : Machine (Mem × ℕ) Use Panic where
  legal x
    | .uvmalloc newsz xperm => newsz ≤ TRAPFRAME ∧ xperm < 2 ^ 10
    | .sbrk newsz => x.2 ≤ newsz ∧ newsz ≤ TRAPFRAME
    | _ => True
  step x
    | .uvmalloc newsz xperm => (uvmalloc r x.2 newsz xperm x.1).map fun o => (o.2, if o.1 = 0 then x.2 else o.1)
    | .uvmdealloc newsz => (uvmdealloc r x.2 newsz x.1).map Prod.swap
    | .sbrk newsz => .ok (x.1, newsz)
    | .vmfault va => (vmfault ⟨x.2, r⟩ r va x.1).map fun o => (o.2, x.2)

/-- the pages of m that are not free any more are those of page table r -/
structure Life (m : Mem) (r tf : ℕ) (H : Multiset ℕ) (x : Mem × ℕ) : Prop where
  tree : Tree x.1.entry r
  shuffle : Shuffle H (pagesOf Set.univ x.1 r + H) m x.1
  space : Space x.1 r x.2 tf

variable {m m' : Mem} {r tf w k : ℕ} {H : Multiset ℕ} {x : Mem × ℕ}

theorem Life.good (h : Life m r tf H x) (hb : Base m H) : Good Set.univ x.1 r H := ⟨h.tree, hb.shuffle h.shuffle⟩

theorem Life.above (h : Life m r tf H x) (hk : pages x.2 ≤ k) (hF : k ≠ FRAME) (hT : k ≠ TRAMP) :
    leaf x.1.entry r k = none :=
  not_not.mp fun hne => (h.space.below k hne).elim (not_lt.mpr hk) fun he => he.elim hF hT

/-- the size is w now, and from there up to the old one nothing is mapped -/
theorem Life.moves (h : Life m r tf H x) (hm : Moves Set.univ r H H x.1 m') (hw : w ≤ TRAPFRAME)
    (hl : ∀ k, pages w ≤ k → leaf m'.entry r k = if k < pages x.2 then none else leaf x.1.entry r k) :
    Life m r tf H (m', w) := by
  have hF := pages_le hw
  have hF' := h.space.pages_le
  have hT : FRAME < TRAMP := by decide
  refine ⟨hm.tree, h.shuffle.trans hm.shuffle, h.space.of_leaf hm.shuffle.trampoline hw ?_ ?_ fun k hne => ?_⟩
  · rw [hl _ hF, if_neg (by omega)]
  · rw [hl _ (by omega), if_neg (by omega)]
  · refine or_iff_not_imp_left.mpr fun hk => ?_
    rw [hl k (not_lt.mp hk), Ne, ite_eq_left_iff, not_forall] at hne
    obtain ⟨hlt, hne⟩ := hne
    exact (h.space.below k hne).resolve_left hlt

theorem Life.step (h : Life m r tf H x) (hb : Base m H) {a : Use} (ha : (uses r).legal x a) :
    ∃ y, (uses r).step x a = .ok y ∧ Life m r tf H y := by
  have hg := h.good hb
  cases a with
  | uvmalloc newsz xperm =>
    obtain ⟨w, m', hrun, hm, hw⟩ := run_of_spec (uvmalloc_spec hg (fun k _ => Set.mem_univ k) h.space.sz_le
      (fun k hk hkF => h.above hk hkF.ne (hkF.trans (by decide)).ne) ha.2 (.inl (.inl ha.1)))
    refine ⟨(m', if w = 0 then x.2 else w), by simp only [uses, hrun, Except.map], ?_⟩
    rcases hw with ⟨rfl, hleaf⟩ | ⟨rfl, hsz, hx⟩
    · exact ⟨hm.tree, h.shuffle.trans hm.shuffle, h.space.congr hm.shuffle.trampoline hleaf⟩
    · rw [show (if max x.2 newsz = 0 then x.2 else max x.2 newsz) = max x.2 newsz by split_ifs <;> omega]
      refine h.moves hm hsz fun k hk => ?_
      have hmono := pages_mono (le_max_left x.2 newsz)
      rw [hx.outside k (by omega), if_neg (by omega)]
  | uvmdealloc newsz =>
    obtain ⟨w, m', hrun, rfl, hm, hleaf, -⟩ := run_of_spec (uvmdealloc_spec hg h.space.sz_le
      fun k (_ : pages newsz ≤ k) _ => Set.mem_univ k)
    refine ⟨(m', min x.2 newsz), by simp only [uses, hrun, Except.map]; rfl,
      h.moves hm ((min_le_left _ _).trans h.space.sz_le) fun k hk => ?_⟩
    rw [hleaf]
    refine if_congr ?_ rfl rfl
    rcases le_total x.2 newsz with hle | hle
    · rw [min_eq_left hle] at hk
      have := pages_mono hle
      omega
    · rw [min_eq_right hle] at hk
      omega
  | sbrk newsz =>
    exact ⟨_, rfl, h.moves hg.refl ha.2 fun k hk => (if_neg (not_lt.mpr ((pages_mono ha.1).trans hk))).symm⟩
  | vmfault va =>
    by_cases hva : va ≥ x.2
    · refine ⟨x, ?_, h⟩
      simp only [uses, vmfault, if_pos hva]
      rfl
    · -- the fault is the one at the start of its page
      have heq : vmfault ⟨x.2, r⟩ r va = vmfault ⟨x.2, r⟩ r (va / PGSIZE * PGSIZE) := by
        have hle := Nat.div_mul_le_self va PGSIZE
        unfold vmfault
        rw [if_neg hva, if_neg (by show ¬ _ ≥ x.2; omega),
          show PGROUNDDOWN (va / PGSIZE * PGSIZE) = PGROUNDDOWN va by unfold PGROUNDDOWN PGSIZE; omega]
      obtain ⟨w, m', hrun, hm, hw⟩ := run_of_spec (vmfault_spec (k := va / PGSIZE) hg h.space h.space.capped)
      refine ⟨(m', x.2), by simp only [uses, heq, hrun, Except.map], hm.tree, h.shuffle.trans hm.shuffle, ?_⟩
      rcases hw with ⟨-, rfl, -⟩ | ⟨-, hf⟩
      · exact h.space
      · exact (hf.got hg h.space hm).1

/-- **No page is lost.** However often the memory of a process grows up to TRAPFRAME, shrinks and faults, and wherever
`kalloc` fails, no call panics; and when its page table is freed, exactly the pages are free that were free before. -/
theorem lifetime_conserves (hb : Base m H) (htf : tf < 2 ^ 64) (htr : m.trampoline < 2 ^ 64)
    (hnew : procPagetable tf m = .ok (some r, m')) (hr : (uses r).Reach (m', 0) x) :
    (∀ a, (uses r).legal x a → ∃ y, (uses r).step x a = .ok y) ∧
    ∃ u, procFreepagetable r x.2 x.1 = .ok ((), u) ∧ (↑u.free : Multiset ℕ) = ↑m.free := by
  obtain ⟨htree, hleaf, hsh⟩ := (procPagetable_spec (E := fun _ => False) hb htf htr).ok hnew
  have hx := hr.inv (Life m r tf H) ⟨htree, hsh, .of_framed hsh.trampoline htf htr (Nat.zero_le _) hleaf⟩
    fun x a y hx ha hy => by
      obtain ⟨z, hz, h⟩ := hx.step hb ha
      exact Except.ok.inj (hz.symm.trans hy) ▸ h
  refine ⟨fun a ha => (hx.step hb ha).imp fun _ h => h.1, ?_⟩
  obtain ⟨_, u, hrun, hend⟩ := run_of_spec (procFreepagetable_spec (hx.good hb) hx.space.sz_le fun k => hx.above)
  exact ⟨u, hrun, add_right_cancel (hx.shuffle.trans hend).pages⟩

instance (r : ℕ) (x : Mem × ℕ) (a : Use) : Decidable ((uses r).legal x a) := by
  cases a <;> unfold uses <;> infer_instance

/-- a process grows by a page, by another one that it touches, and gives that one up -/
theorem uses_small : (match procPagetable KERNBASE small with
    | .ok (some r, m) => ((uses r).steps (m, 0)
      [.uvmalloc PGSIZE PTE_W, .sbrk (2 * PGSIZE), .vmfault PGSIZE, .uvmdealloc PGSIZE]).any fun x =>
        x.2 = PGSIZE ∧ (translate x.1 r 0).isSome ∧ x.1.free.length < m.free.length
    | _ => false) = true := by decide +kernel

theorem lifetime_conserves_small : ∃ r m x u, procPagetable KERNBASE small = .ok (some r, m) ∧
    (uses r).Reach (m, 0) x ∧ x.2 = PGSIZE ∧ (translate x.1 r 0).isSome = true ∧
    procFreepagetable r x.2 x.1 = .ok ((), u) ∧ (↑u.free : Multiset ℕ) = ↑small.free := by
  have htest := uses_small
  split at htest
  case h_1 r m hrun =>
    obtain ⟨x, hx, hp⟩ := Machine.exists_reach_of_steps htest
    obtain ⟨hsz, hmapped, -⟩ := of_decide_eq_true hp
    obtain ⟨-, u, hu⟩ := lifetime_conserves base_small (by decide) (by decide) hrun hx
    exact ⟨r, m, x, u, hrun, hx, hsz, hmapped, hu⟩
  case h_2 => cases htest

end Xv6.Vm
