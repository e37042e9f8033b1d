/-
What the kernel does to user memory and what it leaves alone: `uvmcopy`, `copyout`, `copyin` and `copyinstr`, for all
addresses and lengths and wherever `kalloc` fails.

- `uvmcopy_exact`: the child of `fork` gets a copy of the mapped pages of its parent, at pages that were free, or
  nothing.
- `copies_respect_protection`: `copyout` and `copyin` transfer bytes that the user may write or read, and stop at a page
  boundary.
- `copyinstr_exact`: `copyinstr` succeeds iff there is a string. It needs no assumption on the page table but that no
  user page is at physical address 0.
-/
import Xv6.Vm.Lazy

namespace Xv6.Vm

open Xv6.Core
open Fs (PGSIZE)

variable {m m' : Mem} {r p k e va sz tf old new : ℕ} {h : Multiset ℕ}

/-! ## `uvmcopy` -/

theorem flags_copied (hp : Usable m p) (hv : has e PTE_V = true) : PTE_FLAGS (pteOf p (PTE_FLAGS e)) = PTE_FLAGS e := by
  rw [(pteOf_facts hp.lt (flags_lt e)).2.2.1]
  have hbit := (has_V e).mp hv
  refine Nat.eq_of_testBit_eq fun i => ?_
  rw [Nat.testBit_or]
  cases i with
  | zero => simp [PTE_FLAGS, PTE_V, Nat.testBit_zero, hbit]
  | succ i => simp [PTE_V, Nat.testBit_succ]

theorem leaf_valid (he : leaf m.entry r k = some e) : has e PTE_V = true := by
  obtain ⟨t, -, hval⟩ := leaf_low he
  obtain ⟨hv, rfl⟩ := valid_eq_some.mp hval
  exact hv

theorem translate_some {q f : ℕ} (hk : k < 2 ^ 26) :
    translate m r k = some (q, f) ↔ ∃ e, leaf m.entry r k = some e ∧ PTE2PA e = q ∧ PTE_FLAGS e = f := by
  simp [translate_eq hk]

/-- no page is lost if the mapped pages are the same: what was free is free again or a page-table page -/
theorem Moves.back (hm : Moves Set.univ r 0 0 m m') (hg : Good Set.univ m r 0) (hl : leaf m'.entry r = leaf m.entry r)
    (hp : p ∈ m.free) : p ∈ m'.free ∨ p ∈ tables m'.entry r := by
  have hin : p ∈ ↑m.free + (pagesOf Set.univ m r + 0) := Multiset.mem_add.mpr (.inl (Multiset.mem_coe.mpr hp))
  rw [← hm.shuffle.pages, Multiset.add_zero, pagesOf, users_congr hl] at hin
  rcases Multiset.mem_add.mp hin with hf | hin
  · exact .inl (Multiset.mem_coe.mp hf)
  · refine .inr ((Multiset.mem_add.mp hin).resolve_right fun hu => ?_)
    exact hg.base.free_notMem hp (Multiset.mem_of_le users_le hu)

theorem Copied.translate (hc : Copied m old new (pages sz) m')
    (hnew : ∀ k, k < FRAME → leaf m.entry new k = none) (hk : k < FRAME) :
    (translate m' new k).map Prod.snd = (if k < pages sz then (Vm.translate m old k).map Prod.snd else none) ∧
      ∀ q f q0 f0, Vm.translate m' new k = some (q, f) → Vm.translate m old k = some (q0, f0) →
        ∀ y, y < PGSIZE → m'.byte (q + y) = m.byte (q0 + y) := by
  have hk' : k < 2 ^ 26 := hk.trans (by decide)
  rw [translate_eq hk', translate_eq hk']
  split_ifs with hlt
  · cases he : leaf m.entry old k with
    | none => simp [hc.unmapped k hlt he]
    | some e =>
      obtain ⟨q, hq, hl, hbytes⟩ := hc.page k e hlt he
      have hfacts := (pteOf_facts hq.lt (flags_lt e)).2.2.2 hq.1
      simp only [hl, Option.map_some, flags_copied hq (leaf_valid he), hfacts, Option.some.injEq, Prod.mk.injEq,
        true_and]
      rintro _ _ _ _ ⟨rfl, -⟩ ⟨rfl, -⟩
      exact hbytes
  · simp [hc.rest k (not_lt.mp hlt), hnew k hk]

/-- **`uvmcopy` copies exactly and in isolation**, wherever `kalloc` fails. The child maps the mapped pages of the
parent below sz, with the same flags and contents, at pages that were free and that differ from each other; or it has no
user mapping, and no page is lost. The page table and the memory of the parent are as before. -/
theorem uvmcopy_exact (hg : Good Set.univ m new 0) (hold : Tree m.entry old) (hsz : sz ≤ TRAPFRAME)
    (hap : Apart (pagesOf Set.univ m old) m (pagesOf Set.univ m new + 0))
    (hnew : ∀ k, k < FRAME → translate m new k = none) :
    ∃ ok m', uvmcopy old new sz m = .ok (ok, m') ∧ Good Set.univ m' new 0 ∧
      (∀ k, k < 2 ^ 26 → translate m' old k = translate m old k) ∧
      (∀ x, PGROUNDDOWN x ∈ pagesOf Set.univ m old → m'.byte x = m.byte x) ∧
      (ok = true → ∀ k, k < FRAME →
        (translate m' new k).map Prod.snd = (if k < pages sz then (translate m old k).map Prod.snd else none) ∧
        ∀ q f, translate m' new k = some (q, f) → q ∈ m.free ∧
          (∀ q0 f0, translate m old k = some (q0, f0) → ∀ y, y < PGSIZE → m'.byte (q + y) = m.byte (q0 + y)) ∧
          ∀ k' f', k' < FRAME → translate m' new k' = some (q, f') → k' = k) ∧
      (ok = false → (∀ k, k < FRAME → translate m' new k = none) ∧
        ∀ p, p ∈ m.free → p ∈ m'.free ∨ p ∈ tables m'.entry new) := by
  have hlt : ∀ k, k < FRAME → k < 2 ^ 26 := fun k hk => hk.trans (by decide)
  have hnew' : ∀ k, k < FRAME → leaf m.entry new k = none := fun k hk => (translate_none (hlt k hk)).mp (hnew k hk)
  obtain ⟨ok, m', hrun, hm, htrue, hfalse⟩ := run_of_spec (uvmcopy_spec hg hold hsz hap hnew')
  have hsame : ∀ x, PGROUNDDOWN x ∈ pagesOf Set.univ m old → m'.byte x = m.byte x := fun x hx =>
    hap.byte hm.shuffle hx
  have hg' := hg.moves hm
  have hst : Still old m m' := hap.still hm.shuffle hold fun p hp => Multiset.mem_add.mpr (.inl hp)
  refine ⟨ok, m', hrun, hg', fun k hk => ?_, hsame, fun hok k hk => ?_, fun hok => ?_⟩
  · rw [translate_eq hk, translate_eq hk, hst.leaf]
  · obtain ⟨hc, hd⟩ := htrue hok
    obtain ⟨hflags, hbytes⟩ := hc.translate hnew' hk
    refine ⟨hflags, fun q f hq => ⟨?_, fun q0 f0 h0 => hbytes q f q0 f0 hq h0, fun k' f' hk' hq' => ?_⟩⟩
    · obtain ⟨e, he, rfl, -⟩ := (translate_some (hlt k hk)).mp hq
      exact hd.2 k e hk he
    · obtain ⟨e, he, rfl, -⟩ := (translate_some (hlt k hk)).mp hq
      obtain ⟨e', he', hpa, -⟩ := (translate_some (hlt k' hk')).mp hq'
      exact hg'.users_inj hk' hk he' he hpa
  · exact ⟨fun k hk => (translate_none (hlt k hk)).mpr (by rw [hfalse hok, hnew' k hk]), fun p =>
      hm.back hg (hfalse hok)⟩

/-- a fork with a mapped page -/
theorem fork_small : (match procPagetable KERNBASE small with
    | .ok (some r, m) => match vmfault ⟨PGSIZE, r⟩ r 0 m with
      | .ok (_, m1) => match uvmcreate m1 with
        | .ok (some new, m2) => match uvmcopy r new PGSIZE m2 with
          | .ok (ok, _) => ok && (translate m2 r 0).isSome
          | .error _ => false
        | _ => false
      | .error _ => false
    | _ => false) = true := by decide +kernel

/-- the parent has a mapped page, and so has the child -/
theorem uvmcopy_exact_page : ∃ m old new m', uvmcopy old new PGSIZE m = .ok (true, m') ∧
    (translate m old 0).isSome = true ∧ (translate m' new 0).map Prod.snd = (translate m old 0).map Prod.snd := by
  obtain ⟨m0, m, old, -, -, hg, -, -, -, -, -, hproc, w, hfault⟩ := exists_eager
  have htest := fork_small
  have hb : Base m (0 + pagesOf Set.univ m old) := by simpa using hg.base
  obtain ⟨o, m2, hcreate, hmade⟩ := run_of_spec (uvmcreate_spec (hb.le (Multiset.le_add_right _ _)))
  rw [hproc] at htest
  simp only [hfault, hcreate] at htest
  cases o with
  | none => cases htest
  | some new =>
    obtain ⟨htree, hleaf, hsh⟩ := hmade
    have hst : Still old m m2 := hb.apart.still hsh hg.tree fun p hp => Multiset.mem_add.mpr (.inl hp)
    have hbase := hb.shuffle (hsh.more (pagesOf Set.univ m old))
    have hg2 : Good Set.univ m2 new 0 := ⟨htree, hbase.le (Multiset.le_add_right _ _)⟩
    have hap : Apart (pagesOf Set.univ m2 old) m2 (pagesOf Set.univ m2 new + 0) := by
      rw [hst.pagesOf]
      exact hbase.apart
    obtain ⟨ok, m', hrun, -, -, -, htrue, -⟩ := uvmcopy_exact hg2 hst.tree (show PGSIZE ≤ TRAPFRAME by decide) hap
      fun k hk => (translate_none (hk.trans (by decide))).mpr (hleaf k)
    simp only [hrun, Bool.and_eq_true] at htest
    obtain ⟨rfl, hsome⟩ := htest
    exact ⟨m2, old, new, m', hrun, hsome, (htrue rfl 0 (by decide)).1.trans (if_pos (by decide))⟩

/-! ## `copyout` and `copyin` -/

/-- what a copy does to the rest of memory: only free pages and pages of the process change, what is mapped stays
mapped, and mapped pages change at the w user addresses from va on only -/
structure Spares (r sz tf va w : ℕ) (m m' : Mem) : Prop where
  good : Good Set.univ m' r 0
  space : Space m' r sz tf
  others : ∀ x, PGROUNDDOWN x ∉ ↑m.free + pagesOf Set.univ m r → m'.byte x = m.byte x
  keeps : Keeps r m m'
  mapped : ∀ k e y, k < FRAME → leaf m.entry r k = some e → y < PGSIZE →
    ¬ (va ≤ k * PGSIZE + y ∧ k * PGSIZE + y < va + w) → m'.byte (PTE2PA e + y) = m.byte (PTE2PA e + y)

theorem Leaves.spares {n w : ℕ} {ok : Bool} (hl : Leaves r va n w ok m m') (hg : Good Set.univ m r 0)
    (hm : Moves Set.univ r 0 0 m m') (hs : Space m' r sz tf) (hk : Keeps r m m') : Spares r sz tf va w m m' :=
  ⟨hg.moves hm, hs, fun x hx => hm.shuffle.frame x (by rwa [Multiset.add_zero]), hk, hl.frame⟩

/-- what a call returns, or the panic it reaches -/
theorem ok_or_error {α : Type} {f : VmM α} {Q : α → Mem → Prop} {E : Panic → Prop} (hs : Spec f m Q E) :
    (∃ a m', f m = .ok (a, m') ∧ Q a m') ∨ ∃ e, f m = .error e ∧ E e := by
  cases hf : f m with
  | ok x => exact .inl ⟨x.1, x.2, rfl, hs.ok hf⟩
  | error e => exact .inr ⟨e, rfl, hs.error hf⟩

/-- **`copyout` and `copyin` respect user protection.** The process has any size; of it the part below TRAPFRAME can be
mapped. `user` is the memory that the process may use, with zeroed pages for those below sz that are not mapped. A copy
transfers the first n bytes, which all may be written or read, to or from it: all of them if it returns 0, and otherwise
up to a page boundary. A panic is reached only if the size is above TRAPFRAME. -/
theorem copies_respect_protection (hg : Good Set.univ m r 0) (hs : Space m r (min sz TRAPFRAME) tf) (va : ℕ) :
    (∀ src : List UInt8, (∃ ok m', copyout ⟨sz, r⟩ r va src m = .ok (ok, m') ∧ ∃ n,
      Spares r (min sz TRAPFRAME) tf va n m m' ∧ n ≤ src.length ∧
      (∀ i, i < n → ∃ c, user m r (pages (min sz TRAPFRAME)) (va + i) = some (true, c)) ∧
      user m' r (pages (min sz TRAPFRAME)) = overwrite (user m r (pages (min sz TRAPFRAME))) va (src.take n) ∧
      (ok = true → n = src.length) ∧ (ok = false → n < src.length ∧ (n = 0 ∨ (va + n) % PGSIZE = 0))) ∨
      ∃ e, copyout ⟨sz, r⟩ r va src m = .error e ∧ TRAPFRAME < sz) ∧
    ∀ len, (∃ res m', copyin ⟨sz, r⟩ r va len m = .ok (res, m') ∧ Spares r (min sz TRAPFRAME) tf va 0 m m' ∧
      res.2.length ≤ len ∧
      (∀ i, (hi : i < res.2.length) → ∃ w, user m r (pages (min sz TRAPFRAME)) (va + i) = some (w, res.2[i])) ∧
      user m' r (pages (min sz TRAPFRAME)) = user m r (pages (min sz TRAPFRAME)) ∧
      (res.1 = true → res.2.length = len) ∧
      (res.1 = false → res.2.length < len ∧ (res.2.length = 0 ∨ (va + res.2.length) % PGSIZE = 0))) ∨
      ∃ e, copyin ⟨sz, r⟩ r va len m = .error e ∧ TRAPFRAME < sz := by
  have hz : Capped sz (min sz TRAPFRAME) fun _ => TRAPFRAME < sz := ⟨rfl, id⟩
  refine ⟨fun src => ok_or_error ((copyout_spec hg hs hz va src).post ?_),
    fun len => ok_or_error ((copyin_spec hg hs hz va len).post ?_)⟩
  · rintro ok m' ⟨hm, hs', hk, n, hu, hl, hw⟩
    exact ⟨n, hl.spares hg hm hs' hk, hw.le, hw.bytes, hu, hw.all, fun hok => ⟨(hw.stop hok).1, hl.part hok⟩⟩
  · rintro res m' ⟨hm, hs', hk, hu, hl, hr⟩
    exact ⟨hl.spares hg hm hs' hk, hr.le, hr.bytes, hu, hr.all, fun hok => ⟨(hr.stop hok).1, hl.part hok⟩⟩

/-- from a mapped page into one that is not touched yet -/
theorem copies_respect_protection_page : ∃ m r, leaf m.entry r 0 ≠ none ∧ leaf m.entry r 1 = none ∧
    ∃ ok m', copyout ⟨2 * PGSIZE, r⟩ r (PGSIZE - 1) [1, 2] m = .ok (ok, m') := by
  obtain ⟨m0, m, r, -, -, hg, hs, he, -⟩ := exists_eager
  have hs2 : Space m r (min (2 * PGSIZE) TRAPFRAME) KERNBASE :=
    ⟨hs.frame, hs.tramp, fun k hk => (hs.below k hk).imp_left fun h => h.trans (by decide), hs.tf_lt, hs.tramp_lt,
      min_le_right _ _⟩
  have hnone : leaf m.entry r 1 = none := by
    by_contra hne
    exact absurd (hs.below 1 hne) (by decide)
  refine ⟨m, r, he.all_mapped (by decide), hnone, ?_⟩
  rcases (copies_respect_protection hg hs2 (PGSIZE - 1)).1 [1, 2] with ⟨ok, m', hrun, -⟩ | ⟨e, -, hlt⟩
  · exact ⟨ok, m', hrun⟩
  · exact absurd hlt (by decide)

/-! ## `copyinstr` -/

/-- l is the string at va, within max bytes, in mapped user pages -/
def StringAt (m : Mem) (r va max : ℕ) (l : List UInt8) : Prop :=
  l.length < max ∧ 0 ∉ l ∧ ∀ i, (hi : i < (l ++ [0]).length) → ∃ w, present m r (va + i) = some (w, (l ++ [0])[i])

theorem stringAt_iff {max : ℕ} {l : List UInt8} : StringAt m r va max l ↔ Scans (present m r) va max l true := by
  constructor
  · rintro ⟨hlt, hne, hb⟩
    refine ⟨hlt.le, fun i hi => ⟨fun h0 => hne (h0 ▸ List.getElem_mem hi), ?_⟩, fun _ => ⟨hlt, ?_⟩, (by simp)⟩
    · obtain ⟨w, hw⟩ := hb i (by rw [List.length_append]; omega)
      rw [List.getElem_append_left hi] at hw
      exact ⟨w, hw⟩
    · obtain ⟨w, hw⟩ := hb l.length (by simp)
      exact ⟨w, by simpa using hw⟩
  · intro hs
    obtain ⟨hlt, w, hw⟩ := hs.nul rfl
    refine ⟨hlt, fun h0 => ?_, fun i hi => ?_⟩
    · obtain ⟨i, hi, h0⟩ := List.getElem_of_mem h0
      exact (hs.bytes i hi).1 h0
    by_cases hi' : i < l.length
    · rw [List.getElem_append_left hi']
      exact (hs.bytes i hi').2
    · obtain rfl : i = l.length := by
        rw [List.length_append, List.length_singleton] at hi
        omega
      exact ⟨w, by simpa using hw⟩

/-- **`copyinstr` reads exactly the strings that are there.** It returns 0 if and only if there is a string at srcva
that ends within max bytes, and then dst is that string with its NUL; it never stores more than max bytes. -/
theorem copyinstr_exact (hne : ∀ k e, leaf m.entry r k = some e → has e PTE_U = true → PTE2PA e ≠ 0)
    (srcva max : ℕ) :
    ∃ ok dst, copyinstr r srcva max m = .ok ((ok, dst), m) ∧ dst.length ≤ max ∧
      (ok = true ↔ ∃ l, StringAt m r srcva max l) ∧ ∀ l, StringAt m r srcva max l → dst = l ++ [0] := by
  have hspec : Spec (copyinstrLoop r max srcva max []) m _ fun _ => False :=
    copyinstrLoop_spec hne (le_refl max) []
  obtain ⟨⟨ok, dst⟩, t, hrun, ht, l, hsc, hdst⟩ := run_of_spec hspec
  rw [ht] at hrun
  dsimp only at hsc hdst
  have hall : ∀ l', StringAt m r srcva max l' → ok = true ∧ l = l' := fun l' hl' => hsc.unique (stringAt_iff.mp hl')
  refine ⟨ok, dst, hrun, ?_, ⟨fun hok => ⟨l, stringAt_iff.mpr (hok ▸ hsc)⟩, fun ⟨l', hl'⟩ => (hall l' hl').1⟩,
    fun l' hl' => ?_⟩
  · rw [hdst]
    cases ok with
    | true =>
      have := (hsc.nul rfl).1
      simpa using this
    | false => simpa using hsc.le
  · obtain ⟨rfl, rfl⟩ := hall l' hl'
    simpa using hdst

/-- a string in a page that the process has written -/
theorem string_small : (match procPagetable KERNBASE small with
    | .ok (some r, m) => match vmfault ⟨PGSIZE, r⟩ r 0 m with
      | .ok (_, m1) => match copyout ⟨PGSIZE, r⟩ r 0 [0x68, 0x69] m1 with
        | .ok (_, m2) => match copyinstr r 0 16 m2 with
          | .ok (res, _) => decide (res = (true, [0x68, 0x69, 0]))
          | .error _ => false
        | .error _ => false
      | .error _ => false
    | _ => false) = true := by decide +kernel

theorem copyinstr_exact_page : ∃ m r, (∃ l, StringAt m r 0 16 l) ∧
    copyinstr r 0 16 m = .ok ((true, [0x68, 0x69, 0]), m) := by
  obtain ⟨m0, m, r, -, -, hg, hs, -, -, -, -, hproc, w, hfault⟩ := exists_eager
  have htest := string_small
  obtain ⟨ok, m2, hout, hm, hs2, -⟩ := run_of_spec (copyout_spec hg hs hs.capped 0 [0x68, 0x69])
  obtain ⟨ok', dst, hrun, -, hiff, -⟩ := copyinstr_exact (m := m2) (r := r)
    (fun k e he hU => (hs2.usable (hg.moves hm) he hU).2.ne_zero) 0 16
  rw [hproc] at htest
  simp only [hfault, hout, hrun, decide_eq_true_iff, Prod.mk.injEq] at htest
  obtain ⟨rfl, rfl⟩ := htest
  exact ⟨m2, r, hiff.mp rfl, hrun⟩

end Xv6.Vm
