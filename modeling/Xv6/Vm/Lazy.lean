/-
Lazy allocation and system calls.

A lazy `sbrk` leaves pages below the size unmapped. `Eager` relates a state to the one in which each of them has been
mapped to a zeroed page.

- `lazy_transparent`: with enough memory, `copyin`, `copyout` and `fetchaddr` do the same in both states; `copyinstr`,
  `fetchstr` and `argstr` do if and only if the string does not lead into a page that is not allocated.
- `copyinstr_lazy`: otherwise they do not: `copyinstr` calls `walkaddr` and not `vmfault`.
-/
import Xv6.Vm.Copy

namespace Xv6.Vm

open Xv6.Core
open Fs (PGSIZE)

variable {m m' : Mem} {r k n e va sz tf a : ℕ} {h h' : Multiset ℕ} {l l' : List UInt8} {E : Panic → Prop}
  {v : ℕ → Option (Bool × UInt8)} {ok ok' : Bool}

/-! ## One result -/

theorem Reads.unique {P P' : Prop}
    (h1 : Reads v a n l ok P) (h2 : Reads v a n l' ok' P') (hP : P) (hP' : P') : ok = ok' ∧ l = l' := by
  have hlen : ∀ {l l' : List UInt8} {ok ok' : Bool} {P P' : Prop}, Reads v a n l ok P → Reads v a n l' ok' P' → P →
      l'.length ≤ l.length := by
    intro l l' ok ok' P P' h1 h2 hP
    by_contra hlt
    cases ok with
    | true => have := h1.all rfl; have := h2.le; omega
    | false =>
      obtain ⟨c, hc⟩ := h2.bytes l.length (by omega)
      rw [(h1.stop rfl).2 hP] at hc
      cases hc
  have heq : l.length = l'.length := le_antisymm (hlen h2 h1 hP') (hlen h1 h2 hP)
  refine ⟨?_, List.ext_getElem heq fun i hi hi' => ?_⟩
  · cases ok <;> cases ok'
    · rfl
    · have := (h1.stop rfl).1; have := h2.all rfl; omega
    · have := (h2.stop rfl).1; have := h1.all rfl; omega
    · rfl
  · obtain ⟨c, hc⟩ := h1.bytes i hi
    obtain ⟨c', hc'⟩ := h2.bytes i hi'
    rw [hc] at hc'
    exact congrArg Prod.snd (Option.some.inj hc')

theorem Writes.unique {k' : ℕ} {P P' : Prop}
    (h1 : Writes v a l k ok P) (h2 : Writes v a l k' ok' P') (hP : P) (hP' : P') : ok = ok' ∧ k = k' := by
  have hlen : ∀ {k k' : ℕ} {ok ok' : Bool} {P P' : Prop}, Writes v a l k ok P → Writes v a l k' ok' P' →
    P → k' ≤ k := by
    intro k k' ok ok' P P' h1 h2 hP
    by_contra hlt
    cases ok with
    | true => have := h1.all rfl; have := h2.le; omega
    | false =>
      obtain ⟨c, hc⟩ := h2.bytes k (by omega)
      exact (h1.stop rfl).2 hP c hc
  have heq : k = k' := le_antisymm (hlen h2 h1 hP') (hlen h1 h2 hP)
  refine ⟨?_, heq⟩
  cases ok <;> cases ok'
  · rfl
  · have := (h1.stop rfl).1; have := h2.all rfl; omega
  · have := (h2.stop rfl).1; have := h1.all rfl; omega
  · rfl

theorem Scans.unique {max : ℕ} (h1 : Scans v a max l ok) (h2 : Scans v a max l' ok') : ok = ok' ∧ l = l' := by
  -- the shorter one ends at a byte that the longer one has read as a byte other than NUL
  have hlen : ∀ {l l' : List UInt8} {ok ok' : Bool}, Scans v a max l ok → Scans v a max l' ok' →
    l'.length ≤ l.length := by
    intro l l' ok ok' h1 h2
    by_contra hlt
    obtain ⟨hne, c, hc⟩ := h2.bytes l.length (by omega)
    cases ok with
    | true =>
      obtain ⟨-, c', hc'⟩ := h1.nul rfl
      rw [hc] at hc'
      exact hne (congrArg Prod.snd (Option.some.inj hc'))
    | false =>
      rcases h1.stop rfl with hmax | hnone
      · have := h2.le; omega
      · rw [hnone] at hc
        cases hc
  have heq : l.length = l'.length := le_antisymm (hlen h2 h1) (hlen h1 h2)
  refine ⟨?_, List.ext_getElem heq fun i hi hi' => ?_⟩
  · have hcon : ∀ {l l' : List UInt8}, l.length = l'.length → Scans v a max l true → Scans v a max l'
      false → False := by
      intro l l' heq h1 h2
      obtain ⟨hlt, c, hc⟩ := h1.nul rfl
      rcases h2.stop rfl with hmax | hnone
      · omega
      · rw [heq, hnone] at hc
        cases hc
    cases ok <;> cases ok'
    · rfl
    · exact (hcon heq.symm h2 h1).elim
    · exact (hcon heq h1 h2).elim
    · rfl
  · obtain ⟨-, c, hc⟩ := h1.bytes i hi
    obtain ⟨-, c', hc'⟩ := h2.bytes i hi'
    rw [hc] at hc'
    exact congrArg Prod.snd (Option.some.inj hc')

/-! ## The two states -/

/-- m' is m with every page below sz that is not mapped mapped to a zeroed page that the user may write -/
structure Eager (m m' : Mem) (r sz : ℕ) : Prop where
  mapped : ∀ k e, leaf m.entry r k = some e →
    leaf m'.entry r k = some e ∧ ∀ x, PGROUNDDOWN x = PTE2PA e → m'.byte x = m.byte x
  fresh : ∀ k, leaf m.entry r k = none → k < pages sz →
    ∃ p, Usable m' p ∧ leaf m'.entry r k = some (pteOf p RWU) ∧ ∀ x, PGROUNDDOWN x = p → m'.byte x = 0
  absent : ∀ k, leaf m.entry r k = none → pages sz ≤ k → leaf m'.entry r k = none

theorem Eager.user (he : Eager m m' r sz) : user m' r (pages sz) = user m r (pages sz) := by
  funext va
  have hmod : va % PGSIZE < PGSIZE := Nat.mod_lt _ (by decide)
  cases hl : leaf m.entry r (va / PGSIZE) with
  | some e =>
    obtain ⟨hl', hb⟩ := he.mapped _ e hl
    rw [user_some hl, user_some hl', hb _ (page_offset (PTE2PA_aligned e) hmod)]
  | none =>
    by_cases hk : va / PGSIZE < pages sz
    · obtain ⟨p, hp, hl', hzero⟩ := he.fresh _ hl hk
      obtain ⟨hU, hW, hpa⟩ := pteOf_RWU hp
      rw [user_none hl, if_pos hk, user_some hl', if_pos hU, hW, hpa, hzero _ (page_offset hp.1 hmod)]
    · rw [user_none hl, user_none (he.absent _ hl (by omega))]

theorem Eager.all_mapped (he : Eager m m' r sz) (hk : k < pages sz) : leaf m'.entry r k ≠ none := by
  cases hl : leaf m.entry r k with
  | some e => rw [(he.mapped k e hl).1]; simp
  | none =>
    obtain ⟨p, -, hl', -⟩ := he.fresh k hl hk
    rw [hl']
    simp

/-- no memory is needed in the second state -/
theorem Eager.enough (he : Eager m m' r sz) (a b : ℕ) : Enough m' r (pages sz) a b := by
  intro hne
  obtain ⟨k, hk⟩ := Finset.nonempty_iff_ne_empty.mpr hne
  obtain ⟨-, hlt, hnone⟩ := Finset.mem_filter.mp hk
  exact absurd hnone (he.all_mapped hlt)

theorem Eager.user_zero (he : Eager m m' r sz) : Vm.user m' r 0 = Vm.user m' r (pages sz) := by
  funext va
  cases hl : leaf m'.entry r (va / PGSIZE) with
  | some e => rw [user_some hl, user_some hl]
  | none =>
    rw [user_none hl, user_none hl, if_neg (Nat.not_lt_zero _), if_neg]
    exact fun hk => he.all_mapped hk hl

/-- the string at va, within max bytes, does not lead from mapped pages into one that is not allocated yet -/
def Present (m : Mem) (r sz va max : ℕ) : Prop :=
  ∀ i, i < max → (∀ j, j < i → ∃ c b, user m r 0 (va + j) = some (c, b) ∧ b ≠ 0) →
    (va + i) / PGSIZE < pages sz → leaf m.entry r ((va + i) / PGSIZE) ≠ none

/-- the mapped pages hold what the process sees -/
theorem user_of_zero {c : Bool × UInt8} (hu : user m r 0 va = some c) : user m r n va = some c := by
  cases hl : leaf m.entry r (va / PGSIZE) with
  | some e => rw [user_some hl] at hu ⊢; exact hu
  | none => rw [user_none hl, if_neg (Nat.not_lt_zero _)] at hu; cases hu

theorem Present.scans {max : ℕ} (hp : Present m r sz va max) (hs : Scans (user m r 0) va max l ok) :
    Scans (user m r (pages sz)) va max l ok := by
  have hbytes : ∀ i, (hi : i < l.length) → l[i] ≠ 0 ∧ ∃ c, user m r (pages sz) (va + i) = some (c, l[i]) :=
    fun i hi => by
    obtain ⟨hne, c, hc⟩ := hs.bytes i hi
    exact ⟨hne, c, user_of_zero hc⟩
  refine ⟨hs.le, hbytes, fun hok => ?_, fun hok => ?_⟩
  · obtain ⟨hlt, c, hc⟩ := hs.nul hok
    exact ⟨hlt, c, user_of_zero hc⟩
  have hle := hs.le
  rcases hs.stop hok with hmax | hnone
  · exact .inl hmax
  rcases hle.lt_or_eq with hlt | hmax
  · refine .inr ?_
    cases hl : leaf m.entry r ((va + l.length) / PGSIZE) with
    | some e => rw [user_some hl] at hnone ⊢; exact hnone
    | none =>
      rw [user_none hl, if_neg]
      refine fun hk => hp l.length hlt (fun j hj => ?_) hk hl
      obtain ⟨hne, c, hc⟩ := hs.bytes j hj
      exact ⟨c, _, hc, hne⟩
  · exact .inl hmax

/-- a scan passes the bytes before a NUL -/
theorem Scans.passes {max i : ℕ} (hs : Scans v a max l ok) (hi : i < max)
    (hpre : ∀ j, j < i → ∃ c b, v (a + j) = some (c, b) ∧ b ≠ 0) : i ≤ l.length := by
  by_contra hlt
  obtain ⟨c, b, hc, hne⟩ := hpre l.length (not_le.mp hlt)
  cases ok with
  | true =>
    obtain ⟨-, c', hc'⟩ := hs.nul rfl
    rw [hc] at hc'
    exact hne (congrArg Prod.snd (Option.some.inj hc'))
  | false =>
    rcases hs.stop rfl with hmax | hnone
    · omega
    · rw [hc] at hnone
      cases hnone

/-- it fails where there is no byte, and ends at a NUL -/
theorem Scans.fails {max i : ℕ} (hs : Scans v a max l ok) (hle : i ≤ l.length) (hnone : v (a + i) = none) :
    ok = false := by
  rcases hle.lt_or_eq with hlt | rfl
  · obtain ⟨-, c, hc⟩ := hs.bytes i hlt
    rw [hnone] at hc
    cases hc
  · refine Bool.eq_false_iff.mpr fun hok => ?_
    obtain ⟨-, c, hc⟩ := hs.nul hok
    rw [hnone] at hc
    cases hc

theorem Scans.ends {max i : ℕ} {c : Bool} (hs : Scans v a max l ok) (hi : i < max) (hle : i ≤ l.length)
    (h0 : v (a + i) = some (c, 0)) : ok = true := by
  rcases hle.lt_or_eq with hlt | rfl
  · obtain ⟨hne, c', hc⟩ := hs.bytes i hlt
    rw [h0] at hc
    exact absurd (congrArg Prod.snd (Option.some.inj hc)).symm hne
  · refine Bool.eq_true_of_not_eq_false fun hok => ?_
    rcases hs.stop hok with hmax | hnone
    · omega
    · rw [h0] at hnone
      cases hnone

/-! ## System calls -/

section

variable (hg : Good Set.univ m r h) (hs : Space m r sz tf) (hg' : Good Set.univ m' r h') (hs' : Space m' r sz tf)
  (he : Eager m m' r sz)

include hg hs hg' hs' he

theorem copyin_lazy (va len : ℕ) (hen : Enough m r (pages sz) (va / PGSIZE) (pages (va + len))) :
    ∃ res t t', copyin ⟨sz, r⟩ r va len m = .ok (res, t) ∧ copyin ⟨sz, r⟩ r va len m' = .ok (res, t') ∧
      user t r (pages sz) = user m r (pages sz) ∧ user t' r (pages sz) = user m r (pages sz) := by
  obtain ⟨⟨ok, l⟩, t, hrun, -, -, -, hu, -, hr⟩ := run_of_spec (copyin_spec hg hs hs.capped va len)
  obtain ⟨⟨ok', l'⟩, t', hrun', -, -, -, hu', -, hr'⟩ := run_of_spec (copyin_spec hg' hs' hs'.capped va len)
  rw [he.user] at hu' hr'
  obtain ⟨rfl, rfl⟩ := hr.unique hr' hen (he.enough _ _)
  exact ⟨_, t, t', hrun, hrun', hu, hu'⟩

theorem copyout_lazy (va : ℕ) (l : List UInt8) (hen : Enough m r (pages sz) (va / PGSIZE) (pages (va + l.length))) :
    ∃ ok n t t', copyout ⟨sz, r⟩ r va l m = .ok (ok, t) ∧ copyout ⟨sz, r⟩ r va l m' = .ok (ok, t') ∧
      user t r (pages sz) = overwrite (user m r (pages sz)) va (l.take n) ∧
      user t' r (pages sz) = overwrite (user m r (pages sz)) va (l.take n) := by
  obtain ⟨ok, t, hrun, -, -, -, n, hu, -, hw⟩ := run_of_spec (copyout_spec hg hs hs.capped va l)
  obtain ⟨ok', t', hrun', -, -, -, n', hu', -, hw'⟩ := run_of_spec (copyout_spec hg' hs' hs'.capped va l)
  rw [he.user] at hu' hw'
  obtain ⟨rfl, rfl⟩ := hw.unique hw' hen (he.enough _ _)
  exact ⟨ok, n, t, t', hrun, hrun', hu, hu'⟩

/-- the two calls return the same, or only the second one finds a string -/
theorem copyinstr_cases (va max : ℕ) :
    (Present m r sz va max ∧ ∃ res, copyinstr r va max m = .ok (res, m) ∧ copyinstr r va max m' = .ok (res, m')) ∨
    ¬ Present m r sz va max ∧
      ∃ d d', copyinstr r va max m = .ok ((false, d), m) ∧ copyinstr r va max m' = .ok ((true, d'), m') := by
  obtain ⟨⟨ok, d⟩, t, hrun, rfl, l, hsc, hd⟩ := run_of_spec (copyinstr_spec hg hs va max)
  obtain ⟨⟨ok', d'⟩, t', hrun', rfl, l', hsc', hd'⟩ := run_of_spec (copyinstr_spec hg' hs' va max)
  rw [he.user_zero, he.user] at hsc'
  dsimp only at hd hd' hsc hsc'
  by_cases hp : Present t r sz va max
  · obtain ⟨rfl, rfl⟩ := (hp.scans hsc).unique hsc'
    rw [← hd] at hd'
    subst hd'
    exact .inl ⟨hp, _, hrun, hrun'⟩
  · refine .inr ⟨hp, d, d', ?_⟩
    simp only [Present, not_forall, not_not] at hp
    obtain ⟨i, hi, hpre, hk, hnone⟩ := hp
    have hpre' : ∀ j, j < i → ∃ c b, user t r (pages sz) (va + j) = some (c, b) ∧ b ≠ 0 := fun j hj =>
      (hpre j hj).imp fun c hc => hc.imp fun b hb => ⟨user_of_zero hb.1, hb.2⟩
    obtain rfl := hsc.fails (hsc.passes hi hpre) (by rw [user_none hnone, if_neg (Nat.not_lt_zero _)])
    obtain rfl := hsc'.ends hi (hsc'.passes hi hpre') (by rw [user_none hnone, if_pos hk])
    exact ⟨hrun, hrun'⟩

theorem copyinstr_iff (va max : ℕ) :
    (∃ res, copyinstr r va max m = .ok (res, m) ∧ copyinstr r va max m' = .ok (res, m')) ↔ Present m r sz va max := by
  rcases copyinstr_cases hg hs hg' hs' he va max with ⟨hp, h⟩ | ⟨hp, d, d', hrun, hrun'⟩
  · exact iff_of_true h hp
  · refine iff_of_false ?_ hp
    rintro ⟨res, h1, h2⟩
    rw [hrun] at h1
    rw [hrun'] at h2
    cases h1
    cases h2

theorem fetchaddr_lazy (addr : ℕ) (hen : Enough m r (pages sz) (addr / PGSIZE) (pages (addr + 8))) :
    ∃ res t t', fetchaddr ⟨sz, r⟩ addr m = .ok (res, t) ∧ fetchaddr ⟨sz, r⟩ addr m' = .ok (res, t') := by
  unfold fetchaddr
  by_cases hadd : addr ≥ sz ∨ (addr + 8) % 2 ^ 64 > sz
  · rw [if_pos hadd]
    exact ⟨none, m, m', rfl, rfl⟩
  · rw [if_neg hadd]
    obtain ⟨⟨ok, l⟩, t, t', hrun, hrun', -⟩ := copyin_lazy hg hs hg' hs' he addr 8 hen
    cases ok with
    | true => exact ⟨some (leVal l), t, t', bind_ok hrun, bind_ok hrun'⟩
    | false => exact ⟨none, t, t', bind_ok hrun, bind_ok hrun'⟩

theorem fetchstr_iff (addr max : ℕ) :
    (∃ res, fetchstr ⟨sz, r⟩ addr max m = .ok (res, m) ∧ fetchstr ⟨sz, r⟩ addr max m' = .ok (res, m')) ↔
      Present m r sz addr max := by
  unfold fetchstr
  rcases copyinstr_cases hg hs hg' hs' he addr max with ⟨hp, ⟨ok, l⟩, hrun, hrun'⟩ | ⟨hp, d, d', hrun, hrun'⟩
  · refine iff_of_true ?_ hp
    cases ok with
    | true => exact ⟨some (beforeNul l), bind_ok hrun, bind_ok hrun'⟩
    | false => exact ⟨none, bind_ok hrun, bind_ok hrun'⟩
  · refine iff_of_false ?_ hp
    rintro ⟨res, h1, h2⟩
    rw [bind_ok hrun] at h1
    rw [bind_ok hrun'] at h2
    cases h1
    cases h2

omit hg hs' hg' in
theorem argraw_eager (htf : tf % PGSIZE = 0) (i : ℕ) (hi : i < 6) : m'.byte.load 8 (tf + 112 + 8 * i) = m.byte.load 8
    (tf + 112 + 8 * i) := by
  have hb := (he.mapped FRAME _ hs.frame).2
  rw [(pteOf_facts hs.tf_lt (by decide)).2.2.2 htf] at hb
  refine Ram.load_congr fun x h1 h2 => hb x (page_of_in htf (by omega) ?_)
  unfold PGSIZE
  omega

theorem argstr_iff (htf : tf % PGSIZE = 0) (i max : ℕ) (hi : i < 6) :
    (∃ res, argstr ⟨sz, r⟩ tf i max m = .ok (res, m) ∧ argstr ⟨sz, r⟩ tf i max m' = .ok (res, m')) ↔
      Present m r sz (m.byte.load 8 (tf + 112 + 8 * i)) max := by
  rw [← fetchstr_iff hg hs hg' hs' he, argstr, bind_ok (m := argraw tf i) (a := m.byte.load 8 (tf + 112 + 8 * i))
    (t := m) rfl, bind_ok (m := argraw tf i) (a := m'.byte.load 8 (tf + 112 + 8 * i)) (t := m') rfl,
    argraw_eager hs he htf i hi]

/-- **Lazy allocation is transparent to system calls**, as far as the string calls find their pages allocated. -/
theorem lazy_transparent (htf : tf % PGSIZE = 0) :
    (∀ va len, Enough m r (pages sz) (va / PGSIZE) (pages (va + len)) →
      ∃ res t t', copyin ⟨sz, r⟩ r va len m = .ok (res, t) ∧ copyin ⟨sz, r⟩ r va len m' = .ok (res, t') ∧
        user t r (pages sz) = user m r (pages sz) ∧ user t' r (pages sz) = user m r (pages sz)) ∧
    (∀ va l, Enough m r (pages sz) (va / PGSIZE) (pages (va + l.length)) →
      ∃ ok n t t', copyout ⟨sz, r⟩ r va l m = .ok (ok, t) ∧ copyout ⟨sz, r⟩ r va l m' = .ok (ok, t') ∧
        user t r (pages sz) = overwrite (user m r (pages sz)) va (l.take n) ∧
        user t' r (pages sz) = overwrite (user m r (pages sz)) va (l.take n)) ∧
    (∀ addr, Enough m r (pages sz) (addr / PGSIZE) (pages (addr + 8)) →
      ∃ res t t', fetchaddr ⟨sz, r⟩ addr m = .ok (res, t) ∧ fetchaddr ⟨sz, r⟩ addr m' = .ok (res, t')) ∧
    (∀ va max,
      ((∃ res, copyinstr r va max m = .ok (res, m) ∧ copyinstr r va max m' = .ok (res, m')) ↔
        Present m r sz va max) ∧
      ((∃ res, fetchstr ⟨sz, r⟩ va max m = .ok (res, m) ∧ fetchstr ⟨sz, r⟩ va max m' = .ok (res, m')) ↔
        Present m r sz va max)) ∧
    ∀ i max, i < 6 →
      ((∃ res, argstr ⟨sz, r⟩ tf i max m = .ok (res, m) ∧ argstr ⟨sz, r⟩ tf i max m' = .ok (res, m')) ↔
        Present m r sz (m.byte.load 8 (tf + 112 + 8 * i)) max) :=
  ⟨copyin_lazy hg hs hg' hs' he, copyout_lazy hg hs hg' hs' he, fetchaddr_lazy hg hs hg' hs' he,
    fun va max => ⟨copyinstr_iff hg hs hg' hs' he va max, fetchstr_iff hg hs hg' hs' he va max⟩,
    fun i max hi => argstr_iff hg hs hg' hs' he htf i max hi⟩

end

/-! ## A page that has not been touched -/

/-- memory with twelve free pages and a page for a trapframe -/
def small : Mem :=
  ⟨(List.range 12).map fun i => KERNBASE + (i + 1) * PGSIZE, fun _ => 0, [], KERNBASE, KERNBASE - PGSIZE⟩

theorem base_small : Base small {KERNBASE} := by
  refine ⟨by decide, fun p hp => ?_⟩
  have : ∀ p ∈ KERNBASE :: small.free, p % PGSIZE = 0 ∧ KERNBASE ≤ p ∧ KERNBASE ≤ p ∧ p < PHYSTOP := by decide
  refine this p ?_
  rcases Multiset.mem_add.mp hp with h1 | h1
  · exact List.mem_cons_of_mem _ (Multiset.mem_coe.mp h1)
  · rw [Multiset.mem_singleton.mp h1]
    exact List.mem_cons_self

theorem procPagetable_small : (match procPagetable KERNBASE small with
    | .ok (some _, m) => m.deny.isEmpty && decide (3 ≤ m.free.length)
    | _ => false) = true := by decide +kernel

/-- the two states: a process of one page, not touched yet, and mapped -/
theorem exists_eager : ∃ m m' r, Good Set.univ m r 0 ∧ Space m r PGSIZE KERNBASE ∧ Good Set.univ m' r 0 ∧
    Space m' r PGSIZE KERNBASE ∧ Eager m m' r PGSIZE ∧ leaf m.entry r 0 = none ∧ m.deny = [] ∧ 3 ≤ m.free.length ∧
    procPagetable KERNBASE small = .ok (some r, m) ∧ ∃ w, vmfault ⟨PGSIZE, r⟩ r 0 m = .ok (w, m') := by
  have htest := procPagetable_small
  have hspec := procPagetable_spec (E := fun _ => False) base_small (show KERNBASE < 2 ^ 64 by decide)
    (show small.trampoline < 2 ^ 64 by decide)
  cases hrun : procPagetable KERNBASE small with
  | error e => rw [hrun] at htest; cases htest
  | ok res =>
    obtain ⟨o, m⟩ := res
    rw [hrun] at htest
    cases o with
    | none => cases htest
    | some r =>
      obtain ⟨htree, hl, hsh⟩ := hspec.ok hrun
      have htest : (m.deny.isEmpty && decide (3 ≤ m.free.length)) = true := htest
      rw [Bool.and_eq_true, List.isEmpty_iff, decide_eq_true_iff] at htest
      obtain ⟨hdeny, hfree⟩ := htest
      have hbase := base_small.shuffle hsh
      have hg : Good Set.univ m r 0 := ⟨htree, hbase.le (by simp)⟩
      have hap : Apart {KERNBASE} m (pagesOf Set.univ m r + 0) := by
        rw [add_zero]
        exact hbase.apart
      have hs : Space m r PGSIZE KERNBASE := Space.of_framed hsh.trampoline (by decide) (by decide) (by decide) hl
      have hnone : leaf m.entry r 0 = none := by
        rw [hl]
        unfold framed
        rw [Function.update_of_ne (by decide), Function.update_of_ne (by decide)]
      have hone : pages PGSIZE = 1 := by decide
      obtain ⟨w, m', hfault, hm, hfound⟩ := run_of_spec (vmfault_spec (k := 0) hg hs hs.capped)
      refine ⟨m, m', r, hg, hs, hg.moves hm, ?_⟩
      rcases hfound with ⟨-, -, hle⟩ | ⟨-, hf⟩
      · have := hle hnone
        omega
      obtain ⟨hs', -⟩ := hf.got hg hs hm
      refine ⟨hs', ?_, hnone, hdeny, hfree, rfl, w, by rwa [Nat.zero_mul] at hfault⟩
      cases hf with
      | hit he => rw [hnone] at he; cases he
      | miss _ hle => have := hle hnone; omega
      | full _ _ _ _ hfull =>
        rcases hfull with h1 | h1
        · omega
        · exact absurd hdeny h1
      | fresh _ hk hp hl' hzero hb =>
        refine ⟨fun k e he => ?_, fun k hkn hk1 => ?_, fun k hkn hk1 => ?_⟩
        · have hk0 : k ≠ 0 := by
            rintro rfl
            rw [hnone] at he
            cases he
          refine ⟨by rw [hl', Function.update_of_ne hk0]; exact he, fun x hx => ?_⟩
          -- the trapframe and the trampoline are not pages of this page table
          rcases hs.below k (by rw [he]; simp) with h1 | rfl | rfl
          · omega
          · rw [hs.frame] at he
            cases he
            rw [(pteOf_facts (by decide) (by decide)).2.2.2 (by decide)] at hx
            exact hap.byte hm.shuffle (by rw [hx]; exact Multiset.mem_singleton_self _)
          · rw [hs.tramp] at he
            cases he
            rw [hsh.trampoline, (pteOf_facts (by decide) (by decide)).2.2.2 (by decide)] at hx
            refine hm.shuffle.frame x fun hmem => ?_
            have := (hg.base.usable _ hmem).2.1
            rw [hx] at this
            exact absurd this (by decide)
        · obtain rfl : k = 0 := by omega
          exact ⟨_, hp, by rw [hl', Function.update_self], hzero⟩
        · rw [hl', Function.update_of_ne (by omega)]
          exact hkn

theorem lazy_transparent_page : ∃ m m' r, Good Set.univ m r 0 ∧ Space m r PGSIZE KERNBASE ∧ Good Set.univ m' r 0 ∧
    Space m' r PGSIZE KERNBASE ∧ Eager m m' r PGSIZE ∧ Enough m r (pages PGSIZE) (0 / PGSIZE) (pages (0 + 1)) ∧
    ∃ res t t', copyin ⟨PGSIZE, r⟩ r 0 1 m = .ok (res, t) ∧ copyin ⟨PGSIZE, r⟩ r 0 1 m' = .ok (res, t') ∧
      user t r (pages PGSIZE) = user m r (pages PGSIZE) ∧ user t' r (pages PGSIZE) = user m r (pages PGSIZE) := by
  obtain ⟨m, m', r, hg, hs, hg', hs', he, -, hdeny, hfree, -⟩ := exists_eager
  have hen : Enough m r (pages PGSIZE) (0 / PGSIZE) (pages (0 + 1)) := by
    have hcard : (lazies m r (pages PGSIZE) (0 / PGSIZE) (pages (0 + 1))).card ≤ 1 :=
      (Finset.card_filter_le _ _).trans (by rw [Nat.card_Ico]; decide)
    exact fun _ => ⟨hdeny, by omega⟩
  exact ⟨m, m', r, hg, hs, hg', hs', he, hen, (lazy_transparent hg hs hg' hs' he (by decide)).1 0 1 hen⟩

/-- **`copyinstr` fails on a page that has not been touched**, and finds the empty string there once it is mapped. -/
theorem copyinstr_lazy : ∃ m m' r, Good Set.univ m r 0 ∧ Space m r PGSIZE KERNBASE ∧ Good Set.univ m' r 0 ∧
    Space m' r PGSIZE KERNBASE ∧ Eager m m' r PGSIZE ∧ m.deny = [] ∧ 3 ≤ m.free.length ∧
    ∃ d d', copyinstr r 0 1 m = .ok ((false, d), m) ∧ copyinstr r 0 1 m' = .ok ((true, d'), m') := by
  obtain ⟨m, m', r, hg, hs, hg', hs', he, hnone, hdeny, hfree, -⟩ := exists_eager
  refine ⟨m, m', r, hg, hs, hg', hs', he, hdeny, hfree, ?_⟩
  rcases copyinstr_cases hg hs hg' hs' he 0 1 with ⟨hp, -⟩ | ⟨-, h⟩
  · exact absurd hnone (hp 0 (by decide) (fun j hj => absurd hj (Nat.not_lt_zero j)) (by decide))
  · exact h

end Xv6.Vm
