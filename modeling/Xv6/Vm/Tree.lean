/-
Three-level trees: what a page table says, read off its entries.

The entries are a function E of the page-table page and the index. `mid`, `low` and `leaf` are the page-table pages of
the second and third level and the valid entries of the third, numbered by the upper bits of the page number; `tables`
are all page-table pages.

- `Tree`: the page-table pages are distinct, and entries of the upper levels are not leaves.
- `leaf_congr`: the tree depends only on the entries of its own pages.
-/
import Xv6.Core.Gather
import Xv6.Vm.Model

namespace Xv6.Vm

open Xv6.Core
open Fs (PGSIZE)

/-! ## Entries -/

theorem has_V (e : ℕ) : has e PTE_V = true ↔ e % 2 = 1 := by
  unfold has PTE_V
  rw [Nat.shiftLeft_zero, Nat.and_one_is_mod, decide_eq_true_iff]
  omega

theorem PTE2PA_aligned (e : ℕ) : PTE2PA e % PGSIZE = 0 := by
  unfold PTE2PA PGSIZE
  rw [Nat.shiftLeft_eq]
  omega

theorem PTE2PA_eq (e : ℕ) : PTE2PA e = e / 2 ^ 10 * 2 ^ 12 % 2 ^ 64 := by
  unfold PTE2PA
  rw [Nat.shiftLeft_eq, Nat.shiftRight_eq_div_pow]

variable {pa f e : ℕ}

theorem PA2PTE_or (hpa : pa < 2 ^ 64) (hf : f < 2 ^ 10) : PA2PTE pa ||| f = pa / 2 ^ 12 * 2 ^ 10 + f := by
  have hlt : pa / 2 ^ 12 * 2 ^ 10 < 2 ^ 64 := by omega
  unfold PA2PTE
  rw [Nat.shiftRight_eq_div_pow, Nat.mod_eq_of_lt (by rwa [Nat.shiftLeft_eq]), ← Nat.shiftLeft_add_eq_or_of_lt hf,
    Nat.shiftLeft_eq]

theorem PTE2PA_PA2PTE (hpa : pa < 2 ^ 64) (hal : pa % PGSIZE = 0) (hf : f < 2 ^ 10) :
    PTE2PA (PA2PTE pa ||| f) = pa := by
  unfold PGSIZE at hal
  rw [PTE2PA_eq, PA2PTE_or hpa hf]
  omega

theorem PTE_FLAGS_PA2PTE (hpa : pa < 2 ^ 64) (hf : f < 2 ^ 10) : PTE_FLAGS (PA2PTE pa ||| f) = f := by
  unfold PTE_FLAGS
  rw [PA2PTE_or hpa hf, show 0x3FF = 2 ^ 10 - 1 from rfl, Nat.and_two_pow_sub_one_eq_mod]
  omega

theorem PA2PTE_lt (hpa : pa < 2 ^ 64) (hf : f < 2 ^ 10) : PA2PTE pa ||| f < 256 ^ 8 := by
  rw [PA2PTE_or hpa hf]
  omega

/-- the page-table page that an entry points to -/
def child (e : ℕ) : Option ℕ := if has e PTE_V then some (PTE2PA e) else none

/-- the entry, if it is valid -/
def valid (e : ℕ) : Option ℕ := if has e PTE_V then some e else none

theorem child_zero : child 0 = none := rfl

theorem child_eq_none : child e = none ↔ has e PTE_V = false := by
  unfold child
  cases has e PTE_V <;> simp

theorem valid_eq_none : valid e = none ↔ has e PTE_V = false := by
  unfold valid
  cases has e PTE_V <;> simp

theorem child_eq_some {t : ℕ} : child e = some t ↔ has e PTE_V = true ∧ PTE2PA e = t := by
  unfold child
  cases has e PTE_V <;> simp

theorem valid_eq_some {e' : ℕ} : valid e = some e' ↔ has e PTE_V = true ∧ e = e' := by
  unfold valid
  cases has e PTE_V <;> simp

theorem aligned_of_child {t : ℕ} (h : child e = some t) : t % PGSIZE = 0 := by
  rw [← (child_eq_some.mp h).2]
  exact PTE2PA_aligned e

/-- no permission bit: not a leaf -/
def Inner (e : ℕ) : Prop := has e PTE_V = true → has e (PTE_R ||| PTE_W ||| PTE_X) = false

/-! ## The tree -/

section

variable {E E' : ℕ → ℕ → ℕ} {r t c i j k a : ℕ}

/-- the second-level page of index i -/
def mid (E : ℕ → ℕ → ℕ) (r i : ℕ) : Option ℕ := if i < 512 then child (E r i) else none

/-- the third-level page for the page numbers k with k / 512 = j -/
def low (E : ℕ → ℕ → ℕ) (r j : ℕ) : Option ℕ := (mid E r (j / 512)).bind fun t => child (E t (j % 512))

/-- the valid entry of page number k -/
def leaf (E : ℕ → ℕ → ℕ) (r k : ℕ) : Option ℕ := (low E r (k / 512)).bind fun t => valid (E t (k % 512))

/-- all page-table pages -/
def tables (E : ℕ → ℕ → ℕ) (r : ℕ) : Multiset ℕ := r ::ₘ (gather 512 (mid E r) + gather (512 * 512) (low E r))

theorem mid_lt (h : mid E r i = some t) : i < 512 := by
  unfold mid at h
  split_ifs at h with hi
  exact hi

theorem mid_of_lt (hi : i < 512) : mid E r i = child (E r i) := if_pos hi

theorem low_mid (h : low E r j = some t) : ∃ t', mid E r (j / 512) = some t' ∧ child (E t' (j % 512)) = some t :=
  Option.bind_eq_some_iff.mp h

theorem low_of_mid (h : mid E r (j / 512) = some t) : low E r j = child (E t (j % 512)) := by
  unfold low
  rw [h]
  rfl

theorem low_lt (h : low E r j = some t) : j < 512 * 512 := by
  obtain ⟨t', ht', -⟩ := low_mid h
  have := mid_lt ht'
  omega

theorem leaf_low (h : leaf E r k = some e) : ∃ t, low E r (k / 512) = some t ∧ valid (E t (k % 512)) = some e :=
  Option.bind_eq_some_iff.mp h

theorem leaf_of_low (h : low E r (k / 512) = some t) : leaf E r k = valid (E t (k % 512)) := by
  unfold leaf
  rw [h]
  rfl

theorem leaf_none_of_low (h : low E r (k / 512) = none) : leaf E r k = none := by
  unfold leaf
  rw [h]
  rfl

theorem low_none_of_mid (h : mid E r (j / 512) = none) : low E r j = none := by
  unfold low
  rw [h]
  rfl

theorem low_of_same (hmid : mid E' r (j / 512) = mid E r (j / 512))
    (hE : ∀ t, mid E r (j / 512) = some t → E' t (j % 512) = E t (j % 512)) : low E' r j = low E r j := by
  unfold low
  rw [hmid]
  cases hm : mid E r (j / 512) with
  | none => rfl
  | some t => exact congrArg child (hE t hm)

theorem leaf_of_same (hlow : low E' r (k / 512) = low E r (k / 512))
    (hE : ∀ t, low E r (k / 512) = some t → E' t (k % 512) = E t (k % 512)) : leaf E' r k = leaf E r k := by
  unfold leaf
  rw [hlow]
  cases hl : low E r (k / 512) with
  | none => rfl
  | some t => exact congrArg valid (hE t hl)

theorem mem_tables : t ∈ tables E r ↔ t = r ∨ (∃ i, mid E r i = some t) ∨ ∃ j, low E r j = some t := by
  unfold tables
  rw [Multiset.mem_cons, Multiset.mem_add, mem_gather, mem_gather]
  constructor
  · rintro (h | ⟨i, -, h⟩ | ⟨j, -, h⟩)
    · exact .inl h
    · exact .inr (.inl ⟨i, h⟩)
    · exact .inr (.inr ⟨j, h⟩)
  · rintro (h | ⟨i, h⟩ | ⟨j, h⟩)
    · exact .inl h
    · exact .inr (.inl ⟨i, mid_lt h, h⟩)
    · exact .inr (.inr ⟨j, low_lt h, h⟩)

theorem root_mem_tables (E : ℕ → ℕ → ℕ) (r : ℕ) : r ∈ tables E r := mem_tables.mpr (.inl rfl)

theorem mid_mem_tables (h : mid E r i = some t) : t ∈ tables E r := mem_tables.mpr (.inr (.inl ⟨i, h⟩))

theorem low_mem_tables (h : low E r j = some t) : t ∈ tables E r := mem_tables.mpr (.inr (.inr ⟨j, h⟩))

/-! ### Agreement -/

theorem mid_congr (h : ∀ i, i < 512 → E' r i = E r i) : mid E' r = mid E r := by
  funext i
  unfold mid
  split_ifs with hi
  · rw [h i hi]
  · rfl

theorem low_congr (h : ∀ t, t ∈ tables E r → ∀ i, i < 512 → E' t i = E t i) : low E' r = low E r := by
  funext j
  unfold low
  rw [mid_congr fun i hi => h r (root_mem_tables E r) i hi]
  cases hm : mid E r (j / 512) with
  | none => rfl
  | some t =>
    show child (E' t (j % 512)) = child (E t (j % 512))
    rw [h t (mid_mem_tables hm) _ (Nat.mod_lt _ (by decide))]

theorem leaf_congr (h : ∀ t, t ∈ tables E r → ∀ i, i < 512 → E' t i = E t i) : leaf E' r = leaf E r := by
  funext k
  unfold leaf
  rw [low_congr h]
  cases hl : low E r (k / 512) with
  | none => rfl
  | some t =>
    show valid (E' t (k % 512)) = valid (E t (k % 512))
    rw [h t (low_mem_tables hl) _ (Nat.mod_lt _ (by decide))]

theorem tables_of_eq (hm : mid E' r = mid E r) (hl : low E' r = low E r) : tables E' r = tables E r := by
  unfold tables
  rw [hm, hl]

theorem tables_congr (h : ∀ t, t ∈ tables E r → ∀ i, i < 512 → E' t i = E t i) : tables E' r = tables E r :=
  tables_of_eq (mid_congr fun i hi => h r (root_mem_tables E r) i hi) (low_congr h)

/-! ### Well-formed trees -/

/-- **Well-formed trees.** The page-table pages are pairwise distinct, and leaves are only at the lowest level. -/
structure Tree (E : ℕ → ℕ → ℕ) (r : ℕ) : Prop where
  aligned : r % PGSIZE = 0
  nodup : (tables E r).Nodup
  root_inner : ∀ i, i < 512 → Inner (E r i)
  mid_inner : ∀ a t, mid E r a = some t → ∀ i, i < 512 → Inner (E t i)

theorem Tree.congr (h : Tree E r) (hag : ∀ t, t ∈ tables E r → ∀ i, i < 512 → E' t i = E t i) : Tree E' r := by
  refine ⟨h.aligned, ?_, ?_, ?_⟩
  · rw [tables_congr hag]; exact h.nodup
  · intro i hi
    rw [hag r (root_mem_tables E r) i hi]
    exact h.root_inner i hi
  · intro a t ha i hi
    rw [mid_congr fun i hi => hag r (root_mem_tables E r) i hi] at ha
    rw [hag t (mid_mem_tables ha) i hi]
    exact h.mid_inner a t ha i hi

theorem Tree.tables_aligned (h : Tree E r) (ht : t ∈ tables E r) : t % PGSIZE = 0 := by
  rcases mem_tables.mp ht with rfl | ⟨i, hi⟩ | ⟨j, hj⟩
  · exact h.aligned
  · rw [mid_of_lt (mid_lt hi)] at hi
    exact aligned_of_child hi
  · obtain ⟨t', -, hc⟩ := low_mid hj
    exact aligned_of_child hc

theorem Tree.mid_ne (h : Tree E r) (hi : mid E r i = some t) : t ≠ r := by
  rintro rfl
  exact (Multiset.nodup_cons.mp h.nodup).1 (Multiset.mem_add.mpr (.inl (mem_gather.mpr ⟨i, mid_lt hi, hi⟩)))

theorem Tree.low_ne (h : Tree E r) (hj : low E r j = some t) : t ≠ r := by
  rintro rfl
  exact (Multiset.nodup_cons.mp h.nodup).1 (Multiset.mem_add.mpr (.inr (mem_gather.mpr ⟨j, low_lt hj, hj⟩)))

theorem Tree.mid_inj (h : Tree E r) {i' : ℕ} (hi : mid E r i = some t) (hi' : mid E r i' = some t) : i = i' := by
  have hnd := (Multiset.nodup_add.mp (Multiset.nodup_cons.mp h.nodup).2).1
  exact nodup_gather.mp hnd i i' t (mid_lt hi) (mid_lt hi') hi hi'

theorem Tree.low_inj (h : Tree E r) {j' : ℕ} (hj : low E r j = some t) (hj' : low E r j' = some t) : j = j' := by
  have hnd := (Multiset.nodup_add.mp (Multiset.nodup_cons.mp h.nodup).2).2.1
  exact nodup_gather.mp hnd j j' t (low_lt hj) (low_lt hj') hj hj'

theorem Tree.low_ne_mid (h : Tree E r) (hj : low E r j = some t) : mid E r i ≠ some t := by
  intro hi
  have hdis := (Multiset.nodup_add.mp (Multiset.nodup_cons.mp h.nodup).2).2.2
  exact Multiset.disjoint_left.mp hdis (mem_gather.mpr ⟨i, mid_lt hi, hi⟩) (mem_gather.mpr ⟨j, low_lt hj, hj⟩)

/-! ### Changing one entry -/

/-- E' has the entries of E in the pages of the tree but for page c, and but for index i of page t -/
def Changes (E E' : ℕ → ℕ → ℕ) (r c t i : ℕ) : Prop :=
  ∀ t', t' ∈ tables E r → t' ≠ c → ∀ i', i' < 512 → (t' = t → i' ≠ i) → E' t' i' = E t' i'

/-- an entry of the lowest level -/
theorem Tree.setLeaf (h : Tree E r) (hj : low E r j = some t) (hi : i < 512) (hc : c ∉ tables E r)
    (hch : Changes E E' r c t i) :
    Tree E' r ∧ mid E' r = mid E r ∧ low E' r = low E r ∧
      leaf E' r = Function.update (leaf E r) (j * 512 + i) (valid (E' t i)) := by
  have hroot : ∀ i', i' < 512 → E' r i' = E r i' := fun i' hi' =>
    hch r (root_mem_tables E r) (fun e => hc (e ▸ root_mem_tables E r)) i' hi' fun e => absurd e.symm (h.low_ne hj)
  have hmidE : ∀ a t', mid E r a = some t' → ∀ i', i' < 512 → E' t' i' = E t' i' := fun a t' ha i' hi' =>
    hch t' (mid_mem_tables ha) (fun e => hc (e ▸ mid_mem_tables ha)) i' hi' fun e =>
      absurd (e ▸ ha) (h.low_ne_mid hj)
  have hmid : mid E' r = mid E r := mid_congr hroot
  have hlow : low E' r = low E r := by
    funext j'
    exact low_of_same (by rw [hmid]) fun t' hm => hmidE _ t' hm _ (Nat.mod_lt _ (by decide))
  refine ⟨⟨h.aligned, ?_, ?_, ?_⟩, hmid, hlow, ?_⟩
  · rw [tables_of_eq hmid hlow]; exact h.nodup
  · intro i' hi'; rw [hroot i' hi']; exact h.root_inner i' hi'
  · intro a t' ha i' hi'
    rw [hmid] at ha
    rw [hmidE a t' ha i' hi']
    exact h.mid_inner a t' ha i' hi'
  · funext k
    by_cases hk : k = j * 512 + i
    · subst hk
      have hj' : low E' r ((j * 512 + i) / 512) = some t := by rw [hlow, show (j * 512 + i) / 512 = j by omega, hj]
      rw [Function.update_self, leaf_of_low hj', show (j * 512 + i) % 512 = i by omega]
    rw [Function.update_of_ne hk]
    refine leaf_of_same (by rw [hlow]) fun t' hl => ?_
    refine hch t' (low_mem_tables hl) (fun e => hc (e ▸ low_mem_tables hl)) _ (Nat.mod_lt _ (by decide)) ?_
    rintro rfl hki
    have := h.low_inj hl hj
    omega

/-- what the entries of the second level say after a change in one of them -/
theorem Tree.low_changes (h : Tree E r) (ha : mid E r a = some t) (hi : i < 512) (hmid : mid E' r = mid E r)
    (hc : ∀ b, mid E r b ≠ some c) (hch : Changes E E' r c t i) :
    low E' r = Function.update (low E r) (a * 512 + i) (child (E' t i)) := by
  funext j'
  by_cases hj : j' = a * 512 + i
  · subst hj
    have ha' : mid E' r ((a * 512 + i) / 512) = some t := by rw [hmid, show (a * 512 + i) / 512 = a by omega, ha]
    rw [Function.update_self, low_of_mid ha', show (a * 512 + i) % 512 = i by omega]
  rw [Function.update_of_ne hj]
  refine low_of_same (by rw [hmid]) fun t' hm => ?_
  refine hch t' (mid_mem_tables hm) (fun e => hc _ (e ▸ hm)) _ (Nat.mod_lt _ (by decide)) ?_
  rintro rfl hji
  have := h.mid_inj hm ha
  omega

/-- the entries of the second level stay inner entries if the new one is -/
theorem Tree.mid_changes (h : Tree E r) (ha : mid E r a = some t) (hc : ∀ b, mid E r b ≠ some c) (hcr : c ≠ r)
    (hin : Inner (E' t i)) (hch : Changes E E' r c t i) :
    mid E' r = mid E r ∧ (∀ i, i < 512 → Inner (E' r i)) ∧
      ∀ a t', mid E' r a = some t' → ∀ i, i < 512 → Inner (E' t' i) := by
  have hroot : ∀ i', i' < 512 → E' r i' = E r i' := fun i' hi' =>
    hch r (root_mem_tables E r) hcr.symm i' hi' fun e => absurd e.symm (h.mid_ne ha)
  have hmid : mid E' r = mid E r := mid_congr hroot
  refine ⟨hmid, ?_, ?_⟩
  · intro i' hi'; rw [hroot i' hi']; exact h.root_inner i' hi'
  intro b t' hb i' hi'
  rw [hmid] at hb
  by_cases hti : t' = t ∧ i' = i
  · rw [hti.1, hti.2]; exact hin
  · rw [hch t' (mid_mem_tables hb) (fun e => hc b (e ▸ hb)) i' hi' fun e e' => hti ⟨e, e'⟩]
    exact h.mid_inner b t' hb i' hi'

/-- a new page of the lowest level, with no valid entry -/
theorem Tree.addLow (h : Tree E r) (ha : mid E r a = some t) (hi : i < 512) (hnone : low E r (a * 512 + i) = none)
    (hc : c ∉ tables E r) (hnew : child (E' t i) = some c) (hin : Inner (E' t i))
    (hempty : ∀ i, i < 512 → has (E' c i) PTE_V = false) (hch : Changes E E' r c t i) :
    Tree E' r ∧ tables E' r = c ::ₘ tables E r ∧ leaf E' r = leaf E r ∧ mid E' r = mid E r ∧
      low E' r = Function.update (low E r) (a * 512 + i) (some c) := by
  have hcm : ∀ b, mid E r b ≠ some c := fun b hb => hc (mid_mem_tables hb)
  have hcr : c ≠ r := fun e => hc (e ▸ root_mem_tables E r)
  obtain ⟨hmid, hri, hmi⟩ := h.mid_changes ha hcm hcr hin hch
  have hlow := h.low_changes ha hi hmid hcm hch
  rw [hnew] at hlow
  have hlt : a * 512 + i < 512 * 512 := by
    have := mid_lt ha
    omega
  have htab : tables E' r = c ::ₘ tables E r := by
    unfold tables
    rw [hmid, hlow, gather_update_some hlt hnone, Multiset.add_cons, Multiset.cons_swap]
  refine ⟨⟨h.aligned, ?_, hri, hmi⟩, htab, ?_, hmid, hlow⟩
  · rw [htab]; exact Multiset.nodup_cons.mpr ⟨hc, h.nodup⟩
  funext k
  by_cases hk : k / 512 = a * 512 + i
  · rw [leaf_none_of_low (E := E) (by rw [hk]; exact hnone),
      leaf_of_low (E := E') (t := c) (by rw [hlow, hk, Function.update_self])]
    exact valid_eq_none.mpr (hempty _ (Nat.mod_lt _ (by decide)))
  · refine leaf_of_same (by rw [hlow, Function.update_of_ne hk]) fun t' hl => ?_
    exact hch t' (low_mem_tables hl) (fun e => hc (e ▸ low_mem_tables hl)) _ (Nat.mod_lt _ (by decide)) fun e =>
      absurd (e ▸ ha) (h.low_ne_mid hl)

/-- a change in the root page -/
theorem Changes.mid (hch : Changes E E' r c r i) (hcr : r ≠ c) (hi : i < 512) :
    mid E' r = Function.update (mid E r) i (child (E' r i)) := by
  funext i'
  by_cases hii : i' = i
  · rw [hii, Function.update_self, mid_of_lt hi]
  · rw [Function.update_of_ne hii]
    unfold Vm.mid
    split_ifs with hlt
    · rw [hch r (root_mem_tables E r) hcr i' hlt fun _ => hii]
    · rfl

theorem Tree.root_changes (h : Tree E r) (hch : Changes E E' r c r i) (hcr : r ≠ c) (hin : Inner (E' r i)) :
    ∀ i', i' < 512 → Inner (E' r i') := by
  intro i' hi'
  by_cases hii : i' = i
  · rw [hii]
    exact hin
  · rw [hch r (root_mem_tables E r) hcr i' hi' fun _ => hii]
    exact h.root_inner i' hi'

/-- a new page of the second level, with no valid entry -/
theorem Tree.addMid (h : Tree E r) (hi : i < 512) (hnone : mid E r i = none) (hc : c ∉ tables E r)
    (hnew : child (E' r i) = some c) (hin : Inner (E' r i)) (hempty : ∀ i, i < 512 → has (E' c i) PTE_V = false)
    (hch : Changes E E' r c r i) :
    Tree E' r ∧ tables E' r = c ::ₘ tables E r ∧ leaf E' r = leaf E r ∧ low E' r = low E r ∧
      mid E' r = Function.update (mid E r) i (some c) := by
  have hcr : r ≠ c := fun e => hc (e ▸ root_mem_tables E r)
  have hmid : mid E' r = Function.update (mid E r) i (some c) := by rw [hch.mid hcr hi, hnew]
  have hsame : ∀ a t', mid E r a = some t' → ∀ i', i' < 512 → E' t' i' = E t' i' := fun a t' ha i' hi' =>
    hch t' (mid_mem_tables ha) (fun e => hc (e ▸ mid_mem_tables ha)) i' hi' fun e => absurd e (h.mid_ne ha)
  have hlow : low E' r = low E r := by
    funext j
    by_cases hj : j / 512 = i
    · rw [low_none_of_mid (E := E) (by rw [hj]; exact hnone),
        low_of_mid (E := E') (t := c) (by rw [hmid, hj, Function.update_self])]
      exact child_eq_none.mpr (hempty _ (Nat.mod_lt _ (by decide)))
    · exact low_of_same (by rw [hmid, Function.update_of_ne hj]) fun t' hm => hsame _ t' hm _ (Nat.mod_lt _ (by decide))
  have htab : tables E' r = c ::ₘ tables E r := by
    unfold tables
    rw [hlow, hmid, gather_update_some hi hnone, Multiset.cons_add, Multiset.cons_swap]
  refine ⟨⟨h.aligned, ?_, h.root_changes hch hcr hin, ?_⟩, htab, ?_, hlow, hmid⟩
  · rw [htab]; exact Multiset.nodup_cons.mpr ⟨hc, h.nodup⟩
  · intro a t' ha i' hi'
    rw [hmid] at ha
    by_cases hai : a = i
    · subst hai
      rw [Function.update_self] at ha
      cases ha
      intro hv
      rw [hempty i' hi'] at hv
      cases hv
    · rw [Function.update_of_ne hai] at ha
      rw [hsame a t' ha i' hi']
      exact h.mid_inner a t' ha i' hi'
  · funext k
    refine leaf_of_same (by rw [hlow]) fun t' hl => ?_
    exact hch t' (low_mem_tables hl) (fun e => hc (e ▸ low_mem_tables hl)) _ (Nat.mod_lt _ (by decide)) fun e =>
      absurd e (h.low_ne hl)

/-- a page of the lowest level with no valid entry is cut off -/
theorem Tree.cutLow (h : Tree E r) (ha : mid E r a = some t) (hi : i < 512) (hold : low E r (a * 512 + i) = some c)
    (hleaf : ∀ k, k / 512 = a * 512 + i → leaf E r k = none) (hzero : E' t i = 0) (hch : Changes E E' r c t i) :
    Tree E' r ∧ tables E r = c ::ₘ tables E' r ∧ leaf E' r = leaf E r ∧ mid E' r = mid E r ∧
      low E' r = Function.update (low E r) (a * 512 + i) none := by
  have hcm : ∀ b, mid E r b ≠ some c := fun b => h.low_ne_mid hold
  have hin : Inner (E' t i) := by
    rw [hzero]
    exact fun hv => absurd hv (by decide)
  obtain ⟨hmid, hri, hmi⟩ := h.mid_changes ha hcm (h.low_ne hold) hin hch
  have hlow := h.low_changes ha hi hmid hcm hch
  rw [hzero, child_zero] at hlow
  have htab : tables E r = c ::ₘ tables E' r := by
    unfold tables
    rw [hmid, hlow, gather_update_none (low_lt hold) hold, Multiset.add_cons, Multiset.cons_swap]
  refine ⟨⟨h.aligned, ?_, hri, hmi⟩, htab, ?_, hmid, hlow⟩
  · have := h.nodup
    rw [htab] at this
    exact (Multiset.nodup_cons.mp this).2
  funext k
  by_cases hk : k / 512 = a * 512 + i
  · rw [hleaf k hk]
    exact leaf_none_of_low (by rw [hlow, hk, Function.update_self])
  · refine leaf_of_same (by rw [hlow, Function.update_of_ne hk]) fun t' hl => ?_
    exact hch t' (low_mem_tables hl) (fun e => hk (h.low_inj (e ▸ hl) hold)) _ (Nat.mod_lt _ (by decide)) fun e =>
      absurd (e ▸ ha) (h.low_ne_mid hl)

/-- a page of the second level with no valid entry is cut off -/
theorem Tree.cutMid (h : Tree E r) (hi : i < 512) (hold : mid E r i = some c)
    (hlow0 : ∀ j, j / 512 = i → low E r j = none) (hzero : E' r i = 0) (hch : Changes E E' r c r i) :
    Tree E' r ∧ tables E r = c ::ₘ tables E' r ∧ leaf E' r = leaf E r ∧ low E' r = low E r ∧
      mid E' r = Function.update (mid E r) i none := by
  have hcr : r ≠ c := (h.mid_ne hold).symm
  have hin : Inner (E' r i) := by
    rw [hzero]
    exact fun hv => absurd hv (by decide)
  have hmid : mid E' r = Function.update (mid E r) i none := by rw [hch.mid hcr hi, hzero, child_zero]
  have hsame : ∀ a t', a ≠ i → mid E r a = some t' → ∀ i', i' < 512 → E' t' i' = E t' i' := fun a t' hai ha i' hi' =>
    hch t' (mid_mem_tables ha) (fun e => hai (h.mid_inj (e ▸ ha) hold)) i' hi' fun e => absurd e (h.mid_ne ha)
  have hlow : low E' r = low E r := by
    funext j
    by_cases hj : j / 512 = i
    · rw [hlow0 j hj]
      exact low_none_of_mid (by rw [hmid, hj, Function.update_self])
    · exact low_of_same (by rw [hmid, Function.update_of_ne hj]) fun t' hm =>
        hsame _ t' hj hm _ (Nat.mod_lt _ (by decide))
  have htab : tables E r = c ::ₘ tables E' r := by
    unfold tables
    rw [hlow, hmid, gather_update_none hi hold, Multiset.cons_add, Multiset.cons_swap]
  refine ⟨⟨h.aligned, ?_, h.root_changes hch hcr hin, ?_⟩, htab, ?_, hlow, hmid⟩
  · have := h.nodup
    rw [htab] at this
    exact (Multiset.nodup_cons.mp this).2
  · intro a t' ha i' hi'
    rw [hmid] at ha
    by_cases hai : a = i
    · subst hai
      rw [Function.update_self] at ha
      cases ha
    · rw [Function.update_of_ne hai] at ha
      rw [hsame a t' hai ha i' hi']
      exact h.mid_inner a t' ha i' hi'
  · funext k
    refine leaf_of_same (by rw [hlow]) fun t' hl => ?_
    exact hch t' (low_mem_tables hl) (fun e => absurd (e ▸ hold) (h.low_ne_mid hl)) _ (Nat.mod_lt _ (by decide))
      fun e => absurd e (h.low_ne hl)

end

end Xv6.Vm
