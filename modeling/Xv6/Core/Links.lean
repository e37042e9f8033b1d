/-
Circular doubly linked lists with a head: the nodes are numbers, and `next` and `prev` are their links.

- `Links d l`: consecutive nodes of l are linked both ways; `Dll.Ring d h l`: head h and the nodes l form one cycle.
- `Ring.push`, `Ring.unlink`: the two edits, as sequences of stores.
- `Ring.search_next`, `Ring.search_prev`: the loops that look for a node from the head on, in the two directions.
-/
import Mathlib.Tactic
import Xv6.Core.Crash

namespace Xv6.Core

structure Dll where
  next : Store ℕ
  prev : Store ℕ

namespace Dll

variable {d d' : Dll} {h a b x y n : ℕ} {l l' l1 l2 : List ℕ} {q : ℕ → Bool}

/-- consecutive nodes are linked both ways -/
def Links (d : Dll) : List ℕ → Prop
  | x :: y :: l => d.next x = y ∧ d.prev y = x ∧ Links d (y :: l)
  | _ => True

/-- the nodes l in a cycle through the head h -/
def Ring (d : Dll) (h : ℕ) (l : List ℕ) : Prop := d.Links (h :: (l ++ [h])) ∧ (h :: l).Nodup

/-- the links seen from the other side -/
def swap (d : Dll) : Dll := ⟨d.prev, d.next⟩

/-! ## Chains -/

theorem links_append : d.Links (l ++ x :: l') ↔ d.Links (l ++ [x]) ∧ d.Links (x :: l') := by
  induction l with
  | nil => exact (and_iff_right trivial).symm
  | cons a l ih =>
    cases l with
    | nil =>
      show (d.next a = x ∧ d.prev x = a ∧ d.Links (x :: l')) ↔ (d.next a = x ∧ d.prev x = a ∧ True) ∧ d.Links (x :: l')
      tauto
    | cons b l =>
      show (d.next a = b ∧ d.prev b = a ∧ d.Links (b :: l ++ x :: l')) ↔
        (d.next a = b ∧ d.prev b = a ∧ d.Links (b :: l ++ [x])) ∧ d.Links (x :: l')
      rw [ih]
      tauto

/-- the links of the nodes but the last, and back from the nodes but the first -/
theorem Links.congr (hl : d.Links (a :: l)) (hnext : ∀ x ∈ (a :: l).dropLast, d'.next x = d.next x)
    (hprev : ∀ y ∈ l, d'.prev y = d.prev y) : d'.Links (a :: l) := by
  induction l generalizing a with
  | nil => trivial
  | cons b l ih =>
    obtain ⟨h1, h2, h3⟩ := hl
    rw [List.dropLast_cons_cons] at hnext
    refine ⟨(hnext a List.mem_cons_self).trans h1, (hprev b List.mem_cons_self).trans h2, ih h3 ?_ ?_⟩
    · exact fun x hx => hnext x (List.mem_cons_of_mem _ hx)
    · exact fun y hy => hprev y (List.mem_cons_of_mem _ hy)

theorem Links.reverse (hl : d.Links l) : d.swap.Links l.reverse := by
  induction l with
  | nil => trivial
  | cons a l ih =>
    cases l with
    | nil => trivial
    | cons b l =>
      obtain ⟨h1, h2, h3⟩ := hl
      have ih' := ih h3
      rw [List.reverse_cons] at ih'
      rw [List.reverse_cons, List.reverse_cons, List.append_assoc]
      exact links_append.2 ⟨ih', h2, h1, trivial⟩

theorem Ring.reverse (hr : d.Ring h l) : d.swap.Ring h l.reverse := by
  refine ⟨?_, ?_⟩
  · have := hr.1.reverse
    rwa [List.reverse_cons, List.reverse_append, List.reverse_singleton, List.cons_append, List.nil_append] at this
  · rw [List.nodup_cons, List.mem_reverse, List.nodup_reverse, ← List.nodup_cons]
    exact hr.2

/-! ## Edits -/

/-- a head alone -/
def single (d : Dll) (h : ℕ) : Dll := ⟨d.next.set h h, d.prev.set h h⟩

theorem ring_single (d : Dll) (h : ℕ) : (d.single h).Ring h [] :=
  ⟨⟨Store.set_self _ _ _, Store.set_self _ _ _, trivial⟩, List.nodup_singleton h⟩

/-- `b->next->prev = b->prev; b->prev->next = b->next` -/
def unlink (d : Dll) (b : ℕ) : Dll :=
  let d := { d with prev := d.prev.set (d.next b) (d.prev b) }
  { d with next := d.next.set (d.prev b) (d.next b) }

/-- `b->next = h->next; b->prev = h; h->next->prev = b; h->next = b` -/
def push (d : Dll) (h b : ℕ) : Dll :=
  let d := { d with next := d.next.set b (d.next h) }
  let d := { d with prev := d.prev.set b h }
  let d := { d with prev := d.prev.set (d.next h) b }
  { d with next := d.next.set h b }

/-- **A node becomes the first one.** -/
theorem Ring.push (hr : d.Ring h l) (hb : b ∉ h :: l) : (d.push h b).Ring h (b :: l) := by
  obtain ⟨hl, hnd⟩ := hr
  have hbh : b ≠ h := fun e => hb (e ▸ List.mem_cons_self)
  have hhead : h ∉ l := (List.nodup_cons.1 hnd).1
  have hnextb : (d.push h b).next b = d.next h := by
    show Store.set (Store.set d.next b _) h _ b = _
    rw [Store.set_ne _ _ hbh, Store.set_self]
  -- the first node so far, or the head
  have hfirst : (Store.set d.next b (d.next h)) h = d.next h := Store.set_ne _ _ hbh.symm
  have hprevf : (d.push h b).prev (d.next h) = b := by
    show Store.set (Store.set d.prev b h) (Store.set d.next b (d.next h) h) b (d.next h) = b
    rw [hfirst, Store.set_self]
  have hprev : ∀ y, y ≠ b → y ≠ d.next h → (d.push h b).prev y = d.prev y := fun y hyb hyf => by
    show Store.set (Store.set d.prev b h) (Store.set d.next b (d.next h) h) b y = _
    rw [hfirst, Store.set_ne _ _ hyf, Store.set_ne _ _ hyb]
  have hnext : ∀ x, x ≠ b → x ≠ h → (d.push h b).next x = d.next x := fun x hxb hxh => by
    show Store.set (Store.set d.next b _) h _ x = _
    rw [Store.set_ne _ _ hxh, Store.set_ne _ _ hxb]
  have hprevb : b ≠ d.next h → (d.push h b).prev b = h := fun hne => by
    show Store.set (Store.set d.prev b h) (Store.set d.next b (d.next h) h) b b = h
    rw [hfirst, Store.set_ne _ _ hne, Store.set_self]
  have hnexth : (d.push h b).next h = b := Store.set_self _ _ _
  refine ⟨?_, List.nodup_cons.2 ⟨?_, List.nodup_cons.2 ⟨fun hm => hb (List.mem_cons_of_mem _ hm),
    (List.nodup_cons.1 hnd).2⟩⟩⟩
  · cases l with
    | nil =>
      obtain ⟨h1, -, -⟩ := hl
      rw [h1] at hprevf hnextb hprevb
      exact ⟨hnexth, hprevb hbh, hnextb, hprevf, trivial⟩
    | cons c l =>
      obtain ⟨h1, h2, h3⟩ := hl
      have hbc : b ≠ c := fun e => hb (by rw [e]; exact List.mem_cons_of_mem _ List.mem_cons_self)
      have hlast : (c :: l.append [h]).dropLast = c :: l :=
        by
        show ((c :: l) ++ [h]).dropLast = c :: l
        exact List.dropLast_concat
      rw [h1] at hprevf hnextb hprevb hprev
      refine ⟨hnexth, hprevb hbc, hnextb, hprevf, h3.congr (fun x hx => hnext x ?_ ?_) fun y hy => hprev y ?_ ?_⟩
      · rw [hlast] at hx
        exact fun e => hb (e ▸ List.mem_cons_of_mem _ hx)
      · rw [hlast] at hx
        exact fun e => hhead (e ▸ hx)
      · rintro rfl
        rcases List.mem_append.1 hy with hy | hy
        · exact hb (List.mem_cons_of_mem _ (List.mem_cons_of_mem _ hy))
        · exact hbh (List.mem_singleton.1 hy)
      · rintro rfl
        rcases List.mem_append.1 hy with hy | hy
        · exact (List.nodup_cons.1 (List.nodup_cons.1 hnd).2).1 hy
        · exact hhead (by rw [← List.mem_singleton.1 hy]; exact List.mem_cons_self)
  · rintro hm
    rcases List.mem_cons.1 hm with rfl | hm
    · exact hbh rfl
    · exact hhead hm

/-- around b: its neighbours a and c are linked to each other, and nothing else changes -/
theorem Links.unlink {A C : List ℕ} {c : ℕ} (hl : d.Links (A ++ a :: b :: c :: C)) (hbc : b ≠ c)
    (hA : a ∉ A) (hcA : c ∉ (A ++ [a]).tail) (haC : a ∉ (c :: C).dropLast) (hcC : c ∉ C) :
    (d.unlink b).Links (A ++ a :: c :: C) := by
  obtain ⟨hleft, hnexta, hprevb, hnextb, -, hright⟩ := links_append.1 hl
  have hprev' : (d.unlink b).prev = d.prev.set c a := by
    show d.prev.set (d.next b) (d.prev b) = _
    rw [hnextb, hprevb]
  have hnext' : (d.unlink b).next = d.next.set a c := by
    show d.next.set (d.prev.set (d.next b) (d.prev b) b) (d.next b) = _
    rw [hnextb, hprevb, Store.set_ne _ _ hbc, hprevb]
  refine links_append.2 ⟨?_, ?_, ?_, hright.congr ?_ ?_⟩
  · cases A with
    | nil => trivial
    | cons x A =>
      refine hleft.congr (fun y hy => ?_) fun y hy => ?_
      · rw [show x :: (A.append [a]) = (x :: A) ++ [a] from rfl, List.dropLast_concat] at hy
        rw [hnext', Store.set_ne _ _ (ne_of_mem_of_not_mem hy hA)]
      · rw [hprev', Store.set_ne _ _ (ne_of_mem_of_not_mem hy hcA)]
  · rw [hnext', Store.set_self]
  · rw [hprev', Store.set_self]
  · exact fun y hy => by rw [hnext', Store.set_ne _ _ (ne_of_mem_of_not_mem hy haC)]
  · exact fun y hy => by rw [hprev', Store.set_ne _ _ (ne_of_mem_of_not_mem hy hcC)]

/-- **A node is taken out.** -/
theorem Ring.unlink (hr : d.Ring h (l1 ++ b :: l2)) : (d.unlink b).Ring h (l1 ++ l2) := by
  obtain ⟨hl, hnd⟩ := hr
  rw [← List.cons_append] at hnd
  obtain ⟨hnd1, hnd2, hdis⟩ := List.nodup_append.1 hnd
  obtain ⟨hb2, hnd2⟩ := List.nodup_cons.1 hnd2
  -- the neighbours: a is the head or the last of l1, c the first of l2 or the head
  obtain ⟨A, a, hA⟩ : ∃ A a, h :: l1 = A ++ [a] := ⟨_, _, (List.dropLast_append_getLast (List.cons_ne_nil h l1)).symm⟩
  obtain ⟨c, C, hC⟩ : ∃ c C, l2 ++ [h] = c :: C := by cases l2 <;> exact ⟨_, _, rfl⟩
  have htail : (A ++ [a]).tail = l1 := by rw [← hA, List.tail_cons]
  have hlast : (c :: C).dropLast = l2 := by rw [← hC, List.dropLast_concat]
  have hamem : a ∈ h :: l1 := by rw [hA]; exact List.mem_append_right _ (List.mem_singleton_self a)
  have hcmem : c ∈ l2 ∨ c = h := by
    have : c ∈ l2 ++ [h] := by rw [hC]; exact List.mem_cons_self
    simpa using this
  have hsplit : ∀ m, h :: (l1 ++ m ++ [h]) = A ++ a :: (m ++ [h]) := fun m => by
    rw [List.append_assoc, ← List.cons_append, hA, List.append_assoc, List.singleton_append]
  have hnew : (d.unlink b).Links (A ++ a :: c :: C) := by
    refine Links.unlink ?_ ?_ ?_ ?_ ?_ ?_
    · rw [← hC, ← List.cons_append, ← hsplit]
      exact hl
    · rintro rfl
      rcases hcmem with hc | rfl
      · exact hb2 hc
      · exact hdis b List.mem_cons_self b List.mem_cons_self rfl
    · rw [hA] at hnd1
      exact fun hm => (List.nodup_append.1 hnd1).2.2 a hm a (List.mem_singleton_self a) rfl
    · rw [htail]
      rcases hcmem with hc | rfl
      · exact fun hm => hdis c (List.mem_cons_of_mem _ hm) c (List.mem_cons_of_mem _ hc) rfl
      · exact (List.nodup_cons.1 hnd1).1
    · rw [hlast]
      exact fun hm => hdis a hamem a (List.mem_cons_of_mem _ hm) rfl
    · cases l2 with
      | nil =>
        obtain ⟨-, rfl⟩ := List.cons.inj hC
        exact List.not_mem_nil
      | cons y l2 =>
        obtain ⟨rfl, rfl⟩ := List.cons.inj hC
        intro hm
        rcases List.mem_append.1 hm with hm | hm
        · exact (List.nodup_cons.1 hnd2).1 hm
        · exact hdis h List.mem_cons_self y (List.mem_cons_of_mem _ List.mem_cons_self) (List.mem_singleton.1 hm).symm
  refine ⟨?_, ?_⟩
  · rw [hsplit, hC]
    exact hnew
  · rw [← List.cons_append]
    exact List.nodup_append.2 ⟨hnd1, hnd2, fun x hx y hy => hdis x hx y (List.mem_cons_of_mem _ hy)⟩

/-! ## Searching -/

/-- the loop `for(b = h->next; b != h; b = b->next)` from b on, up to a node with q; n bounds its rounds -/
def search (next : Store ℕ) (h : ℕ) (q : ℕ → Bool) : ℕ → ℕ → Option ℕ
  | 0, _ => none
  | n + 1, b => if b = h then none else if q b then some b else search next h q n (next b)

theorem search_links (hl : d.Links (l ++ [h])) (hh : h ∉ l) (hn : l.length < n) :
    search d.next h q n ((l ++ [h]).headD h) = l.find? q := by
  induction l generalizing n with
  | nil =>
    obtain ⟨n, rfl⟩ : ∃ k, n = k + 1 := ⟨n - 1, by simp at hn; omega⟩
    exact if_pos rfl
  | cons a l ih =>
    obtain ⟨n, rfl⟩ : ∃ k, n = k + 1 := ⟨n - 1, by simp at hn; omega⟩
    have hah : a ≠ h := fun e => hh (e ▸ List.mem_cons_self)
    have hrest : d.Links (l ++ [h]) ∧ d.next a = (l ++ [h]).headD h := by
      cases l with
      | nil => exact ⟨trivial, hl.1⟩
      | cons c l => exact ⟨hl.2.2, hl.1⟩
    show (if a = h then none else if q a then some a else search d.next h q n (d.next a)) = _
    rw [if_neg hah, List.find?_cons]
    cases hq : q a with
    | true => rfl
    | false =>
      rw [hrest.2]
      exact ih hrest.1 (fun hm => hh (List.mem_cons_of_mem _ hm)) (by simpa using hn)

/-- **Looking from the first node on.** -/
theorem Ring.search_next (hr : d.Ring h l) (hn : l.length < n) : search d.next h q n (d.next h) = l.find? q := by
  obtain ⟨hl, hnd⟩ := hr
  have hrest : d.Links (l ++ [h]) ∧ d.next h = (l ++ [h]).headD h := by
    cases l with
    | nil => exact ⟨trivial, hl.1⟩
    | cons c l => exact ⟨hl.2.2, hl.1⟩
  rw [hrest.2]
  exact search_links hrest.1 (List.nodup_cons.1 hnd).1 hn

/-- **Looking from the last node on.** -/
theorem Ring.search_prev (hr : d.Ring h l) (hn : l.length < n) : search d.prev h q n (d.prev h) = l.reverse.find? q :=
  hr.reverse.search_next (by rwa [List.length_reverse])

end Dll

end Xv6.Core
