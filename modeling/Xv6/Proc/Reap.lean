/-
The exit/wait protocol: who is returned to whom (kernel/proc.c: `kexit`, `kwait`, `kfork`).

- `Ledger`: the invariant. Pids are unique, a ZOMBIE has exited with the status in its slot and has not been returned,
  and a process's parent is alive and is the process that forked it, or init if that one has exited.
- `ExitWait`: every process that exits is returned once, to its parent; and nobody sleeps in `kwait` beside a ZOMBIE
  child while wait_lock is free. `exit_wait`: this holds with a counter of pids that has no bound.
-/
import Xv6.Proc.Wait

namespace Xv6.Procs.Exit

open Xv6.Core

variable {s t : St} {p q : ℕ} {ok : Bool} {x : Pos} {status : ℤ}

/-! ## The invariant -/

/-- in `kexit`, holding wait_lock -/
def Pos.exiting : Pos → Bool
  | .reparent _ _ | .wakeInit _ _ _ | .wakeParent _ _ | .dying _ => true
  | _ => false

/-- the process with this pid has exited -/
def Exited (s : St) (pid : ℤ) : Prop := ∃ status, (pid, status) ∈ s.exits

structure Ledger (s : St) : Prop where
  next : 0 < s.nextpid
  init : (s.proc INIT).state ≠ .unused ∧ (s.proc INIT).state ≠ .zombie
  pid : ∀ q, (s.proc q).state ≠ .unused → 0 < (s.proc q).pid ∧ (s.proc q).pid < s.nextpid
  inj : ∀ q r, (s.proc q).state ≠ .unused → (s.proc r).state ≠ .unused → (s.proc q).pid = (s.proc r).pid → q = r
  exited_lt : ∀ pid, Exited s pid → pid < s.nextpid
  exited : ∀ q, (s.proc q).state ≠ .unused → Exited s (s.proc q).pid → (s.proc q).state = .zombie
  zombie : ∀ q, (s.proc q).state = .zombie → ((s.proc q).pid, (s.proc q).xstate) ∈ s.exits
  exits_nodup : (s.exits.map Prod.fst).Nodup
  reaped : ∀ r ∈ s.reaps, (r.pid, r.status) ∈ s.exits
  gone : ∀ r ∈ s.reaps, ∀ q, (s.proc q).state ≠ .unused → (s.proc q).pid ≠ r.pid
  reaps_nodup : (s.reaps.map Reap.pid).Nodup
  /-- only a process that is alive is in a function -/
  busy : ∀ p, (s.pos p).steps = true → (s.proc p).state ≠ .unused ∧ (s.proc p).state ≠ .zombie
  maker : ∀ p q n, s.pos p = .adopt q n → s.forker q = (s.proc p).pid
  /-- while the forker is in `kexit`, some of its children have init as their parent already -/
  lineage : ∀ q u, (s.proc q).parent = some u →
    ((s.proc u).state ≠ .unused ∧ (s.proc u).state ≠ .zombie) ∧ ((s.proc u).pid = s.forker q ∨
      u = INIT ∧ (Exited s (s.forker q) ∨ ∃ x, (s.pos x).exiting = true ∧ (s.proc x).pid = s.forker q))
  reap_lineage : ∀ r ∈ s.reaps, r.waiterPid = r.forker ∨ r.waiter = INIT ∧ Exited s r.forker

/-- the processes, their parents and what is recorded of them are as before -/
structure Same (s t : St) : Prop where
  unused : ∀ q, (t.proc q).state = .unused ↔ (s.proc q).state = .unused
  kin : ∀ q, (s.proc q).state ≠ .unused → Kin (s.proc q) (t.proc q)
  forker : t.forker = s.forker
  exits : t.exits = s.exits
  reaps : t.reaps = s.reaps
  next : s.nextpid ≤ t.nextpid
  steps : ∀ p, (t.pos p).steps = true → (s.pos p).steps = true ∨ (s.proc p).state = .running
  adopt : ∀ p q n, t.pos p = .adopt q n → s.pos p = .adopt q n
  exiting : ∀ x, (s.pos x).exiting = true → (t.pos x).exiting = true

theorem exiting_holds (h : x.exiting = true) : x.holds = true := by cases x <;> first | rfl | cases h

theorem exiting_steps (h : x.exiting = true) : x.steps = true := by cases x <;> first | rfl | cases h

theorem Same.exited (h : Same s t) (pid : ℤ) : Exited t pid ↔ Exited s pid := by
  unfold Exited
  rw [h.exits]

theorem Ledger.same (h : Ledger s) (hi : ∀ q u, (t.proc q).parent = some u → (t.proc q).state ≠ .unused)
    (hs : Same s t) : Ledger t := by
  have hin : ∀ {q}, (t.proc q).state ≠ .unused → (s.proc q).state ≠ .unused := fun hq e => hq ((hs.unused _).2 e)
  have hpid : ∀ {q}, (s.proc q).state ≠ .unused → (t.proc q).pid = (s.proc q).pid := fun hq => (hs.kin _ hq).pid
  have hnext := h.next
  have hle := hs.next
  refine ⟨by omega, ⟨fun e => h.init.1 ((hs.unused _).1 e), fun e => h.init.2 ((hs.kin _ h.init.1).zombie.1 e)⟩,
    fun q hq => ?_, fun q r hq hr he => ?_, fun pid hp => ?_, fun q hq hp => ?_, fun q hz => ?_, ?_, ?_,
    ?_, ?_, fun p hp => ?_, fun p q n hp => ?_, fun q u hp => ?_, ?_⟩
  · rw [hpid (hin hq)]
    have := h.pid q (hin hq)
    exact ⟨this.1, by omega⟩
  · rw [hpid (hin hq), hpid (hin hr)] at he
    exact h.inj q r (hin hq) (hin hr) he
  · have := h.exited_lt pid ((hs.exited pid).1 hp)
    omega
  · rw [hpid (hin hq), hs.exited] at hp
    exact (hs.kin q (hin hq)).zombie.2 (h.exited q (hin hq) hp)
  · have hq : (t.proc q).state ≠ .unused := by rw [hz]; simp
    have hk := hs.kin q (hin hq)
    rw [hk.pid, hk.xstate, hs.exits]
    exact h.zombie q (hk.zombie.1 hz)
  · rw [hs.exits]; exact h.exits_nodup
  · rw [hs.exits, hs.reaps]; exact h.reaped
  · rw [hs.reaps]
    intro r hr q hq
    rw [hpid (hin hq)]; exact h.gone r hr q (hin hq)
  · rw [hs.reaps]; exact h.reaps_nodup
  · have hp' : (s.proc p).state ≠ .unused ∧ (s.proc p).state ≠ .zombie := by
      obtain hp | hp := hs.steps p hp
      · exact h.busy p hp
      · rw [hp]; exact ⟨by simp, by simp⟩
    have hk := hs.kin p hp'.1
    exact ⟨fun e => hp'.1 (hk.unused.1 e), fun e => hp'.2 (hk.zombie.1 e)⟩
  · have hp := hs.adopt p q n hp
    rw [hs.forker, hpid (h.busy p (by rw [hp]; rfl)).1]
    exact h.maker p q n hp
  · have hq := hin (hi q u hp)
    rw [(hs.kin q hq).parent] at hp
    obtain ⟨⟨h1, h2⟩, h3⟩ := h.lineage q u hp
    have hk := hs.kin u h1
    refine ⟨⟨fun e => h1 (hk.unused.1 e), fun e => h2 (hk.zombie.1 e)⟩, ?_⟩
    rw [hk.pid, hs.forker, hs.exited]
    refine h3.imp id fun h3 => ⟨h3.1, h3.2.imp id ?_⟩
    rintro ⟨x, hx, he⟩
    exact ⟨x, hs.exiting x hx, by rw [hpid (h.busy x (exiting_steps hx)).1]; exact he⟩
  · rw [hs.reaps]
    intro r hr
    rw [hs.exited]
    exact h.reap_lineage r hr

/-! ## Steps that change no process -/

/-- p goes on to x, and slots change without concerning the protocol -/
theorem Same.go (hkin : ∀ q, Kin (s.proc q) (t.proc q)) (hf : t.forker = s.forker) (he : t.exits = s.exits)
    (hr : t.reaps = s.reaps) (hn : t.nextpid = s.nextpid) (hpos : t.pos = s.pos.set p x)
    (hrun : (s.proc p).state = .running) (hx : ∀ q n, x ≠ .adopt q n)
    (hex : (s.pos p).exiting = true → x.exiting = true) : Same s t := by
  refine ⟨fun q => (hkin q).unused, fun q _ => hkin q, hf, he, hr, hn.ge, fun q hq => ?_, fun r q n hq => ?_,
    fun r hr => ?_⟩
  · by_cases hqp : q = p
    · exact .inr (hqp ▸ hrun)
    · rw [hpos, Store.set_ne _ _ hqp] at hq
      exact .inl hq
  · by_cases hrp : r = p
    · subst hrp
      rw [hpos, Store.set_self] at hq
      exact absurd hq (hx q n)
    · rwa [hpos, Store.set_ne _ _ hrp] at hq
  · by_cases hrp : r = p
    · subst hrp
      rw [hpos, Store.set_self]; exact hex hr
    · rwa [hpos, Store.set_ne _ _ hrp]

theorem kin_put {f : Proc → Proc} (hk : Kin (s.proc q) (f (s.proc q))) (r : ℕ) : Kin (s.proc r) ((s.put q f).proc r) :=
  put_all (P := fun r b => Kin (s.proc r) b) (fun _ => Kin.refl _) hk r

theorem kin_wake (s : St) (p r : ℕ) (c : Option Chan) (q : ℕ) : Kin (s.proc q) ((s.wake p r c).proc q) := by
  unfold St.wake
  split_ifs
  · exact Kin.refl _
  · exact kin_put (Kin.wake _ c) q

/-- what a step records: nothing, or one of the four events of the life of a process -/
inductive Event (s : St) (p : ℕ) : St → Prop
  | born {q : ℕ} (hpos : s.pos p = .alloc q) (hu : (s.proc q).state = .unused) : Event s p (s.allocs p q)
  | adopted {q : ℕ} {pid : ℤ} (hpos : s.pos p = .adopt q pid) :
      Event s p ((s.put q fun np => { np with parent := some p }).go p (.start q pid))
  | orphaned {status : ℤ} {q : ℕ} (hpos : s.pos p = .reparent status q) (hc : (s.proc q).parent = some p) :
      Event s p ((s.put q fun pp => { pp with parent := some INIT }).go p (.wakeInit status q 0))
  | died {status : ℤ} (hpos : s.pos p = .dying status) : Event s p (s.dies p status)
  | reaped {q : ℕ} {b : Bool} (hpos : s.pos p = .scan q b) (hc : (s.proc q).parent = some p)
      (hz : (s.proc q).state = .zombie) : Event s p (s.reap p q)

theorem same_or_event (h : Inv s) (hrun : (s.proc p).state = .running) (hm : Move s p ok t) :
    Event s p t ∨ Same s t := by
  have hrefl : ∀ q, Kin (s.proc q) (s.proc q) := fun _ => Kin.refl _
  cases hm with
  | allocs hpos hq hu => exact .inl (.born hpos hu)
  | adopts hpos hl => exact .inl (.adopted hpos)
  | reparents hpos hq hc => exact .inl (.orphaned hpos hc)
  | dies hpos => exact .inl (.died hpos)
  | reaps hpos hq hc hz => exact .inl (.reaped hpos hc hz)
  | @allocFails q hpos hq hu =>
    have hg : Same s (s.go p (.user (-1))) :=
      Same.go hrefl rfl rfl rfl rfl rfl hrun (by simp) (by simp [hpos, Pos.exiting])
    have hslot : ∀ r, ((s.put q Proc.freeproc).proc r).state = .unused ↔ (s.proc r).state = .unused :=
      put_all (P := fun r b => b.state = .unused ↔ (s.proc r).state = .unused) (fun _ => Iff.rfl)
        ⟨fun _ => hu, fun _ => rfl⟩
    have hkin : ∀ r, (s.proc r).state ≠ .unused → Kin (s.proc r) ((s.put q Proc.freeproc).proc r) :=
      put_all (P := fun r b => (s.proc r).state ≠ .unused → Kin (s.proc r) b) (fun _ _ => Kin.refl _)
        fun e => absurd hu e
    exact .inr ⟨hslot, hkin, rfl, rfl, rfl, by show s.nextpid ≤ s.nextpid + 1; omega, hg.steps, hg.adopt, hg.exiting⟩
  | @starts q pid hpos =>
    have hu := (h.made p q (by rw [hpos]; rfl)).2
    have hk : Kin (s.proc q) { s.proc q with state := .runnable } :=
      Kin.of_state rfl rfl rfl (by simp [hu]) (by simp)
    exact .inr (Same.go (kin_put (f := fun np => { np with state := .runnable }) hk) rfl rfl rfl rfl rfl hrun (by simp)
      (by simp [hpos, Pos.exiting]))
  | wakesInit hpos | wakesParent hpos =>
    exact .inr (Same.go (kin_wake s p _ _) (by simp) (by simp) (by simp) (by simp) (by simp; rfl) hrun (by simp)
      fun _ => rfl)
  | sleeps hpos =>
    have hk : Kin (s.proc p) ((s.proc p).sleep (.proc p)) :=
      Kin.of_state rfl rfl rfl (by simp [hrun]) (by simp [Proc.sleep])
    exact .inr (Same.go (kin_put (f := (·.sleep (.proc p))) hk) rfl rfl rfl rfl rfl hrun (by simp)
      (by simp [hpos, Pos.exiting]))
  | resumes hpos =>
    have hk : Kin (s.proc p) { s.proc p with chan := none } := ⟨rfl, rfl, rfl, Iff.rfl, Iff.rfl⟩
    exact .inr (Same.go (kin_put (f := fun q => { q with chan := none }) hk) rfl rfl rfl rfl rfl hrun (by simp)
      (by simp [hpos, Pos.exiting]))
  | kills hpos =>
    exact .inr (Same.go (kin_put (f := Proc.kill) (Kin.kill _)) rfl rfl rfl rfl rfl hrun (by simp)
      (by simp [hpos, Pos.exiting]))
  | reparentNext hpos | reparentEnd hpos | wakeInitEnd hpos | wakeParentEnd hpos =>
    exact .inr (Same.go hrefl rfl rfl rfl rfl rfl hrun (by simp) fun _ => rfl)
  | allocFull hpos | allocNext hpos | exits hpos | waits hpos | scanNext hpos | scanLive hpos | copyFails hpos
  | noChild hpos | decides hpos | killNext hpos | killEnd hpos =>
    exact .inr (Same.go hrefl rfl rfl rfl rfl rfl hrun (by simp) (by simp [hpos, Pos.exiting]))

/-! ## The events of a process's life -/

theorem Ledger.born (h : Ledger s) (hi : Inv s) (hrun : (s.proc p).state = .running) (hpos : s.pos p = .alloc q)
    (hu : (s.proc q).state = .unused) : Ledger (s.allocs p q) := by
  have hproc : (s.allocs p q).proc = s.proc.update q (·.alloc s.nextpid) := rfl
  have hself : (s.allocs p q).proc q = (s.proc q).alloc s.nextpid := by rw [hproc, Table.update_self]
  have hne : ∀ {r}, r ≠ q → (s.allocs p q).proc r = s.proc r := fun hr => by rw [hproc, Table.update_ne _ _ hr]
  have hforker : ∀ {r}, r ≠ q → (s.allocs p q).forker r = s.forker r := fun hr => Store.set_ne _ _ hr
  have hinuse : ∀ {r}, (s.proc r).state ≠ .unused → r ≠ q := by
    rintro r hr rfl
    exact hr hu
  have hpq : p ≠ q := hinuse (by rw [hrun]; simp)
  have hpos' : ∀ {r}, r ≠ p → r ≠ q → (s.allocs p q).pos r = s.pos r := fun hrp hrq => by
    show (s.pos.set q (.user 0)).set p _ _ = _
    rw [Store.set_ne _ _ hrp, Store.set_ne _ _ hrq]
  have hposp : (s.allocs p q).pos p = .adopt q s.nextpid := Store.set_self _ _ _
  have hposq : (s.allocs p q).pos q = .user 0 := by
    show (s.pos.set q (.user 0)).set p _ q = _
    rw [Store.set_ne _ _ hpq.symm, Store.set_self]
  have hlt : ∀ pid, Exited s pid → pid < s.nextpid := h.exited_lt
  have hnext := h.next
  have hold : ∀ {r}, r ≠ q → ((s.allocs p q).proc r).state ≠ .unused → (s.proc r).state ≠ .unused :=
    fun hr e => hne hr ▸ e
  refine ⟨by show 0 < s.nextpid + 1; omega, ?_, fun r hr => ?_, fun r r' hr hr' he => ?_, fun pid hp => ?_,
    fun r hr hp => ?_, fun r hz => ?_, h.exits_nodup, h.reaped, fun r hr r' hr' => ?_, h.reaps_nodup, fun r hr => ?_,
    fun r q' n hr => ?_, fun r u hr => ?_, h.reap_lineage⟩
  · rw [hne (hinuse h.init.1)]; exact h.init
  · show _ ∧ _ < s.nextpid + 1
    by_cases hrq : r = q
    · rw [hrq, hself]
      exact ⟨hnext, by show s.nextpid < s.nextpid + 1; omega⟩
    · rw [hne hrq]
      have := h.pid r (hold hrq hr)
      exact ⟨this.1, by omega⟩
  · by_cases hrq : r = q <;> by_cases hrq' : r' = q
    · rw [hrq, hrq']
    · rw [hrq, hself, hne hrq'] at he
      have := (h.pid r' (hold hrq' hr')).2
      exact absurd he (by show s.nextpid ≠ _; omega)
    · rw [hrq', hself, hne hrq] at he
      have := (h.pid r (hold hrq hr)).2
      exact absurd he (by show _ ≠ s.nextpid; omega)
    · rw [hne hrq, hne hrq'] at he
      exact h.inj r r' (hold hrq hr) (hold hrq' hr') he
  · have := hlt pid hp
    show pid < s.nextpid + 1
    omega
  · by_cases hrq : r = q
    · rw [hrq, hself] at hp
      exact absurd (hlt _ hp) (by show ¬ s.nextpid < s.nextpid; omega)
    · rw [hne hrq] at hp ⊢
      exact h.exited r (hold hrq hr) hp
  · by_cases hrq : r = q
    · rw [hrq, hself] at hz
      cases hz
    · rw [hne hrq] at hz ⊢
      exact h.zombie r hz
  · by_cases hrq : r' = q
    · rw [hrq, hself]
      have := hlt _ ⟨_, h.reaped r hr⟩
      show s.nextpid ≠ r.pid
      omega
    · rw [hne hrq]; exact h.gone r hr r' (hold hrq hr')
  · by_cases hrp : r = p
    · rw [hrp, hne hpq, hrun]
      exact ⟨by simp, by simp⟩
    · by_cases hrq : r = q
      · rw [hrq, hposq] at hr; cases hr
      · rw [hpos' hrp hrq] at hr
        rw [hne hrq]; exact h.busy r hr
  · by_cases hrp : r = p
    · rw [hrp, hposp] at hr
      cases hr
      rw [hrp, hne hpq]
      exact Store.set_self _ _ _
    · by_cases hrq : r = q
      · rw [hrq, hposq] at hr; cases hr
      · rw [hpos' hrp hrq] at hr
        have hqq' : q' ≠ q := hi.made_ne (show (s.pos r).making = some q' by rw [hr]; rfl) (by simp [hu])
        rw [hforker hqq', hne hrq]
        exact h.maker r q' n hr
  · have hrq : r ≠ q := by
      rintro rfl
      rw [hself] at hr
      exact absurd ((hi.orphan hu).symm.trans hr) (by simp)
    rw [hne hrq] at hr
    obtain ⟨h1, h2⟩ := h.lineage r u hr
    rw [hne (hinuse h1.1), hforker hrq]
    refine ⟨h1, h2.imp id fun h2 => ⟨h2.1, h2.2.imp id ?_⟩⟩
    rintro ⟨x, hx, he⟩
    have hxq : x ≠ q := hinuse (h.busy x (exiting_steps hx)).1
    have hxp : x ≠ p := by
      rintro rfl
      rw [hpos] at hx; cases hx
    exact ⟨x, by rw [hpos' hxp hxq]; exact hx, by rw [hne hxq]; exact he⟩

theorem Ledger.setParent (h : Ledger s) {u : ℕ}
    (hline : ((s.proc u).state ≠ .unused ∧ (s.proc u).state ≠ .zombie) ∧ ((s.proc u).pid = s.forker q ∨
      u = INIT ∧ (Exited s (s.forker q) ∨ ∃ x, (s.pos x).exiting = true ∧ (s.proc x).pid = s.forker q))) :
    Ledger (s.put q fun np => { np with parent := some u }) := by
  have hstate : ∀ r, ((s.put q fun np => { np with parent := some u }).proc r).state = (s.proc r).state :=
    put_all (P := fun r b => b.state = (s.proc r).state) (fun _ => rfl) rfl
  have hpid : ∀ r, ((s.put q fun np => { np with parent := some u }).proc r).pid = (s.proc r).pid :=
    put_all (P := fun r b => b.pid = (s.proc r).pid) (fun _ => rfl) rfl
  have hxst : ∀ r, ((s.put q fun np => { np with parent := some u }).proc r).xstate = (s.proc r).xstate :=
    put_all (P := fun r b => b.xstate = (s.proc r).xstate) (fun _ => rfl) rfl
  refine ⟨h.next, by rw [hstate]; exact h.init, fun r hr => ?_, fun r r' hr hr' he => ?_, h.exited_lt,
    fun r hr hp => ?_, fun r hz => ?_, h.exits_nodup, h.reaped, fun r hr r' hr' => ?_, h.reaps_nodup, fun r hr => ?_,
    fun r q' n hr => ?_, fun r v hr => ?_, h.reap_lineage⟩
  · rw [hpid]; exact h.pid r (hstate r ▸ hr)
  · rw [hpid, hpid] at he
    exact h.inj r r' (hstate r ▸ hr) (hstate r' ▸ hr') he
  · rw [hstate]; exact h.exited r (hstate r ▸ hr) (hpid r ▸ hp)
  · rw [hpid, hxst]; exact h.zombie r (hstate r ▸ hz)
  · rw [hpid]; exact h.gone r hr r' (hstate r' ▸ hr')
  · rw [hstate]; exact h.busy r hr
  · rw [hpid]; exact h.maker r q' n hr
  · simp only [hstate, hpid]
    by_cases hrq : r = q
    · subst hrq
      rw [put_proc, Table.update_self] at hr
      cases hr
      exact hline
    · rw [put_proc, Table.update_ne _ _ hrq] at hr
      exact h.lineage r v hr

theorem Ledger.reparented (h : Ledger s) (hi : Inv s) (hrun : (s.proc p).state = .running) {u : ℕ}
    (hx : ∀ q n, x ≠ .adopt q n) (hex : (s.pos p).exiting = true → x.exiting = true)
    (hline : ((s.proc u).state ≠ .unused ∧ (s.proc u).state ≠ .zombie) ∧ ((s.proc u).pid = s.forker q ∨
      u = INIT ∧ (Exited s (s.forker q) ∨ ∃ y, ((s.go p x).pos y).exiting = true ∧ (s.proc y).pid = s.forker q))) :
    Ledger ((s.put q fun np => { np with parent := some u }).go p x) :=
  (h.same (fun q u hq => (hi.child q u hq).2.2)
    (Same.go (fun _ => Kin.refl _) rfl rfl rfl rfl rfl hrun hx hex) : Ledger (s.go p x)).setParent hline

theorem Ledger.adopted (h : Ledger s) (hi : Inv s) (hrun : (s.proc p).state = .running) {pid : ℤ}
    (hpos : s.pos p = .adopt q pid) :
    Ledger ((s.put q fun np => { np with parent := some p }).go p (.start q pid)) :=
  h.reparented hi hrun (by simp) (by simp [hpos, Pos.exiting])
    ⟨by rw [hrun]; exact ⟨by simp, by simp⟩, .inl (h.maker p q pid hpos).symm⟩

/-- the child's forker is its old parent, which is in `kexit` now, or had exited before -/
theorem Ledger.orphaned (h : Ledger s) (hi : Inv s) (hrun : (s.proc p).state = .running)
    (hpos : s.pos p = .reparent status q) (hc : (s.proc q).parent = some p) :
    Ledger ((s.put q fun pp => { pp with parent := some INIT }).go p (.wakeInit status q 0)) := by
  have hpr := hi.promise p
  rw [hpos] at hpr
  refine h.reparented hi hrun (by simp) (fun _ => rfl) ⟨h.init, .inr ⟨rfl, .inr ⟨p, by simp [Pos.exiting], ?_⟩⟩⟩
  obtain he | he := (h.lineage q p hc).2
  · exact he
  · exact absurd he.1 hpr.1

theorem mem_exits_dies {e : ℤ × ℤ} :
    e ∈ (s.dies p status).exits ↔ e ∈ s.exits ∨ e = ((s.proc p).pid, status) := by
  show e ∈ s.exits ++ [((s.proc p).pid, status)] ↔ _
  rw [List.mem_append, List.mem_singleton]

theorem Ledger.died (h : Ledger s) (hi : Inv s) (hrun : (s.proc p).state = .running)
    (hpos : s.pos p = .dying status) : Ledger (s.dies p status) := by
  have hpr := hi.promise p
  rw [hpos] at hpr
  have hself : (s.dies p status).proc p = (s.proc p).exit status := by rw [dies_proc, Table.update_self]
  have hne : ∀ {r}, r ≠ p → (s.dies p status).proc r = s.proc r := fun hr => by rw [dies_proc, Table.update_ne _ _ hr]
  have hpid : ∀ r, ((s.dies p status).proc r).pid = (s.proc r).pid :=
    put_all (P := fun r b => b.pid = (s.proc r).pid) (fun _ => rfl) rfl
  have hparent : ∀ r, ((s.dies p status).proc r).parent = (s.proc r).parent :=
    put_all (P := fun r b => b.parent = (s.proc r).parent) (fun _ => rfl) rfl
  have hinuse : ∀ r, ((s.dies p status).proc r).state ≠ .unused → (s.proc r).state ≠ .unused :=
    put_all (P := fun r b => b.state ≠ .unused → (s.proc r).state ≠ .unused) (fun _ e => e) fun _ => by simp [hrun]
  have hposr : ∀ {r}, r ≠ p → (s.dies p status).pos r = s.pos r := fun hr => Store.set_ne _ _ hr
  have hposp : (s.dies p status).pos p = .dead := Store.set_self _ _ _
  have hp : (s.proc p).state ≠ .unused := by simp [hrun]
  have hfresh : ¬ Exited s (s.proc p).pid := fun he => by
    have := h.exited p hp he
    rw [hrun] at this; cases this
  have hex : ∀ pid, Exited (s.dies p status) pid ↔ Exited s pid ∨ pid = (s.proc p).pid := by
    intro pid
    unfold Exited
    constructor
    · rintro ⟨st, hst⟩
      obtain hst | hst := mem_exits_dies.1 hst
      · exact .inl ⟨st, hst⟩
      · exact .inr (congrArg Prod.fst hst)
    · rintro (⟨st, hst⟩ | rfl)
      · exact ⟨st, mem_exits_dies.2 (.inl hst)⟩
      · exact ⟨status, mem_exits_dies.2 (.inr rfl)⟩
  refine ⟨h.next, ?_, fun r hr => ?_, fun r r' hr hr' he => ?_, fun pid hpid' => ?_, fun r hr he => ?_,
    fun r hz => ?_, ?_,
    fun r hr => mem_exits_dies.2 (.inl (h.reaped r hr)), fun r hr r' hr' => ?_, h.reaps_nodup, fun r hr => ?_,
    fun r q n hr => ?_, fun r u hr => ?_, fun r hr => ?_⟩
  · rw [hne hpr.1.symm]; exact h.init
  · rw [hpid]; exact h.pid r (hinuse r hr)
  · rw [hpid, hpid] at he
    exact h.inj r r' (hinuse r hr) (hinuse r' hr') he
  · obtain he | rfl := (hex pid).1 hpid'
    · exact h.exited_lt pid he
    · exact (h.pid p hp).2
  · rw [hpid, hex] at he
    by_cases hrp : r = p
    · rw [hrp, hself]; rfl
    · rw [hne hrp]
      obtain he | he := he
      · exact h.exited r (hinuse r hr) he
      · exact absurd (h.inj r p (hinuse r hr) hp he) hrp
  · by_cases hrp : r = p
    · rw [hrp, hself]
      exact mem_exits_dies.2 (.inr rfl)
    · rw [hne hrp] at hz ⊢
      exact mem_exits_dies.2 (.inl (h.zombie r hz))
  · show ((s.exits ++ [((s.proc p).pid, status)]).map Prod.fst).Nodup
    rw [List.map_append, List.map_singleton]
    refine List.nodup_append.2 ⟨h.exits_nodup, List.nodup_singleton _, fun a ha b hb => ?_⟩
    rw [List.mem_singleton] at hb
    rintro rfl
    obtain ⟨e, he, rfl⟩ := List.mem_map.1 ha
    have hb : e.1 = (s.proc p).pid := hb
    exact hfresh ⟨e.2, by rw [← hb]; exact he⟩
  · rw [hpid]; exact h.gone r hr r' (hinuse r' hr')
  · by_cases hrp : r = p
    · rw [hrp, hposp] at hr; cases hr
    · rw [hposr hrp] at hr
      rw [hne hrp]; exact h.busy r hr
  · have hrp : r ≠ p := by
      rintro rfl
      rw [hposp] at hr; cases hr
    rw [hposr hrp] at hr
    rw [hpid]; exact h.maker r q n hr
  · rw [hparent] at hr
    have hup : u ≠ p := by
      rintro rfl
      exact hpr.2.1 r hr
    rw [hne hup]
    obtain ⟨h1, h2⟩ := h.lineage r u hr
    refine ⟨h1, h2.imp id fun h2 => ⟨h2.1, ?_⟩⟩
    obtain he | ⟨x, hx, he⟩ := h2.2
    · exact .inl ((hex _).2 (.inl he))
    · by_cases hxp : x = p
      · subst hxp
        exact .inl ((hex _).2 (.inr he.symm))
      · exact .inr ⟨x, by rw [hposr hxp]; exact hx, by rw [hpid]; exact he⟩
  · exact (h.reap_lineage r hr).imp id fun hl => ⟨hl.1, (hex _).2 (.inl hl.2)⟩

theorem Ledger.reap (h : Ledger s) (hi : Inv s) {b : Bool} (hpos : s.pos p = .scan q b)
    (hc : (s.proc q).parent = some p) (hz : (s.proc q).state = .zombie) : Ledger (s.reap p q) := by
  have hq : (s.proc q).state ≠ .unused := by simp [hz]
  have hself : (s.reap p q).proc q = (s.proc q).freeproc := by rw [reap_proc, Table.update_self]
  have hne : ∀ {r}, r ≠ q → (s.reap p q).proc r = s.proc r := fun hr => by rw [reap_proc, Table.update_ne _ _ hr]
  have hother : ∀ {r}, ((s.reap p q).proc r).state ≠ .unused → r ≠ q := by
    rintro r hr rfl
    rw [hself] at hr
    exact hr rfl
  have hposr : ∀ {r}, r ≠ p → (s.reap p q).pos r = s.pos r := fun hr => Store.set_ne _ _ hr
  have hposp : (s.reap p q).pos p = .user (s.proc q).pid := Store.set_self _ _ _
  have hmem : ∀ {r}, r ∈ (s.reap p q).reaps ↔
      r ∈ s.reaps ∨ r = ⟨p, (s.proc p).pid, (s.proc q).pid, (s.proc q).xstate, s.forker q⟩ := by
    intro r
    show r ∈ s.reaps ++ [_] ↔ _
    rw [List.mem_append, List.mem_singleton]
  have hex : ∀ pid, Exited (s.reap p q) pid ↔ Exited s pid := fun _ => Iff.rfl
  have hbusy : ∀ {r}, (s.pos r).steps = true → r ≠ q := by
    rintro r hr rfl
    exact (h.busy r hr).2 hz
  refine ⟨h.next, ?_, fun r hr => ?_, fun r r' hr hr' he => ?_, h.exited_lt, fun r hr he => ?_, fun r hrz => ?_,
    h.exits_nodup, fun r hr => ?_, fun r hr r' hr' => ?_, ?_, fun r hr => ?_, fun r q' n hr => ?_, fun r u hr => ?_,
    fun r hr => ?_⟩
  · have hinit : INIT ≠ q := by
      rintro rfl
      exact h.init.2 hz
    rw [hne hinit]; exact h.init
  · have hrq := hother hr
    rw [hne hrq] at hr ⊢
    exact h.pid r hr
  · have hrq := hother hr
    have hrq' := hother hr'
    rw [hne hrq] at hr he
    rw [hne hrq'] at hr' he
    exact h.inj r r' hr hr' he
  · have hrq := hother hr
    rw [hne hrq] at hr he ⊢
    exact h.exited r hr he
  · have hrq := hother (r := r) (by rw [hrz]; simp)
    rw [hne hrq] at hrz ⊢
    exact h.zombie r hrz
  · obtain hr | rfl := hmem.1 hr
    · exact h.reaped r hr
    · exact h.zombie q hz
  · have hrq := hother hr'
    rw [hne hrq] at hr' ⊢
    obtain hr | rfl := hmem.1 hr
    · exact h.gone r hr r' hr'
    · exact fun he => hrq (h.inj r' q hr' hq he)
  · show ((s.reaps ++ [_]).map Reap.pid).Nodup
    rw [List.map_append, List.map_singleton]
    refine List.nodup_append.2 ⟨h.reaps_nodup, List.nodup_singleton _, fun a ha b hb => ?_⟩
    rw [List.mem_singleton] at hb
    rintro rfl
    obtain ⟨e, he, hea⟩ := List.mem_map.1 ha
    exact h.gone e he q hq (by rw [hea, hb])
  · by_cases hrp : r = p
    · rw [hrp, hposp] at hr; cases hr
    · rw [hposr hrp] at hr
      rw [hne (hbusy hr)]; exact h.busy r hr
  · have hrp : r ≠ p := by
      rintro rfl
      rw [hposp] at hr; cases hr
    rw [hposr hrp] at hr
    rw [hne (hbusy (by rw [hr]; rfl))]; exact h.maker r q' n hr
  · have hrq : r ≠ q := by
      rintro rfl
      rw [hself] at hr; cases hr
    rw [hne hrq] at hr
    obtain ⟨h1, h2⟩ := h.lineage r u hr
    have huq : u ≠ q := by
      rintro rfl
      exact h1.2 hz
    rw [hne huq]
    refine ⟨h1, h2.imp id fun h2 => ⟨h2.1, h2.2.imp id ?_⟩⟩
    rintro ⟨x, hx, he⟩
    have hxp : x ≠ p := by
      rintro rfl
      rw [hpos] at hx; cases hx
    exact ⟨x, by rw [hposr hxp]; exact hx, by rw [hne (hbusy (exiting_steps hx))]; exact he⟩
  · obtain hr | rfl := hmem.1 hr
    · exact h.reap_lineage r hr
    · refine (h.lineage q p hc).2.imp id fun hl => ⟨hl.1, hl.2.resolve_right ?_⟩
      -- p holds wait_lock, so nobody is in the middle of `kexit`
      rintro ⟨x, hx, -⟩
      have hxp : x ≠ p := by
        rintro rfl
        rw [hpos] at hx; cases hx
      have := hi.unique (p := p) (by rw [hpos]; rfl) hxp
      rw [exiting_holds hx] at this; cases this

theorem Ledger.change (h : Ledger s) (hi : Inv s) (hc : Change s t) : Ledger t := by
  have hkid : ∀ q u, (t.proc q).parent = some u → (t.proc q).state ≠ .unused := fun q u hq =>
    ((hi.change hc).child q u hq).2.2
  cases hc with
  | move hlt hrun hm =>
    obtain he | hs := same_or_event hi hrun hm
    · cases he with
      | born hpos hu => exact h.born hi hrun hpos hu
      | adopted hpos => exact h.adopted hi hrun hpos
      | orphaned hpos hc => exact h.orphaned hi hrun hpos hc
      | died hpos => exact h.died hi hrun hpos
      | reaped hpos hc hz => exact h.reap hi hpos hc hz
    · exact h.same hkid hs
  | @call p x hrun hp hx =>
    refine h.same hkid (Same.go (fun q => Kin.refl _) rfl rfl rfl rfl rfl hrun ?_ fun e => ?_)
    · rintro q n rfl
      exact hx
    · have := exiting_holds e
      rw [user_holds hp] at this; cases this
  | @slot q f hk hs hu hq =>
    refine h.same hkid ⟨fun r => (kin_put hk r).unused, fun r _ => kin_put hk r, rfl, rfl, rfl, le_rfl,
      fun r hr => .inl hr,
      fun _ _ _ e => e, fun _ e => e⟩

theorem Ledger.boot : Ledger boot := by
  have hstate : ∀ q, (Exit.boot.proc q).state ≠ .unused → q = INIT := by
    intro q hq
    by_contra hc
    exact hq (congrArg Proc.state (if_neg hc : bootTable q = Proc.zero))
  have hzombie : ∀ q, (Exit.boot.proc q).state ≠ .zombie := by
    intro q
    show (bootTable q).state ≠ .zombie
    unfold bootTable
    split_ifs <;> simp [Proc.zero]
  refine ⟨by decide, by decide, fun q hq => ?_, fun q r hq hr _ => (hstate q hq).trans (hstate r hr).symm, ?_, ?_, ?_,
    List.nodup_nil, ?_, ?_, List.nodup_nil, ?_, ?_, fun q u hq => ?_, ?_⟩
  · rw [hstate q hq]; exact ⟨by decide, by decide⟩
  · rintro pid ⟨st, hst⟩; cases hst
  · rintro q - ⟨st, hst⟩; cases hst
  · exact fun q hq => absurd hq (hzombie q)
  · exact fun r hr => by cases hr
  · exact fun r hr => by cases hr
  · exact fun p hp => by cases hp
  · exact fun p q n hp => by cases hp
  · have hparent : (bootTable q).parent = none := by unfold bootTable; split_ifs <;> rfl
    exact absurd (hparent.symm.trans hq) (by simp)
  · exact fun r hr => by cases hr

/-! ## The protocol -/

structure Good (s : St) : Prop where
  inv : Inv s
  woken : Woken s
  ledger : Ledger s

theorem good_of_reach (h : protocol.Reach boot s) : Good s := by
  refine h.inv Good ⟨Inv.boot, Woken.boot, Ledger.boot⟩ fun s a t hg hl hs => ?_
  have hc := change_of_step hg.inv hl hs
  exact ⟨hg.inv.change hc, hg.woken.change hg.inv hc, hg.ledger.change hg.inv hc⟩

/-- in this step p's wait returns its child in slot q, which is free from then on -/
structure Returned (s t : St) (p q : ℕ) : Prop where
  zombie : (s.proc q).state = .zombie
  parent : (s.proc q).parent = some p
  freed : (t.proc q).state = .unused
  result : t.pos p = .user (s.proc q).pid
  reaps : t.reaps = s.reaps ++ [⟨p, (s.proc p).pid, (s.proc q).pid, (s.proc q).xstate, s.forker q⟩]

/-- a step returns one ZOMBIE to its parent, or it returns none and all ZOMBIEs stay -/
theorem returned_or (hg : Good s) (hc : Change s t) :
    (∃ p q, Returned s t p q ∧ ∀ r, r ≠ q → t.proc r = s.proc r) ∨
      t.reaps = s.reaps ∧ ∀ q, (s.proc q).state = .zombie → (t.proc q).state = .zombie := by
  have hput : ∀ {q : ℕ} {f : Proc → Proc}, ((s.proc q).state = .zombie → (f (s.proc q)).state = .zombie) →
      ∀ r, (s.proc r).state = .zombie → (s.proc.update q f r).state = .zombie := fun hf =>
    Table.update_all (P := fun r b => (s.proc r).state = .zombie → b.state = .zombie) (fun _ e => e) hf
  cases hc with
  | call => exact .inr ⟨rfl, fun _ e => e⟩
  | slot hk => exact .inr ⟨rfl, hput hk.zombie.2⟩
  | @move p ok t hlt hrun hm =>
    obtain he | hs := same_or_event hg.inv hrun hm
    · cases he with
      | @reaped q b hpos hc hz =>
        refine .inl ⟨p, q, ⟨hz, hc, ?_, Store.set_self _ _ _, rfl⟩, fun r hr => ?_⟩
        · rw [reap_proc, Table.update_self]; rfl
        · rw [reap_proc, Table.update_ne _ _ hr]
      | born hpos hu => exact .inr ⟨rfl, hput fun e => by rw [hu] at e; cases e⟩
      | adopted | orphaned => exact .inr ⟨rfl, hput fun e => e⟩
      | died => exact .inr ⟨rfl, hput fun _ => rfl⟩
    · exact .inr ⟨hs.reaps, fun q hz => (hs.kin q (by simp [hz])).zombie.2 hz⟩

theorem wait_fails (hg : Good s) (hm : Move s p ok t) (hw : (s.pos p).waits = true) (ht : t.pos p = .user (-1)) :
    ((∀ q, (s.proc q).parent ≠ some p) ∨ (s.proc p).killed = true ∨
      ok = false ∧ ∃ q, (s.proc q).parent = some p ∧ (s.proc q).state = .zombie) ∧
      t.proc = s.proc ∧ t.reaps = s.reaps := by
  have hpr := hg.inv.promise p
  cases hm with
  | copyFails hpos hc hz hok => exact ⟨.inr (.inr ⟨hok, _, hc, hz⟩), rfl, rfl⟩
  | noChild hpos hq hwhy =>
    rw [hpos] at hpr
    refine ⟨?_, rfl, rfl⟩
    obtain hb | hk := hwhy
    · exact .inl fun q hc => hpr.2 hb q (by have := (hg.inv.child q p hc).1; omega) hc
    · exact .inr (.inl hk)
  | @reaps q b hpos hq hc hz =>
    -- a pid is positive
    rw [show (s.reap p q).pos p = .user (s.proc q).pid from Store.set_self _ _ _] at ht
    have := (hg.ledger.pid q (by simp [hz])).1
    simp only [Pos.user.injEq] at ht
    omega
  | waits hpos | scanNext hpos | scanLive hpos | decides hpos | sleeps hpos | resumes hpos => simp at ht
  | _ => simp_all [Pos.waits]

theorem waits_steps (h : x.waits = true) : x.steps = true := by cases x <;> first | rfl | cases h

theorem waits_not_user (h : x.waits = true) : x.isUser = false := by cases x <;> first | rfl | cases h

/-- a step that makes a wait fail is a step of the process that waits -/
theorem advance_of_wait {a : Act} (hg : Good s) (hl : legal s a) (hs : step s a = .ok t) (hw : (s.pos p).waits = true)
    (ht : t.pos p = .user (-1)) : ∃ ok, a = .advance p ok := by
  have hmoved : t.pos p ≠ s.pos p := fun e => by rw [← e, ht] at hw; cases hw
  have hcaller : ∀ q, (s.pos q).isUser = true → p ≠ q := by
    rintro q hq rfl
    rw [waits_not_user hw] at hq; cases hq
  cases a with
  | fork q => cases hs; exact absurd (Store.set_ne _ _ (hcaller q hl.2.2)) hmoved
  | wait q => cases hs; exact absurd (Store.set_ne _ _ (hcaller q hl.2.2)) hmoved
  | kill q pid => cases hs; exact absurd (Store.set_ne _ _ (hcaller q hl.2.2)) hmoved
  | exit q status =>
    simp only [step] at hs
    split_ifs at hs
    cases hs
    exact absurd (Store.set_ne _ _ (hcaller q hl.2.2)) hmoved
  | advance q ok =>
    by_cases hpq : p = q
    · exact ⟨ok, by rw [hpq]⟩
    · cases hs
      exact absurd ((move_of_advance hl).pos_ne hpq (hg.ledger.busy p (waits_steps hw)).1) hmoved
  | fault | sleep | wakeup | dispatch | yield => cases hs; exact absurd rfl hmoved

/-- the exit/wait protocol, in a state of a machine and in every step from there -/
structure ExitWait (M : Machine St Act Panic) (s : St) : Prop where
  exits : (s.exits.map Prod.fst).Nodup
  reaps : (s.reaps.map Reap.pid).Nodup
  /-- who is returned has exited, and the waiter is its parent, or init after that one has exited -/
  reaped : ∀ r ∈ s.reaps, (r.pid, r.status) ∈ s.exits ∧ (r.waiterPid = r.forker ∨ r.waiter = INIT ∧ Exited s r.forker)
  /-- a slot is freed when its process is returned, and only then -/
  returns : ∀ a t, M.legal s a → M.step s a = .ok t →
    (∃ p q, Returned s t p q ∧ ∀ r, r ≠ q → t.proc r = s.proc r) ∨
      t.reaps = s.reaps ∧ ∀ q, (s.proc q).state = .zombie → (t.proc q).state = .zombie
  /-- `kwait` returns -1 without children, when killed or when `copyout` fails, and then reaps nobody -/
  fails : ∀ a t p, M.legal s a → M.step s a = .ok t → (s.pos p).waits = true → t.pos p = .user (-1) →
    ((∀ q, (s.proc q).parent ≠ some p) ∨ (s.proc p).killed = true ∨
      a = .advance p false ∧ ∃ q, (s.proc q).parent = some p ∧ (s.proc q).state = .zombie) ∧
      t.proc = s.proc ∧ t.reaps = s.reaps
  /-- nobody sleeps beside a ZOMBIE child -/
  woken : s.waitLock = none → ∀ p q, s.pos p = .asleep → (s.proc p).state = .sleeping → (s.proc q).parent = some p →
    (s.proc q).state ≠ .zombie

theorem exit_wait (h : protocol.Reach boot s) : ExitWait protocol s := by
  have hg := good_of_reach h
  refine ⟨hg.ledger.exits_nodup, hg.ledger.reaps_nodup,
    fun r hr => ⟨hg.ledger.reaped r hr, hg.ledger.reap_lineage r hr⟩,
    fun a t hl hs => returned_or hg (change_of_step hg.inv hl hs), fun a t p hl hs hw ht => ?_,
    fun hl p q hpos hst hc hz => ?_⟩
  · obtain ⟨ok, rfl⟩ := advance_of_wait hg hl hs hw ht
    cases hs
    obtain ⟨hwhy, h1, h2⟩ := wait_fails hg (move_of_advance hl) hw ht
    refine ⟨hwhy.imp id fun hwhy => hwhy.imp id ?_, h1, h2⟩
    rintro ⟨rfl, hq⟩
    exact ⟨rfl, hq⟩
  · obtain ⟨-, x, st, r, hx, -⟩ := hg.woken p q ⟨hpos, hst⟩ hz hc
    have := hg.inv.none_holds hl x
    rw [hx] at this; cases this

end Xv6.Procs.Exit
