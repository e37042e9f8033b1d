/-
How long the content of a symbolic link gets (kernel/sysfile.c, `sys_open`).

The loop of `sys_open` reads the content of a link over the path, up to MAXPATH bytes, and then stores a NUL after the
bytes it has read. `linkReads`: the numbers of bytes that it reads.

- `link_reads_short`: the NUL stays inside the buffer in every run in which no process writes into a link up to
  MAXPATH.
- `link_read_long`: a descriptor that was opened with O_NOFOLLOW can do that, and then the NUL is stored behind the
  buffer.
-/
import Xv6.Fs.Modes

namespace Xv6.Fs

open Xv6.Core

variable {sb : Superblock} {p i j k ip left omode : ℕ} {s t u v : St} {a : ℕ × Call} {n m : Node} {T T' : Tree}
  {ok : Change → Prop} {path : List UInt8}

/-! ## Short links -/

/-- every symbolic link has fewer than MAXPATH bytes -/
def Short (T : Tree) : Prop := ∀ i n, T i = some n → n.type = T_SYMLINK → n.bytes.length < MAXPATH

theorem Short.major (h : Short T) (hm : Major sb ok T T') : Short T' := by
  intro x p hx hty
  have hdir : T_DIR ≠ T_SYMLINK := by decide
  cases hm with
  | @create type _ _ _ _ _ _ hc _ =>
    rcases hc.edit.cases hx with ⟨rfl, rfl⟩ | ⟨-, -, rfl⟩ | ⟨-, -, hx⟩
    · exact absurd (hc.isDir.symm.trans hty) hdir
    · -- a new link is empty
      have hne : type ≠ T_DIR := fun h0 => hdir (h0.symm.trans hty)
      rw [newNode, if_neg hne]
      exact (by decide : 0 < MAXPATH)
    · exact h x p hx hty
  | @link _ _ _ _ _ m _ hc _ =>
    rcases hc.edit.cases hx with ⟨rfl, rfl⟩ | ⟨-, rfl, rfl⟩ | ⟨-, -, hx⟩
    · exact absurd (hc.isDir.symm.trans hty) hdir
    · exact h x m hc.file hty
    · exact h x p hx hty
  | @unlink _ _ _ _ _ m _ hc _ =>
    rcases hc.edit.cases hx with ⟨rfl, rfl⟩ | ⟨-, rfl, rfl⟩ | ⟨-, -, hx⟩
    · exact absurd (hc.isDir.symm.trans hty) hdir
    · exact h x m hc.node hty
    · exact h x p hx hty

/-- a call keeps links short if its writes into them are -/
theorem Short.effect (h : Short T) (he : Effect sb ok T T')
    (hw : ∀ j m l, ok (.write j m l) → (∀ n, T j = some n → m.type = n.type) → m.type = T_SYMLINK →
      m.bytes.length < MAXPATH → l.length < MAXPATH) : Short T' := by
  obtain ⟨T1, h1, h2⟩ := he
  have hs1 : Short T1 := h1.elim (fun h0 => h0 ▸ h) fun hm => h.major hm
  induction h2 with
  | refl => exact hs1
  | @tail T2 T3 h12 hm ih =>
    intro x p hx hty
    cases hm with
    | @write j m hj _ l hok =>
      rcases node_write hx with ⟨rfl, rfl⟩ | hx
      · have htype : ∀ n, T x = some n → m.type = n.type := fun n hn => Effect.type ⟨T1, h1, h12⟩ hn hj
        exact hw x m l hok htype hty (ih x m hj hty)
      · exact ih x p hx hty
    | @free j m hj h0 =>
      by_cases hxj : x = j
      · rw [hxj, Function.update_self] at hx; cases hx
      · rw [Function.update_of_ne hxj] at hx
        exact ih x p hx hty

/-! ## Calls -/

/-- the call writes into a symbolic link, up to MAXPATH or beyond -/
def Call.overlong (sb : Superblock) (s : St) (p : ℕ) : Call → Bool
  | .write fd _ _ n => ((s.proc p).ofile fd).any fun f =>
      (s.node sb (s.inode (s.file f).ip).inum).any fun m => m.type = T_SYMLINK ∧ MAXPATH ≤ (s.file f).off + n
  | _ => false

theorem Idle.short (hl : Layout sb) (h : Idle sb s) (hs : Short (s.node sb)) (ha : (calls sb).legal s a)
    (hw : a.2.wraps sb s a.1 = false) (hf : a.2.fetched = true) (ho : a.2.overlong sb s a.1 = false)
    (hstep : (calls sb).step s a = .ok t) : Short (t.node sb) := by
  refine hs.effect (h.step hl ha hw hstep).2 fun j m l hok htype hty hm => ?_
  have hmakes : a.2.Writes s a.1 j m l := hok.makes
  cases hc : a.2 with
  | openPath path omode =>
    rw [hc] at hmakes
    exact absurd (hmakes.2.2.1.symm.trans hty) (by decide)
  | symlink target path =>
    rw [hc] at hmakes hf
    cases target with
    | none => exact hmakes.elim
    | some target => exact lt_of_le_of_lt hmakes (max_lt hm (of_decide_eq_true hf))
  | write fd mem addr n =>
    rw [hc] at hmakes ho
    obtain ⟨f, hfd, hopen, rfl, hlen⟩ := hmakes
    -- the inode of an open file is in use
    obtain ⟨n', hn'⟩ := Option.ne_none_iff_exists'.1 (h.calm.alive _ (h.acct.file_pos (f := f) (by rw [hopen]; nofun)))
    simp only [Call.overlong, hfd, hn', Option.any_some, decide_eq_false_iff_not, not_and, Nat.not_le] at ho
    exact lt_of_le_of_lt hlen (max_lt hm (ho ((htype n' hn').symm.trans hty)))
  | _ =>
    rw [hc] at hmakes
    exact hmakes.elim

/-! ## Reading links -/

/-- the numbers of bytes that `readi` returns to the loop of `sys_open`, until it ends or panics -/
def linkReads (sb : Superblock) (p omode : ℕ) : ℕ → List UInt8 → St → List ℕ
  | 0, _, _ => []
  | left + 1, path, s =>
    match nameiLock sb p path s with
    | .ok (some ip, t) =>
      if (t.inode ip).din.type = T_SYMLINK ∧ omode.testBit O_NOFOLLOW = false then
        match readi sb ip .kernel 0 MAXPATH t with
        | .ok (r, u) => (r.getD []).length ::
          match iunlockput sb ip u with
          | .ok (_, v) =>
            if (r.getD []).length = 0 then []
            else linkReads sb p omode left ((r.getD []).takeWhile fun c => c ≠ 0) v
          | .error _ => []
        | .error _ => []
      else []
    | _ => []

/-- a round of the loop that follows a link, and what it reads -/
theorem openLoop_round {ip left : ℕ} {r : Option (List UInt8)} {u v : St}
    (hn : nameiLock sb p path s = .ok (some ip, t))
    (hc : (t.inode ip).din.type = T_SYMLINK ∧ omode.testBit O_NOFOLLOW = false)
    (hr : readi sb ip .kernel 0 MAXPATH t = .ok (r, u)) (hp : iunlockput sb ip u = .ok ((), v))
    (h0 : (r.getD []).length ≠ 0) :
    openLoop sb p omode (left + 1) path s = openLoop sb p omode left ((r.getD []).takeWhile fun c => c ≠ 0) v ∧
      linkReads sb p omode (left + 1) path s =
        (r.getD []).length :: linkReads sb p omode left ((r.getD []).takeWhile fun c => c ≠ 0) v := by
  constructor
  · rw [openLoop_eq, bind_ok hn]
    show openRest sb p omode (left + 1) ip t = _
    unfold openRest
    rw [bind_ok (a := t.inode ip) (t := t) rfl, if_pos hc]
    show (readi sb ip .kernel 0 MAXPATH >>= _) t = _
    rw [bind_ok hr, bind_ok hp, if_neg h0]
  · rw [linkReads, hn]
    simp only [if_pos hc, hr, hp, if_neg h0]

theorem linkReads_short (hl : Layout sb) (h : WF sb s) (hcalm : Calm sb s) (hcwd : Cwd s p) (hs : Short (s.node sb))
    (left : ℕ) (path : List UInt8) : ∀ len ∈ linkReads sb p omode left path s, len < MAXPATH := by
  induction left generalizing path s with
  | zero => exact fun len hlen => absurd hlen List.not_mem_nil
  | succ left ih =>
    intro len hlen
    unfold linkReads at hlen
    split at hlen
    case h_2 => exact absurd hlen List.not_mem_nil
    rename_i ip t hn
    split_ifs at hlen with hc
    case neg => exact absurd hlen List.not_mem_nil
    -- the lookup has found a link, of the tree before it
    obtain ⟨i, n, hf⟩ : ∃ i n, Found sb ip i n s t := by
      have hspec : Spec (nameiLock sb p path) s (fun r t => ∀ ip, r = some ip → ∃ i n, Found sb ip i n s t)
        (Fault True) := by
        unfold nameiLock
        refine Spec.bind (namei_spec hl h hcwd fun _ => trivial) fun r t ht => ?_
        cases r with
        | none => exact Spec.pure nofun
        | some ip =>
          refine Spec.bind (ht.lock fun _ => trivial) ?_
          rintro _ u ⟨i, n, hf, -⟩
          refine Spec.pure ?_
          rintro _ ⟨⟩
          exact ⟨i, n, hf⟩
      exact hspec.ok hn ip rfl
    have hty : n.type = T_SYMLINK := (hf.live.din hf.quiet.wf).1.symm.trans hc.1
    have hbytes := hs i n hf.node hty
    split at hlen
    case h_2 => exact absurd hlen List.not_mem_nil
    rename_i r u hr
    obtain ⟨hu, rfl⟩ := (readi_node (E := fun _ => True) hf.quiet.wf hf.live (by decide)).ok hr
    replace hu := hu.to
    rcases List.mem_cons.1 hlen with rfl | hlen
    · rw [Option.getD_some, List.drop_zero, List.length_take]
      omega
    split at hlen
    case h_2 => exact absurd hlen List.not_mem_nil
    rename_i v hv
    split_ifs at hlen
    case pos => exact absurd hlen List.not_mem_nil
    have hfu : Found sb ip i n s u :=
      Found.of (hf.quiet.trans (Quiet.of_to hf.quiet.wf hu _)) ((refs_to hu).trans hf.refs) (hf.live.congr hu)
    have hsame : Same sb s v := (hfu.put hl (P := True)).ok hv
    obtain ⟨hcv, hnode⟩ := hsame.calm hcalm
    exact ih hsame.quiet.wf hcv (hcwd.same hsame) (hnode ▸ hs) _ len hlen

/-! ## Runs -/

/-- no call of the run wraps a link count, and none writes into a link up to MAXPATH -/
def bounded (sb : Superblock) (s : St) (a : ℕ × Call) : Prop :=
  a.2.wraps sb s a.1 = false ∧ a.2.fetched = true ∧ a.2.overlong sb s a.1 = false

/-- **The NUL stays inside the buffer.** In every state of every such run from a file system without symbolic links,
whatever process opens whatever path, the loop reads fewer than MAXPATH bytes of each link that it follows. -/
theorem link_reads_short (hl : Layout sb) (h : Idle sb s) (h0 : ∀ i n, s.node sb i = some n → n.type ≠ T_SYMLINK)
    (hr : ((calls sb).restrict (bounded sb)).Reach s t) (hp : (t.proc p).cwd ≠ none) (omode : ℕ) (path : List UInt8) :
    ∀ len ∈ linkReads sb p omode 10 path { t with trace := t.trace ++ [.beginOp] }, len < MAXPATH := by
  have hinv : Idle sb t ∧ Short (t.node sb) :=
    hr.inv (fun t => Idle sb t ∧ Short (t.node sb)) ⟨h, fun i n hn hty => absurd hty (h0 i n hn)⟩ fun u a v hu ha hs =>
      ⟨(hu.1.step hl ha.1 ha.2.1 hs).1, hu.1.short hl hu.2 ha.1 ha.2.1 ha.2.2.1 ha.2.2.2 hs⟩
  obtain ⟨hidle, hshort⟩ := hinv
  have hto := to_event t .beginOp
  refine linkReads_short hl (hidle.wf.congr hto) (hidle.calm.to hidle.wf hto) ((hidle.acct.has_cwd hidle.wf hp).to
    hto) ?_ 10 path
  rw [node_congr sb hto.blk]
  exact hshort

instance (s : St) (a : ℕ × Call) : Decidable (bounded sb s a) := by unfold bounded; infer_instance

/-- the numbers of bytes read when process 0 opens "/l" -/
def readsL (t : St) : List ℕ := linkReads Ownership.tiny 0 0 10 pathL { t with trace := t.trace ++ [.beginOp] }

theorem link_reads_short_link : ∃ t, ((calls Ownership.tiny).restrict (bounded Ownership.tiny)).Reach boot t ∧
    readsL t = [2] ∧ ∀ len ∈ readsL t, len < MAXPATH := by
  obtain ⟨t, hlegal, hr, ht⟩ := Machine.exists_run_of_steps (s := boot) (l := makeL)
    (p := fun t => decide (readsL t = [2]) && decide ((t.proc 0).cwd ≠ none))
    (M := (calls Ownership.tiny).restrict (bounded Ownership.tiny)) (by decide +kernel)
  rw [Bool.and_eq_true, decide_eq_true_eq, decide_eq_true_eq] at ht
  refine ⟨t, ⟨_, hlegal, hr⟩, ht.1, ?_⟩
  refine link_reads_short Ownership.tiny_layout boot_idle (fun i n hn => ?_) ⟨_, hlegal, hr⟩ ht.2 0 pathL
  rw [boot_node] at hn
  rw [(rootOnly_some hn).2]
  decide

/-- the link is opened itself, and written -/
def lengthen : List (ℕ × Call) :=
  makeL ++ [(0, .openPath (some pathL) (2 ^ O_NOFOLLOW + 2 ^ O_RDWR)), (0, .write 0 (fun _ => some fun _ => 47) 0 128)]

/-- **The NUL is stored behind the buffer.** A process has written 128 bytes into the link; when it is followed, all of
the buffer is read, and `path[len] = 0` is `path[MAXPATH] = 0`. -/
theorem link_read_long : ∃ t, (calls Ownership.tiny).LegalRun boot lengthen ∧
    (calls Ownership.tiny).run boot lengthen = .ok t ∧ (∀ a ∈ lengthen, a.2.fetched = true) ∧
    (∀ i n, boot.node Ownership.tiny i = some n → n.type ≠ T_SYMLINK) ∧ readsL t = [MAXPATH] := by
  obtain ⟨t, hlegal, hr, ht⟩ := Machine.exists_run_of_steps (s := boot) (l := lengthen)
    (p := fun t => decide (readsL t = [MAXPATH])) (M := calls Ownership.tiny) (by decide +kernel)
  refine ⟨t, hlegal, hr, by decide, fun i n hn => ?_, of_decide_eq_true ht⟩
  rw [boot_node] at hn
  rw [(rootOnly_some hn).2]
  decide

end Xv6.Fs
