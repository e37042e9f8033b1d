/-
Appending to a file (kernel/sysfile.c, `sys_open`; kernel/file.c, `filewrite`).

`appends`: any number of processes open files with O_APPEND and write to the file X, one chunk of `filewrite` at a time,
in any order. A chunk is a `write` of at most MAXWRITE bytes: the loop of a longer one makes such writes one after the
other (`filewriteLoop_chunk`).

- `appends_in_order`: X consists of the chunks in order, if each is written at the offset where the file then ends.
- `append_lost`: the offset is set when the file is opened, so the second of two processes that do so before either
  writes overwrites what the first has written.
-/
import Xv6.Fs.Modes

namespace Xv6.Fs.Append

open Xv6.Core

variable {sb : Superblock} {p f fd X i j k n addr omode fuel : ℕ} {s t u : St} {m : Node} {T T' : Tree}
  {ok : Change → Prop} {path : List UInt8} {mem : UserMem}

/-! ## The machine -/

inductive Act where
  | openPath (path : List UInt8) (omode : ℕ)
  /-- n bytes at user address addr -/
  | chunk (fd : ℕ) (mem : UserMem) (addr n : ℕ)

/-- why a step fails: a panic, or a write that wrote less than asked for -/
inductive Fail where
  | panic (e : Panic)
  | short
deriving DecidableEq

/-- what is written -/
def Act.data : Act → List UInt8
  | .openPath _ _ => []
  | .chunk _ mem addr n => (List.range n).map (Src.user mem addr).byte

/-- files are opened with O_APPEND, and descriptors that refer to X are written -/
def legal (X : ℕ) (s : St) (p : ℕ) : Act → Prop
  | .openPath _ omode => (s.proc p).cwd ≠ none ∧ omode.testBit O_APPEND = true
  | .chunk fd _ _ n => (s.proc p).cwd ≠ none ∧ n ≤ MAXWRITE ∧
      ∃ f ∈ (s.proc p).ofile fd, (s.inode (s.file f).ip).inum = X

def step (sb : Superblock) (s : St) (p : ℕ) : Act → Except Fail St
  | .openPath path omode =>
    match sysOpen sb p (some path) omode s with
    | .ok (_, t) => .ok t
    | .error e => .error (.panic e)
  | .chunk fd mem addr n =>
    match sysWrite sb p fd mem addr n s with
    | .ok (r, t) => if r = some n then .ok t else .error .short
    | .error e => .error (.panic e)

def appends (sb : Superblock) (X : ℕ) : Machine St (ℕ × Act) Fail where
  legal s a := legal X s a.1 a.2
  step s a := step sb s a.1 a.2

/-- the chunk is written at the end of the file -/
def atEnd (sb : Superblock) (X : ℕ) (s : St) (a : ℕ × Act) : Prop :=
  match a.2 with
  | .openPath _ _ => True
  | .chunk fd _ _ _ => ∀ f ∈ (s.proc a.1).ofile fd, ∀ m ∈ s.node sb X, (s.file f).off = m.bytes.length

/-! ## Chunks -/

/-- one round of the loop of `filewrite` -/
def writeChunk (sb : Superblock) (f : ℕ) (mem : UserMem) (addr n : ℕ) : FsM (Option ℕ) := do
  let x ← getFile f
  beginOp
  ilock sb x.ip
  let r ← writei sb x.ip (.user mem addr) x.off n
  setFile f { x with off := x.off + r.getD 0 }
  iunlock x.ip
  endOp
  return r

theorem filewriteLoop_round (hi : i < n) : filewriteLoop sb f mem addr n (fuel + 1) i = (do
    let r ← writeChunk sb f mem (addr + i) (min (n - i) MAXWRITE)
    if r = some (min (n - i) MAXWRITE) then filewriteLoop sb f mem addr n fuel (i + min (n - i) MAXWRITE)
    else return i) := by
  conv_lhs => unfold filewriteLoop
  unfold writeChunk
  simp only [if_pos hi, bind_assoc, pure_bind]

theorem filewriteLoop_done : filewriteLoop sb f mem addr n fuel n = pure n := by
  cases fuel with
  | zero => rfl
  | succ fuel =>
    unfold filewriteLoop
    rw [if_neg (Nat.lt_irrefl n)]

theorem filewrite_chunk (hw : (s.file f).writable = true) (hty : (s.file f).type = .inode) (h0 : 0 < n)
    (hn : n ≤ MAXWRITE) : filewrite sb f mem addr n s = (do
      let r ← writeChunk sb f mem addr n
      return if r = some n then some n else none : FsM (Option ℕ)) s := by
  obtain ⟨fuel, rfl⟩ : ∃ fuel, n = fuel + 1 := ⟨n - 1, by omega⟩
  unfold filewrite
  rw [bind_ok (a := s.file f) (t := s) rfl, if_neg (by rw [hw]; exact Bool.noConfusion), hty]
  simp only
  rw [filewriteLoop_round h0, Nat.sub_zero, Nat.min_eq_left hn, Nat.zero_add, Nat.add_zero, bind_assoc]
  refine congrFun (congrArg (writeChunk sb f mem addr (fuel + 1) >>= ·) (funext fun r => ?_)) s
  split_ifs with hr
  · rw [filewriteLoop_done, pure_bind, if_pos rfl]
  · rw [pure_bind, if_neg (Nat.succ_ne_zero fuel).symm]

/-- the loop of a longer write makes writes of one chunk, one after the other -/
theorem filewriteLoop_chunk (hw : (s.file f).writable = true) (hty : (s.file f).type = .inode) (hi : i < n) :
    filewriteLoop sb f mem addr n (fuel + 1) i s = (do
      let r ← filewrite sb f mem (addr + i) (min (n - i) MAXWRITE)
      if r = some (min (n - i) MAXWRITE) then filewriteLoop sb f mem addr n fuel (i + min (n - i) MAXWRITE)
      else return i : FsM ℕ) s := by
  have hpos : 0 < min (n - i) MAXWRITE := lt_min (by omega) (by decide)
  have hchunk : filewrite sb f mem (addr + i) (min (n - i) MAXWRITE) s = _ :=
    filewrite_chunk hw hty hpos (min_le_right _ _)
  rw [filewriteLoop_round hi]
  cases hr : writeChunk sb f mem (addr + i) (min (n - i) MAXWRITE) s with
  | error e => rw [bind_error hr, bind_error (hchunk.trans (bind_error hr))]
  | ok r =>
    obtain ⟨r, t⟩ := r
    rw [bind_ok hr, bind_ok (hchunk.trans (bind_ok hr))]
    by_cases hc : r = some (min (n - i) MAXWRITE)
    · rw [if_pos hc, if_pos (if_pos hc)]
    · rw [if_neg hc, if_neg (by rw [if_neg hc]; nofun)]

theorem written_append {l w : List UInt8} {src : Src} (h : Wrote l src l.length n n w) :
    written l l.length w n = l ++ (List.range n).map src.byte := by
  have hlen : w.length = n := le_antisymm h.room.2 h.room.1
  have hw : w = (List.range n).map src.byte := by rw [← h.bytes, List.take_of_length_le hlen.le]
  unfold written overwrite
  rw [List.take_length, List.drop_of_length_le (Nat.le_add_right _ _), List.append_nil, List.take_of_length_le, hw]
  rw [List.length_append, hlen]
  exact le_max_right _ _

theorem chunkEnd_spec {ip : ℕ} (h : WF sb u) (hlive : Live sb u ip X m) (r : Option ℕ) :
    Spec (do iunlock ip; endOp; return r) u (fun q v => q = r ∧ v.node sb X = some m) fun _ => True := by
  refine Spec.bind (iunlock_loaded h hlive.ptr hlive.valid fun _ => trivial) fun _ v hv => Spec.bind_ok rfl
    (Spec.pure ⟨rfl, ?_⟩)
  show v.node sb X = some m
  rw [node_congr sb hv.blk]
  exact hlive.node

theorem writeChunk_append (hl : Layout sb) (h : Idle sb s) (hty : (s.file f).type = .inode)
    (hX : (s.inode (s.file f).ip).inum = X) (hm : s.node sb X = some m) (hd : m.type ≠ T_DIR)
    (hoff : (s.file f).off = m.bytes.length) :
    Spec (writeChunk sb f mem addr n) s (fun r t => r = some n →
      t.node sb X = some { m with bytes := m.bytes ++ (List.range n).map (Src.user mem addr).byte }) fun _ => True := by
  have hto := to_event s .beginOp
  have hpos := h.acct.file_pos (f := f) (by rw [hty]; nofun)
  have hptr : Ptr s (s.file f).ip X := hX ▸ h.wf.ptr hpos
  unfold writeChunk
  refine Spec.bind_ok rfl (Spec.bind_ok rfl (Spec.bind
    (ilock_loaded (h.wf.congr hto) (hptr : Ptr { s with trace := _ } _ _) (fun _ => trivial) fun _ => trivial) ?_))
  intro _ t ht
  have hnt : t.node sb X = some m := by rw [node_congr sb ht.blk, node_congr sb hto.blk]; exact hm
  have hlive : Live sb t (s.file f).ip X m := ⟨ht.ptr, ht.valid, hnt⟩
  rw [hoff]
  refine Spec.bind ((writei_puts hl ht.quiet.wf hlive (by nofun) (P := True) fun hc => absurd hc hd).mono
    (fun _ _ hr => hr)
    fun _ _ => trivial) ?_
  intro r u hu
  refine Spec.bind_ok rfl ?_
  set u1 : St := { u with file := u.file.set f { s.file f with off := m.bytes.length + r.getD 0 } }
  rcases hu with ⟨rfl, -, hu⟩ | ⟨x, w, rfl, hw, hu⟩
  · have hlu := hlive.congr hu
    have hlu1 : Live sb u1 (s.file f).ip X m := ⟨hlu.ptr, hlu.valid, hlu.node⟩
    refine (chunkEnd_spec (u := u1) ((ht.quiet.wf.congr hu).of_eq rfl rfl) hlu1 none).post ?_
    rintro _ v ⟨rfl, -⟩ hr
    cases hr
  · have hlu := hu.live hlive
    have hlu1 : Live sb u1 (s.file f).ip X { m with bytes := written m.bytes m.bytes.length w x } :=
      ⟨hlu.ptr, hlu.valid, hlu.node⟩
    refine (chunkEnd_spec (u := u1) (hu.wf.of_eq rfl rfl) hlu1 (some x)).post ?_
    rintro _ v ⟨rfl, hv⟩ hr
    cases hr
    rw [hv, written_append hw]

/-- **A chunk is appended** if it is written at the end of the file. -/
theorem sysWrite_append (hl : Layout sb) (h : Idle sb s) (hfd : (s.proc p).ofile fd = some f)
    (hX : (s.inode (s.file f).ip).inum = X) (hm : s.node sb X = some m) (hd : m.type ≠ T_DIR)
    (hoff : (s.file f).off = m.bytes.length) (hn : n ≤ MAXWRITE)
    (hw : sysWrite sb p fd mem addr n s = .ok (some n, t)) :
    t.node sb X = some { m with bytes := m.bytes ++ (List.range n).map (Src.user mem addr).byte } := by
  unfold sysWrite argfd at hw
  rw [bind_ok (a := if fd < NOFILE then (s.proc p).ofile fd else none) (t := s) rfl, hfd] at hw
  split_ifs at hw with hlt
  case neg => cases hw
  have hwr : (s.file f).writable = true := by
    by_contra hc
    unfold filewrite at hw
    simp only [bind_ok (m := getFile f) (a := s.file f) (t := s) rfl, if_pos (Bool.eq_false_iff.2 hc)] at hw
    cases hw
  have hty : (s.file f).type = .inode := by
    unfold filewrite at hw
    simp only [bind_ok (m := getFile f) (a := s.file f) (t := s) rfl, hwr] at hw
    cases hc : (s.file f).type with
    | inode => rfl
    | none => rw [hc] at hw; cases hw
    | device => rw [hc] at hw; cases hw
  rcases Nat.eq_zero_or_pos n with rfl | hpos
  · unfold filewrite at hw
    simp only [bind_ok (m := getFile f) (a := s.file f) (t := s) rfl, hwr, hty] at hw
    cases hw
    rw [List.range_zero, List.map_nil, List.append_nil]
    exact hm
  · change filewrite sb f mem addr n s = _ at hw
    rw [filewrite_chunk hwr hty hpos hn] at hw
    obtain ⟨r, u, hr, hret⟩ := bind_eq_ok hw
    by_cases hc : r = some n
    · rw [if_pos hc] at hret
      cases hret
      exact (writeChunk_append hl h hty hX hm hd hoff).ok hr hc
    · rw [if_neg hc] at hret
      cases hret

/-! ## Opening -/

/-- a file that has a name stays as it is if the call may not write it or change its links -/
theorem effect_keeps (he : Effect sb ok T T') (hX : T X = some m) (hd : m.type ≠ T_DIR) (h0 : m.nlink ≠ 0)
    (hlink : ∀ i name, ¬ ok (.link i X name) ∧ ¬ ok (.unlink i X name)) (hw : ∀ m l, ¬ ok (.write X m l)) :
    T' X = some m := by
  obtain ⟨T1, h1, h2⟩ := he
  have hT1 : T1 X = some m := by
    rcases h1 with rfl | h1
    · exact hX
    have hne : ∀ {i n}, T i = some n → n.type = T_DIR → X ≠ i := by
      rintro i n hi hn rfl
      rw [hX] at hi
      cases hi
      exact hd hn
    cases h1 with
    | create hc _ =>
      have hj := hc.fresh
      rw [hc.edit.other X (hne hc.dir hc.isDir) (by rintro rfl; rw [hX] at hj; cases hj)]
      exact hX
    | link hc hok =>
      rw [hc.edit.other X (hne hc.dir hc.isDir) (by rintro rfl; exact (hlink _ _).1 hok)]
      exact hX
    | unlink hc hok =>
      rw [hc.edit.other X (hne hc.dir hc.isDir) (by rintro rfl; exact (hlink _ _).2 hok)]
      exact hX
  induction h2 with
  | refl => exact hT1
  | tail _ hm ih =>
    cases hm with
    | @write j n hj _ l hok =>
      have hne : X ≠ j := by
        rintro rfl
        exact hw n l hok
      rw [Function.update_of_ne hne]
      exact ih
    | @free j n hj hz =>
      have hne : X ≠ j := by
        rintro rfl
        rw [ih] at hj
        cases hj
        exact h0 hz
      rw [Function.update_of_ne hne]
      exact ih

theorem sysOpen_keeps (hl : Layout sb) (h : Idle sb s) (hp : (s.proc p).cwd ≠ none) (ha : omode.testBit O_APPEND = true)
    {r : Option ℕ} (hs : sysOpen sb p (some path) omode s = .ok (r, t)) :
    Idle sb t ∧ ∀ X m, s.node sb X = some m → m.type ≠ T_DIR → m.nlink ≠ 0 → t.node sb X = some m := by
  have hstep : (calls sb).step s (p, .openPath (some path) omode) = .ok t := by
    show Except.map Prod.snd ((do let _ ← sysOpen sb p (some path) omode) s) = .ok t
    rw [bind_ok hs]
    rfl
  obtain ⟨hidle, heff⟩ := h.step (a := (p, .openPath (some path) omode)) hl hp rfl hstep
  refine ⟨hidle, fun X m hm hd h0 => effect_keeps heff hm hd h0 (fun i _ => ⟨fun hok => ?_, fun hok => ?_⟩)
    fun n l hok => ?_⟩
  · obtain ⟨_, _, _, hc, -⟩ := hok.makes
    cases hc
  · obtain ⟨_, _, hc, -⟩ := hok.makes
    cases hc
  · have hwrites : Call.Writes s p X n l (.openPath (some path) omode) := hok.makes
    rw [hwrites.2.2.2] at ha
    cases ha

/-! ## Runs -/

/-- **No append is lost** as long as every chunk is written at the end of the file: the content is then the initial one
and all chunks, in the order in which they were written. -/
theorem appends_in_order (hl : Layout sb) (h : Idle sb s) (hm : s.node sb X = some m) (hty : m.type = T_FILE)
    (h0 : m.nlink ≠ 0) (as : List (ℕ × Act)) (hlegal : ((appends sb X).restrict (atEnd sb X)).LegalRun s as)
    (hrun : (appends sb X).run s as = .ok t) :
    t.node sb X = some { m with bytes := m.bytes ++ as.flatMap fun a => a.2.data } := by
  have hd : m.type ≠ T_DIR := by rw [hty]; decide
  induction as generalizing s m with
  | nil =>
    cases hrun
    rw [List.flatMap_nil, List.append_nil]
    exact hm
  | cons a as ih =>
    cases hs : (appends sb X).step s a with
    | error e => rw [Machine.run_cons_error as hs] at hrun; cases hrun
    | ok u =>
      rw [Machine.run_cons_ok as hs] at hrun
      obtain ⟨p, a⟩ := a
      have hnext : Idle sb u ∧ u.node sb X = some { m with bytes := m.bytes ++ a.data } := by
        obtain ⟨⟨ha, hend⟩, -⟩ := hlegal
        cases a with
        | openPath path omode =>
          obtain ⟨hp, happ⟩ := ha
          simp only [appends, step] at hs
          split at hs
          · rename_i r v hopen
            cases hs
            obtain ⟨hidle, hkeep⟩ := sysOpen_keeps hl h hp happ hopen
            refine ⟨hidle, ?_⟩
            rw [show Act.data (.openPath path omode) = [] from rfl, List.append_nil]
            exact hkeep X m hm hd h0
          · cases hs
        | chunk fd mem addr n =>
          obtain ⟨hp, hn, f, hf, hX⟩ := ha
          simp only [appends, step] at hs
          split at hs
          · rename_i r v hwrite
            split_ifs at hs with hr
            cases hs
            subst hr
            have hstep : (calls sb).step s (p, .write fd mem addr n) = .ok u := by
              show Except.map Prod.snd ((do let _ ← sysWrite sb p fd mem addr n) s) = .ok u
              rw [bind_ok hwrite]
              rfl
            exact ⟨(h.step (a := (p, .write fd mem addr n)) hl hp rfl hstep).1,
              sysWrite_append hl h hf hX hm hd (hend f hf m hm) hn hwrite⟩
          · cases hs
      have := ih hnext.1 hnext.2 hty h0 (hlegal.2 u hs) hrun hd
      rw [this, List.flatMap_cons]
      simp only [List.append_assoc]

instance (s : St) (a : ℕ × Act) : Decidable ((appends sb X).legal s a) := by
  obtain ⟨p, a⟩ := a
  cases a <;> unfold appends legal <;> infer_instance

instance (s : St) (a : ℕ × Act) : Decidable (atEnd sb X s a) := by
  obtain ⟨p, a⟩ := a
  cases a <;> unfold atEnd <;> infer_instance

/-- processes 0 and 1, and the empty file "/f" -/
def makeTwo : List (ℕ × Call) := makeF ++ [(0, .fork 1)]

theorem idle_after {l : List (ℕ × Call)}
    (h : (((calls Ownership.tiny).restrict fun s a => a.2.wraps Ownership.tiny s a.1 = false).steps boot l).any
      (fun _ => true) = true) : Idle Ownership.tiny (after l) := by
  obtain ⟨s, hlegal, hr, -⟩ := Machine.exists_run_of_steps h
  have hafter : after l = s := by
    rw [Machine.run_restrict] at hr
    unfold after
    rw [hr]
  rw [hafter]
  exact boot_idle.reach Ownership.tiny_layout ⟨_, hlegal, hr⟩

theorem makeTwo_idle : Idle Ownership.tiny (after makeTwo) := idle_after (by decide +kernel)

theorem makeTwo_file : (after makeTwo).node Ownership.tiny 2 = some ⟨T_FILE, 1, []⟩ := by decide +kernel

def appendF : Act := .openPath pathF (2 ^ O_WRONLY + 2 ^ O_APPEND)

/-- one byte, x -/
def byte (x : UInt8) : Act := .chunk 0 (fun _ => some fun _ => x) 0 1

theorem appends_in_order_turns : ∃ t, (appends Ownership.tiny 2).run (after makeTwo)
      [(0, appendF), (0, byte 97), (1, appendF), (1, byte 98)] = .ok t ∧
    t.node Ownership.tiny 2 = some ⟨T_FILE, 1, [97, 98]⟩ := by
  obtain ⟨t, hlegal, hr, -⟩ := Machine.exists_run_of_steps (s := after makeTwo)
    (l := [(0, appendF), (0, byte 97), (1, appendF), (1, byte 98)]) (p := fun _ => true)
    (M := (appends Ownership.tiny 2).restrict (atEnd Ownership.tiny 2)) (by decide +kernel)
  rw [Machine.run_restrict] at hr
  refine ⟨t, hr, ?_⟩
  rw [appends_in_order Ownership.tiny_layout makeTwo_idle makeTwo_file rfl (by decide) _ hlegal hr]
  decide

/-- **An append is lost.** Both processes open the file before either writes; the second byte is written over the first.
-/
theorem append_lost : ∃ t, (appends Ownership.tiny 2).LegalRun (after makeTwo)
      [(0, appendF), (1, appendF), (0, byte 97), (1, byte 98)] ∧
    (appends Ownership.tiny 2).run (after makeTwo) [(0, appendF), (1, appendF), (0, byte 97), (1, byte 98)] = .ok t ∧
    Idle Ownership.tiny (after makeTwo) ∧ (after makeTwo).node Ownership.tiny 2 = some ⟨T_FILE, 1, []⟩ ∧
    t.node Ownership.tiny 2 = some ⟨T_FILE, 1, [98]⟩ := by
  obtain ⟨t, hlegal, hr, ht⟩ := Machine.exists_run_of_steps (s := after makeTwo)
    (l := [(0, appendF), (1, appendF), (0, byte 97), (1, byte 98)])
    (p := fun t => decide (t.node Ownership.tiny 2 = some ⟨T_FILE, 1, [98]⟩)) (M := appends Ownership.tiny 2)
    (by decide +kernel)
  exact ⟨t, hlegal, hr, makeTwo_idle, makeTwo_file, of_decide_eq_true ht⟩

end Xv6.Fs.Append
