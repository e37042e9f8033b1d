/-
`find` (user/find.c).

What the calls of `open`, `fstat` and `read` give is a function of the path.

- `find_exact`: on a finite tree `find` ends, opens each file and directory once, and prints the paths of the regular
  files with the name.
-/
import Mathlib.Data.List.GetD
import Mathlib.Data.List.TakeWhile
import Xv6.Fs.Sysfile

namespace Xv6.Find

open Fs

/-! ## The source -/

/-- the string in a buffer -/
def text (buf : List UInt8) : List UInt8 := buf.takeWhile (· ≠ 0)

/-- what `open` and `fstat` of a path and reading a directory give -/
inductive Opened where
  | noOpen
  | noStat
  | file
  | device
  | dir (des : List Dirent)

inductive Ev where
  | opened (path : List UInt8)
  /-- a line that is printed to file descriptor fd -/
  | line (fd : ℕ) (l : List UInt8)

/-- the loop of `fmtname`, from before p on -/
def fmtnameLoop (path : List UInt8) : ℕ → ℕ
  | 0 => 0
  | p + 1 => if path.getD p 0 = SLASH then p + 1 else fmtnameLoop path p

def fmtname (path : List UInt8) : List UInt8 := path.drop (fmtnameLoop path (path.length + 1))

/-- the entries of a directory; the name goes to position p of buf -/
def readLoop (find : List UInt8 → Option (List Ev)) (p : ℕ) : List Dirent → List UInt8 → Option (List Ev)
  | [], _ => some []
  | de :: des, buf =>
    if de.inum = 0 then readLoop find p des buf
    else if text de.name = DOT ∨ text de.name = DOTDOT then readLoop find p des buf
    else
      let buf := buf.take p ++ de.name ++ 0 :: buf.drop (p + DIRSIZ + 1)
      (find (text buf)).bind fun out => (readLoop find p des buf).map (out ++ ·)

variable (sys : List UInt8 → Opened) (junk : List UInt8 → List UInt8) (target : List UInt8)

/-- junk is what the rest of buf holds; n bounds the depth of the recursion -/
def find : ℕ → List UInt8 → Option (List Ev)
  | 0, _ => none
  | n + 1, path =>
    match sys path with
    | .noOpen => some [.opened path, .line 2 ("find: cannot open ".toUTF8.toList ++ path)]
    | .noStat => some [.opened path, .line 2 ("find: cannot stat ".toUTF8.toList ++ path)]
    | .file => some (.opened path :: if fmtname path = target then [.line 1 path] else [])
    | .device => some [.opened path]
    | .dir des =>
      if path.length + 1 + DIRSIZ + 1 > 512 then some [.opened path, .line 1 "find: path too long".toUTF8.toList]
      else (readLoop (find n) (path.length + 1) des (path ++ SLASH :: junk path)).map (.opened path :: ·)

/-! ## Directory trees -/

/-- the names in a directory that lead to something else: no free slots, no `.` and `..` -/
def names : List Dirent → List (List UInt8)
  | [] => []
  | de :: des =>
    if de.inum = 0 then names des
    else if text de.name = DOT ∨ text de.name = DOTDOT then names des
    else text de.name :: names des

/-- path q leads to a tree of at most d levels: every path in it can be opened, the buffer has room for the path of a
directory and a name, and the names in a directory are different ones -/
def IsTree : ℕ → List UInt8 → Prop
  | 0, _ => False
  | d + 1, q => match sys q with
    | .noOpen | .noStat => False
    | .file | .device => True
    | .dir des => q.length + 1 + DIRSIZ + 1 ≤ 512 ∧ (names des).Nodup ∧
        ∀ name ∈ names des, SLASH ∉ name ∧ IsTree d (q ++ SLASH :: name)

/-- the paths at and below q, in the order of the slots -/
def paths : ℕ → List UInt8 → List (List UInt8)
  | 0, _ => []
  | d + 1, q => q :: match sys q with
    | .dir des => (names des).flatMap fun name => paths d (q ++ SLASH :: name)
    | _ => []

/-- the part of a path after its last slash -/
def last (path : List UInt8) : List UInt8 := (path.reverse.takeWhile (· ≠ SLASH)).reverse

/-- path is that of a regular file with the name target -/
def wanted (path : List UInt8) : Bool :=
  match sys path with
  | .file => last path = target
  | _ => false

def opened (out : List Ev) : List (List UInt8) := out.filterMap fun | .opened path => some path | _ => none

def printed (out : List Ev) : List (ℕ × List UInt8) := out.filterMap fun | .line fd l => some (fd, l) | _ => none

/-- a run opens the paths ps and prints those that are wanted -/
def Run (run : Option (List Ev)) (ps : List (List UInt8)) : Prop :=
  ∃ out, run = some out ∧ opened out = ps ∧ printed out = (ps.filter (wanted sys target)).map (Prod.mk 1)

/-! ## Paths -/

variable {sys junk target} {q path name buf : List UInt8} {de : Dirent} {des : List Dirent} {n d : ℕ}

theorem last_append (path : List UInt8) (c : UInt8) :
    last (path ++ [c]) = if c = SLASH then [] else last path ++ [c] := by
  unfold last
  split_ifs with h <;> simp [h]

theorem fmtnameLoop_drop {p : ℕ} (hp : p ≤ path.length) :
    path.drop (fmtnameLoop path p) = last (path.take p) ++ path.drop p := by
  induction p with
  | zero => simp [fmtnameLoop, last]
  | succ p ih =>
    have hlt : p < path.length := hp
    rw [fmtnameLoop, List.getD_eq_getElem _ _ hlt, List.take_succ_eq_append_getElem hlt, last_append]
    split_ifs with h
    · rfl
    · rw [ih hlt.le, List.append_assoc, List.singleton_append, ← List.drop_eq_getElem_cons hlt]

theorem fmtname_eq (path : List UInt8) : fmtname path = last path := by
  have h := fmtnameLoop_drop (le_refl path.length)
  rw [List.take_length, List.drop_length, List.append_nil] at h
  rw [fmtname, fmtnameLoop, List.getD_eq_default _ _ le_rfl, if_neg (by decide), h]

theorem not_mem_names (h : name ∈ names des) : 0 ∉ name := by
  induction des with
  | nil => cases h
  | cons de des ih =>
    rw [names] at h
    split_ifs at h with h0 hdot
    · exact ih h
    · exact ih h
    · rcases List.mem_cons.mp h with rfl | h
      · exact fun hz => by simpa using List.mem_takeWhile_imp hz
      · exact ih h

theorem text_buf (hq : 0 ∉ q) (hb : buf.take (q.length + 1) = q ++ [SLASH]) (l : List UInt8) :
    text (buf.take (q.length + 1) ++ de.name ++ 0 :: l) = q ++ SLASH :: text de.name := by
  have hall : ∀ c ∈ q ++ [SLASH], decide (c ≠ 0) = true := by
    intro c hc
    rcases List.mem_append.mp hc with h | h
    · exact decide_eq_true fun e => hq (e ▸ h)
    · rw [List.mem_singleton.mp h]
      decide
  have hname : ∀ name : List UInt8, (name ++ 0 :: l).takeWhile (· ≠ 0) = name.takeWhile (· ≠ 0) := fun name => by
    induction name with
    | nil => rfl
    | cons c name ih => rw [List.cons_append, List.takeWhile_cons, List.takeWhile_cons, ih]
  rw [hb, text, List.append_assoc, List.takeWhile_append_of_pos hall, hname, List.append_assoc]
  rfl

/-! ## The run -/

/-- **The entries of a directory**, when `find` is right for each of them. -/
theorem readLoop_run {find : List UInt8 → Option (List Ev)} {ps : List UInt8 → List (List UInt8)} (hq : 0 ∉ q)
    (hb : buf.take (q.length + 1) = q ++ [SLASH])
    (h : ∀ name ∈ names des, Run sys target (find (q ++ SLASH :: name)) (ps name)) :
    Run sys target (readLoop find (q.length + 1) des buf) ((names des).flatMap ps) := by
  induction des generalizing buf with
  | nil => exact ⟨[], rfl, rfl, rfl⟩
  | cons de des ih =>
    rw [readLoop]
    rw [names] at h ⊢
    split_ifs at h ⊢ with h0 hdot
    · exact ih hb h
    · exact ih hb h
    -- the name is overwritten, the path of the directory before it stays
    have hb' : (buf.take (q.length + 1) ++ de.name ++ 0 :: buf.drop (q.length + 1 + DIRSIZ + 1)).take (q.length + 1) =
        q ++ [SLASH] := by
      rw [hb, List.append_assoc]
      exact List.take_left' (by simp)
    obtain ⟨out, hrun, ho, hp⟩ := h _ List.mem_cons_self
    obtain ⟨out', hrun', ho', hp'⟩ := ih hb' fun name hn => h name (List.mem_cons_of_mem _ hn)
    refine ⟨out ++ out', ?_, ?_, ?_⟩
    · simp only
      rw [text_buf hq hb, hrun, hrun']
      rfl
    · rw [List.flatMap_cons, ← ho, ← ho']
      exact List.filterMap_append
    · rw [List.flatMap_cons, List.filter_append, List.map_append, ← hp, ← hp']
      exact List.filterMap_append

theorem find_run (h : IsTree sys d q) (hq : 0 ∉ q) (hn : d ≤ n) :
    Run sys target (find sys junk target n q) (paths sys d q) := by
  induction d generalizing q n with
  | zero => exact h.elim
  | succ d ih =>
    obtain ⟨n, rfl⟩ := Nat.exists_eq_add_one_of_ne_zero (Nat.ne_zero_of_lt hn)
    unfold IsTree at h
    unfold find paths
    cases hs : sys q with
    | noOpen | noStat => rw [hs] at h; exact h.elim
    | device => exact ⟨_, rfl, rfl, by simp [wanted, hs, printed]⟩
    | file =>
      refine ⟨_, rfl, ?_⟩
      rw [fmtname_eq]
      by_cases ht : last q = target <;> simp [wanted, hs, ht, opened, printed]
    | dir des =>
      rw [hs] at h
      have hb : (q ++ SLASH :: junk q).take (q.length + 1) = q ++ [SLASH] := by
        rw [List.take_append]
        simp
      have hkid : ∀ name ∈ names des, 0 ∉ q ++ SLASH :: name := fun name hname hz => by
        rcases List.mem_append.mp hz with hz | hz
        · exact hq hz
        · exact not_mem_names hname ((List.mem_cons.mp hz).resolve_left (by decide))
      obtain ⟨out, hrun, ho, hp⟩ := readLoop_run hq hb fun name hname =>
        ih (h.2.2 name hname).2 (hkid name hname) (Nat.le_of_succ_le_succ hn)
      refine ⟨.opened q :: out, ?_, congrArg (q :: ·) ho, ?_⟩
      · simp only
        rw [if_neg (not_lt.mpr h.1), hrun]
        rfl
      · rw [List.filter_cons_of_neg (by simp [wanted, hs]), ← hp]
        rfl

/-! ## No path twice -/

theorem paths_below (h : path ∈ paths sys d q) : path = q ∨ ∃ r, path = q ++ SLASH :: r := by
  induction d generalizing q with
  | zero => cases h
  | succ d ih =>
    refine (List.mem_cons.mp h).imp_right fun h => ?_
    cases hs : sys q with
    | dir des =>
      rw [hs] at h
      obtain ⟨name, -, h⟩ := List.mem_flatMap.mp h
      rcases ih h with rfl | ⟨r, rfl⟩
      · exact ⟨_, rfl⟩
      · exact ⟨name ++ SLASH :: r, List.append_assoc _ _ _⟩
    | _ => rw [hs] at h; cases h

theorem paths_name (hname : SLASH ∉ name) (h : path ∈ paths sys d (q ++ SLASH :: name)) :
    q.length < path.length ∧ (path.drop (q.length + 1)).takeWhile (· ≠ SLASH) = name := by
  have hall : ∀ c ∈ name, decide (c ≠ SLASH) = true := fun c hc => decide_eq_true fun e => hname (e ▸ hc)
  have hdrop : ∀ l, (q ++ SLASH :: l).drop (q.length + 1) = l := fun l => by
    rw [List.drop_append]
    simp
  rcases paths_below h with rfl | ⟨r, rfl⟩
  · rw [hdrop, List.takeWhile_eq_self_iff.mpr hall]
    simp
  · rw [List.append_assoc, List.cons_append, hdrop, List.takeWhile_append_of_pos hall]
    simp

theorem paths_nodup (h : IsTree sys d q) : (paths sys d q).Nodup := by
  induction d generalizing q with
  | zero => exact h.elim
  | succ d ih =>
    unfold IsTree at h
    unfold paths
    cases hs : sys q with
    | dir des =>
      rw [hs] at h
      have hkids : ∀ name ∈ names des, (paths sys d (q ++ SLASH :: name)).Nodup := fun name hname =>
        ih (h.2.2 name hname).2
      refine List.nodup_cons.mpr ⟨fun hmem => ?_, List.nodup_flatMap.mpr ⟨hkids, ?_⟩⟩
      · obtain ⟨name, hname, hmem⟩ := List.mem_flatMap.mp hmem
        exact absurd (paths_name (h.2.2 name hname).1 hmem).1 (lt_irrefl _)
      · refine List.Pairwise.imp_of_mem (fun ha hb hne p hp hp' => hne ?_) h.2.1
        rw [← (paths_name (h.2.2 _ ha).1 hp).2, (paths_name (h.2.2 _ hb).1 hp').2]
    | _ => exact List.nodup_singleton q

/-- **`find` is complete and exact.** On a finite tree it ends. It has then opened every path of the tree once, in the
order of the slots, but no `.` or `..`, and it has printed those of them that lead to a regular file with the name. -/
theorem find_exact (sys : List UInt8 → Opened) (junk : List UInt8 → List UInt8) (target start : List UInt8) (d n : ℕ)
    (hstart : 0 ∉ start) (h : IsTree sys d start) (hn : d ≤ n) : ∃ out, find sys junk target n start = some out ∧
      opened out = paths sys d start ∧ (paths sys d start).Nodup ∧
      printed out = ((paths sys d start).filter (wanted sys target)).map (Prod.mk 1) := by
  obtain ⟨out, hrun, ho, hp⟩ : Run sys target (find sys junk target n start) _ := find_run h hstart hn
  exact ⟨out, hrun, ho, paths_nodup h, hp⟩

/-- the directory `d` has `.`, a free slot and the file `a` -/
def sample (path : List UInt8) : Opened :=
  if path = [100] then .dir [⟨5, [46]⟩, ⟨0, [97]⟩, ⟨7, [97]⟩] else .file

theorem find_exact_sample : ∃ out, find sample (fun _ => []) [97] 2 [100] = some out ∧
    printed out = [(1, [100, 47, 97])] := by
  have htree : IsTree sample 2 [100] := ⟨by decide, by decide, fun name hname => by
    rw [List.mem_singleton.mp hname]
    exact ⟨by decide, trivial⟩⟩
  obtain ⟨out, hrun, -, -, hp⟩ := find_exact sample (fun _ => []) [97] [100] 2 2 (by decide) htree le_rfl
  exact ⟨out, hrun, hp.trans (by decide)⟩

end Xv6.Find
