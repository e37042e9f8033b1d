/-
Creating an inode (kernel/sysfile.c, `create`).

`Created`: what a successful `create` does to the tree: a free inode is in use, with one link, and the parent directory
has an entry for it; a new directory has its two entries, and its parent one link more. `create_spec`: in a calm state
`create` does this, or it returns an existing file, or it fails and leaves the tree as it was, wherever it failed.
-/
import Xv6.Fs.Calm

namespace Xv6.Fs

open Xv6.Core

variable {sb : Superblock} {i j ip dp : ℕ} {s t u : St} {R : ℕ → ℕ} {P : Prop} {n m : Node} {type major minor : UInt16}
  {name : List UInt8}

/-- the content of a new directory -/
def newDir (j i : ℕ) : List UInt8 := putEntry (putEntry [] 0 (link DOT j)) 1 (link DOTDOT i)

/-- a new inode j under the directory i -/
def newNode (type : UInt16) (j i : ℕ) : Node := ⟨type, 1, if type = T_DIR then newDir j i else []⟩

/-- the directory n with a new entry in place k -/
def Node.linked (n : Node) (k : ℕ) (name : List UInt8) (type : UInt16) (j : ℕ) : Node :=
  { n with nlink := if type = T_DIR then n.nlink + 1 else n.nlink, bytes := putEntry n.bytes k (link name j) }

/-- inode j has been created as entry k of the directory i -/
structure Created (sb : Superblock) (type : UInt16) (name : List UInt8) (T T' : ℕ → Option Node)
    (i j k : ℕ) (n : Node) :
    Prop where
  dir : T i = some n
  isDir : n.type = T_DIR
  fresh : T j = none
  pos : 0 < j
  lt : j < sb.ninodes
  place : k ≤ n.bytes.length / DESIZE
  free : k < n.bytes.length / DESIZE → (entry n.bytes k).inum = 0
  first : ∀ x, x < k → (entry n.bytes x).inum ≠ 0
  absent : ∀ x, x < n.bytes.length / DESIZE → ¬ Hit n.bytes name x
  eq : T' = Function.update (Function.update T j (some (newNode type j i))) i (some (n.linked k name type j))

/-! ## Small steps -/

theorem Puts.trans {o o' : Option Node} (h : Puts sb s t i o) (h' : Puts sb t u i o') : Puts sb s u i o' := by
  have htab := h'.tab
  rw [h.refs] at htab
  refine ⟨h'.wf, h.tab.trans htab, h'.refs.trans h.refs, ?_⟩
  rw [h'.node, h.node, Function.update_idem]

theorem Puts.refl (h : WF sb s) (hn : s.node sb i = some n) : Puts sb s s i (some n) :=
  ⟨h, Tab.refl _ _, rfl, by rw [← hn, Function.update_eq_self]⟩

theorem Live.ne (hi : Live sb s dp i n) (hj : Live sb s ip j m) (hij : i ≠ j) : dp ≠ ip := by
  rintro rfl
  exact hij (hi.ptr.2.2.symm.trans hj.ptr.2.2)

theorem Live.dropped {F : ℕ → ℕ} (hn : Live sb s dp i n) (hd : Dropped sb F ip j s t) (hF : 0 < F dp) :
    Live sb t dp i n := hn.quiet hd.quiet hF (by rw [hd.refs]; exact hF)

theorem add_single_ne (R : ℕ → ℕ) {a b : ℕ} (h : a ≠ b) : (R + Pi.single b 1 : ℕ → ℕ) a = R a := by
  rw [Pi.add_apply, Pi.single_eq_of_ne h, Nat.add_zero]

/-! ## Failing -/

/-- drop the new inode j, whose link count has been cleared, and the directory i -/
theorem createFail_spec (hl : Layout sb) (h : WF sb s) (hip : Live sb s ip j m) (hdp : Live sb s dp i n) (hij : i ≠ j)
    (hR : s.refs = R + Pi.single dp 1 + Pi.single ip 1) :
    Spec (createFail sb ip dp) s (fun r t => r = none ∧ WF sb t ∧ Tab R s t ∧ t.refs = R ∧
      (Calm sb s → R ip = 0 → 0 < R dp ∨ n.nlink ≠ 0 →
        Calm sb t ∧ t.node sb = Function.update (s.node sb) j none)) (Fault P) := by
  have hne : ip ≠ dp := (hdp.ne hip hij).symm
  have hleR : ∀ k, 0 < R k → 0 < s.refs k := fun k hk => by
    rw [hR]; exact le_add_single _ _ _ (le_add_single _ _ _ hk)
  unfold createFail
  refine Spec.bind (setNlink_spec hl h hip _) ?_
  intro _ t1 h1
  have hip1 := h1.live hip
  have hdp1 := h1.live_ne hdp hij
  have hR1 : t1.refs = R + Pi.single dp 1 + Pi.single ip 1 := h1.refs.trans hR
  refine Spec.bind (iunlockput_spec hl h1.wf hip1.ptr hip1.valid hR1) ?_
  intro _ t2 h2
  have hdp2 := hdp1.dropped h2 (single_pos R dp)
  refine Spec.bind (iunlockput_spec hl h2.quiet.wf hdp2.ptr hdp2.valid h2.refs) ?_
  intro _ t3 h3
  have htab : Tab R s t3 :=
    ((h1.tab.mono hleR).trans (h2.quiet.tab.mono (le_add_single R dp))).trans h3.quiet.tab
  refine Spec.pure ⟨rfl, h3.quiet.wf, htab, h3.refs, fun hc hip0 hdp0 => ?_⟩
  have hc1 : Calm sb t1 := hc.puts h1 fun _ => ⟨ip, hip.ptr.2.1, hip.ptr.2.2, hip.valid⟩
  have hc2 := hc1.drop h1.wf hip1.ptr hR1 h2
  have hn2 : t2.node sb = Function.update (s.node sb) j none := by
    rw [h2.node_eq hc1 h1.wf hip1.ptr, if_pos ⟨by rw [add_single_ne R hne]; exact hip0, _, hip1.node, rfl⟩, h1.node,
      Function.update_idem]
  refine ⟨hc2.drop h2.quiet.wf hdp2.ptr h2.refs h3, ?_⟩
  rw [h3.node_same hc2 h2.quiet.wf hdp2.ptr (hdp0.imp_right fun h0 x hx => ?_), hn2]
  rw [hdp2.node] at hx
  cases hx
  exact h0

/-! ## The new inode -/

theorem length_putEntry_nil (e : Dirent) (he : e.name.length = DIRSIZ) : (putEntry [] 0 e).length = DESIZE := by
  rw [length_putEntry (Nat.zero_le _) he]
  simp

theorem createDots_spec (hl : Layout sb) (h : WF sb s) (hip : Live sb s ip j ⟨type, 1, []⟩) (hdp : Live sb s dp i n)
    (hij : i ≠ j) (hj : j ≠ 0) :
    Spec (createDots sb ip dp type) s (fun r t =>
      (r = true ∧ Puts sb s t j (some (newNode type j i))) ∨
      (r = false ∧ WF sb t ∧ Tab s.refs s t ∧ t.refs = s.refs ∧ (∃ m, Live sb t ip j m) ∧ Live sb t dp i n ∧
        (Calm sb s → Calm sb t ∧ ∃ m, t.node sb = Function.update (s.node sb) j m))) (Fault P) := by
  unfold createDots
  refine Spec.bind_ok rfl (Spec.bind_ok rfl ?_)
  split_ifs with hdir
  · rw [hip.ptr.2.2, hdp.ptr.2.2]
    refine Spec.bind (dirlink_spec hl h hip hdir (h.range ip j hip.ptr)) ?_
    rintro (_ | _) t ht
    · obtain ⟨hq, hr⟩ := ht
      have hpos := hip.ptr.2.1
      have hpos' := hdp.ptr.2.1
      refine Spec.pure (Or.inr ⟨rfl, hq.wf, hq.tab, hr, ⟨_, hip.quiet hq hpos (by rw [hr]; exact hpos)⟩,
        hdp.quiet hq hpos' (by rw [hr]; exact hpos'), fun hc => ⟨hc.quiet hq hr, s.node sb j, ?_⟩⟩)
      rw [Function.update_eq_self]; exact hc.held.node hq
    · obtain ⟨k, hk, -, -, -, hp⟩ := ht
      obtain rfl : k = 0 := by simpa using hk
      have hip1 := hp.live hip
      have hdp1 := hp.live_ne hdp hij
      have hlen : (putEntry [] 0 (link DOT j)).length / DESIZE = 1 := by
        rw [length_putEntry_nil _ (length_strncpy _ _)]; rfl
      simp only [if_true]
      refine Spec.post (dirlink_spec hl hp.wf hip1 hdir (h.range dp i hdp.ptr)) ?_
      rintro (_ | _) u hu
      · obtain ⟨hq, hr⟩ := hu
        have hpos := hip1.ptr.2.1
        have hpos' := hdp1.ptr.2.1
        have htab := hq.tab
        rw [hp.refs] at htab
        refine Or.inr ⟨rfl, hq.wf, hp.tab.trans htab, hr.trans hp.refs,
          ⟨_, hip1.quiet hq hpos (by rw [hr]; exact hpos)⟩,
          hdp1.quiet hq hpos' (by rw [hr]; exact hpos'), fun hc => ?_⟩
        have hc1 : Calm sb t := hc.puts hp fun h0 => absurd h0 (by simp)
        exact ⟨hc1.quiet hq hr, _, (hc1.held.node hq).trans hp.node⟩
      · obtain ⟨k, hk, hfree, -, -, hp'⟩ := hu
        -- the first entry is in use, so the second one is appended
        have hk1 : k = 1 := by
          simp only [hlen] at hk hfree
          by_contra hne
          have h0 : k = 0 := by omega
          subst h0
          have := hfree Nat.one_pos
          rw [entry_putEntry (Nat.zero_le _) (length_strncpy _ _)
            (lt_of_lt_of_le (h.range ip j hip.ptr) hl.inum) (by rw [hlen]; exact Nat.one_pos), if_pos rfl] at this
          exact hj this
        subst hk1
        refine Or.inl ⟨rfl, ?_⟩
        have := hp.trans hp'
        simpa only [newNode, newDir, if_pos hdir] using this
  · refine Spec.pure (Or.inl ⟨rfl, ?_⟩)
    have := Puts.refl h hip.node
    simpa only [newNode, if_neg hdir] using this

/-- what `dirlink` has done to the directory -/
structure Placed (n : Node) (name : List UInt8) (k : ℕ) : Prop where
  place : k ≤ n.bytes.length / DESIZE
  free : k < n.bytes.length / DESIZE → (entry n.bytes k).inum = 0
  first : ∀ x, x < k → (entry n.bytes x).inum ≠ 0
  absent : ∀ x, x < n.bytes.length / DESIZE → ¬ Hit n.bytes name x

/-- what the parts of `create` can return, with references R left to the caller -/
def NewPost (sb : Superblock) (R : ℕ → ℕ) (s : St) (fail : St → Prop) (done : ℕ → St → Prop) (r : Option ℕ) (t : St) :
    Prop :=
  WF sb t ∧ Tab R s t ∧ match r with
    | none => t.refs = R ∧ fail t
    | some ip => t.refs = R + Pi.single ip 1 ∧ done ip t

/-- the directory has its entry for the new inode and has been released -/
structure Linked (sb : Superblock) (R : ℕ → ℕ) (type : UInt16) (name : List UInt8) (dp i ip j k : ℕ) (n : Node)
    (s t : St) : Prop where
  live : Live sb t ip j (newNode type j i)
  placed : Placed n name k
  tree : Calm sb s → 0 < R dp ∨ (n.linked k name type j).nlink ≠ 0 →
    Calm sb t ∧ t.node sb = Function.update (s.node sb) i (some (n.linked k name type j))

section

variable (hl : Layout sb) (h : WF sb s) (hip : Live sb s ip j (newNode type j i)) (hdp : Live sb s dp i n) (hij : i ≠ j)
  (hR : s.refs = R + Pi.single dp 1 + Pi.single ip 1)
include hl h hip hdp hij hR

omit h in
theorem createLink_done {k : ℕ} (hk : Placed n name k) (hp : Puts sb s t i (some (n.linked k name type j)))
    {fail : St → Prop} :
    Spec (do
      iunlockput sb dp
      pure (some ip)) t
      (NewPost sb R s fail fun ip' t => ip' = ip ∧ ∃ k, Linked sb R type name dp i ip j k n s t) (Fault P) := by
  have hne : dp ≠ ip := hdp.ne hip hij
  have hleR : ∀ k, 0 < R k → 0 < s.refs k := fun k hk => by
    rw [hR]; exact le_add_single _ _ _ (le_add_single _ _ _ hk)
  have hdp1 := hp.live hdp
  have hip1 := hp.live_ne hip hij.symm
  have hR1 : t.refs = R + Pi.single ip 1 + Pi.single dp 1 := by rw [hp.refs, hR, add_right_comm]
  refine Spec.bind (iunlockput_spec hl hp.wf hdp1.ptr hdp1.valid hR1) ?_
  intro _ u hu
  refine Spec.pure ⟨hu.quiet.wf, (hp.tab.mono hleR).trans (hu.quiet.tab.mono (le_add_single R ip)), hu.refs, rfl, k,
    hip1.dropped hu (single_pos R ip), hk, fun hc hw => ?_⟩
  have hc1 : Calm sb t := hc.puts hp fun _ => ⟨dp, hdp.ptr.2.1, hdp.ptr.2.2, hdp.valid⟩
  refine ⟨hc1.drop hp.wf hdp1.ptr hR1 hu, ?_⟩
  rw [hu.node_same hc1 hp.wf hdp1.ptr (hw.imp (fun h0 => by rw [add_single_ne R hne]; exact h0) fun h0 x hx => ?_),
    hp.node]
  rw [hdp1.node] at hx
  cases hx
  exact h0

theorem createLink_spec (hdir : n.type = T_DIR) :
    Spec (createLink sb ip dp name type) s (NewPost sb R s
      (fun t => Calm sb s → R ip = 0 → 0 < R dp ∨ n.nlink ≠ 0 →
        Calm sb t ∧ t.node sb = Function.update (s.node sb) j none)
      fun ip' t => ip' = ip ∧ ∃ k, Linked sb R type name dp i ip j k n s t) (Fault P) := by
  have hleR : ∀ k, 0 < R k → 0 < s.refs k := fun k hk => by
    rw [hR]; exact le_add_single _ _ _ (le_add_single _ _ _ hk)
  unfold createLink
  refine Spec.bind_ok rfl ?_
  rw [hip.ptr.2.2]
  refine Spec.bind (dirlink_spec hl h hdp hdir (h.range ip j hip.ptr)) ?_
  rintro (_ | _) t ht
  · obtain ⟨hq, hr⟩ := ht
    have hpos := hip.ptr.2.1
    have hpos' := hdp.ptr.2.1
    simp only [Bool.false_eq_true, if_false]
    refine Spec.post (createFail_spec hl hq.wf (hip.quiet hq hpos (by rw [hr]; exact hpos))
      (hdp.quiet hq hpos' (by rw [hr]; exact hpos')) hij (hr.trans hR)) ?_
    rintro r u ⟨rfl, hwf, htab, hur, hcalm⟩
    refine ⟨hwf, (hq.tab.mono hleR).trans htab, hur, fun hc h1 h2 => ?_⟩
    obtain ⟨h3, h4⟩ := hcalm (hc.quiet hq hr) h1 h2
    exact ⟨h3, by rw [h4, hc.held.node hq]⟩
  · obtain ⟨k, h1, h2, h3, h4, hp⟩ := ht
    have hk : Placed n name k := ⟨h1, h2, h3, h4⟩
    simp only [if_true]
    split_ifs with htd
    · refine Spec.bind (setNlink_spec hl hp.wf (hp.live hdp) _) ?_
      intro _ u hu
      refine createLink_done hl hip hdp hij hR hk ?_
      have := hp.trans hu
      simpa only [Node.linked, if_pos htd] using this
    · refine createLink_done hl hip hdp hij hR hk ?_
      simpa only [Node.linked, if_neg htd] using hp

end

/-- a new inode under the directory i: not in use before, and the tree as `Created` says -/
structure Made (sb : Superblock) (R : ℕ → ℕ) (type : UInt16) (name : List UInt8) (dp i ip : ℕ) (n : Node) (s t : St)
    (j k : ℕ) : Prop where
  live : Live sb t ip j (newNode type j i)
  tree : Calm sb s → 0 < R dp ∨ (n.linked k name type j).nlink ≠ 0 →
    Calm sb t ∧ Created sb type name (s.node sb) (t.node sb) i j k n

/-- the new inode j has been initialised: it has no content yet -/
structure Fresh (sb : Superblock) (R : ℕ → ℕ) (type : UInt16) (dp i ip j : ℕ) (n : Node) (s t : St) : Prop where
  wf : WF sb t
  tab : Tab R s t
  refs : t.refs = R + Pi.single dp 1 + Pi.single ip 1
  new : Live sb t ip j ⟨type, 1, []⟩
  dir : Live sb t dp i n
  ne : i ≠ j
  pos : 0 < j
  lt : j < sb.ninodes
  free : s.node sb j = none
  node : t.node sb = Function.update (s.node sb) j (some ⟨type, 1, []⟩)
  calm : Calm sb s → Calm sb t ∧ R ip = 0

/-- what `createNew` can return -/
def CreateNewPost (sb : Superblock) (R : ℕ → ℕ) (type : UInt16) (name : List UInt8) (dp i : ℕ) (n : Node) (s : St) :
    Option ℕ → St → Prop :=
  NewPost sb R s (fun t => Calm sb s → 0 < R dp ∨ n.nlink ≠ 0 → Calm sb t ∧ t.node sb = s.node sb)
    fun ip t => ∃ j k, Made sb R type name dp i ip n s t j k

/-- the part of `create` after the initialisation of the new inode -/
theorem createFill_spec (hl : Layout sb) (hf : Fresh sb R type dp i ip j n s t) (hdir : n.type = T_DIR) :
    Spec (do if ← createDots sb ip dp type then createLink sb ip dp name type else createFail sb ip dp) t
      (CreateNewPost sb R type name dp i n s) (Fault P) := by
  have hdrop : Function.update (s.node sb) j none = s.node sb := by rw [← hf.free, Function.update_eq_self]
  have hleR : ∀ k, 0 < R k → 0 < t.refs k := fun k hk => by
    rw [hf.refs]; exact le_add_single _ _ _ (le_add_single _ _ _ hk)
  refine Spec.bind (createDots_spec hl hf.wf hf.new hf.dir hf.ne hf.pos.ne') ?_
  rintro r u (⟨rfl, hp⟩ | ⟨rfl, hwf, htab, hr, ⟨m, hip⟩, hdp, hcalm⟩)
  · simp only [if_true]
    refine Spec.post (createLink_spec hl hp.wf (hp.live hf.new) (hp.live_ne hf.dir hf.ne) hf.ne (hp.refs.trans hf.refs)
      hdir) ?_
    rintro r w ⟨hwf, htab, hr⟩
    have htab' : Tab R s w := (hf.tab.trans (hp.tab.mono hleR)).trans htab
    have hc1 : Calm sb t → Calm sb u := fun hc => hc.puts hp fun h0 => absurd h0 (by simp [newNode])
    refine ⟨hwf, htab', ?_⟩
    cases r with
    | none =>
      refine ⟨hr.1, fun hc hw => ?_⟩
      obtain ⟨hct, hR0⟩ := hf.calm hc
      obtain ⟨hcw, hnode⟩ := hr.2 (hc1 hct) hR0 hw
      refine ⟨hcw, ?_⟩
      rw [hnode, hp.node, hf.node, Function.update_idem, Function.update_idem, hdrop]
    | some ip' =>
      obtain ⟨hr, rfl, k, hlink⟩ := hr
      refine ⟨hr, j, k, hlink.live, fun hc hw => ?_⟩
      obtain ⟨hcw, hnode⟩ := hlink.tree (hc1 (hf.calm hc).1) hw
      refine ⟨hcw, ?_, hdir, hf.free, hf.pos, hf.lt, hlink.placed.place, hlink.placed.free, hlink.placed.first,
        hlink.placed.absent, ?_⟩
      · have := hf.dir.node
        rwa [hf.node, Function.update_of_ne hf.ne] at this
      · rw [hnode, hp.node, hf.node, Function.update_idem]
  · simp only [Bool.false_eq_true, if_false]
    refine Spec.post (createFail_spec hl hwf hip hdp hf.ne (hr.trans hf.refs)) ?_
    rintro r w ⟨rfl, hwf', htab', hr', hcalm'⟩
    refine ⟨hwf', (hf.tab.trans (htab.mono hleR)).trans htab', hr', fun hc hw => ?_⟩
    obtain ⟨hct, hR0⟩ := hf.calm hc
    obtain ⟨hcu, m', hm'⟩ := hcalm hct
    obtain ⟨hcw, hnode⟩ := hcalm' hcu hR0 hw
    refine ⟨hcw, ?_⟩
    rw [hnode, hm', hf.node, Function.update_idem, Function.update_idem, hdrop]

theorem IallocPost.fresh (hl : Layout sb) (hdp : Live sb s dp i n) (hR : s.refs = R + Pi.single dp 1)
    (ht : IallocPost sb type s (some ip) t) : ∃ j, WF sb t ∧ Ptr t ip j ∧ t.node sb j ≠ none ∧
      ∀ u w major minor, Loaded sb ip j t u →
        (∀ v, v = { u with inode := u.inode.set ip { u.inode ip with
            din := { (u.inode ip).din with major := major, minor := minor, nlink := 1 } } } →
          To v w (setDino sb v.blk (v.inode ip).inum (v.inode ip).din) v.inode) →
        Fresh sb R type dp i ip j n s w := by
  obtain ⟨j, hj0, hjlt, hfree, hwf1, htab1, hr1, hp1, hnode1⟩ := ht
  have hleR := pos_refs hR
  have hij : i ≠ j := by
    rintro rfl
    rw [hdp.node] at hfree; cases hfree
  have hnj : t.node sb j = some ⟨type, 0, []⟩ := by rw [hnode1, Function.update_self]
  have hdp1 : Live sb t dp i n := by
    refine ⟨htab1.ptr hdp.ptr.2.1 ?_ hdp.ptr, (htab1.kept dp hdp.ptr.2.1).2 hdp.valid, ?_⟩
    · rw [hr1]; exact le_add_single _ _ _ hdp.ptr.2.1
    · rw [hnode1, Function.update_of_ne hij]; exact hdp.node
  refine ⟨j, hwf1, hp1, by rw [hnj]; nofun, fun u w major minor hu hw => ?_⟩
  have hju : Live sb u ip j ⟨type, 0, []⟩ := ⟨hu.ptr, hu.valid, by rw [node_congr sb hu.blk]; exact hnj⟩
  have hdp2 := hdp1.quiet hu.quiet hdp1.ptr.2.1 (by rw [hu.refs]; exact hdp1.ptr.2.1)
  have hpw : Puts sb u w j (some ⟨type, 1, []⟩) := hju.fields hl hu.quiet.wf
    { (u.inode ip).din with major := major, minor := minor, nlink := 1 } ⟨rfl, rfl, rfl⟩ rfl (hw _ rfl)
  have hur : u.refs = s.refs + Pi.single ip 1 := hu.refs.trans hr1
  refine ⟨hpw.wf, ?_, ?_, hpw.live hju, hpw.live_ne hdp2 hij, hij, hj0, hjlt, hfree, ?_, fun hc => ⟨?_, ?_⟩⟩
  · have hle : ∀ k, 0 < R k → 0 < t.refs k := fun k hk => by rw [hr1]; exact le_add_single _ _ _ (hleR k hk)
    refine ((htab1.mono hleR).trans (hu.quiet.tab.mono hle)).trans (hpw.tab.mono fun k hk => ?_)
    rw [hu.refs]; exact hle k hk
  · rw [hpw.refs, hur, hR]
  · rw [hpw.node, node_congr sb hu.blk, hnode1, Function.update_idem]
  · exact (hc.alloc hr1 htab1 hnode1 hu).puts hpw fun h0 => absurd h0 (by simp)
  · -- a reference counted in R would be to the inode that was free
    by_contra h0
    have hpos := hleR ip (Nat.pos_of_ne_zero h0)
    refine hc.alive ip hpos ?_
    rw [← (htab1.kept ip hpos).1, hp1.2.2]; exact hfree

theorem createNew_spec (hl : Layout sb) (h : WF sb s) (hdp : Live sb s dp i n) (hdir : n.type = T_DIR)
    (hR : s.refs = R + Pi.single dp 1) (hty : type ≠ 0) :
    Spec (createNew sb dp name type major minor) s (CreateNewPost sb R type name dp i n s) (Fault P) := by
  have hleR := pos_refs hR
  unfold createNew
  refine Spec.bind (ialloc_spec hl h hty) ?_
  intro r t ht
  cases r with
  | none =>
    have hto : To s t s.blk s.inode := ht
    have hdp1 := hdp.congr hto
    have hr1 : t.refs = R + Pi.single dp 1 := by rw [← hR]; unfold St.refs; rw [hto.inode]
    refine Spec.bind (iunlockput_spec hl (h.congr hto) hdp1.ptr hdp1.valid hr1) ?_
    intro _ u hu
    have hq : Quiet sb R s u := (Quiet.of_to h hto R).trans hu.quiet
    refine Spec.pure ⟨hq.wf, hq.tab, hu.refs, fun hc hw => ?_⟩
    have hc1 := hc.to h hto
    refine ⟨hc1.drop (h.congr hto) hdp1.ptr hr1 hu, ?_⟩
    rw [hu.node_same hc1 (h.congr hto) hdp1.ptr (hw.imp_right fun h0 x hx => ?_), node_congr sb hto.blk]
    rw [hdp1.node] at hx
    cases hx
    exact h0
  | some ip =>
    obtain ⟨j, hwf1, hp1, hj, hfresh⟩ := ht.fresh hl hdp hR
    simp only
    refine Spec.bind (ilock_spec hwf1 hp1 fun h0 => absurd h0 hj) fun _ u hu => ?_
    refine Spec.bind_ok rfl (Spec.bind_ok rfl (Spec.bind iupdate_spec fun _ w hw => ?_))
    exact createFill_spec hl (hfresh u w major minor hu fun v hv => hv ▸ hw) hdir

/-! ## `create` -/

theorem createOld_spec (hl : Layout sb) (h : WF sb s) (hp : Ptr s ip i) (hR : s.refs = R + Pi.single ip 1)
    (hP : s.node sb i = none → P) :
    Spec (createOld sb ip type) s (fun r t => Quiet sb R s t ∧ match r with
      | none => t.refs = R
      | some ip' => ip' = ip ∧ t.refs = R + Pi.single ip 1 ∧ type = T_FILE ∧
          ∃ m, Live sb t ip i m ∧ (m.type = T_FILE ∨ m.type = T_DEVICE)) (Fault P) := by
  unfold createOld
  refine Spec.bind (ilock_spec h hp hP) ?_
  intro _ t ht
  have hq : Quiet sb R s t := ht.quiet.mono (pos_refs hR)
  have hr : t.refs = R + Pi.single ip 1 := ht.refs.trans hR
  have hlive : Live sb t ip i _ := ⟨ht.ptr, ht.valid, ht.quiet.wf.node_ptr ht.ptr ht.valid⟩
  refine Spec.bind_ok rfl ?_
  split_ifs with hty
  · exact Spec.pure ⟨hq, rfl, hr, hty.1, _, hlive, hty.2⟩
  · refine Spec.bind (iunlockput_spec hl ht.quiet.wf ht.ptr ht.valid hr) ?_
    intro _ u hu
    exact Spec.pure ⟨hq.trans hu.quiet, hu.refs⟩

/-- a new directory does not make the link count of its parent wrap -/
def Roomy (sb : Superblock) (s : St) (p : ℕ) (path : List UInt8) (type : UInt16) : Prop :=
  type = T_DIR → ∀ i name n, s.walk sb p path true = some (i, name) → s.node sb i = some n → n.nlink + 1 ≠ 0

/-- what `create` does to the tree when it returns inode j as m -/
inductive CreateDone (sb : Superblock) (p : ℕ) (path : List UInt8) (type : UInt16) (s t : St) (j : ℕ) (m : Node) :
    Prop where
  | old (hty : type = T_FILE) (hm : m.type = T_FILE ∨ m.type = T_DEVICE)
      (tree : Calm sb s → Calm sb t ∧ t.node sb = s.node sb)
  | new (i k : ℕ) (name : List UInt8) (n : Node) (hm : m = newNode type j i)
      (tree : Calm sb s → Roomy sb s p path type →
        Calm sb t ∧ s.walk sb p path true = some (i, name) ∧ Created sb type name (s.node sb) (t.node sb) i j k n)

/-- what `create` can return -/
def CreatePost (sb : Superblock) (p : ℕ) (path : List UInt8) (type : UInt16) (s : St) : Option ℕ → St → Prop :=
  NewPost sb s.refs s (fun t => Calm sb s → Calm sb t ∧ t.node sb = s.node sb)
    fun ip t => ∃ j m, Live sb t ip j m ∧ CreateDone sb p path type s t j m

/-- inode i has been looked up and locked: ip is a new reference to it -/
structure Found (sb : Superblock) (ip i : ℕ) (n : Node) (s t : St) : Prop where
  quiet : Quiet sb s.refs s t
  refs : t.refs = s.refs + Pi.single ip 1
  live : Live sb t ip i n
  node : s.node sb i = some n
  calm : Calm sb s → Calm sb t
  held : Calm sb s → 0 < s.refs ip ∨ n.nlink ≠ 0

theorem Found.of (hq : Quiet sb s.refs s t) (hr : t.refs = s.refs + Pi.single ip 1) (hl : Live sb t ip i n) :
    Found sb ip i n s t := by
  have hnode : s.node sb i = some n := by
    rcases hq.node i with h1 | ⟨h1, -, -⟩
    · rw [← h1]; exact hl.node
    · rw [hl.node] at h1; cases h1
  refine ⟨hq, hr, hl, hnode, fun hc => hc.take hq hr ?_, fun hc => ?_⟩
  · rw [hl.ptr.2.2, hl.node]; nofun
  by_cases h0 : n.nlink = 0
  · obtain ⟨k, hk, hki, -⟩ := hc.held i n hnode h0
    have hp : Ptr t k i := ⟨hq.wf.bound k (pos_refs hr _ hk),
      by rw [hr]; exact le_add_single _ _ _ hk, (hq.tab.kept k hk).1.trans hki⟩
    rw [← hq.wf.unique k ip i hp hl.ptr]; exact Or.inl hk
  · exact Or.inr h0

/-- the directory in which a path ends, found by `nameiparent` and locked; w is the walk -/
structure Parent (sb : Superblock) (w : Option (ℕ × List UInt8)) (dp i : ℕ) (n : Node) (name : List UInt8) (s t : St) :
    Prop where
  quiet : Quiet sb s.refs s t
  refs : t.refs = s.refs + Pi.single dp 1
  live : Live sb t dp i n
  dir : n.type = T_DIR
  node : s.node sb i = some n
  walk : Calm sb s → w = some (i, name)
  calm : Calm sb s → Calm sb t
  held : Calm sb s → 0 < s.refs dp ∨ n.nlink ≠ 0

theorem NamexPost.parent {w : Option (ℕ × List UInt8)} {i0 : ℕ}
    (h : NamexPost sb s.refs true i0 w s (some (dp, name)) t) :
    ∃ i n, Live sb t dp i n ∧ ∀ u, Loaded sb dp i t u → Parent sb w dp i n name s u := by
  obtain ⟨hq, i, hptr, hr, hdir, hwalk, -⟩ := h
  obtain ⟨n, hlive, hdir⟩ := hdir rfl
  refine ⟨i, n, hlive, fun u hu => ?_⟩
  have hle := pos_refs hr
  have hf := Found.of (hq.trans (hu.quiet.mono hle)) (hu.refs.trans hr)
    (hlive.quiet hu.quiet hlive.ptr.2.1 (by rw [hu.refs]; exact hlive.ptr.2.1))
  exact ⟨hf.quiet, hf.refs, hf.live, hdir, hf.node, fun hc => hwalk hc.held, hf.calm, hf.held⟩

/-- an entry that leads to a free inode -/
theorem Sure.entry (hs : Sure sb s.refs s) (hq : Quiet sb s.refs s t) (hn : s.node sb i = some n)
    (hdir : n.type = T_DIR)
    {k : ℕ} (hk : k < n.bytes.length / DESIZE) (h0 : (entry n.bytes k).inum ≠ 0) :
    t.node sb (entry n.bytes k).inum ≠ none := by
  rw [hs.node hq]
  exact hs.named i n hn hdir _ (mem_entries.2 ⟨k, hk, rfl⟩) h0

theorem create_spec (hl : Layout sb) (h : WF sb s) {p : ℕ} {path : List UInt8}
    (hcwd : ∃ k i, (s.proc p).cwd = some k ∧ Ptr s k i)
    (hP : ¬ (Sure sb s.refs s ∧ s.node sb (startInum s p path) ≠ none) → P) (hty : type ≠ 0) :
    Spec (create sb p path type major minor) s (CreatePost sb p path type s) (Fault P) := by
  unfold create nameiparent
  refine Spec.bind (namex_spec hl h hcwd hP) ?_
  rintro r t ht
  cases r with
  | none =>
    obtain ⟨hq, hr⟩ := ht
    exact Spec.pure ⟨hq.wf, hq.tab, hr.1, fun hc => ⟨hc.quiet hq hr.1, hc.held.node hq⟩⟩
  | some x =>
    obtain ⟨dp, name⟩ := x
    obtain ⟨i, n, hlive, hpar⟩ := ht.parent
    simp only
    refine Spec.bind (ilock_spec ht.1.wf hlive.ptr fun h0 => by rw [hlive.node] at h0; cases h0) ?_
    intro _ u hu
    have hpar := hpar u hu
    have hwf := hpar.quiet.wf
    refine Spec.bind (dirlookup_spec hwf hpar.live hpar.dir) ?_
    intro r v hv
    cases r with
    | none =>
      obtain ⟨hto, -⟩ := hv
      have hrv : v.refs = s.refs + Pi.single dp 1 := by rw [← hpar.refs]; unfold St.refs; rw [hto.inode]
      have hqv := hpar.quiet.trans (Quiet.of_to hwf hto s.refs)
      refine Spec.post (createNew_spec hl hqv.wf (hpar.live.congr hto) hpar.dir hrv hty) ?_
      rintro r w ⟨hww, htab, hr⟩
      refine ⟨hww, hqv.tab.trans htab, ?_⟩
      cases r with
      | none =>
        refine ⟨hr.1, fun hc => ?_⟩
        obtain ⟨h1, h2⟩ := hr.2 ((hpar.calm hc).to hwf hto) (hpar.held hc)
        exact ⟨h1, h2.trans (hc.held.node hqv)⟩
      | some ip =>
        obtain ⟨hr, j, k, hmade⟩ := hr
        refine ⟨hr, j, _, hmade.live, .new i k name n rfl fun hc hroom => ?_⟩
        have hwrap : 0 < s.refs dp ∨ (n.linked k name type j).nlink ≠ 0 := by
          unfold Node.linked
          split_ifs with htd
          · exact Or.inr (hroom htd i name n (hpar.walk hc) hpar.node)
          · exact hpar.held hc
        obtain ⟨h1, h2⟩ := hmade.tree ((hpar.calm hc).to hwf hto) hwrap
        rw [hc.held.node hqv] at h2
        exact ⟨h1, hpar.walk hc, h2⟩
    | some x =>
      obtain ⟨ip, off⟩ := x
      obtain ⟨k, hk, -, hit, -, hv⟩ := hv
      have hle := pos_refs hpar.refs
      have hrv : v.refs = s.refs + Pi.single ip 1 + Pi.single dp 1 := by rw [hv.refs, hpar.refs, add_right_comm]
      have hdp := hpar.live.ptr.2.1
      have hlv := hpar.live.quiet hv.quiet hdp (pos_refs hv.refs _ hdp)
      simp only
      refine Spec.bind (iunlockput_spec hl hv.quiet.wf hlv.ptr hlv.valid hrv) ?_
      intro _ w hw
      have hqw : Quiet sb s.refs s w :=
        (hpar.quiet.trans (hv.quiet.mono hle)).trans (hw.quiet.mono (le_add_single s.refs ip))
      have hptr : Ptr w ip (entry n.bytes k).inum :=
        hw.quiet.tab.ptr (single_pos _ ip) (by rw [hw.refs]; exact single_pos _ ip) hv.ptr
      refine Spec.post (createOld_spec hl hw.quiet.wf hptr hw.refs fun h0 => hP fun ⟨hs, _⟩ =>
        hs.entry hqw hpar.node hpar.dir hk hit.1 h0) ?_
      rintro r y ⟨hqy, hr⟩
      have hq := hqw.trans hqy
      refine ⟨hq.wf, hq.tab, ?_⟩
      cases r with
      | none => exact ⟨hr, fun hc => ⟨hc.quiet hq hr, hc.held.node hq⟩⟩
      | some ip' =>
        obtain ⟨rfl, hr, htf, m, hm, hmt⟩ := hr
        refine ⟨hr, _, m, hm, .old htf hmt fun hc => ⟨hc.take hq hr ?_, hc.held.node hq⟩⟩
        rw [hm.ptr.2.2, hm.node]; nofun

end Xv6.Fs
