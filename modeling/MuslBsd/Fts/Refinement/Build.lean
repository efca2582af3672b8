import MuslBsd.Fts.Refinement.Node

/-! `fts_build` over the heap and over lists, in lockstep. -/
namespace MuslBsd.Fts
open MuslBsd.Support Traced

variable {ω : Type}

/-- The same pointers; the heap and the system may have changed. -/
structure SamePtrs (st st' : St ω) : Prop where
  cur : st'.cur = st.cur
  child : st'.child = st.child

theorem Aside.ptrs {st st' : St ω} (h : Aside st st') : SamePtrs st st' := ⟨h.cur, h.child⟩

theorem SamePtrs.trans {st st' st'' : St ω} (h : SamePtrs st st') (h' : SamePtrs st' st'') :
    SamePtrs st st'' :=
  ⟨h'.cur.trans h.cur, h'.child.trans h.child⟩

/-- The nodes while `fts_build` reads a directory: the new list, the current path, the parent of
the roots and what was left behind. -/
def loopNodes (z : Walk) (r : Ftsent) (a : Walk.Acc) : List Ftsent :=
  a.head ++ (a.frames.flatMap Frame.nodes ++ r :: z.leaked)

/-- The heap while `fts_build` reads the directory `C.cur`; `x` is what is not yet in the list. -/
structure Loop (st : St ω) (z : Walk) (r : Ftsent) (C : BuildCtx) (x : List Ftsent) (a : Walk.Acc) :
    Prop where
  owns : Nodes st.heap (x ++ loopNodes z r a)
  fresh : ∀ n ∈ x ++ loopNodes z r a, n.addr < st.sys.next
  chain : Chained a.head
  head : ∀ k ∈ a.head, Below st.sys.path.addr r a.frames k
  path : Path st.sys.path.addr r a.frames
  root : r.level = rootParentLevel
  dead : ∀ d, z.freed = some d → Dead st.sys.next (x ++ loopNodes z r a) d
  child : st.child = z.freed
  cur : parentAddr r a.frames = C.cur
  level : C.level = a.frames.length
  inside : a.frames ≠ []

/-- The counters and pointers of the two levels agree. -/
structure SameAcc (b : BuildSt) (a : Walk.Acc) : Prop where
  head : b.head = headAddr a.head
  tail : b.tail = a.head.getLast?.map Ftsent.addr
  nitems : b.nitems = a.head.length
  nlinks : b.nlinks = a.nlinks
  maxlen : b.maxlen = a.maxlen

variable {E : Env ω} {st : St ω} {z : Walk} {r : Ftsent} {C : BuildCtx} {x : List Ftsent}
  {a : Walk.Acc} {b : BuildSt}

theorem Loop.length_le (h : Loop st z r C x a) : (x ++ loopNodes z r a).length ≤ st.sys.next :=
  h.owns.length_le h.fresh

theorem Loop.ground (h : Loop st z r C x a) :
    Ground (loopNodes z r a) st.sys.path.addr st.sys.next r a.frames where
  path := h.path
  root := h.root
  mem_root := by simp [loopNodes]
  mem n hn := List.mem_append_right _ (List.mem_append_left _ (pathNodes_subset hn))
  len := by
    have hl := h.length_le
    have := length_le_nodes a.frames
    simp only [loopNodes, List.length_append, List.length_cons] at hl
    omega

/-- The same pointers, the same anchors and other contents. -/
theorem Loop.of_aside {u : St ω} {y : List Ftsent} {a' : Walk.Acc} (h : Loop st z r C x a)
    (hs : Aside st u) (ho : Nodes u.heap (y ++ loopNodes z r a'))
    (hn : (y ++ loopNodes z r a').map Ftsent.addr ⊆ (x ++ loopNodes z r a).map Ftsent.addr)
    (hc : Chained a'.head) (hh : ∀ k ∈ a'.head, Below st.sys.path.addr r a'.frames k)
    (hp : Path st.sys.path.addr r a'.frames) (hcur : parentAddr r a'.frames = C.cur)
    (hl : a'.frames.length = a.frames.length) : Loop u z r C y a' where
  owns := ho
  fresh := by
    rw [hs.next]
    exact fresh_of_subset hn h.fresh
  chain := hc
  head := by rw [hs.addr]; exact hh
  path := by rw [hs.addr]; exact hp
  root := h.root
  dead d hd := by
    rw [hs.next]
    exact (h.dead d hd).of_subset hn
  child := hs.child.trans h.child
  cur := hcur
  level := h.level.trans (by rw [hl])
  inside := by
    intro h0
    rw [h0] at hl
    exact h.inside (List.length_eq_zero_iff.mp hl.symm)

theorem Loop.trail (h : Loop st z r C x a) :
    Trail r.addr (a.head ++ a.frames.flatMap Frame.nodes) := by
  obtain ⟨f, up, hf⟩ := List.exists_cons_of_ne_nil h.inside
  have ht := h.path.trail
  have hh := Trail.of_chained h.chain fun k hk => (h.head k hk).parent
  rw [hf] at ht hh ⊢
  rw [List.flatMap_cons] at ht ⊢
  exact Trail.append hh ht

/-- `fts_padjust` finds every node of the new list and of the current path. -/
theorem padjust_run {st' : St ω} (m : ℕ) (h : Loop st z r C x a) (hz : z.freed = none)
    (hs : SamePtrs st st') (hn : st'.sys.next = st.sys.next)
    (ho : Nodes st'.heap (x ++ loopNodes z r a)) :
    ∃ h', Runs (ftsPadjust (headAddr a.head <|> some C.cur) : M ω Unit) st' () h' ∧
      Nodes h' (x ++ loopNodes z r (a.move st'.sys.path.addr m)) := by
  have hperm : ∀ hd fs : List Ftsent, (x ++ (hd ++ (fs ++ r :: z.leaked))).Perm
      (hd ++ fs ++ (x ++ r :: z.leaked)) := fun hd fs => by
    simpa only [List.append_assoc] using List.perm_append_comm_assoc x (hd ++ fs) (r :: z.leaked)
  have hlev : ∀ n ∈ a.head ++ a.frames.flatMap Frame.nodes, rootLevel ≤ n.level := by
    intro n hn
    rcases List.mem_append.mp hn with hn | hn
    · rw [(h.head n hn).level]
      exact Int.natCast_nonneg _
    · exact h.path.level_nonneg n hn
  have hlen : (a.head ++ a.frames.flatMap Frame.nodes).length < st'.sys.next + 1 := by
    have := h.length_le
    simp only [loopNodes, List.length_append, List.length_cons] at this
    rw [hn, List.length_append]
    omega
  have hstart : (headAddr a.head <|> some C.cur) =
      some ((headAddr (a.head ++ a.frames.flatMap Frame.nodes)).getD r.addr) := by
    obtain ⟨f, up, hf⟩ := List.exists_cons_of_ne_nil h.inside
    have hc := h.cur
    rw [hf] at hc ⊢
    cases a.head <;> simp [Frame.nodes, ← hc, parentAddr]
  obtain ⟨h', hrun, ho'⟩ := adjustUp_run st'.sys.path.addr r (rootParent_lt h.root) _ _
    (st'.sys.next + 1) st' h.trail (ho.perm (hperm _ _)) (by simp) hlev hlen
  refine ⟨h', ?_, ho'.perm ?_⟩
  · have hchild : st'.child = none := (hs.child.trans h.child).trans hz
    refine .bind (x := st'.sys) (h := st'.heap) rfl (.bind (x := st'.sys.next + 1) (h := st'.heap) rfl
      (.bind (x := none) (h := st'.heap) (by simp only [Runs, getChild, Faulting.gets, hchild])
        (.bind (x := ()) (h := st'.heap) rfl ?_)))
    rw [hstart]
    exact hrun
  · rw [List.map_append, ← flatMap_nodes_adjust]
    exact (hperm _ _).symm

/-- `fts_padjust` after the pending list has been released. -/
theorem padjust_dead {st' : St ω} {d : NodeId} (hc : st'.child = some d) (hd : st'.heap d = none)
    (head : Option NodeId) : Faults (ftsPadjust head : M ω Unit) st' :=
  .after (x := st'.sys) (h := st'.heap) rfl (.after (x := st'.sys.next + 1) (h := st'.heap) rfl
    (.after (x := some d) (h := st'.heap) (by simp only [Runs, getChild, Faulting.gets, hc])
      (Faults.bind (Faults.bind (faults_load hd)))))

theorem loopNodes_move (z : Walk) (r : Ftsent) (a : Walk.Acc) (base m : ℕ) :
    (loopNodes z r (a.move base m)).map Ftsent.addr = (loopNodes z r a).map Ftsent.addr := by
  simp only [loopNodes, Walk.Acc.move, flatMap_nodes_adjust, List.map_append, List.map_map]
  rfl

theorem Loop.move {st' : St ω} {m : ℕ} (h : Loop st z r C x a) (hs : SamePtrs st st')
    (hn : st'.sys.next = st.sys.next)
    (ho : Nodes st'.heap (x ++ loopNodes z r (a.move st'.sys.path.addr m))) :
    Loop st' z r C x (a.move st'.sys.path.addr m) where
  owns := ho
  fresh := by
    rw [hn]
    exact fresh_of_subset (by rw [List.map_append, loopNodes_move, ← List.map_append]; exact fun _ => id)
      h.fresh
  chain := h.chain.map fun _ => ⟨rfl, rfl⟩
  head k hk := by
    obtain ⟨m, hm, rfl⟩ := List.mem_map.mp hk
    exact (h.head m hm).adjust
  path := h.path.adjust
  root := h.root
  dead d hd := by
    rw [hn]
    exact (h.dead d hd).of_subset
      (by rw [List.map_append, loopNodes_move, ← List.map_append]; exact fun _ => id)
  child := hs.child.trans h.child
  cur := by
    rw [← h.cur]
    obtain ⟨f, up, hf⟩ := List.exists_cons_of_ne_nil h.inside
    rw [Walk.Acc.move, hf]
    rfl
  level := by
    rw [h.level]
    simp [Walk.Acc.move]
  inside h0 := h.inside (List.map_eq_nil_iff.mp h0)

/-- The loop goes on in `st'`, where only the path buffer is not what it was. -/
theorem Loop.of_sys {st' : St ω} (h : Loop st z r C x a) (hs : Aside st st')
    (hh : st'.heap = st.heap) : Loop st' z r C x a :=
  h.of_aside hs (hh ▸ h.owns) (fun _ => id) h.chain h.head h.path h.cur rfl

/-- The loop depends on the accumulator by its nodes, and on the context by the directory and the
level of the entries. -/
theorem Loop.cast {C' : BuildCtx} {a' : Walk.Acc} (h : Loop st z r C x a) (hh : a'.head = a.head)
    (hf : a'.frames = a.frames) (hc : C'.cur = C.cur) (hl : C'.level = C.level) :
    Loop st z r C' x a' := by
  obtain ⟨fs, hd, nl, ml⟩ := a
  obtain ⟨fs', hd', nl', ml'⟩ := a'
  obtain rfl : hd' = hd := hh
  obtain rfl : fs' = fs := hf
  exact ⟨h.owns, h.fresh, h.chain, h.head, h.path, h.root, h.dead, h.child, h.cur.trans hc.symm,
    hl.trans h.level, h.inside⟩

theorem SameAcc.move (h : SameAcc b a) (base m : ℕ) :
    SameAcc { b with maxlen := m } (a.move base m) where
  head := h.head.trans (headAddr_map (g := adjust base) (fun _ => rfl) _).symm
  tail := by
    rw [h.tail]
    simp only [Walk.Acc.move, List.getLast?_map, Option.map_map]
    rfl
  nitems := h.nitems.trans (List.length_map ..).symm
  nlinks := h.nlinks
  maxlen := rfl

theorem growPath_lock {dnamlen : ℕ} (hb : SameAcc b a) (h : Loop st z r C x a) :
    Lock (growPath E C b dnamlen) (Walk.growPath E C.len z.freed a dnamlen) st
      fun xb st' ya => xb.1 = ya.1 ∧ SamePtrs st st' ∧ st'.sys.next = st.sys.next ∧
        SameAcc xb.2 ya.2 ∧ Loop st' z r C x ya.2 := by
  unfold Fts.growPath Walk.growPath
  rw [hb.maxlen]
  refine sim_ite (fun _ => ?_) fun _ => lock_pure ⟨rfl, ⟨rfl, rfl⟩, rfl, hb, h⟩
  have hnext : Keeps Sys.next (ftsPalloc E (dnamlen + C.len + 1)) := keeps_palloc fun _ _ _ _ _ => rfl
  refine lock_get (lock_sys ?_)
  refine sim_ite (fun hf => lock_pure ⟨rfl, ⟨rfl, rfl⟩, hnext _, hb, ?_⟩) fun _ => lock_get ?_
  · exact h.of_sys ⟨rfl, rfl, Prod.ext (congrArg PathBuf.addr (palloc_failed _ hf)) (hnext _)⟩ rfl
  · generalize hst₁ : ({ st with sys := out (ftsPalloc E (dnamlen + C.len + 1)) st.sys } : St ω) = st₁
    have hs₁ : SamePtrs st st₁ := by subst hst₁; exact ⟨rfl, rfl⟩
    have hn₁ : st₁.sys.next = st.sys.next := by subst hst₁; exact hnext _
    have hh₁ : st₁.heap = st.heap := by subst hst₁; rfl
    clear hst₁
    by_cases hm : st.sys.path.addr ≠ st₁.sys.path.addr
    · simp only [if_pos hm]
      cases hz : z.freed with
      | none =>
        have hrun := padjust_run (roomLeft st₁.sys C.len) h hz hs₁ hn₁ (hh₁ ▸ h.owns)
        rw [← hb.head] at hrun
        refine lock_right (fun _ => rfl) (fun _ => rfl) (lock_runs hrun fun st₂ h₂ hs₂ ho₂ => ?_)
        rw [← hs₂] at ho₂ ⊢
        have hs := hs₁.trans h₂.ptrs
        have hn := h₂.next.trans hn₁
        refine lock_pure ?_
        dsimp only
        exact ⟨rfl, hs, hn, hb.move _ _, h.move hs hn ho₂⟩
      | some d =>
        have hd : st₁.heap d = none := by
          rw [hh₁]
          exact h.owns.eq_none (h.dead d hz).2
        exact sim_fault (Faults.bind (padjust_dead (hs₁.child.trans (h.child.trans hz)) hd _))
          (List.mem_append_left _ (List.mem_singleton.mpr rfl)) rfl
    · simp only [if_neg hm]
      refine sim_silent (x := ()) (u := st₁) rfl rfl (lock_pure ?_)
      dsimp only
      refine ⟨rfl, hs₁, hn₁, ?_, ?_⟩
      · exact ⟨hb.head, hb.tail, hb.nitems, hb.nlinks, rfl⟩
      · exact (h.of_sys ⟨hs₁.cur, hs₁.child, Prod.ext (not_not.mp hm).symm hn₁⟩ hh₁).cast rfl rfl rfl rfl

/-- The entry `p` is under construction beside the list. -/
theorem buildInfo_lock {p : Ftsent} {type : DType} (hb : SameAcc b a) (h : Loop st z r C [p] a)
    (hp : p.parent = some C.cur) (hl : p.level = C.level) (hpath : p.path = st.sys.path.addr) :
    Lock (buildInfo E C b p.addr type) (Walk.buildInfo E C a.frames a.nlinks p type) st
      fun b' st' qn => Aside st st' ∧ Nodes st'.heap (qn.1 :: loopNodes z r a) ∧
        qn.1.addr = p.addr ∧ Below st.sys.path.addr r a.frames qn.1 ∧
        b' = { b with nlinks := qn.2 } := by
  have ho : Nodes st.heap (p :: loopNodes z r a) := h.owns
  have hbelow : ∀ q : Ftsent, q.addr = p.addr → q.parent = p.parent → q.level = p.level →
      q.path = p.path → (∀ i, q.accpath = .name i → i ∈ (q :: pathNodes a.frames).map Ftsent.addr) →
      Below st.sys.path.addr r a.frames q := fun q _ h2 h3 h4 h5 =>
    ⟨h2.trans (hp.trans (by rw [h.cur])), h3.trans (hl.trans h.level), h4.trans hpath, h5⟩
  unfold Fts.buildInfo Walk.buildInfo
  rw [hb.nlinks]
  refine lock_opts (sim_ite (fun _ => ?_) fun _ => sim_ite (fun _ => ?_) fun _ => ?_)
  · obtain ⟨f, up, hf⟩ := List.exists_cons_of_ne_nil h.inside
    have hcur : f.node.addr = C.cur := by
      have := h.cur
      rwa [hf] at this
    have hmem : f.node ∈ loopNodes z r a := by simp [loopNodes, hf, Frame.nodes]
    have hq := hbelow { p with
        info := if a.nlinks ≠ 0 then .ns else .nsok
        errno := C.cderrno
        accpath := f.node.accpath } rfl rfl rfl rfl fun i hi => by
      have hpath := h.path
      rw [hf] at hpath ⊢
      exact List.mem_cons_of_mem _ ((hpath.2.1 f.node (by simp [Frame.nodes])).acc i hi)
    refine lock_load (hcur ▸ ho.get (List.mem_cons_of_mem _ hmem))
      (lock_update ho rfl rfl fun st₁ h₁ hs₁ ho₁ => lock_pure ?_)
    rw [hf] at hq ⊢
    exact ⟨h₁, ho₁, rfl, hq, by rw [← hb.nlinks]⟩
  · refine lock_update ho rfl rfl fun st₁ h₁ hs₁ ho₁ => lock_pure ?_
    dsimp only
    refine ⟨h₁, ho₁, rfl, hbelow _ rfl rfl rfl rfl fun i hi => ?_, by rw [← hb.nlinks]⟩
    dsimp only at hi
    split at hi
    · cases hi
    · exact List.mem_cons.mpr (.inl (AccPath.name.inj hi).symm)
  · have hg : ∀ st', Aside st st' → Ground (loopNodes z r a) st.sys.path.addr st'.sys.next r a.frames :=
      fun st' h' => by rw [h'.next]; exact h.ground
    refine sim_bind (p := fun i st' iq => i = iq.1 ∧ Aside st st' ∧
      Nodes st'.heap (iq.2 :: loopNodes z r a) ∧ iq.2.addr = p.addr ∧
      Below st.sys.path.addr r a.frames iq.2) (sim_ite (fun _ => ?_) fun _ => ?_) ?_
    · refine lock_update ho rfl rfl fun st₁ h₁ hs₁ ho₁ => lock_load ho₁.head
        (lock_keeps (anchors_of_fixed fixed_storePath) fun _ st₂ h₂ hh₂ => ?_)
      have hb₂ := hbelow { p with accpath := .buf p.path } rfl rfl rfl rfl fun i hi => by cases hi
      refine (stat_lock false (some C.fd) (hh₂ ▸ ho₁) (hg _ (h₁.trans h₂)) hb₂).mono ?_
      rintro i st₃ ⟨i', q⟩ ⟨hi, h₃, ho₃, hq⟩
      exact ⟨hi, (h₁.trans h₂).trans h₃, ho₃, (place_ext.mp hq).1, hb₂.congr hq⟩
    · refine lock_update ho rfl rfl fun st₁ h₁ hs₁ ho₁ => ?_
      have hb₁ := hbelow { p with accpath := .name p.addr } rfl rfl rfl rfl fun i hi =>
        List.mem_cons.mpr (.inl (AccPath.name.inj hi).symm)
      refine (stat_lock false none ho₁ (hg _ h₁) hb₁).mono ?_
      rintro i st₂ ⟨i', q⟩ ⟨hi, h₂, ho₂, hq⟩
      exact ⟨hi, h₁.trans h₂, ho₂, (place_ext.mp hq).1, hb₁.congr hq⟩
    · rintro i st₁ ⟨_, q⟩ ⟨rfl, h₁, ho₁, hq, hb₁⟩ - -
      dsimp only at ho₁ hq hb₁ ⊢
      refine lock_update ho₁ hq rfl fun st₂ h₂ hs₂ ho₂ => lock_pure ?_
      dsimp only
      exact ⟨h₁.trans h₂, ho₂, hq, hb₁.congr rfl, rfl⟩

theorem buildLink_run {p : Ftsent} {others : List Ftsent} (hb : SameAcc b a) (hc : Chained a.head)
    (ho : Nodes st.heap (p :: (a.head ++ others))) :
    ∃ h', Runs (buildLink b p.addr) st
        { b with head := headAddr (relink (a.head ++ [p])), tail := some p.addr, nitems := b.nitems + 1 }
        h' ∧ Nodes h' (relink (a.head ++ [p]) ++ others) := by
  have ho₁ := ho.store (z := { p with link := none }) rfl
  have hhead := hb.head
  have htail := hb.tail
  rcases List.eq_nil_or_concat a.head with h0 | ⟨l, t, h0⟩
  · rw [h0] at hhead htail ho₁ ⊢
    refine ⟨_, .bind (runs_update ho.head _) ?_, ho₁⟩
    rw [htail]
    exact runs_pure _
  · rw [List.concat_eq_append] at h0
    rw [h0] at hhead htail ho₁ hc ⊢
    have ho₂ := (ho₁.perm (p := t :: (l ++ { p with link := none } :: others)) (by
      simpa using (@List.perm_middle _ t ({ p with link := none } :: l) others).trans
        (.cons _ List.perm_middle.symm))).store (z := { t with link := some p.addr }) rfl
    refine ⟨_, .bind (runs_update ho.head _) ?_, ho₂.perm ?_⟩
    · have ht : b.tail = some t.addr := by rw [htail]; simp
      have hh : b.head = headAddr (relink (l ++ [t] ++ [p])) := by
        rw [hhead, headAddr_relink]
        cases l <;> rfl
      rw [ht]
      refine .bind (runs_update (n := t) ?_ _) (by rw [← hh]; exact runs_pure _)
      exact ho₁.get (by simp)
    · rw [List.append_assoc, List.cons_append, List.nil_append, relink_append_of_chained t [p] hc]
      simp only [relink, headAddr_cons, headAddr_nil, List.append_assoc, List.cons_append,
        List.nil_append]
      exact List.perm_middle.symm

/-- The accumulator after a failure: no list, and the directory is an error. -/
def Walk.Acc.failed (a : Walk.Acc) : Walk.Acc :=
  { a with head := [], frames := Walk.mapCur (fun n => { n with info := .err }) a.frames }

theorem mapCur_place {g : Ftsent → Ftsent} (hg : ∀ n, (g n).place = n.place) {base : ℕ}
    {fs : List Frame} (h : Path base r fs) :
    Path base r (Walk.mapCur g fs) ∧ parentAddr r (Walk.mapCur g fs) = parentAddr r fs ∧
      (Walk.mapCur g fs).length = fs.length ∧
      ((Walk.mapCur g fs).flatMap Frame.nodes).map Ftsent.addr =
        (fs.flatMap Frame.nodes).map Ftsent.addr := by
  cases fs with
  | nil => exact ⟨h, rfl, rfl, rfl⟩
  | cons f up =>
    have ha : (g f.node).addr = f.node.addr := (place_ext.mp (hg f.node)).1
    exact ⟨h.congr (hg f.node), ha, rfl, by simp [Walk.mapCur, Frame.nodes, ha]⟩

/-- Changing the directory that is being read. -/
theorem mapCur_run {g : Ftsent → Ftsent} (hg : ∀ n, (g n).place = n.place)
    (h : Loop st z r C x a) :
    ∃ h', Runs (update C.cur g) st () h' ∧
      Loop { st with heap := h' } z r C x { a with frames := Walk.mapCur g a.frames } := by
  obtain ⟨hp, hc, hl, hn⟩ := mapCur_place hg h.path
  obtain ⟨f, up, hf⟩ := List.exists_cons_of_ne_nil h.inside
  have hcur : f.node.addr = C.cur := by
    have := h.cur
    rwa [hf] at this
  have hperm : ∀ m : Ftsent, (x ++ (a.head ++ ((⟨m, f.rest⟩ :: up : List Frame).flatMap Frame.nodes ++
      r :: z.leaked))).Perm
      (m :: (x ++ (a.head ++ (f.rest ++ (up.flatMap Frame.nodes ++ r :: z.leaked))))) := fun m => by
    simpa [Frame.nodes] using @List.perm_middle _ m (x ++ a.head)
      (f.rest ++ (up.flatMap Frame.nodes ++ r :: z.leaked))
  have ho : Nodes st.heap (f.node :: (x ++ (a.head ++ (f.rest ++
      (up.flatMap Frame.nodes ++ r :: z.leaked))))) := by
    refine h.owns.perm ?_
    rw [loopNodes, hf]
    exact hperm f.node
  have ho' := (ho.store (z := g f.node) (place_ext.mp (hg f.node)).1).perm (hperm (g f.node)).symm
  have hrun := runs_update ho.head g
  rw [hcur] at hrun ho'
  refine ⟨_, hrun, h.of_aside ⟨rfl, rfl, rfl⟩ ?_ ?_ h.chain ?_ hp (hc.trans h.cur) hl⟩
  · rw [loopNodes, hf]
    exact ho'
  · simp only [loopNodes, List.map_append, hn]
    exact fun _ => id
  · intro k hk
    refine (h.head k hk).congr_up ?_
    rw [hf]
    simp [Walk.mapCur, pathNodes, (place_ext.mp (hg f.node)).1]

theorem buildFail_lock (hb : SameAcc b a) (h : Loop st z r C [] a) :
    Lock (buildFail E C b.head) (Walk.buildFail E C.fd) st fun _ st' _ =>
      SamePtrs st st' ∧ Loop st' z r C [] a.failed := by
  unfold Fts.buildFail Walk.buildFail
  have hlen : a.head.length ≤ st.sys.next + 1 := by
    have := h.length_le
    simp only [loopNodes, List.nil_append, List.length_append] at this
    omega
  refine lock_errno (sim_silent (x := st.sys.next + 1) (u := st) rfl rfl ?_)
  rw [hb.head]
  refine lock_runs (lfree_run _ a.head _ st h.chain h.owns hlen) fun st₁ h₁ hs₁ ho₁ => ?_
  refine lock_keeps (keeps_anchors keeps_callClosedir) fun _ st₂ h₂ hh₂ => ?_
  have hl₂ : Loop st₂ z r C [] { a with head := [] } := by
    refine h.of_aside (h₁.trans h₂) (hh₂ ▸ ho₁) ?_ trivial (by simp) h.path h.cur rfl
    simp [loopNodes]
  obtain ⟨h', hrun, hl₃⟩ := mapCur_run (g := fun n => { n with info := .err }) (fun _ => rfl) hl₂
  refine sim_silent hrun rfl (lock_keeps (anchors_of_fixed fixed_setStop) fun _ st₄ h₄ hh₄ => ?_)
  have hl₄ : Loop st₄ z r C [] a.failed := hl₃.of_sys h₄ hh₄
  exact lock_keeps_last (keeps_anchors keeps_setErrno) fun _ st₅ h₅ hh₅ =>
    ⟨(h₁.trans h₂).ptrs.trans ⟨(h₄.trans h₅).cur, (h₄.trans h₅).child⟩, hl₄.of_sys h₅ hh₅⟩

/-- A new node beside the list. -/
theorem Loop.alloc {st' : St ω} {p : Ftsent} (h : Loop st z r C [] a) (hs : SamePtrs st st')
    (hb : st'.sys.path.addr = st.sys.path.addr) (hn : st'.sys.next = st.sys.next + 1)
    (hp : p.addr = st.sys.next) (ho : Nodes st'.heap (p :: loopNodes z r a)) :
    Loop st' z r C [p] a where
  owns := ho
  fresh n hm := by
    rcases List.mem_cons.mp hm with rfl | hm
    · rw [hn, hp]
      exact Nat.lt_succ_self _
    · rw [hn]
      exact (h.fresh n hm).trans (Nat.lt_succ_self _)
  chain := h.chain
  head := by rw [hb]; exact h.head
  path := by rw [hb]; exact h.path
  root := h.root
  dead d hd := by
    obtain ⟨h1, h2⟩ := h.dead d hd
    refine ⟨hn ▸ h1.trans (Nat.lt_succ_self _), fun n hm => ?_⟩
    rcases List.mem_cons.mp hm with rfl | hm
    · rw [hp]
      exact h1.ne'
    · exact h2 n hm
  child := hs.child.trans h.child
  cur := h.cur
  level := h.level
  inside := h.inside

/-- The new node joins the list. -/
theorem Loop.link {st' : St ω} {p q : Ftsent} {nl : ℤ} (h : Loop st z r C [p] a)
    (hs : Aside st st') (hq : q.addr = p.addr) (hb : Below st.sys.path.addr r a.frames q)
    (ho : Nodes st'.heap (relink (a.head ++ [q]) ++ (a.frames.flatMap Frame.nodes ++ r :: z.leaked))) :
    Loop st' z r C [] { a with head := relink (a.head ++ [q]), nlinks := nl } := by
  refine h.of_aside hs ho ?_ (chained_relink _) (fun k hk => ?_) h.path h.cur rfl
  · have ha : (relink (a.head ++ [q])).map Ftsent.addr = a.head.map Ftsent.addr ++ [p.addr] := by
      rw [addr_relink, List.map_append, List.map_singleton, hq]
    simp only [loopNodes, List.nil_append, List.map_append, List.map_cons, ha]
    intro n hn
    simp only [List.mem_append, List.mem_cons, List.map_nil, List.not_mem_nil, or_false] at hn ⊢
    tauto
  · obtain ⟨n, hn, i, rfl⟩ := exists_of_mem_relink hk
    rcases List.mem_append.mp hn with hn | hn
    · exact (h.head n hn).relinked i
    · rw [List.mem_singleton.mp hn]
      exact hb.relinked i

theorem SameAcc.link (h : SameAcc b a) (q : Ftsent) :
    SameAcc { b with
      head := headAddr (relink (a.head ++ [q])), tail := some q.addr, nitems := b.nitems + 1 }
      { a with head := relink (a.head ++ [q]) } where
  head := rfl
  tail := by
    rw [← List.getLast?_map, addr_relink]
    simp
  nitems := by
    rw [h.nitems, length_relink]
    simp
  nlinks := h.nlinks
  maxlen := h.maxlen

theorem buildLoop_lock (C : BuildCtx) (z : Walk) (r : Ftsent) (entries : List Dirent) :
    ∀ (b : BuildSt) (a : Walk.Acc) (st : St ω), SameAcc b a → Loop st z r C [] a →
    Lock (buildLoop E C entries b) (Walk.buildLoop E C z.freed entries a) st fun x st' y =>
      SamePtrs st st' ∧
      ((y.1 = true ∧ ∃ b', x = some b' ∧ SameAcc b' y.2 ∧ Loop st' z r C [] y.2) ∨
        (y.1 = false ∧ x = none ∧ Loop st' z r C [] y.2.failed)) := by
  induction entries with
  | nil => exact fun b a st hb h => lock_pure ⟨⟨rfl, rfl⟩, .inl ⟨rfl, b, rfl, hb, h⟩⟩
  | cons dp dps ih =>
    intro b a st hb h
    unfold buildLoop Walk.buildLoop
    refine lock_opts (sim_ite (fun _ => ih b a st hb h) fun _ => ?_)
    refine sim_bind (alloc_lock h.owns h.fresh) ?_
    rintro x st₁ y ⟨hcur, hchild, hbase, hx⟩ - -
    have hs₁ : SamePtrs st st₁ := ⟨hcur, hchild⟩
    rcases hx with ⟨rfl, rfl, hh, hn⟩ | ⟨p, rfl, rfl, hp, ho, hn⟩
    · refine sim_bind (buildFail_lock hb (h.of_sys ⟨hcur, hchild, Prod.ext hbase hn⟩ hh)) ?_
      rintro - st₂ - ⟨hs₂, hl₂⟩ - -
      exact lock_pure ⟨hs₁.trans hs₂, .inr ⟨rfl, rfl, hl₂⟩⟩
    · have hl₁ := h.alloc hs₁ hbase hn (by rw [hp]; rfl) ho
      refine sim_bind (growPath_lock hb hl₁) ?_
      rintro ⟨fits, b₂⟩ st₂ ⟨fits', a₂⟩ ⟨hf, hs₂, hn₂, hb₂, hl₂⟩ - -
      obtain rfl : fits = fits' := hf
      dsimp only at hb₂ hl₂ ⊢
      have hs₂ := hs₁.trans hs₂
      have hdrop : ∀ {q : Ftsent} {st₃ : St ω}, q.addr = p.addr → Aside st₂ st₃ →
          Nodes st₃.heap (loopNodes z r a₂) → Loop st₃ z r C [] a₂ := fun hq h₃ ho₃ =>
        hl₂.of_aside h₃ ho₃ (by simp) hl₂.chain hl₂.head hl₂.path hl₂.cur rfl
      refine sim_ite (fun _ => ?_) fun _ => lock_get ?_
      · refine lock_free hl₂.owns rfl fun st₃ h₃ _ ho₃ => ?_
        refine sim_bind (buildFail_lock hb₂ (hdrop rfl h₃ ho₃)) ?_
        rintro - st₄ - ⟨hs₄, hl₄⟩ - -
        exact lock_pure ⟨(hs₂.trans h₃.ptrs).trans hs₄, .inr ⟨rfl, rfl, hl₄⟩⟩
      · refine lock_update hl₂.owns rfl rfl fun st₃ h₃ _ ho₃ => ?_
        refine sim_ite (fun _ => ?_) fun _ => ?_
        · refine lock_free ho₃ rfl fun st₄ h₄ _ ho₄ =>
            lock_keeps (keeps_anchors keeps_setErrno) fun _ st₅ h₅ hh₅ => ?_
          have h₅ := (h₃.trans h₄).trans h₅
          refine sim_bind (buildFail_lock hb₂ (hdrop rfl h₅ (hh₅ ▸ ho₄))) ?_
          rintro - st₆ - ⟨hs₆, hl₆⟩ - -
          exact lock_pure ⟨(hs₂.trans h₅.ptrs).trans hs₆, .inr ⟨rfl, rfl, hl₆⟩⟩
        · refine lock_update ho₃ rfl rfl fun st₄ h₄ _ ho₄ => ?_
          have h₄ := h₃.trans h₄
          have hl₄ : Loop st₄ z r C [_] a₂ :=
            hl₂.of_aside (y := [_]) h₄ ho₄ (by simp) hl₂.chain hl₂.head hl₂.path hl₂.cur rfl
          refine sim_bind (buildInfo_lock hb₂ hl₄ rfl rfl h₄.addr.symm) ?_
          rintro b₅ st₅ ⟨q, nl⟩ ⟨h₅, ho₅, hq, hbelow, rfl⟩ - -
          dsimp only at ho₅ hq hbelow ⊢
          have hb₅ : SameAcc { b₂ with nlinks := nl } { a₂ with nlinks := nl } :=
            ⟨hb₂.head, hb₂.tail, hb₂.nitems, rfl, hb₂.maxlen⟩
          rw [← hq]
          refine lock_runs (buildLink_run hb₅ hl₂.chain ho₅) fun st₆ h₆ _ ho₆ => ?_
          have hl₆ : Loop st₆ z r C [] { a₂ with head := relink (a₂.head ++ [q]), nlinks := nl } :=
            hl₄.link (h₅.trans h₆) hq hbelow ho₆
          refine (ih _ _ _ (hb₅.link q) hl₆).mono ?_
          rintro x st₇ y ⟨hs₇, hy⟩
          exact ⟨(hs₂.trans (h₄.trans (h₅.trans h₆)).ptrs).trans hs₇, hy⟩

/-! ### The end of `fts_build` -/

theorem filterMap_range_getElem? {α : Type} (l : List α) :
    ((List.range l.length).filterMap fun i => l[i]?) = l := by
  induction l with
  | nil => rfl
  | cons a l ih =>
    rw [List.length_cons, List.range_succ_eq_map, List.filterMap_cons, List.filterMap_map]
    simpa using ih

theorem sortedBy_perm {α : Type} (q : Qsort) (cmp : Compar) (view : α → Seen) (l : List α) :
    (sortedBy q cmp view l).Perm l := by
  have hrange : (List.range l.length).filterMap (fun i => l[i]?) = l := filterMap_range_getElem? l
  unfold sortedBy
  conv_rhs => rw [← hrange]
  exact (q.perm l.length _).filterMap _

theorem sort_lock {cmp : Compar} {l others : List Ftsent} (ho : Nodes st.heap (l ++ others))
    (hc : Chained l) (hlen : l.length ≤ st.sys.next + 1) :
    Lock (ftsSort E cmp (headAddr l) l.length) (Walk.sort E cmp l l.length) st
      fun y st' l' => y = headAddr l' ∧ Aside st st' ∧ Chained l' ∧ Nodes st'.heap (l' ++ others) ∧
        l'.length = l.length ∧ ∀ m ∈ l', ∃ n ∈ l, ∃ i, m = { n with link := i } := by
  unfold ftsSort Walk.sort
  refine lock_keeps anchors_growArray fun grown st₁ h₁ hh₁ => ?_
  have ho₁ : Nodes st₁.heap (l ++ others) := hh₁ ▸ ho
  refine sim_ite (fun _ => ?_) fun _ =>
    lock_pure ⟨rfl, h₁, hc, ho₁, rfl, fun m hm => ⟨m, hm, m.link, rfl⟩⟩
  have hperm := sortedBy_perm E.qsort cmp Ftsent.seen l
  refine sim_silent (x := st₁.sys.next + 1) (u := st₁) rfl rfl (lock_runs (l := _)
    ⟨_, listNodes_run l _ st₁ hc (fun n hn => ho₁.get (List.mem_append_left _ hn)) (h₁.next ▸ hlen),
      ho₁.perm (hperm.symm.append_right _)⟩ fun st₂ h₂ _ ho₂ => ?_)
  refine lock_runs (relinkNodes_run _ _ _ ho₂) fun st₃ h₃ _ ho₃ => lock_pure ?_
  refine ⟨(headAddr_relink _).symm, h₁.trans (h₂.trans h₃), chained_relink _, ho₃, ?_, fun m hm => ?_⟩
  · rw [length_relink]
    exact hperm.length_eq
  · obtain ⟨n, hn, h⟩ := exists_of_mem_relink hm
    exact ⟨n, hperm.subset hn, h⟩

theorem sortIfAsked_lock {l others : List Ftsent} (ho : Nodes st.heap (l ++ others))
    (hc : Chained l) (hlen : l.length ≤ st.sys.next + 1) :
    Lock (sortIfAsked E (headAddr l) l.length) (Walk.sortIfAsked E l l.length) st
      fun y st' l' => y = headAddr l' ∧ Aside st st' ∧ Chained l' ∧ Nodes st'.heap (l' ++ others) ∧
        l'.length = l.length ∧ ∀ m ∈ l', ∃ n ∈ l, ∃ i, m = { n with link := i } := by
  have hid : ∀ m ∈ l, ∃ n ∈ l, ∃ i, m = { n with link := i } := fun m hm => ⟨m, hm, m.link, rfl⟩
  unfold sortIfAsked Walk.sortIfAsked
  refine lock_get ?_
  cases st.sys.compar with
  | none => exact lock_pure ⟨rfl, .refl st, hc, ho, rfl, hid⟩
  | some cmp =>
    exact sim_ite (fun _ => sort_lock ho hc hlen) fun _ => lock_pure ⟨rfl, .refl st, hc, ho, rfl, hid⟩

/-- Sorting the list the loop has made. -/
theorem Loop.sort (h : Loop st z r C [] a) :
    Lock (sortIfAsked E (headAddr a.head) a.head.length) (Walk.sortIfAsked E a.head a.head.length) st
      fun y st' l => y = headAddr l ∧ Aside st st' ∧ l.length = a.head.length ∧
        Loop st' z r C [] { a with head := l } := by
  have hlen : a.head.length ≤ st.sys.next + 1 := by
    have := h.length_le
    simp only [loopNodes, List.nil_append, List.length_append] at this
    omega
  refine (sortIfAsked_lock (l := a.head) h.owns h.chain hlen).mono ?_
  rintro y st₁ l ⟨hy, h₁, hc, ho, hl, hm⟩
  refine ⟨hy, h₁, hl, h.of_aside h₁ ho ?_ hc ?_ h.path h.cur rfl⟩
  · simp only [loopNodes, List.nil_append, List.map_append]
    exact List.append_subset.mpr
      ⟨List.subset_append_of_subset_left _ (addr_subset_of_links hm), List.subset_append_right ..⟩
  · intro k hk
    obtain ⟨n, hn, i, rfl⟩ := hm k hk
    exact (h.head n hn).relinked i

/-- The nodes after `fts_build`: the list of entries is ready to be the pending list. -/
structure Built (st st' : St ω) (z : Walk) (x : Option NodeId) (kids : List Ftsent) (z' : Walk) :
    Prop where
  ptrs : SamePtrs st st'
  ans : x = headAddr kids
  holds : Holds st'.heap st'.sys.path.addr st'.sys.next { z' with child := kids, freed := none }
  cur : z'.frames.head?.map (fun f => f.node.addr) = z.frames.head?.map fun f => f.node.addr
  child : z'.child = []
  freed : z'.freed = z.freed
  path : ∃ r, z'.root = some r ∧ r.level = rootParentLevel ∧ z'.frames ≠ [] ∧
    Path st'.sys.path.addr r z'.frames ∧ ∀ k ∈ kids, Below st'.sys.path.addr r z'.frames k

theorem Loop.holds (h : Loop st z r C [] a) (hr : z.root = some r) (fr : Option NodeId)
    (hfr : ∀ d, fr = some d → z.freed = some d ∧ a.head = []) :
    Holds st.heap st.sys.path.addr st.sys.next
      { z with frames := a.frames, child := a.head, freed := fr } := by
  have hperm : (loopNodes z r a).Perm
      (Walk.nodes { z with frames := a.frames, child := a.head, freed := fr }) := by
    simp only [loopNodes, Walk.nodes, hr, Option.toList_some, List.append_assoc, List.cons_append,
      List.nil_append]
    refine (List.perm_append_comm_assoc ..).trans (.append_left _ ?_)
    exact List.perm_middle
  refine ⟨h.owns.perm hperm, fun n hn => h.fresh n (hperm.symm.subset hn), ?_, h.chain,
    .inr (.inl ⟨r, hr, h.head⟩), fun d hd => ?_⟩
  · change Shape _ z.root a.frames
    rw [hr]
    exact .inside h.inside h.path h.root
  · obtain ⟨h1, h2⟩ := h.dead d (hfr d hd).1
    exact ⟨⟨h1, fun n hn => h2 n (hperm.symm.subset hn)⟩, (hfr d hd).2⟩

/-- A list that is not handed out is left behind. -/
theorem Loop.leak (h : Loop st z r C [] a) :
    Loop st { z with leaked := z.leaked ++ a.head } r C [] { a with head := [] } := by
  have hperm : (loopNodes z r a).Perm
      (loopNodes { z with leaked := z.leaked ++ a.head } r { a with head := [] }) := by
    simp only [loopNodes, List.nil_append]
    refine List.perm_append_comm.trans ?_
    simp
  exact ⟨h.owns.perm hperm, fun n hn => h.fresh n (hperm.symm.subset hn), trivial, by simp, h.path,
    h.root, fun d hd => ⟨(h.dead d hd).1, fun n hn => (h.dead d hd).2 n (hperm.symm.subset hn)⟩,
    h.child, h.cur, h.level, h.inside⟩

theorem mapCur_cur {g : Ftsent → Ftsent} (hg : ∀ n, (g n).addr = n.addr) (fs : List Frame) :
    (Walk.mapCur g fs).head?.map (fun f => f.node.addr) = fs.head?.map fun f => f.node.addr := by
  cases fs with
  | nil => rfl
  | cons f up => exact congrArg some (hg _)

theorem Loop.cur_eq (h : Loop st z r C x a) : a.frames.head?.map (fun f => f.node.addr) = some C.cur := by
  obtain ⟨f, up, hf⟩ := List.exists_cons_of_ne_nil h.inside
  have := h.cur
  rw [hf] at this ⊢
  exact congrArg some this

/-- The list the loop has made is what `fts_build` returns. -/
theorem Loop.built {st₀ : St ω} {z₀ : Walk} (h : Loop st z r C [] a) (hr : z.root = some r)
    (hc : z.child = []) (hf : z.freed = z₀.freed) (hs : SamePtrs st₀ st)
    (hcur : z₀.frames.head?.map (fun f => f.node.addr) = some C.cur) :
    Built st₀ st z₀ (headAddr a.head) a.head { z with frames := a.frames } where
  ptrs := hs
  ans := rfl
  holds := h.holds hr none (by simp)
  cur := h.cur_eq.trans hcur.symm
  child := hc
  freed := hf
  path := ⟨r, hr, h.root, h.inside, h.path, h.head⟩

theorem buildLeave_lock {c : Ftsent} (h : Loop st z r C [] a) (hl : c.level + 1 = C.level) :
    ∃ n, st.heap C.cur = some n ∧
    Lock (buildLeave E n) (Walk.buildLeave E c a.frames.tail) st fun x st' y =>
      x = y ∧ Aside st st' ∧ st'.heap = st.heap := by
  obtain ⟨f, up, hf⟩ := List.exists_cons_of_ne_nil h.inside
  have hpath := h.path
  have hcur := h.cur
  have hlev := h.level
  rw [hf] at hpath hcur hlev
  have hb := hpath.2.1 f.node (by simp [Frame.nodes])
  have hlc : f.node.level = c.level := by
    have := hb.level
    rw [List.length_cons] at hlev
    omega
  have hmem : ∀ n ∈ pathNodes a.frames, st.heap n.addr = some n := fun n hn =>
    h.owns.get (by simpa using h.ground.mem n hn)
  rw [hf] at hmem ⊢
  refine ⟨f.node, hcur ▸ hmem f.node (by simp [pathNodes]), ?_⟩
  unfold buildLeave Walk.buildLeave
  rw [hlc]
  refine sim_ite (fun _ => lock_get (lock_keeps_last (keeps_anchors keeps_callFchdir)
    fun _ st' h' hh' => ⟨rfl, h', hh'⟩)) fun hne => ?_
  exact changeToParent_lock hb (by rwa [hlc]) fun n hn => hmem n (List.mem_cons_of_mem _ hn)

theorem buildReturn_lock {type : BuildType} {c : Ftsent} {descend : Bool} {st₀ : St ω} {z₀ : Walk}
    (h : Loop st z r C [] a) (hr : z.root = some r) (hc : z.child = []) (hf : z.freed = z₀.freed)
    (hs : SamePtrs st₀ st) (hcur : z₀.frames.head?.map (fun f => f.node.addr) = some C.cur)
    (hl : c.level + 1 = C.level) :
    Lock (buildReturn E type C.cur descend (headAddr a.head) a.head.length)
      (Walk.buildReturn E type { z with frames := a.frames } c a.frames.tail descend a.head) st
      fun x st' y => Built st₀ st' z₀ x y.1 y.2 := by
  unfold buildReturn Walk.buildReturn
  refine sim_ite (fun h0 => ?_) fun _ => ?_
  · obtain ⟨fs, hd, nl, ml⟩ := a
    obtain rfl := List.length_eq_zero_iff.mp h0
    by_cases ht : type = .bread
    · obtain ⟨h', hrun, hl'⟩ := mapCur_run (g := fun n => { n with info := .dp }) (fun _ => rfl) h
      rw [if_pos ht, if_pos ht]
      exact sim_silent hrun rfl (lock_pure (hl'.built hr hc hf ⟨hs.cur, hs.child⟩ hcur))
    · rw [if_neg ht, if_neg ht]
      exact sim_silent (x := ()) (u := st) rfl rfl (lock_pure (h.built hr hc hf hs hcur))
  · refine sim_bind h.sort ?_
    rintro y st₁ l ⟨rfl, h₁, hlen, hl₁⟩ - -
    have hs₁ := hs.trans h₁.ptrs
    rw [hlen]
    refine sim_ite (fun _ => ?_) fun _ => lock_pure (hl₁.built hr hc hf hs₁ hcur)
    obtain ⟨n, hn, hleave⟩ := buildLeave_lock (E := E) hl₁ hl
    refine lock_load hn (sim_bind hleave ?_)
    rintro failed st₂ _ ⟨rfl, h₂, hh₂⟩ - -
    have hl₂ := hl₁.of_sys h₂ hh₂
    have hs₂ := hs₁.trans h₂.ptrs
    refine sim_ite (fun _ => ?_) fun _ => lock_pure (hl₂.built hr hc hf hs₂ hcur)
    obtain ⟨h', hrun, hl₃⟩ := mapCur_run (g := fun n => { n with info := .err }) (fun _ => rfl) hl₂
    refine sim_silent hrun rfl (lock_keeps (anchors_of_fixed fixed_setStop) fun _ st₄ h₄ hh₄ => lock_pure ?_)
    exact (hl₃.of_sys h₄ hh₄).leak.built (z := { z with leaked := z.leaked ++ l }) hr hc
      hf (hs₂.trans ⟨h₄.cur, h₄.child⟩) hcur

theorem checkPath_run {c : Ftsent} (h : c.path = st.sys.path.addr) :
    Runs (checkPath c) st () st.heap := by
  refine .bind (x := st.sys) (h := st.heap) rfl ?_
  rw [if_pos h]
  exact runs_pure _

theorem buildRead_lock {type : BuildType} {c : Ftsent} {rest : List Ftsent} {up : List Frame}
    {fd : Fd} {entries : List Dirent} {endErrno : Errno} (hz : z.frames = ⟨c, rest⟩ :: up)
    (hr : z.root = some r) (hc : z.child = [])
    (h : Loop st z r ⟨c.addr, fd, 0, c.level + 1, 0, false⟩ [] ⟨⟨c, rest⟩ :: up, [], 0, 0⟩) :
    Lock (buildRead E type c fd entries endErrno)
      (Walk.buildRead E type z c rest up fd entries endErrno) st
      fun x st' y => Built st st' z x y.1 y.2 := by
  have hcur : z.frames.head?.map (fun f => f.node.addr) = some c.addr := by rw [hz]; rfl
  unfold buildRead Walk.buildRead
  refine lock_opts ?_
  obtain ⟨nlinks, nostat⟩ := linkPlan st.sys.opts type c
  refine lock_ite_keeps (keeps_anchors keeps_safeChangedir) fun failed st₁ h₁ hh₁ => ?_
  refine lock_ite_keeps (.gets _) fun cderrno st₂ h₂ hh₂ => ?_
  have hl₂ := (h.of_sys h₁ hh₁).of_sys h₂ hh₂
  have hs₂ := (h₁.trans h₂).ptrs
  -- the flag `FTS_DONTCHDIR` on a directory that could not be entered
  obtain ⟨h', hrun, hl₃⟩ : ∃ h', Runs
      (if failed then update c.addr fun n => { n with dontchdir := true } else pure () : M ω Unit) st₂ () h' ∧
      Loop { st₂ with heap := h' } z r ⟨c.addr, fd, 0, c.level + 1, 0, false⟩ []
        ⟨⟨if failed then { c with dontchdir := true } else c, rest⟩ :: up, [], 0, 0⟩ := by
    cases failed with
    | true =>
      rw [if_pos rfl, if_pos rfl]
      exact mapCur_run (g := fun n => { n with dontchdir := true }) (fun _ => rfl) hl₂
    | false => exact ⟨_, runs_pure _, hl₂⟩
  refine sim_silent hrun rfl ?_
  generalize hst₃ : ({ st₂ with heap := h' } : St ω) = st₃ at hl₃
  have hs₃ : SamePtrs st st₃ := by
    subst hst₃
    exact ⟨hs₂.cur, hs₂.child⟩
  have hpath : c.path = st₃.sys.path.addr := by
    subst hst₃
    exact (hl₂.path.2.1 c (by simp [Frame.nodes])).path
  refine sim_silent (checkPath_run hpath) rfl (lock_get ?_)
  refine lock_ite_keeps (anchors_of_fixed fixed_storePath) fun _ st₄ h₄ hh₄ => lock_get
    (lock_keeps (keeps_anchors keeps_setErrno) fun _ st₅ h₅ hh₅ => ?_)
  have hl₅ := (hl₃.of_sys h₄ hh₄).of_sys h₅ hh₅
  have hs₅ := hs₃.trans (h₄.trans h₅).ptrs
  refine sim_bind (buildLoop_lock _ z r entries _ _ st₅ ⟨rfl, rfl, rfl, rfl, rfl⟩
    (hl₅.cast rfl rfl rfl rfl)) ?_
  rintro x st₆ ⟨ok, a⟩ ⟨hs₆, ⟨rfl, b, rfl, hb, hl₆⟩ | ⟨rfl, rfl, hl₆⟩⟩ - -
  · have hs₆ := hs₅.trans hs₆
    refine lock_ite_keeps (keeps_anchors keeps_setErrno) fun _ st₇ h₇ hh₇ => lock_errno ?_
    have hl₇ := hl₆.of_sys h₇ hh₇
    refine sim_ite (fun _ => sim_bind (buildFail_lock hb hl₇) ?_) fun _ =>
      lock_keeps (keeps_anchors keeps_callClosedir) fun _ st₈ h₈ hh₈ => ?_
    · rintro - st₈ - ⟨hs₈, hl₈⟩ - -
      exact lock_pure (hl₈.built hr hc rfl ((hs₆.trans h₇.ptrs).trans hs₈) hcur)
    · rw [hb.head, hb.nitems]
      exact buildReturn_lock (hl₇.of_sys h₈ hh₈) hr hc rfl ((hs₆.trans h₇.ptrs).trans h₈.ptrs) hcur rfl
  · exact lock_pure (hl₆.built hr hc rfl (hs₅.trans hs₆) hcur)

/-- The nodes of a stream that stands on a directory, before `fts_build`. -/
theorem Holds.loop {c : Ftsent} {rest : List Ftsent} {up : List Frame} {nl : ℤ} {ml : ℕ}
    (h : Holds st.heap st.sys.path.addr st.sys.next z) (hz : z.frames = ⟨c, rest⟩ :: up)
    (hr : z.root = some r) (hp : Path st.sys.path.addr r z.frames) (hroot : r.level = rootParentLevel)
    (hc : z.child = []) (hf : st.child = z.freed) (hC : C.cur = c.addr) (hl : C.level = c.level + 1) :
    Loop st z r C [] ⟨⟨c, rest⟩ :: up, [], nl, ml⟩ := by
  have hn : z.nodes = loopNodes z r ⟨⟨c, rest⟩ :: up, [], nl, ml⟩ := by
    simp [Walk.nodes, loopNodes, hz, hr, hc]
  have hp' : Path st.sys.path.addr r (⟨c, rest⟩ :: up) := hz ▸ hp
  refine ⟨hn ▸ h.owns, hn ▸ h.fresh, trivial, by simp, hp', hroot, fun d hd => hn ▸ (h.freed d hd).1,
    hf, hC.symm, ?_, by simp⟩
  rw [hl, (hp'.2.1 c (by simp [Frame.nodes])).level]
  simp

theorem build_lock {type : BuildType} {c : Ftsent} {rest : List Ftsent} {up : List Frame}
    (h : Holds st.heap st.sys.path.addr st.sys.next z) (hz : z.frames = ⟨c, rest⟩ :: up)
    (hr : z.root = some r) (hp : Path st.sys.path.addr r z.frames) (hroot : r.level = rootParentLevel)
    (hc : z.child = []) (hf : st.child = z.freed) (hcur : st.cur = some c.addr) :
    Lock (ftsBuild E type) (Walk.build E type z) st fun x st' y => Built st st' z x y.1 y.2 := by
  have hl : ∀ fd, Loop st z r ⟨c.addr, fd, 0, c.level + 1, 0, false⟩ [] ⟨⟨c, rest⟩ :: up, [], 0, 0⟩ :=
    fun fd => h.loop hz hr hp hroot hc hf rfl rfl
  have hzcur : z.frames.head?.map (fun f => f.node.addr) = some c.addr := by rw [hz]; rfl
  have hcur' : (getCur : M ω _) st = (.ok (some c.addr), st, []) := by
    simp only [getCur, Faulting.gets, hcur]
  have ho : Nodes st.heap (c :: (rest ++ (up.flatMap Frame.nodes ++ r :: z.leaked))) := by
    have := (hl 0).owns
    simpa [loopNodes, Frame.nodes] using this
  have hb := (hl 0).path.2.1 c (by simp [Frame.nodes])
  unfold ftsBuild Walk.build
  refine sim_silent hcur' rfl (sim_silent (x := c.addr) (u := st) rfl rfl (lock_load ho.head ?_))
  rw [hz]
  dsimp only
  refine sim_ite (fun _ => ?_) fun _ => ?_
  · refine lock_keeps (keeps_anchors keeps_setErrno) fun _ st₁ h₁ hh₁ => ?_
    obtain ⟨h', hrun, hl₂⟩ := mapCur_run (g := fun n => { n with info := .err }) (fun _ => rfl)
      ((hl 0).of_sys h₁ hh₁)
    refine sim_silent hrun rfl (lock_keeps (anchors_of_fixed fixed_setStop) fun _ st₃ h₃ hh₃ => lock_pure ?_)
    exact (hl₂.of_sys h₃ hh₃).built hr hc rfl (h₁.ptrs.trans ⟨h₃.cur, h₃.child⟩) hzcur
  · refine lock_right (fun _ => rfl) (fun _ => rfl) (lock_accArg (l := up) ho
      (fun n hn => by simp [pathNodes_subset hn]) hb.acc
      (lock_keeps (keeps_anchors keeps_openDir) fun x st₁ h₁ hh₁ => ?_))
    have hl₁ := fun fd => (hl fd).of_sys h₁ hh₁
    rcases x with ⟨i, e⟩ | ⟨fd, entries, endErrno⟩
    · obtain ⟨h', hrun, hl₂⟩ := mapCur_run (g := fun n => { n with info := i, errno := e })
        (fun _ => rfl) (hl₁ 0)
      exact sim_silent hrun rfl (lock_pure (hl₂.built hr hc rfl ⟨h₁.cur, h₁.child⟩ hzcur))
    · refine (buildRead_lock hz hr hc (hl₁ fd)).mono ?_
      rintro x st₂ y ⟨hs, ha, hh, hcur₂, hch, hfr, hpth⟩
      exact ⟨h₁.ptrs.trans hs, ha, hh, hcur₂, hch, hfr, hpth⟩

end MuslBsd.Fts
