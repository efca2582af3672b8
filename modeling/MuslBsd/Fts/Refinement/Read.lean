import MuslBsd.Fts.Refinement.Build

/-! `fts_read` over the heap and over lists, in lockstep. -/
namespace MuslBsd.Fts
open MuslBsd.Support Traced

variable {ω : Type} {E : Env ω} {st st' : St ω} {z : Walk} {n p q r : Ftsent} {rest : List Ftsent}
  {up : List Frame} {base : ℕ} {next : NodeId} {heap heap' : NodeId → Option Ftsent}

/-- Both levels have returned the same node and agree on the stream. -/
def Same (x : Option NodeId) (st : St ω) (y : Option NodeId × Walk) : Prop := x = y.1 ∧ Rep st y.2

theorem Ready.of_aside {u : St ω} (h : Ready st z) (hs : Aside st u) {z' : Walk}
    (hh : Holds u.heap st.sys.path.addr st.sys.next z')
    (hc : (z'.freed <|> headAddr z'.child) = (z.freed <|> headAddr z.child)) : Ready u z' where
  holds := by rw [hs.addr, hs.next]; exact hh
  child := (hs.child.trans h.child).trans hc.symm

theorem Ready.of_sys (h : Ready st z) (hs : Aside st st') (hh : st'.heap = st.heap) : Ready st' z :=
  h.of_aside hs (hh ▸ h.holds) rfl

theorem Rep.of_sys (h : Rep st z) (hs : Aside st st') (hh : st'.heap = st.heap) : Rep st' z where
  toReady := h.toReady.of_sys hs hh
  cur := hs.cur.trans h.cur

/-- The current node is replaced. -/
theorem Ready.setNode (h : Ready st z) (hz : z.frames = ⟨n, rest⟩ :: up) (hs : Aside st st')
    (ha : q.addr = n.addr) (hsh : Shape st.sys.path.addr z.root (⟨q, rest⟩ :: up))
    (ho : Nodes st'.heap (q :: otherNodes z rest up)) :
    Ready st' { z with frames := ⟨q, rest⟩ :: up } :=
  h.of_aside hs (h.holds.setNode hz ha hsh ho) rfl

/-- The current node changes where the shape does not look. -/
theorem Ready.change (h : Ready st z) (hz : z.frames = ⟨n, rest⟩ :: up) (hs : Aside st st')
    (hq : q.place = n.place) (hi : IsInit n → IsInit q)
    (ho : Nodes st'.heap (q :: otherNodes z rest up)) :
    Ready st' { z with frames := ⟨q, rest⟩ :: up } := by
  have hsh := h.holds.shape
  rw [hz] at hsh
  exact h.setNode hz hs (place_ext.mp hq).1 (hsh.congr hq hi) ho

theorem Ready.rep (h : Ready st z) (hc : st.cur = z.frames.head?.map fun f => f.node.addr) :
    Rep st z := ⟨h, hc⟩

/-- A node that is not the one before the roots. -/
theorem Ready.path (h : Ready st z) (hz : z.frames = ⟨n, rest⟩ :: up) (hi : ¬IsInit n) :
    ∃ r, z.root = some r ∧ Path st.sys.path.addr r (⟨n, rest⟩ :: up) ∧ r.level = rootParentLevel := by
  have hsh := h.holds.shape
  rw [hz] at hsh
  exact hsh.cases_cur.resolve_left fun h' => hi h'.1

theorem not_init_of_info {i : Info} (hn : n.info = i) (h1 : i ≠ .init) (h2 : i ≠ .ns) : ¬IsInit n :=
  fun h => h.info.elim (fun h' => h1 (hn ▸ h')) fun h' => h2 (hn ▸ h')

/-! ### Moving to another node -/

/-- `readName` makes the first node of a list below `up` the current one. -/
theorem readName_lock (h : Ready st { z with frames := ⟨p, rest⟩ :: up }) (hup : up ≠ []) :
    Lock (readName p.addr) (Walk.readName z p rest up) st Same := by
  obtain ⟨g, up', rfl⟩ := List.exists_cons_of_ne_nil hup
  obtain ⟨r, hr, hp, -⟩ := h.holds.shape.cases_cur.resolve_left fun h' => hup h'.2
  have hb := hp.2.1 p (by simp [Frame.nodes])
  have hg := hp.2.2.2.1 g.node (by simp [Frame.nodes])
  have ho := h.holds.owns_cons rfl
  unfold readName Walk.readName
  refine lock_load ho.head ?_
  rw [hb.parent]
  refine sim_silent (x := g.node.addr) (u := st) rfl rfl (lock_load (n := g.node)
    (ho.get (by simp [otherNodes, Frame.nodes])) ?_)
  refine sim_silent (checkPath_run hg.path) rfl
    (lock_keeps (anchors_of_fixed fixed_storeName) fun _ st₁ h₁ hh₁ => lock_setCur (lock_pure ⟨rfl, ?_⟩))
  exact ⟨⟨(h.of_sys h₁ hh₁).holds, (h.of_sys h₁ hh₁).child⟩, rfl⟩

/-- The current node is released; the pending list, if there is one, has lost its directory. -/
theorem Holds.leave {g : NodeId → Option Ftsent} (h : Holds heap base next z)
    (hz : z.frames = ⟨n, rest⟩ :: up)
    {f : List Frame} {o : Option Ftsent} (hs : Shape base o f)
    (hn : Walk.nodes { z with frames := f, root := o } ⊆ otherNodes z rest up)
    (ho : Nodes g (Walk.nodes { z with frames := f, root := o })) :
    Holds g base next { z with frames := f, root := o } := by
  have hd := h.owns_cons hz
  have hdead : Dead next (Walk.nodes { z with frames := f, root := o }) n.addr :=
    ⟨h.fresh n (by rw [nodes_cons hz]; simp), fun m hm => hd.ne_of_mem (hn hm)⟩
  have hsub : (Walk.nodes { z with frames := f, root := o }).map Ftsent.addr ⊆
      z.nodes.map Ftsent.addr := by
    rw [nodes_cons hz, List.map_cons]
    exact List.subset_cons_of_subset _ (List.map_subset _ hn)
  refine ⟨ho, fresh_of_subset hsub h.fresh, hs, h.chain, ?_, fun d hd =>
    ⟨(h.freed d hd).1.of_subset hsub, (h.freed d hd).2⟩⟩
  rcases h.child with h0 | ⟨r, -, hb⟩ | ⟨d, hd, hp⟩
  · exact .inl h0
  · refine .inr (.inr ⟨n.addr, hdead, fun k hk => ?_⟩)
    rw [(hb k hk).parent, hz]
    rfl
  · exact .inr (.inr ⟨d, hd.of_subset hsub, hp⟩)

/-- The shape after the current node is left for its next sibling. -/
theorem Shape.sibling {root : Option Ftsent} (h : Shape base root (⟨n, p :: rest⟩ :: up)) :
    Shape base root (⟨p, rest⟩ :: up) ∧ n.link = some p.addr := by
  cases h with
  | fresh hn hne hc hb hr =>
    exact ⟨.inside (by simp) ⟨hc.2, fun m hm => hb m hm, trivial⟩ hr, hc.1⟩
  | inside _ hp hr =>
    exact ⟨.inside (by simp) ⟨hp.1.2, fun m hm => hp.2.1 m (List.mem_cons_of_mem _ hm), hp.2.2⟩ hr,
      hp.1.1⟩

theorem readRoot_lock (h : Ready st { z with frames := [⟨p, rest⟩] }) (hi : ¬IsInit p) :
    Lock (readRoot E p.addr) (Walk.readRoot E z p rest) st Same := by
  unfold readRoot Walk.readRoot
  refine lock_keeps (keeps_anchors keeps_backToStart) fun failed st₁ h₁ hh₁ => ?_
  have hr₁ := h.of_sys h₁ hh₁
  refine sim_ite (fun _ => ?_) fun _ => ?_
  · refine lock_keeps (anchors_of_fixed fixed_setStop) fun _ st₂ h₂ hh₂ => lock_setCur (lock_pure ⟨rfl, ?_⟩)
    exact ⟨⟨(hr₁.of_sys h₂ hh₂).holds, (hr₁.of_sys h₂ hh₂).child⟩, rfl⟩
  · have ho₁ := hr₁.holds.owns_cons rfl
    refine lock_load ho₁.head (lock_val (P := fun q => q.addr = p.addr ∧ q.link = p.link ∧
      q.parent = p.parent ∧ q.level = p.level ∧ q.path = st₁.sys.path.addr ∧
      q.accpath = .buf st₁.sys.path.addr) (anchors_of_fixed fixed_loadRoot) ⟨rfl, rfl, rfl, rfl, rfl, rfl⟩ ?_)
    rintro q st₂ ⟨ha, hl, hp, hlev, hpath, hacc⟩ h₂ hh₂
    refine lock_update (hh₂ ▸ ho₁) rfl ha fun st₃ h₃ _ ho₃ => lock_setCur (lock_pure ⟨by rw [ha], ?_⟩)
    obtain ⟨r, hr, hpth, hroot⟩ := hr₁.path rfl hi
    have hb := hpth.2.1 p (by simp [Frame.nodes])
    have hq : Below st₁.sys.path.addr r [] q :=
      ⟨hp.trans hb.parent, hlev.trans hb.level, hpath, fun a h' => by rw [hacc] at h'; cases h'⟩
    have hset := hr₁.setNode rfl (h₂.trans h₃) ha
      (by rw [hr]; exact .inside (by simp) (hpth.set hl hq) hroot) ho₃
    exact ⟨⟨hset.holds, hset.child⟩, by rw [← ha]; rfl⟩

theorem ascend_lock (hb : Below base r up p)
    (hh : ∀ n ∈ pathNodes up, st.heap n.addr = some n) :
    Lock (ascend E p) (Walk.ascend E p up) st fun x st' y =>
      x = y ∧ Aside st st' ∧ st'.heap = st.heap := by
  unfold ascend Walk.ascend
  refine sim_ite (fun _ => lock_keeps_last (keeps_anchors keeps_backToStart)
    fun _ st' h' hh' => ⟨rfl, h', hh'⟩) fun hl => ?_
  refine sim_ite (fun _ => lock_keeps_last (keeps_anchors keeps_leaveSymfd)
    fun _ st' h' hh' => ⟨rfl, h', hh'⟩) fun _ => ?_
  exact sim_ite (fun _ => lock_pure ⟨rfl, .refl st, rfl⟩) fun _ => changeToParent_lock hb hl hh

theorem Shape.parent {root : Option Ftsent} {f : Frame}
    (h : Shape base root (⟨n, rest⟩ :: f :: up)) : Shape base root (f :: up) := by
  obtain ⟨r, rfl, hp, hr⟩ := h.cases_cur.resolve_left fun h' => by simp at h'
  exact .inside (by simp) hp.2.2 hr

theorem readUp_lock (h : Ready st { z with frames := ⟨n, []⟩ :: up }) :
    Lock (readUp E n.addr) (Walk.readUp E z n up) st Same := by
  have ho := h.holds.owns_cons rfl
  unfold readUp Walk.readUp
  refine lock_load ho.head (lock_keeps (anchors_of_fixed fixed_cyclePop) fun _ st₁ h₁ hh₁ => lock_setCur ?_)
  have hr₁ := h.of_sys h₁ hh₁
  refine lock_free (hh₁ ▸ ho : Nodes st₁.heap _) rfl fun st₂ h₂ _ ho₂ => ?_
  have hchild₂ : st₂.child = (z.freed <|> headAddr z.child) := h₂.child.trans hr₁.child
  rcases hr₁.holds.shape.cases_cur with ⟨hi, rfl⟩ | ⟨r, hr, hp, hroot⟩
  · have hroot : z.root = none := by
      have hsh := hr₁.holds.shape
      change Shape _ z.root _ at hsh
      generalize z.root = root at hsh
      cases hsh with
      | empty _ _ => rfl
      | fresh _ hne _ _ _ => exact absurd rfl hne
      | inside _ hp _ => exact absurd hi.parent (by rw [(hp.2.1 n (by simp [Frame.nodes])).parent]; simp)
    rw [hi.parent, hroot]
    refine lock_keeps (keeps_anchors keeps_setErrno) fun _ st₃ h₃ hh₃ => lock_pure ⟨rfl, ?_⟩
    have hn : Walk.nodes { z with frames := [], root := z.root } = otherNodes z [] [] := by
      simp [Walk.nodes, otherNodes]
    have hh := hr₁.holds.leave (g := st₃.heap) (f := []) (o := z.root) rfl (hroot ▸ .ended)
      (hn ▸ fun _ => id) (by rw [hn, hh₃]; exact ho₂)
    have h₃ : Aside { st₁ with cur := none } st₃ := h₂.trans h₃
    refine ⟨⟨?_, h₃.child.trans hr₁.child⟩, h₃.cur⟩
    rw [h₃.addr, h₃.next]
    rw [hroot] at hh
    exact hh
  · have hr : z.root = some r := hr
    have hpar := (hp.2.1 n (by simp [Frame.nodes])).parent
    rw [hpar]
    cases up with
    | nil =>
      have hmem : Nodes st₂.heap (r :: (z.child ++ z.leaked)) := by
        change Nodes st₂.heap (z.root.toList ++ (z.child ++ z.leaked)) at ho₂
        rwa [hr] at ho₂
      rw [hr]
      refine lock_load hmem.head (lock_keeps (anchors_of_fixed fixed_storePath) fun _ st₃ h₃ hh₃ => ?_)
      rw [if_pos hroot]
      refine lock_free (hh₃ ▸ hmem) rfl fun st₄ h₄ _ ho₄ =>
        lock_keeps (keeps_anchors keeps_setErrno) fun _ st₅ h₅ hh₅ => lock_setCur (lock_pure ⟨rfl, ?_⟩)
      have hn : Walk.nodes { z with frames := [], root := none } = z.child ++ z.leaked := by
        simp [Walk.nodes]
      have hh := hr₁.holds.leave (g := st₅.heap) (f := []) (o := none) rfl .ended
        (by rw [hn]; intro m hm; simp [otherNodes, List.mem_append.mp hm])
        (by rw [hn, hh₅]; exact ho₄)
      have h₅ : Aside { st₁ with cur := none } st₅ := h₂.trans (h₃.trans (h₄.trans h₅))
      refine ⟨⟨?_, h₅.child.trans hr₁.child⟩, rfl⟩
      change Holds st₅.heap st₅.sys.path.addr st₅.sys.next _
      rw [h₅.addr, h₅.next]
      exact hh
    | cons f up =>
      have hb := hp.2.2.2.1 f.node (by simp [Frame.nodes])
      have hz₂ : Ready { st₂ with cur := none } { z with frames := f :: up } := by
        have hn : Walk.nodes { z with frames := f :: up } = otherNodes z [] (f :: up) := by
          simp [Walk.nodes, otherNodes]
        have hh := hr₁.holds.leave (g := st₂.heap) (f := f :: up) (o := z.root) rfl
          hr₁.holds.shape.parent (hn ▸ fun _ => id) (by rw [hn]; exact ho₂)
        refine ⟨?_, h₂.child.trans hr₁.child⟩
        change Holds st₂.heap st₂.sys.path.addr st₂.sys.next _
        rw [h₂.addr, h₂.next]
        exact hh
      have hf := hz₂.holds.owns_cons (n := f.node) (l := f.rest) (u := up) rfl
      refine lock_load hf.head (lock_keeps (anchors_of_fixed fixed_storePath) fun _ st₃ h₃ hh₃ => ?_)
      have hz₃ : Ready st₃ { z with frames := f :: up } := by
        refine ⟨?_, h₃.child.trans hz₂.child⟩
        rw [h₃.addr, h₃.next, hh₃]
        exact hz₂.holds
      have hne : ¬f.node.level = rootParentLevel := by
        rw [hb.level]
        simp only [rootParentLevel]
        omega
      rw [if_neg hne]
      refine sim_bind (ascend_lock hb fun m hm => hz₃.holds.owns.get ?_) ?_
      · exact mem_nodes.mpr (.inl (List.mem_append_right _ (pathNodes_subset hm)))
      rintro failed st₄ _ ⟨rfl, h₄, hh₄⟩ - -
      have hz₄ := hz₃.of_sys h₄ hh₄
      refine sim_ite (fun _ => ?_) fun _ => ?_
      · refine lock_keeps (anchors_of_fixed fixed_setStop) fun _ st₅ h₅ hh₅ => lock_setCur (lock_pure ⟨rfl, ?_⟩)
        exact ⟨⟨(hz₄.of_sys h₅ hh₅).holds, (hz₄.of_sys h₅ hh₅).child⟩, rfl⟩
      · refine lock_update (hz₄.holds.owns_cons rfl) rfl rfl fun st₅ h₅ _ ho₅ =>
          lock_setCur (lock_pure ⟨rfl, ?_⟩)
        have hi : ¬IsInit f.node := fun hi => by
          have := hi.parent
          rw [hb.parent] at this
          cases this
        have hz₅ := hz₄.change (q := { f.node with info := if f.node.errno ≠ 0 then .err else .dp })
          rfl h₅ rfl (fun h' => absurd h' hi) ho₅
        exact ⟨⟨hz₅.holds, hz₅.child⟩, rfl⟩

theorem readNext_lock (rest : List Ftsent) : ∀ (k : ℕ) (n : Ftsent) (st : St ω), rest.length < k →
    Ready st { z with frames := ⟨n, rest⟩ :: up } →
    Lock (readNext E k n.addr) (Walk.readNext E z n up rest) st Same := by
  induction rest with
  | nil =>
    rintro (_ | k) n st hk h
    · simp at hk
    · have hsh := h.holds.shape
      have hl : n.link = none := by
        change Shape _ z.root _ at hsh
        generalize z.root = root at hsh
        cases hsh with
        | empty _ hl => exact hl
        | fresh _ hne _ _ _ => exact absurd rfl hne
        | inside _ hp _ => exact hp.1.1
      unfold readNext Walk.readNext
      refine lock_load (h.holds.owns_cons rfl).head ?_
      rw [hl]
      exact readUp_lock h
  | cons p rest ih =>
    rintro (_ | k) n st hk h
    · simp at hk
    · have ho := h.holds.owns_cons rfl
      obtain ⟨hsh, hl⟩ := h.holds.shape.sibling
      unfold readNext Walk.readNext
      refine lock_load ho.head ?_
      rw [hl]
      refine lock_keeps (anchors_of_fixed fixed_cyclePop) fun _ st₁ h₁ hh₁ => lock_setCur
        (lock_free (hh₁ ▸ ho : Nodes st₁.heap _) rfl fun st₂ h₂ _ ho₂ => ?_)
      have hz₂ : Ready st₂ { z with frames := ⟨p, rest⟩ :: up } := by
        have hn : Walk.nodes { z with frames := ⟨p, rest⟩ :: up } = otherNodes z (p :: rest) up := by
          simp [Walk.nodes, otherNodes, Frame.nodes]
        have hh := h.holds.leave (g := st₂.heap) (f := ⟨p, rest⟩ :: up) (o := z.root) rfl
          hsh (hn ▸ fun _ => id) (by rw [hn]; exact ho₂)
        have h₂ : Aside { st with cur := none } st₂ :=
          Aside.trans (b := { st₁ with cur := none }) ⟨rfl, h₁.child, h₁.anchors⟩ h₂
        refine ⟨?_, h₂.child.trans h.child⟩
        rw [h₂.addr, h₂.next]
        exact hh
      have ho₂ := hz₂.holds.owns_cons (n := p) rfl
      obtain ⟨r, hr, hp, hroot⟩ : ∃ r, z.root = some r ∧
          Path st₂.sys.path.addr r (⟨p, rest⟩ :: up) ∧ r.level = rootParentLevel := by
        refine hz₂.path rfl fun hi => ?_
        have hsh := h.holds.shape
        change Shape _ z.root _ at hsh
        generalize z.root = root at hsh
        cases hsh with
        | fresh _ _ _ hb _ =>
          have := (hb p (by simp)).parent
          rw [hi.parent] at this
          cases this
        | inside _ hp _ =>
          have := (hp.2.1 p (by simp [Frame.nodes])).parent
          rw [hi.parent] at this
          cases this
      have hb := hp.2.1 p (by simp [Frame.nodes])
      have hi : ¬IsInit p := fun hi => by
        have := hi.parent
        rw [hb.parent] at this
        cases this
      refine lock_load ho₂.head (sim_ite (fun hlev => ?_) fun hlev => ?_)
      · obtain rfl : up = [] := by
          rw [hb.level] at hlev
          exact List.length_eq_zero_iff.mp (by simpa [rootLevel] using hlev)
        exact readRoot_lock hz₂ hi
      have hup : up ≠ [] := by
        rintro rfl
        exact hlev hb.level
      refine sim_ite (fun _ => ih k p st₂ (by simpa using hk) hz₂) fun _ => sim_ite (fun _ => ?_)
        fun _ => readName_lock hz₂ hup
      refine sim_bind (followLink_lock ho₂ (hz₂.holds.ground rfl hr hp hroot) hb) ?_
      rintro - st₃ q ⟨h₃, ho₃, hq⟩ - -
      have ha := (place_ext.mp hq).1
      rw [← ha]
      refine lock_update ho₃ rfl rfl fun st₄ h₄ _ ho₄ => ?_
      exact readName_lock (hz₂.change rfl (h₃.trans h₄) (q := { q with instr := .noinstr }) hq
        (fun h' => absurd h' hi) ho₄) hup

/-! ### A directory in pre-order -/

/-- The list that `fts_build` has made becomes the innermost frame. -/
theorem Holds.descend {k : Ftsent} {ks : List Ftsent} (h : Holds heap base next z)
    (hk : z.child = k :: ks) (hr : z.root = some r) (hp : Path base r z.frames)
    (hroot : r.level = rootParentLevel) (hb : ∀ m ∈ z.child, Below base r z.frames m) :
    Holds heap base next { z with frames := ⟨k, ks⟩ :: z.frames, child := [] } := by
  have hperm : z.nodes.Perm (Walk.nodes { z with frames := ⟨k, ks⟩ :: z.frames, child := [] }) := by
    simp only [Walk.nodes, hk, List.flatMap_cons, Frame.nodes, List.append_assoc, List.append_nil]
    simpa only [List.append_assoc] using List.perm_append_comm_assoc
      (z.frames.flatMap Frame.nodes ++ z.root.toList) (k :: ks) z.leaked
  refine ⟨h.owns.perm hperm, fun n hn => h.fresh n (hperm.symm.subset hn), ?_, trivial, .inl rfl,
    fun d hd => ⟨⟨(h.freed d hd).1.1, fun n hn => (h.freed d hd).1.2 n (hperm.symm.subset hn)⟩, rfl⟩⟩
  change Shape base z.root _
  rw [hr]
  have hc := h.chain
  rw [hk] at hc
  exact .inside (by simp) ⟨hc, fun m hm => hb m (hk ▸ hm), hp⟩ hroot

/-- The nodes of the pending list are replaced in place. -/
theorem Holds.setChild {g : NodeId → Option Ftsent} (h : Holds heap base next z) {l : List Ftsent} (hr : z.root = some r)
    (hl : l.map Ftsent.addr = z.child.map Ftsent.addr) (hc : Chained l)
    (hb : ∀ k ∈ l, Below base r z.frames k) (ho : Nodes g (Walk.nodes { z with child := l })) :
    Holds g base next { z with child := l } := by
  have hsub : (Walk.nodes { z with child := l }).map Ftsent.addr ⊆ z.nodes.map Ftsent.addr := by
    simp only [Walk.nodes, List.map_append, hl]
    exact fun _ => id
  refine ⟨ho, fresh_of_subset hsub h.fresh, h.shape, hc, .inr (.inl ⟨r, hr, hb⟩), fun d hd =>
    ⟨(h.freed d hd).1.of_subset hsub, ?_⟩⟩
  rw [(h.freed d hd).2] at hl
  simpa using hl

/-- `fts_child` points to the head of the pending list. -/
theorem readChild_lock {k : Ftsent} {l : List Ftsent} {fs : List Frame}
    (h : Holds st.heap st.sys.path.addr st.sys.next { z with frames := ⟨k, l⟩ :: fs, child := [] })
    (hf : z.freed = none) (hfs : fs ≠ []) (hc : st.child = some k.addr) :
    Lock readChild (Walk.readName { z with child := [] } k l fs) st Same := by
  have hget : (getChild : M ω _) st = (.ok (some k.addr), st, []) := by
    simp only [getChild, Faulting.gets, hc]
  refine sim_silent hget rfl (sim_silent (x := k.addr) (u := st) rfl rfl (lock_setChild ?_))
  refine readName_lock ⟨h, ?_⟩ hfs
  change none = (z.freed <|> headAddr [])
  rw [hf]
  rfl

theorem readFresh_lock (h : Rep st z) (hz : z.frames = ⟨p, rest⟩ :: up) (hi : ¬IsInit p)
    (hc : z.child = []) (hf : z.freed = none) :
    Lock (readFresh E p.addr) (Walk.readFresh E z p) st Same := by
  obtain ⟨r, hr, hp, hroot⟩ := h.path hz hi
  have hchild : st.child = z.freed := by rw [h.child, hc, hf]; rfl
  unfold readFresh Walk.readFresh
  refine sim_bind (build_lock h.holds hz hr (hz ▸ hp) hroot hc hchild (by rw [h.cur, hz]; rfl)) ?_
  rintro x st₁ ⟨kids, z₁⟩ ⟨hs₁, rfl, hh₁, hcur₁, hc₁, hf₁, r₁, hr₁, hroot₁, hne₁, hp₁, hb₁⟩ - -
  obtain ⟨fs₁, root₁, child₁, freed₁, leaked₁⟩ := z₁
  obtain rfl : child₁ = [] := hc₁
  obtain rfl : freed₁ = none := hf₁.trans hf
  refine lock_setChild ?_
  cases kids with
  | nil =>
    have hrep : Rep { st₁ with child := none } ⟨fs₁, root₁, [], none, leaked₁⟩ :=
      ⟨⟨hh₁, rfl⟩, hs₁.cur.trans (h.cur.trans hcur₁.symm)⟩
    exact lock_opts (sim_ite (fun _ => lock_pure ⟨rfl, hrep⟩) fun _ => lock_pure ⟨rfl, hrep⟩)
  | cons k ks =>
    exact readChild_lock (z := ⟨fs₁, root₁, [], none, leaked₁⟩) (k := k) (l := ks)
      (hh₁.descend rfl hr₁ hp₁ hroot₁ hb₁) rfl hne₁ rfl

/-- Address `d` is dead, or the node there has a dead parent. -/
def Stale (heap : NodeId → Option Ftsent) (d : NodeId) : Prop :=
  heap d = none ∨ ∃ m q, heap d = some m ∧ m.parent = some q ∧ heap q = none

theorem readName_faults {d : NodeId} (hd : Stale st.heap d) : Faults (readName d) st := by
  rcases hd with hd | ⟨m, q, hm, hq, hd⟩
  · exact (faults_load hd).bind
  · refine .step (load_run hm) ?_
    rw [hq]
    exact .step (x := q) (u := st) rfl (faults_load hd).bind

theorem getChild_run {c : Option NodeId} (hc : st.child = c) :
    (getChild : M ω _) st = (.ok c, st, []) := by
  simp only [getChild, Faulting.gets, hc]

theorem readChild_faults {d : NodeId} (hc : st.child = some d) (hd : Stale st.heap d) :
    Faults readChild st :=
  .step (getChild_run hc) (.step (x := d) (u := st) rfl
    (.step (u := { st with child := none }) rfl (readName_faults hd)))

theorem pathFromParent_faults {d : NodeId} (k : ℕ) (hd : Stale st.heap d) :
    Faults (pathFromParent k (some d)) st := by
  cases k with
  | zero => exact ⟨_, _, _, rfl⟩
  | succ k =>
    rcases hd with hd | ⟨m, q, hm, hq, hd⟩
    · exact (faults_load hd).bind
    · refine .step (load_run hm) ?_
      rw [hq]
      exact .step (x := q) (u := st) rfl (faults_load hd).bind

/-- The pending list is not what it should be: it has been released, or its directory has. -/
theorem Holds.stale (h : Holds heap base next z) (hz : z.frames = ⟨p, rest⟩ :: up)
    (hc : z.freed.isSome || !z.child.isEmpty) :
    (∃ d, (z.freed <|> headAddr z.child) = some d ∧
      (∀ heap' q, q.addr = p.addr → Nodes heap' (q :: otherNodes z rest up) → Stale heap' d) ∧
      (z.child = [] ∨ ∃ k ks, z.child = k :: ks ∧ k.parent ≠ some p.addr)) ∨
    ∃ r k ks, z.root = some r ∧ z.freed = none ∧ z.child = k :: ks ∧
      ∀ k ∈ z.child, Below base r z.frames k := by
  have hdead : ∀ {d heap' q}, Dead next z.nodes d → q.addr = p.addr →
      Nodes heap' (q :: otherNodes z rest up) → heap' d = none := by
    rintro d heap' q hd ha ho
    refine ho.eq_none fun m hm => ?_
    rw [nodes_cons hz] at hd
    rcases List.mem_cons.mp hm with rfl | hm
    · exact ha.trans_ne (hd.2 p (by simp))
    · exact hd.2 m (List.mem_cons_of_mem _ hm)
  cases hf : z.freed with
  | some d =>
    obtain ⟨hd, hnil⟩ := h.freed d hf
    exact .inl ⟨d, rfl, fun heap' q ha ho => .inl (hdead hd ha ho), .inl hnil⟩
  | none =>
    cases hk : z.child with
    | nil => simp [hf, hk] at hc
    | cons k ks =>
      rcases h.child with h0 | ⟨r, hr, hb⟩ | ⟨d, hd, hp⟩
      · simp [hk] at h0
      · exact .inr ⟨r, k, ks, hr, rfl, rfl, hk ▸ hb⟩
      · refine .inl ⟨k.addr, rfl, fun heap' q ha ho => .inr ⟨k, d, ho.get ?_, hp k (by simp [hk]),
          hdead hd ha ho⟩, .inr ⟨k, ks, rfl, fun he => ?_⟩⟩
        · simp [otherNodes, hk]
        · rw [hp k (by simp [hk]), Option.some.injEq] at he
          exact hd.2 p (by simp [nodes_cons hz]) he.symm

theorem readPending_lock (h : Rep st { z with frames := ⟨p, rest⟩ :: up }) (hi : ¬IsInit p)
    (hc : z.freed.isSome || !z.child.isEmpty) :
    Lock (readPending E p.addr) (Walk.readPending E z p rest up) st Same := by
  obtain ⟨r, hr, hp, hroot⟩ := h.path rfl hi
  have ho := h.holds.owns_cons rfl
  have hb := hp.2.1 p (by simp [Frame.nodes])
  have hg := h.holds.ground rfl hr hp hroot
  unfold readPending Walk.readPending
  refine lock_load ho.head (lock_right (fun _ => rfl) (fun _ => rfl) (lock_accArg ho hg.mem hb.acc ?_))
  refine lock_keeps (keeps_anchors keeps_safeChangedir) fun failed st₁ h₁ hh₁ => ?_
  have hr₁ := h.of_sys h₁ hh₁
  have ho₁ := hr₁.holds.owns_cons rfl
  have hchild₁ : st₁.child = (z.freed <|> headAddr z.child) := hr₁.child
  rcases hr₁.holds.stale rfl hc with ⟨d, hd, hstale, hcrash⟩ | ⟨r', k, ks, hr', hf, hk, hbk⟩
  · have hfault : Faults (if failed = true then do
        let e ← onSys getErrno
        update p.addr fun n => { n with errno := e, dontchdir := true }
        let k ← listFuel
        pathFromParent k (← getChild)
        readChild
      else readChild : M ω _) st₁ := by
      have ho₂ := ho₁.store (z := { p with errno := st₁.sys.errno, dontchdir := true }) rfl
      split
      · refine .step (m := onSys getErrno) (u := st₁) rfl (.step (update_run ho₁.head _) ?_)
        refine .step (m := listFuel) rfl (.step (getChild_run (hchild₁.trans hd)) ?_)
        exact (pathFromParent_faults _ (hstale _ { p with errno := st₁.sys.errno, dontchdir := true } rfl ho₂)).bind
      · exact readChild_faults (hchild₁.trans hd) (hstale _ p rfl ho₁)
    refine lock_right (fun _ => rfl) (fun _ => rfl) ?_
    rcases hcrash with hnil | ⟨k, ks, hk, hne⟩
    · obtain ⟨fs, root, child, freed, leaked⟩ := z
      obtain rfl : child = [] := hnil
      exact lock_crash hfault rfl
    · obtain ⟨fs, root, child, freed, leaked⟩ := z
      obtain rfl : child = k :: ks := hk
      refine lock_crash hfault ?_
      split <;> exact decide_eq_true hne
  · obtain ⟨fs, root, child, freed, leaked⟩ := z
    obtain rfl : child = k :: ks := hk
    obtain rfl : freed = none := hf
    have hk := hbk k (by simp)
    obtain rfl : root = some r' := hr'
    obtain rfl : r' = r := by simpa using hr
    cases failed with
    | false =>
      refine lock_right (fun _ => rfl) (fun _ => rfl) (lock_calm ?_ ?_)
      · exact decide_eq_false (not_not_intro hk.parent)
      · change Lock readChild (Walk.readName ⟨_, _, [], none, leaked⟩ k (ks.map fun k => k) _) _ _
        rw [List.map_id'']
        · exact readChild_lock (z := ⟨_, _, k :: ks, none, leaked⟩)
            (hr₁.holds.descend rfl rfl (h₁.addr.symm ▸ hp) hroot hbk) rfl (by simp) hchild₁
        · exact fun _ => rfl
    | true =>
      refine lock_errno (lock_update ho₁ rfl rfl fun st₂ h₂ _ ho₂ => lock_gets
        (sim_silent (getChild_run (h₂.child.trans hchild₁)) rfl ?_))
      have hr₂ := hr₁.change (q := { p with errno := st₁.sys.errno, dontchdir := true })
        rfl h₂ rfl (fun h' => absurd h' hi) ho₂
      set p' : Ftsent := { p with errno := st₁.sys.errno, dontchdir := true }
      have hperm : ∀ l : List Ftsent, (Walk.nodes ⟨⟨p', rest⟩ :: up, some r', l, none, leaked⟩).Perm
          (l ++ Walk.nodes ⟨⟨p', rest⟩ :: up, some r', [], none, leaked⟩) := fun l => by
        simp only [Walk.nodes, List.append_nil, List.append_assoc]
        simpa only [List.append_assoc] using List.perm_append_comm_assoc
          (List.flatMap Frame.nodes (⟨p', rest⟩ :: up) ++ (some r').toList) l leaked
      have hp₂ : Path st₂.sys.path.addr r' (⟨p', rest⟩ :: up) := by
        rw [h₂.addr, h₁.addr]
        exact hp.congr rfl
      have hbk₂ : ∀ m ∈ k :: ks, Below st₂.sys.path.addr r' (⟨p', rest⟩ :: up) m := fun m hm => by
        rw [h₂.addr]
        exact (hbk m hm).congr_up rfl
      refine lock_runs (pathFromParent_run p' (k :: ks) _ _ _ hr₂.holds.chain
        (hr₂.holds.owns.perm (hperm _)) (by simp [mem_nodes, Frame.nodes])
        (fun m hm => (hbk₂ m hm).parent) ?_) fun st₃ h₃ _ ho₃ => ?_
      · have := (hr₂.holds.owns.perm (hperm _)).length_le
          fun n hn => hr₂.holds.fresh n ((hperm _).symm.subset hn)
        simp only [List.length_append] at this
        omega
      refine lock_calm (decide_eq_false (not_not_intro hk.parent)) ?_
      change Lock readChild (Walk.readName ⟨_, _, [], none, leaked⟩ { k with accpath := p.accpath }
        (ks.map fun k => { k with accpath := p.accpath }) (⟨p', rest⟩ :: up)) _ _
      have hbl : ∀ m ∈ (k :: ks).map (fun n => { n with accpath := p'.accpath }),
          Below st₂.sys.path.addr r' (⟨p', rest⟩ :: up) m := fun m hm => by
        obtain ⟨n, hn, rfl⟩ := List.mem_map.mp hm
        exact ⟨(hbk₂ n hn).parent, (hbk₂ n hn).level, (hbk₂ n hn).path, fun a ha =>
          List.mem_cons_of_mem _ (hb.acc a ha)⟩
      have hh₃ := hr₂.holds.setChild (g := st₃.heap) rfl (by simp) (hr₂.holds.chain.map
        (g := fun n => { n with accpath := p'.accpath }) fun _ => ⟨rfl, rfl⟩) hbl
        (ho₃.perm (hperm _).symm)
      exact readChild_lock (z := ⟨_, some r', _, none, leaked⟩)
        (by rw [h₃.addr, h₃.next]; exact hh₃.descend rfl rfl hp₂ hroot hbl)
        rfl (by simp) (h₃.child.trans hr₂.child)

/-- The pending list is released, and `fts_child` still points to it. -/
theorem Ready.release (h : Ready st z) (hf : z.freed = none) :
    ∃ h', Runs (ftsLfree (st.sys.next + 1) st.child) st () h' ∧
      Holds h' st.sys.path.addr st.sys.next { z with child := [], freed := headAddr z.child } := by
  have hperm : z.nodes.Perm (z.child ++ Walk.nodes { z with child := [] }) := by
    simp only [Walk.nodes, List.append_nil, List.append_assoc]
    simpa only [List.append_assoc] using List.perm_append_comm_assoc
      (z.frames.flatMap Frame.nodes ++ z.root.toList) z.child z.leaked
  have ho := h.holds.owns.perm hperm
  have hsub : Walk.nodes { z with child := [] } ⊆ z.nodes := fun n hn =>
    hperm.symm.subset (List.mem_append_right _ hn)
  have hlen := ho.length_le fun n hn => h.holds.fresh n (hperm.symm.subset hn)
  rw [List.length_append] at hlen
  obtain ⟨h', hr, ho'⟩ := lfree_run _ z.child (st.sys.next + 1) st h.holds.chain ho (by omega)
  refine ⟨h', ?_, ho', fun n hn => h.holds.fresh n (hsub hn), h.holds.shape, trivial, .inl rfl, ?_⟩
  · rw [h.child, hf]
    exact hr
  · intro a ha
    refine ⟨?_, rfl⟩
    cases hk : z.child with
    | nil => simp [hk] at ha
    | cons k ks =>
      obtain rfl : k.addr = a := by simpa [hk] using ha
      refine ⟨h.holds.fresh k (by simp [mem_nodes, hk]), fun n hn => ?_⟩
      rw [hk, List.cons_append] at ho
      exact ho.ne_of_mem (List.mem_append_right _ hn)

/-- A pending list that has been released is not released again. -/
theorem Ready.release_faults (h : Ready st z) (hf : z.freed.isSome = true) :
    Faults (ftsLfree (st.sys.next + 1) st.child) st := by
  obtain ⟨d, hd⟩ := Option.isSome_iff_exists.mp hf
  have hc : st.child = some d := by rw [h.child, hd]; rfl
  rw [hc]
  exact lfree_dead (h.holds.owns.eq_none (h.holds.freed d hd).1.2) _

theorem dropChild_lock (h : Ready st z) :
    Lock dropChild (crashIf z.freed.isSome) st fun _ st' _ =>
      Ready st' { z with child := [], freed := none } ∧ st'.cur = st.cur := by
  refine lock_bind_pure ?_
  cases hf : z.freed with
  | some d =>
    refine lock_crash (.step (m := listFuel) (u := st) rfl (.step (getChild_run rfl) ?_)) rfl
    exact (h.release_faults (by rw [hf]; rfl)).bind
  | none =>
    obtain ⟨h', hr, hh⟩ := h.release hf
    refine lock_calm rfl (lock_gets (sim_silent (getChild_run rfl) rfl (sim_silent hr rfl ?_)))
    refine .inl ⟨(), _, rfl, rfl, ⟨⟨?_, rfl⟩, rfl⟩⟩
    exact ⟨hh.owns, hh.fresh, hh.shape, trivial, .inl rfl, fun a ha => by cases ha⟩

theorem Ready.pending (h : Ready st z) : st.child.isSome = (z.freed.isSome || !z.child.isEmpty) := by
  rw [h.child]
  cases z.freed <;> cases z.child <;> rfl

theorem readDir_lock {i : Instr} (h : Rep st { z with frames := ⟨p, rest⟩ :: up })
    (hi : ¬IsInit p) :
    Lock (readDir E p.addr i) (Walk.readDir E z p rest up i) st Same := by
  obtain ⟨fs, root, child, freed, leaked⟩ := z
  have ho := h.holds.owns_cons rfl
  unfold readDir Walk.readDir
  refine lock_load ho.head (lock_get (sim_ite (fun _ => ?_) fun _ => ?_))
  · refine lock_keeps (keeps_anchors keeps_closeSymfd) fun _ st₁ h₁ hh₁ => ?_
    have hr₁ := h.of_sys h₁ hh₁
    refine sim_bind (dropChild_lock (z := ⟨⟨p, rest⟩ :: up, root, child, freed, leaked⟩)
      hr₁.toReady) ?_
    rintro - st₂ - ⟨hr₂, hc₂⟩ - -
    refine lock_keeps (anchors_of_fixed fixed_cyclePop) fun _ st₃ h₃ hh₃ => ?_
    have hr₃ := hr₂.of_sys h₃ hh₃
    refine lock_update (hr₃.holds.owns_cons rfl) rfl rfl fun st₄ h₄ _ ho₄ => ?_
    have hr₄ := hr₃.change (q := { p with info := .dp }) rfl h₄ rfl (fun h' => absurd h' hi) ho₄
    refine lock_keeps (.emit _) fun _ st₅ h₅ hh₅ => lock_pure ⟨rfl, hr₄.of_sys h₅ hh₅, ?_⟩
    exact (h₃.trans (h₄.trans h₅)).cur.trans (hc₂.trans hr₁.cur)
  refine lock_keeps (anchors_of_fixed fixed_cyclePush) fun failed st₁ h₁ hh₁ => ?_
  have hr₁ := h.of_sys h₁ hh₁
  refine sim_ite (fun _ => ?_) fun _ => ?_
  · refine lock_keeps (anchors_of_fixed fixed_setStop) fun _ st₂ h₂ hh₂ => lock_errno ?_
    have hr₂ := hr₁.of_sys h₂ hh₂
    refine lock_update (hr₂.holds.owns_cons rfl) rfl rfl fun st₃ h₃ _ ho₃ => lock_pure ⟨rfl, ?_⟩
    exact ⟨hr₂.change rfl h₃ rfl (fun h' => absurd h' hi) ho₃, h₃.cur.trans hr₂.cur⟩
  refine sim_silent (getChild_run rfl) rfl ?_
  rw [hr₁.pending]
  refine sim_ite (fun hc => sim_ite (fun _ => ?_) fun _ => readPending_lock hr₁ hi hc) fun hc => ?_
  · refine lock_keeps (anchors_of_fixed fixed_setNameonly) fun _ st₂ h₂ hh₂ => ?_
    have hr₂ := hr₁.of_sys h₂ hh₂
    refine sim_bind (dropChild_lock (z := ⟨⟨p, rest⟩ :: up, root, child, freed, leaked⟩)
      hr₂.toReady) ?_
    rintro - st₃ - ⟨hr₃, hc₃⟩ - -
    exact readFresh_lock ⟨hr₃, hc₃.trans hr₂.cur⟩ rfl hi rfl rfl
  · have hc' : freed = none ∧ child = [] := by simpa using hc
    exact readFresh_lock hr₁ rfl hi hc'.2 hc'.1

/-- A node below a path is not the one before the roots. -/
theorem Path.not_init (h : Path base r (⟨p, rest⟩ :: up)) : ¬IsInit p := fun hi => by
  have := hi.parent
  rw [(h.2.1 p (by simp [Frame.nodes])).parent] at this
  cases this

/-- Asked again, the current node keeps its place whatever it turns out to be. -/
theorem again_lock (h : Rep st { z with frames := ⟨p, rest⟩ :: up }) :
    Lock (ftsStat E p.addr false none) (Walk.stat E p (pathNodes up) false none) st
      fun i st' iq => i = iq.1 ∧ Aside st st' ∧ iq.2.addr = p.addr ∧
        Nodes st'.heap (iq.2 :: otherNodes z rest up) ∧
        ∀ st'', Aside st' st'' → Nodes st''.heap ({ iq.2 with info := i } :: otherNodes z rest up) →
          Rep st'' { z with frames := ⟨{ iq.2 with info := i }, rest⟩ :: up } := by
  have ho := h.holds.owns_cons rfl
  rcases h.holds.shape.cases_cur with ⟨hi, rfl⟩ | ⟨r, hr, hp, hroot⟩
  · refine (stat_lock_init hi ho).mono ?_
    rintro i st₁ ⟨i', q⟩ ⟨rfl, h₁, ho₁, hi', sb, e, hq⟩
    obtain rfl : i = .ns := hi'
    obtain rfl : q = { p with statp := sb, errno := e } := hq
    refine ⟨rfl, h₁, rfl, ho₁, fun st₂ h₂ ho₂ => ⟨?_, (h₁.trans h₂).cur.trans h.cur⟩⟩
    exact h.change (q := { p with statp := sb, errno := e, info := .ns }) rfl (h₁.trans h₂) rfl
      (fun hi => ⟨hi.parent, hi.level, hi.accpath, hi.isw, .inr rfl⟩) ho₂
  · have hr : z.root = some r := hr
    have hb := hp.2.1 p (by simp [Frame.nodes])
    refine (stat_lock false none ho (h.holds.ground rfl hr hp hroot) hb).mono ?_
    rintro i st₁ ⟨i', q⟩ ⟨rfl, h₁, ho₁, hq⟩
    have hq : q.place = p.place := hq
    refine ⟨rfl, h₁, (place_ext.mp hq).1, ho₁, fun st₂ h₂ ho₂ => ⟨?_, ?_⟩⟩
    · exact h.change (q := { q with info := i }) rfl (h₁.trans h₂) hq
        (fun hi => absurd hi hp.not_init) ho₂
    · refine (h₁.trans h₂).cur.trans (h.cur.trans ?_)
      exact congrArg some (place_ext.mp hq).1.symm

theorem read_lock (h : Rep st z) : Lock (ftsRead E) (Walk.read E z) st Same := by
  obtain ⟨fs, root, child, freed, leaked⟩ := z
  unfold ftsRead Walk.read
  refine sim_silent (x := _) (u := st) rfl rfl ?_
  have hcur := h.cur
  rcases fs with _ | ⟨⟨n, rest⟩, up⟩
  · rw [hcur]
    exact lock_pure ⟨rfl, h⟩
  have hcur : st.cur = some n.addr := hcur
  rw [hcur]
  refine lock_opts (sim_ite (fun _ => lock_pure ⟨rfl, h⟩) fun _ => ?_)
  have ho := h.holds.owns_cons rfl
  refine lock_load ho.head (lock_update ho rfl rfl fun st₁ h₁ hs₁ ho₁ => ?_)
  have hr₁ : Rep st₁ ⟨⟨{ n with instr := .noinstr }, rest⟩ :: up, root, child, freed, leaked⟩ :=
    ⟨h.change rfl h₁ rfl (fun hi => ⟨hi.parent, hi.level, hi.accpath, hi.isw, hi.info⟩) ho₁,
      h₁.cur.trans h.cur⟩
  refine sim_ite (fun _ => ?_) fun _ => sim_ite (fun hsl => ?_) fun _ => sim_ite (fun hd => ?_)
    fun _ => ?_
  · have hag := again_lock (E := E) (z := ⟨[], root, child, freed, leaked⟩) hr₁
    refine sim_bind hag ?_
    rintro i st₂ ⟨i', q⟩ ⟨rfl, h₂, ha, ho₂, hrep⟩ - -
    have ha : q.addr = n.addr := ha
    refine lock_update ho₂ ha rfl fun st₃ h₃ _ ho₃ => lock_pure ⟨rfl, hrep st₃ h₃ ho₃⟩
  · obtain ⟨r, hr, hp, hroot⟩ := hr₁.path rfl fun hi => by
      rcases hi.info with h' | h' <;> rcases hsl.2 with h'' | h'' <;> simp_all
    have hfl := followLink_lock (E := E) ho₁ (hr₁.holds.ground rfl hr hp hroot)
      (hp.2.1 _ (by simp [Frame.nodes]))
    refine sim_bind hfl ?_
    rintro - st₂ q ⟨h₂, ho₂, hq⟩ - -
    have ha : some n.addr = some q.addr := congrArg some (place_ext.mp hq).1.symm
    have hr₂ := hr₁.change (q := q) rfl h₂ hq (fun hi => absurd hi hp.not_init) ho₂
    exact lock_pure ⟨rfl, hr₂, h₂.cur.trans (hr₁.cur.trans ha)⟩
  · have hrd := readDir_lock (E := E) (i := n.instr)
      (z := ⟨⟨n, rest⟩ :: up, root, child, freed, leaked⟩) hr₁ (not_init_of_info hd (by simp) (by simp))
    exact hrd
  · have hrn := readNext_lock (E := E) (z := ⟨⟨n, rest⟩ :: up, root, child, freed, leaked⟩) rest
      (st₁.sys.next + 1) _ st₁ ?_ hr₁.toReady
    · exact lock_gets hrn
    have := ho₁.length_le fun m hm => hr₁.holds.fresh m (by rwa [nodes_cons rfl])
    simp only [otherNodes, List.length_cons, List.length_append] at this
    omega

end MuslBsd.Fts
