import MuslBsd.Fts.Refinement.Read

/-! `fts_set`, `fts_children` and `fts_close` over the heap and over lists, in lockstep. -/
namespace MuslBsd.Fts
open MuslBsd.Support Traced

variable {ω : Type} {E : Env ω} {st st' : St ω} {z : Walk} {n p q r : Ftsent} {rest : List Ftsent}
  {up : List Frame} {base : ℕ} {next : NodeId} {heap heap' : NodeId → Option Ftsent}

/-! ### Changing one node -/

section Map

variable {g : Ftsent → Ftsent}

theorem flatMap_nodes_map (fs : List Frame) :
    (fs.map (Frame.map g)).flatMap Frame.nodes = (fs.flatMap Frame.nodes).map g := by
  induction fs with
  | nil => rfl
  | cons f up ih => rw [List.map_cons, List.flatMap_cons, ih, List.flatMap_cons, List.map_append]; rfl

theorem map_addr (hg : ∀ n, (g n).place = n.place) (l : List Ftsent) :
    (l.map g).map Ftsent.addr = l.map Ftsent.addr := by
  rw [List.map_map]
  exact List.map_congr_left fun n _ => (place_ext.mp (hg n)).1

theorem Below.map (hg : ∀ n, (g n).place = n.place) (h : Below base r up n) :
    Below base (g r) (up.map (Frame.map g)) (g n) := by
  have h' : Below base (g r) up (g n) := by
    obtain ⟨hp, hl, hb, ha⟩ := h.congr (hg n)
    refine ⟨hp.trans ?_, hl, hb, ha⟩
    cases up with
    | nil => exact congrArg some (place_ext.mp (hg r)).1.symm
    | cons f up => rfl
  exact h'.congr_up (by rw [pathNodes_map, map_addr hg])

theorem Chained.place (hg : ∀ n, (g n).place = n.place) {l : List Ftsent} (h : Chained l) :
    Chained (l.map g) :=
  h.map fun n => ⟨(place_ext.mp (hg n)).1, (place_ext.mp (hg n)).2.2.1⟩

theorem Path.map (hg : ∀ n, (g n).place = n.place) (h : Path base r up) :
    Path base (g r) (up.map (Frame.map g)) := by
  induction up with
  | nil => trivial
  | cons f up ih =>
    refine ⟨h.1.place hg, fun n hn => ?_, ih h.2.2⟩
    obtain ⟨m, hm, rfl⟩ := List.mem_map.mp (show n ∈ f.nodes.map g from hn)
    exact (h.2.1 m hm).map hg

theorem Shape.map (hg : ∀ n, (g n).place = n.place) (hi : ∀ n, IsInit n → IsInit (g n))
    {root : Option Ftsent} {fs : List Frame} (h : Shape base root fs) :
    Shape base (root.map g) (fs.map (Frame.map g)) := by
  have hlev : ∀ {r : Ftsent}, r.level = rootParentLevel → (g r).level = rootParentLevel :=
    fun hr => (place_ext.mp (hg _)).2.2.2.1.trans hr
  cases h with
  | ended => exact .ended
  | empty hn hl => exact .empty (hi _ hn) ((place_ext.mp (hg _)).2.2.1.trans hl)
  | fresh hn hne hc hb hr =>
    refine .fresh (hi _ hn) (by simpa using hne) (hc.place hg) (fun m hm => ?_) (hlev hr)
    obtain ⟨k, hk, rfl⟩ := List.mem_map.mp hm
    exact (hb k hk).map hg
  | inside hne hp hr => exact .inside (by simpa using hne) (hp.map hg) (hlev hr)

end Map

theorem nodes_updateAt (a : NodeId) (g : Ftsent → Ftsent) (z : Walk) :
    (z.updateAt a g).nodes = z.nodes.map fun n => if n.addr = a then g n else n := by
  simp only [Walk.nodes, Walk.updateAt, List.map_append, flatMap_nodes_map]
  cases z.root <;> rfl

theorem Holds.updateAt (h : Holds heap base next z) {a : NodeId} {g : Ftsent → Ftsent}
    (hg : ∀ n, (g n).place = n.place) (hi : ∀ n, IsInit n → IsInit (g n))
    (ho : Nodes heap' (z.updateAt a g).nodes) : Holds heap' base next (z.updateAt a g) := by
  have hg' : ∀ n : Ftsent, (if n.addr = a then g n else n).place = n.place := fun n => by
    split
    · exact hg n
    · rfl
  have hi' : ∀ n : Ftsent, IsInit n → IsInit (if n.addr = a then g n else n) := fun n hn => by
    split
    · exact hi n hn
    · exact hn
  have hsub : (z.updateAt a g).nodes.map Ftsent.addr ⊆ z.nodes.map Ftsent.addr := by
    rw [nodes_updateAt, map_addr hg']
    exact fun _ => id
  refine ⟨ho, fresh_of_subset hsub h.fresh, h.shape.map hg' hi', h.chain.place hg', ?_, fun d hd =>
    ⟨(h.freed d hd).1.of_subset hsub, ?_⟩⟩
  · rcases h.child with h0 | ⟨r, hr, hb⟩ | ⟨d, hd, hp⟩
    · exact .inl (by simp only [Walk.updateAt, h0, List.map_nil])
    · refine .inr (.inl ⟨_, by rw [Walk.updateAt, hr]; rfl, fun k hk => ?_⟩)
      obtain ⟨m, hm, rfl⟩ := List.mem_map.mp hk
      exact (hb m hm).map hg'
    · refine .inr (.inr ⟨d, hd.of_subset hsub, fun k hk => ?_⟩)
      obtain ⟨m, hm, rfl⟩ := List.mem_map.mp hk
      exact (place_ext.mp (hg' m)).2.1.trans (hp m hm)
  · simp only [Walk.updateAt, (h.freed d hd).2, List.map_nil]

theorem headAddr_updateAt {a : NodeId} {g : Ftsent → Ftsent} (hg : ∀ n, (g n).addr = n.addr)
    (l : List Ftsent) : headAddr (l.map fun n => if n.addr = a then g n else n) = headAddr l :=
  headAddr_map (fun n => by split <;> simp [hg]) l

theorem set_lock {instr : ℤ} (h : Rep st z) (p : NodeId) :
    Lock (ftsSet p instr) (Walk.set p instr z) st fun x st' y => x = y.1 ∧ Rep st' y.2 := by
  unfold ftsSet Walk.set
  cases hinstr : Instr.ofInt? instr with
  | none => exact lock_keeps (keeps_anchors keeps_setErrno) fun _ st₁ h₁ hh₁ =>
      lock_pure ⟨rfl, h.of_sys h₁ hh₁⟩
  | some i =>
    dsimp only
    by_cases hp : ∃ n ∈ z.nodes, n.addr = p
    · obtain ⟨n, hn, rfl⟩ := hp
      refine lock_calm ?_ ?_
      · rw [List.all_eq_false]
        exact ⟨n, hn, by simp⟩
      have ho := h.holds.owns.modify hn (g := fun n => { n with instr := i }) rfl
      rw [← nodes_updateAt] at ho
      refine lock_runs ⟨_, runs_update (h.holds.owns.get hn) _, ho⟩ fun st₁ h₁ hs₁ ho₁ =>
        lock_pure ⟨rfl, ⟨?_, ?_⟩, ?_⟩
      · rw [h₁.addr, h₁.next]
        exact h.holds.updateAt (fun _ => rfl)
          (fun _ hi => ⟨hi.parent, hi.level, hi.accpath, hi.isw, hi.info⟩) ho₁
      · rw [h₁.child, h.child]
        exact congrArg (z.freed <|> ·) (headAddr_updateAt (a := n.addr)
          (g := fun n => { n with instr := i }) (fun _ => rfl) z.child).symm
      · rw [h₁.cur, h.cur]
        obtain ⟨_ | ⟨f, up⟩, root, child, freed, leaked⟩ := z
        · rfl
        · refine congrArg some ?_
          change _ = Ftsent.addr (if _ then _ else _)
          split <;> rfl
    · push Not at hp
      refine lock_crash ?_ (List.all_eq_true.mpr fun n hn => by simpa using hp n hn)
      refine Faults.bind ⟨.freed, st, [], ?_⟩
      simp only [update, h.holds.owns.eq_none hp]

/-! ### Reading a directory early -/

theorem accIsRelative_lock (ho : Nodes st.heap (p :: rest)) (hm : ∀ n ∈ pathNodes up, n ∈ rest)
    (hacc : ∀ a, p.accpath = .name a → a ∈ (p :: pathNodes up).map Ftsent.addr) :
    Lock (accIsRelative p) (Walk.accIsRelative p (pathNodes up)) st fun x st' y => x = y ∧ st' = st := by
  unfold accIsRelative Walk.accIsRelative
  have hsys : val (getSys : SysM ω (Sys ω)) st.sys = st.sys := rfl
  refine lock_right (fun _ => rfl) (fun _ => rfl) (lock_accArg ho hm hacc ?_)
  rw [hsys]
  cases accArgOf st.sys p (pathNodes up) with
  | null => exact lock_crash ⟨_, _, _, rfl⟩ rfl
  | wild => exact lock_crash ⟨_, _, _, rfl⟩ rfl
  | str t => exact lock_pure ⟨rfl, rfl⟩

theorem Built.rep {kids : List Ftsent} {x : Option NodeId} {z' : Walk} (hb : Built st st' z x kids z')
    (hcur : st.cur = z.frames.head?.map fun f => f.node.addr) :
    Rep { st' with child := x } { z' with child := kids, freed := none } where
  holds := hb.holds
  child := hb.ans
  cur := hb.ptrs.cur.trans (hcur.trans hb.cur.symm)

theorem childrenDir_lock {type : BuildType} (h : Rep st z) (hz : z.frames = ⟨p, rest⟩ :: up)
    (hi : ¬IsInit p) (hc : z.child = []) :
    Lock (childrenDir E p type) (Walk.childrenDir E z p up type) st Same := by
  obtain ⟨r, hr, hp, hroot⟩ := h.path hz hi
  have ho := h.holds.owns_cons hz
  have hg := h.holds.ground hz hr hp hroot
  have hchild : st.child = z.freed := by
    rw [h.child, hc]
    cases z.freed <;> rfl
  have hbuild : ∀ st₁ : St ω, Aside st st₁ → st₁.heap = st.heap →
      Lock (ftsBuild E type) (Walk.build E type z) st₁ fun x st' y => Built st₁ st' z x y.1 y.2 :=
    fun st₁ h₁ hh₁ => by
      have hr₁ := h.of_sys h₁ hh₁
      exact build_lock hr₁.holds hz hr (by rw [hz, h₁.addr]; exact hp) hroot hc
        (h₁.child.trans hchild) (by rw [hr₁.cur, hz]; rfl)
  unfold childrenDir Walk.childrenDir
  refine lock_opts ?_
  have hrel : Lock (if p.level = rootLevel then accIsRelative p else pure false)
      (if p.level = rootLevel then Walk.accIsRelative p (pathNodes up) else pure false) st
      fun x st' y => x = y ∧ st' = st :=
    sim_ite (fun _ => accIsRelative_lock ho hg.mem
      (hp.2.1 p (by simp [Frame.nodes])).acc) fun _ => lock_pure ⟨rfl, rfl⟩
  refine sim_bind hrel ?_
  rintro rel st₁ - ⟨rfl, rfl⟩ - -
  refine sim_ite (fun _ => lock_keeps (keeps_anchors keeps_callOpen) fun cwd st₂ h₂ hh₂ => ?_)
    fun _ => ?_
  · cases cwd with
    | none => exact lock_pure ⟨rfl, h.of_sys h₂ hh₂⟩
    | some cwd =>
      refine sim_bind (hbuild st₂ h₂ hh₂) ?_
      rintro x st₃ ⟨kids, z'⟩ hb - -
      have hrep := hb.rep (h.of_sys h₂ hh₂).cur
      refine lock_setChild (lock_keeps (keeps_anchors keeps_callFchdir) fun failed st₄ h₄ hh₄ =>
        lock_keeps (keeps_anchors keeps_callClose) fun _ st₅ h₅ hh₅ => lock_pure ⟨?_, ?_⟩)
      · rw [hb.ans]
      · exact (hrep.of_sys h₄ hh₄).of_sys h₅ hh₅
  · refine sim_bind (hbuild st₁ (.refl _) rfl) ?_
    rintro x st₃ ⟨kids, z'⟩ hb - -
    exact lock_setChild (lock_pure ⟨hb.ans, hb.rep h.cur⟩)

theorem children_lock {instr : ℤ} (h : Rep st z) :
    Lock (ftsChildren E instr) (Walk.children E instr z) st Same := by
  obtain ⟨fs, root, child, freed, leaked⟩ := z
  unfold ftsChildren Walk.children
  refine sim_ite (fun _ => lock_keeps (keeps_anchors keeps_setErrno) fun _ st₁ h₁ hh₁ =>
    lock_pure ⟨rfl, h.of_sys h₁ hh₁⟩) fun _ => ?_
  refine sim_silent (x := _) (u := st) rfl rfl ?_
  have hcur := h.cur
  rcases fs with _ | ⟨⟨c, rest⟩, up⟩
  · rw [hcur]
    exact lock_pure ⟨rfl, h⟩
  have hcur : st.cur = some c.addr := hcur
  rw [hcur]
  refine lock_opts (sim_ite (fun _ => lock_pure ⟨rfl, h⟩) fun _ => ?_)
  have ho := h.holds.owns_cons rfl
  refine lock_load ho.head (sim_ite (fun _ => lock_pure ⟨rfl, h⟩) fun _ => sim_ite (fun _ => ?_)
    fun hd => ?_)
  · exact lock_keeps (keeps_anchors keeps_setErrno) fun _ st₁ h₁ hh₁ => lock_pure ⟨rfl, h.of_sys h₁ hh₁⟩
  have hi : ¬IsInit c := not_init_of_info (not_not.mp hd) (by simp) (by simp)
  refine sim_silent (x := st.sys.next + 1) (u := st) rfl rfl (sim_silent (getChild_run rfl) rfl ?_)
  cases hf : freed with
  | some d => exact lock_crash (h.release_faults (by rw [hf]; rfl)).bind rfl
  | none =>
    subst hf
    obtain ⟨h', hr, hh⟩ := h.release rfl
    refine lock_calm rfl (sim_silent hr rfl ?_)
    have hrep : Rep { st with heap := h' }
        ⟨⟨c, rest⟩ :: up, root, [], headAddr child, leaked⟩ := by
      refine ⟨⟨hh, ?_⟩, hcur⟩
      change st.child = _
      rw [h.child]
      cases headAddr child <;> rfl
    refine lock_ite_keeps (anchors_of_fixed fixed_setNameonly) fun _ st₁ h₁ hh₁ => ?_
    have hr₁ := hrep.of_sys h₁ hh₁
    refine lock_keeps (anchors_of_fixed fixed_cyclePush) fun failed st₂ h₂ hh₂ => ?_
    have hr₂ := hr₁.of_sys h₂ hh₂
    refine sim_ite (fun _ => ?_) fun _ => childrenDir_lock hr₂ rfl hi rfl
    exact lock_keeps (keeps_anchors keeps_setErrno) fun _ st₃ h₃ hh₃ =>
      lock_pure ⟨rfl, hr₂.of_sys h₃ hh₃⟩

/-! ### Closing -/

/-- From the current node all siblings and ancestors are reached, up to the parent of the roots. -/
theorem Shape.trail {fs : List Frame} (h : Shape base (some r) fs) (hne : fs ≠ []) :
    Trail r.addr (fs.flatMap Frame.nodes) ∧ (∀ n ∈ fs.flatMap Frame.nodes, rootLevel ≤ n.level) ∧
      r.level = rootParentLevel := by
  cases h with
  | fresh hn hne' hc hb hr =>
    rename_i n rest
    have htrail := Trail.of_chained hc.2 fun m hm => (hb m hm).parent
    refine ⟨?_, fun m hm => ?_, hr⟩
    · obtain ⟨m, ms, rfl⟩ := List.exists_cons_of_ne_nil hne'
      simp only [List.flatMap_cons, List.flatMap_nil, List.append_nil, Frame.nodes]
      refine ⟨?_, htrail⟩
      rw [hc.1]
      rfl
    · have hm : m ∈ n :: rest := by simpa [Frame.nodes] using hm
      rcases List.mem_cons.mp hm with rfl | hm
      · exact hn.level.ge
      · rw [(hb m hm).level]
        exact le_rfl
  | inside _ hp hr => exact ⟨hp.trail, hp.level_nonneg, hr⟩

theorem closeUp_none (k : ℕ) : Faults (closeUp k none) st := by
  cases k with
  | zero => exact ⟨_, _, _, rfl⟩
  | succ k => exact Faults.bind ⟨_, _, _, rfl⟩

theorem closeUp_lock (h : Rep st z) :
    Lock (match st.cur with
        | none => pure ()
        | some a => do
          let n ← load a
          onSys (closeSymfd E n)
          let k ← listFuel
          closeUp k (some a))
      (match z.frames with
      | [] => pure ()
      | f :: _ => do
        closeSymfd E f.node
        crashIf z.root.isNone) st fun _ st' _ => Aside st st' ∧ Nodes st'.heap (z.child ++ z.leaked) := by
  obtain ⟨fs, root, child, freed, leaked⟩ := z
  have hcur := h.cur
  rcases fs with _ | ⟨⟨n, rest⟩, up⟩
  · rw [hcur]
    have hroot : root = none := by
      have hsh := h.holds.shape
      change Shape _ root [] at hsh
      cases hsh with
      | ended => rfl
      | inside hne => exact absurd rfl hne
    have ho := h.holds.owns
    rw [show Walk.nodes ⟨[], root, child, freed, leaked⟩ = child ++ leaked by simp [Walk.nodes, hroot]]
      at ho
    exact lock_pure ⟨.refl st, ho⟩
  have hcur : st.cur = some n.addr := hcur
  rw [hcur]
  refine lock_load (h.holds.owns_cons rfl).head
    (lock_keeps (keeps_anchors keeps_closeSymfd) fun _ st₁ h₁ hh₁ => lock_gets (lock_bind_pure ?_))
  have hr₁ := h.of_sys h₁ hh₁
  have ho₁ := hr₁.holds.owns_cons rfl
  have hsh := hr₁.holds.shape
  cases root with
  | none =>
    change Shape _ none _ at hsh
    cases hsh with
    | empty hn hl =>
      refine lock_crash ?_ rfl
      refine .step (x := n.addr) (u := st₁) rfl (.step (load_run ho₁.head)
        (.step (free_run ho₁.head) ?_))
      rw [if_pos hn.level.ge, hl, hn.parent]
      exact closeUp_none _
  | some r =>
    obtain ⟨ht, hlev, hroot⟩ := hsh.trail (by simp)
    have hn : Walk.nodes ⟨⟨n, rest⟩ :: up, some r, child, freed, leaked⟩ =
        List.flatMap Frame.nodes (⟨n, rest⟩ :: up) ++ r :: (child ++ leaked) := by
      simp [Walk.nodes]
    have hlen := hr₁.holds.owns.length_le hr₁.holds.fresh
    obtain ⟨h', hrun, ho'⟩ := closeUp_run r (rootParent_lt hroot) (child ++ leaked)
      (List.flatMap Frame.nodes (⟨n, rest⟩ :: up)) (st₁.sys.next + 1) st₁ ht
      (hn ▸ hr₁.holds.owns) hlev (by
        rw [hn, List.length_append, List.length_cons] at hlen
        omega)
    exact lock_calm rfl (lock_last ⟨h', hrun, ho'⟩ fun st₂ h₂ _ ho₂ => ⟨h₁.trans h₂, ho₂⟩)

theorem close_lock (h : Rep st z) :
    Lock (ftsClose E) (Walk.close E z) st fun x st' y => x = y ∧ Nodes st'.heap z.leaked := by
  refine sim_silent (x := st.cur) (u := st) rfl rfl (sim_bind (closeUp_lock h) ?_)
  rintro - st₁ - ⟨h₁, ho₁⟩ - -
  have hc₁ : st₁.child = (z.freed <|> headAddr z.child) := h₁.child.trans h.child
  refine lock_gets (sim_silent (getChild_run hc₁) rfl ?_)
  cases hf : z.freed with
  | some d =>
    refine lock_crash (Faults.bind (lfree_dead (ho₁.eq_none fun n hn => ?_) _)) rfl
    exact (h.holds.freed d hf).1.2 n (by simp [mem_nodes, List.mem_append.mp hn])
  | none =>
    obtain ⟨h', hr, ho'⟩ := lfree_run z.leaked z.child (st₁.sys.next + 1) st₁ h.holds.chain ho₁ (by
      have := ho₁.length_le fun n hn => h₁.next ▸ h.holds.fresh n (by
        simp [mem_nodes, List.mem_append.mp hn])
      rw [List.length_append] at this
      omega)
    refine lock_calm rfl (sim_silent hr rfl ?_)
    refine lock_keeps (anchors_of_fixed fixed_cycleFree) fun _ st₂ h₂ hh₂ =>
      lock_keeps_last (keeps_anchors keeps_closeStart) fun _ st₃ h₃ hh₃ => ⟨rfl, ?_⟩
    rw [hh₃, hh₂]
    exact ho'

end MuslBsd.Fts
