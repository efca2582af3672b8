import MuslBsd.Fts.Refinement.Calls

/-! `fts_open` over the heap and over lists, in lockstep. -/
namespace MuslBsd.Fts
open MuslBsd.Support Traced

variable {ω : Type} {E : Env ω} {st st' : St ω} {n p q r : Ftsent} {roots : List Ftsent}

/-- What `fts_open` has allocated: the roots so far and their parent. -/
structure Roots (st : St ω) (r : Ftsent) (x roots : List Ftsent) : Prop where
  owns : Nodes st.heap (x ++ (roots ++ [r]))
  fresh : ∀ n ∈ x ++ (roots ++ [r]), n.addr < st.sys.next
  chain : Chained roots
  below : ∀ n ∈ x ++ roots, Below st.sys.path.addr r [] n
  root : r.level = rootParentLevel

theorem Roots.of_aside {u : St ω} {x x' roots' : List Ftsent} (h : Roots st r x roots) (hs : Aside st u)
    (ho : Nodes u.heap (x' ++ (roots' ++ [r])))
    (ha : (x' ++ (roots' ++ [r])).map Ftsent.addr ⊆ (x ++ (roots ++ [r])).map Ftsent.addr)
    (hc : Chained roots') (hb : ∀ n ∈ x' ++ roots', Below st.sys.path.addr r [] n) :
    Roots u r x' roots' :=
  ⟨ho, hs.next ▸ fresh_of_subset ha h.fresh, hc, hs.addr ▸ hb, h.root⟩

theorem Roots.of_sys {x : List Ftsent} (h : Roots st r x roots) (hs : Aside st st')
    (hh : st'.heap = st.heap) : Roots st' r x roots :=
  h.of_aside hs (hh ▸ h.owns) (fun _ => id) h.chain h.below

theorem openFail_lock (h : Roots st r [] roots) :
    Lock (openFail (headAddr roots) r.addr) cycleFree st fun _ st' _ =>
      Nodes st'.heap [] ∧ st'.cur = st.cur ∧ st'.child = st.child := by
  obtain ⟨h', hr, ho⟩ := lfree_run [r] roots (st.sys.next + 1) st h.chain h.owns (by
    have := h.owns.length_le h.fresh
    simp only [List.nil_append, List.length_append] at this
    omega)
  refine lock_gets (sim_silent hr rfl (lock_free (l := []) ho rfl fun st₁ h₁ _ ho₁ => ?_))
  refine lock_keeps_last (anchors_of_fixed fixed_cycleFree) fun _ st₂ h₂ hh₂ => ?_
  exact ⟨hh₂ ▸ ho₁, (h₁.trans h₂).cur, (h₁.trans h₂).child⟩

/-- A new root, after `fts_stat` has looked at it, goes to the front or to the end of the list. -/
theorem Roots.alloc (h : Roots st r [] roots) (hc : st'.sys.path.addr = st.sys.path.addr)
    (hn : st'.sys.next = st.sys.next + 1) (ha : p.addr = st.sys.next)
    (ho : Nodes st'.heap (p :: (roots ++ [r]))) (hb : Below st.sys.path.addr r [] p) :
    Roots st' r [p] roots := by
  refine ⟨ho, fun n hn' => ?_, h.chain, fun n hn' => ?_, h.root⟩
  · rcases List.mem_append.mp hn' with hn' | hn'
    · rw [List.mem_singleton.mp hn', ha, hn]
      exact Nat.lt_succ_self _
    · rw [hn]
      exact Nat.lt_succ_of_lt (h.fresh n hn')
  · rw [hc]
    rcases List.mem_append.mp hn' with hn' | hn'
    · rw [List.mem_singleton.mp hn']
      exact hb
    · exact h.below n hn'

theorem Roots.ground {x : List Ftsent} (h : Roots st r x roots) :
    Ground (roots ++ [r]) st.sys.path.addr st.sys.next r [] :=
  ⟨trivial, h.root, by simp, by simp [pathNodes], Nat.zero_le _⟩

theorem Roots.set (h : Roots st r [p] roots) (hs : Aside st st')
    (ho : Nodes st'.heap (q :: (roots ++ [r]))) (hq : q.place = p.place) : Roots st' r [q] roots := by
  refine h.of_aside hs ho ?_ h.chain fun n hn => ?_
  · simp [(place_ext.mp hq).1]
  · rcases List.mem_append.mp hn with hn | hn
    · rw [List.mem_singleton.mp hn]
      exact (h.below p (by simp)).congr hq
    · exact h.below n (List.mem_append_right _ hn)

theorem Roots.link {l : List Ftsent} (h : Roots st r [p] roots) (hs : Aside st st')
    (ho : Nodes st'.heap (relink l ++ [r])) (hl : l.Perm (p :: roots)) :
    Roots st' r [] (relink l) := by
  refine h.of_aside hs ho ?_ (chained_relink _) fun n hn => ?_
  · simp only [List.nil_append, List.map_append, addr_relink]
    intro i hi
    rcases List.mem_append.mp hi with hi | hi
    · have := (hl.map Ftsent.addr).subset hi
      simp only [List.map_cons, List.mem_cons] at this
      simpa [or_assoc] using Or.inl this
    · simp [List.mem_singleton.mp hi]
  · obtain ⟨m, hm, i, rfl⟩ := exists_of_mem_relink hn
    exact (h.below m (by simpa using hl.subset hm)).relinked i

theorem openRoots_lock (compar : Option Compar) (r : Ftsent) (argv : List CString) :
    ∀ (roots : List Ftsent) (st : St ω), Roots st r [] roots →
    Lock (openRoots E compar r.addr argv (headAddr roots)
        (if compar.isSome then none else roots.getLast?.map Ftsent.addr) roots.length)
      (Walk.openRoots E compar r.addr argv roots) st fun x st' y =>
      SamePtrs st st' ∧ ((x = none ∧ y = none ∧ Nodes st'.heap []) ∨
        ∃ l, x = some (headAddr l, l.length) ∧ y = some l ∧ Roots st' r [] l) := by
  induction argv with
  | nil => exact fun roots st h => lock_pure ⟨⟨rfl, rfl⟩, .inr ⟨roots, rfl, rfl, h⟩⟩
  | cons arg argv ih =>
    intro roots st h
    unfold openRoots Walk.openRoots
    refine sim_ite (fun _ => lock_keeps (keeps_anchors keeps_setErrno) fun _ st₁ h₁ hh₁ => ?_)
      fun _ => ?_
    · refine sim_bind (openFail_lock (h.of_sys h₁ hh₁)) ?_
      rintro - st₂ - ⟨ho₂, hc, hch⟩ - -
      exact lock_pure ⟨h₁.ptrs.trans ⟨hc, hch⟩, .inl ⟨rfl, rfl, ho₂⟩⟩
    refine sim_bind (alloc_lock h.owns fun n hn => h.fresh n hn) ?_
    rintro x st₁ y ⟨hcur₁, hch₁, hbase₁, hcase⟩ - -
    have hs₁ : SamePtrs st st₁ := ⟨hcur₁, hch₁⟩
    rcases hcase with ⟨rfl, rfl, hh₁, hn₁⟩ | ⟨p, rfl, rfl, hp, ho₁, hn₁⟩
    · have hr₁ : Roots st₁ r [] roots :=
        h.of_aside (u := st₁) ⟨hcur₁, hch₁, Prod.ext hbase₁ hn₁⟩ (hh₁ ▸ h.owns) (fun _ => id) h.chain
          h.below
      refine sim_bind (openFail_lock hr₁) ?_
      rintro - st₂ - ⟨ho₂, hc, hch⟩ - -
      exact lock_pure ⟨hs₁.trans ⟨hc, hch⟩, .inl ⟨rfl, rfl, ho₂⟩⟩
    dsimp only
    refine lock_update ho₁ rfl rfl fun st₂ h₂ _ ho₂ => lock_get ?_
    have hr₂ : Roots st₂ r
        [{ p with level := rootLevel, parent := some r.addr, accpath := .name p.addr }] roots := by
      refine h.alloc (h₂.addr.trans hbase₁) (h₂.next.trans hn₁) (by rw [hp]; rfl) ho₂
        ⟨rfl, rfl, by rw [hp]; rfl, fun a ha => ?_⟩
      have ha : p.addr = a := by simpa using ha
      simp [ha]
    have hst := stat_lock (E := E) st₂.sys.opts.comfollow none ho₂ hr₂.ground (hr₂.below _ (by simp))
    refine sim_bind hst ?_
    rintro i st₃ ⟨i', q⟩ ⟨rfl, h₃, ho₃, hq⟩ - -
    have ha : q.addr = p.addr := (place_ext.mp hq).1
    refine lock_update ho₃ ha rfl fun st₄ h₄ _ ho₄ => ?_
    have hr₄ : Roots st₄ r [{ q with info := if i = .dot then .d else i }] roots :=
      hr₂.set (h₃.trans h₄) ho₄ hq
    have ho₄ := hr₄.owns
    generalize hq' : ({ q with info := if i = .dot then .d else i } : Ftsent) = q' at hr₄ ho₄ ⊢
    have ha' : q'.addr = p.addr := by rw [← hq']; exact ha
    have hs₄ : SamePtrs st st₄ := hs₁.trans (h₂.trans (h₃.trans h₄)).ptrs
    cases compar with
    | some cmp =>
      refine sim_ite (fun _ => ?_) fun hn => absurd rfl hn
      refine lock_update ho₄ ha' rfl fun st₅ h₅ _ ho₅ => ?_
      have hrel : relink (q' :: roots) = { q' with link := headAddr roots } :: roots := by
        rw [relink, h.chain.relink_eq]
      have hr₅ : Roots st₅ r [] (relink (q' :: roots)) := hr₄.link h₅ (hrel ▸ ho₅) (.refl _)
      have hih := ih (relink (q' :: roots)) st₅ hr₅
      rw [headAddr_relink, length_relink, headAddr_cons, ha'] at hih
      refine hih.mono ?_
      rintro x st₆ y ⟨hs₆, hcase⟩
      exact ⟨(hs₄.trans h₅.ptrs).trans hs₆, hcase⟩
    | none =>
      refine sim_ite (fun hn => by simp at hn) fun _ => ?_
      refine lock_update ho₄ ha' rfl fun st₅ h₅ _ ho₅ => ?_
      rcases List.eq_nil_or_concat roots with h0 | ⟨l, t, h0⟩
      · subst h0
        have hr₅ : Roots st₅ r [] (relink [q']) := hr₄.link h₅ ho₅ (.refl _)
        have hih := ih (relink [q']) st₅ hr₅
        have hlast : (relink [q']).getLast?.map Ftsent.addr = some p.addr := congrArg some ha'
        rw [headAddr_relink, length_relink, headAddr_cons, ha', hlast] at hih
        refine Sim.mono hih ?_
        rintro x st₆ y ⟨hs₆, hcase⟩
        exact ⟨(hs₄.trans h₅.ptrs).trans hs₆, hcase⟩
      · rw [List.concat_eq_append] at h0
        subst h0
        have hlast : (l ++ [t]).getLast?.map Ftsent.addr = some t.addr := by simp
        have hrel : relink (l ++ [t] ++ [q']) =
            l ++ [{ t with link := some p.addr }, { q' with link := none }] := by
          rw [List.append_assoc, List.cons_append, List.nil_append,
            relink_append_of_chained t [q'] h.chain, ← ha']
          rfl
        have hperm : ({ q' with link := none } :: (l ++ [t] ++ [r])).Perm
            (t :: (l ++ [{ q' with link := none }, r])) := by
          rw [List.append_assoc]
          exact (List.perm_middle.cons _).trans
            ((List.Perm.swap ..).trans (List.perm_middle.symm.cons _))
        rw [hlast]
        change Lock (update t.addr _ >>= fun _ => openRoots E none r.addr argv _ (some p.addr) _) _ _ _
        refine lock_update (ho₅.perm hperm) rfl rfl fun st₆ h₆ _ ho₆ => ?_
        have hr₆ : Roots st₆ r [] (relink (l ++ [t] ++ [q'])) := by
          refine hr₄.link (h₅.trans h₆) (ho₆.perm ?_) List.perm_append_comm
          rw [hrel, List.append_assoc]
          exact List.perm_middle.symm
        have hih := ih (relink (l ++ [t] ++ [q'])) st₆ hr₆
        have hlast' : (relink (l ++ [t] ++ [q'])).getLast?.map Ftsent.addr = some p.addr := by
          rw [hrel, ← ha']
          simp
        have hhead : headAddr (l ++ [t] ++ [q']) = headAddr (l ++ [t]) := by cases l <;> rfl
        rw [headAddr_relink, length_relink, hhead, hlast', List.length_append] at hih
        refine Sim.mono hih ?_
        rintro x st₆ y ⟨hs₆, hcase⟩
        exact ⟨(hs₄.trans (h₅.trans h₆).ptrs).trans hs₆, hcase⟩

/-- Both levels have failed and released everything, or they have the same stream. -/
def SameOpen (x : Bool) (st : St ω) (y : Option Walk) : Prop :=
  (x = false ∧ y = none ∧ Nodes st.heap []) ∨ ∃ z, x = true ∧ y = some z ∧ Rep st z

theorem openStream_lock (h : Roots st r [] roots) (hc : st.child = none) :
    Lock (openStream E r.addr (headAddr roots) roots.length) (Walk.openStream E r roots) st
      SameOpen := by
  unfold openStream Walk.openStream
  refine sim_bind (alloc_lock h.owns fun n hn => h.fresh n hn) ?_
  rintro x st₁ y ⟨hcur₁, hch₁, hbase₁, hcase⟩ - -
  rcases hcase with ⟨rfl, rfl, hh₁, hn₁⟩ | ⟨p, rfl, rfl, hp, ho₁, hn₁⟩
  · have hr₁ : Roots st₁ r [] roots :=
      h.of_aside (u := st₁) ⟨hcur₁, hch₁, Prod.ext hbase₁ hn₁⟩ (hh₁ ▸ h.owns) (fun _ => id) h.chain
        h.below
    refine sim_bind (openFail_lock hr₁) ?_
    rintro - st₂ - ⟨ho₂, -, -⟩ - -
    exact lock_pure (.inl ⟨rfl, rfl, ho₂⟩)
  dsimp only
  refine lock_update ho₁ rfl rfl fun st₂ h₂ _ ho₂ => lock_setCur
    (lock_keeps (anchors_of_fixed fixed_openStart) fun _ st₃ h₃ hh₃ => ?_)
  have hi : IsInit { p with link := headAddr roots, info := .init } := by
    rw [hp]
    exact ⟨rfl, rfl, rfl, rfl, .inl rfl⟩
  have hl : Ftsent.link { p with link := headAddr roots, info := .init } = headAddr roots := rfl
  have ha : p.addr = Ftsent.addr { p with link := headAddr roots, info := .init } := rfl
  generalize ({ p with link := headAddr roots, info := .init } : Ftsent) = c at ho₂ hi hl ha ⊢
  have ho₃ : Nodes st₃.heap (c :: (roots ++ [r])) := hh₃ ▸ ho₂
  have haddr : st₃.sys.path.addr = st.sys.path.addr := h₃.addr.trans (h₂.addr.trans hbase₁)
  have hch₃ : st₃.child = none := h₃.child.trans (h₂.child.trans (hch₁.trans hc))
  have hcur₃ : st₃.cur = some c.addr := h₃.cur.trans (congrArg some ha)
  have hfresh : ∀ n ∈ c :: (roots ++ [r]), n.addr < st₃.sys.next := fun n hn => by
    rw [show st₃.sys.next = st.sys.next + 1 from h₃.next.trans (h₂.next.trans hn₁)]
    rcases List.mem_cons.mp hn with rfl | hn
    · rw [← ha, hp]
      exact Nat.lt_succ_self _
    · exact Nat.lt_succ_of_lt (h.fresh n hn)
  cases roots with
  | nil =>
    change Lock (free r.addr >>= fun _ => pure true) (pure _) _ _
    refine lock_free (ho₃.perm (List.Perm.swap ..)) rfl fun st₄ h₄ _ ho₄ =>
      lock_pure (.inr ⟨_, rfl, rfl, ⟨⟨ho₄, ?_, .empty hi hl, trivial, .inl rfl, by simp⟩, ?_⟩, ?_⟩)
    · rw [h₄.next]
      exact fun n hn => hfresh n (List.mem_cons.mpr (.inl (List.mem_singleton.mp hn)))
    · exact h₄.child.trans hch₃
    · exact h₄.cur.trans hcur₃
  | cons m ms =>
    have hn : Walk.nodes ⟨[⟨c, m :: ms⟩], some r, [], none, []⟩ = c :: (m :: ms ++ [r]) := by
      simp [Walk.nodes, Frame.nodes]
    have hsh : Shape st₃.sys.path.addr (some r) [⟨c, m :: ms⟩] :=
      .fresh hi (by simp) ⟨hl, h.chain⟩ (haddr ▸ h.below) h.root
    have hrep : Rep st₃ ⟨[⟨c, m :: ms⟩], some r, [], none, []⟩ :=
      ⟨⟨⟨hn ▸ ho₃, hn ▸ hfresh, hsh, trivial, .inl rfl, by simp⟩, hch₃⟩, hcur₃⟩
    change Lock (pure () >>= fun _ => pure true) (pure _) _ _
    exact sim_silent (x := ()) (u := st₃) rfl rfl (lock_pure (.inr ⟨_, rfl, rfl, hrep⟩))

theorem open_lock (E : Env ω) (argv : Option (List CString)) (options : ℕ) (compar : Option Compar)
    (w : ω) :
    Lock (ftsOpen E argv options compar) (Walk.open E argv options compar) (St.start w) SameOpen := by
  have hfail : ∀ st : St ω, st.heap = (fun _ => none) → SameOpen false st none := fun st hh =>
    .inl ⟨rfl, rfl, hh ▸ .empty⟩
  unfold ftsOpen Walk.open
  cases argv with
  | none => exact lock_keeps (keeps_anchors keeps_setErrno) fun _ st₁ _ hh₁ => lock_pure (hfail st₁ hh₁)
  | some argv =>
    refine sim_ite (fun _ => lock_keeps (keeps_anchors keeps_setErrno) fun _ st₁ _ hh₁ =>
      lock_pure (hfail st₁ hh₁)) fun _ => ?_
    refine lock_sys (sim_ite (fun _ => ?_) fun _ => lock_pure (hfail _ rfl))
    refine sim_bind (alloc_lock .empty (by simp)) ?_
    rintro x st₁ y ⟨hcur₁, hch₁, -, hcase⟩ - -
    rcases hcase with ⟨rfl, rfl, hh₁, hn₁⟩ | ⟨p, rfl, rfl, hp, ho₁, hn₁⟩
    · exact lock_keeps (anchors_of_fixed fixed_cycleFree) fun _ st₂ _ hh₂ => lock_pure (hfail st₂ (hh₂.trans hh₁))
    dsimp only
    refine lock_update ho₁ rfl rfl fun st₂ h₂ _ ho₂ => ?_
    have hr₂ : Roots st₂ { p with level := rootParentLevel } [] [] := by
      refine ⟨ho₂, fun n hn => ?_, trivial, by simp, rfl⟩
      rw [List.mem_singleton.mp hn, h₂.next, hn₁, hp]
      exact Nat.lt_succ_self _
    have hroots := openRoots_lock (E := E) compar { p with level := rootParentLevel } argv [] st₂ hr₂
    have hprev : (if compar.isSome then none else ([] : List Ftsent).getLast?.map Ftsent.addr) = none := by
      split <;> rfl
    rw [hprev] at hroots
    refine sim_bind hroots ?_
    rintro x st₃ y ⟨hs₃, ⟨rfl, rfl, ho₃⟩ | ⟨l, rfl, rfl, hr₃⟩⟩ - -
    · exact lock_pure (.inl ⟨rfl, rfl, ho₃⟩)
    have hlen : l.length ≤ st₃.sys.next + 1 := by
      have := hr₃.owns.length_le hr₃.fresh
      simp only [List.nil_append, List.length_append] at this
      omega
    refine sim_bind (sortIfAsked_lock hr₃.owns hr₃.chain hlen) ?_
    rintro x st₄ l' ⟨rfl, h₄, hc₄, ho₄, hl₄, hm₄⟩ - -
    have hr₄ : Roots st₄ { p with level := rootParentLevel } [] l' := by
      refine hr₃.of_aside h₄ ho₄ ?_ hc₄ fun n hn => ?_
      · simp only [List.nil_append, List.map_append]
        exact List.append_subset.mpr
          ⟨List.subset_append_of_subset_left _ (addr_subset_of_links hm₄), List.subset_append_right ..⟩
      · obtain ⟨m, hm, i, rfl⟩ := hm₄ n hn
        exact (hr₃.below m hm).relinked i
    rw [← hl₄]
    exact openStream_lock hr₄ (h₄.child.trans (hs₃.child.trans (h₂.child.trans hch₁)))

end MuslBsd.Fts
