import MuslBsd.Fts.Ancestry

/-! Traversals by `fts_read` and instructions other than `FTS_AGAIN`: the current path is one of
directories that differ from each other, with entries that have not been met on it. -/
namespace MuslBsd.Fts
open MuslBsd.Support Traced

variable {ω : Type} {E : Env ω}

def FTS_AGAIN : ℤ := 1

/-- `fts_read`, or `fts_set` with an instruction other than `FTS_AGAIN`. -/
def Call.Plain : Call → Prop
  | .read => True
  | .children _ => False
  | .set _ instr => instr ≠ FTS_AGAIN

instance : DecidablePred Call.Plain
  | .read => isTrue trivial
  | .children _ => isFalse id
  | .set _ _ => inferInstanceAs (Decidable (_ ≠ _))

/-- An entry below the path `up` that is not to be stat'ed again. A directory is none of those on the
path. -/
structure Unmet (E : Env ω) (up : List Frame) (m : Ftsent) : Prop where
  instr : m.instr ≠ .again
  fresh : m.info = .d → m.key ∉ (pathNodes up).map Ftsent.key
  names : m.info = .d → E.Names m.key

/-- A path of directories, with entries that have not been met on it. -/
def Descent (E : Env ω) : List Frame → Prop
  | [] => True
  | f :: up => (∀ m ∈ f.nodes, Unmet E up m) ∧ (∀ g ∈ up.head?, g.node.info = .d) ∧ Descent E up

/-- A change of nodes that no verdict depends on. -/
structure Harmless (g : Ftsent → Ftsent) : Prop where
  addr : ∀ m, (g m).addr = m.addr
  info : ∀ m, (g m).info = m.info
  key : ∀ m, (g m).key = m.key
  instr : ∀ m, m.instr ≠ .again → (g m).instr ≠ .again

theorem Relocates.harmless {g : Ftsent → Ftsent} (hg : Relocates g) : Harmless g where
  addr := hg.addr
  info := hg.info
  key := hg.key
  instr m hm := by rwa [hg.field Ftsent.instr (fun _ => rfl) m]

theorem Harmless.id : Harmless id := ⟨fun _ => rfl, fun _ => rfl, fun _ => rfl, fun _ h => h⟩

section Descent

variable {up fs : List Frame} {n q m c k : Ftsent} {rest ks anc : List Ftsent} {cs : CycleState}
  {g : Ftsent → Ftsent}

theorem Harmless.keys (hg : Harmless g) (fs : List Frame) :
    (pathNodes (fs.map (Frame.map g))).map Ftsent.key = (pathNodes fs).map Ftsent.key := by
  rw [pathNodes_map, List.map_map]
  exact List.map_congr_left fun m _ => hg.key m

theorem Harmless.addrs (hg : Harmless g) (fs : List Frame) :
    (pathNodes (fs.map (Frame.map g))).map Ftsent.addr = (pathNodes fs).map Ftsent.addr := by
  rw [pathNodes_map, List.map_map]
  exact List.map_congr_left fun m _ => hg.addr m

theorem Unmet.of_info (hm : m.instr ≠ .again) (hi : m.info ≠ .d) : Unmet E up m :=
  ⟨hm, fun hd => absurd hd hi, fun hd => absurd hd hi⟩

theorem Unmet.map (h : Unmet E up m) (hg : Harmless g) : Unmet E (up.map (Frame.map g)) (g m) := by
  refine ⟨hg.instr m h.instr, fun hd => ?_, fun hd => ?_⟩
  · rw [hg.keys, hg.key]
    exact h.fresh (hg.info m ▸ hd)
  · rw [hg.key]
    exact h.names (hg.info m ▸ hd)

theorem Descent.map (h : Descent E fs) (hg : Harmless g) : Descent E (fs.map (Frame.map g)) := by
  induction fs with
  | nil => trivial
  | cons f up ih =>
    obtain ⟨hf, hup, hrest⟩ := h
    refine ⟨fun m hm => ?_, fun e he => ?_, ih hrest⟩
    · obtain ⟨m₀, hm₀, rfl⟩ := List.mem_map.mp (show m ∈ f.nodes.map g from hm)
      exact (hf m₀ hm₀).map hg
    · rw [List.head?_map] at he
      obtain ⟨e₀, he₀, rfl⟩ := Option.map_eq_some_iff.mp he
      exact (hg.info e₀.node).trans (hup e₀ he₀)

theorem Descent.set (h : Descent E (⟨n, rest⟩ :: up)) (hq : Unmet E up q) : Descent E (⟨q, rest⟩ :: up) := by
  obtain ⟨hf, hup, hrest⟩ := h
  refine ⟨fun m hm => ?_, hup, hrest⟩
  rcases List.mem_cons.mp hm with rfl | hm
  · exact hq
  · exact hf m (List.mem_cons_of_mem _ hm)

/-- Siblings are left out. -/
theorem Descent.later {pre post : List Ftsent} (h : Descent E (⟨n, rest⟩ :: up)) (hr : rest = pre ++ q :: post) :
    Descent E (⟨q, post⟩ :: up) := by
  obtain ⟨hf, hup, hrest⟩ := h
  refine ⟨fun m hm => hf m (List.mem_cons_of_mem _ ?_), hup, hrest⟩
  rw [hr]
  exact List.mem_append_right _ hm

theorem Descent.enter (h : Descent E (⟨c, rest⟩ :: up)) (hc : c.info = .d)
    (hk : ∀ m ∈ k :: ks, Unmet E (⟨c, rest⟩ :: up) m) : Descent E (⟨k, ks⟩ :: ⟨c, rest⟩ :: up) := by
  refine ⟨hk, fun g hg => ?_, h⟩
  cases hg
  exact hc

theorem notMem_of_cycleOf {dev ino : ℕ} (h : cycleOf cs dev ino anc = none) : (dev, ino) ∉ anc.map Ftsent.key := by
  intro hmem
  obtain ⟨t, ht, hk⟩ := List.mem_map.mp hmem
  have hkey : t.dev = dev ∧ t.ino = ino := Prod.mk.inj hk
  have hnone : sameDir dev ino anc = none := by
    cases hs : sameDir dev ino anc with
    | none => rfl
    | some a => simp [cycleOf, hs] at h
  have hne := List.find?_eq_none.mp hnone t ht
  exact hne (by simp [hkey.1, hkey.2])

theorem Entry.unmet (h : Entry E cs anc m) (hup : (pathNodes up).map Ftsent.key = anc.map Ftsent.key) :
    Unmet E up m := by
  refine ⟨?_, fun hd => ?_, h.names⟩
  · rw [h.instr]
    decide
  · rw [hup]
    exact notMem_of_cycleOf (h.fresh hd)

theorem Walk.Followed.unmet (h : Walk.Followed E cs (pathNodes up) n q) (hn : n.instr ≠ .again) : Unmet E up q := by
  have hinstr : q.instr = n.instr := (congrArg Ftsent.instr h.still :)
  exact ⟨hinstr ▸ hn, fun hd => notMem_of_cycleOf (h.fresh hd), fun hd => h.names (.inl hd)⟩

/-- What `fts_build` leaves of the path that it was called on. -/
theorem Kept.descent (h : Kept n.taken rest up fs c) (hd : Descent E (⟨n, rest⟩ :: up))
    (hc : c.info = .d → n.info = .d) : Descent E fs := by
  obtain ⟨g, hg, rfl⟩ := h.frames
  have hmoved : Descent E (⟨g n, rest.map g⟩ :: up.map (Frame.map g)) := hd.map hg.harmless
  have hn := hd.1 n (List.mem_cons_self ..)
  have hkey : c.key = n.key := (congrArg Ftsent.key h.cur :)
  have hinstr : c.instr = .noinstr := (congrArg Ftsent.instr h.cur :)
  apply hmoved.set
  refine ⟨by rw [hinstr]; decide, fun hi => ?_, fun hi => ?_⟩
  · rw [hg.harmless.keys, hkey]
    exact hn.fresh (hc hi)
  · rw [hkey]
    exact hn.names (hc hi)

/-- The keys of the directories that are open below the current node. -/
theorem Descent.keys (h : Descent E (⟨n, rest⟩ :: up)) :
    ((pathNodes up).map Ftsent.key).Nodup ∧ ∀ k ∈ (pathNodes up).map Ftsent.key, E.Names k := by
  induction up generalizing n rest with
  | nil => exact ⟨List.nodup_nil, fun k hk => nomatch hk⟩
  | cons f up ih =>
    obtain ⟨-, hup, hrest⟩ := h
    have hd : f.node.info = .d := hup f rfl
    have hf := hrest.1 f.node (List.mem_cons_self ..)
    obtain ⟨hnodup, hnames⟩ := ih hrest
    refine ⟨List.nodup_cons.mpr ⟨hf.fresh hd, hnodup⟩, fun k hk => ?_⟩
    rcases List.mem_cons.mp hk with rfl | hk
    · exact hf.names hd
    · exact hnames k hk

end Descent

section Moves

variable {z : Walk} {n : Ftsent} {rest : List Ftsent} {up fs : List Frame} {s s' : Sys ω} {r : Option NodeId}

/-- Leaving a node goes on in the path that there was. -/
theorem Leave.descent (h : Leave E rest up s' r fs) (hd : Descent E (⟨n, rest⟩ :: up))
    (hroot : ∀ p ∈ rest, p.level = rootLevel → up = []) : r = none ∧ s'.opts.stop = true ∨ Descent E fs := by
  cases h with
  | stops hstop => exact .inl ⟨rfl, hstop⟩
  | finishes hup => exact .inr trivial
  | @steps pre post p q hr hp hq =>
    have hlater := hd.later hr
    have hmem : p ∈ rest := hr ▸ List.mem_append_right pre (List.mem_cons_self ..)
    refine .inr (hlater.set ?_)
    cases hq with
    | asIs hi => exact hlater.1 p (List.mem_cons_self ..)
    | @followed cs q hi hq =>
      have hq' := hq.unmet (hi ▸ by decide)
      refine ⟨?_, hq'.fresh, hq'.names⟩
      change Instr.noinstr ≠ .again
      decide
  | @roots pre post p q hr hp hq hdev =>
    have hlater := hd.later hr
    have hmem : p ∈ rest := hr ▸ List.mem_append_right pre (List.mem_cons_self ..)
    obtain rfl := hroot p hmem hp
    have hpm := hlater.1 p (List.mem_cons_self ..)
    have hkey : q.key = p.key := congrArg CycleEntry.key hq.entry
    refine .inr (hlater.set ⟨hq.instr ▸ hpm.instr, fun _ => List.not_mem_nil, fun hi => ?_⟩)
    rw [hkey]
    exact hpm.names (hq.info ▸ hi)
  | @ascends p prest up' hup =>
    obtain ⟨-, -, hrest⟩ := hd
    rw [hup] at hrest
    refine .inr (hrest.set (.of_info (hrest.1 p (List.mem_cons_self ..)).instr ?_))
    dsimp only
    split <;> decide

theorem Move.descent (h : Move E z n rest up s s' r fs) (hd : Descent E (⟨n, rest⟩ :: up)) (hchild : z.child = [])
    (hfreed : z.freed = none) (hroot : ∀ p ∈ rest, p.level = rootLevel → up = []) :
    r = none ∧ s'.opts.stop = true ∨ Descent E fs := by
  have hn := hd.1 n (List.mem_cons_self ..)
  have htaken : n.taken.instr ≠ .again := by
    change Instr.noinstr ≠ .again
    decide
  cases h with
  | stops hstop => exact .inl ⟨rfl, hstop⟩
  | lost hlost => simp [hfreed] at hlost
  | again hagain hq => exact absurd hagain hn.instr
  | follows hinstr hi hq => exact .inr (hd.set (hq.unmet htaken))
  | closes hi hk hc => exact .inr (hk.descent hd fun _ => hi)
  | @enters cs c k ks fs hi hskip hx hk hc he hl =>
    have hfs := hk.descent hd fun _ => hi
    obtain ⟨g, hg, rfl⟩ := hk.frames
    have hkey : c.key = n.taken.key := (congrArg Ftsent.key hk.cur :)
    refine .inr (hfs.enter hc fun m hm => (he m hm).unmet ?_)
    change c.key :: (pathNodes (up.map (Frame.map g))).map Ftsent.key = n.taken.key :: (pathNodes up).map Ftsent.key
    rw [hg.harmless.keys, hkey]
  | resumes hi hskip hx hc hd' hk =>
    rw [hchild] at hk
    cases hk
  | leaves hi hl => exact hl.descent hd hroot

end Moves

/-! ### Calls -/

/-- A stream that only plain calls have been made on, and that has not stopped. -/
structure Orderly (E : Env ω) (s : Sys ω) (z : Walk) : Prop where
  covered : Covered s.cycles (pathNodes z.frames)
  child : z.child = []
  freed : z.freed = none
  descent : Descent E z.frames

/-- Give the instruction `i` to the node at `a`. -/
def instruct (a : NodeId) (i : Instr) (n : Ftsent) : Ftsent := if n.addr = a then { n with instr := i } else n

theorem instruct_harmless {a : NodeId} {i : Instr} (hi : i ≠ .again) : Harmless (instruct a i) where
  addr m := by unfold instruct; split <;> rfl
  info m := by unfold instruct; split <;> rfl
  key m := by unfold instruct; split <;> rfl
  instr m hm := by
    unfold instruct
    split
    · exact hi
    · exact hm

/-- `fts_set` does nothing to the nodes, or gives one the instruction. -/
theorem Walk.set_cases (a : NodeId) (instr : ℤ) (z : Walk) (s : Sys ω) :
    (val (Walk.set a instr z) s).2 = z ∨ ∃ i, Instr.ofInt? instr = some i ∧
      (val (Walk.set a instr z) s).2 = z.updateAt a fun n => { n with instr := i } := by
  unfold Walk.set
  cases Instr.ofInt? instr with
  | none => exact .inl rfl
  | some i => exact .inr ⟨i, rfl, rfl⟩

theorem Walk.set_keeps (a : NodeId) (instr : ℤ) (z : Walk) : Keeps Sys.core (Walk.set a instr z : SysM ω (Bool × Walk)) := by
  unfold Walk.set
  cases Instr.ofInt? instr with
  | none => exact .bind keeps_setErrno fun _ => .pure _
  | some i => exact .bind (.ite (.emit _) (.pure _)) fun _ => .pure _

theorem Instr.ne_again {instr : ℤ} {i : Instr} (h : Instr.ofInt? instr = some i) (hi : instr ≠ FTS_AGAIN) : i ≠ .again := by
  rintro rfl
  apply hi
  unfold Instr.ofInt? at h
  split at h <;> cases h
  rfl

/-- `fts_set` with a plain instruction changes nothing that a verdict depends on. -/
theorem Walk.set_plain {a : NodeId} {instr : ℤ} (hi : instr ≠ FTS_AGAIN) (z : Walk) (s : Sys ω) :
    ∃ g, Harmless g ∧ (val (Walk.set a instr z) s).2.frames = z.frames.map (Frame.map g) ∧
      (val (Walk.set a instr z) s).2.child = z.child.map g ∧ (val (Walk.set a instr z) s).2.freed = z.freed := by
  rcases set_cases a instr z s with hz | ⟨i, hinstr, hz⟩
  · rw [hz]
    exact ⟨id, .id, by rw [Frame.map_id, List.map_id], (List.map_id _).symm, rfl⟩
  · rw [hz]
    exact ⟨instruct a i, instruct_harmless (Instr.ne_again hinstr hi), rfl, rfl, rfl⟩

namespace Orderly

variable {s s' : Sys ω} {z : Walk} {n : Ftsent} {rest : List Ftsent} {up : List Frame} {r : Option NodeId × Walk}

theorem set (h : Orderly E s z) (a : NodeId) {instr : ℤ} (hi : instr ≠ FTS_AGAIN) :
    Orderly E (out (Walk.set a instr z) s) (val (Walk.set a instr z) s).2 := by
  obtain ⟨g, hg, hframes, hchild, hfreed⟩ := Walk.set_plain (a := a) hi z s
  refine ⟨(Walk.set_does a instr h.covered).2, ?_, hfreed.trans h.freed, ?_⟩
  · rw [hchild, h.child]
    rfl
  · rw [hframes]
    exact h.descent.map hg

theorem read {st : St ω} (h : Orderly E st.sys z) (hr : Rep st z) (hstop : st.sys.opts.stop = false)
    (hz : z.frames = ⟨n, rest⟩ :: up) :
    Moved E z n rest up st.sys (out (Walk.read E z) st.sys) (val (Walk.read E z) st.sys) := by
  have hshape := hr.holds.shape
  rw [hz] at hshape
  have hd := h.descent
  rw [hz] at hd
  have hn := hd.1 n (List.mem_cons_self ..)
  exact (Walk.read_does hz hstop h.covered hshape.root_level fun hi => absurd hi hn.instr).2

theorem moved (h : Orderly E s z) (hz : z.frames = ⟨n, rest⟩ :: up)
    (hroot : ∀ p ∈ rest, p.level = rootLevel → up = []) (hm : Moved E z n rest up s s' r) :
    r.1 = none ∧ s'.opts.stop = true ∨ Orderly E s' r.2 := by
  have hd := h.descent
  rw [hz] at hd
  obtain ⟨hchild, hfreed⟩ := hm.idle h.child h.freed
  exact (hm.move.descent hd h.child h.freed hroot).imp_right fun hd' => ⟨hm.covered, hchild, hfreed, hd'⟩

end Orderly

/-- A stream as `fts_open` leaves it. -/
theorem Walk.Fresh.orderly {argv : Option (List CString)} {s : Sys ω} {z : Walk} (h : Walk.Fresh E argv s z) :
    Orderly E s z := by
  obtain ⟨n, roots, hz, hinfo, hinstr, hroots, -⟩ := h.frames
  refine ⟨?_, h.idle.1, h.idle.2, ?_⟩
  · rw [hz]
    exact h.covered.cons n
  · rw [hz]
    refine ⟨fun m hm => ?_, fun g hg => (nomatch hg), trivial⟩
    rcases List.mem_cons.mp hm with rfl | hm
    · exact .of_info (by rw [hinstr]; decide) (by rw [hinfo]; decide)
    · have hk := hroots m hm
      exact ⟨by rw [hk.instr]; decide, fun _ => List.not_mem_nil, hk.names⟩

end MuslBsd.Fts
