import MuslBsd.Fts.Descent
import MuslBsd.Fts.Fresh

/-! What `fts_read` returns is well nested: a directory is opened, its entries follow, and it is closed
once. -/
namespace MuslBsd.Fts
open MuslBsd.Support Traced

variable {ω : Type} {E : Env ω}

def Info.isLink : Info → Bool
  | .sl | .slnone => true
  | _ => false

theorem Info.not_isLink_of_closes {i : Info} (h : i.closes = true) : i.isLink = false := by
  cases i <;> first | rfl | cases h

/-- What has been returned so far: the directories that are open, innermost first, all nodes, and the
last one if it is a symbolic link. -/
structure Visits where
  dirs : List NodeId
  seen : List NodeId
  link : Option NodeId
  deriving DecidableEq, Repr

namespace Visits

def start : Visits := ⟨[], [], none⟩

/-- The node `n` closes the innermost directory, or it is an entry of it that has not been returned
before, save as a symbolic link that is followed now. -/
def visit (v : Visits) (n : Ftsent) : Option Visits :=
  if n.info.closes ∧ v.dirs.head? = some n.addr then
    some { v with dirs := v.dirs.tail, link := none }
  else if n.level = v.dirs.length ∧ (v.dirs = [] ∨ n.parent = v.dirs.head?) ∧
      (n.addr ∉ v.seen ∨ v.link = some n.addr) then
    some
      { dirs := if n.info = .d then n.addr :: v.dirs else v.dirs
        seen := n.addr :: v.seen
        link := if n.info.isLink then some n.addr else none }
  else none

end Visits

/-- The node that a call of `fts_read` returns, as it is then. -/
def Step.returned (x : Step ω) : Option Ftsent :=
  match x.call, x.answer with
  | .read, .node p => p.bind x.after.heap
  | _, _ => none

/-- A directory with `FTS_SKIP`, or on another device with `FTS_XDEV`, is closed when it is current. -/
def Step.Skips (x : Step ω) : Prop :=
  ∀ n ∈ x.before.current, n.info = .d →
    n.instr = .skip ∨ x.before.sys.opts.xdev = true ∧ n.dev ≠ x.before.sys.dev →
    ∀ q ∈ x.returned, q.addr = n.addr ∧ q.info.closes = true

/-! ### The open directories are those of the current path -/

/-- The directories that are open when the current path is `fs`. -/
def openDirs : List Frame → List NodeId
  | [] => []
  | f :: up => if f.node.info = .d then f.node.addr :: (pathNodes up).map Ftsent.addr else (pathNodes up).map Ftsent.addr

/-- No sibling that is still to come has been returned. -/
def Unseen (v : Visits) (fs : List Frame) : Prop := ∀ f ∈ fs, ∀ m ∈ f.rest, m.addr ∉ v.seen

/-- The stream with the path `fs` and the next address `a` has returned `v`. -/
structure Tells (v : Visits) (fs : List Frame) (a : NodeId) : Prop where
  dirs : v.dirs = openDirs fs
  unseen : Unseen v fs
  old : ∀ b ∈ v.seen, b < a
  link : ∀ f ∈ fs.head?, f.node.info.isLink = true → v.link = some f.node.addr

/-- The current node of `fs` stands where the path says, and no address is there twice. -/
structure Seated (fs : List Frame) : Prop where
  level : ∀ q l up, fs = ⟨q, l⟩ :: up → q.level = up.length
  parent : ∀ q l up, fs = ⟨q, l⟩ :: up → up = [] ∨ q.parent = ((pathNodes up).map Ftsent.addr).head?
  nodup : ((fs.flatMap Frame.nodes).map Ftsent.addr).Nodup

theorem Rep.seated {st : St ω} {z : Walk} (h : Rep st z) : Seated z.frames := by
  have hshape := h.holds.shape
  refine ⟨fun q l up hz => ?_, fun q l up hz => ?_, ?_⟩
  · rw [hz] at hshape
    rcases hshape.cases_cur with ⟨hinit, rfl⟩ | ⟨r, -, hpath, -⟩
    · exact hinit.level
    · exact (hpath.node _ _ rfl).level
  · rw [hz] at hshape
    rcases hshape.cases_cur with ⟨-, hup⟩ | ⟨r, -, hpath, -⟩
    · exact .inl hup
    · have hparent := (hpath.node _ _ rfl).parent
      cases up with
      | nil => exact .inl rfl
      | cons f up => exact .inr hparent
  · refine h.holds.owns.nodup.sublist (List.Sublist.map _ ?_)
    simp only [Walk.nodes, List.append_assoc]
    exact List.sublist_append_left ..

section Tells

variable {v : Visits} {q n c : Ftsent} {l rest : List Ftsent} {up fs : List Frame} {a b : NodeId} {g : Ftsent → Ftsent}

theorem Unseen.map (h : Unseen v fs) (hg : Relocates g) : Unseen v (fs.map (Frame.map g)) := by
  intro f hf m hm
  obtain ⟨f₀, hf₀, rfl⟩ := List.mem_map.mp hf
  obtain ⟨m₀, hm₀, rfl⟩ := List.mem_map.mp (show m ∈ f₀.rest.map g from hm)
  rw [hg.addr]
  exact h f₀ hf₀ m₀ hm₀

theorem unseen_cons : Unseen v (⟨q, l⟩ :: up) ↔ (∀ m ∈ l, m.addr ∉ v.seen) ∧ Unseen v up := List.forall_mem_cons

theorem Unseen.set (h : Unseen v (⟨n, l⟩ :: up)) : Unseen v (⟨q, l⟩ :: up) := unseen_cons.mpr (unseen_cons.mp h)

theorem Tells.mono (h : Tells v fs a) (hab : a ≤ b) : Tells v fs b :=
  ⟨h.dirs, h.unseen, fun c hc => (h.old c hc).trans_le hab, h.link⟩

/-- The innermost directory `q` is closed. -/
theorem visits_close (hdirs : v.dirs = q.addr :: (pathNodes up).map Ftsent.addr) (hq : q.info.closes = true)
    (hunseen : Unseen v (⟨q, l⟩ :: up)) (hold : ∀ b ∈ v.seen, b < a) :
    ∃ v', v.visit q = some v' ∧ Tells v' (⟨q, l⟩ :: up) a := by
  have hd : q.info ≠ .d := by
    intro hd
    rw [hd] at hq
    cases hq
  refine ⟨{ v with dirs := v.dirs.tail, link := none }, ?_, ?_, hunseen, hold, ?_⟩
  · rw [Visits.visit, if_pos ⟨hq, by rw [hdirs]; rfl⟩]
  · change v.dirs.tail = openDirs (⟨q, l⟩ :: up)
    rw [openDirs, if_neg hd, hdirs]
    rfl
  · rintro f ⟨⟩ hlink
    have hno := Info.not_isLink_of_closes hq
    exact absurd (hno.symm.trans hlink) (by decide)

/-- An entry `q` of the innermost directory is returned. -/
theorem visits_entry (hdirs : v.dirs = (pathNodes up).map Ftsent.addr) (hseat : Seated (⟨q, l⟩ :: up))
    (hnew : q.addr ∉ v.seen ∨ v.link = some q.addr) (hunseen : Unseen v (⟨q, l⟩ :: up))
    (hold : ∀ b ∈ v.seen, b < a) (hq : q.addr < a) :
    ∃ v', v.visit q = some v' ∧ Tells v' (⟨q, l⟩ :: up) a := by
  have hnodup := hseat.nodup
  rw [List.flatMap_cons, Frame.nodes, List.cons_append, List.map_cons, List.nodup_cons] at hnodup
  have hlevel : q.level = v.dirs.length := by
    rw [hdirs, hseat.level q l up rfl, List.length_map, pathNodes, List.length_map]
  have hparent : v.dirs = [] ∨ q.parent = v.dirs.head? := by
    rw [hdirs]
    exact (hseat.parent q l up rfl).imp_left fun hup => by rw [hup]; rfl
  have hother : ¬(q.info.closes = true ∧ v.dirs.head? = some q.addr) := by
    rintro ⟨-, hhead⟩
    obtain ⟨p, hp, hpq⟩ := List.mem_map.mp (hdirs ▸ List.mem_of_mem_head? hhead)
    exact hnodup.1 (hpq ▸ List.mem_map_of_mem (List.mem_append_right _ (pathNodes_subset hp)))
  refine ⟨_, by rw [Visits.visit, if_neg hother, if_pos ⟨hlevel, hparent, hnew⟩], ?_, ?_, ?_, ?_⟩
  · change (if q.info = .d then q.addr :: v.dirs else v.dirs) = openDirs (⟨q, l⟩ :: up)
    rw [openDirs, hdirs]
  · intro f hf m hm hmem
    rcases List.mem_cons.mp hmem with heq | hmem
    · apply hnodup.1
      rw [← heq]
      apply List.mem_map_of_mem
      rcases List.mem_cons.mp hf with rfl | hf
      · exact List.mem_append_left _ hm
      · exact List.mem_append_right _ (List.mem_flatMap.mpr ⟨f, hf, List.mem_cons_of_mem _ hm⟩)
    · exact hunseen f hf m hm hmem
  · intro b hb
    rcases List.mem_cons.mp hb with rfl | hb
    · exact hq
    · exact hold b hb
  · rintro f ⟨⟩ hlink
    exact if_pos hlink

end Tells

section Moves

variable {z : Walk} {n : Ftsent} {rest : List Ftsent} {up fs : List Frame} {s s' : Sys ω} {r : Option NodeId}
  {v : Visits}

/-- What is returned is nothing, or the current node of the new path `fs`, which goes on from `v`. -/
def Goes (v : Visits) (s' : Sys ω) (r : Option NodeId) (fs : List Frame) : Prop :=
  r = none ∧ (s'.opts.stop = true ∨ Tells v fs s'.next) ∨
    ∃ q l up v', fs = ⟨q, l⟩ :: up ∧ r = some q.addr ∧ v.visit q = some v' ∧ Tells v' fs s'.next

theorem Leave.goes (h : Leave E rest up s' r fs) (hi : n.info ≠ .d) (hv : Tells v (⟨n, rest⟩ :: up) s'.next)
    (hroot : ∀ p ∈ rest, p.level = rootLevel → up = []) (hseat : Seated fs)
    (hfresh : ∀ f ∈ fs.head?, f.node.addr < s'.next) : Goes v s' r fs := by
  have hdirs : v.dirs = (pathNodes up).map Ftsent.addr := by
    rw [hv.dirs, openDirs, if_neg hi]
  obtain ⟨hrest, hup⟩ := unseen_cons.mp hv.unseen
  cases h with
  | stops hstop => exact .inl ⟨rfl, .inl hstop⟩
  | finishes hnil =>
    refine .inl ⟨rfl, .inr ⟨?_, fun f hf => (nomatch hf), hv.old, fun f hf => (nomatch hf)⟩⟩
    rw [hdirs, hnil]
    rfl
  | @steps pre post p q hr hp hq =>
    have haddr : q.addr = p.addr := by
      cases hq with
      | asIs hi => rfl
      | followed hi hq => exact (congrArg Ftsent.addr hq.still :)
    have hmem : ∀ m ∈ p :: post, m ∈ rest := fun m hm => hr ▸ List.mem_append_right pre hm
    have hunseen : Unseen v (⟨q, post⟩ :: up) :=
      unseen_cons.mpr ⟨fun m hm => hrest m (hmem m (List.mem_cons_of_mem _ hm)), hup⟩
    have hnew := hrest p (hmem p (List.mem_cons_self ..))
    obtain ⟨v', hv', htells⟩ := visits_entry hdirs hseat (.inl (haddr ▸ hnew)) hunseen hv.old (hfresh _ rfl)
    exact .inr ⟨_, _, _, v', rfl, by rw [haddr], hv', htells⟩
  | @roots pre post p q hr hp hq hdev =>
    have haddr : q.addr = p.addr := congrArg CycleEntry.ent hq.entry
    have hmem : ∀ m ∈ p :: post, m ∈ rest := fun m hm => hr ▸ List.mem_append_right pre hm
    obtain rfl := hroot p (hmem p (List.mem_cons_self ..)) hp
    have hunseen : Unseen v [⟨q, post⟩] :=
      unseen_cons.mpr ⟨fun m hm => hrest m (hmem m (List.mem_cons_of_mem _ hm)), hup⟩
    have hnew := hrest p (hmem p (List.mem_cons_self ..))
    obtain ⟨v', hv', htells⟩ := visits_entry hdirs hseat (.inl (haddr ▸ hnew)) hunseen hv.old (hfresh _ rfl)
    exact .inr ⟨_, _, _, v', rfl, rfl, hv', htells⟩
  | @ascends p prest up' hpath =>
    subst hpath
    have hclose : (if p.errno ≠ 0 then Info.err else .dp).closes = true := by split <;> rfl
    obtain ⟨v', hv', htells⟩ := visits_close (q := { p with info := if p.errno ≠ 0 then .err else .dp }) hdirs hclose
      hup.set hv.old
    exact .inr ⟨_, _, _, v', rfl, rfl, hv', htells⟩

/-- One call of `fts_read` goes on from what has been returned. -/
theorem Move.goes (h : Move E z n rest up s s' r fs) (hv : Tells v (⟨n, rest⟩ :: up) s.next) (hnext : s.next ≤ s'.next)
    (hagain : n.instr ≠ .again) (hchild : z.child = []) (hfreed : z.freed = none)
    (hroot : ∀ p ∈ rest, p.level = rootLevel → up = []) (hseat : Seated fs)
    (hfresh : ∀ f ∈ fs.head?, f.node.addr < s'.next)
    (hknown : ∀ b ∈ r, (∃ m ∈ (⟨n, rest⟩ :: up : List Frame).flatMap Frame.nodes, m.addr = b) ∨
      ∀ f ∈ fs.head?, ∀ m ∈ f.nodes, s.next ≤ m.addr) : Goes v s' r fs := by
  have hold : ∀ b ∈ v.seen, b < s'.next := fun b hb => (hv.old b hb).trans_le hnext
  cases h with
  | stops hstop => exact .inl ⟨rfl, .inl hstop⟩
  | lost hlost => simp [hfreed] at hlost
  | again hi hq => exact absurd hi hagain
  | @follows q hi hinfo hq =>
    have haddr : q.addr = n.addr := (congrArg Ftsent.addr hq.still :)
    have hlink : n.info.isLink = true := by
      rcases hinfo with h | h
      · rw [h]; rfl
      · rw [h]; rfl
    have hdirs : v.dirs = (pathNodes up).map Ftsent.addr := by
      rw [hv.dirs, openDirs, if_neg]
      rcases hinfo with h | h
      · rw [h]; decide
      · rw [h]; decide
    have hnew : v.link = some q.addr := haddr ▸ hv.link _ rfl hlink
    obtain ⟨v', hv', htells⟩ := visits_entry hdirs hseat (.inr hnew) hv.unseen.set hold (hfresh _ rfl)
    exact .inr ⟨_, _, _, v', rfl, by rw [haddr], hv', htells⟩
  | @closes c fs hi hk hc =>
    obtain ⟨g, hg, rfl⟩ := hk.frames
    have haddr : c.addr = n.addr := (congrArg Ftsent.addr hk.cur :)
    have hdirs : v.dirs = c.addr :: (pathNodes (up.map (Frame.map g))).map Ftsent.addr := by
      rw [hv.dirs, openDirs, if_pos hi, hg.harmless.addrs, haddr]
    obtain ⟨v', hv', htells⟩ := visits_close hdirs hc (hv.unseen.map hg).set hold
    exact .inr ⟨_, _, _, v', rfl, by rw [haddr], hv', htells⟩
  | @enters cs c k ks fs hi hskip hx hk hc he hl =>
    obtain ⟨g, hg, rfl⟩ := hk.frames
    have haddr : c.addr = n.addr := (congrArg Ftsent.addr hk.cur :)
    have hdirs : v.dirs = (pathNodes (⟨c, rest.map g⟩ :: up.map (Frame.map g))).map Ftsent.addr := by
      change _ = c.addr :: (pathNodes (up.map (Frame.map g))).map Ftsent.addr
      rw [hv.dirs, openDirs, if_pos hi, hg.harmless.addrs, haddr]
    -- The entries are new: their addresses are none of those that there were.
    have hkids : ∀ m ∈ k :: ks, s.next ≤ m.addr := by
      refine (hknown _ rfl).elim (fun hm => ?_) fun hm => hm _ rfl
      obtain ⟨m, hm, hmk⟩ := hm
      have hnodup := hseat.nodup
      rw [List.flatMap_cons, Frame.nodes, List.cons_append, List.map_cons, List.nodup_cons] at hnodup
      refine absurd ?_ hnodup.1
      rw [← hmk, List.map_append, List.mem_append]
      refine .inr ?_
      rw [List.flatMap_cons, List.mem_append] at hm
      rcases hm with hm | hm
      · rcases List.mem_cons.mp hm with rfl | hm
        · rw [← haddr]
          simp [Frame.nodes]
        · rw [← hg.addr m]
          exact List.mem_map_of_mem (List.mem_append_left _ (List.mem_cons_of_mem _ (List.mem_map_of_mem hm)))
      · obtain ⟨f, hf, hm⟩ := List.mem_flatMap.mp hm
        rw [← hg.addr m]
        refine List.mem_map_of_mem (List.mem_append_right _ (List.mem_flatMap.mpr ⟨f.map g, List.mem_map_of_mem hf, ?_⟩))
        exact List.mem_map_of_mem (f := g) hm
    have hnew : ∀ m ∈ k :: ks, m.addr ∉ v.seen := fun m hm hmem => absurd (hv.old _ hmem) (Nat.not_lt.mpr (hkids m hm))
    have hunseen : Unseen v (⟨k, ks⟩ :: ⟨c, rest.map g⟩ :: up.map (Frame.map g)) :=
      unseen_cons.mpr ⟨fun m hm => hnew m (List.mem_cons_of_mem _ hm), (hv.unseen.map hg).set⟩
    obtain ⟨v', hv', htells⟩ := visits_entry hdirs hseat (.inl (hnew k (List.mem_cons_self ..))) hunseen hold (hfresh _ rfl)
    exact .inr ⟨_, _, _, v', rfl, rfl, hv', htells⟩
  | resumes hi hskip hx hc hd hk =>
    rw [hchild] at hk
    cases hk
  | leaves hi hl => exact hl.goes hi (hv.mono hnext) hroot hseat hfresh

/-- A directory that is to be skipped is closed, or the traversal stops. -/
theorem Move.skips (h : Move E z n rest up s s' r fs) (hagain : n.instr ≠ .again) (hi : n.info = .d)
    (hskip : n.instr = .skip ∨ s.opts.xdev = true ∧ n.dev ≠ s.dev) :
    r = none ∨ r = some n.addr ∧ ∀ f ∈ fs.head?, f.node.info.closes = true := by
  have hgo : ¬(n.instr ≠ .skip ∧ (s.opts.xdev = true → n.dev = s.dev)) := by
    rintro ⟨hno, hdev⟩
    rcases hskip with h | ⟨hx, hne⟩
    · exact hno h
    · exact hne (hdev hx)
  cases h with
  | stops hstop => exact .inl rfl
  | lost hlost => exact .inl rfl
  | again hi hq => exact absurd hi hagain
  | follows hinstr hinfo hq =>
    rw [hi] at hinfo
    exact absurd hinfo (by decide)
  | closes hd hk hc =>
    obtain ⟨g, hg, rfl⟩ := hk.frames
    refine .inr ⟨rfl, fun f hf => ?_⟩
    cases hf
    exact hc
  | enters hd hno hx hk hc he hl => exact absurd ⟨hno, hx⟩ hgo
  | resumes hd hno hx hc hd' hk => exact absurd ⟨hno, hx⟩ hgo
  | leaves hd hl => exact absurd hi hd

end Moves

/-! ### Runs -/

/-- The nodes that a run returns. -/
def returned (steps : List (Step ω)) : List Ftsent := steps.filterMap Step.returned

theorem returned_concat (steps : List (Step ω)) (x : Step ω) : returned (steps ++ [x]) = returned steps ++ x.returned.toList := by
  rw [returned, List.filterMap_append, returned]
  cases hx : x.returned with
  | none => rw [List.filterMap_cons_none hx]; rfl
  | some q => rw [List.filterMap_cons_some hx]; rfl

theorem Tells.instruct {v : Visits} {fs : List Frame} {a : NodeId} {g : Ftsent → Ftsent} (h : Tells v fs a) (hg : Harmless g) :
    Tells v (fs.map (Frame.map g)) a := by
  refine ⟨?_, fun f hf m hm => ?_, h.old, fun f hf hl => ?_⟩
  · rw [h.dirs]
    cases fs with
    | nil => rfl
    | cons f up =>
      change openDirs (f :: up) = openDirs (⟨g f.node, f.rest.map g⟩ :: up.map (Frame.map g))
      rw [openDirs, openDirs, hg.addrs, hg.addr, hg.info]
  · obtain ⟨f₀, hf₀, rfl⟩ := List.mem_map.mp hf
    obtain ⟨m₀, hm₀, rfl⟩ := List.mem_map.mp (show m ∈ f₀.rest.map g from hm)
    rw [hg.addr]
    exact h.unseen f₀ hf₀ m₀ hm₀
  · rw [List.head?_map] at hf
    obtain ⟨f₀, hf₀, rfl⟩ := Option.map_eq_some_iff.mp hf
    change (g f₀.node).info.isLink = true at hl
    change v.link = some (g f₀.node).addr
    rw [hg.info] at hl
    rw [hg.addr]
    exact h.link f₀ hf₀ hl

/-- What a run of plain calls keeps. -/
structure Nested (E : Env ω) (steps : List (Step ω)) (s : Sys ω) (z : Walk) (v : Visits) : Prop where
  visits : (returned steps).foldlM Visits.visit Visits.start = some v
  skips : ∀ x ∈ steps, x.Skips
  state : s.opts.stop = true ∨ Orderly E s z ∧ Tells v z.frames s.next

namespace Nested

variable {steps : List (Step ω)} {st st' : St ω} {z : Walk} {v : Visits}

/-- A call that returns no node. -/
theorem quiet (h : Nested E steps st.sys z v) {x : Step ω} {s' : Sys ω} {z' : Walk} (hx : x.returned = none)
    (hstate : s'.opts.stop = true ∨ Orderly E s' z' ∧ Tells v z'.frames s'.next) : Nested E (steps ++ [x]) s' z' v := by
  refine ⟨?_, fun y hy => ?_, hstate⟩
  · rw [returned_concat, hx]
    exact (congrArg _ (List.append_nil _)).trans h.visits
  · rcases List.mem_append.mp hy with hy | hy
    · exact h.skips y hy
    · obtain rfl := List.mem_singleton.mp hy
      intro n hn hd hskip q hq
      rw [hx] at hq
      cases hq

/-- A call of `fts_read` on a stream that goes on. -/
theorem read {n : Ftsent} {rest : List Ftsent} {up : List Frame} (h : Nested E steps st.sys z v) (hr : Rep st z)
    (hstop : st.sys.opts.stop = false) (hz : z.frames = ⟨n, rest⟩ :: up)
    (hr' : Rep st' (val (Walk.read E z) st.sys).2) (hs : st'.sys = out (Walk.read E z) st.sys) (t : List Act) :
    ∃ v', Nested E (steps ++ [⟨st, .read, .node (val (Walk.read E z) st.sys).1, st', t⟩])
      st'.sys (val (Walk.read E z) st.sys).2 v' := by
  obtain ⟨ho, hv⟩ := h.state.resolve_left (by rw [hstop]; decide)
  have hm := ho.read hr hstop hz
  have hshape := hr.holds.shape
  rw [hz] at hshape
  have hroot := hshape.root_level
  obtain ⟨-, hnext, hknown⟩ := Walk.read_known (E := E) z st.sys
  have hnext' := (ho.moved hz hroot hm).imp_left And.right
  have hd₀ := ho.descent
  rw [hz] at hd₀
  rw [← hs] at hm hnext hnext'
  generalize val (Walk.read E z) st.sys = r at *
  have hfresh : ∀ f ∈ r.2.frames.head?, f.node.addr < st'.sys.next := by
    intro f hf
    apply hr'.holds.fresh
    rw [mem_nodes]
    exact .inl (List.mem_flatMap.mpr ⟨f, List.mem_of_mem_head? hf, List.mem_cons_self ..⟩)
  have hgoes : Goes v st'.sys r.1 r.2.frames := by
    refine hm.move.goes (hz ▸ hv) hnext (hd₀.1 n (List.mem_cons_self ..)).instr ho.child ho.freed hroot hr'.seated hfresh ?_
    have hold := hknown
    rw [Walk.Known, hz, ho.child, List.append_nil] at hold
    exact hold
  rcases hgoes with ⟨hnone, hstate⟩ | ⟨q, l, up', v', hfs, hsome, hvisit, htells⟩
  · refine ⟨v, h.quiet ?_ (hnext'.elim .inl fun ho' => hstate.imp_right fun hv' => ⟨ho', hv'⟩)⟩
    rw [hnone]
    rfl
  · have hq : st'.heap q.addr = some q := hr'.holds.owns.get (by rw [mem_nodes, hfs]; exact .inl (by simp [Frame.nodes]))
    have hret : (⟨st, .read, .node r.1, st', t⟩ : Step ω).returned = some q := by
      rw [hsome]
      exact hq
    refine ⟨v', ?_, fun y hy => ?_, hnext'.imp_right fun ho' => ⟨ho', hfs ▸ htells⟩⟩
    · rw [returned_concat, hret, List.foldlM_append, h.visits]
      exact congrArg (Option.bind · some) hvisit
    · rcases List.mem_append.mp hy with hy | hy
      · exact h.skips y hy
      · obtain rfl := List.mem_singleton.mp hy
        intro m hmem hd hskip p hp
        obtain rfl := Option.some.inj (hret.symm.trans hp)
        obtain rfl := Option.some.inj ((hr.current hz).symm.trans hmem)
        have hn := hd₀.1 n (List.mem_cons_self ..)
        have hclose := (hm.move.skips hn.instr hd hskip).resolve_left (by rw [hsome]; exact Option.some_ne_none _)
        exact ⟨Option.some.inj (hsome.symm.trans hclose.1), hclose.2 _ (by rw [hfs]; rfl)⟩

/-- One plain call. -/
theorem call {c : Call} (h : Nested E steps st.sys z v) (hr : Rep st z) (hok : c.Plain)
    (hr' : Rep st' (val (Walk.call E z c) st.sys).2) (hs' : st'.sys = out (Walk.call E z c) st.sys) :
    ∃ v', Nested E (steps ++ [⟨st, c, (val (Walk.call E z c) st.sys).1, st', acts (Walk.call E z c) st.sys⟩])
      st'.sys (val (Walk.call E z c) st.sys).2 v' := by
  cases c with
  | children instr => exact absurd hok id
  | set a instr =>
    refine ⟨v, h.quiet rfl ?_⟩
    have hcore : st'.sys.core = st.sys.core := hs' ▸ Walk.set_keeps a instr z st.sys
    have hopts : st'.sys.opts = st.sys.opts := congrArg (fun c : Sys Unit => c.opts) hcore
    have hnext : st'.sys.next = st.sys.next := congrArg (fun c : Sys Unit => c.next) hcore
    rw [hopts, hnext]
    refine h.state.imp_right fun ⟨ho, hv⟩ => ⟨hs' ▸ ho.set a hok, ?_⟩
    obtain ⟨g, hg, hframes, -⟩ := Walk.set_plain (a := a) hok z st.sys
    have hgoal := hv.instruct hg
    rw [← hframes] at hgoal
    exact hgoal
  | read =>
    have hstays : ∀ t, val (Walk.read E z) st.sys = (none, z) → out (Walk.read E z) st.sys = st.sys →
        ∃ v, Nested E (steps ++ [⟨st, .read, .node (val (Walk.read E z) st.sys).1, st', t⟩])
          st'.sys (val (Walk.read E z) st.sys).2 v := by
      intro t hval hout
      have hst : st'.sys = st.sys := hs'.trans hout
      rw [hval, hst]
      exact ⟨v, h.quiet rfl h.state⟩
    cases hstop : st.sys.opts.stop with
    | true =>
      have hread := (Walk.read_stopped (E := E) (z := z) (P := fun _ => True) hstop).2
      exact hstays _ hread.1 hread.2
    | false =>
      cases hz : z.frames with
      | nil =>
        apply hstays
        · unfold Walk.read
          rw [hz]
          rfl
        · unfold Walk.read
          rw [hz]
          rfl
      | cons f up =>
        obtain ⟨n, rest⟩ := f
        exact h.read hr hstop hz hr' hs' _

end Nested

/-- A directory with a file and a directory in it. -/
def shelf : FileSystem where
  root := .dir 1 1 3 [([97], .dir 1 2 2 [([98], .leaf ⟨.reg, 1, 3, 1⟩)]), ([99], .leaf ⟨.reg, 1, 4, 1⟩)]
  dtype _ := .unknown
  openErr _ := none
  statErr _ := none
  chdirErr _ := none
  readErr _ := 0

/-- A session on it, with the physical walk of the root. -/
def shelfSession (cs : List Call) : Option (List (Step Proc)) :=
  session (shelf.env false) [[slash]] FTS_PHYSICAL none ⟨[], []⟩ cs

end MuslBsd.Fts
