import Mathlib.Data.Finset.Card
import MuslBsd.Fts.Nesting

/-! Every traversal ends: where the operations know finitely many directories, and directory streams of a
bounded length, `fts_read` returns a bounded number of nodes. -/
namespace MuslBsd.Fts
open MuslBsd.Support Traced

variable {ω : Type} {E : Env ω}

/-- How often an entry and all below it may be returned, where `k` directories have not been met yet and no
directory has more than `b` entries. -/
def returnsAtMost (b : ℕ) : ℕ → ℕ
  | 0 => 2
  | k + 1 => 2 + b * returnsAtMost b k

theorem two_le_returnsAtMost (b k : ℕ) : 2 ≤ returnsAtMost b k := by
  cases k with
  | zero => exact le_rfl
  | succ k => exact Nat.le_add_right ..

theorem returnsAtMost_mono {b k l : ℕ} (h : k ≤ l) : returnsAtMost b k ≤ returnsAtMost b l := by
  induction l generalizing k with
  | zero => rw [Nat.le_zero.mp h]
  | succ l ih =>
    cases k with
    | zero => exact two_le_returnsAtMost b (l + 1)
    | succ k => exact Nat.add_le_add_left (Nat.mul_le_mul_left b (ih (Nat.le_of_succ_le_succ h))) 2

/-- How often a directory that is current may still be returned, with all below it. -/
def Ftsent.due (b k : ℕ) (n : Ftsent) : ℕ := if n.info = .d then 1 + b * returnsAtMost b (k - 1) else 0

/-- How often the siblings that are still to come may be returned, with all below them. -/
def siblingsDue (b k : ℕ) : List Frame → ℕ
  | [] => 0
  | f :: up => f.rest.length * returnsAtMost b (k - up.length) + siblingsDue b k up

def toFollow (fs : List Frame) : ℕ := (fs.flatMap Frame.nodes).countP fun m => m.instr = .follow

/-- How often `fts_read` may still return a node, when `k` directories are known: an entry that is to be
followed may be returned once more, with all below it. -/
def readsDue (b k : ℕ) : List Frame → ℕ
  | [] => 0
  | f :: up => f.node.due b (k - up.length) + siblingsDue b k (f :: up) + up.length +
      toFollow (f :: up) * returnsAtMost b k

section Potential

variable {b k : ℕ} {n q c m : Ftsent} {rest : List Ftsent} {up fs : List Frame} {g : Ftsent → Ftsent}
  {keys : Finset (ℕ × ℕ)}

theorem due_lt (hk : m.info = .d → 0 < k) : m.due b k + 1 ≤ returnsAtMost b k := by
  unfold Ftsent.due
  split
  · next hd =>
    obtain ⟨k, rfl⟩ := Nat.exists_eq_succ_of_ne_zero (hk hd).ne'
    rw [Nat.succ_sub_one, returnsAtMost]
    omega
  · exact (two_le_returnsAtMost b k).trans' (by decide)

theorem due_eq_zero (h : m.info ≠ .d) : m.due b k = 0 := if_neg h

/-- A directory that has not been met is one more than those on the path. -/
theorem Descent.room (h : Descent E (⟨n, rest⟩ :: up)) (hkeys : ∀ x, E.Names x → x ∈ keys) (hm : Unmet E up m)
    (hd : m.info = .d) : 0 < keys.card - up.length := by
  obtain ⟨hnodup, hnames⟩ := h.keys
  have hall : (m.key :: (pathNodes up).map Ftsent.key).Nodup := List.nodup_cons.mpr ⟨hm.fresh hd, hnodup⟩
  have hsub : (m.key :: (pathNodes up).map Ftsent.key).toFinset ⊆ keys := by
    intro x hx
    apply hkeys
    rcases List.mem_cons.mp (List.mem_toFinset.mp hx) with rfl | hx
    · exact hm.names hd
    · exact hnames x hx
  have hcard := Finset.card_le_card hsub
  rw [List.toFinset_card_of_nodup hall, List.length_cons, List.length_map, pathNodes, List.length_map] at hcard
  omega

theorem siblingsDue_map (fs : List Frame) : siblingsDue b k (fs.map (Frame.map g)) = siblingsDue b k fs := by
  induction fs with
  | nil => rfl
  | cons f up ih =>
    rw [List.map_cons, siblingsDue, siblingsDue, ih, List.length_map]
    exact congrArg (· * _ + _) (List.length_map ..)

theorem toFollow_cons (f : Frame) (up : List Frame) :
    toFollow (f :: up) = f.nodes.countP (fun m => m.instr = .follow) + toFollow up := by
  rw [toFollow, List.flatMap_cons, List.countP_append]
  rfl

theorem toFollow_map (hg : ∀ m, (g m).instr = m.instr) (fs : List Frame) : toFollow (fs.map (Frame.map g)) = toFollow fs := by
  induction fs with
  | nil => rfl
  | cons f up ih =>
    rw [List.map_cons, toFollow_cons, toFollow_cons, ih]
    refine congrArg (· + _) ?_
    change (f.nodes.map g).countP _ = _
    rw [List.countP_map]
    refine List.countP_congr fun m _ => ?_
    simp [hg m]

/-- Another current node is followed only if the one before was. -/
theorem toFollow_set (hq : q.instr = .follow → n.instr = .follow) : toFollow (⟨q, rest⟩ :: up) ≤ toFollow (⟨n, rest⟩ :: up) := by
  rw [toFollow_cons, toFollow_cons]
  refine Nat.add_le_add_right ?_ _
  rw [Frame.nodes, Frame.nodes, List.countP_cons, List.countP_cons]
  refine Nat.add_le_add_left ?_ _
  by_cases h : q.instr = .follow
  · simp [h, hq h]
  · simp [h]

/-- A node without an instruction becomes current in place of one that is followed. -/
theorem toFollow_taken (hn : n.instr = .follow) (hq : q.instr ≠ .follow) :
    toFollow (⟨q, rest⟩ :: up) + 1 = toFollow (⟨n, rest⟩ :: up) := by
  rw [toFollow_cons, toFollow_cons, Frame.nodes, Frame.nodes, List.countP_cons, List.countP_cons]
  simp only [hn, hq, decide_true, decide_false, if_true, Bool.false_eq_true, if_false]
  omega

/-- Siblings that are passed over are not followed. -/
theorem toFollow_later {pre post : List Ftsent} (hr : rest = pre ++ q :: post) :
    toFollow (⟨q, post⟩ :: up) ≤ toFollow (⟨n, rest⟩ :: up) := by
  rw [toFollow_cons, toFollow_cons]
  refine Nat.add_le_add_right (List.Sublist.countP_le ?_) _
  rw [Frame.nodes, Frame.nodes, hr]
  exact (List.sublist_append_right ..).cons _

theorem toFollow_up : toFollow up ≤ toFollow (⟨n, rest⟩ :: up) := by
  rw [toFollow_cons]
  exact Nat.le_add_left ..

end Potential

section Moves

variable {b : ℕ} {keys : Finset (ℕ × ℕ)} {z : Walk} {n : Ftsent} {rest : List Ftsent} {up fs : List Frame}
  {s s' : Sys ω} {r : Option NodeId}

/-- What is known of the environment: all directories that it may name, and how long a directory stream is at
most. -/
structure Env.Bounded (E : Env ω) (keys : Finset (ℕ × ℕ)) (b : ℕ) : Prop where
  names : ∀ x, E.Names x → x ∈ keys
  lists : ∀ k, E.Lists k → k ≤ b

theorem Unmet.due_lt (hE : E.Bounded keys b) (hd : Descent E (⟨n, rest⟩ :: up)) {m : Ftsent} (hm : Unmet E up m) :
    m.due b (keys.card - up.length) + 1 ≤ returnsAtMost b (keys.card - up.length) :=
  Fts.due_lt fun hi => hd.room hE.names hm hi

/-- Leaving a node for another one. -/
theorem Leave.due (h : Leave E rest up s' r fs) (hE : E.Bounded keys b) (hd : Descent E (⟨n, rest⟩ :: up))
    (hroot : ∀ p ∈ rest, p.level = rootLevel → up = []) (hr : r ≠ none) (hstop : Descent E fs) :
    readsDue b keys.card fs + 1 ≤ readsDue b keys.card (⟨n, rest⟩ :: up) := by
  have hstep : ∀ {pre post : List Ftsent} {p q : Ftsent}, rest = pre ++ p :: post →
      (q.instr = .follow → p.instr = .follow) → Descent E (⟨q, post⟩ :: up) →
      readsDue b keys.card (⟨q, post⟩ :: up) + 1 ≤ readsDue b keys.card (⟨n, rest⟩ :: up) := by
    intro pre post p q hr hq hd'
    have hlt := (hd'.1 q (List.mem_cons_self ..)).due_lt hE hd'
    have hfollow : toFollow (⟨q, post⟩ :: up) ≤ toFollow (⟨n, rest⟩ :: up) :=
      (toFollow_set hq).trans (toFollow_later hr)
    have hmul := Nat.mul_le_mul_right (returnsAtMost b keys.card) hfollow
    have hlen : post.length + 1 ≤ rest.length := by
      rw [hr, List.length_append, List.length_cons]
      omega
    have hrest := Nat.mul_le_mul_right (returnsAtMost b (keys.card - up.length)) hlen
    rw [Nat.add_mul, Nat.one_mul] at hrest
    simp only [readsDue, siblingsDue]
    omega
  cases h with
  | stops hs => exact absurd rfl hr
  | finishes hup => exact absurd rfl hr
  | @steps pre post p q hp hl hq =>
    refine hstep hp ?_ hstop
    cases hq with
    | asIs hi => exact id
    | followed hi hq => exact fun _ => hi
  | @roots pre post p q hp hl hq hdev =>
    have hmem : p ∈ rest := hp ▸ List.mem_append_right pre (List.mem_cons_self ..)
    obtain rfl := hroot p hmem hl
    exact hstep hp (fun h => hq.instr ▸ h) hstop
  | @ascends p prest up' hup =>
    subst hup
    have hclosed : Ftsent.due b (keys.card - up'.length) { p with info := if p.errno ≠ 0 then .err else .dp } = 0 := by
      apply due_eq_zero
      dsimp only
      split <;> decide
    have hfollow : toFollow (⟨{ p with info := if p.errno ≠ 0 then .err else .dp }, prest⟩ :: up') ≤
        toFollow (⟨n, rest⟩ :: ⟨p, prest⟩ :: up') :=
      (toFollow_set (n := p) fun h => h).trans toFollow_up
    have hmul := Nat.mul_le_mul_right (returnsAtMost b keys.card) hfollow
    simp only [readsDue, siblingsDue, List.length_cons, hclosed]
    omega

/-- Every node that `fts_read` returns is one less that it may return. -/
theorem Move.due (h : Move E z n rest up s s' r fs) (hE : E.Bounded keys b) (hd : Descent E (⟨n, rest⟩ :: up))
    (hchild : z.child = []) (hroot : ∀ p ∈ rest, p.level = rootLevel → up = []) (hr : r ≠ none) (hd' : Descent E fs) :
    readsDue b keys.card fs + 1 ≤ readsDue b keys.card (⟨n, rest⟩ :: up) := by
  have hn := hd.1 n (List.mem_cons_self ..)
  have hmono := returnsAtMost_mono (b := b) (Nat.sub_le keys.card up.length)
  cases h with
  | stops hstop => exact absurd rfl hr
  | lost hlost => exact absurd rfl hr
  | again hi hq => exact absurd hi hn.instr
  | @follows q hi hinfo hq =>
    have hlt := (hd'.1 q (List.mem_cons_self ..)).due_lt hE hd'
    have hinstr : q.instr = .noinstr := (congrArg Ftsent.instr hq.still :)
    have hfollow : toFollow (⟨q, rest⟩ :: up) + 1 = toFollow (⟨n, rest⟩ :: up) :=
      toFollow_taken hi (by rw [hinstr]; decide)
    have hmul := congrArg (· * returnsAtMost b keys.card) hfollow
    simp only [Nat.add_mul, Nat.one_mul] at hmul
    simp only [readsDue, siblingsDue]
    omega
  | @closes c fs hi hk hc =>
    obtain ⟨g, hg, rfl⟩ := hk.frames
    have hdue : n.due b (keys.card - up.length) = 1 + b * returnsAtMost b (keys.card - up.length - 1) := if_pos hi
    have hclosed : c.due b (keys.card - up.length) = 0 := due_eq_zero fun h => by rw [h] at hc; cases hc
    have hinstr : c.instr = .noinstr := (congrArg Ftsent.instr hk.cur :)
    have hfollow : toFollow (⟨c, rest.map g⟩ :: up.map (Frame.map g)) ≤ toFollow (⟨n, rest⟩ :: up) := by
      rw [← toFollow_map (g := g) (hg.field Ftsent.instr fun _ => rfl) (⟨n, rest⟩ :: up)]
      exact toFollow_set fun h => by rw [hinstr] at h; cases h
    have hmul := Nat.mul_le_mul_right (returnsAtMost b keys.card) hfollow
    simp only [readsDue, siblingsDue, List.length_map, siblingsDue_map, hdue, hclosed]
    omega
  | @enters cs c k ks fs hi hskip hx hk hc he hl =>
    obtain ⟨g, hg, rfl⟩ := hk.frames
    have hdue : n.due b (keys.card - up.length) = 1 + b * returnsAtMost b (keys.card - up.length - 1) := if_pos hi
    have hinstr : c.instr = .noinstr := (congrArg Ftsent.instr hk.cur :)
    have hfollow : toFollow (⟨k, ks⟩ :: ⟨c, rest.map g⟩ :: up.map (Frame.map g)) ≤ toFollow (⟨n, rest⟩ :: up) := by
      have hkids : (k :: ks).countP (fun m => m.instr = .follow) = 0 :=
        List.countP_eq_zero.mpr fun m hm => by simp [(he m hm).instr]
      rw [toFollow_cons, Frame.nodes, hkids, Nat.zero_add,
        ← toFollow_map (g := g) (hg.field Ftsent.instr fun _ => rfl) (⟨n, rest⟩ :: up)]
      exact toFollow_set fun h => by rw [hinstr] at h; cases h
    have hmul := Nat.mul_le_mul_right (returnsAtMost b keys.card) hfollow
    have hlt := (hd'.1 k (List.mem_cons_self ..)).due_lt hE hd'
    have hlen : ks.length + 1 ≤ b := hE.lists _ hl
    have hall := Nat.mul_le_mul_right (returnsAtMost b (keys.card - up.length - 1)) hlen
    rw [Nat.add_mul, Nat.one_mul] at hall
    simp only [List.length_cons, List.length_map, Nat.sub_add_eq] at hlt
    simp only [readsDue, siblingsDue, List.length_map, List.length_cons, siblingsDue_map, hdue, Nat.sub_add_eq]
    omega
  | resumes hi hskip hx hc hd'' hk =>
    rw [hchild] at hk
    cases hk
  | leaves hi hl => exact hl.due hE hd hroot hr hd'

/-- NULL is returned when the traversal stops, or is over. -/
theorem Move.ended (h : Move E z n rest up s s' none fs) (hfreed : z.freed = none) : s'.opts.stop = true ∨ fs = [] := by
  cases h with
  | stops hstop => exact .inl hstop
  | lost hlost => simp [hfreed] at hlost
  | leaves hi hl =>
    cases hl with
    | stops hstop => exact .inl hstop
    | finishes hup => exact .inr rfl

end Moves

/-! ### Runs -/

theorem countP_instruct {a : NodeId} {i : Instr} {p : Ftsent → Bool} {l : List Ftsent} (h : (l.map Ftsent.addr).Nodup) :
    (l.map (instruct a i)).countP p ≤ l.countP p + 1 := by
  have hsame : ∀ l : List Ftsent, (∀ m ∈ l, m.addr ≠ a) → l.map (instruct a i) = l := by
    intro l hl
    conv_rhs => rw [← List.map_id l]
    exact List.map_congr_left fun m hm => if_neg (hl m hm)
  induction l with
  | nil => exact Nat.zero_le _
  | cons m l ih =>
    obtain ⟨hm, hl⟩ := List.nodup_cons.mp h
    rw [List.map_cons, List.countP_cons, List.countP_cons]
    by_cases ha : m.addr = a
    · rw [hsame l fun m' hm' he => hm (ha.trans he.symm ▸ List.mem_map_of_mem hm')]
      split <;> split <;> omega
    · have hid : instruct a i m = m := if_neg ha
      have := ih hl
      rw [hid]
      omega

/-- An instruction lets one more entry be followed. -/
theorem readsDue_instruct {b k : ℕ} {a : NodeId} {i : Instr} {fs : List Frame}
    (h : ((fs.flatMap Frame.nodes).map Ftsent.addr).Nodup) :
    readsDue b k (fs.map (Frame.map (instruct a i))) ≤ readsDue b k fs + returnsAtMost b k := by
  cases fs with
  | nil => exact Nat.zero_le _
  | cons f up =>
    have hfollow : toFollow ((f :: up).map (Frame.map (instruct a i))) ≤ toFollow (f :: up) + 1 := by
      rw [toFollow, flatMap_nodes_map]
      exact countP_instruct h
    have hmul := Nat.mul_le_mul_right (returnsAtMost b k) hfollow
    rw [Nat.add_mul, Nat.one_mul] at hmul
    have hdue : Ftsent.due b (k - up.length) (instruct a i f.node) = Ftsent.due b (k - up.length) f.node := by
      unfold Ftsent.due instruct
      split <;> rfl
    have hcur : (f.map (instruct a i)).node = instruct a i f.node := rfl
    have hsib := siblingsDue_map (b := b) (k := k) (g := instruct a i) (f :: up)
    rw [List.map_cons] at hmul hsib ⊢
    simp only [readsDue, List.length_map, hcur, hdue, hsib]
    omega

/-- What a call of `fts_read` answers. -/
def Step.readAnswer (x : Step ω) : Option (Option NodeId) :=
  match x.call, x.answer with
  | .read, .node p => some p
  | _, _ => none

def readAnswers (steps : List (Step ω)) : List (Option NodeId) := steps.filterMap Step.readAnswer

theorem readAnswers_concat (steps : List (Step ω)) (x : Step ω) :
    readAnswers (steps ++ [x]) = readAnswers steps ++ x.readAnswer.toList := by
  rw [readAnswers, List.filterMap_append, readAnswers]
  cases hx : x.readAnswer with
  | none => rw [List.filterMap_cons_none hx]; rfl
  | some q => rw [List.filterMap_cons_some hx]; rfl

/-- How many nodes at most a run returns that has `n` roots. -/
def returnsOf (b k n : ℕ) (steps : List (Step ω)) : ℕ :=
  (n + steps.countP fun x => x.call ≠ .read) * returnsAtMost b k

/-- What a run of plain calls keeps: nodes are returned, and then NULL for good. -/
structure Budget (E : Env ω) (b k n : ℕ) (steps : List (Step ω)) (s : Sys ω) (z : Walk) : Prop where
  state : s.opts.stop = true ∨ Orderly E s z
  answers : ∃ (nodes : List NodeId) (m : ℕ), readAnswers steps = nodes.map some ++ List.replicate m none ∧
    (0 < m → s.opts.stop = true ∨ z.frames = []) ∧ nodes.length ≤ returnsOf b k n steps ∧
    (s.opts.stop = false → nodes.length + readsDue b k z.frames ≤ returnsOf b k n steps)

theorem returnsOf_concat (b k n : ℕ) (steps : List (Step ω)) (x : Step ω) :
    returnsOf b k n (steps ++ [x]) = returnsOf b k n steps + (if x.call ≠ .read then returnsAtMost b k else 0) := by
  rw [returnsOf, returnsOf, List.countP_append, List.countP_cons, List.countP_nil]
  by_cases hx : x.call = .read
  · simp [hx]
  · simp [hx, Nat.add_mul, Nat.add_assoc]

namespace Budget

variable {b n : ℕ} {keys : Finset (ℕ × ℕ)} {steps : List (Step ω)} {st st' : St ω} {z : Walk}

/-- A call of `fts_read` that answers NULL. -/
theorem ended {k : ℕ} {s' : Sys ω} {z' : Walk} {t : List Act} (h : Budget E b k n steps st.sys z)
    (hstate : s'.opts.stop = true ∨ Orderly E s' z') (hover : s'.opts.stop = true ∨ z'.frames = []) :
    Budget E b k n (steps ++ [⟨st, .read, .node none, st', t⟩]) s' z' := by
  obtain ⟨nodes, m, hans, -, hle, -⟩ := h.answers
  have hbound : returnsOf b k n (steps ++ [⟨st, .read, .node none, st', t⟩]) = returnsOf b k n steps :=
    returnsOf_concat ..
  refine ⟨hstate, nodes, m + 1, ?_, fun _ => hover, hle.trans_eq hbound.symm, fun hstop => ?_⟩
  · rw [readAnswers_concat, hans, List.append_assoc, List.replicate_succ']
    rfl
  · rw [hover.resolve_left (by rw [hstop]; decide), hbound]
    exact hle

/-- A call of `fts_read` on a stream that goes on. -/
theorem read {m : Ftsent} {rest : List Ftsent} {up : List Frame} (hE : E.Bounded keys b)
    (h : Budget E b keys.card n steps st.sys z) (hr : Rep st z) (hstop : st.sys.opts.stop = false)
    (hz : z.frames = ⟨m, rest⟩ :: up) (hs : st'.sys = out (Walk.read E z) st.sys) (t : List Act) :
    Budget E b keys.card n (steps ++ [⟨st, .read, .node (val (Walk.read E z) st.sys).1, st', t⟩])
      st'.sys (val (Walk.read E z) st.sys).2 := by
  have ho := h.state.resolve_left (by rw [hstop]; decide)
  have hm := ho.read hr hstop hz
  have hshape := hr.holds.shape
  rw [hz] at hshape
  have hmoved := ho.moved hz hshape.root_level hm
  have hd := ho.descent
  rw [hz] at hd
  rw [← hs] at hm hmoved
  generalize val (Walk.read E z) st.sys = r at *
  obtain ⟨r, z'⟩ := r
  cases r with
  | none => exact h.ended (hmoved.imp_left And.right) (hm.move.ended ho.freed)
  | some a =>
    have ho' := hmoved.resolve_left fun hno => nomatch hno.1
    have hdue := hm.move.due hE hd ho.child hshape.root_level (Option.some_ne_none a) ho'.descent
    obtain ⟨nodes, k, hans, hover, -, hle⟩ := h.answers
    have hk : k = 0 := by
      by_contra hk
      rcases hover (Nat.pos_of_ne_zero hk) with hs | hnil
      · rw [hstop] at hs
        cases hs
      · rw [hz] at hnil
        cases hnil
    have hbound : returnsOf b keys.card n (steps ++ [⟨st, .read, .node (some a), st', t⟩]) = returnsOf b keys.card n steps :=
      returnsOf_concat ..
    have hle' := hle hstop
    rw [hz] at hle'
    dsimp only at hdue
    refine ⟨.inr ho', nodes ++ [a], 0, ?_, fun hpos => absurd hpos (Nat.lt_irrefl 0), ?_, fun _ => ?_⟩
    · rw [readAnswers_concat, hans, hk]
      simp [Step.readAnswer]
    · rw [hbound, List.length_append, List.length_singleton]
      omega
    · rw [hbound, List.length_append, List.length_singleton]
      dsimp only
      omega

/-- One plain call. -/
theorem call {c : Call} (hE : E.Bounded keys b) (h : Budget E b keys.card n steps st.sys z) (hr : Rep st z)
    (hok : c.Plain) (hs' : st'.sys = out (Walk.call E z c) st.sys) :
    Budget E b keys.card n (steps ++ [⟨st, c, (val (Walk.call E z c) st.sys).1, st', acts (Walk.call E z c) st.sys⟩])
      st'.sys (val (Walk.call E z c) st.sys).2 := by
  cases c with
  | children instr => exact absurd hok id
  | set a instr =>
    have hcore : st'.sys.core = st.sys.core := hs' ▸ Walk.set_keeps a instr z st.sys
    have hopts : st'.sys.opts = st.sys.opts := congrArg (fun c : Sys Unit => c.opts) hcore
    obtain ⟨nodes, m, hans, hover, hle, hdue⟩ := h.answers
    have hbound := returnsOf_concat b keys.card n steps
      ⟨st, .set a instr, (val (Walk.call E z (.set a instr)) st.sys).1, st', acts (Walk.call E z (.set a instr)) st.sys⟩
    rw [if_pos (by simp)] at hbound
    have hframes : (val (Walk.set a instr z) st.sys).2.frames = z.frames ∨ ∃ i,
        (val (Walk.set a instr z) st.sys).2.frames = z.frames.map (Frame.map (instruct a i)) := by
      rcases Walk.set_cases a instr z st.sys with hz | ⟨i, -, hz⟩
      · exact .inl (by rw [hz])
      · exact .inr ⟨i, by rw [hz]; rfl⟩
    refine ⟨?_, nodes, m, ?_, fun hpos => ?_, ?_, fun hstop => ?_⟩
    · rw [hopts]
      exact h.state.imp_right fun ho => hs' ▸ ho.set a hok
    · rw [readAnswers_concat, hans]
      exact List.append_nil _
    · rw [hopts]
      refine (hover hpos).imp_right fun hnil => ?_
      rcases hframes with hz | ⟨i, hz⟩
      · exact hz.trans hnil
      · refine hz.trans ?_
        rw [hnil]
        rfl
    · omega
    · rw [hopts] at hstop
      have hle' := hdue hstop
      rw [hbound]
      rcases hframes with hz | ⟨i, hz⟩
      · have hsame : readsDue b keys.card (val (Walk.set a instr z) st.sys).2.frames = readsDue b keys.card z.frames := by
          rw [hz]
        exact (Nat.add_le_add_left hsame.le _).trans (hle'.trans (Nat.le_add_right ..))
      · have hmore : readsDue b keys.card (val (Walk.set a instr z) st.sys).2.frames ≤
            readsDue b keys.card z.frames + returnsAtMost b keys.card := by
          rw [hz]
          exact readsDue_instruct hr.seated.nodup
        exact (Nat.add_le_add_left hmore _).trans (by omega)
  | read =>
    have hstays : ∀ t, val (Walk.read E z) st.sys = (none, z) → out (Walk.read E z) st.sys = st.sys →
        (st.sys.opts.stop = true ∨ z.frames = []) →
        Budget E b keys.card n (steps ++ [⟨st, .read, .node (val (Walk.read E z) st.sys).1, st', t⟩])
          st'.sys (val (Walk.read E z) st.sys).2 := by
      intro t hval hout hover
      have hst : st'.sys = st.sys := hs'.trans hout
      rw [hval, hst]
      exact h.ended h.state hover
    cases hstop : st.sys.opts.stop with
    | true =>
      have hread := (Walk.read_stopped (E := E) (z := z) (P := fun _ => True) hstop).2
      exact hstays _ hread.1 hread.2 (.inl hstop)
    | false =>
      cases hz : z.frames with
      | nil =>
        apply hstays
        · unfold Walk.read
          rw [hz]
          rfl
        · unfold Walk.read
          rw [hz]
          rfl
        · exact .inr hz
      | cons f up =>
        obtain ⟨m, rest⟩ := f
        exact h.read hE hr hstop hz hs' _

end Budget

/-- In every run of `fts_read` and of `fts_set` without `FTS_AGAIN`, over operations that know finitely many
directories and no directory of more than `b` entries, `fts_read` returns a bounded number of nodes and from
then on NULL, wherever symbolic links may lead. -/
theorem reads_end {argv : Option (List CString)} {options : ℕ} {compar : Option Compar} {w : ω} {b : ℕ}
    {keys : Finset (ℕ × ℕ)} {st₀ st : St ω} {t : List Act} {steps : List (Step ω)} (hE : E.Bounded keys b)
    (ho : Opens E argv options compar w st₀ t) (h : Calls E (fun _ c => c.Plain) st₀ steps st) :
    ∃ (nodes : List NodeId) (m : ℕ), readAnswers steps = nodes.map some ++ List.replicate m none ∧
      nodes.length ≤ returnsOf b keys.card (argv.getD []).length steps := by
  obtain ⟨z₀, hz, hr, hs, -⟩ := ho.rep
  have hfresh : Walk.Fresh E argv st₀.sys z₀ := hs ▸ (Walk.open_does argv options compar (St.start w).sys).2 z₀ hz
  have hstart : Budget E b keys.card (argv.getD []).length [] st₀.sys z₀ := by
    refine ⟨.inr hfresh.orderly, [], 0, rfl, fun hpos => absurd hpos (Nat.lt_irrefl 0), Nat.zero_le _, fun _ => ?_⟩
    obtain ⟨n, roots, hfs, hinfo, hinstr, hroots, hlen⟩ := hfresh.frames
    have hnone : toFollow [⟨n, roots⟩] = 0 := by
      rw [toFollow, List.countP_eq_zero]
      intro m hm
      rcases List.mem_cons.mp (show m ∈ n :: roots by simpa [Frame.nodes] using hm) with rfl | hm
      · simp [hinstr]
      · simp [(hroots m hm).instr]
    have hdue : n.due b keys.card = 0 := due_eq_zero (by rw [hinfo]; decide)
    rw [hfs]
    simp only [readsDue, siblingsDue, hnone, List.length_nil, Nat.sub_zero, hdue, hlen, returnsOf, List.countP_nil, Nat.add_zero, Nat.zero_mul, Nat.zero_add]
    exact le_rfl
  obtain ⟨z, -, hb⟩ := h.invariant (I := Budget E b keys.card (argv.getD []).length) hr hstart
    fun steps st z c st' hr hI hok hr' hs' => hI.call hE hr hok hs'
  obtain ⟨nodes, m, hans, -, hle, -⟩ := hb.answers
  exact ⟨nodes, m, hans, hle⟩

/-! ### Static file systems -/

namespace Tree

mutual

/-- The files of a tree. -/
def keys : Tree → List (ℕ × ℕ)
  | leaf sb => [(sb.dev, sb.ino)]
  | link sb _ => [(sb.dev, sb.ino)]
  | dir dev ino _ es => (dev, ino) :: keysOf es

def keysOf : List (CString × Tree) → List (ℕ × ℕ)
  | [] => []
  | (_, t) :: es => t.keys ++ keysOf es

end

mutual

/-- The most entries that a directory of a tree has. -/
def width : Tree → ℕ
  | leaf _ => 0
  | link _ _ => 0
  | dir _ _ _ es => max es.length (widthOf es)

def widthOf : List (CString × Tree) → ℕ
  | [] => 0
  | (_, t) :: es => max t.width (widthOf es)

end

theorem keys_entry {es : List (CString × Tree)} {e : CString × Tree} (he : e ∈ es) : e.2.keys ⊆ keysOf es := by
  induction es with
  | nil => cases he
  | cons e' es ih =>
    rcases List.mem_cons.mp he with rfl | he
    · exact List.subset_append_left ..
    · exact List.Subset.trans (ih he) (List.subset_append_right ..)

theorem width_entry {es : List (CString × Tree)} {e : CString × Tree} (he : e ∈ es) : e.2.width ≤ widthOf es := by
  induction es with
  | nil => cases he
  | cons e' es ih =>
    rcases List.mem_cons.mp he with rfl | he
    · exact le_max_left ..
    · exact (ih he).trans (le_max_right ..)

/-- What is in a tree has no files but those of the tree. -/
theorem at?_keys {t t' : Tree} {loc : Loc} (h : t.at? loc = some t') : t'.keys ⊆ t.keys ∧ t'.width ≤ t.width := by
  induction loc generalizing t with
  | nil =>
    obtain rfl := Option.some.inj h
    exact ⟨List.Subset.refl _, le_rfl⟩
  | cons n ns ih =>
    obtain ⟨e, he, hat⟩ := Option.bind_eq_some_iff.mp h
    obtain ⟨hkeys, hwidth⟩ := ih hat
    have hmem := List.mem_of_find?_eq_some he
    cases t with
    | leaf sb => cases hmem
    | link sb target => cases hmem
    | dir dev ino nlink es =>
      refine ⟨fun x hx => List.mem_cons_of_mem _ (keys_entry hmem (hkeys hx)), ?_⟩
      exact hwidth.trans ((width_entry hmem).trans (le_max_right ..))

theorem stat_mem (t : Tree) : (t.stat.dev, t.stat.ino) ∈ t.keys := by
  cases t with
  | leaf sb => exact List.mem_singleton_self _
  | link sb target => exact List.mem_singleton_self _
  | dir dev ino nlink es => exact List.mem_cons_self ..

end Tree

namespace FileSystem

variable (F : FileSystem)

theorem statOf_eq_ok {base : Option Loc} {path : CString} {nofollow : Bool} {sb : Stat}
    (h : F.statOf base path nofollow = .ok sb) : ∃ loc t, F.root.at? loc = some t ∧ t.stat = sb := by
  unfold statOf at h
  split at h
  · cases h
  · split at h
    · cases h
    · next base' loc _ =>
      split at h
      · next t hat _ => exact ⟨loc, t, hat, Except.ok.inj h⟩
      · cases h
      · cases h

/-- A static file system has finitely many files, wherever its links lead. -/
theorem bounded (moves : Bool) : (F.env moves).Bounded F.root.keys.toFinset (F.root.width + 2) := by
  refine ⟨?_, ?_⟩
  · rintro x ⟨w, dfd, path, nofollow, sb, hstat, -, rfl⟩
    cases path with
    | null => cases hstat
    | wild => cases hstat
    | str s =>
      obtain ⟨loc, t, hat, rfl⟩ := F.statOf_eq_ok hstat
      exact List.mem_toFinset.mpr ((Tree.at?_keys hat).1 t.stat_mem)
  · rintro k ⟨w, fd, entries, e, hopen, hk⟩
    unfold env at hopen
    dsimp only at hopen
    split at hopen
    · cases hopen
    · next loc _ =>
      split at hopen
      · next dev ino nlink es hat =>
        obtain ⟨rfl, -⟩ := Prod.mk.inj (Except.ok.inj hopen)
        have hwidth : es.length ≤ F.root.width := (le_max_left ..).trans (Tree.at?_keys hat).2
        rw [List.length_append, List.length_map] at hk
        change k ≤ 2 + es.length at hk
        omega
      · cases hopen

end FileSystem

/-- A directory with a link to itself, and a link in a directory that leads to the one above. -/
def ring : FileSystem where
  root := .dir 1 1 3 [([97], .link ⟨.lnk, 1, 2, 1⟩ [slash]), ([98], .dir 1 3 2 [([99], .link ⟨.lnk, 1, 4, 1⟩ [dot, dot])])]
  dtype _ := .unknown
  openErr _ := none
  statErr _ := none
  chdirErr _ := none
  readErr _ := 0

/-- The logical walk of it. -/
theorem reads_end_ring : ∃ steps,
    session (ring.env false) [[slash]] FTS_LOGICAL none ⟨[], []⟩ (List.replicate 8 .read) = some steps ∧
      ∃ (nodes : List NodeId) (m : ℕ), readAnswers steps = nodes.map some ++ List.replicate m none ∧
        nodes.length ≤ returnsOf (ring.root.width + 2) ring.root.keys.toFinset.card 1 steps := by
  have hrun : (session (ring.env false) [[slash]] FTS_LOGICAL none ⟨[], []⟩ (List.replicate 8 .read)).any
      (fun steps => steps.all fun x => decide x.call.Plain) = true := by decide +kernel
  obtain ⟨steps, hs, hall⟩ := (Option.any_eq_true _ _).mp hrun
  rw [List.all_eq_true] at hall
  obtain ⟨st₀, t, st, ho, hc⟩ := session_calls (fun _ c => c.Plain) hs fun x hx => of_decide_eq_true (hall x hx)
  obtain ⟨nodes, m, hans, hle⟩ := reads_end (ring.bounded false) ho hc
  have hroots : ((some [[slash]] : Option (List CString)).getD []).length = 1 := rfl
  rw [hroots] at hle
  exact ⟨steps, hs, nodes, m, hans, hle⟩

end MuslBsd.Fts
