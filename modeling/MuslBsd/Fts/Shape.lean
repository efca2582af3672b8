import MuslBsd.Fts.Effects
import MuslBsd.Fts.Heap

/-! How the heap of a stream looks between two calls: the current path with its sibling lists, the
parent of the roots and the pending list, and nothing else. -/
namespace MuslBsd.Fts
open MuslBsd.Support

variable {ω : Type}

/-- What the shape of the heap depends on in a node. -/
def Ftsent.place (n : Ftsent) : NodeId × Option NodeId × Option NodeId × ℤ × ℕ × AccPath :=
  (n.addr, n.parent, n.link, n.level, n.path, n.accpath)

/-- The parent of the entries below the path `up`. -/
def parentAddr (r : Ftsent) : List Frame → NodeId
  | [] => r.addr
  | f :: _ => f.node.addr

/-- `n` is an entry below the path `up`, under the parent of the roots `r`, with a path buffer
at `base`. Its `fts_accpath` may be the name of a node on its path. -/
structure Below (base : ℕ) (r : Ftsent) (up : List Frame) (n : Ftsent) : Prop where
  parent : n.parent = some (parentAddr r up)
  level : n.level = up.length
  path : n.path = base
  acc : ∀ a, n.accpath = .name a → a ∈ (n :: pathNodes up).map Ftsent.addr

/-- A path of nodes, each with its later siblings. -/
def Path (base : ℕ) (r : Ftsent) : List Frame → Prop
  | [] => True
  | f :: up => Chained f.nodes ∧ (∀ n ∈ f.nodes, Below base r up n) ∧ Path base r up

/-- The node `fts_open` puts before the roots. -/
structure IsInit (n : Ftsent) : Prop where
  parent : n.parent = none
  level : n.level = rootLevel
  accpath : n.accpath = .null
  isw : n.isw = false
  info : n.info = .init ∨ n.info = .ns

/-- The parent of the roots and the current path: the walk is over, there are no roots, it stands
before the roots, or it is among them. -/
inductive Shape (base : ℕ) : Option Ftsent → List Frame → Prop
  | ended : Shape base none []
  | empty {n : Ftsent} (hn : IsInit n) (hl : n.link = none) : Shape base none [⟨n, []⟩]
  | fresh {n r : Ftsent} {rest : List Ftsent} (hn : IsInit n) (hne : rest ≠ [])
      (hc : Chained (n :: rest)) (hb : ∀ m ∈ rest, Below base r [] m)
      (hr : r.level = rootParentLevel) : Shape base (some r) [⟨n, rest⟩]
  | inside {r : Ftsent} {fs : List Frame} (hne : fs ≠ []) (hp : Path base r fs)
      (hr : r.level = rootParentLevel) : Shape base (some r) fs

theorem place_ext {n m : Ftsent} : n.place = m.place ↔ n.addr = m.addr ∧ n.parent = m.parent ∧
    n.link = m.link ∧ n.level = m.level ∧ n.path = m.path ∧ n.accpath = m.accpath := by
  simp only [Ftsent.place, Prod.mk.injEq]

section Congr

variable {base : ℕ} {r : Ftsent} {up : List Frame} {n q : Ftsent} {rest : List Ftsent}

theorem Below.congr (h : Below base r up n) (hq : q.place = n.place) : Below base r up q := by
  obtain ⟨ha, hp, -, hl, hb, hacc⟩ := place_ext.mp hq
  refine ⟨hp.trans h.parent, hl.trans h.level, hb.trans h.path, fun a h' => ?_⟩
  have := h.acc a (hacc ▸ h')
  rwa [List.map_cons, ha]

theorem Below.relinked (h : Below base r up n) (i : Option NodeId) :
    Below base r up { n with link := i } :=
  ⟨h.parent, h.level, h.path, h.acc⟩

/-- Entries depend on the path above them only by its addresses. -/
theorem Below.congr_up {up' : List Frame} (h : Below base r up n)
    (hu : (pathNodes up').map Ftsent.addr = (pathNodes up).map Ftsent.addr) :
    Below base r up' n := by
  refine ⟨?_, ?_, h.path, fun a h' => ?_⟩
  · rw [h.parent]
    cases up <;> cases up' <;> simp_all [parentAddr, pathNodes]
  · rw [h.level]
    have hlen : up'.length = up.length := by simpa [pathNodes] using congrArg List.length hu
    rw [hlen]
  · have := h.acc a h'
    rwa [List.map_cons, hu]

theorem Path.congr (h : Path base r (⟨n, rest⟩ :: up)) (hq : q.place = n.place) :
    Path base r (⟨q, rest⟩ :: up) := by
  obtain ⟨hc, hb, hu⟩ := h
  refine ⟨⟨?_, hc.2⟩, fun m hm => ?_, hu⟩
  · exact (place_ext.mp hq).2.2.1.trans hc.1
  · rcases List.mem_cons.mp hm with rfl | hm
    · exact (hb n (by simp [Frame.nodes])).congr hq
    · exact hb m (List.mem_cons_of_mem _ hm)

theorem Shape.congr {root : Option Ftsent} (h : Shape base root (⟨n, rest⟩ :: up))
    (hq : q.place = n.place) (hi : IsInit n → IsInit q) : Shape base root (⟨q, rest⟩ :: up) := by
  have hl := (place_ext.mp hq).2.2.1
  cases h with
  | empty hn hl' => exact .empty (hi hn) (hl.trans hl')
  | fresh hn hne hc hb hr => exact .fresh (hi hn) hne ⟨hl.trans hc.1, hc.2⟩ hb hr
  | inside hne hp hr => exact .inside (by simp) (hp.congr hq) hr

end Congr

section Adjust

variable {base base' : ℕ} {r : Ftsent} {up : List Frame} {n : Ftsent}

theorem pathNodes_adjust (up : List Frame) :
    (pathNodes (up.map (Frame.map (adjust base')))).map Ftsent.addr =
      (pathNodes up).map Ftsent.addr := by
  simp only [pathNodes, List.map_map]
  rfl

theorem Below.adjust (h : Below base r up n) :
    Below base' r (up.map (Frame.map (adjust base'))) (adjust base' n) := by
  refine ⟨?_, ?_, rfl, fun a ha => ?_⟩
  · change n.parent = _
    rw [h.parent]
    cases up <;> rfl
  · change n.level = _
    rw [h.level, List.length_map]
  · rw [List.map_cons, pathNodes_adjust]
    simp only [Fts.adjust] at ha
    split at ha
    · rename_i hn
      rw [hn, AccPath.name.injEq] at ha
      exact List.mem_cons.mpr (.inl ha.symm)
    · split at ha <;> cases ha

theorem Path.adjust (h : Path base r up) : Path base' r (up.map (Frame.map (adjust base'))) := by
  induction up with
  | nil => trivial
  | cons f up ih =>
    refine ⟨h.1.map (g := Fts.adjust base') fun _ => ⟨rfl, rfl⟩, fun n hn => ?_, ih h.2.2⟩
    obtain ⟨m, hm, rfl⟩ := List.mem_map.mp (show n ∈ f.nodes.map (Fts.adjust base') from hn)
    exact (h.2.1 m hm).adjust

theorem flatMap_nodes_adjust (fs : List Frame) :
    (fs.map (Frame.map (Fts.adjust base'))).flatMap Frame.nodes =
      (fs.flatMap Frame.nodes).map (Fts.adjust base') := by
  induction fs with
  | nil => rfl
  | cons f up ih => rw [List.map_cons, List.flatMap_cons, ih, List.flatMap_cons, List.map_append]; rfl

end Adjust

section Path

variable {base : ℕ} {r : Ftsent} {fs : List Frame}

theorem Path.level_nonneg (h : Path base r fs) : ∀ n ∈ fs.flatMap Frame.nodes, rootLevel ≤ n.level := by
  induction fs with
  | nil => simp
  | cons f up ih =>
    intro n hn
    rw [List.flatMap_cons, List.mem_append] at hn
    rcases hn with hn | hn
    · rw [(h.2.1 n hn).level]
      exact Int.natCast_nonneg _
    · exact ih h.2.2 n hn

theorem Path.trail (h : Path base r fs) : Trail r.addr (fs.flatMap Frame.nodes) := by
  induction fs with
  | nil => trivial
  | cons f up ih =>
    rw [List.flatMap_cons]
    have ht := Trail.of_chained h.1 fun n hn => (h.2.1 n hn).parent
    cases up with
    | nil => simpa [parentAddr] using ht
    | cons g up => exact Trail.append ht (ih h.2.2)

theorem pathNodes_subset {n : Ftsent} (hn : n ∈ pathNodes fs) : n ∈ fs.flatMap Frame.nodes := by
  obtain ⟨f, hf, rfl⟩ := List.mem_map.mp hn
  exact List.mem_flatMap.mpr ⟨f, hf, by simp [Frame.nodes]⟩

theorem Path.node (h : Path base r fs) : ∀ f up, fs = f :: up → Below base r up f.node := by
  rintro f up rfl
  exact h.2.1 _ (by simp [Frame.nodes])

theorem findAncestor_run (hr : r.level < rootLevel) (dev ino : ℕ) {st : St ω}
    (hroot : st.heap r.addr = some r) (h : Path base r fs)
    (hh : ∀ n ∈ pathNodes fs, st.heap n.addr = some n) : ∀ k, fs.length < k →
    Runs (findAncestor dev ino k (some (parentAddr r fs))) st
      ((sameDir dev ino (pathNodes fs)).map Ftsent.addr) st.heap := by
  induction fs with
  | nil =>
    rintro (_ | k) hk
    · simp at hk
    · refine .bind (runs_pure _) (.bind (runs_load hroot) ?_)
      rw [if_pos hr]
      exact runs_pure _
  | cons f up ih =>
    rintro (_ | k) hk
    · simp at hk
    · have hb := h.2.1 f.node (by simp [Frame.nodes])
      refine .bind (runs_pure _) (.bind (runs_load (hh f.node (by simp [pathNodes]))) ?_)
      rw [if_neg (by rw [hb.level]; exact not_lt.mpr (Int.natCast_nonneg _))]
      by_cases he : ino = f.node.ino ∧ dev = f.node.dev
      · rw [if_pos he]
        simp only [pathNodes, List.map_cons, sameDir, List.find?_cons, he, and_self, decide_true,
          Option.map_some]
        exact runs_pure _
      · rw [if_neg he, hb.parent]
        have := ih h.2.2 (fun n hn => hh n (List.mem_cons_of_mem _ hn)) k (by simpa using hk)
        simpa only [pathNodes, List.map_cons, sameDir, List.find?_cons, he, decide_false] using this

theorem ancestors_eq (hr : r.level < rootLevel) {heap : NodeId → Option Ftsent}
    (hroot : heap r.addr = some r) (h : Path base r fs)
    (hh : ∀ n ∈ pathNodes fs, heap n.addr = some n) : ∀ k, fs.length < k →
    ancestors heap k (some (parentAddr r fs)) = pathNodes fs := by
  induction fs with
  | nil =>
    rintro (_ | k) hk
    · simp at hk
    · simp [ancestors, parentAddr, hroot, hr, pathNodes]
  | cons f up ih =>
    rintro (_ | k) hk
    · simp at hk
    · have hb := h.2.1 f.node (by simp [Frame.nodes])
      have hl : ¬f.node.level < rootLevel := by
        rw [hb.level]
        exact not_lt.mpr (Int.natCast_nonneg _)
      rw [parentAddr, ancestors, hh f.node (by simp [pathNodes])]
      simp only [hl, if_false, hb.parent]
      rw [ih h.2.2 (fun n hn => hh n (List.mem_cons_of_mem _ hn)) k (by simpa using hk)]
      rfl

end Path

/-! ### The nodes of a stream -/

/-- An address that no node has, now or later. -/
def Dead (next : NodeId) (l : List Ftsent) (a : NodeId) : Prop := a < next ∧ ∀ n ∈ l, n.addr ≠ a

theorem fresh_of_subset {l l' : List Ftsent} {next : NodeId}
    (h : l'.map Ftsent.addr ⊆ l.map Ftsent.addr) (hf : ∀ n ∈ l, n.addr < next) :
    ∀ n ∈ l', n.addr < next := fun n hn => by
  obtain ⟨m, hm, he⟩ := List.mem_map.mp (h (List.mem_map_of_mem hn))
  exact he ▸ hf m hm

theorem Dead.of_subset {l l' : List Ftsent} {next : NodeId} {d : NodeId} (hd : Dead next l d)
    (h : l'.map Ftsent.addr ⊆ l.map Ftsent.addr) : Dead next l' d :=
  ⟨hd.1, fun n hn he => by
    obtain ⟨m, hm, he'⟩ := List.mem_map.mp (h (List.mem_map_of_mem hn))
    exact hd.2 m hm (he'.trans he)⟩

/-- The heap holds the nodes of the walk `z`. A pending list hangs below the current node or has
outlived its directory. -/
structure Holds (heap : NodeId → Option Ftsent) (base : ℕ) (next : NodeId) (z : Walk) : Prop where
  owns : Nodes heap z.nodes
  fresh : ∀ n ∈ z.nodes, n.addr < next
  shape : Shape base z.root z.frames
  chain : Chained z.child
  child : z.child = [] ∨ (∃ r, z.root = some r ∧ ∀ k ∈ z.child, Below base r z.frames k) ∨
    ∃ q, Dead next z.nodes q ∧ ∀ k ∈ z.child, k.parent = some q
  freed : ∀ a, z.freed = some a → Dead next z.nodes a ∧ z.child = []

theorem length_le_nodes (fs : List Frame) : fs.length ≤ (fs.flatMap Frame.nodes).length := by
  induction fs with
  | nil => simp
  | cons f up ih =>
    simp only [List.flatMap_cons, List.length_append, List.length_cons, Frame.nodes]
    omega

/-- The path `fs` and the parent `r` of the roots are among the nodes `others`. -/
structure Ground (others : List Ftsent) (base : ℕ) (next : NodeId) (r : Ftsent) (fs : List Frame) :
    Prop where
  path : Path base r fs
  root : r.level = rootParentLevel
  mem_root : r ∈ others
  mem : ∀ n ∈ pathNodes fs, n ∈ others
  len : fs.length ≤ next

/-- The stream `st` holds the walk `z`; `fts_cur` may be anything. -/
structure Ready (st : St ω) (z : Walk) : Prop where
  holds : Holds st.heap st.sys.path.addr st.sys.next z
  child : st.child = (z.freed <|> headAddr z.child)

/-- The stream `st` is the walk `z`. -/
structure Rep (st : St ω) (z : Walk) : Prop extends Ready st z where
  cur : st.cur = z.frames.head?.map fun f => f.node.addr

/-- All nodes but the current one, which has the siblings `rest` and the path `up`. -/
def otherNodes (z : Walk) (rest : List Ftsent) (up : List Frame) : List Ftsent :=
  rest ++ (up.flatMap Frame.nodes ++ (z.root.toList ++ (z.child ++ z.leaked)))

section Holds

variable {heap heap' : NodeId → Option Ftsent} {base : ℕ} {next : NodeId} {z : Walk}
  {n q r : Ftsent} {rest : List Ftsent} {up : List Frame}

theorem nodes_cons (hz : z.frames = ⟨n, rest⟩ :: up) : z.nodes = n :: otherNodes z rest up := by
  simp [Walk.nodes, otherNodes, hz, Frame.nodes]

theorem Holds.owns_cons {l : List Ftsent} {u : List Frame} (h : Holds heap base next z) (hz : z.frames = ⟨n, l⟩ :: u) :
    Nodes heap (n :: otherNodes z l u) := nodes_cons hz ▸ h.owns

/-- The node that replaces the current one stands where that one stood. -/
theorem Holds.setNode (h : Holds heap base next z) (hz : z.frames = ⟨n, rest⟩ :: up)
    (ha : q.addr = n.addr) (hs : Shape base z.root (⟨q, rest⟩ :: up))
    (ho : Nodes heap' (q :: otherNodes z rest up)) :
    Holds heap' base next { z with frames := ⟨q, rest⟩ :: up } := by
  have hn : Walk.nodes { z with frames := ⟨q, rest⟩ :: up } = q :: otherNodes z rest up :=
    nodes_cons rfl
  have hsub : (Walk.nodes { z with frames := ⟨q, rest⟩ :: up }).map Ftsent.addr ⊆
      z.nodes.map Ftsent.addr := by
    rw [hn, nodes_cons hz, List.map_cons, List.map_cons, ha]
    exact fun _ => id
  refine ⟨hn ▸ ho, fresh_of_subset hsub h.fresh, hs, h.chain, ?_, fun d hd =>
    ⟨(h.freed d hd).1.of_subset hsub, (h.freed d hd).2⟩⟩
  rcases h.child with h0 | ⟨r, hr, hb⟩ | ⟨d, hd, hp⟩
  · exact .inl h0
  · refine .inr (.inl ⟨r, hr, fun k hk => (hb k hk).congr_up ?_⟩)
    rw [hz]
    simp [pathNodes, ha]
  · exact .inr (.inr ⟨d, hd.of_subset hsub, hp⟩)

/-- Which of the cases of `Shape` it is shows on the current node. -/
theorem Shape.cases_cur {root : Option Ftsent} (h : Shape base root (⟨n, rest⟩ :: up)) :
    IsInit n ∧ up = [] ∨
      ∃ r, root = some r ∧ Path base r (⟨n, rest⟩ :: up) ∧ r.level = rootParentLevel := by
  cases h with
  | empty hn _ => exact .inl ⟨hn, rfl⟩
  | fresh hn _ _ _ _ => exact .inl ⟨hn, rfl⟩
  | inside _ hp hr => exact .inr ⟨_, rfl, hp, hr⟩

theorem Path.set (h : Path base r (⟨n, rest⟩ :: up)) (hl : q.link = n.link)
    (hb : Below base r up q) : Path base r (⟨q, rest⟩ :: up) := by
  obtain ⟨hc, hbs, hu⟩ := h
  refine ⟨⟨hl.trans hc.1, hc.2⟩, fun m hm => ?_, hu⟩
  rcases List.mem_cons.mp hm with rfl | hm
  · exact hb
  · exact hbs m (List.mem_cons_of_mem _ hm)

theorem Holds.ground (h : Holds heap base next z) (hz : z.frames = ⟨n, rest⟩ :: up)
    (hr : z.root = some r) (hp : Path base r (⟨n, rest⟩ :: up)) (hl : r.level = rootParentLevel) :
    Ground (otherNodes z rest up) base next r up where
  path := hp.2.2
  root := hl
  mem_root := by simp [otherNodes, hr]
  mem m hm := by simp [otherNodes, pathNodes_subset hm]
  len := by
    have hlen := h.owns.length_le h.fresh
    rw [nodes_cons hz] at hlen
    have := length_le_nodes up
    simp only [otherNodes, List.length_cons, List.length_append] at hlen
    omega

end Holds

theorem mem_nodes {z : Walk} {n : Ftsent} : n ∈ z.nodes ↔
    n ∈ z.frames.flatMap Frame.nodes ∨ z.root = some n ∨ n ∈ z.child ∨ n ∈ z.leaked := by
  simp only [Walk.nodes, List.mem_append, Option.mem_toList, or_assoc]

end MuslBsd.Fts
