import MuslBsd.Fts.Framing
import MuslBsd.Fts.Static.Tree

/-! `fts_sort`: the order of the nodes, and the room in the array that is kept between its calls. -/
namespace MuslBsd.Fts
open MuslBsd.Support Traced
open Faulting (Follows Sequential)

variable {ω : Type} {E : Env ω}

/-! ### The room in the array -/

/-- No more elements are recorded than `fts_array` has room for. -/
def Sys.Roomy (s : Sys ω) : Prop := s.nitems ≤ s.array.getD 0

/-- Room for `n` elements, and no more recorded than there is. -/
def Sys.RoomFor (s : Sys ω) (n : ℕ) : Prop :=
  ∃ room, s.array = some room ∧ n ≤ s.nitems ∧ s.nitems ≤ room

theorem arrayMembers_eq {n : ℕ} (h : arrayMembers n ≤ SIZE_MAX / 8) :
    arrayMembers n = n + 40 ∧ n + 40 < 2 ^ 31 := by
  unfold arrayMembers SIZE_MAX at *
  split at h
  · next hlt =>
    rw [if_pos hlt]
    exact ⟨rfl, hlt⟩
  · omega

theorem callReallocArray_granted {n : ℕ} {s : Sys ω} (h : val (callReallocArray E n) s = true) :
    n ≤ SIZE_MAX / 8 := by
  unfold callReallocArray val at h
  split at h
  · next hle => exact hle
  · simp at h

/-- The array has room for what is asked for, or it is gone. -/
theorem growArray_cases {n : ℕ} (hn : 0 < n) {s : Sys ω} (hs : s.Roomy) :
    val (growArray E n) s = true ∧ (out (growArray E n) s).RoomFor n ∨
    val (growArray E n) s = false ∧ (out (growArray E n) s).array = none ∧
      (out (growArray E n) s).nitems = 0 := by
  unfold growArray getSys
  rw [val_bind, out_bind, val_gets, out_gets, id]
  by_cases hlt : s.nitems < n
  · rw [if_pos hlt, val_bind, out_bind]
    cases hgrant : val (callReallocArray E (arrayMembers n)) s with
    | false => exact .inr ⟨rfl, rfl, rfl⟩
    | true =>
      have hmembers := arrayMembers_eq (callReallocArray_granted hgrant)
      have hcap : ftsLengthCap (n + 40) = n + 40 := by
        have hmax : n + 40 ≤ ftsLengthMax := by
          unfold ftsLengthMax
          omega
        exact Nat.min_eq_left hmax
      refine .inl ⟨rfl, arrayMembers n, rfl, ?_, ?_⟩
      · show n ≤ ftsLengthCap (n + 40)
        omega
      · show ftsLengthCap (n + 40) ≤ arrayMembers n
        omega
  · rw [if_neg hlt]
    refine .inl ⟨rfl, ?_⟩
    rw [out_pure]
    unfold Sys.Roomy at hs
    cases harray : s.array with
    | none =>
      rw [harray] at hs
      have hzero : s.nitems ≤ 0 := hs
      omega
    | some room =>
      rw [harray] at hs
      exact ⟨room, harray, by omega, hs⟩

theorem growArray_roomy {n : ℕ} {s : Sys ω} (hs : s.Roomy) : (out (growArray E n) s).Roomy := by
  rcases Nat.eq_zero_or_pos n with rfl | hn
  · have hno : ¬s.nitems < 0 := Nat.not_lt_zero _
    have hout : out (growArray E 0) s = s := by
      unfold growArray getSys
      rw [out_bind, val_gets, out_gets, id, if_neg hno, out_pure]
    rw [hout]
    exact hs
  · unfold Sys.Roomy
    rcases growArray_cases (E := E) hn hs with ⟨-, room, harray, -, hle⟩ | ⟨-, -, hnitems⟩
    · rw [harray]
      exact hle
    · rw [hnitems]
      exact Nat.zero_le _

/-! ### Streams that sort -/

/-- The streams that calls of `fts_sort` lead to, with anything between them that leaves `fts_array`
alone. -/
inductive Sorting (E : Env ω) : St ω → Prop
  | start {st : St ω} (array : st.sys.array = none) (nitems : st.sys.nitems = 0) : Sorting E st
  | other {st st' : St ω} (h : Sorting E st) (same : st'.sys.sortArray = st.sys.sortArray) :
    Sorting E st'
  | sort {st : St ω} (h : Sorting E st) (cmp : Compar) (head : Option NodeId) (nitems : ℕ) :
    Sorting E (ftsSort E cmp head nitems st).2.1

/-- The streams that `fts_open` and any calls lead to, also those where a call has faulted. -/
inductive Served (E : Env ω) : St ω → Prop
  | opens (w : ω) (argv : Option (List CString)) (options : ℕ) (compar : Option Compar) :
    Served E (ftsOpen E argv options compar (St.start w)).2.1
  | call {st : St ω} (h : Served E st) (c : Call) : Served E (ftsCall E c st).2.1
  | close {st : St ω} (h : Served E st) : Served E (ftsClose E st).2.1

theorem framing_sorting :
    Framing E fun st (_ : List Act) st' => Sorting E st → Sorting E st' where
  seq := ⟨fun _ h => h, fun h h' hs => h' (h hs)⟩
  other _ _ _ same h := h.other same
  sort cmp head nitems _ h := h.sort cmp head nitems

/-- Nothing but `fts_sort` changes the array of an open stream. -/
theorem Served.sorting {st : St ω} (h : Served E st) : Sorting E st := by
  induction h with
  | opens w argv options compar =>
    have hstart : Sorting E (St.start w) := .start rfl rfl
    exact framing_sorting.opens argv options compar _ hstart
  | call _ c ih => exact framing_sorting.call c _ ih
  | close _ ih => exact framing_sorting.close _ ih

theorem Sys.Roomy.of_sortArray {s s' : Sys ω} (hs : s.Roomy) (same : s'.sortArray = s.sortArray) :
    s'.Roomy := by
  have harray : s'.array = s.array := congrArg Prod.fst same
  have hnitems : s'.nitems = s.nitems := congrArg Prod.snd same
  unfold Sys.Roomy
  rw [harray, hnitems]
  exact hs

/-- What `fts_sort` does to the system is done by `growArray`. -/
theorem ftsSort_sys (cmp : Compar) (head : Option NodeId) (nitems : ℕ) (st : St ω) :
    (ftsSort E cmp head nitems st).2.1.sys = out (growArray E nitems) st.sys := by
  let R : St ω → List Act → St ω → Prop := fun st _ st' => st'.sys = st.sys
  have seq : Sequential R := ⟨fun _ => rfl, fun h h' => Eq.trans h' h⟩
  have hload : ∀ a, Follows R (load a) := by
    intro a st
    show (load a st).2.1.sys = st.sys
    unfold load
    split
    · rfl
    · rfl
  have hupdate : ∀ a g, Follows R (update a g) := by
    intro a g st
    show (update a g st).2.1.sys = st.sys
    unfold update
    split
    · rfl
    · rfl
  have hlist : ∀ k a, Follows R (listNodes k a) := by
    intro k
    induction k with
    | zero =>
      intro a
      cases a with
      | none => exact .pure seq _
      | some a => exact .stop seq _
    | succ k ih =>
      intro a
      cases a with
      | none => exact .pure seq _
      | some a => exact .bind seq (hload a) fun n => .bind seq (ih n.link) fun _ => .pure seq _
  have hrelink : ∀ l, Follows R (relinkNodes l) := by
    intro l
    induction l with
    | nil => exact .pure seq _
    | cons n l ih =>
      cases l with
      | nil => exact hupdate _ _
      | cons m l => exact .bind seq (hupdate _ _) fun _ => ih
  have hrest : ∀ grown : Bool, Follows R (if grown = true then do
      let k ← listFuel
      let ns ← listNodes k head
      let sorted := sortedBy E.qsort cmp Ftsent.seen ns
      relinkNodes sorted
      pure (sorted.head?.map Ftsent.addr)
    else pure head) := by
    intro grown
    exact .ite (fun _ => .bind seq (.gets seq _) fun k => .bind seq (hlist k head) fun _ =>
      .bind seq (hrelink _) fun _ => .pure seq _) fun _ => .pure seq _
  unfold ftsSort
  rw [Faulting.bind_ok (show onSys (growArray E nitems) st = (.ok (val (growArray E nitems) st.sys),
    { st with sys := out (growArray E nitems) st.sys }, acts (growArray E nitems) st.sys) from rfl)]
  exact hrest _ _

theorem Sorting.roomy {st : St ω} (h : Sorting E st) : st.sys.Roomy := by
  induction h with
  | start array nitems =>
    unfold Sys.Roomy
    rw [nitems]
    exact Nat.zero_le _
  | other _ same ih => exact ih.of_sortArray same
  | sort _ cmp head nitems ih =>
    rw [ftsSort_sys]
    exact growArray_roomy ih

/-! ### The order of the nodes -/

/-- The comparison function orders the entries `l`: what `qsort` asks of it. -/
def Orders (cmp : Compar) (l : List Ftsent) : Prop :=
  (∀ a ∈ l, ∀ b ∈ l, cmp a.seen b.seen ≤ 0 ∨ cmp b.seen a.seen ≤ 0) ∧
  ∀ a ∈ l, ∀ b ∈ l, ∀ c ∈ l, cmp a.seen b.seen ≤ 0 → cmp b.seen c.seen ≤ 0 →
    cmp a.seen c.seen ≤ 0

theorem sortedBy_sorted (q : Qsort) {cmp : Compar} {l : List Ftsent} (h : Orders cmp l) :
    (sortedBy q cmp Ftsent.seen l).Pairwise fun a b => cmp a.seen b.seen ≤ 0 := by
  obtain ⟨htotal, htrans⟩ := h
  have hget : ∀ {i : ℕ}, i < l.length → ∃ a ∈ l, l[i]? = some a := by
    intro i hi
    exact ⟨l[i], List.getElem_mem hi, List.getElem?_eq_getElem hi⟩
  unfold sortedBy
  refine List.Pairwise.filterMap _ ?_ (q.sorted l.length _ ?_ ?_)
  · intro i j hij a ha b hb
    rw [ha, hb] at hij
    exact hij
  · intro i hi j hj
    obtain ⟨a, ha, hia⟩ := hget hi
    obtain ⟨b, hb, hjb⟩ := hget hj
    rw [hia, hjb]
    exact htotal a ha b hb
  · intro i hi j hj k hk
    obtain ⟨a, ha, hia⟩ := hget hi
    obtain ⟨b, hb, hjb⟩ := hget hj
    obtain ⟨c, hc, hkc⟩ := hget hk
    rw [hia, hjb, hkc]
    exact htrans a ha b hb c hc

theorem length_le_of_fresh {st : St ω} {l others : List Ftsent} (ho : Nodes st.heap (l ++ others))
    (hfresh : ∀ n ∈ l, n.addr < st.sys.next) : l.length ≤ st.sys.next := by
  have hnodup : (l.map Ftsent.addr).Nodup := by
    have hall := ho.nodup
    rw [List.map_append] at hall
    exact hall.of_append_left
  have hsub : l.map Ftsent.addr ⊆ List.range st.sys.next := by
    intro a ha
    obtain ⟨n, hn, rfl⟩ := List.mem_map.mp ha
    exact List.mem_range.mpr (hfresh n hn)
  have hlen := (hnodup.subperm hsub).length_le
  rw [List.length_map, List.length_range] at hlen
  exact hlen

theorem growArray_acts {n : ℕ} : Writes (· ≠ Act.crashes) (growArray E n) := by
  have hcall : Writes (· ≠ Act.crashes) (callReallocArray E (arrayMembers n)) := by
    intro s e he
    unfold callReallocArray acts at he
    split at he
    · rw [List.mem_singleton.mp he]
      exact Act.noConfusion
    · rw [List.mem_singleton.mp he]
      exact Act.noConfusion
  exact .bind (.gets _) fun _ => .ite (.bind hcall fun _ =>
    .ite (.bind (.modify _) fun _ => .pure _) (.bind (.modify _) fun _ => .pure _)) (.pure _)

/-- Two nodes in the order of `fts_open` or `fts_build`: `b`, and `a` behind it. -/
def twoNodes : List Ftsent := [{ newNode 0 0 [98] with link := some 1 }, newNode 1 0 [97]]

/-- A stream that has allocated them. -/
def twoStream : St Proc :=
  { St.start (⟨[], []⟩ : Proc) with
    sys := { (St.start (⟨[], []⟩ : Proc)).sys with next := 2 }
    heap := fun a => twoNodes[a]? }

def byName : Compar := fun a b => if a.name ≤ b.name then -1 else 1

/-- An empty directory, and memory enough. -/
def emptyDirectory : FileSystem :=
  ⟨.dir 1 1 2 [], fun _ => .dir, fun _ => none, fun _ => none, fun _ => none, fun _ => 0⟩

end MuslBsd.Fts
