import Mathlib.Data.List.Nodup
import MuslBsd.Fts.Effects

/-! The cycle table: its entries as a list, and what pushing and popping a directory does to it. -/
namespace MuslBsd.Fts
open MuslBsd.Support Traced

variable {ω : Type} {E : Env ω}

/-- The entry that a directory gets. -/
def Ftsent.entry (n : Ftsent) : CycleEntry := ⟨n.dev, n.ino, n.addr⟩

def CycleEntry.key (e : CycleEntry) : ℕ × ℕ := (e.dev, e.ino)

@[simp] theorem Ftsent.entry_key (n : Ftsent) : n.entry.key = n.key := rfl
@[simp] theorem Ftsent.entry_ent (n : Ftsent) : n.entry.ent = n.addr := rfl

namespace CycleState

/-- The entries of the table are `es`, one for a key at most, each in the bucket of its key. -/
structure Lists (cs : CycleState) (es : List CycleEntry) : Prop where
  keys : (es.map CycleEntry.key).Nodup
  empty : cs.buckets = none → es = []
  bucket : ∀ b, cs.buckets = some b → ∀ i, ((b i).map CycleEntry.key).Nodup ∧
    ∀ e, e ∈ b i ↔ e ∈ es ∧ cycleHash e.dev e.ino cs.nbuckets = i

/-- The comparison of the loops over a bucket. -/
def keyed (dev ino : ℕ) (e : CycleEntry) : Bool := e.dev == dev && e.ino == ino

/-- The table after `cycle_remove`. -/
def remove (cs : CycleState) (dev ino : ℕ) : CycleState :=
  match cs.buckets with
  | none => cs
  | some b =>
    let idx := cycleHash dev ino cs.nbuckets
    { cs with buckets := some fun i => if i = idx then (b idx).eraseP (keyed dev ino) else b i }

/-- The table, with buckets `b`, after `cycle_insert` of a new key. -/
def insert (cs : CycleState) (b : ℕ → List CycleEntry) (e : CycleEntry) : CycleState :=
  let idx := cycleHash e.dev e.ino cs.nbuckets
  { cs with buckets := some fun i => if i = idx then e :: b idx else b i }

/-- The table after `fts_cycle_pop`. -/
def pop (cs : CycleState) (n : Ftsent) : CycleState :=
  if n.info.pops then cs.remove n.dev n.ino else cs

variable {cs : CycleState} {es : List CycleEntry} {dev ino : ℕ}

theorem lists_none : Lists ⟨none, 0⟩ [] := ⟨by simp, fun _ => rfl, by simp⟩

theorem lists_init (k : ℕ) : Lists ⟨some fun _ => [], k⟩ [] := by
  refine ⟨by simp, by simp, ?_⟩
  rintro b hb i
  obtain rfl := Option.some.inj hb
  simp

theorem keyed_iff {e : CycleEntry} : keyed dev ino e = true ↔ e.key = (dev, ino) := by
  simp [keyed, CycleEntry.key]

theorem Lists.lookup_eq_some {a : NodeId} (h : cs.Lists es) :
    cycleLookup cs dev ino = some a ↔ ∃ e ∈ es, e.key = (dev, ino) ∧ e.ent = a := by
  unfold cycleLookup
  cases hb : cs.buckets with
  | none => simp [h.empty hb]
  | some b =>
    change Option.map _ (List.find? (keyed dev ino) _) = _ ↔ _
    obtain ⟨hnd, hmem⟩ := h.bucket b hb (cycleHash dev ino cs.nbuckets)
    rw [Option.map_eq_some_iff]
    refine ⟨?_, ?_⟩
    · rintro ⟨e, hf, rfl⟩
      exact ⟨e, ((hmem e).mp (List.mem_of_find?_eq_some hf)).1,
        keyed_iff.mp (List.find?_some hf), rfl⟩
    · rintro ⟨e, he, hk, rfl⟩
      have hin : e ∈ b (cycleHash dev ino cs.nbuckets) := (hmem e).mpr ⟨he, by
        rw [show e.dev = dev from congrArg Prod.fst hk, show e.ino = ino from congrArg Prod.snd hk]⟩
      obtain ⟨e', hf⟩ := Option.isSome_iff_exists.mp (List.find?_isSome.mpr ⟨e, hin, keyed_iff.mpr hk⟩)
      have he' := List.mem_of_find?_eq_some hf
      have hk' : e'.key = (dev, ino) := keyed_iff.mp (List.find?_some hf)
      obtain rfl : e' = e := List.inj_on_of_nodup_map hnd he' hin (hk'.trans hk.symm)
      exact ⟨e', hf, rfl⟩

theorem Lists.lookup_eq_none (h : cs.Lists es) :
    cycleLookup cs dev ino = none ↔ ∀ e ∈ es, e.key ≠ (dev, ino) := by
  rw [← not_iff_not, ← ne_eq, Option.ne_none_iff_exists']
  push Not
  refine ⟨?_, ?_⟩
  · rintro ⟨a, ha⟩
    obtain ⟨e, he, hk, -⟩ := h.lookup_eq_some.mp ha
    exact ⟨e, he, hk⟩
  · rintro ⟨e, he, hk⟩
    exact ⟨e.ent, h.lookup_eq_some.mpr ⟨e, he, hk, rfl⟩⟩

theorem eraseP_same {l : List CycleEntry} (h : (l.map CycleEntry.key).Nodup) :
    l.eraseP (keyed dev ino) = l.filter fun e => e.key ≠ (dev, ino) := by
  induction l with
  | nil => rfl
  | cons e l ih =>
    rw [List.map_cons, List.nodup_cons] at h
    by_cases hk : e.key = (dev, ino)
    · rw [List.eraseP_cons_of_pos (keyed_iff.mpr hk), List.filter_cons_of_neg (by simpa using hk)]
      refine (List.filter_eq_self.mpr fun x hx => ?_).symm
      have : x.key ≠ (dev, ino) := fun hxk => h.1 (hk.trans hxk.symm ▸ List.mem_map_of_mem hx)
      simpa using this
    · rw [List.eraseP_cons_of_neg (fun hc => hk (keyed_iff.mp hc)),
        List.filter_cons_of_pos (by simpa using hk), ih h.2]

theorem Lists.remove (h : cs.Lists es) (dev ino : ℕ) :
    (cs.remove dev ino).Lists (es.filter fun e => e.key ≠ (dev, ino)) := by
  have hkeys : ((es.filter fun e => e.key ≠ (dev, ino)).map CycleEntry.key).Nodup :=
    h.keys.sublist (List.filter_sublist.map CycleEntry.key)
  unfold CycleState.remove
  cases hb : cs.buckets with
  | none =>
    refine ⟨hkeys, fun _ => by simp [h.empty hb], fun b hb' => ?_⟩
    rw [hb] at hb'
    cases hb'
  | some b =>
    refine ⟨hkeys, by simp, ?_⟩
    rintro b' hb' i
    obtain rfl := Option.some.inj hb'
    obtain ⟨hnd, hmem⟩ := h.bucket b hb i
    dsimp only
    by_cases hi : i = cycleHash dev ino cs.nbuckets
    · subst hi
      rw [if_pos rfl, eraseP_same hnd]
      refine ⟨hnd.sublist (List.filter_sublist.map _), fun e => ?_⟩
      simp only [List.mem_filter, hmem, and_right_comm]
    · rw [if_neg hi]
      refine ⟨hnd, fun e => ?_⟩
      rw [hmem e, List.mem_filter, and_right_comm]
      refine ⟨fun he => ⟨he, ?_⟩, And.left⟩
      simp only [ne_eq, decide_not, Bool.not_eq_true', decide_eq_false_iff_not]
      intro hk
      refine hi ?_
      rw [← he.2, show e.dev = dev from congrArg Prod.fst hk,
        show e.ino = ino from congrArg Prod.snd hk]

/-- An entry with a new key goes to the front of its bucket. -/
theorem Lists.insert (h : cs.Lists es) {e : CycleEntry} {b : ℕ → List CycleEntry}
    (hb : cs.buckets = some b) (he : e.key ∉ es.map CycleEntry.key) :
    (cs.insert b e).Lists (e :: es) := by
  refine ⟨List.nodup_cons.mpr ⟨he, h.keys⟩, by simp [CycleState.insert], ?_⟩
  rintro b' hb' i
  obtain rfl := Option.some.inj hb'
  obtain ⟨hnd, hmem⟩ := h.bucket b hb i
  dsimp only
  by_cases hi : i = cycleHash e.dev e.ino cs.nbuckets
  · subst hi
    rw [if_pos rfl]
    refine ⟨List.nodup_cons.mpr ⟨fun hk => he ?_, hnd⟩, fun x => ?_⟩
    · obtain ⟨x, hx, hk⟩ := List.mem_map.mp hk
      exact hk ▸ List.mem_map_of_mem ((hmem x).mp hx).1
    · rw [List.mem_cons, hmem x, List.mem_cons]
      refine ⟨?_, ?_⟩
      · rintro (rfl | hx)
        · exact ⟨.inl rfl, rfl⟩
        · exact ⟨.inr hx.1, hx.2⟩
      · rintro ⟨rfl | hx, hh⟩
        · exact .inl rfl
        · exact .inr ⟨hx, hh⟩
  · rw [if_neg hi]
    refine ⟨hnd, fun x => ?_⟩
    rw [hmem x, List.mem_cons]
    refine ⟨fun hx => ⟨.inr hx.1, hx.2⟩, ?_⟩
    rintro ⟨rfl | hx, hh⟩
    · exact absurd hh.symm hi
    · exact ⟨hx, hh⟩

theorem Lists.pop (h : cs.Lists es) (n : Ftsent) :
    (cs.pop n).Lists (if n.info.pops then es.filter (fun e => e.key ≠ n.key) else es) := by
  unfold CycleState.pop
  split
  · exact h.remove n.dev n.ino
  · exact h

end CycleState

/-- `fts_cycle_pop` changes the table and nothing else. -/
theorem out_cyclePop (n : Ftsent) (s : Sys ω) :
    out (ftsCyclePop n) s = { s with cycles := s.cycles.pop n } := by
  unfold ftsCyclePop CycleState.pop
  split
  · unfold CycleState.remove
    cases hb : s.cycles.buckets with
    | none => simp [cycleRemove, hb]
    | some b =>
      simp only [cycleRemove, out_modify, hb]
      rfl
  · rfl

/-- What `cycle_insert` starts from: a table with the entries there were, or none and no memory. -/
theorem cycleInit_lists {s : Sys ω} {es : List CycleEntry} (h : s.cycles.Lists es) :
    Does (fun _ => True) (if s.cycles.buckets.isNone then cycleInit E else pure false) s
      fun failed s' => s'.cycles.Lists es ∧ (failed = false → s'.cycles.buckets ≠ none) := by
  refine .ite (fun hn => ?_) fun hn => .pure ⟨h, fun _ => by simpa using hn⟩
  obtain rfl := h.empty (by simpa using hn)
  refine .bind (p := fun _ _ => True) ⟨fun _ _ => trivial, trivial⟩ fun b s' _ => .ite ?_ ?_
  · exact fun _ => .modify (.pure ⟨CycleState.lists_init 64, by simp⟩)
  · exact fun _ => .modify (.pure ⟨CycleState.lists_none, by simp⟩)

theorem cycleInsert_lists {n : Ftsent} {s : Sys ω} {es : List CycleEntry} (h : s.cycles.Lists es) :
    Does (fun _ => True) (cycleInsert E n.dev n.ino n.addr) s fun failed s' =>
      s'.cycles.Lists (if failed ∨ n.key ∈ es.map CycleEntry.key then es else n.entry :: es) := by
  refine .gets (.bind (cycleInit_lists h) ?_)
  rintro failed s₁ ⟨hl, hb⟩
  refine .ite (fun hf => .pure (by simpa using hl)) fun hf => .gets (.ite (fun hany => ?_) fun hany => ?_)
  · obtain ⟨b, hb⟩ := Option.ne_none_iff_exists'.mp (hb (by simpa using hf))
    rw [hb, Option.getD_some, List.any_eq_true] at hany
    obtain ⟨e, he, hk⟩ := hany
    have hmem := ((hl.bucket b hb _).2 e).mp he
    refine .pure ?_
    rw [if_pos (.inr (List.mem_map.mpr ⟨e, hmem.1, CycleState.keyed_iff.mp hk⟩))]
    exact hl
  · obtain ⟨b, hb⟩ := Option.ne_none_iff_exists'.mp (hb (by simpa using hf))
    rw [hb, Option.getD_some] at hany ⊢
    have hnew : n.key ∉ es.map CycleEntry.key := fun hk => by
      obtain ⟨e, he, hk⟩ := List.mem_map.mp hk
      refine hany (List.any_eq_true.mpr ⟨e, ((hl.bucket b hb _).2 e).mpr ⟨he, ?_⟩,
        CycleState.keyed_iff.mpr hk⟩)
      rw [show e.dev = n.dev from congrArg Prod.fst hk, show e.ino = n.ino from congrArg Prod.snd hk]
    refine .bind (p := fun _ s₂ => s₂.cycles = s₁.cycles)
      ⟨fun _ _ => trivial, congrArg Sys.cycles (keeps_callMalloc (E := E) s₁)⟩ ?_
    intro ok s₂ hc
    refine .ite (fun _ => .modify (.pure ?_)) fun _ => .pure (by simpa [hc] using hl)
    simp only [Bool.false_eq_true, hnew, or_self, if_false]
    rw [hc]
    exact hl.insert (e := n.entry) hb hnew

/-- `fts_cycle_push` of a directory fails and leaves the table as it was, or the table has an entry
with its key, which is its own if there was none. -/
theorem cyclePush_lists {n : Ftsent} (hn : n.info = .d) {s : Sys ω} {es : List CycleEntry}
    (h : s.cycles.Lists es) :
    (out (ftsCyclePush E n) s).cycles.Lists
      (if val (ftsCyclePush E n) s = true ∨ n.key ∈ es.map CycleEntry.key then es
        else n.entry :: es) := by
  suffices Does (fun _ => True) (ftsCyclePush E n) s fun failed s' =>
      s'.cycles.Lists (if failed ∨ n.key ∈ es.map CycleEntry.key then es else n.entry :: es) from this.2
  refine .ite (fun h => absurd hn h) fun _ => .bind (cycleInsert_lists h) fun failed s' hl => ?_
  cases failed with
  | true => exact .modify (.pure hl)
  | false => exact .pure hl

end MuslBsd.Fts
