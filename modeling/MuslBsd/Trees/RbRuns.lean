import MuslBsd.Support.Sessions
import MuslBsd.Trees.RbInsert
import MuslBsd.Trees.RbRemove

/-! Whole runs on a red-black tree of `tree.h`: it is the ordered set of its elements, and no call
takes more than logarithmic time. -/
namespace MuslBsd.Trees
open MuslBsd.Support BinaryTree Rb

variable {α : Type*} [DecidableEq α] {cmp : α → α → ℤ} {s s' : Rb α} {l l' l₁ l₂ : List α} {a e : α} {k : ℕ}

/-- The calls of a program on a tree. -/
inductive TreeCall (α : Type*) where
  | insert (elm : α)
  | remove (elm : α)
  | find (elm : α)
  | nfind (elm : α)
  | next (elm : α)
  | prev (elm : α)
  | min
  | max

namespace TreeCall

/-- What a call does to the increasing list of the elements. Only an element of the tree may be
removed, or asked for its neighbours. -/
def spec (cmp : α → α → ℤ) : TreeCall α → List α → Option (List α × Option α)
  | .insert e, l =>
    match l.find? (cmp e · = 0) with
    | some a => some (l, some a)
    | none => some (insertAt cmp e l, none)
  | .remove e, l => if e ∈ l then some (l.erase e, some e) else none
  | .find e, l => some (l, l.find? (cmp e · = 0))
  | .nfind e, l => some (l, l.find? (cmp e · ≤ 0))
  | .next e, l => if e ∈ l then some (l, l.find? (cmp e · < 0)) else none
  | .prev e, l => if e ∈ l then some (l, l.reverse.find? (0 < cmp e ·)) else none
  | .min, l => some (l, l.head?)
  | .max, l => some (l, l.getLast?)

/-- The call in memory, with loops of less than `k` rounds. -/
def run (cmp : α → α → ℤ) (k : ℕ) : TreeCall α → Rb α → Option (Rb α × Option α)
  | .insert e, s => s.insert cmp k e
  | .remove e, s => (s.remove k e).map fun r => (r.1, some r.2)
  | .find e, s => (s.find cmp k e).map fun r => (s, r)
  | .nfind e, s => (s.nfind cmp k e).map fun r => (s, r)
  | .next e, s => (s.next k e).map fun r => (s, r)
  | .prev e, s => (s.prev k e).map fun r => (s, r)
  | .min, s => (s.minmax (-1) k).map fun r => (s, r)
  | .max, s => (s.minmax 1 k).map fun r => (s, r)

end TreeCall

namespace Rb

/-- The neighbours of an element. -/
theorem step_sorted (h : s.Sorted cmp (l₁ ++ a :: l₂)) (hk : rounds (l₁ ++ a :: l₂).length < k) :
    s.next k a = some l₂.head? ∧ s.prev k a = some l₁.getLast? := by
  obtain ⟨⟨t, n, ht, hrb, hl⟩, hinc⟩ := h
  rw [← hl] at hk
  have hheight := (height_le_rounds hrb).trans_lt hk
  have hmem : a ∈ elements t := by
    rw [hl]
    simp
  obtain ⟨c, x, y, ks, rfl⟩ := exists_position hmem
  have hsplit : elements (plug (branch .left (c, a) x y) ks) = ((before ks).map Prod.snd ++ elements x) ++
      a :: (elements y ++ (after ks).map Prod.snd) := by
    rw [elements_plug, elements_branch]
    simp
  have hnodup := ht.nodup
  rw [hsplit] at hnodup hl
  have ha : a ∉ (before ks).map Prod.snd ++ elements x := fun hmem =>
    (List.nodup_append'.mp hnodup).2.2 hmem (List.mem_cons_self ..)
  have ha' : a ∉ elements y ++ (after ks).map Prod.snd :=
    (List.nodup_cons.mp (List.nodup_append'.mp hnodup).2.1).1
  obtain ⟨hl₁, -, hl₂⟩ := (List.append_cons_inj_of_notMem ha ha').mp hl
  constructor
  · have hright : s.Holds (plug (branch .right (c, a) y x) ks) := ht
    rw [next, step_eq hright hheight, ← hl₂, List.head?_append]
    rfl
  · rw [prev, step_eq ht hheight, ← hl₁, List.getLast?_append]
    rfl

end Rb

namespace TreeCall

theorem spec_length {c : TreeCall α} {r : Option α} (h : c.spec cmp l = some (l', r)) :
    l'.length ≤ l.length + 1 := by
  have herase : ∀ e, (l.erase e).length ≤ l.length := fun e => (List.erase_sublist ..).length_le
  cases c with
  | insert e =>
    rw [spec] at h
    split at h
    · cases h
      omega
    · cases h
      rw [insertAt, List.orderedInsert_length]
  | remove e =>
    obtain ⟨-, h⟩ := Option.ite_none_right_eq_some.mp h
    cases h
    have hlen := herase e
    omega
  | next e | prev e =>
    obtain ⟨-, h⟩ := Option.ite_none_right_eq_some.mp h
    cases h
    omega
  | find e | nfind e | min | max =>
    cases h
    omega

/-- Each call does to the tree what it does to the list. -/
theorem run_spec (hcmp : ∀ l, Consistent cmp l) (h : s.Sorted cmp l) (hk : rounds l.length < k)
    (c : TreeCall α) {r : Option α} (hc : c.spec cmp l = some (l', r)) :
    ∃ s', c.run cmp k s = some (s', r) ∧ s'.Sorted cmp l' := by
  cases c with
  | insert e =>
    rw [spec] at hc
    split at hc
    · rename_i a hold
      cases hc
      exact ⟨s, insert_old hcmp h hk hold, h⟩
    · rename_i hnew
      cases hc
      exact insert_new hcmp h hk hnew
  | remove e =>
    obtain ⟨he, hc⟩ := Option.ite_none_right_eq_some.mp hc
    cases hc
    obtain ⟨s', hs', h'⟩ := remove_sorted h hk he
    exact ⟨s', by rw [run, hs']; rfl, h'⟩
  | find e =>
    cases hc
    exact ⟨s, by rw [run, find_sorted hcmp h hk]; rfl, h⟩
  | nfind e =>
    cases hc
    exact ⟨s, by rw [run, nfind_sorted hcmp h hk]; rfl, h⟩
  | next e =>
    obtain ⟨he, hc⟩ := Option.ite_none_right_eq_some.mp hc
    cases hc
    obtain ⟨l₁, l₂, rfl⟩ := List.append_of_mem he
    rw [(neighbours_eq hcmp h.increasing).1]
    exact ⟨s, by rw [run, (step_sorted h hk).1]; rfl, h⟩
  | prev e =>
    obtain ⟨he, hc⟩ := Option.ite_none_right_eq_some.mp hc
    cases hc
    obtain ⟨l₁, l₂, rfl⟩ := List.append_of_mem he
    rw [(neighbours_eq hcmp h.increasing).2]
    exact ⟨s, by rw [run, (step_sorted h hk).2]; rfl, h⟩
  | min =>
    cases hc
    exact ⟨s, by rw [run, minmax_sorted h hk]; rfl, h⟩
  | max =>
    cases hc
    exact ⟨s, by rw [run, minmax_sorted h hk]; rfl, h⟩

end TreeCall

omit [DecidableEq α] in
theorem Rb.sorted_init (cmp : α → α → ℤ) (s : Rb α) : s.init.Sorted cmp [] where
  tree := ⟨.nil, 0, ⟨rfl, trivial, List.nodup_nil⟩, .nil, rfl⟩
  increasing := List.Pairwise.nil

/-- A list in the direction of a loop. -/
def along (d : Side) (l : List α) : List α :=
  match d with
  | .left => l.reverse
  | .right => l

omit [DecidableEq α] in
theorem mem_along {d : Side} : a ∈ along d l ↔ a ∈ l := by
  cases d with
  | left => exact List.mem_reverse
  | right => rfl

omit [DecidableEq α] in
theorem length_along {d : Side} : (along d l).length = l.length := by
  cases d with
  | left => exact List.length_reverse
  | right => rfl

theorem erase_along {d : Side} (h : (along d (l₁ ++ a :: l₂)).Nodup) :
    (along d (l₁ ++ a :: l₂)).erase a = along d (l₁ ++ l₂) := by
  cases d with
  | left =>
    have hl : along .left (l₁ ++ a :: l₂) = l₂.reverse ++ a :: l₁.reverse := by
      simp [along]
    rw [hl] at h ⊢
    rw [erase_middle h, along, List.reverse_append]
  | right => exact erase_middle h

namespace Rb

/-- Memory outside of the tree does not matter. -/
theorem Sorted.store (h : s.Sorted cmp l) (ha : a ∉ l) (e : RbEntry α) : (s.store a e).Sorted cmp l := by
  obtain ⟨⟨t, n, ht, hrb, rfl⟩, hinc⟩ := h
  refine ⟨⟨t, n, ⟨ht.root, ht.stored.congr fun b hb => ?_, ht.nodup⟩, hrb, rfl⟩, hinc⟩
  exact store_entry_of_ne fun heq => ha (heq ▸ hb)

theorem step_along {d : Side} (h : s.Sorted cmp (along d (l₁ ++ a :: l₂)))
    (hk : rounds (l₁ ++ a :: l₂).length < k) : s.step d k a = some l₂.head? := by
  cases d with
  | left =>
    have hl : along .left (l₁ ++ a :: l₂) = l₂.reverse ++ a :: l₁.reverse := by
      simp [along]
    rw [hl] at h
    have hlen : rounds (l₂.reverse ++ a :: l₁.reverse).length < k := by
      have heq : (l₂.reverse ++ a :: l₁.reverse).length = (l₁ ++ a :: l₂).length := by
        simp only [List.length_append, List.length_reverse, List.length_cons]
        omega
      rwa [heq]
    have hprev := (step_sorted h hlen).2
    rwa [List.getLast?_reverse] at hprev
  | right => exact (step_sorted h hk).1

/-- A loop that removes elements as it goes visits all of them once, in order, and never looks again
at one that was removed. -/
theorem forEachSafeFrom_sweep (hcmp : ∀ l, Consistent cmp l) {d : Side} {p : α → Bool}
    {junk : α → RbEntry α} {n : ℕ} (h : s.Sorted cmp (along d (l₁ ++ l₂)))
    (hk : rounds (l₁ ++ l₂).length < k) (hn : l₂.length ≤ n) :
    ∃ s', s.forEachSafeFrom d k (sweep k p junk) n l₂.head? = some (s', l₂) ∧
      s'.Sorted cmp (along d (l₁ ++ l₂.filter fun x => !p x)) := by
  induction l₂ generalizing s l₁ n with
  | nil =>
    refine ⟨s, ?_, h⟩
    cases n <;> rfl
  | cons x l₂ ih =>
    rw [List.length_cons] at hn
    obtain ⟨n, rfl⟩ := Nat.exists_eq_add_one_of_ne_zero (n := n) (by omega)
    have hstep := step_along h hk
    have hmem : x ∈ along d (l₁ ++ x :: l₂) := mem_along.mpr (by simp)
    have hlog : rounds (along d (l₁ ++ x :: l₂)).length < k := by rwa [length_along]
    cases hp : p x with
    | true =>
      have hnodup := h.increasing.nodup hcmp
      obtain ⟨s₁, hs₁, h₁⟩ := remove_sorted h hlog hmem
      rw [erase_along hnodup] at h₁
      have hx : x ∉ along d (l₁ ++ l₂) := by
        rw [← erase_along hnodup]
        exact hnodup.not_mem_erase
      obtain ⟨s₂, hs₂, h₂⟩ := ih (n := n) (h₁.store hx (junk x))
        ((rounds_mono (by simp)).trans_lt hk) (by omega)
      refine ⟨s₂, ?_, ?_⟩
      · have hbody : s.sweep k p junk x = some (s₁.store x (junk x)) := by
          rw [sweep, if_pos hp, hs₁]
          rfl
        show s.forEachSafeFrom d k (sweep k p junk) (n + 1) (some x) = _
        rw [forEachSafeFrom, hstep]
        show (s.sweep k p junk x).bind _ = _
        rw [hbody]
        show (forEachSafeFrom d k (sweep k p junk) n (s₁.store x (junk x)) l₂.head?).bind _ = _
        rw [hs₂]
        rfl
      · rwa [List.filter_cons_of_neg (by simp [hp])]
    | false =>
      have hl : l₁ ++ x :: l₂ = (l₁ ++ [x]) ++ l₂ := by simp
      rw [hl] at h hk
      obtain ⟨s₂, hs₂, h₂⟩ := ih (n := n) h hk (by omega)
      refine ⟨s₂, ?_, ?_⟩
      · have hbody : s.sweep k p junk x = some s := if_neg (by simp [hp])
        show s.forEachSafeFrom d k (sweep k p junk) (n + 1) (some x) = _
        rw [forEachSafeFrom, hstep]
        show (s.sweep k p junk x).bind _ = _
        rw [hbody]
        show (forEachSafeFrom d k (sweep k p junk) n s l₂.head?).bind _ = _
        rw [hs₂]
        rfl
      · rw [List.filter_cons_of_pos (by simp [hp])]
        rwa [List.append_assoc] at h₂

/-- `RB_FOREACH_SAFE` and `RB_FOREACH_REVERSE_SAFE` run their body once for each element, in order and
in the opposite order, also when the body removes the element and overwrites its memory; what is left
is a balanced tree of the other elements. -/
theorem rb_sweep (hcmp : ∀ l, Consistent cmp l) {p : α → Bool} {junk : α → RbEntry α} {n : ℕ}
    (h : s.Sorted cmp l) (hk : rounds l.length < k) (hn : l.length ≤ n) :
    (∃ s', s.forEachSafe k n (sweep k p junk) = some (s', l) ∧ s'.Sorted cmp (l.filter fun x => !p x)) ∧
      ∃ s', s.forEachReverseSafe k n (sweep k p junk) = some (s', l.reverse) ∧
        s'.Sorted cmp (l.filter fun x => !p x) := by
  constructor
  · have hall : s.Sorted cmp (along .right ([] ++ l)) := h
    obtain ⟨s', hs', h'⟩ := forEachSafeFrom_sweep hcmp (p := p) hall hk hn
    refine ⟨s', ?_, h'⟩
    rw [forEachSafe, minmax_sorted h hk]
    exact hs'
  · have hl : l = along .left ([] ++ l.reverse) := (List.reverse_reverse l).symm
    have hlen : rounds ([] ++ l.reverse).length < k := by simpa using hk
    have hrev : s.Sorted cmp (along .left ([] ++ l.reverse)) := by rwa [← hl]
    obtain ⟨s', hs', h'⟩ := forEachSafeFrom_sweep hcmp (p := p) hrev hlen (by simpa using hn)
    refine ⟨s', ?_, ?_⟩
    · rw [forEachReverseSafe, minmax_sorted h hk]
      show s.forEachSafeFrom .left k _ n l.getLast? = _
      rw [← List.head?_reverse]
      exact hs'
    · simpa [along, List.filter_reverse] using h'

/-- The element 1 below 2. -/
def pair : Rb ℕ where
  entry a := if a = 2 then ⟨some 1, none, none, .black⟩ else ⟨none, none, some 2, .red⟩
  root := some 2

theorem pair_sorted : pair.Sorted (fun a b : ℕ => (a - b : ℤ)) [1, 2] where
  tree := ⟨.node (.black, 2) (.node (.red, 1) .nil .nil) .nil, 1,
    ⟨rfl, ⟨rfl, ⟨rfl, trivial, trivial⟩, trivial⟩, by decide⟩, .black (.red .nil .nil) .nil, rfl⟩
  increasing := by simp [Increasing]

theorem rb_sweep_once :
    (∃ s', pair.forEachSafe 4 2 (sweep 4 (fun x => x = 2) fun _ => ⟨none, none, none, .red⟩) = some (s', [1, 2]) ∧
      s'.Sorted (fun a b : ℕ => (a - b : ℤ)) [1]) ∧
    ∃ s', pair.forEachReverseSafe 4 2 (sweep 4 (fun x => x = 2) fun _ => ⟨none, none, none, .red⟩) =
        some (s', [2, 1]) ∧
      s'.Sorted (fun a b : ℕ => (a - b : ℤ)) [1] :=
  rb_sweep consistent_sub pair_sorted (by decide) (by decide)

end Rb

end MuslBsd.Trees
