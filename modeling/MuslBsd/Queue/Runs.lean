import Mathlib.Data.List.Perm.Subperm
import MuslBsd.Queue.Effects
import MuslBsd.Support.Sessions

/-! Whole runs on the lists and queues of `queue.h`: each of them is the list of its elements. -/
namespace MuslBsd.Queue.Plain
open MuslBsd.Support

variable {η α : Type*} [DecidableEq η] [DecidableEq α]

/-- The elements of each queue; `none` for a head that was not initialized. -/
abbrev Lists (η α : Type*) : Type _ := η → Option (List α)

/-! ### What the macros are for -/

/-- `e` behind `a`. -/
def placeAfter (a e : α) (l : List α) : List α := l.flatMap fun x => if x = a then [a, e] else [x]

/-- `e` in front of `a`. -/
def placeBefore (a e : α) (l : List α) : List α := l.flatMap fun x => if x = a then [e, a] else [x]

/-- `e` for `a`. -/
def exchange (a e : α) (l : List α) : List α := l.map fun x => if x = a then e else x

/-- Without the element behind `a`. -/
def dropAfter (a : α) : List α → List α
  | [] => []
  | x :: l => if x = a then x :: l.tail else x :: dropAfter a l

/-- The elements before `a`, and those behind it. -/
def upTo (a : α) (l : List α) : List α := l.takeWhile (· ≠ a)

def past (a : α) (l : List α) : List α := (l.dropWhile (· ≠ a)).tail

namespace Lists

/-- `e` is on no queue. -/
def Free (ls : Lists η α) (e : α) : Prop := ∀ h l, ls h = some l → e ∉ l

/-- `a` is on the queue at `h`. -/
def On (ls : Lists η α) (h : η) (a : α) : Prop := ∃ l, ls h = some l ∧ a ∈ l

def edit (ls : Lists η α) (h : η) (f : List α → List α) : Lists η α := Function.update ls h ((ls h).map f)

end Lists

namespace Call

/-- What the caller has to see to. -/
def Allowed : Call η α → Lists η α → Prop
  | .init _, _ => True
  | .insertHead h e, ls | .insertTail h e, ls => (∃ l, ls h = some l) ∧ ls.Free e
  | .insertAfter h a e, ls | .insertBefore h a e, ls | .replace h a e, ls => ls.On h a ∧ ls.Free e
  | .removeHead h, ls => ∃ a l, ls h = some (a :: l)
  | .removeAfter h a, ls => ∃ l₁ b l₂, ls h = some (l₁ ++ a :: b :: l₂)
  | .remove h a, ls => ls.On h a
  | .concat h₁ h₂, ls => h₁ ≠ h₂ ∧ (∃ l, ls h₁ = some l) ∧ ∃ l, ls h₂ = some l
  | .first h, ls | .last h, ls => ∃ l, ls h = some l
  | .next h a, ls | .prev h a, ls => ls.On h a

/-- What the macro does to the lists. -/
def effect : Call η α → Lists η α → Lists η α
  | .init h, ls => Function.update ls h (some [])
  | .insertHead h e, ls => ls.edit h (e :: ·)
  | .insertTail h e, ls => ls.edit h (· ++ [e])
  | .insertAfter h a e, ls => ls.edit h (placeAfter a e)
  | .insertBefore h a e, ls => ls.edit h (placeBefore a e)
  | .removeHead h, ls => ls.edit h List.tail
  | .removeAfter h a, ls => ls.edit h (dropAfter a)
  | .remove h a, ls => ls.edit h (·.erase a)
  | .replace h a e, ls => ls.edit h (exchange a e)
  | .concat h₁ h₂, ls => (ls.edit h₁ (· ++ (ls h₂).getD [])).edit h₂ fun _ => []
  | _, ls => ls

/-- What the macro gives. -/
def reply : Call η α → Lists η α → Option α
  | .first h, ls => (ls h).bind List.head?
  | .last h, ls => (ls h).bind List.getLast?
  | .next h a, ls => (ls h).bind fun l => (past a l).head?
  | .prev h a, ls => (ls h).bind fun l => (upTo a l).getLast?
  | _, _ => none

/-- The element that the macro links. -/
def linked : Call η α → Option α
  | .insertHead _ e | .insertTail _ e | .insertAfter _ _ e | .insertBefore _ _ e | .replace _ _ e => some e
  | _ => none

end Call

section

variable {l₁ l₂ : List α} {a b e : α}

theorem flatMap_ne (f : α → List α) (h : a ∉ l₁) :
    l₁.flatMap (fun x => if x = a then f x else [x]) = l₁ := by
  induction l₁ with
  | nil => rfl
  | cons b l ih =>
    simp only [List.mem_cons, not_or] at h
    obtain ⟨hab, hal⟩ := h
    rw [List.flatMap_cons, if_neg (Ne.symm hab), ih hal]
    rfl

variable (h : (l₁ ++ a :: l₂).Nodup)
include h

omit [DecidableEq α] in
theorem notMem_left : a ∉ l₁ := fun hmem => (List.nodup_append'.mp h).2.2 hmem (List.mem_cons_self ..)

omit [DecidableEq α] in
theorem notMem_right : a ∉ l₂ := (List.nodup_cons.mp (List.nodup_append'.mp h).2.1).1

theorem placeAfter_eq : placeAfter a e (l₁ ++ a :: l₂) = l₁ ++ a :: e :: l₂ := by
  rw [placeAfter, List.flatMap_append, List.flatMap_cons, if_pos rfl,
    flatMap_ne (fun _ => [a, e]) (notMem_left h), flatMap_ne (fun _ => [a, e]) (notMem_right h)]
  rfl

theorem placeBefore_eq : placeBefore a e (l₁ ++ a :: l₂) = l₁ ++ e :: a :: l₂ := by
  rw [placeBefore, List.flatMap_append, List.flatMap_cons, if_pos rfl,
    flatMap_ne (fun _ => [e, a]) (notMem_left h), flatMap_ne (fun _ => [e, a]) (notMem_right h)]
  rfl

theorem exchange_eq : exchange a e (l₁ ++ a :: l₂) = l₁ ++ e :: l₂ := by
  have hsame : ∀ l : List α, a ∉ l → (l.map fun x => if x = a then e else x) = l := by
    intro l hl
    refine (List.map_congr_left fun x hx => ?_).trans (List.map_id l)
    have hne : x ≠ a := fun heq => hl (heq ▸ hx)
    exact if_neg hne
  rw [exchange, List.map_append, List.map_cons, hsame l₁ (notMem_left h), hsame l₂ (notMem_right h), if_pos rfl]

theorem upTo_eq : upTo a (l₁ ++ a :: l₂) = l₁ := by
  have hskip : ∀ x ∈ l₁, decide (x ≠ a) = true := fun x hx => by
    have hne : x ≠ a := fun heq => notMem_left h (heq ▸ hx)
    simpa using hne
  rw [upTo, List.takeWhile_append_of_pos hskip, List.takeWhile_cons_of_neg (by simp), List.append_nil]

theorem past_eq : past a (l₁ ++ a :: l₂) = l₂ := by
  have hskip : ∀ x ∈ l₁, decide (x ≠ a) = true := fun x hx => by
    have hne : x ≠ a := fun heq => notMem_left h (heq ▸ hx)
    simpa using hne
  rw [past, List.dropWhile_append_of_pos hskip, List.dropWhile_cons_of_neg (by simp), List.tail_cons]

omit h in
theorem dropAfter_eq (h : a ∉ l₁) : dropAfter a (l₁ ++ a :: b :: l₂) = l₁ ++ a :: l₂ := by
  induction l₁ with
  | nil => exact if_pos rfl
  | cons c l ih =>
    simp only [List.mem_cons, not_or] at h
    obtain ⟨hac, hal⟩ := h
    rw [List.cons_append, dropAfter, if_neg (Ne.symm hac), ih hal]
    rfl

end

/-! ### What is in memory -/

/-- Each queue that was initialized is in memory as its list, and no element is on two of them. -/
structure Holds (t : Kind) (m : Cells η α) (ls : Lists η α) : Prop where
  queued : ∀ h l, ls h = some l → Queued t m h l
  apart : ∀ h h' a, ls.On h a → ls.On h' a → h = h'

variable {t : Kind} {m m' : Cells η α} {ls : Lists η α} {h h' : η} {l l' l₁ l₂ : List α} {a b e : α}

omit [DecidableEq α] in
theorem on_update {h₁ : η} : Lists.On (Function.update ls h (some l)) h₁ a ↔
    (h₁ = h ∧ a ∈ l) ∨ (h₁ ≠ h ∧ ls.On h₁ a) := by
  obtain rfl | hne := eq_or_ne h₁ h
  · simp [Lists.On]
  · simp [Lists.On, hne]

omit [DecidableEq η] [DecidableEq α] in
theorem on_of_mem_getD (ha : a ∈ (ls h).getD []) : ls.On h a := by
  cases hl : ls h with
  | none =>
    rw [hl] at ha
    cases ha
  | some l =>
    rw [hl] at ha
    exact ⟨l, hl, ha⟩

omit [DecidableEq α] in
/-- One of the queues changes, and with it only the pointers of its own cells and of new elements. -/
theorem Holds.change (hm : Holds t m ls) (hq : Queued t m' h l') (hall : (ls h).getD [] = l)
    (hnew : ∀ a ∈ l', a ∈ l ∨ ls.Free a) (hsame : ∀ r, r ∉ cells h l → r ∉ cells h l' → Same m m' r) :
    Holds t m' (Function.update ls h (some l')) := by
  have hon : ∀ h' a, h' ≠ h → ls.On h' a → a ∉ l ∧ a ∉ l' := by
    intro h' a hne hon
    have hal : a ∉ l := fun ha => hne (hm.apart h' h a hon (on_of_mem_getD (hall ▸ ha)))
    refine ⟨hal, fun ha => ?_⟩
    obtain ha | ha := hnew a ha
    · exact hal ha
    · obtain ⟨l'', hl'', ha''⟩ := hon
      exact ha h' l'' hl'' ha''
  constructor
  · intro h' l'' hl''
    obtain rfl | hne := eq_or_ne h' h
    · rw [Function.update_self] at hl''
      cases hl''
      exact hq
    · rw [Function.update_of_ne hne] at hl''
      have hout : ∀ r ∈ cells h' l'', Same m m' r := by
        intro r hr
        have hr' : ∀ k : List α, (∀ a ∈ l'', a ∉ k) → r ∉ cells h k := by
          intro k hk hmem
          obtain rfl | ⟨a, ha, rfl⟩ := mem_cells.mp hr
          · obtain heq | ⟨b, -, heq⟩ := mem_cells.mp hmem
            · exact hne (Cell.head.inj heq)
            · cases heq
          · exact hk a ha (elm_mem_cells.mp hmem)
        exact hsame r (hr' l fun a ha => (hon h' a hne ⟨l'', hl'', ha⟩).1)
          (hr' l' fun a ha => (hon h' a hne ⟨l'', hl'', ha⟩).2)
      exact (hm.queued h' l'' hl'').congr (fun r hr => (hout r hr).next) fun r hr _ => (hout r hr).back
  · intro h₁ h₂ a h₁a h₂a
    obtain ⟨rfl, ha⟩ | ⟨hne, hon₁⟩ := on_update.mp h₁a
    · obtain ⟨rfl, -⟩ | ⟨hne, hon₂⟩ := on_update.mp h₂a
      · rfl
      · exact absurd ha (hon h₂ a hne hon₂).2
    · obtain ⟨rfl, ha⟩ | ⟨-, hon₂⟩ := on_update.mp h₂a
      · exact absurd ha (hon h₁ a hne hon₁).2
      · exact hm.apart h₁ h₂ a hon₁ hon₂

omit [DecidableEq α] in
theorem edit_eq {f : List α → List α} (hl : ls h = some l) : ls.edit h f = Function.update ls h (some (f l)) := by
  rw [Lists.edit, hl, Option.map_some]

omit [DecidableEq α] in
/-- A new element in one of the queues. -/
theorem Holds.link (hm : Holds t m ls) (hl : ls h = some (l₁ ++ l₂)) (he : ls.Free e)
    (hq : Queued t m' h (l₁ ++ e :: l₂) ∧ ∀ r, r ∉ cells h (l₁ ++ e :: l₂) → Same m m' r) :
    Holds t m' (Function.update ls h (some (l₁ ++ e :: l₂))) := by
  refine hm.change hq.1 (l := l₁ ++ l₂) (by rw [hl]; rfl) (fun a ha => ?_) fun r _ hr => hq.2 r hr
  obtain ha | rfl | ha : a ∈ l₁ ∨ a = e ∨ a ∈ l₂ := by simpa using ha
  · exact .inl (List.mem_append_left _ ha)
  · exact .inr he
  · exact .inl (List.mem_append_right _ ha)

omit [DecidableEq α] in
/-- One element less in one of the queues. -/
theorem Holds.unlink (hm : Holds t m ls) (hl : ls h = some (l₁ ++ a :: l₂))
    (hq : Queued t m' h (l₁ ++ l₂) ∧ ∀ r, r ∉ cells h (l₁ ++ a :: l₂) → Same m m' r) :
    Holds t m' (Function.update ls h (some (l₁ ++ l₂))) := by
  refine hm.change hq.1 (l := l₁ ++ a :: l₂) (by rw [hl]; rfl) (fun b hb => .inl ?_) fun r hr _ => hq.2 r hr
  simp only [List.mem_append, List.mem_cons] at hb ⊢
  tauto

/-- The elements of one queue go to the end of another. -/
theorem Holds.concat (hm : Holds t m ls) (hne : h ≠ h') (hl : ls h = some l) (hl' : ls h' = some l')
    (ht : t = .simpleq ∨ t = .stailq ∨ t = .tailq) :
    Holds t (Plain.concat t h h' m) (Function.update (Function.update ls h (some (l ++ l'))) h' (some [])) := by
  have hdisj : l.Disjoint l' := fun a ha ha' => hne (hm.apart h h' a ⟨l, hl, ha⟩ ⟨l', hl', ha'⟩)
  obtain ⟨hq, hempty, hsame⟩ := concat_queued (hm.queued h l hl) (hm.queued h' l' hl') hne hdisj ht
  -- as if the second queue were emptied first, which makes its elements free
  obtain ⟨hinit, hsame₀⟩ := init_queued (t := t) (m := m) (h := h')
  have hm₀ : Holds t (init t h' m) (Function.update ls h' (some [])) := by
    refine hm.change hinit (l := l') (by rw [hl']; rfl) (by simp) fun r hr _ => hsame₀ r fun heq => ?_
    exact hr (mem_cells.mpr (.inl heq))
  rw [Function.update_comm hne]
  refine hm₀.change hq (l := l) (by rw [Function.update_of_ne hne, hl]; rfl) (fun a ha => ?_) fun r hr hr' => ?_
  · refine (List.mem_append.mp ha).imp id fun ha' h₁ l₁ hl₁ ha₁ => ?_
    obtain ⟨rfl, hmem⟩ | ⟨hne₁, hon⟩ := on_update.mp ⟨l₁, hl₁, ha₁⟩
    · cases hmem
    · exact hne₁ (hm.apart h₁ h' a hon ⟨l', hl', ha'⟩)
  · by_cases hrh : r = .head h'
    · rw [hrh]
      have hj := hempty.joined (.head h', none) (by simp [seams])
      have hj₀ := hinit.joined (.head h', none) (by simp [seams])
      exact ⟨hj.next.trans hj₀.next.symm, (hj.back (keeps_head ht)).trans (hj₀.back (keeps_head ht)).symm⟩
    · have hout : r ∉ cells h' l' := by
        intro hmem
        obtain heq | ⟨a, ha, rfl⟩ := mem_cells.mp hmem
        · exact hrh heq
        · exact hr' (elm_mem_cells.mpr (List.mem_append_right _ ha))
      have hfinal := hsame r hr hout
      have hfirst := hsame₀ r hrh
      exact ⟨hfinal.next.trans hfirst.next.symm, hfinal.back.trans hfirst.back.symm⟩

namespace Call

omit [DecidableEq η] [DecidableEq α] in
theorem exists_split (ha : ls.On h a) : ∃ l₁ l₂, ls h = some (l₁ ++ a :: l₂) := by
  obtain ⟨l, hl, ha⟩ := ha
  obtain ⟨l₁, l₂, rfl⟩ := List.append_of_mem ha
  exact ⟨l₁, l₂, hl⟩

/-- A call does to the memory what it should do to the lists. -/
theorem run_effect {k : ℕ} (hm : Holds t m ls) (hk : ∀ h l, ls h = some l → l.length ≤ k) {c : Call η α}
    (ht : t.offers c = true) (hc : c.Allowed ls) :
    ∃ m', c.run t k m = some (m', c.reply ls) ∧ Holds t m' (c.effect ls) := by
  cases c with
  | init h =>
    obtain ⟨hq, hsame⟩ := init_queued (t := t) (m := m) (h := h)
    exact ⟨_, rfl, hm.change hq rfl (by simp) fun r hr _ => hsame r fun heq => hr (mem_cells.mpr (.inl heq))⟩
  | insertHead h e =>
    obtain ⟨⟨l, hl⟩, he⟩ := hc
    have hl' : ls h = some ([] ++ l) := hl
    refine ⟨_, rfl, ?_⟩
    rw [effect, edit_eq hl]
    exact hm.link hl' he (insertNext_queued (hm.queued h _ hl') (he h _ hl'))
  | insertTail h e =>
    obtain ⟨⟨l, hl⟩, he⟩ := hc
    refine ⟨_, rfl, ?_⟩
    rw [effect, edit_eq hl]
    exact hm.link (by simpa using hl) he
      (insertTail_queued (hm.queued h l hl) (he h l hl) (by simpa [Kind.offers] using ht))
  | insertAfter h a e =>
    obtain ⟨ha, he⟩ := hc
    obtain ⟨l₁, l₂, hl⟩ := exists_split ha
    have hl' : ls h = some ((l₁ ++ [a]) ++ l₂) := by rw [hl, List.append_cons]
    refine ⟨_, rfl, ?_⟩
    rw [effect, edit_eq hl, placeAfter_eq (hm.queued h _ hl).nodup, List.append_cons]
    have hinsert := insertNext_queued (hm.queued h _ hl') (he h _ hl')
    rw [lastCell_concat] at hinsert
    exact hm.link hl' he hinsert
  | insertBefore h a e =>
    obtain ⟨ha, he⟩ := hc
    obtain ⟨l₁, l₂, hl⟩ := exists_split ha
    refine ⟨_, rfl, ?_⟩
    rw [effect, edit_eq hl, placeBefore_eq (hm.queued h _ hl).nodup]
    exact hm.link hl he
      (insertBefore_queued (hm.queued h _ hl) (he h _ hl) (by simpa [Kind.offers] using ht))
  | removeHead h =>
    obtain ⟨a, l, hl⟩ := hc
    have hl' : ls h = some ([] ++ a :: l) := hl
    obtain ⟨m', hm', hq⟩ := removeNext_queued (hm.queued h _ hl')
    refine ⟨m', ?_, ?_⟩
    · show (removeNext t h (lastCell (.head h) []) m).map _ = _
      rw [hm']
      rfl
    · rw [effect, edit_eq hl]
      exact hm.unlink hl' hq
  | removeAfter h a =>
    obtain ⟨l₁, b, l₂, hl⟩ := hc
    have hl' : ls h = some ((l₁ ++ [a]) ++ b :: l₂) := by rw [hl, List.append_cons]
    obtain ⟨m', hm', hq⟩ := removeNext_queued (hm.queued h _ hl')
    rw [lastCell_concat] at hm'
    refine ⟨m', ?_, ?_⟩
    · show (removeNext t h (.elm a) m).map _ = _
      rw [hm']
      rfl
    · rw [effect, edit_eq hl, dropAfter_eq (notMem_left (hm.queued h _ hl).nodup), List.append_cons]
      exact hm.unlink hl' hq
  | remove h a =>
    obtain ⟨l₁, l₂, hl⟩ := exists_split hc
    have hq := hm.queued h _ hl
    have hlen : l₁.length ≤ k := by
      have hall := hk h _ hl
      rw [List.length_append] at hall
      omega
    obtain ⟨m', hm', hq'⟩ := remove_queued hq (by simpa [Kind.offers] using ht) hlen
    refine ⟨m', hm', ?_⟩
    rw [effect, edit_eq hl, List.erase_append_right _ (notMem_left hq.nodup), List.erase_cons_head]
    exact hm.unlink hl hq'
  | replace h a e =>
    obtain ⟨ha, he⟩ := hc
    obtain ⟨l₁, l₂, hl⟩ := exists_split ha
    refine ⟨_, rfl, ?_⟩
    have hq := hm.queued h _ hl
    obtain ⟨hq', hsame⟩ := replace_queued hq (he h _ hl) (t := t) (by simpa [Kind.offers] using ht)
    rw [effect, edit_eq hl, exchange_eq hq.nodup]
    refine hm.change hq' (l := l₁ ++ a :: l₂) (by rw [hl]; rfl) (fun b hb => ?_) fun r _ hr => hsame r hr
    obtain hb | rfl | hb : b ∈ l₁ ∨ b = e ∨ b ∈ l₂ := by simpa using hb
    · exact .inl (List.mem_append_left _ hb)
    · exact .inr he
    · exact .inl (List.mem_append_right _ (List.mem_cons_of_mem _ hb))
  | concat h₁ h₂ =>
    obtain ⟨hne, ⟨l, hl⟩, l', hl'⟩ := hc
    refine ⟨_, rfl, ?_⟩
    have heffect : (Call.concat h₁ h₂).effect ls =
        Function.update (Function.update ls h₁ (some (l ++ l'))) h₂ (some []) := by
      rw [effect, edit_eq hl, hl', edit_eq (l := l') (by rw [Function.update_of_ne hne.symm, hl'])]
      rfl
    rw [heffect]
    exact hm.concat hne hl hl' (by simpa [Kind.offers] using ht)
  | first h =>
    obtain ⟨l, hl⟩ := hc
    refine ⟨m, ?_, hm⟩
    rw [run, first_eq (hm.queued h l hl), reply, hl, Option.bind_some]
  | next h a =>
    obtain ⟨l₁, l₂, hl⟩ := exists_split hc
    refine ⟨m, ?_, hm⟩
    have hq := hm.queued h _ hl
    rw [run, Plain.next, hq.next_elm, reply, hl, Option.bind_some, past_eq hq.nodup]
  | last h =>
    obtain ⟨l, hl⟩ := hc
    refine ⟨m, ?_, hm⟩
    have hq := hm.queued h l hl
    rw [run, reply, hl, Option.bind_some]
    obtain rfl | rfl : t = .stailq ∨ t = .tailq := by simpa [Kind.offers] using ht
    · rw [if_pos rfl, stailqLast_eq hq]
    · rw [if_neg (by decide), tailqLast_eq hq]
  | prev h a =>
    obtain ⟨l₁, l₂, hl⟩ := exists_split hc
    refine ⟨m, ?_, hm⟩
    have hq := hm.queued h _ hl
    obtain rfl : t = .tailq := by simpa [Kind.offers] using ht
    rw [run, tailqPrev_eq hq, reply, hl, Option.bind_some, upTo_eq hq.nodup]

omit [DecidableEq α] in
theorem on_edit {f : List α → List α} (hf : ∀ l, ls h = some l → ∀ b ∈ f l, b ∈ l ∨ b = e)
    (ha : (ls.edit h f).On h' a) : (∃ h', ls.On h' a) ∨ e = a := by
  cases hl : ls h with
  | none =>
    rw [Lists.edit, hl, Option.map_none, ← hl, Function.update_eq_self] at ha
    exact .inl ⟨h', ha⟩
  | some l =>
    rw [edit_eq hl] at ha
    obtain ⟨-, ha⟩ | ⟨-, ha⟩ := on_update.mp ha
    · exact (hf l hl a ha).imp (fun ha => ⟨h, l, hl, ha⟩) Eq.symm
    · exact .inl ⟨h', ha⟩

omit [DecidableEq α] in
theorem on_edit_of_subset {f : List α → List α} (hf : ∀ l, ls h = some l → ∀ b ∈ f l, b ∈ l)
    (ha : (ls.edit h f).On h' a) : ∃ h', ls.On h' a := by
  cases hl : ls h with
  | none =>
    rw [Lists.edit, hl, Option.map_none, ← hl, Function.update_eq_self] at ha
    exact ⟨h', ha⟩
  | some l =>
    rw [edit_eq hl] at ha
    obtain ⟨-, ha⟩ | ⟨-, ha⟩ := on_update.mp ha
    · exact ⟨h, l, hl, hf l hl a ha⟩
    · exact ⟨h', ha⟩

theorem mem_dropAfter (hb : b ∈ dropAfter a l) : b ∈ l := by
  induction l with
  | nil => cases hb
  | cons x l ih =>
    rw [dropAfter] at hb
    split at hb
    · exact (List.mem_cons.mp hb).elim (fun heq => heq ▸ List.mem_cons_self ..) fun hb =>
        List.mem_cons_of_mem _ (List.mem_of_mem_tail hb)
    · exact (List.mem_cons.mp hb).elim (fun heq => heq ▸ List.mem_cons_self ..) fun hb =>
        List.mem_cons_of_mem _ (ih hb)

/-- Elements come into the queues only where they are linked. -/
theorem on_effect {c : Call η α} (ha : (c.effect ls).On h a) : (∃ h', ls.On h' a) ∨ c.linked = some a := by
  have hlink : ∀ {h₁ : η} {e : α} {f : List α → List α}, (∀ l, ∀ b ∈ f l, b ∈ l ∨ b = e) →
      (ls.edit h₁ f).On h a → (∃ h', ls.On h' a) ∨ some e = some a := fun hf ha =>
    (on_edit (fun l _ => hf l) ha).imp id (congrArg some)
  cases c with
  | init h₁ =>
    obtain ⟨-, ha⟩ | ⟨-, ha⟩ := on_update.mp ha
    · cases ha
    · exact .inl ⟨h, ha⟩
  | insertHead h₁ e => exact hlink (fun l b hb => (List.mem_cons.mp hb).symm) ha
  | insertTail h₁ e => exact hlink (fun l b hb => by simpa using hb) ha
  | insertAfter h₁ c e =>
    refine hlink (fun l b hb => ?_) ha
    obtain ⟨x, hx, hb⟩ := List.mem_flatMap.mp hb
    split at hb
    · rename_i heq
      obtain rfl | rfl : b = c ∨ b = e := by simpa using hb
      · exact .inl (heq ▸ hx)
      · exact .inr rfl
    · exact .inl (List.mem_singleton.mp hb ▸ hx)
  | insertBefore h₁ c e =>
    refine hlink (fun l b hb => ?_) ha
    obtain ⟨x, hx, hb⟩ := List.mem_flatMap.mp hb
    split at hb
    · rename_i heq
      obtain rfl | rfl : b = e ∨ b = c := by simpa using hb
      · exact .inr rfl
      · exact .inl (heq ▸ hx)
    · exact .inl (List.mem_singleton.mp hb ▸ hx)
  | replace h₁ c e =>
    refine hlink (fun l b hb => ?_) ha
    obtain ⟨x, hx, rfl⟩ := List.mem_map.mp hb
    split
    · exact .inr rfl
    · exact .inl hx
  | removeHead h₁ => exact .inl (on_edit_of_subset (fun l _ b hb => List.mem_of_mem_tail hb) ha)
  | removeAfter h₁ c => exact .inl (on_edit_of_subset (fun l _ b hb => mem_dropAfter hb) ha)
  | remove h₁ c => exact .inl (on_edit_of_subset (fun l _ b hb => List.mem_of_mem_erase hb) ha)
  | concat h₁ h₂ =>
    obtain ⟨h₃, l₃, hl₃, ha⟩ := on_edit_of_subset (fun l _ b hb => by cases hb) ha
    left
    obtain rfl | hne := eq_or_ne h₃ h₁
    · rw [Lists.edit, Function.update_self] at hl₃
      obtain ⟨l, hl, rfl⟩ := Option.map_eq_some_iff.mp hl₃
      obtain ha | ha := List.mem_append.mp ha
      · exact ⟨h₃, l, hl, ha⟩
      · exact ⟨h₂, on_of_mem_getD ha⟩
    · rw [Lists.edit, Function.update_of_ne hne] at hl₃
      exact ⟨h₃, l₃, hl₃, ha⟩
  | first h₁ | next h₁ c | last h₁ | prev h₁ c => exact .inl ⟨h, ha⟩

end Call

/-! ### Runs -/

omit [DecidableEq η] [DecidableEq α] in
theorem Holds.length_le {all : List α} (hm : Holds t m ls) (hall : ∀ h a, ls.On h a → a ∈ all)
    (hl : ls h = some l) : l.length ≤ all.length := by
  have hsub : l ⊆ all := fun a ha => hall h a ⟨l, hl, ha⟩
  exact (List.Nodup.subperm (hm.queued h l hl).nodup hsub).length_le

/-- A program that links only elements that are on no queue, and that names elements of a queue only
while they are on it, finds in each of its `SLIST`s, `LIST`s, `SIMPLEQ`s, `STAILQ`s or `TAILQ`s the list
of its elements, however the macros are mixed and whatever was in the memory before: the macros that
look give the answers of the lists, no pointer that is followed is null, and at the end the loops visit
the elements in order, and those of a `TAILQ` also backwards. -/
theorem queues_refine (t : Kind) (m : Cells η α) {cs : List (Call η α)} {k : ℕ}
    (hcs : Lawful (fun c ls => t.offers c = true ∧ c.Allowed ls) Call.effect cs fun _ => none)
    (hk : cs.length ≤ k) :
    ∃ m', answers (Call.run t k) cs m = some (m', replies Call.effect Call.reply cs fun _ => none) ∧
      ∀ h l, cs.foldl (fun ls c => c.effect ls) (fun _ => none) h = some l →
        forEach m' k h = some l ∧ (t = .tailq → tailqForEachReverse m' k h = some l.reverse) := by
  -- all elements of the queues were linked by one of the calls
  obtain ⟨all, hall⟩ : ∃ all, cs.filterMap Call.linked = all := ⟨_, rfl⟩
  have hk' : all.length ≤ k := Nat.le_trans (hall ▸ List.length_filterMap_le ..) hk
  have hstart : Holds t m (fun _ : η => none) := ⟨nofun, nofun⟩
  have hstep : ∀ c ∈ cs, ∀ m (ls : Lists η α), (Holds t m ls ∧ ∀ h a, ls.On h a → a ∈ all) →
      t.offers c = true ∧ c.Allowed ls → ∃ m', c.run t k m = some (m', c.reply ls) ∧
        Holds t m' (c.effect ls) ∧ ∀ h a, (c.effect ls).On h a → a ∈ all := by
    intro c hc m ls hm hok
    obtain ⟨m', hm', hholds⟩ :=
      Call.run_effect hm.1 (fun h l hl => Nat.le_trans (hm.1.length_le hm.2 hl) hk') hok.1 hok.2
    refine ⟨m', hm', hholds, fun h a ha => ?_⟩
    obtain ⟨h', ha⟩ | hnew := Call.on_effect ha
    · exact hm.2 h' a ha
    · exact hall ▸ List.mem_filterMap.mpr ⟨c, hc, hnew⟩
  obtain ⟨m', hm', hholds, hls⟩ := answers_lawful hstep ⟨hstart, nofun⟩ hcs
  refine ⟨m', hm', fun h l hl => ?_⟩
  have hlen := Nat.le_trans (hholds.length_le hls hl) hk'
  constructor
  · exact (hholds.queued h l hl).visit_next hlen
  · rintro rfl
    exact (hholds.queued h l hl).visit_back keeps_tailq hlen

theorem queues_refine_tailq : ∃ m', answers (Call.run .tailq 7)
    [.init false, .init true, .insertTail false 1, .insertHead true 2, .insertBefore false 1 3,
      .concat false true, .prev false 2] (⟨fun _ => some 0, fun _ => .elm 0⟩ : Cells Bool ℕ) =
        some (m', [none, none, none, none, none, none, some 1]) ∧
      forEach m' 7 false = some [3, 1, 2] ∧ tailqForEachReverse m' 7 false = some [2, 1, 3] := by
  have hcs : Lawful (fun c ls => Kind.tailq.offers c = true ∧ c.Allowed ls) Call.effect
      ([.init false, .init true, .insertTail false 1, .insertHead true 2, .insertBefore false 1 3,
        .concat false true, .prev false 2] : List (Call Bool ℕ)) fun _ => none := by
    simp [Lawful, Call.Allowed, Lists.Free, Lists.On, Kind.offers, Call.effect, Lists.edit,
      Function.update_apply, placeBefore]
  obtain ⟨m', hm', hall⟩ := queues_refine .tailq ⟨fun _ => some 0, fun _ => .elm 0⟩ hcs (k := 7) (by decide)
  obtain ⟨hforward, hback⟩ := hall false [3, 1, 2] rfl
  exact ⟨m', hm', hforward, hback rfl⟩

end MuslBsd.Queue.Plain
