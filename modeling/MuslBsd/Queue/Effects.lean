import Mathlib.Data.List.Induction
import MuslBsd.Queue.Macros

/-! What the macros of `queue.h` do to the list that is chained in memory. -/
namespace MuslBsd.Queue.Plain
open MuslBsd.Support

variable {η α : Type*} [DecidableEq η] [DecidableEq α] {t : Kind} {m m' : Cells η α} {h h' : η}
  {l l₁ l₂ : List α} {a b e : α} {p c r : Cell η α} {q : Option α}

/-- A queue in memory. -/
abbrev Queued (t : Kind) (m : Cells η α) (h : η) (l : List α) : Prop :=
  Chain (fun c => t.keeps c = true) m h l

/-! ### Writes -/

@[simp] theorem setPrev_next : (setPrev t a c m).next = m.next := by
  unfold setPrev
  split <;> rfl

@[simp] theorem setRear_next : (setRear t h q c m).next = m.next := by
  unfold setRear
  split <;> rfl

theorem setPrev_back_self (ht : t.keeps (.elm a : Cell η α) = true) : (setPrev t a c m).back (.elm a) = c := by
  rw [setPrev, if_pos ht, Cells.setBack_back_self]

theorem setRear_back_self (ht : t.keeps (rear h q) = true) : (setRear t h q c m).back (rear h q) = c := by
  rw [setRear, if_pos ht, Cells.setBack_back_self]

theorem setPrev_back_of_ne (hr : r ≠ .elm a) : (setPrev t a c m).back r = m.back r := by
  unfold setPrev
  split
  · exact Cells.setBack_back_of_ne hr
  · rfl

theorem setRear_back_of_ne (hr : r ≠ rear h q) : (setRear t h q c m).back r = m.back r := by
  unfold setRear
  split
  · exact Cells.setBack_back_of_ne hr
  · rfl

/-! ### Inserting -/

theorem insertNext_queued (hc : Queued t m h (l₁ ++ l₂)) (he : e ∉ l₁ ++ l₂) :
    Queued t (insertNext t h (lastCell (.head h) l₁) e m) h (l₁ ++ e :: l₂) ∧
      ∀ r, r ∉ cells h (l₁ ++ e :: l₂) → Same m (insertNext t h (lastCell (.head h) l₁) e m) r := by
  obtain ⟨p, hp⟩ : ∃ p, lastCell (.head h) l₁ = p := ⟨_, rfl⟩
  have hpe : p ≠ .elm e := hp ▸ lastCell_ne_elm fun hmem => he (List.mem_append_left _ hmem)
  have hrear : rear h l₂.head? ≠ .elm e := rear_ne_elm fun hmem => he (List.mem_append_right _ hmem)
  have hq : m.next p = l₂.head? := hp ▸ hc.cut.next
  have hnext : (insertNext t h p e m).next = ((m.setNext (.elm e) l₂.head?).setNext p (some e)).next := by
    simp [insertNext, next, hq, Cells.setNext]
  have hback : ∀ r, r ≠ .elm e → (insertNext t h p e m).back r = (setRear t h l₂.head? (.elm e) m).back r := by
    intro r hr
    rw [insertNext, setPrev_back_of_ne hr, hq]
    simp only [next, Cells.setNext_next_self, Cells.setNext_back]
    unfold setRear
    split <;> rfl
  rw [hp]
  refine Chain.put (l := []) hc he ?_ ?_ ?_ ?_ ?_ ?_
  · rw [hp, hnext, Cells.setNext_next_self]
  · intro ht
    rw [hp, insertNext, setPrev_back_self ht]
  · rw [hnext, Cells.setNext_next_of_ne hpe.symm, Cells.setNext_next_self]
  · intro ht
    rw [hback _ hrear, setRear_back_self ht]
  · intro r hrp hre
    rw [hp] at hrp
    rw [hnext, Cells.setNext_next_of_ne hrp, Cells.setNext_next_of_ne hre]
  · intro r hr hre
    rw [hback _ hre, setRear_back_of_ne hr]

omit [DecidableEq η] [DecidableEq α] in
theorem keeps_head (ht : t = .simpleq ∨ t = .stailq ∨ t = .tailq) : t.keeps (.head h : Cell η α) = true := by
  simpa [Kind.keeps] using ht

theorem insertTail_queued (hc : Queued t m h l) (he : e ∉ l) (ht : t = .simpleq ∨ t = .stailq ∨ t = .tailq) :
    Queued t (insertTail t h e m) h (l ++ [e]) ∧
      ∀ r, r ∉ cells h (l ++ [e]) → Same m (insertTail t h e m) r := by
  have hc' : Queued t m h (l ++ ([] ++ [])) := by simpa using hc
  have hlast : m.back (.head h) = lastCell (.head h) l := hc'.cut.back (keeps_head ht)
  obtain ⟨p, hp⟩ : ∃ p, lastCell (.head h) l = p := ⟨_, rfl⟩
  have hpe : p ≠ .elm e := hp ▸ lastCell_ne_elm he
  have hhead : Cell.head h ≠ .elm e := by simp
  have hback : ((setPrev t e p (m.setNext (.elm e) none)).back (.head h)) = p := by
    rw [setPrev_back_of_ne hhead, Cells.setNext_back, hlast, hp]
  have hinsert : insertTail t h e m =
      ((setPrev t e p (m.setNext (.elm e) none)).setNext p (some e)).setBack (.head h) (.elm e) := by
    rw [insertTail, Cells.setNext_back, hlast, hp, hback]
  rw [hinsert]
  refine Chain.put hc' (by simpa using he) ?_ ?_ ?_ ?_ ?_ ?_
  · rw [hp, Cells.setBack_next, Cells.setNext_next_self]
  · intro hkeeps
    rw [hp, Cells.setBack_back_of_ne hhead.symm, Cells.setNext_back, setPrev_back_self hkeeps]
  · rw [Cells.setBack_next, Cells.setNext_next_of_ne hpe.symm, setPrev_next, Cells.setNext_next_self]
    rfl
  · intro _
    exact Cells.setBack_back_self
  · intro r hrp hre
    rw [hp] at hrp
    rw [Cells.setBack_next, Cells.setNext_next_of_ne hrp, setPrev_next, Cells.setNext_next_of_ne hre]
  · intro r hr hre
    have hrh : r ≠ .head h := hr
    rw [Cells.setBack_back_of_ne hrh, Cells.setNext_back, setPrev_back_of_ne hre, Cells.setNext_back]

theorem insertBefore_queued (hc : Queued t m h (l₁ ++ a :: l₂)) (he : e ∉ l₁ ++ a :: l₂)
    (ht : t = .list ∨ t = .tailq) :
    Queued t (insertBefore a e m) h (l₁ ++ e :: a :: l₂) ∧
      ∀ r, r ∉ cells h (l₁ ++ e :: a :: l₂) → Same m (insertBefore a e m) r := by
  have hkeeps : t.keeps (.elm a : Cell η α) = true := by simpa [Kind.keeps] using ht
  have hprev : m.back (.elm a) = lastCell (.head h) l₁ := hc.cut.back hkeeps
  obtain ⟨p, hp⟩ : ∃ p, lastCell (.head h) l₁ = p := ⟨_, rfl⟩
  have hpe : p ≠ .elm e := hp ▸ lastCell_ne_elm fun hmem => he (List.mem_append_left _ hmem)
  have hae : Cell.elm a ≠ (.elm e : Cell η α) := by
    intro heq
    cases heq
    exact he (by simp)
  have hinsert : insertBefore a e m = ((((m.setBack (.elm e) p).setNext (.elm e) (some a)).setNext p
      (some e)).setBack (.elm a) (.elm e)) := by
    rw [insertBefore, hprev, hp]
    simp only [Cells.setNext_back, Cells.setBack_back_of_ne hae, hprev, hp]
  rw [hinsert]
  refine Chain.put (l := []) hc he ?_ ?_ ?_ ?_ ?_ ?_
  · rw [hp, Cells.setBack_next, Cells.setNext_next_self]
  · intro _
    rw [hp, Cells.setBack_back_of_ne hae.symm, Cells.setNext_back, Cells.setNext_back,
      Cells.setBack_back_self]
  · rw [Cells.setBack_next, Cells.setNext_next_of_ne hpe.symm, Cells.setNext_next_self]
    rfl
  · intro _
    exact Cells.setBack_back_self
  · intro r hrp hre
    rw [hp] at hrp
    rw [Cells.setBack_next, Cells.setNext_next_of_ne hrp, Cells.setNext_next_of_ne hre, Cells.setBack_next]
  · intro r hr hre
    have hra : r ≠ .elm a := hr
    rw [Cells.setBack_back_of_ne hra, Cells.setNext_back, Cells.setNext_back, Cells.setBack_back_of_ne hre]

theorem replace_queued (hc : Queued t m h (l₁ ++ a :: l₂)) (he : e ∉ l₁ ++ a :: l₂)
    (ht : t = .list ∨ t = .tailq) :
    Queued t (replace t h a e m) h (l₁ ++ e :: l₂) ∧
      ∀ r, r ∉ cells h (l₁ ++ e :: l₂) → Same m (replace t h a e m) r := by
  have hkeeps : t.keeps (.elm a : Cell η α) = true := by simpa [Kind.keeps] using ht
  have hprev : m.back (.elm a) = lastCell (.head h) l₁ := hc.cut.back hkeeps
  have hnext : m.next (.elm a) = l₂.head? := hc.next_elm
  obtain ⟨p, hp⟩ : ∃ p, lastCell (.head h) l₁ = p := ⟨_, rfl⟩
  have hpe : p ≠ .elm e := hp ▸ lastCell_ne_elm fun hmem => he (List.mem_append_left _ hmem)
  have hea : Cell.elm a ≠ (.elm e : Cell η α) := by
    intro heq
    cases heq
    exact he (by simp)
  have hrear : rear h l₂.head? ≠ .elm e := rear_ne_elm fun hmem => he (by simp [hmem])
  have hreara : Cell.elm a ≠ rear h l₂.head? := hc.rear_ne_elm_of_cut.symm
  obtain ⟨m₁, hm₁⟩ : ∃ m₁, setRear t h l₂.head? (.elm e) (m.setNext (.elm e) l₂.head?) = m₁ := ⟨_, rfl⟩
  have hback₁ : m₁.back (.elm a) = p := by
    rw [← hm₁, setRear_back_of_ne hreara, Cells.setNext_back, hprev, hp]
  have hreplace : replace t h a e m = (m₁.setBack (.elm e) p).setNext p (some e) := by
    simp only [replace, next, hnext, Cells.setNext_next_self, hm₁, hback₁, Cells.setBack_back_self]
  have hpart : Queued t m h (l₁ ++ ([a] ++ l₂)) := hc
  rw [hreplace]
  refine Chain.put hpart (fun hmem => he (by simp at hmem ⊢; tauto)) ?_ ?_ ?_ ?_ ?_ ?_
  · rw [hp, Cells.setNext_next_self]
  · intro _
    rw [hp, Cells.setNext_back, Cells.setBack_back_self]
  · rw [Cells.setNext_next_of_ne hpe.symm, Cells.setBack_next, ← hm₁, setRear_next, Cells.setNext_next_self]
  · intro hkeepsq
    rw [Cells.setNext_back, Cells.setBack_back_of_ne hrear, ← hm₁, setRear_back_self hkeepsq]
  · intro r hrp hre
    rw [hp] at hrp
    rw [Cells.setNext_next_of_ne hrp, Cells.setBack_next, ← hm₁, setRear_next, Cells.setNext_next_of_ne hre]
  · intro r hr hre
    rw [Cells.setNext_back, Cells.setBack_back_of_ne hre, ← hm₁, setRear_back_of_ne hr, Cells.setNext_back]

/-! ### Removing -/

theorem removeLinked_queued (hc : Queued t m h (l₁ ++ a :: l₂)) (ht : t = .list ∨ t = .tailq) :
    Queued t (removeLinked t h a m) h (l₁ ++ l₂) ∧
      ∀ r, r ∉ cells h (l₁ ++ a :: l₂) → Same m (removeLinked t h a m) r := by
  have hkeeps : t.keeps (.elm a : Cell η α) = true := by simpa [Kind.keeps] using ht
  have hprev : m.back (.elm a) = lastCell (.head h) l₁ := hc.cut.back hkeeps
  have hnext : m.next (.elm a) = l₂.head? := hc.next_elm
  have hreara : Cell.elm a ≠ rear h l₂.head? := hc.rear_ne_elm_of_cut.symm
  obtain ⟨p, hp⟩ : ∃ p, lastCell (.head h) l₁ = p := ⟨_, rfl⟩
  have hremove : removeLinked t h a m = (setRear t h l₂.head? p m).setNext p l₂.head? := by
    rw [removeLinked, next, hnext, hprev, hp, setRear_back_of_ne hreara, hprev, hp, next, setRear_next, hnext]
  rw [hremove]
  refine Chain.leave hc ?_ ?_ ?_ ?_
  · rw [hp, Cells.setNext_next_self]
  · intro hkeepsq
    rw [hp, Cells.setNext_back, setRear_back_self hkeepsq]
  · intro r hrp _
    rw [hp] at hrp
    rw [Cells.setNext_next_of_ne hrp, setRear_next]
  · intro r hr _
    rw [Cells.setNext_back, setRear_back_of_ne hr]

theorem removeNext_queued (hc : Queued t m h (l₁ ++ a :: l₂)) : ∃ m',
    removeNext t h (lastCell (.head h) l₁) m = some m' ∧ Queued t m' h (l₁ ++ l₂) ∧
      ∀ r, r ∉ cells h (l₁ ++ a :: l₂) → Same m m' r := by
  obtain ⟨p, hp⟩ : ∃ p, lastCell (.head h) l₁ = p := ⟨_, rfl⟩
  have hfirst : m.next p = some a := hp ▸ hc.cut.next
  have hnext : m.next (.elm a) = l₂.head? := hc.next_elm
  have hremove : removeNext t h p m = some (setRear t h l₂.head? p (m.setNext p l₂.head?)) := by
    rw [removeNext, hfirst, Option.map_some, next, hnext]
    simp only [Cells.setNext_next_self]
  rw [hp]
  refine ⟨_, hremove, Chain.leave hc ?_ ?_ ?_ ?_⟩
  · rw [hp, setRear_next, Cells.setNext_next_self]
  · intro hkeepsq
    rw [hp, setRear_back_self hkeepsq]
  · intro r hrp _
    rw [hp] at hrp
    rw [setRear_next, Cells.setNext_next_of_ne hrp]
  · intro r hr _
    rw [setRear_back_of_ne hr, Cells.setNext_back]

omit [DecidableEq η] in
/-- The walk stops in front of the element. -/
theorem precursor_eq {k : ℕ} (hc : Queued t m h (l₁ ++ b :: (l ++ a :: l₂))) (hk : l.length < k) :
    ∃ b', precursor m a k b = some b' ∧ Cell.elm b' = lastCell (.elm b : Cell η α) l := by
  induction l generalizing l₁ b k with
  | nil =>
    obtain ⟨k, rfl⟩ := Nat.exists_eq_add_one_of_ne_zero (n := k) (by omega)
    have hnext : m.next (.elm b) = some a := hc.next_elm
    exact ⟨b, by rw [precursor, next, if_pos hnext], rfl⟩
  | cons d l ih =>
    rw [List.length_cons] at hk
    obtain ⟨k, rfl⟩ := Nat.exists_eq_add_one_of_ne_zero (n := k) (by omega)
    have hnext : m.next (.elm b) = some d := hc.next_elm
    have hda : d ≠ a := by
      rintro rfl
      have hnodup := (List.nodup_append'.mp hc.nodup).2.1
      simp at hnodup
    rw [List.append_cons] at hc
    obtain ⟨b', hb', hlast⟩ := ih hc (k := k) (by omega)
    refine ⟨b', ?_, hlast⟩
    rw [precursor, next, hnext, if_neg (by simpa using hda), Option.bind_some, hb']

/-- `SLIST_REMOVE` and `STAILQ_REMOVE`. -/
theorem removeFound_queued {k : ℕ} (hc : Queued t m h (l₁ ++ a :: l₂)) (hk : l₁.length ≤ k) : ∃ m',
    removeFound t k h a m = some m' ∧ Queued t m' h (l₁ ++ l₂) ∧
      ∀ r, r ∉ cells h (l₁ ++ a :: l₂) → Same m m' r := by
  obtain ⟨m', hm', hc', hsame⟩ := removeNext_queued hc
  refine ⟨m', ?_, hc', hsame⟩
  have hall : Queued t m h ([] ++ (l₁ ++ a :: l₂)) := hc
  have hfirst : m.next (.head h) = (l₁ ++ a :: l₂).head? := hall.cut.next
  cases l₁ with
  | nil =>
    rw [removeFound, first, hfirst]
    exact (if_pos rfl).trans hm'
  | cons b l =>
    have hba : b ≠ a := by
      rintro rfl
      have hnodup := hc.nodup
      simp at hnodup
    have hc₀ : Queued t m h ([] ++ b :: (l ++ a :: l₂)) := hc
    obtain ⟨b', hb', hlast⟩ := precursor_eq hc₀ (k := k) hk
    have hfirst' : first m h = some b := hfirst
    rw [removeFound, hfirst', if_neg (by simpa using hba), Option.bind_some, hb', Option.bind_some, removeAfter,
      hlast]
    exact hm'

/-- `SLIST_REMOVE`, `LIST_REMOVE`, `STAILQ_REMOVE` and `TAILQ_REMOVE`. -/
theorem remove_queued {k : ℕ} (hc : Queued t m h (l₁ ++ a :: l₂)) (ht : t ≠ .simpleq) (hk : l₁.length ≤ k) :
    ∃ m', (Call.remove h a).run t k m = some (m', none) ∧ Queued t m' h (l₁ ++ l₂) ∧
      ∀ r, r ∉ cells h (l₁ ++ a :: l₂) → Same m m' r := by
  rw [Call.run]
  split
  · obtain ⟨m', hm', hq⟩ := removeFound_queued hc hk
    exact ⟨m', by rw [hm']; rfl, hq⟩
  · rename_i hnone
    have hkind : t = .list ∨ t = .tailq := by
      cases t <;> simp at hnone ht ⊢
    exact ⟨_, rfl, removeLinked_queued hc hkind⟩

/-! ### Whole queues -/

theorem init_queued : Queued t (init t h m) h [] ∧ ∀ r, r ≠ .head h → Same m (init t h m) r := by
  constructor
  · refine Chain.nil ?_ fun ht => ?_
    · rw [init, setRear_next, Cells.setNext_next_self]
    · exact setRear_back_self ht
  · intro r hr
    exact ⟨by rw [init, setRear_next, Cells.setNext_next_of_ne hr], setRear_back_of_ne hr⟩

theorem concat_queued (hc : Queued t m h l) (hc' : Queued t m h' l') (hne : h ≠ h') (hdisj : l.Disjoint l')
    (ht : t = .simpleq ∨ t = .stailq ∨ t = .tailq) :
    Queued t (concat t h h' m) h (l ++ l') ∧ Queued t (concat t h h' m) h' [] ∧
      ∀ r, r ∉ cells h l → r ∉ cells h' l' → Same m (concat t h h' m) r := by
  have hend : Queued t m h (l ++ ([] ++ [])) := by simpa using hc
  have hend' : Queued t m h' (l' ++ []) := by simpa using hc'
  have hlast : m.back (.head h) = lastCell (.head h) l := hend.cut.back (keeps_head ht)
  have hlast' : m.back (.head h') = lastCell (.head h') l' := hend'.cut.back (keeps_head ht)
  have hall : Queued t m h' ([] ++ l') := hc'
  have hfirst : m.next (.head h') = l'.head? := hall.cut.next
  cases l' with
  | nil =>
    have hconcat : concat t h h' m = m := by
      rw [concat, first, hfirst]
      rfl
    rw [hconcat, List.append_nil]
    exact ⟨hc, hc', fun r _ _ => ⟨rfl, rfl⟩⟩
  | cons a l' =>
    obtain ⟨p, hp⟩ : ∃ p, lastCell (.head h) l = p := ⟨_, rfl⟩
    have hpa : p ≠ .elm a := hp ▸ lastCell_ne_elm fun ha => hdisj ha (List.mem_cons_self ..)
    have hph' : p ≠ .head h' := by
      rintro rfl
      have hmem : Cell.head h' ∈ cells h l := hp ▸ lastCell_mem
      obtain heq | ⟨b, -, heq⟩ := mem_cells.mp hmem
      · exact hne (Cell.head.inj heq).symm
      · cases heq
    have hhead : Cell.head h ≠ (.head h' : Cell η α) := fun heq => hne (Cell.head.inj heq)
    obtain ⟨m₁, hm₁⟩ : ∃ m₁, ((setPrev t a p (m.setNext p (some a))).setBack (.head h)
        (lastCell (.head h') (a :: l'))) = m₁ := ⟨_, rfl⟩
    have hconcat : concat t h h' m = init t h' m₁ := by
      rw [concat, first, hfirst, hlast, hp]
      show init t h' ((setPrev t a ((m.setNext p (some a)).back (.head h)) (m.setNext p (some a))).setBack
        (.head h) ((setPrev t a ((m.setNext p (some a)).back (.head h)) (m.setNext p (some a))).back
          (.head h'))) = _
      rw [Cells.setNext_back, hlast, hp, setPrev_back_of_ne (by simp), Cells.setNext_back, hlast', hm₁]
    obtain ⟨hempty, hsame⟩ := init_queued (t := t) (m := m₁) (h := h')
    rw [hconcat]
    refine ⟨?_, hempty, ?_⟩
    · refine hc.append hc' hdisj ?_ ?_ ?_ ?_ ?_ hne
      · rw [hp, (hsame p hph').next, ← hm₁, Cells.setBack_next, setPrev_next, Cells.setNext_next_self]
      · intro hkeeps
        rw [hp, (hsame _ (by simp)).back, ← hm₁, Cells.setBack_back_of_ne (by simp), setPrev_back_self hkeeps]
      · intro _
        rw [(hsame _ hhead).back, ← hm₁, Cells.setBack_back_self]
      · intro r hrp hr
        rw [hp] at hrp
        rw [(hsame r hr).next, ← hm₁, Cells.setBack_next, setPrev_next, Cells.setNext_next_of_ne hrp]
      · intro r hrh hrh' hra
        rw [(hsame r hrh').back, ← hm₁, Cells.setBack_back_of_ne hrh, setPrev_back_of_ne hra, Cells.setNext_back]
    · intro r hr hr'
      have hrh : r ≠ .head h := fun heq => hr (mem_cells.mpr (.inl heq))
      have hrh' : r ≠ .head h' := fun heq => hr' (mem_cells.mpr (.inl heq))
      have hra : r ≠ .elm a := fun heq => hr' (heq ▸ elm_mem_cells.mpr (List.mem_cons_self ..))
      have hrp : r ≠ p := fun heq => hr (heq ▸ hp ▸ lastCell_mem)
      constructor
      · rw [(hsame r hrh').next, ← hm₁, Cells.setBack_next, setPrev_next, Cells.setNext_next_of_ne hrp]
      · rw [(hsame r hrh').back, ← hm₁, Cells.setBack_back_of_ne hrh, setPrev_back_of_ne hra, Cells.setNext_back]

/-! ### Looking -/

omit [DecidableEq η] [DecidableEq α] in
theorem keeps_tailq (p : Cell η α) : Kind.tailq.keeps p = true := by
  cases p <;> rfl

omit [DecidableEq η] [DecidableEq α] in
theorem first_eq (hc : Queued t m h l) : first m h = l.head? := by
  have hall : Queued t m h ([] ++ l) := hc
  exact hall.cut.next

omit [DecidableEq η] [DecidableEq α] in
theorem tailqLast_eq (hc : Queued .tailq m h l) : tailqLast m h = l.getLast? := by
  have hall : Queued .tailq m h (l ++ []) := by rwa [List.append_nil]
  exact hall.next_back_back keeps_tailq

omit [DecidableEq η] [DecidableEq α] in
theorem tailqPrev_eq (hc : Queued .tailq m h (l₁ ++ a :: l₂)) : tailqPrev m a = l₁.getLast? :=
  hc.next_back_back keeps_tailq

omit [DecidableEq η] [DecidableEq α] in
theorem stailqLast_eq (hc : Queued .stailq m h l) : stailqLast m h = l.getLast? := by
  have hall : Queued .stailq m h (l ++ []) := by rwa [List.append_nil]
  have hlast : m.back (.head h) = lastCell (.head h) l := hall.cut.back rfl
  rw [stailqLast, isEmpty, first_eq hc, hlast]
  rcases List.eq_nil_or_concat l with rfl | ⟨l, a, rfl⟩
  · rfl
  · rw [List.concat_eq_append, lastCell_concat, List.getLast?_concat, if_neg (by simp)]

/-! ### Loops that remove elements -/

/-- The memory of an element that is on no queue does not matter. -/
theorem trash_queued (hc : Queued t m h l) (ha : a ∉ l) :
    Queued t ((m.setNext (.elm a) q).setBack (.elm a) p) h l := by
  have hne : ∀ r ∈ cells h l, r ≠ .elm a := fun r hr heq => ha (elm_mem_cells.mp (heq ▸ hr))
  refine hc.congr (fun r hr => ?_) fun r hr _ => ?_
  · rw [Cells.setBack_next, Cells.setNext_next_of_ne (hne r hr)]
  · rw [Cells.setBack_back_of_ne (hne r hr), Cells.setNext_back]

/-- What the body of such a loop does to an element. -/
theorem sweep_queued {k : ℕ} {u : α → Bool} {g : α → Option α × Cell η α} (hc : Queued t m h (l₁ ++ a :: l₂))
    (ht : t ≠ .simpleq) (hk : l₁.length ≤ k) :
    ∃ m', sweep t k h u g m a = some m' ∧ Queued t m' h (l₁ ++ ((if u a then [] else [a]) ++ l₂)) := by
  cases hu : u a with
  | true =>
    obtain ⟨m', hm', hq, -⟩ := remove_queued hc ht hk
    have ha : a ∉ l₁ ++ l₂ := (List.nodup_cons.mp (List.nodup_middle.mp hc.nodup)).1
    refine ⟨(m'.setNext (.elm a) (g a).1).setBack (.elm a) (g a).2, ?_, trash_queued hq ha⟩
    rw [sweep, if_pos hu, hm']
    rfl
  | false => exact ⟨m, if_neg (by simp [hu]), hc⟩

/-- From the front. -/
theorem forEachSafeFrom_next {k n : ℕ} {u : α → Bool} {g : α → Option α × Cell η α}
    (hc : Queued t m h (l₁ ++ l₂)) (ht : t ≠ .simpleq) (hk : (l₁ ++ l₂).length ≤ k) (hn : l₂.length ≤ n) :
    ∃ m', forEachSafeFrom next (sweep t k h u g) n m l₂.head? = some (m', l₂) ∧
      Queued t m' h (l₁ ++ l₂.filter fun x => !u x) := by
  induction l₂ generalizing l₁ m n with
  | nil =>
    refine ⟨m, ?_, hc⟩
    cases n <;> rfl
  | cons a l₂ ih =>
    rw [List.length_cons] at hn
    obtain ⟨n, rfl⟩ := Nat.exists_eq_add_one_of_ne_zero (n := n) (by omega)
    rw [List.length_append, List.length_cons] at hk
    have hnext : next m a = l₂.head? := hc.next_elm
    obtain ⟨m₁, hm₁, hc₁⟩ := sweep_queued (u := u) (g := g) hc ht (k := k) (by omega)
    rw [← List.append_assoc] at hc₁
    obtain ⟨m₂, hm₂, hc₂⟩ := ih hc₁ (by split <;> simp <;> omega) (n := n) (by omega)
    refine ⟨m₂, ?_, ?_⟩
    · show forEachSafeFrom next (sweep t k h u g) (n + 1) m (some a) = _
      rw [forEachSafeFrom, hnext, hm₁, Option.bind_some, hm₂]
      rfl
    · cases hu : u a <;> simpa [hu] using hc₂

/-- From the end. -/
theorem forEachSafeFrom_prev {k n : ℕ} {u : α → Bool} {g : α → Option α × Cell η α}
    (hc : Queued .tailq m h (l₁ ++ l₂)) (hk : (l₁ ++ l₂).length ≤ k) (hn : l₁.length ≤ n) :
    ∃ m', forEachSafeFrom tailqPrev (sweep .tailq k h u g) n m l₁.getLast? = some (m', l₁.reverse) ∧
      Queued .tailq m' h ((l₁.filter fun x => !u x) ++ l₂) := by
  induction l₁ using List.reverseRecOn generalizing l₂ m n with
  | nil =>
    refine ⟨m, ?_, hc⟩
    cases n <;> rfl
  | append_singleton l₁ a ih =>
    rw [List.length_append, List.length_singleton] at hn
    obtain ⟨n, rfl⟩ := Nat.exists_eq_add_one_of_ne_zero (n := n) (by omega)
    rw [← List.append_cons] at hc hk
    rw [List.length_append, List.length_cons] at hk
    have hprev : tailqPrev m a = l₁.getLast? := tailqPrev_eq hc
    obtain ⟨m₁, hm₁, hc₁⟩ := sweep_queued (u := u) (g := g) hc (by decide) (k := k) (by omega)
    obtain ⟨m₂, hm₂, hc₂⟩ := ih hc₁ (by split <;> simp <;> omega) (n := n) (by omega)
    refine ⟨m₂, ?_, ?_⟩
    · rw [List.getLast?_concat, List.reverse_append]
      show forEachSafeFrom tailqPrev (sweep .tailq k h u g) (n + 1) m (some a) = _
      rw [forEachSafeFrom, hprev, hm₁, Option.bind_some, hm₂]
      rfl
    · cases hu : u a <;> simpa [hu] using hc₂

/-- `FOREACH_SAFE` visits every element once, in order, also when the body removes it and overwrites its
memory, and `TAILQ_FOREACH_REVERSE_SAFE` does so from the end. The others stay in the queue. -/
theorem queue_sweep {k n : ℕ} {u : α → Bool} {g : α → Option α × Cell η α} (hc : Queued t m h l)
    (ht : t ≠ .simpleq) (hk : l.length ≤ k) (hn : l.length ≤ n) :
    (∃ m', forEachSafe n h (sweep t k h u g) m = some (m', l) ∧ Queued t m' h (l.filter fun x => !u x)) ∧
      (t = .tailq → ∃ m', tailqForEachReverseSafe n h (sweep t k h u g) m = some (m', l.reverse) ∧
        Queued t m' h (l.filter fun x => !u x)) := by
  constructor
  · have hall : Queued t m h ([] ++ l) := hc
    rw [forEachSafe, first_eq hc]
    exact forEachSafeFrom_next hall ht hk hn
  · rintro rfl
    have hall : Queued .tailq m h (l ++ []) := by rwa [List.append_nil]
    obtain ⟨m', hm', hc'⟩ := forEachSafeFrom_prev (u := u) (g := g) hall (by simpa using hk) hn
    rw [List.append_nil] at hc'
    exact ⟨m', by rw [tailqForEachReverseSafe, tailqLast_eq hc, hm'], hc'⟩

/-- The elements 1 and 2 in a queue. -/
def pair : Cells Unit ℕ where
  next p := if p = .head () then some 1 else if p = .elm 1 then some 2 else none
  back p := if p = .head () then .elm 2 else if p = .elm 1 then .head () else .elm 1

theorem pair_queued : Queued .tailq pair () [1, 2] where
  joined x hx := by
    obtain rfl | rfl | rfl : x = (.head (), some 1) ∨ x = (.elm 1, some 2) ∨ x = (.elm 2, none) := by
      simpa [seams] using hx
    · exact ⟨rfl, fun _ => rfl⟩
    · exact ⟨rfl, fun _ => rfl⟩
    · exact ⟨rfl, fun _ => rfl⟩
  nodup := by decide

theorem queue_sweep_once :
    (∃ m', forEachSafe 2 () (sweep .tailq 2 () (fun x => x = 1) fun _ => (none, .elm 9)) pair = some (m', [1, 2]) ∧
      Queued .tailq m' () [2]) ∧
    (Kind.tailq = .tailq → ∃ m',
      tailqForEachReverseSafe 2 () (sweep .tailq 2 () (fun x => x = 1) fun _ => (none, .elm 9)) pair =
        some (m', [2, 1]) ∧ Queued .tailq m' () [2]) :=
  queue_sweep pair_queued (by decide) (by decide) (by decide)

end MuslBsd.Queue.Plain
