import MuslBsd.Support.Owned
import MuslBsd.Fts.Walk

/-! Linked lists and parent chains in the heap of nodes: what the loops of `fts.c` over them do. -/
namespace MuslBsd.Fts
open MuslBsd.Support

variable {ω : Type}

/-- The nodes `l`, and no others, are allocated. -/
abbrev Nodes (heap : NodeId → Option Ftsent) (l : List Ftsent) : Prop := Owns Ftsent.addr heap l

/-- Every node's `fts_link` is the next node of the list. -/
def Chained : List Ftsent → Prop
  | [] => True
  | n :: ns => n.link = headAddr ns ∧ Chained ns

@[simp] theorem headAddr_nil : headAddr [] = none := rfl
@[simp] theorem headAddr_cons (n : Ftsent) (ns : List Ftsent) : headAddr (n :: ns) = some n.addr := rfl
@[simp] theorem chained_nil : Chained [] := trivial
@[simp] theorem chained_cons {n : Ftsent} {ns : List Ftsent} :
    Chained (n :: ns) ↔ n.link = headAddr ns ∧ Chained ns := .rfl

theorem headAddr_map {g : Ftsent → Ftsent} (hg : ∀ n, (g n).addr = n.addr) (l : List Ftsent) :
    headAddr (l.map g) = headAddr l := by
  cases l <;> simp [hg]

theorem Chained.map {g : Ftsent → Ftsent} {l : List Ftsent} (h : Chained l)
    (hg : ∀ n, (g n).addr = n.addr ∧ (g n).link = n.link) : Chained (l.map g) := by
  induction l with
  | nil => trivial
  | cons n ns ih =>
    rw [List.map_cons, chained_cons, headAddr_map fun n => (hg n).1]
    exact ⟨(hg n).2.trans h.1, ih h.2⟩

/-! ### Relinking -/

@[simp] theorem headAddr_relink (l : List Ftsent) : headAddr (relink l) = headAddr l := by
  cases l <;> rfl

theorem chained_relink : ∀ l : List Ftsent, Chained (relink l)
  | [] => trivial
  | _ :: ns => ⟨(headAddr_relink ns).symm, chained_relink ns⟩

theorem Chained.relink_eq : ∀ {l : List Ftsent}, Chained l → relink l = l
  | [], _ => rfl
  | _ :: _, h => by
    rw [relink, h.2.relink_eq, ← h.1]

@[simp] theorem length_relink : ∀ l : List Ftsent, (relink l).length = l.length
  | [] => rfl
  | _ :: ns => congrArg (· + 1) (length_relink ns)

/-- Relinking a chain with more nodes at its end only changes the last node of the chain. -/
theorem relink_append_of_chained (t : Ftsent) (ps : List Ftsent) :
    ∀ {l : List Ftsent}, Chained (l ++ [t]) → relink (l ++ t :: ps) = l ++ relink (t :: ps)
  | [], _ => rfl
  | _ :: ns, h => by
    have hl := show _ = headAddr (ns ++ t :: ps) from h.1.trans (by cases ns <;> rfl)
    rw [List.cons_append, relink, relink_append_of_chained t ps h.2, ← hl]
    rfl

theorem addr_relink : ∀ l : List Ftsent, (relink l).map Ftsent.addr = l.map Ftsent.addr
  | [] => rfl
  | _ :: ns => congrArg (_ :: ·) (addr_relink ns)

theorem exists_of_mem_relink {l : List Ftsent} {m : Ftsent} (hm : m ∈ relink l) :
    ∃ n ∈ l, ∃ a, m = { n with link := a } := by
  induction l with
  | nil => simp [relink] at hm
  | cons n ns ih =>
    rcases List.mem_cons.mp hm with rfl | hm
    · exact ⟨n, by simp, _, rfl⟩
    · obtain ⟨k, hk, h⟩ := ih hm
      exact ⟨k, List.mem_cons_of_mem _ hk, h⟩

theorem addr_subset_of_links {l l' : List Ftsent}
    (h : ∀ m ∈ l', ∃ n ∈ l, ∃ i, m = { n with link := i }) :
    l'.map Ftsent.addr ⊆ l.map Ftsent.addr := fun a ha => by
  obtain ⟨m, hm, rfl⟩ := List.mem_map.mp ha
  obtain ⟨n, hn, i, rfl⟩ := h m hm
  exact List.mem_map.mpr ⟨n, hn, rfl⟩

/-! ### Single nodes -/

section Single

variable {st : St ω} {n : Ftsent} {a : NodeId}

theorem load_run (h : st.heap a = some n) : load a st = (.ok n, st, []) := by
  simp only [load, h]

theorem update_run (h : st.heap a = some n) (f : Ftsent → Ftsent) :
    update a f st = (.ok (), { st with heap := Function.update st.heap a (some (f n)) }, []) := by
  simp only [update, h]

theorem free_run (h : st.heap a = some n) :
    free a st = (.ok (), { st with heap := Function.update st.heap a none }, []) := by
  simp only [free, h]

end Single

/-! ### Lists -/

/-- A silent run that changes the heap only. -/
def Runs {α : Type} (m : M ω α) (st : St ω) (x : α) (h' : NodeId → Option Ftsent) : Prop :=
  m st = (.ok x, { st with heap := h' }, [])

theorem Runs.bind {α β : Type} {m : M ω α} {f : α → M ω β} {st : St ω} {x : α} {y : β}
    {h h' : NodeId → Option Ftsent} (hm : Runs m st x h) (hf : Runs (f x) { st with heap := h } y h') :
    Runs (m >>= f) st y h' := by
  unfold Runs at *
  rw [Faulting.bind_ok hm, hf]
  rfl

theorem runs_load {st : St ω} {a : NodeId} {n : Ftsent} (h : st.heap a = some n) :
    Runs (load a) st n st.heap := load_run h

theorem runs_update {s : St ω} {a : NodeId} {n : Ftsent} (h : s.heap a = some n)
    (f : Ftsent → Ftsent) :
    Runs (update a f) s () (Function.update s.heap a (some (f n))) := update_run h f

theorem runs_free {st : St ω} {a : NodeId} {n : Ftsent} (h : st.heap a = some n) :
    Runs (free a) st () (Function.update st.heap a none) := free_run h

theorem runs_pure {α : Type} {st : St ω} (x : α) : Runs (pure x : M ω α) st x st.heap := rfl

/-- A run that ends in a fault. -/
def Faults {α : Type} (m : M ω α) (st : St ω) : Prop := ∃ f s' t, m st = (.error f, s', t)

theorem Faults.bind {α β : Type} {m : M ω α} {f : α → M ω β} {st : St ω} (h : Faults m st) :
    Faults (m >>= f) st := by
  obtain ⟨e, s', t, he⟩ := h
  exact ⟨e, s', t, Faulting.bind_error he⟩

theorem Faults.step {α β : Type} {m : M ω α} {f : α → M ω β} {st u : St ω} {x : α} {t : List Act}
    (hm : m st = (.ok x, u, t)) (hf : Faults (f x) u) : Faults (m >>= f) st := by
  obtain ⟨e, s', v, he⟩ := hf
  exact ⟨e, s', _, by rw [Faulting.bind_ok hm, he]⟩

theorem Faults.after {α β : Type} {m : M ω α} {f : α → M ω β} {st : St ω} {x : α}
    {h : NodeId → Option Ftsent} (hm : Runs m st x h) (hf : Faults (f x) { st with heap := h }) :
    Faults (m >>= f) st :=
  .step hm hf

theorem faults_load {st : St ω} {a : NodeId} (h : st.heap a = none) : Faults (load a) st :=
  ⟨_, _, _, by simp only [load, h]; rfl⟩

theorem lfree_run (others : List Ftsent) (l : List Ftsent) : ∀ (k : ℕ) (st : St ω), Chained l →
    Nodes st.heap (l ++ others) → l.length ≤ k →
    ∃ h', Runs (ftsLfree k (headAddr l)) st () h' ∧ Nodes h' others := by
  induction l with
  | nil => exact fun k st _ ho _ => ⟨st.heap, by cases k <;> rfl, ho⟩
  | cons n ns ih =>
    rintro (_ | k) st hc ho hk
    · simp at hk
    · obtain ⟨h', hr, ho'⟩ := ih k { st with heap := Function.update st.heap n.addr none } hc.2
        ho.free (by simpa using hk)
      refine ⟨h', ?_, ho'⟩
      rw [headAddr_cons, ftsLfree]
      refine .bind (runs_load ho.head) (.bind (runs_free ho.head) ?_)
      rw [hc.1]
      exact hr

/-- A list whose head has been released cannot be released again. -/
theorem lfree_dead {st : St ω} {a : NodeId} (h : st.heap a = none) (k : ℕ) :
    Faults (ftsLfree k (some a)) st := by
  cases k with
  | zero => exact ⟨_, _, _, rfl⟩
  | succ k => exact (faults_load h).bind

theorem listNodes_run (l : List Ftsent) : ∀ (k : ℕ) (st : St ω), Chained l →
    (∀ n ∈ l, st.heap n.addr = some n) → l.length ≤ k →
    Runs (listNodes k (headAddr l)) st l st.heap := by
  induction l with
  | nil => exact fun k st _ _ _ => by cases k <;> rfl
  | cons n ns ih =>
    rintro (_ | k) st hc ho hk
    · simp at hk
    · rw [headAddr_cons, listNodes]
      refine .bind (runs_load (ho n (by simp))) (.bind (x := ns) (h := st.heap) ?_ (runs_pure _))
      rw [hc.1]
      exact ih k st hc.2 (fun m hm => ho m (List.mem_cons_of_mem _ hm)) (by simpa using hk)

theorem relinkNodes_run (l : List Ftsent) : ∀ (others : List Ftsent) (st : St ω),
    Nodes st.heap (l ++ others) →
    ∃ h', Runs (relinkNodes l) st () h' ∧ Nodes h' (relink l ++ others) := by
  induction l with
  | nil => exact fun _ st ho => ⟨st.heap, runs_pure _, ho⟩
  | cons n ns ih =>
    intro others st ho
    have ho' := ho.store (z := { n with link := headAddr ns }) rfl
    cases ns with
    | nil => exact ⟨_, runs_update ho.head _, ho'⟩
    | cons m ns =>
      obtain ⟨h', hr, ho''⟩ := ih ({ n with link := some m.addr } :: others) { st with heap := _ }
        (ho'.perm List.perm_middle.symm)
      exact ⟨h', .bind (runs_update ho.head _) hr, ho''.perm List.perm_middle⟩

/-! ### Trails -/

/-- From every node of `l` to the next one by `fts_link`, or by `fts_parent` at the end of a list;
from the last one to `stop`. -/
def Trail (stop : NodeId) : List Ftsent → Prop
  | [] => True
  | n :: ns => (n.link <|> n.parent) = some ((headAddr ns).getD stop) ∧ Trail stop ns

theorem Trail.of_chained {q : NodeId} : ∀ {l : List Ftsent}, Chained l →
    (∀ n ∈ l, n.parent = some q) → Trail q l
  | [], _, _ => trivial
  | n :: ns, hc, hp => by
    refine ⟨?_, Trail.of_chained hc.2 fun m hm => hp m (List.mem_cons_of_mem _ hm)⟩
    rw [hc.1, hp n (by simp)]
    cases ns <;> rfl

theorem Trail.append {q : NodeId} : ∀ {l : List Ftsent} {m : Ftsent} {ms : List Ftsent},
    Trail m.addr l → Trail q (m :: ms) → Trail q (l ++ m :: ms)
  | [], _, _, _, h' => h'
  | n :: ns, m, ms, h, h' => by
    refine ⟨?_, Trail.append h.2 h'⟩
    rw [h.1]
    cases ns <;> rfl

theorem adjustUp_run (base : ℕ) (r : Ftsent) (hr : r.level < rootLevel) (l : List Ftsent) :
    ∀ (others : List Ftsent) (k : ℕ) (st : St ω), Trail r.addr l → Nodes st.heap (l ++ others) →
    r ∈ others → (∀ n ∈ l, rootLevel ≤ n.level) → l.length < k →
    ∃ h', Runs (adjustUp base k (some ((headAddr l).getD r.addr))) st () h' ∧
      Nodes h' (l.map (adjust base) ++ others) := by
  induction l with
  | nil =>
    rintro others (_ | k) st - ho hm - hk
    · simp at hk
    · refine ⟨st.heap, ?_, ho⟩
      rw [headAddr_nil, Option.getD_none, adjustUp]
      refine .bind (runs_load (ho.get hm)) ?_
      rw [if_pos hr]
      exact runs_pure _
  | cons n ns ih =>
    rintro others (_ | k) st ht ho hm hl hk
    · simp at hk
    · have ho' := ho.store (z := adjust base n) rfl
      obtain ⟨h', hrun, ho''⟩ := ih (adjust base n :: others) k { st with heap := _ } ht.2
        (ho'.perm List.perm_middle.symm) (List.mem_cons_of_mem _ hm)
        (fun m hm => hl m (List.mem_cons_of_mem _ hm)) (by simpa using hk)
      refine ⟨h', ?_, ho''.perm List.perm_middle⟩
      rw [headAddr_cons, Option.getD_some, adjustUp]
      refine .bind (runs_load ho.head) ?_
      rw [if_neg (not_lt.mpr (hl n (by simp)))]
      refine .bind (runs_update ho.head _) ?_
      rw [ht.1]
      exact hrun

theorem closeUp_run (r : Ftsent) (hr : r.level < rootLevel) (others l : List Ftsent) :
    ∀ (k : ℕ) (st : St ω), Trail r.addr l → Nodes st.heap (l ++ r :: others) →
    (∀ n ∈ l, rootLevel ≤ n.level) → l.length < k →
    ∃ h', Runs (closeUp k (some ((headAddr l).getD r.addr))) st () h' ∧ Nodes h' others := by
  induction l with
  | nil =>
    rintro (_ | k) st - ho - hk
    · simp at hk
    · refine ⟨_, ?_, ho.free⟩
      rw [headAddr_nil, Option.getD_none, closeUp]
      refine .bind (runs_pure _) (.bind (runs_load ho.head) (.bind (runs_free ho.head) ?_))
      rw [if_neg (not_le.mpr hr)]
      exact runs_pure _
  | cons n ns ih =>
    rintro (_ | k) st ht ho hl hk
    · simp at hk
    · obtain ⟨h', hrun, ho'⟩ := ih k { st with heap := Function.update st.heap n.addr none } ht.2
        ho.free (fun m hm => hl m (List.mem_cons_of_mem _ hm)) (by simpa using hk)
      refine ⟨h', ?_, ho'⟩
      rw [headAddr_cons, Option.getD_some, closeUp]
      refine .bind (runs_pure _) (.bind (runs_load ho.head) (.bind (runs_free ho.head) ?_))
      rw [if_pos (hl n (by simp)), ht.1]
      exact hrun

/-! ### The pending list -/

theorem pathFromParent_run (p : Ftsent) (l : List Ftsent) : ∀ (others : List Ftsent) (k : ℕ)
    (st : St ω), Chained l → Nodes st.heap (l ++ others) → p ∈ others →
    (∀ n ∈ l, n.parent = some p.addr) → l.length ≤ k →
    ∃ h', Runs (pathFromParent k (headAddr l)) st () h' ∧
      Nodes h' (l.map (fun n => { n with accpath := p.accpath }) ++ others) := by
  induction l with
  | nil => exact fun _ k st _ ho _ _ _ => ⟨st.heap, by cases k <;> exact runs_pure _, ho⟩
  | cons n ns ih =>
    rintro others (_ | k) st hc ho hm hp hk
    · simp at hk
    · have ho' := ho.store (z := { n with accpath := p.accpath }) rfl
      obtain ⟨h', hrun, ho''⟩ := ih ({ n with accpath := p.accpath } :: others) k { st with heap := _ }
        hc.2 (ho'.perm List.perm_middle.symm) (List.mem_cons_of_mem _ hm)
        (fun m hm => hp m (List.mem_cons_of_mem _ hm)) (by simpa using hk)
      refine ⟨h', ?_, ho''.perm List.perm_middle⟩
      rw [headAddr_cons, pathFromParent]
      refine .bind (runs_load ho.head) ?_
      rw [hp n (by simp)]
      refine .bind (runs_pure _) (.bind (runs_load (ho.get (by simp [hm]))) ?_)
      refine .bind (runs_update ho.head _) ?_
      rw [← hc.1] at hrun
      exact hrun

end MuslBsd.Fts
