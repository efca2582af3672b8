import Mathlib.Algebra.BigOperators.Group.Finset.Basic
import Mathlib.Algebra.Order.BigOperators.Group.Finset
import Mathlib.Logic.Relation

/-! A work list: items that stand for nodes of a graph, each node expanded once. -/
namespace MuslBsd.Support.Worklist

variable {α β : Type} (canon : α → β) (next : β → List α)

/-- One node leads to another. -/
def Edge (a b : β) : Prop := ∃ x ∈ next a, canon x = b

/-- Some item leads to the node. -/
def Reaches (items : List α) (b : β) : Prop :=
  ∃ x ∈ items, Relation.ReflTransGen (Edge canon next) (canon x) b

variable {canon next}

/-- What is visited already may lead on only to what is visited or in the queue. -/
def Closed (canon : α → β) (next : β → List α) (queue : List α) (visited : List β) : Prop :=
  ∀ a ∈ visited, ∀ b, Edge canon next a b → b ∈ visited ∨ b ∈ queue.map canon

/-- With an empty queue nothing leads out of what is visited. -/
theorem Closed.mem_of_path {visited : List β} (h : Closed canon next [] visited) {a b : β}
    (ha : a ∈ visited) (hp : Relation.ReflTransGen (Edge canon next) a b) : b ∈ visited := by
  induction hp with
  | refl => exact ha
  | tail _ hstep ih =>
    rcases h _ ih _ hstep with hv | hq
    · exact hv
    · exact absurd hq List.not_mem_nil

theorem Closed.skip {x : α} {queue : List α} {visited : List β}
    (h : Closed canon next (x :: queue) visited) (hx : canon x ∈ visited) :
    Closed canon next queue visited := by
  intro a ha b hab
  rcases h a ha b hab with hv | hq
  · exact .inl hv
  · rcases List.mem_cons.mp hq with rfl | hq
    · exact .inl hx
    · exact .inr hq

theorem Closed.visit {x : α} {queue : List α} {visited : List β}
    (h : Closed canon next (x :: queue) visited) :
    Closed canon next (queue ++ next (canon x)) (visited ++ [canon x]) := by
  intro a ha b hab
  rw [List.mem_append, List.mem_singleton] at ha
  rw [List.mem_append, List.mem_singleton, List.map_append, List.mem_append]
  rcases ha with ha | rfl
  · rcases h a ha b hab with hv | hq
    · exact .inl (.inl hv)
    · rcases List.mem_cons.mp hq with rfl | hq
      · exact .inl (.inr rfl)
      · exact .inr (.inl hq)
  · obtain ⟨y, hy, rfl⟩ := hab
    exact .inr (.inr (List.mem_map_of_mem hy))

variable [DecidableEq β]

/-- Take items from the front, expand the nodes not visited yet and put what they lead to at the
end; `none` is a run that has not ended. -/
def search (canon : α → β) (next : β → List α) : ℕ → List α → List β → Option (List β)
  | _, [], visited => some visited
  | 0, _ :: _, _ => none
  | k + 1, x :: queue, visited =>
    if canon x ∈ visited then search canon next k queue visited
    else search canon next k (queue ++ next (canon x)) (visited ++ [canon x])

/-- The items that are left to take, and those that nodes not visited yet will add. -/
def potential (next : β → List α) (nodes : Finset β) (queue : List α) (visited : List β) : ℕ :=
  queue.length + ∑ b ∈ nodes with b ∉ visited, (next b).length

theorem potential_skip {nodes : Finset β} {x : α} {queue : List α} {visited : List β} :
    potential next nodes (x :: queue) visited = potential next nodes queue visited + 1 := by
  unfold potential
  rw [List.length_cons]
  omega

theorem potential_visit {nodes : Finset β} {x : α} {queue : List α} {visited : List β} {b : β}
    (hb : b ∈ nodes) (hv : b ∉ visited) :
    potential next nodes (x :: queue) visited =
      potential next nodes (queue ++ next b) (visited ++ [b]) + 1 := by
  have hmem : b ∈ nodes.filter (· ∉ visited) := Finset.mem_filter.mpr ⟨hb, hv⟩
  have herase : nodes.filter (· ∉ visited ++ [b]) = (nodes.filter (· ∉ visited)).erase b := by
    ext c
    simp only [Finset.mem_filter, Finset.mem_erase, List.mem_append, List.mem_singleton]
    tauto
  have hsum := Finset.add_sum_erase (nodes.filter (· ∉ visited)) (fun b => (next b).length) hmem
  unfold potential
  rw [herase, List.length_cons, List.length_append]
  omega

/-- On a finite graph the search ends with each node that is reached, once. -/
theorem search_reaches {nodes : Finset β} (hnext : ∀ b ∈ nodes, ∀ x ∈ next b, canon x ∈ nodes)
    {k : ℕ} {queue : List α} {visited : List β} (hq : ∀ x ∈ queue, canon x ∈ nodes)
    (hk : potential next nodes queue visited ≤ k) (hv : visited.Nodup)
    (hc : Closed canon next queue visited) :
    ∃ found, search canon next k queue visited = some found ∧ found.Nodup ∧
      ∀ b, b ∈ found ↔ b ∈ visited ∨ Reaches canon next queue b := by
  induction k generalizing queue visited with
  | zero =>
    cases queue with
    | nil => exact ⟨visited, rfl, hv, by simp [Reaches]⟩
    | cons x queue =>
      rw [potential_skip] at hk
      omega
  | succ k ih =>
    cases queue with
    | nil => exact ⟨visited, rfl, hv, by simp [Reaches]⟩
    | cons x queue =>
      have hx : canon x ∈ nodes := hq x List.mem_cons_self
      have hrest : ∀ y ∈ queue, canon y ∈ nodes := fun y hy => hq y (List.mem_cons_of_mem x hy)
      rw [search]
      split
      · rename_i hmem
        rw [potential_skip] at hk
        obtain ⟨found, hs, hnd, hiff⟩ := ih hrest (by omega) hv (hc.skip hmem)
        refine ⟨found, hs, hnd, fun b => ?_⟩
        rw [hiff]
        constructor
        · rintro (hb | ⟨y, hy, hp⟩)
          · exact .inl hb
          · exact .inr ⟨y, List.mem_cons_of_mem x hy, hp⟩
        · rintro (hb | ⟨y, hy, hp⟩)
          · exact .inl hb
          · rcases List.mem_cons.mp hy with rfl | hy
            · -- what the item skipped leads to is found from what is visited
              have hfound : Closed canon next [] found := by
                intro a ha c hac
                rw [hiff] at ha ⊢
                rcases ha with ha | ⟨z, hz, hpz⟩
                · rcases hc.skip hmem a ha c hac with hcv | hcq
                  · exact .inl (.inl hcv)
                  · obtain ⟨z, hz, rfl⟩ := List.mem_map.mp hcq
                    exact .inl (.inr ⟨z, hz, .refl⟩)
                · exact .inl (.inr ⟨z, hz, hpz.tail hac⟩)
              exact (hiff b).mp (hfound.mem_of_path ((hiff _).mpr (.inl hmem)) hp)
            · exact .inr ⟨y, hy, hp⟩
      · rename_i hmem
        rw [potential_visit hx hmem] at hk
        have hq' : ∀ y ∈ queue ++ next (canon x), canon y ∈ nodes := by
          intro y hy
          rcases List.mem_append.mp hy with hy | hy
          · exact hrest y hy
          · exact hnext _ hx y hy
        have hnd' : (visited ++ [canon x]).Nodup := by
          rw [List.nodup_append]
          refine ⟨hv, List.nodup_singleton _, ?_⟩
          intro a ha b hb hab
          rw [List.mem_singleton.mp hb] at hab
          exact hmem (hab ▸ ha)
        obtain ⟨found, hs, hnd, hiff⟩ := ih hq' (by omega) hnd' hc.visit
        refine ⟨found, hs, hnd, fun b => ?_⟩
        rw [hiff, List.mem_append, List.mem_singleton]
        constructor
        · rintro ((hb | rfl) | ⟨y, hy, hp⟩)
          · exact .inl hb
          · exact .inr ⟨x, List.mem_cons_self, .refl⟩
          · rcases List.mem_append.mp hy with hy | hy
            · exact .inr ⟨y, List.mem_cons_of_mem x hy, hp⟩
            · exact .inr ⟨x, List.mem_cons_self, .head ⟨y, hy, rfl⟩ hp⟩
        · rintro (hb | ⟨y, hy, hp⟩)
          · exact .inl (.inl hb)
          · rcases List.mem_cons.mp hy with rfl | hy
            · rcases Relation.ReflTransGen.cases_head hp with rfl | ⟨c, ⟨z, hz, rfl⟩, hp⟩
              · exact .inl (.inr rfl)
              · exact .inr ⟨z, List.mem_append_right _ hz, hp⟩
            · exact .inr ⟨y, List.mem_append_left _ hy, hp⟩

end MuslBsd.Support.Worklist
