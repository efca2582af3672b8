import MuslBsd.Argp.Keys
import Mathlib.Data.List.GetD

/-! The groups that `parser_convert` makes, and the inputs that `parser_init` passes down to them. -/
namespace MuslBsd.Argp
open MuslBsd.Support

variable {π σ : Type}

/-! ### The tree -/

/-- Groups in pre-order: each one comes after its parent, in which it has a slot. -/
structure Made (groups : List (Group π)) : Prop where
  linked : ∀ (c : ℕ) (group : Group π), groups[c]? = some group → ∀ p, group.parent = some p →
    p < c ∧ ∃ parent : Group π, groups[p]? = some parent ∧ group.parentIndex < parent.numChildren
  blank : ∀ group ∈ groups, group.argsProcessed = 0 ∧ group.childInputs = fun _ => 0

theorem Made.nil : Made ([] : List (Group π)) := by
  constructor
  · intro c group h
    cases h
  · intro group h
    cases h

/-- One more group, under a parent that is there already. -/
theorem Made.snoc {groups : List (Group π)} {group : Group π} (h : Made groups)
    (hp : ∀ p, group.parent = some p →
      ∃ parent, groups[p]? = some parent ∧ group.parentIndex < parent.numChildren)
    (hb : group.argsProcessed = 0 ∧ group.childInputs = fun _ => 0) :
    Made (groups ++ [group]) := by
  have hold : ∀ {p : ℕ} {parent : Group π}, groups[p]? = some parent → (groups ++ [group])[p]? = some parent := by
    intro p parent hparent
    have hlt : p < groups.length := (List.getElem?_eq_some_iff.mp hparent).1
    rw [List.getElem?_append_left hlt]
    exact hparent
  constructor
  · intro c group' hc p hparent
    rcases Nat.lt_or_ge c groups.length with hlt | hge
    · rw [List.getElem?_append_left hlt] at hc
      obtain ⟨hpc, parent, hget, hindex⟩ := h.linked c group' hc p hparent
      exact ⟨hpc, parent, hold hget, hindex⟩
    · rw [List.getElem?_append_right hge] at hc
      have hgroup : group' = group := by
        have hmem := List.mem_of_getElem? hc
        exact List.mem_singleton.mp hmem
      subst hgroup
      obtain ⟨parent, hget, hindex⟩ := hp p hparent
      have hlt : p < groups.length := (List.getElem?_eq_some_iff.mp hget).1
      exact ⟨by omega, parent, hold hget, hindex⟩
  · intro group' hmem
    rcases List.mem_append.mp hmem with hmem | hmem
    · exact h.blank group' hmem
    · rw [List.mem_singleton.mp hmem]
      exact hb

theorem bind_eq_ok {α β : Type} {x : Except Fault α} {f : α → Except Fault β} {b : β} :
    x >>= f = .ok b ↔ ∃ a, x = .ok a ∧ f a = .ok b := by
  cases x with
  | error e => simp [bind, Except.bind]
  | ok a => simp [bind, Except.bind]

/-- What `convert_options` adds keeps the groups in order. -/
structure Converts (cvt cvt' : Converted π) : Prop where
  extends_ : cvt.groups <+: cvt'.groups
  made : Made cvt.groups → Made cvt'.groups

theorem Converts.refl (cvt : Converted π) : Converts cvt cvt := ⟨List.prefix_rfl, id⟩

theorem Converts.trans {cvt cvt' cvt'' : Converted π} (h : Converts cvt cvt')
    (h' : Converts cvt' cvt'') : Converts cvt cvt'' :=
  ⟨h.extends_.trans h'.extends_, fun hm => h'.made (h.made hm)⟩

/-- The slots from `index` to `index + n` of a parent are there. -/
def HasSlots (groups : List (Group π)) (parent : Option ℕ) (index n : ℕ) : Prop :=
  ∀ p, parent = some p → ∃ group, groups[p]? = some group ∧ index + n ≤ group.numChildren

theorem HasSlots.extend {groups groups' : List (Group π)} {parent : Option ℕ} {index n : ℕ}
    (h : HasSlots groups parent index n) (hpre : groups <+: groups') :
    HasSlots groups' parent index n := by
  intro p hp
  obtain ⟨group, hget, hle⟩ := h p hp
  obtain ⟨rest, rfl⟩ := hpre
  have hlt : p < groups.length := (List.getElem?_eq_some_iff.mp hget).1
  refine ⟨group, ?_, hle⟩
  rw [List.getElem?_append_left hlt]
  exact hget

mutual

theorem convertOptions_made (longOnly : Bool) : ∀ (argp : Argp π) (parent : Option ℕ)
    (parentIndex : ℕ) (cvt cvt' : Converted π),
    convertOptions longOnly argp parent parentIndex cvt = .ok cvt' →
    HasSlots cvt.groups parent parentIndex 1 → Converts cvt cvt'
  | .node options parser children, parent, parentIndex, cvt, cvt', h, hslots => by
    unfold convertOptions at h
    split at h
    · obtain ⟨short, -, h⟩ := bind_eq_ok.mp h
      have hchildren := convertChildren_made longOnly children _ _ _ cvt' h (by
        intro p hp
        cases hp
        refine ⟨_, List.getElem?_concat_length, ?_⟩
        exact (Nat.zero_add _).le)
      have hgroup : Converts cvt
          { groups :=
              cvt.groups ++ [newGroup options parser children.length parent parentIndex]
            shortOpts := cvt.shortOpts ++ short
            childInputs := cvt.childInputs + children.length } := by
        refine ⟨List.prefix_append _ _, fun hm => hm.snoc ?_ ⟨rfl, rfl⟩⟩
        intro p hp
        obtain ⟨parent, hget, hle⟩ := hslots p hp
        exact ⟨parent, hget, hle⟩
      exact hgroup.trans hchildren
    · exact convertChildren_made longOnly children none 0 cvt cvt' h fun p hp => by cases hp

theorem convertChildren_made (longOnly : Bool) : ∀ (children : List (Argp π)) (parent : Option ℕ)
    (index : ℕ) (cvt cvt' : Converted π),
    convertChildren longOnly children parent index cvt = .ok cvt' →
    HasSlots cvt.groups parent index children.length → Converts cvt cvt'
  | [], parent, index, cvt, cvt', h, _ => by
    unfold convertChildren at h
    cases h
    exact .refl cvt
  | child :: children, parent, index, cvt, cvt', h, hslots => by
    unfold convertChildren at h
    obtain ⟨cvt₁, hchild, h⟩ := bind_eq_ok.mp h
    rw [List.length_cons] at hslots
    have hfirst := convertOptions_made longOnly child parent index cvt cvt₁ hchild (by
      intro p hp
      obtain ⟨group, hget, hle⟩ := hslots p hp
      exact ⟨group, hget, by omega⟩)
    have hrest := convertChildren_made longOnly children parent (index + 1) cvt₁ cvt' h (by
      apply HasSlots.extend ?_ hfirst.extends_
      intro p hp
      obtain ⟨group, hget, hle⟩ := hslots p hp
      exact ⟨group, hget, by omega⟩)
    exact hfirst.trans hrest

end

theorem parserConvert_made {longOnly : Bool} {argp : Option (Argp π)} {cvt : Converted π}
    (h : parserConvert longOnly argp = .ok cvt) : Made cvt.groups := by
  unfold parserConvert at h
  cases argp with
  | none =>
    cases h
    exact .nil
  | some argp =>
    obtain ⟨cvt', hcvt, h⟩ := bind_eq_ok.mp h
    have hmade := convertOptions_made longOnly argp none 0 _ cvt' hcvt fun p hp => by cases hp
    split at h
    · cases h
      exact hmade.made .nil
    · cases h

/-! ### The first calls -/

/-- What the loop of `parser_init` has done when it has gone over the first `k` groups. -/
structure Initialized (k : ℕ) (s : Parser π σ) (acts : List Act) : Prop where
  order : (callsOf acts).map Call.group =
    (List.range k).filter fun g => (s.groups g).parser.isSome
  calls : ∀ c ∈ callsOf acts, c.key = .init ∧ c.input = (s.groups c.group).input ∧
    c.childInputs = (s.groups c.group).childInputs
  inputs : ∀ g, g < k → .inputs g (s.groups g).input ∈ acts
  only : ∀ g v, .inputs g v ∈ acts → g < k ∧ v = (s.groups g).input
  passed : ∀ g, g < k → (s.groups g).parser = none → ∀ j, j < (s.groups g).numChildren →
    (s.groups g).childInputs j = if j = 0 then (s.groups g).input else 0
  fresh : ∀ g, k ≤ g → (s.groups g).childInputs = fun _ => 0
  inherited : ∀ g, g < k → ∀ p, (s.groups g).parent = some p →
    (s.groups g).input = (s.groups p).childInputs (s.groups g).parentIndex
  recorded : Recorded acts
  uncounted : ∀ g, taken g acts = 0

/-- Only the groups matter. -/
theorem Initialized.of_groups {k : ℕ} {s s' : Parser π σ} {acts : List Act}
    (h : Initialized k s acts) (hg : s'.groups = s.groups) : Initialized k s' acts where
  order := by rw [hg]; exact h.order
  calls := by rw [hg]; exact h.calls
  inputs := by rw [hg]; exact h.inputs
  only := by rw [hg]; exact h.only
  passed := by rw [hg]; exact h.passed
  fresh := by rw [hg]; exact h.fresh
  inherited := by rw [hg]; exact h.inherited
  recorded := h.recorded
  uncounted := h.uncounted

/-- Every parent comes before its children. -/
def Ordered (s : Parser π σ) : Prop := ∀ g p, (s.groups g).parent = some p → p < g

theorem Kept.ordered {s s' : Parser π σ} (h : Kept s s') (ho : Ordered s) : Ordered s' := by
  intro g p hp
  rw [(h.groups g).parent] at hp
  exact ho g p hp

/-- One round of the loop of `parser_init`. -/
structure Inits (k : ℕ) (s s' : Parser π σ) (acts : List Act) : Prop where
  still : Still s s'
  framed : Framed s s'
  others : ∀ g, g ≠ k → s'.groups g = s.groups g
  input : (s'.groups k).input = s.inputOf k
  idle : (s.groups k).parser = none →
    acts = [.inputs k (s.inputOf k)] ∧ (s'.groups k).childInputs = s.slotsOf k
  called : (s.groups k).parser ≠ none → ∃ c, acts = [.inputs k (s.inputOf k), .calls c] ∧
    c.group = k ∧ c.key = .init ∧ c.input = s.inputOf k ∧
    c.childInputs = (s'.groups k).childInputs

theorem init_run (E : Env π σ) (k : ℕ) (s : Parser π σ) :
    ∃ err s' acts, initGroup E k s = (.ok err, s', acts) ∧ Inits k s s' acts := by
  let group : Group π := { s.groups k with input := s.inputOf k, childInputs := s.slotsOf k }
  let s₁ : Parser π σ := { s with groups := Function.update s.groups k group }
  have hfirst : initInput k s = (.ok (), s₁, [.inputs k (s.inputOf k)]) := rfl
  have hgroup : s₁.groups k = group := Function.update_self ..
  have hothers : ∀ g, g ≠ k → s₁.groups g = s.groups g := fun g hg => Function.update_of_ne hg ..
  have hstill₁ : Still s s₁ := by
    have hnum : s₁.numGroups = s.numGroups := rfl
    have hset : s₁.groups = Function.update s.groups k group := rfl
    apply Still.of_update hnum hset
    · exact ⟨rfl, rfl, rfl, rfl, rfl⟩
    · rfl
  have hparser : (s₁.groups k).parser = (s.groups k).parser := by rw [hgroup]
  unfold initGroup
  rw [Faulting.bind_ok hfirst]
  cases hp : (s.groups k).parser with
  | none =>
    have hnone : (s₁.groups k).parser = none := hparser.trans hp
    rw [groupParse_none hnone]
    refine ⟨_, s₁, _, rfl, hstill₁, rfl, hothers, ?_, fun _ => ⟨rfl, ?_⟩, fun h => (h hp).elim⟩
    · rw [hgroup]
    · rw [hgroup]
  | some parser =>
    have hsome : (s₁.groups k).parser = some parser := hparser.trans hp
    rw [groupParse_some hsome]
    refine ⟨_, _, _, rfl, hstill₁.trans (s₁.answered_still k _), rfl, ?_, ?_, ?_, ?_⟩
    · intro g hg
      rw [← hothers g hg]
      exact Function.update_of_ne hg ..
    · show (Function.update s₁.groups k _ k).input = _
      rw [Function.update_self, hgroup]
    · intro hnone
      rw [hp] at hnone
      cases hnone
    · intro _
      refine ⟨_, rfl, rfl, rfl, ?_, ?_⟩
      · show (s₁.groups k).input = _
        rw [hgroup]
      · show _ = (Function.update s₁.groups k _ k).childInputs
        rw [Function.update_self]
        rfl

theorem Initialized.none {s : Parser π σ} (hfresh : ∀ g, (s.groups g).childInputs = fun _ => 0) :
    Initialized 0 s [] where
  order := rfl
  calls _ hc := (List.not_mem_nil hc).elim
  inputs _ hg := (Nat.not_lt_zero _ hg).elim
  only _ _ hv := (List.not_mem_nil hv).elim
  passed _ hg := (Nat.not_lt_zero _ hg).elim
  fresh g _ := hfresh g
  inherited _ hg := (Nat.not_lt_zero _ hg).elim
  recorded := trivial
  uncounted _ := rfl

section

variable {k : ℕ} {s s' : Parser π σ} {acts : List Act}

/-- A round calls the group, if it has a parser. -/
theorem Inits.groups (h : Inits k s s' acts) :
    (callsOf acts).map Call.group = [k].filter fun g => (s.groups g).parser.isSome := by
  cases hp : (s.groups k).parser with
  | none =>
    rw [(h.idle hp).1]
    simp [callsOf, Act.call?, hp]
  | some parser =>
    obtain ⟨c, hacts, hc, -⟩ := h.called (by simp [hp])
    rw [hacts]
    show [c.group] = _
    rw [hc]
    simp [hp]

theorem Inits.calls (h : Inits k s s' acts) : ∀ c ∈ callsOf acts, c.group = k ∧ c.key = .init ∧
    c.input = (s'.groups k).input ∧ c.childInputs = (s'.groups k).childInputs := by
  intro c hc
  cases hp : (s.groups k).parser with
  | none =>
    rw [(h.idle hp).1] at hc
    cases hc
  | some parser =>
    obtain ⟨c', hacts, hg, hkey, hinput, hslots⟩ := h.called (by simp [hp])
    rw [hacts] at hc
    have hcc := List.mem_singleton.mp hc
    rw [hcc]
    exact ⟨hg, hkey, hinput.trans h.input.symm, hslots⟩

theorem Inits.inputs (h : Inits k s s' acts) (g : ℕ) (v : Ptr) :
    .inputs g v ∈ acts ↔ g = k ∧ v = s.inputOf k := by
  cases hp : (s.groups k).parser with
  | none =>
    rw [(h.idle hp).1]
    simp
  | some parser =>
    obtain ⟨c, hacts, -⟩ := h.called (by simp [hp])
    rw [hacts]
    simp

theorem Inits.recorded (h : Inits k s s' acts) : Recorded acts := by
  cases hp : (s.groups k).parser with
  | none =>
    rw [(h.idle hp).1]
    trivial
  | some parser =>
    obtain ⟨c, hacts, -, hkey, -⟩ := h.called (by simp [hp])
    rw [hacts]
    refine ⟨fun _ => ⟨fun hk => ?_, fun hk => ?_⟩, trivial⟩
    · rw [hkey] at hk
      cases hk
    · rw [hkey] at hk
      cases hk

theorem Inits.uncounted (h : Inits k s s' acts) (g : ℕ) : taken g acts = 0 := by
  cases hp : (s.groups k).parser with
  | none =>
    rw [(h.idle hp).1]
    rfl
  | some parser =>
    obtain ⟨c, hacts, -⟩ := h.called (by simp [hp])
    rw [hacts]
    rfl

/-- By cases on whether a group is the one of this round; no parent is. -/
theorem Initialized.step {before : List Act} (h : Initialized k s before)
    (hstep : Inits k s s' acts) (ho : Ordered s) : Initialized (k + 1) s' (before ++ acts) := by
  have hkept : Kept s s' := hstep.still.toKept
  have hold : ∀ c ∈ callsOf before, c.group ≠ k := by
    intro c hc heq
    have hmem : c.group ∈ (callsOf before).map Call.group := List.mem_map_of_mem hc
    rw [h.order, List.mem_filter, List.mem_range, heq] at hmem
    exact (lt_irrefl k) hmem.1
  have hsplit : ∀ {g : ℕ}, g < k + 1 → g ≠ k → g < k := by
    intro g hlt hne
    omega
  constructor
  case order =>
    have hsame : (fun g => (s'.groups g).parser.isSome) = fun g => (s.groups g).parser.isSome := by
      funext g
      rw [hkept.parser g]
    rw [callsOf_append, List.map_append, h.order, hstep.groups, hsame, List.range_succ,
      List.filter_append]
  case calls =>
    intro c hc
    rw [callsOf_append] at hc
    rcases List.mem_append.mp hc with hc | hc
    · rw [hstep.others c.group (hold c hc)]
      exact h.calls c hc
    · obtain ⟨hg, hkey, hrest⟩ := hstep.calls c hc
      rw [hg]
      exact ⟨hkey, hrest⟩
  case inputs =>
    intro g hlt
    rw [List.mem_append]
    rcases eq_or_ne g k with rfl | hne
    · right
      rw [hstep.inputs]
      exact ⟨rfl, hstep.input⟩
    · left
      rw [hstep.others g hne]
      exact h.inputs g (hsplit hlt hne)
  case only =>
    intro g v hmem
    rcases List.mem_append.mp hmem with hmem | hmem
    · obtain ⟨hlt, hv⟩ := h.only g v hmem
      rw [hstep.others g (by omega)]
      exact ⟨by omega, hv⟩
    · obtain ⟨rfl, hv⟩ := (hstep.inputs g v).mp hmem
      exact ⟨by omega, hv.trans hstep.input.symm⟩
  case passed =>
    intro g hlt hnone j hj
    rw [hkept.parser g] at hnone
    rw [(hkept.groups g).numChildren] at hj
    rcases eq_or_ne g k with rfl | hne
    · have hslots : s.slotsOf g = Function.update (fun _ => 0) 0 (s.inputOf g) := by
        unfold Parser.slotsOf
        rw [h.fresh g (le_refl g), if_pos ⟨by rw [hnone]; rfl, by omega⟩]
      rw [(hstep.idle hnone).2, hslots, hstep.input]
      rcases eq_or_ne j 0 with rfl | hj0
      · rw [Function.update_self, if_pos rfl]
      · rw [Function.update_of_ne hj0, if_neg hj0]
    · rw [hstep.others g hne]
      exact h.passed g (hsplit hlt hne) hnone j hj
  case fresh =>
    intro g hle
    rw [hstep.others g (by omega)]
    exact h.fresh g (by omega)
  case inherited =>
    intro g hlt p hp
    rw [(hkept.groups g).parent] at hp
    have hpg := ho g p hp
    rcases eq_or_ne g k with rfl | hne
    · rw [(hkept.groups g).parentIndex, hstep.others p (by omega), hstep.input]
      unfold Parser.inputOf
      rw [hp]
    · rw [hstep.others g hne, hstep.others p (by omega)]
      exact h.inherited g (hsplit hlt hne) p hp
  case recorded => exact h.recorded.append hstep.recorded
  case uncounted =>
    intro g
    rw [taken_append, h.uncounted g, hstep.uncounted g]

end

/-- By induction on the groups that are left; the loop goes on only while nothing has failed. -/
theorem initGroups_run (E : Env π σ) (n k : ℕ) (err : ℤ) (s : Parser π σ) (before : List Act)
    (h : err = 0 ∨ err = EBADKEY → Initialized k s before) (ho : Ordered s) :
    ∃ err' s' acts, initGroups E (List.range' k n) err s = (.ok err', s', acts) ∧ Still s s' ∧
      Framed s s' ∧ (err' = 0 ∨ err' = EBADKEY → Initialized (k + n) s' (before ++ acts)) := by
  induction n generalizing k err s before with
  | zero =>
    refine ⟨err, s, [], rfl, .refl s, rfl, ?_⟩
    rw [List.append_nil]
    exact h
  | succ n ih =>
    rw [List.range'_succ]
    unfold initGroups
    by_cases herr : err = 0 ∨ err = EBADKEY
    · rw [if_pos herr]
      obtain ⟨err₁, s₁, acts₁, hrun, hinits⟩ := init_run E k s
      obtain ⟨err', s', acts, hrest, hstill, hframed, hdone⟩ := ih (k + 1) err₁ s₁ (before ++ acts₁)
        (fun _ => (h herr).step hinits ho) (hinits.still.toKept.ordered ho)
      rw [Faulting.bind_ok hrun, hrest]
      refine ⟨err', s', _, rfl, hinits.still.trans hstill, hinits.framed.trans hframed, ?_⟩
      rw [← List.append_assoc, show k + (n + 1) = k + 1 + n by omega]
      exact hdone
    · rw [if_neg herr]
      exact ⟨err, s, [], rfl, .refl s, rfl, fun hbad => (herr hbad).elim⟩

/-! ### `parser_init` -/

/-- Where the parsing loop starts. -/
structure Started (groups : List (Group π)) (s : Parser π σ) (acts : List Act) : Prop where
  made : Made groups
  numGroups : s.numGroups = groups.length
  alike : ∀ g, (groups.getD g .nil).Alike (s.groups g)
  uncounted : ∀ g, (s.groups g).argsProcessed = 0
  initialized : Initialized groups.length s acts
  nextchar : s.nextchar = none

theorem Made.getD (h : Made groups) (g : ℕ) :
    (groups.getD g (.nil : Group π)).argsProcessed = 0 ∧
      (groups.getD g (.nil : Group π)).childInputs = fun _ => 0 := by
  rcases Nat.lt_or_ge g groups.length with hlt | hge
  · rw [List.getD_eq_getElem _ _ hlt]
    exact h.blank _ (List.getElem_mem hlt)
  · rw [List.getD_eq_default _ _ hge]
    exact ⟨rfl, rfl⟩

theorem setUp_groups (E : Env π σ) (cvt : Converted π) (start : Start σ) (g : ℕ) :
    (cvt.groups.getD g .nil).Alike ((setUp E cvt start).groups g) ∧
      ((setUp E cvt start).groups g).argsProcessed = (cvt.groups.getD g .nil).argsProcessed ∧
      ((setUp E cvt start).groups g).childInputs = (cvt.groups.getD g .nil).childInputs := by
  unfold setUp
  dsimp only
  split
  · exact ⟨⟨rfl, rfl, rfl, rfl, rfl⟩, rfl, rfl⟩
  · exact ⟨.refl _, rfl, rfl⟩

theorem setUp_ordered (E : Env π σ) {cvt : Converted π} (h : Made cvt.groups) (start : Start σ) :
    Ordered (setUp E cvt start) := by
  intro g p hp
  rw [(setUp_groups E cvt start g).1.parent] at hp
  rcases Nat.lt_or_ge g cvt.groups.length with hlt | hge
  · rw [List.getD_eq_getElem _ _ hlt] at hp
    exact (h.linked g _ (List.getElem?_eq_getElem hlt) p hp).1
  · rw [List.getD_eq_default _ _ hge] at hp
    cases hp

theorem initParsers_run {E : Env π σ} {cvt : Converted π} {start : Start σ} {s : Parser π σ}
    {acts : List Act} (hmade : Made cvt.groups)
    (h : initParsers E start.argv (setUp E cvt start) = (.ok 0, s, acts)) :
    Started cvt.groups s acts := by
  have hfresh : ∀ g, ((setUp E cvt start).groups g).childInputs = fun _ => 0 := fun g =>
    (setUp_groups E cvt start g).2.2.trans (hmade.getD g).2
  obtain ⟨err, s₁, acts₁, hrun, hstill, hframed, hdone⟩ := initGroups_run E cvt.groups.length 0 0
    (setUp E cvt start) [] (fun _ => .none hfresh) (setUp_ordered E hmade start)
  have hrange : List.range (setUp E cvt start).numGroups = List.range' 0 cvt.groups.length :=
    List.range_eq_range'
  unfold initParsers get at h
  rw [Faulting.gets_bind_run] at h
  simp only [id_eq] at h
  rw [hrange, Faulting.bind_ok hrun] at h
  by_cases herr : err = 0 ∨ err = EBADKEY
  · rw [if_pos herr] at h
    unfold skipName modify at h
    rw [Faulting.modify_bind_run] at h
    have hs : Still s₁ s ∧ Framed s₁ s ∧ acts = acts₁ ++ [] ∧ s.groups = s₁.groups := by
      have hstate := congrArg (·.2.1) h
      have hacts := congrArg (·.2.2) h
      dsimp only [Faulting.pure_run] at hstate hacts
      rw [← hstate, ← hacts]
      split
      · exact ⟨.of_groups rfl rfl, rfl, rfl, rfl⟩
      · exact ⟨.refl _, rfl, rfl, rfl⟩
    obtain ⟨hstill', hframed', hacts, hgroups⟩ := hs
    have hdone' := hdone herr
    rw [Nat.zero_add, List.nil_append] at hdone'
    rw [hacts, List.append_nil]
    constructor
    · exact hmade
    · rw [hstill'.numGroups, hstill.numGroups]
      rfl
    · intro g
      exact (setUp_groups E cvt start g).1.trans ((hstill.trans hstill').groups g)
    · intro g
      rw [(hstill.trans hstill').processed g, (setUp_groups E cvt start g).2.1]
      exact (hmade.getD g).1
    · exact hdone'.of_groups hgroups
    · rw [hframed'.nextchar, hframed.nextchar]
      rfl
  · rw [if_neg herr] at h
    have hval := congrArg (·.1) h
    exact (herr (.inl (Except.ok.inj hval))).elim

end MuslBsd.Argp
