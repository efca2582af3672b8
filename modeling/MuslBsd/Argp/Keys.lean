import MuslBsd.Argp.Parse
import Mathlib.Algebra.BigOperators.Group.List.Basic
import Mathlib.Data.Nat.ModEq

/-! The calls that a parse makes of the parsers, and what each part of `argp-parse.c` adds to them. -/
namespace MuslBsd.Argp
open MuslBsd.Support

variable {π σ : Type}

/-! ### Calls -/

def Act.call? : Act → Option Call
  | .calls c => some c
  | _ => none

def callsOf (acts : List Act) : List Call := acts.filterMap Act.call?

/-- The keys that a group is called with. -/
def keysOf (g : ℕ) (calls : List Call) : List Key :=
  (calls.filter fun c => c.group = g).map Call.key

/-- The groups that are called with a key. -/
def groupsOf (key : Key) (calls : List Call) : List ℕ :=
  (calls.filter fun c => c.key = key).map Call.group

/-- The keys of the parsing loop. -/
inductive Key.InParse : Key → Prop
  | option (key : ℤ) : Key.InParse (.option key)
  | arg : Key.InParse .arg
  | args : Key.InParse .args

/-- By how much a group has advanced `state->next`. -/
def Act.advance (g : ℕ) : Act → ℕ
  | .handled group index next => if group = g then (next - index).toNat else 0
  | _ => 0

/-- How many arguments a group has taken. -/
def taken (g : ℕ) (acts : List Act) : ℕ := (acts.map (Act.advance g)).sum

theorem callsOf_append (acts acts' : List Act) :
    callsOf (acts ++ acts') = callsOf acts ++ callsOf acts' := List.filterMap_append

theorem keysOf_append (g : ℕ) (calls calls' : List Call) :
    keysOf g (calls ++ calls') = keysOf g calls ++ keysOf g calls' := by
  simp [keysOf]

theorem groupsOf_append (key : Key) (calls calls' : List Call) :
    groupsOf key (calls ++ calls') = groupsOf key calls ++ groupsOf key calls' := by
  simp [groupsOf]

theorem taken_append (g : ℕ) (acts acts' : List Act) :
    taken g (acts ++ acts') = taken g acts + taken g acts' := by
  simp [taken]

theorem mem_callsOf {c : Call} {acts : List Act} : c ∈ callsOf acts ↔ .calls c ∈ acts := by
  unfold callsOf
  rw [List.mem_filterMap]
  constructor
  · intro h
    obtain ⟨a, ha, hc⟩ := h
    cases a <;> simp only [Act.call?, Option.some.injEq, reduceCtorEq] at hc
    subst hc
    exact ha
  · intro h
    exact ⟨_, h, rfl⟩

/-! ### What every step leaves alone -/

/-- The part of a group that comes from the tree. -/
structure Group.Alike (a b : Group π) : Prop where
  parser : b.parser = a.parser
  options : b.options = a.options
  numChildren : b.numChildren = a.numChildren
  parent : b.parent = a.parent
  parentIndex : b.parentIndex = a.parentIndex

theorem Group.Alike.refl (a : Group π) : a.Alike a := ⟨rfl, rfl, rfl, rfl, rfl⟩

theorem Group.Alike.trans {a b c : Group π} (h : a.Alike b) (h' : b.Alike c) : a.Alike c where
  parser := h'.parser.trans h.parser
  options := h'.options.trans h.options
  numChildren := h'.numChildren.trans h.numChildren
  parent := h'.parent.trans h.parent
  parentIndex := h'.parentIndex.trans h.parentIndex

/-- The groups stay what they are. -/
structure Kept (s s' : Parser π σ) : Prop where
  numGroups : s'.numGroups = s.numGroups
  groups : ∀ g, (s.groups g).Alike (s'.groups g)

/-- Also, no argument is counted. -/
structure Still (s s' : Parser π σ) : Prop extends Kept s s' where
  processed : ∀ g, (s'.groups g).argsProcessed = (s.groups g).argsProcessed

theorem Kept.refl (s : Parser π σ) : Kept s s := ⟨rfl, fun _ => .refl _⟩

theorem Kept.trans {s s' s'' : Parser π σ} (h : Kept s s') (h' : Kept s' s'') : Kept s s'' :=
  ⟨h'.numGroups.trans h.numGroups, fun g => (h.groups g).trans (h'.groups g)⟩

theorem Kept.parser {s s' : Parser π σ} (h : Kept s s') (g : ℕ) :
    (s'.groups g).parser = (s.groups g).parser := (h.groups g).parser

/-- A step that has nothing to do with the groups. -/
theorem Still.of_groups {s s' : Parser π σ} (hn : s'.numGroups = s.numGroups)
    (hg : s'.groups = s.groups) : Still s s' := by
  constructor
  · exact ⟨hn, fun g => by rw [hg]; exact .refl _⟩
  · intro g
    rw [hg]

theorem Still.refl (s : Parser π σ) : Still s s := .of_groups rfl rfl

theorem Still.trans {s s' s'' : Parser π σ} (h : Still s s') (h' : Still s' s'') : Still s s'' :=
  ⟨h.toKept.trans h'.toKept, fun g => (h'.processed g).trans (h.processed g)⟩

/-- A step that changes one group, and only what parsers may change in it. -/
theorem Still.of_update {s s' : Parser π σ} {g : ℕ} {group : Group π}
    (hn : s'.numGroups = s.numGroups) (hg : s'.groups = Function.update s.groups g group)
    (ha : (s.groups g).Alike group) (hp : group.argsProcessed = (s.groups g).argsProcessed) :
    Still s s' := by
  constructor
  · refine ⟨hn, fun g' => ?_⟩
    rw [hg]
    rcases eq_or_ne g' g with rfl | hne
    · rw [Function.update_self]
      exact ha
    · rw [Function.update_of_ne hne]
      exact .refl _
  · intro g'
    rw [hg]
    rcases eq_or_ne g' g with rfl | hne
    · rw [Function.update_self]
      exact hp
    · rw [Function.update_of_ne hne]

/-! ### `group_parse` -/

variable {E : Env π σ} {s s' : Parser π σ} {g : ℕ} {key : Key} {arg : Option CStr}

theorem groupParse_none (h : (s.groups g).parser = none) :
    groupParse E g key arg s = (.ok EBADKEY, s, []) := by
  unfold groupParse get
  rw [Faulting.gets_bind_run]
  simp only [id_eq, h]
  rfl

theorem groupParse_some {parser : π} (h : (s.groups g).parser = some parser) :
    groupParse E g key arg s =
      (.ok (reply E s g parser key arg).err, s.answered g (reply E s g parser key arg),
        [.calls (s.call g key arg (reply E s g parser key arg))]) := by
  unfold groupParse get
  rw [Faulting.gets_bind_run]
  simp only [id_eq, h]
  rfl

theorem Parser.answered_still (s : Parser π σ) (g : ℕ) (a : Answer σ) :
    Still s (s.answered g a) := by
  have hg : (s.answered g a).groups = Function.update s.groups g
      { s.groups g with childInputs := a.childInputs, hook := a.hook } := rfl
  apply Still.of_update ?_ hg
  · exact ⟨rfl, rfl, rfl, rfl, rfl⟩
  · rfl
  · rfl

/-- What no parser can touch stays as it is. -/
def Framed (s s' : Parser π σ) : Prop := s' =
  { s with
    groups := s'.groups, argv := s'.argv, next := s'.next, flags := s'.flags
    errStream := s'.errStream, world := s'.world }

theorem Framed.trans {s s' s'' : Parser π σ} (h : Framed s s') (h' : Framed s' s'') :
    Framed s s'' := by
  unfold Framed at h h' ⊢
  rw [h', h]

theorem Framed.nextchar {s s' : Parser π σ} (h : Framed s s') : s'.nextchar = s.nextchar :=
  Eq.trans (congrArg Parser.nextchar (show s' = _ from h)) rfl

theorem Framed.argsOnly {s s' : Parser π σ} (h : Framed s s') : s'.argsOnly = s.argsOnly :=
  Eq.trans (congrArg Parser.argsOnly (show s' = _ from h)) rfl

/-- What a call of a group adds: nothing without a parser, else one call. -/
structure Called (E : Env π σ) (g : ℕ) (key : Key) (arg : Option CStr) (s : Parser π σ) (err : ℤ)
    (s' : Parser π σ) (acts : List Act) : Prop where
  still : Still s s'
  idle : (s.groups g).parser = none → err = EBADKEY ∧ s' = s ∧ acts = []
  answer : ∀ parser, (s.groups g).parser = some parser →
    ∃ a, a = reply E s g parser key arg ∧ err = a.err ∧ s' = s.answered g a ∧
      acts = [.calls (s.call g key arg a)]

theorem groupParse_run (E : Env π σ) (g : ℕ) (key : Key) (arg : Option CStr) (s : Parser π σ) :
    ∃ err s' acts, groupParse E g key arg s = (.ok err, s', acts) ∧
      Called E g key arg s err s' acts := by
  cases hp : (s.groups g).parser with
  | none =>
    refine ⟨_, _, _, groupParse_none hp, .refl s, fun _ => ⟨rfl, rfl, rfl⟩, ?_⟩
    intro parser h
    rw [hp] at h
    cases h
  | some parser =>
    refine ⟨_, _, _, groupParse_some hp, s.answered_still g _, ?_, ?_⟩
    · intro h
      rw [hp] at h
      cases h
    · intro parser' h
      rw [hp] at h
      cases h
      exact ⟨_, rfl, rfl, rfl, rfl⟩

/-- There are no acts but the call of this group. -/
theorem Called.acts {err : ℤ} {acts : List Act} (h : Called E g key arg s err s' acts) :
    acts = [] ∧ err = EBADKEY ∨
      ∃ c, acts = [.calls c] ∧ c.group = g ∧ c.key = key ∧ c.err = err ∧ c.after = s'.next ∧
        c.argc = s'.argc ∧ c.arg = arg := by
  cases hp : (s.groups g).parser with
  | none =>
    have hidle := h.idle hp
    exact .inl ⟨hidle.2.2, hidle.1⟩
  | some parser =>
    obtain ⟨a, -, herr, hs, hacts⟩ := h.answer parser hp
    right
    subst hs
    exact ⟨_, hacts, rfl, rfl, herr.symm, rfl, rfl, rfl⟩

theorem Called.framed {err : ℤ} {acts : List Act} (h : Called E g key arg s err s' acts) :
    Framed s s' := by
  cases hp : (s.groups g).parser with
  | none =>
    rw [(h.idle hp).2.1]
    rfl
  | some parser =>
    obtain ⟨a, -, -, hs, -⟩ := h.answer parser hp
    rw [hs]
    rfl

/-! ### Arguments -/

/-- Every successful call with an argument is followed by what it has taken. -/
def Recorded : List Act → Prop
  | [] => True
  | .calls c :: acts =>
    (c.err = 0 → (c.key = .arg → ∃ index, acts.head? = some (.handled c.group index c.after)) ∧
      (c.key = .args → ∃ index, acts.head? = some (.handled c.group index c.argc))) ∧ Recorded acts
  | _ :: acts => Recorded acts

theorem Recorded.append {acts acts' : List Act} (h : Recorded acts) (h' : Recorded acts') :
    Recorded (acts ++ acts') := by
  induction acts with
  | nil => exact h'
  | cons a acts ih =>
    cases a with
    | calls c =>
      refine ⟨fun herr => ?_, ih h.2⟩
      cases acts with
      | nil =>
        constructor
        · intro hkey
          have hnone := (h.1 herr).1 hkey
          simp at hnone
        · intro hkey
          have hnone := (h.1 herr).2 hkey
          simp at hnone
      | cons a acts => exact h.1 herr
    | _ => exact ih h

/-- Calls that have all been refused. -/
structure Refused (acts : List Act) : Prop where
  calls : ∀ a ∈ acts, ∃ c, a = .calls c ∧ c.err ≠ 0 ∧ c.key.InParse

theorem Refused.nil : Refused [] := ⟨fun _ ha => (List.not_mem_nil ha).elim⟩

theorem Refused.append {acts acts' : List Act} (h : Refused acts) (h' : Refused acts') :
    Refused (acts ++ acts') := by
  constructor
  intro a ha
  rcases List.mem_append.mp ha with ha | ha
  · exact h.calls a ha
  · exact h'.calls a ha

theorem Refused.recorded {acts : List Act} (h : Refused acts) : Recorded acts := by
  induction acts with
  | nil => trivial
  | cons a acts ih =>
    obtain ⟨c, rfl, herr, -⟩ := h.calls a List.mem_cons_self
    refine ⟨fun hc => (herr hc).elim, ih ⟨?_⟩⟩
    intro b hb
    exact h.calls b (List.mem_cons_of_mem _ hb)

/-- What the loop of `parser_parse_arg` does: one group takes the argument, or none. -/
structure Tries (s : Parser π σ) (acts : List Act) (tried : Tried) (s' : Parser π σ) : Prop where
  still : Still s s'
  framed : Framed s s'
  refused : tried.err ≠ 0 → Refused acts
  taken : tried.err = 0 → ∃ acts' c, acts = acts' ++ [.calls c] ∧ Refused acts' ∧
    c.group = tried.last ∧ c.key = tried.key ∧ c.err = 0 ∧ c.after = s'.next ∧ c.argc = s'.argc
  key : tried.err = 0 → tried.key = .arg ∨ tried.key = .args

theorem Tries.after {s₀ s s' : Parser π σ} {before acts : List Act} {tried : Tried}
    (h : Tries s acts tried s') (hs : Still s₀ s) (hf : Framed s₀ s) (hb : Refused before) :
    Tries s₀ (before ++ acts) tried s' := by
  constructor
  · exact hs.trans h.still
  · exact hf.trans h.framed
  · intro herr
    exact hb.append (h.refused herr)
  · intro herr
    obtain ⟨acts', c, rfl, hr, hc⟩ := h.taken herr
    refine ⟨before ++ acts', c, ?_, hb.append hr, hc⟩
    rw [List.append_assoc]
  · exact h.key

theorem Called.tries {err : ℤ} {acts : List Act} (h : Called E g key arg s err s' acts)
    (hkey : key = .arg ∨ key = .args) : Tries s acts ⟨err, key, g⟩ s' := by
  have hparse : key.InParse := by
    rcases hkey with rfl | rfl
    · exact .arg
    · exact .args
  constructor
  · exact h.still
  · exact h.framed
  · intro herr
    constructor
    rcases h.acts with ⟨rfl, -⟩ | ⟨c, rfl, -, hc, hce, -⟩
    · intro a ha
      cases ha
    · intro a ha
      have hac := List.mem_singleton.mp ha
      exact ⟨c, hac, hce ▸ herr, hc ▸ hparse⟩
  · intro herr
    rcases h.acts with ⟨-, hbad⟩ | ⟨c, rfl, hg, hc, hce, hafter, hargc, -⟩
    · rw [hbad] at herr
      cases herr
    · exact ⟨[], c, rfl, .nil, hg, hc, hce.trans herr, hafter, hargc⟩
  · intro _
    exact hkey

theorem EBADKEY_ne : EBADKEY ≠ 0 := by decide

/-- By induction on the groups that are left: those before have refused twice. -/
theorem tryParsers_run (E : Env π σ) (val : CStr) (gs : List ℕ) (s : Parser π σ) :
    ∃ tried s' acts, tryParsers E val gs s = (.ok tried, s', acts) ∧ Tries s acts tried s' := by
  induction gs generalizing s with
  | nil =>
    refine ⟨_, _, _, rfl, .refl s, rfl, fun _ => .nil, ?_, ?_⟩
    · intro herr
      exact (EBADKEY_ne herr).elim
    · intro herr
      exact (EBADKEY_ne herr).elim
  | cons g gs ih =>
    have hup : Still s { s with next := s.next + 1 } := .of_groups rfl rfl
    obtain ⟨err, s₁, acts, hrun, hcalled⟩ :=
      groupParse_run E g .arg (some val) { s with next := s.next + 1 }
    have htries := hcalled.tries (.inl rfl)
    unfold tryParsers
    unfold modify
    rw [Faulting.modify_bind_run, Faulting.bind_ok hrun]
    by_cases herr : err = EBADKEY
    · rw [if_pos herr]
      have hrefused : Refused acts := htries.refused (herr ▸ EBADKEY_ne)
      have hdown : Still s₁ { s₁ with next := s₁.next - 1 } := .of_groups rfl rfl
      have hstill := (hup.trans htries.still).trans hdown
      have hframed : Framed s { s₁ with next := s₁.next - 1 } := by
        have hf := htries.framed
        unfold Framed at hf ⊢
        rw [hf]
      obtain ⟨err', s₂, acts', hrun', hcalled'⟩ :=
        groupParse_run E g .args none { s₁ with next := s₁.next - 1 }
      have htries' := hcalled'.tries (.inr rfl)
      rw [Faulting.modify_bind_run, Faulting.bind_ok hrun']
      by_cases herr' : err' = EBADKEY
      · rw [if_pos herr']
        have hrefused' : Refused acts' := htries'.refused (herr' ▸ EBADKEY_ne)
        obtain ⟨tried, s₃, rest, hrest, ht⟩ := ih s₂
        rw [hrest]
        refine ⟨tried, s₃, _, rfl, ?_⟩
        exact (ht.after htries'.still htries'.framed hrefused').after hstill hframed hrefused
      · rw [if_neg herr']
        refine ⟨_, s₂, _, rfl, ?_⟩
        have hall := htries'.after hstill hframed hrefused
        simpa using hall
    · rw [if_neg herr]
      refine ⟨_, s₁, _, rfl, ?_⟩
      have hall := htries.after hup rfl .nil
      simpa using hall

/-! ### The parsing loop -/

/-- What the parsing loop does from one state to another. -/
structure Parses (s : Parser π σ) (acts : List Act) (s' : Parser π σ) : Prop where
  kept : Kept s s'
  processed : ∀ g, (s'.groups g).argsProcessed ≡
    (s.groups g).argsProcessed + taken g acts [MOD 2 ^ 32]
  parsed : ∀ c ∈ callsOf acts, c.key.InParse
  recorded : Recorded acts
  noInputs : ∀ g v, .inputs g v ∉ acts
  noFinalizes : ∀ next argv, .finalizes next argv ∉ acts

theorem Parses.trans {s s' s'' : Parser π σ} {acts acts' : List Act} (h : Parses s acts s')
    (h' : Parses s' acts' s'') : Parses s (acts ++ acts') s'' := by
  constructor
  · exact h.kept.trans h'.kept
  · intro g
    rw [taken_append, ← Nat.add_assoc]
    exact (h'.processed g).trans ((h.processed g).add_right _)
  · intro c hc
    rw [callsOf_append] at hc
    rcases List.mem_append.mp hc with hc | hc
    · exact h.parsed c hc
    · exact h'.parsed c hc
  · exact h.recorded.append h'.recorded
  · intro g v hmem
    rcases List.mem_append.mp hmem with hmem | hmem
    · exact h.noInputs g v hmem
    · exact h'.noInputs g v hmem
  · intro next argv hmem
    rcases List.mem_append.mp hmem with hmem | hmem
    · exact h.noFinalizes next argv hmem
    · exact h'.noFinalizes next argv hmem

theorem Still.parses {s s' : Parser π σ} (h : Still s s') : Parses s [] s' := by
  constructor
  · exact h.toKept
  · intro g
    rw [h.processed g]
    rfl
  · intro c hc
    cases hc
  · trivial
  · intro g v hmem
    cases hmem
  · intro next argv hmem
    cases hmem

theorem parses_sequential : Faulting.Sequential (@Parses π σ) where
  refl s := (Still.refl s).parses
  trans := Parses.trans

section

open Faulting (Follows)

theorem parses_pure {α : Type} (a : α) : Follows (@Parses π σ) (pure a : ParserM π σ α) :=
  .pure parses_sequential a

theorem parses_fail {α : Type} (f : Fault) : Follows (@Parses π σ) (fail f : ParserM π σ α) :=
  .stop parses_sequential f

theorem parses_get : Follows (@Parses π σ) get := .gets parses_sequential id

theorem parses_bind {α β : Type} {m : ParserM π σ α} {f : α → ParserM π σ β}
    (h : Follows Parses m) (hf : ∀ a, Follows Parses (f a)) : Follows Parses (m >>= f) :=
  .bind parses_sequential h hf

/-- A step that has nothing to do with the groups. -/
theorem parses_modify {f : Parser π σ → Parser π σ} (hn : ∀ s, (f s).numGroups = s.numGroups)
    (hg : ∀ s, (f s).groups = s.groups) : Follows Parses (modify f) :=
  .modify fun s => (Still.of_groups (hn s) (hg s)).parses

theorem parses_modify_bind {α : Type} {f : Parser π σ → Parser π σ} {m : Unit → ParserM π σ α}
    (hn : ∀ s, (f s).numGroups = s.numGroups) (hg : ∀ s, (f s).groups = s.groups)
    (hm : ∀ a, Follows Parses (m a)) : Follows Parses (modify f >>= m) :=
  parses_bind (parses_modify hn hg) hm

theorem parses_emit_prints (m : Message) : Follows (@Parses π σ) (emit (.prints m)) := by
  apply Follows.emit
  intro s
  have hstill := (Still.refl s).parses
  exact ⟨hstill.kept, hstill.processed, hstill.parsed, trivial, by simp, by simp⟩

theorem parses_look {α : Type} (f : Parser π σ → Except Fault α) :
    Follows Parses (look f) := by
  unfold look
  apply parses_bind parses_get
  intro s
  cases f s with
  | ok a => exact parses_pure a
  | error e => exact parses_fail e

theorem parses_print (m : Message) : Follows (@Parses π σ) (print m) := by
  unfold print
  apply parses_bind parses_get
  intro s
  apply Follows.ite
  · intro _
    exact parses_emit_prints m
  · intro _
    exact parses_pure _

theorem parses_setEbadkey (b : Bool) : Follows (@Parses π σ) (setEbadkey b) :=
  parses_modify (fun _ => rfl) fun _ => rfl

theorem parses_setNext (next : ℤ) : Follows (@Parses π σ) (setNext next) :=
  parses_modify (fun _ => rfl) fun _ => rfl

theorem parses_argvAt (i : ℤ) : Follows (@Parses π σ) (argvAt i) := by
  unfold argvAt
  apply parses_bind parses_get
  intro s
  apply Follows.ite
  · intro _
    cases s.argv[i.toNat]? with
    | some arg => exact parses_pure arg
    | none => exact parses_fail _
  · intro _
    exact parses_fail _

theorem parses_exchange : Follows (@Parses π σ) exchange := by
  unfold exchange
  apply parses_bind parses_get
  intro s
  apply Follows.ite
  · intro _
    exact parses_fail _
  · intro _
    exact parses_modify (fun _ => rfl) fun _ => rfl

theorem parses_option (E : Env π σ) (g : ℕ) (k : ℤ) (arg : Option CStr) :
    Follows Parses (groupParse E g (.option k) arg) := by
  intro s
  obtain ⟨err, s', acts, hrun, hcalled⟩ := groupParse_run E g (.option k) arg s
  rw [hrun]
  have hstill := hcalled.still.parses
  rcases hcalled.acts with ⟨rfl, -⟩ | ⟨c, rfl, -, hkey, -⟩
  · exact hstill
  · constructor
    · exact hstill.kept
    · exact hstill.processed
    · intro c' hc'
      have hcc := List.mem_singleton.mp hc'
      rw [hcc, hkey]
      exact .option k
    · refine ⟨fun _ => ⟨fun h => ?_, fun h => ?_⟩, trivial⟩
      · rw [hkey] at h
        cases h
      · rw [hkey] at h
        cases h
    · simp
    · simp

/-! A round of the loop; only the argument that is taken is counted. -/

theorem Refused.taken {acts : List Act} (h : Refused acts) (g : ℕ) : taken g acts = 0 := by
  unfold Argp.taken
  apply List.sum_eq_zero
  intro n hn
  obtain ⟨a, ha, rfl⟩ := List.mem_map.mp hn
  obtain ⟨c, rfl, -⟩ := h.calls a ha
  rfl

theorem Refused.parsed {acts : List Act} (h : Refused acts) :
    ∀ c ∈ callsOf acts, c.key.InParse := by
  intro c hc
  obtain ⟨c', hc', -, hkey⟩ := h.calls _ (mem_callsOf.mp hc)
  cases hc'
  exact hkey

theorem Refused.parses {s s' : Parser π σ} {acts : List Act} (h : Refused acts)
    (hs : Still s s') : Parses s acts s' := by
  constructor
  · exact hs.toKept
  · intro g
    rw [h.taken g, hs.processed g]
    rfl
  · exact h.parsed
  · exact h.recorded
  · intro g v hmem
    obtain ⟨c, hc, -⟩ := h.calls _ hmem
    cases hc
  · intro next argv hmem
    obtain ⟨c, hc, -⟩ := h.calls _ hmem
    cases hc

/-- `args_processed += n`, after the record of it. -/
theorem addProcessed_run (s : Parser π σ) (last : ℕ) (n : ℤ) :
    ∃ s', addProcessed last n s = (.ok ⟨⟩, s', []) ∧ Kept s s' ∧
      s' = { s with groups := s'.groups } ∧ ∀ g, (s'.groups g).argsProcessed ≡
      (s.groups g).argsProcessed + (if last = g then n.toNat else 0) [MOD 2 ^ 32] := by
  refine ⟨_, rfl, ⟨rfl, fun g => ?_⟩, rfl, fun g => ?_⟩
  · show (s.groups g).Alike (Function.update s.groups last _ g)
    rcases eq_or_ne g last with rfl | hne
    · rw [Function.update_self]
      exact ⟨rfl, rfl, rfl, rfl, rfl⟩
    · rw [Function.update_of_ne hne]
      exact .refl _
  · show (Function.update s.groups last _ g).argsProcessed ≡ _ [MOD 2 ^ 32]
    rcases eq_or_ne g last with rfl | hne
    · rw [Function.update_self, if_pos rfl]
      exact Nat.mod_modEq _ _
    · rw [Function.update_of_ne hne, if_neg hne.symm]
      rfl

/-- The record of what a group has taken, after its call. -/
theorem countArg_run {s₀ s : Parser π σ} {acts : List Act} {tried : Tried}
    (h : Tries s₀ acts tried s) (herr : tried.err = 0) (index : ℤ) :
    ∃ s' acts', countArg tried index s = (.ok ⟨⟩, s', acts') ∧ Parses s₀ (acts ++ acts') s' := by
  obtain ⟨acts, c, rfl, hrefused, hgroup, hkey, -, hafter, hargc⟩ := h.taken herr
  obtain ⟨s₁, hs₁, hstill₁, hnext⟩ : ∃ s₁,
      (if tried.key = .args then { s with next := s.argc } else s) = s₁ ∧ Still s s₁ ∧
      s₁.next = if tried.key = .args then s.argc else s.next := by
    split
    · exact ⟨_, rfl, .of_groups rfl rfl, rfl⟩
    · exact ⟨_, rfl, .refl s, rfl⟩
  have hstill : Still s₀ s₁ := h.still.trans hstill₁
  unfold countArg get emit modify
  rw [Faulting.modify_bind_run, hs₁, Faulting.gets_bind_run, Faulting.emit_bind_run]
  -- the record follows the call whichever key it had
  have hrecorded : Recorded [.calls c, .handled tried.last index s₁.next] := by
    refine ⟨fun _ => ⟨fun harg => ?_, fun hargs => ?_⟩, trivial⟩
    · have hne : tried.key ≠ .args := by
        rw [← hkey, harg]
        decide
      rw [hgroup, hafter, hnext, if_neg hne]
      exact ⟨index, rfl⟩
    · have heq : tried.key = .args := by rw [← hkey, hargs]
      rw [hgroup, hargc, hnext, if_pos heq]
      exact ⟨index, rfl⟩
  have hparsed : ∀ c' ∈ callsOf [.calls c, .handled tried.last index s₁.next], c'.key.InParse := by
    intro c' hc'
    have hcc := List.mem_singleton.mp hc'
    rw [hcc, hkey]
    rcases h.key herr with hk | hk
    · rw [hk]
      exact .arg
    · rw [hk]
      exact .args
  have hparses : ∀ s', Kept s₁ s' → (∀ g, (s'.groups g).argsProcessed ≡ (s₁.groups g).argsProcessed +
      (if tried.last = g then (s₁.next - index).toNat else 0) [MOD 2 ^ 32]) →
      Parses s₀ (acts ++ [.calls c, .handled tried.last index s₁.next]) s' := by
    intro s' hkept hprocessed
    apply (hrefused.parses hstill).trans
    refine ⟨hkept, fun g => ?_, hparsed, hrecorded, by simp, by simp⟩
    have htaken : taken g [.calls c, .handled tried.last index s₁.next] =
        if tried.last = g then (s₁.next - index).toNat else 0 := by
      simp [taken, Act.advance]
    rw [htaken]
    exact hprocessed g
  by_cases hlt : index < s₁.next
  · simp only [id_eq, if_pos hlt]
    obtain ⟨s', hadd, hkept, -, hprocessed⟩ := addProcessed_run s₁ tried.last (s₁.next - index)
    rw [hadd]
    refine ⟨s', _, rfl, ?_⟩
    have hp := hparses s' hkept hprocessed
    simpa using hp
  · simp only [id_eq, if_neg hlt]
    refine ⟨_, _, rfl, ?_⟩
    have hzero : (s₁.next - index).toNat = 0 := by omega
    have hlast : Still s₁ { s₁ with argsOnly := false } := .of_groups rfl rfl
    have hp := hparses _ hlast.toKept (by
      intro g
      rw [hzero, ite_self, hlast.processed g]
      rfl)
    rw [List.append_assoc]
    exact hp

theorem parses_parserParseArg (E : Env π σ) (val : CStr) :
    Follows Parses (parserParseArg E val) := by
  intro s
  obtain ⟨tried, s₁, acts, hrun, htries⟩ := tryParsers_run E val (List.range s.numGroups) s
  unfold parserParseArg get
  rw [Faulting.gets_bind_run]
  simp only [id_eq]
  rw [Faulting.bind_ok hrun]
  by_cases herr : tried.err = 0
  · obtain ⟨s', acts', hcount, hparses⟩ := countArg_run htries herr s.next
    rw [if_pos herr, Faulting.bind_ok hcount]
    simpa using hparses
  · rw [if_neg herr]
    have hparses := (htries.refused herr).parses htries.still
    simpa using hparses

theorem parses_parseShort (E : Env π σ) (c : CChar) (rest : CStr) :
    Follows Parses (parseShort E c rest) := by
  unfold parseShort
  apply parses_bind parses_get
  intro s
  apply Follows.ite
  · intro _
    exact parses_fail _
  intro _
  refine parses_modify_bind (fun _ => rfl) (fun _ => rfl) fun _ => ?_
  apply parses_bind (parses_look _)
  intro found
  cases found with
  | none =>
    apply parses_bind (parses_print _)
    intro _
    apply parses_bind (parses_setEbadkey _)
    intro _
    exact parses_pure _
  | some found =>
    apply Follows.ite
    · intro _
      refine parses_modify_bind (fun _ => rfl) (fun _ => rfl) fun _ => ?_
      apply Follows.ite
      · intro _
        apply Follows.ite
        · intro _
          apply parses_bind (parses_print _)
          intro _
          apply parses_bind (parses_setEbadkey _)
          intro _
          exact parses_pure _
        · intro _
          apply parses_bind (parses_argvAt _)
          intro value
          apply parses_bind (parses_setNext _)
          intro _
          exact parses_option E _ _ _
      · intro _
        exact parses_option E _ _ _
    · intro _
      exact parses_option E _ _ _

theorem parses_parseLong (E : Env π σ) (arg start opt : CStr) :
    Follows Parses (parseLong E arg start opt) := by
  unfold parseLong
  refine parses_modify_bind (fun _ => rfl) (fun _ => rfl) fun _ => ?_
  apply parses_bind (parses_look _)
  intro found
  cases found with
  | inr ambiguous =>
    apply parses_bind (parses_print _)
    intro _
    apply parses_bind (parses_setEbadkey _)
    intro _
    exact parses_pure _
  | inl found =>
    apply Follows.ite
    · intro _
      apply parses_bind (parses_print _)
      intro _
      apply parses_bind (parses_setEbadkey _)
      intro _
      exact parses_pure _
    · intro _
      apply Follows.ite
      · intro _
        apply parses_bind parses_get
        intro s
        apply Follows.ite
        · intro _
          apply parses_bind (parses_print _)
          intro _
          apply parses_bind (parses_setEbadkey _)
          intro _
          exact parses_pure _
        · intro _
          apply parses_bind (parses_argvAt _)
          intro value
          apply parses_bind (parses_setNext _)
          intro _
          apply parses_bind (parses_setEbadkey _)
          intro _
          exact parses_option E _ _ _
      · intro _
        apply parses_bind (parses_setEbadkey _)
        intro _
        exact parses_option E _ _ _

theorem parses_extendNonopts : Follows (@Parses π σ) extendNonopts := by
  unfold extendNonopts
  apply parses_bind parses_get
  intro s
  apply Follows.ite
  · intro _
    exact parses_modify (fun _ => rfl) fun _ => rfl
  · intro _
    apply Follows.ite
    · intro _
      exact parses_exchange
    · intro _
      exact parses_pure _

theorem parses_rewindNonopts : Follows (@Parses π σ) rewindNonopts := by
  unfold rewindNonopts
  apply parses_bind parses_exchange
  intro _
  exact parses_modify (fun _ => rfl) fun _ => rfl

theorem parses_parseNonOption (E : Env π σ) (arg : CStr) :
    Follows Parses (parseNonOption E arg) := by
  unfold parseNonOption
  apply parses_bind parses_get
  intro s
  cases s.ordering with
  | permute =>
    apply parses_bind parses_extendNonopts
    intro _
    apply parses_bind parses_get
    intro s
    apply Follows.ite
    · intro _
      exact parses_fail _
    · intro _
      refine parses_modify_bind (fun _ => rfl) (fun _ => rfl) fun _ => ?_
      exact parses_pure _
  | requireOrder =>
    refine parses_modify_bind (fun _ => rfl) (fun _ => rfl) fun _ => ?_
    exact parses_pure _
  | returnInOrder =>
    apply parses_bind (parses_setEbadkey _)
    intro _
    exact parses_parserParseArg E arg

theorem parses_parseQuote : Follows (@Parses π σ) parseQuote := by
  unfold parseQuote
  refine parses_modify_bind (fun _ => rfl) (fun _ => rfl) fun _ => ?_
  apply parses_bind parses_get
  intro s
  apply Follows.ite
  · intro _
    exact parses_fail _
  · intro _
    apply Follows.ite
    · intro _
      apply parses_bind parses_rewindNonopts
      intro _
      refine parses_modify_bind (fun _ => rfl) (fun _ => rfl) fun _ => ?_
      exact parses_pure _
    · intro _
      refine parses_modify_bind (fun _ => rfl) (fun _ => rfl) fun _ => ?_
      exact parses_pure _

@[simp] theorem settle_groups (s : Parser π σ) : (settle s).groups = s.groups := by
  unfold settle
  dsimp only
  split_ifs <;> rfl

@[simp] theorem settle_numGroups (s : Parser π σ) : (settle s).numGroups = s.numGroups := by
  unfold settle
  dsimp only
  split_ifs <;> rfl

theorem parses_parserParseNext (E : Env π σ) : Follows Parses (parserParseNext E) := by
  unfold parserParseNext
  refine parses_modify_bind settle_numGroups settle_groups fun _ => ?_
  apply parses_bind parses_get
  intro s
  cases s.nextchar with
  | some bundle => exact parses_parseShort E bundle.1 bundle.2
  | none =>
    apply Follows.ite
    · intro _
      apply parses_bind (parses_setEbadkey _)
      intro _
      apply Follows.ite
      · intro _
        exact parses_pure _
      · intro _
        apply parses_bind (parses_argvAt _)
        intro arg
        exact parses_parserParseArg E arg
    · intro _
      apply Follows.ite
      · intro _
        apply parses_bind (parses_setEbadkey _)
        intro _
        apply Follows.ite
        · intro _
          apply parses_bind parses_rewindNonopts
          intro _
          refine parses_modify_bind (fun _ => rfl) (fun _ => rfl) fun _ => ?_
          exact parses_pure _
        · intro _
          exact parses_pure _
      · intro _
        apply parses_bind (parses_argvAt _)
        intro arg
        apply parses_bind (parses_look _)
        intro type
        cases type with
        | arg => exact parses_parseNonOption E arg
        | quote => exact parses_parseQuote
        | longOption opt => exact parses_parseLong E arg _ opt
        | longOnlyOption opt => exact parses_parseLong E arg _ opt
        | shortOption first rest =>
          refine parses_modify_bind (fun _ => rfl) (fun _ => rfl) fun _ => ?_
          exact parses_pure _

/-- By induction on the rounds. -/
theorem parses_parserLoop (E : Env π σ) (fuel : ℕ) : Follows Parses (parserLoop E fuel) := by
  induction fuel with
  | zero => exact parses_fail _
  | succ fuel ih =>
    unfold parserLoop
    apply parses_bind (parses_parserParseNext E)
    intro err
    apply Follows.ite
    · intro _
      exact ih
    · intro _
      exact parses_pure _

end

end MuslBsd.Argp
