import MuslBsd.Argp.Finalize
import MuslBsd.Argp.Scan

/-! The keys that every parser gets, from the first call to the last. -/
namespace MuslBsd.Argp
open MuslBsd.Support
open Faulting (Returns)

variable {π σ : Type}

/-! ### The protocol -/

/-- The keys of a parser, from `INIT` to `FINI`. -/
structure KeyOrder (keys parsed noArgs ends outcome : List Key) : Prop where
  keys : keys = [.init] ++ parsed ++ noArgs ++ ends ++ outcome ++ [.fini]
  parsed : ∀ k ∈ parsed, k.InParse
  noArgs : noArgs = [] ∨ noArgs = [.noArgs]
  ends : ends = [] ∨ ends = [.end_]
  outcome : outcome = [] ∨ outcome = [.success] ∨ outcome = [.error]

def InOrder (keys : List Key) : Prop := ∃ parsed noArgs ends outcome,
  KeyOrder keys parsed noArgs ends outcome

/-- The parent of the group at `c`, and which child of it that is. -/
def IsChild (groups : List (Group π)) (c p index : ℕ) : Prop :=
  ∃ group, groups[c]? = some group ∧ group.parent = some p ∧ group.parentIndex = index

/-- What a parent leaves for a child: without a parser, its own input for the first one. -/
def Leaves (groups : List (Group π)) (acts : List Act) (p index : ℕ) (v : Ptr) : Prop :=
  (HasParser groups p → ∃ c ∈ callsOf acts, c.group = p ∧ c.key = .init ∧ v = c.childInputs index) ∧
    (¬HasParser groups p → ∃ w, .inputs p w ∈ acts ∧ v = if index = 0 then w else 0)

/-- What holds of the calls of a parse that has been carried out. -/
structure Protocol (groups : List (Group π)) (acts : List Act) : Prop where
  order : ∀ g, HasParser groups g → InOrder (keysOf g (callsOf acts))
  recorded : Recorded acts
  noArgs : ∀ g ∈ groupsOf .noArgs (callsOf acts),
    (∀ index next, .handled g index next ∈ acts → next ≤ index) ∧
      ∃ argv : List CStr, .finalizes argv.length argv ∈ acts
  outcome : groupsOf .success (callsOf acts) = [] ∨ groupsOf .error (callsOf acts) = []
  childFirst : ∀ key, key = .end_ ∨ key = .success ∨ key = .fini → ∀ l p r,
    groupsOf key (callsOf acts) = l ++ p :: r →
    ∀ c index, IsChild groups c p index → HasParser groups c → c ∈ l
  parentFirst : ∀ l c r, groupsOf .init (callsOf acts) = l ++ c :: r →
    ∀ p index, IsChild groups c p index → HasParser groups p → p ∈ l
  given : ∀ c ∈ callsOf acts, c.key = .init → .inputs c.group c.input ∈ acts
  inherited : ∀ c p index, IsChild groups c p index → ∀ v, .inputs c v ∈ acts →
    Leaves groups acts p index v

/-- What holds while a parse is not over: the keys so far can be completed. -/
def Begun (groups : List (Group π)) (acts : List Act) : Prop :=
  ∀ g, HasParser groups g → ∃ rest, InOrder (keysOf g (callsOf acts) ++ rest)

/-- A parse that returns has kept the protocol; one that exits or goes on has begun it. -/
def Outcome.Keeps (o : Outcome) (groups : List (Group π)) : Prop :=
  match o.result with
  | .ok _ => Protocol groups o.acts
  | .error .exit | .error .endless => Begun groups o.acts
  | .error _ => False

/-! ### Runs of the loop -/

/-- The states in which `parser_parse_next` is called. -/
inductive Visits (E : Env π σ) : Parser π σ → Parser π σ → Prop
  | here (s : Parser π σ) : Visits E s s
  | next {s s₁ s' : Parser π σ} {acts : List Act}
      (run : parserParseNext E s = (.ok 0, s₁, acts)) (rest : Visits E s₁ s') : Visits E s s'

/-- By induction on the rounds: each one returns, and leads to a careful state. -/
theorem parserLoop_run (E : Env π σ) (fuel : ℕ) (s : Parser π σ) (hb : s.Bundled)
    (h : ∀ s', Visits E s s' → s'.Careful) :
    ∃ r s' acts, parserLoop E fuel s = (r, s', acts) ∧ (r = .error .endless ∨ ∃ err, r = .ok err) := by
  induction fuel generalizing s with
  | zero => exact ⟨_, s, [], rfl, .inl rfl⟩
  | succ fuel ih =>
    obtain ⟨err, s₁, acts₁, hrun, hb₁⟩ := parserParseNext_returns (E := E) hb (h s (.here s))
    unfold parserLoop
    rw [Faulting.bind_ok hrun]
    by_cases herr : err = 0
    · subst herr
      simp only [if_true]
      obtain ⟨r, s', acts, hrest, hr⟩ := ih s₁ hb₁ fun s' hs' => h s' (.next hrun hs')
      rw [hrest]
      exact ⟨r, s', _, rfl, hr⟩
    · simp only [if_neg herr]
      exact ⟨_, s₁, _, rfl, .inr ⟨err, rfl⟩⟩

/-- No count of arguments has come around to 0. -/
def Counted (acts : List Act) : Prop := ∀ g, 2 ^ 32 ∣ taken g acts → taken g acts = 0

/-! ### All calls together -/

/-- The calls of a parse, part by part. -/
structure Phases (gs : List ℕ) (initial parsed noArgs ends : List Call) : Prop where
  nodup : gs.Nodup
  initial : ToldAll .init gs initial
  parsed : ∀ c ∈ parsed, c.key.InParse
  untouched : ∃ gs', gs'.Nodup ∧ Told .noArgs gs' noArgs
  ended : Told .end_ gs.reverse ends

section

variable {gs : List ℕ} {initial parsed noArgs ends outcome fini : List Call}

theorem Phases.inOrder (h : Phases gs initial parsed noArgs ends)
    (houtcome : Outcomes gs outcome) (hfini : ToldAll .fini gs.reverse fini) {g : ℕ} (hg : g ∈ gs) :
    InOrder (keysOf g (initial ++ parsed ++ noArgs ++ ends ++ outcome ++ fini)) := by
  have hreverse : gs.reverse.Nodup := List.nodup_reverse.mpr h.nodup
  obtain ⟨gs', hgs', hnoArgs⟩ := h.untouched
  refine ⟨keysOf g parsed, keysOf g noArgs, keysOf g ends, keysOf g outcome, ?_, ?_,
    hnoArgs.keysOf hgs' g, h.ended.keysOf hreverse g, ?_⟩
  · simp only [keysOf_append]
    rw [h.initial.keysOf h.nodup hg, hfini.keysOf hreverse (List.mem_reverse.mpr hg)]
  · intro k hk
    obtain ⟨c, hc, rfl⟩ := List.mem_map.mp hk
    exact h.parsed c (List.mem_of_mem_filter hc)
  · rcases houtcome with hs | he
    · rcases hs.keysOf hreverse g with hnil | hone
      · exact .inl hnil
      · exact .inr (.inl hone)
    · exact .inr (.inr (he.keysOf h.nodup hg))

theorem Phases.begun (h : Phases gs initial parsed noArgs ends) {g : ℕ} (hg : g ∈ gs) :
    InOrder (keysOf g (initial ++ parsed ++ noArgs ++ ends) ++ [.fini]) := by
  obtain ⟨gs', hgs', hnoArgs⟩ := h.untouched
  refine ⟨keysOf g parsed, keysOf g noArgs, keysOf g ends, [], ?_, ?_,
    hnoArgs.keysOf hgs' g, h.ended.keysOf (List.nodup_reverse.mpr h.nodup) g, .inl rfl⟩
  · simp only [keysOf_append]
    rw [h.initial.keysOf h.nodup hg, List.append_nil]
  · intro k hk
    obtain ⟨c, hc, rfl⟩ := List.mem_map.mp hk
    exact h.parsed c (List.mem_of_mem_filter hc)

/-- The groups that get a key, if it is not one of the parsing loop. -/
theorem Phases.groupsOf (h : Phases gs initial parsed noArgs ends) {key : Key}
    (hkey : ¬key.InParse) : groupsOf key (initial ++ parsed ++ noArgs ++ ends ++ outcome ++ fini) =
      groupsOf key initial ++ groupsOf key noArgs ++ groupsOf key ends ++ groupsOf key outcome ++
        groupsOf key fini := by
  have hparsed : Argp.groupsOf key parsed = [] := by
    apply groupsOf_ne
    intro c hc heq
    exact hkey (heq ▸ h.parsed c hc)
  simp only [groupsOf_append, hparsed, List.append_nil]

theorem Key.init_not_inParse : ¬Key.InParse .init := fun h => nomatch h
theorem Key.noArgs_not_inParse : ¬Key.InParse .noArgs := fun h => nomatch h
theorem Key.end_not_inParse : ¬Key.InParse .end_ := fun h => nomatch h
theorem Key.success_not_inParse : ¬Key.InParse .success := fun h => nomatch h
theorem Key.error_not_inParse : ¬Key.InParse .error := fun h => nomatch h
theorem Key.fini_not_inParse : ¬Key.InParse .fini := fun h => nomatch h

theorem Outcomes.groupsOf_ne (h : Outcomes gs outcome) {key : Key} (hs : key ≠ .success)
    (he : key ≠ .error) : Argp.groupsOf key outcome = [] := by
  rcases h with h | h
  · exact h.groupsOf_ne hs.symm
  · exact h.told.groupsOf_ne he.symm

theorem Phases.groupsOf_init (h : Phases gs initial parsed noArgs ends) (ho : Outcomes gs outcome)
    (hf : ToldAll .fini gs.reverse fini) :
    Argp.groupsOf .init (initial ++ parsed ++ noArgs ++ ends ++ outcome ++ fini) = gs := by
  obtain ⟨gs', -, hno⟩ := h.untouched
  rw [h.groupsOf Key.init_not_inParse, h.initial.told.groupsOf_self, h.initial.groups,
    hno.groupsOf_ne (by decide), h.ended.groupsOf_ne (by decide),
    ho.groupsOf_ne (by decide) (by decide), hf.told.groupsOf_ne (by decide)]
  simp

theorem Phases.groupsOf_noArgs (h : Phases gs initial parsed noArgs ends) (ho : Outcomes gs outcome)
    (hf : ToldAll .fini gs.reverse fini) :
    Argp.groupsOf .noArgs (initial ++ parsed ++ noArgs ++ ends ++ outcome ++ fini) =
      noArgs.map Call.group := by
  obtain ⟨gs', -, hno⟩ := h.untouched
  rw [h.groupsOf Key.noArgs_not_inParse, h.initial.told.groupsOf_ne (by decide),
    hno.groupsOf_self, h.ended.groupsOf_ne (by decide), ho.groupsOf_ne (by decide) (by decide),
    hf.told.groupsOf_ne (by decide)]
  simp

theorem Phases.groupsOf_end (h : Phases gs initial parsed noArgs ends) (ho : Outcomes gs outcome)
    (hf : ToldAll .fini gs.reverse fini) :
    Argp.groupsOf .end_ (initial ++ parsed ++ noArgs ++ ends ++ outcome ++ fini) =
      ends.map Call.group := by
  obtain ⟨gs', -, hno⟩ := h.untouched
  rw [h.groupsOf Key.end_not_inParse, h.initial.told.groupsOf_ne (by decide),
    hno.groupsOf_ne (by decide), h.ended.groupsOf_self, ho.groupsOf_ne (by decide) (by decide),
    hf.told.groupsOf_ne (by decide)]
  simp

theorem Phases.groupsOf_success (h : Phases gs initial parsed noArgs ends)
    (hf : ToldAll .fini gs.reverse fini) :
    Argp.groupsOf .success (initial ++ parsed ++ noArgs ++ ends ++ outcome ++ fini) =
      Argp.groupsOf .success outcome := by
  obtain ⟨gs', -, hno⟩ := h.untouched
  rw [h.groupsOf Key.success_not_inParse, h.initial.told.groupsOf_ne (by decide),
    hno.groupsOf_ne (by decide), h.ended.groupsOf_ne (by decide),
    hf.told.groupsOf_ne (by decide)]
  simp

theorem Phases.groupsOf_error (h : Phases gs initial parsed noArgs ends)
    (hf : ToldAll .fini gs.reverse fini) :
    Argp.groupsOf .error (initial ++ parsed ++ noArgs ++ ends ++ outcome ++ fini) =
      Argp.groupsOf .error outcome := by
  obtain ⟨gs', -, hno⟩ := h.untouched
  rw [h.groupsOf Key.error_not_inParse, h.initial.told.groupsOf_ne (by decide),
    hno.groupsOf_ne (by decide), h.ended.groupsOf_ne (by decide),
    hf.told.groupsOf_ne (by decide)]
  simp

theorem Phases.groupsOf_fini (h : Phases gs initial parsed noArgs ends) (ho : Outcomes gs outcome)
    (hf : ToldAll .fini gs.reverse fini) :
    Argp.groupsOf .fini (initial ++ parsed ++ noArgs ++ ends ++ outcome ++ fini) = gs.reverse := by
  obtain ⟨gs', -, hno⟩ := h.untouched
  rw [h.groupsOf Key.fini_not_inParse, h.initial.told.groupsOf_ne (by decide),
    hno.groupsOf_ne (by decide), h.ended.groupsOf_ne (by decide),
    ho.groupsOf_ne (by decide) (by decide), hf.told.groupsOf_self, hf.groups]
  simp

/-- `END`, `SUCCESS` and `FINI` go to the groups from the last one back. -/
theorem Phases.backward (h : Phases gs initial parsed noArgs ends) (ho : Outcomes gs outcome)
    (hf : ToldAll .fini gs.reverse fini) {key : Key}
    (hkey : key = .end_ ∨ key = .success ∨ key = .fini) :
    Argp.groupsOf key (initial ++ parsed ++ noArgs ++ ends ++ outcome ++ fini) <+: gs.reverse := by
  rcases hkey with rfl | rfl | rfl
  · rw [h.groupsOf_end ho hf]
    exact h.ended.groups
  · rw [h.groupsOf_success hf]
    rcases ho with hs | he
    · rw [hs.groupsOf_self]
      exact hs.groups
    · rw [he.told.groupsOf_ne (by decide)]
      exact List.nil_prefix
  · have hfini : Argp.groupsOf .fini (initial ++ parsed ++ noArgs ++ ends ++ outcome ++ fini) =
        gs.reverse := h.groupsOf_fini ho hf
    exact hfini ▸ List.prefix_rfl

end

/-! ### From the first call to the last -/

/-- A parse up to the end of its loop. -/
structure Looped (groups : List (Group π)) (s₀ s : Parser π σ) (acts₀ acts : List Act) : Prop where
  started : Started groups s₀ acts₀
  parses : Parses s₀ acts s

section

variable {groups : List (Group π)} {s₀ s : Parser π σ} {acts₀ acts : List Act}

theorem Started.mem_members (h : Started groups s₀ acts₀) (g : ℕ) :
    g ∈ members s₀ ↔ HasParser groups g := by
  unfold members HasParser
  rw [List.mem_filter, List.mem_range, h.numGroups, (h.alike g).parser]
  constructor
  · intro hg
    rw [List.getD_eq_getElem _ _ hg.1] at hg
    exact ⟨_, List.getElem?_eq_getElem hg.1, hg.2⟩
  · intro hg
    obtain ⟨group, hget, hsome⟩ := hg
    obtain ⟨hlt, rfl⟩ := List.getElem?_eq_some_iff.mp hget
    refine ⟨hlt, ?_⟩
    rw [List.getD_eq_getElem _ _ hlt]
    exact hsome

theorem Started.child (h : Started groups s₀ acts₀) {c p index : ℕ}
    (hc : IsChild groups c p index) : p < c ∧ (s₀.groups c).parent = some p ∧
      (s₀.groups c).parentIndex = index ∧ p < groups.length ∧ index < (s₀.groups p).numChildren := by
  obtain ⟨group, hget, hp, hindex⟩ := hc
  obtain ⟨hlt, hpar, hparent, hslot⟩ := h.made.linked c group hget p hp
  obtain ⟨hclt, rfl⟩ := List.getElem?_eq_some_iff.mp hget
  obtain ⟨hplt, rfl⟩ := List.getElem?_eq_some_iff.mp hparent
  have halikec := h.alike c
  have halikep := h.alike p
  rw [List.getD_eq_getElem _ _ hclt] at halikec
  rw [List.getD_eq_getElem _ _ hplt] at halikep
  refine ⟨hlt, halikec.parent.trans hp, halikec.parentIndex.trans hindex, hplt, ?_⟩
  rw [halikep.numChildren, ← hindex]
  exact hslot

theorem members_nodup (s : Parser π σ) : (members s).Nodup := (List.nodup_range).filter _

theorem members_sorted (s : Parser π σ) : (members s).Pairwise (· < ·) :=
  (List.pairwise_lt_range).filter _

theorem Started.initial (h : Started groups s₀ acts₀) :
    ToldAll .init (members s₀) (callsOf acts₀) := by
  refine ⟨fun c hc => (h.initialized.calls c hc).1, ?_⟩
  unfold members
  rw [h.numGroups]
  exact h.initialized.order

theorem Looped.members (h : Looped groups s₀ s acts₀ acts) : members s = members s₀ := by
  unfold Argp.members
  have hsame : (fun g => (s.groups g).parser.isSome) = fun g => (s₀.groups g).parser.isSome := by
    funext g
    rw [h.parses.kept.parser g]
  rw [hsame, h.parses.kept.numGroups]

theorem Looped.phases (h : Looped groups s₀ s acts₀ acts) {final : List Act} {noArgs ends : List Call}
    (hf : Finished s final noArgs ends) :
    Phases (Argp.members s₀) (callsOf acts₀) (callsOf acts) noArgs ends := by
  refine ⟨members_nodup s₀, h.started.initial, h.parses.parsed, ⟨_, ?_, hf.untouched⟩, ?_⟩
  · exact (members_nodup s).filter _
  · rw [← h.members]
    exact hf.ended

theorem recorded_of_keys (h : ∀ c ∈ callsOf acts, c.key ≠ .arg ∧ c.key ≠ .args) :
    Recorded acts := by
  induction acts with
  | nil => trivial
  | cons a acts ih =>
    have hrest : ∀ c ∈ callsOf acts, c.key ≠ .arg ∧ c.key ≠ .args := by
      intro c hc
      exact h c (mem_callsOf.mpr (List.mem_cons_of_mem _ (mem_callsOf.mp hc)))
    cases a with
    | calls c =>
      have hc := h c (mem_callsOf.mpr List.mem_cons_self)
      exact ⟨fun _ => ⟨fun hk => (hc.1 hk).elim, fun hk => (hc.2 hk).elim⟩, ih hrest⟩
    | _ => exact ih hrest

theorem Told.recorded {key : Key} {gs : List ℕ} (h : Told key gs (callsOf acts))
    (h₁ : key ≠ .arg) (h₂ : key ≠ .args) : Recorded acts := by
  apply recorded_of_keys
  intro c hc
  rw [h.keys c hc]
  exact ⟨h₁, h₂⟩

theorem Finished.recorded {noArgs ends : List Call} (h : Finished s acts noArgs ends) :
    Recorded acts := by
  apply recorded_of_keys
  intro c hc
  rw [h.calls] at hc
  rcases List.mem_append.mp hc with hc | hc
  · rw [h.untouched.keys c hc]
    decide
  · rw [h.ended.keys c hc]
    decide

theorem Outcomes.recorded {gs : List ℕ} (h : Outcomes gs (callsOf acts)) : Recorded acts := by
  rcases h with h | h
  · exact h.recorded (by decide) (by decide)
  · exact h.told.recorded (by decide) (by decide)

theorem Plain.taken (h : Plain acts) (g : ℕ) : taken g acts = 0 := by
  unfold Argp.taken
  apply List.sum_eq_zero
  intro n hn
  obtain ⟨a, ha, rfl⟩ := List.mem_map.mp hn
  cases a with
  | handled group index next => exact ((h _ ha).1 group index next rfl).elim
  | _ => rfl

/-- A group that has taken nothing has left `next` where it was, each time. -/
theorem le_of_taken {g : ℕ} (h : taken g acts = 0) {index next : ℤ}
    (hmem : .handled g index next ∈ acts) : next ≤ index := by
  have hzero := List.sum_eq_zero_iff_forall_eq_nat.mp h _ (List.mem_map_of_mem hmem)
  simp only [Act.advance, if_true] at hzero
  omega

/-- The calls of a parse that has returned. -/
structure Ended (groups : List (Group π)) (s₀ s : Parser π σ) (acts₀ acts : List Act)
    (final outcome fini : List Act) (noArgs ends : List Call) : Prop where
  looped : Looped groups s₀ s acts₀ acts
  finished : Finished s final noArgs ends
  plainOutcome : Plain outcome
  plainFini : Plain fini
  outcomes : Outcomes (Argp.members s₀) (callsOf outcome)
  last : ToldAll .fini (Argp.members s₀).reverse (callsOf fini)
  counted : Counted (acts₀ ++ acts ++ final ++ outcome ++ fini)

variable {final outcome fini : List Act} {noArgs ends : List Call}

namespace Ended

variable (h : Ended groups s₀ s acts₀ acts final outcome fini noArgs ends)

include h

theorem phases : Phases (Argp.members s₀) (callsOf acts₀) (callsOf acts) noArgs ends :=
  h.looped.phases h.finished

theorem calls : callsOf (acts₀ ++ acts ++ final ++ outcome ++ fini) =
    callsOf acts₀ ++ callsOf acts ++ noArgs ++ ends ++ callsOf outcome ++ callsOf fini := by
  simp only [callsOf_append, h.finished.calls, List.append_assoc]

theorem taken (g : ℕ) :
    taken g (acts₀ ++ acts ++ final ++ outcome ++ fini) = Argp.taken g acts := by
  simp only [taken_append, h.looped.started.initialized.uncounted, h.finished.plain.taken,
    h.plainOutcome.taken, h.plainFini.taken]
  omega

/-- The count of a group is 0 only if the group has taken nothing. -/
theorem untouched {g : ℕ} (hg : g ∈ noArgs.map Call.group) {index next : ℤ}
    (hmem : .handled g index next ∈ acts₀ ++ acts ++ final ++ outcome ++ fini) : next ≤ index := by
  have hin : g ∈ (Argp.members s).filter fun g => (s.groups g).argsProcessed = 0 :=
    h.finished.untouched.groups.subset hg
  have hzero : (s.groups g).argsProcessed = 0 := of_decide_eq_true (List.mem_filter.mp hin).2
  have hmod := h.looped.parses.processed g
  rw [hzero, h.looped.started.uncounted g, Nat.zero_add] at hmod
  have hdvd : 2 ^ 32 ∣ Argp.taken g acts := (Nat.modEq_zero_iff_dvd).mp hmod.symm
  have htaken := h.counted g (by rw [h.taken g]; exact hdvd)
  exact le_of_taken htaken hmem

theorem mem_init {c : Call} (hc : c ∈ callsOf (acts₀ ++ acts ++ final ++ outcome ++ fini))
    (hkey : c.key = .init) : c ∈ callsOf acts₀ := by
  have hgroups := h.phases
  rw [h.calls] at hc
  simp only [List.mem_append] at hc
  rcases hc with ((((hc | hc) | hc) | hc) | hc) | hc
  · exact hc
  · have hin := hgroups.parsed c hc
    rw [hkey] at hin
    cases hin
  · rw [h.finished.untouched.keys c hc] at hkey
    cases hkey
  · rw [h.finished.ended.keys c hc] at hkey
    cases hkey
  · rcases h.outcomes with ho | ho
    · rw [ho.keys c hc] at hkey
      cases hkey
    · rw [ho.keys c hc] at hkey
      cases hkey
  · rw [h.last.keys c hc] at hkey
    cases hkey

theorem mem_inputs {g : ℕ} {v : Ptr}
    (hmem : .inputs g v ∈ acts₀ ++ acts ++ final ++ outcome ++ fini) : .inputs g v ∈ acts₀ := by
  simp only [List.mem_append] at hmem
  rcases hmem with (((hmem | hmem) | hmem) | hmem) | hmem
  · exact hmem
  · exact (h.looped.parses.noInputs g v hmem).elim
  · exact ((h.finished.plain _ hmem).2 g v rfl).elim
  · exact ((h.plainOutcome _ hmem).2 g v rfl).elim
  · exact ((h.plainFini _ hmem).2 g v rfl).elim

/-- The slot that a child has its input from, as its parent was left. -/
theorem leaves {c p index : ℕ} (hc : IsChild groups c p index) {v : Ptr}
    (hmem : .inputs c v ∈ acts₀ ++ acts ++ final ++ outcome ++ fini) :
    Leaves groups (acts₀ ++ acts ++ final ++ outcome ++ fini) p index v := by
  have hstarted := h.looped.started
  have hinit := hstarted.initialized
  obtain ⟨hlt, hparent, hindex, hp, hslot⟩ := hstarted.child hc
  obtain ⟨hcn, hv⟩ := hinit.only c v (h.mem_inputs hmem)
  have hinherited := hinit.inherited c hcn p hparent
  rw [hindex] at hinherited
  have hvalue : v = (s₀.groups p).childInputs index := hv.trans hinherited
  constructor
  · intro hhas
    have hmember : p ∈ (callsOf acts₀).map Call.group := by
      rw [hstarted.initial.groups]
      exact (hstarted.mem_members p).mpr hhas
    obtain ⟨y, hy, hyp⟩ := List.mem_map.mp hmember
    obtain ⟨hkey, -, hslots⟩ := hinit.calls y hy
    refine ⟨y, ?_, hyp, hkey, ?_⟩
    · simp only [callsOf_append, List.mem_append]
      exact .inl (.inl (.inl (.inl hy)))
    · rw [hslots, hyp]
      exact hvalue
  · intro hhas
    have hnone : (s₀.groups p).parser = none := by
      by_contra hsome
      apply hhas
      rw [← hstarted.mem_members p]
      unfold Argp.members
      rw [List.mem_filter, List.mem_range, hstarted.numGroups]
      exact ⟨hp, Option.isSome_iff_ne_none.mpr hsome⟩
    refine ⟨(s₀.groups p).input, ?_, ?_⟩
    · simp only [List.mem_append]
      exact .inl (.inl (.inl (.inl (hinit.inputs p hp))))
    · rw [hvalue]
      exact hinit.passed p hp hnone index hslot

theorem protocol : Protocol groups (acts₀ ++ acts ++ final ++ outcome ++ fini) := by
  have hphases := h.phases
  have hstarted := h.looped.started
  have hsorted := members_sorted s₀
  have hbackward : (Argp.members s₀).reverse.Pairwise (· > ·) := List.pairwise_reverse.mpr hsorted
  constructor
  case order =>
    intro g hg
    rw [h.calls]
    exact hphases.inOrder h.outcomes h.last ((hstarted.mem_members g).mpr hg)
  case recorded =>
    apply Recorded.append ?_ (h.last.told.recorded (by decide) (by decide))
    apply Recorded.append ?_ h.outcomes.recorded
    apply Recorded.append ?_ h.finished.recorded
    exact hstarted.initialized.recorded.append h.looped.parses.recorded
  case noArgs =>
    intro g hg
    rw [h.calls, hphases.groupsOf_noArgs h.outcomes h.last] at hg
    refine ⟨fun index next hmem => h.untouched hg hmem, ?_⟩
    have hne : noArgs ≠ [] := by
      rintro rfl
      cases hg
    obtain ⟨n, hn⟩ := h.finished.consumed hne
    refine ⟨n, ?_⟩
    simp only [List.mem_append]
    exact .inl (.inl (.inr hn))
  case outcome =>
    rw [h.calls, hphases.groupsOf_success h.last, hphases.groupsOf_error h.last]
    rcases h.outcomes with ho | ho
    · exact .inr (ho.groupsOf_ne (by decide))
    · exact .inl (ho.told.groupsOf_ne (by decide))
  case childFirst =>
    intro key hkey l p r hsplit c index hc hhas
    rw [h.calls] at hsplit
    have hpre := hphases.backward h.outcomes h.last hkey
    have hmem : c ∈ (Argp.members s₀).reverse :=
      List.mem_reverse.mpr ((hstarted.mem_members c).mpr hhas)
    exact mem_of_ordered hbackward (fun a b hab hba => lt_asymm hab hba) hpre hsplit hmem
      (hstarted.child hc).1
  case parentFirst =>
    intro l c r hsplit p index hc hhas
    rw [h.calls, hphases.groupsOf_init h.outcomes h.last] at hsplit
    exact mem_of_ordered hsorted (fun a b hab hba => lt_asymm hab hba) List.prefix_rfl hsplit
      ((hstarted.mem_members p).mpr hhas) (hstarted.child hc).1
  case given =>
    intro c hc hkey
    have hcall := h.mem_init hc hkey
    have hlt : c.group < groups.length := by
      have hmem : c.group ∈ (callsOf acts₀).map Call.group := List.mem_map_of_mem hcall
      rw [hstarted.initialized.order] at hmem
      exact List.mem_range.mp (List.mem_of_mem_filter hmem)
    rw [(hstarted.initialized.calls c hcall).2.1]
    simp only [List.mem_append]
    exact .inl (.inl (.inl (.inl (hstarted.initialized.inputs c.group hlt))))
  case inherited =>
    intro c p index hc v hmem
    exact h.leaves hc hmem

end Ended

/-- A parse that is not over has begun every sequence of keys. -/
theorem Looped.begun (h : Looped groups s₀ s acts₀ acts) (hf : Finished s final noArgs ends) :
    Begun groups (acts₀ ++ acts ++ final) := by
  intro g hg
  refine ⟨[.fini], ?_⟩
  have hbegun := (h.phases hf).begun ((h.started.mem_members g).mpr hg)
  rw [callsOf_append, callsOf_append, hf.calls, ← List.append_assoc]
  exact hbegun

end

/-- Once `parser_init` has succeeded, a parse whose rounds are all careful keeps the protocol. -/
theorem parse_keeps (E : Env π σ) (defaults : Defaults π) (fuel : ℕ) (argp : Option (Argp π))
    (start : Start σ) (endIndex : Bool) {cvt : Converted π} {s₀ : Parser π σ} {acts₀ : List Act}
    (hmalloc : E.malloc)
    (hconvert : parserConvert (Has start.flags ARGP_LONG_ONLY)
      (topArgp defaults argp start.flags) = .ok cvt)
    (hinit : initParsers E start.argv (setUp E cvt start) = (.ok 0, s₀, acts₀))
    (hcareful : ∀ s, Visits E s₀ s → s.Careful)
    (hcounted : Counted (argpParse E defaults fuel argp start endIndex).acts) :
    (argpParse E defaults fuel argp start endIndex).Keeps cvt.groups := by
  have hstarted := initParsers_run (parserConvert_made hconvert) hinit
  have hbundled : s₀.Bundled := by
    intro hsome
    rw [hstarted.nextchar] at hsome
    cases hsome
  obtain ⟨r, s, acts, hloop, hr⟩ := parserLoop_run E fuel s₀ hbundled hcareful
  have hparses : Parses s₀ acts s := by
    have hfollows := parses_parserLoop E fuel s₀
    rw [hloop] at hfollows
    exact hfollows
  have hlooped : Looped cvt.groups s₀ s acts₀ acts := ⟨hstarted, hparses⟩
  have hrun : argpParse E defaults fuel argp start endIndex =
      ⟨(parse E fuel start.argv endIndex (setUp E cvt start)).1,
        (parse E fuel start.argv endIndex (setUp E cvt start)).2.2⟩ := by
    unfold argpParse
    rw [if_pos hmalloc, hconvert]
  rw [hrun] at hcounted ⊢
  unfold parse at hcounted ⊢
  rw [Faulting.bind_ok hinit] at hcounted ⊢
  simp only [if_true] at hcounted ⊢
  rcases hr with rfl | ⟨err, rfl⟩
  · rw [Faulting.bind_error hloop] at hcounted ⊢
    have hbegun := hlooped.begun (.quiet s .nil rfl)
    rw [List.append_nil] at hbegun
    exact hbegun
  · rw [Faulting.bind_ok hloop] at hcounted ⊢
    rcases parserFinalize_run E err endIndex s with ⟨s', final, noArgs, ends, hfinal, hfinished⟩ |
      ⟨r, s', final, before, outcome, fini, noArgs, ends, hfinal, rfl, hfinished, hplain, hplain',
        houtcome, hfini⟩
    · rw [hfinal] at hcounted ⊢
      have hbegun := hlooped.begun hfinished
      rw [List.append_assoc] at hbegun
      exact hbegun
    · rw [hfinal] at hcounted ⊢
      rw [hlooped.members] at houtcome hfini
      have hacts : acts₀ ++ (acts ++ (before ++ outcome ++ fini)) =
          acts₀ ++ acts ++ before ++ outcome ++ fini := by
        simp only [List.append_assoc]
      have hended : Ended cvt.groups s₀ s acts₀ acts before outcome fini noArgs ends :=
        ⟨hlooped, hfinished, hplain, hplain', houtcome, hfini, hacts ▸ hcounted⟩
      show Protocol cvt.groups _
      rw [hacts]
      exact hended.protocol

/-! ### One parser -/

/-- A parser that takes every key, and leaves the state as it is. -/
def acceptAll : Env Unit Unit where
  respond _ _ _ shown _ :=
    { err := 0
      argv := shown.argv
      next := shown.next
      flags := shown.flags
      childInputs := shown.childInputs
      hook := shown.hook
      errStream := shown.errStream
      world := () }
  posixlyCorrect := false
  malloc := true

/-- With `ARGP_NO_HELP` the other argps are not looked at. -/
def noDefaults : Defaults Unit := ⟨.node none none [], none⟩

def optionA : ArgpOption := ⟨none, 97, none, 0, none, 0⟩

/-- An argp with the option `-a`, and one with no options array. -/
def argpA : Argp Unit := .node (some ⟨1, [optionA], by decide⟩) (some ()) []
def bareArgp : Argp Unit := .node none (some ()) []

/-- `prog -a x`. -/
def startA : Start Unit where
  argv := [[letterP], [dash, letterA], [letterX]]
  flags := ARGP_NO_HELP ||| ARGP_NO_EXIT
  input := 0
  world := ()

/-- The lookup of `-a` reads the options array that is not there: the last key is `INIT`. -/
theorem bareArgp_breaks : ∃ cvt s₀ acts₀,
    parserConvert (Has startA.flags ARGP_LONG_ONLY)
      (topArgp noDefaults (some bareArgp) startA.flags) = .ok cvt ∧
    initParsers acceptAll startA.argv (setUp acceptAll cvt startA) = (.ok 0, s₀, acts₀) ∧
    keysOf 0 (callsOf (argpParse acceptAll noDefaults 10 (some bareArgp) startA false).acts) =
      [.init] ∧
    ¬(argpParse acceptAll noDefaults 10 (some bareArgp) startA false).Keeps cvt.groups := by
  refine ⟨_, _, _, rfl, rfl, rfl, ?_⟩
  intro h
  exact h

theorem Visits.first {E : Env π σ} {s s' : Parser π σ} (h : Visits E s s') :
    s' = s ∨ (parserParseNext E s).1 = .ok 0 ∧ Visits E (parserParseNext E s).2.1 s' := by
  cases h with
  | here => exact .inl rfl
  | next run rest =>
    right
    rw [run]
    exact ⟨rfl, rest⟩

/-- The state after some rounds. -/
def afterRounds (E : Env π σ) : ℕ → Parser π σ → Parser π σ
  | 0, s => s
  | k + 1, s => afterRounds E k (parserParseNext E s).2.1

def convertedA : Converted Unit :=
  ⟨[newGroup (some ⟨1, [optionA], by decide⟩) (some ()) 0 none 0], [], 0⟩

/-- Where the loop over `prog -a x` starts. -/
def initA : Parser Unit Unit :=
  (initParsers acceptAll startA.argv (setUp acceptAll convertedA startA)).2.1

theorem startA_init : initParsers acceptAll startA.argv (setUp acceptAll convertedA startA) =
    (.ok 0, initA, (initParsers acceptAll startA.argv (setUp acceptAll convertedA startA)).2.2) := by
  have hok : (initParsers acceptAll startA.argv (setUp acceptAll convertedA startA)).1 = .ok 0 := rfl
  exact Prod.ext hok rfl

/-- The six rounds: `-a`, its callback, the argument, the end, the argument again, the end. -/
theorem initA_careful : ∀ s, Visits acceptAll initA s → s.Careful := by
  have h₀ : (afterRounds acceptAll 0 initA).Careful := by
    refine ⟨by decide, ?_⟩
    intro arg harg
    cases harg
    trivial
  have h₁ : (afterRounds acceptAll 1 initA).Careful := by
    refine ⟨some (0, optionA), by decide +kernel, ?_⟩
    intro g o ho harg
    cases ho
    cases harg
  have h₂ : (afterRounds acceptAll 2 initA).Careful := by
    refine ⟨by decide, ?_⟩
    intro arg harg
    cases harg
    intro _ _ h
    exact absurd h (by decide)
  have h₃ : (afterRounds acceptAll 3 initA).Careful := by
    intro _ h
    exact absurd h (by decide +kernel)
  have h₄ : (afterRounds acceptAll 4 initA).Careful := by
    intro _
    decide +kernel
  have h₅ : (afterRounds acceptAll 5 initA).Careful := by
    intro h
    exact absurd h (by decide +kernel)
  have hend : (parserParseNext acceptAll (afterRounds acceptAll 5 initA)).1 = .ok EBADKEY := rfl
  intro s hs
  rcases hs.first with rfl | ⟨-, hs⟩
  · exact h₀
  rcases hs.first with rfl | ⟨-, hs⟩
  · exact h₁
  rcases hs.first with rfl | ⟨-, hs⟩
  · exact h₂
  rcases hs.first with rfl | ⟨-, hs⟩
  · exact h₃
  rcases hs.first with rfl | ⟨-, hs⟩
  · exact h₄
  rcases hs.first with rfl | ⟨hgo, -⟩
  · exact h₅
  · have hbad : (Except.ok EBADKEY : Except Fault ℤ) = .ok 0 := hend.symm.trans hgo
    cases hbad

/-- A call for the group `g`, if it is the handling of a key. -/
def Act.isOf (g : ℕ) : Act → Bool
  | .handled group _ _ => group = g
  | _ => true

theorem startA_counted :
    Counted (argpParse acceptAll noDefaults 10 (some argpA) startA false).acts := by
  intro g hdvd
  rcases eq_or_ne g 0 with rfl | hne
  · have hone : taken 0 (argpParse acceptAll noDefaults 10 (some argpA) startA false).acts = 1 := rfl
    rw [hone] at hdvd
    omega
  · have hfirst : (argpParse acceptAll noDefaults 10 (some argpA) startA false).acts.all
        (Act.isOf 0) = true := rfl
    unfold taken
    apply List.sum_eq_zero
    intro n hn
    obtain ⟨a, ha, rfl⟩ := List.mem_map.mp hn
    have hgroup := List.all_eq_true.mp hfirst a ha
    cases a with
    | handled group index next =>
      have hzero : group = 0 := of_decide_eq_true hgroup
      show (if group = g then (next - index).toNat else 0) = 0
      rw [if_neg (by omega)]
    | _ => rfl

theorem startA_keeps :
    (argpParse acceptAll noDefaults 10 (some argpA) startA false).Keeps convertedA.groups :=
  parse_keeps acceptAll noDefaults 10 (some argpA) startA false rfl rfl startA_init initA_careful
    startA_counted

end MuslBsd.Argp
