import MuslBsd.Argp.Groups
import MuslBsd.Argp.Rounds
import Mathlib.Data.List.Sort

/-! The loops of `parser_finalize` over the groups, and the calls that they make. -/
namespace MuslBsd.Argp
open MuslBsd.Support

variable {π σ : Type}

/-! ### Calls with one key -/

/-- Some of these groups have been called with a key, in this order. -/
structure Told (key : Key) (gs : List ℕ) (calls : List Call) : Prop where
  keys : ∀ c ∈ calls, c.key = key
  groups : calls.map Call.group <+: gs

/-- All of these groups have been called. -/
structure ToldAll (key : Key) (gs : List ℕ) (calls : List Call) : Prop where
  keys : ∀ c ∈ calls, c.key = key
  groups : calls.map Call.group = gs

section

variable {key k : Key} {gs : List ℕ} {calls : List Call}

theorem ToldAll.told (h : ToldAll key gs calls) : Told key gs calls :=
  ⟨h.keys, h.groups ▸ List.prefix_rfl⟩

theorem keysOf_eq_replicate (h : ∀ c ∈ calls, c.key = key) (g : ℕ) :
    keysOf g calls = List.replicate ((calls.map Call.group).count g) key := by
  induction calls with
  | nil => rfl
  | cons c calls ih =>
    have hrest := ih fun c' hc' => h c' (List.mem_cons_of_mem _ hc')
    have hkey := h c List.mem_cons_self
    rw [List.map_cons]
    by_cases hg : c.group = g
    · have hcons : keysOf g (c :: calls) = c.key :: keysOf g calls := by simp [keysOf, hg]
      rw [hcons, hrest, hkey, hg, List.count_cons_self, List.replicate_succ]
    · have hskip : keysOf g (c :: calls) = keysOf g calls := by simp [keysOf, hg]
      rw [hskip, hrest, List.count_cons_of_ne hg]

theorem Told.keysOf (h : Told key gs calls) (hgs : gs.Nodup) (g : ℕ) :
    keysOf g calls = [] ∨ keysOf g calls = [key] := by
  have hle : (calls.map Call.group).count g ≤ 1 :=
    List.nodup_iff_count_le_one.mp (hgs.sublist h.groups.sublist) g
  rw [keysOf_eq_replicate h.keys]
  rcases Nat.le_one_iff_eq_zero_or_eq_one.mp hle with hzero | hone
  · left
    rw [hzero]
    rfl
  · right
    rw [hone]
    rfl

theorem ToldAll.keysOf (h : ToldAll key gs calls) (hgs : gs.Nodup) {g : ℕ} (hg : g ∈ gs) :
    keysOf g calls = [key] := by
  rw [keysOf_eq_replicate h.keys, h.groups, List.count_eq_one_of_mem hgs hg]
  rfl

theorem Told.groupsOf_self (h : Told key gs calls) : groupsOf key calls = calls.map Call.group := by
  unfold groupsOf
  rw [List.filter_eq_self.mpr]
  intro c hc
  exact decide_eq_true (h.keys c hc)

theorem groupsOf_ne (h : ∀ c ∈ calls, c.key ≠ k) : groupsOf k calls = [] := by
  unfold groupsOf
  rw [List.filter_eq_nil_iff.mpr, List.map_nil]
  intro c hc
  simpa using h c hc

theorem Told.groupsOf_ne (h : Told key gs calls) (hk : key ≠ k) : groupsOf k calls = [] := by
  apply Argp.groupsOf_ne
  intro c hc
  rw [h.keys c hc]
  exact hk

/-- In a list in order, what comes before an element of a beginning is in it too. -/
theorem mem_of_ordered {R : ℕ → ℕ → Prop} {called l r : List ℕ} {x y : ℕ} (hgs : gs.Pairwise R)
    (hR : ∀ a b, R a b → ¬R b a) (hpre : called <+: gs) (hsplit : called = l ++ x :: r)
    (hy : y ∈ gs) (hyx : R y x) : y ∈ l := by
  obtain ⟨rest, rfl⟩ := hpre
  subst hsplit
  rw [List.append_assoc, List.cons_append] at hgs hy
  rcases List.mem_append.mp hy with hy | hy
  · exact hy
  · have htail := (List.pairwise_append.mp hgs).2.1
    rcases List.mem_cons.mp hy with rfl | hy
    · exact (hR y y hyx hyx).elim
    · exact (hR y x hyx ((List.pairwise_cons.mp htail).1 y hy)).elim

end

/-! ### The loops over the groups -/

/-- The groups that have a parser. -/
def members (s : Parser π σ) : List ℕ :=
  (List.range s.numGroups).filter fun g => (s.groups g).parser.isSome

/-- Acts that are calls with one key, of groups in this order. -/
structure Sweeps (key : Key) (gs : List ℕ) (s : Parser π σ) (acts : List Act) (s' : Parser π σ) :
    Prop where
  still : Still s s'
  calls : ∀ a ∈ acts, ∃ c, a = .calls c
  told : Told key gs (callsOf acts)

variable {E : Env π σ} {s s' : Parser π σ} {key : Key}

theorem Called.sweeps {g : ℕ} {arg : Option CStr} {err : ℤ} {acts : List Act}
    (h : Called E g key arg s err s' acts) : (∀ a ∈ acts, ∃ c, a = .calls c) ∧
    ToldAll key ([g].filter fun g => (s.groups g).parser.isSome) (callsOf acts) := by
  cases hp : (s.groups g).parser with
  | none =>
    rw [(h.idle hp).2.2]
    refine ⟨fun a ha => (List.not_mem_nil ha).elim, fun c hc => (List.not_mem_nil hc).elim, ?_⟩
    simp [hp, callsOf]
  | some parser =>
    obtain ⟨a, -, -, -, hacts⟩ := h.answer parser hp
    rw [hacts]
    refine ⟨fun a' ha' => ⟨_, List.mem_singleton.mp ha'⟩, ?_, ?_⟩
    · intro c hc
      rw [List.mem_singleton.mp hc]
      rfl
    · show [g] = _
      simp [hp]

/-- By induction on the groups; those that are called come before those that are left. -/
theorem sweep_run (E : Env π σ) (key : Key) (wanted : Group π → Prop) [DecidablePred wanted]
    (gs : List ℕ) (err : ℤ) (s : Parser π σ) (hw : ∀ s', Still s s' → ∀ g,
      wanted (s'.groups g) ↔ wanted (s.groups g)) :
    ∃ err' s' acts, sweep E key wanted gs err s = (.ok err', s', acts) ∧
      Sweeps key (gs.filter fun g => wanted (s.groups g) ∧ (s.groups g).parser.isSome) s acts s' := by
  induction gs generalizing err s with
  | nil =>
    refine ⟨err, s, [], rfl, .refl s, fun a ha => (List.not_mem_nil ha).elim, ?_⟩
    exact ⟨fun c hc => (List.not_mem_nil hc).elim, List.prefix_rfl⟩
  | cons g gs ih =>
    have hnone : Sweeps key ((g :: gs).filter fun g => wanted (s.groups g) ∧ (s.groups g).parser.isSome)
        s [] s :=
      ⟨.refl s, fun a ha => (List.not_mem_nil ha).elim, fun c hc => (List.not_mem_nil hc).elim,
        List.nil_prefix⟩
    unfold sweep
    by_cases herr : err = 0 ∨ err = EBADKEY
    · rw [if_pos herr]
      unfold get
      rw [Faulting.gets_bind_run]
      by_cases hwant : wanted (s.groups g)
      · simp only [id_eq, if_pos hwant]
        obtain ⟨err₁, s₁, acts₁, hrun, hcalled⟩ := groupParse_run E g key none s
        obtain ⟨hcalls₁, htold₁⟩ := hcalled.sweeps
        have hsame : (fun g => decide (wanted (s₁.groups g) ∧ (s₁.groups g).parser.isSome)) =
            fun g => decide (wanted (s.groups g) ∧ (s.groups g).parser.isSome) := by
          funext g'
          rw [hcalled.still.parser g', decide_eq_decide, hw s₁ hcalled.still g']
        obtain ⟨err', s', acts, hrest, hsweeps⟩ := ih err₁ s₁ fun s' hs' g' =>
          (hw s' (hcalled.still.trans hs') g').trans (hw s₁ hcalled.still g').symm
        rw [hsame] at hsweeps
        rw [Faulting.bind_ok hrun, hrest]
        refine ⟨err', s', _, rfl, hcalled.still.trans hsweeps.still, ?_, ?_, ?_⟩
        · intro a ha
          rcases List.mem_append.mp ha with ha | ha
          · exact hcalls₁ a ha
          · exact hsweeps.calls a ha
        · intro c hc
          rw [callsOf_append] at hc
          rcases List.mem_append.mp hc with hc | hc
          · exact htold₁.keys c hc
          · exact hsweeps.told.keys c hc
        · rw [callsOf_append, List.map_append, htold₁.groups]
          have hcons : (g :: gs).filter (fun g => wanted (s.groups g) ∧ (s.groups g).parser.isSome) =
              ([g].filter fun g => (s.groups g).parser.isSome) ++
                gs.filter fun g => wanted (s.groups g) ∧ (s.groups g).parser.isSome := by
            rw [← List.singleton_append, List.filter_append]
            simp [List.filter_cons, hwant]
          rw [hcons]
          exact (List.prefix_append_right_inj _).mpr hsweeps.told.groups
      · simp only [id_eq, if_neg hwant]
        obtain ⟨err', s', acts, hrest, hsweeps⟩ := ih err s hw
        have hcons : (g :: gs).filter (fun g => wanted (s.groups g) ∧ (s.groups g).parser.isSome) =
            gs.filter fun g => wanted (s.groups g) ∧ (s.groups g).parser.isSome := by
          simp [hwant]
        rw [hrest, hcons]
        exact ⟨err', s', _, rfl, hsweeps⟩
    · rw [if_neg herr]
      exact ⟨err, s, [], rfl, hnone⟩

theorem callAll_run (E : Env π σ) (key : Key) (gs : List ℕ) (s : Parser π σ) :
    ∃ s' acts, callAll E key gs s = (.ok (), s', acts) ∧ Still s s' ∧
      (∀ a ∈ acts, ∃ c, a = .calls c) ∧
      ToldAll key (gs.filter fun g => (s.groups g).parser.isSome) (callsOf acts) := by
  induction gs generalizing s with
  | nil =>
    exact ⟨s, [], rfl, .refl s, fun a ha => (List.not_mem_nil ha).elim,
      fun c hc => (List.not_mem_nil hc).elim, rfl⟩
  | cons g gs ih =>
    obtain ⟨err₁, s₁, acts₁, hrun, hcalled⟩ := groupParse_run E g key none s
    obtain ⟨hcalls₁, htold₁⟩ := hcalled.sweeps
    obtain ⟨s', acts, hrest, hstill, hcalls, htold⟩ := ih s₁
    have hsame : (fun g => (s₁.groups g).parser.isSome) = fun g => (s.groups g).parser.isSome := by
      funext g'
      rw [hcalled.still.parser g']
    rw [hsame] at htold
    unfold callAll
    rw [Faulting.bind_ok hrun, hrest]
    refine ⟨s', _, rfl, hcalled.still.trans hstill, ?_, ?_, ?_⟩
    · intro a ha
      rcases List.mem_append.mp ha with ha | ha
      · exact hcalls₁ a ha
      · exact hcalls a ha
    · intro c hc
      rw [callsOf_append] at hc
      rcases List.mem_append.mp hc with hc | hc
      · exact htold₁.keys c hc
      · exact htold.keys c hc
    · rw [callsOf_append, List.map_append, htold₁.groups, htold.groups, ← List.filter_append,
        List.singleton_append]

/-! ### `parser_finalize` -/

/-- No argument is taken, and no input is passed down. -/
def Plain (acts : List Act) : Prop :=
  ∀ a ∈ acts, (∀ g index next, a ≠ .handled g index next) ∧ ∀ g v, a ≠ .inputs g v

theorem Plain.nil : Plain [] := fun _ ha => (List.not_mem_nil ha).elim

theorem Plain.append {acts acts' : List Act} (h : Plain acts) (h' : Plain acts') :
    Plain (acts ++ acts') := by
  intro a ha
  rcases List.mem_append.mp ha with ha | ha
  · exact h a ha
  · exact h' a ha

theorem Plain.of_calls {acts : List Act} (h : ∀ a ∈ acts, ∃ c, a = .calls c) : Plain acts := by
  intro a ha
  obtain ⟨c, rfl⟩ := h a ha
  exact ⟨by simp, by simp⟩

/-- What `parser_finalize` has called before it tells of the outcome. -/
structure Finished (s : Parser π σ) (acts : List Act) (noArgs ends : List Call) : Prop where
  plain : Plain acts
  calls : callsOf acts = noArgs ++ ends
  untouched : Told .noArgs ((members s).filter fun g => (s.groups g).argsProcessed = 0) noArgs
  ended : Told .end_ (members s).reverse ends
  consumed : noArgs ≠ [] → ∃ argv : List CStr, .finalizes argv.length argv ∈ acts

theorem Still.members {s s' : Parser π σ} (h : Still s s') : members s' = members s := by
  unfold Argp.members
  have hsame : (fun g => (s'.groups g).parser.isSome) = fun g => (s.groups g).parser.isSome := by
    funext g
    rw [h.parser g]
  rw [hsame, h.numGroups]

/-- `NO_ARGS` from the first group on, then `END` from the last group back. -/
theorem finishAll_run (E : Env π σ) (s : Parser π σ) :
    ∃ err s' acts noArgs ends, finishAll E s = (.ok err, s', acts) ∧ Still s s' ∧ Plain acts ∧
      callsOf acts = noArgs ++ ends ∧
      Told .noArgs ((members s).filter fun g => (s.groups g).argsProcessed = 0) noArgs ∧
      Told .end_ (members s).reverse ends := by
  obtain ⟨err₁, s₁, acts₁, hrun₁, hsweep₁⟩ := sweep_run E .noArgs (fun g => g.argsProcessed = 0)
    (List.range s.numGroups) 0 s fun s' hs' g => by rw [hs'.processed g]
  obtain ⟨err₂, s₂, acts₂, hrun₂, hsweep₂⟩ := sweep_run E .end_ (fun _ => True)
    (List.range s.numGroups).reverse err₁ s₁ fun _ _ _ => Iff.rfl
  have hnoArgs : (List.range s.numGroups).filter (fun g =>
      (s.groups g).argsProcessed = 0 ∧ (s.groups g).parser.isSome) =
      (members s).filter fun g => (s.groups g).argsProcessed = 0 := by
    unfold members
    rw [List.filter_filter]
    simp
  have hends : (List.range s.numGroups).reverse.filter (fun g => True ∧ (s₁.groups g).parser.isSome) =
      (members s).reverse := by
    unfold members
    rw [← List.filter_reverse]
    congr 1
    funext g
    rw [hsweep₁.still.parser g]
    simp
  have htold₁ := hsweep₁.told
  have htold₂ := hsweep₂.told
  rw [hnoArgs] at htold₁
  rw [hends] at htold₂
  have hrun : finishAll E s =
      (.ok (if err₂ = EBADKEY then 0 else err₂), s₂, acts₁ ++ (acts₂ ++ [])) := by
    unfold finishAll get
    rw [Faulting.gets_bind_run]
    simp only [id_eq]
    rw [Faulting.bind_ok hrun₁, Faulting.bind_ok hrun₂]
    rfl
  rw [List.append_nil] at hrun
  exact ⟨_, s₂, _, _, _, hrun, hsweep₁.still.trans hsweep₂.still,
    (Plain.of_calls hsweep₁.calls).append (.of_calls hsweep₂.calls), callsOf_append acts₁ acts₂,
    htold₁, htold₂⟩

theorem Told.nil (key : Key) (gs : List ℕ) : Told key gs [] :=
  ⟨fun _ hc => (List.not_mem_nil hc).elim, List.nil_prefix⟩

/-- No calls, while the outcome is not known. -/
theorem Finished.quiet (s : Parser π σ) {acts : List Act} (hplain : Plain acts)
    (hcalls : callsOf acts = []) : Finished s acts [] [] :=
  ⟨hplain, hcalls, .nil _ _, .nil _ _, fun h => (h rfl).elim⟩

theorem plain_finalizes (s : Parser π σ) : Plain [.finalizes s.next s.argv] := by
  intro a ha
  rw [List.mem_singleton.mp ha]
  exact ⟨by simp, by simp⟩

theorem printTooMany_run (s : Parser π σ) :
    ∃ acts, printTooMany s = (.ok (), s, acts) ∧ Plain acts ∧ callsOf acts = [] := by
  unfold printTooMany get
  rw [Faulting.gets_bind_run]
  split
  · refine ⟨_, rfl, ?_, rfl⟩
    intro a ha
    rw [List.mem_singleton.mp ha]
    exact ⟨by simp, by simp⟩
  · exact ⟨[], rfl, .nil, rfl⟩

theorem finishArgs_run (E : Env π σ) (err : ℤ) (endIndex : Bool) (s : Parser π σ) :
    ∃ r s' acts noArgs ends, finishArgs E err endIndex s = (.ok r, s', acts) ∧ Still s s' ∧
      Finished s acts noArgs ends := by
  have hquiet := Finished.quiet s (plain_finalizes s) rfl
  unfold finishArgs get emit
  rw [Faulting.gets_bind_run, Faulting.emit_bind_run]
  simp only [id_eq]
  by_cases herr : (if err = EBADKEY ∧ s.argEbadkey then 0 else err) = 0
  · simp only [if_pos herr]
    by_cases hall : s.next = s.argc
    · simp only [if_pos hall]
      obtain ⟨err', s', acts, noArgs, ends, hrun, hstill, hplain, hcalls, hno, hend⟩ :=
        finishAll_run E s
      rw [Faulting.bind_ok hrun]
      refine ⟨_, s', _, noArgs, ends, rfl, hstill, ?_, ?_, hno, hend, fun _ => ⟨s.argv, ?_⟩⟩
      · have hp := (plain_finalizes s).append hplain
        simpa using hp
      · rw [Faulting.gets_bind_run]
        show callsOf (acts ++ []) = _
        rw [List.append_nil]
        exact hcalls
      · rw [hall]
        exact List.mem_cons_self
    · simp only [if_neg hall]
      by_cases hindex : endIndex
      · simp only [if_pos hindex]
        exact ⟨_, s, _, [], [], rfl, .refl s, hquiet⟩
      · simp only [if_neg hindex]
        obtain ⟨acts, hrun, hplain, hcalls⟩ := printTooMany_run s
        rw [Faulting.bind_ok hrun]
        refine ⟨_, s, _, [], [], rfl, .refl s, .quiet s ?_ ?_⟩
        · have hp := (plain_finalizes s).append hplain
          simpa using hp
        · show callsOf (acts ++ []) = _
          rw [List.append_nil]
          exact hcalls
  · simp only [if_neg herr]
    exact ⟨_, s, _, [], [], rfl, .refl s, hquiet⟩

/-- The calls that tell of the outcome: of success from the last group back, or of an error. -/
def Outcomes (gs : List ℕ) (calls : List Call) : Prop :=
  Told .success gs.reverse calls ∨ ToldAll .error gs calls

theorem stateHelp_run (s : Parser π σ) : ∃ r acts, stateHelp s = (r, s, acts) ∧
    (r = .ok () ∨ r = .error .exit) ∧ Plain acts ∧ callsOf acts = [] := by
  unfold stateHelp get emit
  rw [Faulting.gets_bind_run]
  have hplain : Plain [.helps] := by
    intro a ha
    rw [List.mem_singleton.mp ha]
    exact ⟨by simp, by simp⟩
  split
  · rw [Faulting.emit_bind_run]
    split
    · exact ⟨_, _, rfl, .inl rfl, hplain, rfl⟩
    · exact ⟨_, _, rfl, .inr rfl, hplain, rfl⟩
  · exact ⟨_, _, rfl, .inl rfl, .nil, rfl⟩

theorem callErrors_run (E : Env π σ) (s : Parser π σ) :
    ∃ s' acts, callAll E .error (List.range s.numGroups) s = (.ok (), s', acts) ∧ Still s s' ∧
      Plain acts ∧ ToldAll .error (members s) (callsOf acts) := by
  obtain ⟨s', acts, hrun, hstill, hcalls, htold⟩ := callAll_run E .error (List.range s.numGroups) s
  exact ⟨s', acts, hrun, hstill, .of_calls hcalls, htold⟩

theorem finishParsers_run (E : Env π σ) (err : ℤ) (s : Parser π σ) :
    (∃ acts, finishParsers E err s = (.error .exit, s, acts) ∧ Plain acts ∧ callsOf acts = []) ∨
      ∃ err' s' acts, finishParsers E err s = (.ok err', s', acts) ∧ Still s s' ∧ Plain acts ∧
        Outcomes (members s) (callsOf acts) := by
  obtain ⟨s₁, acts₁, hrun₁, hstill₁, hplain₁, htold₁⟩ := callErrors_run E s
  unfold finishParsers get
  rw [Faulting.gets_bind_run]
  simp only [id_eq]
  split
  · obtain ⟨err', s', acts, hrun, hsweep⟩ := sweep_run E .success (fun _ => True)
      (List.range s.numGroups).reverse 0 s fun _ _ _ => Iff.rfl
    have hgroups : (List.range s.numGroups).reverse.filter
        (fun g => True ∧ (s.groups g).parser.isSome) = (members s).reverse := by
      unfold members
      rw [← List.filter_reverse]
      simp
    have htold := hsweep.told
    rw [hgroups] at htold
    rw [Faulting.bind_ok hrun]
    refine .inr ⟨_, s', _, rfl, hsweep.still, ?_, .inl ?_⟩
    · have hp := Plain.of_calls hsweep.calls
      simpa using hp
    · simpa using htold
  · split
    · obtain ⟨r, acts, hhelp, hr, hplain, hcalls⟩ := stateHelp_run s
      rcases hr with rfl | rfl
      · rw [Faulting.bind_ok hhelp, Faulting.bind_ok hrun₁]
        refine .inr ⟨_, s₁, _, rfl, hstill₁, ?_, .inr ?_⟩
        · have hp := hplain.append hplain₁
          simpa using hp
        · simpa [callsOf_append, hcalls] using htold₁
      · rw [Faulting.bind_error hhelp]
        exact .inl ⟨acts, rfl, hplain, hcalls⟩
    · rw [Faulting.bind_ok hrun₁]
      refine .inr ⟨_, s₁, _, rfl, hstill₁, ?_, .inr ?_⟩
      · simpa using hplain₁
      · simpa using htold₁

/-- What `parser_finalize` does: it exits, or all groups get `FINI`. -/
theorem parserFinalize_run (E : Env π σ) (err : ℤ) (endIndex : Bool) (s : Parser π σ) :
    (∃ s' acts noArgs ends, parserFinalize E err endIndex s = (.error .exit, s', acts) ∧
      Finished s acts noArgs ends) ∨
    ∃ r s' acts before outcome fini noArgs ends,
      parserFinalize E err endIndex s = (.ok r, s', acts) ∧ acts = before ++ outcome ++ fini ∧
      Finished s before noArgs ends ∧ Plain outcome ∧ Plain fini ∧
      Outcomes (members s) (callsOf outcome) ∧ ToldAll .fini (members s).reverse (callsOf fini) := by
  obtain ⟨⟨err₁, index⟩, s₁, acts₁, noArgs, ends, hrun₁, hstill₁, hfinished⟩ :=
    finishArgs_run E err endIndex s
  unfold parserFinalize
  rw [Faulting.bind_ok hrun₁]
  rcases finishParsers_run E err₁ s₁ with ⟨acts₂, hrun₂, hplain₂, hcalls₂⟩ |
    ⟨err₂, s₂, acts₂, hrun₂, hstill₂, hplain₂, houtcome⟩
  · left
    dsimp only
    rw [Faulting.bind_error hrun₂]
    refine ⟨s₁, _, noArgs, ends, rfl, hfinished.plain.append hplain₂, ?_, hfinished.untouched,
      hfinished.ended, ?_⟩
    · rw [callsOf_append, hcalls₂, List.append_nil]
      exact hfinished.calls
    · intro hne
      obtain ⟨n, hn⟩ := hfinished.consumed hne
      exact ⟨n, List.mem_append_left _ hn⟩
  · right
    obtain ⟨s₃, acts₃, hrun₃, hstill₃, hcalls₃, htold₃⟩ :=
      callAll_run E .fini (List.range s₂.numGroups).reverse s₂
    dsimp only
    rw [Faulting.bind_ok hrun₂]
    unfold get
    rw [Faulting.gets_bind_run]
    simp only [id_eq]
    rw [Faulting.bind_ok hrun₃]
    refine ⟨_, s₃, _, acts₁, acts₂, acts₃, noArgs, ends, rfl, ?_, hfinished, hplain₂,
      .of_calls hcalls₃, ?_, ?_⟩
    · simp
    · rw [hstill₁.members] at houtcome
      exact houtcome
    · have hgroups : (List.range s₂.numGroups).reverse.filter
          (fun g => (s₂.groups g).parser.isSome) = (members s).reverse := by
        rw [← (hstill₁.trans hstill₂).members]
        exact List.filter_reverse
      rw [hgroups] at htold₃
      exact htold₃

end MuslBsd.Argp
