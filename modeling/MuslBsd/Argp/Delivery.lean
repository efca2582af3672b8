import MuslBsd.Argp.Dispatch

/-! `argp_parse` from its start to its end: the parsers get what the scan finds, and `argv` is left
in that order. -/
namespace MuslBsd.Argp
open MuslBsd.Support
open Faulting (Returns)

variable {π σ : Type} {E : Env π σ} {X : Setting π} {p : Pos} {s : Parser π σ}

/-! ### `parser_init` -/

/-- No parser has answered `ARGP_KEY_INIT` with an error. -/
def Welcomed (acts : List Act) : Prop :=
  ∀ c ∈ callsOf acts, c.key = .init → c.err = 0 ∨ c.err = EBADKEY

/-- The acts of `parser_init`. -/
structure Initial (acts : List Act) : Prop where
  keys : ∀ c ∈ callsOf acts, c.key = .init
  noFinalizes : ∀ next argv, .finalizes next argv ∉ acts

theorem Initial.append {acts acts' : List Act} (h : Initial acts) (h' : Initial acts') :
    Initial (acts ++ acts') := by
  constructor
  · intro c hc
    rw [callsOf_append] at hc
    rcases List.mem_append.mp hc with hc | hc
    · exact h.keys c hc
    · exact h'.keys c hc
  · intro next argv hmem
    rcases List.mem_append.mp hmem with hmem | hmem
    · exact h.noFinalizes next argv hmem
    · exact h'.noFinalizes next argv hmem

theorem Welcomed.append {acts acts' : List Act} :
    Welcomed (acts ++ acts') ↔ Welcomed acts ∧ Welcomed acts' := by
  unfold Welcomed
  rw [callsOf_append]
  exact List.forall_mem_append

/-- The input of a group has nothing to do with where the parse is. -/
theorem Stands.initInput (h : Stands X p s) (g : ℕ) :
    Returns (initInput g) s fun _ s' acts =>
      Stands X p s' ∧ Initial acts ∧ Welcomed acts := by
  unfold Argp.initInput
  rw [returns_get_bind, returns_modify_bind]
  refine ⟨(), _, _, rfl, ?_, ⟨by simp [callsOf, Act.call?], by simp⟩, ?_⟩
  · exact { h with
      groups := by
        intro g'
        apply (h.groups g').trans
        show (s.groups g').Alike (Function.update s.groups g _ g')
        rcases eq_or_ne g' g with rfl | hne
        · rw [Function.update_self]
          exact ⟨rfl, rfl, rfl, rfl, rfl⟩
        · rw [Function.update_of_ne hne]
          exact .refl _ }
  · intro c hc
    cases hc

theorem initGroup_stands (hE : Passive E) (h : Stands X p s) (g : ℕ) :
    Returns (initGroup E g) s fun err s' acts => Stands X p s' ∧ Initial acts ∧
      (Welcomed acts ↔ err = 0 ∨ err = EBADKEY) := by
  unfold initGroup
  rw [Faulting.returns_bind]
  apply (h.initInput g).mono
  intro _ s₁ acts₁ h₁
  obtain ⟨hs₁, hinit₁, hwelcomed₁⟩ := h₁
  obtain ⟨err, s', acts, hrun, hcalled⟩ := groupParse_run E g .init none s₁
  refine ⟨err, s', acts, hrun, hs₁.called hE hcalled, hinit₁.append ?_, ?_⟩
  · rcases hcalled.acts with ⟨hacts, -⟩ | ⟨c, hacts, -, hkey, -⟩
    · rw [hacts]
      exact ⟨by simp [callsOf], by simp⟩
    · rw [hacts]
      refine ⟨?_, by simp⟩
      intro c' hc'
      rw [List.mem_singleton.mp hc']
      exact hkey
  · rw [Welcomed.append, and_iff_right hwelcomed₁]
    rcases hcalled.acts with ⟨hacts, herr⟩ | ⟨c, hacts, -, hkey, herr, -⟩
    · rw [hacts, herr]
      refine ⟨fun _ => .inr rfl, fun _ c hc => ?_⟩
      cases hc
    · rw [hacts, ← herr]
      constructor
      · intro hall
        exact hall c (List.mem_singleton_self c) hkey
      · intro hok c' hc' _
        rw [List.mem_singleton.mp hc']
        exact hok

/-- By induction on the groups. -/
theorem initGroups_stands (hE : Passive E) (gs : List ℕ) (err : ℤ) (h : Stands X p s)
    (herr : err = 0 ∨ err = EBADKEY) :
    Returns (initGroups E gs err) s fun err' s' acts => Stands X p s' ∧ Initial acts ∧
      (Welcomed acts ↔ err' = 0 ∨ err' = EBADKEY) := by
  have hnil : Initial [] ∧ Welcomed [] := by
    refine ⟨⟨?_, ?_⟩, ?_⟩
    · intro c hc
      cases hc
    · intro next argv hmem
      cases hmem
    · intro c hc
      cases hc
  induction gs generalizing err s with
  | nil =>
    unfold initGroups
    rw [Faulting.returns_pure]
    exact ⟨h, hnil.1, fun _ => herr, fun _ => hnil.2⟩
  | cons g gs ih =>
    unfold initGroups
    rw [if_pos herr, Faulting.returns_bind]
    apply (initGroup_stands hE h g).mono
    intro err₁ s₁ acts₁ h₁
    obtain ⟨hs₁, hinit₁, hwelcomed₁⟩ := h₁
    by_cases herr₁ : err₁ = 0 ∨ err₁ = EBADKEY
    · apply (ih err₁ hs₁ herr₁).mono
      intro err' s' acts hrest
      obtain ⟨hs', hinit', hwelcomed'⟩ := hrest
      refine ⟨hs', hinit₁.append hinit', ?_⟩
      rw [Welcomed.append, and_iff_right (hwelcomed₁.mpr herr₁)]
      exact hwelcomed'
    · have hstop : initGroups E gs err₁ s₁ = (.ok err₁, s₁, []) := by
        cases gs with
        | nil => rfl
        | cons g gs =>
          unfold initGroups
          rw [if_neg herr₁]
          rfl
      refine ⟨err₁, s₁, [], hstop, hs₁, ?_, ?_⟩
      · rw [List.append_nil]
        exact hinit₁
      · rw [List.append_nil]
        exact hwelcomed₁

/-! ### The command line -/

/-- The elements of `argv` that are not parsed. -/
def nameOf (flags : ℕ) (argv : List CStr) : List CStr :=
  if Has flags ARGP_PARSE_ARGV0 then [] else argv.take 1

/-- The elements of `argv` that are. -/
def elementsOf (flags : ℕ) (argv : List CStr) : List CStr :=
  if Has flags ARGP_PARSE_ARGV0 then argv else argv.drop 1

theorem nameOf_append (flags : ℕ) (argv : List CStr) :
    nameOf flags argv ++ elementsOf flags argv = argv := by
  unfold nameOf elementsOf
  split
  · rfl
  · exact List.take_append_drop 1 argv

/-- The mode that `parser_init` chooses. -/
def orderingOf (posixlyCorrect : Bool) (flags : ℕ) : Ordering :=
  if Has flags ARGP_IN_ORDER then .returnInOrder
  else if Has flags ARGP_NO_ARGS then .requireOrder
  else if posixlyCorrect then .requireOrder
  else .permute

/-- What stays the same in a parse with these groups. -/
def settingOf (E : Env π σ) (groups : List (Group π)) (flags : ℕ) : Setting π where
  groups := groups
  ordering := orderingOf E.posixlyCorrect flags
  longOnly := Has flags ARGP_LONG_ONLY
  argv0 := Has flags ARGP_PARSE_ARGV0

theorem setUp_stands (E : Env π σ) (cvt : Converted π) (start : Start σ)
    (hshort : Has start.flags ARGP_LONG_ONLY → cvt.shortOpts = shortKeys cvt.groups) :
    Stands (settingOf E cvt.groups start.flags) (window [] [] [] start.argv) (setUp E cvt start)
      where
  argv := rfl
  next := rfl
  first := rfl
  last := rfl
  nextchar := rfl
  argsOnly := rfl
  quoted := Int.le_refl _
  unquoted _ := rfl
  firstLe := Nat.le_refl _
  lastLe := Nat.le_refl _
  ordering := rfl
  longOnly := decide_eq_true_iff.symm
  argv0 := decide_eq_true_iff.symm
  shortOpts hlong := by
    have hflag : Has start.flags ARGP_LONG_ONLY := decide_eq_true_iff.mp hlong
    unfold setUp
    dsimp only
    rw [if_pos hflag, hshort hflag]
    rfl
  numGroups := rfl
  groups g := (setUp_groups E cvt start g).1

theorem skipName_stands {argv : List CStr} (h : Stands X (window [] [] [] argv) s) {flags : ℕ}
    (hflags : X.argv0 = decide (Has flags ARGP_PARSE_ARGV0)) :
    Returns (skipName argv) s fun _ s' acts =>
      acts = [] ∧ Stands X (window [] [] (nameOf flags argv) (elementsOf flags argv)) s' := by
  have hargv0 : Has s.flags ARGP_PARSE_ARGV0 ↔ Has flags ARGP_PARSE_ARGV0 := by
    rw [h.argv0, hflags]
    exact decide_eq_true_iff
  unfold skipName nameOf elementsOf
  rw [returns_modify]
  refine ⟨rfl, ?_⟩
  by_cases hflag : Has flags ARGP_PARSE_ARGV0
  · have hno : ¬(argv ≠ [] ∧ ¬Has s.flags ARGP_PARSE_ARGV0) := fun hbad => hbad.2 (hargv0.mpr hflag)
    rw [if_neg hno, if_pos hflag, if_pos hflag]
    exact h
  · rw [if_neg hflag, if_neg hflag]
    cases argv with
    | nil =>
      have hno : ¬(([] : List CStr) ≠ [] ∧ ¬Has s.flags ARGP_PARSE_ARGV0) := fun hbad => hbad.1 rfl
      rw [if_neg hno]
      exact h
    | cons a argv =>
      have hyes : a :: argv ≠ [] ∧ ¬Has s.flags ARGP_PARSE_ARGV0 :=
        ⟨List.cons_ne_nil a argv, fun hbad => hflag (hargv0.mp hbad)⟩
      have hpassed := h.passed
      have hone : s.next + 1 = 1 := by
        rw [h.next]
        rfl
      rw [hone] at hpassed
      rw [if_pos hyes]
      exact hpassed

/-- Where the parsing loop starts, or why it does not. -/
theorem initParsers_stands (hE : Passive E) {argv : List CStr} {flags : ℕ}
    (h : Stands X (window [] [] [] argv) s) (hflags : X.argv0 = decide (Has flags ARGP_PARSE_ARGV0)) :
    Returns (initParsers E argv) s fun err s' acts => Initial acts ∧ (Welcomed acts ↔ err = 0) ∧
      (err = 0 → Stands X (window [] [] (nameOf flags argv) (elementsOf flags argv)) s') := by
  unfold initParsers
  rw [returns_get_bind, Faulting.returns_bind]
  apply (initGroups_stands hE _ 0 h (.inl rfl)).mono
  intro err s₁ acts₁ h₁
  obtain ⟨hs₁, hinit, hwelcomed⟩ := h₁
  rw [Faulting.returns_ite]
  constructor
  · intro herr
    rw [Faulting.returns_bind]
    apply (skipName_stands hs₁ hflags).mono
    intro _ s' acts hs'
    obtain ⟨rfl, hs'⟩ := hs'
    rw [Faulting.returns_pure, List.append_nil, List.append_nil]
    exact ⟨hinit, iff_of_true (hwelcomed.mpr herr) rfl, fun _ => hs'⟩
  · intro herr
    rw [Faulting.returns_pure, List.append_nil]
    have hne : ¬err = 0 := fun hzero => herr (.inl hzero)
    exact ⟨hinit, iff_of_false (fun hw => herr (hwelcomed.mp hw)) hne, fun hzero => (hne hzero).elim⟩

/-! ### `parser_finalize` -/

/-- The calls of `parser_finalize` have no key of the loop. -/
theorem parserFinalize_keys (E : Env π σ) (err : ℤ) (endIndex : Bool) (s : Parser π σ) :
    ∀ c ∈ callsOf (parserFinalize E err endIndex s).2.2, ¬c.key.InParse ∧ c.key ≠ .init := by
  have hkeys : ∀ {key : Key} {gs : List ℕ} {calls : List Call}, Told key gs calls →
      ¬key.InParse → key ≠ .init → ∀ c ∈ calls, ¬c.key.InParse ∧ c.key ≠ .init := by
    intro key gs calls htold hparse hinit c hc
    rw [htold.keys c hc]
    exact ⟨hparse, hinit⟩
  have hfinished : ∀ {acts : List Act} {noArgs ends : List Call}, Finished s acts noArgs ends →
      ∀ c ∈ callsOf acts, ¬c.key.InParse ∧ c.key ≠ .init := by
    intro acts noArgs ends h c hc
    rw [h.calls] at hc
    rcases List.mem_append.mp hc with hc | hc
    · exact hkeys h.untouched (by rintro ⟨⟩) (by decide) c hc
    · exact hkeys h.ended (by rintro ⟨⟩) (by decide) c hc
  rcases parserFinalize_run E err endIndex s with ⟨s', acts, noArgs, ends, hrun, hf⟩ |
    ⟨r, s', acts, before, outcome, fini, noArgs, ends, hrun, rfl, hf, -, -, houtcome, hfini⟩
  · rw [hrun]
    exact hfinished hf
  · rw [hrun]
    intro c hc
    rw [callsOf_append, callsOf_append] at hc
    rcases List.mem_append.mp hc with hc | hc
    · rcases List.mem_append.mp hc with hc | hc
      · exact hfinished hf c hc
      · rcases houtcome with htold | htold
        · exact hkeys htold (by rintro ⟨⟩) (by decide) c hc
        · exact hkeys htold.told (by rintro ⟨⟩) (by decide) c hc
    · exact hkeys hfini.told (by rintro ⟨⟩) (by decide) c hc

/-- It starts where the loop has left the state. -/
theorem parserFinalize_finalizes (E : Env π σ) (err : ℤ) (endIndex : Bool) (s : Parser π σ) :
    .finalizes s.next s.argv ∈ (parserFinalize E err endIndex s).2.2 := by
  have hfirst : .finalizes s.next s.argv ∈ (finishArgs E err endIndex s).2.2 := by
    unfold finishArgs get emit
    rw [Faulting.gets_bind_run, Faulting.emit_bind_run]
    exact List.mem_cons_self
  obtain ⟨⟨err₁, index⟩, s₁, acts₁, noArgs, ends, hrun₁, -⟩ := finishArgs_run E err endIndex s
  rw [hrun₁] at hfirst
  unfold parserFinalize
  rw [Faulting.bind_ok hrun₁]
  exact List.mem_append_left _ hfirst

theorem deliveries_nil {acts : List Act} (h : ∀ c ∈ callsOf acts, ∀ key, c.key ≠ .option key)
    (h' : ∀ c ∈ callsOf acts, c.key ≠ .arg) : deliveries acts = [] := by
  unfold deliveries
  rw [List.filterMap_eq_nil_iff]
  intro c hc
  unfold Call.delivery?
  split
  · cases hkey : c.key with
    | option key => exact (h c hc key hkey).elim
    | arg => exact (h' c hc hkey).elim
    | _ => rfl
  · rfl

/-- What is accepted, without what comes after it. -/
theorem Accepted.of_append_left {calls calls' : List Call} (h : Accepted (calls ++ calls'))
    (hno : ¬GoesOn calls') : Accepted calls := by
  induction calls with
  | nil => trivial
  | cons c calls ih =>
    refine ⟨?_, ih h.2⟩
    have hclause := h.1
    have hgoes : GoesOn (calls ++ calls') → GoesOn calls := by
      cases calls with
      | nil => exact fun hgoes => (hno hgoes).elim
      | cons c' calls => exact id
    cases hk : c.key with
    | option key =>
      rw [hk] at hclause
      exact hclause
    | arg =>
      rw [hk] at hclause
      exact hclause.imp_right fun hbad => ⟨hbad.1, hgoes hbad.2⟩
    | args =>
      rw [hk] at hclause
      exact ⟨hclause.1, hgoes hclause.2⟩
    | _ => trivial

/-! ### Elements -/

/-- Every element is in exactly one place of the scan. -/
theorem Scans.elems {groups : List (Group π)} {longOnly stop : Bool} {elements : List CStr}
    {scan : Scan} (h : Scans groups longOnly stop elements scan) : scan.elems = elements := by
  induction h with
  | done => rfl
  | @arg a after scan type goOn next ih =>
    show a :: scan.elems = _
    rw [ih]
  | stop type here => rfl
  | quote type =>
    rw [classify_quote type]
    rfl
  | @short a first rest taken left uses scan type bundle next ih =>
    have hcons : ({ scan with items := .option (a :: taken) uses :: scan.items } : Scan).elems =
        a :: (taken ++ scan.elems) := by simp [Scan.elems, Scan.quote, Item.elems]
    rw [hcons, ih]
  | @long a opt taken left use scan type option next ih =>
    have hcons : ({ scan with items := .option (a :: taken) [use] :: scan.items } : Scan).elems =
        a :: (taken ++ scan.elems) := by simp [Scan.elems, Scan.quote, Item.elems]
    rw [hcons, ih]

/-- By induction on the items: an argument goes to its place behind the options. -/
theorem items_perm (items : List Item) : (items.flatMap Item.optionElems ++
    items.filterMap Item.arg?).Perm (items.flatMap Item.elems) := by
  induction items with
  | nil => exact .refl _
  | cons item items ih =>
    cases item with
    | option elems uses =>
      have happ := ih.append_left elems
      rw [← List.append_assoc] at happ
      exact happ
    | arg val => exact List.perm_middle.trans (ih.cons val)

theorem Scan.permuted_perm (scan : Scan) (ordering : Ordering) :
    (scan.permuted ordering).Perm scan.elems := by
  cases ordering with
  | permute =>
    have hswap : (scan.quote ++ scan.args).Perm (scan.args ++ scan.quote) := List.perm_append_comm
    have hitems : (scan.items.flatMap Item.optionElems ++ scan.args).Perm
        (scan.items.flatMap Item.elems) := items_perm scan.items
    calc scan.items.flatMap Item.optionElems ++ scan.quote ++ (scan.args ++ scan.rest)
        = scan.items.flatMap Item.optionElems ++ (scan.quote ++ scan.args) ++ scan.rest := by simp
      List.Perm _ (scan.items.flatMap Item.optionElems ++ (scan.args ++ scan.quote) ++ scan.rest) :=
        (hswap.append_left _).append_right _
      _ = scan.items.flatMap Item.optionElems ++ scan.args ++ (scan.quote ++ scan.rest) := by simp
      List.Perm _ (scan.items.flatMap Item.elems ++ (scan.quote ++ scan.rest)) :=
        hitems.append_right _
      _ = scan.items.flatMap Item.elems ++ scan.quote ++ scan.rest := by simp
  | requireOrder => exact .refl _
  | returnInOrder => exact .refl _

/-! ### The parse -/

/-- The parsers have got the options and arguments in the order of the mode, each element of `argv`
once, and `argv` is left in that order, up to its end. -/
structure Dispatched (acts : List Act) (start : Start σ) (ordering : Ordering) (scan : Scan) :
    Prop where
  delivered : deliveries acts = scan.order ordering
  consumed : scan.elems = elementsOf start.flags start.argv
  finalized : ∃ argv, argv = nameOf start.flags start.argv ++ scan.permuted ordering ∧
    argv.Perm start.argv ∧ .finalizes argv.length argv ∈ acts

section

variable (E : Env π σ) (defaults : Defaults π) (argp : Option (Argp π)) (start : Start σ)
  (endIndex : Bool)

/-- Without storage, or if the options cannot be recorded, nothing is called. -/
theorem argpParse_nothing (fuel : ℕ) (h : ¬(E.malloc ∧ Convertible (Has start.flags ARGP_LONG_ONLY)
    (treeGroups (topArgp defaults argp start.flags)))) :
    (argpParse E defaults fuel argp start endIndex).acts = [] := by
  unfold argpParse
  by_cases hmalloc : E.malloc
  · obtain ⟨e, he⟩ := (parserConvert_eq (Has start.flags ARGP_LONG_ONLY)
      (topArgp defaults argp start.flags)).2 fun hconv => h ⟨hmalloc, hconv⟩
    rw [if_pos hmalloc, he]
  · rw [if_neg hmalloc]

theorem argpParse_parses (h : E.malloc ∧ Convertible (Has start.flags ARGP_LONG_ONLY)
    (treeGroups (topArgp defaults argp start.flags))) : ∃ cvt : Converted π,
    cvt.groups = treeGroups (topArgp defaults argp start.flags) ∧
    (Has start.flags ARGP_LONG_ONLY → cvt.shortOpts = shortKeys cvt.groups) ∧
    ∀ fuel, (argpParse E defaults fuel argp start endIndex).acts =
      (parse E fuel start.argv endIndex (setUp E cvt start)).2.2 := by
  obtain ⟨n, hn⟩ := (parserConvert_eq (Has start.flags ARGP_LONG_ONLY)
    (topArgp defaults argp start.flags)).1 h.2
  let groups := treeGroups (topArgp defaults argp start.flags)
  refine ⟨⟨groups, if decide (Has start.flags ARGP_LONG_ONLY) then shortKeys groups else [], n⟩,
    rfl, ?_, fun fuel => ?_⟩
  · intro hlong
    exact if_pos (decide_eq_true hlong)
  · unfold argpParse
    rw [if_pos h.1, hn]

/-- The loop and what comes after it. -/
theorem loop_final (fuel : ℕ) (s : Parser π σ) : ∃ final,
    ((parserLoop E fuel >>= fun err => parserFinalize E err endIndex) s).2.2 =
      (parserLoop E fuel s).2.2 ++ final ∧
    (∀ c ∈ callsOf final, ¬c.key.InParse ∧ c.key ≠ .init) ∧
    (∀ e, (parserLoop E fuel s).1 = .error e → final = []) ∧
    ∀ err s' acts, parserLoop E fuel s = (.ok err, s', acts) → .finalizes s'.next s'.argv ∈ final := by
  obtain ⟨⟨r, s', acts⟩, hrun⟩ : ∃ run, parserLoop E fuel s = run := ⟨_, rfl⟩
  rw [hrun]
  cases r with
  | error e =>
    rw [Faulting.bind_error hrun]
    refine ⟨[], (List.append_nil acts).symm, ?_, fun _ _ => rfl, ?_⟩
    · intro c hc
      cases hc
    · intro err s'' acts' hbad
      cases hbad
  | ok err =>
    rw [Faulting.bind_ok hrun]
    refine ⟨_, rfl, parserFinalize_keys E err endIndex s', ?_, ?_⟩
    · intro e hbad
      cases hbad
    · intro err' s'' acts' heq
      cases heq
      exact parserFinalize_finalizes E err endIndex s'

theorem loop_accepted {acts₀ : List Act} {fuel : ℕ} {s : Parser π σ}
    (h : Accepted (callsOf
      (acts₀ ++ ((parserLoop E fuel >>= fun err => parserFinalize E err endIndex) s).2.2))) :
    Accepted (callsOf (parserLoop E fuel s).2.2) := by
  obtain ⟨final, hfinal, hkeys, -, -⟩ := loop_final E endIndex fuel s
  rw [hfinal, callsOf_append, callsOf_append] at h
  apply h.of_append.of_append_left
  intro hgoes
  cases hcalls : callsOf final with
  | nil =>
    rw [hcalls] at hgoes
    exact hgoes
  | cons c calls =>
    have hno := (hkeys c (by rw [hcalls]; exact List.mem_cons_self)).1
    rw [hcalls] at hgoes
    rcases hgoes with hkey | hkey
    · rw [hkey] at hno
      exact hno .arg
    · rw [hkey] at hno
      exact hno .args

/-- Behind `parser_init` nothing is initialized. -/
theorem loop_welcomed (fuel : ℕ) (s : Parser π σ) :
    Welcomed ((parserLoop E fuel >>= fun err => parserFinalize E err endIndex) s).2.2 := by
  obtain ⟨final, hfinal, hkeys, -, -⟩ := loop_final E endIndex fuel s
  rw [hfinal, Welcomed.append]
  constructor
  · intro c hc hkey
    have hparsed := (parses_parserLoop E fuel s).parsed c hc
    rw [hkey] at hparsed
    cases hparsed
  · intro c hc hkey
    exact ((hkeys c hc).2 hkey).elim

/-- A loop that faults does not come to `parser_finalize`. -/
theorem loop_fault {fuel : ℕ} {s : Parser π σ} {e : Fault} (h : (parserLoop E fuel s).1 = .error e)
    (next : ℤ) (argv : List CStr) : .finalizes next argv ∉
      ((parserLoop E fuel >>= fun err => parserFinalize E err endIndex) s).2.2 := by
  obtain ⟨final, hfinal, -, herror, -⟩ := loop_final E endIndex fuel s
  rw [hfinal, herror e h, List.append_nil]
  exact (parses_parserLoop E fuel s).noFinalizes next argv

/-- A loop that ends at the end of `argv`. -/
theorem loop_over {X : Setting π} {fuel : ℕ} {s s' : Parser π σ} {acts : List Act}
    {ds : List Delivery} {argv : List CStr} (hrun : parserLoop E fuel s = (.ok EBADKEY, s', acts))
    (hover : Over X argv s') (hds : deliveries acts = ds) :
    deliveries ((parserLoop E fuel >>= fun err => parserFinalize E err endIndex) s).2.2 = ds ∧
      .finalizes argv.length argv ∈
        ((parserLoop E fuel >>= fun err => parserFinalize E err endIndex) s).2.2 := by
  obtain ⟨final, hfinal, hkeys, -, hmem⟩ := loop_final E endIndex fuel s
  have hlast : deliveries final = [] := by
    apply deliveries_nil
    · intro c hc key hkey
      have hno := (hkeys c hc).1
      rw [hkey] at hno
      exact hno (.option key)
    · intro c hc hkey
      have hno := (hkeys c hc).1
      rw [hkey] at hno
      exact hno .arg
  obtain ⟨-, p, hp, hargv, hnext⟩ := hover
  have hend := hmem _ _ _ hrun
  rw [hp.argv, hp.next, hnext, hargv] at hend
  rw [hfinal, hrun]
  refine ⟨?_, List.mem_append_right _ hend⟩
  rw [deliveries_append, hlast, List.append_nil]
  exact hds

/-- For every parse in which the parsers accept the options and arguments, and leave `state->next`
alone: it dispatches what the scan finds if and only if there is storage, no parser fails to
initialize, and no lookup comes to a group without an options array. -/
theorem dispatched_iff (scan : Scan) (hE : Passive E)
    (hscan : Scans (treeGroups (topArgp defaults argp start.flags)) (Has start.flags ARGP_LONG_ONLY)
      (orderingOf E.posixlyCorrect start.flags = .requireOrder)
      (elementsOf start.flags start.argv) scan)
    (hoption : ∀ use ∈ scan.uses,
      HasParser (treeGroups (topArgp defaults argp start.flags)) use.group)
    (harg : scan.args ++ scan.rest ≠ [] →
      ∃ g, HasParser (treeGroups (topArgp defaults argp start.flags)) g)
    (haccepted : ∀ fuel,
      Accepted (callsOf (argpParse E defaults fuel argp start endIndex).acts)) :
    (∃ n, ∀ fuel, n ≤ fuel → Dispatched (argpParse E defaults fuel argp start endIndex).acts
      start (orderingOf E.posixlyCorrect start.flags) scan) ↔
    (E.malloc ∧ Convertible (Has start.flags ARGP_LONG_ONLY)
        (treeGroups (topArgp defaults argp start.flags))) ∧
      (∀ fuel, Welcomed (argpParse E defaults fuel argp start endIndex).acts) ∧
      ∀ use ∈ scan.uses, Reached (treeGroups (topArgp defaults argp start.flags)) use.name := by
  by_cases hconv : E.malloc ∧ Convertible (Has start.flags ARGP_LONG_ONLY)
    (treeGroups (topArgp defaults argp start.flags))
  · rw [and_iff_right hconv]
    obtain ⟨cvt, hgroups, hshort, hacts⟩ := argpParse_parses E defaults argp start endIndex hconv
    rw [← hgroups] at hscan hoption harg ⊢
    simp only [hacts] at haccepted ⊢
    obtain ⟨err, s₀, acts₀, hrun₀, hinit, hwelcomed, hstands⟩ :=
      initParsers_stands hE (setUp_stands E cvt start hshort) rfl
    have hquiet : deliveries acts₀ = [] := by
      apply deliveries_nil
      · intro c hc key hkey
        rw [hinit.keys c hc] at hkey
        cases hkey
      · intro c hc hkey
        rw [hinit.keys c hc] at hkey
        cases hkey
    by_cases herr : err = 0
    · have hparse : ∀ fuel, (parse E fuel start.argv endIndex (setUp E cvt start)).2.2 =
          acts₀ ++ ((parserLoop E fuel >>= fun err => parserFinalize E err endIndex) s₀).2.2 := by
        intro fuel
        unfold parse
        rw [Faulting.bind_ok hrun₀, if_pos herr]
      simp only [hparse] at haccepted ⊢
      obtain ⟨n, hn⟩ := scan_reaches hE hscan _ (hstands herr) hoption harg
      constructor
      · intro h
        obtain ⟨m, hm⟩ := h
        constructor
        · intro fuel
          rw [Welcomed.append]
          exact ⟨hwelcomed.mpr herr, loop_welcomed E endIndex fuel s₀⟩
        · by_contra hno
          have hacc := loop_accepted E endIndex (haccepted (max n m))
          have hfault := (hn (max n m) (le_max_left n m) hacc).2 hno
          obtain ⟨argv, -, -, hmem⟩ := (hm (max n m) (le_max_right n m)).finalized
          rcases List.mem_append.mp hmem with hmem | hmem
          · exact hinit.noFinalizes _ _ hmem
          · exact loop_fault E endIndex hfault _ _ hmem
      · intro h
        refine ⟨n, ?_⟩
        intro fuel hfuel
        have hacc := loop_accepted E endIndex (haccepted fuel)
        obtain ⟨s', acts, hrun, hover, hds⟩ := (hn fuel hfuel hacc).1 h.2
        obtain ⟨hdelivered, hfinalized⟩ := loop_over E endIndex hrun hover hds
        have hperm := (scan.permuted_perm (orderingOf E.posixlyCorrect start.flags)).append_left
          (nameOf start.flags start.argv)
        rw [hscan.elems, nameOf_append] at hperm
        constructor
        · rw [deliveries_append, hquiet]
          exact hdelivered
        · exact hscan.elems
        · exact ⟨_, rfl, hperm, List.mem_append_right _ hfinalized⟩
    · have hparse : ∀ fuel, (parse E fuel start.argv endIndex (setUp E cvt start)).2.2 = acts₀ := by
        intro fuel
        unfold parse
        rw [Faulting.bind_ok hrun₀, if_neg herr]
        exact List.append_nil acts₀
      simp only [hparse]
      constructor
      · intro h
        obtain ⟨m, hm⟩ := h
        obtain ⟨argv, -, -, hmem⟩ := (hm m (Nat.le_refl m)).finalized
        exact (hinit.noFinalizes _ _ hmem).elim
      · intro h
        exact (herr (hwelcomed.mp (h.1 0))).elim
  · constructor
    · intro h
      obtain ⟨n, hn⟩ := h
      obtain ⟨argv, -, -, hmem⟩ := (hn n (Nat.le_refl n)).finalized
      rw [argpParse_nothing E defaults argp start endIndex n hconv] at hmem
      cases hmem
    · intro h
      exact (hconv h.1).elim

end

/-! ### One option and one argument -/

/-- An argp without options of its own, above one with `-a`. -/
def parentArgp : Argp Unit := .node none (some ()) [argpA]

/-- The scan of `-a x`, with the group of `-a`. -/
def scanA (g : ℕ) : Scan where
  items := [.option [[dash, letterA]] [⟨.short letterA, g, optionA, none⟩], .arg [letterX]]
  quoted := false
  rest := []

theorem acceptAll_passive : Passive acceptAll where
  next _ _ _ _ _ := rfl
  argv _ _ _ _ _ := rfl
  longOnly _ _ _ _ _ := Iff.rfl
  argv0 _ _ _ _ _ := Iff.rfl

theorem startA_scans {groups : List (Group Unit)} {g : ℕ}
    (h : Finds groups (.short ⟨97, by decide⟩) g optionA) :
    Scans groups false false (elementsOf startA.flags startA.argv) (scanA g) := by
  have hshort : classify groups false [dash, ⟨97, by decide⟩] =
      .ok (.shortOption ⟨97, by decide⟩ []) := rfl
  have harg : classify groups false [⟨120, by decide⟩] = .ok .arg := rfl
  have hbundle : Bundle groups [⟨97, by decide⟩] ([] ++ [[⟨120, by decide⟩]])
      [⟨.short ⟨97, by decide⟩, g, optionA, none⟩] [[⟨120, by decide⟩]] :=
    .flag h rfl (.done _)
  exact .short hshort hbundle (.arg harg rfl .done)

/-- The groups with one argp: that of the caller. -/
def groupsA (argp : Argp Unit) : List (Group Unit) :=
  treeGroups (topArgp noDefaults (some argp) startA.flags)

def actsA (argp : Argp Unit) (fuel : ℕ) : List Act :=
  (argpParse acceptAll noDefaults fuel (some argp) startA false).acts

theorem parentArgp_finds : Finds (groupsA parentArgp) (.short ⟨97, by decide⟩) 1 optionA := by
  show findShortOption _ _ _ = _
  decide +kernel

theorem parentArgp_acts (fuel : ℕ) : actsA parentArgp fuel = actsA parentArgp 0 := by
  match fuel with
  | 0 => rfl
  | 1 => rfl
  | fuel + 2 => rfl

/-- The lookup of `-a` reads the options array of the parent, which is not there: all the parsers
accept, but get nothing. -/
theorem parentArgp_undispatched : Passive acceptAll ∧
    Scans (groupsA parentArgp) false false (elementsOf startA.flags startA.argv) (scanA 1) ∧
    (∀ g, g < 2 → HasParser (groupsA parentArgp) g) ∧
    (∀ fuel, Accepted (callsOf (actsA parentArgp fuel))) ∧
    ¬∃ n, ∀ fuel, n ≤ fuel → Dispatched (actsA parentArgp fuel) startA
      (orderingOf acceptAll.posixlyCorrect startA.flags) (scanA 1) := by
  refine ⟨acceptAll_passive, startA_scans parentArgp_finds, ?_, ?_, ?_⟩
  · intro g hg
    match g with
    | 0 => exact ⟨_, rfl, rfl⟩
    | 1 => exact ⟨_, rfl, rfl⟩
  · intro fuel
    rw [parentArgp_acts]
    exact ⟨trivial, trivial, trivial⟩
  · intro h
    obtain ⟨n, hn⟩ := h
    have hdelivered := (hn n (Nat.le_refl n)).delivered
    rw [parentArgp_acts] at hdelivered
    cases hdelivered

theorem argpA_finds : Finds (groupsA argpA) (.short ⟨97, by decide⟩) 0 optionA := by
  show findShortOption _ _ _ = _
  decide +kernel

theorem argpA_acts (fuel : ℕ) : actsA argpA fuel = actsA argpA (min fuel 6) := by
  match fuel with
  | 0 => rfl
  | 1 => rfl
  | 2 => rfl
  | 3 => rfl
  | 4 => rfl
  | 5 => rfl
  | fuel + 6 =>
    rw [Nat.min_eq_right (Nat.le_add_left 6 fuel)]
    rfl

theorem accepted_of_all {calls : List Call}
    (h : calls.all (fun c => c.err = 0 ∧ c.key ≠ .args) = true) : Accepted calls := by
  induction calls with
  | nil => trivial
  | cons c calls ih =>
    rw [List.all_cons, Bool.and_eq_true, decide_eq_true_iff] at h
    refine ⟨?_, ih h.2⟩
    cases hk : c.key with
    | option key => exact h.1.1
    | arg => exact .inl h.1.1
    | args => exact (h.1.2 hk).elim
    | _ => trivial

theorem argpA_accepts (fuel : ℕ) : (callsOf (actsA argpA fuel)).all
    (fun c => c.err = 0 ∧ c.key ≠ .args) = true := by
  rw [argpA_acts]
  have hall : ∀ n, n < 7 →
      (callsOf (actsA argpA n)).all (fun c => c.err = 0 ∧ c.key ≠ .args) = true := by
    decide +kernel
  exact hall _ (by omega)

/-- With `-a` in the only group, `prog -a x` is dispatched. -/
theorem argpA_dispatched : ∃ n, ∀ fuel, n ≤ fuel → Dispatched (actsA argpA fuel) startA
    (orderingOf acceptAll.posixlyCorrect startA.flags) (scanA 0) := by
  have hparser : HasParser (groupsA argpA) 0 := ⟨_, rfl, rfl⟩
  refine (dispatched_iff acceptAll noDefaults (some argpA) startA false (scanA 0) acceptAll_passive
    (startA_scans argpA_finds) ?_ (fun _ => ⟨0, hparser⟩)
    fun fuel => accepted_of_all (argpA_accepts fuel)).mpr ⟨⟨rfl, ?_⟩, ?_, ?_⟩
  · intro use huse
    rw [List.mem_singleton.mp huse]
    exact hparser
  · intro hlong
    cases hlong
  · intro fuel c hc _
    have hall := List.all_eq_true.mp (argpA_accepts fuel) c hc
    exact .inl (of_decide_eq_true hall).1
  · intro use huse
    rw [List.mem_singleton.mp huse]
    show findShortOption _ _ _ ≠ _
    decide +kernel

end MuslBsd.Argp
