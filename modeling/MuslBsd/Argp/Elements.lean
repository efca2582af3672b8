import MuslBsd.Argp.Order

/-! What one round of the parsing loop does with each kind of element. -/
namespace MuslBsd.Argp
open MuslBsd.Support
open Faulting (Returns)

variable {π σ : Type} {E : Env π σ} {X : Setting π} {p : Pos} {s : Parser π σ}

/-! ### Elements -/

/-- The short options matter only with `ARGP_LONG_ONLY`. -/
theorem Stands.classify (h : Stands X p s) (a : CStr) :
    classifyArg (Has s.flags ARGP_LONG_ONLY) s.shortOpts a = classify X.groups X.longOnly a := by
  have hflag : decide (Has s.flags ARGP_LONG_ONLY) = X.longOnly := by
    rw [Bool.eq_iff_iff, decide_eq_true_iff]
    exact h.longOnly
  unfold Argp.classify
  rw [hflag]
  cases hlong : X.longOnly with
  | true => rw [h.shortOpts hlong]
  | false =>
    unfold classifyArg
    rfl

/-- A round that looks at an element. -/
theorem parserParseNext_element (h : Stands X p s) (hn : p.nextchar = none)
    (hargs : p.argsOnly = false) {a : CStr} (ha : p.argv[p.next]? = some a) {type : ArgType}
    (hc : classify X.groups X.longOnly a = .ok type) :
    parserParseNext E s = parseElement E a type s := by
  have hlt : ¬s.argc ≤ s.next := by
    have hin := (List.getElem?_eq_some_iff.mp ha).1
    rw [h.argc, h.next]
    omega
  have hno : ¬s.argsOnly = true := by
    rw [h.argsOnly, hargs]
    simp
  have hval : s.argv[p.next]? = some a := by
    rw [h.argv]
    exact ha
  rw [parserParseNext_none h hn, if_neg hno, if_neg hlt, argvAt_run h.next hval,
    look_run ((h.classify a).trans hc)]

/-- A round of a parse with the same run. -/
theorem returns_of_eq {α : Type} {m m' : ParserM π σ α} {post : α → Parser π σ → List Act → Prop}
    (h : m s = m' s) : Returns m s post ↔ Returns m' s post := by
  unfold Returns
  rw [h]

/-- The end of a round without calls. -/
theorem moves_silent {after : Parser π σ → Prop} (h : after s) :
    Returns (pure 0 : ParserM π σ ℤ) s (Moves after []) := by
  rw [Faulting.returns_pure]
  exact .inl ⟨rfl, h, rfl⟩

/-- The first element of a bundle. -/
theorem moves_shortOption (h : Stands X p s) (hn : p.nextchar = none) (hargs : p.argsOnly = false)
    {a : CStr} (ha : p.argv[p.next]? = some a) {first : CChar} {rest : CStr}
    (hc : classify X.groups X.longOnly a = .ok (.shortOption first rest)) :
    Returns (parserParseNext E) s (Moves
      (Stands X { p with next := p.next + 1, nextchar := some (first, rest) }) []) := by
  have hset := h.setNext (Nat.le_succ p.next)
  rw [returns_of_eq (parserParseNext_element h hn hargs ha hc)]
  unfold parseElement
  rw [returns_modify_bind]
  apply moves_silent
  have hnext : s.next + 1 = ((p.next + 1 : ℕ) : ℤ) := by
    rw [h.next]
    rfl
  rw [hnext]
  exact { hset with nextchar := rfl }

/-- An argument that is delivered where it is. -/
theorem moves_inOrder (hE : Passive E) (h : Stands X p s) (hn : p.nextchar = none)
    (hargs : p.argsOnly = false) (ho : X.ordering = .returnInOrder) {a : CStr}
    (ha : p.argv[p.next]? = some a) (hc : classify X.groups X.longOnly a = .ok .arg)
    (hparser : ∃ g, HasParser X.groups g) :
    Returns (parserParseNext E) s (Moves (Stands X { p with next := p.next + 1 }) [.arg a]) := by
  rw [returns_of_eq (parserParseNext_element h hn hargs ha hc)]
  unfold parseElement parseNonOption
  rw [returns_get_bind, h.ordering, ho]
  dsimp only
  rw [returns_setEbadkey_bind]
  exact parseArg_moves hE (h.setEbadkey true) a hparser

/-- The first argument ends option recognition. -/
theorem moves_stop (h : Stands X p s) (hn : p.nextchar = none) (hargs : p.argsOnly = false)
    (ho : X.ordering = .requireOrder) {a : CStr} (ha : p.argv[p.next]? = some a)
    (hc : classify X.groups X.longOnly a = .ok .arg) :
    Returns (parserParseNext E) s (Moves (Stands X { p with argsOnly := true }) []) := by
  rw [returns_of_eq (parserParseNext_element h hn hargs ha hc)]
  unfold parseElement parseNonOption
  rw [returns_get_bind, h.ordering, ho]
  dsimp only
  rw [returns_modify_bind]
  apply moves_silent
  exact { h with
    argsOnly := rfl
    unquoted := fun hbad => (Bool.noConfusion hbad) }

/-! ### Behind option recognition -/

/-- The position with `done` behind it and `rest` ahead, all of them arguments. -/
def Rests (X : Setting π) (done rest : List CStr) (s : Parser π σ) : Prop :=
  ∃ first last, Stands X ⟨done ++ rest, done.length, first, last, none, true⟩ s

/-- One more argument. -/
theorem moves_rest (hE : Passive E) {done rest : List CStr} {a : CStr}
    (h : Rests X done (a :: rest) s) (hparser : ∃ g, HasParser X.groups g) :
    Returns (parserParseNext E) s (Moves (Rests X (done ++ [a]) rest) [.arg a]) := by
  obtain ⟨first, last, hs⟩ := h
  have hset := hs.setEbadkey true
  have hlt : ¬s.argc ≤ s.next := by
    rw [hs.argc, hs.next]
    simp only [List.length_append, List.length_cons]
    omega
  have hval : s.argv[done.length]? = some a := by
    rw [hs.argv]
    simp
  rw [returns_of_eq (parserParseNext_none hs rfl), if_pos hs.argsOnly, returns_setEbadkey_bind,
    if_neg hlt, returns_of_eq (argvAt_run (s := { s with argEbadkey := true }) hs.next hval)]
  apply (parseArg_moves hE hset a hparser).mono
  intro err s' acts hmoves
  rcases hmoves with ⟨hzero, hs', hacts⟩ | hno
  · refine .inl ⟨hzero, ⟨first, last, ?_⟩, hacts⟩
    have hlen : (done ++ [a]).length = done.length + 1 := by simp
    rw [List.append_assoc, hlen]
    exact hs'
  · exact .inr hno

/-- The end of the parse. -/
def Over (X : Setting π) (argv : List CStr) (s : Parser π σ) : Prop :=
  s.argEbadkey = true ∧ ∃ p, Stands X p s ∧ p.argv = argv ∧ p.next = argv.length

/-- No more arguments. -/
theorem moves_rest_end {done : List CStr} (h : Rests X done [] s) :
    Returns (parserParseNext E) s fun err s' acts => err = EBADKEY ∧ Over X done s' ∧ acts = [] := by
  obtain ⟨first, last, hs⟩ := h
  have hle : s.argc ≤ s.next := by
    rw [hs.argc, hs.next]
    simp
  rw [returns_of_eq (parserParseNext_none hs rfl), if_pos hs.argsOnly, returns_setEbadkey_bind,
    if_pos hle, Faulting.returns_pure]
  exact ⟨rfl, ⟨rfl, _, hs.setEbadkey true, List.append_nil done, rfl⟩, rfl⟩

/-! ### While options are looked for -/

/-- The position with the skipped arguments `skipped`; `front` and `behind` are what has been parsed
in front of them and behind, and `ahead` is what has not. -/
def window (front skipped behind ahead : List CStr) : Pos where
  argv := front ++ skipped ++ behind ++ ahead
  next := front.length + skipped.length + behind.length
  first := front.length
  last := front.length + skipped.length
  nextchar := none
  argsOnly := false

theorem window_getElem? (front skipped behind ahead : List CStr) (a : CStr) :
    (window front skipped behind (a :: ahead)).argv[(window front skipped behind (a :: ahead)).next]? =
      some a := by
  unfold window
  simp [Nat.add_assoc]

/-- The next element belongs to what has been parsed. -/
theorem window_cons (front skipped behind ahead : List CStr) (a : CStr) :
    { window front skipped behind (a :: ahead) with
        next := (window front skipped behind (a :: ahead)).next + 1 } =
      window front skipped (behind ++ [a]) ahead := by
  unfold window
  simp [Nat.add_assoc]

section

variable {front skipped behind ahead : List CStr}

theorem Stands.window_next (h : Stands X (window front skipped behind ahead) s) :
    s.next = front.length + skipped.length + behind.length := h.next

theorem Stands.window_first (h : Stands X (window front skipped behind ahead) s) :
    s.firstNonopt = front.length := h.first

theorem Stands.window_last (h : Stands X (window front skipped behind ahead) s) :
    s.lastNonopt = front.length + skipped.length := h.last

/-- The element that is ahead. -/
theorem Stands.elem {a : CStr} (h : Stands X (window front skipped behind (a :: ahead)) s) :
    s.argv[s.next.toNat]? = some a := by
  rw [h.argv, h.next, Int.toNat_natCast]
  exact window_getElem? _ _ _ _ _

theorem Stands.passed {a : CStr} (h : Stands X (window front skipped behind (a :: ahead)) s) :
    Stands X (window front skipped (behind ++ [a]) ahead) { s with next := s.next + 1 } := by
  have hset := h.setNext (Nat.le_succ (window front skipped behind (a :: ahead)).next)
  have hnext : s.next + 1 = ((window front skipped behind (a :: ahead)).next.succ : ℤ) := by
    rw [h.next]
    rfl
  rw [← window_cons, hnext]
  exact hset

theorem Stands.exchangeable (h : Stands X (window front skipped behind ahead) s) :
    s.Exchangeable := by
  intro _ _
  have hnext := h.window_next
  have hfirst := h.window_first
  have hargc := h.argc
  simp only [window, List.length_append] at hargc
  omega

/-- `exchange`. -/
theorem exchange_window (h : Stands X (window front skipped behind ahead) s) :
    Returns exchange s fun _ s' acts =>
      Stands X (window (front ++ behind) skipped [] ahead) s' ∧ acts = [] := by
  have hnext := h.window_next
  have hfirst := h.window_first
  have hlast := h.window_last
  have hfuel : (s.next - s.firstNonopt).toNat = skipped.length + behind.length := by omega
  have hbottom : s.firstNonopt.toNat = front.length := by omega
  have hmiddle : s.lastNonopt.toNat = front.length + skipped.length := by omega
  have htop : s.next.toNat = front.length + skipped.length + behind.length := by omega
  have hmoved := exchangeSegments_eq (skipped.length + behind.length) front skipped behind ahead
    (Nat.le_refl _)
  rw [returns_exchange h.exchangeable]
  refine ⟨?_, rfl⟩
  exact { h with
    argv := by
      show exchangeSegments _ s.argv _ _ _ = _
      rw [hfuel, hbottom, hmiddle, htop, h.argv]
      show exchangeSegments _ (front ++ skipped ++ behind ++ ahead) _ _ _ = _
      rw [hmoved]
      simp [window]
    next := by
      show s.next = _
      rw [hnext]
      simp [window]
      omega
    first := by
      show s.firstNonopt + (s.next - s.lastNonopt) = _
      simp only [window, List.length_append]
      omega
    last := by
      show s.next = _
      simp only [window, List.length_append]
      omega
    quoted := by
      have hq := h.unquoted rfl
      show s.quoted ≤ _
      rw [hq]
      omega
    firstLe := by simp [window]
    lastLe := by simp [window] }

/-- The skipped arguments end where `next` is. -/
theorem extendNonopts_window (h : Stands X (window front skipped behind ahead) s) :
    Returns extendNonopts s fun _ s' acts =>
      Stands X (window (front ++ behind) skipped [] ahead) s' ∧ acts = [] := by
  have hnext := h.window_next
  have hfirst := h.window_first
  have hlast := h.window_last
  unfold extendNonopts
  rw [returns_get_bind, Faulting.returns_ite]
  constructor
  · intro heq
    have hnil : skipped = [] := by
      apply List.length_eq_zero_iff.mp
      omega
    subst hnil
    rw [returns_modify]
    refine ⟨?_, rfl⟩
    exact { h with
      argv := by
        show s.argv = _
        rw [h.argv]
        simp [window]
      next := by
        show s.next = _
        rw [hnext]
        simp [window]
      first := by
        show s.next = _
        rw [hnext]
        simp [window]
      last := by
        show s.next = _
        rw [hnext]
        simp [window]
      quoted := by
        have hq := h.unquoted rfl
        show s.quoted ≤ _
        rw [hq]
        omega
      firstLe := by simp [window]
      lastLe := by simp [window] }
  · intro _
    rw [Faulting.returns_ite]
    constructor
    · intro _
      exact exchange_window h
    · intro heq
      have hnil : behind = [] := by
        apply List.length_eq_zero_iff.mp
        omega
      subst hnil
      rw [Faulting.returns_pure, List.append_nil]
      exact ⟨h, rfl⟩

/-- An argument is skipped. -/
theorem moves_permute {a : CStr} (h : Stands X (window front skipped behind (a :: ahead)) s)
    (ho : X.ordering = .permute) (hc : classify X.groups X.longOnly a = .ok .arg) :
    Returns (parserParseNext E) s
      (Moves (Stands X (window (front ++ behind) (skipped ++ [a]) [] ahead)) []) := by
  rw [returns_of_eq (parserParseNext_element h rfl rfl (window_getElem? _ _ _ _ _) hc)]
  unfold parseElement parseNonOption
  rw [returns_get_bind, h.ordering, ho]
  dsimp only
  rw [Faulting.returns_bind]
  apply (extendNonopts_window h).mono
  intro _ s' acts hs'
  obtain ⟨hs', rfl⟩ := hs'
  have hlast : s'.lastNonopt = s'.next := by
    rw [hs'.window_last, hs'.window_next]
    simp
  rw [returns_get_bind, if_neg (not_not.mpr hlast), returns_modify_bind]
  apply moves_silent
  exact { hs' with
    argv := by
      show s'.argv = _
      rw [hs'.argv]
      simp [window]
    next := by
      show s'.next + 1 = _
      rw [hs'.window_next]
      simp [window]
      omega
    last := by
      show s'.next + 1 = _
      rw [hs'.window_next]
      simp [window]
      omega
    quoted := by
      have hq := hs'.unquoted rfl
      show s'.quoted ≤ _
      rw [hq]
      omega
    firstLe := by simp [window]
    lastLe := by simp [window] }

/-- The skipped arguments come next again. -/
theorem rewindNonopts_window (h : Stands X (window front skipped behind ahead) s) :
    Returns rewindNonopts s fun _ s' acts =>
      Stands X (window [] [] (front ++ behind) (skipped ++ ahead)) s' ∧ acts = [] := by
  unfold rewindNonopts
  rw [Faulting.returns_bind]
  apply (exchange_window h).mono
  intro _ s' acts hs'
  obtain ⟨hs', rfl⟩ := hs'
  rw [returns_modify]
  refine ⟨?_, rfl⟩
  exact { hs' with
    argv := by
      show s'.argv = _
      rw [hs'.argv]
      simp [window]
    next := by
      show s'.firstNonopt = _
      rw [hs'.window_first]
      simp [window]
    first := rfl
    last := rfl
    quoted := by
      have hq := hs'.unquoted rfl
      show s'.quoted ≤ _
      rw [hq]
      omega
    firstLe := Nat.le_refl _
    lastLe := Nat.zero_le _ }

/-- All that is ahead are arguments from now on. -/
theorem Stands.rest (h : Stands X (window front [] behind ahead) s) {q : ℤ}
    (hq : q ≤ (front ++ behind).length) :
    Rests X (front ++ behind) ahead { s with quoted := q, argsOnly := true } := by
  refine ⟨front.length, front.length, ?_⟩
  exact { h with
    argv := by
      show s.argv = _
      rw [h.argv]
      simp [window]
    next := by
      show s.next = _
      rw [h.window_next]
      simp
    first := h.first
    last := h.last
    quoted := hq
    argsOnly := rfl
    unquoted := fun hbad => (Bool.noConfusion hbad)
    firstLe := Nat.le_refl _
    lastLe := by
      show front.length ≤ (front ++ behind).length
      simp }

theorem window_end (h : Stands X (window front skipped behind []) s) : s.argc ≤ s.next := by
  have hnext := h.window_next
  have hargc := h.argc
  simp only [window, List.length_append, List.length_nil] at hargc
  omega

/-- The end of `argv`, behind skipped arguments. -/
theorem moves_rewind (h : Stands X (window front skipped behind []) s) (hne : skipped ≠ []) :
    Returns (parserParseNext E) s (Moves (Rests X (front ++ behind) skipped) []) := by
  have hargs : ¬s.argsOnly = true := by
    rw [h.argsOnly]
    exact Bool.false_ne_true
  have hdiff : s.firstNonopt ≠ s.lastNonopt := by
    have hpos := List.length_pos_iff.mpr hne
    rw [h.window_first, h.window_last]
    omega
  rw [returns_of_eq (parserParseNext_none h rfl), if_neg hargs, if_pos (window_end h),
    returns_setEbadkey_bind, if_pos hdiff, Faulting.returns_bind]
  apply (rewindNonopts_window (h.setEbadkey true)).mono
  intro _ s' acts hs'
  obtain ⟨hs', rfl⟩ := hs'
  rw [returns_modify_bind]
  apply moves_silent
  have hrest := hs'.rest (q := s'.quoted) (by
    rw [hs'.unquoted rfl]
    omega)
  rw [List.append_nil] at hrest
  exact hrest

/-- The end of `argv`, without any. -/
theorem moves_end (h : Stands X (window front [] behind []) s) :
    Returns (parserParseNext E) s fun err s' acts =>
      err = EBADKEY ∧ Over X (front ++ behind) s' ∧ acts = [] := by
  have hargs : ¬s.argsOnly = true := by
    rw [h.argsOnly]
    exact Bool.false_ne_true
  have hsame : ¬s.firstNonopt ≠ s.lastNonopt := by
    rw [h.window_first, h.window_last]
    simp
  rw [returns_of_eq (parserParseNext_none h rfl), if_neg hargs, if_pos (window_end h),
    returns_setEbadkey_bind, if_neg hsame, Faulting.returns_pure]
  refine ⟨rfl, ⟨rfl, _, h.setEbadkey true, ?_, ?_⟩, rfl⟩
  · simp [window]
  · simp [window]

/-- The `--`. -/
theorem moves_quote {a : CStr} (h : Stands X (window front skipped behind (a :: ahead)) s)
    (hc : classify X.groups X.longOnly a = .ok .quote) :
    Returns (parserParseNext E) s
      (Moves (Rests X (front ++ (behind ++ [a])) (skipped ++ ahead)) []) := by
  have hset := h.passed
  rw [returns_of_eq (parserParseNext_element h rfl rfl (window_getElem? _ _ _ _ _) hc)]
  unfold parseElement parseQuote
  have hno : ¬s.lastNonopt = s.next + 1 := by
    rw [h.window_last, h.window_next]
    omega
  rw [returns_modify_bind, returns_get_bind, if_neg hno, Faulting.returns_ite]
  have hquote : ∀ {s' : Parser π σ} (front' behind' ahead' : List CStr),
      Stands X (window front' [] behind' ahead') s' →
      Returns (do
        modify fun s => { s with quoted := s.next, argsOnly := true }
        pure 0) s' (Moves (Rests X (front' ++ behind') ahead') []) := by
    intro s' front' behind' ahead' hs'
    rw [returns_modify_bind]
    apply moves_silent
    apply hs'.rest
    rw [hs'.window_next]
    simp
  constructor
  · intro _
    rw [Faulting.returns_bind]
    apply (rewindNonopts_window hset).mono
    intro _ s' acts hs'
    obtain ⟨hs', rfl⟩ := hs'
    exact hquote [] _ _ hs'
  · intro heq
    have hnil : skipped = [] := by
      have hfirst := h.window_first
      have hlast := h.window_last
      apply List.length_eq_zero_iff.mp
      have hsame := not_not.mp heq
      change s.firstNonopt = s.lastNonopt at hsame
      omega
    subst hnil
    exact hquote _ _ _ hset

end

/-! ### Long options -/

theorem Stands.options (h : Stands X p s) (g : ℕ) :
    (s.groups g).options = (X.groups.getD g .nil).options := (h.groups g).options

/-- The round that begins with a long option. -/
theorem parserParseNext_long (h : Stands X p s) (hn : p.nextchar = none) (hargs : p.argsOnly = false)
    {a opt : CStr} (ha : p.argv[p.next]? = some a)
    (hc : classify X.groups X.longOnly a = .ok (.longOption opt) ∨
      classify X.groups X.longOnly a = .ok (.longOnlyOption opt)) :
    ∃ start, parserParseNext E s = parseLong E a start opt s := by
  rcases hc with hc | hc
  · exact ⟨[dash, dash], parserParseNext_element h hn hargs ha hc⟩
  · exact ⟨a.take 1, parserParseNext_element h hn hargs ha hc⟩

section

variable {front skipped behind taken left : List CStr}

/-- A long option, with its argument if that is the next element. -/
theorem moves_long (hE : Passive E) {a opt : CStr} {use : Use}
    (h : Stands X (window front skipped behind (a :: (taken ++ left))) s)
    (hc : classify X.groups X.longOnly a = .ok (.longOption opt) ∨
      classify X.groups X.longOnly a = .ok (.longOnlyOption opt))
    (hlong : Long X.groups opt (taken ++ left) use left) (hreach : Reached X.groups use.name)
    (hg : HasParser X.groups use.group) :
    Returns (parserParseNext E) s (Moves
      (Stands X (window front skipped (behind ++ a :: taken) left)) [use.delivery]) := by
  have hset := h.passed
  obtain ⟨start, hstart⟩ :=
    parserParseNext_long (E := E) h rfl rfl (window_getElem? _ _ _ _ _) hc
  rw [returns_of_eq hstart]
  unfold parseLong
  rw [returns_modify_bind, returns_look_bind]
  generalize hafter : taken ++ left = after at hlong
  cases hlong with
  | given found allowed omitted =>
    rename_i g o
    have htaken : taken = [] := List.append_left_eq_self.mp hafter
    subst htaken
    refine ⟨.inl (g, o), ?_, ?_⟩
    · rw [h.numGroups]
      exact (found.long hset.options).1 hreach
    · have hno : ¬((valueOf opt).isSome ∧ o.arg = none) := by
        intro hbad
        exact allowed (Option.isSome_iff_ne_none.mp hbad.1) hbad.2
      have hno' : ¬(o.arg.isSome ∧ valueOf opt = none ∧ ¬Has o.flags OPTION_ARG_OPTIONAL) := by
        intro hbad
        exact hbad.2.2 (omitted hbad.2.1 (Option.isSome_iff_ne_none.mp hbad.1))
      dsimp only
      rw [if_neg hno, if_neg hno', returns_setEbadkey_bind]
      exact groupParse_moves hE (hset.setEbadkey false) hg o.key (valueOf opt)
  | separate found arg bare required =>
    rename_i value g o
    have htaken : taken = [value] := by
      have happ : taken ++ left = [value] ++ left := hafter
      exact List.append_cancel_right happ
    subst htaken
    have hset' := hset.passed
    refine ⟨.inl (g, o), ?_, ?_⟩
    · rw [h.numGroups]
      exact (found.long hset.options).1 hreach
    · have hno : ¬((valueOf opt).isSome ∧ o.arg = none) := by
        intro hbad
        exact arg hbad.2
      have hyes : o.arg.isSome ∧ valueOf opt = none ∧ ¬Has o.flags OPTION_ARG_OPTIONAL :=
        ⟨Option.isSome_iff_ne_none.mpr arg, bare, required⟩
      have hlt : ¬s.next + 1 = s.argc := by
        have hargc := h.argc
        rw [h.window_next]
        simp only [window, List.length_append, List.length_cons] at hargc
        omega
      dsimp only
      rw [if_neg hno, if_pos hyes, returns_get_bind]
      change Returns (if s.next + 1 = s.argc then _ else _) _ _
      rw [if_neg hlt, returns_argvAt_bind]
      refine ⟨?_, value, hset.elem, ?_⟩
      · rw [hset.next]
        exact Int.natCast_nonneg _
      · rw [returns_setNext_bind, returns_setEbadkey_bind]
        have hend := groupParse_moves hE (hset'.setEbadkey false) hg o.key (some value)
        rw [List.append_assoc] at hend
        exact hend

/-- A long option that is not found. -/
theorem faults_long {a opt : CStr} {use : Use} {ahead : List CStr}
    (h : Stands X (window front skipped behind (a :: (taken ++ left))) s)
    (hc : classify X.groups X.longOnly a = .ok (.longOption opt) ∨
      classify X.groups X.longOnly a = .ok (.longOnlyOption opt))
    (hlong : Long X.groups opt ahead use left) (hreach : ¬Reached X.groups use.name) :
    (parserParseNext E s).1 = .error .nullOptions := by
  have hset := h.passed
  obtain ⟨start, hstart⟩ :=
    parserParseNext_long (E := E) h rfl rfl (window_getElem? _ _ _ _ _) hc
  have hfound : findLongOption s.groups s.numGroups opt = .error .nullOptions := by
    rw [h.numGroups]
    cases hlong with
    | given found allowed omitted => exact (found.long hset.options).2 hreach
    | separate found arg bare required => exact (found.long hset.options).2 hreach
  rw [hstart]
  unfold parseLong modify
  rw [Faulting.modify_bind_run, look_fault hfound]

end

/-! ### Short options -/

section

/-- The round that goes on with a bundle. -/
theorem parserParseNext_short (h : Stands X p s) {c : CChar} {rest : CStr}
    (hn : p.nextchar = some (c, rest)) : parserParseNext E s = parseShort E c rest s := by
  have hsome : s.nextchar = some (c, rest) := h.nextchar.trans hn
  unfold parserParseNext get
  unfold modify
  rw [Faulting.modify_bind_run, settle_eq h, Faulting.gets_bind_run]
  simp only [id_eq, hsome]

/-- A short option that is found. -/
theorem returns_parseShort {post : ℤ → Parser π σ → List Act → Prop} (h : Stands X p s)
    (hargs : p.argsOnly = false) {c : CChar} {rest : CStr} {g : ℕ} {o : ArgpOption}
    (found : Finds X.groups (.short c) g o) (hreach : Reached X.groups (.short c)) :
    Returns (parseShort E c rest) s post ↔ Returns (if o.arg.isSome then do
        modify fun s => { s with nextchar := none }
        if rest = [] ∧ ¬Has o.flags OPTION_ARG_OPTIONAL then do
          if s.next = s.argc then do
            print (.shortRequiresArgument c)
            setEbadkey false
            pure EBADKEY
          else do
            let value ← argvAt s.next
            setNext (s.next + 1)
            groupParse E g (.option o.key) (some value)
        else
          groupParse E g (.option o.key) (if rest = [] then none else some rest)
      else
        groupParse E g (.option o.key) none) { s with nextchar := bundle rest } post := by
  have hno : ¬s.argsOnly = true := by
    rw [h.argsOnly, hargs]
    exact Bool.false_ne_true
  have hfound : findShortOption s.groups s.numGroups (charToInt c) = .ok (some (g, o)) := by
    rw [h.numGroups]
    exact (found.short h.options).1 hreach
  unfold parseShort
  rw [returns_get_bind, if_neg hno, returns_modify_bind, returns_look_bind]
  constructor
  · intro hret
    obtain ⟨found', hfound', hret⟩ := hret
    cases hfound.symm.trans hfound'
    exact hret
  · intro hret
    exact ⟨_, hfound, hret⟩

theorem faults_short (h : Stands X p s) (hargs : p.argsOnly = false) {c : CChar} {rest : CStr}
    (hn : p.nextchar = some (c, rest)) {g : ℕ} {o : ArgpOption}
    (found : Finds X.groups (.short c) g o) (hreach : ¬Reached X.groups (.short c)) :
    (parserParseNext E s).1 = .error .nullOptions := by
  have hno : ¬s.argsOnly = true := by
    rw [h.argsOnly, hargs]
    exact Bool.false_ne_true
  have hfound : findShortOption s.groups s.numGroups (charToInt c) = .error .nullOptions := by
    rw [h.numGroups]
    exact (found.short h.options).2 hreach
  rw [parserParseNext_short h hn]
  unfold parseShort get modify
  rw [Faulting.gets_bind_run]
  simp only [id_eq]
  rw [if_neg hno, Faulting.modify_bind_run,
    look_fault (s := { s with nextchar := bundle rest })
      (g := fun s => findShortOption s.groups s.numGroups (charToInt c)) hfound]

/-- A flag. -/
theorem moves_flag (hE : Passive E) (h : Stands X p s) (hargs : p.argsOnly = false) {c : CChar}
    {rest : CStr} (hn : p.nextchar = some (c, rest)) {g : ℕ} {o : ArgpOption}
    (found : Finds X.groups (.short c) g o) (hreach : Reached X.groups (.short c))
    (hg : HasParser X.groups g) (arg : o.arg = none) :
    Returns (parserParseNext E) s
      (Moves (Stands X { p with nextchar := bundle rest }) [.option g o.key none]) := by
  have hno : ¬o.arg.isSome = true := by
    rw [arg]
    exact Bool.false_ne_true
  rw [returns_of_eq (parserParseNext_short h hn), returns_parseShort h hargs found hreach,
    if_neg hno]
  have hset : Stands X { p with nextchar := bundle rest } { s with nextchar := bundle rest } :=
    { h with nextchar := rfl }
  exact groupParse_moves hE hset hg o.key none

/-- An option with its argument in the same element, or without one. -/
theorem moves_joined (hE : Passive E) (h : Stands X p s) (hargs : p.argsOnly = false) {c : CChar}
    {rest : CStr} (hn : p.nextchar = some (c, rest)) {g : ℕ} {o : ArgpOption}
    (found : Finds X.groups (.short c) g o) (hreach : Reached X.groups (.short c))
    (hg : HasParser X.groups g) (arg : o.arg ≠ none)
    (joined : rest = [] → Has o.flags OPTION_ARG_OPTIONAL) :
    Returns (parserParseNext E) s (Moves (Stands X { p with nextchar := none })
      [.option g o.key (if rest = [] then none else some rest)]) := by
  have hno : ¬(rest = [] ∧ ¬Has o.flags OPTION_ARG_OPTIONAL) := by
    intro hbad
    exact hbad.2 (joined hbad.1)
  rw [returns_of_eq (parserParseNext_short h hn), returns_parseShort h hargs found hreach,
    if_pos (Option.isSome_iff_ne_none.mpr arg), returns_modify_bind, if_neg hno]
  have hset : Stands X { p with nextchar := none } { s with nextchar := none } :=
    { h with nextchar := rfl }
  exact groupParse_moves hE hset hg o.key _

/-- An option whose argument is the next element. -/
theorem moves_separate (hE : Passive E) {front skipped behind left : List CStr} {value : CStr}
    {c : CChar} (h : Stands X
      { window front skipped behind (value :: left) with nextchar := some (c, []) } s)
    {g : ℕ} {o : ArgpOption} (found : Finds X.groups (.short c) g o)
    (hreach : Reached X.groups (.short c)) (hg : HasParser X.groups g) (arg : o.arg ≠ none)
    (required : ¬Has o.flags OPTION_ARG_OPTIONAL) :
    Returns (parserParseNext E) s (Moves (Stands X (window front skipped (behind ++ [value]) left))
      [.option g o.key (some value)]) := by
  have hset : Stands X (window front skipped behind (value :: left)) { s with nextchar := none } :=
    { h with nextchar := rfl }
  have hlt : ¬s.next = s.argc := by
    have hnext := h.next
    have hargc := h.argc
    simp only [window, List.length_append, List.length_cons] at hnext hargc
    omega
  rw [returns_of_eq (parserParseNext_short h rfl), returns_parseShort h rfl found hreach,
    if_pos (Option.isSome_iff_ne_none.mpr arg), returns_modify_bind, if_pos ⟨rfl, required⟩,
    if_neg hlt, returns_argvAt_bind]
  refine ⟨?_, value, hset.elem, ?_⟩
  · rw [h.next]
    exact Int.natCast_nonneg _
  · rw [returns_setNext_bind]
    exact groupParse_moves hE hset.passed hg o.key (some value)

end

end MuslBsd.Argp
