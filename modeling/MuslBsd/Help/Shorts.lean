import MuslBsd.Argp.Lookup
import MuslBsd.Help.Hol

/-! The short options of a hol: which entry has which character of the string, and that it is the one
whose option the parser finds. -/
namespace MuslBsd.Help
open MuslBsd.Argp

/-! ### Recording short options -/

/-- The string after these options. -/
def addShorts (so : List ℤ) (os : List ArgpOption) : List ℤ := os.foldl addShort so

/-- The string after the options of these entries. -/
def recorded (so : List ℤ) (es : List HolEntry) : List ℤ :=
  es.foldl (fun so e => addShorts so e.options) so

theorem mem_addShort {so : List ℤ} {o : ArgpOption} {c : ℤ} :
    c ∈ addShort so o ↔ c ∈ so ∨ o.IsShort ∧ o.key = c := by
  unfold addShort
  split
  · next h =>
    rw [List.mem_append, List.mem_singleton]
    constructor
    · rintro (hc | rfl)
      · exact .inl hc
      · exact .inr ⟨h.1, rfl⟩
    · rintro (hc | ⟨-, rfl⟩)
      · exact .inl hc
      · exact .inr rfl
  · next h =>
    constructor
    · exact .inl
    · rintro (hc | ⟨hshort, rfl⟩)
      · exact hc
      · exact not_not.mp fun hnew => h ⟨hshort, hnew⟩

theorem mem_addShorts {so : List ℤ} {os : List ArgpOption} {c : ℤ} :
    c ∈ addShorts so os ↔ c ∈ so ∨ ∃ o ∈ os, o.IsShort ∧ o.key = c := by
  induction os generalizing so with
  | nil => simp [addShorts]
  | cons o os ih =>
    have hstep : c ∈ addShorts (addShort so o) os ↔ _ := ih
    rw [mem_addShort] at hstep
    rw [List.exists_mem_cons_iff, ← or_assoc]
    exact hstep

theorem mem_recorded {so : List ℤ} {es : List HolEntry} {c : ℤ} :
    c ∈ recorded so es ↔ c ∈ so ∨ ∃ e ∈ es, ∃ o ∈ e.options, o.IsShort ∧ o.key = c := by
  induction es generalizing so with
  | nil => simp [recorded]
  | cons e es ih =>
    have hstep : c ∈ recorded (addShorts so e.options) es ↔ _ := ih
    rw [mem_addShorts] at hstep
    rw [List.exists_mem_cons_iff, ← or_assoc]
    exact hstep

theorem prefix_addShort (so : List ℤ) (o : ArgpOption) : so <+: addShort so o := by
  unfold addShort
  split
  · exact List.prefix_append so _
  · exact List.prefix_rfl

theorem prefix_addShorts (so : List ℤ) (os : List ArgpOption) : so <+: addShorts so os := by
  induction os generalizing so with
  | nil => exact List.prefix_rfl
  | cons o os ih => exact (prefix_addShort so o).trans (ih _)

theorem prefix_recorded (so : List ℤ) (es : List HolEntry) : so <+: recorded so es := by
  induction es generalizing so with
  | nil => exact List.prefix_rfl
  | cons e es ih => exact (prefix_addShorts so e.options).trans (ih _)

theorem nodup_addShort {so : List ℤ} (h : so.Nodup) (o : ArgpOption) : (addShort so o).Nodup := by
  unfold addShort
  split
  · next hnew =>
    have hnot : ∀ a ∈ so, a ≠ o.key := fun a ha heq => hnew.2 (heq ▸ ha)
    exact List.nodup_append.mpr ⟨h, List.nodup_singleton _, fun a ha b hb =>
      List.mem_singleton.mp hb ▸ hnot a ha⟩
  · exact h

theorem nodup_addShorts {so : List ℤ} (h : so.Nodup) (os : List ArgpOption) :
    (addShorts so os).Nodup := by
  induction os generalizing so with
  | nil => exact h
  | cons o os ih => exact ih (nodup_addShort h o)

theorem nodup_recorded {so : List ℤ} (h : so.Nodup) (es : List HolEntry) :
    (recorded so es).Nodup := by
  induction es generalizing so with
  | nil => exact h
  | cons e es ih => exact ih (nodup_addShorts h e.options)

theorem recorded_cons (so : List ℤ) (e : HolEntry) (es : List HolEntry) :
    recorded so (e :: es) = recorded (addShorts so e.options) es := rfl

theorem recorded_append (so : List ℤ) (es es' : List HolEntry) :
    recorded so (es ++ es') = recorded (recorded so es) es' := List.foldl_append

/-! ### Reading them back -/

/-- The loops that walk along a string of short options match the next character with an option if
and only if the option was the one to record it. -/
theorem next_iff {s seen : List ℤ} {o : ArgpOption} (hs : s.Nodup) (h : addShort seen o <+: s) :
    o.IsShort ∧ (s.drop seen.length).headD 0 = o.key ↔ o.IsShort ∧ o.key ∉ seen := by
  obtain ⟨rest, rfl⟩ := (prefix_addShort seen o).trans h
  rw [List.drop_left]
  refine and_congr_right fun hshort => ?_
  constructor
  · intro hhead hmem
    cases rest with
    | nil =>
      have hpos : 0 < o.key := hshort.2.1
      have hzero : (0 : ℤ) = o.key := hhead
      omega
    | cons c rest =>
      have hc : c = o.key := hhead
      exact (List.nodup_append.mp hs).2.2 o.key hmem c (List.mem_cons_self ..) hc.symm
  · intro hnew
    unfold addShort at h
    rw [if_pos ⟨hshort, hnew⟩] at h
    obtain ⟨rest', hrest⟩ := h
    rw [List.append_assoc] at hrest
    rw [← List.append_cancel_left hrest]
    rfl

/-- What is left of the string after an option. -/
theorem drop_addShort {s seen : List ℤ} {o : ArgpOption} (hs : s.Nodup) (h : addShort seen o <+: s) :
    s.drop (addShort seen o).length =
      if o.IsShort ∧ (s.drop seen.length).headD 0 = o.key then (s.drop seen.length).tail
      else s.drop seen.length := by
  unfold addShort
  simp only [next_iff hs h]
  split
  · rw [List.length_append, List.length_singleton, List.tail_drop]
  · rfl

/-- The options of an entry that a walk along the short options matches. -/
def visits : List ℤ → List ArgpOption → List ArgpOption
  | _, [] => []
  | so, o :: options =>
    if o.IsShort ∧ so.headD 0 = o.key then o :: visits so.tail options else visits so options

/-- The options of an entry that have one of its short options, where `so` is the string. -/
def HolEntry.visits (so : List ℤ) (e : HolEntry) : List ArgpOption :=
  Help.visits (so.drop e.shortOptions) e.options

theorem visits_keys {s seen : List ℤ} {os : List ArgpOption} (hs : s.Nodup)
    (h : addShorts seen os <+: s) :
    seen ++ (visits (s.drop seen.length) os).map ArgpOption.key = addShorts seen os := by
  induction os generalizing seen with
  | nil => exact List.append_nil seen
  | cons o os ih =>
    have hstep : addShort seen o <+: s := (prefix_addShorts _ os).trans h
    have hrest := ih h
    rw [drop_addShort hs hstep] at hrest
    unfold visits
    by_cases hnext : o.IsShort ∧ (s.drop seen.length).headD 0 = o.key
    · rw [if_pos hnext] at hrest ⊢
      have hadd : addShort seen o = seen ++ [o.key] := if_pos ((next_iff hs hstep).mp hnext)
      rw [hadd, List.append_assoc] at hrest
      exact hrest.trans (congrArg (addShorts · os) hadd.symm)
    · rw [if_neg hnext] at hrest ⊢
      have hadd : addShort seen o = seen := if_neg fun hnew => hnext ((next_iff hs hstep).mpr hnew)
      rw [hadd] at hrest
      exact hrest.trans (congrArg (addShorts · os) hadd.symm)

theorem mem_of_mem_visits {so : List ℤ} {os : List ArgpOption} {o : ArgpOption}
    (h : o ∈ visits so os) : o ∈ os ∧ o.IsShort := by
  induction os generalizing so with
  | nil => cases h
  | cons o' os ih =>
    unfold visits at h
    split at h
    · next hnext =>
      rcases List.mem_cons.mp h with rfl | hmem
      · exact ⟨List.mem_cons_self .., hnext.1⟩
      · exact ⟨List.mem_cons_of_mem _ (ih hmem).1, (ih hmem).2⟩
    · exact ⟨List.mem_cons_of_mem _ (ih h).1, (ih h).2⟩

/-! ### Entries in a string -/

/-- The entries lie in the string one after the other, where `so` is what is in front of them. -/
def Laid (so : List ℤ) : List HolEntry → Prop
  | [] => True
  | e :: es => e.shortOptions = so.length ∧ Laid (addShorts so e.options) es

theorem laid_cons {so : List ℤ} {e : HolEntry} {es : List HolEntry} :
    Laid so (e :: es) ↔ e.shortOptions = so.length ∧ Laid (addShorts so e.options) es := Iff.rfl

theorem laid_append {so : List ℤ} {es es' : List HolEntry} :
    Laid so (es ++ es') ↔ Laid so es ∧ Laid (recorded so es) es' := by
  induction es generalizing so with
  | nil => exact (true_and _).symm.to_iff
  | cons e es ih =>
    rw [List.cons_append, laid_cons, laid_cons, ih, and_assoc]
    rfl

/-- The entry without its place in the string. -/
def HolEntry.bare (e : HolEntry) : HolEntry := { e with shortOptions := 0 }

/-- What making a hol guarantees: its string is that of its entries, and they lie in it. -/
structure Hol.Recorded (hol : Hol) : Prop where
  string : hol.shortOptions = recorded [] hol.entries
  laid : Laid [] hol.entries

theorem fillEntries_laid (array : OptionArray) (cluster : ClusterPtr) (argp : List ℕ) :
    ∀ (runs : List (List ArgpOption)) (opt : ℕ) (group : ℤ) (so : List ℤ),
      array.entries.drop opt = runs.flatten →
      Laid so (fillEntries array cluster argp opt group so runs).entries ∧
      (fillEntries array cluster argp opt group so runs).shortOptions =
        recorded so (fillEntries array cluster argp opt group so runs).entries
  | [], _, _, _, _ => ⟨trivial, rfl⟩
  | options :: runs, opt, group, so, hdrop => by
    rw [List.flatten_cons] at hdrop
    have hoptions : (array.entries.drop opt).take options.length = options := by
      rw [hdrop, List.take_left]
    have hrest : array.entries.drop (opt + options.length) = runs.flatten := by
      rw [← List.drop_drop, hdrop, List.drop_left]
    have ih := fillEntries_laid array cluster argp runs (opt + options.length)
      ((options.head?.map (entryGroup group)).getD group) (addShorts so options) hrest
    unfold fillEntries
    dsimp only
    rw [laid_cons, recorded_cons]
    unfold HolEntry.options
    dsimp only
    rw [hoptions]
    exact ⟨⟨rfl, ih.1⟩, ih.2⟩

theorem makeHol_recorded {options : Option OptionArray} {cluster : ClusterPtr} {argp : List ℕ}
    {hol : Hol} (h : makeHol options cluster argp = some hol) : hol.Recorded := by
  unfold makeHol at h
  cases options with
  | none =>
    cases h
    exact ⟨rfl, trivial⟩
  | some array =>
    dsimp only at h
    split at h
    · cases h
    · cases h
      have hruns : array.entries.drop 0 = (withAliases array.entries).flatten := by
        unfold withAliases
        rw [List.flatten_splitBy, List.drop_zero]
      have hfill := fillEntries_laid array cluster argp _ 0 0 [] hruns
      exact ⟨hfill.2, hfill.1⟩

/-! ### Appending -/

/-- The string of a hol with what is not in it already of the other one. -/
def merged (old seen : List ℤ) : List ℤ := old ++ seen.filter fun c => c ∉ old

/-- One option: the walk along the string of `more` stays where its options have been recorded. -/
theorem mergeOption_eq (old : List ℤ) {s seen : List ℤ} {o : ArgpOption} (hs : s.Nodup)
    (h : addShort seen o <+: s) :
    mergeOption old (merged old seen, s.drop seen.length) o =
        (merged old (addShort seen o), s.drop (addShort seen o).length) ∧
      merged old (addShort seen o) = addShort (merged old seen) o := by
  unfold mergeOption
  rw [drop_addShort hs h]
  dsimp only
  by_cases hnext : o.IsShort ∧ (s.drop seen.length).headD 0 = o.key
  · obtain ⟨hshort, hnew⟩ := (next_iff hs h).mp hnext
    have hadd : addShort seen o = seen ++ [o.key] := if_pos ⟨hshort, hnew⟩
    rw [if_pos hnext, if_pos hnext, hadd]
    by_cases hold : o.key ∈ old
    · have hmem : o.key ∈ merged old seen := List.mem_append_left _ hold
      have hmerged : merged old (seen ++ [o.key]) = merged old seen := by
        simp [merged, List.filter_append, hold]
      rw [hmerged, if_neg (not_not.mpr hold)]
      exact ⟨rfl, (if_neg fun hadd => hadd.2 hmem).symm⟩
    · have hmem : o.key ∉ merged old seen := by
        simp [merged, hold, hnew]
      have hmerged : merged old (seen ++ [o.key]) = merged old seen ++ [o.key] := by
        simp [merged, List.filter_append, hold]
      rw [hmerged, if_pos hold]
      exact ⟨rfl, (if_pos ⟨hshort, hmem⟩).symm⟩
  · have hadd : addShort seen o = seen := if_neg fun hnew => hnext ((next_iff hs h).mpr hnew)
    rw [if_neg hnext, if_neg hnext, hadd]
    refine ⟨rfl, (if_neg fun hnew => ?_).symm⟩
    have hseen : o.key ∈ seen := by
      by_contra hno
      exact hnext ((next_iff hs h).mpr ⟨hnew.1, hno⟩)
    apply hnew.2
    by_cases hold : o.key ∈ old
    · exact List.mem_append_left _ hold
    · exact List.mem_append_right _ (List.mem_filter.mpr ⟨hseen, decide_eq_true hold⟩)

theorem mergeOptions_eq (old : List ℤ) {s : List ℤ} (hs : s.Nodup) (os : List ArgpOption) (seen : List ℤ)
    (h : addShorts seen os <+: s) :
    os.foldl (mergeOption old) (merged old seen, s.drop seen.length) =
        (merged old (addShorts seen os), s.drop (addShorts seen os).length) ∧
      merged old (addShorts seen os) = addShorts (merged old seen) os := by
  induction os generalizing seen with
  | nil => exact ⟨rfl, rfl⟩
  | cons o os ih =>
    have hstep := mergeOption_eq old hs ((prefix_addShorts _ os).trans h)
    have hrest := ih (addShort seen o) h
    rw [List.foldl_cons, hstep.1]
    refine ⟨hrest.1, hrest.2.trans ?_⟩
    rw [hstep.2]
    rfl

/-- The entries of `more` come to lie behind the string of the hol, as if their options had been
recorded there. -/
theorem mergeEntries_laid (old : List ℤ) {s : List ℤ} (hs : s.Nodup) (es : List HolEntry) (seen : List ℤ)
    (h : recorded seen es <+: s) :
    (mergeEntries old (merged old seen, s.drop seen.length) es).entries.map HolEntry.bare =
        es.map HolEntry.bare ∧
      Laid (merged old seen) (mergeEntries old (merged old seen, s.drop seen.length) es).entries ∧
      (mergeEntries old (merged old seen, s.drop seen.length) es).shortOptions =
        recorded (merged old seen) (mergeEntries old (merged old seen, s.drop seen.length) es).entries := by
  induction es generalizing seen with
  | nil => exact ⟨rfl, trivial, rfl⟩
  | cons e es ih =>
    obtain ⟨hfold, hmerged⟩ :=
      mergeOptions_eq old hs e.options seen ((prefix_recorded _ es).trans h)
    obtain ⟨hbare, hlaid, hstring⟩ := ih (addShorts seen e.options) h
    unfold mergeEntries
    rw [hfold]
    dsimp only
    rw [hmerged] at hbare hlaid hstring ⊢
    exact ⟨congrArg (e.bare :: ·) hbare, ⟨rfl, hlaid⟩, hstring⟩

theorem holAppend_recorded {hol more : Hol} (h : hol.Recorded) (hmore : more.Recorded) :
    (holAppend hol more).Recorded ∧ (holAppend hol more).entries.map HolEntry.bare =
      hol.entries.map HolEntry.bare ++ more.entries.map HolEntry.bare := by
  unfold holAppend
  by_cases hnone : more.entries = []
  · rw [if_pos hnone, hnone]
    exact ⟨h, (List.append_nil _).symm⟩
  · rw [if_neg hnone]
    by_cases hempty : hol.entries = []
    · rw [if_pos hempty, hempty]
      exact ⟨hmore, rfl⟩
    · rw [if_neg hempty]
      have hnodup : more.shortOptions.Nodup := by
        rw [hmore.string]
        exact nodup_recorded List.nodup_nil _
      have hmerge := mergeEntries_laid hol.shortOptions hnodup more.entries []
        (hmore.string ▸ List.prefix_rfl)
      have hnil : merged hol.shortOptions [] = hol.shortOptions := List.append_nil _
      rw [hnil, List.length_nil, List.drop_zero] at hmerge
      obtain ⟨hbare, hlaid, hstring⟩ := hmerge
      refine ⟨⟨?_, ?_⟩, ?_⟩
      · dsimp only
        rw [hstring, recorded_append, ← h.string]
      · exact laid_append.mpr ⟨h.laid, h.string ▸ hlaid⟩
      · dsimp only
        rw [List.map_append, hbare]

/-! ### The tree -/

section

variable {π : Type}

/-- The entries of an options array, without their places in a string. -/
def ownEntries (options : Option OptionArray) (cluster : ClusterPtr) (argp : List ℕ) :
    List HolEntry :=
  match options with
  | none => []
  | some array =>
    (fillEntries array cluster argp 0 0 [] (withAliases array.entries)).entries.map HolEntry.bare

mutual

/-- The entries of a tree, without their places in the string. -/
def helpEntries : HelpArgp π → ClusterPtr → List ℕ → List HolEntry
  | .node options _ _ children, cluster, argp =>
    ownEntries options cluster argp ++ childEntries children cluster argp 0

def childEntries : HelpChildren π → ClusterPtr → List ℕ → ℕ → List HolEntry
  | .nil, _, _, _ => []
  | .cons child header group children, cluster, argp, k =>
    helpEntries child (childCluster header group cluster argp k) (argp ++ [k]) ++
      childEntries children cluster argp (k + 1)

end

theorem makeHol_entries {options : Option OptionArray} {cluster : ClusterPtr} {argp : List ℕ}
    {hol : Hol} (h : makeHol options cluster argp = some hol) :
    hol.entries.map HolEntry.bare = ownEntries options cluster argp := by
  unfold makeHol at h
  cases options with
  | none =>
    cases h
    rfl
  | some array =>
    dsimp only at h
    split at h
    · cases h
    · cases h
      rfl

mutual

/-- Every hol is made by recording the entries of the tree in pre-order. -/
theorem argpHol_recorded : ∀ (a : HelpArgp π) (cluster : ClusterPtr) (argp : List ℕ) (hol : Hol),
    argpHol a cluster argp = some hol →
    hol.Recorded ∧ hol.entries.map HolEntry.bare = helpEntries a cluster argp
  | .node options parser argsDoc children, cluster, argp, hol, h => by
    unfold argpHol at h
    obtain ⟨own, hown, hchildren⟩ := Option.bind_eq_some_iff.mp h
    obtain ⟨hrecorded, hbare⟩ := childrenHol_recorded children cluster argp 0 own hol
      (makeHol_recorded hown) hchildren
    rw [makeHol_entries hown] at hbare
    exact ⟨hrecorded, hbare⟩

theorem childrenHol_recorded : ∀ (children : HelpChildren π) (cluster : ClusterPtr) (argp : List ℕ)
    (k : ℕ) (hol hol' : Hol), hol.Recorded → childrenHol children cluster argp k hol = some hol' →
    hol'.Recorded ∧ hol'.entries.map HolEntry.bare =
      hol.entries.map HolEntry.bare ++ childEntries children cluster argp k
  | .nil, cluster, argp, k, hol, hol', hhol, h => by
    unfold childrenHol at h
    cases h
    exact ⟨hhol, (List.append_nil _).symm⟩
  | .cons child header group children, cluster, argp, k, hol, hol', hhol, h => by
    unfold childrenHol at h
    obtain ⟨more, hmore, hrest⟩ := Option.bind_eq_some_iff.mp h
    obtain ⟨hmoreRecorded, hmoreBare⟩ := argpHol_recorded child _ _ more hmore
    obtain ⟨happend, happendBare⟩ := holAppend_recorded hhol hmoreRecorded
    obtain ⟨hrecorded, hbare⟩ :=
      childrenHol_recorded children cluster argp (k + 1) _ hol' happend hrest
    rw [happendBare, hmoreBare, List.append_assoc] at hbare
    exact ⟨hrecorded, hbare⟩

end

/-! ### The same tree for the parser -/

mutual

/-- What the parser reads of the argp. -/
def HelpArgp.parsed : HelpArgp π → Argp π
  | .node options parser _ children => .node options parser children.parsed

def HelpChildren.parsed : HelpChildren π → List (Argp π)
  | .nil => []
  | .cons child _ _ children => child.parsed :: children.parsed

end

/-- An option by the array that it is in and where it is there. -/
abbrev OptionPlace : Type := OptionArray × ℕ × ArgpOption

/-- The places of these options of an array, from an index on. -/
def placesFrom (array : OptionArray) (index : ℕ) (os : List ArgpOption) : List OptionPlace :=
  (os.zipIdx index).map fun p => (array, p.2, p.1)

theorem placesFrom_append (array : OptionArray) (index : ℕ) (os os' : List ArgpOption) :
    placesFrom array index (os ++ os') =
      placesFrom array index os ++ placesFrom array (index + os.length) os' := by
  unfold placesFrom
  rw [List.zipIdx_append, List.map_append]

def HolEntry.places (e : HolEntry) : List OptionPlace := placesFrom e.array e.opt e.options

def arrayPlaces (options : Option OptionArray) : List OptionPlace :=
  match options with
  | none => []
  | some array => placesFrom array 0 array.entries

def entryPlace (x : Entry) : OptionPlace := (x.array, x.index, x.option)

theorem fillEntries_places (array : OptionArray) (cluster : ClusterPtr) (argp : List ℕ) :
    ∀ (runs : List (List ArgpOption)) (opt : ℕ) (group : ℤ) (so : List ℤ),
      array.entries.drop opt = runs.flatten →
      (fillEntries array cluster argp opt group so runs).entries.flatMap HolEntry.places =
        placesFrom array opt runs.flatten
  | [], _, _, _, _ => rfl
  | options :: runs, opt, group, so, hdrop => by
    rw [List.flatten_cons] at hdrop ⊢
    have hoptions : (array.entries.drop opt).take options.length = options := by
      rw [hdrop, List.take_left]
    have hrest : array.entries.drop (opt + options.length) = runs.flatten := by
      rw [← List.drop_drop, hdrop, List.drop_left]
    unfold fillEntries
    dsimp only
    rw [List.flatMap_cons, fillEntries_places array cluster argp runs _ _ _ hrest, placesFrom_append]
    unfold HolEntry.places HolEntry.options
    dsimp only
    rw [hoptions]

theorem flatMap_places_bare (es : List HolEntry) :
    (es.map HolEntry.bare).flatMap HolEntry.places = es.flatMap HolEntry.places := by
  rw [List.flatMap_map]
  rfl

theorem ownEntries_places (options : Option OptionArray) (cluster : ClusterPtr) (argp : List ℕ) :
    (ownEntries options cluster argp).flatMap HolEntry.places = arrayPlaces options := by
  cases options with
  | none => rfl
  | some array =>
    have hruns : (withAliases array.entries).flatten = array.entries := List.flatten_splitBy ..
    unfold ownEntries
    dsimp only
    rw [flatMap_places_bare, fillEntries_places array cluster argp _ 0 0 [] hruns.symm, hruns]
    rfl

mutual

theorem helpEntries_places : ∀ (a : HelpArgp π) (cluster : ClusterPtr) (argp : List ℕ),
    (helpEntries a cluster argp).flatMap HolEntry.places =
      (preorder a.parsed).flatMap arrayPlaces
  | .node options parser argsDoc children, cluster, argp => by
    unfold helpEntries HelpArgp.parsed preorder
    rw [List.flatMap_append, List.flatMap_append, ownEntries_places,
      childEntries_places children cluster argp 0]
    congr 1
    split
    · exact (List.append_nil _).symm
    · next hnone =>
      cases options with
      | none => rfl
      | some array => exact (hnone (.inl rfl)).elim

theorem childEntries_places : ∀ (children : HelpChildren π) (cluster : ClusterPtr) (argp : List ℕ)
    (k : ℕ), (childEntries children cluster argp k).flatMap HolEntry.places =
      (preorderChildren children.parsed).flatMap arrayPlaces
  | .nil, _, _, _ => rfl
  | .cons child header group children, cluster, argp, k => by
    unfold childEntries HelpChildren.parsed preorderChildren
    rw [List.flatMap_append, List.flatMap_append, helpEntries_places child,
      childEntries_places children cluster argp (k + 1)]

end

theorem entriesFrom_places (g : ℕ) (array : OptionArray) (index : ℕ) (os : List ArgpOption) :
    (entriesFrom g array index os).map entryPlace = placesFrom array index os := by
  induction os generalizing index with
  | nil => rfl
  | cons o os ih =>
    unfold entriesFrom
    rw [List.map_cons, ih (index + 1)]
    rfl

theorem entriesOfArrays_places (k : ℕ) (arrays : List (Option OptionArray)) :
    (entriesOfArrays k arrays).map entryPlace = arrays.flatMap arrayPlaces := by
  induction arrays generalizing k with
  | nil => rfl
  | cons options arrays ih =>
    cases options with
    | none => exact ih (k + 1)
    | some array =>
      unfold entriesOfArrays
      rw [List.map_append, ih (k + 1), entriesFrom_places]
      rfl

/-- Help and parser go through the same options in the same order. -/
theorem hol_places {a : HelpArgp π} {hol : Hol} (h : argpHol a [] [] = some hol) :
    hol.entries.flatMap HolEntry.places = (treeEntries (some a.parsed)).map entryPlace := by
  have hbare := (argpHol_recorded a [] [] hol h).2
  rw [← flatMap_places_bare, hbare, helpEntries_places]
  exact (entriesOfArrays_places 0 _).symm

/-! ### Who has a character -/

theorem exists_first_flatMap {α β : Type} {f : α → List β} {p : β → Bool} {l : List α} {b : β}
    (h : (l.flatMap f).find? p = some b) :
    ∃ pre a post, l = pre ++ a :: post ∧ (∀ a' ∈ pre, ∀ b' ∈ f a', ¬p b') ∧ b ∈ f a := by
  induction l with
  | nil => cases h
  | cons a l ih =>
    rw [List.flatMap_cons, List.find?_append] at h
    cases hfirst : (f a).find? p with
    | some b' =>
      rw [hfirst] at h
      cases h
      exact ⟨[], a, l, rfl, fun _ ha => (by cases ha), List.mem_of_find?_eq_some hfirst⟩
    | none =>
      rw [hfirst, Option.none_or] at h
      obtain ⟨pre, a', post, rfl, hpre, hb⟩ := ih h
      refine ⟨a :: pre, a', post, rfl, fun x hx b' hb' => ?_, hb⟩
      rcases List.mem_cons.mp hx with rfl | hx
      · exact List.find?_eq_none.mp hfirst b' hb'
      · exact hpre x hx b' hb'

theorem mem_places {e : HolEntry} {p : OptionPlace} (h : p ∈ e.places) :
    e.array = p.1 ∧ e.opt ≤ p.2.1 ∧ p.2.1 < e.opt + e.num ∧ p.2.2 ∈ e.options := by
  obtain ⟨q, hq, rfl⟩ := List.mem_map.mp h
  obtain ⟨hle, hlt, -⟩ := List.mem_zipIdx hq
  have hnum : e.options.length ≤ e.num := List.length_take_le ..
  exact ⟨rfl, hle, show q.2 < e.opt + e.num by omega, List.fst_mem_of_mem_zipIdx hq⟩

theorem exists_place {e : HolEntry} {o : ArgpOption} (h : o ∈ e.options) :
    ∃ p ∈ e.places, p.2.2 = o := by
  obtain ⟨i, hi, rfl⟩ := List.getElem_of_mem h
  refine ⟨(e.array, e.opt + i, e.options[i]), List.mem_map.mpr ⟨(e.options[i], e.opt + i), ?_, rfl⟩, rfl⟩
  exact List.mk_add_mem_zipIdx_iff_getElem?.mpr (List.getElem?_eq_getElem hi)

/-- An entry that lies in the string visits what it was the first to record. -/
theorem Hol.Recorded.visits {hol : Hol} (h : hol.Recorded) {pre post : List HolEntry} {e : HolEntry}
    (hentries : hol.entries = pre ++ e :: post) :
    e.shortOptions = (recorded [] pre).length ∧
      recorded [] pre ++ (e.visits hol.shortOptions).map ArgpOption.key =
        addShorts (recorded [] pre) e.options ∧
      Laid (addShorts (recorded [] pre) e.options) post ∧
      hol.shortOptions = recorded (addShorts (recorded [] pre) e.options) post := by
  have hlaid := h.laid
  have hstring := h.string
  rw [hentries] at hlaid hstring
  rw [recorded_append, recorded_cons] at hstring
  obtain ⟨-, hoffset, hpost⟩ := laid_append.mp hlaid
  have hnodup : hol.shortOptions.Nodup := by
    rw [h.string]
    exact nodup_recorded List.nodup_nil _
  refine ⟨hoffset, ?_, hpost, hstring⟩
  unfold HolEntry.visits
  rw [hoffset]
  apply visits_keys hnodup
  rw [hstring]
  exact prefix_recorded _ post

/-- The option is one of those of the entry. -/
def HolEntry.Includes (e : HolEntry) (x : Entry) : Prop :=
  e.array = x.array ∧ e.opt ≤ x.index ∧ x.index < e.opt + e.num

/-- The entry has this short option. -/
def HolEntry.Visits (so : List ℤ) (c : ℤ) (e : HolEntry) : Prop :=
  c ∈ (e.visits so).map ArgpOption.key

instance (so : List ℤ) (c : ℤ) : DecidablePred (HolEntry.Visits so c) := fun _ =>
  inferInstanceAs (Decidable (_ ∈ _))

/-- No documentation entry has a key. -/
def KeylessDocs (entries : List Entry) : Prop := ∀ x ∈ entries, odoc x.option → x.option.key = 0

variable {a : HelpArgp π} {hol : Hol} {c : ℤ}

theorem isShort_of_key (hdocs : KeylessDocs (treeEntries (some a.parsed))) (hc : 32 ≤ c ∧ c ≤ 126)
    {x : Entry} (hx : x ∈ treeEntries (some a.parsed)) (hkey : x.HasKey c) : x.option.IsShort := by
  have hk : x.option.key = c := hkey
  refine ⟨fun hdoc => ?_, by omega, by omega, by omega, by omega⟩
  have hzero := hdocs x hx hdoc
  omega

/-- The string of a tree has what is the key of some option of it. -/
theorem mem_shortOptions_iff (h : argpHol a [] [] = some hol)
    (hdocs : KeylessDocs (treeEntries (some a.parsed))) (hc : 32 ≤ c ∧ c ≤ 126) :
    c ∈ hol.shortOptions ↔ ∃ x ∈ treeEntries (some a.parsed), x.HasKey c := by
  have hplaces := hol_places h
  rw [(argpHol_recorded a [] [] hol h).1.string, mem_recorded]
  constructor
  · rintro (hnil | ⟨e, he, o, ho, -, hkey⟩)
    · cases hnil
    · obtain ⟨p, hp, hpo⟩ := exists_place ho
      have hmem : p ∈ hol.entries.flatMap HolEntry.places := List.mem_flatMap.mpr ⟨e, he, hp⟩
      rw [hplaces] at hmem
      obtain ⟨x, hx, rfl⟩ := List.mem_map.mp hmem
      exact ⟨x, hx, (congrArg ArgpOption.key hpo).trans hkey⟩
  · rintro ⟨x, hx, hkey⟩
    have hmem : entryPlace x ∈ hol.entries.flatMap HolEntry.places := by
      rw [hplaces]
      exact List.mem_map_of_mem hx
    obtain ⟨e, he, hp⟩ := List.mem_flatMap.mp hmem
    exact .inr ⟨e, he, x.option, (mem_places hp).2.2.2, isShort_of_key hdocs hc hx hkey, hkey⟩

/-- One entry has the character, and it is where the first option with this key is. -/
theorem exists_owner (h : argpHol a [] [] = some hol)
    (hdocs : KeylessDocs (treeEntries (some a.parsed))) (hc : 32 ≤ c ∧ c ≤ 126) {x : Entry}
    (hfind : (treeEntries (some a.parsed)).find? (fun x => x.HasKey c) = some x) :
    ∃ e, hol.entries.filter (fun e => e.Visits hol.shortOptions c) = [e] ∧ e.Includes x := by
  have hrecorded := (argpHol_recorded a [] [] hol h).1
  have hplace : (hol.entries.flatMap HolEntry.places).find? (fun p => p.2.2.key = c) =
      some (entryPlace x) := by
    rw [hol_places h, List.find?_map]
    exact congrArg (Option.map entryPlace) hfind
  obtain ⟨pre, e, post, hentries, hpre, hx⟩ := exists_first_flatMap hplace
  have hkey : x.HasKey c := by simpa using List.find?_some hfind
  obtain ⟨harray, hle, hlt, ho⟩ := mem_places hx
  refine ⟨e, ?_, harray, hle, hlt⟩
  have hshort := isShort_of_key hdocs hc (List.mem_of_find?_eq_some hfind) hkey
  have hnodup : hol.shortOptions.Nodup := by
    rw [hrecorded.string]
    exact nodup_recorded List.nodup_nil _
  -- nothing in front of the entry has the key
  have hunseen : c ∉ recorded [] pre := by
    rw [mem_recorded]
    rintro (hnil | ⟨e', he', o, ho', -, hko⟩)
    · cases hnil
    · obtain ⟨p, hp, rfl⟩ := exists_place ho'
      exact hpre e' he' p hp (decide_eq_true hko)
  have hbefore : pre.filter (fun e => e.Visits hol.shortOptions c) = [] := by
    rw [List.filter_eq_nil_iff]
    intro e' he' hvisits
    obtain ⟨o, ho', hko⟩ := List.mem_map.mp (of_decide_eq_true hvisits)
    exact hunseen (mem_recorded.mpr (.inr ⟨e', he', o, (mem_of_mem_visits ho').1,
      (mem_of_mem_visits ho').2, hko⟩))
  have hthere : e.Visits hol.shortOptions c := by
    have hmem : c ∈ addShorts (recorded [] pre) e.options :=
      mem_addShorts.mpr (.inr ⟨x.option, ho, hshort, hkey⟩)
    rw [← (hrecorded.visits hentries).2.1] at hmem
    exact (List.mem_append.mp hmem).resolve_left hunseen
  have hafter : post.filter (fun e => e.Visits hol.shortOptions c) = [] := by
    rw [List.filter_eq_nil_iff]
    intro e' he' hvisits
    obtain ⟨mid, rest, rfl⟩ := List.append_of_mem he'
    have hentries' : hol.entries = (pre ++ e :: mid) ++ e' :: rest := by
      rw [hentries, List.append_assoc]
      rfl
    obtain ⟨-, hkeys, -, hstring⟩ := hrecorded.visits hentries'
    rw [hstring, ← hkeys] at hnodup
    have hdisjoint := (List.nodup_append.mp (hnodup.sublist (prefix_recorded _ rest).sublist)).2.2
    refine hdisjoint c ?_ c (of_decide_eq_true hvisits) rfl
    exact mem_recorded.mpr (.inr ⟨e, by simp, x.option, ho, hshort, hkey⟩)
  rw [hentries, List.filter_append, List.filter_cons, hbefore, hafter, if_pos (decide_eq_true hthere)]
  rfl

/-! ### Help and parser -/

/-- What the walks along the short options see of an entry. -/
def HolEntry.segment (e : HolEntry) : HolEntry := { e with group := 0, cluster := [], argp := [] }

theorem setGroup_segment (name : CStr) (group : ℤ) (es : List HolEntry) :
    (setGroup name group es).map HolEntry.segment = es.map HolEntry.segment := by
  induction es with
  | nil => rfl
  | cons e es ih =>
    unfold setGroup
    split
    · rfl
    · rw [List.map_cons, ih]
      rfl

theorem putLast_segment (names : List CStr) (hol : Hol) :
    (putLast names hol).entries.map HolEntry.segment = hol.entries.map HolEntry.segment ∧
      (putLast names hol).shortOptions = hol.shortOptions := by
  induction names generalizing hol with
  | nil => exact ⟨rfl, rfl⟩
  | cons name names ih =>
    obtain ⟨hentries, hstring⟩ := ih (holSetGroup hol name (-1))
    exact ⟨hentries.trans (setGroup_segment name (-1) hol.entries), hstring⟩

/-- The hol as it was made, or sorted, perhaps with some options put last before. -/
def Presents (hol hol' : Hol) : Prop := hol' = hol ∨ ∃ names, HolSort (putLast names hol) hol'

theorem Presents.segments {hol' : Hol} (h : Presents hol hol') :
    (hol'.entries.map HolEntry.segment).Perm (hol.entries.map HolEntry.segment) ∧
      hol'.shortOptions = hol.shortOptions := by
  rcases h with rfl | ⟨names, ⟨hperm, -⟩, hstring⟩
  · exact ⟨List.Perm.refl _, rfl⟩
  · obtain ⟨hentries, hstring'⟩ := putLast_segment names hol
    exact ⟨hentries ▸ hperm.map HolEntry.segment, hstring.trans hstring'⟩

theorem filter_segment (so : List ℤ) (c : ℤ) (es : List HolEntry) :
    (es.map HolEntry.segment).filter (fun e => e.Visits so c) =
      (es.filter fun e => e.Visits so c).map HolEntry.segment := List.filter_map

/-- `hol_entry_short_iterate` calls its function for what it visits and is visible. -/
theorem shortIterate_visits (so : List ℤ) (real : ArgpOption) (os seen : List ArgpOption) :
    (shortIterate (fun o _ seen => (0, seen ++ [o])) so real os seen).2 =
      seen ++ (visits so os).filter fun o => ovisible o := by
  induction os generalizing so real seen with
  | nil => exact (List.append_nil seen).symm
  | cons o os ih =>
    unfold shortIterate visits
    by_cases hnext : o.IsShort ∧ so.headD 0 = o.key
    · rw [if_pos hnext, if_pos hnext]
      dsimp only
      by_cases hvisible : ovisible o
      · have hfirst : (o :: visits so.tail os).filter (fun o => ovisible o) =
            o :: (visits so.tail os).filter fun o => ovisible o :=
          List.filter_cons_of_pos (by simpa using hvisible)
        rw [if_pos hvisible, hfirst]
        exact (ih so.tail _ (seen ++ [o])).trans (List.append_assoc ..)
      · have hfirst : (o :: visits so.tail os).filter (fun o => ovisible o) =
            (visits so.tail os).filter fun o => ovisible o :=
          List.filter_cons_of_neg (by simpa using hvisible)
        rw [if_neg hvisible, hfirst]
        exact ih so.tail _ seen
    · rw [if_neg hnext, if_neg hnext, ih]

theorem holEntryShortIterate_visits (so : List ℤ) (e : HolEntry) :
    (holEntryShortIterate (fun o _ seen => (0, seen ++ [o])) so e []).2 =
      (e.visits so).filter fun o => ovisible o := by
  unfold holEntryShortIterate HolEntry.visits
  cases e.options with
  | nil => rfl
  | cons o os => exact shortIterate_visits ..

/-- Help and parser agree on who has the short option `c`. -/
structure ShortAgreement (a : HelpArgp π) (hol : Hol) (c : ℤ) : Prop where
  recorded : hol.shortOptions.count c =
    if ∃ x ∈ treeEntries (some a.parsed), x.HasKey c then 1 else 0
  single : (∃ x ∈ treeEntries (some a.parsed), x.HasKey c) → ∀ hol', Presents hol hol' →
    ∃ e x, hol'.entries.filter (fun e => e.Visits hol'.shortOptions c) = [e] ∧ e.Includes x ∧
      x ∈ treeEntries (some a.parsed) ∧
      findShortOption (treeGroup (some a.parsed)) (treeGroups (some a.parsed)).length c =
        .ok (some (x.group, x.option))
  enumerated : ∀ hol', Presents hol hol' → ∀ e ∈ hol'.entries,
    (holEntryShortIterate (fun o _ seen => (0, seen ++ [o])) hol'.shortOptions e []).2 =
      (e.visits hol'.shortOptions).filter fun o => ovisible o
  walked : ∀ pre e post, hol.entries = pre ++ e :: post →
    (e.visits hol.shortOptions).map ArgpOption.key =
      (hol.shortOptions.take ((post.head?.map HolEntry.shortOptions).getD
        hol.shortOptions.length)).drop e.shortOptions

theorem visits_segment {pre post : List HolEntry} {e : HolEntry} (h : hol.Recorded)
    (hentries : hol.entries = pre ++ e :: post) :
    (e.visits hol.shortOptions).map ArgpOption.key =
      (hol.shortOptions.take ((post.head?.map HolEntry.shortOptions).getD
        hol.shortOptions.length)).drop e.shortOptions := by
  obtain ⟨hoffset, hkeys, hpost, hstring⟩ := h.visits hentries
  have htake : hol.shortOptions.take ((post.head?.map HolEntry.shortOptions).getD
      hol.shortOptions.length) = addShorts (Help.recorded [] pre) e.options := by
    cases post with
    | nil =>
      change hol.shortOptions.take hol.shortOptions.length = _
      rw [List.take_length, hstring]
      rfl
    | cons e' post =>
      change hol.shortOptions.take e'.shortOptions = _
      obtain ⟨rest, hrest⟩ := prefix_recorded (addShorts (Help.recorded [] pre) e.options) (e' :: post)
      rw [hpost.1, hstring, ← hrest, List.take_left]
  rw [htake, hoffset, ← hkeys, List.drop_left]

/-- Help and parser agree on a short option if and only if `find_short_option` does not come to an
options array that is not there before it finds the option. -/
theorem shortOptions_agree_iff (h : argpHol a [] [] = some hol)
    (hdocs : KeylessDocs (treeEntries (some a.parsed))) (hc : 32 ≤ c ∧ c ≤ 126) :
    ShortAgreement a hol c ↔ ((∃ x ∈ treeEntries (some a.parsed), x.HasKey c) →
      ¬ComesToNull (treeGroup (some a.parsed)) (treeGroups (some a.parsed)).length
        (Entry.HasKey c)) := by
  have hrecorded := (argpHol_recorded a [] [] hol h).1
  have hascii : 0 ≤ c ∧ c < 128 := ⟨by omega, by omega⟩
  obtain ⟨hnull, hfound⟩ :=
    findShortOption_eq (treeGroup (some a.parsed)) (treeGroups (some a.parsed)).length hascii
  rw [entriesIn_tree] at hfound
  constructor
  · intro hagree hkey hcomes
    obtain ⟨e, x, -, -, -, hok⟩ := hagree.single hkey hol (.inl rfl)
    rw [hnull hcomes] at hok
    cases hok
  · intro hno
    refine ⟨?_, ?_, fun hol' _ e _ => holEntryShortIterate_visits _ e,
      fun pre e post => visits_segment hrecorded⟩
    · have hmem := mem_shortOptions_iff h hdocs hc
      have hnodup : hol.shortOptions.Nodup := by
        rw [hrecorded.string]
        exact nodup_recorded List.nodup_nil _
      split
      · next hkey => exact List.count_eq_one_of_mem hnodup (hmem.mpr hkey)
      · next hkey => exact List.count_eq_zero_of_not_mem fun hc => hkey (hmem.mp hc)
    · intro hkey hol' hpresents
      obtain ⟨x, hx, hxkey⟩ := hkey
      obtain ⟨y, hfind⟩ : ∃ y, (treeEntries (some a.parsed)).find? (fun x => x.HasKey c) = some y := by
        rw [← Option.isSome_iff_exists, List.find?_isSome]
        exact ⟨x, hx, decide_eq_true hxkey⟩
      obtain ⟨e, hfilter, hincludes⟩ := exists_owner h hdocs hc hfind
      obtain ⟨hperm, hstring⟩ := hpresents.segments
      have hone : ((hol'.entries.filter fun e => e.Visits hol'.shortOptions c).map
          HolEntry.segment).Perm [e.segment] := by
        rw [← filter_segment, hstring]
        have hperm' := hperm.filter fun e => decide (e.Visits hol.shortOptions c)
        rwa [filter_segment _ _ hol.entries, hfilter] at hperm'
      obtain ⟨e', hfilter', hsegment⟩ := List.map_eq_singleton_iff.mp (List.perm_singleton.mp hone)
      refine ⟨e', y, hfilter', ?_, List.mem_of_find?_eq_some hfind, ?_⟩
      · have hincludes' : e.segment.Includes y := hincludes
        rw [← hsegment] at hincludes'
        exact hincludes'
      · rw [hfound (hno ⟨x, hx, hxkey⟩), hfind]
        rfl

/-- An argp with `-a`, `-b` and an alias `-c`. -/
def helpAbc : HelpArgp Unit :=
  .node (some ⟨1, [⟨none, 97, none, 0, none, 0⟩, ⟨none, 98, none, 0, none, 0⟩,
    ⟨none, 99, none, OPTION_ALIAS, none, 0⟩], by decide⟩) (some ()) none .nil

/-- An argp with `-c` and `-d` over it. -/
def helpCd : HelpArgp Unit :=
  .node (some ⟨2, [⟨none, 99, none, 0, none, 0⟩, ⟨none, 100, none, 0, none, 0⟩], by decide⟩) (some ())
    none (.cons helpAbc none 1 .nil)

/-- An argp that takes arguments only, over it. -/
def helpBare : HelpArgp Unit := .node none (some ()) none (.cons helpAbc none 0 .nil)

theorem helpCd_agree : ∃ hol, argpHol helpCd [] [] = some hol ∧ hol.shortOptions = [99, 100, 97, 98] ∧
    ShortAgreement helpCd hol 99 := by
  refine ⟨_, rfl, by decide, (shortOptions_agree_iff rfl ?_ (by decide)).mpr fun _ => ?_⟩
  · unfold KeylessDocs
    decide
  · unfold ComesToNull
    decide

/-- The parser does not get to `-a` under an argp without an options array. -/
theorem helpBare_disagree : ∃ hol, argpHol helpBare [] [] = some hol ∧ ¬ShortAgreement helpBare hol 97 := by
  refine ⟨_, rfl, fun h => ?_⟩
  obtain ⟨e, x, -, -, -, hok⟩ := h.single (by decide) _ (.inl rfl)
  have hnull : findShortOption (treeGroup (some helpBare.parsed))
      (treeGroups (some helpBare.parsed)).length 97 = .error .nullOptions := rfl
  rw [hnull] at hok
  cases hok

end

end MuslBsd.Help
