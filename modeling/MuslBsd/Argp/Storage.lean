import MuslBsd.Argp.Groups
import MuslBsd.Argp.Scan

/-! When `parser_convert` succeeds: the storage that `calc_sizes` asks for, and what is written. -/
namespace MuslBsd.Argp
open MuslBsd.Support

variable {π : Type}

/-- The short options that `calc_sizes` counts in these groups. -/
def counted (groups : List (Group π)) : ℕ :=
  (groups.map fun group => countShort group.options).sum

/-- The short options can be recorded: there are options arrays, and there is storage. -/
def Convertible (longOnly : Bool) (groups : List (Group π)) : Prop :=
  longOnly → (∀ group ∈ groups, group.options ≠ none) ∧ (shortKeys groups).length ≤ counted groups

theorem shortKeys_append (groups groups' : List (Group π)) :
    shortKeys (groups ++ groups') = shortKeys groups ++ shortKeys groups' := by
  unfold shortKeys
  rw [List.flatMap_append]

theorem counted_append (groups groups' : List (Group π)) :
    counted (groups ++ groups') = counted groups + counted groups' := by
  unfold counted
  rw [List.map_append, List.sum_append]

/-- What a part of the tree adds behind `groups`, and what `calc_sizes` makes of it; `slots` are the
slots in the group above. -/
structure Adds (convert : Bool → Converted π → Except Fault (Converted π))
    (sizes : ParserSizes → ParserSizes) (slots : ℕ) (groups added : List (Group π)) (m : ℕ) :
    Prop where
  plain : ∀ short n, convert false ⟨groups, short, n⟩ = .ok ⟨groups ++ added, short, n + m⟩
  recorded : ∀ short n, (∀ group ∈ added, group.options ≠ none) →
    convert true ⟨groups, short, n⟩ = .ok ⟨groups ++ added, short ++ shortKeys added, n + m⟩
  null : ∀ short n, ¬(∀ group ∈ added, group.options ≠ none) →
    convert true ⟨groups, short, n⟩ = .error .nullOptions
  numGroups : ∀ szs, (sizes szs).numGroups = szs.numGroups + added.length
  childInputs : ∀ szs, szs.numChildInputs + slots + m ≤ (sizes szs).numChildInputs
  shortLen : ∀ szs, (sizes szs).shortLen = szs.shortLen + counted added

/-- The group of a node, in front of those of its children. -/
theorem Adds.node {options : Option OptionArray} {parser : Option π} {children : List (Argp π)}
    {parent : Option ℕ} {parentIndex m : ℕ} {groups added : List (Group π)}
    (hgroup : options.isSome ∨ parser.isSome)
    (h : Adds (fun longOnly cvt => convertChildren longOnly children (some groups.length) 0 cvt)
      (calcChildren children) children.length
      (groups ++ [newGroup options parser children.length parent parentIndex]) added m) :
    Adds (fun longOnly cvt =>
        convertOptions longOnly (.node options parser children) parent parentIndex cvt)
      (calcSizes (.node options parser children)) 0 groups
      (newGroup options parser children.length parent parentIndex :: added)
      (children.length + m) := by
  constructor
  · intro short n
    have hchildren := h.plain short (n + children.length)
    unfold convertOptions
    rw [if_pos hgroup]
    show convertChildren false children (some groups.length) 0 ⟨_, short ++ [], _⟩ = _
    rw [List.append_nil, hchildren, List.append_assoc, Nat.add_assoc]
    rfl
  · intro short n hall
    have hnode := hall _ List.mem_cons_self
    obtain ⟨os, hos⟩ := Option.ne_none_iff_exists'.mp hnode
    have hoptions : options = some os := hos
    have hchildren := h.recorded (short ++ (os.entries.filter fun o => o.IsShort).map ArgpOption.key)
      (n + children.length) fun group hg => hall group (List.mem_cons_of_mem _ hg)
    subst hoptions
    unfold convertOptions
    rw [if_pos hgroup]
    show convertChildren true children (some groups.length) 0 _ = _
    rw [hchildren, List.append_assoc, List.append_assoc, Nat.add_assoc]
    rfl
  · intro short n hnull
    unfold convertOptions
    rw [if_pos hgroup]
    cases options with
    | none => rfl
    | some os =>
      apply h.null (short ++ (os.entries.filter fun o => o.IsShort).map ArgpOption.key)
        (n + children.length)
      intro hadded
      apply hnull
      intro group hg
      rcases List.mem_cons.mp hg with rfl | hg
      · exact Option.some_ne_none os
      · exact hadded group hg
  · intro szs
    unfold calcSizes
    rw [if_pos hgroup, h.numGroups, List.length_cons]
    show szs.numGroups + 1 + _ = _
    omega
  · intro szs
    have hle := h.childInputs
      { szs with
        numGroups := szs.numGroups + 1, shortLen := szs.shortLen + countShort options }
    unfold calcSizes
    rw [if_pos hgroup]
    dsimp only at hle
    omega
  · intro szs
    unfold calcSizes
    rw [if_pos hgroup, h.shortLen]
    show szs.shortLen + countShort options + _ = _
    rw [Nat.add_assoc]
    rfl

mutual

theorem convertOptions_adds : ∀ (argp : Argp π) (parent : Option ℕ) (parentIndex : ℕ)
    (groups : List (Group π)), ∃ added m,
    Adds (fun longOnly cvt => convertOptions longOnly argp parent parentIndex cvt) (calcSizes argp) 0
      groups added m
  | .node options parser children, parent, parentIndex, groups => by
    by_cases hgroup : options.isSome ∨ parser.isSome
    · obtain ⟨added, m, hadds⟩ := convertChildren_adds children (some groups.length) 0
        (groups ++ [newGroup options parser children.length parent parentIndex])
      exact ⟨_, _, hadds.node hgroup⟩
    · obtain ⟨added, m, hadds⟩ := convertChildren_adds children none 0 groups
      refine ⟨added, m, ?_⟩
      constructor
      · intro short n
        unfold convertOptions
        rw [if_neg hgroup]
        exact hadds.plain short n
      · intro short n hall
        unfold convertOptions
        rw [if_neg hgroup]
        exact hadds.recorded short n hall
      · intro short n hnull
        unfold convertOptions
        rw [if_neg hgroup]
        exact hadds.null short n hnull
      · intro szs
        unfold calcSizes
        rw [if_neg hgroup]
        exact hadds.numGroups szs
      · intro szs
        have hle := hadds.childInputs szs
        unfold calcSizes
        rw [if_neg hgroup]
        omega
      · intro szs
        unfold calcSizes
        rw [if_neg hgroup]
        exact hadds.shortLen szs

theorem convertChildren_adds : ∀ (children : List (Argp π)) (parent : Option ℕ) (index : ℕ)
    (groups : List (Group π)), ∃ added m,
    Adds (fun longOnly cvt => convertChildren longOnly children parent index cvt)
      (calcChildren children) children.length groups added m
  | [], parent, index, groups => by
    refine ⟨[], 0, ?_⟩
    constructor
    · intro short n
      unfold convertChildren
      simp
    · intro short n _
      unfold convertChildren
      simp [shortKeys]
    · intro short n hnull
      exact (hnull fun group hgroup => (List.not_mem_nil hgroup).elim).elim
    · intro szs
      rfl
    · intro szs
      exact Nat.le_refl _
    · intro szs
      rfl
  | child :: children, parent, index, groups => by
    obtain ⟨added, m, hchild⟩ := convertOptions_adds child parent index groups
    obtain ⟨added', m', hrest⟩ :=
      convertChildren_adds children parent (index + 1) (groups ++ added)
    refine ⟨added ++ added', m + m', ?_⟩
    constructor
    · intro short n
      have hfirst := hchild.plain short n
      have hsecond := hrest.plain short (n + m)
      unfold convertChildren
      rw [hfirst]
      show convertChildren false children parent (index + 1) _ = _
      rw [hsecond, List.append_assoc, Nat.add_assoc]
    · intro short n hall
      have hfirst := hchild.recorded short n fun group hg => hall group (List.mem_append_left _ hg)
      have hsecond := hrest.recorded (short ++ shortKeys added) (n + m) fun group hg =>
        hall group (List.mem_append_right _ hg)
      unfold convertChildren
      rw [hfirst]
      show convertChildren true children parent (index + 1) _ = _
      rw [hsecond, shortKeys_append, List.append_assoc, List.append_assoc, Nat.add_assoc]
    · intro short n hnull
      unfold convertChildren
      by_cases hadded : ∀ group ∈ added, group.options ≠ none
      · have hfirst := hchild.recorded short n hadded
        have hsecond := hrest.null (short ++ shortKeys added) (n + m) (by
          intro hadded'
          apply hnull
          intro group hg
          rcases List.mem_append.mp hg with hg | hg
          · exact hadded group hg
          · exact hadded' group hg)
        rw [hfirst]
        exact hsecond
      · have hfirst := hchild.null short n hadded
        rw [hfirst]
        rfl
    · intro szs
      unfold calcChildren
      rw [hrest.numGroups, List.length_append]
      show (calcSizes child szs).numGroups + _ = _
      rw [hchild.numGroups, Nat.add_assoc]
    · intro szs
      have hfirst := hchild.childInputs szs
      have hsecond := hrest.childInputs
        { calcSizes child szs with numChildInputs := (calcSizes child szs).numChildInputs + 1 }
      rw [List.length_cons]
      apply le_trans ?_ hsecond
      dsimp only
      omega
    · intro szs
      unfold calcChildren
      rw [hrest.shortLen, counted_append]
      show (calcSizes child szs).shortLen + _ = _
      rw [hchild.shortLen, Nat.add_assoc]

end

/-- What the conversion of a tree adds to nothing is its groups. -/
theorem treeGroups_adds (argp : Argp π) : ∃ m,
    Adds (fun longOnly cvt => convertOptions longOnly argp none 0 cvt) (calcSizes argp) 0 []
      (treeGroups (some argp)) m := by
  obtain ⟨added, m, hadds⟩ := convertOptions_adds argp none 0 []
  have hplain : convertOptions false argp none 0 ⟨[], [], 0⟩ = .ok ⟨added, [], 0 + m⟩ :=
    hadds.plain [] 0
  have hgroups : treeGroups (some argp) = added := by
    unfold treeGroups
    dsimp only
    rw [hplain]
  exact ⟨m, hgroups.symm ▸ hadds⟩

/-- `parser_convert` makes the groups of the tree, or faults. -/
theorem parserConvert_eq (longOnly : Bool) (argp : Option (Argp π)) :
    (Convertible longOnly (treeGroups argp) → ∃ n, parserConvert longOnly argp =
      .ok ⟨treeGroups argp, if longOnly then shortKeys (treeGroups argp) else [], n⟩) ∧
    (¬Convertible longOnly (treeGroups argp) → ∃ e, parserConvert longOnly argp = .error e) := by
  cases argp with
  | none =>
    refine ⟨fun _ => ⟨0, ?_⟩, fun hno => (hno fun _ => ⟨?_, Nat.le_refl _⟩).elim⟩
    · cases longOnly <;> rfl
    · intro group hgroup
      cases hgroup
  | some argp =>
    obtain ⟨m, hadds⟩ := treeGroups_adds argp
    generalize treeGroups (some argp) = added at hadds ⊢
    have hplain : convertOptions false argp none 0 ⟨[], [], 0⟩ = .ok ⟨added, [], 0 + m⟩ :=
      hadds.plain [] 0
    have hnum : (calcSizes argp ⟨0, 0, 0⟩).numGroups = 0 + added.length :=
      hadds.numGroups ⟨0, 0, 0⟩
    have hinputs : 0 + 0 + m ≤ (calcSizes argp ⟨0, 0, 0⟩).numChildInputs :=
      hadds.childInputs ⟨0, 0, 0⟩
    have hshort : (calcSizes argp ⟨0, 0, 0⟩).shortLen = 0 + counted added :=
      hadds.shortLen ⟨0, 0, 0⟩
    unfold parserConvert Convertible
    cases longOnly with
    | false =>
      refine ⟨fun _ => ⟨0 + m, ?_⟩, fun hno => (hno fun hbad => (Bool.noConfusion hbad)).elim⟩
      have hfits : (calcSizes argp ⟨0, 0, 0⟩).Suffice false
          (⟨added, [], 0 + m⟩ : Converted π) := by
        refine ⟨?_, ?_, fun hbad => (Bool.noConfusion hbad)⟩
        · show added.length ≤ _
          omega
        · show 0 + m ≤ _
          omega
      dsimp only
      rw [hplain]
      show (if _ then _ else _) = _
      rw [if_pos hfits]
      rfl
    | true =>
      constructor
      · intro hconv
        obtain ⟨hall, hle⟩ := hconv rfl
        have hrun : convertOptions true argp none 0 ⟨[], [], 0⟩ =
            .ok ⟨added, shortKeys added, 0 + m⟩ := hadds.recorded [] 0 hall
        have hfits : (calcSizes argp ⟨0, 0, 0⟩).Suffice true
            (⟨added, shortKeys added, 0 + m⟩ : Converted π) := by
          refine ⟨?_, ?_, fun _ => ?_⟩
          · show added.length ≤ _
            omega
          · show 0 + m ≤ _
            omega
          · show (shortKeys added).length ≤ _
            omega
        refine ⟨0 + m, ?_⟩
        dsimp only
        rw [hrun]
        show (if _ then _ else _) = _
        rw [if_pos hfits]
        rfl
      · intro hno
        dsimp only
        by_cases hall : ∀ group ∈ added, group.options ≠ none
        · have hrun : convertOptions true argp none 0 ⟨[], [], 0⟩ =
              .ok ⟨added, shortKeys added, 0 + m⟩ := hadds.recorded [] 0 hall
          have hover : ¬(calcSizes argp ⟨0, 0, 0⟩).Suffice true
              (⟨added, shortKeys added, 0 + m⟩ : Converted π) := by
            intro hfits
            have hle := hfits.2.2 rfl
            dsimp only at hle
            exact hno fun _ => ⟨hall, by omega⟩
          refine ⟨.storage, ?_⟩
          rw [hrun]
          show (if _ then _ else _) = _
          rw [if_neg hover]
        · have hrun : convertOptions true argp none 0 ⟨[], [], 0⟩ = .error .nullOptions :=
            hadds.null [] 0 hall
          rw [hrun]
          exact ⟨_, rfl⟩

end MuslBsd.Argp
