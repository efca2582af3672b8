import MuslBsd.Argp.Lookup
import Mathlib.Tactic.Ring

/-! Where `parser_convert` writes in the storage that `parser_init` allocates. -/
namespace MuslBsd.Argp
open MuslBsd.Support
open Faulting (Follows Sequential)

variable {π : Type}

/-! ### Writing -/

/-- A place in the storage, by its index in one of the three areas. -/
inductive Place
  | group (i : ℕ)
  | childInput (i : ℕ)
  | shortOpt (i : ℕ)
  deriving DecidableEq

/-- The next usable place in each area: `group`, and the fields of `struct parser_convert_state`. -/
structure Cursor where
  group : ℕ
  childInputsEnd : ℕ
  shortEnd : ℕ

abbrev ConvertM (α : Type) : Type := Faulting Fault Cursor Place α

/-- `*cvt->short_end++ = ..`. -/
def putShort : ConvertM Unit := do
  let c ← Faulting.gets id
  Faulting.emit (.shortOpt c.shortEnd)
  Faulting.modify fun c => { c with shortEnd := c.shortEnd + 1 }

/-- `group++`, after its fields are set. -/
def putGroup : ConvertM Unit := do
  let c ← Faulting.gets id
  Faulting.emit (.group c.group)
  Faulting.modify fun c => { c with group := c.group + 1 }

def putChildInput : ConvertM Unit := do
  let c ← Faulting.gets id
  Faulting.emit (.childInput c.childInputsEnd)
  Faulting.modify fun c => { c with childInputsEnd := c.childInputsEnd + 1 }

/-- `cvt->child_inputs_end += n`: these places are the group's. -/
def putChildInputs : ℕ → ConvertM Unit
  | 0 => pure ()
  | n + 1 => do
    putChildInput
    putChildInputs n

/-- The loop that records short options. -/
def putShorts : List ArgpOption → ConvertM Unit
  | [] => pure ()
  | o :: entries =>
    if o.IsShort then do
      putShort
      putShorts entries
    else putShorts entries

/-- The short options of one argp, if `short_end` is set. -/
def putOptions (longOnly : Bool) (options : Option OptionArray) : ConvertM Unit :=
  if longOnly then
    match options with
    | none => Faulting.fault .nullOptions
    | some os => putShorts os.entries
  else pure ()

/-- A group, with room for its child inputs. -/
def putOwn (longOnly : Bool) (options : Option OptionArray) (numChildren : ℕ) : ConvertM Unit := do
  putOptions longOnly options
  putGroup
  putChildInputs numChildren

mutual

/-- `convert_options`, as far as it writes. -/
def putArgp (longOnly : Bool) : Argp π → ConvertM Unit
  | .node options parser children =>
    if options.isSome ∨ parser.isSome then do
      putOwn longOnly options children.length
      putChildren longOnly children
    else putChildren longOnly children

def putChildren (longOnly : Bool) : List (Argp π) → ConvertM Unit
  | [] => pure ()
  | child :: children => do
    putArgp longOnly child
    putChildren longOnly children

end

/-- The terminator of the short options. -/
def putNul (longOnly : Bool) : ConvertM Unit := if longOnly then putShort else pure ()

/-- `parser_convert`. -/
def putParser (longOnly : Bool) (argp : Option (Argp π)) : ConvertM Unit :=
  match argp with
  | none => putNul longOnly
  | some argp => do
    putArgp longOnly argp
    putNul longOnly

/-- All that is written. -/
def writes (longOnly : Bool) (argp : Option (Argp π)) : List Place :=
  (putParser longOnly argp ⟨0, 0, 0⟩).2.2

/-! ### The storage -/

/-- `sizeof (struct group)` and `sizeof (void *)`. -/
def sizeofGroup : ℕ := 64
def sizeofPtr : ℕ := 8

/-- The sizes that `parser_init` computes. -/
def storageSizes (longOnly : Bool) (argp : Option (Argp π)) : ParserSizes :=
  let szs : ParserSizes :=
    match argp with
    | none => ⟨0, 0, 0⟩
    | some argp => calcSizes argp ⟨0, 0, 0⟩
  if longOnly then szs else { szs with shortLen := 0 }

namespace ParserSizes

variable (szs : ParserSizes)

/-- `GLEN`. -/
def glen : ℕ := (szs.numGroups + 1) * sizeofGroup

/-- `CLEN`. -/
def clen : ℕ := szs.numChildInputs * sizeofPtr

/-- `SLEN`. -/
def slen : ℕ := szs.shortLen + 1

end ParserSizes

/-- The bytes of a place, from the first up to the one behind the last. -/
def Place.bytes (szs : ParserSizes) : Place → ℕ × ℕ
  | .group i => (i * sizeofGroup, (i + 1) * sizeofGroup)
  | .childInput i => (szs.glen + i * sizeofPtr, szs.glen + (i + 1) * sizeofPtr)
  | .shortOpt i => (szs.glen + szs.clen + i, szs.glen + szs.clen + i + 1)

/-- The bytes of the area that a place belongs to; the three follow one another. -/
def Place.area (szs : ParserSizes) : Place → ℕ × ℕ
  | .group _ => (0, szs.glen)
  | .childInput _ => (szs.glen, szs.glen + szs.clen)
  | .shortOpt _ => (szs.glen + szs.clen, szs.glen + szs.clen + szs.slen)

/-- A place lies in its area. -/
def Place.Within (p : Place) (szs : ParserSizes) : Prop :=
  (p.area szs).1 ≤ (p.bytes szs).1 ∧ (p.bytes szs).2 ≤ (p.area szs).2

instance (p : Place) (szs : ParserSizes) : Decidable (p.Within szs) :=
  inferInstanceAs (Decidable (_ ∧ _))

theorem within_group {szs : ParserSizes} {i : ℕ} :
    (Place.group i).Within szs ↔ i < szs.numGroups + 1 := by
  unfold Place.Within Place.area Place.bytes ParserSizes.glen sizeofGroup
  dsimp only
  omega

theorem within_childInput {szs : ParserSizes} {i : ℕ} :
    (Place.childInput i).Within szs ↔ i < szs.numChildInputs := by
  unfold Place.Within Place.area Place.bytes ParserSizes.clen sizeofPtr
  dsimp only
  omega

theorem within_shortOpt {szs : ParserSizes} {i : ℕ} :
    (Place.shortOpt i).Within szs ↔ i < szs.shortLen + 1 := by
  unfold Place.Within Place.area Place.bytes ParserSizes.slen
  dsimp only
  omega

/-! ### Places and cursors -/

/-- What is written between two cursors is what lies between them. -/
structure Fills (c : Cursor) (places : List Place) (c' : Cursor) : Prop where
  group : c.group ≤ c'.group ∧ ∀ i, .group i ∈ places ↔ c.group ≤ i ∧ i < c'.group
  childInput : c.childInputsEnd ≤ c'.childInputsEnd ∧
    ∀ i, .childInput i ∈ places ↔ c.childInputsEnd ≤ i ∧ i < c'.childInputsEnd
  shortOpt : c.shortEnd ≤ c'.shortEnd ∧
    ∀ i, .shortOpt i ∈ places ↔ c.shortEnd ≤ i ∧ i < c'.shortEnd

theorem fills_sequential : Sequential Fills where
  refl c := by
    refine ⟨⟨le_refl _, fun i => ?_⟩, ⟨le_refl _, fun i => ?_⟩, ⟨le_refl _, fun i => ?_⟩⟩
    · simp only [List.not_mem_nil, false_iff]
      omega
    · simp only [List.not_mem_nil, false_iff]
      omega
    · simp only [List.not_mem_nil, false_iff]
      omega
  trans h h' := by
    refine ⟨⟨h.group.1.trans h'.group.1, fun i => ?_⟩,
      ⟨h.childInput.1.trans h'.childInput.1, fun i => ?_⟩,
      ⟨h.shortOpt.1.trans h'.shortOpt.1, fun i => ?_⟩⟩
    · have hle := h.group.1
      have hle' := h'.group.1
      rw [List.mem_append, h.group.2, h'.group.2]
      omega
    · have hle := h.childInput.1
      have hle' := h'.childInput.1
      rw [List.mem_append, h.childInput.2, h'.childInput.2]
      omega
    · have hle := h.shortOpt.1
      have hle' := h'.shortOpt.1
      rw [List.mem_append, h.shortOpt.2, h'.shortOpt.2]
      omega

theorem fills_putShort : Follows Fills putShort := by
  intro c
  show Fills c [.shortOpt c.shortEnd] { c with shortEnd := c.shortEnd + 1 }
  refine ⟨⟨le_refl _, fun i => ?_⟩, ⟨le_refl _, fun i => ?_⟩, ⟨Nat.le_succ _, fun i => ?_⟩⟩
  · simp only [List.mem_singleton, reduceCtorEq, false_iff]
    omega
  · simp only [List.mem_singleton, reduceCtorEq, false_iff]
    omega
  · simp only [List.mem_singleton, Place.shortOpt.injEq]
    omega

theorem fills_putGroup : Follows Fills putGroup := by
  intro c
  show Fills c [.group c.group] { c with group := c.group + 1 }
  refine ⟨⟨Nat.le_succ _, fun i => ?_⟩, ⟨le_refl _, fun i => ?_⟩, ⟨le_refl _, fun i => ?_⟩⟩
  · simp only [List.mem_singleton, Place.group.injEq]
    omega
  · simp only [List.mem_singleton, reduceCtorEq, false_iff]
    omega
  · simp only [List.mem_singleton, reduceCtorEq, false_iff]
    omega

theorem fills_putChildInput : Follows Fills putChildInput := by
  intro c
  show Fills c [.childInput c.childInputsEnd] { c with childInputsEnd := c.childInputsEnd + 1 }
  refine ⟨⟨le_refl _, fun i => ?_⟩, ⟨Nat.le_succ _, fun i => ?_⟩, ⟨le_refl _, fun i => ?_⟩⟩
  · simp only [List.mem_singleton, reduceCtorEq, false_iff]
    omega
  · simp only [List.mem_singleton, Place.childInput.injEq]
    omega
  · simp only [List.mem_singleton, reduceCtorEq, false_iff]
    omega

theorem fills_putChildInputs (n : ℕ) : Follows Fills (putChildInputs n) := by
  induction n with
  | zero => exact .pure fills_sequential ()
  | succ n ih => exact Follows.bind fills_sequential fills_putChildInput fun _ => ih

theorem fills_putShorts (entries : List ArgpOption) : Follows Fills (putShorts entries) := by
  induction entries with
  | nil => exact .pure fills_sequential ()
  | cons o entries ih =>
    unfold putShorts
    apply Follows.ite
    · intro _
      exact Follows.bind fills_sequential fills_putShort fun _ => ih
    · intro _
      exact ih

theorem fills_putOptions (longOnly : Bool) (options : Option OptionArray) :
    Follows Fills (putOptions longOnly options) := by
  unfold putOptions
  apply Follows.ite
  · intro _
    cases options with
    | none => exact .stop fills_sequential _
    | some os => exact fills_putShorts _
  · intro _
    exact .pure fills_sequential ()

theorem fills_putOwn (longOnly : Bool) (options : Option OptionArray) (n : ℕ) :
    Follows Fills (putOwn longOnly options n) := by
  unfold putOwn
  apply Follows.bind fills_sequential (fills_putOptions longOnly options)
  intro _
  apply Follows.bind fills_sequential fills_putGroup
  intro _
  exact fills_putChildInputs n

mutual

theorem fills_putArgp (longOnly : Bool) : ∀ argp : Argp π, Follows Fills (putArgp longOnly argp)
  | .node options parser children => by
    unfold putArgp
    apply Follows.ite
    · intro _
      apply Follows.bind fills_sequential (fills_putOwn longOnly options _)
      intro _
      exact fills_putChildren longOnly children
    · intro _
      exact fills_putChildren longOnly children

theorem fills_putChildren (longOnly : Bool) :
    ∀ children : List (Argp π), Follows Fills (putChildren longOnly children)
  | [] => .pure fills_sequential ()
  | child :: children => by
    unfold putChildren
    apply Follows.bind fills_sequential (fills_putArgp longOnly child)
    intro _
    exact fills_putChildren longOnly children

end

theorem fills_putNul (longOnly : Bool) : Follows Fills (putNul longOnly) := by
  unfold putNul
  apply Follows.ite
  · intro _
    exact fills_putShort
  · intro _
    exact .pure fills_sequential ()

theorem fills_putParser (longOnly : Bool) (argp : Option (Argp π)) :
    Follows Fills (putParser longOnly argp) := by
  cases argp with
  | none => exact fills_putNul longOnly
  | some argp =>
    exact Follows.bind fills_sequential (fills_putArgp longOnly argp) fun _ => fills_putNul longOnly

/-! ### How far it gets -/

/-- The short options in these arrays, up to one that is not there. -/
def shortsUpTo : List (Option OptionArray) → ℕ
  | [] => 0
  | none :: _ => 0
  | some os :: arrays => (os.entries.filter fun o => o.IsShort).length + shortsUpTo arrays

theorem shortsUpTo_append (arrays arrays' : List (Option OptionArray)) :
    shortsUpTo (arrays ++ arrays') =
      if none ∈ arrays then shortsUpTo arrays else shortsUpTo arrays + shortsUpTo arrays' := by
  induction arrays with
  | nil => simp [shortsUpTo]
  | cons os arrays ih =>
    cases os with
    | none => simp [shortsUpTo]
    | some os =>
      have hcons : ∀ rest, shortsUpTo (some os :: rest) =
          (os.entries.filter fun o => o.IsShort).length + shortsUpTo rest := fun _ => rfl
      rw [List.cons_append, hcons, hcons, ih]
      simp only [List.mem_cons, reduceCtorEq, false_or]
      split
      · rfl
      · rw [Nat.add_assoc]

/-- The loop of `calc_sizes` over these arrays. -/
def shortsCounted (arrays : List (Option OptionArray)) : ℕ := (arrays.map countShort).sum

/-- A part of the run over these arrays, for groups with at most `slots` child inputs. -/
structure Puts (longOnly : Bool) (arrays : List (Option OptionArray)) (slots : ℕ) (c : Cursor)
    (run : Except Fault Unit × Cursor × List Place) : Prop where
  ends : run.1 = if longOnly = true ∧ none ∈ arrays then .error .nullOptions else .ok ()
  group : run.2.1.group ≤ c.group + arrays.length
  childInput : run.2.1.childInputsEnd ≤ c.childInputsEnd + slots
  shortOpt : run.2.1.shortEnd = c.shortEnd + if longOnly = true then shortsUpTo arrays else 0

/-- One part after the other. -/
theorem Puts.bind {longOnly : Bool} {arrays arrays' : List (Option OptionArray)} {slots slots' : ℕ}
    {c : Cursor} {m : ConvertM Unit} {f : Unit → ConvertM Unit}
    (h : Puts longOnly arrays slots c (m c))
    (h' : ∀ c', Puts longOnly arrays' slots' c' (f () c')) :
    Puts longOnly (arrays ++ arrays') (slots + slots') c ((m >>= f) c) := by
  obtain ⟨⟨r, c', places⟩, hrun⟩ : ∃ run, m c = run := ⟨_, rfl⟩
  rw [hrun] at h
  have hends := h.ends
  have hgroup := h.group
  have hchild := h.childInput
  have hshort := h.shortOpt
  dsimp only at hends hgroup hchild hshort
  by_cases hnull : longOnly = true ∧ none ∈ arrays
  · rw [if_pos hnull] at hends
    subst hends
    rw [Faulting.bind_error hrun]
    have hnull' : longOnly = true ∧ none ∈ arrays ++ arrays' :=
      ⟨hnull.1, List.mem_append_left _ hnull.2⟩
    constructor
    · rw [if_pos hnull']
    · rw [List.length_append]
      dsimp only
      omega
    · dsimp only
      omega
    · dsimp only
      rw [hshort, if_pos hnull.1, if_pos hnull.1, shortsUpTo_append, if_pos hnull.2]
  · rw [if_neg hnull] at hends
    subst hends
    have hrest := h' c'
    rw [Faulting.bind_ok hrun]
    have hsame : (longOnly = true ∧ none ∈ arrays ++ arrays') ↔ (longOnly = true ∧ none ∈ arrays') := by
      rw [List.mem_append]
      tauto
    constructor
    · rw [hrest.ends]
      exact if_congr hsame.symm rfl rfl
    · have hle := hrest.group
      rw [List.length_append]
      dsimp only
      omega
    · have hle := hrest.childInput
      dsimp only
      omega
    · have heq := hrest.shortOpt
      dsimp only
      rw [heq, hshort]
      by_cases hlong : longOnly = true
      · have hno : none ∉ arrays := fun hmem => hnull ⟨hlong, hmem⟩
        rw [if_pos hlong, if_pos hlong, if_pos hlong, shortsUpTo_append, if_neg hno, Nat.add_assoc]
      · rw [if_neg hlong, if_neg hlong, if_neg hlong]

theorem putShorts_run (entries : List ArgpOption) (c : Cursor) : ∃ places, putShorts entries c =
    (.ok (), { c with shortEnd := c.shortEnd + (entries.filter fun o => o.IsShort).length },
      places) := by
  induction entries generalizing c with
  | nil => exact ⟨[], rfl⟩
  | cons o entries ih =>
    unfold putShorts
    by_cases hshort : o.IsShort
    · obtain ⟨places, hrun⟩ := ih { c with shortEnd := c.shortEnd + 1 }
      have hfirst : putShort c =
          (.ok (), { c with shortEnd := c.shortEnd + 1 }, [.shortOpt c.shortEnd]) := rfl
      rw [if_pos hshort, Faulting.bind_ok hfirst, hrun]
      refine ⟨_, Prod.ext rfl (Prod.ext ?_ rfl)⟩
      simp [hshort, Nat.add_assoc, Nat.add_comm 1]
    · obtain ⟨places, hrun⟩ := ih c
      rw [if_neg hshort, hrun]
      refine ⟨places, ?_⟩
      simp [hshort]

theorem putChildInputs_run (n : ℕ) (c : Cursor) : ∃ places, putChildInputs n c =
    (.ok (), { c with childInputsEnd := c.childInputsEnd + n }, places) := by
  induction n generalizing c with
  | zero => exact ⟨[], rfl⟩
  | succ n ih =>
    obtain ⟨places, hrun⟩ := ih { c with childInputsEnd := c.childInputsEnd + 1 }
    have hfirst : putChildInput c = (.ok (), { c with childInputsEnd := c.childInputsEnd + 1 },
        [.childInput c.childInputsEnd]) := rfl
    unfold putChildInputs
    rw [Faulting.bind_ok hfirst, hrun]
    refine ⟨_, Prod.ext rfl (Prod.ext ?_ rfl)⟩
    simp [Nat.add_assoc, Nat.add_comm 1]

/-- The group of one argp. -/
theorem puts_own (longOnly : Bool) (options : Option OptionArray) (n : ℕ) (c : Cursor) :
    Puts longOnly [options] n c (putOwn longOnly options n c) := by
  have hrest : ∀ c : Cursor, ∃ places, (putGroup >>= fun _ => putChildInputs n) c =
      (.ok (), { c with group := c.group + 1, childInputsEnd := c.childInputsEnd + n }, places) := by
    intro c
    obtain ⟨places, hrun⟩ := putChildInputs_run n { c with group := c.group + 1 }
    have hfirst : putGroup c = (.ok (), { c with group := c.group + 1 }, [.group c.group]) := rfl
    rw [Faulting.bind_ok hfirst, hrun]
    exact ⟨_, rfl⟩
  unfold putOwn putOptions
  cases longOnly with
  | false =>
    obtain ⟨places, hrun⟩ := hrest c
    have hfirst : (if (false = true) then
        (match options with
          | none => Faulting.fault .nullOptions
          | some os => putShorts os.entries) else pure () : ConvertM Unit) c = (.ok (), c, []) := rfl
    rw [Faulting.bind_ok hfirst, hrun]
    exact ⟨rfl, le_refl _, le_refl _, rfl⟩
  | true =>
    cases options with
    | none =>
      have hfirst : (if (true = true) then
          (match (none : Option OptionArray) with
            | none => Faulting.fault .nullOptions
            | some os => putShorts os.entries) else pure () : ConvertM Unit) c =
          (.error .nullOptions, c, []) := rfl
      rw [Faulting.bind_error hfirst]
      refine ⟨rfl, ?_, ?_, rfl⟩
      · dsimp only
        omega
      · dsimp only
        omega
    | some os =>
      obtain ⟨places, hshorts⟩ := putShorts_run os.entries c
      obtain ⟨places', hrun⟩ := hrest
        { c with shortEnd := c.shortEnd + (os.entries.filter fun o => o.IsShort).length }
      have hfirst : (if (true = true) then
          (match (some os : Option OptionArray) with
            | none => Faulting.fault .nullOptions
            | some os => putShorts os.entries) else pure () : ConvertM Unit) c =
          (.ok (), { c with shortEnd := c.shortEnd + (os.entries.filter fun o => o.IsShort).length },
            places) := hshorts
      rw [Faulting.bind_ok hfirst, hrun]
      exact ⟨rfl, le_refl _, le_refl _, rfl⟩

mutual

/-- The child inputs of the groups of a tree. -/
def childSlots : Argp π → ℕ
  | .node options parser children =>
    (if options.isSome ∨ parser.isSome then children.length else 0) + childSlotsOf children

def childSlotsOf : List (Argp π) → ℕ
  | [] => 0
  | child :: children => childSlots child + childSlotsOf children

end

mutual

theorem puts_argp (longOnly : Bool) : ∀ (argp : Argp π) (c : Cursor),
    Puts longOnly (preorder argp) (childSlots argp) c (putArgp longOnly argp c)
  | .node options parser children, c => by
    unfold putArgp preorder childSlots
    by_cases hgroup : options.isSome ∨ parser.isSome
    · rw [if_pos hgroup, if_pos hgroup, if_pos hgroup]
      exact (puts_own longOnly options children.length c).bind fun c' =>
        puts_children longOnly children c'
    · rw [if_neg hgroup, if_neg hgroup, if_neg hgroup, List.nil_append, Nat.zero_add]
      exact puts_children longOnly children c

theorem puts_children (longOnly : Bool) : ∀ (children : List (Argp π)) (c : Cursor),
    Puts longOnly (preorderChildren children) (childSlotsOf children) c
      (putChildren longOnly children c)
  | [], c => by
    refine ⟨?_, le_refl _, le_refl _, ?_⟩
    · simp [preorderChildren, putChildren]
    · simp [preorderChildren, putChildren, shortsUpTo]
  | child :: children, c => by
    unfold putChildren preorderChildren childSlotsOf
    exact (puts_argp longOnly child c).bind fun c' => puts_children longOnly children c'

end

theorem shortsCounted_append (arrays arrays' : List (Option OptionArray)) :
    shortsCounted (arrays ++ arrays') = shortsCounted arrays + shortsCounted arrays' := by
  unfold shortsCounted
  rw [List.map_append, List.sum_append]

/-- What `calc_sizes` adds for these arrays, and for at least this many child inputs. -/
structure Counts (arrays : List (Option OptionArray)) (slots : ℕ) (szs szs' : ParserSizes) : Prop where
  numGroups : szs'.numGroups = szs.numGroups + arrays.length
  shortLen : szs'.shortLen = szs.shortLen + shortsCounted arrays
  childInputs : szs.numChildInputs + slots ≤ szs'.numChildInputs

mutual

theorem calcSizes_counts : ∀ (argp : Argp π) (szs : ParserSizes),
    Counts (preorder argp) (childSlots argp) szs (calcSizes argp szs)
  | .node options parser children, szs => by
    unfold calcSizes preorder childSlots
    by_cases hgroup : options.isSome ∨ parser.isSome
    · rw [if_pos hgroup, if_pos hgroup, if_pos hgroup]
      have hrest := calcChildren_counts children
        { szs with
          numGroups := szs.numGroups + 1, shortLen := szs.shortLen + countShort options }
      have hgroups := hrest.numGroups
      have hshort := hrest.shortLen
      have hinputs := hrest.childInputs
      dsimp only at hgroups hshort hinputs
      have hown : shortsCounted [options] = countShort options := List.sum_singleton
      constructor
      · rw [hgroups, List.length_append, List.length_singleton]
        omega
      · rw [hshort, shortsCounted_append, hown]
        omega
      · omega
    · rw [if_neg hgroup, if_neg hgroup, if_neg hgroup]
      have hrest := calcChildren_counts children szs
      have hinputs := hrest.childInputs
      rw [List.nil_append]
      exact ⟨hrest.numGroups, hrest.shortLen, by omega⟩

theorem calcChildren_counts : ∀ (children : List (Argp π)) (szs : ParserSizes),
    Counts (preorderChildren children) (children.length + childSlotsOf children) szs
      (calcChildren children szs)
  | [], szs => ⟨rfl, rfl, le_refl _⟩
  | child :: children, szs => by
    unfold calcChildren preorderChildren childSlotsOf
    have hfirst := calcSizes_counts child szs
    have hrest := calcChildren_counts children
      { calcSizes child szs with numChildInputs := (calcSizes child szs).numChildInputs + 1 }
    have hgroups := hrest.numGroups
    have hshort := hrest.shortLen
    have hinputs := hrest.childInputs
    have hgroups' := hfirst.numGroups
    have hshort' := hfirst.shortLen
    have hinputs' := hfirst.childInputs
    dsimp only at hgroups hshort hinputs
    constructor
    · rw [List.length_append]
      dsimp only
      omega
    · rw [shortsCounted_append]
      dsimp only
      omega
    · rw [List.length_cons]
      dsimp only
      omega

end

/-! ### The same run as in `convertOptions` -/

/-- The cursor behind what has been converted. -/
def Converted.cursor (cvt : Converted π) : Cursor :=
  ⟨cvt.groups.length, cvt.childInputs, cvt.shortOpts.length⟩

theorem putOptions_converted {longOnly : Bool} {options : Option OptionArray} {short : List ℤ}
    (h : recordShort longOnly options = .ok short) (c : Cursor) : ∃ places,
    putOptions longOnly options c =
      (.ok (), { c with shortEnd := c.shortEnd + short.length }, places) := by
  unfold recordShort at h
  unfold putOptions
  cases longOnly with
  | false =>
    cases h
    exact ⟨[], rfl⟩
  | true =>
    cases options with
    | none => cases h
    | some os =>
      cases h
      rw [List.length_map]
      exact putShorts_run os.entries c

mutual

theorem putArgp_converted (longOnly : Bool) : ∀ (argp : Argp π) (parent : Option ℕ)
    (parentIndex : ℕ) (cvt cvt' : Converted π),
    convertOptions longOnly argp parent parentIndex cvt = .ok cvt' →
    ∃ places, putArgp longOnly argp cvt.cursor = (.ok (), cvt'.cursor, places)
  | .node options parser children, parent, parentIndex, cvt, cvt', h => by
    unfold convertOptions at h
    unfold putArgp
    by_cases hgroup : options.isSome ∨ parser.isSome
    · rw [if_pos hgroup] at h ⊢
      obtain ⟨short, hshort, h⟩ := bind_eq_ok.mp h
      obtain ⟨places, hrest⟩ := putChildren_converted longOnly children _ _ _ cvt' h
      obtain ⟨places₁, hoptions⟩ := putOptions_converted hshort cvt.cursor
      obtain ⟨places₂, hinputs⟩ := putChildInputs_run children.length
        { cvt.cursor with
          shortEnd := cvt.cursor.shortEnd + short.length, group := cvt.cursor.group + 1 }
      have hown : ∃ places₃, putOwn longOnly options children.length cvt.cursor =
          (.ok (), { groups :=
              cvt.groups ++ [newGroup options parser children.length parent parentIndex]
                     shortOpts := cvt.shortOpts ++ short
                     childInputs := cvt.childInputs + children.length : Converted π }.cursor,
            places₃) := by
        have hfirst : ∀ c : Cursor, putGroup c =
            (.ok (), { c with group := c.group + 1 }, [.group c.group]) := fun _ => rfl
        unfold putOwn
        rw [Faulting.bind_ok hoptions, Faulting.bind_ok (hfirst _), hinputs]
        refine ⟨_, Prod.ext rfl (Prod.ext ?_ rfl)⟩
        simp [Converted.cursor]
      obtain ⟨places₃, hown⟩ := hown
      rw [Faulting.bind_ok hown, hrest]
      exact ⟨_, rfl⟩
    · rw [if_neg hgroup] at h ⊢
      exact putChildren_converted longOnly children _ _ cvt cvt' h

theorem putChildren_converted (longOnly : Bool) : ∀ (children : List (Argp π))
    (parent : Option ℕ) (index : ℕ) (cvt cvt' : Converted π),
    convertChildren longOnly children parent index cvt = .ok cvt' →
    ∃ places, putChildren longOnly children cvt.cursor = (.ok (), cvt'.cursor, places)
  | [], parent, index, cvt, cvt', h => by
    unfold convertChildren at h
    cases h
    exact ⟨[], rfl⟩
  | child :: children, parent, index, cvt, cvt', h => by
    unfold convertChildren at h
    obtain ⟨cvt₁, hchild, h⟩ := bind_eq_ok.mp h
    obtain ⟨places, hfirst⟩ := putArgp_converted longOnly child _ _ cvt cvt₁ hchild
    obtain ⟨places', hrest⟩ := putChildren_converted longOnly children _ _ cvt₁ cvt' h
    unfold putChildren
    rw [Faulting.bind_ok hfirst, hrest]
    exact ⟨_, rfl⟩

end

/-! ### What is written fits -/

/-- What `parser_convert` writes to the short options of these arrays, with the terminator, if it
gets so far. -/
def shortsWritten (arrays : List (Option OptionArray)) : ℕ :=
  shortsUpTo arrays + if none ∈ arrays then 0 else 1

/-- How far the whole run gets. -/
structure PutsAll (longOnly : Bool) (argp : Option (Argp π)) (c : Cursor) : Prop where
  group : c.group ≤ (storageSizes longOnly argp).numGroups
  childInput : c.childInputsEnd ≤ (storageSizes longOnly argp).numChildInputs
  shortOpt : c.shortEnd = if longOnly = true then shortsWritten (treeArrays argp) else 0
  shortLen : (storageSizes longOnly argp).shortLen =
    if longOnly = true then shortsCounted (treeArrays argp) else 0

theorem putNul_run (longOnly : Bool) (c : Cursor) : ∃ places, putNul longOnly c =
    (.ok (), { c with shortEnd := c.shortEnd + if longOnly = true then 1 else 0 }, places) := by
  cases longOnly with
  | false => exact ⟨[], rfl⟩
  | true => exact ⟨_, rfl⟩

theorem putParser_puts (longOnly : Bool) (argp : Option (Argp π)) :
    PutsAll longOnly argp (putParser longOnly argp ⟨0, 0, 0⟩).2.1 := by
  have hlen : ∀ {szs : ParserSizes}, (if longOnly = true then szs else { szs with shortLen := 0 }).shortLen =
      if longOnly = true then szs.shortLen else 0 := by
    intro szs
    split
    · rfl
    · rfl
  have hgroups : ∀ {szs : ParserSizes},
      (if longOnly = true then szs else { szs with shortLen := 0 }).numGroups = szs.numGroups := by
    intro szs
    split
    · rfl
    · rfl
  have hinputs : ∀ {szs : ParserSizes}, (if longOnly = true then szs
      else { szs with shortLen := 0 }).numChildInputs = szs.numChildInputs := by
    intro szs
    split
    · rfl
    · rfl
  cases argp with
  | none =>
    obtain ⟨places, hrun⟩ := putNul_run longOnly ⟨0, 0, 0⟩
    unfold putParser
    dsimp only
    rw [hrun]
    refine ⟨Nat.zero_le _, Nat.zero_le _, ?_, ?_⟩
    · simp [treeArrays, shortsWritten, shortsUpTo]
    · unfold storageSizes
      rw [hlen]
      simp [treeArrays, shortsCounted]
  | some argp =>
    have hcounts := calcSizes_counts argp ⟨0, 0, 0⟩
    have hputs := puts_argp longOnly argp ⟨0, 0, 0⟩
    have hnum := hcounts.numGroups
    have hslots := hcounts.childInputs
    obtain ⟨⟨r, c, places⟩, hrun⟩ : ∃ run, putArgp longOnly argp ⟨0, 0, 0⟩ = run := ⟨_, rfl⟩
    rw [hrun] at hputs
    have hgroup := hputs.group
    have hchild := hputs.childInput
    have hshort := hputs.shortOpt
    have hends := hputs.ends
    dsimp only at hgroup hchild hshort hends hnum hslots
    have hcursor : ∃ places', (putParser longOnly (some argp) ⟨0, 0, 0⟩).2 =
        ({ c with shortEnd := c.shortEnd +
          if longOnly = true ∧ none ∉ preorder argp then 1 else 0 }, places') := by
      unfold putParser
      dsimp only
      by_cases hnull : longOnly = true ∧ none ∈ preorder argp
      · rw [if_pos hnull] at hends
        subst hends
        rw [Faulting.bind_error hrun, if_neg (by tauto)]
        exact ⟨_, rfl⟩
      · rw [if_neg hnull] at hends
        subst hends
        obtain ⟨places', hnul⟩ := putNul_run longOnly c
        have hsame : (longOnly = true ∧ none ∉ preorder argp) ↔ longOnly = true := by tauto
        rw [Faulting.bind_ok hrun, hnul, if_congr hsame rfl rfl]
        exact ⟨_, rfl⟩
    obtain ⟨places', hcursor⟩ := hcursor
    rw [hcursor]
    constructor
    · unfold storageSizes
      rw [hgroups]
      dsimp only
      omega
    · unfold storageSizes
      rw [hinputs]
      dsimp only
      omega
    · dsimp only
      rw [hshort]
      unfold shortsWritten treeArrays
      by_cases hlong : longOnly = true
      · simp [hlong]
      · simp [hlong]
    · unfold storageSizes
      rw [hlen]
      dsimp only
      rw [hcounts.shortLen, Nat.zero_add]
      rfl

/-- The places that are written are those up to where the run gets. -/
theorem mem_writes (longOnly : Bool) (argp : Option (Argp π)) (i : ℕ) :
    (.group i ∈ writes longOnly argp ↔ i < (putParser longOnly argp ⟨0, 0, 0⟩).2.1.group) ∧
    (.childInput i ∈ writes longOnly argp ↔
      i < (putParser longOnly argp ⟨0, 0, 0⟩).2.1.childInputsEnd) ∧
    (.shortOpt i ∈ writes longOnly argp ↔
      i < (putParser longOnly argp ⟨0, 0, 0⟩).2.1.shortEnd) := by
  have hfills := fills_putParser longOnly argp ⟨0, 0, 0⟩
  have hzero : ∀ {n : ℕ}, (0 ≤ i ∧ i < n) ↔ i < n := by
    intro n
    omega
  refine ⟨?_, ?_, ?_⟩
  · exact (hfills.group.2 i).trans hzero
  · exact (hfills.childInput.2 i).trans hzero
  · exact (hfills.shortOpt.2 i).trans hzero

/-- Everything that `parser_convert` writes lies in its area, if and only if under `ARGP_LONG_ONLY` no
more short options are recorded than `calc_sizes` counts. -/
theorem storage_suffices_iff (longOnly : Bool) (argp : Option (Argp π)) :
    (∀ p ∈ writes longOnly argp, p.Within (storageSizes longOnly argp)) ↔
      (longOnly = true → shortsWritten (treeArrays argp) ≤ shortsCounted (treeArrays argp) + 1) := by
  have hputs := putParser_puts longOnly argp
  have hgroup := hputs.group
  have hchild := hputs.childInput
  have hshort := hputs.shortOpt
  have hlen := hputs.shortLen
  constructor
  · intro h hlong
    rw [if_pos hlong] at hshort hlen
    by_contra hover
    have hlast : Place.shortOpt (shortsCounted (treeArrays argp) + 1) ∈ writes longOnly argp := by
      rw [(mem_writes longOnly argp _).2.2, hshort]
      omega
    have hwithin := within_shortOpt.mp (h _ hlast)
    rw [hlen] at hwithin
    omega
  · intro h p hp
    cases p with
    | group i =>
      have hin := (mem_writes longOnly argp i).1.mp hp
      rw [within_group]
      omega
    | childInput i =>
      have hin := (mem_writes longOnly argp i).2.1.mp hp
      rw [within_childInput]
      omega
    | shortOpt i =>
      have hin := (mem_writes longOnly argp i).2.2.mp hp
      rw [within_shortOpt]
      by_cases hlong : longOnly = true
      · rw [if_pos hlong] at hshort hlen
        have hle := h hlong
        omega
      · rw [if_neg hlong] at hshort
        omega

/-- The short options of an array are counted as they are recorded if and only if none of them comes
after an entry that is not one. -/
theorem shorts_le_iff (entries : List ArgpOption) :
    (entries.filter fun o => o.IsShort).length ≤ (entries.takeWhile fun o => o.IsShort).length ↔
      entries.Pairwise fun a b => b.IsShort → a.IsShort := by
  induction entries with
  | nil => simp
  | cons o entries ih =>
    rw [List.pairwise_cons]
    by_cases hshort : o.IsShort
    · simp only [List.filter_cons, List.takeWhile_cons, hshort, decide_true, if_true,
        List.length_cons, Nat.add_le_add_iff_right, implies_true, true_and]
      exact ih
    · simp only [List.filter_cons, List.takeWhile_cons, hshort, decide_false, Bool.false_eq_true,
        if_false, List.length_nil, Nat.le_zero, List.length_eq_zero_iff, List.filter_eq_nil_iff,
        decide_eq_true_iff, imp_false]
      constructor
      · intro hnone
        exact ⟨hnone, List.pairwise_of_forall_mem_list fun a _ b hb hbad => (hnone b hb hbad).elim⟩
      · intro h
        exact h.1

theorem counted_le_shorts (entries : List ArgpOption) :
    (entries.takeWhile fun o => o.IsShort).length ≤ (entries.filter fun o => o.IsShort).length := by
  induction entries with
  | nil => simp
  | cons o entries ih =>
    by_cases hshort : o.IsShort
    · simp only [List.filter_cons, List.takeWhile_cons, hshort, decide_true, if_true,
        List.length_cons, Nat.add_le_add_iff_right]
      exact ih
    · simp only [List.takeWhile_cons, hshort, decide_false, List.length_nil, Nat.zero_le,
        Bool.false_eq_true, if_false]

/-- Where all arrays are there, the condition is about each of them. -/
theorem shortsWritten_le_iff {arrays : List (Option OptionArray)} (h : none ∉ arrays) :
    shortsWritten arrays ≤ shortsCounted arrays + 1 ↔
      ∀ os, some os ∈ arrays → os.entries.Pairwise fun a b => b.IsShort → a.IsShort := by
  have hwritten : shortsWritten arrays = shortsUpTo arrays + 1 := by
    unfold shortsWritten
    rw [if_neg h]
  have hboth : shortsCounted arrays ≤ shortsUpTo arrays ∧
      (shortsUpTo arrays ≤ shortsCounted arrays ↔
        ∀ os, some os ∈ arrays → os.entries.Pairwise fun a b => b.IsShort → a.IsShort) := by
    clear hwritten
    induction arrays with
    | nil => simp [shortsCounted, shortsUpTo]
    | cons array arrays ih =>
      cases array with
      | none => exact (h List.mem_cons_self).elim
      | some os =>
        obtain ⟨hle, hiff⟩ := ih fun hmem => h (List.mem_cons_of_mem _ hmem)
        have hown := counted_le_shorts os.entries
        have hcounted : shortsCounted (some os :: arrays) =
            (os.entries.takeWhile fun o => o.IsShort).length + shortsCounted arrays := rfl
        have hup : shortsUpTo (some os :: arrays) =
            (os.entries.filter fun o => o.IsShort).length + shortsUpTo arrays := rfl
        rw [hcounted, hup]
        refine ⟨by omega, ?_⟩
        simp only [List.mem_cons, Option.some.injEq, forall_eq_or_imp]
        rw [← hiff, ← shorts_le_iff]
        omega
  rw [hwritten, ← hboth.2]
  omega

/-- An argp with `--all`, and then the option `-a`. -/
def argpLongFirst : Argp Unit :=
  .node (some ⟨1, [⟨some [letterA, letterL, letterL], 256, none, 0, none, 0⟩,
    ⟨none, 97, none, 0, none, 0⟩], by decide⟩) (some ()) []

/-- Under `ARGP_LONG_ONLY` one byte too many is written. -/
theorem argpLongFirst_overflows : ¬∀ p ∈ writes true (some argpLongFirst),
    p.Within (storageSizes true (some argpLongFirst)) := by
  decide

end MuslBsd.Argp
