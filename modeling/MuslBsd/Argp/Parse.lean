import Mathlib.Algebra.Order.Ring.Nat
import MuslBsd.Argp.Options
import MuslBsd.Support.Segments

/-! `argp-parse.c` from `group_parse` to `__argp_parse`. -/
namespace MuslBsd.Argp
open MuslBsd.Support

variable {π σ : Type} (E : Env π σ)

/-- A lookup in the groups. -/
def look {α : Type} (f : Parser π σ → Except Fault α) : ParserM π σ α := do
  let s ← get
  match f s with
  | .ok a => pure a
  | .error e => fail e

theorem returns_look_bind {α β : Type} {s : Parser π σ} {g : Parser π σ → Except Fault α}
    {f : α → ParserM π σ β} {post : β → Parser π σ → List Act → Prop} :
    Faulting.Returns (look g >>= f) s post ↔ ∃ a, g s = .ok a ∧ Faulting.Returns (f a) s post := by
  rw [Faulting.returns_bind]
  unfold look
  rw [returns_get_bind]
  cases g s with
  | ok a => simp
  | error e => simp

/-- What a parser is shown. -/
def Parser.shown (s : Parser π σ) (g : ℕ) : Shown where
  argv := s.argv
  next := s.next
  flags := s.flags
  argNum := (s.groups g).argsProcessed
  quoted := s.quoted
  input := (s.groups g).input
  childInputs := (s.groups g).childInputs
  hook := (s.groups g).hook
  errStream := s.errStream

/-- What the parser of a group answers. -/
def reply (s : Parser π σ) (g : ℕ) (parser : π) (key : Key) (arg : Option CStr) : Answer σ :=
  E.respond parser key.code arg (s.shown g) s.world

/-- The state after an answer. -/
def Parser.answered (s : Parser π σ) (g : ℕ) (a : Answer σ) : Parser π σ :=
  { s with
    groups := Function.update s.groups g
      { s.groups g with childInputs := a.childInputs, hook := a.hook }
    argv := a.argv
    next := a.next
    flags := a.flags
    errStream := a.errStream
    world := a.world }

/-- The call that has had an answer. -/
def Parser.call (s : Parser π σ) (g : ℕ) (key : Key) (arg : Option CStr) (a : Answer σ) : Call where
  group := g
  key := key
  arg := arg
  input := (s.groups g).input
  before := s.next
  after := a.next
  argc := a.argv.length
  childInputs := a.childInputs
  err := a.err

/-- `group_parse`. -/
def groupParse (g : ℕ) (key : Key) (arg : Option CStr) : ParserM π σ ℤ := do
  let s ← get
  match (s.groups g).parser with
  | none => pure EBADKEY
  | some parser =>
    let a := reply E s g parser key arg
    modify fun s => s.answered g a
    emit (.calls (s.call g key arg a))
    pure a.err

/-! ### Arguments -/

/-- How the loop of `parser_parse_arg` has ended. -/
structure Tried where
  err : ℤ
  key : Key
  /-- The group that `group` is one past of. -/
  last : ℕ

/-- The loop of `parser_parse_arg` over the groups that are left. -/
def tryParsers (val : CStr) : List ℕ → ParserM π σ Tried
  | [] => pure ⟨EBADKEY, .arg, 0⟩
  | g :: gs => do
    modify fun s => { s with next := s.next + 1 }
    let err ← groupParse E g .arg (some val)
    if err = EBADKEY then do
      modify fun s => { s with next := s.next - 1 }
      let err ← groupParse E g .args none
      if err = EBADKEY then tryParsers val gs else pure ⟨err, .args, g⟩
    else pure ⟨err, .arg, g⟩

/-- `args_processed += n`. -/
def addProcessed (g : ℕ) (n : ℤ) : ParserM π σ Unit := modify fun s =>
  { s with
    groups := Function.update s.groups g
      { s.groups g with argsProcessed := ((s.groups g).argsProcessed + n.toNat) % 2 ^ 32 } }

/-- The end of `parser_parse_arg`, once a group has taken the argument at `index`. -/
def countArg (tried : Tried) (index : ℤ) : ParserM π σ Unit := do
  modify fun s => if tried.key = .args then { s with next := s.argc } else s
  let s ← get
  emit (.handled tried.last index s.next)
  if index < s.next then addProcessed tried.last (s.next - index)
  else modify fun s => { s with argsOnly := false }

/-- `parser_parse_arg`. -/
def parserParseArg (val : CStr) : ParserM π σ ℤ := do
  let s ← get
  let tried ← tryParsers E val (List.range s.numGroups)
  if tried.err = 0 then do
    countArg tried s.next
    pure tried.err
  else pure tried.err

/-! ### Exchanging segments of `argv` -/

/-- `exchange`; the skipped arguments move behind what has been parsed since. -/
def exchange : ParserM π σ Unit := do
  let s ← get
  if s.lastNonopt < s.next ∧ s.firstNonopt < s.lastNonopt ∧
      (s.firstNonopt < 0 ∨ s.argc < s.next) then fail .bounds
  else
    modify fun s =>
      { s with
        argv := exchangeSegments (s.next - s.firstNonopt).toNat s.argv s.firstNonopt.toNat
          s.lastNonopt.toNat s.next.toNat
        firstNonopt := s.firstNonopt + (s.next - s.lastNonopt)
        lastNonopt := s.next }

/-! ### The next element -/

/-- `enum arg_type`, with the text of the option. -/
inductive ArgType
  | arg
  | shortOption (first : CChar) (rest : CStr)
  | longOption (opt : CStr)
  | longOnlyOption (opt : CStr)
  | quote

/-- `classify_arg`. -/
def classifyArg (longOnly : Bool) (shortOpts : Option (List ℤ)) (arg : CStr) :
    Except Fault ArgType :=
  match arg with
  | [] => .ok .arg
  | c :: arg =>
    if c = dash then
      match arg with
      | [] => .ok .arg
      | d :: opt =>
        if d = dash then
          match opt with
          | [] => .ok .quote
          | _ :: _ => .ok (.longOption opt)
        else if longOnly then
          match shortOpts with
          | none => .error .assertion
          | some keys =>
            if opt ≠ [] ∨ charToInt d ∉ keys then .ok (.longOnlyOption (d :: opt))
            else .ok (.shortOption d opt)
        else .ok (.shortOption d opt)
    else .ok .arg

/-- A pointer to this text, or NULL if it is empty. -/
def bundle : CStr → Option (CChar × CStr)
  | [] => none
  | c :: rest => some (c, rest)

/-- A bundle of short options goes on. -/
def parseShort (c : CChar) (rest : CStr) : ParserM π σ ℤ := do
  let s ← get
  if s.argsOnly then fail .assertion
  else do
    modify fun s => { s with nextchar := bundle rest }
    match ← look fun s => findShortOption s.groups s.numGroups (charToInt c) with
    | none =>
      -- here `nextchar` stays where it is, at the terminator too, but nothing reads it again
      print (if s.posixlyCorrect then .illegalOption c else .invalidOption c)
      setEbadkey false
      pure EBADKEY
    | some (g, option) =>
      if option.arg.isSome then do
        modify fun s => { s with nextchar := none }
        if rest = [] ∧ ¬Has option.flags OPTION_ARG_OPTIONAL then do
          if s.next = s.argc then do
            print (.shortRequiresArgument c)
            setEbadkey false
            pure EBADKEY
          else do
            let value ← argvAt s.next
            setNext (s.next + 1)
            groupParse E g (.option option.key) (some value)
        else
          groupParse E g (.option option.key) (if rest = [] then none else some rest)
      else
        groupParse E g (.option option.key) none

/-- What follows the first `=`. -/
def valueOf (opt : CStr) : Option CStr :=
  match opt.dropWhile fun c => c ≠ equalsSign with
  | [] => none
  | _ :: value => some value

/-- A long option; `start` is what messages put in front of its name. -/
def parseLong (arg start opt : CStr) : ParserM π σ ℤ := do
  modify fun s => { s with next := s.next + 1 }
  match ← look fun s => findLongOption s.groups s.numGroups opt with
  | .inr ambiguous =>
    print (if ambiguous then .ambiguous arg else .unrecognized arg)
    setEbadkey false
    pure EBADKEY
  | .inl (g, option) =>
    let value := valueOf opt
    if value.isSome ∧ option.arg = none then do
      print (.argumentNotAllowed start option.name)
      setEbadkey false
      pure EBADKEY
    else if option.arg.isSome ∧ value = none ∧ ¬Has option.flags OPTION_ARG_OPTIONAL then do
      let s ← get
      if s.next = s.argc then do
        print (.requiresArgument start option.name)
        setEbadkey false
        pure EBADKEY
      else do
        let value ← argvAt s.next
        setNext (s.next + 1)
        setEbadkey false
        groupParse E g (.option option.key) (some value)
    else do
      setEbadkey false
      groupParse E g (.option option.key) value

/-- Make the skipped arguments end where `next` is. -/
def extendNonopts : ParserM π σ Unit := do
  let s ← get
  if s.firstNonopt = s.lastNonopt then
    modify fun s => { s with firstNonopt := s.next, lastNonopt := s.next }
  else if s.lastNonopt ≠ s.next then exchange
  else pure ()

/-- A non-option argument, while options are still looked for. -/
def parseNonOption (arg : CStr) : ParserM π σ ℤ := do
  let s ← get
  match s.ordering with
  | .permute => do
    extendNonopts
    let s ← get
    if s.lastNonopt ≠ s.next then fail .assertion
    else do
      modify fun s => { s with next := s.next + 1, lastNonopt := s.next + 1 }
      pure 0
  | .requireOrder => do
    modify fun s => { s with argsOnly := true }
    pure 0
  | .returnInOrder => do
    setEbadkey true
    parserParseArg E arg

/-- Go back to the skipped arguments, and move what follows them to their front. -/
def rewindNonopts : ParserM π σ Unit := do
  exchange
  modify fun s => { s with next := s.firstNonopt, firstNonopt := 0, lastNonopt := 0 }

/-- The `--`. -/
def parseQuote : ParserM π σ ℤ := do
  modify fun s => { s with next := s.next + 1 }
  let s ← get
  if s.lastNonopt = s.next then fail .assertion
  else if s.firstNonopt ≠ s.lastNonopt then do
    rewindNonopts
    modify fun s => { s with quoted := s.next, argsOnly := true }
    pure 0
  else do
    modify fun s => { s with quoted := s.next, argsOnly := true }
    pure 0

/-- What a callback that has moved `next` back makes necessary. -/
def settle (s : Parser π σ) : Parser π σ :=
  let s := if s.quoted ≠ 0 ∧ s.next < s.quoted then { s with quoted := 0, argsOnly := false } else s
  let s := if s.next < s.lastNonopt then { s with lastNonopt := s.next } else s
  if s.next < s.firstNonopt then { s with firstNonopt := s.next } else s

/-- `parser_parse_next`. -/
def parserParseNext : ParserM π σ ℤ := do
  modify settle
  let s ← get
  match s.nextchar with
  | some (c, rest) => parseShort E c rest
  | none =>
    if s.argsOnly then do
      setEbadkey true
      if s.argc ≤ s.next then pure EBADKEY
      else do
        let arg ← argvAt s.next
        parserParseArg E arg
    else if s.argc ≤ s.next then do
      setEbadkey true
      if s.firstNonopt ≠ s.lastNonopt then do
        rewindNonopts
        modify fun s => { s with argsOnly := true }
        pure 0
      else pure EBADKEY
    else do
      let arg ← argvAt s.next
      match ← look fun s => classifyArg (Has s.flags ARGP_LONG_ONLY) s.shortOpts arg with
      | .arg => parseNonOption E arg
      | .quote => parseQuote
      | .longOption opt => parseLong E arg [dash, dash] opt
      | .longOnlyOption opt => parseLong E arg (arg.take 1) opt
      | .shortOption first rest => do
        modify fun s => { s with next := s.next + 1, nextchar := some (first, rest) }
        pure 0

/-- `while (!err) err = parser_parse_next (..)`, for at most that many rounds. -/
def parserLoop : ℕ → ParserM π σ ℤ
  | 0 => fail .endless
  | k + 1 => do
    let err ← parserParseNext E
    if err = 0 then parserLoop k else pure err

/-! ### Before and after -/

/-- A loop over groups that goes on while there is no error but `EBADKEY`, and calls those that are
wanted. -/
def sweep (key : Key) (wanted : Group π → Prop) [DecidablePred wanted] :
    List ℕ → ℤ → ParserM π σ ℤ
  | [], err => pure err
  | g :: gs, err =>
    if err = 0 ∨ err = EBADKEY then do
      let s ← get
      if wanted (s.groups g) then do
        let err ← groupParse E g key none
        sweep key wanted gs err
      else sweep key wanted gs err
    else pure err

/-- A loop that calls every group, and ignores errors. -/
def callAll (key : Key) : List ℕ → ParserM π σ Unit
  | [] => pure ()
  | g :: gs => do
    let _ ← groupParse E g key none
    callAll key gs

/-- The initial input of a group: what the parent has left for it, or what it has. -/
def Parser.inputOf (s : Parser π σ) (g : ℕ) : Ptr :=
  match (s.groups g).parent with
  | some parent => (s.groups parent).childInputs (s.groups g).parentIndex
  | none => (s.groups g).input

/-- The slots of a group: without a parser, the first child gets the input. -/
def Parser.slotsOf (s : Parser π σ) (g : ℕ) : ℕ → Ptr :=
  if (s.groups g).parser.isNone ∧ 0 < (s.groups g).numChildren then
    Function.update (s.groups g).childInputs 0 (s.inputOf g)
  else (s.groups g).childInputs

/-- What the loop of `parser_init` does before it calls a group. -/
def initInput (g : ℕ) : ParserM π σ Unit := do
  let s ← get
  modify fun s =>
    { s with
      groups := Function.update s.groups g
        { s.groups g with input := s.inputOf g, childInputs := s.slotsOf g } }
  emit (.inputs g (s.inputOf g))

/-- The body of the loop of `parser_init`. -/
def initGroup (g : ℕ) : ParserM π σ ℤ := do
  initInput g
  groupParse E g .init none

/-- The loop of `parser_init`. -/
def initGroups : List ℕ → ℤ → ParserM π σ ℤ
  | [], err => pure err
  | g :: gs, err =>
    if err = 0 ∨ err = EBADKEY then do
      let err ← initGroup E g
      initGroups gs err
    else pure err

/-- Where the caller starts `argp_parse`. -/
structure Start (σ : Type) where
  argv : List CStr
  flags : ℕ
  input : Ptr
  world : σ

/-- The parser that `parser_init` sets up, before it calls anything. -/
def setUp (cvt : Converted π) (start : Start σ) : Parser π σ where
  groups g :=
    let group := cvt.groups.getD g .nil
    if g = 0 ∧ cvt.groups ≠ [] then { group with input := start.input } else group
  numGroups := cvt.groups.length
  shortOpts := if Has start.flags ARGP_LONG_ONLY then some cvt.shortOpts else none
  posixlyCorrect := E.posixlyCorrect
  argsOnly := false
  printErrors := ¬Has start.flags ARGP_NO_ERRS
  ordering :=
    if Has start.flags ARGP_IN_ORDER then .returnInOrder
    else if Has start.flags ARGP_NO_ARGS then .requireOrder
    else if E.posixlyCorrect then .requireOrder
    else .permute
  firstNonopt := 0
  lastNonopt := 0
  nextchar := none
  argv := start.argv
  next := 0
  flags := start.flags
  quoted := 0
  errStream := true
  argEbadkey := false
  world := start.world

/-- The end of `parser_init`; `argv` is the vector that the caller passed. -/
def skipName (argv : List CStr) : ParserM π σ Unit := modify fun s =>
  if argv ≠ [] ∧ ¬Has s.flags ARGP_PARSE_ARGV0 then { s with next := 1 } else s

/-- What `parser_init` does once there is storage. -/
def initParsers (argv : List CStr) : ParserM π σ ℤ := do
  let s ← get
  let err ← initGroups E (List.range s.numGroups) 0
  if err = 0 ∨ err = EBADKEY then do
    skipName argv
    pure 0
  else pure err

/-- `__argp_state_help` with `ARGP_HELP_STD_ERR`. -/
def stateHelp : ParserM π σ Unit := do
  let s ← get
  if ¬Has s.flags ARGP_NO_ERRS ∧ s.errStream then do
    emit .helps
    if Has s.flags ARGP_NO_EXIT then pure () else fail .exit
  else pure ()

/-- `parser_finalize` where all arguments are parsed. -/
def finishAll : ParserM π σ ℤ := do
  let s ← get
  let err ← sweep E .noArgs (fun g => g.argsProcessed = 0) (List.range s.numGroups) 0
  let err ← sweep E .end_ (fun _ => True) (List.range s.numGroups).reverse err
  pure (if err = EBADKEY then 0 else err)

/-- The message that there are too many arguments. -/
def printTooMany : ParserM π σ Unit := do
  let s ← get
  if ¬Has s.flags ARGP_NO_ERRS ∧ s.errStream then emit (.prints .tooManyArguments) else pure ()

/-- The first part of `parser_finalize`: the error so far, and what is stored in `*end_index`. -/
def finishArgs (err : ℤ) (endIndex : Bool) : ParserM π σ (ℤ × Option ℤ) := do
  let s ← get
  emit (.finalizes s.next s.argv)
  if (if err = EBADKEY ∧ s.argEbadkey then 0 else err) = 0 then
    if s.next = s.argc then do
      let err ← finishAll E
      let s ← get
      pure (err, if endIndex then some s.next else none)
    else if endIndex then pure (0, some s.next)
    else do
      printTooMany
      pure (EBADKEY, none)
  else pure (err, none)

/-- The second part: every parser is told of the error, or of the success. -/
def finishParsers (err : ℤ) : ParserM π σ ℤ := do
  let s ← get
  if err = 0 then do
    let err ← sweep E .success (fun _ => True) (List.range s.numGroups).reverse 0
    pure (if err = EBADKEY then 0 else err)
  else if err = EBADKEY then do
    stateHelp
    callAll E .error (List.range s.numGroups)
    pure err
  else do
    callAll E .error (List.range s.numGroups)
    pure err

/-- `parser_finalize`. -/
def parserFinalize (err : ℤ) (endIndex : Bool) : ParserM π σ (ℤ × Option ℤ) := do
  let (err, index) ← finishArgs E err endIndex
  let err ← finishParsers E err
  let s ← get
  callAll E .fini (List.range s.numGroups).reverse
  pure (if err = EBADKEY then EINVAL else err, index)

/-- `__argp_parse` once there is storage: the result, and what is stored in `*end_index`. -/
def parse (fuel : ℕ) (argv : List CStr) (endIndex : Bool) : ParserM π σ (ℤ × Option ℤ) := do
  let err ← initParsers E argv
  if err = 0 then do
    let err ← parserLoop E fuel
    parserFinalize E err endIndex
  else pure (err, none)

/-- How a call of `argp_parse` ends, and what it does. -/
structure Outcome where
  result : Except Fault (ℤ × Option ℤ)
  acts : List Act

/-- The argps that `__argp_parse` puts beside that of the caller. -/
structure Defaults (π : Type) where
  help : Argp π
  /-- There is one if the program has a version. -/
  version : Option (Argp π)

/-- The argp that is parsed with. -/
def topArgp (defaults : Defaults π) (argp : Option (Argp π)) (flags : ℕ) : Option (Argp π) :=
  if Has flags ARGP_NO_HELP then argp
  else some (.node none none (argp.toList ++ [defaults.help] ++ defaults.version.toList))

/-- `__argp_parse`. -/
def argpParse (defaults : Defaults π) (fuel : ℕ) (argp : Option (Argp π)) (start : Start σ)
    (endIndex : Bool) : Outcome :=
  if E.malloc then
    match parserConvert (Has start.flags ARGP_LONG_ONLY) (topArgp defaults argp start.flags) with
    | .error e => ⟨.error e, []⟩
    | .ok cvt =>
      let (result, _, acts) := parse E fuel start.argv endIndex (setUp E cvt start)
      ⟨result, acts⟩
  else ⟨.ok (ENOMEM, none), []⟩

end MuslBsd.Argp
