import MuslBsd.Support.Guarded
import Mathlib.Data.Int.Notation

/-! What `argp-parse.c` works on: options, the tree of `struct argp`, the groups, the parsing state
and the parsers of the caller. -/
namespace MuslBsd.Argp
open MuslBsd.Support

/-! ### Strings -/

/-- A `char` of a C string, before its terminator. -/
abbrev CChar : Type := {b : UInt8 // b ≠ 0}

abbrev CStr : Type := List CChar

/-- The `char` as an `int`; it is signed. -/
def charToInt (c : CChar) : ℤ := (c.val.toNat : ℤ).bmod 256

def dash : CChar := ⟨45, by decide⟩
def equalsSign : CChar := ⟨61, by decide⟩

/-! The letters of the examples. -/

def letterA : CChar := ⟨97, by decide⟩
def letterB : CChar := ⟨98, by decide⟩
def letterL : CChar := ⟨108, by decide⟩
def letterO : CChar := ⟨111, by decide⟩
def letterP : CChar := ⟨112, by decide⟩
def letterX : CChar := ⟨120, by decide⟩
def letterZ : CChar := ⟨122, by decide⟩
def capitalX : CChar := ⟨88, by decide⟩

/-- A `void *` of the caller; 0 is NULL. -/
abbrev Ptr : Type := ℕ

/-! ### Constants -/

/-- `E2BIG`. -/
def ARGP_ERR_UNKNOWN : ℤ := 7
def EBADKEY : ℤ := ARGP_ERR_UNKNOWN
def ENOMEM : ℤ := 12
def EINVAL : ℤ := 22

def ARGP_PARSE_ARGV0 : ℕ := 0x01
def ARGP_NO_ERRS : ℕ := 0x02
def ARGP_NO_ARGS : ℕ := 0x04
def ARGP_IN_ORDER : ℕ := 0x08
def ARGP_NO_HELP : ℕ := 0x10
def ARGP_NO_EXIT : ℕ := 0x20
def ARGP_LONG_ONLY : ℕ := 0x40

def OPTION_ARG_OPTIONAL : ℕ := 0x1
def OPTION_HIDDEN : ℕ := 0x2
def OPTION_ALIAS : ℕ := 0x4
def OPTION_DOC : ℕ := 0x8

/-- `flags & bit`. -/
def Has (flags bit : ℕ) : Prop := flags &&& bit ≠ 0

instance (flags bit : ℕ) : Decidable (Has flags bit) := inferInstanceAs (Decidable (_ ≠ _))

/-- The keys that parsers are called with. -/
inductive Key
  | init
  | option (key : ℤ)
  | arg
  | args
  | noArgs
  | end_
  | success
  | error
  | fini
  deriving DecidableEq

/-- The `int` of a key; nothing keeps an option from having the key of another kind. -/
def Key.code : Key → ℤ
  | .option key => key
  | .arg => 0
  | .end_ => 0x1000001
  | .noArgs => 0x1000002
  | .init => 0x1000003
  | .success => 0x1000004
  | .error => 0x1000005
  | .args => 0x1000006
  | .fini => 0x1000007

/-! ### Options -/

/-- `struct argp_option`. -/
structure ArgpOption where
  name : Option CStr
  key : ℤ
  arg : Option CStr
  flags : ℕ
  doc : Option CStr
  group : ℤ
  deriving DecidableEq

namespace ArgpOption

variable (o : ArgpOption)

/-- `__option_is_end`. -/
def IsEnd : Prop := o.key = 0 ∧ o.name = none ∧ o.doc = none ∧ o.group = 0

instance : Decidable o.IsEnd := inferInstanceAs (Decidable (_ ∧ _))

/-- `__option_is_short`. -/
def IsShort : Prop := ¬Has o.flags OPTION_DOC ∧ 0 < o.key ∧ o.key ≤ 0xFF ∧ 32 ≤ o.key ∧ o.key ≤ 126

instance : Decidable o.IsShort := inferInstanceAs (Decidable (_ ∧ _))

end ArgpOption

/-- An options array up to its end, and where it is. -/
structure OptionArray where
  address : ℕ
  entries : List ArgpOption
  notEnd : ∀ o ∈ entries, ¬o.IsEnd
  deriving DecidableEq

/-- `struct argp`, with NULL for no options and no parser; of `children` only the tree below. -/
inductive Argp (π : Type)
  | node (options : Option OptionArray) (parser : Option π) (children : List (Argp π))

/-! ### Parsing state -/

/-- `struct group`. -/
structure Group (π : Type) where
  parser : Option π
  options : Option OptionArray
  numChildren : ℕ
  /-- An `unsigned`. -/
  argsProcessed : ℕ
  parent : Option ℕ
  parentIndex : ℕ
  input : Ptr
  childInputs : ℕ → Ptr
  hook : Ptr

/-- A group that is not there. -/
def Group.nil {π : Type} : Group π := ⟨none, none, 0, 0, none, 0, 0, fun _ => 0, 0⟩

inductive Ordering
  | requireOrder | permute | returnInOrder
  deriving DecidableEq

/-- `struct parser` with its `struct argp_state`, and the flag `arg_ebadkey` of `argp_parse`. -/
structure Parser (π σ : Type) where
  groups : ℕ → Group π
  /-- The index of `egroup`. -/
  numGroups : ℕ
  shortOpts : Option (List ℤ)
  posixlyCorrect : Bool
  argsOnly : Bool
  printErrors : Bool
  ordering : Ordering
  firstNonopt : ℤ
  lastNonopt : ℤ
  /-- The rest of a bundle of short options. -/
  nextchar : Option (CChar × CStr)
  argv : List CStr
  next : ℤ
  flags : ℕ
  quoted : ℤ
  /-- Whether there is an `err_stream`. -/
  errStream : Bool
  argEbadkey : Bool
  /-- What the parsers of the caller know. -/
  world : σ

/-- `argc`. -/
def Parser.argc {π σ : Type} (s : Parser π σ) : ℤ := s.argv.length

/-! ### The caller -/

/-- What a parser is shown of the state. -/
structure Shown where
  argv : List CStr
  next : ℤ
  flags : ℕ
  argNum : ℕ
  quoted : ℤ
  input : Ptr
  childInputs : ℕ → Ptr
  hook : Ptr
  errStream : Bool

/-- What a parser returns, and what it leaves in the fields that it may modify. -/
structure Answer (σ : Type) where
  err : ℤ
  argv : List CStr
  next : ℤ
  flags : ℕ
  childInputs : ℕ → Ptr
  hook : Ptr
  errStream : Bool
  world : σ

/-- The parsers of the caller, the environment and the allocator. -/
structure Env (π σ : Type) where
  respond : π → ℤ → Option CStr → Shown → σ → Answer σ
  posixlyCorrect : Bool
  malloc : Bool

/-! ### What happens -/

/-- A call of a parser: what it is given, `state->next` before and after, and what it leaves. -/
structure Call where
  group : ℕ
  key : Key
  arg : Option CStr
  input : Ptr
  before : ℤ
  after : ℤ
  /-- `state->argc` afterwards. -/
  argc : ℤ
  childInputs : ℕ → Ptr
  err : ℤ

/-- The texts on `err_stream`. -/
inductive Message
  | illegalOption (c : CChar)
  | invalidOption (c : CChar)
  | shortRequiresArgument (c : CChar)
  | ambiguous (arg : CStr)
  | unrecognized (arg : CStr)
  /-- With two dashes, or else with the first character of the argument. -/
  | argumentNotAllowed (start : CStr) (name : Option CStr)
  | requiresArgument (start : CStr) (name : Option CStr)
  | tooManyArguments

inductive Act
  | calls (c : Call)
  /-- A group has taken the argument at `index`, and `state->next` is left here. -/
  | handled (group : ℕ) (index next : ℤ)
  /-- The initial `input` of a group. -/
  | inputs (group : ℕ) (value : Ptr)
  | prints (m : Message)
  /-- `__argp_state_help` prints. -/
  | helps
  /-- `parser_finalize` is called, with `state->next` and `argv`. -/
  | finalizes (next : ℤ) (argv : List CStr)

/-- Why a run does not end as it should. -/
inductive Fault
  /-- A NULL options array is read. -/
  | nullOptions
  | assertion
  /-- More is written than there is memory for. -/
  | storage
  /-- `argv` is read where it has no element. -/
  | bounds
  /-- `exit` is called. -/
  | exit
  /-- The loop goes on. -/
  | endless
  deriving DecidableEq

abbrev ParserM (π σ α : Type) : Type := Faulting Fault (Parser π σ) Act α

section

variable {π σ : Type}

def get : ParserM π σ (Parser π σ) := Faulting.gets id

def emit (a : Act) : ParserM π σ Unit := Faulting.emit a

def modify (f : Parser π σ → Parser π σ) : ParserM π σ Unit := Faulting.modify f

def fail {α : Type} (f : Fault) : ParserM π σ α := Faulting.fault f

/-- `if (parser->print_errors && parser->state.err_stream) fprintf (..)`. -/
def print (m : Message) : ParserM π σ Unit := do
  let s ← get
  if s.printErrors ∧ s.errStream then emit (.prints m) else pure ()

def setEbadkey (b : Bool) : ParserM π σ Unit := modify fun s => { s with argEbadkey := b }

def setNext (next : ℤ) : ParserM π σ Unit := modify fun s => { s with next := next }

/-- `argv[i]`, for a string that is there. -/
def argvAt (i : ℤ) : ParserM π σ CStr := do
  let s ← get
  if 0 ≤ i then
    match s.argv[i.toNat]? with
    | some arg => pure arg
    | none => fail .bounds
  else
    fail .bounds

end

/-! ### Single steps -/

section

open Faulting (Returns)

variable {π σ α : Type} {s : Parser π σ} {post : α → Parser π σ → List Act → Prop}

@[simp] theorem returns_get_bind {f : Parser π σ → ParserM π σ α} :
    Returns (get >>= f) s post ↔ Returns (f s) s post := Iff.rfl

@[simp] theorem returns_modify_bind {g : Parser π σ → Parser π σ} {f : Unit → ParserM π σ α} :
    Returns (modify g >>= f) s post ↔ Returns (f ()) (g s) post := Iff.rfl

@[simp] theorem returns_modify {g : Parser π σ → Parser π σ}
    {post : Unit → Parser π σ → List Act → Prop} :
    Returns (modify g) s post ↔ post () (g s) [] := Faulting.returns_modify

@[simp] theorem returns_emit_bind {a : Act} {f : Unit → ParserM π σ α} :
    Returns (emit a >>= f) s post ↔ Returns (f ()) s fun b s' acts => post b s' (a :: acts) :=
  Faulting.returns_emit_bind

@[simp] theorem returns_fail {x : Fault} : Returns (fail x : ParserM π σ α) s post ↔ False :=
  Faulting.returns_fault

@[simp] theorem returns_setEbadkey_bind {b : Bool} {f : Unit → ParserM π σ α} :
    Returns (setEbadkey b >>= f) s post ↔ Returns (f ()) { s with argEbadkey := b } post := Iff.rfl

@[simp] theorem returns_setNext_bind {next : ℤ} {f : Unit → ParserM π σ α} :
    Returns (setNext next >>= f) s post ↔ Returns (f ()) { s with next := next } post := Iff.rfl

theorem returns_print_bind {m : Message} {f : Unit → ParserM π σ α} :
    Returns (print m >>= f) s post ↔ Returns (f ()) s fun b s' acts =>
      post b s' ((if s.printErrors ∧ s.errStream then [.prints m] else []) ++ acts) := by
  rw [Faulting.returns_bind]
  unfold print
  rw [returns_get_bind, Faulting.returns_ite]
  by_cases h : s.printErrors ∧ s.errStream
  · simp only [if_pos h, h, and_self, true_implies, not_true_eq_false, false_implies, and_true]
    constructor
    · intro hr
      obtain ⟨_, _, _, hrun, hr⟩ := hr
      cases hrun
      exact hr
    · intro hr
      exact ⟨(), s, _, rfl, hr⟩
  · simp [h]

/-- `argv[i]` is there. -/
def Parser.Readable (s : Parser π σ) (i : ℤ) : Prop := 0 ≤ i ∧ i < s.argc

theorem Parser.Readable.elem {i : ℤ} (h : s.Readable i) : ∃ arg, s.argv[i.toNat]? = some arg := by
  have hlt : i.toNat < s.argv.length := by
    have hargc : s.argc = s.argv.length := rfl
    have hi := h.1
    have hi' := h.2
    omega
  exact ⟨_, List.getElem?_eq_getElem hlt⟩

theorem returns_argvAt_bind {i : ℤ} {f : CStr → ParserM π σ α} :
    Returns (argvAt i >>= f) s post ↔
      0 ≤ i ∧ ∃ arg, s.argv[i.toNat]? = some arg ∧ Returns (f arg) s post := by
  rw [Faulting.returns_bind]
  unfold argvAt
  rw [returns_get_bind, Faulting.returns_ite]
  cases s.argv[i.toNat]? with
  | none => simp
  | some arg =>
    by_cases hi : 0 ≤ i
    · simp [hi]
    · simp [hi]

end

end MuslBsd.Argp
