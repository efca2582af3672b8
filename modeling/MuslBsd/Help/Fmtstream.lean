import Mathlib.Algebra.Order.Ring.Nat
import Mathlib.Data.List.TakeWhile
import MuslBsd.Support.Buffer

/-! The stream of `argp-fmtstream.c`, which truncates or wraps lines in its buffer. -/
namespace MuslBsd.Help
open MuslBsd.Support

/-! ### The C library -/

/-- `fwrite_unlocked` and `realloc`. -/
structure Libc where
  /-- How many of the bytes the stream takes, after those that it has taken. -/
  fwrite : List UInt8 → List UInt8 → ℕ
  fwrite_le : ∀ out bytes, fwrite out bytes ≤ bytes.length
  /-- The block in its new size; `none` for NULL. -/
  realloc : List UInt8 → ℕ → Option (List UInt8)
  realloc_length : ∀ m n m', realloc m n = some m' → m'.length = n

/-- The stream takes all that it is given, and there is memory. -/
structure Libc.Unfailing (L : Libc) : Prop where
  fwrite : ∀ out bytes, L.fwrite out bytes = bytes.length
  realloc : ∀ m n, (L.realloc m n).isSome

/-- A stream that takes everything, and memory without an end. -/
def ordinaryLibc : Libc where
  fwrite _ bytes := bytes.length
  fwrite_le _ _ := Nat.le_refl _
  realloc m n := some (m.take n ++ List.replicate (n - m.length) 0)
  realloc_length := by
    intro m n m' h
    cases h
    rw [List.length_append, List.length_take, List.length_replicate]
    omega

theorem ordinaryLibc_unfailing : ordinaryLibc.Unfailing := ⟨fun _ _ => rfl, fun _ _ => rfl⟩

/-- A text that is an object, which has at most `PTRDIFF_MAX` bytes. -/
abbrev ObjectText := {text : List UInt8 // text.length < 2 ^ 63}

/-- What a format and its arguments give. `vsnprintf` returns its length, and an `int` holds one
more than that. -/
abbrev PrintedText := {text : List UInt8 // text.length + 1 < 2 ^ 31}

/-- Why a call does not return: it leaves the buffer, or its loop has not ended yet. -/
inductive Halt
  | fault
  | running
  deriving DecidableEq

abbrev Run := Except Halt

/-- A memory access, or a pointer, that has to be within the buffer. -/
def access {α : Type} : Option α → Run α
  | some a => .ok a
  | none => .error .fault

@[simp] theorem ok_bind {α β : Type} (a : α) (f : α → Run β) : (Except.ok a >>= f) = f a := rfl

@[simp] theorem access_bind {α β : Type} (a : α) (f : α → Run β) :
    (access (some a) >>= f) = f a := rfl

def lineFeed : UInt8 := 10

def blank : UInt8 := 32

/-- `isblank`. -/
def isBlank (c : UInt8) : Bool := c = blank || c = 9

/-! ### The stream -/

/-- `struct argp_fmtstream`. `mem` is the buffer from `buf` to `end`, `p` is an offset into it,
and `out` is what `stream` has taken. -/
structure Fmtstream where
  lmargin : ℕ
  rmargin : ℕ
  wmargin : ℤ
  pointOffs : ℕ
  pointCol : ℤ
  mem : List UInt8
  p : ℕ
  out : List UInt8
  deriving DecidableEq

/-- `__argp_make_fmtstream`, on the block that `malloc` has returned. -/
def makeFmtstream (lmargin rmargin : ℕ) (wmargin : ℤ) (block : List UInt8) : Fmtstream :=
  ⟨lmargin, rmargin, wmargin, 0, 0, block, 0, []⟩

variable (L : Libc)

/-- `fwrite_unlocked`, where what it returns is not looked at. -/
def emit (fs : Fmtstream) (bytes : List UInt8) : Fmtstream :=
  { fs with out := fs.out ++ bytes.take (L.fwrite fs.out bytes) }

/-- `putc_unlocked`, once for each of the bytes. -/
def emitEach (fs : Fmtstream) (bytes : List UInt8) : Fmtstream :=
  bytes.foldl (fun fs c => emit L fs [c]) fs

/-! ### `__argp_fmtstream_update` -/

/-- The spaces up to the left margin, at the start of a line. -/
def padLine (fs : Fmtstream) (buf : ℕ) : Run (Fmtstream × ℕ) :=
  if fs.pointCol = 0 ∧ fs.lmargin ≠ 0 then
    let pad := fs.lmargin
    if fs.p + pad < fs.mem.length then do
      let mem ← access (Buffer.move fs.mem (buf + pad) buf (fs.p - buf))
      let mem ← access (Buffer.store mem buf (List.replicate pad blank))
      .ok ({ fs with mem := mem, p := fs.p + pad, pointCol := pad }, buf + pad)
    else .ok ({ emitEach L fs (List.replicate pad blank) with pointCol := pad }, buf)
  else .ok (fs, buf)

/-- A line that is too long loses what is past the margin. -/
def truncateLine (fs : Fmtstream) (buf len nl : ℕ) : Run (Fmtstream × Option ℕ) :=
  let r : ℤ := fs.rmargin - 1
  if nl < fs.p then do
    let trunc := buf + (r - fs.pointCol)
    let mem ← access (Buffer.move fs.mem trunc nl (fs.p - nl))
    let p ← access (Buffer.position mem (fs.p - (nl - trunc)))
    .ok ({ fs with mem := mem, p := p, pointCol := 0 }, some (buf + fs.rmargin))
  else do
    let pointCol := fs.pointCol + len
    let p ← access (Buffer.position fs.mem (fs.p - (pointCol - r)))
    .ok ({ fs with p := p, pointCol := pointCol }, none)

/-- One past the last byte that satisfies `stop`, of the `k` bytes from `buf`, and `buf` if there
is none. -/
def scanBack (stop : UInt8 → Bool) (mem : List UInt8) (buf : ℕ) : ℕ → Option ℕ
  | 0 => some buf
  | k + 1 => do
    let c ← mem[buf + k]?
    if stop c then some (buf + k + 1) else scanBack stop mem buf k

/-- The first blank from `p` on that is below `nl`, and otherwise `nl`, or `p` if that is past
`nl` already. -/
def endOfWord (mem : List UInt8) (p : ℤ) (nl : ℕ) : Option ℕ :=
  if p < nl then do
    let word ← Buffer.load mem p (nl - p)
    some (p.toNat + (word.takeWhile fun c => !isBlank c).length)
  else some p.toNat

/-- The first byte from `p` on that is no blank. -/
def skipBlanks (mem : List UInt8) (p : ℕ) : Option ℕ :=
  if (mem.drop p).dropWhile isBlank = [] then none
  else some (p + ((mem.drop p).takeWhile isBlank).length)

/-- The line is broken between `nl` and `nextline`; `none` if a long word ends it already. A start
of the scan that is below `buf` is no scan. -/
def findBreak (fs : Fmtstream) (buf nl : ℕ) : Option (Option (ℕ × ℕ)) := do
  let past : ℤ := fs.rmargin - fs.pointCol
  let nextline ← scanBack isBlank fs.mem buf (past + 1).toNat
  if buf < nextline then
    let nl ← scanBack (fun c => !isBlank c) fs.mem buf (nextline - 1 - buf)
    some (some (nl, nextline))
  else
    let p ← endOfWord fs.mem (buf + past + 1) nl
    if p = nl then some none
    else
      let nextline ← skipBlanks fs.mem (p + 1)
      some (some (p, nextline))

/-- The variables of the word wrap, after the break has been found. -/
structure Wrap where
  fs : Fmtstream
  buf : ℕ
  len : ℕ
  nl : ℕ
  nextline : ℕ

/-- `NEXTLINE == BUF + LEN + 1`. -/
def Wrap.AtEnd (w : Wrap) : Prop := w.nextline = w.buf + w.len + 1

instance (w : Wrap) : Decidable w.AtEnd := inferInstanceAs (Decidable (_ = _))

/-- The newline, and the room for the blanks after it: taken from the blanks that are swallowed,
or made by moving the text up, or by putting out the first line. -/
def breakLine (w : Wrap) : Run Wrap :=
  if (if w.AtEnd then (w.fs.mem.length : ℤ) - w.nl < w.fs.wmargin + 1
      else (w.nextline : ℤ) - (w.nl + 1) < w.fs.wmargin) ∧ w.nextline < w.fs.p then
    if (w.fs.mem.length : ℤ) - w.fs.p > w.fs.wmargin + 1 then do
      let mv := w.fs.p - w.nextline
      let nextline := w.nl + 1 + w.fs.wmargin.toNat
      let mem ← access (Buffer.move w.fs.mem nextline w.nextline mv)
      let mem ← access (Buffer.store mem w.nl [lineFeed])
      .ok { w with fs := { w.fs with mem := mem }, nl := w.nl + 1, nextline := nextline,
                   len := nextline + mv - w.buf }
    else do
      let line ← access (Buffer.load w.fs.mem 0 w.nl)
      .ok { w with fs := emit L (emit L w.fs line) [lineFeed], buf := 0, len := w.len + w.buf,
                   nl := 0 }
  else do
    let mem ← access (Buffer.store w.fs.mem w.nl [lineFeed])
    .ok { w with fs := { w.fs with mem := mem }, nl := w.nl + 1 }

/-- The blanks up to the wrap margin. -/
def padWrap (w : Wrap) : Run Wrap :=
  let blanks := List.replicate w.fs.wmargin.toNat blank
  if (w.nextline : ℤ) - w.nl ≥ w.fs.wmargin ∨
      w.AtEnd ∧ (w.fs.mem.length : ℤ) - w.nextline ≥ w.fs.wmargin then do
    let mem ← access (Buffer.store w.fs.mem w.nl blanks)
    .ok { w with fs := { w.fs with mem := mem }, nl := w.nl + w.fs.wmargin.toNat }
  else .ok { w with fs := emitEach L w.fs blanks }

/-- The text from `nextline` follows what has been written. -/
def moveTail (w : Wrap) : Run (Fmtstream × Option ℕ) := do
  let mem ← if w.nl < w.nextline then
      access (Buffer.move w.fs.mem w.nl w.nextline (w.buf + w.len - w.nextline))
    else .ok w.fs.mem
  let p ← access (Buffer.position mem (w.nl + (w.len - (w.nextline - w.buf))))
  .ok ({ w.fs with mem := mem, p := p,
                   pointCol := if w.fs.wmargin = 0 then -1 else w.fs.wmargin }, some w.nl)

/-- A line that is too long is broken before the word at the margin. -/
def wrapLine (fs : Fmtstream) (buf len nl : ℕ) : Run (Fmtstream × Option ℕ) := do
  match ← access (findBreak fs buf nl) with
  | none => .ok ({ fs with pointCol := 0 }, some (nl + 1))
  | some (nl, nextline) =>
    let w ← breakLine L ⟨fs, buf, len, nl, nextline⟩
    let w ← padWrap L w
    moveTail w

/-- From `buf` to the end of the text. -/
def textFrom (fs : Fmtstream) (buf : ℕ) : List UInt8 := (fs.mem.take fs.p).drop buf

/-- The text that has not been scanned yet. -/
def pending (fs : Fmtstream) : List UInt8 := textFrom fs fs.pointOffs

def longLine (fs : Fmtstream) (buf nl : ℕ) : Run (Fmtstream × Option ℕ) :=
  if fs.wmargin < 0 then truncateLine fs buf (fs.p - buf) nl else wrapLine L fs buf (fs.p - buf) nl

/-- The line at `buf`: it fits, as a whole line or as a partial one, or it is too long. -/
def scanLine (fs : Fmtstream) (buf : ℕ) : Run (Fmtstream × Option ℕ) :=
  match (textFrom fs buf).idxOf? lineFeed with
  | none =>
    if fs.pointCol + (fs.p - buf : ℕ) < fs.rmargin then
      .ok ({ fs with pointCol := fs.pointCol + (fs.p - buf : ℕ) }, none)
    else longLine L fs buf fs.p
  | some i =>
    if fs.pointCol + i < fs.rmargin then .ok ({ fs with pointCol := 0 }, some (buf + i + 1))
    else longLine L fs buf (buf + i)

/-- One turn of the loop. It goes on at the position that it returns, if it does. -/
def turn (fs : Fmtstream) (buf : ℕ) : Run (Fmtstream × Option ℕ) := do
  let (fs, buf) ← padLine L fs buf
  scanLine L { fs with pointCol := max fs.pointCol 0 } buf

/-- The loop, in at most `k` turns. -/
def updateLoop (k : ℕ) (fs : Fmtstream) (buf : ℕ) : Run Fmtstream :=
  if buf < fs.p then
    match k with
    | 0 => .error .running
    | k + 1 => do
      match ← turn L fs buf with
      | (fs, some buf) => updateLoop k fs buf
      | (fs, none) => .ok { fs with pointOffs := fs.p }
  else .ok { fs with pointOffs := fs.p }

def update (k : ℕ) (fs : Fmtstream) : Run Fmtstream := updateLoop L k fs fs.pointOffs

/-! ### The other operations -/

/-- `__argp_fmtstream_ensure`, after the text has gone to the stream. -/
def grow (fs : Fmtstream) (amount : ℕ) : Fmtstream × Bool :=
  if fs.mem.length < amount then
    if 2 ^ 64 ≤ fs.mem.length + amount then (fs, false)
    else
      match L.realloc fs.mem (fs.mem.length + amount) with
      | none => (fs, false)
      | some mem => ({ fs with mem := mem }, true)
  else (fs, true)

def ensure (k : ℕ) (fs : Fmtstream) (amount : ℕ) : Run (Fmtstream × Bool) :=
  if fs.mem.length - fs.p < amount then do
    let fs ← update L k fs
    let text := fs.mem.take fs.p
    let wrote := L.fwrite fs.out text
    let fs := emit L fs text
    if wrote = fs.p then .ok (grow L { fs with p := 0, pointOffs := 0 } amount)
    else do
      let mem ← access (Buffer.move fs.mem 0 wrote (fs.p - wrote))
      .ok ({ fs with mem := mem, p := fs.p - wrote, pointOffs := fs.pointOffs - wrote }, false)
  else .ok (fs, true)

/-- `__argp_fmtstream_write`, and whether it returns the length. -/
def write (k : ℕ) (fs : Fmtstream) (text : List UInt8) : Run (Fmtstream × Bool) := do
  let (fs, ok) ← if fs.p + text.length ≤ fs.mem.length then .ok (fs, true)
    else ensure L k fs text.length
  if ok then
    let mem ← access (Buffer.store fs.mem fs.p text)
    .ok ({ fs with mem := mem, p := fs.p + text.length }, true)
  else .ok (fs, false)

/-- `__argp_fmtstream_puts`. -/
def puts (k : ℕ) (fs : Fmtstream) (text : List UInt8) : Run (Fmtstream × Bool) :=
  if text.length ≠ 0 then write L k fs text else .ok (fs, true)

/-- `__argp_fmtstream_putc`. -/
def putc (k : ℕ) (fs : Fmtstream) (c : UInt8) : Run (Fmtstream × Bool) := do
  let (fs, ok) ← if fs.p < fs.mem.length then .ok (fs, true) else ensure L k fs 1
  if ok then
    let mem ← access (Buffer.store fs.mem fs.p [c])
    .ok ({ fs with mem := mem, p := fs.p + 1 }, true)
  else .ok (fs, false)

/-- The loop of `__argp_fmtstream_printf`, in at most `n` turns. `vsnprintf` writes what fits, and
a NUL. -/
def printfLoop (k : ℕ) (text : List UInt8) : ℕ → Fmtstream → ℕ → Run (Fmtstream × Bool)
  | 0, _, _ => .error .running
  | n + 1, fs, sizeGuess => do
    let (fs, ok) ← ensure L k fs sizeGuess
    if ok then
      let avail := fs.mem.length - fs.p
      let mem ← access (Buffer.store fs.mem fs.p (text.take (avail - 1) ++ [0]))
      let fs := { fs with mem := mem }
      if avail ≤ text.length then printfLoop k text n fs (text.length + 1)
      else .ok ({ fs with p := fs.p + text.length }, true)
    else .ok (fs, false)

/-- `__argp_fmtstream_printf`. -/
def printf (k : ℕ) (fs : Fmtstream) (text : List UInt8) : Run (Fmtstream × Bool) :=
  printfLoop L k text k fs 150

/-- What `__argp_fmtstream_point` and the functions that set a margin begin with. -/
def updateToPoint (k : ℕ) (fs : Fmtstream) : Run Fmtstream :=
  if fs.pointOffs < fs.p then update L k fs else .ok fs

/-- `__argp_fmtstream_set_lmargin`. -/
def setLmargin (k : ℕ) (fs : Fmtstream) (lmargin : ℕ) : Run Fmtstream := do
  let fs ← updateToPoint L k fs
  .ok { fs with lmargin := lmargin }

/-- `__argp_fmtstream_set_rmargin`. -/
def setRmargin (k : ℕ) (fs : Fmtstream) (rmargin : ℕ) : Run Fmtstream := do
  let fs ← updateToPoint L k fs
  .ok { fs with rmargin := rmargin }

/-- `__argp_fmtstream_set_wmargin`. -/
def setWmargin (k : ℕ) (fs : Fmtstream) (wmargin : ℤ) : Run Fmtstream := do
  let fs ← updateToPoint L k fs
  .ok { fs with wmargin := wmargin }

/-- `__argp_fmtstream_free`, with what the stream has taken in the end. -/
def free (k : ℕ) (fs : Fmtstream) : Run (List UInt8) := do
  let fs ← update L k fs
  if 0 < fs.p then .ok (emit L fs (fs.mem.take fs.p)).out else .ok fs.out

/-! ### What a client does -/

/-- What a client puts out, and when it makes the stream update or flush its buffer. -/
inductive Output
  | write (text : ObjectText)
  | puts (text : ObjectText)
  | putc (c : UInt8)
  | printf (text : PrintedText)
  | ensure (amount : ℕ)
  | update

namespace Output

/-- What is written. -/
def text : Output → List UInt8
  | .write text => text
  | .puts text => text
  | .putc c => [c]
  | .printf text => text
  | .ensure _ => []
  | .update => []

/-- The call, where its caller does not look at the result. -/
def run (k : ℕ) (fs : Fmtstream) : Output → Run Fmtstream
  | .write text => Prod.fst <$> Help.write L k fs text
  | .puts text => Prod.fst <$> Help.puts L k fs text
  | .putc c => Prod.fst <$> Help.putc L k fs c
  | .printf text => Prod.fst <$> Help.printf L k fs text
  | .ensure amount => Prod.fst <$> Help.ensure L k fs amount
  | .update => Help.update L k fs

end Output

def runOutputs (k : ℕ) : Fmtstream → List Output → Run Fmtstream
  | fs, [] => .ok fs
  | fs, o :: os => do
    let fs ← o.run L k fs
    runOutputs k fs os

/-- All that the stream has taken when it is freed after the outputs. -/
def session (k : ℕ) (fs : Fmtstream) (os : List Output) : Run (List UInt8) := do
  let fs ← runOutputs L k fs os
  free L k fs

/-! ### The text in the buffer -/

variable {L} {fs fs' : Fmtstream} {buf n k : ℕ}

theorem length_textFrom (h : fs.p ≤ fs.mem.length) : (textFrom fs buf).length = fs.p - buf := by
  unfold textFrom
  rw [List.length_drop, List.length_take, Nat.min_eq_left h]

theorem drop_textFrom : (textFrom fs buf).drop n = textFrom fs (buf + n) := List.drop_drop

theorem take_textFrom (h : buf + n ≤ fs.p) :
    fs.mem.take (buf + n) = fs.mem.take buf ++ (textFrom fs buf).take n := by
  unfold textFrom
  rw [List.drop_take, List.take_take, Nat.min_eq_left (by omega), List.take_add]

theorem take_p (h : buf ≤ fs.p) : fs.mem.take fs.p = fs.mem.take buf ++ textFrom fs buf := by
  unfold textFrom
  calc fs.mem.take fs.p = (fs.mem.take fs.p).take buf ++ (fs.mem.take fs.p).drop buf :=
        (List.take_append_drop buf _).symm
    _ = fs.mem.take buf ++ (fs.mem.take fs.p).drop buf := by
        rw [List.take_take, Nat.min_eq_left h]

theorem drop_take_p : (fs.mem.drop buf).take (fs.p - buf) = textFrom fs buf :=
  List.drop_take.symm

/-- A text has no newline, or a first one. -/
theorem line_cases (text : List UInt8) :
    lineFeed ∉ text ∨ ∃ line rest, lineFeed ∉ line ∧ text = line ++ lineFeed :: rest := by
  by_cases h : lineFeed ∈ text
  · obtain ⟨line, rest, he, hline⟩ := List.eq_append_cons_of_mem h
    exact .inr ⟨line, rest, hline, he⟩
  · exact .inl h

theorem idxOf_lineFeed {line : List UInt8} (h : lineFeed ∉ line) (rest : List UInt8) :
    (line ++ lineFeed :: rest).idxOf? lineFeed = some line.length := by
  induction line with
  | nil => simp [List.idxOf?_cons]
  | cons c line ih =>
    rw [List.mem_cons, not_or] at h
    have hc : (c == lineFeed) = false := beq_false_of_ne (Ne.symm h.1)
    rw [List.cons_append, List.idxOf?_cons, hc, ih h.2]
    rfl

/-- Up to the newline. -/
def firstLine (text : List UInt8) : List UInt8 := text.takeWhile (· ≠ lineFeed)

theorem prefix_firstLine {text : List UInt8} : firstLine text <+: text := List.takeWhile_prefix _

theorem firstLine_of_not_mem {text : List UInt8} (h : lineFeed ∉ text) : firstLine text = text := by
  unfold firstLine
  rw [List.takeWhile_eq_self_iff]
  intro x hx
  exact decide_eq_true fun he => h (he ▸ hx)

theorem firstLine_newline {line : List UInt8} (h : lineFeed ∉ line) (rest : List UInt8) :
    firstLine (line ++ lineFeed :: rest) = line := by
  unfold firstLine
  rw [List.takeWhile_append_of_pos]
  · simp
  · intro x hx
    exact decide_eq_true fun he => h (he ▸ hx)

theorem firstLine_length {text : List UInt8} (h : lineFeed ∈ text) :
    (firstLine text).length < text.length ∧ text.idxOf? lineFeed = some (firstLine text).length := by
  obtain hnone | ⟨line, rest, hline, rfl⟩ := line_cases text
  · exact absurd h hnone
  · rw [firstLine_newline hline, idxOf_lineFeed hline, List.length_append, List.length_cons]
    exact ⟨by omega, rfl⟩

theorem scanLine_partLine (h : lineFeed ∉ textFrom fs buf) :
    scanLine L fs buf =
      if fs.pointCol + (fs.p - buf : ℕ) < fs.rmargin then
        .ok ({ fs with pointCol := fs.pointCol + (fs.p - buf : ℕ) }, none)
      else longLine L fs buf fs.p := by
  unfold scanLine
  rw [List.idxOf?_eq_none_iff.mpr h]

theorem scanLine_whole {line rest : List UInt8} (h : lineFeed ∉ line)
    (ht : textFrom fs buf = line ++ lineFeed :: rest) :
    scanLine L fs buf =
      if fs.pointCol + line.length < fs.rmargin then
        .ok ({ fs with pointCol := 0 }, some (buf + line.length + 1))
      else longLine L fs buf (buf + line.length) := by
  unfold scanLine
  rw [ht, idxOf_lineFeed h]

theorem emit_unfailing (hL : L.Unfailing) (fs : Fmtstream) (bytes : List UInt8) :
    emit L fs bytes = { fs with out := fs.out ++ bytes } := by
  unfold emit
  rw [hL.fwrite, List.take_length]

theorem updateLoop_end (h : fs.p ≤ buf) :
    updateLoop L k fs buf = .ok { fs with pointOffs := fs.p } := by
  unfold updateLoop
  rw [if_neg (by omega)]

theorem updateLoop_stop (h : buf < fs.p) (ht : turn L fs buf = .ok (fs', none)) :
    updateLoop L (k + 1) fs buf = .ok { fs' with pointOffs := fs'.p } := by
  unfold updateLoop
  rw [if_pos h, ht]
  rfl

theorem updateLoop_goOn (h : buf < fs.p) {buf' : ℕ} (ht : turn L fs buf = .ok (fs', some buf')) :
    updateLoop L (k + 1) fs buf = updateLoop L k fs' buf' := by
  rw [updateLoop, if_pos h, ht]
  rfl

end MuslBsd.Help
