import Mathlib.Algebra.Order.Ring.Nat
import MuslBsd.Support.Guarded
import MuslBsd.Manifest.Json

/-! `Reader` of `nvidia-scan`: checked reads of the bytes of a file, with a record of what is read. -/
namespace MuslBsd.Scan
open MuslBsd.Support
open MuslBsd.Manifest (Str str)

abbrev Bytes := List UInt8

/-- A part of the file that is read. -/
structure Access where
  offset : ℕ
  size : ℕ
  deriving DecidableEq, Repr

/-- Which relocation table. -/
inductive Kind
  | rela | rel | pltRela | pltRel
  deriving DecidableEq, Repr

/-- What a message says it is about. -/
inductive What
  | elfHeader
  | programHeaderTable
  | programHeader (index : ℕ)
  | programHeaderRange (index : ℕ)
  | dynamicSegment
  | dynamicEntry (index : ℕ)
  | hashTable
  | hashHeader
  | gnuHashTable
  | gnuHashHeader
  | gnuHashBuckets
  | gnuHashBucket
  | gnuHashChain
  | symtab
  | verneed
  | versionNeed (index : ℕ)
  | versionNeedAux (index aux : ℕ)
  | versionNeedLibrary
  | versionNeedName
  | dynamicSymbols
  | versym
  | symbolVersion
  | dynamicSymbol (index : ℕ)
  | dynamicSymbolName
  | table (kind : Kind)
  | relocation (kind : Kind) (index : ℕ)
  | neededName
  | runpath
  | soname
  deriving DecidableEq, Repr

/-- The texts of `ScanError`, with what is filled in. -/
inductive Message
  | outside (what : What) (offset size : ℕ)
  | unterminated (what : What)
  | tooLarge
  | notElf
  | notElf64
  | notLittleEndian
  | machine (machine : ℕ)
  | programHeaderSize
  | programHeaderCount
  | multipleDynamic
  | unmapped (address size : ℕ)
  | noDynamic
  | dynamicSize
  | dynamicUnterminated
  | noStringTable
  | stringOffset (what : What) (offset : ℕ)
  | invalid (what : What) (cause : Message)
  | symbolCount
  | gnuHashTable
  | gnuHashChain
  | versionNeedCount
  | versionNeedEntry
  | versionNeedAuxLink
  | versionNeedLink
  | syment
  | entrySize (kind : Kind)
  | tableSize (kind : Kind)
  | pltrel
  | relocationCount
  | cannotResolve
  | cannotResolveProvider
  | noExports
  deriving DecidableEq, Repr

/-- The texts of `ScanError` about provider aliases. -/
inductive AliasMessage
  | notExported (required provided : Str)
  | unknown (names : List Str)
  deriving DecidableEq

/-- What stops a run: a `ScanError` about a file or about the aliases, another exception of Python, or
nothing at all. -/
inductive Error
  | scan (path : Str) (message : Message)
  | aliases (message : AliasMessage)
  | struct
  | index
  | key
  | endless
  deriving DecidableEq

/-- A `ScanError` about a file. -/
def Error.IsScanError : Error → Prop
  | .scan _ _ => True
  | _ => False

abbrev ScanM (α : Type) : Type := Faulting Error Unit Access α

/-- How a run ends. -/
def value {α : Type} (m : ScanM α) : Except Error α := (m ()).1

/-- What a run reads. -/
def accesses {α : Type} (m : ScanM α) : List Access := (m ()).2.2

/-- `struct.unpack_from` for one format: its size, and the fields of that many bytes. -/
structure Format (α : Type) where
  size : ℕ
  fields : Bytes → α

/-- The little-endian number in `size` bytes from `offset` on. -/
def little (offset size : ℕ) (bytes : Bytes) : ℕ :=
  ((bytes.drop offset).take size).foldr (fun b n => b.toNat + 256 * n) 0

/-- `size` bytes of a little-endian number. -/
def bytesOf : ℕ → ℕ → Bytes
  | 0, _ => []
  | size + 1, n => UInt8.ofNat n :: bytesOf size (n / 256)

def u16 : Format ℕ := ⟨2, little 0 2⟩
def u32 : Format ℕ := ⟨4, little 0 4⟩

/-- A lead byte of UTF-8 with the number of bytes that follow and the range of the first of them. -/
def utf8Lead (b : ℕ) : Option (ℕ × ℕ × ℕ) :=
  if 0xC2 ≤ b ∧ b ≤ 0xDF then some (1, 0x80, 0xBF)
  else if b = 0xE0 then some (2, 0xA0, 0xBF)
  else if b = 0xED then some (2, 0x80, 0x9F)
  else if 0xE1 ≤ b ∧ b ≤ 0xEF then some (2, 0x80, 0xBF)
  else if b = 0xF0 then some (3, 0x90, 0xBF)
  else if 0xF1 ≤ b ∧ b ≤ 0xF3 then some (3, 0x80, 0xBF)
  else if b = 0xF4 then some (3, 0x80, 0x8F)
  else none

/-- The code point of a sequence of `k + 1` bytes with these continuation bytes. -/
def utf8Point (b k : ℕ) (rest : List ℕ) : ℕ :=
  rest.foldl (fun n c => n * 64 + c % 64) (b % 2 ^ (6 - k))

/-- `bytes.decode("utf-8", "surrogateescape")`; `skip` bytes have been decoded already. -/
def decode : ℕ → Bytes → Str
  | _, [] => []
  | skip + 1, _ :: bytes => decode skip bytes
  | 0, b :: bytes =>
    let b := b.toNat
    if b < 0x80 then b :: decode 0 bytes
    else
      match utf8Lead b with
      | none => (0xDC00 + b) :: decode 0 bytes
      | some (k, low, high) =>
        let rest := (bytes.take k).map UInt8.toNat
        if rest.length = k ∧ (∀ c ∈ rest.take 1, low ≤ c ∧ c ≤ high) ∧
            ∀ c ∈ rest, 0x80 ≤ c ∧ c ≤ 0xBF then
          utf8Point b k rest :: decode k bytes
        else (0xDC00 + b) :: decode 0 bytes

structure Reader where
  data : Bytes
  path : Str

namespace Reader

variable {α : Type} (r : Reader)

/-- `raise ScanError(f"{self.path}: ..")`. -/
def raise (message : Message) : ScanM α := Faulting.fault (.scan r.path message)

/-- `if c: raise ScanError(..)`. -/
def reject (c : Prop) [Decidable c] (message : Message) : ScanM Unit :=
  if c then r.raise message else pure ()

/-- `Reader.range`. -/
def range (offset size : ℕ) (what : What) : ScanM Unit :=
  r.reject (r.data.length < offset ∨ r.data.length - offset < size) (.outside what offset size)

/-- `data[offset : offset + size]`. -/
def slice (offset size : ℕ) : ScanM Bytes := do
  Faulting.emit ⟨offset, size⟩
  pure ((r.data.drop offset).take size)

/-- `data[offset]`. -/
def byte (offset : ℕ) : ScanM ℕ := do
  Faulting.emit ⟨offset, 1⟩
  match r.data[offset]? with
  | some b => pure b.toNat
  | none => Faulting.fault .index

/-- `struct.unpack_from`. -/
def unpackFrom (format : Format α) (offset : ℕ) : ScanM α := do
  Faulting.emit ⟨offset, format.size⟩
  if r.data.length < offset + format.size then Faulting.fault .struct
  else pure (format.fields ((r.data.drop offset).take format.size))

/-- `Reader.unpack`. -/
def unpack (format : Format α) (offset : ℕ) (what : What) : ScanM α := do
  r.range offset format.size what
  r.unpackFrom format offset

/-- `Reader.c_string`. -/
def cString (offset limit : ℕ) (what : What) : ScanM Str := do
  r.range offset 0 what
  let stop := min r.data.length (offset + limit)
  let window ← r.slice offset (stop - offset)
  match window.findIdx? (· = 0) with
  | none => r.raise (.unterminated what)
  | some nul =>
    let text ← r.slice offset nul
    pure (decode 0 text)

end Reader

/-! ### How runs end -/

section Values

variable {α β : Type}

@[simp] theorem value_pure (a : α) : value (pure a : ScanM α) = .ok a := rfl

@[simp] theorem value_fault (e : Error) : value (Faulting.fault e : ScanM α) = .error e := rfl

theorem value_bind (m : ScanM α) (f : α → ScanM β) :
    value (m >>= f) = (value m).bind fun a => value (f a) := by
  cases hr : m () with
  | mk r rest =>
    obtain ⟨⟨⟩, t⟩ := rest
    have hm : value m = r := by rw [value, hr]
    rw [hm]
    cases r with
    | error e =>
      rw [value, Faulting.bind_error hr]
      rfl
    | ok a =>
      rw [value, Faulting.bind_ok hr]
      rfl

@[simp] theorem bind_eq_ok {m : ScanM α} {f : α → ScanM β} {b : β} :
    value (m >>= f) = .ok b ↔ ∃ a, value m = .ok a ∧ value (f a) = .ok b := by
  rw [value_bind]
  cases value m with
  | error e => simp [Except.bind]
  | ok a => simp [Except.bind]

@[simp] theorem raise_ne_ok {r : Reader} {message : Message} {a : α} :
    value (r.raise message) = .ok a ↔ False := by
  simp [Reader.raise]

@[simp] theorem reject_eq_ok {r : Reader} {c : Prop} [Decidable c] {message : Message} {u : Unit} :
    value (r.reject c message) = .ok u ↔ ¬c := by
  unfold Reader.reject
  split <;> simp_all

/-- A read succeeds if and only if it stays inside the file. -/
theorem unpack_eq_ok {r : Reader} {format : Format α} {offset : ℕ} {what : What} {a : α} :
    value (r.unpack format offset what) = .ok a ↔
      offset + format.size ≤ r.data.length ∧
        a = format.fields ((r.data.drop offset).take format.size) := by
  have hemit : value (Faulting.emit ⟨offset, format.size⟩ : ScanM Unit) = .ok () := rfl
  simp only [Reader.unpack, Reader.range, Reader.unpackFrom, bind_eq_ok, reject_eq_ok, hemit]
  constructor
  · rintro ⟨_, hrange, _, _, hread⟩
    split at hread
    · cases hread
    · exact ⟨by omega, (Except.ok.inj hread).symm⟩
  · rintro ⟨hsize, rfl⟩
    refine ⟨(), by omega, (), trivial, ?_⟩
    rw [if_neg (by omega)]
    rfl

end Values

end MuslBsd.Scan
