import MuslBsd.Scan.Reader
import Mathlib.Data.List.Dedup
import Mathlib.Data.List.Lex
import Mathlib.Data.List.Sort

/-! `ELFFile` of `nvidia-scan`: the headers, the dynamic table, the symbols with their versions, the
relocations, and the report that is made of them. -/
namespace MuslBsd.Scan
open MuslBsd.Support
open MuslBsd.Manifest (Str str)

def MAX_FILE_SIZE : ℕ := 512 * 1024 * 1024
def MAX_TABLE_ENTRIES : ℕ := 16 * 1024 * 1024

def PT_LOAD : ℕ := 1
def PT_DYNAMIC : ℕ := 2
def PT_TLS : ℕ := 7

def DT_NULL : ℕ := 0
def DT_NEEDED : ℕ := 1
def DT_PLTRELSZ : ℕ := 2
def DT_HASH : ℕ := 4
def DT_STRTAB : ℕ := 5
def DT_SYMTAB : ℕ := 6
def DT_RELA : ℕ := 7
def DT_RELASZ : ℕ := 8
def DT_RELAENT : ℕ := 9
def DT_STRSZ : ℕ := 10
def DT_SYMENT : ℕ := 11
def DT_SONAME : ℕ := 14
def DT_RPATH : ℕ := 15
def DT_REL : ℕ := 17
def DT_RELSZ : ℕ := 18
def DT_RELENT : ℕ := 19
def DT_PLTREL : ℕ := 20
def DT_TEXTREL : ℕ := 22
def DT_JMPREL : ℕ := 23
def DT_RUNPATH : ℕ := 29
def DT_FLAGS : ℕ := 30
def DT_GNU_HASH : ℕ := 0x6FFFFEF5
def DT_VERSYM : ℕ := 0x6FFFFFF0
def DT_RELACOUNT : ℕ := 0x6FFFFFF9
def DT_FLAGS_1 : ℕ := 0x6FFFFFFB
def DT_VERNEED : ℕ := 0x6FFFFFFE
def DT_VERNEEDNUM : ℕ := 0x6FFFFFFF

def SHN_UNDEF : ℕ := 0
def STB_LOCAL : ℕ := 0
def STB_GLOBAL : ℕ := 1
def STB_WEAK : ℕ := 2
def STT_TLS : ℕ := 6
def STT_GNU_IFUNC : ℕ := 10
def STV_INTERNAL : ℕ := 1
def STV_HIDDEN : ℕ := 2

def R_X86_64_NAMES : List (ℕ × String) :=
  [(0, "R_X86_64_NONE"), (1, "R_X86_64_64"), (2, "R_X86_64_PC32"),
   (3, "R_X86_64_GOT32"), (4, "R_X86_64_PLT32"), (5, "R_X86_64_COPY"),
   (6, "R_X86_64_GLOB_DAT"), (7, "R_X86_64_JUMP_SLOT"), (8, "R_X86_64_RELATIVE"),
   (9, "R_X86_64_GOTPCREL"), (10, "R_X86_64_32"), (11, "R_X86_64_32S"),
   (12, "R_X86_64_16"), (13, "R_X86_64_PC16"), (14, "R_X86_64_8"),
   (15, "R_X86_64_PC8"), (16, "R_X86_64_DTPMOD64"), (17, "R_X86_64_DTPOFF64"),
   (18, "R_X86_64_TPOFF64"), (19, "R_X86_64_TLSGD"), (20, "R_X86_64_TLSLD"),
   (21, "R_X86_64_DTPOFF32"), (22, "R_X86_64_GOTTPOFF"), (23, "R_X86_64_TPOFF32"),
   (24, "R_X86_64_PC64"), (25, "R_X86_64_GOTOFF64"), (26, "R_X86_64_GOTPC32"),
   (27, "R_X86_64_GOT64"), (28, "R_X86_64_GOTPCREL64"), (29, "R_X86_64_GOTPC64"),
   (30, "R_X86_64_GOTPLT64"), (31, "R_X86_64_PLTOFF64"), (32, "R_X86_64_SIZE32"),
   (33, "R_X86_64_SIZE64"), (34, "R_X86_64_GOTPC32_TLSDESC"), (35, "R_X86_64_TLSDESC_CALL"),
   (36, "R_X86_64_TLSDESC"), (37, "R_X86_64_IRELATIVE"), (41, "R_X86_64_GOTPCRELX"),
   (42, "R_X86_64_REX_GOTPCRELX")]

def TLS_RELOCATION_TYPES : List ℕ := [16, 17, 18, 19, 20, 21, 22, 23, 34, 35, 36]

def GLIBC_SONAMES : List Str :=
  ["libc.so.6", "libdl.so.2", "libm.so.6", "libpthread.so.0", "libresolv.so.2", "librt.so.1",
    "libutil.so.1"].map str

def BINDING_NAMES : List (ℕ × String) :=
  [(STB_LOCAL, "local"), (STB_GLOBAL, "global"), (STB_WEAK, "weak")]

/-! ### Python's dicts and sets -/

section Collections

variable {κ ν : Type} [DecidableEq κ]

/-- `d[k] = v`: a new key goes to the end. -/
def dictSet (d : List (κ × ν)) (k : κ) (v : ν) : List (κ × ν) :=
  if k ∈ d.map Prod.fst then d.map fun e => if e.1 = k then (k, v) else e else d ++ [(k, v)]

/-- `d[k]`. -/
def dictItem (d : List (κ × ν)) (k : κ) : ScanM ν :=
  match d.lookup k with
  | some v => pure v
  | none => Faulting.fault .key

/-- `d[k] = d.get(k, 0) + n`. -/
def dictAdd (d : List (κ × ℕ)) (k : κ) (n : ℕ) : List (κ × ℕ) :=
  dictSet d k ((d.lookup k).getD 0 + n)

/-- `sorted(set(xs), key=key)`. The order of the set itself is that of the first occurrences; it
matters only where two members have one key. -/
def sortedSet {α : Type} [DecidableEq α] (key : α → List Str) (xs : List α) : List α :=
  xs.reverse.dedup.reverse.insertionSort fun a b => key a ≤ key b

end Collections

/-! ### Lists sorted by a key -/

section Sorted

variable {α : Type} {key : α → List Str}

theorem mem_sortedSet [DecidableEq α] {xs : List α} {a : α} : a ∈ sortedSet key xs ↔ a ∈ xs := by
  rw [sortedSet, List.mem_insertionSort, List.mem_reverse, List.mem_dedup, List.mem_reverse]

/-- Two lists that are strictly sorted by a key are equal if they have the same members. -/
theorem eq_of_sorted {xs ys : List α}
    (hx : xs.Pairwise fun a b => key a < key b) (hy : ys.Pairwise fun a b => key a < key b)
    (h : ∀ a, a ∈ xs ↔ a ∈ ys) : xs = ys := by
  have hirrefl : Std.Irrefl fun a b : α => key a < key b := ⟨fun a => lt_irrefl (key a)⟩
  have hanti : Std.Antisymm fun a b : α => key a < key b :=
    ⟨fun a b hab hba => absurd hab (lt_asymm hba)⟩
  exact hx.eq_of_mem_iff hy h

theorem pairwise_lt (hkey : Function.Injective key) {xs : List α}
    (hx : xs.Pairwise fun a b => key a ≤ key b) (hnd : xs.Nodup) :
    xs.Pairwise fun a b => key a < key b := by
  refine (hx.and hnd).imp ?_
  intro a b hab
  apply lt_of_le_of_ne hab.1
  intro he
  exact hab.2 (hkey he)

theorem insertionSort_sorted (key : α → List Str) (xs : List α) :
    (xs.insertionSort fun a b => key a ≤ key b).Pairwise fun a b => key a ≤ key b := by
  have htotal : Std.Total fun a b : α => key a ≤ key b := ⟨fun a b => le_total (key a) (key b)⟩
  have htrans : IsTrans α fun a b : α => key a ≤ key b := ⟨fun _ _ _ => le_trans⟩
  exact List.pairwise_insertionSort _ xs

theorem sortedSet_sorted [DecidableEq α] (hkey : Function.Injective key) (xs : List α) :
    (sortedSet key xs).Pairwise fun a b => key a < key b := by
  apply pairwise_lt hkey (insertionSort_sorted key _)
  apply (List.perm_insertionSort _ _).nodup_iff.mpr
  rw [List.nodup_reverse]
  exact List.nodup_dedup _

end Sorted

/-- `str(n)`. -/
def decimal (n : ℕ) : Str := (Nat.toDigits 10 n).map Char.toNat

def typeName (type : ℕ) : Str :=
  match R_X86_64_NAMES.lookup type with
  | some name => str name
  | none => str "R_X86_64_" ++ decimal type

def bindingName (binding : ℕ) : Str :=
  match BINDING_NAMES.lookup binding with
  | some name => str name
  | none => str "binding-" ++ decimal binding

/-! ### Headers -/

structure Header where
  etype : ℕ
  machine : ℕ
  phoff : ℕ
  phentsize : ℕ
  phnum : ℕ

/-- `"<16sHHIQQQIHHHHHH"`. -/
def headerFormat : Format Header where
  size := 64
  fields b := ⟨little 16 2 b, little 18 2 b, little 32 8 b, little 54 2 b, little 56 2 b⟩

structure ProgramHeader where
  type : ℕ
  offset : ℕ
  vaddr : ℕ
  filesz : ℕ
  memsz : ℕ
  align : ℕ

/-- `"<IIQQQQQQ"`. -/
def programHeaderFormat : Format ProgramHeader where
  size := 56
  fields b :=
    ⟨little 0 4 b, little 8 8 b, little 16 8 b, little 32 8 b, little 40 8 b, little 48 8 b⟩

structure Segment where
  vaddr : ℕ
  memsz : ℕ
  offset : ℕ
  filesz : ℕ
  deriving DecidableEq

/-- What `_parse_program_headers` collects; `tlsAlign` is what `getattr` finds. -/
structure Segments where
  load : List Segment
  dynamic : Option (ℕ × ℕ)
  tls : Option Segment
  tlsAlign : ℕ

/-- An `ELFFile` after `__init__`. -/
structure ElfFile where
  reader : Reader
  etype : ℕ
  load : List Segment
  tls : Option Segment
  tlsAlign : ℕ
  dynamic : List (ℕ × ℕ)
  neededOffsets : List ℕ
  strtab : ℕ
  strsz : ℕ

section Parse

variable (r : Reader)

/-- `_parse_header`. -/
def parseHeader : ScanM Header := do
  if r.data.length < 64 then
    r.raise .notElf
  else
    let magic ← r.slice 0 4
    r.reject (magic ≠ [0x7F, 0x45, 0x4C, 0x46]) .notElf
    let elfClass ← r.byte 4
    r.reject (elfClass ≠ 2) .notElf64
    let elfData ← r.byte 5
    r.reject (elfData ≠ 1) .notLittleEndian
    let h ← r.unpack headerFormat 0 .elfHeader
    r.reject (h.machine ≠ 62) (.machine h.machine)
    r.reject (h.phentsize < 56) .programHeaderSize
    r.reject (MAX_TABLE_ENTRIES < h.phnum) .programHeaderCount
    r.range h.phoff (h.phentsize * h.phnum) .programHeaderTable
    pure h

/-- One round of the loop of `_parse_program_headers`. -/
def parseProgramHeader (h : Header) (index : ℕ) (s : Segments) : ScanM (ForInStep Segments) := do
  let p ← r.unpack programHeaderFormat (h.phoff + index * h.phentsize) (.programHeader index)
  r.range p.offset p.filesz (.programHeaderRange index)
  let segment : Segment := ⟨p.vaddr, p.memsz, p.offset, p.filesz⟩
  if p.type = PT_LOAD then
    pure (.yield { s with load := s.load ++ [segment] })
  else if p.type = PT_DYNAMIC then
    r.reject (s.dynamic ≠ none) .multipleDynamic
    pure (.yield { s with dynamic := some (p.offset, p.filesz) })
  else if p.type = PT_TLS then
    pure (.yield { s with tls := some segment, tlsAlign := p.align })
  else
    pure (.yield s)

/-- `_parse_program_headers`. -/
def parseProgramHeaders (h : Header) : ScanM Segments :=
  Faulting.forRange (parseProgramHeader r h) h.phnum 0 ⟨[], none, none, 0⟩

/-- Where the bytes of an address are in the file. -/
def mapAddress (load : List Segment) (address size : ℕ) : Option ℕ :=
  (load.find? fun s => s.vaddr ≤ address ∧ address - s.vaddr ≤ s.filesz ∧
    size ≤ s.filesz - (address - s.vaddr)).map fun s => s.offset + (address - s.vaddr)

/-- `_vaddr_offset`. -/
def vaddrOffset (load : List Segment) (address size : ℕ) : ScanM ℕ :=
  match mapAddress load address size with
  | some offset => pure offset
  | none => r.raise (.unmapped address size)

/-- `"<QQ"` of a dynamic entry. -/
def dynamicFormat : Format (ℕ × ℕ) where
  size := 16
  fields b := (little 0 8 b, little 8 8 b)

/-- `dynamic` and `needed_offsets`, and whether `DT_NULL` has been seen. -/
structure DynamicTable where
  dynamic : List (ℕ × ℕ)
  needed : List ℕ
  terminated : Bool

/-- One round of the loop of `_parse_dynamic`. -/
def parseDynamicEntry (offset index : ℕ) (d : DynamicTable) :
    ScanM (ForInStep DynamicTable) := do
  let (tag, val) ← r.unpack dynamicFormat (offset + index * 16) (.dynamicEntry index)
  if tag = DT_NULL then
    pure (.done { d with terminated := true })
  else if tag = DT_NEEDED then
    pure (.yield { d with needed := d.needed ++ [val] })
  else if tag ∉ d.dynamic.map Prod.fst then
    pure (.yield { d with dynamic := dictSet d.dynamic tag val })
  else
    pure (.yield d)

/-- `_parse_dynamic`, and with it the whole `ELFFile`. -/
def parseDynamic (h : Header) (s : Segments) : ScanM ElfFile := do
  match s.dynamic with
  | none => r.raise .noDynamic
  | some (offset, size) =>
    r.reject (size % 16 ≠ 0) .dynamicSize
    r.range offset size .dynamicSegment
    let d ← Faulting.forRange (parseDynamicEntry r offset) (size / 16) 0 ⟨[], [], false⟩
    r.reject (d.terminated = false) .dynamicUnterminated
    r.reject (DT_STRTAB ∉ d.dynamic.map Prod.fst ∨ DT_STRSZ ∉ d.dynamic.map Prod.fst) .noStringTable
    let address ← dictItem d.dynamic DT_STRTAB
    let strsz ← dictItem d.dynamic DT_STRSZ
    let strtab ← vaddrOffset r s.load address strsz
    pure
      { reader := r, etype := h.etype, load := s.load, tls := s.tls, tlsAlign := s.tlsAlign,
        dynamic := d.dynamic, neededOffsets := d.needed, strtab := strtab, strsz := strsz }

/-- `ELFFile(path)`, for a file with these bytes. -/
def elfFile (path : Str) (data : Bytes) : ScanM ElfFile := do
  let r : Reader := ⟨data, path⟩
  r.reject (MAX_FILE_SIZE < data.length) .tooLarge
  let h ← parseHeader r
  let s ← parseProgramHeaders r h
  parseDynamic r h s

end Parse

namespace ElfFile

variable (elf : ElfFile)

/-- `self.dynamic.get(tag)`. -/
def get? (tag : ℕ) : Option ℕ := elf.dynamic.lookup tag

/-- `self.dynamic.get(tag, default)`. -/
def getD (tag default : ℕ) : ℕ := (elf.get? tag).getD default

/-- `_string`. -/
def string (offset : ℕ) (what : What) : ScanM Str := do
  elf.reader.reject (elf.strsz ≤ offset) (.stringOffset what offset)
  elf.reader.cString (elf.strtab + offset) (elf.strsz - offset) what

/-- `_address_range`. -/
def addressRange (address size : ℕ) (what : What) : ScanM ℕ :=
  match mapAddress elf.load address size with
  | some offset => pure offset
  | none => elf.reader.raise (.invalid what (.unmapped address size))

/-! ### Symbols -/

/-- `"<IIII"` of a GNU hash table. -/
structure GnuHash where
  nbuckets : ℕ
  symoffset : ℕ
  bloomSize : ℕ

def gnuHashFormat : Format GnuHash where
  size := 16
  fields b := ⟨little 0 4 b, little 4 4 b, little 8 4 b⟩

/-- `"<II"` of a hash table. -/
def hashFormat : Format (ℕ × ℕ) where
  size := 8
  fields b := (little 0 4 b, little 4 4 b)

/-- The `while True` loop of `_symbol_count` along one chain. -/
def gnuChain (chains symoffset : ℕ) : ℕ → ℕ → ℤ → ScanM ℤ
  | 0, _, _ => Faulting.fault .endless
  | k + 1, index, highest => do
    let word ← elf.reader.unpack u32 (chains + (index - symoffset) * 4) .gnuHashChain
    let highest := max highest index
    if word % 2 = 1 then
      pure highest
    else
      elf.reader.reject (MAX_TABLE_ENTRIES < index + 1 - symoffset) .gnuHashChain
      gnuChain chains symoffset k (index + 1) highest

/-- One round of the loop over the buckets. -/
def gnuBucket (buckets chains symoffset index : ℕ) (highest : ℤ) : ScanM (ForInStep ℤ) := do
  let bucket ← elf.reader.unpack u32 (buckets + index * 4) .gnuHashBucket
  if bucket < symoffset then
    pure (.yield highest)
  else
    -- every round reads four bytes further on, so the file bounds the rounds
    let highest ← elf.gnuChain chains symoffset (elf.reader.data.length + 1) bucket highest
    pure (.yield highest)

/-- `_symbol_count` with `DT_GNU_HASH`. -/
def gnuSymbolCount (address : ℕ) : ScanM ℕ := do
  let offset ← elf.addressRange address 16 .gnuHashTable
  let h ← elf.reader.unpack gnuHashFormat offset .gnuHashHeader
  elf.reader.reject (MAX_TABLE_ENTRIES < h.nbuckets ∨ MAX_TABLE_ENTRIES < h.bloomSize ∨
    MAX_TABLE_ENTRIES < h.symoffset) .gnuHashTable
  let buckets := offset + 16 + h.bloomSize * 8
  elf.reader.range buckets (h.nbuckets * 4) .gnuHashBuckets
  let chains := buckets + h.nbuckets * 4
  let highest ← Faulting.forRange (elf.gnuBucket buckets chains h.symoffset) h.nbuckets 0
    ((h.symoffset : ℤ) - 1)
  pure (highest + 1).toNat

/-- `_symbol_count`. -/
def symbolCount : ScanM ℕ := do
  match elf.get? DT_HASH with
  | some address =>
    let offset ← elf.addressRange address 8 .hashTable
    let (_, nchain) ← elf.reader.unpack hashFormat offset .hashHeader
    elf.reader.reject (MAX_TABLE_ENTRIES < nchain) .symbolCount
    pure nchain
  | none =>
    match elf.get? DT_GNU_HASH with
    | some address => elf.gnuSymbolCount address
    | none =>
      let syment := elf.getD DT_SYMENT 24
      match elf.get? DT_SYMTAB with
      | none => pure 0
      | some symtab =>
        if syment < 24 then
          pure 0
        else
          let offset ← elf.addressRange symtab syment .symtab
          if elf.strtab ≤ offset then
            pure 0
          else
            let count := (elf.strtab - offset) / syment
            elf.reader.reject (MAX_TABLE_ENTRIES < count) .symbolCount
            pure count

structure Version where
  version : Str
  library : Str
  flags : ℕ
  deriving DecidableEq

/-- `"<HHIII"` of a version need. -/
structure VersionNeed where
  version : ℕ
  auxCount : ℕ
  fileOffset : ℕ
  auxOffset : ℕ
  nextOffset : ℕ

def versionNeedFormat : Format VersionNeed where
  size := 16
  fields b := ⟨little 0 2 b, little 2 2 b, little 4 4 b, little 8 4 b, little 12 4 b⟩

/-- `"<IHHII"` of an auxiliary entry. -/
structure VersionNeedAux where
  flags : ℕ
  other : ℕ
  nameOffset : ℕ
  nextAux : ℕ

def versionNeedAuxFormat : Format VersionNeedAux where
  size := 16
  fields b := ⟨little 4 2 b, little 6 2 b, little 8 4 b, little 12 4 b⟩

/-- One round of the inner loop of `_version_requirements`: where it reads, and `result`. -/
def versionAux (need : ℕ) (library : Str) (index : ℕ) (s : ℕ × List (ℕ × Version)) :
    ScanM (ForInStep (ℕ × List (ℕ × Version))) := do
  let (aux, result) := s
  let a ← elf.reader.unpack versionNeedAuxFormat aux (.versionNeedAux need index)
  let version ← elf.string a.nameOffset .versionNeedName
  let result := dictSet result a.other ⟨version, library, a.flags⟩
  if a.nextAux = 0 then
    pure (.done (aux, result))
  else
    elf.reader.reject (a.nextAux < 16) .versionNeedAuxLink
    pure (.yield (aux + a.nextAux, result))

/-- One round of the outer loop. -/
def versionNeed (index : ℕ) (s : ℕ × List (ℕ × Version)) :
    ScanM (ForInStep (ℕ × List (ℕ × Version))) := do
  let (current, result) := s
  let n ← elf.reader.unpack versionNeedFormat current (.versionNeed index)
  elf.reader.reject (n.version = 0 ∨ n.auxCount = 0) .versionNeedEntry
  let library ← elf.string n.fileOffset .versionNeedLibrary
  let (_, result) ← Faulting.forRange (elf.versionAux index library) n.auxCount 0
    (current + n.auxOffset, result)
  if n.nextOffset = 0 then
    pure (.done (current, result))
  else
    elf.reader.reject (n.nextOffset < 16) .versionNeedLink
    pure (.yield (current + n.nextOffset, result))

/-- `_version_requirements`. -/
def versionRequirements : ScanM (List (ℕ × Version)) := do
  match elf.get? DT_VERNEED with
  | none => pure []
  | some address =>
    let count := elf.getD DT_VERNEEDNUM 0
    elf.reader.reject (MAX_TABLE_ENTRIES < count) .versionNeedCount
    let current ← elf.addressRange address 16 .verneed
    let (_, result) ← Faulting.forRange elf.versionNeed count 0 (current, [])
    pure result

/-- An entry of the list that `_symbols` makes. -/
structure Symbol where
  index : ℕ
  name : Str
  bind : ℕ
  type : ℕ
  other : ℕ
  shndx : ℕ
  value : ℕ
  size : ℕ
  versionIndex : ℕ
  version : Option Version
  hidden : Bool
  deriving DecidableEq

/-- `"<IBBHQQ"` of a symbol. -/
structure SymbolEntry where
  nameOffset : ℕ
  info : ℕ
  other : ℕ
  shndx : ℕ
  value : ℕ
  size : ℕ

def symbolFormat : Format SymbolEntry where
  size := 24
  fields b :=
    ⟨little 0 4 b, little 4 1 b, little 5 1 b, little 6 2 b, little 8 8 b, little 16 8 b⟩

/-- `versions[index]`. -/
def versionAt (versions : List ℕ) (index : ℕ) : ScanM ℕ :=
  match versions[index]? with
  | some v => pure v
  | none => Faulting.fault .index

/-- One round of the loop of `_symbols`. -/
def symbol (offset syment : ℕ) (versions : List ℕ) (requirements : List (ℕ × Version))
    (index : ℕ) : ScanM Symbol := do
  let e ← elf.reader.unpack symbolFormat (offset + index * syment) (.dynamicSymbol index)
  let name ← (if e.nameOffset ≠ 0 then elf.string e.nameOffset .dynamicSymbolName else pure [])
  let v ← (if versions ≠ [] then versionAt versions index else pure 0)
  pure
    { index := index, name := name, bind := e.info / 16, type := e.info % 16, other := e.other,
      shndx := e.shndx, value := e.value, size := e.size,
      versionIndex := v % 2 ^ 15
      version := if versions ≠ [] then requirements.lookup (v % 2 ^ 15) else none
      hidden := v / 2 ^ 15 % 2 = 1 }

/-- The word of `DT_VERSYM` for the symbol `index`. -/
def versionWord (offset index : ℕ) : ScanM ℕ :=
  elf.reader.unpack u16 (offset + index * 2) .symbolVersion

/-- `_symbols`, with `self.version_requirements`. -/
def symbols : ScanM (List Symbol × List (ℕ × Version)) := do
  match elf.get? DT_SYMTAB with
  | none => pure ([], [])
  | some address =>
    let syment := elf.getD DT_SYMENT 24
    elf.reader.reject (syment < 24) .syment
    let count ← elf.symbolCount
    if count = 0 then
      pure ([], [])
    else
      let offset ← elf.addressRange address (count * syment) .dynamicSymbols
      let versions ← (match elf.get? DT_VERSYM with
        | none => pure []
        | some address => do
          let offset ← elf.addressRange address (count * 2) .versym
          Faulting.mapRange (elf.versionWord offset) count 0)
      let requirements ← elf.versionRequirements
      let symbols ← Faulting.mapRange (elf.symbol offset syment versions requirements) count 0
      pure (symbols, requirements)

/-! ### Relocations -/

structure RelocationTable where
  address : ℕ
  size : ℕ
  entrySize : ℕ
  kind : Kind
  deriving DecidableEq

/-- `add_table`. -/
def addTable (tables : List RelocationTable) (address size : Option ℕ) (entrySize : ℕ)
    (kind : Kind) : ScanM (List RelocationTable) :=
  match address, size with
  | some address, some size => do
    elf.reader.reject (entrySize = 0) (.entrySize kind)
    elf.reader.reject (size % entrySize ≠ 0) (.tableSize kind)
    pure (tables ++ [⟨address, size, entrySize, kind⟩])
  | _, _ => pure tables

/-- The entry size and the kind of the table at `DT_JMPREL`. -/
def pltKind : ScanM (ℕ × Kind) :=
  match elf.get? DT_PLTREL with
  | some plt =>
    if plt = DT_RELA then pure (elf.getD DT_RELAENT 24, .pltRela)
    else if plt = DT_REL then pure (elf.getD DT_RELENT 16, .pltRel)
    else elf.reader.raise .pltrel
  | none => elf.reader.raise .pltrel

/-- `tables` of `_relocations`. -/
def relocationTables : ScanM (List RelocationTable) := do
  let tables ← elf.addTable [] (elf.get? DT_RELA) (elf.get? DT_RELASZ) (elf.getD DT_RELAENT 24) .rela
  let tables ← elf.addTable tables (elf.get? DT_REL) (elf.get? DT_RELSZ) (elf.getD DT_RELENT 16) .rel
  match elf.get? DT_JMPREL with
  | none => pure tables
  | some address => do
    let (entrySize, kind) ← elf.pltKind
    elf.addTable tables (some address) (elf.get? DT_PLTRELSZ) entrySize kind

/-- The record of a relocation; `symbol` is there if the symbol has a name. -/
structure Relocation where
  type : Str
  offset : ℕ
  addend : ℤ
  symbolIndex : ℕ
  symbol : Option Str
  deriving DecidableEq

/-- `"<QQq"`, and `"<QQ"` with no addend. -/
structure RelocationEntry where
  offset : ℕ
  info : ℕ
  addend : ℤ

def relaFormat : Format RelocationEntry where
  size := 24
  fields b := ⟨little 0 8 b, little 8 8 b, (little 16 8 b : ℤ).bmod (2 ^ 64)⟩

def relFormat : Format RelocationEntry where
  size := 16
  fields b := ⟨little 0 8 b, little 8 8 b, 0⟩

/-- `kind.endswith("RELA")`. -/
def entryFormat : Kind → Format RelocationEntry
  | .rela | .pltRela => relaFormat
  | .rel | .pltRel => relFormat

/-- What `_relocations` has collected. -/
structure Relocations where
  typeCounts : List (Str × ℕ)
  tls : List Relocation
  irelative : List Relocation

/-- `symbols[symbol_index] if symbol_index < len(symbols) else None`. -/
def symbolAt (symbols : List Symbol) (index : ℕ) : ScanM (Option Symbol) :=
  if index < symbols.length then
    match symbols[index]? with
    | some s => pure (some s)
    | none => Faulting.fault .index
  else
    pure none

/-- One round of the inner loop of `_relocations`. -/
def relocation (symbols : List Symbol) (offset : ℕ) (t : RelocationTable) (index : ℕ)
    (a : Relocations) : ScanM (ForInStep Relocations) := do
  let e ← elf.reader.unpack (entryFormat t.kind) (offset + index * t.entrySize)
    (.relocation t.kind index)
  let type := e.info % 2 ^ 32
  let symbolIndex := e.info / 2 ^ 32
  let symbol ← symbolAt symbols symbolIndex
  let name := (symbol.map Symbol.name).getD []
  let record : Relocation :=
    ⟨typeName type, e.offset, e.addend, symbolIndex, if name ≠ [] then some name else none⟩
  pure (.yield
    { typeCounts := dictAdd a.typeCounts (typeName type) 1
      tls := if type ∈ TLS_RELOCATION_TYPES then a.tls ++ [record] else a.tls
      irelative := if type = 37 then a.irelative ++ [record] else a.irelative })

/-- The outer loop of `_relocations`, with the tables seen and the number of entries so far. -/
def relocateTables (symbols : List Symbol) :
    List RelocationTable → List (ℕ × ℕ × ℕ) → ℕ → Relocations → ScanM Relocations
  | [], _, _, a => pure a
  | t :: tables, seen, total, a => do
    let key := (t.address, t.size, t.entrySize)
    if key ∈ seen then
      relocateTables symbols tables seen total a
    else
      let count := t.size / t.entrySize
      elf.reader.reject (MAX_TABLE_ENTRIES < total + count) .relocationCount
      let offset ← elf.addressRange t.address t.size (.table t.kind)
      let a ← Faulting.forRange (elf.relocation symbols offset t) count 0 a
      relocateTables symbols tables (key :: seen) (total + count) a

/-- `_relocations`. -/
def relocations (symbols : List Symbol) : ScanM Relocations := do
  let tables ← elf.relocationTables
  elf.relocateTables symbols tables [] 0 ⟨[], [], []⟩

end ElfFile

/-! ### The report -/

structure UndefinedSymbol where
  name : Str
  version : Option Str
  library : Option Str
  binding : Str
  hidden : Bool
  deriving DecidableEq

structure IfuncSymbol where
  name : Str
  version : Option Str
  defined : Bool
  deriving DecidableEq

/-- An item of `needed`. -/
structure Needed where
  name : Str
  resolved : Option Str
  deriving DecidableEq

structure TlsReport where
  programHeader : Bool
  memsz : ℕ
  filesz : ℕ
  align : ℕ
  relocations : List ElfFile.Relocation
  deriving DecidableEq

structure DynamicReport where
  textrel : Bool
  flags : ℕ
  flags1 : ℕ
  relaCount : ℕ
  deriving DecidableEq

/-- What `report` returns; of `elf` only the type is not fixed. -/
structure Report where
  path : Str
  etype : ℕ
  soname : Option Str
  runpath : List Str
  needed : List Needed
  requiredGlibcSonames : List Str
  glibcVersions : List Str
  undefinedSymbols : List UndefinedSymbol
  ifuncSymbols : List IfuncSymbol
  irelativeRelocations : List ElfFile.Relocation
  tls : TlsReport
  relocationTypes : List (Str × ℕ)
  dynamic : DynamicReport
  deriving DecidableEq

/-- The order of `sorted` on strings. -/
def strKey (s : Str) : List Str := [s]

namespace ElfFile

variable (elf : ElfFile)

/-- The tuple of an undefined symbol. -/
structure UndefinedKey where
  name : Str
  version : Option Str
  library : Option Str
  bind : ℕ
  hidden : Bool
  deriving DecidableEq

/-- `_metadata_sort_key`. -/
def UndefinedKey.sortKey (k : UndefinedKey) : List Str :=
  [k.name, k.version.getD [], k.library.getD [], [k.bind], [k.hidden.toNat]]

def undefinedKeys (symbols : List Symbol) : List UndefinedKey :=
  (symbols.filter fun s => s.shndx = SHN_UNDEF ∧ s.name ≠ []).map fun s =>
    ⟨s.name, s.version.map Version.version, s.version.map Version.library, s.bind, s.hidden⟩

def undefinedRecords (symbols : List Symbol) : List UndefinedSymbol :=
  (sortedSet UndefinedKey.sortKey (undefinedKeys symbols)).map fun k =>
    ⟨k.name, k.version, k.library, bindingName k.bind, k.hidden⟩

/-- `_metadata_sort_key`. -/
def ifuncKey (i : IfuncSymbol) : List Str := [i.name, i.version.getD [], [i.defined.toNat]]

def ifuncRecords (symbols : List Symbol) : List IfuncSymbol :=
  sortedSet ifuncKey ((symbols.filter fun s => s.type = STT_GNU_IFUNC ∧ s.name ≠ []).map fun s =>
    ⟨s.name, s.version.map Version.version, s.shndx ≠ SHN_UNDEF⟩)

/-- `[self._string(offset, what) for offset in offsets]`. -/
def strings (what : What) : List ℕ → ScanM (List Str)
  | [] => pure []
  | offset :: offsets => do
    let s ← elf.string offset what
    let ss ← strings what offsets
    pure (s :: ss)

/-- What one of the tags `DT_RUNPATH` and `DT_RPATH` adds to `runpath`. -/
def runpathOf (tag : ℕ) : ScanM (List Str) :=
  match elf.get? tag with
  | none => pure []
  | some offset => do
    let s ← elf.string offset .runpath
    pure (s.splitOn ':'.toNat)

def sonameOf : ScanM (Option Str) :=
  match elf.get? DT_SONAME with
  | none => pure none
  | some offset => do
    let s ← elf.string offset .soname
    pure (some s)

/-- `report`. -/
def report : ScanM Report := do
  let (symbols, requirements) ← elf.symbols
  let relocations ← elf.relocations symbols
  let needed ← elf.strings .neededName elf.neededOffsets
  let runpath ← elf.runpathOf DT_RUNPATH
  let rpath ← elf.runpathOf DT_RPATH
  let soname ← elf.sonameOf
  pure
    { path := elf.reader.path
      etype := elf.etype
      soname := soname
      runpath := runpath ++ rpath
      needed := needed.map fun name => ⟨name, none⟩
      requiredGlibcSonames := sortedSet strKey (needed.filter (· ∈ GLIBC_SONAMES))
      glibcVersions := sortedSet strKey
        ((requirements.map fun e => e.2.version).filter (str "GLIBC_").isPrefixOf)
      undefinedSymbols := undefinedRecords symbols
      ifuncSymbols := ifuncRecords symbols
      irelativeRelocations := relocations.irelative
      tls :=
        { programHeader := elf.tls.isSome
          memsz := (elf.tls.map Segment.memsz).getD 0
          filesz := (elf.tls.map Segment.filesz).getD 0
          align := elf.tlsAlign
          relocations := relocations.tls }
      relocationTypes := relocations.typeCounts.insertionSort fun a b => a.1 ≤ b.1
      dynamic :=
        { textrel := (elf.get? DT_TEXTREL).isSome
          flags := elf.getD DT_FLAGS 0
          flags1 := elf.getD DT_FLAGS_1 0
          relaCount := elf.getD DT_RELACOUNT 0 } }

/-- A symbol that other objects can bind to. -/
def Symbol.Exported (s : Symbol) : Prop :=
  s.name ≠ [] ∧ s.shndx ≠ SHN_UNDEF ∧ s.bind ≠ STB_LOCAL ∧
    s.other % 4 ≠ STV_INTERNAL ∧ s.other % 4 ≠ STV_HIDDEN ∧ (s.value ≠ 0 ∨ s.type = STT_TLS)

instance (s : Symbol) : Decidable s.Exported := inferInstanceAs (Decidable (_ ∧ _))

/-- `exported_symbol_names`. -/
def exportedSymbolNames : ScanM (List Str) := do
  let (symbols, _) ← elf.symbols
  pure ((symbols.filter fun s => s.Exported).map Symbol.name).dedup

end ElfFile

end MuslBsd.Scan
