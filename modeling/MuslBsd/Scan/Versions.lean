import MuslBsd.Scan.Layout
import Mathlib.Algebra.BigOperators.Group.List.Basic

/-! The version needs that linkers write, and what is read of them: the dict of the versions, the
version of each symbol and the versions of the report. -/
namespace MuslBsd.Scan
open MuslBsd.Support
open MuslBsd.Manifest (Str str)

/-- A version of a library: an auxiliary entry of a version need. -/
structure VersionName where
  index : ℕ
  name : Bytes
  hash : ℕ
  flags : ℕ
  two_le : 2 ≤ index
  index_lt : index < 2 ^ 15

/-- A library with its versions: a version need. -/
structure VersionLibrary where
  library : Bytes
  revision : ℕ
  versions : List VersionName
  revision_pos : 0 < revision
  revision_lt : revision < 2 ^ 16
  versions_ne : versions ≠ []

/-- Libraries with their versions, whose indices are pairwise distinct. -/
structure VersionTable where
  needs : List VersionLibrary
  distinct : ((needs.flatMap VersionLibrary.versions).map VersionName.index).Nodup

def VersionName.encode (a : VersionName) (nameOffset link : ℕ) : Bytes :=
  bytesOf 4 a.hash ++ (bytesOf 2 a.flags ++ (bytesOf 2 a.index ++
    (bytesOf 4 nameOffset ++ bytesOf 4 link)))

def VersionLibrary.encode (n : VersionLibrary) (fileOffset auxOffset link : ℕ) : Bytes :=
  bytesOf 2 n.revision ++ (bytesOf 2 n.versions.length ++ (bytesOf 4 fileOffset ++
    (bytesOf 4 auxOffset ++ bytesOf 4 link)))

namespace VersionTable

variable (t : VersionTable)

/-- The table has the version `version` of `library` for an index. -/
def Has (index : ℕ) (version library : Str) : Prop :=
  ∃ n ∈ t.needs, ∃ a ∈ n.versions,
    a.index = index ∧ version = decode 0 a.name ∧ library = decode 0 n.library

/-- The items of one library. -/
def itemsOf (n : VersionLibrary) : List (ℕ × ElfFile.Version) :=
  n.versions.map fun a => (a.index, ⟨decode 0 a.name, decode 0 n.library, a.flags % 2 ^ 16⟩)

/-- The dict of the table. -/
def items : List (ℕ × ElfFile.Version) := t.needs.flatMap itemsOf

variable {t}

theorem map_items : t.items.map Prod.fst =
    (t.needs.flatMap VersionLibrary.versions).map VersionName.index := by
  simp only [items, itemsOf, List.map_flatMap, List.map_map]
  rfl

/-- The table says what its dict says. -/
theorem has_iff {index : ℕ} {version library : Str} : t.Has index version library ↔
    ∃ v, (index, v) ∈ t.items ∧ v.version = version ∧ v.library = library := by
  simp only [Has, items, itemsOf, List.mem_flatMap, List.mem_map, Prod.mk.injEq]
  constructor
  · rintro ⟨n, hn, a, ha, hindex, rfl, rfl⟩
    exact ⟨_, ⟨n, hn, a, ha, hindex, rfl⟩, rfl, rfl⟩
  · rintro ⟨_, ⟨n, hn, a, ha, hindex, rfl⟩, rfl, rfl⟩
    exact ⟨n, hn, a, ha, hindex, rfl, rfl⟩

/-- There are no more versions than indices. -/
theorem length_versions_le : (t.needs.flatMap VersionLibrary.versions).length ≤ 2 ^ 15 := by
  have hsub : (t.needs.flatMap VersionLibrary.versions).map VersionName.index ⊆
      List.range (2 ^ 15) := by
    intro index hindex
    obtain ⟨a, -, rfl⟩ := List.mem_map.mp hindex
    exact List.mem_range.mpr a.index_lt
  have hle := (List.subperm_of_subset t.distinct hsub).length_le
  rwa [List.length_map, List.length_range] at hle

theorem length_needs_le : t.needs.length ≤ 2 ^ 15 := by
  have hsum := List.length_le_sum_of_one_le
    (t.needs.map fun n => n.versions.length) fun k hk => by
      obtain ⟨n, -, rfl⟩ := List.mem_map.mp hk
      exact List.length_pos_iff.mpr n.versions_ne
  rw [List.length_map, ← List.length_flatMap] at hsum
  exact hsum.trans length_versions_le

theorem length_le {n : VersionLibrary} (hn : n ∈ t.needs) : n.versions.length ≤ 2 ^ 15 := by
  have hsub := (List.sublist_flatten_of_mem
    (List.mem_map_of_mem (f := VersionLibrary.versions) hn)).length_le
  rw [← List.flatMap_def] at hsub
  exact hsub.trans length_versions_le

end VersionTable

namespace ElfFile

variable (elf : ElfFile)

/-- `text` is a string of the string table. -/
structure StringAt (offset : ℕ) (text : Bytes) : Prop where
  nonzero : 0 ∉ text
  stop_lt : offset + text.length < elf.strsz
  placed : Placed elf.reader.data (elf.strtab + offset) (text ++ [0])

/-- The entry of a version is at `offset`, with this distance to the next one. -/
def VersionNameAt (offset link : ℕ) (a : VersionName) : Prop :=
  link < 2 ^ 32 ∧ ∃ nameOffset < 2 ^ 32, elf.StringAt nameOffset a.name ∧
    Placed elf.reader.data offset (a.encode nameOffset link)

/-- The entry of a library is at `offset`, with this distance to the next one, and its versions are
linked from where it says. -/
def VersionLibraryAt (offset link : ℕ) (n : VersionLibrary) : Prop :=
  link < 2 ^ 32 ∧ ∃ fileOffset < 2 ^ 32, ∃ auxOffset < 2 ^ 32, elf.StringAt fileOffset n.library ∧
    Placed elf.reader.data offset (n.encode fileOffset auxOffset link) ∧
      Linked 16 elf.VersionNameAt (offset + auxOffset) n.versions

/-- The file has the table at `DT_VERNEED`; an empty table may also be left out. -/
inductive HasVersions (t : VersionTable) : Prop
  | absent (h : elf.get? DT_VERNEED = none) (hn : t.needs = [])
  | table {address offset : ℕ} (h : elf.get? DT_VERNEED = some address)
    (hm : mapAddress elf.load address 16 = some offset)
    (hcount : elf.getD DT_VERNEEDNUM 0 = t.needs.length)
    (hlinked : Linked 16 elf.VersionLibraryAt offset t.needs)

/-- The name of a symbol is a string of the string table, if it has one. -/
def Legible (e : SymbolEntry) : Prop :=
  e.nameOffset = 0 ∨ ∃ text, elf.StringAt e.nameOffset text

/-- The file has a symbol table of `n` symbols, and at least one. -/
structure HasSymbols (n address offset : ℕ) : Prop where
  symtab : elf.get? DT_SYMTAB = some address
  syment : 24 ≤ elf.getD DT_SYMENT 24
  count : value elf.symbolCount = .ok n
  pos : 0 < n
  mapped : mapAddress elf.load address (n * elf.getD DT_SYMENT 24) = some offset
  inside : offset + n * elf.getD DT_SYMENT 24 ≤ elf.reader.data.length
  legible : ∀ i < n, elf.Legible (elf.entryAt symbolFormat (offset + i * elf.getD DT_SYMENT 24))

/-- The file has these words at `DT_VERSYM`. -/
structure HasVersym (words : List ℕ) (address offset : ℕ) : Prop where
  versym : elf.get? DT_VERSYM = some address
  mapped : mapAddress elf.load address (words.length * 2) = some offset
  placed : Placed elf.reader.data offset (words.flatMap (bytesOf 2))
  words_lt : ∀ w ∈ words, w < 2 ^ 16

variable {elf} {t : VersionTable} {offset link : ℕ} {text : Bytes}

/-! ### Strings -/

/-- A string of the string table is read up to its terminator. -/
theorem string_at (h : elf.StringAt offset text) (what : What) :
    value (elf.string offset what) = .ok (decode 0 text) := by
  have hlt := h.stop_lt
  obtain ⟨front, rest, hdata, hfront⟩ := h.placed
  have hdrop : elf.reader.data.drop (elf.strtab + offset) = text ++ 0 :: rest := by
    rw [hdata, ← hfront, List.append_assoc, List.append_assoc, List.drop_left]
    rfl
  have hlen := h.placed.stop_le
  rw [List.length_append, List.length_singleton] at hlen
  have hfind : (((elf.reader.data.drop (elf.strtab + offset)).take
      (min elf.reader.data.length (elf.strtab + offset + (elf.strsz - offset)) -
        (elf.strtab + offset))).findIdx? fun b => b = 0) = some text.length := by
    have hwindow : text.length < min elf.reader.data.length
        (elf.strtab + offset + (elf.strsz - offset)) - (elf.strtab + offset) := by omega
    obtain ⟨k, hk⟩ := Nat.exists_eq_add_of_lt hwindow
    have hnone : text.findIdx? (fun b => b = 0) = none := by
      rw [List.findIdx?_eq_none_iff]
      intro b hb
      apply decide_eq_false
      rintro rfl
      exact h.nonzero hb
    rw [hdrop, hk, Nat.add_assoc, List.take_length_add_append, List.take_succ_cons, List.findIdx?_append, hnone,
      List.findIdx?_cons]
    simp
  have htake : (elf.reader.data.drop (elf.strtab + offset)).take text.length = text := by
    rw [hdrop, List.take_left]
  rw [string, bind_eq_ok]
  refine ⟨(), reject_eq_ok.mpr (by omega), ?_⟩
  rw [Reader.cString, bind_eq_ok]
  refine ⟨(), reject_eq_ok.mpr (by omega), ?_⟩
  refine bind_eq_ok.mpr ⟨_, rfl, ?_⟩
  rw [hfind]
  refine bind_eq_ok.mpr ⟨_, rfl, ?_⟩
  rw [htake]
  rfl

/-! ### Version needs -/

theorem versionNeedAux_encode (a : VersionName) {nameOffset : ℕ} (hname : nameOffset < 2 ^ 32)
    (hlink : link < 2 ^ 32) : versionNeedAuxFormat.fields (a.encode nameOffset link) =
      ⟨a.flags % 2 ^ 16, a.index, nameOffset, link⟩ := by
  have hindex := a.index_lt
  simp only [versionNeedAuxFormat, VersionName.encode, little_append, little_bytesOf,
    little_bytesOf_end, length_bytesOf, Nat.reduceLeDiff, Nat.reduceSub, Nat.reducePow]
  simp (disch := omega) only [Nat.mod_eq_of_lt]

theorem versionNeed_encode (n : VersionLibrary) {fileOffset auxOffset : ℕ}
    (hfile : fileOffset < 2 ^ 32) (haux : auxOffset < 2 ^ 32) (hlink : link < 2 ^ 32)
    (hlength : n.versions.length < 2 ^ 16) :
    versionNeedFormat.fields (n.encode fileOffset auxOffset link) =
      ⟨n.revision, n.versions.length, fileOffset, auxOffset, link⟩ := by
  have hrevision := n.revision_lt
  simp only [versionNeedFormat, VersionLibrary.encode, little_append, little_bytesOf,
    little_bytesOf_end, length_bytesOf, Nat.reduceLeDiff, Nat.reduceSub, Nat.reducePow]
  simp (disch := omega) only [Nat.mod_eq_of_lt]

/-- What a round of the inner loop does with the dict. -/
def setVersion (library : Bytes) (d : List (ℕ × Version)) (a : VersionName) : List (ℕ × Version) :=
  dictSet d a.index ⟨decode 0 a.name, decode 0 library, a.flags % 2 ^ 16⟩

theorem versionAux_at {a : VersionName} (h : elf.VersionNameAt offset link a)
    (hlink : 16 ≤ link ∨ link = 0) (need i : ℕ) (library : Bytes) (d : List (ℕ × Version)) :
    value (elf.versionAux need (decode 0 library) i (offset, d)) =
      .ok (if link = 0 then .done (offset, setVersion library d a)
        else .yield (offset + link, setVersion library d a)) := by
  obtain ⟨hlt, nameOffset, hname, htext, hplaced⟩ := h
  have hsize : (a.encode nameOffset link).length = versionNeedAuxFormat.size := by
    simp [VersionName.encode, versionNeedAuxFormat]
  rw [versionAux, bind_eq_ok]
  refine ⟨_, unpack_placed hplaced hsize, ?_⟩
  rw [versionNeedAux_encode a hname hlt]
  refine bind_eq_ok.mpr ⟨_, string_at htext _, ?_⟩
  dsimp only
  by_cases hzero : link = 0
  · rw [if_pos hzero, if_pos hzero]
    rfl
  · rw [if_neg hzero, if_neg hzero, bind_eq_ok]
    exact ⟨(), reject_eq_ok.mpr (by omega), rfl⟩

/-- What a round of the outer loop does with the dict. -/
def setLibrary (d : List (ℕ × Version)) (n : VersionLibrary) : List (ℕ × Version) :=
  n.versions.foldl (setVersion n.library) d

theorem versionNeed_at {n : VersionLibrary} (h : elf.VersionLibraryAt offset link n)
    (hlink : 16 ≤ link ∨ link = 0) (hlength : n.versions.length < 2 ^ 16) (i : ℕ)
    (d : List (ℕ × Version)) :
    value (elf.versionNeed i (offset, d)) =
      .ok (if link = 0 then .done (offset, setLibrary d n)
        else .yield (offset + link, setLibrary d n)) := by
  obtain ⟨hlt, fileOffset, hfile, auxOffset, haux, htext, hplaced, hlinked⟩ := h
  have hsize : (n.encode fileOffset auxOffset link).length = versionNeedFormat.size := by
    simp [VersionLibrary.encode, versionNeedFormat]
  have hrevision := n.revision_pos
  have hcount := List.length_pos_iff.mpr n.versions_ne
  obtain ⟨stop, hloop⟩ := forRange_linked (elf.versionAux i (decode 0 n.library))
    (setVersion n.library) (by decide)
    (fun a _ k offset link d hat hlink => versionAux_at hat hlink i k n.library d) hlinked 0 d
  rw [versionNeed, bind_eq_ok]
  refine ⟨_, unpack_placed hplaced hsize, ?_⟩
  rw [versionNeed_encode n hfile haux hlt hlength, bind_eq_ok]
  refine ⟨(), reject_eq_ok.mpr (by dsimp only; omega), ?_⟩
  refine bind_eq_ok.mpr ⟨_, string_at htext _, ?_⟩
  refine bind_eq_ok.mpr ⟨_, hloop, ?_⟩
  dsimp only
  by_cases hzero : link = 0
  · rw [if_pos hzero, if_pos hzero]
    rfl
  · rw [if_neg hzero, if_neg hzero, bind_eq_ok]
    exact ⟨(), reject_eq_ok.mpr (by omega), rfl⟩

theorem foldl_setLibrary (t : VersionTable) : t.needs.foldl setLibrary [] = t.items := by
  have hstep : setLibrary = fun d n =>
      (VersionTable.itemsOf n).foldl (fun d e => dictSet d e.1 e.2) d := by
    funext d n
    rw [VersionTable.itemsOf, List.foldl_map]
    rfl
  have hnodup : (([] ++ t.items).map Prod.fst).Nodup := by
    rw [List.nil_append, VersionTable.map_items]
    exact t.distinct
  rw [hstep, ← List.foldl_flatMap, ← VersionTable.items, foldl_dictSet hnodup, List.nil_append]

/-- The dict that is read is that of the table. -/
theorem versionRequirements_eq (h : elf.HasVersions t) :
    value elf.versionRequirements = .ok t.items := by
  unfold versionRequirements
  cases h with
  | absent h hn =>
    rw [h, VersionTable.items, hn]
    rfl
  | @table address offset h hm hcount hlinked =>
    have hle : t.needs.length ≤ MAX_TABLE_ENTRIES := t.length_needs_le.trans (by decide)
    obtain ⟨stop, hloop⟩ := forRange_linked elf.versionNeed setLibrary (by decide)
      (fun n hn i offset link d hat hlink =>
        versionNeed_at hat hlink (lt_of_le_of_lt (t.length_le hn) (by decide)) i d) hlinked 0 []
    rw [foldl_setLibrary] at hloop
    rw [h]
    dsimp only
    rw [hcount, bind_eq_ok]
    refine ⟨(), reject_eq_ok.mpr (by omega), ?_⟩
    refine bind_eq_ok.mpr ⟨offset, addressRange_eq_ok.mpr hm, ?_⟩
    exact bind_eq_ok.mpr ⟨_, hloop, rfl⟩

/-! ### Symbols -/

/-- The words that are read are those of the file. -/
theorem versionWords_eq {words : List ℕ} {address : ℕ} (h : elf.HasVersym words address offset) :
    value (Faulting.mapRange (elf.versionWord offset) words.length 0) = .ok words := by
  have hread : ∀ k w, words[k]? = some w → value (elf.versionWord offset (0 + k)) = .ok w := by
    intro k w hw
    have hlt := h.words_lt w (List.mem_of_getElem? hw)
    have hplaced := h.placed.row (length_bytesOf 2) hw
    have hfield : u16.fields (bytesOf 2 w) = w :=
      (little_bytesOf_end 2 w).trans (Nat.mod_eq_of_lt hlt)
    rw [versionWord, Nat.zero_add, unpack_placed hplaced (length_bytesOf 2 w), hfield]
  have hreturns : ∀ k < words.length, ∃ w, value (elf.versionWord offset (0 + k)) = .ok w := by
    intro k hk
    exact ⟨_, hread k _ (List.getElem?_eq_getElem hk)⟩
  obtain ⟨ws, hws⟩ := mapRange_returns _ hreturns
  obtain ⟨hlen, hget⟩ := mapRange_ok hws
  have heq : ws = words := by
    apply List.ext_getElem hlen
    intro k hk hk'
    obtain ⟨w, hw, hvalue⟩ := hget k hk'
    rw [hread k _ (List.getElem?_eq_getElem hk')] at hvalue
    rw [List.getElem_eq_iff, hw, Except.ok.inj hvalue]
  rw [hws, heq]

/-- A symbol has the version that its word names. -/
theorem symbol_version {syment index w : ℕ} {versions : List ℕ}
    {requirements : List (ℕ × Version)} {s : Symbol} (hw : versions[index]? = some w)
    (h : value (elf.symbol offset syment versions requirements index) = .ok s) :
    s.index = index ∧ s.version = requirements.lookup (w % 2 ^ 15) ∧
      s.hidden = decide (w / 2 ^ 15 % 2 = 1) := by
  have hne : versions ≠ [] := List.ne_nil_of_mem (List.mem_of_getElem? hw)
  obtain ⟨e, -, h⟩ := bind_eq_ok.mp h
  obtain ⟨name, -, h⟩ := bind_eq_ok.mp h
  obtain ⟨v, hv, h⟩ := bind_eq_ok.mp h
  obtain rfl := Except.ok.inj h
  rw [if_pos hne, versionAt, hw] at hv
  obtain rfl := Except.ok.inj hv
  exact ⟨rfl, if_pos hne, rfl⟩

theorem symbol_returns {syment index w : ℕ} {versions : List ℕ}
    {requirements : List (ℕ × Version)} (hw : versions[index]? = some w)
    (hstop : offset + index * syment + 24 ≤ elf.reader.data.length)
    (hlegible : elf.Legible (elf.entryAt symbolFormat (offset + index * syment))) :
    ∃ s, value (elf.symbol offset syment versions requirements index) = .ok s := by
  have hne : versions ≠ [] := List.ne_nil_of_mem (List.mem_of_getElem? hw)
  have hread : value (elf.reader.unpack symbolFormat (offset + index * syment)
      (.dynamicSymbol index)) = .ok (elf.entryAt symbolFormat (offset + index * syment)) :=
    unpack_eq_ok.mpr ⟨hstop, rfl⟩
  have hversion : value (if versions ≠ [] then versionAt versions index else pure 0) = .ok w := by
    rw [if_pos hne, versionAt, hw, value_pure]
  obtain ⟨name, hnameOk⟩ : ∃ name, value (if (elf.entryAt symbolFormat
      (offset + index * syment)).nameOffset ≠ 0 then elf.string _ .dynamicSymbolName else pure []) =
        .ok name := by
    rcases hlegible with hzero | ⟨text, htext⟩
    · exact ⟨[], by rw [if_neg (not_not.mpr hzero), value_pure]⟩
    · by_cases hzero : (elf.entryAt symbolFormat (offset + index * syment)).nameOffset = 0
      · exact ⟨[], by rw [if_neg (not_not.mpr hzero), value_pure]⟩
      · exact ⟨_, by rw [if_pos hzero, string_at htext]⟩
  exact ⟨_, bind_eq_ok.mpr ⟨_, hread, bind_eq_ok.mpr ⟨name, hnameOk,
    bind_eq_ok.mpr ⟨w, hversion, rfl⟩⟩⟩⟩

/-- The symbols that are read have the versions that the words and the table give them. -/
theorem symbols_versions {words : List ℕ} {address versymAddress versymOffset : ℕ}
    (hs : elf.HasSymbols words.length address offset)
    (hw : elf.HasVersym words versymAddress versymOffset) (ht : elf.HasVersions t) :
    ∃ symbols : List Symbol, value elf.symbols = .ok (symbols, t.items) ∧ symbols.length = words.length ∧
      ∀ (i w : ℕ), words[i]? = some w → ∃ s : Symbol, symbols[i]? = some s ∧
        s.version = t.items.lookup (w % 2 ^ 15) ∧ s.hidden = decide (w / 2 ^ 15 % 2 = 1) := by
  have hreturns : ∀ k < words.length, ∃ s, value (elf.symbol offset (elf.getD DT_SYMENT 24) words
      t.items (0 + k)) = .ok s := by
    intro k hk
    rw [Nat.zero_add]
    have hend : k * elf.getD DT_SYMENT 24 + elf.getD DT_SYMENT 24 ≤
        words.length * elf.getD DT_SYMENT 24 := by
      rw [← Nat.succ_mul]
      exact Nat.mul_le_mul_right _ hk
    have hinside := hs.inside
    have hsyment := hs.syment
    exact symbol_returns (List.getElem?_eq_getElem hk) (by omega) (hs.legible k hk)
  obtain ⟨symbols, hsymbols⟩ := mapRange_returns _ hreturns
  obtain ⟨hlen, hget⟩ := mapRange_ok hsymbols
  refine ⟨symbols, ?_, hlen, ?_⟩
  · have hpos := hs.pos
    have hsyment := hs.syment
    rw [ElfFile.symbols, hs.symtab]
    dsimp only
    rw [bind_eq_ok]
    refine ⟨(), reject_eq_ok.mpr (by omega), ?_⟩
    refine bind_eq_ok.mpr ⟨_, hs.count, ?_⟩
    rw [if_neg (by omega)]
    refine bind_eq_ok.mpr ⟨_, addressRange_eq_ok.mpr hs.mapped, ?_⟩
    rw [hw.versym]
    refine bind_eq_ok.mpr ⟨words, ?_, ?_⟩
    · exact bind_eq_ok.mpr ⟨_, addressRange_eq_ok.mpr hw.mapped, versionWords_eq hw⟩
    · refine bind_eq_ok.mpr ⟨_, versionRequirements_eq ht, ?_⟩
      exact bind_eq_ok.mpr ⟨_, hsymbols, rfl⟩
  · intro i w hi
    obtain ⟨s, hsi, hread⟩ := hget i (List.getElem?_eq_some_iff.mp hi).1
    rw [Nat.zero_add] at hread
    obtain ⟨-, hversion, hhidden⟩ := symbol_version hi hread
    exact ⟨s, hsi, hversion, hhidden⟩

theorem report_versions {symbols : List Symbol} {requirements : List (ℕ × Version)}
    {report : Report} (hs : value elf.symbols = .ok (symbols, requirements))
    (h : value elf.report = .ok report) (v : Str) : v ∈ report.glibcVersions ↔
      str "GLIBC_" <+: v ∧ ∃ e ∈ requirements, e.2.version = v := by
  obtain ⟨⟨symbols', requirements'⟩, hs', h⟩ := bind_eq_ok.mp h
  obtain ⟨rfl, rfl⟩ := Prod.mk.inj (Except.ok.inj (hs.symm.trans hs'))
  obtain ⟨_, _, h⟩ := bind_eq_ok.mp h
  obtain ⟨_, _, h⟩ := bind_eq_ok.mp h
  obtain ⟨_, _, h⟩ := bind_eq_ok.mp h
  obtain ⟨_, _, h⟩ := bind_eq_ok.mp h
  obtain ⟨_, _, h⟩ := bind_eq_ok.mp h
  obtain rfl := Except.ok.inj h
  simp only [mem_sortedSet, List.mem_filter, List.mem_map, List.isPrefixOf_iff_prefix]
  exact and_comm

/-- What is read of the versions is what was laid out: the version of every symbol and whether it is
hidden, and the versions of glibc in the report. -/
theorem versions_decode {words : List ℕ} {address versymAddress versymOffset : ℕ}
    (hs : elf.HasSymbols words.length address offset)
    (hw : elf.HasVersym words versymAddress versymOffset) (ht : elf.HasVersions t) :
    ∃ (symbols : List Symbol) (requirements : List (ℕ × Version)),
      value elf.symbols = .ok (symbols, requirements) ∧ symbols.length = words.length ∧
      (∀ (i w : ℕ), words[i]? = some w → ∃ s : Symbol, symbols[i]? = some s ∧
        (∀ version library, s.version.map (fun v => (v.version, v.library)) =
          some (version, library) ↔ t.Has (w % 2 ^ 15) version library) ∧
        (s.version = none ↔ ∀ version library, ¬t.Has (w % 2 ^ 15) version library) ∧
        s.hidden = w.testBit 15) ∧
      ∀ report, value elf.report = .ok report → ∀ v, v ∈ report.glibcVersions ↔
        str "GLIBC_" <+: v ∧ ∃ index library, t.Has index v library := by
  obtain ⟨symbols, hsymbols, hlen, hget⟩ := symbols_versions hs hw ht
  refine ⟨symbols, t.items, hsymbols, hlen, ?_, ?_⟩
  · intro i w hi
    obtain ⟨s, hsi, hversion, hhidden⟩ := hget i w hi
    have hiff : ∀ version library, s.version.map (fun v => (v.version, v.library)) =
        some (version, library) ↔ t.Has (w % 2 ^ 15) version library := by
      intro version library
      rw [VersionTable.has_iff, hversion, Option.map_eq_some_iff]
      refine exists_congr fun v => ?_
      rw [lookup_eq_some (VersionTable.map_items ▸ t.distinct), Prod.mk.injEq]
    refine ⟨s, hsi, hiff, ?_, ?_⟩
    · constructor
      · intro hnone version library hhas
        have hsome := (hiff version library).mpr hhas
        rw [hnone] at hsome
        cases hsome
      · intro hnot
        rw [Option.eq_none_iff_forall_ne_some]
        intro v hv
        have hsome := (hiff v.version v.library).mp (by rw [hv]; rfl)
        exact hnot _ _ hsome
    · rw [hhidden, Nat.testBit_eq_decide_div_mod_eq]
  · intro report hreport v
    rw [report_versions hsymbols hreport]
    refine and_congr_right fun _ => ?_
    constructor
    · intro h
      obtain ⟨e, he, hv⟩ := h
      exact ⟨e.1, e.2.library, VersionTable.has_iff.mpr ⟨e.2, he, hv, rfl⟩⟩
    · intro h
      obtain ⟨index, library, hhas⟩ := h
      obtain ⟨e, he, hv, -⟩ := VersionTable.has_iff.mp hhas
      exact ⟨_, he, hv⟩

/-! ### A file with versions -/

def ascii (s : String) : Bytes := s.toList.map fun c => UInt8.ofNat c.toNat

def glibc234 : VersionName := ⟨3, ascii "GLIBC_2.34", 0x069691B4, 0, by decide, by decide⟩

def v1 : VersionName := ⟨2, ascii "V_1", 0x00057F01, 2, by decide, by decide⟩

def glibc229 : VersionName := ⟨4, ascii "GLIBC_2.29", 0x06969189, 0, by decide, by decide⟩

def libc : VersionLibrary :=
  ⟨ascii "libc.so.6", 1, [glibc234, v1], by decide, by decide, List.cons_ne_nil _ _⟩

def libm : VersionLibrary :=
  ⟨ascii "libm.so.6", 1, [glibc229], by decide, by decide, List.cons_ne_nil _ _⟩

def versionedTable : VersionTable := ⟨[libc, libm], by decide⟩

def versionedWords : List ℕ := [0, 3, 0x8004]

/-- The strings, the words of `DT_VERSYM`, three symbols of which two are an undefined `f`, a hash
table, and the version needs with gaps between them. -/
def versioned : Bytes :=
  [0] ++ ascii "f" ++ [0] ++ ascii "libc.so.6" ++ [0] ++ ascii "GLIBC_2.34" ++ [0] ++
    ascii "libm.so.6" ++ [0] ++ ascii "GLIBC_2.29" ++ [0] ++ ascii "V_1" ++ [0] ++ bytesOf 7 0 ++
  versionedWords.flatMap (bytesOf 2) ++ bytesOf 2 0 ++
  bytesOf 24 0 ++ bytesOf 4 1 ++ bytesOf 1 0x12 ++ bytesOf 19 0 ++
    bytesOf 4 1 ++ bytesOf 1 0x12 ++ bytesOf 19 0 ++
  bytesOf 4 1 ++ bytesOf 4 3 ++
  libc.encode 3 16 64 ++ glibc234.encode 13 24 ++ bytesOf 8 0xFF ++ v1.encode 45 0 ++ bytesOf 8 0 ++
    libm.encode 24 20 0 ++ bytesOf 4 0xFF ++ glibc229.encode 34 99

def versionedFile : ElfFile where
  reader := ⟨versioned, []⟩
  etype := 3
  load := [⟨0, 244, 0, 244⟩]
  tls := none
  tlsAlign := 0
  dynamic := [(DT_SYMTAB, 64), (DT_HASH, 136), (DT_VERSYM, 56), (DT_VERNEED, 144),
    (DT_VERNEEDNUM, 2)]
  neededOffsets := []
  strtab := 0
  strsz := 49

theorem versionedFile_symbols : versionedFile.HasSymbols versionedWords.length 64 64 where
  symtab := rfl
  syment := by decide
  count := by decide +kernel
  pos := by decide
  mapped := by decide
  inside := by decide +kernel
  legible := by
    have hstring : versionedFile.StringAt 1 (ascii "f") :=
      ⟨by decide +kernel, by decide +kernel, by decide +kernel⟩
    have hoffset : ∀ i < 3, (versionedFile.entryAt symbolFormat (64 + i * 24)).nameOffset = 0 ∨
        (versionedFile.entryAt symbolFormat (64 + i * 24)).nameOffset = 1 := by
      decide +kernel
    intro i hi
    rcases hoffset i hi with h | h
    · exact .inl h
    · exact .inr ⟨ascii "f", h.symm ▸ hstring⟩

theorem versionedFile_versym : versionedFile.HasVersym versionedWords 56 56 where
  versym := rfl
  mapped := by decide
  placed := by decide +kernel
  words_lt := by decide

theorem versionedFile_versions : versionedFile.HasVersions versionedTable := by
  have hstring : ∀ offset text, (0 ∉ text ∧ offset + text.length < 49 ∧
      Placed versioned (0 + offset) (text ++ [0])) → versionedFile.StringAt offset text :=
    fun _ _ h => ⟨h.1, h.2.1, h.2.2⟩
  have h234 : versionedFile.VersionNameAt 160 24 glibc234 :=
    ⟨by decide, 13, by decide, hstring _ _ (by decide +kernel), by decide +kernel⟩
  have hv1 : versionedFile.VersionNameAt 184 0 v1 :=
    ⟨by decide, 45, by decide, hstring _ _ (by decide +kernel), by decide +kernel⟩
  have h229 : versionedFile.VersionNameAt 228 99 glibc229 :=
    ⟨by decide, 34, by decide, hstring _ _ (by decide +kernel), by decide +kernel⟩
  have hlibc : versionedFile.VersionLibraryAt 144 64 libc :=
    ⟨by decide, 3, by decide, 16, by decide, hstring _ _ (by decide +kernel), by decide +kernel,
      .cons h234 (by decide) (.cons hv1 (.inr ⟨rfl, rfl⟩) .nil)⟩
  have hlibm : versionedFile.VersionLibraryAt 208 0 libm :=
    ⟨by decide, 24, by decide, 20, by decide, hstring _ _ (by decide +kernel), by decide +kernel,
      .cons h229 (by decide) .nil⟩
  have hneeded : versionedFile.get? DT_VERNEED = some 144 := rfl
  have hmapped : mapAddress versionedFile.load 144 16 = some 144 := by decide
  exact .table hneeded hmapped rfl (.cons hlibc (by decide) (.cons hlibm (.inr ⟨rfl, rfl⟩) .nil))

/-- The third symbol of that file is hidden and has a version of libm, and the report has it. -/
theorem versions_decode_versioned :
    ∃ symbols requirements report s, value versionedFile.symbols = .ok (symbols, requirements) ∧
      symbols[2]? = some s ∧ s.hidden = true ∧
        s.version.map (fun v => (v.version, v.library)) = some (str "GLIBC_2.29", str "libm.so.6") ∧
          value versionedFile.report = .ok report ∧ str "GLIBC_2.29" ∈ report.glibcVersions := by
  obtain ⟨symbols, requirements, hsymbols, -, hversions, hreport⟩ :=
    versions_decode versionedFile_symbols versionedFile_versym versionedFile_versions
  have hhas : versionedTable.Has 4 (str "GLIBC_2.29") (str "libm.so.6") :=
    ⟨libm, by simp [versionedTable], glibc229, by simp [libm], rfl, by decide +kernel,
      by decide +kernel⟩
  obtain ⟨s, hs, hversion, -, hhidden⟩ := hversions 2 0x8004 rfl
  have hrun : (match value versionedFile.report with
      | .ok _ => true
      | .error _ => false) = true := by
    decide +kernel
  cases hr : value versionedFile.report with
  | error e =>
    rw [hr] at hrun
    cases hrun
  | ok report =>
    refine ⟨symbols, requirements, report, s, hsymbols, hs, hhidden.trans (by decide), ?_, rfl, ?_⟩
    · exact (hversion _ _).mpr hhas
    · exact (hreport report hr _).mpr ⟨by decide +kernel, 4, _, hhas⟩

end ElfFile

end MuslBsd.Scan
