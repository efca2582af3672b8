import MuslBsd.Scan.Elf

/-! No file makes `nvidia-scan` read outside of it, run forever or raise anything but `ScanError`. -/
namespace MuslBsd.Scan
open MuslBsd.Support MuslBsd.Support.Faulting
open MuslBsd.Manifest (Str)

variable {α β : Type}

/-- The access is inside the file. -/
def Access.Inside (data : Bytes) (a : Access) : Prop := a.offset + a.size ≤ data.length

/-- Every run stays inside the file and ends with a value in `post` or with a `ScanError`. -/
def Safe (data : Bytes) (m : ScanM α) (post : α → Prop) : Prop :=
  Guards (fun _ => True) (Access.Inside data) Error.IsScanError m post

/-- A loop all of whose rounds are safe. -/
theorem loop_safe {data : Bytes} {body : ℕ → β → ScanM (ForInStep β)} {n i : ℕ} {b : β}
    (h : ∀ i b, Safe data (body i b) fun _ => True) :
    Safe data (Faulting.forRange body n i b) fun _ => True :=
  .forRange (I := fun _ => True) (fun i b _ => h i b) trivial

namespace Reader

variable {r : Reader} {post : α → Prop}

theorem raise_safe {message : Message} : Safe r.data (r.raise message : ScanM α) post :=
  .stop trivial

theorem reject_safe {c : Prop} [Decidable c] {message : Message} :
    Safe r.data (r.reject c message) fun _ => ¬c := by
  unfold Reader.reject
  apply Guards.ite
  · intro _
    exact raise_safe
  · intro hc
    exact .pure hc

theorem range_safe {offset size : ℕ} {what : What} :
    Safe r.data (r.range offset size what) fun _ => offset + size ≤ r.data.length :=
  reject_safe.mono fun _ h => by omega

theorem slice_safe {offset size : ℕ} (h : offset + size ≤ r.data.length) :
    Safe r.data (r.slice offset size) fun b => b.length = size := by
  refine .bind (.emit h) fun _ _ => .pure ?_
  rw [List.length_take, List.length_drop]
  omega

theorem byte_safe {offset : ℕ} (h : offset < r.data.length) :
    Safe r.data (r.byte offset) fun _ => True := by
  refine .bind (.emit h) fun _ _ => ?_
  rw [List.getElem?_eq_getElem h]
  exact .pure trivial

theorem unpackFrom_safe {format : Format α} {offset : ℕ} (h : offset + format.size ≤ r.data.length) :
    Safe r.data (r.unpackFrom format offset) fun _ => True := by
  refine .bind (.emit h) fun _ _ => ?_
  rw [if_neg (by omega)]
  exact .pure trivial

/-- A checked read is inside the file. -/
theorem unpack_safe {format : Format α} {offset : ℕ} {what : What} :
    Safe r.data (r.unpack format offset what) fun _ => offset + format.size ≤ r.data.length :=
  .bind range_safe fun _ h => (unpackFrom_safe h).mono fun _ _ => h

theorem cString_safe {offset limit : ℕ} {what : What} :
    Safe r.data (r.cString offset limit what) fun _ => True := by
  refine .bind range_safe fun _ hoffset => ?_
  have hwindow : offset + (min r.data.length (offset + limit) - offset) ≤ r.data.length := by omega
  refine .bind (slice_safe hwindow) fun window hlen => ?_
  cases hnul : window.findIdx? (· = 0) with
  | none => exact raise_safe
  | some nul =>
    have hlt : nul < window.length := (List.findIdx?_eq_some_iff_getElem.mp hnul).1
    exact .bind (slice_safe (by omega)) fun _ _ => .pure trivial

end Reader

open Reader

/-! ### Headers -/

/-- The segments are parts of the file. -/
def Segments.InFile (data : Bytes) (load : List Segment) : Prop :=
  ∀ s ∈ load, s.offset + s.filesz ≤ data.length

theorem mapAddress_inside {data : Bytes} {load : List Segment} (h : Segments.InFile data load)
    {address size offset : ℕ} (hm : mapAddress load address size = some offset) :
    offset + size ≤ data.length := by
  obtain ⟨s, hs, rfl⟩ := Option.map_eq_some_iff.mp hm
  have hmem := h s (List.mem_of_find?_eq_some hs)
  have hfit := List.find?_some hs
  simp only [decide_eq_true_eq] at hfit
  omega

section Parse

variable {r : Reader}

theorem parseHeader_safe : Safe r.data (parseHeader r) fun _ => True := by
  unfold parseHeader
  refine .ite (fun _ => raise_safe) fun hlen => ?_
  refine .bind (slice_safe (by omega)) fun _ _ => .bind reject_safe fun _ _ => ?_
  refine .bind (byte_safe (by omega)) fun _ _ => .bind reject_safe fun _ _ => ?_
  refine .bind (byte_safe (by omega)) fun _ _ => .bind reject_safe fun _ _ => ?_
  refine .bind unpack_safe fun _ _ => .bind reject_safe fun _ _ => ?_
  refine .bind reject_safe fun _ _ => .bind reject_safe fun _ _ => ?_
  exact .bind range_safe fun _ _ => .pure trivial

theorem parseProgramHeader_safe {h : Header} {index : ℕ} {s : Segments}
    (hs : Segments.InFile r.data s.load) :
    Safe r.data (parseProgramHeader r h index s) fun s => Segments.InFile r.data s.value.load := by
  refine .bind unpack_safe fun p _ => .bind range_safe fun _ hp => ?_
  refine .ite (fun _ => .pure ?_) fun _ => .ite (fun _ => .bind reject_safe fun _ _ => .pure hs)
    fun _ => .ite (fun _ => .pure hs) fun _ => .pure hs
  intro segment hmem
  rcases List.mem_append.mp hmem with hmem | hmem
  · exact hs segment hmem
  · have he : segment = ⟨p.vaddr, p.memsz, p.offset, p.filesz⟩ := List.mem_singleton.mp hmem
    rw [he]
    exact hp

theorem parseProgramHeaders_safe {h : Header} :
    Safe r.data (parseProgramHeaders r h) fun s => Segments.InFile r.data s.load := by
  have hround : ∀ i s, Segments.InFile r.data s.load →
      Safe r.data (parseProgramHeader r h i s) fun s => Segments.InFile r.data s.value.load :=
    fun _ _ hs => parseProgramHeader_safe hs
  exact Guards.forRange hround fun _ hs => absurd hs List.not_mem_nil

theorem vaddrOffset_safe {load : List Segment} (h : Segments.InFile r.data load)
    {address size : ℕ} :
    Safe r.data (vaddrOffset r load address size) fun offset => offset + size ≤ r.data.length := by
  unfold vaddrOffset
  cases hm : mapAddress load address size with
  | none => exact raise_safe
  | some offset => exact .pure (mapAddress_inside h hm)

theorem dictItem_safe {κ ν : Type} [DecidableEq κ] {data : Bytes} {d : List (κ × ν)} {k : κ}
    (h : k ∈ d.map Prod.fst) : Safe data (dictItem d k) fun _ => True := by
  unfold dictItem
  cases hl : d.lookup k with
  | some v => exact .pure trivial
  | none =>
    obtain ⟨e, he, rfl⟩ := List.mem_map.mp h
    have hne := List.lookup_eq_none_iff.mp hl e he
    simp at hne

theorem parseDynamicEntry_safe {offset index : ℕ} {d : DynamicTable} :
    Safe r.data (parseDynamicEntry r offset index d) fun _ => True :=
  .bind unpack_safe fun _ _ => .ite (fun _ => .pure trivial) fun _ =>
    .ite (fun _ => .pure trivial) fun _ => .ite (fun _ => .pure trivial) fun _ => .pure trivial

end Parse

/-- What `__init__` makes sure of. -/
structure ElfFile.InFile (elf : ElfFile) : Prop where
  load : Segments.InFile elf.reader.data elf.load
  strings : elf.strtab + elf.strsz ≤ elf.reader.data.length

theorem parseDynamic_safe {r : Reader} {h : Header} {s : Segments}
    (hs : Segments.InFile r.data s.load) :
    Safe r.data (parseDynamic r h s) fun elf => elf.reader = r ∧ elf.InFile := by
  unfold parseDynamic
  cases s.dynamic with
  | none => exact raise_safe
  | some d =>
    refine .bind reject_safe fun _ _ => .bind range_safe fun _ _ => ?_
    refine .bind (loop_safe fun _ _ => parseDynamicEntry_safe) fun table _ => .bind reject_safe fun _ _ => ?_
    refine .bind reject_safe fun _ hpresent => ?_
    obtain ⟨hstrtab, hstrsz⟩ := not_or.mp hpresent
    refine .bind (dictItem_safe (not_not.mp hstrtab)) fun _ _ => ?_
    refine .bind (dictItem_safe (not_not.mp hstrsz)) fun _ _ => ?_
    exact .bind (vaddrOffset_safe hs) fun _ hstr => .pure ⟨rfl, hs, hstr⟩

theorem elfFile_safe {path : Str} {data : Bytes} :
    Safe data (elfFile path data) fun elf => elf.reader = ⟨data, path⟩ ∧ elf.InFile :=
  .bind (reject_safe (r := ⟨data, path⟩)) fun _ _ =>
    .bind (parseHeader_safe (r := ⟨data, path⟩)) fun _ _ =>
      .bind (parseProgramHeaders_safe (r := ⟨data, path⟩)) fun _ hs =>
        parseDynamic_safe (r := ⟨data, path⟩) hs

namespace ElfFile

variable {elf : ElfFile}

theorem string_safe {offset : ℕ} {what : What} :
    Safe elf.reader.data (elf.string offset what) fun _ => True :=
  .bind reject_safe fun _ _ => cString_safe

theorem addressRange_safe (h : elf.InFile) {address size : ℕ} {what : What} :
    Safe elf.reader.data (elf.addressRange address size what) fun offset =>
      offset + size ≤ elf.reader.data.length := by
  unfold addressRange
  cases hm : mapAddress elf.load address size with
  | none => exact raise_safe
  | some offset => exact .pure (mapAddress_inside h.load hm)

/-! ### Symbols -/

/-- A chain ends: each round reads further on, so there are no more rounds than bytes. -/
theorem gnuChain_safe {chains symoffset k index : ℕ} {highest : ℤ} (hindex : symoffset ≤ index)
    (hk : elf.reader.data.length < k + (chains + (index - symoffset) * 4)) (hpos : 0 < k) :
    Safe elf.reader.data (elf.gnuChain chains symoffset k index highest) fun _ => True := by
  induction k generalizing index highest with
  | zero => omega
  | succ k ih =>
    refine .bind unpack_safe fun word hread => ?_
    have hsize : u32.size = 4 := rfl
    rw [hsize] at hread
    refine .ite (fun _ => .pure trivial) fun _ => .bind reject_safe fun _ _ => ?_
    apply ih <;> omega

theorem gnuBucket_safe {buckets chains symoffset index : ℕ} {highest : ℤ} :
    Safe elf.reader.data (elf.gnuBucket buckets chains symoffset index highest) fun _ => True := by
  refine .bind unpack_safe fun bucket _ => .ite (fun _ => .pure trivial) fun hbucket => ?_
  exact .bind (gnuChain_safe (by omega) (by omega) (by omega)) fun _ _ => .pure trivial

theorem gnuSymbolCount_safe (h : elf.InFile) {address : ℕ} :
    Safe elf.reader.data (elf.gnuSymbolCount address) fun _ => True :=
  .bind (addressRange_safe h) fun _ _ => .bind unpack_safe fun _ _ => .bind reject_safe fun _ _ =>
    .bind range_safe fun _ _ => .bind (loop_safe fun _ _ => gnuBucket_safe) fun _ _ =>
      .pure trivial

theorem symbolCount_safe (h : elf.InFile) :
    Safe elf.reader.data elf.symbolCount fun _ => True := by
  unfold symbolCount
  cases elf.get? DT_HASH with
  | some address =>
    exact .bind (addressRange_safe h) fun _ _ => .bind unpack_safe fun _ _ =>
      .bind reject_safe fun _ _ => .pure trivial
  | none =>
    cases elf.get? DT_GNU_HASH with
    | some address => exact gnuSymbolCount_safe h
    | none =>
      cases elf.get? DT_SYMTAB with
      | none => exact .pure trivial
      | some symtab =>
        refine .ite (fun _ => .pure trivial) fun _ => .bind (addressRange_safe h) fun _ _ => ?_
        exact .ite (fun _ => .pure trivial) fun _ => .bind reject_safe fun _ _ => .pure trivial

theorem versionAux_safe {need index : ℕ} {library : Str} {s : ℕ × List (ℕ × Version)} :
    Safe elf.reader.data (elf.versionAux need library index s) fun _ => True :=
  .bind unpack_safe fun _ _ => .bind string_safe fun _ _ => .ite (fun _ => .pure trivial) fun _ =>
    .bind reject_safe fun _ _ => .pure trivial

theorem versionNeed_safe {index : ℕ} {s : ℕ × List (ℕ × Version)} :
    Safe elf.reader.data (elf.versionNeed index s) fun _ => True := by
  refine .bind unpack_safe fun n _ => .bind reject_safe fun _ _ => .bind string_safe fun _ _ => ?_
  refine .bind (loop_safe fun _ _ => versionAux_safe) fun _ _ => ?_
  exact .ite (fun _ => .pure trivial) fun _ => .bind reject_safe fun _ _ => .pure trivial

theorem versionRequirements_safe (h : elf.InFile) :
    Safe elf.reader.data elf.versionRequirements fun _ => True := by
  unfold versionRequirements
  cases elf.get? DT_VERNEED with
  | none => exact .pure trivial
  | some address =>
    exact .bind reject_safe fun _ _ => .bind (addressRange_safe h) fun _ _ =>
      .bind (loop_safe fun _ _ => versionNeed_safe) fun _ _ => .pure trivial

theorem symbol_safe {offset syment index : ℕ} {versions : List ℕ}
    {requirements : List (ℕ × Version)} (hv : versions ≠ [] → index < versions.length) :
    Safe elf.reader.data (elf.symbol offset syment versions requirements index) fun _ => True := by
  refine .bind unpack_safe fun e _ => .bind (p := fun _ => True)
    (.ite (fun _ => string_safe) fun _ => .pure trivial) fun _ _ => ?_
  refine .bind (p := fun _ => True) (.ite (fun hne => ?_) fun _ => .pure trivial) fun _ _ =>
    .pure trivial
  unfold versionAt
  rw [List.getElem?_eq_getElem (hv hne)]
  exact .pure trivial

theorem symbols_safe (h : elf.InFile) : Safe elf.reader.data elf.symbols fun _ => True := by
  unfold symbols
  cases elf.get? DT_SYMTAB with
  | none => exact .pure trivial
  | some address =>
    refine .bind reject_safe fun _ _ => .bind (symbolCount_safe h) fun count _ => ?_
    refine .ite (fun _ => .pure trivial) fun _ => .bind (addressRange_safe h) fun offset _ => ?_
    refine .bind (p := fun versions => versions ≠ [] → versions.length = count) ?_
      fun versions hlen => .bind (versionRequirements_safe h) fun _ _ => ?_
    · cases elf.get? DT_VERSYM with
      | none => exact .pure fun hne => absurd rfl hne
      | some address =>
        refine .bind (addressRange_safe h) fun offset _ => ?_
        have hwords : Safe elf.reader.data (Faulting.mapRange (elf.versionWord offset) count 0)
            fun words => words.length = count ∧ ∀ w ∈ words, True :=
          .mapRange fun _ _ _ => unpack_safe.any
        exact hwords.mono fun words hlen _ => hlen.1
    · refine .bind (.mapRange fun i _ hi => symbol_safe ?_) fun _ _ => .pure trivial
      intro hne
      rw [hlen hne]
      omega

/-! ### Relocations and reports -/

theorem addTable_safe {tables : List RelocationTable} {address size : Option ℕ} {entrySize : ℕ}
    {kind : Kind} :
    Safe elf.reader.data (elf.addTable tables address size entrySize kind) fun _ => True := by
  unfold addTable
  split
  · exact .bind reject_safe fun _ _ => .bind reject_safe fun _ _ => .pure trivial
  · exact .pure trivial

theorem relocationTables_safe : Safe elf.reader.data elf.relocationTables fun _ => True := by
  refine .bind addTable_safe fun _ _ => .bind addTable_safe fun _ _ => ?_
  have hplt : Safe elf.reader.data elf.pltKind fun _ => True := by
    unfold pltKind
    cases elf.get? DT_PLTREL with
    | none => exact raise_safe
    | some plt =>
      exact .ite (fun _ => .pure trivial) fun _ => .ite (fun _ => .pure trivial) fun _ => raise_safe
  cases elf.get? DT_JMPREL with
  | none => exact .pure trivial
  | some address => exact .bind hplt fun _ _ => addTable_safe

theorem symbolAt_safe {data : Bytes} {symbols : List Symbol} {index : ℕ} :
    Safe data (symbolAt symbols index) fun _ => True := by
  unfold symbolAt
  apply Guards.ite
  · intro hindex
    rw [List.getElem?_eq_getElem hindex]
    exact .pure trivial
  · intro _
    exact .pure trivial

theorem relocation_safe {symbols : List Symbol} {offset index : ℕ} {t : RelocationTable}
    {a : Relocations} :
    Safe elf.reader.data (elf.relocation symbols offset t index a) fun _ => True :=
  .bind unpack_safe fun _ _ => .bind symbolAt_safe fun _ _ => .pure trivial

theorem relocateTables_safe (h : elf.InFile) {symbols : List Symbol}
    {tables : List RelocationTable} {seen : List (ℕ × ℕ × ℕ)} {total : ℕ} {a : Relocations} :
    Safe elf.reader.data (elf.relocateTables symbols tables seen total a) fun _ => True := by
  induction tables generalizing seen total a with
  | nil => exact .pure trivial
  | cons t tables ih =>
    refine .ite (fun _ => ih) fun _ => .bind reject_safe fun _ _ => ?_
    refine .bind (addressRange_safe h) fun _ _ => ?_
    exact .bind (loop_safe fun _ _ => relocation_safe) fun _ _ => ih

theorem strings_safe {what : What} {offsets : List ℕ} :
    Safe elf.reader.data (elf.strings what offsets) fun _ => True := by
  induction offsets with
  | nil => exact .pure trivial
  | cons offset offsets ih => exact .bind string_safe fun _ _ => .bind ih fun _ _ => .pure trivial

theorem runpathOf_safe {tag : ℕ} : Safe elf.reader.data (elf.runpathOf tag) fun _ => True := by
  unfold runpathOf
  cases elf.get? tag with
  | none => exact .pure trivial
  | some offset => exact .bind string_safe fun _ _ => .pure trivial

theorem sonameOf_safe : Safe elf.reader.data elf.sonameOf fun _ => True := by
  unfold sonameOf
  cases elf.get? DT_SONAME with
  | none => exact .pure trivial
  | some offset => exact .bind string_safe fun _ _ => .pure trivial

theorem report_safe (h : elf.InFile) : Safe elf.reader.data elf.report fun _ => True :=
  .bind (symbols_safe h) fun _ _ =>
    .bind (.bind relocationTables_safe fun _ _ => relocateTables_safe h) fun _ _ =>
      .bind strings_safe fun _ _ => .bind runpathOf_safe fun _ _ => .bind runpathOf_safe fun _ _ =>
        .bind sonameOf_safe fun _ _ => .pure trivial

theorem exportedSymbolNames_safe (h : elf.InFile) :
    Safe elf.reader.data elf.exportedSymbolNames fun _ => True :=
  .bind (symbols_safe h) fun _ _ => .pure trivial

end ElfFile

/-- `ELFFile(path).report()`. -/
def elfReport (path : Str) (data : Bytes) : ScanM Report := do
  let elf ← elfFile path data
  elf.report

/-- `ELFFile(path).exported_symbol_names()`. -/
def elfExports (path : Str) (data : Bytes) : ScanM (List Str) := do
  let elf ← elfFile path data
  elf.exportedSymbolNames

theorem elfReport_safe {path : Str} {data : Bytes} :
    Safe data (elfReport path data) fun _ => True :=
  .bind elfFile_safe fun elf h => by
    have hreport := ElfFile.report_safe h.2
    rwa [h.1] at hreport

theorem elfExports_safe {path : Str} {data : Bytes} :
    Safe data (elfExports path data) fun _ => True :=
  .bind elfFile_safe fun elf h => by
    have hexports := ElfFile.exportedSymbolNames_safe h.2
    rwa [h.1] at hexports

theorem Safe.ends {data : Bytes} {m : ScanM α} {post : α → Prop} (h : Safe data m post) :
    ((∃ a, value m = .ok a) ∨ ∃ path message, value m = .error (.scan path message)) ∧
      ∀ a ∈ accesses m, a.offset + a.size ≤ data.length := by
  have hrun := h () trivial
  refine ⟨?_, hrun.writes⟩
  cases hv : value m with
  | ok a => exact .inl ⟨a, rfl⟩
  | error e =>
    have hscan := hrun.fault e hv
    cases e with
    | scan path message => exact .inr ⟨path, message, rfl⟩
    | _ => exact hscan.elim

/-- Both readers of a file end, with a value or a `ScanError`, and read nothing outside of it. -/
theorem elf_reader_safe (path : Str) (data : Bytes) :
    (((∃ report, value (elfReport path data) = .ok report) ∨
        ∃ path' message, value (elfReport path data) = .error (.scan path' message)) ∧
      ∀ a ∈ accesses (elfReport path data), a.offset + a.size ≤ data.length) ∧
    (((∃ names, value (elfExports path data) = .ok names) ∨
        ∃ path' message, value (elfExports path data) = .error (.scan path' message)) ∧
      ∀ a ∈ accesses (elfExports path data), a.offset + a.size ≤ data.length) :=
  ⟨elfReport_safe.ends, elfExports_safe.ends⟩

end MuslBsd.Scan
