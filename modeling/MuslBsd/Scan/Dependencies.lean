import Mathlib.Algebra.Order.Ring.Nat
import MuslBsd.Scan.Elf

/-! `DependencyResolver` and `scan` of `nvidia-scan`: the reports of the roots and of all that their
`DT_NEEDED` entries lead to, over a file system that does not change. -/
namespace MuslBsd.Scan
open MuslBsd.Support
open MuslBsd.Manifest (Str str)

def FORMAT_VERSION : ℕ := 1

def slash : ℕ := '/'.toNat

/-! ### Paths -/

/-- What a path is made of; `pathlib` leaves empty parts and dots out. -/
def IsPart (c : Str) : Prop := c ≠ [] ∧ c ≠ str "." ∧ slash ∉ c

/-- `pathlib.Path`. -/
structure Path where
  /-- Empty for a relative path. -/
  root : Str
  parts : List Str
  isPart : ∀ c ∈ parts, IsPart c
  deriving DecidableEq

namespace Path

/-- `Path(s)`; two slashes in front are a root of their own. -/
def ofStr (s : Str) : Path where
  root :=
    if (str "//").isPrefixOf s ∧ ¬(str "///").isPrefixOf s then str "//"
    else if (str "/").isPrefixOf s then str "/"
    else []
  parts := (s.splitOn slash).filter fun c => c ≠ [] ∧ c ≠ str "."
  isPart := by
    intro c hc
    obtain ⟨hc, hne⟩ := List.mem_filter.mp hc
    have hnames := of_decide_eq_true hne
    exact ⟨hnames.1, hnames.2, Manifest.not_mem_of_mem_splitOn hc⟩

variable (path : Path)

/-- `str(path)`. -/
def toStr : Str :=
  if path.root = [] ∧ path.parts = [] then str "."
  else path.root ++ (str "/").intercalate path.parts

/-- `path.parent`. -/
def parent : Path where
  root := path.root
  parts := path.parts.dropLast
  isPart := fun c hc => path.isPart c (List.dropLast_subset _ hc)

/-- `path / other`. -/
def join (other : Path) : Path :=
  if other.root ≠ [] then other
  else
    { root := path.root
      parts := path.parts ++ other.parts
      isPart := by
        intro c hc
        rcases List.mem_append.mp hc with hc | hc
        · exact path.isPart c hc
        · exact other.isPart c hc }

/-- What two paths are compared by. -/
def key : List Str := path.root :: path.parts

theorem key_injective : Function.Injective key := by
  rintro ⟨root, parts, _⟩ ⟨root', parts', _⟩ h
  obtain ⟨rfl, rfl⟩ := List.cons.inj h
  rfl

theorem toStr_ne_nil : path.toStr ≠ [] := by
  unfold toStr
  split
  · decide
  · rename_i hne
    intro hnil
    obtain ⟨hroot, hparts⟩ := List.append_eq_nil_iff.mp hnil
    cases hp : path.parts with
    | nil => exact hne ⟨hroot, hp⟩
    | cons c parts =>
      have hc : c ≠ [] := (path.isPart c (hp ▸ List.mem_cons_self)).1
      rw [hp] at hparts
      cases parts with
      | nil => exact hc (by simpa [List.intercalate] using hparts)
      | cons d parts => simp [List.intercalate, hc] at hparts

end Path

/-! ### The file system -/

/-- A file system that does not change while it is scanned, as `Path` shows it. -/
structure FileSystem where
  /-- `path.resolve(strict=True)`, with `none` for `OSError`. -/
  resolveStrict : Path → Option Path
  /-- `path.resolve()`. -/
  resolve : Path → Path
  isFile : Path → Bool
  /-- The bytes of the file with this canonical path. -/
  bytes : Path → Bytes
  resolveStrict_idem : ∀ p q, resolveStrict p = some q → resolveStrict q = some q
  resolve_eq : ∀ p q, resolveStrict p = some q → resolve p = q
  exists_of_isFile : ∀ p, isFile p = true → ∃ q, resolveStrict p = some q

/-! ### The resolver -/

/-- `s.replace(old, new)`; `skip` characters are part of an occurrence. -/
def replaceAll (old new : Str) : ℕ → Str → Str
  | _, [] => []
  | skip + 1, _ :: s => replaceAll old new skip s
  | 0, c :: s =>
    if old.isPrefixOf (c :: s) then new ++ replaceAll old new (old.length - 1) s
    else c :: replaceAll old new 0 s

namespace FileSystem

variable (fs : FileSystem)

/-- `_unique_paths`. -/
def uniquePaths (paths : List Path) : List Path :=
  paths.foldl (fun result path =>
    match fs.resolveStrict path with
    | none => result
    | some canonical => if canonical ∈ result then result else result ++ [canonical]) []

end FileSystem

/-- `_expand`. -/
def expand (path : Str) (origin : Path) : Option Path :=
  let path := replaceAll (str "${ORIGIN}") origin.toStr 0 path
  let path := replaceAll (str "$ORIGIN") origin.toStr 0 path
  if '$'.toNat ∈ path then none else some (.ofStr path)

/-- `DependencyResolver`, made for these library paths. -/
structure DependencyResolver where
  libraryPaths : List Path

namespace DependencyResolver

variable (fs : FileSystem)

def ofPaths (libraryPaths : List Path) : DependencyResolver := ⟨fs.uniquePaths libraryPaths⟩

variable (resolver : DependencyResolver)

/-- The paths that are tried for a name without a slash. -/
def candidates (name : Str) (parent : Path) (runpath : List Str) : List Path :=
  (runpath.filterMap fun raw => (expand raw parent.parent).map (·.join (.ofStr name))) ++
    resolver.libraryPaths.map (·.join (.ofStr name)) ++ [parent.parent.join (.ofStr name)]

/-- `resolve`. -/
def resolve (name : Str) (parent : Path) (runpath : List Str) : Option Path :=
  if slash ∈ name then
    let candidate := Path.ofStr name
    let candidate := if candidate.root = [] then parent.parent.join candidate else candidate
    if fs.isFile candidate then some (fs.resolve candidate) else none
  else
    (resolver.candidates name parent runpath).findSome? fun candidate =>
      if fs.isFile candidate then fs.resolveStrict candidate else none

end DependencyResolver

/-! ### The summary -/

/-- `_metadata_sort_key`. -/
def undefinedKey (u : UndefinedSymbol) : List Str :=
  [u.name, u.version.getD [], u.library.getD [], u.binding, [u.hidden.toNat]]

/-- The items of a dict, sorted. -/
def sortedItems (d : List (Str × ℕ)) : List (Str × ℕ) := d.insertionSort fun a b => a.1 ≤ b.1

/-- `compatibility_requirements`. -/
structure Requirements where
  glibcSonames : List Str
  glibcVersions : List Str
  glibcSymbols : List UndefinedSymbol
  weakUndefinedSymbols : List UndefinedSymbol
  tlsRelocationTypes : List (Str × ℕ)
  ifuncSymbols : List IfuncSymbol
  irelativeRelocationCount : ℕ
  allRelocationTypes : List (Str × ℕ)
  deriving DecidableEq

structure Summary where
  objectCount : ℕ
  missingDependencyCount : ℕ
  requiredGlibcSonames : List Str
  requiredGlibcVersions : List Str
  requiredGlibcSymbols : List UndefinedSymbol
  weakUndefinedSymbols : List UndefinedSymbol
  relocationTypes : List (Str × ℕ)
  tlsRelocationTypes : List (Str × ℕ)
  tlsRelocationCount : ℕ
  ifuncSymbolCount : ℕ
  irelativeRelocationCount : ℕ
  compatibilityRequirements : Requirements
  deriving DecidableEq

structure MissingDependency where
  source : Str
  name : Str
  deriving DecidableEq

def MissingDependency.key (m : MissingDependency) : List Str := [m.source, m.name]

/-- `item["version"] and item["version"].startswith("GLIBC_")`. -/
def UndefinedSymbol.IsGlibc (u : UndefinedSymbol) : Prop :=
  (str "GLIBC_").isPrefixOf (u.version.getD []) = true

instance (u : UndefinedSymbol) : Decidable u.IsGlibc := inferInstanceAs (Decidable (_ = _))

def requiredGlibcSymbols (reports : List Report) : List UndefinedSymbol :=
  sortedSet undefinedKey
    ((reports.flatMap Report.undefinedSymbols).filter UndefinedSymbol.IsGlibc)

def weakUndefinedSymbols (reports : List Report) : List UndefinedSymbol :=
  sortedSet undefinedKey
    ((reports.flatMap Report.undefinedSymbols).filter fun u => u.binding = str "weak")

/-- `_summary`. -/
def summary (reports : List Report) (missing : List MissingDependency) : Summary :=
  let sonames := sortedSet strKey (reports.flatMap Report.requiredGlibcSonames)
  let versions := sortedSet strKey (reports.flatMap Report.glibcVersions)
  let ifuncs := sortedSet ElfFile.ifuncKey (reports.flatMap Report.ifuncSymbols)
  let tls := reports.flatMap fun r => r.tls.relocations
  let irelative := (reports.map fun r => r.irelativeRelocations.length).sum
  let relocationTypes := sortedItems
    ((reports.flatMap Report.relocationTypes).foldl (fun d e => dictAdd d e.1 e.2) [])
  let tlsTypes := sortedItems (tls.foldl (fun d r => dictAdd d r.type 1) [])
  { objectCount := reports.length
    missingDependencyCount := missing.length
    requiredGlibcSonames := sonames
    requiredGlibcVersions := versions
    requiredGlibcSymbols := requiredGlibcSymbols reports
    weakUndefinedSymbols := weakUndefinedSymbols reports
    relocationTypes := relocationTypes
    tlsRelocationTypes := tlsTypes
    tlsRelocationCount := tls.length
    ifuncSymbolCount := ifuncs.length
    irelativeRelocationCount := irelative
    compatibilityRequirements :=
      { glibcSonames := sonames
        glibcVersions := versions
        glibcSymbols := requiredGlibcSymbols reports
        weakUndefinedSymbols := weakUndefinedSymbols reports
        tlsRelocationTypes := tlsTypes
        ifuncSymbols := ifuncs
        irelativeRelocationCount := irelative
        allRelocationTypes := relocationTypes } }

/-! ### The scan -/

structure ScanResult where
  format : ℕ
  roots : List Str
  recursive : Bool
  objects : List Report
  missingDependencies : List MissingDependency
  summary : Summary
  deriving DecidableEq

/-- The dict that `scan` returns. -/
def ScanResult.ofReports (roots : List Path) (recursive : Bool) (objects : List Report)
    (missing : List MissingDependency) : ScanResult where
  format := FORMAT_VERSION
  roots := roots.map Path.toStr
  recursive := recursive
  objects := objects
  missingDependencies := missing
  summary := Scan.summary objects missing

section

variable (roots : List Path) (recursive : Bool) (objects : List Report)
  (missing : List MissingDependency)

@[simp] theorem ScanResult.ofReports_objects :
    (ofReports roots recursive objects missing).objects = objects := rfl

@[simp] theorem ScanResult.ofReports_missingDependencies :
    (ofReports roots recursive objects missing).missingDependencies = missing := rfl

end

/-- What the loop has collected. -/
structure Collected where
  reports : List (Path × Report)
  missing : List MissingDependency

namespace FileSystem

variable (fs : FileSystem)

/-- `ELFFile(canonical).report()`. -/
def object (canonical : Path) : ScanM Report := do
  let elf ← elfFile canonical.toStr (fs.bytes canonical)
  elf.report

/-- What `resolver` makes of the names that a report needs. -/
def resolved (resolver : DependencyResolver) (canonical : Path) (report : Report) :
    List (Str × Option Path) :=
  report.needed.map fun d => (d.name, resolver.resolve fs d.name canonical report.runpath)

/-- `dependency["resolved"] = str(resolved)`, for those that are. -/
def link (resolver : DependencyResolver) (canonical : Path) (report : Report) : Report :=
  { report with
    needed := (fs.resolved resolver canonical report).map fun d => ⟨d.1, d.2.map Path.toStr⟩ }

def unresolved (resolver : DependencyResolver) (canonical : Path) (report : Report) :
    List MissingDependency :=
  ((fs.resolved resolver canonical report).filter fun d => d.2 = none).map fun d =>
    ⟨canonical.toStr, d.1⟩

/-- The loop of `scan`, for at most that many rounds. -/
def scanLoop (resolver : DependencyResolver) (recursive : Bool) :
    ℕ → List Path → Collected → ScanM Collected
  | _, [], a => pure a
  | 0, _ :: _, _ => Faulting.fault .endless
  | k + 1, path :: queue, a =>
    match fs.resolveStrict path with
    | none => Faulting.fault (.scan path.toStr .cannotResolve)
    | some canonical =>
      if canonical ∈ a.reports.map Prod.fst then
        scanLoop resolver recursive k queue a
      else do
        let report ← fs.object canonical
        if recursive then
          scanLoop resolver recursive k
            (queue ++ (fs.resolved resolver canonical report).filterMap Prod.snd)
            { reports := a.reports ++ [(canonical, fs.link resolver canonical report)]
              missing := a.missing ++ fs.unresolved resolver canonical report }
        else
          scanLoop resolver recursive k queue
            { a with reports := a.reports ++ [(canonical, report)] }

/-- `scan`. -/
def scan (fuel : ℕ) (roots libraryPaths : List Path) (recursive : Bool) : ScanM ScanResult := do
  let a ← fs.scanLoop (.ofPaths fs libraryPaths) recursive fuel roots ⟨[], []⟩
  let orderedReports := (a.reports.insertionSort fun a b => a.1.key ≤ b.1.key).map Prod.snd
  pure (.ofReports roots recursive orderedReports (sortedSet MissingDependency.key a.missing))

/-! ### A file system with one file -/

/-- The header and the program headers of an object of `size` bytes that is loaded at 0, with a
dynamic table of `dynamic` bytes at 176. -/
def objectHeader (size dynamic : ℕ) : Bytes :=
  [0x7F, 0x45, 0x4C, 0x46, 2, 1, 1] ++ bytesOf 9 0 ++ bytesOf 2 3 ++ bytesOf 2 62 ++ bytesOf 4 1 ++
    bytesOf 8 0 ++ bytesOf 8 64 ++ bytesOf 8 0 ++ bytesOf 4 0 ++ bytesOf 2 64 ++ bytesOf 2 56 ++
    bytesOf 2 2 ++ bytesOf 6 0 ++
  bytesOf 4 PT_LOAD ++ bytesOf 4 4 ++ bytesOf 24 0 ++ bytesOf 8 size ++ bytesOf 8 size ++
    bytesOf 8 8 ++
  bytesOf 4 PT_DYNAMIC ++ bytesOf 4 4 ++ bytesOf 8 176 ++ bytesOf 8 176 ++ bytesOf 8 176 ++
    bytesOf 8 dynamic ++ bytesOf 8 dynamic ++ bytesOf 8 8

def singlePath : Path := .ofStr (str "/a")

def single (data : Bytes) : FileSystem where
  resolveStrict p := if p = singlePath then some p else none
  resolve p := p
  isFile p := p = singlePath
  bytes _ := data
  resolveStrict_idem p q h := by
    split at h
    · rename_i hp
      rw [← Option.some.inj h, if_pos hp]
    · cases h
  resolve_eq p q h := by
    split at h
    · exact Option.some.inj h
    · cases h
  exists_of_isFile p h := ⟨p, if_pos (of_decide_eq_true h)⟩

theorem single_resolveStrict (data : Bytes) :
    (single data).resolveStrict singlePath = some singlePath := by
  simp only [single, if_true]

end FileSystem

end MuslBsd.Scan
