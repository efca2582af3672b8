import MuslBsd.Manifest.Build
import MuslBsd.Scan.Dependencies

/-! `_provider_analysis` of `nvidia-scan`, and the report with it as JSON. -/
namespace MuslBsd.Scan
open MuslBsd.Support
open MuslBsd.Manifest (Str str Json Dict optional count)

/-! ### The analysis -/

/-- A provider with what it exports. -/
structure Provider where
  path : Str
  symbols : List Str

/-- An item of `provided`. -/
structure ProvidedSymbol where
  requirement : UndefinedSymbol
  resolution : Str
  providedSymbol : Str
  providers : List Str
  deriving DecidableEq

/-- What `_provider_analysis` returns. -/
structure Analysis where
  matchingPolicy : Str
  providers : List (Str × ℕ)
  aliases : List (Str × Str)
  providedCount : ℕ
  missingCount : ℕ
  unresolvedWeakCount : ℕ
  provided : List ProvidedSymbol
  missing : List UndefinedSymbol
  unresolvedWeak : List UndefinedSymbol
  deriving DecidableEq

/-- `symbol_providers.get(symbol, ())`. -/
def symbolProviders (providers : List Provider) (symbol : Str) : List Str :=
  (providers.filter fun p => symbol ∈ p.symbols).map Provider.path

/-- What provides a requirement, if something does. -/
def providedBy (providers : List Provider) (aliases : List (Str × Str)) (u : UndefinedSymbol) :
    Option ProvidedSymbol :=
  let provided := (aliases.lookup u.name).getD u.name
  match sortedSet strKey (symbolProviders providers provided) with
  | [] => none
  | name :: names =>
    some
      { requirement := u
        resolution := str (if u.name ∈ aliases.map Prod.fst then "alias" else "direct")
        providedSymbol := provided
        providers := name :: names }

/-- The loop over the aliases. -/
def checkAliases (providers : List Provider) : List (Str × Str) → ScanM Unit
  | [] => pure ()
  | (required, provided) :: aliases =>
    if symbolProviders providers provided = [] then
      Faulting.fault (.aliases (.notExported required provided))
    else
      checkAliases providers aliases

namespace FileSystem

variable (fs : FileSystem)

/-- The loop over `provider_paths`, with `canonical_paths` so far. -/
def providerPaths : List Path → List Path → ScanM (List Path)
  | canonicalPaths, [] => pure canonicalPaths
  | canonicalPaths, path :: paths =>
    match fs.resolveStrict path with
    | none => Faulting.fault (.scan path.toStr .cannotResolveProvider)
    | some canonical =>
      if canonical ∈ canonicalPaths then providerPaths canonicalPaths paths
      else providerPaths (canonicalPaths ++ [canonical]) paths

/-- The loop over `canonical_paths`. -/
def providerSymbols : List Path → ScanM (List Provider)
  | [] => pure []
  | path :: paths => do
    let elf ← elfFile path.toStr (fs.bytes path)
    let symbols ← elf.exportedSymbolNames
    if symbols = [] then
      Faulting.fault (.scan path.toStr .noExports)
    else do
      let providers ← providerSymbols paths
      pure (⟨path.toStr, symbols⟩ :: providers)

/-- `_provider_analysis`. -/
def providerAnalysis (requirements : List UndefinedSymbol) (paths : List Path)
    (aliases : List (Str × Str)) : ScanM Analysis := do
  let canonicalPaths ← fs.providerPaths [] paths
  let providers ← fs.providerSymbols canonicalPaths
  checkAliases providers aliases
  let unknown := sortedSet strKey
    ((aliases.map Prod.fst).filter (· ∉ requirements.map UndefinedSymbol.name))
  if unknown ≠ [] then
    Faulting.fault (.aliases (.unknown unknown))
  else
    let provided := requirements.filterMap (providedBy providers aliases)
    let others := requirements.filter fun u => providedBy providers aliases u = none
    let missing := others.filter fun u => u.binding ≠ str "weak"
    let unresolvedWeak := others.filter fun u => u.binding = str "weak"
    pure
      { matchingPolicy := str "musl-name-based-runtime-resolution"
        providers := providers.map fun p => (p.path, p.symbols.length)
        aliases := aliases.insertionSort fun a b => [a.1, a.2] ≤ [b.1, b.2]
        providedCount := provided.length
        missingCount := missing.length
        unresolvedWeakCount := unresolvedWeak.length
        provided := provided
        missing := missing
        unresolvedWeak := unresolvedWeak }

end FileSystem

/-! ### JSON -/

def strings (ss : List Str) : Json := .arr (ss.map .str)

/-- A dict from names to numbers. -/
def counts (d : List (Str × ℕ)) : Json :=
  (Dict.ofFields (d.map fun e => (e.1, count e.2))).toJson

def UndefinedSymbol.fields (u : UndefinedSymbol) : List (Str × Json) :=
  [(str "name", .str u.name), (str "version", optional u.version),
    (str "library", optional u.library), (str "binding", .str u.binding),
    (str "hidden", .bool u.hidden)]

def UndefinedSymbol.toDict (u : UndefinedSymbol) : Dict := .ofFields u.fields

def IfuncSymbol.toDict (i : IfuncSymbol) : Dict :=
  .ofFields [(str "name", .str i.name), (str "version", optional i.version),
    (str "defined", .bool i.defined)]

/-- `"symbol"` is there if the symbol has a name. -/
def ElfFile.Relocation.toDict (r : ElfFile.Relocation) : Dict :=
  .ofFields ([(str "type", .str r.type), (str "offset", count r.offset),
      (str "addend", .num (.rat r.addend)), (str "symbol_index", count r.symbolIndex)] ++
    match r.symbol with
    | some name => [(str "symbol", .str name)]
    | none => [])

def Needed.toDict (d : Needed) : Dict :=
  .ofFields [(str "name", .str d.name), (str "resolved", optional d.resolved)]

def TlsReport.toDict (t : TlsReport) : Dict :=
  .ofFields [(str "program_header", .bool t.programHeader), (str "memsz", count t.memsz),
    (str "filesz", count t.filesz), (str "align", count t.align),
    (str "relocations", .arr (t.relocations.map fun r => r.toDict.toJson))]

def DynamicReport.toDict (d : DynamicReport) : Dict :=
  .ofFields [(str "textrel", .bool d.textrel), (str "flags", count d.flags),
    (str "flags_1", count d.flags1), (str "rela_count", count d.relaCount)]

def Report.toDict (r : Report) : Dict :=
  .ofFields
    [(str "path", .str r.path),
      (str "elf", (Dict.ofFields
        [(str "class", .str (str "ELF64")), (str "data", .str (str "little-endian")),
          (str "machine", .str (str "x86_64")), (str "type", count r.etype)]).toJson),
      (str "soname", optional r.soname),
      (str "runpath", strings r.runpath),
      (str "needed", .arr (r.needed.map fun d => d.toDict.toJson)),
      (str "required_glibc_sonames", strings r.requiredGlibcSonames),
      (str "glibc_versions", strings r.glibcVersions),
      (str "undefined_symbols", .arr (r.undefinedSymbols.map fun u => u.toDict.toJson)),
      (str "ifunc_symbols", .arr (r.ifuncSymbols.map fun i => i.toDict.toJson)),
      (str "irelative_relocations", .arr (r.irelativeRelocations.map fun r => r.toDict.toJson)),
      (str "tls", r.tls.toDict.toJson),
      (str "relocation_types", counts r.relocationTypes),
      (str "dynamic", r.dynamic.toDict.toJson)]

def Requirements.toDict (r : Requirements) : Dict :=
  .ofFields
    [(str "glibc_sonames", strings r.glibcSonames),
      (str "glibc_versions", strings r.glibcVersions),
      (str "glibc_symbols", .arr (r.glibcSymbols.map fun u => u.toDict.toJson)),
      (str "weak_undefined_symbols", .arr (r.weakUndefinedSymbols.map fun u => u.toDict.toJson)),
      (str "tls_relocation_types", counts r.tlsRelocationTypes),
      (str "ifunc_symbols", .arr (r.ifuncSymbols.map fun i => i.toDict.toJson)),
      (str "irelative_relocation_count", count r.irelativeRelocationCount),
      (str "all_relocation_types", counts r.allRelocationTypes)]

def Summary.toDict (s : Summary) : Dict :=
  .ofFields
    [(str "object_count", count s.objectCount),
      (str "missing_dependency_count", count s.missingDependencyCount),
      (str "required_glibc_sonames", strings s.requiredGlibcSonames),
      (str "required_glibc_versions", strings s.requiredGlibcVersions),
      (str "required_glibc_symbols", .arr (s.requiredGlibcSymbols.map fun u => u.toDict.toJson)),
      (str "weak_undefined_symbols", .arr (s.weakUndefinedSymbols.map fun u => u.toDict.toJson)),
      (str "relocation_types", counts s.relocationTypes),
      (str "tls_relocation_types", counts s.tlsRelocationTypes),
      (str "tls_relocation_count", count s.tlsRelocationCount),
      (str "ifunc_symbol_count", count s.ifuncSymbolCount),
      (str "irelative_relocation_count", count s.irelativeRelocationCount),
      (str "compatibility_requirements", s.compatibilityRequirements.toDict.toJson)]

def MissingDependency.toDict (m : MissingDependency) : Dict :=
  .ofFields [(str "from", .str m.source), (str "name", .str m.name)]

/-- `dict(requirement)` with what provides it. -/
def ProvidedSymbol.toDict (p : ProvidedSymbol) : Dict :=
  .ofFields (p.requirement.fields ++
    [(str "resolution", .str p.resolution), (str "provided_symbol", .str p.providedSymbol),
      (str "providers", strings p.providers)])

def Analysis.toDict (a : Analysis) : Dict :=
  .ofFields
    [(str "matching_policy", .str a.matchingPolicy),
      (str "providers", .arr (a.providers.map fun p => (Dict.ofFields
        [(str "path", .str p.1), (str "exported_symbol_count", count p.2)]).toJson)),
      (str "aliases", .arr (a.aliases.map fun e => (Dict.ofFields
        [(str "required", .str e.1), (str "provided", .str e.2)]).toJson)),
      (str "provided_count", count a.providedCount),
      (str "missing_count", count a.missingCount),
      (str "unresolved_weak_count", count a.unresolvedWeakCount),
      (str "provided", .arr (a.provided.map fun p => p.toDict.toJson)),
      (str "missing", .arr (a.missing.map fun u => u.toDict.toJson)),
      (str "unresolved_weak", .arr (a.unresolvedWeak.map fun u => u.toDict.toJson))]

/-- The report of `main`, with the analysis of the providers. -/
def ScanResult.inventory (r : ScanResult) (a : Analysis) : Dict :=
  .ofFields
    [(str "format", count r.format),
      (str "roots", strings r.roots),
      (str "recursive", .bool r.recursive),
      (str "objects", .arr (r.objects.map fun o => o.toDict.toJson)),
      (str "missing_dependencies", .arr (r.missingDependencies.map fun m => m.toDict.toJson)),
      (str "summary", r.summary.toDict.toJson),
      (str "provider_analysis", a.toDict.toJson)]

end MuslBsd.Scan
