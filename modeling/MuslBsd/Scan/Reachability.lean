import MuslBsd.Scan.Dependencies
import MuslBsd.Support.Worklist

/-! `scan` reports what the roots reach through `DT_NEEDED`, whatever their order. -/
namespace MuslBsd.Scan
open MuslBsd.Support
open MuslBsd.Manifest (Str str)

namespace FileSystem

variable (fs : FileSystem)

/-- Every file is one of these, and each of them is an object that decodes. -/
structure Holds (nodes : Finset Path) : Prop where
  file : ∀ p q, fs.isFile p = true → fs.resolveStrict p = some q → q ∈ nodes
  decodes : ∀ q ∈ nodes, ∃ report, value (fs.object q) = .ok report

/-- A path to one of the objects. -/
def PathTo (nodes : Finset Path) (p : Path) : Prop := ∃ q ∈ nodes, fs.resolveStrict p = some q

variable (resolver : DependencyResolver)

/-- A `DT_NEEDED` entry of `a` resolves to `b`. -/
def Needs (a b : Path) : Prop :=
  ∃ report, value (fs.object a) = .ok report ∧
    ∃ d ∈ report.needed, resolver.resolve fs d.name a report.runpath = some b

/-- The canonical path `q` is reached from one of the roots. -/
def Reachable (roots : List Path) (q : Path) : Prop :=
  ∃ root ∈ roots, ∃ p, fs.resolveStrict root = some p ∧ Relation.ReflTransGen (fs.Needs resolver) p q

/-- The report of the object `q`, with its dependencies resolved. -/
def IsReportOf (q : Path) (linked : Report) : Prop :=
  ∃ report, value (fs.object q) = .ok report ∧ linked = fs.link resolver q report

/-- The object `q` needs something that does not resolve. -/
def Misses (q : Path) (m : MissingDependency) : Prop :=
  ∃ report, value (fs.object q) = .ok report ∧
    ∃ d ∈ report.needed, resolver.resolve fs d.name q report.runpath = none ∧ m = ⟨q.toStr, d.name⟩

/-- The result is about the objects in `reached`: the report of each, once and in the order of the
paths, and all that they miss, in order. -/
structure Describes (reached : Path → Prop) (result : ScanResult) : Prop where
  objects : ∃ found : List Path, found.Pairwise (fun p q => p.key < q.key) ∧
    (∀ q, q ∈ found ↔ reached q) ∧ List.Forall₂ (fs.IsReportOf resolver) found result.objects
  sorted : result.missingDependencies.Pairwise fun m n => m.key < n.key
  missing : ∀ m, m ∈ result.missingDependencies ↔ ∃ q, reached q ∧ fs.Misses resolver q m
  summary : result.summary = Scan.summary result.objects result.missingDependencies

variable {fs resolver}

/-! ### One description has one result -/

theorem IsReportOf.unique {q : Path} {a b : Report} (ha : fs.IsReportOf resolver q a)
    (hb : fs.IsReportOf resolver q b) : a = b := by
  obtain ⟨report, hreport, rfl⟩ := ha
  obtain ⟨report', hreport', rfl⟩ := hb
  rw [hreport] at hreport'
  rw [Except.ok.inj hreport']

theorem MissingDependency.key_injective : Function.Injective MissingDependency.key := by
  rintro ⟨source, name⟩ ⟨source', name'⟩ h
  simp only [MissingDependency.key, List.cons.injEq, and_true] at h
  obtain ⟨rfl, rfl⟩ := h
  rfl

theorem forall₂_unique {α β : Type} {R : α → β → Prop} (hR : ∀ a b c, R a b → R a c → b = c)
    {as : List α} {bs cs : List β} (hb : List.Forall₂ R as bs) (hc : List.Forall₂ R as cs) :
    bs = cs := by
  induction hb generalizing cs with
  | nil =>
    cases hc
    rfl
  | cons hab _ ih =>
    cases hc with
    | cons hac hcs => rw [hR _ _ _ hab hac, ih hcs]

theorem Describes.unique {reached : Path → Prop} {a b : ScanResult}
    (ha : fs.Describes resolver reached a) (hb : fs.Describes resolver reached b) :
    a.objects = b.objects ∧ a.missingDependencies = b.missingDependencies ∧
      a.summary = b.summary := by
  obtain ⟨found, hsorted, hmem, hreports⟩ := ha.objects
  obtain ⟨found', hsorted', hmem', hreports'⟩ := hb.objects
  have hfound : found = found' := by
    apply eq_of_sorted hsorted hsorted'
    intro q
    rw [hmem, hmem']
  have hone : ∀ q a b, fs.IsReportOf resolver q a → fs.IsReportOf resolver q b → a = b :=
    fun _ _ _ => IsReportOf.unique
  have hobjects : a.objects = b.objects := by
    rw [← hfound] at hreports'
    exact forall₂_unique hone hreports hreports'
  have hmissing : a.missingDependencies = b.missingDependencies := by
    apply eq_of_sorted ha.sorted hb.sorted
    intro m
    rw [ha.missing, hb.missing]
  refine ⟨hobjects, hmissing, ?_⟩
  rw [ha.summary, hb.summary, hobjects, hmissing]

/-! ### The loop is a search -/

variable (fs resolver) in
/-- The dependencies of an object that resolve. -/
def dependencies (q : Path) : List Path :=
  match value (fs.object q) with
  | .ok report => (fs.resolved resolver q report).filterMap Prod.snd
  | .error _ => []

variable (fs) in
def canonical (p : Path) : Path := (fs.resolveStrict p).getD p

theorem mem_dependencies {a b : Path} : b ∈ fs.dependencies resolver a ↔ fs.Needs resolver a b := by
  unfold dependencies Needs
  cases value (fs.object a) with
  | error e => simp
  | ok report =>
    simp only [resolved, List.mem_filterMap, List.mem_map, Except.ok.injEq, exists_eq_left']
    constructor
    · rintro ⟨_, ⟨d, hd, rfl⟩, hb⟩
      exact ⟨d, hd, hb⟩
    · rintro ⟨d, hd, hb⟩
      exact ⟨_, ⟨d, hd, rfl⟩, hb⟩

/-- What the resolver finds is the canonical path of a file. -/
theorem resolve_spec {name : Str} {parent b : Path} {runpath : List Str}
    (h : resolver.resolve fs name parent runpath = some b) :
    ∃ p, fs.isFile p = true ∧ fs.resolveStrict p = some b := by
  unfold DependencyResolver.resolve at h
  split at h
  · simp only [Option.ite_none_right_eq_some] at h
    obtain ⟨hfile, hb⟩ := h
    obtain ⟨q, hq⟩ := fs.exists_of_isFile _ hfile
    have hbq : q = b := by
      rw [← fs.resolve_eq _ _ hq]
      exact Option.some.inj hb
    exact ⟨_, hfile, hbq ▸ hq⟩
  · obtain ⟨p, -, hp⟩ := List.exists_of_findSome?_eq_some h
    simp only [Option.ite_none_right_eq_some] at hp
    exact ⟨p, hp⟩

theorem Needs.canonical_eq {a b : Path} (h : fs.Needs resolver a b) : fs.canonical b = b := by
  obtain ⟨_, _, _, _, hb⟩ := h
  obtain ⟨p, -, hp⟩ := resolve_spec hb
  rw [canonical, fs.resolveStrict_idem p b hp]
  rfl

/-- The edges of the search are the needs. -/
theorem edge_iff {a b : Path} :
    Worklist.Edge fs.canonical (fs.dependencies resolver) a b ↔ fs.Needs resolver a b := by
  constructor
  · rintro ⟨x, hx, rfl⟩
    have hneeds := mem_dependencies.mp hx
    rw [hneeds.canonical_eq]
    exact hneeds
  · intro h
    exact ⟨b, mem_dependencies.mpr h, h.canonical_eq⟩

theorem PathTo.canonical_eq {nodes : Finset Path} {p : Path} (h : fs.PathTo nodes p) :
    fs.resolveStrict p = some (fs.canonical p) := by
  obtain ⟨q, -, hq⟩ := h
  rw [canonical, hq]
  rfl

theorem PathTo.mem {nodes : Finset Path} {p : Path} (h : fs.PathTo nodes p) :
    fs.canonical p ∈ nodes := by
  obtain ⟨q, hmem, hq⟩ := h
  rw [canonical, hq]
  exact hmem

theorem Holds.pathTo {nodes : Finset Path} (h : fs.Holds nodes) {a b : Path}
    (hab : b ∈ fs.dependencies resolver a) : fs.PathTo nodes b := by
  obtain ⟨_, _, _, _, hb⟩ := mem_dependencies.mp hab
  obtain ⟨p, hfile, hp⟩ := resolve_spec hb
  exact ⟨b, h.file p b hfile hp, fs.resolveStrict_idem p b hp⟩

theorem reaches_iff {nodes : Finset Path} {roots : List Path} {q : Path}
    (hroots : ∀ r ∈ roots, fs.PathTo nodes r) :
    Worklist.Reaches fs.canonical (fs.dependencies resolver) roots q ↔
      fs.Reachable resolver roots q := by
  have hedge : Worklist.Edge fs.canonical (fs.dependencies resolver) = fs.Needs resolver := by
    funext a b
    exact propext edge_iff
  unfold Worklist.Reaches Reachable
  rw [hedge]
  constructor
  · rintro ⟨r, hr, hp⟩
    exact ⟨r, hr, _, (hroots r hr).canonical_eq, hp⟩
  · rintro ⟨r, hr, p, hrp, hp⟩
    have hcanon : fs.canonical r = p := by rw [canonical, hrp]; rfl
    exact ⟨r, hr, hcanon ▸ hp⟩

/-- What the loop has collected is about what it has visited. -/
structure Tracks (fs : FileSystem) (resolver : DependencyResolver) (a : Collected) : Prop where
  reports : ∀ e ∈ a.reports, fs.IsReportOf resolver e.1 e.2
  missing : ∀ m, m ∈ a.missing ↔ ∃ q ∈ a.reports.map Prod.fst, fs.Misses resolver q m

theorem Tracks.nil : Tracks fs resolver ⟨[], []⟩ := ⟨by simp, by simp⟩

theorem mem_unresolved {q : Path} {report : Report} (h : value (fs.object q) = .ok report)
    {m : MissingDependency} :
    m ∈ fs.unresolved resolver q report ↔ fs.Misses resolver q m := by
  simp only [unresolved, resolved, Misses, h, List.mem_map, List.mem_filter, decide_eq_true_eq,
    Except.ok.injEq, exists_eq_left']
  constructor
  · rintro ⟨_, ⟨⟨d, hd, rfl⟩, hnone⟩, rfl⟩
    exact ⟨d, hd, hnone, rfl⟩
  · rintro ⟨d, hd, hnone, rfl⟩
    exact ⟨_, ⟨⟨d, hd, rfl⟩, hnone⟩, rfl⟩

theorem Tracks.visit {a : Collected} (h : Tracks fs resolver a) {q : Path} {report : Report}
    (hq : value (fs.object q) = .ok report) :
    Tracks fs resolver
      { reports := a.reports ++ [(q, fs.link resolver q report)]
        missing := a.missing ++ fs.unresolved resolver q report } := by
  constructor
  · intro e he
    rcases List.mem_append.mp he with he | he
    · exact h.reports e he
    · rw [List.mem_singleton.mp he]
      exact ⟨report, hq, rfl⟩
  · intro m
    rw [List.mem_append, h.missing, mem_unresolved hq]
    simp only [List.map_append, List.map_cons, List.map_nil, List.mem_append, List.mem_singleton]
    constructor
    · rintro (⟨p, hp, hm⟩ | hm)
      · exact ⟨p, .inl hp, hm⟩
      · exact ⟨q, .inr rfl, hm⟩
    · rintro ⟨p, hp | rfl, hm⟩
      · exact .inl ⟨p, hp, hm⟩
      · exact .inr hm

/-- Where the search ends the loop does, with what it has visited. -/
theorem scanLoop_search {nodes : Finset Path} (h : fs.Holds nodes) {k : ℕ} {queue : List Path}
    {a : Collected} {found : List Path} (hq : ∀ p ∈ queue, fs.PathTo nodes p)
    (ha : Tracks fs resolver a)
    (hs : Worklist.search fs.canonical (fs.dependencies resolver) k queue
      (a.reports.map Prod.fst) = some found) :
    ∃ b, value (fs.scanLoop resolver true k queue a) = .ok b ∧ Tracks fs resolver b ∧
      b.reports.map Prod.fst = found := by
  induction k generalizing queue a with
  | zero =>
    cases queue with
    | nil => exact ⟨a, rfl, ha, Option.some.inj hs⟩
    | cons p queue => cases hs
  | succ k ih =>
    cases queue with
    | nil => exact ⟨a, rfl, ha, Option.some.inj hs⟩
    | cons p queue =>
      have hp : fs.PathTo nodes p := hq p List.mem_cons_self
      have hrest : ∀ r ∈ queue, fs.PathTo nodes r := fun r hr => hq r (List.mem_cons_of_mem p hr)
      rw [Worklist.search] at hs
      rw [scanLoop, hp.canonical_eq]
      split at hs
      · rename_i hmem
        simp only [hmem, if_true]
        exact ih hrest ha hs
      · rename_i hmem
        simp only [hmem, if_false]
        obtain ⟨report, hreport⟩ := h.decodes _ hp.mem
        have hdeps : fs.dependencies resolver (fs.canonical p) =
            (fs.resolved resolver (fs.canonical p) report).filterMap Prod.snd := by
          rw [dependencies, hreport]
        have hq' : ∀ r ∈ queue ++ fs.dependencies resolver (fs.canonical p), fs.PathTo nodes r := by
          intro r hr
          rcases List.mem_append.mp hr with hr | hr
          · exact hrest r hr
          · exact h.pathTo hr
        have hs' : Worklist.search fs.canonical (fs.dependencies resolver) k
            (queue ++ fs.dependencies resolver (fs.canonical p))
            ((a.reports ++ [(fs.canonical p, fs.link resolver (fs.canonical p) report)]).map
              Prod.fst) = some found := by
          rw [List.map_append]
          exact hs
        obtain ⟨b, hb, htracks, hfound⟩ := ih hq' (ha.visit hreport) hs'
        refine ⟨b, ?_, htracks, hfound⟩
        rw [value_bind, hreport]
        simp only [Except.bind, if_true]
        rw [← hdeps]
        exact hb

/-! ### The result -/

/-- What has been collected makes a result that describes what has been visited. -/
theorem Tracks.describes {a : Collected} (h : Tracks fs resolver a)
    (hnd : (a.reports.map Prod.fst).Nodup) {reached : Path → Prop}
    (hreached : ∀ q, q ∈ a.reports.map Prod.fst ↔ reached q) (roots : List Path) :
    fs.Describes resolver reached
      (.ofReports roots true ((a.reports.insertionSort fun a b => a.1.key ≤ b.1.key).map Prod.snd)
        (sortedSet MissingDependency.key a.missing)) := by
  have hperm := List.perm_insertionSort (fun a b : Path × Report => a.1.key ≤ b.1.key) a.reports
  have hsorted := insertionSort_sorted (fun e : Path × Report => e.1.key) a.reports
  constructor
  · refine ⟨(a.reports.insertionSort fun a b => a.1.key ≤ b.1.key).map Prod.fst, ?_, ?_, ?_⟩
    · apply pairwise_lt Path.key_injective
      · exact List.pairwise_map.mpr hsorted
      · exact (hperm.map Prod.fst).nodup_iff.mpr hnd
    · intro q
      rw [(hperm.map Prod.fst).mem_iff, hreached]
    · rw [ScanResult.ofReports_objects, List.forall₂_map_left_iff, List.forall₂_map_right_iff, List.forall₂_same]
      intro e he
      exact h.reports e (hperm.mem_iff.mp he)
  · exact sortedSet_sorted MissingDependency.key_injective _
  · intro m
    rw [ScanResult.ofReports_missingDependencies, mem_sortedSet, h.missing]
    constructor
    · rintro ⟨q, hq, hm⟩
      exact ⟨q, (hreached q).mp hq, hm⟩
    · rintro ⟨q, hq, hm⟩
      exact ⟨q, (hreached q).mpr hq, hm⟩
  · rfl

theorem scanLoop_nil {recursive : Bool} {k : ℕ} {a : Collected} :
    fs.scanLoop resolver recursive k [] a = pure a := by
  cases k <;> rfl

/-- More rounds than it takes change nothing. -/
theorem scanLoop_mono {recursive : Bool} {k m : ℕ} (hkm : k ≤ m) {queue : List Path}
    {a b : Collected} (h : value (fs.scanLoop resolver recursive k queue a) = .ok b) :
    value (fs.scanLoop resolver recursive m queue a) = .ok b := by
  induction k generalizing m queue a with
  | zero =>
    cases queue with
    | nil => rw [scanLoop_nil] at h ⊢; exact h
    | cons p queue => cases h
  | succ k ih =>
    cases m with
    | zero => omega
    | succ m =>
      have hkm' : k ≤ m := by omega
      cases queue with
      | nil => rw [scanLoop_nil] at h ⊢; exact h
      | cons p queue =>
        rw [scanLoop] at h ⊢
        cases hp : fs.resolveStrict p with
        | none =>
          rw [hp] at h
          cases h
        | some q =>
          rw [hp] at h
          simp only at h ⊢
          split at h
          · rename_i hmem
            rw [if_pos hmem]
            exact ih hkm' h
          · rename_i hmem
            rw [if_neg hmem]
            obtain ⟨report, hreport, h⟩ := bind_eq_ok.mp h
            apply bind_eq_ok.mpr
            refine ⟨report, hreport, ?_⟩
            split at h
            · rename_i hrec
              rw [if_pos hrec]
              exact ih hkm' h
            · rename_i hrec
              rw [if_neg hrec]
              exact ih hkm' h

theorem scan_ends {nodes : Finset Path} (h : fs.Holds nodes) {roots : List Path}
    (hroots : ∀ r ∈ roots, fs.PathTo nodes r) (libraryPaths : List Path) :
    ∃ result, (∃ n, ∀ k ≥ n, value (fs.scan k roots libraryPaths true) = .ok result) ∧
      fs.Describes (.ofPaths fs libraryPaths) (fs.Reachable (.ofPaths fs libraryPaths) roots)
        result := by
  have hnext : ∀ q ∈ nodes, ∀ x ∈ fs.dependencies (.ofPaths fs libraryPaths) q,
      fs.canonical x ∈ nodes := fun _ _ _ hx => (h.pathTo hx).mem
  have hclosed : Worklist.Closed fs.canonical (fs.dependencies (.ofPaths fs libraryPaths)) roots [] :=
    fun _ ha => absurd ha List.not_mem_nil
  obtain ⟨found, hs, hnd, hiff⟩ := Worklist.search_reaches hnext (fun r hr => (hroots r hr).mem)
    (le_refl _) List.nodup_nil hclosed
  obtain ⟨b, hb, htracks, hfound⟩ := scanLoop_search h hroots Tracks.nil hs
  subst hfound
  have hreached : ∀ q, q ∈ b.reports.map Prod.fst ↔
      fs.Reachable (.ofPaths fs libraryPaths) roots q := by
    intro q
    rw [hiff, reaches_iff hroots]
    simp
  refine ⟨_, ⟨Worklist.potential (fs.dependencies (.ofPaths fs libraryPaths)) nodes roots [], ?_⟩,
    htracks.describes hnd hreached roots⟩
  intro k hk
  rw [scan, value_bind, scanLoop_mono hk hb]
  rfl

/-- An object that needs itself and something that is missing. -/
def needing : Bytes :=
  objectHeader 261 80 ++
  bytesOf 8 DT_NEEDED ++ bytesOf 8 1 ++ bytesOf 8 DT_NEEDED ++ bytesOf 8 3 ++
    bytesOf 8 DT_STRTAB ++ bytesOf 8 256 ++ bytesOf 8 DT_STRSZ ++ bytesOf 8 5 ++ bytesOf 16 0 ++
  [0, 0x61, 0, 0x62, 0]

theorem needing_holds : (single needing).Holds {singlePath} := by
  constructor
  · intro p q hfile hq
    have hp : p = singlePath := of_decide_eq_true hfile
    rw [hp, single_resolveStrict] at hq
    rw [← Option.some.inj hq, Finset.mem_singleton]
  · intro q hq
    have hruns : (value ((single needing).object singlePath)).toOption.isSome = true := by
      decide +kernel
    rw [Finset.mem_singleton.mp hq]
    cases hv : value ((single needing).object singlePath) with
    | error e =>
      rw [hv] at hruns
      cases hruns
    | ok report => exact ⟨report, rfl⟩

end FileSystem

end MuslBsd.Scan
