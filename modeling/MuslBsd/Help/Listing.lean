import MuslBsd.Help.Comparable

/-! What `hol_sort` makes of the entries of a tree: whether the entries of a cluster stay together, and
in which order the children of an argp come. -/
namespace MuslBsd.Help
open MuslBsd.Argp
open MuslBsd.Support
open List

/-! ### Together -/

/-- What else the entries have to be like to be listed cluster by cluster: no two of one cluster
compare equal to one outside it. -/
structure Listable (so : List ℤ) (es : List HolEntry) : Prop extends Comparable so es where
  apart : ∀ x z, [x, z] <+~ es → ∀ y ∈ es, Tied x.path y.path → Tied z.path y.path →
    ∀ c, c <+: x.path → c <+: z.path → c <+: y.path

/-- What a consistent order of the help entries is, and that no cluster is listed in pieces. -/
structure HelpOrder (so : List ℤ) (es : List HolEntry) : Prop where
  antisymm : ∀ x ∈ es, ∀ y ∈ es, (holEntryCmp so x y).sign = -(holEntryCmp so y x).sign
  trans : ∀ x ∈ es, ∀ y ∈ es, ∀ z ∈ es, holEntryCmp so x y < 0 → holEntryCmp so y z < 0 →
    holEntryCmp so x z < 0
  refl : ∀ x ∈ es, holEntryCmp so x x = 0
  symm : ∀ x ∈ es, ∀ y ∈ es, holEntryCmp so x y = 0 → holEntryCmp so y x = 0
  eqTrans : ∀ x ∈ es, ∀ y ∈ es, ∀ z ∈ es, holEntryCmp so x y = 0 → holEntryCmp so y z = 0 →
    holEntryCmp so x z = 0
  compatible : ∀ x ∈ es, ∀ y ∈ es, ∀ z ∈ es, holEntryCmp so x y = 0 →
    (holEntryCmp so x z).sign = (holEntryCmp so y z).sign
  together : ∀ ys, MaySort (holEntryCmp so) es ys → ∀ c x y z, [x, y, z] <+ ys → c <+: x.path →
    c <+: z.path → c <+: y.path

theorem HelpOrder.consistent {so : List ℤ} {es : List HolEntry} (h : HelpOrder so es) :
    Consistent (holEntryCmp so) es where
  antisymm := h.antisymm
  trans x hx y hy z hz hxy hyz := by
    rcases hxy.lt_or_eq with hlt | heq
    · rcases hyz.lt_or_eq with hlt' | heq'
      · exact (h.trans x hx y hy z hz hlt hlt').le
      · have hzy := h.symm y hy z hz heq'
        have hsign := h.compatible z hz y hy x hx hzy
        have hxz := h.antisymm x hx z hz
        have hxy := h.antisymm x hx y hy
        rw [hsign, ← hxy, Int.sign_eq_neg_one_of_neg hlt] at hxz
        exact (Int.sign_eq_neg_one_iff_neg.mp hxz).le
    · have hsign := h.compatible x hx y hy z hz heq
      rw [← Int.sign_nonpos_iff, hsign, Int.sign_nonpos_iff]
      exact hyz

/-- How far apart two ways into the clusters are is seen before the end of the first one. -/
theorem pathCmp_apart {c q : List HolCluster} (h : ¬c <+: q) (a : List HolCluster) :
    pathCmp (c ++ a) q = pathCmp c q ∧ pathCmp q (c ++ a) = pathCmp q c := by
  induction c generalizing q with
  | nil => exact (h List.nil_prefix).elim
  | cons k c ih =>
    cases q with
    | nil => exact ⟨rfl, rfl⟩
    | cons k' q =>
      rw [List.cons_append, pathCmp_cons, pathCmp_cons, pathCmp_cons, pathCmp_cons]
      by_cases hk : k = k'
      · subst hk
        rw [if_pos rfl, if_pos rfl, if_pos rfl, if_pos rfl]
        exact ih fun hle => h (List.cons_prefix_cons.mpr ⟨rfl, hle⟩)
      · rw [if_neg hk, if_neg (Ne.symm hk), if_neg hk, if_neg (Ne.symm hk)]
        exact ⟨rfl, rfl⟩

/-- An entry outside a cluster stands to all entries in it alike. -/
theorem holEntryCmp_outside (so : List ℤ) {x y z : HolEntry} {c : List HolCluster}
    (hx : c <+: x.path) (hz : c <+: z.path) (hy : ¬c <+: y.path) :
    holEntryCmp so y x = holEntryCmp so y z := by
  obtain ⟨p, hxp⟩ := hx
  obtain ⟨r, hzr⟩ := hz
  cases c with
  | nil => exact (hy List.nil_prefix).elim
  | cons k c =>
    by_cases hyn : y.path = []
    · rw [(holEntryCmp_base _ hyn hxp.symm).1, (holEntryCmp_base _ hyn hzr.symm).1]
    · have hne : ∀ {w : HolEntry} {s : List HolCluster}, (k :: c) ++ s = w.path → y.path ≠ w.path := by
        intro w s hw heq
        exact hy ⟨s, hw.trans heq.symm⟩
      rw [holEntryCmp_path (by simp [hyn, ← hxp]), holEntryCmp_path (by simp [hyn, ← hzr])]
      unfold belowCmp
      rw [if_neg (hne hxp), if_neg (hne hzr), ← hxp, ← hzr, (pathCmp_apart hy p).2,
        (pathCmp_apart hy r).2]

/-- An entry compares equal to one that is in a cluster that it is outside of. -/
theorem tied_of_zero {so : List ℤ} {x y : HolEntry} {c : List HolCluster} (hxi : x.Ints) (hyi : y.Ints)
    (hx : c <+: x.path) (hy : ¬c <+: y.path) (h : holEntryCmp so y x = 0) : Tied x.path y.path := by
  have hne : x.path ≠ y.path := fun heq => hy (heq ▸ hx)
  have hxn : x.path ≠ [] := by
    intro hxn
    rw [hxn, List.prefix_nil] at hx
    exact hy (hx ▸ List.nil_prefix)
  have hyn : y.path ≠ [] := by
    intro hyn
    obtain ⟨k, p, hxp⟩ := List.exists_cons_of_ne_nil hxn
    have hk : k ∈ x.path := by
      rw [hxp]
      exact List.mem_cons_self ..
    rw [(holEntryCmp_base _ hyn hxp).1, groupCmp_eq_zero_iff hyi.1 (hxi.2 k hk)] at h
    omega
  rw [holEntryCmp_path (by simp [hxn, hyn])] at h
  unfold belowCmp at h
  rw [if_neg hne.symm, pathCmp_eq_zero_iff hyi.2 hxi.2] at h
  exact Tied.symm ⟨hyn, hxn, hne.symm, h⟩

/-- The entries are in order, and in one piece for each cluster, exactly when they are listable. -/
theorem helpOrder_iff_listable {so : List ℤ} {es : List HolEntry} (hints : ∀ e ∈ es, e.Ints) :
    HelpOrder so es ↔ Listable so es := by
  constructor
  · intro h
    have hc := h.consistent
    refine ⟨(consistent_iff hints).mp hc, fun x z hxz y hy hxy hzy c hcx hcz => ?_⟩
    have hx : x ∈ es := hxz.subset (by simp)
    have hz : z ∈ es := hxz.subset (by simp)
    have hxy0 := hxy.cmp so (hints x hx) (hints y hy)
    have hyz0 := hzy.symm.cmp so (hints y hy) (hints z hz)
    have hyx : y ≠ x := fun heq => hxy.2.2.1 (heq ▸ rfl)
    have hyz : y ≠ z := fun heq => hzy.2.2.1 (heq ▸ rfl)
    have hsub : [x, y, z] <+~ es := by
      have hcons : [y, x, z] <+~ es :=
        List.cons_subperm_of_not_mem_of_mem (by simp [hyx, hyz]) hy hxz
      exact (List.Perm.swap x y [z]).symm.subperm.trans hcons
    obtain ⟨ys, hys, hthree⟩ := @exists_maySort _ (holEntryCmp so) es [x, y, z]
      (fun _ => by
        have hxz0 := hc.trans x hx y hy z hz hxy0.le hyz0.le
        simp [hxy0.le, hyz0.le, hxz0]) hsub
    exact h.together ys hys c x y z hthree hcx hcz
  · intro h
    have hc := (consistent_iff hints).mpr h.toComparable
    refine ⟨hc.antisymm, fun x hx y hy z hz => hc.lt_trans hx hy hz, fun x hx => hc.self hx,
      fun x hx y hy => (hc.eq_iff hx hy).mp, fun x hx y hy z hz hxy hyz => ?_,
      fun x hx y hy z hz => hc.sign_congr hx hy hz, fun ys hys c x y z hthree hcx hcz => ?_⟩
    · have hsign := hc.sign_congr hx hy hz hxy
      rwa [hyz, Int.sign_zero, Int.sign_eq_zero_iff_zero] at hsign
    · obtain ⟨hperm, hsorted⟩ := hys
      have hx : x ∈ es := hperm.subset (hthree.subset (by simp))
      have hy : y ∈ es := hperm.subset (hthree.subset (by simp))
      have hz : z ∈ es := hperm.subset (hthree.subset (by simp))
      have hpair := (hsorted hc).sublist hthree
      rw [List.pairwise_cons, List.pairwise_cons] at hpair
      have hxy := hpair.1 y (by simp)
      have hyz := hpair.2.1 z (by simp)
      have htwo : [x, z] <+~ es := by
        have hsub : [x, z] <+ [x, y, z] := by simp
        exact (hsub.trans hthree).subperm.trans hperm.subperm
      by_contra hcy
      rw [← holEntryCmp_outside so hcx hcz hcy] at hyz
      have hyx0 : holEntryCmp so y x = 0 := by
        have hle := hc.le_iff hx hy
        omega
      have hyz0 := holEntryCmp_outside so hcx hcz hcy
      exact hcy (h.apart x z htwo y hy (tied_of_zero (hints x hx) (hints y hy) hcx hcy hyx0)
        (tied_of_zero (hints z hz) (hints y hy) hcz hcy (hyz0 ▸ hyx0)) c hcx hcz)

/-! ### The groups of a tree -/

section

variable {π : Type}

mutual

/-- The group numbers that a tree gives. -/
def HelpArgp.groups : HelpArgp π → List ℤ
  | .node options _ _ children =>
    (match options with
      | none => []
      | some array => array.entries.map ArgpOption.group) ++ children.groups

def HelpChildren.groups : HelpChildren π → List ℤ
  | .nil => []
  | .cons child _ group children => group :: (child.groups ++ children.groups)

end

theorem isInt_entryGroup {group : ℤ} {o : ArgpOption} (h : IsInt group) (ho : IsInt o.group) :
    IsInt (entryGroup group o) := by
  unfold entryGroup
  split_ifs
  · exact ho
  · exact isInt_wrapInt _
  · exact h

theorem fillEntries_ints (array : OptionArray) (cluster : ClusterPtr) (argp : List ℕ) :
    ∀ (runs : List (List ArgpOption)) (opt : ℕ) (group : ℤ) (so : List ℤ), IsInt group →
      (∀ o ∈ runs.flatten, IsInt o.group) →
      ∀ e ∈ (fillEntries array cluster argp opt group so runs).entries,
        IsInt e.group ∧ e.cluster = cluster ∧ e.argp = argp
  | [], _, _, _, _, _, e, he => by cases he
  | options :: runs, opt, group, so, hgroup, hruns, e, he => by
    have hfirst : IsInt ((options.head?.map (entryGroup group)).getD group) := by
      cases options with
      | nil => exact hgroup
      | cons o options => exact isInt_entryGroup hgroup (hruns o (by simp))
    unfold fillEntries at he
    rcases List.mem_cons.mp he with rfl | he
    · exact ⟨hfirst, rfl, rfl⟩
    · exact fillEntries_ints array cluster argp runs _ _ _ hfirst
        (fun o ho => hruns o (List.mem_append_right _ ho)) e he

theorem ownEntries_ints {options : Option OptionArray} {cluster : ClusterPtr} {argp : List ℕ}
    (h : ∀ array ∈ options, ∀ o ∈ array.entries, IsInt o.group) :
    ∀ e ∈ ownEntries options cluster argp, IsInt e.group ∧ e.cluster = cluster ∧ e.argp = argp := by
  intro e he
  cases options with
  | none => cases he
  | some array =>
    obtain ⟨e', he', rfl⟩ := List.mem_map.mp he
    have hruns : (withAliases array.entries).flatten = array.entries := List.flatten_splitBy ..
    exact fillEntries_ints array cluster argp _ 0 0 [] (by unfold IsInt; omega)
      (fun o ho => h array rfl o (hruns ▸ ho)) e' he'

mutual

theorem helpEntries_ints : ∀ (a : HelpArgp π) (cluster : ClusterPtr) (argp : List ℕ),
    (∀ g ∈ a.groups, IsInt g) → (∀ k ∈ cluster, IsInt k.group) →
    ∀ e ∈ helpEntries a cluster argp, IsInt e.group ∧ ∀ k ∈ e.cluster, IsInt k.group
  | .node options parser argsDoc children, cluster, argp, hgroups, hcluster, e, he => by
    unfold HelpArgp.groups at hgroups
    unfold helpEntries at he
    rcases List.mem_append.mp he with hown | hchild
    · have hoptions : ∀ array ∈ options, ∀ o ∈ array.entries, IsInt o.group := by
        intro array harray o ho
        rw [Option.mem_def] at harray
        subst harray
        exact hgroups _ (List.mem_append_left _ (List.mem_map_of_mem ho))
      obtain ⟨hgroup, hcl, -⟩ := ownEntries_ints hoptions e hown
      exact ⟨hgroup, hcl ▸ hcluster⟩
    · exact childEntries_ints children cluster argp 0
        (fun g hg => hgroups g (List.mem_append_right _ hg)) hcluster e hchild

theorem childEntries_ints : ∀ (children : HelpChildren π) (cluster : ClusterPtr) (argp : List ℕ)
    (k : ℕ), (∀ g ∈ children.groups, IsInt g) → (∀ k ∈ cluster, IsInt k.group) →
    ∀ e ∈ childEntries children cluster argp k, IsInt e.group ∧ ∀ k ∈ e.cluster, IsInt k.group
  | .nil, _, _, _, _, _, e, he => by cases he
  | .cons child header group children, cluster, argp, k, hgroups, hcluster, e, he => by
    unfold HelpChildren.groups at hgroups
    unfold childEntries at he
    rcases List.mem_append.mp he with hfirst | hrest
    · refine helpEntries_ints child _ _
        (fun g hg => hgroups g (List.mem_cons_of_mem _ (List.mem_append_left _ hg))) ?_ e hfirst
      intro k' hk'
      unfold childCluster at hk'
      split at hk'
      · rcases List.mem_cons.mp hk' with rfl | hk'
        · exact hgroups _ (List.mem_cons_self ..)
        · exact hcluster k' hk'
      · exact hcluster k' hk'
    · exact childEntries_ints children cluster argp (k + 1)
        (fun g hg => hgroups g (List.mem_cons_of_mem _ (List.mem_append_right _ hg))) hcluster e hrest

end

/-- The entries of a hol are those of the tree, but for their places in the string and the groups
that some were given later. -/
theorem putLast_entries {a : HelpArgp π} {hol : Hol} (h : argpHol a [] [] = some hol)
    (names : List CStr) : ∀ e ∈ (putLast names hol).entries,
      ∃ e' ∈ helpEntries a [] [], e.cluster = e'.cluster ∧ e.argp = e'.argp ∧
        (e.group = e'.group ∨ e.group = -1) := by
  have hset : ∀ (name : CStr) (es : List HolEntry), ∀ e ∈ setGroup name (-1) es,
      ∃ e' ∈ es, e.cluster = e'.cluster ∧ e.argp = e'.argp ∧ (e.group = e'.group ∨ e.group = -1) := by
    intro name es
    induction es with
    | nil => simp [setGroup]
    | cons e₀ es ih =>
      intro e he
      unfold setGroup at he
      split at he
      · rcases List.mem_cons.mp he with rfl | he
        · exact ⟨e₀, List.mem_cons_self .., rfl, rfl, .inr rfl⟩
        · exact ⟨e, List.mem_cons_of_mem _ he, rfl, rfl, .inl rfl⟩
      · rcases List.mem_cons.mp he with rfl | he
        · exact ⟨e, List.mem_cons_self .., rfl, rfl, .inl rfl⟩
        · obtain ⟨e', he', hsame⟩ := ih e he
          exact ⟨e', List.mem_cons_of_mem _ he', hsame⟩
  have hall : ∀ (names : List CStr) (hol : Hol), ∀ e ∈ (putLast names hol).entries,
      ∃ e' ∈ hol.entries, e.cluster = e'.cluster ∧ e.argp = e'.argp ∧
        (e.group = e'.group ∨ e.group = -1) := by
    intro names
    induction names with
    | nil => exact fun hol e he => ⟨e, he, rfl, rfl, .inl rfl⟩
    | cons name names ih =>
      intro hol e he
      obtain ⟨e₁, he₁, hcl₁, hargp₁, hgroup₁⟩ := ih (holSetGroup hol name (-1)) e he
      obtain ⟨e₂, he₂, hcl₂, hargp₂, hgroup₂⟩ := hset name hol.entries e₁ he₁
      refine ⟨e₂, he₂, hcl₁.trans hcl₂, hargp₁.trans hargp₂, ?_⟩
      rcases hgroup₁ with hsame | hlast
      · rw [hsame]
        exact hgroup₂
      · exact .inr hlast
  intro e he
  obtain ⟨e', he', hsame⟩ := hall names hol e he
  refine ⟨e'.bare, ?_, hsame⟩
  rw [← (argpHol_recorded a [] [] hol h).2]
  exact List.mem_map_of_mem he'

theorem putLast_ints {a : HelpArgp π} {hol : Hol} (h : argpHol a [] [] = some hol)
    (hgroups : ∀ g ∈ a.groups, IsInt g) (names : List CStr) :
    ∀ e ∈ (putLast names hol).entries, e.Ints := by
  intro e he
  obtain ⟨e', he', hcl, -, hgroup⟩ := putLast_entries h names e he
  obtain ⟨hint, hclusters⟩ :=
    helpEntries_ints a [] [] hgroups (fun k hk => (by cases hk)) e' he'
  constructor
  · rcases hgroup with hsame | hlast
    · exact hsame ▸ hint
    · rw [hlast]
      unfold IsInt
      omega
  · intro k hk
    unfold HolEntry.path at hk
    rw [hcl, List.mem_reverse] at hk
    exact hclusters k hk

/-- The order of the help entries of a tree, also with some options put last. -/
theorem helpOrder_iff {a : HelpArgp π} {hol : Hol} (h : argpHol a [] [] = some hol)
    (hgroups : ∀ g ∈ a.groups, IsInt g) (names : List CStr) :
    HelpOrder hol.shortOptions (putLast names hol).entries ↔
      Listable hol.shortOptions (putLast names hol).entries :=
  helpOrder_iff_listable (putLast_ints h hgroups names)

end

theorem helpCd_ordered : ∃ hol, argpHol helpCd [] [] = some hol ∧
    HelpOrder hol.shortOptions (putLast [[⟨104, by decide⟩]] hol).entries := by
  have hhol : argpHol helpCd [] [] = some ((argpHol helpCd [] []).getD ⟨[], []⟩) := rfl
  have hgroups : ∀ g ∈ helpCd.groups, IsInt g := by
    unfold IsInt
    decide
  refine ⟨_, hhol, (helpOrder_iff hhol hgroups _).mpr ?_⟩
  have hints := putLast_ints hhol hgroups [[⟨104, by decide⟩]]
  have hpaths : ∀ x ∈ (putLast [[⟨104, by decide⟩]] ((argpHol helpCd [] []).getD ⟨[], []⟩)).entries,
      ∀ y ∈ (putLast [[⟨104, by decide⟩]] ((argpHol helpCd [] []).getD ⟨[], []⟩)).entries,
      x.path = [] ∨ y.path = [] ∨ x.path = y.path := by decide
  refine ⟨(consistent_iff hints).mp ⟨by decide, by decide⟩, fun x z hxz y hy hxy => ?_⟩
  have hx := hxz.subset (List.mem_cons_self (a := x) (l := [z]))
  rcases hpaths x hx y hy with hnil | hnil | hsame
  · exact (hxy.1 hnil).elim
  · exact (hxy.2.1 hnil).elim
  · exact (hxy.2.2.1 hsame).elim

/-- An argp with `-a`, `--aa` and `--ab`. -/
def helpNames : HelpArgp Unit :=
  .node (some ⟨1, [⟨none, 97, none, 0, none, 0⟩,
    ⟨some [letterA, letterA], 256, none, 0, none, 0⟩,
    ⟨some [letterA, letterB], 257, none, 0, none, 0⟩], by decide⟩) (some ()) none .nil

/-- Both long options compare equal to the short one, but not to each other. -/
theorem helpNames_unordered : ∃ hol, argpHol helpNames [] [] = some hol ∧
    ¬HelpOrder hol.shortOptions hol.entries := by
  refine ⟨(argpHol helpNames [] []).getD ⟨[], []⟩, rfl, fun h => ?_⟩
  obtain ⟨x, hx, y, hy, z, hz, hxy, hyz, hxz⟩ :
      ∃ x ∈ ((argpHol helpNames [] []).getD ⟨[], []⟩).entries,
        ∃ y ∈ ((argpHol helpNames [] []).getD ⟨[], []⟩).entries,
        ∃ z ∈ ((argpHol helpNames [] []).getD ⟨[], []⟩).entries,
        holEntryCmp [97] x y = 0 ∧ holEntryCmp [97] y z = 0 ∧ holEntryCmp [97] x z ≠ 0 := by decide
  exact hxz (h.eqTrans x hx y hy z hz hxy hyz)

end MuslBsd.Help
