import MuslBsd.Help.Listing

/-! In which order `hol_sort` lists the children of an argp that have clusters of their own. -/
namespace MuslBsd.Help
open MuslBsd.Argp
open MuslBsd.Support
open List

variable {π : Type}

/-! ### Children in the tree -/

/-- A child of an argp: its argp, header and group. -/
structure Child (π : Type) where
  argp : HelpArgp π
  header : Option CStr
  group : ℤ

/-- The child has a cluster of its own. -/
def Child.Clustered (c : Child π) : Prop := c.group ≠ 0 ∨ c.header.isSome

def HelpChildren.child : HelpChildren π → ℕ → Option (Child π)
  | .nil, _ => none
  | .cons argp header group _, 0 => some ⟨argp, header, group⟩
  | .cons _ _ _ children, k + 1 => children.child k

def HelpArgp.children : HelpArgp π → HelpChildren π
  | .node _ _ _ children => children

/-- The argp at a place of the tree. -/
def HelpArgp.at : HelpArgp π → List ℕ → Option (HelpArgp π)
  | a, [] => some a
  | a, k :: place => (a.children.child k).bind fun c => c.argp.at place

/-- The cluster that the options of the argp at a place are in, where `cluster` is that of the tree,
which is at `argp` itself. -/
def HelpArgp.clusterAt : HelpArgp π → ClusterPtr → List ℕ → List ℕ → ClusterPtr
  | _, cluster, _, [] => cluster
  | a, cluster, argp, k :: place =>
    match a.children.child k with
    | none => cluster
    | some c =>
      c.argp.clusterAt (childCluster c.header c.group cluster argp k) (argp ++ [k]) place

theorem fillEntries_argp (array : OptionArray) (cluster : ClusterPtr) (argp : List ℕ) :
    ∀ (runs : List (List ArgpOption)) (opt : ℕ) (group : ℤ) (so : List ℤ),
      ∀ e ∈ (fillEntries array cluster argp opt group so runs).entries,
        e.cluster = cluster ∧ e.argp = argp
  | [], _, _, _, e, he => by cases he
  | options :: runs, opt, group, so, e, he => by
    unfold fillEntries at he
    rcases List.mem_cons.mp he with rfl | he
    · exact ⟨rfl, rfl⟩
    · exact fillEntries_argp array cluster argp runs _ _ _ e he

theorem ownEntries_argp {options : Option OptionArray} {cluster : ClusterPtr} {argp : List ℕ} :
    ∀ e ∈ ownEntries options cluster argp, e.cluster = cluster ∧ e.argp = argp := by
  intro e he
  cases options with
  | none => cases he
  | some array =>
    obtain ⟨e', he', rfl⟩ := List.mem_map.mp he
    exact fillEntries_argp array cluster argp _ 0 0 [] e' he'

theorem suffix_childCluster (header : Option CStr) (group : ℤ) (cluster : ClusterPtr)
    (argp : List ℕ) (k : ℕ) : cluster <:+ childCluster header group cluster argp k := by
  unfold childCluster
  split
  · exact List.suffix_cons _ cluster
  · exact List.suffix_rfl

mutual

/-- The entries of a tree are in its cluster and from its argps. -/
theorem helpEntries_under : ∀ (a : HelpArgp π) (cluster : ClusterPtr) (argp : List ℕ),
    ∀ e ∈ helpEntries a cluster argp, cluster <:+ e.cluster ∧ argp <+: e.argp
  | .node options parser argsDoc children, cluster, argp, e, he => by
    unfold helpEntries at he
    rcases List.mem_append.mp he with hown | hchild
    · obtain ⟨hcl, hargp⟩ := ownEntries_argp e hown
      rw [hcl, hargp]
      exact ⟨List.suffix_rfl, List.prefix_rfl⟩
    · obtain ⟨j, c, -, hj, -, hcl⟩ := childEntries_under children cluster argp 0 e hchild
      exact ⟨hcl, (List.prefix_append argp [0 + j]).trans hj⟩

/-- An entry from below the children is from one of them. -/
theorem childEntries_under : ∀ (children : HelpChildren π) (cluster : ClusterPtr) (argp : List ℕ)
    (k : ℕ), ∀ e ∈ childEntries children cluster argp k, ∃ j c, children.child j = some c ∧
      argp ++ [k + j] <+: e.argp ∧
      e ∈ helpEntries c.argp (childCluster c.header c.group cluster argp (k + j)) (argp ++ [k + j]) ∧
      cluster <:+ e.cluster
  | .nil, _, _, _, e, he => by cases he
  | .cons child header group children, cluster, argp, k, e, he => by
    unfold childEntries at he
    rcases List.mem_append.mp he with hfirst | hrest
    · obtain ⟨hcl, hargp⟩ := helpEntries_under child _ _ e hfirst
      exact ⟨0, ⟨child, header, group⟩, rfl, hargp, hfirst, (suffix_childCluster ..).trans hcl⟩
    · obtain ⟨j, c, hj, hargp, hmem, hcl⟩ := childEntries_under children cluster argp (k + 1) e hrest
      rw [show k + 1 + j = k + (j + 1) by omega] at hargp hmem
      exact ⟨j + 1, c, hj, hargp, hmem, hcl⟩

end

theorem prefix_snoc_inj {p q : List ℕ} {i j : ℕ} (hi : p ++ [i] <+: q) (hj : p ++ [j] <+: q) :
    i = j := by
  have hlen : (p ++ [i]).length = (p ++ [j]).length := by simp
  have hle := List.prefix_of_prefix_length_le hi hj hlen.le
  have heq := hle.eq_of_length hlen
  simpa using heq

theorem not_snoc_isPrefix (p : List ℕ) (k : ℕ) : ¬p ++ [k] <+: p := by
  intro h
  have hlen := h.length_le
  rw [List.length_append, List.length_singleton] at hlen
  omega

/-- The entries from below a place are those of the argp there, in the cluster that it is in. -/
theorem helpEntries_at (place : List ℕ) (a b : HelpArgp π) (cluster : ClusterPtr) (argp : List ℕ)
    (hat : a.at place = some b) {e : HolEntry} (he : e ∈ helpEntries a cluster argp)
    (hplace : argp ++ place <+: e.argp) :
    e ∈ helpEntries b (a.clusterAt cluster argp place) (argp ++ place) := by
  induction place generalizing a cluster argp with
  | nil =>
    cases hat
    rw [List.append_nil]
    exact he
  | cons k place ih =>
    obtain ⟨c, hc, hrest⟩ := Option.bind_eq_some_iff.mp hat
    have hassoc : argp ++ k :: place = argp ++ [k] ++ place := by
      rw [List.append_assoc]
      rfl
    rw [hassoc] at hplace ⊢
    have hk : argp ++ [k] <+: e.argp := (List.prefix_append _ place).trans hplace
    unfold HelpArgp.clusterAt
    rw [hc]
    obtain ⟨options, parser, argsDoc, children⟩ := a
    unfold helpEntries at he
    rcases List.mem_append.mp he with hown | hchild
    · rw [(ownEntries_argp e hown).2] at hk
      exact (not_snoc_isPrefix argp k hk).elim
    · obtain ⟨j, c', hj, hargp, hmem, -⟩ := childEntries_under children cluster argp 0 e hchild
      rw [Nat.zero_add] at hargp hmem
      have hjk := prefix_snoc_inj hargp hk
      subst hjk
      have hcc : c = c' := Option.some.inj (hc.symm.trans hj)
      subst hcc
      exact ih c.argp _ _ hrest hmem hplace

/-- The entries of a child with a cluster of its own are in this cluster. -/
theorem child_path {a b : HelpArgp π} {hol : Hol} (h : argpHol a [] [] = some hol)
    {place : List ℕ} (hat : a.at place = some b) {k : ℕ} {c : Child π}
    (hc : b.children.child k = some c) (hown : c.Clustered) (names : List CStr) {e : HolEntry}
    (he : e ∈ (putLast names hol).entries) (hplace : place ++ [k] <+: e.argp) :
    (a.clusterAt [] [] place).reverse ++ [⟨place ++ [k], c.header, k, c.group⟩] <+: e.path := by
  obtain ⟨e', he', hcl, hargp, -⟩ := putLast_entries h names e he
  rw [hargp] at hplace
  have hunder := helpEntries_at place a b [] [] hat he'
    ((List.prefix_append place [k]).trans hplace)
  obtain ⟨options, parser, argsDoc, children⟩ := b
  rw [List.nil_append] at hunder
  unfold helpEntries at hunder
  rcases List.mem_append.mp hunder with hbad | hchild
  · rw [(ownEntries_argp e' hbad).2] at hplace
    exact (not_snoc_isPrefix place k hplace).elim
  · obtain ⟨j, c', hj, hargp', hmem, -⟩ := childEntries_under children _ place 0 e' hchild
    rw [Nat.zero_add] at hargp' hmem
    have hjk := prefix_snoc_inj hargp' hplace
    subst hjk
    have hcc : c = c' := Option.some.inj (hc.symm.trans hj)
    subst hcc
    have hsuffix := (helpEntries_under c.argp _ _ e' hmem).1
    unfold Child.Clustered at hown
    unfold childCluster at hsuffix
    rw [if_pos hown] at hsuffix
    unfold HolEntry.path
    rw [hcl, ← List.reverse_cons]
    exact List.reverse_prefix.mpr hsuffix

/-! ### The order of two children -/

/-- The order of the groups: 0, 1, and so on, then the negative ones up to -1. -/
def GroupBefore (g g' : ℤ) : Prop := 0 ≤ g ∧ g' < 0 ∨ (0 ≤ g ↔ 0 ≤ g') ∧ g < g'

/-- No entry from below the second place stands in front of one from below the first. -/
def Precedes (q q' : List ℕ) (es : List HolEntry) : Prop :=
  ∀ x y, [x, y] <+ es → q' <+: x.argp → ¬q <+: y.argp

/-- The entries of two children, the `i`-th and a later one of the argp at this place, come in the
order of their groups, and in that of the children for equal groups. -/
def InChildOrder (place : List ℕ) (i j : ℕ) (g g' : ℤ) (es : List HolEntry) : Prop :=
  (g = g' ∨ GroupBefore g g' → Precedes (place ++ [i]) (place ++ [j]) es) ∧
  (GroupBefore g' g → Precedes (place ++ [j]) (place ++ [i]) es)

theorem groupBefore_iff {g g' : ℤ} (hg : IsInt g) (hg' : IsInt g') (hdiff : |g - g'| < 2 ^ 31) :
    GroupBefore g g' ↔ groupRank g < groupRank g' := by
  unfold GroupBefore groupRank
  unfold IsInt at hg hg'
  rw [abs_lt] at hdiff
  split_ifs <;> omega

/-- Otherwise the differences of the groups overflow, and order them the other way. -/
theorem groupBefore_overflow {g g' : ℤ} (hg : IsInt g) (hg' : IsInt g') (hdiff : ¬|g - g'| < 2 ^ 31)
    (hfar : ¬FarApart g g') : GroupBefore g g' ↔ groupRank g' < groupRank g := by
  unfold GroupBefore groupRank
  unfold IsInt at hg hg'
  unfold FarApart at hfar
  rw [abs_lt] at hdiff
  split_ifs <;> omega

theorem groupBefore_trichotomy (g g' : ℤ) : g = g' ∨ GroupBefore g g' ∨ GroupBefore g' g := by
  unfold GroupBefore
  omega

section

variable {a b : HelpArgp π} {hol : Hol} {place : List ℕ} {i j : ℕ} {c c' : Child π}

/-- Two children are compared by their groups, and the later one comes first for equal groups. -/
theorem child_cmp (h : argpHol a [] [] = some hol) (hat : a.at place = some b) (hij : i ≠ j)
    (hc : b.children.child i = some c) (hc' : b.children.child j = some c') (hown : c.Clustered)
    (hown' : c'.Clustered) (names : List CStr) {x y : HolEntry}
    (hx : x ∈ (putLast names hol).entries) (hy : y ∈ (putLast names hol).entries)
    (hxi : place ++ [i] <+: x.argp) (hyj : place ++ [j] <+: y.argp) :
    holEntryCmp hol.shortOptions x y = groupCmp c.group c'.group (j - i) ∧
      GroupsCompared x y c.group c'.group := by
  have hxp := child_path h hat hc hown names hx hxi
  have hyp := child_path h hat hc' hown' names hy hyj
  refine ⟨(holEntryCmp_beside (fun heq => ?_) hxp hyp), .clusters hxp hyp⟩
  have hindex : (i : ℤ) = j := congrArg HolCluster.index heq
  omega

theorem mem_groups {cs : HelpChildren π} {k : ℕ} {c : Child π} (h : cs.child k = some c) :
    c.group ∈ cs.groups ∧ c.argp.groups ⊆ cs.groups := by
  induction k generalizing cs with
  | zero =>
    cases cs with
    | nil => cases h
    | cons child header group cs =>
      cases h
      unfold HelpChildren.groups
      exact ⟨List.mem_cons_self .., fun g hg => List.mem_cons_of_mem _ (List.mem_append_left _ hg)⟩
  | succ k ih =>
    cases cs with
    | nil => cases h
    | cons child header group cs =>
      obtain ⟨hgroup, hargp⟩ := @ih cs h
      unfold HelpChildren.groups
      exact ⟨List.mem_cons_of_mem _ (List.mem_append_right _ hgroup),
        fun g hg => List.mem_cons_of_mem _ (List.mem_append_right _ (hargp hg))⟩

theorem at_groups {a b : HelpArgp π} {place : List ℕ} (h : a.at place = some b) :
    b.children.groups ⊆ a.groups := by
  induction place generalizing a with
  | nil =>
    cases h
    obtain ⟨options, parser, argsDoc, children⟩ := b
    exact fun g hg => List.mem_append_right _ hg
  | cons k place ih =>
    obtain ⟨c, hc, hrest⟩ := Option.bind_eq_some_iff.mp h
    obtain ⟨options, parser, argsDoc, children⟩ := a
    exact fun g hg => List.mem_append_right _ ((mem_groups hc).2 (ih hrest hg))

/-- The children are listed in the order that is documented if and only if one of the two shows
nothing, or the entries can be sorted and the groups differ by an amount that is an `int`. -/
theorem childOrder_iff (h : argpHol a [] [] = some hol) (hgroups : ∀ g ∈ a.groups, IsInt g)
    (names : List CStr) (hat : a.at place = some b) (hij : i < j)
    (hc : b.children.child i = some c) (hc' : b.children.child j = some c') (hown : c.Clustered)
    (hown' : c'.Clustered) :
    (∀ hol', HolSort (putLast names hol) hol' →
      InChildOrder place i j c.group c'.group hol'.entries) ↔
    (∀ e ∈ (putLast names hol).entries, ¬place ++ [i] <+: e.argp) ∨
    (∀ e ∈ (putLast names hol).entries, ¬place ++ [j] <+: e.argp) ∨
    Comparable hol.shortOptions (putLast names hol).entries ∧ c.group ≠ c'.group ∧
      |c.group - c'.group| < 2 ^ 31 := by
  have hints := putLast_ints h hgroups names
  have hstring := (putLast_segment names hol).2
  have hgi : IsInt c.group := hgroups _ (at_groups hat (mem_groups hc).1)
  have hgj : IsInt c'.group := hgroups _ (at_groups hat (mem_groups hc').1)
  have hcmp := @child_cmp π a b hol place i j c c' h hat hij.ne hc hc' hown hown' names
  have hback := @child_cmp π a b hol place j i c' c h hat hij.ne' hc' hc hown' hown names
  constructor
  · intro horder
    by_contra hno
    push Not at hno
    obtain ⟨⟨x, hx, hxi⟩, ⟨y, hy, hyj⟩, hno⟩ := hno
    obtain ⟨hxy, hcompared⟩ := hcmp hx hy hxi hyj
    obtain ⟨hyx, -⟩ := hback hy hx hyj hxi
    have hne : x ≠ y := by
      rintro rfl
      exact hij.ne (prefix_snoc_inj hxi hyj)
    -- what may come out first is in front for some outcome
    have hout : ∀ u v : HolEntry, u ∈ (putLast names hol).entries → v ∈ (putLast names hol).entries →
        u ≠ v → (Comparable hol.shortOptions (putLast names hol).entries →
          holEntryCmp hol.shortOptions u v ≤ 0) →
        ∃ hol', HolSort (putLast names hol) hol' ∧ [u, v] <+ hol'.entries := by
      intro u v hu hv huv hle
      have hsub : [u, v] <+~ (putLast names hol).entries := by
        apply List.subperm_of_subset
        · simp [huv]
        · simp [hu, hv]
      obtain ⟨es, hes, hes'⟩ := @exists_maySort _ (holEntryCmp hol.shortOptions) _ [u, v]
        (fun hc => by simp [hle ((consistent_iff hints).mp hc)]) hsub
      exact ⟨⟨es, hol.shortOptions⟩, ⟨hstring.symm ▸ hes, hstring.symm⟩, hes'⟩
    have hxfirst : (c.group = c'.group ∨ GroupBefore c.group c'.group) →
        Comparable hol.shortOptions (putLast names hol).entries ∧
          0 < holEntryCmp hol.shortOptions y x := by
      intro hbefore
      by_contra hbad
      push Not at hbad
      obtain ⟨hol', hsort, htwo⟩ := hout y x hy hx hne.symm hbad
      exact (horder hol' hsort).1 hbefore y x htwo hyj hxi
    have hyfirst : GroupBefore c'.group c.group →
        Comparable hol.shortOptions (putLast names hol).entries ∧
          0 < holEntryCmp hol.shortOptions x y := by
      intro hbefore
      by_contra hbad
      push Not at hbad
      obtain ⟨hol', hsort, htwo⟩ := hout x y hx hy hne hbad
      exact (horder hol' hsort).2 hbefore x y htwo hxi hyj
    have hcomparable : Comparable hol.shortOptions (putLast names hol).entries := by
      rcases groupBefore_trichotomy c.group c'.group with heq | hbefore | hbefore
      · exact (hxfirst (.inl heq)).1
      · exact (hxfirst (.inr hbefore)).1
      · exact (hyfirst hbefore).1
    have hfar := hcomparable.groups x hx y hy _ _ hcompared
    have hfar' : ¬FarApart c'.group c.group := fun hbad => hfar hbad.symm
    rw [hyx] at hxfirst
    rw [hxy] at hyfirst
    have hneg := groupCmp_neg_iff hgi hgj hfar (j - i)
    have hneg' := groupCmp_neg_iff hgj hgi hfar' (i - j)
    by_cases heq : c.group = c'.group
    · have hpos := (hxfirst (.inl heq)).2
      have hlt := hneg'.mpr (.inr ⟨heq.symm, by omega⟩)
      omega
    · have hdiff := hno hcomparable heq
      have hover : ¬|c.group - c'.group| < 2 ^ 31 := by omega
      have hover' : ¬|c'.group - c.group| < 2 ^ 31 := by
        rw [abs_sub_comm]
        exact hover
      rcases (groupBefore_trichotomy c.group c'.group).resolve_left heq with hbefore | hbefore
      · have hpos := (hxfirst (.inr hbefore)).2
        have hlt := hneg'.mpr (.inl ((groupBefore_overflow hgi hgj hover hfar).mp hbefore))
        omega
      · have hpos := (hyfirst hbefore).2
        have hlt := hneg.mpr (.inl ((groupBefore_overflow hgj hgi hover' hfar').mp hbefore))
        omega
  · intro hcond hol' hsort
    obtain ⟨⟨hperm, hsorted⟩, -⟩ := hsort
    rw [hstring] at hsorted
    -- an entry of each child, and one in front of the other
    have hmem : ∀ {u v : HolEntry}, [u, v] <+ hol'.entries →
        u ∈ (putLast names hol).entries ∧ v ∈ (putLast names hol).entries := by
      intro u v hsub
      exact ⟨hperm.subset (hsub.subset (by simp)), hperm.subset (hsub.subset (by simp))⟩
    rcases hcond with hnone | hnone | ⟨hcomparable, hne, hdiff⟩
    · exact ⟨fun _ u v hsub _ hvi => hnone v (hmem hsub).2 hvi,
        fun _ u v hsub hui _ => hnone u (hmem hsub).1 hui⟩
    · exact ⟨fun _ u v hsub huj _ => hnone u (hmem hsub).1 huj,
        fun _ u v hsub _ hvj => hnone v (hmem hsub).2 hvj⟩
    · have hconsistent := (consistent_iff hints).mpr hcomparable
      have hle : ∀ {u v : HolEntry}, [u, v] <+ hol'.entries → holEntryCmp hol.shortOptions u v ≤ 0 := by
        intro u v hsub
        have hpair := (hsorted hconsistent).sublist hsub
        rw [List.pairwise_cons] at hpair
        exact hpair.1 v (by simp)
      have hdiff' : |c'.group - c.group| < 2 ^ 31 := by
        rw [abs_sub_comm]
        exact hdiff
      constructor
      · intro hbefore u v hsub huj hvi
        have hrank := (groupBefore_iff hgi hgj hdiff).mp (hbefore.resolve_left hne)
        obtain ⟨hu, hv⟩ := hmem hsub
        obtain ⟨huv, hcompared⟩ := hback hu hv huj hvi
        have hfar := hcomparable.groups u hu v hv _ _ hcompared
        have hcmple := hle hsub
        rw [huv, groupCmp_le_iff hgj hgi hfar] at hcmple
        omega
      · intro hbefore u v hsub hui hvj
        have hrank := (groupBefore_iff hgj hgi hdiff').mp hbefore
        obtain ⟨hu, hv⟩ := hmem hsub
        obtain ⟨huv, hcompared⟩ := hcmp hu hv hui hvj
        have hfar := hcomparable.groups u hu v hv _ _ hcompared
        have hcmple := hle hsub
        rw [huv, groupCmp_le_iff hgi hgj hfar] at hcmple
        omega

end

/-- An argp with one short option. -/
def helpOne (key : ℤ) (h : key ≠ 0) : HelpArgp Unit :=
  .node (some ⟨key.toNat, [⟨none, key, none, 0, none, 0⟩], by simp [ArgpOption.IsEnd, h]⟩) (some ()) none
    .nil

/-- Two children with clusters of their own in these groups. -/
def helpPair (g g' : ℤ) : HelpArgp Unit :=
  .node none none none (.cons (helpOne 97 (by decide)) (some []) g
    (.cons (helpOne 98 (by decide)) (some []) g' .nil))

theorem helpPair_inOrder : ∃ hol, argpHol (helpPair 1 2) [] [] = some hol ∧
    ∀ hol', HolSort (putLast [] hol) hol' → InChildOrder [] 0 1 1 2 hol'.entries := by
  have hhol : argpHol (helpPair 1 2) [] [] =
      some ((argpHol (helpPair 1 2) [] []).getD ⟨[], []⟩) := rfl
  have hgroups : ∀ g ∈ (helpPair 1 2).groups, IsInt g := by
    unfold IsInt
    decide
  have hconsistent : Consistent
      (holEntryCmp ((argpHol (helpPair 1 2) [] []).getD ⟨[], []⟩).shortOptions)
      (putLast [] ((argpHol (helpPair 1 2) [] []).getD ⟨[], []⟩)).entries :=
    ⟨by decide, by decide⟩
  have hcomparable := (consistent_iff (putLast_ints hhol hgroups [])).mp hconsistent
  have hat : (helpPair 1 2).at [] = some (helpPair 1 2) := rfl
  have hij : 0 < 1 := by decide
  exact ⟨_, hhol, (childOrder_iff hhol hgroups [] hat hij rfl rfl (.inr rfl) (.inr rfl)).mpr
    (.inr (.inr ⟨hcomparable, by decide, by decide⟩))⟩

/-- Of two children in one group the later one comes first. -/
theorem helpPair_reversed : ∃ hol hol', argpHol (helpPair 0 0) [] [] = some hol ∧
    HolSort (putLast [] hol) hol' ∧ ¬InChildOrder [] 0 1 0 0 hol'.entries := by
  refine ⟨(argpHol (helpPair 0 0) [] []).getD ⟨[], []⟩,
    ⟨((argpHol (helpPair 0 0) [] []).getD ⟨[], []⟩).entries.reverse, [97, 98]⟩, rfl,
    ⟨⟨List.reverse_perm _, fun _ => by decide⟩, rfl⟩, fun h => ?_⟩
  obtain ⟨x, hx, y, hy, hxj, hyi⟩ : ∃ x, ((argpHol (helpPair 0 0) [] []).getD ⟨[], []⟩).entries[1]? = some x ∧
      ∃ y, ((argpHol (helpPair 0 0) [] []).getD ⟨[], []⟩).entries[0]? = some y ∧
      [1] <+: x.argp ∧ [0] <+: y.argp := ⟨_, rfl, _, rfl, by decide, by decide⟩
  have hsub : [x, y] <+ ((argpHol (helpPair 0 0) [] []).getD ⟨[], []⟩).entries.reverse := by
    cases hx
    cases hy
    exact List.Sublist.refl _
  exact h.1 (.inl rfl) x y hsub hxj hyi

end MuslBsd.Help
