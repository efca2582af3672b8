import MuslBsd.Help.Shorts

/-! What `hol_entry_cmp` compares of groups, names and clusters. -/
namespace MuslBsd.Help
open MuslBsd.Argp
open MuslBsd.Support

/-! ### Groups -/

/-- An `int`. -/
def IsInt (g : ℤ) : Prop := -2 ^ 31 ≤ g ∧ g < 2 ^ 31

/-- The difference of the groups is the one that has no opposite. -/
def FarApart (g g' : ℤ) : Prop := g - g' = 2 ^ 31 ∨ g' - g = 2 ^ 31

/-- Where the differences that `group_cmp` computes put a group: the negative ones come after the
others as far as these do not overflow. -/
def groupRank (g : ℤ) : ℤ := if g < 0 then 2 * g + 2 ^ 32 - 1 else 2 * g

theorem groupRank_inj (g g' : ℤ) : groupRank g = groupRank g' ↔ g = g' := by
  unfold groupRank
  split <;> split <;> omega

theorem wrapInt_eq (a : ℤ) : wrapInt a = (a + 2 ^ 31) % 2 ^ 32 - 2 ^ 31 := by
  unfold wrapInt
  rw [Int.bmod_def]
  split <;> omega

theorem isInt_wrapInt (a : ℤ) : IsInt (wrapInt a) := by
  rw [wrapInt_eq]
  unfold IsInt
  omega

section

variable {g g' : ℤ} (hg : IsInt g) (hg' : IsInt g')
include hg hg'

theorem groupCmp_neg_iff (hfar : ¬FarApart g g') (eq : ℤ) :
    groupCmp g g' eq < 0 ↔ groupRank g < groupRank g' ∨ g = g' ∧ eq < 0 := by
  unfold groupCmp groupRank
  unfold IsInt at hg hg'
  unfold FarApart at hfar
  simp only [wrapInt_eq]
  split_ifs <;> omega

theorem groupCmp_eq_zero_iff (eq : ℤ) : groupCmp g g' eq = 0 ↔ g = g' ∧ eq = 0 := by
  unfold groupCmp
  unfold IsInt at hg hg'
  simp only [wrapInt_eq]
  split_ifs <;> omega

theorem groupCmp_swap {eq eq' : ℤ} (hfar : ¬FarApart g g')
    (heq : eq' = -eq) : (groupCmp g g' eq).sign = -(groupCmp g' g eq').sign := by
  have hfar' : ¬FarApart g' g := fun h => hfar h.symm
  have hneg := groupCmp_neg_iff hg hg' hfar eq
  have hneg' := groupCmp_neg_iff hg' hg hfar' eq'
  have hzero := groupCmp_eq_zero_iff hg hg' eq
  have hzero' := groupCmp_eq_zero_iff hg' hg eq'
  have hrank := groupRank_inj g g'
  apply sign_eq_neg_of
  · omega
  · omega

theorem groupCmp_far (hfar : FarApart g g') (eq : ℤ) : groupCmp g g' eq < 0 := by
  unfold groupCmp
  unfold IsInt at hg hg'
  unfold FarApart at hfar
  simp only [wrapInt_eq]
  split_ifs <;> omega

theorem groupCmp_le_iff (hfar : ¬FarApart g g') (eq : ℤ) :
    groupCmp g g' eq ≤ 0 ↔ groupRank g < groupRank g' ∨ g = g' ∧ eq ≤ 0 := by
  have hneg := groupCmp_neg_iff hg hg' hfar eq
  have hzero := groupCmp_eq_zero_iff hg hg' eq
  omega

/-- Three groups, where `eq` decides only if all are the same. -/
theorem groupCmp_trans {g'' eq eq' eq'' : ℤ} (hg'' : IsInt g'') (hfar : ¬FarApart g g')
    (hfar' : ¬FarApart g' g'') (hfar'' : ¬FarApart g g'')
    (heq : g = g' → g' = g'' → eq ≤ 0 → eq' ≤ 0 → eq'' ≤ 0) (h : groupCmp g g' eq ≤ 0)
    (h' : groupCmp g' g'' eq' ≤ 0) : groupCmp g g'' eq'' ≤ 0 := by
  rw [groupCmp_le_iff hg hg' hfar] at h
  rw [groupCmp_le_iff hg' hg'' hfar'] at h'
  rw [groupCmp_le_iff hg hg'' hfar'']
  rcases h with hlt | ⟨rfl, hle⟩
  · rcases h' with hlt' | ⟨rfl, -⟩
    · exact .inl (hlt.trans hlt')
    · exact .inl hlt
  · rcases h' with hlt' | ⟨rfl, hle'⟩
    · exact .inl hlt'
    · exact .inr ⟨rfl, heq rfl rfl hle hle'⟩

end

/-! ### Names -/

theorem toLower_pos (c : CChar) : 0 < toLower c := by
  have hne : c.val.toNat ≠ 0 := fun h => c.property (UInt8.toNat_inj.mp h)
  unfold toLower
  split <;> omega

theorem strcasecmp_swap (l r : CStr) : strcasecmp r l = -strcasecmp l r := by
  induction l generalizing r with
  | nil => cases r <;> simp [strcasecmp]
  | cons c l ih =>
    cases r with
    | nil => simp [strcasecmp]
    | cons d r =>
      unfold strcasecmp
      by_cases h : toLower c = toLower d
      · rw [if_pos h, if_pos h.symm, ih r]
      · rw [if_neg h, if_neg (Ne.symm h)]
        omega

theorem strcasecmp_trans {l m r : CStr} (hlm : strcasecmp l m ≤ 0) (hmr : strcasecmp m r ≤ 0) :
    strcasecmp l r ≤ 0 := by
  induction l generalizing m r with
  | nil =>
    cases r with
    | nil => exact Int.le_refl 0
    | cons d r =>
      have hpos := toLower_pos d
      change -toLower d ≤ 0
      omega
  | cons c l ih =>
    cases m with
    | nil =>
      have hpos := toLower_pos c
      change toLower c ≤ 0 at hlm
      omega
    | cons d m =>
      cases r with
      | nil =>
        have hpos := toLower_pos d
        change toLower d ≤ 0 at hmr
        omega
      | cons e r =>
        unfold strcasecmp at hlm hmr ⊢
        split at hlm
        · next hcd =>
          split at hmr
          · next hde =>
            rw [if_pos (hcd.trans hde)]
            exact ih hlm hmr
          · rw [if_neg (by omega)]
            omega
        · split at hmr
          · rw [if_neg (by omega)]
            omega
          · rw [if_neg (by omega)]
            omega

theorem firstCmp_swap (a b : ℤ) : firstCmp b a = -firstCmp a b := by
  unfold firstCmp
  split_ifs <;> omega

theorem firstCmp_le_iff (a b : ℤ) :
    firstCmp a b ≤ 0 ↔ lowerBit a < lowerBit b ∨ lowerBit a = lowerBit b ∧ b ≤ a := by
  unfold firstCmp
  split_ifs <;> omega

theorem firstCmp_trans {a b c : ℤ} (hab : firstCmp a b ≤ 0) (hbc : firstCmp b c ≤ 0) :
    firstCmp a c ≤ 0 := by
  rw [firstCmp_le_iff] at *
  omega

/-- The entry shows long options only. -/
def SortName.LongOnly (n : SortName) : Prop := n.short = 0 ∧ n.long.isSome

instance : DecidablePred SortName.LongOnly := fun _ => inferInstanceAs (Decidable (_ ∧ _))

/-- The comparison of two long options. -/
def longCmp (n m : SortName) : ℤ := strcasecmp (n.long.getD []) (m.long.getD [])

theorem nameCmp_eq (n m : SortName) : nameCmp n m =
    if n.doc ≠ m.doc then n.doc.toInt - m.doc.toInt
    else if n.LongOnly ∧ m.LongOnly then longCmp n m
    else firstCmp n.first m.first := by
  obtain ⟨ndoc, nshort, nlong⟩ := n
  obtain ⟨mdoc, mshort, mlong⟩ := m
  unfold nameCmp SortName.LongOnly longCmp
  dsimp only
  by_cases hdoc : ndoc ≠ mdoc
  · rw [if_pos hdoc, if_pos hdoc]
  · rw [if_neg hdoc, if_neg hdoc]
    by_cases hshort : nshort = 0 ∧ mshort = 0
    · rw [if_pos hshort]
      cases nlong <;> cases mlong <;> simp [hshort]
    · rw [if_neg hshort, if_neg fun h => hshort ⟨h.1.1, h.2.1⟩]

theorem nameCmp_swap (n m : SortName) : nameCmp m n = -nameCmp n m := by
  rw [nameCmp_eq, nameCmp_eq n m]
  by_cases hdoc : n.doc = m.doc
  · rw [if_neg (not_not.mpr hdoc.symm), if_neg (not_not.mpr hdoc)]
    by_cases hlong : n.LongOnly ∧ m.LongOnly
    · rw [if_pos hlong, if_pos hlong.symm]
      exact strcasecmp_swap ..
    · rw [if_neg hlong, if_neg fun h => hlong h.symm]
      exact firstCmp_swap ..
  · rw [if_pos hdoc, if_pos (Ne.symm hdoc)]
    omega

/-- Two long options stand to an entry with another one as to each other: the one that
`strcasecmp` puts first stands no later to it, they do not both compare equal to it, and those that
differ in case only stand to it alike. -/
structure StandsBetween (z n m : SortName) : Prop where
  lt : longCmp n m < 0 →
    (firstCmp n.first z.first).sign ≤ (firstCmp m.first z.first).sign ∧
      ¬(firstCmp n.first z.first = 0 ∧ firstCmp m.first z.first = 0)
  eq : longCmp n m = 0 → (firstCmp n.first z.first).sign = (firstCmp m.first z.first).sign

/-- The names can be sorted, as far as these three go. -/
def NamesAgree (n m z : SortName) : Prop :=
  n.doc = z.doc → m.doc = z.doc → n.LongOnly → m.LongOnly → ¬z.LongOnly → StandsBetween z n m

/-- The names compare equal. -/
def SameName (n m : SortName) : Prop :=
  n.doc = m.doc ∧ if n.LongOnly ∧ m.LongOnly then longCmp n m = 0 else n.first = m.first

theorem firstCmp_eq_zero_iff (a b : ℤ) : firstCmp a b = 0 ↔ a = b := by
  unfold firstCmp
  constructor
  · intro h
    split_ifs at h <;> omega
  · rintro rfl
    simp

theorem nameCmp_eq_zero_iff (n m : SortName) : nameCmp n m = 0 ↔ SameName n m := by
  rw [nameCmp_eq]
  unfold SameName
  by_cases hdoc : n.doc = m.doc
  · rw [if_neg (not_not.mpr hdoc), and_iff_right hdoc]
    split
    · rfl
    · exact firstCmp_eq_zero_iff ..
  · rw [if_pos hdoc]
    refine iff_of_false ?_ fun h => hdoc h.1
    cases hn : n.doc <;> cases hm : m.doc <;> simp [hn, hm] at hdoc ⊢

theorem doc_le_iff (d d' : Bool) : d.toInt - d'.toInt ≤ 0 ↔ d = false ∨ d' = true := by
  cases d <;> cases d' <;> decide

/-- Three names by what the comparison of each two of them uses. -/
theorem nameCmp_trans {a b c : SortName} (habc : NamesAgree a b c) (hbca : NamesAgree b c a)
    (hcab : NamesAgree c a b) (hab : nameCmp a b ≤ 0) (hbc : nameCmp b c ≤ 0) : nameCmp a c ≤ 0 := by
  rw [nameCmp_eq] at *
  by_cases hdocs : a.doc = b.doc ∧ b.doc = c.doc
  · obtain ⟨hdab, hdbc⟩ := hdocs
    rw [if_neg (not_not.mpr hdab)] at hab
    rw [if_neg (not_not.mpr hdbc)] at hbc
    rw [if_neg (not_not.mpr (hdab.trans hdbc))]
    by_cases ha : a.LongOnly <;> by_cases hb : b.LongOnly <;> by_cases hc : c.LongOnly
    · rw [if_pos ⟨ha, hb⟩] at hab
      rw [if_pos ⟨hb, hc⟩] at hbc
      rw [if_pos ⟨ha, hc⟩]
      exact strcasecmp_trans hab hbc
    · -- the last one has a short option
      rw [if_pos ⟨ha, hb⟩] at hab
      rw [if_neg fun h => hc h.2] at hbc ⊢
      have hstands := habc (hdab.trans hdbc) hdbc ha hb hc
      have hsign : (firstCmp b.first c.first).sign ≤ 0 := Int.sign_nonpos_iff.mpr hbc
      rw [← Int.sign_nonpos_iff]
      rcases hab.lt_or_eq with hlt | heq
      · exact (hstands.lt hlt).1.trans hsign
      · rw [hstands.eq heq]
        exact hsign
    · -- the one between has a short option
      rw [if_neg fun h => hb h.2] at hab
      rw [if_neg fun h => hb h.1] at hbc
      rw [if_pos ⟨ha, hc⟩]
      have hstands := hcab hdbc.symm hdab hc ha hb
      by_contra hgt
      have hswap : longCmp c a = -longCmp a c := strcasecmp_swap ..
      have hswap' := firstCmp_swap b.first c.first
      obtain ⟨hle, hboth⟩ := hstands.lt (by omega)
      have hzero : (firstCmp c.first b.first).sign ≤ 0 := hle.trans (Int.sign_nonpos_iff.mpr hab)
      rw [Int.sign_nonpos_iff] at hzero
      have hcb : firstCmp c.first b.first = 0 := by omega
      rw [hcb, Int.sign_zero, Int.sign_nonneg_iff] at hle
      exact hboth ⟨hcb, by omega⟩
    · rw [if_neg fun h => hb h.2] at hab
      rw [if_neg fun h => hb h.1] at hbc
      rw [if_neg fun h => hc h.2]
      exact firstCmp_trans hab hbc
    · -- the first one has a short option
      rw [if_neg fun h => ha h.1] at hab ⊢
      rw [if_pos ⟨hb, hc⟩] at hbc
      have hstands := hbca hdab.symm (hdab.trans hdbc).symm hb hc ha
      have hswap := firstCmp_swap b.first a.first
      have hswap' := firstCmp_swap c.first a.first
      have hsign : 0 ≤ (firstCmp b.first a.first).sign := Int.sign_nonneg_iff.mpr (by omega)
      have hnonneg : 0 ≤ (firstCmp c.first a.first).sign := by
        rcases hbc.lt_or_eq with hlt | heq
        · exact hsign.trans (hstands.lt hlt).1
        · rw [← hstands.eq heq]
          exact hsign
      rw [Int.sign_nonneg_iff] at hnonneg
      omega
    · rw [if_neg fun h => ha h.1] at hab ⊢
      rw [if_neg fun h => hc h.2] at hbc
      exact firstCmp_trans hab hbc
    · rw [if_neg fun h => ha h.1] at hab ⊢
      rw [if_neg fun h => hb h.1] at hbc
      exact firstCmp_trans hab hbc
    · rw [if_neg fun h => ha h.1] at hab ⊢
      rw [if_neg fun h => hb h.1] at hbc
      exact firstCmp_trans hab hbc
  · -- the documentation comes last
    have hdoc : ∀ {x y : SortName}, (if x.doc ≠ y.doc then x.doc.toInt - y.doc.toInt
        else if x.LongOnly ∧ y.LongOnly then longCmp x y else firstCmp x.first y.first) ≤ 0 →
        x.doc = y.doc ∨ x.doc = false ∧ y.doc = true := by
      intro x y hle
      by_cases hxy : x.doc = y.doc
      · exact .inl hxy
      · rw [if_pos hxy, doc_le_iff] at hle
        cases hx : x.doc <;> cases hy : y.doc <;> simp_all
    have hac : a.doc = false ∧ c.doc = true := by
      rcases hdoc hab with h | h <;> rcases hdoc hbc with h' | h' <;> simp_all
    rw [if_pos (by simp [hac]), doc_le_iff]
    exact .inl hac.1

/-! ### Clusters -/

/-- The clusters that an entry is in, from the base on. -/
def HolEntry.path (e : HolEntry) : List HolCluster := e.cluster.reverse

/-- The comparison of two clusters of one parent. -/
def headCmp (k k' : HolCluster) : ℤ := groupCmp k.group k'.group (k'.index - k.index)

/-- The comparison where two ways into the clusters part; 0 if they do not. -/
def pathCmp : List HolCluster → List HolCluster → ℤ
  | k :: p, k' :: q => if k = k' then pathCmp p q else headCmp k k'
  | _, _ => 0

theorem pathCmp_cons (k k' : HolCluster) (p q : List HolCluster) : pathCmp (k :: p) (k' :: q) =
    if k = k' then pathCmp p q else headCmp k k' := rfl

theorem pathCmp_self (p : List HolCluster) : pathCmp p p = 0 := by
  induction p with
  | nil => rfl
  | cons k p ih =>
    rw [pathCmp_cons, if_pos rfl, ih]

theorem pathCmp_append_left (c p q : List HolCluster) : pathCmp (c ++ p) (c ++ q) = pathCmp p q := by
  induction c with
  | nil => rfl
  | cons k c ih =>
    rw [List.cons_append, List.cons_append, pathCmp_cons, if_pos rfl, ih]

/-- What is below the clusters of one depth that differ does not count. -/
theorem pathCmp_append_right {p q : List HolCluster} (hlen : p.length = q.length) (hne : p ≠ q)
    (a b : List HolCluster) : pathCmp (p ++ a) (q ++ b) = pathCmp p q := by
  induction p generalizing q with
  | nil => exact (hne (List.length_eq_zero_iff.mp hlen.symm).symm).elim
  | cons k p ih =>
    cases q with
    | nil => cases hlen
    | cons k' q =>
      rw [List.cons_append, List.cons_append, pathCmp_cons, pathCmp_cons]
      split
      · next heq =>
        subst heq
        exact ih (Nat.succ.inj hlen) fun h => hne (congrArg _ h)
      · rfl

theorem clusterClimb_eq (cl1 cl2 : ClusterPtr) (hlen : cl1.length = cl2.length) :
    clusterClimb cl1 cl2 = pathCmp cl1.reverse cl2.reverse := by
  induction cl1 generalizing cl2 with
  | nil =>
    rw [List.length_eq_zero_iff.mp hlen.symm]
    rfl
  | cons k cl1 ih =>
    cases cl2 with
    | nil => cases hlen
    | cons k' cl2 =>
      have hlen' : cl1.length = cl2.length := Nat.succ.inj hlen
      unfold clusterClimb
      rw [List.reverse_cons, List.reverse_cons]
      by_cases hne : cl1 ≠ cl2
      · rw [if_pos hne, ih cl2 hlen',
          pathCmp_append_right (by rw [List.length_reverse, List.length_reverse, hlen'])
            fun h => hne (List.reverse_injective h)]
      · rw [if_neg hne, not_not.mp hne, pathCmp_append_left, pathCmp_cons]
        by_cases hk : k = k'
        · rw [if_pos hk, hk]
          unfold groupCmp
          rw [if_pos rfl, Int.sub_self]
          rfl
        · rw [if_neg hk]
          rfl

/-- `hol_cluster_cmp` compares the clusters where the ways to the two from the base part. -/
theorem holClusterCmp_eq (cl1 cl2 : ClusterPtr) (h1 : cl1 ≠ []) (h2 : cl2 ≠ []) :
    holClusterCmp cl1 cl2 = pathCmp cl1.reverse cl2.reverse := by
  have hpos1 := List.length_pos_iff.mpr h1
  have hpos2 := List.length_pos_iff.mpr h2
  have hsplit : ∀ (n : ℕ) (cl : ClusterPtr), cl.reverse = (cl.drop n).reverse ++ (cl.take n).reverse := by
    intro n cl
    rw [← List.reverse_append, List.take_append_drop]
  unfold holClusterCmp raiseTo depth
  dsimp only
  rw [List.length_drop, clusterClimb_eq _ _ (by rw [List.length_drop, List.length_drop]; omega)]
  rcases Nat.le_total cl1.length cl2.length with hle | hle
  · rw [show cl1.length - 1 - (cl2.length - 1) = 0 by omega, List.drop_zero]
    generalize hn : cl2.length - 1 - (cl1.length - 0 - 1) = n
    have hlen : cl1.reverse.length = (cl2.drop n).reverse.length := by
      rw [List.length_reverse, List.length_reverse, List.length_drop]
      omega
    conv_rhs => rw [hsplit n cl2, ← List.append_nil cl1.reverse]
    by_cases heq : cl1.reverse = (cl2.drop n).reverse
    · rw [heq, pathCmp_append_left, pathCmp_self]
      rfl
    · rw [pathCmp_append_right hlen heq]
  · generalize hn : cl1.length - 1 - (cl2.length - 1) = n
    rw [show cl2.length - 1 - (cl1.length - n - 1) = 0 by omega, List.drop_zero]
    have hlen : (cl1.drop n).reverse.length = cl2.reverse.length := by
      rw [List.length_reverse, List.length_reverse, List.length_drop]
      omega
    conv_rhs => rw [hsplit n cl1, ← List.append_nil cl2.reverse]
    by_cases heq : (cl1.drop n).reverse = cl2.reverse
    · rw [heq, pathCmp_append_left, pathCmp_self]
      cases (cl1.take n).reverse <;> rfl
    · rw [pathCmp_append_right hlen heq]

/-- Two entries in different clusters that the comparison cannot tell apart: one is further up in
the clusters of the other, or they part at clusters of one group and index. -/
def Tied (p q : List HolCluster) : Prop :=
  p ≠ [] ∧ q ≠ [] ∧ p ≠ q ∧ (p <+: q ∨ q <+: p ∨ ∃ c k k', k ≠ k' ∧ c ++ [k] <+: p ∧
    c ++ [k'] <+: q ∧ k.group = k'.group ∧ k.index = k'.index)

theorem Tied.symm {p q : List HolCluster} (h : Tied p q) : Tied q p := by
  obtain ⟨hp, hq, hne, hle | hle | ⟨c, k, k', hk, hkp, hkq, hgroup, hindex⟩⟩ := h
  · exact ⟨hq, hp, hne.symm, .inr (.inl hle)⟩
  · exact ⟨hq, hp, hne.symm, .inl hle⟩
  · exact ⟨hq, hp, hne.symm, .inr (.inr ⟨c, k', k, hk.symm, hkq, hkp, hgroup.symm, hindex.symm⟩)⟩

section

variable {k k' : HolCluster} (hk : IsInt k.group) (hk' : IsInt k'.group)
include hk hk'

theorem headCmp_eq_zero_iff : headCmp k k' = 0 ↔ k.group = k'.group ∧ k.index = k'.index := by
  unfold headCmp
  rw [groupCmp_eq_zero_iff hk hk']
  omega

theorem headCmp_neg_iff (hfar : ¬FarApart k.group k'.group) : headCmp k k' < 0 ↔
    groupRank k.group < groupRank k'.group ∨
      groupRank k.group = groupRank k'.group ∧ k'.index < k.index := by
  unfold headCmp
  rw [groupCmp_neg_iff hk hk' hfar, groupRank_inj]
  omega

end

theorem pathCmp_eq_zero_iff {p q : List HolCluster} (hp : ∀ k ∈ p, IsInt k.group)
    (hq : ∀ k ∈ q, IsInt k.group) : pathCmp p q = 0 ↔
      p <+: q ∨ q <+: p ∨ ∃ c k k', k ≠ k' ∧ c ++ [k] <+: p ∧ c ++ [k'] <+: q ∧
        k.group = k'.group ∧ k.index = k'.index := by
  induction p generalizing q with
  | nil => exact iff_of_true rfl (.inl List.nil_prefix)
  | cons a p ih =>
    cases q with
    | nil => exact iff_of_true rfl (.inr (.inl List.nil_prefix))
    | cons b q =>
      rw [pathCmp_cons]
      by_cases hab : a = b
      · subst hab
        rw [if_pos rfl, ih (fun k hk => hp k (List.mem_cons_of_mem _ hk))
          (fun k hk => hq k (List.mem_cons_of_mem _ hk)), List.cons_prefix_cons, List.cons_prefix_cons]
        simp only [true_and]
        refine or_congr_right (or_congr_right ⟨?_, ?_⟩)
        · rintro ⟨c, k, k', hne, hkp, hkq, hrest⟩
          exact ⟨a :: c, k, k', hne, List.cons_prefix_cons.mpr ⟨rfl, hkp⟩,
            List.cons_prefix_cons.mpr ⟨rfl, hkq⟩, hrest⟩
        · rintro ⟨c, k, k', hne, hkp, hkq, hrest⟩
          cases c with
          | nil =>
            have hka := (List.cons_prefix_cons.mp hkp).1
            have hkb := (List.cons_prefix_cons.mp hkq).1
            exact (hne (hka.trans hkb.symm)).elim
          | cons d c =>
            exact ⟨c, k, k', hne, (List.cons_prefix_cons.mp hkp).2, (List.cons_prefix_cons.mp hkq).2,
              hrest⟩
      · rw [if_neg hab, headCmp_eq_zero_iff (hp a (List.mem_cons_self ..)) (hq b (List.mem_cons_self ..)),
          List.cons_prefix_cons, List.cons_prefix_cons]
        constructor
        · intro hsame
          exact .inr (.inr ⟨[], a, b, hab, List.prefix_append [a] p, List.prefix_append [b] q, hsame⟩)
        · rintro (hle | hle | ⟨c, k, k', hne, hkp, hkq, hrest⟩)
          · exact (hab hle.1).elim
          · exact (hab hle.1.symm).elim
          · cases c with
            | nil =>
              rw [← (List.cons_prefix_cons.mp hkp).1, ← (List.cons_prefix_cons.mp hkq).1]
              exact hrest
            | cons d c =>
              have hda := (List.cons_prefix_cons.mp hkp).1
              have hdb := (List.cons_prefix_cons.mp hkq).1
              exact (hab (hda.symm.trans hdb)).elim

/-! ### Entries -/

/-- The comparison of two entries below clusters that hold both. -/
def belowCmp (so : List ℤ) (x y : HolEntry) (p q : List HolCluster) : ℤ :=
  if p = q then groupCmp x.group y.group (nameCmp (x.sortName so) (y.sortName so)) else pathCmp p q

theorem belowCmp_cons (so : List ℤ) (x y : HolEntry) (k k' : HolCluster) (p q : List HolCluster) :
    belowCmp so x y (k :: p) (k' :: q) = if k = k' then belowCmp so x y p q else headCmp k k' := by
  unfold belowCmp
  by_cases hk : k = k'
  · subst hk
    rw [if_pos rfl, pathCmp_cons, if_pos rfl]
    simp only [List.cons.injEq, true_and]
  · rw [if_neg fun h => hk (List.cons.inj h).1, if_neg hk, pathCmp_cons, if_neg hk]

theorem holEntryCmp_path {so : List ℤ} {x y : HolEntry} (h : x.path = [] ↔ y.path = []) :
    holEntryCmp so x y = belowCmp so x y x.path y.path := by
  unfold holEntryCmp belowCmp
  unfold HolEntry.path at *
  rw [List.reverse_eq_nil_iff, List.reverse_eq_nil_iff] at h
  by_cases hcl : x.cluster = y.cluster
  · rw [if_neg (not_not.mpr hcl), hcl, if_pos rfl]
    unfold groupCmp
    split
    · rfl
    · rfl
  · have hx : x.cluster ≠ [] := fun hnil => hcl (hnil.trans (h.mp hnil).symm)
    have hy : y.cluster ≠ [] := fun hnil => hx (h.mpr hnil)
    rw [if_pos hcl, if_neg hx, if_neg hy, holClusterCmp_eq _ _ hx hy,
      if_neg fun heq => hcl (List.reverse_injective heq)]

theorem baseGroup_path {e : HolEntry} {k : HolCluster} {p : List HolCluster} (h : e.path = k :: p) :
    baseGroup e.cluster = k.group ∧ e.cluster ≠ [] := by
  have hcl : e.cluster = p.reverse ++ [k] := by
    rw [← List.reverse_reverse e.cluster, ← List.reverse_cons]
    exact congrArg List.reverse h
  unfold baseGroup
  rw [hcl, List.getLast?_concat]
  exact ⟨rfl, by simp⟩

theorem holEntryCmp_base (so : List ℤ) {x y : HolEntry} {k : HolCluster} {q : List HolCluster}
    (hx : x.path = []) (hy : y.path = k :: q) :
    holEntryCmp so x y = groupCmp x.group k.group (-1) ∧
      holEntryCmp so y x = groupCmp k.group x.group 1 := by
  have hxnil : x.cluster = [] := List.reverse_eq_nil_iff.mp hx
  obtain ⟨hbase, hycl⟩ := baseGroup_path hy
  unfold holEntryCmp
  rw [hxnil, hbase, if_pos hycl.symm, if_pos rfl, if_pos hycl, if_neg hycl, if_pos rfl]
  exact ⟨rfl, rfl⟩

end MuslBsd.Help
