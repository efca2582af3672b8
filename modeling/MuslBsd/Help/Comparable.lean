import MuslBsd.Help.Order

/-! When `hol_entry_cmp` is an order, and what `hol_sort` makes of the entries then. -/
namespace MuslBsd.Help
open MuslBsd.Argp
open MuslBsd.Support

/-! ### When it is an order -/

/-- The groups of an entry and of the clusters that it is in are `int`s. -/
def HolEntry.Ints (e : HolEntry) : Prop := IsInt e.group ∧ ∀ k ∈ e.path, IsInt k.group

/-- The groups that the comparison of two entries may compare. -/
inductive GroupsCompared (x y : HolEntry) : ℤ → ℤ → Prop
  | entries (same : x.path = y.path) : GroupsCompared x y x.group y.group
  | base {k : HolCluster} (here : x.path = []) (there : [k] <+: y.path) :
    GroupsCompared x y x.group k.group
  | clusters {c : List HolCluster} {k k' : HolCluster} (here : c ++ [k] <+: x.path)
    (there : c ++ [k'] <+: y.path) : GroupsCompared x y k.group k'.group

/-- Two entries compare equal. -/
def Alike (so : List ℤ) (x z : HolEntry) : Prop :=
  x.path = z.path ∧ x.group = z.group ∧ SameName (x.sortName so) (z.sortName so) ∨
    Tied x.path z.path

/-- What the entries of a hol have to be like for the comparison to be an order. -/
structure Comparable (so : List ℤ) (es : List HolEntry) : Prop where
  groups : ∀ x ∈ es, ∀ y ∈ es, ∀ g g', GroupsCompared x y g g' → ¬FarApart g g'
  names : ∀ x ∈ es, ∀ y ∈ es, ∀ z ∈ es, x.path = z.path → y.path = z.path → x.group = z.group →
    y.group = z.group → NamesAgree (x.sortName so) (y.sortName so) (z.sortName so)
  ties : ∀ x ∈ es, ∀ y ∈ es, ∀ z ∈ es, Tied x.path y.path → Tied y.path z.path → Alike so x z

theorem alike_zero {so : List ℤ} {x z : HolEntry} (hx : x.Ints) (hz : z.Ints) (h : Alike so x z)
    {c p r : List HolCluster} (hxp : x.path = c ++ p) (hzr : z.path = c ++ r) :
    belowCmp so x z p r = 0 := by
  unfold belowCmp
  rcases h with ⟨hpath, hgroup, hname⟩ | ⟨-, -, hne, hties⟩
  · have hpr : p = r := List.append_cancel_left (hxp.symm.trans (hpath.trans hzr))
    rw [if_pos hpr]
    unfold groupCmp
    rw [if_pos hgroup]
    exact (nameCmp_eq_zero_iff _ _).mpr hname
  · have hpr : p ≠ r := by
      intro heq
      apply hne
      rw [hxp, hzr, heq]
    have hzero := (pathCmp_eq_zero_iff hx.2 hz.2).mpr hties
    rw [hxp, hzr, pathCmp_append_left] at hzero
    rw [if_neg hpr, hzero]

theorem prefix_head {e : HolEntry} (c : List HolCluster) {p : List HolCluster} {k : HolCluster}
    (h : e.path = c ++ k :: p) : c ++ [k] <+: e.path := by
  rw [h]
  exact (List.prefix_append_right_inj c).mpr (List.prefix_append [k] p)

/-- The group that places an entry at the base level. -/
def HolEntry.topGroup (e : HolEntry) : ℤ :=
  match e.path with
  | [] => e.group
  | k :: _ => k.group

theorem topGroup_nil {e : HolEntry} (h : e.path = []) : e.topGroup = e.group := by
  unfold HolEntry.topGroup
  rw [h]

theorem topGroup_cons {e : HolEntry} {k : HolCluster} {p : List HolCluster} (h : e.path = k :: p) :
    e.topGroup = k.group := by
  unfold HolEntry.topGroup
  rw [h]

/-- At the base level the groups decide, and then what is in a cluster comes last. -/
theorem holEntryCmp_top (so : List ℤ) (x y : HolEntry) : ∃ eq, (x.path = [] → y.path ≠ [] → eq = -1) ∧
    (x.path ≠ [] → y.path = [] → eq = 1) ∧
    (holEntryCmp so x y = groupCmp x.topGroup y.topGroup eq ∨
      ∃ k p q, x.path = k :: p ∧ y.path = k :: q) := by
  cases hxp : x.path with
  | nil =>
    rw [topGroup_nil hxp]
    cases hyq : y.path with
    | nil =>
      refine ⟨nameCmp (x.sortName so) (y.sortName so), by simp, by simp, .inl ?_⟩
      rw [holEntryCmp_path (by rw [hxp, hyq]), hxp, hyq, topGroup_nil hyq]
      exact if_pos rfl
    | cons k q =>
      refine ⟨-1, by simp, by simp, .inl ?_⟩
      rw [topGroup_cons hyq]
      exact (holEntryCmp_base _ hxp hyq).1
  | cons k p =>
    rw [topGroup_cons hxp]
    cases hyq : y.path with
    | nil =>
      refine ⟨1, by simp, by simp, .inl ?_⟩
      rw [topGroup_nil hyq]
      exact (holEntryCmp_base _ hyq hxp).2
    | cons k' q =>
      refine ⟨k'.index - k.index, by simp, by simp, ?_⟩
      by_cases hk : k = k'
      · exact .inr ⟨k, p, q, rfl, by rw [hk]⟩
      · left
        rw [holEntryCmp_path (by rw [hxp, hyq]; simp), hxp, hyq, belowCmp_cons, if_neg hk,
          topGroup_cons hyq]
        rfl

section

variable {so : List ℤ} {es : List HolEntry} (hs : Comparable so es) (hints : ∀ e ∈ es, e.Ints)
include hs hints

theorem pathCmp_swap {x y : HolEntry} (hx : x ∈ es) (hy : y ∈ es) (c p q : List HolCluster)
    (hxp : x.path = c ++ p) (hyq : y.path = c ++ q) : (pathCmp p q).sign = -(pathCmp q p).sign := by
  induction p generalizing c q with
  | nil => cases q <;> rfl
  | cons k p ih =>
    cases q with
    | nil => rfl
    | cons k' q =>
      rw [pathCmp_cons, pathCmp_cons]
      by_cases hk : k = k'
      · subst hk
        rw [if_pos rfl, if_pos rfl]
        exact ih (c ++ [k]) q (by rw [hxp, List.append_assoc]; rfl) (by rw [hyq, List.append_assoc]; rfl)
      · rw [if_neg hk, if_neg (Ne.symm hk)]
        have hkx := prefix_head _ hxp
        have hky := prefix_head _ hyq
        unfold headCmp
        exact groupCmp_swap ((hints x hx).2 k (hkx.subset (by simp)))
          ((hints y hy).2 k' (hky.subset (by simp))) (hs.groups x hx y hy _ _ (.clusters hkx hky))
          (by omega)

theorem holEntryCmp_swap {x y : HolEntry} (hx : x ∈ es) (hy : y ∈ es) :
    (holEntryCmp so x y).sign = -(holEntryCmp so y x).sign := by
  -- an entry outside all clusters and one in a cluster
  have hbase : ∀ x ∈ es, ∀ y ∈ es, ∀ k q, x.path = [] → y.path = k :: q →
      (holEntryCmp so x y).sign = -(holEntryCmp so y x).sign := by
    intro x hx y hy k q hxp hyp
    obtain ⟨hxy, hyx⟩ := holEntryCmp_base so hxp hyp
    have hk : [k] <+: y.path := by
      rw [hyp]
      exact List.prefix_append [k] q
    rw [hxy, hyx]
    exact groupCmp_swap (hints x hx).1 ((hints y hy).2 k (hk.subset (by simp)))
      (hs.groups x hx y hy _ _ (.base hxp hk)) rfl
  cases hxp : x.path with
  | nil =>
    cases hyp : y.path with
    | nil =>
      rw [holEntryCmp_path (by rw [hxp, hyp]), holEntryCmp_path (by rw [hxp, hyp]), hxp, hyp]
      unfold belowCmp
      rw [if_pos rfl, if_pos rfl]
      exact groupCmp_swap (hints x hx).1 (hints y hy).1
        (hs.groups x hx y hy _ _ (.entries (hxp.trans hyp.symm))) (nameCmp_swap ..)
    | cons k q => exact hbase x hx y hy k q hxp hyp
  | cons k p =>
    cases hyp : y.path with
    | nil =>
      rw [hbase y hy x hx k p hyp hxp, neg_neg]
    | cons k' q =>
      rw [holEntryCmp_path (by rw [hxp, hyp]; simp), holEntryCmp_path (by rw [hxp, hyp]; simp)]
      unfold belowCmp
      by_cases hpath : x.path = y.path
      · rw [if_pos hpath, if_pos hpath.symm]
        exact groupCmp_swap (hints x hx).1 (hints y hy).1
          (hs.groups x hx y hy _ _ (.entries hpath)) (nameCmp_swap ..)
      · rw [if_neg hpath, if_neg (Ne.symm hpath)]
        exact pathCmp_swap hs hints hx hy [] _ _ rfl rfl

theorem belowCmp_of_ties {x y z : HolEntry} (hx : x ∈ es) (hy : y ∈ es) (hz : z ∈ es)
    {c p q r : List HolCluster} (hxp : x.path = c ++ p) (hyq : y.path = c ++ q)
    (hzr : z.path = c ++ r) (hxne : x.path ≠ []) (hyne : y.path ≠ []) (hzne : z.path ≠ [])
    (hpq : p ≠ q) (hqr : q ≠ r) (hxy : pathCmp p q = 0) (hyz : pathCmp q r = 0) :
    belowCmp so x z p r ≤ 0 := by
  have hxyne : x.path ≠ y.path := by
    rw [hxp, hyq]
    exact fun h => hpq (List.append_cancel_left h)
  have hyzne : y.path ≠ z.path := by
    rw [hyq, hzr]
    exact fun h => hqr (List.append_cancel_left h)
  rw [← pathCmp_append_left c, ← hxp, ← hyq,
    pathCmp_eq_zero_iff (hints x hx).2 (hints y hy).2] at hxy
  rw [← pathCmp_append_left c, ← hyq, ← hzr,
    pathCmp_eq_zero_iff (hints y hy).2 (hints z hz).2] at hyz
  have halike := hs.ties x hx y hy z hz ⟨hxne, hyne, hxyne, hxy⟩ ⟨hyne, hzne, hyzne, hyz⟩
  exact (alike_zero (hints x hx) (hints z hz) halike hxp hzr).le

/-- Three entries in the same clusters. -/
theorem groupName_trans {x y z : HolEntry} (hx : x ∈ es) (hy : y ∈ es) (hz : z ∈ es)
    (hxyp : x.path = y.path) (hyzp : y.path = z.path)
    (hxy : groupCmp x.group y.group (nameCmp (x.sortName so) (y.sortName so)) ≤ 0)
    (hyz : groupCmp y.group z.group (nameCmp (y.sortName so) (z.sortName so)) ≤ 0) :
    groupCmp x.group z.group (nameCmp (x.sortName so) (z.sortName so)) ≤ 0 := by
  have hxzp := hxyp.trans hyzp
  refine groupCmp_trans (hints x hx).1 (hints y hy).1 (hints z hz).1
    (hs.groups x hx y hy _ _ (.entries hxyp)) (hs.groups y hy z hz _ _ (.entries hyzp))
    (hs.groups x hx z hz _ _ (.entries hxzp)) (fun hgxy hgyz hle hle' => ?_) hxy hyz
  exact nameCmp_trans (hs.names x hx y hy z hz hxzp hyzp (hgxy.trans hgyz) hgyz)
    (hs.names y hy z hz x hx hxyp.symm hxzp.symm hgxy.symm (hgxy.trans hgyz).symm)
    (hs.names z hz x hx y hy hyzp.symm hxyp hgyz.symm hgxy) hle hle'

theorem headCmp_trans {x y z : HolEntry} (hx : x ∈ es) (hy : y ∈ es) (hz : z ∈ es)
    {c : List HolCluster} {k k' k'' : HolCluster} (hkx : c ++ [k] <+: x.path)
    (hky : c ++ [k'] <+: y.path) (hkz : c ++ [k''] <+: z.path) (h : headCmp k k' ≤ 0)
    (h' : headCmp k' k'' ≤ 0) : headCmp k k'' ≤ 0 := by
  unfold headCmp at *
  exact groupCmp_trans ((hints x hx).2 k (hkx.subset (by simp)))
    ((hints y hy).2 k' (hky.subset (by simp))) ((hints z hz).2 k'' (hkz.subset (by simp)))
    (hs.groups x hx y hy _ _ (.clusters hkx hky)) (hs.groups y hy z hz _ _ (.clusters hky hkz))
    (hs.groups x hx z hz _ _ (.clusters hkx hkz)) (fun _ _ _ _ => by omega) h h'

/-- By induction on the ways into the clusters, which have `c` in common. -/
theorem belowCmp_trans {x y z : HolEntry} (hx : x ∈ es) (hy : y ∈ es) (hz : z ∈ es)
    (c p q r : List HolCluster) (hxp : x.path = c ++ p) (hyq : y.path = c ++ q)
    (hzr : z.path = c ++ r)
    (hin : c ≠ [] ∨ p = [] ∧ q = [] ∧ r = [] ∨ p ≠ [] ∧ q ≠ [] ∧ r ≠ [])
    (hxy : belowCmp so x y p q ≤ 0) (hyz : belowCmp so y z q r ≤ 0) : belowCmp so x z p r ≤ 0 := by
  induction p generalizing c q r with
  | nil =>
    cases q with
    | nil =>
      cases r with
      | nil =>
        exact groupName_trans hs hints hx hy hz (hxp.trans hyq.symm) (hyq.trans hzr.symm) hxy hyz
      | cons k r => exact Int.le_refl 0
    | cons k q =>
      cases r with
      | nil =>
        -- `y` is further down than `x` and `z`
        have hc : c ≠ [] := by simpa using hin
        exact belowCmp_of_ties hs hints hx hy hz hxp hyq hzr (by simp [hxp, hc]) (by simp [hyq])
          (by simp [hzr, hc]) (List.cons_ne_nil k q).symm (List.cons_ne_nil k q) rfl rfl
      | cons k' r => exact Int.le_refl 0
  | cons k p ih =>
    cases q with
    | nil =>
      cases r with
      | nil => exact Int.le_refl 0
      | cons k' r =>
        -- `x` and `z` are further down than `y`
        have hc : c ≠ [] := by simpa using hin
        exact belowCmp_of_ties hs hints hx hy hz hxp hyq hzr (by simp [hxp]) (by simp [hyq, hc])
          (by simp [hzr]) (List.cons_ne_nil k p) (List.cons_ne_nil k' r).symm rfl rfl
    | cons k' q =>
      cases r with
      | nil => exact Int.le_refl 0
      | cons k'' r =>
        have hkx := prefix_head _ hxp
        have hky := prefix_head _ hyq
        have hkz := prefix_head _ hzr
        rw [belowCmp_cons] at hxy hyz ⊢
        by_cases hkk' : k = k'
        · subst hkk'
          rw [if_pos rfl] at hxy
          by_cases hkk'' : k = k''
          · subst hkk''
            rw [if_pos rfl] at hyz ⊢
            exact ih (c ++ [k]) q r (by rw [hxp, List.append_assoc]; rfl)
              (by rw [hyq, List.append_assoc]; rfl) (by rw [hzr, List.append_assoc]; rfl)
              (.inl (by simp)) hxy hyz
          · rw [if_neg hkk''] at hyz ⊢
            exact hyz
        · rw [if_neg hkk'] at hxy
          by_cases hk'k'' : k' = k''
          · subst hk'k''
            rw [if_neg hkk']
            exact hxy
          · rw [if_neg hk'k''] at hyz
            by_cases hkk'' : k = k''
            · -- there and back: the two clusters tie
              subst hkk''
              have hk := (hints x hx).2 k (hkx.subset (by simp))
              have hk' := (hints y hy).2 k' (hky.subset (by simp))
              have hfar := hs.groups x hx y hy _ _ (.clusters hkx hky)
              have hindex : k.index - k'.index = -(k'.index - k.index) := by omega
              have hswap := groupCmp_swap hk hk' hfar hindex
              have hzero := neg_iff_of_sign hswap
              unfold headCmp at hxy hyz
              have hxy0 : pathCmp (k :: p) (k' :: q) = 0 := by
                rw [pathCmp_cons, if_neg hkk']
                unfold headCmp
                omega
              have hyz0 : pathCmp (k' :: q) (k :: r) = 0 := by
                rw [pathCmp_cons, if_neg hk'k'']
                unfold headCmp
                omega
              rw [← belowCmp_cons so x z k k]
              exact belowCmp_of_ties hs hints hx hy hz hxp hyq hzr (by simp [hxp]) (by simp [hyq])
                (by simp [hzr]) (fun h => hkk' (List.cons.inj h).1)
                (fun h => hk'k'' (List.cons.inj h).1) hxy0 hyz0
            · rw [if_neg hkk'']
              exact headCmp_trans hs hints hx hy hz hkx hky hkz hxy hyz

theorem topGroup_ok {x y : HolEntry} (hx : x ∈ es) (hy : y ∈ es) :
    IsInt x.topGroup ∧ ¬FarApart x.topGroup y.topGroup := by
  cases hxp : x.path with
  | nil =>
    rw [topGroup_nil hxp]
    refine ⟨(hints x hx).1, ?_⟩
    cases hyq : y.path with
    | nil =>
      rw [topGroup_nil hyq]
      exact hs.groups x hx y hy _ _ (.entries (hxp.trans hyq.symm))
    | cons k q =>
      rw [topGroup_cons hyq]
      exact hs.groups x hx y hy _ _ (.base hxp (prefix_head [] hyq))
  | cons k p =>
    have hkx := prefix_head [] hxp
    rw [topGroup_cons hxp]
    refine ⟨(hints x hx).2 k (hkx.subset (by simp)), ?_⟩
    cases hyq : y.path with
    | nil =>
      rw [topGroup_nil hyq]
      exact fun h => hs.groups y hy x hx _ _ (.base hyq hkx) h.symm
    | cons k' q =>
      rw [topGroup_cons hyq]
      exact hs.groups x hx y hy _ _ (.clusters hkx (prefix_head [] hyq))

theorem holEntryCmp_trans {x y z : HolEntry} (hx : x ∈ es) (hy : y ∈ es) (hz : z ∈ es)
    (hxy : holEntryCmp so x y ≤ 0) (hyz : holEntryCmp so y z ≤ 0) : holEntryCmp so x z ≤ 0 := by
  by_cases hkind : (x.path = [] ↔ y.path = []) ∧ (y.path = [] ↔ z.path = [])
  · obtain ⟨hxyk, hyzk⟩ := hkind
    rw [holEntryCmp_path hxyk] at hxy
    rw [holEntryCmp_path hyzk] at hyz
    rw [holEntryCmp_path (hxyk.trans hyzk)]
    refine belowCmp_trans hs hints hx hy hz [] _ _ _ rfl rfl rfl (.inr ?_) hxy hyz
    by_cases hnil : x.path = []
    · exact .inl ⟨hnil, hxyk.mp hnil, hyzk.mp (hxyk.mp hnil)⟩
    · exact .inr ⟨hnil, fun h => hnil (hxyk.mpr h), fun h => hnil (hxyk.mpr (hyzk.mpr h))⟩
  · obtain ⟨hxi, hxyf⟩ := topGroup_ok hs hints hx hy
    obtain ⟨hyi, hyzf⟩ := topGroup_ok hs hints hy hz
    obtain ⟨hzi, -⟩ := topGroup_ok hs hints hz hx
    obtain ⟨-, hxzf⟩ := topGroup_ok hs hints hx hz
    obtain ⟨eq₁, hin₁, hout₁, htop₁⟩ := holEntryCmp_top so x y
    obtain ⟨eq₂, hin₂, hout₂, htop₂⟩ := holEntryCmp_top so y z
    obtain ⟨eq₃, hin₃, hout₃, htop₃⟩ := holEntryCmp_top so x z
    rcases htop₁ with htop₁ | ⟨k, p, q, hxp, hyq⟩
    · rcases htop₂ with htop₂ | ⟨k, q, r, hyq, hzr⟩
      · rcases htop₃ with htop₃ | ⟨k, p, r, hxp, hzr⟩
        · rw [htop₁] at hxy
          rw [htop₂] at hyz
          rw [htop₃]
          refine groupCmp_trans hxi hyi hzi hxyf hyzf hxzf (fun _ _ hle₁ hle₂ => ?_) hxy hyz
          by_cases hxn : x.path = [] <;> by_cases hyn : y.path = [] <;>
            by_cases hzn : z.path = [] <;> simp [hxn, hyn, hzn] at * <;> omega
        · -- `y` is outside the cluster that holds `x` and `z`
          have hyn : y.path = [] := by
            by_contra hyn
            exact hkind (by simp [hxp, hzr, hyn])
          rw [htop₁, hout₁ (by simp [hxp]) hyn, groupCmp_le_iff hxi hyi hxyf] at hxy
          rw [htop₂, hin₂ hyn (by simp [hzr]), groupCmp_le_iff hyi hzi hyzf, topGroup_cons hzr,
            ← topGroup_cons hxp] at hyz
          have hrank := groupRank_inj x.topGroup y.topGroup
          omega
      · have hxn : x.path = [] := by
          by_contra hxn
          exact hkind (by simp [hyq, hzr, hxn])
        rw [(holEntryCmp_base _ hxn hyq).1] at hxy
        rw [(holEntryCmp_base _ hxn hzr).1]
        exact hxy
    · have hzn : z.path = [] := by
        by_contra hzn
        exact hkind (by simp [hxp, hyq, hzn])
      rw [(holEntryCmp_base _ hzn hyq).2] at hyz
      rw [(holEntryCmp_base _ hzn hxp).2]
      exact hyz

/-- On such entries the comparison is what `qsort` asks for. -/
theorem Comparable.consistent : Consistent (holEntryCmp so) es where
  antisymm _ hx _ hy := holEntryCmp_swap hs hints hx hy
  trans _ hx _ hy _ hz := holEntryCmp_trans hs hints hx hy hz

end

/-! ### Only then -/

theorem pathCmp_beside {c p q : List HolCluster} {k k' : HolCluster} (hk : k ≠ k')
    (hp : c ++ [k] <+: p) (hq : c ++ [k'] <+: q) : p ≠ q ∧ pathCmp p q = headCmp k k' := by
  obtain ⟨p', rfl⟩ := hp
  obtain ⟨q', rfl⟩ := hq
  rw [List.append_assoc, List.append_assoc, pathCmp_append_left]
  refine ⟨fun h => hk (List.cons.inj (List.append_cancel_left h)).1, ?_⟩
  exact if_neg hk

theorem holEntryCmp_beside {so : List ℤ} {x y : HolEntry} {c : List HolCluster} {k k' : HolCluster}
    (hk : k ≠ k') (hx : c ++ [k] <+: x.path) (hy : c ++ [k'] <+: y.path) :
    holEntryCmp so x y = headCmp k k' := by
  have hxne : x.path ≠ [] := fun h => by simp [h] at hx
  have hyne : y.path ≠ [] := fun h => by simp [h] at hy
  obtain ⟨hne, hcmp⟩ := pathCmp_beside hk hx hy
  rw [holEntryCmp_path (by simp [hxne, hyne])]
  unfold belowCmp
  rw [if_neg hne, hcmp]

theorem holEntryCmp_same {so : List ℤ} {x y : HolEntry} (h : x.path = y.path) :
    holEntryCmp so x y = groupCmp x.group y.group (nameCmp (x.sortName so) (y.sortName so)) := by
  rw [holEntryCmp_path (by rw [h])]
  exact if_pos h

theorem Tied.cmp (so : List ℤ) {x y : HolEntry} (hx : x.Ints) (hy : y.Ints)
    (h : Tied x.path y.path) : holEntryCmp so x y = 0 := by
  obtain ⟨hxne, hyne, hne, hties⟩ := h
  rw [holEntryCmp_path (by simp [hxne, hyne])]
  unfold belowCmp
  rw [if_neg hne, (pathCmp_eq_zero_iff hx.2 hy.2).mpr hties]

section

variable {so : List ℤ} {es : List HolEntry} (h : Consistent (holEntryCmp so) es)
  (hints : ∀ e ∈ es, e.Ints)
include h hints

theorem not_farApart {x y : HolEntry} (hx : x ∈ es) (hy : y ∈ es) {g g' : ℤ}
    (hcompared : GroupsCompared x y g g') : ¬FarApart g g' := by
  intro hfar
  have hlt := h.lt_iff hx hy
  have hboth : holEntryCmp so x y < 0 ∧ holEntryCmp so y x < 0 := by
    cases hcompared with
    | entries same =>
      rw [holEntryCmp_same same, holEntryCmp_same same.symm]
      exact ⟨groupCmp_far (hints x hx).1 (hints y hy).1 hfar _,
        groupCmp_far (hints y hy).1 (hints x hx).1 hfar.symm _⟩
    | @base k here there =>
      obtain ⟨q, hq⟩ := there
      have hk : k ∈ y.path := by
        rw [← hq]
        exact List.mem_cons_self ..
      obtain ⟨hxy, hyx⟩ := holEntryCmp_base so here hq.symm
      rw [hxy, hyx]
      exact ⟨groupCmp_far (hints x hx).1 ((hints y hy).2 k hk) hfar _,
        groupCmp_far ((hints y hy).2 k hk) (hints x hx).1 hfar.symm _⟩
    | @clusters c k k' here there =>
      have hk : k ≠ k' := by
        rintro rfl
        unfold FarApart at hfar
        omega
      have hki := (hints x hx).2 k (here.subset (by simp))
      have hki' := (hints y hy).2 k' (there.subset (by simp))
      rw [holEntryCmp_beside hk here there, holEntryCmp_beside hk.symm there here]
      exact ⟨groupCmp_far hki hki' hfar _, groupCmp_far hki' hki hfar.symm _⟩
  omega

omit hints in
theorem namesAgree {x y z : HolEntry} (hx : x ∈ es) (hy : y ∈ es) (hz : z ∈ es)
    (hxz : x.path = z.path) (hyz : y.path = z.path) (hgxz : x.group = z.group)
    (hgyz : y.group = z.group) :
    NamesAgree (x.sortName so) (y.sortName so) (z.sortName so) := by
  intro hdx hdy hxlong hylong hzlong
  have hxy : holEntryCmp so x y = longCmp (x.sortName so) (y.sortName so) := by
    rw [holEntryCmp_same (hxz.trans hyz.symm), nameCmp_eq, if_neg (not_not.mpr (hdx.trans hdy.symm)),
      if_pos ⟨hxlong, hylong⟩]
    exact if_pos (hgxz.trans hgyz.symm)
  have hfirst : ∀ {w : HolEntry}, w.path = z.path → w.group = z.group →
      (w.sortName so).doc = (z.sortName so).doc →
      holEntryCmp so w z = firstCmp (w.sortName so).first (z.sortName so).first := by
    intro w hwz hgwz hdw
    rw [holEntryCmp_same hwz, nameCmp_eq, if_neg (not_not.mpr hdw), if_neg fun hw => hzlong hw.2]
    exact if_pos hgwz
  have hxz' := hfirst hxz hgxz hdx
  have hyz' := hfirst hyz hgyz hdy
  constructor
  · rw [← hxy, ← hxz', ← hyz']
    intro hlt
    constructor
    · rcases lt_trichotomy (holEntryCmp so y z) 0 with hneg | hzero | hpos
      · rw [Int.sign_eq_neg_one_of_neg hneg,
          Int.sign_eq_neg_one_of_neg (h.lt_trans hx hy hz hlt hneg)]
      · rw [hzero, Int.sign_zero, Int.sign_nonpos_iff]
        exact h.trans x hx y hy z hz hlt.le hzero.le
      · rw [Int.sign_eq_one_of_pos hpos]
        rcases Int.sign_trichotomy (holEntryCmp so x z) with hs | hs | hs <;> omega
    · rintro ⟨hxz0, hyz0⟩
      have hzy := (h.eq_iff hy hz).mp hyz0
      have hsign := h.sign_congr hx hz hy hxz0
      rw [hzy, Int.sign_zero, Int.sign_eq_zero_iff_zero] at hsign
      omega
  · rw [← hxy, ← hxz', ← hyz']
    exact fun heq => h.sign_congr hx hy hz heq

theorem alike_of_ties {x y z : HolEntry} (hx : x ∈ es) (hy : y ∈ es) (hz : z ∈ es)
    (hxy : Tied x.path y.path) (hyz : Tied y.path z.path) : Alike so x z := by
  have hxy0 := hxy.cmp so (hints x hx) (hints y hy)
  have hyz0 := hyz.cmp so (hints y hy) (hints z hz)
  have hxz0 : holEntryCmp so x z = 0 := by
    have hsign := h.sign_congr hx hy hz hxy0
    rwa [hyz0, Int.sign_zero, Int.sign_eq_zero_iff_zero] at hsign
  by_cases hpath : x.path = z.path
  · rw [holEntryCmp_same hpath, groupCmp_eq_zero_iff (hints x hx).1 (hints z hz).1] at hxz0
    exact .inl ⟨hpath, hxz0.1, (nameCmp_eq_zero_iff _ _).mp hxz0.2⟩
  · have hxne := hxy.1
    have hzne := hyz.2.1
    rw [holEntryCmp_path (by simp [hxne, hzne])] at hxz0
    unfold belowCmp at hxz0
    rw [if_neg hpath, pathCmp_eq_zero_iff (hints x hx).2 (hints z hz).2] at hxz0
    exact .inr ⟨hxne, hzne, hpath, hxz0⟩

end

/-- The comparison is what `qsort` asks for exactly on such entries. -/
theorem consistent_iff {so : List ℤ} {es : List HolEntry} (hints : ∀ e ∈ es, e.Ints) :
    Consistent (holEntryCmp so) es ↔ Comparable so es :=
  ⟨fun h => ⟨fun _ hx _ hy _ _ => not_farApart h hints hx hy,
    fun _ hx _ hy _ hz => namesAgree h hx hy hz,
    fun _ hx _ hy _ hz => alike_of_ties h hints hx hy hz⟩, fun h => h.consistent hints⟩

end MuslBsd.Help
