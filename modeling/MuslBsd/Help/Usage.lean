import Mathlib.Data.List.TakeWhile
import Mathlib.Algebra.BigOperators.Group.List.Basic
import MuslBsd.Help.Types

/-! The usage lines of `_help`: one for every way to choose one of the alternatives of each argp. -/
namespace MuslBsd.Help
open MuslBsd.Argp

variable {π : Type}

/-! ### The code -/

/-- The level vector, one `char` for each argp with alternatives. -/
abbrev Levels : Type := List (BitVec 8)

/-- From `cp` up to the newline or the terminator, and from there on. -/
def lineAt (cp : CStr) : CStr × CStr :=
  (cp.takeWhile fun c => c ≠ newline, cp.dropWhile fun c => c ≠ newline)

/-- The loop that goes on by `i` lines; `none` when it passes the terminator. -/
def skipLines : ℕ → CStr × CStr → Option (CStr × CStr)
  | 0, at_ => some at_
  | _ + 1, (_, []) => none
  | i + 1, (_, _ :: after) => skipLines i (lineAt after)

mutual

/-- `argp_args_levels`. -/
def argpArgsLevels : HelpArgp π → ℕ
  | .node _ _ argsDoc children =>
    (if newline ∈ argsDoc.getD [] then 1 else 0) + childrenLevels children

def childrenLevels : HelpChildren π → ℕ
  | .nil => 0
  | .cons argp _ _ children => argpArgsLevels argp + childrenLevels children

end

/-- A part of a usage line: whether more patterns follow, the level vector, where `*levels` points
to in it, and what has been printed, blanks apart. -/
structure Usage where
  more : Bool
  vec : Levels
  pos : ℕ
  printed : List CStr
  deriving DecidableEq

/-- What `argp_args_usage` prints of its own: the texts, what is at `nl`, and `multiple`. -/
def ownUsage (argsDoc : Option CStr) (vec : Levels) (pos : ℕ) :
    Option (List CStr × CStr × Bool) :=
  match argsDoc with
  | none => some ([], [], false)
  | some doc =>
    if (lineAt doc).2 = [] then some ([doc], [], false)
    else do
      let level ← vec[pos]?
      let (cp, nl) ← skipLines level.toInt.toNat (lineAt doc)
      some ([cp], nl, true)

/-- The end of `argp_args_usage`: the level of the argp itself, at `pos`, goes on if it has to. -/
def advanceOwn (pos : ℕ) (nl : CStr) (multiple : Bool) (u : Usage) : Option Usage :=
  if ¬u.more ∧ multiple then do
    let level ← u.vec[pos]?
    if nl ≠ [] then some { u with more := true, vec := u.vec.set pos (level + 1) }
    else if 0 < level.toInt then some { u with vec := u.vec.set pos 0 }
    else some u
  else some u

mutual

/-- `argp_args_usage`; `none` when it leaves the level vector or a string. -/
def argpArgsUsage : HelpArgp π → Levels → ℕ → Bool → Option Usage
  | .node _ _ argsDoc children, vec, pos, advance => do
    let (texts, nl, multiple) ← ownUsage argsDoc vec pos
    let u ← childrenUsage children vec (if multiple then pos + 1 else pos) advance
    advanceOwn pos nl multiple { u with printed := texts ++ u.printed }

def childrenUsage : HelpChildren π → Levels → ℕ → Bool → Option Usage
  | .nil, vec, pos, advance => some ⟨!advance, vec, pos, []⟩
  | .cons argp _ _ children, vec, pos, advance => do
    let u ← argpArgsUsage argp vec pos advance
    let v ← childrenUsage children u.vec u.pos !u.more
    some { v with printed := u.printed ++ v.printed }

end

/-- The usage loop of `_help`, for at most `k` lines: what they end with, and whether it goes on. -/
def usageLoop (argp : HelpArgp π) : ℕ → Levels → Option (List (List CStr) × Bool)
  | 0, _ => some ([], true)
  | k + 1, vec => do
    let u ← argpArgsUsage argp vec 0 true
    if u.more then
      let (lines, more) ← usageLoop argp k u.vec
      some (u.printed :: lines, more)
    else some ([u.printed], false)

/-- The level vector that `_help` starts with. -/
def firstLevels (argp : HelpArgp π) : Levels := List.replicate (argpArgsLevels argp) 0

/-! ### The alternatives -/

def alternatives : CStr → List CStr
  | [] => [[]]
  | c :: cs => if c = newline then [] :: alternatives cs else (alternatives cs).modifyHead (c :: ·)

/-- How many alternatives there are; without an `args_doc` there is one, the empty one. -/
def countAlternatives (argsDoc : Option CStr) : ℕ :=
  match argsDoc with
  | none => 1
  | some doc => (alternatives doc).length

mutual

/-- The numbers of alternatives, of the argps that have several, in the order of the level vector. -/
def radices : HelpArgp π → List ℕ
  | .node _ _ argsDoc children =>
    if newline ∈ argsDoc.getD [] then countAlternatives argsDoc :: childrenRadices children
    else childrenRadices children

def childrenRadices : HelpChildren π → List ℕ
  | .nil => []
  | .cons argp _ _ children => radices argp ++ childrenRadices children

end

mutual

/-- The choice number `k`. The first child changes fastest, and the argp itself slowest. -/
def choice : HelpArgp π → ℕ → List ℕ
  | .node _ _ argsDoc children, k =>
    if newline ∈ argsDoc.getD [] then
      k / (childrenRadices children).prod ::
        childrenChoice children (k % (childrenRadices children).prod)
    else childrenChoice children k

def childrenChoice : HelpChildren π → ℕ → List ℕ
  | .nil, _ => []
  | .cons argp _ _ children, k =>
    choice argp (k % (radices argp).prod) ++ childrenChoice children (k / (radices argp).prod)

end

mutual

/-- The texts that are chosen by `ds`. -/
def chosen : HelpArgp π → List ℕ → List CStr
  | .node _ _ argsDoc children, ds =>
    if newline ∈ argsDoc.getD [] then
      (alternatives (argsDoc.getD [])).getD (ds.headD 0) [] :: childrenChosen children ds.tail
    else argsDoc.toList ++ childrenChosen children ds

def childrenChosen : HelpChildren π → List ℕ → List CStr
  | .nil, _ => []
  | .cons argp _ _ children, ds =>
    chosen argp (ds.take (radices argp).length) ++
      childrenChosen children (ds.drop (radices argp).length)

end

/-! ### Lines -/

theorem alternatives_lineAt (doc : CStr) : alternatives doc = (lineAt doc).1 ::
    (match (lineAt doc).2 with
    | [] => []
    | _ :: after => alternatives after) := by
  induction doc with
  | nil => rfl
  | cons c cs ih =>
    by_cases hc : c = newline
    · have halt : alternatives (c :: cs) = [] :: alternatives cs := if_pos hc
      have hline : lineAt (c :: cs) = ([], c :: cs) := by
        unfold lineAt
        rw [List.takeWhile_cons_of_neg (by simpa using hc),
          List.dropWhile_cons_of_neg (by simpa using hc)]
      rw [halt, hline]
    · have halt : alternatives (c :: cs) = (alternatives cs).modifyHead (c :: ·) := if_neg hc
      have hline : lineAt (c :: cs) = (c :: (lineAt cs).1, (lineAt cs).2) := by
        unfold lineAt
        rw [List.takeWhile_cons_of_pos (by simpa using hc),
          List.dropWhile_cons_of_pos (by simpa using hc)]
      rw [halt, hline, ih]
      rfl

theorem alternatives_ne_nil (doc : CStr) : alternatives doc ≠ [] := by
  rw [alternatives_lineAt]
  exact List.cons_ne_nil _ _

theorem lineAt_eq_nil_iff (doc : CStr) : (lineAt doc).2 = [] ↔ newline ∉ doc := by
  unfold lineAt
  rw [List.dropWhile_eq_nil_iff]
  constructor
  · intro h hmem
    simpa using h newline hmem
  · intro h c hc
    have hne : c ≠ newline := fun heq => h (heq ▸ hc)
    simpa using hne

theorem alternatives_of_single {doc : CStr} (h : newline ∉ doc) : alternatives doc = [doc] := by
  have hnil := (lineAt_eq_nil_iff doc).mpr h
  have hline : (lineAt doc).1 = doc := by
    have happend := List.takeWhile_append_dropWhile (p := fun c : CChar => decide (c ≠ newline)) (l := doc)
    rw [show doc.dropWhile _ = [] from hnil, List.append_nil] at happend
    exact happend
  rw [alternatives_lineAt, hnil, hline]

theorem length_alternatives (doc : CStr) : (alternatives doc).length = doc.count newline + 1 := by
  induction doc with
  | nil => rfl
  | cons c cs ih =>
    by_cases hc : c = newline
    · have halt : alternatives (c :: cs) = [] :: alternatives cs := if_pos hc
      rw [halt, List.length_cons, ih, hc, List.count_cons_self]
    · have halt : alternatives (c :: cs) = (alternatives cs).modifyHead (c :: ·) := if_neg hc
      rw [halt, List.length_modifyHead, ih, List.count_cons_of_ne hc]

/-- The alternative number `i`, and whether it is the last one. -/
theorem skipLines_eq (i : ℕ) (doc : CStr) (hi : i < (alternatives doc).length) :
    ∃ nl, skipLines i (lineAt doc) = some ((alternatives doc).getD i [], nl) ∧
      (nl = [] ↔ i + 1 = (alternatives doc).length) := by
  induction i generalizing doc with
  | zero =>
    refine ⟨(lineAt doc).2, ?_, ?_⟩
    · rw [alternatives_lineAt]
      rfl
    · rw [alternatives_lineAt]
      cases hnl : (lineAt doc).2 with
      | nil => exact iff_of_true rfl rfl
      | cons c after =>
        have hpos := List.length_pos_iff.mpr (alternatives_ne_nil after)
        apply iff_of_false (List.cons_ne_nil _ _)
        simp only [List.length_cons]
        omega
  | succ i ih =>
    rw [alternatives_lineAt] at hi ⊢
    cases hline : lineAt doc with
    | mk line nl =>
      rw [hline] at hi
      cases nl with
      | nil => simp at hi
      | cons c after =>
        have hafter : i < (alternatives after).length := by simpa using hi
        obtain ⟨nl, hskip, hend⟩ := ih after hafter
        refine ⟨nl, hskip, ?_⟩
        rw [hend]
        exact (Nat.succ_inj (a := i + 1)).symm

/-! ### One call -/

/-- The digits in the level vector. -/
def stored (ds : List ℕ) : Levels := ds.map (BitVec.ofNat 8)

theorem toInt_stored {d : ℕ} (hd : d < 128) : (BitVec.ofNat 8 d).toInt = d := by
  have hmod : d % 2 ^ 8 = d := Nat.mod_eq_of_lt (by omega)
  rw [BitVec.toInt_eq_toNat_of_lt]
  · rw [BitVec.toNat_ofNat, hmod]
  · rw [BitVec.toNat_ofNat, hmod]
    omega

mutual

theorem length_radices : ∀ argp : HelpArgp π, (radices argp).length = argpArgsLevels argp
  | .node options parser argsDoc children => by
    have hchildren := length_childrenRadices children
    unfold radices argpArgsLevels
    split
    · rw [List.length_cons, hchildren]
      omega
    · rw [hchildren]
      omega

theorem length_childrenRadices : ∀ children : HelpChildren π,
    (childrenRadices children).length = childrenLevels children
  | .nil => rfl
  | .cons argp header group children => by
    unfold childrenRadices childrenLevels
    rw [List.length_append, length_radices argp, length_childrenRadices children]

end

mutual

theorem length_choice : ∀ (argp : HelpArgp π) (k : ℕ),
    (choice argp k).length = (radices argp).length
  | .node options parser argsDoc children, k => by
    unfold choice radices
    split
    · rw [List.length_cons, List.length_cons, length_childrenChoice children]
    · exact length_childrenChoice children k

theorem length_childrenChoice : ∀ (children : HelpChildren π) (k : ℕ),
    (childrenChoice children k).length = (childrenRadices children).length
  | .nil, k => rfl
  | .cons argp header group children, k => by
    unfold childrenChoice childrenRadices
    rw [List.length_append, List.length_append, length_choice argp, length_childrenChoice children]

end

/-! ### The next number, by its digits -/

section Next

variable {k n p : ℕ}

theorem next_mod : (k + 1) % (n * p) % p = (k % p + 1) % p := by
  rw [Nat.mod_mod_of_dvd _ (Nat.dvd_mul_left p n), Nat.mod_add_mod]

theorem carry_iff (hp : 0 < p) : p ∣ k + 1 ↔ k % p + 1 = p := by
  have hlt := Nat.mod_lt k hp
  rw [Nat.dvd_iff_mod_eq_zero, ← Nat.mod_add_mod]
  constructor
  · intro hzero
    by_contra hne
    rw [Nat.mod_eq_of_lt (by omega)] at hzero
    omega
  · intro heq
    rw [heq, Nat.mod_self]

theorem next_div (hp : 0 < p) (hk : k < n * p) : (k + 1) % (n * p) / p =
    if k % p + 1 = p then (k / p + 1) % n else k / p := by
  have hdiv : k / p < n := (Nat.div_lt_iff_lt_mul hp).mpr hk
  rw [Nat.mod_mul_left_div_self, Nat.succ_div]
  by_cases hcarry : k % p + 1 = p
  · rw [if_pos ((carry_iff hp).mpr hcarry), if_pos hcarry]
  · rw [if_neg (mt (carry_iff hp).mp hcarry), if_neg hcarry, Nat.add_zero, Nat.mod_eq_of_lt hdiv]

theorem last_iff (hp : 0 < p) : k + 1 = n * p ↔ k % p + 1 = p ∧ k / p + 1 = n := by
  have hsplit := Nat.div_add_mod k p
  have hlt := Nat.mod_lt k hp
  constructor
  · intro heq
    have hdvd : p ∣ k + 1 := heq ▸ Nat.dvd_mul_left p n
    have hmod := (carry_iff hp).mp hdvd
    refine ⟨hmod, ?_⟩
    apply Nat.eq_of_mul_eq_mul_left hp
    rw [Nat.mul_add, Nat.mul_comm p n]
    omega
  · intro h
    rw [← h.2, Nat.add_mul, Nat.mul_comm]
    omega

theorem decide_last (hp : 0 < p) : decide (k + 1 = n * p) =
    (decide (k % p + 1 = p) && decide (k / p + 1 = n)) := by
  rw [← Bool.decide_and]
  exact decide_eq_decide.mpr (last_iff hp)

end Next

/-- What a call leaves that has stood at the choice number `k` of `size`. -/
def Usage.after (pre post : Levels) (choice : ℕ → List ℕ) (texts : List CStr) (size k : ℕ)
    (advance : Bool) : Usage where
  more := !(advance && decide (k + 1 = size))
  vec := pre ++ stored (choice (if advance then (k + 1) % size else k)) ++ post
  pos := pre.length + (choice k).length
  printed := texts

/-- The own level, between what stands before it and the levels of the children. -/
theorem advanceOwn_eq (pre mid : Levels) {d n : ℕ} (hd : d < n) (hn : n ≤ 128) (nl : CStr)
    (hnl : nl = [] ↔ d + 1 = n) (more : Bool) (pos : ℕ) (texts : List CStr) :
    advanceOwn pre.length nl true ⟨more, pre ++ BitVec.ofNat 8 d :: mid, pos, texts⟩ =
      some ⟨more || decide (d + 1 ≠ n),
        pre ++ BitVec.ofNat 8 (if more then d else (d + 1) % n) :: mid, pos, texts⟩ := by
  have hget : (pre ++ BitVec.ofNat 8 d :: mid)[pre.length]? = some (BitVec.ofNat 8 d) := by
    rw [List.getElem?_append_right (Nat.le_refl _), Nat.sub_self]
    rfl
  have hset : ∀ b : BitVec 8, (pre ++ BitVec.ofNat 8 d :: mid).set pre.length b = pre ++ b :: mid := by
    intro b
    rw [List.set_append_right _ _ (Nat.le_refl _), Nat.sub_self]
    rfl
  have hint := toInt_stored (d := d) (by omega)
  cases more with
  | true => rfl
  | false =>
    unfold advanceOwn
    rw [if_pos ⟨Bool.false_ne_true, rfl⟩]
    dsimp only
    rw [hget]
    by_cases hlast : d + 1 = n
    · have hnil := hnl.mpr hlast
      have hmod : (d + 1) % n = 0 := by rw [hlast, Nat.mod_self]
      have hmore : (false || decide (d + 1 ≠ n)) = false := by simpa using hlast
      rw [hmore, if_neg Bool.false_ne_true, hmod]
      show (if nl ≠ [] then _ else if 0 < (BitVec.ofNat 8 d).toInt then _ else _) = _
      rw [if_neg (not_not.mpr hnil), hint, hset]
      by_cases hpos : 0 < (d : ℤ)
      · rw [if_pos hpos]
        rfl
      · have hzero : d = 0 := by omega
        rw [if_neg hpos, hzero]
    · have hne := mt hnl.mp hlast
      have hmod : (d + 1) % n = d + 1 := Nat.mod_eq_of_lt (by omega)
      have hmore : (false || decide (d + 1 ≠ n)) = true := by simpa using hlast
      rw [hmore, if_neg Bool.false_ne_true, hmod]
      show (if nl ≠ [] then _ else _) = _
      rw [if_pos hne, hset, BitVec.ofNat_add]
      rfl

/-- What is printed of an `args_doc` with several alternatives. -/
theorem ownUsage_several {doc : CStr} (hdoc : newline ∈ doc) {vec : Levels} {pos d : ℕ}
    (hvec : vec[pos]? = some (BitVec.ofNat 8 d)) (hd : d < (alternatives doc).length)
    (hn : (alternatives doc).length ≤ 128) :
    ∃ nl, ownUsage (some doc) vec pos = some ([(alternatives doc).getD d []], nl, true) ∧
      (nl = [] ↔ d + 1 = (alternatives doc).length) := by
  obtain ⟨nl, hskip, hend⟩ := skipLines_eq d doc hd
  have hint : (BitVec.ofNat 8 d).toInt.toNat = d := by
    rw [toInt_stored (by omega)]
    rfl
  have hne : ¬(lineAt doc).2 = [] := mt (lineAt_eq_nil_iff doc).mp (not_not.mpr hdoc)
  refine ⟨nl, ?_, hend⟩
  unfold ownUsage
  dsimp only
  rw [if_neg hne, hvec]
  show (skipLines (BitVec.ofNat 8 d).toInt.toNat (lineAt doc)).bind _ = _
  rw [hint, hskip]
  rfl

theorem ownUsage_single {argsDoc : Option CStr} (hdoc : newline ∉ argsDoc.getD []) (vec : Levels)
    (pos : ℕ) : ownUsage argsDoc vec pos = some (argsDoc.toList, [], false) := by
  cases argsDoc with
  | none => rfl
  | some doc => exact if_pos ((lineAt_eq_nil_iff doc).mpr hdoc)

theorem pos_of_lt_mul {k m n : ℕ} (h : k < m * n) : 0 < m ∧ 0 < n := by
  have hpos : 0 < m * n := by omega
  exact ⟨Nat.pos_of_mul_pos_right hpos, Nat.pos_of_mul_pos_left hpos⟩

/-- The numbers of alternatives that a level can count. -/
def Countable (rs : List ℕ) : Prop := ∀ n ∈ rs, n ≤ 128

/-- The own level goes on when the children have come round. -/
theorem after_own (pre post : Levels) (children : ℕ → List ℕ) (texts : List CStr) (advance : Bool)
    {n p k : ℕ} (hk : k < n * p) (hn : n ≤ 128) {nl : CStr} (hnl : nl = [] ↔ k / p + 1 = n) :
    advanceOwn pre.length nl true
        (.after (pre ++ [BitVec.ofNat 8 (k / p)]) post children texts p (k % p) advance) =
      some (.after pre post (fun i => i / p :: children (i % p)) texts (n * p) k advance) := by
  obtain ⟨-, hp⟩ := pos_of_lt_mul hk
  have hd : k / p < n := (Nat.div_lt_iff_lt_mul hp).mpr hk
  have hmod : k % p < p := Nat.mod_lt k hp
  have hown := advanceOwn_eq pre
    (stored (children (if advance then (k % p + 1) % p else k % p)) ++ post) hd hn nl hnl
    (!(advance && decide (k % p + 1 = p)))
    ((pre ++ [BitVec.ofNat 8 (k / p)]).length + (children (k % p)).length) texts
  have hshape : Usage.after (pre ++ [BitVec.ofNat 8 (k / p)]) post children texts p (k % p) advance =
      ⟨!(advance && decide (k % p + 1 = p)), pre ++ BitVec.ofNat 8 (k / p) ::
        (stored (children (if advance then (k % p + 1) % p else k % p)) ++ post),
        (pre ++ [BitVec.ofNat 8 (k / p)]).length + (children (k % p)).length, texts⟩ := by
    unfold Usage.after
    rw [List.append_assoc, List.append_assoc, List.singleton_append]
  rw [hshape, hown]
  unfold Usage.after
  have hmore : (!(advance && decide (k % p + 1 = p)) || decide (k / p + 1 ≠ n)) =
      !(advance && decide (k + 1 = n * p)) := by
    rw [decide_last hp]
    cases advance with
    | false => rfl
    | true => simp
  have hpos : (pre ++ [BitVec.ofNat 8 (k / p)]).length + (children (k % p)).length =
      pre.length + (k / p :: children (k % p)).length := by
    simp only [List.length_append, List.length_cons, List.length_nil]
    omega
  have hvec : pre ++ BitVec.ofNat 8
        (if (!(advance && decide (k % p + 1 = p))) = true then k / p else (k / p + 1) % n) ::
        (stored (children (if advance = true then (k % p + 1) % p else k % p)) ++ post) =
      pre ++ stored ((fun i => i / p :: children (i % p))
        (if advance = true then (k + 1) % (n * p) else k)) ++ post := by
    rw [List.append_assoc]
    cases advance with
    | false => rfl
    | true =>
      have hdiv := next_div (n := n) hp hk
      have hrest := next_mod (k := k) (n := n) (p := p)
      show _ = pre ++ (BitVec.ofNat 8 ((k + 1) % (n * p) / p) ::
        stored (children ((k + 1) % (n * p) % p)) ++ post)
      rw [hdiv, hrest]
      by_cases hcarry : k % p + 1 = p
      · rw [if_pos hcarry]
        simp [hcarry]
      · rw [if_neg hcarry]
        simp [hcarry]
  rw [hmore, hpos, hvec]

/-- The other children go on when the first one has come round. -/
theorem after_children (pre post : Levels) {first children : ℕ → List ℕ} (texts : List CStr)
    (advance : Bool) {n p k : ℕ} (hk : k < n * p) (hfirst : ∀ i j, (first i).length = (first j).length) :
    (Usage.after (pre ++ stored (first (if advance then (k % p + 1) % p else k % p))) post children
        texts n (k / p) (advance && decide (k % p + 1 = p))) =
      .after pre post (fun i => first (i % p) ++ children (i / p)) texts (n * p) k advance := by
  obtain ⟨-, hp⟩ := pos_of_lt_mul hk
  have hmore : (advance && decide (k % p + 1 = p) && decide (k / p + 1 = n)) =
      (advance && decide (k + 1 = n * p)) := by
    rw [decide_last hp, Bool.and_assoc]
  have hpos : (pre ++ stored (first (if advance then (k % p + 1) % p else k % p))).length +
      (children (k / p)).length = pre.length + (first (k % p) ++ children (k / p)).length := by
    unfold stored
    rw [List.length_append, List.length_append, List.length_map, hfirst _ (k % p), Nat.add_assoc]
  have hvec : pre ++ stored (first (if advance then (k % p + 1) % p else k % p)) ++
        stored (children (if (advance && decide (k % p + 1 = p)) = true then (k / p + 1) % n
          else k / p)) ++ post =
      pre ++ stored ((fun i => first (i % p) ++ children (i / p))
        (if advance = true then (k + 1) % (n * p) else k)) ++ post := by
    unfold stored
    rw [List.append_assoc pre, ← List.map_append]
    cases advance with
    | false => rfl
    | true =>
      have hdiv := next_div (n := n) hp hk
      have hrest := next_mod (k := k) (n := n) (p := p)
      show pre ++ _ ++ post = pre ++ (first ((k + 1) % (n * p) % p) ++
        children ((k + 1) % (n * p) / p)).map _ ++ post
      rw [hdiv, hrest]
      by_cases hcarry : k % p + 1 = p
      · rw [if_pos hcarry]
        simp [hcarry]
      · rw [if_neg hcarry]
        simp [hcarry]
  unfold Usage.after
  rw [hmore, hpos, hvec]

mutual

/-- A call prints the choice that the levels stand at, and goes on to the next one if it has to. -/
theorem argpArgsUsage_eq : ∀ (argp : HelpArgp π) (k : ℕ) (pre post : Levels) (advance : Bool),
    Countable (radices argp) → k < (radices argp).prod →
    argpArgsUsage argp (pre ++ stored (choice argp k) ++ post) pre.length advance =
      some (.after pre post (choice argp) (chosen argp (choice argp k)) (radices argp).prod k advance)
  | .node options parser argsDoc children, k, pre, post, advance => by
    intro hcount hk
    by_cases hdoc : newline ∈ argsDoc.getD []
    · cases argsDoc with
      | none => simp at hdoc
      | some doc =>
        have hradices : radices (.node options parser (some doc) children) =
            (alternatives doc).length :: childrenRadices children := if_pos hdoc
        have hchoice : choice (.node options parser (some doc) children) = fun i =>
            i / (childrenRadices children).prod ::
              childrenChoice children (i % (childrenRadices children).prod) := by
          funext i
          exact if_pos hdoc
        have hchosen : ∀ d ds, chosen (.node options parser (some doc) children) (d :: ds) =
            (alternatives doc).getD d [] :: childrenChosen children ds := fun d ds => if_pos hdoc
        rw [hradices] at hcount hk ⊢
        rw [List.prod_cons] at hk ⊢
        have hn : (alternatives doc).length ≤ 128 := hcount _ (List.mem_cons_self ..)
        have hrest : Countable (childrenRadices children) :=
          fun n hmem => hcount n (List.mem_cons_of_mem _ hmem)
        obtain ⟨-, hp⟩ := pos_of_lt_mul hk
        have hd : k / (childrenRadices children).prod < (alternatives doc).length :=
          (Nat.div_lt_iff_lt_mul hp).mpr hk
        have hmod : k % (childrenRadices children).prod < (childrenRadices children).prod :=
          Nat.mod_lt k hp
        rw [hchoice]
        dsimp only
        rw [hchosen]
        generalize hdk : k / (childrenRadices children).prod = d at *
        have hsplit : pre ++ stored (d :: childrenChoice children
            (k % (childrenRadices children).prod)) ++ post =
            (pre ++ [BitVec.ofNat 8 d]) ++ stored (childrenChoice children
              (k % (childrenRadices children).prod)) ++ post := by
          show pre ++ (BitVec.ofNat 8 d :: stored _) ++ post = _
          simp
        have hget : (pre ++ stored (d :: childrenChoice children
            (k % (childrenRadices children).prod)) ++ post)[pre.length]? =
            some (BitVec.ofNat 8 d) := by
          rw [List.append_assoc, List.getElem?_append_right (Nat.le_refl _), Nat.sub_self]
          rfl
        have hseveral : newline ∈ doc := hdoc
        obtain ⟨nl, hown, hnl⟩ := ownUsage_several hseveral hget hd hn
        have hchildren := childrenUsage_eq children _ (pre ++ [BitVec.ofNat 8 d]) post advance
          hrest hmod
        rw [← hsplit, List.length_append, List.length_singleton] at hchildren
        unfold argpArgsUsage
        rw [hown]
        show (childrenUsage children _ (pre.length + 1) advance).bind _ = _
        rw [hchildren]
        subst hdk
        exact after_own pre post (childrenChoice children) _ advance hk hn hnl
    · have hradices : radices (.node options parser argsDoc children) =
          childrenRadices children := if_neg hdoc
      have hchoice : choice (.node options parser argsDoc children) = childrenChoice children := by
        funext i
        exact if_neg hdoc
      have hchosen : ∀ ds, chosen (.node options parser argsDoc children) ds =
          argsDoc.toList ++ childrenChosen children ds := fun ds => if_neg hdoc
      rw [hradices] at hcount hk ⊢
      have hown := ownUsage_single hdoc (pre ++ stored (childrenChoice children k) ++ post) pre.length
      have hchildren := childrenUsage_eq children k pre post advance hcount hk
      rw [hchoice, hchosen]
      unfold argpArgsUsage
      rw [hown]
      show (childrenUsage children _ pre.length advance).bind _ = _
      rw [hchildren]
      exact if_neg (fun h => Bool.false_ne_true h.2)

theorem childrenUsage_eq : ∀ (children : HelpChildren π) (k : ℕ) (pre post : Levels) (advance : Bool),
    Countable (childrenRadices children) → k < (childrenRadices children).prod →
    childrenUsage children (pre ++ stored (childrenChoice children k) ++ post) pre.length advance =
      some (.after pre post (childrenChoice children)
        (childrenChosen children (childrenChoice children k)) (childrenRadices children).prod k advance)
  | .nil, k, pre, post, advance => by
    intro hcount hk
    have hzero : k = 0 := by
      have hlt : k < 1 := hk
      omega
    subst hzero
    unfold Usage.after childrenUsage
    cases advance with
    | true => rfl
    | false => rfl
  | .cons argp header group children, k, pre, post, advance => by
    intro hcount hk
    have hradices : childrenRadices (.cons argp header group children) =
        radices argp ++ childrenRadices children := rfl
    rw [hradices] at hcount hk ⊢
    rw [List.prod_append, Nat.mul_comm] at hk ⊢
    obtain ⟨hrest, hp⟩ := pos_of_lt_mul hk
    have hfirst : Countable (radices argp) := fun n hmem => hcount n (List.mem_append_left _ hmem)
    have hothers : Countable (childrenRadices children) :=
      fun n hmem => hcount n (List.mem_append_right _ hmem)
    have hmod : k % (radices argp).prod < (radices argp).prod := Nat.mod_lt k hp
    have hdiv : k / (radices argp).prod < (childrenRadices children).prod :=
      (Nat.div_lt_iff_lt_mul hp).mpr hk
    have hargp := argpArgsUsage_eq argp (k % (radices argp).prod) pre
      (stored (childrenChoice children (k / (radices argp).prod)) ++ post) advance hfirst hmod
    have hlen : ∀ i j, (choice argp i).length = (choice argp j).length := by
      intro i j
      rw [length_choice, length_choice]
    have hchildren := childrenUsage_eq children (k / (radices argp).prod)
      (pre ++ stored (choice argp (if advance then (k % (radices argp).prod + 1) % (radices argp).prod
        else k % (radices argp).prod))) post
      (advance && decide (k % (radices argp).prod + 1 = (radices argp).prod)) hothers hdiv
    have hchosen : childrenChosen (.cons argp header group children)
        (childrenChoice (.cons argp header group children) k) =
        chosen argp (choice argp (k % (radices argp).prod)) ++
          childrenChosen children (childrenChoice children (k / (radices argp).prod)) := by
      have hlen' := length_choice argp (k % (radices argp).prod)
      show chosen argp (List.take (radices argp).length (_ ++ _)) ++
        childrenChosen children (List.drop (radices argp).length (_ ++ _)) = _
      rw [← hlen', List.take_left, List.drop_left]
    have hnext : childrenChoice (.cons argp header group children) = fun i =>
        choice argp (i % (radices argp).prod) ++ childrenChoice children (i / (radices argp).prod) :=
      rfl
    have hsplit : pre ++ stored (childrenChoice (.cons argp header group children) k) ++ post =
        pre ++ stored (choice argp (k % (radices argp).prod)) ++
          (stored (childrenChoice children (k / (radices argp).prod)) ++ post) := by
      rw [hnext]
      unfold stored
      rw [List.map_append]
      simp only [List.append_assoc]
    have hafter := @after_children pre post (choice argp) (childrenChoice children)
      (chosen argp (choice argp (k % (radices argp).prod)) ++
        childrenChosen children (childrenChoice children (k / (radices argp).prod)))
      advance _ _ _ hk hlen
    rw [hchosen, hnext, ← hafter, ← hnext, hsplit]
    unfold childrenUsage
    rw [hargp]
    have hpos : (pre ++ stored (choice argp (if advance = true then
          (k % (radices argp).prod + 1) % (radices argp).prod
          else k % (radices argp).prod))).length =
        pre.length + (choice argp (k % (radices argp).prod)).length := by
      unfold stored
      rw [List.length_append, List.length_map, hlen]
    rw [hpos, List.append_assoc (pre ++ _)] at hchildren
    show (childrenUsage children _ _ (!!(advance && decide _))).bind _ = _
    rw [Bool.not_not]
    show (childrenUsage children (pre ++ stored _ ++ (stored _ ++ post))
      (pre.length + (choice argp _).length) _).bind _ = _
    rw [hchildren]
    rfl

end

/-! ### All choices -/

/-- A choice takes one alternative of each argp that has several. -/
def IsChoice (argp : HelpArgp π) (ds : List ℕ) : Prop :=
  List.Forall₂ (fun d n => d < n) ds (radices argp)

def IsChildrenChoice (children : HelpChildren π) (ds : List ℕ) : Prop :=
  List.Forall₂ (fun d n => d < n) ds (childrenRadices children)

mutual

theorem isChoice : ∀ (argp : HelpArgp π) (k : ℕ), k < (radices argp).prod → IsChoice argp (choice argp k)
  | .node options parser argsDoc children, k => by
    intro hk
    unfold IsChoice
    unfold radices at hk ⊢
    unfold choice
    split
    · next hdoc =>
      rw [if_pos hdoc, List.prod_cons] at hk
      obtain ⟨-, hp⟩ := pos_of_lt_mul hk
      exact .cons ((Nat.div_lt_iff_lt_mul hp).mpr hk) (isChildrenChoice children _ (Nat.mod_lt k hp))
    · next hdoc =>
      rw [if_neg hdoc] at hk
      exact isChildrenChoice children k hk

theorem isChildrenChoice : ∀ (children : HelpChildren π) (k : ℕ), k < (childrenRadices children).prod →
    IsChildrenChoice children (childrenChoice children k)
  | .nil, k => fun _ => .nil
  | .cons argp header group children, k => by
    intro hk
    unfold IsChildrenChoice childrenChoice
    unfold childrenRadices at hk ⊢
    rw [List.prod_append, Nat.mul_comm] at hk
    obtain ⟨-, hp⟩ := pos_of_lt_mul hk
    exact List.rel_append (isChoice argp _ (Nat.mod_lt k hp))
      (isChildrenChoice children _ ((Nat.div_lt_iff_lt_mul hp).mpr hk))

end

theorem exists_number {p n d i : ℕ} (hi : i < p) (hd : d < n) :
    ∃ k, k < n * p ∧ k / p = d ∧ k % p = i := by
  have hlt : d * p + i < (d + 1) * p := by
    rw [Nat.add_mul]
    omega
  have hle : (d + 1) * p ≤ n * p := Nat.mul_le_mul_right p hd
  refine ⟨d * p + i, by omega, ?_, ?_⟩
  · rw [Nat.mul_comm, Nat.mul_add_div (by omega), Nat.div_eq_of_lt hi, Nat.add_zero]
  · rw [Nat.mul_comm, Nat.mul_add_mod, Nat.mod_eq_of_lt hi]

mutual

/-- Every choice has one number. -/
theorem exists_choice : ∀ (argp : HelpArgp π) (ds : List ℕ), IsChoice argp ds →
    ∃! k, k < (radices argp).prod ∧ choice argp k = ds
  | .node options parser argsDoc children, ds => by
    intro hds
    unfold IsChoice at hds
    unfold radices at hds ⊢
    unfold choice
    by_cases hdoc : newline ∈ argsDoc.getD []
    · rw [if_pos hdoc] at hds ⊢
      obtain ⟨d, rest, hd, hrest, rfl⟩ := List.forall₂_cons_right_iff.mp hds
      obtain ⟨i, ⟨hi, hichoice⟩, hunique⟩ := exists_childrenChoice children rest hrest
      obtain ⟨k, hk, hkdiv, hkmod⟩ := exists_number hi hd
      rw [List.prod_cons]
      refine ⟨k, ⟨hk, ?_⟩, ?_⟩
      · simp only [if_pos hdoc]
        rw [hkdiv, hkmod, hichoice]
      · intro k' hk'
        simp only [if_pos hdoc] at hk'
        obtain ⟨hlt, hcons⟩ := hk'
        obtain ⟨hdiv, hmod⟩ := List.cons_eq_cons.mp hcons
        have hp : 0 < (childrenRadices children).prod := by omega
        have heq := hunique _ ⟨Nat.mod_lt k' hp, hmod⟩
        rw [← Nat.div_add_mod k' (childrenRadices children).prod, heq, hdiv, ← hkdiv, ← hkmod,
          Nat.div_add_mod]
    · rw [if_neg hdoc] at hds ⊢
      simp only [if_neg hdoc]
      exact exists_childrenChoice children ds hds

theorem exists_childrenChoice : ∀ (children : HelpChildren π) (ds : List ℕ),
    IsChildrenChoice children ds →
    ∃! k, k < (childrenRadices children).prod ∧ childrenChoice children k = ds
  | .nil, ds => by
    intro hds
    have hnil : ds = [] := List.forall₂_nil_right_iff.mp hds
    refine ⟨0, ⟨Nat.one_pos, hnil.symm⟩, ?_⟩
    intro k hk
    have hlt : k < 1 := hk.1
    omega
  | .cons argp header group children, ds => by
    intro hds
    unfold IsChildrenChoice at hds
    unfold childrenRadices at hds ⊢
    unfold childrenChoice
    obtain ⟨first, rest, hfirst, hrest, rfl⟩ : ∃ first rest, IsChoice argp first ∧
        IsChildrenChoice children rest ∧ ds = first ++ rest := by
      refine ⟨ds.take (radices argp).length, ds.drop (radices argp).length, ?_, ?_,
        (List.take_append_drop ..).symm⟩
      · have htake := List.forall₂_take (radices argp).length hds
        rw [List.take_left] at htake
        exact htake
      · have hdrop := List.forall₂_drop (radices argp).length hds
        rw [List.drop_left] at hdrop
        exact hdrop
    obtain ⟨i, ⟨hi, hichoice⟩, hiunique⟩ := exists_choice argp first hfirst
    obtain ⟨d, ⟨hd, hdchoice⟩, hdunique⟩ := exists_childrenChoice children rest hrest
    obtain ⟨k, hk, hkdiv, hkmod⟩ := exists_number hi hd
    rw [List.prod_append, Nat.mul_comm]
    refine ⟨k, ⟨hk, ?_⟩, ?_⟩
    · rw [hkdiv, hkmod, hichoice, hdchoice]
    · intro k' hk'
      obtain ⟨hlt, happend⟩ := hk'
      have hlen : (choice argp (k' % (radices argp).prod)).length = first.length := by
        rw [length_choice, hfirst.length_eq]
      obtain ⟨hmod, hdiv⟩ := List.append_inj happend hlen
      have hp : 0 < (radices argp).prod := by omega
      have heq := hiunique _ ⟨Nat.mod_lt k' hp, hmod⟩
      have heq' := hdunique _ ⟨(Nat.div_lt_iff_lt_mul hp).mpr hlt, hdiv⟩
      rw [← Nat.div_add_mod k' (radices argp).prod, heq, heq', ← hkdiv, ← hkmod, Nat.div_add_mod]

end

/-! ### The loop -/

mutual

theorem choice_zero : ∀ argp : HelpArgp π, choice argp 0 = List.replicate (radices argp).length 0
  | .node options parser argsDoc children => by
    unfold choice radices
    split
    · rw [Nat.zero_div, Nat.zero_mod, childrenChoice_zero children]
      rfl
    · exact childrenChoice_zero children

theorem childrenChoice_zero : ∀ children : HelpChildren π,
    childrenChoice children 0 = List.replicate (childrenRadices children).length 0
  | .nil => rfl
  | .cons argp header group children => by
    unfold childrenChoice childrenRadices
    rw [Nat.zero_mod, Nat.zero_div, choice_zero argp, childrenChoice_zero children,
      List.length_append, List.replicate_append_replicate]

end

theorem stored_choice_zero (argp : HelpArgp π) : stored (choice argp 0) = firstLevels argp := by
  unfold stored firstLevels
  rw [choice_zero, List.map_replicate, length_radices]
  rfl

mutual

theorem prod_radices_pos : ∀ argp : HelpArgp π, 0 < (radices argp).prod
  | .node options parser argsDoc children => by
    have hchildren := prod_childrenRadices_pos children
    unfold radices
    split
    · have hown : 0 < countAlternatives argsDoc := by
        cases argsDoc with
        | none => exact Nat.one_pos
        | some doc => exact List.length_pos_iff.mpr (alternatives_ne_nil doc)
      rw [List.prod_cons]
      exact Nat.mul_pos hown hchildren
    · exact hchildren

theorem prod_childrenRadices_pos : ∀ children : HelpChildren π, 0 < (childrenRadices children).prod
  | .nil => Nat.one_pos
  | .cons argp header group children => by
    unfold childrenRadices
    rw [List.prod_append]
    exact Nat.mul_pos (prod_radices_pos argp) (prod_childrenRadices_pos children)

end

/-- From the choice number `k` on, the loop prints one line for each choice that is left. -/
theorem usageLoop_eq (argp : HelpArgp π) (hcount : Countable (radices argp)) (m k : ℕ)
    (hm : k + m + 1 = (radices argp).prod) :
    usageLoop argp (m + 1) (stored (choice argp k)) =
      some ((List.range' k (m + 1)).map fun i => chosen argp (choice argp i), false) := by
  induction m generalizing k with
  | zero =>
    have hcall := argpArgsUsage_eq argp k [] [] true hcount (by omega)
    rw [List.nil_append, List.append_nil] at hcall
    have hlast : (Usage.after [] [] (choice argp) (chosen argp (choice argp k))
        (radices argp).prod k true).more = false := by
      show (!(true && decide (k + 1 = (radices argp).prod))) = false
      rw [decide_eq_true (by omega)]
      rfl
    unfold usageLoop
    rw [show List.length ([] : Levels) = 0 from rfl] at hcall
    rw [hcall]
    show (if (Usage.after [] [] (choice argp) _ _ k true).more = true then _ else _) = _
    rw [hlast]
    rfl
  | succ m ih =>
    have hcall := argpArgsUsage_eq argp k [] [] true hcount (by omega)
    rw [List.nil_append, List.append_nil] at hcall
    have hmore : (Usage.after [] [] (choice argp) (chosen argp (choice argp k))
        (radices argp).prod k true).more = true := by
      show (!(true && decide (k + 1 = (radices argp).prod))) = true
      rw [decide_eq_false (by omega)]
      rfl
    have hvec : (Usage.after [] [] (choice argp) (chosen argp (choice argp k))
        (radices argp).prod k true).vec = stored (choice argp (k + 1)) := by
      show [] ++ stored (choice argp ((k + 1) % (radices argp).prod)) ++ [] = _
      rw [Nat.mod_eq_of_lt (by omega), List.append_nil, List.nil_append]
    have hrest := ih (k + 1) (by omega)
    unfold usageLoop
    rw [show List.length ([] : Levels) = 0 from rfl] at hcall
    rw [hcall]
    show (if (Usage.after [] [] (choice argp) _ _ k true).more = true then
      (usageLoop argp (m + 1) (Usage.after [] [] (choice argp) _ _ k true).vec).bind _ else _) = _
    rw [hmore, if_pos rfl, hvec, hrest]
    rfl

/-! ### A level that overflows -/

theorem advanceOwn_more {pos : ℕ} {nl : CStr} {multiple : Bool} {u v : Usage}
    (h : advanceOwn pos nl multiple u = some v) (hu : u.more = true) : v.more = true := by
  unfold advanceOwn at h
  rw [if_neg (fun hno => hno.1 hu)] at h
  rw [← Option.some.inj h]
  exact hu

/-- Before the last alternative, the own level goes on. -/
theorem advanceOwn_open {pos : ℕ} {nl : CStr} {u v : Usage} (hnl : nl ≠ [])
    (h : advanceOwn pos nl true u = some v) : v.more = true := by
  by_cases hu : u.more = true
  · exact advanceOwn_more h hu
  · unfold advanceOwn at h
    rw [if_pos ⟨hu, rfl⟩] at h
    obtain ⟨level, -, h⟩ := Option.bind_eq_some_iff.mp h
    rw [if_pos hnl] at h
    rw [← Option.some.inj h]

/-- More alternatives than a `char` can count: the last one is never reached. -/
theorem ownUsage_uncountable {doc : CStr} (hdoc : 128 < (alternatives doc).length) {vec : Levels}
    {pos : ℕ} {texts : List CStr} {nl : CStr} {multiple : Bool}
    (h : ownUsage (some doc) vec pos = some (texts, nl, multiple)) : nl ≠ [] ∧ multiple = true := by
  have hmem : newline ∈ doc := by
    by_contra hno
    rw [alternatives_of_single hno] at hdoc
    simp at hdoc
  have hne : ¬(lineAt doc).2 = [] := mt (lineAt_eq_nil_iff doc).mp (not_not.mpr hmem)
  unfold ownUsage at h
  dsimp only at h
  rw [if_neg hne] at h
  cases hlevel : vec[pos]? with
  | none =>
    rw [hlevel] at h
    cases h
  | some level =>
    have hle : level.toInt.toNat ≤ 127 := by
      have hlt := BitVec.toInt_lt (x := level)
      omega
    obtain ⟨nl', hskip, hend⟩ := skipLines_eq level.toInt.toNat doc (by omega)
    rw [hlevel] at h
    change (skipLines level.toInt.toNat (lineAt doc)).bind _ = _ at h
    rw [hskip] at h
    cases h
    exact ⟨fun hnil => by have hlast := hend.mp hnil; omega, rfl⟩

mutual

/-- Nothing that is not asked to go on comes round. -/
theorem argpArgsUsage_still : ∀ (argp : HelpArgp π) (vec : Levels) (pos : ℕ) (u : Usage),
    argpArgsUsage argp vec pos false = some u → u.more = true
  | .node options parser argsDoc children, vec, pos, u => by
    intro h
    unfold argpArgsUsage at h
    obtain ⟨⟨texts, nl, multiple⟩, -, h⟩ := Option.bind_eq_some_iff.mp h
    obtain ⟨v, hv, h⟩ := Option.bind_eq_some_iff.mp h
    exact advanceOwn_more h (childrenUsage_still children _ _ v hv)

theorem childrenUsage_still : ∀ (children : HelpChildren π) (vec : Levels) (pos : ℕ) (u : Usage),
    childrenUsage children vec pos false = some u → u.more = true
  | .nil, vec, pos, u => by
    intro h
    rw [← Option.some.inj h]
    rfl
  | .cons argp header group children, vec, pos, u => by
    intro h
    unfold childrenUsage at h
    obtain ⟨v, hv, h⟩ := Option.bind_eq_some_iff.mp h
    obtain ⟨x, hx, h⟩ := Option.bind_eq_some_iff.mp h
    have hmore := argpArgsUsage_still argp vec pos v hv
    rw [hmore] at hx
    rw [← Option.some.inj h]
    exact childrenUsage_still children _ _ x hx

end

mutual

/-- With a level that overflows there are always more patterns. -/
theorem argpArgsUsage_more : ∀ (argp : HelpArgp π) (vec : Levels) (pos : ℕ) (advance : Bool) (u : Usage),
    ¬Countable (radices argp) → argpArgsUsage argp vec pos advance = some u → u.more = true
  | .node options parser argsDoc children, vec, pos, advance, u => by
    intro hcount h
    unfold argpArgsUsage at h
    obtain ⟨⟨texts, nl, multiple⟩, hown, h⟩ := Option.bind_eq_some_iff.mp h
    obtain ⟨v, hv, h⟩ := Option.bind_eq_some_iff.mp h
    by_cases hchildren : Countable (childrenRadices children)
    · have hmany : ∃ doc, argsDoc = some doc ∧ 128 < (alternatives doc).length := by
        unfold radices at hcount
        split at hcount
        · cases argsDoc with
          | none => simp at *
          | some doc =>
            refine ⟨doc, rfl, ?_⟩
            by_contra hle
            apply hcount
            intro n hn
            rcases List.mem_cons.mp hn with rfl | hn
            · exact Nat.le_of_not_lt hle
            · exact hchildren n hn
        · exact absurd hchildren hcount
      obtain ⟨doc, rfl, hlong⟩ := hmany
      obtain ⟨hnl, rfl⟩ := ownUsage_uncountable hlong hown
      exact advanceOwn_open hnl h
    · exact advanceOwn_more h (childrenUsage_more children _ _ advance v hchildren hv)

theorem childrenUsage_more : ∀ (children : HelpChildren π) (vec : Levels) (pos : ℕ) (advance : Bool)
    (u : Usage), ¬Countable (childrenRadices children) →
    childrenUsage children vec pos advance = some u → u.more = true
  | .nil, vec, pos, advance, u => by
    intro hcount
    exact absurd (fun n hn => absurd hn List.not_mem_nil) hcount
  | .cons argp header group children, vec, pos, advance, u => by
    intro hcount h
    unfold childrenUsage at h
    obtain ⟨v, hv, h⟩ := Option.bind_eq_some_iff.mp h
    obtain ⟨x, hx, h⟩ := Option.bind_eq_some_iff.mp h
    rw [← Option.some.inj h]
    show x.more = true
    by_cases hfirst : Countable (radices argp)
    · have hrest : ¬Countable (childrenRadices children) := by
        intro hrest
        apply hcount
        intro n hn
        rcases List.mem_append.mp hn with hn | hn
        · exact hfirst n hn
        · exact hrest n hn
      exact childrenUsage_more children _ _ _ x hrest hx
    · have hmore := argpArgsUsage_more argp vec pos advance v hfirst hv
      rw [hmore] at hx
      exact childrenUsage_still children _ _ x hx

end

theorem usageLoop_more {argp : HelpArgp π} (hcount : ¬Countable (radices argp)) (k : ℕ) (vec : Levels)
    {lines : List (List CStr)} {more : Bool} (h : usageLoop argp k vec = some (lines, more)) :
    more = true := by
  induction k generalizing vec lines with
  | zero =>
    cases h
    rfl
  | succ k ih =>
    unfold usageLoop at h
    obtain ⟨u, hu, h⟩ := Option.bind_eq_some_iff.mp h
    rw [if_pos (argpArgsUsage_more argp vec 0 true u hcount hu)] at h
    obtain ⟨⟨rest, more'⟩, hrest, h⟩ := Option.bind_eq_some_iff.mp h
    cases h
    exact ih u.vec hrest

/-- The lines are the choices in the order of their numbers, and every choice has one number. -/
structure Enumerates (argp : HelpArgp π) (lines : List (List CStr)) : Prop where
  lines : lines = (List.range (radices argp).prod).map fun k => chosen argp (choice argp k)
  choices : ∀ k < (radices argp).prod, IsChoice argp (choice argp k)
  once : ∀ ds, IsChoice argp ds → ∃! k, k < (radices argp).prod ∧ choice argp k = ds

/-- The loop ends with all usage lines just when no argp has more than 128 alternatives. -/
theorem usageLoop_complete_iff (argp : HelpArgp π) :
    (∃ k lines, usageLoop argp k (firstLevels argp) = some (lines, false) ∧
      Enumerates argp lines) ↔ ∀ n ∈ radices argp, n ≤ 128 := by
  constructor
  · intro h
    obtain ⟨k, lines, hloop, -⟩ := h
    by_contra hcount
    have hmore := usageLoop_more hcount k _ hloop
    cases hmore
  · intro hcount
    obtain ⟨m, hm⟩ : ∃ m, (radices argp).prod = m + 1 := Nat.exists_eq_add_one.mpr (prod_radices_pos argp)
    have hloop := usageLoop_eq argp hcount m 0 (by omega)
    rw [stored_choice_zero] at hloop
    refine ⟨m + 1, _, hloop, ?_, isChoice argp, exists_choice argp⟩
    rw [← List.range_eq_range', hm]

/-- One argp with 129 alternatives, each of them empty. -/
def manyAlternatives : HelpArgp Unit := .node none none (some (List.replicate 128 newline)) .nil

theorem manyAlternatives_endless : radices manyAlternatives = [129] ∧
    ∀ k lines, usageLoop manyAlternatives k (firstLevels manyAlternatives) ≠ some (lines, false) := by
  have hmem : newline ∈ (some (List.replicate 128 newline)).getD [] := by
    show newline ∈ List.replicate 128 newline
    rw [List.mem_replicate]
    exact ⟨by decide, rfl⟩
  have hradices : radices manyAlternatives = [129] := by
    unfold manyAlternatives radices
    rw [if_pos hmem]
    show (alternatives (List.replicate 128 newline)).length :: [] = _
    rw [length_alternatives, List.count_replicate_self]
  have hcount : ¬Countable (radices manyAlternatives) := by
    rw [hradices]
    intro hle
    have hlt := hle 129 (List.mem_singleton_self _)
    omega
  refine ⟨hradices, ?_⟩
  intro k lines hloop
  have hmore := usageLoop_more hcount k _ hloop
  cases hmore

end MuslBsd.Help
