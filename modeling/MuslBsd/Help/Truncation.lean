import MuslBsd.Help.Operations

/-! Truncation: which outputs come out line by line. -/
namespace MuslBsd.Help
open MuslBsd.Support

/-- The first `r` characters of each line, and its newline. -/
def truncateLines (r : ℕ) (text : List UInt8) : List UInt8 :=
  [lineFeed].intercalate ((text.splitOn lineFeed).map (List.take r))

/-! ### Column by column -/

/-- The text without what is at column `r` or past it, if it starts at column `c`. -/
def truncated (r : ℕ) : ℕ → List UInt8 → List UInt8
  | _, [] => []
  | c, x :: text =>
    if x = lineFeed then x :: truncated r 0 text
    else if c < r then x :: truncated r (c + 1) text
    else truncated r (c + 1) text

/-- The column after the text. -/
def column : ℕ → List UInt8 → ℕ
  | c, [] => c
  | c, x :: text => if x = lineFeed then column 0 text else column (c + 1) text

variable {r c k : ℕ} {text line rest : List UInt8}

theorem truncated_append (s t : List UInt8) :
    truncated r c (s ++ t) = truncated r c s ++ truncated r (column c s) t := by
  induction s generalizing c with
  | nil => rfl
  | cons x s ih =>
    simp only [List.cons_append, truncated, column]
    split_ifs <;> simp [ih]

theorem column_append (s t : List UInt8) : column c (s ++ t) = column (column c s) t := by
  induction s generalizing c with
  | nil => rfl
  | cons x s ih =>
    simp only [List.cons_append, column]
    split_ifs <;> exact ih

theorem truncated_line (h : lineFeed ∉ line) : truncated r c line = line.take (r - c) := by
  induction line generalizing c with
  | nil => simp [truncated]
  | cons x line ih =>
    rw [List.mem_cons, not_or] at h
    rw [truncated, if_neg (Ne.symm h.1), ih h.2]
    by_cases hc : c < r
    · rw [if_pos hc, show r - c = r - (c + 1) + 1 by omega, List.take_succ_cons]
    · rw [if_neg hc, show r - c = 0 by omega, show r - (c + 1) = 0 by omega]
      simp

theorem column_line (h : lineFeed ∉ line) : column c line = c + line.length := by
  induction line generalizing c with
  | nil => rfl
  | cons x line ih =>
    rw [List.mem_cons, not_or] at h
    rw [column, if_neg (Ne.symm h.1), ih h.2, List.length_cons]
    omega

theorem truncated_newline (h : lineFeed ∉ line) (rest : List UInt8) :
    truncated r c (line ++ lineFeed :: rest) =
      line.take (r - c) ++ lineFeed :: truncated r 0 rest := by
  rw [truncated_append, truncated_line h, truncated, if_pos rfl]

theorem column_newline (line rest : List UInt8) :
    column c (line ++ lineFeed :: rest) = column 0 rest := by
  rw [column_append, column, if_pos rfl]

/-- From column 0 on the two are the same. -/
theorem truncated_eq_truncateLines (text : List UInt8) :
    truncated r 0 text = truncateLines r text := by
  induction hn : text.length using Nat.strongRecOn generalizing text with
  | _ n ih =>
    unfold truncateLines
    obtain h | ⟨line, rest, h, rfl⟩ := line_cases text
    · rw [truncated_line h, List.splitOn_eq_singleton h]
      simp
    · have hrest : rest.length < n := by
        rw [← hn, List.length_append, List.length_cons]
        omega
      have hne : (rest.splitOn lineFeed).map (List.take r) ≠ [] := by simp
      rw [truncated_newline h, ih _ hrest rest rfl, List.splitOn_append_cons_self_of_not_mem h,
        List.map_cons, List.intercalate_cons_of_ne_nil hne]
      simp [truncateLines]

/-! ### One turn -/

/-- The margins for truncation after `r` columns. -/
structure Truncates (r : ℕ) (fs : Fmtstream) : Prop where
  lmargin : fs.lmargin = 0
  wmargin : fs.wmargin < 0
  rmargin : fs.rmargin = r + 1

variable {L : Libc} {fs fs' : Fmtstream} {buf : ℕ}

theorem Truncates.turn (h : Truncates r fs) (hcol : fs.pointCol = c) :
    turn L fs buf = scanLine L fs buf := by
  have hfs : { fs with pointCol := max fs.pointCol 0 } = fs := by
    rw [Int.max_eq_left (by omega)]
  unfold Help.turn padLine
  rw [if_neg (by simp [h.lmargin])]
  change scanLine L { fs with pointCol := max fs.pointCol 0 } buf = _
  rw [hfs]

theorem Truncates.longLine (h : Truncates r fs) (nl : ℕ) :
    longLine L fs buf nl = truncateLine fs buf (fs.p - buf) nl := if_pos h.wmargin

theorem truncateLine_partLine (h : Truncates r fs) (hp : fs.p ≤ fs.mem.length) (hbuf : buf ≤ fs.p)
    (hcol : fs.pointCol = c) (hc : c ≤ r) (hlong : r ≤ c + (fs.p - buf)) :
    truncateLine fs buf (fs.p - buf) fs.p =
      .ok ({ fs with p := buf + (r - c), pointCol := (c + (fs.p - buf) : ℕ) }, none) := by
  have hpos : (fs.p : ℤ) - (fs.pointCol + (fs.p - buf : ℕ) - ((fs.rmargin : ℤ) - 1)) =
      (buf + (r - c) : ℕ) := by
    rw [hcol, h.rmargin]
    omega
  unfold truncateLine
  simp only [if_neg (Nat.lt_irrefl fs.p)]
  rw [hpos, Buffer.position_eq (by omega), access_bind, hcol]
  rfl

/-- The newline and what follows it come to stand behind the last column. -/
theorem truncateLine_whole (h : Truncates r fs) (hp : fs.p ≤ fs.mem.length) {i : ℕ}
    (hi : buf + i < fs.p) (hcol : fs.pointCol = c) (hc : c ≤ r) (hlong : r < c + i) :
    ∃ mem, truncateLine fs buf (fs.p - buf) (buf + i) =
        .ok ({ fs with mem := mem, p := buf + (r - c) + (fs.p - (buf + i)), pointCol := 0 },
          some (buf + (r + 1))) ∧
      mem.length = fs.mem.length ∧
      mem.take (buf + (r - c) + (fs.p - (buf + i))) =
        fs.mem.take buf ++ (textFrom fs buf).take (r - c) ++ textFrom fs (buf + i) := by
  obtain ⟨mem, hmove, hlen, htake, _⟩ := Buffer.exists_move fs.mem (buf + (r - c))
    (buf + i) (fs.p - (buf + i)) (by omega) (by omega)
  have htrunc : (buf : ℤ) + ((fs.rmargin : ℤ) - 1 - fs.pointCol) = (buf + (r - c) : ℕ) := by
    rw [hcol, h.rmargin]
    omega
  have hn : (fs.p : ℤ) - (buf + i : ℕ) = (fs.p - (buf + i) : ℕ) := by omega
  have hpos : (fs.p : ℤ) - ((buf + i : ℕ) - (buf + (r - c) : ℕ)) =
      (buf + (r - c) + (fs.p - (buf + i)) : ℕ) := by omega
  refine ⟨mem, ?_, hlen, ?_⟩
  · unfold truncateLine
    simp only [if_pos hi]
    rw [htrunc, hn, hmove, access_bind, hpos, Buffer.position_eq (by omega), access_bind, h.rmargin]
  · rw [htake, drop_take_p, take_textFrom (by omega)]

/-! ### One update -/

/-- The scan does not skip the start of a line: a line that goes on an earlier one is not past the
margin yet, and it is not cut off with more lines behind it. -/
def Unskipped (r c : ℕ) (text : List UInt8) : Prop :=
  text = [] ∨ c = 0 ∨
    c ≤ r ∧ (c + (firstLine text).length ≤ r ∨
      text.length ≤ (firstLine text).length + 1)

instance (r c : ℕ) (text : List UInt8) : Decidable (Unskipped r c text) :=
  inferInstanceAs (Decidable (_ ∨ _))

theorem Unskipped.column_le {x : UInt8} (h : Unskipped r c (x :: text)) : c ≤ r := by
  obtain h | h | h := h
  · cases h
  · omega
  · exact h.1

theorem Unskipped.newline (h : Unskipped r c (line ++ lineFeed :: rest)) (hl : lineFeed ∉ line) :
    c = 0 ∨ c + line.length ≤ r ∨ rest = [] := by
  obtain h | h | ⟨_, h⟩ := h
  · simp at h
  · exact .inl h
  · rw [firstLine_newline hl, List.length_append, List.length_cons] at h
    obtain h | h := h
    · exact .inr (.inl h)
    · exact .inr (.inr (List.length_eq_zero_iff.mp (by omega)))

/-- What an update that truncates leaves: the text below `buf` and the truncated rest. -/
structure TruncatedFrom (r c : ℕ) (fs : Fmtstream) (buf : ℕ) (fs' : Fmtstream) : Prop where
  margins : Truncates r fs'
  size : fs'.mem.length = fs.mem.length
  out : fs'.out = fs.out
  text : fs'.mem.take fs'.p = fs.mem.take buf ++ truncated r c (textFrom fs buf)
  col : fs'.pointCol = column c (textFrom fs buf)
  offs : fs'.pointOffs = fs'.p
  room : fs'.p ≤ fs'.mem.length

/-- What is left after a line is what is left after the line and the rest. -/
theorem TruncatedFrom.cons {fs₁ : Fmtstream} {buf₁ : ℕ} (h : TruncatedFrom r 0 fs₁ buf₁ fs')
    (hline : lineFeed ∉ line) (ht : textFrom fs buf = line ++ lineFeed :: rest)
    (hsize : fs₁.mem.length = fs.mem.length) (hout : fs₁.out = fs.out)
    (hbelow : fs₁.mem.take buf₁ = fs.mem.take buf ++ line.take (r - c) ++ [lineFeed])
    (hnext : textFrom fs₁ buf₁ = rest) : TruncatedFrom r c fs buf fs' where
  margins := h.margins
  size := h.size.trans hsize
  out := h.out.trans hout
  text := by
    rw [h.text, hbelow, hnext, ht, truncated_newline hline]
    simp
  col := by rw [h.col, hnext, ht, column_newline]
  offs := h.offs
  room := h.room

theorem take_newline (line rest : List UInt8) :
    (line ++ lineFeed :: rest).take (line.length + 1) = line ++ [lineFeed] := by
  rw [List.append_cons]
  exact List.take_left' (by simp)

/-- The text ends in a partial line. -/
theorem updateLoop_partLine (h : Truncates r fs) (hp : fs.p ≤ fs.mem.length) (hbuf : buf < fs.p)
    (hcol : fs.pointCol = c) (hc : c ≤ r) (hline : lineFeed ∉ textFrom fs buf) :
    ∃ fs', updateLoop L (k + 1) fs buf = .ok fs' ∧ TruncatedFrom r c fs buf fs' := by
  have hlen : (textFrom fs buf).length = fs.p - buf := length_textFrom hp
  have hle : buf ≤ fs.p := Nat.le_of_lt hbuf
  have hturn : turn L fs buf = _ := h.turn hcol
  have hr := h.rmargin
  rw [scanLine_partLine hline] at hturn
  by_cases hfit : c + (fs.p - buf) ≤ r
  · rw [if_pos (by omega)] at hturn
    refine ⟨_, updateLoop_stop hbuf hturn, ⟨h.1, h.2, h.3⟩, rfl, rfl, ?_, ?_, rfl, hp⟩
    · have hall : (textFrom fs buf).length ≤ r - c := by omega
      rw [truncated_line hline, List.take_of_length_le hall]
      exact take_p hle
    · rw [column_line hline, hlen]
      change fs.pointCol + (fs.p - buf : ℕ) = _
      omega
  · have hroom : buf + (r - c) ≤ fs.p := by omega
    rw [if_neg (by omega), h.longLine, truncateLine_partLine h hp hle hcol hc (by omega)] at hturn
    refine ⟨_, updateLoop_stop hbuf hturn, ⟨h.1, h.2, h.3⟩, rfl, rfl, ?_, ?_, rfl, ?_⟩
    · rw [truncated_line hline]
      exact take_textFrom hroom
    · rw [column_line hline, hlen]
    · exact Nat.le_trans hroom hp

/-- A whole line fits. -/
theorem turn_fits (h : Truncates r fs) (hcol : fs.pointCol = c) (hline : lineFeed ∉ line)
    (ht : textFrom fs buf = line ++ lineFeed :: rest) (hfit : c + line.length ≤ r) :
    turn L fs buf = .ok ({ fs with pointCol := 0 }, some (buf + line.length + 1)) := by
  have hr := h.rmargin
  rw [h.turn hcol, scanLine_whole hline ht, if_pos (by omega)]

/-- A whole line is cut off. The scan goes on behind its newline if the line has started at
column 0. -/
theorem turn_cut (h : Truncates r fs) (hp : fs.p ≤ fs.mem.length) (hbuf : buf < fs.p)
    (hcol : fs.pointCol = c) (hc : c ≤ r) (hline : lineFeed ∉ line)
    (ht : textFrom fs buf = line ++ lineFeed :: rest) (hlong : r < c + line.length) :
    ∃ mem, turn L fs buf =
        .ok ({ fs with mem := mem, p := buf + (r - c) + (rest.length + 1), pointCol := 0 },
          some (buf + (r + 1))) ∧
      mem.length = fs.mem.length ∧
      mem.take (buf + (r - c) + (rest.length + 1)) =
        (fs.mem.take buf ++ line.take (r - c) ++ [lineFeed]) ++ rest := by
  have hr := h.rmargin
  have hlen : (textFrom fs buf).length = fs.p - buf := length_textFrom hp
  have hsplit : fs.p - buf = line.length + (rest.length + 1) := by
    rw [← hlen, ht, List.length_append, List.length_cons]
  have hrest : fs.p - (buf + line.length) = rest.length + 1 := by omega
  obtain ⟨mem, htrunc, hsize, htake⟩ := truncateLine_whole h hp
    (show buf + line.length < fs.p by omega) hcol hc (by omega)
  have htail : textFrom fs (buf + line.length) = lineFeed :: rest := by
    rw [← drop_textFrom, ht, List.drop_left]
  have hcut : (textFrom fs buf).take (r - c) = line.take (r - c) := by
    rw [ht, List.take_append, show r - c - line.length = 0 by omega, List.take_zero,
      List.append_nil]
  rw [hrest] at htrunc htake
  refine ⟨mem, ?_, hsize, ?_⟩
  · rw [h.turn hcol, scanLine_whole hline ht, if_neg (by omega), h.longLine, htrunc]
  · rw [htake, htail, hcut]
    simp

theorem updateLoop_truncates (h : Truncates r fs) (hp : fs.p ≤ fs.mem.length) (hbuf : buf ≤ fs.p)
    (hcol : fs.pointCol = c) (hu : Unskipped r c (textFrom fs buf))
    (hk : (textFrom fs buf).length < k) :
    ∃ fs', updateLoop L k fs buf = .ok fs' ∧ TruncatedFrom r c fs buf fs' := by
  induction k generalizing fs buf c with
  | zero => cases hk
  | succ k ih =>
    have hlen : (textFrom fs buf).length = fs.p - buf := length_textFrom hp
    obtain hlt | hbp := Nat.lt_or_eq_of_le hbuf
    · have hc : c ≤ r := by
        obtain ⟨x, text, hx⟩ := List.exists_cons_of_length_pos (l := textFrom fs buf) (by omega)
        exact (hx ▸ hu).column_le
      obtain hline | ⟨line, rest, hline, ht⟩ := line_cases (textFrom fs buf)
      · exact updateLoop_partLine h hp hlt hcol hc hline
      have hsplit : fs.p - buf = line.length + (rest.length + 1) := by
        rw [← hlen, ht, List.length_append, List.length_cons]
      by_cases hfit : c + line.length ≤ r
      · have hnext : textFrom fs (buf + (line.length + 1)) = rest := by
          rw [← drop_textFrom, ht]
          simp
        have hall : line.take (r - c) = line := List.take_of_length_le (by omega)
        have hbelow : fs.mem.take (buf + (line.length + 1)) =
            fs.mem.take buf ++ line.take (r - c) ++ [lineFeed] := by
          rw [take_textFrom (by omega), ht, take_newline, hall, List.append_assoc]
        obtain ⟨fs', hrun, hres⟩ := @ih 0 { fs with pointCol := 0 }
          (buf + (line.length + 1)) ⟨h.1, h.2, h.3⟩ hp (by change _ ≤ fs.p; omega) rfl
          (.inr (.inl rfl)) (by change (textFrom fs _).length < k; rw [hnext]; omega)
        exact ⟨fs', (updateLoop_goOn hlt (turn_fits h hcol hline ht hfit)).trans hrun,
          hres.cons hline ht rfl rfl hbelow hnext⟩
      · obtain ⟨mem, hturn, hsize, htake⟩ := turn_cut (L := L) h hp hlt hcol hc hline ht (by omega)
        have hcut : (fs.mem.take buf ++ line.take (r - c) ++ [lineFeed]).length =
            buf + (r - c) + 1 := by
          simp only [List.length_append, List.length_take, List.length_singleton]
          omega
        obtain rfl | h0 | rfl := (ht ▸ hu).newline hline
        · have hcut : (fs.mem.take buf ++ line.take r ++ [lineFeed]).length = buf + (r + 1) := hcut
          rw [Nat.sub_zero] at htake hturn
          have hbelow : mem.take (buf + (r + 1)) = fs.mem.take buf ++ line.take r ++ [lineFeed] := by
            have htk := congrArg (List.take (buf + (r + 1))) htake
            rwa [List.take_take, Nat.min_eq_left (by omega), List.take_left' hcut] at htk
          have hnext : (mem.take (buf + r + (rest.length + 1))).drop (buf + (r + 1)) = rest := by
            have hdr := congrArg (List.drop (buf + (r + 1))) htake
            rwa [List.drop_left' hcut] at hdr
          obtain ⟨fs', hrun, hres⟩ := @ih 0
            { fs with mem := mem, p := buf + r + (rest.length + 1), pointCol := 0 } (buf + (r + 1))
            ⟨h.1, h.2, h.3⟩ (by change buf + r + (rest.length + 1) ≤ mem.length; omega)
            (by change _ ≤ buf + r + (rest.length + 1); omega) rfl (.inr (.inl rfl))
            (by change ((mem.take _).drop _).length < k; rw [hnext]; omega)
          exact ⟨fs', (updateLoop_goOn hlt hturn).trans hrun,
            hres.cons hline ht hsize rfl hbelow hnext⟩
        · omega
        · refine ⟨_, (updateLoop_goOn hlt hturn).trans (updateLoop_end ?_), ⟨h.1, h.2, h.3⟩, hsize, rfl,
            ?_, ?_, rfl, ?_⟩
          · change buf + (r - c) + 1 ≤ _
            omega
          · rw [ht, truncated_newline hline]
            exact htake.trans (by simp [truncated])
          · rw [ht, column_newline]
            rfl
          · change buf + (r - c) + 1 ≤ mem.length
            omega
    · have hnil : textFrom fs buf = [] := List.length_eq_zero_iff.mp (by omega)
      refine ⟨_, updateLoop_end (by omega), ⟨h.1, h.2, h.3⟩, rfl, rfl, ?_, ?_, rfl, hp⟩
      · rw [hnil, hbp]
        simp [truncated]
      · rw [hnil]
        exact hcol

/-! ### Every run -/

/-- An update would not skip the start of a line. -/
def Steady (fs : Fmtstream) : Prop :=
  Unskipped (fs.rmargin - 1) fs.pointCol.toNat (pending fs)

instance (fs : Fmtstream) : Decidable (Steady fs) := inferInstanceAs (Decidable (Unskipped ..))

/-- Every update of the run, that of `__argp_fmtstream_free` included, is from a steady state. -/
def SteadyRun (L : Libc) (k : ℕ) : Fmtstream → List Output → Prop
  | fs, [] => Steady fs
  | fs, o :: os =>
    o.From L k Steady fs ∧ ∀ fs' ∈ (o.run L k fs).toOption, SteadyRun L k fs' os

instance decidableSteadyRun (L : Libc) (k : ℕ) :
    (fs : Fmtstream) → (os : List Output) → Decidable (SteadyRun L k fs os)
  | fs, [] => inferInstanceAs (Decidable (Steady fs))
  | fs, o :: os =>
    letI := fun fs' => decidableSteadyRun L k fs' os
    inferInstanceAs (Decidable (o.From L k Steady fs ∧ _))

/-- The stream has been given `text`, and shows what has been scanned of it. -/
structure Carries (r : ℕ) (text : List UInt8) (fs : Fmtstream) : Prop where
  margins : Truncates r fs
  offs : fs.pointOffs ≤ fs.p
  room : fs.p ≤ fs.mem.length
  shown : ∃ done, text = done ++ pending fs ∧
    fs.out ++ fs.mem.take fs.pointOffs = truncated r 0 done ∧ fs.pointCol = column 0 done

theorem pending_length (h : Carries r text fs) : (pending fs).length ≤ text.length := by
  obtain ⟨done, rfl, _, _⟩ := h.shown
  rw [List.length_append]
  omega

/-- After an update everything is shown. -/
theorem update_carries (h : Carries r text fs) (hs : Steady fs) (hk : text.length < k) :
    ∃ fs', update L k fs = .ok fs' ∧ Carries r text fs' ∧ fs'.pointOffs = fs'.p ∧
      fs'.mem.length = fs.mem.length := by
  have hle := pending_length h
  obtain ⟨done, hsplit, hout, hcol⟩ := h.shown
  have hu : Unskipped r (column 0 done) (textFrom fs fs.pointOffs) := by
    have hs' := hs
    unfold Steady at hs'
    rwa [h.margins.rmargin, hcol, Int.toNat_natCast] at hs'
  obtain ⟨fs', hrun, hres⟩ := updateLoop_truncates (L := L) h.margins h.room h.offs hcol hu
    (Nat.lt_of_le_of_lt hle hk)
  have hnil : pending fs' = [] := by
    apply List.length_eq_zero_iff.mp
    rw [pending, length_textFrom hres.room, hres.offs]
    omega
  refine ⟨fs', hrun, ⟨hres.margins, ?_, hres.room, text, ?_, ?_, ?_⟩, hres.offs, hres.size⟩
  · exact Nat.le_of_eq hres.offs
  · rw [hnil, List.append_nil]
  · rw [hres.offs, hres.text, hres.out, hsplit, truncated_append, ← hout, List.append_assoc]
    rfl
  · rw [hres.col, hsplit, column_append]
    rfl

/-- More text is put behind the text in the buffer. -/
theorem Carries.extend (h : Carries r text fs) {mem : List UInt8} (hlen : mem.length = fs.mem.length)
    (xs : List UInt8) (hfit : fs.p + xs.length ≤ fs.mem.length)
    (htake : mem.take (fs.p + xs.length) = fs.mem.take fs.p ++ xs) :
    Carries r (text ++ xs) { fs with mem := mem, p := fs.p + xs.length } := by
  have hoffs := h.offs
  obtain ⟨done, hsplit, hout, hcol⟩ := h.shown
  have hbelow : mem.take fs.pointOffs = fs.mem.take fs.pointOffs := by
    have htk := congrArg (List.take fs.pointOffs) htake
    rwa [List.take_take, Nat.min_eq_left (by omega), List.take_append_of_le_length
      (by rw [List.length_take]; have := h.room; omega), List.take_take,
      Nat.min_eq_left (by omega)] at htk
  refine ⟨⟨h.margins.1, h.margins.2, h.margins.3⟩, ?_, ?_, done, ?_, ?_, hcol⟩
  · exact Nat.le_trans hoffs (Nat.le_add_right _ _)
  · exact Nat.le_trans hfit (Nat.le_of_eq hlen.symm)
  · rw [hsplit, List.append_assoc]
    congr 1
    change _ = (mem.take (fs.p + xs.length)).drop fs.pointOffs
    rw [htake, List.drop_append_of_le_length
      (by rw [List.length_take]; have := h.room; omega)]
    rfl
  · exact (congrArg (fs.out ++ ·) hbelow).trans hout

/-- What a flushed stream carries does not depend on the bytes in its buffer. -/
theorem Carries.flush (h : Carries r text fs) (hoffs : fs.pointOffs = fs.p) (mem : List UInt8) :
    Carries r text
      { fs with mem := mem, p := 0, pointOffs := 0, out := fs.out ++ fs.mem.take fs.p } := by
  obtain ⟨done, hsplit, hout, hcol⟩ := h.shown
  have hnil : pending fs = [] := by
    apply List.length_eq_zero_iff.mp
    rw [pending, length_textFrom h.room, hoffs]
    omega
  refine ⟨⟨h.margins.1, h.margins.2, h.margins.3⟩, Nat.le_refl _, Nat.zero_le _, done, ?_, ?_, hcol⟩
  · rw [hsplit, hnil]
    rfl
  · rw [← hout, hoffs]
    simp

theorem carries_preserved (hL : L.Unfailing) :
    Preserved L k (fun _ => Steady) (Carries r) where
  room h := h.room
  update h hs hk := by
    obtain ⟨fs', hrun, hc, hoffs, _⟩ := update_carries (L := L) h hs hk
    exact ⟨fs', hrun, hc, hoffs⟩
  extend h hlen hfit htake := h.extend hlen _ hfit htake
  flush h hoffs _ mem := by
    rw [emit_unfailing hL]
    exact h.flush hoffs mem
  retain h _ hwrote hshort _ := by
    rw [hL.fwrite, List.length_take, Nat.min_eq_left h.room] at hwrote
    omega

theorem free_carries (hL : L.Unfailing) (h : Carries r text fs) (hk : text.length < k)
    (hs : Steady fs) : free L k fs = .ok (truncated r 0 text) := by
  obtain ⟨fs', hrun, hc, hoffs, _⟩ := update_carries (L := L) h hs hk
  obtain ⟨done, hsplit, hout, _⟩ := hc.shown
  have hnil : pending fs' = [] := by
    apply List.length_eq_zero_iff.mp
    rw [pending, length_textFrom hc.room, hoffs]
    omega
  rw [hnil, List.append_nil] at hsplit
  rw [hoffs, ← hsplit] at hout
  unfold free
  rw [hrun, ok_bind, emit_unfailing hL]
  simp only [hout]
  split_ifs with hp
  · rfl
  · rw [← hout, Nat.eq_zero_of_not_pos hp, List.take_zero, List.append_nil]

/-- The run lemma. -/
theorem session_carries (hL : L.Unfailing) (os : List Output) (h : Carries r text fs)
    (hk : text.length + (os.flatMap Output.text).length < k) (hs : SteadyRun L k fs os) :
    session L k fs os = .ok (truncated r 0 (text ++ os.flatMap Output.text)) := by
  induction os generalizing fs text with
  | nil =>
    rw [List.flatMap_nil, List.append_nil]
    exact free_carries hL h (by omega) hs
  | cons o os ih =>
    obtain ⟨hstep, hrest⟩ := hs
    rw [List.flatMap_cons, List.length_append] at hk
    obtain ⟨fs', ok, hrun, hc, hok⟩ := (carries_preserved (k := k) hL).run h o (by omega) hstep
    rw [hok hL, if_pos rfl] at hc
    have hsession : session L k fs (o :: os) = session L k fs' os := by
      unfold session
      rw [runOutputs, hrun]
      rfl
    have hk' : (text ++ o.text).length + (os.flatMap Output.text).length < k := by
      rw [List.length_append]
      omega
    rw [hsession, ih hc hk' (hrest fs' (by rw [hrun]; rfl)), List.flatMap_cons, List.append_assoc]

theorem carries_make {wmargin : ℤ} (hw : wmargin < 0) (block : List UInt8) :
    Carries r [] (makeFmtstream 0 (r + 1) wmargin block) :=
  ⟨⟨rfl, hw, rfl⟩, Nat.le_refl _, Nat.zero_le _, [], rfl, rfl, rfl⟩

/-- The digits, `n` of them. -/
def digitText (n : ℕ) : List UInt8 := (List.range n).map fun i => 48 + UInt8.ofNat ((i + 1) % 10)

def twoPieces : List Output :=
  [.puts ⟨digitText 5, by decide⟩, .update, .puts ⟨digitText 15 ++ [lineFeed], by decide⟩]

end MuslBsd.Help
