import Mathlib.Data.List.DropRight
import MuslBsd.Help.Fmtstream

/-! Word wrap: where a line is broken, and what one turn of the update loop makes of it. -/
namespace MuslBsd.Help
open MuslBsd.Support

/-- Up to the first blank. -/
def firstWord (text : List UInt8) : List UInt8 := text.takeWhile fun c => !isBlank c

/-- Up to the last blank among the first `k` bytes. -/
def upToBlank (k : ℕ) (text : List UInt8) : List UInt8 := (text.take k).rdropWhile fun c => !isBlank c

/-- What stays on a line that is too long, and the blanks that the newline replaces. -/
def breakText (k : ℕ) (text : List UInt8) : List UInt8 × List UInt8 :=
  if upToBlank k text ≠ [] then
    ((upToBlank k text).rdropWhile isBlank, (upToBlank k text).rtakeWhile isBlank)
  else (firstWord text, (text.drop (firstWord text).length).takeWhile isBlank)

variable {L : Libc} {fs fs' : Fmtstream} {buf k n : ℕ} {mem text line rest : List UInt8}

/-! ### The scans -/

theorem scanBack_eq (stop : UInt8 → Bool) (h : buf + k ≤ mem.length) :
    scanBack stop mem buf k =
      some (buf + (((mem.drop buf).take k).rdropWhile fun c => !stop c).length) := by
  induction k with
  | zero => simp [scanBack]
  | succ k ih =>
    have hlt : k < (mem.drop buf).length := by
      rw [List.length_drop]
      omega
    obtain ⟨x, hx⟩ : ∃ x, (mem.drop buf)[k] = x := ⟨_, rfl⟩
    have hget : mem[buf + k]? = some x := by
      rw [← List.getElem?_drop, List.getElem?_eq_getElem hlt, hx]
    rw [scanBack, hget, List.take_succ_eq_append_getElem hlt, hx, List.rdropWhile_concat]
    change (if stop x = true then _ else _) = _
    by_cases hs : stop x = true
    · rw [if_pos hs, if_neg (by simp [hs]), List.length_append, List.length_take, List.length_singleton]
      congr 1
      omega
    · rw [if_neg hs, if_pos (by simp [hs]), ih (by omega)]

theorem take_mem (h : k ≤ (textFrom fs buf).length) (hp : fs.p ≤ fs.mem.length) :
    (fs.mem.drop buf).take k = (textFrom fs buf).take k := by
  rw [length_textFrom hp] at h
  rw [← drop_take_p, List.take_take, Nat.min_eq_left h]

theorem scanBack_text (stop : UInt8 → Bool) (h : k ≤ (textFrom fs buf).length)
    (hp : fs.p ≤ fs.mem.length) (hbuf : buf ≤ fs.p) :
    scanBack stop fs.mem buf k =
      some (buf + (((textFrom fs buf).take k).rdropWhile fun c => !stop c).length) := by
  rw [← take_mem h hp]
  rw [length_textFrom hp] at h
  exact scanBack_eq stop (by omega)

theorem isBlank_lineFeed : isBlank lineFeed = false := rfl

theorem prefix_upToBlank : upToBlank k text <+: text.take k := List.rdropWhile_prefix _ _

theorem upToBlank_length_le : (upToBlank k text).length ≤ k :=
  prefix_upToBlank.length_le.trans (List.length_take_le _ _)

/-- What is scanned up to a blank is on the line, and ends in that blank. -/
theorem upToBlank_concat (h : upToBlank k text ≠ []) :
    ∃ head b, upToBlank k text = head ++ [b] ∧ isBlank b = true := by
  have hlast := List.rdropWhile_last_not (fun c => !isBlank c) (text.take k) h
  refine ⟨(upToBlank k text).dropLast, (upToBlank k text).getLast h,
    (List.dropLast_append_getLast h).symm, ?_⟩
  simp only [Bool.not_eq_true, Bool.not_eq_false'] at hlast
  exact hlast

theorem findBreak_blank {c : ℕ} (hcol : fs.pointCol = c) (hp : fs.p ≤ fs.mem.length)
    (hbuf : buf ≤ fs.p) (hk : ((fs.rmargin : ℤ) - c + 1).toNat = k)
    (hlen : k ≤ (textFrom fs buf).length) (h : upToBlank k (textFrom fs buf) ≠ []) (nl : ℕ) :
    findBreak fs buf nl =
      some (some (buf + (breakText k (textFrom fs buf)).1.length,
        buf + (upToBlank k (textFrom fs buf)).length)) := by
  obtain ⟨head, b, hhead, hb⟩ := upToBlank_concat h
  have hle : (upToBlank k (textFrom fs buf)).length ≤ k := upToBlank_length_le
  have hpos : 0 < (upToBlank k (textFrom fs buf)).length := List.length_pos_iff.mpr h
  have hscan : scanBack isBlank fs.mem buf k = some (buf + (upToBlank k (textFrom fs buf)).length) :=
    scanBack_text isBlank hlen hp hbuf
  have hpre : (textFrom fs buf).take head.length = head := by
    have hstart : head <+: textFrom fs buf :=
      ((hhead ▸ List.prefix_append head [b]).trans prefix_upToBlank).trans (List.take_prefix _ _)
    exact (List.prefix_iff_eq_take.mp hstart).symm
  have hswallow : scanBack (fun c => !isBlank c) fs.mem buf head.length =
      some (buf + (head.rdropWhile isBlank).length) := by
    rw [hhead, List.length_append, List.length_singleton] at hle
    rw [scanBack_text _ (by omega) hp hbuf, hpre]
    simp only [Bool.not_not]
  unfold findBreak
  rw [hcol]
  simp only [hk, hscan]
  change (if buf < buf + (upToBlank k (textFrom fs buf)).length then _ else _) = _
  rw [if_pos (by omega), show buf + (upToBlank k (textFrom fs buf)).length - 1 - buf = head.length by
    rw [hhead, List.length_append, List.length_singleton]; omega, hswallow]
  unfold breakText
  rw [if_pos h, hhead, List.rdropWhile_concat_pos _ _ _ hb]
  rfl

theorem textFrom_mem (fs : Fmtstream) (i : ℕ) :
    fs.mem.drop i = textFrom fs i ++ fs.mem.drop (max i fs.p) := by
  rcases Nat.le_total i fs.p with h | h
  · rw [← drop_take_p, Nat.max_eq_right h]
    have hdrop := (List.take_append_drop (fs.p - i) (fs.mem.drop i)).symm
    rwa [List.drop_drop, Nat.add_sub_cancel' h] at hdrop
  · have hnil : textFrom fs i = [] := by
      rw [← drop_take_p, Nat.sub_eq_zero_of_le h, List.take_zero]
    rw [hnil, Nat.max_eq_left h, List.nil_append]

/-- The first line has no blank among the bytes that are scanned: it is its own long word. -/
theorem takeWhile_drop_of_take {p : UInt8 → Bool} {k : ℕ} {line : List UInt8}
    (h : ∀ x ∈ line.take k, p x = true) (hk : k ≤ line.length) :
    k + ((line.drop k).takeWhile p).length = (line.takeWhile p).length := by
  conv_rhs => rw [← List.take_append_drop k line]
  rw [List.takeWhile_append_of_pos h, List.length_append, List.length_take, Nat.min_eq_left hk]

theorem take_firstLine (h : k ≤ (firstLine text).length) : (firstLine text).take k = text.take k := by
  have hline : firstLine text <+: text := prefix_firstLine
  rw [List.prefix_iff_eq_take.mp hline, List.take_take, Nat.min_eq_left h]

theorem prefix_firstWord : firstWord text <+: text := List.takeWhile_prefix _

/-- No blank is scanned, and the line may start past the margin by one. -/
theorem findBreak_word {c : ℕ} (hcol : fs.pointCol = c) (hc : c ≤ fs.rmargin + 1)
    (hp : fs.p ≤ fs.mem.length) (hbuf : buf ≤ fs.p)
    (hk : ((fs.rmargin : ℤ) - c + 1).toNat = k)
    (hlen : k ≤ (firstLine (textFrom fs buf)).length) (h : upToBlank k (textFrom fs buf) = []) :
    findBreak fs buf (buf + (firstLine (textFrom fs buf)).length) =
      if firstWord (firstLine (textFrom fs buf)) = firstLine (textFrom fs buf) then some none
      else (skipBlanks fs.mem (buf + (firstWord (firstLine (textFrom fs buf))).length + 1)).bind
        fun nextline => some (some (buf + (firstWord (firstLine (textFrom fs buf))).length, nextline)) := by
  have hline : (firstLine (textFrom fs buf)).length ≤ (textFrom fs buf).length :=
    prefix_firstLine.length_le
  have htext : (textFrom fs buf).length = fs.p - buf := length_textFrom hp
  have hscan : scanBack isBlank fs.mem buf k = some buf := by
    have heq : (textFrom fs buf |>.take k).rdropWhile (fun c => !isBlank c) = [] := h
    rw [scanBack_text isBlank (by omega) hp hbuf, heq]
    rfl
  have hword : endOfWord fs.mem (buf + ((fs.rmargin : ℤ) - c) + 1)
      (buf + (firstLine (textFrom fs buf)).length) =
        some (buf + (firstWord (firstLine (textFrom fs buf))).length) := by
    have hnone : ∀ x ∈ (firstLine (textFrom fs buf)).take k, (!isBlank x) = true := by
      rw [take_firstLine hlen]
      exact List.rdropWhile_eq_nil_iff.mp h
    have hwl : k + (firstWord ((firstLine (textFrom fs buf)).drop k)).length =
        (firstWord (firstLine (textFrom fs buf))).length := takeWhile_drop_of_take hnone hlen
    have hpos : (buf : ℤ) + ((fs.rmargin : ℤ) - c) + 1 = (buf + k : ℕ) := by omega
    unfold endOfWord
    rw [hpos]
    obtain hlt | heq := Nat.lt_or_eq_of_le hlen
    · have hn : ((buf + (firstLine (textFrom fs buf)).length : ℕ) : ℤ) - (buf + k : ℕ) =
          ((firstLine (textFrom fs buf)).length - k : ℕ) := by omega
      have hload : (fs.mem.drop (buf + k)).take ((firstLine (textFrom fs buf)).length - k) =
          (firstLine (textFrom fs buf)).drop k := by
        rw [← List.drop_drop, ← List.drop_take, take_mem (by omega) hp, ← take_firstLine (Nat.le_refl _),
          List.take_length]
      rw [if_pos (by omega), hn, Buffer.load_eq (by omega), hload]
      change some (buf + k + (firstWord _).length) = _
      rw [Nat.add_assoc, hwl]
    · rw [if_neg (by omega), ← hwl, heq, List.drop_length, Int.toNat_natCast]
      rfl
  unfold findBreak
  rw [hcol]
  simp only [hk, hscan]
  change (if buf < buf then _ else _) = _
  rw [if_neg (Nat.lt_irrefl _)]
  simp only [hword]
  change (if buf + _ = buf + _ then _ else _) = _
  by_cases hall : firstWord (firstLine (textFrom fs buf)) = firstLine (textFrom fs buf)
  · rw [if_pos hall, hall, if_pos rfl]
  · have hne : ¬buf + (firstWord (firstLine (textFrom fs buf))).length =
        buf + (firstLine (textFrom fs buf)).length := by
      intro heq
      exact hall (prefix_firstWord.eq_of_length (by omega))
    rw [if_neg hall, if_neg hne]
    rfl

/-- What follows a word is skipped up to the first byte that is no blank, if the text has one. -/
theorem skipBlanks_text {i : ℕ} (h : ∃ x ∈ textFrom fs i, isBlank x = false) :
    skipBlanks fs.mem i = some (i + ((textFrom fs i).takeWhile isBlank).length) := by
  have hne : ((textFrom fs i).takeWhile isBlank).length ≠ (textFrom fs i).length := by
    intro heq
    obtain ⟨x, hx, hb⟩ := h
    have hall := (List.takeWhile_prefix isBlank).eq_of_length heq
    rw [List.takeWhile_eq_self_iff] at hall
    exact absurd (hall x hx) (by rw [hb]; decide)
  have htake : (fs.mem.drop i).takeWhile isBlank = (textFrom fs i).takeWhile isBlank := by
    rw [textFrom_mem, List.takeWhile_append, if_neg hne]
  have hdrop : (fs.mem.drop i).dropWhile isBlank ≠ [] := by
    rw [Ne, List.dropWhile_eq_nil_iff]
    intro hall
    obtain ⟨x, hx, hb⟩ := h
    rw [textFrom_mem] at hall
    exact absurd (hall x (List.mem_append_left _ hx)) (by rw [hb]; decide)
  unfold skipBlanks
  rw [if_neg hdrop, htake]

/-! ### The line break -/

section Break
variable {nl nextline len m : ℕ}

/-- The text from `nextline` comes to stand at `nl`. -/
theorem moveTail_eq (hnl : nl ≤ nextline) (hbuf : buf ≤ nextline) (hn : nextline + n = buf + len)
    (hroom : buf + len ≤ fs.mem.length) :
    ∃ mem, moveTail ⟨fs, buf, len, nl, nextline⟩ =
        .ok ({ fs with mem := mem, p := nl + n,
                       pointCol := if fs.wmargin = 0 then -1 else fs.wmargin }, some nl) ∧
      mem.length = fs.mem.length ∧
      mem.take (nl + n) = fs.mem.take nl ++ (fs.mem.drop nextline).take n := by
  have hpos : (nl : ℤ) + (len - (nextline - buf)) = (nl + n : ℕ) := by omega
  have hcount : (buf : ℤ) + len - nextline = n := by omega
  unfold moveTail
  obtain hlt | rfl := Nat.lt_or_eq_of_le hnl
  · obtain ⟨mem, hmove, hlen, htake, _⟩ := Buffer.exists_move fs.mem nl nextline n
      (by omega) (by omega)
    refine ⟨mem, ?_, hlen, htake⟩
    simp only [if_pos hlt]
    rw [hcount, hmove, access_bind, hpos, Buffer.position_eq (by omega), access_bind]
  · refine ⟨fs.mem, ?_, rfl, List.take_add⟩
    simp only [if_neg (Nat.lt_irrefl nl)]
    rw [ok_bind, hpos, Buffer.position_eq (by omega), access_bind]

/-- The blanks have their place in the buffer. -/
theorem padWrap_place (L : Libc) (fs : Fmtstream) (buf len : ℕ) (hw : fs.wmargin = m) (hgap : nl + m ≤ nextline)
    (hroom : nl + m ≤ fs.mem.length) :
    ∃ mem, padWrap L ⟨fs, buf, len, nl, nextline⟩ =
        .ok ⟨{ fs with mem := mem }, buf, len, nl + m, nextline⟩ ∧
      mem.length = fs.mem.length ∧ mem.take (nl + m) = fs.mem.take nl ++ List.replicate m blank ∧
      mem.drop (nl + m) = fs.mem.drop (nl + m) := by
  obtain ⟨mem, hstore, hlen, htake, hdrop⟩ := Buffer.exists_store fs.mem nl (List.replicate m blank)
    (by rw [List.length_replicate]; exact hroom)
  rw [List.length_replicate] at htake hdrop
  refine ⟨mem, ?_, hlen, htake, hdrop⟩
  unfold padWrap
  simp only [hw, Int.toNat_natCast]
  rw [if_pos (.inl (by omega)), hstore, access_bind]

/-- The blanks go to the stream. -/
theorem padWrap_emit (L : Libc) (fs : Fmtstream) (hw : fs.wmargin = m) (hgap : nextline < nl + m) (hend : nextline ≤ buf + len) :
    padWrap L ⟨fs, buf, len, nl, nextline⟩ =
      .ok ⟨emitEach L fs (List.replicate m blank), buf, len, nl, nextline⟩ := by
  have hat : ¬(Wrap.mk fs buf len nl nextline).AtEnd := by
    unfold Wrap.AtEnd
    change ¬nextline = buf + len + 1
    omega
  unfold padWrap
  simp only [hw, Int.toNat_natCast]
  rw [if_neg]
  intro h
  obtain h | h := h
  · omega
  · exact hat h.1

/-- What is left when a line has been broken at `nl`, with the text from `nextline` behind it. The
blanks of the wrap margin stand between the two, unless they had no place there and nothing
follows. -/
structure Wrapped (L : Libc) (fs : Fmtstream) (nl nextline : ℕ) (fs' : Fmtstream) (buf' : ℕ) :
    Prop where
  lmargin : fs'.lmargin = fs.lmargin
  rmargin : fs'.rmargin = fs.rmargin
  wmargin : fs'.wmargin = fs.wmargin
  size : fs'.mem.length = fs.mem.length
  start : buf' ≤ fs'.p
  room : fs'.p ≤ fs'.mem.length
  tail : textFrom fs' buf' = textFrom fs nextline
  col : fs'.pointCol = if fs.wmargin = 0 then -1 else fs.wmargin
  shown : L.Unfailing → nextline < fs.p ∨ nl + 1 + fs.wmargin.toNat ≤ nextline →
    fs'.out ++ fs'.mem.take buf' =
      fs.out ++ fs.mem.take nl ++ lineFeed :: List.replicate fs.wmargin.toNat blank

theorem emitEach_fields (fs : Fmtstream) (bytes : List UInt8) :
    emitEach L fs bytes = { fs with out := (emitEach L fs bytes).out } := by
  induction bytes generalizing fs with
  | nil => rfl
  | cons c bytes ih =>
    have hcons : emitEach L fs (c :: bytes) = emitEach L (emit L fs [c]) bytes := rfl
    rw [hcons, ih]
    rfl

theorem emitEach_unfailing (hL : L.Unfailing) (fs : Fmtstream) (bytes : List UInt8) :
    emitEach L fs bytes = { fs with out := fs.out ++ bytes } := by
  induction bytes generalizing fs with
  | nil => simp [emitEach]
  | cons c bytes ih =>
    have hcons : emitEach L fs (c :: bytes) = emitEach L (emit L fs [c]) bytes := rfl
    rw [hcons, ih, emit_unfailing hL]
    simp

/-- The tail of a wrapped text, from what the stages have left in the buffer. -/
theorem moveTail_wrapped (fs₁ : Fmtstream) {nl₁ nextline₁ buf₁ len₁ : ℕ}
    (hm : fs₁.lmargin = fs.lmargin ∧ fs₁.rmargin = fs.rmargin ∧ fs₁.wmargin = fs.wmargin)
    (hsize : fs₁.mem.length = fs.mem.length) (hnl : nl₁ ≤ nextline₁) (hbuf : buf₁ ≤ nextline₁)
    (hn : nextline₁ + (fs.p - nextline) = buf₁ + len₁) (hroom : buf₁ + len₁ ≤ fs.mem.length)
    (htail : (fs₁.mem.drop nextline₁).take (fs.p - nextline) = textFrom fs nextline)
    (hshown : L.Unfailing → nextline < fs.p ∨ nl + 1 + fs.wmargin.toNat ≤ nextline →
      fs₁.out ++ fs₁.mem.take nl₁ =
        fs.out ++ fs.mem.take nl ++ lineFeed :: List.replicate fs.wmargin.toNat blank) :
    ∃ fs' buf', moveTail ⟨fs₁, buf₁, len₁, nl₁, nextline₁⟩ = .ok (fs', some buf') ∧
      Wrapped L fs nl nextline fs' buf' := by
  obtain ⟨mem, hmove, hlen, htake⟩ := moveTail_eq hnl hbuf hn (hroom.trans_eq hsize.symm)
  refine ⟨_, _, hmove, hm.1, hm.2.1, hm.2.2, hlen.trans hsize, Nat.le_add_right _ _, ?_, ?_, ?_, ?_⟩
  · change nl₁ + (fs.p - nextline) ≤ mem.length
    omega
  · have hnl₁ : (fs₁.mem.take nl₁).length = nl₁ := by
      rw [List.length_take]
      omega
    change (mem.take (nl₁ + (fs.p - nextline))).drop nl₁ = _
    rw [htake, List.drop_left' hnl₁, htail]
  · exact hm.2.2 ▸ rfl
  · intro hL hplace
    have hbelow : mem.take nl₁ = fs₁.mem.take nl₁ := by
      have hnl₁ : (fs₁.mem.take nl₁).length = nl₁ := by
        rw [List.length_take]
        omega
      have htk := congrArg (List.take nl₁) htake
      rwa [List.take_take, Nat.min_eq_left (Nat.le_add_right _ _), List.take_left' hnl₁] at htk
    exact (congrArg (fs₁.out ++ ·) hbelow).trans (hshown hL hplace)

/-- The three stages of a line break. -/
def insertBreak (L : Libc) (w : Wrap) : Run (Fmtstream × Option ℕ) := do
  let w ← breakLine L w
  let w ← padWrap L w
  moveTail w

theorem not_atEnd (fs : Fmtstream) (nl : ℕ) (h : nextline ≤ buf + len) : ¬(Wrap.mk fs buf len nl nextline).AtEnd := by
  unfold Wrap.AtEnd
  change ¬nextline = buf + len + 1
  omega

/-- The blanks that are swallowed make room for the margin. -/
theorem insertBreak_replace (hw : fs.wmargin = m) (hp : fs.p ≤ fs.mem.length) (hbuf : buf ≤ nl)
    (hnl : nl < nextline) (hnext : nextline ≤ fs.p)
    (hroom : nl + 1 + m ≤ nextline ∨ nextline = fs.p) :
    ∃ fs' buf', insertBreak L ⟨fs, buf, fs.p - buf, nl, nextline⟩ = .ok (fs', some buf') ∧
      Wrapped L fs nl nextline fs' buf' := by
  obtain ⟨mem, hstore, hlen, htake, hdrop⟩ := Buffer.exists_store fs.mem nl [lineFeed]
    (by rw [List.length_singleton]; omega)
  rw [List.length_singleton] at htake hdrop
  have hbreak : breakLine L ⟨fs, buf, fs.p - buf, nl, nextline⟩ =
      .ok ⟨{ fs with mem := mem }, buf, fs.p - buf, nl + 1, nextline⟩ := by
    unfold breakLine
    simp only [if_neg (not_atEnd fs nl (by omega : nextline ≤ buf + (fs.p - buf)))]
    rw [if_neg (by omega), hstore, access_bind]
  have hmem : ∀ i, nl + 1 ≤ i → mem.drop i = fs.mem.drop i := by
    intro i hi
    have hd := congrArg (List.drop (i - (nl + 1))) hdrop
    rwa [List.drop_drop, List.drop_drop, Nat.add_sub_cancel' hi] at hd
  unfold insertBreak
  rw [hbreak, ok_bind]
  by_cases hfit : nl + 1 + m ≤ nextline
  · obtain ⟨mem₁, hpad, hlen₁, htake₁, hdrop₁⟩ := padWrap_place L { fs with mem := mem }
      buf (fs.p - buf) hw hfit
      (by change _ ≤ mem.length; omega)
    rw [hpad, ok_bind]
    refine moveTail_wrapped { fs with mem := mem₁ } ⟨rfl, rfl, rfl⟩ (hlen₁.trans hlen) hfit
      (by omega) (by omega) (by omega) ?_ ?_
    · have hd := congrArg (List.drop (nextline - (nl + 1 + m))) hdrop₁
      rw [List.drop_drop, List.drop_drop, Nat.add_sub_cancel' hfit] at hd
      change (mem₁.drop nextline).take _ = _
      rw [hd, hmem nextline (by omega), drop_take_p]
    · intro _ _
      change fs.out ++ mem₁.take (nl + 1 + m) = _
      rw [htake₁, htake, hw]
      simp
  · have hat : nextline = fs.p := by omega
    rw [padWrap_emit L { fs with mem := mem } hw (by omega) (by omega), ok_bind]
    have hsame := emitEach_fields (L := L) { fs with mem := mem } (List.replicate m blank)
    rw [hsame]
    refine moveTail_wrapped _ ⟨rfl, rfl, rfl⟩ hlen (by omega) (by omega) (by omega) (by omega) ?_ ?_
    · rw [← drop_take_p, hat, Nat.sub_self, List.take_zero, List.take_zero]
    · intro _ hplace
      rw [hw, Int.toNat_natCast] at hplace
      omega

/-- The text is moved up to make the room. -/
theorem insertBreak_move (hw : fs.wmargin = m) (hbuf : buf ≤ nl)
    (hnl : nl < nextline) (hnext : nextline < fs.p) (hgap : nextline < nl + 1 + m)
    (hroom : fs.p + m + 1 < fs.mem.length) :
    ∃ fs' buf', insertBreak L ⟨fs, buf, fs.p - buf, nl, nextline⟩ = .ok (fs', some buf') ∧
      Wrapped L fs nl nextline fs' buf' := by
  obtain ⟨mem, hmove, hlen, htake, hdrop⟩ := Buffer.exists_move fs.mem (nl + 1 + m) nextline
    (fs.p - nextline) (by omega) (by omega)
  obtain ⟨mem₁, hstore, hlen₁, htake₁, hdrop₁⟩ := Buffer.exists_store mem nl [lineFeed]
    (by rw [List.length_singleton]; omega)
  rw [List.length_singleton] at htake₁ hdrop₁
  have hbreak : breakLine L ⟨fs, buf, fs.p - buf, nl, nextline⟩ =
      .ok ⟨{ fs with mem := mem₁ }, buf, nl + 1 + m + (fs.p - nextline) - buf, nl + 1, nl + 1 + m⟩ := by
    unfold breakLine
    simp only [if_neg (not_atEnd fs nl (by omega : nextline ≤ buf + (fs.p - buf)))]
    simp only [if_pos (show (nextline : ℤ) - (nl + 1) < fs.wmargin ∧ nextline < fs.p by omega),
      if_pos (show (fs.mem.length : ℤ) - fs.p > fs.wmargin + 1 by omega),
      show fs.wmargin.toNat = m by omega, hmove, access_bind, hstore]
  unfold insertBreak
  rw [hbreak, ok_bind]
  obtain ⟨mem₂, hpad, hlen₂, htake₂, hdrop₂⟩ := padWrap_place L { fs with mem := mem₁ }
    buf (nl + 1 + m + (fs.p - nextline) - buf) hw
    (Nat.le_refl (nl + 1 + m)) (by change _ ≤ mem₁.length; omega)
  rw [hpad, ok_bind]
  refine moveTail_wrapped { fs with mem := mem₂ } ⟨rfl, rfl, rfl⟩
    (hlen₂.trans (hlen₁.trans hlen)) (Nat.le_refl _) (by omega) (by omega) (by omega) ?_ ?_
  · have hd : mem₁.drop (nl + 1 + m) = mem.drop (nl + 1 + m) := by
      have hd := congrArg (List.drop m) hdrop₁
      rwa [List.drop_drop, List.drop_drop] at hd
    have hfull : (fs.mem.take (nl + 1 + m)).length = nl + 1 + m := by
      rw [List.length_take]
      omega
    have htk := congrArg (List.drop (nl + 1 + m)) htake
    rw [List.drop_left' hfull, List.drop_take, Nat.add_sub_cancel_left, drop_take_p] at htk
    change (mem₂.drop (nl + 1 + m)).take _ = _
    rw [hdrop₂, hd, htk]
  · intro _ _
    have hbelow : mem.take nl = fs.mem.take nl := by
      have htk := congrArg (List.take nl) htake
      rwa [List.take_take, Nat.min_eq_left (by omega), List.take_append_of_le_length
        (by rw [List.length_take]; omega), List.take_take, Nat.min_eq_left (by omega)] at htk
    change fs.out ++ mem₂.take (nl + 1 + m) = _
    rw [htake₂, htake₁, hbelow, hw]
    simp

/-- The first line is put out to make the room. -/
theorem insertBreak_flush (hw : fs.wmargin = m) (hp : fs.p ≤ fs.mem.length) (hbuf : buf ≤ nl)
    (hnl : nl < nextline) (hnext : nextline < fs.p) (hgap : nextline < nl + 1 + m)
    (hroom : fs.mem.length ≤ fs.p + m + 1) :
    ∃ fs' buf', insertBreak L ⟨fs, buf, fs.p - buf, nl, nextline⟩ = .ok (fs', some buf') ∧
      Wrapped L fs nl nextline fs' buf' := by
  have hload : Buffer.load fs.mem 0 nl = some (fs.mem.take nl) := Buffer.load_eq (i := 0) (by omega)
  have hbreak : breakLine L ⟨fs, buf, fs.p - buf, nl, nextline⟩ =
      .ok ⟨emit L (emit L fs (fs.mem.take nl)) [lineFeed], 0, fs.p - buf + buf, 0, nextline⟩ := by
    unfold breakLine
    simp only [if_neg (not_atEnd fs nl (by omega : nextline ≤ buf + (fs.p - buf))),
      if_pos (show (nextline : ℤ) - (nl + 1) < fs.wmargin ∧ nextline < fs.p by omega),
      if_neg (show ¬(fs.mem.length : ℤ) - fs.p > fs.wmargin + 1 by omega), hload, access_bind]
  unfold insertBreak
  rw [hbreak, ok_bind]
  by_cases hfit : 0 + m ≤ nextline
  · obtain ⟨mem, hpad, hlen, htake, hdrop⟩ := padWrap_place L
      (emit L (emit L fs (fs.mem.take nl)) [lineFeed]) 0 (fs.p - buf + buf) hw hfit
      (by change _ ≤ fs.mem.length; omega)
    rw [hpad, ok_bind]
    refine moveTail_wrapped { emit L (emit L fs (fs.mem.take nl)) [lineFeed] with mem := mem }
      ⟨rfl, rfl, rfl⟩ hlen hfit (Nat.zero_le _) (by omega) (by omega) ?_ ?_
    · have hd := congrArg (List.drop (nextline - (0 + m))) hdrop
      rw [List.drop_drop, List.drop_drop, Nat.add_sub_cancel' hfit] at hd
      change (mem.drop nextline).take _ = _
      rw [hd]
      exact drop_take_p
    · intro hL _
      change (emit L (emit L fs (fs.mem.take nl)) [lineFeed]).out ++ mem.take (0 + m) = _
      rw [htake, emit_unfailing hL, emit_unfailing hL, hw]
      simp
  · rw [padWrap_emit L (emit L (emit L fs (fs.mem.take nl)) [lineFeed]) hw (by omega) (by omega),
      ok_bind, emitEach_fields]
    refine moveTail_wrapped _ ⟨rfl, rfl, rfl⟩ rfl (Nat.zero_le _) (Nat.zero_le _) (by omega) (by omega)
      drop_take_p ?_
    intro hL _
    change (emitEach L _ _).out ++ fs.mem.take 0 = _
    rw [emitEach_unfailing hL, emit_unfailing hL, emit_unfailing hL, hw]
    simp

/-- A line is broken within the buffer, wherever the room for the margin comes from. -/
theorem insertBreak_wrapped (L : Libc) (buf nl nextline : ℕ) (hw : 0 ≤ fs.wmargin) (hp : fs.p ≤ fs.mem.length)
    (hbuf : buf ≤ nl) (hnl : nl < nextline) (hnext : nextline ≤ fs.p) :
    ∃ fs' buf', insertBreak L ⟨fs, buf, fs.p - buf, nl, nextline⟩ = .ok (fs', some buf') ∧
      Wrapped L fs nl nextline fs' buf' := by
  obtain ⟨m, hm⟩ := Int.eq_ofNat_of_zero_le hw
  by_cases hplace : nl + 1 + m ≤ nextline ∨ nextline = fs.p
  · exact insertBreak_replace hm hp hbuf hnl hnext hplace
  · by_cases hroom : fs.p + m + 1 < fs.mem.length
    · exact insertBreak_move hm hbuf hnl (by omega) (by omega) hroom
    · exact insertBreak_flush hm hp hbuf hnl (by omega) (by omega) (by omega)

end Break

/-! ### Where the scans stay in the text -/

/-- The column at which the text at the point starts. -/
def startCol (fs : Fmtstream) : ℕ := if fs.pointCol = 0 then fs.lmargin else fs.pointCol.toNat

/-- The line fits, or a place for the break is found in the text: the line does not start past the
margin, it does not end exactly at the margin unless its newline and a blank are there, and the
blanks after a word that is too long are not all that there is. -/
def Scannable (rmargin c : ℕ) (text : List UInt8) : Prop :=
  c + (firstLine text).length < rmargin ∨
    c ≤ rmargin + 1 ∧
      if c + (firstLine text).length = rmargin then
        lineFeed ∈ text ∧ firstWord (firstLine text) ≠ firstLine text
      else
        lineFeed ∈ text ∨ c + (firstWord (firstLine text)).length ≤ rmargin ∨
          firstWord (firstLine text) = firstLine text ∨
          ∃ x ∈ (firstLine text).drop (firstWord (firstLine text)).length, isBlank x = false

instance (rmargin c : ℕ) (text : List UInt8) : Decidable (Scannable rmargin c text) := by
  unfold Scannable
  infer_instance

/-- A line that is not one word has a blank behind its first word. -/
theorem firstWord_blank (h : firstWord line ≠ line) :
    ∃ b rest, line = firstWord line ++ b :: rest ∧ isBlank b = true := by
  have hsplit : firstWord line ++ line.dropWhile (fun c => !isBlank c) = line :=
    List.takeWhile_append_dropWhile
  cases hd : line.dropWhile fun c => !isBlank c with
  | nil =>
    rw [hd, List.append_nil] at hsplit
    exact absurd hsplit h
  | cons b rest =>
    refine ⟨b, rest, (hd ▸ hsplit).symm, ?_⟩
    have hb := List.head_dropWhile_not (fun c => !isBlank c) (l := line) (by rw [hd]; simp)
    simpa [hd] using hb

/-- A word that ends at a blank is the first word of all that the line begins. -/
theorem firstWord_of_isPrefix {b : UInt8} (hpre : firstWord line ++ b :: rest <+: text)
    (hb : isBlank b = true) : firstWord text = firstWord line := by
  obtain ⟨more, rfl⟩ := hpre
  have hall : ∀ x ∈ firstWord line, (!isBlank x) = true := fun x hx =>
    List.mem_takeWhile_imp (p := fun c => !isBlank c) hx
  rw [firstWord, List.append_assoc, List.takeWhile_append_of_pos hall]
  simp [hb]

theorem upToBlank_eq_nil (h : upToBlank k text = []) {b : UInt8} (hb : b ∈ text.take k) :
    isBlank b = false := by
  have hall := List.rdropWhile_eq_nil_iff.mp h b hb
  simpa using hall

theorem length_le_of_blank {word : List UInt8} {b : UInt8} (h : upToBlank k text = [])
    (he : firstLine text = word ++ b :: rest) (hb : isBlank b = true) : k ≤ word.length := by
  by_contra hlt
  obtain ⟨more, ht⟩ : firstLine text <+: text := prefix_firstLine
  have hget : (text.take k)[word.length]? = some b := by
    rw [List.getElem?_take_of_lt (by omega), ← ht, he, List.append_assoc,
      List.getElem?_append_right (Nat.le_refl _), Nat.sub_self]
    rfl
  have hnot := upToBlank_eq_nil h (List.mem_of_getElem? hget)
  rw [hb] at hnot
  cases hnot

/-- The break that is found is that of the text. -/
theorem findBreak_scannable {c : ℕ} (hcol : fs.pointCol = c) (hp : fs.p ≤ fs.mem.length)
    (hbuf : buf ≤ fs.p) (hs : Scannable fs.rmargin c (textFrom fs buf))
    (hlong : fs.rmargin ≤ c + (firstLine (textFrom fs buf)).length) :
    findBreak fs buf (buf + (firstLine (textFrom fs buf)).length) = some none ∧
        firstWord (firstLine (textFrom fs buf)) = firstLine (textFrom fs buf) ∨
      ∃ pre gap, breakText (fs.rmargin + 1 - c) (textFrom fs buf) = (pre, gap) ∧ gap ≠ [] ∧
        pre ++ gap <+: textFrom fs buf ∧
        findBreak fs buf (buf + (firstLine (textFrom fs buf)).length) =
          some (some (buf + pre.length, buf + pre.length + gap.length)) := by
  obtain hs | ⟨hc, hs⟩ := hs
  · omega
  have hk : ((fs.rmargin : ℤ) - c + 1).toNat = fs.rmargin + 1 - c := by omega
  have hline : (firstLine (textFrom fs buf)).length ≤ (textFrom fs buf).length :=
    prefix_firstLine.length_le
  by_cases hhead : upToBlank (fs.rmargin + 1 - c) (textFrom fs buf) = []
  · by_cases hword : firstWord (firstLine (textFrom fs buf)) = firstLine (textFrom fs buf)
    · have hlen : fs.rmargin + 1 - c ≤ (firstLine (textFrom fs buf)).length := by
        split_ifs at hs with hat
        · exact absurd hword hs.2
        · omega
      rw [findBreak_word hcol hc hp hbuf hk hlen hhead, if_pos hword]
      exact .inl ⟨rfl, hword⟩
    · obtain ⟨b, after, he, hb⟩ := firstWord_blank hword
      have hfirst : firstWord (textFrom fs buf) = firstWord (firstLine (textFrom fs buf)) :=
        firstWord_of_isPrefix (he ▸ prefix_firstLine) hb
      have hbreak := findBreak_word hcol hc hp hbuf hk
      generalize firstWord (firstLine (textFrom fs buf)) = word at *
      have hfar := length_le_of_blank hhead he hb
      have hlen : fs.rmargin + 1 - c ≤ (firstLine (textFrom fs buf)).length := by
        rw [he, List.length_append]
        omega
      have hmore : lineFeed ∈ textFrom fs buf ∨ ∃ x ∈ after, isBlank x = false := by
        rw [if_neg (by omega)] at hs
        obtain h | h | h | ⟨x, hx, hbx⟩ := hs
        · exact .inl h
        · omega
        · exact absurd h hword
        · rw [he, List.drop_left, List.mem_cons] at hx
          obtain rfl | hx := hx
          · rw [hb] at hbx
            cases hbx
          · exact .inr ⟨x, hx, hbx⟩
      obtain ⟨more, ht⟩ : firstLine (textFrom fs buf) <+: textFrom fs buf := prefix_firstLine
      have hlf : lineFeed ∉ firstLine (textFrom fs buf) := by
        intro hm
        have hne := List.mem_takeWhile_imp hm
        simp at hne
      rw [he] at hlf
      rw [he, List.append_assoc, List.cons_append] at ht
      have hnext : textFrom fs (buf + word.length + 1) = after ++ more := by
        rw [Nat.add_assoc, ← drop_textFrom, ← ht, ← List.drop_drop, List.drop_left]
        rfl
      have hskip : skipBlanks fs.mem (buf + word.length + 1) =
          some (buf + word.length + 1 + ((after ++ more).takeWhile isBlank).length) := by
        rw [← hnext]
        apply skipBlanks_text
        rw [hnext]
        obtain hm | ⟨x, hx, hbx⟩ := hmore
        · rw [← ht] at hm
          simp only [List.mem_append, List.mem_cons] at hm hlf
          exact ⟨lineFeed, List.mem_append.mpr (by tauto), isBlank_lineFeed⟩
        · exact ⟨x, List.mem_append_left _ hx, hbx⟩
      refine .inr ⟨word, b :: (after ++ more).takeWhile isBlank, ?_, by simp, ?_, ?_⟩
      · unfold breakText
        rw [if_neg (by simp [hhead]), hfirst, ← ht, List.drop_left, List.takeWhile_cons_of_pos hb]
      · rw [← ht]
        exact List.prefix_append_right_inj _ |>.mpr (List.cons_prefix_cons.mpr
          ⟨rfl, List.takeWhile_prefix _⟩)
      · rw [hbreak hlen hhead, if_neg hword, hskip, List.length_cons]
        change some (some (_, _)) = _
        rw [Nat.add_assoc (buf + word.length), Nat.add_comm 1]
  · refine .inr ⟨(upToBlank (fs.rmargin + 1 - c) (textFrom fs buf)).rdropWhile isBlank,
      (upToBlank (fs.rmargin + 1 - c) (textFrom fs buf)).rtakeWhile isBlank, if_pos hhead, ?_, ?_, ?_⟩
    · obtain ⟨head, b, he, hb⟩ := upToBlank_concat hhead
      rw [he, List.rtakeWhile_concat_pos _ _ _ hb]
      simp
    · rw [List.rdropWhile_append_rtakeWhile]
      exact prefix_upToBlank.trans (List.take_prefix _ _)
    · have hlen : fs.rmargin + 1 - c ≤ (textFrom fs buf).length := by
        split_ifs at hs with hat
        · obtain hnone | ⟨line, rest, hl, ht⟩ := line_cases (textFrom fs buf)
          · exact absurd hs.1 hnone
          · rw [ht, firstLine_newline hl] at hat
            rw [ht, List.length_append, List.length_cons]
            omega
        · omega
      have hsum := congrArg List.length (List.rdropWhile_append_rtakeWhile
        (p := isBlank) (l := upToBlank (fs.rmargin + 1 - c) (textFrom fs buf)))
      rw [List.length_append] at hsum
      rw [findBreak_blank hcol hp hbuf hk hlen hhead, Nat.add_assoc, hsum]
      unfold breakText
      rw [if_pos hhead]

/-! ### One turn -/

/-- What a turn makes of the line at `buf`, after the padding. -/
inductive Scanned (L : Libc) (fs : Fmtstream) (buf : ℕ) : Fmtstream → Option ℕ → Prop
  | partLine (hline : lineFeed ∉ textFrom fs buf)
      (hfit : fs.pointCol + (textFrom fs buf).length < fs.rmargin) :
      Scanned L fs buf { fs with pointCol := fs.pointCol + (textFrom fs buf).length } none
  | wholeLine (hline : lineFeed ∈ textFrom fs buf)
      (hfit : fs.pointCol + (firstLine (textFrom fs buf)).length < fs.rmargin) :
      Scanned L fs buf { fs with pointCol := 0 }
        (some (buf + (firstLine (textFrom fs buf)).length + 1))
  | longWord (hword : firstWord (firstLine (textFrom fs buf)) = firstLine (textFrom fs buf))
      (hlong : fs.rmargin ≤ fs.pointCol + (firstLine (textFrom fs buf)).length) :
      Scanned L fs buf { fs with pointCol := 0 }
        (some (buf + (firstLine (textFrom fs buf)).length + 1))
  | broken {pre gap : List UInt8} {fs' : Fmtstream} {buf' : ℕ}
      (hlong : fs.rmargin ≤ fs.pointCol + (firstLine (textFrom fs buf)).length)
      (hbreak : breakText (fs.rmargin + 1 - fs.pointCol).toNat (textFrom fs buf) = (pre, gap))
      (hgap : gap ≠ []) (hpre : pre ++ gap <+: textFrom fs buf)
      (hwrap : Wrapped L fs (buf + pre.length) (buf + pre.length + gap.length) fs' buf') :
      Scanned L fs buf fs' (some buf')

theorem scanLine_eq (hp : fs.p ≤ fs.mem.length) (hbuf : buf ≤ fs.p) :
    scanLine L fs buf =
      if fs.pointCol + (firstLine (textFrom fs buf)).length < fs.rmargin then
        if lineFeed ∈ textFrom fs buf then
          .ok ({ fs with pointCol := 0 }, some (buf + (firstLine (textFrom fs buf)).length + 1))
        else .ok ({ fs with pointCol := fs.pointCol + (textFrom fs buf).length }, none)
      else longLine L fs buf (buf + (firstLine (textFrom fs buf)).length) := by
  by_cases h : lineFeed ∈ textFrom fs buf
  · rw [if_pos h]
    unfold scanLine
    rw [(firstLine_length h).2]
  · have hlen : buf + (fs.p - buf) = fs.p := Nat.add_sub_cancel' hbuf
    rw [if_neg h, scanLine_partLine h, firstLine_of_not_mem h, length_textFrom hp, hlen]

theorem scanLine_scannable (L : Libc) (fs : Fmtstream) (buf c : ℕ) (hcol : fs.pointCol = c) (hw : 0 ≤ fs.wmargin)
    (hp : fs.p ≤ fs.mem.length) (hbuf : buf ≤ fs.p)
    (hs : Scannable fs.rmargin c (textFrom fs buf)) :
    ∃ fs' next, scanLine L fs buf = .ok (fs', next) ∧ Scanned L fs buf fs' next := by
  have hlen : (textFrom fs buf).length = fs.p - buf := length_textFrom hp
  rw [scanLine_eq hp hbuf]
  by_cases hfit : fs.pointCol + (firstLine (textFrom fs buf)).length < fs.rmargin
  · rw [if_pos hfit]
    by_cases h : lineFeed ∈ textFrom fs buf
    · rw [if_pos h]
      exact ⟨_, _, rfl, .wholeLine h hfit⟩
    · rw [firstLine_of_not_mem h] at hfit
      rw [if_neg h]
      exact ⟨_, _, rfl, .partLine h hfit⟩
  · have hlong : longLine L fs buf (buf + (firstLine (textFrom fs buf)).length) =
        wrapLine L fs buf (fs.p - buf) (buf + (firstLine (textFrom fs buf)).length) :=
      if_neg (by omega)
    rw [if_neg hfit, hlong]
    unfold wrapLine
    obtain ⟨hbreak, hword⟩ | ⟨pre, gap, htext, hgap, hpre, hbreak⟩ :=
      findBreak_scannable hcol hp hbuf hs (by omega)
    · rw [hbreak, access_bind]
      exact ⟨_, _, rfl, .longWord hword (by omega)⟩
    · have hpos : 0 < gap.length := List.length_pos_iff.mpr hgap
      have hle := hpre.length_le
      rw [List.length_append] at hle
      obtain ⟨fs', buf', hrun, hwrap⟩ := insertBreak_wrapped L buf (buf + pre.length)
        (buf + pre.length + gap.length) hw hp (by omega) (by omega) (by omega)
      rw [hbreak, access_bind]
      refine ⟨fs', some buf', hrun, .broken (by omega) ?_ hgap hpre hwrap⟩
      rw [hcol, ← htext]
      congr 1
      omega

/-- The margins are the same, and the buffer has the same size and holds the text. -/
structure SameMargins (fs fs' : Fmtstream) : Prop where
  lmargin : fs'.lmargin = fs.lmargin
  rmargin : fs'.rmargin = fs.rmargin
  wmargin : fs'.wmargin = fs.wmargin
  size : fs'.mem.length = fs.mem.length
  room : fs'.p ≤ fs'.mem.length

theorem SameMargins.trans {fs₁ fs₂ fs₃ : Fmtstream} (h : SameMargins fs₁ fs₂)
    (h' : SameMargins fs₂ fs₃) : SameMargins fs₁ fs₃ :=
  ⟨h'.1.trans h.1, h'.2.trans h.2, h'.3.trans h.3, h'.4.trans h.4, h'.5⟩

theorem Scanned.sameMargins {next : Option ℕ} (h : Scanned L fs buf fs' next)
    (hp : fs.p ≤ fs.mem.length) : SameMargins fs fs' := by
  cases h with
  | partLine => exact ⟨rfl, rfl, rfl, rfl, hp⟩
  | wholeLine => exact ⟨rfl, rfl, rfl, rfl, hp⟩
  | longWord => exact ⟨rfl, rfl, rfl, rfl, hp⟩
  | broken _ _ _ _ hwrap => exact ⟨hwrap.1, hwrap.2, hwrap.3, hwrap.4, hwrap.room⟩

/-- The text that is left to scan gets shorter. -/
theorem Scanned.progress {buf' : ℕ} (h : Scanned L fs buf fs' (some buf'))
    (hp : fs.p ≤ fs.mem.length) (hbuf : buf < fs.p) :
    (textFrom fs' buf').length < (textFrom fs buf).length := by
  have hskip : ∀ n, (textFrom fs (buf + n + 1)).length < (textFrom fs buf).length := by
    intro n
    rw [length_textFrom hp, length_textFrom hp]
    omega
  cases h with
  | wholeLine => exact hskip _
  | longWord => exact hskip _
  | @broken pre gap _ _ _ _ hgap _ hwrap =>
    have hpos : 0 < gap.length := List.length_pos_iff.mpr hgap
    rw [hwrap.tail, length_textFrom hp, length_textFrom hp]
    omega

/-- The blanks that a turn puts in front of the text. -/
def padding (fs : Fmtstream) : List UInt8 :=
  if fs.pointCol = 0 then List.replicate fs.lmargin blank else []

/-- The text at the point, with the left margin in front of it. The blanks stand behind what has
been put out, unless they had no place in the buffer and it was not empty. -/
structure Padded (L : Libc) (fs : Fmtstream) (buf : ℕ) (fs' : Fmtstream) (buf' : ℕ) : Prop where
  margins : SameMargins fs fs'
  start : buf' < fs'.p
  text : textFrom fs' buf' = textFrom fs buf
  col : max fs'.pointCol 0 = startCol fs
  shown : L.Unfailing → buf = 0 ∨ padding fs = [] ∨ fs.p + fs.lmargin < fs.mem.length →
    fs'.out ++ fs'.mem.take buf' = fs.out ++ fs.mem.take buf ++ padding fs

theorem padLine_padded (L : Libc) (hp : fs.p ≤ fs.mem.length) (hbuf : buf < fs.p) :
    ∃ fs' buf', padLine L fs buf = .ok (fs', buf') ∧ Padded L fs buf fs' buf' := by
  unfold padLine
  by_cases hpad : fs.pointCol = 0 ∧ fs.lmargin ≠ 0
  · have hstart : startCol fs = fs.lmargin := if_pos hpad.1
    have hblanks : padding fs = List.replicate fs.lmargin blank := if_pos hpad.1
    rw [if_pos hpad]
    by_cases hroom : fs.p + fs.lmargin < fs.mem.length
    · obtain ⟨mem, hmove, hlen, htake, hdrop⟩ := Buffer.exists_move fs.mem (buf + fs.lmargin)
        buf (fs.p - buf) (by omega) (by omega)
      obtain ⟨mem₁, hstore, hlen₁, htake₁, hdrop₁⟩ := Buffer.exists_store mem buf
        (List.replicate fs.lmargin blank) (by rw [List.length_replicate]; omega)
      rw [List.length_replicate] at htake₁ hdrop₁
      have hn : (fs.p : ℤ) - buf = (fs.p - buf : ℕ) := by omega
      have hdst : (buf : ℤ) + fs.lmargin = (buf + fs.lmargin : ℕ) := by omega
      have hbelow : mem.take buf = fs.mem.take buf := by
        have htk := congrArg (List.take buf) htake
        rwa [List.take_take, Nat.min_eq_left (by omega), List.take_append_of_le_length
          (by rw [List.length_take]; omega), List.take_take, Nat.min_eq_left (by omega)] at htk
      simp only [if_pos hroom]
      rw [hn, hdst, hmove, access_bind, hstore, access_bind]
      refine ⟨_, _, rfl, ⟨rfl, rfl, rfl, hlen₁.trans hlen, ?_⟩, ?_, ?_, ?_, ?_⟩
      · change fs.p + fs.lmargin ≤ mem₁.length
        omega
      · change buf + fs.lmargin < fs.p + fs.lmargin
        omega
      · have hfull : (fs.mem.take (buf + fs.lmargin)).length = buf + fs.lmargin := by
          rw [List.length_take]
          omega
        have htk := congrArg (List.drop (buf + fs.lmargin)) htake
        rw [List.drop_left' hfull, List.drop_take, Nat.add_sub_cancel_left, drop_take_p] at htk
        change (mem₁.take (fs.p + fs.lmargin)).drop (buf + fs.lmargin) = _
        rw [List.drop_take, hdrop₁, show fs.p + fs.lmargin - (buf + fs.lmargin) = fs.p - buf by omega,
          htk]
      · rw [hstart]
        exact Int.max_eq_left (Int.natCast_nonneg _)
      · intro _ _
        change fs.out ++ mem₁.take (buf + fs.lmargin) = _
        rw [htake₁, hbelow, hblanks, List.append_assoc]
    · simp only [if_neg hroom]
      rw [emitEach_fields]
      refine ⟨_, _, rfl, ⟨rfl, rfl, rfl, rfl, hp⟩, hbuf, rfl, ?_, ?_⟩
      · rw [hstart]
        exact Int.max_eq_left (Int.natCast_nonneg _)
      · intro hL hempty
        change (emitEach L fs _).out ++ fs.mem.take buf = _
        obtain rfl | h | h := hempty
        · rw [emitEach_unfailing hL, hblanks]
          simp
        · rw [hblanks, List.replicate_eq_nil_iff] at h
          exact absurd h hpad.2
        · exact absurd h hroom
  · rw [if_neg hpad]
    have hblanks : padding fs = [] := by
      unfold padding
      split_ifs with h0
      · rw [show fs.lmargin = 0 by tauto]
        rfl
      · rfl
    refine ⟨_, _, rfl, ⟨rfl, rfl, rfl, rfl, hp⟩, hbuf, rfl, ?_, ?_⟩
    · unfold startCol
      split_ifs with h0
      · rw [h0, show fs.lmargin = 0 by tauto]
        rfl
      · omega
    · intro _ _
      rw [hblanks, List.append_nil]

/-- The step lemma: a turn of which the scan stays in the text. -/
theorem turn_scannable (L : Libc) (hw : 0 ≤ fs.wmargin) (hp : fs.p ≤ fs.mem.length)
    (hbuf : buf < fs.p) (hs : Scannable fs.rmargin (startCol fs) (textFrom fs buf)) :
    ∃ fs₁ buf₁ fs' next, Padded L fs buf fs₁ buf₁ ∧ turn L fs buf = .ok (fs', next) ∧
      Scanned L { fs₁ with pointCol := startCol fs } buf₁ fs' next := by
  obtain ⟨fs₁, buf₁, hrun, hpad⟩ := padLine_padded L hp hbuf
  have hm := hpad.margins
  have htext : textFrom { fs₁ with pointCol := startCol fs } buf₁ = textFrom fs buf := hpad.text
  obtain ⟨fs', next, hscan, hturn⟩ := scanLine_scannable L
    { fs₁ with pointCol := startCol fs } buf₁ (startCol fs) rfl (hm.wmargin.symm ▸ hw) hm.room
    (Nat.le_of_lt hpad.start) (by rw [htext]; exact hm.rmargin.symm ▸ hs)
  refine ⟨fs₁, buf₁, fs', next, hpad, ?_, hturn⟩
  rw [← hscan, ← hpad.col]
  unfold turn
  rw [hrun, ok_bind]

end MuslBsd.Help
