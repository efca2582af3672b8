import MuslBsd.Help.Fmtstream

/-! What the operations of the stream keep, from what its update keeps. -/
namespace MuslBsd.Help
open MuslBsd.Support

/-! ### The updates of an operation -/

section Updates
variable (L : Libc) (k : ℕ) (P : Fmtstream → Prop)

/-- If `__argp_fmtstream_ensure` updates the stream, it does so from a state that satisfies `P`. -/
def EnsureFrom (fs : Fmtstream) (amount : ℕ) : Prop := fs.mem.length - fs.p < amount → P fs

/-- Both calls of `__argp_fmtstream_ensure` in `__argp_fmtstream_printf`, with what `vsnprintf` has
left in the buffer between them. -/
def PrintfFrom (fs : Fmtstream) (text : List UInt8) : Prop :=
  EnsureFrom P fs 150 ∧
    ∀ r ∈ (ensure L k fs 150).toOption, r.2 = true → r.1.mem.length - r.1.p ≤ text.length →
      ∀ mem ∈ Buffer.store r.1.mem r.1.p (text.take (r.1.mem.length - r.1.p - 1) ++ [0]),
        EnsureFrom P { r.1 with mem := mem } (text.length + 1)

/-- Every update that the call makes is from a state that satisfies `P`. -/
def Output.From (fs : Fmtstream) : Output → Prop
  | .write text => fs.mem.length < fs.p + text.val.length → P fs
  | .puts text => fs.mem.length < fs.p + text.val.length → P fs
  | .putc _ => fs.mem.length ≤ fs.p → P fs
  | .printf text => PrintfFrom L k P fs text
  | .ensure amount => EnsureFrom P fs amount
  | .update => P fs

instance [DecidablePred P] (fs : Fmtstream) (amount : ℕ) : Decidable (EnsureFrom P fs amount) :=
  inferInstanceAs (Decidable (_ < _ → _))

instance [DecidablePred P] (fs : Fmtstream) (text : List UInt8) :
    Decidable (PrintfFrom L k P fs text) := by
  unfold PrintfFrom
  infer_instance

instance [DecidablePred P] (fs : Fmtstream) : (o : Output) → Decidable (o.From L k P fs)
  | .write _ => inferInstanceAs (Decidable (_ < _ → _))
  | .puts _ => inferInstanceAs (Decidable (_ < _ → _))
  | .putc _ => inferInstanceAs (Decidable (_ ≤ _ → _))
  | .printf _ => inferInstanceAs (Decidable (PrintfFrom ..))
  | .ensure _ => inferInstanceAs (Decidable (EnsureFrom ..))
  | .update => inferInstanceAs (Decidable (P fs))

end Updates

/-! ### What they keep -/

/-- `I text` is kept, where `text` is what has been written: by an update from a state that
satisfies `P`, by text that is put behind the text in the buffer, and by a flush of a buffer that
has been scanned, whether the stream takes all of it or not. -/
structure Preserved (L : Libc) (k : ℕ) (P : List UInt8 → Fmtstream → Prop)
    (I : List UInt8 → Fmtstream → Prop) : Prop where
  room : ∀ {text fs}, I text fs → fs.p ≤ fs.mem.length
  update : ∀ {text fs}, I text fs → P text fs → text.length < k →
    ∃ fs', update L k fs = .ok fs' ∧ I text fs' ∧ fs'.pointOffs = fs'.p
  extend : ∀ {text fs mem xs}, I text fs → mem.length = fs.mem.length →
    fs.p + xs.length ≤ fs.mem.length →
    mem.take (fs.p + xs.length) = fs.mem.take fs.p ++ xs →
    I (text ++ xs) { fs with mem := mem, p := fs.p + xs.length }
  flush : ∀ {text fs}, I text fs → fs.pointOffs = fs.p →
    L.fwrite fs.out (fs.mem.take fs.p) = fs.p →
    ∀ mem, I text { emit L fs (fs.mem.take fs.p) with mem := mem, p := 0, pointOffs := 0 }
  retain : ∀ {text fs mem wrote}, I text fs → fs.pointOffs = fs.p →
    L.fwrite fs.out (fs.mem.take fs.p) = wrote → wrote < fs.p → mem.length = fs.mem.length →
    I text { emit L fs (fs.mem.take fs.p) with
      mem := mem, p := fs.p - wrote, pointOffs := fs.pointOffs - wrote }

theorem grow_keeps {L : Libc} {I : Fmtstream → Prop} (fs : Fmtstream) (amount : ℕ)
    (hi : ∀ mem, I { fs with mem := mem, p := 0, pointOffs := 0 }) :
    ∃ fs' ok, grow L { fs with p := 0, pointOffs := 0 } amount = (fs', ok) ∧ I fs' ∧
      fs'.p = 0 ∧ (ok = true → amount ≤ fs'.mem.length) ∧
      (L.Unfailing → amount < 2 ^ 63 → ok = true) := by
  unfold grow
  by_cases hsmall : fs.mem.length < amount
  · rw [if_pos hsmall]
    by_cases hbig : 2 ^ 64 ≤ fs.mem.length + amount
    · rw [if_pos hbig]
      exact ⟨_, _, rfl, hi _, rfl, fun hok => absurd hok Bool.false_ne_true, fun _ _ => by omega⟩
    · rw [if_neg hbig]
      cases hr : L.realloc fs.mem (fs.mem.length + amount) with
      | none =>
        refine ⟨_, _, rfl, hi _, rfl, fun hok => absurd hok Bool.false_ne_true, fun hL _ => ?_⟩
        have hsome := hL.realloc fs.mem (fs.mem.length + amount)
        rw [hr] at hsome
        cases hsome
      | some mem =>
        refine ⟨_, _, rfl, hi mem, rfl, fun _ => ?_, fun _ _ => rfl⟩
        change amount ≤ mem.length
        rw [L.realloc_length _ _ _ hr]
        omega
  · rw [if_neg hsmall]
    exact ⟨_, _, rfl, hi _, rfl, fun _ => Nat.le_of_not_lt hsmall, fun _ _ => rfl⟩

namespace Preserved

variable {L : Libc} {k : ℕ} {P I : List UInt8 → Fmtstream → Prop} {fs : Fmtstream}
  {text xs : List UInt8}

theorem ensure (h : Preserved L k P I) (hi : I text fs) (hk : text.length < k) (amount : ℕ)
    (hs : EnsureFrom (P text) fs amount) :
    ∃ fs' ok, Help.ensure L k fs amount = .ok (fs', ok) ∧ I text fs' ∧
      (ok = true → fs'.p + amount ≤ fs'.mem.length) ∧
      (L.Unfailing → amount < 2 ^ 63 → ok = true) := by
  unfold Help.ensure
  by_cases hroom : fs.mem.length - fs.p < amount
  · obtain ⟨fs₁, hrun, hi₁, hoffs⟩ := h.update hi (hs hroom) hk
    have hp := h.room hi₁
    have hle := L.fwrite_le fs₁.out (fs₁.mem.take fs₁.p)
    rw [List.length_take, Nat.min_eq_left hp] at hle
    rw [if_pos hroom, hrun, ok_bind]
    by_cases hall : L.fwrite fs₁.out (fs₁.mem.take fs₁.p) = fs₁.p
    · obtain ⟨fs', ok, hgrow, hi', hp0, hbig, hok⟩ := grow_keeps
        (emit L fs₁ (fs₁.mem.take fs₁.p)) amount (h.flush hi₁ hoffs hall)
      refine ⟨fs', ok, ?_, hi', fun hok => ?_, hok⟩
      · simp only [hall]
        exact (if_pos rfl).trans (congrArg Except.ok hgrow)
      · rw [hp0, Nat.zero_add]
        exact hbig hok
    · obtain ⟨wrote, hwrote⟩ : ∃ wrote, L.fwrite fs₁.out (fs₁.mem.take fs₁.p) = wrote := ⟨_, rfl⟩
      rw [hwrote] at hall hle
      obtain ⟨mem, hmove, hlen, _, _⟩ := Buffer.exists_move fs₁.mem 0 wrote
        (fs₁.p - wrote) (by omega) (by omega)
      have hcount : (fs₁.p : ℤ) - wrote = (fs₁.p - wrote : ℕ) := by omega
      have hmove' : Buffer.move (emit L fs₁ (fs₁.mem.take fs₁.p)).mem 0 wrote
          ((emit L fs₁ (fs₁.mem.take fs₁.p)).p - wrote) = some mem := by
        change Buffer.move fs₁.mem 0 wrote ((fs₁.p : ℤ) - wrote) = _
        rw [hcount]
        exact hmove
      refine ⟨_, false, ?_, h.retain hi₁ hoffs hwrote (by omega) hlen,
        fun hok => absurd hok Bool.false_ne_true, fun hL _ => ?_⟩
      · simp only [hwrote]
        refine (if_neg hall).trans ?_
        rw [hmove', access_bind]
        rfl
      · rw [hL.fwrite, List.length_take, Nat.min_eq_left hp] at hwrote
        exact absurd hwrote.symm hall
  · have hp := h.room hi
    rw [if_neg hroom]
    exact ⟨_, _, rfl, hi, fun _ => by omega, fun _ _ => rfl⟩

theorem store (h : Preserved L k P I) (xs : List UInt8) (hi : I text fs)
    (hfit : fs.p + xs.length ≤ fs.mem.length) :
    ∃ mem, Buffer.store fs.mem fs.p xs = some mem ∧
      I (text ++ xs) { fs with mem := mem, p := fs.p + xs.length } := by
  obtain ⟨mem, hstore, hlen, htake, _⟩ := Buffer.exists_store fs.mem fs.p xs hfit
  exact ⟨mem, hstore, h.extend hi hlen hfit htake⟩

theorem write (h : Preserved L k P I) (hi : I text fs) (hk : text.length < k)
    (hs : fs.mem.length < fs.p + xs.length → P text fs) :
    ∃ fs' ok, Help.write L k fs xs = .ok (fs', ok) ∧ I (if ok then text ++ xs else text) fs' ∧
      (L.Unfailing → xs.length < 2 ^ 63 → ok = true) := by
  unfold Help.write
  by_cases hfit : fs.p + xs.length ≤ fs.mem.length
  · obtain ⟨mem, hstore, hi'⟩ := h.store xs hi hfit
    rw [if_pos hfit, ok_bind]
    simp only [if_true, hstore, access_bind]
    exact ⟨_, _, rfl, hi', fun _ _ => rfl⟩
  · obtain ⟨fs₁, ok, hrun, hi₁, hroom, hok⟩ := h.ensure hi hk xs.length
      (fun _ => hs (by omega))
    rw [if_neg hfit, hrun, ok_bind]
    cases ok with
    | false => exact ⟨fs₁, false, rfl, hi₁, hok⟩
    | true =>
      obtain ⟨mem, hstore, hi'⟩ := h.store xs hi₁ (hroom rfl)
      simp only [if_true, hstore, access_bind]
      exact ⟨_, _, rfl, hi', hok⟩

theorem puts (h : Preserved L k P I) (hi : I text fs) (hk : text.length < k)
    (hs : fs.mem.length < fs.p + xs.length → P text fs) :
    ∃ fs' ok, Help.puts L k fs xs = .ok (fs', ok) ∧ I (if ok then text ++ xs else text) fs' ∧
      (L.Unfailing → xs.length < 2 ^ 63 → ok = true) := by
  unfold Help.puts
  by_cases hnil : xs.length = 0
  · rw [if_neg (by simpa using hnil), List.length_eq_zero_iff.mp hnil]
    refine ⟨fs, true, rfl, ?_, fun _ _ => rfl⟩
    rw [if_pos rfl, List.append_nil]
    exact hi
  · rw [if_pos hnil]
    exact h.write hi hk hs

theorem putc (h : Preserved L k P I) (hi : I text fs) (hk : text.length < k) (c : UInt8)
    (hs : fs.mem.length ≤ fs.p → P text fs) :
    ∃ fs' ok, Help.putc L k fs c = .ok (fs', ok) ∧ I (if ok then text ++ [c] else text) fs' ∧
      (L.Unfailing → ok = true) := by
  unfold Help.putc
  by_cases hfit : fs.p < fs.mem.length
  · obtain ⟨mem, hstore, hi'⟩ := h.store [c] hi hfit
    rw [if_pos hfit, ok_bind]
    simp only [if_true, hstore, access_bind]
    exact ⟨_, _, rfl, hi', fun _ => rfl⟩
  · obtain ⟨fs₁, ok, hrun, hi₁, hroom, hok⟩ := h.ensure hi hk 1 (fun _ => hs (by omega))
    rw [if_neg hfit, hrun, ok_bind]
    cases ok with
    | false => exact ⟨fs₁, false, rfl, hi₁, fun hL => hok hL (by decide)⟩
    | true =>
      obtain ⟨mem, hstore, hi'⟩ := h.store [c] hi₁ (hroom rfl)
      simp only [if_true, hstore, access_bind]
      exact ⟨_, _, rfl, hi', fun _ => rfl⟩

/-- What `vsnprintf` writes when all of the text fits: the text, and a NUL that is not counted. -/
theorem vsnprintf (h : Preserved L k P I) (xs : List UInt8) (hi : I text fs)
    (hfit : fs.p + xs.length < fs.mem.length) :
    ∃ mem, Buffer.store fs.mem fs.p (xs.take (fs.mem.length - fs.p - 1) ++ [0]) = some mem ∧
      I (text ++ xs) { fs with mem := mem, p := fs.p + xs.length } := by
  have hp := h.room hi
  rw [List.take_of_length_le (by omega)]
  obtain ⟨mem, hstore, hlen, htake, _⟩ := Buffer.exists_store fs.mem fs.p
    (xs ++ [0]) (by rw [List.length_append, List.length_singleton]; omega)
  refine ⟨mem, hstore, h.extend hi hlen (by omega) ?_⟩
  have htk := congrArg (List.take (fs.p + xs.length)) htake
  have hx : (fs.mem.take fs.p ++ xs).length = fs.p + xs.length := by
    rw [List.length_append, List.length_take, Nat.min_eq_left hp]
  rwa [List.take_take, List.length_append, Nat.min_eq_left (by omega), ← List.append_assoc,
    List.take_left' hx] at htk

/-- Otherwise it writes what fits, behind the text of the stream. -/
theorem vsnprintf_short (h : Preserved L k P I) (hi : I text fs)
    (hshort : fs.mem.length - fs.p ≤ xs.length) (hroom : fs.p < fs.mem.length) :
    ∃ mem, Buffer.store fs.mem fs.p (xs.take (fs.mem.length - fs.p - 1) ++ [0]) = some mem ∧
      I text { fs with mem := mem } := by
  have hp := h.room hi
  have hlen : (xs.take (fs.mem.length - fs.p - 1) ++ [0]).length = fs.mem.length - fs.p := by
    rw [List.length_append, List.length_take, List.length_singleton]
    omega
  obtain ⟨mem, hstore, hsize, htake, _⟩ := Buffer.exists_store fs.mem fs.p
    (xs.take (fs.mem.length - fs.p - 1) ++ [0]) (by omega)
  have hbelow : mem.take (fs.p + ([] : List UInt8).length) = fs.mem.take fs.p ++ [] := by
    have htk := congrArg (List.take fs.p) htake
    have hx : (fs.mem.take fs.p).length = fs.p := by
      rw [List.length_take, Nat.min_eq_left hp]
    rw [List.take_take, Nat.min_eq_left (Nat.le_add_right _ _), List.take_left' hx] at htk
    rw [List.append_nil]
    exact htk
  have hi' : I (text ++ []) { fs with mem := mem, p := fs.p } := h.extend hi hsize hp hbelow
  rw [List.append_nil] at hi'
  exact ⟨mem, hstore, hi'⟩

theorem printf (h : Preserved L k P I) (xs : List UInt8) (hi : I text fs)
    (hk : text.length + xs.length < k)
    (hs : PrintfFrom L k (P text) fs xs) :
    ∃ fs' ok, Help.printf L k fs xs = .ok (fs', ok) ∧ I (if ok then text ++ xs else text) fs' ∧
      (L.Unfailing → xs.length + 1 < 2 ^ 63 → ok = true) := by
  obtain ⟨fs₁, ok, hrun, hi₁, hroom, hok⟩ := h.ensure hi (by omega : text.length < k) _ hs.1
  obtain ⟨k, rfl⟩ : ∃ j, k = j + 1 := ⟨k - 1, by omega⟩
  unfold Help.printf printfLoop
  rw [hrun, ok_bind]
  cases ok with
  | false => exact ⟨fs₁, false, rfl, hi₁, fun hL _ => hok hL (by decide)⟩
  | true =>
    have hroom := hroom rfl
    simp only [if_true]
    by_cases hshort : fs₁.mem.length - fs₁.p ≤ xs.length
    · -- The second turn has room for all of the text.
      obtain ⟨mem, hstore, hi₂⟩ := h.vsnprintf_short hi₁ hshort (by omega)
      obtain ⟨fs₂, ok, hrun₂, hi₃, hroom₂, hok₂⟩ := h.ensure hi₂ (by omega : text.length < k + 1) _
        (hs.2 (fs₁, true) (by rw [hrun]; rfl) rfl hshort mem hstore)
      obtain ⟨k, rfl⟩ : ∃ j, k = j + 1 := ⟨k - 1, by omega⟩
      rw [hstore, access_bind, if_pos hshort]
      unfold printfLoop
      rw [hrun₂, ok_bind]
      cases ok with
      | false => exact ⟨fs₂, false, rfl, hi₃, fun hL hlt => hok₂ hL hlt⟩
      | true =>
        have hroom₂ := hroom₂ rfl
        obtain ⟨mem₂, hstore₂, hi₄⟩ := h.vsnprintf xs hi₃ (by omega)
        simp only [if_true, hstore₂, access_bind]
        rw [if_neg (by omega)]
        exact ⟨_, _, rfl, hi₄, fun _ _ => rfl⟩
    · obtain ⟨mem, hstore, hi₂⟩ := h.vsnprintf xs hi₁ (by omega)
      rw [hstore, access_bind, if_neg hshort]
      exact ⟨_, _, rfl, hi₂, fun _ _ => rfl⟩

/-- A call keeps the invariant of the text, with its own text behind it if there was room. -/
theorem run (h : Preserved L k P I) (hi : I text fs) (o : Output)
    (hk : text.length + o.text.length < k) (hs : o.From L k (P text) fs) :
    ∃ fs' ok, o.run L k fs = .ok fs' ∧ I (if ok then text ++ o.text else text) fs' ∧
      (L.Unfailing → ok = true) := by
  have hk' : text.length < k := by omega
  cases o with
  | write xs =>
    obtain ⟨fs', ok, hrun, hi', hok⟩ := h.write hi hk' hs
    exact ⟨fs', ok, by rw [Output.run, hrun]; rfl, hi', fun hL => hok hL xs.property⟩
  | puts xs =>
    obtain ⟨fs', ok, hrun, hi', hok⟩ := h.puts hi hk' hs
    exact ⟨fs', ok, by rw [Output.run, hrun]; rfl, hi', fun hL => hok hL xs.property⟩
  | putc c =>
    obtain ⟨fs', ok, hrun, hi', hok⟩ := h.putc hi hk' c hs
    exact ⟨fs', ok, by rw [Output.run, hrun]; rfl, hi', hok⟩
  | printf xs =>
    have hsize := xs.property
    obtain ⟨fs', ok, hrun, hi', hok⟩ := h.printf xs.val hi hk hs
    exact ⟨fs', ok, by rw [Output.run, hrun]; rfl, hi', fun hL => hok hL (by omega)⟩
  | ensure amount =>
    obtain ⟨fs', ok, hrun, hi', _, _⟩ := h.ensure hi hk' amount hs
    refine ⟨fs', true, by rw [Output.run, hrun]; rfl, ?_, fun _ => rfl⟩
    rw [if_pos rfl, Output.text, List.append_nil]
    exact hi'
  | update =>
    obtain ⟨fs', hrun, hi', _⟩ := h.update hi hs hk'
    refine ⟨fs', true, hrun, ?_, fun _ => rfl⟩
    rw [if_pos rfl, Output.text, List.append_nil]
    exact hi'

end Preserved

end MuslBsd.Help
