import MuslBsd.Help.Operations
import MuslBsd.Help.Wrapping

/-! The update loop ends and stays in its buffer: which runs of the help stream are safe. -/
namespace MuslBsd.Help
open MuslBsd.Support

/-- A margin that `uparams` can hold, which is an `int` without a sign. -/
abbrev Margin := {n : ℕ // n < 2 ^ 31}

/-- What `argp-help.c` does with its stream. It does not set a negative wrap margin. -/
inductive Call
  | output (o : Output)
  | point
  | setLmargin (lmargin : Margin)
  | setRmargin (rmargin : Margin)
  | setWmargin (wmargin : Margin)

namespace Call

def text : Call → List UInt8
  | .output o => o.text
  | .point => []
  | .setLmargin _ => []
  | .setRmargin _ => []
  | .setWmargin _ => []

def run (L : Libc) (k : ℕ) (fs : Fmtstream) : Call → Run Fmtstream
  | .output o => o.run L k fs
  | .point => updateToPoint L k fs
  | .setLmargin lmargin => Help.setLmargin L k fs lmargin
  | .setRmargin rmargin => Help.setRmargin L k fs rmargin
  | .setWmargin wmargin => Help.setWmargin L k fs (wmargin : ℕ)

end Call

/-- All that the stream has taken when it is freed after the calls. -/
def helpSession (L : Libc) (k : ℕ) : Fmtstream → List Call → Run (List UInt8)
  | fs, [] => free L k fs
  | fs, c :: cs => do
    let fs ← c.run L k fs
    helpSession L k fs cs

/-! ### The runs -/

/-- Every turn of the loop, of the first `k`, finds the place for its break in the text. -/
def ScannableLoop (L : Libc) : ℕ → Fmtstream → ℕ → Prop
  | 0, _, _ => True
  | k + 1, fs, buf => buf < fs.p →
    Scannable fs.rmargin (startCol fs) (textFrom fs buf) ∧
      ∀ r ∈ (turn L fs buf).toOption, ∀ buf' ∈ r.2, ScannableLoop L k r.1 buf'

def ScannableUpdate (L : Libc) (k : ℕ) (fs : Fmtstream) : Prop :=
  ScannableLoop L k fs fs.pointOffs

/-- Every update that the call makes. -/
def ScannableCall (L : Libc) (k : ℕ) (fs : Fmtstream) : Call → Prop
  | .output o => o.From L k (ScannableUpdate L k) fs
  | .point => fs.pointOffs < fs.p → ScannableUpdate L k fs
  | .setLmargin _ => fs.pointOffs < fs.p → ScannableUpdate L k fs
  | .setRmargin _ => fs.pointOffs < fs.p → ScannableUpdate L k fs
  | .setWmargin _ => fs.pointOffs < fs.p → ScannableUpdate L k fs

def ScannableRun (L : Libc) (k : ℕ) : Fmtstream → List Call → Prop
  | fs, [] => ScannableUpdate L k fs
  | fs, c :: cs => ScannableCall L k fs c ∧ ∀ fs' ∈ (c.run L k fs).toOption, ScannableRun L k fs' cs

instance decidableScannableLoop (L : Libc) :
    (k : ℕ) → (fs : Fmtstream) → (buf : ℕ) → Decidable (ScannableLoop L k fs buf)
  | 0, _, _ => inferInstanceAs (Decidable True)
  | k + 1, fs, buf =>
    letI := fun fs' buf' => decidableScannableLoop L k fs' buf'
    inferInstanceAs (Decidable (buf < fs.p → _ ∧ ∀ r ∈ (turn L fs buf).toOption, ∀ buf' ∈ r.2,
      ScannableLoop L k r.1 buf'))

instance (L : Libc) (k : ℕ) : DecidablePred (ScannableUpdate L k) := fun fs =>
  decidableScannableLoop L k fs fs.pointOffs

instance (L : Libc) (k : ℕ) (fs : Fmtstream) : (c : Call) → Decidable (ScannableCall L k fs c)
  | .output _ => inferInstanceAs (Decidable (Output.From ..))
  | .point => inferInstanceAs (Decidable (_ < _ → _))
  | .setLmargin _ => inferInstanceAs (Decidable (_ < _ → _))
  | .setRmargin _ => inferInstanceAs (Decidable (_ < _ → _))
  | .setWmargin _ => inferInstanceAs (Decidable (_ < _ → _))

instance decidableScannableRun (L : Libc) (k : ℕ) :
    (fs : Fmtstream) → (cs : List Call) → Decidable (ScannableRun L k fs cs)
  | fs, [] => inferInstanceAs (Decidable (ScannableUpdate L k fs))
  | fs, c :: cs =>
    letI := fun fs' => decidableScannableRun L k fs' cs
    inferInstanceAs (Decidable (ScannableCall L k fs c ∧ _))

/-! ### The operations -/

variable {L : Libc} {fs fs' : Fmtstream} {buf k n : ℕ} {text : List UInt8}

/-- Each turn leaves less of the text to scan. -/
theorem updateLoop_bounded (hw : 0 ≤ fs.wmargin) (hp : fs.p ≤ fs.mem.length)
    (hk : (textFrom fs buf).length < k) (hs : ScannableLoop L k fs buf) :
    ∃ fs', updateLoop L k fs buf = .ok fs' ∧ SameMargins fs fs' ∧ fs'.pointOffs = fs'.p := by
  induction k generalizing fs buf with
  | zero => cases hk
  | succ k ih =>
    by_cases hbuf : buf < fs.p
    · obtain ⟨hscan, hnext⟩ := hs hbuf
      obtain ⟨fs₁, buf₁, fs', next, hpad, hrun, hturn⟩ := turn_scannable L hw hp hbuf hscan
      have hscanned := hturn.sameMargins hpad.margins.room
      have hm : SameMargins fs fs' := hpad.margins.trans
        ⟨hscanned.1, hscanned.2, hscanned.3, hscanned.4, hscanned.5⟩
      cases next with
      | none => exact ⟨_, updateLoop_stop hbuf hrun, ⟨hm.1, hm.2, hm.3, hm.4, hm.5⟩, rfl⟩
      | some buf' =>
        have hless : (textFrom fs' buf').length < (textFrom fs buf).length :=
          (hturn.progress (by exact hpad.margins.room) hpad.start).trans_eq
            (congrArg List.length hpad.text)
        obtain ⟨fs'', hrest, hm', hoffs⟩ := ih (hm.wmargin.symm ▸ hw) hm.room (by omega)
          (hnext (fs', some buf') (by rw [hrun]; rfl) buf' rfl)
        exact ⟨fs'', (updateLoop_goOn hbuf hrun).trans hrest, hm.trans hm', hoffs⟩
    · exact ⟨_, updateLoop_end (by omega), ⟨rfl, rfl, rfl, rfl, hp⟩, rfl⟩

/-- At most `n` bytes are left to scan. -/
structure Bounded (n : ℕ) (fs : Fmtstream) : Prop where
  wmargin : 0 ≤ fs.wmargin
  offs : fs.pointOffs ≤ fs.p
  room : fs.p ≤ fs.mem.length
  left : (pending fs).length ≤ n

theorem Bounded.of_scanned (hw : 0 ≤ fs.wmargin) (hp : fs.p ≤ fs.mem.length)
    (hoffs : fs.pointOffs = fs.p) : Bounded n fs := by
  refine ⟨hw, Nat.le_of_eq hoffs, hp, ?_⟩
  rw [pending, length_textFrom hp, hoffs]
  omega

theorem update_bounded (h : Bounded n fs) (hk : n < k) (hs : ScannableUpdate L k fs) :
    ∃ fs', update L k fs = .ok fs' ∧ Bounded n fs' ∧ fs'.pointOffs = fs'.p := by
  obtain ⟨fs', hrun, hm, hoffs⟩ := updateLoop_bounded h.wmargin h.room
    (Nat.lt_of_le_of_lt h.left hk) hs
  exact ⟨fs', hrun, .of_scanned (hm.wmargin.symm ▸ h.wmargin) hm.room hoffs, hoffs⟩

theorem Bounded.extend (h : Bounded n fs) {mem xs : List UInt8} (hlen : mem.length = fs.mem.length)
    (hfit : fs.p + xs.length ≤ fs.mem.length) :
    Bounded (n + xs.length) { fs with mem := mem, p := fs.p + xs.length } := by
  have hoffs := h.offs
  have hroom : fs.p + xs.length ≤ mem.length := hfit.trans_eq hlen.symm
  have hleft := h.left
  rw [pending, length_textFrom h.room] at hleft
  refine ⟨h.wmargin, Nat.le_trans hoffs (Nat.le_add_right _ _), hroom, ?_⟩
  rw [pending, length_textFrom hroom]
  change fs.p + xs.length - fs.pointOffs ≤ n + xs.length
  omega

theorem Bounded.mono {n' : ℕ} (h : Bounded n fs) (hn : n ≤ n') : Bounded n' fs :=
  ⟨h.wmargin, h.offs, h.room, h.left.trans hn⟩

theorem bounded_preserved :
    Preserved L k (fun _ => ScannableUpdate L k) fun text fs => Bounded text.length fs where
  room h := h.room
  update h hs hk := update_bounded h hk hs
  extend h hlen hfit _ := by
    rw [List.length_append]
    exact h.extend hlen hfit
  flush h _ _ _ := .of_scanned h.wmargin (Nat.zero_le _) rfl
  retain {_ fs mem wrote} h hoffs _ _ hlen := by
    have hp := h.room
    refine .of_scanned h.wmargin ?_ ?_
    · change fs.p - wrote ≤ mem.length
      omega
    · change fs.pointOffs - wrote = fs.p - wrote
      rw [hoffs]

theorem updateToPoint_bounded (h : Bounded n fs) (hk : n < k)
    (hs : fs.pointOffs < fs.p → ScannableUpdate L k fs) :
    ∃ fs', updateToPoint L k fs = .ok fs' ∧ Bounded n fs' := by
  unfold updateToPoint
  by_cases hp : fs.pointOffs < fs.p
  · rw [if_pos hp]
    obtain ⟨fs', hrun, hb, _⟩ := update_bounded h hk (hs hp)
    exact ⟨fs', hrun, hb⟩
  · rw [if_neg hp]
    exact ⟨fs, rfl, h⟩

/-! ### The sessions -/

theorem Output.run_bounded (h : Bounded n fs) (o : Output) (hk : n + o.text.length < k)
    (hs : o.From L k (ScannableUpdate L k) fs) :
    ∃ fs', o.run L k fs = .ok fs' ∧ Bounded (n + o.text.length) fs' := by
  have hrep : Bounded (List.replicate n (0 : UInt8)).length fs := by rwa [List.length_replicate]
  obtain ⟨fs', ok, hrun, hb, _⟩ := bounded_preserved.run hrep o (by rwa [List.length_replicate]) hs
  refine ⟨fs', hrun, hb.mono ?_⟩
  cases ok <;> simp

/-- The step lemma of a session. -/
theorem Call.run_bounded (h : Bounded n fs) (c : Call) (hk : n + c.text.length < k)
    (hs : ScannableCall L k fs c) :
    ∃ fs', c.run L k fs = .ok fs' ∧ Bounded (n + c.text.length) fs' := by
  have hk' : n < k := by omega
  cases c with
  | output o => exact o.run_bounded h hk hs
  | point => exact updateToPoint_bounded h hk' hs
  | setLmargin lmargin =>
    obtain ⟨fs', hrun, hb⟩ := updateToPoint_bounded h hk' hs
    exact ⟨{ fs' with lmargin := lmargin }, by rw [Call.run, Help.setLmargin, hrun]; rfl,
      hb.wmargin, hb.offs, hb.room, hb.left⟩
  | setRmargin rmargin =>
    obtain ⟨fs', hrun, hb⟩ := updateToPoint_bounded h hk' hs
    exact ⟨{ fs' with rmargin := rmargin }, by rw [Call.run, Help.setRmargin, hrun]; rfl,
      hb.wmargin, hb.offs, hb.room, hb.left⟩
  | setWmargin wmargin =>
    obtain ⟨fs', hrun, hb⟩ := updateToPoint_bounded h hk' hs
    exact ⟨{ fs' with wmargin := (wmargin : ℕ) }, by rw [Call.run, Help.setWmargin, hrun]; rfl,
      Int.natCast_nonneg _, hb.offs, hb.room, hb.left⟩

/-- The run lemma. -/
theorem helpSession_bounded (h : Bounded n fs) (cs : List Call)
    (hk : n + (cs.flatMap Call.text).length < k) (hs : ScannableRun L k fs cs) :
    ∃ out, helpSession L k fs cs = .ok out := by
  induction cs generalizing fs n with
  | nil =>
    obtain ⟨fs', hrun, _, _⟩ := update_bounded h (by omega : n < k) hs
    unfold helpSession free
    rw [hrun, ok_bind]
    split_ifs <;> exact ⟨_, rfl⟩
  | cons c cs ih =>
    rw [List.flatMap_cons, List.length_append] at hk
    obtain ⟨fs', hrun, hb⟩ := c.run_bounded h (k := k) (by omega) hs.1
    obtain ⟨out, hout⟩ := ih hb (by omega) (hs.2 fs' (by rw [hrun]; rfl))
    refine ⟨out, ?_⟩
    rw [helpSession, hrun]
    exact hout

/-- With enough turns for each update, every update of a scannable run ends, and the run stays in
its buffer. -/
theorem helpSession_ends (L : Libc) (lmargin rmargin wmargin : Margin) (block : List UInt8)
    (cs : List Call) (k : ℕ) (hk : (cs.flatMap Call.text).length < k)
    (hs : ScannableRun L k (makeFmtstream lmargin rmargin (wmargin : ℕ) block) cs) :
    ∃ out, helpSession L k (makeFmtstream lmargin rmargin (wmargin : ℕ) block) cs = .ok out :=
  helpSession_bounded (n := 0)
    ⟨Int.natCast_nonneg _, Nat.le_refl _, Nat.zero_le _, by simp [pending, textFrom, makeFmtstream]⟩
    cs (by omega) hs

/-- `n` times the letter x. -/
def letters (n : ℕ) : List UInt8 := List.replicate n 120

def oneOption : List Call := [.setLmargin ⟨29, by decide⟩, .setWmargin ⟨29, by decide⟩,
  .output (.puts ⟨letters 60 ++ blank :: letters 10 ++ [lineFeed], by decide⟩),
  .setLmargin ⟨0, by decide⟩]

theorem helpSession_ends_oneOption :
    ∃ out, helpSession ordinaryLibc 80 (makeFmtstream 0 79 0 (List.replicate 200 0)) oneOption =
      .ok out :=
  helpSession_ends ordinaryLibc ⟨0, by decide⟩ ⟨79, by decide⟩ ⟨0, by decide⟩ _ oneOption 80
    (by decide) (by decide +kernel)

/-- With `rmargin=10` and the other columns as they are by default, the scan for the break starts
19 bytes in front of the buffer. -/
theorem helpSession_leaves :
    helpSession ordinaryLibc 40 (makeFmtstream 0 10 0 (List.replicate 200 0))
      [.setLmargin ⟨29, by decide⟩, .setWmargin ⟨29, by decide⟩,
        .output (.puts ⟨letters 190, by decide +kernel⟩)] = .error .fault := by
  decide +kernel

end MuslBsd.Help
