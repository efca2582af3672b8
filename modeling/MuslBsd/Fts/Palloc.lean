import MuslBsd.Support.Rounding
import MuslBsd.Fts.System

/-! The growing of the path buffer in words of any width: `fts_pow2` and `fts_palloc` over an
allocator that may do with a block resized to nothing whatever C allows. -/
namespace MuslBsd.Fts.Palloc
open MuslBsd.Support MuslBsd.Support.Traced

/-- The widths of `size_t` and of `__fts_length_t`. `unsigned long` is as wide as `size_t`, no
shift of `fts_pow2` is wider than it, and together they reach all of it. -/
structure Target where
  size : ℕ
  length : ℕ
  shift : 16 < size
  reach : size ≤ 64

def ilp32 : Target := ⟨32, 32, by decide, by decide⟩
def lp64 : Target := ⟨64, 32, by decide, by decide⟩

abbrev Target.SizeT (T : Target) : Type := BitVec T.size
abbrev Target.LengthT (T : Target) : Type := BitVec T.length

abbrev Addr := ℕ

/-- An allocator over its states `ω`, with the blocks that are in use. A block survives when it
cannot be resized; C promises nothing of the kind when it is resized to nothing. -/
structure Allocator (ω : Type) (T : Target) where
  inUse : ω → Addr → Prop
  realloc : ω → Option Addr → T.SizeT → Option Addr × ω
  kept : ∀ m p n, n ≠ 0 → (realloc m p n).1 = none → ∀ a, inUse m a → inUse (realloc m p n).2 a
  granted : ∀ m p n b, (∀ a, p = some a → inUse m a) → (realloc m p n).1 = some b →
    inUse (realloc m p n).2 b

/-- The fields of an `FTS` that `fts_palloc` touches, with the heap and `errno`. -/
structure Stream (ω : Type) (T : Target) where
  heap : ω
  errno : Errno
  path : Option Addr
  pathlen : T.LengthT

/-- What is seen of a call: the sums and differences that wrap, and the sizes asked for. -/
inductive Event (T : Target)
  | wraps
  | reallocs (size : T.SizeT)
  deriving DecidableEq

variable {ω : Type} {T : Target}

abbrev PathM (ω : Type) (T : Target) (α : Type) : Type := Traced (Stream ω T) (Event T) α

def sizeMax : T.SizeT := BitVec.allOnes T.size

def ftsLengthMax : T.SizeT := (BitVec.allOnes T.length).setWidth T.size

def ftsLengthCap (len : T.SizeT) : T.LengthT :=
  let max : T.SizeT := ftsLengthMax
  if max < len then max.setWidth T.length else len.setWidth T.length

/-- The shifts of `fts_pow2`. -/
def spread (x : T.SizeT) : T.SizeT :=
  let x := x ||| x >>> 1
  let x := x ||| x >>> 2
  let x := x ||| x >>> 4
  let x := x ||| x >>> 8
  let x := x ||| x >>> 16
  -- #if ULONG_MAX > 0xffffffffUL
  if 32 < T.size then x ||| x >>> 32 else x

def ftsPow2 (x : T.SizeT) : PathM ω T T.SizeT :=
  if x = 0 then pure 1
  else do
    let x ← Traced.subW .wraps x 1
    Traced.addW .wraps (spread x) 1

section Calls

variable (A : Allocator ω T)

/-- `realloc(sp->fts_path, size)`. -/
def callRealloc (size : T.SizeT) : PathM ω T (Option Addr) := fun s =>
  let (newbuf, heap) := A.realloc s.heap s.path size
  (newbuf, { s with heap := heap, errno := if newbuf = none then ENOMEM else s.errno },
    [.reallocs size])

/-- The end of `fts_palloc`: the buffer is resized, and its length recorded. -/
def resize (size : T.SizeT) : PathM ω T Bool := do
  match ← callRealloc A size with
  | none => pure true
  | some newbuf =>
    Traced.modify fun s => { s with path := some newbuf, pathlen := ftsLengthCap size }
    pure false

/-- `fts_palloc`; true when it fails. -/
def ftsPalloc (need : T.SizeT) : PathM ω T Bool := do
  let pad : T.SizeT := 256
  if sizeMax - pad < need then
    Traced.modify fun s => { s with errno := ENAMETOOLONG }
    pure true
  else
    let need ← Traced.addW .wraps need pad
    let need ← ftsPow2 need
    resize A need

end Calls

/-! ### Rounding -/

theorem pad_lt (T : Target) : 256 < 2 ^ (T.size - 1) := by
  have := T.shift
  calc 256 < 2 ^ 16 := by decide
    _ ≤ 2 ^ (T.size - 1) := Nat.pow_le_pow_right (by decide) (by omega)

theorem half_lt (T : Target) : 2 ^ (T.size - 1) < 2 ^ T.size := by
  have := T.shift
  exact Nat.pow_lt_pow_right (by decide) (by omega)

theorem toNat_ofNat {k : ℕ} (h : k ≤ 256) : (BitVec.ofNat T.size k).toNat = k := by
  have hpad := pad_lt T
  have hhalf := half_lt T
  rw [BitVec.toNat_ofNat, Nat.mod_eq_of_lt (by omega)]

theorem toNat_spread (x : T.SizeT) : ∃ m, T.size ≤ 2 ^ m ∧ (spread x).toNat = smear x.toNat m := by
  have hreach := T.reach
  unfold spread
  dsimp only
  split
  · refine ⟨6, by omega, ?_⟩
    simp only [smear, BitVec.toNat_or, BitVec.toNat_ushiftRight, Nat.reducePow]
  · refine ⟨5, by omega, ?_⟩
    simp only [smear, BitVec.toNat_or, BitVec.toNat_ushiftRight, Nat.reducePow]

/-- The shifts reach every bit below the highest one. -/
theorem spread_add_one {x : T.SizeT} (h : x ≠ 0) :
    (spread (x - 1)).toNat + 1 = roundUp x.toNat := by
  obtain ⟨m, hm, heq⟩ := toNat_spread (x - 1)
  have hpos : 1 ≤ x.toNat := Nat.pos_of_ne_zero fun hzero => h (BitVec.eq_of_toNat_eq hzero)
  have hone : (1 : T.SizeT).toNat = 1 := toNat_ofNat (by decide)
  have hpred : (x - 1).toNat = x.toNat - 1 := by
    rw [BitVec.toNat_sub_of_le (BitVec.le_def.mpr (by omega)), hone]
  have hlt : x.toNat - 1 < 2 ^ 2 ^ m := by
    calc x.toNat - 1 ≤ x.toNat := Nat.sub_le ..
      _ < 2 ^ T.size := x.isLt
      _ ≤ 2 ^ 2 ^ m := Nat.pow_le_pow_right (by decide) hm
  rw [heq, hpred, smear_add_one hlt]

theorem ftsPow2_eq {x : T.SizeT} (h : x ≠ 0) :
    (ftsPow2 x : PathM ω T T.SizeT) = Traced.addW .wraps (spread (x - 1)) 1 := by
  have hone : (1 : T.SizeT).toNat = 1 := toNat_ofNat (by decide)
  have hpos : 1 ≤ x.toNat := Nat.pos_of_ne_zero fun hzero => h (BitVec.eq_of_toNat_eq hzero)
  unfold ftsPow2
  rw [if_neg h, Traced.subW_eq (BitVec.le_def.mpr (by omega)), Traced.pure_bind]

/-- Up to half of the range, `fts_pow2` rounds up. -/
theorem ftsPow2_fits {x : T.SizeT} (h : x.toNat ≤ 2 ^ (T.size - 1)) :
    (ftsPow2 x : PathM ω T T.SizeT) = pure (BitVec.ofNat T.size (roundUp x.toNat)) := by
  by_cases hx : x = 0
  · subst hx
    rfl
  · have hone : (1 : T.SizeT).toNat = 1 := toNat_ofNat (by decide)
    have hround := spread_add_one hx
    have hlt : roundUp x.toNat < 2 ^ T.size := by
      have := T.shift
      exact (roundUp_lt_iff (by omega)).mpr h
    rw [ftsPow2_eq hx, Traced.addW_eq (by omega)]
    congr 1
    apply BitVec.eq_of_toNat_eq
    rw [BitVec.toNat_add, hone, hround, BitVec.toNat_ofNat]

/-- Past half of the range, all bits are set, and the last step wraps. -/
theorem ftsPow2_wraps {x : T.SizeT} (h : 2 ^ (T.size - 1) < x.toNat) :
    (ftsPow2 x : PathM ω T T.SizeT) = Traced.emit .wraps >>= fun _ => pure 0 := by
  have hx : x ≠ 0 := by
    rintro rfl
    exact Nat.not_lt_zero _ h
  have hone : (1 : T.SizeT).toNat = 1 := toNat_ofNat (by decide)
  have hround := spread_add_one hx
  rw [roundUp_eq_of_lt h x.isLt.le] at hround
  have hzero : spread (x - 1) + 1 = 0 := by
    apply BitVec.eq_of_toNat_eq
    rw [BitVec.toNat_add, hone, hround, Nat.mod_self]
    rfl
  rw [ftsPow2_eq hx, Traced.addW_wraps (by omega), hzero]

/-! ### Growing -/

variable {A : Allocator ω T} {need : T.SizeT}

theorem toNat_sizeMax : (sizeMax : T.SizeT).toNat = 2 ^ T.size - 1 := BitVec.toNat_allOnes

/-- The guard is about the sum alone. -/
theorem guard_iff : sizeMax - (256 : T.SizeT) < need ↔ 2 ^ T.size ≤ need.toNat + 256 := by
  have hpad := pad_lt T
  have hhalf := half_lt T
  have hpadded : (256 : T.SizeT).toNat = 256 := toNat_ofNat (by decide)
  have hmax := @toNat_sizeMax T
  rw [BitVec.lt_def, BitVec.toNat_sub_of_le (BitVec.le_def.mpr (by omega))]
  omega

theorem ftsPalloc_refused (h : 2 ^ T.size ≤ need.toNat + 256) :
    ftsPalloc A need =
      Traced.modify (fun s => { s with errno := ENAMETOOLONG }) >>= fun _ => pure true :=
  if_pos (guard_iff.mpr h)

theorem ftsPalloc_eq (h : need.toNat + 256 < 2 ^ T.size) :
    ftsPalloc A need = ftsPow2 (need + 256) >>= resize A := by
  have hpadded : (256 : T.SizeT).toNat = 256 := toNat_ofNat (by decide)
  unfold ftsPalloc
  rw [if_neg (fun hguard => absurd (guard_iff.mp hguard) (by omega)), Traced.addW_eq (by omega),
    Traced.pure_bind]

theorem toNat_padded (h : need.toNat + 256 < 2 ^ T.size) : (need + 256).toNat = need.toNat + 256 := by
  have hpadded : (256 : T.SizeT).toNat = 256 := toNat_ofNat (by decide)
  rw [BitVec.toNat_add, hpadded, Nat.mod_eq_of_lt h]

theorem ftsPalloc_fits (h : need.toNat + 256 ≤ 2 ^ (T.size - 1)) :
    ftsPalloc A need = resize A (BitVec.ofNat T.size (roundUp (need.toNat + 256))) := by
  have hlt : need.toNat + 256 < 2 ^ T.size := h.trans_lt (half_lt T)
  have hpadded := toNat_padded hlt
  rw [ftsPalloc_eq hlt, ftsPow2_fits (hpadded ▸ h), Traced.pure_bind, hpadded]

theorem ftsPalloc_wraps (h : 2 ^ (T.size - 1) < need.toNat + 256)
    (hlt : need.toNat + 256 < 2 ^ T.size) :
    ftsPalloc A need = Traced.emit .wraps >>= fun _ => resize A 0 := by
  rw [ftsPalloc_eq hlt, ftsPow2_wraps (toNat_padded hlt ▸ h), Traced.bind_assoc]
  rfl

/-- Past the guard the buffer is resized, to a size that may have wrapped. -/
theorem ftsPalloc_resizes (h : need.toNat + 256 < 2 ^ T.size) (s : Stream ω T) :
    ∃ size : T.SizeT, size.toNat = roundUp (need.toNat + 256) % 2 ^ T.size ∧
      val (ftsPalloc A need) s = val (resize A size) s ∧
      out (ftsPalloc A need) s = out (resize A size) s := by
  by_cases hfits : need.toNat + 256 ≤ 2 ^ (T.size - 1)
  · rw [ftsPalloc_fits hfits]
    exact ⟨_, BitVec.toNat_ofNat .., rfl, rfl⟩
  · rw [ftsPalloc_wraps (by omega) h, roundUp_eq_of_lt (Nat.lt_of_not_le hfits) h.le]
    exact ⟨0, (Nat.mod_self _).symm, rfl, rfl⟩

/-! ### What the callers count on -/

variable {s : Stream ω T} {size : T.SizeT}

theorem acts_resize : acts (resize A size) s = [.reallocs size] := by
  unfold resize
  rw [acts_bind]
  split
  · rfl
  · rfl

theorem out_callRealloc : out (callRealloc A size) s =
    { s with heap := (A.realloc s.heap s.path size).2,
             errno := if (A.realloc s.heap s.path size).1 = none then ENOMEM else s.errno } := rfl

/-- A buffer that could not be resized is where it was. -/
theorem resize_none (h : (A.realloc s.heap s.path size).1 = none) :
    val (resize A size) s = true ∧ out (resize A size) s =
      { s with heap := (A.realloc s.heap s.path size).2, errno := ENOMEM } := by
  have hcall : val (callRealloc A size) s = none := h
  unfold resize
  rw [val_bind, out_bind, hcall, out_callRealloc, if_pos h]
  exact ⟨rfl, rfl⟩

theorem resize_some {newbuf : Addr} (h : (A.realloc s.heap s.path size).1 = some newbuf) :
    val (resize A size) s = false ∧ out (resize A size) s =
      { s with heap := (A.realloc s.heap s.path size).2, path := some newbuf,
               pathlen := ftsLengthCap size } := by
  have hcall : val (callRealloc A size) s = some newbuf := h
  unfold resize
  rw [val_bind, out_bind, hcall, out_callRealloc, if_neg (by simp [h])]
  exact ⟨rfl, rfl⟩

theorem ftsLengthCap_le (len : T.SizeT) : (ftsLengthCap len).toNat ≤ len.toNat := by
  unfold ftsLengthCap
  dsimp only
  split
  · next h =>
    rw [BitVec.toNat_setWidth]
    exact (Nat.mod_le _ _).trans (BitVec.lt_def.mp h).le
  · rw [BitVec.toNat_setWidth]
    exact Nat.mod_le _ _

/-- The path buffer, if there is one, is in use. -/
def Owns (A : Allocator ω T) (s : Stream ω T) : Prop := ∀ a, s.path = some a → A.inUse s.heap a

/-- A request that is granted has asked `realloc` for a power of two with room for the padding, no
sum or difference on the way has wrapped, and no more room is recorded than there is. A request that
fails leaves the buffer in its place and in use, and its length as recorded. -/
structure Sound (A : Allocator ω T) (s : Stream ω T) (need : T.SizeT) : Prop where
  granted : val (ftsPalloc A need) s = false → ∃ size : T.SizeT,
    acts (ftsPalloc A need) s = [.reallocs size] ∧ size.toNat.isPowerOfTwo ∧
      need.toNat + 256 ≤ size.toNat ∧ (out (ftsPalloc A need) s).pathlen.toNat ≤ size.toNat
  failed : val (ftsPalloc A need) s = true →
    (out (ftsPalloc A need) s).path = s.path ∧ Owns A (out (ftsPalloc A need) s) ∧
      (out (ftsPalloc A need) s).pathlen = s.pathlen

/-- Resized to nothing, the block stays in use, and NULL is returned. -/
def Allocator.Refuses (A : Allocator ω T) (m : ω) (p : Option Addr) : Prop :=
  (A.realloc m p 0).1 = none ∧ ∀ a, p = some a → A.inUse (A.realloc m p 0).2 a

theorem sound_fits (hs : Owns A s) (h : need.toNat + 256 ≤ 2 ^ (T.size - 1)) : Sound A s need := by
  have hlt : roundUp (need.toNat + 256) < 2 ^ T.size := by
    have := T.shift
    exact (roundUp_lt_iff (by omega)).mpr h
  have hsize : (BitVec.ofNat T.size (roundUp (need.toNat + 256))).toNat =
      roundUp (need.toNat + 256) := by
    rw [BitVec.toNat_ofNat, Nat.mod_eq_of_lt hlt]
  have hne : BitVec.ofNat T.size (roundUp (need.toNat + 256)) ≠ 0 := by
    intro hzero
    have hle := le_roundUp (need.toNat + 256)
    have hnone : roundUp (need.toNat + 256) = 0 := hsize.symm.trans (congrArg BitVec.toNat hzero)
    omega
  have heq : ftsPalloc A need = _ := ftsPalloc_fits h
  generalize BitVec.ofNat T.size (roundUp (need.toNat + 256)) = size at hsize hne heq
  cases hr : (A.realloc s.heap s.path size).1 with
  | none =>
    obtain ⟨hval, hout⟩ := resize_none hr
    refine ⟨fun hok => absurd (heq ▸ hok) (by simp [hval]), fun _ => ?_⟩
    rw [heq, hout]
    exact ⟨rfl, fun a ha => A.kept _ _ _ hne hr a (hs a ha), rfl⟩
  | some newbuf =>
    obtain ⟨hval, hout⟩ := resize_some hr
    refine ⟨fun _ => ?_, fun hfail => absurd (heq ▸ hfail) (by simp [hval])⟩
    rw [heq, hout]
    exact ⟨size, acts_resize, hsize ▸ isPowerOfTwo_roundUp _, hsize ▸ le_roundUp _, ftsLengthCap_le _⟩

theorem sound_refused (hs : Owns A s) (h : 2 ^ T.size ≤ need.toNat + 256) : Sound A s need := by
  have heq : ftsPalloc A need = _ := ftsPalloc_refused h
  refine ⟨fun hok => ?_, fun _ => ?_⟩
  · rw [heq] at hok
    cases hok
  · rw [heq]
    exact ⟨rfl, hs, rfl⟩

/-- Past half of the range the buffer is resized to nothing, which is no harm only where it is
refused. -/
theorem sound_wraps_iff (h : 2 ^ (T.size - 1) < need.toNat + 256)
    (hlt : need.toNat + 256 < 2 ^ T.size) : Sound A s need ↔ A.Refuses s.heap s.path := by
  have heq : ftsPalloc A need = _ := ftsPalloc_wraps h hlt
  have hval : val (ftsPalloc A need) s = val (resize A 0) s := by
    rw [heq]
    rfl
  have hout : out (ftsPalloc A need) s = out (resize A 0) s := by
    rw [heq]
    rfl
  have hacts : acts (ftsPalloc A need) s = [.wraps, .reallocs 0] := by
    rw [heq, acts_bind]
    exact congrArg (Event.wraps :: ·) acts_resize
  cases hr : (A.realloc s.heap s.path 0).1 with
  | none =>
    obtain ⟨hfail, hkept⟩ := resize_none hr
    rw [← hval] at hfail
    rw [← hout] at hkept
    constructor
    · intro hsound
      obtain ⟨-, howns, -⟩ := hsound.failed hfail
      rw [hkept] at howns
      exact ⟨hr, howns⟩
    · intro hrefuses
      refine ⟨fun hok => absurd (hfail.symm.trans hok) (by decide), fun _ => ?_⟩
      rw [hkept]
      exact ⟨rfl, hrefuses.2, rfl⟩
  | some newbuf =>
    have hok := (resize_some hr).1
    rw [← hval] at hok
    constructor
    · intro hsound
      obtain ⟨size, hsize, -⟩ := hsound.granted hok
      rw [hacts] at hsize
      cases hsize
    · intro hrefuses
      have hnone := hr.symm.trans hrefuses.1
      cases hnone

/-- The guard on the sum does not cover the rounding: from half of the range up to the guard, all
depends on what `realloc` makes of a size of zero. -/
theorem ftsPalloc_sound_iff (hs : Owns A s) :
    Sound A s need ↔ need.toNat + 256 ≤ 2 ^ (T.size - 1) ∨ 2 ^ T.size ≤ need.toNat + 256 ∨
      A.Refuses s.heap s.path := by
  by_cases hfits : need.toNat + 256 ≤ 2 ^ (T.size - 1)
  · exact iff_of_true (sound_fits hs hfits) (.inl hfits)
  · by_cases hguard : 2 ^ T.size ≤ need.toNat + 256
    · exact iff_of_true (sound_refused hs hguard) (.inr (.inl hguard))
    · rw [sound_wraps_iff (by omega) (by omega)]
      constructor
      · exact fun hrefuses => .inr (.inr hrefuses)
      · rintro (h | h | hrefuses)
        · exact absurd h hfits
        · exact absurd h hguard
        · exact hrefuses

/-- An allocator that resizes in place; a block that is resized to nothing it frees, or keeps. -/
def libc (frees : Bool) (T : Target) : Allocator (List Addr) T where
  inUse m a := a ∈ m
  realloc m p n :=
    match p with
    | some a => if n = 0 ∧ frees = true then (none, m.filter (· ≠ a)) else (some a, m)
    | none => (some (m.sum + 16), (m.sum + 16) :: m)
  kept := by
    intro m p n hn hnone
    cases p with
    | none => cases hnone
    | some a =>
      dsimp only at hnone
      rw [if_neg (fun h => hn h.1)] at hnone
      cases hnone
  granted := by
    intro m p n b hp hb
    cases p with
    | none =>
      cases hb
      exact List.mem_cons_self ..
    | some a =>
      dsimp only at hb ⊢
      split at hb
      · cases hb
      · cases hb
        rw [if_neg ‹_›]
        exact hp _ rfl

/-- A stream with a path buffer of `PATH_MAX` bytes. -/
def opened (T : Target) : Stream (List Addr) T := ⟨[4096], 0, some 4096, 4096⟩

theorem opened_sound : Owns (libc false lp64) (opened lp64) ∧
    Sound (libc false lp64) (opened lp64) 8192 := by
  have hs : Owns (libc false lp64) (opened lp64) := by
    intro a ha
    cases ha
    exact List.mem_singleton_self _
  exact ⟨hs, (ftsPalloc_sound_iff hs).mpr (.inl (by decide))⟩

/-- Whether the block that is resized to nothing is freed or kept. -/
theorem opened_unsound : ¬Sound (libc false ilp32) (opened ilp32) (BitVec.ofNat 32 (2 ^ 31 - 255)) ∧
    ¬Sound (libc true ilp32) (opened ilp32) (BitVec.ofNat 32 (2 ^ 31 - 255)) := by
  constructor
  · intro h
    obtain ⟨size, hacts, -⟩ := h.granted (by decide)
    have hlen : (acts (ftsPalloc (libc false ilp32) (BitVec.ofNat 32 (2 ^ 31 - 255))) (opened ilp32)).length = 2 := by
      decide
    rw [hacts] at hlen
    cases hlen
  · intro h
    obtain ⟨-, howns, -⟩ := h.failed (by decide)
    have hfreed : (out (ftsPalloc (libc true ilp32) (BitVec.ofNat 32 (2 ^ 31 - 255))) (opened ilp32)).heap = [] := by
      decide
    have huse := howns 4096 (by decide)
    rw [hfreed] at huse
    cases huse

/-! ### Runs -/

/-- A granted request hands over a buffer in use, whatever its size. -/
theorem owns_granted (hs : Owns A s) (hok : val (ftsPalloc A need) s = false) :
    Owns A (out (ftsPalloc A need) s) := by
  have hresize : ∀ size, val (resize A size) s = false → Owns A (out (resize A size) s) := by
    intro size hval
    cases hr : (A.realloc s.heap s.path size).1 with
    | none =>
      rw [(resize_none hr).1] at hval
      cases hval
    | some newbuf =>
      rw [(resize_some hr).2]
      intro a ha
      cases ha
      exact A.granted _ _ _ _ hs hr
  by_cases hguard : 2 ^ T.size ≤ need.toNat + 256
  · rw [ftsPalloc_refused hguard] at hok
    cases hok
  · obtain ⟨size, -, hval, hout⟩ := @ftsPalloc_resizes _ _ A need (Nat.lt_of_not_le hguard) s
    rw [hout]
    exact hresize size (hval ▸ hok)

theorem Sound.owns (h : Sound A s need) (hs : Owns A s) : Owns A (out (ftsPalloc A need) s) := by
  cases hval : val (ftsPalloc A need) s with
  | false => exact owns_granted hs hval
  | true => exact (h.failed hval).2.1

/-- The buffer is in use after any run of requests of which none is rounded to nothing. -/
theorem owns_run (needs : List T.SizeT) (hs : Owns A s)
    (hneeds : ∀ need ∈ needs, need.toNat + 256 ≤ 2 ^ (T.size - 1) ∨ 2 ^ T.size ≤ need.toNat + 256) :
    Owns A (needs.foldl (fun s need => out (ftsPalloc A need) s) s) := by
  induction needs generalizing s with
  | nil => exact hs
  | cons need needs ih =>
    have hsound : Sound A s need := by
      obtain hfits | hguard := hneeds need (List.mem_cons_self ..)
      · exact sound_fits hs hfits
      · exact sound_refused hs hguard
    exact ih (hsound.owns hs) fun need hneed => hneeds need (List.mem_cons_of_mem _ hneed)

/-! ### The traversal -/

section Traversal

variable {E : Env ω} {t : Stream ω lp64} {r : Sys ω}

/-- The allocator of the traversal, which frees nothing; a block that moves gets an address of its
own. -/
def ofEnv (E : Env ω) : Allocator ω lp64 where
  inUse _ _ := True
  realloc w p size :=
    match E.realloc w size.toNat with
    | (.fail, w) => (none, w)
    | (.inPlace, w) => (some (p.getD 0), w)
    | (.moved, w) => (some (p.getD 0 + 1), w)
  kept _ _ _ _ _ _ _ := trivial
  granted _ _ _ _ _ _ := trivial

structure Matches (t : Stream ω lp64) (r : Sys ω) : Prop where
  heap : t.heap = r.world
  errno : t.errno = r.errno
  path : t.path = some r.path.addr
  pathlen : t.pathlen.toNat = r.pathlen

theorem toNat_ftsLengthCap (len : lp64.SizeT) :
    (ftsLengthCap len : lp64.LengthT).toNat = Fts.ftsLengthCap len.toNat := by
  have hmax : (ftsLengthMax : lp64.SizeT).toNat = Fts.ftsLengthMax := rfl
  unfold ftsLengthCap Fts.ftsLengthCap
  dsimp only
  split
  · next h =>
    have hlt := BitVec.lt_def.mp h
    rw [Nat.min_eq_right (by omega)]
    rfl
  · next h =>
    have hle : len.toNat ≤ Fts.ftsLengthMax := by
      have := BitVec.lt_def.not.mp h
      omega
    rw [Nat.min_eq_left hle, BitVec.toNat_setWidth]
    exact Nat.mod_eq_of_lt (Nat.lt_of_le_of_lt hle (by decide))

theorem ftsPow2_roundUp {x : ℕ} (h : x ≤ 2 ^ 64) : Fts.ftsPow2 x = roundUp x % 2 ^ 64 := by
  unfold Fts.ftsPow2
  split
  · next hx =>
    subst hx
    rfl
  · have hround := @smear_add_one x 6 (by omega)
    rw [← hround]
    rfl

theorem resize_refines (h : Matches t r) (size : lp64.SizeT) :
    let m := Fts.callRealloc E size.toNat >>= fun res =>
      if res = .fail then pure true
      else
        Traced.modify (fun r =>
          { r with
            path := { r.path with
              addr := if res = .moved then r.path.addr + 1 else r.path.addr
              room := size.toNat }
            pathlen := Fts.ftsLengthCap size.toNat }) >>= fun _ => pure false
    val (resize (ofEnv E) size) t = val m r ∧ Matches (out (resize (ofEnv E) size) t) (out m r) := by
  have hres : val (Fts.callRealloc E size.toNat) r = (E.realloc r.world size.toNat).1 := rfl
  have hsys : out (Fts.callRealloc E size.toNat) r =
      { r with world := (E.realloc r.world size.toNat).2,
               errno := if (E.realloc r.world size.toNat).1 = .fail then ENOMEM else r.errno } := rfl
  have hword : (ofEnv E).realloc t.heap t.path size =
      match E.realloc r.world size.toNat with
      | (.fail, w) => (none, w)
      | (.inPlace, w) => (some r.path.addr, w)
      | (.moved, w) => (some (r.path.addr + 1), w) := by
    rw [h.heap, h.path]
    rfl
  dsimp only
  rw [val_bind, out_bind, hres, hsys]
  generalize E.realloc r.world size.toNat = answer at hword ⊢
  obtain ⟨res, w⟩ := answer
  cases res with
  | fail =>
    obtain ⟨hval, hout⟩ := resize_none (congrArg Prod.fst hword)
    rw [hval, hout, hword]
    exact ⟨rfl, rfl, rfl, h.path, h.pathlen⟩
  | inPlace =>
    obtain ⟨hval, hout⟩ := resize_some (congrArg Prod.fst hword)
    rw [hval, hout, hword]
    exact ⟨rfl, rfl, h.errno, rfl, toNat_ftsLengthCap size⟩
  | moved =>
    obtain ⟨hval, hout⟩ := resize_some (congrArg Prod.fst hword)
    rw [hval, hout, hword]
    exact ⟨rfl, rfl, h.errno, rfl, toNat_ftsLengthCap size⟩

/-- The traversal grows its path buffer as the words do. -/
theorem ftsPalloc_refines (h : Matches t r) (need : lp64.SizeT) :
    val (ftsPalloc (ofEnv E) need) t = val (Fts.ftsPalloc E need.toNat) r ∧
      Matches (out (ftsPalloc (ofEnv E) need) t) (out (Fts.ftsPalloc E need.toNat) r) := by
  by_cases hguard : 2 ^ 64 ≤ need.toNat + 256
  · have hsys : Fts.ftsPalloc E need.toNat = setErrno ENAMETOOLONG >>= fun _ => pure true :=
      if_pos (by unfold SIZE_MAX; omega)
    rw [@ftsPalloc_refused _ _ (ofEnv E) need hguard, hsys]
    exact ⟨rfl, h.heap, rfl, h.path, h.pathlen⟩
  · have hsys : Fts.ftsPalloc E need.toNat =
        Fts.callRealloc E (Fts.ftsPow2 (need.toNat + 256)) >>= fun res =>
          if res = .fail then pure true
          else
            Traced.modify (fun r =>
              { r with
                path := { r.path with
                  addr := if res = .moved then r.path.addr + 1 else r.path.addr
                  room := Fts.ftsPow2 (need.toNat + 256) }
                pathlen := Fts.ftsLengthCap (Fts.ftsPow2 (need.toNat + 256)) }) >>= fun _ =>
              pure false := if_neg (by unfold SIZE_MAX; omega)
    obtain ⟨size, hsize, hval, hout⟩ :=
      @ftsPalloc_resizes _ _ (ofEnv E) need (Nat.lt_of_not_le hguard) t
    have hpow : Fts.ftsPow2 (need.toNat + 256) = size.toNat :=
      (ftsPow2_roundUp (by omega)).trans hsize.symm
    rw [hval, hout, hsys, hpow]
    exact resize_refines h size

end Traversal

end MuslBsd.Fts.Palloc
