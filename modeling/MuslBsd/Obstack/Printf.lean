import MuslBsd.Obstack.Guarantees

/-! `obstack_vprintf` over a formatter whose text may change from call to call. -/
namespace MuslBsd.Obstack
open MuslBsd.Support

/-- What the last call of `vsnprintf` stores: its text, as far as it was given room, and the
terminator. -/
def lastStored (calls : Calls) : List UInt8 :=
  match calls 0, calls 1 with
  | .error _, _ => []
  | .ok needed, .error part => part.take (needed.length + 1)
  | .ok needed, .ok written =>
    if written.length ≥ needed.length + 1 then
      match calls 2 with
      | .error part => part.take (written.length + 1)
      | .ok again => again.take written.length ++ [0]
    else written ++ [0]

/-- No byte goes outside the chunk and `next_free` stays in it. A negative result leaves the growing
object; otherwise it has got the bytes that the last call stored, as many as were reported, and of
these none is the terminator. The handler may be called instead. -/
structure Robust (A : Allocator) (w : World) (s : Stack) (calls : Calls) : Prop where
  inside : ∀ stop, vprintf A w calls = .error stop → stop = .allocFailed
  failure : ∀ w', vprintf A w calls = .ok (w', none) →
    w'.ob.nextFree ≤ w'.ob.chunkLimit ∧ Represents w' s
  success : ∀ w' n, vprintf A w calls = .ok (w', some n) → w'.ob.nextFree ≤ w'.ob.chunkLimit ∧
    n < (lastStored calls).length ∧ Represents w' (s.append (((lastStored calls).take n).map some))

/-- The text outgrows the room that was measured for it twice: the second call reports a longer one
than the first, room is made for that, and the third reports a longer one again. -/
def Outgrown (A : Allocator) (w : World) (calls : Calls) : Prop :=
  ∃ needed written again w₁ w₂, calls 0 = .ok needed ∧ calls 1 = .ok written ∧ calls 2 = .ok again ∧
    needed.length < written.length ∧ written.length < again.length ∧
    makeRoom A w (needed.length + 1) = .ok w₁ ∧
    makeRoom A { w₁ with mem := w₁.mem.write w₁.ob.nextFree (written.take needed.length ++ [0]) }
      (written.length + 1) = .ok w₂

/-! ### The third call -/

/-- The part of `obstack_vprintf` after the second call has reported too long a text. -/
def retry (A : Allocator) (w : World) (length : ℕ) (call : Except (List UInt8) (List UInt8)) :
    Except Stop (World × Option ℕ) := do
  let w ← makeRoom A w (length + 1)
  match call with
  | .error part => do
    let w ← w.store w.ob.chunk w.ob.nextFree (part.take (length + 1))
    .ok (w, none)
  | .ok again => do
    let w ← w.store w.ob.chunk w.ob.nextFree (again.take (length + 1 - 1) ++ [0])
    .ok (Obstack.advance w again.length, some again.length)

section Retry

variable {A : Allocator} {k : ℕ} {w : World} {s : Stack} {fs : List Frame} {length : ℕ}

theorem retry_no_room {call : Except (List UInt8) (List UInt8)} {stop : Stop}
    (h : makeRoom A w (length + 1) = .error stop) : retry A w length call = .error stop := by
  unfold retry
  rw [h, error_bind]

theorem retry_error (h : Inv k w s fs) (hk : k < 64) (hroom : length + 1 ≤ room w)
    {v : World} (hv : makeRoom A v (length + 1) = .ok w) (part : List UInt8) :
    ∃ w', retry A v length (.error part) = .ok (w', none) ∧ Inv k w' s fs := by
  have hlen : (part.take (length + 1)).length ≤ room w := by
    rw [List.length_take]
    omega
  obtain ⟨hstore, hspill⟩ := h.spill hk (part.take (length + 1)) hlen
  refine ⟨_, ?_, hspill⟩
  unfold retry
  rw [hv, ok_bind]
  dsimp only
  rw [hstore, ok_bind]

/-- The text and its terminator, in the room behind the growing object. -/
theorem Inv.append_text (h : Inv k w s fs) (hk : k < 64) (text : List UInt8)
    (hroom : text.length + 1 ≤ room w) :
    w.store w.ob.chunk w.ob.nextFree (text ++ [0]) =
        .ok { w with mem := w.mem.write w.ob.nextFree (text ++ [0]) } ∧
      Inv k (Obstack.advance { w with mem := w.mem.write w.ob.nextFree (text ++ [0]) } text.length)
        (s.append (text.map some)) fs := by
  have hlen : (text ++ [0]).length ≤ room w := by
    rw [List.length_append, List.length_singleton]
    exact hroom
  obtain ⟨hstore, hspill⟩ := h.spill hk (text ++ [0]) hlen
  have htext := Memory.holds_write (m := w.mem) (p := w.ob.nextFree) (text ++ [0])
  rw [List.map_append, Memory.holds_append] at htext
  have hfit : (text.map some).length ≤ room w := by
    rw [List.length_map]
    omega
  obtain ⟨hadv, _⟩ := hspill.advance hfit htext.1
  rw [List.length_map] at hadv
  exact ⟨hstore, hadv⟩

/-- A text that is no longer than the last one is appended. -/
theorem retry_ok (h : Inv k w s fs) (hk : k < 64) (hroom : length + 1 ≤ room w)
    {v : World} (hv : makeRoom A v (length + 1) = .ok w) {again : List UInt8}
    (hlen : again.length ≤ length) :
    ∃ w', retry A v length (.ok again) = .ok (w', some again.length) ∧
      Inv k w' (s.append (again.map some)) fs := by
  have htake : again.take (length + 1 - 1) = again := List.take_of_length_le (by omega)
  obtain ⟨hstore, hinv⟩ := h.append_text hk again (by omega)
  refine ⟨_, ?_, hinv⟩
  unfold retry
  rw [hv, ok_bind]
  dsimp only
  rw [htake, hstore, ok_bind]

/-- A longer one is stored as far as there is room, and counted whole. -/
theorem retry_long (h : Inv k w s fs) (hk : k < 64) (hroom : length + 1 ≤ room w)
    {v : World} (hv : makeRoom A v (length + 1) = .ok w) (again : List UInt8) :
    ∃ w', retry A v length (.ok again) = .ok (w', some again.length) ∧
      w'.ob.chunkLimit = w.ob.chunkLimit ∧
      w'.ob.nextFree = addSize w.ob.nextFree again.length := by
  have hlen : (again.take (length + 1 - 1) ++ [0]).length ≤ room w := by
    rw [List.length_append, List.length_take, List.length_singleton]
    omega
  obtain ⟨hstore, _⟩ := h.spill hk (again.take (length + 1 - 1) ++ [0]) hlen
  refine ⟨Obstack.advance { w with
    mem := w.mem.write w.ob.nextFree (again.take (length + 1 - 1) ++ [0]) } again.length, ?_, rfl, rfl⟩
  unfold retry
  rw [hv, ok_bind]
  dsimp only
  rw [hstore, ok_bind]

end Retry

/-! ### All calls -/

section Calls

variable {A : Allocator} {k : ℕ} {w : World} {s : Stack} {fs : List Frame} {calls : Calls}

/-- With the first two texts known, what is left is one of three ways to go on. -/
theorem vprintf_eq {needed written : List UInt8} (h0 : calls 0 = .ok needed)
    (h1 : calls 1 = .ok written) : vprintf A w calls = (do
      let w ← makeRoom A w (needed.length + 1)
      let w ← w.store w.ob.chunk w.ob.nextFree (written.take needed.length ++ [0])
      if written.length ≥ needed.length + 1 then retry A w written.length (calls 2)
      else .ok (Obstack.advance w written.length, some written.length)) := by
  unfold vprintf retry
  rw [h0]
  dsimp only
  rw [h1]
  rfl

/-- The third call, once the second has reported too long a text. -/
theorem vprintf_retry {needed written : List UInt8} (h0 : calls 0 = .ok needed)
    (h1 : calls 1 = .ok written) (hlong : needed.length < written.length) {w₁ : World} {s₁ : Stack}
    {fs₁ : List Frame} (hinv : Inv k w₁ s₁ fs₁) (hk : k < 64) (hroom : needed.length + 1 ≤ room w₁)
    (hmake : makeRoom A w (needed.length + 1) = .ok w₁) :
    vprintf A w calls = retry A
        { w₁ with mem := w₁.mem.write w₁.ob.nextFree (written.take needed.length ++ [0]) }
        written.length (calls 2) ∧
      Inv k { w₁ with mem := w₁.mem.write w₁.ob.nextFree (written.take needed.length ++ [0]) } s₁ fs₁ := by
  have hlen : (written.take needed.length ++ [0]).length ≤ room w₁ := by
    rw [List.length_append, List.length_take, List.length_singleton]
    omega
  obtain ⟨hstore, hspill⟩ := hinv.spill hk (written.take needed.length ++ [0]) hlen
  refine ⟨?_, hspill⟩
  rw [vprintf_eq h0 h1, hmake, ok_bind, hstore, ok_bind, if_pos (by omega)]

/-- The four ways in which the calls may end. -/
inductive Ends (A : Allocator) (k : ℕ) (w : World) (s : Stack) (calls : Calls) : Prop
  | handler (run : vprintf A w calls = .error .allocFailed) (fits : ¬Outgrown A w calls)
  | failure (w' : World) (fs' : List Frame) (run : vprintf A w calls = .ok (w', none))
      (inv : Inv k w' s fs') (fits : ¬Outgrown A w calls)
  | success (w' : World) (n : ℕ) (fs' : List Frame) (run : vprintf A w calls = .ok (w', some n))
      (lt : n < (lastStored calls).length)
      (inv : Inv k w' (s.append (((lastStored calls).take n).map some)) fs')
      (fits : ¬Outgrown A w calls)
  | outgrown (w' : World) (n : ℕ) (run : vprintf A w calls = .ok (w', some n))
      (le : (lastStored calls).length ≤ n) (out : Outgrown A w calls)

section Texts

variable {needed written : List UInt8} {w₁ : World} {fs₁ : List Frame}

/-- The second text is no longer than the first. -/
theorem ends_of_short (hk : k < 64) (h0 : calls 0 = .ok needed) (h1 : calls 1 = .ok written)
    (hshort : written.length ≤ needed.length) (hmake : makeRoom A w (needed.length + 1) = .ok w₁)
    (hinv : Inv k w₁ s fs₁) (hroom : needed.length + 1 ≤ room w₁) : Ends A k w s calls := by
  have hno : ¬Outgrown A w calls := by
    rintro ⟨_, _, _, _, _, hc, hc', -, hlt, -⟩
    obtain rfl := Except.ok.inj (h0.symm.trans hc)
    obtain rfl := Except.ok.inj (h1.symm.trans hc')
    omega
  have hlast : lastStored calls = written ++ [0] := by
    unfold lastStored
    rw [h0, h1]
    dsimp only
    rw [if_neg (by omega)]
  have htake : written.take needed.length = written := List.take_of_length_le hshort
  obtain ⟨hstore, hinv'⟩ := hinv.append_text hk written (by omega)
  have hrun : vprintf A w calls = .ok (Obstack.advance
      { w₁ with mem := w₁.mem.write w₁.ob.nextFree (written ++ [0]) } written.length,
      some written.length) := by
    rw [vprintf_eq h0 h1, hmake, ok_bind, htake, hstore, ok_bind, if_neg (by omega)]
  refine .success _ _ fs₁ hrun ?_ ?_ hno
  · rw [hlast, List.length_append, List.length_singleton]
    omega
  · rw [hlast, List.take_left]
    exact hinv'

/-- The second text is longer, and room is made for it. -/
theorem ends_of_third (hk : k < 64) (h0 : calls 0 = .ok needed) (h1 : calls 1 = .ok written)
    (hlong : needed.length < written.length) (hmake : makeRoom A w (needed.length + 1) = .ok w₁)
    (heq : vprintf A w calls = retry A
      { w₁ with mem := w₁.mem.write w₁.ob.nextFree (written.take needed.length ++ [0]) }
      written.length (calls 2))
    {w₂ : World} {fs₂ : List Frame}
    (hmake₂ : makeRoom A
      { w₁ with mem := w₁.mem.write w₁.ob.nextFree (written.take needed.length ++ [0]) }
      (written.length + 1) = .ok w₂)
    (hinv : Inv k w₂ s fs₂) (hroom : written.length + 1 ≤ room w₂) : Ends A k w s calls := by
  cases h2 : calls 2 with
  | error part =>
    have hno : ¬Outgrown A w calls := by
      rintro ⟨_, _, _, _, _, -, -, hc, -⟩
      rw [h2] at hc
      cases hc
    obtain ⟨w', hretry, hinv'⟩ := retry_error hinv hk hroom hmake₂ part
    rw [h2] at heq
    exact .failure w' fs₂ (heq.trans hretry) hinv' hno
  | ok again =>
    have hlast : lastStored calls = again.take written.length ++ [0] := by
      unfold lastStored
      rw [h0, h1]
      dsimp only
      rw [if_pos (by omega), h2]
    rw [h2] at heq
    by_cases hagain : again.length ≤ written.length
    · have hno : ¬Outgrown A w calls := by
        rintro ⟨_, _, _, _, _, -, hc, hc', -, hlt, -⟩
        obtain rfl := Except.ok.inj (h1.symm.trans hc)
        obtain rfl := Except.ok.inj (h2.symm.trans hc')
        omega
      have htake : again.take written.length = again := List.take_of_length_le hagain
      obtain ⟨w', hretry, hinv'⟩ := retry_ok hinv hk hroom hmake₂ hagain
      refine .success w' again.length fs₂ (heq.trans hretry) ?_ ?_ hno
      · rw [hlast, htake, List.length_append, List.length_singleton]
        omega
      · rw [hlast, htake, List.take_left]
        exact hinv'
    · obtain ⟨w', hretry, -⟩ := retry_long hinv hk hroom hmake₂ again
      refine .outgrown w' again.length (heq.trans hretry) ?_
        ⟨needed, written, again, w₁, w₂, h0, h1, h2, hlong, by omega, hmake, hmake₂⟩
      rw [hlast, List.length_append, List.length_take, List.length_singleton]
      omega

/-- The second text is longer. -/
theorem ends_of_long (hk : k < 64) (h0 : calls 0 = .ok needed) (h1 : calls 1 = .ok written)
    (hlong : needed.length < written.length) (hlen : written.length < 2 ^ 31)
    (hmake : makeRoom A w (needed.length + 1) = .ok w₁) (hinv : Inv k w₁ s fs₁)
    (hroom : needed.length + 1 ≤ room w₁) : Ends A k w s calls := by
  obtain ⟨heq, hinv₁⟩ := vprintf_retry h0 h1 hlong hinv hk hroom hmake
  rcases makeRoom_spec A (written.length + 1) hinv₁ hk (by omega) with
    ⟨hmake₂, -⟩ | ⟨w₂, fs₂, hmake₂, hinv₂, hroom₂, -⟩
  · have hno : ¬Outgrown A w calls := by
      rintro ⟨_, _, _, _, _, hc, hc', -, -, -, hok, hok'⟩
      obtain rfl := Except.ok.inj (h0.symm.trans hc)
      obtain rfl := Except.ok.inj (h1.symm.trans hc')
      obtain rfl := Except.ok.inj (hmake.symm.trans hok)
      rw [hmake₂] at hok'
      cases hok'
    exact .handler (heq.trans (retry_no_room hmake₂)) hno
  · exact ends_of_third hk h0 h1 hlong hmake heq hmake₂ hinv₂ hroom₂

end Texts

theorem vprintf_ends (h : Inv k w s fs) (hk : k < 64)
    (hcalls : ∀ i text, calls i = .ok text → text.length < 2 ^ 31) : Ends A k w s calls := by
  cases h0 : calls 0 with
  | error part =>
    have hno : ¬Outgrown A w calls := by
      rintro ⟨_, _, _, _, _, hc, -⟩
      rw [h0] at hc
      cases hc
    refine .failure w fs ?_ h hno
    unfold vprintf
    rw [h0]
  | ok needed =>
    have hneeded := hcalls 0 needed h0
    rcases makeRoom_spec A (needed.length + 1) h hk (by omega) with
      ⟨hmake, -⟩ | ⟨w₁, fs₁, hmake, hinv, hroom, -⟩
    · have hno : ¬Outgrown A w calls := by
        rintro ⟨_, _, _, _, _, hc, -, -, -, -, hok, -⟩
        obtain rfl := Except.ok.inj (h0.symm.trans hc)
        rw [hmake] at hok
        cases hok
      refine .handler ?_ hno
      unfold vprintf
      rw [h0]
      dsimp only
      rw [hmake, error_bind]
    · cases h1 : calls 1 with
      | error part =>
        have hno : ¬Outgrown A w calls := by
          rintro ⟨_, _, _, _, _, -, hc, -⟩
          rw [h1] at hc
          cases hc
        have hlen : (part.take (needed.length + 1)).length ≤ room w₁ := by
          rw [List.length_take]
          omega
        obtain ⟨hstore, hspill⟩ := hinv.spill hk (part.take (needed.length + 1)) hlen
        refine .failure _ fs₁ ?_ hspill hno
        unfold vprintf
        rw [h0]
        dsimp only
        rw [hmake, ok_bind, h1]
        dsimp only
        rw [hstore, ok_bind]
      | ok written =>
        have hwritten := hcalls 1 written h1
        by_cases hlong : needed.length < written.length
        · exact ends_of_long hk h0 h1 hlong hwritten hmake hinv hroom
        · exact ends_of_short hk h0 h1 (Nat.not_lt.mp hlong) hmake hinv hroom

/-- The formatter does no harm if and only if its text does not outgrow the room twice. -/
theorem robust_iff (h : Inv k w s fs) (hk : k < 64)
    (hcalls : ∀ i text, calls i = .ok text → text.length < 2 ^ 31) :
    Robust A w s calls ↔ ¬Outgrown A w calls := by
  rcases vprintf_ends (A := A) h hk hcalls with
    ⟨hrun, hno⟩ | ⟨w₁, fs₁, hrun, hinv, hno⟩ | ⟨w₁, n₁, fs₁, hrun, hlt, hinv, hno⟩ | ⟨w₁, n₁, hrun, hle, hout⟩
  · refine iff_of_true ⟨fun stop hs => ?_, fun w' hw => ?_, fun w' n hw => ?_⟩ hno
    · rw [hrun] at hs
      exact (Except.error.inj hs).symm
    · rw [hrun] at hw
      cases hw
    · rw [hrun] at hw
      cases hw
  · refine iff_of_true ⟨fun stop hs => ?_, fun w' hw => ?_, fun w' n hw => ?_⟩ hno
    · rw [hrun] at hs
      cases hs
    · rw [hrun] at hw
      cases hw
      exact ⟨hinv.next_le.1, hinv.represents hk⟩
    · rw [hrun] at hw
      cases hw
  · refine iff_of_true ⟨fun stop hs => ?_, fun w' hw => ?_, fun w' n hw => ?_⟩ hno
    · rw [hrun] at hs
      cases hs
    · rw [hrun] at hw
      cases hw
    · rw [hrun] at hw
      cases hw
      exact ⟨hinv.next_le.1, hlt, hinv.represents hk⟩
  · refine iff_of_false (fun hr => ?_) (not_not.mpr hout)
    exact absurd (hr.success w₁ n₁ hrun).2.1 (Nat.not_lt.mpr hle)

end Calls

/-- An obstack of 64 bytes at address 4096. -/
def sixtyFour : World := begun bump blankHead (fun _ => 0) 4 64 4096

theorem inv_sixtyFour : Inv 4 sixtyFour ⟨[], []⟩ [⟨⟨⟨4096, 64⟩, 0⟩, []⟩] := by
  have hchunk : bump.chunkfun (World.start blankHead fun _ => 0) (beginSize 64) = some 4096 :=
    bump_start (by decide)
  have hfits : HoldsHeader (2 ^ 4) ⟨4096, beginSize 64⟩ := ⟨4112, by decide, by decide, by decide⟩
  exact begun_inv (by decide) hchunk hfits

/-- Texts of these lengths. -/
def letters (first second third : ℕ) : Calls
  | 0 => .ok (List.replicate first 65)
  | 1 => .ok (List.replicate second 65)
  | 2 => .ok (List.replicate third 65)
  | _ => .ok []

theorem letters_lt {first second third : ℕ} (h : max first (max second third) < 2 ^ 31) (i : ℕ)
    (text : List UInt8) (ht : letters first second third i = .ok text) : text.length < 2 ^ 31 := by
  match i with
  | 0 | 1 | 2 =>
    obtain rfl := Except.ok.inj ht
    rw [List.length_replicate]
    omega
  | n + 3 =>
    obtain rfl := Except.ok.inj ht
    decide

theorem robust_iff_letters : Robust bump sixtyFour ⟨[], []⟩ (letters 3 5 4) ↔
    ¬Outgrown bump sixtyFour (letters 3 5 4) :=
  robust_iff inv_sixtyFour (by decide) (letters_lt (by decide))

/-- After the second call, which had room for its terminator only. -/
def terminated : World :=
  { sixtyFour with mem := sixtyFour.mem.write sixtyFour.ob.nextFree [0] }

/-- A text of no, one and then a hundred bytes: `next_free` is left past the chunk. -/
theorem not_robust_letters : (∃ w', vprintf bump sixtyFour (letters 0 1 100) = .ok (w', some 100) ∧
      w'.ob.chunkLimit = 4160 ∧ w'.ob.nextFree = 4212) ∧
    ¬Robust bump sixtyFour ⟨[], []⟩ (letters 0 1 100) := by
  have hmake : makeRoom bump sixtyFour 1 = .ok sixtyFour := if_neg (by decide)
  have hroom : 1 ≤ room sixtyFour := by decide
  have h0 : letters 0 1 100 0 = .ok [] := rfl
  have h1 : letters 0 1 100 1 = .ok [65] := rfl
  obtain ⟨heq, hinv⟩ := vprintf_retry h0 h1 (by decide) inv_sixtyFour (by decide) hroom hmake
  have hmake₂ : makeRoom bump terminated 2 = .ok terminated := if_neg (by decide)
  obtain ⟨w', hretry, hlimit, hnext⟩ := retry_long (w := terminated) hinv (by decide)
    (show 1 + 1 ≤ room terminated by decide) hmake₂ (List.replicate 100 65)
  rw [List.length_replicate] at hretry hnext
  have hnext' : w'.ob.nextFree = 4212 := hnext.trans (by decide)
  have hlimit' : w'.ob.chunkLimit = 4160 := hlimit.trans (by decide)
  have hrun : vprintf bump sixtyFour (letters 0 1 100) = .ok (w', some 100) := heq.trans hretry
  refine ⟨⟨w', hrun, hlimit', hnext'⟩, fun h => ?_⟩
  have hle := (h.success w' 100 hrun).1
  omega

end MuslBsd.Obstack
