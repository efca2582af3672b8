import MuslBsd.Obstack.Steps
import MuslBsd.Support.Transition

/-! Runs of obstack operations from `_obstack_begin` on. -/
namespace MuslBsd.Obstack
open MuslBsd.Support

/-- The operations on an obstack. The number that comes with a free says how many of the newest
live objects it ends. -/
inductive Op
  | grow (bytes : List UInt8)
  | grow0 (bytes : List UInt8)
  | oneGrow (ch : UInt8)
  | oneGrowFast (ch : UInt8)
  | blank (length : ℕ)
  | blankFast (length : ℕ)
  | fill (offset : ℕ) (bytes : List UInt8)
  | ptrGrow (aptr : ℕ)
  | intGrow (aint : ℕ)
  | makeRoom (length : ℕ)
  | newchunk (length : ℕ)
  | printf (calls : Calls)
  | finish
  | copy (bytes : List UInt8)
  | copy0 (bytes : List UInt8)
  | alloc (length : ℕ)
  | free (obj ended : ℕ)
  | obstackFree (obj ended : ℕ)
  | freeAll

variable (A : Allocator)

/-- An operation with the pointer or the number it returns. -/
def exec (w : World) : Op → Except Stop (World × Option ℕ)
  | .grow bytes => (grow A w bytes).map (·, none)
  | .grow0 bytes => (grow0 A w bytes).map (·, none)
  | .oneGrow ch => (oneGrow A w ch).map (·, none)
  | .oneGrowFast ch => (oneGrowFast w ch).map (·, none)
  | .blank length => (blank A w length).map (·, none)
  | .blankFast length => .ok (blankFast w length, none)
  | .fill offset bytes => (fill w offset bytes).map (·, none)
  | .ptrGrow aptr => (ptrGrow A w aptr).map (·, none)
  | .intGrow aint => (intGrow A w aint).map (·, none)
  | .makeRoom length => (makeRoom A w length).map (·, none)
  | .newchunk length => (newchunk A w length).map (·, none)
  | .printf calls => vprintf A w calls
  | .finish => .ok ((finish w).1, some (finish w).2)
  | .copy bytes => (copy A w bytes).map fun r => (r.1, some r.2)
  | .copy0 bytes => (copy0 A w bytes).map fun r => (r.1, some r.2)
  | .alloc length => (alloc A w length).map fun r => (r.1, some r.2)
  | .free obj _ => (free A w obj).map (·, none)
  | .obstackFree obj _ => (obstackFree A w obj).map (·, none)
  | .freeAll => (free A w 0).map (·, none)

/-- What a free may be given: an address in a live object, which ends that and the newer ones, or
one in the growing object, which ends only that. -/
def Freeable (w : World) (s : Stack) (obj ended : ℕ) : Prop :=
  (∃ newer o older, s.live = newer ++ o :: older ∧ ended = newer.length + 1 ∧
    o.addr ≤ obj ∧ (obj = o.addr ∨ obj < o.extent.stop)) ∨
  (ended = 0 ∧ obj ≠ 0 ∧ w.ob.objectBase ≤ obj ∧ obj ≤ w.ob.nextFree)

/-- What the caller of an operation has to see to: the bytes are those of an object in memory, the
unchecked macros stay in the room, `vsnprintf` prints the same text whenever it succeeds, and what
is freed was allocated. -/
def Allowed (w : World) (s : Stack) : Op → Prop
  | .grow bytes | .grow0 bytes | .copy bytes | .copy0 bytes => bytes.length < 2 ^ 63
  | .oneGrowFast _ => 1 ≤ room w
  | .blankFast length => length ≤ room w
  | .fill offset bytes => offset + bytes.length ≤ s.growing.length
  | .makeRoom length | .newchunk length => length < 2 ^ 64
  | .printf calls => ∀ i j t u, calls i = .ok t → calls j = .ok u → t = u ∧ t.length < 2 ^ 31
  | .free obj ended | .obstackFree obj ended => Freeable w s obj ended
  | _ => True

/-- The operation on the object stack, with what the obstack returned. -/
def Stack.after (s : Stack) (result : Option ℕ) : Op → Stack
  | .grow bytes => s.append (bytes.map some)
  | .grow0 bytes => s.append ((bytes ++ [0]).map some)
  | .oneGrow ch | .oneGrowFast ch => s.append [some ch]
  | .blank length => s.append (List.replicate (length % 2 ^ 64) none)
  | .blankFast length => s.append (List.replicate length none)
  | .fill offset bytes => s.fill offset bytes
  | .ptrGrow aptr => s.append ((wordBytes 8 aptr).map some)
  | .intGrow aint => s.append ((wordBytes 4 aint).map some)
  | .makeRoom _ | .newchunk _ => s
  | .printf calls =>
    match result, calls 1 with
    | some _, .ok text => s.append (text.map some)
    | _, _ => s
  | .finish => s.finish (result.getD 0)
  | .copy bytes => (s.append (bytes.map some)).finish (result.getD 0)
  | .copy0 bytes => (s.append ((bytes ++ [0]).map some)).finish (result.getD 0)
  | .alloc length => (s.append (List.replicate (length % 2 ^ 64) none)).finish (result.getD 0)
  | .free _ ended | .obstackFree _ ended => s.drop ended
  | .freeAll => ⟨[], []⟩

/-- The room an operation asks for. -/
def asked : Op → ℕ
  | .grow bytes | .copy bytes => bytes.length
  | .grow0 bytes | .copy0 bytes => bytes.length + 1
  | .oneGrow _ => 1
  | .blank length | .alloc length => length % 2 ^ 64
  | .ptrGrow _ => 8
  | .intGrow _ => 4
  | .makeRoom length | .newchunk length => length
  | .printf calls =>
    match calls 0 with
    | .ok text => text.length + 1
    | .error _ => 0
  | _ => 0

/-! ### One operation -/

section Step

variable {A} {k : ℕ} {w : World} {s : Stack} {fs : List Frame}

/-- The obstack holds the object stack `s` after an operation on `w`, and has released nothing that
it still holds. -/
def Holds (k : ℕ) (w w' : World) (s : Stack) : Prop :=
  ∃ fs, Inv k w' s fs ∧ Released w w' fs

/-- The operation calls the handler because no chunk is to be had, or it does what it should. -/
def Meets (A : Allocator) (k : ℕ) (w : World) (s : Stack) (op : Op) : Prop :=
  (exec A w op = .error .allocFailed ∧ ¬CanAlloc A w (asked op)) ∨
    ∃ w' result, exec A w op = .ok (w', result) ∧ Holds k w w' (s.after result op)

/-- Room is made, and then the bytes are put there. -/
theorem makeRoom_put (h : Inv k w s fs) (hk : k < 64) {n : ℕ} {bytes : List UInt8}
    (hn : n < 2 ^ 64) (hlen : bytes.length ≤ n) :
    (makeRoom A w n = .error .allocFailed ∧ ¬CanAlloc A w n) ∨
      ∃ w₁ w₂ fs', makeRoom A w n = .ok w₁ ∧ put w₁ bytes = .ok w₂ ∧
        Inv k w₂ (s.append (bytes.map some)) fs' ∧ n ≤ room w₂ + bytes.length ∧
        Released w w₂ fs' := by
  rcases makeRoom_spec A n h hk hn with herr | ⟨w₁, fs', hroom, hinv, hle, hrel⟩
  · exact .inl herr
  · obtain ⟨w₂, hput, hinv₂, hleft, hfreed⟩ := hinv.put hk bytes (le_trans hlen hle)
    exact .inr ⟨w₁, w₂, fs', hroom, hput, hinv₂, by omega, hrel.congr hfreed rfl⟩

/-- A growing operation that asks for `n` bytes of room leaves the object stack `s'`. -/
def Grows (A : Allocator) (k : ℕ) (w : World) (n : ℕ) (r : Except Stop World) (s' : Stack) : Prop :=
  (r = .error .allocFailed ∧ ¬CanAlloc A w n) ∨
    ∃ w' fs', r = .ok w' ∧ Inv k w' s' fs' ∧ Released w w' fs'

/-- The operations that make room for the bytes they put. -/
theorem put_spec (h : Inv k w s fs) (hk : k < 64) (bytes : List UInt8)
    (hlen : bytes.length < 2 ^ 64) :
    Grows A k w bytes.length (makeRoom A w bytes.length >>= (put · bytes))
      (s.append (bytes.map some)) := by
  rcases makeRoom_put (A := A) h hk hlen (le_refl _) with
    ⟨herr, hno⟩ | ⟨w₁, w₂, fs', hroom, hput, hinv, _, hrel⟩
  · left
    rw [herr, error_bind]
    exact ⟨rfl, hno⟩
  · right
    rw [hroom, ok_bind]
    exact ⟨w₂, fs', hput, hinv, hrel⟩

@[simp] theorem length_wordBytes (n value : ℕ) : (wordBytes n value).length = n := by
  simp [wordBytes]

theorem grow0_spec (h : Inv k w s fs) (hk : k < 64) {bytes : List UInt8}
    (hlen : bytes.length < 2 ^ 63) :
    Grows A k w (bytes.length + 1) (grow0 A w bytes) (s.append ((bytes ++ [0]).map some)) := by
  have hsum : addSize bytes.length 1 = bytes.length + 1 := addSize_eq (by omega)
  unfold grow0
  rw [hsum]
  rcases makeRoom_put (A := A) (n := bytes.length + 1) h hk (by omega) (Nat.le_succ _) with
    ⟨herr, hno⟩ | ⟨w₁, w₂, fs', hroom, hput, hinv, hle, hrel⟩
  · left
    rw [herr, error_bind]
    exact ⟨rfl, hno⟩
  · right
    obtain ⟨w₃, hput₃, hinv₃, _, hfreed⟩ := hinv.put hk [0] (by
      rw [List.length_singleton]
      omega)
    rw [hroom, ok_bind, hput, ok_bind]
    refine ⟨w₃, fs', hput₃, ?_, hrel.congr hfreed rfl⟩
    unfold Stack.append at hinv₃ ⊢
    rw [List.map_append, ← List.append_assoc]
    exact hinv₃

theorem blank_spec (h : Inv k w s fs) (hk : k < 64) (length : ℕ) :
    Grows A k w (length % 2 ^ 64) (blank A w length)
      (s.append (List.replicate (length % 2 ^ 64) none)) := by
  unfold blank
  rcases makeRoom_spec A _ h hk (Nat.mod_lt length (Nat.two_pow_pos 64)) with
    ⟨herr, hno⟩ | ⟨w₁, fs', hroom, hinv, hle, hrel⟩
  · left
    rw [herr, error_bind]
    exact ⟨rfl, hno⟩
  · right
    obtain ⟨hadv, _⟩ := hinv.advance (l := List.replicate (length % 2 ^ 64) none)
      (by rw [List.length_replicate]; exact hle) (Memory.holds_replicate_none _)
    rw [List.length_replicate] at hadv
    rw [hroom, ok_bind]
    exact ⟨_, fs', rfl, hadv, hrel⟩

/-- An operation that grows an object and finishes it. -/
theorem Grows.and_finish {n : ℕ} {r : Except Stop World} (h : Grows A k w n r s) (hk : k < 64) :
    ((r >>= fun w => .ok (finish w)) = .error .allocFailed ∧ ¬CanAlloc A w n) ∨
      ∃ w' value, (r >>= fun w => .ok (finish w)) = .ok (w', value) ∧
        Holds k w w' (s.finish value) := by
  rcases h with ⟨herr, hno⟩ | ⟨w', fs', hrun, hinv, hrel⟩
  · left
    rw [herr, error_bind]
    exact ⟨rfl, hno⟩
  · right
    rw [hrun, ok_bind]
    exact ⟨_, _, rfl, _, finish_spec hinv hk, hrel.congr rfl (map_block_pushObject _ _)⟩

theorem vprintf_spec (h : Inv k w s fs) (hk : k < 64) {calls : Calls}
    (hcalls : Allowed w s (.printf calls)) : Meets A k w s (.printf calls) := by
  unfold Meets exec asked vprintf
  dsimp only
  cases h0 : calls 0 with
  | error part =>
    right
    refine ⟨w, none, rfl, fs, ?_, .refl w fs⟩
    unfold Stack.after
    exact h
  | ok text =>
    obtain ⟨_, hlen⟩ := hcalls 0 0 text text h0 h0
    dsimp only
    rcases makeRoom_spec A (text.length + 1) h hk (by omega) with
      ⟨herr, hno⟩ | ⟨w₁, fs', hroom, hinv, hle, hrel⟩
    · left
      rw [herr, error_bind]
      exact ⟨rfl, hno⟩
    · right
      rw [hroom, ok_bind]
      cases h1 : calls 1 with
      | error part =>
        obtain ⟨hstore, hspill⟩ := hinv.spill hk (part.take (text.length + 1)) (by
          rw [List.length_take]
          omega)
        dsimp only
        rw [hstore, ok_bind]
        refine ⟨_, none, rfl, fs', ?_, hrel⟩
        unfold Stack.after
        exact hspill
      | ok again =>
        obtain ⟨rfl, _⟩ := hcalls 0 1 text again h0 h1
        have htake : text.take (text.length + 1 - 1) = text := by simp
        obtain ⟨hstore, hspill⟩ := hinv.spill hk (text ++ [0]) (by
          rw [List.length_append, List.length_singleton]
          exact hle)
        have htext := Memory.holds_write (m := w₁.mem) (p := w₁.ob.nextFree) (text ++ [0])
        rw [List.map_append, Memory.holds_append] at htext
        obtain ⟨hadv, _⟩ := hspill.advance (l := text.map some)
          (by rw [List.length_map]; exact le_trans (Nat.le_succ _) hle) htext.1
        rw [List.length_map] at hadv
        dsimp only
        rw [htake, hstore, ok_bind, if_neg (by omega)]
        refine ⟨_, _, rfl, fs', ?_, hrel⟩
        unfold Stack.after
        dsimp only
        rw [h1]
        exact hadv

/-- A live object is in one of the chunks. -/
theorem exists_frame {newer older : List Obj} {o : Obj}
    (h : fs.flatMap Frame.objects = newer ++ o :: older) :
    ∃ gs f rest nw od, fs = gs ++ f :: rest ∧ f.objects = nw ++ o :: od ∧
      older = od ++ rest.flatMap Frame.objects := by
  induction fs generalizing newer with
  | nil => simp at h
  | cons g fs ih =>
    rw [List.flatMap_cons] at h
    rcases List.append_eq_append_iff.mp h with ⟨l, hnewer, hl⟩ | ⟨l, hobjects, hl⟩
    · obtain ⟨gs, f, rest, nw, od, rfl, hf, hod⟩ := ih hl
      exact ⟨g :: gs, f, rest, nw, od, rfl, hf, hod⟩
    · cases l with
      | nil =>
        obtain ⟨gs, f, rest, nw, od, rfl, hf, hod⟩ := ih (show _ = [] ++ o :: older from hl.symm)
        exact ⟨g :: gs, f, rest, nw, od, rfl, hf, hod⟩
      | cons o' l =>
        rw [List.cons_append, List.cons.injEq] at hl
        obtain ⟨rfl, hl⟩ := hl
        exact ⟨[], g, fs, newer, l, rfl, hobjects, hl⟩

/-- What a free cuts the chunks to. -/
theorem Freeable.split (h : Inv k w s fs) {p n : ℕ} (hp : Freeable w s p n) :
    ∃ gs f rest newer older, fs = gs ++ f :: rest ∧ f.objects = newer ++ older ∧
      Extent.Packed (startOf k f.block.toExtent) (older.map Obj.extent) p ∧ p ≤ f.block.stop ∧
      s.drop n = ⟨[], older ++ rest.flatMap Frame.objects⟩ := by
  rcases hp with ⟨newer, o, older, hlive, rfl, hlo, hhi⟩ | ⟨rfl, hne, hlo, hhi⟩
  · have hdrop : s.drop (newer.length + 1) = ⟨[], older⟩ := by
      unfold Stack.drop
      rw [hlive]
      simp
    rw [h.live] at hlive
    obtain ⟨gs, f, rest, nw, od, rfl, hobjects, hod⟩ := exists_frame hlive
    have hf : f ∈ gs ++ f :: rest := by simp
    have hpacked := h.packed_stop hf
    unfold Frame.extents at hpacked
    rw [hobjects, List.map_append, List.map_cons] at hpacked
    have hbounds := hpacked.mem (e := o.extent) (by simp)
    have hstop : o.extent.stop ≤ f.block.stop := hbounds.2
    have haddr : o.addr ≤ o.extent.stop := Nat.le_add_right _ _
    refine ⟨gs, f, rest, nw ++ [o], od, rfl, by simp [hobjects], hpacked.below.mono hlo, ?_, ?_⟩
    · rcases hhi with rfl | hhi
      · omega
      · omega
    · rw [hdrop, hod]
  · have hnext := h.next
    cases fs with
    | nil =>
      obtain ⟨hzero, _, hlen, _⟩ := h.top
      omega
    | cons f fs =>
      obtain ⟨_, hle, hpacked, _⟩ := h.top
      refine ⟨[], f, fs, [], f.objects, rfl, rfl, hpacked.mono hlo, by omega, ?_⟩
      unfold Stack.drop
      rw [List.drop_zero, h.live]
      rfl

theorem released_of_append {gs rest : List Frame} {f g : Frame} {w' : World}
    (h : Inv k w s (gs ++ f :: rest)) (hg : g.block = f.block)
    (hfreed : w'.freed = w.freed ++ gs.map Frame.block) : Released w w' (g :: rest) := by
  refine ⟨gs.map Frame.block, hfreed, ?_⟩
  intro b hb e he
  obtain ⟨e', he', rfl⟩ := List.mem_map.mp hb
  have hap := (List.pairwise_append.mp h.apart).2.2 e' he'
  rcases List.mem_cons.mp he with rfl | he
  · rw [hg]
    exact hap f List.mem_cons_self
  · exact hap e (List.mem_cons_of_mem f he)

/-- Growing operations meet what is asked of them. -/
theorem Grows.meets {op : Op} {r : Except Stop World} {s' : Stack}
    (h : Grows A k w (asked op) r s') (hexec : exec A w op = r.map (·, none))
    (hafter : s.after none op = s') : Meets A k w s op := by
  unfold Meets
  rcases h with ⟨herr, hno⟩ | ⟨w', fs', hrun, hinv, hrel⟩
  · left
    rw [hexec, herr]
    exact ⟨rfl, hno⟩
  · right
    rw [hexec, hrun]
    exact ⟨w', none, rfl, fs', hafter ▸ hinv, hrel⟩

/-- So do those that finish an object as well. -/
theorem Grows.meets_finish {op : Op} {r : Except Stop World} {s' : Stack} (hk : k < 64)
    (h : Grows A k w (asked op) r s')
    (hexec : exec A w op = (r >>= fun w => .ok (finish w)).map fun r => (r.1, some r.2))
    (hafter : ∀ value, s.after (some value) op = s'.finish value) : Meets A k w s op := by
  unfold Meets
  rcases h.and_finish hk with ⟨herr, hno⟩ | ⟨w', value, hrun, hholds⟩
  · left
    rw [hexec, herr]
    exact ⟨rfl, hno⟩
  · right
    rw [hexec, hrun]
    exact ⟨w', some value, rfl, (hafter value).symm ▸ hholds⟩

theorem meets (h : Inv k w s fs) (hk : k < 64) {op : Op} (hop : Allowed w s op) :
    Meets A k w s op := by
  cases op with
  | grow bytes =>
    have hlen : bytes.length < 2 ^ 63 := hop
    exact (put_spec h hk bytes (by omega)).meets rfl rfl
  | grow0 bytes => exact (grow0_spec h hk hop).meets rfl rfl
  | oneGrow ch => exact (put_spec h hk [ch] (by simp)).meets rfl rfl
  | blank length => exact (blank_spec h hk length).meets rfl rfl
  | ptrGrow aptr =>
    have hput := put_spec (A := A) h hk (wordBytes 8 aptr) (by simp)
    rw [length_wordBytes] at hput
    exact hput.meets rfl rfl
  | intGrow aint =>
    have hput := put_spec (A := A) h hk (wordBytes 4 aint) (by simp)
    rw [length_wordBytes] at hput
    exact hput.meets rfl rfl
  | makeRoom length =>
    have hroom : Grows A k w length (makeRoom A w length) s := by
      rcases makeRoom_spec A length h hk hop with herr | ⟨w', fs', hrun, hinv, _, hrel⟩
      · exact .inl herr
      · exact .inr ⟨w', fs', hrun, hinv, hrel⟩
    exact hroom.meets rfl rfl
  | newchunk length =>
    have hroom : Grows A k w length (newchunk A w length) s := by
      rcases newchunk_spec A h hk hop with herr | ⟨w', fs', hrun, hinv, _, hrel⟩
      · exact .inl herr
      · exact .inr ⟨w', fs', hrun, hinv, hrel⟩
    exact hroom.meets rfl rfl
  | printf calls => exact vprintf_spec h hk hop
  | copy bytes =>
    have hlen : bytes.length < 2 ^ 63 := hop
    exact (put_spec h hk bytes (by omega)).meets_finish hk rfl fun _ => rfl
  | copy0 bytes => exact (grow0_spec h hk hop).meets_finish hk rfl fun _ => rfl
  | alloc length => exact (blank_spec h hk length).meets_finish hk rfl fun _ => rfl
  | oneGrowFast ch =>
    obtain ⟨w', hput, hinv, _, hfreed⟩ := h.put hk [ch] hop
    right
    refine ⟨w', none, ?_, fs, hinv, (Released.refl w fs).congr hfreed rfl⟩
    change (put w [ch]).map (·, none) = _
    rw [hput]
    rfl
  | blankFast length =>
    obtain ⟨hadv, _⟩ := h.advance (l := List.replicate length none)
      (by rw [List.length_replicate]; exact hop) (Memory.holds_replicate_none _)
    rw [List.length_replicate] at hadv
    exact .inr ⟨_, none, rfl, fs, hadv, .refl w fs⟩
  | fill offset bytes =>
    obtain ⟨w', hfill, hinv, hfreed⟩ := h.fill hk hop
    right
    refine ⟨w', none, ?_, fs, hinv, (Released.refl w fs).congr hfreed rfl⟩
    change (fill w offset bytes).map (·, none) = _
    rw [hfill]
    rfl
  | finish =>
    exact .inr ⟨_, _, rfl, _, finish_spec h hk,
      (Released.refl w fs).congr rfl (map_block_pushObject _ _)⟩
  | free obj ended =>
    obtain ⟨gs, f, rest, newer, older, rfl, hobjects, hp, hstop, hdrop⟩ :=
      Freeable.split h hop
    obtain ⟨w', hfree, hinv, hfreed⟩ := free_spec A h hk hobjects hp hstop
    right
    refine ⟨w', none, ?_, _, ?_, released_of_append (g := ⟨f.block, older⟩) h rfl hfreed⟩
    · change (free A w obj).map (·, none) = _
      rw [hfree]
      rfl
    · change Inv k w' (s.drop ended) _
      rw [hdrop]
      exact hinv
  | obstackFree obj ended =>
    obtain ⟨gs, f, rest, newer, older, rfl, hobjects, hp, hstop, hdrop⟩ :=
      Freeable.split h hop
    obtain ⟨w', hfree, hinv, hfreed⟩ := obstackFree_spec A h hk hobjects hp hstop
    right
    refine ⟨w', none, ?_, _, ?_, released_of_append (g := ⟨f.block, older⟩) h rfl hfreed⟩
    · change (obstackFree A w obj).map (·, none) = _
      rw [hfree]
      rfl
    · change Inv k w' (s.drop ended) _
      rw [hdrop]
      exact hinv
  | freeAll =>
    obtain ⟨w', hfree, hinv, hfreed, _⟩ := obstackFree_null A h hk
    right
    refine ⟨w', none, ?_, [], hinv, fs.map Frame.block, hfreed, by simp⟩
    change (free A w 0).map (·, none) = _
    unfold free
    rw [if_neg (by omega), hfree]
    rfl

end Step

end MuslBsd.Obstack
