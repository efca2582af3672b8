import MuslBsd.Obstack.Alignment

/-! The macro `obstack_free` and the function `_obstack_free`: what they do at once, and what can be
told of them later. -/
namespace MuslBsd.Obstack
open MuslBsd.Support

variable {A : Allocator} {k : ℕ} {w w' : World} {s : Stack} {fs gs : List Frame} {f : Frame} {p : ℕ}

/-! ### One call -/

/-- A chunk that is to stay is found at once. -/
theorem releaseWhile_stay (A : Allocator) (go : ℕ → Chunk → Bool) (each : World → World) (fuel : ℕ)
    {chunk : ℕ} {c : Chunk} (hne : chunk ≠ 0) (hc : w.chunkAt chunk = some c) (hgo : go chunk c = false) :
    releaseWhile A go each (fuel + 1) w chunk = .ok (w, chunk) := by
  unfold releaseWhile
  rw [if_neg hne, hc]
  dsimp only
  rw [hgo]
  rfl

/-- The macro and the function leave worlds that differ in two flags only. -/
theorem free_eq (h : Inv k w s (gs ++ f :: fs)) (hk : k < 64) (hlo : f.block.addr < p)
    (hstop : p ≤ f.block.stop) :
    ∃ wm wf, free A w p = .ok wm ∧ obstackFree A w p = .ok wf ∧
      wf = { wm with ob := { wm.ob with maybeEmptyObject := true, allocFailed := false } } ∧
      wm.ob.objectBase = p ∧ wm.ob.nextFree = p ∧ wm.ob.chunkLimit = f.block.stop := by
  unfold free
  by_cases hfast : p > w.ob.chunk ∧ p < w.ob.chunkLimit
  · rw [if_pos hfast]
    obtain rfl : gs = [] := h.first_of_inline hlo hstop hfast.1 hfast.2
    obtain ⟨hchunk, prev, hc, _⟩ := h.linked
    have hlimit : w.ob.chunkLimit = f.block.stop := h.top.1
    have hne : w.ob.chunk ≠ 0 := by
      rw [hchunk]
      exact Nat.ne_of_gt (h.block f List.mem_cons_self).1
    have hstay : decide (w.ob.chunk ≥ p ∨ f.block.stop < p) = false := by
      apply decide_eq_false
      omega
    have hrun := releaseWhile_stay A (fun chunk c => chunk ≥ p ∨ c.limit < p) markEmpty
      w.blocks.length hne hc hstay
    refine ⟨_, _, rfl, ?_, rfl, rfl, rfl, hlimit⟩
    unfold obstackFree
    rw [if_neg hne, if_neg (by omega), hrun, ok_bind]
    dsimp only
    rw [hc, hlimit]
  · rw [if_neg hfast]
    obtain ⟨v, _, hrun⟩ := obstackFree_eq A h hk hlo hstop
    exact ⟨_, _, hrun, hrun, rfl, rfl, rfl, rfl⟩

/-- The address is in the block as `_obstack_free` tells it: past the start and not past the end. -/
def Within (p : ℕ) (b : Block) : Prop := b.addr < p ∧ p ≤ b.stop

/-- For any address but the null pointer `_obstack_free` finds its chunk, or else has released all
of them and aborts. -/
theorem obstackFree_cases (A : Allocator) (h : Inv k w s fs) (hk : k < 64) (hp : p ≠ 0) :
    (obstackFree A w p = .error .abort ∧ fs ≠ [] ∧ ∀ f ∈ fs, ¬Within p f.block) ∨
      (∃ w', obstackFree A w p = .ok w') ∧ (fs = [] ∨ ∃ f ∈ fs, Within p f.block) := by
  by_cases hin : ∃ f ∈ fs, Within p f.block
  · right
    obtain ⟨f, hf, hlo, hstop⟩ := hin
    obtain ⟨gs, rest, rfl⟩ := List.append_of_mem hf
    obtain ⟨v, _, hrun⟩ := obstackFree_eq A h hk hlo hstop
    exact ⟨⟨_, hrun⟩, .inr ⟨f, hf, hlo, hstop⟩⟩
  · cases fs with
    | nil =>
      right
      have hchunk : w.ob.chunk = 0 := h.linked
      refine ⟨⟨w, ?_⟩, .inl rfl⟩
      unfold obstackFree
      rw [if_pos hchunk]
    | cons g fs =>
      left
      have hnone : ∀ f ∈ g :: fs, ¬Within p f.block := fun f hf hw => hin ⟨f, hf, hw⟩
      refine ⟨?_, List.cons_ne_nil g fs, hnone⟩
      have hne : w.ob.chunk ≠ 0 := by
        rw [h.chunk_eq]
        exact Nat.ne_of_gt (h.block g List.mem_cons_self).1
      have hlen := h.length_le
      have hnil : g :: fs ++ [] = g :: fs := List.append_nil _
      obtain ⟨v, hrun, hv⟩ := releaseWhile_spec A (fun chunk c => chunk ≥ p ∨ c.limit < p)
        unwound_markEmpty (g :: fs) [] (show (g :: fs).length < w.blocks.length + 1 by omega)
        (by rw [hnil]; exact h.linked) (by rw [hnil]; exact h.nodup hk) h.nodup_blocks
        (by rw [hnil]; exact h.accounts) (by rw [hnil]; exact fun f hf => (h.block f hf).1)
        (by
          intro f hf prev
          have hout := hnone f hf
          unfold Within at hout
          apply decide_eq_true
          dsimp only
          omega)
        (by simp)
      have hzero : v.chunkAt 0 = none := by
        rw [hv.chunkAt, h.chunkAt_zero, ite_self]
      unfold obstackFree
      rw [if_neg hne, if_neg hp, hrun, ok_bind]
      dsimp only [List.head?_nil, Option.map_none, Option.getD_none]
      rw [hzero]

/-! ### Whether there is a chunk -/

/-- Whether an operation gets an obstack without chunks a first one. -/
def Op.opens : Op → Bool
  | .newchunk _ => true
  | op => 0 < asked op

def Op.clears : Op → Bool
  | .freeAll => true
  | _ => false

theorem newchunk_chunk {length : ℕ} (h : newchunk A w length = .ok w') : w'.ob.chunk ≠ 0 := by
  simp only [newchunk, bind_eq_ok] at h
  obtain ⟨n, -, ⟨v, addr⟩, hv, u, -, t, -, h⟩ := h
  obtain rfl := Except.ok.inj h
  cases ha : A.chunkfun w n with
  | none =>
    unfold callChunkfun at hv
    rw [ha] at hv
    cases hv
  | some addr' =>
    rw [callChunkfun_some A ha] at hv
    obtain ⟨-, rfl⟩ := Prod.mk.inj (Except.ok.inj hv)
    exact Nat.ne_of_gt (A.fresh w n addr' ha).1

theorem Inv.room_zero (h : Inv k w s fs) (hchunk : w.ob.chunk = 0) : room w = 0 := by
  rw [h.chunk_eq] at hchunk
  have hroom := h.room_eq
  cases fs with
  | nil =>
    have hlimit := h.top.2.1
    omega
  | cons f fs => exact absurd hchunk (Nat.ne_of_gt (h.block f List.mem_cons_self).1)

theorem Inv.base_zero (h : Inv k w s fs) (hk : k < 64) :
    w.ob.objectBase = 0 ↔ w.ob.chunk = 0 := by
  rw [h.chunk_eq]
  cases fs with
  | nil => simp [h.top.1]
  | cons f fs =>
    obtain ⟨_, _, hp, _⟩ := h.top
    obtain ⟨hstart, _⟩ := h.bounds hk (f := f) List.mem_cons_self
    have hpos := (h.block f List.mem_cons_self).1
    have hlo := hp.le
    simp only [List.head?_cons, Option.map_some, Option.getD_some]
    omega

theorem makeRoom_chunk (h : Inv k w s fs) {length : ℕ} (hr : makeRoom A w length = .ok w') :
    w'.ob.chunk = 0 ↔ w.ob.chunk = 0 ∧ length = 0 := by
  unfold makeRoom at hr
  by_cases hroom : room w < length
  · rw [if_pos hroom] at hr
    have hne := newchunk_chunk hr
    constructor
    · intro hz
      exact absurd hz hne
    · intro ⟨_, hz⟩
      omega
  · rw [if_neg hroom] at hr
    obtain rfl := Except.ok.inj hr
    constructor
    · intro hz
      have := h.room_zero hz
      exact ⟨hz, by omega⟩
    · exact And.left

theorem RoomMade.chunk (h : Inv k w s fs) {op : Op} (hr : RoomMade A w w' op) :
    w'.ob.chunk = 0 ↔ w.ob.chunk = 0 ∧ op.opens = false := by
  have hmade : ∀ n, makeRoom A w n = .ok w' →
      (w'.ob.chunk = 0 ↔ w.ob.chunk = 0 ∧ decide (0 < n) = false) := by
    intro n hn
    rw [makeRoom_chunk h hn, decide_eq_false_iff_not, Nat.pos_iff_ne_zero, not_not]
  cases op with
  | newchunk length =>
    have hne := newchunk_chunk hr
    simp [hne, Op.opens]
  | _ => exact hmade _ hr

/-- A chunk is there after a free to an address in one. -/
theorem free_chunk (h : Inv k w s fs) (hk : k < 64) {n : ℕ} (hp : Freeable w s p n) :
    w.ob.chunk ≠ 0 ∧ (∀ w', free A w p = .ok w' → w'.ob.chunk ≠ 0) ∧
      ∀ w', obstackFree A w p = .ok w' → w'.ob.chunk ≠ 0 := by
  obtain ⟨gs, f, rest, newer, older, rfl, hobjects, hpacked, hstop, _⟩ := Freeable.split h hp
  obtain ⟨hstart, _⟩ := h.bounds hk (f := f) (by simp)
  have hpos := (h.block f (by simp)).1
  have hlo := hpacked.le
  unfold contents at hstart
  obtain ⟨wm, wf, hfree, hfun, rfl, hbase, _⟩ := free_eq (A := A) h hk (by omega) hstop
  have hne : w.ob.chunk ≠ 0 := by
    rw [h.chunk_eq]
    cases gs with
    | nil => exact Nat.ne_of_gt hpos
    | cons g gs => exact Nat.ne_of_gt (h.block g (by simp)).1
  obtain ⟨v, hv, hinv, _⟩ := free_spec A h hk hobjects hpacked hstop
  rw [hfree] at hv
  obtain rfl := Except.ok.inj hv
  have hleft : wm.ob.chunk ≠ 0 := by
    intro hz
    have := (hinv.base_zero hk).mpr hz
    omega
  refine ⟨hne, ?_, ?_⟩
  · intro w' hw'
    rw [hfree] at hw'
    rwa [← Except.ok.inj hw']
  · intro w' hw'
    rw [hfun] at hw'
    rwa [← Except.ok.inj hw']

/-- Whether there is a chunk after an operation depends only on whether there was one. -/
theorem exec_chunk (h : Inv k w s fs) (hk : k < 64) {op : Op} (hop : Allowed w s op)
    {result : Option ℕ} (hexec : exec A w op = .ok (w', result)) :
    w'.ob.chunk = 0 ↔ op.clears = true ∨ w.ob.chunk = 0 ∧ op.opens = false := by
  by_cases hg : op.growing
  · obtain ⟨v, hroom, hkept⟩ := exec_kept hop hg hexec
    have hclears : op.clears = false := by
      cases op with
      | freeAll => cases hg
      | _ => rfl
    rw [hkept.chunk, hroom.chunk h, hclears]
    simp
  by_cases hf : op.finishing
  · obtain ⟨v, hv, rfl, rfl⟩ := exec_finishing hf hexec
    obtain ⟨u, hroom, hkept⟩ := exec_kept (hop.before hf) op.before_growing hv
    have hsame : op.before.opens = op.opens ∧ op.clears = false := by
      cases op with
      | finish | copy _ | copy0 _ | alloc _ => exact ⟨rfl, rfl⟩
      | _ => cases hf
    have hchunk : (finish v).1.ob.chunk = v.ob.chunk := rfl
    rw [hchunk, hkept.chunk, hroom.chunk h, hsame.1, hsame.2]
    simp
  · cases op with
    | free obj ended =>
      obtain ⟨hne, hfree, _⟩ := free_chunk (A := A) h hk hop
      simp [hne, hfree _ (map_none_eq_ok hexec), Op.clears]
    | obstackFree obj ended =>
      obtain ⟨hne, _, hfree⟩ := free_chunk (A := A) h hk hop
      simp [hne, hfree _ (map_none_eq_ok hexec), Op.clears]
    | freeAll =>
      obtain ⟨v, hv, hempty, _⟩ := obstackFree_null A h hk
      have hrun := map_none_eq_ok hexec
      unfold free at hrun
      rw [if_neg (by omega), hv] at hrun
      obtain rfl := Except.ok.inj hrun
      have hzero : v.ob.chunk = 0 := hempty.linked
      simp [hzero, Op.clears]
    | finish | copy _ | copy0 _ | alloc _ => exact absurd rfl hf
    | _ => exact absurd rfl hg

/-! ### Pairs of runs -/

/-- The bytes of the growing object and of the live ones, wherever they are. -/
def Stack.contents (s : Stack) : List (Option UInt8) × List (List (Option UInt8)) :=
  (s.growing, s.live.map Obj.bytes)

/-- An allowed operation returns and leads from one state to another. -/
structure Takes (A : Allocator) (op : Op) (result : Option ℕ) (st st' : World × Stack) : Prop where
  allowed : Allowed st.1 st.2 op
  returns : exec A st.1 op = .ok (st'.1, result)
  after : st'.2 = st.2.after result op

/-- The same call in two runs. Where an object is freed its address need not be the same. -/
inductive SameCall : Op → Op → Prop
  | same (op : Op) : SameCall op op
  | free (obj obj' ended : ℕ) : SameCall (.free obj ended) (.free obj' ended)
  | obstackFree (obj obj' ended : ℕ) : SameCall (.obstackFree obj ended) (.obstackFree obj' ended)

/-- The numbers returned are the same. Pointers are null in both runs or in none. -/
def SameResult (op : Op) (result result' : Option ℕ) : Prop :=
  if op.finishing then
    result.map (fun p => decide (p = 0)) = result'.map (fun p => decide (p = 0))
  else result = result'

/-- Two runs in which the same calls are made and return. -/
def Pairs (A : Allocator) (st st' : World × Stack) :
    (World × Stack) × (World × Stack) → Prop :=
  Reachable (· = (st, st')) fun t t' => ∃ op op' result result', SameCall op op' ∧
    Takes A op result t.1 t'.1 ∧ Takes A op' result' t.2 t'.2

/-- No block has been released that contains an object that is still live. -/
def KeepsLive (st st' : World × Stack) : Prop :=
  ∀ b ∈ st'.1.freed.drop st.1.freed.length, ∀ o ∈ st'.2.live, ¬Contains b.toExtent o

/-- The objects are in memory. An operation returns, and then no chunk of a live object has been
released, or the handler is called because no chunk is to be had. -/
structure Sound (A : Allocator) (st : World × Stack) : Prop where
  represents : Represents st.1 st.2
  operation : ∀ op, Allowed st.1 st.2 op →
    (exec A st.1 op = .error .allocFailed ∧ ¬CanAlloc A st.1 (asked op)) ∨
      ∃ result st', Takes A op result st st'
  keeps : ∀ op result st', Takes A op result st st' → KeepsLive st st'

/-- What a caller can tell of two obstacks: the contents are the same, and the same calls return the
same. -/
structure Indistinct (A : Allocator) (st st' : World × Stack) : Prop where
  contents : st.2.contents = st'.2.contents
  results : ∀ op op' result result' u u', SameCall op op' → Takes A op result st u →
    Takes A op' result' st' u' → SameResult op result result'

section Pairs

variable {st st' u u' : World × Stack} {op op' : Op} {result result' : Option ℕ}

theorem Inv.sound (h : Inv k st.1 st.2 fs) (hk : k < 64) : Sound A st := by
  refine ⟨h.represents hk, ?_, ?_⟩
  · intro op hop
    rcases meets h hk hop with herr | ⟨w', result, hrun, _⟩
    · exact .inl herr
    · exact .inr ⟨result, (w', st.2.after result op), hop, hrun, rfl⟩
  · intro op result st' ht
    rcases meets h hk ht.allowed with ⟨herr, _⟩ | ⟨w', r, hrun, hholds⟩
    · rw [ht.returns] at herr
      cases herr
    · rw [ht.returns] at hrun
      obtain ⟨rfl, rfl⟩ := Prod.mk.inj (Except.ok.inj hrun)
      unfold KeepsLive
      rw [ht.after]
      exact hholds.not_contains hk

/-- What an operation returns besides bytes: a number that depends on the call alone, or a pointer
that is null when there is no chunk. -/
def Op.number : Op → Option ℕ
  | .printf calls => printed calls
  | _ => none

theorem map_none_result {r : Except Stop World} (h : r.map (·, none) = .ok (w', result)) :
    result = none := by
  cases r with
  | error e => cases h
  | ok v => exact (Prod.mk.inj (Except.ok.inj h)).2.symm

theorem exec_number (hop : Allowed w s op) (hf : op.finishing = false)
    (hexec : exec A w op = .ok (w', result)) : result = op.number := by
  cases op with
  | printf calls => exact (vprintf_kept hop hexec).2
  | blankFast length => exact (Prod.mk.inj (Except.ok.inj hexec)).2.symm
  | finish | copy _ | copy0 _ | alloc _ => cases hf
  | _ => exact map_none_result hexec

theorem exec_pointer (h : Inv k w s fs) (hk : k < 64) (hop : Allowed w s op) (hf : op.finishing)
    (hexec : exec A w op = .ok (w', result)) :
    ∃ p, result = some p ∧ (p = 0 ↔ w'.ob.chunk = 0) := by
  obtain ⟨v, hv, rfl, rfl⟩ := exec_finishing hf hexec
  obtain ⟨fs', hinv⟩ := h.exec hk (hop.before hf) hv
  exact ⟨_, rfl, hinv.base_zero hk⟩

theorem SameCall.chunk (h : SameCall op op') : op.clears = op'.clears ∧ op.opens = op'.opens := by
  cases h with
  | same => exact ⟨rfl, rfl⟩
  | free => exact ⟨rfl, rfl⟩
  | obstackFree => exact ⟨rfl, rfl⟩

section Contents

variable {s s' : Stack}

theorem growing_eq (hs : s.contents = s'.contents) : s.growing = s'.growing := congrArg Prod.fst hs

theorem live_eq (hs : s.contents = s'.contents) :
    s.live.map Obj.bytes = s'.live.map Obj.bytes := congrArg Prod.snd hs

theorem contents_append (hs : s.contents = s'.contents) (l : List (Option UInt8)) :
    (s.append l).contents = (s'.append l).contents :=
  Prod.ext (congrArg (· ++ l) (growing_eq hs)) (show s.live.map _ = s'.live.map _ from live_eq hs)

theorem contents_fill (hs : s.contents = s'.contents) (offset : ℕ) (bytes : List UInt8) :
    (s.fill offset bytes).contents = (s'.fill offset bytes).contents := by
  have hgrowing := growing_eq hs
  have hlive := live_eq hs
  unfold Stack.contents Stack.fill
  rw [hgrowing]
  exact Prod.ext rfl hlive

theorem contents_drop (hs : s.contents = s'.contents) (n : ℕ) :
    (s.drop n).contents = (s'.drop n).contents := by
  have hlive : (s.live.drop n).map Obj.bytes = (s'.live.drop n).map Obj.bytes := by
    rw [List.map_drop, List.map_drop, live_eq hs]
  exact Prod.ext rfl hlive

theorem contents_finish (hs : s.contents = s'.contents) {addr addr' : ℕ}
    (ha : addr = 0 ↔ addr' = 0) :
    (s.finish addr).contents = (s'.finish addr').contents := by
  have hgrowing := growing_eq hs
  have hlive := live_eq hs
  unfold Stack.contents Stack.finish
  by_cases hz : addr = 0
  · rw [if_pos hz, if_pos (ha.mp hz), hlive]
  · rw [if_neg hz, if_neg (fun h => hz (ha.mpr h)), List.map_cons, List.map_cons, hgrowing, hlive]

theorem contents_growing (hs : s.contents = s'.contents) {op : Op} (hg : op.growing)
    (result : Option ℕ) :
    (s.after result op).contents = (s'.after result op).contents := by
  cases op with
  | makeRoom length => exact hs
  | newchunk length => exact hs
  | fill offset bytes => exact contents_fill hs offset bytes
  | printf calls =>
    unfold Stack.after
    dsimp only
    split
    · exact contents_append hs _
    · exact hs
  | finish | copy _ | copy0 _ | alloc _ | free _ _ | obstackFree _ _ | freeAll => cases hg
  | _ => exact contents_append hs _

end Contents

theorem SameResult.null (h : SameResult op result result') (hf : op.finishing) :
    result.getD 0 = 0 ↔ result'.getD 0 = 0 := by
  unfold SameResult at h
  rw [if_pos hf] at h
  cases result with
  | none =>
    cases result' with
    | none => exact Iff.rfl
    | some q => cases h
  | some p =>
    cases result' with
    | none => cases h
    | some q => exact decide_eq_decide.mp (Option.some.inj h)

/-- The same call does the same to the contents. -/
theorem SameCall.contents (h : SameCall op op') (hr : SameResult op result result') {s s' : Stack}
    (hs : s.contents = s'.contents) :
    (s.after result op).contents = (s'.after result' op').contents := by
  cases h with
  | free obj obj' ended => exact contents_drop hs ended
  | obstackFree obj obj' ended => exact contents_drop hs ended
  | same =>
    by_cases hg : op.growing
    · have hf : op.finishing = false := by
        cases op with
        | finish | copy _ | copy0 _ | alloc _ => cases hg
        | _ => rfl
      unfold SameResult at hr
      rw [hf, if_neg Bool.false_ne_true] at hr
      rw [hr]
      exact contents_growing hs hg result'
    by_cases hf : op.finishing
    · rw [after_finishing hf, after_finishing hf]
      exact contents_finish (contents_growing hs op.before_growing none) (hr.null hf)
    · cases op with
      | free obj ended => exact contents_drop hs ended
      | obstackFree obj ended => exact contents_drop hs ended
      | freeAll => rfl
      | finish | copy _ | copy0 _ | alloc _ => exact absurd rfl hf
      | _ => exact absurd rfl hg

/-- Two obstacks with the same contents, both with chunks or both without. -/
structure Matched (k : ℕ) (st st' : World × Stack) : Prop where
  first : ∃ fs, Inv k st.1 st.2 fs
  second : ∃ fs, Inv k st'.1 st'.2 fs
  contents : st.2.contents = st'.2.contents
  chunk : st.1.ob.chunk = 0 ↔ st'.1.ob.chunk = 0

theorem Matched.next_chunk (h : Matched k st st') (hk : k < 64) (hc : SameCall op op')
    (hu : Takes A op result st u) (hu' : Takes A op' result' st' u') :
    u.1.ob.chunk = 0 ↔ u'.1.ob.chunk = 0 := by
  obtain ⟨fs, hinv⟩ := h.first
  obtain ⟨fs', hinv'⟩ := h.second
  rw [exec_chunk hinv hk hu.allowed hu.returns, exec_chunk hinv' hk hu'.allowed hu'.returns,
    hc.chunk.1, hc.chunk.2, h.chunk]

theorem Matched.same_result (h : Matched k st st') (hk : k < 64) (hc : SameCall op op')
    (hu : Takes A op result st u) (hu' : Takes A op' result' st' u') :
    SameResult op result result' := by
  have hchunk := h.next_chunk hk hc hu hu'
  obtain ⟨fs, hinv⟩ := h.first
  obtain ⟨fs', hinv'⟩ := h.second
  cases hc with
  | free obj obj' ended =>
    rw [exec_number hu.allowed rfl hu.returns, exec_number hu'.allowed rfl hu'.returns]
    rfl
  | obstackFree obj obj' ended =>
    rw [exec_number hu.allowed rfl hu.returns, exec_number hu'.allowed rfl hu'.returns]
    rfl
  | same =>
    unfold SameResult
    by_cases hf : op.finishing
    · obtain ⟨p, rfl, hp⟩ := exec_pointer hinv hk hu.allowed hf hu.returns
      obtain ⟨p', rfl, hp'⟩ := exec_pointer hinv' hk hu'.allowed hf hu'.returns
      rw [if_pos hf, Option.map_some, Option.map_some, decide_eq_decide.mpr]
      rw [hp, hp', hchunk]
    · have hnot := Bool.eq_false_iff.mpr hf
      rw [if_neg hf, exec_number hu.allowed hnot hu.returns, exec_number hu'.allowed hnot hu'.returns]

theorem Matched.next (h : Matched k st st') (hk : k < 64) (hc : SameCall op op')
    (hu : Takes A op result st u) (hu' : Takes A op' result' st' u') : Matched k u u' := by
  have hresult := h.same_result hk hc hu hu'
  have hchunk := h.next_chunk hk hc hu hu'
  obtain ⟨fs, hinv⟩ := h.first
  obtain ⟨fs', hinv'⟩ := h.second
  obtain ⟨gs, hnext⟩ := hinv.exec hk hu.allowed hu.returns
  obtain ⟨gs', hnext'⟩ := hinv'.exec hk hu'.allowed hu'.returns
  rw [← hu.after] at hnext
  rw [← hu'.after] at hnext'
  have hcontents := hc.contents hresult h.contents
  rw [← hu.after, ← hu'.after] at hcontents
  exact ⟨⟨gs, hnext⟩, ⟨gs', hnext'⟩, hcontents, hchunk⟩

theorem Matched.indistinct (h : Matched k st st') (hk : k < 64) :
    Sound A st ∧ Sound A st' ∧ Indistinct A st st' := by
  obtain ⟨fs, hinv⟩ := h.first
  obtain ⟨fs', hinv'⟩ := h.second
  refine ⟨hinv.sound hk, hinv'.sound hk, h.contents, ?_⟩
  intro op op' result result' u u' hc hu hu'
  exact h.same_result hk hc hu hu'

/-- What no step of a pair of runs tells apart, no pair of runs does. -/
theorem Matched.pairs (h : Matched k st st') (hk : k < 64)
    {t : (World × Stack) × (World × Stack)} (ht : Pairs A st st' t) : Matched k t.1 t.2 := by
  apply Reachable.invariant (P := fun t => Matched k t.1 t.2) _ _ ht
  · intro t ht
    rw [ht]
    exact h
  · intro t t' hm ⟨op, op', result, result', hc, hu, hu'⟩
    exact hm.next hk hc hu hu'

end Pairs

/-! ### The list of chunks -/

/-- The chunks on the list, the first one first. -/
def chunkList (w : World) : List Chunk := chunksFrom w (w.blocks.length + 1) w.ob.chunk

theorem chunksFrom_limit {chunk fuel : ℕ} (h : Linked w.chunkAt chunk fs)
    (h0 : w.chunkAt 0 = none) : ∀ c ∈ chunksFrom w fuel chunk, c.limit = c.block.stop := by
  induction fs generalizing chunk fuel with
  | nil =>
    have hchunk : chunk = 0 := h
    cases fuel with
    | zero => simp [chunksFrom]
    | succ fuel => simp [chunksFrom, hchunk, h0]
  | cons f fs ih =>
    obtain ⟨rfl, prev, hc, hprev⟩ := h
    cases fuel with
    | zero => simp [chunksFrom]
    | succ fuel =>
      unfold chunksFrom
      rw [hc]
      intro c hmem
      rcases List.mem_cons.mp hmem with rfl | hmem
      · rfl
      · exact ih hprev c hmem

/-- The address is in the chunk as `_obstack_free` tells it. -/
def Chunk.Holds (c : Chunk) (p : ℕ) : Prop := c.block.addr < p ∧ p ≤ c.limit

theorem Inv.within_iff (h : Inv k w s fs) :
    (∃ c ∈ chunkList w, c.Holds p) ↔ ∃ f ∈ fs, Within p f.block := by
  have hlimit : ∀ c ∈ chunkList w, c.limit = c.block.stop :=
    chunksFrom_limit h.linked h.chunkAt_zero
  have hblocks : (chunkList w).map Chunk.block = fs.map Frame.block := h.onList_eq
  constructor
  · intro ⟨c, hc, hlo, hhi⟩
    have hmem : c.block ∈ fs.map Frame.block := hblocks ▸ List.mem_map_of_mem hc
    obtain ⟨f, hf, hfc⟩ := List.mem_map.mp hmem
    rw [hlimit c hc] at hhi
    exact ⟨f, hf, hfc ▸ ⟨hlo, hhi⟩⟩
  · intro ⟨f, hf, hlo, hhi⟩
    have hmem : f.block ∈ (chunkList w).map Chunk.block := hblocks ▸ List.mem_map_of_mem hf
    obtain ⟨c, hc, hcf⟩ := List.mem_map.mp hmem
    rw [← hcf] at hlo hhi
    exact ⟨c, hc, hlo, hlimit c hc ▸ hhi⟩

/-! ### The two ways to free -/

/-- The macro leaves `wm` and the function `wf`, which are the same but for two flags: the address
is where the next object starts, the chunks before the one that holds it have been released, and the
objects older than what was freed are in memory. -/
structure FreedTo (A : Allocator) (w : World) (obj : ℕ) (older : List Obj) (wm wf : World) :
    Prop where
  inline : free A w obj = .ok wm
  call : obstackFree A w obj = .ok wf
  flags : wf = { wm with ob := { wm.ob with maybeEmptyObject := true, allocFailed := false } }
  base : wm.ob.objectBase = obj
  next : wm.ob.nextFree = obj
  chunks : ∃ newer b rest, onList w = newer ++ b :: rest ∧ Within obj b ∧
    onList wm = b :: rest ∧ wm.ob.chunkLimit = b.stop ∧ wm.freed = w.freed ++ newer ∧
    ∀ c ∈ newer, ∀ o ∈ older, ¬Contains c.toExtent o
  kept : ∀ o ∈ older, wm.mem.Holds o.addr o.bytes

/-- A free in a live object leaves two worlds with the same object stack. -/
theorem freed_to (h : Inv k w s fs) (hk : k < 64) {n : ℕ} (hp : Freeable w s p n) :
    ∃ wm wf, FreedTo A w p (s.drop n).live wm wf ∧
      Matched k (wm, ⟨[], (s.drop n).live⟩) (wf, ⟨[], (s.drop n).live⟩) := by
  obtain ⟨gs, f, rest, newer, older, rfl, hobjects, hpacked, hstop, hdrop⟩ := Freeable.split h hp
  obtain ⟨hstart, _⟩ := h.bounds hk (f := f) (by simp)
  have hlo := hpacked.le
  unfold contents at hstart
  obtain ⟨wm, wf, hfree, hcall, hflags, hbase, hnext, hlimit⟩ :=
    free_eq (A := A) h hk (by omega) hstop
  obtain ⟨v, hv, hinv, hfreed⟩ := free_spec A h hk hobjects hpacked hstop
  obtain ⟨v', hv', hinv', hfreed'⟩ := obstackFree_spec A h hk hobjects hpacked hstop
  rw [hfree] at hv
  obtain rfl := Except.ok.inj hv
  rw [hcall] at hv'
  obtain rfl := Except.ok.inj hv'
  rw [hdrop]
  refine ⟨wm, wf, ⟨hfree, hcall, hflags, hbase, hnext, ?_, hinv.held⟩, ⟨_, hinv⟩, ⟨_, hinv'⟩, rfl, ?_⟩
  · have hreleased := released_of_append (g := ⟨f.block, older⟩) h rfl hfreed
    have hout := Holds.not_contains ⟨_, hinv, hreleased⟩ hk
    rw [hfreed, List.drop_left] at hout
    refine ⟨gs.map Frame.block, f.block, rest.map Frame.block, ?_, ⟨by omega, hstop⟩, ?_, hlimit,
      hfreed, hout⟩
    · rw [h.onList_eq, List.map_append, List.map_cons]
    · rw [hinv.onList_eq, List.map_cons]
  · rw [hflags]

/-- Freeing to a live object or into one is the same by the macro and by the function, and remains
so whatever is done next. For any other address `_obstack_free` returns when there is no chunk, and
aborts when none holds the address. -/
theorem free_paths_agree {ob : Head} {mem : Memory} {size alignment : ℕ}
    (hal : IsAlignment alignment) (hfits : Fits A ob mem size alignment)
    (h : Run A ob mem size alignment (w, s)) :
    (∀ newer o older obj, s.live = newer ++ o :: older → o.addr ≤ obj →
      (obj = o.addr ∨ obj < o.extent.stop) → ∃ wm wf, FreedTo A w obj older wm wf ∧
        ∀ t, Pairs A (wm, ⟨[], older⟩) (wf, ⟨[], older⟩) t →
          Sound A t.1 ∧ Sound A t.2 ∧ Indistinct A t.1 t.2) ∧
      ∀ obj, obj ≠ 0 → obstackFree A w obj ≠ .error .wild ∧
        (obstackFree A w obj = .error .abort ↔
          chunkList w ≠ [] ∧ ¬∃ c ∈ chunkList w, c.Holds obj) := by
  obtain ⟨k, hk, hpow⟩ := hal.exists_pow
  obtain ⟨fs, hinv⟩ := Run.inv hk hpow hfits h
  constructor
  · intro newer o older obj hlive hlo hhi
    have hp : Freeable w s obj (newer.length + 1) := .inl ⟨newer, o, older, hlive, rfl, hlo, hhi⟩
    have hdrop : (s.drop (newer.length + 1)).live = older := by
      unfold Stack.drop
      rw [hlive]
      simp
    obtain ⟨wm, wf, hfreed, hmatched⟩ := freed_to (A := A) hinv hk hp
    rw [hdrop] at hfreed hmatched
    exact ⟨wm, wf, hfreed, fun t ht => (hmatched.pairs hk ht).indistinct hk⟩
  · intro obj hobj
    have hempty : chunkList w = [] ↔ fs = [] := by
      have hblocks : (chunkList w).map Chunk.block = fs.map Frame.block := hinv.onList_eq
      rw [← List.map_eq_nil_iff (f := Chunk.block), hblocks, List.map_eq_nil_iff]
    rw [hinv.within_iff, ne_eq, ne_eq, hempty]
    rcases obstackFree_cases A hinv hk hobj with ⟨habort, hne, hnone⟩ | ⟨⟨w', hok⟩, hin⟩
    · rw [habort]
      refine ⟨by simp, fun _ => ⟨hne, ?_⟩, fun _ => rfl⟩
      intro ⟨f, hf, hw⟩
      exact hnone f hf hw
    · rw [hok]
      refine ⟨by simp, fun h => (by cases h), ?_⟩
      intro ⟨hne, hnone⟩
      rcases hin with hnil | hin
      · exact absurd hnil hne
      · exact absurd hin hnone

theorem free_paths_agree_inside : ∃ w wm wf, FreedTo bump w 4113 [] wm wf ∧
    ∀ t, Pairs bump (wm, ⟨[], []⟩) (wf, ⟨[], []⟩) t → Indistinct bump t.1 t.2 := by
  obtain ⟨w, hrun⟩ := finished_run
  obtain ⟨wm, wf, hfreed, hpairs⟩ := (free_paths_agree (.inl rfl) bump_fits hrun).1
    [] ⟨4112, [some 72, some 105]⟩ [] 4113 rfl (by decide) (.inr (by decide))
  exact ⟨w, wm, wf, hfreed, fun t ht => (hpairs t ht).2.2⟩

end MuslBsd.Obstack
