import MuslBsd.Obstack.Guarantees

/-! Where finished objects start: at multiples of the alignment, or with no bytes at the end of their
chunk. -/
namespace MuslBsd.Obstack
open MuslBsd.Support

variable {A : Allocator} {k : ℕ} {w w' w'' : World} {s s' : Stack} {fs fs' : List Frame}

theorem bind_eq_ok {α β : Type} {x : Except Stop α} {f : α → Except Stop β} {b : β} :
    x >>= f = .ok b ↔ ∃ a, x = .ok a ∧ f a = .ok b := by
  cases x with
  | error e => simp [bind, Except.bind]
  | ok a => simp [bind, Except.bind]

theorem map_none_eq_ok {r : Except Stop World} {result : Option ℕ}
    (h : r.map (·, none) = .ok (w', result)) : r = .ok w' := by
  cases r with
  | error e => cases h
  | ok v =>
    obtain ⟨rfl, _⟩ := Prod.mk.inj (Except.ok.inj h)
    rfl

/-! ### What operations that return have done to the fields -/

/-- The object and its chunk stay where they are, and so do all chunks. -/
structure Kept (w w' : World) : Prop where
  base : w'.ob.objectBase = w.ob.objectBase
  limit : w'.ob.chunkLimit = w.ob.chunkLimit
  chunk : w'.ob.chunk = w.ob.chunk
  chunks : w'.chunkAt = w.chunkAt

/-- The object stays where it is or is at an aligned address, and every chunk is an old one or new. -/
structure Grown (k : ℕ) (w w' : World) : Prop where
  base : (w'.ob.objectBase = w.ob.objectBase ∧ w'.ob.chunkLimit = w.ob.chunkLimit) ∨
    2 ^ k ∣ w'.ob.objectBase
  chunks : ∀ a c', w'.chunkAt a = some c' → (∃ c, w.chunkAt a = some c ∧ c.block = c'.block) ∨
    ∀ b, w.Outstanding b → c'.block.toExtent.Apart b.toExtent

theorem Kept.refl (w : World) : Kept w w := ⟨rfl, rfl, rfl, rfl⟩

theorem Kept.trans (h : Kept w w') (h' : Kept w' w'') : Kept w w'' :=
  ⟨h'.base.trans h.base, h'.limit.trans h.limit, h'.chunk.trans h.chunk, h'.chunks.trans h.chunks⟩

theorem Kept.grown (k : ℕ) (h : Kept w w') : Grown k w w' := by
  refine ⟨.inl ⟨h.base, h.limit⟩, fun a c' hc => .inl ⟨c', ?_, rfl⟩⟩
  rw [← h.chunks]
  exact hc

theorem Grown.kept (h : Grown k w w') (h' : Kept w' w'') : Grown k w w'' := by
  refine ⟨?_, fun a c' hc => h.chunks a c' (h'.chunks ▸ hc)⟩
  rw [h'.base, h'.limit]
  exact h.base

theorem store_kept {chunk p : ℕ} {bytes : List UInt8} (h : w.store chunk p bytes = .ok w') :
    Kept w w' := by
  unfold World.store at h
  split at h
  · obtain rfl := Except.ok.inj h
    exact ⟨rfl, rfl, rfl, rfl⟩
  · cases h

theorem advance_kept (w : World) (n : ℕ) : Kept w (advance w n) := ⟨rfl, rfl, rfl, rfl⟩

theorem put_kept {bytes : List UInt8} (h : put w bytes = .ok w') : Kept w w' := by
  simp only [put, bind_eq_ok] at h
  obtain ⟨v, hv, h⟩ := h
  obtain rfl := Except.ok.inj h
  exact (store_kept hv).trans (advance_kept v _)

theorem callFreefun_chunks {chunk : ℕ} (h : callFreefun A w chunk = .ok w') :
    w'.ob = w.ob ∧ ∀ a c, w'.chunkAt a = some c → w.chunkAt a = some c := by
  unfold callFreefun at h
  split at h
  · cases h
  · obtain rfl := Except.ok.inj h
    refine ⟨rfl, fun a c hc => ?_⟩
    dsimp only at hc
    by_cases ha : a = chunk
    · rw [ha, Function.update_self] at hc
      cases hc
    · rwa [Function.update_of_ne ha] at hc

theorem releaseOld_chunks {old : Head} {chunk : ℕ} (h : releaseOld A w old chunk = .ok w') :
    w'.ob = w.ob ∧ ∀ a c', w'.chunkAt a = some c' → ∃ c, w.chunkAt a = some c ∧ c.block = c'.block := by
  unfold releaseOld at h
  split at h
  · split at h
    · cases h
    · rename_i c hc
      obtain ⟨hob, hchunks⟩ := callFreefun_chunks h
      refine ⟨hob, fun a c' ha => ?_⟩
      have hset := hchunks a c' ha
      unfold World.setChunk at hset
      dsimp only at hset
      by_cases he : a = chunk
      · rw [he, Function.update_self] at hset
        obtain ⟨d, hd, rfl⟩ := Option.map_eq_some_iff.mp hset
        exact ⟨d, he ▸ hd, rfl⟩
      · rw [Function.update_of_ne he] at hset
        exact ⟨c', hset, rfl⟩
  · obtain rfl := Except.ok.inj h
    exact ⟨rfl, fun a c' hc => ⟨c', hc, rfl⟩⟩

/-- `_obstack_newchunk` moves the object to an aligned address in a new chunk. -/
theorem newchunk_grown (hk : k < 64) (hmask : w.ob.alignmentMask = 2 ^ k - 1) {length : ℕ}
    (h : newchunk A w length = .ok w') : Grown k w w' := by
  simp only [newchunk, bind_eq_ok] at h
  obtain ⟨n, -, ⟨v, addr⟩, hv, u, hu, t, ht, h⟩ := h
  obtain rfl := Except.ok.inj h
  cases ha : A.chunkfun w n with
  | none =>
    unfold callChunkfun at hv
    rw [ha] at hv
    cases hv
  | some addr' =>
    rw [callChunkfun_some A ha] at hv
    obtain ⟨rfl, rfl⟩ := Prod.mk.inj (Except.ok.inj hv)
    obtain ⟨_, _, hfresh⟩ := A.fresh w n addr' ha
    obtain ⟨hob, hchunks⟩ := releaseOld_chunks ht
    have hkept := (store_kept hu).chunks
    constructor
    · right
      have hbase : t.ob.objectBase = ptrAlign (addSize addr' contents) (2 ^ k - 1) := by
        rw [hob, ← hmask]
      dsimp only
      rw [hbase]
      exact dvd_ptrAlign hk _
    · intro a c' hc
      obtain ⟨c, hc, hb⟩ := hchunks a c' hc
      dsimp only at hc
      rw [hkept] at hc
      unfold World.setChunk at hc
      dsimp only at hc
      by_cases haddr : a = addr'
      · right
        rw [haddr, Function.update_self, Function.update_self] at hc
        obtain rfl := Option.some.inj hc
        rw [← hb]
        exact hfresh
      · left
        rw [Function.update_of_ne haddr, Function.update_of_ne haddr] at hc
        exact ⟨c, hc, hb⟩

theorem makeRoom_grown (hk : k < 64) (hmask : w.ob.alignmentMask = 2 ^ k - 1) {length : ℕ}
    (h : makeRoom A w length = .ok w') : Grown k w w' := by
  unfold makeRoom at h
  split at h
  · exact newchunk_grown hk hmask h
  · obtain rfl := Except.ok.inj h
    exact (Kept.refl w).grown k

/-- Freeing takes chunks away and adds none. -/
theorem releaseWhile_chunks {go : ℕ → Chunk → Bool} (each : World → World)
    (heach : ∀ w, (each w).chunkAt = w.chunkAt) {fuel chunk last : ℕ}
    (h : releaseWhile A go each fuel w chunk = .ok (w', last)) :
    ∀ a c, w'.chunkAt a = some c → w.chunkAt a = some c := by
  induction fuel generalizing w chunk with
  | zero =>
    unfold releaseWhile at h
    split at h
    · obtain ⟨rfl, _⟩ := Prod.mk.inj (Except.ok.inj h)
      exact fun _ _ hc => hc
    · cases h
  | succ fuel ih =>
    unfold releaseWhile at h
    split at h
    · obtain ⟨rfl, _⟩ := Prod.mk.inj (Except.ok.inj h)
      exact fun _ _ hc => hc
    · split at h
      · cases h
      · split at h
        · obtain ⟨v, hv, h⟩ := bind_eq_ok.mp h
          intro a c hc
          have hvc := ih h a c hc
          rw [heach] at hvc
          exact (callFreefun_chunks hv).2 a c hvc
        · obtain ⟨rfl, _⟩ := Prod.mk.inj (Except.ok.inj h)
          exact fun _ _ hc => hc

theorem obstackFree_base {obj : ℕ} (h : obstackFree A w obj = .ok w') (hobj : obj ≠ 0)
    (hchunk : w.ob.chunk ≠ 0) :
    w'.ob.objectBase = obj ∧ ∀ a c, w'.chunkAt a = some c → w.chunkAt a = some c := by
  unfold obstackFree at h
  rw [if_neg hchunk, if_neg hobj] at h
  obtain ⟨⟨v, last⟩, hv, h⟩ := bind_eq_ok.mp h
  dsimp only at h
  split at h
  · cases h
  · obtain rfl := Except.ok.inj h
    exact ⟨rfl, fun a c hc => releaseWhile_chunks markEmpty (fun _ => rfl) hv a c hc⟩

theorem free_base {obj : ℕ} (h : free A w obj = .ok w') (hobj : obj ≠ 0)
    (hchunk : w.ob.chunk ≠ 0) :
    w'.ob.objectBase = obj ∧ ∀ a c, w'.chunkAt a = some c → w.chunkAt a = some c := by
  unfold free at h
  split at h
  · obtain rfl := Except.ok.inj h
    exact ⟨rfl, fun _ _ hc => hc⟩
  · exact obstackFree_base h hobj hchunk

/-- Whether an operation only appends to the growing object, writes into it or makes room for it. -/
def Op.growing : Op → Bool
  | .finish | .copy _ | .copy0 _ | .alloc _ | .free _ _ | .obstackFree _ _ | .freeAll => false
  | _ => true

/-- The room an operation asks for was made. -/
def RoomMade (A : Allocator) (w w' : World) : Op → Prop
  | .newchunk length => newchunk A w length = .ok w'
  | op => makeRoom A w (asked op) = .ok w'

theorem RoomMade.grown {op : Op} (h : RoomMade A w w' op) (hk : k < 64)
    (hmask : w.ob.alignmentMask = 2 ^ k - 1) : Grown k w w' := by
  cases op with
  | newchunk length => exact newchunk_grown hk hmask h
  | _ => exact makeRoom_grown hk hmask h

theorem makeRoom_zero (A : Allocator) (w : World) : makeRoom A w 0 = .ok w :=
  if_neg (Nat.not_lt_zero _)

theorem makeRoom_put_kept {n : ℕ} {bytes : List UInt8}
    (h : makeRoom A w n >>= (put · bytes) = .ok w') :
    ∃ v, makeRoom A w n = .ok v ∧ Kept v w' := by
  obtain ⟨v, hv, hput⟩ := bind_eq_ok.mp h
  exact ⟨v, hv, put_kept hput⟩

theorem grow0_kept {bytes : List UInt8} (hlen : bytes.length < 2 ^ 63)
    (h : grow0 A w bytes = .ok w') :
    ∃ v, makeRoom A w (bytes.length + 1) = .ok v ∧ Kept v w' := by
  have hsum : addSize bytes.length 1 = bytes.length + 1 := addSize_eq (by omega)
  simp only [grow0, bind_eq_ok, hsum] at h
  obtain ⟨v, hv, u, hu, hzero⟩ := h
  exact ⟨v, hv, (put_kept hu).trans (put_kept hzero)⟩

theorem blank_kept {length : ℕ} (h : blank A w length = .ok w') :
    ∃ v, makeRoom A w (length % 2 ^ 64) = .ok v ∧ Kept v w' := by
  simp only [blank, bind_eq_ok] at h
  obtain ⟨v, hv, h⟩ := h
  obtain rfl := Except.ok.inj h
  exact ⟨v, hv, advance_kept v _⟩

/-- The number that `obstack_vprintf` returns when the text never changes. -/
def printed (calls : Calls) : Option ℕ :=
  match calls 0, calls 1 with
  | .ok text, .ok _ => some text.length
  | _, _ => none

/-- As long as the formatter prints one text, room is made only once. -/
theorem vprintf_kept {calls : Calls} (hcalls : Allowed w s (.printf calls)) {result : Option ℕ}
    (h : vprintf A w calls = .ok (w', result)) :
    (∃ v, makeRoom A w (asked (.printf calls)) = .ok v ∧ Kept v w') ∧ result = printed calls := by
  unfold vprintf at h
  unfold asked printed
  dsimp only
  cases h0 : calls 0 with
  | error part =>
    rw [h0] at h
    obtain ⟨rfl, rfl⟩ := Prod.mk.inj (Except.ok.inj h)
    exact ⟨⟨w, makeRoom_zero A w, .refl w⟩, rfl⟩
  | ok text =>
    rw [h0] at h
    obtain ⟨v, hv, h⟩ := bind_eq_ok.mp h
    cases h1 : calls 1 with
    | error part =>
      rw [h1] at h
      obtain ⟨u, hu, h⟩ := bind_eq_ok.mp h
      obtain ⟨rfl, rfl⟩ := Prod.mk.inj (Except.ok.inj h)
      exact ⟨⟨v, hv, store_kept hu⟩, rfl⟩
    | ok again =>
      obtain ⟨rfl, _⟩ := hcalls 0 1 text again h0 h1
      rw [h1] at h
      obtain ⟨u, hu, h⟩ := bind_eq_ok.mp h
      rw [if_neg (by omega)] at h
      obtain ⟨rfl, rfl⟩ := Prod.mk.inj (Except.ok.inj h)
      exact ⟨⟨v, hv, (store_kept hu).trans (advance_kept u _)⟩, rfl⟩

/-- An operation that grows the object has made the room it asks for and then put bytes there. -/
theorem exec_kept {op : Op} (hop : Allowed w s op) (hg : op.growing) {result : Option ℕ}
    (h : exec A w op = .ok (w', result)) : ∃ v, RoomMade A w v op ∧ Kept v w' := by
  cases op with
  | grow bytes => exact makeRoom_put_kept (map_none_eq_ok h)
  | grow0 bytes => exact grow0_kept hop (map_none_eq_ok h)
  | oneGrow ch => exact makeRoom_put_kept (map_none_eq_ok h)
  | oneGrowFast ch => exact ⟨w, makeRoom_zero A w, put_kept (map_none_eq_ok h)⟩
  | blank length => exact blank_kept (map_none_eq_ok h)
  | blankFast length =>
    obtain ⟨rfl, _⟩ := Prod.mk.inj (Except.ok.inj h)
    exact ⟨w, makeRoom_zero A w, advance_kept w length⟩
  | fill offset bytes => exact ⟨w, makeRoom_zero A w, store_kept (map_none_eq_ok h)⟩
  | ptrGrow aptr => exact makeRoom_put_kept (map_none_eq_ok h)
  | intGrow aint => exact makeRoom_put_kept (map_none_eq_ok h)
  | makeRoom length => exact ⟨w', map_none_eq_ok h, .refl w'⟩
  | newchunk length => exact ⟨w', map_none_eq_ok h, .refl w'⟩
  | printf calls => exact (vprintf_kept hop h).1
  | finish | copy _ | copy0 _ | alloc _ | free _ _ | obstackFree _ _ | freeAll => cases hg

theorem after_live {op : Op} (hg : op.growing) (result : Option ℕ) :
    (s.after result op).live = s.live := by
  cases op with
  | printf calls =>
    unfold Stack.after
    dsimp only
    split
    · rfl
    · rfl
  | finish | copy _ | copy0 _ | alloc _ | free _ _ | obstackFree _ _ | freeAll => cases hg
  | _ => rfl

/-- Whether an operation finishes an object. -/
def Op.finishing : Op → Bool
  | .finish | .copy _ | .copy0 _ | .alloc _ => true
  | _ => false

/-- What an operation that finishes an object does first. -/
def Op.before : Op → Op
  | .copy bytes => .grow bytes
  | .copy0 bytes => .grow0 bytes
  | .alloc length => .blank length
  | _ => .makeRoom 0

@[simp] theorem Op.before_growing (op : Op) : op.before.growing = true := by
  cases op <;> rfl

theorem bind_finish_eq_ok {r : Except Stop World} {result : Option ℕ}
    (h : (r >>= fun w => .ok (finish w)).map (fun r => (r.1, some r.2)) = .ok (w', result)) :
    ∃ v, r.map (·, (none : Option ℕ)) = .ok (v, none) ∧ w' = (finish v).1 ∧
      result = some (finish v).2 := by
  cases r with
  | error e => cases h
  | ok v =>
    obtain ⟨rfl, rfl⟩ := Prod.mk.inj (Except.ok.inj h)
    exact ⟨v, rfl, rfl, rfl⟩

theorem exec_finishing {op : Op} (hf : op.finishing) {result : Option ℕ}
    (h : exec A w op = .ok (w', result)) :
    ∃ v, exec A w op.before = .ok (v, none) ∧ w' = (finish v).1 ∧ result = some (finish v).2 := by
  cases op with
  | finish =>
    obtain ⟨rfl, rfl⟩ := Prod.mk.inj (Except.ok.inj h)
    exact ⟨w, congrArg (Except.map (·, none)) (makeRoom_zero A w), rfl, rfl⟩
  | copy bytes => exact bind_finish_eq_ok h
  | copy0 bytes => exact bind_finish_eq_ok h
  | alloc length => exact bind_finish_eq_ok h
  | _ => cases hf

theorem after_finishing {op : Op} (hf : op.finishing) (result : Option ℕ) :
    s.after result op = (s.after none op.before).finish (result.getD 0) := by
  cases op with
  | finish | copy _ | copy0 _ | alloc _ => rfl
  | _ => cases hf

theorem Allowed.before {op : Op} (hop : Allowed w s op) (hf : op.finishing) :
    Allowed w s op.before := by
  cases op with
  | finish => exact Nat.two_pow_pos 64
  | copy bytes => exact hop
  | copy0 bytes => exact hop
  | alloc length => exact hop
  | _ => cases hf

/-! ### The invariant -/

/-- The address can only be that of an object with no bytes: it is the end of the chunk. -/
def AtLimit (w : World) (p : ℕ) : Prop :=
  ∀ a c, w.chunkAt a = some c → a < p → p ≤ c.block.stop → p = c.block.stop

/-- The growing object starts at a multiple of the alignment or where its chunk ends, and so do the
finished ones. -/
structure Aligned (k : ℕ) (w : World) (s : Stack) : Prop where
  base : 2 ^ k ∣ w.ob.objectBase ∨ w.ob.objectBase = w.ob.chunkLimit
  live : ∀ o ∈ s.live, 2 ^ k ∣ o.addr ∨ AtLimit w o.addr

theorem Grown.aligned (hg : Grown k w w') (h : Inv k w s fs) (hk : k < 64) (hw : Aligned k w s)
    (h' : Inv k w' s' fs') (hlive : s'.live = s.live) : Aligned k w' s' := by
  constructor
  · rcases hg.base with ⟨hbase, hlimit⟩ | hbase
    · rw [hbase, hlimit]
      exact hw.base
    · exact .inl hbase
  · intro o ho
    rw [hlive] at ho
    rcases hw.live o ho with hd | hat
    · exact .inl hd
    · right
      intro a c' hc hlo hhi
      rcases hg.chunks a c' hc with ⟨c, hold, hb⟩ | hapart
      · rw [← hb] at hhi ⊢
        exact hat a c hold hlo hhi
      · -- the object lies in another chunk
        exfalso
        obtain ⟨f, hf, hof⟩ := h.live_frame ho
        obtain ⟨hflo, hfhi⟩ := h.object_in_block hk hf hof
        have hstop : o.extent.stop = o.addr + o.bytes.length := rfl
        obtain ⟨haddr, _⟩ := h'.only a c' hc
        rcases hapart _ (h.outstanding hf) with hap | hap
        · omega
        · omega

/-- An object that is not aligned has no bytes. -/
theorem Aligned.dvd_of_bytes (h : Inv k w s fs) (hk : k < 64) (hw : Aligned k w s) {o : Obj}
    (ho : o ∈ s.live) (hne : o.bytes ≠ []) : 2 ^ k ∣ o.addr := by
  rcases hw.live o ho with hd | hat
  · exact hd
  · exfalso
    obtain ⟨f, hf, hof⟩ := h.live_frame ho
    obtain ⟨hlo, hhi⟩ := h.object_in_block hk hf hof
    obtain ⟨prev, hc⟩ := h.linked.mem hf
    have hstop : o.extent.stop = o.addr + o.bytes.length := rfl
    have hend : o.addr = f.block.stop := hat _ _ hc hlo (by dsimp only; omega)
    exact hne (List.eq_nil_of_length_eq_zero (by omega))

/-- An object that begins at the end of the first chunk is at the end of its chunk. -/
theorem Inv.atLimit (h : Inv k w s fs) (hk : k < 64) (hbase : w.ob.objectBase = w.ob.chunkLimit) :
    AtLimit w w.ob.objectBase := by
  intro a c hc hlo hhi
  obtain ⟨haddr, f, hf, hb⟩ := h.only a c hc
  cases fs with
  | nil => cases hf
  | cons g fs =>
    obtain ⟨hlimit, _, _, _⟩ := h.top
    have hpos := h.block_pos hk (f := g) List.mem_cons_self
    rcases List.mem_cons.mp hf with rfl | hf
    · rw [← hb]
      omega
    · exfalso
      rw [← hb] at haddr hhi
      rcases (List.pairwise_cons.mp h.apart).1 f hf with hap | hap
      · omega
      · omega

theorem Aligned.finish (h : Inv k w s fs) (hk : k < 64) (hw : Aligned k w s) :
    Aligned k (finish w).1 (s.finish (finish w).2) := by
  constructor
  · unfold Obstack.finish
    dsimp only
    rw [h.mask]
    split
    · exact .inr rfl
    · exact .inl (dvd_ptrAlign hk _)
  · intro o ho
    unfold Stack.finish at ho
    dsimp only at ho
    split at ho
    · exact hw.live o ho
    · rcases List.mem_cons.mp ho with rfl | ho
      · rcases hw.base with hd | hlimit
        · exact .inl hd
        · exact .inr (h.atLimit hk hlimit)
      · exact hw.live o ho

/-- After a free to a finished object the next one starts where that one did. -/
theorem Aligned.free (h : Inv k w s fs) (hk : k < 64) (hw : Aligned k w s) {o : Obj}
    (ho : o ∈ s.live) {n : ℕ} (h' : Inv k w' (s.drop n) fs') (hbase : w'.ob.objectBase = o.addr)
    (hchunks : ∀ a c, w'.chunkAt a = some c → w.chunkAt a = some c) : Aligned k w' (s.drop n) := by
  have hat : ∀ p, AtLimit w p → AtLimit w' p := fun p hp a c hc => hp a c (hchunks a c hc)
  constructor
  · rw [hbase]
    rcases hw.live o ho with hd | hlimit
    · exact .inl hd
    · right
      obtain ⟨f, hf, hof⟩ := h.live_frame ho
      have hpos := (h.object_in_block hk hf hof).1
      cases fs' with
      | nil =>
        have hzero := h'.top.1
        omega
      | cons g fs' =>
        obtain ⟨hstop, hle, hp, _⟩ := h'.top
        obtain ⟨hstart, _⟩ := h'.bounds hk (f := g) List.mem_cons_self
        obtain ⟨prev, hc⟩ := h'.linked.mem (f := g) List.mem_cons_self
        have hlo := hp.le
        unfold contents at hstart
        rw [hstop]
        exact hat _ hlimit _ _ hc (by omega) (by dsimp only; omega)
  · intro p hp
    have hmem : p ∈ s.live := List.mem_of_mem_drop hp
    rcases hw.live p hmem with hd | hlimit
    · exact .inl hd
    · exact .inr (hat _ hlimit)

/-! ### Runs -/

/-- Frees are only to finished objects. -/
def FreesFinished (s : Stack) : Op → Prop
  | .free obj _ | .obstackFree obj _ => ∃ o ∈ s.live, obj = o.addr
  | _ => True

/-- One operation, which is no free to an address within an object. -/
def FinishedStep (A : Allocator) (st st' : World × Stack) : Prop :=
  ∃ op result, Allowed st.1 st.2 op ∧ FreesFinished st.2 op ∧
    exec A st.1 op = .ok (st'.1, result) ∧ st'.2 = st.2.after result op

/-- The states an obstack gets to while frees are only to finished objects. -/
def FinishedRun (A : Allocator) (ob : Head) (mem : Memory) (size alignment : ℕ) :
    World × Stack → Prop :=
  Reachable
    (fun st => obstackBegin A (World.start ob mem) size alignment = .ok st.1 ∧ st.2 = ⟨[], []⟩)
    (FinishedStep A)

/-- One operation that returns keeps the obstack's invariant. -/
theorem Inv.exec (h : Inv k w s fs) (hk : k < 64) {op : Op} (hop : Allowed w s op)
    {result : Option ℕ} (hexec : exec A w op = .ok (w', result)) :
    ∃ fs', Inv k w' (s.after result op) fs' := by
  rcases meets h hk hop with ⟨herr, _⟩ | ⟨v, r, hrun, fs', hinv, _⟩
  · rw [herr] at hexec
    cases hexec
  · rw [hrun] at hexec
    obtain ⟨rfl, rfl⟩ := Prod.mk.inj (Except.ok.inj hexec)
    exact ⟨fs', hinv⟩

theorem Aligned.growing (h : Inv k w s fs) (hk : k < 64) (hw : Aligned k w s) {op : Op}
    (hop : Allowed w s op) (hg : op.growing) {result : Option ℕ}
    (hexec : exec A w op = .ok (w', result)) : Aligned k w' (s.after result op) := by
  obtain ⟨v, hroom, hkept⟩ := exec_kept hop hg hexec
  obtain ⟨fs', hinv⟩ := h.exec hk hop hexec
  exact ((hroom.grown hk h.mask).kept hkept).aligned h hk hw hinv (after_live hg result)

theorem Aligned.free_finished (h : Inv k w s fs) (hk : k < 64) (hw : Aligned k w s) {obj n : ℕ}
    (ho : ∃ o ∈ s.live, obj = o.addr) (h' : Inv k w' (s.drop n) fs')
    (hrun : Obstack.free A w obj = .ok w' ∨ obstackFree A w obj = .ok w') : Aligned k w' (s.drop n) := by
  obtain ⟨o, ho, rfl⟩ := ho
  obtain ⟨f, hf, hof⟩ := h.live_frame ho
  have hpos := (h.object_in_block hk hf hof).1
  have hchunk : w.ob.chunk ≠ 0 := by
    rw [h.chunk_eq]
    cases fs with
    | nil => cases hf
    | cons g fs => exact Nat.ne_of_gt (h.block g List.mem_cons_self).1
  obtain ⟨hbase, hchunks⟩ : w'.ob.objectBase = o.addr ∧
      ∀ a c, w'.chunkAt a = some c → w.chunkAt a = some c := by
    rcases hrun with hrun | hrun
    · exact free_base hrun (by omega) hchunk
    · exact obstackFree_base hrun (by omega) hchunk
  exact hw.free h hk ho h' hbase hchunks

theorem Aligned.exec (h : Inv k w s fs) (hk : k < 64) (hw : Aligned k w s) {op : Op}
    (hop : Allowed w s op) (hfree : FreesFinished s op) {result : Option ℕ}
    (hexec : exec A w op = .ok (w', result)) : Aligned k w' (s.after result op) := by
  by_cases hg : op.growing
  · exact hw.growing h hk hop hg hexec
  by_cases hf : op.finishing
  · obtain ⟨v, hv, rfl, rfl⟩ := exec_finishing hf hexec
    have hbefore := hop.before hf
    obtain ⟨fs', hinv⟩ := h.exec hk hbefore hv
    rw [after_finishing hf]
    exact (hw.growing h hk hbefore op.before_growing hv).finish hinv hk
  · obtain ⟨fs', hinv⟩ := h.exec hk hop hexec
    cases op with
    | free obj ended => exact hw.free_finished h hk hfree hinv (.inl (map_none_eq_ok hexec))
    | obstackFree obj ended => exact hw.free_finished h hk hfree hinv (.inr (map_none_eq_ok hexec))
    | freeAll =>
      obtain ⟨v, hv, hempty, _⟩ := obstackFree_null A h hk
      have hrun := map_none_eq_ok hexec
      unfold Obstack.free at hrun
      rw [if_neg (by omega), hv] at hrun
      obtain rfl := Except.ok.inj hrun
      refine ⟨?_, by simp [Stack.after]⟩
      rw [hempty.top.1]
      exact .inl ⟨0, rfl⟩
    | finish | copy _ | copy0 _ | alloc _ => exact absurd rfl hf
    | _ => exact absurd rfl hg

/-- While frees are only to finished objects, every finished object with bytes in it starts at a
multiple of the alignment. -/
theorem finished_aligned {ob : Head} {mem : Memory} {size alignment : ℕ}
    (hal : IsAlignment alignment) (hfits : Fits A ob mem size alignment)
    (h : FinishedRun A ob mem size alignment (w, s)) :
    ∀ o ∈ s.live, o.bytes ≠ [] → beginAlignment alignment ∣ o.addr := by
  obtain ⟨k, hk, hpow⟩ := hal.exists_pow
  obtain ⟨fs, hinv, hw⟩ : ∃ fs, Inv k w s fs ∧ Aligned k w s := by
    apply Reachable.invariant (P := fun st => ∃ fs, Inv k st.1 st.2 fs ∧ Aligned k st.1 st.2) _ _ h
    · intro st ⟨hbegin, hempty⟩
      obtain ⟨addr, hc, hst⟩ := begin_cases hpow hbegin
      have hfit := hfits addr hc
      rw [hpow] at hfit
      rw [hst, hempty]
      exact ⟨_, begun_inv hk hc hfit, .inl (dvd_ptrAlign hk _), by simp⟩
    · intro st st' ⟨fs, hinv, hw⟩ ⟨op, result, hop, hfree, hexec, hst⟩
      obtain ⟨fs', hinv'⟩ := hinv.exec hk hop hexec
      rw [hst]
      exact ⟨fs', hinv', hw.exec hinv hk hop hfree hexec⟩
  rw [hpow]
  intro o ho hne
  exact hw.dvd_of_bytes hinv hk ho hne

theorem finished_aligned_sixteen :
    ∃ w, FinishedRun bump blankHead (fun _ => 0) 0 0 (w, ⟨[], [⟨4112, [some 72, some 105]⟩]⟩) ∧
      beginAlignment 0 ∣ 4112 := by
  have hlen : ([72, 105] : List UInt8).length < 2 ^ 63 := by decide
  have hvalue : (finish grown).2 = 4112 := by decide
  have hstart : FinishedRun bump blankHead (fun _ => 0) 0 0
      (begun bump blankHead (fun _ => 0) 4 4064 4096, ⟨[], []⟩) := .start ⟨begin_bump, rfl⟩
  have hgrown : FinishedRun bump blankHead (fun _ => 0) 0 0 (grown, ⟨[some 72, some 105], []⟩) :=
    .next hstart ⟨.grow [72, 105], none, hlen, trivial, exec_grown, rfl⟩
  have hrun : FinishedRun bump blankHead (fun _ => 0) 0 0
      ((finish grown).1, ⟨[], [⟨4112, [some 72, some 105]⟩]⟩) := by
    refine .next hgrown ⟨.finish, _, trivial, trivial, rfl, ?_⟩
    rw [hvalue]
    rfl
  have hne : ([some 72, some 105] : List (Option UInt8)) ≠ [] := List.cons_ne_nil _ _
  exact ⟨_, hrun, finished_aligned (.inl rfl) bump_fits hrun ⟨4112, [some 72, some 105]⟩
    List.mem_cons_self hne⟩

end MuslBsd.Obstack
