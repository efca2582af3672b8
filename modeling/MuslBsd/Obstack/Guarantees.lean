import MuslBsd.Obstack.Runs

/-! What holds in every run of an obstack: its bounds, the objects in it, and the account of its
chunks. -/
namespace MuslBsd.Obstack
open MuslBsd.Support

/-- One operation that its caller may do and that returns. -/
def Step (A : Allocator) (st st' : World × Stack) : Prop :=
  ∃ op result, Allowed st.1 st.2 op ∧ exec A st.1 op = .ok (st'.1, result) ∧
    st'.2 = st.2.after result op

/-- The states that an obstack and its object stack get to from `_obstack_begin` on. -/
def Run (A : Allocator) (ob : Head) (mem : Memory) (size alignment : ℕ) : World × Stack → Prop :=
  Reachable
    (fun st => obstackBegin A (World.start ob mem) size alignment = .ok st.1 ∧ st.2 = ⟨[], []⟩)
    (Step A)

/-- The alignments that `_obstack_begin` may be given. -/
def IsAlignment (alignment : ℕ) : Prop := alignment = 0 ∨ ∃ k < 64, alignment = 2 ^ k

theorem IsAlignment.exists_pow {alignment : ℕ} (h : IsAlignment alignment) :
    ∃ k < 64, beginAlignment alignment = 2 ^ k := by
  unfold beginAlignment
  rcases h with rfl | ⟨k, hk, rfl⟩
  · exact ⟨4, by omega, rfl⟩
  · exact ⟨k, hk, if_neg (Nat.ne_of_gt (Nat.two_pow_pos k))⟩

/-- The first block has room for a chunk header and an aligned address after it. -/
def Fits (A : Allocator) (ob : Head) (mem : Memory) (size alignment : ℕ) : Prop :=
  ∀ addr, A.chunkfun (World.start ob mem) (beginSize size) = some addr →
    HoldsHeader (beginAlignment alignment) ⟨addr, beginSize size⟩

variable {A : Allocator} {ob : Head} {mem : Memory} {size alignment : ℕ}

theorem le_foldr_max {l : List ℕ} {n : ℕ} : n ≤ l.foldr max n ∧ ∀ x ∈ l, x ≤ l.foldr max n := by
  induction l with
  | nil => exact ⟨le_refl n, by simp⟩
  | cons y l ih =>
    refine ⟨le_max_of_le_right ih.1, ?_⟩
    intro x hx
    rcases List.mem_cons.mp hx with rfl | hx
    · exact le_max_left _ _
    · exact le_max_of_le_right (ih.2 x hx)

/-- Hands out blocks one after another and takes none back. -/
def bump : Allocator where
  chunkfun w size :=
    let addr := (w.blocks.map fun b => b.stop).foldr max 4096
    if addr + size ≤ 2 ^ 63 then some addr else none
  memory w := w.mem
  fresh := by
    intro w size addr h
    obtain ⟨hle, hstop⟩ := le_foldr_max (l := w.blocks.map fun b => b.stop) (n := 4096)
    dsimp only at h
    split_ifs at h with hfit
    cases h
    refine ⟨by omega, hfit, ?_⟩
    intro b hb
    exact .inr (hstop b.stop (List.mem_map_of_mem hb.1))
  keeps _ _ _ _ _ _ := rfl

theorem bump_start {ob : Head} {mem : Memory} {size : ℕ} (h : 4096 + size ≤ 2 ^ 63) :
    bump.chunkfun (World.start ob mem) size = some 4096 := if_pos h

/-- An obstack before `_obstack_begin`. -/
def blankHead : Head := ⟨0, 0, 0, 0, 0, 0, false, false⟩

/-! ### From `_obstack_begin` on -/

/-- The world after `_obstack_begin`. -/
def begun (A : Allocator) (ob : Head) (mem : Memory) (k size addr : ℕ) : World :=
  let block : Block := ⟨⟨addr, size⟩, 0⟩
  { ob :=
      { chunkSize := size, chunk := addr, objectBase := startOf k block.toExtent,
        nextFree := startOf k block.toExtent, chunkLimit := addr + size,
        alignmentMask := 2 ^ k - 1, maybeEmptyObject := false, allocFailed := false }
    chunkAt := Function.update (fun _ => none) addr (some ⟨addr + size, 0, block⟩)
    mem := A.memory (World.start ob mem), blocks := [block], freed := [] }

theorem begin_eq {k addr : ℕ} (hal : beginAlignment alignment = 2 ^ k)
    (hc : A.chunkfun (World.start ob mem) (beginSize size) = some addr) :
    obstackBegin A (World.start ob mem) size alignment =
      .ok (begun A ob mem k (beginSize size) addr) := by
  obtain ⟨_, hstop, _⟩ := A.fresh _ _ _ hc
  have hlimit : addSize addr (beginSize size) = addr + beginSize size := addSize_eq (by omega)
  unfold obstackBegin
  dsimp only
  rw [callChunkfun_some A hc, ok_bind, hal, hlimit]
  unfold World.setChunk begun startOf World.start
  simp

theorem begin_cases {k : ℕ} (hal : beginAlignment alignment = 2 ^ k) {w : World}
    (h : obstackBegin A (World.start ob mem) size alignment = .ok w) :
    ∃ addr, A.chunkfun (World.start ob mem) (beginSize size) = some addr ∧
      w = begun A ob mem k (beginSize size) addr := by
  cases hc : A.chunkfun (World.start ob mem) (beginSize size) with
  | none =>
    unfold obstackBegin callChunkfun at h
    dsimp only at h
    rw [hc] at h
    cases h
  | some addr =>
    rw [begin_eq hal hc] at h
    cases h
    exact ⟨addr, rfl, rfl⟩

theorem begun_inv {k addr : ℕ} (hk : k < 64)
    (hc : A.chunkfun (World.start ob mem) (beginSize size) = some addr)
    (hfits : HoldsHeader (2 ^ k) ⟨addr, beginSize size⟩) :
    Inv k (begun A ob mem k (beginSize size) addr) ⟨[], []⟩
      [⟨⟨⟨addr, beginSize size⟩, 0⟩, []⟩] := by
  obtain ⟨hpos, hstop, _⟩ := A.fresh _ _ _ hc
  obtain ⟨hlo, hhi⟩ := startOf_bounds (e := ⟨addr, beginSize size⟩) hk hstop hfits
  constructor
  · rfl
  · refine ⟨rfl, 0, ?_, rfl⟩
    unfold begun
    dsimp only
    rw [Function.update_self]
    rfl
  · intro a c h
    unfold begun at h
    dsimp only at h
    by_cases ha : a = addr
    · subst ha
      rw [Function.update_self] at h
      cases h
      exact ⟨rfl, _, List.mem_cons_self, rfl⟩
    · rw [Function.update_of_ne ha] at h
      cases h
  · intro f hf
    rw [List.mem_singleton.mp hf]
    exact ⟨hpos, hstop, hfits⟩
  · exact List.pairwise_singleton _ _
  · intro f hf
    cases hf
  · refine ⟨rfl, hhi, le_refl _, ?_⟩
    intro _ o ho
    cases ho
  · rfl
  · rfl
  · exact Memory.holds_nil
  · intro o ho
    cases ho
  · exact List.Perm.refl _
  · rfl

theorem Run.inv {k : ℕ} (hk : k < 64) (hal : beginAlignment alignment = 2 ^ k)
    (hfits : Fits A ob mem size alignment) {st : World × Stack}
    (h : Run A ob mem size alignment st) : ∃ fs, Inv k st.1 st.2 fs := by
  apply Reachable.invariant (P := fun st => ∃ fs, Inv k st.1 st.2 fs) _ _ h
  · intro st ⟨hbegin, hempty⟩
    obtain ⟨addr, hc, hw⟩ := begin_cases hal hbegin
    have hfit := hfits addr hc
    rw [hal] at hfit
    rw [hw, hempty]
    exact ⟨_, begun_inv hk hc hfit⟩
  · intro st st' ⟨fs, hinv⟩ ⟨op, result, hop, hexec, hst⟩
    rcases meets hinv hk hop with ⟨herr, _⟩ | ⟨w', result', hrun, fs', hinv', _⟩
    · rw [herr] at hexec
      cases hexec
    · rw [hrun] at hexec
      cases hexec
      rw [hst]
      exact ⟨fs', hinv'⟩

/-! ### Bounds -/

/-- Where `struct obstack` points when there is a chunk. -/
structure InBounds (w : World) (c : Chunk) : Prop where
  chunk : w.chunkAt w.ob.chunk = some c
  block : w.ob.chunk = c.block.addr
  header : w.ob.chunk + contents ≤ w.ob.objectBase
  base : w.ob.objectBase ≤ w.ob.nextFree
  next : w.ob.nextFree ≤ w.ob.chunkLimit
  limit : w.ob.chunkLimit = c.limit
  stop : c.limit ≤ c.block.stop
  room : room w ≤ c.block.size

theorem Inv.inBounds {k : ℕ} {w : World} {s : Stack} {fs : List Frame} (h : Inv k w s fs)
    (hk : k < 64) (hchunk : w.ob.chunk ≠ 0) : ∃ c, InBounds w c := by
  cases fs with
  | nil => exact absurd h.linked hchunk
  | cons f fs =>
    obtain ⟨haddr, prev, hc, _⟩ := h.linked
    obtain ⟨hlimit, hle, hp, _⟩ := h.top
    obtain ⟨hlo, _⟩ := h.bounds hk (f := f) List.mem_cons_self
    have hbase := hp.le
    have hnext := h.next
    have hroom := h.room_eq
    have hstop : f.block.stop = f.block.addr + f.block.size := rfl
    exact ⟨_, hc, haddr, by omega, by omega, by omega, hlimit, le_refl _, by dsimp only; omega⟩

/-- Every state of every run is in bounds, and no operation writes outside the block of its chunk
or uses a chunk that is not there, exactly when the first block holds its header. -/
theorem bounds_iff (hal : IsAlignment alignment) :
    (∀ w s, Run A ob mem size alignment (w, s) →
      (w.ob.chunk ≠ 0 → ∃ c, InBounds w c) ∧
        ∀ op, Allowed w s op → exec A w op ≠ .error .wild) ↔
      Fits A ob mem size alignment := by
  obtain ⟨k, hk, hpow⟩ := hal.exists_pow
  constructor
  · intro h addr hc
    obtain ⟨hpos, hstop, _⟩ := A.fresh _ _ _ hc
    obtain ⟨hbounds, _⟩ := h _ _ (.start ⟨begin_eq hpow hc, rfl⟩)
    obtain ⟨c, hin⟩ := hbounds (Nat.ne_of_gt hpos)
    have hlo : addr + contents ≤ startOf k ⟨addr, beginSize size⟩ := hin.header
    have hhi : startOf k ⟨addr, beginSize size⟩ ≤ addr + beginSize size :=
      le_trans hin.base hin.next
    have hle : 2 ^ k ≤ 2 ^ 63 := Nat.pow_le_pow_right (by decide) (by omega)
    have hdvd : 2 ^ k ∣ startOf k ⟨addr, beginSize size⟩ := by
      unfold startOf
      exact dvd_ptrAlign hk _
    rw [hpow]
    exact ⟨_, hdvd, hlo, hhi⟩
  · intro hfits w s hrun
    obtain ⟨fs, hinv⟩ := Run.inv hk hpow hfits hrun
    refine ⟨hinv.inBounds hk, ?_⟩
    intro op hop hwild
    rcases meets hinv hk hop with ⟨herr, _⟩ | ⟨w', result, hok, _⟩
    · rw [herr] at hwild
      cases hwild
    · rw [hok] at hwild
      cases hwild

theorem bounds_iff_sixteen :
    Fits bump blankHead (fun _ => 0) 64 16 ∧
      ∀ w s, Run bump blankHead (fun _ => 0) 64 16 (w, s) →
        (w.ob.chunk ≠ 0 → ∃ c, InBounds w c) ∧
          ∀ op, Allowed w s op → exec bump w op ≠ .error .wild := by
  have hfits : Fits bump blankHead (fun _ => 0) 64 16 := by
    intro addr h
    have hsize : beginSize 64 = 64 := rfl
    rw [hsize, bump_start (by decide)] at h
    cases h
    exact ⟨4112, by decide, by decide, by decide⟩
  exact ⟨hfits, (bounds_iff (.inr ⟨4, by decide, rfl⟩)).mpr hfits⟩

/-- A chunk of one byte: the room behind it is almost the whole address space, and what is grown
is written outside the block. -/
theorem unbounded_one :
    ∃ w s, Run bump blankHead (fun _ => 0) 1 1 (w, s) ∧ w.ob.chunk ≠ 0 ∧
      (∀ c, ¬InBounds w c) ∧ room w = 2 ^ 64 - 15 ∧ exec bump w (.oneGrow 65) = .error .wild := by
  have hroom : room (begun bump blankHead (fun _ => 0) 0 1 4096) = 2 ^ 64 - 15 := by decide
  have hstart : startOf 0 ⟨4096, 1⟩ = 4112 := by decide
  refine ⟨begun bump blankHead (fun _ => 0) 0 1 4096, ⟨[], []⟩,
    .start ⟨begin_eq (k := 0) rfl (bump_start (by decide)), rfl⟩, by decide, ?_, hroom, ?_⟩
  · intro c h
    have hle : startOf 0 ⟨4096, 1⟩ ≤ 4096 + 1 := le_trans h.base h.next
    rw [hstart] at hle
    exact absurd hle (by decide)
  · unfold exec oneGrow makeRoom
    dsimp only
    rw [hroom, if_neg (by decide), ok_bind]
    unfold put World.store
    rw [if_neg (by decide)]
    rfl

/-! ### Objects -/

/-- The memory holds the growing object from `object_base` to `next_free` and every live object at
its address, and no two of them overlap. -/
structure Represents (w : World) (s : Stack) : Prop where
  next : w.ob.nextFree = w.ob.objectBase + s.growing.length
  growing : w.mem.Holds w.ob.objectBase s.growing
  held : ∀ o ∈ s.live, w.mem.Holds o.addr o.bytes
  apart : s.live.Pairwise fun o p => o.extent.Apart p.extent
  above : ∀ o ∈ s.live, o.extent.Apart ⟨w.ob.objectBase, s.growing.length⟩

section Objects

variable {k : ℕ} {w w' : World} {s : Stack} {fs : List Frame}

/-- Objects in chunks that are apart are apart. -/
theorem apart_of_blocks {o p e f : Extent} (h : e.Apart f) (hoe : e.addr ≤ o.addr)
    (hoe' : o.stop ≤ e.stop) (hpf : f.addr ≤ p.addr) (hpf' : p.stop ≤ f.stop) : o.Apart p := by
  rcases h with h | h
  · left
    omega
  · right
    omega

theorem Inv.object_in_block (h : Inv k w s fs) (hk : k < 64) {f : Frame} (hf : f ∈ fs) {o : Obj}
    (ho : o ∈ f.objects) : f.block.addr < o.addr ∧ o.extent.stop ≤ f.block.stop := by
  obtain ⟨hlo, hhi⟩ := h.object_bounds hf ho
  obtain ⟨hstart, _⟩ := h.bounds hk hf
  unfold contents at hstart
  exact ⟨by omega, hhi⟩

theorem Inv.objects_apart (h : Inv k w s fs) (hk : k < 64) :
    (fs.flatMap Frame.objects).Pairwise fun o p => o.extent.Apart p.extent := by
  apply List.pairwise_flatMap.mpr
  constructor
  · intro f hf
    exact List.pairwise_map.mp (h.packed_stop hf).pairwise
  · apply h.apart.imp_of_mem
    intro f g hf hg hap o ho p hp
    obtain ⟨hlo, hhi⟩ := h.object_in_block hk hf ho
    obtain ⟨hlo', hhi'⟩ := h.object_in_block hk hg hp
    exact apart_of_blocks hap (Nat.le_of_lt hlo) hhi (Nat.le_of_lt hlo') hhi'

theorem Inv.represents (h : Inv k w s fs) (hk : k < 64) : Represents w s := by
  refine ⟨h.next, h.growing, h.held, ?_, ?_⟩
  · rw [h.live]
    exact h.objects_apart hk
  · intro o ho
    obtain ⟨f, hf, hof⟩ := h.live_frame ho
    obtain ⟨hlo, hhi⟩ := h.object_in_block hk hf hof
    cases fs with
    | nil => cases hf
    | cons g fs =>
      obtain ⟨_, hle, hp, _⟩ := h.top
      obtain ⟨hstart, _⟩ := h.bounds hk (f := g) List.mem_cons_self
      have hbase := hp.le
      rcases List.mem_cons.mp hf with rfl | hf
      · exact .inl (hp.mem (List.mem_map_of_mem hof)).2
      · have hap := (List.pairwise_cons.mp h.apart).1 f hf
        exact apart_of_blocks hap.symm (Nat.le_of_lt hlo) hhi
          (show g.block.addr ≤ w.ob.objectBase by omega) hle

/-- The address is one that an object in the block may have. -/
def Contains (b : Extent) (o : Obj) : Prop := b.addr < o.addr ∧ o.addr ≤ b.stop

theorem Holds.not_contains (h : Holds k w w' s) (hk : k < 64) :
    ∀ b ∈ w'.freed.drop w.freed.length, ∀ o ∈ s.live, ¬Contains b.toExtent o := by
  obtain ⟨fs, hinv, released, hfreed, hap⟩ := h
  intro b hb o ho ⟨hlo, hhi⟩
  rw [hfreed, List.drop_left] at hb
  obtain ⟨f, hf, hof⟩ := hinv.live_frame ho
  obtain ⟨hflo, hfhi⟩ := hinv.object_in_block hk hf hof
  have hstop : o.extent.stop = o.addr + o.bytes.length := rfl
  rcases hap b hb f hf with h | h
  · omega
  · omega

end Objects

/-- In every run the obstack holds its object stack. Every operation calls the handler, when no
chunk is to be had, or leaves the object stack it should and has passed to `freefun` no block that
contains an object that is live then. -/
theorem stack_refined (hal : IsAlignment alignment) (hfits : Fits A ob mem size alignment)
    {w : World} {s : Stack} (h : Run A ob mem size alignment (w, s)) :
    Represents w s ∧ ∀ op, Allowed w s op →
      (exec A w op = .error .allocFailed ∧ ¬CanAlloc A w (asked op)) ∨
        ∃ w' result, exec A w op = .ok (w', result) ∧ Represents w' (s.after result op) ∧
          ∀ b ∈ w'.freed.drop w.freed.length, ∀ o ∈ (s.after result op).live,
            ¬Contains b.toExtent o := by
  obtain ⟨k, hk, hpow⟩ := hal.exists_pow
  obtain ⟨fs, hinv⟩ := Run.inv hk hpow hfits h
  refine ⟨hinv.represents hk, ?_⟩
  intro op hop
  rcases meets hinv hk hop with herr | ⟨w', result, hrun, hholds⟩
  · exact .inl herr
  · obtain ⟨fs', hinv', hrel⟩ := hholds
    exact .inr ⟨w', result, hrun, hinv'.represents hk,
      Holds.not_contains ⟨fs', hinv', hrel⟩ hk⟩

theorem bump_fits : Fits bump blankHead (fun _ => 0) 0 0 := by
  intro addr h
  have hsize : beginSize 0 = 4064 := by decide
  rw [hsize, bump_start (by decide)] at h
  cases h
  rw [hsize]
  exact ⟨4112, by decide, by decide, by decide⟩

/-- An obstack of 4064 bytes at address 4096 once two bytes have grown in it. -/
def grown : World :=
  advance { begun bump blankHead (fun _ => 0) 4 4064 4096 with
    mem := Memory.write (fun _ => 0) 4112 [72, 105] } 2

theorem exec_grown :
    exec bump (begun bump blankHead (fun _ => 0) 4 4064 4096) (.grow [72, 105]) =
      .ok (grown, none) := by
  have hmake : makeRoom bump (begun bump blankHead (fun _ => 0) 4 4064 4096) 2 =
      .ok (begun bump blankHead (fun _ => 0) 4 4064 4096) := if_neg (by decide)
  have hfirst : (begun bump blankHead (fun _ => 0) 4 4064 4096).ob.chunk = 4096 := rfl
  have hnext : (begun bump blankHead (fun _ => 0) 4 4064 4096).ob.nextFree = 4112 := by decide
  have hchunk : (begun bump blankHead (fun _ => 0) 4 4064 4096).chunkAt 4096 =
      some ⟨8160, 0, ⟨⟨4096, 4064⟩, 0⟩⟩ := by decide
  have hput : put (begun bump blankHead (fun _ => 0) 4 4064 4096) [72, 105] = .ok grown := by
    unfold put
    rw [hnext, hfirst, World.store_ok hchunk (by decide) (by decide), ok_bind]
    rfl
  unfold exec grow
  dsimp only [List.length_cons, List.length_nil]
  rw [hmake, ok_bind, hput]
  rfl

theorem begin_bump : obstackBegin bump (World.start blankHead fun _ => 0) 0 0 =
    .ok (begun bump blankHead (fun _ => 0) 4 4064 4096) := by
  have hsize : beginSize 0 = 4064 := by decide
  have hbegin : obstackBegin bump (World.start blankHead fun _ => 0) 0 0 =
      .ok (begun bump blankHead (fun _ => 0) 4 (beginSize 0) 4096) :=
    begin_eq rfl (bump_start (by rw [hsize]; decide))
  rwa [hsize] at hbegin

theorem grown_run : Run bump blankHead (fun _ => 0) 0 0 (grown, ⟨[some 72, some 105], []⟩) := by
  have hlen : ([72, 105] : List UInt8).length < 2 ^ 63 := by decide
  have hstart : Run bump blankHead (fun _ => 0) 0 0
      (begun bump blankHead (fun _ => 0) 4 4064 4096, ⟨[], []⟩) := .start ⟨begin_bump, rfl⟩
  exact .next hstart ⟨.grow [72, 105], none, hlen, exec_grown, rfl⟩

theorem finished_run :
    ∃ w, Run bump blankHead (fun _ => 0) 0 0 (w, ⟨[], [⟨4112, [some 72, some 105]⟩]⟩) := by
  have hvalue : (finish grown).2 = 4112 := by decide
  refine ⟨_, .next grown_run ⟨.finish, _, trivial, rfl, ?_⟩⟩
  rw [hvalue]
  rfl

theorem stack_refined_finished : ∃ w, Represents w ⟨[], [⟨4112, [some 72, some 105]⟩]⟩ := by
  obtain ⟨w, hrun⟩ := finished_run
  exact ⟨w, (stack_refined (.inl rfl) bump_fits hrun).1⟩

/-! ### The account of chunks -/

/-- The blocks of the chunks on the list, the first one first. -/
def onList (w : World) : List Block :=
  (chunksFrom w (w.blocks.length + 1) w.ob.chunk).map Chunk.block

section Account

variable {k : ℕ} {w : World} {s : Stack} {fs : List Frame}

theorem chunksFrom_eq {chunk fuel : ℕ} (h : Linked w.chunkAt chunk fs) (h0 : w.chunkAt 0 = none)
    (hfuel : fs.length < fuel) :
    (chunksFrom w fuel chunk).map Chunk.block = fs.map Frame.block := by
  induction fs generalizing chunk fuel with
  | nil =>
    cases fuel with
    | zero => cases hfuel
    | succ fuel =>
      have hchunk : chunk = 0 := h
      unfold chunksFrom
      rw [hchunk, h0]
      rfl
  | cons f fs ih =>
    cases fuel with
    | zero => cases hfuel
    | succ fuel =>
      obtain ⟨rfl, prev, hc, hprev⟩ := h
      unfold chunksFrom
      rw [hc]
      dsimp only
      rw [List.map_cons, ih hprev (Nat.lt_of_succ_lt_succ hfuel), List.map_cons]

theorem Inv.chunkAt_zero (h : Inv k w s fs) : w.chunkAt 0 = none := by
  cases hc : w.chunkAt 0 with
  | none => rfl
  | some c =>
    obtain ⟨haddr, f, hf, hfc⟩ := h.only 0 c hc
    have hpos := (h.block f hf).1
    rw [hfc] at hpos
    omega

theorem Inv.onList_eq (h : Inv k w s fs) : onList w = fs.map Frame.block :=
  chunksFrom_eq h.linked h.chunkAt_zero (Nat.lt_succ_of_le h.length_le)

theorem sumChunks_eq {chunk fuel total : ℕ} (h : Linked w.chunkAt chunk fs)
    (hpos : ∀ f ∈ fs, 0 < f.block.addr) (hfuel : fs.length < fuel)
    (hsum : total + (fs.map fun f => f.block.size).sum < 2 ^ 64)
    (hstop : ∀ f ∈ fs, f.block.stop < 2 ^ 64) :
    sumChunks w fuel chunk total = .ok (total + (fs.map fun f => f.block.size).sum) := by
  induction fs generalizing chunk fuel total with
  | nil =>
    cases fuel with
    | zero => cases hfuel
    | succ fuel =>
      have hchunk : chunk = 0 := h
      unfold sumChunks
      rw [if_pos hchunk]
      rfl
  | cons f fs ih =>
    cases fuel with
    | zero => cases hfuel
    | succ fuel =>
      obtain ⟨rfl, prev, hc, hprev⟩ := h
      rw [List.map_cons, List.sum_cons] at hsum ⊢
      have hne : f.block.addr ≠ 0 := Nat.ne_of_gt (hpos f List.mem_cons_self)
      have hlt := hstop f List.mem_cons_self
      have hsize : f.block.stop = f.block.addr + f.block.size := rfl
      have hsub : subSize f.block.stop f.block.addr = f.block.size := by
        rw [subSize_eq (by omega) hlt]
        omega
      have hadd : addSize total f.block.size = total + f.block.size := addSize_eq (by omega)
      unfold sumChunks
      rw [if_neg hne, hc]
      dsimp only
      rw [hsub, hadd, ih hprev (fun g hg => hpos g (List.mem_cons_of_mem f hg))
        (Nat.lt_of_succ_lt_succ hfuel) (by omega)
        (fun g hg => hstop g (List.mem_cons_of_mem f hg)), Nat.add_assoc]

theorem Inv.memoryUsed_eq (h : Inv k w s fs) :
    memoryUsed w = .ok (fs.map fun f => f.block.size).sum := by
  have hstop : ∀ f ∈ fs, f.block.stop ≤ 2 ^ 63 := fun f hf => (h.block f hf).2.1
  have hsum : (fs.map fun f => f.block.size).sum ≤ 2 ^ 63 := by
    have hle := Extent.sum_size_le (fs.map fun f => f.block.toExtent) (n := 2 ^ 63)
      (List.pairwise_map.mpr h.apart) (by
        intro e he
        obtain ⟨f, hf, rfl⟩ := List.mem_map.mp he
        exact hstop f hf)
    rw [List.map_map] at hle
    exact hle
  unfold memoryUsed
  rw [sumChunks_eq h.linked (fun f hf => (h.block f hf).1) (Nat.lt_succ_of_le h.length_le)
    (by omega) (fun f hf => Nat.lt_of_le_of_lt (hstop f hf) (by decide)), Nat.zero_add]

/-- The blocks that are not yet released are those on the list. -/
theorem Inv.unreleased (h : Inv k w s fs) :
    (w.blocks.filter (· ∉ w.freed)).Perm (fs.map Frame.block) := by
  have hnodup := h.accounts.nodup_iff.mpr h.nodup_blocks
  have hdisj := List.disjoint_of_nodup_append hnodup
  have hperm := h.accounts.symm.filter (· ∉ w.freed)
  rw [List.filter_append] at hperm
  have hlist : (fs.map Frame.block).filter (· ∉ w.freed) = fs.map Frame.block := by
    apply List.filter_eq_self.mpr
    intro b hb
    exact decide_eq_true (hdisj hb)
  have hfreed : w.freed.filter (· ∉ w.freed) = [] := by
    apply List.filter_eq_nil_iff.mpr
    intro b hb
    simp [hb]
  rw [hlist, hfreed, List.append_nil] at hperm
  exact hperm

end Account

/-- In every run each block that `chunkfun` returned is on the list or was passed to `freefun`, and
only once; `_obstack_memory_used` is the size of those not released; freeing to the null pointer
releases the rest, can be done again to no effect, and leaves a state that runs go on from. An
operation for which a chunk is to be had returns. -/
theorem chunks_accounted (hal : IsAlignment alignment) (hfits : Fits A ob mem size alignment)
    {w : World} {s : Stack} (h : Run A ob mem size alignment (w, s)) :
    w.blocks.Nodup ∧ (onList w ++ w.freed).Perm w.blocks ∧
    memoryUsed w = .ok ((w.blocks.filter (· ∉ w.freed)).map (·.size)).sum ∧
    (∃ w', free A w 0 = .ok w' ∧ obstackFree A w 0 = .ok w' ∧ onList w' = [] ∧
      w'.blocks = w.blocks ∧ w'.freed = w.freed ++ onList w ∧
      free A w' 0 = .ok w' ∧ obstackFree A w' 0 = .ok w' ∧
      Run A ob mem size alignment (w', ⟨[], []⟩)) ∧
    ∀ op, Allowed w s op → CanAlloc A w (asked op) → ∃ r, exec A w op = .ok r := by
  obtain ⟨k, hk, hpow⟩ := hal.exists_pow
  obtain ⟨fs, hinv⟩ := Run.inv hk hpow hfits h
  refine ⟨hinv.nodup_blocks, ?_, ?_, ?_, ?_⟩
  · rw [hinv.onList_eq]
    exact hinv.accounts
  · have hsum : ((w.blocks.filter (· ∉ w.freed)).map (·.size)).sum =
        ((fs.map Frame.block).map (·.size)).sum := (hinv.unreleased.map _).sum_eq
    rw [hinv.memoryUsed_eq, hsum, List.map_map]
    rfl
  · obtain ⟨w', hfree, hinv', hfreed, hblocks⟩ := obstackFree_null A hinv hk
    have hmac : free A w 0 = .ok w' := by
      unfold free
      rw [if_neg (by omega), hfree]
    have hzero : w'.ob.chunk = 0 := hinv'.linked
    have hagain : obstackFree A w' 0 = .ok w' := by
      unfold obstackFree
      rw [if_pos hzero]
    have hmac' : free A w' 0 = .ok w' := by
      unfold free
      rw [if_neg (by omega), hagain]
    refine ⟨w', hmac, hfree, hinv'.onList_eq, hblocks, ?_, hmac', hagain, ?_⟩
    · rw [hinv.onList_eq]
      exact hfreed
    · refine .next h ⟨.freeAll, none, trivial, ?_, rfl⟩
      change (free A w 0).map (·, none) = _
      rw [hmac]
      rfl
  · intro op hop hcan
    rcases meets hinv hk hop with ⟨_, hno⟩ | ⟨w', result, hrun, _⟩
    · exact absurd hcan hno
    · exact ⟨_, hrun⟩

theorem chunks_accounted_finished :
    ∃ w w', free bump w 0 = .ok w' ∧ onList w' = [] ∧ w'.freed = w.freed ++ onList w ∧
      free bump w' 0 = .ok w' := by
  obtain ⟨w, hrun⟩ := finished_run
  obtain ⟨_, _, _, ⟨w', hfree, _, hlist, _, hfreed, hagain, _⟩, _⟩ :=
    chunks_accounted (.inl rfl) bump_fits hrun
  exact ⟨w, w', hfree, hlist, hfreed, hagain⟩

end MuslBsd.Obstack
