import MuslBsd.Obstack.Layout

/-! What each function of the obstack does to the object stack it stands for. -/
namespace MuslBsd.Obstack
open MuslBsd.Support

variable {k : ℕ} {w : World} {s : Stack} {fs : List Frame}

@[simp] theorem ok_bind {α β : Type} (a : α) (f : α → Except Stop β) :
    (Except.ok a >>= f) = f a := rfl

@[simp] theorem error_bind {α β : Type} (e : Stop) (f : α → Except Stop β) :
    (Except.error e >>= f) = .error e := rfl

theorem World.store_ok {chunk p : ℕ} {c : Chunk} {bytes : List UInt8}
    (hc : w.chunkAt chunk = some c) (hlo : chunk + contents ≤ p)
    (hhi : p + bytes.length ≤ c.block.stop) :
    w.store chunk p bytes = .ok { w with mem := w.mem.write p bytes } := by
  unfold World.store World.inside
  simp [hc, hlo, hhi]

/-! ### Chunk lists -/

section Chunks

variable {chunkAt chunkAt' : ℕ → Option Chunk} {chunk : ℕ}

theorem Linked.mem (h : Linked chunkAt chunk fs) {f : Frame} (hf : f ∈ fs) :
    ∃ prev, chunkAt f.block.addr = some ⟨f.block.stop, prev, f.block⟩ := by
  induction fs generalizing chunk with
  | nil => cases hf
  | cons g fs ih =>
    obtain ⟨rfl, prev, hc, hprev⟩ := h
    rcases List.mem_cons.mp hf with rfl | hf
    · exact ⟨prev, hc⟩
    · exact ih hprev hf

theorem Linked.congr (h : Linked chunkAt chunk fs)
    (he : ∀ f ∈ fs, chunkAt' f.block.addr = chunkAt f.block.addr) : Linked chunkAt' chunk fs := by
  induction fs generalizing chunk with
  | nil => exact h
  | cons g fs ih =>
    obtain ⟨rfl, prev, hc, hprev⟩ := h
    refine ⟨rfl, prev, ?_, ih hprev fun f hf => he f (List.mem_cons_of_mem g hf)⟩
    rw [he g List.mem_cons_self, hc]

end Chunks

/-- Blocks that are apart, with a byte in each, begin at different addresses. -/
theorem addr_ne_of_apart {a b : Extent} (h : a.Apart b) (ha : a.addr < a.stop)
    (hb : b.addr < b.stop) : a.addr ≠ b.addr := by
  rcases h with h | h <;> omega

/-- A world with `b` as a new first chunk and the growing object of `size` bytes at `base` in it. -/
def World.pushed (w : World) (b : Block) (m : Memory) (base size : ℕ) : World :=
  { ob := { w.ob with
      chunk := b.addr, objectBase := base, nextFree := base + size, chunkLimit := b.stop,
      maybeEmptyObject := false, allocFailed := false }
    chunkAt := Function.update w.chunkAt b.addr (some ⟨b.stop, w.ob.chunk, b⟩)
    mem := m, blocks := w.blocks ++ [b], freed := w.freed }

/-- A world in which `chunk` was linked past `old`, which was released. -/
def World.unlinked (w : World) (chunk old : ℕ) (c : Chunk) : World :=
  { w with
    chunkAt := Function.update (Function.update w.chunkAt chunk
      ((w.chunkAt chunk).map fun n => { n with prev := c.prev })) old none
    freed := w.freed ++ [c.block] }

/-- Objects with bytes in them do not fit in no room. -/
theorem Frame.objects_eq_nil (f : Frame) (hne : ∀ o ∈ f.objects, o.bytes ≠ []) {p : ℕ}
    (hp : Extent.Packed p f.extents p) : f.objects = [] := by
  apply List.eq_nil_iff_forall_not_mem.mpr
  intro o ho
  obtain ⟨hlo, hhi⟩ := hp.mem (List.mem_map_of_mem (f := Obj.extent) ho)
  unfold Extent.stop Obj.extent at hhi
  unfold Obj.extent at hlo
  dsimp only at hlo hhi
  exact hne o ho (List.eq_nil_of_length_eq_zero (by omega))

namespace Inv

theorem bounds (h : Inv k w s fs) (hk : k < 64) {f : Frame} (hf : f ∈ fs) :
    f.block.addr + contents ≤ startOf k f.block.toExtent ∧
      startOf k f.block.toExtent ≤ f.block.stop :=
  startOf_bounds hk (h.block f hf).2.1 (h.block f hf).2.2

theorem block_pos (h : Inv k w s fs) (hk : k < 64) {f : Frame} (hf : f ∈ fs) :
    f.block.addr < f.block.stop := by
  obtain ⟨hlo, hhi⟩ := h.bounds hk hf
  unfold contents at hlo
  omega

theorem nodup_blocks (h : Inv k w s fs) : w.blocks.Nodup := by
  have hnodup : (w.blocks.map Block.serial).Nodup := by
    rw [h.serials]
    exact List.nodup_range
  exact hnodup.of_map

/-- The blocks of the chunks on the list are outstanding. -/
theorem outstanding (h : Inv k w s fs) {f : Frame} (hf : f ∈ fs) : w.Outstanding f.block := by
  have hmem : f.block ∈ fs.map Frame.block := List.mem_map_of_mem hf
  constructor
  · exact h.accounts.subset (List.mem_append_left _ hmem)
  · intro hfreed
    have hnodup := h.accounts.nodup_iff.mpr h.nodup_blocks
    exact List.disjoint_of_nodup_append hnodup hmem hfreed

/-- Live objects lie in their chunk, past its header. -/
theorem packed_stop (h : Inv k w s fs) {f : Frame} (hf : f ∈ fs) :
    Extent.Packed (startOf k f.block.toExtent) f.extents f.block.stop := by
  cases fs with
  | nil => cases hf
  | cons g fs =>
    rcases List.mem_cons.mp hf with rfl | hf
    · obtain ⟨_, hle, hp, _⟩ := h.top
      exact hp.mono (by omega)
    · exact h.packed f hf

theorem object_bounds (h : Inv k w s fs) {f : Frame} (hf : f ∈ fs) {o : Obj}
    (ho : o ∈ f.objects) :
    startOf k f.block.toExtent ≤ o.addr ∧ o.addr + o.bytes.length ≤ f.block.stop :=
  (h.packed_stop hf).mem (List.mem_map_of_mem (f := Obj.extent) ho)

theorem live_frame (h : Inv k w s fs) {o : Obj} (ho : o ∈ s.live) :
    ∃ f ∈ fs, o ∈ f.objects := by
  rw [h.live] at ho
  exact List.mem_flatMap.mp ho

/-- Memory that is the same in a chunk still holds the live objects in it. -/
theorem object_held (h : Inv k w s fs) (hk : k < 64) {f : Frame} (hf : f ∈ fs) {o : Obj}
    (ho : o ∈ f.objects) {m : Memory}
    (hm : ∀ q, f.block.addr ≤ q → q < f.block.stop → m q = w.mem q) :
    m.Holds o.addr o.bytes := by
  obtain ⟨hlo, hhi⟩ := h.object_bounds hf ho
  obtain ⟨hstart, _⟩ := h.bounds hk hf
  have hlive : o ∈ s.live := by
    rw [h.live]
    exact List.mem_flatMap.mpr ⟨f, hf, ho⟩
  unfold contents at hstart
  apply (h.held o hlive).congr
  intro q hq hlt
  exact hm q (by omega) (by omega)

/-- Memory that is the same in the first chunk still holds the growing object. -/
theorem growing_held {f : Frame} (h : Inv k w s (f :: fs)) (hk : k < 64) {m : Memory}
    (hm : ∀ q, f.block.addr ≤ q → q < f.block.stop → m q = w.mem q) :
    m.Holds w.ob.objectBase s.growing := by
  obtain ⟨_, hle, hp, _⟩ := h.top
  obtain ⟨hstart, _⟩ := h.bounds hk List.mem_cons_self
  have hbase := hp.le
  unfold contents at hstart
  apply h.growing.congr
  intro q hq hlt
  exact hm q (by omega) (by omega)

/-- `next_free` is between `object_base` and `chunk_limit`, below the middle of the addresses. -/
theorem next_le (h : Inv k w s fs) :
    w.ob.nextFree ≤ w.ob.chunkLimit ∧ w.ob.chunkLimit ≤ 2 ^ 63 := by
  have hnext := h.next
  cases fs with
  | nil =>
    obtain ⟨hbase, hlimit, hlen, _⟩ := h.top
    exact ⟨by omega, by omega⟩
  | cons f fs =>
    obtain ⟨hlimit, hle, _, _⟩ := h.top
    obtain ⟨_, hstop, _⟩ := h.block f List.mem_cons_self
    exact ⟨by omega, by omega⟩

theorem objSize_eq (h : Inv k w s fs) :
    subSize w.ob.nextFree w.ob.objectBase = s.growing.length := by
  have hnext := h.next
  obtain ⟨hle, hlimit⟩ := h.next_le
  rw [subSize_eq (by omega) (by omega)]
  omega

theorem room_eq (h : Inv k w s fs) : room w = w.ob.chunkLimit - w.ob.nextFree := by
  obtain ⟨hle, hlimit⟩ := h.next_le
  exact subSize_eq hle (by omega)

/-! ### `_obstack_newchunk` -/

theorem growing_kept (h : Inv k w s fs) (hk : k < 64) {m : Memory}
    (hm : ∀ f ∈ fs, ∀ q, f.block.addr ≤ q → q < f.block.stop → m q = w.mem q) :
    m.Holds w.ob.objectBase s.growing := by
  cases fs with
  | nil =>
    obtain ⟨_, _, hlen, _⟩ := h.top
    rw [List.eq_nil_of_length_eq_zero hlen]
    exact Memory.holds_nil
  | cons f fs => exact h.growing_held hk (hm f List.mem_cons_self)

/-- Memory may change outside the chunks on the list. -/
theorem remember (h : Inv k w s fs) (hk : k < 64) {m : Memory}
    (hm : ∀ f ∈ fs, ∀ q, f.block.addr ≤ q → q < f.block.stop → m q = w.mem q) :
    Inv k { w with mem := m } s fs :=
  { h with
    growing := h.growing_kept hk hm
    held := by
      intro o ho
      obtain ⟨f, hf, hof⟩ := h.live_frame ho
      exact h.object_held hk hf hof (hm f hf) }

/-- A new chunk on top of the list takes over the growing object. -/
theorem push (h : Inv k w s fs) (hk : k < 64) {b : Block} {m : Memory}
    (hserial : b.serial = w.blocks.length) (hpos : 0 < b.addr) (hstop : b.stop ≤ 2 ^ 63)
    (hholds : HoldsHeader (2 ^ k) b.toExtent)
    (hroom : startOf k b.toExtent + s.growing.length ≤ b.stop)
    (hapart : ∀ f ∈ fs, b.toExtent.Apart f.block.toExtent)
    (hm : ∀ f ∈ fs, ∀ q, f.block.addr ≤ q → q < f.block.stop → m q = w.mem q)
    (hg : m.Holds (startOf k b.toExtent) s.growing) :
    Inv k (w.pushed b m (startOf k b.toExtent) s.growing.length) s (⟨b, []⟩ :: fs) := by
  obtain ⟨hlo, hhi⟩ := startOf_bounds hk hstop hholds
  have hne : ∀ f ∈ fs, f.block.addr ≠ b.addr := by
    intro f hf
    unfold contents at hlo
    exact (addr_ne_of_apart (hapart f hf) (by omega) (h.block_pos hk hf)).symm
  constructor
  · exact h.mask
  · refine ⟨rfl, w.ob.chunk, Function.update_self _ _ _, h.linked.congr ?_⟩
    intro f hf
    exact Function.update_of_ne (hne f hf) _ _
  · intro a c hc
    dsimp only [World.pushed] at hc
    by_cases ha : a = b.addr
    · subst ha
      rw [Function.update_self] at hc
      cases hc
      exact ⟨rfl, ⟨b, []⟩, List.mem_cons_self, rfl⟩
    · rw [Function.update_of_ne ha] at hc
      obtain ⟨haddr, f, hf, hb⟩ := h.only a c hc
      exact ⟨haddr, f, List.mem_cons_of_mem _ hf, hb⟩
  · intro f hf
    rcases List.mem_cons.mp hf with rfl | hf
    · exact ⟨hpos, hstop, hholds⟩
    · exact h.block f hf
  · exact List.pairwise_cons.mpr ⟨hapart, h.apart⟩
  · intro f hf
    exact h.packed_stop hf
  · refine ⟨rfl, hroom, le_refl _, ?_⟩
    intro _ o ho
    cases ho
  · rfl
  · exact h.live
  · exact hg
  · intro o ho
    obtain ⟨f, hf, hof⟩ := h.live_frame ho
    exact h.object_held hk hf hof (hm f hf)
  · have hperm := (h.accounts.cons b).trans (List.perm_append_singleton b w.blocks).symm
    exact hperm
  · simp [World.pushed, h.serials, hserial, List.range_succ]

/-- The second chunk of the list is released while it holds no live object. -/
theorem unlink {f g : Frame} (h : Inv k w s (f :: g :: fs)) (hk : k < 64) (hg : g.objects = [])
    {c : Chunk} (hc : w.chunkAt g.block.addr = some c) :
    Inv k (w.unlinked f.block.addr g.block.addr c) s (f :: fs) := by
  obtain ⟨hf, hgs⟩ := List.pairwise_cons.mp h.apart
  obtain ⟨hgf, hfs⟩ := List.pairwise_cons.mp hgs
  have hfg : f.block.addr ≠ g.block.addr :=
    addr_ne_of_apart (hf g (by simp)) (h.block_pos hk (by simp)) (h.block_pos hk (by simp))
  have hne : ∀ e ∈ fs, e.block.addr ≠ f.block.addr ∧ e.block.addr ≠ g.block.addr := by
    intro e he
    have hpos : e.block.addr < e.block.stop := h.block_pos hk (by simp [he])
    exact ⟨(addr_ne_of_apart (hf e (by simp [he])) (h.block_pos hk (by simp)) hpos).symm,
      (addr_ne_of_apart (hgf e he) (h.block_pos hk (by simp)) hpos).symm⟩
  have hsub : ∀ e ∈ f :: fs, e ∈ f :: g :: fs := by
    intro e he
    rcases List.mem_cons.mp he with rfl | he
    · exact List.mem_cons_self
    · exact List.mem_cons_of_mem _ (List.mem_cons_of_mem _ he)
  have hlive : s.live = (f :: fs).flatMap Frame.objects := by simp [h.live, hg]
  obtain ⟨hchunk, _, hcf, rfl, prev, hcg, hlink⟩ := h.linked
  obtain ⟨hprev, hcb⟩ : c.prev = prev ∧ c.block = g.block := by
    rw [hc] at hcg
    cases hcg
    exact ⟨rfl, rfl⟩
  rw [hchunk] at hcf
  constructor
  · exact h.mask
  · refine ⟨hchunk, c.prev, ?_, ?_⟩
    · dsimp only [World.unlinked]
      rw [hchunk, Function.update_of_ne hfg, Function.update_self, hcf]
      rfl
    · rw [hprev]
      apply hlink.congr
      intro e he
      dsimp only [World.unlinked]
      rw [Function.update_of_ne (hne e he).2, Function.update_of_ne (hne e he).1]
  · intro a d hd
    dsimp only [World.unlinked] at hd
    by_cases hag : a = g.block.addr
    · rw [hag, Function.update_self] at hd
      cases hd
    · rw [Function.update_of_ne hag] at hd
      by_cases haf : a = f.block.addr
      · rw [haf, Function.update_self, hcf] at hd
        cases hd
        exact ⟨haf, f, List.mem_cons_self, rfl⟩
      · rw [Function.update_of_ne haf] at hd
        obtain ⟨haddr, e, he, hb⟩ := h.only a d hd
        have heg : e ≠ g := by
          intro heg
          rw [heg] at hb
          exact hag (by rw [haddr, ← hb])
        exact ⟨haddr, e, by simpa [heg] using he, hb⟩
  · intro e he
    exact h.block e (hsub e he)
  · refine List.pairwise_cons.mpr ⟨?_, hfs⟩
    intro e he
    exact hf e (List.mem_cons_of_mem g he)
  · intro e he
    exact h.packed e (List.mem_cons_of_mem g he)
  · exact h.top
  · exact h.next
  · exact hlive
  · exact h.growing
  · exact h.held
  · have hmove : ((f :: fs).map Frame.block ++ (w.freed ++ [c.block])).Perm
        ((f :: g :: fs).map Frame.block ++ w.freed) := by
      simp only [List.map_cons, List.cons_append, hcb]
      apply List.Perm.cons
      rw [← List.append_assoc]
      exact List.perm_append_singleton _ _
    exact hmove.trans h.accounts
  · exact h.serials

end Inv

/-- A sum that passes the overflow check of `_obstack_newchunk` did not wrap. -/
theorem addSize_of_le {a b : ℕ} (hb : b < 2 ^ 64) (h : a ≤ addSize a b) :
    addSize a b = a + b := by
  unfold addSize at h ⊢
  omega

theorem newchunkSize_cases {h : Head} {length : ℕ} (hl : length < 2 ^ 64)
    (ho : subSize h.nextFree h.objectBase ≤ 2 ^ 63) (hmask : h.alignmentMask < 2 ^ 63) :
    newchunkSize h length = .error .allocFailed ∨
      ∃ n, newchunkSize h length = .ok n ∧
        subSize h.nextFree h.objectBase + length + h.alignmentMask + 100 ≤ n := by
  unfold newchunkSize
  dsimp only
  generalize subSize h.nextFree h.objectBase = objSize at *
  have hmargin : addSize h.alignmentMask 100 = h.alignmentMask + 100 := addSize_eq (by omega)
  by_cases hwrap : addSize objSize length < objSize
  · exact .inl (by rw [if_pos hwrap])
  · have hsum : addSize objSize length = objSize + length := addSize_of_le hl (by omega)
    rw [if_neg hwrap, hsum, hmargin]
    by_cases hmax : SIZE_MAX - (objSize + length) < h.alignmentMask + 100
    · exact .inl (by rw [if_pos hmax])
    · unfold SIZE_MAX at hmax ⊢
      have hsize : addSize (objSize + length) (h.alignmentMask + 100) =
          objSize + length + (h.alignmentMask + 100) := addSize_eq (by omega)
      rw [if_neg hmax, hsize]
      by_cases hgrowth : 2 ^ 64 - 1 - (objSize + length + (h.alignmentMask + 100)) < objSize >>> 3
      · exact .inl (by rw [if_pos hgrowth])
      · have htotal : addSize (objSize + length + (h.alignmentMask + 100)) (objSize >>> 3) =
            objSize + length + (h.alignmentMask + 100) + objSize >>> 3 := addSize_eq (by omega)
        rw [if_neg hgrowth, htotal]
        refine .inr ⟨_, rfl, ?_⟩
        split
        · omega
        · omega

/-- The blocks released on the way from one world to another are apart from all that are left. -/
def Released (w w' : World) (fs : List Frame) : Prop :=
  ∃ released, w'.freed = w.freed ++ released ∧
    ∀ b ∈ released, ∀ f ∈ fs, b.toExtent.Apart f.block.toExtent

theorem Released.refl (w : World) (fs : List Frame) : Released w w fs :=
  ⟨[], by simp, by simp⟩

section Newchunk

variable (A : Allocator) {length n addr : ℕ}

theorem callChunkfun_some (ha : A.chunkfun w n = some addr) :
    callChunkfun A w n = .ok ({ w with
      chunkAt := Function.update w.chunkAt addr (some ⟨0, 0, ⟨⟨addr, n⟩, w.blocks.length⟩⟩)
      mem := A.memory w, blocks := w.blocks ++ [⟨⟨addr, n⟩, w.blocks.length⟩] }, addr) := by
  simp [callChunkfun, ha]

/-- The world in `_obstack_newchunk` once the growing object is in the new chunk. -/
def moved (w : World) (addr n base : ℕ) : World :=
  let objSize := subSize w.ob.nextFree w.ob.objectBase
  { ob := { w.ob with
      chunkLimit := addSize addr n, objectBase := base, nextFree := addSize base objSize }
    chunkAt := Function.update w.chunkAt addr
      (some ⟨addSize addr n, w.ob.chunk, ⟨⟨addr, n⟩, w.blocks.length⟩⟩)
    mem := (A.memory w).write base ((A.memory w).read w.ob.objectBase objSize)
    blocks := w.blocks ++ [⟨⟨addr, n⟩, w.blocks.length⟩]
    freed := w.freed }

theorem newchunk_eq (hsize : newchunkSize w.ob length = .ok n)
    (ha : A.chunkfun w n = some addr)
    (hlo : addr + contents ≤ ptrAlign (addSize addr contents) w.ob.alignmentMask)
    (hhi : ptrAlign (addSize addr contents) w.ob.alignmentMask +
      subSize w.ob.nextFree w.ob.objectBase ≤ addr + n) :
    newchunk A w length =
      (releaseOld A (moved A w addr n (ptrAlign (addSize addr contents) w.ob.alignmentMask))
        w.ob addr).map fun w => { w with ob := { w.ob with
          chunk := addr, maybeEmptyObject := false, allocFailed := false } } := by
  have hset : ({ w with
      chunkAt := Function.update w.chunkAt addr (some ⟨0, 0, ⟨⟨addr, n⟩, w.blocks.length⟩⟩)
      mem := A.memory w, blocks := w.blocks ++ [⟨⟨addr, n⟩, w.blocks.length⟩] } : World).setChunk
        addr (fun c => { c with prev := w.ob.chunk, limit := addSize addr n }) =
      { w with
        chunkAt := Function.update w.chunkAt addr
          (some ⟨addSize addr n, w.ob.chunk, ⟨⟨addr, n⟩, w.blocks.length⟩⟩)
        mem := A.memory w, blocks := w.blocks ++ [⟨⟨addr, n⟩, w.blocks.length⟩] } := by
    simp [World.setChunk]
  unfold newchunk
  dsimp only
  rw [hsize, ok_bind, callChunkfun_some A ha, ok_bind]
  dsimp only
  rw [hset, World.store_ok (Function.update_self _ _ _) hlo (by simpa [Extent.stop] using hhi),
    ok_bind]
  unfold moved
  dsimp only
  cases releaseOld A _ w.ob addr with
  | error e => rfl
  | ok v => rfl

theorem releaseOld_ok {old : Head} {c : Chunk} (hflag : old.maybeEmptyObject = false)
    (hbase : old.objectBase = ptrAlign (addSize old.chunk contents) old.alignmentMask)
    (hc : w.chunkAt old.chunk = some c) (hne : old.chunk ≠ addr) :
    releaseOld A w old addr =
      .ok { w.unlinked addr old.chunk c with mem := A.memory (w.unlinked addr old.chunk c) } := by
  have hc' : (w.setChunk addr fun n => { n with prev := c.prev }).chunkAt old.chunk = some c := by
    unfold World.setChunk
    dsimp only
    rw [Function.update_of_ne hne, hc]
  unfold releaseOld
  rw [if_pos (by simpa using ⟨hflag, hbase⟩), hc]
  unfold callFreefun
  dsimp only
  rw [hc']
  rfl

/-- The size of a new chunk does not overflow, and `chunkfun` has a block of it. -/
def CanAlloc (w : World) (length : ℕ) : Prop :=
  ∃ n addr, newchunkSize w.ob length = .ok n ∧ A.chunkfun w n = some addr

/-- What `_obstack_newchunk` does: it calls the handler, or it moves the growing object to a chunk
with the room asked for and releases at most the chunk that held nothing else. -/
theorem newchunk_spec (h : Inv k w s fs) (hk : k < 64) (hl : length < 2 ^ 64) :
    newchunk A w length = .error .allocFailed ∧ ¬CanAlloc A w length ∨
      ∃ w' fs', newchunk A w length = .ok w' ∧ Inv k w' s fs' ∧ length ≤ room w' ∧
        Released w w' fs' := by
  have hobj := h.objSize_eq
  have hpow : 2 ^ k ≤ 2 ^ 63 := Nat.pow_le_pow_right (by decide) (by omega)
  have hpos : 0 < 2 ^ k := Nat.two_pow_pos k
  obtain ⟨hnextle, hlimit⟩ := h.next_le
  have hnext := h.next
  have hmask := h.mask
  rcases newchunkSize_cases (h := w.ob) hl (by omega) (by omega) with hsize | ⟨n, hsize, hn⟩
  · left
    constructor
    · unfold newchunk
      dsimp only
      rw [hsize, error_bind]
    · intro ⟨n, addr, hn, _⟩
      rw [hsize] at hn
      cases hn
  cases ha : A.chunkfun w n with
  | none =>
    left
    constructor
    · unfold newchunk callChunkfun
      simp [hsize, ha]
    · intro ⟨n', addr, hn', haddr⟩
      rw [hsize] at hn'
      cases hn'
      rw [ha] at haddr
      cases haddr
  | some addr =>
    right
    obtain ⟨haddr, hstop, hfresh⟩ := A.fresh w n addr ha
    rw [hobj, hmask] at hn
    obtain ⟨b, hb⟩ : ∃ b : Block, b = ⟨⟨addr, n⟩, w.blocks.length⟩ := ⟨_, rfl⟩
    obtain rfl : b.addr = addr := by rw [hb]
    have hbsize : b.size = n := by rw [hb]
    have hbstop : b.stop = b.addr + n := by rw [← hbsize]; rfl
    have hserial : b.serial = w.blocks.length := by rw [hb]
    have hapart : ∀ f ∈ fs, b.toExtent.Apart f.block.toExtent := by
      intro f hf
      have hap := hfresh _ (h.outstanding hf)
      rw [← hbsize] at hap
      exact hap
    obtain ⟨hholds, hroom⟩ := holdsHeader_of_size (e := b.toExtent)
      (n := s.growing.length + length) hk (by omega) (by unfold contents; omega)
    obtain ⟨hlo, hhi⟩ := startOf_bounds hk (by omega) hholds
    have hbase : ptrAlign (addSize b.addr contents) w.ob.alignmentMask = startOf k b.toExtent := by
      rw [hmask]
      rfl
    have hkeep : ∀ f ∈ fs, ∀ q, f.block.addr ≤ q → q < f.block.stop →
        A.memory w q = w.mem q := by
      intro f hf q hq hlt
      exact A.keeps w _ q (h.outstanding hf) hq hlt
    have hm : ∀ f ∈ fs, ∀ q, f.block.addr ≤ q → q < f.block.stop →
        ((A.memory w).write (startOf k b.toExtent)
          ((A.memory w).read w.ob.objectBase s.growing.length)) q = w.mem q := by
      intro f hf q hq hlt
      rw [Memory.write_outside, hkeep f hf q hq hlt]
      rw [Memory.read_length]
      unfold contents at hlo
      rcases hapart f hf with hap | hap
      · omega
      · omega
    have hpush := h.push hk hserial (by omega) (by omega) hholds (by omega) hapart hm
      ((h.growing_kept hk hkeep).copy rfl)
    have hmoved : ({ moved A w b.addr n (startOf k b.toExtent) with
        ob := { (moved A w b.addr n (startOf k b.toExtent)).ob with
          chunk := b.addr, maybeEmptyObject := false, allocFailed := false } } : World) =
        w.pushed b ((A.memory w).write (startOf k b.toExtent)
          ((A.memory w).read w.ob.objectBase s.growing.length))
          (startOf k b.toExtent) s.growing.length := by
      have hlimit : addSize b.addr n = b.addr + n := addSize_eq (by omega)
      have hfree : addSize (startOf k b.toExtent) s.growing.length =
          startOf k b.toExtent + s.growing.length := addSize_eq (by omega)
      unfold moved World.pushed
      dsimp only
      rw [hobj, hlimit, hfree, hbstop, ← hb]
    rw [newchunk_eq A hsize ha (by omega) (by omega), hbase]
    have hroom' : length ≤ b.stop - (startOf k b.toExtent + s.growing.length) := by omega
    by_cases hrel : w.ob.maybeEmptyObject = false ∧
        w.ob.objectBase = ptrAlign (addSize w.ob.chunk contents) w.ob.alignmentMask
    · obtain ⟨hflag, hold⟩ := hrel
      cases fs with
      | nil =>
        obtain ⟨_, _, _, htrue⟩ := h.top
        rw [hflag] at htrue
        cases htrue
      | cons f fs =>
        obtain ⟨hchunk, hlink⟩ := h.linked
        obtain ⟨prev, hc⟩ := h.linked.mem (List.mem_cons_self)
        have hobjects : f.objects = [] := by
          obtain ⟨_, _, hp, hne⟩ := h.top
          rw [hmask, hchunk] at hold
          exact f.objects_eq_nil (hne hflag) (hold ▸ hp)
        have hfb : f.block.addr ≠ b.addr :=
          (addr_ne_of_apart (hapart f List.mem_cons_self) (by unfold contents at hlo; omega)
            (h.block_pos hk List.mem_cons_self)).symm
        have hcp : (w.pushed b ((A.memory w).write (startOf k b.toExtent)
            ((A.memory w).read w.ob.objectBase s.growing.length))
            (startOf k b.toExtent) s.growing.length).chunkAt f.block.addr =
              some ⟨f.block.stop, prev, f.block⟩ := by
          unfold World.pushed
          dsimp only
          rw [Function.update_of_ne hfb, hc]
        have hunlink := hpush.unlink hk hobjects hcp
        have hrelease := releaseOld_ok A (w := moved A w b.addr n (startOf k b.toExtent))
          (c := ⟨f.block.stop, prev, f.block⟩) hflag hold
          (by rw [hchunk, ← hcp, ← hmoved]) (by rw [hchunk]; exact hfb)
        rw [hchunk] at hrelease
        rw [hrelease]
        have hmem := congrArg World.mem hmoved
        have hinv := hunlink.remember hk (m := A.memory ((moved A w b.addr n
          (startOf k b.toExtent)).unlinked b.addr f.block.addr ⟨f.block.stop, prev, f.block⟩)) <| by
            intro e he q hq hlt
            have hout : ((moved A w b.addr n (startOf k b.toExtent)).unlinked b.addr
                f.block.addr ⟨f.block.stop, prev, f.block⟩).Outstanding e.block := by
              have hout := hunlink.outstanding he
              rw [← hmoved] at hout
              exact hout
            exact (A.keeps _ _ q hout hq hlt).trans (congrFun hmem q)
        refine ⟨_, _, ?_, hinv, by rw [hinv.room_eq]; exact hroom', [f.block], ?_, ?_⟩
        · rw [← hmoved]
          rfl
        · rfl
        · intro g hg e he
          rw [List.mem_singleton.mp hg]
          rcases List.mem_cons.mp he with rfl | he
          · exact (hapart f List.mem_cons_self).symm
          · exact (List.pairwise_cons.mp h.apart).1 e he
    · have hkept : releaseOld A (moved A w b.addr n (startOf k b.toExtent)) w.ob b.addr =
          .ok (moved A w b.addr n (startOf k b.toExtent)) := by
        unfold releaseOld
        rw [if_neg (by simpa using hrel)]
      rw [hkept]
      exact ⟨_, _, congrArg Except.ok hmoved, hpush, by rw [hpush.room_eq]; exact hroom',
        ⟨[], by simp [World.pushed], by simp⟩⟩

end Newchunk

/-! ### Growing -/

namespace Inv

/-- Live objects do not reach above `object_base` in the first chunk. -/
theorem live_held (h : Inv k w s fs) (hk : k < 64) {m : Memory}
    (hm : ∀ q, q < w.ob.objectBase ∨ w.ob.chunkLimit ≤ q → m q = w.mem q) {o : Obj}
    (ho : o ∈ s.live) : m.Holds o.addr o.bytes := by
  obtain ⟨f, hf, hof⟩ := h.live_frame ho
  apply (h.held o ho).congr
  intro q hq hlt
  apply hm
  cases fs with
  | nil => cases hf
  | cons g fs =>
    obtain ⟨hlimit, hle, hp, _⟩ := h.top
    rcases List.mem_cons.mp hf with rfl | hf
    · have hstop : o.extent.stop ≤ w.ob.objectBase := (hp.mem (List.mem_map_of_mem hof)).2
      unfold Extent.stop Obj.extent at hstop
      left
      dsimp only at hstop
      omega
    · obtain ⟨hlo, hhi⟩ := h.object_bounds (List.mem_cons_of_mem g hf) hof
      obtain ⟨hstart, _⟩ := h.bounds hk (List.mem_cons_of_mem g hf)
      obtain ⟨hgstart, _⟩ := h.bounds hk (f := g) List.mem_cons_self
      have hbase := hp.le
      unfold contents at hstart hgstart
      rcases (List.pairwise_cons.mp h.apart).1 f hf with hap | hap
      · right
        omega
      · left
        omega

/-- Memory may change in the room behind the growing object. -/
theorem scribble (h : Inv k w s fs) (hk : k < 64) {m : Memory}
    (hm : ∀ q, q < w.ob.nextFree ∨ w.ob.chunkLimit ≤ q → m q = w.mem q) :
    Inv k { w with mem := m } s fs := by
  have hnext := h.next
  refine { h with growing := ?_, held := ?_ }
  · apply h.growing.congr
    intro q hq hlt
    exact hm q (.inl (by omega))
  · intro o ho
    apply h.live_held hk _ ho
    intro q hq
    apply hm
    rcases hq with hq | hq
    · left
      omega
    · exact .inr hq

/-- The growing object takes in the bytes behind it. -/
theorem advance (h : Inv k w s fs) {l : List (Option UInt8)} (hroom : l.length ≤ room w)
    (hb : w.mem.Holds w.ob.nextFree l) :
    Inv k (advance w l.length) (s.append l) fs ∧
      room (Obstack.advance w l.length) + l.length = room w := by
  obtain ⟨hle, hlimit⟩ := h.next_le
  have hnext := h.next
  have hadd : addSize w.ob.nextFree l.length = w.ob.nextFree + l.length := by
    rw [h.room_eq] at hroom
    exact addSize_eq (by omega)
  rw [h.room_eq] at hroom
  have hinv : Inv k (Obstack.advance w l.length) (s.append l) fs := by
    refine { h with top := ?_, next := ?_, growing := ?_ }
    · unfold Stack.append
      rw [List.length_append]
      cases fs with
      | nil =>
        obtain ⟨hbase, hlim, hlen, hflag⟩ := h.top
        exact ⟨hbase, hlim, by omega, hflag⟩
      | cons f fs =>
        obtain ⟨hlim, hgrown, hp, hflag⟩ := h.top
        refine ⟨hlim, ?_, hp, hflag⟩
        unfold Obstack.advance
        dsimp only
        omega
    · unfold Obstack.advance Stack.append
      dsimp only
      rw [hadd, List.length_append]
      omega
    · exact Memory.holds_append.mpr ⟨h.growing, hnext ▸ hb⟩
  refine ⟨hinv, ?_⟩
  rw [hinv.room_eq, h.room_eq]
  unfold Obstack.advance
  dsimp only
  rw [hadd]
  omega

/-- A store into the first chunk, past its header. -/
theorem store_first (h : Inv k w s fs) (hk : k < 64) {p : ℕ} {bytes : List UInt8}
    (hlo : w.ob.objectBase ≤ p) (hhi : p + bytes.length ≤ w.ob.chunkLimit) :
    w.store w.ob.chunk p bytes = .ok { w with mem := w.mem.write p bytes } := by
  cases fs with
  | nil =>
    obtain ⟨_, hlimit, _, _⟩ := h.top
    have hlen : bytes.length = 0 := by omega
    unfold World.store World.inside
    cases hc : w.chunkAt w.ob.chunk <;> simp [hlen]
  | cons f fs =>
    obtain ⟨hlimit, hle, hp, _⟩ := h.top
    obtain ⟨hchunk, prev, hc, _⟩ := h.linked
    obtain ⟨hstart, _⟩ := h.bounds hk (f := f) List.mem_cons_self
    have hbase := hp.le
    exact World.store_ok hc (by omega) (by dsimp only; omega)

/-- Bytes may be written in the room behind the growing object. -/
theorem spill (h : Inv k w s fs) (hk : k < 64) (bytes : List UInt8)
    (hroom : bytes.length ≤ room w) :
    w.store w.ob.chunk w.ob.nextFree bytes =
        .ok { w with mem := w.mem.write w.ob.nextFree bytes } ∧
      Inv k { w with mem := w.mem.write w.ob.nextFree bytes } s fs := by
  have hnext := h.next
  obtain ⟨hle, _⟩ := h.next_le
  rw [h.room_eq] at hroom
  refine ⟨h.store_first hk (by omega) (by omega), ?_⟩
  apply h.scribble hk
  intro q hq
  apply Memory.write_outside
  rcases hq with hq | hq
  · exact .inl hq
  · right
    omega

theorem put (h : Inv k w s fs) (hk : k < 64) (bytes : List UInt8)
    (hroom : bytes.length ≤ room w) :
    ∃ w', put w bytes = .ok w' ∧ Inv k w' (s.append (bytes.map some)) fs ∧
      room w' + bytes.length = room w ∧ w'.freed = w.freed := by
  obtain ⟨hstore, hinv⟩ := h.spill hk bytes hroom
  obtain ⟨hadv, hleft⟩ := hinv.advance (l := bytes.map some) (by rw [List.length_map]; exact hroom)
    (Memory.holds_write bytes)
  rw [List.length_map] at hadv hleft
  refine ⟨_, ?_, hadv, hleft, rfl⟩
  unfold Obstack.put
  rw [hstore, ok_bind]

/-- A client's write into the growing object. -/
theorem fill (h : Inv k w s fs) (hk : k < 64) {offset : ℕ} {bytes : List UInt8}
    (hfit : offset + bytes.length ≤ s.growing.length) :
    ∃ w', fill w offset bytes = .ok w' ∧ Inv k w' (s.fill offset bytes) fs ∧
      w'.freed = w.freed := by
  have hnext := h.next
  obtain ⟨hle, _⟩ := h.next_le
  have hlen : (s.fill offset bytes).growing.length = s.growing.length := by
    unfold Stack.fill
    simp only [List.length_append, List.length_take, List.length_map, List.length_drop]
    omega
  refine ⟨{ w with mem := w.mem.write (w.ob.objectBase + offset) bytes },
    h.store_first hk (by omega) (by omega), ?_, rfl⟩
  refine { h with top := ?_, next := ?_, growing := ?_, held := ?_ }
  · rw [hlen]
    exact h.top
  · rw [hlen]
    exact hnext
  · have hsplit : s.growing = s.growing.take offset ++
        ((s.growing.drop offset).take bytes.length ++ s.growing.drop (offset + bytes.length)) := by
      rw [← List.drop_drop, List.take_append_drop, List.take_append_drop]
    have hgrow := h.growing
    rw [hsplit, Memory.holds_append, Memory.holds_append] at hgrow
    obtain ⟨hbefore, _, hafter⟩ := hgrow
    have htake : (s.growing.take offset).length = offset := by
      rw [List.length_take]
      omega
    have hmid : ((s.growing.drop offset).take bytes.length).length = bytes.length := by
      rw [List.length_take, List.length_drop]
      omega
    rw [htake, hmid] at hafter
    unfold Stack.fill
    rw [Memory.holds_append, Memory.holds_append, List.length_append, List.length_map, htake]
    refine ⟨⟨?_, Memory.holds_write bytes⟩, ?_⟩
    · apply hbefore.congr
      intro q hq hlt
      exact Memory.write_outside (.inl (by omega))
    · rw [← Nat.add_assoc]
      apply hafter.congr
      intro q hq hlt
      exact Memory.write_outside (.inr (by omega))
  · intro o ho
    apply h.live_held hk _ ho
    intro q hq
    apply Memory.write_outside
    rcases hq with hq | hq
    · left
      omega
    · right
      omega

end Inv

theorem makeRoom_spec (A : Allocator) (length : ℕ) (h : Inv k w s fs) (hk : k < 64)
    (hl : length < 2 ^ 64) :
    makeRoom A w length = .error .allocFailed ∧ ¬CanAlloc A w length ∨
      ∃ w' fs', makeRoom A w length = .ok w' ∧ Inv k w' s fs' ∧ length ≤ room w' ∧
        Released w w' fs' := by
  unfold makeRoom
  by_cases hroom : room w < length
  · rw [if_pos hroom]
    exact newchunk_spec A h hk hl
  · rw [if_neg hroom]
    exact .inr ⟨w, fs, rfl, h, Nat.le_of_not_lt hroom, .refl w fs⟩

/-! ### Finishing -/

/-- A new object in the first chunk. -/
def pushObject (o : Obj) : List Frame → List Frame
  | [] => []
  | f :: fs => ⟨f.block, o :: f.objects⟩ :: fs

@[simp] theorem map_block_pushObject (o : Obj) (fs : List Frame) :
    (pushObject o fs).map Frame.block = fs.map Frame.block := by
  cases fs with
  | nil => rfl
  | cons f fs => rfl

theorem Released.congr {w₁ w₂ : World} {gs : List Frame} (h : Released w w₁ fs)
    (hw : w₂.freed = w₁.freed) (hgs : gs.map Frame.block = fs.map Frame.block) :
    Released w w₂ gs := by
  obtain ⟨released, hfreed, hap⟩ := h
  refine ⟨released, hw.trans hfreed, ?_⟩
  intro b hb g hg
  have hmem : g.block ∈ fs.map Frame.block := hgs ▸ List.mem_map_of_mem hg
  obtain ⟨f, hf, hfg⟩ := List.mem_map.mp hmem
  rw [← hfg]
  exact hap b hb f hf

/-- Where `obstack_finish` puts the next object. -/
theorem finish_next (h : Inv k w s fs) (hk : k < 64) :
    w.ob.nextFree ≤ (finish w).1.ob.nextFree ∧
      (finish w).1.ob.nextFree ≤ w.ob.chunkLimit := by
  obtain ⟨hle, hlimit⟩ := h.next_le
  have hpow : 2 ^ k ≤ 2 ^ 63 := Nat.pow_le_pow_right (by decide) (by omega)
  have halign : w.ob.nextFree ≤ ptrAlign w.ob.nextFree w.ob.alignmentMask := by
    rw [h.mask]
    exact le_ptrAlign hk (by omega)
  unfold finish
  dsimp only
  by_cases hclamp : ptrAlign w.ob.nextFree w.ob.alignmentMask > w.ob.chunkLimit
  · rw [if_pos hclamp]
    exact ⟨hle, le_refl _⟩
  · rw [if_neg hclamp]
    exact ⟨halign, Nat.le_of_not_lt hclamp⟩

theorem finish_spec (h : Inv k w s fs) (hk : k < 64) :
    Inv k (finish w).1 (s.finish (finish w).2)
      (pushObject ⟨w.ob.objectBase, s.growing⟩ fs) := by
  obtain ⟨hlo, hhi⟩ := finish_next h hk
  have hbase : (finish w).1.ob.objectBase = (finish w).1.ob.nextFree := rfl
  have hnext := h.next
  cases fs with
  | nil =>
    obtain ⟨hzero, hlimit, hlen, hflag⟩ := h.top
    have hlive : s.finish (finish w).2 = ⟨[], s.live⟩ := by
      unfold Stack.finish finish
      dsimp only
      rw [if_pos hzero]
    rw [hlive]
    refine { h with top := ?_, next := ?_, growing := Memory.holds_nil }
    · refine ⟨by omega, hlimit, rfl, ?_⟩
      unfold finish
      dsimp only
      rw [hflag, ite_self]
    · rfl
  | cons f fs =>
    obtain ⟨hlimit, hle, hp, hflag⟩ := h.top
    obtain ⟨hstart, _⟩ := h.bounds hk (f := f) List.mem_cons_self
    have hpos := hp.le
    have hne : w.ob.objectBase ≠ 0 := by
      unfold contents at hstart
      omega
    have hlive : s.finish (finish w).2 = ⟨[], ⟨w.ob.objectBase, s.growing⟩ :: s.live⟩ := by
      unfold Stack.finish finish
      dsimp only
      rw [if_neg hne]
    rw [hlive]
    refine { h with
      linked := h.linked, only := ?_, block := ?_, apart := ?_, packed := h.packed, top := ?_,
      next := rfl, live := ?_, growing := Memory.holds_nil, held := ?_, accounts := h.accounts }
    · intro a c hc
      obtain ⟨haddr, g, hg, hgc⟩ := h.only a c hc
      rcases List.mem_cons.mp hg with rfl | hg
      · exact ⟨haddr, _, List.mem_cons_self, hgc⟩
      · exact ⟨haddr, g, List.mem_cons_of_mem _ hg, hgc⟩
    · intro g hg
      rcases List.mem_cons.mp hg with rfl | hg
      · exact h.block f List.mem_cons_self
      · exact h.block g (List.mem_cons_of_mem f hg)
    · exact List.pairwise_cons.mpr (List.pairwise_cons.mp h.apart)
    · refine ⟨hlimit, ?_, ⟨?_, hp⟩, ?_⟩
      · change (finish w).1.ob.objectBase + 0 ≤ f.block.stop
        omega
      · unfold Extent.stop Obj.extent
        dsimp only
        omega
      · intro hempty o ho
        unfold finish at hempty
        dsimp only at hempty
        by_cases hgrown : w.ob.nextFree = w.ob.objectBase
        · rw [if_pos hgrown] at hempty
          cases hempty
        · rw [if_neg hgrown] at hempty
          rcases List.mem_cons.mp ho with rfl | ho
          · intro hnil
            dsimp only at hnil
            rw [hnil] at hnext
            exact hgrown hnext
          · exact hflag hempty o ho
    · unfold pushObject
      simp [h.live]
    · intro o ho
      rcases List.mem_cons.mp ho with rfl | ho
      · exact h.growing
      · exact h.held o ho

/-! ### Freeing -/

theorem Linked.drop {chunkAt : ℕ → Option Chunk} {chunk : ℕ} {gs : List Frame} {f : Frame}
    (h : Linked chunkAt chunk (gs ++ f :: fs)) : Linked chunkAt f.block.addr (f :: fs) := by
  induction gs generalizing chunk with
  | nil =>
    obtain ⟨hchunk, hrest⟩ := h
    rw [hchunk] at hrest
    exact ⟨rfl, hrest⟩
  | cons g gs ih =>
    obtain ⟨_, prev, _, hprev⟩ := h
    exact ih hprev

theorem Inv.nodup (h : Inv k w s fs) (hk : k < 64) :
    (fs.map fun f => f.block.addr).Nodup := by
  apply List.pairwise_map.mpr
  apply h.apart.imp_of_mem
  intro f g hf hg hap
  exact addr_ne_of_apart hap (h.block_pos hk hf) (h.block_pos hk hg)

/-- The chunks of `gs` were released, those of `fs` are left. -/
structure Unwound (w w' : World) (gs fs : List Frame) : Prop where
  chunkAt : ∀ a, w'.chunkAt a =
    if a ∈ gs.map (fun g => g.block.addr) then none else w.chunkAt a
  mem : ∀ f ∈ fs, ∀ q, f.block.addr ≤ q → q < f.block.stop → w'.mem q = w.mem q
  blocks : w'.blocks = w.blocks
  freed : w'.freed = w.freed ++ gs.map Frame.block
  mask : w'.ob.alignmentMask = w.ob.alignmentMask

theorem releaseWhile_spec (A : Allocator) (go : ℕ → Chunk → Bool) {each : World → World}
    (heach : ∀ w, Unwound w (each w) [] [] ∧ (each w).mem = w.mem) (gs fs : List Frame)
    {fuel chunk : ℕ} (hfuel : gs.length < fuel) (hlink : Linked w.chunkAt chunk (gs ++ fs))
    (hnodup : ((gs ++ fs).map fun f => f.block.addr).Nodup)
    (hblocks : w.blocks.Nodup)
    (haccounts : ((gs ++ fs).map Frame.block ++ w.freed).Perm w.blocks)
    (hpos : ∀ f ∈ gs ++ fs, 0 < f.block.addr)
    (hgo : ∀ g ∈ gs, ∀ prev, go g.block.addr ⟨g.block.stop, prev, g.block⟩ = true)
    (hstay : ∀ f ∈ fs.head?, ∀ prev, go f.block.addr ⟨f.block.stop, prev, f.block⟩ = false) :
    ∃ w', releaseWhile A go each fuel w chunk =
        .ok (w', (fs.head?.map fun f => f.block.addr).getD 0) ∧ Unwound w w' gs fs := by
  induction gs generalizing fuel chunk w with
  | nil =>
    refine ⟨w, ?_, by simp, by simp, rfl, by simp, rfl⟩
    cases fuel with
    | zero => cases hfuel
    | succ fuel =>
      cases fs with
      | nil =>
        have hchunk : chunk = 0 := hlink
        unfold releaseWhile
        rw [if_pos hchunk]
        rfl
      | cons f fs =>
        obtain ⟨rfl, prev, hc, _⟩ := hlink
        have hne : f.block.addr ≠ 0 := Nat.ne_of_gt (hpos f List.mem_cons_self)
        unfold releaseWhile
        rw [if_neg hne, hc]
        simp [hstay f rfl prev]
  | cons g gs ih =>
    cases fuel with
    | zero => cases hfuel
    | succ fuel =>
      obtain ⟨rfl, prev, hc, hrest⟩ := hlink
      have hne : g.block.addr ≠ 0 := Nat.ne_of_gt (hpos g List.mem_cons_self)
      obtain ⟨hnot, hnodup⟩ := List.nodup_cons.mp hnodup
      have hother : ∀ f ∈ gs ++ fs, f.block.addr ≠ g.block.addr := by
        intro f hf heq
        exact hnot (List.mem_map.mpr ⟨f, hf, heq⟩)
      obtain ⟨v, hv⟩ : ∃ v : World, v = { w with
        chunkAt := Function.update w.chunkAt g.block.addr none
        freed := w.freed ++ [g.block] } := ⟨_, rfl⟩
      have hfree : callFreefun A w g.block.addr = .ok { v with mem := A.memory v } := by
        unfold callFreefun
        rw [hc, hv]
      obtain ⟨⟨hat, _, hsame, hfreed, hmask⟩, hmem⟩ := heach { v with mem := A.memory v }
      have hmove : ((gs ++ fs).map Frame.block ++ (w.freed ++ [g.block])).Perm w.blocks := by
        refine List.Perm.trans ?_ haccounts
        rw [← List.append_assoc]
        exact List.perm_append_singleton _ _
      have hkeep : ∀ f ∈ gs ++ fs,
          (each { v with mem := A.memory v }).chunkAt f.block.addr = w.chunkAt f.block.addr := by
        intro f hf
        rw [hat, hv]
        simp [Function.update_of_ne (hother f hf)]
      obtain ⟨w', hrun, hw'⟩ := ih (Nat.lt_of_succ_lt_succ hfuel) (hrest.congr hkeep) hnodup
        (by rw [hsame, hv]; exact hblocks)
        (by rw [hfreed, hsame, hv, List.map_nil, List.append_nil]; exact hmove)
        (fun f hf => hpos f (List.mem_cons_of_mem g hf))
        (fun f hf => hgo f (List.mem_cons_of_mem g hf))
      refine ⟨w', ?_, ?_, ?_, ?_, ?_, ?_⟩
      · unfold releaseWhile
        rw [if_neg hne, hc]
        dsimp only
        rw [if_pos (hgo g List.mem_cons_self prev), hfree, ok_bind, hrun]
      · intro a
        rw [hw'.chunkAt, hat, hv]
        by_cases ha : a = g.block.addr
        · simp [ha]
        · simp [ha]
      · intro f hf q hq hlt
        have hout : v.Outstanding f.block := by
          have hmem : f.block ∈ (gs ++ fs).map Frame.block :=
            List.mem_map_of_mem (List.mem_append_right gs hf)
          rw [hv]
          constructor
          · exact hmove.subset (List.mem_append_left _ hmem)
          · exact List.disjoint_of_nodup_append (hmove.nodup_iff.mpr hblocks) hmem
        rw [hw'.mem f hf q hq hlt, hmem]
        dsimp only
        rw [A.keeps v _ q hout hq hlt, hv]
      · rw [hw'.blocks, hsame, hv]
      · rw [hw'.freed, hfreed, hv]
        simp
      · rw [hw'.mask, hmask, hv]

theorem unwound_markEmpty (w : World) :
    Unwound w (markEmpty w) [] [] ∧ (markEmpty w).mem = w.mem :=
  ⟨⟨by simp [markEmpty], by simp, rfl, by simp [markEmpty], rfl⟩, rfl⟩

theorem unwound_id (w : World) : Unwound w (id w) [] [] ∧ (id w).mem = w.mem :=
  ⟨⟨by simp, by simp, rfl, by simp, rfl⟩, rfl⟩

/-- The list is cut to the chunk `f`, and that to the objects below `p`. -/
theorem Inv.cut {gs : List Frame} {f : Frame} {older newer : List Obj}
    (h : Inv k w s (gs ++ f :: fs)) (hk : k < 64) (hobjects : f.objects = newer ++ older) {p : ℕ}
    (hp : Extent.Packed (startOf k f.block.toExtent) (older.map Obj.extent) p)
    (hstop : p ≤ f.block.stop) {v : World} (hv : Unwound w v gs (f :: fs)) (flag failed : Bool)
    (hflag : flag = false → gs = [] ∧ w.ob.maybeEmptyObject = false) :
    Inv k { v with ob := { v.ob with
        chunk := f.block.addr, objectBase := p, nextFree := p, chunkLimit := f.block.stop,
        maybeEmptyObject := flag, allocFailed := failed } }
      ⟨[], older ++ fs.flatMap Frame.objects⟩ (⟨f.block, older⟩ :: fs) := by
  have hsub : ∀ e ∈ f :: fs, e ∈ gs ++ f :: fs := by
    intro e he
    exact List.mem_append_right gs he
  have hleft : ∀ e ∈ f :: fs, v.chunkAt e.block.addr = w.chunkAt e.block.addr := by
    intro e he
    rw [hv.chunkAt, if_neg]
    intro hmem
    obtain ⟨g, hg, heq⟩ := List.mem_map.mp hmem
    have hap := (List.pairwise_append.mp h.apart).2.2 g hg e he
    exact addr_ne_of_apart hap (h.block_pos hk (List.mem_append_left _ hg))
      (h.block_pos hk (hsub e he)) heq
  have hlive : ∀ o ∈ older ++ fs.flatMap Frame.objects, ∃ e ∈ f :: fs, o ∈ e.objects := by
    intro o ho
    rcases List.mem_append.mp ho with ho | ho
    · refine ⟨f, List.mem_cons_self, ?_⟩
      rw [hobjects]
      exact List.mem_append_right newer ho
    · obtain ⟨e, he, hoe⟩ := List.mem_flatMap.mp ho
      exact ⟨e, List.mem_cons_of_mem f he, hoe⟩
  constructor
  · exact hv.mask.trans h.mask
  · obtain ⟨_, prev, hc, hprev⟩ := h.linked.drop
    refine ⟨rfl, prev, ?_, ?_⟩
    · exact (hleft f List.mem_cons_self).trans hc
    · apply hprev.congr
      intro e he
      exact hleft e (List.mem_cons_of_mem f he)
  · intro a c hc
    rw [hv.chunkAt] at hc
    by_cases ha : a ∈ gs.map fun g => g.block.addr
    · rw [if_pos ha] at hc
      cases hc
    · rw [if_neg ha] at hc
      obtain ⟨haddr, e, he, hec⟩ := h.only a c hc
      refine ⟨haddr, ?_⟩
      rcases List.mem_append.mp he with he | he
      · refine absurd (List.mem_map.mpr ⟨e, he, ?_⟩) ha
        rw [hec, haddr]
      · rcases List.mem_cons.mp he with rfl | he
        · exact ⟨_, List.mem_cons_self, hec⟩
        · exact ⟨e, List.mem_cons_of_mem _ he, hec⟩
  · intro e he
    rcases List.mem_cons.mp he with rfl | he
    · exact h.block f (hsub f List.mem_cons_self)
    · exact h.block e (hsub e (List.mem_cons_of_mem f he))
  · have hap := (List.pairwise_append.mp h.apart).2.1
    exact List.pairwise_cons.mpr (List.pairwise_cons.mp hap)
  · intro e he
    exact h.packed_stop (hsub e (List.mem_cons_of_mem f he))
  · refine ⟨rfl, hstop, hp, ?_⟩
    intro hfalse o ho
    obtain ⟨rfl, hwflag⟩ := hflag hfalse
    obtain ⟨_, _, _, hne⟩ := h.top
    apply hne hwflag o
    rw [hobjects]
    exact List.mem_append_right newer ho
  · rfl
  · simp
  · exact Memory.holds_nil
  · intro o ho
    obtain ⟨e, he, hoe⟩ := hlive o ho
    exact h.object_held hk (hsub e he) hoe (hv.mem e he)
  · have hperm := h.accounts
    dsimp only
    rw [hv.freed, hv.blocks]
    refine List.Perm.trans ?_ hperm
    rw [List.map_append, ← List.append_assoc, List.append_assoc (gs.map Frame.block)]
    exact List.perm_append_comm
  · dsimp only
    rw [hv.blocks]
    exact h.serials

/-- The list is cut to nothing. -/
theorem Inv.clear (h : Inv k w s fs) {v : World} (hv : Unwound w v fs []) {failed : Bool} :
    Inv k { v with ob := { v.ob with
        chunk := 0, chunkLimit := 0, objectBase := 0, nextFree := 0,
        maybeEmptyObject := true, allocFailed := failed } } ⟨[], []⟩ [] := by
  constructor
  · exact hv.mask.trans h.mask
  · rfl
  · intro a c hc
    rw [hv.chunkAt] at hc
    by_cases ha : a ∈ fs.map fun g => g.block.addr
    · rw [if_pos ha] at hc
      cases hc
    · rw [if_neg ha] at hc
      obtain ⟨haddr, e, he, hec⟩ := h.only a c hc
      refine absurd (List.mem_map.mpr ⟨e, he, ?_⟩) ha
      rw [hec, haddr]
  · intro f hf
    cases hf
  · exact .nil
  · intro f hf
    cases hf
  · exact ⟨rfl, rfl, rfl, rfl⟩
  · rfl
  · rfl
  · exact Memory.holds_nil
  · intro o ho
    cases ho
  · dsimp only
    rw [hv.freed, hv.blocks, List.map_nil, List.nil_append]
    exact List.perm_append_comm.trans h.accounts
  · dsimp only
    rw [hv.blocks]
    exact h.serials

/-- There are no more chunks on the list than `chunkfun` returned. -/
theorem Inv.length_le (h : Inv k w s fs) : fs.length ≤ w.blocks.length := by
  have hlen := h.accounts.length_eq
  rw [List.length_append, List.length_map] at hlen
  omega

theorem Inv.chunk_eq (h : Inv k w s fs) :
    w.ob.chunk = (fs.head?.map fun f => f.block.addr).getD 0 := by
  have hlink := h.linked
  cases fs with
  | nil => exact hlink
  | cons f fs => exact hlink.1

theorem obstackFree_null (A : Allocator) (h : Inv k w s fs) (hk : k < 64) :
    ∃ w', obstackFree A w 0 = .ok w' ∧ Inv k w' ⟨[], []⟩ [] ∧
      w'.freed = w.freed ++ fs.map Frame.block ∧ w'.blocks = w.blocks := by
  have hchunk := h.chunk_eq
  unfold obstackFree
  cases fs with
  | nil =>
    obtain ⟨hbase, hlimit, hlen, hflag⟩ := h.top
    have hlive : s = ⟨[], []⟩ := by
      have hgrowing := List.eq_nil_of_length_eq_zero hlen
      have hnone : s.live = [] := h.live
      cases s
      rw [Stack.mk.injEq]
      exact ⟨hgrowing, hnone⟩
    have hzero : w.ob.chunk = 0 := h.linked
    rw [if_pos hzero]
    exact ⟨w, rfl, hlive ▸ h, by simp, rfl⟩
  | cons f fs =>
    have hne : w.ob.chunk ≠ 0 := by
      rw [hchunk]
      exact Nat.ne_of_gt (h.block f List.mem_cons_self).1
    have hlen := h.length_le
    obtain ⟨v, hrun, hv⟩ := releaseWhile_spec A (fun _ _ => true) unwound_id (f :: fs) []
      (show (f :: fs).length < w.blocks.length + 1 by omega)
      (by rw [List.append_nil]; exact h.linked) (by rw [List.append_nil]; exact h.nodup hk)
      h.nodup_blocks (by rw [List.append_nil]; exact h.accounts)
      (by rw [List.append_nil]; intro g hg; exact (h.block g hg).1) (fun _ _ _ => rfl)
      (by intro g hg; cases hg)
    rw [if_neg hne, if_pos rfl, hrun, ok_bind]
    exact ⟨_, rfl, h.clear hv, hv.freed, hv.blocks⟩

section Free

variable {gs : List Frame} {f : Frame} {older newer : List Obj} {p : ℕ}

/-- Where `_obstack_free` stops: at the chunk that holds the address. -/
theorem obstackFree_eq (A : Allocator) (h : Inv k w s (gs ++ f :: fs)) (hk : k < 64)
    (hlo : f.block.addr < p) (hstop : p ≤ f.block.stop) :
    ∃ v, Unwound w v gs (f :: fs) ∧ obstackFree A w p = .ok { v with ob := { v.ob with
      chunk := f.block.addr, objectBase := p, nextFree := p, chunkLimit := f.block.stop,
      maybeEmptyObject := true, allocFailed := false } } := by
  have hf : f ∈ gs ++ f :: fs := by simp
  have hne : w.ob.chunk ≠ 0 := by
    rw [h.chunk_eq]
    cases gs with
    | nil => exact Nat.ne_of_gt (h.block f hf).1
    | cons g gs => exact Nat.ne_of_gt (h.block g (by simp)).1
  have hlen := h.length_le
  rw [List.length_append, List.length_cons] at hlen
  obtain ⟨v, hrun, hv⟩ := releaseWhile_spec A (fun chunk c => chunk ≥ p ∨ c.limit < p)
    unwound_markEmpty gs (f :: fs) (show gs.length < w.blocks.length + 1 by omega) h.linked
    (h.nodup hk) h.nodup_blocks h.accounts (fun g hg => (h.block g hg).1)
    (by
      intro g hg prev
      have hap := (List.pairwise_append.mp h.apart).2.2 g hg f List.mem_cons_self
      apply decide_eq_true
      rcases hap with hap | hap
      · right
        dsimp only
        omega
      · left
        omega)
    (by
      intro g hg prev
      cases hg
      apply decide_eq_false
      dsimp only
      omega)
  have hleft : f.block.addr ∉ gs.map fun g => g.block.addr := by
    have hnodup := h.nodup hk
    rw [List.map_append, List.map_cons] at hnodup
    intro hmem
    exact List.disjoint_of_nodup_append hnodup hmem List.mem_cons_self
  obtain ⟨prev, hc⟩ := h.linked.mem hf
  have hcv := hv.chunkAt f.block.addr
  rw [if_neg hleft, hc] at hcv
  refine ⟨v, hv, ?_⟩
  unfold obstackFree
  rw [if_neg hne, if_neg (by omega), hrun, ok_bind]
  dsimp only [List.head?_cons, Option.map_some, Option.getD_some]
  rw [hcv]

theorem obstackFree_spec (A : Allocator) (h : Inv k w s (gs ++ f :: fs)) (hk : k < 64)
    (hobjects : f.objects = newer ++ older)
    (hp : Extent.Packed (startOf k f.block.toExtent) (older.map Obj.extent) p)
    (hstop : p ≤ f.block.stop) :
    ∃ w', obstackFree A w p = .ok w' ∧
      Inv k w' ⟨[], older ++ fs.flatMap Frame.objects⟩ (⟨f.block, older⟩ :: fs) ∧
      w'.freed = w.freed ++ gs.map Frame.block := by
  obtain ⟨hstart, _⟩ := h.bounds hk (f := f) (by simp)
  have hlo := hp.le
  unfold contents at hstart
  obtain ⟨v, hv, hrun⟩ := obstackFree_eq A h hk (by omega) hstop
  exact ⟨_, hrun, h.cut hk hobjects hp hstop hv true false (by simp), hv.freed⟩

/-- Only an address in the first chunk is handled inline. -/
theorem Inv.first_of_inline (h : Inv k w s (gs ++ f :: fs)) (hlo : f.block.addr < p)
    (hstop : p ≤ f.block.stop) (hchunk : p > w.ob.chunk) (hlimit : p < w.ob.chunkLimit) :
    gs = [] := by
  cases gs with
  | nil => rfl
  | cons g gs =>
    exfalso
    have hfirst : w.ob.chunk = g.block.addr := h.linked.1
    have htop : w.ob.chunkLimit = g.block.stop := h.top.1
    rcases (List.pairwise_cons.mp h.apart).1 f (by simp) with hap | hap
    · omega
    · omega

theorem free_spec (A : Allocator) (h : Inv k w s (gs ++ f :: fs)) (hk : k < 64)
    (hobjects : f.objects = newer ++ older)
    (hp : Extent.Packed (startOf k f.block.toExtent) (older.map Obj.extent) p)
    (hstop : p ≤ f.block.stop) :
    ∃ w', free A w p = .ok w' ∧
      Inv k w' ⟨[], older ++ fs.flatMap Frame.objects⟩ (⟨f.block, older⟩ :: fs) ∧
      w'.freed = w.freed ++ gs.map Frame.block := by
  unfold free
  by_cases hfast : p > w.ob.chunk ∧ p < w.ob.chunkLimit
  · rw [if_pos hfast]
    obtain ⟨hstart, _⟩ := h.bounds hk (f := f) (by simp)
    have hlo := hp.le
    unfold contents at hstart
    obtain rfl : gs = [] := h.first_of_inline (by omega) hstop hfast.1 hfast.2
    have hchunk : w.ob.chunk = f.block.addr := h.linked.1
    obtain ⟨hlimit, _, _, _⟩ := h.top
    have hinv := h.cut hk hobjects hp hstop
      (v := w) ⟨by simp, fun _ _ _ _ _ => rfl, rfl, by simp, rfl⟩
      w.ob.maybeEmptyObject w.ob.allocFailed (fun hflag => ⟨rfl, hflag⟩)
    rw [← hlimit, ← hchunk] at hinv
    exact ⟨_, rfl, hinv, by simp⟩
  · rw [if_neg hfast]
    exact obstackFree_spec A h hk hobjects hp hstop

end Free

end MuslBsd.Obstack
