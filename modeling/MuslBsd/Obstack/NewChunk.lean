import MuslBsd.Obstack.Guarantees

/-! `_obstack_newchunk` on words of any size, with the state in which the handler is called. -/
namespace MuslBsd.Obstack
open MuslBsd.Support

/-- The bits of a word, and the offset of `contents` in `struct _obstack_chunk`. -/
structure Machine where
  bits : ℕ
  contents : ℕ
  eight_le : 8 ≤ bits
  contents_pos : 0 < contents
  contents_le : contents ≤ 100

def lp64 : Machine := ⟨64, 16, by decide, by decide, by decide⟩

/-- The caller's `chunkfun` and `freefun`. A new block is apart from the outstanding ones and ends
at an address; what is in outstanding blocks is left alone. -/
structure Caller (M : Machine) where
  chunkfun : World → ℕ → Option ℕ
  memory : World → Memory
  fresh : ∀ (w : World) (size addr : ℕ), chunkfun w size = some addr →
    0 < addr ∧ addr + size < 2 ^ M.bits ∧
      ∀ b, w.Outstanding b → Extent.Apart ⟨addr, size⟩ b.toExtent
  keeps : ∀ (w : World) (b : Block) (q : ℕ), w.Outstanding b → b.addr ≤ q → q < b.stop →
    memory w q = w.mem q

/-- How `_obstack_newchunk` ends: it calls the handler, which leaves by `longjmp`, uses memory that
is not the obstack's, or returns. -/
inductive Outcome
  | handler (w : World)
  | wild
  | returned (w : World)

section Code

variable {M : Machine} (F : Caller M)

/-- The size of the new chunk, unless one of the checks fails. -/
def sizeFor (M : Machine) (h : Head) (length : ℕ) : Option ℕ :=
  let objSize := Word.sub M.bits h.nextFree h.objectBase
  let newSize := Word.add M.bits objSize length
  if newSize < objSize then none
  else if Word.top M.bits - newSize < Word.add M.bits h.alignmentMask 100 then none
  else
    let newSize := Word.add M.bits newSize (Word.add M.bits h.alignmentMask 100)
    let growth := objSize >>> 3
    if Word.top M.bits - newSize < growth then none
    else
      let newSize := Word.add M.bits newSize growth
      some (if newSize < h.chunkSize then h.chunkSize else newSize)

/-- `call_freefun` -/
def Caller.freefun (w : World) (chunk : ℕ) : Option World :=
  match w.chunkAt chunk with
  | none => none
  | some c =>
    let w : World := { w with
      chunkAt := Function.update w.chunkAt chunk none
      freed := w.freed ++ [c.block] }
    some { w with mem := F.memory w }

/-- `contents` of a chunk, aligned. -/
def startIn (M : Machine) (chunk mask : ℕ) : ℕ :=
  Word.alignUp M.bits (Word.add M.bits chunk M.contents) mask

/-- Releases the chunk that the growing object left, where nothing else was in it. -/
def releaseLeft (w : World) (old : Head) (newChunk : ℕ) : Option World :=
  if !old.maybeEmptyObject && old.objectBase == startIn M old.chunk old.alignmentMask then
    match w.chunkAt old.chunk with
    | none => none
    | some c => F.freefun (w.setChunk newChunk fun n => { n with prev := c.prev }) old.chunk
  else some w

/-- The new chunk once its header is written. -/
def link (w : World) (chunk newSize : ℕ) : World :=
  let block : Block := ⟨⟨chunk, newSize⟩, w.blocks.length⟩
  let linked : World := { w with
    chunkAt := Function.update w.chunkAt chunk (some ⟨0, 0, block⟩)
    mem := F.memory w
    blocks := w.blocks ++ [block] }
  linked.setChunk chunk fun c =>
    { c with prev := w.ob.chunk, limit := Word.add M.bits chunk newSize }

/-- `memcpy` of the growing object, and the fields that point to it. -/
def moveObject (M : Machine) (w : World) (chunk newSize : ℕ) : World :=
  let old := w.ob
  let objSize := Word.sub M.bits old.nextFree old.objectBase
  let newBase := startIn M chunk old.alignmentMask
  { w with
    mem := w.mem.write newBase (w.mem.read old.objectBase objSize)
    ob := { old with
      chunkLimit := Word.add M.bits chunk newSize
      objectBase := newBase
      nextFree := Word.add M.bits newBase objSize } }

/-- `_obstack_newchunk` once `chunkfun` has returned a chunk. -/
def moveTo (w : World) (chunk newSize : ℕ) : Outcome :=
  let old := w.ob
  let objSize := Word.sub M.bits old.nextFree old.objectBase
  let newBase := startIn M chunk old.alignmentMask
  let w := link F w chunk newSize
  -- `memcpy` has to stay in the new block
  if objSize = 0 ∨ (chunk + M.contents ≤ newBase ∧ newBase + objSize ≤ chunk + newSize) then
    match releaseLeft F (moveObject M w chunk newSize) old chunk with
    | none => .wild
    | some w => .returned { w with ob := { w.ob with
        chunk := chunk, maybeEmptyObject := false, allocFailed := false } }
  else .wild

/-- `_obstack_newchunk` -/
def newchunkOn (w : World) (length : ℕ) : Outcome :=
  match sizeFor M w.ob length with
  | none => .handler w
  | some newSize =>
    match F.chunkfun w newSize with
    | none => .handler { w with mem := F.memory w }
    | some chunk => moveTo F w chunk newSize

end Code

/-! ### Words of 64 bits -/

/-- What can be told of an outcome when the state is not looked at after the handler was called. -/
def Outcome.toExcept : Outcome → Except Stop World
  | .handler _ => .error .allocFailed
  | .wild => .error .wild
  | .returned w => .ok w

def Allocator.caller (A : Allocator) : Caller lp64 where
  chunkfun := A.chunkfun
  memory := A.memory
  fresh := by
    intro w size addr h
    obtain ⟨hpos, hstop, hfresh⟩ := A.fresh w size addr h
    have hlt : addr + size < 2 ^ lp64.bits := Nat.lt_of_le_of_lt hstop (by decide)
    exact ⟨hpos, hlt, hfresh⟩
  keeps := A.keeps

section Agreement

variable (A : Allocator) (w : World) {length : ℕ}

theorem sizeFor_lp64 (h : Head) (length : ℕ) :
    newchunkSize h length = (sizeFor lp64 h length).elim (.error .allocFailed) .ok := by
  have hsame : sizeFor lp64 h length =
      let objSize := subSize h.nextFree h.objectBase
      let newSize := addSize objSize length
      if newSize < objSize then none
      else if SIZE_MAX - newSize < addSize h.alignmentMask 100 then none
      else
        let newSize := addSize newSize (addSize h.alignmentMask 100)
        let growth := objSize >>> 3
        if SIZE_MAX - newSize < growth then none
        else
          let newSize := addSize newSize growth
          some (if newSize < h.chunkSize then h.chunkSize else newSize) := rfl
  rw [hsame]
  unfold newchunkSize
  dsimp only
  split
  · rfl
  · split
    · rfl
    · split
      · rfl
      · rfl

theorem freefun_lp64 (chunk : ℕ) :
    callFreefun A w chunk = (A.caller.freefun w chunk).elim (.error .wild) .ok := by
  unfold callFreefun Caller.freefun
  cases w.chunkAt chunk with
  | none => rfl
  | some c => rfl

theorem releaseLeft_lp64 (old : Head) (chunk : ℕ) :
    releaseOld A w old chunk = (releaseLeft A.caller w old chunk).elim (.error .wild) .ok := by
  have hstart : startIn lp64 old.chunk old.alignmentMask =
      ptrAlign (addSize old.chunk contents) old.alignmentMask := rfl
  unfold releaseOld releaseLeft
  rw [hstart]
  split
  · cases w.chunkAt old.chunk with
    | none => rfl
    | some c => exact freefun_lp64 A _ old.chunk
  · rfl

/-- A store into a chunk, with the check written out. -/
theorem store_eq {w : World} {chunk p : ℕ} {c : Chunk} {bytes : List UInt8} (hc : w.chunkAt chunk = some c) :
    w.store chunk p bytes =
      if bytes.length = 0 ∨ (chunk + contents ≤ p ∧ p + bytes.length ≤ c.block.stop) then
        .ok { w with mem := w.mem.write p bytes } else .error .wild := by
  unfold World.store World.inside
  rw [hc]
  simp only [decide_eq_true_eq]

theorem moveTo_lp64 {n addr : ℕ} (ha : A.chunkfun w n = some addr)
    (hsize : newchunkSize w.ob length = .ok n) :
    newchunk A w length = (moveTo A.caller w addr n).toExcept := by
  have hc : (link A.caller w addr n).chunkAt addr =
      some ⟨addSize addr n, w.ob.chunk, ⟨⟨addr, n⟩, w.blocks.length⟩⟩ := by
    rw [link, World.setChunk]
    dsimp only
    rw [Function.update_self, Function.update_self]
    rfl
  have hnew : newchunk A w length = (do
      let v ← (link A.caller w addr n).store addr (startIn lp64 addr w.ob.alignmentMask)
        ((link A.caller w addr n).mem.read w.ob.objectBase (subSize w.ob.nextFree w.ob.objectBase))
      let v ← releaseOld A { v with ob := { w.ob with
        chunkLimit := addSize addr n, objectBase := startIn lp64 addr w.ob.alignmentMask,
        nextFree := addSize (startIn lp64 addr w.ob.alignmentMask)
          (subSize w.ob.nextFree w.ob.objectBase) } } w.ob addr
      .ok { v with ob := { v.ob with
        chunk := addr, maybeEmptyObject := false, allocFailed := false } }) := by
    rw [newchunk]
    dsimp only
    rw [hsize, ok_bind, callChunkfun_some A ha, ok_bind]
    rfl
  obtain ⟨v, hv⟩ : ∃ v, v = link A.caller w addr n := ⟨_, rfl⟩
  obtain ⟨base, hbase⟩ : ∃ base, base = startIn lp64 addr w.ob.alignmentMask := ⟨_, rfl⟩
  obtain ⟨size, hobj⟩ : ∃ size, size = subSize w.ob.nextFree w.ob.objectBase := ⟨_, rfl⟩
  rw [← hv] at hc hnew
  have hlen : (v.mem.read w.ob.objectBase size).length = size := Memory.read_length _ _ _
  have hmoved := releaseLeft_lp64 A (moveObject lp64 v addr n) w.ob addr
  rw [← hbase, ← hobj] at hnew
  have hgoal : moveTo A.caller w addr n =
      if size = 0 ∨ (addr + contents ≤ base ∧ base + size ≤ addr + n) then
        match releaseLeft A.caller (moveObject lp64 v addr n) w.ob addr with
        | none => .wild
        | some w => .returned { w with ob := { w.ob with
            chunk := addr, maybeEmptyObject := false, allocFailed := false } }
      else .wild := by
    rw [hv, hbase, hobj]
    rfl
  rw [hnew, hgoal]
  by_cases hin : size = 0 ∨ (addr + contents ≤ base ∧ base + size ≤ addr + n)
  · have hstore : v.store addr base (v.mem.read w.ob.objectBase size) =
        .ok { v with mem := v.mem.write base (v.mem.read w.ob.objectBase size) } := by
      rw [store_eq hc, hlen]
      exact if_pos hin
    rw [hstore, ok_bind, if_pos hin]
    have hsame : releaseOld A { v with
        mem := v.mem.write base (v.mem.read w.ob.objectBase size)
        ob := { w.ob with
          chunkLimit := addSize addr n, objectBase := base, nextFree := addSize base size } }
        w.ob addr = releaseOld A (moveObject lp64 v addr n) w.ob addr := by
      rw [hv, hbase, hobj]
      rfl
    dsimp only
    rw [hsame, hmoved]
    cases releaseLeft A.caller (moveObject lp64 v addr n) w.ob addr with
    | none => rfl
    | some u => rfl
  · have hstore : v.store addr base (v.mem.read w.ob.objectBase size) = .error .wild := by
      rw [store_eq hc, hlen]
      exact if_neg hin
    rw [hstore, error_bind, if_neg hin]
    rfl

/-- On words of 64 bits this is the function that the other results are about. -/
theorem newchunkOn_lp64 (length : ℕ) :
    newchunk A w length = (newchunkOn A.caller w length).toExcept := by
  have hsize := sizeFor_lp64 w.ob length
  rw [newchunkOn]
  cases hs : sizeFor lp64 w.ob length with
  | none =>
    rw [hs, Option.elim_none] at hsize
    rw [newchunk]
    dsimp only
    rw [hsize]
    rfl
  | some n =>
    rw [hs, Option.elim_some] at hsize
    dsimp only
    cases ha : A.chunkfun w n with
    | none =>
      have hcall : A.caller.chunkfun w n = none := ha
      rw [hcall, newchunk]
      dsimp only
      rw [hsize, ok_bind, callChunkfun, ha]
      rfl
    | some addr =>
      have hcall : A.caller.chunkfun w n = some addr := ha
      rw [hcall]
      exact moveTo_lp64 A w ha hsize

end Agreement

/-! ### Sizes -/

/-- The bytes of the growing object. -/
def grownSize (w : World) : ℕ := w.ob.nextFree - w.ob.objectBase

/-- What `_obstack_newchunk` adds up: the object, the room asked for, the alignment and the slack, and
an eighth of the object. -/
def required (w : World) (length : ℕ) : ℕ :=
  grownSize w + length + (w.ob.alignmentMask + 100) + grownSize w / 8

/-- The size it asks `chunkfun` for. -/
def askedSize (w : World) (length : ℕ) : ℕ := max (required w length) w.ob.chunkSize

/-- The object is in the first chunk, which is an outstanding block, or there is no chunk. -/
structure Bounded (M : Machine) (k : ℕ) (w : World) : Prop where
  alignment : k < M.bits
  mask : w.ob.alignmentMask = 2 ^ k - 1
  chunkSize : w.ob.chunkSize < 2 ^ M.bits
  serials : ∀ b, b ∈ w.blocks ∨ b ∈ w.freed → b.serial < w.blocks.length
  order : w.ob.objectBase ≤ w.ob.nextFree
  limit : w.ob.nextFree ≤ w.ob.chunkLimit ∧ w.ob.chunkLimit < 2 ^ M.bits
  chunk : (w.ob.chunk = 0 ∧ w.ob.nextFree = w.ob.objectBase ∧ w.ob.maybeEmptyObject = true) ∨
    ∃ c, w.chunkAt w.ob.chunk = some c ∧ w.Outstanding c.block ∧ c.block.addr = w.ob.chunk ∧
      w.ob.chunk + M.contents ≤ w.ob.objectBase ∧ w.ob.chunkLimit = c.limit ∧
      c.limit ≤ c.block.stop

section Sizes

variable {M : Machine} {k : ℕ} {w : World} {length : ℕ}

theorem Bounded.objSize (h : Bounded M k w) :
    Word.sub M.bits w.ob.nextFree w.ob.objectBase = grownSize w := by
  obtain ⟨hnext, hlimit⟩ := h.limit
  exact Word.sub_eq h.order (by omega)

theorem Bounded.mask_lt (h : Bounded M k w) : w.ob.alignmentMask + 100 < 2 ^ M.bits := by
  have hk := h.alignment
  have height := M.eight_le
  have hhalf : 2 ^ k ≤ 2 ^ (M.bits - 1) := Nat.pow_le_pow_right (by decide) (by omega)
  have hsmall : 2 ^ 7 ≤ 2 ^ (M.bits - 1) := Nat.pow_le_pow_right (by decide) (by omega)
  have hdouble : 2 ^ M.bits = 2 ^ (M.bits - 1) * 2 := by
    rw [← Nat.pow_succ]
    congr 1
    omega
  have hpos : 0 < 2 ^ k := Nat.two_pow_pos k
  rw [h.mask]
  omega

/-- The three checks find out whether the size is a word, and if it is nothing has wrapped. -/
theorem Bounded.sizeFor_eq (h : Bounded M k w) (hl : length < 2 ^ M.bits) :
    sizeFor M w.ob length =
      if 2 ^ M.bits ≤ required w length then none else some (askedSize w length) := by
  obtain ⟨hnext, hlimit⟩ := h.limit
  have hmask := h.mask_lt
  have hobj : grownSize w < 2 ^ M.bits := by
    unfold grownSize
    omega
  have hmargin : Word.add M.bits w.ob.alignmentMask 100 = w.ob.alignmentMask + 100 :=
    Word.add_eq hmask
  have hgrowth : grownSize w >>> 3 = grownSize w / 8 := Nat.shiftRight_eq_div_pow _ _
  unfold sizeFor askedSize required
  dsimp only
  rw [h.objSize, hmargin, hgrowth]
  by_cases h₁ : 2 ^ M.bits ≤ grownSize w + length
  · rw [if_pos ((Word.add_lt_iff hobj hl).mpr h₁), if_pos (by omega)]
  rw [if_neg (fun hw => h₁ ((Word.add_lt_iff hobj hl).mp hw)), Word.add_eq (by omega)]
  by_cases h₂ : 2 ^ M.bits ≤ grownSize w + length + (w.ob.alignmentMask + 100)
  · rw [if_pos ((Word.top_sub_lt_iff (by omega)).mpr h₂), if_pos (by omega)]
  rw [if_neg (fun hw => h₂ ((Word.top_sub_lt_iff (by omega)).mp hw)), Word.add_eq (by omega)]
  by_cases h₃ : 2 ^ M.bits ≤ grownSize w + length + (w.ob.alignmentMask + 100) + grownSize w / 8
  · rw [if_pos ((Word.top_sub_lt_iff (by omega)).mpr h₃), if_pos h₃]
  rw [if_neg (fun hw => h₃ ((Word.top_sub_lt_iff (by omega)).mp hw)), Word.add_eq (by omega),
    if_neg h₃]
  split
  · rename_i hlt
    rw [max_eq_right (le_of_lt hlt)]
  · rename_i hge
    rw [max_eq_left (not_lt.mp hge)]

end Sizes

/-! ### Moving the object -/

/-- The block that `chunkfun` has returned. -/
def newBlock (w : World) (addr size : ℕ) : Block := ⟨⟨addr, size⟩, w.blocks.length⟩

/-- The object is in a new chunk of the exact size, with its bytes, behind the header and the
padding, and with room for `length` bytes more. The chunk that it left was released if nothing else
was in it; what is in the other chunks is as it was. -/
structure Moved (M : Machine) (w : World) (length addr : ℕ) (w' : World) : Prop where
  size : askedSize w length < 2 ^ M.bits
  chunk : w'.ob.chunk = addr
  limit : w'.ob.chunkLimit = addr + askedSize w length
  header : addr + M.contents ≤ w'.ob.objectBase
  aligned : w.ob.alignmentMask + 1 ∣ w'.ob.objectBase
  padding : w'.ob.objectBase ≤ addr + M.contents + w.ob.alignmentMask
  object : w'.ob.nextFree = w'.ob.objectBase + grownSize w
  room : w'.ob.nextFree + length ≤ w'.ob.chunkLimit
  bytes : w'.mem.read w'.ob.objectBase (grownSize w) = w.mem.read w.ob.objectBase (grownSize w)
  blocks : w'.blocks = w.blocks ++ [newBlock w addr (askedSize w length)]
  chunks :
    (w'.freed = w.freed ∧ w'.chunkAt = Function.update w.chunkAt addr
      (some ⟨w'.ob.chunkLimit, w.ob.chunk, newBlock w addr (askedSize w length)⟩)) ∨
    ∃ c, w.chunkAt w.ob.chunk = some c ∧ w.ob.maybeEmptyObject = false ∧
      w.ob.objectBase = startIn M w.ob.chunk w.ob.alignmentMask ∧ w'.freed = w.freed ++ [c.block] ∧
      w'.chunkAt = Function.update (Function.update w.chunkAt addr
        (some ⟨w'.ob.chunkLimit, c.prev, newBlock w addr (askedSize w length)⟩)) w.ob.chunk none
  kept : ∀ b, w.Outstanding b → w'.Outstanding b → ∀ q, b.addr ≤ q → q < b.stop →
    w'.mem q = w.mem q

section Moving

variable {M : Machine} {F : Caller M} {k : ℕ} {w : World} {length addr n : ℕ}

theorem link_eq (F : Caller M) (w : World) (addr n : ℕ) (hlimit : addr + n < 2 ^ M.bits) :
    link F w addr n = { w with
      chunkAt := Function.update w.chunkAt addr
        (some ⟨addr + n, w.ob.chunk, newBlock w addr n⟩)
      mem := F.memory w
      blocks := w.blocks ++ [newBlock w addr n] } := by
  have hadd : Word.add M.bits addr n = addr + n := Word.add_eq hlimit
  unfold link World.setChunk newBlock
  dsimp only
  rw [hadd, Function.update_self, Function.update_idem]
  rfl

/-- Where the object goes in a chunk of the size asked for. -/
theorem Bounded.start_bounds (h : Bounded M k w) (hstop : addr + askedSize w length < 2 ^ M.bits) :
    addr + M.contents ≤ startIn M addr w.ob.alignmentMask ∧
      startIn M addr w.ob.alignmentMask ≤ addr + M.contents + w.ob.alignmentMask ∧
      startIn M addr w.ob.alignmentMask + grownSize w + length ≤ addr + askedSize w length ∧
      w.ob.alignmentMask + 1 ∣ startIn M addr w.ob.alignmentMask := by
  have hmask := h.mask
  have hpos : 0 < 2 ^ k := Nat.two_pow_pos k
  have hcontents := M.contents_le
  have hasked : required w length ≤ askedSize w length := le_max_left _ _
  unfold required at hasked
  have hfit : addr + M.contents + 2 ^ k ≤ 2 ^ M.bits := by omega
  have hadd : Word.add M.bits addr M.contents = addr + M.contents := Word.add_eq (by omega)
  have hmask' : w.ob.alignmentMask + 1 = 2 ^ k := by omega
  unfold startIn
  rw [hadd, hmask', hmask]
  have hlo := Word.le_alignUp h.alignment hfit
  have hhi := Word.alignUp_le h.alignment hfit
  exact ⟨hlo, hhi, by omega, Word.dvd_alignUp h.alignment _⟩

/-- `releaseLeft` releases the old chunk or does nothing, and leaves what is in the other blocks. -/
theorem releaseLeft_cases {v : World} {old : Head} (hne : old.chunk ≠ addr)
    (hold : old.maybeEmptyObject = false → ∃ c, v.chunkAt old.chunk = some c) :
    (releaseLeft F v old addr = some v) ∨
      ∃ c u, v.chunkAt old.chunk = some c ∧ old.maybeEmptyObject = false ∧
        old.objectBase = startIn M old.chunk old.alignmentMask ∧
        releaseLeft F v old addr = some u ∧ u.ob = v.ob ∧ u.blocks = v.blocks ∧
        u.freed = v.freed ++ [c.block] ∧
        u.chunkAt = Function.update (Function.update v.chunkAt addr
          ((v.chunkAt addr).map fun d => { d with prev := c.prev })) old.chunk none ∧
        ∀ b, u.Outstanding b → ∀ q, b.addr ≤ q → q < b.stop → u.mem q = v.mem q := by
  unfold releaseLeft
  by_cases hrel : (!old.maybeEmptyObject &&
      old.objectBase == startIn M old.chunk old.alignmentMask) = true
  · right
    rw [if_pos hrel]
    simp only [Bool.and_eq_true, Bool.not_eq_true', beq_iff_eq] at hrel
    obtain ⟨c, hc⟩ := hold hrel.1
    rw [hc]
    unfold World.setChunk Caller.freefun
    dsimp only
    rw [Function.update_of_ne hne, hc]
    refine ⟨c, _, rfl, hrel.1, hrel.2, rfl, rfl, rfl, rfl, rfl, ?_⟩
    intro b hb q hlo hhi
    exact F.keeps _ b q hb hlo hhi
  · left
    rw [if_neg hrel]

/-- The growing object is in an outstanding block. -/
theorem Bounded.object_kept (h : Bounded M k w) {m : Memory}
    (hm : ∀ b, w.Outstanding b → ∀ q, b.addr ≤ q → q < b.stop → m q = w.mem q) :
    m.read w.ob.objectBase (grownSize w) = w.mem.read w.ob.objectBase (grownSize w) := by
  have hnext := h.order
  have hlimit := h.limit.1
  unfold grownSize
  apply Memory.read_congr
  intro q hlo hhi
  rcases h.chunk with ⟨_, hempty, _⟩ | ⟨c, _, hout, haddr, hheader, hclimit, hstop⟩
  · omega
  · exact hm c.block hout q (by omega) (by omega)

theorem Bounded.moveTo (h : Bounded M k w)
    (haddr : F.chunkfun w (askedSize w length) = some addr) :
    ∃ w', moveTo F w addr (askedSize w length) = .returned w' ∧ Moved M w length addr w' := by
  obtain ⟨hpos, hstop, hfresh⟩ := F.fresh w _ addr haddr
  obtain ⟨hlo, hhi, hroom, hdvd⟩ := h.start_bounds hstop
  have hasked : required w length ≤ askedSize w length := le_max_left _ _
  obtain ⟨base, hbase⟩ : ∃ base, base = startIn M addr w.ob.alignmentMask := ⟨_, rfl⟩
  obtain ⟨n, hn⟩ : ∃ n, n = askedSize w length := ⟨_, rfl⟩
  rw [← hbase] at hlo hhi hroom hdvd
  rw [← hn] at hstop hfresh hroom hasked
  obtain ⟨v, hv⟩ : ∃ v, v = moveObject M (link F w addr n) addr n := ⟨_, rfl⟩
  have hnext : Word.add M.bits base (grownSize w) = base + grownSize w := Word.add_eq (by omega)
  have hlimit : Word.add M.bits addr n = addr + n := Word.add_eq hstop
  have hvob : v.ob = { w.ob with
      chunkLimit := addr + n, objectBase := base, nextFree := base + grownSize w } := by
    rw [hv, link_eq F w addr n hstop]
    unfold moveObject
    dsimp only
    rw [h.objSize, ← hbase, hnext, hlimit]
  have hvmem : v.mem = (F.memory w).write base
      ((F.memory w).read w.ob.objectBase (grownSize w)) := by
    rw [hv, link_eq F w addr n hstop]
    unfold moveObject
    dsimp only
    rw [h.objSize, ← hbase]
  have hvchunks : v.chunkAt = Function.update w.chunkAt addr
      (some ⟨addr + n, w.ob.chunk, newBlock w addr n⟩) := by
    rw [hv, link_eq F w addr n hstop]
    rfl
  have hvblocks : v.blocks = w.blocks ++ [newBlock w addr n] := by
    rw [hv, link_eq F w addr n hstop]
    rfl
  have hvfreed : v.freed = w.freed := by
    rw [hv, link_eq F w addr n hstop]
    rfl
  -- what the blocks handed out before hold is not touched by the copy
  have hvkept : ∀ b, w.Outstanding b → ∀ q, b.addr ≤ q → q < b.stop → v.mem q = w.mem q := by
    intro b hb q hblo hbhi
    rw [hvmem, Memory.write_outside, F.keeps w b q hb hblo hbhi]
    rw [Memory.read_length]
    have hnew : (Extent.mk addr n).stop = addr + n := rfl
    rcases hfresh b hb with hap | hap
    · right
      omega
    · left
      dsimp only at hap
      omega
  have hvbytes : v.mem.read base (grownSize w) = w.mem.read w.ob.objectBase (grownSize w) := by
    have hread := Memory.read_write (F.memory w) base
      ((F.memory w).read w.ob.objectBase (grownSize w))
    rw [Memory.read_length] at hread
    rw [hvmem, hread]
    exact h.object_kept fun b hb q => F.keeps w b q hb
  have hne : w.ob.chunk ≠ addr := by
    rcases h.chunk with ⟨hzero, _⟩ | ⟨c, _, hout, hcaddr, hheader, _, hcstop⟩
    · omega
    · have hcontents := M.contents_pos
      have hcnext := h.order
      have hclimit := h.limit.1
      have hmargin := M.contents_le
      have hnew : (Extent.mk addr n).stop = addr + n := rfl
      unfold required at hasked
      rcases hfresh _ hout with hap | hap
      · omega
      · dsimp only at hap
        omega
  have hold : w.ob.maybeEmptyObject = false → ∃ c, v.chunkAt w.ob.chunk = some c := by
    intro hflag
    rcases h.chunk with ⟨_, _, htrue⟩ | ⟨c, hc, _⟩
    · rw [hflag] at htrue
      cases htrue
    · rw [hvchunks, Function.update_of_ne hne]
      exact ⟨c, hc⟩
  have hin : Word.sub M.bits w.ob.nextFree w.ob.objectBase = 0 ∨
      (addr + M.contents ≤ startIn M addr w.ob.alignmentMask ∧
        startIn M addr w.ob.alignmentMask + Word.sub M.bits w.ob.nextFree w.ob.objectBase ≤
          addr + n) := by
    rw [h.objSize, ← hbase]
    exact .inr ⟨hlo, by omega⟩
  have hserial : ∀ b, b ∈ w.blocks ∨ b ∈ w.freed → b ≠ newBlock w addr n := by
    intro b hb heq
    have hlt := h.serials b hb
    rw [heq] at hlt
    exact absurd hlt (lt_irrefl _)
  -- whether or not the old chunk is released, the rest is the same
  have hfinal : ∀ u : World, u.ob = v.ob → u.blocks = v.blocks →
      (∀ b, u.Outstanding b → ∀ q, b.addr ≤ q → q < b.stop → u.mem q = v.mem q) →
      newBlock w addr n ∉ u.freed →
      ((u.freed = w.freed ∧ u.chunkAt = Function.update w.chunkAt addr
        (some ⟨addr + n, w.ob.chunk, newBlock w addr n⟩)) ∨
        ∃ c, w.chunkAt w.ob.chunk = some c ∧ w.ob.maybeEmptyObject = false ∧
          w.ob.objectBase = startIn M w.ob.chunk w.ob.alignmentMask ∧
          u.freed = w.freed ++ [c.block] ∧
          u.chunkAt = Function.update (Function.update w.chunkAt addr
            (some ⟨addr + n, c.prev, newBlock w addr n⟩)) w.ob.chunk none) →
      Moved M w length addr { u with ob := { u.ob with
        chunk := addr, maybeEmptyObject := false, allocFailed := false } } := by
    intro u hob hblocks hmem hnew hchunks
    have hlimit' : u.ob.chunkLimit = addr + n := by rw [hob, hvob]
    have hbase' : u.ob.objectBase = base := by rw [hob, hvob]
    have hnext' : u.ob.nextFree = base + grownSize w := by rw [hob, hvob]
    have hout : u.Outstanding (newBlock w addr n) := by
      refine ⟨?_, hnew⟩
      rw [hblocks, hvblocks]
      exact List.mem_append_right _ List.mem_cons_self
    have hnstop : (newBlock w addr n).stop = addr + n := rfl
    have hnaddr : (newBlock w addr n).addr = addr := rfl
    constructor
    · omega
    · rfl
    · rw [← hn]
      exact hlimit'
    · dsimp only
      omega
    · dsimp only
      rw [hbase']
      exact hdvd
    · dsimp only
      omega
    · dsimp only
      rw [hnext', hbase']
    · dsimp only
      omega
    · dsimp only
      rw [hbase', ← hvbytes]
      apply Memory.read_congr
      intro q hqlo hqhi
      exact hmem _ hout q (by omega) (by omega)
    · rw [← hn]
      exact hblocks.trans hvblocks
    · dsimp only
      rw [hlimit', ← hn]
      exact hchunks
    · intro b hb hb' q hqlo hqhi
      exact (hmem b hb' q hqlo hqhi).trans (hvkept b hb q hqlo hqhi)
  rw [← hn]
  unfold Obstack.moveTo
  dsimp only
  rw [if_pos hin, ← hv]
  rcases releaseLeft_cases (F := F) hne hold with
    hrel | ⟨c, u, hc, hflag, hstart, hrel, hob, hblocks, hfreed, hchunks, hmem⟩
  · rw [hrel]
    refine ⟨_, rfl, hfinal v rfl rfl (fun _ _ _ _ _ => rfl) ?_ (.inl ⟨hvfreed, hvchunks⟩)⟩
    rw [hvfreed]
    intro hmem
    exact hserial _ (.inr hmem) rfl
  · rw [hrel]
    rw [hvchunks, Function.update_of_ne hne] at hc
    rw [hvfreed] at hfreed
    rw [hvchunks, Function.update_self, Function.update_idem] at hchunks
    have hcout : c.block ∈ w.blocks := by
      rcases h.chunk with ⟨_, _, htrue⟩ | ⟨d, hd, hout, _⟩
      · rw [hflag] at htrue
        cases htrue
      · rw [hc] at hd
        obtain rfl := Option.some.inj hd
        exact hout.1
    refine ⟨_, rfl, hfinal u hob hblocks hmem ?_ (.inr ⟨c, hc, hflag, hstart, hfreed, hchunks⟩)⟩
    rw [hfreed]
    intro hin
    rcases List.mem_append.mp hin with hin | hin
    · exact hserial _ (.inr hin) rfl
    · exact hserial _ (.inl hcout) (List.mem_singleton.mp hin).symm

end Moving

/-- `_obstack_newchunk` calls the handler when the size is no word or `chunkfun` has no block of it,
and then the obstack, its chunks and what is in them are as before. Otherwise it moves the object. -/
theorem newchunk_atomic {M : Machine} (F : Caller M) {k : ℕ} {w : World} (h : Bounded M k w)
    {length : ℕ} (hl : length < 2 ^ M.bits) :
    (2 ^ M.bits ≤ required w length ∨ F.chunkfun w (askedSize w length) = none →
      ∃ m, newchunkOn F w length = .handler { w with mem := m } ∧
        (∀ b, w.Outstanding b → ∀ q, b.addr ≤ q → q < b.stop → m q = w.mem q) ∧
        m.read w.ob.objectBase (grownSize w) = w.mem.read w.ob.objectBase (grownSize w)) ∧
      (required w length < 2 ^ M.bits ∧ F.chunkfun w (askedSize w length) ≠ none →
        ∃ addr w', F.chunkfun w (askedSize w length) = some addr ∧
          newchunkOn F w length = .returned w' ∧ Moved M w length addr w') := by
  have hsize := h.sizeFor_eq hl
  constructor
  · intro hfail
    by_cases hover : 2 ^ M.bits ≤ required w length
    · rw [if_pos hover] at hsize
      refine ⟨w.mem, ?_, fun _ _ _ _ _ => rfl, rfl⟩
      rw [newchunkOn, hsize]
    · rw [if_neg hover] at hsize
      have hnone := hfail.resolve_left hover
      have hkept : ∀ b, w.Outstanding b → ∀ q, b.addr ≤ q → q < b.stop → F.memory w q = w.mem q :=
        fun b hb q => F.keeps w b q hb
      refine ⟨F.memory w, ?_, hkept, h.object_kept hkept⟩
      rw [newchunkOn, hsize]
      dsimp only
      rw [hnone]
  · intro ⟨hfit, hsome⟩
    rw [if_neg (not_le.mpr hfit)] at hsize
    obtain ⟨addr, haddr⟩ := Option.ne_none_iff_exists'.mp hsome
    obtain ⟨w', hmove, hmoved⟩ := h.moveTo haddr
    refine ⟨addr, w', haddr, ?_, hmoved⟩
    rw [newchunkOn, hsize]
    dsimp only
    rw [haddr]
    exact hmove

/-- The states of every run are bounded. -/
theorem Inv.bounded {k : ℕ} {w : World} {s : Stack} {fs : List Frame} (h : Inv k w s fs)
    (hk : k < 64) (hsize : w.ob.chunkSize < 2 ^ 64) : Bounded lp64 k w := by
  obtain ⟨hle, hlimit⟩ := h.next_le
  have hnext := h.next
  refine ⟨hk, h.mask, hsize, ?_, by omega, ⟨hle, Nat.lt_of_le_of_lt hlimit (by decide)⟩, ?_⟩
  · intro b hb
    have hmem : b ∈ w.blocks := by
      rcases hb with hb | hb
      · exact hb
      · exact h.accounts.subset (List.mem_append_right _ hb)
    have hserial : b.serial ∈ w.blocks.map Block.serial := List.mem_map_of_mem hmem
    rw [h.serials] at hserial
    exact List.mem_range.mp hserial
  · cases fs with
    | nil =>
      obtain ⟨_, _, hlen, hflag⟩ := h.top
      exact .inl ⟨h.linked, by omega, hflag⟩
    | cons f fs =>
      obtain ⟨haddr, prev, hc, _⟩ := h.linked
      obtain ⟨hclimit, _, hp, _⟩ := h.top
      obtain ⟨hstart, _⟩ := h.bounds hk (f := f) List.mem_cons_self
      have hlo := hp.le
      have hheader : w.ob.chunk + lp64.contents ≤ w.ob.objectBase := by
        rw [haddr]
        exact le_trans hstart hlo
      exact .inr ⟨_, hc, h.outstanding List.mem_cons_self, haddr.symm, hheader, hclimit, le_refl _⟩

theorem newchunk_atomic_grown :
    (∃ m, newchunkOn bump.caller grown (2 ^ 64 - 1) = .handler { grown with mem := m } ∧
      m.read 4112 2 = grown.mem.read 4112 2) ∧
    ∃ w', newchunkOn bump.caller grown 5000 = .returned w' ∧
      w'.ob.nextFree + 5000 ≤ w'.ob.chunkLimit := by
  obtain ⟨fs, hinv⟩ := Run.inv (k := 4) (by decide) rfl bump_fits grown_run
  have hbounded : Bounded lp64 4 grown := hinv.bounded (by decide) (by decide)
  have hbase : grown.ob.objectBase = 4112 := by decide
  have hsize : grownSize grown = 2 := by decide
  have hlast : 2 ^ 64 - 1 < 2 ^ lp64.bits := by decide
  have hword : 5000 < 2 ^ lp64.bits := by decide
  have hlong : 2 ^ lp64.bits ≤ required grown (2 ^ 64 - 1) := by decide
  have hasked : askedSize grown 5000 = 5117 := by decide
  have hblock : bump.caller.chunkfun grown 5117 = some 8160 := by decide
  constructor
  · obtain ⟨m, hrun, _, hbytes⟩ :=
      (newchunk_atomic bump.caller hbounded hlast).1 (.inl hlong)
    rw [hbase, hsize] at hbytes
    exact ⟨m, hrun, hbytes⟩
  · have hsome : bump.caller.chunkfun grown (askedSize grown 5000) ≠ none := by
      rw [hasked, hblock]
      exact Option.some_ne_none _
    obtain ⟨_, w', _, hrun, hmoved⟩ :=
      (newchunk_atomic bump.caller hbounded hword).2 ⟨by decide, hsome⟩
    exact ⟨w', hrun, hmoved.room⟩

end MuslBsd.Obstack
