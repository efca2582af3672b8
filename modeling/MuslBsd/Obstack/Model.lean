import MuslBsd.Support.Memory

/-! `src/obstack.c` and the macros of `include/obstack.h`: an obstack in a byte memory, over a
`chunkfun` and a `freefun` of the caller's. Addresses and sizes are 64-bit words. -/
namespace MuslBsd.Obstack
open MuslBsd.Support

def SIZE_MAX : ℕ := 2 ^ 64 - 1
def DEFAULT_ALIGNMENT : ℕ := 16
def DEFAULT_ROUNDING : ℕ := 16

/-- The offset of `contents` in `struct _obstack_chunk`, after `limit` and `prev`. -/
def contents : ℕ := 16

def addSize (a b : ℕ) : ℕ := (a + b) % 2 ^ 64
def subSize (a b : ℕ) : ℕ := (a + 2 ^ 64 - b) % 2 ^ 64

/-- `__PTR_ALIGN`: `(p + a) & ~a`. -/
def ptrAlign (p a : ℕ) : ℕ := addSize p a &&& (SIZE_MAX - a)

/-- What one call of `chunkfun` returned: the `serial`-th block, counted from 0. -/
structure Block extends Extent where
  serial : ℕ
  deriving DecidableEq, Repr

/-- `struct _obstack_chunk`, with the block it lies at the start of. -/
structure Chunk where
  limit : ℕ
  prev : ℕ
  block : Block
  deriving DecidableEq, Repr

/-- `struct obstack`, less the callbacks; `0` is the null pointer. -/
structure Head where
  chunkSize : ℕ
  chunk : ℕ
  objectBase : ℕ
  nextFree : ℕ
  chunkLimit : ℕ
  alignmentMask : ℕ
  maybeEmptyObject : Bool
  allocFailed : Bool
  deriving DecidableEq, Repr

/-- The obstack, the chunks it holds by address, the memory, and the history of its blocks: those
that `chunkfun` returned and those passed to `freefun`, in order. -/
structure World where
  ob : Head
  chunkAt : ℕ → Option Chunk
  mem : Memory
  blocks : List Block
  freed : List Block

/-- Why an operation does not return: the handler was called, `abort` was, or a chunk was used
that is not the obstack's, or memory outside a block. -/
inductive Stop
  | allocFailed | abort | wild
  deriving DecidableEq, Repr

/-- `chunkfun` returned the block, and it was not passed to `freefun`. -/
def World.Outstanding (w : World) (b : Block) : Prop := b ∈ w.blocks ∧ b ∉ w.freed

/-- The caller's `chunkfun` and `freefun`. A new block is apart from the outstanding ones and lies
in the lower half of the address space; what is in outstanding blocks is left alone. -/
structure Allocator where
  chunkfun : World → ℕ → Option ℕ
  memory : World → Memory
  fresh : ∀ (w : World) (size addr : ℕ), chunkfun w size = some addr →
    0 < addr ∧ addr + size ≤ 2 ^ 63 ∧
      ∀ b, w.Outstanding b → Extent.Apart ⟨addr, size⟩ b.toExtent
  keeps : ∀ (w : World) (b : Block) (q : ℕ), w.Outstanding b → b.addr ≤ q → q < b.stop →
    memory w q = w.mem q

namespace World

/-- A world in which `chunkfun` was never called. -/
def start (ob : Head) (mem : Memory) : World := ⟨ob, fun _ => none, mem, [], []⟩

def setChunk (w : World) (chunk : ℕ) (f : Chunk → Chunk) : World :=
  { w with chunkAt := Function.update w.chunkAt chunk ((w.chunkAt chunk).map f) }

/-- Whether `n` bytes from `p` lie in the block of `chunk`, past the chunk's header. -/
def inside (w : World) (chunk p n : ℕ) : Bool :=
  match w.chunkAt chunk with
  | none => n = 0
  | some c => n = 0 ∨ (chunk + contents ≤ p ∧ p + n ≤ c.block.stop)

/-- Writes bytes, which must lie in the block of `chunk`. -/
def store (w : World) (chunk p : ℕ) (bytes : List UInt8) : Except Stop World :=
  if w.inside chunk p bytes.length then .ok { w with mem := w.mem.write p bytes } else .error .wild

end World

variable (A : Allocator)

/-- `call_chunkfun`, and the handler where it returns a null pointer. -/
def callChunkfun (w : World) (size : ℕ) : Except Stop (World × ℕ) :=
  match A.chunkfun w size with
  | none => .error .allocFailed
  | some addr =>
    let block : Block := ⟨⟨addr, size⟩, w.blocks.length⟩
    .ok ({ w with
      chunkAt := Function.update w.chunkAt addr (some ⟨0, 0, block⟩)
      mem := A.memory w
      blocks := w.blocks ++ [block] }, addr)

def callFreefun (w : World) (chunk : ℕ) : Except Stop World :=
  match w.chunkAt chunk with
  | none => .error .wild
  | some c =>
    let w : World := { w with
      chunkAt := Function.update w.chunkAt chunk none
      freed := w.freed ++ [c.block] }
    .ok { w with mem := A.memory w }

/-! ### `_obstack_begin` -/

def beginAlignment (alignment : ℕ) : ℕ := if alignment = 0 then DEFAULT_ALIGNMENT else alignment

def beginSize (size : ℕ) : ℕ :=
  if size = 0 then
    4096 - ptrAlign (ptrAlign 12 (DEFAULT_ROUNDING - 1) + 4) (DEFAULT_ROUNDING - 1)
  else size

def obstackBegin (w : World) (size alignment : ℕ) : Except Stop World := do
  let mask := beginAlignment alignment - 1
  let size := beginSize size
  let (w, chunk) ← callChunkfun A w size
  let limit := addSize chunk size
  let w := w.setChunk chunk fun c => { c with prev := 0, limit := limit }
  let aligned := ptrAlign (addSize chunk contents) mask
  .ok { w with ob :=
    { chunkSize := size, chunk := chunk, objectBase := aligned, nextFree := aligned,
      chunkLimit := limit, alignmentMask := mask, maybeEmptyObject := false,
      allocFailed := false } }

/-! ### `_obstack_newchunk` -/

/-- The size of a new chunk for the growing object and `length` bytes more. -/
def newchunkSize (h : Head) (length : ℕ) : Except Stop ℕ :=
  let objSize := subSize h.nextFree h.objectBase
  let newSize := addSize objSize length
  if newSize < objSize then .error .allocFailed
  else if SIZE_MAX - newSize < addSize h.alignmentMask 100 then .error .allocFailed
  else
    let newSize := addSize newSize (addSize h.alignmentMask 100)
    let growth := objSize >>> 3
    if SIZE_MAX - newSize < growth then .error .allocFailed
    else
      let newSize := addSize newSize growth
      .ok (if newSize < h.chunkSize then h.chunkSize else newSize)

/-- Releases the chunk that the growing object left, where nothing else was in it. -/
def releaseOld (w : World) (old : Head) (newChunk : ℕ) : Except Stop World :=
  if !old.maybeEmptyObject &&
      old.objectBase == ptrAlign (addSize old.chunk contents) old.alignmentMask then
    match w.chunkAt old.chunk with
    | none => .error .wild
    | some c => callFreefun A (w.setChunk newChunk fun n => { n with prev := c.prev }) old.chunk
  else .ok w

def newchunk (w : World) (length : ℕ) : Except Stop World := do
  let old := w.ob
  let objSize := subSize old.nextFree old.objectBase
  let newSize ← newchunkSize old length
  let (w, chunk) ← callChunkfun A w newSize
  let limit := addSize chunk newSize
  let w := w.setChunk chunk fun c => { c with prev := old.chunk, limit := limit }
  let newBase := ptrAlign (addSize chunk contents) old.alignmentMask
  let w ← w.store chunk newBase (w.mem.read old.objectBase objSize)
  let w : World := { w with ob := { old with
    chunkLimit := limit, objectBase := newBase, nextFree := addSize newBase objSize } }
  let w ← releaseOld A w old chunk
  .ok { w with ob := { w.ob with
    chunk := chunk, maybeEmptyObject := false, allocFailed := false } }

/-! ### The macros that grow an object -/

def room (w : World) : ℕ := subSize w.ob.chunkLimit w.ob.nextFree

def makeRoom (w : World) (length : ℕ) : Except Stop World :=
  if room w < length then newchunk A w length else .ok w

/-- `next_free += length` -/
def advance (w : World) (length : ℕ) : World :=
  { w with ob := { w.ob with nextFree := addSize w.ob.nextFree length } }

/-- Writes bytes at `next_free` and moves it past them. -/
def put (w : World) (bytes : List UInt8) : Except Stop World := do
  let w ← w.store w.ob.chunk w.ob.nextFree bytes
  .ok (advance w bytes.length)

def grow (w : World) (bytes : List UInt8) : Except Stop World := do
  let w ← makeRoom A w bytes.length
  put w bytes

def grow0 (w : World) (bytes : List UInt8) : Except Stop World := do
  let w ← makeRoom A w (addSize bytes.length 1)
  let w ← put w bytes
  put w [0]

def oneGrow (w : World) (ch : UInt8) : Except Stop World := do
  let w ← makeRoom A w 1
  put w [ch]

def oneGrowFast (w : World) (ch : UInt8) : Except Stop World := put w [ch]

def blank (w : World) (length : ℕ) : Except Stop World := do
  let w ← makeRoom A w (length % 2 ^ 64)
  .ok (advance w (length % 2 ^ 64))

def blankFast (w : World) (length : ℕ) : World := advance w length

/-- The bytes of a word, the lowest one first. -/
def wordBytes (n value : ℕ) : List UInt8 :=
  (List.range n).map fun i => UInt8.ofNat (value / 256 ^ i)

def ptrGrow (w : World) (aptr : ℕ) : Except Stop World := do
  let w ← makeRoom A w 8
  put w (wordBytes 8 aptr)

def intGrow (w : World) (aint : ℕ) : Except Stop World := do
  let w ← makeRoom A w 4
  put w (wordBytes 4 aint)

/-- A client's write into the growing object, `offset` bytes from `obstack_base`. -/
def fill (w : World) (offset : ℕ) (bytes : List UInt8) : Except Stop World :=
  w.store w.ob.chunk (w.ob.objectBase + offset) bytes

/-- The `i`-th call of `vsnprintf` for one format: the whole text, or a negative result after some
output. -/
abbrev Calls := ℕ → Except (List UInt8) (List UInt8)

/-- `obstack_vprintf`, with the number it returns, or `none` for a negative one. -/
def vprintf (w : World) (calls : Calls) : Except Stop (World × Option ℕ) :=
  match calls 0 with
  | .error _ => .ok (w, none)
  | .ok needed => do
    let total := needed.length + 1
    let w ← makeRoom A w total
    match calls 1 with
    | .error part => do
      let w ← w.store w.ob.chunk w.ob.nextFree (part.take total)
      .ok (w, none)
    | .ok written => do
      let w ← w.store w.ob.chunk w.ob.nextFree (written.take (total - 1) ++ [0])
      if written.length ≥ total then do
        let required := written.length + 1
        let w ← makeRoom A w required
        match calls 2 with
        | .error part => do
          let w ← w.store w.ob.chunk w.ob.nextFree (part.take required)
          .ok (w, none)
        | .ok again => do
          let w ← w.store w.ob.chunk w.ob.nextFree (again.take (required - 1) ++ [0])
          .ok (advance w again.length, some again.length)
      else .ok (advance w written.length, some written.length)

/-! ### `obstack_finish` and `obstack_free` -/

def finish (w : World) : World × ℕ :=
  let h := w.ob
  let tmp := ptrAlign h.nextFree h.alignmentMask
  let tmp := if tmp > h.chunkLimit then h.chunkLimit else tmp
  ({ w with ob := { h with
      maybeEmptyObject := if h.nextFree = h.objectBase then true else h.maybeEmptyObject
      nextFree := tmp, objectBase := tmp } }, h.objectBase)

def copy (w : World) (bytes : List UInt8) : Except Stop (World × ℕ) := do
  let w ← grow A w bytes
  .ok (finish w)

def copy0 (w : World) (bytes : List UInt8) : Except Stop (World × ℕ) := do
  let w ← grow0 A w bytes
  .ok (finish w)

def alloc (w : World) (length : ℕ) : Except Stop (World × ℕ) := do
  let w ← blank A w length
  .ok (finish w)

/-- Releases chunks along `prev` while `go` says so; `each` is done after every one. The first
chunk that stays is returned, or the null pointer. -/
def releaseWhile (go : ℕ → Chunk → Bool) (each : World → World) :
    ℕ → World → ℕ → Except Stop (World × ℕ)
  | 0, w, chunk => if chunk = 0 then .ok (w, 0) else .error .wild
  | fuel + 1, w, chunk =>
    if chunk = 0 then .ok (w, 0)
    else
      match w.chunkAt chunk with
      | none => .error .wild
      | some c =>
        if go chunk c then do
          let w ← callFreefun A w chunk
          releaseWhile go each fuel (each w) c.prev
        else .ok (w, chunk)

def markEmpty (w : World) : World := { w with ob := { w.ob with maybeEmptyObject := true } }

/-- `_obstack_free`; no more chunks are on the list than `chunkfun` returned. -/
def obstackFree (w : World) (obj : ℕ) : Except Stop World :=
  if w.ob.chunk = 0 then .ok w
  else if obj = 0 then do
    let (w, _) ← releaseWhile A (fun _ _ => true) id (w.blocks.length + 1) w w.ob.chunk
    .ok { w with ob := { w.ob with
      chunk := 0, chunkLimit := 0, objectBase := 0, nextFree := 0,
      maybeEmptyObject := true, allocFailed := false } }
  else do
    let (w, chunk) ← releaseWhile A (fun chunk c => chunk ≥ obj ∨ c.limit < obj) markEmpty
      (w.blocks.length + 1) w w.ob.chunk
    match w.chunkAt chunk with
    | none => .error .abort
    | some c =>
      .ok { w with ob := { w.ob with
        chunk := chunk, chunkLimit := c.limit, objectBase := obj, nextFree := obj,
        -- `object_base == next_free` holds here
        maybeEmptyObject := true, allocFailed := false } }

/-- The macro `obstack_free`. -/
def free (w : World) (obj : ℕ) : Except Stop World :=
  if obj > w.ob.chunk ∧ obj < w.ob.chunkLimit then
    .ok { w with ob := { w.ob with nextFree := obj, objectBase := obj } }
  else obstackFree A w obj

/-! ### Queries -/

/-- The chunks on the list from `chunk` along `prev`, while `fuel` lasts. -/
def chunksFrom (w : World) : ℕ → ℕ → List Chunk
  | 0, _ => []
  | fuel + 1, chunk =>
    match w.chunkAt chunk with
    | none => []
    | some c => c :: chunksFrom w fuel c.prev

def sumChunks (w : World) : ℕ → ℕ → ℕ → Except Stop ℕ
  | 0, chunk, total => if chunk = 0 then .ok total else .error .wild
  | fuel + 1, chunk, total =>
    if chunk = 0 then .ok total
    else
      match w.chunkAt chunk with
      | none => .error .wild
      | some c => sumChunks w fuel c.prev (addSize total (subSize c.limit chunk))

/-- `_obstack_memory_used` -/
def memoryUsed (w : World) : Except Stop ℕ := sumChunks w (w.blocks.length + 1) w.ob.chunk 0

def objectSize (w : World) : ℕ := subSize w.ob.nextFree w.ob.objectBase

def emptyP (w : World) : Except Stop Bool :=
  match w.chunkAt w.ob.chunk with
  | none => .error .wild
  | some c => .ok (c.prev = 0 ∧
      w.ob.nextFree = ptrAlign (addSize w.ob.chunk contents) w.ob.alignmentMask)

end MuslBsd.Obstack
