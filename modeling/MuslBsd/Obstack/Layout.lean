import Mathlib.Data.List.Perm.Basic
import MuslBsd.Obstack.Model
import MuslBsd.Support.Word

/-! The object stack that an obstack stands for, and how chunks, objects and the fields of
`struct obstack` fit together. -/
namespace MuslBsd.Obstack
open MuslBsd.Support

/-! ### Addresses -/

section Addresses

variable {k p q a b : ℕ}

theorem addSize_eq (h : a + b < 2 ^ 64) : addSize a b = a + b := Word.add_eq h

theorem subSize_eq (hb : b ≤ a) (ha : a < 2 ^ 64) : subSize a b = a - b := Word.sub_eq hb ha

theorem le_ptrAlign (hk : k < 64) (hp : p + 2 ^ k ≤ 2 ^ 64) : p ≤ ptrAlign p (2 ^ k - 1) :=
  Word.le_alignUp hk hp

theorem ptrAlign_le (hk : k < 64) (hp : p + 2 ^ k ≤ 2 ^ 64) :
    ptrAlign p (2 ^ k - 1) ≤ p + (2 ^ k - 1) :=
  Word.alignUp_le hk hp

theorem dvd_ptrAlign (hk : k < 64) (p : ℕ) : 2 ^ k ∣ ptrAlign p (2 ^ k - 1) :=
  Word.dvd_alignUp hk p

/-- No aligned address lies between an address and the one it is aligned to. -/
theorem ptrAlign_le_of_dvd (hk : k < 64) (hp : p + 2 ^ k ≤ 2 ^ 64) (hd : 2 ^ k ∣ q)
    (hq : p ≤ q) : ptrAlign p (2 ^ k - 1) ≤ q :=
  Word.alignUp_le_of_dvd hk hp hd hq

end Addresses

/-- The block has room for a chunk header and an aligned address after it. -/
def HoldsHeader (alignment : ℕ) (e : Extent) : Prop :=
  ∃ q, alignment ∣ q ∧ e.addr + contents ≤ q ∧ q ≤ e.stop

/-- Where the first object of a chunk at the start of the block begins. -/
def startOf (k : ℕ) (e : Extent) : ℕ := ptrAlign (addSize e.addr contents) (2 ^ k - 1)

section Start

variable {k : ℕ} {e : Extent}

theorem startOf_bounds (hk : k < 64) (hb : e.stop ≤ 2 ^ 63) (he : HoldsHeader (2 ^ k) e) :
    e.addr + contents ≤ startOf k e ∧ startOf k e ≤ e.stop := by
  obtain ⟨q, hd, hq, hstop⟩ := he
  have hpow : 2 ^ k ≤ 2 ^ 63 := Nat.pow_le_pow_right (by decide) (by omega)
  have hfit : e.addr + contents + 2 ^ k ≤ 2 ^ 64 := by omega
  have hlt : e.addr + contents < 2 ^ 64 := by omega
  unfold startOf
  rw [addSize_eq hlt]
  exact ⟨le_ptrAlign hk hfit, le_trans (ptrAlign_le_of_dvd hk hfit hd hq) hstop⟩

/-- A block that is larger than a header and the alignment holds the header. -/
theorem holdsHeader_of_size {n : ℕ} (hk : k < 64) (hb : e.stop ≤ 2 ^ 63)
    (hn : contents + (2 ^ k - 1) + n ≤ e.size) :
    HoldsHeader (2 ^ k) e ∧ startOf k e + n ≤ e.stop := by
  have hpow : 2 ^ k ≤ 2 ^ 63 := Nat.pow_le_pow_right (by decide) (by omega)
  have hstop : e.stop = e.addr + e.size := rfl
  have hfit : e.addr + contents + 2 ^ k ≤ 2 ^ 64 := by omega
  have hlt : e.addr + contents < 2 ^ 64 := by omega
  have hle := ptrAlign_le hk hfit
  have hstart : startOf k e = ptrAlign (e.addr + contents) (2 ^ k - 1) := by
    unfold startOf
    rw [addSize_eq hlt]
  refine ⟨⟨ptrAlign (e.addr + contents) (2 ^ k - 1), dvd_ptrAlign hk _,
    le_ptrAlign hk hfit, by omega⟩, by omega⟩

end Start

/-! ### The abstract object stack -/

/-- A finished object: the address `obstack_finish` returned, and the bytes put in; `none` stands
for a byte that was made room for and not written. -/
structure Obj where
  addr : ℕ
  bytes : List (Option UInt8)
  deriving DecidableEq, Repr

def Obj.extent (o : Obj) : Extent := ⟨o.addr, o.bytes.length⟩

/-- The growing object, and the finished ones that were not freed, the newest first. -/
structure Stack where
  growing : List (Option UInt8)
  live : List Obj
  deriving DecidableEq, Repr

namespace Stack

def append (s : Stack) (bytes : List (Option UInt8)) : Stack :=
  { s with growing := s.growing ++ bytes }

/-- Bytes of the growing object are overwritten from `offset` on. -/
def fill (s : Stack) (offset : ℕ) (bytes : List UInt8) : Stack :=
  { s with growing := s.growing.take offset ++ bytes.map some ++
      s.growing.drop (offset + bytes.length) }

/-- The growing object becomes a live one at the address returned. Without a chunk there is no
object, only the null pointer. -/
def finish (s : Stack) (addr : ℕ) : Stack :=
  ⟨[], if addr = 0 then s.live else ⟨addr, s.growing⟩ :: s.live⟩

/-- The growing object and the newest `n` live ones are gone. -/
def drop (s : Stack) (n : ℕ) : Stack := ⟨[], s.live.drop n⟩

end Stack

/-! ### The invariant -/

/-- A chunk on the list with the live objects in it, the newest first. -/
structure Frame where
  block : Block
  objects : List Obj

def Frame.extents (f : Frame) : List Extent := f.objects.map Obj.extent

/-- The chunks from `chunk` along `prev` are those of the frames. -/
def Linked (chunkAt : ℕ → Option Chunk) : ℕ → List Frame → Prop
  | chunk, [] => chunk = 0
  | chunk, f :: fs => chunk = f.block.addr ∧
      ∃ prev, chunkAt chunk = some ⟨f.block.stop, prev, f.block⟩ ∧ Linked chunkAt prev fs

/-- What the fields of `struct obstack` say about the first chunk. -/
def Top (k : ℕ) (h : Head) (grown : ℕ) : List Frame → Prop
  | [] => h.objectBase = 0 ∧ h.chunkLimit = 0 ∧ grown = 0 ∧ h.maybeEmptyObject = true
  | f :: _ => h.chunkLimit = f.block.stop ∧ h.objectBase + grown ≤ f.block.stop ∧
      Extent.Packed (startOf k f.block.toExtent) f.extents h.objectBase ∧
      (h.maybeEmptyObject = false → ∀ o ∈ f.objects, o.bytes ≠ [])

/-- The obstack holds the object stack, with its chunks and their objects as in the frames. -/
structure Inv (k : ℕ) (w : World) (s : Stack) (fs : List Frame) : Prop where
  mask : w.ob.alignmentMask = 2 ^ k - 1
  linked : Linked w.chunkAt w.ob.chunk fs
  only : ∀ (a : ℕ) (c : Chunk), w.chunkAt a = some c →
    a = c.block.addr ∧ ∃ f ∈ fs, f.block = c.block
  block : ∀ f ∈ fs, 0 < f.block.addr ∧ f.block.stop ≤ 2 ^ 63 ∧
    HoldsHeader (2 ^ k) f.block.toExtent
  apart : fs.Pairwise fun f g => f.block.toExtent.Apart g.block.toExtent
  packed : ∀ f ∈ fs.tail,
    Extent.Packed (startOf k f.block.toExtent) f.extents f.block.stop
  top : Top k w.ob s.growing.length fs
  next : w.ob.nextFree = w.ob.objectBase + s.growing.length
  live : s.live = fs.flatMap Frame.objects
  growing : w.mem.Holds w.ob.objectBase s.growing
  held : ∀ o ∈ s.live, w.mem.Holds o.addr o.bytes
  accounts : (fs.map Frame.block ++ w.freed).Perm w.blocks
  serials : w.blocks.map Block.serial = List.range w.blocks.length

end MuslBsd.Obstack
