import Mathlib.Algebra.Order.Ring.Nat
import Mathlib.Data.List.Pairwise
import Mathlib.Data.List.Range

/-! The data of `fts.h` and `fts.c`: entries, options, the cycle table, the path
buffer, and the operations of the system that the traversal runs on. -/
namespace MuslBsd.Fts

abbrev Byte := UInt8

/-- The characters of a C string before its terminating NUL. -/
abbrev CString := List Byte

abbrev Errno := ℕ

/-- A descriptor; -1 is none. -/
abbrev Fd := ℤ

/-- The address of an `FTSENT`. Addresses are never reused. -/
abbrev NodeId := ℕ

def slash : Byte := 47
def dot : Byte := 46

def ENOENT : Errno := 2
def ENOMEM : Errno := 12
def EFAULT : Errno := 14
def EINVAL : Errno := 22
def ERANGE : Errno := 34
def ENAMETOOLONG : Errno := 36

def SHRT_MAX : ℤ := 32767
def PATH_MAX : ℕ := 4096
def SIZE_MAX : ℕ := 2 ^ 64 - 1
def rootParentLevel : ℤ := -1
def rootLevel : ℤ := 0

/-- `fts_length_max`: the largest `__fts_length_t`, an `unsigned int`. -/
def ftsLengthMax : ℕ := 2 ^ 32 - 1

def ftsLengthCap (len : ℕ) : ℕ := min len ftsLengthMax

/-- `ISDOT`: the names `.` and `..`. -/
def isDot (name : CString) : Bool := name == [dot] || name == [dot, dot]

/-- `fts_info`; `zero` is the value of a freshly cleared node. -/
inductive Info
  | zero | d | dc | default | dnr | dot | dp | err | f | init | ns | nsok | sl | slnone | w
  deriving DecidableEq, Repr

/-- `fts_instr`; `zero` is the instruction 0, which `fts_set` lets through. -/
inductive Instr
  | zero | again | follow | noinstr | skip
  deriving DecidableEq, Repr

/-- The instruction an `int` argument of `fts_set` stands for, if it is a legal one. -/
def Instr.ofInt? : ℤ → Option Instr
  | 0 => some .zero
  | 1 => some .again
  | 2 => some .follow
  | 3 => some .noinstr
  | 4 => some .skip
  | _ => none

/-- `fts_options`, one field for each flag. -/
structure Options where
  comfollow : Bool
  logical : Bool
  nochdir : Bool
  nostat : Bool
  physical : Bool
  seedot : Bool
  xdev : Bool
  whiteout : Bool
  nameonly : Bool
  stop : Bool
  deriving DecidableEq, Repr

def optionMask : ℕ := 0xff

def FTS_COMFOLLOW : ℕ := 0x0001
def FTS_LOGICAL : ℕ := 0x0002
def FTS_NOCHDIR : ℕ := 0x0004
def FTS_NOSTAT : ℕ := 0x0008
def FTS_PHYSICAL : ℕ := 0x0010
def FTS_SEEDOT : ℕ := 0x0020
def FTS_XDEV : ℕ := 0x0040
def FTS_WHITEOUT : ℕ := 0x0080
def FTS_NAMEONLY : ℤ := 0x0100

def Options.ofBits (b : ℕ) : Options where
  comfollow := b.testBit 0
  logical := b.testBit 1
  nochdir := b.testBit 2
  nostat := b.testBit 3
  physical := b.testBit 4
  seedot := b.testBit 5
  xdev := b.testBit 6
  whiteout := b.testBit 7
  nameonly := b.testBit 8
  stop := b.testBit 9

/-- The type bits of `st_mode`; `none` is a cleared `st_mode`. -/
inductive FileType
  | none | dir | lnk | reg | wht | other
  deriving DecidableEq, Repr

/-- What `fts.c` reads of a `struct stat`. -/
structure Stat where
  mode : FileType
  dev : ℕ
  ino : ℕ
  nlink : ℕ
  deriving DecidableEq, Repr

def Stat.zero : Stat := ⟨.none, 0, 0, 0⟩

inductive DType
  | unknown | dir | wht | other
  deriving DecidableEq, Repr

structure Dirent where
  name : CString
  type : DType
  deriving DecidableEq, Repr

/-- Where `fts_accpath` points: nowhere, to the `fts_name` of an entry, to the start of an
allocation of the path buffer, or to no object at all. -/
inductive AccPath
  | null
  | name (owner : NodeId)
  | buf (base : ℕ)
  | wild
  deriving DecidableEq, Repr

/-- A path argument as the system sees it. -/
inductive PathArg
  | null
  | wild
  | str (s : CString)
  deriving DecidableEq, Repr

/-- `FTSENT`. `path` names the allocation of the path buffer that `fts_path` points to. -/
structure Ftsent where
  addr : NodeId
  cycle : Option NodeId
  parent : Option NodeId
  link : Option NodeId
  accpath : AccPath
  path : ℕ
  errno : Errno
  symfd : Fd
  pathlen : ℕ
  namelen : ℕ
  ino : ℕ
  dev : ℕ
  nlink : ℕ
  level : ℤ
  info : Info
  dontchdir : Bool
  symfollow : Bool
  isw : Bool
  instr : Instr
  statp : Stat
  name : CString
  deriving DecidableEq, Repr

/-- The device and inode that identify a directory. -/
def Ftsent.key (n : Ftsent) : ℕ × ℕ := (n.dev, n.ino)

/-- What a comparison function may order entries by. -/
structure Seen where
  name : CString
  level : ℤ
  info : Info
  errno : Errno
  dev : ℕ
  ino : ℕ
  nlink : ℕ
  statp : Stat
  deriving DecidableEq, Repr

def Ftsent.seen (n : Ftsent) : Seen :=
  ⟨n.name, n.level, n.info, n.errno, n.dev, n.ino, n.nlink, n.statp⟩

abbrev Compar := Seen → Seen → ℤ

structure CycleEntry where
  dev : ℕ
  ino : ℕ
  ent : NodeId
  deriving DecidableEq, Repr

/-- `struct cycle_state`; `none` is a NULL bucket array. -/
structure CycleState where
  buckets : Option (ℕ → List CycleEntry)
  nbuckets : ℕ

/-- The path buffer: which allocation it is, the bytes stored so far, and its real size. -/
structure PathBuf where
  addr : ℕ
  bytes : List Byte
  room : ℕ

namespace PathBuf

/-- Store `bs` from offset `off` on. -/
def write (b : PathBuf) (off : ℕ) (bs : List Byte) : PathBuf :=
  { b with bytes := b.bytes.take off ++ bs ++ b.bytes.drop (off + bs.length) }

/-- The C string at the start of the buffer. -/
def cstr (b : PathBuf) : CString := b.bytes.takeWhile (· ≠ 0)

end PathBuf

/-- Flags of `open_fn`; `O_RDONLY | O_CLOEXEC` are in every call. -/
structure OpenFlags where
  directory : Bool
  nofollow : Bool
  deriving DecidableEq, Repr

inductive Realloc
  | fail | inPlace | moved
  deriving DecidableEq, Repr

/-- `qsort` sees the array only through comparisons of its positions: it returns a permutation of
the positions, in order whenever the comparison is a total preorder on them. -/
structure Qsort where
  order : ℕ → (ℕ → ℕ → ℤ) → List ℕ
  perm : ∀ n c, (order n c).Perm (List.range n)
  sorted : ∀ n c, (∀ i < n, ∀ j < n, c i j ≤ 0 ∨ c j i ≤ 0) →
    (∀ i < n, ∀ j < n, ∀ k < n, c i j ≤ 0 → c j k ≤ 0 → c i k ≤ 0) →
    (order n c).Pairwise (fun i j => c i j ≤ 0)

/-- `struct fts_ops` and the allocator, over a state `ω` of the system. An operation that fails
gives the `errno` it sets. A directory stream hands out finitely many entries; the number that
comes with them is what `readdir_fn` leaves in `errno` when it returns NULL (0: nothing). -/
structure Env (ω : Type) where
  openFn : ω → PathArg → OpenFlags → Except Errno ℕ × ω
  closeFn : ω → Fd → Except Errno Unit × ω
  fstatFn : ω → Fd → Except Errno Stat × ω
  fstatatFn : ω → Option Fd → PathArg → Bool → Except Errno Stat × ω
  fchdirFn : ω → Fd → Except Errno Unit × ω
  fdopendirFn : ω → Fd → Except Errno (List Dirent × Errno) × ω
  closedirFn : ω → Fd → Except Errno Unit × ω
  malloc : ω → Bool × ω
  realloc : ω → ℕ → Realloc × ω
  qsort : Qsort

/-- What a stream does, in order: the calls of the operations with their answers, the stores into
the path buffer, the verdicts of `fts_stat` on directories and the skips of `fts_read`. The
functions over the heap never write `crashes`: it stands for their faults in the traversal that
has no pointers. -/
inductive Act
  | opens (path : PathArg) (flags : OpenFlags) (res : Option Fd)
  | closes (fd : Fd)
  | fstats (fd : Fd) (res : Option Stat)
  | fstatats (dfd : Option Fd) (path : PathArg) (nofollow : Bool) (res : Option Stat)
  | fchdirs (fd : Fd) (ok : Bool)
  | opendirs (fd : Fd) (dir : NodeId) (ok : Bool)
  | closedirs (fd : Fd)
  | mallocs (ok : Bool)
  | reallocs (res : Realloc)
  | stores (off len size : ℕ)
  | classifies (p : Ftsent) (ancestors : List Ftsent) (info : Info)
  | skips (p : NodeId)
  | crashes
  deriving DecidableEq, Repr

/-- Everything a stream and the system behind it hold, save the `FTSENT` nodes and the two
pointers to them. `next` is the address the next node will get. -/
structure Sys (ω : Type) where
  world : ω
  errno : Errno
  opts : Options
  compar : Option Compar
  dev : ℕ
  path : PathBuf
  pathlen : ℕ
  rfd : Fd
  array : Option ℕ
  nitems : ℕ
  cycles : CycleState
  next : NodeId

/-- Ways for a C program to go wrong. -/
inductive Fault
  /-- a NULL pointer to a node is dereferenced -/
  | null
  /-- a node that has been freed is dereferenced, or freed again -/
  | freed
  /-- a pointer into a path buffer that has been reallocated is dereferenced -/
  | stale
  /-- a pointer to no object is dereferenced -/
  | wild
  /-- a list of nodes does not end -/
  | endless
  deriving DecidableEq, Repr

end MuslBsd.Fts
