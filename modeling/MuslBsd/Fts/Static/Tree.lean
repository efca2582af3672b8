import MuslBsd.Fts.Stream
import Mathlib.Data.List.Sort

/-! A static file system: a finite tree of directories, files and symbolic links, path
resolution in it, and the operations of `struct fts_ops` that run on it. -/
namespace MuslBsd.Fts

/-- A file and everything below it. -/
inductive Tree
  | leaf (sb : Stat)
  | link (sb : Stat) (target : CString)
  | dir (dev ino nlink : ℕ) (entries : List (CString × Tree))

/-- Where a file is: the names from the root of the file system down to it. -/
abbrev Loc := List CString

namespace Tree

def stat : Tree → Stat
  | leaf sb => sb
  | link sb _ => sb
  | dir dev ino nlink _ => ⟨.dir, dev, ino, nlink⟩

def entries : Tree → List (CString × Tree)
  | dir _ _ _ es => es
  | _ => []

def isDir : Tree → Bool
  | dir .. => true
  | _ => false

/-- The file at `loc`. -/
def at? (t : Tree) : Loc → Option Tree
  | [] => some t
  | n :: ns => (t.entries.find? (·.1 == n)).bind fun e => at? e.2 ns

end Tree

/-- The pieces of a path between its slashes. -/
def splitSlash : CString → List CString
  | [] => [[]]
  | c :: cs =>
    if c = slash then [] :: splitSlash cs
    else match splitSlash cs with
      | [] => [[c]]
      | w :: ws => (c :: w) :: ws

/-- The names in a path. -/
def components (path : CString) : List CString := (splitSlash path).filter (· ≠ [])

def ENOTDIR : Errno := 20
def ELOOP : Errno := 40
def EBADF : Errno := 9

/-- A static file system: its tree, and the errors that operations on a file always end in. -/
structure FileSystem where
  root : Tree
  dtype : Loc → DType
  openErr : Loc → Option Errno
  statErr : Loc → Option Errno
  chdirErr : Loc → Option Errno
  readErr : Loc → Errno

namespace FileSystem

variable (F : FileSystem)

/-- Walk a list of names from the directory `d`; links on the way are resolved by `follow`, and a
link at the end too unless `nofollow`. -/
def walkWith (follow : Loc → List CString → Except Errno Loc) (nofollow : Bool) :
    Loc → List CString → Except Errno Loc
  | d, [] => .ok d
  | d, c :: cs =>
    match F.root.at? d with
    | none => .error ENOENT
    | some t =>
      if !t.isDir then .error ENOTDIR
      else if c = [dot] then walkWith follow nofollow d cs
      else if c = [dot, dot] then walkWith follow nofollow d.dropLast cs
      else
        match F.root.at? (d ++ [c]) with
        | none => .error ENOENT
        | some (.link _ target) =>
          if nofollow ∧ cs = [] then .ok (d ++ [c])
          else follow (if target.head? = some slash then [] else d) (components target ++ cs)
        | some _ => walkWith follow nofollow (d ++ [c]) cs

/-- Walk a list of names through at most `k` symbolic links. -/
def walk (nofollow : Bool) : ℕ → Loc → List CString → Except Errno Loc
  | 0 => F.walkWith (fun _ _ => .error ELOOP) nofollow
  | k + 1 => F.walkWith (walk nofollow k) nofollow

/-- The file a path names, seen from the directory `cwd`. -/
def resolve (cwd : Loc) (path : CString) (nofollow : Bool) : Except Errno Loc :=
  if path = [] then .error ENOENT
  else
    let trailing := path.getLast? == some slash
    match F.walk (nofollow && !trailing) 40 (if path.head? = some slash then [] else cwd)
        (components path) with
    | .error e => .error e
    | .ok loc =>
      if trailing ∧ ((F.root.at? loc).map Tree.isDir) ≠ some true then .error ENOTDIR else .ok loc

end FileSystem

/-- The process: its current directory and its open descriptors. -/
structure Proc where
  cwd : Loc
  fds : List (Fd × Loc)
  deriving DecidableEq, Repr

namespace Proc

/-- The lowest descriptor that is free. -/
def newFd (p : Proc) : ℕ :=
  (((List.range (p.fds.length + 1)).map (· + 3)).find?
    fun fd : ℕ => !(p.fds.any fun e => e.1 == Int.ofNat fd)).getD 0

def get? (p : Proc) (fd : Fd) : Option Loc := (p.fds.find? (·.1 == fd)).map Prod.snd

def close (p : Proc) (fd : Fd) : Proc := { p with fds := p.fds.eraseP (·.1 == fd) }

end Proc

/-- A `qsort`: insertion sort of the positions. -/
def insertionQsort : Qsort where
  order n c := ((List.finRange n).insertionSort fun i j : Fin n => c i j ≤ 0).map Fin.val
  perm n c := by
    have h := (List.perm_insertionSort (fun i j : Fin n => c i j ≤ 0) (List.finRange n)).map Fin.val
    rwa [List.map_coe_finRange_eq_range] at h
  sorted n c ht hr := by
    have : Std.Total fun i j : Fin n => c i j ≤ 0 := ⟨fun i j => ht i i.2 j j.2⟩
    have : IsTrans (Fin n) fun i j => c i j ≤ 0 :=
      ⟨fun i j k => hr i i.2 j j.2 k k.2⟩
    rw [List.pairwise_map]
    exact List.pairwise_insertionSort _ _

namespace FileSystem

variable (F : FileSystem)

def opened (w : Proc) (path : PathArg) (flags : OpenFlags) : Except Errno ℕ × Proc :=
  match path with
  | .str s =>
    match F.resolve w.cwd s flags.nofollow with
    | .error e => (.error e, w)
    | .ok loc =>
      match F.root.at? loc, F.openErr loc with
      | none, _ => (.error ENOENT, w)
      | some (.link ..), _ => (.error ELOOP, w)
      | some t, e =>
        if flags.directory ∧ !t.isDir then (.error ENOTDIR, w)
        else match e with
          | some e => (.error e, w)
          | none => (.ok w.newFd, { w with fds := (w.newFd, loc) :: w.fds })
  | _ => (.error EFAULT, w)

def statOf (base : Option Loc) (path : CString) (nofollow : Bool) : Except Errno Stat :=
  match base with
  | none => .error EBADF
  | some base =>
    match F.resolve base path nofollow with
    | .error e => .error e
    | .ok loc =>
      match F.root.at? loc, F.statErr loc with
      | some t, none => .ok t.stat
      | _, some e => .error e
      | none, none => .error ENOENT

/-- The operations on a static file system; memory never runs out. -/
def env (moves : Bool) : Env Proc where
  openFn := F.opened
  closeFn w fd := (.ok (), w.close fd)
  fstatFn w fd :=
    match (w.get? fd).bind F.root.at? with
    | some t => (.ok t.stat, w)
    | none => (.error EBADF, w)
  fstatatFn w dfd path nofollow :=
    match path with
    | .str s => (F.statOf (match dfd with | none => some w.cwd | some fd => w.get? fd) s nofollow, w)
    | _ => (.error EFAULT, w)
  fchdirFn w fd :=
    match w.get? fd with
    | none => (.error EBADF, w)
    | some loc =>
      match F.chdirErr loc with
      | some e => (.error e, w)
      | none => (.ok (), { w with cwd := loc })
  fdopendirFn w fd :=
    match w.get? fd with
    | none => (.error EBADF, w)
    | some loc =>
      match F.root.at? loc with
      | some (.dir _ _ _ es) =>
        (.ok ([⟨[dot], .dir⟩, ⟨[dot, dot], .dir⟩] ++
          es.map fun e => ⟨e.1, F.dtype (loc ++ [e.1])⟩, F.readErr loc), w)
      | _ => (.error ENOTDIR, w)
  closedirFn w fd := (.ok (), w.close fd)
  malloc w := (true, w)
  realloc w _ := (if moves then .moved else .inPlace, w)
  qsort := insertionQsort

end FileSystem

end MuslBsd.Fts
