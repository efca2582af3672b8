import MuslBsd.Support.Traced
import MuslBsd.Fts.Types

/-! The parts of `fts.c` that touch no list of nodes: the calls of the operations, the
cycle table, the path buffer and the system half of `fts_stat` and `fts_safe_changedir`. -/
namespace MuslBsd.Fts
open MuslBsd.Support

variable {ω : Type}

abbrev SysM (ω α : Type) : Type := Traced (Sys ω) Act α

def getSys : SysM ω (Sys ω) := Traced.gets id

def getErrno : SysM ω Errno := Traced.gets Sys.errno

def setErrno (e : Errno) : SysM ω Unit := Traced.modify fun s => { s with errno := e }

def getOpts : SysM ω Options := Traced.gets Sys.opts

/-- `SET(FTS_STOP)`. -/
def setStop : SysM ω Unit := Traced.modify fun s => { s with opts.stop := true }

/-- `SET(FTS_NAMEONLY)` and `CLR(FTS_NAMEONLY)`. -/
def setNameonly (b : Bool) : SysM ω Unit := Traced.modify fun s => { s with opts.nameonly := b }

section Calls

variable (E : Env ω)

/-- Record the answer of an operation: the new state of the system, and `errno` on failure. -/
def answer {α β : Type} (r : Except Errno α × ω) (s : Sys ω) (act : Option α → Act)
    (ok : α → β) (fail : β) : β × Sys ω × List Act :=
  match r with
  | (.ok a, w) => (ok a, { s with world := w }, [act (some a)])
  | (.error e, w) => (fail, { s with world := w, errno := e }, [act none])

/-- `open_fn`; a NULL path is a bad address. -/
def callOpen (path : PathArg) (flags : OpenFlags) : SysM ω (Option Fd) := fun s =>
  match path with
  | .null => (none, { s with errno := EFAULT }, [.opens path flags none])
  | _ =>
    answer (E.openFn s.world path flags) s (fun r => .opens path flags (r.map Int.ofNat))
      (fun fd => some (Int.ofNat fd)) none

/-- `close_fn`; its result is never looked at. -/
def callClose (fd : Fd) : SysM ω Unit := fun s =>
  answer (E.closeFn s.world fd) s (fun _ => .closes fd) id ()

def callFstat (fd : Fd) : SysM ω (Option Stat) := fun s =>
  answer (E.fstatFn s.world fd) s (.fstats fd) some none

/-- `fstatat_fn`, relative to `AT_FDCWD` when there is no `dfd`. -/
def callFstatat (dfd : Option Fd) (path : PathArg) (nofollow : Bool) : SysM ω (Option Stat) :=
  fun s => match path with
  | .null => (none, { s with errno := EFAULT }, [.fstatats dfd path nofollow none])
  | _ => answer (E.fstatatFn s.world dfd path nofollow) s (.fstatats dfd path nofollow) some none

/-- `fchdir_fn`; true when it fails. -/
def callFchdir (fd : Fd) : SysM ω Bool := fun s =>
  answer (E.fchdirFn s.world fd) s (fun r => .fchdirs fd r.isSome) (fun _ => false) true

/-- `fdopendir_fn` on behalf of the directory node `dir`. -/
def callFdopendir (fd : Fd) (dir : NodeId) : SysM ω (Option (List Dirent × Errno)) := fun s =>
  answer (E.fdopendirFn s.world fd) s (fun r => .opendirs fd dir r.isSome) some none

def callClosedir (fd : Fd) : SysM ω Unit := fun s =>
  answer (E.closedirFn s.world fd) s (fun _ => .closedirs fd) id ()

/-- `malloc` or `calloc`; true when there is memory. -/
def callMalloc : SysM ω Bool := fun s =>
  let (ok, w) := E.malloc s.world
  (ok, { s with world := w, errno := if ok then s.errno else ENOMEM }, [.mallocs ok])

/-- `realloc` of the path buffer. -/
def callRealloc (size : ℕ) : SysM ω Realloc := fun s =>
  let (r, w) := E.realloc s.world size
  (r, { s with world := w, errno := if r = .fail then ENOMEM else s.errno }, [.reallocs r])

/-- `safe_recallocarray` of `fts_array`; true when there is memory. -/
def callReallocArray (nmemb : ℕ) : SysM ω Bool := fun s =>
  if nmemb ≤ SIZE_MAX / 8 then
    let (r, w) := E.realloc s.world (nmemb * 8)
    (r ≠ .fail, { s with world := w, errno := if r = .fail then ENOMEM else s.errno },
      [.mallocs (r ≠ .fail)])
  else
    (false, { s with errno := ENOMEM }, [.mallocs false])

/-- The cleared node that `fts_alloc` makes at address `i`, with the path buffer at `base`. -/
def newNode (i : NodeId) (base : ℕ) (name : CString) : Ftsent where
  addr := i
  cycle := none
  parent := none
  link := none
  accpath := .null
  path := base
  errno := 0
  symfd := 0
  pathlen := 0
  namelen := ftsLengthCap name.length
  ino := 0
  dev := 0
  nlink := 0
  level := 0
  info := .zero
  dontchdir := false
  symfollow := false
  isw := false
  instr := .noinstr
  statp := Stat.zero
  name := name

/-- `fts_alloc(sp, name, namelen)`: a node, or `none` when `calloc` fails. -/
def allocNode (name : CString) : SysM ω (Option Ftsent) := do
  if ← callMalloc E then
    let s ← getSys
    Traced.modify fun s => { s with next := s.next + 1 }
    pure (some (newNode s.next s.path.addr name))
  else
    pure none

end Calls

section PathBuffer

variable (E : Env ω)

/-- Store bytes into `sp->fts_path` from offset `off` on. -/
def storePath (off : ℕ) (bs : List Byte) : SysM ω Unit := fun s =>
  ((), { s with path := s.path.write off bs }, [.stores off bs.length s.pathlen])

/-- `fts_pow2`, in 64-bit arithmetic. -/
def ftsPow2 (x : ℕ) : ℕ :=
  if x = 0 then 1
  else
    let x := x - 1
    let x := x ||| x >>> 1
    let x := x ||| x >>> 2
    let x := x ||| x >>> 4
    let x := x ||| x >>> 8
    let x := x ||| x >>> 16
    let x := x ||| x >>> 32
    (x + 1) % 2 ^ 64

/-- `fts_palloc`; true when it fails. A buffer that moves gets an address of its own. -/
def ftsPalloc (need : ℕ) : SysM ω Bool := do
  let pad := 256
  if SIZE_MAX - pad < need then
    setErrno ENAMETOOLONG
    pure true
  else
    let need := ftsPow2 (need + pad)
    let r ← callRealloc E need
    if r = .fail then
      pure true
    else
      Traced.modify fun s =>
        { s with
          path := { s.path with
            addr := if r = .moved then s.path.addr + 1 else s.path.addr
            room := need }
          pathlen := ftsLengthCap need }
      pure false

/-- `fts_maxarglen`. -/
def ftsMaxarglen (argv : List CString) : ℕ := argv.foldl (fun m a => max m a.length) 0 + 1

/-- `p->fts_path[p->fts_pathlen - 1] == '/'`, with `p->fts_pathlen - 1` an `unsigned int`. -/
def endsInSlash (s : Sys ω) (p : Ftsent) : Bool :=
  s.path.bytes[(p.pathlen + ftsLengthMax) % (ftsLengthMax + 1)]? == some slash

/-- Where the name of an entry of the directory `p` goes in the path buffer, less its `/`. -/
def dirLength (s : Sys ω) (p : Ftsent) : ℕ :=
  if endsInSlash s p then p.pathlen - 1 else p.pathlen

/-- The part of `name` after its last `/`, with the part before it. -/
def splitLast (name : CString) : Option (CString × CString) :=
  if slash ∈ name then
    let leaf := (name.reverse.takeWhile (· ≠ slash)).reverse
    some (name.take (name.length - leaf.length - 1), leaf)
  else none

/-- The name `fts_load` leaves in a root: the part after the last `/`, unless the root is `/`. -/
def leafName (name : CString) : CString :=
  match splitLast name with
  | some (before, leaf) => if before ≠ [] ∨ leaf ≠ [] then leaf else name
  | none => name

/-- `fts_load`: the root `p` becomes the start of the path buffer. -/
def loadRoot (p : Ftsent) : SysM ω Ftsent := do
  storePath 0 ((p.name ++ [0]).take (p.namelen + 1))
  let s ← getSys
  Traced.modify fun s => { s with dev := p.dev }
  pure
    { p with
      name := leafName p.name
      namelen := if leafName p.name = p.name then p.namelen
        else ftsLengthCap (leafName p.name).length
      path := s.path.addr
      accpath := .buf s.path.addr
      pathlen := ftsLengthCap s.path.cstr.length }

/-- The label `name` of `fts_read`: the path of an entry `p` of the directory `parent`. -/
def storeName (parent p : Ftsent) : SysM ω Unit := do
  let s ← getSys
  let t := dirLength s parent
  storePath t [slash]
  storePath (t + 1) ((p.name ++ [0]).take (p.namelen + 1))

end PathBuffer

section CycleTable

variable (E : Env ω)

def cycleHash (dev ino nbuckets : ℕ) : ℕ :=
  if nbuckets = 0 then 0 else ((dev <<< 5) % 2 ^ 64 ^^^ ino) &&& (nbuckets - 1)

/-- `cycle_init`; true when it fails. -/
def cycleInit : SysM ω Bool := do
  if ← callMalloc E then
    Traced.modify fun s => { s with cycles := ⟨some fun _ => [], 64⟩ }
    pure false
  else
    Traced.modify fun s => { s with cycles := ⟨none, 0⟩ }
    pure true

/-- `cycle_free`. -/
def cycleFree : SysM ω Unit := Traced.modify fun s => { s with cycles := ⟨none, 0⟩ }

def cycleLookup (cs : CycleState) (dev ino : ℕ) : Option NodeId :=
  match cs.buckets with
  | none => none
  | some b =>
    ((b (cycleHash dev ino cs.nbuckets)).find? fun e => e.dev == dev && e.ino == ino).map
      CycleEntry.ent

/-- `cycle_insert`; true when it fails. A key that is there already stays as it is. -/
def cycleInsert (dev ino : ℕ) (ent : NodeId) : SysM ω Bool := do
  let s ← getSys
  let failed ← (if s.cycles.buckets.isNone then cycleInit E else pure false)
  if failed then
    pure true
  else
    let cs ← Traced.gets Sys.cycles
    let idx := cycleHash dev ino cs.nbuckets
    let b := cs.buckets.getD fun _ => []
    if (b idx).any fun e => e.dev == dev && e.ino == ino then
      pure false
    else if ← callMalloc E then
      Traced.modify fun s =>
        { s with cycles.buckets := some fun i => if i = idx then ⟨dev, ino, ent⟩ :: b idx else b i }
      pure false
    else
      pure true

def cycleRemove (dev ino : ℕ) : SysM ω Unit :=
  Traced.modify fun s =>
    match s.cycles.buckets with
    | none => s
    | some b =>
      let idx := cycleHash dev ino s.cycles.nbuckets
      { s with cycles.buckets := some fun i =>
        if i = idx then (b idx).eraseP fun e => e.dev == dev && e.ino == ino else b i }

/-- `fts_cycle_push`; true when it fails. -/
def ftsCyclePush (p : Ftsent) : SysM ω Bool := do
  if p.info ≠ .d then
    pure false
  else if ← cycleInsert E p.dev p.ino p.addr then
    setErrno ENOMEM
    pure true
  else
    pure false

/-- The values of `fts_info` on which `fts_cycle_pop` removes an entry. -/
def Info.pops : Info → Bool
  | .d | .dc | .dnr | .dp | .err => true
  | _ => false

def ftsCyclePop (p : Ftsent) : SysM ω Unit :=
  if p.info.pops then cycleRemove p.dev p.ino else pure ()

end CycleTable

section StatAndChdir

variable (E : Env ω)

/-- `fts_stat` up to the look at `st_mode`: the node with its stat buffer and `fts_errno`, and
either the result of `fts_stat` or what the file system said. `path` is `p->fts_accpath`. -/
def statFile (p : Ftsent) (follow : Bool) (dfd : Option Fd) (path : PathArg) :
    SysM ω (Except Info Stat × Ftsent) := do
  if SHRT_MAX ≤ p.level then
    setErrno ERANGE
    pure (.error .err, { p with errno := ERANGE })
  else
    let o ← getOpts
    let path := if dfd.isNone then path else .str p.name
    let keep (sb : Stat) (p : Ftsent) : Ftsent := if o.nostat then p else { p with statp := sb }
    if o.whiteout ∧ p.isw then
      pure (.error .w, keep { Stat.zero with mode := .wht } p)
    else if o.logical ∨ follow then
      match ← callFstatat E dfd path false with
      | some sb => pure (.ok sb, keep sb p)
      | none =>
        let saved ← getErrno
        match ← callFstatat E dfd path true with
        | some sb =>
          setErrno 0
          pure (.error .slnone, keep sb p)
        | none => pure (.error .ns, keep Stat.zero { p with errno := saved })
    else
      match ← callFstatat E dfd path true with
      | some sb => pure (.ok sb, keep sb p)
      | none =>
        let e ← getErrno
        pure (.error .ns, keep Stat.zero { p with errno := e })

/-- The `fts_info` of a file that is not a directory. -/
def FileType.info : FileType → Info
  | .lnk => .sl
  | .reg => .f
  | _ => .default

/-- `fts_safe_changedir` once `newfd` is open; true when it fails. `own` says that the descriptor
was opened by the function itself. -/
def enterDir (p : Ftsent) (newfd : Fd) (own : Bool) : SysM ω Bool := do
  match ← callFstat E newfd with
  | none =>
    let e ← getErrno
    (if own then callClose E newfd else pure ())
    setErrno e
    pure true
  | some before =>
    if p.dev ≠ before.dev ∨ p.ino ≠ before.ino then
      (if own then callClose E newfd else pure ())
      setErrno ENOENT
      pure true
    else if ← callFchdir E newfd then
      let e ← getErrno
      (if own then callClose E newfd else pure ())
      setErrno e
      pure true
    else
      match ← callFstat E newfd with
      | none =>
        (if own then callClose E newfd else pure ())
        setErrno ENOENT
        pure true
      | some after =>
        if before.dev ≠ after.dev ∨ before.ino ≠ after.ino then
          (if own then callClose E newfd else pure ())
          setErrno ENOENT
          pure true
        else
          (if own then callClose E newfd else pure ())
          pure false

/-- `fts_safe_changedir(sp, p, fd, path)`; true when it fails. -/
def ftsSafeChangedir (p : Ftsent) (fd : Option Fd) (path : PathArg) : SysM ω Bool := do
  if (← getOpts).nochdir then
    pure false
  else
    match fd with
    | some fd => enterDir E p fd false
    | none =>
      match ← callOpen E path ⟨true, true⟩ with
      | none => pure true
      | some newfd => enterDir E p newfd true

/-- `!ISSET(FTS_NOCHDIR) && fchdir_fn(sp->fts_rfd)`; true when it fails. -/
def backToStart : SysM ω Bool := do
  let s ← getSys
  if s.opts.nochdir then pure false else callFchdir E s.rfd

/-- Close `p->fts_symfd` if `FTS_SYMFOLLOW` is set. -/
def closeSymfd (p : Ftsent) : SysM ω Unit :=
  if p.symfollow then callClose E p.symfd else pure ()

/-- The way up through `p->fts_symfd`; true when it fails. -/
def leaveSymfd (p : Ftsent) : SysM ω Bool := do
  let o ← getOpts
  let failed ← (if o.nochdir then pure false else callFchdir E p.symfd)
  let saved ← getErrno
  callClose E p.symfd
  (if failed then setErrno saved else pure ())
  pure failed

/-- A descriptor of the directory that holds the followed link `p`, if `p` now is a directory and
the walk changes directories. -/
def openSymfd (p : Ftsent) : SysM ω Ftsent := do
  let o ← getOpts
  if p.info = .d ∧ !o.nochdir then
    match ← callOpen E (.str [dot]) ⟨false, false⟩ with
    | none =>
      let e ← getErrno
      pure { p with symfd := -1, errno := e, info := .err }
    | some fd => pure { p with symfd := fd, symfollow := true }
  else
    pure p

/-- The end of `fts_close`: back to the starting directory; true when it fails. -/
def closeStart : SysM ω Bool := do
  let s ← getSys
  if s.opts.nochdir then
    pure false
  else
    let failed ← callFchdir E s.rfd
    let e ← getErrno
    callClose E s.rfd
    (if failed && e ≠ 0 then setErrno e else pure ())
    pure (failed && e ≠ 0)

end StatAndChdir

section Directory

variable (E : Env ω)

/-- The argument `type` of `fts_build`. -/
inductive BuildType
  | bchild | bnames | bread
  deriving DecidableEq, Repr

/-- `fts_build` up to its first `readdir_fn`: open the directory of `c` and check that it still is
the one that was stat'ed. On failure, the `fts_info` and `fts_errno` that `c` gets. -/
def openDir (type : BuildType) (c : Ftsent) (path : PathArg) :
    SysM ω (Except (Info × Errno) (Fd × List Dirent × Errno)) := do
  let o ← getOpts
  match ← callOpen E path ⟨true, o.physical⟩ with
  | none =>
    let e ← getErrno
    pure (.error (if type = .bread then .dnr else .err, e))
  | some fd =>
    match ← callFstat E fd with
    | none =>
      let saved ← getErrno
      callClose E fd
      setErrno saved
      pure (.error (.err, saved))
    | some sb =>
      if sb.dev ≠ c.dev ∨ sb.ino ≠ c.ino then
        callClose E fd
        setErrno ENOENT
        pure (.error (.err, ENOENT))
      else
        match ← callFdopendir E fd c.addr with
        | none =>
          let saved ← getErrno
          callClose E fd
          setErrno saved
          pure (.error (.err, saved))
        | some (entries, e) => pure (.ok (fd, entries, e))

/-- `nlinks` and `nostat` of `fts_build`; the link count is cut down to an `int`. -/
def linkPlan (o : Options) (type : BuildType) (c : Ftsent) : ℤ × Bool :=
  if type = .bnames then (0, true)
  else if o.nostat ∧ o.physical then
    (max 0 ((c.nlink : ℤ).bmod (2 ^ 32) - if o.seedot then 0 else 2), true)
  else (-1, false)

/-- `sp->fts_pathlen - len`, in `size_t`. -/
@[irreducible] def roomLeft (s : Sys ω) (len : ℕ) : ℕ := (s.pathlen + 2 ^ 64 - len) % 2 ^ 64

/-- Whether an entry counts against `nlinks`. -/
def Info.isSubdir : Info → Bool
  | .d | .dc | .dot => true
  | _ => false

end Directory

section Open

variable (E : Env ω)

/-- The options `fts_open` works with: exactly one of physical and logical, and no directory
changes in a logical walk. -/
def Options.normalize (o : Options) : Options :=
  let o := if o.logical then { o with physical := false } else { o with physical := true }
  if o.logical then { o with nochdir := true } else o

/-- `fts_open` up to its first node: the stream, its cycle table and its path buffer. False when
there is no memory. -/
def openSys (o : Options) (compar : Option Compar) (argv : List CString) : SysM ω Bool := do
  if !(← callMalloc E) then
    pure false
  else if ← cycleInit E then
    pure false
  else
    Traced.modify fun s => { s with opts := o, compar := compar }
    if ← ftsPalloc E (max (ftsMaxarglen argv) PATH_MAX) then
      cycleFree
      pure false
    else
      pure true

/-- The descriptor of the starting directory; without one there are no directory changes. -/
def openStart : SysM ω Unit := do
  if (← getOpts).nochdir then
    pure ()
  else
    match ← callOpen E (.str [dot]) ⟨false, false⟩ with
    | none => Traced.modify fun s => { s with opts.nochdir := true, rfd := -1 }
    | some fd => Traced.modify fun s => { s with rfd := fd }

end Open

section Sorting

variable (E : Env ω)

/-- `nitems + 40` as an `int`, where a sum past `INT_MAX` wraps round, and then as a `size_t`. -/
def arrayMembers (nitems : ℕ) : ℕ :=
  if nitems + 40 < 2 ^ 31 then nitems + 40 else nitems + 40 + (2 ^ 64 - 2 ^ 32)

/-- Make room for `nitems` pointers in `fts_array`; false when there is none. -/
def growArray (nitems : ℕ) : SysM ω Bool := do
  let s ← getSys
  if s.nitems < nitems then
    if ← callReallocArray E (arrayMembers nitems) then
      Traced.modify fun s =>
        { s with array := some (arrayMembers nitems), nitems := ftsLengthCap (nitems + 40) }
      pure true
    else
      Traced.modify fun s => { s with array := none, nitems := 0 }
      pure false
  else
    pure true

/-- `xs` in the order `qsort` gives them under `cmp`. -/
def sortedBy {α : Type} (q : Qsort) (cmp : Compar) (view : α → Seen) (xs : List α) : List α :=
  (q.order xs.length fun i j =>
    match xs[i]?, xs[j]? with
    | some a, some b => cmp (view a) (view b)
    | _, _ => 0).filterMap fun i => xs[i]?

end Sorting

end MuslBsd.Fts
