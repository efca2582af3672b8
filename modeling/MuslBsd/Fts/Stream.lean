import MuslBsd.Fts.System

/-! The functions of `fts.c` over a heap of `FTSENT` nodes. Every dereference is checked:
NULL, freed nodes and pointers into an old path buffer are faults. -/
namespace MuslBsd.Fts
open MuslBsd.Support

variable {ω : Type}

/-- A stream: the system, the nodes that are allocated, `fts_cur` and `fts_child`. -/
structure St (ω : Type) where
  sys : Sys ω
  heap : NodeId → Option Ftsent
  cur : Option NodeId
  child : Option NodeId

abbrev M (ω α : Type) : Type := Faulting Fault (St ω) Act α

def onSys {α : Type} (m : SysM ω α) : M ω α :=
  Faulting.zoom St.sys (fun y s => { s with sys := y }) m

section Nodes

def getCur : M ω (Option NodeId) := Faulting.gets St.cur
def setCur (a : Option NodeId) : M ω Unit := Faulting.modify fun s => { s with cur := a }
def getChild : M ω (Option NodeId) := Faulting.gets St.child
def setChild (a : Option NodeId) : M ω Unit := Faulting.modify fun s => { s with child := a }

/-- More steps than any list of nodes has. -/
def listFuel : M ω ℕ := Faulting.gets fun s => s.sys.next + 1

def deref : Option NodeId → M ω NodeId
  | none => Faulting.fault .null
  | some a => pure a

def load (a : NodeId) : M ω Ftsent := fun s =>
  match s.heap a with
  | some n => (.ok n, s, [])
  | none => (.error .freed, s, [])

def update (a : NodeId) (f : Ftsent → Ftsent) : M ω Unit := fun s =>
  match s.heap a with
  | some n => (.ok (), { s with heap := Function.update s.heap a (some (f n)) }, [])
  | none => (.error .freed, s, [])

def free (a : NodeId) : M ω Unit := fun s =>
  match s.heap a with
  | some _ => (.ok (), { s with heap := Function.update s.heap a none }, [])
  | none => (.error .freed, s, [])

def place (n : Ftsent) : M ω Unit :=
  Faulting.modify fun s => { s with heap := Function.update s.heap n.addr (some n) }

/-- `fts_lfree`. -/
def ftsLfree : ℕ → Option NodeId → M ω Unit
  | _, none => pure ()
  | 0, some _ => Faulting.fault .endless
  | k + 1, some a => do
    let n ← load a
    free a
    ftsLfree k n.link

/-- The string `fts_accpath` points to, as the system sees it. -/
def accArg (n : Ftsent) : M ω PathArg :=
  match n.accpath with
  | .null => pure .null
  | .wild => pure .wild
  | .buf b => do
    let s ← onSys getSys
    pure (if b = s.path.addr then .str s.path.cstr else .wild)
  | .name a => do
    let m ← load a
    pure (.str m.name)

/-- `n.fts_path` is about to be read: it must point into the buffer there is now. -/
def checkPath (n : Ftsent) : M ω Unit := do
  let s ← onSys getSys
  if n.path = s.path.addr then pure () else Faulting.fault .stale

end Nodes

section Functions

variable (E : Env ω)

/-- `fts_alloc`. -/
def ftsAlloc (name : CString) : M ω (Option NodeId) := do
  match ← onSys (allocNode E name) with
  | none => pure none
  | some n =>
    place n
    pure (some n.addr)

/-- The scan of `fts_stat` for an ancestor that is the directory `(dev, ino)`. -/
def findAncestor (dev ino : ℕ) : ℕ → Option NodeId → M ω (Option NodeId)
  | 0, _ => Faulting.fault .endless
  | k + 1, t => do
    let a ← deref t
    let n ← load a
    if n.level < rootLevel then pure none
    else if ino = n.ino ∧ dev = n.dev then pure (some a)
    else findAncestor dev ino k n.parent

/-- The nodes that scan ranges over. -/
def ancestors (heap : NodeId → Option Ftsent) : ℕ → Option NodeId → List Ftsent
  | 0, _ => []
  | _, none => []
  | k + 1, some a =>
    match heap a with
    | none => []
    | some n => if n.level < rootLevel then [] else n :: ancestors heap k n.parent

/-- The directory that makes `(dev, ino)` below `parent` a cycle, if there is one. -/
def findCycle (dev ino : ℕ) (parent : Option NodeId) : M ω (Option NodeId) := do
  let k ← listFuel
  match ← findAncestor dev ino k parent with
  | some t => pure (some t)
  | none => pure (cycleLookup (← onSys getSys).cycles dev ino)

/-- `fts_stat` on a directory that is not `.` or `..`. -/
def classify (a : NodeId) : M ω Info := do
  let p ← load a
  let found ← findCycle p.dev p.ino p.parent
  let info : Info := if found.isSome then .dc else .d
  update a fun n => { n with cycle := if found.isSome then found else n.cycle }
  let n ← load a
  let anc ← Faulting.gets fun s => ancestors s.heap (s.sys.next + 1) p.parent
  onSys (Traced.emit (.classifies n anc info))
  pure info

/-- `fts_stat`. -/
def ftsStat (a : NodeId) (follow : Bool) (dfd : Option Fd) : M ω Info := do
  let p ← load a
  let path ← (if dfd.isNone then accArg p else pure .null)
  let (r, q) ← onSys (statFile E p follow dfd path)
  update a fun _ => q
  match r with
  | .error i => pure i
  | .ok sb =>
    if sb.mode = .dir then
      update a fun n => { n with dev := sb.dev, ino := sb.ino, nlink := sb.nlink }
      if isDot p.name then pure .dot else classify a
    else
      pure sb.mode.info

/-- `ADJUST`: a pointer that is not the node's own name moves with the buffer, which is only right
for a pointer into it. -/
def adjust (base : ℕ) (n : Ftsent) : Ftsent :=
  { n with
    accpath := if n.accpath = .name n.addr then n.accpath
      else if n.accpath = .buf n.path then .buf base else .wild
    path := base }

/-- The first loop of `fts_padjust`, over `sp->fts_child`. -/
def adjustList (base : ℕ) : ℕ → Option NodeId → M ω Unit
  | _, none => pure ()
  | 0, some _ => Faulting.fault .endless
  | k + 1, some a => do
    let n ← load a
    update a (adjust base)
    adjustList base k n.link

/-- The second loop of `fts_padjust`: along the siblings, then up. -/
def adjustUp (base : ℕ) : ℕ → Option NodeId → M ω Unit
  | _, none => pure ()
  | 0, some _ => Faulting.fault .endless
  | k + 1, some a => do
    let n ← load a
    if n.level < rootLevel then pure ()
    else
      update a (adjust base)
      adjustUp base k (n.link <|> n.parent)

/-- `fts_padjust`. -/
def ftsPadjust (head : Option NodeId) : M ω Unit := do
  let s ← onSys getSys
  let k ← listFuel
  let c ← getChild
  adjustList s.path.addr k c
  adjustUp s.path.addr k head

/-- The nodes of a list, as `fts_sort` stores them into `fts_array`. -/
def listNodes : ℕ → Option NodeId → M ω (List Ftsent)
  | _, none => pure []
  | 0, some _ => Faulting.fault .endless
  | k + 1, some a => do
    let n ← load a
    let ns ← listNodes k n.link
    pure (n :: ns)

/-- The loop that links the sorted array up again. -/
def relinkNodes : List Ftsent → M ω Unit
  | [] => pure ()
  | [n] => update n.addr fun m => { m with link := none }
  | n :: m :: ns => do
    update n.addr fun k => { k with link := some m.addr }
    relinkNodes (m :: ns)

/-- `fts_sort`. -/
def ftsSort (cmp : Compar) (head : Option NodeId) (nitems : ℕ) : M ω (Option NodeId) := do
  if ← onSys (growArray E nitems) then
    let k ← listFuel
    let ns ← listNodes k head
    let sorted := sortedBy E.qsort cmp Ftsent.seen ns
    relinkNodes sorted
    pure (sorted.head?.map Ftsent.addr)
  else
    pure head

/-- Sort a list of `nitems` nodes if there is a comparison function and something to sort. -/
def sortIfAsked (head : Option NodeId) (nitems : ℕ) : M ω (Option NodeId) := do
  match (← onSys getSys).compar with
  | none => pure head
  | some cmp => if 1 < nitems then ftsSort E cmp head nitems else pure head

/-- What stays fixed while `fts_build` reads a directory. -/
structure BuildCtx where
  cur : NodeId
  fd : Fd
  len : ℕ
  level : ℤ
  cderrno : Errno
  nostat : Bool

/-- What changes while `fts_build` reads a directory. -/
structure BuildSt where
  head : Option NodeId
  tail : Option NodeId
  nitems : ℕ
  nlinks : ℤ
  maxlen : ℕ

/-- `mem_fail`, and the same steps after a failed `readdir_fn`. -/
def buildFail (C : BuildCtx) (head : Option NodeId) : M ω Unit := do
  let saved ← onSys getErrno
  let k ← listFuel
  ftsLfree k head
  onSys (callClosedir E C.fd)
  update C.cur fun n => { n with info := .err }
  onSys setStop
  onSys (setErrno saved)

/-- Make the path buffer hold a name of `dnamlen` characters after `len`; false when it cannot. -/
def growPath (C : BuildCtx) (b : BuildSt) (dnamlen : ℕ) : M ω (Bool × BuildSt) := do
  if b.maxlen ≤ dnamlen then
    let old ← onSys getSys
    if ← onSys (ftsPalloc E (dnamlen + C.len + 1)) then
      pure (false, b)
    else
      let new ← onSys getSys
      (if old.path.addr ≠ new.path.addr then ftsPadjust (b.head <|> some C.cur) else pure ())
      pure (true, { b with maxlen := roomLeft new C.len })
  else
    pure (true, b)

/-- Classify the new entry `p` and give it its `fts_accpath`. -/
def buildInfo (C : BuildCtx) (b : BuildSt) (p : NodeId) (type : DType) : M ω BuildSt := do
  let o ← onSys getOpts
  if C.cderrno ≠ 0 then
    let c ← load C.cur
    update p fun n =>
      { n with
        info := if b.nlinks ≠ 0 then .ns else .nsok
        errno := C.cderrno
        accpath := c.accpath }
    pure b
  else if b.nlinks = 0 ∨ (C.nostat ∧ type ≠ .dir ∧ type ≠ .unknown) then
    update p fun n =>
      { n with
        info := .nsok
        accpath := if o.nochdir then .buf n.path else .name n.addr }
    pure b
  else
    let info ← (if o.nochdir then do
        update p fun n => { n with accpath := .buf n.path }
        let n ← load p
        onSys (storePath C.len ((n.name ++ [0]).take (n.namelen + 1)))
        ftsStat E p false (some C.fd)
      else do
        update p fun n => { n with accpath := .name n.addr }
        ftsStat E p false none)
    update p fun n => { n with info := info }
    pure { b with nlinks := if 0 < b.nlinks ∧ info.isSubdir then b.nlinks - 1 else b.nlinks }

/-- Append `p` to the list that is being built. -/
def buildLink (b : BuildSt) (p : NodeId) : M ω BuildSt := do
  update p fun n => { n with link := none }
  match b.tail with
  | none => pure { b with head := some p, tail := some p, nitems := b.nitems + 1 }
  | some t =>
    update t fun n => { n with link := some p }
    pure { b with tail := some p, nitems := b.nitems + 1 }

/-- The loop of `fts_build` over the entries of the directory; `none` after `mem_fail`. -/
def buildLoop (C : BuildCtx) : List Dirent → BuildSt → M ω (Option BuildSt)
  | [], b => pure (some b)
  | dp :: dps, b => do
    if !(← onSys getOpts).seedot && isDot dp.name then
      buildLoop C dps b
    else
      match ← ftsAlloc E dp.name with
      | none =>
        buildFail E C b.head
        pure none
      | some p =>
        let (fits, b) ← growPath E C b dp.name.length
        if !fits then
          free p
          buildFail E C b.head
          pure none
        else
          let s ← onSys getSys
          update p fun n =>
            { n with path := s.path.addr, level := C.level, parent := some C.cur }
          let pathlen := C.len + dp.name.length
          if pathlen < C.len ∨ ftsLengthMax < pathlen then
            free p
            onSys (setErrno ENAMETOOLONG)
            buildFail E C b.head
            pure none
          else
            update p fun n =>
              { n with
                pathlen := ftsLengthCap pathlen
                isw := n.isw || (s.opts.whiteout && dp.type == .wht) }
            let b ← buildInfo E C b p dp.type
            let b ← buildLink b p
            buildLoop C dps b

/-- `fts_safe_changedir(sp, p->fts_parent, -1, "..")`; true when it fails. -/
def changeToParent (p : Ftsent) : M ω Bool := do
  let q ← deref p.parent
  let n ← load q
  onSys (ftsSafeChangedir E n none (.str [dot, dot]))

/-- Back from the directory `c` that `fts_children` has read; true when it fails. -/
def buildLeave (c : Ftsent) : M ω Bool := do
  if c.level = rootLevel then
    let s ← onSys getSys
    onSys (callFchdir E s.rfd)
  else
    changeToParent E c

/-- The end of `fts_build`: sort, and go back if `fts_children` asked for the list. -/
def buildReturn (type : BuildType) (cur : NodeId) (descend : Bool) (head : Option NodeId)
    (nitems : ℕ) : M ω (Option NodeId) := do
  if nitems = 0 then
    (if type = .bread then update cur fun n => { n with info := .dp } else pure ())
    pure none
  else
    let head ← sortIfAsked E head nitems
    if descend ∧ (type = .bchild ∨ nitems = 0) then
      let c ← load cur
      if ← buildLeave E c then
        update cur fun n => { n with info := .err }
        onSys setStop
        pure none
      else
        pure head
    else
      pure head

/-- `fts_build` once the directory of `c` is open: read it through `fd`. -/
def buildRead (type : BuildType) (c : Ftsent) (fd : Fd) (entries : List Dirent)
    (endErrno : Errno) : M ω (Option NodeId) := do
  let o ← onSys getOpts
  let (nlinks, nostat) := linkPlan o type c
  let enter := nlinks ≠ 0 ∨ type = .bread
  let failed ← (if enter then onSys (ftsSafeChangedir E c (some fd) .null) else pure false)
  let cderrno ← (if failed then onSys getErrno else pure 0)
  (if failed then update c.addr fun n => { n with dontchdir := true } else pure ())
  checkPath c
  let len := dirLength (← onSys getSys) c
  (if o.nochdir then onSys (storePath len [slash, 0]) else pure ())
  let C : BuildCtx := ⟨c.addr, fd, len + 1, c.level + 1, cderrno, nostat⟩
  let maxlen := roomLeft (← onSys getSys) C.len
  onSys (setErrno 0)
  match ← buildLoop E C entries ⟨none, none, 0, nlinks, maxlen⟩ with
  | none => pure none
  | some b =>
    (if endErrno ≠ 0 then onSys (setErrno endErrno) else pure ())
    if (← onSys getErrno) ≠ 0 then
      buildFail E C b.head
      pure none
    else
      onSys (callClosedir E fd)
      buildReturn E type c.addr (enter ∧ !failed) b.head b.nitems

/-- `fts_build`. -/
def ftsBuild (type : BuildType) : M ω (Option NodeId) := do
  let cur ← deref (← getCur)
  let c ← load cur
  if SHRT_MAX ≤ c.level then
    onSys (setErrno ENAMETOOLONG)
    update cur fun n => { n with info := .err }
    onSys setStop
    pure none
  else
    let path ← accArg c
    match ← onSys (openDir E type c path) with
    | .error (i, e) =>
      update cur fun n => { n with info := i, errno := e }
      pure none
    | .ok (fd, entries, endErrno) => buildRead E type c fd entries endErrno

/-- `FTS_FOLLOW`: stat the target of `p` and, for a directory in chdir mode, keep a descriptor of
the directory that holds the link. -/
def followLink (p : NodeId) : M ω Unit := do
  let info ← ftsStat E p true none
  update p fun n => { n with info := info }
  let n ← load p
  let n' ← onSys (openSymfd E n)
  update p fun _ => n'

/-- The label `name` of `fts_read`: `p` becomes the current node. -/
def readName (p : NodeId) : M ω (Option NodeId) := do
  let n ← load p
  let q ← deref n.parent
  let d ← load q
  checkPath d
  onSys (storeName d n)
  setCur (some p)
  pure (some p)

/-- The way up from the children of `p`; true when it fails. -/
def ascend (p : Ftsent) : M ω Bool := do
  if p.level = rootLevel then
    onSys (backToStart E)
  else if p.symfollow then
    onSys (leaveSymfd E p)
  else if p.dontchdir then
    pure false
  else
    changeToParent E p

/-- `fts_read` when the list of `tmp` is done: up to its parent. -/
def readUp (tmp : NodeId) : M ω (Option NodeId) := do
  let t ← load tmp
  onSys (ftsCyclePop t)
  setCur none
  free tmp
  match t.parent with
  | none =>
    onSys (setErrno EFAULT)
    pure none
  | some p =>
    let n ← load p
    onSys (storePath n.pathlen [0])
    if n.level = rootParentLevel then
      free p
      onSys (setErrno 0)
      setCur none
      pure none
    else if ← ascend E n then
      onSys setStop
      setCur (some p)
      pure none
    else
      update p fun n => { n with info := if n.errno ≠ 0 then .err else .dp }
      setCur (some p)
      pure (some p)

/-- `fts_read` on the root `p` after another root. -/
def readRoot (p : NodeId) : M ω (Option NodeId) := do
  if ← onSys (backToStart E) then
    onSys setStop
    setCur (some p)
    pure none
  else
    let n ← load p
    let n' ← onSys (loadRoot n)
    update p fun _ => n'
    setCur (some p)
    pure (some p)

/-- The label `next` of `fts_read`: leave `tmp` for its next sibling, or for its parent. -/
def readNext : ℕ → NodeId → M ω (Option NodeId)
  | 0, _ => Faulting.fault .endless
  | k + 1, tmp => do
    let t ← load tmp
    match t.link with
    | none => readUp E tmp
    | some p =>
      onSys (ftsCyclePop t)
      setCur none
      free tmp
      let n ← load p
      if n.level = rootLevel then
        readRoot E p
      else if n.instr = .skip then
        readNext k p
      else if n.instr = .follow then
        followLink E p
        update p fun n => { n with instr := .noinstr }
        readName p
      else
        readName p

/-- `p = sp->fts_child; sp->fts_child = NULL; goto name`. -/
def readChild : M ω (Option NodeId) := do
  let p ← deref (← getChild)
  setChild none
  readName p

/-- `if (sp->fts_child) { fts_lfree(sp->fts_child); sp->fts_child = NULL; }`. -/
def dropChild : M ω Unit := do
  let k ← listFuel
  ftsLfree k (← getChild)
  setChild none

/-- The loop over a pre-read list whose directory could not be entered. -/
def pathFromParent : ℕ → Option NodeId → M ω Unit
  | _, none => pure ()
  | 0, some _ => Faulting.fault .endless
  | k + 1, some a => do
    let n ← load a
    let q ← deref n.parent
    let d ← load q
    update a fun n => { n with accpath := d.accpath }
    pathFromParent k n.link

/-- `fts_read` on a directory `p` that has to be read first. -/
def readFresh (p : NodeId) : M ω (Option NodeId) := do
  let c ← ftsBuild E .bread
  setChild c
  match c with
  | none => if (← onSys getOpts).stop then pure none else pure (some p)
  | some _ => readChild

/-- `fts_read` on a directory `p` that `fts_children` has read. -/
def readPending (p : NodeId) : M ω (Option NodeId) := do
  let n ← load p
  let path ← accArg n
  if ← onSys (ftsSafeChangedir E n none path) then
    let e ← onSys getErrno
    update p fun n => { n with errno := e, dontchdir := true }
    let k ← listFuel
    pathFromParent k (← getChild)
    readChild
  else
    readChild

/-- `fts_read` on a directory `p` in pre-order. -/
def readDir (p : NodeId) (instr : Instr) : M ω (Option NodeId) := do
  let n ← load p
  let s ← onSys getSys
  if instr = .skip ∨ (s.opts.xdev ∧ n.dev ≠ s.dev) then
    onSys (closeSymfd E n)
    dropChild
    onSys (ftsCyclePop n)
    update p fun n => { n with info := .dp }
    onSys (Traced.emit (.skips p))
    pure (some p)
  else if ← onSys (ftsCyclePush E n) then
    onSys setStop
    let e ← onSys getErrno
    update p fun n => { n with errno := if e ≠ 0 then e else ENOMEM, info := .err }
    pure (some p)
  else if (← getChild).isSome then
    if s.opts.nameonly then
      onSys (setNameonly false)
      dropChild
      readFresh E p
    else
      readPending E p
  else
    readFresh E p

/-- `fts_read`. -/
def ftsRead : M ω (Option NodeId) := do
  match ← getCur with
  | none => pure none
  | some p =>
    if (← onSys getOpts).stop then
      pure none
    else
      let n ← load p
      update p fun n => { n with instr := .noinstr }
      if n.instr = .again then
        let info ← ftsStat E p false none
        update p fun n => { n with info := info }
        pure (some p)
      else if n.instr = .follow ∧ (n.info = .sl ∨ n.info = .slnone) then
        followLink E p
        pure (some p)
      else if n.info = .d then
        readDir E p n.instr
      else
        let k ← listFuel
        readNext E k p

/-- `fts_set`; true when it fails. -/
def ftsSet (p : NodeId) (instr : ℤ) : M ω Bool := do
  match Instr.ofInt? instr with
  | none =>
    onSys (setErrno EINVAL)
    pure true
  | some i =>
    update p fun n => { n with instr := i }
    pure false

/-- `cur->fts_accpath[0] != '/'`. -/
def accIsRelative (c : Ftsent) : M ω Bool := do
  match ← accArg c with
  | .null => Faulting.fault .null
  | .wild => Faulting.fault .wild
  | .str s => pure (s.head? != some slash)

/-- `fts_children` on the directory `c` in pre-order. -/
def childrenDir (c : Ftsent) (type : BuildType) : M ω (Option NodeId) := do
  let o ← onSys getOpts
  let relative ← (if c.level = rootLevel then accIsRelative c else pure false)
  if relative && !o.nochdir then
    match ← onSys (callOpen E (.str [dot]) ⟨false, false⟩) with
    | none => pure none
    | some cwd =>
      let k ← ftsBuild E type
      setChild k
      let failed ← onSys (callFchdir E cwd)
      onSys (callClose E cwd)
      pure (if failed then none else k)
  else
    let k ← ftsBuild E type
    setChild k
    pure k

/-- `fts_children`. -/
def ftsChildren (instr : ℤ) : M ω (Option NodeId) := do
  if instr ≠ 0 ∧ instr ≠ FTS_NAMEONLY then
    onSys (setErrno EINVAL)
    pure none
  else
    match ← getCur with
    | none => pure none
    | some cur =>
      if (← onSys getOpts).stop then
        pure none
      else
        let c ← load cur
        if c.info = .init then
          pure c.link
        else if c.info ≠ .d then
          onSys (setErrno 0)
          pure none
        else
          let k ← listFuel
          ftsLfree k (← getChild)
          (if instr = FTS_NAMEONLY then onSys (setNameonly true) else pure ())
          if ← onSys (ftsCyclePush E c) then
            onSys (setErrno ENOMEM)
            pure none
          else
            childrenDir E c (if instr = FTS_NAMEONLY then .bnames else .bchild)

/-- The loop of `fts_close`: free the current node, its later siblings and everything above. -/
def closeUp : ℕ → Option NodeId → M ω Unit
  | 0, _ => Faulting.fault .endless
  | k + 1, p => do
    let a ← deref p
    let n ← load a
    free a
    (if rootLevel ≤ n.level then closeUp k (n.link <|> n.parent) else pure ())

/-- `fts_close`; true when it fails. -/
def ftsClose : M ω Bool := do
  (match ← getCur with
  | none => pure ()
  | some a => do
    let n ← load a
    onSys (closeSymfd E n)
    let k ← listFuel
    closeUp k (some a))
  let k ← listFuel
  ftsLfree k (← getChild)
  onSys cycleFree
  onSys (closeStart E)

/-- What `fts_open` frees before it gives up. -/
def openFail (root : Option NodeId) (parent : NodeId) : M ω Unit := do
  let k ← listFuel
  ftsLfree k root
  free parent
  onSys cycleFree

/-- The loop of `fts_open` over `argv`: the list of roots and their number, or `none` once it has
failed. -/
def openRoots (compar : Option Compar) (parent : NodeId) :
    List CString → Option NodeId → Option NodeId → ℕ → M ω (Option (Option NodeId × ℕ))
  | [], root, _, nitems => pure (some (root, nitems))
  | arg :: argv, root, prev, nitems => do
    if arg.length = 0 then
      onSys (setErrno ENOENT)
      openFail root parent
      pure none
    else
      match ← ftsAlloc E arg with
      | none =>
        openFail root parent
        pure none
      | some p =>
        update p fun n =>
          { n with level := rootLevel, parent := some parent, accpath := .name n.addr }
        let s ← onSys getSys
        let info ← ftsStat E p s.opts.comfollow none
        update p fun n => { n with info := if info = .dot then .d else info }
        if compar.isSome then
          update p fun n => { n with link := root }
          openRoots compar parent argv (some p) none (nitems + 1)
        else
          update p fun n => { n with link := none }
          match prev with
          | none => openRoots compar parent argv (some p) (some p) (nitems + 1)
          | some q =>
            update q fun n => { n with link := some p }
            openRoots compar parent argv root (some p) (nitems + 1)

/-- The end of `fts_open`: the node that stands before the roots, and the starting directory. -/
def openStream (parent : NodeId) (root : Option NodeId) (nitems : ℕ) : M ω Bool := do
  match ← ftsAlloc E [] with
  | none =>
    openFail root parent
    pure false
  | some cur =>
    update cur fun n => { n with link := root, info := .init }
    setCur (some cur)
    onSys (openStart E)
    (if nitems = 0 then free parent else pure ())
    pure true

/-- `fts_open`; true when there is a stream, which then is the state. -/
def ftsOpen (argv : Option (List CString)) (options : ℕ) (compar : Option Compar) : M ω Bool := do
  match argv with
  | none =>
    onSys (setErrno EINVAL)
    pure false
  | some argv =>
    if optionMask < options then
      onSys (setErrno EINVAL)
      pure false
    else if ← onSys (openSys E (Options.ofBits options).normalize compar argv) then
      match ← ftsAlloc E [] with
      | none =>
        onSys cycleFree
        pure false
      | some parent =>
        update parent fun n => { n with level := rootParentLevel }
        match ← openRoots E compar parent argv none none 0 with
        | none => pure false
        | some (root, nitems) => openStream E parent (← sortIfAsked E root nitems) nitems
    else
      pure false

/-- The state `fts_open` starts from: nothing allocated. -/
def St.start (w : ω) : St ω where
  sys :=
    { world := w, errno := 0, opts := Options.ofBits 0, compar := none, dev := 0,
      path := ⟨0, [], 0⟩, pathlen := 0, rfd := 0, array := none, nitems := 0,
      cycles := ⟨none, 0⟩, next := 0 }
  heap := fun _ => none
  cur := none
  child := none

end Functions

end MuslBsd.Fts
