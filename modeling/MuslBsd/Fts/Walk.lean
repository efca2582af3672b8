import MuslBsd.Fts.Stream

/-! The traversal without pointers: the current path is a list of frames, each a node with the
siblings still to come, and the functions of `fts.c` are functions on such lists. -/
namespace MuslBsd.Fts
open MuslBsd.Support

variable {ω : Type}

/-- A node on the current path and its later siblings. -/
structure Frame where
  node : Ftsent
  rest : List Ftsent

/-- The nodes of a stream: the current path, innermost first, the parent of the roots, the
pending list of `fts_children`, and nodes that no pointer leads to any more. `freed` is the
value of `fts_child` where that points to a list that was released. -/
structure Walk where
  frames : List Frame
  root : Option Ftsent
  child : List Ftsent
  freed : Option NodeId
  leaked : List Ftsent

def Frame.nodes (f : Frame) : List Ftsent := f.node :: f.rest

def Frame.map (g : Ftsent → Ftsent) (f : Frame) : Frame := ⟨g f.node, f.rest.map g⟩

/-- The nodes on the path above a position. -/
def pathNodes (fs : List Frame) : List Ftsent := fs.map Frame.node

theorem pathNodes_map (g : Ftsent → Ftsent) (fs : List Frame) :
    pathNodes (fs.map (Frame.map g)) = (pathNodes fs).map g := by
  simp only [pathNodes, List.map_map]
  rfl

def headAddr (l : List Ftsent) : Option NodeId := l.head?.map Ftsent.addr

/-- Link the nodes of a list up in order. -/
def relink : List Ftsent → List Ftsent
  | [] => []
  | n :: ns => { n with link := headAddr ns } :: relink ns

/-- `accArg` with the nodes at hand: `p` and the path above it. -/
def accArgOf (s : Sys ω) (p : Ftsent) (anc : List Ftsent) : PathArg :=
  match p.accpath with
  | .null => .null
  | .wild => .wild
  | .buf b => if b = s.path.addr then .str s.path.cstr else .wild
  | .name a =>
    match (p :: anc).find? (·.addr = a) with
    | some m => .str m.name
    | none => .wild

/-- The nearest of the nodes `anc` that is the directory `(dev, ino)`. -/
def sameDir (dev ino : ℕ) (anc : List Ftsent) : Option Ftsent :=
  anc.find? fun t => ino = t.ino ∧ dev = t.dev

/-- `findCycle` with the ancestors at hand. -/
def cycleOf (cs : CycleState) (dev ino : ℕ) (anc : List Ftsent) : Option NodeId :=
  match sameDir dev ino anc with
  | some t => some t.addr
  | none => cycleLookup cs dev ino

/-- What the pointers of `fts.c` would run into. -/
def crashIf (b : Bool) : SysM ω Unit := if b then Traced.emit .crashes else pure ()

namespace Walk

variable (E : Env ω)

/-- `classify`: the result and the node. -/
def classify (p : Ftsent) (anc : List Ftsent) : SysM ω (Info × Ftsent) := do
  let s ← getSys
  let found := cycleOf s.cycles p.dev p.ino anc
  let info : Info := if found.isSome then .dc else .d
  let p := { p with cycle := if found.isSome then found else p.cycle }
  Traced.emit (.classifies p anc info)
  pure (info, p)

/-- `ftsStat`: the result and the node. -/
def stat (p : Ftsent) (anc : List Ftsent) (follow : Bool) (dfd : Option Fd) :
    SysM ω (Info × Ftsent) := do
  let s ← getSys
  let (r, q) ← statFile E p follow dfd (if dfd.isNone then accArgOf s p anc else .null)
  match r with
  | .error i => pure (i, q)
  | .ok sb =>
    if sb.mode = .dir then
      let q := { q with dev := sb.dev, ino := sb.ino, nlink := sb.nlink }
      if isDot p.name then pure (.dot, q) else classify q anc
    else
      pure (sb.mode.info, q)

/-- What `fts_build` has while it reads a directory: the path, the list so far and the counters. -/
structure Acc where
  frames : List Frame
  head : List Ftsent
  nlinks : ℤ
  maxlen : ℕ

def mapCur (g : Ftsent → Ftsent) : List Frame → List Frame
  | [] => []
  | f :: up => ⟨g f.node, f.rest⟩ :: up

/-- `buildFail`. -/
def buildFail (fd : Fd) : SysM ω Unit := do
  let saved ← getErrno
  callClosedir E fd
  setStop
  setErrno saved

/-- The buffer has moved to `base`, where there is room for `maxlen` more characters. -/
def Acc.move (base maxlen : ℕ) (a : Acc) : Acc where
  frames := a.frames.map (Frame.map (adjust base))
  head := a.head.map (adjust base)
  nlinks := a.nlinks
  maxlen := maxlen

/-- `growPath`; `fts_padjust` goes through `fts_child` first. -/
def growPath (len : ℕ) (freed : Option NodeId) (a : Acc) (dnamlen : ℕ) :
    SysM ω (Bool × Acc) := do
  if a.maxlen ≤ dnamlen then
    let old ← getSys
    if ← ftsPalloc E (dnamlen + len + 1) then
      pure (false, a)
    else
      let new ← getSys
      if old.path.addr ≠ new.path.addr then
        crashIf freed.isSome
        pure (true, a.move new.path.addr (roomLeft new len))
      else
        pure (true, { a with maxlen := roomLeft new len })
  else
    pure (true, a)

/-- `buildInfo`: the entry and the new `nlinks`. -/
def buildInfo (C : BuildCtx) (fs : List Frame) (nlinks : ℤ) (p : Ftsent) (type : DType) :
    SysM ω (Ftsent × ℤ) := do
  let o ← getOpts
  if C.cderrno ≠ 0 then
    pure ({ p with
      info := if nlinks ≠ 0 then .ns else .nsok
      errno := C.cderrno
      accpath := match fs with
        | [] => .null
        | f :: _ => f.node.accpath }, nlinks)
  else if nlinks = 0 ∨ (C.nostat ∧ type ≠ .dir ∧ type ≠ .unknown) then
    pure ({ p with
      info := .nsok
      accpath := if o.nochdir then .buf p.path else .name p.addr }, nlinks)
  else
    let (info, p) ← (if o.nochdir then do
        storePath C.len ((p.name ++ [0]).take (p.namelen + 1))
        stat E { p with accpath := .buf p.path } (pathNodes fs) false (some C.fd)
      else
        stat E { p with accpath := .name p.addr } (pathNodes fs) false none)
    pure ({ p with info := info },
      if 0 < nlinks ∧ info.isSubdir then nlinks - 1 else nlinks)

/-- `buildLoop`; false after a failure. -/
def buildLoop (C : BuildCtx) (freed : Option NodeId) : List Dirent → Acc → SysM ω (Bool × Acc)
  | [], a => pure (true, a)
  | dp :: dps, a => do
    if !(← getOpts).seedot && isDot dp.name then
      buildLoop C freed dps a
    else
      match ← allocNode E dp.name with
      | none =>
        buildFail E C.fd
        pure (false, a)
      | some p =>
        let (fits, a) ← growPath E C.len freed a dp.name.length
        if !fits then
          buildFail E C.fd
          pure (false, a)
        else
          let s ← getSys
          let p := { p with path := s.path.addr, level := C.level, parent := some C.cur }
          let pathlen := C.len + dp.name.length
          if pathlen < C.len ∨ ftsLengthMax < pathlen then
            setErrno ENAMETOOLONG
            buildFail E C.fd
            pure (false, a)
          else
            let p :=
              { p with
                pathlen := ftsLengthCap pathlen
                isw := p.isw || (s.opts.whiteout && dp.type == .wht) }
            let (p, nlinks) ← buildInfo E C a.frames a.nlinks p dp.type
            buildLoop C freed dps { a with head := relink (a.head ++ [p]), nlinks := nlinks }

/-- `ftsSort`. -/
def sort (cmp : Compar) (head : List Ftsent) (nitems : ℕ) : SysM ω (List Ftsent) := do
  if ← growArray E nitems then
    pure (relink (sortedBy E.qsort cmp Ftsent.seen head))
  else
    pure head

/-- `sortIfAsked`. -/
def sortIfAsked (head : List Ftsent) (nitems : ℕ) : SysM ω (List Ftsent) := do
  match (← getSys).compar with
  | none => pure head
  | some cmp => if 1 < nitems then sort E cmp head nitems else pure head

/-- `changeToParent` of a node with the path `up` above it. -/
def changeToParent (up : List Frame) : SysM ω Bool :=
  match up with
  | [] => pure false
  | g :: _ => ftsSafeChangedir E g.node none (.str [dot, dot])

/-- `buildLeave`. -/
def buildLeave (c : Ftsent) (up : List Frame) : SysM ω Bool := do
  if c.level = rootLevel then
    let s ← getSys
    callFchdir E s.rfd
  else
    changeToParent E up

/-- `buildReturn`: the list and the nodes of the stream. A list that cannot be returned because
there is no way back is left behind. -/
def buildReturn (type : BuildType) (z : Walk) (c : Ftsent) (up : List Frame) (descend : Bool)
    (head : List Ftsent) : SysM ω (List Ftsent × Walk) := do
  if head.length = 0 then
    pure ([], if type = .bread then
      { z with frames := mapCur (fun n => { n with info := .dp }) z.frames } else z)
  else
    let head ← sortIfAsked E head head.length
    if descend ∧ (type = .bchild ∨ head.length = 0) then
      if ← buildLeave E c up then
        setStop
        pure ([], { z with
          frames := mapCur (fun n => { n with info := .err }) z.frames
          leaked := z.leaked ++ head })
      else
        pure (head, z)
    else
      pure (head, z)

/-- `buildRead`: the list and the nodes of the stream. -/
def buildRead (type : BuildType) (z : Walk) (c : Ftsent) (rest : List Ftsent) (up : List Frame)
    (fd : Fd) (entries : List Dirent) (endErrno : Errno) : SysM ω (List Ftsent × Walk) := do
  let o ← getOpts
  let (nlinks, nostat) := linkPlan o type c
  let enter := nlinks ≠ 0 ∨ type = .bread
  let failed ← (if enter then ftsSafeChangedir E c (some fd) .null else pure false)
  let cderrno ← (if failed then getErrno else pure 0)
  let len := dirLength (← getSys) c
  (if o.nochdir then storePath len [slash, 0] else pure ())
  let C : BuildCtx := ⟨c.addr, fd, len + 1, c.level + 1, cderrno, nostat⟩
  let maxlen := roomLeft (← getSys) C.len
  setErrno 0
  let c' := if failed then { c with dontchdir := true } else c
  let (ok, a) ← buildLoop E C z.freed entries ⟨⟨c', rest⟩ :: up, [], nlinks, maxlen⟩
  let z := { z with frames := a.frames }
  let broken := { z with frames := mapCur (fun n => { n with info := .err }) z.frames }
  if !ok then
    pure ([], broken)
  else
    (if endErrno ≠ 0 then setErrno endErrno else pure ())
    if (← getErrno) ≠ 0 then
      buildFail E C.fd
      pure ([], broken)
    else
      callClosedir E fd
      buildReturn E type z c a.frames.tail (enter ∧ !failed) a.head

/-- `ftsBuild`: the list and the nodes of the stream. -/
def build (type : BuildType) (z : Walk) : SysM ω (List Ftsent × Walk) := do
  match z.frames with
  | [] => pure ([], z)
  | ⟨c, rest⟩ :: up =>
    if SHRT_MAX ≤ c.level then
      setErrno ENAMETOOLONG
      setStop
      pure ([], { z with frames := ⟨{ c with info := .err }, rest⟩ :: up })
    else
      let s ← getSys
      match ← openDir E type c (accArgOf s c (pathNodes up)) with
      | .error (i, e) =>
        pure ([], { z with frames := ⟨{ c with info := i, errno := e }, rest⟩ :: up })
      | .ok (fd, entries, endErrno) => buildRead E type z c rest up fd entries endErrno

/-- `followLink`. -/
def followLink (p : Ftsent) (anc : List Ftsent) : SysM ω Ftsent := do
  let (info, p) ← stat E p anc true none
  openSymfd E { p with info := info }

/-- `readName`: `p` with the siblings `rest` becomes the innermost frame. -/
def readName (z : Walk) (p : Ftsent) (rest : List Ftsent) (up : List Frame) :
    SysM ω (Option NodeId × Walk) := do
  match up with
  | [] => pure ()
  | f :: _ => storeName f.node p
  pure (some p.addr, { z with frames := ⟨p, rest⟩ :: up })

/-- `ascend`, with the path `up` above `p`. -/
def ascend (p : Ftsent) (up : List Frame) : SysM ω Bool := do
  if p.level = rootLevel then
    backToStart E
  else if p.symfollow then
    leaveSymfd E p
  else if p.dontchdir then
    pure false
  else
    changeToParent E up

/-- `readUp`. -/
def readUp (z : Walk) (tmp : Ftsent) (up : List Frame) : SysM ω (Option NodeId × Walk) := do
  ftsCyclePop tmp
  match up with
  | [] =>
    match z.root with
    | none =>
      setErrno EFAULT
      pure (none, { z with frames := [] })
    | some r =>
      storePath r.pathlen [0]
      setErrno 0
      pure (none, { z with frames := [], root := none })
  | ⟨p, prest⟩ :: up =>
    storePath p.pathlen [0]
    if ← ascend E p up then
      setStop
      pure (none, { z with frames := ⟨p, prest⟩ :: up })
    else
      pure (some p.addr, { z with
        frames := ⟨{ p with info := if p.errno ≠ 0 then .err else .dp }, prest⟩ :: up })

/-- `readRoot`. -/
def readRoot (z : Walk) (p : Ftsent) (rest : List Ftsent) : SysM ω (Option NodeId × Walk) := do
  if ← backToStart E then
    setStop
    pure (none, { z with frames := [⟨p, rest⟩] })
  else
    let p ← loadRoot p
    pure (some p.addr, { z with frames := [⟨p, rest⟩] })

/-- `readNext`. -/
def readNext (z : Walk) (tmp : Ftsent) (up : List Frame) :
    List Ftsent → SysM ω (Option NodeId × Walk)
  | [] => readUp E z tmp up
  | p :: rest => do
    ftsCyclePop tmp
    if p.level = rootLevel then
      readRoot E z p rest
    else if p.instr = .skip then
      readNext z p up rest
    else if p.instr = .follow then
      let p ← followLink E p (pathNodes up)
      readName z { p with instr := .noinstr } rest up
    else
      readName z p rest up

/-- `readFresh`. -/
def readFresh (z : Walk) (p : Ftsent) : SysM ω (Option NodeId × Walk) := do
  let (kids, z) ← build E .bread z
  match kids with
  | [] => if (← getOpts).stop then pure (none, z) else pure (some p.addr, z)
  | k :: ks => readName z k ks z.frames

/-- `readPending`; a list that has outlived its directory has no parent left to ask. -/
def readPending (z : Walk) (p : Ftsent) (rest : List Ftsent) (up : List Frame) :
    SysM ω (Option NodeId × Walk) := do
  let s ← getSys
  let failed ← ftsSafeChangedir E p none (accArgOf s p (pathNodes up))
  let e ← getErrno
  let p := if failed then { p with errno := e, dontchdir := true } else p
  match z.child with
  | [] =>
    crashIf true
    pure (none, z)
  | k :: ks =>
    crashIf (k.parent ≠ some p.addr)
    let move := fun k : Ftsent => if failed then { k with accpath := p.accpath } else k
    readName { z with child := [] } (move k) (ks.map move) (⟨p, rest⟩ :: up)

/-- `readDir`. -/
def readDir (z : Walk) (p : Ftsent) (rest : List Ftsent) (up : List Frame) (instr : Instr) :
    SysM ω (Option NodeId × Walk) := do
  let s ← getSys
  if instr = .skip ∨ (s.opts.xdev ∧ p.dev ≠ s.dev) then
    closeSymfd E p
    crashIf z.freed.isSome
    ftsCyclePop p
    Traced.emit (.skips p.addr)
    pure (some p.addr,
      { z with frames := ⟨{ p with info := .dp }, rest⟩ :: up, child := [], freed := none })
  else if ← ftsCyclePush E p then
    setStop
    let e ← getErrno
    let p := { p with errno := if e ≠ 0 then e else ENOMEM, info := .err }
    pure (some p.addr, { z with frames := ⟨p, rest⟩ :: up })
  else
    let z := { z with frames := ⟨p, rest⟩ :: up }
    if z.freed.isSome || !z.child.isEmpty then
      if s.opts.nameonly then
        setNameonly false
        crashIf z.freed.isSome
        readFresh E { z with child := [], freed := none } p
      else
        readPending E z p rest up
    else
      readFresh E z p

/-- `ftsRead`. -/
def read (z : Walk) : SysM ω (Option NodeId × Walk) := do
  match z.frames with
  | [] => pure (none, z)
  | ⟨n, rest⟩ :: up =>
    if (← getOpts).stop then
      pure (none, z)
    else
      let p := { n with instr := .noinstr }
      if n.instr = .again then
        let (info, q) ← stat E p (pathNodes up) false none
        pure (some p.addr, { z with frames := ⟨{ q with info := info }, rest⟩ :: up })
      else if n.instr = .follow ∧ (n.info = .sl ∨ n.info = .slnone) then
        let q ← followLink E p (pathNodes up)
        pure (some p.addr, { z with frames := ⟨q, rest⟩ :: up })
      else if n.info = .d then
        readDir E z p rest up n.instr
      else
        readNext E z p up rest

/-- Change the node at address `a`. -/
def updateAt (a : NodeId) (g : Ftsent → Ftsent) (z : Walk) : Walk :=
  let g' := fun n => if n.addr = a then g n else n
  { frames := z.frames.map (Frame.map g'), root := z.root.map g', child := z.child.map g',
    freed := z.freed, leaked := z.leaked.map g' }

/-- All nodes of a stream. -/
def nodes (z : Walk) : List Ftsent :=
  z.frames.flatMap Frame.nodes ++ z.root.toList ++ z.child ++ z.leaked

/-- `ftsSet`. -/
def set (a : NodeId) (instr : ℤ) (z : Walk) : SysM ω (Bool × Walk) := do
  match Instr.ofInt? instr with
  | none =>
    setErrno EINVAL
    pure (true, z)
  | some i =>
    crashIf (z.nodes.all (·.addr ≠ a))
    pure (false, z.updateAt a fun n => { n with instr := i })

/-- `accIsRelative`. -/
def accIsRelative (c : Ftsent) (anc : List Ftsent) : SysM ω Bool := do
  match accArgOf (← getSys) c anc with
  | .str t => pure (t.head? != some slash)
  | _ =>
    crashIf true
    pure true

/-- `childrenDir`. -/
def childrenDir (z : Walk) (c : Ftsent) (up : List Frame) (type : BuildType) :
    SysM ω (Option NodeId × Walk) := do
  let o ← getOpts
  let relative ← (if c.level = rootLevel then accIsRelative c (pathNodes up) else pure false)
  if relative && !o.nochdir then
    match ← callOpen E (.str [dot]) ⟨false, false⟩ with
    | none => pure (none, z)
    | some cwd =>
      let (kids, z) ← build E type z
      let failed ← callFchdir E cwd
      callClose E cwd
      pure (if failed then none else headAddr kids, { z with child := kids, freed := none })
  else
    let (kids, z) ← build E type z
    pure (headAddr kids, { z with child := kids, freed := none })

/-- `ftsChildren`. -/
def children (instr : ℤ) (z : Walk) : SysM ω (Option NodeId × Walk) := do
  if instr ≠ 0 ∧ instr ≠ FTS_NAMEONLY then
    setErrno EINVAL
    pure (none, z)
  else
    match z.frames with
    | [] => pure (none, z)
    | ⟨c, _⟩ :: up =>
      if (← getOpts).stop then
        pure (none, z)
      else if c.info = .init then
        pure (c.link, z)
      else if c.info ≠ .d then
        setErrno 0
        pure (none, z)
      else
        crashIf z.freed.isSome
        (if instr = FTS_NAMEONLY then setNameonly true else pure ())
        let z := { z with child := [], freed := headAddr z.child }
        if ← ftsCyclePush E c then
          setErrno ENOMEM
          pure (none, z)
        else
          childrenDir E z c up (if instr = FTS_NAMEONLY then .bnames else .bchild)

/-- `ftsClose`. -/
def close (z : Walk) : SysM ω Bool := do
  (match z.frames with
  | [] => pure ()
  | f :: _ => do
    closeSymfd E f.node
    crashIf z.root.isNone)
  crashIf z.freed.isSome
  cycleFree
  closeStart E

/-- `openRoots`: the roots, or `none` once it has failed. -/
def openRoots (compar : Option Compar) (parent : NodeId) :
    List CString → List Ftsent → SysM ω (Option (List Ftsent))
  | [], roots => pure (some roots)
  | arg :: argv, roots => do
    if arg.length = 0 then
      setErrno ENOENT
      cycleFree
      pure none
    else
      match ← allocNode E arg with
      | none =>
        cycleFree
        pure none
      | some p =>
        let p := { p with level := rootLevel, parent := some parent, accpath := .name p.addr }
        let s ← getSys
        let (info, p) ← stat E p [] s.opts.comfollow none
        let p := { p with info := if info = .dot then .d else info }
        if compar.isSome then
          openRoots compar parent argv (relink (p :: roots))
        else
          openRoots compar parent argv (relink (roots ++ [p]))

/-- `openStream`: the nodes of the stream. -/
def openStream (parent : Ftsent) (roots : List Ftsent) : SysM ω (Option Walk) := do
  match ← allocNode E [] with
  | none =>
    cycleFree
    pure none
  | some cur =>
    openStart E
    pure (some
      { frames := [⟨{ cur with link := headAddr roots, info := .init }, roots⟩]
        root := if roots.isEmpty then none else some parent
        child := [], freed := none, leaked := [] })

/-- `ftsOpen`: the nodes of the stream, if there is one. -/
def «open» (argv : Option (List CString)) (options : ℕ) (compar : Option Compar) :
    SysM ω (Option Walk) := do
  match argv with
  | none =>
    setErrno EINVAL
    pure none
  | some argv =>
    if optionMask < options then
      setErrno EINVAL
      pure none
    else if ← openSys E (Options.ofBits options).normalize compar argv then
      match ← allocNode E [] with
      | none =>
        cycleFree
        pure none
      | some parent =>
        match ← openRoots E compar parent.addr argv [] with
        | none => pure none
        | some roots =>
          openStream E { parent with level := rootParentLevel }
            (← sortIfAsked E roots roots.length)
    else
      pure none

end Walk

end MuslBsd.Fts
