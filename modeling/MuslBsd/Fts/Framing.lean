import MuslBsd.Fts.Runs
import MuslBsd.Support.Guarded

/-! What all calls on a stream follow, as `fts_sort` follows it and everything that leaves
`fts_array` alone. -/
namespace MuslBsd.Fts
open MuslBsd.Support Traced
open Faulting (Follows Sequential)

variable {ω : Type} {E : Env ω}

/-- A relation that `fts_sort` follows, and everything that leaves `fts_array` alone. -/
structure Framing (E : Env ω) (R : St ω → List Act → St ω → Prop) : Prop where
  seq : Sequential R
  other : ∀ (st st' : St ω) (t : List Act), st'.sys.sortArray = st.sys.sortArray → R st t st'
  sort : ∀ (cmp : Compar) (head : Option NodeId) (nitems : ℕ), Follows R (ftsSort E cmp head nitems)

namespace Framing

variable {R : St ω → List Act → St ω → Prop} {α β : Type} {m : M ω α} {f : α → M ω β}

theorem ite (_ : Framing E R) {c : Prop} [Decidable c] {m' : M ω α} (h : Follows R m)
    (h' : Follows R m') : Follows R (if c then m else m') :=
  .ite (fun _ => h) fun _ => h'

variable (F : Framing E R)

include F

theorem pure (a : α) : Follows R (Pure.pure a : M ω α) := .pure F.seq a

theorem bind (h : Follows R m) (hf : ∀ a, Follows R (f a)) : Follows R (m >>= f) := .bind F.seq h hf

theorem stop (x : Fault) : Follows R (Faulting.fault x : M ω α) := .stop F.seq x

theorem gets (g : St ω → α) : Follows R (Faulting.gets g : M ω α) := .gets F.seq g

theorem onSys {b : SysM ω α} (h : Keeps Sys.sortArray b) : Follows R (onSys b) :=
  fun st => F.other st _ _ (h st.sys)

theorem fixed {b : SysM ω α} (h : Keeps Sys.fixed b) : Follows R (Fts.onSys b) :=
  F.onSys (sortArray_of_fixed h)

theorem core {b : SysM ω α} (h : Keeps Sys.core b) : Follows R (Fts.onSys b) :=
  F.fixed (keeps_fixed h)

theorem getSys : Follows R (Fts.onSys getSys : M ω (Sys ω)) := F.fixed (.gets _)

theorem setCur (a : Option NodeId) : Follows R (setCur a : M ω Unit) := fun st => F.other st _ _ rfl

theorem setChild (a : Option NodeId) : Follows R (setChild a : M ω Unit) :=
  fun st => F.other st _ _ rfl

theorem load (a : NodeId) : Follows R (load a : M ω Ftsent) := by
  intro st
  apply F.other
  unfold Fts.load
  split
  · rfl
  · rfl

theorem update (a : NodeId) (g : Ftsent → Ftsent) : Follows R (update a g : M ω Unit) := by
  intro st
  apply F.other
  unfold Fts.update
  split
  · rfl
  · rfl

theorem free (a : NodeId) : Follows R (free a : M ω Unit) := by
  intro st
  apply F.other
  unfold Fts.free
  split
  · rfl
  · rfl

theorem deref (a : Option NodeId) : Follows R (deref a : M ω NodeId) := by
  cases a with
  | none => exact F.stop _
  | some a => exact F.pure a

theorem lfree (k : ℕ) (a : Option NodeId) : Follows R (ftsLfree k a : M ω Unit) := by
  induction k generalizing a with
  | zero =>
    cases a with
    | none => exact F.pure ()
    | some a => exact F.stop _
  | succ k ih =>
    cases a with
    | none => exact F.pure ()
    | some a => exact F.bind (F.load a) fun n => F.bind (F.free a) fun _ => ih n.link

theorem accArg (n : Ftsent) : Follows R (accArg n : M ω PathArg) := by
  unfold Fts.accArg
  cases n.accpath with
  | null => exact F.pure _
  | wild => exact F.pure _
  | buf b => exact F.bind F.getSys fun _ => F.pure _
  | name a => exact F.bind (F.load a) fun _ => F.pure _

theorem checkPath (n : Ftsent) : Follows R (checkPath n : M ω Unit) :=
  F.bind F.getSys fun _ => F.ite (F.pure ()) (F.stop _)

theorem alloc (name : CString) : Follows R (ftsAlloc E name) := by
  refine F.bind (F.onSys ?_) fun r => ?_
  · exact .bind (sortArray_of_fixed (keeps_fixed keeps_callMalloc)) fun _ =>
      .ite (.bind (.gets _) fun _ => .bind (.modify fun _ => rfl) fun _ => .pure _) (.pure _)
  · cases r with
    | none => exact F.pure none
    | some n => exact F.bind (fun st => F.other st _ _ rfl) fun _ => F.pure _

theorem findAncestor (dev ino k : ℕ) (t : Option NodeId) :
    Follows R (findAncestor dev ino k t : M ω (Option NodeId)) := by
  induction k generalizing t with
  | zero => exact F.stop _
  | succ k ih =>
    exact F.bind (F.deref t) fun a => F.bind (F.load a) fun n =>
      F.ite (F.pure _) (F.ite (F.pure _) (ih n.parent))

theorem classify (a : NodeId) : Follows R (classify a : M ω Info) := by
  have hfind : ∀ dev ino parent, Follows R (findCycle dev ino parent : M ω (Option NodeId)) := by
    intro dev ino parent
    refine F.bind (F.gets _) fun k => F.bind (F.findAncestor dev ino k parent) fun r => ?_
    cases r with
    | none => exact F.bind F.getSys fun _ => F.pure _
    | some t => exact F.pure _
  exact F.bind (F.load a) fun p => F.bind (hfind p.dev p.ino p.parent) fun _ =>
    F.bind (F.update a _) fun _ => F.bind (F.load a) fun n => F.bind (F.gets _) fun anc =>
      F.bind (F.fixed (.emit _)) fun _ => F.pure _

theorem stat (a : NodeId) (follow : Bool) (dfd : Option Fd) : Follows R (ftsStat E a follow dfd) := by
  refine F.bind (F.load a) fun p => F.bind (F.ite (F.accArg p) (F.pure _)) fun path =>
    F.bind (F.core keeps_statFile) fun rq => F.bind (F.update a _) fun _ => ?_
  cases rq.1 with
  | error i => exact F.pure i
  | ok sb =>
    exact F.ite (F.bind (F.update a _) fun _ => F.ite (F.pure _) (F.classify a)) (F.pure _)

theorem padjust (head : Option NodeId) : Follows R (ftsPadjust head : M ω Unit) := by
  have hlist : ∀ base k a, Follows R (adjustList base k a : M ω Unit) := by
    intro base k
    induction k with
    | zero =>
      intro a
      cases a with
      | none => exact F.pure ()
      | some a => exact F.stop _
    | succ k ih =>
      intro a
      cases a with
      | none => exact F.pure ()
      | some a => exact F.bind (F.load a) fun n => F.bind (F.update a _) fun _ => ih n.link
  have hup : ∀ base k a, Follows R (adjustUp base k a : M ω Unit) := by
    intro base k
    induction k with
    | zero =>
      intro a
      cases a with
      | none => exact F.pure ()
      | some a => exact F.stop _
    | succ k ih =>
      intro a
      cases a with
      | none => exact F.pure ()
      | some a =>
        exact F.bind (F.load a) fun n => F.ite (F.pure ()) (F.bind (F.update a _) fun _ => ih _)
  exact F.bind F.getSys fun s => F.bind (F.gets _) fun k => F.bind (F.gets _) fun c =>
    F.bind (hlist s.path.addr k c) fun _ => hup s.path.addr k head

theorem sortIfAsked (head : Option NodeId) (nitems : ℕ) : Follows R (sortIfAsked E head nitems) := by
  refine F.bind F.getSys fun s => ?_
  cases s.compar with
  | none => exact F.pure head
  | some cmp => exact F.ite (F.sort cmp head nitems) (F.pure head)

/-! ### `fts_build` -/

theorem buildFail (C : BuildCtx) (head : Option NodeId) : Follows R (buildFail E C head) :=
  F.bind (F.fixed (.gets _)) fun _ => F.bind (F.gets _) fun k => F.bind (F.lfree k head) fun _ =>
    F.bind (F.core keeps_callClosedir) fun _ => F.bind (F.update C.cur _) fun _ =>
      F.bind (F.fixed fixed_setStop) fun _ => F.core keeps_setErrno

theorem growPath (C : BuildCtx) (b : BuildSt) (dnamlen : ℕ) : Follows R (growPath E C b dnamlen) := by
  have hpalloc : Keeps Sys.sortArray (ftsPalloc E (dnamlen + C.len + 1)) :=
    keeps_palloc fun _ _ _ _ _ => rfl
  exact F.ite (F.bind F.getSys fun old => F.bind (F.onSys hpalloc) fun _ => F.ite (F.pure _)
    (F.bind F.getSys fun new => F.bind (F.ite (F.padjust _) (F.pure ())) fun _ => F.pure _))
    (F.pure _)

theorem buildInfo (C : BuildCtx) (b : BuildSt) (p : NodeId) (type : DType) :
    Follows R (buildInfo E C b p type) := by
  refine F.bind (F.fixed (.gets _)) fun o => F.ite ?_ (F.ite ?_ ?_)
  · exact F.bind (F.load C.cur) fun _ => F.bind (F.update p _) fun _ => F.pure b
  · exact F.bind (F.update p _) fun _ => F.pure b
  · refine F.bind (F.ite ?_ ?_) fun _ => F.bind (F.update p _) fun _ => F.pure _
    · exact F.bind (F.update p _) fun _ => F.bind (F.load p) fun _ =>
        F.bind (F.fixed fixed_storePath) fun _ => F.stat p false (some C.fd)
    · exact F.bind (F.update p _) fun _ => F.stat p false none

theorem buildLink (b : BuildSt) (p : NodeId) : Follows R (buildLink b p : M ω BuildSt) := by
  refine F.bind (F.update p _) fun _ => ?_
  cases b.tail with
  | none => exact F.pure _
  | some t => exact F.bind (F.update t _) fun _ => F.pure _

theorem buildLoop (C : BuildCtx) (entries : List Dirent) (b : BuildSt) :
    Follows R (buildLoop E C entries b) := by
  induction entries generalizing b with
  | nil => exact F.pure _
  | cons dp dps ih =>
    refine F.bind (F.fixed (.gets _)) fun o => F.ite (ih b) (F.bind (F.alloc _) fun r => ?_)
    cases r with
    | none => exact F.bind (F.buildFail C b.head) fun _ => F.pure none
    | some p =>
      refine F.bind (F.growPath C b _) fun fb => F.ite ?_ ?_
      · exact F.bind (F.free p) fun _ => F.bind (F.buildFail C _) fun _ => F.pure none
      · refine F.bind F.getSys fun s => F.bind (F.update p _) fun _ => F.ite ?_ ?_
        · exact F.bind (F.free p) fun _ => F.bind (F.core keeps_setErrno) fun _ =>
            F.bind (F.buildFail C _) fun _ => F.pure none
        · exact F.bind (F.update p _) fun _ => F.bind (F.buildInfo C _ p _) fun b₁ =>
            F.bind (F.buildLink b₁ p) fun b₂ => ih b₂

theorem changeToParent (p : Ftsent) : Follows R (changeToParent E p) :=
  F.bind (F.deref p.parent) fun q => F.bind (F.load q) fun _ => F.core keeps_safeChangedir

theorem buildReturn (type : BuildType) (cur : NodeId) (descend : Bool) (head : Option NodeId)
    (nitems : ℕ) : Follows R (buildReturn E type cur descend head nitems) := by
  have hleave : ∀ c, Follows R (buildLeave E c) := fun c =>
    F.ite (F.bind F.getSys fun _ => F.core keeps_callFchdir) (F.changeToParent c)
  refine F.ite ?_ ?_
  · exact F.bind (F.ite (F.update cur _) (F.pure ())) fun _ => F.pure none
  · refine F.bind (F.sortIfAsked head nitems) fun h => F.ite ?_ (F.pure h)
    exact F.bind (F.load cur) fun c => F.bind (hleave c) fun _ => F.ite
      (F.bind (F.update cur _) fun _ => F.bind (F.fixed fixed_setStop) fun _ => F.pure none)
      (F.pure h)

theorem buildRead (type : BuildType) (c : Ftsent) (fd : Fd) (entries : List Dirent)
    (endErrno : Errno) : Follows R (buildRead E type c fd entries endErrno) := by
  refine F.bind (F.fixed (.gets _)) fun o => ?_
  refine F.bind (F.ite (F.core keeps_safeChangedir) (F.pure _)) fun failed => ?_
  refine F.bind (F.ite (F.fixed (.gets _)) (F.pure _)) fun cderrno => ?_
  refine F.bind (F.ite (F.update c.addr _) (F.pure ())) fun _ => ?_
  refine F.bind (F.checkPath c) fun _ => F.bind F.getSys fun s => ?_
  refine F.bind (F.ite (F.fixed fixed_storePath) (F.pure ())) fun _ => F.bind F.getSys fun s' => ?_
  refine F.bind (F.core keeps_setErrno) fun _ => F.bind (F.buildLoop _ entries _) fun r => ?_
  cases r with
  | none => exact F.pure none
  | some b =>
    refine F.bind (F.ite (F.core keeps_setErrno) (F.pure ())) fun _ => ?_
    refine F.bind (F.fixed (.gets _)) fun e => F.ite ?_ ?_
    · exact F.bind (F.buildFail _ b.head) fun _ => F.pure none
    · exact F.bind (F.core keeps_callClosedir) fun _ => F.buildReturn type c.addr _ b.head b.nitems

theorem build (type : BuildType) : Follows R (ftsBuild E type) := by
  refine F.bind (F.gets _) fun cur => F.bind (F.deref cur) fun a => F.bind (F.load a) fun c => ?_
  refine F.ite ?_ ?_
  · exact F.bind (F.core keeps_setErrno) fun _ => F.bind (F.update a _) fun _ =>
      F.bind (F.fixed fixed_setStop) fun _ => F.pure none
  · refine F.bind (F.accArg c) fun path => F.bind (F.core keeps_openDir) fun r => ?_
    cases r with
    | error ie => exact F.bind (F.update a _) fun _ => F.pure none
    | ok d => exact F.buildRead type c d.1 d.2.1 d.2.2

/-! ### `fts_read` -/

theorem followLink (p : NodeId) : Follows R (followLink E p) :=
  F.bind (F.stat p true none) fun _ => F.bind (F.update p _) fun _ => F.bind (F.load p) fun _ =>
    F.bind (F.core keeps_openSymfd) fun _ => F.update p _

theorem readName (p : NodeId) : Follows R (readName p : M ω (Option NodeId)) :=
  F.bind (F.load p) fun n => F.bind (F.deref n.parent) fun q => F.bind (F.load q) fun d =>
    F.bind (F.checkPath d) fun _ => F.bind (F.fixed fixed_storeName) fun _ =>
      F.bind (F.setCur _) fun _ => F.pure _

theorem ascend (p : Ftsent) : Follows R (ascend E p) :=
  F.ite (F.core keeps_backToStart) (F.ite (F.core keeps_leaveSymfd)
    (F.ite (F.pure false) (F.changeToParent p)))

theorem readUp (tmp : NodeId) : Follows R (readUp E tmp) := by
  refine F.bind (F.load tmp) fun t => F.bind (F.fixed fixed_cyclePop) fun _ =>
    F.bind (F.setCur none) fun _ => F.bind (F.free tmp) fun _ => ?_
  cases t.parent with
  | none => exact F.bind (F.core keeps_setErrno) fun _ => F.pure none
  | some p =>
    refine F.bind (F.load p) fun n => F.bind (F.fixed fixed_storePath) fun _ => F.ite ?_ ?_
    · exact F.bind (F.free p) fun _ => F.bind (F.core keeps_setErrno) fun _ =>
        F.bind (F.setCur none) fun _ => F.pure none
    · exact F.bind (F.ascend n) fun _ => F.ite
        (F.bind (F.fixed fixed_setStop) fun _ => F.bind (F.setCur _) fun _ => F.pure none)
        (F.bind (F.update p _) fun _ => F.bind (F.setCur _) fun _ => F.pure _)

theorem readRoot (p : NodeId) : Follows R (readRoot E p) :=
  F.bind (F.core keeps_backToStart) fun _ => F.ite
    (F.bind (F.fixed fixed_setStop) fun _ => F.bind (F.setCur _) fun _ => F.pure none)
    (F.bind (F.load p) fun _ => F.bind (F.fixed fixed_loadRoot) fun _ =>
      F.bind (F.update p _) fun _ => F.bind (F.setCur _) fun _ => F.pure _)

theorem readNext (k : ℕ) (tmp : NodeId) : Follows R (readNext E k tmp) := by
  induction k generalizing tmp with
  | zero => exact F.stop _
  | succ k ih =>
    refine F.bind (F.load tmp) fun t => ?_
    cases t.link with
    | none => exact F.readUp tmp
    | some p =>
      refine F.bind (F.fixed fixed_cyclePop) fun _ => F.bind (F.setCur none) fun _ =>
        F.bind (F.free tmp) fun _ => F.bind (F.load p) fun n => ?_
      exact F.ite (F.readRoot p) (F.ite (ih p) (F.ite (F.bind (F.followLink p) fun _ =>
        F.bind (F.update p _) fun _ => F.readName p) (F.readName p)))

theorem readChild : Follows R (readChild : M ω (Option NodeId)) :=
  F.bind (F.gets _) fun c => F.bind (F.deref c) fun p => F.bind (F.setChild none) fun _ =>
    F.readName p

theorem dropChild : Follows R (dropChild : M ω Unit) :=
  F.bind (F.gets _) fun k => F.bind (F.gets _) fun c => F.bind (F.lfree k c) fun _ => F.setChild none

theorem readFresh (p : NodeId) : Follows R (readFresh E p) := by
  refine F.bind (F.build .bread) fun c => F.bind (F.setChild c) fun _ => ?_
  cases c with
  | none => exact F.bind (F.fixed (.gets _)) fun _ => F.ite (F.pure none) (F.pure _)
  | some _ => exact F.readChild

theorem readPending (p : NodeId) : Follows R (readPending E p) := by
  have hloop : ∀ k a, Follows R (pathFromParent k a : M ω Unit) := by
    intro k
    induction k with
    | zero =>
      intro a
      cases a with
      | none => exact F.pure ()
      | some a => exact F.stop _
    | succ k ih =>
      intro a
      cases a with
      | none => exact F.pure ()
      | some a =>
        exact F.bind (F.load a) fun n => F.bind (F.deref n.parent) fun q => F.bind (F.load q) fun _ =>
          F.bind (F.update a _) fun _ => ih n.link
  exact F.bind (F.load p) fun n => F.bind (F.accArg n) fun path =>
    F.bind (F.core keeps_safeChangedir) fun _ => F.ite
      (F.bind (F.fixed (.gets _)) fun _ => F.bind (F.update p _) fun _ => F.bind (F.gets _) fun k =>
        F.bind (F.gets _) fun c => F.bind (hloop k c) fun _ => F.readChild) F.readChild

theorem readDir (p : NodeId) (instr : Instr) : Follows R (readDir E p instr) := by
  refine F.bind (F.load p) fun n => F.bind F.getSys fun s => F.ite ?_ ?_
  · exact F.bind (F.core keeps_closeSymfd) fun _ => F.bind F.dropChild fun _ =>
      F.bind (F.fixed fixed_cyclePop) fun _ => F.bind (F.update p _) fun _ =>
        F.bind (F.fixed (.emit _)) fun _ => F.pure _
  · refine F.bind (F.fixed fixed_cyclePush) fun _ => F.ite ?_ ?_
    · exact F.bind (F.fixed fixed_setStop) fun _ => F.bind (F.fixed (.gets _)) fun _ =>
        F.bind (F.update p _) fun _ => F.pure _
    · exact F.bind (F.gets _) fun c => F.ite (F.ite (F.bind (F.fixed fixed_setNameonly) fun _ =>
        F.bind F.dropChild fun _ => F.readFresh p) (F.readPending p)) (F.readFresh p)

theorem read : Follows R (ftsRead E) := by
  refine F.bind (F.gets _) fun cur => ?_
  cases cur with
  | none => exact F.pure none
  | some p =>
    refine F.bind (F.fixed (.gets _)) fun o => F.ite (F.pure none) (F.bind (F.load p) fun n => ?_)
    exact F.bind (F.update p _) fun _ => F.ite
      (F.bind (F.stat p false none) fun _ => F.bind (F.update p _) fun _ => F.pure _)
      (F.ite (F.bind (F.followLink p) fun _ => F.pure _) (F.ite (F.readDir p n.instr)
        (F.bind (F.gets _) fun k => F.readNext k p)))

/-! ### The other calls -/

theorem set (p : NodeId) (instr : ℤ) : Follows R (ftsSet p instr : M ω Bool) := by
  unfold ftsSet
  cases Instr.ofInt? instr with
  | none => exact F.bind (F.core keeps_setErrno) fun _ => F.pure true
  | some i => exact F.bind (F.update p _) fun _ => F.pure false

theorem children (instr : ℤ) : Follows R (ftsChildren E instr) := by
  have hrelative : ∀ c, Follows R (accIsRelative c : M ω Bool) := by
    intro c
    refine F.bind (F.accArg c) fun a => ?_
    cases a with
    | null => exact F.stop _
    | wild => exact F.stop _
    | str s => exact F.pure _
  have hdir : ∀ c type, Follows R (childrenDir E c type) := by
    intro c type
    refine F.bind (F.fixed (.gets _)) fun o => F.bind (F.ite (hrelative c) (F.pure false)) fun _ => ?_
    refine F.ite (F.bind (F.core keeps_callOpen) fun r => ?_)
      (F.bind (F.build type) fun k => F.bind (F.setChild k) fun _ => F.pure k)
    cases r with
    | none => exact F.pure none
    | some cwd =>
      exact F.bind (F.build type) fun k => F.bind (F.setChild k) fun _ =>
        F.bind (F.core keeps_callFchdir) fun _ => F.bind (F.core keeps_callClose) fun _ => F.pure _
  refine F.ite (F.bind (F.core keeps_setErrno) fun _ => F.pure none) (F.bind (F.gets _) fun cur => ?_)
  cases cur with
  | none => exact F.pure none
  | some a =>
    refine F.bind (F.fixed (.gets _)) fun o => F.ite (F.pure none) (F.bind (F.load a) fun c => ?_)
    refine F.ite (F.pure _) (F.ite (F.bind (F.core keeps_setErrno) fun _ => F.pure none) ?_)
    exact F.bind (F.gets _) fun k => F.bind (F.gets _) fun h => F.bind (F.lfree k h) fun _ =>
      F.bind (F.ite (F.fixed fixed_setNameonly) (F.pure ())) fun _ =>
        F.bind (F.fixed fixed_cyclePush) fun _ => F.ite
          (F.bind (F.core keeps_setErrno) fun _ => F.pure none) (hdir c _)

theorem call (c : Call) : Follows R (ftsCall E c) := by
  cases c with
  | read => exact F.bind F.read fun _ => F.pure _
  | children instr => exact F.bind (F.children instr) fun _ => F.pure _
  | set p instr => exact F.bind (F.set p instr) fun _ => F.pure _

theorem close : Follows R (ftsClose E) := by
  have hup : ∀ k p, Follows R (closeUp k p : M ω Unit) := by
    intro k
    induction k with
    | zero => exact fun p => F.stop _
    | succ k ih =>
      exact fun p => F.bind (F.deref p) fun a => F.bind (F.load a) fun n => F.bind (F.free a) fun _ =>
        F.ite (ih _) (F.pure ())
  refine F.bind (F.gets _) fun cur => F.bind ?_ fun _ => F.bind (F.gets _) fun k =>
    F.bind (F.gets _) fun c => F.bind (F.lfree k c) fun _ => F.bind (F.fixed fixed_cycleFree) fun _ =>
      F.core keeps_closeStart
  cases cur with
  | none => exact F.pure ()
  | some a =>
    exact F.bind (F.load a) fun n => F.bind (F.core keeps_closeSymfd) fun _ =>
      F.bind (F.gets _) fun k => hup k _

/-! ### `fts_open` -/

theorem openFail (root : Option NodeId) (parent : NodeId) :
    Follows R (openFail root parent : M ω Unit) :=
  F.bind (F.gets _) fun k => F.bind (F.lfree k root) fun _ => F.bind (F.free parent) fun _ =>
    F.fixed fixed_cycleFree

theorem openRoots (compar : Option Compar) (parent : NodeId) (argv : List CString)
    (root prev : Option NodeId) (nitems : ℕ) :
    Follows R (openRoots E compar parent argv root prev nitems) := by
  induction argv generalizing root prev nitems with
  | nil => exact F.pure _
  | cons arg argv ih =>
    refine F.ite (F.bind (F.core keeps_setErrno) fun _ => F.bind (F.openFail root parent) fun _ =>
      F.pure none) (F.bind (F.alloc arg) fun r => ?_)
    cases r with
    | none => exact F.bind (F.openFail root parent) fun _ => F.pure none
    | some p =>
      refine F.bind (F.update p _) fun _ => F.bind F.getSys fun s =>
        F.bind (F.stat p s.opts.comfollow none) fun _ => F.bind (F.update p _) fun _ => ?_
      refine F.ite (F.bind (F.update p _) fun _ => ih _ _ _) (F.bind (F.update p _) fun _ => ?_)
      cases prev with
      | none => exact ih _ _ _
      | some q => exact F.bind (F.update q _) fun _ => ih _ _ _

theorem openStream (parent : NodeId) (root : Option NodeId) (nitems : ℕ) :
    Follows R (openStream E parent root nitems) := by
  refine F.bind (F.alloc []) fun r => ?_
  cases r with
  | none => exact F.bind (F.openFail root parent) fun _ => F.pure false
  | some cur =>
    exact F.bind (F.update cur _) fun _ => F.bind (F.setCur _) fun _ =>
      F.bind (F.fixed fixed_openStart) fun _ => F.bind (F.ite (F.free parent) (F.pure ())) fun _ =>
        F.pure true

theorem openSys (o : Options) (compar : Option Compar) (argv : List CString) :
    Follows R (Fts.onSys (openSys E o compar argv)) := by
  have hpalloc : ∀ need, Keeps Sys.sortArray (ftsPalloc E need) :=
    fun need => keeps_palloc fun _ _ _ _ _ => rfl
  have hmalloc : Keeps Sys.sortArray (callMalloc E) := sortArray_of_fixed (keeps_fixed keeps_callMalloc)
  apply F.onSys
  refine .bind hmalloc fun _ => .ite (.pure _) (.bind (sortArray_of_fixed fixed_cycleInit) fun _ =>
    .ite (.pure _) (.bind (.modify fun _ => rfl) fun _ => .bind (hpalloc _) fun _ =>
      .ite (.bind (sortArray_of_fixed fixed_cycleFree) fun _ => .pure _) (.pure _)))

theorem opens (argv : Option (List CString)) (options : ℕ) (compar : Option Compar) :
    Follows R (ftsOpen E argv options compar) := by
  unfold ftsOpen
  cases argv with
  | none => exact F.bind (F.core keeps_setErrno) fun _ => F.pure false
  | some argv =>
    refine F.ite (F.bind (F.core keeps_setErrno) fun _ => F.pure false)
      (F.bind (F.openSys _ compar argv) fun _ => F.ite ?_ (F.pure false))
    refine F.bind (F.alloc []) fun r => ?_
    cases r with
    | none => exact F.bind (F.fixed fixed_cycleFree) fun _ => F.pure false
    | some parent =>
      refine F.bind (F.update parent _) fun _ =>
        F.bind (F.openRoots compar parent argv none none 0) fun r => ?_
      cases r with
      | none => exact F.pure false
      | some r => exact F.bind (F.sortIfAsked r.1 r.2) fun root => F.openStream parent root r.2

end Framing

end MuslBsd.Fts
