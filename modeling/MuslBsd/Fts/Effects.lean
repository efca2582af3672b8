import MuslBsd.Fts.System

/-! What the parts of `fts.c` without nodes leave alone: a call of an operation changes nothing of
the stream but `errno`. -/
namespace MuslBsd.Fts
open MuslBsd.Support Traced

variable {ω : Type}

/-- The stream itself: everything but the system behind it and `errno`. -/
def Sys.core (s : Sys ω) : Sys Unit where
  world := ()
  errno := 0
  opts := s.opts
  compar := s.compar
  dev := s.dev
  path := s.path
  pathlen := s.pathlen
  rfd := s.rfd
  array := s.array
  nitems := s.nitems
  cycles := s.cycles
  next := s.next

theorem keeps_setErrno {e : Errno} : Keeps Sys.core (setErrno e : SysM ω Unit) := fun _ => rfl

variable {E : Env ω}

theorem answer_core {α β : Type} (r : Except Errno α × ω) (s : Sys ω) (act : Option α → Act)
    (ok : α → β) (fail : β) : (answer r s act ok fail).2.1.core = s.core := by
  rcases r with ⟨_ | _, w⟩ <;> rfl

theorem keeps_callOpen {path : PathArg} {flags : OpenFlags} :
    Keeps Sys.core (callOpen E path flags) := fun s => by
  cases path <;> first | rfl | exact answer_core ..

theorem keeps_callClose {fd : Fd} : Keeps Sys.core (callClose E fd) := fun _ => answer_core ..

theorem keeps_callFstat {fd : Fd} : Keeps Sys.core (callFstat E fd) := fun _ => answer_core ..

theorem keeps_callFstatat {dfd : Option Fd} {path : PathArg} {nofollow : Bool} :
    Keeps Sys.core (callFstatat E dfd path nofollow) := fun s => by
  cases path <;> first | rfl | exact answer_core ..

theorem keeps_callFchdir {fd : Fd} : Keeps Sys.core (callFchdir E fd) := fun _ => answer_core ..

theorem keeps_callFdopendir {fd : Fd} {dir : NodeId} :
    Keeps Sys.core (callFdopendir E fd dir) := fun _ => answer_core ..

theorem keeps_callClosedir {fd : Fd} : Keeps Sys.core (callClosedir E fd) := fun _ => answer_core ..

theorem keeps_callMalloc : Keeps Sys.core (callMalloc E) := fun _ => rfl

theorem keeps_callRealloc {size : ℕ} : Keeps Sys.core (callRealloc E size) := fun _ => rfl

theorem keeps_callReallocArray {nmemb : ℕ} : Keeps Sys.core (callReallocArray E nmemb) :=
  fun s => by
    simp only [callReallocArray, out]
    split <;> rfl

/-! ### What is made of calls -/

/-- A property that the calls of the operations have, and with them all that is made of them. -/
structure Calling (E : Env ω) (Q : ∀ {α : Type}, SysM ω α → Prop) : Prop where
  pure : ∀ {α : Type} (a : α), Q (Pure.pure a : SysM ω α)
  bind : ∀ {α β : Type} {m : SysM ω α} {f : α → SysM ω β}, Q m → (∀ a, Q (f a)) → Q (m >>= f)
  gets : ∀ {α : Type} (f : Sys ω → α), Q (Traced.gets f)
  setErrno : ∀ e, Q (setErrno e)
  callOpen : ∀ path flags, Q (callOpen E path flags)
  callClose : ∀ fd, Q (callClose E fd)
  callFstat : ∀ fd, Q (callFstat E fd)
  callFstatat : ∀ dfd path nofollow, Q (callFstatat E dfd path nofollow)
  callFchdir : ∀ fd, Q (callFchdir E fd)
  callFdopendir : ∀ fd dir, Q (callFdopendir E fd dir)
  callClosedir : ∀ fd, Q (callClosedir E fd)

namespace Calling

variable {Q : ∀ {α : Type}, SysM ω α → Prop}

theorem ite {α : Type} {c : Prop} [Decidable c] {m m' : SysM ω α} (_ : Calling E Q) (h : Q m)
    (h' : Q m') : Q (if c then m else m') := by
  split <;> assumption

variable (R : Calling E Q)

include R

theorem statFile {p : Ftsent} {follow : Bool} {dfd : Option Fd} {path : PathArg} :
    Q (statFile E p follow dfd path) := by
  unfold Fts.statFile
  refine R.ite (R.bind (R.setErrno _) fun _ => R.pure _) (R.bind (R.gets _) fun o => ?_)
  refine R.ite (R.pure _) (R.ite (R.bind (R.callFstatat _ _ _) fun r => ?_)
    (R.bind (R.callFstatat _ _ _) fun r => ?_))
  · cases r with
    | none =>
      refine R.bind (R.gets _) fun _ => R.bind (R.callFstatat _ _ _) fun r => ?_
      cases r with
      | none => exact R.pure _
      | some sb => exact R.bind (R.setErrno _) fun _ => R.pure _
    | some sb => exact R.pure _
  · cases r with
    | none => exact R.bind (R.gets _) fun _ => R.pure _
    | some sb => exact R.pure _

theorem enterDir {p : Ftsent} {newfd : Fd} {own : Bool} : Q (enterDir E p newfd own) := by
  have hc : Q (if own then Fts.callClose E newfd else Pure.pure ()) :=
    R.ite (R.callClose _) (R.pure _)
  have hfail : ∀ e, Q (do
      (if own then Fts.callClose E newfd else Pure.pure ())
      Fts.setErrno e
      Pure.pure true) := fun e => R.bind hc fun _ => R.bind (R.setErrno _) fun _ => R.pure _
  refine R.bind (R.callFstat _) fun r => ?_
  cases r with
  | none => exact R.bind (R.gets _) fun _ => hfail _
  | some before =>
    refine R.ite (hfail _) (R.bind (R.callFchdir _) fun b =>
      R.ite (R.bind (R.gets _) fun _ => hfail _) (R.bind (R.callFstat _) fun r => ?_))
    cases r with
    | none => exact hfail _
    | some after => exact R.ite (hfail _) (R.bind hc fun _ => R.pure _)

theorem safeChangedir {p : Ftsent} {fd : Option Fd} {path : PathArg} :
    Q (ftsSafeChangedir E p fd path) := by
  refine R.bind (R.gets _) fun o => R.ite (R.pure _) ?_
  cases fd with
  | some fd => exact R.enterDir
  | none =>
    refine R.bind (R.callOpen _ _) fun r => ?_
    cases r with
    | none => exact R.pure _
    | some newfd => exact R.enterDir

theorem backToStart : Q (backToStart E) :=
  R.bind (R.gets _) fun _ => R.ite (R.pure _) (R.callFchdir _)

theorem closeSymfd {p : Ftsent} : Q (closeSymfd E p) := R.ite (R.callClose _) (R.pure _)

theorem leaveSymfd {p : Ftsent} : Q (leaveSymfd E p) :=
  R.bind (R.gets _) fun _ => R.bind (R.ite (R.pure _) (R.callFchdir _)) fun _ =>
    R.bind (R.gets _) fun _ => R.bind (R.callClose _) fun _ =>
      R.bind (R.ite (R.setErrno _) (R.pure _)) fun _ => R.pure _

theorem openSymfd {p : Ftsent} : Q (openSymfd E p) := by
  refine R.bind (R.gets _) fun o => R.ite (R.bind (R.callOpen _ _) fun r => ?_) (R.pure _)
  cases r with
  | none => exact R.bind (R.gets _) fun _ => R.pure _
  | some fd => exact R.pure _

theorem closeStart : Q (closeStart E) :=
  R.bind (R.gets _) fun _ => R.ite (R.pure _) (R.bind (R.callFchdir _) fun _ =>
    R.bind (R.gets _) fun _ => R.bind (R.callClose _) fun _ =>
      R.bind (R.ite (R.setErrno _) (R.pure _)) fun _ => R.pure _)

theorem openDir {type : BuildType} {c : Ftsent} {path : PathArg} : Q (openDir E type c path) := by
  have hfail : ∀ fd e, Q (do
      Fts.callClose E fd
      Fts.setErrno e
      Pure.pure (.error (.err, e)) : SysM ω (Except (Info × Errno) (Fd × List Dirent × Errno))) :=
    fun fd e => R.bind (R.callClose _) fun _ => R.bind (R.setErrno _) fun _ => R.pure _
  refine R.bind (R.gets _) fun o => R.bind (R.callOpen _ _) fun r => ?_
  cases r with
  | none => exact R.bind (R.gets _) fun _ => R.pure _
  | some fd =>
    refine R.bind (R.callFstat _) fun r => ?_
    cases r with
    | none => exact R.bind (R.gets _) fun _ => hfail fd _
    | some sb =>
      refine R.ite (hfail fd _) (R.bind (R.callFdopendir _ _) fun r => ?_)
      cases r with
      | none => exact R.bind (R.gets _) fun _ => hfail fd _
      | some d => exact R.pure _

end Calling

/-- No call changes the stream itself. -/
theorem calling_core : Calling E (Keeps Sys.core) where
  pure _ := .pure _
  bind h hf := .bind h hf
  gets _ := .gets _
  setErrno _ := keeps_setErrno
  callOpen _ _ := keeps_callOpen
  callClose _ := keeps_callClose
  callFstat _ := keeps_callFstat
  callFstatat _ _ _ := keeps_callFstatat
  callFchdir _ := keeps_callFchdir
  callFdopendir _ _ := keeps_callFdopendir
  callClosedir _ := keeps_callClosedir

theorem keeps_statFile {p : Ftsent} {follow : Bool} {dfd : Option Fd} {path : PathArg} :
    Keeps Sys.core (statFile E p follow dfd path) := calling_core.statFile

theorem keeps_safeChangedir {p : Ftsent} {fd : Option Fd} {path : PathArg} :
    Keeps Sys.core (ftsSafeChangedir E p fd path) := calling_core.safeChangedir

theorem keeps_backToStart : Keeps Sys.core (backToStart E) := calling_core.backToStart

theorem keeps_closeSymfd {p : Ftsent} : Keeps Sys.core (closeSymfd E p) := calling_core.closeSymfd

theorem keeps_leaveSymfd {p : Ftsent} : Keeps Sys.core (leaveSymfd E p) := calling_core.leaveSymfd

theorem keeps_openSymfd {p : Ftsent} : Keeps Sys.core (openSymfd E p) := calling_core.openSymfd

theorem keeps_closeStart : Keeps Sys.core (closeStart E) := calling_core.closeStart

theorem keeps_openDir {type : BuildType} {c : Ftsent} {path : PathArg} :
    Keeps Sys.core (openDir E type c path) := calling_core.openDir

/-- What the nodes depend on: the allocation of the path buffer and the next free address. -/
def Sys.anchors (s : Sys ω) : ℕ × NodeId := (s.path.addr, s.next)

theorem keeps_anchors {α : Type} {m : SysM ω α} (h : Keeps Sys.core m) : Keeps Sys.anchors m :=
  fun s => congrArg (fun c : Sys Unit => (c.path.addr, c.next)) (h s)

/-- What is recorded of `fts_array`. -/
def Sys.sortArray (s : Sys ω) : Option ℕ × ℕ := (s.array, s.nitems)

/-- What only a few parts of the stream change. -/
def Sys.fixed (s : Sys ω) : (ℕ × NodeId) × Option ℕ × ℕ := (s.anchors, s.sortArray)

theorem keeps_fixed {α : Type} {m : SysM ω α} (h : Keeps Sys.core m) : Keeps Sys.fixed m :=
  fun s => congrArg (fun c : Sys Unit => ((c.path.addr, c.next), c.array, c.nitems)) (h s)

theorem anchors_of_fixed {α : Type} {m : SysM ω α} (h : Keeps Sys.fixed m) :
    Keeps Sys.anchors m :=
  h.comp Prod.fst

theorem sortArray_of_fixed {α : Type} {m : SysM ω α} (h : Keeps Sys.fixed m) :
    Keeps Sys.sortArray m :=
  h.comp Prod.snd

theorem fixed_storePath {off : ℕ} {bs : List Byte} :
    Keeps Sys.fixed (storePath off bs : SysM ω Unit) := fun _ => rfl

theorem fixed_setStop : Keeps Sys.fixed (setStop : SysM ω Unit) := fun _ => rfl

theorem fixed_setNameonly {b : Bool} : Keeps Sys.fixed (setNameonly b : SysM ω Unit) :=
  fun _ => rfl

theorem fixed_cycleFree : Keeps Sys.fixed (cycleFree : SysM ω Unit) := fun _ => rfl

theorem fixed_cyclePop {p : Ftsent} : Keeps Sys.fixed (ftsCyclePop p : SysM ω Unit) := by
  refine .ite (.modify fun s => ?_) (.pure _)
  split <;> rfl

theorem fixed_cycleInit : Keeps Sys.fixed (cycleInit E) :=
  .bind (keeps_fixed keeps_callMalloc) fun _ =>
    .ite (.bind (.modify fun _ => rfl) fun _ => .pure _) (.bind (.modify fun _ => rfl) fun _ => .pure _)

theorem fixed_cycleInsert {dev ino : ℕ} {ent : NodeId} :
    Keeps Sys.fixed (cycleInsert E dev ino ent) :=
  .bind (.gets _) fun _ => .bind (.ite fixed_cycleInit (.pure _)) fun _ =>
    .ite (.pure _) (.bind (.gets _) fun _ => .ite (.pure _)
      (.bind (keeps_fixed keeps_callMalloc) fun _ =>
        .ite (.bind (.modify fun _ => rfl) fun _ => .pure _) (.pure _)))

theorem fixed_cyclePush {p : Ftsent} : Keeps Sys.fixed (ftsCyclePush E p) :=
  .ite (.pure _) (.bind fixed_cycleInsert fun _ =>
    .ite (.bind (keeps_fixed keeps_setErrno) fun _ => .pure _) (.pure _))

theorem fixed_loadRoot {p : Ftsent} : Keeps Sys.fixed (loadRoot p : SysM ω Ftsent) :=
  .bind fixed_storePath fun _ => .bind (.gets _) fun _ =>
    .bind (.modify fun _ => rfl) fun _ => .pure _

theorem fixed_storeName {d p : Ftsent} : Keeps Sys.fixed (storeName d p : SysM ω Unit) :=
  .bind (.gets _) fun _ => .bind fixed_storePath fun _ => fixed_storePath

theorem fixed_openStart : Keeps Sys.fixed (openStart E) := by
  refine .bind (.gets _) fun o => .ite (.pure _) (.bind (keeps_fixed keeps_callOpen) fun r => ?_)
  cases r <;> exact .modify fun _ => rfl

theorem anchors_growArray {n : ℕ} : Keeps Sys.anchors (growArray E n) :=
  .bind (.gets _) fun _ => .ite (.bind (keeps_anchors keeps_callReallocArray) fun _ =>
    .ite (.bind (.modify fun _ => rfl) fun _ => .pure _)
      (.bind (.modify fun _ => rfl) fun _ => .pure _)) (.pure _)

theorem keeps_palloc {α : Type} {g : Sys ω → α} {need : ℕ}
    (hg : ∀ s w e b p, g { s with world := w, errno := e, path := b, pathlen := p } = g s) :
    Keeps g (ftsPalloc E need) := by
  have hcall : ∀ size, Keeps g (callRealloc E size) := fun size s => hg s _ _ s.path s.pathlen
  have herr : ∀ e, Keeps g (setErrno e : SysM ω Unit) := fun e s => hg s s.world e s.path s.pathlen
  refine .ite (.bind (herr _) fun _ => .pure _) (.bind (hcall _) fun r => .ite (.pure _) ?_)
  exact .bind (.modify fun s => hg s s.world s.errno _ _) fun _ => .pure _

/-- A buffer that could not grow is the buffer that was there. -/
theorem palloc_failed {need : ℕ} (s : Sys ω) (h : val (ftsPalloc E need) s = true) :
    (out (ftsPalloc E need) s).path = s.path := by
  unfold ftsPalloc at h ⊢
  dsimp only at h ⊢
  split at h
  · rw [if_pos ‹_›]
    rfl
  · rw [if_neg ‹_›]
    rw [val_bind] at h
    rw [out_bind]
    split at h
    · rw [if_pos ‹_›]
      rfl
    · exact absurd h (by simp)

/-- `fts_alloc` fails, or makes a node at the next address. -/
theorem allocNode_cases (name : CString) (s : Sys ω) :
    val (allocNode E name) s = none ∧ (out (allocNode E name) s).anchors = s.anchors ∨
    val (allocNode E name) s = some (newNode s.next s.path.addr name) ∧
      (out (allocNode E name) s).anchors = (s.path.addr, s.next + 1) := by
  unfold allocNode
  rw [val_bind, out_bind]
  split
  · exact .inr ⟨rfl, rfl⟩
  · exact .inl ⟨rfl, rfl⟩

/-! ### What says nothing on directories -/

/-- Everything but a verdict of `fts_stat` on a directory. -/
def Act.Quiet (e : Act) : Prop := ∀ p anc i, e ≠ .classifies p anc i

theorem answer_quiet {α β : Type} (r : Except Errno α × ω) (s : Sys ω) {act : Option α → Act}
    (hact : ∀ x, (act x).Quiet) (ok : α → β) (fail : β) :
    ∀ e ∈ (answer r s act ok fail).2.2, e.Quiet := by
  rcases r with ⟨_ | _, w⟩
  · exact fun e he => List.mem_singleton.mp he ▸ hact _
  · exact fun e he => List.mem_singleton.mp he ▸ hact _

theorem quiet_callMalloc : Writes Act.Quiet (callMalloc E) := fun s e he => by
  obtain rfl : e = _ := List.mem_singleton.mp he
  simp [Act.Quiet]

theorem quiet_callRealloc {size : ℕ} : Writes Act.Quiet (callRealloc E size) := fun s e he => by
  obtain rfl : e = _ := List.mem_singleton.mp he
  simp [Act.Quiet]

theorem quiet_callReallocArray {nmemb : ℕ} : Writes Act.Quiet (callReallocArray E nmemb) :=
  fun s e he => by
    simp only [callReallocArray, acts] at he
    split at he
    · obtain rfl : e = _ := List.mem_singleton.mp he
      simp [Act.Quiet]
    · obtain rfl : e = _ := List.mem_singleton.mp he
      simp [Act.Quiet]

theorem quiet_storePath {off : ℕ} {bs : List Byte} :
    Writes Act.Quiet (storePath off bs : SysM ω Unit) := fun s e he => by
  obtain rfl : e = _ := List.mem_singleton.mp he
  simp [Act.Quiet]

theorem calling_quiet : Calling E (Writes Act.Quiet) where
  pure _ := .pure _
  bind h hf := .bind h hf
  gets _ := .gets _
  setErrno _ := .modify _
  callOpen path flags s := by
    have hact : ∀ r, (Act.opens path flags r).Quiet := fun _ _ _ _ => by simp
    cases path with
    | null => exact fun e he => List.mem_singleton.mp he ▸ hact none
    | wild => exact answer_quiet _ _ (fun _ => hact _) _ _
    | str t => exact answer_quiet _ _ (fun _ => hact _) _ _
  callClose _ _ := answer_quiet _ _ (fun _ _ _ _ => by simp) _ _
  callFstat _ _ := answer_quiet _ _ (fun _ _ _ _ => by simp) _ _
  callFstatat dfd path nofollow s := by
    have hact : ∀ r, (Act.fstatats dfd path nofollow r).Quiet := fun _ _ _ _ => by simp
    cases path with
    | null => exact fun e he => List.mem_singleton.mp he ▸ hact none
    | wild => exact answer_quiet _ _ (fun _ => hact _) _ _
    | str t => exact answer_quiet _ _ (fun _ => hact _) _ _
  callFchdir _ _ := answer_quiet _ _ (fun _ _ _ _ => by simp) _ _
  callFdopendir _ _ _ := answer_quiet _ _ (fun _ _ _ _ => by simp) _ _
  callClosedir _ _ := answer_quiet _ _ (fun _ _ _ _ => by simp) _ _

theorem quiet_palloc {need : ℕ} : Writes Act.Quiet (ftsPalloc E need) :=
  .ite (.bind (.modify _) fun _ => .pure _) (.bind quiet_callRealloc fun _ =>
    .ite (.pure _) (.bind (.modify _) fun _ => .pure _))

theorem quiet_allocNode {name : CString} : Writes Act.Quiet (allocNode E name) :=
  .bind quiet_callMalloc fun _ =>
    .ite (.bind (.gets _) fun _ => .bind (.modify _) fun _ => .pure _) (.pure _)

theorem quiet_growArray {n : ℕ} : Writes Act.Quiet (growArray E n) :=
  .bind (.gets _) fun _ => .ite (.bind quiet_callReallocArray fun _ =>
    .ite (.bind (.modify _) fun _ => .pure _) (.bind (.modify _) fun _ => .pure _)) (.pure _)

theorem quiet_storeName {d p : Ftsent} : Writes Act.Quiet (storeName d p : SysM ω Unit) :=
  .bind (.gets _) fun _ => .bind quiet_storePath fun _ => quiet_storePath

theorem quiet_loadRoot {p : Ftsent} : Writes Act.Quiet (loadRoot p : SysM ω Ftsent) :=
  .bind quiet_storePath fun _ => .bind (.gets _) fun _ => .bind (.modify _) fun _ => .pure _

theorem quiet_cyclePush {p : Ftsent} : Writes Act.Quiet (ftsCyclePush E p) :=
  .ite (.pure _) (.bind (.bind (.gets _) fun _ => .bind (.ite (.bind quiet_callMalloc fun _ =>
      .ite (.bind (.modify _) fun _ => .pure _) (.bind (.modify _) fun _ => .pure _)) (.pure _))
    fun _ => .ite (.pure _) (.bind (.gets _) fun _ => .ite (.pure _)
      (.bind quiet_callMalloc fun _ => .ite (.bind (.modify _) fun _ => .pure _) (.pure _))))
    fun _ => .ite (.bind (.modify _) fun _ => .pure _) (.pure _))

theorem quiet_cyclePop {p : Ftsent} : Writes Act.Quiet (ftsCyclePop p : SysM ω Unit) :=
  .ite (.modify _) (.pure _)

end MuslBsd.Fts
