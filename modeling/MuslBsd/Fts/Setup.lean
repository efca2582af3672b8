import MuslBsd.Fts.Children

/-! What `fts_open` sets up for good: the options that are no record of the traversal, the comparison
function, the starting directory and the device of the root. -/
namespace MuslBsd.Fts
open MuslBsd.Support Traced

variable {ω : Type} {E : Env ω}

/-- The options, the comparison function, the starting directory and the device of the root. -/
def Sys.setup (s : Sys ω) : Options × Option Compar × Fd × ℕ :=
  ({ s.opts with stop := false, nameonly := false }, s.compar, s.rfd, s.dev)

theorem setup_core {α : Type} {m : SysM ω α} (h : Keeps Sys.core m) : Keeps Sys.setup m := fun s =>
  congrArg (fun c : Sys Unit =>
    (({ c.opts with stop := false, nameonly := false } : Options), c.compar, c.rfd, c.dev)) (h s)

theorem setup_setStop : Keeps Sys.setup (setStop : SysM ω Unit) := fun _ => rfl

theorem setup_setNameonly {b : Bool} : Keeps Sys.setup (setNameonly b : SysM ω Unit) := fun _ => rfl

theorem setup_storePath {off : ℕ} {bs : List Byte} :
    Keeps Sys.setup (storePath off bs : SysM ω Unit) := fun _ => rfl

theorem setup_palloc {need : ℕ} : Keeps Sys.setup (ftsPalloc E need) :=
  keeps_palloc fun _ _ _ _ _ => rfl

theorem setup_allocNode {name : CString} : Keeps Sys.setup (allocNode E name) :=
  .bind (setup_core keeps_callMalloc) fun _ =>
    .ite (.bind (.gets _) fun _ => .bind (.modify fun _ => rfl) fun _ => .pure _) (.pure _)

theorem setup_growArray {n : ℕ} : Keeps Sys.setup (growArray E n) :=
  .bind (.gets _) fun _ => .ite (.bind (setup_core keeps_callReallocArray) fun _ =>
    .ite (.bind (.modify fun _ => rfl) fun _ => .pure _) (.bind (.modify fun _ => rfl) fun _ => .pure _))
    (.pure _)

theorem setup_cyclePop {p : Ftsent} : Keeps Sys.setup (ftsCyclePop p : SysM ω Unit) := fun s => by
  rw [out_cyclePop]
  rfl

theorem setup_cyclePush {p : Ftsent} : Keeps Sys.setup (ftsCyclePush E p) := by
  have hinit : Keeps Sys.setup (cycleInit E) := .bind (setup_core keeps_callMalloc) fun _ =>
    .ite (.bind (.modify fun _ => rfl) fun _ => .pure _) (.bind (.modify fun _ => rfl) fun _ => .pure _)
  have hinsert : Keeps Sys.setup (cycleInsert E p.dev p.ino p.addr) :=
    .bind (.gets _) fun _ => .bind (.ite hinit (.pure _)) fun _ => .ite (.pure _)
      (.bind (.gets _) fun _ => .ite (.pure _) (.bind (setup_core keeps_callMalloc) fun _ =>
        .ite (.bind (.modify fun _ => rfl) fun _ => .pure _) (.pure _)))
  exact .ite (.pure _) (.bind hinsert fun _ =>
    .ite (.bind (setup_core keeps_setErrno) fun _ => .pure _) (.pure _))

theorem setup_storeName {d p : Ftsent} : Keeps Sys.setup (storeName d p : SysM ω Unit) :=
  .bind (.gets _) fun _ => .bind setup_storePath fun _ => setup_storePath

theorem setup_crashIf {b : Bool} : Keeps Sys.setup (crashIf b : SysM ω Unit) := .ite (.emit _) (.pure _)

namespace Walk

theorem setup_stat {p : Ftsent} {anc : List Ftsent} {follow : Bool} {dfd : Option Fd} :
    Keeps Sys.setup (stat E p anc follow dfd) := fun s =>
  congrArg (fun c : Sys Unit => (({ c.opts with stop := false, nameonly := false } : Options), c.compar, c.rfd, c.dev))
    (stat_does (E := E) p anc follow dfd s).2.1

theorem setup_buildFail {fd : Fd} : Keeps Sys.setup (buildFail E fd) :=
  .bind (.gets _) fun _ => .bind (setup_core keeps_callClosedir) fun _ =>
    .bind setup_setStop fun _ => setup_core keeps_setErrno

theorem setup_growPath {len : ℕ} {freed : Option NodeId} {a : Acc} {dnamlen : ℕ} :
    Keeps Sys.setup (growPath E len freed a dnamlen) :=
  .ite (.bind (.gets _) fun _ => .bind setup_palloc fun _ => .ite (.pure _) (.bind (.gets _) fun _ =>
    .ite (.bind setup_crashIf fun _ => .pure _) (.pure _))) (.pure _)

theorem setup_buildInfo {C : BuildCtx} {fs : List Frame} {nlinks : ℤ} {p : Ftsent} {type : DType} :
    Keeps Sys.setup (buildInfo E C fs nlinks p type) :=
  .bind (.gets _) fun _ => .ite (.pure _) (.ite (.pure _) (.bind
    (.ite (.bind setup_storePath fun _ => setup_stat) setup_stat) fun _ => .pure _))

theorem setup_buildLoop {C : BuildCtx} {freed : Option NodeId} (dps : List Dirent) :
    ∀ a : Acc, Keeps Sys.setup (buildLoop E C freed dps a) := by
  induction dps with
  | nil => exact fun a => .pure _
  | cons dp dps ih =>
    refine fun a => .bind (.gets _) fun _ => .ite (ih a) (.bind setup_allocNode fun r => ?_)
    cases r with
    | none => exact .bind setup_buildFail fun _ => .pure _
    | some p =>
      refine .bind setup_growPath fun fa => .ite (.bind setup_buildFail fun _ => .pure _)
        (.bind (.gets _) fun _ => .ite ?_ (.bind setup_buildInfo fun _ => ih _))
      exact .bind (setup_core keeps_setErrno) fun _ => .bind setup_buildFail fun _ => .pure _

theorem setup_sortIfAsked {head : List Ftsent} {n : ℕ} : Keeps Sys.setup (sortIfAsked E head n) := by
  refine .bind (.gets _) fun s => ?_
  cases s.compar with
  | none => exact .pure _
  | some cmp => exact .ite (.bind setup_growArray fun _ => .ite (.pure _) (.pure _)) (.pure _)

theorem setup_changeToParent {up : List Frame} : Keeps Sys.setup (changeToParent E up) := by
  cases up with
  | nil => exact .pure _
  | cons g up => exact setup_core keeps_safeChangedir

theorem setup_buildReturn {type : BuildType} {z : Walk} {c : Ftsent} {up : List Frame} {descend : Bool}
    {head : List Ftsent} : Keeps Sys.setup (buildReturn E type z c up descend head) := by
  have hleave : Keeps Sys.setup (buildLeave E c up) :=
    .ite (.bind (.gets _) fun _ => setup_core keeps_callFchdir) setup_changeToParent
  exact .ite (.pure _) (.bind setup_sortIfAsked fun _ => .ite (.bind hleave fun _ =>
    .ite (.bind setup_setStop fun _ => .pure _) (.pure _)) (.pure _))

theorem setup_buildRead {type : BuildType} {z : Walk} {c : Ftsent} {rest : List Ftsent} {up : List Frame}
    {fd : Fd} {entries : List Dirent} {e : Errno} :
    Keeps Sys.setup (buildRead E type z c rest up fd entries e) := by
  refine .bind (.gets _) fun o => ?_
  generalize linkPlan o type c = plan
  obtain ⟨nlinks, nostat⟩ := plan
  refine .bind (.ite (setup_core keeps_safeChangedir) (.pure _)) fun _ => .bind (.ite (.gets _) (.pure _))
    fun _ => .bind (.gets _) fun _ => .bind (.ite setup_storePath (.pure _)) fun _ => .bind (.gets _) fun s => ?_
  generalize roomLeft s _ = maxlen
  refine .bind (setup_core keeps_setErrno) fun _ => .bind (setup_buildLoop _ _) fun a => ?_
  exact .ite (.pure _) (.bind (.ite (setup_core keeps_setErrno) (.pure _)) fun _ => .bind (.gets _) fun _ =>
    .ite (.bind setup_buildFail fun _ => .pure _)
      (.bind (setup_core keeps_callClosedir) fun _ => setup_buildReturn))

theorem setup_build {type : BuildType} {z : Walk} : Keeps Sys.setup (build E type z) := by
  unfold build
  cases z.frames with
  | nil => exact .pure _
  | cons f up =>
    refine .ite (.bind (setup_core keeps_setErrno) fun _ => .bind setup_setStop fun _ => .pure _)
      (.bind (.gets _) fun _ => .bind (setup_core keeps_openDir) fun r => ?_)
    cases r with
    | error ie => exact .pure _
    | ok d => exact setup_buildRead

theorem setup_followLink {p : Ftsent} {anc : List Ftsent} : Keeps Sys.setup (followLink E p anc) :=
  .bind setup_stat fun _ => setup_core keeps_openSymfd

theorem setup_readName {z : Walk} {p : Ftsent} {rest : List Ftsent} {up : List Frame} :
    Keeps Sys.setup (readName z p rest up : SysM ω (Option NodeId × Walk)) := by
  cases up with
  | nil => exact .pure _
  | cons f up => exact .bind setup_storeName fun _ => .pure _

theorem setup_ascend {p : Ftsent} {up : List Frame} : Keeps Sys.setup (ascend E p up) :=
  .ite (setup_core keeps_backToStart) (.ite (setup_core keeps_leaveSymfd) (.ite (.pure _) setup_changeToParent))

end Walk

end MuslBsd.Fts
