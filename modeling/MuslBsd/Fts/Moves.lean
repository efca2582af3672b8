import MuslBsd.Fts.Setup

/-! One call of `fts_read` on the current path: which of its ways it takes, with the right verdicts on
directories. -/
namespace MuslBsd.Fts
open MuslBsd.Support Traced

variable {ω : Type} {E : Env ω}

/-- The current node once `fts_read` has taken its instruction. -/
def Ftsent.taken (n : Ftsent) : Ftsent := { n with instr := .noinstr }

/-- An entry `q` that becomes current: `p`, as it is or after `FTS_FOLLOW`. -/
inductive Arrives (E : Env ω) (anc : List Ftsent) (p : Ftsent) : Ftsent → Prop
  | asIs (hi : p.instr ≠ .follow) : Arrives E anc p p
  | followed {cs : CycleState} {q : Ftsent} (hi : p.instr = .follow) (hq : Walk.Followed E cs anc p q) :
    Arrives E anc p q.taken

/-- A root `q` that `fts_load` has made of `p`. -/
structure Loaded (p q : Ftsent) : Prop where
  entry : q.entry = p.entry
  info : q.info = p.info
  instr : q.instr = p.instr
  level : q.level = p.level

/-- `fts_read` leaves a node with the siblings `rest` and the path `up`: what it returns, and the path
afterwards. -/
inductive Leave (E : Env ω) (rest : List Ftsent) (up : List Frame) (s' : Sys ω) :
    Option NodeId → List Frame → Prop
  | stops {fs : List Frame} (hstop : s'.opts.stop = true) : Leave E rest up s' none fs
  | finishes (hup : up = []) : Leave E rest up s' none []
  | steps {pre post : List Ftsent} {p q : Ftsent} (hr : rest = pre ++ p :: post)
      (hp : p.level ≠ rootLevel) (hq : Arrives E (pathNodes up) p q) :
    Leave E rest up s' (some p.addr) (⟨q, post⟩ :: up)
  | roots {pre post : List Ftsent} {p q : Ftsent} (hr : rest = pre ++ p :: post)
      (hp : p.level = rootLevel) (hq : Loaded p q) (hd : s'.dev = p.dev) :
    Leave E rest up s' (some q.addr) [⟨q, post⟩]
  | ascends {p : Ftsent} {prest : List Ftsent} {up' : List Frame} (hup : up = ⟨p, prest⟩ :: up') :
    Leave E rest up s' (some p.addr)
      (⟨{ p with info := if p.errno ≠ 0 then .err else .dp }, prest⟩ :: up')

/-- A sibling is skipped first. -/
theorem Leave.skip {rest : List Ftsent} {up : List Frame} {s' : Sys ω} {r : Option NodeId}
    {fs : List Frame} (h : Leave E rest up s' r fs) (p : Ftsent) : Leave E (p :: rest) up s' r fs := by
  cases h with
  | stops hstop => exact .stops hstop
  | finishes hup => exact .finishes hup
  | steps hr hp hq => exact .steps (by rw [hr, List.cons_append]) hp hq
  | roots hr hp hq hd => exact .roots (by rw [hr, List.cons_append]) hp hq hd
  | ascends hup => exact .ascends hup

/-- `fts_read` on a current node `n` with the siblings `rest` and the path `up`, in a stream with the
nodes `z`. -/
inductive Move (E : Env ω) (z : Walk) (n : Ftsent) (rest : List Ftsent) (up : List Frame) (s s' : Sys ω) :
    Option NodeId → List Frame → Prop
  | stops {fs : List Frame} (hstop : s'.opts.stop = true) : Move E z n rest up s s' none fs
  | lost {fs : List Frame} (hfreed : z.freed.isSome = true) : Move E z n rest up s s' none fs
  | again {q : Ftsent} {i : Info} (hn : n.instr = .again)
      (hq : Stated E s.cycles (pathNodes up) n.taken q i) :
    Move E z n rest up s s' (some n.addr) (⟨{ q with info := i }, rest⟩ :: up)
  | follows {q : Ftsent} (hn : n.instr = .follow) (hi : n.info = .sl ∨ n.info = .slnone)
      (hq : Walk.Followed E s.cycles (pathNodes up) n.taken q) :
    Move E z n rest up s s' (some n.addr) (⟨q, rest⟩ :: up)
  | closes {c : Ftsent} {fs : List Frame} (hn : n.info = .d) (hk : Kept n.taken rest up fs c)
      (hc : c.info.closes = true) : Move E z n rest up s s' (some n.addr) fs
  | enters {cs : CycleState} {c k : Ftsent} {ks : List Ftsent} {fs : List Frame} (hn : n.info = .d)
      (hi : n.instr ≠ .skip) (hx : s.opts.xdev = true → n.dev = s.dev)
      (hk : Kept n.taken rest up fs c) (hc : c.info = .d)
      (he : ∀ m ∈ k :: ks, Entry E cs (n.taken :: pathNodes up) m) (hl : E.Lists (k :: ks).length) :
    Move E z n rest up s s' (some k.addr) (⟨k, ks⟩ :: fs)
  | resumes {c k : Ftsent} {ks : List Ftsent} (hn : n.info = .d) (hi : n.instr ≠ .skip)
      (hx : s.opts.xdev = true → n.dev = s.dev) (hc : c.unread = n.taken.unread) (hd : c.info = .d)
      (hk : (k :: ks).map Ftsent.bare = z.child.map Ftsent.bare) :
    Move E z n rest up s s' (some k.addr) (⟨k, ks⟩ :: ⟨c, rest⟩ :: up)
  | leaves {r : Option NodeId} {fs : List Frame} (hn : n.info ≠ .d) (hl : Leave E rest up s' r fs) :
    Move E z n rest up s s' r fs

/-- What a read leaves of a stream with the nodes `z`. -/
structure Moved (E : Env ω) (z : Walk) (n : Ftsent) (rest : List Ftsent) (up : List Frame) (s s' : Sys ω)
    (r : Option NodeId × Walk) : Prop where
  move : Move E z n rest up s s' r.1 r.2.frames
  covered : Covered s'.cycles (pathNodes r.2.frames)
  options : s'.setup.1 = s.setup.1
  idle : z.child = [] → z.freed = none → r.2.child = [] ∧ r.2.freed = none

/-- What a call of the operations leaves alone. -/
def Sys.held (s : Sys ω) : CycleState × Options × Option Compar × Fd × ℕ := (s.cycles, s.setup)

theorem held_of {α : Type} {m : SysM ω α} (hc : Keeps Sys.cycles m) (hs : Keeps Sys.setup m) :
    Keeps Sys.held m := fun s =>
  Prod.ext (hc s) (hs s)

theorem held_core {α : Type} {m : SysM ω α} (h : Keeps Sys.core m) : Keeps Sys.held m :=
  held_of (keeps_cycles h) (setup_core h)

theorem held_eq {s s' : Sys ω} (h : s'.core = s.core) : s'.held = s.held :=
  congrArg (fun c : Sys Unit => (c.cycles,
    ({ c.opts with stop := false, nameonly := false } : Options), c.compar, c.rfd, c.dev)) h

theorem held_storePath {off : ℕ} {bs : List Byte} : Keeps Sys.held (storePath off bs : SysM ω Unit) :=
  fun _ => rfl

theorem pops_of_closes {i : Info} (h : i.closes = true) : i.pops = true := by
  cases i <;> first | rfl | cases h

namespace Walk

variable {z : Walk} {n : Ftsent} {rest : List Ftsent} {up : List Frame} {s : Sys ω}

/-- What `readName` does to the path. -/
theorem readName_does (z : Walk) (p : Ftsent) (l : List Ftsent) (fs : List Frame) (s : Sys ω) :
    Does Act.Right (readName z p l fs) s fun r s' => s'.held = s.held ∧
      r = (some p.addr, { z with frames := ⟨p, l⟩ :: fs }) := by
  cases fs with
  | nil => exact .pure ⟨rfl, rfl⟩
  | cons f fs =>
    exact does_quiet (held_of (fun _ => rfl) setup_storeName) quiet_storeName (fun _ => Act.Quiet.right)
      fun _ s' h => .pure ⟨h, rfl⟩

theorem popped {s : Sys ω} {n : Ftsent} {path : List Ftsent} (hc : Covered s.cycles (n :: path)) :
    Does Act.Right (ftsCyclePop n : SysM ω Unit) s fun _ s' =>
      Covered s'.cycles path ∧ s'.setup = s.setup := by
  refine ⟨fun e he => (quiet_cyclePop s e he).right, ?_, setup_cyclePop s⟩
  rw [out_cyclePop]
  exact hc.pop

/-- What leaving a node makes of the stream. -/
structure Left (E : Env ω) (z : Walk) (rest : List Ftsent) (up : List Frame) (s s' : Sys ω)
    (r : Option NodeId × Walk) : Prop where
  leave : Leave E rest up s' r.1 r.2.frames
  covered : Covered s'.cycles (pathNodes r.2.frames)
  options : s'.setup.1 = s.setup.1
  child : r.2.child = z.child
  freed : r.2.freed = z.freed

theorem held_ascend {p : Ftsent} {fs : List Frame} : Keeps Sys.held (ascend E p fs) := by
  refine .ite (held_core keeps_backToStart) (.ite (held_core keeps_leaveSymfd) (.ite (.pure _) ?_))
  cases fs with
  | nil => exact .pure _
  | cons g fs => exact held_core keeps_safeChangedir

theorem quiet_ascend {p : Ftsent} {fs : List Frame} : Writes Act.Quiet (ascend E p fs) := by
  refine .ite calling_quiet.backToStart (.ite calling_quiet.leaveSymfd (.ite (.pure _) ?_))
  cases fs with
  | nil => exact .pure _
  | cons g fs => exact calling_quiet.safeChangedir

/-- On the way up a directory keeps its entry in the cycle table. -/
theorem covered_ascend {cs : CycleState} {p : Ftsent} {path : List Ftsent} (h : Covered cs (p :: path)) :
    Covered cs ({ p with info := if p.errno ≠ 0 then .err else .dp } :: path) :=
  h.change ⟨rfl, fun _ => by dsimp only; split <;> rfl⟩

theorem readUp_does (hc : Covered s.cycles (n :: pathNodes up)) :
    Does Act.Right (readUp E z n up) s fun r s' => Left E z rest up s s' r := by
  have hq : ∀ e : Act, e.Quiet → e.Right := fun _ => Act.Quiet.right
  refine .bind (popped hc) fun _ s₁ h₁ => ?_
  have hopts : ∀ s' : Sys ω, s'.held = s₁.held → s'.setup.1 = s.setup.1 := fun s' h =>
    (congrArg (fun x => x.2.1) h).trans (congrArg Prod.fst h₁.2)
  have hcov : ∀ s' : Sys ω, s'.held = s₁.held → Covered s'.cycles (pathNodes up) := fun s' h => by
    rw [show s'.cycles = s₁.cycles from congrArg Prod.fst h]
    exact h₁.1
  cases up with
  | nil =>
    cases z.root with
    | none => exact .modify (.pure ⟨.finishes rfl, hcov s₁ rfl, hopts s₁ rfl, rfl, rfl⟩)
    | some r =>
      exact does_quiet held_storePath quiet_storePath hq fun _ s₂ h₂ =>
        .modify (.pure ⟨.finishes rfl, hcov s₂ h₂, hopts s₂ h₂, rfl, rfl⟩)
  | cons f up =>
    refine does_quiet held_storePath quiet_storePath hq fun _ s₂ h₂ =>
      does_quiet held_ascend quiet_ascend hq fun failed s₃ h₃ => .ite (fun _ => ?_) fun _ => .pure ?_
    · exact .modify (.pure ⟨.stops rfl, hcov s₃ (h₃.trans h₂), hopts s₃ (h₃.trans h₂), rfl, rfl⟩)
    · exact ⟨.ascends rfl, covered_ascend (hcov s₃ (h₃.trans h₂)), hopts s₃ (h₃.trans h₂), rfl, rfl⟩

theorem loadRoot_does (p : Ftsent) (s : Sys ω) : Does Act.Right (loadRoot p) s fun q s' =>
    Loaded p q ∧ s'.cycles = s.cycles ∧ s'.setup.1 = s.setup.1 ∧ s'.dev = p.dev := by
  refine .bind (p := fun _ s₁ => s₁.cycles = s.cycles ∧ s₁.setup.1 = s.setup.1)
    ⟨fun e he => (quiet_storePath s e he).right, rfl, rfl⟩ fun _ s₁ h₁ => .gets (.modify (.pure ?_))
  exact ⟨⟨rfl, rfl, rfl, rfl⟩, h₁.1, h₁.2, rfl⟩

theorem readRoot_does {pre post : List Ftsent} {p : Ftsent} (hr : rest = pre ++ p :: post)
    (hp : p.level = rootLevel) (hc : Covered s.cycles []) :
    Does Act.Right (readRoot E z p post) s fun r s' => Left E z rest up s s' r := by
  refine does_quiet (held_core keeps_backToStart) calling_quiet.backToStart (fun _ => Act.Quiet.right)
    fun failed s₁ h₁ => .ite (fun _ => ?_) fun _ => .bind (loadRoot_does p s₁) ?_
  · have hcyc : s₁.cycles = s.cycles := congrArg Prod.fst h₁
    exact .modify (.pure ⟨.stops rfl, (hcyc ▸ hc).cons p, congrArg (fun x => x.2.1) h₁, rfl, rfl⟩)
  · rintro q s₂ ⟨hq, hcyc, hset, hdev⟩
    have hcov : Covered s₂.cycles [] := by
      rw [hcyc, show s₁.cycles = s.cycles from congrArg Prod.fst h₁]
      exact hc
    exact .pure ⟨.roots hr hp hq hdev, hcov.cons q, hset.trans (congrArg (fun x => x.2.1) h₁), rfl, rfl⟩

theorem Left.skip {p : Ftsent} {post : List Ftsent} {s₁ s' : Sys ω} {r : Option NodeId × Walk}
    (h : Left E z post up s₁ s' r) (hs : s₁.setup = s.setup) : Left E z (p :: post) up s s' r :=
  ⟨h.leave.skip p, h.covered, h.options.trans (congrArg Prod.fst hs), h.child, h.freed⟩

theorem readNext_does (rest : List Ftsent) : ∀ (n : Ftsent) (s : Sys ω),
    Covered s.cycles (n :: pathNodes up) → (∀ p ∈ rest, p.level = rootLevel → up = []) →
    Does Act.Right (readNext E z n up rest) s fun r s' => Left E z rest up s s' r := by
  induction rest with
  | nil => exact fun n s hc _ => readUp_does hc
  | cons p rest ih =>
    intro n s hc hroot
    refine .bind (popped hc) fun _ s₁ h₁ => .ite (fun hp => ?_) fun hp => .ite (fun hi => ?_) fun hi =>
      .ite (fun hi => ?_) fun hi => ?_
    · obtain rfl := hroot p List.mem_cons_self hp
      exact (readRoot_does (show p :: rest = [] ++ p :: rest from rfl) hp h₁.1).mono fun r s' h =>
        ⟨h.leave, h.covered, h.options.trans (congrArg Prod.fst h₁.2), h.child, h.freed⟩
    · exact (ih p s₁ (h₁.1.cons p) fun q hq => hroot q (List.mem_cons_of_mem _ hq)).mono fun r s' h =>
        h.skip h₁.2
    · refine .bind ((followLink_does p (pathNodes up) s₁).weaken fun e he => he.right h₁.1) ?_
      rintro q s₂ ⟨hcore, hq⟩
      have hheld : s₂.held = s₁.held := held_eq hcore
      refine (readName_does z q.taken rest up s₂).mono ?_
      rintro _ s₃ ⟨h₃, rfl⟩
      have h := h₃.trans hheld
      refine ⟨?_, ?_, (congrArg (fun x => x.2.1) h).trans (congrArg Prod.fst h₁.2), rfl, rfl⟩
      · have haddr : q.taken.addr = p.addr := (congrArg Ftsent.addr hq.still :)
        rw [haddr]
        exact .steps (show p :: rest = [] ++ p :: rest from rfl) hp (.followed hi hq)
      · rw [show s₃.cycles = s₁.cycles from congrArg Prod.fst h]
        exact h₁.1.cons _
    · refine (readName_does z p rest up s₁).mono ?_
      rintro _ s₂ ⟨h₂, rfl⟩
      refine ⟨.steps (show p :: rest = [] ++ p :: rest from rfl) hp (.asIs hi), ?_,
        (congrArg (fun x => x.2.1) h₂).trans (congrArg Prod.fst h₁.2), rfl, rfl⟩
      rw [show s₂.cycles = s₁.cycles from congrArg Prod.fst h₂]
      exact h₁.1.cons _

/-- A directory `n` is entered that `fts_children` has not read. -/
theorem readFresh_does {z₀ : Walk} {s₀ : Sys ω} (hz : z.frames = ⟨n.taken, rest⟩ :: up) (hn : n.info = .d)
    (hi : n.instr ≠ .skip) (hx : s₀.opts.xdev = true → n.dev = s₀.dev)
    (hc : Covered s.cycles (n.taken :: pathNodes up)) (hs : s.setup = s₀.setup)
    (hidle : z₀.child = [] → z₀.freed = none → z.child = [] ∧ z.freed = none) :
    Does Act.Right (readFresh E z n.taken) s fun r s' => Moved E z₀ n rest up s₀ s' r := by
  have hcov : Covered s.cycles (pathNodes z.frames) := by
    rw [hz]
    exact hc
  have hbuild : Does Act.Right (build E .bread z) s fun r s₁ => s₁.held = s.held ∧
      Scanned E s.cycles .bread z n.taken rest up r.1 r.2 := by
    have hb : Does Act.Right (build E .bread z) s _ := build_does hz hcov
    exact ⟨hb.1, Prod.ext hb.2.1 (setup_build s), hb.2.2⟩
  refine .bind hbuild ?_
  rintro ⟨kids, z'⟩ s₁ ⟨h₁, hsc⟩
  obtain ⟨c, hk, hsome, hnone⟩ := hsc.frames
  have hcyc : s₁.cycles = s.cycles := congrArg Prod.fst h₁
  have hset : s₁.setup.1 = s₀.setup.1 := (congrArg (fun x => x.2.1) h₁).trans (congrArg Prod.fst hs)
  have hidle' : z₀.child = [] → z₀.freed = none → z'.child = [] ∧ z'.freed = none := fun h h' => by
    rw [hsc.child, hsc.freed]
    exact hidle h h'
  cases kids with
  | nil =>
    have hclose : c.info.closes = true := (hnone rfl).resolve_right fun h => h.1 rfl
    have hcov₁ : Covered s₁.cycles (pathNodes z'.frames) :=
      hcyc ▸ hk.covered hc fun _ => pops_of_closes hclose
    refine .gets (.ite (fun hstop => .pure ?_) fun _ => .pure ?_)
    · exact ⟨.stops hstop, hcov₁, hset, hidle'⟩
    · exact ⟨.closes hn hk hclose, hcov₁, hset, hidle'⟩
  | cons k ks =>
    have hd : c.info = .d := (hsome (by simp)).trans hn
    have hcov₁ : Covered s₁.cycles (pathNodes z'.frames) :=
      hcyc ▸ hk.covered hc fun _ => by rw [hd]; rfl
    refine (readName_does z' k ks z'.frames s₁).mono ?_
    rintro _ s₂ ⟨h₂, rfl⟩
    refine ⟨.enters hn hi hx hk hd hsc.entries (hsc.length.resolve_left (by simp)), ?_,
      (congrArg (fun x => x.2.1) h₂).trans hset, hidle'⟩
    rw [show s₂.cycles = s₁.cycles from congrArg Prod.fst h₂]
    exact hcov₁.cons k

/-- A directory `n` is entered that `fts_children` has read. -/
theorem readPending_does {s₀ : Sys ω} (hn : n.info = .d) (hi : n.instr ≠ .skip)
    (hx : s₀.opts.xdev = true → n.dev = s₀.dev) (hc : Covered s.cycles (n.taken :: pathNodes up))
    (hs : s.setup = s₀.setup) (hp : z.freed.isSome = true ∨ z.child ≠ []) :
    Does Act.Right (readPending E { z with frames := ⟨n.taken, rest⟩ :: up } n.taken rest up) s
      fun r s' => Moved E z n rest up s₀ s' r := by
  have hq : ∀ e : Act, e.Quiet → e.Right := fun _ => Act.Quiet.right
  have hcrash : ∀ b, Keeps Sys.held (crashIf b : SysM ω Unit) := fun b => .ite (.emit _) (.pure _)
  refine .gets (does_quiet (held_core keeps_safeChangedir) calling_quiet.safeChangedir hq
    fun failed s₁ h₁ => .gets ?_)
  generalize Sys.errno s₁ = e
  have hidle : z.child = [] → z.freed = none → False := fun h h' => by
    rw [h, h'] at hp
    exact hp.elim (by simp) (by simp)
  dsimp only
  have hset : s₁.setup.1 = s₀.setup.1 := (congrArg (fun x => x.2.1) h₁).trans (congrArg Prod.fst hs)
  have hc₁ : Covered s₁.cycles (n.taken :: pathNodes up) := by
    rw [show s₁.cycles = s.cycles from congrArg Prod.fst h₁]
    exact hc
  generalize hcur : (if failed then { n.taken with errno := e, dontchdir := true } else n.taken) = c
  have hunread : c.unread = n.taken.unread := by
    rw [← hcur]
    split <;> rfl
  have hd : c.info = .d := by
    rw [← hcur]
    split <;> exact hn
  have hentry : c.entry = n.taken.entry := (congrArg Ftsent.entry hunread :)
  have hcc : Covered s₁.cycles (c :: pathNodes up) := hc₁.change ⟨hentry, fun _ => by rw [hd]; rfl⟩
  cases hch : z.child with
  | nil =>
    refine does_quiet (hcrash _) (crashIf_quiet _) hq fun _ s₂ h₂ => .pure ?_
    refine ⟨.lost (hp.resolve_right fun h => h hch), ?_, (congrArg (fun x => x.2.1) h₂).trans hset,
      fun h h' => (hidle h h').elim⟩
    rw [show s₂.cycles = s₁.cycles from congrArg Prod.fst h₂]
    exact hc₁
  | cons k ks =>
    refine does_quiet (hcrash _) (crashIf_quiet _) hq fun _ s₂ h₂ => ?_
    refine (readName_does _ _ _ _ s₂).mono ?_
    rintro _ s₃ ⟨h₃, rfl⟩
    refine ⟨.resumes hn hi hx hunread hd ?_, ?_,
      (congrArg (fun x => x.2.1) (h₃.trans h₂)).trans hset, fun h h' => (hidle h h').elim⟩
    · have hbare : ∀ m : Ftsent, (if failed then { m with accpath := c.accpath } else m).bare = m.bare := by
        intro m
        split <;> rfl
      rw [hch]
      refine congrArg₂ List.cons (hbare k) ?_
      rw [List.map_map]
      exact List.map_congr_left fun m _ => hbare m
    · rw [show s₃.cycles = s₁.cycles from congrArg Prod.fst (h₃.trans h₂)]
      exact hcc.cons _

theorem readDir_does {z : Walk} {n : Ftsent} {rest : List Ftsent} {up : List Frame} {s : Sys ω}
    (hn : n.info = .d) (hc : Covered s.cycles (n.taken :: pathNodes up)) :
    Does Act.Right (readDir E z n.taken rest up n.instr) s fun r s' => Moved E z n rest up s s' r := by
  have hq : ∀ e : Act, e.Quiet → e.Right := fun _ => Act.Quiet.right
  have hcrash : ∀ b, Keeps Sys.held (crashIf b : SysM ω Unit) := fun b => .ite (.emit _) (.pure _)
  refine .gets (.ite (fun _ => ?_) fun hgo => ?_)
  · refine does_quiet (held_core keeps_closeSymfd) calling_quiet.closeSymfd hq fun _ s₁ h₁ => ?_
    refine does_quiet (hcrash _) (crashIf_quiet _) hq fun _ s₂ h₂ => ?_
    have h := h₂.trans h₁
    have hc₂ : Covered s₂.cycles (n.taken :: pathNodes up) := by
      rw [show s₂.cycles = s.cycles from congrArg Prod.fst h]
      exact hc
    refine .bind (popped hc₂) fun _ s₃ h₃ => .emit trivial (.pure ?_)
    exact ⟨.closes hn (.mark (q := { n.taken with info := .dp }) rfl) rfl, h₃.1.cons _,
      (congrArg Prod.fst h₃.2).trans (congrArg (fun x => x.2.1) h), fun _ _ => ⟨rfl, rfl⟩⟩
  · have hskip : n.instr ≠ .skip := fun h => hgo (.inl h)
    have hx : s.opts.xdev = true → n.dev = s.dev := fun h => not_not.mp fun hd => hgo (.inr ⟨h, hd⟩)
    refine .bind (p := fun _ s₁ => Covered s₁.cycles (n.taken :: pathNodes up) ∧ s₁.setup = s.setup)
      ⟨fun e he => (quiet_cyclePush s e he).right, hc.push hn rfl, setup_cyclePush s⟩ fun failed s₁ h₁ => ?_
    refine .ite (fun _ => .modify (.gets (.pure ?_))) fun _ => .ite (fun hp => .ite (fun _ => ?_) fun _ => ?_)
      fun hp => ?_
    · refine ⟨.closes hn (.mark rfl) rfl, h₁.1.change ⟨rfl, fun _ => rfl⟩, congrArg Prod.fst h₁.2, fun h h' => ⟨h, h'⟩⟩
    · refine .modify (does_quiet (hcrash _) (crashIf_quiet _) hq fun _ s₂ h₂ => ?_)
      refine readFresh_does rfl hn hskip hx ?_ ?_ fun _ _ => ⟨rfl, rfl⟩
      · rw [show s₂.cycles = s₁.cycles from congrArg Prod.fst h₂]
        exact h₁.1
      · exact (congrArg Prod.snd h₂ :).trans h₁.2
    · refine readPending_does hn hskip hx h₁.1 h₁.2 ?_
      simpa [List.isEmpty_iff] using hp
    · refine readFresh_does rfl hn hskip hx h₁.1 h₁.2 fun h h' => ⟨h, h'⟩

/-- A call of `fts_read` on a stream that has not stopped gives the right verdicts, as long as
`FTS_AGAIN` is not carried out on a node with an entry in the cycle table. -/
theorem read_does (hz : z.frames = ⟨n, rest⟩ :: up) (hstop : s.opts.stop = false)
    (hc : Covered s.cycles (pathNodes z.frames)) (hroot : ∀ p ∈ rest, p.level = rootLevel → up = [])
    (hagain : n.instr = .again → Covered s.cycles (pathNodes up)) :
    Does Act.Right (read E z) s fun r s' => Moved E z n rest up s s' r := by
  have hcn : Covered s.cycles (n :: pathNodes up) := by
    rw [hz] at hc
    exact hc
  have hct : Covered s.cycles (n.taken :: pathNodes up) := hcn.change ⟨rfl, id⟩
  unfold read
  rw [hz]
  refine .gets (.ite (fun h => absurd (hstop.symm.trans h) (by decide)) fun _ => ?_)
  refine .ite (fun hi => ?_) fun _ => .ite (fun hi => ?_) fun _ => .ite (fun hd => ?_) fun hd => ?_
  · refine .bind ((stat_does n.taken (pathNodes up) false none s).weaken fun e he => he.right (hagain hi)) ?_
    rintro ⟨i, q⟩ s₁ ⟨hcore, hq⟩
    have hheld := held_eq hcore
    refine .pure ⟨.again hi hq, ?_, congrArg (fun x => x.2.1) hheld, fun h h' => ⟨h, h'⟩⟩
    rw [show s₁.cycles = s.cycles from congrArg Prod.fst hheld]
    exact (hagain hi).cons _
  · have hup : Covered s.cycles (pathNodes up) := hcn.of_not_pops (by
      rcases hi.2 with h | h
      · rw [h]
        rfl
      · rw [h]
        rfl)
    refine .bind ((followLink_does n.taken (pathNodes up) s).weaken fun e he => he.right hup) ?_
    rintro q s₁ ⟨hcore, hq⟩
    have hheld := held_eq hcore
    refine .pure ⟨.follows hi.1 hi.2 hq, ?_, congrArg (fun x => x.2.1) hheld, fun h h' => ⟨h, h'⟩⟩
    rw [show s₁.cycles = s.cycles from congrArg Prod.fst hheld]
    exact hup.cons _
  · exact readDir_does hd hct
  · exact (readNext_does rest n.taken s hct hroot).mono fun r s' h =>
      ⟨.leaves hd h.leave, h.covered, h.options, fun h₁ h₂ => ⟨h.child.trans h₁, h.freed.trans h₂⟩⟩

end Walk

end MuslBsd.Fts
