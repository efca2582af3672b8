import MuslBsd.Fts.Moves
import MuslBsd.Fts.Runs
import MuslBsd.Fts.Static.Tree

/-! Cycle detection over whole runs: the cycle table never knows a directory that the scan of the
ancestors in `fts_stat` would not find, as long as no node with an entry is stat'ed again. -/
namespace MuslBsd.Fts
open MuslBsd.Support Traced

variable {ω : Type} {E : Env ω}

namespace Walk

variable {z : Walk} {n : Ftsent} {rest : List Ftsent} {up : List Frame} {s : Sys ω}

/-- What `fts_children` leaves: a path that stands where it stood. -/
theorem childrenDir_does {type : BuildType} (hz : z.frames = ⟨n, rest⟩ :: up) (hn : n.info = .d)
    (hc : Covered s.cycles (pathNodes z.frames)) :
    Does Act.Right (childrenDir E z n up type) s fun r s' =>
      Covered s'.cycles (pathNodes r.2.frames) := by
  have hq : ∀ e : Act, e.Quiet → e.Right := fun _ => Act.Quiet.right
  have hbuild : ∀ s₁ : Sys ω, s₁.cycles = s.cycles → Does Act.Right (build E type z) s₁ fun r s₂ =>
      Covered s₂.cycles (pathNodes r.2.frames) := by
    intro s₁ h₁
    refine (build_does hz (h₁ ▸ hc)).mono fun r s₂ h₂ => ?_
    obtain ⟨c, hk, hsome, hnone⟩ := h₂.2.frames
    rw [h₂.1, h₁]
    rw [hz] at hc
    refine hk.covered hc fun _ => ?_
    by_cases hr : r.1 = []
    · rcases hnone hr with h | h
      · exact pops_of_closes h
      · rw [h.2, hn]
        rfl
    · rw [hsome hr, hn]
      rfl
  have hrel : Does Act.Right (accIsRelative n (pathNodes up) : SysM ω Bool) s fun _ s' => s'.cycles = s.cycles := by
    refine .gets ?_
    generalize accArgOf _ n _ = arg
    cases arg with
    | str t => exact .pure rfl
    | null => exact does_quiet (g := Sys.cycles) (.ite (.emit _) (.pure _)) (crashIf_quiet _) hq fun _ _ h => .pure h
    | wild => exact does_quiet (g := Sys.cycles) (.ite (.emit _) (.pure _)) (crashIf_quiet _) hq fun _ _ h => .pure h
  refine .gets (.bind (p := fun _ s₁ => s₁.cycles = s.cycles) (.ite (fun _ => hrel) fun _ => .pure rfl) ?_)
  refine fun relative s₁ h₁ => .ite (fun _ => ?_) fun _ => .bind (hbuild s₁ h₁) fun r s₂ h₂ => .pure h₂
  refine does_quiet (keeps_cycles keeps_callOpen) (calling_quiet.callOpen _ _) hq fun r s₂ h₂ => ?_
  cases r with
  | none =>
    refine .pure ?_
    rw [show s₂.cycles = s.cycles from h₂.trans h₁]
    exact hc
  | some cwd =>
    refine .bind (hbuild s₂ (h₂.trans h₁)) fun r s₃ h₃ => ?_
    refine does_quiet (keeps_cycles keeps_callFchdir) (calling_quiet.callFchdir _) hq fun _ s₄ h₄ => ?_
    refine does_quiet (keeps_cycles keeps_callClose) (calling_quiet.callClose _) hq fun _ s₅ h₅ => .pure ?_
    rw [show s₅.cycles = s₃.cycles from h₅.trans h₄]
    exact h₃

theorem children_does (instr : ℤ) (hc : Covered s.cycles (pathNodes z.frames)) :
    Does Act.Right (children E instr z) s fun r s' => Covered s'.cycles (pathNodes r.2.frames) := by
  have hq : ∀ e : Act, e.Quiet → e.Right := fun _ => Act.Quiet.right
  refine .ite (fun _ => .modify (.pure hc)) fun _ => ?_
  cases hz : z.frames with
  | nil => exact .pure hc
  | cons f up =>
    obtain ⟨n, rest⟩ := f
    refine .gets (.ite (fun _ => .pure hc) fun _ => .ite (fun _ => .pure hc) fun _ =>
      .ite (fun _ => .modify (.pure hc)) fun hd => ?_)
    have hn : n.info = .d := not_not.mp hd
    refine does_quiet (g := Sys.cycles) (.ite (.emit _) (.pure _)) (crashIf_quiet _) hq fun _ s₁ h₁ => ?_
    refine does_quiet (g := Sys.cycles) (.ite (fun _ => rfl) (.pure _)) (.ite (.modify _) (.pure _)) hq
      fun _ s₂ h₂ => ?_
    have hc₂ : Covered s₂.cycles (n :: pathNodes up) := by
      rw [show s₂.cycles = s.cycles from h₂.trans h₁]
      rw [hz] at hc
      exact hc
    refine .bind (p := fun _ s₃ => Covered s₃.cycles (n :: pathNodes up))
      ⟨fun e he => (quiet_cyclePush s₂ e he).right, hc₂.push hn rfl⟩ fun failed s₃ h₃ => ?_
    exact .ite (fun _ => .modify (.pure h₃)) fun _ => childrenDir_does rfl hn h₃

theorem set_does (a : NodeId) (instr : ℤ) (hc : Covered s.cycles (pathNodes z.frames)) :
    Does Act.Right (set a instr z) s fun r s' => Covered s'.cycles (pathNodes r.2.frames) := by
  unfold set
  cases Instr.ofInt? instr with
  | none => exact .modify (.pure hc)
  | some i =>
    refine does_quiet (g := Sys.cycles) (.ite (.emit _) (.pure _)) (crashIf_quiet _) (fun _ => Act.Quiet.right)
      fun _ s₁ h₁ => .pure ?_
    rw [h₁]
    change Covered s.cycles (pathNodes (z.frames.map (Frame.map _)))
    rw [pathNodes_map]
    refine hc.mono fun m hm => ⟨_, List.mem_map_of_mem hm, ?_⟩
    dsimp only
    split
    · exact ⟨rfl, id⟩
    · exact ⟨rfl, id⟩

/-- A root that has not been read yet. -/
structure Rooted (E : Env ω) (k : Ftsent) : Prop where
  instr : k.instr = .noinstr
  names : k.info = .d → E.Names k.key

theorem Rooted.relinked {k : Ftsent} (h : Rooted E k) (i : Option NodeId) :
    Rooted E { k with link := i } :=
  ⟨h.instr, h.names⟩

theorem allocNode_does (name : CString) (s : Sys ω) :
    Does Act.Right (allocNode E name) s fun r s' => s'.cycles = s.cycles ∧
      ∀ p, r = some p → p.instr = .noinstr := by
  refine ⟨fun e he => (quiet_allocNode s e he).right, cycles_allocNode s, fun p hp => ?_⟩
  rcases allocNode_cases (E := E) name s with ⟨h, -⟩ | ⟨h, -⟩
  · rw [h] at hp
    cases hp
  · rw [h] at hp
    cases hp
    rfl

theorem openRoots_does (compar : Option Compar) (parent : NodeId) (argv : List CString) :
    ∀ (roots : List Ftsent) (s : Sys ω), Covered s.cycles [] → (∀ k ∈ roots, Rooted E k) →
      Does Act.Right (openRoots E compar parent argv roots) s fun r s' => ∀ l, r = some l →
        Covered s'.cycles [] ∧ (∀ k ∈ l, Rooted E k) ∧ l.length = roots.length + argv.length := by
  induction argv with
  | nil =>
    intro roots s hc hr
    refine .pure ?_
    rintro _ ⟨⟩
    exact ⟨hc, hr, rfl⟩
  | cons arg argv ih =>
    intro roots s hc hr
    refine .ite (fun _ => .modify (.modify (.pure (by simp)))) fun _ => .bind (allocNode_does arg s) ?_
    rintro (_ | p) s₁ ⟨h₁, hp⟩
    · exact .modify (.pure (by simp))
    · have hc₁ : Covered s₁.cycles [] := h₁ ▸ hc
      refine .gets (.bind ((stat_does { p with level := rootLevel, parent := some parent, accpath := .name p.addr }
        [] (id s₁).opts.comfollow none s₁).weaken fun e he => he.right hc₁) ?_)
      rintro ⟨i, q⟩ s₂ ⟨hcore, hq⟩
      have hc₂ : Covered s₂.cycles [] := by
        rw [show s₂.cycles = s₁.cycles from congrArg (fun c : Sys Unit => c.cycles) hcore]
        exact hc₁
      have hroot : Rooted E { q with info := if i = .dot then .d else i } := by
        refine ⟨((congrArg Ftsent.instr hq.still :) : q.instr = p.instr).trans (hp p rfl), fun hd => hq.names ?_⟩
        by_cases hi : i = .dot
        · exact .inr hi
        · exact .inl (by simpa [hi] using hd)
      dsimp only
      refine .ite (fun _ => (ih _ s₂ hc₂ (forall_relink (fun _ i h => h.relinked i) fun k hk => ?_)).mono ?_) fun _ =>
        (ih _ s₂ hc₂ (forall_relink (fun _ i h => h.relinked i) fun k hk => ?_)).mono ?_
      · rcases List.mem_cons.mp hk with rfl | hk
        · exact hroot
        · exact hr k hk
      · intro r s' h l hl
        obtain ⟨h1, h2, h3⟩ := h l hl
        refine ⟨h1, h2, h3.trans ?_⟩
        rw [length_relink, List.length_cons, List.length_cons]
        omega
      · rcases List.mem_append.mp hk with hk | hk
        · exact hr k hk
        · rw [List.mem_singleton.mp hk]
          exact hroot
      · intro r s' h l hl
        obtain ⟨h1, h2, h3⟩ := h l hl
        refine ⟨h1, h2, h3.trans ?_⟩
        rw [length_relink, List.length_append, List.length_singleton, List.length_cons]
        omega

theorem openSys_does (o : Options) (compar : Option Compar) (argv : List CString) (s : Sys ω) :
    Does Act.Right (openSys E o compar argv) s fun b s' => b = true → Covered s'.cycles [] := by
  have hq : ∀ e : Act, e.Quiet → e.Right := fun _ => Act.Quiet.right
  have hpalloc : Keeps Sys.cycles (ftsPalloc E (max (ftsMaxarglen argv) PATH_MAX)) :=
    keeps_palloc fun _ _ _ _ _ => rfl
  have hinit : ∀ s₁ : Sys ω, Does Act.Right (cycleInit E) s₁ fun failed s' =>
      failed = false → Covered s'.cycles [] := by
    refine fun s₁ => does_quiet (keeps_cycles keeps_callMalloc) quiet_callMalloc hq fun ok s₂ _ => ?_
    refine .ite (fun _ => .modify (.pure fun _ => ?_)) fun _ => .modify (.pure (by simp))
    exact ⟨[], CycleState.lists_init 64, by simp⟩
  refine does_quiet (keeps_cycles keeps_callMalloc) quiet_callMalloc hq fun ok s₁ _ => ?_
  refine .ite (fun _ => .pure (by simp)) fun _ => .bind (hinit s₁) fun failed s₂ h₂ => ?_
  refine .ite (fun _ => .pure (by simp)) fun hf => .modify ?_
  refine does_quiet hpalloc quiet_palloc hq fun r s₃ h₃ => .ite (fun _ => .modify (.pure (by simp))) fun _ => ?_
  refine .pure fun _ => ?_
  rw [h₃]
  exact h₂ (by simpa using hf)

/-- A stream as `fts_open` leaves it. -/
structure Fresh (E : Env ω) (argv : Option (List CString)) (s : Sys ω) (z : Walk) : Prop where
  frames : ∃ n roots, z.frames = [⟨n, roots⟩] ∧ n.info = .init ∧ n.instr = .noinstr ∧
    (∀ k ∈ roots, Rooted E k) ∧ roots.length = (argv.getD []).length
  covered : Covered s.cycles []
  idle : z.child = [] ∧ z.freed = none

theorem open_does (argv : Option (List CString)) (options : ℕ) (compar : Option Compar) (s : Sys ω) :
    Does Act.Right (Walk.open E argv options compar) s fun r s' => ∀ z, r = some z → Fresh E argv s' z := by
  have hq : ∀ e : Act, e.Quiet → e.Right := fun _ => Act.Quiet.right
  unfold Walk.open
  cases argv with
  | none => exact .modify (.pure (by simp))
  | some argv =>
    refine .ite (fun _ => .modify (.pure (by simp))) fun _ => .bind (openSys_does _ compar argv s) ?_
    refine fun b s₁ h₁ => .ite (fun hb => .bind (allocNode_does [] s₁) ?_) fun _ => .pure (by simp)
    rintro (_ | parent) s₂ ⟨h₂, -⟩
    · exact .modify (.pure (by simp))
    refine .bind (openRoots_does compar parent.addr argv [] s₂ (h₂ ▸ h₁ hb) (by simp)) ?_
    rintro (_ | roots) s₃ h₃
    · exact .pure (by simp)
    obtain ⟨hc, hr, hlen⟩ := h₃ roots rfl
    refine .bind (sortIfAsked_does (Q := Rooted E) (fun _ i h => h.relinked i) s₃ hq hr) ?_
    rintro l s₄ ⟨h₄, hl, hll⟩
    refine .bind (allocNode_does [] s₄) ?_
    rintro (_ | cur) s₅ ⟨h₅, hcur⟩
    · exact .modify (.pure (by simp))
    have hstart : Does Act.Right (openStart E) s₅ fun _ s' => s'.cycles = s₅.cycles := by
      refine .gets (.ite (fun _ => .pure rfl) fun _ => ?_)
      refine does_quiet (keeps_cycles keeps_callOpen) (calling_quiet.callOpen _ _) hq fun r s₆ h₆ => ?_
      cases r with
      | none => exact ⟨by simp, h₆⟩
      | some fd => exact ⟨by simp, h₆⟩
    refine .bind hstart fun _ s₆ h₆ => .pure ?_
    rintro _ ⟨⟩
    refine ⟨⟨_, l, rfl, rfl, hcur cur rfl, hl, ?_⟩, ?_, rfl, rfl⟩
    · rw [hll, hlen]
      simp
    · rw [show s₆.cycles = s₃.cycles from h₆.trans (h₅.trans h₄)]
      exact hc

end Walk

/-- The current node of a stream. -/
def St.current (st : St ω) : Option Ftsent := st.cur.bind st.heap

/-- A call does not carry out `FTS_AGAIN` on a node that has an entry in the cycle table. -/
def NoRestat (st : St ω) (c : Call) : Prop :=
  c = .read → st.sys.opts.stop = false → ∀ n ∈ st.current, n.instr = .again →
    cycleLookup st.sys.cycles n.dev n.ino ≠ some n.addr

instance (st : St ω) : DecidablePred (NoRestat st) := fun _ => inferInstanceAs (Decidable (_ → _ → _))

theorem Rep.current {st : St ω} {z : Walk} {n : Ftsent} {rest : List Ftsent} {up : List Frame}
    (h : Rep st z) (hz : z.frames = ⟨n, rest⟩ :: up) : st.current = some n := by
  have hcur : st.cur = some n.addr := by rw [h.cur, hz]; rfl
  have hheap : st.heap n.addr = some n := h.holds.owns.get (by simp [nodes_cons hz])
  rw [St.current, hcur]
  exact hheap

/-- Only roots have the level of a root. -/
theorem Shape.root_level {base : ℕ} {root : Option Ftsent} {n : Ftsent} {rest : List Ftsent} {up : List Frame}
    (h : Shape base root (⟨n, rest⟩ :: up)) : ∀ p ∈ rest, p.level = rootLevel → up = [] := by
  intro p hp hl
  rcases h.cases_cur with ⟨-, hup⟩ | ⟨r, -, hpath, -⟩
  · exact hup
  · have hb := (hpath.2.1 p (List.mem_cons_of_mem _ hp)).level
    rw [hl] at hb
    exact List.length_eq_zero_iff.mp (by simpa [rootLevel] using hb.symm)

/-- A stream that has stopped reads nothing more. -/
theorem Walk.read_stopped {z : Walk} {s : Sys ω} {P : Act → Prop} (h : s.opts.stop = true) :
    Does P (Walk.read E z) s fun r s' => r = (none, z) ∧ s' = s := by
  unfold Walk.read
  cases z.frames with
  | nil => exact .pure ⟨rfl, rfl⟩
  | cons f up => exact .gets (.ite (fun _ => .pure ⟨rfl, rfl⟩) fun hne => absurd h hne)

/-- One call keeps the table below the path, with the right verdicts. -/
theorem call_does {st : St ω} {z : Walk} (hr : Rep st z) (hc : Covered st.sys.cycles (pathNodes z.frames))
    {c : Call} (hok : NoRestat st c) : Does Act.Right (Walk.call E z c) st.sys fun r s' =>
      Covered s'.cycles (pathNodes r.2.frames) := by
  cases c with
  | read =>
    suffices hread : Does Act.Right (Walk.read E z) st.sys fun r s' => Covered s'.cycles (pathNodes r.2.frames) from
      .bind hread fun r s' h => .pure h
    cases hstop : st.sys.opts.stop with
    | true =>
      refine (Walk.read_stopped hstop).mono ?_
      rintro _ _ ⟨rfl, rfl⟩
      exact hc
    | false =>
      cases hz : z.frames with
      | nil =>
        unfold Walk.read
        rw [hz]
        exact .pure hc
      | cons f up =>
        obtain ⟨n, rest⟩ := f
        have hshape := hr.holds.shape
        rw [hz] at hshape
        refine (Walk.read_does hz hstop hc hshape.root_level fun hi => ?_).mono fun r s' h => h.covered
        rw [hz] at hc
        exact hc.of_lookup (hok rfl hstop n (hr.current hz) hi)
  | children instr => exact .bind (Walk.children_does instr hc) fun r s' h => .pure h
  | set a instr => exact .bind (Walk.set_does a instr hc) fun r s' h => .pure h

/-- Every verdict on a directory is the one of a scan of its ancestors. -/
theorem verdicts_right {argv : Option (List CString)} {options : ℕ} {compar : Option Compar} {w : ω}
    {st₀ st : St ω} {t : List Act} {steps : List (Step ω)} (ho : Opens E argv options compar w st₀ t)
    (h : Calls E NoRestat st₀ steps st) : ∀ e ∈ t ++ steps.flatMap Step.acts, e.Right := by
  obtain ⟨z₀, hz, hr, hs, rfl⟩ := ho.rep
  have hopen := Walk.open_does (E := E) argv options compar (St.start w).sys
  have hfresh : Walk.Fresh E argv st₀.sys z₀ := hs ▸ hopen.2 z₀ hz
  obtain ⟨n, roots, hfs, -⟩ := hfresh.frames
  have hc₀ : Covered st₀.sys.cycles (pathNodes z₀.frames) := by
    rw [hfs]
    exact hfresh.covered.cons n
  obtain ⟨z, -, -, hacts⟩ := h.invariant (I := fun steps s z => Covered s.cycles (pathNodes z.frames) ∧
    ∀ e ∈ steps.flatMap Step.acts, e.Right) hr ⟨hc₀, by simp⟩ fun steps st z c st' hr hI hok _ hs' => by
      have hcall := call_does (E := E) hr hI.1 hok
      refine ⟨hs' ▸ hcall.2, fun e he => ?_⟩
      rw [List.flatMap_append, List.mem_append] at he
      rcases he with he | he
      · exact hI.2 e he
      · exact hcall.1 e (by simpa using he)
  intro e he
  rcases List.mem_append.mp he with he | he
  · exact hopen.1 e he
  · exact hacts e he

/-- A directory that finds its own entry is reported as a cycle of itself. -/
theorem classify_self {p : Ftsent} {anc : List Ftsent} {s : Sys ω} (hs : sameDir p.dev p.ino anc = none)
    (ht : cycleLookup s.cycles p.dev p.ino = some p.addr) :
    (val (Walk.classify p anc) s).1 = .dc ∧ (val (Walk.classify p anc) s).2.cycle = some p.addr := by
  have hcyc : cycleOf s.cycles p.dev p.ino anc = some p.addr := by
    simp only [cycleOf, hs, ht]
  have hrun : val (Walk.classify p anc) s =
      ((if (cycleOf s.cycles p.dev p.ino anc).isSome then .dc else .d),
        { p with cycle := if (cycleOf s.cycles p.dev p.ino anc).isSome
            then cycleOf s.cycles p.dev p.ino anc else p.cycle }) := rfl
  rw [hrun, hcyc]
  exact ⟨rfl, rfl⟩

/-- A file system that is one empty directory. -/
def bareRoot : FileSystem :=
  ⟨.dir 1 1 2 [], fun _ => .dir, fun _ => none, fun _ => none, fun _ => none, fun _ => 0⟩

/-- A session on it, with the physical walk of the root. -/
def restatSession (cs : List Call) : Option (List (Step Proc)) :=
  session (bareRoot.env false) [[slash]] FTS_PHYSICAL none ⟨[], []⟩ cs

/-- The root is stat'ed again before it is read. -/
theorem verdicts_right_again : ∃ steps, restatSession [.read, .set 1 1, .read, .read] = some steps ∧
    steps.length = 4 ∧ ∀ e ∈ steps.flatMap Step.acts, e.Right := by
  have hrun : (restatSession [.read, .set 1 1, .read, .read]).any (fun steps =>
      steps.length == 4 && steps.all fun x => decide (NoRestat x.before x.call)) = true := by decide +kernel
  obtain ⟨steps, hs, hall⟩ := (Option.any_eq_true _ _).mp hrun
  rw [Bool.and_eq_true, List.all_eq_true] at hall
  obtain ⟨st₀, t, st, ho, hc⟩ := session_calls NoRestat hs fun x hx => of_decide_eq_true (hall.2 x hx)
  exact ⟨steps, hs, beq_iff_eq.mp hall.1, fun e he => verdicts_right ho hc e (List.mem_append_right _ he)⟩

/-- The root is read in full and then stat'ed again: it is a cycle of itself. -/
theorem verdicts_wrong : ¬∀ (st₀ st : St Proc) (t : List Act) (steps : List (Step Proc)),
    Opens (bareRoot.env false) (some [[slash]]) FTS_PHYSICAL none ⟨[], []⟩ st₀ t →
    Calls (bareRoot.env false) (fun _ _ => True) st₀ steps st →
    ∀ e ∈ t ++ steps.flatMap Step.acts, e.Right := by
  intro hall
  have hbad : (restatSession [.read, .read, .set 1 1, .read]).any (fun steps =>
      (steps.flatMap Step.acts).any fun e => !decide e.Right) = true := by decide +kernel
  obtain ⟨steps, hs, hany⟩ := (Option.any_eq_true _ _).mp hbad
  obtain ⟨e, he, hwrong⟩ := List.any_eq_true.mp hany
  obtain ⟨st₀, t, st, ho, hc⟩ := session_calls (fun _ _ => True) hs fun _ _ => trivial
  have hright := hall st₀ st t steps ho hc e (List.mem_append_right _ he)
  simp [hright] at hwrong

end MuslBsd.Fts
