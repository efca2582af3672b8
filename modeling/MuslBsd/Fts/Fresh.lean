import MuslBsd.Fts.Moves

/-! The addresses that a call of `fts_read` gives to nodes: those of the entries it reads are new. -/
namespace MuslBsd.Fts
open MuslBsd.Support Traced

variable {ω : Type} {E : Env ω}

theorem next_of_anchors {α : Type} {m : SysM ω α} (h : Keeps Sys.anchors m) : Keeps Sys.next m := h.comp Prod.snd

theorem next_core {α : Type} {m : SysM ω α} (h : Keeps Sys.core m) : Keeps Sys.next m :=
  next_of_anchors (keeps_anchors h)

theorem next_fixed {α : Type} {m : SysM ω α} (h : Keeps Sys.fixed m) : Keeps Sys.next m :=
  next_of_anchors (anchors_of_fixed h)

theorem next_palloc {need : ℕ} : Keeps Sys.next (ftsPalloc E need) := keeps_palloc fun _ _ _ _ _ => rfl

theorem next_crashIf {b : Bool} : Keeps Sys.next (crashIf b : SysM ω Unit) := .ite (.emit _) (.pure _)

/-- A step that leaves the next address alone. -/
theorem does_next {α β : Type} {m : SysM ω α} {f : α → SysM ω β} {s : Sys ω} {a : ℕ} {post : β → Sys ω → Prop}
    (hm : Keeps Sys.next m) (ha : a ≤ s.next)
    (hf : ∀ x s', a ≤ s'.next → Does (fun _ => True) (f x) s' post) : Does (fun _ => True) (m >>= f) s post :=
  .bind (p := fun _ s' => a ≤ s'.next) ⟨fun _ _ => trivial, ha.trans_eq (hm s).symm⟩ hf

/-- The next address is `a` or later, and so are the addresses of the nodes in `l`. -/
def Since (a : ℕ) (l : List Ftsent) (s : Sys ω) : Prop := a ≤ s.next ∧ ∀ k ∈ l, a ≤ k.addr

theorem allocNode_since {a : ℕ} {s : Sys ω} (name : CString) (ha : a ≤ s.next) :
    Does (fun _ => True) (allocNode E name) s fun r s' => Since a r.toList s' := by
  refine ⟨fun _ _ => trivial, ?_⟩
  rcases allocNode_cases (E := E) name s with ⟨hr, hs⟩ | ⟨hr, hs⟩
  · rw [hr]
    exact ⟨ha.trans_eq (congrArg Prod.snd hs).symm, by simp⟩
  · have hnext : (out (allocNode E name) s).next = s.next + 1 := congrArg Prod.snd hs
    rw [hr]
    refine ⟨(Nat.le_succ_of_le ha).trans_eq hnext.symm, fun k hk => ?_⟩
    obtain rfl : k = newNode s.next s.path.addr name := by simpa using hk
    exact ha

namespace Walk

theorem next_growPath {len : ℕ} {freed : Option NodeId} {a : Acc} {dnamlen : ℕ} :
    Keeps Sys.next (growPath E len freed a dnamlen) :=
  .ite (.bind (.gets _) fun _ => .bind next_palloc fun _ => .ite (.pure _) (.bind (.gets _) fun _ =>
    .ite (.bind next_crashIf fun _ => .pure _) (.pure _))) (.pure _)

theorem next_stat {p : Ftsent} {anc : List Ftsent} {follow : Bool} {dfd : Option Fd} :
    Keeps Sys.next (stat E p anc follow dfd) := fun s =>
  congrArg (fun c : Sys Unit => c.next) (stat_does p anc follow dfd s).2.1

theorem next_buildInfo {C : BuildCtx} {fs : List Frame} {nlinks : ℤ} {p : Ftsent} {type : DType} :
    Keeps Sys.next (buildInfo E C fs nlinks p type) :=
  .bind (.gets _) fun _ => .ite (.pure _) (.ite (.pure _)
    (.bind (.ite (.bind (next_fixed fixed_storePath) fun _ => next_stat) next_stat) fun _ => .pure _))

theorem buildInfo_addr {C : BuildCtx} {fs : List Frame} {nlinks : ℤ} {p : Ftsent} {type : DType} :
    Returns (fun pn : Ftsent × ℤ => pn.1.addr = p.addr) (buildInfo E C fs nlinks p type) := by
  have hstat : ∀ (q : Ftsent) (dfd : Option Fd), q.addr = p.addr →
      Returns (fun iq : Info × Ftsent => iq.2.addr = p.addr) (stat E q (pathNodes fs) false dfd) := fun q dfd hq s =>
    ((congrArg Ftsent.addr (stat_does (E := E) q (pathNodes fs) false dfd s).2.2.still :)).trans hq
  refine .bind_any fun o => .ite (fun _ => .pure rfl) fun _ => .ite (fun _ => .pure rfl) fun _ => ?_
  refine .bind (.ite (fun _ => .bind_any fun _ => hstat _ _ rfl) fun _ => hstat _ _ rfl) fun iq hiq => .pure hiq

theorem buildInfo_since {a : ℕ} {C : BuildCtx} {fs : List Frame} {nlinks : ℤ} {p : Ftsent} {type : DType}
    {s : Sys ω} (hs : a ≤ s.next) (hp : a ≤ p.addr) : Does (fun _ => True) (buildInfo E C fs nlinks p type) s
      fun pn s' => a ≤ s'.next ∧ a ≤ pn.1.addr :=
  ⟨fun _ _ => trivial, hs.trans_eq (next_buildInfo s).symm, hp.trans_eq (buildInfo_addr s).symm⟩

theorem next_buildFail {fd : Fd} : Keeps Sys.next (buildFail E fd) :=
  .bind (.gets _) fun _ => .bind (next_core keeps_callClosedir) fun _ =>
    .bind (next_fixed fixed_setStop) fun _ => next_core keeps_setErrno

theorem since_relink {a : ℕ} {l : List Ftsent} (h : ∀ k ∈ l, a ≤ k.addr) : ∀ k ∈ relink l, a ≤ k.addr :=
  forall_relink (Q := fun k => a ≤ k.addr) (fun _ _ h => h) h

theorem buildLoop_since {a₀ : ℕ} (C : BuildCtx) (freed : Option NodeId) (dps : List Dirent) :
    ∀ (a : Acc) (s : Sys ω), Since a₀ a.head s →
      Does (fun _ => True) (buildLoop E C freed dps a) s fun ra s' => Since a₀ ra.2.head s' := by
  induction dps with
  | nil => exact fun a s h => .pure h
  | cons dp dps ih =>
    intro a s h
    refine .gets (.ite (fun _ => ih a s h) fun _ => .bind (allocNode_since dp.name h.1) ?_)
    rintro (_ | p) s₁ ⟨h₁, hp⟩
    · exact does_next next_buildFail h₁ fun _ s₂ h₂ => .pure ⟨h₂, h.2⟩
    refine .bind (p := fun fa s₂ => Since a₀ fa.2.head s₂) ⟨fun _ _ => trivial, ?_, ?_⟩ ?_
    · exact h₁.trans_eq (next_growPath s₁).symm
    · have hmoves : Returns (Shifted a) (growPath E C.len freed a dp.name.length) := growPath_moves
      obtain ⟨g, hg, -, hh⟩ := hmoves s₁
      rw [hh]
      intro k hk
      obtain ⟨m, hm, rfl⟩ := List.mem_map.mp hk
      rw [hg.addr]
      exact h.2 m hm
    · rintro ⟨fits, a₁⟩ s₂ h₂
      refine .ite (fun _ => ?_) fun _ => .gets (.ite (fun _ => ?_) fun _ => ?_)
      · exact does_next next_buildFail h₂.1 fun _ s₃ h₃ => .pure ⟨h₃, h₂.2⟩
      · exact .modify (does_next next_buildFail h₂.1 fun _ s₃ h₃ => .pure ⟨h₃, h₂.2⟩)
      · refine .bind (buildInfo_since h₂.1 (hp p (by simp))) ?_
        rintro ⟨q, nlinks⟩ s₃ ⟨h₃, hq⟩
        refine ih _ s₃ ⟨h₃, since_relink fun k hk => ?_⟩
        rcases List.mem_append.mp hk with hk | hk
        · exact h₂.2 k hk
        · rw [List.mem_singleton.mp hk]
          exact hq

theorem next_sortIfAsked {head : List Ftsent} {n : ℕ} : Keeps Sys.next (sortIfAsked E head n) := by
  refine .bind (.gets _) fun s => ?_
  cases s.compar with
  | none => exact .pure _
  | some cmp => exact .ite (.bind (next_of_anchors anchors_growArray) fun _ => .ite (.pure _) (.pure _)) (.pure _)

theorem next_buildLeave {c : Ftsent} {up : List Frame} : Keeps Sys.next (buildLeave E c up) := by
  refine .ite (.bind (.gets _) fun _ => next_core keeps_callFchdir) ?_
  cases up with
  | nil => exact .pure _
  | cons g _ => exact next_core keeps_safeChangedir

theorem buildReturn_since {a₀ : ℕ} {type : BuildType} {z : Walk} {c : Ftsent} {up : List Frame} {descend : Bool}
    {head : List Ftsent} {s : Sys ω} (h : Since a₀ head s) :
    Does (fun _ => True) (buildReturn E type z c up descend head) s fun r s' => Since a₀ r.1 s' := by
  refine .ite (fun _ => .pure ⟨h.1, by simp⟩) fun _ => .bind (p := fun l s' => Since a₀ l s') ?_ fun l s₁ h₁ => ?_
  · refine ⟨fun _ _ => trivial, h.1.trans_eq (next_sortIfAsked s).symm, ?_⟩
    exact (sortIfAsked_does (P := fun _ => True) (Q := fun k => a₀ ≤ k.addr) (fun _ _ h => h) s
      (fun _ _ => trivial) h.2).2.2.1
  · refine .ite (fun _ => does_next next_buildLeave h₁.1 fun b s₂ h₂ => .ite (fun _ => .modify (.pure ⟨h₂, by simp⟩))
      fun _ => .pure ⟨h₂, h₁.2⟩) fun _ => .pure h₁

theorem buildRead_since {a₀ : ℕ} {type : BuildType} {z : Walk} {c : Ftsent} {rest : List Ftsent} {up : List Frame}
    {fd : Fd} {entries : List Dirent} {e : Errno} {s : Sys ω} (h : a₀ ≤ s.next) :
    Does (fun _ => True) (buildRead E type z c rest up fd entries e) s fun r s' => Since a₀ r.1 s' := by
  refine .gets ?_
  generalize linkPlan _ type c = plan
  obtain ⟨nlinks, nostat⟩ := plan
  refine does_next (.ite (next_core keeps_safeChangedir) (.pure _)) h fun failed s₁ h₁ => ?_
  refine does_next (.ite (.gets _) (.pure _)) h₁ fun cderrno s₂ h₂ => .gets ?_
  refine does_next (.ite (next_fixed fixed_storePath) (.pure _)) h₂ fun _ s₃ h₃ => .gets ?_
  generalize roomLeft _ _ = maxlen
  refine .modify (.bind (buildLoop_since _ _ _ _ _ ⟨h₃, by simp⟩) ?_)
  rintro ⟨ok, a⟩ s₄ h₄
  refine .ite (fun _ => .pure ⟨h₄.1, by simp⟩) fun _ => ?_
  refine does_next (.ite (next_core keeps_setErrno) (.pure _)) h₄.1 fun _ s₅ h₅ => .gets (.ite (fun _ => ?_) fun _ => ?_)
  · exact does_next next_buildFail h₅ fun _ s₆ h₆ => .pure ⟨h₆, by simp⟩
  · exact does_next (next_core keeps_callClosedir) h₅ fun _ s₆ h₆ => buildReturn_since ⟨h₆, h₄.2⟩

theorem build_since {type : BuildType} {z : Walk} (s : Sys ω) :
    Does (fun _ => True) (build E type z) s fun r s' => Since s.next r.1 s' := by
  unfold build
  cases z.frames with
  | nil => exact .pure ⟨le_rfl, by simp⟩
  | cons f up =>
    refine .ite (fun _ => .modify (.modify (.pure ⟨le_rfl, by simp⟩))) fun _ => .gets ?_
    refine does_next (next_core keeps_openDir) le_rfl fun r s₁ h₁ => ?_
    cases r with
    | error ie => exact .pure ⟨h₁, by simp⟩
    | ok d => exact buildRead_since h₁

/-- The node that is returned is one of the stream `z`, or the first of a list of new ones. -/
def Known (z : Walk) (a : ℕ) (r : Option NodeId × Walk) : Prop :=
  ∀ b ∈ r.1, (∃ m ∈ z.frames.flatMap Frame.nodes ++ z.child, m.addr = b) ∨
    ∀ f ∈ r.2.frames.head?, ∀ m ∈ f.nodes, a ≤ m.addr

theorem next_followLink {p : Ftsent} {anc : List Ftsent} : Keeps Sys.next (followLink E p anc) :=
  .bind next_stat fun _ => next_core keeps_openSymfd

theorem next_ascend {p : Ftsent} {fs : List Frame} : Keeps Sys.next (ascend E p fs) := by
  refine .ite (next_core keeps_backToStart) (.ite (next_core keeps_leaveSymfd) (.ite (.pure _) ?_))
  cases fs with
  | nil => exact .pure _
  | cons g fs => exact next_core keeps_safeChangedir

section Read

variable {z z₀ : Walk} {n p : Ftsent} {rest : List Ftsent} {up : List Frame} {a : ℕ} {s : Sys ω}

theorem known_none : Known z₀ a (none, z) := fun _ hb => nomatch hb

theorem known_some {b : NodeId} (h : ∃ m ∈ z₀.frames.flatMap Frame.nodes ++ z₀.child, m.addr = b) :
    Known z₀ a (some b, z) := by
  rintro _ ⟨⟩
  exact .inl h

theorem readName_known (hs : a ≤ s.next)
    (hp : (∃ m ∈ z₀.frames.flatMap Frame.nodes ++ z₀.child, m.addr = p.addr) ∨ ∀ m ∈ p :: rest, a ≤ m.addr) :
    Does (fun _ => True) (readName z p rest up) s fun r s' => a ≤ s'.next ∧ Known z₀ a r := by
  have hknown : Known z₀ a (some p.addr, { z with frames := ⟨p, rest⟩ :: up }) := by
    rintro _ ⟨⟩
    refine hp.imp_right fun h f hf => ?_
    cases hf
    exact h
  cases up with
  | nil => exact .pure ⟨hs, hknown⟩
  | cons f up => exact does_next (next_fixed fixed_storeName) hs fun _ s₁ h₁ => .pure ⟨h₁, hknown⟩

theorem readUp_known (hs : a ≤ s.next)
    (hup : ∀ f ∈ up, ∃ m ∈ z₀.frames.flatMap Frame.nodes ++ z₀.child, m.addr = f.node.addr) :
    Does (fun _ => True) (readUp E z n up) s fun r s' => a ≤ s'.next ∧ Known z₀ a r := by
  refine does_next (next_fixed fixed_cyclePop) hs fun _ s₁ h₁ => ?_
  cases up with
  | nil =>
    cases z.root with
    | none => exact .modify (.pure ⟨h₁, known_none⟩)
    | some r => exact does_next (next_fixed fixed_storePath) h₁ fun _ s₂ h₂ => .modify (.pure ⟨h₂, known_none⟩)
  | cons f up =>
    have hf := hup f (List.mem_cons_self ..)
    refine does_next (next_fixed fixed_storePath) h₁ fun _ s₂ h₂ => does_next next_ascend h₂ fun failed s₃ h₃ => ?_
    exact .ite (fun _ => .modify (.pure ⟨h₃, known_none⟩)) fun _ => .pure ⟨h₃, known_some hf⟩

theorem readNext_known (rest : List Ftsent)
    (hup : ∀ f ∈ up, ∃ m ∈ z₀.frames.flatMap Frame.nodes ++ z₀.child, m.addr = f.node.addr) :
    ∀ (n : Ftsent) (s : Sys ω), a ≤ s.next →
      (∀ p ∈ rest, ∃ m ∈ z₀.frames.flatMap Frame.nodes ++ z₀.child, m.addr = p.addr) →
      Does (fun _ => True) (readNext E z n up rest) s fun r s' => a ≤ s'.next ∧ Known z₀ a r := by
  induction rest with
  | nil => exact fun n s hs _ => readUp_known hs hup
  | cons p rest ih =>
    intro n s hs hrest
    have hp := hrest p (List.mem_cons_self ..)
    refine does_next (next_fixed fixed_cyclePop) hs fun _ s₁ h₁ => .ite (fun _ => ?_) fun _ => .ite (fun _ => ?_)
      fun _ => .ite (fun _ => ?_) fun _ => readName_known h₁ (.inl hp)
    · refine does_next (next_core keeps_backToStart) h₁ fun failed s₂ h₂ => .ite (fun _ => ?_) fun _ => ?_
      · exact .modify (.pure ⟨h₂, known_none⟩)
      · refine .bind (p := fun q s₃ => a ≤ s₃.next ∧ q.addr = p.addr)
          ⟨fun _ _ => trivial, h₂.trans_eq (next_fixed fixed_loadRoot s₂).symm, rfl⟩ ?_
        rintro q s₃ ⟨h₃, hq⟩
        exact .pure ⟨h₃, known_some (hq ▸ hp)⟩
    · exact ih p s₁ h₁ fun q hq => hrest q (List.mem_cons_of_mem _ hq)
    · refine .bind (p := fun q s₂ => a ≤ s₂.next ∧ q.addr = p.addr)
        ⟨fun _ _ => trivial, h₁.trans_eq (next_followLink s₁).symm,
          (congrArg Ftsent.addr (followLink_does (E := E) p (pathNodes up) s₁).2.2.still :)⟩ ?_
      rintro q s₂ ⟨h₂, hq⟩
      exact readName_known h₂ (.inl (hq ▸ hp))

theorem readFresh_known (hs : a ≤ s.next)
    (hp : ∃ m ∈ z₀.frames.flatMap Frame.nodes ++ z₀.child, m.addr = p.addr) :
    Does (fun _ => True) (readFresh E z p) s fun r s' => a ≤ s'.next ∧ Known z₀ a r := by
  refine .bind (build_since s) ?_
  rintro ⟨kids, z'⟩ s₁ ⟨h₁, hk⟩
  have h₁' : a ≤ s₁.next := hs.trans h₁
  cases kids with
  | nil => exact .gets (.ite (fun _ => .pure ⟨h₁', known_none⟩) fun _ => .pure ⟨h₁', known_some hp⟩)
  | cons k ks => exact readName_known h₁' (.inr fun m hm => hs.trans (hk m hm))

theorem readPending_known (hs : a ≤ s.next) (hz : z.child = z₀.child) :
    Does (fun _ => True) (readPending E z p rest up) s fun r s' => a ≤ s'.next ∧ Known z₀ a r := by
  refine .gets (does_next (next_core keeps_safeChangedir) hs fun failed s₁ h₁ => .gets ?_)
  generalize Sys.errno s₁ = e
  dsimp only
  generalize (if failed then { p with errno := e, dontchdir := true } else p) = c
  cases hch : z.child with
  | nil => exact does_next next_crashIf h₁ fun _ s₂ h₂ => .pure ⟨h₂, known_none⟩
  | cons k ks =>
    refine does_next next_crashIf h₁ fun _ s₂ h₂ => readName_known h₂ (.inl ⟨k, ?_, ?_⟩)
    · rw [← hz, hch]
      exact List.mem_append_right _ (List.mem_cons_self ..)
    · split <;> rfl

theorem readDir_known (hs : a ≤ s.next) (hz : z.child = z₀.child)
    (hp : ∃ m ∈ z₀.frames.flatMap Frame.nodes ++ z₀.child, m.addr = p.addr) {i : Instr} :
    Does (fun _ => True) (readDir E z p rest up i) s fun r s' => a ≤ s'.next ∧ Known z₀ a r := by
  refine .gets (.ite (fun _ => ?_) fun _ => ?_)
  · refine does_next (next_core keeps_closeSymfd) hs fun _ s₁ h₁ => does_next next_crashIf h₁ fun _ s₂ h₂ => ?_
    refine does_next (next_fixed fixed_cyclePop) h₂ fun _ s₃ h₃ => .emit trivial (.pure ⟨h₃, known_some hp⟩)
  · refine does_next (next_fixed fixed_cyclePush) hs fun failed s₁ h₁ => .ite (fun _ => ?_) fun _ => ?_
    · exact .modify (.gets (.pure ⟨h₁, known_some hp⟩))
    · refine .ite (fun _ => .ite (fun _ => .modify ?_) fun _ => readPending_known h₁ hz) fun _ => readFresh_known h₁ hp
      exact does_next next_crashIf h₁ fun _ s₂ h₂ => readFresh_known h₂ hp

/-- The next address only grows, and what `fts_read` returns is a node that there was or a new one. -/
theorem read_known (z : Walk) (s : Sys ω) :
    Does (fun _ => True) (read E z) s fun r s' => s.next ≤ s'.next ∧ Known z s.next r := by
  unfold read
  cases hz : z.frames with
  | nil => exact .pure ⟨le_rfl, known_none⟩
  | cons f up =>
    obtain ⟨n, rest⟩ := f
    have hmem : ∀ m ∈ n :: rest, ∃ m₀ ∈ z.frames.flatMap Frame.nodes ++ z.child, m₀.addr = m.addr := by
      intro m hm
      refine ⟨m, List.mem_append_left _ ?_, rfl⟩
      rw [hz]
      exact List.mem_append_left _ hm
    have hn := hmem n (List.mem_cons_self ..)
    refine .gets (.ite (fun _ => .pure ⟨le_rfl, known_none⟩) fun _ => .ite (fun _ => ?_) fun _ => .ite (fun _ => ?_)
      fun _ => .ite (fun _ => ?_) fun _ => ?_)
    · exact does_next next_stat le_rfl fun iq s₁ h₁ => .pure ⟨h₁, known_some hn⟩
    · exact does_next next_followLink le_rfl fun q s₁ h₁ => .pure ⟨h₁, known_some hn⟩
    · have htaken : ∃ m ∈ z.frames.flatMap Frame.nodes ++ z.child, m.addr = n.taken.addr := hn
      exact readDir_known le_rfl rfl htaken
    · refine readNext_known rest (fun g hg => ⟨g.node, List.mem_append_left _ ?_, rfl⟩) n.taken s le_rfl fun p hp =>
        hmem p (List.mem_cons_of_mem _ hp)
      rw [hz]
      exact List.mem_append_right _ (List.mem_flatMap.mpr ⟨g, hg, List.mem_cons_self ..⟩)

end Read
end Walk
end MuslBsd.Fts
