import MuslBsd.Fts.Cycles
import MuslBsd.Fts.Refinement.Node

/-! What `fts_stat` makes of an entry, on its own, after `FTS_FOLLOW` and for the entries of a
directory that is read. -/
namespace MuslBsd.Fts
open MuslBsd.Support Traced

variable {ω : Type} {E : Env ω}

/-- A node without what `fts_stat` and `FTS_FOLLOW` may change of it. -/
def Ftsent.still (n : Ftsent) : Ftsent :=
  { n with
    errno := 0, cycle := none, ino := 0, dev := 0, nlink := 0, statp := Stat.zero, info := .zero,
    symfd := 0, symfollow := false }

/-- A node without its two pointers to the path buffer. -/
def Ftsent.bare (n : Ftsent) : Ftsent := { n with accpath := .null, path := 0 }

/-- A change of nodes that only moves the path buffer. -/
def Relocates (g : Ftsent → Ftsent) : Prop := ∀ n, (g n).bare = n.bare

namespace Relocates

variable {g h : Ftsent → Ftsent}

theorem id : Relocates id := fun _ => rfl

theorem adjust (base : ℕ) : Relocates (adjust base) := fun _ => rfl

theorem comp (hg : Relocates g) (hh : Relocates h) : Relocates (g ∘ h) := fun n =>
  (hg (h n)).trans (hh n)

/-- What does not look at the path buffer is as it was. -/
theorem field {α : Type} (hg : Relocates g) (f : Ftsent → α) (hf : ∀ n, f n.bare = f n) (n : Ftsent) :
    f (g n) = f n := by
  rw [← hf (g n), hg n, hf n]

theorem addr (hg : Relocates g) (n : Ftsent) : (g n).addr = n.addr := hg.field _ (fun _ => rfl) n
theorem info (hg : Relocates g) (n : Ftsent) : (g n).info = n.info := hg.field _ (fun _ => rfl) n
theorem key (hg : Relocates g) (n : Ftsent) : (g n).key = n.key := hg.field _ (fun _ => rfl) n

theorem cycleOf (hg : Relocates g) (cs : CycleState) (dev ino : ℕ) (anc : List Ftsent) :
    cycleOf cs dev ino (anc.map g) = cycleOf cs dev ino anc := by
  have hfind : (sameDir dev ino (anc.map g)).map Ftsent.addr =
      (sameDir dev ino anc).map Ftsent.addr := by
    induction anc with
    | nil => rfl
    | cons n anc ih =>
      have hk : (g n).ino = n.ino ∧ (g n).dev = n.dev :=
        ⟨congrArg Prod.snd (hg.key n), congrArg Prod.fst (hg.key n)⟩
      simp only [sameDir, List.map_cons, List.find?_cons, hk.1, hk.2] at ih ⊢
      by_cases he : ino = n.ino ∧ dev = n.dev
      · simp [he, hg.addr n]
      · simpa only [he, decide_false] using ih
  simp only [Fts.cycleOf]
  cases h : sameDir dev ino anc <;> cases h' : sameDir dev ino (anc.map g) <;>
    simp_all

end Relocates

/-- The values of `fts_info` that `fts_stat` returns. -/
def Info.ofStat : Info → Bool
  | .d | .dc | .default | .dot | .err | .f | .ns | .sl | .slnone | .w => true
  | _ => false

/-- The identities of the directories that `fstatat_fn` may answer with. -/
def Env.Names (E : Env ω) (key : ℕ × ℕ) : Prop :=
  ∃ w dfd path nofollow sb, (E.fstatatFn w dfd path nofollow).1 = .ok sb ∧ sb.mode = .dir ∧
    key = (sb.dev, sb.ino)

/-- The verdict on a directory `q` below the nodes `anc`, with the cycle table `cs`. -/
structure Judged (cs : CycleState) (anc : List Ftsent) (q : Ftsent) (i : Info) : Prop where
  info : i = if (cycleOf cs q.dev q.ino anc).isSome then .dc else .d
  cycle : i = .dc → q.cycle = cycleOf cs q.dev q.ino anc

/-- A trace item that is a verdict on a directory is one on a directory below `anc`, wherever the
path buffer may be, and the right one. -/
def Act.Sound (cs : CycleState) (anc : List Ftsent) (e : Act) : Prop :=
  ∀ q anc' i, e = .classifies q anc' i → (∃ g, Relocates g ∧ anc' = anc.map g) ∧ Judged cs anc' q i

theorem Act.Sound.moved {cs : CycleState} {anc : List Ftsent} {g : Ftsent → Ftsent} {e : Act}
    (hg : Relocates g) (h : e.Sound cs (anc.map g)) : e.Sound cs anc := fun q anc' i he => by
  obtain ⟨⟨g', hg', rfl⟩, hj⟩ := h q anc' i he
  exact ⟨⟨g' ∘ g, hg'.comp hg, by rw [List.map_map]⟩, hj⟩

theorem Act.Quiet.sound {e : Act} (h : e.Quiet) (cs : CycleState) (anc : List Ftsent) :
    e.Sound cs anc := fun q anc' i he => absurd he (h q anc' i)

/-- What `fts_stat` leaves of the node `p`, with its result. -/
structure Stated (E : Env ω) (cs : CycleState) (anc : List Ftsent) (p q : Ftsent) (i : Info) :
    Prop where
  still : q.still = p.still
  symfollow : q.symfollow = p.symfollow
  symfd : q.symfd = p.symfd
  info : i.ofStat = true
  fresh : i = .d → cycleOf cs q.dev q.ino anc = none
  names : i = .d ∨ i = .dot → E.Names q.key

section Rules

variable {α β : Type} {P : Act → Prop} {s : Sys ω} {m : SysM ω α} {f : α → SysM ω β}
  {post : β → Sys ω → Prop}

/-- A step that says nothing on directories and leaves a component of the stream alone. -/
theorem does_quiet {γ : Type} {g : Sys ω → γ} (hk : Keeps g m) (hw : Writes Act.Quiet m)
    (hP : ∀ e : Act, e.Quiet → P e) (hf : ∀ a s', g s' = g s → Does P (f a) s' post) :
    Does P (m >>= f) s post :=
  .bind (p := fun _ s' => g s' = g s) ⟨fun e he => hP e (hw s e he), hk s⟩ hf

end Rules

namespace Walk

theorem judged_fresh {cs : CycleState} {anc : List Ftsent} {q : Ftsent} {i : Info}
    (h : Judged cs anc q i) : i.ofStat = true ∧ (i = .d → cycleOf cs q.dev q.ino anc = none) := by
  cases hc : cycleOf cs q.dev q.ino anc with
  | none => exact ⟨by simp [h.info, hc, Info.ofStat], fun _ => rfl⟩
  | some a => exact ⟨by simp [h.info, hc, Info.ofStat], fun hd => by simp [h.info, hc] at hd⟩

theorem classify_does (p : Ftsent) (anc : List Ftsent) (s : Sys ω) :
    Does (Act.Sound s.cycles anc) (classify p anc) s fun iq s' => s' = s ∧
      Judged s.cycles anc iq.2 iq.1 ∧ ∃ c, iq.2 = { p with cycle := c } := by
  refine .gets ?_
  have hj : Judged s.cycles anc
      { p with cycle := if (cycleOf s.cycles p.dev p.ino anc).isSome
          then cycleOf s.cycles p.dev p.ino anc else p.cycle }
      (if (cycleOf s.cycles p.dev p.ino anc).isSome then .dc else .d) := by
    refine ⟨rfl, fun h => ?_⟩
    dsimp only at h ⊢
    split at h
    · rw [if_pos ‹_›]
    · exact absurd h (by simp)
  refine .emit (fun q anc' i he => ?_) (.pure ⟨rfl, hj, _, rfl⟩)
  obtain ⟨rfl, rfl, rfl⟩ := Act.classifies.inj he
  exact ⟨⟨id, .id, (List.map_id _).symm⟩, hj⟩

/-- An answer that `statFile` passes on is one of `fstatat_fn`. -/
theorem statFile_names {p : Ftsent} {follow : Bool} {dfd : Option Fd} {path : PathArg} :
    Returns (fun rq => match rq.1 with
      | .error info => info.ofStat = true ∧ info ≠ .d ∧ info ≠ .dot
      | .ok sb => sb.mode = .dir → E.Names (sb.dev, sb.ino)) (statFile E p follow dfd path) := by
  have hcall : ∀ nofollow, Returns (fun r => ∀ sb, r = some sb → sb.mode = .dir →
      E.Names (sb.dev, sb.ino)) (callFstatat E dfd (if dfd.isNone then path else .str p.name) nofollow) := by
    intro nofollow s sb hsb hd
    generalize (if dfd.isNone then path else .str p.name) = arg at hsb
    cases arg with
    | null => cases hsb
    | wild =>
      refine ⟨s.world, dfd, .wild, nofollow, sb, ?_, hd, rfl⟩
      change (answer _ s _ _ _).1 = _ at hsb
      revert hsb
      rcases E.fstatatFn s.world dfd .wild nofollow with ⟨_ | _, w⟩ <;> simp [answer]
    | str t =>
      refine ⟨s.world, dfd, .str t, nofollow, sb, ?_, hd, rfl⟩
      change (answer _ s _ _ _).1 = _ at hsb
      revert hsb
      rcases E.fstatatFn s.world dfd (.str t) nofollow with ⟨_ | _, w⟩ <;> simp [answer]
  refine .ite (fun _ => .bind_any fun _ => .pure (by simp [Info.ofStat])) fun _ => .bind_any fun o => ?_
  refine .ite (fun _ => .pure (by simp [Info.ofStat])) fun _ => .ite (fun _ => .bind (hcall _) ?_)
    fun _ => .bind (hcall _) ?_
  · rintro (_ | sb) h
    · refine .bind_any fun _ => .bind_any fun r => ?_
      cases r with
      | none => exact .pure (by simp [Info.ofStat])
      | some sb => exact .bind_any fun _ => .pure (by simp [Info.ofStat])
    · exact .pure (h sb rfl)
  · rintro (_ | sb) h
    · exact .bind_any fun _ => .pure (by simp [Info.ofStat])
    · exact .pure (h sb rfl)

theorem stat_does (p : Ftsent) (anc : List Ftsent) (follow : Bool) (dfd : Option Fd) (s : Sys ω) :
    Does (Act.Sound s.cycles anc) (stat E p anc follow dfd) s fun iq s' => s'.core = s.core ∧
      Stated E s.cycles anc p iq.2 iq.1 := by
  refine .gets ?_
  have hw : Writes (Act.Sound s.cycles anc)
      (statFile E p follow dfd (if dfd.isNone then accArgOf s p anc else .null)) :=
    calling_quiet.statFile.mono fun e he => he.sound _ _
  refine .bind (p := fun rq s' => s'.core = s.core ∧ (∃ sb e, rq.2 = { p with statp := sb, errno := e }) ∧
      match rq.1 with
      | .error i => i.ofStat = true ∧ i ≠ .d ∧ i ≠ .dot
      | .ok sb => sb.mode = .dir → E.Names (sb.dev, sb.ino))
    ⟨hw s, keeps_statFile s, statFile_node s, statFile_names s⟩ ?_
  rintro ⟨r, _⟩ s₁ ⟨hc, ⟨sb', e, rfl⟩, hr⟩
  have hcyc : s₁.cycles = s.cycles := congrArg (fun c : Sys Unit => c.cycles) hc
  cases r with
  | error i => exact .pure ⟨hc, rfl, rfl, rfl, hr.1, fun h => absurd h hr.2.1,
      fun h => h.elim (absurd · hr.2.1) (absurd · hr.2.2)⟩
  | ok sb =>
    refine .ite (fun hd => .ite (fun _ => ?_) fun _ => ?_) fun hd => ?_
    · exact .pure ⟨hc, rfl, rfl, rfl, rfl, by simp, fun _ => hr hd⟩
    · refine (hcyc ▸ classify_does _ anc s₁).mono ?_
      rintro ⟨i, q⟩ s₂ ⟨rfl, hj, c, rfl⟩
      have hf := judged_fresh hj
      exact ⟨hc, rfl, rfl, rfl, hf.1, hf.2, fun _ => hr hd⟩
    · refine .pure ⟨hc, rfl, rfl, rfl, ?_, ?_, ?_⟩
      all_goals
        cases hm : sb.mode <;> simp [FileType.info, Info.ofStat, hm] at hd ⊢

/-- What `FTS_FOLLOW` leaves of the node `p`. -/
structure Followed (E : Env ω) (cs : CycleState) (anc : List Ftsent) (p q : Ftsent) : Prop where
  still : q.still = p.still
  info : q.info.ofStat = true
  fresh : q.info = .d → cycleOf cs q.dev q.ino anc = none
  names : q.info = .d ∨ q.info = .dot → E.Names q.key

theorem followLink_does (p : Ftsent) (anc : List Ftsent) (s : Sys ω) :
    Does (Act.Sound s.cycles anc) (followLink E p anc) s fun q s' => s'.core = s.core ∧
      Followed E s.cycles anc p q := by
  refine .bind (stat_does p anc true none s) ?_
  rintro ⟨i, q⟩ s₁ ⟨hc, hq⟩
  refine .gets (.ite (fun hd => ?_) fun _ => .pure ⟨hc, hq.still, hq.info, hq.fresh, hq.names⟩)
  refine does_quiet (g := Sys.core) keeps_callOpen (calling_quiet.callOpen _ _)
    (fun e he => he.sound _ _) fun r s₂ h₂ => ?_
  cases r with
  | none => exact .gets (.pure ⟨h₂.trans hc, hq.still, rfl, by simp, by simp⟩)
  | some fd => exact .pure ⟨h₂.trans hc, hq.still, hq.info, hq.fresh, hq.names⟩

end Walk

end MuslBsd.Fts
