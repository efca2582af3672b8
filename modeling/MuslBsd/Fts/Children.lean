import MuslBsd.Fts.Refinement.Build
import MuslBsd.Fts.Verdicts

/-! What `fts_build` makes of the current path and of the entries it reads. On the way the cycle table
knows no directory that the scan of the ancestors in `fts_stat` would not find. -/
namespace MuslBsd.Fts
open MuslBsd.Support Traced

variable {ω : Type} {E : Env ω}

/-- A verdict on a directory is the one of its proper ancestors alone. -/
def Act.Right : Act → Prop
  | .classifies p anc i => (i = .d ∨ i = .dc) ∧ (i = .dc ↔ ∃ t ∈ anc, t.key = p.key) ∧
      (i = .dc → ∃ t ∈ anc, t.key = p.key ∧ p.cycle = some t.addr)
  | _ => True

instance : DecidablePred Act.Right
  | .classifies _ _ _ => inferInstanceAs (Decidable (_ ∧ _ ∧ _))
  | .opens .. | .closes .. | .fstats .. | .fstatats .. | .fchdirs .. | .opendirs .. | .closedirs ..
  | .mallocs .. | .reallocs .. | .stores .. | .skips .. | .crashes => isTrue trivial

theorem Act.Quiet.right {e : Act} (h : e.Quiet) : e.Right := by
  cases e with
  | classifies p anc i => exact absurd rfl (h p anc i)
  | _ => trivial

/-- Every entry of the cycle table is that of a node of `path`, one that takes its entry along. -/
def Covered (cs : CycleState) (path : List Ftsent) : Prop :=
  ∃ es, cs.Lists es ∧ ∀ e ∈ es, ∃ n ∈ path, n.entry = e ∧ n.info.pops = true

/-- What the table has of the node `n` it may have of `q`. -/
def Stays (n q : Ftsent) : Prop := q.entry = n.entry ∧ (n.info.pops = true → q.info.pops = true)

namespace Covered

variable {cs : CycleState} {path path' : List Ftsent} {n q : Ftsent}

theorem mono (h : Covered cs path) (hp : ∀ n ∈ path, ∃ q ∈ path', Stays n q) : Covered cs path' := by
  obtain ⟨es, hl, he⟩ := h
  refine ⟨es, hl, fun e hm => ?_⟩
  obtain ⟨n, hn, hne, hpop⟩ := he e hm
  obtain ⟨q, hq, hqe, hqpop⟩ := hp n hn
  exact ⟨q, hq, hqe.trans hne, hqpop hpop⟩

theorem cons (h : Covered cs path) (n : Ftsent) : Covered cs (n :: path) :=
  h.mono fun m hm => ⟨m, List.mem_cons_of_mem _ hm, rfl, id⟩

theorem change (h : Covered cs (n :: path)) (hq : Stays n q) : Covered cs (q :: path) :=
  h.mono fun m hm => by
    rcases List.mem_cons.mp hm with rfl | hm
    · exact ⟨q, List.mem_cons_self, hq⟩
    · exact ⟨m, List.mem_cons_of_mem _ hm, rfl, id⟩

/-- A node that takes nothing along has no entry. -/
theorem of_not_pops (h : Covered cs (n :: path)) (hn : n.info.pops = false) : Covered cs path := by
  obtain ⟨es, hl, he⟩ := h
  refine ⟨es, hl, fun e hm => ?_⟩
  obtain ⟨m, hm, hme, hpop⟩ := he e hm
  rcases List.mem_cons.mp hm with rfl | hm
  · rw [hn] at hpop
    cases hpop
  · exact ⟨m, hm, hme, hpop⟩

theorem of_lookup (h : Covered cs (n :: path)) (hn : cycleLookup cs n.dev n.ino ≠ some n.addr) :
    Covered cs path := by
  obtain ⟨es, hl, he⟩ := h
  refine ⟨es, hl, fun e hm => ?_⟩
  obtain ⟨m, hm', hme, hpop⟩ := he e hm
  rcases List.mem_cons.mp hm' with rfl | hm'
  · exact absurd (hl.lookup_eq_some.mpr ⟨e, hm, by rw [← hme]; rfl, by rw [← hme]; rfl⟩) hn
  · exact ⟨m, hm', hme, hpop⟩

theorem pop (h : Covered cs (n :: path)) : Covered (cs.pop n) path := by
  obtain ⟨es, hl, he⟩ := h
  refine ⟨_, hl.pop n, fun e hm => ?_⟩
  have hmem : e ∈ es ∧ (n.info.pops = true → e.key ≠ n.key) := by
    split at hm
    · exact ⟨(List.mem_filter.mp hm).1, fun _ => by simpa using (List.mem_filter.mp hm).2⟩
    · next hpop => exact ⟨hm, fun h => absurd h hpop⟩
  obtain ⟨m, hm', hme, hpop⟩ := he e hmem.1
  rcases List.mem_cons.mp hm' with rfl | hm'
  · exact absurd (hme ▸ rfl) (hmem.2 hpop)
  · exact ⟨m, hm', hme, hpop⟩

theorem push (h : Covered cs (n :: path)) (hn : n.info = .d) {s : Sys ω} (hs : s.cycles = cs) :
    Covered (out (ftsCyclePush E n) s).cycles (n :: path) := by
  obtain ⟨es, hl, he⟩ := h
  refine ⟨_, cyclePush_lists hn (hs ▸ hl), fun e hm => ?_⟩
  split at hm
  · exact he e hm
  · rcases List.mem_cons.mp hm with rfl | hm
    · exact ⟨n, List.mem_cons_self, rfl, by rw [hn]; rfl⟩
    · exact he e hm

/-- The scan of the ancestors finds what the table knows. -/
theorem scan {anc : List Ftsent} (h : Covered cs anc) {dev ino : ℕ}
    (hs : sameDir dev ino anc = none) : cycleLookup cs dev ino = none := by
  obtain ⟨es, hl, he⟩ := h
  refine hl.lookup_eq_none.mpr fun e hm hk => ?_
  obtain ⟨m, hm', rfl, -⟩ := he e hm
  have hne := List.find?_eq_none.mp hs m hm'
  have hkey : m.dev = dev ∧ m.ino = ino := Prod.mk.inj hk
  exact hne (by simp [hkey.1, hkey.2])

theorem moved {g : Ftsent → Ftsent} (hg : Relocates g) (h : Covered cs path) :
    Covered cs (path.map g) :=
  h.mono fun m hm => ⟨g m, List.mem_map_of_mem hm,
    hg.field Ftsent.entry (fun _ => rfl) m, fun hp => by rwa [hg.info m]⟩

end Covered

/-- Below a path that the table is covered by, the table does not change a verdict. -/
theorem Act.Sound.right {cs : CycleState} {anc : List Ftsent} {e : Act} (h : e.Sound cs anc)
    (hc : Covered cs anc) : e.Right := by
  cases e with
  | classifies p anc' i =>
    obtain ⟨⟨g, hg, rfl⟩, hj⟩ := h p anc' i rfl
    have hc' := hc.moved hg
    cases hs : sameDir p.dev p.ino (anc.map g) with
    | some t =>
      have hcyc : cycleOf cs p.dev p.ino (anc.map g) = some t.addr := by
        simp only [cycleOf, hs]
      have hi : i = .dc := by rw [hj.info, hcyc]; rfl
      have ht := List.mem_of_find?_eq_some hs
      have hk : t.key = p.key := by
        have := List.find?_some hs
        simp only [Bool.decide_and, Bool.and_eq_true, decide_eq_true_eq] at this
        exact Prod.ext this.2.symm this.1.symm
      exact ⟨.inr hi, iff_of_true hi ⟨t, ht, hk⟩, fun _ => ⟨t, ht, hk, (hj.cycle hi).trans hcyc⟩⟩
    | none =>
      have hcyc : cycleOf cs p.dev p.ino (anc.map g) = none := by
        simp only [cycleOf, hs]
        exact hc'.scan hs
      have hi : i = .d := by rw [hj.info, hcyc]; rfl
      refine ⟨.inl hi, iff_of_false (by rw [hi]; decide) ?_, fun h => by rw [hi] at h; cases h⟩
      rintro ⟨t, ht, hk⟩
      have hne := List.find?_eq_none.mp hs t ht
      have hkey : t.dev = p.dev ∧ t.ino = p.ino := Prod.mk.inj hk
      exact hne (by simp [hkey.1, hkey.2])
  | _ => trivial

theorem keeps_cycles {α : Type} {m : SysM ω α} (h : Keeps Sys.core m) : Keeps Sys.cycles m :=
  fun s => congrArg (fun c : Sys Unit => c.cycles) (h s)

theorem Frame.map_id : Frame.map id = id := by
  funext f
  simp [Frame.map]

theorem Frame.map_map (g h : Ftsent → Ftsent) (fs : List Frame) :
    (fs.map (Frame.map h)).map (Frame.map g) = fs.map (Frame.map (g ∘ h)) := by
  rw [List.map_map]
  refine List.map_congr_left fun f _ => ?_
  simp only [Function.comp_apply, Frame.map, List.map_map]

/-- What holds of nodes whatever comes after them holds of a list when it is linked up. -/
theorem forall_relink {Q : Ftsent → Prop} (hQ : ∀ k i, Q k → Q { k with link := i }) {l : List Ftsent}
    (h : ∀ k ∈ l, Q k) : ∀ k ∈ relink l, Q k := fun k hk => by
  obtain ⟨n, hn, i, rfl⟩ := exists_of_mem_relink hk
  exact hQ n i (h n hn)

/-- An entry of a directory on the path `anc`, as it is read: on directories it has the verdict of
`fts_stat`. -/
structure Entry (E : Env ω) (cs : CycleState) (anc : List Ftsent) (k : Ftsent) : Prop where
  instr : k.instr = .noinstr
  fresh : k.info = .d → cycleOf cs k.dev k.ino anc = none
  names : k.info = .d → E.Names k.key

namespace Entry

variable {cs : CycleState} {anc : List Ftsent} {k : Ftsent} {g : Ftsent → Ftsent}

theorem relinked (h : Entry E cs anc k) (i : Option NodeId) :
    Entry E cs anc { k with link := i } :=
  ⟨h.instr, h.fresh, h.names⟩

theorem relocated (h : Entry E cs anc k) (hg : Relocates g) : Entry E cs anc (g k) := by
  have hkey := hg.key k
  have hk : (g k).dev = k.dev ∧ (g k).ino = k.ino := Prod.mk.inj hkey
  refine ⟨(hg.field Ftsent.instr (fun _ => rfl) k).trans h.instr, fun hd => ?_, fun hd => ?_⟩
  · rw [hk.1, hk.2]
    exact h.fresh (hg.info k ▸ hd)
  · rw [hkey]
    exact h.names (hg.info k ▸ hd)

/-- The verdict does not depend on where the path buffer is. -/
theorem map_iff (hg : Relocates g) : Entry E cs (anc.map g) k ↔ Entry E cs anc k := by
  have hcyc := hg.cycleOf cs k.dev k.ino anc
  exact ⟨fun h => ⟨h.instr, fun hd => hcyc.symm.trans (h.fresh hd), h.names⟩,
    fun h => ⟨h.instr, fun hd => hcyc.trans (h.fresh hd), h.names⟩⟩

/-- The verdict does not depend on what else `fts_build` changes of a directory. -/
theorem change {n q : Ftsent} (h : Entry E cs (q :: anc) k) (hq : q.entry = n.entry) :
    Entry E cs (n :: anc) k := by
  have hcyc : cycleOf cs k.dev k.ino (n :: anc) = cycleOf cs k.dev k.ino (q :: anc) := by
    have hd : q.dev = n.dev := congrArg CycleEntry.dev hq
    have hi : q.ino = n.ino := congrArg CycleEntry.ino hq
    have ha : q.addr = n.addr := congrArg CycleEntry.ent hq
    by_cases hk : k.ino = n.ino ∧ k.dev = n.dev
    · simp [cycleOf, sameDir, hd, hi, hk, ha]
    · simp [cycleOf, sameDir, hd, hi, hk]
  exact ⟨h.instr, fun hd => hcyc.trans (h.fresh hd), h.names⟩

end Entry

theorem does_of_quiet {α : Type} {m : SysM ω α} {P : Act → Prop} {s : Sys ω}
    (hk : Keeps Sys.cycles m) (hw : Writes Act.Quiet m) (hP : ∀ e : Act, e.Quiet → P e) :
    Does P m s fun _ s' => s'.cycles = s.cycles :=
  ⟨fun e he => hP e (hw s e he), hk s⟩

namespace Walk

theorem buildInfo_does (C : BuildCtx) (fs : List Frame) (nlinks : ℤ) (p : Ftsent) (type : DType)
    (hp : p.instr = .noinstr) (s : Sys ω) :
    Does (Act.Sound s.cycles (pathNodes fs)) (buildInfo E C fs nlinks p type) s
      fun pn s' => s'.cycles = s.cycles ∧ Entry E s.cycles (pathNodes fs) pn.1 := by
  refine .gets (.ite (fun _ => .pure ⟨rfl, hp, ?_, ?_⟩) fun _ => .ite (fun _ => .pure ⟨rfl, hp, ?_, ?_⟩)
    fun _ => .bind (p := fun iq s' => s'.cycles = s.cycles ∧
      ∃ q, q.instr = .noinstr ∧ Stated E s.cycles (pathNodes fs) q iq.2 iq.1) ?_ ?_)
  iterate 2
    dsimp only
    intro h
    split at h <;> cases h
  iterate 2
    dsimp only
    intro h
    cases h
  · refine .ite (fun _ => ?_) fun _ => ?_
    · refine does_quiet (g := Sys.cycles) (fun _ => rfl) quiet_storePath (fun e he => he.sound _ _)
        fun _ s₁ h₁ => ?_
      have := stat_does (E := E) { p with accpath := .buf p.path } (pathNodes fs) false (some C.fd) s₁
      rw [h₁] at this
      exact this.mono fun iq s' h =>
        ⟨(congrArg (fun c : Sys Unit => c.cycles) h.1).trans h₁, { p with accpath := .buf p.path }, hp, h.2⟩
    · exact (stat_does { p with accpath := .name p.addr } (pathNodes fs) false none s).mono
        fun iq s' h => ⟨congrArg (fun c : Sys Unit => c.cycles) h.1, { p with accpath := .name p.addr }, hp, h.2⟩
  · rintro ⟨i, q⟩ s₁ ⟨h₁, q₀, hq₀, hq⟩
    have hinstr := congrArg Ftsent.instr hq.still
    exact .pure ⟨h₁, hinstr.trans hq₀, hq.fresh, fun hd => hq.names (.inl hd)⟩

theorem crashIf_quiet (b : Bool) : Writes Act.Quiet (crashIf b : SysM ω Unit) :=
  .ite (.emit (by simp [Act.Quiet])) (.pure _)

section GrowPath

variable {len : ℕ} {freed : Option NodeId} {a : Acc} {dnamlen : ℕ}

theorem growPath_quiet : Writes Act.Quiet (growPath E len freed a dnamlen) :=
  .ite (.bind (.gets _) fun _ => .bind quiet_palloc fun _ => .ite (.pure _) (.bind (.gets _) fun _ =>
    .ite (.bind (crashIf_quiet _) fun _ => .pure _) (.pure _))) (.pure _)

theorem growPath_cycles : Keeps Sys.cycles (growPath E len freed a dnamlen) := by
  have hpalloc : Keeps Sys.cycles (ftsPalloc E (dnamlen + len + 1)) := keeps_palloc fun _ _ _ _ _ => rfl
  exact .ite (.bind (.gets _) fun _ => .bind hpalloc fun _ => .ite (.pure _) (.bind (.gets _) fun _ =>
    .ite (.bind (.ite (.emit _) (.pure _)) fun _ => .pure _) (.pure _))) (.pure _)

/-- The path and the list so far are as they were, wherever the path buffer may be. -/
def Shifted (a : Acc) (fa : Bool × Acc) : Prop :=
  ∃ g, Relocates g ∧ fa.2.frames = a.frames.map (Frame.map g) ∧ fa.2.head = a.head.map g

theorem Shifted.room (b : Bool) (a : Acc) (maxlen : ℕ) : Shifted a (b, { a with maxlen := maxlen }) :=
  ⟨id, .id, by rw [Frame.map_id, List.map_id], (List.map_id _).symm⟩

theorem Shifted.move (base maxlen : ℕ) (a : Acc) : Shifted a (true, a.move base maxlen) :=
  ⟨adjust base, .adjust _, rfl, rfl⟩

theorem growPath_moves : Returns (Shifted a) (growPath E len freed a dnamlen) :=
  .ite (fun _ => .bind_any fun _ => .bind_any fun _ => .ite (fun _ => .pure (.room false a a.maxlen))
    fun _ => .bind_any fun _ => .ite (fun _ => .bind_any fun _ => .pure (.move _ _ a))
      fun _ => .pure (.room true a _)) fun _ => .pure (.room true a a.maxlen)

end GrowPath

theorem buildFail_does (fd : Fd) (s : Sys ω) {P : Act → Prop} (hP : ∀ e : Act, e.Quiet → P e) :
    Does P (buildFail E fd) s fun _ s' => s'.cycles = s.cycles :=
  does_of_quiet (.bind (.gets _) fun _ => .bind (keeps_cycles keeps_callClosedir) fun _ =>
      .bind (fun _ => rfl) fun _ => fun _ => rfl)
    (.bind (.gets _) fun _ => .bind (calling_quiet.callClosedir _) fun _ =>
      .bind (.modify _) fun _ => .modify _) hP

/-- What is known of a list of entries while it is read below the path `fs`. -/
structure Listed (E : Env ω) (cs : CycleState) (fs fs' : List Frame) (l : List Ftsent) (k : ℕ) :
    Prop where
  frames : ∃ g, Relocates g ∧ fs' = fs.map (Frame.map g)
  entries : ∀ k ∈ l, Entry E cs (pathNodes fs) k
  length : l.length ≤ k

theorem listed_self {cs : CycleState} {fs : List Frame} {l : List Ftsent}
    (h : ∀ k ∈ l, Entry E cs (pathNodes fs) k) (k : ℕ) : Listed E cs fs fs l (l.length + k) :=
  ⟨⟨id, .id, by rw [Frame.map_id, List.map_id]⟩, h, Nat.le_add_right _ _⟩

theorem Listed.moved {cs : CycleState} {fs fs₁ fs' : List Frame} {l : List Ftsent} {k : ℕ}
    {g : Ftsent → Ftsent} (h : Listed E cs fs₁ fs' l k) (hg : Relocates g)
    (hf : fs₁ = fs.map (Frame.map g)) : Listed E cs fs fs' l k := by
  obtain ⟨g', hg', hf'⟩ := h.frames
  refine ⟨⟨g' ∘ g, hg'.comp hg, by rw [hf', hf, Frame.map_map]⟩, fun k hk => ?_, h.length⟩
  have hk' := h.entries k hk
  rw [hf, pathNodes_map] at hk'
  exact (Entry.map_iff hg).mp hk'

theorem Listed.le {cs : CycleState} {fs fs' : List Frame} {l : List Ftsent} {k k' : ℕ}
    (h : Listed E cs fs fs' l k) (hk : k ≤ k') : Listed E cs fs fs' l k' :=
  ⟨h.frames, h.entries, h.length.trans hk⟩

theorem cycles_allocNode {name : CString} : Keeps Sys.cycles (allocNode E name) :=
  .bind (keeps_cycles keeps_callMalloc) fun _ =>
    .ite (.bind (.gets _) fun _ => .bind (.modify fun _ => rfl) fun _ => .pure _) (.pure _)

theorem buildLoop_does (C : BuildCtx) (freed : Option NodeId) (dps : List Dirent) :
    ∀ (a : Acc) (s : Sys ω), (∀ k ∈ a.head, Entry E s.cycles (pathNodes a.frames) k) →
      Does (Act.Sound s.cycles (pathNodes a.frames)) (buildLoop E C freed dps a) s fun ra s' =>
        s'.cycles = s.cycles ∧ Listed E s.cycles a.frames ra.2.frames ra.2.head
          (a.head.length + dps.length) := by
  induction dps with
  | nil =>
    exact fun a s ha => .pure ⟨rfl, ⟨id, .id, by rw [Frame.map_id, List.map_id]⟩, ha, le_rfl⟩
  | cons dp dps ih =>
    intro a s ha
    have hq : ∀ e : Act, e.Quiet → e.Sound s.cycles (pathNodes a.frames) := fun e he => he.sound _ _
    refine .gets (.ite (fun _ => (ih a s ha).mono ?_) fun _ => ?_)
    · intro ra s' h
      exact ⟨h.1, h.2.frames, h.2.entries, h.2.length.trans (by rw [List.length_cons]; omega)⟩
    refine .bind (p := fun r s₁ => s₁.cycles = s.cycles ∧ ∀ p, r = some p → p.instr = .noinstr)
      ⟨fun e he => hq e (quiet_allocNode s e he), ?_, ?_⟩ ?_
    · exact cycles_allocNode s
    · intro p hp
      rcases allocNode_cases (E := E) dp.name s with ⟨h, -⟩ | ⟨h, -⟩
      · rw [h] at hp
        cases hp
      · rw [h] at hp
        cases hp
        rfl
    rintro (_ | p) s₁ ⟨h₁, hp⟩
    · exact .bind (p := fun _ s' => s'.cycles = s.cycles)
        ((buildFail_does C.fd s₁ hq).mono fun _ _ h => h.trans h₁) fun _ s₂ h₂ => .pure ⟨h₂, listed_self ha _⟩
    · refine .bind (p := fun fa s₂ => s₂.cycles = s.cycles ∧ Shifted a fa)
        ⟨fun e he => hq e (growPath_quiet s₁ e he), (growPath_cycles s₁).trans h₁, growPath_moves s₁⟩ ?_
      rintro ⟨fits, a₁⟩ s₂ ⟨h₂, g, hg, hf, hh⟩
      dsimp only at hf hh
      have hpath : pathNodes a₁.frames = (pathNodes a.frames).map g := by rw [hf, pathNodes_map]
      have ha₁ : ∀ k ∈ a₁.head, Entry E s.cycles (pathNodes a.frames) k := by
        intro k hk
        rw [hh] at hk
        obtain ⟨m, hm, rfl⟩ := List.mem_map.mp hk
        exact (ha m hm).relocated hg
      have hlen : a₁.head.length = a.head.length := by rw [hh, List.length_map]
      have hstop : Listed E s.cycles a.frames a₁.frames a₁.head (a.head.length + (dp :: dps).length) :=
        ⟨⟨g, hg, hf⟩, ha₁, hlen ▸ Nat.le_add_right _ _⟩
      refine .ite (fun _ => ?_) fun _ => .gets (.ite (fun _ => ?_) fun _ => ?_)
      · exact .bind ((buildFail_does C.fd s₂ hq).mono fun _ _ h => h.trans h₂) fun _ s₃ h₃ =>
          .pure ⟨h₃, hstop⟩
      · exact .modify (.bind ((buildFail_does C.fd _ hq).mono fun _ _ h => h.trans h₂) fun _ s₃ h₃ =>
          .pure ⟨h₃, hstop⟩)
      · refine .bind (p := fun pn s₃ => s₃.cycles = s.cycles ∧ Entry E s.cycles (pathNodes a.frames) pn.1)
          ?_ ?_
        · have hinfo := buildInfo_does (E := E) C a₁.frames a₁.nlinks
            { p with
              path := s₂.path.addr, level := C.level, parent := some C.cur
              pathlen := ftsLengthCap (C.len + dp.name.length)
              isw := p.isw || (s₂.opts.whiteout && dp.type == .wht) } dp.type (hp p rfl) s₂
          rw [h₂, hpath] at hinfo
          exact (hinfo.weaken fun e he => he.moved hg).mono fun pn s₃ h₃ =>
            ⟨h₃.1, (Entry.map_iff hg).mp h₃.2⟩
        · rintro ⟨q, nlinks⟩ s₃ ⟨h₃, hq₃⟩
          dsimp only at hq₃ ⊢
          have hnext := ih { a₁ with head := relink (a₁.head ++ [q]), nlinks := nlinks } s₃ ?_
          · dsimp only at hnext
            rw [h₃, hpath] at hnext
            refine (hnext.weaken fun e he => he.moved hg).mono fun ra s₄ h₄ => ⟨h₄.1, ?_⟩
            refine (h₄.2.moved hg hf).le ?_
            rw [length_relink, List.length_append, List.length_singleton, List.length_cons, hlen]
            omega
          · dsimp only
            rw [h₃, hpath]
            refine fun k hk => (Entry.map_iff hg).mpr (forall_relink (fun _ i h => h.relinked i) (fun n hn => ?_) k hk)
            rcases List.mem_append.mp hn with hn | hn
            · exact ha₁ n hn
            · rw [List.mem_singleton.mp hn]
              exact hq₃

theorem sortIfAsked_does {Q : Ftsent → Prop} (hQ : ∀ k i, Q k → Q { k with link := i })
    {head : List Ftsent} {n : ℕ} {P : Act → Prop} (s : Sys ω) (hP : ∀ e : Act, e.Quiet → P e)
    (h : ∀ k ∈ head, Q k) : Does P (sortIfAsked E head n) s fun l s' =>
      s'.cycles = s.cycles ∧ (∀ k ∈ l, Q k) ∧ l.length = head.length := by
  have hgrow : Keeps Sys.cycles (growArray E n) :=
    .bind (.gets _) fun _ => .ite (.bind (keeps_cycles keeps_callReallocArray) fun _ =>
      .ite (.bind (.modify fun _ => rfl) fun _ => .pure _)
        (.bind (.modify fun _ => rfl) fun _ => .pure _)) (.pure _)
  refine .gets ?_
  cases (id s).compar with
  | none => exact .pure ⟨rfl, h, rfl⟩
  | some cmp =>
    refine .ite (fun _ => does_quiet hgrow quiet_growArray hP fun b s₁ h₁ => .ite (fun _ => .pure ?_)
      fun _ => .pure ⟨h₁, h, rfl⟩) fun _ => .pure ⟨rfl, h, rfl⟩
    have hperm := sortedBy_perm E.qsort cmp Ftsent.seen head
    exact ⟨h₁, forall_relink hQ fun m hm => h m (hperm.subset hm), by rw [length_relink, hperm.length_eq]⟩

end Walk

/-- A node without what `fts_build` may change of it. -/
def Ftsent.unread (n : Ftsent) : Ftsent := { n.bare with info := .zero, errno := 0, dontchdir := false }

/-- The values of `fts_info` with which a directory is returned for the last time. -/
def Info.closes : Info → Bool
  | .dp | .dnr | .err => true
  | _ => false

/-- Some directory stream may hand out `k` entries or more. -/
def Env.Lists (E : Env ω) (k : ℕ) : Prop :=
  ∃ w fd entries e, (E.fdopendirFn w fd).1 = .ok (entries, e) ∧ k ≤ entries.length

theorem Env.Lists.le {k k' : ℕ} (h : E.Lists k') (hk : k ≤ k') : E.Lists k := by
  obtain ⟨w, fd, entries, e, he, hle⟩ := h
  exact ⟨w, fd, entries, e, he, hk.trans hle⟩

/-- What `fts_build` leaves of a path that begins with the directory `c`. -/
structure Kept (c : Ftsent) (rest : List Ftsent) (up fs : List Frame) (c' : Ftsent) : Prop where
  cur : c'.unread = c.unread
  frames : ∃ g, Relocates g ∧ fs = ⟨c', rest.map g⟩ :: up.map (Frame.map g)

theorem Kept.mark {c q : Ftsent} {rest : List Ftsent} {up : List Frame} (hq : q.unread = c.unread) :
    Kept c rest up (⟨q, rest⟩ :: up) q :=
  ⟨hq, id, .id, by rw [Frame.map_id, List.map_id, List.map_id]⟩

theorem Kept.covered {cs : CycleState} {c c' : Ftsent} {rest : List Ftsent} {up fs : List Frame}
    (h : Kept c rest up fs c') (hc : Covered cs (c :: pathNodes up))
    (hi : c.info.pops = true → c'.info.pops = true) : Covered cs (pathNodes fs) := by
  obtain ⟨g, hg, hfs⟩ := h.frames
  have hentry : c'.entry = c.entry := (congrArg Ftsent.entry h.cur :)
  have hpath : pathNodes fs = c' :: (pathNodes up).map g := by rw [hfs, ← pathNodes_map]; rfl
  rw [hpath]
  refine (hc.change ⟨hentry, hi⟩).mono fun m hm => ?_
  rcases List.mem_cons.mp hm with rfl | hm
  · exact ⟨m, List.mem_cons_self, rfl, id⟩
  · exact ⟨g m, List.mem_cons_of_mem _ (List.mem_map_of_mem hm),
      hg.field Ftsent.entry (fun _ => rfl) m, fun hp => by rwa [hg.info m]⟩

theorem Kept.mapCur {c : Ftsent} {rest : List Ftsent} {up fs : List Frame} {c' : Ftsent}
    {f : Ftsent → Ftsent} (h : Kept c rest up fs c')
    (hf : ∀ n, (f n).unread = n.unread) : Kept c rest up (Walk.mapCur f fs) (f c') := by
  obtain ⟨g, hg, hfs⟩ := h.frames
  exact ⟨(hf c').trans h.cur, g, hg, by rw [hfs, Walk.mapCur]⟩

/-- What `fts_build` returns for the directory `c`, and leaves of the nodes `z` of the stream: with
a list the directory is as it was. -/
structure Scanned (E : Env ω) (cs : CycleState) (type : BuildType) (z : Walk) (c : Ftsent)
    (rest : List Ftsent) (up : List Frame) (kids : List Ftsent) (z' : Walk) : Prop where
  frames : ∃ c', Kept c rest up z'.frames c' ∧ (kids ≠ [] → c'.info = c.info) ∧
    (kids = [] → c'.info.closes = true ∨ type ≠ .bread ∧ c'.info = c.info)
  entries : ∀ k ∈ kids, Entry E cs (c :: pathNodes up) k
  length : kids = [] ∨ E.Lists kids.length
  root : z'.root = z.root
  child : z'.child = z.child
  freed : z'.freed = z.freed

namespace Walk

variable {cs : CycleState} {type : BuildType} {z : Walk} {c : Ftsent} {rest : List Ftsent}
  {up : List Frame}

/-- A directory that could not be read, or is empty. -/
theorem scanned_nil {z' : Walk} {c' : Ftsent} (hk : Kept c rest up z'.frames c')
    (hi : c'.info.closes = true ∨ type ≠ .bread ∧ c'.info = c.info)
    (hz : z'.root = z.root ∧ z'.child = z.child ∧ z'.freed = z.freed) :
    Scanned E cs type z c rest up [] z' :=
  ⟨⟨c', hk, fun h => absurd rfl h, fun _ => hi⟩, by simp, .inl rfl, hz.1, hz.2.1, hz.2.2⟩

theorem buildLeave_does (c : Ftsent) (up : List Frame) (s : Sys ω) {P : Act → Prop}
    (hP : ∀ e : Act, e.Quiet → P e) :
    Does P (buildLeave E c up) s fun _ s' => s'.cycles = s.cycles := by
  refine .ite (fun _ => .gets (does_of_quiet (keeps_cycles keeps_callFchdir)
    (calling_quiet.callFchdir _) hP)) fun _ => ?_
  cases up with
  | nil => exact .pure rfl
  | cons g _ => exact does_of_quiet (keeps_cycles keeps_safeChangedir) calling_quiet.safeChangedir hP

theorem buildReturn_does (z : Walk) {fs : List Frame} {c' : Ftsent} (descend : Bool) {head : List Ftsent}
    {P : Act → Prop} {s : Sys ω} (hP : ∀ e : Act, e.Quiet → P e) (hk : Kept c rest up fs c')
    (hi : c'.info = c.info) (hl : ∀ k ∈ head, Entry E s.cycles (c :: pathNodes up) k)
    (hlen : E.Lists head.length) :
    Does P (buildReturn E type { z with frames := fs } c fs.tail descend head) s fun r s' =>
      s'.cycles = s.cycles ∧ Scanned E s.cycles type z c rest up r.1 r.2 := by
  have hfound : ∀ l : List Ftsent, (∀ k ∈ l, Entry E s.cycles (c :: pathNodes up) k) →
      l.length = head.length → head.length ≠ 0 →
      Scanned E s.cycles type z c rest up l { z with frames := fs } := fun l hl hlen' hne =>
    ⟨⟨c', hk, fun _ => hi, fun h => absurd (hlen' ▸ h ▸ rfl) hne⟩, hl, .inr (hlen' ▸ hlen), rfl, rfl, rfl⟩
  refine .ite (fun _ => .pure ⟨rfl, ?_⟩) fun hne => .bind (sortIfAsked_does (fun _ i h => h.relinked i) s hP hl) ?_
  · by_cases ht : type = .bread
    · rw [if_pos ht]
      exact scanned_nil (hk.mapCur (f := fun n => { n with info := .dp }) fun _ => rfl) (.inl rfl) ⟨rfl, rfl, rfl⟩
    · rw [if_neg ht]
      exact scanned_nil hk (.inr ⟨ht, hi⟩) ⟨rfl, rfl, rfl⟩
  · rintro l s₁ ⟨h₁, hl₁, hlen₁⟩
    refine .ite (fun _ => .bind (buildLeave_does c fs.tail s₁ hP) fun failed s₂ h₂ => .ite (fun _ => ?_)
      fun _ => .pure ⟨h₂.trans h₁, hfound l hl₁ hlen₁ hne⟩) fun _ => .pure ⟨h₁, hfound l hl₁ hlen₁ hne⟩
    refine .modify (.pure ⟨h₂.trans h₁, ?_⟩)
    exact scanned_nil (hk.mapCur (f := fun n => { n with info := .err }) fun _ => rfl) (.inl rfl) ⟨rfl, rfl, rfl⟩

theorem buildRead_does {fd : Fd} {entries : List Dirent} {endErrno : Errno} {s : Sys ω}
    (hc : Covered s.cycles (c :: pathNodes up)) (hlen : E.Lists entries.length) :
    Does Act.Right (buildRead E type z c rest up fd entries endErrno) s fun r s' =>
      s'.cycles = s.cycles ∧ Scanned E s.cycles type z c rest up r.1 r.2 := by
  have hq : ∀ e : Act, e.Quiet → e.Right := fun _ => Act.Quiet.right
  refine .gets ?_
  generalize linkPlan _ type c = plan
  obtain ⟨nlinks, nostat⟩ := plan
  refine does_quiet (.ite (keeps_cycles keeps_safeChangedir) (.pure _))
    (.ite calling_quiet.safeChangedir (.pure _)) hq fun failed s₁ h₁ => ?_
  refine does_quiet (g := Sys.cycles) (.ite (.gets _) (.pure _)) (.ite (.gets _) (.pure _)) hq fun cderrno s₂ h₂ => .gets ?_
  refine does_quiet (g := Sys.cycles) (.ite (fun _ => rfl) (.pure _))
    (.ite quiet_storePath (.pure _)) hq fun _ s₃ h₃ => .gets ?_
  generalize roomLeft _ _ = maxlen
  refine .modify ?_
  have hs : s₃.cycles = s.cycles := h₃.trans (h₂.trans h₁)
  have hunread : (if failed then { c with dontchdir := true } else c).unread = c.unread := by
    split <;> rfl
  have hinfo : (if failed then { c with dontchdir := true } else c).info = c.info := by split <;> rfl
  have hsame : Stays c (if failed then { c with dontchdir := true } else c) := by
    split
    · exact ⟨rfl, id⟩
    · exact ⟨rfl, id⟩
  generalize (if failed then { c with dontchdir := true } else c) = c' at hunread hinfo hsame ⊢
  have hc' : Covered s₃.cycles (pathNodes (⟨c', rest⟩ :: up)) := hs ▸ hc.change hsame
  refine .bind ((buildLoop_does _ z.freed entries ⟨⟨c', rest⟩ :: up, [], nlinks, maxlen⟩ _ ?_).weaken
    fun e he => he.right hc') ?_
  · intro k hk
    cases hk
  rintro ⟨ok, a⟩ s₄ ⟨h₄, hl⟩
  obtain ⟨g, hg, hf⟩ := hl.frames
  dsimp only at h₄ hl hf ⊢
  have hs₄ : s₄.cycles = s.cycles := h₄.trans hs
  have hkept : Kept c rest up a.frames (g c') :=
    ⟨(congrArg Ftsent.unread (hg c')).trans hunread, g, hg, hf⟩
  have hgi : (g c').info = c.info := (hg.info c').trans hinfo
  have hbroken : ∀ z', z' = { z with frames := mapCur (fun n => { n with info := .err }) a.frames } →
      Scanned E s.cycles type z c rest up [] z' := by
    rintro _ rfl
    exact scanned_nil (hkept.mapCur (f := fun n => { n with info := .err }) fun _ => rfl) (.inl rfl)
      ⟨rfl, rfl, rfl⟩
  refine .ite (fun _ => .pure ⟨hs₄, hbroken _ rfl⟩) fun _ => ?_
  refine does_quiet (g := Sys.cycles) (.ite (fun _ => rfl) (.pure _))
    (.ite (.modify _) (.pure _)) hq fun _ s₅ h₅ => .gets (.ite (fun _ => ?_) fun _ => ?_)
  · exact .bind ((buildFail_does _ s₅ hq).mono fun _ _ h => h.trans (h₅.trans hs₄)) fun _ s₆ h₆ =>
      .pure ⟨h₆, hbroken _ rfl⟩
  · refine does_quiet (keeps_cycles keeps_callClosedir) (calling_quiet.callClosedir _) hq fun _ s₆ h₆ => ?_
    have hs₆ : s₆.cycles = s.cycles := h₆.trans (h₅.trans hs₄)
    have hentries : ∀ k ∈ a.head, Entry E s₆.cycles (c :: pathNodes up) k := fun k hk =>
      hs₆ ▸ hs ▸ (hl.entries k hk).change hsame.1
    exact (buildReturn_does z _ hq hkept hgi hentries (hlen.le (by simpa using hl.length))).mono
      fun r s₇ h₇ => ⟨h₇.1.trans hs₆, hs₆ ▸ h₇.2⟩

theorem openDir_returns {path : PathArg} : Returns (fun r => (∀ ie, r = .error ie → ie.1.closes = true) ∧
    ∀ d, r = .ok d → E.Lists d.2.1.length) (openDir E type c path) := by
  have hfail : ∀ (fd : Fd) (e : Errno), Returns (fun r => (∀ ie, r = .error ie → ie.1.closes = true) ∧
      ∀ d, r = .ok d → E.Lists d.2.1.length) (do
        callClose E fd
        setErrno e
        pure (.error (.err, e)) : SysM ω (Except (Info × Errno) (Fd × List Dirent × Errno))) := by
    refine fun fd e => .bind_any fun _ => .bind_any fun _ => .pure ⟨?_, ?_⟩
    · rintro _ ⟨⟩
      rfl
    · rintro _ ⟨⟩
  refine .bind_any fun o => .bind_any fun r => ?_
  cases r with
  | none =>
    refine .bind_any fun e => .pure ⟨?_, ?_⟩
    · rintro _ ⟨⟩
      split <;> rfl
    · rintro _ ⟨⟩
  | some fd =>
    refine .bind_any fun r => ?_
    cases r with
    | none => exact .bind_any fun _ => hfail fd _
    | some sb =>
      refine .ite (fun _ => hfail fd _) fun _ => .bind (P := fun r => ∀ d, r = some d → E.Lists d.1.length) ?_ ?_
      · intro s d hd
        refine ⟨s.world, fd, d.1, d.2, ?_, le_rfl⟩
        revert hd
        change (answer _ s _ _ _).1 = _ → _
        rcases E.fdopendirFn s.world fd with ⟨_ | _, w⟩ <;> simp [answer]
      · rintro (_ | ⟨entries, e⟩) h
        · exact .bind_any fun _ => hfail fd _
        · refine .pure ⟨?_, ?_⟩
          · rintro _ ⟨⟩
          · rintro _ ⟨⟩
            exact h _ rfl

/-- `fts_build` gives the right verdicts, and its list and the path are as they have to be. -/
theorem build_does {s : Sys ω} (hz : z.frames = ⟨c, rest⟩ :: up) (hc : Covered s.cycles (pathNodes z.frames)) :
    Does Act.Right (build E type z) s fun r s' =>
      s'.cycles = s.cycles ∧ Scanned E s.cycles type z c rest up r.1 r.2 := by
  have hq : ∀ e : Act, e.Quiet → e.Right := fun _ => Act.Quiet.right
  unfold build
  rw [hz]
  refine .ite (fun _ => .modify (.modify (.pure ⟨rfl, ?_⟩))) fun _ => .gets ?_
  · exact scanned_nil (Kept.mark (q := { c with info := .err }) rfl) (.inl rfl) ⟨rfl, rfl, rfl⟩
  · refine .bind (p := fun r s₁ => s₁.cycles = s.cycles ∧ (∀ ie, r = .error ie → ie.1.closes = true) ∧
      ∀ d, r = .ok d → E.Lists d.2.1.length)
      ⟨fun e he => hq e (calling_quiet.openDir s e he), keeps_cycles keeps_openDir s, openDir_returns s⟩ ?_
    rintro (⟨i, e⟩ | ⟨fd, entries, endErrno⟩) s₁ ⟨h₁, hi, hd⟩
    · exact .pure ⟨h₁, scanned_nil (Kept.mark (q := { c with info := i, errno := e }) rfl) (.inl (hi _ rfl)) ⟨rfl, rfl, rfl⟩⟩
    · have hc₁ : Covered s₁.cycles (c :: pathNodes up) := by
        rw [hz] at hc
        exact h₁ ▸ hc
      exact (buildRead_does hc₁ (hd _ rfl)).mono fun r s₂ h₂ => ⟨h₂.1.trans h₁, h₁ ▸ h₂.2⟩

end Walk
end MuslBsd.Fts
