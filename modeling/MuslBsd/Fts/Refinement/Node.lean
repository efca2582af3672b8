import MuslBsd.Fts.Shape

/-! The functions over the heap run in lockstep with the functions over lists: same answers, same
trace, same system, and the nodes of the one are the nodes of the other. Where the heap would
fault, the lists write `crashes`. -/
namespace MuslBsd.Fts
open MuslBsd.Support Traced

variable {ω : Type}

/-- Lockstep of a program over the heap and a program over lists. -/
abbrev Lock {α β : Type} (m : M ω α) (a : SysM ω β) (st : St ω) (post : α → St ω → β → Prop) :
    Prop :=
  Sim St.sys (· = Act.crashes) m a st post

/-- The two states have the same pointers and anchors. -/
structure Aside (st st' : St ω) : Prop where
  cur : st'.cur = st.cur
  child : st'.child = st.child
  anchors : st'.sys.anchors = st.sys.anchors

theorem Aside.refl (st : St ω) : Aside st st := ⟨rfl, rfl, rfl⟩

theorem Aside.trans {st b c : St ω} (h : Aside st b) (h' : Aside b c) : Aside st c :=
  ⟨h'.cur.trans h.cur, h'.child.trans h.child, h'.anchors.trans h.anchors⟩

theorem Aside.addr {st st' : St ω} (h : Aside st st') : st'.sys.path.addr = st.sys.path.addr :=
  congrArg Prod.fst h.anchors

theorem Aside.next {st st' : St ω} (h : Aside st st') : st'.sys.next = st.sys.next :=
  congrArg Prod.snd h.anchors

section Rules

variable {α β γ : Type} {st : St ω} {post : γ → St ω → β → Prop} {a : SysM ω β} {n : Ftsent}
  {l : List Ftsent}

theorem lock_runs {m : M ω α} {f : α → M ω γ} {x : α}
    (hr : ∃ h, Runs m st x h ∧ Nodes h l)
    (hf : ∀ st', Aside st st' → st'.sys = st.sys → Nodes st'.heap l → Lock (f x) a st' post) :
    Lock (m >>= f) a st post := by
  obtain ⟨h, hr, hl⟩ := hr
  exact sim_silent hr rfl (hf _ ⟨rfl, rfl, rfl⟩ rfl hl)

theorem lock_load {f : Ftsent → M ω γ} {i : NodeId} (h : st.heap i = some n)
    (hf : Lock (f n) a st post) : Lock (load i >>= f) a st post :=
  sim_silent (load_run h) rfl hf

theorem lock_update {f : Unit → M ω γ} {g : Ftsent → Ftsent} {i : NodeId}
    (ho : Nodes st.heap (n :: l)) (hi : n.addr = i) (hn : (g n).addr = n.addr)
    (hf : ∀ st', Aside st st' → st'.sys = st.sys → Nodes st'.heap (g n :: l) →
      Lock (f ()) a st' post) :
    Lock (update i g >>= f) a st post := by
  subst hi
  exact lock_runs ⟨_, runs_update ho.head g, ho.store hn⟩ hf

theorem lock_free {f : Unit → M ω γ} {i : NodeId} (ho : Nodes st.heap (n :: l)) (hi : n.addr = i)
    (hf : ∀ st', Aside st st' → st'.sys = st.sys → Nodes st'.heap l → Lock (f ()) a st' post) :
    Lock (free i >>= f) a st post := by
  subst hi
  exact lock_runs ⟨_, runs_free ho.head, ho.free⟩ hf

theorem lock_gets {f : α → M ω γ} {g : St ω → α} (hf : Lock (f (g st)) a st post) :
    Lock (Faulting.gets g >>= f) a st post :=
  sim_silent rfl rfl hf

theorem lock_setCur {f : Unit → M ω γ} {i : Option NodeId}
    (hf : Lock (f ()) a { st with cur := i } post) : Lock (setCur i >>= f) a st post :=
  sim_silent rfl rfl hf

theorem lock_setChild {f : Unit → M ω γ} {i : Option NodeId}
    (hf : Lock (f ()) a { st with child := i } post) : Lock (setChild i >>= f) a st post :=
  sim_silent rfl rfl hf

theorem lock_sys {b : SysM ω α} {f : α → M ω γ} {g : α → SysM ω β}
    (hf : Lock (f (val b st.sys)) (g (val b st.sys)) { st with sys := out b st.sys } post) :
    Lock (onSys b >>= f) (b >>= g) st post := by
  refine sim_bind (p := fun x s' y => x = y ∧ s' = { st with sys := out b st.sys })
    (sim_zoom (fun _ _ => rfl) ⟨rfl, rfl⟩) ?_
  rintro x s' y ⟨rfl, rfl⟩ - rfl
  exact hf

/-- A step of the system that keeps the anchors and returns a value with `P`. -/
theorem lock_returns {b : SysM ω α} {P : α → Prop} (hk : Keeps Sys.anchors b) (hp : Returns P b)
    {f : α → M ω γ} {g : α → SysM ω β}
    (hf : ∀ x st', P x → Aside st st' → st'.heap = st.heap → Lock (f x) (g x) st' post) :
    Lock (onSys b >>= f) (b >>= g) st post :=
  lock_sys (hf _ _ (hp _) ⟨rfl, rfl, hk _⟩ rfl)

/-- A step of the system that keeps the anchors, with what it returns from here. -/
theorem lock_val {b : SysM ω α} {P : α → Prop} (hk : Keeps Sys.anchors b) (hp : P (val b st.sys))
    {f : α → M ω γ} {g : α → SysM ω β}
    (hf : ∀ x st', P x → Aside st st' → st'.heap = st.heap → Lock (f x) (g x) st' post) :
    Lock (onSys b >>= f) (b >>= g) st post :=
  lock_sys (hf _ _ hp ⟨rfl, rfl, hk _⟩ rfl)

/-- A step of the system that keeps the anchors. -/
theorem lock_keeps {b : SysM ω α} (hk : Keeps Sys.anchors b) {f : α → M ω γ} {g : α → SysM ω β}
    (hf : ∀ x st', Aside st st' → st'.heap = st.heap → Lock (f x) (g x) st' post) :
    Lock (onSys b >>= f) (b >>= g) st post :=
  lock_sys (hf _ _ ⟨rfl, rfl, hk _⟩ rfl)

theorem lock_keeps_last {b : SysM ω α} (hk : Keeps Sys.anchors b) {post : α → St ω → α → Prop}
    (hf : ∀ x st', Aside st st' → st'.heap = st.heap → post x st' x) : Lock (onSys b) b st post :=
  sim_zoom (fun _ _ => rfl) (hf _ _ ⟨rfl, rfl, hk _⟩ rfl)

theorem lock_get {f : Sys ω → M ω γ} {g : Sys ω → SysM ω β} (hf : Lock (f st.sys) (g st.sys) st post) :
    Lock (onSys getSys >>= f) (getSys >>= g) st post :=
  lock_sys hf

theorem lock_opts {f : Options → M ω γ} {g : Options → SysM ω β}
    (hf : Lock (f st.sys.opts) (g st.sys.opts) st post) :
    Lock (onSys getOpts >>= f) (getOpts >>= g) st post :=
  lock_sys hf

theorem lock_errno {f : Errno → M ω γ} {g : Errno → SysM ω β}
    (hf : Lock (f st.sys.errno) (g st.sys.errno) st post) :
    Lock (onSys getErrno >>= f) (getErrno >>= g) st post :=
  lock_sys hf

/-- Only the program over lists looks at the system. -/
theorem lock_right {m : M ω γ} {b : SysM ω α} {g : α → SysM ω β} (ht : ∀ s, acts b s = [])
    (ho : ∀ s, out b s = s) (hf : Lock m (g (val b st.sys)) st post) : Lock m (b >>= g) st post :=
  sim_silent_right (ht _) (ho _) hf

/-- A step of the system that is taken under a condition. -/
theorem lock_ite_keeps {c : Prop} [Decidable c] {b : SysM ω α} {v : α} (hk : Keeps Sys.anchors b)
    {f : α → M ω γ} {g : α → SysM ω β}
    (hf : ∀ x st', Aside st st' → st'.heap = st.heap → Lock (f x) (g x) st' post) :
    Lock ((if c then onSys b else pure v) >>= f) ((if c then b else pure v) >>= g) st post := by
  split
  · exact lock_keeps hk hf
  · exact sim_silent (x := v) (u := st) rfl rfl
      (lock_right (fun _ => rfl) (fun _ => rfl) (hf v st (.refl st) rfl))

/-- Where the heap faults, the lists ask `crashIf` first. -/
theorem lock_crash {m : M ω γ} {b : Bool} {g : Unit → SysM ω β} (hm : Faults m st)
    (hb : b = true) : Lock m (crashIf b >>= g) st post := by
  refine sim_fault hm (e := .crashes) (mem_acts_bind.mpr (.inl ?_)) rfl
  simp [crashIf, hb]

/-- Where the heap goes on, `crashIf` is silent. -/
theorem lock_calm {m : M ω γ} {b : Bool} {g : Unit → SysM ω β} (hb : b = false)
    (hf : Lock m (g ()) st post) : Lock m (crashIf b >>= g) st post := by
  have : (crashIf b : SysM ω Unit) = pure () := by simp [crashIf, hb]
  rw [this]
  exact lock_right (fun _ => rfl) (fun _ => rfl) hf

theorem lock_pure {x : γ} {y : β} (h : post x st y) : Lock (pure x) (pure y) st post := sim_pure h

/-- A silent end of the heap side. -/
theorem lock_last {m : M ω γ} {x : γ} {y : β} (hr : ∃ h, Runs m st x h ∧ Nodes h l)
    (hp : ∀ st', Aside st st' → st'.sys = st.sys → Nodes st'.heap l → post x st' y) :
    Lock m (pure y) st post := by
  obtain ⟨h, hr, hl⟩ := hr
  exact .inl ⟨x, _, hr, rfl, hp _ ⟨rfl, rfl, rfl⟩ rfl hl⟩

/-- The list side ends with what the heap side goes on to store. -/
theorem lock_bind_pure {m : M ω γ} (h : Lock m (a >>= pure) st post) : Lock m a st post := by
  rwa [bind_pure] at h

end Rules

/-! ### A node below a path -/

theorem rootParent_lt {r : Ftsent} (h : r.level = rootParentLevel) : r.level < rootLevel := by
  rw [h]; decide

section Node

variable {E : Env ω} {base : ℕ} {next : NodeId} {r p : Ftsent} {fs : List Frame}
  {others : List Ftsent} {st : St ω}

theorem accArg_run (ho : Nodes st.heap (p :: others)) (hm : ∀ n ∈ pathNodes fs, n ∈ others)
    (hacc : ∀ a, p.accpath = .name a → a ∈ (p :: pathNodes fs).map Ftsent.addr) :
    accArg p st = (.ok (accArgOf st.sys p (pathNodes fs)), st, []) := by
  cases h : p.accpath with
  | null => simp only [accArg, accArgOf, h]; rfl
  | wild => simp only [accArg, accArgOf, h]; rfl
  | buf b => simp only [accArg, accArgOf, h]; rfl
  | name a =>
    obtain ⟨m, hmem, hma⟩ := List.mem_map.mp (hacc a h)
    obtain ⟨m', hfind⟩ := Option.isSome_iff_exists.mp
      (List.find?_isSome.mpr ⟨m, hmem, by simpa using hma⟩ :
        ((p :: pathNodes fs).find? (·.addr = a)).isSome)
    have hm' : m' ∈ p :: others := by
      rcases List.mem_cons.mp (List.mem_of_find?_eq_some hfind) with rfl | hm'
      · simp
      · exact List.mem_cons_of_mem _ (hm m' hm')
    have ha : m'.addr = a := by simpa using List.find?_some hfind
    have hstr : accArgOf st.sys p (pathNodes fs) = .str m'.name := by
      simp only [accArgOf, h, hfind]
    have hrun : accArg p = (load a >>= fun m => pure (.str m.name) : M ω PathArg) := by
      simp only [accArg, h]
    rw [hstr]
    exact (congrFun hrun st).trans (Faulting.bind_ok (load_run (ha ▸ ho.get hm')))

theorem lock_accArg {l : List Frame} {α β : Type} {f : PathArg → M ω α} {g : SysM ω β} {post : α → St ω → β → Prop}
    (ho : Nodes st.heap (p :: others)) (hm : ∀ n ∈ pathNodes l, n ∈ others)
    (hacc : ∀ a, p.accpath = .name a → a ∈ (p :: pathNodes l).map Ftsent.addr)
    (hf : Lock (f (accArgOf st.sys p (pathNodes l))) g st post) : Lock (accArg p >>= f) g st post :=
  sim_silent (accArg_run ho hm hacc) rfl hf

/-- `statFile` touches only the stat buffer and `fts_errno`. -/
theorem statFile_node {follow : Bool} {dfd : Option Fd} {path : PathArg} :
    Returns (fun rq => ∃ sb e, rq.2 = { p with statp := sb, errno := e })
      (statFile E p follow dfd path) := by
  have hkeep : ∀ (o : Options) (sb : Stat) (q : Ftsent),
      (∃ e, q = { p with errno := e }) →
      ∃ sb' e, (if o.nostat then q else { q with statp := sb }) = { p with statp := sb', errno := e } := by
    rintro o sb q ⟨e, rfl⟩
    split
    · exact ⟨p.statp, e, rfl⟩
    · exact ⟨sb, e, rfl⟩
  refine .ite (fun _ => .bind_any fun _ => .pure ⟨p.statp, ERANGE, rfl⟩) fun _ => .bind_any fun o => ?_
  refine .ite (fun _ => .pure (hkeep _ _ _ ⟨_, rfl⟩)) fun _ => .ite (fun _ => .bind_any fun r => ?_)
    (fun _ => .bind_any fun r => ?_)
  · cases r with
    | some sb => exact .pure (hkeep _ _ _ ⟨_, rfl⟩)
    | none =>
      refine .bind_any fun saved => .bind_any fun r => ?_
      cases r with
      | some sb => exact .bind_any fun _ => .pure (hkeep _ _ _ ⟨_, rfl⟩)
      | none => exact .pure (hkeep _ _ _ ⟨_, rfl⟩)
  · cases r with
    | some sb => exact .pure (hkeep _ _ _ ⟨_, rfl⟩)
    | none => exact .bind_any fun _ => .pure (hkeep _ _ _ ⟨_, rfl⟩)

/-- A node with no `fts_accpath` is not found. -/
theorem statFile_null {follow : Bool} (hp : p.isw = false) (hl : p.level = rootLevel) :
    Returns (fun rq => rq.1 = .error .ns) (statFile E p follow none .null) := by
  refine .ite (fun h => absurd h (by rw [hl]; decide)) fun _ => .bind_any fun o => ?_
  refine .ite (fun h => by simp [hp] at h) fun _ => ?_
  have hnull : ∀ b, Returns (· = none) (callFstatat E none .null b) := fun _ _ => rfl
  refine .ite (fun _ => .bind (hnull _) ?_) (fun _ => .bind (hnull _) ?_)
  · rintro _ rfl
    refine .bind_any fun _ => .bind (hnull _) ?_
    rintro _ rfl
    exact .pure rfl
  · rintro _ rfl
    exact .bind_any fun _ => .pure rfl

theorem classify_lock (ho : Nodes st.heap (p :: others)) (hg : Ground others base st.sys.next r fs)
    (hp : p.parent = some (parentAddr r fs)) :
    Lock (classify p.addr) (Walk.classify p (pathNodes fs)) st fun i st' iq =>
      i = iq.1 ∧ Aside st st' ∧ Nodes st'.heap (iq.2 :: others) ∧ ∃ c, iq.2 = { p with cycle := c } := by
  have hr := rootParent_lt hg.root
  have hlen : fs.length < st.sys.next + 1 := by have := hg.len; omega
  have hfind : Runs (findCycle p.dev p.ino p.parent) st
      (cycleOf st.sys.cycles p.dev p.ino (pathNodes fs)) st.heap := by
    rw [hp, cycleOf]
    refine .bind (x := st.sys.next + 1) (h := st.heap) rfl (.bind (findAncestor_run hr p.dev p.ino
      (ho.get (List.mem_cons_of_mem _ hg.mem_root)) hg.path
      (fun n hn => ho.get (List.mem_cons_of_mem _ (hg.mem n hn))) _ hlen) ?_)
    cases sameDir p.dev p.ino (pathNodes fs) <;> rfl
  refine lock_load ho.head (lock_runs ⟨_, hfind, ho⟩ fun st₁ h₁ hs₁ ho₁ => ?_)
  rw [← hs₁]
  refine lock_right (fun _ => rfl) (fun _ => rfl)
    (lock_update ho₁ rfl rfl fun st₂ h₂ hs₂ ho₂ => lock_load ho₂.head (lock_gets ?_))
  have hanc : ancestors st₂.heap (st₂.sys.next + 1) p.parent = pathNodes fs := by
    rw [hp]
    exact ancestors_eq hr (ho₂.get (List.mem_cons_of_mem _ hg.mem_root)) hg.path
      (fun n hn => ho₂.get (List.mem_cons_of_mem _ (hg.mem n hn))) _ (by rw [hs₂, hs₁]; exact hlen)
  rw [hanc]
  exact lock_sys (lock_pure ⟨rfl, (h₁.trans h₂).trans ⟨rfl, rfl, rfl⟩, ho₂, _, rfl⟩)

theorem stat_lock (follow : Bool) (dfd : Option Fd) (ho : Nodes st.heap (p :: others))
    (hg : Ground others base st.sys.next r fs) (hb : Below base r fs p) :
    Lock (ftsStat E p.addr follow dfd) (Walk.stat E p (pathNodes fs) follow dfd) st
      fun i st' iq => i = iq.1 ∧ Aside st st' ∧ Nodes st'.heap (iq.2 :: others) ∧
        iq.2.place = p.place := by
  have hpath : (if dfd.isNone then accArg p else pure .null : M ω PathArg) st =
      (.ok (if dfd.isNone then accArgOf st.sys p (pathNodes fs) else .null), st, []) := by
    cases dfd with
    | none => exact accArg_run ho hg.mem hb.acc
    | some fd => rfl
  refine lock_load ho.head (sim_silent hpath rfl (lock_right (fun _ => rfl) (fun _ => rfl)
    (lock_returns (keeps_anchors keeps_statFile) statFile_node ?_)))
  rintro ⟨r', q⟩ st₁ ⟨sb, e, rfl⟩ h₁ hh₁
  refine lock_update (hh₁ ▸ ho) rfl rfl fun st₂ h₂ hs₂ ho₂ => ?_
  have h₂ := h₁.trans h₂
  cases r' with
  | error i => exact lock_pure ⟨rfl, h₂, ho₂, rfl⟩
  | ok sb' =>
    refine sim_ite (fun _ => lock_update ho₂ rfl rfl fun st₃ h₃ hs₃ ho₃ => ?_)
      fun _ => lock_pure ⟨rfl, h₂, ho₂, rfl⟩
    have h₃ := h₂.trans h₃
    refine sim_ite (fun _ => lock_pure ⟨rfl, h₃, ho₃, rfl⟩) fun _ => ?_
    refine (classify_lock ho₃ (by rw [h₃.next]; exact hg) hb.parent).mono ?_
    rintro i st' ⟨_, q⟩ ⟨hi, h', ho', c, rfl⟩
    exact ⟨hi, h₃.trans h', ho', rfl⟩

/-- The node before the roots is not found, and asked again is no directory. -/
theorem stat_lock_init (hi : IsInit p) (ho : Nodes st.heap (p :: others)) :
    Lock (ftsStat E p.addr false none) (Walk.stat E p [] false none) st
      fun i st' iq => i = iq.1 ∧ Aside st st' ∧ Nodes st'.heap (iq.2 :: others) ∧
        iq.1 = .ns ∧ ∃ sb e, iq.2 = { p with statp := sb, errno := e } := by
  have hpath : (if (none : Option Fd).isNone then accArg p else pure .null : M ω PathArg) st =
      (.ok .null, st, []) := by
    simp only [accArg, hi.accpath]
    rfl
  have hnull : accArgOf st.sys p [] = .null := by simp only [accArgOf, hi.accpath]
  refine lock_load ho.head (sim_silent hpath rfl (lock_right (fun _ => rfl) (fun _ => rfl) ?_))
  change Lock _ (statFile E p false none (accArgOf st.sys p []) >>= _) _ _
  rw [hnull]
  refine lock_returns (P := fun rq => rq.1 = .error .ns ∧
    ∃ sb e, rq.2 = { p with statp := sb, errno := e }) (keeps_anchors keeps_statFile)
    (fun s => ⟨statFile_null hi.isw hi.level s, statFile_node s⟩) ?_
  rintro ⟨_, q⟩ st₁ ⟨rfl, sb, e, rfl⟩ h₁ hh₁
  refine lock_update (hh₁ ▸ ho) rfl rfl fun st₂ h₂ hs₂ ho₂ => ?_
  exact lock_pure ⟨rfl, h₁.trans h₂, ho₂, rfl, sb, e, rfl⟩

/-- `openSymfd` touches only the descriptor, `fts_errno` and `fts_info`. -/
theorem openSymfd_place : Returns (fun q => q.place = p.place) (openSymfd E p) := by
  refine .bind_any fun o => .ite (fun _ => .bind_any fun r => ?_) fun _ => .pure rfl
  cases r with
  | none => exact .bind_any fun _ => .pure rfl
  | some fd => exact .pure rfl

theorem followLink_lock (ho : Nodes st.heap (p :: others))
    (hg : Ground others base st.sys.next r fs) (hb : Below base r fs p) :
    Lock (followLink E p.addr) (Walk.followLink E p (pathNodes fs)) st
      fun _ st' q => Aside st st' ∧ Nodes st'.heap (q :: others) ∧ q.place = p.place := by
  refine sim_bind (stat_lock true none ho hg hb) ?_
  rintro i st₁ ⟨_, q⟩ ⟨rfl, h₁, ho₁, hq⟩ - -
  have ha : q.addr = p.addr := (place_ext.mp hq).1
  refine lock_bind_pure ?_
  rw [← ha]
  refine lock_update ho₁ rfl rfl fun st₂ h₂ hs₂ ho₂ => lock_load ho₂.head
    (lock_returns (keeps_anchors keeps_openSymfd) openSymfd_place ?_)
  intro q' st₃ hq' h₃ hh₃
  have hq' : q'.place = q.place := hq'
  have hr := runs_update (s := st₃) (hh₃ ▸ ho₂.head) fun _ => q'
  have ho₃ : Nodes _ (q' :: others) := (hh₃ ▸ ho₂).store (place_ext.mp hq').1
  exact lock_last ⟨_, hr, hh₃ ▸ ho₃⟩ fun st₄ h₄ hs₄ ho₄ =>
    ⟨((h₁.trans h₂).trans h₃).trans h₄, ho₄, hq'.trans hq⟩

end Node

/-- The way up from an entry that is not a root. -/
theorem changeToParent_lock {E : Env ω} {st : St ω} {base : ℕ} {r p : Ftsent} {up : List Frame}
    (hb : Below base r up p) (hl : p.level ≠ rootLevel)
    (hh : ∀ n ∈ pathNodes up, st.heap n.addr = some n) :
    Lock (changeToParent E p) (Walk.changeToParent E up) st fun x st' y =>
      x = y ∧ Aside st st' ∧ st'.heap = st.heap := by
  cases up with
  | nil => exact absurd hb.level hl
  | cons g up =>
    unfold changeToParent
    rw [hb.parent]
    refine sim_silent (x := g.node.addr) (u := st) rfl rfl
      (lock_load (hh g.node (by simp [pathNodes])) ?_)
    exact lock_keeps_last (keeps_anchors keeps_safeChangedir) fun _ st' h' hh' => ⟨rfl, h', hh'⟩

/-- `fts_alloc` fails, or puts a new node at the next address. -/
theorem alloc_lock {E : Env ω} {st : St ω} {name : CString} {l : List Ftsent}
    (ho : Nodes st.heap l) (hf : ∀ n ∈ l, n.addr < st.sys.next) :
    Lock (ftsAlloc E name) (allocNode E name) st fun x st' y =>
      st'.cur = st.cur ∧ st'.child = st.child ∧ st'.sys.path.addr = st.sys.path.addr ∧
      ((x = none ∧ y = none ∧ st'.heap = st.heap ∧ st'.sys.next = st.sys.next) ∨
        ∃ p, x = some p.addr ∧ y = some p ∧ p = newNode st.sys.next st.sys.path.addr name ∧
          Nodes st'.heap (p :: l) ∧ st'.sys.next = st.sys.next + 1) := by
  refine lock_bind_pure (lock_sys ?_)
  rcases allocNode_cases (E := E) name st.sys with ⟨hv, ha⟩ | ⟨hv, ha⟩
  · rw [hv]
    exact lock_pure ⟨rfl, rfl, congrArg Prod.fst ha, .inl ⟨rfl, rfl, rfl, congrArg Prod.snd ha⟩⟩
  · rw [hv]
    have ho' := ho.alloc (n := newNode st.sys.next st.sys.path.addr name) fun m hm =>
      (hf m hm).ne
    refine .inl ⟨_, _, rfl, rfl, rfl, rfl, congrArg Prod.fst ha, .inr ⟨_, rfl, rfl, rfl, ho', ?_⟩⟩
    exact congrArg Prod.snd ha

end MuslBsd.Fts
