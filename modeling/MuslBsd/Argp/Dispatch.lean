import MuslBsd.Argp.Elements
import MuslBsd.Argp.Storage
import MuslBsd.Argp.Protocol

/-! The whole parse delivers what the scan finds, in the order of the mode. -/
namespace MuslBsd.Argp
open MuslBsd.Support
open Faulting (Returns)

variable {π σ : Type} {E : Env π σ} {X : Setting π} {s : Parser π σ}

/-! ### The loop -/

/-- With enough rounds, if the parsers accept: the loop ends and has delivered this, or else a
lookup reads an options array that is not there. -/
def Reaches (E : Env π σ) (X : Setting π) (s : Parser π σ) (ok : Prop) (ds : List Delivery)
    (argv : List CStr) : Prop :=
  ∃ n, ∀ fuel, n ≤ fuel → Accepted (callsOf (parserLoop E fuel s).2.2) →
    (ok → ∃ s' acts, parserLoop E fuel s = (.ok EBADKEY, s', acts) ∧ Over X argv s' ∧
      deliveries acts = ds) ∧
    (¬ok → (parserLoop E fuel s).1 = .error .nullOptions)

section

variable {ok : Prop} {ds ds' : List Delivery} {argv : List CStr}

theorem Reaches.congr (h : Reaches E X s ok ds argv) (ok' : Prop) (hok : ok ↔ ok') :
    Reaches E X s ok' ds argv := by
  rw [← propext hok]
  exact h

/-- One round, then the rest. -/
theorem Reaches.round (ds : List Delivery) {after : Parser π σ → Prop}
    (h : Returns (parserParseNext E) s (Moves after ds))
    (hnext : ∀ s', after s' → Reaches E X s' ok ds' argv) :
    Reaches E X s ok (ds ++ ds') argv := by
  obtain ⟨err, s', acts, hrun, hmoves⟩ := h
  rcases hmoves with ⟨rfl, hs', hacts⟩ | hno
  · obtain ⟨n, hn⟩ := hnext s' hs'
    refine ⟨n + 1, ?_⟩
    intro fuel hfuel hacc
    obtain ⟨k, rfl⟩ : ∃ k, fuel = k + 1 := ⟨fuel - 1, by omega⟩
    have hloop : parserLoop E (k + 1) s =
        ((parserLoop E k s').1, (parserLoop E k s').2.1, acts ++ (parserLoop E k s').2.2) := by
      show (parserParseNext E >>= fun err => if err = 0 then parserLoop E k else pure err) s = _
      rw [Faulting.bind_ok hrun, if_pos rfl]
    rw [hloop] at hacc ⊢
    dsimp only at hacc ⊢
    rw [callsOf_append] at hacc
    obtain ⟨hgood, hbad⟩ := hn k (by omega) hacc.of_append
    constructor
    · intro hok
      obtain ⟨s'', acts', hrest, hover, hds⟩ := hgood hok
      rw [hrest]
      refine ⟨s'', _, rfl, hover, ?_⟩
      rw [deliveries_append, hacts, hds]
    · intro hok
      exact hbad hok
  · refine ⟨1, ?_⟩
    intro fuel hfuel hacc
    obtain ⟨k, rfl⟩ : ∃ k, fuel = k + 1 := ⟨fuel - 1, by omega⟩
    exfalso
    change Accepted (callsOf ((parserParseNext E >>= fun err =>
      if err = 0 then parserLoop E k else pure err) s).2.2) at hacc
    rw [Faulting.bind_ok hrun] at hacc
    dsimp only at hacc
    rw [callsOf_append] at hacc
    refine hno _ ?_ hacc
    intro herr
    rw [if_neg herr]
    rfl

/-- A round that ends the loop. -/
theorem Reaches.last (h : Returns (parserParseNext E) s fun err s' acts =>
    err = EBADKEY ∧ Over X argv s' ∧ acts = []) : Reaches E X s True [] argv := by
  obtain ⟨err, s', acts, hrun, rfl, hover, rfl⟩ := h
  refine ⟨1, ?_⟩
  intro fuel hfuel _
  obtain ⟨k, rfl⟩ : ∃ k, fuel = k + 1 := ⟨fuel - 1, by omega⟩
  refine ⟨fun _ => ⟨s', [], ?_, hover, rfl⟩, fun hno => (hno trivial).elim⟩
  show (parserParseNext E >>= fun err => if err = 0 then parserLoop E k else pure err) s = _
  rw [Faulting.bind_ok hrun, if_neg EBADKEY_ne]
  rfl

theorem Reaches.fault (h : (parserParseNext E s).1 = .error .nullOptions) :
    Reaches E X s False ds argv := by
  refine ⟨1, ?_⟩
  intro fuel hfuel _
  obtain ⟨k, rfl⟩ : ∃ k, fuel = k + 1 := ⟨fuel - 1, by omega⟩
  refine ⟨False.elim, fun _ => ?_⟩
  obtain ⟨⟨r, s', acts⟩, hrun⟩ : ∃ run, parserParseNext E s = run := ⟨_, rfl⟩
  rw [hrun] at h
  dsimp only at h
  subst h
  show ((parserParseNext E >>= fun err => if err = 0 then parserLoop E k else pure err) s).1 = _
  rw [Faulting.bind_error hrun]

/-- An option whose lookup comes to its end, or does not. -/
theorem Reaches.use (uses : List Use) (after : Parser π σ → Prop) {use : Use}
    (hround : Reached X.groups use.name →
      Returns (parserParseNext E) s (Moves after [use.delivery]))
    (hfault : ¬Reached X.groups use.name → (parserParseNext E s).1 = .error .nullOptions)
    (hnext : ∀ s', after s' →
      Reaches E X s' ((∀ use' ∈ uses, Reached X.groups use'.name) ∧ ok) ds argv) :
    Reaches E X s ((∀ use' ∈ use :: uses, Reached X.groups use'.name) ∧ ok)
      (use.delivery :: ds) argv := by
  by_cases hreach : Reached X.groups use.name
  · apply (Reaches.round _ (hround hreach) hnext).congr
    rw [List.forall_mem_cons]
    tauto
  · apply (Reaches.fault (hfault hreach)).congr
    rw [List.forall_mem_cons]
    tauto

end

/-! ### Arguments at the end -/

/-- By induction on the arguments that are left. -/
theorem rests_reaches (hE : Passive E) (rest : List CStr) {done : List CStr} (h : Rests X done rest s)
    (hparser : rest ≠ [] → ∃ g, HasParser X.groups g) :
    Reaches E X s True (rest.map .arg) (done ++ rest) := by
  induction rest generalizing done s with
  | nil =>
    rw [List.append_nil]
    exact .last (moves_rest_end h)
  | cons a rest ih =>
    have hsome := hparser (List.cons_ne_nil a rest)
    apply Reaches.round [.arg a] (moves_rest hE h hsome)
    intro s' hs'
    have hrest := ih hs' fun _ => hsome
    rw [List.append_assoc] at hrest
    exact hrest

/-! ### Options -/

section

variable {ok : Prop} {ds : List Delivery} {argv : List CStr} {front skipped : List CStr}

/-- By induction on the bundle. -/
theorem bundle_reaches (hE : Passive E) {text : CStr} {after left : List CStr} {uses : List Use}
    (hb : Bundle X.groups text after uses left) {behind taken : List CStr}
    (hafter : taken ++ left = after)
    (h : Stands X { window front skipped behind after with nextchar := bundle text } s)
    (hparser : ∀ use ∈ uses, HasParser X.groups use.group)
    (hnext : ∀ s', Stands X (window front skipped (behind ++ taken) left) s' →
      Reaches E X s' ok ds argv) :
    Reaches E X s ((∀ use ∈ uses, Reached X.groups use.name) ∧ ok)
      (uses.map Use.delivery ++ ds) argv := by
  induction hb generalizing s with
  | done after =>
    have htaken : taken = [] := List.append_left_eq_self.mp hafter
    subst htaken
    rw [List.append_nil] at hnext
    apply (hnext s h).congr
    simp
  | @flag c rest after left uses g o found arg _ ih =>
    apply Reaches.use uses (Stands X
      { window front skipped behind after with nextchar := bundle rest })
    · intro hreach
      exact moves_flag hE h rfl rfl found hreach (hparser _ List.mem_cons_self) arg
    · intro hreach
      exact faults_short h rfl rfl found hreach
    · intro s' hs'
      exact ih hafter hs' (fun use huse => hparser use (List.mem_cons_of_mem _ huse)) hnext
  | @attached c rest after g o found arg more =>
    have htaken : taken = [] := List.append_left_eq_self.mp hafter
    subst htaken
    rw [List.append_nil] at hnext
    apply Reaches.use [] (Stands X (window front skipped behind after))
    · intro hreach
      have hmoves := moves_joined (E := E) hE h rfl rfl found hreach
        (hparser _ List.mem_cons_self) arg fun hnil => (more hnil).elim
      rw [if_neg more] at hmoves
      exact hmoves
    · intro hreach
      exact faults_short h rfl rfl found hreach
    · intro s' hs'
      apply (hnext s' hs').congr
      simp
  | @omitted c after g o found arg optional =>
    have htaken : taken = [] := List.append_left_eq_self.mp hafter
    subst htaken
    rw [List.append_nil] at hnext
    apply Reaches.use [] (Stands X (window front skipped behind after))
    · intro hreach
      exact moves_joined (E := E) hE h rfl rfl found hreach
        (hparser _ List.mem_cons_self) arg fun _ => optional
    · intro hreach
      exact faults_short h rfl rfl found hreach
    · intro s' hs'
      apply (hnext s' hs').congr
      simp
  | @separate c value after g o found arg required =>
    have htaken : taken = [value] := by
      have happ : taken ++ after = [value] ++ after := hafter
      exact List.append_cancel_right happ
    subst htaken
    apply Reaches.use []
      (Stands X (window front skipped (behind ++ [value]) after))
    · intro hreach
      exact moves_separate hE h found hreach (hparser _ List.mem_cons_self) arg required
    · intro hreach
      exact faults_short h rfl rfl found hreach
    · intro s' hs'
      apply (hnext s' hs').congr
      simp

/-- An element with a bundle. -/
theorem short_reaches (hE : Passive E) {a : CStr} {first : CChar} {rest : CStr}
    {behind taken left : List CStr} {uses : List Use}
    (h : Stands X (window front skipped behind (a :: (taken ++ left))) s)
    (hc : classify X.groups X.longOnly a = .ok (.shortOption first rest))
    (hb : Bundle X.groups (first :: rest) (taken ++ left) uses left)
    (hparser : ∀ use ∈ uses, HasParser X.groups use.group)
    (hnext : ∀ s', Stands X (window front skipped (behind ++ a :: taken) left) s' →
      Reaches E X s' ok ds argv) :
    Reaches E X s ((∀ use ∈ uses, Reached X.groups use.name) ∧ ok)
      (uses.map Use.delivery ++ ds) argv := by
  apply Reaches.round [] (moves_shortOption h rfl rfl (window_getElem? _ _ _ _ _) hc)
  intro s' hs'
  have hwindow := window_cons front skipped behind (taken ++ left) a
  have hs : Stands X { window front skipped (behind ++ [a]) (taken ++ left) with
      nextchar := bundle (first :: rest) } s' := by
    rw [← hwindow]
    exact hs'
  apply bundle_reaches hE hb rfl hs hparser
  intro s'' hs''
  apply hnext s''
  rw [List.append_assoc] at hs''
  exact hs''

/-- An element with a long option. -/
theorem long_reaches (hE : Passive E) {a opt : CStr} {behind taken left : List CStr} {use : Use}
    (h : Stands X (window front skipped behind (a :: (taken ++ left))) s)
    (hc : classify X.groups X.longOnly a = .ok (.longOption opt) ∨
      classify X.groups X.longOnly a = .ok (.longOnlyOption opt))
    (hlong : Long X.groups opt (taken ++ left) use left) (hparser : HasParser X.groups use.group)
    (hnext : ∀ s', Stands X (window front skipped (behind ++ a :: taken) left) s' →
      Reaches E X s' ok ds argv) :
    Reaches E X s ((∀ use' ∈ [use], Reached X.groups use'.name) ∧ ok)
      (use.delivery :: ds) argv := by
  apply Reaches.use [] (Stands X (window front skipped (behind ++ a :: taken) left))
  · intro hreach
    exact moves_long hE h hc hlong hreach hparser
  · intro hreach
    exact faults_long h hc hlong hreach
  · intro s' hs'
    apply (hnext s' hs').congr
    simp

end

/-! ### Scans -/

theorem classify_quote {groups : List (Group π)} {longOnly : Bool} {a : CStr}
    (h : classify groups longOnly a = .ok .quote) : a = [dash, dash] := by
  unfold classify classifyArg at h
  split at h
  · cases h
  · split at h
    · rename_i hc
      split at h
      · cases h
      · split at h
        · rename_i hd
          split at h
          · rw [hc, hd]
          · cases h
        · split at h
          · dsimp only at h
            split at h
            · cases h
            · cases h
          · cases h
    · cases h

section

variable {front skipped : List CStr}

theorem forall_uses (item : Item) (scan : Scan) (p : Use → Prop) :
    (∀ use ∈ ({ scan with items := item :: scan.items } : Scan).uses, p use) ↔
      (∀ use ∈ item.uses, p use) ∧ ∀ use ∈ scan.uses, p use := by
  show (∀ use ∈ item.uses ++ scan.items.flatMap Item.uses, p use) ↔ _
  rw [List.forall_mem_append]
  rfl

/-- In `PERMUTE` mode, by induction on the scan: the arguments so far are in the window. -/
theorem permute_reaches (hE : Passive E) (ho : X.ordering = .permute) {elements : List CStr}
    {scan : Scan} (hscan : Scans X.groups X.longOnly false elements scan) (front skipped behind : List CStr)
    (h : Stands X (window front skipped behind elements) s)
    (hoption : ∀ use ∈ scan.uses, HasParser X.groups use.group)
    (harg : skipped ++ (scan.args ++ scan.rest) ≠ [] → ∃ g, HasParser X.groups g) :
    Reaches E X s (∀ use ∈ scan.uses, Reached X.groups use.name)
      (scan.uses.map Use.delivery ++ (skipped ++ (scan.args ++ scan.rest)).map .arg)
      (front ++ behind ++ (scan.items.flatMap Item.optionElems ++ scan.quote ++
        (skipped ++ (scan.args ++ scan.rest)))) := by
  induction hscan generalizing front skipped behind s with
  | done =>
    show Reaches E X s _ (([] : List Use).map Use.delivery ++ (skipped ++ []).map .arg)
      (front ++ behind ++ ([] ++ [] ++ (skipped ++ [])))
    rw [List.append_nil, List.append_nil, List.nil_append]
    by_cases hnil : skipped = []
    · subst hnil
      rw [List.append_nil]
      apply (Reaches.last (moves_end h)).congr
      simp [Scan.uses]
    · apply (Reaches.round [] (moves_rewind h hnil) fun s' hs' =>
        rests_reaches hE skipped hs' fun _ =>
          harg (List.append_ne_nil_of_left_ne_nil hnil _)).congr
      simp [Scan.uses]
  | @arg a after scan type goOn next ih =>
    have hargs : skipped ++ [a] ++ (scan.args ++ scan.rest) =
        skipped ++ (a :: scan.args ++ scan.rest) := by simp
    apply Reaches.round [] (moves_permute h ho type)
    intro s' hs'
    have hrest := ih (front ++ behind) (skipped ++ [a]) [] hs' hoption fun _ =>
      harg (List.append_ne_nil_of_right_ne_nil _ (List.cons_ne_nil a (scan.args ++ scan.rest)))
    rw [hargs, List.append_nil] at hrest
    exact hrest
  | stop type here => cases here
  | @quote a after type =>
    have ha := classify_quote type
    subst ha
    have hend := (Reaches.round [] (moves_quote h type) fun s' hs' =>
      rests_reaches hE (skipped ++ after) hs' harg).congr
        (∀ use ∈ ([] : List Use), Reached X.groups use.name) (by simp)
    have hargv : front ++ (behind ++ [[dash, dash]]) ++ (skipped ++ after) =
        front ++ behind ++ ([] ++ [[dash, dash]] ++ (skipped ++ after)) := by simp
    rw [hargv] at hend
    exact hend
  | @short a first rest taken left uses scan type bundle next ih =>
    rw [forall_uses] at hoption
    have hreach := short_reaches hE h type bundle hoption.1 fun s' hs' =>
      ih front skipped (behind ++ a :: taken) hs' hoption.2 harg
    have hargv : front ++ (behind ++ a :: taken) ++ (scan.items.flatMap Item.optionElems ++
        scan.quote ++ (skipped ++ (scan.args ++ scan.rest))) =
        front ++ behind ++ (a :: taken ++ scan.items.flatMap Item.optionElems ++
          scan.quote ++ (skipped ++ (scan.args ++ scan.rest))) := by simp
    rw [hargv, ← List.append_assoc, ← List.map_append] at hreach
    exact hreach.congr _ (forall_uses (.option (a :: taken) uses) scan _).symm
  | @long a opt taken left use scan type option next ih =>
    rw [forall_uses] at hoption
    have hreach := long_reaches hE h type option (hoption.1 use List.mem_cons_self) fun s' hs' =>
      ih front skipped (behind ++ a :: taken) hs' hoption.2 harg
    have hargv : front ++ (behind ++ a :: taken) ++ (scan.items.flatMap Item.optionElems ++
        scan.quote ++ (skipped ++ (scan.args ++ scan.rest))) =
        front ++ behind ++ (a :: taken ++ scan.items.flatMap Item.optionElems ++
          scan.quote ++ (skipped ++ (scan.args ++ scan.rest))) := by simp
    rw [hargv] at hreach
    exact hreach.congr _ (forall_uses (.option (a :: taken) [use]) scan _).symm

end

/-- All that is ahead are arguments, from the first of them on. -/
theorem Stands.rests {behind ahead : List CStr}
    (h : Stands X { window [] [] behind ahead with argsOnly := true } s) :
    Rests X behind ahead s := by
  have hlen : ([] : List CStr).length + ([] : List CStr).length + behind.length = behind.length := by
    simp
  refine ⟨0, 0, ?_⟩
  rw [← hlen]
  exact h

/-- In the other modes, by induction on the scan: no argument is skipped. -/
theorem inOrder_reaches (hE : Passive E) {stop : Bool}
    (hgo : stop = false → X.ordering = .returnInOrder) (hstop : stop = true → X.ordering = .requireOrder)
    {elements : List CStr} {scan : Scan} (hscan : Scans X.groups X.longOnly stop elements scan)
    (behind : List CStr) (h : Stands X (window [] [] behind elements) s)
    (hoption : ∀ use ∈ scan.uses, HasParser X.groups use.group)
    (harg : scan.args ++ scan.rest ≠ [] → ∃ g, HasParser X.groups g) :
    Reaches E X s (∀ use ∈ scan.uses, Reached X.groups use.name)
      (scan.items.flatMap Item.deliveries ++ scan.rest.map .arg) (behind ++ scan.elems) := by
  induction hscan generalizing behind s with
  | done =>
    have hend := (Reaches.last (moves_end (E := E) h)).congr
      (∀ use ∈ ([] : List Use), Reached X.groups use.name) (by simp)
    rw [List.nil_append, ← List.append_nil behind] at hend
    exact hend
  | @arg a after scan type goOn next ih =>
    have hsome := harg (List.cons_ne_nil a (scan.args ++ scan.rest))
    apply Reaches.round [.arg a]
      (moves_inOrder hE h rfl rfl (hgo goOn) (window_getElem? _ _ _ _ _) type hsome)
    intro s' hs'
    rw [window_cons] at hs'
    have hrest := ih (behind ++ [a]) hs' hoption fun _ => hsome
    rw [List.append_assoc] at hrest
    exact hrest
  | @stop a after type here =>
    have hend := (Reaches.round []
      (moves_stop (E := E) h rfl rfl (hstop here) (window_getElem? _ _ _ _ _) type)
      fun s' hs' => rests_reaches hE (a :: after) hs'.rests harg).congr
        (∀ use ∈ ([] : List Use), Reached X.groups use.name) (by simp)
    exact hend
  | @quote a after type =>
    have ha := classify_quote type
    subst ha
    have hend := (Reaches.round [] (moves_quote (E := E) h type) fun s' hs' =>
      rests_reaches hE ([] ++ after) hs' harg).congr
        (∀ use ∈ ([] : List Use), Reached X.groups use.name) (by simp)
    have hargv : [] ++ (behind ++ [[dash, dash]]) ++ ([] ++ after) =
        behind ++ ([] ++ [[dash, dash]] ++ after) := by simp
    rw [hargv] at hend
    exact hend
  | @short a first rest taken left uses scan type bundle next ih =>
    rw [forall_uses] at hoption
    have hreach := short_reaches hE h type bundle hoption.1 fun s' hs' =>
      ih (behind ++ a :: taken) hs' hoption.2 harg
    have hargv : behind ++ a :: taken ++ scan.elems =
        behind ++ (a :: taken ++ scan.items.flatMap Item.elems ++ scan.quote ++ scan.rest) := by
      simp [Scan.elems]
    rw [hargv, ← List.append_assoc] at hreach
    exact hreach.congr _ (forall_uses (.option (a :: taken) uses) scan _).symm
  | @long a opt taken left use scan type option next ih =>
    rw [forall_uses] at hoption
    have hreach := long_reaches hE h type option (hoption.1 use List.mem_cons_self) fun s' hs' =>
      ih (behind ++ a :: taken) hs' hoption.2 harg
    have hargv : behind ++ a :: taken ++ scan.elems =
        behind ++ (a :: taken ++ scan.items.flatMap Item.elems ++ scan.quote ++ scan.rest) := by
      simp [Scan.elems]
    rw [hargv] at hreach
    exact hreach.congr _ (forall_uses (.option (a :: taken) [use]) scan _).symm

/-- From where `parser_init` leaves the state. -/
theorem scan_reaches (hE : Passive E) {elements : List CStr} {scan : Scan}
    (hscan : Scans X.groups X.longOnly (X.ordering = .requireOrder) elements scan)
    (name : List CStr) (h : Stands X (window [] [] name elements) s)
    (hoption : ∀ use ∈ scan.uses, HasParser X.groups use.group)
    (harg : scan.args ++ scan.rest ≠ [] → ∃ g, HasParser X.groups g) :
    Reaches E X s (∀ use ∈ scan.uses, Reached X.groups use.name) (scan.order X.ordering)
      (name ++ scan.permuted X.ordering) := by
  cases ho : X.ordering with
  | permute =>
    rw [ho] at hscan
    exact permute_reaches hE ho hscan [] [] name h hoption harg
  | requireOrder =>
    rw [ho] at hscan
    exact inOrder_reaches hE (fun hbad => by cases hbad) (fun _ => ho) hscan name h hoption harg
  | returnInOrder =>
    rw [ho] at hscan
    exact inOrder_reaches hE (fun _ => ho) (fun hbad => by cases hbad) hscan name h hoption harg

end MuslBsd.Argp
