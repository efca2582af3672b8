import MuslBsd.Compat.Cmdline
import MuslBsd.Support.Word

/-! The preload list that the loader hands to the musl linker, and how the linker splits it. -/
namespace MuslBsd.Compat

def EINVAL : ℕ := 22
def ENOMEM : ℕ := 12

def colon : UInt8 := 58
def slash : UInt8 := 47

/-! ### The list -/

/-- What an allocation of `size` bytes holds, stored from its start on. -/
structure Buffer where
  size : ℕ
  written : List UInt8

/-- What a call returns, `errno` if NULL, and the sizes of its allocations. -/
structure Call where
  result : Except ℕ Buffer
  allocated : List ℕ

section

variable (bits : ℕ)

/-- `a + b` and `a - b` of `size_t`. -/
def sizeAdd (a b : ℕ) : ℕ := (a + b) % 2 ^ bits
def sizeSub (a b : ℕ) : ℕ := (a + 2 ^ bits - b) % 2 ^ bits

def sizeMax : ℕ := 2 ^ bits - 1

/-- A pointer to a string, NULL or not, to what is copied from it. -/
def given (entry : Option CString) : List UInt8 := entry.elim [] CString.bytes

structure Measure where
  lengths : List ℕ
  count : ℕ
  total : ℕ

/-- `count != 0`. -/
def separator (count : ℕ) : ℕ := if count ≠ 0 then 1 else 0

/-- The loop that measures. -/
def measure : List (Option CString) → Measure → Except ℕ Measure
  | [], m => .ok m
  | entry :: entries, m =>
    if given entry = [] then measure entries { m with lengths := m.lengths ++ [0] }
    else
      let length := (given entry).length
      if m.total > sizeSub bits (sizeMax bits) (separator m.count) ∨
          length > sizeSub bits (sizeSub bits (sizeMax bits) m.total) (separator m.count) then
        .error EOVERFLOW
      else measure entries ⟨m.lengths ++ [length], m.count + 1,
        sizeAdd bits m.total (sizeAdd bits length (separator m.count))⟩

/-- The loop that copies, with what is stored before `output`. -/
def copy : List (Option CString × ℕ) → ℕ → List UInt8 → List UInt8
  | [], _, stored => stored
  | (entry, length) :: rest, count, stored =>
    if length = 0 then copy rest count stored
    else
      let stored := if count ≠ 0 then stored ++ [colon] else stored
      copy rest (count + 1) (stored ++ (given entry).take length)

/-- `musl_bsd_preload_list`; `malloc` says which sizes there is memory for. -/
def preloadList (malloc : ℕ → Bool) (core nvidiaTls user : Option CString) : Call :=
  let entries := [core, nvidiaTls, user]
  if given core = [] then ⟨.error EINVAL, []⟩
  else if given nvidiaTls ≠ [] ∧ ((given nvidiaTls).head? ≠ some slash ∨ colon ∈ given nvidiaTls) then
    ⟨.error EINVAL, []⟩
  else
    match measure bits entries ⟨[], 0, 1⟩ with
    | .error e => ⟨.error e, []⟩
    | .ok m =>
      if malloc m.total then
        ⟨.ok ⟨m.total, copy (entries.zip m.lengths) 0 [] ++ [0]⟩, [m.total]⟩
      else ⟨.error ENOMEM, []⟩

end

/-! ### The linker -/

/-- `isspace` in the C locale. -/
def isSpace (b : UInt8) : Bool := b = 32 ∨ 9 ≤ b ∧ b ≤ 13

def isDelimiter (b : UInt8) : Bool := b = colon ∨ isSpace b

/-- What is between the delimiters, where there is something. -/
def items (s : List UInt8) : List (List UInt8) := (s.splitOnP isDelimiter).filter (· ≠ [])

/-- The string at the start of a buffer. -/
def Buffer.string (b : Buffer) : List UInt8 := b.written.takeWhile (· ≠ 0)

theorem items_nil : items [] = [] := by simp [items, List.splitOnP_nil]

theorem items_append {b : UInt8} (hb : isDelimiter b = true) (s t : List UInt8) :
    items (s ++ b :: t) = items s ++ items t := by
  rw [items, List.splitOnP_append_cons s t hb, List.filter_append]
  rfl

theorem items_eq_singleton {s : List UInt8} (hs : s ≠ []) (h : ∀ b ∈ s, isDelimiter b = false) :
    items s = [s] := by
  rw [items, List.splitOnP_eq_singleton h]
  simp [hs]

/-- No item has a delimiter in it. -/
theorem not_isDelimiter_of_mem_items {s i : List UInt8} (hi : i ∈ items s) :
    ∀ b ∈ i, isDelimiter b = false := by
  have hsplit : ∀ t : List UInt8, ∀ i ∈ t.splitOnP isDelimiter, ∀ b ∈ i, isDelimiter b = false := by
    intro t
    induction t with
    | nil => simp [List.splitOnP_nil]
    | cons c t ih =>
      intro i hi
      rw [List.splitOnP_cons_eq_if_modifyHead] at hi
      split at hi
      · rcases List.mem_cons.mp hi with rfl | hi
        · simp
        · exact ih i hi
      · rename_i hc
        cases ht : t.splitOnP isDelimiter with
        | nil => exact absurd ht (List.splitOnP_ne_nil _ t)
        | cons d ds =>
          rw [ht, List.modifyHead_cons] at hi
          rcases List.mem_cons.mp hi with rfl | hi
          · intro b hb
            rcases List.mem_cons.mp hb with rfl | hb
            · simpa using hc
            · exact ih d (ht ▸ List.mem_cons_self) b hb
          · exact ih i (ht ▸ List.mem_cons_of_mem d hi)
  exact hsplit s i (List.mem_filter.mp hi).1

theorem items_eq_self_iff {s : List UInt8} (hs : s ≠ []) :
    items s = [s] ↔ ∀ b ∈ s, isDelimiter b = false := by
  constructor
  · intro h
    exact not_isDelimiter_of_mem_items (s := s) (h ▸ List.mem_singleton_self s)
  · exact items_eq_singleton hs

/-! ### The two loops agree -/

/-- The strings that are there, one after the other, with `count` before them. -/
def joined : ℕ → List (Option CString) → List UInt8
  | _, [] => []
  | count, entry :: entries =>
    if given entry = [] then joined count entries
    else (if count ≠ 0 then [colon] else []) ++ given entry ++ joined (count + 1) entries

theorem sizeSub_eq {bits a b : ℕ} (hba : b ≤ a) (ha : a < 2 ^ bits) : sizeSub bits a b = a - b :=
  Support.Word.sub_eq hba ha

/-- The test refuses exactly the lengths with which the total would wrap. -/
theorem overflow_iff {bits total length separator : ℕ} (hs : separator ≤ 1) (hl : 0 < length) :
    (total > sizeSub bits (sizeMax bits) separator ∨
      length > sizeSub bits (sizeSub bits (sizeMax bits) total) separator) ↔
      2 ^ bits ≤ total + (length + separator) := by
  have hpos : 0 < 2 ^ bits := Nat.two_pow_pos bits
  have hmax : sizeMax bits = 2 ^ bits - 1 := rfl
  by_cases hone : 2 ^ bits = 1
  · have hzero : ∀ a b, sizeSub bits a b = 0 := fun a b => by rw [sizeSub, hone, Nat.mod_one]
    rw [hzero, hzero, hone]
    omega
  · rw [sizeSub_eq (by omega) (by omega)]
    by_cases htotal : total ≤ sizeMax bits - separator
    · rw [sizeSub_eq (a := sizeMax bits) (b := total) (by omega) (by omega),
        sizeSub_eq (by omega) (by omega)]
      omega
    · refine iff_of_true (.inl ?_) ?_ <;> omega

theorem joined_cons {count : ℕ} {entry : Option CString} {entries : List (Option CString)} :
    (joined count (entry :: entries)).length = if given entry = [] then (joined count entries).length
      else separator count + (given entry).length + (joined (count + 1) entries).length := by
  rw [joined]
  split
  · rfl
  · rw [List.length_append, List.length_append]
    unfold separator
    split <;> rfl

/-- The total is that of what will be stored, and has not wrapped. -/
theorem measure_ok (bits : ℕ) (entries : List (Option CString)) (m : Measure)
    (h : m.total + (joined m.count entries).length < 2 ^ bits) :
    ∃ count, measure bits entries m = .ok ⟨m.lengths ++ entries.map fun e => (given e).length, count,
      m.total + (joined m.count entries).length⟩ := by
  induction entries generalizing m with
  | nil => exact ⟨m.count, by simp [measure, joined]⟩
  | cons entry entries ih =>
    rw [joined_cons] at h ⊢
    rw [measure]
    by_cases he : given entry = []
    · simp only [if_pos he] at h ⊢
      obtain ⟨count, hc⟩ := ih (m := { m with lengths := m.lengths ++ [0] }) h
      exact ⟨count, by simp [hc, he]⟩
    · have hlen : 0 < (given entry).length := List.length_pos_iff.mpr he
      have hsep : separator m.count ≤ 1 := by unfold separator; split <;> omega
      simp only [if_neg he] at h ⊢
      have hno : ¬(m.total > sizeSub bits (sizeMax bits) (separator m.count) ∨ (given entry).length >
          sizeSub bits (sizeSub bits (sizeMax bits) m.total) (separator m.count)) := by
        rw [overflow_iff hsep hlen]
        omega
      have htotal : sizeAdd bits m.total (sizeAdd bits (given entry).length (separator m.count)) =
          m.total + ((given entry).length + separator m.count) := by
        rw [sizeAdd, sizeAdd, Nat.add_mod_mod, Nat.mod_eq_of_lt (by omega)]
      obtain ⟨count, hc⟩ := ih (m := ⟨m.lengths ++ [(given entry).length], m.count + 1,
        m.total + ((given entry).length + separator m.count)⟩) (by simp only; omega)
      refine ⟨count, ?_⟩
      rw [if_neg hno, htotal, hc]
      simp [Nat.add_assoc, Nat.add_left_comm]

theorem measure_error (bits : ℕ) {entries : List (Option CString)} (m : Measure)
    (h : 2 ^ bits ≤ m.total + (joined m.count entries).length) (hne : joined m.count entries ≠ []) :
    measure bits entries m = .error EOVERFLOW := by
  induction entries generalizing m with
  | nil => exact absurd rfl hne
  | cons entry entries ih =>
    rw [joined_cons] at h
    rw [joined] at hne
    rw [measure]
    by_cases he : given entry = []
    · simp only [if_pos he] at h hne ⊢
      exact ih _ h hne
    · have hlen : 0 < (given entry).length := List.length_pos_iff.mpr he
      have hsep : separator m.count ≤ 1 := by unfold separator; split <;> omega
      simp only [if_neg he] at h ⊢
      by_cases hover : m.total > sizeSub bits (sizeMax bits) (separator m.count) ∨
          (given entry).length > sizeSub bits (sizeSub bits (sizeMax bits) m.total) (separator m.count)
      · exact if_pos hover
      · have hguard := hover
        rw [overflow_iff hsep hlen, not_le] at hguard
        have htotal : sizeAdd bits m.total (sizeAdd bits (given entry).length (separator m.count)) =
            m.total + ((given entry).length + separator m.count) := by
          rw [sizeAdd, sizeAdd, Nat.add_mod_mod, Nat.mod_eq_of_lt hguard]
        have hrest : joined (m.count + 1) entries ≠ [] := by
          intro hnil
          rw [hnil, List.length_nil] at h
          omega
        have hih := ih (m := ⟨m.lengths ++ [(given entry).length], m.count + 1,
          m.total + ((given entry).length + separator m.count)⟩) (by simp only; omega) hrest
        rw [if_neg hover, htotal, hih]

/-- The second loop stores what the first has measured. -/
theorem copy_eq (entries : List (Option CString)) (count : ℕ) (stored : List UInt8) :
    copy (entries.zip (entries.map fun e => (given e).length)) count stored =
      stored ++ joined count entries := by
  induction entries generalizing count stored with
  | nil => simp [copy, joined]
  | cons entry entries ih =>
    rw [List.map_cons, List.zip_cons_cons, copy, joined]
    by_cases he : given entry = []
    · rw [if_pos (by simp [he]), if_pos he]
      exact ih count stored
    · rw [if_neg (by simpa using he), if_neg he, ih, List.take_length]
      split <;> simp

/-! ### What the linker loads -/

/-- The size of the list, which has a byte before each entry but the first and one at its end. -/
def listSize (core nvidiaTls user : List UInt8) : ℕ :=
  core.length + (if nvidiaTls = [] then 0 else nvidiaTls.length + 1) +
    (if user = [] then 0 else user.length + 1) + 1

/-- The inputs with which a list is made. -/
structure Accepts (bits : ℕ) (malloc : ℕ → Bool) (core nvidiaTls user : List UInt8) : Prop where
  core_ok : core ≠ []
  tls_ok : nvidiaTls = [] ∨ nvidiaTls.head? = some slash ∧ colon ∉ nvidiaTls
  size_ok : listSize core nvidiaTls user < 2 ^ bits
  memory : malloc (listSize core nvidiaTls user) = true

/-- The list splits into the core's items, the TLS object if there is one, and the user's items; it
fills its allocation, whose size has not wrapped. Without a list nothing is allocated. -/
def Preloads (call : Call) (core nvidiaTls user : List UInt8) : Prop :=
  match call.result with
  | .error _ => call.allocated = []
  | .ok list => items list.string =
        items core ++ (if nvidiaTls = [] then [] else [nvidiaTls]) ++ items user ∧
      list.written.length = list.size ∧ list.size = listSize core nvidiaTls user ∧
      call.allocated = [list.size]

section

variable {bits : ℕ} {malloc : ℕ → Bool} {core nvidiaTls user : Option CString}

theorem zero_not_mem_given (entry : Option CString) : 0 ∉ given entry := by
  cases entry with
  | none => simp [given]
  | some s => exact s.nul

/-- What is stored before the terminator. -/
theorem joined_entries (hcore : given core ≠ []) : joined 0 [core, nvidiaTls, user] = given core ++
    (if given nvidiaTls = [] then [] else colon :: given nvidiaTls) ++
    (if given user = [] then [] else colon :: given user) := by
  by_cases ht : given nvidiaTls = []
  · by_cases hu : given user = [] <;> simp [joined, hcore, ht, hu]
  · by_cases hu : given user = [] <;> simp [joined, hcore, ht, hu]

theorem length_joined_entries (nvidiaTls user : Option CString) (hcore : given core ≠ []) :
    1 + (joined 0 [core, nvidiaTls, user]).length = listSize (given core) (given nvidiaTls) (given user) := by
  rw [joined_entries hcore, listSize, List.length_append, List.length_append]
  split <;> split <;> simp <;> omega

theorem preloadList_of_accepts
    (h : Accepts bits malloc (given core) (given nvidiaTls) (given user)) :
    preloadList bits malloc core nvidiaTls user =
      ⟨.ok ⟨listSize (given core) (given nvidiaTls) (given user),
        joined 0 [core, nvidiaTls, user] ++ [0]⟩,
        [listSize (given core) (given nvidiaTls) (given user)]⟩ := by
  have hlen := length_joined_entries nvidiaTls user h.core_ok
  have htls : ¬(given nvidiaTls ≠ [] ∧
      ((given nvidiaTls).head? ≠ some slash ∨ colon ∈ given nvidiaTls)) := by
    rintro ⟨hne, hbad⟩
    rcases h.tls_ok with hnil | ⟨hslash, hcolon⟩
    · exact hne hnil
    · rcases hbad with hbad | hbad
      · exact hbad hslash
      · exact hcolon hbad
  obtain ⟨count, hm⟩ := measure_ok bits [core, nvidiaTls, user] ⟨[], 0, 1⟩
    (by simp only [hlen]; exact h.size_ok)
  simp only [hlen, List.nil_append] at hm
  unfold preloadList
  rw [if_neg h.core_ok, if_neg htls, hm]
  simp only [h.memory, if_true]
  rw [copy_eq, List.nil_append]

theorem preloadList_of_not_accepts
    (h : ¬Accepts bits malloc (given core) (given nvidiaTls) (given user)) :
    ∃ e, preloadList bits malloc core nvidiaTls user = ⟨.error e, []⟩ := by
  unfold preloadList
  by_cases hcore : given core = []
  · exact ⟨EINVAL, if_pos hcore⟩
  · rw [if_neg hcore]
    by_cases htls : given nvidiaTls ≠ [] ∧
        ((given nvidiaTls).head? ≠ some slash ∨ colon ∈ given nvidiaTls)
    · exact ⟨EINVAL, if_pos htls⟩
    · rw [if_neg htls]
      have hlen := length_joined_entries nvidiaTls user hcore
      by_cases hsize : listSize (given core) (given nvidiaTls) (given user) < 2 ^ bits
      · obtain ⟨count, hm⟩ := measure_ok bits [core, nvidiaTls, user] ⟨[], 0, 1⟩
          (by simp only [hlen]; exact hsize)
        simp only [hlen] at hm
        have hmalloc : malloc (listSize (given core) (given nvidiaTls) (given user)) = false := by
          rw [Bool.eq_false_iff]
          intro hmem
          refine h ⟨hcore, ?_, hsize, hmem⟩
          by_cases hnil : given nvidiaTls = []
          · exact .inl hnil
          · simpa [hnil] using htls
        exact ⟨ENOMEM, by simp [hm, hmalloc]⟩
      · have hne : joined 0 [core, nvidiaTls, user] ≠ [] := by
          rw [joined_entries hcore]
          simp [hcore]
        have hm := measure_error bits ⟨[], 0, 1⟩
          (by simp only [hlen]; exact not_lt.mp hsize) hne
        exact ⟨EOVERFLOW, by simp [hm]⟩

theorem string_joined {entries : List (Option CString)} {count size : ℕ} :
    (Buffer.mk size (joined count entries ++ [0])).string = joined count entries := by
  have hno : 0 ∉ joined count entries := by
    induction entries generalizing count with
    | nil => simp [joined]
    | cons entry entries ih =>
      rw [joined]
      split
      · exact ih
      · have hcolon : (0 : UInt8) ≠ colon := by decide
        rw [List.mem_append, List.mem_append, not_or, not_or]
        refine ⟨⟨?_, zero_not_mem_given entry⟩, ih⟩
        split <;> simp [hcolon]
  rw [Buffer.string, List.takeWhile_append_of_pos]
  · simp
  · intro b hb
    have hb0 : b ≠ 0 := fun h => hno (h ▸ hb)
    simpa using hb0

theorem items_joined (hcore : given core ≠ []) : items (joined 0 [core, nvidiaTls, user]) =
    items (given core) ++ items (given nvidiaTls) ++ items (given user) := by
  have hcolon : isDelimiter colon = true := by decide
  rw [joined_entries hcore]
  by_cases ht : given nvidiaTls = []
  · by_cases hu : given user = []
    · simp [ht, hu, items_nil]
    · simp [ht, hu, items_nil, items_append hcolon]
  · by_cases hu : given user = []
    · simp [ht, hu, items_nil, items_append hcolon]
    · simp [ht, hu, items_append hcolon]

/-- The list is the one that the loader means if and only if no list is made or there is no white
space in the path of the TLS object. -/
theorem preloads_iff (bits : ℕ) (malloc : ℕ → Bool) (core nvidiaTls user : Option CString) :
    Preloads (preloadList bits malloc core nvidiaTls user) (given core) (given nvidiaTls) (given user) ↔
      (Accepts bits malloc (given core) (given nvidiaTls) (given user) →
        ∀ b ∈ given nvidiaTls, isSpace b = false) := by
  by_cases h : Accepts bits malloc (given core) (given nvidiaTls) (given user)
  · have hlen : (joined 0 [core, nvidiaTls, user] ++ [0]).length =
        listSize (given core) (given nvidiaTls) (given user) := by
      rw [List.length_append, ← length_joined_entries _ _ h.core_ok]
      exact Nat.add_comm _ _
    have hspace : (if given nvidiaTls = [] then [] else [given nvidiaTls]) = items (given nvidiaTls) ↔
        ∀ b ∈ given nvidiaTls, isSpace b = false := by
      rcases h.tls_ok with hnil | ⟨hslash, hcolon⟩
      · simp [hnil, items_nil]
      · have hne : given nvidiaTls ≠ [] := by
          rintro hnil
          rw [hnil] at hslash
          cases hslash
        rw [if_neg hne, eq_comm, items_eq_self_iff hne]
        refine forall₂_congr fun b hb => ?_
        have hb : b ≠ colon := fun he => hcolon (he ▸ hb)
        simp [isDelimiter, hb]
    rw [preloadList_of_accepts h, Preloads]
    simp only [string_joined, items_joined h.core_ok, hlen, and_true]
    rw [List.append_left_inj, List.append_right_inj, eq_comm, hspace]
    exact ⟨fun hb _ => hb, fun hb => hb h⟩
  · obtain ⟨e, he⟩ := preloadList_of_not_accepts h
    rw [he]
    exact iff_of_true rfl fun hacc => absurd hacc h

end

def coreObject : CString := ⟨ascii ['/', 'c'], by decide⟩

def spacedObject : CString := ⟨ascii ['/', 'a', ' ', 'b'], by decide⟩

/-- A TLS object whose path has a blank in it is two objects for the linker. -/
theorem preloads_spaced :
    preloadList 64 (fun _ => true) (some coreObject) (some spacedObject) none =
      ⟨.ok ⟨8, coreObject.bytes ++ colon :: spacedObject.bytes ++ [0]⟩, [8]⟩ ∧
    items (coreObject.bytes ++ colon :: spacedObject.bytes) =
      [coreObject.bytes, ascii ['/', 'a'], ascii ['b']] ∧
    ¬Preloads (preloadList 64 (fun _ => true) (some coreObject) (some spacedObject) none)
      coreObject.bytes spacedObject.bytes [] := by
  have hlist : preloadList 64 (fun _ => true) (some coreObject) (some spacedObject) none =
      ⟨.ok ⟨8, coreObject.bytes ++ colon :: spacedObject.bytes ++ [0]⟩, [8]⟩ := by rfl
  have hitems : items (coreObject.bytes ++ colon :: spacedObject.bytes) =
      [coreObject.bytes, ascii ['/', 'a'], ascii ['b']] := by decide
  refine ⟨hlist, hitems, fun h => ?_⟩
  rw [hlist] at h
  have hstring : items (coreObject.bytes ++ colon :: spacedObject.bytes) =
      items coreObject.bytes ++ [spacedObject.bytes] ++ items [] := h.1
  rw [hitems] at hstring
  exact absurd hstring (by decide)

end MuslBsd.Compat
