import Mathlib.Algebra.Order.Ring.Nat
import Mathlib.Data.List.TakeDrop
import Mathlib.Data.List.TakeWhile
import Mathlib.Tactic.Common

/-! The argument vector that the loader and `execve` hand to the musl linker, and how `readlink`
finds the target in it again. -/
namespace MuslBsd.Compat

def EIO : ℕ := 5
def ENAMETOOLONG : ℕ := 36
def EOVERFLOW : ℕ := 75
def LOADER_FAILURE : ℕ := 126
def PATH_MAX : ℕ := 4096
def SIZE_MAX : ℕ := 2 ^ 64 - 1

/-- The bytes of a C string before its terminator. -/
structure CString where
  bytes : List UInt8
  nul : 0 ∉ bytes
  deriving DecidableEq

theorem CString.ext_bytes {s t : CString} (h : s.bytes = t.bytes) : s = t := by
  cases s
  cases t
  simpa using h

def ascii (cs : List Char) : List UInt8 := cs.map fun c => c.toNat.toUInt8

def preloadOption : CString := ⟨ascii ['-', '-', 'p', 'r', 'e', 'l', 'o', 'a', 'd'], by decide⟩

def libraryPathOption : CString :=
  ⟨ascii ['-', '-', 'l', 'i', 'b', 'r', 'a', 'r', 'y', '-', 'p', 'a', 't', 'h'], by decide⟩

def argv0Option : CString := ⟨ascii ['-', '-', 'a', 'r', 'g', 'v', '0'], by decide⟩

def delimiter : CString := ⟨ascii ['-', '-'], by decide⟩

/-! ### The two writers -/

/-- `new_argv`: `none` is a NULL pointer, and the vector ends at the first. -/
def newArgv (linker preloads library target : CString) (argv : List CString) :
    List (Option CString) :=
  [some linker, some preloadOption, some preloads, some libraryPathOption, some library,
    some argv0Option, argv.head?, some delimiter, some target] ++ argv.tail.map some ++ [none]

/-- The part of `execve` and of the loader's `main` that they share; `overflow` is the error of one
whose argument vector is too large. -/
def buildArgv (overflow : ℕ) (linker preloads library target : CString) (argv : List CString) :
    Except ℕ (List (Option CString)) :=
  if argv.length > SIZE_MAX / 8 - 9 then .error overflow
  else .ok (newArgv linker preloads library target argv)

def execveArgv : CString → CString → CString → CString → List CString →
    Except ℕ (List (Option CString)) := buildArgv EOVERFLOW

def loaderArgv : CString → CString → CString → CString → List CString →
    Except ℕ (List (Option CString)) := buildArgv LOADER_FAILURE

/-- `/proc/self/cmdline`. -/
def cmdline : List (Option CString) → List UInt8
  | some s :: v => s.bytes ++ 0 :: cmdline v
  | _ => []

/-! ### The reader -/

/-- The loop of `target_from_cmdline`, with what is left between `cursor` and `end`. -/
def scan (size : ℕ) (rest : List UInt8) : Except ℕ (List UInt8) :=
  let item := rest.takeWhile (· ≠ 0)
  if item.length = rest.length then .error EIO
  else if item = delimiter.bytes then
    let value := rest.drop (item.length + 1)
    let path := value.takeWhile (· ≠ 0)
    if value = [] then .error EIO
    else if path.length = 0 then .error EIO
    else if path.length ≥ size then .error ENAMETOOLONG
    else .ok path
  else scan size (rest.drop (item.length + 1))
termination_by rest.length
decreasing_by
  have : item.length ≤ rest.length := (List.takeWhile_sublist _).length_le
  simp only [List.length_drop]
  omega

/-- `target_from_cmdline`; `file` is what `read` returns, or the error of `open`. -/
def targetFromCmdline (file : Except ℕ (List UInt8)) (size : ℕ) : Except ℕ (List UInt8) :=
  match file with
  | .error e => .error e
  | .ok data => if data.length < 1 then .error EIO else scan size data

/-! ### Scanning a vector that was cut -/

/-- Terminated strings. -/
def stream (ts : List CString) : List UInt8 := ts.flatMap fun s => s.bytes ++ [0]

@[simp] theorem stream_nil : stream [] = [] := rfl

@[simp] theorem stream_cons (s : CString) (ts : List CString) :
    stream (s :: ts) = s.bytes ++ 0 :: stream ts := by
  simp [stream]

theorem takeWhile_bytes (s : CString) (rest : List UInt8) :
    (s.bytes ++ 0 :: rest).takeWhile (· ≠ 0) = s.bytes := by
  rw [List.takeWhile_append_of_pos]
  · simp
  · intro b hb
    have : b ≠ 0 := fun h => s.nul (h ▸ hb)
    simpa using this

/-- Without a terminator there is no item. -/
theorem scan_unterminated (size : ℕ) {rest : List UInt8} (h : 0 ∉ rest) :
    scan size rest = .error EIO := by
  have hall : rest.takeWhile (· ≠ 0) = rest := by
    rw [List.takeWhile_eq_self_iff]
    intro b hb
    have : b ≠ 0 := fun he => h (he ▸ hb)
    simpa using this
  rw [scan]
  simp only [hall, if_true]

theorem scan_skip (size : ℕ) {s : CString} (hs : s ≠ delimiter) (rest : List UInt8) :
    scan size (s.bytes ++ 0 :: rest) = scan size rest := by
  have hne : s.bytes ≠ delimiter.bytes := fun h => hs (CString.ext_bytes h)
  rw [scan]
  simp only [takeWhile_bytes]
  rw [if_neg (by simp), if_neg hne]
  simp

theorem scan_delimiter (size : ℕ) (rest : List UInt8) :
    scan size (delimiter.bytes ++ 0 :: rest) =
      if rest = [] ∨ (rest.takeWhile (· ≠ 0)).length = 0 then .error EIO
      else if (rest.takeWhile (· ≠ 0)).length ≥ size then .error ENAMETOOLONG
      else .ok (rest.takeWhile (· ≠ 0)) := by
  rw [scan]
  simp only [takeWhile_bytes]
  rw [if_neg (by simp)]
  have hdrop : (delimiter.bytes ++ 0 :: rest).drop (delimiter.bytes.length + 1) = rest := by simp
  simp only [hdrop, if_true]
  by_cases hr : rest = []
  · simp [hr]
  · by_cases hl : (rest.takeWhile (· ≠ 0)).length = 0
    · simp only [hr, hl, if_true, if_false, or_true]
    · simp only [hr, hl, if_false, or_self]

theorem scan_nil (size : ℕ) : scan size [] = .error EIO := scan_unterminated size (by simp)

/-- A cut inside an item leaves nothing to find. -/
theorem scan_take_item (size : ℕ) {s : CString} (hs : s ≠ delimiter) (rest : List UInt8) (n : ℕ) :
    scan size ((s.bytes ++ 0 :: rest).take n) = scan size (rest.take (n - (s.bytes.length + 1))) := by
  by_cases hn : n ≤ s.bytes.length
  · have hzero : n - (s.bytes.length + 1) = 0 := by omega
    rw [hzero, List.take_zero, scan_nil, List.take_append_of_le_length hn]
    exact scan_unterminated size fun h => s.nul (List.mem_of_mem_take h)
  · obtain ⟨k, hk⟩ : ∃ k, n = s.bytes.length + (k + 1) := ⟨n - s.bytes.length - 1, by omega⟩
    have hsub : n - (s.bytes.length + 1) = k := by omega
    rw [hsub, hk, List.take_length_add_append, List.take_succ_cons, scan_skip size hs]

theorem scan_take_stream (size : ℕ) {pre : List CString} (hpre : delimiter ∉ pre)
    (rest : List UInt8) (n : ℕ) :
    scan size ((stream pre ++ rest).take n) = scan size (rest.take (n - (stream pre).length)) := by
  induction pre generalizing n with
  | nil => simp
  | cons s pre ih =>
    have hs : s ≠ delimiter := fun h => hpre (by simp [h])
    have hrest : delimiter ∉ pre := fun h => hpre (by simp [h])
    have hlen : n - (s.bytes.length + 1) - (stream pre).length =
        n - (stream (s :: pre)).length := by
      simp only [stream_cons, List.length_append, List.length_cons]
      omega
    rw [stream_cons, List.append_assoc, List.cons_append, scan_take_item size hs, ih hrest, hlen,
      stream_cons]

theorem takeWhile_take (s : CString) (rest : List UInt8) (n : ℕ) :
    ((s.bytes ++ 0 :: rest).take n).takeWhile (· ≠ 0) = s.bytes.take n := by
  by_cases hn : n ≤ s.bytes.length
  · rw [List.take_append_of_le_length hn, List.takeWhile_eq_self_iff]
    intro b hb
    have : b ≠ 0 := fun h => s.nul (h ▸ List.mem_of_mem_take hb)
    simpa using this
  · obtain ⟨k, hk⟩ : ∃ k, n = s.bytes.length + (k + 1) := ⟨n - s.bytes.length - 1, by omega⟩
    rw [hk, List.take_length_add_append, List.take_succ_cons, takeWhile_bytes,
      List.take_of_length_le (by omega)]

/-- What is found after the first delimiter of a vector that was cut after `n` bytes. -/
theorem scan_take_found (size : ℕ) {pre : List CString} (hpre : delimiter ∉ pre) (value : CString)
    (rest : List UInt8) (n : ℕ) :
    scan size ((stream (pre ++ [delimiter, value]) ++ rest).take n) =
      if (value.bytes.take (n - ((stream pre).length + 3))) = [] then .error EIO
      else if (value.bytes.take (n - ((stream pre).length + 3))).length ≥ size then
        .error ENAMETOOLONG
      else .ok (value.bytes.take (n - ((stream pre).length + 3))) := by
  have hstream : stream (pre ++ [delimiter, value]) ++ rest =
      stream pre ++ (delimiter.bytes ++ 0 :: (value.bytes ++ 0 :: rest)) := by
    simp [stream]
  rw [hstream, scan_take_stream size hpre]
  generalize hm : n - (stream pre).length = m
  have hsub : n - ((stream pre).length + 3) = m - 3 := by omega
  rw [hsub]
  by_cases hlt : m ≤ delimiter.bytes.length
  · have hzero : m - 3 = 0 := by
      have : delimiter.bytes.length = 2 := rfl
      omega
    rw [hzero, List.take_zero, if_pos rfl, List.take_append_of_le_length hlt]
    exact scan_unterminated size fun h => delimiter.nul (List.mem_of_mem_take h)
  · have hlen : delimiter.bytes.length = 2 := rfl
    have hk : m = delimiter.bytes.length + (m - 3 + 1) := by omega
    rw [hk, List.take_length_add_append, List.take_succ_cons, scan_delimiter]
    have hsub : delimiter.bytes.length + (m - 3 + 1) - 3 = m - 3 := by omega
    rw [hsub, takeWhile_take]
    by_cases hnil : value.bytes.take (m - 3) = []
    · rw [if_pos (.inr (by rw [hnil]; rfl)), if_pos hnil]
    · have hne : ¬((value.bytes ++ 0 :: rest).take (m - 3) = [] ∨
          (value.bytes.take (m - 3)).length = 0) := by
        rintro (h | h)
        · rw [List.take_eq_nil_iff] at h hnil
          rcases h with h | h
          · exact hnil (.inl h)
          · simp at h
        · exact hnil (List.length_eq_zero_iff.mp h)
      rw [if_neg hne, if_neg hnil]

/-- Without a delimiter nothing is found, cut or not. -/
theorem scan_take_missing (size : ℕ) {ts : List CString} (h : delimiter ∉ ts) (n : ℕ) :
    scan size ((stream ts).take n) = .error EIO := by
  have := scan_take_stream size h [] n
  rw [List.append_nil] at this
  rw [this, List.take_nil, scan_nil]

/-! ### The round trip -/

/-- What `readlink` is to make of the vector `v` after it has read `data`. -/
structure RoundTrip (target : CString) (v : List (Option CString)) (data : List UInt8) : Prop where
  sound : targetFromCmdline (.ok data) PATH_MAX = .ok target.bytes ∨
    ∃ e, targetFromCmdline (.ok data) PATH_MAX = .error e
  complete : data = cmdline v → targetFromCmdline (.ok data) PATH_MAX = .ok target.bytes

/-- The strings before and the one after the first caller's string that is itself a delimiter. -/
def decoy (linker preloads library : CString) (argv : List CString) :
    Option (List CString × CString) :=
  if linker = delimiter then some ([], preloadOption)
  else if preloads = delimiter then some ([linker, preloadOption], libraryPathOption)
  else if library = delimiter then
    some ([linker, preloadOption, preloads, libraryPathOption], argv0Option)
  else if argv.head? = some delimiter then
    some ([linker, preloadOption, preloads, libraryPathOption, library, argv0Option], delimiter)
  else none

/-- The read ended where the vector still gives the target or nothing. -/
def Decodable (linker preloads library target : CString) (argv : List CString) (n : ℕ) : Prop :=
  match decoy linker preloads library argv, argv with
  | some (before, option), _ =>
    n ≤ (stream before).length + 3 ∨
      option.bytes.take (n - ((stream before).length + 3)) = target.bytes
  | none, [] =>
    n < (stream [linker, preloadOption, preloads, libraryPathOption, library, argv0Option]).length
  | none, argv0 :: _ =>
    let start := (stream [linker, preloadOption, preloads, libraryPathOption, library, argv0Option,
      argv0]).length + 3
    n ≤ start ∨ start + target.bytes.length ≤ n

theorem targetFromCmdline_take {bytes : List UInt8} {n : ℕ} (size : ℕ) :
    targetFromCmdline (.ok (bytes.take n)) size = scan size (bytes.take n) := by
  simp only [targetFromCmdline]
  split
  · rename_i h
    rw [List.length_eq_zero_iff.mp (by omega : (bytes.take n).length = 0), scan_nil]
  · rfl

section Found

variable {pre : List CString} {value target : CString} {rest : List UInt8}
  {v : List (Option CString)} {n : ℕ}

theorem roundTrip_found (hv : cmdline v = stream (pre ++ [delimiter, value]) ++ rest)
    (hpre : delimiter ∉ pre) (hne : value.bytes ≠ []) (hlen : value.bytes.length < PATH_MAX)
    (hn : n ≤ (cmdline v).length) : RoundTrip target v ((cmdline v).take n) ↔
      n ≤ (stream pre).length + 3 ∨
        value.bytes.take (n - ((stream pre).length + 3)) = target.bytes := by
  have hscan := scan_take_found PATH_MAX hpre value rest n
  rw [← hv, ← targetFromCmdline_take] at hscan
  have hshort : ¬(value.bytes.take (n - ((stream pre).length + 3))).length ≥ PATH_MAX := by
    rw [List.length_take]
    omega
  rw [if_neg hshort] at hscan
  by_cases hcut : n ≤ (stream pre).length + 3
  · have hnil : value.bytes.take (n - ((stream pre).length + 3)) = [] := by
      rw [Nat.sub_eq_zero_of_le hcut, List.take_zero]
    rw [if_pos hnil] at hscan
    refine ⟨fun _ => .inl hcut, fun _ => ⟨.inr ⟨_, hscan⟩, fun hall => ?_⟩⟩
    have hfull : n = (cmdline v).length := by
      have := congrArg List.length hall
      rw [List.length_take] at this
      omega
    have htotal : (cmdline v).length = (stream pre).length + 3 + (value.bytes.length + 1) + rest.length := by
      have hd : delimiter.bytes.length = 2 := rfl
      rw [hv]
      simp [stream, hd]
      omega
    omega
  · have hnil : value.bytes.take (n - ((stream pre).length + 3)) ≠ [] := by
      rw [Ne, List.take_eq_nil_iff]
      rintro (h | h)
      · omega
      · exact hne h
    rw [if_neg hnil] at hscan
    constructor
    · intro h
      rcases h.sound with he | ⟨e, he⟩
      · rw [hscan] at he
        exact .inr (Except.ok.inj he)
      · rw [hscan] at he
        cases he
    · intro h
      have he := h.resolve_left hcut
      rw [he] at hscan
      exact ⟨.inl hscan, fun _ => hscan⟩

theorem roundTrip_missing {ts : List CString} (hv : cmdline v = stream ts) (h : delimiter ∉ ts)
    (hn : n ≤ (cmdline v).length) :
    RoundTrip target v ((cmdline v).take n) ↔ n < (stream ts).length := by
  have hscan := scan_take_missing PATH_MAX h n
  rw [← hv, ← targetFromCmdline_take] at hscan
  rw [← hv]
  constructor
  · intro hr
    by_contra hlt
    have hall := hr.complete (List.take_of_length_le (by omega))
    rw [hscan] at hall
    cases hall
  · intro hlt
    refine ⟨.inr ⟨_, hscan⟩, fun hall => ?_⟩
    have := congrArg List.length hall
    rw [List.length_take] at this
    omega

end Found

theorem options_ne_delimiter :
    preloadOption ≠ delimiter ∧ libraryPathOption ≠ delimiter ∧ argv0Option ≠ delimiter := by
  decide

theorem cmdline_of_prefix {ts : List CString} {v : List (Option CString)} (h : ts.map some <+: v) :
    ∃ rest, cmdline v = stream ts ++ rest := by
  obtain ⟨w, rfl⟩ := h
  refine ⟨cmdline w, ?_⟩
  induction ts with
  | nil => rfl
  | cons s ts ih => simp [cmdline, ih]

section Vector

variable {linker preloads library target : CString} {argv : List CString}

/-- Where a string of the caller comes to stand for the delimiter, the vector goes on with it and
the next option. -/
theorem cmdline_decoy (target : CString) {before : List CString} {option : CString}
    (h : decoy linker preloads library argv = some (before, option)) :
    delimiter ∉ before ∧ option.bytes ≠ [] ∧ option.bytes.length < PATH_MAX ∧
      ∃ rest, cmdline (newArgv linker preloads library target argv) =
        stream (before ++ [delimiter, option]) ++ rest := by
  obtain ⟨hp, hl, ha⟩ := options_ne_delimiter
  unfold decoy at h
  split_ifs at h with h₁ h₂ h₃ h₄
  · obtain ⟨rfl, rfl⟩ := Prod.mk.inj (Option.some.inj h)
    refine ⟨by simp, by decide, by decide, ?_⟩
    exact cmdline_of_prefix (by simp [newArgv, h₁])
  · obtain ⟨rfl, rfl⟩ := Prod.mk.inj (Option.some.inj h)
    refine ⟨by simp [hp.symm, Ne.symm h₁], by decide, by decide, ?_⟩
    exact cmdline_of_prefix (by simp [newArgv, h₂])
  · obtain ⟨rfl, rfl⟩ := Prod.mk.inj (Option.some.inj h)
    refine ⟨by simp [hp.symm, hl.symm, Ne.symm h₁, Ne.symm h₂], by decide, by decide, ?_⟩
    exact cmdline_of_prefix (by simp [newArgv, h₃])
  · obtain ⟨rfl, rfl⟩ := Prod.mk.inj (Option.some.inj h)
    refine ⟨by simp [hp.symm, hl.symm, ha.symm, Ne.symm h₁, Ne.symm h₂, Ne.symm h₃], by decide,
      by decide, ?_⟩
    exact cmdline_of_prefix (by simp [newArgv, h₄])

/-- Otherwise the delimiter is the one that was put before the target, if `argv` is not empty. -/
theorem cmdline_of_decoy_eq_none (target : CString)
    (h : decoy linker preloads library argv = none) :
    (argv = [] → delimiter ∉ [linker, preloadOption, preloads, libraryPathOption, library,
        argv0Option] ∧ cmdline (newArgv linker preloads library target argv) =
      stream [linker, preloadOption, preloads, libraryPathOption, library, argv0Option]) ∧
    ∀ argv0 args, argv = argv0 :: args → delimiter ∉ [linker, preloadOption, preloads,
        libraryPathOption, library, argv0Option, argv0] ∧
      ∃ rest, cmdline (newArgv linker preloads library target argv) =
        stream ([linker, preloadOption, preloads, libraryPathOption, library, argv0Option, argv0] ++
          [delimiter, target]) ++ rest := by
  obtain ⟨hp, hl, ha⟩ := options_ne_delimiter
  unfold decoy at h
  split_ifs at h with h₁ h₂ h₃ h₄
  constructor
  · intro he
    refine ⟨by simp [hp.symm, hl.symm, ha.symm, Ne.symm h₁, Ne.symm h₂, Ne.symm h₃], ?_⟩
    simp [newArgv, cmdline, he, stream]
  · intro argv0 args he
    have h₄ : delimiter ≠ argv0 := fun hd => h₄ (by rw [he, hd]; rfl)
    refine ⟨by simp [hp.symm, hl.symm, ha.symm, Ne.symm h₁, Ne.symm h₂, Ne.symm h₃, h₄], ?_⟩
    exact cmdline_of_prefix (by simp [newArgv, he])

end Vector

/-- The target comes back, or nothing does, if and only if no string of the caller is taken for the
delimiter, there is an `argv[0]`, and the read does not end inside the target. -/
theorem exec_readlink_iff {linker preloads library target : CString} {argv : List CString}
    {v : List (Option CString)} {data : List UInt8}
    (hv : loaderArgv linker preloads library target argv = .ok v ∨
      execveArgv linker preloads library target argv = .ok v)
    (hne : target.bytes ≠ []) (hlen : target.bytes.length < PATH_MAX) (hr : data <+: cmdline v) :
    RoundTrip target v data ↔ Decodable linker preloads library target argv data.length := by
  have hv : v = newArgv linker preloads library target argv := by
    rcases hv with hv | hv <;> simp only [loaderArgv, execveArgv, buildArgv] at hv <;>
      split_ifs at hv <;> exact (Except.ok.inj hv).symm
  subst hv
  have hn := hr.length_le
  rw [List.prefix_iff_eq_take.mp hr]
  simp only [List.length_take_of_le hn]
  unfold Decodable
  cases hd : decoy linker preloads library argv with
  | some d =>
    obtain ⟨hpre, hne, hlen, rest, hcmd⟩ := cmdline_decoy target hd
    exact roundTrip_found hcmd hpre hne hlen hn
  | none =>
    obtain ⟨hempty, hargs⟩ := cmdline_of_decoy_eq_none target hd
    cases argv with
    | nil =>
      obtain ⟨hpre, hcmd⟩ := hempty rfl
      exact roundTrip_missing hcmd hpre hn
    | cons argv0 args =>
      obtain ⟨hpre, rest, hcmd⟩ := hargs argv0 args rfl
      rw [roundTrip_found hcmd hpre hne hlen hn]
      refine or_congr_right' fun hcut => ?_
      rw [List.take_eq_self_iff]
      omega

def examplePath : CString := ⟨ascii ['/', 'b'], by decide⟩

/-- With an ordinary `argv[0]` and all of the vector read, the target comes back. -/
theorem exec_readlink_iff_path :
    RoundTrip examplePath (newArgv examplePath examplePath examplePath examplePath [examplePath])
        (cmdline (newArgv examplePath examplePath examplePath examplePath [examplePath])) ↔
      Decodable examplePath examplePath examplePath examplePath [examplePath]
        (cmdline (newArgv examplePath examplePath examplePath examplePath [examplePath])).length :=
  exec_readlink_iff (.inl rfl) (by decide) (by decide) List.prefix_rfl

/-- With `argv[0]` a delimiter, it is the delimiter that is found. -/
theorem exec_readlink_delimiter :
    loaderArgv examplePath examplePath examplePath examplePath [delimiter] =
        .ok (newArgv examplePath examplePath examplePath examplePath [delimiter]) ∧
      targetFromCmdline (.ok (cmdline (newArgv examplePath examplePath examplePath examplePath
        [delimiter]))) PATH_MAX = .ok delimiter.bytes ∧
      ¬RoundTrip examplePath (newArgv examplePath examplePath examplePath examplePath [delimiter])
        (cmdline (newArgv examplePath examplePath examplePath examplePath [delimiter])) := by
  have hfound : targetFromCmdline (.ok (cmdline (newArgv examplePath examplePath examplePath
      examplePath [delimiter]))) PATH_MAX = .ok delimiter.bytes := by
    have hne : examplePath ≠ delimiter := by decide
    obtain ⟨hp, hl, ha⟩ := options_ne_delimiter
    simp only [newArgv, List.cons_append, List.nil_append, List.head?_cons, cmdline,
      targetFromCmdline, scan_skip PATH_MAX hne, scan_skip PATH_MAX hp, scan_skip PATH_MAX hl,
      scan_skip PATH_MAX ha, scan_delimiter, takeWhile_bytes]
    rfl
  refine ⟨rfl, hfound, fun h => ?_⟩
  have hall := h.complete rfl
  rw [hfound] at hall
  exact absurd hall (by decide)

end MuslBsd.Compat
