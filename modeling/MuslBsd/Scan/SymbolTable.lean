import MuslBsd.Scan.Safety

/-! The symbols that the relocations of a file refer to against the symbols that are inspected. -/
namespace MuslBsd.Scan
open MuslBsd.Support
open MuslBsd.Manifest (Str str)

variable {α β : Type}

/-! ### Loops that end well -/

/-- A loop without break keeps what each of its rounds carries on. -/
theorem forRange_ok {body : ℕ → β → ScanM (ForInStep β)} {I : ℕ → β → Prop}
    (h : ∀ i b r, value (body i b) = .ok r → I i b → ∃ c, r = .yield c ∧ I (i + 1) c) {n i : ℕ}
    {b c : β} (hr : value (Faulting.forRange body n i b) = .ok c) (hb : I i b) : I (i + n) c := by
  induction n generalizing i b with
  | zero =>
    obtain rfl := Except.ok.inj hr
    exact hb
  | succ n ih =>
    rw [Faulting.forRange, bind_eq_ok] at hr
    obtain ⟨r, hround, hrest⟩ := hr
    obtain ⟨d, rfl, hd⟩ := h i b r hround hb
    have hc := ih hrest hd
    rwa [Nat.add_right_comm, Nat.add_assoc] at hc

/-- A loop without break returns if each of its rounds goes on. -/
theorem forRange_returns (body : ℕ → β → ScanM (ForInStep β)) {n i : ℕ}
    (h : ∀ k < n, ∀ b, ∃ c, value (body (i + k) b) = .ok (.yield c)) (b : β) :
    ∃ c, value (Faulting.forRange body n i b) = .ok c := by
  induction n generalizing i b with
  | zero => exact ⟨b, rfl⟩
  | succ n ih =>
    obtain ⟨c, hround⟩ := h 0 (Nat.succ_pos n) b
    have hrest : ∀ k < n, ∀ b, ∃ c, value (body (i + 1 + k) b) = .ok (.yield c) := by
      intro k hk b
      have hnext := h (k + 1) (Nat.succ_lt_succ hk) b
      rwa [← Nat.add_assoc, Nat.add_right_comm] at hnext
    obtain ⟨d, hd⟩ := ih hrest c
    exact ⟨d, bind_eq_ok.mpr ⟨_, hround, hd⟩⟩

theorem mapRange_ok {body : ℕ → ScanM β} {n i : ℕ} {bs : List β}
    (h : value (Faulting.mapRange body n i) = .ok bs) :
    bs.length = n ∧ ∀ k < n, ∃ b, bs[k]? = some b ∧ value (body (i + k)) = .ok b := by
  induction n generalizing i bs with
  | zero =>
    obtain rfl := Except.ok.inj h
    exact ⟨rfl, fun k hk => absurd hk (Nat.not_lt_zero k)⟩
  | succ n ih =>
    rw [Faulting.mapRange, bind_eq_ok] at h
    obtain ⟨b, hb, h⟩ := h
    obtain ⟨rest, hrest, h⟩ := bind_eq_ok.mp h
    obtain rfl := Except.ok.inj h
    obtain ⟨hlen, hget⟩ := ih hrest
    refine ⟨by rw [List.length_cons, hlen], ?_⟩
    intro k hk
    cases k with
    | zero => exact ⟨b, rfl, hb⟩
    | succ k =>
      obtain ⟨c, hc, hv⟩ := hget k (by omega)
      refine ⟨c, hc, ?_⟩
      rwa [Nat.add_right_comm, Nat.add_assoc] at hv

theorem mapRange_returns (body : ℕ → ScanM β) {n i : ℕ}
    (h : ∀ k < n, ∃ b, value (body (i + k)) = .ok b) :
    ∃ bs, value (Faulting.mapRange body n i) = .ok bs := by
  induction n generalizing i with
  | zero => exact ⟨[], rfl⟩
  | succ n ih =>
    obtain ⟨b, hb⟩ := h 0 (Nat.succ_pos n)
    have hrest : ∀ k < n, ∃ b, value (body (i + 1 + k)) = .ok b := by
      intro k hk
      have hnext := h (k + 1) (Nat.succ_lt_succ hk)
      rwa [← Nat.add_assoc, Nat.add_right_comm] at hnext
    obtain ⟨bs, hbs⟩ := ih hrest
    exact ⟨b :: bs, bind_eq_ok.mpr ⟨b, hb, bind_eq_ok.mpr ⟨bs, hbs, rfl⟩⟩⟩

/-! ### What the file says -/

/-- The 32-bit word at an offset of the file. -/
def wordAt (data : Bytes) (offset : ℕ) : ℕ := u32.fields ((data.drop offset).take u32.size)

/-- A word of a header that is read as a whole. -/
theorem little_take {data : Bytes} {offset size k : ℕ} (hk : k + 4 ≤ size) :
    little k 4 ((data.drop offset).take size) = wordAt data (offset + k) := by
  simp only [wordAt, u32, little, List.drop_take, List.drop_drop, List.take_take]
  congr 2
  omega

/-- The number of buckets, the first hashed symbol and the words of the GNU hash table at `table`. -/
def gnuBuckets (data : Bytes) (table : ℕ) : ℕ := wordAt data table

def gnuSymoffset (data : Bytes) (table : ℕ) : ℕ := wordAt data (table + 4)

def gnuBucketAt (data : Bytes) (table bucket : ℕ) : ℕ :=
  wordAt data (table + 16 + wordAt data (table + 8) * 8 + bucket * 4)

def gnuChainAt (data : Bytes) (table index : ℕ) : ℕ :=
  wordAt data (table + 16 + wordAt data (table + 8) * 8 + gnuBuckets data table * 4 +
    (index - gnuSymoffset data table) * 4)

/-- The symbol `i` is in front of the hashed ones, or some chain gets as far as `i`: from its
bucket on there is no end mark before `i`. -/
def GnuIndexed (data : Bytes) (table i : ℕ) : Prop :=
  i < gnuSymoffset data table ∨ ∃ b < gnuBuckets data table,
    gnuSymoffset data table ≤ gnuBucketAt data table b ∧
      ∀ j, gnuBucketAt data table b ≤ j → j < i → gnuChainAt data table j % 2 = 0

namespace ElfFile

variable (elf : ElfFile)

/-- How many symbols the hash table, or the distance to the string table, accounts for. -/
inductive TableSize : ℕ → Prop
  | none (h : elf.get? DT_SYMTAB = none) : TableSize 0
  | hash {symtab address offset : ℕ} (hs : elf.get? DT_SYMTAB = some symtab)
    (h : elf.get? DT_HASH = some address) (hm : mapAddress elf.load address 8 = some offset) :
    TableSize (wordAt elf.reader.data (offset + 4))
  | gnu {symtab address offset n : ℕ} (hs : elf.get? DT_SYMTAB = some symtab)
    (hh : elf.get? DT_HASH = .none) (h : elf.get? DT_GNU_HASH = some address)
    (hm : mapAddress elf.load address 16 = some offset)
    (hn : ∀ i, i < n ↔ GnuIndexed elf.reader.data offset i) : TableSize n
  | layout {symtab offset : ℕ} (hs : elf.get? DT_SYMTAB = some symtab)
    (hh : elf.get? DT_HASH = .none) (hg : elf.get? DT_GNU_HASH = .none)
    (hm : mapAddress elf.load symtab (elf.getD DT_SYMENT 24) = some offset) :
    TableSize ((elf.strtab - offset) / elf.getD DT_SYMENT 24)

/-- The tables of relocations. -/
inductive HasTable : RelocationTable → Prop
  | rela {address size : ℕ} (h : elf.get? DT_RELA = some address)
    (hs : elf.get? DT_RELASZ = some size) :
    HasTable ⟨address, size, elf.getD DT_RELAENT 24, .rela⟩
  | rel {address size : ℕ} (h : elf.get? DT_REL = some address)
    (hs : elf.get? DT_RELSZ = some size) :
    HasTable ⟨address, size, elf.getD DT_RELENT 16, .rel⟩
  | pltRela {address size : ℕ} (h : elf.get? DT_JMPREL = some address)
    (hs : elf.get? DT_PLTRELSZ = some size) (hp : elf.get? DT_PLTREL = some DT_RELA) :
    HasTable ⟨address, size, elf.getD DT_RELAENT 24, .pltRela⟩
  | pltRel {address size : ℕ} (h : elf.get? DT_JMPREL = some address)
    (hs : elf.get? DT_PLTRELSZ = some size) (hp : elf.get? DT_PLTREL = some DT_REL) :
    HasTable ⟨address, size, elf.getD DT_RELENT 16, .pltRel⟩

/-- The entry of a format at an offset of the file. -/
def entryAt (format : Format α) (offset : ℕ) : α :=
  format.fields ((elf.reader.data.drop offset).take format.size)

/-- Some relocation names the symbol `i`. -/
def Relocates (i : ℕ) : Prop :=
  ∃ t offset k, elf.HasTable t ∧ mapAddress elf.load t.address t.size = some offset ∧
    k < t.size / t.entrySize ∧
      (elf.entryAt (entryFormat t.kind) (offset + k * t.entrySize)).info / 2 ^ 32 = i

/-- The entry of the symbol `i` in a table of `n` symbols. -/
def SymbolEntryAt (n i : ℕ) (e : SymbolEntry) : Prop :=
  ∃ symtab offset, elf.get? DT_SYMTAB = some symtab ∧
    mapAddress elf.load symtab (n * elf.getD DT_SYMENT 24) = some offset ∧
      e = elf.entryAt symbolFormat (offset + i * elf.getD DT_SYMENT 24)

/-- The entry has a name, and the name is not empty. -/
def Named (e : SymbolEntry) : Prop :=
  e.nameOffset ≠ 0 ∧ elf.reader.data[elf.strtab + e.nameOffset]? ≠ some 0

/-- Every symbol that a relocation names is within what the file accounts for, and has a name if it
is undefined. -/
def Covered : Prop :=
  ∀ n, elf.TableSize n → ∀ i, 0 < i → elf.Relocates i →
    i < n ∧ ∀ e, elf.SymbolEntryAt n i e → e.shndx = SHN_UNDEF → elf.Named e

/-- Every symbol that a relocation names is among the symbols read, and is listed with its version
if it is undefined. -/
def Inspected (symbols : List Symbol) (report : Report) : Prop :=
  ∀ i, 0 < i → elf.Relocates i → ∃ s, symbols[i]? = some s ∧
    (s.shndx = SHN_UNDEF → ∃ u ∈ report.undefinedSymbols, u.name = s.name ∧
      u.version = s.version.map Version.version ∧ u.library = s.version.map Version.library ∧
        u.binding = bindingName s.bind ∧ u.hidden = s.hidden)

variable {elf : ElfFile}

/-! ### The number of symbols -/

/-- The size that a file gives its symbol table is unique. -/
theorem TableSize.unique {m n : ℕ} (hm : elf.TableSize m) (hn : elf.TableSize n) : m = n := by
  have hlt : ∀ {a b : ℕ} {P : ℕ → Prop}, (∀ i, i < a ↔ P i) → (∀ i, i < b ↔ P i) → a = b := by
    intro a b P ha hb
    have hab : ∀ i, i < a ↔ i < b := fun i => (ha i).trans (hb i).symm
    have h₁ := hab a
    have h₂ := hab b
    omega
  cases hm with
  | none h =>
    cases hn with
    | none _ => rfl
    | _ => simp_all
  | hash hs h hm =>
    cases hn with
    | hash hs' h' hm' => simp_all
    | _ => simp_all
  | gnu hs hh h hm hi =>
    cases hn with
    | gnu hs' hh' h' hm' hi' =>
      obtain rfl := Option.some.inj (h.symm.trans h')
      obtain rfl := Option.some.inj (hm.symm.trans hm')
      exact hlt hi hi'
    | _ => simp_all
  | layout hs hh hg hm =>
    cases hn with
    | layout hs' hh' hg' hm' => simp_all
    | _ => simp_all

theorem addressRange_eq_ok {address size : ℕ} {what : What} {offset : ℕ} :
    value (elf.addressRange address size what) = .ok offset ↔
      mapAddress elf.load address size = some offset := by
  unfold addressRange
  cases mapAddress elf.load address size with
  | none => simp
  | some offset' => simp

/-- A chain walked to its end raises `highest` to the first marked index. -/
theorem gnuChain_ok {chains symoffset k index : ℕ} {highest h : ℤ}
    (hr : value (elf.gnuChain chains symoffset k index highest) = .ok h) (i : ℕ) :
    (i : ℤ) ≤ h ↔ (i : ℤ) ≤ highest ∨ ∀ j, index ≤ j → j < i →
      wordAt elf.reader.data (chains + (j - symoffset) * 4) % 2 = 0 := by
  induction k generalizing index highest with
  | zero => cases hr
  | succ k ih =>
    rw [gnuChain, bind_eq_ok] at hr
    obtain ⟨word, hword, hr⟩ := hr
    obtain ⟨_, rfl⟩ := unpack_eq_ok.mp hword
    change value (if wordAt elf.reader.data (chains + (index - symoffset) * 4) % 2 = 1 then _
      else _) = _ at hr
    split at hr
    · rename_i hodd
      obtain rfl := Except.ok.inj hr
      constructor
      · intro hi
        by_cases hle : (i : ℤ) ≤ highest
        · exact .inl hle
        · refine .inr fun j hj hji => ?_
          omega
      · rintro (hi | hi)
        · omega
        · by_contra hgt
          have heven := hi index (le_refl index) (by omega)
          omega
    · rename_i heven
      obtain ⟨_, _, hr⟩ := bind_eq_ok.mp hr
      rw [ih hr]
      constructor
      · rintro (hi | hi)
        · by_cases hle : (i : ℤ) ≤ highest
          · exact .inl hle
          · refine .inr fun j hj hji => ?_
            omega
        · refine .inr fun j hj hji => ?_
          by_cases he : j = index
          · rw [he]
            omega
          · exact hi j (by omega) hji
      · rintro (hi | hi)
        · exact .inl (by omega)
        · exact .inr fun j hj hji => hi j (by omega) hji

/-- The highest index so far is that of the buckets so far. -/
theorem gnuBucket_ok {buckets chains symoffset index : ℕ} {highest : ℤ} {r : ForInStep ℤ}
    (hr : value (elf.gnuBucket buckets chains symoffset index highest) = .ok r) :
    ∃ h, r = .yield h ∧ ∀ i : ℕ, (i : ℤ) ≤ h ↔ (i : ℤ) ≤ highest ∨
      symoffset ≤ wordAt elf.reader.data (buckets + index * 4) ∧
        ∀ j, wordAt elf.reader.data (buckets + index * 4) ≤ j → j < i →
          wordAt elf.reader.data (chains + (j - symoffset) * 4) % 2 = 0 := by
  rw [gnuBucket, bind_eq_ok] at hr
  obtain ⟨bucket, hbucket, hr⟩ := hr
  obtain ⟨_, rfl⟩ := unpack_eq_ok.mp hbucket
  change value (if wordAt elf.reader.data (buckets + index * 4) < symoffset then _ else _) = _ at hr
  split at hr
  · rename_i hlt
    obtain rfl := Except.ok.inj hr
    exact ⟨highest, rfl, fun i => ⟨.inl, fun h => h.elim id fun h => absurd h.1 (by omega)⟩⟩
  · rename_i hge
    obtain ⟨h, hchain, hr⟩ := bind_eq_ok.mp hr
    obtain rfl := Except.ok.inj hr
    refine ⟨h, rfl, fun i => ?_⟩
    have hspec := gnuChain_ok hchain i
    rw [show u32.fields ((elf.reader.data.drop (buckets + index * 4)).take u32.size) =
      wordAt elf.reader.data (buckets + index * 4) from rfl] at hspec
    rw [hspec]
    exact or_congr Iff.rfl (by rw [and_iff_right (Nat.not_lt.mp hge)])

/-- The number that the hash table gives is that of the symbols that are indexed. -/
theorem gnuSymbolCount_indexed {address n : ℕ} (h : value (elf.gnuSymbolCount address) = .ok n) :
    ∃ offset, mapAddress elf.load address 16 = some offset ∧
      ∀ i, i < n ↔ GnuIndexed elf.reader.data offset i := by
  rw [gnuSymbolCount, bind_eq_ok] at h
  obtain ⟨offset, hoffset, h⟩ := h
  obtain ⟨header, hheader, h⟩ := bind_eq_ok.mp h
  obtain ⟨_, _, h⟩ := bind_eq_ok.mp h
  obtain ⟨_, _, h⟩ := bind_eq_ok.mp h
  obtain ⟨highest, hloop, h⟩ := bind_eq_ok.mp h
  obtain rfl := Except.ok.inj h
  obtain ⟨_, rfl⟩ := unpack_eq_ok.mp hheader
  simp (disch := decide) only [gnuHashFormat, little_take, Nat.add_zero] at hloop
  refine ⟨offset, addressRange_eq_ok.mp hoffset, fun i => ?_⟩
  have hinv := forRange_ok (I := fun b h => ∀ i : ℕ, (i : ℤ) ≤ h ↔
      i < gnuSymoffset elf.reader.data offset ∨ ∃ b' < b,
        gnuSymoffset elf.reader.data offset ≤ gnuBucketAt elf.reader.data offset b' ∧
          ∀ j, gnuBucketAt elf.reader.data offset b' ≤ j → j < i →
            gnuChainAt elf.reader.data offset j % 2 = 0) (fun b h r hr hi => ?_) hloop (fun i => ?_)
  · rw [GnuIndexed, ← gnuBuckets, Nat.zero_add] at *
    have hspec := hinv i
    rw [← hspec]
    omega
  · obtain ⟨h', rfl, hspec⟩ := gnuBucket_ok hr
    refine ⟨h', rfl, fun i => ?_⟩
    rw [hspec i, hi i, or_assoc]
    refine or_congr Iff.rfl ⟨?_, ?_⟩
    · rintro (⟨b', hb', hc⟩ | hc)
      · exact ⟨b', by omega, hc⟩
      · exact ⟨b, by omega, hc⟩
    · rintro ⟨b', hb', hc⟩
      by_cases he : b' = b
      · exact .inr (he ▸ hc)
      · exact .inl ⟨b', by omega, hc⟩
  · simp only [gnuSymoffset, Nat.not_lt_zero, false_and, exists_false, or_false]
    omega

theorem gnuSymbolCount_ok {symtab address n : ℕ} (hs : elf.get? DT_SYMTAB = some symtab)
    (hh : elf.get? DT_HASH = none) (hg : elf.get? DT_GNU_HASH = some address)
    (h : value (elf.gnuSymbolCount address) = .ok n) : elf.TableSize n := by
  obtain ⟨offset, hm, hn⟩ := gnuSymbolCount_indexed h
  exact .gnu hs hh hg hm hn

theorem symbolCount_ok {symtab n : ℕ} (hs : elf.get? DT_SYMTAB = some symtab)
    (hsyment : 24 ≤ elf.getD DT_SYMENT 24) (h : value elf.symbolCount = .ok n) : elf.TableSize n := by
  unfold symbolCount at h
  cases hh : elf.get? DT_HASH with
  | some address =>
    rw [hh] at h
    obtain ⟨offset, hoffset, h⟩ := bind_eq_ok.mp h
    obtain ⟨entry, hentry, h⟩ := bind_eq_ok.mp h
    obtain ⟨_, _, h⟩ := bind_eq_ok.mp h
    obtain rfl := Except.ok.inj h
    obtain ⟨_, rfl⟩ := unpack_eq_ok.mp hentry
    have hsize := TableSize.hash hs hh (addressRange_eq_ok.mp hoffset)
    have hword : wordAt elf.reader.data (offset + 4) =
        (hashFormat.fields ((elf.reader.data.drop offset).take hashFormat.size)).2 := by
      simp only [wordAt, u32, hashFormat, little, List.drop_zero, List.drop_take, List.drop_drop,
        List.take_take]
    rwa [hword] at hsize
  | none =>
    rw [hh] at h
    cases hg : elf.get? DT_GNU_HASH with
    | some address =>
      rw [hg] at h
      exact gnuSymbolCount_ok hs hh hg h
    | none =>
      rw [hg, hs] at h
      dsimp only at h
      rw [if_neg (by omega)] at h
      obtain ⟨offset, hoffset, h⟩ := bind_eq_ok.mp h
      have hsize := TableSize.layout hs hh hg (addressRange_eq_ok.mp hoffset)
      split at h
      · rename_i hle
        obtain rfl := Except.ok.inj h
        rwa [Nat.sub_eq_zero_of_le hle, Nat.zero_div] at hsize
      · obtain ⟨_, _, h⟩ := bind_eq_ok.mp h
        obtain rfl := Except.ok.inj h
        exact hsize

/-! ### The symbols -/

theorem decode_eq_nil {bytes : Bytes} : decode 0 bytes = [] ↔ bytes = [] := by
  cases bytes with
  | nil => simp [decode]
  | cons b bytes =>
    unfold decode
    dsimp only
    split
    · simp
    · split
      · simp
      · split <;> simp

/-- A string is empty if its first byte is the terminator. -/
theorem string_eq_nil {offset : ℕ} {what : What} {s : Str}
    (h : value (elf.string offset what) = .ok s) :
    s = [] ↔ elf.reader.data[elf.strtab + offset]? = some 0 := by
  obtain ⟨_, _, h⟩ := bind_eq_ok.mp h
  obtain ⟨_, _, h⟩ := bind_eq_ok.mp h
  obtain ⟨window, hwindow, h⟩ := bind_eq_ok.mp h
  obtain rfl := Except.ok.inj hwindow
  split at h
  · exact absurd h (by simp)
  · rename_i nul hnul
    obtain ⟨text, htext, h⟩ := bind_eq_ok.mp h
    obtain rfl := Except.ok.inj htext
    obtain rfl := Except.ok.inj h
    obtain ⟨hlt, hzero, hbefore⟩ := List.findIdx?_eq_some_iff_getElem.mp hnul
    rw [decode_eq_nil]
    have hlen : nul < elf.reader.data.length - (elf.strtab + offset) := by
      simp only [List.length_take, List.length_drop] at hlt
      omega
    have hget : ∀ k, k ≤ nul → ((elf.reader.data.drop (elf.strtab + offset))[k]? = some 0 ↔
        k = nul) := by
      intro k hk
      constructor
      · intro hz
        by_contra hne
        have hk' := hbefore k (by omega)
        simp only [List.getElem_take, decide_eq_true_eq] at hk'
        rw [List.getElem?_eq_getElem (by rw [List.length_drop]; omega)] at hz
        exact hk' (Option.some.inj hz)
      · rintro rfl
        simp only [List.getElem_take, decide_eq_true_eq] at hzero
        rw [List.getElem?_eq_getElem (by rw [List.length_drop]; omega), hzero]
    have hfirst := hget 0 (Nat.zero_le nul)
    rw [List.getElem?_drop, Nat.add_zero] at hfirst
    rw [hfirst, List.take_eq_nil_iff]
    constructor
    · rintro (hz | hz)
      · exact hz.symm
      · have hl := congrArg List.length hz
        simp only [List.length_drop, List.length_nil] at hl
        omega
    · rintro rfl
      exact .inl rfl

/-- A symbol is what its entry says. -/
theorem symbol_ok {offset syment index : ℕ} {versions : List ℕ}
    {requirements : List (ℕ × Version)} {s : Symbol}
    (h : value (elf.symbol offset syment versions requirements index) = .ok s) :
    s.shndx = (elf.entryAt symbolFormat (offset + index * syment)).shndx ∧
      (s.name ≠ [] ↔ elf.Named (elf.entryAt symbolFormat (offset + index * syment))) := by
  obtain ⟨e, he, h⟩ := bind_eq_ok.mp h
  obtain ⟨_, hentry⟩ := unpack_eq_ok.mp he
  obtain ⟨name, hname, h⟩ := bind_eq_ok.mp h
  obtain ⟨v, _, h⟩ := bind_eq_ok.mp h
  obtain rfl := Except.ok.inj h
  have hentry : e = elf.entryAt symbolFormat (offset + index * syment) := hentry
  rw [← hentry]
  refine ⟨rfl, ?_⟩
  dsimp only
  unfold Named
  split at hname
  · rename_i hne
    rw [ne_eq, not_congr (string_eq_nil hname), and_iff_right hne]
  · rename_i hz
    obtain rfl := Except.ok.inj hname
    simp [not_not.mp hz]

/-- The symbols that are read are those of the table. -/
theorem symbols_ok {symbols : List Symbol} {requirements : List (ℕ × Version)}
    (h : value elf.symbols = .ok (symbols, requirements)) :
    elf.TableSize symbols.length ∧ ∀ i s, symbols[i]? = some s →
      ∃ e, elf.SymbolEntryAt symbols.length i e ∧ s.shndx = e.shndx ∧ (s.name ≠ [] ↔ elf.Named e) := by
  unfold ElfFile.symbols at h
  cases hs : elf.get? DT_SYMTAB with
  | none =>
    rw [hs] at h
    obtain ⟨rfl, rfl⟩ := Prod.mk.inj (Except.ok.inj h)
    exact ⟨.none hs, by simp⟩
  | some symtab =>
    rw [hs] at h
    obtain ⟨_, hsyment, h⟩ := bind_eq_ok.mp h
    obtain ⟨count, hcount, h⟩ := bind_eq_ok.mp h
    have hsyment : 24 ≤ elf.getD DT_SYMENT 24 := Nat.not_lt.mp (reject_eq_ok.mp hsyment)
    have hsize := symbolCount_ok hs hsyment hcount
    split at h
    · rename_i hzero
      obtain ⟨rfl, rfl⟩ := Prod.mk.inj (Except.ok.inj h)
      rw [hzero] at hsize
      exact ⟨hsize, by simp⟩
    · obtain ⟨offset, hoffset, h⟩ := bind_eq_ok.mp h
      obtain ⟨versions, _, h⟩ := bind_eq_ok.mp h
      obtain ⟨reqs, _, h⟩ := bind_eq_ok.mp h
      obtain ⟨syms, hsyms, h⟩ := bind_eq_ok.mp h
      obtain ⟨rfl, rfl⟩ := Prod.mk.inj (Except.ok.inj h)
      obtain ⟨hlen, hget⟩ := mapRange_ok hsyms
      rw [hlen]
      refine ⟨hsize, ?_⟩
      intro i s hi
      have hlt : i < count := by
        rw [← hlen]
        exact (List.getElem?_eq_some_iff.mp hi).1
      obtain ⟨s', hs', hread⟩ := hget i hlt
      obtain rfl := Option.some.inj (hi.symm.trans hs')
      rw [Nat.zero_add] at hread
      exact ⟨_, ⟨symtab, offset, hs, addressRange_eq_ok.mp hoffset, rfl⟩, symbol_ok hread⟩

/-! ### The report -/

theorem mem_undefinedRecords {symbols : List Symbol} {u : UndefinedSymbol} :
    u ∈ undefinedRecords symbols ↔ ∃ s ∈ symbols, s.shndx = SHN_UNDEF ∧ s.name ≠ [] ∧
      u = ⟨s.name, s.version.map Version.version, s.version.map Version.library,
        bindingName s.bind, s.hidden⟩ := by
  simp only [undefinedRecords, List.mem_map, mem_sortedSet, undefinedKeys, List.mem_filter,
    decide_eq_true_eq]
  constructor
  · rintro ⟨_, ⟨s, ⟨hs, hu, hn⟩, rfl⟩, rfl⟩
    exact ⟨s, hs, hu, hn, rfl⟩
  · rintro ⟨s, hs, hu, hn, rfl⟩
    exact ⟨_, ⟨s, ⟨hs, hu, hn⟩, rfl⟩, rfl⟩

theorem report_ok {report : Report} (h : value elf.report = .ok report) :
    ∃ symbols requirements, value elf.symbols = .ok (symbols, requirements) ∧
      report.undefinedSymbols = undefinedRecords symbols := by
  obtain ⟨⟨symbols, requirements⟩, hsymbols, h⟩ := bind_eq_ok.mp h
  obtain ⟨_, _, h⟩ := bind_eq_ok.mp h
  obtain ⟨_, _, h⟩ := bind_eq_ok.mp h
  obtain ⟨_, _, h⟩ := bind_eq_ok.mp h
  obtain ⟨_, _, h⟩ := bind_eq_ok.mp h
  obtain ⟨_, _, h⟩ := bind_eq_ok.mp h
  obtain rfl := Except.ok.inj h
  exact ⟨symbols, requirements, hsymbols, rfl⟩

end ElfFile

open ElfFile

/-- An object that exports nothing, laid out as linkers do: the GNU hash table starts behind symbol
0 and is empty, while the one relocation is for symbol 1, an undefined `f`. -/
def unexporting : Bytes :=
  [0x7F, 0x45, 0x4C, 0x46, 2, 1, 1] ++ bytesOf 9 0 ++ bytesOf 2 3 ++ bytesOf 2 62 ++ bytesOf 4 1 ++
    bytesOf 8 0 ++ bytesOf 8 64 ++ bytesOf 8 0 ++ bytesOf 4 0 ++ bytesOf 2 64 ++ bytesOf 2 56 ++
    bytesOf 2 2 ++ bytesOf 6 0 ++
  -- the program headers: all of the file is loaded at 0, the dynamic table is at 176
  bytesOf 4 PT_LOAD ++ bytesOf 4 4 ++ bytesOf 8 0 ++ bytesOf 8 0 ++ bytesOf 8 0 ++ bytesOf 8 400 ++
    bytesOf 8 400 ++ bytesOf 8 8 ++
  bytesOf 4 PT_DYNAMIC ++ bytesOf 4 4 ++ bytesOf 8 176 ++ bytesOf 8 176 ++ bytesOf 8 176 ++
    bytesOf 8 112 ++ bytesOf 8 112 ++ bytesOf 8 8 ++
  bytesOf 8 DT_STRTAB ++ bytesOf 8 288 ++ bytesOf 8 DT_STRSZ ++ bytesOf 8 3 ++
    bytesOf 8 DT_SYMTAB ++ bytesOf 8 296 ++ bytesOf 8 DT_GNU_HASH ++ bytesOf 8 344 ++
    bytesOf 8 DT_RELA ++ bytesOf 8 376 ++ bytesOf 8 DT_RELASZ ++ bytesOf 8 24 ++ bytesOf 16 0 ++
  -- the strings, the two symbols, the hash table and the relocation
  [0, 0x66, 0] ++ bytesOf 5 0 ++
  bytesOf 24 0 ++ bytesOf 4 1 ++ bytesOf 1 0x12 ++ bytesOf 19 0 ++
  bytesOf 4 1 ++ bytesOf 4 1 ++ bytesOf 4 1 ++ bytesOf 20 0 ++
  bytesOf 8 0x1000 ++ bytesOf 8 (2 ^ 32 + 6) ++ bytesOf 8 0

/-- A result that is there has a property as soon as running the check on it says so. -/
theorem exists_ok_of_any {ε α : Type} {x : Except ε α} {p : α → Bool} (h : x.toOption.any p = true) :
    ∃ a, x = .ok a ∧ p a = true := by
  cases x with
  | error e => exact absurd h (by simp [Except.toOption])
  | ok a => exact ⟨a, rfl, h⟩

/-- The report of that object is accepted, with one symbol. -/
theorem unexporting_run :
    ∃ elf report symbols requirements, value (elfFile [] unexporting) = .ok elf ∧
      value elf.report = .ok report ∧ value elf.symbols = .ok (symbols, requirements) ∧
        elf.Relocates 1 ∧ symbols.length = 1 ∧ report.undefinedSymbols = [] := by
  have hrun : (value (elfFile [] unexporting)).toOption.any (fun elf =>
      (value elf.report).toOption.any fun report => (value elf.symbols).toOption.any fun r =>
        decide (r.1.length = 1 ∧ report.undefinedSymbols = [] ∧
          elf.get? DT_RELA = some 376 ∧ elf.get? DT_RELASZ = some 24 ∧
            elf.getD DT_RELAENT 24 = 24 ∧ mapAddress elf.load 376 24 = some 376 ∧
              (elf.entryAt relaFormat 376).info / 2 ^ 32 = 1)) = true := by
    decide +kernel
  obtain ⟨elf, helf, hrun⟩ := exists_ok_of_any hrun
  obtain ⟨report, hreport, hrun⟩ := exists_ok_of_any hrun
  obtain ⟨⟨symbols, requirements⟩, hsymbols, hrun⟩ := exists_ok_of_any hrun
  obtain ⟨hlen, hnone, hrela, hsize, hent, hmap, hinfo⟩ := of_decide_eq_true hrun
  have htable : elf.HasTable ⟨376, 24, elf.getD DT_RELAENT 24, .rela⟩ := .rela hrela hsize
  rw [hent] at htable
  have hrel : elf.Relocates 1 := ⟨_, 376, 0, htable, hmap, by decide, hinfo⟩
  exact ⟨elf, report, symbols, requirements, helf, hreport, hsymbols, hrel, hlen, hnone⟩

theorem not_inspected_of_length {elf : ElfFile} {symbols : List Symbol} {report : Report} {i : ℕ}
    (hi : 0 < i) (hrel : elf.Relocates i) (hlen : symbols.length ≤ i) :
    ¬elf.Inspected symbols report := by
  intro h
  obtain ⟨s, hget, _⟩ := h i hi hrel
  have hlt := (List.getElem?_eq_some_iff.mp hget).1
  omega

/-- The symbols that relocations refer to are all inspected exactly when the file accounts for each
of them and no undefined one is without a name. -/
theorem inspected_iff_covered {path : Str} {data : Bytes} {elf : ElfFile} {report : Report}
    {symbols : List Symbol} {requirements : List (ℕ × Version)}
    (_ : value (elfFile path data) = .ok elf) (hr : value elf.report = .ok report)
    (hs : value elf.symbols = .ok (symbols, requirements)) :
    elf.Inspected symbols report ↔ elf.Covered := by
  obtain ⟨symbols', requirements', hs', hreport⟩ := report_ok hr
  obtain ⟨rfl, rfl⟩ := Prod.mk.inj (Except.ok.inj (hs.symm.trans hs'))
  obtain ⟨hsize, hentries⟩ := symbols_ok hs
  constructor
  · intro h n hn i hi hrel
    obtain rfl := hn.unique hsize
    obtain ⟨s, hget, hlisted⟩ := h i hi hrel
    refine ⟨(List.getElem?_eq_some_iff.mp hget).1, ?_⟩
    intro e he hundef
    obtain ⟨e', he', hshndx, hname⟩ := hentries i s hget
    obtain ⟨a, o, ha, ho, rfl⟩ := he
    obtain ⟨a', o', ha', ho', rfl⟩ := he'
    obtain rfl := Option.some.inj (ha.symm.trans ha')
    obtain rfl := Option.some.inj (ho.symm.trans ho')
    obtain ⟨u, hu, huname, _⟩ := hlisted (hshndx.trans hundef)
    rw [hreport, mem_undefinedRecords] at hu
    obtain ⟨s', _, _, hne, rfl⟩ := hu
    exact hname.mp (huname ▸ hne)
  · intro h i hi hrel
    obtain ⟨hlt, hnamed⟩ := h _ hsize i hi hrel
    obtain ⟨s, hget⟩ : ∃ s, symbols[i]? = some s := ⟨_, List.getElem?_eq_getElem hlt⟩
    refine ⟨s, hget, ?_⟩
    intro hundef
    obtain ⟨e, he, hshndx, hname⟩ := hentries i s hget
    have hne : s.name ≠ [] := hname.mpr (hnamed e he (hshndx.symm.trans hundef))
    rw [hreport]
    exact ⟨_, mem_undefinedRecords.mpr ⟨s, List.mem_of_getElem? hget, hundef, hne, rfl⟩,
      rfl, rfl, rfl, rfl, rfl⟩

theorem unexporting_uncovered :
    ∃ elf report symbols requirements, value (elfFile [] unexporting) = .ok elf ∧
      value elf.report = .ok report ∧ value elf.symbols = .ok (symbols, requirements) ∧
        ¬elf.Covered := by
  obtain ⟨elf, report, symbols, requirements, helf, hreport, hsymbols, hrel, hlen, _⟩ :=
    unexporting_run
  refine ⟨elf, report, symbols, requirements, helf, hreport, hsymbols, ?_⟩
  rw [← inspected_iff_covered helf hreport hsymbols]
  exact not_inspected_of_length (by decide) hrel hlen.le

/-- The undefined symbol that a relocation of that object refers to is not inspected. -/
theorem unexporting_truncated :
    ∃ elf report symbols requirements, value (elfFile [] unexporting) = .ok elf ∧
      value elf.report = .ok report ∧ value elf.symbols = .ok (symbols, requirements) ∧
        elf.Relocates 1 ∧ symbols.length = 1 ∧ report.undefinedSymbols = [] ∧
          ¬elf.Inspected symbols report := by
  obtain ⟨elf, report, symbols, requirements, helf, hreport, hsymbols, hrel, hlen, hnone⟩ :=
    unexporting_run
  exact ⟨elf, report, symbols, requirements, helf, hreport, hsymbols, hrel, hlen, hnone,
    not_inspected_of_length (by decide) hrel hlen.le⟩

end MuslBsd.Scan
