import MuslBsd.Scan.Layout

/-! The GNU hash tables that linkers write, and the number of symbols that is read off them. -/
namespace MuslBsd.Scan
open MuslBsd.Support

/-- A GNU hash table for the symbols from `symoffset` up to `count`. `bucketOf` and `hash` are what
the hash function gives for the name of a symbol. -/
structure GnuTable where
  nbuckets : ℕ
  symoffset : ℕ
  count : ℕ
  bloom : List ℕ
  bloomShift : ℕ
  bucketOf : ℕ → ℕ
  hash : ℕ → ℕ
  symoffset_pos : 1 ≤ symoffset
  symoffset_lt : symoffset < count
  bucketOf_lt : ∀ i, symoffset ≤ i → i < count → bucketOf i < nbuckets
  grouped : ∀ i j, symoffset ≤ i → i ≤ j → j < count → bucketOf i ≤ bucketOf j
  nbuckets_le : nbuckets ≤ MAX_TABLE_ENTRIES
  bloom_le : bloom.length ≤ MAX_TABLE_ENTRIES
  symoffset_le : symoffset ≤ MAX_TABLE_ENTRIES
  hashed_le : count - symoffset ≤ MAX_TABLE_ENTRIES

namespace GnuTable

variable (t : GnuTable)

/-- No later symbol is in the bucket of `i`. -/
def Last (i : ℕ) : Prop := ∀ j < t.count, i < j → t.bucketOf j ≠ t.bucketOf i

instance (i : ℕ) : Decidable (t.Last i) :=
  inferInstanceAs (Decidable (∀ j < t.count, i < j → t.bucketOf j ≠ t.bucketOf i))

/-- The symbols of the table. -/
def hashed : List ℕ := List.range' t.symoffset (t.count - t.symoffset)

/-- The first symbol of a bucket. -/
def first? (b : ℕ) : Option ℕ := t.hashed.find? fun i => t.bucketOf i = b

/-- What is stored for a bucket: zero if it is empty. -/
def bucketWord (b : ℕ) : ℕ := (t.first? b).getD 0

/-- What is stored for a symbol: its hash, with the lowest bit as the end mark of the bucket. -/
def chainWord (i : ℕ) : ℕ := t.hash i / 2 * 2 + if t.Last i then 1 else 0

def bloomWords : Bytes := t.bloom.flatMap (bytesOf 8)

def buckets : Bytes := (List.range t.nbuckets).flatMap fun b => bytesOf 4 (t.bucketWord b)

def chains : Bytes := t.hashed.flatMap fun i => bytesOf 4 (t.chainWord i)

/-- The bytes of the table. -/
def encode : Bytes :=
  bytesOf 4 t.nbuckets ++ (bytesOf 4 t.symoffset ++ (bytesOf 4 t.bloom.length ++
    (bytesOf 4 t.bloomShift ++ (t.bloomWords ++ (t.buckets ++ t.chains)))))

variable {t} {data : Bytes} {offset b f i : ℕ}

/-! ### Buckets and chains -/

theorem first?_eq_some (h : t.first? b = some f) :
    t.symoffset ≤ f ∧ f < t.count ∧ t.bucketOf f = b ∧
      ∀ i, t.symoffset ≤ i → t.bucketOf i = b → f ≤ i := by
  have hlt := t.symoffset_lt
  rw [first?, hashed, List.find?_range'_eq_some, List.mem_range'_1, decide_eq_true_eq] at h
  obtain ⟨hb, hmem, hbefore⟩ := h
  refine ⟨hmem.1, by omega, hb, ?_⟩
  intro i hi hib
  by_contra hif
  have hnot := hbefore i hi (Nat.not_le.mp hif)
  simp [hib] at hnot

theorem exists_first (hi : t.symoffset ≤ i) (hlt : i < t.count) :
    ∃ f, t.first? (t.bucketOf i) = some f := by
  rw [← Option.isSome_iff_exists, first?, List.find?_isSome]
  exact ⟨i, List.mem_range'_1.mpr (by omega), decide_eq_true rfl⟩

theorem bucketWord_lt (b : ℕ) : t.bucketWord b < t.count := by
  have hlt := t.symoffset_lt
  unfold bucketWord
  cases h : t.first? b with
  | none =>
    rw [Option.getD_none]
    omega
  | some f => exact (first?_eq_some h).2.1

/-- The symbols of a bucket run from its first one up to the end mark. -/
theorem not_last (hi : t.symoffset ≤ i) (hlt : i < t.count) {j : ℕ}
    (hj : t.bucketWord (t.bucketOf i) ≤ j) (hji : j < i) : ¬t.Last j := by
  obtain ⟨f, hf⟩ := exists_first hi hlt
  obtain ⟨hsym, _, hbucket, _⟩ := first?_eq_some hf
  rw [bucketWord, hf, Option.getD_some] at hj
  have hle := t.grouped f j hsym hj (hji.trans hlt)
  have hge := t.grouped j i (hsym.trans hj) hji.le hlt
  intro hlast
  exact hlast i hlt hji (le_antisymm (hbucket ▸ hle) hge)

/-- The last symbol of all ends its bucket. -/
theorem last_end : t.Last (t.count - 1) := by
  intro j hj hlt
  omega

theorem chainWord_odd (h : t.Last i) : t.chainWord i % 2 = 1 := by
  rw [chainWord, if_pos h]
  omega

theorem chainWord_even (h : ¬t.Last i) : t.chainWord i % 2 = 0 := by
  rw [chainWord, if_neg h]
  omega

/-! ### The words of the table -/

section Words

variable (h : Placed data offset t.encode)
include h

theorem gnuBuckets_placed : gnuBuckets data offset = t.nbuckets := by
  have hword := wordAt_placed h.left
  have hle := t.nbuckets_le
  rw [gnuBuckets, hword, Nat.mod_eq_of_lt (by unfold MAX_TABLE_ENTRIES at hle; omega)]

theorem gnuSymoffset_placed : gnuSymoffset data offset = t.symoffset := by
  have hword := wordAt_placed h.right.left
  rw [length_bytesOf] at hword
  have hle := t.symoffset_le
  rw [gnuSymoffset, hword, Nat.mod_eq_of_lt (by unfold MAX_TABLE_ENTRIES at hle; omega)]

theorem bloom_placed : wordAt data (offset + 8) = t.bloom.length := by
  have hword := wordAt_placed h.right.right.left
  rw [length_bytesOf, length_bytesOf] at hword
  have hle := t.bloom_le
  rw [hword, Nat.mod_eq_of_lt (by unfold MAX_TABLE_ENTRIES at hle; omega)]

theorem buckets_placed :
    Placed data (offset + 16 + t.bloom.length * 8) (t.buckets ++ t.chains) := by
  have hplaced := h.right.right.right.right.right
  rwa [length_bytesOf, length_bytesOf, length_bytesOf, length_bytesOf, bloomWords,
    length_flatMap_width (length_bytesOf 8)] at hplaced

theorem chains_placed :
    Placed data (offset + 16 + t.bloom.length * 8 + t.nbuckets * 4) t.chains := by
  have hplaced := (buckets_placed h).right
  rwa [buckets, length_flatMap_width fun _ => length_bytesOf 4 _, List.length_range] at hplaced

theorem gnuBucketAt_placed (hb : b < t.nbuckets) : gnuBucketAt data offset b = t.bucketWord b := by
  have hrow := (buckets_placed h).left.row (fun _ => length_bytesOf 4 _) (List.getElem?_range hb)
  have hlt := bucketWord_lt (t := t) b
  have hsym := t.symoffset_le
  have hhashed := t.hashed_le
  rw [gnuBucketAt, bloom_placed h, wordAt_placed hrow,
    Nat.mod_eq_of_lt (by unfold MAX_TABLE_ENTRIES at hsym hhashed; omega)]

theorem chain_placed (hi : t.symoffset ≤ i) (hlt : i < t.count) :
    Placed data (offset + 16 + t.bloom.length * 8 + t.nbuckets * 4 + (i - t.symoffset) * 4)
      (bytesOf 4 (t.chainWord i)) := by
  apply (chains_placed h).row (fun _ => length_bytesOf 4 _)
  rw [hashed, List.getElem?_range' (by omega)]
  congr 1
  omega

theorem gnuChainAt_placed (hi : t.symoffset ≤ i) (hlt : i < t.count) :
    gnuChainAt data offset i % 2 = t.chainWord i % 2 := by
  rw [gnuChainAt, bloom_placed h, gnuBuckets_placed h, gnuSymoffset_placed h,
    wordAt_placed (chain_placed h hi hlt), Nat.mod_mod_of_dvd _ (by decide)]

/-- The symbols that the table indexes are those that it was made for. -/
theorem gnuIndexed_placed (i : ℕ) : GnuIndexed data offset i ↔ i < t.count := by
  have hpos := t.symoffset_pos
  have hlt := t.symoffset_lt
  rw [GnuIndexed, gnuBuckets_placed h, gnuSymoffset_placed h]
  constructor
  · intro hi
    rcases hi with hi | ⟨b, hb, hsym, heven⟩
    · omega
    · rw [gnuBucketAt_placed h hb] at hsym heven
      have hword := bucketWord_lt (t := t) b
      by_contra hge
      -- the end mark of the last symbol is in the way
      have hlast := heven (t.count - 1) (by omega) (by omega)
      rw [gnuChainAt_placed h (by omega) (by omega), chainWord_odd last_end] at hlast
      omega
  · intro hi
    by_cases hsym : i < t.symoffset
    · exact .inl hsym
    · have hbucket := t.bucketOf_lt i (by omega) hi
      obtain ⟨f, hf⟩ := exists_first (Nat.not_lt.mp hsym) hi
      have hfirst := first?_eq_some hf
      refine .inr ⟨t.bucketOf i, hbucket, ?_, ?_⟩
      · rw [gnuBucketAt_placed h hbucket, bucketWord, hf]
        exact hfirst.1
      · intro j hj hji
        rw [gnuBucketAt_placed h hbucket] at hj
        have hsymj : t.symoffset ≤ j := by
          rw [bucketWord, hf, Option.getD_some] at hj
          omega
        rw [gnuChainAt_placed h hsymj (by omega)]
        exact chainWord_even (not_last (Nat.not_lt.mp hsym) hi hj hji)

end Words

end GnuTable

/-! ### The walk over the table -/

namespace ElfFile

variable {elf : ElfFile} {t : GnuTable} {offset : ℕ}

/-- A chain with an end mark is walked to the end, if it is in the file up to there. -/
theorem gnuChain_returns {chains symoffset k index e : ℕ} (highest : ℤ) (hsym : symoffset ≤ index)
    (hindex : index ≤ e) (hmark : wordAt elf.reader.data (chains + (e - symoffset) * 4) % 2 = 1)
    (hstop : chains + (e - symoffset) * 4 + 4 ≤ elf.reader.data.length)
    (hk : e < index + k) (hmax : e - symoffset ≤ MAX_TABLE_ENTRIES) :
    ∃ h, value (elf.gnuChain chains symoffset k index highest) = .ok h := by
  induction k generalizing index highest with
  | zero => omega
  | succ k ih =>
    have hread : value (elf.reader.unpack u32 (chains + (index - symoffset) * 4) .gnuHashChain) =
        .ok (wordAt elf.reader.data (chains + (index - symoffset) * 4)) := by
      rw [unpack_eq_ok]
      refine ⟨?_, rfl⟩
      change chains + (index - symoffset) * 4 + 4 ≤ elf.reader.data.length
      omega
    by_cases hodd : wordAt elf.reader.data (chains + (index - symoffset) * 4) % 2 = 1
    · refine ⟨max highest index, bind_eq_ok.mpr ⟨_, hread, ?_⟩⟩
      rw [if_pos hodd, value_pure]
    · have hne : index ≠ e := by
        rintro rfl
        exact hodd hmark
      have hnext : index + 1 ≤ e := by omega
      obtain ⟨h, hrest⟩ := ih (max highest index) (by omega) hnext (by omega)
      refine ⟨h, bind_eq_ok.mpr ⟨_, hread, ?_⟩⟩
      rw [if_neg hodd, bind_eq_ok]
      exact ⟨(), reject_eq_ok.mpr (by omega), hrest⟩

/-- Every bucket of a table is gone through. -/
theorem gnuBucket_returns (h : Placed elf.reader.data offset t.encode) {b : ℕ}
    (hb : b < t.nbuckets) (highest : ℤ) :
    ∃ c, value (elf.gnuBucket (offset + 16 + t.bloom.length * 8)
      (offset + 16 + t.bloom.length * 8 + t.nbuckets * 4) t.symoffset b highest) =
        .ok (.yield c) := by
  have hlt := t.symoffset_lt
  have hmax := t.hashed_le
  have hchain := GnuTable.chain_placed h (i := t.count - 1) (by omega) (by omega)
  have hrow := (GnuTable.buckets_placed h).left.row (fun _ => length_bytesOf 4 _)
    (List.getElem?_range hb)
  have hword : wordAt elf.reader.data (offset + 16 + t.bloom.length * 8 + b * 4) =
      t.bucketWord b := by
    rw [← GnuTable.gnuBucketAt_placed h hb, gnuBucketAt, GnuTable.bloom_placed h]
  have hstop := hchain.stop_le
  have hrowStop := hrow.stop_le
  rw [length_bytesOf] at hstop hrowStop
  have hread : value (elf.reader.unpack u32 (offset + 16 + t.bloom.length * 8 + b * 4)
      .gnuHashBucket) = .ok (t.bucketWord b) := by
    rw [unpack_eq_ok]
    exact ⟨hrowStop, hword.symm⟩
  by_cases hempty : t.bucketWord b < t.symoffset
  · refine ⟨highest, bind_eq_ok.mpr ⟨_, hread, ?_⟩⟩
    rw [if_pos hempty, value_pure]
  · have hbucket := GnuTable.bucketWord_lt (t := t) b
    have hmark : wordAt elf.reader.data (offset + 16 + t.bloom.length * 8 + t.nbuckets * 4 +
        (t.count - 1 - t.symoffset) * 4) % 2 = 1 := by
      rw [wordAt_placed hchain, Nat.mod_mod_of_dvd _ (by decide)]
      exact GnuTable.chainWord_odd GnuTable.last_end
    obtain ⟨c, hwalk⟩ := gnuChain_returns (k := elf.reader.data.length + 1) highest
      (Nat.not_lt.mp hempty) (e := t.count - 1) (by omega) hmark hstop (by omega) (by omega)
    refine ⟨c, bind_eq_ok.mpr ⟨_, hread, ?_⟩⟩
    rw [if_neg hempty, bind_eq_ok]
    exact ⟨c, hwalk, rfl⟩

theorem gnuSymbolCount_returns (h : Placed elf.reader.data offset t.encode) {address : ℕ}
    (hm : mapAddress elf.load address 16 = some offset) :
    ∃ n, value (elf.gnuSymbolCount address) = .ok n := by
  have hbuckets := GnuTable.gnuBuckets_placed h
  have hsymoffset := GnuTable.gnuSymoffset_placed h
  have hbloom := GnuTable.bloom_placed h
  have hstop := (GnuTable.chains_placed h).stop_le
  have hread : value (elf.reader.unpack gnuHashFormat offset .gnuHashHeader) =
      .ok ⟨t.nbuckets, t.symoffset, t.bloom.length⟩ := by
    rw [unpack_eq_ok]
    refine ⟨?_, ?_⟩
    · change offset + 16 ≤ elf.reader.data.length
      omega
    · simp (disch := decide) only [gnuHashFormat, little_take, Nat.add_zero]
      rw [hbloom, ← gnuBuckets, hbuckets, ← gnuSymoffset, hsymoffset]
  have hnbuckets := t.nbuckets_le
  have hbloomLe := t.bloom_le
  have hsymLe := t.symoffset_le
  have hround : ∀ k < t.nbuckets, ∀ b, ∃ c, value (elf.gnuBucket
      (offset + 16 + t.bloom.length * 8) (offset + 16 + t.bloom.length * 8 + t.nbuckets * 4)
        t.symoffset (0 + k) b) = .ok (.yield c) := by
    intro k hk b
    rw [Nat.zero_add]
    exact gnuBucket_returns h hk b
  obtain ⟨c, hloop⟩ := forRange_returns _ hround ((t.symoffset : ℤ) - 1)
  refine ⟨(c + 1).toNat, ?_⟩
  rw [gnuSymbolCount, bind_eq_ok]
  refine ⟨offset, addressRange_eq_ok.mpr hm, ?_⟩
  rw [bind_eq_ok]
  refine ⟨_, hread, ?_⟩
  dsimp only
  rw [bind_eq_ok]
  refine ⟨(), reject_eq_ok.mpr (by omega), ?_⟩
  rw [bind_eq_ok]
  refine ⟨(), reject_eq_ok.mpr (by omega), ?_⟩
  exact bind_eq_ok.mpr ⟨c, hloop, rfl⟩

/-- The table of a file without `DT_HASH` gives the number of symbols that it was made for. -/
theorem symbolCount_encode (t : GnuTable) {elf : ElfFile} (before after : Bytes) {address : ℕ}
    (hdata : elf.reader.data = before ++ t.encode ++ after) (hhash : elf.get? DT_HASH = none)
    (hgnu : elf.get? DT_GNU_HASH = some address)
    (hm : mapAddress elf.load address 16 = some before.length) :
    value elf.symbolCount = .ok t.count := by
  have hplaced : Placed elf.reader.data before.length t.encode := ⟨before, after, hdata, rfl⟩
  obtain ⟨n, hn⟩ := gnuSymbolCount_returns hplaced hm
  obtain ⟨offset, hoffset, hindexed⟩ := gnuSymbolCount_indexed hn
  obtain rfl := Option.some.inj (hm.symm.trans hoffset)
  have hcount : n = t.count := by
    have hiff : ∀ i, i < n ↔ i < t.count := fun i =>
      (hindexed i).trans (GnuTable.gnuIndexed_placed hplaced i)
    have hle := hiff n
    have hge := hiff t.count
    omega
  rw [symbolCount, hhash, hgnu, ← hcount]
  exact hn

/-- Five symbols in four buckets, of which one is empty. -/
def fiveSymbols : GnuTable where
  nbuckets := 4
  symoffset := 1
  count := 6
  bloom := [0x8000000400000001]
  bloomShift := 6
  bucketOf i := if i ≤ 2 then 0 else if i = 3 then 2 else 3
  hash i := 0x7C93A040 + (if i ≤ 2 then 0 else if i = 3 then 2 else 3)
  symoffset_pos := by decide
  symoffset_lt := by decide
  bucketOf_lt i _ _ := by split_ifs <;> decide
  grouped i j _ hij _ := by split_ifs <;> omega
  nbuckets_le := by decide
  bloom_le := by decide
  symoffset_le := by decide
  hashed_le := by decide

/-- A file with that table behind three other bytes, loaded at `0x1000`. -/
def fiveSymbolsFile : ElfFile where
  reader := ⟨[0xFF, 0xFF, 0xFF] ++ fiveSymbols.encode ++ [0xFF, 0xFF], []⟩
  etype := 3
  load := [⟨0x1000, 200, 0, 65⟩]
  tls := none
  tlsAlign := 0
  dynamic := [(DT_GNU_HASH, 0x1003)]
  neededOffsets := []
  strtab := 0
  strsz := 0

theorem symbolCount_fiveSymbols : value fiveSymbolsFile.symbolCount = .ok 6 :=
  symbolCount_encode fiveSymbols [0xFF, 0xFF, 0xFF] [0xFF, 0xFF] rfl (by decide) rfl (by decide)

end ElfFile

end MuslBsd.Scan
