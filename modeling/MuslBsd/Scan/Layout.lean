import MuslBsd.Scan.SymbolTable
import MuslBsd.Support.Placed

/-! What is read from a file whose bytes are known at an offset. -/
namespace MuslBsd.Scan
open MuslBsd.Support

variable {α : Type} {data front rest : Bytes} {offset k size n : ℕ}

@[simp] theorem length_bytesOf (size n : ℕ) : (bytesOf size n).length = size := by
  induction size generalizing n with
  | zero => rfl
  | succ size ih => rw [bytesOf, List.length_cons, ih]

/-- A number that is written in `size` bytes reads as the number, up to what they can hold. -/
theorem little_bytesOf (size n : ℕ) (rest : Bytes) :
    little 0 size (bytesOf size n ++ rest) = n % 256 ^ size := by
  rw [little, List.drop_zero]
  induction size generalizing n with
  | zero => simp [bytesOf, Nat.mod_one]
  | succ size ih =>
    have hbyte : (UInt8.ofNat n).toNat = n % 256 := UInt8.toNat_ofNat'
    rw [bytesOf, List.cons_append, List.take_succ_cons, List.foldr_cons, ih, hbyte,
      Nat.pow_succ', Nat.mod_mul]

theorem little_bytesOf_end (size n : ℕ) : little 0 size (bytesOf size n) = n % 256 ^ size := by
  have hread := little_bytesOf size n []
  rwa [List.append_nil] at hread

/-- What is in front of a field is passed over. -/
theorem little_append (h : front.length ≤ k) :
    little k size (front ++ rest) = little (k - front.length) size rest := by
  rw [little, little, List.drop_append, List.drop_of_length_le h, List.nil_append]

theorem unpack_placed {r : Reader} {format : Format α} {what : What} {bytes : Bytes}
    (h : Placed r.data offset bytes) (hsize : bytes.length = format.size) :
    value (r.unpack format offset what) = .ok (format.fields bytes) := by
  rw [unpack_eq_ok, ← hsize, h.take_drop]
  exact ⟨h.stop_le, rfl⟩

theorem wordAt_placed (h : Placed data offset (bytesOf 4 n)) : wordAt data offset = n % 2 ^ 32 := by
  have hread := h.take_drop
  rw [length_bytesOf] at hread
  calc wordAt data offset = little 0 4 (bytesOf 4 n) := congrArg (little 0 4) hread
    _ = n % 2 ^ 32 := little_bytesOf_end 4 n

/-- A loop over linked entries, which stops at a zero link or when all have been counted, folds
what it does with one entry. -/
theorem forRange_linked {σ β : Type} (body : ℕ → ℕ × σ → ScanM (ForInStep (ℕ × σ)))
    (step : σ → β → σ) {least : ℕ} {At : ℕ → ℕ → β → Prop} {bs : List β} (hleast : 0 < least)
    (hround : ∀ b ∈ bs, ∀ i offset link s, At offset link b → least ≤ link ∨ link = 0 →
      value (body i (offset, s)) =
        .ok (if link = 0 then .done (offset, step s b) else .yield (offset + link, step s b)))
    (h : Linked least At offset bs) (i : ℕ) (s : σ) :
    ∃ stop, value (Faulting.forRange body bs.length i (offset, s)) =
      .ok (stop, bs.foldl step s) := by
  induction h generalizing i s with
  | nil => exact ⟨_, rfl⟩
  | @cons offset link b rest hat hlink _ ih =>
    have hread := hround b (List.mem_cons_self ..) i offset link s hat (hlink.imp_right And.right)
    rcases hlink with hlink | ⟨rfl, rfl⟩
    · rw [if_neg (by omega)] at hread
      obtain ⟨stop, hrest⟩ := ih (fun b hb => hround b (List.mem_cons_of_mem _ hb)) (i + 1) (step s b)
      exact ⟨stop, bind_eq_ok.mpr ⟨_, hread, hrest⟩⟩
    · exact ⟨offset, bind_eq_ok.mpr ⟨_, hread, rfl⟩⟩

/-! ### Dicts with new keys -/

section Dict

variable {κ ν : Type} [DecidableEq κ] {d es : List (κ × ν)} {key : κ} {v : ν}

theorem foldl_dictSet (h : ((d ++ es).map Prod.fst).Nodup) :
    es.foldl (fun d e => dictSet d e.1 e.2) d = d ++ es := by
  induction es generalizing d with
  | nil => rw [List.foldl_nil, List.append_nil]
  | cons e es ih =>
    have hnew : e.1 ∉ d.map Prod.fst := by
      intro hmem
      rw [List.map_append, List.nodup_append] at h
      exact h.2.2 _ hmem _ (List.mem_cons_self ..) rfl
    rw [List.foldl_cons, dictSet, if_neg hnew, ih (by simpa using h), List.append_assoc]
    rfl

theorem lookup_eq_some (h : (d.map Prod.fst).Nodup) : d.lookup key = some v ↔ (key, v) ∈ d := by
  rw [List.lookup_eq_some_iff]
  constructor
  · rintro ⟨front, rest, rfl, -⟩
    exact List.mem_append_right _ (List.mem_cons_self ..)
  · intro hmem
    obtain ⟨front, rest, rfl⟩ := List.append_of_mem hmem
    refine ⟨front, rest, rfl, ?_⟩
    intro e he
    rw [List.map_append, List.nodup_append] at h
    have hne := h.2.2 e.1 (List.mem_map_of_mem he) key (List.mem_cons_self ..)
    simpa using hne.symm

end Dict

end MuslBsd.Scan
