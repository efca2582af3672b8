import Mathlib.Data.List.Dedup
import Mathlib.Data.List.Lex
import Mathlib.Data.List.Sort
import Mathlib.Data.Rat.Defs

/-! The JSON values and the few Python operations that `nvidia-manifest` uses. -/
namespace MuslBsd.Manifest

/-- A Python string: code points, surrogates included. -/
abbrev Str := List ℕ

def str (s : String) : Str := s.toList.map Char.toNat

instance : LawfulBEq Str := inferInstance

/-- What `json.loads` makes of a number. -/
inductive Number
  | rat (q : ℚ)
  | nan
  | infinity (negative : Bool)
  deriving DecidableEq

/-- Python's `==`, under which nan is not itself. -/
def Number.eq : Number → Number → Bool
  | .rat p, .rat q => p = q
  | .infinity a, .infinity b => a = b
  | _, _ => false

/-- An object has its set of keys and their values; `val` says nothing outside of `keys`. -/
inductive Json
  | null
  | bool (b : Bool)
  | num (n : Number)
  | str (s : Str)
  | arr (items : List Json)
  | obj (keys : List Str) (val : Str → Json)

theorem Number.eq_comm (m n : Number) : m.eq n = n.eq m := by
  cases m <;> cases n <;> simp [Number.eq, Eq.comm]

structure Dict where
  keys : List Str
  val : Str → Json

namespace Json

/-- Python counts `True` and `False` among the numbers. -/
def number? : Json → Option Number
  | .bool b => some (.rat (if b then 1 else 0))
  | .num n => some n
  | _ => none

mutual

/-- Python's `==`. -/
def eq : Json → Json → Bool
  | .null, .null => true
  | .str s, .str t => s = t
  | .arr xs, .arr ys => eqList xs ys
  | .obj keys val, .obj keys' val' =>
    (keys.all fun k => keys'.contains k && eq (val k) (val' k)) && keys'.all fun k => keys.contains k
  | x, y =>
    match x.number?, y.number? with
    | some m, some n => m.eq n
    | _, _ => false

def eqList : List Json → List Json → Bool
  | [], [] => true
  | x :: xs, y :: ys => eq x y && eqList xs ys
  | _, _ => false

end

theorem eq_str {s : Str} {x : Json} : Json.eq (.str s) x = true ↔ x = .str s := by
  cases x with
  | str t => simp [eq, eq_comm]
  | _ => simp [eq, number?]

theorem eq_null {x : Json} : Json.eq .null x = true ↔ x = .null := by
  cases x <;> simp [eq, number?]

theorem eq_arr {xs ys : List Json} :
    Json.eq (.arr xs) (.arr ys) = true ↔ List.Forall₂ (fun x y => Json.eq x y = true) xs ys := by
  rw [eq]
  induction xs generalizing ys with
  | nil => cases ys <;> simp [eqList]
  | cons x xs ih =>
    cases ys with
    | nil => simp [eqList]
    | cons y ys => simp [eqList, ih]

theorem eq_obj {ks ls : List Str} {f g : Str → Json} : Json.eq (.obj ks f) (.obj ls g) = true ↔
    (∀ k, k ∈ ks ↔ k ∈ ls) ∧ ∀ k ∈ ks, Json.eq (f k) (g k) = true := by
  simp only [eq, Bool.and_eq_true, List.all_eq_true, List.contains_iff_mem]
  constructor
  · rintro ⟨h₁, h₂⟩
    exact ⟨fun k => ⟨fun hk => (h₁ k hk).1, h₂ k⟩, fun k hk => (h₁ k hk).2⟩
  · rintro ⟨h₁, h₂⟩
    exact ⟨fun k hk => ⟨(h₁ k).mp hk, h₂ k hk⟩, fun k hk => (h₁ k).mpr hk⟩

mutual

theorem eq_comm (x y : Json) : Json.eq x y = Json.eq y x := by
  match x, y with
  | .str s, .str t => simp [eq, Eq.comm]
  | .arr xs, .arr ys =>
    rw [eq, eq]
    exact eqList_comm xs ys
  | .obj ks f, .obj ls g =>
    rw [Bool.eq_iff_iff, eq_obj, eq_obj]
    constructor
    · rintro ⟨hk, hv⟩
      exact ⟨fun k => (hk k).symm, fun k hl => (eq_comm (f k) (g k)).symm.trans (hv k ((hk k).mpr hl))⟩
    · rintro ⟨hk, hv⟩
      exact ⟨fun k => (hk k).symm, fun k hl => (eq_comm (f k) (g k)).trans (hv k ((hk k).mpr hl))⟩
  | .null, .null => rfl
  | .bool a, .bool b => simp [eq, number?, Number.eq_comm]
  | .bool a, .num n => simp [eq, number?, Number.eq_comm]
  | .num m, .bool b => simp [eq, number?, Number.eq_comm]
  | .num m, .num n => simp [eq, number?, Number.eq_comm]
  | .null, .bool _ | .null, .num _ | .null, .str _ | .null, .arr _ | .null, .obj _ _ => rfl
  | .bool _, .null | .bool _, .str _ | .bool _, .arr _ | .bool _, .obj _ _ => rfl
  | .num _, .null | .num _, .str _ | .num _, .arr _ | .num _, .obj _ _ => rfl
  | .str _, .null | .str _, .bool _ | .str _, .num _ | .str _, .arr _ | .str _, .obj _ _ => rfl
  | .arr _, .null | .arr _, .bool _ | .arr _, .num _ | .arr _, .str _ | .arr _, .obj _ _ => rfl
  | .obj _ _, .null | .obj _ _, .bool _ | .obj _ _, .num _ | .obj _ _, .str _ | .obj _ _, .arr _ => rfl

theorem eqList_comm (xs ys : List Json) : eqList xs ys = eqList ys xs := by
  match xs, ys with
  | [], [] => rfl
  | [], _ :: _ => rfl
  | _ :: _, [] => rfl
  | x :: xs, y :: ys => rw [eqList, eqList, eq_comm x y, eqList_comm xs ys]

end

end Json

namespace Dict

def toJson (d : Dict) : Json := .obj d.keys d.val

theorem toJson_injective : Function.Injective toJson := by
  rintro ⟨k, v⟩ ⟨k', v'⟩ h
  simpa [toJson] using h

/-- `d.get(k)`. -/
def get (d : Dict) (k : Str) : Json := if k ∈ d.keys then d.val k else .null

/-- `set(d) == {..}`. -/
def HasFields (d : Dict) (fields : List Str) : Prop :=
  (∀ k ∈ d.keys, k ∈ fields) ∧ ∀ k ∈ fields, k ∈ d.keys

instance (d : Dict) (fields : List Str) : Decidable (d.HasFields fields) :=
  inferInstanceAs (Decidable (_ ∧ _))

/-- A dict that is written out field by field. -/
def ofFields (fields : List (Str × Json)) : Dict :=
  ⟨fields.map Prod.fst, fun k => (fields.lookup k).getD .null⟩

theorem get_of_mem {d : Dict} {k : Str} (h : k ∈ d.keys) : d.get k = d.val k := if_pos h

theorem mem_of_get {d : Dict} {k : Str} (h : d.get k ≠ .null) : k ∈ d.keys := by
  by_contra hk
  exact h (if_neg hk)

end Dict

/-- `Path(s).name`: the last component that is neither empty nor a dot. -/
def pathName (s : Str) : Str :=
  ((s.splitOn '/'.toNat).filter fun c => c ≠ [] ∧ c ≠ ['.'.toNat]).getLast?.getD []

theorem not_mem_of_mem_splitOn {a : ℕ} {s c : Str} (h : c ∈ s.splitOn a) : a ∉ c := by
  induction s generalizing c with
  | nil =>
    rw [List.splitOn_nil, List.mem_singleton] at h
    simp [h]
  | cons b s ih =>
    rw [List.splitOn_cons_eq_if_modifyHead] at h
    split at h
    · rcases List.mem_cons.mp h with rfl | h
      · simp
      · exact ih h
    · rename_i hb
      cases hs : s.splitOn a with
      | nil => exact absurd hs (List.splitOn_ne_nil a s)
      | cons d ds =>
        rw [hs, List.modifyHead_cons] at h
        rcases List.mem_cons.mp h with rfl | h
        · have hd : a ∉ d := ih (hs ▸ List.mem_cons_self ..)
          have hab : a ≠ b := fun he => hb (by simp [he])
          simp [hd, hab]
        · exact ih (hs ▸ List.mem_cons_of_mem _ h)

/-- A name is its own name. -/
theorem pathName_pathName (s : Str) : pathName (pathName s) = pathName s := by
  cases h : ((s.splitOn '/'.toNat).filter fun c => c ≠ [] ∧ c ≠ ['.'.toNat]).getLast? with
  | none =>
    have hs : pathName s = [] := by rw [pathName, h]; rfl
    rw [hs]
    rfl
  | some c =>
    have hs : pathName s = c := by rw [pathName, h]; rfl
    have hc := List.mem_of_getLast? h
    rw [List.mem_filter] at hc
    obtain ⟨hc, hne⟩ := hc
    rw [hs, pathName, List.splitOn_eq_singleton (not_mem_of_mem_splitOn hc), List.filter_cons, if_pos hne]
    rfl

end MuslBsd.Manifest
