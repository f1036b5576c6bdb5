import Mathlib.Data.List.AList
import Mathlib.Tactic

/-! `std::map` and `std::multimap`: a map keeps its old value when a key is
inserted twice, and a multimap keeps equal keys in the order of insertion. -/

namespace Xcoin.Lib.StdMaps

variable {κ α : Type} [DecidableEq κ]

abbrev StdMap (κ α : Type) := AList (fun _ : κ => α)

namespace StdMap

def emplace (m : StdMap κ α) (k : κ) (a : α) : StdMap κ α :=
  if k ∈ m then m else m.insert k a

lemma mem_iff_lookup {m : StdMap κ α} {k : κ} : k ∈ m ↔ ∃ a, m.lookup k = some a := by
  rw [← AList.lookup_isSome, Option.isSome_iff_exists]

lemma mem_of_lookup {m : StdMap κ α} {k : κ} {a : α} (h : m.lookup k = some a) : k ∈ m :=
  mem_iff_lookup.mpr ⟨a, h⟩

lemma mem_emplace {m : StdMap κ α} {k l : κ} {a : α} :
    l ∈ emplace m k a ↔ l = k ∨ l ∈ m := by
  unfold emplace
  split
  · rename_i hk
    exact ⟨Or.inr, fun h => h.elim (fun h => h ▸ hk) id⟩
  · exact AList.mem_insert m

lemma lookup_emplace {m : StdMap κ α} {k l : κ} {a : α} (hk : k ∉ m) :
    (emplace m k a).lookup l = if l = k then some a else m.lookup l := by
  rw [emplace, if_neg hk]
  split
  · rename_i hl
    rw [hl, AList.lookup_insert]
  · rename_i hl
    exact AList.lookup_insert_ne hl

lemma lookup_erase_iff {m : StdMap κ α} {k l : κ} {a : α} :
    (m.erase k).lookup l = some a ↔ l ≠ k ∧ m.lookup l = some a := by
  by_cases hl : l = k
  · subst l
    simp [AList.lookup_erase]
  · simp [AList.lookup_erase_ne hl, hl]

end StdMap

abbrev Multimap (κ α : Type) := List (κ × α)

namespace Multimap

def insert (m : Multimap κ α) (k : κ) (a : α) : Multimap κ α := m ++ [(k, a)]

def equal_range (m : Multimap κ α) (k : κ) : List α :=
  (m.filter (fun p => p.1 = k)).map Prod.snd

def erase (m : Multimap κ α) (k : κ) : Multimap κ α := m.filter (fun p => p.1 ≠ k)

omit [DecidableEq κ] in
@[simp] lemma mem_insert {m : Multimap κ α} {k : κ} {a : α} {p : κ × α} :
    p ∈ insert m k a ↔ p ∈ m ∨ p = (k, a) := by
  simp [insert]

@[simp] lemma mem_equal_range {m : Multimap κ α} {k : κ} {a : α} :
    a ∈ equal_range m k ↔ (k, a) ∈ m := by
  simp [equal_range]

@[simp] lemma mem_erase {m : Multimap κ α} {k : κ} {p : κ × α} :
    p ∈ erase m k ↔ p ∈ m ∧ p.1 ≠ k := by
  simp [erase]

lemma equal_range_snoc (m : Multimap κ α) (p : κ × α) (k : κ) :
    equal_range (m ++ [p]) k = equal_range m k ++ if p.1 = k then [p.2] else [] := by
  rw [equal_range, List.filter_append, List.map_append]
  by_cases hp : p.1 = k <;> simp [equal_range, hp]

lemma equal_range_length_add_erase_length (m : Multimap κ α) (k : κ) :
    (equal_range m k).length + (erase m k).length = m.length := by
  induction m with
  | nil => rfl
  | cons p m ih =>
    by_cases hp : p.1 = k <;>
      simp only [equal_range, erase, List.length_map, List.filter_cons, hp, decide_true,
        decide_false, if_true, if_false, ne_eq, not_true, not_false_eq_true,
        List.length_cons, Bool.false_eq_true] at ih ⊢ <;>
      omega

end Multimap

end Xcoin.Lib.StdMaps
