import Xcoin.Lib.StdMaps

/-! First and last positions in a list, and tables that map a key to the position where it was
inserted first. -/

namespace Xcoin.Lib.Positions

open StdMaps

variable {α : Type} {xs : List α} {x y : α} {i j : ℕ}

def FirstAt (xs : List α) (x : α) (i : ℕ) : Prop := xs[i]? = some x ∧ ∀ j < i, xs[j]? ≠ some x

def LastAt (xs : List α) (x : α) (i : ℕ) : Prop := xs[i]? = some x ∧ ∀ j > i, xs[j]? ≠ some x

lemma FirstAt.le (h : FirstAt xs x i) (hj : xs[j]? = some x) : i ≤ j := by
  by_contra hlt
  exact h.2 j (by omega) hj

lemma LastAt.le (h : LastAt xs x i) (hj : xs[j]? = some x) : j ≤ i := by
  by_contra hlt
  exact h.2 j (by omega) hj

lemma firstAt_snoc : FirstAt (xs ++ [y]) x i ↔
    FirstAt xs x i ∨ i = xs.length ∧ x = y ∧ x ∉ xs := by
  constructor
  · rintro ⟨hi, hfirst⟩
    by_cases hlt : i < xs.length
    · rw [List.getElem?_append_left hlt] at hi
      refine .inl ⟨hi, fun j hj => ?_⟩
      have hne := hfirst j hj
      rwa [List.getElem?_append_left (by omega)] at hne
    · have hlen : i < (xs ++ [y]).length := (List.getElem?_eq_some_iff.mp hi).1
      obtain rfl : i = xs.length := by
        simp at hlen
        omega
      refine .inr ⟨rfl, by simpa [eq_comm] using hi, fun hx => ?_⟩
      obtain ⟨j, hj, hget⟩ := List.mem_iff_getElem.mp hx
      apply hfirst j hj
      rw [List.getElem?_append_left hj, List.getElem?_eq_getElem hj, hget]
  · rintro (⟨hi, hfirst⟩ | ⟨rfl, rfl, hx⟩)
    · have hlt : i < xs.length := (List.getElem?_eq_some_iff.mp hi).1
      refine ⟨by rwa [List.getElem?_append_left hlt], fun j hj => ?_⟩
      rw [List.getElem?_append_left (by omega)]
      exact hfirst j hj
    · refine ⟨by simp, fun j hj h => hx ?_⟩
      rw [List.getElem?_append_left hj] at h
      exact List.mem_of_getElem? h

lemma exists_firstAt (h : x ∈ xs) : ∃ i, FirstAt xs x i := by
  induction xs using List.reverseRecOn with
  | nil => simp at h
  | append_singleton xs y ih =>
    by_cases hx : x ∈ xs
    · obtain ⟨i, hi⟩ := ih hx
      exact ⟨i, firstAt_snoc.mpr (.inl hi)⟩
    · have hxy : x = y := by simpa [hx] using h
      exact ⟨xs.length, firstAt_snoc.mpr (.inr ⟨rfl, hxy, hx⟩)⟩

lemma position_unique (hxs : xs.Nodup) (hi : xs[i]? = some x) (hj : xs[j]? = some x) : i = j := by
  have hlt : i < xs.length := (List.getElem?_eq_some_iff.mp hi).1
  exact (List.getElem?_inj hlt hxs).mp (hi.trans hj.symm)

lemma lastAt_of_nodup (hxs : xs.Nodup) (hi : xs[i]? = some x) : LastAt xs x i := by
  refine ⟨hi, fun j hj h => ?_⟩
  have := position_unique hxs hi h
  omega

lemma firstAt_of_nodup (hxs : xs.Nodup) (hi : xs[i]? = some x) : FirstAt xs x i := by
  refine ⟨hi, fun j hj h => ?_⟩
  have := position_unique hxs hi h
  omega

section Tables

variable {κ : Type} [DecidableEq κ] {m : StdMap κ ℕ} {ks : List κ} {k : κ}

def FirstWins (m : StdMap κ ℕ) (ks : List κ) : Prop := ∀ k i, m.lookup k = some i ↔ FirstAt ks k i

lemma firstWins_empty : FirstWins (∅ : StdMap κ ℕ) [] := by
  simp [FirstWins, FirstAt]

/-- A map that keeps the old value maps every key to the place where it came first. -/
lemma FirstWins.emplace (h : FirstWins m ks) (k : κ) :
    FirstWins (StdMap.emplace m k ks.length) (ks ++ [k]) := by
  intro l i
  rw [firstAt_snoc, ← h l i]
  have hmem : k ∈ m ↔ k ∈ ks := by
    rw [StdMap.mem_iff_lookup]
    constructor
    · rintro ⟨i, hi⟩
      exact List.mem_of_getElem? ((h k i).mp hi).1
    · intro hk
      obtain ⟨i, hi⟩ := exists_firstAt hk
      exact ⟨i, (h k i).mpr hi⟩
  by_cases hk : k ∈ ks
  · rw [StdMap.emplace, if_pos (hmem.mpr hk)]
    constructor
    · exact .inl
    · rintro (h | ⟨-, rfl, hl⟩)
      · exact h
      · exact absurd hk hl
  · rw [StdMap.lookup_emplace (mt hmem.mp hk)]
    split
    · rename_i hl
      subst hl
      have hnone : m.lookup l ≠ some i := fun hi => hk (List.mem_of_getElem? ((h l i).mp hi).1)
      simp [hnone, hk, eq_comm]
    · rename_i hl
      simp [hl]

/-- Keys that are all different are mapped to all positions. -/
lemma FirstWins.values_perm (h : FirstWins m ks) (hks : ks.Nodup) :
    (m.entries.map Sigma.snd).Perm (List.range ks.length) := by
  have hfirst : ∀ e ∈ m.entries, FirstAt ks e.1 e.2 :=
    fun e he => (h e.1 e.2).mp (AList.mem_lookup_iff.mpr he)
  apply (List.perm_ext_iff_of_nodup _ List.nodup_range).mpr
  · intro i
    rw [List.mem_map, List.mem_range]
    constructor
    · rintro ⟨e, he, rfl⟩
      exact (List.getElem?_eq_some_iff.mp (hfirst e he).1).1
    · intro hi
      have hlookup := (h ks[i] i).mpr (firstAt_of_nodup hks (List.getElem?_eq_getElem hi))
      exact ⟨⟨ks[i], i⟩, AList.mem_lookup_iff.mp hlookup, rfl⟩
  · apply m.nodupKeys.nodup.map_on
    intro e he e' he' heq
    have hsame := hfirst e he
    rw [heq] at hsame
    exact Sigma.ext (Option.some.inj (hsame.1.symm.trans (hfirst e' he').1)) (heq_of_eq heq)

end Tables

end Xcoin.Lib.Positions
