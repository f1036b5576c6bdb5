import Mathlib.Data.List.TakeWhile
import Xcoin.Config.Settings

/-! A printed integer is read back by `parse_value`, unless it is outside `int64_t`. -/

namespace Xcoin.Toml

open Lib.Decimal Lib.Results

variable {z : ℤ} {n : ℕ} {ds : List Char} {c : Char}

lemma is_number_eq (c : Char) : is_number c = c.isDigit := rfl

lemma digits_number (hc : c ∈ digits n) : is_number c = true := digits_isDigit hc

lemma int_text_ne_minus (z : ℤ) (i : ℕ) : (int_text z)[i + 1]? ≠ some '-' := by
  have hdigits : '-' ∉ digits z.natAbs := digits_not (by decide)
  intro h
  obtain ⟨hz, -⟩ | ⟨hz, -⟩ := int_text_cases z
  · rw [hz] at h
    exact hdigits (List.mem_of_getElem? h)
  · rw [hz, List.getElem?_cons_succ] at h
    exact hdigits (List.mem_of_getElem? h)

lemma int_text_not_date (z : ℤ) : is_time (int_text z) = false ∧ is_date (int_text z) = false := by
  have hcolon : (int_text z)[2]? ≠ some ':' := by
    intro h
    exact int_text_not (z := z) (by decide) (by decide) (List.mem_of_getElem? h)
  constructor
  · simp [is_time, hcolon]
  · simp [is_date, int_text_ne_minus z 3]

lemma digits_cons (n : ℕ) : ∃ c ds, digits n = c :: ds ∧ is_number c = true := by
  obtain ⟨c, ds, h⟩ := List.exists_cons_of_length_pos (digits_length_pos n)
  exact ⟨c, ds, h, digits_number (h ▸ List.mem_cons_self)⟩

lemma eat_sign_digits (n : ℕ) : eat_sign (digits n) = digits n := by
  obtain ⟨c, ds, hds, hc⟩ := digits_cons n
  have hsign : ¬ (c = '-' ∨ c = '+') := by
    rintro (rfl | rfl) <;> exact absurd hc (by decide)
  rw [hds, eat_sign, if_neg hsign]

lemma eat_sign_int_text (z : ℤ) : eat_sign (int_text z) = digits z.natAbs := by
  obtain ⟨hz, -⟩ | ⟨hz, -⟩ := int_text_cases z
  · rw [hz, eat_sign_digits]
  · rw [hz]
    rfl

lemma int_text_type (z : ℤ) : determine_value_type (int_text z) = .ok .INT := by
  obtain ⟨htime, hdate⟩ := int_text_not_date z
  have hnumber : determine_number_type (int_text z) = .ok .INT := by
    obtain ⟨c, ds, hds, hc⟩ := digits_cons z.natAbs
    have hletter : ¬ (c = 'i' ∨ c = 'n') := by
      rintro (rfl | rfl) <;> exact absurd hc (by decide)
    have hend : (c :: ds).dropWhile is_number = [] := by
      rw [← hds, List.dropWhile_eq_nil_iff]
      intro d hd
      exact digits_number hd
    rw [determine_number_type, eat_sign_int_text, hds]
    simp only [hletter, hend, if_false, List.head?_nil]
    rfl
  obtain ⟨c, it, hit⟩ := List.exists_cons_of_length_pos (int_text_length_pos z)
  have hc : is_number c = true ∨ c = '-' := by
    by_contra h
    push Not at h
    have hnot := int_text_not (z := z) (c := c) (by simpa [is_number_eq] using h.1) h.2
    exact hnot (hit ▸ List.mem_cons_self)
  have hquote : ¬ (c = '"' ∨ c = '\'') := by
    rintro (rfl | rfl) <;> revert hc <;> decide
  rw [hit] at htime hdate hnumber ⊢
  rw [determine_value_type, if_neg hquote, if_neg (by simp [htime, hdate]), if_pos (by tauto),
    hnumber]

lemma eat_digits_all (h : ∀ c ∈ ds, is_number c = true) : eat_digits ds = .ok (ds, []) := by
  induction ds with
  | nil => rfl
  | cons c ds ih =>
    have hrest := ih fun d hd => h d (List.mem_cons_of_mem c hd)
    rw [eat_digits.eq_def]
    simp only [h c List.mem_cons_self, if_true]
    cases ds with
    | nil => rfl
    | cons d ds =>
      have hd : d ≠ '_' := by
        rintro rfl
        exact absurd (h '_' (by simp)) (by decide)
      simp [hd, hrest, ok_bind, pure, Except.pure]

lemma find_end_of_int_text (z : ℤ) : find_end_of_number (int_text z) = (int_text z).length := by
  have hall : ∀ c ∈ int_text z, number_char c = true := by
    intro c hc
    by_contra h
    have hn : is_number c = false ∧ c ≠ '-' := by
      constructor
      · by_contra hn
        simp [number_char, hn] at h
      · rintro rfl
        exact absurd rfl h
    exact int_text_not hn.1 hn.2 hc
  have htake : (int_text z).takeWhile number_char = int_text z :=
    List.takeWhile_eq_self_iff.mpr hall
  have hend : ¬ (['i', 'n', 'f'] <+: (int_text z).drop (int_text z).length ∨
      ['n', 'a', 'n'] <+: (int_text z).drop (int_text z).length) := by
    simp
  rw [find_end_of_number, htake, if_neg hend]

/-- `parse_int` reads a printed integer back when it fits into `int64_t`. -/
theorem parse_value_int (z : ℤ) : parse_value (int_text z) =
    if -2 ^ 63 ≤ z ∧ z < 2 ^ 63 then .ok (.int64 z, [])
    else throw_parse_exception "Malformed number (out of range: stoll)" := by
  have hzero : (int_text z).head? = some '0' → (int_text z).length = 1 := by
    obtain ⟨hz, -⟩ | ⟨hz, -⟩ := int_text_cases z
    · rw [hz]
      intro h
      rw [digits_head h]
      rfl
    · simp [hz]
  have hleading : (digits z.natAbs).head? = some '0' → (digits z.natAbs).length = 1 := by
    intro h
    rw [digits_head h]
    rfl
  have hsign : (int_text z).length - ((int_text z).length - (digits z.natAbs).length) =
      (digits z.natAbs).length := by
    obtain ⟨hz, -⟩ | ⟨hz, -⟩ := int_text_cases z <;> simp [hz]
  have hnumbers : eat_numbers (digits z.natAbs) = .ok (digits z.natAbs, []) := by
    have hne : digits z.natAbs ≠ [] := List.ne_nil_of_length_pos (digits_length_pos _)
    rw [eat_numbers, eat_digits_all fun c hc => digits_number hc, ok_bind]
    simp only [hne, if_false]
    rfl
  have hvalue : (if (int_text z).head? = some '-' then -(z.natAbs : ℤ) else z.natAbs) = z := by
    obtain ⟨hz, hpos⟩ | ⟨hz, hneg⟩ := int_text_cases z
    · obtain ⟨c, ds, hds, hc⟩ := digits_cons z.natAbs
      have hminus : c ≠ '-' := by
        rintro rfl
        exact absurd hc (by decide)
      rw [hz, hds, List.head?_cons, if_neg (by simp [hminus])]
      omega
    · rw [hz, List.head?_cons, if_pos rfl]
      omega
  have hof : Nat.ofDigitChars 10 (digits z.natAbs) 0 = z.natAbs := Nat.ofDigitChars_ten_toDigits
  rw [parse_value, int_text_type, ok_bind]
  simp only [parse_number, find_end_of_int_text, eat_sign_int_text, hsign, hnumbers, ok_bind]
  rw [if_neg fun h => h.2.1 (hzero h.1), if_neg fun h => h.2.1 (hleading h.1)]
  simp only [List.head?_nil, reduceCtorEq, or_self, if_false, stoll, hof, decide_eq_true_eq, hvalue]
  split <;> rfl

end Xcoin.Toml
