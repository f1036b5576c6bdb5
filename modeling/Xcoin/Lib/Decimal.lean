import Mathlib.Tactic

/-! Decimal texts of natural numbers and integers, as lists of characters. -/

namespace Xcoin.Lib.Decimal

def digits (n : ℕ) : List Char := Nat.toDigits 10 n

def int_text (z : ℤ) : List Char := if 0 ≤ z then digits z.toNat else '-' :: digits (-z).toNat

lemma forall_chars {P : Char → Prop} [DecidablePred P] {l : List Char}
    (h : l.all (fun c => P c) = true) : ∀ c ∈ l, P c := by
  intro c hc
  exact of_decide_eq_true (List.all_eq_true.mp h c hc)

lemma digits_inj : Function.Injective digits := by
  intro m n h
  have hval := congrArg (fun l => Nat.ofDigitChars 10 l 0) h
  simpa only [digits, Nat.ofDigitChars_ten_toDigits] using hval

lemma digits_isDigit {n : ℕ} {c : Char} (h : c ∈ digits n) : c.isDigit :=
  Nat.isDigit_of_mem_toDigits (by decide) (by decide) h

lemma digits_not {n : ℕ} {c : Char} (hc : c.isDigit = false) : c ∉ digits n := by
  intro h
  simpa [hc] using digits_isDigit h

lemma digits_length_pos (n : ℕ) : 0 < (digits n).length := Nat.length_toDigits_pos

lemma digits_length_le {n k : ℕ} (hk : 0 < k) (h : n < 10 ^ k) : (digits n).length ≤ k :=
  (Nat.length_toDigits_le_iff (by decide) hk).mpr h

lemma digits_head (h : (digits n).head? = some '0') : digits n = ['0'] := by
  induction n using Nat.strongRecOn with
  | ind n ih =>
    by_cases hn : n < 10
    · have hone : digits n = [n.digitChar] := Nat.toDigits_of_lt_base hn
      rw [hone] at h ⊢
      rw [Option.some.inj h]
    · have happend : digits (n / 10) ++ digits (n % 10) = digits n := by
        have h10 := Nat.toDigits_append_toDigits (b := 10) (n := n / 10) (d := n % 10)
          (by decide) (by omega) (by omega)
        rwa [Nat.div_add_mod] at h10
      have hne : digits (n / 10) ≠ [] := List.ne_nil_of_length_pos (digits_length_pos _)
      have hzero : digits (n / 10) = ['0'] := by
        apply ih (n / 10) (by omega)
        rwa [← happend, List.head?_append_of_ne_nil _ hne] at h
      have hdiv : n / 10 = 0 := digits_inj (hzero.trans (by decide : ['0'] = digits 0))
      omega

lemma int_text_cases (z : ℤ) : int_text z = digits z.natAbs ∧ 0 ≤ z ∨
    int_text z = '-' :: digits z.natAbs ∧ z < 0 := by
  rw [int_text]
  split
  · have habs : z.toNat = z.natAbs := by omega
    exact .inl ⟨by rw [habs], by assumption⟩
  · have habs : (-z).toNat = z.natAbs := by omega
    exact .inr ⟨by rw [habs], by omega⟩

lemma int_text_not {z : ℤ} {c : Char} (hc : c.isDigit = false) (hminus : c ≠ '-') :
    c ∉ int_text z := by
  have hdigits : c ∉ digits z.natAbs := digits_not hc
  obtain ⟨hz, -⟩ | ⟨hz, -⟩ := int_text_cases z
  · rwa [hz]
  · simp [hz, hminus, hdigits]

lemma int_text_inj : Function.Injective int_text := by
  intro x y h
  have hminus : ∀ m n : ℕ, digits m ≠ '-' :: digits n := by
    intro m n h
    exact digits_not (c := '-') (by decide) (h ▸ List.mem_cons_self)
  simp only [int_text] at h
  split at h <;> split at h
  · have hnat := digits_inj h
    omega
  · exact (hminus _ _ h).elim
  · exact (hminus _ _ h.symm).elim
  · have hnat := digits_inj (List.cons.inj h).2
    omega

lemma int_text_length_pos (z : ℤ) : 0 < (int_text z).length := by
  rw [int_text]
  split
  · exact digits_length_pos _
  · exact Nat.succ_pos _

lemma int_text_length_le {z : ℤ} {k : ℕ} (hk : 0 < k) (h : z.natAbs < 10 ^ k) :
    (int_text z).length ≤ k ∨ ((int_text z).length ≤ k + 1 ∧ (int_text z).head? = some '-') := by
  rw [int_text]
  split
  · exact Or.inl (digits_length_le hk (by omega))
  · have hle : (digits (-z).toNat).length ≤ k := digits_length_le hk (by omega)
    exact Or.inr ⟨by simpa using hle, rfl⟩

-- the number that is printed as `k` ones
def repunit : ℕ → ℕ
  | 0 => 0
  | k + 1 => 10 * repunit k + 1

lemma repunit_pos {k : ℕ} (hk : 0 < k) : 0 < repunit k := by
  cases k with
  | zero => omega
  | succ k => simp [repunit]

lemma repunit_mono {j k : ℕ} (h : j ≤ k) : repunit j ≤ repunit k := by
  induction h with
  | refl => exact le_rfl
  | step _ ih =>
    simp only [repunit]
    omega

lemma digits_repunit {k : ℕ} (hk : 0 < k) : digits (repunit k) = List.replicate k '1' := by
  induction k with
  | zero => omega
  | succ k ih =>
    cases k with
    | zero => decide
    | succ k =>
      have happend := Nat.toDigits_append_toDigits (b := 10) (n := repunit (k + 1)) (d := 1)
        (by decide) (repunit_pos (Nat.succ_pos k)) (by decide)
      have hone : Nat.toDigits 10 1 = ['1'] := by decide
      rw [digits, repunit, ← happend, hone, List.replicate_succ', ← ih (Nat.succ_pos k)]
      rfl

end Xcoin.Lib.Decimal
