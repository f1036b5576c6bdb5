import Mathlib.Tactic

/-! Bytes in C: a zeroed array that is filled and inserted as a string, and the cuts of a
stream into pieces. -/

namespace Xcoin.Lib.Bytes

/-- What inserting a `char` array into a stream copies; without a terminator it reads past
the end of the array. -/
def c_string : List UInt8 → Option (List UInt8)
  | [] => none
  | b :: bytes => if b = 0 then some [] else (c_string bytes).map (b :: ·)

-- `char buf[n] = {0}`, filled from its start with `data` and inserted
def inserted (n : ℕ) (data : List UInt8) : Option (List UInt8) :=
  c_string (data ++ List.replicate (n - data.length) 0)

variable {n k : ℕ} {data text : List UInt8}

lemma c_string_cons {b : UInt8} (hb : b ≠ 0) (bytes : List UInt8) :
    c_string (b :: bytes) = (c_string bytes).map (b :: ·) := if_neg hb

lemma c_string_clean (h : 0 ∉ data) : c_string (data ++ List.replicate k 0) =
    if 0 < k then some data else none := by
  induction data with
  | nil => cases k <;> rfl
  | cons b data ih =>
    have hb : b ≠ 0 := fun hb => h (hb ▸ List.mem_cons_self)
    rw [List.cons_append, c_string_cons hb, ih fun hm => h (List.mem_cons_of_mem _ hm)]
    split <;> rfl

lemma c_string_zeros (hk : 0 < k) (data : List UInt8) :
    c_string (data ++ List.replicate k 0) = some (data.takeWhile fun b => b ≠ 0) := by
  induction data with
  | nil =>
    cases k with
    | zero => omega
    | succ k => rfl
  | cons b data ih =>
    by_cases hb : b = 0
    · simp [hb, c_string]
    · rw [List.cons_append, c_string_cons hb, ih]
      simp [hb]

lemma c_string_bound (h : c_string (data ++ List.replicate k 0) = some text) :
    text.length ≤ data.length ∧ (data.length ≤ text.length → text = data ∧ 0 ∉ data ∧ 0 < k) := by
  induction data generalizing text with
  | nil =>
    cases k with
    | zero => simp [c_string] at h
    | succ k =>
      obtain rfl : [] = text := Option.some.inj h
      simp
  | cons b data ih =>
    by_cases hb : b = 0
    · subst hb
      obtain rfl : [] = text := Option.some.inj h
      simp
    · rw [List.cons_append, c_string_cons hb] at h
      obtain ⟨text, hrest, rfl⟩ := Option.map_eq_some_iff.mp h
      obtain ⟨hle, hwhole⟩ := ih hrest
      refine ⟨Nat.succ_le_succ hle, fun hge => ?_⟩
      obtain ⟨rfl, hclean, hk⟩ := hwhole (Nat.le_of_succ_le_succ hge)
      exact ⟨rfl, by simp [hclean, Ne.symm hb], hk⟩

lemma inserted_clean (h : 0 ∉ data) (hn : data.length < n) : inserted n data = some data := by
  rw [inserted, c_string_clean h, if_pos (Nat.sub_pos_of_lt hn)]

lemma inserted_full (h : 0 ∉ data) (hn : n ≤ data.length) : inserted n data = none := by
  rw [inserted, c_string_clean h, Nat.sub_eq_zero_of_le hn, if_neg (lt_irrefl 0)]

lemma inserted_le (h : inserted n data = some text) : text.length ≤ data.length :=
  (c_string_bound h).1

lemma inserted_whole (h : inserted n data = some text) (hlen : data.length ≤ text.length) :
    text = data ∧ 0 ∉ data ∧ data.length < n := by
  obtain ⟨htext, hclean, hpos⟩ := (c_string_bound h).2 hlen
  exact ⟨htext, hclean, Nat.lt_of_sub_pos hpos⟩

lemma c_string_none (h : c_string data = none) : 0 ∉ data := by
  induction data with
  | nil => exact List.not_mem_nil
  | cons b data ih =>
    by_cases hb : b = 0
    · simp [c_string, hb] at h
    · rw [c_string_cons hb, Option.map_eq_none_iff] at h
      simp [ih h, Ne.symm hb]

lemma inserted_none (h : inserted n data = none) : 0 ∉ data ∧ n ≤ data.length := by
  have hzeros := c_string_none h
  rw [List.mem_append, not_or, List.mem_replicate, not_and_or, not_not] at hzeros
  refine ⟨hzeros.1, ?_⟩
  rcases hzeros.2 with hlen | hne
  · omega
  · exact (hne rfl).elim

lemma c_string_no_zero (h : c_string data = some text) : 0 ∉ text := by
  induction data generalizing text with
  | nil => exact nomatch h
  | cons b data ih =>
    by_cases hb : b = 0
    · simp only [c_string, hb, if_true, Option.some.injEq] at h
      simp [← h]
    · rw [c_string_cons hb] at h
      obtain ⟨text, htext, rfl⟩ := Option.map_eq_some_iff.mp h
      simp [ih htext, Ne.symm hb]

lemma inserted_no_zero (h : inserted n data = some text) : 0 ∉ text := c_string_no_zero h

/-- The shortest front part of a list of pieces that reaches a length. -/
lemma reach_split {α : Type} {pieces : List (List α)} {t : ℕ} (ht : 0 < t)
    (h : t ≤ pieces.flatten.length) : ∃ group rest, pieces = group ++ rest ∧
      t ≤ group.flatten.length ∧ group.dropLast.flatten.length < t := by
  induction pieces generalizing t with
  | nil => simp at h; omega
  | cons p pieces ih =>
    rw [List.flatten_cons, List.length_append] at h
    by_cases hp : t ≤ p.length
    · exact ⟨[p], pieces, rfl, by simpa using hp, by simpa using ht⟩
    · obtain ⟨group, rest, rfl, hle, hlt⟩ := ih (t := t - p.length) (by omega) (by omega)
      have hne : group ≠ [] := by
        rintro rfl
        simp at hle
        omega
      refine ⟨p :: group, rest, rfl, ?_, ?_⟩
      · rw [List.flatten_cons, List.length_append]
        omega
      · rw [List.dropLast_cons_of_ne_nil hne, List.flatten_cons, List.length_append]
        omega

end Xcoin.Lib.Bytes
