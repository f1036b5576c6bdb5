import Mathlib.Data.List.TakeWhile
import Xcoin.Lib.Decimal

/-! The line that `buf_read_cb` logs for a first ping, and `parse_log`, which reads it back. -/

namespace Xcoin

open Lib.Decimal

def stars : List Char := ['*', '*', '*', '*']

-- console->critical("****{},{}****", ...)
def critical_text (latency hop : ℤ) : List Char :=
  stars ++ int_text latency ++ ',' :: int_text hop ++ stars

inductive LogFault
  | index_error
  | value_error
  deriving DecidableEq

-- line.find("****")
def find_stars : List Char → Option ℕ
  | [] => none
  | c :: line => if stars <+: c :: line then some 0 else (find_stars line).map (· + 1)

def rstrip (p : Char → Bool) (line : List Char) : List Char := (line.reverse.dropWhile p).reverse

def strip (p : Char → Bool) (line : List Char) : List Char := rstrip p (line.dropWhile p)

def is_space (c : Char) : Bool :=
  c = ' ' || c = '\t' || c = '\n' || c = '\r' || c = '\x0b' || c = '\x0c'

def py_digits (ds : List Char) : Except LogFault ℕ :=
  if ds = [] ∨ ds.any fun c => !c.isDigit then .error .value_error
  else pure (Nat.ofDigitChars 10 ds 0)

-- int(s) of a stripped string
def py_int (s : List Char) : Except LogFault ℤ :=
  match s with
  | '-' :: ds => (fun n : ℕ => -(n : ℤ)) <$> py_digits ds
  | '+' :: ds => (fun n : ℕ => (n : ℤ)) <$> py_digits ds
  | ds => (fun n : ℕ => (n : ℤ)) <$> py_digits ds

def starred (line : List Char) : Option (List Char) :=
  (find_stars line).map fun i => (rstrip (· = '\n') line).drop i

def data_lines (log_file : List (List Char)) : List (List Char) := log_file.filterMap starred

-- what is appended to `latency` and to `hop`
def parse_log (log_file : List (List Char)) : Except LogFault (ℤ × ℤ) :=
  match (data_lines log_file).map (strip (· = '*')) with
  | [] => .error .index_error
  | data_str :: _ => do
    let data_arr := data_str.splitOn ','
    let latency ← py_int (strip is_space (data_arr.headD []))
    match data_arr[1]? with
    | none => .error .index_error
    | some field => do
      let hop ← py_int (strip is_space field)
      pure (latency / 1000, hop)

variable {line pre text : List Char} {p : Char → Bool} {z latency hop : ℤ} {n : ℕ} {c : Char}
  {log_file before after : List (List Char)}

lemma find_stars_skip (text : List Char) (h : '*' ∉ pre) :
    find_stars (pre ++ stars ++ text) = some pre.length := by
  induction pre with
  | nil => simp [find_stars, stars]
  | cons c pre ih =>
    have hc : c ≠ '*' := fun hc => h (hc ▸ List.mem_cons_self)
    have hpre := ih fun hp => h (List.mem_cons_of_mem c hp)
    have hstars : ¬ stars <+: c :: (pre ++ stars ++ text) := by
      rw [stars, List.cons_prefix_cons]
      exact fun h => hc h.1.symm
    rw [List.cons_append, List.cons_append, find_stars, if_neg hstars, hpre]
    rfl

lemma dropWhile_keep (h : ∀ c ∈ line.head?, p c = false) : line.dropWhile p = line := by
  cases line with
  | nil => rfl
  | cons c line => simp [h c rfl]

lemma rstrip_append (h : ∀ c ∈ text, p c = true) (hline : ∀ c ∈ line.getLast?, p c = false) :
    rstrip p (line ++ text) = line := by
  rw [rstrip, List.reverse_append, List.dropWhile_append_of_pos (by simpa using h),
    dropWhile_keep (by simpa using hline), List.reverse_reverse]

lemma strip_both (hpre : ∀ c ∈ pre, p c = true) (htext : ∀ c ∈ text, p c = true)
    (hline : ∀ c ∈ line, p c = false) : strip p (pre ++ line ++ text) = line := by
  have hlast : ∀ c ∈ line.getLast?, p c = false :=
    fun c hc => hline c (List.mem_of_getLast? hc)
  rw [strip, List.append_assoc, List.dropWhile_append_of_pos hpre]
  cases line with
  | nil =>
    rw [List.nil_append, List.dropWhile_eq_nil_iff.mpr htext]
    rfl
  | cons c line =>
    rw [dropWhile_keep, rstrip_append htext hlast]
    intro d hd
    obtain rfl : c = d := Option.some.inj hd
    exact hline c List.mem_cons_self

lemma strip_none (hline : ∀ c ∈ line, p c = false) : strip p line = line := by
  have hnil : ∀ c ∈ ([] : List Char), p c = true := by simp
  have h := strip_both hnil hnil hline
  rwa [List.append_nil] at h

lemma py_digits_digits (n : ℕ) : py_digits (digits n) = .ok n := by
  have hne : digits n ≠ [] := List.ne_nil_of_length_pos (digits_length_pos n)
  have hall : (digits n).any (fun c => !c.isDigit) = false := by
    rw [List.any_eq_false]
    intro c hc
    simp [digits_isDigit hc]
  rw [py_digits, if_neg (by simp [hne, hall])]
  exact congrArg Except.ok Nat.ofDigitChars_ten_toDigits

lemma py_int_text (z : ℤ) : py_int (int_text z) = .ok z := by
  obtain ⟨hz, hpos⟩ | ⟨hz, hneg⟩ := int_text_cases z
  · have hsign : py_int (digits z.natAbs) =
        (fun n : ℕ => (n : ℤ)) <$> py_digits (digits z.natAbs) := by
      have hminus : '-' ∉ digits z.natAbs := digits_not (by decide)
      have hplus : '+' ∉ digits z.natAbs := digits_not (by decide)
      rw [py_int]
      · intro ds hds
        exact hminus (hds ▸ List.mem_cons_self)
      · intro ds hds
        exact hplus (hds ▸ List.mem_cons_self)
    rw [hz, hsign, py_digits_digits]
    exact congrArg Except.ok (show (z.natAbs : ℤ) = z by omega)
  · rw [hz, py_int, py_digits_digits]
    exact congrArg Except.ok (show -(z.natAbs : ℤ) = z by omega)

lemma int_text_clean (hc : c ∈ int_text z) :
    c ≠ '*' ∧ c ≠ ',' ∧ c ≠ '\n' ∧ is_space c = false := by
  refine ⟨?_, ?_, ?_, ?_⟩
  · rintro rfl
    exact int_text_not (by decide) (by decide) hc
  · rintro rfl
    exact int_text_not (by decide) (by decide) hc
  · rintro rfl
    exact int_text_not (by decide) (by decide) hc
  · by_contra hspace
    simp only [is_space, Bool.not_eq_false, Bool.or_eq_true, decide_eq_true_eq] at hspace
    rcases hspace with ((((rfl | rfl) | rfl) | rfl) | rfl) | rfl <;>
      exact int_text_not (by decide) (by decide) hc

lemma split_fields (latency hop : ℤ) :
    (int_text latency ++ ',' :: int_text hop).splitOn ',' = [int_text latency, int_text hop] := by
  have hfields : ∀ l ∈ [int_text latency, int_text hop], ',' ∉ l := by
    intro l hl hcomma
    simp only [List.mem_cons, List.not_mem_nil, or_false] at hl
    rcases hl with rfl | rfl
    · exact (int_text_clean hcomma).2.1 rfl
    · exact (int_text_clean hcomma).2.1 rfl
  have h := List.splitOn_intercalate ',' hfields (by simp)
  simpa [List.intercalate] using h

/-- The data of a critical line, whatever comes before it on the line. -/
lemma data_line (h : '*' ∉ pre) (latency hop : ℤ) :
    starred (pre ++ critical_text latency hop ++ ['\n']) = some (critical_text latency hop) := by
  have hfind : find_stars (pre ++ critical_text latency hop ++ ['\n']) = some pre.length := by
    have hskip := find_stars_skip (int_text latency ++ ',' :: int_text hop ++ stars ++ ['\n']) h
    simpa [critical_text] using hskip
  have hstrip : rstrip (· = '\n') (pre ++ critical_text latency hop ++ ['\n']) =
      pre ++ critical_text latency hop := by
    apply rstrip_append
    · simp
    · simp [critical_text, stars, List.getLast?_append, List.getLast?_cons]
  rw [starred, hfind, hstrip]
  simp

lemma strip_critical (latency hop : ℤ) : strip (· = '*') (critical_text latency hop) =
    int_text latency ++ ',' :: int_text hop := by
  have hstars : ∀ c ∈ stars, decide (c = '*') = true := forall_chars (by decide)
  have hdata : ∀ c ∈ int_text latency ++ ',' :: int_text hop, decide (c = '*') = false := by
    intro c hc
    simp only [List.mem_append, List.mem_cons] at hc
    rcases hc with hc | rfl | hc
    · simpa using (int_text_clean hc).1
    · decide
    · simpa using (int_text_clean hc).1
  have h := strip_both hstars hstars hdata
  simpa [critical_text] using h

/-- `parse_log` reads the first critical line of the file. -/
theorem parse_log_reads (hbefore : ∀ l ∈ before, find_stars l = none) (hpre : '*' ∉ pre)
    (latency hop : ℤ) :
    parse_log (before ++ (pre ++ critical_text latency hop ++ ['\n']) :: after) =
      .ok (latency / 1000, hop) := by
  have hnone : data_lines before = [] := by
    rw [data_lines, List.filterMap_eq_nil_iff]
    intro l hl
    rw [starred, hbefore l hl]
    rfl
  have hdata : data_lines (before ++ (pre ++ critical_text latency hop ++ ['\n']) :: after) =
      critical_text latency hop :: data_lines after := by
    rw [data_lines] at hnone
    rw [data_lines, List.filterMap_append, hnone, List.nil_append,
      List.filterMap_cons_some (data_line hpre latency hop)]
    rfl
  have hspace : ∀ z : ℤ, py_int (strip is_space (int_text z)) = .ok z := by
    intro z
    rw [strip_none fun c hc => (int_text_clean hc).2.2.2, py_int_text]
  rw [parse_log, hdata, List.map_cons, strip_critical]
  simp only [split_fields, List.headD_cons, hspace, List.getElem?_cons_succ,
    List.getElem?_cons_zero]
  rfl

lemma parse_log_none (h : ∀ l ∈ log_file, find_stars l = none) :
    parse_log log_file = .error .index_error := by
  have hnone : data_lines log_file = [] := by
    rw [data_lines, List.filterMap_eq_nil_iff]
    intro l hl
    rw [starred, h l hl]
    rfl
  rw [parse_log, hnone]
  rfl

end Xcoin
