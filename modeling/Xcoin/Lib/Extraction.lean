import Mathlib.Data.List.TakeWhile
import Xcoin.Lib.TextTokens

/-! Formatted extraction of `int` from a `stringstream`: blanks are skipped, then a sign and
digits are read; a stream with a flag set gives and takes nothing. -/

namespace Xcoin.Lib.Extraction

open Decimal TextTokens

def isspace (b : UInt8) : Bool := b = 32 || (9 ≤ b && b ≤ 13)

def isdigit (b : UInt8) : Bool := 48 ≤ b && b ≤ 57

structure Stringstream where
  unread : List UInt8
  eofbit : Bool
  failbit : Bool
  deriving DecidableEq

namespace Stringstream

def of_text (text : List UInt8) : Stringstream := ⟨text, false, false⟩

def good (s : Stringstream) : Bool := !s.eofbit && !s.failbit

def insert (s : Stringstream) (text : List UInt8) : Stringstream :=
  if s.good then { s with unread := s.unread ++ text } else s

-- `ss.read(buf, n)`: the buffer keeps what is not overwritten
def read (s : Stringstream) (n : ℕ) (buf : List UInt8) : List UInt8 × Stringstream :=
  if s.good then
    let data := s.unread.take n
    let short := data.length < n
    (data ++ buf.drop data.length, ⟨s.unread.drop n, short, short⟩)
  else (buf, { s with failbit := true })

end Stringstream

def split_sign : List UInt8 → Bool × List UInt8
  | [] => (false, [])
  | b :: text =>
    if b = 45 then (true, text)
    else if b = 43 then (false, text)
    else (false, b :: text)

def digits_value (ds : List UInt8) : ℕ := ds.foldl (fun n b => 10 * n + (b.toNat - 48)) 0

-- a value out of range is replaced by the nearest `int` and sets `failbit`
def in_range (z : ℤ) : Bool := -2 ^ 31 ≤ z && z < 2 ^ 31

def to_range (z : ℤ) : Int32 := Int32.ofInt (max (-2 ^ 31) (min z (2 ^ 31 - 1)))

def field_value (text : List UInt8) : ℤ :=
  let n := digits_value ((split_sign text).2.takeWhile isdigit)
  if (split_sign text).1 then -n else n

-- a field without digits is read as 0 and sets `failbit`
def get_int (text : List UInt8) : Int32 × Stringstream :=
  let unsigned := (split_sign text).2
  let ds := unsigned.takeWhile isdigit
  let rest := unsigned.dropWhile isdigit
  (to_range (field_value text), ⟨rest, rest = [], ds = [] || !in_range (field_value text)⟩)

/-- `ss >> x`, where `none` stands for a variable that was never written. -/
def Stringstream.extract (s : Stringstream) (x : Option Int32) : Option Int32 × Stringstream :=
  if s.good then
    let text := s.unread.dropWhile isspace
    if text = [] then (x, ⟨[], true, true⟩)
    else (some (get_int text).1, (get_int text).2)
  else (x, { s with failbit := true })

variable {text rest pad ds : List UInt8} {z : ℤ} {x : Option Int32}

lemma digits_value_ascii (l : List Char) (h : ∀ c ∈ l, c.isDigit) :
    digits_value (ascii l) = Nat.ofDigitChars 10 l 0 := by
  suffices hgen : ∀ n, (ascii l).foldl (fun n b => 10 * n + (b.toNat - 48)) n =
      Nat.ofDigitChars 10 l n from hgen 0
  induction l with
  | nil => intro n; rfl
  | cons c l ih =>
    intro n
    have hc := Char.isDigit_iff_toNat.mp (h c (by simp))
    have hbyte : (UInt8.ofNat c.toNat).toNat = c.toNat := by
      rw [UInt8.toNat_ofNat', Nat.mod_eq_of_lt]
      have : '9'.toNat = 57 := rfl
      omega
    rw [Nat.ofDigitChars_cons, ← ih fun d hd => h d (by simp [hd])]
    simp [ascii, hbyte]

lemma digits_value_digits (n : ℕ) : digits_value (ascii (digits n)) = n := by
  rw [digits_value_ascii _ fun c hc => digits_isDigit hc]
  exact Nat.ofDigitChars_ten_toDigits

lemma isdigit_ascii_digits {n : ℕ} {b : UInt8} (h : b ∈ ascii (digits n)) : isdigit b = true := by
  obtain ⟨c, hc, rfl⟩ := List.mem_map.mp h
  have hd := Char.isDigit_iff_toNat.mp (digits_isDigit hc)
  have h0 : '0'.toNat = 48 := rfl
  have h9 : '9'.toNat = 57 := rfl
  simp only [isdigit, Bool.and_eq_true, decide_eq_true_eq, UInt8.le_iff_toNat_le,
    UInt8.toNat_ofNat']
  rw [Nat.mod_eq_of_lt (by omega)]
  exact ⟨by simpa using by omega, by simpa using by omega⟩

lemma to_range_eq (h : in_range z = true) : to_range z = Int32.ofInt z := by
  simp only [in_range, Bool.and_eq_true, decide_eq_true_eq] at h
  have hz : max (-2 ^ 31) (min z (2 ^ 31 - 1)) = z := by omega
  rw [to_range, hz]

lemma split_sign_digit {b : UInt8} (hb : isdigit b = true) :
    split_sign (b :: text) = (false, b :: text) := by
  have hminus : b ≠ 45 := by
    rintro rfl
    simp [isdigit] at hb
  have hplus : b ≠ 43 := by
    rintro rfl
    simp [isdigit] at hb
  simp [split_sign, hminus, hplus]

lemma not_isspace_digit {b : UInt8} (hb : isdigit b = true) : isspace b = false := by
  simp only [isdigit, isspace, Bool.and_eq_true, decide_eq_true_eq, Bool.or_eq_false_iff,
    decide_eq_false_iff_not, Bool.and_eq_false_iff, UInt8.le_iff_toNat_le, UInt8.ext_iff] at hb ⊢
  simp at hb ⊢
  omega

lemma ascii_digits_cons (n : ℕ) : ∃ b text, ascii (digits n) = b :: text ∧ isdigit b = true := by
  cases h : ascii (digits n) with
  | nil => exact absurd (List.map_eq_nil_iff.mp h) (List.ne_nil_of_length_pos (digits_length_pos n))
  | cons b text => exact ⟨b, text, rfl, isdigit_ascii_digits (h ▸ List.mem_cons_self)⟩

lemma split_sign_text (z : ℤ) : split_sign (ascii (int_text z) ++ rest) =
    (decide (z < 0), ascii (digits z.natAbs) ++ rest) := by
  rw [int_text]
  split
  · rename_i hz
    have habs : z.toNat = z.natAbs := by omega
    obtain ⟨b, text, hb, hd⟩ := ascii_digits_cons z.natAbs
    rw [habs, hb, List.cons_append, split_sign_digit hd]
    simp [hz]
  · rename_i hz
    have habs : (-z).toNat = z.natAbs := by omega
    have hneg : z < 0 := by omega
    simp [ascii, split_sign, habs, hneg]

lemma field_digits (n : ℕ) (hrest : ∀ b ∈ rest.head?, isdigit b = false) :
    (ascii (digits n) ++ rest).takeWhile isdigit = ascii (digits n) ∧
      (ascii (digits n) ++ rest).dropWhile isdigit = rest := by
  have hall : ∀ b ∈ ascii (digits n), isdigit b = true := fun b hb => isdigit_ascii_digits hb
  rw [List.takeWhile_append_of_pos hall, List.dropWhile_append_of_pos hall]
  cases rest with
  | nil => simp
  | cons b rest => simp [hrest b rfl]

/-- A printed integer is read back, and the text after it is left. -/
lemma get_int_text (hz : in_range z = true) (hrest : ∀ b ∈ rest.head?, isdigit b = false) :
    get_int (ascii (int_text z) ++ rest) = (Int32.ofInt z, ⟨rest, rest = [], false⟩) := by
  obtain ⟨htake, hdrop⟩ := field_digits z.natAbs hrest
  have hvalue : field_value (ascii (int_text z) ++ rest) = z := by
    simp only [field_value, split_sign_text, htake, digits_value_digits, decide_eq_true_eq]
    split <;> omega
  have hne : ascii (digits z.natAbs) ≠ [] := by
    obtain ⟨b, text, hb, -⟩ := ascii_digits_cons z.natAbs
    simp [hb]
  simp [get_int, hvalue, split_sign_text, htake, hdrop, to_range_eq hz, hz, hne]

lemma dropWhile_isspace (hpad : ∀ b ∈ pad, isspace b = true) (z : ℤ) :
    (pad ++ (ascii (int_text z) ++ rest)).dropWhile isspace = ascii (int_text z) ++ rest := by
  rw [List.dropWhile_append_of_pos hpad]
  have hhead : ∃ b text, ascii (int_text z) = b :: text ∧ isspace b = false := by
    rw [int_text]
    split
    · obtain ⟨b, text, hb, hd⟩ := ascii_digits_cons z.toNat
      exact ⟨b, text, hb, not_isspace_digit hd⟩
    · exact ⟨45, ascii (digits (-z).toNat), rfl, by decide⟩
  obtain ⟨b, text, hb, hspace⟩ := hhead
  simp [hb, hspace]

lemma extract_field {field : List UInt8} (h : text.dropWhile isspace = field) (hne : field ≠ []) :
    (Stringstream.of_text text).extract x = (some (get_int field).1, (get_int field).2) := by
  subst h
  exact if_neg hne

/-- Extraction is the inverse of insertion for every `int`, up to the next character that is
not a digit. -/
theorem extract_int_text (pad rest : List UInt8) (hpad : ∀ b ∈ pad, isspace b = true)
    (hrest : ∀ b ∈ rest.head?, isdigit b = false) (b : Int32) (x : Option Int32) :
    (Stringstream.of_text (pad ++ (ascii (int_text b.toInt) ++ rest))).extract x =
      (some b, ⟨rest, rest = [], false⟩) := by
  have hz : in_range b.toInt = true := by
    have hlo := b.le_toInt
    have hhi := b.toInt_lt
    simp only [in_range, Bool.and_eq_true, decide_eq_true_eq]
    omega
  have hne : ascii (int_text b.toInt) ++ rest ≠ [] := by
    have hpos := List.ne_nil_of_length_pos (int_text_length_pos b.toInt)
    simp [ascii, hpos]
  rw [extract_field (dropWhile_isspace hpad b.toInt) hne, get_int_text hz hrest, Int32.ofInt_toInt]

lemma digits_value_lt (h : ∀ b ∈ ds, isdigit b = true) : digits_value ds < 10 ^ ds.length := by
  induction ds using List.reverseRecOn with
  | nil => simp [digits_value]
  | append_singleton ds b ih =>
    have hlt := ih fun d hd => h d (by simp [hd])
    have hb : isdigit b = true := h b (by simp)
    have hsnoc : digits_value (ds ++ [b]) = 10 * digits_value ds + (b.toNat - 48) := by
      simp [digits_value]
    simp only [isdigit, Bool.and_eq_true, decide_eq_true_eq, UInt8.le_iff_toNat_le] at hb
    have hle : b.toNat ≤ 57 := hb.2
    rw [hsnoc, List.length_append, List.length_singleton, pow_succ]
    omega

lemma split_sign_le (text : List UInt8) : (split_sign text).2.length ≤ text.length := by
  cases text with
  | nil => rfl
  | cons b text =>
    rw [split_sign]
    split
    · exact Nat.le_succ _
    · split
      · exact Nat.le_succ _
      · exact le_rfl

/-- A field of `k` characters stands for less than `10 ^ k`. -/
lemma field_value_bound {k : ℕ} (h : text.length ≤ k) : (field_value text).natAbs < 10 ^ k := by
  have hlt : digits_value ((split_sign text).2.takeWhile isdigit) < 10 ^ k := by
    apply (digits_value_lt fun b hb => List.mem_takeWhile_imp hb).trans_le
    apply Nat.pow_le_pow_right (by decide)
    exact ((List.takeWhile_prefix isdigit).length_le.trans (split_sign_le text)).trans h
  rw [field_value]
  split <;> omega

lemma field_value_neg (h : field_value text < 0) : ∃ b rest, text = 45 :: b :: rest ∧
    isdigit b = true := by
  rw [field_value] at h
  split at h
  · rename_i hneg
    cases text with
    | nil => simp [split_sign] at hneg
    | cons m text =>
      have hm : m = 45 := by
        by_contra hm
        simp [split_sign, hm] at hneg
        split at hneg <;> simp at hneg
      subst hm
      cases text with
      | nil => simp [split_sign, digits_value] at h
      | cons b rest =>
        refine ⟨b, rest, rfl, ?_⟩
        by_contra hb
        simp [split_sign, hb, digits_value] at h
  · omega

lemma field_value_one {b : UInt8} (hb : isdigit b = false) : field_value [b] = 0 := by
  have hds : (split_sign [b]).2.takeWhile isdigit = [] := by
    rw [split_sign]
    split
    · rfl
    · split
      · rfl
      · simp [hb]
  simp [field_value, hds, digits_value]

lemma to_range_field (h : text.length ≤ 9) :
    (to_range (field_value text)).toInt = field_value text := by
  have hbound := field_value_bound h
  have hz : in_range (field_value text) = true := by
    simp only [in_range, Bool.and_eq_true, decide_eq_true_eq]
    omega
  rw [to_range_eq hz, Int32.toInt_ofInt_of_le (by omega) (by omega)]

end Xcoin.Lib.Extraction
