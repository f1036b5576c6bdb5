import Xcoin.Lib.Archives
import Xcoin.Lib.Decimal

/-! The tokens of a text archive: a number ends with a blank, and a string follows its length. -/

namespace Xcoin.Lib.TextTokens

open Archives Decimal

def ascii (text : List Char) : List UInt8 := text.map fun c => UInt8.ofNat c.toNat

def number (z : ℤ) : List UInt8 := ascii (int_text z) ++ [32]

def bytes (s : String) : List UInt8 := s.toByteArray.data.toList

-- the signature, the version of the library, and the version and tracking of one class
def archive_start : List UInt8 := ascii "22 serialization::archive 17 0 0 ".toList

def counted (s : String) : List UInt8 := number (bytes s).length ++ bytes s

lemma int_text_range {z : ℤ} {c : Char} (h : c ∈ int_text z) : 45 ≤ c.toNat ∧ c.toNat < 58 := by
  have hdigit : ∀ {n : ℕ}, c ∈ digits n → 45 ≤ c.toNat ∧ c.toNat < 58 := by
    intro n hc
    have hd := digits_isDigit hc
    rw [Char.isDigit_iff_toNat] at hd
    exact ⟨le_trans (by decide) hd.1, lt_of_le_of_lt hd.2 (by decide)⟩
  rw [int_text] at h
  split at h
  · exact hdigit h
  · cases List.mem_cons.mp h with
    | inl hc => simp [hc]
    | inr hc => exact hdigit hc

lemma ascii_inj {l l' : List Char} (hl : ∀ c ∈ l, c.toNat < 256) (hl' : ∀ c ∈ l', c.toNat < 256)
    (h : ascii l = ascii l') : l = l' := by
  apply List.map_injective_iff.mpr fun _ _ => Char.toNat_inj.mp
  have hback : ∀ l : List Char, (∀ c ∈ l, c.toNat < 256) →
      (ascii l).map UInt8.toNat = l.map Char.toNat := by
    intro l hl
    rw [ascii, List.map_map]
    apply List.map_congr_left
    intro c hc
    exact Nat.mod_eq_of_lt (hl c hc)
  rw [← hback l hl, h, hback l' hl']

lemma mem_ascii_int_text {z : ℤ} {b : UInt8} (h : b ∈ ascii (int_text z)) : 45 ≤ b.toNat := by
  obtain ⟨c, hc, rfl⟩ := List.mem_map.mp h
  have hrange := int_text_range hc
  rw [UInt8.toNat_ofNat', Nat.mod_eq_of_lt (by omega)]
  exact hrange.1

lemma number_delimited : Delimited number := by
  change Delimited fun z => ascii (int_text z) ++ [32]
  apply Delimited.token
  · intro x y h
    exact int_text_inj (ascii_inj (fun c hc => by have := int_text_range hc; omega)
      (fun c hc => by have := int_text_range hc; omega) h)
  · intro z h
    simpa using mem_ascii_int_text h

lemma number_clean (z : ℤ) : 0 ∉ number z := by
  intro h
  cases List.mem_append.mp h with
  | inl h => simpa using mem_ascii_int_text h
  | inr h => simp at h

lemma bytes_ascii {l : List Char} (h : ∀ c ∈ l, c.toNat < 128) :
    bytes (String.ofList l) = ascii l := by
  induction l with
  | nil => rfl
  | cons c l ih =>
    have hone : c.utf8Size = 1 := by
      rw [Char.utf8Size_eq_one_iff, UInt32.le_iff_toNat_le]
      exact Nat.le_of_lt_succ (h c List.mem_cons_self)
    have htail := ih fun d hd => h d (List.mem_cons_of_mem c hd)
    rw [bytes, String.toByteArray_ofList] at htail ⊢
    rw [List.utf8Encode_cons, List.utf8Encode_singleton, String.utf8EncodeChar_eq_singleton hone]
    have hbyte : c.toUInt8 = UInt8.ofNat c.toNat := rfl
    simp [ascii, htail, hbyte]

lemma bytes_inj : Function.Injective bytes := by
  intro s t h
  apply String.toByteArray_inj.mp
  exact ByteArray.ext (Array.toList_inj.mp h)

lemma counted_delimited : Delimited counted :=
  ((number_delimited.comap Nat.cast_injective).counted).comap bytes_inj

lemma counted_clean {s : String} (h : 0 ∉ bytes s) : 0 ∉ counted s := by
  intro hz
  cases List.mem_append.mp hz with
  | inl hz => exact number_clean _ hz
  | inr hz => exact h hz

end Xcoin.Lib.TextTokens
