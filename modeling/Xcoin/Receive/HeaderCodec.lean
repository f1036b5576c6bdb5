import Xcoin.Lib.Extraction
import Xcoin.Receive.Client

/-! The codecs of `MsgHeader`: as eight raw bytes, and as the decimal texts that the blocks of
`util_serialize_block` share. -/

namespace Xcoin

open Lib.Decimal Lib.TextTokens Lib.Bytes Lib.Extraction

-- `none` for a field that was never written
structure HeaderFields where
  type : Option Int32
  size : Option Int32
  deriving DecidableEq

def MsgHeader.fields (h : MsgHeader) : HeaderFields := ⟨some h.type, some h.size⟩

-- `memcpy(buf + n, bytes, ...)`
def memcpy (buf : List UInt8) (n : ℕ) (bytes : List UInt8) : List UInt8 :=
  buf.take n ++ bytes ++ buf.drop (n + bytes.length)

def MsgHeader.save (h : MsgHeader) (buf : List UInt8) : List UInt8 :=
  memcpy (memcpy buf 0 (le_bytes h.type)) 4 (le_bytes h.size)

-- the constructor from `char buf[]`, which copies from the fields to `buf`
def MsgHeader.of_buf (buf : List UInt8) : MsgHeader × List UInt8 :=
  let header := MsgHeader.mk 0 0
  (header, memcpy (memcpy buf 0 (le_bytes header.type)) 4 (le_bytes header.size))

-- `none` when an array without a terminator is inserted
def MsgHeader.restore (ss : Stringstream) : Option HeaderFields := do
  let (buf, ss) := ss.read 4 (List.replicate 32 0)
  let convert := (Stringstream.of_text []).insert (← c_string buf)
  let (type, convert) := convert.extract none
  let (buf, _) := ss.read 4 buf
  let convert := convert.insert (← c_string buf)
  let (size, _) := convert.extract none
  pure ⟨type, size⟩

def MsgHeader.to_string (h : MsgHeader) : List UInt8 :=
  ascii (int_text h.type.toInt) ++ [32] ++ ascii (int_text h.size.toInt)

def MsgHeader.of_string (s : List UInt8) : HeaderFields :=
  let (type, ss) := (Stringstream.of_text s).extract none
  let (size, _) := ss.extract none
  ⟨type, size⟩

def util_serialize_block (b : Int32) (ss : Stringstream) : Stringstream :=
  ss.insert (ascii (int_text b.toInt))

-- the second argument of the source is not used
def util_get_block (buf : List UInt8) : Option Int32 := do
  let ss := (Stringstream.of_text []).insert (← c_string buf)
  (ss.extract none).1

/-- Both decoders give back the header, and the bytes stay as they are. -/
structure MsgHeader.RoundTrips (h : MsgHeader) : Prop where
  of_buf : MsgHeader.of_buf (h.save (List.replicate MSG_HEADER_SIZE 0)) =
    (h, h.save (List.replicate MSG_HEADER_SIZE 0))
  restore : MsgHeader.restore (Stringstream.of_text (h.save (List.replicate MSG_HEADER_SIZE 0))) =
    some h.fields

variable {x : Int32} {h : MsgHeader} {f : HeaderFields}

lemma save_bytes (h : MsgHeader) : h.save (List.replicate MSG_HEADER_SIZE 0) = h.bytes := rfl

lemma toInt_cases (x : Int32) : x.toInt = x.toUInt32.toNat ∧ x.toUInt32.toNat < 2 ^ 31 ∨
    x.toInt = x.toUInt32.toNat - 2 ^ 32 ∧ 2 ^ 31 ≤ x.toUInt32.toNat := by
  have h : x.toInt = if 2 * x.toUInt32.toNat < 2 ^ 32 then (x.toUInt32.toNat : ℤ)
      else x.toUInt32.toNat - 2 ^ 32 := BitVec.toInt_eq_toNat_cond x.toBitVec
  split at h <;> omega

lemma le_bytes_toNat (x : Int32) : ∃ b₀ b₁ b₂ b₃, le_bytes x = [b₀, b₁, b₂, b₃] ∧
    x.toUInt32.toNat =
      b₀.toNat + 256 * b₁.toNat + 65536 * b₂.toNat + 16777216 * b₃.toNat := by
  refine ⟨_, _, _, _, rfl, ?_⟩
  have hlt := x.toUInt32.toNat_lt
  simp only [UInt8.toNat_ofNat']
  omega

section Fixed

variable {b₀ b₁ b₂ b₃ : UInt8}

lemma small_ne (hb₀ : b₀ ≠ 0) (hne : [b₀].dropWhile isspace ≠ []) (hlt : b₀.toNat < 10) :
    field_value ([b₀].dropWhile isspace) ≠ b₀.toNat := by
  have hspace : isspace b₀ = false := by
    by_contra h
    simp [h] at hne
  have hdigit : isdigit b₀ = false := by
    simp only [isdigit, Bool.and_eq_false_iff, decide_eq_false_iff_not, UInt8.le_iff_toNat_le]
    exact .inl (by simpa using by omega)
  have hpos : b₀.toNat ≠ 0 := fun h => hb₀ (UInt8.toNat_inj.mp h)
  have hdrop : [b₀].dropWhile isspace = [b₀] := by simp [hspace]
  rw [hdrop, field_value_one hdigit]
  omega

lemma high_not_neg (hhigh : 58 ≤ b₁.toNat) (rest : List UInt8) :
    ¬ field_value ((b₀ :: b₁ :: rest).dropWhile isspace) < 0 := by
  intro h
  obtain ⟨d, tail, hfield, hd⟩ := field_value_neg h
  have hspace : isspace b₁ = false := by
    simp only [isspace, Bool.or_eq_false_iff, Bool.and_eq_false_iff, decide_eq_false_iff_not,
      UInt8.le_iff_toNat_le, UInt8.ext_iff]
    simp
    omega
  by_cases h₀ : isspace b₀ = true
  · have h45 : b₁ = 45 ∧ rest = d :: tail := by simpa [h₀, hspace] using hfield
    rw [h45.1] at hhigh
    simp at hhigh
  · have h45 : b₀ = 45 ∧ b₁ = d ∧ rest = tail := by simpa [h₀] using hfield
    rw [← h45.2.1] at hd
    simp only [isdigit, Bool.and_eq_true, decide_eq_true_eq, UInt8.le_iff_toNat_le] at hd
    have hle : b₁.toNat ≤ 57 := hd.2
    omega

-- the text that `convert << buf` takes from the four bytes of a number
def raw_text (b₀ b₁ b₂ b₃ : UInt8) : List UInt8 := [b₀, b₁, b₂, b₃].takeWhile fun b => b ≠ 0

lemma raw_text_length (b₀ b₁ b₂ b₃ : UInt8) : (raw_text b₀ b₁ b₂ b₃).length ≤ 4 :=
  (List.takeWhile_prefix _).length_le

lemma field_length (text : List UInt8) : (text.dropWhile isspace).length ≤ text.length :=
  (List.dropWhile_suffix isspace).length_le

lemma raw_ne_value (hne : (raw_text b₀ b₁ b₂ b₃).dropWhile isspace ≠ []) :
    field_value ((raw_text b₀ b₁ b₂ b₃).dropWhile isspace) ≠
      b₀.toNat + 256 * b₁.toNat + 65536 * b₂.toNat + 16777216 * b₃.toNat := by
  intro hvalue
  have hzero : ∀ b : UInt8, b.toNat = 0 → b = 0 := fun b h => UInt8.toNat_inj.mp h
  have hbound := field_value_bound ((field_length _).trans (raw_text_length b₀ b₁ b₂ b₃))
  have hb₀ : b₀ ≠ 0 := by
    rintro rfl
    simp [raw_text] at hne
  have hb₂ : b₂ = 0 := hzero b₂ (by omega)
  by_cases hb₁ : b₁ = 0
  · have hone : raw_text b₀ b₁ b₂ b₃ = [b₀] := by simp [raw_text, hb₀, hb₁]
    have hsmall := field_value_bound (k := 1) (field_length [b₀])
    have h₃ : b₃.toNat = 0 := by omega
    rw [hone] at hvalue hne
    simp only [hb₁, hb₂, h₃, UInt8.toNat_zero] at hvalue
    exact small_ne hb₀ hne (by omega) (by omega)
  · have htwo : raw_text b₀ b₁ b₂ b₃ = [b₀, b₁] := by simp [raw_text, hb₀, hb₁, hb₂]
    have hsmall := field_value_bound (k := 2) (field_length [b₀, b₁])
    have hpos : b₁.toNat ≠ 0 := fun h => hb₁ (hzero b₁ h)
    rw [htwo] at hvalue
    omega

lemma raw_not_neg (hhigh : 58 ≤ b₁.toNat) :
    ¬ field_value ((raw_text b₀ b₁ b₂ b₃).dropWhile isspace) < 0 := by
  have hb₁ : b₁ ≠ 0 := by
    rintro rfl
    simp at hhigh
  by_cases hb₀ : b₀ = 0
  · simp [raw_text, hb₀, field_value, split_sign, digits_value]
  · have htwo : raw_text b₀ b₁ b₂ b₃ = b₀ :: b₁ :: [b₂, b₃].takeWhile fun b => b ≠ 0 := by
      simp [raw_text, hb₀, hb₁]
    rw [htwo]
    exact high_not_neg hhigh _

end Fixed

lemma extracted_value {text : List UInt8} (hlen : text.length ≤ 4)
    (hx : ((Stringstream.of_text text).extract none).1 = some x) :
    text.dropWhile isspace ≠ [] ∧ x.toInt = field_value (text.dropWhile isspace) := by
  have hne : text.dropWhile isspace ≠ [] := by
    intro hnil
    rw [Stringstream.extract] at hx
    simp [Stringstream.of_text, Stringstream.good, hnil] at hx
  rw [extract_field rfl hne] at hx
  have hle := field_length text
  refine ⟨hne, ?_⟩
  rw [← to_range_field (by omega)]
  exact congrArg Int32.toInt (Option.some.inj hx).symm

/-- The four bytes of a number, read as a text, are never a decimal text of that number. -/
lemma extract_ne (x : Int32) :
    ((Stringstream.of_text ((le_bytes x).takeWhile fun b => b ≠ 0)).extract none).1 ≠ some x := by
  obtain ⟨b₀, b₁, b₂, b₃, hbytes, hn⟩ := le_bytes_toNat x
  rw [hbytes]
  intro hx
  have hlen := raw_text_length b₀ b₁ b₂ b₃
  obtain ⟨hne, hvalue⟩ := extracted_value hlen hx
  cases toInt_cases x with
  | inl hpos =>
    rw [hpos.1, hn] at hvalue
    push_cast at hvalue
    exact raw_ne_value hne hvalue.symm
  | inr hneg =>
    -- a text of four characters is above -10 ^ 4, so the upper bytes are nearly all ones
    have hbound := field_value_bound ((field_length _).trans hlen)
    change x.toInt = field_value ((raw_text b₀ b₁ b₂ b₃).dropWhile isspace) at hvalue
    have h₀ := b₀.toNat_lt
    have h₁ := b₁.toNat_lt
    have h₂ := b₂.toNat_lt
    have h₃ := b₃.toNat_lt
    have hhigh : 58 ≤ b₁.toNat := by omega
    have hlt : field_value ((raw_text b₀ b₁ b₂ b₃).dropWhile isspace) < 0 := by omega
    exact raw_not_neg hhigh hlt

/-- Both decoders are wrong: the constructor copies from its fields to the bytes, and `restore`
reads the bytes as a decimal text. -/
theorem header_codec_fails (h : MsgHeader) :
    ¬ h.RoundTrips ∧
      (MsgHeader.of_buf (h.save (List.replicate MSG_HEADER_SIZE 0)) =
        (h, h.save (List.replicate MSG_HEADER_SIZE 0)) ↔ h = ⟨0, 0⟩) ∧
      MsgHeader.restore (Stringstream.of_text (h.save (List.replicate MSG_HEADER_SIZE 0))) ≠
        some h.fields := by
  have hrestore : MsgHeader.restore (Stringstream.of_text h.bytes) ≠ some h.fields := by
    intro heq
    have htext := c_string_zeros (k := 28) (by decide) (le_bytes h.type)
    have hread : (Stringstream.of_text h.bytes).read 4 (List.replicate 32 0) =
        (le_bytes h.type ++ List.replicate 28 0, Stringstream.of_text (le_bytes h.size)) := rfl
    simp only [MsgHeader.restore, hread, htext, Option.bind_eq_bind, Option.bind_some,
      Option.bind_eq_some_iff] at heq
    obtain ⟨text, -, heq⟩ := heq
    exact extract_ne h.type (congrArg HeaderFields.type (Option.some.inj heq))
  rw [← save_bytes] at hrestore
  refine ⟨fun hr => hrestore hr.restore, ⟨?_, ?_⟩, hrestore⟩
  · intro heq
    exact (congrArg Prod.fst heq).symm
  · rintro rfl
    rfl

theorem header_codec_breaks : ¬ (MsgHeader.mk 49 50).RoundTrips := by
  intro h
  exact absurd h.restore (by decide)

lemma c_string_int_text (b : Int32) :
    c_string (ascii (int_text b.toInt) ++ [0]) = some (ascii (int_text b.toInt)) := by
  have hclean : 0 ∉ ascii (int_text b.toInt) := fun h => by simpa using mem_ascii_int_text h
  exact c_string_clean (k := 1) hclean

/-- The decimal texts of headers and of blocks are read back over the whole range of `int`. -/
theorem text_codecs_round_trip :
    (∀ h : MsgHeader, MsgHeader.of_string h.to_string = h.fields) ∧
      ∀ b : Int32, util_get_block
        ((util_serialize_block b (Stringstream.of_text [])).unread ++ [0]) = some b := by
  constructor
  · intro h
    have htype := extract_int_text [] (32 :: ascii (int_text h.size.toInt)) (by simp)
      (by simp [isdigit]) h.type none
    have hsize := extract_int_text [32] [] (by simp [isspace]) (by simp) h.size none
    simp only [List.nil_append, List.append_nil, List.singleton_append, List.cons_ne_nil,
      decide_false] at htype hsize
    rw [MsgHeader.of_string, MsgHeader.to_string, List.append_assoc, List.singleton_append, htype]
    exact congrArg (fun r => HeaderFields.mk (some h.type) r.1) hsize
  · intro b
    have hb := extract_int_text [] [] (by simp) (by simp) b none
    have htext : (util_serialize_block b (Stringstream.of_text [])).unread =
        ascii (int_text b.toInt) := rfl
    simp only [List.nil_append, List.append_nil] at hb
    rw [htext, util_get_block, c_string_int_text]
    exact congrArg Prod.fst hb

end Xcoin
