import Xcoin.Blocks.Block

/-! The hexadecimal text of a digest, which `sha1` prints without leading zeros of the bytes. -/

namespace Xcoin

def hex_digits (byte : UInt8) : List Char := Nat.toDigits 16 byte.toNat

-- the conversion loop of `sha1`
def to_hex (buf : Digest) : String := String.ofList (buf.toList.flatMap hex_digits)

def narrow (byte : UInt8) : Bool := byte < 16

-- the places of the bytes that are printed with one digit
def Digest.narrows (buf : Digest) : Vector Bool SHA_DIGEST_LENGTH := buf.map narrow

example (SHA1 : String → Digest) (s : String) : sha1 SHA1 s = to_hex (SHA1 s) := rfl

lemma digit_inj {m n : ℕ} (hm : m < 16) (hn : n < 16) (h : m.digitChar = n.digitChar) : m = n := by
  have hall : ∀ a b : Fin 16, Nat.digitChar a = Nat.digitChar b → a = b := by decide
  exact congrArg Fin.val (hall ⟨m, hm⟩ ⟨n, hn⟩ h)

lemma hex_digits_eq (byte : UInt8) : hex_digits byte =
    if byte < 16 then [byte.toNat.digitChar]
    else [(byte.toNat / 16).digitChar, (byte.toNat % 16).digitChar] := by
  have hlt := byte.toNat_lt
  have hiff : byte < 16 ↔ byte.toNat < 16 := UInt8.lt_iff_toNat_lt
  rw [hex_digits, Nat.toDigits_eq_if (by decide), Nat.toDigits_of_lt_base (by omega)]
  by_cases h : byte.toNat < 16
  · rw [if_pos h, if_pos (hiff.mpr h)]
  · rw [if_neg h, if_neg (hiff.not.mpr h)]
    rfl

lemma hex_digits_length (byte : UInt8) :
    (hex_digits byte).length = if narrow byte = true then 1 else 2 := by
  rw [hex_digits_eq]
  by_cases h : byte < 16 <;> simp [narrow, h]

lemma hex_digits_inj : Function.Injective hex_digits := by
  intro a b h
  have ha := a.toNat_lt
  have hb := b.toNat_lt
  have hia : a < 16 ↔ a.toNat < 16 := UInt8.lt_iff_toNat_lt
  have hib : b < 16 ↔ b.toNat < 16 := UInt8.lt_iff_toNat_lt
  apply UInt8.toNat_inj.mp
  rw [hex_digits_eq, hex_digits_eq] at h
  split at h <;> split at h
  · rename_i h₁ h₂
    exact digit_inj (hia.mp h₁) (hib.mp h₂) (List.singleton_inj.mp h)
  · simp at h
  · simp at h
  · simp only [List.cons.injEq, and_true] at h
    have hdiv := digit_inj (by omega) (by omega) h.1
    have hmod := digit_inj (by omega) (by omega) h.2
    omega

lemma text_length (bytes : List UInt8) :
    (bytes.flatMap hex_digits).length + (bytes.map narrow).count true = 2 * bytes.length := by
  induction bytes with
  | nil => rfl
  | cons byte bytes ih =>
    rw [List.flatMap_cons, List.length_append, hex_digits_length, List.map_cons, List.count_cons,
      List.length_cons]
    cases h : narrow byte <;> simp [-List.length_flatMap] <;> omega

lemma same_narrow_inj {bytes bytes' : List UInt8} (hn : bytes.map narrow = bytes'.map narrow)
    (h : bytes.flatMap hex_digits = bytes'.flatMap hex_digits) : bytes = bytes' := by
  apply (List.map_injective_iff.mpr hex_digits_inj)
  rw [List.eq_iff_flatten_eq]
  refine ⟨by simpa only [List.flatMap_def] using h, ?_⟩
  have hwidth : ∀ l : List UInt8, (l.map hex_digits).map List.length =
      (l.map narrow).map fun b => if b = true then 1 else 2 := by
    intro l
    rw [List.map_map, List.map_map]
    exact List.map_congr_left fun byte _ => hex_digits_length byte
  rw [hwidth, hwidth, hn]

-- bytes of the given widths that are printed with ones only
def one_byte (b : Bool) : UInt8 := if b then 0x01 else 0x11

lemma narrow_one_byte (b : Bool) : narrow (one_byte b) = b := by cases b <;> decide

lemma one_bytes_text (bs : List Bool) :
    (bs.map one_byte).flatMap hex_digits =
      List.replicate (2 * bs.length - bs.count true) '1' := by
  apply List.eq_replicate_iff.mpr
  constructor
  · have hlen := text_length (bs.map one_byte)
    have hmap : (bs.map one_byte).map narrow = bs := by
      rw [List.map_map]
      exact (List.map_congr_left fun b _ => narrow_one_byte b).trans (List.map_id bs)
    rw [hmap, List.length_map] at hlen
    omega
  · intro c hc
    obtain ⟨byte, hbyte, hc⟩ := List.mem_flatMap.mp hc
    obtain ⟨b, -, rfl⟩ := List.mem_map.mp hbyte
    cases b with
    | true => exact List.mem_singleton.mp hc
    | false =>
      have hones : hex_digits (one_byte false) = ['1', '1'] := by decide
      rw [hones] at hc
      simpa using hc

/-- Digests are kept apart by their texts, and identifiers by the digests behind them, exactly
when the one-digit bytes stand at the same places in both, or are not equally many. -/
theorem hex_digits_iff (p q : Vector Bool SHA_DIGEST_LENGTH) :
    ((∀ d d' : Digest, d.narrows = p → d'.narrows = q → d ≠ d' → to_hex d ≠ to_hex d') ∧
      ∀ (SHA1 : String → Digest) (a b : Block),
        (SHA1 a.header_text).narrows = p → (SHA1 b.header_text).narrows = q →
        a.get_hash SHA1 = b.get_hash SHA1 → SHA1 a.header_text = SHA1 b.header_text) ↔
    p = q ∨ p.count true ≠ q.count true := by
  have hcount : ∀ d : Digest, (d.toList.flatMap hex_digits).length + d.narrows.count true =
      2 * SHA_DIGEST_LENGTH := by
    intro d
    have hlen := text_length d.toList
    rw [Vector.length_toList] at hlen
    rw [Digest.narrows, ← Vector.count_toList, Vector.toList_map, hlen]
  constructor
  · rintro ⟨hall, -⟩
    by_contra hno
    obtain ⟨hne, heq⟩ := not_or.mp hno
    have heq := not_not.mp heq
    have hones : ∀ r : Vector Bool SHA_DIGEST_LENGTH,
        Digest.narrows (r.map one_byte) = r := by
      intro r
      rw [Digest.narrows, Vector.map_map]
      exact (Vector.map_congr_left fun b _ => narrow_one_byte b).trans (Vector.map_id r)
    apply hall (p.map one_byte) (q.map one_byte) (hones p) (hones q)
    · intro h
      apply hne
      rw [← hones p, h, hones q]
    · rw [to_hex, to_hex, Vector.toList_map, Vector.toList_map, one_bytes_text, one_bytes_text,
        Vector.count_toList, Vector.count_toList, heq, Vector.length_toList, Vector.length_toList]
  · intro hpq
    have hinj : ∀ d d' : Digest, d.narrows = p → d'.narrows = q → to_hex d = to_hex d' →
        d = d' := by
      rintro d d' rfl rfl h
      have htext := String.ofList_injective h
      rcases hpq with hpq | hpq
      · apply Vector.toList_inj.mp
        apply same_narrow_inj _ htext
        rw [← Vector.toList_map, ← Vector.toList_map]
        exact congrArg Vector.toList hpq
      · have hd := hcount d
        have hd' := hcount d'
        rw [htext] at hd
        omega
    refine ⟨fun d d' hd hd' hne h => hne (hinj d d' hd hd' h), ?_⟩
    intro SHA1 a b ha hb h
    exact hinj _ _ ha hb h

-- the digests 01 10 00 ... and 11 00 00 ...
theorem hex_digits_collide :
    ¬ ∀ d d' : Digest, d ≠ d' → to_hex d ≠ to_hex d' := by
  intro h
  refine h #v[0x01, 0x10, 0, 0, 0, 0, 0, 0, 0, 0, 0, 0, 0, 0, 0, 0, 0, 0, 0, 0]
    #v[0x11, 0x00, 0, 0, 0, 0, 0, 0, 0, 0, 0, 0, 0, 0, 0, 0, 0, 0, 0, 0] ?_ (by decide)
  intro he
  exact absurd (congrArg Vector.toList he) (by decide)

end Xcoin
