import Xcoin.Blocks.Block
import Xcoin.Lib.Decimal

/-! The text of a header, its fields printed one after another without a separator. -/

namespace Xcoin

open Lib.Decimal

structure Widths where
  prev : ℕ
  index : ℕ
  nbit : ℕ
  deriving DecidableEq

def Widths.total (w : Widths) : ℕ := w.prev + w.index + w.nbit

def Block.widths (b : Block) : Widths :=
  ⟨b.prev_hash_.length, (toString b.index_).length, (toString b.nbit_).length⟩

/-- No `nonce_` is long enough to make up for the difference of the widths. -/
def Widths.Apart (w w' : Widths) : Prop :=
  w.total + 10 < w'.total ∨ (w.total + 10 = w'.total ∧ w'.prev ≤ w.total)

lemma toList_uint (x : UInt32) : (toString x).toList = digits x.toNat := Nat.toList_repr

lemma toList_int (x : Int32) : (toString x).toList = int_text x.toInt := by
  change (Int.repr x.toInt).toList = _
  rw [Int.repr_eq_if, int_text]
  split
  · exact Nat.toList_repr
  · rw [String.toList_append, Nat.toList_repr]
    rfl

lemma header_text_toList (b : Block) : b.header_text.toList =
    b.prev_hash_.toList ++
      (digits b.index_.toNat ++ (digits b.nbit_.toNat ++ int_text b.nonce_.toInt)) := by
  rw [Block.header_text, String.toList_append, String.toList_append, String.toList_append,
    toList_uint, toList_uint, toList_int]
  simp only [List.append_assoc]

lemma widths_eq (b : Block) : b.widths =
    ⟨b.prev_hash_.toList.length, (digits b.index_.toNat).length,
      (digits b.nbit_.toNat).length⟩ := by
  simp only [Block.widths, ← String.length_toList, toList_uint]

lemma header_text_length (b : Block) :
    b.header_text.toList.length = b.widths.total + (int_text b.nonce_.toInt).length := by
  rw [header_text_toList, widths_eq, Widths.total]
  simp only [List.length_append]
  omega

lemma uint_width (x : UInt32) : 0 < (digits x.toNat).length ∧ (digits x.toNat).length ≤ 10 := by
  have hlt := x.toNat_lt
  exact ⟨digits_length_pos _, digits_length_le (by decide) (by omega)⟩

lemma nonce_width (x : Int32) : (int_text x.toInt).length ≤ 10 ∨
    ((int_text x.toInt).length ≤ 11 ∧ (int_text x.toInt).head? = some '-') := by
  have hlt := x.toInt_lt
  have hge := x.le_toInt
  exact int_text_length_le (by decide) (by omega)

lemma same_widths_text {a b : Block} (hw : a.widths = b.widths)
    (h : a.header_text = b.header_text) : a.header = b.header := by
  have htext := congrArg String.toList h
  rw [header_text_toList, header_text_toList] at htext
  rw [widths_eq, widths_eq, Widths.mk.injEq] at hw
  obtain ⟨hprev, htext⟩ := List.append_inj htext hw.1
  obtain ⟨hindex, htext⟩ := List.append_inj htext hw.2.1
  obtain ⟨hnbit, hnonce⟩ := List.append_inj htext hw.2.2
  rw [Block.header, Block.header, Header.mk.injEq]
  exact ⟨String.toList_inj.mp hprev, UInt32.toNat_inj.mp (digits_inj hindex),
    UInt32.toNat_inj.mp (digits_inj hnbit), Int32.toInt_inj.mp (int_text_inj hnonce)⟩

lemma apart_text {a b : Block} (hw : a.widths.Apart b.widths) :
    a.header_text ≠ b.header_text := by
  intro h
  have htext := congrArg String.toList h
  have ha := header_text_length a
  have hb := header_text_length b
  have hpos := int_text_length_pos b.nonce_.toInt
  have hlen := congrArg List.length htext
  have hnonce := nonce_width a.nonce_
  rcases hw with hw | ⟨hw, hprev⟩
  · omega
  · -- the minus sign of the longer nonce stands where the other header has a digit
    obtain ⟨-, hhead⟩ : (int_text a.nonce_.toInt).length ≤ 11 ∧
        (int_text a.nonce_.toInt).head? = some '-' := by
      cases hnonce with
      | inl hle => omega
      | inr hle => exact hle
    have hminus : a.header_text.toList[a.widths.total]? = some '-' := by
      rw [header_text_toList, ← List.append_assoc, ← List.append_assoc,
        List.getElem?_append_right]
      · rw [widths_eq, Widths.total]
        simp only [List.length_append, Nat.add_assoc, Nat.sub_self]
        rw [← List.head?_eq_getElem?, hhead]
      · rw [widths_eq, Widths.total]
        simp only [List.length_append, Nat.add_assoc, le_refl]
    have hbw := widths_eq b
    have hlow : b.prev_hash_.toList.length ≤ a.widths.total := by
      rw [hbw] at hprev
      exact hprev
    have hhigh : a.widths.total - b.prev_hash_.toList.length <
        (digits b.index_.toNat ++ digits b.nbit_.toNat).length := by
      have htotal := congrArg Widths.total hbw
      simp only [Widths.total] at htotal hw hlow ⊢
      rw [List.length_append]
      omega
    rw [htext, header_text_toList, ← List.append_assoc (digits _),
      List.getElem?_append_right hlow, List.getElem?_append_left hhigh] at hminus
    have hmem := List.mem_of_getElem? hminus
    cases List.mem_append.mp hmem with
    | inl hmem => exact digits_not (by decide) hmem
    | inr hmem => exact digits_not (by decide) hmem

-- a block of the given widths whose fields before `nonce_` are printed with ones only
def Widths.ones (w : Widths) (nonce : Int32) : Block where
  index_ := UInt32.ofNat (repunit w.index)
  prev_hash_ := String.ofList (List.replicate w.prev '1')
  nbit_ := UInt32.ofNat (repunit w.nbit)
  nonce_ := nonce
  miner_ := ""

lemma repunit_lt {k : ℕ} (hk : k ≤ 10) : repunit k < 2 ^ 31 := by
  have hmono := repunit_mono hk
  have hten : repunit 10 < 2 ^ 31 := by decide
  omega

lemma digits_uint_ones {k : ℕ} (hpos : 0 < k) (hk : k ≤ 10) :
    digits (UInt32.ofNat (repunit k)).toNat = List.replicate k '1' := by
  have hlt := repunit_lt hk
  rw [UInt32.toNat_ofNat_of_lt' (by change repunit k < 2 ^ 32; omega), digits_repunit hpos]

lemma int_text_ones {k : ℕ} (hpos : 0 < k) (hk : k ≤ 10) :
    int_text (Int32.ofNat (repunit k)).toInt = List.replicate k '1' := by
  rw [Int32.toInt_ofNat_of_lt (repunit_lt hk), int_text, if_pos (Int.natCast_nonneg _),
    Int.toNat_natCast, digits_repunit hpos]

lemma ones_widths {w : Widths} (nonce : Int32) (hi : 0 < w.index ∧ w.index ≤ 10)
    (hn : 0 < w.nbit ∧ w.nbit ≤ 10) : (w.ones nonce).widths = w := by
  rw [widths_eq, Widths.ones, digits_uint_ones hi.1 hi.2, digits_uint_ones hn.1 hn.2]
  simp only [String.toList_ofList, List.length_replicate]

lemma ones_text {w : Widths} (nonce : Int32) (hi : 0 < w.index ∧ w.index ≤ 10)
    (hn : 0 < w.nbit ∧ w.nbit ≤ 10) :
    (w.ones nonce).header_text.toList = List.replicate w.total '1' ++ int_text nonce.toInt := by
  rw [header_text_toList, Widths.ones, digits_uint_ones hi.1 hi.2, digits_uint_ones hn.1 hn.2,
    String.toList_ofList, Widths.total]
  simp only [← List.append_assoc, List.replicate_append_replicate, Nat.add_assoc]

lemma widths_range (b : Block) :
    (0 < b.widths.index ∧ b.widths.index ≤ 10) ∧ (0 < b.widths.nbit ∧ b.widths.nbit ≤ 10) := by
  rw [widths_eq]
  exact ⟨uint_width b.index_, uint_width b.nbit_⟩

def Widths.Collide (w w' : Widths) : Prop :=
  ∃ a b : Block, a.widths = w ∧ b.widths = w' ∧ a.header_text = b.header_text

lemma Widths.Collide.symm {w w' : Widths} (h : w.Collide w') : w'.Collide w := by
  obtain ⟨a, b, ha, hb, htext⟩ := h
  exact ⟨b, a, hb, ha, htext.symm⟩

lemma collide_ones {a b : Block} (hle : a.widths.total ≤ b.widths.total)
    (hdiff : b.widths.total < a.widths.total + 10) : a.widths.Collide b.widths := by
  obtain ⟨hai, han⟩ := widths_range a
  obtain ⟨hbi, hbn⟩ := widths_range b
  let k := b.widths.total - a.widths.total + 1
  refine ⟨a.widths.ones (Int32.ofNat (repunit k)), b.widths.ones (Int32.ofNat (repunit 1)),
    ones_widths _ hai han, ones_widths _ hbi hbn, String.toList_inj.mp ?_⟩
  rw [ones_text _ hai han, ones_text _ hbi hbn, int_text_ones (Nat.succ_pos _) (by omega),
    int_text_ones (by decide) (by decide), List.replicate_append_replicate,
    List.replicate_append_replicate]
  congr 1
  omega

-- the longest nonce of the shorter header has its minus sign inside the other's `prev_hash_`
lemma collide_minus {a b : Block} (hdiff : b.widths.total = a.widths.total + 10)
    (hprev : a.widths.total < b.widths.prev) : a.widths.Collide b.widths := by
  obtain ⟨hai, han⟩ := widths_range a
  obtain ⟨hbi, hbn⟩ := widths_range b
  let nonce : Int32 := -1111111111
  have hnonce : int_text nonce.toInt = '-' :: List.replicate 10 '1' := by decide
  let prev := List.replicate a.widths.total '1' ++
    '-' :: List.replicate (b.widths.prev - a.widths.total - 1) '1'
  let b' : Block :=
    { b.widths.ones (Int32.ofNat (repunit 1)) with prev_hash_ := String.ofList prev }
  have hlen : prev.length = b.widths.prev := by
    simp only [prev, List.length_append, List.length_cons, List.length_replicate]
    omega
  refine ⟨a.widths.ones nonce, b', ones_widths _ hai han, ?_, String.toList_inj.mp ?_⟩
  · rw [widths_eq]
    simp only [b', Widths.ones, digits_uint_ones hbi.1 hbi.2, digits_uint_ones hbn.1 hbn.2,
      String.toList_ofList, List.length_replicate, hlen]
  · rw [ones_text _ hai han, hnonce, header_text_toList]
    simp only [b', Widths.ones, String.toList_ofList, prev]
    rw [digits_uint_ones hbi.1 hbi.2, digits_uint_ones hbn.1 hbn.2,
      int_text_ones (by decide) (by decide), List.replicate_append_replicate,
      List.replicate_append_replicate, List.append_assoc, List.cons_append,
      List.replicate_append_replicate]
    congr 3
    have htotal : b.widths.total = b.widths.prev + b.widths.index + b.widths.nbit := rfl
    omega

/-- Headers of two given widths never share their text exactly when the widths are the same,
or too far apart for a nonce to bridge. -/
theorem header_text_iff (a b : Block) :
    ((∀ x y : Block, x.widths = a.widths → y.widths = b.widths → x.header ≠ y.header →
        x.header_text ≠ y.header_text) ∧
      ∀ sha1 : String → String, Function.Injective sha1 → ∀ x y : Block, x.widths = a.widths →
        y.widths = b.widths → sha1 x.header_text = sha1 y.header_text → x.header = y.header) ↔
    a.widths = b.widths ∨ a.widths.Apart b.widths ∨ b.widths.Apart a.widths := by
  constructor
  · rintro ⟨hall, -⟩
    by_contra hno
    obtain ⟨hne, hab⟩ := not_or.mp hno
    obtain ⟨hab, hba⟩ := not_or.mp hab
    simp only [Widths.Apart, not_or, not_and, not_lt, not_le] at hab hba
    have hcollide : a.widths.Collide b.widths := by
      rcases le_total a.widths.total b.widths.total with hle | hle
      · by_cases hten : b.widths.total = a.widths.total + 10
        · exact collide_minus hten (hab.2 hten.symm)
        · exact collide_ones hle (by omega)
      · apply Widths.Collide.symm
        by_cases hten : a.widths.total = b.widths.total + 10
        · exact collide_minus hten (hba.2 hten.symm)
        · exact collide_ones hle (by omega)
    obtain ⟨x, y, hx, hy, htext⟩ := hcollide
    refine hall x y hx hy ?_ htext
    intro hhead
    apply hne
    rw [Block.header, Block.header, Header.mk.injEq] at hhead
    rw [← hx, ← hy, Block.widths, Block.widths, hhead.1, hhead.2.1, hhead.2.2.1]
  · intro hcond
    have hinj : ∀ x y : Block, x.widths = a.widths → y.widths = b.widths →
        x.header_text = y.header_text → x.header = y.header := by
      intro x y hx hy htext
      rw [← hx, ← hy] at hcond
      rcases hcond with hw | hw | hw
      · exact same_widths_text hw htext
      · exact (apart_text hw htext).elim
      · exact (apart_text hw htext.symm).elim
    refine ⟨fun x y hx hy hne h => hne (hinj x y hx hy h), ?_⟩
    intro sha1 hsha x y hx hy h
    exact hinj x y hx hy (hsha h)

-- `1` `5` `51` and `15` `5` `1`
theorem header_text_collides :
    ¬ ∀ a b : Block, a.header ≠ b.header → a.header_text ≠ b.header_text := by
  intro h
  exact h ⟨1, g_genesis_hash, 5, 51, "peer1"⟩ ⟨15, g_genesis_hash, 5, 1, "peer1"⟩ (by decide)
    (by decide)

end Xcoin
