import Xcoin.Receive.Framing

/-! The size a header declares: a `size_t` that becomes an `int32_t` on one machine and a
`size_t` again on the other. -/

namespace Xcoin

open Lib.Archives Lib.Bytes Lib.Decimal Lib.TextTokens

/-- The archive writes the data of a ping and an overhead given by the lengths of its numbers. -/
structure TextEncoding (A : Archive PingMsg) (overhead : ℕ → ℕ → ℕ → ℕ) : Prop where
  length : ∀ start hop msg_size, (A.save (PingMsg.new start hop msg_size)).length =
    1024 * msg_size + overhead (int_text start.toInt).length (int_text hop).length
      (digits (1024 * msg_size)).length
  positive : ∀ i j k, 0 < overhead i j k

-- `to_read_` after the header of the frame is the number of bytes behind it
def DeclaresSize (A : Archive PingMsg) (m : PingMsg) : Prop :=
  ∀ s : Connection, s.to_read_ = 0 → s.input = [] →
    ∃ u, receive A s ((ping_frame A m).take MSG_HEADER_SIZE) = .ok u ∧
      u.to_read_ = ((ping_frame A m).drop MSG_HEADER_SIZE).length

variable {A : Archive PingMsg} {m : PingMsg} {overhead : ℕ → ℕ → ℕ → ℕ} {n : ℕ}

/-- The conversions give back exactly the sizes that an `int32_t` holds. -/
lemma size_round_trip_iff (hn : n < 2 ^ 63) : to_size_t (Int32.ofNat n) = n ↔ n < 2 ^ 31 := by
  constructor
  · intro h
    have hlo := (Int32.ofNat n).le_toInt
    have hhi := (Int32.ofNat n).toInt_lt
    rw [to_size_t] at h
    omega
  · exact size_round_trip

lemma header_only (s : Connection) (hzero : s.to_read_ = 0) (hinput : s.input = []) (n : ℕ) :
    ∃ u, receive A s (MsgHeader.mk MSG_TYPE_PING (Int32.ofNat n)).bytes = .ok u ∧
      u.to_read_ = to_size_t (Int32.ofNat n) ∧ u.input = [] := by
  let header := MsgHeader.mk MSG_TYPE_PING (Int32.ofNat n)
  have hall : s.input ++ header.bytes = header.bytes ++ [] := by
    rw [hinput, List.nil_append, List.append_nil]
  have hcall := callback_header_eq (A := A)
    (s := { s with input := s.input ++ header.bytes }) hzero hall
  rw [if_neg (not_not_intro rfl)] at hcall
  exact ⟨_, hcall.trans (read_body_stop (Or.inr rfl) 0), rfl, rfl⟩

lemma declares_iff : DeclaresSize A m ↔
    to_size_t (Int32.ofNat (A.save m).length) = (A.save m).length := by
  obtain ⟨hlen, -⟩ := header_round_trip ⟨MSG_TYPE_PING, Int32.ofNat (A.save m).length⟩
  have htake : (ping_frame A m).take MSG_HEADER_SIZE =
      (MsgHeader.mk MSG_TYPE_PING (Int32.ofNat (A.save m).length)).bytes := by
    rw [ping_frame, wire, ← hlen, List.take_left]
  have hdrop : (ping_frame A m).drop MSG_HEADER_SIZE = A.save m := by
    rw [ping_frame, wire, ← hlen, List.drop_left]
  rw [DeclaresSize, htake, hdrop]
  constructor
  · intro h
    obtain ⟨u, hu, hsize⟩ := h (.fresh false) rfl rfl
    obtain ⟨v, hv, hread, -⟩ := header_only (A := A) (.fresh false) rfl rfl (A.save m).length
    obtain rfl : u = v := Except.ok.inj (hu.symm.trans hv)
    rw [← hread, hsize]
  · intro h s hzero hinput
    obtain ⟨u, hu, hread, -⟩ := header_only (A := A) s hzero hinput (A.save m).length
    exact ⟨u, hu, hread.trans h⟩

/-- The declared size is the real one exactly when the payload is shorter than 2 GiB. -/
theorem declared_size_iff (henc : TextEncoding A overhead) (start : Int64) (hop : Int32)
    (msg_size : ℕ)
    (hmax : (A.save (PingMsg.new start hop.toInt msg_size)).length < 2 ^ 63) :
    DeclaresSize A (PingMsg.new start hop.toInt msg_size) ↔
      1024 * msg_size + overhead (int_text start.toInt).length (int_text hop.toInt).length
        (digits (1024 * msg_size)).length < 2 ^ 31 := by
  rw [declares_iff, size_round_trip_iff hmax, henc.length]

def text_overhead (i j k : ℕ) : ℕ := archive_start.length + (i + 1) + (j + 1) + 2 * (k + 1)

lemma number_length (z : ℤ) : (number z).length = (int_text z).length + 1 := by
  simp [number, ascii]

lemma int_text_nat (n : ℕ) : int_text n = digits n := by
  simp [int_text]

lemma text_encoding : TextEncoding textArchive text_overhead where
  length start hop msg_size := by
    have hshift : msg_size <<< 10 = 1024 * msg_size := by
      rw [Nat.shiftLeft_eq]
      omega
    have hbytes : (bytes (PingMsg.new start hop msg_size).data).length = 1024 * msg_size := by
      rw [PingMsg.new, bytes_xs, List.length_replicate, hshift]
    have hsave : textArchive.save (PingMsg.new start hop msg_size) =
        (PingMsg.new start hop msg_size).text := rfl
    rw [hsave, PingMsg.text]
    simp only [List.length_append, counted, number_length, hbytes]
    simp only [PingMsg.new, hshift, int_text_nat, text_overhead]
    omega
  positive i j k := by
    rw [text_overhead]
    omega

lemma sample_overhead {msg_size : ℕ} (h : msg_size < 2 ^ 31) :
    text_overhead (int_text (0 : Int64).toInt).length (int_text (1 : Int32).toInt).length
      (digits (1024 * msg_size)).length ≤ 65 := by
  have hdigits : (digits (1024 * msg_size)).length ≤ 13 := digits_length_le (by decide) (by omega)
  have hstart : archive_start.length = 33 := by decide
  have hzero : (int_text (0 : Int64).toInt).length = 1 := by decide
  have hone : (int_text (1 : Int32).toInt).length = 1 := by decide
  rw [text_overhead, hstart, hzero, hone]
  omega

lemma sample_max {msg_size : ℕ} (h : msg_size < 2 ^ 31) :
    (textArchive.save (PingMsg.new 0 (1 : Int32).toInt msg_size)).length < 2 ^ 63 := by
  have hle := sample_overhead h
  rw [text_encoding.length]
  omega

theorem declared_size_sample :
    DeclaresSize textArchive (PingMsg.new 0 (1 : Int32).toInt 2097151) := by
  apply (declared_size_iff text_encoding 0 1 2097151 (sample_max (by decide))).mpr
  have hle := sample_overhead (show 2097151 < 2 ^ 31 by decide)
  omega

theorem declared_size_wraps :
    ¬ DeclaresSize textArchive (PingMsg.new 0 (1 : Int32).toInt 2097152) := by
  rw [declares_iff, size_round_trip_iff (sample_max (by decide)), text_encoding.length]
  omega

end Xcoin
