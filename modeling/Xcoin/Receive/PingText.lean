import Xcoin.Lib.TextTokens
import Xcoin.Receive.Client

/-! The text of a ping in an archive: the fields in the order of `PingMsg::serialize`. -/

namespace Xcoin

open Lib.Archives Lib.TextTokens

def PingMsg.text (m : PingMsg) : List UInt8 :=
  archive_start ++ (number m.start_us.toInt ++
    (number m.hop ++ (number m.data_size ++ counted m.data)))

lemma ping_text_delimited : Delimited PingMsg.text := by
  have hfields := number_delimited.pair (number_delimited.pair
    ((number_delimited.comap Nat.cast_injective).pair counted_delimited))
  apply (hfields.after archive_start).comap
    (f := fun m : PingMsg => (m.start_us.toInt, m.hop, m.data_size, m.data))
  intro m m' h
  simp only [Prod.mk.injEq, Int64.toInt_inj] at h
  cases m
  cases m'
  simpa using h

noncomputable def textArchive : Archive PingMsg := Archive.ofDelimited ping_text_delimited

lemma textArchive_exact : textArchive.Exact := ofDelimited_exact ping_text_delimited

instance : Nontrivial PingMsg := ⟨PingMsg.new 0 1 0, PingMsg.new 0 2 0, by simp [PingMsg.new]⟩

lemma bytes_xs (n : ℕ) : bytes (String.ofList (List.replicate n 'x')) = List.replicate n 120 := by
  rw [bytes_ascii, ascii, List.map_replicate]
  · rfl
  · intro c hc
    rw [List.eq_of_mem_replicate hc]
    decide

lemma ping_text_clean (start : Int64) (hop : ℤ) (msg_size : ℕ) :
    0 ∉ (PingMsg.new start hop msg_size).text := by
  have hdata : 0 ∉ bytes (PingMsg.new start hop msg_size).data := by
    rw [PingMsg.new, bytes_xs]
    exact fun hz => absurd (List.eq_of_mem_replicate hz) (by decide)
  simp only [PingMsg.text, List.mem_append, not_or]
  exact ⟨by decide, number_clean _, number_clean _, number_clean _, counted_clean hdata⟩

def samplePing (hop : ℤ) : PingMsg := PingMsg.new 0 hop 0

lemma sample_fits : ∀ m ∈ [samplePing 1, samplePing 2], Fits (textArchive.save m) := by
  intro m hm
  fin_cases hm
  · exact ⟨by decide, ping_text_clean _ _ _, by decide⟩
  · exact ⟨by decide, ping_text_clean _ _ _, by decide⟩

end Xcoin
