import Xcoin.Receive.Accounting
import Xcoin.Receive.FrameSize

/-! What `buf_read_cb` takes for headers and bodies is settled by the sizes alone, byte by byte,
wherever the stream is cut and whatever the messages are. -/

namespace Xcoin

open Lib.Runs Lib.Archives Lib.Bytes

structure Skim where
  head : List UInt8
  to_read_ : ℕ
  -- how many bodies are complete
  bodies : ℕ
  deriving DecidableEq

def Skim.next (k : Skim) (b : UInt8) : Skim :=
  if k.to_read_ = 0 then
    match MsgHeader.of_bytes (k.head ++ [b]) with
    | none => { k with head := k.head ++ [b] }
    | some header => { k with head := [], to_read_ := to_size_t header.size }
  else { k with
    to_read_ := k.to_read_ - 1
    bodies := if k.to_read_ = 1 then k.bodies + 1 else k.bodies }

def skim (bytes : List UInt8) : Skim := bytes.foldl Skim.next ⟨[], 0, 0⟩

variable {A : Archive PingMsg} {c d : Connection} {data bytes : List UInt8} {n t fuel : ℕ}

lemma skim_head (h : data.length < MSG_HEADER_SIZE) :
    data.foldl Skim.next ⟨[], 0, n⟩ = ⟨data, 0, n⟩ := by
  induction data using List.reverseRecOn with
  | nil => rfl
  | append_singleton data b ih =>
    have hlt : data.length < MSG_HEADER_SIZE := by
      rw [List.length_append] at h
      omega
    rw [List.foldl_append, ih hlt, List.foldl_cons, List.foldl_nil, Skim.next, if_pos rfl]
    simp only [header_short h]

lemma skim_header {header : MsgHeader} (h : MsgHeader.of_bytes data = some header) :
    data.foldl Skim.next ⟨[], 0, n⟩ = ⟨[], to_size_t header.size, n⟩ := by
  have hlen := of_bytes_length h
  cases data using List.reverseRecOn with
  | nil => simp [MSG_HEADER_SIZE] at hlen
  | append_singleton data b =>
    have hlt : data.length < MSG_HEADER_SIZE := by
      rw [List.length_append, List.length_singleton] at hlen
      omega
    rw [List.foldl_append, skim_head hlt, List.foldl_cons, List.foldl_nil, Skim.next, if_pos rfl]
    simp only [h]

lemma skim_next (ht : t ≠ 0) (b : UInt8) :
    Skim.next ⟨[], t, n⟩ b = ⟨[], t - 1, if t = 1 then n + 1 else n⟩ := if_neg ht

lemma skim_inside (h : data.length < t) :
    data.foldl Skim.next ⟨[], t, n⟩ = ⟨[], t - data.length, n⟩ := by
  induction data generalizing t with
  | nil => rfl
  | cons b data ih =>
    rw [List.length_cons] at h
    rw [List.foldl_cons, skim_next (by omega), if_neg (by omega), ih (by omega),
      List.length_cons, Nat.sub_sub, Nat.add_comm 1]

lemma skim_body (h : data.length = t) (ht : t ≠ 0) :
    data.foldl Skim.next ⟨[], t, n⟩ = ⟨[], 0, n + 1⟩ := by
  cases data using List.reverseRecOn with
  | nil => exact (ht h.symm).elim
  | append_singleton data b =>
    rw [List.length_append, List.length_singleton] at h
    rw [List.foldl_append, skim_inside (by omega), List.foldl_cons, List.foldl_nil,
      skim_next (by omega), if_pos (by omega)]
    congr 1
    omega

lemma read_body_skims (hd : c.read_body A fuel = .ok d) :
    ∃ taken, c.input = taken ++ d.input ∧
      taken.foldl Skim.next ⟨[], c.to_read_, c.dispatched.length⟩ =
        ⟨[], d.to_read_, d.dispatched.length⟩ := by
  induction fuel generalizing c with
  | zero => simp [Connection.read_body] at hd
  | succ fuel ih =>
    rw [Connection.read_body] at hd
    simp only at hd
    have hle : (c.input.take (min c.to_read_ 8192)).length ≤ c.to_read_ := by
      rw [List.length_take]
      omega
    have hcut := List.prefix_iff_eq_append.mp (List.take_prefix (min c.to_read_ 8192) c.input)
    generalize c.input.take (min c.to_read_ 8192) = data at hd hle hcut
    split at hd
    · simp at hd
    · rename_i text htext
      have hleft : (c.take_in data text).to_read_ = c.to_read_ - data.length := rfl
      split at hd
      · rename_i hnone
        obtain rfl := Except.ok.inj hd
        obtain rfl := List.length_eq_zero_iff.mp hnone
        exact ⟨[], rfl, rfl⟩
      · rename_i hsome
        split at hd
        · rename_i hzero
          obtain ⟨v, hv, hd⟩ := bind_ok.mp hd
          obtain ⟨taken, hinput, hskim⟩ := ih hd
          obtain ⟨hread, hin, hlog⟩ := dispatch_kept hv
          have hall : data.length = c.to_read_ := by omega
          rw [hread, hzero, hlog] at hskim
          refine ⟨data ++ taken, ?_, ?_⟩
          · rw [List.append_assoc, ← hinput, hin]
            exact hcut.symm
          · rw [List.foldl_append, skim_body hall (hall ▸ hsome)]
            exact hskim
        · rename_i hmore
          obtain ⟨taken, hinput, hskim⟩ := ih hd
          have hlt : data.length < c.to_read_ := by omega
          refine ⟨data ++ taken, ?_, ?_⟩
          · rw [List.append_assoc, ← hinput]
            exact hcut.symm
          · rw [List.foldl_append, skim_inside hlt]
            exact hskim

lemma callback_skims (hd : c.buf_read_cb A = .ok d) :
    ∃ taken, c.input = taken ++ d.input ∧
      taken.foldl Skim.next ⟨[], c.to_read_, c.dispatched.length⟩ =
        ⟨[], d.to_read_, d.dispatched.length⟩ := by
  rw [Connection.buf_read_cb] at hd
  split at hd
  · rename_i hzero
    split at hd
    · simp at hd
    · rename_i header hparse
      have hcut := (List.take_append_drop MSG_HEADER_SIZE c.input).symm
      have hskim := skim_header (n := c.dispatched.length) hparse
      simp only at hd
      split at hd
      · rw [← Except.ok.inj hd, hzero]
        exact ⟨_, hcut, hskim⟩
      · obtain ⟨taken, hinput, hbody⟩ := read_body_skims hd
        refine ⟨c.input.take MSG_HEADER_SIZE ++ taken, ?_, ?_⟩
        · rw [List.append_assoc, ← hinput]
          exact hcut
        · rw [List.foldl_append, hzero, hskim]
          exact hbody
  · exact read_body_skims hd

theorem run_skims {pieces : List (List UInt8)} (h : run (receive A) c pieces = .ok d) :
    ∃ taken, c.input ++ pieces.flatten = taken ++ d.input ∧
      taken.foldl Skim.next ⟨[], c.to_read_, c.dispatched.length⟩ =
        ⟨[], d.to_read_, d.dispatched.length⟩ := by
  induction pieces generalizing c with
  | nil =>
    obtain rfl : c = d := by simpa using h
    exact ⟨[], by simp, rfl⟩
  | cons piece pieces ih =>
    obtain ⟨v, hv, h⟩ := (run_cons_ok _).mp h
    obtain ⟨first, hfirst, hskim⟩ := callback_skims hv
    simp only at hfirst hskim
    obtain ⟨taken, hinput, hrest⟩ := ih h
    refine ⟨first ++ taken, ?_, ?_⟩
    · rw [List.flatten_cons, ← List.append_assoc, hfirst, List.append_assoc, hinput,
        List.append_assoc]
    · rw [List.foldl_append, hskim]
      exact hrest

lemma fresh_skims {received : Bool} {pieces : List (List UInt8)} {u : Connection}
    (h : run (receive A) (.fresh received) pieces = .ok u) :
    ∃ taken, pieces.flatten = taken ++ u.input ∧
      skim taken = ⟨[], u.to_read_, u.dispatched.length⟩ := run_skims h

/-- Two connections that have taken in the same bytes, cut differently, decoded by different
archives and to different messages, stand at the same place of the same frame and have decoded
the same number of bodies. -/
theorem framing_by_sizes (A A' : Archive PingMsg) (received received' : Bool)
    (pieces pieces' : List (List UInt8)) (u u' : Connection)
    (hstream : pieces.flatten = pieces'.flatten)
    (h : run (receive A) (.fresh received) pieces = .ok u)
    (h' : run (receive A') (.fresh received') pieces' = .ok u') :
    (∃ taken, pieces.flatten = taken ++ u.input ∧
      skim taken = ⟨[], u.to_read_, u.dispatched.length⟩) ∧
    (u.input.length = u'.input.length →
      u.to_read_ = u'.to_read_ ∧ u.dispatched.length = u'.dispatched.length) := by
  obtain ⟨taken, htaken, hskim⟩ := fresh_skims h
  obtain ⟨taken', htaken', hskim'⟩ := fresh_skims h'
  refine ⟨⟨taken, htaken, hskim⟩, fun hlen => ?_⟩
  obtain ⟨rfl, -⟩ := List.append_inj' (htaken.symm.trans (hstream.trans htaken')) hlen
  rw [hskim, Skim.mk.injEq] at hskim'
  exact hskim'.2

theorem framing_by_sizes_sample : ∃ u u' : Connection,
    run (receive textArchive) (.fresh false) [sampleFrame 1] = .ok u ∧
    run (receive textArchive) (.fresh true) [(sampleFrame 1).take 20, (sampleFrame 1).drop 20] =
      .ok u' ∧
    u.to_read_ = u'.to_read_ ∧ u.dispatched.length = u'.dispatched.length := by
  have hfit := sample_fits (samplePing 1) (by simp)
  have hload := textArchive.load_whole (samplePing 1)
  have hone : [] ++ [sampleFrame 1].flatten =
      wire MSG_TYPE_PING (textArchive.save (samplePing 1)) ++ [] := by
    simp [sampleFrame]
    rfl
  have htwo : [] ++ [(sampleFrame 1).take 20, (sampleFrame 1).drop 20].flatten =
      wire MSG_TYPE_PING (textArchive.save (samplePing 1)) ++ [] := by
    simp [sampleFrame]
    rfl
  obtain ⟨u, hu, hat⟩ := receive_frame (fresh_at false) hfit hload (by decide) hone (Or.inl rfl)
  obtain ⟨u', hu', hat'⟩ := receive_frame (fresh_at true) hfit hload (by decide) htwo
    (Or.inr (by decide))
  exact ⟨u, u', hu, hu', (framing_by_sizes textArchive textArchive false true _ _ u u' (by simp)
    hu hu').2 (by rw [hat.input, hat'.input])⟩

lemma skim_mono (k : Skim) (bytes : List UInt8) : k.bodies ≤ (bytes.foldl Skim.next k).bodies := by
  induction bytes generalizing k with
  | nil => exact le_rfl
  | cons b bytes ih =>
    refine le_trans ?_ (ih _)
    rw [Skim.next]
    split
    · split <;> exact le_rfl
    · simp only
      split <;> omega

lemma negative_size {x : Int32} (hx : x < 0) : to_size_t x = 2 ^ 64 - x.toInt.natAbs ∧
    0 < x.toInt.natAbs ∧ x.toInt.natAbs ≤ 2 ^ 31 := by
  have hneg : x.toInt < 0 := by simpa using Int32.lt_iff_toInt_lt.mp hx
  have hlo := x.le_toInt
  rw [to_size_t]
  omega

/-- A header that declares a negative size, as that of a ping of 2 to 4 GiB does, is the last:
no body behind it is ever complete, so no later ping is decoded. -/
theorem negative_size_silences (A : Archive PingMsg) (received : Bool)
    (pieces : List (List UInt8)) (u : Connection) (before after : List UInt8) (header : MsgHeader)
    (n : ℕ) (hstream : pieces.flatten = before ++ (header.bytes ++ after))
    (hbefore : skim before = ⟨[], 0, n⟩) (hsize : header.size < 0) (hafter : after.length < 2 ^ 63)
    (h : run (receive A) (.fresh received) pieces = .ok u) :
    u.dispatched.length ≤ n ∧
      (u.input = [] → u.to_read_ + header.size.toInt.natAbs + after.length = 2 ^ 64) := by
  obtain ⟨htotal, hpos, hle⟩ := negative_size hsize
  obtain ⟨taken, htaken, hskim⟩ := fresh_skims h
  have hwhole : skim (before ++ (header.bytes ++ after)) =
      ⟨[], to_size_t header.size - after.length, n⟩ := by
    rw [skim, List.foldl_append, ← skim, hbefore, List.foldl_append,
      skim_header (header_round_trip header).2]
    apply skim_inside
    omega
  rw [← hstream, htaken, skim, List.foldl_append, ← skim, hskim] at hwhole
  constructor
  · have hmono := skim_mono ⟨[], u.to_read_, u.dispatched.length⟩ u.input
    rw [hwhole] at hmono
    exact hmono
  · intro hnil
    rw [hnil, List.foldl_nil, Skim.mk.injEq] at hwhole
    omega

lemma skim_frame {body : List UInt8} (hfit : Fits body) :
    skim (wire MSG_TYPE_PING body) = ⟨[], 0, 1⟩ := by
  have hsize : to_size_t (Int32.ofNat body.length) = body.length :=
    size_round_trip (hfit.short.trans (by decide))
  rw [skim, wire, List.foldl_append, skim_header (header_round_trip _).2]
  exact skim_body hsize.symm (hsize.trans_ne fun hnil =>
    hfit.ne_nil (List.length_eq_zero_iff.mp hnil))

/-- Behind a ping, a header of size -1 and two more pings, each in a piece of its own. -/
def sampleSilenced : List (List UInt8) :=
  [sampleFrame 1, (MsgHeader.mk MSG_TYPE_PING (-1)).bytes, sampleFrame 2, sampleFrame 1]

lemma receive_inside {s : Connection} {piece : List UInt8} (hinput : s.input = [])
    (hlt : piece.length < s.to_read_) (hshort : piece.length < 8192) :
    ∃ u, receive A s piece = .ok u ∧ u.input = [] ∧ u.to_read_ = s.to_read_ - piece.length := by
  have hcall := call_outcome (A := A) (c := s) (by omega) piece
  rw [hinput, List.nil_append] at hcall
  generalize receive A s piece = x at hcall ⊢
  cases hcall with
  | unterminated hnot =>
    apply (hnot (terminated_short _)).elim
    rw [List.length_take]
    omega
  | throws _ hle => omega
  | @returns u _ hu =>
    obtain ⟨hnil, hread, -⟩ := hu.drained hlt
    exact ⟨u, rfl, hnil, hread⟩

theorem negative_size_silences_sample : ∃ u : Connection,
    run (receive textArchive) (.fresh false) sampleSilenced = .ok u ∧ u.dispatched.length ≤ 1 ∧
      u.to_read_ + 1 + (sampleFrame 2 ++ sampleFrame 1).length = 2 ^ 64 := by
  have hbytes : (MsgHeader.mk MSG_TYPE_PING (Int32.ofNat (2 ^ 32 - 1))).bytes =
      (MsgHeader.mk MSG_TYPE_PING (-1)).bytes := by decide
  have hfit := sample_fits (samplePing 1) (by simp)
  obtain ⟨s, hs, hat⟩ := receive_whole (fresh_at false) hfit (textArchive.load_whole _)
  obtain ⟨t, ht, hread, hnil⟩ := header_only (A := textArchive) s hat.missing hat.input (2 ^ 32 - 1)
  rw [hbytes] at ht
  have hmiss : t.to_read_ = 2 ^ 64 - 1 := hread
  obtain ⟨v, hv, hvnil, hvread⟩ := receive_inside (A := textArchive) hnil
    (show (sampleFrame 2).length < t.to_read_ by rw [hmiss]; decide) (by decide)
  obtain ⟨u, hu, hunil, -⟩ := receive_inside (A := textArchive) hvnil
    (show (sampleFrame 1).length < v.to_read_ by rw [hvread, hmiss]; decide) (by decide)
  have hrun : run (receive textArchive) (.fresh false) sampleSilenced = .ok u :=
    (run_cons_ok _).mpr ⟨s, hs, (run_cons_ok _).mpr ⟨t, ht, (run_cons_ok _).mpr
      ⟨v, hv, (run_singleton _ _ _).trans hu⟩⟩⟩
  obtain ⟨hcount, hleft⟩ := negative_size_silences textArchive false sampleSilenced u
    (sampleFrame 1) (sampleFrame 2 ++ sampleFrame 1) ⟨MSG_TYPE_PING, -1⟩ 1
    (by simp [sampleSilenced]) (skim_frame hfit) (by decide) (by decide) hrun
  exact ⟨u, hrun, hcount, hleft hunil⟩

end Xcoin
