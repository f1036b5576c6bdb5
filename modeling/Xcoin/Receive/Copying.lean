import Xcoin.Receive.Framing

/-! How a body is copied into `buf_ss_`, over all sizes and all ways it arrives. -/

namespace Xcoin

open Lib.Runs Lib.Archives Lib.Bytes Lib.TextTokens

/-- No body of `n` bytes is decoded any more when `later` bytes are still to arrive: a text of
another length has been decoded, or bytes are gone, or `to_read_` misses the end. -/
def Connection.Lost (s : Connection) (n later : ℕ) : Prop :=
  (∃ c ∈ s.dispatched, c.1.length ≠ n) ∨
    s.dispatched = [] ∧ s.buf_ss_.length + s.input.length + later ≤ n ∧
      (s.buf_ss_.length + s.input.length + later = n → s.to_read_ ≠ s.input.length + later)

variable {A : Archive PingMsg} {s u : Connection} {m : PingMsg} {n later fuel : ℕ}
variable {buf rest data text piece : List UInt8} {pieces : List (List UInt8)}
variable {log : List (List UInt8 × PingMsg)}

lemma take_in_lost (h : s.Lost n later) (hle : text.length ≤ data.length)
    (hdata : data.length ≤ s.input.length) (hmiss : data.length ≤ s.to_read_) :
    (s.take_in data text).Lost n later := by
  cases h with
  | inl h => exact Or.inl h
  | inr h =>
    obtain ⟨hnone, hsum, hmark⟩ := h
    refine Or.inr ⟨hnone, ?_, ?_⟩
    · simp only [Connection.take_in, List.length_append, List.length_drop]
      omega
    · simp only [Connection.take_in, List.length_append, List.length_drop]
      omega

lemma dispatch_lost (h : s.Lost n later) (hzero : s.to_read_ = 0)
    (hu : s.dispatch A = .ok u) : u.Lost n later := by
  rw [Connection.dispatch] at hu
  cases hload : A.load s.buf_ss_ with
  | none =>
    rw [hload] at hu
    simp at hu
  | some x =>
    rw [hload] at hu
    obtain rfl := Except.ok.inj hu
    cases h with
    | inl h =>
      obtain ⟨c, hc, hlen⟩ := h
      exact Or.inl ⟨c, List.mem_append_left _ hc, hlen⟩
    | inr h =>
      obtain ⟨-, hsum, hmark⟩ := h
      refine Or.inl ⟨_, List.mem_append_right _ (List.mem_singleton_self _), ?_⟩
      intro hlen
      simp only at hlen
      omega

lemma copy_lost (h : s.Lost n later)
    (htext : inserted 8192 (s.input.take (min s.to_read_ 8192)) = some text) :
    (s.take_in (s.input.take (min s.to_read_ 8192)) text).Lost n later := by
  have hlen := List.length_take (i := min s.to_read_ 8192) (l := s.input)
  exact take_in_lost h (inserted_le htext) (by omega) (by omega)

lemma read_body_lost (h : s.Lost n later) (hu : s.read_body A fuel = .ok u) : u.Lost n later :=
  read_body_invariant copy_lost dispatch_lost h hu

lemma header_lost {header : MsgHeader} (h : s.Lost n later)
    (hheader : MsgHeader.of_bytes (s.input.take MSG_HEADER_SIZE) = some header) (t : ℕ) :
    Connection.Lost { s with input := s.input.drop MSG_HEADER_SIZE, to_read_ := t } n later := by
  have hlen := of_bytes_length hheader
  rw [List.length_take] at hlen
  cases h with
  | inl h => exact Or.inl h
  | inr h =>
    obtain ⟨hnone, hsum, -⟩ := h
    have hsize : MSG_HEADER_SIZE = 8 := rfl
    refine Or.inr ⟨hnone, ?_, ?_⟩
    · simp only [List.length_drop]
      omega
    · simp only [List.length_drop]
      omega

lemma callback_lost (h : s.Lost n later) (hu : s.buf_read_cb A = .ok u) : u.Lost n later :=
  callback_invariant copy_lost dispatch_lost (fun h _ hheader => header_lost h hheader _) h hu

lemma receive_lost (h : s.Lost n (piece.length + later)) (hu : receive A s piece = .ok u) :
    u.Lost n later := by
  apply callback_lost _ hu
  cases h with
  | inl h => exact Or.inl h
  | inr h =>
    obtain ⟨hnone, hsum, hmark⟩ := h
    refine Or.inr ⟨hnone, ?_, ?_⟩
    · simp only [List.length_append]
      omega
    · simp only [List.length_append]
      omega

theorem run_lost (h : s.Lost n pieces.flatten.length)
    (hu : run (receive A) s pieces = .ok u) : u.Lost n 0 := by
  induction pieces generalizing s with
  | nil =>
    obtain rfl := Except.ok.inj hu
    exact h
  | cons p pieces ih =>
    rw [List.flatten_cons, List.length_append] at h
    obtain ⟨v, hv, hu⟩ := (run_cons_ok _).mp hu
    exact ih (receive_lost h hv) hu

lemma Connection.Lost.texts_ne {body : List UInt8} (h : s.Lost body.length 0) :
    s.dispatched.map Prod.fst ≠ [body] := by
  intro htexts
  cases h with
  | inl h =>
    obtain ⟨c, hc, hlen⟩ := h
    have hmem := List.mem_map_of_mem (f := Prod.fst) hc
    rw [htexts, List.mem_singleton] at hmem
    exact hlen (congrArg List.length hmem)
  | inr h =>
    rw [h.1] at htexts
    exact nomatch htexts

lemma receive_full (hs : s.At [] buf n log) (hn : 8192 ≤ n) (hp : 8192 ≤ piece.length)
    (hclean : 0 ∉ piece) : receive A s piece = .error .unterminated_array := by
  have hat := arrived_at hs piece
  rw [List.nil_append] at hat
  exact (callback_body hat (by omega)).trans
    (read_body_full hat hn hp (fun hz => hclean (List.mem_of_mem_take hz)) _)

lemma flatten_ne_nil {p : List UInt8} (hne : [] ∉ p :: pieces) : (p :: pieces).flatten ≠ [] := by
  intro hnil
  rw [List.flatten_cons] at hnil
  exact hne ((List.append_eq_nil_iff.mp hnil).1 ▸ List.mem_cons_self)

lemma last_shorter (hne : [] ∉ pieces) (h : pieces ≠ []) :
    pieces.dropLast.flatten.length < pieces.flatten.length := by
  cases pieces using List.reverseRecOn with
  | nil => exact (h rfl).elim
  | append_singleton pieces p =>
    have hp : p ≠ [] := fun hp => hne (hp ▸ List.mem_append_right _ List.mem_cons_self)
    have hpos := List.length_pos_iff.mpr hp
    rw [List.dropLast_concat, List.flatten_append, List.flatten_singleton, List.length_append]
    omega

lemma short_pieces (hs : s.At [] buf pieces.flatten.length log) (hclean : 0 ∉ pieces.flatten)
    (hne : [] ∉ pieces) (hu : run (receive A) s pieces = .ok u) :
    ∀ p ∈ pieces, p.length < 8192 := by
  induction pieces generalizing s buf with
  | nil => simp
  | cons p pieces ih =>
    rw [List.flatten_cons, List.mem_append, not_or] at hclean
    rw [List.flatten_cons, List.length_append] at hs
    obtain ⟨v, hv, hu⟩ := (run_cons_ok _).mp hu
    have hp : p.length < 8192 := by
      by_contra hfull
      rw [receive_full hs (by omega) (not_lt.mp hfull) hclean.1] at hv
      exact nomatch hv
    intro q hq
    cases List.mem_cons.mp hq with
    | inl hq => exact hq ▸ hp
    | inr hq =>
      have hrest : pieces.flatten ≠ [] := by
        cases pieces with
        | nil => exact nomatch hq
        | cons p' pieces => exact flatten_ne_nil fun h => hne (List.mem_cons_of_mem p h)
      obtain ⟨w, hw, hat⟩ := receive_piece (A := A) hs hrest hclean.1 hp
      rw [hv] at hw
      obtain rfl := Except.ok.inj hw
      exact ih hat hclean.2 (fun h => hne (List.mem_cons_of_mem p h)) hu q hq

section Parts

variable {v w : Connection} {q : List UInt8} {qs : List (List UInt8)}

lemma size_needed (hv : v.At q [] n []) (hsize : n ≠ (q ++ qs.flatten).length)
    (hw : v.read_body A fuel = .ok w) (hu : run (receive A) w qs = .ok u) :
    u.dispatched.map Prod.fst ≠ [q ++ qs.flatten] := by
  have hlost : v.Lost (q ++ qs.flatten).length qs.flatten.length := by
    refine Or.inr ⟨hv.log, ?_⟩
    rw [hv.buf, hv.input, hv.missing, List.length_append, List.length_nil]
    rw [List.length_append] at hsize
    exact ⟨by omega, fun _ => hsize⟩
  exact (run_lost (read_body_lost hlost hw) hu).texts_ne

lemma parts_short (hv : v.At q [] (q.length + qs.flatten.length) log)
    (hclean : 0 ∉ q ∧ 0 ∉ qs.flatten) (hne : [] ∉ qs)
    (hw : v.read_body A (q.length + 1) = .ok w) (hu : run (receive A) w qs = .ok u) :
    ∀ p ∈ q :: qs, p.length < 8192 := by
  have hq : q.length < 8192 := by
    by_contra hfull
    rw [read_body_full hv (by omega) (not_lt.mp hfull)
      fun hz => hclean.1 (List.mem_of_mem_take hz)] at hw
    exact nomatch hw
  cases qs with
  | nil => simpa using hq
  | cons p qs =>
    obtain ⟨w', hw', hat⟩ := read_body_part (A := A) hv (flatten_ne_nil hne) hclean.1 hq
    rw [hw] at hw'
    obtain rfl := Except.ok.inj hw'
    exact List.forall_mem_cons.mpr ⟨hq, short_pieces hat hclean.2 hne hu⟩

lemma parts_copied (hv : v.At q [] (q.length + qs.flatten.length) log)
    (hbody : q ++ qs.flatten = A.save m) (hclean : 0 ∉ q ∧ 0 ∉ qs.flatten) (hne : [] ∉ qs)
    (hshort : ∀ p ∈ q :: qs, p.length < 8192) :
    ∃ w u, v.read_body A (q.length + 1) = .ok w ∧ run (receive A) w qs = .ok u ∧
      u.At [] [] 0 (log ++ [(A.save m, m)]) := by
  have hq := hshort q List.mem_cons_self
  have hload : A.load ([] ++ (q ++ qs.flatten)) = some (m, []) := by
    rw [List.nil_append, hbody, A.load_whole]
  cases qs with
  | nil =>
    rw [List.flatten_nil, List.append_nil] at hbody hload
    have hall : v.At (q ++ []) [] q.length log := by
      rw [List.append_nil]
      exact hv
    have hpos : q ≠ [] := hbody ▸ A.save_ne_nil m
    obtain ⟨w, hw, hat⟩ := read_body_last hall hload hpos hclean.1 hq
    rw [List.append_nil] at hw
    exact ⟨w, w, hw, rfl, hbody ▸ hat⟩
  | cons p qs =>
    obtain ⟨w, hw, hwat⟩ := read_body_part (A := A) hv (flatten_ne_nil hne) hclean.1 hq
    rw [← List.append_assoc] at hload
    obtain ⟨u, hu, hat⟩ := receive_rest hwat hload hclean.2
      (List.append_nil _).symm (last_shorter hne (List.cons_ne_nil p qs))
      fun p' hp' => lt_of_le_of_lt (min_le_right _ _) (hshort p' (List.mem_cons_of_mem q hp'))
    exact ⟨w, u, hw, hu, hbody ▸ hat⟩

theorem copied_iff (received : Bool) (hclean : 0 ∉ A.save m) (hne : [] ∉ qs)
    (hbody : q ++ qs.flatten = A.save m) :
    (∃ s, run (receive A) (.fresh received)
        (((MsgHeader.mk MSG_TYPE_PING (Int32.ofNat (q ++ qs.flatten).length)).bytes ++ q) :: qs) =
          .ok s ∧
      (∀ c ∈ s.copied, c.2 = c.1) ∧ s.dispatched.map Prod.fst = [A.save m]) ↔
    to_size_t (Int32.ofNat (q ++ qs.flatten).length) = (q ++ qs.flatten).length ∧
      ∀ p ∈ q :: qs, p.length < 8192 := by
  let header := MsgHeader.mk MSG_TYPE_PING (Int32.ofNat (q ++ qs.flatten).length)
  obtain ⟨v, hvat, hv⟩ := receive_header (A := A) (fresh_at received)
    (List.nil_append (header.bytes ++ q)) rfl
  rw [← hbody, List.mem_append, not_or] at hclean
  constructor
  · rintro ⟨s, hs, -, htexts⟩
    obtain ⟨w, hw, hs⟩ := (run_cons_ok _).mp hs
    rw [hv] at hw
    have hsize : to_size_t header.size = (q ++ qs.flatten).length := by
      by_contra hsize
      exact size_needed hvat hsize hw hs (hbody ▸ htexts)
    rw [hsize, List.length_append] at hvat
    exact ⟨hsize, parts_short hvat hclean hne hw hs⟩
  · rintro ⟨hsize, hshort⟩
    rw [show to_size_t header.size = _ from hsize, List.length_append] at hvat
    obtain ⟨w, u, hw, hu, hat⟩ := parts_copied hvat hbody hclean hne hshort
    refine ⟨u, (run_cons_ok _).mpr ⟨w, hv.trans hw, hu⟩, hat.whole, ?_⟩
    rw [hat.log]
    rfl

end Parts

/-- A body is copied as it is, and decoded, just when its header carries its length and every
part of it comes short of filling the array. -/
theorem copying_iff (A : Archive PingMsg) (received : Bool) (start : Int64) (hop : ℤ)
    (msg_size : ℕ) (q : List UInt8) (qs : List (List UInt8))
    (hclean : 0 ∉ A.save (PingMsg.new start hop msg_size)) (hne : [] ∉ qs)
    (hbody : q ++ qs.flatten = A.save (PingMsg.new start hop msg_size)) :
    (∃ s, run (receive A) (.fresh received)
        (((MsgHeader.mk MSG_TYPE_PING (Int32.ofNat (q ++ qs.flatten).length)).bytes ++ q) :: qs) =
          .ok s ∧
      (∀ c ∈ s.copied, c.2 = c.1) ∧
      s.dispatched.map Prod.fst = [A.save (PingMsg.new start hop msg_size)]) ↔
    to_size_t (Int32.ofNat (q ++ qs.flatten).length) = (q ++ qs.flatten).length ∧
      ∀ p ∈ q :: qs, p.length < 8192 :=
  copied_iff received hclean hne hbody

theorem copying_iff_sample : ∃ s, run (receive textArchive) (.fresh false)
      [(sampleFrame 1).take 20, (sampleFrame 1).drop 20] = .ok s ∧
    (∀ c ∈ s.copied, c.2 = c.1) ∧ s.dispatched.map Prod.fst = [(samplePing 1).text] :=
  (copying_iff textArchive false 0 1 0 ((samplePing 1).text.take 12) [(samplePing 1).text.drop 12]
    (ping_text_clean 0 1 0) (by decide) (by decide)).mpr ⟨by decide, by decide⟩

lemma large_text (start : Int64) (hop : ℤ) :
    8192 ≤ (PingMsg.new start hop 8).text.length := by
  have hdata : (bytes (PingMsg.new start hop 8).data).length = 8192 := by
    change (bytes (String.ofList (List.replicate (8 <<< 10) 'x'))).length = 8192
    rw [bytes_xs, List.length_replicate]
    rfl
  simp only [PingMsg.text, counted, List.length_append, hdata]
  omega

theorem copying_full : ¬ ∃ s, run (receive textArchive) (.fresh false)
      [wire MSG_TYPE_PING (PingMsg.new 0 1 8).text] = .ok s ∧
    (∀ c ∈ s.copied, c.2 = c.1) ∧ s.dispatched.map Prod.fst = [(PingMsg.new 0 1 8).text] := by
  have hwhole : (PingMsg.new 0 1 8).text ++ ([] : List (List UInt8)).flatten =
      textArchive.save (PingMsg.new 0 1 8) := List.append_nil _
  have hcopied := copied_iff false (ping_text_clean 0 1 8) (by simp) hwhole
  rw [hwhole] at hcopied
  intro h
  obtain ⟨-, hshort⟩ := hcopied.mp h
  exact (large_text 0 1).not_gt (hshort _ List.mem_cons_self)

end Xcoin
