import Xcoin.Receive.Framing

/-! A connection that has received ping frames only, however they were cut, stands at a border
of two frames or inside the body of one. -/

namespace Xcoin

open Lib.Runs Lib.Archives Lib.Bytes

def ping_frames (bodies : List (List UInt8)) : List UInt8 :=
  (bodies.map (wire MSG_TYPE_PING)).flatten

structure Sent (body : List UInt8) : Prop where
  ne_nil : body ≠ []
  clean : 0 ∉ body
  int32 : body.length < 2 ^ 31

/-- All that was inserted: the messages decoded and what is left unread. -/
def inserted_text (A : Archive PingMsg) (log : List (List UInt8 × PingMsg)) (buf : List UInt8) :
    List UInt8 :=
  (log.map fun c => A.save c.2).flatten ++ buf

inductive Connection.Aligned (A : Archive PingMsg) (bodies : List (List UInt8)) (s : Connection)
    (later : List UInt8) : Prop
  | border {input buf log} {done todo : List (List UInt8)} (hbodies : bodies = done ++ todo)
    (hs : s.At input buf 0 log) (hcount : log.length = done.length)
    (htext : inserted_text A log buf = done.flatten)
    (hinput : input ++ later = ping_frames todo) : Aligned A bodies s later
  | inside {input buf log part rest} {done todo : List (List UInt8)}
    (hbodies : bodies = done ++ (part ++ rest) :: todo) (hrest : rest ≠ [])
    (hs : s.At input buf rest.length log) (hcount : log.length = done.length)
    (htext : inserted_text A log buf = done.flatten ++ part)
    (hinput : input ++ later = rest ++ ping_frames todo) : Aligned A bodies s later

variable {A : Archive PingMsg} {s u : Connection} {m : PingMsg} {n fuel : ℕ}
variable {buf data unread later piece : List UInt8} {bodies pieces : List (List UInt8)}
variable {log : List (List UInt8 × PingMsg)}

lemma inserted_text_append : inserted_text A log (buf ++ data) = inserted_text A log buf ++ data :=
  (List.append_assoc _ _ _).symm

lemma inserted_text_load (hA : A.Exact) (hload : A.load buf = some (m, unread)) :
    inserted_text A (log ++ [(buf, m)]) unread = inserted_text A log buf := by
  simp [inserted_text, hA hload]

lemma inserted_sent (h : inserted n data = some piece) (hclean : 0 ∉ data) : piece = data := by
  cases lt_or_ge data.length n with
  | inl hlt =>
    rw [inserted_clean hclean hlt] at h
    exact (Option.some.inj h).symm
  | inr hge =>
    rw [inserted_full hclean hge] at h
    exact nomatch h

/-- A read inside a body takes a front part of its rest. -/
lemma inside_read {input part rest after text : List UInt8} (hsent : Sent (part ++ rest))
    (hinput : input ++ later = rest ++ after)
    (htext : inserted 8192 (input.take (min rest.length 8192)) = some text) :
    ∃ rest' left, rest = text ++ rest' ∧ input = text ++ left ∧ left ++ later = rest' ++ after ∧
      input.take (min rest.length 8192) = text := by
  have hlen := List.length_take (i := min rest.length 8192) (l := input)
  obtain ⟨left, hleft⟩ := List.take_prefix (min rest.length 8192) input
  generalize input.take (min rest.length 8192) = data at htext hlen hleft
  rw [← hleft, List.append_assoc] at hinput
  obtain ⟨rest', rfl⟩ : data <+: rest := List.prefix_of_prefix_length_le ⟨_, hinput⟩
    (List.prefix_append rest after) (by omega)
  rw [List.append_assoc] at hinput
  have hclean : 0 ∉ data := by
    intro hz
    apply hsent.clean
    simp [hz]
  obtain rfl := inserted_sent htext hclean
  exact ⟨rest', left, rfl, hleft.symm, List.append_cancel_left hinput, rfl⟩

theorem read_body_aligned (hA : A.Exact) (hsent : ∀ b ∈ bodies, Sent b)
    (h : s.Aligned A bodies later) (hu : s.read_body A fuel = .ok u) :
    u.Aligned A bodies later := by
  induction fuel generalizing s with
  | zero => exact nomatch hu
  | succ fuel ih =>
    cases h with
    | border hbodies hs hcount htext hinput =>
      obtain ⟨v, hv, hat⟩ := read_body_idle (A := A) hs (Or.inl rfl) fuel
      rw [hv] at hu
      exact .border hbodies (Except.ok.inj hu ▸ hat) hcount htext hinput
    | @inside input buf log part rest done todo hbodies hrest hs hcount htext hinput =>
      rw [read_body_eq hs] at hu
      split at hu
      · exact nomatch hu
      · rename_i text hread
        obtain ⟨rest', left, rfl, rfl, hinput, htake⟩ := inside_read
          (hsent (part ++ rest) (by simp [hbodies])) hinput hread
        rw [htake] at hu
        have hat := take_in_at hs text
        rw [List.drop_left, List.length_append, Nat.add_sub_cancel_left] at hat
        have hpart : inserted_text A log (buf ++ text) = done.flatten ++ (part ++ text) := by
          rw [inserted_text_append, htext, List.append_assoc]
        rw [← List.append_assoc part] at hbodies
        rw [List.length_append, Nat.add_sub_cancel_left] at hu
        by_cases hne : rest' = []
        · -- the read completes the body
          subst hne
          rw [List.append_nil] at hrest hbodies
          rw [if_neg fun h => hrest (List.length_eq_zero_iff.mp h), if_pos List.length_nil] at hu
          obtain ⟨v, hv, hu⟩ := bind_ok.mp hu
          obtain ⟨m, unread, hload, hvat⟩ := dispatch_ok hat hv
          have hdone : bodies = (done ++ [part ++ text]) ++ todo := by
            rw [hbodies, List.append_assoc, List.singleton_append]
          apply ih (.border hdone hvat _ _ hinput) hu
          · rw [List.length_append, List.length_append, hcount]
            rfl
          · rw [inserted_text_load hA hload, hpart, List.flatten_append, List.flatten_singleton]
        · have hin : (s.take_in text text).Aligned A bodies later :=
            .inside hbodies hne hat hcount hpart hinput
          rw [if_neg fun h => hne (List.length_eq_zero_iff.mp h)] at hu
          split at hu
          · exact Except.ok.inj hu ▸ hin
          · exact ih hin hu

lemma ping_frames_cons (body : List UInt8) :
    ping_frames (body :: bodies) = wire MSG_TYPE_PING body ++ ping_frames bodies := rfl

lemma callback_aligned (hA : A.Exact) (hsent : ∀ b ∈ bodies, Sent b)
    (h : s.Aligned A bodies later) (hu : s.buf_read_cb A = .ok u) : u.Aligned A bodies later := by
  cases h with
  | inside hbodies hrest hs hcount htext hinput =>
    rw [callback_body hs fun h => hrest (List.length_eq_zero_iff.mp h)] at hu
    exact read_body_aligned hA hsent (.inside hbodies hrest hs hcount htext hinput) hu
  | @border input buf log done todo hbodies hs hcount htext hinput =>
    have hhead : MSG_HEADER_SIZE ≤ input.length := by
      by_contra hshort
      rw [callback_short hs (not_le.mp hshort)] at hu
      exact nomatch hu
    cases todo with
    | nil =>
      obtain ⟨rfl, -⟩ := List.append_eq_nil_iff.mp hinput
      exact absurd hhead (by decide)
    | cons b todo =>
      let header := MsgHeader.mk MSG_TYPE_PING (Int32.ofNat b.length)
      have hb : Sent b := hsent b (by simp [hbodies])
      rw [ping_frames_cons, wire, List.append_assoc] at hinput
      obtain ⟨input, rfl⟩ : header.bytes <+: input := List.prefix_of_prefix_length_le
        ⟨_, hinput.symm⟩ (List.prefix_append input later)
        (le_trans (header_round_trip header).1.le hhead)
      rw [List.append_assoc] at hinput
      obtain ⟨v, hvat, hv⟩ := callback_header (A := A) hs
      rw [if_neg (not_not_intro rfl)] at hv
      rw [show to_size_t header.size = b.length from size_round_trip hb.int32] at hvat
      rw [hv] at hu
      have hpart : bodies = done ++ ([] ++ b) :: todo := hbodies
      refine read_body_aligned hA hsent (.inside hpart hb.ne_nil hvat hcount ?_
        (List.append_cancel_left hinput)) hu
      rw [htext, List.append_nil]

lemma receive_aligned (hA : A.Exact) (hsent : ∀ b ∈ bodies, Sent b)
    (h : s.Aligned A bodies (piece ++ later)) (hu : receive A s piece = .ok u) :
    u.Aligned A bodies later := by
  apply callback_aligned hA hsent _ hu
  cases h with
  | border hbodies hs hcount htext hinput =>
    rw [← List.append_assoc] at hinput
    exact .border hbodies (arrived_at hs piece) hcount htext hinput
  | inside hbodies hrest hs hcount htext hinput =>
    rw [← List.append_assoc] at hinput
    exact .inside hbodies hrest (arrived_at hs piece) hcount htext hinput

theorem run_aligned (hA : A.Exact) (hsent : ∀ b ∈ bodies, Sent b)
    (h : s.Aligned A bodies pieces.flatten) (hu : run (receive A) s pieces = .ok u) :
    u.Aligned A bodies [] := by
  induction pieces generalizing s with
  | nil => exact Except.ok.inj hu ▸ h
  | cons p pieces ih =>
    obtain ⟨v, hv, hu⟩ := (run_cons_ok _).mp hu
    exact ih (receive_aligned hA hsent h hv) hu

/-- When the frames have been received completely, their joined bodies are the messages decoded,
one for a frame, and what is left unread. -/
theorem received_text (hA : A.Exact) (hsent : ∀ b ∈ bodies, Sent b) {received : Bool}
    (hstream : pieces.flatten = ping_frames bodies)
    (hu : run (receive A) (.fresh received) pieces = .ok u) (hzero : u.to_read_ = 0)
    (hinput : u.input = []) :
    u.dispatched.length = bodies.length ∧
      inserted_text A u.dispatched u.buf_ss_ = bodies.flatten := by
  have hfresh : (Connection.fresh received).Aligned A bodies pieces.flatten :=
    .border (List.nil_append bodies).symm (fresh_at received) rfl rfl hstream
  cases run_aligned hA hsent hfresh hu with
  | inside hbodies hrest hs =>
    rw [hs.missing] at hzero
    exact (hrest (List.length_eq_zero_iff.mp hzero)).elim
  | @border input buf log done todo hbodies hs hcount htext htodo =>
    rw [← hs.input, hinput] at htodo
    have hnil : todo = [] := by
      cases todo with
      | nil => rfl
      | cons b todo =>
        have hlen := congrArg List.length htodo
        rw [ping_frames_cons, List.append_nil, List.length_append, wire_length] at hlen
        simp [MSG_HEADER_SIZE] at hlen
        omega
    rw [hbodies, hnil, List.append_nil, hs.log, hs.buf]
    exact ⟨hcount, htext⟩

theorem unread_nil_iff (hA : A.Exact) (hsent : ∀ b ∈ bodies, Sent b) {received : Bool}
    (hstream : pieces.flatten = ping_frames bodies)
    (hu : run (receive A) (.fresh received) pieces = .ok u) (hzero : u.to_read_ = 0)
    (hinput : u.input = []) :
    u.buf_ss_ = [] ↔
      ∃ msgs : List PingMsg, msgs.length = bodies.length ∧
        bodies.flatten = (msgs.map A.save).flatten := by
  obtain ⟨hcount, htext⟩ := received_text hA hsent hstream hu hzero hinput
  have hlog : u.dispatched.map (fun c => A.save c.2) = (u.dispatched.map Prod.snd).map A.save := by
    rw [List.map_map]
    rfl
  rw [inserted_text, hlog] at htext
  constructor
  · intro hnil
    refine ⟨u.dispatched.map Prod.snd, by rw [List.length_map, hcount], ?_⟩
    rw [← htext, hnil, List.append_nil]
  · rintro ⟨msgs, hlen, hmsgs⟩
    rw [hmsgs, ← List.append_nil (msgs.map A.save).flatten] at htext
    exact (A.saves_append_inj (by rw [List.length_map, hcount, hlen]) htext).2

end Xcoin
