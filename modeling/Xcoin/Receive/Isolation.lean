import Xcoin.Receive.Alignment

/-! What the earlier frames of a connection do to the next one: two connections side by side,
with different bytes unread in `buf_ss_` and the same frame still to come. -/

namespace Xcoin

open Lib.Runs Lib.Archives Lib.Bytes Lib.TextTokens

def Decodes (A : Archive PingMsg) (s : Connection) (pieces : List (List UInt8)) (m : PingMsg) :
    Prop :=
  ∃ u, run (receive A) s pieces = .ok u ∧
    u.dispatched.map Prod.snd = s.dispatched.map Prod.snd ++ [m]

/-- A text that a body can insert is decoded to the same message behind `r` and behind `r'`. -/
def ReadsAlike (A : Archive PingMsg) (r r' : List UInt8) : Prop :=
  ∀ text, 0 ∉ text → text.length < 2 ^ 31 →
    (A.load (r ++ text)).map Prod.fst = (A.load (r' ++ text)).map Prod.fst

-- as a formatted `>>` reads over the blanks in front of a number
def ReadOver (A : Archive PingMsg) (r : List UInt8) : Prop := ReadsAlike A r []

/-- The next frame, however it is cut, is decoded as a new connection would decode it. -/
def Isolated (A : Archive PingMsg) (s : Connection) : Prop :=
  ∀ (body : List UInt8) (pieces : List (List UInt8)) (m : PingMsg) (received : Bool),
    body.length < 2 ^ 31 → pieces.flatten = wire MSG_TYPE_PING body →
    (Decodes A s pieces m ↔ Decodes A (.fresh received) pieces m)

/-- Two connections inside the body of one frame, of which the same text has been inserted
behind `r` and behind `r'`. -/
structure Connection.Level (r r' : List UInt8) (s t : Connection) : Prop where
  missing : s.to_read_ = t.to_read_
  input : s.input = t.input
  text : ∃ w, s.buf_ss_ = r ++ w ∧ t.buf_ss_ = r' ++ w ∧ 0 ∉ w ∧ w.length + s.to_read_ < 2 ^ 31

/-- After the last byte of a frame, with nothing behind it. -/
structure Connection.Border (s : Connection) : Prop where
  missing : s.to_read_ = 0
  input : s.input = []

variable {A : Archive PingMsg} {s t u : Connection} {m : PingMsg} {fuel later : ℕ}
variable {log : List (List UInt8 × PingMsg)} {r r' data text buf body : List UInt8}
variable {pieces : List (List UInt8)}

lemma ReadsAlike.symm (h : ReadsAlike A r r') : ReadsAlike A r' r :=
  fun text hclean hlen => (h text hclean hlen).symm

lemma ReadsAlike.load (h : ReadsAlike A r r') {w unread : List UInt8} (hclean : 0 ∉ w)
    (hlen : w.length < 2 ^ 31) (hload : A.load (r ++ w) = some (m, unread)) :
    ∃ unread', A.load (r' ++ w) = some (m, unread') := by
  have hsame := h w hclean hlen
  rw [hload] at hsame
  obtain ⟨x, hx, hfst⟩ := Option.map_eq_some_iff.mp hsame.symm
  exact ⟨x.2, hx.trans (congrArg some (Prod.ext hfst rfl))⟩

lemma level_take_in (h : s.Level r r' t) (hclean : 0 ∉ text) (hle : text.length ≤ data.length)
    (hdata : data.length ≤ s.to_read_) :
    (s.take_in data text).Level r r' (t.take_in data text) where
  missing := by simp only [Connection.take_in, h.missing]
  input := by simp only [Connection.take_in, h.input]
  text := by
    obtain ⟨w, hs, ht, hw, hlen⟩ := h.text
    refine ⟨w ++ text, ?_, ?_, ?_, ?_⟩
    · simp only [Connection.take_in, hs, List.append_assoc]
    · simp only [Connection.take_in, ht, List.append_assoc]
    · rw [List.mem_append, not_or]
      exact ⟨hw, hclean⟩
    · simp only [Connection.take_in, List.length_append]
      omega

lemma level_arrived (h : s.Level r r' t) (piece : List UInt8) :
    Connection.Level r r' { s with input := s.input ++ piece }
      { t with input := t.input ++ piece } :=
  ⟨h.missing, by rw [h.input], h.text⟩

lemma level_dispatch (h : s.Level r r' t) (hA : ReadsAlike A r r') (hu : s.dispatch A = .ok u) :
    ∃ v m, t.dispatch A = .ok v ∧ u.to_read_ = s.to_read_ ∧ u.input = s.input ∧
      v.to_read_ = t.to_read_ ∧ v.input = t.input ∧
      u.dispatched.map Prod.snd = s.dispatched.map Prod.snd ++ [m] ∧
      v.dispatched.map Prod.snd = t.dispatched.map Prod.snd ++ [m] := by
  obtain ⟨w, hs, ht, hw, hlen⟩ := h.text
  rw [Connection.dispatch, hs] at hu
  cases hload : A.load (r ++ w) with
  | none =>
    rw [hload] at hu
    cases hu
  | some x =>
    obtain ⟨unread, hload'⟩ := hA.load hw (by omega) hload
    rw [hload] at hu
    obtain rfl := Except.ok.inj hu
    rw [Connection.dispatch, ht, hload']
    exact ⟨_, x.1, rfl, rfl, rfl, rfl, rfl, by simp, by simp⟩

/-- A callback leaves both connections inside the body, or has decoded the same message from
its whole text and left nothing of the frame. -/
theorem read_body_level (h : s.Level r r' t) (hA : ReadsAlike A r r') (hpos : s.to_read_ ≠ 0)
    (hk : s.input.length + later = s.to_read_) (hu : s.read_body A fuel = .ok u) :
    ∃ v, t.read_body A fuel = .ok v ∧
      ((u.Level r r' v ∧ u.to_read_ ≠ 0 ∧ u.input.length + later = u.to_read_ ∧
          u.dispatched = s.dispatched ∧ v.dispatched = t.dispatched) ∨
        (later = 0 ∧ u.Border ∧ ∃ m, u.dispatched.map Prod.snd = s.dispatched.map Prod.snd ++ [m] ∧
          v.dispatched.map Prod.snd = t.dispatched.map Prod.snd ++ [m])) := by
  induction fuel generalizing s t with
  | zero => cases hu
  | succ fuel ih =>
    rw [Connection.read_body] at hu ⊢
    rw [← h.missing, ← h.input]
    simp only at hu ⊢
    have hlen := List.length_take (i := min s.to_read_ 8192) (l := s.input)
    generalize s.input.take (min s.to_read_ 8192) = data at hu hlen ⊢
    split at hu
    · cases hu
    · rename_i text htext
      have hin := level_take_in h (inserted_no_zero htext) (inserted_le htext)
        (show data.length ≤ s.to_read_ by omega)
      have hmiss : (s.take_in data text).to_read_ = s.to_read_ - data.length := rfl
      have hleft : (s.take_in data text).input.length = s.input.length - data.length :=
        List.length_drop
      rw [← hin.missing]
      split at hu
      · rename_i hzero
        rw [if_pos hzero]
        obtain rfl := Except.ok.inj hu
        exact ⟨_, rfl, Or.inl ⟨hin, by omega, by omega, rfl, rfl⟩⟩
      · rename_i hsome
        rw [if_neg hsome]
        split at hu
        · -- the frame is complete
          rename_i hdone
          rw [if_pos hdone]
          obtain ⟨v, hv, hu⟩ := bind_ok.mp hu
          obtain ⟨w, m, hw, hread, hinput, hread', hinput', hlog, hlog'⟩ :=
            level_dispatch hin hA hv
          have hzero : v.to_read_ = 0 := hread.trans hdone
          have hzero' : w.to_read_ = 0 := hread'.trans (hin.missing.symm.trans hdone)
          obtain ⟨n, rfl⟩ : ∃ n, fuel = n + 1 := by
            cases fuel with
            | zero => cases hu
            | succ n => exact ⟨n, rfl⟩
          rw [read_body_stop (Or.inl hzero)] at hu
          obtain rfl := Except.ok.inj hu
          have hnil : v.input = [] := by
            apply List.length_eq_zero_iff.mp
            rw [hinput]
            omega
          refine ⟨w.take_in [] [], bind_ok.mpr ⟨w, hw, read_body_stop (Or.inl hzero') n⟩,
            Or.inr ⟨by omega, ⟨?_, ?_⟩, m, hlog, hlog'⟩⟩
          · simp only [Connection.take_in, hzero, List.length_nil]
          · simp only [Connection.take_in, hnil, List.drop_nil]
        · rename_i hmore
          rw [if_neg hmore]
          exact ih (s := s.take_in data text) hin hmore (by omega) hu

lemma receive_nil (h : s.Border) : receive A s [] = .error .uninitialised_header := by
  rw [receive, Connection.buf_read_cb, if_pos h.missing, h.input]
  rfl

lemma flatten_nil_border (h : s.Border) (hnil : pieces.flatten = [])
    (hu : run (receive A) s pieces = .ok u) : pieces = [] := by
  cases pieces with
  | nil => rfl
  | cons p pieces =>
    rw [List.flatten_cons] at hnil
    rw [(List.append_eq_nil_iff.mp hnil).1, run_cons, receive_nil h] at hu
    cases hu

lemma same_ne_snoc {α : Type} {l : List α} {a : α} (h : l = l ++ [a]) : False := by
  simpa using congrArg List.length h

theorem level_decodes (h : s.Level r r' t) (hA : ReadsAlike A r r') (hpos : s.to_read_ ≠ 0)
    (hk : s.input.length + pieces.flatten.length = s.to_read_)
    (hu : s.read_body A fuel = .ok u) (hdec : ∃ w, run (receive A) u pieces = .ok w ∧
      w.dispatched.map Prod.snd = s.dispatched.map Prod.snd ++ [m]) :
    ∃ v w, t.read_body A fuel = .ok v ∧ run (receive A) v pieces = .ok w ∧
      w.dispatched.map Prod.snd = t.dispatched.map Prod.snd ++ [m] := by
  induction pieces generalizing s t u fuel with
  | nil =>
    obtain ⟨w, hw, hm⟩ := hdec
    obtain rfl := Except.ok.inj hw
    obtain ⟨v, hv, hinside | ⟨-, -, m', hlog, hlog'⟩⟩ := read_body_level h hA hpos hk hu
    · rw [hinside.2.2.2.1] at hm
      exact (same_ne_snoc hm).elim
    · rw [hlog, List.append_cancel_left_eq] at hm
      exact ⟨v, v, hv, rfl, by rw [hlog', hm]⟩
  | cons p pieces ih =>
    obtain ⟨w, hw, hm⟩ := hdec
    obtain ⟨v, hv, ⟨hlevel, hpos', hk', hlog, hlog'⟩ | ⟨hnone, hborder, -⟩⟩ :=
      read_body_level h hA hpos hk hu
    · obtain ⟨x, hx, hw⟩ := (run_cons_ok _).mp hw
      have harrived := level_arrived hlevel p
      have hall : (u.input ++ p).length + pieces.flatten.length = u.to_read_ := by
        rw [← hk', List.flatten_cons, List.length_append, List.length_append, Nat.add_assoc]
      rw [receive, Connection.buf_read_cb, if_neg hpos'] at hx
      have hpos'' : v.to_read_ ≠ 0 := hlevel.missing ▸ hpos'
      obtain ⟨y, z, hy, hz, hm⟩ := ih harrived hpos' hall hx ⟨w, hw, by rw [hm, hlog]⟩
      refine ⟨v, z, hv, (run_cons_ok _).mpr ⟨y, ?_, hz⟩, by rw [hm, hlog']⟩
      rw [hlevel.input] at hy
      rw [receive, Connection.buf_read_cb, if_neg hpos'']
      exact hy
    · have hnil : (p :: pieces).flatten = [] := List.length_eq_zero_iff.mp hnone
      exact absurd (flatten_nil_border hborder hnil hw) (List.cons_ne_nil p pieces)

lemma receive_frame_start (hs : s.Border) (hint : body.length < 2 ^ 31) (input : List UInt8) :
    receive A s ((MsgHeader.mk MSG_TYPE_PING (Int32.ofNat body.length)).bytes ++ input) =
      Connection.read_body A (input.length + 1)
        { s with input := input, to_read_ := body.length } := by
  let header := MsgHeader.mk MSG_TYPE_PING (Int32.ofNat body.length)
  have hinput : s.input ++ (header.bytes ++ input) = header.bytes ++ input := by
    rw [hs.input, List.nil_append]
  have hcall := callback_header_eq (A := A)
    (s := { s with input := s.input ++ (header.bytes ++ input) }) hs.missing hinput
  have hsize : to_size_t header.size = body.length := size_round_trip hint
  rw [if_neg (not_not_intro rfl), hsize] at hcall
  exact hcall

/-- What stands unread in front of a frame is all that can tell two connections apart. -/
theorem decodes_alike (hs : s.Border) (ht : t.Border) (hA : ReadsAlike A s.buf_ss_ t.buf_ss_)
    (hint : body.length < 2 ^ 31) (hstream : pieces.flatten = wire MSG_TYPE_PING body)
    (hm : Decodes A s pieces m) : Decodes A t pieces m := by
  let header := MsgHeader.mk MSG_TYPE_PING (Int32.ofNat body.length)
  have hlen : header.bytes.length = MSG_HEADER_SIZE := (header_round_trip header).1
  obtain ⟨w, hw, hm⟩ := hm
  cases pieces with
  | nil =>
    obtain rfl := Except.ok.inj hw
    exact (same_ne_snoc hm).elim
  | cons p pieces =>
    obtain ⟨u, hu, hrest⟩ := (run_cons_ok _).mp hw
    have hhead : MSG_HEADER_SIZE ≤ p.length := by
      by_contra hshort
      rw [receive, Connection.buf_read_cb, if_pos hs.missing, hs.input, List.nil_append,
        header_short (lt_of_le_of_lt (List.length_take_le' _ _) (not_le.mp hshort))] at hu
      cases hu
    rw [List.flatten_cons] at hstream
    obtain ⟨input, rfl⟩ : header.bytes <+: p := List.prefix_of_prefix_length_le
      ⟨body, hstream.symm⟩ (List.prefix_append p _) (hlen.trans_le hhead)
    rw [List.append_assoc] at hstream
    have hbody : input ++ pieces.flatten = body := List.append_cancel_left hstream
    rw [receive_frame_start hs hint] at hu
    have hsum := congrArg List.length hbody
    rw [List.length_append] at hsum
    by_cases hpos : body.length = 0
    · -- an empty body is never complete
      rw [read_body_stop (Or.inl hpos)] at hu
      obtain rfl := Except.ok.inj hu
      have hnil : pieces = [] := by
        refine flatten_nil_border ⟨?_, ?_⟩ (List.length_eq_zero_iff.mp (by omega)) hrest
        · simp only [Connection.take_in, hpos, List.length_nil]
        · simpa [Connection.take_in] using List.length_eq_zero_iff.mp (by omega)
      subst hnil
      obtain rfl := Except.ok.inj hrest
      exact (same_ne_snoc hm).elim
    · have hlevel : Connection.Level s.buf_ss_ t.buf_ss_
          { s with input := input, to_read_ := body.length }
          { t with input := input, to_read_ := body.length } :=
        ⟨rfl, rfl, [], by simp, by simp, by simp, by simpa using hint⟩
      obtain ⟨v, x, hv, hx, hm⟩ := level_decodes hlevel hA hpos hsum hu ⟨w, hrest, hm⟩
      exact ⟨x, (run_cons_ok _).mpr ⟨v, (receive_frame_start ht hint input).trans hv, hx⟩, hm⟩

lemma dispatch_loaded {x : PingMsg × List UInt8} (hload : A.load s.buf_ss_ = some x) :
    ∃ u, s.dispatch A = .ok u ∧ u.to_read_ = s.to_read_ ∧
      u.dispatched = s.dispatched ++ [(s.buf_ss_, x.1)] := by
  rw [Connection.dispatch, hload]
  exact ⟨_, rfl, rfl, rfl⟩

lemma decodes_append {front back : List (List UInt8)} (hu : run (receive A) s front = .ok u)
    (hlog : u.dispatched = s.dispatched) : Decodes A s (front ++ back) m ↔ Decodes A u back m := by
  simp only [Decodes, run_append, hu, hlog]
  rfl

lemma last_piece_decodes {p q : List UInt8} (hs : s.At [] buf p.length log) (hp : p ≠ [])
    (hle : p.length ≤ 8192) (htext : inserted 8192 p = some q) :
    Decodes A s [p] m ↔ ∃ unread, A.load (buf ++ q) = some (m, unread) := by
  have hpos := List.length_pos_iff.mpr hp
  have hat := arrived_at hs p
  rw [List.nil_append] at hat
  let v := Connection.take_in p q { s with input := s.input ++ p }
  have hcall : receive A s p = v.dispatch A >>= Connection.read_body A p.length := by
    rw [receive, callback_body hat hpos.ne', read_body_eq hat, min_eq_left hle,
      List.take_of_length_le le_rfl, htext]
    simp only
    rw [if_neg hpos.ne', if_pos (Nat.sub_self _)]
  have hbuf : v.buf_ss_ = buf ++ q := by simp only [v, Connection.take_in, hs.buf]
  cases hload : A.load (buf ++ q) with
  | none =>
    have herror : receive A s p = .error .archive_exception := by
      rw [hcall, Connection.dispatch, hbuf, hload]
      rfl
    simp [Decodes, run_singleton, herror]
  | some x =>
    obtain ⟨n, hn⟩ : ∃ n, p.length = n + 1 := ⟨p.length - 1, by omega⟩
    rw [← hbuf] at hload
    obtain ⟨w, hw, hread, hlog⟩ := dispatch_loaded hload
    have hzero : w.to_read_ = 0 := by
      rw [hread]
      simp only [v, Connection.take_in, hs.missing, Nat.sub_self]
    have hu : receive A s p = .ok (w.take_in [] []) := by
      rw [hcall, hw, hn]
      exact read_body_stop (Or.inl hzero) n
    have hlast : (w.take_in [] []).dispatched.map Prod.snd =
        s.dispatched.map Prod.snd ++ [x.1] := by
      simp only [Connection.take_in, hlog, List.map_append, List.map_singleton]
      rfl
    constructor
    · rintro ⟨u, hrun, hm⟩
      rw [run_singleton, hu] at hrun
      rw [← Except.ok.inj hrun, hlast, List.append_cancel_left_eq] at hm
      obtain ⟨rfl, -⟩ := List.cons.inj hm
      exact ⟨x.2, rfl⟩
    · rintro ⟨unread, hx⟩
      refine ⟨_, (run_singleton _ _ _).trans hu, ?_⟩
      rw [hlast, Option.some.inj hx]

-- a text with no NUL is inserted by a frame that brings it byte by byte
lemma text_split (hclean : 0 ∉ text) (hlen : text.length < 2 ^ 31) :
    ∃ front p q, text = front ++ q ∧ 0 ∉ front ∧ p ≠ [] ∧ p.length ≤ 8192 ∧
      inserted 8192 p = some q ∧ (front ++ p).length < 2 ^ 31 := by
  cases text using List.reverseRecOn with
  | nil => exact ⟨[], [0], [], rfl, by simp, by simp, by simp, by decide, by simp⟩
  | append_singleton front b =>
    rw [List.mem_append, not_or] at hclean
    exact ⟨front, [b], [b], rfl, hclean.1, by simp, by simp,
      inserted_clean hclean.2 (by simp), hlen⟩

lemma split_decodes {front p q : List UInt8} (hs : s.At [] buf 0 log) (hclean : 0 ∉ front)
    (hp : p ≠ []) (hle : p.length ≤ 8192) (htext : inserted 8192 p = some q)
    (hint : (front ++ p).length < 2 ^ 31) :
    Decodes A s (((MsgHeader.mk MSG_TYPE_PING (Int32.ofNat (front ++ p).length)).bytes ::
      front.map fun b => [b]) ++ [p]) m ↔
      ∃ unread, A.load (buf ++ (front ++ q)) = some (m, unread) := by
  let header := MsgHeader.mk MSG_TYPE_PING (Int32.ofNat (front ++ p).length)
  have hflat : (front.map fun b => [b]).flatten = front := by
    rw [← List.flatMap_def, List.flatMap_singleton']
  obtain ⟨u, hat, hu⟩ := receive_header (A := A) hs
    (List.nil_append header.bytes |>.trans (List.append_nil _).symm) rfl
  rw [show to_size_t header.size = (front ++ p).length from size_round_trip hint] at hat
  obtain ⟨v, hv, hvat⟩ := read_body_idle (A := A) hat (Or.inr rfl) 0
  rw [List.length_append, ← hflat] at hvat
  obtain ⟨w, hw, hwat⟩ := receive_part (A := A) hvat hp (by rwa [hflat])
    fun piece hpiece => by
      obtain ⟨b, -, rfl⟩ := List.mem_map.mp hpiece
      simp
  rw [hflat] at hwat
  have hrun : run (receive A) s (header.bytes :: front.map fun b => [b]) = .ok w :=
    (run_cons_ok _).mpr ⟨v, hu.trans hv, hw⟩
  rw [decodes_append hrun (hwat.log.trans hs.log.symm), last_piece_decodes hwat hp hle htext,
    List.append_assoc]

lemma map_fst_eq {α β : Type} {x y : Option (α × β)}
    (h : ∀ a, (∃ b, x = some (a, b)) ↔ ∃ b, y = some (a, b)) :
    x.map Prod.fst = y.map Prod.fst := by
  ext a
  simpa using h a

theorem isolated_iff (hzero : s.to_read_ = 0) (hinput : s.input = []) :
    Isolated A s ↔ ReadOver A s.buf_ss_ := by
  constructor
  · intro h text hclean hlen
    obtain ⟨front, p, q, rfl, hfront, hp, hle, htext, hint⟩ := text_split hclean hlen
    let t : Connection := { s with copied := [] }
    have hat : t.At [] s.buf_ss_ 0 s.dispatched := ⟨hinput, rfl, hzero, rfl, by simp [t]⟩
    apply map_fst_eq
    intro m
    rw [← split_decodes hat hfront hp hle htext hint,
      ← split_decodes (fresh_at true) hfront hp hle htext hint]
    have hstream : (((MsgHeader.mk MSG_TYPE_PING (Int32.ofNat (front ++ p).length)).bytes ::
        front.map fun b => [b]) ++ [p]).flatten = wire MSG_TYPE_PING (front ++ p) := by
      rw [List.flatten_append, List.flatten_cons, ← List.flatMap_def, List.flatMap_singleton',
        List.flatten_singleton, List.append_assoc]
      rfl
    rw [← h _ _ m true hint hstream]
    exact ⟨decodes_alike ⟨hzero, hinput⟩ ⟨hzero, hinput⟩ (fun _ _ _ => rfl) hint hstream,
      decodes_alike ⟨hzero, hinput⟩ ⟨hzero, hinput⟩ (fun _ _ _ => rfl) hint hstream⟩
  · intro h body pieces m received hint hstream
    have hs : s.Border := ⟨hzero, hinput⟩
    have hfresh : (Connection.fresh received).Border := ⟨rfl, rfl⟩
    exact ⟨decodes_alike hs hfresh h hint hstream,
      decodes_alike hfresh hs h.symm hint hstream⟩

/-- A decoder that reads nothing but encoded messages reads over nothing. -/
lemma readOver_exact (hA : A.Exact) (hone : Fits (A.save (samplePing 1)))
    (htwo : Fits (A.save (samplePing 2))) : ReadOver A r ↔ r = [] := by
  constructor
  · intro h
    by_contra hr
    have hshow : ∀ m, Fits (A.save m) → ∃ x, A.load (r ++ A.save m) = some (m, x) :=
      fun m hfit => h.symm.load hfit.clean (hfit.short.trans (by decide)) (A.load_whole m)
    obtain ⟨x, hx⟩ := hshow _ hone
    obtain ⟨y, hy⟩ := hshow _ htwo
    exact absurd (A.residue_shows hA hr hx hy) (by decide)
  · rintro rfl _ _ _
    rfl

/-- A connection keeps its earlier frames out of the next one just when the decoder reads over
what is left unread of them, as it does when that is nothing. To a decoder that reads nothing
but encoded messages the bodies must be, without NUL bytes, as many messages. -/
theorem isolation_iff (A : Archive PingMsg) (received : Bool) (bodies pieces : List (List UInt8))
    (s : Connection) (hstream : pieces.flatten = ping_frames bodies)
    (hrun : run (receive A) (.fresh received) pieces = .ok s)
    (hzero : s.to_read_ = 0) (hinput : s.input = []) :
    (Isolated A s ↔ ReadOver A s.buf_ss_) ∧ (s.buf_ss_ = [] → Isolated A s) ∧
    (A.Exact → Fits (A.save (samplePing 1)) → Fits (A.save (samplePing 2)) →
      (Isolated A s ↔ s.buf_ss_ = []) ∧ ((∀ b ∈ bodies, Sent b) →
        (Isolated A s ↔ ∃ msgs : List PingMsg, msgs.length = bodies.length ∧
          bodies.flatten = (msgs.map A.save).flatten))) := by
  have hiff := isolated_iff (A := A) hzero hinput
  refine ⟨hiff, ?_, ?_⟩
  · intro hnil
    rw [hiff, hnil]
    exact fun _ _ _ => rfl
  · intro hA hone htwo
    have hnil := hiff.trans (readOver_exact hA hone htwo)
    exact ⟨hnil, fun hsent => hnil.trans (unread_nil_iff hA hsent hstream hrun hzero hinput)⟩

lemma text_no_blank (m : PingMsg) :
    ∃ b text, textArchive.save m = b :: text ∧ decide (b = 32) = false :=
  ⟨50, _, rfl, rfl⟩

-- an archive that reads over blanks
noncomputable def spacedArchive : Archive PingMsg := textArchive.skipping (· = 32) text_no_blank

theorem isolation_iff_sample :
    (∃ s, run (receive textArchive) (.fresh false) [sampleFrame 1] = .ok s ∧
      Isolated textArchive s) ∧
    ∃ s, run (receive spacedArchive) (.fresh false)
        [wire MSG_TYPE_PING ((samplePing 1).text ++ [32])] = .ok s ∧
      s.buf_ss_ = [32] ∧ Isolated spacedArchive s := by
  have hfit := sample_fits (samplePing 1) List.mem_cons_self
  constructor
  · obtain ⟨s, hs, hat⟩ := receive_whole (fresh_at false) hfit (textArchive.load_whole _)
    have hrun : run (receive textArchive) (.fresh false) [sampleFrame 1] = .ok s :=
      (run_singleton _ _ _).trans hs
    refine ⟨s, hrun, ?_⟩
    obtain ⟨-, -, hexact⟩ := isolation_iff textArchive false [(samplePing 1).text]
      [sampleFrame 1] s rfl hrun hat.missing hat.input
    have hsent : ∀ b ∈ [(samplePing 1).text], Sent b := by
      intro b hb
      rw [List.mem_singleton.mp hb]
      exact ⟨hfit.ne_nil, hfit.clean, by decide⟩
    apply ((hexact textArchive_exact hfit (sample_fits (samplePing 2) (by simp))).2 hsent).mpr
    exact ⟨[samplePing 1], rfl, rfl⟩
  · have hblank : Fits ((samplePing 1).text ++ [32]) := ⟨by decide, by decide, by decide⟩
    obtain ⟨s, hs, hat⟩ := receive_whole (fresh_at false) hblank
      (spacedArchive.load_save (samplePing 1) [32])
    have hrun := (run_singleton (receive spacedArchive) _ _).trans hs
    refine ⟨s, hrun, hat.buf, ?_⟩
    apply (isolation_iff spacedArchive false [(samplePing 1).text ++ [32]] _ s
      List.flatten_singleton hrun hat.missing hat.input).1.mpr
    rw [hat.buf]
    intro text _ _
    rfl

/-- A frame with another message behind its own: the next frame is decoded as that message. -/
theorem residue_decoded :
    ∃ s, run (receive textArchive) (.fresh false)
        [wire MSG_TYPE_PING ((samplePing 1).text ++ (samplePing 2).text)] = .ok s ∧
      s.to_read_ = 0 ∧ s.input = [] ∧ Decodes textArchive s [sampleFrame 1] (samplePing 2) ∧
      ¬ Decodes textArchive (.fresh false) [sampleFrame 1] (samplePing 2) := by
  have hfit := sample_fits (samplePing 1) List.mem_cons_self
  have hboth : Fits ((samplePing 1).text ++ (samplePing 2).text) :=
    ⟨by decide, by decide, by decide⟩
  obtain ⟨s, hs, hat⟩ := receive_whole (fresh_at false) hboth
    (textArchive.load_save (samplePing 1) (samplePing 2).text)
  refine ⟨s, (run_singleton _ _ _).trans hs, hat.missing, hat.input, ?_, ?_⟩
  · obtain ⟨u, hu, huat⟩ := receive_whole hat hfit (textArchive.load_save (samplePing 2) _)
    refine ⟨u, (run_singleton _ _ _).trans hu, ?_⟩
    rw [huat.log, hat.log, List.map_append]
    rfl
  · rintro ⟨u, hu, hm⟩
    obtain ⟨v, hv, hvat⟩ := receive_whole (fresh_at false) hfit (textArchive.load_whole _)
    rw [run_singleton] at hu
    obtain rfl := Except.ok.inj (hu.symm.trans hv)
    rw [hvat.log] at hm
    exact absurd hm (by simp [Connection.fresh, samplePing, PingMsg.new])

end Xcoin
