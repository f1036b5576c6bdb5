import Xcoin.Lib.Archives
import Xcoin.Lib.Bytes
import Xcoin.Lib.Runs
import Xcoin.Ping.Flood

/-! Receiving pings: `buf_read_cb` on the bytes of one connection. The archive of a message is
a parameter, and a raw header lies in memory with its least significant bytes first. -/

namespace Xcoin

open Lib.Runs Lib.Archives Lib.Bytes

def MSG_TYPE_PING : Int32 := 1

def MSG_HEADER_SIZE : ℕ := 8

structure MsgHeader where
  type : Int32
  size : Int32
  deriving DecidableEq

def le_bytes (x : Int32) : List UInt8 :=
  [x.toUInt32.toNat, x.toUInt32.toNat / 256, x.toUInt32.toNat / 65536,
    x.toUInt32.toNat / 16777216].map UInt8.ofNat

def of_le_bytes (b₀ b₁ b₂ b₃ : UInt8) : Int32 :=
  (UInt32.ofNat
    (b₀.toNat + 256 * b₁.toNat + 65536 * b₂.toNat + 16777216 * b₃.toNat)).toInt32

def MsgHeader.bytes (h : MsgHeader) : List UInt8 := le_bytes h.type ++ le_bytes h.size

-- fewer bytes leave a part of the `header` on the stack uninitialised
def MsgHeader.of_bytes : List UInt8 → Option MsgHeader
  | [t₀, t₁, t₂, t₃, s₀, s₁, s₂, s₃] =>
    some ⟨of_le_bytes t₀ t₁ t₂ t₃, of_le_bytes s₀ s₁ s₂ s₃⟩
  | _ => none

def to_size_t (x : Int32) : ℕ := (x.toInt % 2 ^ 64).toNat

-- a header with the size of the body, and the body, as `broadcast_ping` writes them
def wire (type : Int32) (body : List UInt8) : List UInt8 :=
  (MsgHeader.mk type (Int32.ofNat body.length)).bytes ++ body

def ping_frame (A : Archive PingMsg) (m : PingMsg) : List UInt8 := wire MSG_TYPE_PING (A.save m)

inductive ReceiveFault
  | uninitialised_header
  | unterminated_array
  | archive_exception
  | diverged
  deriving DecidableEq

structure Client where
  to_read_ : ℕ
  -- what has not been read from the stream yet
  buf_ss_ : List UInt8
  deriving DecidableEq

structure Connection extends Client where
  input : List UInt8
  G_RECEIVED : Bool
  -- the calls of `broadcast_ping`
  sent : List (Int64 × ℤ)
  -- ghost: the bytes of every read with what was inserted of them, and the contents of
  -- `buf_ss_` at every call of `PingMsg::deserialize` with its result
  copied : List (List UInt8 × List UInt8)
  dispatched : List (List UInt8 × PingMsg)
  deriving DecidableEq

def Connection.fresh (received : Bool) : Connection where
  to_read_ := 0
  buf_ss_ := []
  input := []
  G_RECEIVED := received
  sent := []
  copied := []
  dispatched := []

variable (A : Archive PingMsg)

-- `buf_ss_.clear()` resets the state flags and drops nothing of the contents
def Connection.dispatch (s : Connection) : Except ReceiveFault Connection :=
  match A.load s.buf_ss_ with
  | none => .error .archive_exception
  | some (msg, rest) => .ok { s with
      sent := if s.G_RECEIVED then s.sent else s.sent ++ [(msg.start_us, msg.hop + 1)]
      G_RECEIVED := true
      buf_ss_ := rest
      dispatched := s.dispatched ++ [(s.buf_ss_, msg)] }

def Connection.take_in (data text : List UInt8) (s : Connection) : Connection :=
  { s with
    input := s.input.drop data.length
    buf_ss_ := s.buf_ss_ ++ text
    to_read_ := s.to_read_ - data.length
    copied := s.copied ++ [(data, text)] }

-- the loop `while(1)`
def Connection.read_body : ℕ → Connection → Except ReceiveFault Connection
  | 0, _ => .error .diverged
  | fuel + 1, s =>
    let data := s.input.take (min s.to_read_ 8192)
    match inserted 8192 data with
    | none => .error .unterminated_array
    | some text =>
      let s := s.take_in data text
      if data.length = 0 then .ok s
      else if s.to_read_ = 0 then s.dispatch A >>= read_body fuel
      else read_body fuel s

-- every turn of the loop but the last takes a byte from `input`
def Connection.buf_read_cb (s : Connection) : Except ReceiveFault Connection :=
  if s.to_read_ = 0 then
    match MsgHeader.of_bytes (s.input.take MSG_HEADER_SIZE) with
    | none => .error .uninitialised_header
    | some header =>
      let s := { s with
        input := s.input.drop MSG_HEADER_SIZE
        to_read_ := to_size_t header.size }
      if header.type ≠ MSG_TYPE_PING then .ok s
      else s.read_body A (s.input.length + 1)
  else
    s.read_body A (s.input.length + 1)

def receive (s : Connection) (piece : List UInt8) : Except ReceiveFault Connection :=
  Connection.buf_read_cb A { s with input := s.input ++ piece }

variable {A} {s u : Connection} {h : MsgHeader} {body data : List UInt8}

lemma of_le_bytes_le_bytes (x : Int32) :
    ∃ b₀ b₁ b₂ b₃, le_bytes x = [b₀, b₁, b₂, b₃] ∧ of_le_bytes b₀ b₁ b₂ b₃ = x := by
  refine ⟨_, _, _, _, rfl, ?_⟩
  have hlt := x.toUInt32.toNat_lt
  have hsum : x.toUInt32.toNat % 256 + 256 * (x.toUInt32.toNat / 256 % 256) +
      65536 * (x.toUInt32.toNat / 65536 % 256) +
      16777216 * (x.toUInt32.toNat / 16777216 % 256) = x.toUInt32.toNat := by omega
  simp only [of_le_bytes, UInt8.toNat_ofNat', hsum, UInt32.ofNat_toNat, Int32.toInt32_toUInt32]

lemma header_round_trip (h : MsgHeader) :
    h.bytes.length = MSG_HEADER_SIZE ∧ MsgHeader.of_bytes h.bytes = some h := by
  obtain ⟨t₀, t₁, t₂, t₃, ht, hte⟩ := of_le_bytes_le_bytes h.type
  obtain ⟨s₀, s₁, s₂, s₃, hs, hse⟩ := of_le_bytes_le_bytes h.size
  rw [MsgHeader.bytes, ht, hs]
  refine ⟨rfl, ?_⟩
  simp only [List.cons_append, List.nil_append, MsgHeader.of_bytes, hte, hse]

lemma of_bytes_length (hparse : MsgHeader.of_bytes data = some h) :
    data.length = MSG_HEADER_SIZE := by
  unfold MsgHeader.of_bytes at hparse
  split at hparse
  · rfl
  · exact nomatch hparse

lemma header_short (hlen : data.length < MSG_HEADER_SIZE) : MsgHeader.of_bytes data = none := by
  unfold MsgHeader.of_bytes
  split
  · simp [MSG_HEADER_SIZE] at hlen
  · rfl

lemma size_round_trip {n : ℕ} (hn : n < 2 ^ 31) : to_size_t (Int32.ofNat n) = n := by
  rw [to_size_t, Int32.toInt_ofNat_of_lt hn]
  omega

/-- A body that one read takes in and that `<<` copies whole. -/
structure Fits (body : List UInt8) : Prop where
  ne_nil : body ≠ []
  clean : 0 ∉ body
  short : body.length < 8192

/-- Where a connection stands: `input` is left to read, `buf` is unread in `buf_ss_`, `t` bytes
are missing, `log` has been decoded, and every read so far has been copied whole. -/
structure Connection.At (s : Connection) (input buf : List UInt8) (t : ℕ)
    (log : List (List UInt8 × PingMsg)) : Prop where
  input : s.input = input
  buf : s.buf_ss_ = buf
  missing : s.to_read_ = t
  log : s.dispatched = log
  whole : ∀ c ∈ s.copied, c.2 = c.1

variable {input buf rest left unread : List UInt8} {t : ℕ}
variable {log : List (List UInt8 × PingMsg)} {m : PingMsg}

lemma fresh_at (received : Bool) : (Connection.fresh received).At [] [] 0 [] :=
  ⟨rfl, rfl, rfl, rfl, by simp [Connection.fresh]⟩

lemma take_in_at (hs : s.At input buf t log) (data : List UInt8) :
    (s.take_in data data).At (input.drop data.length) (buf ++ data) (t - data.length) log where
  input := by rw [Connection.take_in, hs.input]
  buf := by rw [Connection.take_in, hs.buf]
  missing := by rw [Connection.take_in, hs.missing]
  log := hs.log
  whole c hc := by
    cases List.mem_append.mp hc with
    | inl hc => exact hs.whole c hc
    | inr hc => rw [List.mem_singleton.mp hc]

lemma dispatch_at (hs : s.At input buf t log) (hload : A.load buf = some (m, unread)) :
    ∃ u, s.dispatch A = .ok u ∧ u.At input unread t (log ++ [(buf, m)]) := by
  rw [← hs.buf] at hload
  refine ⟨{ s with
    sent := if s.G_RECEIVED then s.sent else s.sent ++ [(m.start_us, m.hop + 1)]
    G_RECEIVED := true
    buf_ss_ := unread
    dispatched := s.dispatched ++ [(s.buf_ss_, m)] }, ?_, hs.input, rfl, hs.missing, ?_, hs.whole⟩
  · rw [Connection.dispatch, hload]
  · rw [hs.log, hs.buf]

lemma dispatch_none (hs : s.At input buf t log) (hload : A.load buf = none) :
    s.dispatch A = .error .archive_exception := by
  rw [Connection.dispatch, hs.buf, hload]

lemma dispatch_ok (hs : s.At input buf t log) (hu : s.dispatch A = .ok u) :
    ∃ m unread, A.load buf = some (m, unread) ∧ u.At input unread t (log ++ [(buf, m)]) := by
  cases hload : A.load buf with
  | none =>
    rw [dispatch_none hs hload] at hu
    exact nomatch hu
  | some x =>
    obtain ⟨v, hv, hat⟩ := dispatch_at hs hload
    rw [hv] at hu
    exact ⟨x.1, x.2, rfl, Except.ok.inj hu ▸ hat⟩

lemma read_body_eq (hs : s.At input buf t log) (fuel : ℕ) :
    s.read_body A (fuel + 1) = match inserted 8192 (input.take (min t 8192)) with
      | none => .error .unterminated_array
      | some text =>
        if (input.take (min t 8192)).length = 0 then .ok (s.take_in (input.take (min t 8192)) text)
        else if t - (input.take (min t 8192)).length = 0 then
          (s.take_in (input.take (min t 8192)) text).dispatch A >>= Connection.read_body A fuel
        else (s.take_in (input.take (min t 8192)) text).read_body A fuel := by
  rw [← hs.input, ← hs.missing]
  rfl

lemma read_body_stop (h : s.to_read_ = 0 ∨ s.input = []) (fuel : ℕ) :
    s.read_body A (fuel + 1) = .ok (s.take_in [] []) := by
  have hnil : s.input.take (min s.to_read_ 8192) = [] := by
    cases h with
    | inl h => simp [h]
    | inr h => simp [h]
  rw [Connection.read_body, hnil]
  rfl

lemma read_body_idle (hs : s.At input buf t log) (h : t = 0 ∨ input = []) (fuel : ℕ) :
    ∃ u, s.read_body A (fuel + 1) = .ok u ∧ u.At input buf t log := by
  rw [← hs.missing, ← hs.input] at h
  refine ⟨s.take_in [] [], read_body_stop h fuel, ?_⟩
  simpa using take_in_at hs []

lemma read_body_full (hs : s.At input buf t log) (ht : 8192 ≤ t) (hi : 8192 ≤ input.length)
    (hclean : 0 ∉ input.take 8192) (fuel : ℕ) :
    s.read_body A (fuel + 1) = .error .unterminated_array := by
  have hlen : 8192 ≤ (input.take 8192).length := by
    rw [List.length_take]
    omega
  rw [read_body_eq hs, min_eq_right ht, inserted_full hclean hlen]

lemma read_body_part (hs : s.At input buf (input.length + rest.length) log)
    (hrest : rest ≠ []) (hclean : 0 ∉ input) (hlt : input.length < 8192) :
    ∃ u, s.read_body A (input.length + 1) = .ok u ∧
      u.At [] (buf ++ input) rest.length log := by
  have hpos : 0 < rest.length := List.length_pos_iff.mpr hrest
  have htake : input.take (min (input.length + rest.length) 8192) = input := by
    apply List.take_of_length_le
    omega
  have hat := take_in_at hs input
  rw [List.drop_length, Nat.add_sub_cancel_left] at hat
  have hstep := read_body_eq (A := A) hs input.length
  rw [htake, inserted_clean hclean hlt] at hstep
  cases hin : input.length with
  | zero =>
    refine ⟨s.take_in input input, ?_, hat⟩
    simpa [hin] using hstep
  | succ n =>
    obtain ⟨u, hu, huat⟩ := read_body_idle (A := A) hat (Or.inr rfl) n
    refine ⟨u, ?_, huat⟩
    simp only at hstep
    rw [← hin, hstep, if_neg (by omega), if_neg (by omega), hin, hu]

lemma read_body_whole (hs : s.At (rest ++ left) buf rest.length log) (hrest : rest ≠ [])
    (hclean : 0 ∉ rest) (hlt : rest.length < 8192) (fuel : ℕ) :
    ∃ v : Connection, v.At left (buf ++ rest) 0 log ∧
      s.read_body A (fuel + 1) = v.dispatch A >>= Connection.read_body A fuel := by
  have hpos : 0 < rest.length := List.length_pos_iff.mpr hrest
  have htake : (rest ++ left).take (min rest.length 8192) = rest := by
    rw [min_eq_left hlt.le, List.take_left]
  have hat := take_in_at hs rest
  rw [Nat.sub_self, List.drop_left] at hat
  refine ⟨_, hat, ?_⟩
  have hstep := read_body_eq (A := A) hs fuel
  rw [htake, inserted_clean hclean hlt] at hstep
  simp only at hstep
  rw [hstep, if_neg (by omega), if_pos (Nat.sub_self _)]

lemma read_body_last (hs : s.At (rest ++ left) buf rest.length log)
    (hload : A.load (buf ++ rest) = some (m, unread)) (hrest : rest ≠ []) (hclean : 0 ∉ rest)
    (hlt : rest.length < 8192) :
    ∃ u, s.read_body A ((rest ++ left).length + 1) = .ok u ∧
      u.At left unread 0 (log ++ [(buf ++ rest, m)]) := by
  obtain ⟨v, hvat, hv⟩ := read_body_whole (A := A) hs hrest hclean hlt (rest ++ left).length
  obtain ⟨w, hw, hwat⟩ := dispatch_at hvat hload
  obtain ⟨n, hn⟩ : ∃ n, (rest ++ left).length = n + 1 := by
    apply Nat.exists_eq_succ_of_ne_zero
    simp [hrest]
  obtain ⟨u, hu, huat⟩ := read_body_idle (A := A) hwat (Or.inl rfl) n
  refine ⟨u, ?_, huat⟩
  rw [hv, hw, hn]
  exact hu

lemma arrived_at (hs : s.At input buf t log) (piece : List UInt8) :
    Connection.At { s with input := s.input ++ piece } (input ++ piece) buf t log where
  input := by rw [hs.input]
  buf := hs.buf
  missing := hs.missing
  log := hs.log
  whole := hs.whole

lemma callback_body (hs : s.At input buf t log) (ht : t ≠ 0) :
    s.buf_read_cb A = s.read_body A (input.length + 1) := by
  rw [Connection.buf_read_cb, hs.missing, if_neg ht, hs.input]

lemma callback_short (hs : s.At input buf 0 log) (h : input.length < MSG_HEADER_SIZE) :
    s.buf_read_cb A = .error .uninitialised_header := by
  rw [Connection.buf_read_cb, hs.missing, if_pos rfl, hs.input, header_short]
  rw [List.length_take]
  omega

lemma callback_header_eq (hzero : s.to_read_ = 0) (hinput : s.input = h.bytes ++ input) :
    s.buf_read_cb A = if h.type ≠ MSG_TYPE_PING then
        .ok { s with input := input, to_read_ := to_size_t h.size }
      else Connection.read_body A (input.length + 1)
        { s with input := input, to_read_ := to_size_t h.size } := by
  obtain ⟨hlen, hparse⟩ := header_round_trip h
  have htake : (h.bytes ++ input).take MSG_HEADER_SIZE = h.bytes := by
    rw [← hlen, List.take_left]
  have hdrop : (h.bytes ++ input).drop MSG_HEADER_SIZE = input := by
    rw [← hlen, List.drop_left]
  rw [Connection.buf_read_cb, hzero, if_pos rfl, hinput, htake, hparse]
  simp only [hdrop]

lemma callback_header (hs : s.At (h.bytes ++ input) buf 0 log) :
    ∃ u, u.At input buf (to_size_t h.size) log ∧ s.buf_read_cb A =
      if h.type ≠ MSG_TYPE_PING then .ok u else u.read_body A (input.length + 1) := by
  refine ⟨{ s with input := input, to_read_ := to_size_t h.size },
    ⟨rfl, hs.buf, rfl, hs.log, hs.whole⟩, ?_⟩
  exact callback_header_eq hs.missing hs.input

section Invariants

variable {P : Connection → Prop}
variable (htake : ∀ {s : Connection} {text : List UInt8}, P s →
    inserted 8192 (s.input.take (min s.to_read_ 8192)) = some text →
    P (s.take_in (s.input.take (min s.to_read_ 8192)) text))
variable (hdispatch : ∀ {s u : Connection}, P s → s.to_read_ = 0 → s.dispatch A = .ok u → P u)

include htake hdispatch

theorem read_body_invariant {fuel : ℕ} (hs : P s) (hu : s.read_body A fuel = .ok u) : P u := by
  induction fuel generalizing s with
  | zero => exact nomatch hu
  | succ fuel ih =>
    rw [Connection.read_body] at hu
    simp only at hu
    split at hu
    · exact nomatch hu
    · rename_i text htext
      have hin := htake hs htext
      split at hu
      · exact Except.ok.inj hu ▸ hin
      · split at hu
        · rename_i hzero
          obtain ⟨v, hv, hu⟩ := bind_ok.mp hu
          exact ih (hdispatch hin hzero hv) hu
        · exact ih hin hu

theorem callback_invariant (hheader : ∀ {s : Connection} {header : MsgHeader}, P s →
      s.to_read_ = 0 → MsgHeader.of_bytes (s.input.take MSG_HEADER_SIZE) = some header →
      P { s with
        input := s.input.drop MSG_HEADER_SIZE
        to_read_ := to_size_t header.size })
    (hs : P s) (hu : s.buf_read_cb A = .ok u) : P u := by
  rw [Connection.buf_read_cb] at hu
  split at hu
  · rename_i hzero
    split at hu
    · exact nomatch hu
    · rename_i header hparse
      have hnew := hheader hs hzero hparse
      simp only at hu
      split at hu
      · exact Except.ok.inj hu ▸ hnew
      · exact read_body_invariant htake hdispatch hnew hu
  · exact read_body_invariant htake hdispatch hs hu

end Invariants

lemma wire_length (type : Int32) (body : List UInt8) :
    (wire type body).length = MSG_HEADER_SIZE + body.length := by
  rw [wire, List.length_append, (header_round_trip _).1]

end Xcoin
