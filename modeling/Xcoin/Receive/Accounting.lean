import Xcoin.Receive.Copying

/-! What the bytes of one message do to `to_read_` and to the evbuffer: the body branch of
`buf_read_cb` over the machine's integers and over numbers, and over one call and many. -/

namespace Xcoin

open Lib.Runs Lib.Archives Lib.Bytes

-- `to_read_` is the `size_t` of the source; the number in `conn` is what it stands for
structure BodyState where
  to_read_ : UInt64
  conn : Connection

inductive BodyFault
  | receive (fault : ReceiveFault)
  | exit_1
  | new_message
  deriving DecidableEq

-- `std::min`
def min_size (x y : UInt64) : UInt64 := if y < x then y else x

def bufferevent_read (ev_buf : List UInt8) (size : UInt64) : List UInt8 := ev_buf.take size.toNat

def body_loop (A : Archive PingMsg) : ℕ → BodyState → Except BodyFault BodyState
  | 0, _ => .error (.receive .diverged)
  | fuel + 1, s =>
    let buf := bufferevent_read s.conn.input (min_size s.to_read_ 8192)
    let read := Int32.ofNat buf.length
    match inserted 8192 buf with
    | none => .error (.receive .unterminated_array)
    | some text =>
      let to_read_ := s.to_read_ - read.toInt64.toUInt64
      let conn := s.conn.take_in buf text
      if read ≤ 0 then .ok ⟨to_read_, conn⟩
      else if to_read_ = 0 then
        match conn.dispatch A with
        | .error fault => .error (.receive fault)
        | .ok conn => body_loop A fuel ⟨to_read_, conn⟩
      else if to_read_ < 0 then .error .exit_1
      else body_loop A fuel ⟨to_read_, conn⟩

-- a call for a piece of a body; with `to_read_ == 0` it would begin a new message
def body_call (A : Archive PingMsg) (s : BodyState) (piece : List UInt8) :
    Except BodyFault BodyState :=
  if s.to_read_ = 0 then .error .new_message
  else body_loop A (s.conn.input.length + piece.length + 1)
    { s with conn := { s.conn with input := s.conn.input ++ piece } }

def Connection.body_state (c : Connection) : BodyState := ⟨UInt64.ofNat c.to_read_, c⟩

def body_result : Except ReceiveFault Connection → Except BodyFault BodyState
  | .ok c => .ok c.body_state
  | .error fault => .error (.receive fault)

/-- What a client with `k` missing bytes has done with `n` bytes: `min k n` of them are taken,
and a message is decoded just if the last missing one is among them. -/
structure Accounted (c : Connection) (bytes : List UInt8) (u : Connection) : Prop where
  input : u.input = bytes.drop (min c.to_read_ bytes.length)
  to_read_ : u.to_read_ = c.to_read_ - min c.to_read_ bytes.length
  decoded : u.dispatched.length = c.dispatched.length + if c.to_read_ ≤ bytes.length then 1 else 0

/-- Read in one call, no part of these bytes fills the array without a NUL. -/
def Terminated (bytes : List UInt8) : Prop :=
  ∀ i, 8192 * (i + 1) ≤ bytes.length → 0 ∈ (bytes.drop (8192 * i)).take 8192

/-- The calls for the pieces leave the array terminated: `k` bytes are missing, and `held` lie in
the evbuffer before the first call. -/
def CallsTerminated : ℕ → List UInt8 → List (List UInt8) → Prop
  | _, _, [] => True
  | k, held, piece :: pieces => Terminated ((held ++ piece).take k) ∧
      CallsTerminated (k - (held ++ piece).length) [] pieces

/-- How a call, or several, can end on the bytes of one message. -/
inductive BodyOutcome (c : Connection) (bytes : List UInt8) (P : Prop) :
    Except ReceiveFault Connection → Prop
  | unterminated : ¬ P → BodyOutcome c bytes P (.error .unterminated_array)
  | throws : P → c.to_read_ ≤ bytes.length → BodyOutcome c bytes P (.error .archive_exception)
  | returns {u : Connection} : P → Accounted c bytes u → BodyOutcome c bytes P (.ok u)

variable {A : Archive PingMsg} {c d u w : Connection} {bytes data text held : List UInt8}
variable {pieces : List (List UInt8)} {last : List UInt8} {P : Prop} {fuel j k n : ℕ}

lemma min_size_toNat (x : UInt64) : (min_size x 8192).toNat = min x.toNat 8192 := by
  have hmax : (8192 : UInt64).toNat = 8192 := rfl
  simp only [min_size, UInt64.lt_iff_toNat_lt, hmax]
  split
  · rw [hmax]
    omega
  · omega

lemma read_le_zero (h : n ≤ 8192) : Int32.ofNat n ≤ 0 ↔ n = 0 := by
  rw [Int32.le_iff_toInt_le, Int32.toInt_ofNat_of_lt (by omega)]
  simp

lemma read_cast (h : n ≤ 8192) : (Int32.ofNat n).toInt64.toUInt64.toNat = n := by
  have hint : (Int32.ofNat n).toInt64.toInt = n := by
    rw [Int32.toInt_toInt64, Int32.toInt_ofNat_of_lt (by omega)]
  have hpos : 0 ≤ (Int32.ofNat n).toInt64 := by
    rw [Int64.le_iff_toInt_le, hint]
    simp
  rw [Int64.toNat_toUInt64_of_le hpos, Int64.toNatClampNeg, hint, Int.toNat_natCast]

-- no wrap-around: a read takes no more than is missing
lemma missing_sub (hk : k < 2 ^ 64) (hn : n ≤ 8192) (hle : n ≤ k) :
    UInt64.ofNat k - (Int32.ofNat n).toInt64.toUInt64 = UInt64.ofNat (k - n) := by
  have hcast := read_cast hn
  have hwhole : (UInt64.ofNat k).toNat = k := UInt64.toNat_ofNat_of_lt' hk
  apply UInt64.toNat_inj.mp
  rw [UInt64.toNat_sub_of_le, hcast, hwhole, UInt64.toNat_ofNat_of_lt']
  · exact lt_of_le_of_lt (Nat.sub_le k n) hk
  · rw [UInt64.le_iff_toNat_le, hcast, hwhole]
    exact hle

lemma missing_zero (hk : k < 2 ^ 64) : UInt64.ofNat k = 0 ↔ k = 0 := by
  rw [← UInt64.toNat_inj, UInt64.toNat_ofNat_of_lt' hk]
  rfl

lemma dispatch_kept (hd : c.dispatch A = .ok d) : d.to_read_ = c.to_read_ ∧
    d.input = c.input ∧ d.dispatched.length = c.dispatched.length + 1 := by
  rw [Connection.dispatch] at hd
  split at hd
  · simp at hd
  · rw [← Except.ok.inj hd]
    exact ⟨rfl, rfl, by simp⟩

/-- Over machine integers the loop does the same, whatever becomes of it: the branch that would
exit is never taken. -/
theorem body_loop_refines (hk : c.to_read_ < 2 ^ 64) :
    body_loop A fuel c.body_state = body_result (c.read_body A fuel) := by
  induction fuel generalizing c with
  | zero => rfl
  | succ fuel ih =>
    have hread : bufferevent_read c.input (min_size (UInt64.ofNat c.to_read_) 8192) =
        c.input.take (min c.to_read_ 8192) := by
      rw [bufferevent_read, min_size_toNat, UInt64.toNat_ofNat_of_lt' hk]
    have hlen := List.length_take (i := min c.to_read_ 8192) (l := c.input)
    rw [body_loop, Connection.read_body]
    simp only [Connection.body_state, hread]
    generalize c.input.take (min c.to_read_ 8192) = data at hlen ⊢
    cases htext : inserted 8192 data with
    | none => rfl
    | some text =>
      have hmiss : (c.take_in data text).to_read_ = c.to_read_ - data.length := rfl
      have hlt : c.to_read_ - data.length < 2 ^ 64 := lt_of_le_of_lt (Nat.sub_le _ _) hk
      have hneg : ¬ UInt64.ofNat (c.to_read_ - data.length) < 0 := by simp [UInt64.lt_iff_toNat_lt]
      simp only [missing_sub hk (show data.length ≤ 8192 by omega)
        (show data.length ≤ c.to_read_ by omega), read_le_zero (show data.length ≤ 8192 by omega),
        missing_zero hlt, if_neg hneg, hmiss]
      by_cases hnone : data.length = 0
      · rw [if_pos hnone, if_pos hnone]
        rfl
      · rw [if_neg hnone, if_neg hnone]
        by_cases hzero : c.to_read_ - data.length = 0
        · rw [if_pos hzero, if_pos hzero]
          cases hd : (c.take_in data text).dispatch A with
          | error fault => rfl
          | ok d =>
            have hkept : d.to_read_ = c.to_read_ - data.length := (dispatch_kept hd).1
            have hnext := ih (c := d) (hkept ▸ hlt)
            rw [Connection.body_state, hkept] at hnext
            exact hnext
        · rw [if_neg hzero, if_neg hzero]
          exact ih (c := c.take_in data text) hlt

lemma body_call_refines (hpos : c.to_read_ ≠ 0) (hk : c.to_read_ < 2 ^ 64) (piece : List UInt8) :
    body_call A c.body_state piece = body_result (receive A c piece) := by
  rw [body_call, receive, Connection.buf_read_cb, if_neg hpos,
    if_neg (show c.body_state.to_read_ ≠ 0 from (missing_zero hk).not.mpr hpos)]
  simp only [List.length_append]
  exact body_loop_refines (c := { c with input := c.input ++ piece }) hk

lemma terminated_short (h : bytes.length < 8192) : Terminated bytes := by
  intro i hi
  omega

lemma terminated_stop (h : inserted 8192 (bytes.take 8192) = none) : ¬ Terminated bytes := by
  intro hbytes
  obtain ⟨hclean, hlen⟩ := inserted_none h
  rw [List.length_take] at hlen
  exact hclean (hbytes 0 (by omega))

lemma terminated_next (h : inserted 8192 (bytes.take 8192) = some text) :
    Terminated bytes ↔ Terminated (bytes.drop 8192) := by
  constructor
  · intro hbytes i hi
    have hnext := hbytes (i + 1) (by rw [List.length_drop] at hi; omega)
    rw [List.drop_drop]
    rwa [show 8192 * (i + 1) = 8192 + 8192 * i by omega] at hnext
  · intro hrest i hi
    cases i with
    | zero =>
      by_contra hclean
      rw [Nat.mul_zero, List.drop_zero] at hclean
      rw [inserted_full hclean (by rw [List.length_take]; omega)] at h
      cases h
    | succ i =>
      have hnext := hrest i (by rw [List.length_drop]; omega)
      rw [List.drop_drop] at hnext
      rwa [show 8192 * (i + 1) = 8192 + 8192 * i by omega]

lemma Accounted.of_part (h : Accounted d (bytes.drop j) u) (hj : j ≤ bytes.length)
    (hk : j < c.to_read_) (hto : d.to_read_ = c.to_read_ - j)
    (hlog : d.dispatched.length = c.dispatched.length) : Accounted c bytes u := by
  obtain ⟨hinput, hread, hdecoded⟩ := h
  rw [List.length_drop, hto] at hinput hread hdecoded
  refine ⟨?_, by omega, ?_⟩
  · rw [hinput, List.drop_drop]
    congr 1
    omega
  · rw [hdecoded, hlog]
    congr 1
    exact if_congr (by omega) rfl rfl

-- while bytes are missing, a call empties the evbuffer
lemma Accounted.drained (h : Accounted c bytes u) (hlt : bytes.length < c.to_read_) :
    u.input = [] ∧ u.to_read_ = c.to_read_ - bytes.length ∧
      u.dispatched.length = c.dispatched.length := by
  obtain ⟨hinput, hread, hdecoded⟩ := h
  refine ⟨?_, by omega, ?_⟩
  · rw [hinput]
    exact List.drop_of_length_le (by omega)
  · rw [hdecoded, if_neg (by omega), Nat.add_zero]

lemma BodyOutcome.of_part {x : Except ReceiveFault Connection}
    (h : BodyOutcome d (bytes.drop j) P x) (hj : j ≤ bytes.length) (hk : j < c.to_read_)
    (hto : d.to_read_ = c.to_read_ - j) (hlog : d.dispatched.length = c.dispatched.length) :
    BodyOutcome c bytes P x := by
  cases h with
  | unterminated hnot => exact .unterminated hnot
  | throws hP hle =>
    rw [List.length_drop] at hle
    exact .throws hP (by omega)
  | returns hP hu => exact .returns hP (hu.of_part hj hk hto hlog)

lemma BodyOutcome.iff {x : Except ReceiveFault Connection} (h : BodyOutcome c bytes P x)
    (hthrow : x ≠ .error .archive_exception) : (∃ u, x = .ok u ∧ Accounted c bytes u) ↔ P := by
  cases h with
  | unterminated hnot => simp [hnot]
  | throws => exact (hthrow rfl).elim
  | returns hP hu => exact ⟨fun _ => hP, fun _ => ⟨_, rfl, hu⟩⟩

lemma body_left (k : ℕ) (l : List UInt8) : (l.take k).drop 8192 =
    (l.drop (l.take (min k 8192)).length).take (k - (l.take (min k 8192)).length) := by
  rw [← List.drop_take]
  have hlen := List.length_take (i := min k 8192) (l := l)
  by_cases hfull : (l.take (min k 8192)).length = 8192
  · rw [hfull]
  · have hall := List.length_take (i := k) (l := l)
    rw [List.drop_of_length_le (by omega), List.drop_of_length_le (by omega)]

/-- One turn of the loop at a time, with the bytes that are left in the evbuffer. -/
theorem read_body_outcome (hk : c.to_read_ ≠ 0) (hfuel : c.input.length < fuel) :
    BodyOutcome c c.input (Terminated (c.input.take c.to_read_)) (c.read_body A fuel) := by
  induction fuel generalizing c with
  | zero => omega
  | succ fuel ih =>
    have hlen := List.length_take (i := min c.to_read_ 8192) (l := c.input)
    have hread : c.input.take (min c.to_read_ 8192) = (c.input.take c.to_read_).take 8192 := by
      rw [List.take_take, min_comm]
    rw [Connection.read_body]
    simp only
    cases htext : inserted 8192 (c.input.take (min c.to_read_ 8192)) with
    | none =>
      rw [hread] at htext
      exact .unterminated (terminated_stop htext)
    | some text =>
      rw [terminated_next (hread ▸ htext), body_left]
      generalize c.input.take (min c.to_read_ 8192) = data at hlen
      simp only
      by_cases hnone : data.length = 0
      · -- nothing is left in the evbuffer
        have hnil : c.input.length = 0 := by omega
        rw [if_pos hnone]
        refine .returns (terminated_short ?_) ⟨?_, ?_, ?_⟩
        · rw [List.length_take, List.length_drop]
          omega
        · simp only [Connection.take_in, hnone, hnil, Nat.min_zero]
        · simp only [Connection.take_in, hnone, hnil, Nat.min_zero]
        · simp only [Connection.take_in]
          rw [if_neg (by omega), Nat.add_zero]
      · rw [if_neg hnone]
        by_cases hzero : c.to_read_ - data.length = 0
        · have hterminated : Terminated
              ((c.input.drop data.length).take (c.to_read_ - data.length)) := by
            rw [hzero, List.take_zero]
            exact terminated_short (by simp)
          rw [if_pos (show (c.take_in data text).to_read_ = 0 from hzero)]
          cases hd : (c.take_in data text).dispatch A with
          | error fault =>
            have hthrow : fault = .archive_exception := by
              rw [Connection.dispatch] at hd
              split at hd
              · exact (Except.error.inj hd).symm
              · cases hd
            rw [hthrow]
            exact .throws hterminated (by omega)
          | ok d =>
            obtain ⟨hto, hinput, hlog⟩ := dispatch_kept hd
            obtain ⟨f, rfl⟩ : ∃ f, fuel = f + 1 := ⟨fuel - 1, by omega⟩
            have hdone : d.to_read_ = 0 := hto.trans hzero
            change BodyOutcome c c.input _ (d.read_body A (f + 1))
            rw [read_body_stop (Or.inl hdone)]
            refine .returns hterminated ⟨?_, ?_, ?_⟩
            · simp only [Connection.take_in, List.length_nil, List.drop_zero, hinput]
              congr 1
              omega
            · simp only [Connection.take_in, hdone]
              omega
            · simp only [Connection.take_in, hlog]
              rw [if_pos (by omega)]
        · rw [if_neg (show (c.take_in data text).to_read_ ≠ 0 from hzero)]
          have hnext := ih (c := c.take_in data text) hzero (by
            simp only [Connection.take_in, List.length_drop]
            omega)
          exact hnext.of_part (by omega) (by omega) rfl rfl

lemma call_outcome (hk : c.to_read_ ≠ 0) (piece : List UInt8) :
    BodyOutcome c (c.input ++ piece) (Terminated ((c.input ++ piece).take c.to_read_))
      (receive A c piece) := by
  have h := read_body_outcome (A := A) (c := { c with input := c.input ++ piece }) hk
    (Nat.lt_succ_self _)
  rw [receive, Connection.buf_read_cb, if_neg hk]
  generalize Connection.read_body A _ _ = x at h ⊢
  cases h with
  | unterminated hnot => exact .unterminated hnot
  | throws hP hle => exact .throws hP hle
  | returns hP hu => exact .returns hP ⟨hu.input, hu.to_read_, hu.decoded⟩

/-- The calls before the last one leave the body incomplete, so what they took is a part of it. -/
theorem calls_outcome (hk : c.to_read_ ≠ 0)
    (hmore : pieces = [] ∨ (c.input ++ pieces.flatten).length < c.to_read_) :
    BodyOutcome c (c.input ++ (pieces.flatten ++ last))
      (CallsTerminated c.to_read_ c.input (pieces ++ [last]))
      (run (receive A) c (pieces ++ [last])) := by
  induction pieces generalizing c with
  | nil =>
    simp only [List.nil_append, List.flatten_nil, run_singleton, CallsTerminated, and_true]
    exact call_outcome hk last
  | cons p pieces ih =>
    replace hmore := hmore.resolve_left (List.cons_ne_nil p pieces)
    rw [List.flatten_cons, ← List.append_assoc, List.length_append] at hmore
    have hfirst := call_outcome (A := A) hk p
    rw [List.cons_append, run_cons, CallsTerminated]
    generalize receive A c p = x at hfirst ⊢
    cases hfirst with
    | unterminated hnot => exact .unterminated fun h => hnot h.1
    | throws _ hle => omega
    | @returns u hP hu =>
      obtain ⟨hnil, hto, hlog⟩ := hu.drained (by omega)
      have hnext := ih (c := u) (by omega) (Or.inr (by rw [hnil, List.nil_append]; omega))
      rw [hnil, List.nil_append, hto] at hnext
      rw [and_iff_right hP, List.flatten_cons, List.append_assoc, ← List.append_assoc]
      refine BodyOutcome.of_part (d := u) (j := (c.input ++ p).length) ?_ ?_ (by omega) hto hlog
      · rw [List.drop_left]
        exact hnext
      · simp only [List.length_append]
        omega

theorem calls_refine (hk : c.to_read_ ≠ 0) (hsize : c.to_read_ < 2 ^ 64)
    (hmore : pieces = [] ∨ (c.input ++ pieces.flatten).length < c.to_read_) :
    run (body_call A) c.body_state (pieces ++ [last]) =
      body_result (run (receive A) c (pieces ++ [last])) := by
  induction pieces generalizing c with
  | nil =>
    simp only [List.nil_append, run_singleton]
    exact body_call_refines hk hsize last
  | cons p pieces ih =>
    replace hmore := hmore.resolve_left (List.cons_ne_nil p pieces)
    rw [List.flatten_cons, ← List.append_assoc, List.length_append] at hmore
    rw [List.cons_append, run_cons, run_cons, body_call_refines hk hsize]
    have hfirst := call_outcome (A := A) hk p
    generalize receive A c p = x at hfirst ⊢
    cases hfirst with
    | unterminated => rfl
    | throws => rfl
    | @returns u _ hu =>
      obtain ⟨hnil, hto, -⟩ := hu.drained (by omega)
      exact ih (c := u) (by omega) (by omega) (Or.inr (by rw [hnil, List.nil_append]; omega))

/-- `buf_read_cb` inside a body: the calls account for every byte, over machine integers as over
numbers, just when no read fills the array without a NUL; where a piece is cut does not matter
otherwise. -/
theorem body_accounting_iff (A : Archive PingMsg) (c : Connection) (hk : c.to_read_ ≠ 0)
    (hsize : c.to_read_ < 2 ^ 64) :
    (∀ pieces last, pieces = [] ∨ (c.input ++ pieces.flatten).length < c.to_read_ →
      run (body_call A) c.body_state (pieces ++ [last]) =
        body_result (run (receive A) c (pieces ++ [last])) ∧
      (run (receive A) c (pieces ++ [last]) ≠ .error .archive_exception →
        ((∃ u, run (receive A) c (pieces ++ [last]) = .ok u ∧
            Accounted c (c.input ++ (pieces.flatten ++ last)) u) ↔
          CallsTerminated c.to_read_ c.input (pieces ++ [last])))) ∧
    (∀ p q, q ≠ [] → (c.input ++ (p ++ q)).length ≤ c.to_read_ →
      run (receive A) c [p, q] ≠ .error .archive_exception →
      receive A c (p ++ q) ≠ .error .archive_exception →
      ((∃ u v, run (receive A) c [p, q] = .ok u ∧ receive A c (p ++ q) = .ok v ∧
          u.to_read_ = v.to_read_ ∧ u.input.length = v.input.length) ↔
        CallsTerminated c.to_read_ c.input [p, q] ∧
          Terminated ((c.input ++ (p ++ q)).take c.to_read_))) := by
  refine ⟨fun pieces last hmore => ⟨calls_refine hk hsize hmore, ?_⟩, ?_⟩
  · exact (calls_outcome hk hmore).iff
  · intro p q hq hle hthrow hthrow'
    have hpos : 0 < q.length := List.length_pos_iff.mpr hq
    have hmore : (c.input ++ [p].flatten).length < c.to_read_ := by
      simp only [List.flatten_singleton, List.length_append] at hle ⊢
      omega
    have htwo : BodyOutcome c (c.input ++ ([p].flatten ++ q))
        (CallsTerminated c.to_read_ c.input ([p] ++ [q])) (run (receive A) c ([p] ++ [q])) :=
      calls_outcome hk (Or.inr hmore)
    rw [List.flatten_singleton, List.singleton_append] at htwo
    have hone := call_outcome (A := A) hk (p ++ q)
    generalize run (receive A) c [p, q] = x at htwo hthrow ⊢
    generalize receive A c (p ++ q) = y at hone hthrow' ⊢
    rw [← htwo.iff hthrow, ← hone.iff hthrow']
    constructor
    · rintro ⟨u, v, rfl, rfl, -, -⟩
      exact ⟨(htwo.iff hthrow).mpr (by cases htwo; assumption),
        (hone.iff hthrow').mpr (by cases hone; assumption)⟩
    · rintro ⟨⟨u, hu, hinput, hread, -⟩, ⟨v, hv, hinput', hread', -⟩⟩
      exact ⟨u, v, hu, hv, by rw [hread, hread'], by rw [hinput, hinput']⟩

-- inside the body of a ping, with all of it still to come
def inside_body (m : PingMsg) : Connection :=
  { Connection.fresh false with to_read_ := m.text.length }

theorem body_accounting_iff_sample :
    ∃ u, run (receive textArchive) (inside_body (samplePing 1))
        [(samplePing 1).text.take 12, (samplePing 1).text.drop 12] = .ok u ∧
      u.to_read_ = 0 ∧ u.dispatched.length = 1 := by
  have hat : (inside_body (samplePing 1)).At [] [] (samplePing 1).text.length [] :=
    ⟨rfl, rfl, rfl, rfl, by simp [inside_body, Connection.fresh]⟩
  have hwhole : [(samplePing 1).text.take 12, (samplePing 1).text.drop 12].flatten =
      (samplePing 1).text ++ [] := by simp
  obtain ⟨v, hv, -⟩ := receive_rest hat (textArchive.load_whole (samplePing 1))
    (ping_text_clean 0 1 0) hwhole (by decide) (by decide)
  obtain ⟨u, hu, hinput, hread, hdecoded⟩ := (((body_accounting_iff textArchive
    (inside_body (samplePing 1)) (by decide) (by decide)).1 [(samplePing 1).text.take 12]
    ((samplePing 1).text.drop 12) (Or.inr (by decide))).2 (by
      rw [List.singleton_append, hv]
      simp)).mpr ⟨terminated_short (by decide), terminated_short (by decide), trivial⟩
  refine ⟨u, hu, hread.trans (by decide), hdecoded.trans ?_⟩
  decide

/-- The body of a ping of 8 KB, in the evbuffer as a whole: the first read fills the array, and
inserting it reads on behind its end. -/
theorem body_unaccounted : ¬ ∃ u, receive textArchive (inside_body (PingMsg.new 0 1 8))
      (PingMsg.new 0 1 8).text = .ok u ∧
    Accounted (inside_body (PingMsg.new 0 1 8)) (PingMsg.new 0 1 8).text u := by
  have hlarge := large_text 0 1
  have hat : (inside_body (PingMsg.new 0 1 8)).At [] [] (PingMsg.new 0 1 8).text.length [] :=
    ⟨rfl, rfl, rfl, rfl, by simp [inside_body, Connection.fresh]⟩
  rw [receive_full hat hlarge hlarge (ping_text_clean 0 1 8)]
  simp

end Xcoin
