import Xcoin.Receive.FrameSize
import Xcoin.Receive.Streams

/-! What can go wrong on the way of the flood's bytes, and that it can always be completed. -/

namespace Xcoin

open Relation Lib.Runs Lib.Archives Lib.Bytes Lib.Decimal Lib.TextTokens

variable {V : Type} [DecidableEq V] {A : Archive PingMsg} {G : Peers V} {peer0 : V}
  {start_us : Int64} {s s' : Streams V} {t : Flood V} {f : Frame V} {p : V × V}
  {fs : List (Frame V)} {c : Connection} {m : PingMsg} {piece later : List UInt8}

/-- The first eight bytes of what a client waits for are always taken in. -/
lemma eight_bytes (h : c.Awaits A m later) : ¬ c.Chokes (later.take MSG_HEADER_SIZE) := by
  have hle : (later.take MSG_HEADER_SIZE).length ≤ 8 := List.length_take_le _ _
  rw [Connection.Chokes]
  cases h with
  | unread hat =>
    have hfull : ((ping_frame A m).take MSG_HEADER_SIZE).length = MSG_HEADER_SIZE := by
      rw [List.length_take, ping_frame, wire_length]
      omega
    rw [if_pos hat.missing, hfull, MSG_HEADER_SIZE]
    omega
  | inside _ hne hat =>
    rw [if_neg (by rw [hat.missing]; exact fun h => hne (List.length_eq_zero_iff.mp h))]
    omega

variable [Fintype V]

lemma arrive_iff (hsent : G.Sendable A start_us)
    (ht : (G.init_ping peer0 start_us).Delivers G fs t) (hs : s.Refines A t)
    (hcut : s.in_transit p = piece ++ later) (hpiece : piece ≠ []) :
    (∃ s', s.arrive A G p piece later = .ok s') ↔ ¬ (s.client p).Chokes piece := by
  obtain ⟨f, hf, rfl⟩ := in_transit_frame hs (p := p) (by simp [hcut, hpiece])
  have hawaits := at_client_awaits hs hf
  rw [hcut] at hawaits
  obtain ⟨hbad, hgood⟩ := receive_awaits (flight_sent hsent ht hf) hawaits
  constructor
  · rintro ⟨s', hs'⟩ hchokes
    obtain ⟨d, hd, -⟩ := arrive_ok.mp hs'
    obtain ⟨e, he⟩ := hbad hchokes
    rw [he] at hd
    cases hd
  · intro hfree
    obtain ⟨d, hd, -⟩ := hgood hfree
    exact ⟨_, arrive_ok.mpr ⟨d, hd, rfl⟩⟩

/-- A frame in flight can be delivered, eight bytes at a time. -/
lemma frame_arrives (hsent : G.Sendable A start_us)
    (ht : (G.init_ping peer0 start_us).Delivers G fs t) (hs : s.Refines A t)
    (hf : f ∈ t.in_flight) :
    ∃ s', ReflTransGen (Streams.Step A G) s s' ∧ s'.Refines A (G.buf_read_cb f t) := by
  induction hn : (s.in_transit f.edge).length using Nat.strong_induction_on generalizing s with
  | _ n ih =>
    have hne := (hs.flying hf).ne_nil
    have hcut := (List.take_append_drop MSG_HEADER_SIZE (s.in_transit f.edge)).symm
    have hpiece : (s.in_transit f.edge).take MSG_HEADER_SIZE ≠ [] := by
      simp [hne, MSG_HEADER_SIZE]
    obtain ⟨u, hu⟩ := (arrive_iff hsent ht hs hcut hpiece).mpr (eight_bytes (hs.flying hf))
    have hstep : Streams.Step A G s u := .arrive hcut hpiece hu
    rcases step_refines hsent ht hs hf hcut hu with ⟨hlater, -, hnext⟩ | ⟨-, hnext⟩
    · have hshort : (u.in_transit f.edge).length < n := by
        have hpos := List.length_pos_iff.mpr hne
        rw [hlater, List.length_drop, MSG_HEADER_SIZE]
        omega
      obtain ⟨s', hrun, hs'⟩ := ih _ hshort hnext rfl
      exact ⟨s', .head hstep hrun, hs'⟩
    · exact ⟨u, .single hstep, hnext⟩

theorem streams_complete (hsent : G.Sendable A start_us)
    (ht : (G.init_ping peer0 start_us).Delivers G fs t) (hs : s.Refines A t) :
    ∃ s', ReflTransGen (Streams.Step A G) s s' ∧ ∀ p, s'.in_transit p = [] := by
  refine deliveries_induction (P := fun _ t => ∀ s : Streams V, s.Refines A t →
    ∃ s', ReflTransGen (Streams.Step A G) s s' ∧ ∀ p, s'.in_transit p = []) ?_ ?_ ht s hs
  · intro fs t _ hq s hs
    exact ⟨s, .refl, hs.quiet_iff.mpr hq⟩
  · intro fs t f ht hf ih s hs
    obtain ⟨u, hrun, hu⟩ := frame_arrives hsent ht hs hf
    obtain ⟨s', hrest, hnil⟩ := ih u hu
    exact ⟨s', hrun.trans hrest, hnil⟩

omit [DecidableEq V] in
lemma text_sendable (hcard : Fintype.card V < 2 ^ 31) (hsize : ∀ u, G.msg_size_ u < 2 ^ 20) :
    G.Sendable textArchive start_us := by
  intro u hop hpos hle
  refine ⟨textArchive.save_ne_nil _, ping_text_clean _ _ _, ?_⟩
  have hstart : (int_text start_us.toInt).length ≤ 20 := by
    have hlo := start_us.le_toInt
    have hhi := start_us.toInt_lt
    have hdigits := int_text_length_le (z := start_us.toInt) (k := 19) (by decide) (by omega)
    omega
  have hhop : (int_text (hop : ℤ)).length ≤ 10 := by
    rw [int_text_nat]
    exact digits_length_le (by decide) (by omega)
  have hdata : (digits (1024 * G.msg_size_ u)).length ≤ 10 := by
    have := hsize u
    exact digits_length_le (by decide) (by omega)
  have harchive : archive_start.length = 33 := by decide
  have := hsize u
  rw [text_encoding.length, text_overhead, harchive]
  omega

/-- While every callback takes its piece in, the bytes carry a flood of frames: each client has
decoded the frame that was delivered over it and nothing else, and when no byte is on its way
the peers reached from `peer0` are those that have received the ping. -/
theorem ping_streams_cover (A : Archive PingMsg) (G : Peers V) (peer0 : V) (start_us : Int64)
    (hsent : G.Sendable A start_us) (s : Streams V)
    (h : ReflTransGen (Streams.Step A G) (Streams.init_ping A G peer0 start_us) s) :
    (∃ fs t, (G.init_ping peer0 start_us).Delivers G fs t ∧ s.G_RECEIVED = t.G_RECEIVED ∧
      (∀ p, s.in_transit p = [] ↔ ∀ f ∈ t.in_flight, f.edge ≠ p) ∧
      (∀ f ∈ fs, (s.client f.edge).dispatched = [(A.save f.msg, f.msg)]) ∧
      ∀ p, (∀ f ∈ fs, f.edge ≠ p) → (s.client p).dispatched = []) ∧
    ((∀ p, s.in_transit p = []) →
      (∀ v, s.G_RECEIVED v = true ↔ ReflTransGen G.Edge peer0 v) ∧
      ∀ p, (s.client p).to_read_ = 0 ∧ (s.client p).buf_ss_ = []) := by
  obtain ⟨fs, t, ht, hs⟩ := streams_refine hsent h
  have hlog : ∀ {f : Frame V}, f ∈ t.delivered ↔ f ∈ fs := (delivers_hops ht).delivered
  constructor
  · refine ⟨fs, t, ht, hs.flag, fun p => hs.empty_iff, ?_, ?_⟩
    · intro f hf
      exact (hs.landed (hlog.mpr hf)).2.log
    · intro p hp
      by_cases hfly : ∃ f ∈ t.in_flight, f.edge = p
      · obtain ⟨f, hf, rfl⟩ := hfly
        exact (hs.flying hf).log
      · refine (hs.idle ?_).2.log
        intro f hf hedge
        cases Multiset.mem_add.mp hf with
        | inl hf => exact hfly ⟨f, hf, hedge⟩
        | inr hf => exact hp f (hlog.mp hf) hedge
  · intro hnil
    have hq := (hs.quiet_iff).mp hnil
    constructor
    · rw [hs.flag]
      exact quiet_received ht hq
    · intro p
      by_cases hland : ∃ f ∈ t.delivered, f.edge = p
      · obtain ⟨f, hf, rfl⟩ := hland
        exact ⟨(hs.landed hf).2.missing, (hs.landed hf).2.buf⟩
      · have hat := (hs.idle (p := p) (by
          intro f hf hedge
          rw [hq, zero_add] at hf
          exact hland ⟨f, hf, hedge⟩)).2
        exact ⟨hat.missing, hat.buf⟩

theorem ping_streams_cover_sample : ∃ s,
    ReflTransGen (Streams.Step textArchive sampleFlood)
      (Streams.init_ping textArchive sampleFlood 0 7) s ∧
    ∀ v, s.G_RECEIVED v = true ↔ ReflTransGen sampleFlood.Edge 0 v := by
  have hsent : sampleFlood.Sendable textArchive 7 := text_sendable (by decide) (by decide)
  obtain ⟨s, hrun, hnil⟩ := streams_complete hsent .refl (init_refines textArchive sampleFlood 0 7)
  exact ⟨s, hrun, ((ping_streams_cover textArchive sampleFlood 0 7 hsent s hrun).2 hnil).1⟩

/-- A piece is taken in unless it ends inside a header or fills the array of a read, and from
every state the streams can still be delivered to their end. -/
theorem ping_streams_complete (A : Archive PingMsg) (G : Peers V) (peer0 : V)
    (start_us : Int64) (hsent : G.Sendable A start_us) (s : Streams V)
    (h : ReflTransGen (Streams.Step A G) (Streams.init_ping A G peer0 start_us) s) :
    (∀ p piece later, s.in_transit p = piece ++ later → piece ≠ [] →
      ((∃ t, s.arrive A G p piece later = .ok t) ↔ ¬ (s.client p).Chokes piece)) ∧
    ∃ t, ReflTransGen (Streams.Step A G) s t ∧ ∀ p, t.in_transit p = [] := by
  obtain ⟨fs, t, ht, hs⟩ := streams_refine hsent h
  exact ⟨fun p piece later => arrive_iff hsent ht hs, streams_complete hsent ht hs⟩

theorem ping_streams_complete_sample : ∃ s,
    ReflTransGen (Streams.Step textArchive sampleFlood)
      (Streams.init_ping textArchive sampleFlood 0 7) s ∧ ∀ p, s.in_transit p = [] :=
  (ping_streams_complete textArchive sampleFlood 0 7 (text_sendable (by decide) (by decide))
    _ .refl).2

end Xcoin
