import Xcoin.Ping.Hops

/-! How many pings a flood takes: one for every edge that leaves a peer reached from the
initiator, in whatever order they are delivered. -/

namespace Xcoin

open Relation Lib

variable {V : Type} [Fintype V] (G : Peers V)

open Classical in
noncomputable def Peers.reached_from (peer0 : V) : Finset V :=
  {v | ReflTransGen G.Edge peer0 v}

variable {G} {peer0 : V} {start_us : Int64} {fs gs : List (Frame V)}

lemma mem_reached_from {v : V} : v ∈ G.reached_from peer0 ↔ ReflTransGen G.Edge peer0 v := by
  simp [Peers.reached_from]

variable [DecidableEq V] {s t : Flood V}

omit [Fintype V] in
lemma delivers_count (h : s.Delivers G fs t) : t.delivered.card = s.delivered.card + fs.length := by
  induction h with
  | refl => rfl
  | step _ _ ih =>
    rw [Peers.buf_read_cb, Multiset.card_cons, ih, List.length_append, List.length_singleton]
    omega

omit [Fintype V] in
lemma delivers_sound (h : (G.init_ping peer0 start_us).Delivers G fs s) :
    Flooding.Sound G.out_clients_ peer0 s.plain :=
  Flooding.run_sound (flood_refines (reachable_iff.mpr ⟨fs, h⟩))

omit [Fintype V] in
lemma quiet_received (h : (G.init_ping peer0 start_us).Delivers G fs s) (hq : s.in_flight = 0)
    (v : V) : s.G_RECEIVED v = true ↔ ReflTransGen G.Edge peer0 v := by
  apply (delivers_sound h).quiescent
  rw [Flood.plain, hq]
  rfl

omit [Fintype V] in
lemma received_passed (h : (G.init_ping peer0 start_us).Delivers G fs s) {u v : V}
    (hu : s.G_RECEIVED u = true) (hv : G.Edge u v) :
    (∃ f ∈ s.in_flight, f.edge = (u, v)) ∨ s.G_RECEIVED v = true := by
  cases (delivers_sound h).pending hu hv with
  | inl hf => exact .inl (Multiset.mem_map.mp hf)
  | inr hr => exact .inr hr

lemma delivered_or_flying (h : (G.init_ping peer0 start_us).Delivers G fs s) :
    fs.length + s.in_flight.card = ∑ u with s.G_RECEIVED u, (G.out_clients_ u).card := by
  have htotal := (delivers_sound h).card_total
  have hcount : s.delivered.card = fs.length := by
    rw [delivers_count h, Peers.init_ping, Multiset.card_zero, Nat.zero_add]
  simp only [Flood.plain, Multiset.card_map, hcount] at htotal
  rw [Nat.add_comm, htotal]
  congr

lemma received_reached (h : (G.init_ping peer0 start_us).Delivers G fs s) {u : V}
    (hu : s.G_RECEIVED u = true) : u ∈ G.reached_from peer0 :=
  mem_reached_from.mpr ((delivers_sound h).reached hu)

lemma received_sum_le (h : (G.init_ping peer0 start_us).Delivers G fs s) :
    ∑ u with s.G_RECEIVED u, (G.out_clients_ u).card ≤
      ∑ u ∈ G.reached_from peer0, (G.out_clients_ u).card := by
  apply Finset.sum_le_sum_of_subset
  intro u hu
  exact received_reached h (Finset.mem_filter.mp hu).2

lemma received_sum_quiet (h : (G.init_ping peer0 start_us).Delivers G fs s)
    (hq : s.in_flight = 0) :
    ∑ u with s.G_RECEIVED u, (G.out_clients_ u).card =
      ∑ u ∈ G.reached_from peer0, (G.out_clients_ u).card := by
  apply Finset.sum_congr _ fun _ _ => rfl
  ext u
  rw [Finset.mem_filter_univ, quiet_received h hq, mem_reached_from]

/-- Every order of deliveries ends, so what holds at the end and before a delivery whenever it
holds after it holds throughout. -/
theorem deliveries_induction {P : List (Frame V) → Flood V → Prop}
    (hquiet : ∀ fs s, (G.init_ping peer0 start_us).Delivers G fs s → s.in_flight = 0 → P fs s)
    (hstep : ∀ fs s f, (G.init_ping peer0 start_us).Delivers G fs s → f ∈ s.in_flight →
      P (fs ++ [f]) (G.buf_read_cb f s) → P fs s)
    (h : (G.init_ping peer0 start_us).Delivers G fs s) : P fs s := by
  induction hn : ∑ u ∈ G.reached_from peer0, (G.out_clients_ u).card - fs.length
    generalizing fs s with
  | zero =>
    have hcount := delivered_or_flying h
    have hle := received_sum_le h
    exact hquiet fs s h (Multiset.card_eq_zero.mp (by omega))
  | succ n ih =>
    by_cases hq : s.in_flight = 0
    · exact hquiet fs s h hq
    · obtain ⟨f, hf⟩ := Multiset.exists_mem_of_ne_zero hq
      have hlen : (fs ++ [f]).length = fs.length + 1 := by simp
      exact hstep fs s f h hf (ih (h.step hf) (by omega))

theorem delivers_to_quiet (h : (G.init_ping peer0 start_us).Delivers G fs s) :
    ∃ gs t, (G.init_ping peer0 start_us).Delivers G (fs ++ gs) t ∧ t.in_flight = 0 := by
  apply deliveries_induction (P := fun fs _ => ∃ gs t,
    (G.init_ping peer0 start_us).Delivers G (fs ++ gs) t ∧ t.in_flight = 0) _ _ h
  · intro fs s h hq
    exact ⟨[], s, by rwa [List.append_nil], hq⟩
  · intro fs s f _ _ ih
    obtain ⟨gs, t, ht, hq⟩ := ih
    rw [List.append_assoc] at ht
    exact ⟨f :: gs, t, ht, hq⟩

/-- The frames delivered and those in flight are as many as the clients of the peers that have
received the ping, so that every order of deliveries ends, and each after the same number. -/
theorem ping_message_count (G : Peers V) (peer0 : V) (start_us : Int64) (fs : List (Frame V))
    (s : Flood V) (h : (G.init_ping peer0 start_us).Delivers G fs s) :
    fs.length + s.in_flight.card = ∑ u with s.G_RECEIVED u, (G.out_clients_ u).card ∧
    fs.length ≤ ∑ u ∈ G.reached_from peer0, (G.out_clients_ u).card ∧
    (s.in_flight = 0 ↔ fs.length = ∑ u ∈ G.reached_from peer0, (G.out_clients_ u).card) ∧
    ∃ gs t, (G.init_ping peer0 start_us).Delivers G (fs ++ gs) t ∧ t.in_flight = 0 := by
  have hcount := delivered_or_flying h
  have hle := received_sum_le h
  refine ⟨hcount, by omega, ⟨?_, ?_⟩, delivers_to_quiet h⟩
  · intro hq
    rw [received_sum_quiet h hq, hq, Multiset.card_zero] at hcount
    omega
  · intro hall
    apply Multiset.card_eq_zero.mp
    omega

theorem ping_message_count_sample : ∃ fs s, fs ≠ [] ∧
    (sampleFlood.init_ping 0 7).Delivers sampleFlood fs s ∧ s.in_flight = 0 ∧
    fs.length = ∑ u ∈ sampleFlood.reached_from 0, (sampleFlood.out_clients_ u).card := by
  let first : Frame (Fin 3) := ⟨0, 1, PingMsg.new 7 1 0⟩
  let second : Frame (Fin 3) := ⟨1, 0, PingMsg.new 7 2 0⟩
  have hone : (sampleFlood.init_ping 0 7).Delivers sampleFlood [first]
      (sampleFlood.buf_read_cb first (sampleFlood.init_ping 0 7)) := .step .refl (by decide)
  have hrun : (sampleFlood.init_ping 0 7).Delivers sampleFlood [first, second]
      (sampleFlood.buf_read_cb second
        (sampleFlood.buf_read_cb first (sampleFlood.init_ping 0 7))) :=
    .step hone (by decide)
  have hquiet : (sampleFlood.buf_read_cb second
      (sampleFlood.buf_read_cb first (sampleFlood.init_ping 0 7))).in_flight = 0 := by decide
  exact ⟨_, _, by simp, hrun, hquiet,
    (ping_message_count sampleFlood 0 7 _ _ hrun).2.2.1.mp hquiet⟩

end Xcoin
