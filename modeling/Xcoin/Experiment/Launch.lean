import Xcoin.Experiment.Wiring
import Xcoin.Receive.Completion
import Xcoin.Topology.Bounds

/-! `do_experiment` from the drawn graph to the last byte: every node starts, the connections
are the edges of the graph, and the ping of peer0 is decoded once on each of them. -/

namespace Xcoin

open Relation Lib Lib.Choices Lib.Choices.Chance Lib.Connectivity

variable {n : ℕ}

/-- What an experiment on `graph` has started. -/
structure Launched (graph : LilMatrix n) (args : Args) (ps : Fin n → Process) : Prop where
  started : (setup_multiple_node_xml n).map
    (ShadowHost.start (setup_multiple_node_data graph args)) = List.ofFn fun i => .ok (ps i)
  initiator : ∀ i, (ps i).initiates = true ↔ (i : ℕ) = 0
  edges : ∀ i j, (peers_of ps).Edge i j ↔ graph.Edge i j
  clients : ∀ i, (ps i).outgoing.clients.length = ((peers_of ps).out_clients_ i).card
  sizes : ∀ i, (peers_of ps).msg_size_ i = args.msgsize.toNat

variable {graph : LilMatrix n} {args : Args} {v w : Fin n}

lemma strong_row (hn : 1 < n) (h : Strong graph.Edge) (v : Fin n) : graph.row v ≠ [] := by
  have hother : ∃ w : Fin n, w ≠ v := by
    by_cases hv : (v : ℕ) = 0
    · exact ⟨⟨1, hn⟩, fun h => by simp [← h] at hv⟩
    · exact ⟨⟨0, by omega⟩, fun h => by simp [← h] at hv⟩
  obtain ⟨w, hw⟩ := hother
  cases (h v w).cases_head with
  | inl hvw => exact absurd hvw.symm hw
  | inr hstep =>
    obtain ⟨u, hu, -⟩ := hstep
    exact List.ne_nil_of_mem (LilMatrix.mem_row.mpr hu)

lemma launch (hn : 1 < n) (h : Strong graph.Edge) (hports : BASE_PORT + n ≤ 2 ^ 16)
    (hsize : FitsInt args.msgsize) (hlevel : FitsInt args.log) :
    Launched graph args (launched graph args) where
  started := by
    rw [setup_multiple_node_xml, List.map_map, ← List.map_coe_finRange_eq_range, List.map_map,
      List.ofFn_eq_map]
    apply List.map_congr_left
    intro v _
    exact start_launched (strong_row hn h v) hports hsize hlevel
  initiator i := by
    have hname : (launched graph args i).initiates = true ↔ peer_name i = "peer0" := by
      simp [Process.initiates, launched, node_config]
    rw [hname]
    constructor
    · exact peer_name_zero
    · intro hi
      rw [hi]
      decide
  edges i j := launched_edge hports
  clients i := by
    have hlen := (launched_clients graph args i).length_eq
    rwa [List.length_map, List.length_map, ← launched_out_clients hports] at hlen
  sizes i := rfl

section Bytes

variable {V : Type} [DecidableEq V] [Fintype V] {G : Peers V} {peer0 u x : V} {start_us : Int64}
  {s : Streams V} {A : Lib.Archives.Archive PingMsg}

/-- When no byte is on its way, every connection of a peer that the ping has reached has decoded
one ping. -/
lemma quiet_decodes (hsent : G.Sendable A start_us)
    (h : ReflTransGen (Streams.Step A G) (Streams.init_ping A G peer0 start_us) s)
    (hnil : ∀ p, s.in_transit p = []) (hu : ReflTransGen G.Edge peer0 u) (hux : G.Edge u x) :
    ∃ hop : ℕ, 1 ≤ hop ∧ hop ≤ Fintype.card V ∧ (s.client (u, x)).dispatched =
      [(A.save (PingMsg.new start_us hop (G.msg_size_ u)),
        PingMsg.new start_us hop (G.msg_size_ u))] := by
  obtain ⟨fs, t, ht, hs⟩ := streams_refine hsent h
  have hempty := hs.quiet_iff.mp hnil
  have hreceived := (quiet_received ht hempty u).mpr hu
  have hcarried := (delivers_sound ht).once (u := u) (v := x) hreceived hux
  have hone : (t.delivered.map Frame.edge).count (u, x) = 1 := by
    simpa [Flooding.State.carried, Flood.plain, hempty] using hcarried
  have hmem : (u, x) ∈ t.delivered.map Frame.edge := by
    apply Multiset.count_pos.mp
    omega
  obtain ⟨f, hf, hedge⟩ := Multiset.mem_map.mp hmem
  have hfs := (delivers_hops ht).delivered.mp hf
  obtain ⟨path, hpath, hbroadcast⟩ := (delivers_hops ht).sent (.inr hfs)
  have hmsg := (mem_broadcast.mp hbroadcast).2.2
  have hsrc : f.src = u := congrArg Prod.fst hedge
  rw [hsrc] at hmsg
  refine ⟨path.length, hpath.length_pos, hpath.simple.length_le_card, ?_⟩
  rw [← hedge, (hs.landed hf).2.log, hmsg]

lemma quiet_streams (hsent : G.Sendable A start_us)
    (h : ReflTransGen (Streams.Step A G) (Streams.init_ping A G peer0 start_us) s)
    (hnil : ∀ p, s.in_transit p = []) (v : V) :
    s.G_RECEIVED v = true ↔ ReflTransGen G.Edge peer0 v := by
  obtain ⟨fs, t, ht, hs⟩ := streams_refine hsent h
  rw [hs.flag]
  exact quiet_received ht (hs.quiet_iff.mp hnil) v

end Bytes

variable {ps : Fin n → Process} {start_us : Int64}

lemma Launched.sendable (h : Launched graph args ps) (hports : BASE_PORT + n ≤ 2 ^ 16)
    (hsize : 0 ≤ args.msgsize ∧ args.msgsize < 2 ^ 20) :
    (peers_of ps).Sendable textArchive start_us := by
  apply text_sendable
  · rw [Fintype.card_fin]
    omega
  · intro v
    rw [h.sizes]
    omega

lemma Launched.reaches (h : Launched graph args ps) (hstrong : Strong graph.Edge) (v w : Fin n) :
    ReflTransGen (peers_of ps).Edge v w :=
  (hstrong v w).lift id fun a b hab => (h.edges a b).mpr hab

/-- Whatever graph is drawn, all nodes load their files and start. -/
theorem connect_graph_launches {connected_components : LilMatrix n → ℕ × (Fin n → ℕ)}
    (hcc : ∀ t, Labelled t.Edge (connected_components t)) (const_out_deg : Bool) (fuel : ℕ)
    {peer_cnt : ℕ} (hpos : 1 ≤ peer_cnt) (hlt : peer_cnt < n) (hports : BASE_PORT + n ≤ 2 ^ 16)
    (hsize : 0 ≤ args.msgsize ∧ args.msgsize < 2 ^ 20) (hlevel : FitsInt args.log) :
    Always (connect_graph connected_components (fuel + 1) peer_cnt const_out_deg) fun graph =>
      Strong graph.Edge ∧ Launched graph args (launched graph args) := by
  have hfits : FitsInt args.msgsize := by
    rw [FitsInt, int_min, int_max]
    omega
  apply (connect_graph_always hcc const_out_deg fuel hpos hlt).imp
  rintro graph ⟨-, hstrong⟩
  exact ⟨hstrong, launch (by omega) hstrong hports hfits hlevel⟩

/-- Whatever graph `connect_graph` draws, all nodes load their files and start and peer0 alone
begins; the message size is not negative and below 1 GiB, the log level an `int`. As long as
every callback has taken its piece in, the ping can still arrive everywhere; once nothing is on
its way every node has received it, and decoded it once on each connection. -/
theorem experiment_completes (connected_components : LilMatrix n → ℕ × (Fin n → ℕ))
    (hcc : ∀ t, Labelled t.Edge (connected_components t)) (const_out_deg : Bool) (fuel : ℕ)
    {peer_cnt : ℕ} (hpos : 1 ≤ peer_cnt) (hlt : peer_cnt < n) (hports : BASE_PORT + n ≤ 2 ^ 16)
    {args : Args} (hsize : 0 ≤ args.msgsize ∧ args.msgsize < 2 ^ 20) (hlevel : FitsInt args.log) :
    Always (connect_graph connected_components (fuel + 1) peer_cnt const_out_deg) fun graph =>
      ∃ ps, Launched graph args ps ∧ ∀ peer0, (ps peer0).initiates = true → ∀ start_us s,
        ReflTransGen (Streams.Step textArchive (peers_of ps))
          (Streams.init_ping textArchive (peers_of ps) peer0 start_us) s →
        (∃ t, ReflTransGen (Streams.Step textArchive (peers_of ps)) s t ∧
          ∀ p, t.in_transit p = []) ∧
        ((∀ p, s.in_transit p = []) → (∀ v, s.G_RECEIVED v = true) ∧
          ∀ v w, graph.Edge v w → ∃ hop : ℕ, 1 ≤ hop ∧ hop ≤ n ∧
            (s.client (v, w)).dispatched =
              [(textArchive.save (PingMsg.new start_us hop args.msgsize.toNat),
                PingMsg.new start_us hop args.msgsize.toNat)]) := by
  apply (connect_graph_launches hcc const_out_deg fuel hpos hlt hports hsize hlevel).imp
  rintro graph ⟨hstrong, hlaunched⟩
  refine ⟨launched graph args, hlaunched, ?_⟩
  intro peer0 _ start_us s hrun
  have hall := hlaunched.reaches hstrong
  have hsent : (peers_of (launched graph args)).Sendable textArchive start_us :=
    hlaunched.sendable hports hsize
  obtain ⟨fs, t, ht, hs⟩ := streams_refine hsent hrun
  refine ⟨streams_complete hsent ht hs, fun hnil => ⟨?_, ?_⟩⟩
  · intro v
    exact (quiet_streams hsent hrun hnil v).mpr (hall peer0 v)
  · intro v w hvw
    have hdecodes := quiet_decodes hsent hrun hnil (hall peer0 v) ((hlaunched.edges v w).mpr hvw)
    rwa [Fintype.card_fin, hlaunched.sizes] at hdecodes

theorem experiment_completes_sample :
    Always (connect_graph (n := 3) scc_labels 1 1 true) fun graph =>
      ∃ ps, Launched graph ⟨4, 1⟩ ps ∧ ∀ peer0, (ps peer0).initiates = true → ∃ t,
        ReflTransGen (Streams.Step textArchive (peers_of ps))
          (Streams.init_ping textArchive (peers_of ps) peer0 7) t ∧ ∀ p, t.in_transit p = [] := by
  have hone : 1 ≤ 1 := le_rfl
  have hports : BASE_PORT + 3 ≤ 2 ^ 16 := by decide
  have hsize : 0 ≤ (⟨4, 1⟩ : Args).msgsize ∧ (⟨4, 1⟩ : Args).msgsize < 2 ^ 20 := by decide
  have hlevel : FitsInt (⟨4, 1⟩ : Args).log := by decide
  apply (experiment_completes (n := 3) scc_labels scc_labels_labelled true 0 hone (by decide)
    hports hsize hlevel).imp
  rintro graph ⟨ps, hps, hrun⟩
  refine ⟨ps, hps, fun peer0 hinit => ?_⟩
  exact (hrun peer0 hinit 7 _ .refl).1

end Xcoin
