import Xcoin.Experiment.Launch
import Xcoin.Experiment.Report

/-! `do_experiment` to its report: what the nodes log while bytes arrive, and what is read from
their log files at the end. -/

namespace Xcoin

open Relation Lib Lib.Archives Lib.Choices Lib.Choices.Chance Lib.Connectivity

section Logs

variable {V : Type} [DecidableEq V]

-- `buf_read_cb` logs a critical line where it calls `broadcast_ping`
def Streams.critical (s : Streams V) (p : V × V) (end_us : Int64) : List (V × List Char) :=
  (s.client p).sent.map fun call => (p.2, critical_text (end_us - call.1).toInt (call.2 - 1))

/-- Pieces that arrive, each with the time that `buf_read_cb` reads, and the lines they log. -/
inductive Streams.Logs (A : Archive PingMsg) (G : Peers V) (s : Streams V) :
    List (V × List Char) → Streams V → Prop
  | refl : Streams.Logs A G s [] s
  | arrive {log : List (V × List Char)} {t u : Streams V} {p : V × V} {piece later : List UInt8}
      {end_us : Int64} : Streams.Logs A G s log t → t.in_transit p = piece ++ later →
      piece ≠ [] → t.arrive A G p piece later = .ok u →
      Streams.Logs A G s (log ++ u.critical p end_us) u

variable {A : Archive PingMsg} {G : Peers V} {peer0 : V} {start_us : Int64}
  {log : List (V × List Char)} {s : Streams V} {t : Flood V} {f : Frame V} {end_us : Int64}

omit [DecidableEq V] in
lemma critical_silent (h : (s.client f.edge).sent = []) : s.critical f.edge end_us = [] := by
  rw [Streams.critical, h]
  rfl

omit [DecidableEq V] in
lemma critical_calls (h : (s.client f.edge).sent = t.calls f) :
    s.critical f.edge end_us = t.critical f end_us := by
  rw [Streams.critical, h, Flood.calls, Flood.critical]
  split
  · rfl
  · simp [Frame.edge]

/-- The lines that are logged while bytes arrive are those of a flood of frames. -/
theorem streams_logs_refine [Fintype V] (hsent : G.Sendable A start_us)
    (h : Streams.Logs A G (Streams.init_ping A G peer0 start_us) log s) :
    ∃ fs t, (G.init_ping peer0 start_us).Logs G fs log t ∧ s.Refines A t := by
  induction h with
  | refl => exact ⟨[], _, .refl, init_refines A G peer0 start_us⟩
  | @arrive log s u p piece later end_us _ hcut hpiece hu ih =>
    obtain ⟨fs, t, ht, hs⟩ := ih
    obtain ⟨f, hf, rfl⟩ := in_transit_frame hs (p := p) (by simp [hcut, hpiece])
    rcases step_refines hsent (logs_deliver ht) hs hf hcut hu with
      ⟨-, hcalls, hnext⟩ | ⟨hcalls, hnext⟩
    · rw [critical_silent hcalls, List.append_nil]
      exact ⟨fs, t, ht, hnext⟩
    · rw [critical_calls hcalls]
      exact ⟨fs ++ [(f, end_us)], _, ht.step hf, hnext⟩

end Logs

variable {n : ℕ}

/-- Whatever graph `connect_graph` draws, and in whatever pieces the bytes of peer0's ping are
taken in by the callbacks, the report can be read as soon as every node has received the ping,
and so once nothing is on its way; each of its rows is the one line that the node has logged,
with a hop between the distance from peer0 and the number of other nodes. -/
theorem experiment_reports
    (connected_components : LilMatrix (n + 1) → ℕ × (Fin (n + 1) → ℕ))
    (hcc : ∀ t, Labelled t.Edge (connected_components t)) (const_out_deg : Bool) (fuel : ℕ)
    {peer_cnt : ℕ} (hpos : 1 ≤ peer_cnt) (hlt : peer_cnt < n + 1)
    (hports : BASE_PORT + (n + 1) ≤ 2 ^ 16) {args : Args}
    (hsize : 0 ≤ args.msgsize ∧ args.msgsize < 2 ^ 20) (hlevel : FitsInt args.log) :
    Always (connect_graph connected_components (fuel + 1) peer_cnt const_out_deg) fun graph =>
      ∃ ps, Launched graph args ps ∧ ∀ start_us log s log_files,
        Streams.Logs textArchive (peers_of ps)
          (Streams.init_ping textArchive (peers_of ps) 0 start_us) log s →
        (∀ v : Fin (n + 1), LogFile (lines_of log v) (log_files v)) →
        ((∃ rows, parse_logs (n + 1) log_files = .ok rows) ↔ ∀ v, s.G_RECEIVED v = true) ∧
        ((∀ p, s.in_transit p = []) → ∀ v, s.G_RECEIVED v = true) ∧
        ∀ rows, parse_logs (n + 1) log_files = .ok rows →
          List.Forall₂ (fun (i : Fin n) row => ∃ latency hop : ℤ,
            lines_of log i.succ = [critical_text latency hop] ∧ row = (latency / 1000, hop) ∧
            (peers_of ps).distance 0 i.succ ≤ hop ∧ hop ≤ n) (List.finRange n) rows := by
  apply (connect_graph_launches hcc const_out_deg fuel hpos hlt hports hsize hlevel).imp
  rintro graph ⟨hstrong, hlaunched⟩
  refine ⟨launched graph args, hlaunched, ?_⟩
  intro start_us log s log_files hlogs hfiles
  obtain ⟨fs, t, ht, hs⟩ := streams_logs_refine (hlaunched.sendable hports hsize) hlogs
  rw [hs.flag]
  refine ⟨parse_logs_readable ht hfiles, ?_, ?_⟩
  · intro hnil v
    exact (quiet_received (logs_deliver ht) (hs.quiet_iff.mp hnil) v).mpr
      (hlaunched.reaches hstrong 0 v)
  · intro rows hrows
    rw [parse_logs_peers, Results.mapM_eq_ok] at hrows
    apply hrows.imp
    intro i row hrow
    obtain ⟨f, end_us, -, hlines, hvalue, hle, hcard, -⟩ := row_first ht hfiles hrow
    exact ⟨_, _, hlines, hvalue, hle, hcard⟩

theorem experiment_reports_sample :
    Always (connect_graph (n := 3) scc_labels 1 1 true) fun graph =>
      ∃ ps, Launched graph ⟨4, 1⟩ ps ∧ ∀ log s log_files,
        Streams.Logs textArchive (peers_of ps)
          (Streams.init_ping textArchive (peers_of ps) 0 7) log s →
        (∀ v : Fin 3, LogFile (lines_of log v) (log_files v)) → (∀ p, s.in_transit p = []) →
        ∃ rows, parse_logs 3 log_files = .ok rows := by
  have hone : 1 ≤ 1 := le_rfl
  have hports : BASE_PORT + 3 ≤ 2 ^ 16 := by decide
  have hsize : 0 ≤ (⟨4, 1⟩ : Args).msgsize ∧ (⟨4, 1⟩ : Args).msgsize < 2 ^ 20 := by decide
  have hlevel : FitsInt (⟨4, 1⟩ : Args).log := by decide
  apply (experiment_reports (n := 2) scc_labels scc_labels_labelled true 0 hone (by decide)
    hports hsize hlevel).imp
  rintro graph ⟨ps, hps, hrun⟩
  refine ⟨ps, hps, fun log s log_files hlogs hfiles hnil => ?_⟩
  obtain ⟨hread, hquiet, -⟩ := hrun 7 log s log_files hlogs hfiles
  exact hread.mpr (hquiet hnil)

end Xcoin
