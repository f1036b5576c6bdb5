import Xcoin.Experiment.ParseLog
import Xcoin.Lib.Results
import Xcoin.Ping.Rounds

/-! The log of a flood and the report: what `report_stat` reads from the log files of the nodes
is what the first pings carried. -/

namespace Xcoin

open Relation Lib.Results

variable {V : Type} [DecidableEq V]

-- the lines that `buf_read_cb` logs at the critical level, by peer
def Flood.critical (s : Flood V) (f : Frame V) (end_us : Int64) : List (V × List Char) :=
  if s.G_RECEIVED f.dst then []
  else [(f.dst, critical_text (end_us - f.msg.start_us).toInt f.msg.hop)]

/-- Deliveries, each with the time that `buf_read_cb` reads, and the lines that they log. -/
inductive Flood.Logs (G : Peers V) (s : Flood V) :
    List (Frame V × Int64) → List (V × List Char) → Flood V → Prop
  | refl : Flood.Logs G s [] [] s
  | step {fs : List (Frame V × Int64)} {log : List (V × List Char)} {t : Flood V} {f : Frame V}
      {end_us : Int64} : Flood.Logs G s fs log t → f ∈ t.in_flight →
      Flood.Logs G s (fs ++ [(f, end_us)]) (log ++ t.critical f end_us) (G.buf_read_cb f t)

def lines_of (log : List (V × List Char)) (v : V) : List (List Char) :=
  (log.filter fun e => e.1 = v).map Prod.snd

/-- The critical lines of a peer, each after what the logger puts in front, among others. -/
def LogFile (texts log_file : List (List Char)) : Prop :=
  List.Forall₂ (fun text line => ∃ pre, '*' ∉ pre ∧ line = pre ++ text ++ ['\n']) texts
    (log_file.filter fun line => (find_stars line).isSome)

variable {G : Peers V} {peer0 v : V} {start_us : Int64} {fs : List (Frame V × Int64)}
  {log : List (V × List Char)} {s t : Flood V} {f : Frame V} {end_us : Int64}

lemma logs_deliver (h : s.Logs G fs log t) : s.Delivers G (fs.map Prod.fst) t := by
  induction h with
  | refl => exact .refl
  | step _ hf ih =>
    rw [List.map_append]
    exact ih.step hf

/-- The first ping of `v`, among the deliveries `fs`. -/
structure FirstPing (start_us : Int64) (fs : List (Frame V × Int64)) (v : V) (f : Frame V)
    (end_us : Int64) : Prop where
  first : ∃ pre, FirstReceipt (fs.map Prod.fst) pre f ∧ fs[pre.length]? = some (f, end_us)
  dst : f.dst = v
  start : f.msg.start_us = start_us

omit [DecidableEq V] in
lemma FirstPing.mono (h : FirstPing start_us fs v f end_us) (x : Frame V × Int64) :
    FirstPing start_us (fs ++ [x]) v f end_us where
  first := by
    obtain ⟨pre, hfirst, hget⟩ := h.first
    have hlt : pre.length < fs.length := (List.getElem?_eq_some_iff.mp hget).1
    refine ⟨pre, ?_, ?_⟩
    · rw [List.map_append]
      exact hfirst.mono x.1
    · rwa [List.getElem?_append_left hlt]
  dst := h.dst
  start := h.start

lemma lines_snoc (s : Flood V) (f : Frame V) (end_us : Int64) (v : V) :
    lines_of (log ++ s.critical f end_us) v = lines_of log v ++
      if f.dst = v ∧ s.G_RECEIVED f.dst = false then
        [critical_text (end_us - f.msg.start_us).toInt f.msg.hop] else [] := by
  rw [lines_of, List.filter_append, List.map_append]
  congr 1
  cases hr : s.G_RECEIVED f.dst with
  | false =>
    rw [Flood.critical, if_neg (by simp [hr])]
    by_cases hv : f.dst = v
    · rw [if_pos ⟨hv, rfl⟩, List.filter_cons_of_pos (by simpa using hv)]
      rfl
    · rw [if_neg fun h => hv h.1, List.filter_cons_of_neg (by simpa using hv)]
      rfl
  | true =>
    rw [Flood.critical, if_pos hr, if_neg (by simp)]
    rfl

/-- A peer that the ping has reached has logged its first ping and nothing else. -/
structure FirstLogged (peer0 : V) (start_us : Int64) (fs : List (Frame V × Int64))
    (log : List (V × List Char)) (s : Flood V) (v : V) : Prop where
  silent : s.G_RECEIVED v = false ∨ v = peer0 → lines_of log v = []
  first : s.G_RECEIVED v = true → v ≠ peer0 → ∃ f end_us, FirstPing start_us fs v f end_us ∧
    lines_of log v = [critical_text (end_us - start_us).toInt f.msg.hop]

-- a delivery to another peer, or to one that has already received the ping
lemma FirstLogged.step_other (h : FirstLogged peer0 start_us fs log s v)
    (hv : f.dst ≠ v ∨ s.G_RECEIVED f.dst = true) (end_us : Int64) :
    FirstLogged peer0 start_us (fs ++ [(f, end_us)]) (log ++ s.critical f end_us)
      (G.buf_read_cb f s) v := by
  have hlines : lines_of (log ++ s.critical f end_us) v = lines_of log v := by
    rw [lines_snoc, if_neg, List.append_nil]
    rintro ⟨hdst, hr⟩
    rcases hv with hv | hv
    · exact hv hdst
    · simp [hr] at hv
  have hsame : (G.buf_read_cb f s).G_RECEIVED v = s.G_RECEIVED v := by
    by_cases hdst : v = f.dst
    · subst hdst
      have hr := hv.resolve_left fun h => h rfl
      simp [Peers.buf_read_cb, hr]
    · simp [Peers.buf_read_cb, hdst]
  constructor
  · rw [hsame, hlines]
    exact h.silent
  · rw [hsame, hlines]
    intro hr hpeer0
    obtain ⟨g, e, hg, hline⟩ := h.first hr hpeer0
    exact ⟨g, e, hg.mono (f, end_us), hline⟩

-- the first delivery to a peer
lemma FirstLogged.step_first (h : FirstLogged peer0 start_us fs log s f.dst)
    (hs : HopSound G peer0 start_us (fs.map Prod.fst) s) (hf : f ∈ s.in_flight)
    (hr : s.G_RECEIVED f.dst = false) (end_us : Int64) :
    FirstLogged peer0 start_us (fs ++ [(f, end_us)]) (log ++ s.critical f end_us)
      (G.buf_read_cb f s) f.dst := by
  have hstart : f.msg.start_us = start_us := by
    obtain ⟨path, -, hsent⟩ := hs.sent (.inl hf)
    exact (broadcast_msg hsent).1
  have hreceived : (G.buf_read_cb f s).G_RECEIVED f.dst = true := by simp [Peers.buf_read_cb]
  have hnone : ∀ g ∈ fs.map Prod.fst, g.dst ≠ f.dst := by
    intro g hg hd
    have hbefore := hs.received.mpr (.inr ⟨g, hg, hd⟩)
    simp [hr] at hbefore
  constructor
  · rintro (hno | hpeer0)
    · simp [hreceived] at hno
    · have hroot := hs.received.mpr (.inl hpeer0)
      simp [hr] at hroot
  · intro _ _
    refine ⟨f, end_us, ⟨⟨fs.map Prod.fst, ⟨⟨[], by simp⟩, hnone⟩, by simp⟩, rfl, hstart⟩, ?_⟩
    rw [lines_snoc, if_pos ⟨rfl, hr⟩, h.silent (.inl hr), hstart]
    rfl

theorem logs_first (h : (G.init_ping peer0 start_us).Logs G fs log s) (v : V) :
    FirstLogged peer0 start_us fs log s v := by
  induction h with
  | refl =>
    refine ⟨fun _ => rfl, fun hr hv => ?_⟩
    simp [Peers.init_ping, hv] at hr
  | @step fs log t f end_us hrun hf ih =>
    by_cases hv : f.dst = v
    · subst hv
      cases hr : t.G_RECEIVED f.dst with
      | true => exact ih.step_other (.inr hr) end_us
      | false => exact ih.step_first (delivers_hops (logs_deliver hrun)) hf hr end_us
    · exact ih.step_other (.inl hv) end_us

lemma parse_log_file {log_file : List (List Char)} {latency hop : ℤ}
    (h : LogFile [critical_text latency hop] log_file) :
    parse_log log_file = .ok (latency / 1000, hop) := by
  obtain ⟨line, rest, ⟨pre, hpre, rfl⟩, hrest, heq⟩ := List.forall₂_cons_left_iff.mp h
  obtain ⟨before, after, rfl, hbefore, -, -⟩ := List.filter_eq_cons_iff.mp heq
  have hnone : ∀ l ∈ before, find_stars l = none := by
    intro l hl
    simpa using hbefore l hl
  exact parse_log_reads hnone hpre latency hop

lemma parse_log_empty {log_file : List (List Char)} (h : LogFile [] log_file) :
    parse_log log_file = .error .index_error := by
  have hnil := List.forall₂_nil_left_iff.mp h
  apply parse_log_none
  intro l hl
  simpa using List.filter_eq_nil_iff.mp hnil l hl

/-- What `parse_log` makes of the log of a peer: the latency and the hop of its first ping. -/
theorem parse_log_first {log_file : List (List Char)}
    (h : (G.init_ping peer0 start_us).Logs G fs log s) (hfile : LogFile (lines_of log v) log_file)
    (hv : v ≠ peer0) :
    (s.G_RECEIVED v = false → parse_log log_file = .error .index_error) ∧
    (s.G_RECEIVED v = true → ∃ f end_us, FirstPing start_us fs v f end_us ∧
      lines_of log v = [critical_text (end_us - start_us).toInt f.msg.hop] ∧
      parse_log log_file = .ok ((end_us - start_us).toInt / 1000, f.msg.hop)) := by
  have hlogged := logs_first h v
  constructor
  · intro hr
    rw [hlogged.silent (.inl hr)] at hfile
    exact parse_log_empty hfile
  · intro hr
    obtain ⟨f, end_us, hfirst, hlines⟩ := hlogged.first hr hv
    exact ⟨f, end_us, hfirst, hlines, parse_log_file (hlines ▸ hfile)⟩

-- the loop of `report_stat` over the log files
def parse_logs (node_num : ℕ) (log_files : ℕ → List (List Char)) :
    Except LogFault (List (ℤ × ℤ)) :=
  (List.range' 1 (node_num - 1)).mapM fun node_id => parse_log (log_files node_id)

lemma first_ping_hop [Fintype V]
    (h : (G.init_ping peer0 start_us).Delivers G (fs.map Prod.fst) s)
    (hf : FirstPing start_us fs v f end_us) (hv : v ≠ peer0) :
    (G.distance peer0 v : ℤ) ≤ f.msg.hop ∧ f.msg.hop ≤ Fintype.card V - 1 ∧
      ∀ queue, G.InOrder peer0 start_us (fs.map Prod.fst) queue s →
        f.msg.hop = G.distance peer0 v := by
  obtain ⟨⟨pre, hfirst, -⟩, rfl, -⟩ := hf
  obtain ⟨path, hpath, hlen⟩ := (delivers_hops h).first hfirst hv
  have hcard := hpath.simple.length_le_card
  refine ⟨distance_le_hop h hfirst hv, by omega, fun queue hqueue => ?_⟩
  exact (in_order_ordered hqueue).first hfirst hv

section Nodes

variable {n : ℕ} {G : Peers (Fin (n + 1))} {start_us : Int64}
  {fs : List (Frame (Fin (n + 1)) × Int64)} {log : List (Fin (n + 1) × List Char)}
  {s : Flood (Fin (n + 1))} {log_files : ℕ → List (List Char)}

lemma parse_logs_peers (n : ℕ) (log_files : ℕ → List (List Char)) :
    parse_logs (n + 1) log_files =
      (List.finRange n).mapM fun (i : Fin n) => parse_log (log_files i.succ) := by
  have hpeers : List.range' 1 n = (List.finRange n).map fun (i : Fin n) => (i.succ : ℕ) := by
    rw [List.range'_eq_map_range, ← List.map_coe_finRange_eq_range, List.map_map]
    apply List.map_congr_left
    intro i _
    exact Nat.add_comm 1 i
  rw [parse_logs, Nat.add_sub_cancel, hpeers, List.mapM_map]
  rfl

lemma parse_log_peer (h : (G.init_ping 0 start_us).Logs G fs log s)
    (hfiles : ∀ v : Fin (n + 1), LogFile (lines_of log v) (log_files v)) (i : Fin n) :
    (∃ row, parse_log (log_files i.succ) = .ok row) ↔ s.G_RECEIVED i.succ = true := by
  obtain ⟨hno, hyes⟩ := parse_log_first h (hfiles i.succ) (Fin.succ_ne_zero i)
  cases hr : s.G_RECEIVED i.succ with
  | false =>
    rw [hno hr]
    simp
  | true =>
    obtain ⟨f, end_us, -, -, hrow⟩ := hyes hr
    exact ⟨fun _ => rfl, fun _ => ⟨_, hrow⟩⟩

lemma parse_logs_readable (h : (G.init_ping 0 start_us).Logs G fs log s)
    (hfiles : ∀ v : Fin (n + 1), LogFile (lines_of log v) (log_files v)) :
    (∃ rows, parse_logs (n + 1) log_files = .ok rows) ↔ ∀ v, s.G_RECEIVED v = true := by
  have hroot : s.G_RECEIVED 0 = true :=
    (delivers_hops (logs_deliver h)).received.mpr (.inl rfl)
  rw [parse_logs_peers, mapM_succeeds, Fin.forall_fin_succ]
  simp only [parse_log_peer h hfiles, hroot, List.mem_finRange, forall_true_left, true_and]

lemma row_first (h : (G.init_ping 0 start_us).Logs G fs log s)
    (hfiles : ∀ v : Fin (n + 1), LogFile (lines_of log v) (log_files v)) {i : Fin n}
    {row : ℤ × ℤ} (hrow : parse_log (log_files i.succ) = .ok row) :
    ∃ f end_us, FirstPing start_us fs i.succ f end_us ∧
      lines_of log i.succ = [critical_text (end_us - start_us).toInt f.msg.hop] ∧
      row = ((end_us - start_us).toInt / 1000, f.msg.hop) ∧
      (G.distance 0 i.succ : ℤ) ≤ f.msg.hop ∧ f.msg.hop ≤ n ∧
      ∀ queue, G.InOrder 0 start_us (fs.map Prod.fst) queue s →
        f.msg.hop = G.distance 0 i.succ := by
  have hv := Fin.succ_ne_zero i
  have hr := (parse_log_peer h hfiles i).mp ⟨row, hrow⟩
  obtain ⟨f, end_us, hfirst, hlines, hok⟩ := (parse_log_first h (hfiles i.succ) hv).2 hr
  obtain ⟨hle, hcard, hqueue⟩ := first_ping_hop (logs_deliver h) hfirst hv
  rw [Fintype.card_fin] at hcard
  rw [hok] at hrow
  exact ⟨f, end_us, hfirst, hlines, (Except.ok.inj hrow).symm, hle, by push_cast at hcard; omega,
    hqueue⟩

/-- The log files of a flood from peer0 can be read exactly when every peer has received the
ping; each row is then what the first ping of its peer carried, its hop at least the distance,
and the distance itself on links of one delay. -/
theorem report_reads (h : (G.init_ping 0 start_us).Logs G fs log s)
    (hfiles : ∀ v : Fin (n + 1), LogFile (lines_of log v) (log_files v)) :
    ((∃ rows, parse_logs (n + 1) log_files = .ok rows) ↔ ∀ v, s.G_RECEIVED v = true) ∧
    (s.in_flight = 0 → ((∃ rows, parse_logs (n + 1) log_files = .ok rows) ↔
      ∀ v, ReflTransGen G.Edge 0 v)) ∧
    (∀ e, parse_logs (n + 1) log_files = .error e → e = .index_error) ∧
    ∀ rows, parse_logs (n + 1) log_files = .ok rows →
      List.Forall₂ (fun (i : Fin n) row => ∃ f end_us, FirstPing start_us fs i.succ f end_us ∧
        row = ((end_us - start_us).toInt / 1000, f.msg.hop) ∧
        (G.distance 0 i.succ : ℤ) ≤ f.msg.hop ∧ f.msg.hop ≤ n ∧
        ∀ queue, G.InOrder 0 start_us (fs.map Prod.fst) queue s →
          f.msg.hop = G.distance 0 i.succ) (List.finRange n) rows := by
  refine ⟨parse_logs_readable h hfiles, ?_, ?_, ?_⟩
  · intro hq
    rw [parse_logs_readable h hfiles]
    exact forall_congr' (quiet_received (logs_deliver h) hq)
  · intro e he
    rw [parse_logs_peers] at he
    obtain ⟨i, -, hi⟩ := mapM_eq_error he
    obtain ⟨hno, hyes⟩ := parse_log_first h (hfiles i.succ) (Fin.succ_ne_zero i)
    cases hr : s.G_RECEIVED i.succ with
    | false =>
      rw [hno hr] at hi
      exact (Except.error.inj hi).symm
    | true =>
      obtain ⟨f, end_us, -, -, hrow⟩ := hyes hr
      rw [hrow] at hi
      cases hi
  · intro rows hrows
    rw [parse_logs_peers, mapM_eq_ok] at hrows
    apply hrows.imp
    intro i row hrow
    obtain ⟨f, end_us, hfirst, -, hrest⟩ := row_first h hfiles hrow
    exact ⟨f, end_us, hfirst, hrest⟩

end Nodes

def pairFlood : Peers (Fin 2) where
  out_clients_ v := {v.rev}
  msg_size_ _ := 0

def sampleLogs (node_id : ℕ) : List (List Char) :=
  if node_id = 1 then ["[info] up\n".toList, "[critical] ****2500,1****\n".toList] else []

theorem report_reads_sample : ∃ rows, parse_logs 2 sampleLogs = .ok rows := by
  let ping : Frame (Fin 2) := ⟨0, 1, PingMsg.new 7 1 0⟩
  have hrun : (pairFlood.init_ping 0 7).Logs pairFlood [(ping, 2507)]
      ([] ++ (pairFlood.init_ping 0 7).critical ping 2507)
      (pairFlood.buf_read_cb ping (pairFlood.init_ping 0 7)) := .step .refl (by decide)
  have hlog : [] ++ (pairFlood.init_ping 0 7).critical ping 2507 =
      [(1, critical_text 2500 1)] := by decide
  rw [hlog] at hrun
  have hfiles : ∀ v : Fin 2, LogFile (lines_of [(1, critical_text 2500 1)] v) (sampleLogs v) := by
    intro v
    fin_cases v
    · exact .nil
    · exact .cons ⟨"[critical] ".toList, by decide, by decide⟩ .nil
  exact (report_reads hrun hfiles).1.mpr (by decide)

end Xcoin
