import Mathlib.Data.List.ModifyLast
import Xcoin.Config.NodeData

/-! `parse_config` of a written file gives back the peers and the settings. -/

namespace Xcoin

open Lib.Decimal Lib.Lines Lib.Results Lib.StdMaps Toml

def FitsInt64 (n : ℤ) : Prop := -2 ^ 63 ≤ n ∧ n < 2 ^ 63

variable {i peer : ℕ} {peers : List ℕ} {args : Args} {d r : Document} {key : String}
  {name : List Char} {ls : List (List Char)} {n : ℕ} {z : ℤ}

lemma parse_quoted_line (hkey : Bare key.toList) (hname : ∀ c ∈ name, c ≠ '"' ∧ c ≠ '\\')
    (hnew : d.contains key = false) :
    parse_line d (quoted_line key name) = .ok (d.insert key (.string (String.ofList name))) := by
  have hpad : ∀ c ∈ [' '], is_blank c = true := forall_chars (by decide)
  have hskip : consume_whitespace (' ' :: ('"' :: name ++ ['"'])) = '"' :: name ++ ['"'] := rfl
  rw [quoted_line, parse_line_setting hkey hpad (by rwa [String.ofList_toList]), hskip,
    parse_value_quoted hname, String.ofList_toList]
  rfl

lemma parse_int_line {d' : Document} (hkey : Bare key.toList) (hnew : d.contains key = false) :
    parse_line d (int_line key z) = .ok d' ↔ FitsInt64 z ∧ d' = d.insert key (.int64 z) := by
  have hpad : ∀ c ∈ [' '], is_blank c = true := forall_chars (by decide)
  have hskip : consume_whitespace (' ' :: int_text z) = int_text z := by
    obtain ⟨c, it, hit⟩ := List.exists_cons_of_length_pos (int_text_length_pos z)
    have hc : is_blank c = false := by
      by_contra hblank
      have hmem : c ∈ int_text z := hit ▸ List.mem_cons_self
      simp only [is_blank, Bool.not_eq_false, Bool.or_eq_true, decide_eq_true_eq] at hblank
      rcases hblank with rfl | rfl
      · exact int_text_not (by decide) (by decide) hmem
      · exact int_text_not (by decide) (by decide) hmem
    have hblank : is_blank ' ' = true := by decide
    simp [consume_whitespace, hit, hblank, hc]
  rw [int_line, parse_line_setting hkey hpad (by rwa [String.ofList_toList]), hskip,
    parse_value_int, String.ofList_toList, FitsInt64]
  split
  · rename_i hz
    rw [ok_bind]
    constructor
    · intro h
      exact ⟨hz, (Except.ok.inj h).symm⟩
    · rintro ⟨-, rfl⟩
      rfl
  · rename_i hz
    exact iff_of_false (fun h => by cases h) fun h => hz h.1

lemma parse_header_line (hkey : Bare key.toList) : parse_line d (header_line key) =
    Document.push_table { d with curr_table := none } key := by
  rw [header_line, parse_line_header hkey, String.ofList_toList]

lemma parse_lines_quoted (hkey : Bare key.toList) (hname : ∀ c ∈ name, c ≠ '"' ∧ c ≠ '\\')
    (hnew : d.contains key = false) : parse_lines n d (quoted_line key name :: ls) = .ok r ↔
      parse_lines (n + 1) (d.insert key (.string (String.ofList name))) ls = .ok r := by
  rw [parse_lines_cons, parse_quoted_line hkey hname hnew]
  simp

lemma parse_lines_int (hkey : Bare key.toList) (hnew : d.contains key = false) :
    parse_lines n d (int_line key z :: ls) = .ok r ↔
      FitsInt64 z ∧ parse_lines (n + 1) (d.insert key (.int64 z)) ls = .ok r := by
  simp only [parse_lines_cons, parse_int_line hkey hnew]
  constructor
  · rintro ⟨d', ⟨hz, rfl⟩, h⟩
    exact ⟨hz, h⟩
  · rintro ⟨hz, h⟩
    exact ⟨_, ⟨hz, rfl⟩, h⟩

lemma peer_name_plain (i : ℕ) : ∀ c ∈ "peer".toList ++ digits i, c ≠ '"' ∧ c ≠ '\\' := by
  have hpeer : ∀ c ∈ "peer".toList, c ≠ '"' ∧ c ≠ '\\' := forall_chars (by decide)
  intro c hc
  cases List.mem_append.mp hc with
  | inl hc => exact hpeer c hc
  | inr hc =>
    constructor
    · rintro rfl
      exact digits_not (by decide) hc
    · rintro rfl
      exact digits_not (by decide) hc

def settings_root (i : ℕ) (args : Args) : RootTable :=
  ((((AList.insert "my-addr" (.value (.string (peer_name i))) ∅).insert "my-port"
    (.value (.int64 (BASE_PORT + i : ℕ)))).insert "msg-size"
    (.value (.int64 args.msgsize))).insert "log-level"
    (.value (.int64 args.log))).insert "miner-timeout" (.value (.int64 (30 : ℕ)))

lemma parse_settings : parse_lines 0 ⟨∅, none⟩ (settings_lines i args ++ ls) = .ok r ↔
    FitsInt64 (BASE_PORT + i : ℕ) ∧ FitsInt64 args.msgsize ∧ FitsInt64 args.log ∧
      parse_lines 6 ⟨settings_root i args, none⟩ ls = .ok r := by
  have htimeout : FitsInt64 (30 : ℕ) := by
    rw [FitsInt64]
    omega
  rw [settings_lines, List.cons_append,
    parse_lines_quoted (bare_key (by decide)) (peer_name_plain i) rfl, List.cons_append,
    parse_lines_int (bare_key (by decide)) rfl, List.cons_append,
    parse_lines_int (bare_key (by decide)) rfl, List.cons_append,
    parse_lines_int (bare_key (by decide)) rfl, List.cons_append,
    parse_lines_int (bare_key (by decide)) rfl]
  simp only [htimeout, true_and]
  rfl

section Peers

variable {R : RootTable} {done : List Table} {t : Table} {curr : Option String}

def Document.at_peers (R : RootTable) (tables : List Table) : Document :=
  ⟨R.insert "peers" (.table_array tables), some "peers"⟩

def peer_table (peer : ℕ) : Table :=
  (AList.insert "peer-host" (.string (peer_name peer)) ∅).insert "peer-port"
    (.int64 (BASE_PORT + peer : ℕ))

lemma at_peers_contains :
    (Document.at_peers R (done ++ [t])).contains key = (t.lookup key).isSome := by
  simp [Document.at_peers, Document.contains, Document.table, AList.lookup_insert]

lemma at_peers_insert {v : Value} : (Document.at_peers R (done ++ [t])).insert key v =
    Document.at_peers R (done ++ [t.insert key v]) := by
  simp only [Document.at_peers, Document.insert, AList.lookup_insert, List.modifyLast_concat,
    AList.insert_insert]

lemma push_first (h : R.lookup "peers" = none) :
    Document.push_table ⟨R, none⟩ "peers" = .ok (Document.at_peers R [∅]) := by
  rw [Document.push_table, h]
  rfl

lemma push_next : Document.push_table { Document.at_peers R done with curr_table := none } "peers" =
    .ok (Document.at_peers R (done ++ [∅])) := by
  simp only [Document.push_table, Document.at_peers, AList.lookup_insert, AList.insert_insert]
  rfl

lemma parse_one_peer (h : Document.push_table { d with curr_table := none } "peers" =
    .ok (Document.at_peers R (done ++ [∅]))) :
    parse_lines n d (peer_lines peer ++ ls) = .ok r ↔ FitsInt64 (BASE_PORT + peer : ℕ) ∧
      parse_lines (n + 3) (Document.at_peers R (done ++ [peer_table peer])) ls = .ok r := by
  rw [peer_lines, List.cons_append, parse_lines_cons, parse_header_line (bare_key (by decide)), h]
  simp only [Except.ok.injEq, exists_eq_left']
  rw [List.cons_append, parse_lines_quoted (bare_key (by decide)) (peer_name_plain peer)
    (by rw [at_peers_contains]; rfl), at_peers_insert, List.cons_append,
    parse_lines_int (bare_key (by decide)) (by rw [at_peers_contains]; rfl), at_peers_insert]
  rfl

lemma parse_more_peers :
    parse_lines n (Document.at_peers R done) (peers.flatMap peer_lines ++ [[]]) = .ok r ↔
      (∀ p ∈ peers, FitsInt64 (BASE_PORT + p : ℕ)) ∧
        r = Document.at_peers R (done ++ peers.map peer_table) := by
  induction peers generalizing n done with
  | nil =>
    rw [List.flatMap_nil, List.nil_append, parse_lines_cons, parse_line_blank]
    simp [parse_lines, eq_comm, pure, Except.pure]
  | cons p ps ih =>
    rw [List.flatMap_cons, List.append_assoc, parse_one_peer push_next, ih]
    simp [and_assoc]

/-- The tables of the written file, if every number in it fits into `int64_t`. -/
def node_root (i : ℕ) (peers : List ℕ) (args : Args) : RootTable :=
  if peers = [] then settings_root i args
  else (settings_root i args).insert "peers" (.table_array (peers.map peer_table))

lemma parse_peers_lines (h : R.lookup "peers" = none) (r : Document) :
    parse_lines n ⟨R, none⟩ (peers.flatMap peer_lines ++ [[]]) = .ok r ↔
      (∀ p ∈ peers, FitsInt64 (BASE_PORT + p : ℕ)) ∧
        r = if peers = [] then ⟨R, none⟩ else Document.at_peers R (peers.map peer_table) := by
  cases peers with
  | nil =>
    rw [List.flatMap_nil, List.nil_append, parse_lines_cons, parse_line_blank]
    simp [parse_lines, eq_comm, pure, Except.pure]
  | cons p ps =>
    have hpush : Document.push_table { (⟨R, none⟩ : Document) with curr_table := none } "peers" =
        .ok (Document.at_peers R ([] ++ [∅])) := push_first h
    rw [List.flatMap_cons, List.append_assoc, parse_one_peer hpush, parse_more_peers]
    simp [and_assoc]

end Peers

lemma parse_node_data {root : RootTable} : parse (node_data i peers args) = .ok root ↔
    (FitsInt64 (BASE_PORT + i : ℕ) ∧ FitsInt64 args.msgsize ∧ FitsInt64 args.log ∧
      ∀ p ∈ peers, FitsInt64 (BASE_PORT + p : ℕ)) ∧ root = node_root i peers args := by
  have hpeers : (settings_root i args).lookup "peers" = none := rfl
  have hlines : lines (node_data i peers args) =
      settings_lines i args ++ (peers.flatMap peer_lines ++ [[]]) := by
    rw [node_data_lines, lines_unlines (clean_lines i peers args), List.append_assoc]
  have hparsed : parse (node_data i peers args) = .ok root ↔
      ∃ r, parse_lines 0 ⟨∅, none⟩ (lines (node_data i peers args)) = .ok r ∧ r.root = root := by
    rw [parse]
    cases parse_lines 0 ⟨∅, none⟩ (lines (node_data i peers args)) with
    | error e => simp [bind, Except.bind]
    | ok r => simp [ok_bind, pure, Except.pure]
  simp only [hparsed, hlines, parse_settings, parse_peers_lines hpeers]
  constructor
  · rintro ⟨r, ⟨hport, hsize, hlevel, hps, rfl⟩, rfl⟩
    refine ⟨⟨hport, hsize, hlevel, hps⟩, ?_⟩
    rw [node_root]
    split <;> rfl
  · rintro ⟨⟨hport, hsize, hlevel, hps⟩, rfl⟩
    refine ⟨_, ⟨hport, hsize, hlevel, hps, rfl⟩, ?_⟩
    rw [node_root]
    split <;> rfl

lemma parse_peer_table {a : PeerAddr} : parse_peer (peer_table peer) = .ok a ↔
    FitsInt (BASE_PORT + peer : ℕ) ∧ a = ⟨peer_name peer, (BASE_PORT + peer : ℕ)⟩ := by
  have hport : (peer_table peer).lookup "peer-port" = some (.int64 (BASE_PORT + peer : ℕ)) := rfl
  have hhost : (peer_table peer).lookup "peer-host" = some (.string (peer_name peer)) := rfl
  rw [parse_peer, hport, hhost, Option.map_some, Option.map_some, bind_eq_ok]
  simp only [get_as_int_eq]
  constructor
  · rintro ⟨o, ⟨hfits, rfl⟩, h⟩
    exact ⟨hfits, (Except.ok.inj h).symm⟩
  · rintro ⟨hfits, rfl⟩
    exact ⟨_, ⟨hfits, rfl⟩, rfl⟩

lemma parse_peer_tables {as : List PeerAddr} :
    (peers.map peer_table).mapM parse_peer = .ok as ↔
      (∀ p ∈ peers, FitsInt (BASE_PORT + p : ℕ)) ∧
        as = peers.map fun p => ⟨peer_name p, (BASE_PORT + p : ℕ)⟩ := by
  rw [List.mapM_map]
  exact mapM_eq_map fun p a => parse_peer_table

lemma int_or_eq {file : RootTable} {m alternative : ℤ}
    (h : file.lookup key = some (.value (.int64 z))) :
    int_or file key alternative = .ok m ↔ FitsInt z ∧ m = z := by
  rw [int_or, h, bind_eq_ok]
  simp only [get_as_int_eq]
  constructor
  · rintro ⟨o, ⟨hfits, rfl⟩, hm⟩
    exact ⟨hfits, (Except.ok.inj hm).symm⟩
  · rintro ⟨hfits, rfl⟩
    exact ⟨_, ⟨hfits, rfl⟩, rfl⟩

lemma node_root_lookup {b : Base} (hkey : key ≠ "peers")
    (h : (settings_root i args).lookup key = some b) :
    (node_root i peers args).lookup key = some b := by
  rw [node_root]
  split
  · exact h
  · rwa [AList.lookup_insert_ne hkey]

lemma parse_node_peers {as : List PeerAddr} : parse_peers (node_root i peers args) = .ok as ↔
    peers ≠ [] ∧ (∀ p ∈ peers, FitsInt (BASE_PORT + p : ℕ)) ∧
      as = peers.map fun p => ⟨peer_name p, (BASE_PORT + p : ℕ)⟩ := by
  rw [parse_peers, get_table_array, node_root]
  by_cases hp : peers = []
  · have hnone : (settings_root i args).lookup "peers" = none := rfl
    simp [hp, hnone]
  · rw [if_neg hp, AList.lookup_insert]
    simp only [parse_peer_tables, ne_eq, hp, not_false_eq_true, true_and]

lemma node_config_of_file {c : Config} : Config.of_file (node_root i peers args) = .ok c ↔
    (peers ≠ [] ∧ (∀ p ∈ peers, FitsInt (BASE_PORT + p : ℕ)) ∧ FitsInt (BASE_PORT + i : ℕ) ∧
      FitsInt args.msgsize ∧ FitsInt args.log) ∧ c = node_config i peers args := by
  have hport : (node_root i peers args).lookup "my-port" =
      some (.value (.int64 (BASE_PORT + i : ℕ))) := node_root_lookup (by decide) rfl
  have haddr : (node_root i peers args).lookup "my-addr" =
      some (.value (.string (peer_name i))) := node_root_lookup (by decide) rfl
  have htimeout : (node_root i peers args).lookup "miner-timeout" =
      some (.value (.int64 (30 : ℕ))) := node_root_lookup (by decide) rfl
  have hsize : (node_root i peers args).lookup "msg-size" =
      some (.value (.int64 args.msgsize)) := node_root_lookup (by decide) rfl
  have hlevel : (node_root i peers args).lookup "log-level" =
      some (.value (.int64 args.log)) := node_root_lookup (by decide) rfl
  have hfits : FitsInt (30 : ℕ) := by decide
  simp only [Config.of_file, bind_eq_ok, parse_node_peers, int_or_eq hport, int_or_eq htimeout,
    int_or_eq hsize, int_or_eq hlevel, haddr]
  constructor
  · rintro ⟨_, ⟨hne, hps, rfl⟩, _, ⟨hp, rfl⟩, _, ⟨-, rfl⟩, _, ⟨hs, rfl⟩, _, ⟨hl, rfl⟩, hc⟩
    exact ⟨⟨hne, hps, hp, hs, hl⟩, (Except.ok.inj hc).symm⟩
  · rintro ⟨⟨hne, hps, hp, hs, hl⟩, rfl⟩
    exact ⟨_, ⟨hne, hps, rfl⟩, _, ⟨hp, rfl⟩, _, ⟨hfits, rfl⟩, _, ⟨hs, rfl⟩, _, ⟨hl, rfl⟩, rfl⟩

lemma FitsInt.fits64 (h : FitsInt z) : FitsInt64 z := by
  simp only [FitsInt, FitsInt64, int_min, int_max] at *
  omega

section Graph

variable {nodes : ℕ} (graph : LilMatrix nodes) (args : Args) (i : Fin nodes)

lemma parse_config_node :
    parse_config (opened (setup_multiple_node_data graph args)) (data_file i) =
      parse (node_data i ((graph.row i).map Fin.val) args) >>= Config.of_file := by
  rw [parse_config, parse_file, opened_node]

variable {graph args i} in
lemma node_data_ok {config : Config} :
    parse_config (opened (setup_multiple_node_data graph args)) (data_file i) = .ok config ↔
      (graph.row i ≠ [] ∧ (∀ p ∈ graph.row i, FitsInt (BASE_PORT + p : ℕ)) ∧
        FitsInt (BASE_PORT + i : ℕ) ∧ FitsInt args.msgsize ∧ FitsInt args.log) ∧
      config = node_config i ((graph.row i).map Fin.val) args := by
  have hall : ∀ P : ℕ → Prop, (∀ p ∈ (graph.row i).map Fin.val, P p) ↔
      ∀ p ∈ graph.row i, P p := fun P => List.forall_mem_map
  rw [parse_config_node]
  simp only [bind_eq_ok, parse_node_data]
  constructor
  · rintro ⟨root, ⟨-, rfl⟩, h⟩
    obtain ⟨⟨hne, hps, hrest⟩, rfl⟩ := node_config_of_file.mp h
    rw [ne_eq, List.map_eq_nil_iff] at hne
    exact ⟨⟨hne, (hall fun p => FitsInt (BASE_PORT + p : ℕ)).mp hps, hrest⟩, rfl⟩
  · rintro ⟨⟨hne, hps, hport, hsize, hlevel⟩, rfl⟩
    have hps : ∀ p ∈ (graph.row i).map Fin.val, FitsInt (BASE_PORT + p : ℕ) :=
      (hall fun p => FitsInt (BASE_PORT + p : ℕ)).mpr hps
    refine ⟨_, ⟨⟨hport.fits64, hsize.fits64, hlevel.fits64, ?_⟩, rfl⟩, ?_⟩
    · intro p hp
      exact (hps p hp).fits64
    · apply node_config_of_file.mpr
      rw [ne_eq, List.map_eq_nil_iff]
      exact ⟨⟨hne, hps, hport, hsize, hlevel⟩, rfl⟩

/-- A written file is loaded exactly when its node has a peer and its numbers fit into `int`, and
then it gives back the row of the graph; without a peer a null pointer is dereferenced. -/
theorem node_data_loads :
    (∀ config, parse_config (opened (setup_multiple_node_data graph args)) (data_file i) =
        .ok config ↔
      (graph.row i ≠ [] ∧ (∀ p ∈ graph.row i, FitsInt (BASE_PORT + p : ℕ)) ∧
        FitsInt (BASE_PORT + i : ℕ) ∧ FitsInt args.msgsize ∧ FitsInt args.log) ∧
      config = node_config i ((graph.row i).map Fin.val) args) ∧
    (graph.row i = [] → FitsInt64 (BASE_PORT + i : ℕ) → FitsInt64 args.msgsize →
      FitsInt64 args.log →
      parse_config (opened (setup_multiple_node_data graph args)) (data_file i) =
        .error .null_pointer) := by
  refine ⟨fun config => node_data_ok, ?_⟩
  intro hrow hport hsize hlevel
  have hparsed : parse (node_data i [] args) = .ok (node_root i [] args) :=
    parse_node_data.mpr ⟨⟨hport, hsize, hlevel, by simp⟩, rfl⟩
  rw [parse_config_node, hrow, List.map_nil, hparsed, ok_bind]
  rfl

end Graph

theorem node_data_loads_sample :
    parse_config (opened (setup_multiple_node_data sampleGraph ⟨4, 1⟩)) (data_file 2) =
      .ok (node_config 2 [0] ⟨4, 1⟩) := by
  have hrow : sampleGraph.row 2 = [0] := by decide
  have h := (node_data_loads sampleGraph ⟨4, 1⟩ 2).1 (node_config 2 [0] ⟨4, 1⟩)
  rw [hrow] at h
  exact h.mpr ⟨⟨by decide, by decide, by decide, by decide, by decide⟩, rfl⟩

end Xcoin
