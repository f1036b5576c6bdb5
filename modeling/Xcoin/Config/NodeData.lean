import Xcoin.Config.Integers
import Xcoin.Config.ParseConfig
import Xcoin.Topology.Connect

/-! The files that `setup_multiple_node_data` writes, one for each node, and their lines. -/

namespace Xcoin

open Lib.Decimal Lib.Lines Lib.StdMaps Toml

structure Args where
  msgsize : ℤ
  log : ℤ

def BASE_PORT : ℕ := 50000

def peer_name (i : ℕ) : String := String.ofList ("peer".toList ++ digits i)

def peer_data (peer : ℕ) : List Char :=
  "[[peers]]\n".toList ++
  "peer-host = \"peer".toList ++ digits peer ++ "\"\n".toList ++
  "peer-port = ".toList ++ digits (BASE_PORT + peer) ++ "\n".toList

def node_data (i : ℕ) (peers : List ℕ) (args : Args) : List Char :=
  "my-addr = \"peer".toList ++ digits i ++ "\"\n".toList ++
  "my-port = ".toList ++ digits (BASE_PORT + i) ++ "\n".toList ++
  "msg-size = ".toList ++ int_text args.msgsize ++ "\n".toList ++
  "log-level = ".toList ++ int_text args.log ++ "\n".toList ++
  "miner-timeout = ".toList ++ digits 30 ++ "\n\n".toList ++
  peers.flatMap peer_data

def data_file (i : ℕ) : String := String.ofList ("./data/peer".toList ++ digits i ++ ".toml".toList)

variable {n : ℕ}

-- the files in ./data/, which is emptied first
def setup_multiple_node_data (graph : LilMatrix n) (args : Args) : List (String × List Char) :=
  (List.finRange n).map fun (i : Fin n) =>
    (data_file i, node_data i ((graph.row i).map Fin.val) args)

def opened (files : List (String × List Char)) (name : String) : Option (List Char) :=
  files.lookup name

/-- What the file of node `i` says. -/
def node_config (i : ℕ) (peers : List ℕ) (args : Args) : Config where
  peers := peers.map fun peer => ⟨peer_name peer, (BASE_PORT + peer : ℕ)⟩
  my_port := (BASE_PORT + i : ℕ)
  my_addr := peer_name i
  miner_timeout := 30
  msg_size := args.msgsize
  log_level := args.log

def quoted_line (key : String) (name : List Char) : List Char :=
  key.toList ++ [' '] ++ '=' :: ' ' :: ('"' :: name ++ ['"'])

def int_line (key : String) (z : ℤ) : List Char :=
  key.toList ++ [' '] ++ '=' :: ' ' :: int_text z

def header_line (key : String) : List Char := '[' :: '[' :: key.toList ++ [']', ']']

def peer_lines (peer : ℕ) : List (List Char) :=
  [header_line "peers", quoted_line "peer-host" ("peer".toList ++ digits peer),
    int_line "peer-port" (BASE_PORT + peer : ℕ)]

def settings_lines (i : ℕ) (args : Args) : List (List Char) :=
  [quoted_line "my-addr" ("peer".toList ++ digits i), int_line "my-port" (BASE_PORT + i : ℕ),
    int_line "msg-size" args.msgsize, int_line "log-level" args.log,
    int_line "miner-timeout" (30 : ℕ), []]

variable {i peer : ℕ} {peers : List ℕ} {args : Args} {key : String} {name : List Char} {z : ℤ}

lemma int_text_ofNat (n : ℕ) : int_text n = digits n := if_pos (Int.natCast_nonneg n)

lemma toList_quote : "\"\n".toList = ['"', '\n'] := by decide

lemma toList_newline : "\n".toList = ['\n'] := by decide

lemma peer_data_lines (peer : ℕ) : peer_data peer = unlines (peer_lines peer) := by
  have hheader : "[[peers]]\n".toList = header_line "peers" ++ ['\n'] := by decide
  have hhost : "peer-host = \"peer".toList =
      "peer-host".toList ++ [' '] ++ '=' :: ' ' :: '"' :: "peer".toList := by decide
  have hport : "peer-port = ".toList = "peer-port".toList ++ [' '] ++ ['=', ' '] := by decide
  unfold peer_data
  simp only [hheader, hhost, hport, toList_quote, toList_newline, unlines, peer_lines,
    quoted_line, int_line, int_text_ofNat, List.flatMap_cons, List.flatMap_nil, List.append_assoc,
    List.cons_append, List.nil_append, List.append_nil]

lemma node_data_lines (i : ℕ) (peers : List ℕ) (args : Args) :
    node_data i peers args = unlines (settings_lines i args ++ peers.flatMap peer_lines) := by
  have haddr : "my-addr = \"peer".toList =
      "my-addr".toList ++ [' '] ++ '=' :: ' ' :: '"' :: "peer".toList := by decide
  have hport : "my-port = ".toList = "my-port".toList ++ [' '] ++ ['=', ' '] := by decide
  have hsize : "msg-size = ".toList = "msg-size".toList ++ [' '] ++ ['=', ' '] := by decide
  have hlevel : "log-level = ".toList = "log-level".toList ++ [' '] ++ ['=', ' '] := by decide
  have htimeout : "miner-timeout = ".toList = "miner-timeout".toList ++ [' '] ++ ['=', ' '] := by
    decide
  have hblank : "\n\n".toList = ['\n', '\n'] := by decide
  have hpeers : peers.flatMap peer_data = unlines (peers.flatMap peer_lines) := by
    rw [unlines, List.flatMap_assoc]
    apply List.flatMap_congr
    intro peer _
    exact peer_data_lines peer
  unfold node_data
  simp only [haddr, hport, hsize, hlevel, htimeout, hblank, toList_quote,
    toList_newline, hpeers, unlines, settings_lines, quoted_line, int_line, int_text_ofNat,
    List.flatMap_cons, List.append_assoc, List.cons_append, List.nil_append]

def Clean (l : List Char) : Prop := ∀ c ∈ l, c ≠ '\r' ∧ c ≠ '\n'

lemma Clean.append {l l' : List Char} (h : Clean l) (h' : Clean l') : Clean (l ++ l') := by
  intro c hc
  cases List.mem_append.mp hc with
  | inl hc => exact h c hc
  | inr hc => exact h' c hc

lemma clean_int_text (z : ℤ) : Clean (int_text z) := by
  intro c hc
  constructor
  · rintro rfl
    exact int_text_not (by decide) (by decide) hc
  · rintro rfl
    exact int_text_not (by decide) (by decide) hc

lemma clean_peer (i : ℕ) : Clean ("peer".toList ++ digits i) := by
  have hpeer : Clean "peer".toList := forall_chars (by decide)
  exact hpeer.append (int_text_ofNat i ▸ clean_int_text i)

lemma clean_quoted_line (hkey : Clean key.toList) (hname : Clean name) :
    Clean (quoted_line key name) := by
  have hopen : Clean ['=', ' ', '"'] := forall_chars (by decide)
  have hblank : Clean [' '] := forall_chars (by decide)
  have hclose : Clean ['"'] := forall_chars (by decide)
  exact (hkey.append hblank).append (hopen.append (hname.append hclose))

lemma clean_int_line (hkey : Clean key.toList) : Clean (int_line key z) := by
  have hopen : Clean ['=', ' '] := forall_chars (by decide)
  have hblank : Clean [' '] := forall_chars (by decide)
  exact (hkey.append hblank).append (hopen.append (clean_int_text z))

lemma clean_settings (i : ℕ) (args : Args) : ∀ l ∈ settings_lines i args, Clean l := by
  simp only [settings_lines, List.forall_mem_cons]
  refine ⟨clean_quoted_line ?_ (clean_peer i), clean_int_line ?_, clean_int_line ?_,
    clean_int_line ?_, clean_int_line ?_, ?_, by simp⟩
  all_goals exact forall_chars (by decide)

lemma clean_peer_lines (peer : ℕ) : ∀ l ∈ peer_lines peer, Clean l := by
  simp only [peer_lines, List.forall_mem_cons]
  refine ⟨?_, clean_quoted_line ?_ (clean_peer peer), clean_int_line ?_, by simp⟩
  all_goals exact forall_chars (by decide)

lemma clean_lines (i : ℕ) (peers : List ℕ) (args : Args) :
    ∀ l ∈ settings_lines i args ++ peers.flatMap peer_lines, Clean l := by
  intro l hl
  cases List.mem_append.mp hl with
  | inl hl => exact clean_settings i args l hl
  | inr hl =>
    obtain ⟨p, -, hp⟩ := List.mem_flatMap.mp hl
    exact clean_peer_lines p l hp

lemma data_file_inj : Function.Injective data_file := by
  intro i j h
  have hlist := List.append_cancel_right (String.ofList_injective h)
  exact digits_inj (List.append_cancel_left hlist)

lemma lookup_map_inj {α β κ : Type} [DecidableEq κ] {l : List α} {f : α → κ} {g : α → β}
    (hf : Function.Injective f) {a : α} (ha : a ∈ l) :
    (l.map fun x => (f x, g x)).lookup (f a) = some (g a) := by
  induction l with
  | nil => simp at ha
  | cons b l ih =>
    rw [List.map_cons, List.lookup_cons]
    by_cases hab : f a = f b
    · obtain rfl := hf hab
      simp
    · have hmem : a ∈ l := (List.mem_cons.mp ha).resolve_left fun h => hab (h ▸ rfl)
      rw [beq_eq_false_iff_ne.mpr hab]
      exact ih hmem

lemma opened_node (graph : LilMatrix n) (args : Args) (i : Fin n) :
    opened (setup_multiple_node_data graph args) (data_file i) =
      some (node_data i ((graph.row i).map Fin.val) args) := by
  have hinj : Function.Injective fun j : Fin n => data_file j :=
    data_file_inj.comp Fin.val_injective
  exact lookup_map_inj (g := fun j : Fin n => node_data j ((graph.row j).map Fin.val) args) hinj
    (List.mem_finRange i)

end Xcoin
