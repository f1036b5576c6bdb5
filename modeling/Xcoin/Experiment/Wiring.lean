import Xcoin.Config.RoundTrip
import Xcoin.Topology.Degrees

/-! The nodes of an experiment, each started with its own file, and the connections between
them: who accepts what `connect_peer` opens. -/

namespace Xcoin

open Lib.Decimal Lib.StdMaps Lib.Positions

structure ShadowHost where
  id : String
  input_dir : String
  deriving DecidableEq

def setup_multiple_node_xml (node_num : ℕ) : List ShadowHost :=
  (List.range node_num).map fun i => ⟨peer_name i, data_file i⟩

structure Process where
  host : String
  config : Config
  outgoing : Outgoing

-- `parse_cmd`, and `init` up to the ping
def ShadowHost.start (files : List (String × List Char)) (h : ShadowHost) :
    Except ConfigFault Process := do
  let config ← parse_config (opened files) h.input_dir
  pure ⟨h.id, config, Outgoing.init config.peers⟩

-- the 16 bits that `htons` keeps of a port
def sin_port (port : ℤ) : ℕ := (port % 2 ^ 16).toNat

-- host names are resolved to the hosts of that id; a server that is bound to port 0 is given
-- another port
def Process.accepts (p : Process) (addr : PeerAddr) : Bool :=
  p.host = addr.host && sin_port p.config.my_port = sin_port addr.port &&
    sin_port addr.port ≠ 0

def Outgoing.clients (s : Outgoing) : List OutClient :=
  s.out_clients_.entries.filterMap fun e => s.heap[e.2]?

def Process.initiates (p : Process) : Bool := p.config.my_addr = "peer0"

variable {n : ℕ}

/-- The network that the processes form. -/
def peers_of (ps : Fin n → Process) : Peers (Fin n) where
  out_clients_ i := Finset.univ.filter fun j =>
    (ps i).outgoing.clients.any fun c => (ps j).accepts c.addr
  msg_size_ i := (ps i).config.msg_size.toNat

variable {s : Outgoing} {peers : List PeerAddr} {c : OutClient} {i j : ℕ}

lemma filterMap_range_getElem? {α : Type} (l : List α) :
    (List.range l.length).filterMap (fun k => l[k]?) = l := by
  induction l using List.reverseRecOn with
  | nil => rfl
  | append_singleton l a ih =>
    have hold : (List.range l.length).filterMap (fun k => (l ++ [a])[k]?) = l := by
      calc _ = (List.range l.length).filterMap (fun k => l[k]?) := by
            apply List.filterMap_congr
            intro k hk
            exact List.getElem?_append_left (List.mem_range.mp hk)
        _ = l := ih
    rw [List.length_append, List.length_singleton, List.range_succ, List.filterMap_append, hold]
    simp

/-- With distinct host names, every configured peer has one client in the table. -/
lemma clients_perm (h : s.Opened peers) (hosts : (peers.map PeerAddr.host).Nodup) :
    (s.clients.map OutClient.addr).Perm peers := by
  have hlen : (peers.map PeerAddr.host).length = s.heap.length := by simp [← h.heap]
  have hindices : (s.out_clients_.entries.map Sigma.snd).Perm (List.range s.heap.length) :=
    hlen ▸ h.table.values_perm hosts
  have hclients : s.clients = (s.out_clients_.entries.map Sigma.snd).filterMap
      fun k => s.heap[k]? := by
    rw [List.filterMap_map]
    rfl
  have hheap := (hindices.filterMap fun k => s.heap[k]?).map OutClient.addr
  rwa [← hclients, filterMap_range_getElem?, h.heap] at hheap

lemma accepts_eq {p : Process} {addr : PeerAddr} : p.accepts addr = true ↔
    p.host = addr.host ∧ sin_port p.config.my_port = sin_port addr.port ∧
      sin_port addr.port ≠ 0 := by
  simp [Process.accepts, and_assoc]

lemma peer_name_inj : Function.Injective peer_name := by
  intro i j h
  exact digits_inj (List.append_cancel_left (String.ofList_injective h))

lemma peer_name_zero (h : peer_name i = "peer0") : i = 0 := peer_name_inj (h.trans (by decide))

def peer_addr (peer : ℕ) : PeerAddr := ⟨peer_name peer, (BASE_PORT + peer : ℕ)⟩

lemma sin_port_base (h : BASE_PORT + i < 2 ^ 16) :
    sin_port (BASE_PORT + i : ℕ) = BASE_PORT + i ∧ sin_port (BASE_PORT + i : ℕ) ≠ 0 := by
  have hport : sin_port (BASE_PORT + i : ℕ) = BASE_PORT + i := by
    rw [sin_port]
    omega
  refine ⟨hport, ?_⟩
  rw [hport, BASE_PORT]
  omega

variable (graph : LilMatrix n) (args : Args)

/-- The process that the file of a node starts. -/
def launched (i : Fin n) : Process :=
  let config := node_config i ((graph.row i).map Fin.val) args
  ⟨peer_name i, config, Outgoing.init config.peers⟩

variable {graph args} {v w : Fin n} {p : ℕ}

lemma launched_peers :
    (launched graph args v).config.peers = (graph.row v).map fun (w : Fin n) => peer_addr w :=
  List.map_map

lemma start_launched (hrow : graph.row v ≠ []) (hports : BASE_PORT + n ≤ 2 ^ 16)
    (hsize : FitsInt args.msgsize) (hlevel : FitsInt args.log) :
    ShadowHost.start (setup_multiple_node_data graph args) ⟨peer_name v, data_file v⟩ =
      .ok (launched graph args v) := by
  have hfits : ∀ w : Fin n, FitsInt (BASE_PORT + w : ℕ) := by
    intro w
    have hw := w.isLt
    rw [FitsInt, int_min, int_max]
    omega
  rw [ShadowHost.start,
    node_data_ok.mpr ⟨⟨hrow, fun w _ => hfits w, hfits v, hsize, hlevel⟩, rfl⟩]
  rfl

lemma launched_clients (graph : LilMatrix n) (args : Args) (v : Fin n) :
    ((launched graph args v).outgoing.clients.map OutClient.addr).Perm
      ((graph.row v).map fun (w : Fin n) => peer_addr w) := by
  have hopened : (launched graph args v).outgoing.Opened (launched graph args v).config.peers :=
    init_opened _
  rw [launched_peers] at hopened
  apply clients_perm hopened
  have hinj : Function.Injective fun (w : Fin n) => (peer_addr w).host :=
    peer_name_inj.comp Fin.val_injective
  rw [List.map_map]
  exact (row_nodup graph v).map hinj

lemma accepts_iff (hports : BASE_PORT + n ≤ 2 ^ 16) :
    (launched graph args v).accepts (peer_addr p) = true ↔ (v : ℕ) = p := by
  have hport := (sin_port_base (i := v) (by omega)).2
  rw [accepts_eq]
  constructor
  · rintro ⟨hname, -⟩
    exact peer_name_inj hname
  · rintro rfl
    exact ⟨rfl, rfl, hport⟩

/-- The connections are the edges of the graph. -/
lemma launched_edge (hports : BASE_PORT + n ≤ 2 ^ 16) :
    (peers_of (launched graph args)).Edge v w ↔ graph.Edge v w := by
  have hmem : (peers_of (launched graph args)).Edge v w ↔
      ∃ addr ∈ (launched graph args v).outgoing.clients.map OutClient.addr,
        (launched graph args w).accepts addr = true := by
    simp [Peers.Edge, peers_of]
  rw [hmem]
  constructor
  · rintro ⟨addr, haddr, haccepts⟩
    obtain ⟨u, hu, rfl⟩ := List.mem_map.mp ((launched_clients graph args v).subset haddr)
    have hwu : (w : ℕ) = u := (accepts_iff hports).mp haccepts
    obtain rfl : w = u := Fin.ext hwu
    exact LilMatrix.mem_row.mp hu
  · intro h
    have haddr : peer_addr w ∈ (graph.row v).map fun (w : Fin n) => peer_addr w :=
      List.mem_map_of_mem (LilMatrix.mem_row.mpr h)
    exact ⟨peer_addr w, (launched_clients graph args v).symm.subset haddr,
      (accepts_iff hports).mpr rfl⟩

lemma launched_out_clients (hports : BASE_PORT + n ≤ 2 ^ 16) :
    ((peers_of (launched graph args)).out_clients_ v).card = (graph.row v).length := by
  have hset : (peers_of (launched graph args)).out_clients_ v = (graph.row v).toFinset := by
    ext w
    rw [List.mem_toFinset, LilMatrix.mem_row]
    exact launched_edge hports
  rw [hset, List.toFinset_card_of_nodup (row_nodup graph v)]

end Xcoin
