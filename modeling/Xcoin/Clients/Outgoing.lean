import Xcoin.Lib.Positions
import Xcoin.Receive.PingText

/-! The outgoing clients: `connect_peer` for every configured peer, the table `out_clients_` by
host name, and a broadcast to the clients of the table. -/

namespace Xcoin

open Lib.Archives Lib.StdMaps Lib.Positions

structure PeerAddr where
  host : String
  port : ℤ
  deriving DecidableEq

structure OutClient where
  server_host_name_ : String
  -- ghost: the address its socket is connected to
  addr : PeerAddr
  deriving DecidableEq

structure Outgoing where
  -- the clients that `connect_peer` allocated, in that order
  heap : List OutClient
  out_clients_ : StdMap String ℕ

def Outgoing.add_client_out (s : Outgoing) (name : String) (c : ℕ) : Outgoing :=
  { s with out_clients_ := StdMap.emplace s.out_clients_ name c }

def Outgoing.connect_peer (s : Outgoing) (peer : PeerAddr) : Outgoing :=
  let client : OutClient := ⟨peer.host, peer⟩
  Outgoing.add_client_out { s with heap := s.heap ++ [client] } client.server_host_name_
    s.heap.length

def Outgoing.init (peers : List PeerAddr) : Outgoing :=
  peers.foldl Outgoing.connect_peer ⟨[], ∅⟩

-- what is written, and to which client, in the order of the table
def Outgoing.broadcast_ping (A : Archive PingMsg) (s : Outgoing) (start : Int64) (hop : ℤ)
    (msg_size_ : ℕ) : List (ℕ × List UInt8) :=
  s.out_clients_.entries.map fun e => (e.2, ping_frame A (PingMsg.new start hop msg_size_))

/-- One frame is written to the connections of `peer`, and it is written to the latest of them. -/
def Outgoing.Reached (s : Outgoing) (writes : List (ℕ × List UInt8)) (frame : List UInt8)
    (peer : PeerAddr) : Prop :=
  ∃ i, LastAt (s.heap.map OutClient.addr) peer i ∧ writes.count (i, frame) = 1 ∧
    ∀ w ∈ writes, (s.heap.map OutClient.addr)[w.1]? = some peer → w = (i, frame)

variable {A : Archive PingMsg} {s : Outgoing} {peers : List PeerAddr} {peer : PeerAddr}
  {start : Int64} {hop : ℤ} {msg_size_ : ℕ} {w : ℕ × List UInt8}

structure Outgoing.Opened (s : Outgoing) (peers : List PeerAddr) : Prop where
  heap : s.heap.map OutClient.addr = peers
  table : FirstWins s.out_clients_ (peers.map PeerAddr.host)

lemma connect_opened (h : s.Opened peers) (peer : PeerAddr) :
    (s.connect_peer peer).Opened (peers ++ [peer]) where
  heap := by simp [Outgoing.connect_peer, Outgoing.add_client_out, h.heap]
  table := by
    have hlen : s.heap.length = (peers.map PeerAddr.host).length := by simp [← h.heap]
    rw [Outgoing.connect_peer, hlen, List.map_append]
    exact h.table.emplace peer.host

lemma init_opened (peers : List PeerAddr) : (Outgoing.init peers).Opened peers := by
  induction peers using List.reverseRecOn with
  | nil => exact ⟨rfl, firstWins_empty⟩
  | append_singleton peers peer ih =>
    rw [Outgoing.init, List.foldl_append]
    exact connect_opened ih peer

lemma mem_broadcast_ping (h : s.Opened peers) : w ∈ s.broadcast_ping A start hop msg_size_ ↔
    (∃ name, FirstAt (peers.map PeerAddr.host) name w.1) ∧
      w.2 = ping_frame A (PingMsg.new start hop msg_size_) := by
  simp only [Outgoing.broadcast_ping, List.mem_map]
  constructor
  · rintro ⟨e, he, rfl⟩
    exact ⟨⟨e.1, (h.table e.1 e.2).mp (AList.mem_lookup_iff.mpr he)⟩, rfl⟩
  · rintro ⟨⟨name, hname⟩, hw⟩
    have hlookup := (h.table name w.1).mpr hname
    exact ⟨⟨name, w.1⟩, AList.mem_lookup_iff.mp hlookup, Prod.ext rfl hw.symm⟩

lemma broadcast_nodup (h : s.Opened peers) : (s.broadcast_ping A start hop msg_size_).Nodup := by
  apply s.out_clients_.nodupKeys.nodup.map_on
  intro e he e' he' heq
  have hfirst := (h.table e.1 e.2).mp (AList.mem_lookup_iff.mpr he)
  have hfirst' := (h.table e'.1 e'.2).mp (AList.mem_lookup_iff.mpr he')
  have hvalue : e.2 = e'.2 := congrArg Prod.fst heq
  rw [hvalue] at hfirst
  have hkey : e.1 = e'.1 := Option.some.inj (hfirst.1.symm.trans hfirst'.1)
  exact Sigma.ext hkey (heq_of_eq hvalue)

lemma reached_iff (h : s.Opened peers) :
    s.Reached (s.broadcast_ping A start hop msg_size_)
      (ping_frame A (PingMsg.new start hop msg_size_)) peer ↔
      ∃ i, LastAt peers peer i ∧ FirstAt (peers.map PeerAddr.host) peer.host i := by
  rw [Outgoing.Reached, h.heap]
  constructor
  · rintro ⟨i, hlast, hcount, -⟩
    have hmem : (i, ping_frame A (PingMsg.new start hop msg_size_)) ∈
        s.broadcast_ping A start hop msg_size_ := List.count_pos_iff.mp (by omega)
    obtain ⟨⟨name, hname⟩, -⟩ := (mem_broadcast_ping h).mp hmem
    have hhost : (peers.map PeerAddr.host)[i]? = some peer.host := by simp [hlast.1]
    obtain rfl : name = peer.host := Option.some.inj (hname.1.symm.trans hhost)
    exact ⟨i, hlast, hname⟩
  · rintro ⟨i, hlast, hfirst⟩
    refine ⟨i, hlast, ?_, ?_⟩
    · exact List.count_eq_one_of_mem (broadcast_nodup h)
        ((mem_broadcast_ping h).mpr ⟨⟨peer.host, hfirst⟩, rfl⟩)
    · intro w hw hpeer
      obtain ⟨⟨name, hname⟩, hframe⟩ := (mem_broadcast_ping h).mp hw
      have hhost : (peers.map PeerAddr.host)[w.1]? = some peer.host := by simp [hpeer]
      have hle : w.1 ≤ i := hlast.le hpeer
      have hge : i ≤ w.1 := hfirst.le hhost
      exact Prod.ext (by omega) hframe

lemma hosts_distinct (h : ∀ peer ∈ peers, ∃ i, LastAt peers peer i ∧
    FirstAt (peers.map PeerAddr.host) peer.host i) : (peers.map PeerAddr.host).Nodup := by
  rw [List.nodup_iff_getElem?_ne_getElem?]
  intro i j hij hj heq
  have hj : j < peers.length := by simpa using hj
  have hpeer : peers[j]? = some peers[j] := List.getElem?_eq_getElem hj
  obtain ⟨k, hlast, hfirst⟩ := h peers[j] (List.getElem_mem hj)
  have hjk : j ≤ k := hlast.le hpeer
  have hki : k ≤ i := hfirst.le (by simp [heq, hpeer])
  omega

/-- Every peer is reached exactly when no host name is configured twice. -/
theorem broadcast_reaches_iff (A : Archive PingMsg) (peers : List PeerAddr) (start : Int64)
    (hop : ℤ) (msg_size_ : ℕ) :
    (∀ peer ∈ peers, (Outgoing.init peers).Reached
      ((Outgoing.init peers).broadcast_ping A start hop msg_size_)
      (ping_frame A (PingMsg.new start hop msg_size_)) peer) ↔
      (peers.map PeerAddr.host).Nodup := by
  simp only [reached_iff (init_opened peers)]
  refine ⟨hosts_distinct, fun h peer hpeer => ?_⟩
  obtain ⟨i, hi⟩ := List.getElem?_of_mem hpeer
  exact ⟨i, lastAt_of_nodup (h.of_map _) hi, firstAt_of_nodup h (by simp [hi])⟩

def repeatedPeers : List PeerAddr := [⟨"peer1", 2000⟩, ⟨"peer2", 2000⟩, ⟨"peer1", 2000⟩]

theorem broadcast_misses : ¬ ∀ peer ∈ repeatedPeers, (Outgoing.init repeatedPeers).Reached
    ((Outgoing.init repeatedPeers).broadcast_ping textArchive 0 1 0)
    (ping_frame textArchive (PingMsg.new 0 1 0)) peer := by
  simp only [reached_iff (init_opened repeatedPeers)]
  intro h
  exact absurd (hosts_distinct h) (by decide)

end Xcoin
