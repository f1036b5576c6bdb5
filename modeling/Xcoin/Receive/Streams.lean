import Xcoin.Ping.Counting
import Xcoin.Receive.Alignment
import Xcoin.Receive.Relaying

/-! The flood on bytes: what a peer writes to another is a stream that arrives in pieces, and
`buf_read_cb` runs on every piece. A run in which every callback takes its piece in is one of
the flood of frames. -/

namespace Xcoin

open Relation Lib.Runs Lib.Archives Lib.Bytes

structure Streams (V : Type) where
  G_RECEIVED : V → Bool
  -- what one peer has written to another, as far as it has not arrived
  in_transit : V × V → List UInt8
  -- at the second peer, the client of the connection that the first one opened
  client : V × V → Connection

variable {V : Type} [DecidableEq V] (A : Archive PingMsg) (G : Peers V)

def Streams.broadcast_ping (u : V) (s : Streams V) (call : Int64 × ℤ) : Streams V :=
  { s with
    in_transit := fun p =>
      if p.1 = u ∧ p.2 ∈ G.out_clients_ u then
        s.in_transit p ++ ping_frame A (PingMsg.new call.1 call.2 (G.msg_size_ u))
      else s.in_transit p }

def Streams.init_ping (peer0 : V) (start_us : Int64) : Streams V :=
  Streams.broadcast_ping A G peer0 {
    G_RECEIVED := Function.update (fun _ => false) peer0 true
    in_transit := fun _ => []
    client := fun _ => .fresh false } (start_us, 1)

-- `G_RECEIVED` is one variable of the peer, whichever client it is read for
def Streams.at_client (s : Streams V) (p : V × V) : Connection :=
  { s.client p with G_RECEIVED := s.G_RECEIVED p.2, sent := [] }

def Streams.arrive (p : V × V) (piece later : List UInt8) (s : Streams V) :
    Except ReceiveFault (Streams V) :=
  (fun client : Connection => client.sent.foldl (Streams.broadcast_ping A G p.2) {
    G_RECEIVED := Function.update s.G_RECEIVED p.2 client.G_RECEIVED
    in_transit := Function.update s.in_transit p later
    client := Function.update s.client p client }) <$> receive A (s.at_client p) piece

inductive Streams.Step (s : Streams V) : Streams V → Prop
  | arrive {p : V × V} {piece later : List UInt8} {t : Streams V} :
      s.in_transit p = piece ++ later → piece ≠ [] → s.arrive A G p piece later = .ok t →
      Step s t

/-- The first piece of a frame may end inside the header, and a read may fill the whole array. -/
def Connection.Chokes (c : Connection) (piece : List UInt8) : Prop :=
  if c.to_read_ = 0 then
    piece.length < MSG_HEADER_SIZE ∨ MSG_HEADER_SIZE + 8192 ≤ piece.length
  else 8192 ≤ piece.length

/-- The client waits for `later`, the end of a frame that nothing follows. -/
inductive Connection.Awaits (c : Connection) (m : PingMsg) : List UInt8 → Prop
  | unread : c.At [] [] 0 [] → Awaits c m (ping_frame A m)
  | inside {part later : List UInt8} : A.save m = part ++ later → later ≠ [] →
      c.At [] part later.length [] → Awaits c m later

variable {A G} {c d : Connection} {m : PingMsg} {piece later input buf : List UInt8}

lemma Connection.Awaits.ne_nil (h : c.Awaits A m later) : later ≠ [] := by
  cases h with
  | unread _ =>
    intro hnil
    have hlen := congrArg List.length hnil
    rw [ping_frame, wire_length] at hlen
    simp [MSG_HEADER_SIZE] at hlen
  | inside _ hne _ => exact hne

lemma Connection.Awaits.log (h : c.Awaits A m later) : c.dispatched = [] := by
  cases h with
  | unread h => exact h.log
  | inside _ _ h => exact h.log

lemma awaits_view (h : c.Awaits A m later) (received : Bool) (sent : List (Int64 × ℤ)) :
    Connection.Awaits A { c with G_RECEIVED := received, sent := sent } m later := by
  cases h with
  | unread h => exact .unread ⟨h.input, h.buf, h.missing, h.log, h.whole⟩
  | inside hm hne h => exact .inside hm hne ⟨h.input, h.buf, h.missing, h.log, h.whole⟩

/-- What is left to come after a piece. -/
def Connection.Moved (A : Archive PingMsg) (c : Connection) (m : PingMsg) (later : List UInt8) :
    Prop :=
  (later = [] ∧ c.At [] [] 0 [(A.save m, m)]) ∨ c.Awaits A m later

theorem body_piece (hsent : Sent (A.save m)) (hbody : A.save m = buf ++ (input ++ later))
    (hc : c.At input buf (input ++ later).length []) (hne : input ++ later ≠ []) :
    if 8192 ≤ input.length then c.read_body A (input.length + 1) = .error .unterminated_array
    else ∃ d, c.read_body A (input.length + 1) = .ok d ∧ d.Moved A m later := by
  have hclean : 0 ∉ input := by
    intro hz
    apply hsent.clean
    simp [hbody, hz]
  split
  · rename_i hfull
    apply read_body_full hc _ hfull _
    · rw [List.length_append]
      omega
    · exact fun hz => hclean (List.mem_of_mem_take hz)
  · rename_i hshort
    by_cases hlater : later = []
    · subst hlater
      rw [List.append_nil] at hbody hc hne
      have hin : (input ++ []).length = input.length := by simp
      have hload : A.load (buf ++ input) = some (m, []) := hbody ▸ A.load_whole m
      have hat : c.At (input ++ []) buf input.length [] := by rwa [List.append_nil]
      obtain ⟨d, hd, hat⟩ := read_body_last hat hload hne hclean (by omega)
      rw [hin] at hd
      exact ⟨d, hd, Or.inl ⟨rfl, hbody ▸ hat⟩⟩
    · rw [List.length_append] at hc
      obtain ⟨d, hd, hat⟩ := read_body_part (A := A) hc hlater hclean (by omega)
      refine ⟨d, hd, Or.inr (.inside ?_ hlater hat)⟩
      rw [hbody, List.append_assoc]

/-- What a piece does to a client that waits for it. -/
theorem receive_awaits (hsent : Sent (A.save m)) (hc : c.Awaits A m (piece ++ later)) :
    (c.Chokes piece → ∃ e, receive A c piece = .error e) ∧
    (¬ c.Chokes piece → ∃ d, receive A c piece = .ok d ∧ d.Moved A m later) := by
  generalize hwhole : piece ++ later = whole at hc
  cases hc with
  | unread hat =>
    rw [Connection.Chokes, if_pos hat.missing]
    by_cases hhead : piece.length < MSG_HEADER_SIZE
    · have hlen : ([] : List UInt8).length + piece.length < MSG_HEADER_SIZE := by simpa using hhead
      have hshort := receive_short (A := A) hat hlen
      exact ⟨fun _ => ⟨_, hshort⟩, fun hno => (hno (Or.inl hhead)).elim⟩
    · have hstream : [] ++ (piece :: [later]).flatten = wire MSG_TYPE_PING (A.save m) ++ [] := by
        simpa [ping_frame] using hwhole
      obtain ⟨input, d, hdat, hd, hbody, hcut⟩ := frame_header (A := A) hat hsent.int32
        (by simpa using hhead) hstream
      rw [List.flatten_singleton, List.append_nil] at hbody
      rw [List.length_nil, Nat.zero_add] at hcut
      have hwhole : A.save m = [] ++ (input ++ later) := hbody.symm
      have hread := body_piece hsent hwhole (by rwa [hbody]) (by rw [hbody]; exact hsent.ne_nil)
      rw [hd]
      split at hread
      · rename_i hfull
        exact ⟨fun _ => ⟨_, hread⟩, fun hno => (hno (Or.inr (by omega))).elim⟩
      · rename_i hshort
        exact ⟨fun hyes => (hyes.elim hhead (by omega)).elim, fun _ => hread⟩
  | inside hm hne hat =>
    subst hwhole
    have hmissing : (piece ++ later).length ≠ 0 := fun h => hne (List.length_eq_zero_iff.mp h)
    rw [Connection.Chokes, hat.missing, if_neg hmissing]
    have harrived := arrived_at hat piece
    rw [List.nil_append] at harrived
    have hread := body_piece hsent hm harrived hne
    rw [receive, callback_body harrived hmissing]
    split at hread
    · rename_i hfull
      exact ⟨fun _ => ⟨_, hread⟩, fun hno => (hno hfull).elim⟩
    · rename_i hshort
      exact ⟨fun hyes => (hshort hyes).elim, fun _ => hread⟩

/-- The frames in flight are those with bytes still to come, and those delivered are decoded. -/
structure Streams.Refines (A : Archive PingMsg) (s : Streams V) (t : Flood V) : Prop where
  flag : s.G_RECEIVED = t.G_RECEIVED
  idle : ∀ {p : V × V}, (∀ f ∈ t.in_flight + t.delivered, f.edge ≠ p) →
    s.in_transit p = [] ∧ (s.client p).At [] [] 0 []
  flying : ∀ {f : Frame V}, f ∈ t.in_flight →
    (s.client f.edge).Awaits A f.msg (s.in_transit f.edge)
  landed : ∀ {f : Frame V}, f ∈ t.delivered →
    s.in_transit f.edge = [] ∧ (s.client f.edge).At [] [] 0 [(A.save f.msg, f.msg)]

variable {s s' : Streams V} {t : Flood V} {f g : Frame V} {p : V × V} {peer0 : V}
  {start_us : Int64}

lemma edges_apart {M N : Multiset (Frame V)}
    (h : ∀ u v, ((M + N).map Frame.edge).count (u, v) ≤ 1) (hf : f ∈ M) (hg : g ∈ N) :
    f.edge ≠ g.edge := by
  intro heq
  have hle : ((M + N).map Frame.edge).count g.edge ≤ 1 := h g.edge.1 g.edge.2
  have hm := Multiset.count_pos.mpr (Multiset.mem_map_of_mem Frame.edge hf)
  have hn := Multiset.count_pos.mpr (Multiset.mem_map_of_mem Frame.edge hg)
  rw [heq] at hm
  rw [Multiset.map_add, Multiset.count_add] at hle
  omega

-- the only frame over its edge
lemma flight_apart (h : ∀ u v, t.carried u v ≤ 1) (hf : f ∈ t.in_flight)
    (hg : g ∈ t.in_flight.erase f + t.delivered) : f.edge ≠ g.edge := by
  apply edges_apart (M := {f}) _ (Multiset.mem_singleton_self f) hg
  intro u v
  rw [← add_assoc, Multiset.singleton_add, Multiset.cons_erase hf]
  exact h u v

lemma Streams.Refines.broadcast (h : s.Refines A t) {u : V} {start : Int64} {hop : ℤ}
    (hidle : ∀ f ∈ G.broadcast_ping u start hop, ∀ g ∈ t.in_flight + t.delivered,
      g.edge ≠ f.edge) :
    (Streams.broadcast_ping A G u s (start, hop)).Refines A
      { t with in_flight := t.in_flight + G.broadcast_ping u start hop } := by
  have hkept : ∀ p, (∀ f ∈ G.broadcast_ping u start hop, f.edge ≠ p) →
      (Streams.broadcast_ping A G u s (start, hop)).in_transit p = s.in_transit p := by
    intro p hp
    apply if_neg
    rintro ⟨hu, hv⟩
    exact hp ⟨p.1, p.2, _⟩ (mem_broadcast.mpr ⟨hu, by rwa [Peers.Edge], rfl⟩) rfl
  constructor
  · exact h.flag
  · intro p hp
    obtain ⟨hnil, hat⟩ := h.idle (p := p) fun f hf => hp f (by
      simp only [Multiset.mem_add] at hf ⊢
      tauto)
    refine ⟨?_, hat⟩
    rw [hkept p fun f hf => hp f (by simp [hf]), hnil]
  · intro f hf
    cases Multiset.mem_add.mp hf with
    | inl hf =>
      rw [hkept f.edge fun g hg => (hidle g hg f (by simp [hf])).symm]
      exact h.flying hf
    | inr hf =>
      obtain ⟨hnil, hat⟩ := h.idle fun g hg => hidle f hf g hg
      obtain ⟨hsrc, hedge, hmsg⟩ := mem_broadcast.mp hf
      have hsent : (Streams.broadcast_ping A G u s (start, hop)).in_transit f.edge =
          s.in_transit f.edge ++ ping_frame A f.msg := by
        rw [hmsg]
        exact if_pos ⟨hsrc, hsrc ▸ hedge⟩
      rw [hsent, hnil]
      exact .unread hat
  · intro f hf
    rw [hkept f.edge fun g hg => (hidle g hg f (by simp [hf])).symm]
    exact h.landed hf

/-- What `arrive` changes before the peer writes to others. -/
def Streams.moved (s : Streams V) (p : V × V) (later : List UInt8) (d : Connection) :
    Streams V where
  G_RECEIVED := Function.update s.G_RECEIVED p.2 d.G_RECEIVED
  in_transit := Function.update s.in_transit p later
  client := Function.update s.client p d

lemma arrive_ok : s.arrive A G p piece later = .ok s' ↔ ∃ d,
    receive A (s.at_client p) piece = .ok d ∧
      d.sent.foldl (Streams.broadcast_ping A G p.2) (s.moved p later d) = s' := by
  rw [Streams.arrive, map_ok]
  rfl

lemma moved_other (s : Streams V) (later : List UInt8) (d : Connection) {q : V × V} (hq : q ≠ p) :
    (s.moved p later d).in_transit q = s.in_transit q ∧
      (s.moved p later d).client q = s.client q :=
  ⟨Function.update_of_ne hq _ _, Function.update_of_ne hq _ _⟩

lemma moved_self (s : Streams V) (p : V × V) (later : List UInt8) (d : Connection) :
    (s.moved p later d).in_transit p = later ∧
    (s.moved p later d).client p = d :=
  ⟨Function.update_self _ _ _, Function.update_self _ _ _⟩

lemma moved_waiting (h : s.Refines A t) (hle : ∀ u v, t.carried u v ≤ 1) (hf : f ∈ t.in_flight)
    (hd : d.Awaits A f.msg later) (hflag : d.G_RECEIVED = s.G_RECEIVED f.dst) :
    (s.moved f.edge later d).Refines A t := by
  obtain ⟨hto, hclient⟩ := moved_self s f.edge later d
  constructor
  · rw [← h.flag, Streams.moved, hflag]
    exact Function.update_eq_self _ _
  · intro q hq
    obtain ⟨hin, hcl⟩ := moved_other s later d
      (hq f (Multiset.mem_add.mpr (Or.inl hf))).symm
    rw [hin, hcl]
    exact h.idle hq
  · intro g hg
    by_cases hgf : g = f
    · rw [hgf, hto, hclient]
      exact hd
    · have hne := flight_apart hle hf
        (Multiset.mem_add.mpr (Or.inl ((Multiset.mem_erase_of_ne hgf).mpr hg)))
      obtain ⟨hin, hcl⟩ := moved_other s later d hne.symm
      rw [hin, hcl]
      exact h.flying hg
  · intro g hg
    obtain ⟨hin, hcl⟩ := moved_other s later d
      (flight_apart hle hf (Multiset.mem_add.mpr (Or.inr hg))).symm
    rw [hin, hcl]
    exact h.landed hg

/-- The frame has landed, and nothing has been sent on yet. -/
def Flood.landed (t : Flood V) (f : Frame V) : Flood V where
  G_RECEIVED := Function.update t.G_RECEIVED f.dst true
  in_flight := t.in_flight.erase f
  delivered := f ::ₘ t.delivered

lemma landed_frames (hf : f ∈ t.in_flight) :
    (t.landed f).in_flight + (t.landed f).delivered = t.in_flight + t.delivered := by
  rw [Flood.landed, Multiset.add_cons, ← Multiset.cons_add, Multiset.cons_erase hf]

lemma moved_landed (h : s.Refines A t) (hle : ∀ u v, t.carried u v ≤ 1) (hf : f ∈ t.in_flight)
    (hd : d.At [] [] 0 [(A.save f.msg, f.msg)]) (hflag : d.G_RECEIVED = true) :
    (s.moved f.edge [] d).Refines A (t.landed f) := by
  obtain ⟨hto, hclient⟩ := moved_self s f.edge [] d
  constructor
  · rw [Streams.moved, hflag, h.flag]
    rfl
  · intro q hq
    rw [landed_frames hf] at hq
    obtain ⟨hin, hcl⟩ := moved_other s [] d
      (hq f (Multiset.mem_add.mpr (Or.inl hf))).symm
    rw [hin, hcl]
    exact h.idle hq
  · intro g hg
    obtain ⟨hin, hcl⟩ := moved_other s [] d
      (flight_apart hle hf (Multiset.mem_add.mpr (Or.inl hg))).symm
    rw [hin, hcl]
    exact h.flying (Multiset.mem_of_mem_erase hg)
  · intro g hg
    cases Multiset.mem_cons.mp hg with
    | inl hg =>
      rw [hg, hto, hclient]
      exact ⟨rfl, hd⟩
    | inr hg =>
      obtain ⟨hin, hcl⟩ := moved_other s [] d
        (flight_apart hle hf (Multiset.mem_add.mpr (Or.inr hg))).symm
      rw [hin, hcl]
      exact h.landed hg

omit [DecidableEq V] in
lemma at_client_awaits (h : s.Refines A t) (hf : f ∈ t.in_flight) :
    (s.at_client f.edge).Awaits A f.msg (s.in_transit f.edge) :=
  awaits_view (h.flying hf) _ _

omit [DecidableEq V] in
lemma in_transit_frame (h : s.Refines A t) (hp : s.in_transit p ≠ []) :
    ∃ f ∈ t.in_flight, f.edge = p := by
  by_contra hnone
  apply hp
  by_cases hmem : ∃ f ∈ t.delivered, f.edge = p
  · obtain ⟨f, hf, rfl⟩ := hmem
    exact (h.landed hf).1
  · refine (h.idle ?_).1
    intro f hf hedge
    cases Multiset.mem_add.mp hf with
    | inl hf => exact hnone ⟨f, hf, hedge⟩
    | inr hf => exact hmem ⟨f, hf, hedge⟩

lemma broadcasts_client (calls : List (Int64 × ℤ)) (u : V) :
    (calls.foldl (Streams.broadcast_ping A G u) s).client = s.client := by
  induction calls generalizing s with
  | nil => rfl
  | cons call calls ih => exact ih

lemma arrived_client (s : Streams V) (later : List UInt8) (d : Connection) :
    (d.sent.foldl (Streams.broadcast_ping A G p.2) (s.moved p later d)).client p = d := by
  rw [broadcasts_client]
  exact (moved_self s p later d).2

-- the calls of `broadcast_ping` when a frame is delivered
def Flood.calls (t : Flood V) (f : Frame V) : List (Int64 × ℤ) :=
  if t.G_RECEIVED f.dst then [] else [(f.msg.start_us, f.msg.hop + 1)]

lemma receive_moved (hsent : Sent (A.save m)) (hc : c.Awaits A m (piece ++ later))
    (hd : receive A c piece = .ok d) : d.Moved A m later := by
  obtain ⟨hbad, hgood⟩ := receive_awaits hsent hc
  by_cases hchokes : c.Chokes piece
  · obtain ⟨e, he⟩ := hbad hchokes
    rw [he] at hd
    cases hd
  · obtain ⟨d', hd', hm⟩ := hgood hchokes
    rw [hd'] at hd
    exact Except.ok.inj hd ▸ hm

-- the writes of the peer complete the delivery
lemma landed_refines (h : s.Refines A (t.landed f))
    (hnext : ∀ u v, (G.buf_read_cb f t).carried u v ≤ 1) :
    ((t.calls f).foldl (Streams.broadcast_ping A G f.dst) s).Refines A (G.buf_read_cb f t) := by
  cases hr : t.G_RECEIVED f.dst with
  | true =>
    have hsame : G.buf_read_cb f t = t.landed f := by
      simp [Peers.buf_read_cb, Flood.landed, hr]
    rw [hsame, Flood.calls, if_pos hr]
    exact h
  | false =>
    have hsame : G.buf_read_cb f t = { t.landed f with
        in_flight := (t.landed f).in_flight +
          G.broadcast_ping f.dst f.msg.start_us (f.msg.hop + 1) } := by
      simp [Peers.buf_read_cb, Flood.landed, hr]
    rw [hsame, Flood.calls, if_neg (by simp [hr])]
    apply h.broadcast
    intro g hg x hx
    apply edges_apart _ hx hg
    intro u v
    have hcount := hnext u v
    rw [hsame, Flood.carried] at hcount
    rw [add_right_comm]
    exact hcount

/-- A piece that a peer takes in is no step of the flood, or it is a delivery. -/
theorem arrive_refines (h : s.Refines A t) (hle : ∀ u v, t.carried u v ≤ 1)
    (hf : f ∈ t.in_flight) (hnext : ∀ u v, (G.buf_read_cb f t).carried u v ≤ 1)
    (hsent : Sent (A.save f.msg)) (hcut : s.in_transit f.edge = piece ++ later)
    (hs' : s.arrive A G f.edge piece later = .ok s') :
    (s'.in_transit f.edge = later ∧ (s'.client f.edge).sent = [] ∧ s'.Refines A t) ∨
      ((s'.client f.edge).sent = t.calls f ∧ s'.Refines A (G.buf_read_cb f t)) := by
  obtain ⟨d, hd, rfl⟩ := arrive_ok.mp hs'
  have hawaits := at_client_awaits h hf
  rw [hcut] at hawaits
  have hmoved := receive_moved hsent hawaits hd
  obtain ⟨log, hlog, hflag, hcalls⟩ := receive_since ⟨[], since_refl _⟩ hd
  rw [hawaits.log, List.nil_append] at hlog
  have hview : (s.at_client f.edge).G_RECEIVED = t.G_RECEIVED f.dst := by
    rw [← h.flag]
    rfl
  have hnosent : (s.at_client f.edge).sent = [] := rfl
  rw [hview] at hflag hcalls
  rw [hnosent, List.nil_append] at hcalls
  rw [arrived_client]
  cases hmoved with
  | inr hwait =>
    rw [hwait.log] at hlog
    subst hlog
    have hempty : d.sent = [] := by simpa [relayed] using hcalls
    rw [hempty]
    refine Or.inl ⟨(moved_self s f.edge later d).1, rfl, moved_waiting h hle hf hwait ?_⟩
    rw [hflag, h.flag]
    simp
  | inl hland =>
    obtain ⟨rfl, hat⟩ := hland
    rw [hat.log] at hlog
    subst hlog
    have hrelayed : d.sent = t.calls f := by
      rw [hcalls, Flood.calls]
      cases t.G_RECEIVED f.dst with
      | true => rfl
      | false => rfl
    rw [hrelayed]
    exact Or.inr ⟨rfl, landed_refines (moved_landed h hle hf hat (by simpa using hflag)) hnext⟩

section Runs

variable [Fintype V] {fs : List (Frame V)}

/-- Every ping that the flood may send is the body of a frame. -/
def Peers.Sendable (A : Archive PingMsg) (G : Peers V) (start_us : Int64) : Prop :=
  ∀ (u : V) (hop : ℕ), 0 < hop → hop ≤ Fintype.card V →
    Sent (A.save (PingMsg.new start_us hop (G.msg_size_ u)))

lemma flight_sent (hsent : G.Sendable A start_us)
    (h : (G.init_ping peer0 start_us).Delivers G fs t) (hf : f ∈ t.in_flight) :
    Sent (A.save f.msg) := by
  obtain ⟨path, hpath, hmem⟩ := (delivers_hops h).sent (Or.inl hf)
  rw [(mem_broadcast.mp hmem).2.2]
  exact hsent f.src path.length hpath.length_pos hpath.simple.length_le_card

omit [Fintype V] in
lemma delivers_carried (h : (G.init_ping peer0 start_us).Delivers G fs t) :
    ∀ u v, t.carried u v ≤ 1 := by
  intro u v
  have hle := (delivers_sound h).carried_le u v
  rw [Lib.Flooding.State.carried] at hle
  rw [Flood.carried, Multiset.map_add]
  exact hle

omit [Fintype V] in
lemma init_refines (A : Archive PingMsg) (G : Peers V) (peer0 : V) (start_us : Int64) :
    (Streams.init_ping A G peer0 start_us).Refines A (G.init_ping peer0 start_us) := by
  let blank : Flood V := ⟨Function.update (fun _ => false) peer0 true, 0, 0⟩
  have hsame : G.init_ping peer0 start_us =
      { blank with in_flight := blank.in_flight + G.broadcast_ping peer0 start_us 1 } := by
    simp [Peers.init_ping, blank]
  rw [hsame, Streams.init_ping]
  apply Streams.Refines.broadcast
  · refine ⟨rfl, fun _ => ⟨rfl, fresh_at false⟩, ?_, ?_⟩
    · intro f hf
      simp [blank] at hf
    · intro f hf
      simp [blank] at hf
  · intro f _ g hg
    simp [blank] at hg

/-- One piece of a stream, in a state that refines one of the flood. -/
theorem step_refines (hsent : G.Sendable A start_us)
    (ht : (G.init_ping peer0 start_us).Delivers G fs t) (h : s.Refines A t)
    (hf : f ∈ t.in_flight) (hcut : s.in_transit f.edge = piece ++ later)
    (hs' : s.arrive A G f.edge piece later = .ok s') :
    (s'.in_transit f.edge = later ∧ (s'.client f.edge).sent = [] ∧ s'.Refines A t) ∨
      ((s'.client f.edge).sent = t.calls f ∧ s'.Refines A (G.buf_read_cb f t)) :=
  arrive_refines h (delivers_carried ht) hf (delivers_carried (ht.step hf))
    (flight_sent hsent ht hf) hcut hs'

theorem streams_refine (hsent : G.Sendable A start_us)
    (h : ReflTransGen (Streams.Step A G) (Streams.init_ping A G peer0 start_us) s) :
    ∃ fs t, (G.init_ping peer0 start_us).Delivers G fs t ∧ s.Refines A t := by
  induction h with
  | refl => exact ⟨[], _, .refl, init_refines A G peer0 start_us⟩
  | tail _ hst ih =>
    obtain ⟨fs, t, ht, hs⟩ := ih
    cases hst with
    | @arrive p piece later u hcut hpiece hs' =>
      obtain ⟨f, hf, rfl⟩ := in_transit_frame hs (p := p) (by simp [hcut, hpiece])
      rcases step_refines hsent ht hs hf hcut hs' with ⟨-, -, hnext⟩ | ⟨-, hnext⟩
      · exact ⟨fs, t, ht, hnext⟩
      · exact ⟨fs ++ [f], _, ht.step hf, hnext⟩

omit [Fintype V] [DecidableEq V] in
lemma Streams.Refines.empty_iff (h : s.Refines A t) :
    s.in_transit p = [] ↔ ∀ f ∈ t.in_flight, f.edge ≠ p := by
  constructor
  · rintro hnil f hf rfl
    exact (h.flying hf).ne_nil hnil
  · intro hnone
    by_contra hne
    obtain ⟨f, hf, hedge⟩ := in_transit_frame h hne
    exact hnone f hf hedge

omit [Fintype V] [DecidableEq V] in
lemma Streams.Refines.quiet_iff (h : s.Refines A t) :
    (∀ p, s.in_transit p = []) ↔ t.in_flight = 0 := by
  rw [Multiset.eq_zero_iff_forall_notMem]
  constructor
  · intro hnil f hf
    exact (h.flying hf).ne_nil (hnil f.edge)
  · intro hnone p
    exact (h.empty_iff).mpr fun f hf => (hnone f hf).elim

end Runs

end Xcoin
