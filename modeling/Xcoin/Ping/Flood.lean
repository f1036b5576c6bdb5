import Xcoin.Lib.Flooding

/-! The ping flood: `init_ping` at one peer, and the receive branch of `buf_read_cb` for the
frames it causes, each delivered once and in any order. -/

namespace Xcoin

open Relation Lib

structure PingMsg where
  start_us : Int64
  hop : ℤ
  data_size : ℕ
  data : String
  deriving DecidableEq

def PingMsg.new (start : Int64) (hop : ℤ) (msg_size : ℕ) : PingMsg where
  start_us := start
  hop := hop
  data_size := msg_size <<< 10
  data := String.ofList (List.replicate (msg_size <<< 10) 'x')

structure Frame (V : Type) where
  src : V
  dst : V
  msg : PingMsg
  deriving DecidableEq

structure Peers (V : Type) where
  out_clients_ : V → Finset V
  msg_size_ : V → ℕ

structure Flood (V : Type) where
  G_RECEIVED : V → Bool
  in_flight : Multiset (Frame V)
  -- ghost: the frames handled so far
  delivered : Multiset (Frame V)

variable {V : Type} [DecidableEq V] (G : Peers V)

def Peers.broadcast_ping (u : V) (start : Int64) (hop : ℤ) : Multiset (Frame V) :=
  (G.out_clients_ u).val.map fun v => ⟨u, v, PingMsg.new start hop (G.msg_size_ u)⟩

def Peers.init_ping (peer0 : V) (start_us : Int64) : Flood V where
  G_RECEIVED := Function.update (fun _ => false) peer0 true
  in_flight := G.broadcast_ping peer0 start_us 1
  delivered := 0

def Peers.buf_read_cb (f : Frame V) (s : Flood V) : Flood V where
  G_RECEIVED := Function.update s.G_RECEIVED f.dst true
  in_flight := s.in_flight.erase f +
    if s.G_RECEIVED f.dst then 0 else G.broadcast_ping f.dst f.msg.start_us (f.msg.hop + 1)
  delivered := f ::ₘ s.delivered

inductive Flood.Step (s : Flood V) : Flood V → Prop
  | deliver {f : Frame V} : f ∈ s.in_flight → Step s (G.buf_read_cb f s)

def Frame.edge (f : Frame V) : V × V := (f.src, f.dst)

def Flood.carried (s : Flood V) (u v : V) : ℕ :=
  ((s.in_flight + s.delivered).map Frame.edge).count (u, v)

def Peers.Edge (u v : V) : Prop := v ∈ G.out_clients_ u

def Flood.plain (s : Flood V) : Flooding.State V where
  informed := {v | s.G_RECEIVED v = true}
  in_flight := s.in_flight.map Frame.edge
  handled := s.delivered.map Frame.edge

variable {G} {s t : Flood V} {peer0 : V} {start_us : Int64}

omit [DecidableEq V] in
lemma broadcast_edges (u : V) (start : Int64) (hop : ℤ) :
    (G.broadcast_ping u start hop).map Frame.edge = Flooding.fanout G.out_clients_ u := by
  rw [Peers.broadcast_ping, Multiset.map_map]
  rfl

lemma init_plain (start_us : Int64) :
    (G.init_ping peer0 start_us).plain = Flooding.start G.out_clients_ peer0 := by
  simp only [Flood.plain, Peers.init_ping, Flooding.start, Flooding.State.mk.injEq]
  refine ⟨?_, broadcast_edges _ _ _, rfl⟩
  ext v
  simp [Function.update_apply]

lemma received_insert (f : Frame V) :
    {v | (G.buf_read_cb f s).G_RECEIVED v = true} =
      insert f.edge.2 {v | s.G_RECEIVED v = true} := by
  ext v
  by_cases hv : v = f.dst <;> simp [Peers.buf_read_cb, Frame.edge, hv]

theorem deliver_refines {f : Frame V} (hf : f ∈ s.in_flight) :
    Flooding.Step G.out_clients_ s.plain (G.buf_read_cb f s).plain := by
  have hmem : f.edge ∈ s.plain.in_flight := Multiset.mem_map_of_mem _ hf
  have herase : (s.in_flight.erase f).map Frame.edge = s.plain.in_flight.erase f.edge :=
    Multiset.map_erase_of_mem _ _ hf
  cases hr : s.G_RECEIVED f.dst with
  | false =>
    have hnew : f.edge.2 ∉ s.plain.informed := by simp [Flood.plain, Frame.edge, hr]
    have hstep : Flooding.Step G.out_clients_ s.plain _ := .first hmem hnew
    convert hstep using 1
    simp only [Flood.plain, received_insert, Flooding.State.mk.injEq]
    refine ⟨trivial, ?_, ?_⟩
    · simp only [Peers.buf_read_cb, hr, Bool.false_eq_true, if_false, Multiset.map_add, herase,
        broadcast_edges]
      rfl
    · simp only [Peers.buf_read_cb, Multiset.map_cons]
  | true =>
    have hold : f.edge.2 ∈ s.plain.informed := hr
    have hstep : Flooding.Step G.out_clients_ s.plain _ := .again hmem hold
    convert hstep using 1
    simp only [Flood.plain, received_insert, Flooding.State.mk.injEq]
    refine ⟨Set.insert_eq_of_mem hold, ?_, ?_⟩
    · simp only [Peers.buf_read_cb, hr, if_true, add_zero, herase]
      rfl
    · simp only [Peers.buf_read_cb, Multiset.map_cons]

theorem flood_refines (h : ReflTransGen (Flood.Step G) (G.init_ping peer0 start_us) s) :
    ReflTransGen (Flooding.Step G.out_clients_) (Flooding.start G.out_clients_ peer0) s.plain := by
  rw [← init_plain start_us]
  refine h.lift Flood.plain ?_
  rintro x y ⟨hf⟩
  exact deliver_refines hf

/-- After any deliveries, every edge has carried at most one frame, a peer that has received
the ping has passed it on, and when nothing is in flight the peers reached from `peer0` are
those that have received it. -/
theorem ping_flood_covers (G : Peers V) (peer0 : V) (start_us : Int64) (s : Flood V)
    (h : ReflTransGen (Flood.Step G) (G.init_ping peer0 start_us) s) :
    (∀ u v, s.carried u v ≤ 1) ∧
    (∀ u, s.G_RECEIVED u = true → ∀ v ∈ G.out_clients_ u,
      (∃ f ∈ s.in_flight, f.src = u ∧ f.dst = v) ∨ s.G_RECEIVED v = true) ∧
    (s.in_flight = 0 → ∀ v, s.G_RECEIVED v = true ↔ ReflTransGen G.Edge peer0 v) ∧
    (s.in_flight = 0 → (∀ u v, ReflTransGen G.Edge u v) → ∀ v, s.G_RECEIVED v = true) := by
  have hs := Flooding.run_sound (flood_refines h)
  have hquiet : s.in_flight = 0 → ∀ v, s.G_RECEIVED v = true ↔ ReflTransGen G.Edge peer0 v := by
    intro hq v
    apply hs.quiescent
    rw [Flood.plain, hq]
    rfl
  refine ⟨?_, ?_, hquiet, ?_⟩
  · intro u v
    have hle := hs.carried_le u v
    rw [Flooding.State.carried] at hle
    rw [Flood.carried, Multiset.map_add]
    exact hle
  · intro u hu v hv
    cases hs.pending hu hv with
    | inl hf =>
      obtain ⟨f, hf, hedge⟩ := Multiset.mem_map.mp hf
      exact Or.inl ⟨f, hf, congrArg Prod.fst hedge, congrArg Prod.snd hedge⟩
    | inr hr => exact Or.inr hr
  · intro hq hconn v
    exact (hquiet hq v).mpr (hconn peer0 v)

def sampleFlood : Peers (Fin 3) where
  out_clients_ := ![{1}, {0}, {0, 1}]
  msg_size_ := fun _ => 0

theorem ping_flood_covers_sample :
    ∃ s, ReflTransGen (Flood.Step sampleFlood) (sampleFlood.init_ping 0 7) s ∧ s.in_flight = 0 ∧
      ∀ v, s.G_RECEIVED v = true ↔ ReflTransGen sampleFlood.Edge 0 v := by
  let first : Frame (Fin 3) := ⟨0, 1, PingMsg.new 7 1 0⟩
  let second : Frame (Fin 3) := ⟨1, 0, PingMsg.new 7 2 0⟩
  let last := sampleFlood.buf_read_cb second
    (sampleFlood.buf_read_cb first (sampleFlood.init_ping 0 7))
  have hrun : ReflTransGen (Flood.Step sampleFlood) (sampleFlood.init_ping 0 7) last :=
    .tail (.tail .refl (.deliver (by decide))) (.deliver (by decide))
  refine ⟨_, hrun, by decide, ?_⟩
  exact (ping_flood_covers sampleFlood 0 7 _ hrun).2.2.1 (by decide)

end Xcoin
