import Xcoin.Ping.Counting

/-! The flood on links of one delay: what was sent first arrives first, and the hop of a first
ping is the distance from the initiator. -/

namespace Xcoin

open Relation Lib

variable {V : Type} [DecidableEq V] (G : Peers V)

/-- Deliveries in the order of sending, for frames that `broadcast_ping` may queue in any
order. -/
inductive Peers.InOrder (peer0 : V) (start_us : Int64) :
    List (Frame V) → List (Frame V) → Flood V → Prop
  | init {queue : List (Frame V)} :
      (queue : Multiset (Frame V)) = G.broadcast_ping peer0 start_us 1 →
      InOrder peer0 start_us [] queue (G.init_ping peer0 start_us)
  | deliver {fs queue new : List (Frame V)} {f : Frame V} {s : Flood V} :
      InOrder peer0 start_us fs (f :: queue) s →
      (new : Multiset (Frame V)) = (if s.G_RECEIVED f.dst then 0
        else G.broadcast_ping f.dst f.msg.start_us (f.msg.hop + 1)) →
      InOrder peer0 start_us (fs ++ [f]) (queue ++ new) (G.buf_read_cb f s)

variable {G} {peer0 u v : V} {start_us : Int64} {fs queue pre : List (Frame V)} {f : Frame V}
  {s : Flood V} {path : List V} {n : ℕ}

section Distance

omit [DecidableEq V]

lemma distance_self : G.distance v v = 0 :=
  Nat.le_zero.mp (Nat.sInf_le ⟨[v], rfl, rfl, List.isChain_singleton _, rfl⟩)

lemma distance_path (h : path.head? = some u) (hv : path.getLast? = some v)
    (hchain : path.IsChain G.Edge) : ∃ path : List V, path.head? = some u ∧
      path.getLast? = some v ∧ path.IsChain G.Edge ∧ path.length = G.distance u v + 1 := by
  have hne : {n | ∃ path : List V, path.head? = some u ∧ path.getLast? = some v ∧
      path.IsChain G.Edge ∧ path.length = n + 1}.Nonempty := by
    cases path with
    | nil => simp at h
    | cons x path => exact ⟨path.length, x :: path, h, hv, hchain, rfl⟩
  exact Nat.sInf_mem hne

lemma distance_at {i : ℕ} (h : path.head? = some u) (hchain : path.IsChain G.Edge)
    (hi : path[i]? = some v) : G.distance u v ≤ i := by
  obtain ⟨hlt, -⟩ := List.getElem?_eq_some_iff.mp hi
  refine Nat.sInf_le ⟨path.take (i + 1), ?_, ?_, hchain.take _, ?_⟩
  · rw [List.head?_take, if_neg (Nat.succ_ne_zero i), h]
  · rw [List.getLast?_take, if_neg (Nat.succ_ne_zero i), Nat.add_sub_cancel, hi]
    rfl
  · rw [List.length_take]
    omega

/-- A path that begins inside a set and ends outside of it leaves the set somewhere. -/
lemma path_leaves {P : V → Prop} (h : path.head? = some u) (hv : path.getLast? = some v)
    (hchain : path.IsChain G.Edge) (hu : P u) (hout : ¬ P v) :
    ∃ i x y, i + 1 < path.length ∧ path[i]? = some x ∧ G.Edge x y ∧ P x ∧ ¬ P y := by
  induction path generalizing u with
  | nil => simp at h
  | cons x path ih =>
    obtain rfl : x = u := Option.some.inj h
    cases path with
    | nil =>
      obtain rfl : x = v := Option.some.inj hv
      exact (hout hu).elim
    | cons y path =>
      obtain ⟨hedge, hchain⟩ := List.isChain_cons_cons.mp hchain
      by_cases hy : P y
      · obtain ⟨i, a, b, hi, ha, hab⟩ := ih rfl (by simpa using hv) hchain hy
        exact ⟨i + 1, a, b, Nat.succ_lt_succ hi, ha, hab⟩
      · exact ⟨0, x, y, by simp, rfl, hedge, hu, hy⟩

end Distance

/-- No frame is behind one that has come further, and all are within one hop. -/
structure Peers.Ordered (G : Peers V) (peer0 : V) (fs queue : List (Frame V)) (s : Flood V) :
    Prop where
  flight : (queue : Multiset (Frame V)) = s.in_flight
  sorted : queue.Pairwise fun f g => f.msg.hop ≤ g.msg.hop
  near : ∀ f ∈ queue, ∀ g ∈ queue, g.msg.hop ≤ f.msg.hop + 1
  sent : ∀ f ∈ queue, f.msg.hop = G.distance peer0 f.src + 1
  first : ∀ {pre : List (Frame V)} {f : Frame V}, FirstReceipt fs pre f → f.dst ≠ peer0 →
    f.msg.hop = G.distance peer0 f.dst

lemma in_order_delivers (h : G.InOrder peer0 start_us fs queue s) :
    (queue : Multiset (Frame V)) = s.in_flight ∧
      (G.init_ping peer0 start_us).Delivers G fs s := by
  induction h with
  | init hq => exact ⟨hq, .refl⟩
  | @deliver fs queue new f s _ hnew ih =>
    obtain ⟨hflight, hrun⟩ := ih
    have hf : f ∈ s.in_flight := by simp [← hflight]
    refine ⟨?_, hrun.step hf⟩
    rw [← Multiset.coe_add, hnew, Peers.buf_read_cb, ← hflight]
    simp

/-- The front of the queue, at a peer it is the first to reach, has come by a shortest path. -/
lemma front_distance (h : G.Ordered peer0 fs (f :: queue) s)
    (hrun : (G.init_ping peer0 start_us).Delivers G fs s) (hnew : s.G_RECEIVED f.dst = false) :
    f.msg.hop = G.distance peer0 f.dst := by
  have hhops := delivers_hops hrun
  have hf : f ∈ s.in_flight := by simp [← h.flight]
  obtain ⟨path, hpath, hsent⟩ := hhops.sent (Or.inl hf)
  have hhop := h.sent f List.mem_cons_self
  obtain ⟨hsrc, hedge, -⟩ := mem_broadcast.mp hsent
  have hwalk : (path ++ [f.dst]).IsChain G.Edge := by
    apply hpath.edges.append (List.isChain_singleton _)
    intro a ha b hb
    obtain rfl : f.src = a := by simpa [hpath.last] using ha
    obtain rfl : f.dst = b := by simpa using hb
    exact hedge
  obtain ⟨short, hhead, hlast, hchain, hlen⟩ := distance_path (u := peer0) (v := f.dst)
    (by rw [List.head?_append, hpath.head]; rfl) (by simp) hwalk
  have hroot : s.G_RECEIVED peer0 = true := hhops.received.mpr (Or.inl rfl)
  obtain ⟨i, x, y, hi, hx, hxy, hxin, hyout⟩ := path_leaves (P := fun w => s.G_RECEIVED w = true)
    hhead hlast hchain hroot (by simp [hnew])
  -- the frame over that edge is in flight, and it has not come further than the front
  obtain ⟨g, hg, hgedge⟩ := (received_passed hrun hxin hxy).resolve_right hyout
  have hgsrc : g.src = x := congrArg Prod.fst hgedge
  rw [← h.flight, Multiset.mem_coe] at hg
  have hgle : f.msg.hop ≤ g.msg.hop := by
    cases List.mem_cons.mp hg with
    | inl hg => rw [hg]
    | inr hg => exact (List.pairwise_cons.mp h.sorted).1 g hg
  have hghop := h.sent g hg
  have hxle := distance_at hhead hchain hx
  have hge : (G.distance peer0 f.dst : ℤ) ≤ f.msg.hop := by
    have hpos := distance_at (i := path.length) (v := f.dst)
      (by rw [List.head?_append, hpath.head]; rfl) hwalk (by simp)
    rw [(broadcast_msg hsent).2]
    exact_mod_cast hpos
  rw [hgsrc] at hghop
  omega

lemma init_ordered {queue : List (Frame V)}
    (hq : (queue : Multiset (Frame V)) = G.broadcast_ping peer0 start_us 1) :
    G.Ordered peer0 [] queue (G.init_ping peer0 start_us) := by
  have hmem : ∀ f ∈ queue, f ∈ G.broadcast_ping peer0 start_us 1 := by
    intro f hf
    rw [← hq]
    exact hf
  constructor
  · exact hq
  · apply List.pairwise_of_forall_mem_list
    intro f hf g hg
    rw [(broadcast_msg (hmem f hf)).2, (broadcast_msg (hmem g hg)).2]
  · intro f hf g hg
    rw [(broadcast_msg (hmem f hf)).2, (broadcast_msg (hmem g hg)).2]
    omega
  · intro f hf
    rw [(broadcast_msg (hmem f hf)).2, (mem_broadcast.mp (hmem f hf)).1, distance_self]
    rfl
  · intro pre f hf
    simpa using hf.mem

omit [DecidableEq V] in
-- what is sent on joins the end of a queue whose hops are those of the front and one more
lemma queue_append {queue new : List (Frame V)} {hop : ℤ}
    (hsorted : queue.Pairwise fun f g => f.msg.hop ≤ g.msg.hop)
    (hnear : ∀ g ∈ queue, hop ≤ g.msg.hop ∧ g.msg.hop ≤ hop + 1)
    (hnew : ∀ g ∈ new, g.msg.hop = hop + 1) :
    ((queue ++ new).Pairwise fun f g => f.msg.hop ≤ g.msg.hop) ∧
      ∀ f ∈ queue ++ new, ∀ g ∈ queue ++ new, g.msg.hop ≤ f.msg.hop + 1 := by
  have hall : ∀ g ∈ queue ++ new, hop ≤ g.msg.hop ∧ g.msg.hop ≤ hop + 1 := by
    intro g hg
    cases List.mem_append.mp hg with
    | inl hg => exact hnear g hg
    | inr hg =>
      have hhop := hnew g hg
      omega
  constructor
  · rw [List.pairwise_append]
    refine ⟨hsorted, ?_, ?_⟩
    · apply List.pairwise_of_forall_mem_list
      intro a ha b hb
      rw [hnew a ha, hnew b hb]
    · intro a ha b hb
      rw [hnew b hb]
      exact (hnear a ha).2
  · intro f hf g hg
    have hlow := (hall f hf).1
    have hhigh := (hall g hg).2
    omega

lemma deliver_ordered {new : List (Frame V)} (h : G.Ordered peer0 fs (f :: queue) s)
    (hprev : G.InOrder peer0 start_us fs (f :: queue) s)
    (hnew : (new : Multiset (Frame V)) =
      if s.G_RECEIVED f.dst then 0 else G.broadcast_ping f.dst f.msg.start_us (f.msg.hop + 1)) :
    G.Ordered peer0 (fs ++ [f]) (queue ++ new) (G.buf_read_cb f s) := by
  have hrun := (in_order_delivers hprev).2
  have hmem : ∀ g ∈ new, s.G_RECEIVED f.dst = false ∧
      g ∈ G.broadcast_ping f.dst f.msg.start_us (f.msg.hop + 1) := by
    intro g hg
    rw [← Multiset.mem_coe, hnew] at hg
    cases hr : s.G_RECEIVED f.dst with
    | true => simp [hr] at hg
    | false =>
      rw [hr] at hg
      exact ⟨rfl, hg⟩
  have hhop : ∀ g ∈ new, g.msg.hop = f.msg.hop + 1 := fun g hg => (broadcast_msg (hmem g hg).2).2
  obtain ⟨hfront, hsorted⟩ := List.pairwise_cons.mp h.sorted
  have hnear : ∀ g ∈ queue, f.msg.hop ≤ g.msg.hop ∧ g.msg.hop ≤ f.msg.hop + 1 :=
    fun g hg => ⟨hfront g hg, h.near f List.mem_cons_self g (List.mem_cons_of_mem f hg)⟩
  obtain ⟨hpairs, hwithin⟩ := queue_append hsorted hnear hhop
  refine ⟨(in_order_delivers (hprev.deliver hnew)).1, hpairs, hwithin, ?_, ?_⟩
  · intro g hg
    cases List.mem_append.mp hg with
    | inl hg => exact h.sent g (List.mem_cons_of_mem f hg)
    | inr hg =>
      obtain ⟨hreceived, hsent⟩ := hmem g hg
      rw [hhop g hg, (mem_broadcast.mp hsent).1, front_distance h hrun hreceived]
  · intro pre g hg hv
    rcases first_receipt_snoc hg with hg | ⟨rfl, rfl⟩
    · exact h.first hg hv
    · apply front_distance h hrun
      rw [← Bool.not_eq_true, (delivers_hops hrun).received]
      rintro (hp | ⟨x, hx, hd⟩)
      · exact hv hp
      · exact hg.2 x hx hd

theorem in_order_ordered (h : G.InOrder peer0 start_us fs queue s) :
    G.Ordered peer0 fs queue s := by
  induction h with
  | init hq => exact init_ordered hq
  | deliver hprev hnew ih => exact deliver_ordered ih hprev hnew

omit [DecidableEq V] in
lemma first_receipt_exists (h : ∃ f ∈ fs, f.dst = v) :
    ∃ pre f, FirstReceipt fs pre f ∧ f.dst = v := by
  induction fs using List.reverseRecOn with
  | nil => simp at h
  | append_singleton fs x ih =>
    by_cases hold : ∃ f ∈ fs, f.dst = v
    · obtain ⟨pre, f, hf, hv⟩ := ih hold
      exact ⟨pre, f, hf.mono x, hv⟩
    · obtain ⟨f, hf, hv⟩ := h
      obtain rfl : f = x := by
        cases List.mem_append.mp hf with
        | inl hf => exact (hold ⟨f, hf, hv⟩).elim
        | inr hf => exact List.mem_singleton.mp hf
      refine ⟨fs, f, ⟨⟨[], rfl⟩, ?_⟩, hv⟩
      intro g hg hd
      exact hold ⟨g, hg, hd.trans hv⟩

lemma distance_le_hop (h : (G.init_ping peer0 start_us).Delivers G fs s)
    (hf : FirstReceipt fs pre f) (hv : f.dst ≠ peer0) :
    (G.distance peer0 f.dst : ℤ) ≤ f.msg.hop := by
  obtain ⟨path, hpath, hlen⟩ := (delivers_hops h).first hf hv
  have hle := hpath.distance_le
  omega

/-- When frames arrive in the order of sending, every peer that `peer0` reaches learns of the
ping over a shortest path: its first hop is its distance, the least that any order gives. -/
theorem in_order_hops (G : Peers V) (peer0 : V) (start_us : Int64) (fs queue : List (Frame V))
    (s : Flood V) (h : G.InOrder peer0 start_us fs queue s) :
    (∀ pre f, FirstReceipt fs pre f → f.dst ≠ peer0 → f.msg.hop = G.distance peer0 f.dst ∧
      ∀ fs' s' pre' f', (G.init_ping peer0 start_us).Delivers G fs' s' →
        FirstReceipt fs' pre' f' → f'.dst = f.dst → f.msg.hop ≤ f'.msg.hop) ∧
    (queue = [] → ∀ v, v ≠ peer0 → ReflTransGen G.Edge peer0 v →
      ∃ pre f, FirstReceipt fs pre f ∧ f.dst = v ∧ f.msg.hop = G.distance peer0 v) := by
  obtain ⟨hflight, hrun⟩ := in_order_delivers h
  have hs := in_order_ordered h
  constructor
  · intro pre f hf hv
    refine ⟨hs.first hf hv, ?_⟩
    intro fs' s' pre' f' hrun' hf' hd
    rw [hs.first hf hv, ← hd]
    exact distance_le_hop hrun' hf' (hd ▸ hv)
  · intro hq v hv hreach
    have hquiet : s.in_flight = 0 := by
      rw [← hflight, hq]
      rfl
    have hreceived := (quiet_received hrun hquiet v).mpr hreach
    obtain ⟨pre, f, hf, rfl⟩ := first_receipt_exists
      (((delivers_hops hrun).received.mp hreceived).resolve_left hv)
    exact ⟨pre, f, hf, rfl, hs.first hf hv⟩

def roundFrame (u v : Fin 3) (hop : ℤ) : Frame (Fin 3) := ⟨u, v, PingMsg.new 7 hop 0⟩

theorem in_order_hops_sample : ∃ fs s pre f, sampleFlood.InOrder 2 7 fs [] s ∧
    FirstReceipt fs pre f ∧ f.dst = 1 ∧ f.msg.hop = sampleFlood.distance 2 1 := by
  have hstart : sampleFlood.InOrder 2 7 [] [roundFrame 2 0 1, roundFrame 2 1 1] _ :=
    .init (by decide)
  have hone : sampleFlood.InOrder 2 7 [roundFrame 2 0 1] [roundFrame 2 1 1, roundFrame 0 1 2] _ :=
    hstart.deliver (by decide)
  have htwo : sampleFlood.InOrder 2 7 _ [roundFrame 0 1 2, roundFrame 1 0 2] _ :=
    hone.deliver (by decide)
  have hthree : sampleFlood.InOrder 2 7 _ [roundFrame 1 0 2] _ := htwo.deliver (by decide)
  have hfour : sampleFlood.InOrder 2 7 _ [] _ := hthree.deliver (by decide)
  have hedge : sampleFlood.Edge 2 1 := show 1 ∈ sampleFlood.out_clients_ 2 by decide
  obtain ⟨pre, f, hf, hd, hhop⟩ :=
    (in_order_hops sampleFlood 2 7 _ _ _ hfour).2 rfl 1 (by decide) (.single hedge)
  exact ⟨_, _, pre, f, hfour, hf, hd, hhop⟩

end Xcoin
