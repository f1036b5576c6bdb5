import Xcoin.Lib.Choices

/-! `generate_graph`: the peers of every node are drawn without replacement from the others. -/

namespace Xcoin

open Lib.Choices Lib.Choices.Chance

inductive TopologyFault
  | empty_choice
  | still_running
  deriving DecidableEq

structure EdgeLists where
  edges : List ℕ
  rows : List ℕ
  cols : List ℕ
  deriving DecidableEq

structure CsrMatrix extends EdgeLists where
  shape : ℕ × ℕ
  deriving DecidableEq

def EdgeLists.pairs (m : EdgeLists) : List (ℕ × ℕ) := m.rows.zip m.cols

-- entries recorded twice are summed
def CsrMatrix.entry (m : CsrMatrix) (i j : ℕ) : ℕ :=
  (((m.pairs.zip m.edges).filter fun t => t.1 = (i, j)).map Prod.snd).sum

def EdgeLists.append (m : EdgeLists) (node to_peer : ℕ) : EdgeLists where
  edges := m.edges ++ [1]
  rows := m.rows ++ [node]
  cols := m.cols ++ [to_peer]

def draw_peer (node : ℕ) (s : EdgeLists × List ℕ) :
    Chance TopologyFault (EdgeLists × List ℕ) := do
  let to_peer ← choice .empty_choice s.2
  pure (s.1.append node to_peer, s.2.erase to_peer)

def draw_peers (node_num out_peer_cnt : ℕ) (m : EdgeLists) (node : ℕ) :
    Chance TopologyFault EdgeLists := do
  let node_set := (List.range node_num).erase node
  let s ← (List.range out_peer_cnt).foldlM (fun s _ => draw_peer node s) (m, node_set)
  pure s.1

def generate_graph (node_num peer_num : ℕ) : Chance TopologyFault CsrMatrix := do
  let out_peer_cnt := peer_num
  let m ← (List.range node_num).foldlM (draw_peers node_num out_peer_cnt) ⟨[], [], []⟩
  pure { m with shape := (node_num, node_num) }

def EdgeLists.extend (m : EdgeLists) (node : ℕ) (peers : List ℕ) : EdgeLists where
  edges := m.edges ++ List.replicate peers.length 1
  rows := m.rows ++ List.replicate peers.length node
  cols := m.cols ++ peers

def EdgeLists.recorded (peers : ℕ → List ℕ) : List ℕ → EdgeLists
  | [] => ⟨[], [], []⟩
  | v :: vs =>
    let m := recorded peers vs
    { edges := List.replicate (peers v).length 1 ++ m.edges
      rows := List.replicate (peers v).length v ++ m.rows
      cols := peers v ++ m.cols }

structure OutPeers (node_num peer_num node : ℕ) (ps : List ℕ) : Prop where
  count : ps.length = peer_num
  distinct : ps.Nodup
  others : ∀ p ∈ ps, p < node_num ∧ p ≠ node

variable {node_num peer_num node : ℕ} {m : EdgeLists} {peers : ℕ → List ℕ} {vs ps : List ℕ}

lemma append_extend (p : ℕ) : (m.extend node ps).append node p = m.extend node (ps ++ [p]) := by
  simp [EdgeLists.extend, EdgeLists.append, List.replicate_succ']

lemma extend_nil : m.extend node [] = m := by
  simp [EdgeLists.extend]

lemma recorded_snoc (v : ℕ) :
    EdgeLists.recorded peers (vs ++ [v]) = (EdgeLists.recorded peers vs).extend v (peers v) := by
  induction vs with
  | nil => simp [EdgeLists.recorded, EdgeLists.extend]
  | cons w vs ih => simp [EdgeLists.recorded, ih, EdgeLists.extend]

lemma recorded_congr {peers' : ℕ → List ℕ} (h : ∀ v ∈ vs, peers v = peers' v) :
    EdgeLists.recorded peers vs = EdgeLists.recorded peers' vs := by
  induction vs with
  | nil => rfl
  | cons w vs ih =>
    have hw := h w (by simp)
    have hvs := ih fun v hv => h v (by simp [hv])
    simp only [EdgeLists.recorded, hw, hvs]

-- `k` peers of `node` have been drawn and recorded, and `s.2` is left to draw from
def Drawn (node_num node : ℕ) (m : EdgeLists) (k : ℕ) (s : EdgeLists × List ℕ) : Prop :=
  ∃ ps, ps.length = k ∧ (ps ++ s.2).Perm ((List.range node_num).erase node) ∧
    s.1 = m.extend node ps

lemma draw_peer_always {k : ℕ} {s : EdgeLists × List ℕ} (hnode : node < node_num)
    (hk : k + 1 < node_num) (h : Drawn node_num node m k s) :
    Always (draw_peer node s) (Drawn node_num node m (k + 1)) := by
  obtain ⟨ps, hlen, hperm, hs⟩ := h
  have hleft : ps.length + s.2.length = node_num - 1 := by
    rw [← List.length_append, hperm.length_eq]
    simp [hnode]
  rw [draw_peer, always_bind, always_choice]
  constructor
  · intro hnil
    simp only [hnil, List.length_nil] at hleft
    omega
  · intro p hp
    apply always_pure.mpr
    refine ⟨ps ++ [p], by simp [hlen], ?_, by rw [hs, append_extend]⟩
    calc (ps ++ [p] ++ s.2.erase p).Perm (ps ++ s.2) := by
          simpa using (List.perm_cons_erase hp).symm.append_left ps
      _ |>.Perm _ := hperm

lemma Drawn.outPeers {s : EdgeLists × List ℕ} (h : Drawn node_num node m peer_num s) :
    ∃ ps, OutPeers node_num peer_num node ps ∧ s.1 = m.extend node ps := by
  obtain ⟨ps, hlen, hperm, hs⟩ := h
  refine ⟨ps, ⟨hlen, ?_, ?_⟩, hs⟩
  · exact (hperm.nodup_iff.mpr (List.nodup_range.erase node)).of_append_left
  · intro p hp
    have hmem := hperm.subset (List.mem_append_left s.2 hp)
    have := List.nodup_range.mem_erase_iff.mp hmem
    exact ⟨List.mem_range.mp this.2, this.1⟩

/-- Whatever is drawn, the peers of a node are distinct other nodes. -/
lemma draw_peers_always (hnode : node < node_num) (h : peer_num < node_num) :
    Always (draw_peers node_num peer_num m node) fun m' =>
      ∃ ps, OutPeers node_num peer_num node ps ∧ m' = m.extend node ps := by
  rw [draw_peers, always_bind]
  apply (always_foldlM (I := fun done => Drawn node_num node m done.length) _ _).imp
  · intro s hs
    rw [List.length_range] at hs
    exact always_pure.mpr hs.outPeers
  · exact ⟨[], rfl, .refl _, extend_nil.symm⟩
  · intro pre i post s hrange hs
    have hpre : pre.length < peer_num := by
      have := congrArg List.length hrange
      simp at this
      omega
    rw [List.length_append, List.length_singleton]
    exact draw_peer_always hnode (by omega) hs

lemma draw_peers_can (hps : OutPeers node_num peer_num node ps) :
    Can (draw_peers node_num peer_num m node) (m.extend node ps) := by
  rw [draw_peers, can_bind]
  refine ⟨(m.extend node ps, ((List.range node_num).erase node).diff ps), ?_, can_pure.mpr rfl⟩
  have hloop : Can ((List.range peer_num).foldlM (fun s _ => draw_peer node s) _) _ :=
    can_foldlM (fun done => (m.extend node (ps.take done.length),
      ((List.range node_num).erase node).diff (ps.take done.length))) ?_
  · simpa [extend_nil, ← hps.count] using hloop
  · intro pre i post hrange
    have hlt : pre.length < ps.length := by
      have := congrArg List.length hrange
      simp [hps.count] at this ⊢
      omega
    have htake : ps.take (pre.length + 1) = ps.take pre.length ++ [ps[pre.length]] := by simp
    have hnew : ps[pre.length] ∉ ps.take pre.length := by
      have hdistinct : (ps.take (pre.length + 1)).Nodup :=
        hps.distinct.sublist (List.take_sublist _ _)
      rw [htake] at hdistinct
      exact fun hmem => (List.nodup_append.mp hdistinct).2.2 _ hmem _ (by simp) rfl
    have hothers := hps.others _ (List.getElem_mem hlt)
    have hset : ps[pre.length] ∈ (List.range node_num).erase node :=
      (List.mem_erase_of_ne hothers.2).mpr (List.mem_range.mpr hothers.1)
    rw [draw_peer, can_bind]
    refine ⟨ps[pre.length], can_choice.mpr (List.mem_diff_of_mem hset hnew), can_pure.mpr ?_⟩
    simp only [List.length_append, List.length_singleton, htake, append_extend, List.diff_append,
      List.diff_cons, List.diff_nil]

def CsrMatrix.of_peers (node_num : ℕ) (peers : ℕ → List ℕ) : CsrMatrix :=
  { EdgeLists.recorded peers (List.range node_num) with shape := (node_num, node_num) }

def RegularPeers (node_num peer_num : ℕ) (peers : ℕ → List ℕ) : Prop :=
  ∀ v < node_num, OutPeers node_num peer_num v (peers v)

/-- The outcomes are the graphs in which every node has `peer_num` other peers, in any order. -/
theorem generate_graph_always (h : peer_num < node_num) :
    Always (generate_graph node_num peer_num) fun g =>
      ∃ peers, RegularPeers node_num peer_num peers ∧ g = CsrMatrix.of_peers node_num peers := by
  rw [generate_graph, always_bind]
  refine (always_foldlM (I := fun done m => ∃ peers,
    (∀ v ∈ done, OutPeers node_num peer_num v (peers v)) ∧ m = EdgeLists.recorded peers done)
    ?_ ?_).imp ?_
  · exact ⟨fun _ => [], by simp, rfl⟩
  · rintro pre v post m hrange ⟨peers, hpeers, rfl⟩
    have hv : v ∈ List.range node_num := by simp [hrange]
    have hnew : v ∉ pre := by
      have hdistinct : (pre ++ v :: post).Nodup := hrange ▸ List.nodup_range
      intro hpre
      exact (List.nodup_append.mp hdistinct).2.2 v hpre v (by simp) rfl
    have hother : ∀ {w}, w ∈ pre → w ≠ v := fun hw h => hnew (h ▸ hw)
    apply (draw_peers_always (List.mem_range.mp hv) h).imp
    rintro m' ⟨ps, hps, rfl⟩
    refine ⟨Function.update peers v ps, ?_, ?_⟩
    · intro w hw
      cases List.mem_append.mp hw with
      | inl hw => simpa [Function.update_of_ne (hother hw)] using hpeers w hw
      | inr hw =>
        obtain rfl : w = v := by simpa using hw
        simpa using hps
    · rw [recorded_snoc, Function.update_self]
      congr 1
      exact recorded_congr fun w hw => (Function.update_of_ne (hother hw) ps peers).symm
  · rintro m ⟨peers, hpeers, rfl⟩
    exact always_pure.mpr ⟨peers, fun v hv => hpeers v (List.mem_range.mpr hv), rfl⟩

theorem generate_graph_can (hpeers : RegularPeers node_num peer_num peers) :
    Can (generate_graph node_num peer_num) (CsrMatrix.of_peers node_num peers) := by
  rw [generate_graph, can_bind]
  refine ⟨_, can_foldlM (EdgeLists.recorded peers) ?_, can_pure.mpr rfl⟩
  intro pre v post hrange
  have hv : v ∈ List.range node_num := by simp [hrange]
  rw [recorded_snoc]
  exact draw_peers_can (hpeers v (List.mem_range.mp hv))

lemma zip_replicate_length (v : ℕ) (ps : List ℕ) :
    (List.replicate ps.length v).zip ps = ps.map (Prod.mk v) := by
  induction ps with
  | nil => rfl
  | cons p ps ih => simp [List.replicate_succ, ih]

lemma pairs_recorded_cons (v : ℕ) (vs : List ℕ) :
    (EdgeLists.recorded peers (v :: vs)).pairs =
      (peers v).map (Prod.mk v) ++ (EdgeLists.recorded peers vs).pairs := by
  simp only [EdgeLists.pairs, EdgeLists.recorded]
  rw [List.zip_append (by simp), zip_replicate_length]

lemma mem_pairs_recorded {i j : ℕ} :
    (i, j) ∈ (EdgeLists.recorded peers vs).pairs ↔ i ∈ vs ∧ j ∈ peers i := by
  induction vs with
  | nil => simp [EdgeLists.recorded, EdgeLists.pairs]
  | cons v vs ih =>
    simp only [pairs_recorded_cons, List.mem_append, List.mem_map, Prod.mk.injEq, ih,
      List.mem_cons]
    grind

lemma nodup_pairs_recorded (hvs : vs.Nodup) (hpeers : ∀ v ∈ vs, (peers v).Nodup) :
    (EdgeLists.recorded peers vs).pairs.Nodup := by
  induction vs with
  | nil => simp [EdgeLists.recorded, EdgeLists.pairs]
  | cons v vs ih =>
    rw [pairs_recorded_cons, List.nodup_append]
    refine ⟨(hpeers v (by simp)).map (Prod.mk_right_injective v),
      ih hvs.of_cons fun w hw => hpeers w (by simp [hw]), ?_⟩
    rintro a ha ⟨i, j⟩ hb rfl
    obtain ⟨p, -, hp⟩ := List.mem_map.mp ha
    have hi := (mem_pairs_recorded.mp hb).1
    simp only [Prod.mk.injEq] at hp
    exact (List.nodup_cons.mp hvs).1 (hp.1 ▸ hi)

lemma zip_edges_recorded :
    (EdgeLists.recorded peers vs).pairs.zip (EdgeLists.recorded peers vs).edges =
      (EdgeLists.recorded peers vs).pairs.map fun t => (t, 1) := by
  induction vs with
  | nil => rfl
  | cons v vs ih =>
    have hone : ((peers v).map (Prod.mk v)).zip (List.replicate (peers v).length 1) =
        ((peers v).map (Prod.mk v)).map fun t => (t, 1) := by
      induction peers v with
      | nil => rfl
      | cons p ps ih => simpa [List.replicate_succ] using ih
    rw [pairs_recorded_cons, EdgeLists.recorded, List.zip_append (by simp), hone, ih,
      List.map_append]

lemma entry_of_pairs (g : CsrMatrix) (hone : g.pairs.zip g.edges = g.pairs.map fun t => (t, 1))
    (hdistinct : g.pairs.Nodup) (i j : ℕ) : g.entry i j = if (i, j) ∈ g.pairs then 1 else 0 := by
  have hcount : g.entry i j = g.pairs.count (i, j) := by
    rw [CsrMatrix.entry, hone]
    induction g.pairs with
    | nil => rfl
    | cons t ts ih =>
      by_cases ht : t = (i, j) <;> simp [ht] at ih ⊢ <;> omega
  rw [hcount, hdistinct.count]

lemma mem_pairs_of_peers {i j : ℕ} :
    (i, j) ∈ (CsrMatrix.of_peers node_num peers).pairs ↔ i < node_num ∧ j ∈ peers i := by
  rw [← List.mem_range]
  exact mem_pairs_recorded

lemma nodup_pairs_of_peers (hpeers : RegularPeers node_num peer_num peers) :
    (CsrMatrix.of_peers node_num peers).pairs.Nodup :=
  nodup_pairs_recorded List.nodup_range fun v hv => (hpeers v (List.mem_range.mp hv)).distinct

lemma entry_of_peers (hpeers : RegularPeers node_num peer_num peers) (i j : ℕ) :
    (CsrMatrix.of_peers node_num peers).entry i j =
      if (i, j) ∈ (CsrMatrix.of_peers node_num peers).pairs then 1 else 0 :=
  entry_of_pairs _ zip_edges_recorded (nodup_pairs_of_peers hpeers) i j

-- the peers recorded for a node, each as often as it was recorded
def CsrMatrix.out_peers (g : CsrMatrix) (v : ℕ) : List ℕ :=
  (g.pairs.filter fun t => t.1 = v).map Prod.snd

lemma out_peers_recorded (peers : ℕ → List ℕ) (hvs : vs.Nodup) (v : ℕ) :
    ((EdgeLists.recorded peers vs).pairs.filter fun t => t.1 = v).map Prod.snd =
      if v ∈ vs then peers v else [] := by
  induction vs with
  | nil => rfl
  | cons w vs ih =>
    have hw := (List.nodup_cons.mp hvs).1
    rw [pairs_recorded_cons, List.filter_append, List.map_append, ih hvs.of_cons]
    by_cases hwv : w = v
    · subst hwv
      simp [hw, List.filter_map, Function.comp_def]
    · have hvw : ¬ v = w := fun h => hwv h.symm
      simp [hwv, hvw, List.filter_map, Function.comp_def]

lemma out_peers_of_peers {v : ℕ} (hv : v < node_num) :
    (CsrMatrix.of_peers node_num peers).out_peers v = peers v := by
  have h := out_peers_recorded peers (List.nodup_range (n := node_num)) v
  rwa [if_pos (List.mem_range.mpr hv)] at h

lemma lengths_recorded :
    (EdgeLists.recorded peers vs).rows.length = (EdgeLists.recorded peers vs).cols.length ∧
      (EdgeLists.recorded peers vs).edges.length = (EdgeLists.recorded peers vs).rows.length := by
  induction vs with
  | nil => exact ⟨rfl, rfl⟩
  | cons v vs ih => simp [EdgeLists.recorded, ih]

/-- Whatever is drawn, no draw is from an empty set, no edge is recorded twice and every node
has `peer_num` distinct peers other than itself. -/
theorem generate_graph_regular (h : peer_num < node_num) :
    Always (generate_graph node_num peer_num) fun g =>
      (∀ v < node_num, OutPeers node_num peer_num v (g.out_peers v)) ∧
        (∀ i j, g.entry i j = if (i, j) ∈ g.pairs then 1 else 0) ∧
        g.pairs.Nodup ∧ (∀ t ∈ g.pairs, t.1 < node_num ∧ t.2 < node_num) ∧
        g.rows.length = g.cols.length ∧ g.edges.length = g.rows.length ∧
        g.shape = (node_num, node_num) := by
  apply (generate_graph_always h).imp
  rintro g ⟨peers, hpeers, rfl⟩
  refine ⟨?_, entry_of_peers hpeers, nodup_pairs_of_peers hpeers, ?_, lengths_recorded.1,
    lengths_recorded.2, rfl⟩
  · intro v hv
    rw [out_peers_of_peers hv]
    exact hpeers v hv
  · intro t ht
    obtain ⟨hi, hj⟩ := mem_pairs_of_peers.mp ht
    exact ⟨hi, ((hpeers t.1 hi).others t.2 hj).1⟩

theorem generate_graph_regular_sample :
    (2 : ℕ) < 4 ∧ Always (generate_graph 4 2) fun g =>
      (∀ v < 4, OutPeers 4 2 v (g.out_peers v)) ∧
        (∀ i j, g.entry i j = if (i, j) ∈ g.pairs then 1 else 0) ∧
        g.pairs.Nodup ∧ (∀ t ∈ g.pairs, t.1 < 4 ∧ t.2 < 4) ∧
        g.rows.length = g.cols.length ∧ g.edges.length = g.rows.length ∧ g.shape = (4, 4) :=
  ⟨by decide, generate_graph_regular (by decide)⟩

end Xcoin
