import Xcoin.Lib.Connectivity
import Xcoin.Topology.Generate

/-! `connect_graph`: every node outside the component labelled 0 is spliced into an edge of it. -/

namespace Xcoin

open Relation Lib.Choices Lib.Choices.Chance Lib.Connectivity

variable {n : ℕ}

structure LilMatrix (n : ℕ) where
  entry : Fin n → Fin n → ℕ

def CsrMatrix.tolil (g : CsrMatrix) (n : ℕ) : LilMatrix n := ⟨fun i j => g.entry i j⟩

namespace LilMatrix

def set (t : LilMatrix n) (i j : Fin n) (x : ℕ) : LilMatrix n :=
  ⟨fun a b => if a = i ∧ b = j then x else t.entry a b⟩

-- getrow(i).nonzero()[1]
def row (t : LilMatrix n) (i : Fin n) : List (Fin n) :=
  (List.finRange n).filter fun j => t.entry i j ≠ 0

-- add node into the 0 set
def add_node (t : LilMatrix n) (v u node : Fin n) : LilMatrix n :=
  ((t.set v u 0).set v node 1).set node u 1

def Edge (t : LilMatrix n) (i j : Fin n) : Prop := t.entry i j ≠ 0

instance (t : LilMatrix n) (i j : Fin n) : Decidable (t.Edge i j) :=
  inferInstanceAs (Decidable (t.entry i j ≠ 0))

@[simp] lemma mem_row {t : LilMatrix n} {i j : Fin n} : j ∈ t.row i ↔ t.Edge i j := by
  simp [row, Edge]

end LilMatrix

-- np.where(cmpnts == c_id)[0]
def nodes_labelled (cmpnts : Fin n → ℕ) (c_id : ℕ) : List (Fin n) :=
  (List.finRange n).filter fun v => cmpnts v = c_id

@[simp] lemma mem_nodes_labelled {cmpnts : Fin n → ℕ} {c_id : ℕ} {v : Fin n} :
    v ∈ nodes_labelled cmpnts c_id ↔ cmpnts v = c_id := by
  simp [nodes_labelled]

lemma nodes_labelled_nodup (cmpnts : Fin n → ℕ) (c_id : ℕ) : (nodes_labelled cmpnts c_id).Nodup :=
  (List.nodup_finRange n).filter _

def drop_peer (const_out_deg : Bool) (temp_graph : LilMatrix n) (node : Fin n) :
    Chance TopologyFault (LilMatrix n) :=
  if const_out_deg then do
    let peer ← choice .empty_choice (temp_graph.row node)
    pure (temp_graph.set node peer 0)
  else pure temp_graph

def splice (const_out_deg : Bool) (base_set : List (Fin n)) (temp_graph : LilMatrix n)
    (node : Fin n) : Chance TopologyFault (LilMatrix n) := do
  let temp_graph ← drop_peer const_out_deg temp_graph node
  let v ← choice .empty_choice base_set
  let u ← choice .empty_choice (temp_graph.row v)
  pure (temp_graph.add_node v u node)

-- the body of the while loop, up to the new labelling
def connect_pass (const_out_deg : Bool) (c : ℕ × (Fin n → ℕ)) (temp_graph : LilMatrix n) :
    Chance TopologyFault (LilMatrix n) :=
  let base_set := nodes_labelled c.2 0
  (List.range' 1 (c.1 - 1)).foldlM
    (fun t c_id => (nodes_labelled c.2 c_id).foldlM (splice const_out_deg base_set) t) temp_graph

-- `connected_components` is scipy's; the fuel bounds how often the body runs
def connect_graph_loop (connected_components : LilMatrix n → ℕ × (Fin n → ℕ))
    (const_out_deg : Bool) : ℕ → LilMatrix n → Chance TopologyFault (LilMatrix n)
  | 0, t => if (connected_components t).1 = 1 then pure t else fault .still_running
  | fuel + 1, t =>
    if (connected_components t).1 = 1 then pure t
    else do
      let t ← connect_pass const_out_deg (connected_components t) t
      connect_graph_loop connected_components const_out_deg fuel t

def connect_graph (connected_components : LilMatrix n → ℕ × (Fin n → ℕ)) (fuel peer_cnt : ℕ)
    (const_out_deg : Bool) : Chance TopologyFault (LilMatrix n) := do
  let graph ← generate_graph n peer_cnt
  connect_graph_loop connected_components const_out_deg fuel (graph.tolil n)

def splice_order (c : ℕ × (Fin n → ℕ)) : List (Fin n) :=
  (List.range' 1 (c.1 - 1)).flatMap (nodes_labelled c.2)

lemma connect_pass_eq (const_out_deg : Bool) (c : ℕ × (Fin n → ℕ)) (t : LilMatrix n) :
    connect_pass const_out_deg c t =
      (splice_order c).foldlM (splice const_out_deg (nodes_labelled c.2 0)) t :=
  (foldlM_flatMap t).symm

variable {t t' g : LilMatrix n} {base done : List (Fin n)} {node u v a b : Fin n}
  {const_out_deg : Bool}

lemma drop_peer_can : Can (drop_peer const_out_deg t node) t' ↔
    if const_out_deg then ∃ peer, t.Edge node peer ∧ t' = t.set node peer 0 else t' = t := by
  cases const_out_deg with
  | false => simp [drop_peer]
  | true => simp only [drop_peer, if_true, can_bind, can_choice, can_pure, LilMatrix.mem_row]

lemma drop_peer_always (h : ∃ u, t.Edge node u) :
    Always (drop_peer const_out_deg t node) (Can (drop_peer const_out_deg t node)) := by
  obtain ⟨u, hu⟩ := h
  have hne : t.row node ≠ [] := List.ne_nil_of_mem (LilMatrix.mem_row.mpr hu)
  cases const_out_deg with
  | false => simp [drop_peer]
  | true =>
    have hcan : ∀ p ∈ t.row node, Can (drop_peer true t node) (t.set node p 0) :=
      fun p hp => drop_peer_can.mpr ⟨p, LilMatrix.mem_row.mp hp, rfl⟩
    rw [drop_peer, if_pos rfl, always_bind, always_choice]
    exact ⟨hne, fun p hp => always_pure.mpr (hcan p hp)⟩

lemma drop_peer_same (h : Can (drop_peer const_out_deg t node) t') (ha : a ≠ node) :
    t'.entry a = t.entry a := by
  rw [drop_peer_can] at h
  split at h
  · obtain ⟨peer, -, rfl⟩ := h
    funext b
    simp [LilMatrix.set, ha]
  · rw [h]

lemma drop_peer_sub (h : Can (drop_peer const_out_deg t node) t') (hab : t'.Edge a b) :
    t.Edge a b := by
  rw [drop_peer_can] at h
  split at h
  · obtain ⟨peer, -, rfl⟩ := h
    by_cases hp : a = node ∧ b = peer <;> simp_all [LilMatrix.Edge, LilMatrix.set]
  · rwa [h] at hab

lemma drop_peer_edge (h : Can (drop_peer const_out_deg t node) t') (ha : a ≠ node) :
    t'.Edge a b ↔ t.Edge a b := by
  rw [LilMatrix.Edge, drop_peer_same h ha, LilMatrix.Edge]

lemma splice_can : Can (splice const_out_deg base t node) t' ↔
    ∃ t₁, Can (drop_peer const_out_deg t node) t₁ ∧
      ∃ v ∈ base, ∃ u, t₁.Edge v u ∧ t' = t₁.add_node v u node := by
  simp only [splice, can_bind, can_choice, can_pure, LilMatrix.mem_row]

lemma splice_always (hnode : ∃ u, t.Edge node u) (hbase : base ≠ [])
    (hpeers : ∀ v ∈ base, v ≠ node ∧ ∃ u, t.Edge v u) :
    Always (splice const_out_deg base t node) (Can (splice const_out_deg base t node)) := by
  rw [splice, always_bind]
  apply (drop_peer_always hnode).imp
  intro t₁ ht₁
  rw [always_bind, always_choice]
  refine ⟨hbase, fun v hv => ?_⟩
  obtain ⟨hvnode, u, hu⟩ := hpeers v hv
  rw [always_bind, always_choice]
  refine ⟨List.ne_nil_of_mem (LilMatrix.mem_row.mpr ((drop_peer_edge ht₁ hvnode).mpr hu)), ?_⟩
  intro u hu
  exact always_pure.mpr (splice_can.mpr ⟨t₁, ht₁, v, hv, u, LilMatrix.mem_row.mp hu, rfl⟩)

lemma add_node_entry : (t.add_node v u node).entry a b =
    if a = node ∧ b = u then 1 else if a = v ∧ b = node then 1
    else if a = v ∧ b = u then 0 else t.entry a b := rfl

lemma add_node_edge : (t.add_node v u node).Edge a b ↔
    (a = node ∧ b = u) ∨ (a = v ∧ b = node) ∨ (t.Edge a b ∧ ¬ (a = v ∧ b = u)) := by
  rw [LilMatrix.Edge, add_node_entry]
  split_ifs with h₁ h₂ h₃
  · simp [h₁]
  · simp [h₂]
  · exact iff_of_false (by simp) (by tauto)
  · simp [h₁, h₂, h₃, LilMatrix.Edge]

lemma add_node_same (hnode : a ≠ node) (hv : a ≠ v) :
    (t.add_node v u node).entry a = t.entry a := by
  funext b
  rw [add_node_entry, if_neg (fun h => hnode h.1), if_neg (fun h => hv h.1),
    if_neg (fun h => hv h.1)]

lemma splice_same (h : Can (splice const_out_deg base t node) t') (hnode : a ≠ node)
    (hbase : a ∉ base) : t'.entry a = t.entry a := by
  obtain ⟨t₁, ht₁, v, hv, u, -, rfl⟩ := splice_can.mp h
  rw [add_node_same hnode fun hav => hbase (hav ▸ hv), drop_peer_same ht₁ hnode]

lemma splices_same {order : List (Fin n)} (horder : a ∉ order) (hbase : a ∉ base)
    (h : Can (order.foldlM (splice const_out_deg base) t) t') : t'.entry a = t.entry a := by
  apply can_invariant (P := fun s => s.entry a = t.entry a) rfl _ h
  intro node hnode s s' hs hs'
  have hne : a ≠ node := fun ha => horder (ha ▸ hnode)
  exact (splice_same hs' hne hbase).trans hs

/-- What holds after the nodes `done` have been spliced into the component `base` of `g`. -/
structure Spliced (g : LilMatrix n) (base done : List (Fin n)) (t : LilMatrix n) : Prop where
  strong : StrongOn t.Edge {v | v ∈ base ++ done}
  inside : ∀ v ∈ base, ∀ u, t.Edge v u → u ∈ base ++ done
  peers : ∀ v ∈ base, ∃ u, t.Edge v u
  rest : ∀ v, v ∉ base ++ done → t.entry v = g.entry v
  no_loops : ∀ v, ¬ t.Edge v v

section Add

variable (h : Spliced g base done t) (hnode : node ∉ base ++ done)
  (ht' : Can (drop_peer const_out_deg t node) t') (hv : v ∈ base) (hu : t'.Edge v u)

include h hnode ht' hv hu

lemma Spliced.add_strong :
    StrongOn (t'.add_node v u node).Edge {x | x ∈ base ++ (done ++ [node])} := by
  have hset : {x | x ∈ base ++ (done ++ [node])} = insert node {x | x ∈ base ++ done} := by
    ext x
    simp
    tauto
  have hvS : v ∈ base ++ done := List.mem_append_left done hv
  have huS : u ∈ base ++ done := h.inside v hv u (drop_peer_sub ht' hu)
  rw [hset]
  refine h.strong.splice hvS huS ?_ ?_ ?_
  · intro a b hab hvu
    have hvu : ¬ (a = v ∧ b = u) := fun h => hvu (Prod.ext h.1 h.2)
    have hne : a ≠ node := fun han => hnode (han ▸ hab.1)
    have hkept : t'.Edge a b := (drop_peer_edge ht' hne).mpr hab.2.2
    exact add_node_edge.mpr (.inr (.inr ⟨hkept, hvu⟩))
  · exact add_node_edge.mpr (.inr (.inl ⟨rfl, rfl⟩))
  · exact add_node_edge.mpr (.inl ⟨rfl, rfl⟩)

lemma Spliced.add : Spliced g base (done ++ [node]) (t'.add_node v u node) := by
  have hne : ∀ {x}, x ∈ base ++ done → x ≠ node := fun hx hxn => hnode (hxn ▸ hx)
  have hvS : v ∈ base ++ done := List.mem_append_left done hv
  have huS : u ∈ base ++ done := h.inside v hv u (drop_peer_sub ht' hu)
  refine ⟨h.add_strong hnode ht' hv hu, ?_, ?_, ?_, ?_⟩
  · intro x hx y hxy
    rw [← List.append_assoc, List.mem_append]
    rw [add_node_edge] at hxy
    rcases hxy with ⟨rfl, -⟩ | ⟨-, rfl⟩ | ⟨hxy, -⟩
    · exact absurd rfl (hne (List.mem_append_left done hx))
    · exact .inr (by simp)
    · exact .inl (h.inside x hx y (drop_peer_sub ht' hxy))
  · intro x hx
    by_cases hxv : x = v
    · exact ⟨node, add_node_edge.mpr (.inr (.inl ⟨hxv, rfl⟩))⟩
    · obtain ⟨y, hy⟩ := h.peers x hx
      have hy' := (drop_peer_edge ht' (hne (List.mem_append_left done hx))).mpr hy
      exact ⟨y, add_node_edge.mpr (.inr (.inr ⟨hy', fun h => hxv h.1⟩))⟩
  · intro x hx
    have hxS : x ∉ base ++ done := fun h => hx (by simp at h ⊢; tauto)
    have hxnode : x ≠ node := fun h => hx (by simp [h])
    have hxv : x ≠ v := fun h => hxS (h ▸ hvS)
    rw [add_node_same hxnode hxv, drop_peer_same ht' hxnode, h.rest x hxS]
  · intro x hx
    rw [add_node_edge] at hx
    rcases hx with ⟨rfl, hxu⟩ | ⟨rfl, hxn⟩ | ⟨hx, -⟩
    · exact hne huS hxu.symm
    · exact hne hvS hxn
    · exact h.no_loops x (drop_peer_sub ht' hx)

end Add

lemma Spliced.step (h : Spliced g base done t) (hnode : node ∉ base ++ done)
    (hbase : base ≠ []) (hpeer : ∃ u, g.Edge node u) :
    Always (splice const_out_deg base t node) fun t' =>
      Can (splice const_out_deg base t node) t' ∧ Spliced g base (done ++ [node]) t' := by
  have hpeer : ∃ u, t.Edge node u := by
    simpa [LilMatrix.Edge, h.rest node hnode] using hpeer
  have hne : ∀ v ∈ base, v ≠ node :=
    fun v hv hvn => hnode (List.mem_append_left done (hvn ▸ hv))
  refine (splice_always hpeer hbase fun v hv => ⟨hne v hv, h.peers v hv⟩).imp ?_
  intro t' ht'
  refine ⟨ht', ?_⟩
  obtain ⟨t₁, ht₁, v, hv, u, hu, rfl⟩ := splice_can.mp ht'
  exact h.add hnode ht₁ hv hu

variable {c : ℕ × (Fin n → ℕ)}

lemma mem_splice_order (h : Labelled g.Edge c) : v ∈ splice_order c ↔ c.2 v ≠ 0 := by
  have := h.bounded v
  simp only [splice_order, List.mem_flatMap, List.mem_range'_1, mem_nodes_labelled]
  constructor
  · rintro ⟨i, hi, rfl⟩
    omega
  · intro hv
    exact ⟨c.2 v, by omega, rfl⟩

lemma nodup_splice_order (c : ℕ × (Fin n → ℕ)) : (splice_order c).Nodup := by
  rw [splice_order, List.nodup_flatMap]
  refine ⟨fun i _ => nodes_labelled_nodup c.2 i, ?_⟩
  apply (List.nodup_range' 1).imp
  intro i j hij v hi hj
  rw [mem_nodes_labelled] at hi hj
  exact hij (hi.symm.trans hj)

lemma spliced_nil (h : Labelled g.Edge c) (hloops : ∀ v, ¬ g.Edge v v)
    (hpeers : ∀ v, ∃ u, g.Edge v u) : Spliced g (nodes_labelled c.2 0) [] g where
  strong := by simpa using h.strongOn_zero
  inside v hv u hu := by simpa using h.closed v u (by simpa using hv) hu
  peers v _ := hpeers v
  rest _ _ := rfl
  no_loops := hloops

/-- Every splice of the pass succeeds; `P` is any further property that the splices keep. -/
theorem pass_invariant (const_out_deg : Bool) {P : List (Fin n) → LilMatrix n → Prop}
    (h : Labelled g.Edge c) (hloops : ∀ v, ¬ g.Edge v v) (hpeers : ∀ v, ∃ u, g.Edge v u)
    (hP : P [] g)
    (hstep : ∀ done node t t', Spliced g (nodes_labelled c.2 0) done t →
      node ∉ nodes_labelled c.2 0 ++ done → P done t →
      Can (splice const_out_deg (nodes_labelled c.2 0) t node) t' → P (done ++ [node]) t')
    {order : List (Fin n)} (horder : order <+: splice_order c) :
    Always (order.foldlM (splice const_out_deg (nodes_labelled c.2 0)) g) fun t =>
      Spliced g (nodes_labelled c.2 0) order t ∧ P order t := by
  refine always_foldlM (I := fun done t => Spliced g (nodes_labelled c.2 0) done t ∧ P done t)
    ⟨spliced_nil h hloops hpeers, hP⟩ ?_
  rintro pre node post t hsplit ⟨ht, hPt⟩
  have hmem : node ∈ splice_order c := horder.subset (by simp [hsplit])
  have hnew : node ∉ nodes_labelled c.2 0 ++ pre := by
    have hdistinct : order.Nodup := (nodup_splice_order c).sublist horder.sublist
    rw [hsplit, List.nodup_append] at hdistinct
    simp only [List.mem_append, mem_nodes_labelled, not_or]
    exact ⟨(mem_splice_order h).mp hmem, fun hpre => hdistinct.2.2 node hpre node (by simp) rfl⟩
  have hbase : nodes_labelled c.2 0 ≠ [] := by
    obtain ⟨v, hv⟩ := h.zero
    exact List.ne_nil_of_mem (mem_nodes_labelled.mpr hv)
  apply (ht.step hnew hbase (hpeers node)).imp
  rintro t' ⟨hcan, ht'⟩
  exact ⟨ht', hstep pre node t t' ht hnew hPt hcan⟩

lemma pass_spliced (const_out_deg : Bool) (h : Labelled g.Edge c) (hloops : ∀ v, ¬ g.Edge v v)
    (hpeers : ∀ v, ∃ u, g.Edge v u) {order : List (Fin n)} (horder : order <+: splice_order c) :
    Always (order.foldlM (splice const_out_deg (nodes_labelled c.2 0)) g)
      (Spliced g (nodes_labelled c.2 0) order) := by
  apply (pass_invariant const_out_deg (P := fun _ _ => True) h hloops hpeers trivial _ horder).imp
  · intro t ht
    exact ht.1
  · intros
    trivial

lemma Spliced.strong_all (hc : Labelled g.Edge c)
    (h : Spliced g (nodes_labelled c.2 0) (splice_order c) t) : Strong t.Edge := by
  apply strong_of_univ h.strong
  intro v
  by_cases hv : c.2 v = 0
  · simp [hv]
  · simp [(mem_splice_order hc).mpr hv]

section Generated

variable {peers : ℕ → List ℕ} {peer_cnt : ℕ}

lemma tolil_edge (hpeers : RegularPeers n peer_cnt peers) {i j : Fin n} :
    ((CsrMatrix.of_peers n peers).tolil n).Edge i j ↔ (j : ℕ) ∈ peers i := by
  simp [LilMatrix.Edge, CsrMatrix.tolil, entry_of_peers hpeers, mem_pairs_of_peers]

lemma tolil_no_loops (hpeers : RegularPeers n peer_cnt peers) (v : Fin n) :
    ¬ ((CsrMatrix.of_peers n peers).tolil n).Edge v v :=
  fun h => ((hpeers v v.isLt).others v ((tolil_edge hpeers).mp h)).2 rfl

lemma tolil_peers (hpeers : RegularPeers n peer_cnt peers) (hpos : 1 ≤ peer_cnt) (v : Fin n) :
    ∃ u, ((CsrMatrix.of_peers n peers).tolil n).Edge v u := by
  have hv := hpeers v v.isLt
  have hne : peers v ≠ [] := by
    intro hnil
    have := hv.count
    simp [hnil] at this
    omega
  obtain ⟨p, hp⟩ := List.exists_mem_of_ne_nil _ hne
  exact ⟨⟨p, (hv.others p hp).1⟩, (tolil_edge hpeers).mpr hp⟩

end Generated

section Components

variable (connected_components : LilMatrix n → ℕ × (Fin n → ℕ))
  (hcc : ∀ t, Labelled t.Edge (connected_components t))

include hcc

lemma connect_pass_always (const_out_deg : Bool) (hloops : ∀ v, ¬ g.Edge v v)
    (hpeers : ∀ v, ∃ u, g.Edge v u) :
    Always (connect_pass const_out_deg (connected_components g) g) fun t =>
      (∀ v, ¬ t.Edge v v) ∧ Strong t.Edge := by
  rw [connect_pass_eq]
  apply (pass_spliced const_out_deg (hcc g) hloops hpeers (List.prefix_refl _)).imp
  intro t ht
  exact ⟨ht.no_loops, ht.strong_all (hcc g)⟩

lemma connect_graph_loop_strong (const_out_deg : Bool) (fuel : ℕ) (ht : Strong t.Edge) :
    connect_graph_loop connected_components const_out_deg fuel t = pure t := by
  cases fuel <;> simp [connect_graph_loop, (hcc t).strong_iff.mpr ht]

lemma connect_graph_loop_always (const_out_deg : Bool) (fuel : ℕ) (hloops : ∀ v, ¬ g.Edge v v)
    (hpeers : ∀ v, ∃ u, g.Edge v u) :
    Always (connect_graph_loop connected_components const_out_deg (fuel + 1) g) fun t =>
      (∀ v, ¬ t.Edge v v) ∧ Strong t.Edge := by
  rw [connect_graph_loop]
  split
  · rename_i hone
    exact always_pure.mpr ⟨hloops, (hcc g).strong_iff.mp hone⟩
  · rw [always_bind]
    apply (connect_pass_always connected_components hcc const_out_deg hloops hpeers).imp
    rintro t ⟨ht, hstrong⟩
    rw [connect_graph_loop_strong connected_components hcc const_out_deg fuel hstrong]
    exact always_pure.mpr ⟨ht, hstrong⟩

end Components

/-- One pass connects the graph: no draw is from an empty set, no node becomes its own peer, and
one run of the body of the loop is enough. -/
theorem connect_graph_connects (connected_components : LilMatrix n → ℕ × (Fin n → ℕ))
    (hcc : ∀ t, Labelled t.Edge (connected_components t)) (const_out_deg : Bool) :
    (∀ g : LilMatrix n, (∀ v, ¬ g.Edge v v) → (∀ v, ∃ u, g.Edge v u) →
      (∀ order, order <+: splice_order (connected_components g) →
        Always (order.foldlM
          (splice const_out_deg (nodes_labelled (connected_components g).2 0)) g)
          fun t => ∀ v, ¬ t.Edge v v) ∧
      Always (connect_pass const_out_deg (connected_components g) g) (fun t =>
        (∀ v, ¬ t.Edge v v) ∧ Strong t.Edge) ∧
      ∀ fuel, Always (connect_graph_loop connected_components const_out_deg (fuel + 1) g) fun t =>
        (∀ v, ¬ t.Edge v v) ∧ Strong t.Edge) ∧
    ∀ peer_cnt fuel, 1 ≤ peer_cnt → peer_cnt < n →
      Always (connect_graph connected_components (fuel + 1) peer_cnt const_out_deg) fun t =>
        (∀ v, ¬ t.Edge v v) ∧ Strong t.Edge := by
  constructor
  · intro g hloops hpeers
    refine ⟨fun order horder => ?_, ?_, fun fuel => ?_⟩
    · apply (pass_spliced const_out_deg (hcc g) hloops hpeers horder).imp
      intro t ht
      exact ht.no_loops
    · exact connect_pass_always connected_components hcc const_out_deg hloops hpeers
    · exact connect_graph_loop_always connected_components hcc const_out_deg fuel hloops hpeers
  · intro peer_cnt fuel hpos hlt
    rw [connect_graph, always_bind]
    apply (generate_graph_always hlt).imp
    rintro g ⟨peers, hpeers, rfl⟩
    exact connect_graph_loop_always connected_components hcc const_out_deg fuel
      (tolil_no_loops hpeers) (tolil_peers hpeers hpos)

def scc_labels (t : LilMatrix n) : ℕ × (Fin n → ℕ) :=
  components (List.finRange n) fun i j => t.entry i j ≠ 0

lemma scc_labels_labelled [NeZero n] (t : LilMatrix n) : Labelled t.Edge (scc_labels t) := by
  have h := components_labelled (e := fun i j => decide (t.entry i j ≠ 0))
    (List.mem_finRange (n := n))
  simp only [decide_eq_true_eq] at h
  exact h

-- 0 and 1 are each other's peers, 2 is nobody's peer
def sampleGraph : LilMatrix 3 :=
  ⟨fun i j => if j.val = (if i.val = 0 then 1 else 0) then 1 else 0⟩

theorem connect_graph_connects_sample :
    Always (connect_pass true (scc_labels sampleGraph) sampleGraph) (fun t =>
      (∀ v, ¬ t.Edge v v) ∧ Strong t.Edge) ∧
    Always (connect_graph (n := 3) scc_labels 1 1 true) fun t =>
      (∀ v, ¬ t.Edge v v) ∧ Strong t.Edge := by
  have h := connect_graph_connects (n := 3) scc_labels scc_labels_labelled true
  refine ⟨(h.1 sampleGraph ?_ ?_).2.1, h.2 1 0 (by decide) (by decide)⟩
  · simp only [LilMatrix.Edge]
    decide
  · simp only [LilMatrix.Edge]
    decide

end Xcoin
