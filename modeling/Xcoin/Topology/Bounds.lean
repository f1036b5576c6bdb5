import Xcoin.Topology.Degrees

/-! What can come out of `connect_graph`: how far the out-degrees can be from the `peer_cnt` that
was asked for, and which of the regular graphs are drawn. -/

namespace Xcoin

open Relation Lib.Choices Lib.Choices.Chance Lib.Connectivity

variable {n peer_cnt : ℕ} {t t' t₁ g : LilMatrix n} {base done : List (Fin n)}
  {node u v a b p : Fin n} {const_out_deg : Bool}

def LilMatrix.peers (t : LilMatrix n) (a : Fin n) : Finset (Fin n) := (t.row a).toFinset

lemma mem_peers : b ∈ t.peers a ↔ t.Edge a b := by
  rw [LilMatrix.peers, List.mem_toFinset, LilMatrix.mem_row]

lemma row_length_peers (t : LilMatrix n) (a : Fin n) : (t.row a).length = (t.peers a).card :=
  (List.toFinset_card_of_nodup (row_nodup t a)).symm

lemma peers_congr (h : t'.entry a = t.entry a) : t'.peers a = t.peers a := by
  simp only [LilMatrix.peers, LilMatrix.row, h]

-- one peer is exchanged for the new node
lemma peers_base (hv : v ≠ node) :
    (t.add_node v u node).peers v = insert node ((t.peers v).erase u) := by
  ext b
  rw [mem_peers, add_node_edge, Finset.mem_insert, Finset.mem_erase, mem_peers]
  tauto

lemma peers_node (hv : v ≠ node) :
    (t.add_node v u node).peers node = insert u (t.peers node) := by
  ext b
  rw [mem_peers, add_node_edge, Finset.mem_insert, mem_peers]
  have hne : node ≠ v := hv.symm
  tauto

lemma peers_dropped (t : LilMatrix n) (node p : Fin n) :
    (t.set node p 0).peers node = (t.peers node).erase p := by
  ext b
  rw [mem_peers, Finset.mem_erase, mem_peers]
  by_cases hb : b = p <;> simp [LilMatrix.Edge, LilMatrix.set, hb]

lemma card_base (hv : v ≠ node) (hu : t.Edge v u) (hnew : ¬ t.Edge v node) :
    ((t.add_node v u node).peers v).card = (t.peers v).card := by
  have hpos : 0 < (t.peers v).card := Finset.card_pos.mpr ⟨u, mem_peers.mpr hu⟩
  have hnot : node ∉ (t.peers v).erase u := by
    rw [Finset.mem_erase, mem_peers]
    tauto
  rw [peers_base hv, Finset.card_insert_of_notMem hnot,
    Finset.card_erase_of_mem (mem_peers.mpr hu)]
  omega

lemma card_node (hv : v ≠ node) :
    (t.peers node).card ≤ ((t.add_node v u node).peers node).card ∧
      ((t.add_node v u node).peers node).card ≤ (t.peers node).card + 1 := by
  rw [peers_node hv]
  exact ⟨Finset.card_le_card (Finset.subset_insert u _), Finset.card_insert_le u _⟩

def dropped (const_out_deg : Bool) : ℕ := if const_out_deg then 1 else 0

lemma card_dropped (h : Can (drop_peer const_out_deg t node) t') :
    (t'.peers node).card + dropped const_out_deg = (t.peers node).card := by
  rw [drop_peer_can] at h
  cases const_out_deg with
  | false =>
    obtain rfl : t' = t := h
    rfl
  | true =>
    obtain ⟨p, hp, rfl⟩ := h
    have hpos : 0 < (t.peers node).card := Finset.card_pos.mpr ⟨p, mem_peers.mpr hp⟩
    rw [peers_dropped, Finset.card_erase_of_mem (mem_peers.mpr hp), dropped, if_pos rfl]
    omega

/-- A spliced node has at most one peer fewer, or one more; the others keep their number. -/
theorem splice_degrees (hnew : ∀ v ∈ base, v ≠ node ∧ ¬ t.Edge v node)
    (h : Can (splice const_out_deg base t node) t') :
    (t.peers node).card ≤ (t'.peers node).card + dropped const_out_deg ∧
      (t'.peers node).card + dropped const_out_deg ≤ (t.peers node).card + 1 ∧
      ∀ a ≠ node, (t'.peers a).card = (t.peers a).card := by
  obtain ⟨t₁, ht₁, v, hv, u, hu, rfl⟩ := splice_can.mp h
  obtain ⟨hvnode, hnone⟩ := hnew v hv
  have hcard := card_dropped ht₁
  obtain ⟨hlo, hhi⟩ := card_node (t := t₁) (u := u) hvnode
  refine ⟨by omega, by omega, ?_⟩
  intro a ha
  have hsame : t₁.peers a = t.peers a := peers_congr (drop_peer_same ht₁ ha)
  by_cases hav : a = v
  · subst hav
    rw [card_base hvnode hu (mt (drop_peer_edge ht₁ hvnode).mp hnone), hsame]
  · rw [peers_congr (add_node_same ha hav), hsame]

def DegreeNear (const_out_deg : Bool) (peer_cnt : ℕ) (t : LilMatrix n) (a : Fin n) : Prop :=
  peer_cnt ≤ (t.row a).length + dropped const_out_deg ∧
    (t.row a).length + dropped const_out_deg ≤ peer_cnt + 1

lemma near_of_eq (h : (t.row a).length = peer_cnt) : DegreeNear const_out_deg peer_cnt t a := by
  rw [DegreeNear, h]
  cases const_out_deg <;> simp [dropped]

section Components

variable (connected_components : LilMatrix n → ℕ × (Fin n → ℕ))
  (hcc : ∀ t, Labelled t.Edge (connected_components t))

include hcc

lemma connect_pass_degrees (hloops : ∀ v, ¬ g.Edge v v) (hpeers : ∀ v, ∃ u, g.Edge v u)
    (hcard : ∀ a, (g.row a).length = peer_cnt) :
    Always (connect_pass const_out_deg (connected_components g) g) fun t =>
      Strong t.Edge ∧ (∀ a, DegreeNear const_out_deg peer_cnt t a) ∧
        ∀ a, (connected_components g).2 a = 0 → (t.row a).length = peer_cnt := by
  rw [connect_pass_eq]
  apply (pass_invariant const_out_deg (P := fun done t =>
    (∀ a, DegreeNear const_out_deg peer_cnt t a) ∧ ∀ a ∉ done, (t.row a).length = peer_cnt)
    (hcc g) hloops hpeers _ _ (List.prefix_refl _)).imp
  · rintro t ⟨hspliced, hnear, hrest⟩
    refine ⟨hspliced.strong_all (hcc g), hnear, fun a ha => hrest a ?_⟩
    exact fun hmem => (mem_splice_order (hcc g)).mp hmem ha
  · exact ⟨fun a => near_of_eq (hcard a), fun a _ => hcard a⟩
  · rintro done node t t' hspliced hnode ⟨hnear, hrest⟩ ht'
    have hnew : ∀ v ∈ nodes_labelled (connected_components g).2 0, v ≠ node ∧ ¬ t.Edge v node := by
      intro v hv
      refine ⟨fun hvn => hnode (List.mem_append_left done (hvn ▸ hv)), fun hedge => ?_⟩
      exact hnode (hspliced.inside v hv node hedge)
    obtain ⟨hlo, hhi, hother⟩ := splice_degrees hnew ht'
    have hsame : ∀ a ≠ node, (t'.row a).length = (t.row a).length := by
      intro a ha
      rw [row_length_peers, row_length_peers, hother a ha]
    have hnot : node ∉ done := fun h => hnode (List.mem_append_right _ h)
    constructor
    · intro a
      by_cases han : a = node
      · subst han
        have hold := hrest a hnot
        rw [row_length_peers] at hold
        rw [DegreeNear, row_length_peers]
        omega
      · rw [DegreeNear, hsame a han]
        exact hnear a
    · intro a ha
      have han : a ≠ node := fun h => ha (h ▸ List.mem_append_right done List.mem_cons_self)
      rw [hsame a han]
      exact hrest a fun h => ha (List.mem_append_left _ h)

end Components

/-- Out-degrees stay within one of `peer_cnt`, on one side of it: a node may lose a peer when
the out-degree is to be kept, and gain one when it is not; some node keeps `peer_cnt`. -/
theorem out_degree_bounds (connected_components : LilMatrix n → ℕ × (Fin n → ℕ))
    (hcc : ∀ t, Labelled t.Edge (connected_components t)) (const_out_deg : Bool) (fuel : ℕ)
    (hpos : 1 ≤ peer_cnt) (hlt : peer_cnt < n) :
    Always (connect_graph connected_components (fuel + 1) peer_cnt const_out_deg) fun t =>
      Strong t.Edge ∧ (∀ v, if const_out_deg then
          peer_cnt - 1 ≤ (t.row v).length ∧ (t.row v).length ≤ peer_cnt
        else peer_cnt ≤ (t.row v).length ∧ (t.row v).length ≤ peer_cnt + 1) ∧
      ∃ v, (t.row v).length = peer_cnt := by
  rw [connect_graph, always_bind]
  apply (generate_graph_always hlt).imp
  rintro g ⟨peers, hpeers, rfl⟩
  set g := (CsrMatrix.of_peers n peers).tolil n
  have hcard : ∀ v, (g.row v).length = peer_cnt := generated_row_length hpeers
  have hnear : ∀ {t : LilMatrix n} {v : Fin n}, DegreeNear const_out_deg peer_cnt t v →
      if const_out_deg then peer_cnt - 1 ≤ (t.row v).length ∧ (t.row v).length ≤ peer_cnt
      else peer_cnt ≤ (t.row v).length ∧ (t.row v).length ≤ peer_cnt + 1 := by
    rintro t v ⟨hlo, hhi⟩
    cases const_out_deg with
    | false =>
      simp only [dropped, Bool.false_eq_true, if_false] at hlo hhi ⊢
      omega
    | true =>
      simp only [dropped, if_true] at hlo hhi ⊢
      omega
  obtain ⟨zero, hzero⟩ := (hcc g).zero
  rw [connect_graph_loop]
  split
  · rename_i hone
    exact always_pure.mpr ⟨(hcc g).strong_iff.mp hone, fun v => hnear (near_of_eq (hcard v)),
      zero, hcard zero⟩
  · rw [always_bind]
    apply (connect_pass_degrees connected_components hcc (tolil_no_loops hpeers)
      (tolil_peers hpeers hpos) hcard).imp
    rintro t ⟨hstrong, ht, hrest⟩
    rw [connect_graph_loop_strong connected_components hcc const_out_deg fuel hstrong]
    exact always_pure.mpr ⟨hstrong, fun v => hnear (ht v), zero, hrest zero hzero⟩

theorem out_degree_bounds_sample :
    (1 ≤ 2 ∧ 2 < 4) ∧ Always (connect_graph (n := 4) scc_labels 1 2 true) fun t =>
      ∃ v, (t.row v).length = 2 := by
  refine ⟨by decide, ?_⟩
  apply (out_degree_bounds (n := 4) scc_labels scc_labels_labelled true 0 (by decide : 1 ≤ 2)
    (by decide)).imp
  intro t ht
  exact ht.2.2

-- the draws that lead to `t`
def LilMatrix.drawn (t : LilMatrix n) (v : ℕ) : List ℕ :=
  if h : v < n then (t.row ⟨v, h⟩).map Fin.val else []

lemma mem_drawn {t : LilMatrix n} {i j : Fin n} : (j : ℕ) ∈ t.drawn i ↔ t.Edge i j := by
  rw [LilMatrix.drawn, dif_pos i.isLt, List.mem_map_of_injective Fin.val_injective]
  exact LilMatrix.mem_row

lemma drawn_regular {t : LilMatrix n} (hloops : ∀ v, ¬ t.Edge v v)
    (hreg : ∀ v, (t.row v).length = peer_cnt) : RegularPeers n peer_cnt t.drawn := by
  intro v hv
  rw [LilMatrix.drawn, dif_pos hv]
  refine ⟨?_, (row_nodup t ⟨v, hv⟩).map Fin.val_injective, ?_⟩
  · rw [List.length_map]
    exact hreg ⟨v, hv⟩
  · intro p hp
    obtain ⟨w, hw, rfl⟩ := List.mem_map.mp hp
    refine ⟨w.isLt, fun heq => ?_⟩
    have hself : w = ⟨v, hv⟩ := Fin.ext heq
    exact hloops ⟨v, hv⟩ (LilMatrix.mem_row.mp (hself ▸ hw))

lemma tolil_drawn {t : LilMatrix n} (hentry : ∀ i j, t.entry i j ≤ 1)
    (hpeers : RegularPeers n peer_cnt t.drawn) : (CsrMatrix.of_peers n t.drawn).tolil n = t := by
  have hsame : ∀ i j, ((CsrMatrix.of_peers n t.drawn).tolil n).entry i j = t.entry i j := by
    intro i j
    have hedge : ((i : ℕ), (j : ℕ)) ∈ (CsrMatrix.of_peers n t.drawn).pairs ↔ t.Edge i j := by
      rw [mem_pairs_of_peers, mem_drawn, and_iff_right i.isLt]
    change (CsrMatrix.of_peers n t.drawn).entry i j = t.entry i j
    rw [entry_of_peers hpeers]
    split
    · rename_i h
      have hle := hentry i j
      have hne : t.entry i j ≠ 0 := hedge.mp h
      omega
    · rename_i h
      exact (not_not.mp (hedge.not.mp h)).symm
  exact congrArg LilMatrix.mk (funext fun i => funext (hsame i))

lemma connect_graph_always {connected_components : LilMatrix n → ℕ × (Fin n → ℕ)}
    (hcc : ∀ t, Labelled t.Edge (connected_components t)) (const_out_deg : Bool) (fuel : ℕ)
    (hpos : 1 ≤ peer_cnt) (hlt : peer_cnt < n) :
    Always (connect_graph connected_components (fuel + 1) peer_cnt const_out_deg) fun t =>
      (∀ v, ¬ t.Edge v v) ∧ Strong t.Edge := by
  rw [connect_graph, always_bind]
  apply (generate_graph_always hlt).imp
  rintro g ⟨peers, hpeers, rfl⟩
  exact connect_graph_loop_always connected_components hcc const_out_deg fuel
    (tolil_no_loops hpeers) (tolil_peers hpeers hpos)

/-- Among the graphs in which every node has `peer_cnt` peers, those that can be drawn are the
strongly connected ones without loops, all of them. -/
theorem regular_outcomes (connected_components : LilMatrix n → ℕ × (Fin n → ℕ))
    (hcc : ∀ t, Labelled t.Edge (connected_components t)) (const_out_deg : Bool) (fuel : ℕ)
    (hpos : 1 ≤ peer_cnt) (hlt : peer_cnt < n) (t : LilMatrix n)
    (hentry : ∀ i j, t.entry i j ≤ 1) (hreg : ∀ v, (t.row v).length = peer_cnt) :
    Can (connect_graph connected_components (fuel + 1) peer_cnt const_out_deg) t ↔
      (∀ v, ¬ t.Edge v v) ∧ Strong t.Edge := by
  constructor
  · exact (connect_graph_always hcc const_out_deg fuel hpos hlt).can
  · rintro ⟨hloops, hstrong⟩
    have hpeers := drawn_regular hloops hreg
    rw [connect_graph, can_bind]
    refine ⟨_, generate_graph_can hpeers, ?_⟩
    rw [tolil_drawn hentry hpeers,
      connect_graph_loop_strong connected_components hcc const_out_deg (fuel + 1) hstrong]
    exact can_pure.mpr rfl

def sampleRing : LilMatrix 3 := ⟨fun i j => if j.val = (i.val + 1) % 3 then 1 else 0⟩

theorem regular_outcomes_sample :
    Can (connect_graph (n := 3) scc_labels 1 1 true) sampleRing := by
  have hentry : ∀ i j, sampleRing.entry i j ≤ 1 := by decide
  have hreg : ∀ v, (sampleRing.row v).length = 1 := by decide
  have hround : ∀ v, ReflTransGen sampleRing.Edge 0 v ∧ ReflTransGen sampleRing.Edge v 0 := by
    have h01 : sampleRing.Edge 0 1 := by decide
    have h12 : sampleRing.Edge 1 2 := by decide
    have h20 : sampleRing.Edge 2 0 := by decide
    intro v
    fin_cases v
    · exact ⟨.refl, .refl⟩
    · exact ⟨.single h01, .head h12 (.single h20)⟩
    · exact ⟨.head h01 (.single h12), .single h20⟩
  apply (regular_outcomes scc_labels scc_labels_labelled true 0 le_rfl (by decide) sampleRing
    hentry hreg).mpr
  exact ⟨by decide, fun v w => (hround v).2.trans (hround w).1⟩

end Xcoin
