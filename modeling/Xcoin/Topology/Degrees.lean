import Xcoin.Topology.Connect

/-! Out-degrees under `const_out_deg`: a spliced node gives up one peer for one that it may
already have. -/

namespace Xcoin

open Relation Lib.Choices Lib.Choices.Chance Lib.Connectivity Lib.Closure

variable {n peer_cnt : ℕ} {t t' g : LilMatrix n} {base : List (Fin n)} {node u v : Fin n}
  {peers : ℕ → List ℕ} {c : ℕ × (Fin n → ℕ)}

lemma row_nodup (t : LilMatrix n) (v : Fin n) : (t.row v).Nodup := (List.nodup_finRange n).filter _

lemma row_length (l : List ℕ) (hl : l.Nodup) (hmem : ∀ x, x ∈ l ↔ ∃ h : x < n, t.Edge v ⟨x, h⟩) :
    (t.row v).length = l.length := by
  have hperm : ((t.row v).map Fin.val).Perm l := by
    rw [List.perm_ext_iff_of_nodup ((row_nodup t v).map Fin.val_injective) hl]
    intro x
    simp [hmem, Fin.exists_iff]
  simpa using hperm.length_eq

lemma generated_row_length (hpeers : RegularPeers n peer_cnt peers) (v : Fin n) :
    (((CsrMatrix.of_peers n peers).tolil n).row v).length = peer_cnt := by
  have hv := hpeers v v.isLt
  rw [row_length (peers v) hv.distinct, hv.count]
  intro x
  simp only [tolil_edge hpeers]
  exact ⟨fun hx => ⟨(hv.others x hx).1, hx⟩, fun ⟨_, hx⟩ => hx⟩

lemma eq_singleton_of_nodup {l : List (Fin n)} (hl : l.Nodup) (h : ∀ x, x ∈ l ↔ x = u) :
    l = [u] := by
  have hperm : l.Perm [u] := by
    rw [List.perm_ext_iff_of_nodup hl (List.nodup_singleton u)]
    simpa using h
  exact List.perm_singleton.mp hperm

lemma row_length_one : (t.row v).length = 1 ↔ ∃ u, ∀ x, t.Edge v x ↔ x = u := by
  rw [List.length_eq_one_iff]
  constructor
  · rintro ⟨u, hu⟩
    exact ⟨u, fun x => by rw [← LilMatrix.mem_row, hu, List.mem_singleton]⟩
  · rintro ⟨u, hu⟩
    exact ⟨u, eq_singleton_of_nodup (row_nodup t v) fun x => by simp [hu]⟩

lemma drop_peer_last {t₁ : LilMatrix n} (h : (t.row node).length = 1)
    (ht₁ : Can (drop_peer true t node) t₁) (x : Fin n) : ¬ t₁.Edge node x := by
  obtain ⟨p, hp⟩ := row_length_one.mp h
  obtain ⟨q, hq, rfl⟩ := drop_peer_can.mp ht₁
  obtain rfl := (hp q).mp hq
  by_cases hx : x = q
  · simp [LilMatrix.Edge, LilMatrix.set, hx]
  · have hnone := mt (hp x).mp hx
    simpa [LilMatrix.Edge, LilMatrix.set, hx] using hnone

lemma splice_one (hne : ∀ v ∈ base, v ≠ node) (h : ∀ v, (t.row v).length = 1)
    (ht' : Can (splice true base t node) t') (v : Fin n) : (t'.row v).length = 1 := by
  obtain ⟨t₁, ht₁, w, hw, u, hu, rfl⟩ := splice_can.mp ht'
  have hwnode := hne w hw
  have hu : t.Edge w u := (drop_peer_edge ht₁ hwnode).mp hu
  rw [row_length_one]
  by_cases hv : v = node
  · subst hv
    have hempty := drop_peer_last (h v) ht₁
    have hvw : v ≠ w := hwnode.symm
    refine ⟨u, fun x => ?_⟩
    rw [add_node_edge]
    have := hempty x
    tauto
  · have hedge : ∀ x, t₁.Edge v x ↔ t.Edge v x := fun x => drop_peer_edge ht₁ hv
    obtain ⟨p, hp⟩ := row_length_one.mp (h v)
    by_cases hvw : v = w
    · subst hvw
      obtain rfl := (hp u).mp hu
      refine ⟨node, fun x => ?_⟩
      rw [add_node_edge, hedge, hp]
      tauto
    · refine ⟨p, fun x => ?_⟩
      rw [add_node_edge, hedge, hp]
      tauto

section Components

variable (connected_components : LilMatrix n → ℕ × (Fin n → ℕ))
  (hcc : ∀ t, Labelled t.Edge (connected_components t))

lemma connect_graph_loop_invariant {P : LilMatrix n → Prop} {const_out_deg : Bool}
    (hpass : ∀ t, P t → Always (connect_pass const_out_deg (connected_components t) t) P)
    {fuel : ℕ} (ht : P t)
    (h : Can (connect_graph_loop connected_components const_out_deg fuel t) t') : P t' := by
  induction fuel generalizing t with
  | zero =>
    rw [connect_graph_loop] at h
    split at h
    · exact can_pure.mp h ▸ ht
    · exact absurd h can_fault
  | succ fuel ih =>
    rw [connect_graph_loop] at h
    split at h
    · exact can_pure.mp h ▸ ht
    · obtain ⟨s, hs, hs'⟩ := can_bind.mp h
      exact ih ((hpass t ht).can hs) hs'

include hcc

lemma connect_graph_loop_once {const_out_deg : Bool} (hcount : (connected_components t).1 ≠ 1)
    (hpass : Can (connect_pass const_out_deg (connected_components t) t) t')
    (hstrong : Strong t'.Edge) :
    Can (connect_graph_loop connected_components const_out_deg 1 t) t' := by
  rw [connect_graph_loop, if_neg hcount, can_bind]
  refine ⟨t', hpass, ?_⟩
  rw [connect_graph_loop_strong connected_components hcc const_out_deg 0 hstrong]
  exact can_pure.mpr rfl

lemma connect_graph_loop_one {fuel : ℕ} (hloops : ∀ v, ¬ t.Edge v v)
    (hone : ∀ v, (t.row v).length = 1)
    (h : Can (connect_graph_loop connected_components true fuel t) t') (v : Fin n) :
    (t'.row v).length = 1 := by
  refine (connect_graph_loop_invariant connected_components (P := fun t =>
    (∀ v, ¬ t.Edge v v) ∧ ∀ v, (t.row v).length = 1) ?_ ⟨hloops, hone⟩ h).2 v
  rintro t ⟨hloops, hone⟩
  have hpeers : ∀ v, ∃ u, t.Edge v u := by
    intro v
    obtain ⟨u, hu⟩ := row_length_one.mp (hone v)
    exact ⟨u, (hu u).mpr rfl⟩
  rw [connect_pass_eq]
  apply (pass_invariant true (P := fun _ t => ∀ v, (t.row v).length = 1) (hcc t) hloops hpeers
    hone _ (List.prefix_refl _)).imp
  · intro s hs
    exact ⟨hs.1.no_loops, hs.2⟩
  · intro done node s s' _ hnode hs hs'
    apply splice_one _ hs hs'
    intro v hv hvn
    exact hnode (List.mem_append_left done (hvn ▸ hv))

end Components

lemma complete_strong (hpeers : RegularPeers n peer_cnt peers) (h : peer_cnt + 1 = n) :
    Strong ((CsrMatrix.of_peers n peers).tolil n).Edge := by
  intro a b
  by_cases hab : a = b
  · exact hab ▸ .refl
  · have ha := hpeers a a.isLt
    have hperm : (peers a).Perm ((List.range n).erase a) := by
      refine (List.subperm_of_subset ha.distinct ?_).perm_of_length_le ?_
      · intro p hp
        obtain ⟨hlt, hne⟩ := ha.others p hp
        exact (List.mem_erase_of_ne hne).mpr (List.mem_range.mpr hlt)
      · simp [ha.count]
        omega
    refine .single ((tolil_edge hpeers).mpr (hperm.mem_iff.mpr ?_))
    have hne : (b : ℕ) ≠ a := fun h => hab (Fin.ext h.symm)
    exact (List.mem_erase_of_ne hne).mpr (List.mem_range.mpr b.isLt)

section Lossy

-- a complete graph on 0..peer_cnt, and every other node points to 0..peer_cnt-1
def lossy_peers (peer_cnt v : ℕ) : List ℕ :=
  if v ≤ peer_cnt then (List.range (peer_cnt + 1)).erase v else List.range peer_cnt

def lossy (n peer_cnt : ℕ) : LilMatrix n :=
  (CsrMatrix.of_peers n (lossy_peers peer_cnt)).tolil n

variable {i j w : Fin n}

lemma lossy_regular (h : peer_cnt < n) : RegularPeers n peer_cnt (lossy_peers peer_cnt) := by
  intro v hv
  by_cases hle : v ≤ peer_cnt
  · simp only [lossy_peers, hle, if_true]
    refine ⟨by simp [hle], List.nodup_range.erase v, ?_⟩
    intro p hp
    have hp := List.nodup_range.mem_erase_iff.mp hp
    exact ⟨by have := List.mem_range.mp hp.2; omega, hp.1⟩
  · simp only [lossy_peers, hle, if_false]
    refine ⟨List.length_range, List.nodup_range, ?_⟩
    intro p hp
    have := List.mem_range.mp hp
    omega

lemma lossy_edge (h : peer_cnt < n) : (lossy n peer_cnt).Edge i j ↔
    if (i : ℕ) ≤ peer_cnt then (j : ℕ) ≤ peer_cnt ∧ j ≠ i else (j : ℕ) < peer_cnt := by
  rw [lossy, tolil_edge (lossy_regular h), lossy_peers]
  split
  · rw [List.nodup_range.mem_erase_iff, List.mem_range, Fin.ne_iff_vne]
    omega
  · rw [List.mem_range]

lemma lossy_edge_le (h : peer_cnt < n) (hij : (lossy n peer_cnt).Edge i j) :
    (j : ℕ) ≤ peer_cnt := by
  rw [lossy_edge h] at hij
  split at hij <;> omega

lemma lossy_to_zero (hpos : 1 ≤ peer_cnt) (h : peer_cnt < n) {z : Fin n} (hz : (z : ℕ) = 0)
    (v : Fin n) : ReflTransGen (lossy n peer_cnt).Edge v z := by
  by_cases hv : v = z
  · exact hv ▸ .refl
  · have hne : z ≠ v := fun hzv => hv hzv.symm
    apply ReflTransGen.single
    rw [lossy_edge h, hz]
    split
    · exact ⟨Nat.zero_le _, hne⟩
    · omega

lemma lossy_from_zero (h : peer_cnt < n) {z : Fin n} (hz : (z : ℕ) = 0) :
    ReflTransGen (lossy n peer_cnt).Edge z v ↔ (v : ℕ) ≤ peer_cnt := by
  constructor
  · apply mem_of_closed (S := fun x : Fin n => (x : ℕ) ≤ peer_cnt)
    · intro x y _ hxy
      exact lossy_edge_le h hxy
    · omega
  · intro hv
    by_cases hvz : v = z
    · exact hvz ▸ .refl
    · apply ReflTransGen.single
      rw [lossy_edge h, if_pos (by omega)]
      exact ⟨hv, hvz⟩

lemma lossy_zero (hpos : 1 ≤ peer_cnt) (h : peer_cnt < n)
    (hc : Labelled (lossy n peer_cnt).Edge c) (v : Fin n) : c.2 v = 0 ↔ (v : ℕ) ≤ peer_cnt := by
  let zero : Fin n := ⟨0, by omega⟩
  have hto := lossy_to_zero hpos h (z := zero) rfl
  have hzero : c.2 zero = 0 := by
    obtain ⟨a, ha⟩ := hc.zero
    exact mem_of_closed (S := fun x => c.2 x = 0) hc.closed ha (hto a)
  have hsame := hc.same v zero
  rw [hzero] at hsame
  rw [hsame, ← lossy_from_zero h (z := zero) rfl]
  constructor
  · intro hv
    exact hv.2
  · intro hv
    exact ⟨hto v, hv⟩

lemma lossy_single (h : peer_cnt < n) (hc : Labelled (lossy n peer_cnt).Edge c)
    (hw : peer_cnt < (w : ℕ)) (hv : c.2 v = c.2 w) : v = w := by
  have hreach := ((hc.same v w).mp hv).1
  cases hreach with
  | refl => rfl
  | tail _ hxw =>
    have := lossy_edge_le h hxw
    omega

/-- A node outside the complete part is spliced first. -/
lemma lossy_order (hpos : 1 ≤ peer_cnt) (h : peer_cnt + 1 < n)
    (hc : Labelled (lossy n peer_cnt).Edge c) :
    ∃ (w : Fin n) (rest : List (Fin n)), peer_cnt < (w : ℕ) ∧ splice_order c = w :: rest := by
  have hlt : peer_cnt < n := by omega
  have hcount : 1 < c.1 := by
    have hne := mt (lossy_zero hpos hlt hc ⟨peer_cnt + 1, h⟩).mp (by simp)
    have := hc.bounded ⟨peer_cnt + 1, h⟩
    omega
  obtain ⟨w, hw⟩ := hc.used 1 hcount
  have hwlt : peer_cnt < (w : ℕ) := by
    have := mt (lossy_zero hpos hlt hc w).mpr (by omega)
    omega
  have hone : nodes_labelled c.2 1 = [w] := by
    refine eq_singleton_of_nodup (nodes_labelled_nodup c.2 1) fun v => ?_
    rw [mem_nodes_labelled]
    exact ⟨fun hv => lossy_single hlt hc hwlt (hv.trans hw.symm), fun hv => hv ▸ hw⟩
  obtain ⟨m, hm⟩ : ∃ m, c.1 - 1 = m + 1 := ⟨c.1 - 2, by omega⟩
  refine ⟨w, (List.range' 2 m).flatMap (nodes_labelled c.2), hwlt, ?_⟩
  rw [splice_order, hm, List.range'_succ, List.flatMap_cons, hone, List.singleton_append]

-- the row of `w` once its peer 0 is given up
lemma lossy_dropped (h : peer_cnt < n) (hw : peer_cnt < (w : ℕ)) {z : Fin n} (hz : (z : ℕ) = 0)
    (y : Fin n) : ((lossy n peer_cnt).set w z 0).Edge w y ↔ (y : ℕ) ≠ 0 ∧ (y : ℕ) < peer_cnt := by
  by_cases hy : y = z
  · simp [hy, hz, LilMatrix.Edge, LilMatrix.set]
  · have hset : ((lossy n peer_cnt).set w z 0).entry w y = (lossy n peer_cnt).entry w y := by
      simp [LilMatrix.set, hy]
    have hpos : (y : ℕ) ≠ 0 := fun h => hy (Fin.ext (h.trans hz.symm))
    rw [LilMatrix.Edge, hset, ← LilMatrix.Edge, lossy_edge h, if_neg (by omega)]
    simp [hpos]

/-- The spliced node gives up peer 0 and is given peer 1, which it already has. -/
lemma lossy_splice (hk : 2 ≤ peer_cnt) (h : peer_cnt < n) (hw : peer_cnt < (w : ℕ))
    (hbase : ∀ v : Fin n, (v : ℕ) ≤ peer_cnt → v ∈ base) :
    ∃ t, Can (splice true base (lossy n peer_cnt) w) t ∧ (t.row w).length = peer_cnt - 1 := by
  let zero : Fin n := ⟨0, by omega⟩
  let one : Fin n := ⟨1, by omega⟩
  have hzw : zero ≠ w := fun h => by simp [zero, ← h] at hw
  have hdrop : Can (drop_peer true (lossy n peer_cnt) w) ((lossy n peer_cnt).set w zero 0) := by
    refine drop_peer_can.mpr ⟨zero, (lossy_edge h).mpr ?_, rfl⟩
    rw [if_neg (by omega)]
    simp [zero]
    omega
  have hone : ((lossy n peer_cnt).set w zero 0).Edge zero one := by
    rw [drop_peer_edge hdrop hzw, lossy_edge h]
    simp [zero, one, Fin.ext_iff]
    omega
  refine ⟨((lossy n peer_cnt).set w zero 0).add_node zero one w, ?_, ?_⟩
  · exact splice_can.mpr ⟨_, hdrop, zero, hbase zero (Nat.zero_le _), one, hone, rfl⟩
  · rw [row_length (List.range' 1 (peer_cnt - 1)) (List.nodup_range' 1), List.length_range']
    intro x
    have hrow := lossy_dropped h hw (z := zero) rfl
    simp only [add_node_edge, hrow, List.mem_range'_1, Fin.ext_iff, one, true_and]
    constructor
    · intro hx
      exact ⟨by omega, .inr (.inr ⟨⟨by omega, by omega⟩, fun h => hzw (Fin.ext h.1.symm)⟩)⟩
    · rintro ⟨hxn, hx | hx | hx⟩
      · omega
      · exact absurd (Fin.ext hx.1.symm) hzw
      · omega

variable (connected_components : LilMatrix n → ℕ × (Fin n → ℕ))
  (hcc : ∀ t, Labelled t.Edge (connected_components t))

include hcc

lemma degree_lost (hk : 2 ≤ peer_cnt) (h : peer_cnt + 1 < n) :
    ∃ t, Can (connect_graph connected_components 1 peer_cnt true) t ∧
      ∃ v, (t.row v).length ≠ peer_cnt := by
  have hlt : peer_cnt < n := by omega
  have hc := hcc (lossy n peer_cnt)
  have hreg := lossy_regular hlt
  obtain ⟨w, rest, hw, horder⟩ := lossy_order (by omega) h hc
  set base := nodes_labelled (connected_components (lossy n peer_cnt)).2 0
  have hbase : ∀ v, v ∈ base ↔ (v : ℕ) ≤ peer_cnt := by
    intro v
    rw [mem_nodes_labelled, lossy_zero (by omega) hlt hc]
  obtain ⟨t₁, ht₁, hrow⟩ := lossy_splice hk hlt hw fun v hv => (hbase v).mpr hv
  have hpass := pass_spliced true hc (tolil_no_loops hreg) (tolil_peers hreg (by omega))
    (List.prefix_refl _)
  rw [horder, List.foldlM_cons, always_bind] at hpass
  obtain ⟨t₂, ht₂, hspliced⟩ := (hpass.can ht₁).exists_can
  have hwrest : w ∉ rest := by
    have hdistinct := nodup_splice_order (connected_components (lossy n peer_cnt))
    rw [horder] at hdistinct
    exact (List.nodup_cons.mp hdistinct).1
  have hwbase : w ∉ base := by
    rw [hbase]
    omega
  refine ⟨t₂, ?_, w, ?_⟩
  · rw [connect_graph, can_bind]
    refine ⟨_, generate_graph_can hreg, ?_⟩
    apply connect_graph_loop_once connected_components hcc _ _ ((horder ▸ hspliced).strong_all hc)
    · intro hone
      change (connected_components (lossy n peer_cnt)).1 = 1 at hone
      simp [splice_order, hone] at horder
    · change Can (connect_pass true (connected_components (lossy n peer_cnt)) (lossy n peer_cnt)) t₂
      rw [connect_pass_eq, horder, List.foldlM_cons, can_bind]
      exact ⟨t₁, ht₁, ht₂⟩
  · have hsame : t₂.row w = t₁.row w := by
      simp only [LilMatrix.row, splices_same hwrest hwbase ht₂]
    rw [hsame, hrow]
    omega

end Lossy

/-- The out-degree is kept, whatever is drawn, exactly when every node has one peer or all
the others. -/
theorem out_degree_kept_iff (connected_components : LilMatrix n → ℕ × (Fin n → ℕ))
    (hcc : ∀ t, Labelled t.Edge (connected_components t)) (hpos : 1 ≤ peer_cnt)
    (hlt : peer_cnt < n) :
    (∀ fuel t, Can (connect_graph connected_components fuel peer_cnt true) t →
      ∀ v, (t.row v).length = peer_cnt) ↔ peer_cnt = 1 ∨ peer_cnt + 1 = n := by
  constructor
  · intro h
    by_contra hne
    have hk : 2 ≤ peer_cnt ∧ peer_cnt + 1 < n := by omega
    obtain ⟨t, ht, v, hv⟩ := degree_lost connected_components hcc hk.1 hk.2
    exact hv (h 1 t ht v)
  · intro hcase fuel t ht v
    obtain ⟨g, hg, hloop⟩ := can_bind.mp ht
    obtain ⟨peers, hpeers, rfl⟩ := (generate_graph_always hlt).can hg
    cases hcase with
    | inl hone =>
      subst hone
      exact connect_graph_loop_one connected_components hcc (tolil_no_loops hpeers)
        (generated_row_length hpeers) hloop v
    | inr hall =>
      have hstrong := complete_strong hpeers hall
      rw [connect_graph_loop_strong connected_components hcc true fuel hstrong, can_pure] at hloop
      exact hloop ▸ generated_row_length hpeers v

theorem out_degree_kept_sample :
    (∀ fuel (t : LilMatrix 4), Can (connect_graph scc_labels fuel 1 true) t →
      ∀ v, (t.row v).length = 1) ∧
    ∀ fuel (t : LilMatrix 4), Can (connect_graph scc_labels fuel 3 true) t →
      ∀ v, (t.row v).length = 3 :=
  ⟨(out_degree_kept_iff scc_labels scc_labels_labelled (by decide) (by decide)).mpr (.inl rfl),
    (out_degree_kept_iff scc_labels scc_labels_labelled (by decide) (by decide)).mpr (.inr rfl)⟩

theorem out_degree_lost :
    ¬ ∀ fuel (t : LilMatrix 4), Can (connect_graph scc_labels fuel 2 true) t →
      ∀ v, (t.row v).length = 2 := by
  intro h
  obtain ⟨t, ht, v, hv⟩ := degree_lost (n := 4) scc_labels scc_labels_labelled (le_refl 2)
    (by decide)
  exact hv (h 1 t ht v)

end Xcoin
