import Xcoin.Network.Heights
import Xcoin.Node.OrderIndependence

/-! What every run of a network comes to: no chain is higher than the number of blocks mined,
and two nodes that know all of them have the same index. -/

namespace Xcoin

open Relation Lib.Runs Lib.StdMaps

variable {H : BlockHash} {ι : Type} [DecidableEq ι] {N N' : Network ι} {s s' : Node}
  {bs : List Block}

/-- The blocks below an entry, genesis apart, are as many as its height, and all were mined. -/
lemma ancestors_mined (ht : s.Tree H) (hm : s.MadeOf (· ∈ bs)) {a : Addr} {e : BlockIndex}
    (he : s.heap[a]? = some e) : ∃ path : List Block, path.Nodup ∧ (∀ b ∈ path, b ∈ bs) ∧
      (path.length : ℤ) = e.n_height_ ∧
      ∀ b ∈ path, ∃ x y, x ≤ a ∧ s.heap[x]? = some y ∧ y.block = b := by
  induction a using Nat.strong_induction_on generalizing e with
  | h a ih =>
    by_cases ha : a = 0
    · subst ha
      exact ⟨[], List.nodup_nil, by simp, (ht.root_entry he).2.2.symm, by simp⟩
    · obtain ⟨p, parent, hlt, -, hp, -, hh⟩ := ht.parent he ha
      obtain ⟨path, hnodup, hin, hlen, hplace⟩ := ih p hlt hp
      have hnew : e.block ∉ path := by
        intro hmem
        obtain ⟨x, y, hx, hy, hyb⟩ := hplace _ hmem
        have hk : y.hash_ = e.hash_ := by rw [ht.hash hy, ht.hash he, hyb]
        obtain ⟨rfl, -⟩ := ht.entry_unique hy he hk
        exact absurd hlt (not_lt.mpr hx)
      have hmined : e.block ∈ bs := (hm.entry he).resolve_left (ht.not_genesis he ha)
      refine ⟨e.block :: path, List.nodup_cons.mpr ⟨hnew, hnodup⟩, ?_, ?_, ?_⟩
      · simpa using ⟨hmined, hin⟩
      · rw [List.length_cons, hh, ← hlen]
        push_cast
        rfl
      · intro b hb
        cases List.mem_cons.mp hb with
        | inl hb => exact ⟨a, e, le_rfl, he, hb.symm⟩
        | inr hb =>
          obtain ⟨x, y, hx, hy⟩ := hplace b hb
          exact ⟨x, y, hx.trans hlt.le, hy⟩

lemma heights_counted (ht : s.Tree H) (hm : s.MadeOf (· ∈ bs)) {e : BlockIndex} (he : e ∈ s.heap) :
    e.n_height_ ≤ bs.length := by
  obtain ⟨a, ha⟩ := List.mem_iff_getElem?.mp he
  obtain ⟨path, hnodup, hin, hlen, -⟩ := ancestors_mined ht hm ha
  have hle := (hnodup.subperm hin).length_le
  omega

omit [DecidableEq ι] in
lemma Network.Sound.counted (hN : N.Sound H) {i : ι} (hi : N.nodes i = some s) :
    ∀ e ∈ s.heap, e.n_height_ ≤ N.mined.length :=
  fun _ he => heights_counted (hN.node hi).chain.tree (hN.made hi) he

omit [DecidableEq ι] in
lemma Network.Sound.bounded (hN : N.Sound H) (hlen : N.mined.length < 2 ^ 31) :
    N.HeightsBounded := by
  intro i s hi e he
  have hle := hN.counted hi e he
  omega

lemma mined_grows (h : Network.Step H N N') : N.mined.length ≤ N'.mined.length := by
  cases h with
  | mine nonce name hi =>
    rw [List.length_append]
    exact Nat.le_add_left _ _
  | deliver b hi hb => exact le_rfl

theorem short_run_bounded (hH : CollisionFree H)
    (h : ReflTransGen (Network.Step H) (Network.start H) N) (hlen : N.mined.length < 2 ^ 31) :
    ReachesWhile (Network.Step H) Network.HeightsBounded (Network.start H) N ∧ N.Sound H := by
  induction h with
  | refl => exact ⟨.start (start_network_sound.bounded hlen), start_network_sound⟩
  | tail _ hst ih =>
    obtain ⟨hreach, hN⟩ := ih (lt_of_le_of_lt (mined_grows hst) hlen)
    have hN' := network_step_sound hH hreach.holds hN hst
    exact ⟨hreach.step hst (hN'.bounded hlen), hN'⟩

/-- While fewer than `2 ^ 31` blocks are mined, no height overflows, whoever mines what and
whatever is delivered: a chain is never higher than the number of blocks mined. -/
theorem heights_within_mined (H : BlockHash) (hH : CollisionFree H) (N : Network ι)
    (h : ReflTransGen (Network.Step H) (Network.start H) N) (hlen : N.mined.length < 2 ^ 31) :
    ReachesWhile (Network.Step H) Network.HeightsBounded (Network.start H) N ∧
    ∀ i s, N.nodes i = some s → 0 ≤ s.g_best_height ∧ s.g_best_height ≤ N.mined.length ∧
      ∀ e ∈ s.heap, 0 ≤ e.n_height_ ∧ e.n_height_ ≤ s.g_best_height := by
  obtain ⟨hreach, hN⟩ := short_run_bounded hH h hlen
  refine ⟨hreach, fun i s hi => ?_⟩
  obtain ⟨t, e, ht⟩ := (hN.node hi).chain.tip
  have htree := (hN.node hi).chain.tree
  rw [ht.height]
  refine ⟨htree.height_nonneg ht.entry, hN.counted hi e (List.mem_of_getElem? ht.entry), ?_⟩
  intro x hx
  obtain ⟨a, ha⟩ := List.mem_iff_getElem?.mp hx
  exact ⟨htree.height_nonneg ha, ht.max ha⟩

lemma sample_pair_reached :
    ReflTransGen (Network.Step plainHash) (Network.start plainHash) samplePairShared := by
  have hstart : ∀ i, samplePair.nodes i = some (Node.start plainHash) := by
    intro i
    rw [samplePair, Network.start, boot_ok]
    rfl
  have hmine : Network.Step plainHash samplePair samplePairMined := .mine 7 "peer0" (hstart 0)
  have hdeliver : Network.Step plainHash samplePairMined samplePairShared :=
    .deliver sampleMined (hstart 1) (by decide)
  exact .tail (.tail .refl hmine) hdeliver

theorem heights_within_mined_sample : ∃ s, samplePairShared.nodes 1 = some s ∧
    s.g_best_height ≤ samplePairShared.mined.length := by
  obtain ⟨s, hs, -⟩ := holdsAfter_iff.mp (show holdsAfter
    (step plainHash (Node.start plainHash) (.receive sampleMined)) (fun _ => true) = true by decide)
  have hone : samplePairShared.nodes 1 = some s := toOption_ok.mpr hs
  have hall := (heights_within_mined plainHash plainHash_collisionFree samplePairShared
    sample_pair_reached (by decide)).2
  exact ⟨s, hone, (hall 1 s hone).2.1⟩

section Informed

variable (H)

-- every block that was mined has reached the node
def Network.Informs (N : Network ι) (s : Node) : Prop :=
  ∀ b ∈ N.mined, s.Known (H.get_hash b)

variable {H}

omit [DecidableEq ι]

/-- By descent along the indexes: the parent of an orphan was mined, so it is an orphan too. -/
lemma informed_no_orphan (hH : CollisionFree H) (hN : N.Sound H) {i : ι} (hi : N.nodes i = some s)
    (hall : N.Informs H s) (hr : s.Resolved) (k : String) : k ∉ s.g_orphan_blocks := by
  have hs := hN.node hi
  have hno : ∀ (n : ℕ) (k : String) (b : Block), b.index_.toNat = n →
      s.g_orphan_blocks.lookup k ≠ some b := by
    intro n
    induction n using Nat.strong_induction_on with
    | h n ih =>
      intro k b hn hl
      have hwait := hs.agree.waits hl
      cases hN.numbered ((hN.made hi).orphan hl) with
      | inl hgen =>
        apply hr.waits hwait
        rw [hgen.1]
        exact StdMap.mem_of_lookup hs.chain.tree.genesis_lookup
      | inr hmined =>
        obtain ⟨x, hx, hprev, hindex⟩ := hmined
        rw [hprev] at hwait
        obtain ⟨y, hy⟩ := StdMap.mem_iff_lookup.mp ((hall x hx).resolve_left (hr.waits hwait))
        have hhead := (hH _ _).mp (hs.agree.key hy)
        have hsame : x.index_ = y.index_ := congrArg Header.index_ hhead
        exact ih y.index_.toNat (by rw [← hsame]; omega) _ y rfl hy
  intro hk
  obtain ⟨b, hb⟩ := StdMap.mem_iff_lookup.mp hk
  exact hno _ k b rfl hb

lemma no_orphan_resolved (hs : s.Sound H) (hno : ∀ k, k ∉ s.g_orphan_blocks) : s.Resolved where
  waits hm := (hno _ (StdMap.mem_of_lookup (hs.agree.stored hm).2)).elim
  apart hk := (hno _ hk).elim

lemma informed_keys (hN : N.Sound H) {i : ι} (hi : N.nodes i = some s) (hall : N.Informs H s)
    (hno : ∀ k, k ∉ s.g_orphan_blocks) (k : String) :
    k ∈ s.g_block_index ↔ k = H.get_hash Block.genesis ∨ ∃ b ∈ N.mined, H.get_hash b = k := by
  have htree := (hN.node hi).chain.tree
  constructor
  · intro hk
    obtain ⟨a, e, he, rfl⟩ := htree.mem_index.mp hk
    rw [htree.hash he]
    cases (hN.made hi).entry he with
    | inl hgen => exact Or.inl (by rw [hgen])
    | inr hmem => exact Or.inr ⟨e.block, hmem, rfl⟩
  · rintro (rfl | ⟨b, hb, rfl⟩)
    · exact StdMap.mem_of_lookup htree.genesis_lookup
    · exact (hall b hb).resolve_right (hno _)

end Informed

lemma collision_free_parents (hH : CollisionFree H) (hs : s.Sound H) (hs' : s'.Sound H) :
    s.toChain.SameParents s'.toChain := by
  intro a a' e e' he he' hk
  rw [hs.chain.tree.hash he, hs'.chain.tree.hash he'] at hk
  exact congrArg Header.prev_hash_ ((hH _ _).mp hk)

lemma best_height_le (hH : CollisionFree H) (hs : s.Sound H) (hs' : s'.Sound H)
    (hkeys : ∀ k ∈ s.g_block_index, k ∈ s'.g_block_index) : s.g_best_height ≤ s'.g_best_height := by
  obtain ⟨t, e, ht⟩ := hs.chain.tip
  obtain ⟨t', e', ht'⟩ := hs'.chain.tip
  obtain ⟨a, x, hx, hk⟩ := hs'.chain.tree.mem_index.mp (hkeys _ (hs.chain.tree.entry_mem ht.entry))
  have hplace := hs.chain.tree.same_place hs'.chain.tree (collision_free_parents hH hs hs')
    ht.entry hx hk.symm
  rw [ht.height, ht'.height, hplace.1]
  exact ht'.max hx

omit [DecidableEq ι] in
theorem informed_outcome (hH : CollisionFree H) (hN : N.Sound H) {i j : ι}
    (hi : N.nodes i = some s) (hj : N.nodes j = some s') (hall : N.Informs H s)
    (hall' : N.Informs H s') (hr : s.Resolved) (hr' : s'.Resolved) : s.SameOutcome s' := by
  have hs := hN.node hi
  have hs' := hN.node hj
  have hno := informed_no_orphan hH hN hi hall hr
  have hno' := informed_no_orphan hH hN hj hall' hr'
  have hkeys : ∀ k, k ∈ s.g_block_index ↔ k ∈ s'.g_block_index := by
    intro k
    rw [informed_keys hN hi hall hno, informed_keys hN hj hall' hno']
  constructor
  · exact hkeys
  · intro k a a' e e' hl he hl' he'
    have hk := hs.chain.tree.lookup_hash hl he
    have hk' := hs'.chain.tree.lookup_hash hl' he'
    exact hs.chain.tree.same_place hs'.chain.tree (collision_free_parents hH hs hs') he he'
      (hk.trans hk'.symm)
  · intro k
    rw [AList.lookup_eq_none.mpr (hno k), AList.lookup_eq_none.mpr (hno' k)]
  · exact le_antisymm (best_height_le hH hs hs' fun k => (hkeys k).mp)
      (best_height_le hH hs' hs fun k => (hkeys k).mpr)

/-- A node that every mined block has reached has no orphan left unless one is stranded, and
its index is then genesis and the mined blocks. Any two such nodes agree on the blocks, their
heights and parents, and the best height. -/
theorem network_converges (H : BlockHash) (hH : CollisionFree H) (N : Network ι)
    (h : ReflTransGen (Network.Step H) (Network.start H) N) (hlen : N.mined.length < 2 ^ 31) :
    (∀ i s, N.nodes i = some s → N.Informs H s →
      (s.NoStrandedOrphan ↔ ∀ k, k ∉ s.g_orphan_blocks) ∧
      (s.NoStrandedOrphan → ∀ k, k ∈ s.g_block_index ↔
        k = H.get_hash Block.genesis ∨ ∃ b ∈ N.mined, H.get_hash b = k)) ∧
    ∀ i j s s', N.nodes i = some s → N.nodes j = some s' → N.Informs H s → N.Informs H s' →
      s.NoStrandedOrphan → s'.NoStrandedOrphan → s.SameOutcome s' := by
  obtain ⟨-, hN⟩ := short_run_bounded hH h hlen
  constructor
  · intro i s hi hall
    have hs := hN.node hi
    have hno : s.NoStrandedOrphan → ∀ k, k ∉ s.g_orphan_blocks := fun hr =>
      informed_no_orphan hH hN hi hall ((resolved_iff hs).mp hr)
    refine ⟨⟨hno, fun h => (resolved_iff hs).mpr (no_orphan_resolved hs h)⟩, ?_⟩
    exact fun hr => informed_keys hN hi hall (hno hr)
  · intro i j s s' hi hj hall hall' hr hr'
    exact informed_outcome hH hN hi hj hall hall' ((resolved_iff (hN.node hi)).mp hr)
      ((resolved_iff (hN.node hj)).mp hr')

theorem network_converges_sample : ∃ s s', samplePairShared.nodes 0 = some s ∧
    samplePairShared.nodes 1 = some s' ∧ s.SameOutcome s' := by
  have hmined : samplePairShared.mined = [sampleMined] := by decide
  let informed (s : Node) : Bool :=
    s.Known (plainHash.get_hash sampleMined) ∧ s.g_orphan_blocks.keys.length = 0
  obtain ⟨s, hs, hk⟩ := holdsAfter_iff.mp (show holdsAfter
    (step plainHash (Node.start plainHash) (.mine 7 "peer0")) informed = true by decide)
  obtain ⟨s', hs', hk'⟩ := holdsAfter_iff.mp (show holdsAfter
    (step plainHash (Node.start plainHash) (.receive sampleMined)) informed = true by decide)
  obtain ⟨hknown, hnone⟩ := of_decide_eq_true hk
  obtain ⟨hknown', hnone'⟩ := of_decide_eq_true hk'
  have hall : samplePairShared.Informs plainHash s := by simpa [Network.Informs, hmined]
  have hall' : samplePairShared.Informs plainHash s' := by simpa [Network.Informs, hmined]
  have hzero : samplePairShared.nodes 0 = some s := toOption_ok.mpr hs
  have hone : samplePairShared.nodes 1 = some s' := toOption_ok.mpr hs'
  obtain ⟨hself, hpair⟩ := network_converges plainHash plainHash_collisionFree samplePairShared
    sample_pair_reached (by decide)
  have hr := (hself 0 s hzero hall).1.mpr fun k => by
    rw [AList.mem_keys, List.length_eq_zero_iff.mp hnone]
    exact List.not_mem_nil
  have hr' := (hself 1 s' hone hall').1.mpr fun k => by
    rw [AList.mem_keys, List.length_eq_zero_iff.mp hnone']
    exact List.not_mem_nil
  exact ⟨s, s', hzero, hone, hpair 0 1 s s' hzero hone hall hall' hr hr'⟩

end Xcoin
