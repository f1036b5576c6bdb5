import Xcoin.Blocks.Agreement
import Xcoin.Lib.Closure
import Xcoin.Node.Delivery

/-! The cascade of orphans that a block with a known parent sets off connects exactly the
descendants of the block among the orphans. Heights are integers, the code's `int` while no
chain has 2^31 blocks. -/

namespace Xcoin

open Relation Lib.Runs Lib.StdMaps Lib.Closure

variable {H : BlockHash} {s t t' : Node} {b o x : Block}

def Node.WaitsFor (H : BlockHash) (s : Node) (a o : Block) : Prop :=
  s.g_orphan_blocks.lookup (H.get_hash o) = some o ∧ o.prev_hash_ = H.get_hash a

def Node.Descends (H : BlockHash) (s : Node) : Block → Block → Prop := TransGen (s.WaitsFor H)

lemma descends_stored (h : s.Descends H b o) :
    s.g_orphan_blocks.lookup (H.get_hash o) = some o := by
  cases h with
  | single h => exact h.1
  | tail _ h => exact h.1

lemma child_absent (hH : CollisionFree H) (hs : s.Sound H) {a : Block}
    (ha : H.get_hash a ∉ s.g_block_index) (h : o.prev_hash_ = H.get_hash a) :
    H.get_hash o ∉ s.g_block_index := by
  intro hmem
  have hne : o.prev_hash_ ≠ "" := h ▸ H.get_hash_ne a
  obtain ⟨-, p, parent, -, hp, hk⟩ := hs.chain.tree.parent_indexed hH hmem hne
  apply ha
  rw [← h, ← hk]
  exact hs.chain.tree.entry_mem hp

lemma descends_absent (hH : CollisionFree H) (hs : s.Sound H)
    (hb : H.get_hash b ∉ s.g_block_index) (h : s.Descends H b o) :
    H.get_hash o ∉ s.g_block_index := by
  induction h with
  | single h => exact child_absent hH hs hb h.2
  | tail _ h ih => exact child_absent hH hs ih h.2

lemma descends_ne (hb : ¬ s.Known (H.get_hash b)) (h : s.Descends H b o) :
    H.get_hash o ≠ H.get_hash b := by
  intro he
  apply hb
  rw [← he]
  exact Or.inr (StdMap.mem_of_lookup (descends_stored h))

/-- The loop invariant of the cascade that `b` sets off from the pool of `s`. -/
structure Node.Connecting (H : BlockHash) (s : Node) (b : Block) (q : List String) (t : Node) :
    Prop where
  queued : ∀ {k : String}, k ∈ q → k ∈ t.g_block_index ∧
    ∃ x, (x = b ∨ s.Descends H b x) ∧ H.get_hash x = k
  root : H.get_hash b ∈ t.g_block_index
  index : ∀ {k : String}, k ∈ t.g_block_index →
    k ∈ s.g_block_index ∨ ∃ x, (x = b ∨ s.Descends H b x) ∧ H.get_hash x = k
  orphans : ∀ {k : String} {x : Block}, t.g_orphan_blocks.lookup k = some x ↔
    s.g_orphan_blocks.lookup k = some x ∧ ¬ (s.Descends H b x ∧ H.get_hash x ∈ t.g_block_index)
  closed : ∀ {a o : Block}, (a = b ∨ s.Descends H b a) → H.get_hash a ∈ t.g_block_index →
    s.WaitsFor H a o → H.get_hash o ∈ t.g_block_index ∨ H.get_hash a ∈ q

lemma descends_child {a : Block} (ha : a = b ∨ s.Descends H b a) (h : s.WaitsFor H a o) :
    s.Descends H b o := by
  cases ha with
  | inl ha => exact ha ▸ .single h
  | inr ha => exact ha.tail h

lemma connecting_child {k : String} {q : List String} (hc : s.Connecting H b (k :: q) t)
    (ht : t.Sound H) (hx : (k, x) ∈ t.g_orphan_prev_blocks) : s.Descends H b x := by
  obtain ⟨-, a, ha, hk⟩ := hc.queued List.mem_cons_self
  obtain ⟨hprev, hl⟩ := ht.agree.stored hx
  exact descends_child ha ⟨(hc.orphans.mp hl).1, hprev.symm.trans hk.symm⟩

lemma connecting_pass {k : String} {q : List String} {bs : List Block}
    (hc : s.Connecting H b (k :: q) t) (ht : t.Sound H) (h : PassDone H k bs t t') :
    s.Connecting H b (q ++ bs.map H.get_hash) t' where
  queued {l} hl := by
    cases List.mem_append.mp hl with
    | inl hl =>
      obtain ⟨hmem, hx⟩ := hc.queued (List.mem_cons_of_mem _ hl)
      exact ⟨h.grows.mem_mono hmem, hx⟩
    | inr hl =>
      obtain ⟨x, hx, rfl⟩ := List.mem_map.mp hl
      refine ⟨h.grows.mem_index.mpr (Or.inr ⟨x, hx, rfl⟩), x, Or.inr ?_, rfl⟩
      exact connecting_child hc ht (h.sub x hx)
  root := h.grows.mem_mono hc.root
  index {l} hl := by
    rcases h.grows.mem_index.mp hl with hl | ⟨x, hx, rfl⟩
    · exact hc.index hl
    · exact Or.inr ⟨x, Or.inr (connecting_child hc ht (h.sub x hx)), rfl⟩
  orphans {l x} := by
    rw [h.orphans, hc.orphans]
    constructor
    · rintro ⟨⟨hl, hno⟩, hne⟩
      refine ⟨hl, ?_⟩
      rintro ⟨hd, hmem⟩
      have hlx : t.g_orphan_blocks.lookup l = some x := hc.orphans.mpr ⟨hl, hno⟩
      rcases h.grows.mem_index.mp hmem with hmem | ⟨y, hy, hk⟩
      · exact hno ⟨hd, hmem⟩
      · obtain ⟨hprev, hly⟩ := ht.agree.stored (h.sub y hy)
        rw [hk, ← ht.agree.key hlx, hlx] at hly
        obtain rfl : x = y := Option.some.inj hly
        exact hne hprev.symm
    · rintro ⟨hl, hno⟩
      have hold : ¬ (s.Descends H b x ∧ H.get_hash x ∈ t.g_block_index) :=
        fun hx => hno ⟨hx.1, h.grows.mem_mono hx.2⟩
      refine ⟨⟨hl, hold⟩, ?_⟩
      rintro rfl
      have hw := ht.agree.waits (hc.orphans.mpr ⟨hl, hold⟩)
      exact hno ⟨connecting_child hc ht hw, h.known x hw⟩
  closed {a o} ha hmem hw := by
    rcases h.grows.mem_index.mp hmem with hmem | ⟨y, hy, hk⟩
    · rcases hc.closed ha hmem hw with ho | hq
      · exact Or.inl (h.grows.mem_mono ho)
      · rcases List.mem_cons.mp hq with rfl | hq
        · by_cases ho : H.get_hash o ∈ t.g_block_index
          · exact Or.inl (h.grows.mem_mono ho)
          · -- the child is still in the pool, so this pass has scanned it
            have hl := hc.orphans.mpr ⟨hw.1, fun hx => ho hx.2⟩
            have hwait := ht.agree.waits hl
            rw [hw.2] at hwait
            exact Or.inl (h.known o hwait)
        · exact Or.inr (List.mem_append_left _ hq)
    · exact Or.inr (List.mem_append_right _ (List.mem_map.mpr ⟨y, hy, hk⟩))

lemma connecting_start (hH : CollisionFree H) (hs : s.Sound H) (hb : ¬ s.Known (H.get_hash b))
    {p : Addr} {parent : BlockIndex} :
    s.Connecting H b [H.get_hash b] { s with toChain := s.toChain.grow H b p parent } := by
  have hfresh : H.get_hash b ∉ s.g_block_index := fun h => hb (Or.inl h)
  have hindex : ∀ {k : String}, k ∈ (s.toChain.grow H b p parent).g_block_index ↔
      k = H.get_hash b ∨ k ∈ s.g_block_index := by
    intro k
    rw [grow_index, StdMap.mem_emplace]
  have hroot := hindex.mpr (Or.inl (rfl : H.get_hash b = _))
  have hnew : ∀ {x : Block}, s.Descends H b x →
      H.get_hash x ∉ (s.toChain.grow H b p parent).g_block_index := by
    intro x hx hmem
    rcases hindex.mp hmem with he | hmem
    · exact descends_ne hb hx he
    · exact descends_absent hH hs hfresh hx hmem
  constructor
  · intro k hk
    obtain rfl := List.mem_singleton.mp hk
    exact ⟨hroot, b, Or.inl rfl, rfl⟩
  · exact hroot
  · intro k hk
    rcases hindex.mp hk with rfl | hk
    · exact Or.inr ⟨b, Or.inl rfl, rfl⟩
    · exact Or.inl hk
  · intro k x
    exact ⟨fun hl => ⟨hl, fun hx => hnew hx.1 hx.2⟩, fun hl => hl.1⟩
  · intro a o ha hmem hw
    rcases ha with rfl | ha
    · exact Or.inr List.mem_cons_self
    · exact (hnew ha hmem).elim

theorem connecting_done (hc : s.Connecting H b [] t) (hx : x = b ∨ s.Descends H b x) :
    H.get_hash x ∈ t.g_block_index := by
  have hclosed : ∀ a o, ((a = b ∨ s.Descends H b a) ∧ H.get_hash a ∈ t.g_block_index) →
      s.WaitsFor H a o → ((o = b ∨ s.Descends H b o) ∧ H.get_hash o ∈ t.g_block_index) := by
    rintro a o ⟨ha, hmem⟩ hw
    refine ⟨Or.inr (descends_child ha hw), ?_⟩
    cases hc.closed ha hmem hw with
    | inl ho => exact ho
    | inr hq => simp at hq
  have hreach : ReflTransGen (s.WaitsFor H) b x := by
    cases hx with
    | inl hx => exact hx ▸ .refl
    | inr hx => exact hx.to_reflTransGen
  exact (mem_of_closed hclosed ⟨Or.inl rfl, hc.root⟩ hreach).2

theorem cascade_connects (hH : CollisionFree H) (hs : s.Sound H) (hb : ¬ s.Known (H.get_hash b))
    (hp : b.prev_hash_ ∈ s.g_block_index) :
    ∃ t, b.process_block H s = .ok (true, t) ∧ s.Connecting H b [] t := by
  rcases process_block_spec hs b with ⟨hk, -⟩ | ⟨-, hn, -⟩ | ⟨-, p, parent, hl, hpe, hproc⟩
  · exact (hb hk).elim
  · exact (hn hp).elim
  have hfresh : H.get_hash b ∉ s.g_block_index := fun h => hb (Or.inl h)
  let u : Node := { s with toChain := s.toChain.grow H b p parent }
  have hu : u.Sound H := ⟨(Chain.Grows.single hfresh hl hpe).sound hs.chain, hs.agree⟩
  have hstart : s.Connecting H b [H.get_hash b] u := connecting_start hH hs hb
  cases hrun : connect_orphans H (H.get_hash b) u with
  | ok t =>
    refine ⟨t, by rw [hproc, hrun]; rfl, ?_⟩
    exact (connect_loop_rule (I := s.Connecting H b)
      (fun hc ht hd => connecting_pass hc ht hd) hu hstart hrun).2
  | error d =>
    obtain ⟨-, k, q, v, hc, hk⟩ := connect_loop_error (I := s.Connecting H b)
      (fun hc ht hd => connecting_pass hc ht hd) hu hstart (by simp) hrun
    exact (hk (hc.queued List.mem_cons_self).1).elim

lemma takes_block {bs : List Block} (hs : s.Sound H) (ht : Node.Takes H b bs s t)
    (hb : ¬ s.Known (H.get_hash b)) (hx : x = b ∨ s.Descends H b x)
    (hmem : H.get_hash x ∈ t.g_block_index) (hnew : H.get_hash x ∉ s.g_block_index) :
    ∃ a e, t.g_block_index.lookup (H.get_hash x) = some a ∧ t.heap[a]? = some e ∧
      e.block = x := by
  obtain ⟨a, e, hl, he, hk⟩ := ht.sound.chain.tree.prev_entry hmem
  refine ⟨a, e, hl, he, ?_⟩
  have hke : H.get_hash e.block = H.get_hash x := by
    rw [← ht.sound.chain.tree.hash he, hk]
  rcases ht.advances.grows.entry he with ⟨old, hold, hag⟩ | ⟨-, hblock⟩
  · have hin := hs.chain.tree.entry_mem hold
    rw [← hag.hash, hk] at hin
    exact (hnew hin).elim
  · rcases ht.new _ hblock with he | hw
    · rcases hx with rfl | hx
      · exact he
      · exact (descends_ne hb hx (hke.symm.trans (congrArg H.get_hash he))).elim
    · have hle := (hs.agree.stored hw).2
      rcases hx with rfl | hx
      · rw [hke] at hle
        exact (hb (Or.inr (StdMap.mem_of_lookup hle))).elim
      · rw [hke, descends_stored hx] at hle
        exact (Option.some.inj hle).symm

lemma OrphanPool.Agree.count_eq {p : OrphanPool} (hp : p.Agree H) (k : String) (x : Block) :
    p.g_orphan_prev_blocks.count (k, x) =
      if k = x.prev_hash_ ∧ p.g_orphan_blocks.lookup (H.get_hash x) = some x then 1 else 0 := by
  by_cases hx : k = x.prev_hash_ ∧ p.g_orphan_blocks.lookup (H.get_hash x) = some x
  · rw [if_pos hx, hx.1]
    exact hp.listed hx.2
  · rw [if_neg hx]
    exact List.count_eq_zero_of_not_mem fun hmem => hx (hp.stored hmem)

/-- A new block with a known parent is connected together with exactly its descendants
among the orphans, each one height above its parent. -/
theorem cascade_connects_descendants (H : BlockHash) (hH : CollisionFree H) (es : List Event)
    (s : Node) (h : node_run H es = .ok s) (b : Block) (hb : ¬ s.Known (H.get_hash b))
    (hp : b.prev_hash_ ∈ s.g_block_index) :
    ∃ t, b.process_block H s = .ok (true, t) ∧
      (∀ k, k ∈ t.g_block_index ↔
        k ∈ s.g_block_index ∨ ∃ x, (x = b ∨ s.Descends H b x) ∧ H.get_hash x = k) ∧
      (∀ x, x = b ∨ s.Descends H b x → H.get_hash x ∉ s.g_block_index ∧
        ∃ a e p parent, t.g_block_index.lookup (H.get_hash x) = some a ∧ t.heap[a]? = some e ∧
          e.block = x ∧ t.g_block_index.lookup x.prev_hash_ = some p ∧ e.pprev_ = some p ∧
          t.heap[p]? = some parent ∧ e.n_height_ = parent.n_height_ + 1) ∧
      (∀ k x, t.g_orphan_blocks.lookup k = some x ↔
        s.g_orphan_blocks.lookup k = some x ∧ ¬ s.Descends H b x) ∧
      (∀ k x, s.Descends H b x → (k, x) ∉ t.g_orphan_prev_blocks) ∧
      (∀ k x, ¬ s.Descends H b x →
        t.g_orphan_prev_blocks.count (k, x) = s.g_orphan_prev_blocks.count (k, x)) ∧
      (∀ k a e, s.g_block_index.lookup k = some a → s.heap[a]? = some e →
        t.g_block_index.lookup k = some a ∧ ∃ e', t.heap[a]? = some e' ∧
          e'.hash_ = e.hash_ ∧ e'.pprev_ = e.pprev_ ∧ e'.n_height_ = e.n_height_) := by
  obtain ⟨hs, -⟩ := node_run_sound h
  obtain ⟨t, hproc, hc⟩ := cascade_connects hH hs hb hp
  obtain ⟨bs, ht⟩ := process_block_takes hs hproc
  have hfresh : H.get_hash b ∉ s.g_block_index := fun hk => hb (Or.inl hk)
  have habsent : ∀ x, x = b ∨ s.Descends H b x → H.get_hash x ∉ s.g_block_index := by
    rintro x (rfl | hx)
    · exact hfresh
    · exact descends_absent hH hs hfresh hx
  have horphans : ∀ k x, t.g_orphan_blocks.lookup k = some x ↔
      s.g_orphan_blocks.lookup k = some x ∧ ¬ s.Descends H b x := by
    intro k x
    rw [hc.orphans]
    refine and_congr_right fun _ => not_congr ⟨fun hx => hx.1, fun hx => ?_⟩
    exact ⟨hx, connecting_done hc (Or.inr hx)⟩
  refine ⟨t, hproc, ?_, ?_, horphans, ?_, ?_, ?_⟩
  · intro k
    refine ⟨hc.index, ?_⟩
    rintro (hk | ⟨x, hx, rfl⟩)
    · exact ht.advances.grows.mem_mono hk
    · exact connecting_done hc hx
  · intro x hx
    refine ⟨habsent x hx, ?_⟩
    obtain ⟨a, e, hl, he, rfl⟩ :=
      takes_block hs ht hb hx (connecting_done hc hx) (habsent x hx)
    have ha : a ≠ 0 := by
      rintro rfl
      apply habsent _ hx
      rw [(ht.sound.chain.tree.root_entry he).1]
      exact StdMap.mem_of_lookup hs.chain.tree.genesis_lookup
    obtain ⟨p, parent, -, hpp, hpe, hk, hheight⟩ := ht.sound.chain.tree.parent he ha
    exact ⟨a, e, p, parent, hl, he, rfl, ht.sound.chain.tree.lookup.mpr ⟨parent, hpe, hk⟩,
      hpp, hpe, hheight⟩
  · intro k x hx hmem
    exact ((horphans _ _).mp (ht.sound.agree.stored hmem).2).2 hx
  · intro k x hx
    rw [ht.sound.agree.count_eq, hs.agree.count_eq]
    simp only [horphans, hx, not_false_eq_true, and_true]
  · intro k a e hl he
    obtain ⟨e', he', hag⟩ := ht.advances.grows.keeps.entry he
    exact ⟨ht.advances.grows.keeps.lookup hl, e', he', hag.hash, hag.pprev, hag.height⟩

-- an orphan, its parent, and a block of another branch
def sampleForkRun : List Event :=
  [.receive sampleTwinChild, .receive ⟨9, "elsewhere", 5, 0, "peer3"⟩]

theorem cascade_connects_descendants_sample :
    ∃ s t, node_run plainHash sampleForkRun = .ok s ∧
      sampleTwin.process_block plainHash s = .ok (true, t) ∧
      plainHash.get_hash sampleTwinChild ∈ t.g_block_index ∧
      ∀ k x, t.g_orphan_blocks.lookup k = some x ↔
        s.g_orphan_blocks.lookup k = some x ∧ ¬ s.Descends plainHash sampleTwin x := by
  obtain ⟨s, hs, hstate⟩ := holdsAfter_iff.mp (show holdsAfter (node_run plainHash sampleForkRun)
    (fun s => ¬ s.Known (plainHash.get_hash sampleTwin) ∧
      sampleTwin.prev_hash_ ∈ s.g_block_index ∧
      s.g_orphan_blocks.lookup (plainHash.get_hash sampleTwinChild) = some sampleTwinChild) =
        true by decide)
  obtain ⟨hb, hp, hl⟩ := of_decide_eq_true hstate
  obtain ⟨t, hproc, hindex, -, horphans, -⟩ :=
    cascade_connects_descendants plainHash plainHash_collisionFree sampleForkRun s hs sampleTwin
      hb hp
  have hchild : s.Descends plainHash sampleTwin sampleTwinChild := .single ⟨hl, rfl⟩
  exact ⟨s, t, hs, hproc, (hindex _).mpr (Or.inr ⟨_, Or.inr hchild, rfl⟩), horphans⟩

end Xcoin
