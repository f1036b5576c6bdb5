import Xcoin.Node.Delivery
import Xcoin.Blocks.Agreement
import Xcoin.Lib.Closure

/-! The index and the orphan pool after deliveries, as a function of the blocks delivered. Heights
are integers, the code's `int` while no chain has 2^31 blocks. -/

namespace Xcoin

open Lib.Runs Lib.StdMaps Lib.Closure Relation

variable (H : BlockHash)

def ChildIn (B : Finset Block) (a b : Block) : Prop := b ∈ B ∧ b.prev_hash_ = H.get_hash a

/-- The `prev_hash_` chain of the block inside `B` reaches genesis. -/
def Connected (B : Finset Block) : Block → Prop := ReflTransGen (ChildIn H B) Block.genesis

structure Node.Holds (bs : List Block) (s : Node) : Prop where
  made : s.MadeOf (· ∈ bs)
  known : ∀ {b : Block}, b ∈ bs → s.Known (H.get_hash b)

variable {H} {s s' : Node} {b : Block} {bs bs' : List Block} {B : Finset Block}

lemma receive_holds (hs : s.Sound H) (hh : s.Holds H bs) (h : step H s (.receive b) = .ok s') :
    s'.Holds H (bs ++ [b]) := by
  obtain ⟨⟨r, t⟩, hp, rfl⟩ := map_ok.mp h
  obtain ⟨new, htakes⟩ := process_block_takes hs hp
  have hmade : s.MadeOf (· ∈ bs ++ [b]) := hh.made.mono fun x hx => List.mem_append_left _ hx
  constructor
  · exact receive_made hs hmade (by simp) hp
  · intro x hx
    cases List.mem_append.mp hx with
    | inl hx => exact htakes.advances.known (hh.known hx)
    | inr hx =>
      obtain rfl := List.mem_singleton.mp hx
      exact htakes.known

theorem deliveries_hold (h : run (fun s b => step H s (.receive b)) (Node.start H) bs = .ok s) :
    s.Holds H bs := by
  induction bs using List.reverseRecOn generalizing s with
  | nil =>
    obtain rfl : Node.start H = s := by simpa using h
    exact ⟨start_made, fun hb => by simp at hb⟩
  | append_singleton bs b ih =>
    obtain ⟨t, ht, hst⟩ := (run_snoc_ok _).mp h
    exact receive_holds (deliveries_resolved ht).1 (ih ht) hst

structure Node.Settled (H : BlockHash) (B : Finset Block) (s : Node) : Prop where
  sound : s.Sound H
  resolved : s.Resolved
  made : s.MadeOf (· ∈ B)
  known : ∀ {b : Block}, b ∈ B → s.Known (H.get_hash b)
  inj : Set.InjOn H.get_hash (insert Block.genesis B : Finset Block)

namespace Node.Settled

lemma entry_mem (h : s.Settled H B) {a : Addr} {e : BlockIndex} (he : s.heap[a]? = some e) :
    e.block ∈ insert Block.genesis B := Finset.mem_insert.mpr (h.made.entry he)

lemma entry_connected (h : s.Settled H B) {a : Addr} {e : BlockIndex}
    (he : s.heap[a]? = some e) : Connected H B e.block := by
  induction a using Nat.strong_induction_on generalizing e with
  | h a ih =>
    have htree := h.sound.chain.tree
    cases h.made.entry he with
    | inl hg =>
      rw [hg]
      exact .refl
    | inr hm =>
      by_cases ha : a = 0
      · subst ha
        rw [(htree.root_entry he).1]
        exact .refl
      · obtain ⟨p, parent, hlt, -, hp, hph, -⟩ := htree.parent he ha
        refine (ih p hlt hp).tail ⟨hm, ?_⟩
        rw [← hph, htree.hash hp]

lemma orphan_unique (h : s.Settled H B) (hb : b ∈ B) (ho : H.get_hash b ∈ s.g_orphan_blocks) :
    s.g_orphan_blocks.lookup (H.get_hash b) = some b := by
  obtain ⟨x, hx⟩ := StdMap.mem_iff_lookup.mp ho
  have hxB : x ∈ B := h.made.orphan hx
  obtain rfl : x = b := h.inj (Finset.mem_insert_of_mem hxB) (Finset.mem_insert_of_mem hb)
    (h.sound.agree.key hx).symm
  exact hx

lemma child_mem (h : s.Settled H B) {x y : Block} (hx : H.get_hash x ∈ s.g_block_index)
    (hxy : ChildIn H B x y) : H.get_hash y ∈ s.g_block_index := by
  obtain ⟨hy, hprev⟩ := hxy
  cases h.known hy with
  | inl hk => exact hk
  | inr ho =>
    have hw := h.sound.agree.waits (h.orphan_unique hy ho)
    rw [hprev] at hw
    exact (h.resolved.waits hw hx).elim

theorem connected_iff (h : s.Settled H B) (b : Block) :
    Connected H B b ↔ b ∈ insert Block.genesis B ∧ H.get_hash b ∈ s.g_block_index := by
  have htree := h.sound.chain.tree
  refine (mem_iff_reachable (r := ChildIn H B)
    (S := fun b => b ∈ insert Block.genesis B ∧ H.get_hash b ∈ s.g_block_index) ?_ ?_ ?_).symm
  · exact ⟨Finset.mem_insert_self _ _, StdMap.mem_of_lookup htree.genesis_lookup⟩
  · rintro x y ⟨-, hx⟩ hxy
    exact ⟨Finset.mem_insert_of_mem hxy.1, h.child_mem hx hxy⟩
  · rintro x ⟨hx, hk⟩
    obtain ⟨a, e, he, hek⟩ := htree.mem_index.mp hk
    rw [htree.hash he] at hek
    rw [← h.inj (h.entry_mem he) hx hek]
    exact h.entry_connected he

theorem keys_iff (h : s.Settled H B) (k : String) :
    k ∈ s.g_block_index ↔ ∃ b, Connected H B b ∧ H.get_hash b = k := by
  constructor
  · intro hk
    obtain ⟨a, e, he, hek⟩ := h.sound.chain.tree.mem_index.mp hk
    exact ⟨e.block, h.entry_connected he, by rw [← h.sound.chain.tree.hash he, hek]⟩
  · rintro ⟨b, hconn, rfl⟩
    exact ((h.connected_iff b).mp hconn).2

theorem orphans_iff (h : s.Settled H B) (k : String) (b : Block) :
    s.g_orphan_blocks.lookup k = some b ↔ k = H.get_hash b ∧ b ∈ B ∧ ¬ Connected H B b := by
  constructor
  · intro hl
    refine ⟨h.sound.agree.key hl, h.made.orphan hl, ?_⟩
    intro hconn
    have hk := ((h.connected_iff b).mp hconn).2
    rw [← h.sound.agree.key hl] at hk
    exact h.resolved.apart (StdMap.mem_of_lookup hl) hk
  · rintro ⟨rfl, hb, hconn⟩
    have hk : H.get_hash b ∉ s.g_block_index :=
      fun hk => hconn ((h.connected_iff b).mpr ⟨Finset.mem_insert_of_mem hb, hk⟩)
    exact h.orphan_unique hb ((h.known hb).resolve_left hk)

end Node.Settled

structure Node.SameOutcome (s s' : Node) : Prop where
  keys : ∀ k, k ∈ s.g_block_index ↔ k ∈ s'.g_block_index
  places : ∀ {k : String} {a a' : Addr} {e e' : BlockIndex},
    s.g_block_index.lookup k = some a → s.heap[a]? = some e →
    s'.g_block_index.lookup k = some a' → s'.heap[a']? = some e' →
    e.n_height_ = e'.n_height_ ∧ s.parent_hash e = s'.parent_hash e'
  orphans : ∀ k, s.g_orphan_blocks.lookup k = s'.g_orphan_blocks.lookup k
  height : s.g_best_height = s'.g_best_height

lemma settled_parents (h : s.Settled H B) (h' : s'.Settled H B) :
    s.toChain.SameParents s'.toChain := by
  intro a a' e e' he he' hk
  rw [h.sound.chain.tree.hash he, h'.sound.chain.tree.hash he'] at hk
  rw [h.inj (h.entry_mem he) (h'.entry_mem he') hk]

lemma settled_height_le (h : s.Settled H B) (h' : s'.Settled H B) :
    s.g_best_height ≤ s'.g_best_height := by
  obtain ⟨t, e, ht⟩ := h.sound.chain.tip
  obtain ⟨t', e', ht'⟩ := h'.sound.chain.tip
  have hk : e.hash_ ∈ s'.g_block_index := by
    rw [h'.keys_iff, ← h.keys_iff]
    exact h.sound.chain.tree.entry_mem ht.entry
  obtain ⟨a, x, hx, hxk⟩ := h'.sound.chain.tree.mem_index.mp hk
  have hplace := h.sound.chain.tree.same_place h'.sound.chain.tree (settled_parents h h')
    ht.entry hx hxk.symm
  rw [ht.height, ht'.height, hplace.1]
  exact ht'.max hx

theorem settled_outcome (h : s.Settled H B) (h' : s'.Settled H B) : s.SameOutcome s' where
  keys k := by rw [h.keys_iff, h'.keys_iff]
  places {k a a' e e'} hl he hl' he' := by
    have hk := h.sound.chain.tree.lookup_hash hl he
    have hk' := h'.sound.chain.tree.lookup_hash hl' he'
    exact h.sound.chain.tree.same_place h'.sound.chain.tree (settled_parents h h') he he'
      (hk.trans hk'.symm)
  orphans k := by
    apply Option.ext
    intro b
    rw [h.orphans_iff, h'.orphans_iff]
  height := le_antisymm (settled_height_le h h') (settled_height_le h' h)

lemma deliveries_settled (hB : Set.InjOn H.get_hash (insert Block.genesis B : Finset Block))
    (hbs : ∀ b, b ∈ bs ↔ b ∈ B) (h : node_run H (bs.map .receive) = .ok s) : s.Settled H B := by
  rw [node_run_eq, run_map] at h
  obtain ⟨hs, hr⟩ := deliveries_resolved h
  have hh := deliveries_hold h
  exact ⟨hs, hr, hh.made.mono fun b hb => (hbs b).mp hb, fun hb => hh.known ((hbs _).mpr hb), hB⟩

/-- Two runs over the same blocks, in any order and with repeats, have the same outcome: the
index holds the blocks connected to genesis, and the orphans are the others. -/
theorem delivery_order_irrelevant (H : BlockHash) (B : Finset Block)
    (hB : Set.InjOn H.get_hash (insert Block.genesis B : Finset Block)) (bs bs' : List Block)
    (hbs : ∀ b, b ∈ bs ↔ b ∈ B) (hbs' : ∀ b, b ∈ bs' ↔ b ∈ B) (s s' : Node)
    (h : node_run H (bs.map .receive) = .ok s) (h' : node_run H (bs'.map .receive) = .ok s') :
    s.SameOutcome s' ∧
    (∀ k, k ∈ s.g_block_index ↔ ∃ b, Connected H B b ∧ H.get_hash b = k) ∧
    ∀ k b, s.g_orphan_blocks.lookup k = some b ↔
      k = H.get_hash b ∧ b ∈ B ∧ ¬ Connected H B b := by
  have hs := deliveries_settled hB hbs h
  have hs' := deliveries_settled hB hbs' h'
  exact ⟨settled_outcome hs hs', hs.keys_iff, hs.orphans_iff⟩

def samplePeers : Finset Block := {samplePeer1, samplePeer2, samplePeer3}

theorem delivery_order_irrelevant_sample :
    ∃ s s', node_run (.ofSHA1 sampleDigests)
        ([samplePeer1, samplePeer3, samplePeer2].map .receive) = .ok s ∧
      node_run (.ofSHA1 sampleDigests)
        ([samplePeer3, samplePeer1, samplePeer2, samplePeer1].map .receive) = .ok s' ∧
      s.SameOutcome s' := by
  obtain ⟨s, hs, -⟩ := holdsAfter_iff.mp (show holdsAfter (node_run (.ofSHA1 sampleDigests)
    ([samplePeer1, samplePeer3, samplePeer2].map .receive)) (fun _ => true) = true by decide)
  obtain ⟨s', hs', -⟩ := holdsAfter_iff.mp (show holdsAfter (node_run (.ofSHA1 sampleDigests)
    ([samplePeer3, samplePeer1, samplePeer2, samplePeer1].map .receive))
      (fun _ => true) = true by decide)
  have hB : ∀ a ∈ insert Block.genesis samplePeers, ∀ b ∈ insert Block.genesis samplePeers,
      a.get_hash sampleDigests = b.get_hash sampleDigests → a = b := by decide
  refine ⟨s, s', hs, hs', (delivery_order_irrelevant (.ofSHA1 sampleDigests) samplePeers
    (fun a ha b hb => hB a ha b hb) _ _ ?_ ?_ s s' hs hs').1⟩
  · intro b
    simp only [samplePeers, List.mem_cons, List.not_mem_nil, Finset.mem_insert,
      Finset.mem_singleton]
    tauto
  · intro b
    simp only [samplePeers, List.mem_cons, List.not_mem_nil, Finset.mem_insert,
      Finset.mem_singleton]
    tauto

end Xcoin
