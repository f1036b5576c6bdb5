import Xcoin.Blocks.Agreement
import Xcoin.Node.BestChain
import Xcoin.Network.Heights

/-! Mining: the tip is a leaf of the block tree, so a mined block is always new and always
becomes the next tip. -/

namespace Xcoin

open Lib.Runs Lib.StdMaps

variable {H : BlockHash} {c : Chain} {t : Addr} {e : BlockIndex}

lemma mined_prev (ht : c.Tree H) (htip : c.TipAt t e) (nonce : Int32) (name : String) :
    c.g_block_index.lookup (Block.of_index e nonce name).prev_hash_ = some t :=
  ht.lookup.mpr ⟨e, htip.entry, rfl⟩

theorem mined_fresh (hH : CollisionFree H) (ht : c.Tree H) (htip : c.TipAt t e) (nonce : Int32)
    (name : String) : H.get_hash (Block.of_index e nonce name) ∉ c.g_block_index := by
  intro hmem
  have hne : (Block.of_index e nonce name).prev_hash_ ≠ "" := by
    change e.hash_ ≠ ""
    rw [ht.hash htip.entry]
    exact H.get_hash_ne e.block
  -- an entry with the mined header would be a child of the tip
  obtain ⟨a, p, parent, hpp, hp, hk⟩ := ht.parent_indexed hH hmem hne
  obtain ⟨rfl, -⟩ := ht.entry_unique hp htip.entry hk
  exact tip_leaf ht htip hpp

lemma mined_index (ht : c.Tree H) (htip : c.TipAt t e) (hb : c.g_best_height + 1 < 2 ^ 31)
    (nonce : Int32) (name : String) :
    ((Block.of_index e nonce name).index_.toNat : ℤ) = c.g_best_height + 1 := by
  have hpos := ht.height_nonneg htip.entry
  have hheight := htip.height
  have hcast : (e.n_height_.toNat : ℤ) = e.n_height_ := Int.toNat_of_nonneg hpos
  have hlt : e.n_height_.toNat < 2 ^ 31 := by omega
  have hindex := ofInt_succ hlt
  rw [hcast] at hindex
  change ((UInt32.ofInt (e.n_height_ + 1)).toNat : ℤ) = _
  rw [hindex]
  omega

lemma mined_higher (htip : c.TipAt t e) (b : Block) :
    (BlockIndex.child H b t e).n_height_ > c.g_best_height := by
  rw [child_height, htip.height]
  exact lt_add_one _

lemma mined_linked (hn : c.NextSound) (htip : c.TipAt t e) (nonce : Int32) (name : String) :
    (c.grow H (Block.of_index e nonce name) t e).pnext t = some c.heap.length := by
  have hon : (Block.of_index e nonce name).OnTip H c := (on_tip_iff hn).mpr htip.hash.symm
  rw [grow_pnext_linked htip.entry (mined_higher htip _) hon, if_pos rfl]

/-- In every state a run reaches, the tip has no child, and the block mined on it is new, is
accepted, and becomes the tip one height further, linked from the old one. -/
theorem mining_extends_tip (H : BlockHash) (hH : CollisionFree H)
    (hg : H.get_hash Block.genesis = g_genesis_hash) (es : List Event) (s : Node)
    (h : node_run H es = .ok s) (hb : s.g_best_height + 1 < 2 ^ 31) :
    ∃ t blk_idx, s.g_best_index = some t ∧ s.deref (some t) = .ok blk_idx ∧
      (∀ (a : Addr) (x : BlockIndex), s.heap[a]? = some x → x.pprev_ ≠ some t) ∧
      ∀ (nonce : Int32) (name : String),
        H.get_hash (Block.of_index blk_idx nonce name) ∉ s.g_block_index ∧
        ∃ (c : Chain) (a : Addr) (x y : BlockIndex),
          (Block.of_index blk_idx nonce name).accept_block H s.toChain = .ok (true, c) ∧
          c.g_best_index = some a ∧ c.heap[a]? = some x ∧
          x.hash_ = H.get_hash (Block.of_index blk_idx nonce name) ∧
          x.n_height_ = s.g_best_height + 1 ∧ c.g_best_height = s.g_best_height + 1 ∧
          ((Block.of_index blk_idx nonce name).index_.toNat : ℤ) = s.g_best_height + 1 ∧
          c.heap[t]? = some y ∧ y.pnext_ = some a ∧
          (nonce < 100 → on_mine H nonce name s =
            .ok (Block.of_index blk_idx nonce name, { s with toChain := c })) := by
  obtain ⟨hs, bs, had⟩ := node_run_sound h
  have hn : s.NextSound := (linked_iff hg had.grows).1
  obtain ⟨t, e, htip⟩ := hs.chain.tip
  have htree := hs.chain.tree
  refine ⟨t, e, htip.index, by rw [Chain.deref, Option.bind_some, htip.entry], ?_, ?_⟩
  · intro a x hx hp
    exact tip_leaf htree htip (a := a) (by rw [pprev_entry hx, hp])
  · intro nonce name
    have hfresh := mined_fresh hH htree htip nonce name
    have hprev := mined_prev htree htip nonce name
    have hhigh := mined_higher (H := H) htip (Block.of_index e nonce name)
    have hnew := tip_grow_higher htip hhigh
    have hheight : (BlockIndex.child H (Block.of_index e nonce name) t e).n_height_ =
        s.g_best_height + 1 := by
      rw [child_height, htip.height]
    obtain ⟨y, hy, hnext⟩ := Option.bind_eq_some_iff.mp (mined_linked (H := H) hn htip nonce name)
    refine ⟨hfresh, _, _, _, y, ?_, hnew.index, hnew.entry, rfl, hheight,
      hnew.height.trans hheight, mined_index htree htip hb nonce name, hy, hnext, ?_⟩
    · rw [Block.accept_block, if_neg hfresh, if_pos (StdMap.mem_of_lookup hprev),
        add_to_chain_grow hfresh hprev htip.entry]
    · intro hnonce
      obtain ⟨t', e', htip', hcases⟩ := on_mine_spec hs nonce name
      obtain rfl : t = t' := htip.eq htip'.index
      obtain rfl : e = e' := Option.some.inj (htip.entry.symm.trans htip'.entry)
      rcases hcases with ⟨hk, -⟩ | ⟨-, hm⟩
      · exact (hfresh hk).elim
      · have hserial : (Block.of_index e nonce name).serialize =
            .ok (Block.of_index e nonce name) := if_pos hnonce
        rw [hm, hserial]
        rfl

theorem mining_extends_tip_sample :
    ∃ s, node_run plainHash sampleTwinRun = .ok s ∧
      ∃ t blk_idx, s.g_best_index = some t ∧ s.deref (some t) = .ok blk_idx ∧
        plainHash.get_hash (Block.of_index blk_idx 9 "peer0") ∉ s.g_block_index := by
  obtain ⟨s, hs, hheight⟩ := holdsAfter_iff.mp (show holdsAfter
    (node_run plainHash sampleTwinRun) (fun s => s.g_best_height + 1 < 2 ^ 31) = true by decide)
  obtain ⟨t, e, ht, he, -, hmine⟩ := mining_extends_tip plainHash plainHash_collisionFree
    (by decide) sampleTwinRun s hs (of_decide_eq_true hheight)
  exact ⟨s, hs, t, e, ht, he, (hmine 9 "peer0").1⟩

end Xcoin
