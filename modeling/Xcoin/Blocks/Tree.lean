import Xcoin.Blocks.Growth
import Xcoin.Lib.Chase

/-! The block index is a tree rooted at genesis, kept in order of insertion. -/

namespace Xcoin

open Lib.Runs Lib.StdMaps Lib.Chase

variable (H : BlockHash)

structure Chain.Tree (c : Chain) : Prop where
  root : ∃ g, c.heap[0]? = some g ∧ g.block = Block.genesis ∧ g.pprev_ = none ∧ g.n_height_ = 0
  hash : ∀ {a : Addr} {e : BlockIndex}, c.heap[a]? = some e → e.hash_ = H.get_hash e.block
  lookup : ∀ {k : String} {a : Addr},
    c.g_block_index.lookup k = some a ↔ ∃ e, c.heap[a]? = some e ∧ e.hash_ = k
  parent : ∀ {a : Addr} {e : BlockIndex}, c.heap[a]? = some e → a ≠ 0 →
    ∃ p parent, p < a ∧ e.pprev_ = some p ∧ c.heap[p]? = some parent ∧
      parent.hash_ = e.block.prev_hash_ ∧ e.n_height_ = parent.n_height_ + 1

structure Chain.TipAt (c : Chain) (t : Addr) (e : BlockIndex) : Prop where
  index : c.g_best_index = some t
  entry : c.heap[t]? = some e
  hash : c.g_best_chain_hash = e.hash_
  height : c.g_best_height = e.n_height_
  max : ∀ {a : Addr} {x : BlockIndex}, c.heap[a]? = some x → x.n_height_ ≤ e.n_height_
  first : ∀ {a : Addr} {x : BlockIndex}, a < t → c.heap[a]? = some x → x.n_height_ < e.n_height_

structure Chain.Sound (c : Chain) : Prop where
  tree : c.Tree H
  tip : ∃ t e, c.TipAt t e

def Chain.rooted : Chain where
  heap := [{ BlockIndex.new H Block.genesis with phash_ := some (H.get_hash Block.genesis) }]
  g_block_index := StdMap.emplace ∅ (H.get_hash Block.genesis) 0
  g_genesis_indexblk := if H.get_hash Block.genesis = g_genesis_hash then some 0 else none
  g_best_height := 0
  g_best_chain_hash := H.get_hash Block.genesis
  g_best_index := some 0

lemma rooted_lookup (k : String) : (Chain.rooted H).g_block_index.lookup k =
    if k = H.get_hash Block.genesis then some 0 else none := by
  rw [Chain.rooted, StdMap.lookup_emplace (AList.notMem_empty _), AList.lookup_empty]

theorem add_genesis : Block.genesis.add_to_chain H .init = .ok (true, .rooted H) := by
  have hfresh : H.get_hash Block.genesis ∉ Chain.init.g_block_index := AList.notMem_empty _
  have hne : Block.genesis.prev_hash_ ≠ H.get_hash Block.genesis :=
    (H.get_hash_ne Block.genesis).symm
  have hprev : (StdMap.emplace Chain.init.g_block_index (H.get_hash Block.genesis)
      Chain.init.heap.length).lookup Block.genesis.prev_hash_ = none := by
    rw [StdMap.lookup_emplace hfresh, if_neg hne]
    rfl
  have hnew : Block.genesis.new_index H .init = .ok { Chain.init with
      heap := (Chain.rooted H).heap
      g_block_index := (Chain.rooted H).g_block_index } := by
    simp only [Block.new_index, hprev]
    rfl
  rw [Block.add_to_chain, if_neg hfresh, hnew]
  change (Block.genesis.update_best H 0 _ >>= _) = _
  have hcase : ¬ Block.genesis.prev_hash_ = "DEADBEEF" := by decide
  by_cases hg : H.get_hash Block.genesis = g_genesis_hash
  · simp [Block.update_best, Chain.deref, Chain.rooted, Chain.init, BlockIndex.new, hg, bind,
      Except.bind, pure, Except.pure]
  · simp [Block.update_best, Chain.deref, Chain.rooted, Chain.init, BlockIndex.new, hg, hcase,
      bind, Except.bind, pure, Except.pure]

variable {H} {c c' : Chain} {b : Block} {p : Addr} {parent : BlockIndex}

lemma rooted_entry {a : Addr} {e : BlockIndex} (h : (Chain.rooted H).heap[a]? = some e) :
    a = 0 ∧ e = { BlockIndex.new H Block.genesis with
      phash_ := some (H.get_hash Block.genesis) } := by
  cases a with
  | zero => exact ⟨rfl, (Option.some.inj h).symm⟩
  | succ a => simp [Chain.rooted] at h

lemma rooted_sound : (Chain.rooted H).Sound H where
  tree := {
    root := ⟨_, rfl, rfl, rfl, rfl⟩
    hash := fun h => by
      obtain ⟨-, rfl⟩ := rooted_entry h
      rfl
    lookup := fun {k a} => by
      rw [rooted_lookup]
      constructor
      · intro h
        split at h
        · rename_i hk
          obtain rfl : 0 = a := Option.some.inj h
          exact ⟨_, rfl, hk.symm⟩
        · simp at h
      · rintro ⟨e, he, rfl⟩
        obtain ⟨rfl, rfl⟩ := rooted_entry he
        exact if_pos rfl
    parent := fun h ha => (ha (rooted_entry h).1).elim }
  tip := ⟨0, _, {
    index := rfl
    entry := rfl
    hash := rfl
    height := rfl
    max := fun h => by
      obtain ⟨-, rfl⟩ := rooted_entry h
      exact le_rfl
    first := fun h => (Nat.not_lt_zero _ h).elim }⟩

namespace Chain.Tree

lemma root_entry (ht : c.Tree H) {e : BlockIndex} (h : c.heap[0]? = some e) :
    e.block = Block.genesis ∧ e.pprev_ = none ∧ e.n_height_ = 0 := by
  obtain ⟨g, hg, hroot⟩ := ht.root
  obtain rfl : e = g := Option.some.inj (h.symm.trans hg)
  exact hroot

lemma lookup_hash (ht : c.Tree H) {k : String} {a : Addr} {e : BlockIndex}
    (hl : c.g_block_index.lookup k = some a) (he : c.heap[a]? = some e) : e.hash_ = k := by
  obtain ⟨x, hx, hk⟩ := ht.lookup.mp hl
  obtain rfl : e = x := Option.some.inj (he.symm.trans hx)
  exact hk

lemma mem_index (ht : c.Tree H) {k : String} :
    k ∈ c.g_block_index ↔ ∃ a : Addr, ∃ e : BlockIndex, c.heap[a]? = some e ∧ e.hash_ = k := by
  rw [StdMap.mem_iff_lookup]
  exact exists_congr fun a => ht.lookup

lemma entry_mem (ht : c.Tree H) {a : Addr} {e : BlockIndex} (h : c.heap[a]? = some e) :
    e.hash_ ∈ c.g_block_index := ht.mem_index.mpr ⟨a, e, h, rfl⟩

lemma prev_entry (ht : c.Tree H) {k : String} (h : k ∈ c.g_block_index) :
    ∃ p parent, c.g_block_index.lookup k = some p ∧ c.heap[p]? = some parent ∧
      parent.hash_ = k := by
  obtain ⟨p, hp⟩ := StdMap.mem_iff_lookup.mp h
  obtain ⟨parent, hpe, hk⟩ := ht.lookup.mp hp
  exact ⟨p, parent, hp, hpe, hk⟩

lemma entry_unique (ht : c.Tree H) {a a' : Addr} {e e' : BlockIndex} (h : c.heap[a]? = some e)
    (h' : c.heap[a']? = some e') (hk : e.hash_ = e'.hash_) : a = a' ∧ e = e' := by
  have ha : c.g_block_index.lookup e.hash_ = some a := ht.lookup.mpr ⟨e, h, rfl⟩
  have ha' : c.g_block_index.lookup e.hash_ = some a' := ht.lookup.mpr ⟨e', h', hk.symm⟩
  obtain rfl : a = a' := Option.some.inj (ha.symm.trans ha')
  exact ⟨rfl, Option.some.inj (h.symm.trans h')⟩

lemma root_iff (ht : c.Tree H) {a : Addr} {e : BlockIndex} (h : c.heap[a]? = some e) :
    e.hash_ = H.get_hash Block.genesis ↔ a = 0 := by
  obtain ⟨g, hg, hgb, -, -⟩ := ht.root
  have hgk : g.hash_ = H.get_hash Block.genesis := by rw [ht.hash hg, hgb]
  constructor
  · intro hk
    exact (ht.entry_unique h hg (hk.trans hgk.symm)).1
  · rintro rfl
    rw [ht.hash h, (ht.root_entry h).1]

lemma genesis_lookup (ht : c.Tree H) :
    c.g_block_index.lookup (H.get_hash Block.genesis) = some 0 := by
  obtain ⟨g, hg, -⟩ := ht.root
  exact ht.lookup.mpr ⟨g, hg, (ht.root_iff hg).mpr rfl⟩

lemma not_genesis (ht : c.Tree H) {a : Addr} {e : BlockIndex} (h : c.heap[a]? = some e)
    (ha : a ≠ 0) : e.block ≠ Block.genesis := by
  intro hg
  apply ha
  rw [← ht.root_iff h, ht.hash h, hg]

theorem grow (ht : c.Tree H) (hfresh : H.get_hash b ∉ c.g_block_index)
    (hprev : c.g_block_index.lookup b.prev_hash_ = some p) (hp : c.heap[p]? = some parent) :
    (c.grow H b p parent).Tree H where
  root := by
    obtain ⟨g, hg, hb, hpp, hh⟩ := ht.root
    obtain ⟨g', hg', hag⟩ := grow_old H b p parent hg
    exact ⟨g', hg', hag.block.trans hb, hag.pprev.trans hpp, hag.height.trans hh⟩
  hash h := by
    rcases grow_entry h with ⟨-, rfl⟩ | ⟨e, he, hag⟩
    · rfl
    · rw [hag.hash, hag.block, ht.hash he]
  lookup {k a} := by
    rw [grow_lookup hfresh]
    constructor
    · intro h
      split at h
      · rename_i hk
        obtain rfl : c.heap.length = a := Option.some.inj h
        exact ⟨_, grow_child, hk.symm⟩
      · obtain ⟨e, he, rfl⟩ := ht.lookup.mp h
        obtain ⟨e', he', hag⟩ := grow_old H b p parent he
        exact ⟨e', he', hag.hash⟩
    · rintro ⟨e', he', rfl⟩
      rcases grow_entry he' with ⟨rfl, rfl⟩ | ⟨e, he, hag⟩
      · exact if_pos rfl
      · have hne : e'.hash_ ≠ H.get_hash b := by
          intro h
          exact hfresh (h ▸ hag.hash ▸ ht.entry_mem he)
        rw [if_neg hne, hag.hash]
        exact ht.lookup.mpr ⟨e, he, rfl⟩
  parent {a e'} h ha := by
    rcases grow_entry h with ⟨rfl, rfl⟩ | ⟨e, he, hag⟩
    · obtain ⟨parent', hp', hag⟩ := grow_old H b p parent hp
      have hk := ht.lookup_hash hprev hp
      refine ⟨p, parent', entry_lt hp, rfl, hp', ?_, ?_⟩
      · rw [hag.hash, hk]
        rfl
      · rw [hag.height]
        rfl
    · obtain ⟨q, x, hqa, hpq, hx, hxh, hht⟩ := ht.parent he ha
      obtain ⟨x', hx', hagx⟩ := grow_old H b p parent hx
      refine ⟨q, x', hqa, hag.pprev.trans hpq, hx', ?_, ?_⟩
      · rw [hagx.hash, hag.block, hxh]
      · rw [hag.height, hagx.height, hht]

end Chain.Tree

lemma Chain.TipAt.eq {t x : Addr} {e : BlockIndex} (h : c.TipAt t e)
    (hx : c.g_best_index = some x) : t = x := Option.some.inj (h.index.symm.trans hx)

lemma tip_grow_higher {t : Addr} {e : BlockIndex} (ht : c.TipAt t e)
    (hh : (BlockIndex.child H b p parent).n_height_ > c.g_best_height) :
    (c.grow H b p parent).TipAt c.heap.length (BlockIndex.child H b p parent) := by
  have hlt : ∀ {a : Addr} {x : BlockIndex}, c.heap[a]? = some x →
      x.n_height_ < (BlockIndex.child H b p parent).n_height_ := by
    intro a x hx
    have hmax := ht.max hx
    have hheight := ht.height
    omega
  constructor
  · simp only [Chain.grow, if_pos hh]
  · exact grow_child
  · simp only [Chain.grow, if_pos hh, child_hash]
  · simp only [Chain.grow, if_pos hh]
  · intro a x hx
    rcases grow_entry hx with ⟨-, rfl⟩ | ⟨y, hy, hag⟩
    · exact le_rfl
    · rw [hag.height]
      exact (hlt hy).le
  · intro a x ha hx
    rcases grow_entry hx with ⟨rfl, -⟩ | ⟨y, hy, hag⟩
    · exact (lt_irrefl _ ha).elim
    · rw [hag.height]
      exact hlt hy

lemma tip_grow_lower {t : Addr} {e : BlockIndex} (ht : c.TipAt t e)
    (hh : ¬ (BlockIndex.child H b p parent).n_height_ > c.g_best_height) :
    (c.grow H b p parent).TipAt t e := by
  have hle : (BlockIndex.child H b p parent).n_height_ ≤ e.n_height_ := by
    rw [← ht.height]
    exact not_lt.mp hh
  have htl : t < c.heap.length := entry_lt ht.entry
  have hheap : (c.grow H b p parent).heap = c.heap ++ [BlockIndex.child H b p parent] := by
    simp only [Chain.grow, if_neg hh]
  constructor
  · simp only [Chain.grow, if_neg hh, ht.index]
  · rw [hheap, List.getElem?_append_left htl, ht.entry]
  · simp only [Chain.grow, if_neg hh, ht.hash]
  · simpa only [Chain.grow, if_neg hh] using ht.height
  · intro a x hx
    rcases grow_entry hx with ⟨-, rfl⟩ | ⟨y, hy, hag⟩
    · exact hle
    · rw [hag.height]
      exact ht.max hy
  · intro a x ha hx
    rcases grow_entry hx with ⟨rfl, -⟩ | ⟨y, hy, hag⟩
    · exact (lt_asymm ha htl).elim
    · rw [hag.height]
      exact ht.first ha hy

theorem tip_grow (htip : ∃ t e, c.TipAt t e) : ∃ t e, (c.grow H b p parent).TipAt t e := by
  obtain ⟨t, e, ht⟩ := htip
  by_cases hh : (BlockIndex.child H b p parent).n_height_ > c.g_best_height
  · exact ⟨_, _, tip_grow_higher ht hh⟩
  · exact ⟨t, e, tip_grow_lower ht hh⟩

theorem Chain.Sound.grow (hc : c.Sound H) (hfresh : H.get_hash b ∉ c.g_block_index)
    (hprev : c.g_block_index.lookup b.prev_hash_ = some p) (hp : c.heap[p]? = some parent) :
    (c.grow H b p parent).Sound H :=
  ⟨hc.tree.grow hfresh hprev hp, tip_grow hc.tip⟩

theorem accept_block_spec (ht : c.Tree H) (b : Block) :
    (H.get_hash b ∈ c.g_block_index ∧ b.accept_block H c = .ok (false, c)) ∨
    (H.get_hash b ∉ c.g_block_index ∧ b.prev_hash_ ∉ c.g_block_index ∧
      b.accept_block H c = .error (.assertion .accept_block)) ∨
    (H.get_hash b ∉ c.g_block_index ∧ ∃ p parent, c.g_block_index.lookup b.prev_hash_ = some p ∧
      c.heap[p]? = some parent ∧ parent.hash_ = b.prev_hash_ ∧
      b.accept_block H c = .ok (true, c.grow H b p parent)) := by
  by_cases hk : H.get_hash b ∈ c.g_block_index
  · exact Or.inl ⟨hk, by rw [Block.accept_block, if_pos hk]⟩
  · by_cases hprev : b.prev_hash_ ∈ c.g_block_index
    · obtain ⟨p, parent, hp, hpe, hph⟩ := ht.prev_entry hprev
      refine Or.inr (Or.inr ⟨hk, p, parent, hp, hpe, hph, ?_⟩)
      rw [Block.accept_block, if_neg hk, if_pos hprev, add_to_chain_grow hk hp hpe]
    · exact Or.inr (Or.inl ⟨hk, hprev, by rw [Block.accept_block, if_neg hk, if_neg hprev]⟩)

end Xcoin
