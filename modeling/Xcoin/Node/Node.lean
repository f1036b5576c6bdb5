import Xcoin.Node.Orphans

/-! The node: `process_block` for a received block, `on_mine` for a local one, and the
runs of both after `genesis.add_to_chain()`. -/

namespace Xcoin

open Lib.Runs Lib.StdMaps

variable (H : BlockHash)

def Block.process_block (b : Block) (s : Node) : Except Fault (Bool × Node) := do
  let _ ← s.debug_chains
  let hash := H.get_hash b
  if hash ∈ s.g_block_index then
    return (false, s)
  else if hash ∈ s.g_orphan_blocks then
    return (false, s)
  else if ¬ b.check_block then
    return (false, s)
  else if b.prev_hash_ ∉ s.g_block_index then
    let s ← connect_orphans H hash { s with
      g_orphan_blocks := s.g_orphan_blocks.emplace hash b
      g_orphan_prev_blocks := s.g_orphan_prev_blocks.insert b.prev_hash_ b }
    return (true, s)
  else
    let (accepted, c) ← b.accept_block H s.toChain
    if ¬ accepted then
      return (false, { s with toChain := c })
    else
      let s ← connect_orphans H hash { s with toChain := c }
      return (true, s)

def Block.of_index (blk_idx : BlockIndex) (nonce : Int32) (name : String) : Block where
  index_ := UInt32.ofInt (blk_idx.n_height_ + 1)
  prev_hash_ := blk_idx.hash_
  nbit_ := blk_idx.nbit_
  nonce_ := nonce
  miner_ := name

-- the archive text is represented by the block it encodes
def Block.serialize (b : Block) : Except Fault Block :=
  if b.nonce_ < 100 then .ok b else .error (.assertion .serialize)

-- with the new state, the text that is sent to the main thread
def on_mine (nonce : Int32) (name : String) (s : Node) : Except Fault (Block × Node) :=
  if s.g_best_index = none then
    .error (.assertion .on_mine)
  else do
    let blk_idx ← s.deref s.g_best_index
    let new_block := Block.of_index blk_idx nonce name
    let (_, c) ← new_block.accept_block H s.toChain
    let data ← new_block.serialize
    return (data, { s with toChain := c })

inductive Event
  | mine (nonce : Int32) (name : String)
  | receive (block : Block)
  deriving DecidableEq

def step (s : Node) : Event → Except Fault Node
  | .mine nonce name => Prod.snd <$> on_mine H nonce name s
  | .receive block => Prod.snd <$> block.process_block H s

def boot : Except Fault Node := do
  let (_, c) ← Block.genesis.add_to_chain H .init
  return { c with g_orphan_blocks := ∅, g_orphan_prev_blocks := [] }

def node_run (es : List Event) : Except Fault Node :=
  boot H >>= fun s => run (step H) s es

def Node.start : Node := { Chain.rooted H with g_orphan_blocks := ∅, g_orphan_prev_blocks := [] }

lemma boot_ok : boot H = .ok (Node.start H) := by
  rw [boot, add_genesis]
  rfl

lemma node_run_eq (es : List Event) : node_run H es = run (step H) (Node.start H) es := by
  rw [node_run, boot_ok]
  rfl

lemma node_run_from {H : BlockHash} {es fs : List Event} {s t : Node}
    (h : node_run H (es ++ fs) = .ok s) (ht : node_run H es = .ok t) :
    run (step H) t fs = .ok s := by
  rw [node_run_eq] at h ht
  obtain ⟨u, hu, hs⟩ := (run_append_ok _).mp h
  obtain rfl : t = u := Except.ok.inj (ht.symm.trans hu)
  exact hs

def Node.Known (s : Node) (k : String) : Prop := k ∈ s.g_block_index ∨ k ∈ s.g_orphan_blocks

instance (s : Node) (k : String) : Decidable (s.Known k) := inferInstanceAs (Decidable (_ ∨ _))

def Node.store (b : Block) (s : Node) : Node :=
  { s with
    g_orphan_blocks := s.g_orphan_blocks.emplace (H.get_hash b) b
    g_orphan_prev_blocks := s.g_orphan_prev_blocks.insert b.prev_hash_ b }

variable {H} {s s' : Node} {b : Block}

lemma start_sound : (Node.start H).Sound H where
  chain := rooted_sound
  agree := {
    key := fun h => by simp [Node.start] at h
    listed := fun h => by simp [Node.start] at h
    stored := fun h => by simp [Node.start] at h }

lemma store_lookup (hb : H.get_hash b ∉ s.g_orphan_blocks) (k : String) :
    (s.store H b).g_orphan_blocks.lookup k =
      if k = H.get_hash b then some b else s.g_orphan_blocks.lookup k := StdMap.lookup_emplace hb

lemma mem_store {k : String} {x : Block} : (k, x) ∈ (s.store H b).g_orphan_prev_blocks ↔
    (k, x) ∈ s.g_orphan_prev_blocks ∨ (k = b.prev_hash_ ∧ x = b) := by
  rw [Node.store, Multimap.mem_insert, Prod.mk.injEq]

lemma store_sound (hs : s.Sound H) (hb : H.get_hash b ∉ s.g_orphan_blocks) :
    (s.store H b).Sound H where
  chain := hs.chain
  agree := {
    key := fun {k x} h => by
      rw [store_lookup hb] at h
      split at h
      · rename_i hk
        rw [hk, ← Option.some.inj h]
      · exact hs.agree.key h
    listed := fun {k x} h => by
      have hcount : (s.store H b).g_orphan_prev_blocks.count (x.prev_hash_, x) =
          s.g_orphan_prev_blocks.count (x.prev_hash_, x) + if x = b then 1 else 0 := by
        rw [Node.store, Multimap.insert, List.count_append, List.count_singleton]
        congr 1
        by_cases hx : x = b
        · simp [hx]
        · simp [hx, Ne.symm hx]
      rw [hcount]
      rw [store_lookup hb] at h
      split at h
      · obtain rfl : b = x := Option.some.inj h
        have hzero : s.g_orphan_prev_blocks.count (b.prev_hash_, b) = 0 := by
          apply List.count_eq_zero_of_not_mem
          intro hm
          exact hb (StdMap.mem_of_lookup (hs.agree.stored hm).2)
        rw [hzero, if_pos rfl]
      · rename_i hk
        have hx : x ≠ b := by
          rintro rfl
          exact hk (hs.agree.key h)
        rw [hs.agree.listed h, if_neg hx]
    stored := fun {k x} h => by
      rw [store_lookup hb]
      rcases mem_store.mp h with hm | ⟨rfl, rfl⟩
      · obtain ⟨rfl, hl⟩ := hs.agree.stored hm
        have hne : H.get_hash x ≠ H.get_hash b := by
          intro he
          exact hb (he ▸ StdMap.mem_of_lookup hl)
        exact ⟨rfl, by rw [if_neg hne, hl]⟩
      · exact ⟨rfl, if_pos rfl⟩ }

theorem process_block_spec (hs : s.Sound H) (b : Block) :
    (s.Known (H.get_hash b) ∧ b.process_block H s = .ok (false, s)) ∨
    (¬ s.Known (H.get_hash b) ∧ b.prev_hash_ ∉ s.g_block_index ∧
      b.process_block H s = Prod.mk true <$> connect_orphans H (H.get_hash b) (s.store H b)) ∨
    (¬ s.Known (H.get_hash b) ∧ ∃ p parent, s.g_block_index.lookup b.prev_hash_ = some p ∧
      s.heap[p]? = some parent ∧
      b.process_block H s = Prod.mk true <$>
        connect_orphans H (H.get_hash b) { s with toChain := s.toChain.grow H b p parent }) := by
  obtain ⟨es, hes⟩ := debug_chains_ok hs.chain
  simp only [Block.process_block, hes, bind, Except.bind]
  by_cases hk : H.get_hash b ∈ s.g_block_index
  · exact Or.inl ⟨Or.inl hk, by rw [if_pos hk]; rfl⟩
  by_cases ho : H.get_hash b ∈ s.g_orphan_blocks
  · exact Or.inl ⟨Or.inr ho, by rw [if_neg hk, if_pos ho]; rfl⟩
  have hunknown : ¬ s.Known (H.get_hash b) := fun h => h.elim hk ho
  have hcheck : ¬ ¬ b.check_block = true := not_not_intro rfl
  rw [if_neg hk, if_neg ho, if_neg hcheck]
  by_cases hp : b.prev_hash_ ∈ s.g_block_index
  · rcases accept_block_spec hs.chain.tree b with
      ⟨h, -⟩ | ⟨-, h, -⟩ | ⟨-, p, parent, hl, hpe, -, ha⟩
    · exact (hk h).elim
    · exact (h hp).elim
    · refine Or.inr (Or.inr ⟨hunknown, p, parent, hl, hpe, ?_⟩)
      rw [if_neg (not_not_intro hp), ha]
      rfl
  · refine Or.inr (Or.inl ⟨hunknown, hp, ?_⟩)
    rw [if_pos hp]
    rfl

lemma serialize_ok {d : Block} (h : b.serialize = .ok d) : d = b := by
  unfold Block.serialize at h
  split at h
  · exact (Except.ok.inj h).symm
  · simp at h

lemma serialize_error {d : Fault} (h : b.serialize = .error d) : d = .assertion .serialize := by
  unfold Block.serialize at h
  split at h
  · simp at h
  · exact (Except.error.inj h).symm

theorem on_mine_spec (hs : s.Sound H) (nonce : Int32) (name : String) :
    ∃ t e, s.TipAt t e ∧
      ((H.get_hash (Block.of_index e nonce name) ∈ s.g_block_index ∧
        on_mine H nonce name s = (fun d => (d, s)) <$> (Block.of_index e nonce name).serialize) ∨
      (H.get_hash (Block.of_index e nonce name) ∉ s.g_block_index ∧
        on_mine H nonce name s = (fun d =>
          (d, { s with toChain := s.toChain.grow H (Block.of_index e nonce name) t e })) <$>
            (Block.of_index e nonce name).serialize)) := by
  obtain ⟨t, e, ht⟩ := hs.chain.tip
  refine ⟨t, e, ht, ?_⟩
  have hderef : s.deref s.g_best_index = .ok e := by
    rw [Chain.deref, ht.index, Option.bind_some, ht.entry]
  have hprev : s.g_block_index.lookup (Block.of_index e nonce name).prev_hash_ = some t :=
    hs.chain.tree.lookup.mpr ⟨e, ht.entry, rfl⟩
  simp only [on_mine, ht.index, reduceCtorEq, if_false]
  rw [← ht.index, hderef]
  rcases accept_block_spec hs.chain.tree (Block.of_index e nonce name) with
    ⟨hk, ha⟩ | ⟨-, hn, -⟩ | ⟨hk, p, parent, hl, hpe, -, ha⟩
  · refine Or.inl ⟨hk, ?_⟩
    change ((Block.of_index e nonce name).accept_block H s.toChain >>= _) = _
    rw [ha]
    rfl
  · exact (hn (StdMap.mem_of_lookup hprev)).elim
  · obtain rfl : p = t := Option.some.inj (hl.symm.trans hprev)
    obtain rfl : parent = e := Option.some.inj (hpe.symm.trans ht.entry)
    refine Or.inr ⟨hk, ?_⟩
    change ((Block.of_index parent nonce name).accept_block H s.toChain >>= _) = _
    rw [ha]
    rfl

end Xcoin
