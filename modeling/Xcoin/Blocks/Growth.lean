import Xcoin.Blocks.Chain

/-! What one accepted block does to the index: `accept_block` never fails except at its
assertion, and otherwise leaves the chain alone or grows it by one entry. -/

namespace Xcoin

open Lib.Runs Lib.StdMaps

variable (H : BlockHash)

def BlockIndex.child (b : Block) (p : Addr) (parent : BlockIndex) : BlockIndex :=
  { BlockIndex.new H b with
    phash_ := some (H.get_hash b)
    pprev_ := some p
    n_height_ := parent.n_height_ + 1 }

@[simp] lemma child_pprev (b : Block) (p : Addr) (parent : BlockIndex) :
    (BlockIndex.child H b p parent).pprev_ = some p := rfl
@[simp] lemma child_pnext (b : Block) (p : Addr) (parent : BlockIndex) :
    (BlockIndex.child H b p parent).pnext_ = none := rfl
@[simp] lemma child_height (b : Block) (p : Addr) (parent : BlockIndex) :
    (BlockIndex.child H b p parent).n_height_ = parent.n_height_ + 1 := rfl
@[simp] lemma child_hash (b : Block) (p : Addr) (parent : BlockIndex) :
    (BlockIndex.child H b p parent).hash_ = H.get_hash b := rfl
@[simp] lemma child_block (b : Block) (p : Addr) (parent : BlockIndex) :
    (BlockIndex.child H b p parent).block = b := rfl

def Block.OnTip (b : Block) (c : Chain) : Prop :=
  ¬ (c.g_genesis_indexblk = none ∧ H.get_hash b = g_genesis_hash) ∧
    b.prev_hash_ = c.g_best_chain_hash

instance (b : Block) (c : Chain) : Decidable (b.OnTip H c) :=
  inferInstanceAs (Decidable (_ ∧ _))

def Chain.linked (c : Chain) (p : Addr) : List BlockIndex :=
  c.heap.modify p fun e => { e with pnext_ := some c.heap.length }

def Chain.grow (c : Chain) (b : Block) (p : Addr) (parent : BlockIndex) : Chain :=
  let e := BlockIndex.child H b p parent
  if e.n_height_ > c.g_best_height then
    { heap := (if b.OnTip H c then c.linked p else c.heap) ++ [e]
      g_block_index := c.g_block_index.emplace (H.get_hash b) c.heap.length
      g_genesis_indexblk :=
        if c.g_genesis_indexblk = none ∧ H.get_hash b = g_genesis_hash then some c.heap.length
        else c.g_genesis_indexblk
      g_best_height := e.n_height_
      g_best_chain_hash := H.get_hash b
      g_best_index := some c.heap.length }
  else
    { c with
      heap := c.heap ++ [e]
      g_block_index := c.g_block_index.emplace (H.get_hash b) c.heap.length }

variable {H} {c c' : Chain} {b : Block} {p : Addr} {parent : BlockIndex}

lemma entry_lt {a : Addr} {e : BlockIndex} (h : c.heap[a]? = some e) : a < c.heap.length :=
  (List.getElem?_eq_some_iff.mp h).choose

lemma modify_last (xs : List BlockIndex) (e : BlockIndex) (f : BlockIndex → BlockIndex) :
    (xs ++ [e]).modify xs.length f = xs ++ [f e] := by
  induction xs with
  | nil => rfl
  | cons x xs ih => simpa using ih

lemma modify_init {xs : List BlockIndex} {e : BlockIndex} {i : ℕ} (hi : i < xs.length)
    (f : BlockIndex → BlockIndex) : (xs ++ [e]).modify i f = xs.modify i f ++ [e] := by
  induction xs generalizing i with
  | nil => simp at hi
  | cons x xs ih =>
    cases i with
    | zero => rfl
    | succ i => simpa using ih (by simpa using hi)

lemma new_index_eq (hfresh : H.get_hash b ∉ c.g_block_index)
    (hprev : c.g_block_index.lookup b.prev_hash_ = some p) (hp : c.heap[p]? = some parent) :
    b.new_index H c = .ok { c with
      heap := c.heap ++ [BlockIndex.child H b p parent]
      g_block_index := c.g_block_index.emplace (H.get_hash b) c.heap.length } := by
  have hne : b.prev_hash_ ≠ H.get_hash b := by
    intro h
    exact hfresh (h ▸ StdMap.mem_of_lookup hprev)
  have hlt : p < c.heap.length := entry_lt hp
  have hlook : (c.g_block_index.emplace (H.get_hash b) c.heap.length).lookup b.prev_hash_ =
      some p := by
    rw [StdMap.lookup_emplace hfresh, if_neg hne, hprev]
  simp only [Block.new_index, hlook, Chain.deref, Option.bind_some,
    List.getElem?_append_left hlt, hp, modify_last]
  rfl

lemma update_best_eq (hp : c.heap[p]? = some parent) :
    b.update_best H c.heap.length { c with
      heap := c.heap ++ [BlockIndex.child H b p parent]
      g_block_index := c.g_block_index.emplace (H.get_hash b) c.heap.length } =
        .ok (c.grow H b p parent) := by
  have hlt : p < c.heap.length := entry_lt hp
  have hlast : (c.heap ++ [BlockIndex.child H b p parent])[c.heap.length]? =
      some (BlockIndex.child H b p parent) := by simp
  simp only [Block.update_best, Chain.deref, Option.bind_some, hlast, Chain.grow, bind, Except.bind,
    pure, Except.pure]
  by_cases hh : (BlockIndex.child H b p parent).n_height_ > c.g_best_height
  · rw [if_pos hh, if_pos hh]
    by_cases h1 : c.g_genesis_indexblk = none ∧ H.get_hash b = g_genesis_hash
    · have hon : ¬ b.OnTip H c := fun h => h.1 h1
      rw [if_pos h1, if_pos h1, if_neg hon]
    · rw [if_neg h1, if_neg h1]
      by_cases h2 : b.prev_hash_ = c.g_best_chain_hash
      · have hon : b.OnTip H c := ⟨h1, h2⟩
        have hlt' : p < (c.heap ++ [BlockIndex.child H b p parent]).length := by
          simpa using Nat.lt_succ_of_lt hlt
        rw [if_pos h2, if_pos hon]
        simp only [child_pprev, Chain.set_next, if_pos hlt', modify_init hlt, Chain.linked]
      · have hon : ¬ b.OnTip H c := fun h => h2 h.2
        rw [if_neg h2, if_neg hon]
  · rw [if_neg hh, if_neg hh]

theorem add_to_chain_grow (hfresh : H.get_hash b ∉ c.g_block_index)
    (hprev : c.g_block_index.lookup b.prev_hash_ = some p) (hp : c.heap[p]? = some parent) :
    b.add_to_chain H c = .ok (true, c.grow H b p parent) := by
  rw [Block.add_to_chain, if_neg hfresh, new_index_eq hfresh hprev hp]
  change (b.update_best H c.heap.length _ >>= _) = _
  rw [update_best_eq hp]
  rfl

/-- Two snapshots of one entry: only `pnext_` is ever rewritten. -/
def BlockIndex.Agree (e e' : BlockIndex) : Prop := { e with pnext_ := e'.pnext_ } = e'

namespace BlockIndex.Agree

variable {e e' e'' : BlockIndex}

lemma refl (e : BlockIndex) : e.Agree e := rfl

lemma trans (h : e.Agree e') (h' : e'.Agree e'') : e.Agree e'' := by
  unfold BlockIndex.Agree at h h' ⊢
  rw [← h', ← h]

lemma height (h : e.Agree e') : e'.n_height_ = e.n_height_ := by rw [← h]
lemma hash (h : e.Agree e') : e'.hash_ = e.hash_ := by rw [← h]
lemma pprev (h : e.Agree e') : e'.pprev_ = e.pprev_ := by rw [← h]
lemma block (h : e.Agree e') : e'.block = e.block := by rw [← h]

end BlockIndex.Agree

lemma linked_entry (a : Addr) :
    (c.linked p)[a]? =
      if p = a then c.heap[a]?.map fun e => { e with pnext_ := some c.heap.length }
      else c.heap[a]? := by
  rw [Chain.linked, List.getElem?_modify]
  by_cases hpa : p = a <;> simp [hpa]

lemma linked_agree {a : Addr} {e : BlockIndex} (h : c.heap[a]? = some e) :
    ∃ e', (c.linked p)[a]? = some e' ∧ e.Agree e' := by
  rw [linked_entry, h]
  split
  · exact ⟨_, rfl, rfl⟩
  · exact ⟨e, rfl, .refl e⟩

@[simp] lemma linked_length : (c.linked p).length = c.heap.length := List.length_modify ..

variable (H c b p parent) in
lemma grow_heap :
    ∃ old, (c.grow H b p parent).heap = old ++ [BlockIndex.child H b p parent] ∧
      (old = c.heap ∨ old = c.linked p) := by
  by_cases hh : (BlockIndex.child H b p parent).n_height_ > c.g_best_height
  · by_cases hon : b.OnTip H c
    · exact ⟨c.linked p, by simp only [Chain.grow, if_pos hh, if_pos hon], Or.inr rfl⟩
    · exact ⟨c.heap, by simp only [Chain.grow, if_pos hh, if_neg hon], Or.inl rfl⟩
  · exact ⟨c.heap, by simp only [Chain.grow, if_neg hh], Or.inl rfl⟩

lemma grow_index : (c.grow H b p parent).g_block_index =
    c.g_block_index.emplace (H.get_hash b) c.heap.length := by
  by_cases hh : (BlockIndex.child H b p parent).n_height_ > c.g_best_height
  · simp only [Chain.grow, if_pos hh]
  · simp only [Chain.grow, if_neg hh]

@[simp] lemma grow_length : (c.grow H b p parent).heap.length = c.heap.length + 1 := by
  obtain ⟨old, hh, rfl | rfl⟩ := grow_heap H c b p parent <;>
    simp [hh]

lemma grow_child : (c.grow H b p parent).heap[c.heap.length]? =
    some (BlockIndex.child H b p parent) := by
  obtain ⟨old, hh, rfl | rfl⟩ := grow_heap H c b p parent
  · simp [hh]
  · rw [hh, ← linked_length (c := c) (p := p)]
    simp

variable (H b p parent) in
lemma grow_old {a : Addr} {e : BlockIndex} (h : c.heap[a]? = some e) :
    ∃ e', (c.grow H b p parent).heap[a]? = some e' ∧ e.Agree e' := by
  have ha : a < c.heap.length := entry_lt h
  obtain ⟨old, hh, rfl | rfl⟩ := grow_heap H c b p parent
  · exact ⟨e, by rw [hh, List.getElem?_append_left ha, h], .refl e⟩
  · obtain ⟨e', he', hag⟩ := linked_agree (p := p) h
    exact ⟨e', by rw [hh, List.getElem?_append_left (by simpa using ha), he'], hag⟩

lemma grow_entry {a : Addr} {e' : BlockIndex} (h : (c.grow H b p parent).heap[a]? = some e') :
    (a = c.heap.length ∧ e' = BlockIndex.child H b p parent) ∨
      ∃ e, c.heap[a]? = some e ∧ e.Agree e' := by
  have ha : a < c.heap.length + 1 := by
    simpa using entry_lt h
  rcases Nat.lt_succ_iff_lt_or_eq.mp ha with hlt | rfl
  · obtain ⟨e'', he'', hag⟩ := grow_old H b p parent
      (List.getElem?_eq_getElem hlt)
    rw [h, Option.some.injEq] at he''
    exact Or.inr ⟨_, List.getElem?_eq_getElem hlt, he'' ▸ hag⟩
  · rw [grow_child, Option.some.injEq] at h
    exact Or.inl ⟨rfl, h.symm⟩

lemma grow_lookup (hfresh : H.get_hash b ∉ c.g_block_index) (k : String) :
    (c.grow H b p parent).g_block_index.lookup k =
      if k = H.get_hash b then some c.heap.length else c.g_block_index.lookup k := by
  rw [grow_index, StdMap.lookup_emplace hfresh]

structure Chain.Keeps (c c' : Chain) : Prop where
  entry : ∀ {a : Addr} {e : BlockIndex}, c.heap[a]? = some e →
    ∃ e', c'.heap[a]? = some e' ∧ e.Agree e'
  lookup : ∀ {k : String} {a : Addr}, c.g_block_index.lookup k = some a →
    c'.g_block_index.lookup k = some a

lemma Chain.Keeps.refl (c : Chain) : c.Keeps c where
  entry h := ⟨_, h, .refl _⟩
  lookup h := h

lemma Chain.Keeps.trans {c₁ c₂ c₃ : Chain} (h : c₁.Keeps c₂) (h' : c₂.Keeps c₃) : c₁.Keeps c₃ where
  entry he := by
    obtain ⟨e', he', hag⟩ := h.entry he
    obtain ⟨e'', he'', hag'⟩ := h'.entry he'
    exact ⟨e'', he'', hag.trans hag'⟩
  lookup hk := h'.lookup (h.lookup hk)

lemma grow_keeps (hfresh : H.get_hash b ∉ c.g_block_index) : c.Keeps (c.grow H b p parent) where
  entry := grow_old H b p parent
  lookup {k a} hk := by
    have hne : k ≠ H.get_hash b := fun h => hfresh (h ▸ StdMap.mem_of_lookup hk)
    rw [grow_lookup hfresh, if_neg hne, hk]

end Xcoin
