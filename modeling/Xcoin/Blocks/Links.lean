import Xcoin.Blocks.History

/-! The forward links `pnext_`, and the insertions after which they follow the best chain. -/

namespace Xcoin

open Lib.Runs Lib.StdMaps Lib.Chase

variable (H : BlockHash)

def Chain.pnext (c : Chain) (a : Addr) : Option Addr := c.heap[a]?.bind BlockIndex.pnext_

def Chain.OnBest (c : Chain) (a : Addr) : Prop :=
  ∃ t n, c.g_best_index = some t ∧ chase c.pprev n t = some a

def Chain.Linked (c : Chain) : Prop :=
  ∀ {a : Addr}, c.OnBest a → a ≠ 0 → ∃ p, c.pprev a = some p ∧ c.pnext p = some a

/-- The new entry is higher than the tip but not a child of it: Case 3 of `add_to_chain`. -/
def Chain.Reorganises (c : Chain) (b : Block) : Prop :=
  b.prev_hash_ ≠ c.g_best_chain_hash ∧
    ∃ p parent, c.g_block_index.lookup b.prev_hash_ = some p ∧ c.heap[p]? = some parent ∧
      c.g_best_height < parent.n_height_ + 1

def add_step (c : Chain) (b : Block) : Except Fault Chain := Prod.snd <$> b.add_to_chain H c

def replay (bs : List Block) : Except Fault Chain := run (add_step H) .init bs

def Chain.history (c : Chain) : List Block := c.heap.map BlockIndex.block

variable {H} {c c' : Chain} {b : Block} {p : Addr} {parent : BlockIndex} {bs : List Block}

lemma grow_pprev (a : Addr) :
    (c.grow H b p parent).pprev a = if a = c.heap.length then some p else c.pprev a := by
  by_cases ha : a = c.heap.length
  · rw [if_pos ha, ha, pprev_entry grow_child, child_pprev]
  · rw [if_neg ha, Chain.pprev, Chain.pprev]
    cases hc : c.heap[a]? with
    | none =>
      have hn : (c.grow H b p parent).heap[a]? = none := by
        rw [List.getElem?_eq_none_iff] at hc ⊢
        rw [grow_length]
        exact Nat.lt_of_le_of_ne hc (Ne.symm ha)
      rw [hn]
    | some e =>
      obtain ⟨e', he', hag⟩ := grow_old H b p parent hc
      rw [he', Option.bind_some, Option.bind_some, hag.pprev]

lemma grow_pnext_linked (hp : c.heap[p]? = some parent)
    (hh : (BlockIndex.child H b p parent).n_height_ > c.g_best_height) (hon : b.OnTip H c)
    (a : Addr) :
    (c.grow H b p parent).pnext a = if a = p then some c.heap.length else c.pnext a := by
  have hheap : (c.grow H b p parent).heap = c.linked p ++ [BlockIndex.child H b p parent] := by
    simp only [Chain.grow, if_pos hh, if_pos hon]
  rw [Chain.pnext, Chain.pnext, hheap]
  rcases lt_trichotomy a c.heap.length with ha | rfl | ha
  · rw [List.getElem?_append_left (by simpa using ha), linked_entry]
    by_cases hap : a = p
    · subst hap
      rw [if_pos rfl, if_pos rfl, hp]
      rfl
    · rw [if_neg (Ne.symm hap), if_neg hap]
  · have hlt : p < c.heap.length := entry_lt hp
    rw [if_neg hlt.ne']
    simp
  · have hlt : p < c.heap.length := entry_lt hp
    have hlen : (c.linked p ++ [BlockIndex.child H b p parent]).length ≤ a := by
      simpa using Nat.succ_le_of_lt ha
    rw [if_neg (hlt.trans ha).ne', List.getElem?_eq_none hlen, List.getElem?_eq_none ha.le]

variable (H b p parent) in
lemma grow_pnext_same
    (hon : ¬ ((BlockIndex.child H b p parent).n_height_ > c.g_best_height ∧ b.OnTip H c))
    (a : Addr) : (c.grow H b p parent).pnext a = c.pnext a := by
  have hheap : (c.grow H b p parent).heap = c.heap ++ [BlockIndex.child H b p parent] := by
    by_cases hh : (BlockIndex.child H b p parent).n_height_ > c.g_best_height
    · simp only [Chain.grow, if_pos hh, if_neg fun h => hon ⟨hh, h⟩]
    · simp only [Chain.grow, if_neg hh]
  rw [Chain.pnext, Chain.pnext, hheap]
  rcases lt_trichotomy a c.heap.length with ha | rfl | ha
  · rw [List.getElem?_append_left ha]
  · simp
  · have hlen : (c.heap ++ [BlockIndex.child H b p parent]).length ≤ a := by
      simpa using Nat.succ_le_of_lt ha
    rw [List.getElem?_eq_none hlen, List.getElem?_eq_none ha.le]

structure Chain.NextSound (c : Chain) : Prop where
  child : ∀ {a n : Addr}, c.pnext a = some n → c.pprev n = some a
  genesis : c.g_genesis_indexblk ≠ none

lemma pprev_lt (ht : c.Tree H) {a q : Addr} (h : c.pprev a = some q) : q < a := by
  obtain ⟨e, he, hq⟩ := Option.bind_eq_some_iff.mp h
  by_cases ha : a = 0
  · subst ha
    rw [(ht.root_entry he).2.1] at hq
    simp at hq
  · obtain ⟨p, parent, hpa, hpp, -⟩ := ht.parent he ha
    obtain rfl : p = q := Option.some.inj (hpp.symm.trans hq)
    exact hpa

lemma pprev_dom {a q : Addr} (h : c.pprev a = some q) : a < c.heap.length := by
  obtain ⟨e, he, -⟩ := Option.bind_eq_some_iff.mp h
  exact entry_lt he

lemma tip_leaf (ht : c.Tree H) {t a : Addr} {e : BlockIndex} (htip : c.TipAt t e) :
    c.pprev a ≠ some t := by
  intro h
  have hlt := pprev_lt ht h
  obtain ⟨x, hx, hq⟩ := Option.bind_eq_some_iff.mp h
  have ha : a ≠ 0 := Nat.ne_zero_of_lt hlt
  obtain ⟨q, parent, -, hpp, hpe, -, hh⟩ := ht.parent hx ha
  obtain rfl : q = t := Option.some.inj (hpp.symm.trans hq)
  obtain rfl : parent = e := Option.some.inj (hpe.symm.trans htip.entry)
  have hmax := htip.max hx
  omega

lemma tip_pnext (ht : c.Tree H) (hn : c.NextSound) {t : Addr} {e : BlockIndex}
    (htip : c.TipAt t e) : c.pnext t = none := by
  cases h : c.pnext t with
  | none => rfl
  | some a => exact (tip_leaf ht htip (hn.child h)).elim

lemma chase_grow (ht : c.Tree H) {a : Addr} (ha : a < c.heap.length) (n : ℕ) :
    chase (c.grow H b p parent).pprev n a = chase c.pprev n a := by
  induction n generalizing a with
  | zero => rfl
  | succ n ih =>
    rw [chase_succ, chase_succ, grow_pprev, if_neg ha.ne]
    cases hq : c.pprev a with
    | none => rfl
    | some q => exact ih ((pprev_lt ht hq).trans ha)

lemma rooted_next (hg : H.get_hash Block.genesis = g_genesis_hash) :
    (Chain.rooted H).NextSound where
  child {a n} h := by
    obtain ⟨e, he, hn⟩ := Option.bind_eq_some_iff.mp h
    obtain ⟨-, rfl⟩ := rooted_entry he
    simp [BlockIndex.new] at hn
  genesis := by simp [Chain.rooted, hg]

lemma on_tip_iff (hn : c.NextSound) : b.OnTip H c ↔ b.prev_hash_ = c.g_best_chain_hash :=
  ⟨fun h => h.2, fun h => ⟨fun h' => hn.genesis h'.1, h⟩⟩

lemma next_grow (hn : c.NextSound) (hp : c.heap[p]? = some parent) :
    (c.grow H b p parent).NextSound where
  child {a n} h := by
    have hold : c.pnext a = some n → (c.grow H b p parent).pprev n = some a := by
      intro h
      have hpp := hn.child h
      rw [grow_pprev, if_neg (pprev_dom hpp).ne, hpp]
    by_cases hon : (BlockIndex.child H b p parent).n_height_ > c.g_best_height ∧ b.OnTip H c
    · rw [grow_pnext_linked hp hon.1 hon.2] at h
      split at h
      · rename_i hap
        obtain rfl : c.heap.length = n := Option.some.inj h
        rw [grow_pprev, if_pos rfl, hap]
      · exact hold h
    · rw [grow_pnext_same H b p parent hon] at h
      exact hold h
  genesis := by
    by_cases hh : (BlockIndex.child H b p parent).n_height_ > c.g_best_height
    · simp only [Chain.grow, if_pos hh]
      rw [if_neg (fun h => hn.genesis h.1)]
      exact hn.genesis
    · simp only [Chain.grow, if_neg hh]
      exact hn.genesis

lemma grow_best_higher (hh : (BlockIndex.child H b p parent).n_height_ > c.g_best_height) :
    (c.grow H b p parent).g_best_index = some c.heap.length := by
  simp only [Chain.grow, if_pos hh]

lemma grow_best_lower (hh : ¬ (BlockIndex.child H b p parent).n_height_ > c.g_best_height) :
    (c.grow H b p parent).g_best_index = c.g_best_index := by
  simp only [Chain.grow, if_neg hh]

lemma onBest_grow_higher (ht : c.Tree H) (hp : c.heap[p]? = some parent)
    (hh : (BlockIndex.child H b p parent).n_height_ > c.g_best_height) (a : Addr) :
    (c.grow H b p parent).OnBest a ↔ a = c.heap.length ∨ ∃ n, chase c.pprev n p = some a := by
  have hlt : p < c.heap.length := entry_lt hp
  rw [Chain.OnBest, grow_best_higher hh]
  constructor
  · rintro ⟨t, n, hbest, hn⟩
    obtain rfl : c.heap.length = t := Option.some.inj hbest
    cases n with
    | zero => exact Or.inl (Option.some.inj hn).symm
    | succ n =>
      rw [chase_succ, grow_pprev, if_pos rfl, Option.bind_some, chase_grow ht hlt] at hn
      exact Or.inr ⟨n, hn⟩
  · rintro (rfl | ⟨n, hn⟩)
    · exact ⟨_, 0, rfl, rfl⟩
    · refine ⟨_, n + 1, rfl, ?_⟩
      rw [chase_succ, grow_pprev, if_pos rfl, Option.bind_some, chase_grow ht hlt, hn]

lemma onBest_grow_lower (ht : c.Tree H) {t : Addr} {e : BlockIndex} (htip : c.TipAt t e)
    (hh : ¬ (BlockIndex.child H b p parent).n_height_ > c.g_best_height) (a : Addr) :
    (c.grow H b p parent).OnBest a ↔ c.OnBest a := by
  have htl : t < c.heap.length := entry_lt htip.entry
  rw [Chain.OnBest, Chain.OnBest, grow_best_lower hh, htip.index]
  constructor
  · rintro ⟨x, n, hx, hn⟩
    obtain rfl : t = x := Option.some.inj hx
    exact ⟨t, n, rfl, by rw [← hn, chase_grow ht htl]⟩
  · rintro ⟨x, n, hx, hn⟩
    obtain rfl : t = x := Option.some.inj hx
    exact ⟨t, n, rfl, by rw [chase_grow ht htl, hn]⟩

lemma onBest_lt (ht : c.Tree H) {t : Addr} {e : BlockIndex} (htip : c.TipAt t e) {a : Addr}
    (h : c.OnBest a) : a < c.heap.length := by
  obtain ⟨x, n, hx, hn⟩ := h
  obtain rfl : t = x := htip.eq hx
  have htl : t < c.heap.length := entry_lt htip.entry
  clear hx htip
  induction n generalizing t with
  | zero => exact Option.some.inj hn ▸ htl
  | succ n ih =>
    rw [chase_succ] at hn
    obtain ⟨q, hq, hn⟩ := Option.bind_eq_some_iff.mp hn
    exact ih hn ((pprev_lt ht hq).trans htl)

lemma linked_grow_tip (ht : c.Tree H) (hn : c.NextSound) (htip : c.TipAt p parent)
    (hh : (BlockIndex.child H b p parent).n_height_ > c.g_best_height)
    (hon : b.prev_hash_ = c.g_best_chain_hash) :
    (c.grow H b p parent).Linked ↔ c.Linked := by
  have hpnext := grow_pnext_linked htip.entry hh ((on_tip_iff hn).mpr hon)
  have hleaf : ∀ {a q : Addr}, c.pprev a = some q → q ≠ p := by
    rintro a q hq rfl
    exact tip_leaf ht htip hq
  constructor
  · intro hl a ha ha0
    have halt := onBest_lt ht htip ha
    obtain ⟨x, n, hx, hn'⟩ := ha
    obtain rfl : p = x := htip.eq hx
    have hbest := (onBest_grow_higher ht htip.entry hh a).mpr (Or.inr ⟨n, hn'⟩)
    obtain ⟨q, hq, hqa⟩ := hl hbest ha0
    rw [grow_pprev, if_neg halt.ne] at hq
    rw [hpnext, if_neg (hleaf hq)] at hqa
    exact ⟨q, hq, hqa⟩
  · intro hl a ha ha0
    rcases (onBest_grow_higher ht htip.entry hh a).mp ha with rfl | ⟨n, hn'⟩
    · exact ⟨p, by rw [grow_pprev, if_pos rfl], by rw [hpnext, if_pos rfl]⟩
    · have hold : c.OnBest a := ⟨p, n, htip.index, hn'⟩
      obtain ⟨q, hq, hqa⟩ := hl hold ha0
      refine ⟨q, ?_, by rw [hpnext, if_neg (hleaf hq), hqa]⟩
      rw [grow_pprev, if_neg (onBest_lt ht htip hold).ne, hq]

-- the parent of the new tip never gets a link to it
lemma linked_grow_fork (ht : c.Tree H) (hn : c.NextSound) (hp : c.heap[p]? = some parent)
    (hh : (BlockIndex.child H b p parent).n_height_ > c.g_best_height)
    (hon : b.prev_hash_ ≠ c.g_best_chain_hash) : ¬ (c.grow H b p parent).Linked := by
  intro hl
  have hbest := (onBest_grow_higher ht hp hh _).mpr (Or.inl rfl)
  obtain ⟨q, -, hqa⟩ := hl hbest (Nat.ne_zero_of_lt (entry_lt hp))
  rw [grow_pnext_same H b p parent fun h => hon ((on_tip_iff hn).mp h.2)] at hqa
  exact lt_irrefl _ (pprev_dom (hn.child hqa))

lemma linked_grow_lower (ht : c.Tree H) {t : Addr} {e : BlockIndex} (htip : c.TipAt t e)
    (hh : ¬ (BlockIndex.child H b p parent).n_height_ > c.g_best_height) :
    (c.grow H b p parent).Linked ↔ c.Linked := by
  have hsame := grow_pnext_same H b p parent fun h => hh h.1
  have hpprev : ∀ {a : Addr}, c.OnBest a → (c.grow H b p parent).pprev a = c.pprev a := by
    intro a ha
    rw [grow_pprev, if_neg (onBest_lt ht htip ha).ne]
  constructor
  · intro hl a ha ha0
    obtain ⟨q, hq, hqa⟩ := hl ((onBest_grow_lower ht htip hh a).mpr ha) ha0
    exact ⟨q, hpprev ha ▸ hq, by rw [← hsame q, hqa]⟩
  · intro hl a ha ha0
    have hold := (onBest_grow_lower ht htip hh a).mp ha
    obtain ⟨q, hq, hqa⟩ := hl hold ha0
    exact ⟨q, (hpprev hold).trans hq, by rw [hsame, hqa]⟩

/-- One insertion keeps the links of the best chain exactly when it is not a reorganisation. -/
theorem linked_grow (hc : c.Sound H) (hn : c.NextSound)
    (hprev : c.g_block_index.lookup b.prev_hash_ = some p) (hp : c.heap[p]? = some parent) :
    (c.grow H b p parent).Linked ↔ c.Linked ∧ ¬ c.Reorganises b := by
  obtain ⟨t, e, htip⟩ := hc.tip
  by_cases hh : (BlockIndex.child H b p parent).n_height_ > c.g_best_height
  · by_cases hon : b.prev_hash_ = c.g_best_chain_hash
    · obtain ⟨rfl, rfl⟩ : p = t ∧ parent = e := by
        apply hc.tree.entry_unique hp htip.entry
        rw [hc.tree.lookup_hash hprev hp, hon, htip.hash]
      have hno : ¬ c.Reorganises b := fun h => h.1 hon
      rw [linked_grow_tip hc.tree hn htip hh hon, and_iff_left hno]
    · have hre : c.Reorganises b := ⟨hon, p, parent, hprev, hp, hh⟩
      exact iff_of_false (linked_grow_fork hc.tree hn hp hh hon) fun h => h.2 hre
  · have hno : ¬ c.Reorganises b := by
      rintro ⟨-, x, y, hx, hy, hhigh⟩
      obtain rfl : p = x := Option.some.inj (hprev.symm.trans hx)
      obtain rfl : parent = y := Option.some.inj (hp.symm.trans hy)
      exact hh hhigh
    rw [linked_grow_lower hc.tree htip hh, and_iff_left hno]

lemma Chain.Grows.history (h : c.Grows H bs c') : c'.history = c.history ++ bs := by
  induction h with
  | refl => simp
  | @step bs d b p parent _ _ _ _ ih =>
    obtain ⟨old, hheap, rfl | rfl⟩ := grow_heap H d b p parent
    · rw [Chain.history, hheap, List.map_append, ← List.append_assoc, ← ih]
      rfl
    · have hold : (d.linked p).map BlockIndex.block = d.history := by
        apply List.ext_getElem?
        intro i
        rw [Chain.history, List.getElem?_map, List.getElem?_map, linked_entry]
        split
        · rw [Option.map_map]
          rfl
        · rfl
      rw [Chain.history, hheap, List.map_append, ← List.append_assoc, ← ih, hold]
      rfl

theorem history_replay (h : (Chain.rooted H).Grows H bs c) :
    c.history = Block.genesis :: bs ∧ replay H c.history = .ok c := by
  have hhist : c.history = Block.genesis :: bs := by rw [h.history]; rfl
  refine ⟨hhist, ?_⟩
  rw [hhist]
  clear hhist
  induction h with
  | refl =>
    rw [replay, run_cons, add_step, add_genesis]
    rfl
  | @step bs d b p parent _ hfresh hprev hp ih =>
    rw [← List.cons_append, replay]
    exact (run_snoc_ok _).mpr ⟨d, ih, by rw [add_step, add_to_chain_grow hfresh hprev hp]; rfl⟩

end Xcoin
