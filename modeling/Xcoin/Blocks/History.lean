import Xcoin.Blocks.Tree

/-! The history of a chain: the blocks inserted into it, one growth after another. -/

namespace Xcoin

open Lib.Runs Lib.StdMaps Lib.Chase

variable (H : BlockHash)

inductive Chain.Grows (c : Chain) : List Block → Chain → Prop
  | refl : Chain.Grows c [] c
  | step {bs : List Block} {c' : Chain} {b : Block} {p : Addr} {parent : BlockIndex} :
      Chain.Grows c bs c' → H.get_hash b ∉ c'.g_block_index →
      c'.g_block_index.lookup b.prev_hash_ = some p → c'.heap[p]? = some parent →
      Chain.Grows c (bs ++ [b]) (c'.grow H b p parent)

variable {H} {c c' c'' : Chain} {b : Block} {bs bs' : List Block}

namespace Chain.Grows

lemma trans (h : c.Grows H bs c') (h' : c'.Grows H bs' c'') : c.Grows H (bs ++ bs') c'' := by
  induction h' with
  | refl => simpa using h
  | step _ hfresh hprev hp ih =>
    rw [← List.append_assoc]
    exact ih.step hfresh hprev hp

lemma single {p : Addr} {parent : BlockIndex} (hfresh : H.get_hash b ∉ c.g_block_index)
    (hprev : c.g_block_index.lookup b.prev_hash_ = some p) (hp : c.heap[p]? = some parent) :
    c.Grows H [b] (c.grow H b p parent) :=
  Grows.step .refl hfresh hprev hp

lemma sound (h : c.Grows H bs c') (hc : c.Sound H) : c'.Sound H := by
  induction h with
  | refl => exact hc
  | step _ hfresh hprev hp ih => exact ih.grow hfresh hprev hp

lemma keeps (h : c.Grows H bs c') : c.Keeps c' := by
  induction h with
  | refl => exact .refl c
  | step _ hfresh _ _ ih => exact ih.trans (grow_keeps hfresh)

lemma mem_index (h : c.Grows H bs c') {k : String} :
    k ∈ c'.g_block_index ↔ k ∈ c.g_block_index ∨ ∃ b ∈ bs, H.get_hash b = k := by
  induction h with
  | refl => simp
  | step _ _ _ _ ih =>
    rw [grow_index, StdMap.mem_emplace, ih]
    simp only [List.mem_append, List.mem_singleton]
    constructor
    · rintro (rfl | hk | ⟨x, hx, rfl⟩)
      · exact Or.inr ⟨_, Or.inr rfl, rfl⟩
      · exact Or.inl hk
      · exact Or.inr ⟨x, Or.inl hx, rfl⟩
    · rintro (hk | ⟨x, hx | rfl, rfl⟩)
      · exact Or.inr (Or.inl hk)
      · exact Or.inr (Or.inr ⟨x, hx, rfl⟩)
      · exact Or.inl rfl

lemma mem_mono (h : c.Grows H bs c') {k : String} (hk : k ∈ c.g_block_index) :
    k ∈ c'.g_block_index := h.mem_index.mpr (Or.inl hk)

lemma length (h : c.Grows H bs c') : c'.heap.length = c.heap.length + bs.length := by
  induction h with
  | refl => rfl
  | step _ _ _ _ ih =>
    rw [grow_length, ih, List.length_append, List.length_singleton, Nat.add_assoc]

lemma entry (h : c.Grows H bs c') {a : Addr} {e' : BlockIndex} (he : c'.heap[a]? = some e') :
    (∃ e, c.heap[a]? = some e ∧ e.Agree e') ∨ (c.heap.length ≤ a ∧ e'.block ∈ bs) := by
  induction h generalizing e' with
  | refl => exact Or.inl ⟨e', he, .refl e'⟩
  | step h _ _ _ ih =>
    rcases grow_entry he with ⟨rfl, rfl⟩ | ⟨e, hold, hag⟩
    · refine Or.inr ⟨?_, by simp⟩
      rw [h.length]
      exact Nat.le_add_right _ _
    · rcases ih hold with ⟨x, hx, hag'⟩ | ⟨hle, hmem⟩
      · exact Or.inl ⟨x, hx, hag'.trans hag⟩
      · exact Or.inr ⟨hle, hag.block ▸ List.mem_append_left _ hmem⟩

end Chain.Grows

theorem Chain.TipAt.moves {t t' : Addr} {e e' : BlockIndex} (hk : c.Keeps c') (ht : c.TipAt t e)
    (ht' : c'.TipAt t' e') : t' = t ∨ (c.heap.length ≤ t' ∧ e.n_height_ < e'.n_height_) := by
  obtain ⟨x, hx, hag⟩ := hk.entry ht.entry
  have hxle : x.n_height_ ≤ e'.n_height_ := ht'.max hx
  have htl : t < c.heap.length := entry_lt ht.entry
  cases lt_or_ge t' c.heap.length with
  | inl hlt =>
    obtain ⟨y, hy, hagy⟩ := hk.entry (List.getElem?_eq_getElem hlt)
    obtain rfl : e' = y := Option.some.inj (ht'.entry.symm.trans hy)
    have hyle := ht.max (List.getElem?_eq_getElem hlt)
    rw [← hagy.height] at hyle
    rw [hag.height] at hxle
    rcases lt_trichotomy t' t with hl | rfl | hl
    · have hfirst := ht.first hl (List.getElem?_eq_getElem hlt)
      rw [← hagy.height] at hfirst
      exact (not_lt.mpr hxle hfirst).elim
    · exact Or.inl rfl
    · have hfirst := ht'.first hl hx
      rw [hag.height] at hfirst
      exact (not_lt.mpr hyle hfirst).elim
  | inr hge =>
    have hfirst := ht'.first (htl.trans_le hge) hx
    rw [hag.height] at hfirst
    exact Or.inr ⟨hge, hfirst⟩

def Chain.pprev (c : Chain) (a : Addr) : Option Addr := c.heap[a]?.bind BlockIndex.pprev_

lemma pprev_entry {a : Addr} {e : BlockIndex} (h : c.heap[a]? = some e) : c.pprev a = e.pprev_ := by
  rw [Chain.pprev, h, Option.bind_some]

namespace Chain.Tree

lemma height_nonneg (ht : c.Tree H) {a : Addr} {e : BlockIndex} (h : c.heap[a]? = some e) :
    0 ≤ e.n_height_ := by
  induction a using Nat.strong_induction_on generalizing e with
  | h a ih =>
    by_cases ha : a = 0
    · subst ha
      exact (ht.root_entry h).2.2.ge
    · obtain ⟨p, parent, hpa, -, hp, -, hh⟩ := ht.parent h ha
      have hpos := ih p hpa hp
      omega

theorem chase_root (ht : c.Tree H) {a : Addr} {e : BlockIndex} (h : c.heap[a]? = some e) :
    chase c.pprev e.n_height_.toNat a = some 0 := by
  induction a using Nat.strong_induction_on generalizing e with
  | h a ih =>
    by_cases ha : a = 0
    · subst ha
      rw [(ht.root_entry h).2.2]
      rfl
    · obtain ⟨p, parent, hpa, hpp, hp, -, hh⟩ := ht.parent h ha
      have hpos := ht.height_nonneg hp
      have hn : e.n_height_.toNat = parent.n_height_.toNat + 1 := by omega
      rw [hn, chase_succ, pprev_entry h, hpp, Option.bind_some]
      exact ih p hpa hp

lemma pprev_walk_ok (ht : c.Tree H) {n : ℕ} {a : Addr} {e : BlockIndex} (h : c.heap[a]? = some e)
    (hn : a < n) : ∃ es, c.pprev_walk n (some a) = .ok es := by
  induction n generalizing a e with
  | zero => exact (Nat.not_lt_zero _ hn).elim
  | succ n ih =>
    have hrest : ∃ es, c.pprev_walk n e.pprev_ = .ok es := by
      by_cases ha : a = 0
      · subst ha
        exact ⟨[], by cases n <;> rw [(ht.root_entry h).2.1, Chain.pprev_walk]⟩
      · obtain ⟨p, parent, hpa, hpp, hp, -⟩ := ht.parent h ha
        rw [hpp]
        exact ih hp (hpa.trans_le (Nat.lt_succ_iff.mp hn))
    obtain ⟨es, hes⟩ := hrest
    refine ⟨e :: es, ?_⟩
    simp only [Chain.pprev_walk, Chain.deref, Option.bind_some, h, bind, Except.bind, hes]
    rfl

end Chain.Tree

theorem debug_chains_ok (hc : c.Sound H) : ∃ es, c.debug_chains = .ok es := by
  obtain ⟨t, e, ht⟩ := hc.tip
  have htl : t < c.heap.length := entry_lt ht.entry
  obtain ⟨es, hes⟩ := hc.tree.pprev_walk_ok ht.entry htl
  refine ⟨es, ?_⟩
  rw [Chain.debug_chains, ht.index, if_neg (Option.some_ne_none t), hes]

lemma accept_block_grows {r : Bool} (hc : c.Sound H) (h : b.accept_block H c = .ok (r, c')) :
    (r = false ∧ c' = c ∧ H.get_hash b ∈ c.g_block_index) ∨
      (r = true ∧ c.Grows H [b] c' ∧ H.get_hash b ∉ c.g_block_index ∧
        b.prev_hash_ ∈ c.g_block_index) := by
  rcases accept_block_spec hc.tree b with ⟨hk, ha⟩ | ⟨-, -, ha⟩ | ⟨hk, p, parent, hp, hpe, -, ha⟩
  · rw [ha] at h
    obtain ⟨rfl, rfl⟩ : false = r ∧ c = c' := by simpa using h
    exact Or.inl ⟨rfl, rfl, hk⟩
  · rw [ha] at h
    simp at h
  · rw [ha] at h
    obtain ⟨rfl, rfl⟩ : true = r ∧ c.grow H b p parent = c' := by simpa using h
    exact Or.inr ⟨rfl, .single hk hp hpe, hk, StdMap.mem_of_lookup hp⟩

end Xcoin
