import Mathlib.Tactic

/-! Walks along a relation that allows one next element at most, down to an element that has
none: two of them join once and stay together. -/

namespace Xcoin.Lib.Walks

variable {α : Type} {r : α → α → Prop} {root a b : α} {l l' : List α}

structure Walk (r : α → α → Prop) (root : α) (l : List α) : Prop where
  chain : l.IsChain r
  ends : l.getLast? = some root

/-- One next element at most, and none after the root. -/
structure Directed (r : α → α → Prop) (root : α) : Prop where
  unique : ∀ ⦃a b c : α⦄, r a b → r a c → b = c
  stops : ∀ b, ¬ r root b

lemma Walk.ne_nil (h : Walk r root l) : l ≠ [] := by
  rintro rfl
  simpa using h.ends

lemma walk_singleton (root : α) : Walk r root [root] := ⟨List.isChain_singleton _, rfl⟩

lemma walk_cons_cons : Walk r root (a :: b :: l) ↔ r a b ∧ Walk r root (b :: l) := by
  constructor
  · intro h
    obtain ⟨hab, hchain⟩ := List.isChain_cons_cons.mp h.chain
    exact ⟨hab, hchain, by simpa using h.ends⟩
  · rintro ⟨hab, h⟩
    exact ⟨List.isChain_cons_cons.mpr ⟨hab, h.chain⟩, by simpa using h.ends⟩

lemma Walk.suffix {x : List α} (h : Walk r root (x ++ a :: l)) : Walk r root (a :: l) where
  chain := h.chain.right_of_append
  ends := by simpa using h.ends

theorem Walk.unique (hr : Directed r root) (h : Walk r root (a :: l))
    (h' : Walk r root (a :: l')) : l = l' := by
  induction l generalizing a l' with
  | nil =>
    obtain rfl : a = root := Option.some.inj h.ends
    cases l' with
    | nil => rfl
    | cons b l' => exact (hr.stops b (walk_cons_cons.mp h').1).elim
  | cons b l ih =>
    obtain ⟨hab, hb⟩ := walk_cons_cons.mp h
    cases l' with
    | nil =>
      obtain rfl : a = root := Option.some.inj h'.ends
      exact (hr.stops b hab).elim
    | cons c l' =>
      obtain ⟨hac, hc⟩ := walk_cons_cons.mp h'
      obtain rfl := hr.unique hab hac
      rw [ih hb hc]

/-- No element before the last part of a walk is met again. -/
lemma Walk.apart {x : List α} (hr : Directed r root) (h : Walk r root (x ++ a :: l)) (hb : b ∈ x) :
    b ∉ a :: l := by
  intro hmem
  obtain ⟨s, t, rfl⟩ := List.append_of_mem hb
  obtain ⟨s', t', hsplit⟩ := List.append_of_mem hmem
  have hlow : Walk r root (b :: t') := (hsplit ▸ h.suffix).suffix
  rw [List.append_assoc, List.cons_append] at h
  have hlen := congrArg List.length (h.suffix.unique hr hlow)
  have hlen' := congrArg List.length hsplit
  simp only [List.length_append, List.length_cons] at hlen hlen'
  omega

/-- Two walks are one from where they meet, and before that they have nothing in common. -/
theorem walks_join (hr : Directed r root) (h : Walk r root l) (h' : Walk r root l') :
    ∃ x y p, l = x ++ p ∧ l' = y ++ p ∧ Walk r root p ∧ (∀ a ∈ x, a ∉ l') ∧ ∀ a ∈ y, a ∉ l := by
  induction l with
  | nil => exact (h.ne_nil rfl).elim
  | cons a l ih =>
    by_cases ha : a ∈ l'
    · obtain ⟨y, t, rfl⟩ := List.append_of_mem ha
      obtain rfl := h.unique hr h'.suffix
      exact ⟨[], y, a :: l, rfl, rfl, h, by simp, fun b hb => h'.apart hr hb⟩
    · cases l with
      | nil =>
        obtain rfl : a = root := Option.some.inj h.ends
        exact (ha (List.mem_of_getLast? h'.ends)).elim
      | cons b l =>
        obtain ⟨x, y, p, hl, rfl, hp, hx, hy⟩ := ih (walk_cons_cons.mp h).2
        refine ⟨a :: x, y, p, by rw [hl, List.cons_append], rfl, hp, ?_, ?_⟩
        · intro c hc
          cases List.mem_cons.mp hc with
          | inl hc => exact hc ▸ ha
          | inr hc => exact hx c hc
        · intro c hc hmem
          cases List.mem_cons.mp hmem with
          | inl hca => exact ha (hca ▸ List.mem_append_left p hc)
          | inr hmem => exact hy c hc hmem

end Xcoin.Lib.Walks
