import Mathlib.Data.List.Forall2

/-! Computations that may fail: when a bind and when a loop over a list give a result. -/

namespace Xcoin.Lib.Results

variable {ε α β : Type} {x : Except ε α} {l : List α} {bs : List β} {b : β} {e : ε}

lemma ok_bind (a : α) (f : α → Except ε β) : (Except.ok a >>= f) = f a := rfl

lemma bind_eq_ok {f : α → Except ε β} : (x >>= f) = .ok b ↔ ∃ a, x = .ok a ∧ f a = .ok b := by
  cases x with
  | error e => simp [bind, Except.bind]
  | ok a => simp [ok_bind]

lemma bind_eq_error {f : α → Except ε β} :
    (x >>= f) = .error e ↔ x = .error e ∨ ∃ a, x = .ok a ∧ f a = .error e := by
  cases x with
  | error e' => simp [bind, Except.bind]
  | ok a => simp [ok_bind]

theorem mapM_eq_ok {f : α → Except ε β} :
    l.mapM f = .ok bs ↔ List.Forall₂ (fun a b => f a = .ok b) l bs := by
  induction l generalizing bs with
  | nil => simp [pure, Except.pure, eq_comm]
  | cons a l ih =>
    simp only [List.mapM_cons, bind_eq_ok, ih, List.forall₂_cons_left_iff]
    constructor
    · rintro ⟨b, hb, cs, hcs, h⟩
      exact ⟨b, cs, hb, hcs, (Except.ok.inj h).symm⟩
    · rintro ⟨b, cs, hb, hcs, rfl⟩
      exact ⟨b, hb, cs, hcs, rfl⟩

lemma mapM_eq_map {f : α → Except ε β} {P : α → Prop} {g : α → β}
    (h : ∀ a b, f a = .ok b ↔ P a ∧ b = g a) :
    l.mapM f = .ok bs ↔ (∀ a ∈ l, P a) ∧ bs = l.map g := by
  have hmap : List.Forall₂ (fun a b => b = g a) l bs ↔ bs = l.map g := by
    rw [← List.forall₂_eq_eq_eq, List.forall₂_map_right_iff]
    exact ⟨List.Forall₂.flip, List.Forall₂.flip⟩
  simp only [mapM_eq_ok, h, List.forall₂_and_left, hmap]

lemma mapM_succeeds {f : α → Except ε β} :
    (∃ bs, l.mapM f = .ok bs) ↔ ∀ a ∈ l, ∃ b, f a = .ok b := by
  induction l with
  | nil => simp [pure, Except.pure]
  | cons a l ih =>
    simp only [List.mapM_cons, bind_eq_ok, List.forall_mem_cons, ← ih]
    constructor
    · rintro ⟨_, b, hb, cs, hcs, -⟩
      exact ⟨⟨b, hb⟩, cs, hcs⟩
    · rintro ⟨⟨b, hb⟩, cs, hcs⟩
      exact ⟨b :: cs, b, hb, cs, hcs, rfl⟩

lemma mapM_eq_error {f : α → Except ε β} (h : l.mapM f = .error e) : ∃ a ∈ l, f a = .error e := by
  induction l with
  | nil => simp [pure, Except.pure] at h
  | cons a l ih =>
    rw [List.mapM_cons, bind_eq_error] at h
    obtain h | ⟨b, -, h⟩ := h
    · exact ⟨a, List.mem_cons_self, h⟩
    · rw [bind_eq_error] at h
      obtain h | ⟨cs, -, h⟩ := h
      · obtain ⟨a', ha', h⟩ := ih h
        exact ⟨a', List.mem_cons_of_mem a ha', h⟩
      · simp [pure, Except.pure] at h

end Xcoin.Lib.Results
