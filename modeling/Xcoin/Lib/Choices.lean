import Mathlib.Tactic

/-! Programs that draw at random and may stop with a fault: the outcomes of a program, what
all of them satisfy, and which values can come out. -/

namespace Xcoin.Lib.Choices

variable {φ ι σ α β : Type}

structure Chance (φ α : Type) where
  outcomes : List (Except φ α)
  some_outcome : outcomes ≠ []

namespace Chance

@[ext]
lemma ext_outcomes {x y : Chance φ α} (h : x.outcomes = y.outcomes) : x = y := by
  cases x
  cases y
  simpa using h

def fault (d : φ) : Chance φ α := ⟨[.error d], by simp⟩

def draws (d : φ) : List α → List (Except φ α)
  | [] => [.error d]
  | a :: as => (a :: as).map .ok

def choice (d : φ) (as : List α) : Chance φ α := ⟨draws d as, by cases as <;> simp [draws]⟩

def resume (f : α → Chance φ β) : Except φ α → List (Except φ β)
  | .error d => [.error d]
  | .ok a => (f a).outcomes

lemma resume_some (f : α → Chance φ β) (o : Except φ α) : resume f o ≠ [] := by
  cases o with
  | error d => simp [resume]
  | ok a => exact (f a).some_outcome

protected def bind (x : Chance φ α) (f : α → Chance φ β) : Chance φ β where
  outcomes := x.outcomes.flatMap (resume f)
  some_outcome := by
    obtain ⟨o, ho⟩ := List.exists_mem_of_ne_nil _ x.some_outcome
    intro h
    exact resume_some f o (List.flatMap_eq_nil_iff.mp h o ho)

instance : Monad (Chance φ) where
  pure a := ⟨[.ok a], by simp⟩
  bind := Chance.bind

@[simp] lemma outcomes_pure (a : α) : (pure a : Chance φ α).outcomes = [.ok a] := rfl

@[simp] lemma outcomes_bind (x : Chance φ α) (f : α → Chance φ β) :
    (x >>= f).outcomes = x.outcomes.flatMap (resume f) := rfl

lemma resume_pure (o : Except φ α) : resume pure o = [o] := by
  cases o <;> rfl

lemma resume_bind (f : α → Chance φ β) (g : β → Chance φ σ) (o : Except φ α) :
    resume (fun a => f a >>= g) o = (resume f o).flatMap (resume g) := by
  cases o with
  | error d => simp [resume]
  | ok a => rfl

lemma map_id (x : Chance φ α) : id <$> x = x := by
  ext1
  show x.outcomes.flatMap (resume pure) = x.outcomes
  have hpure : resume (φ := φ) (pure (f := Chance φ) (α := α)) = fun o => [o] := funext resume_pure
  simp [hpure]

lemma pure_bind (a : α) (f : α → Chance φ β) : pure a >>= f = f a := by
  ext1
  simp [resume]

lemma bind_assoc (x : Chance φ α) (f : α → Chance φ β) (g : β → Chance φ σ) :
    x >>= f >>= g = x >>= fun a => f a >>= g := by
  ext1
  have hbind : resume (fun a => f a >>= g) = fun o => (resume f o).flatMap (resume g) :=
    funext (resume_bind f g)
  simp only [outcomes_bind, hbind, List.flatMap_assoc]

instance : LawfulMonad (Chance φ) := LawfulMonad.mk' _ map_id pure_bind bind_assoc

end Chance

open Chance

variable {x : Chance φ α} {a : α} {d : φ} {as : List α} {P Q : α → Prop}

def Always (x : Chance φ α) (Q : α → Prop) : Prop := ∀ o ∈ x.outcomes, ∃ a, o = .ok a ∧ Q a

def Can (x : Chance φ α) (a : α) : Prop := .ok a ∈ x.outcomes

@[simp] lemma always_pure : Always (pure a : Chance φ α) Q ↔ Q a := by
  simp [Always]

@[simp] lemma always_choice : Always (choice d as) Q ↔ as ≠ [] ∧ ∀ a ∈ as, Q a := by
  cases as <;> simp [Always, choice, draws]

lemma always_bind {f : α → Chance φ β} {Q : β → Prop} :
    Always (x >>= f) Q ↔ Always x fun a => Always (f a) Q := by
  simp only [Always, outcomes_bind, List.mem_flatMap]
  constructor
  · intro h o ho
    cases o with
    | error d =>
      obtain ⟨b, hb, -⟩ := h (.error d) ⟨_, ho, by simp [resume]⟩
      simp at hb
    | ok a => exact ⟨a, rfl, fun o' ho' => h o' ⟨_, ho, ho'⟩⟩
  · rintro h o ⟨o', ho', ho⟩
    obtain ⟨a, rfl, ha⟩ := h o' ho'
    exact ha o ho

lemma Always.imp (h : Always x P) (hpq : ∀ a, P a → Q a) : Always x Q := by
  intro o ho
  obtain ⟨a, rfl, ha⟩ := h o ho
  exact ⟨a, rfl, hpq a ha⟩

lemma Always.can (h : Always x Q) (ha : Can x a) : Q a := by
  obtain ⟨b, hb, hq⟩ := h _ ha
  cases hb
  exact hq

lemma Always.exists_can (h : Always x Q) : ∃ a, Can x a ∧ Q a := by
  obtain ⟨o, ho⟩ := List.exists_mem_of_ne_nil _ x.some_outcome
  obtain ⟨a, rfl, ha⟩ := h o ho
  exact ⟨a, ho, ha⟩

@[simp] lemma can_pure {b : α} : Can (pure a : Chance φ α) b ↔ b = a := by
  simp [Can]

@[simp] lemma can_fault : ¬ Can (fault d : Chance φ α) a := by
  simp [Can, fault]

@[simp] lemma can_choice : Can (choice d as) a ↔ a ∈ as := by
  cases as <;> simp [Can, choice, draws]

lemma can_bind {f : α → Chance φ β} {b : β} :
    Can (x >>= f) b ↔ ∃ a, Can x a ∧ Can (f a) b := by
  simp only [Can, outcomes_bind, List.mem_flatMap]
  constructor
  · rintro ⟨o, ho, hb⟩
    cases o with
    | error d => simp [resume] at hb
    | ok a => exact ⟨a, ho, hb⟩
  · rintro ⟨a, ha, hb⟩
    exact ⟨.ok a, ha, hb⟩

section Loops

variable {f : σ → ι → Chance φ σ} {is : List ι}

theorem always_foldlM {I : List ι → σ → Prop} {s : σ} (hs : I [] s)
    (hstep : ∀ pre i post s, is = pre ++ i :: post → I pre s → Always (f s i) (I (pre ++ [i]))) :
    Always (is.foldlM f s) (I is) := by
  suffices h : ∀ post pre s, is = pre ++ post → I pre s → Always (post.foldlM f s) (I is) from
    h is [] s rfl hs
  intro post
  induction post with
  | nil =>
    intro pre s his hpre
    obtain rfl : is = pre := by simpa using his
    simpa using hpre
  | cons i post ih =>
    intro pre s his hpre
    rw [List.foldlM_cons, always_bind]
    apply (hstep pre i post s his hpre).imp
    intro t ht
    exact ih (pre ++ [i]) t (by simp [his]) ht

theorem can_foldlM (reached : List ι → σ)
    (hstep : ∀ pre i post, is = pre ++ i :: post → Can (f (reached pre) i) (reached (pre ++ [i]))) :
    Can (is.foldlM f (reached [])) (reached is) := by
  suffices h : ∀ post pre, is = pre ++ post → Can (post.foldlM f (reached pre)) (reached is) from
    h is [] rfl
  intro post
  induction post with
  | nil =>
    intro pre his
    simp [his]
  | cons i post ih =>
    intro pre his
    rw [List.foldlM_cons, can_bind]
    exact ⟨_, hstep pre i post his, ih (pre ++ [i]) (by simp [his])⟩

lemma can_invariant {P : σ → Prop} {s t : σ} (hs : P s)
    (hstep : ∀ i ∈ is, ∀ s t, P s → Can (f s i) t → P t) (h : Can (is.foldlM f s) t) : P t := by
  induction is generalizing s with
  | nil =>
    obtain rfl : t = s := by simpa using h
    exact hs
  | cons i is ih =>
    rw [List.foldlM_cons, can_bind] at h
    obtain ⟨u, hu, ht⟩ := h
    exact ih (hstep i (by simp) s u hs hu) (fun j hj => hstep j (by simp [hj])) ht

lemma foldlM_flatMap {as : List α} {g : α → List ι} (s : σ) :
    (as.flatMap g).foldlM f s = as.foldlM (fun s a => (g a).foldlM f s) s := by
  induction as generalizing s with
  | nil => rfl
  | cons a as ih => simp [List.foldlM_append, ih]

end Loops

end Xcoin.Lib.Choices
