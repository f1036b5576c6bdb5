import Mathlib.Tactic

/-! Sets closed under a relation, and what is reachable from one element. -/

namespace Xcoin.Lib.Closure

open Relation

variable {α : Type} {r : α → α → Prop} {S : α → Prop} {a b : α}

lemma mem_of_closed (hclosed : ∀ x y, S x → r x y → S y) (ha : S a) (h : ReflTransGen r a b) :
    S b := by
  induction h with
  | refl => exact ha
  | tail _ hxy ih => exact hclosed _ _ ih hxy

theorem mem_iff_reachable (ha : S a) (hclosed : ∀ x y, S x → r x y → S y)
    (hreach : ∀ x, S x → ReflTransGen r a x) : S b ↔ ReflTransGen r a b :=
  ⟨hreach b, mem_of_closed hclosed ha⟩

end Xcoin.Lib.Closure
