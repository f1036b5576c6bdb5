import Mathlib.Tactic

/-! Following a pointer a number of times. -/

namespace Xcoin.Lib.Chase

variable {α : Type}

def chase (next : α → Option α) : ℕ → α → Option α
  | 0, a => some a
  | n + 1, a => (next a).bind (chase next n)

variable {next back : α → Option α}

@[simp] lemma chase_zero (a : α) : chase next 0 a = some a := rfl

lemma chase_succ (n : ℕ) (a : α) : chase next (n + 1) a = (next a).bind (chase next n) := rfl

lemma chase_add (m n : ℕ) (a : α) :
    chase next (m + n) a = (chase next m a).bind (chase next n) := by
  induction m generalizing a with
  | zero => simp
  | succ m ih =>
    rw [Nat.add_right_comm, chase_succ, chase_succ]
    cases next a with
    | none => rfl
    | some b => exact ih b

lemma chase_succ_last (n : ℕ) (a : α) :
    chase next (n + 1) a = (chase next n a).bind next := by
  rw [chase_add]
  cases chase next n a with
  | none => rfl
  | some b =>
    change (next b).bind some = next b
    simp

lemma chase_some_of_le {m n : ℕ} {a b : α} (hmn : m ≤ n) (h : chase next n a = some b) :
    ∃ c, chase next m a = some c ∧ chase next (n - m) c = some b := by
  obtain ⟨k, rfl⟩ := Nat.exists_eq_add_of_le hmn
  rw [chase_add] at h
  obtain ⟨c, hc, hb⟩ := Option.bind_eq_some_iff.mp h
  exact ⟨c, hc, by simpa using hb⟩

lemma chase_end_le {m n : ℕ} {a b : α} (hb : next b = none) (hm : chase next m a = some b)
    (hn : chase next n a = some b) : m ≤ n := by
  by_contra hlt
  obtain ⟨k, rfl⟩ : ∃ k, m = n + (k + 1) := ⟨m - n - 1, by omega⟩
  rw [chase_add, hn, Option.bind_some, chase_succ, hb] at hm
  simp at hm

/-- Where `back` undoes `next` along a path, the path can be walked in both directions. -/
theorem chase_back {n : ℕ} {a b : α} (h : chase next n a = some b)
    (hback : ∀ k c d, k < n → chase next k a = some c → next c = some d → back d = some c)
    {m : ℕ} (hm : m ≤ n) : chase back m b = chase next (n - m) a := by
  induction m with
  | zero => simpa using h.symm
  | succ m ih =>
    rw [chase_succ_last, ih (by omega)]
    obtain ⟨c, hc, hcb⟩ := chase_some_of_le (by omega : n - (m + 1) ≤ n) h
    have hd : chase next (n - m) a = next c := by
      rw [show n - m = n - (m + 1) + 1 by omega, chase_succ_last, hc]
      rfl
    obtain ⟨d, hd', -⟩ := chase_some_of_le (by omega : n - m ≤ n) h
    rw [hd', hc]
    exact hback _ c d (by omega) hc (hd ▸ hd')

end Xcoin.Lib.Chase
