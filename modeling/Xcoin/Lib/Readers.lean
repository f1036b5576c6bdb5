import Xcoin.Lib.Runs

/-! Readers of a stream of records. When what a reader delivers was among the bytes it took, a
stream is delivered record by record only if its pieces are the records. -/

namespace Xcoin.Lib.Readers

open Runs

variable {σ β γ φ : Type}

/-- `act` is what becomes of a record that is a piece of its own and that the reader accepts. -/
structure Reader (σ β γ φ : Type) where
  step : σ → List β → Except φ σ
  act : σ → γ → Except φ σ
  log : σ → List γ
  enc : γ → List β
  Accepts : List β → Prop
  step_enc : ∀ (s : σ) (b : γ), enc b ≠ [] → Accepts (enc b) → step s (enc b) = act s b
  act_log : ∀ {s t : σ} {b : γ}, act s b = .ok t → log t = log s ++ [b]

namespace Reader

variable (r : Reader σ β γ φ)

/-- A piece gives no more records than it has bytes for, and just enough only as one record. -/
def Counts : Prop :=
  ∀ ⦃s t : σ⦄ ⦃p : List β⦄, p ≠ [] → r.step s p = .ok t → ∃ bs, r.log t = r.log s ++ bs ∧
    (bs.map r.enc).flatten.length ≤ p.length ∧
    (p.length ≤ (bs.map r.enc).flatten.length →
      [p].map List.length = (bs.map r.enc).map List.length ∧ r.Accepts p)

variable {r} {s t : σ} {pieces : List (List β)} {bs : List γ}

theorem run_ok (hr : r.Counts) (hne : [] ∉ pieces) (h : run r.step s pieces = .ok t) :
    ∃ bs, r.log t = r.log s ++ bs ∧ (bs.map r.enc).flatten.length ≤ pieces.flatten.length ∧
      (pieces.flatten.length ≤ (bs.map r.enc).flatten.length →
        pieces.map List.length = (bs.map r.enc).map List.length ∧ ∀ p ∈ pieces, r.Accepts p) := by
  induction pieces generalizing s with
  | nil =>
    obtain rfl := Except.ok.inj h
    exact ⟨[], by simp⟩
  | cons p pieces ih =>
    obtain ⟨u, hu, ht⟩ := (run_cons_ok _).mp h
    have hp : p ≠ [] := fun hp => hne (hp ▸ List.mem_cons_self)
    obtain ⟨bs, hlog, hle, hwhole⟩ := hr hp hu
    obtain ⟨bs', hlog', hle', hwhole'⟩ := ih (fun h => hne (List.mem_cons_of_mem p h)) ht
    refine ⟨bs ++ bs', by rw [hlog', hlog, List.append_assoc], ?_⟩
    rw [List.map_append, List.flatten_append, List.length_append, List.flatten_cons,
      List.length_append]
    refine ⟨by omega, ?_⟩
    intro hge
    obtain ⟨hone, haccept⟩ := hwhole (by omega)
    obtain ⟨hrest, hall⟩ := hwhole' (by omega)
    rw [List.map_append, ← hone, ← hrest]
    exact ⟨rfl, List.forall_mem_cons.mpr ⟨haccept, hall⟩⟩

lemma run_act_log (h : run r.act s bs = .ok t) : r.log t = r.log s ++ bs := by
  induction bs generalizing s with
  | nil =>
    obtain rfl := Except.ok.inj h
    simp
  | cons b bs ih =>
    obtain ⟨u, hu, ht⟩ := (run_cons_ok _).mp h
    rw [ih ht, r.act_log hu, List.append_assoc]
    rfl

/-- Pieces that are the records, each accepted, are read record by record. -/
theorem run_enc (hne : [] ∉ pieces) (hpieces : pieces = bs.map r.enc)
    (haccept : ∀ p ∈ pieces, r.Accepts p) : run r.step s pieces = run r.act s bs := by
  induction bs generalizing s pieces with
  | nil =>
    rw [hpieces]
    rfl
  | cons b bs ih =>
    rw [List.map_cons] at hpieces
    subst hpieces
    obtain ⟨hfirst, hrest⟩ := List.forall_mem_cons.mp haccept
    have hnil : r.enc b ≠ [] := fun h => hne (h ▸ List.mem_cons_self)
    rw [run_cons, run_cons, r.step_enc s b hnil hfirst]
    cases r.act s b with
    | error fault => rfl
    | ok u => exact ih (fun h => hne (List.mem_cons_of_mem _ h)) rfl hrest

/-- All records are delivered, each once and in order, just when every piece is a record that
the reader accepts and what it does with the records succeeds. -/
theorem run_iff (hr : r.Counts) (hne : [] ∉ pieces)
    (hstream : pieces.flatten = (bs.map r.enc).flatten) :
    (run r.step s pieces = .ok t ∧ r.log t = r.log s ++ bs) ↔
      pieces = bs.map r.enc ∧ (∀ p ∈ pieces, r.Accepts p) ∧ run r.act s bs = .ok t := by
  constructor
  · rintro ⟨ht, hlog⟩
    obtain ⟨bs', hlog', -, hwhole⟩ := run_ok hr hne ht
    rw [hlog, List.append_cancel_left_eq] at hlog'
    obtain rfl := hlog'
    obtain ⟨hlengths, haccept⟩ := hwhole (congrArg List.length hstream).le
    have hpieces := List.eq_iff_flatten_eq.mpr ⟨hstream, hlengths⟩
    exact ⟨hpieces, haccept, (run_enc hne hpieces haccept).symm.trans ht⟩
  · rintro ⟨hpieces, haccept, ht⟩
    exact ⟨(run_enc hne hpieces haccept).trans ht, run_act_log ht⟩

end Reader

end Xcoin.Lib.Readers
