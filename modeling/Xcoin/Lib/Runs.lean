import Mathlib.Tactic

/-! Finite runs of a step function that may stop with a fault, and the induction
rules every run shares. -/

namespace Xcoin.Lib.Runs

variable {σ ε φ α β : Type}

lemma bind_ok {x : Except φ α} {f : α → Except φ β} {b : β} :
    (x >>= f) = .ok b ↔ ∃ a, x = .ok a ∧ f a = .ok b := by
  cases x <;> simp [bind, Except.bind]

lemma bind_error {x : Except φ α} {f : α → Except φ β} {d : φ} :
    (x >>= f) = .error d ↔ x = .error d ∨ ∃ a, x = .ok a ∧ f a = .error d := by
  cases x <;> simp [bind, Except.bind]

lemma map_ok {x : Except φ α} {f : α → β} {b : β} :
    (f <$> x) = .ok b ↔ ∃ a, x = .ok a ∧ f a = b := by
  cases x <;> simp [Functor.map, Except.map]

lemma map_error {x : Except φ α} {f : α → β} {d : φ} :
    (f <$> x) = .error d ↔ x = .error d := by
  cases x <;> simp [Functor.map, Except.map]

lemma map_pair_ok {x : Except φ β} {a a' : α} {b : β} :
    Prod.mk a <$> x = .ok (a', b) ↔ a = a' ∧ x = .ok b := by
  cases x <;> simp [Functor.map, Except.map]

def holdsAfter (x : Except φ α) (p : α → Bool) : Bool :=
  match x with
  | .ok a => p a
  | .error _ => false

lemma holdsAfter_iff {x : Except φ α} {p : α → Bool} :
    holdsAfter x p = true ↔ ∃ a, x = .ok a ∧ p a = true := by
  cases x <;> simp [holdsAfter]

def run (step : σ → ε → Except φ σ) (s : σ) (es : List ε) : Except φ σ :=
  es.foldlM step s

variable (step : σ → ε → Except φ σ)

@[simp] lemma run_nil (s : σ) : run step s [] = .ok s := rfl

lemma run_cons (s : σ) (e : ε) (es : List ε) :
    run step s (e :: es) = step s e >>= fun t => run step t es := rfl

lemma run_singleton (s : σ) (e : ε) : run step s [e] = step s e := by
  rw [run_cons]
  cases step s e <;> rfl

lemma run_append (s : σ) (es fs : List ε) :
    run step s (es ++ fs) = run step s es >>= fun t => run step t fs := by
  simp [run]

lemma run_cons_ok {s t : σ} {e : ε} {es : List ε} :
    run step s (e :: es) = .ok t ↔ ∃ u, step s e = .ok u ∧ run step u es = .ok t := by
  rw [run_cons, bind_ok]

lemma run_append_ok {s t : σ} {es fs : List ε} :
    run step s (es ++ fs) = .ok t ↔ ∃ u, run step s es = .ok u ∧ run step u fs = .ok t := by
  rw [run_append, bind_ok]

lemma run_snoc_ok {s t : σ} {es : List ε} {e : ε} :
    run step s (es ++ [e]) = .ok t ↔ ∃ u, run step s es = .ok u ∧ step u e = .ok t := by
  simp [run_append_ok, run_cons_ok]

lemma run_map (f : α → ε) (s : σ) (as : List α) :
    run step s (as.map f) = run (fun s a => step s (f a)) s as := List.foldlM_map

variable {step}

theorem run_invariant_at {P : σ → Prop} {s t : σ} {es : List ε} (hs : P s)
    (hstep : ∀ pre e post u v, es = pre ++ e :: post → run step s pre = .ok u → P u →
      step u e = .ok v → P v)
    (h : run step s es = .ok t) : P t := by
  induction es using List.reverseRecOn generalizing t with
  | nil =>
    obtain rfl : s = t := by simpa using h
    exact hs
  | append_singleton es e ih =>
    obtain ⟨u, hu, ht⟩ := (run_snoc_ok step).mp h
    refine hstep es e [] u t rfl hu (ih ?_ hu) ht
    intro pre e' post v w hes
    exact hstep pre e' (post ++ [e]) v w (by simp [hes])

theorem run_invariant {P : σ → Prop} (hstep : ∀ s e t, P s → step s e = .ok t → P t)
    {s t : σ} {es : List ε} (hs : P s) (h : run step s es = .ok t) : P t :=
  run_invariant_at hs (fun _ e _ u v _ _ hu hv => hstep u e v hu hv) h

theorem run_error_iff {s : σ} {es : List ε} {d : φ} :
    run step s es = .error d ↔
      ∃ pre e post u, es = pre ++ e :: post ∧ run step s pre = .ok u ∧ step u e = .error d := by
  induction es generalizing s with
  | nil => simp
  | cons e es ih =>
    rw [run_cons, bind_error]
    constructor
    · rintro (h | ⟨u, hu, h⟩)
      · exact ⟨[], e, es, s, rfl, rfl, h⟩
      · obtain ⟨pre, e', post, v, rfl, hv, hd⟩ := ih.mp h
        exact ⟨e :: pre, e', post, v, rfl, (run_cons_ok step).mpr ⟨u, hu, hv⟩, hd⟩
    · rintro ⟨pre, e', post, v, hes, hv, hd⟩
      cases pre with
      | nil =>
        obtain ⟨rfl, rfl⟩ : e = e' ∧ es = post := by simpa using hes
        obtain rfl : s = v := by simpa using hv
        exact Or.inl hd
      | cons e₀ pre =>
        obtain ⟨rfl, rfl⟩ : e = e₀ ∧ es = pre ++ e' :: post := by simpa using hes
        obtain ⟨u, hu, hv⟩ := (run_cons_ok step).mp hv
        exact Or.inr ⟨u, hu, ih.mpr ⟨pre, e', post, v, rfl, hv, hd⟩⟩

/-- A step that does what another one does where it is safe, and fails elsewhere, comes through
a run just when it is safe before each of its steps. -/
theorem run_guarded_iff {ψ : Type} {guarded : σ → ε → Except ψ σ} {safe : σ → ε → Prop}
    {I : σ → Prop} (hstep : ∀ s e t, I s → step s e = .ok t → I t)
    (hsame : ∀ s e t, guarded s e = .ok t → step s e = .ok t)
    (hsafe : ∀ s e, I s → ((∃ t, guarded s e = .ok t) ↔ safe s e)) {s : σ} {es : List ε}
    (hs : I s) :
    (∃ t, run guarded s es = .ok t) ↔
      ∀ pre e post t, es = pre ++ e :: post → run step s pre = .ok t → safe t e := by
  induction es generalizing s with
  | nil => simp
  | cons e es ih =>
    constructor
    · rintro ⟨u, hu⟩ pre e' post t hes ht
      obtain ⟨v, hv, hu⟩ := (run_cons_ok guarded).mp hu
      cases pre with
      | nil =>
        obtain ⟨rfl, -⟩ : e = e' ∧ es = post := by simpa using hes
        obtain rfl : s = t := by simpa using ht
        exact (hsafe s e hs).mp ⟨v, hv⟩
      | cons e₀ pre =>
        obtain ⟨rfl, rfl⟩ : e = e₀ ∧ es = pre ++ e' :: post := by simpa using hes
        obtain ⟨w, hw, ht⟩ := (run_cons_ok step).mp ht
        obtain rfl : v = w := Except.ok.inj ((hsame s e v hv).symm.trans hw)
        exact (ih (hstep s e v hs hw)).mp ⟨u, hu⟩ pre e' post t rfl ht
    · intro h
      obtain ⟨v, hv⟩ := (hsafe s e hs).mpr (h [] e es s rfl rfl)
      have hw := hsame s e v hv
      obtain ⟨u, hu⟩ := (ih (hstep s e v hs hw)).mpr fun pre e' post t hes ht =>
        h (e :: pre) e' post t (congrArg (e :: ·) hes) ((run_cons_ok step).mpr ⟨v, hw, ht⟩)
      exact ⟨u, (run_cons_ok guarded).mpr ⟨v, hv, hu⟩⟩

inductive ReachesWhile (next : σ → σ → Prop) (P : σ → Prop) (init : σ) : σ → Prop
  | start : P init → ReachesWhile next P init init
  | step {s t} : ReachesWhile next P init s → next s t → P t → ReachesWhile next P init t

lemma ReachesWhile.holds {next : σ → σ → Prop} {P : σ → Prop} {init s : σ}
    (h : ReachesWhile next P init s) : P s := by
  cases h <;> assumption

theorem ReachesWhile.invariant {next : σ → σ → Prop} {P Q : σ → Prop} {init s : σ}
    (hinit : Q init) (hstep : ∀ s t, P s → Q s → next s t → Q t)
    (h : ReachesWhile next P init s) : Q s := by
  induction h with
  | start _ => exact hinit
  | step hr hn _ ih => exact hstep _ _ hr.holds ih hn

end Xcoin.Lib.Runs
