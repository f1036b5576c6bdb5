import Xcoin.Lib.Closure

/-! Strongly connected sets of a directed graph: what splicing a node into an edge keeps, and
components labelled by numbers with a sink as number 0. -/

namespace Xcoin.Lib.Connectivity

open Relation Lib.Closure

variable {V : Type} {edge edge' : V → V → Prop} {S : Set V} {u v w : V}

def Inside (edge : V → V → Prop) (S : Set V) (a b : V) : Prop := a ∈ S ∧ b ∈ S ∧ edge a b

def StrongOn (edge : V → V → Prop) (S : Set V) : Prop :=
  ∀ a ∈ S, ∀ b ∈ S, ReflTransGen (Inside edge S) a b

def Strong (edge : V → V → Prop) : Prop := ∀ a b, ReflTransGen edge a b

lemma strong_of_univ (h : StrongOn edge S) (hS : ∀ v, v ∈ S) : Strong edge :=
  fun a b => (h a (hS a) b (hS b)).lift id fun _ _ hab => hab.2.2

lemma inside_of_reach {a b : V} (hclosed : ∀ x y, x ∈ S → edge x y → y ∈ S) (ha : a ∈ S)
    (h : ReflTransGen edge a b) : ReflTransGen (Inside edge S) a b := by
  induction h with
  | refl => exact .refl
  | @tail x y hx hxy ih =>
    have hxS : x ∈ S := mem_of_closed hclosed ha hx
    exact ih.tail ⟨hxS, hclosed x y hxS hxy, hxy⟩

lemma strongOn_of_closed (hclosed : ∀ x y, x ∈ S → edge x y → y ∈ S)
    (h : ∀ a ∈ S, ∀ b ∈ S, ReflTransGen edge a b) : StrongOn edge S :=
  fun a ha b hb => inside_of_reach hclosed ha (h a ha b hb)

/-- A node spliced into the edge `v → u` joins the strongly connected set. -/
theorem StrongOn.splice (h : StrongOn edge S) (hv : v ∈ S) (hu : u ∈ S)
    (hkeep : ∀ a b, Inside edge S a b → (a, b) ≠ (v, u) → edge' a b)
    (hvw : edge' v w) (hwu : edge' w u) : StrongOn edge' (insert w S) := by
  have hin : ReflTransGen (Inside edge' (insert w S)) v w :=
    .single ⟨Set.mem_insert_of_mem w hv, Set.mem_insert w S, hvw⟩
  have hout : ReflTransGen (Inside edge' (insert w S)) w u :=
    .single ⟨Set.mem_insert w S, Set.mem_insert_of_mem w hu, hwu⟩
  have hold : ∀ a ∈ S, ∀ b ∈ S, ReflTransGen (Inside edge' (insert w S)) a b := by
    intro a ha b hb
    refine (h a ha b hb).lift' id ?_
    intro x y hxy
    by_cases he : (x, y) = (v, u)
    · obtain ⟨rfl, rfl⟩ : x = v ∧ y = u := by simpa using he
      exact hin.trans hout
    · exact .single ⟨Set.mem_insert_of_mem w hxy.1, Set.mem_insert_of_mem w hxy.2.1,
        hkeep x y hxy he⟩
  have hfrom : ∀ b ∈ S, ReflTransGen (Inside edge' (insert w S)) w b :=
    fun b hb => hout.trans (hold u hu b hb)
  have hto : ∀ a ∈ S, ReflTransGen (Inside edge' (insert w S)) a w :=
    fun a ha => (hold a ha v hv).trans hin
  intro a ha b hb
  cases ha with
  | inl ha =>
    subst ha
    cases hb with
    | inl hb => exact hb ▸ .refl
    | inr hb => exact hfrom b hb
  | inr ha =>
    cases hb with
    | inl hb => exact hb ▸ hto a ha
    | inr hb => exact hold a ha b hb

/-- The numbers are those of the strongly connected components, and number 0 is a component
that no edge leaves. -/
structure Labelled (edge : V → V → Prop) (c : ℕ × (V → ℕ)) : Prop where
  same : ∀ a b, c.2 a = c.2 b ↔ ReflTransGen edge a b ∧ ReflTransGen edge b a
  bounded : ∀ a, c.2 a < c.1
  used : ∀ i < c.1, ∃ a, c.2 a = i
  zero : ∃ a, c.2 a = 0
  closed : ∀ a b, c.2 a = 0 → edge a b → c.2 b = 0

variable {c : ℕ × (V → ℕ)}

lemma Labelled.strongOn_zero (h : Labelled edge c) : StrongOn edge {v | c.2 v = 0} := by
  apply strongOn_of_closed h.closed
  intro a ha b hb
  exact ((h.same a b).mp (Eq.trans ha (Eq.symm hb))).1

lemma Labelled.strong_iff (h : Labelled edge c) : c.1 = 1 ↔ Strong edge := by
  constructor
  · intro h1 a b
    have ha := h.bounded a
    have hb := h.bounded b
    exact ((h.same a b).mp (by omega)).1
  · intro hs
    obtain ⟨a, ha⟩ := h.zero
    have ha' := h.bounded a
    by_contra hne
    obtain ⟨b, hb⟩ := h.used 1 (by omega)
    have hab := (h.same a b).mpr ⟨hs a b, hs b a⟩
    omega

lemma exists_sink [Finite V] [Nonempty V] (edge : V → V → Prop) :
    ∃ s, ∀ v, ReflTransGen edge s v → ReflTransGen edge v s := by
  let : Preorder V :=
    { le := ReflTransGen edge, le_refl := fun _ => .refl, le_trans := fun _ _ _ => .trans }
  obtain ⟨s, -, hs⟩ := Set.finite_univ.exists_maximal (Set.univ_nonempty (α := V))
  exact ⟨s, fun v => hs (Set.mem_univ v)⟩

section Compute

variable [DecidableEq V] (nodes : List V) (e : V → V → Bool)

def closure : V → V → Bool :=
  nodes.foldr (fun p r a b => r a b || (r a p && r p b)) fun a b => a = b || e a b

def linked (a b : V) : Bool := closure nodes e a b && closure nodes e b a

def sink? : Option V :=
  nodes.find? fun s => nodes.all fun v => closure nodes e s v → closure nodes e v s

def representative (v : V) : Option V := nodes.find? (linked nodes e v)

def others (s : V) : List (Option V) :=
  ((nodes.filter fun v => !linked nodes e s v).map (representative nodes e)).dedup

def label (s v : V) : ℕ :=
  if linked nodes e s v then 0 else (others nodes e s).idxOf (representative nodes e v) + 1

def components : ℕ × (V → ℕ) :=
  match sink? nodes e with
  | none => (0, fun _ => 0)
  | some s => ((others nodes e s).length + 1, label nodes e s)

variable {nodes e} {a b : V}

lemma closure_sound (h : closure nodes e a b = true) :
    ReflTransGen (fun x y => e x y = true) a b := by
  induction nodes generalizing a b with
  | nil =>
    have h : a = b ∨ e a b = true := by simpa [closure] using h
    cases h with
    | inl h => exact h ▸ .refl
    | inr h => exact .single h
  | cons p nodes ih =>
    have h : closure nodes e a b = true ∨
        closure nodes e a p = true ∧ closure nodes e p b = true := by
      simpa [closure] using h
    cases h with
    | inl h => exact ih h
    | inr h => exact (ih h.1).trans (ih h.2)

lemma closure_base (h : a = b ∨ e a b = true) : closure nodes e a b = true := by
  induction nodes with
  | nil => simpa [closure] using h
  | cons p nodes ih =>
    have hc : closure (p :: nodes) e a b =
        (closure nodes e a b || (closure nodes e a p && closure nodes e p b)) := rfl
    simp [hc, ih]

lemma closure_through {p : V} (hp : p ∈ nodes) (ha : closure nodes e a p = true)
    (hb : closure nodes e p b = true) : closure nodes e a b = true := by
  induction nodes generalizing a b with
  | nil => simp at hp
  | cons q nodes ih =>
    have hc : ∀ x y, closure (q :: nodes) e x y =
        (closure nodes e x y || (closure nodes e x q && closure nodes e q y)) := fun _ _ => rfl
    simp only [hc, Bool.or_eq_true, Bool.and_eq_true] at ha hb ⊢
    cases List.mem_cons.mp hp with
    | inl hp =>
      subst hp
      exact .inr ⟨by tauto, by tauto⟩
    | inr hp =>
      cases ha with
      | inl ha =>
        cases hb with
        | inl hb => exact .inl (ih hp ha hb)
        | inr hb => exact .inr ⟨ih hp ha hb.1, hb.2⟩
      | inr ha =>
        cases hb with
        | inl hb => exact .inr ⟨ha.1, ih hp ha.2 hb⟩
        | inr hb => exact .inr ⟨ha.1, hb.2⟩

lemma closure_iff (hall : ∀ v, v ∈ nodes) :
    closure nodes e a b = true ↔ ReflTransGen (fun x y => e x y = true) a b := by
  constructor
  · exact closure_sound
  · intro h
    induction h with
    | refl => exact closure_base (.inl rfl)
    | @tail x y _ hxy ih => exact closure_through (hall x) ih (closure_base (.inr hxy))

lemma linked_iff (hall : ∀ v, v ∈ nodes) : linked nodes e a b = true ↔
    ReflTransGen (fun x y => e x y = true) a b ∧ ReflTransGen (fun x y => e x y = true) b a := by
  simp [linked, closure_iff hall]

lemma representative_eq_iff (hall : ∀ v, v ∈ nodes) :
    representative nodes e a = representative nodes e b ↔ linked nodes e a b = true := by
  constructor
  · intro h
    cases ha : representative nodes e a with
    | none =>
      have hself := List.find?_eq_none.mp ha a (hall a)
      exact absurd ((linked_iff hall).mpr ⟨.refl, .refl⟩) hself
    | some r =>
      have har := (linked_iff hall).mp (List.find?_some ha)
      have hbr := (linked_iff hall).mp (List.find?_some (h ▸ ha))
      exact (linked_iff hall).mpr ⟨har.1.trans hbr.2, hbr.1.trans har.2⟩
  · intro h
    have h := (linked_iff hall).mp h
    have heq : linked nodes e a = linked nodes e b := by
      funext v
      rw [Bool.eq_iff_iff, linked_iff hall, linked_iff hall]
      exact ⟨fun hv => ⟨h.2.trans hv.1, hv.2.trans h.1⟩, fun hv => ⟨h.1.trans hv.1, hv.2.trans h.2⟩⟩
    rw [representative, representative, heq]

lemma mem_others_iff (hall : ∀ v, v ∈ nodes) {s : V} {r : Option V} :
    r ∈ others nodes e s ↔ ∃ v, linked nodes e s v = false ∧ representative nodes e v = r := by
  simp [others, hall]

lemma mem_others (hall : ∀ v, v ∈ nodes) {s v : V} (hv : ¬ linked nodes e s v = true) :
    representative nodes e v ∈ others nodes e s :=
  (mem_others_iff hall).mpr ⟨v, by simpa using hv, rfl⟩

lemma linked_refl (hall : ∀ v, v ∈ nodes) (a : V) : linked nodes e a a = true :=
  (linked_iff hall).mpr ⟨.refl, .refl⟩

lemma linked_symm (h : linked nodes e a b = true) : linked nodes e b a = true := by
  simp only [linked, Bool.and_eq_true] at h ⊢
  exact h.symm

lemma linked_trans (hall : ∀ v, v ∈ nodes) {d : V} (hab : linked nodes e a b = true)
    (hbd : linked nodes e b d = true) : linked nodes e a d = true := by
  have hab := (linked_iff hall).mp hab
  have hbd := (linked_iff hall).mp hbd
  exact (linked_iff hall).mpr ⟨hab.1.trans hbd.1, hbd.2.trans hab.2⟩

lemma label_zero {s : V} : label nodes e s a = 0 ↔ linked nodes e s a = true := by
  simp [label]

lemma label_lt (hall : ∀ v, v ∈ nodes) (s a : V) :
    label nodes e s a < (others nodes e s).length + 1 := by
  by_cases ha : linked nodes e s a = true
  · simp [label, ha]
  · have := List.idxOf_lt_length_iff.mpr (mem_others hall ha)
    simp [label, ha, this]

lemma label_eq (hall : ∀ v, v ∈ nodes) {s : V} :
    label nodes e s a = label nodes e s b ↔ linked nodes e a b = true := by
  by_cases ha : linked nodes e s a = true
  · have hzero : label nodes e s a = 0 := label_zero.mpr ha
    rw [hzero, eq_comm, label_zero]
    exact ⟨linked_trans hall (linked_symm ha), linked_trans hall ha⟩
  · by_cases hb : linked nodes e s b = true
    · have hzero : label nodes e s b = 0 := label_zero.mpr hb
      rw [hzero, label_zero]
      exact ⟨fun h => absurd h ha,
        fun h => absurd (linked_trans hall hb (linked_symm h)) ha⟩
    · have hinj := List.idxOf_inj (y := representative nodes e b) (mem_others hall ha)
      simp [label, ha, hb, hinj, representative_eq_iff hall]

lemma label_used (hall : ∀ v, v ∈ nodes) (s : V) {i : ℕ} (hi : i < (others nodes e s).length) :
    ∃ a, label nodes e s a = i + 1 := by
  obtain ⟨a, ha, hrep⟩ := (mem_others_iff hall).mp (List.getElem_mem hi)
  have hnodup : (others nodes e s).Nodup := List.nodup_dedup _
  refine ⟨a, ?_⟩
  rw [label, ha, hrep, hnodup.idxOf_getElem]
  rfl

/-- The computed numbers are a labelling of the kind above, on every finite graph with a node. -/
theorem components_labelled [Finite V] [Nonempty V] (hall : ∀ v, v ∈ nodes) :
    Labelled (fun x y => e x y = true) (components nodes e) := by
  cases hs : sink? nodes e with
  | none =>
    obtain ⟨s, hsink⟩ := exists_sink fun x y => e x y = true
    have hnone := List.find?_eq_none.mp hs s (hall s)
    simp only [List.all_eq_true, decide_eq_true_eq, closure_iff hall] at hnone
    exact absurd (fun v _ => hsink v) hnone
  | some s =>
    have hsink : ∀ v, ReflTransGen (fun x y => e x y = true) s v →
        ReflTransGen (fun x y => e x y = true) v s := by
      have h := List.find?_some hs
      simp only [List.all_eq_true, decide_eq_true_eq, closure_iff hall] at h
      exact fun v => h v (hall v)
    have hc : components nodes e = ((others nodes e s).length + 1, label nodes e s) := by
      simp [components, hs]
    rw [hc]
    refine ⟨fun a b => ?_, label_lt hall s, ?_, ⟨s, label_zero.mpr (linked_refl hall s)⟩, ?_⟩
    · rw [label_eq hall, linked_iff hall]
    · intro i hi
      cases i with
      | zero => exact ⟨s, label_zero.mpr (linked_refl hall s)⟩
      | succ i => exact label_used hall s (by simpa using hi)
    · intro a b ha hab
      have hsa := (linked_iff hall).mp (label_zero.mp ha)
      have hsb : ReflTransGen (fun x y => e x y = true) s b := hsa.1.tail hab
      exact label_zero.mpr ((linked_iff hall).mpr ⟨hsb, hsink b hsb⟩)

end Compute

end Xcoin.Lib.Connectivity
