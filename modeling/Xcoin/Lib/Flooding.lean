import Mathlib.Tactic
import Xcoin.Lib.Closure

/-! Flooding a directed graph: a vertex forwards to all its neighbours when it is first
reached, and ignores what it receives after that. -/

namespace Xcoin.Lib.Flooding

open Relation Closure

variable {V : Type} [DecidableEq V]

structure State (V : Type) where
  informed : Set V
  in_flight : Multiset (V × V)
  handled : Multiset (V × V)

variable (out : V → Finset V)

def fanout (u : V) : Multiset (V × V) := (out u).val.map (Prod.mk u)

def start (root : V) : State V where
  informed := {root}
  in_flight := fanout out root
  handled := 0

inductive Step (s : State V) : State V → Prop
  | first {p : V × V} : p ∈ s.in_flight → p.2 ∉ s.informed →
      Step s {
        informed := insert p.2 s.informed
        in_flight := s.in_flight.erase p + fanout out p.2
        handled := p ::ₘ s.handled }
  | again {p : V × V} : p ∈ s.in_flight → p.2 ∈ s.informed →
      Step s { s with in_flight := s.in_flight.erase p, handled := p ::ₘ s.handled }

def Edge (u v : V) : Prop := v ∈ out u

def State.carried (s : State V) (u v : V) : ℕ := (s.in_flight + s.handled).count (u, v)

structure Sound (root : V) (s : State V) : Prop where
  rooted : root ∈ s.informed
  once : ∀ {u v : V}, u ∈ s.informed → v ∈ out u → s.carried u v = 1
  none : ∀ {u v : V}, ¬ (u ∈ s.informed ∧ v ∈ out u) → s.carried u v = 0
  handled : ∀ {p : V × V}, p ∈ s.handled → p.2 ∈ s.informed
  reached : ∀ {v : V}, v ∈ s.informed → ReflTransGen (Edge out) root v

variable {out} {root : V} {s t : State V}

lemma count_fanout (w u v : V) :
    (fanout out w).count (u, v) = if u = w ∧ v ∈ out w then 1 else 0 := by
  have hnodup : (fanout out w).Nodup :=
    (Finset.nodup _).map fun a b h => congrArg Prod.snd h
  rw [Multiset.count_eq_of_nodup hnodup]
  congr 1
  simp only [fanout, Multiset.mem_map, Finset.mem_val, Prod.mk.injEq, eq_iff_iff]
  constructor
  · rintro ⟨x, hx, rfl, rfl⟩
    exact ⟨rfl, hx⟩
  · rintro ⟨rfl, hv⟩
    exact ⟨v, hv, rfl, rfl⟩

lemma start_sound : Sound out root (start out root) where
  rooted := rfl
  once {u v} hu hv := by
    obtain rfl : u = root := hu
    change ((fanout out u) + 0).count (u, v) = 1
    rw [add_zero, count_fanout, if_pos ⟨rfl, hv⟩]
  none {u v} h := by
    change ((fanout out root) + 0).count (u, v) = 0
    rw [add_zero, count_fanout, if_neg]
    rintro ⟨rfl, hv⟩
    exact h ⟨rfl, hv⟩
  handled hp := by simp [start] at hp
  reached {v} hv := by
    obtain rfl : v = root := hv
    exact .refl

lemma Sound.flight_edge (h : Sound out root s) {u v : V} (hf : (u, v) ∈ s.in_flight) :
    u ∈ s.informed ∧ v ∈ out u := by
  by_contra hno
  have hzero := h.none hno
  have hpos := Multiset.count_pos.mpr hf
  rw [State.carried, Multiset.count_add] at hzero
  omega

lemma count_moved {p : V × V} (hp : p ∈ s.in_flight) (q : V × V) :
    (s.in_flight.erase p + p ::ₘ s.handled).count q = (s.in_flight + s.handled).count q := by
  have hcons : s.in_flight.erase p + p ::ₘ s.handled = s.in_flight + s.handled := by
    rw [Multiset.add_cons, ← Multiset.cons_add, Multiset.cons_erase hp]
  rw [hcons]

lemma carried_first {p : V × V} (hp : p ∈ s.in_flight) (u v : V) :
    State.carried {
      informed := insert p.2 s.informed
      in_flight := s.in_flight.erase p + fanout out p.2
      handled := p ::ₘ s.handled } u v =
        s.carried u v + if u = p.2 ∧ v ∈ out p.2 then 1 else 0 := by
  rw [State.carried, State.carried, ← count_moved hp, ← count_fanout, ← Multiset.count_add]
  congr 1
  exact add_right_comm _ _ _

theorem step_sound (h : Sound out root s) (hst : Step out s t) : Sound out root t := by
  cases hst with
  | @first p hp hnew =>
    obtain ⟨hu, hedge⟩ := h.flight_edge (u := p.1) (v := p.2) hp
    constructor
    · exact Set.mem_insert_of_mem _ h.rooted
    · intro u v hu hv
      rw [carried_first hp]
      by_cases hup : u = p.2
      · subst hup
        rw [if_pos ⟨rfl, hv⟩, h.none fun hno => hnew hno.1]
      · rw [if_neg fun hno => hup hno.1, h.once (hu.resolve_left hup) hv]
    · intro u v hno
      rw [carried_first hp, h.none fun hold => hno ⟨Set.mem_insert_of_mem _ hold.1, hold.2⟩, if_neg]
      rintro ⟨rfl, hv⟩
      exact hno ⟨Set.mem_insert _ _, hv⟩
    · intro q hq
      cases Multiset.mem_cons.mp hq with
      | inl hq => exact hq ▸ Set.mem_insert _ _
      | inr hq => exact Set.mem_insert_of_mem _ (h.handled hq)
    · intro v hv
      cases hv with
      | inl hv => exact hv ▸ (h.reached hu).tail hedge
      | inr hv => exact h.reached hv
  | @again p hp hold =>
    have hcarried : ∀ u v, State.carried { s with
        in_flight := s.in_flight.erase p, handled := p ::ₘ s.handled } u v = s.carried u v :=
      fun u v => count_moved hp (u, v)
    constructor
    · exact h.rooted
    · intro u v hu hv
      rw [hcarried]
      exact h.once hu hv
    · intro u v hno
      rw [hcarried]
      exact h.none hno
    · intro q hq
      cases Multiset.mem_cons.mp hq with
      | inl hq => exact hq ▸ hold
      | inr hq => exact h.handled hq
    · exact h.reached

theorem run_sound (h : ReflTransGen (Step out) (start out root) s) : Sound out root s := by
  induction h with
  | refl => exact start_sound
  | tail _ hst ih => exact step_sound ih hst

namespace Sound

lemma carried_le (h : Sound out root s) (u v : V) : s.carried u v ≤ 1 := by
  by_cases huv : u ∈ s.informed ∧ v ∈ out u
  · rw [h.once huv.1 huv.2]
  · rw [h.none huv]
    exact Nat.zero_le 1

lemma pending (h : Sound out root s) {u v : V} (hu : u ∈ s.informed) (hv : v ∈ out u) :
    (u, v) ∈ s.in_flight ∨ v ∈ s.informed := by
  have hone := h.once hu hv
  have hmem : (u, v) ∈ s.in_flight + s.handled := by
    apply Multiset.count_pos.mp
    rw [State.carried] at hone
    omega
  cases Multiset.mem_add.mp hmem with
  | inl hf => exact Or.inl hf
  | inr hd => exact Or.inr (h.handled hd)

theorem quiescent (h : Sound out root s) (hq : s.in_flight = 0) (v : V) :
    v ∈ s.informed ↔ ReflTransGen (Edge out) root v := by
  apply mem_iff_reachable (S := (· ∈ s.informed)) h.rooted
  · intro x y hx hxy
    apply (h.pending hx hxy).resolve_left
    simp [hq]
  · exact fun x hx => h.reached hx

section Counting

variable [Fintype V]

open Classical in
/-- Every edge out of an informed vertex has carried one frame, and nothing else has. -/
theorem total (h : Sound out root s) :
    s.in_flight + s.handled = ∑ u with u ∈ s.informed, fanout out u := by
  ext ⟨u, v⟩
  change s.carried u v = _
  simp only [Multiset.count_sum', count_fanout]
  by_cases huv : u ∈ s.informed ∧ v ∈ out u
  · rw [h.once huv.1 huv.2, Finset.sum_eq_single u]
    · rw [if_pos ⟨rfl, huv.2⟩]
    · intro w _ hw
      exact if_neg fun hno => hw hno.1.symm
    · intro hu
      simp [huv.1] at hu
  · rw [h.none huv, Finset.sum_eq_zero]
    intro w hw
    apply if_neg
    rintro ⟨rfl, hv⟩
    exact huv ⟨(Finset.mem_filter.mp hw).2, hv⟩

open Classical in
lemma card_total (h : Sound out root s) :
    s.in_flight.card + s.handled.card = ∑ u with u ∈ s.informed, (out u).card := by
  rw [← Multiset.card_add, h.total, Multiset.card_sum]
  exact Finset.sum_congr rfl fun u _ => Multiset.card_map _ _

end Counting

end Sound

end Xcoin.Lib.Flooding
