import Mathlib.Tactic

/-! Self-delimiting encodings: a value is read back from the front of a stream, and what
follows it is left unread. -/

namespace Xcoin.Lib.Archives

variable {M α β γ : Type}

structure Archive (M : Type) where
  save : M → List UInt8
  load : List UInt8 → Option (M × List UInt8)
  load_save : ∀ m rest, load (save m ++ rest) = some (m, rest)

/-- Nothing but an encoded value is read from the current position. -/
def Archive.Exact (A : Archive M) : Prop :=
  ∀ ⦃text : List UInt8⦄ ⦃m : M⦄ ⦃rest : List UInt8⦄,
    A.load text = some (m, rest) → text = A.save m ++ rest

/-- No value is read from fewer bytes than its encoding has, and so none from a truncated one. -/
def Archive.NeedsWhole (A : Archive M) : Prop :=
  ∀ ⦃text : List UInt8⦄ ⦃m : M⦄ ⦃rest : List UInt8⦄,
    A.load text = some (m, rest) → (A.save m).length + rest.length ≤ text.length

lemma Archive.Exact.needs_whole {A : Archive M} (h : A.Exact) : A.NeedsWhole := by
  intro text m rest hload
  rw [h hload, List.length_append]

namespace Archive

variable (A : Archive M) {m m' : M} {r r' : List UInt8}

lemma load_whole (m : M) : A.load (A.save m) = some (m, []) := by
  simpa using A.load_save m []

lemma save_append_inj (h : A.save m ++ r = A.save m' ++ r') : m = m' ∧ r = r' := by
  have hload := A.load_save m r
  rw [h, A.load_save] at hload
  obtain ⟨rfl, rfl⟩ := Prod.mk.inj (Option.some.inj hload)
  exact ⟨rfl, rfl⟩

lemma save_prefix_inj (h : A.save m <+: A.save m') : m = m' := by
  obtain ⟨tail, htail⟩ := h
  have happend : A.save m ++ tail = A.save m' ++ [] := by rw [htail, List.append_nil]
  exact (A.save_append_inj happend).1

lemma saves_append_inj {ms ms' : List M} (hlen : ms.length = ms'.length)
    (h : (ms.map A.save).flatten ++ r = (ms'.map A.save).flatten ++ r') : ms = ms' ∧ r = r' := by
  induction ms generalizing ms' with
  | nil =>
    obtain rfl := List.length_eq_zero_iff.mp hlen.symm
    exact ⟨rfl, h⟩
  | cons m ms ih =>
    cases ms' with
    | nil => exact nomatch hlen
    | cons m' ms' =>
      simp only [List.map_cons, List.flatten_cons, List.append_assoc] at h
      obtain ⟨rfl, htail⟩ := A.save_append_inj h
      obtain ⟨rfl, rfl⟩ := ih (Nat.succ.inj hlen) htail
      exact ⟨rfl, rfl⟩

lemma save_ne_nil [Nontrivial M] (m : M) : A.save m ≠ [] := by
  intro hnil
  obtain ⟨m', hne⟩ := exists_ne m
  apply hne.symm
  apply A.save_prefix_inj
  rw [hnil]
  exact List.nil_prefix

lemma prefix_repeat {r l : List UInt8} (h : l <+: r ++ l) (n : ℕ) :
    l <+: (List.replicate n r).flatten ++ l := by
  induction n with
  | zero => exact List.prefix_refl l
  | succ n ih =>
    have hr : r ++ l <+: r ++ ((List.replicate n r).flatten ++ l) :=
      (List.prefix_append_right_inj r).mpr ih
    rw [List.replicate_succ, List.flatten_cons, List.append_assoc]
    exact h.trans hr

lemma prefix_power {r l : List UInt8} (hr : r ≠ []) (h : l <+: r ++ l) {n : ℕ}
    (hn : l.length ≤ n) : l <+: (List.replicate n r).flatten := by
  have hpos : 0 < r.length := List.length_pos_iff.mpr hr
  have hlen : l.length ≤ (List.replicate n r).flatten.length := by
    rw [List.length_flatten, List.map_replicate, List.sum_replicate, smul_eq_mul]
    exact hn.trans (Nat.le_mul_of_pos_right n hpos)
  exact List.prefix_of_prefix_length_le (prefix_repeat h n) (List.prefix_append _ _) hlen

/-- Unread bytes in front of an encoded value are not read over for two values: both
encodings would be prefixes of the bytes repeated. -/
theorem residue_shows (hA : A.Exact) (hr : r ≠ []) {x x' : List UInt8}
    (h : A.load (r ++ A.save m) = some (m, x)) (h' : A.load (r ++ A.save m') = some (m', x')) :
    m = m' := by
  have hpre : ∀ {m : M} {x : List UInt8}, A.load (r ++ A.save m) = some (m, x) →
      A.save m <+: r ++ A.save m := by
    intro m x hload
    rw [hA hload]
    exact List.prefix_append _ _
  let n := (A.save m).length + (A.save m').length
  have hm := prefix_power hr (hpre h) (n := n) (Nat.le_add_right _ _)
  have hm' := prefix_power hr (hpre h') (n := n) (Nat.le_add_left _ _)
  cases le_total (A.save m).length (A.save m').length with
  | inl hle => exact A.save_prefix_inj (List.prefix_of_prefix_length_le hm hm' hle)
  | inr hle => exact (A.save_prefix_inj (List.prefix_of_prefix_length_le hm' hm hle)).symm

/-- The archive that reads over some bytes in front of a value. -/
def skipping (p : UInt8 → Bool) (h : ∀ m, ∃ b text, A.save m = b :: text ∧ p b = false) :
    Archive M where
  save := A.save
  load text := A.load (text.dropWhile p)
  load_save m rest := by
    obtain ⟨b, text, hsave, hb⟩ := h m
    have hfront : (A.save m ++ rest).dropWhile p = A.save m ++ rest := by
      rw [hsave, List.cons_append, List.dropWhile_cons_of_neg (by simp [hb])]
    rw [hfront, A.load_save]

end Archive

/-- An encoding that can be told from what follows it. -/
def Delimited (enc : α → List β) : Prop :=
  ∀ ⦃a a' : α⦄ ⦃r r' : List β⦄, enc a ++ r = enc a' ++ r' → a = a' ∧ r = r'

namespace Delimited

variable {enc : α → List β} {enc' : γ → List β}

lemma token {sep : β} (hinj : Function.Injective enc) (hsep : ∀ a, sep ∉ enc a) :
    Delimited fun a => enc a ++ [sep] := by
  have hcut : ∀ {l l' r r' : List β}, sep ∉ l → sep ∉ l' → l ++ sep :: r = l' ++ sep :: r' →
      l = l' ∧ r = r' := by
    intro l l' r r' hl hl' h
    induction l generalizing l' with
    | nil =>
      cases l' with
      | nil => exact ⟨rfl, (List.cons.inj h).2⟩
      | cons b l' =>
        obtain ⟨rfl, -⟩ := List.cons.inj h
        exact (hl' List.mem_cons_self).elim
    | cons b l ih =>
      cases l' with
      | nil =>
        obtain ⟨rfl, -⟩ := List.cons.inj h
        exact (hl List.mem_cons_self).elim
      | cons b' l' =>
        obtain ⟨rfl, htail⟩ := List.cons.inj h
        obtain ⟨rfl, rfl⟩ := ih (fun hm => hl (List.mem_cons_of_mem _ hm))
          (fun hm => hl' (List.mem_cons_of_mem _ hm)) htail
        exact ⟨rfl, rfl⟩
  intro a a' r r' h
  obtain ⟨henc, hr⟩ := hcut (hsep a) (hsep a') (by simpa using h)
  exact ⟨hinj henc, hr⟩

lemma pair (h : Delimited enc) (h' : Delimited enc') :
    Delimited fun p : α × γ => enc p.1 ++ enc' p.2 := by
  intro p q r r' he
  rw [List.append_assoc, List.append_assoc] at he
  obtain ⟨hfst, he⟩ := h he
  obtain ⟨hsnd, hr⟩ := h' he
  exact ⟨Prod.ext hfst hsnd, hr⟩

lemma comap (h : Delimited enc) {f : γ → α} (hf : Function.Injective f) :
    Delimited fun c => enc (f c) := by
  intro c c' r r' he
  obtain ⟨hc, hr⟩ := h he
  exact ⟨hf hc, hr⟩

lemma after (h : Delimited enc) (front : List β) : Delimited fun a => front ++ enc a := by
  intro a a' r r' he
  rw [List.append_assoc, List.append_assoc] at he
  exact h (List.append_cancel_left he)

lemma before (h : Delimited enc) (back : List β) : Delimited fun a => enc a ++ back := by
  intro a a' r r' he
  rw [List.append_assoc, List.append_assoc] at he
  obtain ⟨ha, hr⟩ := h he
  exact ⟨ha, List.append_cancel_left hr⟩

lemma counted {count : ℕ → List β} (h : Delimited count) :
    Delimited fun l : List β => count l.length ++ l := by
  intro l l' r r' he
  rw [List.append_assoc, List.append_assoc] at he
  obtain ⟨hlen, he⟩ := h he
  exact List.append_inj he hlen

end Delimited

open Classical in
noncomputable def Archive.ofDelimited {enc : M → List UInt8} (h : Delimited enc) : Archive M where
  save := enc
  load text := if hx : ∃ x : M × List UInt8, text = enc x.1 ++ x.2 then some hx.choose else none
  load_save m rest := by
    have hx : ∃ x : M × List UInt8, enc m ++ rest = enc x.1 ++ x.2 := ⟨(m, rest), rfl⟩
    rw [dif_pos hx]
    obtain ⟨hm, hrest⟩ := h hx.choose_spec
    rw [Option.some.injEq, Prod.ext_iff]
    exact ⟨hm.symm, hrest.symm⟩

lemma ofDelimited_exact {enc : M → List UInt8} (h : Delimited enc) :
    (Archive.ofDelimited h).Exact := by
  intro text m rest hload
  simp only [Archive.ofDelimited] at hload
  split at hload
  · rename_i hx
    have hspec := hx.choose_spec
    rw [Option.some.inj hload] at hspec
    exact hspec
  · simp at hload

end Xcoin.Lib.Archives
