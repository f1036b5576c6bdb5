import Xcoin.Config.Toml
import Xcoin.Lib.Results

/-! What the parser makes of the three kinds of lines in a configuration: a quoted setting, an
integer setting and the header of a table array. -/

namespace Xcoin.Toml

open Lib.Decimal Lib.Lines Lib.Results Lib.StdMaps

variable {d r : Document} {key pad text s val line : List Char} {key_end : Char}
  {ls : List (List Char)} {n : ℕ}

def plain (c : Char) : Bool :=
  in_bare_key c && c ≠ '#' && !is_blank c && c ≠ '[' && c ≠ '"' && c ≠ '\''

structure Bare (key : List Char) : Prop where
  nonempty : key ≠ []
  plain : ∀ c ∈ key, plain c = true

lemma bare_key {key : List Char} (h : key ≠ [] ∧ key.all plain = true) : Bare key :=
  ⟨h.1, List.all_eq_true.mp h.2⟩

lemma Bare.blank (hkey : Bare key) {c : Char} (hc : c ∈ key) : is_blank c = false := by
  have hplain := hkey.plain c hc
  simp only [Toml.plain, Bool.and_eq_true, Bool.not_eq_true'] at hplain
  tauto

lemma Bare.not_mem (hkey : Bare key) {c : Char} (hc : Toml.plain c = false) : c ∉ key := by
  intro h
  simpa [hc] using hkey.plain c h

lemma Bare.cons (hkey : Bare key) : ∃ c rest, key = c :: rest ∧ Toml.plain c = true := by
  obtain ⟨c, rest, rfl⟩ := List.exists_cons_of_ne_nil hkey.nonempty
  exact ⟨c, rest, rfl, hkey.plain c List.mem_cons_self⟩

lemma consume_backwards_blanks (hpad : ∀ c ∈ pad, is_blank c = true) (hval : val ≠ [])
    (h : ∀ c ∈ val, is_blank c = false) : consume_backwards_whitespace (pad ++ val) = val := by
  induction pad with
  | nil =>
    obtain ⟨c, val, rfl⟩ := List.exists_cons_of_ne_nil hval
    cases val with
    | nil => rfl
    | cons d val =>
      rw [List.nil_append, consume_backwards_whitespace, h c List.mem_cons_self]
      rfl
  | cons b pad ih =>
    have hb := hpad b List.mem_cons_self
    have hrest := ih fun c hc => hpad c (List.mem_cons_of_mem b hc)
    obtain ⟨c, cs, hcs⟩ : ∃ c cs, pad ++ val = c :: cs :=
      List.exists_cons_of_ne_nil (by simp [hval])
    rw [List.cons_append, hcs, consume_backwards_whitespace, hb, if_pos rfl, ← hcs, hrest]

lemma in_bare_key_blank {c : Char} (h : is_blank c = true) : in_bare_key c = true := by
  simp only [is_blank, Bool.or_eq_true, decide_eq_true_eq] at h
  rcases h with rfl | rfl <;> decide

lemma in_bare_key_append (text : List Char) (hkey : Bare key)
    (hpad : ∀ c ∈ pad, is_blank c = true) (hend : in_bare_key key_end = false) :
    (key ++ pad ++ key_end :: text).takeWhile in_bare_key = key ++ pad ∧
      (key ++ pad ++ key_end :: text).dropWhile in_bare_key = key_end :: text := by
  have hall : ∀ c ∈ key ++ pad, in_bare_key c = true := by
    intro c hc
    cases List.mem_append.mp hc with
    | inl hc =>
      have hplain := hkey.plain c hc
      simp only [Toml.plain, Bool.and_eq_true] at hplain
      tauto
    | inr hc => exact in_bare_key_blank (hpad c hc)
  rw [List.takeWhile_append_of_pos hall, List.dropWhile_append_of_pos hall]
  simp [hend]

lemma parse_bare_key_eq (hkey : Bare key) (hpad : ∀ c ∈ pad, is_blank c = true)
    (hend : in_bare_key key_end = false) :
    parse_bare_key (key ++ pad ++ key_end :: text) = .ok (String.ofList key, key_end :: text) := by
  obtain ⟨htake, hdrop⟩ := in_bare_key_append text hkey hpad hend
  have hback : consume_backwards_whitespace (key ++ pad).reverse = key.reverse := by
    rw [List.reverse_append]
    apply consume_backwards_blanks
    · simpa using hpad
    · simpa using hkey.nonempty
    · intro c hc
      exact hkey.blank (List.mem_reverse.mp hc)
  have hhash : '#' ∉ key := hkey.not_mem (by decide)
  have hopen : '[' ∉ key := hkey.not_mem (by decide)
  have hclose : ']' ∉ key := hkey.not_mem (by decide)
  have hblank : key.any is_blank = false := by
    rw [List.any_eq_false]
    intro c hc
    simp [hkey.blank hc]
  have hne : key ++ pad ≠ [] := by simp [hkey.nonempty]
  rw [parse_bare_key, htake, hdrop, hback, List.reverse_reverse]
  simp only [hne, hhash, hopen, hclose, hblank, if_false, or_self, Bool.false_eq_true]
  rfl

lemma parse_key_eq (text : List Char) (hkey : Bare key) (hpad : ∀ c ∈ pad, is_blank c = true)
    (hend : in_bare_key key_end = false) (hblank : is_blank key_end = false) :
    parse_key key_end (key ++ pad ++ key_end :: text) =
      .ok (String.ofList key, key_end :: text) := by
  obtain ⟨c, ks, rfl, hc⟩ := hkey.cons
  have hcb : is_blank c = false := hkey.blank List.mem_cons_self
  have hcend : c ≠ key_end := by
    rintro rfl
    simp [Toml.plain, hend] at hc
  have hquote : ¬ (c = '"' ∨ c = '\'') := by
    simp only [Toml.plain, Bool.and_eq_true, decide_eq_true_eq] at hc
    tauto
  have hsimple : parse_simple_key (c :: ks ++ pad ++ key_end :: text) =
      .ok (String.ofList (c :: ks), key_end :: text) := by
    have hcons : consume_whitespace (c :: ks ++ pad ++ key_end :: text) =
        c :: ks ++ pad ++ key_end :: text := by simp [consume_whitespace, hcb]
    rw [parse_simple_key, hcons]
    simp only [List.cons_append, hquote, if_false]
    exact parse_bare_key_eq hkey hpad hend
  have hskip : consume_whitespace (key_end :: text) = key_end :: text := by
    simp [consume_whitespace, hblank]
  rw [parse_key, hsimple, ok_bind, if_neg (by simp [hcend])]
  simp only [hskip, if_true]
  rfl

lemma significant_bare (hkey : Bare key) : significant (key ++ text) = true := by
  obtain ⟨c, ks, rfl, hc⟩ := hkey.cons
  have hcb : is_blank c = false := hkey.blank List.mem_cons_self
  have hhash : c ≠ '#' := by
    rintro rfl
    exact absurd hc (by decide)
  simp [significant, consume_whitespace, hcb, hhash]

lemma consume_bare (text : List Char) (hkey : Bare key) :
    consume_whitespace (key ++ text) = key ++ text ∧ (key ++ text).head? ≠ some '[' := by
  obtain ⟨c, ks, rfl, hc⟩ := hkey.cons
  have hcb : is_blank c = false := hkey.blank List.mem_cons_self
  have hopen : c ≠ '[' := by
    rintro rfl
    exact absurd hc (by decide)
  simp [consume_whitespace, hcb, hopen]

lemma parse_line_setting (hkey : Bare key) (hpad : ∀ c ∈ pad, is_blank c = true)
    (hnew : d.contains (String.ofList key) = false) :
    parse_line d (key ++ pad ++ '=' :: text) = (do
      let (v, it) ← parse_value (consume_whitespace text)
      eol_or_comment (consume_whitespace (consume_whitespace it))
      pure (d.insert (String.ofList key) v)) := by
  obtain ⟨hskip, hopen⟩ := consume_bare (pad ++ '=' :: text) hkey
  have hparsed : parse_key '=' (key ++ (pad ++ '=' :: text)) =
      .ok (String.ofList key, '=' :: text) := by
    rw [← List.append_assoc]
    exact parse_key_eq text hkey hpad (by decide) (by decide)
  rw [List.append_assoc, parse_line, significant_bare hkey, if_pos rfl, hskip]
  simp only [if_neg hopen, parse_key_value, hparsed, ok_bind, hnew, Bool.false_eq_true, if_false]
  cases parse_value (consume_whitespace text) with
  | error e => rfl
  | ok r => rfl

lemma parse_line_header (hkey : Bare key) :
    parse_line d ('[' :: '[' :: key ++ [']', ']']) =
      Document.push_table { d with curr_table := none } (String.ofList key) := by
  have hparsed : parse_key ']' (key ++ [']', ']']) = .ok (String.ofList key, [']', ']']) := by
    have hnil : ∀ c ∈ ([] : List Char), is_blank c = true := by simp
    have hkey_end : in_bare_key ']' = false := by decide
    have h := parse_key_eq [']'] hkey hnil hkey_end (by decide)
    rwa [List.append_nil] at h
  have hne : String.ofList key ≠ "" := by
    intro h
    exact hkey.nonempty (String.ofList_injective h)
  have hstart : ¬ (key ++ [']', ']'] = [] ∨ (key ++ [']', ']']).head? = some ']') := by
    obtain ⟨c, ks, rfl, hc⟩ := hkey.cons
    have hclose : c ≠ ']' := by
      rintro rfl
      exact absurd hc (by decide)
    simp [hclose]
  have hline : parse_line d ('[' :: '[' :: key ++ [']', ']']) =
      parse_table_array { d with curr_table := none } (key ++ [']', ']']) := rfl
  rw [hline, parse_table_array, if_neg hstart, hparsed, ok_bind]
  simp only [hne, if_false]
  cases Document.push_table { d with curr_table := none } (String.ofList key) with
  | error e => rfl
  | ok d => rfl

lemma parse_lines_cons : parse_lines n d (line :: ls) = .ok r ↔
    ∃ d', parse_line d line = .ok d' ∧ parse_lines (n + 1) d' ls = .ok r := by
  rw [parse_lines]
  cases parse_line d line with
  | error e => simp
  | ok d' => simp

lemma parse_line_blank : parse_line d [] = .ok d := rfl

lemma string_body_char {c : Char} (hc : c ≠ '\\') : string_body '"' val (c :: text) =
    if c = '"' then .ok (String.ofList val, consume_whitespace text)
    else string_body '"' (val ++ [c]) text := by
  rw [string_body.eq_def]
  simp only [hc, and_false, if_false]
  rfl

lemma string_body_plain (val text : List Char) (hs : ∀ c ∈ s, c ≠ '"' ∧ c ≠ '\\') :
    string_body '"' val (s ++ '"' :: text) =
      .ok (String.ofList (val ++ s), consume_whitespace text) := by
  induction s generalizing val with
  | nil => rw [List.nil_append, string_body_char (by decide), if_pos rfl, List.append_nil]
  | cons c s ih =>
    have hc := hs c List.mem_cons_self
    rw [List.cons_append, string_body_char hc.2, if_neg hc.1,
      ih (val ++ [c]) fun e he => hs e (List.mem_cons_of_mem c he), List.append_assoc]
    rfl

lemma parse_string_eq (hs : ∀ c ∈ s, c ≠ '"' ∧ c ≠ '\\') :
    parse_string ('"' :: s ++ ['"']) '"' = .ok (.string (String.ofList s), []) := by
  have htriple : ¬ ['"', '"', '"'] <+: '"' :: s ++ ['"'] := by
    cases s with
    | nil => decide
    | cons c s =>
      have hc := (hs c List.mem_cons_self).1
      simp only [List.cons_append, List.cons_prefix_cons]
      tauto
  have hbody : string_literal ('"' :: s ++ ['"']) '"' = .ok (String.ofList s, []) :=
    string_body_plain [] [] hs
  rw [parse_string, if_neg htriple, hbody]
  rfl

lemma parse_value_quoted (hs : ∀ c ∈ s, c ≠ '"' ∧ c ≠ '\\') :
    parse_value ('"' :: s ++ ['"']) = .ok (.string (String.ofList s), []) := by
  have htype : determine_value_type ('"' :: s ++ ['"']) = .ok .STRING := rfl
  rw [parse_value, htype, ok_bind]
  exact parse_string_eq hs

end Xcoin.Toml
