import Mathlib.Tactic

/-! The lines of a text as a `getline` loop reads them, with `\n` or `\r\n` at their ends. -/

namespace Xcoin.Lib.Lines

-- `line` is what has been read of the current line; the end of the text is read once more as an
-- empty line before the loop ends
def lines_from (line : List Char) : List Char → List (List Char)
  | [] => if line = [] then [[]] else [line, []]
  | '\r' :: '\n' :: text => line :: lines_from [] text
  | '\n' :: text => line :: lines_from [] text
  | c :: text => lines_from (line ++ [c]) text

def lines (text : List Char) : List (List Char) := lines_from [] text

def unlines (ls : List (List Char)) : List Char := ls.flatMap fun line => line ++ ['\n']

def crlf (text : List Char) : List Char :=
  text.flatMap fun c => if c = '\n' then ['\r', '\n'] else [c]

variable {line text a : List Char}

lemma lines_from_cons {c : Char} (hr : c ≠ '\r') (hn : c ≠ '\n') :
    lines_from line (c :: text) = lines_from (line ++ [c]) text := by
  rw [lines_from]
  · intro t ht
    exact absurd ht hr
  · exact hn

lemma lines_from_append (h : ∀ c ∈ a, c ≠ '\r' ∧ c ≠ '\n') :
    lines_from line (a ++ text) = lines_from (line ++ a) text := by
  induction a generalizing line with
  | nil => simp
  | cons c a ih =>
    have hc := h c List.mem_cons_self
    rw [List.cons_append, lines_from_cons hc.1 hc.2,
      ih fun d hd => h d (List.mem_cons_of_mem c hd), List.append_assoc]
    rfl

lemma lines_line (h : ∀ c ∈ a, c ≠ '\r' ∧ c ≠ '\n') :
    lines (a ++ '\n' :: text) = a :: lines text := by
  rw [lines, lines_from_append h]
  rfl

theorem lines_unlines {ls : List (List Char)} (h : ∀ l ∈ ls, ∀ c ∈ l, c ≠ '\r' ∧ c ≠ '\n') :
    lines (unlines ls) = ls ++ [[]] := by
  induction ls with
  | nil => rfl
  | cons l ls ih =>
    have hrest := ih fun l' hl' => h l' (List.mem_cons_of_mem l hl')
    have hcons : unlines (l :: ls) = l ++ '\n' :: unlines ls := by simp [unlines]
    rw [hcons, lines_line (h l List.mem_cons_self), hrest]
    rfl

/-- Both line ends are read alike. -/
theorem lines_crlf (h : '\r' ∉ text) : lines (crlf text) = lines text := by
  suffices hgen : ∀ line, lines_from line (crlf text) = lines_from line text from hgen []
  induction text with
  | nil => intro line; rfl
  | cons c text ih =>
    have hc : c ≠ '\r' := fun hc => h (hc ▸ List.mem_cons_self)
    have htext := ih fun hr => h (List.mem_cons_of_mem c hr)
    intro line
    by_cases hn : c = '\n'
    · subst hn
      change line :: lines_from [] (crlf text) = line :: lines_from [] text
      rw [htext]
    · have hcons : crlf (c :: text) = c :: crlf text := by simp [crlf, hn]
      rw [hcons, lines_from_cons hc hn, lines_from_cons hc hn, htext]

end Xcoin.Lib.Lines
