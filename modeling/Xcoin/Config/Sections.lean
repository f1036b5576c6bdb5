import Mathlib.Data.List.ModifyLast
import Xcoin.Config.Settings

/-! What a configuration text says: each significant line is read on its own, and the lines
between two headers are the entries of one table. The parser accepts the texts whose sections are
well formed and stores their entries. -/

namespace Xcoin.Toml

open Lib.Lines Lib.Results Lib.StdMaps

inductive Directive
  | setting (key : String) (v : Value)
  | header (part : String)

def read_setting (it : List Char) : Except LineFault Directive := do
  let (key, it) ← parse_key '=' it
  match it with
  | '=' :: it => do
    let (v, it) ← parse_value (consume_whitespace it)
    eol_or_comment (consume_whitespace (consume_whitespace it))
    pure (.setting key v)
  | _ => throw_parse_exception "Value must follow after a '='"

def read_header : List Char → Except LineFault Directive
  | '[' :: it =>
    if it = [] ∨ it.head? = some ']' then throw_parse_exception "Table array name cannot be empty"
    else do
      let (part, it) ← parse_key ']' it
      match it with
      | _ :: ']' :: it => do
        eol_or_comment (consume_whitespace it)
        if part = "" then throw_parse_exception "Empty component of table array name"
        else pure (.header part)
      | _ => throw_parse_exception "Unterminated table array name"
  | _ => .error .unsupported

/-- A significant line, read without the lines before it. -/
def directive (it : List Char) : Except LineFault Directive :=
  if it.head? = some '[' then read_header it.tail else read_setting it

def significant_lines (ls : List (List Char)) : List (List Char) :=
  (ls.filter significant).map consume_whitespace

def directives (text : List Char) : Except LineFault (List Directive) :=
  (significant_lines (lines text)).mapM directive

structure Sections where
  settings : List (String × Value)
  tables : Multimap String (List (String × Value))

def Sections.add (s : Sections) : Directive → Sections
  | .setting key v =>
    if s.tables = [] then { s with settings := s.settings ++ [(key, v)] }
    else { s with tables := s.tables.modifyLast fun t => (t.1, t.2 ++ [(key, v)]) }
  | .header part => { s with tables := s.tables ++ [(part, [])] }

def sections (dirs : List Directive) : Sections := dirs.foldl Sections.add ⟨[], []⟩

/-- No key is set twice in its table, and no table array has the name of a setting. -/
structure Sections.WellFormed (s : Sections) : Prop where
  settings : (s.settings.map Prod.fst).Nodup
  tables : ∀ t ∈ s.tables, (t.2.map Prod.fst).Nodup
  apart : ∀ t ∈ s.tables, t.1 ∉ s.settings.map Prod.fst

def table_of (entries : List (String × Value)) : Table :=
  entries.foldl (fun t e => t.insert e.1 e.2) ∅

def Sections.lookup (s : Sections) (key : String) : Option Base :=
  match (table_of s.settings).lookup key with
  | some v => some (.value v)
  | none =>
    if s.tables.equal_range key = [] then none
    else some (.table_array ((s.tables.equal_range key).map table_of))

-- what a directive does to the document
def Document.applies (d : Document) : Directive → Except LineFault Document
  | .setting key v =>
    if d.contains key then throw_parse_exception ("Key " ++ key ++ " already present")
    else pure (d.insert key v)
  | .header part => d.push_table part

variable {d d' : Document} {line : List Char} {dir : Directive} {s : Sections} {key : String}
  {v : Value} {entries : List (String × Value)}

lemma table_of_snoc : table_of (entries ++ [(key, v)]) = (table_of entries).insert key v := by
  rw [table_of, List.foldl_append]
  rfl

lemma mem_table_of : key ∈ table_of entries ↔ key ∈ entries.map Prod.fst := by
  induction entries using List.reverseRecOn with
  | nil => simp [table_of]
  | append_singleton entries e ih =>
    obtain ⟨name, v⟩ := e
    rw [table_of_snoc, AList.mem_insert, ih]
    simp [or_comm]

lemma key_value_ok {it rest : List Char} : parse_key_value d it = .ok (d', rest) ↔
    ∃ key text v left, parse_key '=' it = .ok (key, '=' :: text) ∧ d.contains key = false ∧
      parse_value (consume_whitespace text) = .ok (v, left) ∧
      d' = d.insert key v ∧ rest = consume_whitespace left := by
  rw [parse_key_value, bind_eq_ok]
  constructor
  · rintro ⟨⟨key, it⟩, hkey, h⟩
    dsimp only at h
    split at h
    · simp [throw_parse_exception] at h
    · rename_i hnew
      split at h
      · rename_i text
        obtain ⟨⟨v, left⟩, hv, h⟩ := bind_eq_ok.mp h
        have hpair := Prod.mk.inj (Except.ok.inj h)
        exact ⟨key, text, v, left, hkey, by simpa using hnew, hv, hpair.1.symm, hpair.2.symm⟩
      · simp [throw_parse_exception] at h
  · rintro ⟨key, text, v, left, hkey, hnew, hv, rfl, rfl⟩
    refine ⟨_, hkey, ?_⟩
    dsimp only
    rw [if_neg (by simp [hnew])]
    exact bind_eq_ok.mpr ⟨_, hv, rfl⟩

lemma read_setting_ok {it : List Char} : read_setting it = .ok dir ↔
    ∃ key text v left, parse_key '=' it = .ok (key, '=' :: text) ∧
      parse_value (consume_whitespace text) = .ok (v, left) ∧
      eol_or_comment (consume_whitespace (consume_whitespace left)) = .ok () ∧
      dir = .setting key v := by
  rw [read_setting, bind_eq_ok]
  constructor
  · rintro ⟨⟨key, it⟩, hkey, h⟩
    dsimp only at h
    split at h
    · rename_i text
      obtain ⟨⟨v, left⟩, hv, h⟩ := bind_eq_ok.mp h
      obtain ⟨_, hend, h⟩ := bind_eq_ok.mp h
      exact ⟨key, text, v, left, hkey, hv, hend, (Except.ok.inj h).symm⟩
    · simp [throw_parse_exception] at h
  · rintro ⟨key, text, v, left, hkey, hv, hend, rfl⟩
    refine ⟨_, hkey, ?_⟩
    exact bind_eq_ok.mpr ⟨_, hv, bind_eq_ok.mpr ⟨_, hend, rfl⟩⟩

lemma table_array_ok {it : List Char} : parse_table_array d it = .ok d' ↔
    ¬ (it = [] ∨ it.head? = some ']') ∧ ∃ part c text,
      parse_key ']' it = .ok (part, c :: ']' :: text) ∧ part ≠ "" ∧
      d.push_table part = .ok d' ∧ eol_or_comment (consume_whitespace text) = .ok () := by
  rw [parse_table_array]
  split
  · rename_i hname
    simp [hname, throw_parse_exception]
  · rename_i hname
    simp only [hname, not_false_eq_true, true_and]
    rw [bind_eq_ok]
    constructor
    · rintro ⟨⟨part, it⟩, hpart, h⟩
      dsimp only at h
      split at h
      · simp [throw_parse_exception] at h
      · rename_i hne
        split at h
        · split at h <;> simp [throw_parse_exception] at h
        · obtain ⟨d₁, hd, h⟩ := bind_eq_ok.mp h
          split at h
          · obtain ⟨_, hend, h⟩ := bind_eq_ok.mp h
            obtain rfl : d₁ = d' := Except.ok.inj h
            exact ⟨part, _, _, hpart, hne, hd, hend⟩
          · simp [throw_parse_exception] at h
    · rintro ⟨part, c, text, hpart, hne, hd, hend⟩
      refine ⟨_, hpart, ?_⟩
      dsimp only
      rw [if_neg hne]
      exact bind_eq_ok.mpr ⟨_, hd, bind_eq_ok.mpr ⟨_, hend, rfl⟩⟩

lemma read_header_ok {it : List Char} : read_header it = .ok dir ↔ ∃ name, it = '[' :: name ∧
    ¬ (name = [] ∨ name.head? = some ']') ∧ ∃ part c text,
      parse_key ']' name = .ok (part, c :: ']' :: text) ∧ part ≠ "" ∧
      eol_or_comment (consume_whitespace text) = .ok () ∧ dir = .header part := by
  constructor
  · intro h
    rw [read_header.eq_def] at h
    split at h
    · rename_i name
      split at h
      · simp [throw_parse_exception] at h
      · rename_i hname
        obtain ⟨⟨part, it⟩, hpart, h⟩ := bind_eq_ok.mp h
        dsimp only at h
        split at h
        · rename_i c text
          obtain ⟨_, hend, h⟩ := bind_eq_ok.mp h
          split at h
          · simp [throw_parse_exception] at h
          · rename_i hne
            exact ⟨name, rfl, hname, part, c, text, hpart, hne, hend, (Except.ok.inj h).symm⟩
        · simp [throw_parse_exception] at h
    · simp at h
  · rintro ⟨name, rfl, hname, part, c, text, hpart, hne, hend, rfl⟩
    rw [read_header, if_neg hname]
    refine bind_eq_ok.mpr ⟨_, hpart, bind_eq_ok.mpr ⟨_, hend, ?_⟩⟩
    rw [if_neg hne]
    rfl

lemma parse_header_ok {it : List Char} :
    parse_table d it = .ok d' ↔ ∃ dir, read_header it = .ok dir ∧ d.applies dir = .ok d' := by
  have htable : parse_table d it = .ok d' ↔
      ∃ name, it = '[' :: name ∧ parse_table_array { d with curr_table := none } name = .ok d' := by
    cases it with
    | nil => simp [parse_table, throw_parse_exception]
    | cons c name => by_cases hc : c = '[' <;> simp [parse_table, hc]
  rw [htable]
  constructor
  · rintro ⟨name, rfl, h⟩
    obtain ⟨hname, part, c, text, hpart, hne, hd, hend⟩ := table_array_ok.mp h
    exact ⟨_, read_header_ok.mpr ⟨name, rfl, hname, part, c, text, hpart, hne, hend, rfl⟩, hd⟩
  · rintro ⟨dir, hdir, hd⟩
    obtain ⟨name, rfl, hname, part, c, text, hpart, hne, hend, rfl⟩ := read_header_ok.mp hdir
    exact ⟨name, rfl, table_array_ok.mpr ⟨hname, part, c, text, hpart, hne, hd, hend⟩⟩

lemma applies_setting : d.applies (.setting key v) = .ok d' ↔
    d.contains key = false ∧ d' = d.insert key v := by
  rw [Document.applies]
  cases d.contains key with
  | true => simp [throw_parse_exception]
  | false => simp [pure, Except.pure, eq_comm]

lemma parse_setting_ok {it : List Char} :
    (do
      let (d, it) ← parse_key_value d it
      eol_or_comment (consume_whitespace it)
      pure d) = Except.ok d' ↔
    ∃ dir, read_setting it = .ok dir ∧ d.applies dir = .ok d' := by
  rw [bind_eq_ok]
  constructor
  · rintro ⟨⟨d₁, rest⟩, hkv, h⟩
    obtain ⟨_, hend, h⟩ := bind_eq_ok.mp h
    obtain rfl : d₁ = d' := Except.ok.inj h
    obtain ⟨key, text, v, left, hkey, hnew, hv, hd, rfl⟩ := key_value_ok.mp hkv
    exact ⟨_, read_setting_ok.mpr ⟨key, text, v, left, hkey, hv, hend, rfl⟩,
      applies_setting.mpr ⟨hnew, hd⟩⟩
  · rintro ⟨dir, hdir, hd⟩
    obtain ⟨key, text, v, left, hkey, hv, hend, rfl⟩ := read_setting_ok.mp hdir
    obtain ⟨hnew, rfl⟩ := applies_setting.mp hd
    exact ⟨_, key_value_ok.mpr ⟨key, text, v, left, hkey, hnew, hv, rfl, rfl⟩,
      bind_eq_ok.mpr ⟨_, hend, rfl⟩⟩

lemma parse_line_ok (h : significant line = true) : parse_line d line = .ok d' ↔
    ∃ dir, directive (consume_whitespace line) = .ok dir ∧ d.applies dir = .ok d' := by
  rw [parse_line, if_pos h, directive]
  by_cases hopen : (consume_whitespace line).head? = some '['
  · simp only [hopen, if_true]
    exact parse_header_ok
  · simp only [hopen, if_false]
    exact parse_setting_ok

lemma parse_lines_ok {ls : List (List Char)} {n : ℕ} : parse_lines n d ls = .ok d' ↔
    ∃ dirs, (significant_lines ls).mapM directive = .ok dirs ∧
      dirs.foldlM Document.applies d = .ok d' := by
  induction ls generalizing n d with
  | nil => simp [parse_lines, significant_lines, pure, Except.pure]
  | cons line ls ih =>
    rw [parse_lines_cons]
    cases hs : significant line with
    | false =>
      have hline : parse_line d line = .ok d := by
        rw [parse_line, if_neg (by simp [hs])]
        rfl
      have hskip : significant_lines (line :: ls) = significant_lines ls := by
        rw [significant_lines, List.filter_cons_of_neg (by simp [hs])]
        rfl
      rw [hskip, hline]
      simp [ih]
    | true =>
      have hcons : significant_lines (line :: ls) =
          consume_whitespace line :: significant_lines ls := by
        rw [significant_lines, List.filter_cons_of_pos hs]
        rfl
      rw [hcons]
      simp only [parse_line_ok hs, ih, List.mapM_cons, bind_eq_ok]
      constructor
      · rintro ⟨d₁, ⟨dir, hdir, hd⟩, dirs, hdirs, hrest⟩
        exact ⟨dir :: dirs, ⟨dir, hdir, dirs, hdirs, rfl⟩, bind_eq_ok.mpr ⟨d₁, hd, hrest⟩⟩
      · rintro ⟨_, ⟨dir, hdir, dirs, hdirs, h⟩, hfold⟩
        obtain rfl := Except.ok.inj h
        obtain ⟨d₁, hd, hrest⟩ := bind_eq_ok.mp hfold
        exact ⟨d₁, ⟨dir, hdir, hd⟩, dirs, hdirs, hrest⟩

/-- The document that shows the sections read so far. -/
structure Document.Shows (d : Document) (s : Sections) : Prop where
  root : ∀ key, d.root.lookup key = s.lookup key
  curr : d.curr_table = s.tables.getLast?.map Prod.fst

variable {ts : Multimap String (List (String × Value))} {name : String}

lemma lookup_eq (hkey : key ∉ s.settings.map Prod.fst) : s.lookup key =
    if s.tables.equal_range key = [] then none
    else some (.table_array ((s.tables.equal_range key).map table_of)) := by
  have hnone : (table_of s.settings).lookup key = none :=
    AList.lookup_eq_none.mpr (mem_table_of.not.mpr hkey)
  rw [Sections.lookup, hnone]

lemma add_setting_root (h : s.tables = []) :
    s.add (.setting key v) = { s with settings := s.settings ++ [(key, v)] } := by
  rw [Sections.add, if_pos h]

lemma add_setting_table (h : s.tables = ts ++ [(name, entries)]) :
    s.add (.setting key v) = { s with tables := ts ++ [(name, entries ++ [(key, v)])] } := by
  rw [Sections.add, if_neg (by simp [h]), h, List.modifyLast_concat]

lemma root_lookup (h : d.Shows s) (hs : s.tables = []) (k : String) :
    d.root.lookup k = ((table_of s.settings).lookup k).map .value := by
  have hrange : s.tables.equal_range k = [] := by
    rw [hs]
    rfl
  rw [h.root, Sections.lookup]
  cases (table_of s.settings).lookup k with
  | none => simp [hrange]
  | some v => rfl

lemma root_contains (h : d.Shows s) (hs : s.tables = []) :
    d.contains key = true ↔ key ∈ s.settings.map Prod.fst := by
  have hcurr : d.curr_table = none := by rw [h.curr, hs]; rfl
  rw [Document.contains, hcurr]
  simp only [root_lookup h hs, Option.isSome_map]
  rw [AList.lookup_isSome, mem_table_of]

lemma root_insert (h : d.Shows s) (hs : s.tables = []) (key : String) (v : Value) :
    (d.insert key v).Shows (s.add (.setting key v)) := by
  have hcurr : d.curr_table = none := by rw [h.curr, hs]; rfl
  rw [Document.insert, hcurr, add_setting_root hs]
  refine ⟨fun k => ?_, by simp [hs]⟩
  have hrange : s.tables.equal_range k = [] := by
    rw [hs]
    rfl
  simp only [Sections.lookup, table_of_snoc]
  by_cases hk : k = key
  · subst hk
    rw [AList.lookup_insert, AList.lookup_insert]
  · rw [AList.lookup_insert_ne hk, AList.lookup_insert_ne hk, root_lookup h hs]
    cases (table_of s.settings).lookup k with
    | none => simp [hrange]
    | some v => rfl

lemma table_apart (hwf : s.WellFormed) (hs : s.tables = ts ++ [(name, entries)]) :
    name ∉ s.settings.map Prod.fst :=
  hwf.apart (name, entries) (by simp [hs])

lemma table_lookup (h : d.Shows s) (hwf : s.WellFormed)
    (hs : s.tables = ts ++ [(name, entries)]) : d.root.lookup name =
    some (.table_array ((ts.equal_range name).map table_of ++ [table_of entries])) := by
  rw [h.root, lookup_eq (table_apart hwf hs), hs, Multimap.equal_range_snoc, if_pos rfl,
    if_neg (by simp), List.map_append]
  rfl

lemma table_contains (h : d.Shows s) (hwf : s.WellFormed)
    (hs : s.tables = ts ++ [(name, entries)]) :
    d.contains key = true ↔ key ∈ entries.map Prod.fst := by
  have hcurr : d.curr_table = some name := by rw [h.curr, hs]; simp
  have htable : d.table = some (table_of entries) := by
    rw [Document.table, hcurr]
    simp [table_lookup h hwf hs]
  rw [Document.contains, hcurr]
  simp only [htable, Option.any_some]
  rw [AList.lookup_isSome, mem_table_of]

lemma table_insert (h : d.Shows s) (hwf : s.WellFormed)
    (hs : s.tables = ts ++ [(name, entries)]) (key : String) (v : Value) :
    (d.insert key v).Shows (s.add (.setting key v)) := by
  have hcurr : d.curr_table = some name := by rw [h.curr, hs]; simp
  rw [Document.insert, hcurr, add_setting_table hs]
  simp only [table_lookup h hwf hs, List.modifyLast_concat]
  refine ⟨fun k => ?_, by simp⟩
  by_cases hk : k = name
  · subst hk
    have hapart := table_apart hwf hs
    have hnew := lookup_eq (s := ⟨s.settings, ts ++ [(k, entries ++ [(key, v)])]⟩) hapart
    rw [AList.lookup_insert, hnew]
    simp [Multimap.equal_range_snoc, table_of_snoc]
  · have hname : ¬ name = k := fun h => hk h.symm
    rw [AList.lookup_insert_ne hk, h.root]
    simp [Sections.lookup, hs, Multimap.equal_range_snoc, hname]

lemma push_ok (h : d.Shows s) :
    (∃ d', d.push_table name = .ok d') ↔ name ∉ s.settings.map Prod.fst := by
  rw [← mem_table_of, Document.push_table, h.root, Sections.lookup, ← AList.lookup_isSome]
  cases (table_of s.settings).lookup name with
  | some v => simp [throw_parse_exception]
  | none => split <;> simp_all [pure, Except.pure]

lemma push_shows (h : d.Shows s) (hd : d.push_table name = .ok d') :
    d'.Shows (s.add (.header name)) := by
  have hname := (push_ok h).mp ⟨d', hd⟩
  have hlookup := (h.root name).trans (lookup_eq hname)
  have hnew := lookup_eq (s := s.add (.header name)) hname
  have hpushed : d' = ⟨d.root.insert name
      (.table_array ((s.tables.equal_range name).map table_of ++ [∅])), some name⟩ := by
    rw [Document.push_table, hlookup] at hd
    split at hd
    · rename_i v hv
      split at hv <;> simp at hv
    · rename_i tables htables
      split at htables
      · simp at htables
      · obtain rfl := Base.table_array.inj (Option.some.inj htables)
        exact (Except.ok.inj hd).symm
    · rename_i hnone
      split at hnone
      · rename_i hnil
        rw [hnil]
        exact (Except.ok.inj hd).symm
      · simp at hnone
  rw [hpushed]
  refine ⟨fun k => ?_, by simp [Sections.add]⟩
  by_cases hk : k = name
  · subst hk
    rw [AList.lookup_insert, hnew]
    simp [Sections.add, Multimap.equal_range_snoc, table_of]
  · have hother : ¬ name = k := fun h => hk h.symm
    rw [AList.lookup_insert_ne hk, h.root]
    simp [Sections.lookup, Sections.add, Multimap.equal_range_snoc, hother]

lemma nodup_snoc : ((entries ++ [(key, v)]).map Prod.fst).Nodup ↔
    (entries.map Prod.fst).Nodup ∧ key ∉ entries.map Prod.fst := by
  rw [List.map_append, List.nodup_append_comm]
  simp only [List.map_cons, List.map_nil, List.singleton_append, List.nodup_cons]
  exact And.comm

lemma well_formed_root : Sections.WellFormed ⟨entries, []⟩ ↔ (entries.map Prod.fst).Nodup :=
  ⟨fun h => h.settings, fun h => ⟨h, by simp, by simp⟩⟩

lemma well_formed_table {settings : List (String × Value)} :
    Sections.WellFormed ⟨settings, ts ++ [(name, entries)]⟩ ↔ Sections.WellFormed ⟨settings, ts⟩ ∧
      (entries.map Prod.fst).Nodup ∧ name ∉ settings.map Prod.fst := by
  constructor
  · intro h
    have hlast : (name, entries) ∈ ts ++ [(name, entries)] := by simp
    refine ⟨⟨h.settings, fun t ht => ?_, fun t ht => ?_⟩, h.tables _ hlast, h.apart _ hlast⟩
    · exact h.tables t (List.mem_append_left _ ht)
    · exact h.apart t (List.mem_append_left _ ht)
  · rintro ⟨h, hentries, hname⟩
    refine ⟨h.settings, fun t ht => ?_, fun t ht => ?_⟩
    · cases List.mem_append.mp ht with
      | inl ht => exact h.tables t ht
      | inr ht => rwa [List.mem_singleton.mp ht]
    · cases List.mem_append.mp ht with
      | inl ht => exact h.apart t ht
      | inr ht => rwa [List.mem_singleton.mp ht]

lemma header_well_formed : (s.add (.header name)).WellFormed ↔
    s.WellFormed ∧ name ∉ s.settings.map Prod.fst := by
  rw [Sections.add, well_formed_table]
  simp

lemma root_well_formed (hs : s.tables = []) : (s.add (.setting key v)).WellFormed ↔
    s.WellFormed ∧ key ∉ s.settings.map Prod.fst := by
  obtain ⟨settings, tables⟩ := s
  obtain rfl : tables = [] := hs
  rw [add_setting_root rfl, well_formed_root, well_formed_root, nodup_snoc]

lemma table_well_formed (hs : s.tables = ts ++ [(name, entries)]) :
    (s.add (.setting key v)).WellFormed ↔ s.WellFormed ∧ key ∉ entries.map Prod.fst := by
  obtain ⟨settings, tables⟩ := s
  obtain rfl : tables = ts ++ [(name, entries)] := hs
  rw [add_setting_table rfl, well_formed_table, well_formed_table, nodup_snoc]
  tauto

/-- A directive can be applied exactly when the sections stay well formed, and the document then
shows them. -/
theorem applies_sections (h : d.Shows s) (hwf : s.WellFormed) (dir : Directive) :
    ((∃ d', d.applies dir = .ok d') ↔ (s.add dir).WellFormed) ∧
    ∀ d', d.applies dir = .ok d' → d'.Shows (s.add dir) := by
  cases dir with
  | header name =>
    rw [header_well_formed, Document.applies, push_ok h]
    exact ⟨⟨fun hname => ⟨hwf, hname⟩, fun h => h.2⟩, fun d' hd => push_shows h hd⟩
  | setting key v =>
    have hnew : (∃ d', d.applies (.setting key v) = .ok d') ↔ ¬ d.contains key = true := by
      simp [applies_setting]
    rw [hnew]
    obtain hs | ⟨ts, ⟨name, entries⟩, hs⟩ := List.eq_nil_or_concat' s.tables
    · rw [root_well_formed hs, root_contains h hs]
      refine ⟨⟨fun hkey => ⟨hwf, hkey⟩, fun h => h.2⟩, fun d' hd => ?_⟩
      rw [(applies_setting.mp hd).2]
      exact root_insert h hs key v
    · rw [table_well_formed hs, table_contains h hwf hs]
      refine ⟨⟨fun hkey => ⟨hwf, hkey⟩, fun h => h.2⟩, fun d' hd => ?_⟩
      rw [(applies_setting.mp hd).2]
      exact table_insert h hwf hs key v

lemma add_well_formed (h : (s.add dir).WellFormed) : s.WellFormed := by
  cases dir with
  | header name => exact (header_well_formed.mp h).1
  | setting key v =>
    obtain hs | ⟨ts, ⟨name, entries⟩, hs⟩ := List.eq_nil_or_concat' s.tables
    · exact ((root_well_formed hs).mp h).1
    · exact ((table_well_formed hs).mp h).1

lemma foldl_well_formed {dirs : List Directive} (h : (dirs.foldl Sections.add s).WellFormed) :
    s.WellFormed := by
  induction dirs generalizing s with
  | nil => exact h
  | cons dir dirs ih => exact add_well_formed (ih h)

/-- A document that shows well formed sections follows the directives to the end exactly when
they keep the sections well formed. -/
theorem run_sections (h : d.Shows s) (hwf : s.WellFormed) (dirs : List Directive) :
    ((∃ d', dirs.foldlM Document.applies d = .ok d') ↔ (dirs.foldl Sections.add s).WellFormed) ∧
    ∀ d', dirs.foldlM Document.applies d = .ok d' → d'.Shows (dirs.foldl Sections.add s) := by
  induction dirs generalizing d s with
  | nil =>
    refine ⟨⟨fun _ => hwf, fun _ => ⟨d, rfl⟩⟩, fun d' hd => ?_⟩
    rwa [← Except.ok.inj hd]
  | cons dir dirs ih =>
    obtain ⟨hok, hshows⟩ := applies_sections h hwf dir
    rw [List.foldl_cons, List.foldlM_cons]
    simp only [bind_eq_ok]
    constructor
    · constructor
      · rintro ⟨d', d₁, hd, hrest⟩
        exact (ih (hshows d₁ hd) (hok.mp ⟨d₁, hd⟩)).1.mp ⟨d', hrest⟩
      · intro hall
        have hadd := foldl_well_formed hall
        obtain ⟨d₁, hd⟩ := hok.mpr hadd
        obtain ⟨d', hrest⟩ := (ih (hshows d₁ hd) hadd).1.mpr hall
        exact ⟨d', d₁, hd, hrest⟩
    · rintro d' ⟨d₁, hd, hrest⟩
      exact (ih (hshows d₁ hd) (hok.mp ⟨d₁, hd⟩)).2 d' hrest

lemma parse_ok {text : List Char} {root : RootTable} : parse text = .ok root ↔
    ∃ dirs, directives text = .ok dirs ∧
      ∃ d, dirs.foldlM Document.applies ⟨∅, none⟩ = .ok d ∧ d.root = root := by
  rw [parse, bind_eq_ok]
  simp only [parse_lines_ok]
  constructor
  · rintro ⟨d, ⟨dirs, hdirs, hd⟩, hroot⟩
    exact ⟨dirs, hdirs, d, hd, Except.ok.inj hroot⟩
  · rintro ⟨dirs, hdirs, d, hd, rfl⟩
    exact ⟨d, ⟨dirs, hdirs, hd⟩, rfl⟩

/-- A text is accepted exactly when each of its significant lines can be read and their sections
are well formed; nothing set in it is then lost or changed, and neither blank lines, comments and
indentation of the lines nor the kind of line ends matter. -/
theorem accepted_sections (text : List Char) :
    ((∃ root, parse text = .ok root) ↔
      ∃ dirs, directives text = .ok dirs ∧ (sections dirs).WellFormed) ∧
    (∀ root, parse text = .ok root → ∃ dirs, directives text = .ok dirs ∧
      ∀ key, root.lookup key = (sections dirs).lookup key) ∧
    (∀ other root, significant_lines (lines other) = significant_lines (lines text) →
      (parse other = .ok root ↔ parse text = .ok root)) ∧
    ('\r' ∉ text → parse (crlf text) = parse text) := by
  have hempty : Sections.WellFormed ⟨[], []⟩ := well_formed_root.mpr List.nodup_nil
  have hstart : Document.Shows ⟨∅, none⟩ ⟨[], []⟩ := ⟨fun _ => rfl, rfl⟩
  have hrun := fun dirs => run_sections hstart hempty dirs
  refine ⟨⟨?_, ?_⟩, ?_, ?_, ?_⟩
  · rintro ⟨root, h⟩
    obtain ⟨dirs, hdirs, d, hd, -⟩ := parse_ok.mp h
    exact ⟨dirs, hdirs, (hrun dirs).1.mp ⟨d, hd⟩⟩
  · rintro ⟨dirs, hdirs, hwf⟩
    obtain ⟨d, hd⟩ := (hrun dirs).1.mpr hwf
    exact ⟨d.root, parse_ok.mpr ⟨dirs, hdirs, d, hd, rfl⟩⟩
  · intro root h
    obtain ⟨dirs, hdirs, d, hd, rfl⟩ := parse_ok.mp h
    exact ⟨dirs, hdirs, ((hrun dirs).2 d hd).root⟩
  · intro other root h
    rw [parse_ok, parse_ok, directives, h]
    rfl
  · intro hr
    rw [parse, lines_crlf hr]
    rfl

end Xcoin.Toml
