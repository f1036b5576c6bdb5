import Xcoin.Lib.Decimal
import Xcoin.Lib.Lines
import Xcoin.Lib.StdMaps

/-! cpptoml's parser for tables of strings, decimal integers and booleans at the root and in
arrays of tables. The other constructs of TOML end in `unsupported`. -/

namespace Xcoin

open Lib.Decimal Lib.Lines Lib.StdMaps

inductive LineFault
  | parse_error (err : String)
  | unsupported
  deriving DecidableEq

namespace Toml

inductive Value
  | string (s : String)
  | int64 (n : ℤ)
  | bool (b : Bool)
  deriving DecidableEq

abbrev Table := StdMap String Value

inductive Base
  | value (v : Value)
  | table_array (tables : List Table)

abbrev RootTable := StdMap String Base

-- `curr_table` is the root table, or the last table of the array under that key
structure Document where
  root : RootTable
  curr_table : Option String

variable {α : Type}

def throw_parse_exception (err : String) : Except LineFault α := .error (.parse_error err)

-- what is left of the line from `it` on is a list of characters
def is_blank (c : Char) : Bool := c = ' ' || c = '\t'

def is_number (c : Char) : Bool := '0' ≤ c && c ≤ '9'

def consume_whitespace (it : List Char) : List Char := it.dropWhile is_blank

-- from the last character back to the first, which is kept
def consume_backwards_whitespace : List Char → List Char
  | c :: d :: back =>
    if is_blank c then consume_backwards_whitespace (d :: back) else c :: d :: back
  | back => back

def eol_or_comment : List Char → Except LineFault Unit
  | [] => pure ()
  | c :: _ =>
    if c = '#' then pure ()
    else throw_parse_exception
      ("Unidentified trailing character '" ++ c.toString ++ "'---did you forget a '#'?")

def escape_value : Char → Option Char
  | 'b' => some '\x08'
  | 't' => some '\t'
  | 'n' => some '\n'
  | 'f' => some '\x0c'
  | 'r' => some '\r'
  | '"' => some '"'
  | '\\' => some '\\'
  | _ => none

def string_body (delim : Char) (val : List Char) : List Char → Except LineFault (String × List Char)
  | [] => throw_parse_exception "Unterminated string literal"
  | c :: it =>
    if delim = '"' ∧ c = '\\' then
      match it with
      | [] => throw_parse_exception "Invalid escape sequence"
      | e :: it =>
        if e = 'u' ∨ e = 'U' then .error .unsupported
        else
          match escape_value e with
          | some value => string_body delim (val ++ [value]) it
          | none => throw_parse_exception "Invalid escape sequence"
    else if c = delim then pure (String.ofList val, consume_whitespace it)
    else string_body delim (val ++ [c]) it

def string_literal (it : List Char) (delim : Char) : Except LineFault (String × List Char) :=
  string_body delim [] it.tail

def in_bare_key (c : Char) : Bool := c ≠ '.' && c ≠ '=' && c ≠ ']'

def parse_bare_key (it : List Char) : Except LineFault (String × List Char) :=
  let bke := it.dropWhile in_bare_key
  if it.takeWhile in_bare_key = [] then throw_parse_exception "Bare key missing name"
  else
    let key := (consume_backwards_whitespace (it.takeWhile in_bare_key).reverse).reverse
    if '#' ∈ key then
      throw_parse_exception ("Bare key " ++ String.ofList key ++ " cannot contain #")
    else if key.any is_blank then
      throw_parse_exception ("Bare key " ++ String.ofList key ++ " cannot contain whitespace")
    else if '[' ∈ key ∨ ']' ∈ key then
      throw_parse_exception ("Bare key " ++ String.ofList key ++ " cannot contain '[' or ']'")
    else pure (String.ofList key, bke)

def parse_simple_key (it : List Char) : Except LineFault (String × List Char) :=
  match consume_whitespace it with
  | [] => throw_parse_exception "Unexpected end of key (blank key?)"
  | c :: it => if c = '"' ∨ c = '\'' then string_literal (c :: it) c else parse_bare_key (c :: it)

-- a key of several parts would go on after the dot
def parse_key (key_end : Char) (it : List Char) : Except LineFault (String × List Char) :=
  if it = [] ∨ it.head? = some key_end then throw_parse_exception "Unexpected end of key"
  else do
    let (part, it) ← parse_simple_key it
    match consume_whitespace it with
    | [] => pure (part, [])
    | c :: it =>
      if c = key_end then pure (part, c :: it)
      else if c = '.' then .error .unsupported
      else throw_parse_exception ("Unexpected character in key: \"" ++ c.toString ++ "\"")

def time_char (c : Char) : Bool := is_number c || c = ':' || c = '.'

def date_char (c : Char) : Bool :=
  is_number c || c = 'T' || c = ' ' || c = 'Z' || c = ':' || c = '-' || c = '+' || c = '.'

def is_time (it : List Char) : Bool :=
  let len := (it.takeWhile time_char).length
  8 ≤ len && it[2]? = some ':' && it[5]? = some ':' && (len ≤ 8 || it[8]? = some '.' && 9 < len)

def is_date (it : List Char) : Bool :=
  let len := (it.takeWhile date_char).length
  10 ≤ len && it[4]? = some '-' && it[7]? = some '-' &&
    (19 ≤ len && (it[10]? = some 'T' || it[10]? = some ' ') &&
      is_time ((it.takeWhile date_char).drop 11) || len = 10)

inductive ParseType
  | STRING
  | INT
  | BOOL
  deriving DecidableEq

def eat_sign : List Char → List Char
  | [] => []
  | c :: it => if c = '-' ∨ c = '+' then it else c :: it

def determine_number_type (it : List Char) : Except LineFault ParseType :=
  match eat_sign it with
  | [] => throw_parse_exception "Malformed number"
  | c :: check_it =>
    if c = 'i' ∨ c = 'n' then .error .unsupported
    else if ((c :: check_it).dropWhile is_number).head? = some '.' then .error .unsupported
    else pure .INT

def determine_value_type : List Char → Except LineFault ParseType
  | [] => throw_parse_exception "Failed to parse value type"
  | c :: it =>
    if c = '"' ∨ c = '\'' then pure .STRING
    else if is_time (c :: it) ∨ is_date (c :: it) then .error .unsupported
    else if is_number c ∨ c = '-' ∨ c = '+' ∨ ['i', 'n', 'f'] <+: c :: it ∨
      ['n', 'a', 'n'] <+: c :: it then determine_number_type (c :: it)
    else if c = 't' ∨ c = 'f' then pure .BOOL
    else if c = '[' ∨ c = '\x7b' then .error .unsupported
    else throw_parse_exception "Failed to parse value type"

def parse_string (it : List Char) (delim : Char) : Except LineFault (Value × List Char) :=
  if [delim, delim, delim] <+: it then .error .unsupported
  else do
    let (s, it) ← string_literal it delim
    pure (.string s, it)

def number_char (c : Char) : Bool :=
  is_number c || c = '_' || c = '.' || c = 'e' || c = 'E' || c = '-' || c = '+' || c = 'x' ||
    c = 'o' || c = 'b'

-- the digits eaten, without the underscores between them, and what follows
def eat_digits : List Char → Except LineFault (List Char × List Char)
  | [] => pure ([], [])
  | c :: it =>
    if is_number c then
      match it with
      | '_' :: d :: it =>
        if is_number d then do
          let (ds, rest) ← eat_digits (d :: it)
          pure (c :: ds, rest)
        else throw_parse_exception "Malformed number"
      | ['_'] => throw_parse_exception "Malformed number"
      | it => do
        let (ds, rest) ← eat_digits it
        pure (c :: ds, rest)
    else pure ([], c :: it)

def eat_numbers (it : List Char) : Except LineFault (List Char × List Char) := do
  let (ds, rest) ← eat_digits it
  if ds = [] then throw_parse_exception "Malformed number" else pure (ds, rest)

-- `std::stoll` of a sign and digits
def stoll (negative : Bool) (ds : List Char) : Except LineFault ℤ :=
  let n : ℤ := Nat.ofDigitChars 10 ds 0
  let z := if negative then -n else n
  if -2 ^ 63 ≤ z ∧ z < 2 ^ 63 then pure z
  else throw_parse_exception "Malformed number (out of range: stoll)"

def find_end_of_number (it : List Char) : ℕ :=
  let ret := (it.takeWhile number_char).length
  if ['i', 'n', 'f'] <+: it.drop ret ∨ ['n', 'a', 'n'] <+: it.drop ret then ret + 3 else ret

def parse_number (it : List Char) : Except LineFault (Value × List Char) :=
  let number_len := find_end_of_number it
  if it.head? = some '0' ∧ number_len ≠ 1 ∧
      (it[1]? = some 'x' ∨ it[1]? = some 'o' ∨ it[1]? = some 'b') then .error .unsupported
  else
    let check_it := eat_sign it
    -- the number ends at the same place, with the sign or without
    let left := number_len - (it.length - check_it.length)
    if check_it.head? = some '0' ∧ left ≠ 1 ∧ check_it[1]? ≠ some '.' then
      throw_parse_exception "Numbers may not have leading zeros"
    else do
      let (ds, rest) ← eat_numbers check_it
      if rest.head? = some '.' ∨ rest.head? = some 'e' ∨ rest.head? = some 'E' then
        .error .unsupported
      else do
        let n ← stoll (it.head? = some '-') ds
        pure (.int64 n, rest)

def parse_bool (it : List Char) : Except LineFault (Value × List Char) :=
  if ['t', 'r', 'u', 'e'] <+: it then pure (.bool true, it.drop 4)
  else if ['f', 'a', 'l', 's', 'e'] <+: it then pure (.bool false, it.drop 5)
  else throw_parse_exception "Attempted to parse invalid boolean value"

def parse_value (it : List Char) : Except LineFault (Value × List Char) := do
  match ← determine_value_type it with
  | .STRING => parse_string it (it.headD '"')
  | .INT => parse_number it
  | .BOOL => parse_bool it

def Document.table (d : Document) : Option Table :=
  match d.curr_table with
  | none => none
  | some name =>
    match d.root.lookup name with
    | some (.table_array tables) => tables.getLast?
    | _ => none

def Document.contains (d : Document) (key : String) : Bool :=
  match d.curr_table with
  | none => d.root.lookup key |>.isSome
  | some _ => d.table.any fun t => (t.lookup key).isSome

def Document.insert (d : Document) (key : String) (v : Value) : Document :=
  match d.curr_table with
  | none => { d with root := d.root.insert key (.value v) }
  | some name =>
    match d.root.lookup name with
    | some (.table_array tables) =>
      let tables := tables.modifyLast fun t => t.insert key v
      { d with root := d.root.insert name (.table_array tables) }
    | _ => d

def parse_key_value (d : Document) (it : List Char) : Except LineFault (Document × List Char) := do
  let (key, it) ← parse_key '=' it
  if d.contains key then throw_parse_exception ("Key " ++ key ++ " already present")
  else
    match it with
    | '=' :: it => do
      let (v, it) ← parse_value (consume_whitespace it)
      pure (d.insert key v, consume_whitespace it)
    | _ => throw_parse_exception "Value must follow after a '='"

-- the array named by the header gets a new table
def Document.push_table (d : Document) (part : String) : Except LineFault Document :=
  match d.root.lookup part with
  | some (.value _) => throw_parse_exception ("Key " ++ part ++ " is not a table array")
  | some (.table_array tables) =>
    pure ⟨d.root.insert part (.table_array (tables ++ [∅])), some part⟩
  | none => pure ⟨d.root.insert part (.table_array [∅]), some part⟩

def parse_table_array (d : Document) (it : List Char) : Except LineFault Document :=
  if it = [] ∨ it.head? = some ']' then throw_parse_exception "Table array name cannot be empty"
  else do
    let (part, it) ← parse_key ']' it
    if part = "" then throw_parse_exception "Empty component of table array name"
    else
      match it with
      | [] =>
        match d.root.lookup part with
        | some (.value _) =>
          throw_parse_exception ("Key " ++ part ++ " already exists as a value")
        | _ => throw_parse_exception "Unterminated table array name"
      | _ :: it => do
        let d ← d.push_table part
        match it with
        | ']' :: it => do
          eol_or_comment (consume_whitespace it)
          pure d
        | _ => throw_parse_exception "Unterminated table array name"

-- a header of one table would be parsed by `parse_single_table`
def parse_table (d : Document) : List Char → Except LineFault Document
  | [] => throw_parse_exception "Unexpected end of table"
  | c :: it =>
    if c = '[' then parse_table_array { d with curr_table := none } it else .error .unsupported

def significant (line : List Char) : Bool :=
  (consume_whitespace line).head?.any fun c => c ≠ '#'

def parse_line (d : Document) (line : List Char) : Except LineFault Document :=
  if significant line then
    let it := consume_whitespace line
    if it.head? = some '[' then parse_table d it.tail
    else do
      let (d, it) ← parse_key_value d it
      eol_or_comment (consume_whitespace it)
      pure d
  else pure d

end Toml

inductive ConfigFault
  -- a `parse_exception`, and the line it names
  | parse_exception (err : String) (line_number : Option ℕ)
  | underflow_error (what : String)
  | overflow_error (what : String)
  -- `*peers` of a null pointer
  | null_pointer
  -- `*option` of an empty `option<int>`
  | indeterminate_value
  | unsupported (line_number : ℕ)
  deriving DecidableEq

def LineFault.at_line (line_number : ℕ) : LineFault → ConfigFault
  | parse_error err => .parse_exception err line_number
  | unsupported => .unsupported line_number

namespace Toml

def parse_lines (line_number : ℕ) (d : Document) :
    List (List Char) → Except ConfigFault Document
  | [] => pure d
  | line :: rest =>
    match parse_line d line with
    | .ok d => parse_lines (line_number + 1) d rest
    | .error e => .error (e.at_line (line_number + 1))

def parse (text : List Char) : Except ConfigFault RootTable := do
  let d ← parse_lines 0 ⟨∅, none⟩ (lines text)
  pure d.root

end Toml

end Xcoin
