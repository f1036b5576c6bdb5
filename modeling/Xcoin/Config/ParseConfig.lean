import Xcoin.Clients.Outgoing
import Xcoin.Config.Toml

/-! `parse_config`: the configuration of a node from the tables of its file. -/

namespace Xcoin

open Lib.StdMaps Toml

structure Config where
  peers : List PeerAddr
  my_port : ℤ
  my_addr : String
  miner_timeout : ℤ
  msg_size : ℤ
  log_level : ℤ
  deriving DecidableEq

def int_min : ℤ := -2 ^ 31

def int_max : ℤ := 2 ^ 31 - 1

-- `get_as<int>`; a missing key and a value of another type are both an empty option
def get_as_int (elem : Option Base) : Except ConfigFault (Option ℤ) :=
  match elem with
  | some (.value (.int64 n)) =>
    if n < int_min then
      .error (.underflow_error "T cannot represent the value requested in get")
    else if n > int_max then
      .error (.overflow_error "T cannot represent the value requested in get")
    else pure (some n)
  | _ => pure none

def get_as_string (elem : Option Base) : Option String :=
  match elem with
  | some (.value (.string s)) => some s
  | _ => none

def get_table_array (file : RootTable) (key : String) : Option (List Table) :=
  match file.lookup key with
  | some (.table_array tables) => some tables
  | _ => none

-- the `value_` of an empty option is default-initialised, which leaves an `int` indeterminate
def deref_string (o : Option String) : String := o.getD ""

def deref_int (o : Option ℤ) : Except ConfigFault ℤ :=
  match o with
  | some n => pure n
  | none => .error .indeterminate_value

def parse_peer (table : Table) : Except ConfigFault PeerAddr := do
  let host := deref_string (get_as_string ((table.lookup "peer-host").map .value))
  let port ← get_as_int ((table.lookup "peer-port").map .value)
  let port ← deref_int port
  pure ⟨host, port⟩

def int_or (file : RootTable) (key : String) (alternative : ℤ) : Except ConfigFault ℤ := do
  let n ← get_as_int (file.lookup key)
  pure (n.getD alternative)

def parse_peers (file : RootTable) : Except ConfigFault (List PeerAddr) :=
  match get_table_array file "peers" with
  | none => .error .null_pointer
  | some tables => tables.mapM parse_peer

def Config.of_file (file : RootTable) : Except ConfigFault Config := do
  let peers ← parse_peers file
  let my_port ← int_or file "my-port" 50001
  let my_addr := deref_string (get_as_string (file.lookup "my-addr"))
  let miner_timeout ← int_or file "miner-timeout" 30
  let msg_size ← int_or file "msg-size" 50
  let log_level ← int_or file "log-level" 1
  pure ⟨peers, my_port, my_addr, miner_timeout, msg_size, log_level⟩

-- `open_file` gives the text of each file that can be opened
def parse_file (open_file : String → Option (List Char)) (filename : String) :
    Except ConfigFault RootTable :=
  match open_file filename with
  | none => .error (.parse_exception (filename ++ " could not be opened for parsing") none)
  | some text => parse text

def parse_config (open_file : String → Option (List Char)) (input : String) :
    Except ConfigFault Config := do
  let file ← parse_file open_file input
  Config.of_file file

def FitsInt (n : ℤ) : Prop := int_min ≤ n ∧ n ≤ int_max

instance (n : ℤ) : Decidable (FitsInt n) := inferInstanceAs (Decidable (_ ∧ _))

variable {file : RootTable} {n : ℤ}

lemma get_as_int_eq {o : Option ℤ} : get_as_int (some (.value (.int64 n))) = .ok o ↔
    FitsInt n ∧ o = some n := by
  rw [get_as_int, FitsInt]
  split
  · exact iff_of_false (by simp) (by omega)
  · split
    · exact iff_of_false (by simp) (by omega)
    · constructor
      · intro h
        exact ⟨by omega, (Except.ok.inj h).symm⟩
      · rintro ⟨-, rfl⟩
        rfl

end Xcoin
