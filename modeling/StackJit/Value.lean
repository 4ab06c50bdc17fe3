/-!
# Managed values

A managed value is nil, a boolean, a signed 64-bit integer or a symbol. Nil and `false` are the
only values that count as false. `Value.text` is how a value is shown, with a colon before a
symbol's name.
-/

namespace StackJit

/-- The four kinds of managed value, in the order in which sets of kinds are listed. -/
inductive Kind where
  | nil
  | bool
  | int
  | symbol
deriving DecidableEq, Repr

namespace Kind

def all : List Kind := [nil, bool, int, symbol]

def name : Kind → String
  | nil => "nil"
  | bool => "bool"
  | int => "int"
  | symbol => "symbol"

/-- The kind of that exact name. -/
def ofName? (text : String) : Option Kind := all.find? fun k => k.name == text

theorem mem_all (k : Kind) : k ∈ all := by cases k <;> decide

theorem ofName?_name (k : Kind) : ofName? k.name = some k := by cases k <;> decide

end Kind

inductive Value where
  | nil
  | bool (b : Bool)
  | int (n : Int64)
  | symbol (name : String)
deriving DecidableEq, Repr

namespace Value

instance : Inhabited Value := ⟨nil⟩

def kind : Value → Kind
  | nil => .nil
  | bool _ => .bool
  | int _ => .int
  | symbol _ => .symbol

/-- Everything but nil and `false` counts as true. -/
def truthy : Value → Bool
  | nil => false
  | bool b => b
  | _ => true

def int? : Value → Option Int64
  | int n => some n
  | _ => none

def symbol? : Value → Option String
  | symbol name => some name
  | _ => none

def text : Value → String
  | nil => "nil"
  | bool true => "true"
  | bool false => "false"
  | int n => toString n.toInt
  | symbol name => ":" ++ name

/-- An index or count kept as a managed integer: its low 64 bits, read as signed. -/
def ofNat (n : Nat) : Value := int (Int64.ofNat n)

end Value

end StackJit
