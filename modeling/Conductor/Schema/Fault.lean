import Conductor.Failure

/-!
# Faults in data

Data from outside is checked against the rules of the model that it is to become. Each broken rule
is a fault with the place where it was found. Checking does not stop at the first fault: a model
with several bad fields has the faults of all of them, in the order of its fields.
-/

namespace Conductor

namespace Schema

/-- The rules that data may break. -/
inductive Rule where
  | missing
  | text
  | integer
  | integerNumeral
  | integerTooLong
  | integerFraction
  | finite
  | number
  | numberNumeral
  | truth
  | truthWord
  | list
  | dictionary
  | model (name : String)
  | above (bound : Nat)
  | atLeast (bound : Nat)
  | atMost (bound : Nat)
  /-- One of several texts; a choice has a name of its own where it is a type. -/
  | choice (isNamed : Bool) (options : List String)
  deriving DecidableEq, Repr

namespace Rule

/-- Texts in quotes as alternatives. -/
def alternatives : List String → String
  | [] => ""
  | [a] => s!"'{a}'"
  | [a, b] => s!"'{a}' or '{b}'"
  | a :: rest => s!"'{a}', " ++ alternatives rest

/-- The name of a rule. -/
def name : Rule → String
  | .missing => "missing"
  | .text => "string_type"
  | .integer => "int_type"
  | .integerNumeral => "int_parsing"
  | .integerTooLong => "int_parsing_size"
  | .integerFraction => "int_from_float"
  | .finite => "finite_number"
  | .number => "float_type"
  | .numberNumeral => "float_parsing"
  | .truth => "bool_type"
  | .truthWord => "bool_parsing"
  | .list => "list_type"
  | .dictionary => "dict_type"
  | .model _ => "model_type"
  | .above _ => "greater_than"
  | .atLeast _ => "greater_than_equal"
  | .atMost _ => "less_than_equal"
  | .choice isNamed _ => if isNamed then "enum" else "literal_error"

/-- What a rule asks for. -/
def message : Rule → String
  | .missing => "Field required"
  | .text => "Input should be a valid string"
  | .integer => "Input should be a valid integer"
  | .integerNumeral => "Input should be a valid integer, unable to parse string as an integer"
  | .integerTooLong =>
    "Unable to parse input string as an integer, exceeded maximum size"
  | .integerFraction => "Input should be a valid integer, got a number with a fractional part"
  | .finite => "Input should be a finite number"
  | .number => "Input should be a valid number"
  | .numberNumeral => "Input should be a valid number, unable to parse string as a number"
  | .truth => "Input should be a valid boolean"
  | .truthWord => "Input should be a valid boolean, unable to interpret input"
  | .list => "Input should be a valid list"
  | .dictionary => "Input should be a valid dictionary"
  | .model n => s!"Input should be a valid dictionary or instance of {n}"
  | .above n => s!"Input should be greater than {n}"
  | .atLeast n => s!"Input should be greater than or equal to {n}"
  | .atMost n => s!"Input should be less than or equal to {n}"
  | .choice _ options => "Input should be " ++ alternatives options

end Rule

/-- A broken rule, and where it was found. -/
structure Fault where
  place : List String
  rule : Rule
  deriving DecidableEq, Repr

namespace Fault

/-- The text of a fault. -/
def text (f : Fault) : String :=
  let place := String.intercalate "." f.place
  let name := f.rule.name
  let message := f.rule.message
  s!"{place} [{name}] {message}"

/-- The fault inside a named part of the data. -/
def within (name : String) (f : Fault) : Fault := { f with place := name :: f.place }

end Fault

/-- What becomes of data: something, or faults. -/
abbrev Checked (α : Type) := Except (List Fault) α

namespace Checked

variable {α β : Type}

/-- A single broken rule. -/
def broken (r : Rule) : Checked α := .error [⟨[], r⟩]

/-- Applies a function to a part; the faults of both come together. -/
def part (f : Checked (α → β)) (a : Checked α) : Checked β :=
  match f, a with
  | .ok f, .ok a => .ok (f a)
  | .ok _, .error es => .error es
  | .error es, .ok _ => .error es
  | .error es, .error fs => .error (es ++ fs)

/-- Moves the faults inside a named part of the data. -/
def within (name : String) (a : Checked α) : Checked α :=
  a.mapError fun fs => fs.map (Fault.within name)

/-- Faults as the cause of a failure. -/
def toCause (a : Checked α) : Except Cause α :=
  a.mapError fun fs => .rejected (String.intercalate "; " (fs.map Fault.text))

end Checked

end Schema

end Conductor
