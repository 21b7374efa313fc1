import Retrace.Decimal

/-! JSON values, and what can be wrong with a text that should hold one.

Whole numbers that fit 64 bits (signed, or unsigned above the signed range) are kept as integers.
Every other number is a `fraction`: nothing read from a trace asks for its value, only whether it is
an integer. Members stand in the order in which they were written, and if a name is repeated the
last one counts. -/

namespace Retrace

inductive Json where
  | null
  | bool (value : Bool)
  | int (value : Int)
  | fraction
  | str (value : String)
  | array (items : List Json)
  | object (members : List (String × Json))
  deriving Repr, Inhabited

/-- What is wrong with a text that should hold a JSON value of some shape. -/
inductive JsonFault where
  /-- It is not JSON. -/
  | malformed
  /-- It ends before the value does. -/
  | truncated
  /-- It is JSON of another shape. -/
  | mismatched
  deriving DecidableEq, Repr

namespace Json

/-- The last member of a name. -/
def lastMember? (name : String) (members : List (String × Json)) : Option Json :=
  (members.reverse.find? fun m => m.1 == name).map (·.2)

def member? (name : String) : Json → Option Json
  | object members => lastMember? name members
  | _ => none

def str? : Json → Option String
  | str s => some s
  | _ => none

def bool? : Json → Option Bool
  | bool b => some b
  | _ => none

/-- An integer of a signed width. -/
def signed? (bits : Nat) : Json → Option Int
  | int n => if FitsSigned bits n then some n else none
  | _ => none

/-- An integer of an unsigned width. -/
def unsigned? (bits : Nat) : Json → Option Nat
  | int n => if FitsUnsigned bits n then some n.toNat else none
  | _ => none

/-- The values of a record's fields, looked up by name. A record is an object, or an array of its
fields in order that has at least `least` of them and no more than there are names. -/
def fields? (names : List String) (least : Nat) : Json → Option (String → Option Json)
  | object members => some fun name => lastMember? name members
  | array items =>
    if least ≤ items.length ∧ items.length ≤ names.length then
      some fun name => (names.zip items).lookup name
    else none
  | _ => none

/-- A field that has to be there. -/
def required {α : Type} (read : Json → Option α) (field : Option Json) : Option α :=
  field.bind read

/-- A field that may be left out, but not written wrongly. -/
def optional {α : Type} (read : Json → Option α) (default : α) : Option Json → Option α
  | some value => read value
  | none => some default

end Json

end Retrace
