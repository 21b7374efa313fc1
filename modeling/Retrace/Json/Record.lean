import Retrace.Json.Reader

/-! Records in JSON text. A record is an object with named fields, or an array of its fields in
order. In an object, a field may not be repeated, members of other names are skipped, and the fields
that have no default have to be there. In an array, the fields at the end may be left out down to a
least number, and there may be no items beyond the fields. -/

namespace Retrace.Json

structure RecordShape (α : Type) where
  /-- The names of the fields in order. -/
  names : List String
  /-- The names of the fields that an object has to have. -/
  required : List String
  /-- How many fields an array has to have. -/
  least : Nat
  /-- The record with every field at its default. -/
  blank : α
  /-- Reads one field into the record. -/
  put : α → String → Draft → Except JsonFault α

namespace RecordShape

variable {α : Type} (shape : RecordShape α)

/-- Reads the members of an object; `seen` are the fields read already. -/
def readMembers (broken : Option Defect) (seen : List String) (record : α) :
    List (Option String × Draft) → Except JsonFault α
  | [] =>
    match broken with
    | some what => .error what.wanted
    | none => if shape.required.all (seen.contains ·) then .ok record else .error .mismatched
  | (none, _) :: _ => .error .malformed
  | (some name, value) :: rest =>
    if shape.names.contains name then
      if seen.contains name then .error .mismatched
      else
        match shape.put record name value with
        | .error fault => .error fault
        | .ok record => readMembers broken (name :: seen) record rest
    else
      match value.skip with
      | .error fault => .error fault
      | .ok () => readMembers broken seen record rest

/-- Reads the items of an array into the fields that are left, of which so many are wanted. -/
def readItems (broken : Option Defect) (record : α) :
    List String → Nat → List Draft → Except JsonFault α
  | [], _, _ :: _ => .error .malformed
  | _, wanted, [] =>
    match broken with
    | some what => .error what.wanted
    | none => if wanted = 0 then .ok record else .error .mismatched
  | name :: names, wanted, item :: rest =>
    match shape.put record name item with
    | .error fault => .error fault
    | .ok record => readItems broken record names (wanted - 1) rest

def read : Draft → Except JsonFault α
  | .object members broken => shape.readMembers broken [] shape.blank members
  | .array items broken => shape.readItems broken shape.blank shape.names shape.least items
  | d => .error d.mismatch

end RecordShape

end Retrace.Json
