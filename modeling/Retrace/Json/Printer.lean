import Retrace.Json.Quoted

/-! Writing JSON. `compact` puts no blanks between tokens. `pretty` puts every item and member on a
line of its own, two spaces deeper than its array or object, and a space after each colon; an array
or object without any stays closed up. Both write members in the order in which they stand. -/

namespace Retrace.Json

mutual

def compactChars : Json → List Char
  | null => "null".toList
  | bool true => "true".toList
  | bool false => "false".toList
  | int n => (toString n).toList
  | fraction => "0.0".toList
  | str s => quote s.toList
  | array items => '[' :: compactItems items ++ [']']
  | object members => '{' :: compactMembers members ++ ['}']

def compactItems : List Json → List Char
  | [] => []
  | [item] => compactChars item
  | item :: rest => compactChars item ++ ',' :: compactItems rest

def compactMembers : List (String × Json) → List Char
  | [] => []
  | [(name, value)] => quote name.toList ++ ':' :: compactChars value
  | (name, value) :: rest =>
    quote name.toList ++ ':' :: compactChars value ++ ',' :: compactMembers rest

end

def compact (json : Json) : String :=
  String.ofList json.compactChars

/-- A line feed and the indentation of the line after it. -/
def newLine (depth : Nat) : List Char :=
  '\n' :: List.replicate (2 * depth) ' '

mutual

/-- Writes a value whose items or members are indented by `depth`. -/
def prettyChars (depth : Nat) : Json → List Char
  | null => "null".toList
  | bool true => "true".toList
  | bool false => "false".toList
  | int n => (toString n).toList
  | fraction => "0.0".toList
  | str s => quote s.toList
  | array [] => ['[', ']']
  | array (item :: rest) =>
    '[' :: newLine depth ++ prettyChars (depth + 1) item ++ prettyItems depth rest ++
      newLine (depth - 1) ++ [']']
  | object [] => ['{', '}']
  | object ((name, value) :: rest) =>
    '{' :: newLine depth ++ quote name.toList ++ ':' :: ' ' :: prettyChars (depth + 1) value ++
      prettyMembers depth rest ++ newLine (depth - 1) ++ ['}']

/-- Writes the items after the first. -/
def prettyItems (depth : Nat) : List Json → List Char
  | [] => []
  | item :: rest => ',' :: newLine depth ++ prettyChars (depth + 1) item ++ prettyItems depth rest

/-- Writes the members after the first. -/
def prettyMembers (depth : Nat) : List (String × Json) → List Char
  | [] => []
  | (name, value) :: rest =>
    ',' :: newLine depth ++ quote name.toList ++ ':' :: ' ' :: prettyChars (depth + 1) value ++
      prettyMembers depth rest

end

def pretty (json : Json) : String :=
  String.ofList (json.prettyChars 1)

end Retrace.Json
