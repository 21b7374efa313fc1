import Retrace.Decimal
import Retrace.Text.Cut

/-! Which traces to reconstruct. An expression is `select=` followed by `all` or by items between
commas; an item is one trace id or a range of them, `first-last` with both ends in it. A minus sign
that starts an item belongs to its number, and any later one separates the ends of a range. Blanks
around items and numbers do not count. One item that is wrong refuses the whole expression. -/

namespace Retrace

/-- The trace ids from `first` to `last`. -/
structure IdSpan where
  first : Int
  last : Int
  deriving DecidableEq, Repr

def IdSpan.contains (span : IdSpan) (id : Int) : Bool :=
  span.first ≤ id && id ≤ span.last

inductive Selection where
  | all
  | only (spans : List IdSpan)
  deriving DecidableEq, Repr

/-- Why an expression selects nothing. -/
inductive SelectionError where
  | noSelect (expression : String)
  | emptyItem (items : String)
  | badId (text : String) (cause : NumeralError)
  | emptyRange (item : String)
  deriving DecidableEq, Repr

namespace SelectionError

def message : SelectionError → String
  | noSelect expression =>
    s!"Invalid trace selection: {expression}. Expected format: select=SPEC"
  | emptyItem items => s!"Empty trace id in selection: {items}"
  | badId text _ => s!"Invalid trace id: '{text}'"
  | emptyRange item => s!"Empty trace id range: {item}"

def cause? : SelectionError → Option NumeralError
  | badId _ cause => some cause
  | _ => none

end SelectionError

namespace Selection

def contains (selection : Selection) (id : Int) : Bool :=
  match selection with
  | all => true
  | only spans => spans.any (·.contains id)

def isAll : Selection → Bool
  | all => true
  | only _ => false

def readId (text : List Char) : Except SelectionError Int :=
  match Decimal.readSigned 64 (Text.trim text) with
  | .ok id => .ok id
  | .error cause => .error (.badId (String.ofList text) cause)

/-- The ends of a range, cut at the first minus sign after the first character. -/
def cutRange? : List Char → Option (List Char × List Char)
  | [] => none
  | c :: rest => (Text.cutFirst '-' rest).map fun (before, after) => (c :: before, after)

/-- Reads an item without blanks around it; `items` is the whole list, for the error. -/
def readItem (items item : List Char) : Except SelectionError IdSpan :=
  if item.isEmpty then .error (.emptyItem (String.ofList items))
  else
    match cutRange? item with
    | none =>
      match readId item with
      | .error e => .error e
      | .ok id => .ok ⟨id, id⟩
    | some (before, after) =>
      match readId before with
      | .error e => .error e
      | .ok first =>
        match readId after with
        | .error e => .error e
        | .ok last =>
          if first ≤ last then .ok ⟨first, last⟩
          else .error (.emptyRange (String.ofList item))

def readAll (items : List Char) : List (List Char) → Except SelectionError (List IdSpan)
  | [] => .ok []
  | item :: rest =>
    match readItem items (Text.trim item) with
    | .error e => .error e
    | .ok span => (readAll items rest).map (span :: ·)

def readItems (items : List Char) : Except SelectionError Selection :=
  if Text.trim items = "all".toList then .ok .all
  else (readAll items (items.splitOn ',')).map .only

def parse (expression : String) : Except SelectionError Selection :=
  match Text.dropStart? "select=".toList expression.toList with
  | some items => readItems items
  | none => .error (.noSelect expression)

end Selection

end Retrace
