import Retrace.Json.Draft

/-! Reading JSON text. `readValue` drafts one value and says what text follows it; after a defect
nothing follows. Blanks between tokens are space, tab, line feed and carriage return only. After a
comma there has to be another item or member, so a comma before the closing bracket is a defect of
the item that is missing there. -/

namespace Retrace.Json

def isSpace (c : Char) : Bool :=
  c == ' ' || c == '\n' || c == '\t' || c == '\r'

def skipSpaces (text : List Char) : List Char :=
  text.dropWhile isSpace

/-- The drafted value, and the text after it unless the text had a defect. -/
abbrev Drafted := Draft × Option (List Char)

def broken (what : Defect) : Drafted :=
  (.defect what, none)

/-- Reads the rest of a word such as `null`. -/
def readWord (value : Draft) : List Char → List Char → Drafted
  | [], text => (value, some text)
  | _ :: _, [] => broken .truncated
  | c :: word, d :: text => if c = d then readWord value word text else broken .malformed

def readText (text : List Char) : Drafted :=
  match readQuoted text with
  | .ok (s, rest) => (.str s, some rest)
  | .error what => broken what

def readNumeral (text : List Char) : Drafted :=
  match readNumber text with
  | .ok (n, rest) => (.number n, some rest)
  | .error what => broken what

/-- The items of an array or the members of an object, how it ends, and the text after it. -/
abbrev Enclosed (α : Type) := List α × Option Defect × Option (List Char)

/-- Reads an array or object after its opening bracket; `readRest` reads it if it is not empty. -/
def readEnclosed {α : Type} (closing : Char) (readRest : List Char → Enclosed α)
    (text : List Char) : Enclosed α :=
  match skipSpaces text with
  | [] => ([], some .truncated, none)
  | c :: rest => if c = closing then ([], none, some rest) else readRest (c :: rest)

mutual

/-- Reads one value. The fuel is spent one unit a value, and each value takes text. -/
def readValue : Nat → List Char → Drafted
  | 0, _ => broken .malformed
  | fuel + 1, text =>
    match skipSpaces text with
    | [] => broken .truncated
    | c :: rest =>
      if c = 'n' then readWord .null ['u', 'l', 'l'] rest
      else if c = 't' then readWord (.bool true) ['r', 'u', 'e'] rest
      else if c = 'f' then readWord (.bool false) ['a', 'l', 's', 'e'] rest
      else if c = '"' then readText rest
      else if c = '-' ∨ c.isDigit then readNumeral (c :: rest)
      else if c = '[' then
        let (items, ending, after) := readEnclosed ']' (readItems fuel) rest
        (.array items ending, after)
      else if c = '{' then
        let (members, ending, after) := readEnclosed '}' (readMembers fuel) rest
        (.object members ending, after)
      else broken .malformed

/-- Reads the items from the next one on. -/
def readItems : Nat → List Char → Enclosed Draft
  | 0, _ => ([], some .malformed, none)
  | fuel + 1, text =>
    match readValue fuel text with
    | (item, none) => ([item], none, none)
    | (item, some after) =>
      match skipSpaces after with
      | [] => ([item], some .truncated, none)
      | c :: rest =>
        if c = ',' then
          let (items, ending, after) := readItems fuel rest
          (item :: items, ending, after)
        else if c = ']' then ([item], none, some rest)
        else ([item], some .malformed, none)

/-- Reads the members from the next one on. -/
def readMembers : Nat → List Char → Enclosed (Option String × Draft)
  | 0, _ => ([], some .malformed, none)
  | fuel + 1, text =>
    match skipSpaces text with
    | [] => ([], some .truncated, none)
    | c :: rest =>
      if c = '"' then
        match readQuoted rest with
        | .error what => ([], some what, none)
        | .ok (name, afterName) =>
          match skipSpaces afterName with
          | [] => ([(name, .defect .truncated)], none, none)
          | c :: rest =>
            if c = ':' then
              match readValue fuel rest with
              | (value, none) => ([(name, value)], none, none)
              | (value, some after) =>
                match skipSpaces after with
                | [] => ([(name, value)], some .truncated, none)
                | c :: rest =>
                  if c = ',' then
                    let (members, ending, after) := readMembers fuel rest
                    ((name, value) :: members, ending, after)
                  else if c = '}' then ([(name, value)], none, some rest)
                  else ([(name, value)], some .malformed, none)
            else ([(name, .defect .malformed)], none, none)
      else ([], some .malformed, none)

end

/-- Drafts a text that holds one value, and says whether nothing but blanks follows it. -/
def readDocument (text : List Char) : Draft × Bool :=
  match readValue (2 * text.length + 1) text with
  | (value, some rest) => (value, (skipSpaces rest).isEmpty)
  | (value, none) => (value, true)

/-- Reads a text that holds one value of some shape. Text after the value is a fault only if the
value is of that shape. -/
def decode {α : Type} (read : Draft → Except JsonFault α) (text : List Char) :
    Except JsonFault α :=
  match readDocument text with
  | (value, complete) =>
    match read value with
    | .error fault => .error fault
    | .ok a => if complete then .ok a else .error .malformed

/-- How deep arrays and objects may be nested in a value that is kept. -/
def maxDepth : Nat := 127

def parse (text : List Char) : Except JsonFault Json :=
  decode (Draft.value maxDepth) text

end Retrace.Json
