import Retrace.Json.Quoted
import Retrace.Settings
import Retrace.Text.Cut

/-! Settings files. A file sets each setting at most once, on a line `name = value` of its own; the
other lines are blank or hold a comment, which starts with `#` and may also follow a value. Names
may be quoted. Flags are `true` or `false`. The number of workers is an integer in decimal, or in
hexadecimal, octal or binary after `0x`, `0o` or `0b`, with single underscores between digits. -/

namespace Retrace.Settings

/-- Blanks within a line. -/
def isGap (c : Char) : Bool :=
  c == ' ' || c == '\t'

def skipGap (text : List Char) : List Char :=
  text.dropWhile isGap

/-- Characters of a comment: no control characters but the tab. -/
def isCommentChar (c : Char) : Bool :=
  c == '\t' || (0x20 ≤ c.toNat && c.toNat != 0x7F)

/-- Is the rest of a line blank up to a comment? -/
def endsLine (text : List Char) : Bool :=
  match skipGap text with
  | [] => true
  | c :: comment => c == '#' && comment.all isCommentChar

def isNameChar (c : Char) : Bool :=
  c.isAlphanum || c == '_' || c == '-'

/-- The value of hexadecimal digits. -/
def hexNumber? (digits : List Char) : Option Nat :=
  digits.foldlM (fun n c => (Json.hexValue? c).map (16 * n + ·)) 0

/-- The character of a Unicode scalar value. -/
def scalar? (n : Nat) : Option Char :=
  if n.isValidChar then some (Char.ofNat n) else none

/-- Reads a name after its opening double quote; `read` are its characters so far, last first. -/
def readQuotedName (read : List Char) : List Char → Option (List Char × List Char)
  | [] => none
  | '"' :: rest => some (read.reverse, rest)
  | '\\' :: 'b' :: rest => readQuotedName ('\x08' :: read) rest
  | '\\' :: 't' :: rest => readQuotedName ('\t' :: read) rest
  | '\\' :: 'n' :: rest => readQuotedName ('\n' :: read) rest
  | '\\' :: 'f' :: rest => readQuotedName ('\x0c' :: read) rest
  | '\\' :: 'r' :: rest => readQuotedName ('\r' :: read) rest
  | '\\' :: '"' :: rest => readQuotedName ('"' :: read) rest
  | '\\' :: '\\' :: rest => readQuotedName ('\\' :: read) rest
  | '\\' :: 'u' :: a :: b :: c :: d :: rest =>
    match (hexNumber? [a, b, c, d]).bind scalar? with
    | some meant => readQuotedName (meant :: read) rest
    | none => none
  | '\\' :: 'U' :: a :: b :: c :: d :: e :: f :: g :: h :: rest =>
    match (hexNumber? [a, b, c, d, e, f, g, h]).bind scalar? with
    | some meant => readQuotedName (meant :: read) rest
    | none => none
  | '\\' :: _ => none
  | c :: rest => if isCommentChar c then readQuotedName (c :: read) rest else none

/-- Reads the name of a setting, quoted or not. -/
def readName? : List Char → Option (List Char × List Char)
  | '"' :: rest => readQuotedName [] rest
  | '\'' :: rest => do
    let (name, after) ← Text.cutFirst '\'' rest
    if name.all isCommentChar then some (name, after) else none
  | text =>
    match text.takeWhile isNameChar with
    | [] => none
    | name => some (name, text.dropWhile isNameChar)

/-- The digits of a number without its underscores, each of which stands between two digits. -/
def readDigits? (isDigit : Char → Bool) : List Char → Option (List Char)
  | [] => none
  | [c] => if isDigit c then some [c] else none
  | c :: '_' :: rest => if isDigit c then (readDigits? isDigit rest).map (c :: ·) else none
  | c :: rest => if isDigit c then (readDigits? isDigit rest).map (c :: ·) else none

def isBelow (base : Nat) (c : Char) : Bool :=
  match Json.hexValue? c with
  | some n => n < base
  | none => false

/-- The value of digits of a base. -/
def valueOf? (base : Nat) (text : List Char) : Option Nat := do
  let digits ← readDigits? (isBelow base) text
  digits.foldlM (fun n c => (Json.hexValue? c).map (base * n + ·)) 0

/-- An integer without a sign in decimal, which has no leading zeros. -/
def decimal? (text : List Char) : Option Nat :=
  match text with
  | ['0'] => some 0
  | '0' :: _ => none
  | _ => valueOf? 10 text

/-- A number that fits a signed width of 64 bits and is not negative. -/
def natural? (text : List Char) : Option Nat := do
  let n ← match text with
    | '0' :: 'x' :: digits => valueOf? 16 digits
    | '0' :: 'o' :: digits => valueOf? 8 digits
    | '0' :: 'b' :: digits => valueOf? 2 digits
    | '+' :: digits => decimal? digits
    | ['-', '0'] => some 0
    | _ => decimal? text
  if n < capacity 63 then some n else none

def flag? (text : List Char) : Option Bool :=
  if text = "true".toList then some true
  else if text = "false".toList then some false
  else none

/-- Sets one setting to a written value. -/
def set? (s : Settings) (name : String) (value : List Char) : Option Settings :=
  if name = "enhance_java_constructors" then
    (flag? value).map fun b => { s with matching.normaliseConstructors := b }
  else if name = "enhance_call_detection" then
    (flag? value).map fun b => { s with matching.guessCalls := b }
  else if name = "workers" then (natural? value).map fun n => { s with workers := n }
  else if name = "ignore_invalid_traces" then
    (flag? value).map fun b => { s with ignoreInvalid := b }
  else none

def isValueChar (c : Char) : Bool :=
  c.isAlphanum || c == '_' || c == '+' || c == '-'

/-- Reads the lines of a file; `done` are the names of the settings that have been set. -/
def readLines? (done : List String) (s : Settings) : List (List Char) → Option Settings
  | [] => some s
  | line :: rest =>
    if endsLine line then readLines? done s rest
    else do
      let (name, afterName) ← readName? (skipGap line)
      let name := String.ofList name
      match skipGap afterName with
      | '=' :: afterSign =>
        let text := skipGap afterSign
        if done.contains name then none
        else if endsLine (text.dropWhile isValueChar) then
          let s ← s.set? name (text.takeWhile isValueChar)
          readLines? (name :: done) s rest
        else none
      | _ => none

/-- Reads a settings file. A byte order mark may come first. -/
def ofText? (content : String) : Option Settings :=
  match content.toList with
  | '\ufeff' :: rest => readLines? [] {} (Text.lines rest)
  | text => readLines? [] {} (Text.lines text)

end Retrace.Settings
