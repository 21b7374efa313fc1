import Retrace.Json.Number

/-! Strings in JSON text. Written, a string escapes the quote, the backslash and the control
characters below U+0020, and nothing else. Read, it may also escape any UTF-16 unit in hexadecimal;
a character beyond U+FFFF is then a pair of surrogates, and a surrogate that is not part of such a
pair makes the string unreadable, though a reader that only skips it does not mind. -/

namespace Retrace.Json

def hexDigit (n : Nat) : Char :=
  if n < 10 then Char.ofNat ('0'.toNat + n) else Char.ofNat ('a'.toNat + (n - 10))

def hexValue? (c : Char) : Option Nat :=
  if c.isDigit then some (c.toNat - '0'.toNat)
  else if 'a' ≤ c ∧ c ≤ 'f' then some (c.toNat - 'a'.toNat + 10)
  else if 'A' ≤ c ∧ c ≤ 'F' then some (c.toNat - 'A'.toNat + 10)
  else none

def escapeChar (c : Char) : List Char :=
  if c = '"' then ['\\', '"']
  else if c = '\\' then ['\\', '\\']
  else if c = '\x08' then ['\\', 'b']
  else if c = '\x0c' then ['\\', 'f']
  else if c = '\n' then ['\\', 'n']
  else if c = '\r' then ['\\', 'r']
  else if c = '\t' then ['\\', 't']
  else if c.toNat < 0x20 then
    ['\\', 'u', '0', '0', hexDigit (c.toNat / 16), hexDigit (c.toNat % 16)]
  else [c]

/-- A string between quotes. -/
def quote (text : List Char) : List Char :=
  '"' :: text.flatMap escapeChar ++ ['"']

/-- The character meant by the letter after a backslash, `u` apart. -/
def unescape? (c : Char) : Option Char :=
  if c = '"' then some '"'
  else if c = '\\' then some '\\'
  else if c = '/' then some '/'
  else if c = 'b' then some '\x08'
  else if c = 'f' then some '\x0c'
  else if c = 'n' then some '\n'
  else if c = 'r' then some '\r'
  else if c = 't' then some '\t'
  else none

def isHighSurrogate (unit : Nat) : Bool :=
  0xD800 ≤ unit && unit < 0xDC00

def isLowSurrogate (unit : Nat) : Bool :=
  0xDC00 ≤ unit && unit < 0xE000

def joinSurrogates (high low : Nat) : Char :=
  Char.ofNat (0x10000 + (high - 0xD800) * 0x400 + (low - 0xDC00))

/-- What has been read of a string: the characters, last first; a high surrogate that waits for its
low one; and whether some surrogate stood alone. -/
structure Spelled where
  chars : List Char := []
  waiting : Option Nat := none
  alone : Bool := false

namespace Spelled

def push (read : Spelled) (c : Char) : Spelled :=
  ⟨c :: read.chars, none, read.alone || read.waiting.isSome⟩

def pushUnit (read : Spelled) (unit : Nat) : Spelled :=
  if isHighSurrogate unit then ⟨read.chars, some unit, read.alone || read.waiting.isSome⟩
  else if isLowSurrogate unit then
    match read.waiting with
    | some high => ⟨joinSurrogates high unit :: read.chars, none, read.alone⟩
    | none => ⟨read.chars, none, true⟩
  else read.push (Char.ofNat unit)

/-- The string, unless a surrogate stands alone in it. -/
def text? (read : Spelled) : Option String :=
  if read.alone || read.waiting.isSome then none else some (String.ofList read.chars.reverse)

/-- The defect of a string that the text breaks off. -/
def cutOff (read : Spelled) : Defect :=
  ⟨if read.alone then .malformed else .truncated, .truncated⟩

end Spelled

/-- Where a reader stands in a string. -/
inductive Place where
  | plain
  /-- After a backslash. -/
  | escape
  /-- Within an escaped unit: what its digits so far say, and how many of the four are missing. -/
  | unit (value missing : Nat)
  deriving DecidableEq, Repr

/-- Reads a string from some place in it to its closing quote. An escaped unit needs four bytes of
text to be looked at at all, and its digits take one byte each. -/
def readFrom (read : Spelled) : Place → List Char → Except Defect (Option String × List Char)
  | _, [] => .error read.cutOff
  | .plain, c :: rest =>
    if c = '"' then .ok (read.text?, rest)
    else if c = '\\' then readFrom read .escape rest
    else if c.toNat < 0x20 then .error .malformed
    else readFrom (read.push c) .plain rest
  | .escape, c :: rest =>
    if c = 'u' then readFrom read (.unit 0 4) rest
    else
      match unescape? c with
      | some meant => readFrom (read.push meant) .plain rest
      | none => .error .malformed
  | .unit value missing, c :: rest =>
    match hexValue? c with
    | some digit =>
      if missing ≤ 1 then readFrom (read.pushUnit (16 * value + digit)) .plain rest
      else readFrom read (.unit (16 * value + digit) (missing - 1)) rest
    | none =>
      .error
        (if (String.ofList (c :: rest)).utf8ByteSize < missing then read.cutOff else .malformed)

/-- Reads a string after its opening quote. -/
def readQuoted (text : List Char) : Except Defect (Option String × List Char) :=
  readFrom {} .plain text

end Retrace.Json
