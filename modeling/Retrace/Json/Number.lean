import Retrace.Json.Basic

/-! Numbers in JSON text. A number is an optional minus sign, an integer part without needless
leading zeros, an optional fraction and an optional exponent.

What counts about a number is whether it is an integer of 64 bits, and otherwise whether a double
can hold it. The double is the one that a plain reader arrives at: it keeps the leading digits that
fit 64 bits, drops the others, and multiplies the nearest double by the nearest double to the power
of ten. `isExcessive` says when that product is infinite. -/

namespace Retrace.Json

inductive Numeral where
  | int (value : Int)
  | fraction
  | excessive
  deriving DecidableEq, Repr

/-- A defect in a text. A reader that only skips a value overlooks some defects, so the fault can
depend on whether the value is wanted. -/
structure Defect where
  wanted : JsonFault
  skipped : JsonFault
  deriving DecidableEq, Repr

namespace Defect

def malformed : Defect := ⟨.malformed, .malformed⟩

def truncated : Defect := ⟨.truncated, .truncated⟩

/-- A number cut off by the end of the text is simply no number to a reader that skips it. -/
def truncatedNumber : Defect := ⟨.truncated, .malformed⟩

end Defect

/-- The nearest number with 53 significant bits; halfway, the one whose last bit is zero. -/
def nearest53 (n : Nat) : Nat :=
  if n < capacity 53 then n
  else
    let unit := capacity (n.log2 - 52)
    let quotient := n / unit
    let rest := n % unit
    let up := unit < 2 * rest || (2 * rest == unit && quotient % 2 == 1)
    (if up then quotient + 1 else quotient) * unit

/-- The least number that rounds to an infinite double. -/
def infiniteFrom : Nat :=
  capacity 1024 - capacity 970

/-- Is `significand * 10 ^ exponent` beyond every double? -/
def isExcessive (significand : Nat) (exponent : Int) : Bool :=
  significand != 0 &&
    match exponent with
    | .ofNat e => 308 < e || infiniteFrom ≤ nearest53 significand * nearest53 (Nat.pow 10 e)
    | .negSucc _ => false

/-- The leading digits that fit 64 bits after a value already read, and how many digits are left. -/
def leadingDigits (value : Nat) : List Char → Nat × List Char
  | [] => (value, [])
  | c :: rest =>
    let next := 10 * value + Decimal.digitValue c
    if next < capacity 64 then leadingDigits next rest else (value, c :: rest)

/-- The significand and the power of ten that are kept of an integer part and a fraction. -/
def scaled (whole part : List Char) : Nat × Int :=
  let (value, dropped) := leadingDigits 0 whole
  let (value', left) := leadingDigits value part
  (value', (dropped.length : Int) - (part.length - left.length : Nat))

def fractional (whole part : List Char) (exponent : Int) : Numeral :=
  let (significand, scale) := scaled whole part
  if isExcessive significand (scale + exponent) then .excessive else .fraction

/-- Negative zero is not an integer. -/
def integral (negative : Bool) (digits : List Char) : Numeral :=
  let n := Nat.ofDigitChars 10 digits 0
  if negative then
    if n = 0 then .fraction
    else if n ≤ capacity 63 then .int (-n) else fractional digits [] 0
  else if n < capacity 64 then .int n else fractional digits [] 0

/-- Reads the digits after an exponent mark and its sign. -/
def readExponent (text : List Char) : Except Defect (Int × List Char) :=
  let unsigned (text : List Char) : Except Defect (Nat × List Char) :=
    match text with
    | [] => .error .truncatedNumber
    | c :: _ =>
      if c.isDigit then
        .ok (Nat.ofDigitChars 10 (text.takeWhile Char.isDigit) 0, text.dropWhile Char.isDigit)
      else .error .malformed
  match text with
  | '-' :: rest => (unsigned rest).map fun (n, after) => (-(n : Int), after)
  | '+' :: rest => (unsigned rest).map fun (n, after) => (n, after)
  | _ => (unsigned text).map fun (n, after) => (n, after)

/-- Reads what may follow the integer part and the fraction. -/
def readScale (whole part : List Char) (text : List Char) : Except Defect (Numeral × List Char) :=
  match text with
  | c :: rest =>
    if c = 'e' ∨ c = 'E' then
      (readExponent rest).map fun (exponent, after) => (fractional whole part exponent, after)
    else .ok (fractional whole part 0, text)
  | [] => .ok (fractional whole part 0, [])

/-- Reads what may follow the integer part. -/
def readTail (negative : Bool) (whole : List Char) (text : List Char) :
    Except Defect (Numeral × List Char) :=
  match text with
  | '.' :: rest =>
    match rest.takeWhile Char.isDigit with
    | [] => .error (if rest.isEmpty then .truncatedNumber else .malformed)
    | part => readScale whole part (rest.dropWhile Char.isDigit)
  | 'e' :: _ => readScale whole [] text
  | 'E' :: _ => readScale whole [] text
  | _ => .ok (integral negative whole, text)

/-- Reads a number after its sign. -/
def readUnsignedNumber (negative : Bool) (text : List Char) : Except Defect (Numeral × List Char) :=
  match text with
  | [] => .error .truncatedNumber
  | c :: rest =>
    if c = '0' then
      if (rest.takeWhile Char.isDigit).isEmpty then readTail negative ['0'] rest
      else .error .malformed
    else if c.isDigit then
      readTail negative (text.takeWhile Char.isDigit) (text.dropWhile Char.isDigit)
    else .error .malformed

def readNumber (text : List Char) : Except Defect (Numeral × List Char) :=
  match text with
  | '-' :: rest => readUnsignedNumber true rest
  | _ => readUnsignedNumber false text

end Retrace.Json
