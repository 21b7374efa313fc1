/-! Integers written in decimal, and the widths they have to fit. A numeral is an optional sign and
at least one ASCII digit. Digits are read from the left, so of two things wrong with a numeral the
first one met is the one reported: a character that is no digit, or the digit with which the value
leaves the width. -/

namespace Retrace

/-- How many values so many bits can take. -/
def capacity (bits : Nat) : Nat :=
  Nat.pow 2 bits

/-- The integers of a signed width. -/
def FitsSigned (bits : Nat) (n : Int) : Prop :=
  -(capacity (bits - 1) : Int) ≤ n ∧ n < capacity (bits - 1)

instance (bits : Nat) (n : Int) : Decidable (FitsSigned bits n) :=
  inferInstanceAs (Decidable (_ ∧ _))

/-- The integers of an unsigned width. -/
def FitsUnsigned (bits : Nat) (n : Int) : Prop :=
  0 ≤ n ∧ n < capacity bits

instance (bits : Nat) (n : Int) : Decidable (FitsUnsigned bits n) :=
  inferInstanceAs (Decidable (_ ∧ _))

/-- The integer of a signed width that agrees in the lowest bits. A result that does not fit wraps
around to it. -/
def wrapSigned (bits : Nat) (n : Int) : Int :=
  n.bmod (capacity bits)

theorem capacity_eq_double {bits : Nat} (h : 0 < bits) :
    capacity bits = 2 * capacity (bits - 1) := by
  obtain ⟨fewer, rfl⟩ := Nat.exists_eq_succ_of_ne_zero (Nat.ne_of_gt h)
  exact (Nat.pow_succ 2 fewer).trans (Nat.mul_comm _ _)

theorem fitsSigned_wrapSigned {bits : Nat} (h : 0 < bits) (n : Int) :
    FitsSigned bits (wrapSigned bits n) := by
  have hpos : 0 < capacity bits := Nat.pow_pos (by decide)
  have hdouble := capacity_eq_double h
  have hlow := Int.le_bmod (x := n) hpos
  have hhigh := Int.bmod_lt (x := n) hpos
  unfold FitsSigned wrapSigned
  omega

theorem wrapSigned_eq_self_iff {bits : Nat} (h : 0 < bits) {n : Int} :
    wrapSigned bits n = n ↔ FitsSigned bits n := by
  refine ⟨fun heq => heq ▸ fitsSigned_wrapSigned h n, fun ⟨hlow, hhigh⟩ => ?_⟩
  have hdouble := capacity_eq_double h
  exact Int.bmod_eq_of_le_mul_two (by omega) (by omega)

/-- Why a text is not an integer of the width asked for. -/
inductive NumeralError where
  | empty
  | notADigit
  | tooLarge
  | tooSmall
  deriving DecidableEq, Repr

namespace NumeralError

def message : NumeralError → String
  | empty => "cannot parse integer from empty string"
  | notADigit => "invalid digit found in string"
  | tooLarge => "number too large to fit in target type"
  | tooSmall => "number too small to fit in target type"

end NumeralError

namespace Decimal

def digitValue (c : Char) : Nat :=
  c.toNat - '0'.toNat

/-- Reads digits after a value already read, up to a largest value; `excess` is the error of a value
beyond it. -/
def readDigits (largest : Nat) (excess : NumeralError) (value : Nat) :
    List Char → Except NumeralError Nat
  | [] => .ok value
  | c :: rest =>
    if c.isDigit then
      let next := 10 * value + digitValue c
      if next ≤ largest then readDigits largest excess next rest else .error excess
    else .error .notADigit

/-- Reads at least one digit. -/
def readMagnitude (largest : Nat) (excess : NumeralError) : List Char → Except NumeralError Nat
  | [] => .error .notADigit
  | digits => readDigits largest excess 0 digits

/-- An integer of a signed width; the sign may be `+` or `-`. -/
def readSigned (bits : Nat) : List Char → Except NumeralError Int
  | [] => .error .empty
  | '-' :: digits => (readMagnitude (capacity (bits - 1)) .tooSmall digits).map fun n => -(n : Int)
  | '+' :: digits => (readMagnitude (capacity (bits - 1) - 1) .tooLarge digits).map Int.ofNat
  | digits => (readMagnitude (capacity (bits - 1) - 1) .tooLarge digits).map Int.ofNat

/-- An integer of an unsigned width; the only sign is `+`. -/
def readUnsigned (bits : Nat) : List Char → Except NumeralError Nat
  | [] => .error .empty
  | '+' :: digits => readMagnitude (capacity bits - 1) .tooLarge digits
  | digits => readMagnitude (capacity bits - 1) .tooLarge digits

end Decimal

end Retrace
