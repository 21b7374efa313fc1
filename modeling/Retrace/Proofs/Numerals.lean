import Mathlib.Tactic.Common
import Retrace.Decimal
import Retrace.Text.Blank

/-! Numerals. A text is read as an integer of a width if and only if it spells an integer, with or
without a sign and leading zeros, and the integer is of that width. Where the reader stops for a
value that leaves the width does not matter, since a value only grows with each digit. -/

namespace Retrace.Decimal

/-- The text is made of digits, at least one, which come to this number. -/
structure Digits (text : List Char) (n : Nat) : Prop where
  nonempty : text ≠ []
  digits : ∀ c ∈ text, c.isDigit = true
  value : Nat.ofDigitChars 10 text 0 = n

theorem digits_of_all {text : List Char} (hempty : text.isEmpty = false)
    (hall : text.all Char.isDigit = true) : Digits text (Nat.ofDigitChars 10 text 0) :=
  ⟨List.isEmpty_eq_false_iff.mp hempty, List.all_eq_true.mp hall, rfl⟩

/-- The text spells this integer: digits, and a sign before them or not. -/
inductive Numeral : List Char → Int → Prop
  | plain {text : List Char} {n : Nat} (h : Digits text n) : Numeral text n
  | plus {text : List Char} {n : Nat} (h : Digits text n) : Numeral ('+' :: text) n
  | minus {text : List Char} {n : Nat} (h : Digits text n) : Numeral ('-' :: text) (-n)

section Reading

variable {largest value n bits : Nat} {excess : NumeralError} {text : List Char}

theorem le_ofDigitChars (value : Nat) (text : List Char) :
    value ≤ Nat.ofDigitChars 10 text value := by
  induction text generalizing value with
  | nil => exact Nat.le_refl value
  | cons c rest ih =>
    rw [Nat.ofDigitChars_cons]
    have := ih (10 * value + (c.toNat - '0'.toNat))
    omega

/-- The largest value is never passed on the way if the last value does not pass it. -/
theorem readDigits_eq_ok_iff (h : value ≤ largest) :
    readDigits largest excess value text = .ok n ↔
      (∀ c ∈ text, c.isDigit = true) ∧ Nat.ofDigitChars 10 text value = n ∧ n ≤ largest := by
  induction text generalizing value with
  | nil =>
    simp only [readDigits, Except.ok.injEq, List.not_mem_nil, false_implies, implies_true, true_and,
      Nat.ofDigitChars, List.foldl_nil]
    exact ⟨fun hn => ⟨hn, hn ▸ h⟩, fun hn => hn.1⟩
  | cons c rest ih =>
    rw [readDigits, List.forall_mem_cons, Nat.ofDigitChars_cons]
    by_cases hdigit : c.isDigit = true
    · by_cases hnext : 10 * value + digitValue c ≤ largest
      · rw [if_pos hdigit, if_pos hnext, ih hnext]
        simp only [hdigit, true_and]
        rfl
      · rw [if_pos hdigit, if_neg hnext]
        refine iff_of_false (fun hread => ?_) fun ⟨_, hvalue, hle⟩ => ?_
        · cases hread
        · have hgrows := le_ofDigitChars (10 * value + (c.toNat - '0'.toNat)) rest
          exact hnext (Nat.le_trans hgrows (Nat.le_trans (Nat.le_of_eq hvalue) hle))
    · rw [if_neg hdigit]
      refine iff_of_false (fun hread => ?_) fun hall => hdigit hall.1.1
      cases hread

theorem readMagnitude_eq_ok_iff :
    readMagnitude largest excess text = .ok n ↔ Digits text n ∧ n ≤ largest := by
  cases text with
  | nil =>
    refine iff_of_false (fun hread => ?_) fun h => h.1.nonempty rfl
    cases hread
  | cons c rest =>
    have hne := List.cons_ne_nil c rest
    rw [readMagnitude]
    · rw [readDigits_eq_ok_iff (Nat.zero_le largest)]
      exact ⟨fun ⟨hdigits, hvalue, hle⟩ => ⟨⟨hne, hdigits, hvalue⟩, hle⟩,
        fun ⟨h, hle⟩ => ⟨h.digits, h.value, hle⟩⟩
    · exact hne

end Reading

section Signs

variable {text : List Char} {n : Int}

theorem numeral_minus_iff : Numeral ('-' :: text) n ↔ ∃ m, Digits text m ∧ n = -(m : Int) := by
  constructor
  · intro h
    cases h with
    | plain h => exact absurd (h.digits '-' List.mem_cons_self) (by decide)
    | minus h => exact ⟨_, h, rfl⟩
  · intro ⟨m, h, hn⟩
    exact hn ▸ .minus h

theorem numeral_plus_iff : Numeral ('+' :: text) n ↔ ∃ m, Digits text m ∧ n = (m : Int) := by
  constructor
  · intro h
    cases h with
    | plain h => exact absurd (h.digits '+' List.mem_cons_self) (by decide)
    | plus h => exact ⟨_, h, rfl⟩
  · intro ⟨m, h, hn⟩
    exact hn ▸ .plus h

theorem numeral_plain_iff (hminus : ∀ digits, text ≠ '-' :: digits)
    (hplus : ∀ digits, text ≠ '+' :: digits) :
    Numeral text n ↔ ∃ m, Digits text m ∧ n = (m : Int) := by
  constructor
  · intro h
    cases h with
    | plain h => exact ⟨_, h, rfl⟩
    | plus h => exact absurd rfl (hplus _)
    | minus h => exact absurd rfl (hminus _)
  · intro ⟨m, h, hn⟩
    exact hn ▸ .plain h

theorem map_eq_ok_iff {ε α β : Type} {f : α → β} {read : Except ε α} {b : β} :
    read.map f = .ok b ↔ ∃ a, read = .ok a ∧ b = f a := by
  cases read with
  | error why => simp [Except.map]
  | ok a => simp [Except.map, eq_comm]

/-- What holds of the number that is spelled can be asked of its digits. -/
theorem exists_digits_iff (signed : Nat → Int) (P : Int → Prop) :
    (∃ m, (Digits text m ∧ P (signed m)) ∧ n = signed m) ↔
      (∃ m, Digits text m ∧ n = signed m) ∧ P n := by
  constructor
  · intro h
    obtain ⟨m, ⟨hdigits, hm⟩, rfl⟩ := h
    exact ⟨⟨m, hdigits, rfl⟩, hm⟩
  · intro h
    obtain ⟨⟨m, hdigits, rfl⟩, hm⟩ := h
    exact ⟨m, ⟨hdigits, hm⟩, rfl⟩

theorem readSigned_minus (bits : Nat) (digits : List Char) :
    readSigned bits ('-' :: digits) =
      (readMagnitude (capacity (bits - 1)) .tooSmall digits).map fun m : Nat => (-m : Int) := by
  change Except.map _ (readMagnitude _ _ digits >>= _) = _
  cases readMagnitude (capacity (bits - 1)) .tooSmall digits <;> rfl

/-- A text is read as an integer of a width if and only if it spells one. -/
theorem readSigned_eq_ok_iff {bits : Nat} :
    readSigned bits text = .ok n ↔ Numeral text n ∧ FitsSigned bits n := by
  have hcapacity : 0 < capacity (bits - 1) := Nat.pow_pos (by decide)
  have hbelow : ∀ m : Nat, m ≤ capacity (bits - 1) - 1 ↔ FitsSigned bits m := by
    intro m
    rw [FitsSigned]
    omega
  have habove : ∀ m : Nat, m ≤ capacity (bits - 1) ↔ FitsSigned bits (-m) := by
    intro m
    rw [FitsSigned]
    omega
  unfold readSigned
  split
  · refine iff_of_false (fun hread => ?_) fun ⟨hnumeral, _⟩ => ?_
    · cases hread
    · cases hnumeral with
      | plain h => exact h.nonempty rfl
  · rename_i digits
    change readSigned bits ('-' :: digits) = .ok n ↔ _
    rw [readSigned_minus]
    simp only [map_eq_ok_iff, readMagnitude_eq_ok_iff, numeral_minus_iff, habove]
    exact exists_digits_iff (fun m => -(m : Int)) (FitsSigned bits)
  · simp only [map_eq_ok_iff, readMagnitude_eq_ok_iff, numeral_plus_iff, hbelow]
    exact exists_digits_iff Int.ofNat (FitsSigned bits)
  · rename_i hminus hplus
    rw [numeral_plain_iff (fun digits h => hminus digits h) (fun digits h => hplus digits h)]
    simp only [map_eq_ok_iff, readMagnitude_eq_ok_iff, hbelow]
    exact exists_digits_iff Int.ofNat (FitsSigned bits)

end Signs

/-! ## The characters of a numeral -/

section Characters

variable {text : List Char} {n m : Int} {c : Char}

theorem Numeral.ne_nil (h : Numeral text n) : text ≠ [] := by
  cases h with
  | plain h => exact h.nonempty
  | plus h => exact List.cons_ne_nil _ _
  | minus h => exact List.cons_ne_nil _ _

theorem Numeral.isDigit_of_mem_tail (h : Numeral text n) (hc : c ∈ text.tail) :
    c.isDigit = true := by
  cases h with
  | plain h => exact h.digits c (List.mem_of_mem_tail hc)
  | plus h => exact h.digits c hc
  | minus h => exact h.digits c hc

theorem Numeral.sign_or_isDigit (h : Numeral text n) (hc : c ∈ text) :
    c = '+' ∨ c = '-' ∨ c.isDigit = true := by
  cases h with
  | plain h => exact .inr (.inr (h.digits c hc))
  | plus h => exact (List.mem_cons.mp hc).imp_right fun hc => .inr (h.digits c hc)
  | minus h => exact .inr ((List.mem_cons.mp hc).imp_right fun hc => h.digits c hc)

theorem isBlank_of_isDigit (h : c.isDigit = true) : Text.isBlank c = false := by
  simp only [Char.isDigit, Bool.and_eq_true, decide_eq_true_eq, ge_iff_le,
    UInt32.le_iff_toNat_le] at h
  change 48 ≤ c.toNat ∧ c.toNat ≤ 57 at h
  simp only [Text.isBlank, Bool.or_eq_false_iff, Bool.and_eq_false_iff, decide_eq_false_iff_not,
    beq_eq_false_iff_ne]
  omega

theorem Numeral.isBlank (h : Numeral text n) (hc : c ∈ text) : Text.isBlank c = false := by
  obtain rfl | rfl | hdigit := h.sign_or_isDigit hc
  · decide
  · decide
  · exact isBlank_of_isDigit hdigit

/-- A text spells at most one integer. -/
theorem Numeral.unique (h : Numeral text n) (h' : Numeral text m) : n = m := by
  cases h with
  | plain h =>
    cases h' with
    | plain h' => rw [← h.value, h'.value]
    | plus h' => exact absurd (h.digits '+' List.mem_cons_self) (by decide)
    | minus h' => exact absurd (h.digits '-' List.mem_cons_self) (by decide)
  | plus h =>
    obtain ⟨a, hdigits, rfl⟩ := numeral_plus_iff.mp h'
    rw [← h.value, hdigits.value]
  | minus h =>
    obtain ⟨a, hdigits, rfl⟩ := numeral_minus_iff.mp h'
    rw [← h.value, hdigits.value]

/-- An integer written in decimal is a numeral. -/
theorem numeral_toString (n : Int) : Numeral (toString n).toList n := by
  have hdigits : ∀ m, Digits (Nat.toDigits 10 m) m := fun m =>
    ⟨Nat.toDigits_ne_nil, fun _ => Nat.isDigit_of_mem_toDigits (by decide) (by decide),
      Nat.ofDigitChars_ten_toDigits⟩
  rw [Int.toString_eq_repr, Int.repr_eq_if]
  by_cases hpos : 0 ≤ n
  · rw [if_pos hpos, Nat.toList_repr]
    have hplain := Numeral.plain (hdigits n.toNat)
    rwa [Int.toNat_of_nonneg hpos] at hplain
  · rw [if_neg hpos, String.toList_append, Nat.toList_repr]
    have hminus := Numeral.minus (hdigits (-n).toNat)
    have hback : -((-n).toNat : Int) = n := by omega
    rwa [hback] at hminus

end Characters

end Retrace.Decimal
