import Mathlib.Data.List.TakeWhile
import Retrace.Json.Quoted

/-! Literals. An integer is written without a plus sign or needless zeros, and a string with what
has to be escaped escaped. A reader gets both back: a string whatever text follows it, and an
integer that fits 64 bits if the number cannot go on there. -/

namespace Retrace.Json

/-! ## Integers -/

/-- The integers that are kept as such. -/
def Fits64 (n : Int) : Prop :=
  -(capacity 63 : Int) ≤ n ∧ n < capacity 64

theorem capacity_le {bits more : Nat} (h : bits ≤ more) : capacity bits ≤ capacity more :=
  Nat.pow_le_pow_right (by decide) h

theorem Fits64.of_signed {bits : Nat} {n : Int} (hbits : bits ≤ 64) (h : FitsSigned bits n) :
    Fits64 n := by
  have hlow := capacity_le (show bits - 1 ≤ 63 by omega)
  have hhigh := capacity_le (show bits - 1 ≤ 64 by omega)
  obtain ⟨hge, hlt⟩ := h
  exact ⟨by omega, by omega⟩

theorem Fits64.of_unsigned {n : Int} (h : FitsUnsigned 64 n) : Fits64 n :=
  ⟨by have := h.1; omega, h.2⟩

/-- Is a number over where this text begins? -/
def EndsNumber (text : List Char) : Prop :=
  ∀ c ∈ text.head?, c.isDigit = false ∧ c ≠ '.' ∧ c ≠ 'e' ∧ c ≠ 'E'

theorem endsNumber_nil : EndsNumber [] := by
  simp [EndsNumber]

theorem endsNumber_cons {c : Char} {text : List Char} :
    EndsNumber (c :: text) ↔ c.isDigit = false ∧ c ≠ '.' ∧ c ≠ 'e' ∧ c ≠ 'E' := by
  simp [EndsNumber]

section Digits

variable {text : List Char} (m : Nat)

theorem isDigit_of_mem_toDigits {c : Char} (h : c ∈ Nat.toDigits 10 m) : c.isDigit = true :=
  Nat.isDigit_of_mem_toDigits (by decide) (by decide) h

theorem exists_toDigits : ∃ c digits, Nat.toDigits 10 m = c :: digits ∧ c.isDigit = true := by
  obtain ⟨c, digits, hdigits⟩ := List.exists_cons_of_ne_nil (Nat.toDigits_ne_nil (n := m) (b := 10))
  exact ⟨c, digits, hdigits, isDigit_of_mem_toDigits m (hdigits ▸ List.mem_cons_self)⟩

/-- A number other than zero does not begin with a zero. -/
theorem head_toDigits {c : Char} {digits : List Char} (hm : m ≠ 0)
    (h : Nat.toDigits 10 m = c :: digits) : c ≠ '0' := by
  induction m using Nat.strong_induction_on generalizing c digits with
  | _ m ih =>
    by_cases hlt : m < 10
    · rw [Nat.toDigits_of_lt_base hlt] at h
      obtain ⟨rfl, -⟩ := List.cons.inj h
      simpa using hm
    · rw [Nat.toDigits_of_base_le (by decide) (Nat.not_lt.mp hlt)] at h
      obtain ⟨d, ds, hd, -⟩ := exists_toDigits (m / 10)
      rw [hd, List.cons_append] at h
      obtain ⟨rfl, -⟩ := List.cons.inj h
      exact ih (m / 10) (by omega) (by omega) hd

theorem takeWhile_isDigit (h : EndsNumber text) : text.takeWhile Char.isDigit = [] := by
  cases text with
  | nil => rfl
  | cons c rest => rw [List.takeWhile_cons_of_neg (by simp [(endsNumber_cons.mp h).1])]

theorem dropWhile_isDigit (h : EndsNumber text) : text.dropWhile Char.isDigit = text := by
  cases text with
  | nil => rfl
  | cons c rest => rw [List.dropWhile_cons_of_neg (by simp [(endsNumber_cons.mp h).1])]

theorem readTail_of_endsNumber (negative : Bool) (whole : List Char) (h : EndsNumber text) :
    readTail negative whole text = .ok (integral negative whole, text) := by
  unfold readTail
  split
  · exact absurd rfl (endsNumber_cons.mp h).2.1
  · exact absurd rfl (endsNumber_cons.mp h).2.2.1
  · exact absurd rfl (endsNumber_cons.mp h).2.2.2
  · rfl

theorem readUnsignedNumber_toDigits (negative : Bool) (h : EndsNumber text) :
    readUnsignedNumber negative (Nat.toDigits 10 m ++ text) =
      .ok (integral negative (Nat.toDigits 10 m), text) := by
  obtain ⟨c, digits, hdigits, hdigit⟩ := exists_toDigits m
  have hall : ∀ d ∈ Nat.toDigits 10 m, d.isDigit = true := fun d => isDigit_of_mem_toDigits m
  have htake : (Nat.toDigits 10 m ++ text).takeWhile Char.isDigit = Nat.toDigits 10 m := by
    rw [List.takeWhile_append_of_pos hall, takeWhile_isDigit h, List.append_nil]
  have hdrop : (Nat.toDigits 10 m ++ text).dropWhile Char.isDigit = text := by
    rw [List.dropWhile_append_of_pos hall, dropWhile_isDigit h]
  by_cases hm : m = 0
  · subst hm
    simp only [Nat.toDigits_zero, List.singleton_append, readUnsignedNumber, if_true,
      takeWhile_isDigit h, List.isEmpty_nil]
    exact readTail_of_endsNumber negative _ h
  · have hzero : c ≠ '0' := head_toDigits m hm hdigits
    rw [hdigits] at htake hdrop ⊢
    simp only [List.cons_append] at htake hdrop ⊢
    simp only [readUnsignedNumber, hzero, if_false, hdigit, if_true, htake, hdrop]
    exact readTail_of_endsNumber negative _ h

end Digits

/-- A written integer begins with its sign or a digit. -/
theorem exists_toString (n : Int) :
    ∃ c rest, (toString n).toList = c :: rest ∧ (c = '-' ∨ c.isDigit = true) := by
  rw [Int.toString_eq_repr, Int.repr_eq_if]
  split
  · obtain ⟨c, digits, hdigits, hdigit⟩ := exists_toDigits n.toNat
    exact ⟨c, digits, by rw [Nat.toList_repr, hdigits], .inr hdigit⟩
  · rw [String.toList_append]
    exact ⟨'-', _, rfl, .inl rfl⟩

theorem newline_not_mem_toString (n : Int) : '\n' ∉ (toString n).toList := by
  have hdigits : ∀ m, '\n' ∉ Nat.toDigits 10 m := fun m h =>
    absurd (isDigit_of_mem_toDigits m h) (by decide)
  rw [Int.toString_eq_repr, Int.repr_eq_if]
  split
  · rw [Nat.toList_repr]
    exact hdigits _
  · rw [String.toList_append, Nat.toList_repr, List.mem_append, not_or]
    exact ⟨by decide, hdigits _⟩

/-- An integer of 64 bits is read back where it ends. -/
theorem readNumber_toString {n : Int} {text : List Char} (hn : Fits64 n) (h : EndsNumber text) :
    readNumber ((toString n).toList ++ text) = .ok (.int n, text) := by
  rw [Int.toString_eq_repr, Int.repr_eq_if]
  split
  · rename_i hpos
    obtain ⟨c, digits, hdigits, hdigit⟩ := exists_toDigits n.toNat
    have hsign : c ≠ '-' := by
      rintro rfl
      contradiction
    have hread : readNumber (Nat.toDigits 10 n.toNat ++ text) =
        readUnsignedNumber false (Nat.toDigits 10 n.toNat ++ text) := by
      rw [hdigits, List.cons_append]
      unfold readNumber
      split
      · rename_i heq
        exact absurd (List.cons.inj heq).1 hsign
      · rfl
    have hlt : n.toNat < capacity 64 := by have := hn.2; omega
    rw [Nat.toList_repr, hread, readUnsignedNumber_toDigits _ _ h]
    simp only [integral, Nat.ofDigitChars_ten_toDigits, Bool.false_eq_true, if_false, hlt, if_true,
      Int.toNat_of_nonneg hpos]
  · rename_i hneg
    have hne : (-n).toNat ≠ 0 := by omega
    have hle : (-n).toNat ≤ capacity 63 := by have := hn.1; omega
    have hback : -((-n).toNat : Int) = n := by omega
    rw [String.toList_append, Nat.toList_repr]
    change readUnsignedNumber true (Nat.toDigits 10 (-n).toNat ++ text) = _
    rw [readUnsignedNumber_toDigits _ _ h]
    simp only [integral, Nat.ofDigitChars_ten_toDigits, hne, if_false, hle, if_true, hback]

/-- The one spelling that stands for every number that is no integer. -/
theorem readNumber_fraction {text : List Char} (h : EndsNumber text) :
    readNumber ('0' :: '.' :: '0' :: text) = .ok (.fraction, text) := by
  have hscale : readScale ['0'] ['0'] text = .ok (fractional ['0'] ['0'] 0, text) := by
    cases text with
    | nil => rfl
    | cons c rest =>
      obtain ⟨-, -, hlower, hupper⟩ := endsNumber_cons.mp h
      simp [readScale, hlower, hupper]
  change readTail false ['0'] ('.' :: '0' :: text) = _
  have hpart : ('0' :: text).takeWhile Char.isDigit = ['0'] := by
    rw [List.takeWhile_cons_of_pos rfl, takeWhile_isDigit h]
  have hafter : ('0' :: text).dropWhile Char.isDigit = text := by
    rw [List.dropWhile_cons_of_pos rfl, dropWhile_isDigit h]
  simp only [readTail, hpart, hafter, hscale]
  rfl

/-! ## Strings -/

theorem hexValue_hexDigit : ∀ n < 16, hexValue? (hexDigit n) = some n := by
  decide

/-- Whatever a string holds, it is written on one line. -/
theorem newline_not_mem_quote (s : List Char) : '\n' ∉ quote s := by
  have hhex : ∀ n < 16, hexDigit n ≠ '\n' := by decide
  have hescape : ∀ c, '\n' ∉ escapeChar c := by
    intro c
    unfold escapeChar
    iterate 7 (split; · decide)
    split
    · rename_i hcontrol
      have hhigh := hhex (c.toNat / 16) (by omega)
      have hlow := hhex (c.toNat % 16) (by omega)
      simp [hhigh.symm, hlow.symm]
    · rename_i hline _ _ _
      simpa [eq_comm] using hline
  simp [quote, hescape]

/-- An escaped unit that is no surrogate is a character of its own. -/
theorem pushUnit_of_lt {unit : Nat} (read : Spelled) (h : unit < 0xD800) :
    read.pushUnit unit = read.push (Char.ofNat unit) := by
  have hhigh : isHighSurrogate unit = false := by simp [isHighSurrogate]; omega
  have hlow : isLowSurrogate unit = false := by simp [isLowSurrogate]; omega
  simp [Spelled.pushUnit, hhigh, hlow]

/-- A character is read back from the way it is written in a string. -/
theorem readFrom_escapeChar (read : Spelled) (c : Char) (text : List Char) :
    readFrom read .plain (escapeChar c ++ text) = readFrom (read.push c) .plain text := by
  unfold escapeChar
  iterate 7 (split; · subst c; simp [readFrom, unescape?])
  split
  · rename_i hcontrol
    have hhigh := hexValue_hexDigit (c.toNat / 16) (by omega)
    have hlow := hexValue_hexDigit (c.toNat % 16) (by omega)
    have hunit : 16 * (c.toNat / 16) + c.toNat % 16 = c.toNat := by omega
    have hzero : hexValue? '0' = some 0 := rfl
    simp [readFrom, hhigh, hlow, hzero, hunit, pushUnit_of_lt read (by omega : c.toNat < 0xD800)]
  · rename_i hquote hslash _ _ _ _ _ hcontrol
    simp [readFrom, hquote, hslash, hcontrol]

theorem readFrom_quoted {read : Spelled} (hwaiting : read.waiting = none)
    (halone : read.alone = false) (s rest : List Char) :
    readFrom read .plain (s.flatMap escapeChar ++ '"' :: rest) =
      .ok (some (String.ofList (read.chars.reverse ++ s)), rest) := by
  induction s generalizing read with
  | nil => simp [readFrom, Spelled.text?, hwaiting, halone]
  | cons c s ih =>
    have hpushed : (read.push c).alone = false := by simp [Spelled.push, hwaiting, halone]
    rw [List.flatMap_cons, List.append_assoc, readFrom_escapeChar, ih rfl hpushed]
    simp [Spelled.push]

/-- A string is read back, whatever follows it. -/
theorem readQuoted_escape (s : String) (rest : List Char) :
    readQuoted (s.toList.flatMap escapeChar ++ '"' :: rest) = .ok (some s, rest) := by
  rw [readQuoted, readFrom_quoted rfl rfl]
  simp

end Retrace.Json
