import Retrace.Proofs.Cuts
import Retrace.Signature
import Retrace.Text.Pattern

/-! Sections. A signature is read by a pattern with a head before the first opening bracket,
parameters on one line up to the last closing one, and no bracket after that. Cutting the text at
these brackets comes to the same. Which brackets they are, and what they leave, can be said of every
text: `Sectioned` is told by the text alone and does not mind line ends, so it differs from what is
read just where parameters run over one. -/

namespace Retrace.QualifiedSignature
open Text

/-- The pattern of a signature, `^(?P<head>[^(]*)(?:\((?P<params>.*)\))?[^()]*$`. -/
def pattern : Pattern :=
  .andThen (.capture "head" (.many (· != '('))) <|
    .andThen
      (.perhaps (.andThen (.one (· == '('))
        (.andThen (.capture "params" (.many (· != '\n'))) (.one (· == ')')))))
      (.many fun c => c != '(' && c != ')')

def isBracket (c : Char) : Bool :=
  c == '(' || c == ')'

/-- The head and the parameters of a text. A text whose last bracket is not the end of its
parameters is a head as a whole. -/
inductive Sectioned : List Char → List Char → List Char → Prop
  | bare {text : List Char} : '(' ∉ text → Sectioned text text []
  | paired {head parameters tail : List Char} : '(' ∉ head → '(' ∉ tail → ')' ∉ tail →
      Sectioned (head ++ '(' :: (parameters ++ ')' :: tail)) head parameters
  | unpaired {text : List Char} : '(' ∈ text → (text.filter isBracket).getLast? ≠ some ')' →
      Sectioned text (trim text) []

section Sectioned

variable {text head parameters tail : List Char}

theorem getLast?_brackets_paired (hopen : '(' ∉ tail) (hclose : ')' ∉ tail) :
    ((head ++ '(' :: (parameters ++ ')' :: tail)).filter isBracket).getLast? = some ')' := by
  have htail : tail.filter isBracket = [] := by
    refine List.filter_eq_nil_iff.mpr fun c hc => ?_
    simp only [isBracket, Bool.or_eq_true, beq_iff_eq]
    rintro (rfl | rfl)
    · exact hopen hc
    · exact hclose hc
  simp [List.filter_append, isBracket, htail, List.getLast?_cons]

theorem getLast?_brackets_unpaired (head : List Char) (hopen : '(' ∈ tail) (hclose : ')' ∉ tail) :
    ((head ++ tail).filter isBracket).getLast? = some '(' := by
  have hmem : '(' ∈ tail.filter isBracket := List.mem_filter.mpr ⟨hopen, rfl⟩
  have hone : ∀ c ∈ tail.filter isBracket, c = '(' := by
    intro c hc
    obtain ⟨hin, hbracket⟩ := List.mem_filter.mp hc
    simp only [isBracket, Bool.or_eq_true, beq_iff_eq] at hbracket
    exact hbracket.resolve_right fun hc => hclose (hc ▸ hin)
  obtain ⟨c, hlast⟩ := Option.ne_none_iff_exists'.mp
    (List.getLast?_eq_none_iff.not.mpr (List.ne_nil_of_mem hmem))
  rw [List.filter_append, List.getLast?_append, hlast, hone c (List.mem_of_getLast? hlast)]
  rfl

/-- The brackets that pair up are the only ones that do. -/
theorem paired_inj {head' parameters' tail' : List Char} (hhead : '(' ∉ head) (htail : ')' ∉ tail)
    (hhead' : '(' ∉ head') (htail' : ')' ∉ tail')
    (h : head ++ '(' :: (parameters ++ ')' :: tail) =
      head' ++ '(' :: (parameters' ++ ')' :: tail')) :
    head = head' ∧ parameters = parameters' := by
  obtain ⟨rfl, hrest⟩ := append_cons_inj hhead hhead' h
  have hcut := cutLast_append htail parameters
  rw [hrest, cutLast_append htail'] at hcut
  exact ⟨rfl, (Prod.mk.inj (Option.some.inj hcut)).1.symm⟩

/-- Every text has sections. -/
theorem exists_sectioned (text : List Char) : ∃ head parameters, Sectioned text head parameters := by
  cases hfirst : cutFirst '(' text with
  | none => exact ⟨_, _, .bare (cutFirst_eq_none_iff.mp hfirst)⟩
  | some cut =>
    obtain ⟨head, rest⟩ := cut
    obtain ⟨hhead, rfl⟩ := cutFirst_eq_some_iff.mp hfirst
    have hopen : '(' ∈ head ++ '(' :: rest := by simp
    cases hlast : cutLast ')' rest with
    | none =>
      have hclose : ')' ∉ '(' :: rest := by simpa using cutLast_eq_none_iff.mp hlast
      refine ⟨_, _, .unpaired hopen ?_⟩
      rw [getLast?_brackets_unpaired head List.mem_cons_self hclose]
      decide
    | some cut =>
      obtain ⟨parameters, tail⟩ := cut
      obtain ⟨hclose, rfl⟩ := cutLast_eq_some_iff.mp hlast
      by_cases htail : '(' ∈ tail
      · refine ⟨_, _, .unpaired hopen ?_⟩
        rw [show head ++ '(' :: (parameters ++ ')' :: tail) =
          head ++ '(' :: (parameters ++ [')']) ++ tail by simp,
          getLast?_brackets_unpaired _ htail hclose]
        decide
      · exact ⟨_, _, .paired hhead htail hclose⟩

/-- A text has its sections in one way only. -/
theorem Sectioned.unique {head' parameters' : List Char} (h : Sectioned text head parameters)
    (h' : Sectioned text head' parameters') : head = head' ∧ parameters = parameters' := by
  cases h with
  | bare hnone =>
    cases h' with
    | bare _ => exact ⟨rfl, rfl⟩
    | paired _ _ _ => simp at hnone
    | unpaired hopen _ => exact absurd hopen hnone
  | @paired _ _ tail hhead hopen hclose =>
    generalize htext : head ++ '(' :: (parameters ++ ')' :: tail) = text at h'
    cases h' with
    | bare hnone => simp [← htext] at hnone
    | paired hhead' _ hclose' => exact paired_inj hhead hclose hhead' hclose' htext
    | unpaired _ hlast => exact absurd (htext ▸ getLast?_brackets_paired hopen hclose) hlast
  | unpaired hopen hlast =>
    cases h' with
    | bare hnone => exact absurd hopen hnone
    | paired _ hopen' hclose' => exact absurd (getLast?_brackets_paired hopen' hclose') hlast
    | unpaired _ _ => exact ⟨rfl, rfl⟩

end Sectioned

/-! ## Cutting at the brackets -/

section Cutting

variable {text head parameters tail : List Char}

theorem sections?_bare (h : '(' ∉ text) : sections? text = some (text, []) := by
  rw [sections?, cutFirst_eq_none_iff.mpr h]

theorem sections?_paired (hhead : '(' ∉ head) (hopen : '(' ∉ tail) (hclose : ')' ∉ tail) :
    sections? (head ++ '(' :: (parameters ++ ')' :: tail)) =
      if '\n' ∈ parameters then none else some (head, parameters) := by
  simp only [sections?, cutFirst_append hhead, cutLast_append hclose, hopen, false_or]

theorem sections?_unpaired (hopen : '(' ∈ text)
    (hlast : (text.filter isBracket).getLast? ≠ some ')') : sections? text = none := by
  unfold sections?
  split
  · rename_i hcut
    exact absurd hopen (cutFirst_eq_none_iff.mp hcut)
  · rename_i head rest hcut
    obtain ⟨hhead, rfl⟩ := cutFirst_eq_some_iff.mp hcut
    split
    · rfl
    · rename_i parameters tail hcut
      obtain ⟨hclose, rfl⟩ := cutLast_eq_some_iff.mp hcut
      refine if_pos (.inl ?_)
      by_contra htail
      exact hlast (getLast?_brackets_paired htail hclose)

/-- What is read of a text are its sections. A text whose parameters run over a line end is read as
a head, like one whose brackets do not pair up. -/
theorem parse_of_sectioned {text : String} (h : Sectioned text.toList head parameters)
    (isConstructor : Bool) :
    parse text isConstructor =
      if '\n' ∈ parameters then ofSections isConstructor (trim text.toList) []
      else ofSections isConstructor head parameters := by
  unfold parse
  generalize text.toList = chars at h ⊢
  cases h with
  | bare hnone => rw [sections?_bare hnone, if_neg List.not_mem_nil]
  | paired hhead hopen hclose =>
    rw [sections?_paired hhead hopen hclose]
    by_cases hline : '\n' ∈ parameters
    · rw [if_pos hline, if_pos hline]
    · rw [if_neg hline, if_neg hline]
  | unpaired hopen hlast => rw [sections?_unpaired hopen hlast, if_neg List.not_mem_nil]

end Cutting

/-! ## What is read of sections -/

section Parts

variable (isConstructor : Bool) (head parameters : List Char)

theorem ofSections_parts : ofSections isConstructor head parameters =
    let named := ownerAndName isConstructor ((words head).getLast?.getD [])
    let declared := returnTypeAndModifiers isConstructor ((words head).dropLast.map String.ofList)
    ⟨.ofList named.1, ⟨.ofList named.2, declared.2, declared.1, parameterList parameters⟩⟩ := by
  have hname : (((words head).map String.ofList).getLast?.getD "").toList =
      (words head).getLast?.getD [] := by
    rw [List.getLast?_map]
    cases (words head).getLast? <;> simp
  rw [← hname, List.map_dropLast]
  rfl

theorem ofSections_of_words {before : List (List Char)} {name : List Char}
    (h : words head = before ++ [name]) : ofSections isConstructor head parameters =
      let named := ownerAndName isConstructor name
      let declared := returnTypeAndModifiers isConstructor (before.map String.ofList)
      ⟨.ofList named.1, ⟨.ofList named.2, declared.2, declared.1, parameterList parameters⟩⟩ := by
  rw [ofSections_parts, h, List.getLast?_concat, List.dropLast_concat]
  rfl

end Parts

/-! ## Matching the pattern -/

section Matching

variable {text head parameters tail : List Char} {captured : Pattern.Captures}

theorem forall_bne_iff {d : Char} : (∀ c ∈ text, (c != d) = true) ↔ d ∉ text := by
  simp only [bne_iff_ne]
  exact ⟨fun h hd => h d hd rfl, fun h c hc hcd => h (hcd ▸ hc)⟩

/-- The pattern accepts a head and a text without brackets, and maybe parameters between them. -/
theorem accepts_pattern_iff : pattern.Accepts text captured ↔
    ∃ head tail, '(' ∉ head ∧ '(' ∉ tail ∧ ')' ∉ tail ∧
      (text = head ++ tail ∧ captured = [("head", head)] ∨
        ∃ parameters, '\n' ∉ parameters ∧ text = head ++ '(' :: (parameters ++ ')' :: tail) ∧
          captured = [("head", head), ("params", parameters)]) := by
  simp only [pattern, Pattern.Accepts, Bool.and_eq_true, forall_and, forall_bne_iff, beq_iff_eq]
  constructor
  · rintro ⟨head, after, _, _, rfl, rfl, ⟨_, rfl, hhead, rfl⟩, middle, tail, _, _, rfl, rfl, hmiddle,
      ⟨hopen, hclose⟩, rfl⟩
    refine ⟨head, tail, hhead, hopen, hclose, ?_⟩
    rcases hmiddle with ⟨_, _, _, _, rfl, rfl, ⟨_, rfl, rfl, rfl⟩, parameters, _, _, _, rfl, rfl,
      ⟨_, rfl, hline, rfl⟩, _, rfl, rfl, rfl⟩ | ⟨rfl, rfl⟩
    · exact .inr ⟨parameters, hline, by simp, rfl⟩
    · exact .inl ⟨rfl, rfl⟩
  · rintro ⟨head, tail, hhead, hopen, hclose, ⟨rfl, rfl⟩ | ⟨parameters, hline, rfl, rfl⟩⟩
    · exact ⟨head, tail, _, [], rfl, rfl, ⟨[], rfl, hhead, rfl⟩, [], tail, [], [], rfl, rfl,
        .inr ⟨rfl, rfl⟩, ⟨hopen, hclose⟩, rfl⟩
    · refine ⟨head, _, _, [("params", parameters)], rfl, rfl, ⟨[], rfl, hhead, rfl⟩,
        '(' :: (parameters ++ [')']), tail, [("params", parameters)], [], by simp, rfl, .inl ?_,
        ⟨hopen, hclose⟩, rfl⟩
      exact ⟨['('], _, [], _, rfl, rfl, ⟨_, rfl, rfl, rfl⟩, parameters, [')'], _, [], rfl, rfl,
        ⟨[], rfl, hline, rfl⟩, _, rfl, rfl, rfl⟩

theorem captures?_bare (h : '(' ∉ text) : pattern.captures? text = some [("head", text)] := by
  obtain ⟨shorter, hruns⟩ := Pattern.runs_of_forall (forall_bne_iff.mpr h)
  simp [Pattern.captures?, pattern, Pattern.ways, hruns, Pattern.runs]

/-- A text whose brackets pair up is matched in one way only. -/
theorem captures?_paired (hhead : '(' ∉ head) (hopen : '(' ∉ tail) (hclose : ')' ∉ tail) :
    pattern.captures? (head ++ '(' :: (parameters ++ ')' :: tail)) =
      if '\n' ∈ parameters then none
      else some [("head", head), ("params", parameters)] := by
  have hcaptured : ∀ captured,
      pattern.Accepts (head ++ '(' :: (parameters ++ ')' :: tail)) captured →
        '\n' ∉ parameters ∧ captured = [("head", head), ("params", parameters)] := by
    intro captured haccepts
    obtain ⟨head', tail', hhead', hopen', hclose', ⟨htext, _⟩ | ⟨parameters', hline, htext, rfl⟩⟩ :=
      accepts_pattern_iff.mp haccepts
    · have hmem : '(' ∈ head' ++ tail' := htext ▸ by simp
      exact absurd hmem (by simp [hhead', hopen'])
    · obtain ⟨rfl, rfl⟩ := paired_inj hhead hclose hhead' hclose' htext
      exact ⟨hline, rfl⟩
  by_cases hline : '\n' ∈ parameters
  · rw [if_pos hline, ← Option.not_isSome_iff_eq_none, Pattern.isSome_captures?_iff]
    rintro ⟨captured, haccepts⟩
    exact (hcaptured captured haccepts).1 hline
  · have hsome : (pattern.captures? (head ++ '(' :: (parameters ++ ')' :: tail))).isSome :=
      Pattern.isSome_captures?_iff.mpr ⟨_, accepts_pattern_iff.mpr
        ⟨head, tail, hhead, hopen, hclose, .inr ⟨parameters, hline, rfl, rfl⟩⟩⟩
    obtain ⟨captured, hmatch⟩ := Option.isSome_iff_exists.mp hsome
    rw [if_neg hline, hmatch, (hcaptured captured (Pattern.accepts_of_captures? hmatch)).2]

theorem captures?_unpaired (hopen : '(' ∈ text)
    (hlast : (text.filter isBracket).getLast? ≠ some ')') : pattern.captures? text = none := by
  rw [← Option.not_isSome_iff_eq_none, Pattern.isSome_captures?_iff]
  rintro ⟨captured, haccepts⟩
  obtain ⟨head, tail, hhead, htail, hclose, ⟨rfl, _⟩ | ⟨parameters, _, rfl, _⟩⟩ :=
    accepts_pattern_iff.mp haccepts
  · exact absurd hopen (by simp [hhead, htail])
  · exact hlast (getLast?_brackets_paired htail hclose)

/-- Cutting at the brackets finds what the pattern captures; what is not captured is empty. -/
theorem sections?_eq_captured (text : List Char) :
    sections? text = (pattern.captures? text).map fun captured =>
      ((captured.lookup "head").getD [], (captured.lookup "params").getD []) := by
  obtain ⟨head, parameters, h⟩ := exists_sectioned text
  cases h with
  | bare hnone =>
    rw [sections?_bare hnone, captures?_bare hnone]
    rfl
  | paired hhead hopen hclose =>
    rw [sections?_paired hhead hopen hclose, captures?_paired hhead hopen hclose]
    split <;> rfl
  | unpaired hopen hlast =>
    rw [sections?_unpaired hopen hlast, captures?_unpaired hopen hlast]
    rfl

end Matching

/-- Is the text matched by the pattern of a signature? -/
def Matches (text : String) : Prop :=
  (pattern.captures? text.toList).isSome

instance (text : String) : Decidable (Matches text) :=
  inferInstanceAs (Decidable (_ = true))

theorem matches_iff {text : String} : Matches text ↔ (sections? text.toList).isSome := by
  rw [Matches, sections?_eq_captured, Option.isSome_map]

/-- A text that is matched is read by its sections. -/
theorem Matches.exists_sections {text : String} (h : Matches text) :
    ∃ head parameters, '(' ∉ head ∧ '\n' ∉ parameters ∧
      ∀ isConstructor, parse text isConstructor = ofSections isConstructor head parameters := by
  have hmatch := matches_iff.mp h
  obtain ⟨head, parameters, hsections⟩ := exists_sectioned text.toList
  have hparse := parse_of_sectioned hsections
  generalize text.toList = chars at hmatch hsections hparse
  cases hsections with
  | bare hnone =>
    exact ⟨_, _, hnone, List.not_mem_nil, fun c => by rw [hparse c, if_neg List.not_mem_nil]⟩
  | paired hhead hopen hclose =>
    have hone : '\n' ∉ parameters := by
      intro hline
      rw [sections?_paired hhead hopen hclose, if_pos hline] at hmatch
      cases hmatch
    exact ⟨head, parameters, hhead, hone, fun c => by rw [hparse c, if_neg hone]⟩
  | unpaired hopen hlast =>
    rw [sections?_unpaired hopen hlast] at hmatch
    cases hmatch

end Retrace.QualifiedSignature
