import Retrace.Proofs.Keys
import Retrace.Proofs.Words

/-! Grammar. What the sections of a text say of an operation is told here by relations, one for each
part: which words stand before the qualified name, where that is cut, and which of the words is the
return type. Every head and parameters say one thing, and it is what is read of a text with these
sections as long as the parameters are on one line. -/

namespace Retrace.QualifiedSignature
open Text

/-- The words before the qualified name, and the name, which is empty if there are no words. -/
inductive Headed : List Char → List (List Char) → List Char → Prop
  | named {head name : List Char} {before : List (List Char)} :
      Spaced (before ++ [name]) head → Headed head before name
  | nameless {head : List Char} : Spaced [] head → Headed head [] []

/-- A qualified name is an owner and a name around its last dot, or a name without owner. -/
inductive Qualified : List Char → List Char → List Char → Prop
  | owned {owner name : List Char} : '.' ∉ name → Qualified (owner ++ '.' :: name) owner name
  | plain {name : List Char} : '.' ∉ name → Qualified name [] name

/-- The last word before the name is the return type unless it is a modifier, and the words before
that are modifiers. -/
inductive Declared : List String → Option String → List String → Prop
  | returning {word : String} {modifiers : List String} : word ∉ Signature.modifierWords →
      Declared (modifiers ++ [word]) (some word) modifiers
  | plain {modifiers : List String} : (∀ word ∈ modifiers.getLast?, word ∈ Signature.modifierWords) →
      Declared modifiers none modifiers

/-- The parameters are the trimmed pieces between commas but for the blank ones. -/
def Listed (parameters : List Char) (types : List String) : Prop :=
  types.map String.toList = ((parameters.splitOn ',').map trim).filter (· ≠ [])

/-- Is the operation what its sections say? -/
structure Reads (head parameters : List Char) (q : QualifiedSignature) : Prop where
  named : ∃ before name, Headed head before name ∧
    Qualified name q.owner.toList q.signature.name.toList ∧
    Declared (before.map String.ofList) q.signature.returnType q.signature.modifiers
  listed : Listed parameters q.signature.parameters

section Parts

variable {head name owner last : List Char} {before : List (List Char)}

theorem headed_iff : Headed head before name ↔
    (words head).dropLast = before ∧ (words head).getLast?.getD [] = name := by
  constructor
  · rintro (hspaced | hspaced)
    · rw [hspaced.words_eq]
      simp
    · rw [hspaced.words_eq]
      exact ⟨rfl, rfl⟩
  · rintro ⟨rfl, rfl⟩
    have hspaced := spaced_words head
    rcases List.eq_nil_or_concat (words head) with hnone | ⟨before, name, hwords⟩
    · rw [hnone] at hspaced ⊢
      exact .nameless hspaced
    · rw [hwords, List.concat_eq_append] at hspaced ⊢
      rw [List.dropLast_concat, List.getLast?_concat]
      exact .named hspaced

theorem qualified_iff : Qualified name owner last ↔ ownerAndName false name = (owner, last) := by
  simp only [ownerAndName, Bool.false_eq_true, if_false]
  constructor
  · rintro (hlast | hlast)
    · rw [cutLast_append hlast]
      rfl
    · rw [cutLast_eq_none_iff.mpr hlast]
      rfl
  · intro h
    cases hcut : cutLast '.' name with
    | none =>
      rw [hcut] at h
      obtain ⟨rfl, rfl⟩ := Prod.mk.inj h
      exact .plain (cutLast_eq_none_iff.mp hcut)
    | some cut =>
      rw [hcut] at h
      obtain rfl : cut = (owner, last) := h
      obtain ⟨hlast, rfl⟩ := cutLast_eq_some_iff.mp hcut
      exact .owned hlast

theorem declared_iff {words modifiers : List String} {returnType : Option String} :
    Declared words returnType modifiers ↔
      returnTypeAndModifiers false words = (returnType, modifiers) := by
  constructor
  · rintro (hword | hlast)
    · simp [returnTypeAndModifiers, hword]
    · cases hgot : words.getLast? with
      | none => rw [returnTypeAndModifiers, hgot, List.getLast?_eq_none_iff.mp hgot]
      | some word => simp [returnTypeAndModifiers, hgot, hlast word hgot]
  · intro h
    unfold returnTypeAndModifiers at h
    split at h
    · rename_i hgot
      obtain ⟨rfl, rfl⟩ := Prod.mk.inj h
      rw [List.getLast?_eq_none_iff.mp hgot]
      exact .plain (by simp)
    · rename_i word hgot
      split at h
      · rename_i hword
        obtain ⟨rfl, rfl⟩ := Prod.mk.inj h
        refine .plain fun last hlast => ?_
        rw [← Option.some.inj (hgot.symm.trans hlast)]
        simpa using hword
      · rename_i hword
        obtain ⟨rfl, rfl⟩ := Prod.mk.inj h
        rw [← List.dropLast_append_getLast? word hgot]
        simpa using Declared.returning (by simpa using hword)

theorem listed_iff {parameters : List Char} {types : List String} :
    Listed parameters types ↔ types = parameterList parameters := by
  have hfilter : ((parameters.splitOn ',').map trim).filter (· ≠ []) =
      ((parameters.splitOn ',').map trim).filter (!·.isEmpty) :=
    List.filter_congr fun piece _ => by cases piece <;> rfl
  rw [Listed, parameterList, hfilter]
  constructor
  · intro h
    rw [← h, List.map_map]
    simp
  · rintro rfl
    rw [List.map_map]
    simp

end Parts

/-- Sections say one thing, which is what is read of them. -/
theorem reads_iff {head parameters : List Char} {q : QualifiedSignature} :
    Reads head parameters q ↔ q = ofSections false head parameters := by
  rw [ofSections_parts]
  constructor
  · rintro ⟨⟨before, name, hhead, hname, hdeclared⟩, hlisted⟩
    obtain ⟨rfl, rfl⟩ := headed_iff.mp hhead
    rw [qualified_iff.mp hname, declared_iff.mp hdeclared, ← listed_iff.mp hlisted]
    simp
  · rintro rfl
    refine ⟨⟨_, _, headed_iff.mpr ⟨rfl, rfl⟩, qualified_iff.mpr ?_, declared_iff.mpr rfl⟩,
      listed_iff.mpr rfl⟩
    simp

/-! ## Parameters over a line end -/

section LineEnd

variable {head parameters : List Char}

/-- The opening bracket of parameters that run over a line end stands in a word before the last
one. -/
theorem exists_bracket_before (head tail : List Char) (hline : '\n' ∈ parameters) :
    ∃ word ∈ (words (trim (head ++ '(' :: (parameters ++ ')' :: tail)))).dropLast, '(' ∈ word := by
  obtain ⟨first, second, rfl⟩ := List.append_of_mem hline
  have hsplit : head ++ '(' :: ((first ++ '\n' :: second) ++ ')' :: tail) =
      (head ++ '(' :: first) ++ '\n' :: (second ++ ')' :: tail) := by simp
  obtain ⟨word, hword, hmem⟩ := exists_word_of_mem
    (show '(' ∈ head ++ '(' :: first by simp) (by decide)
  obtain ⟨last, hlast, _⟩ := exists_word_of_mem
    (show ')' ∈ second ++ ')' :: tail by simp) (by decide)
  rw [words_trim, hsplit, words_append_cons (by decide),
    List.dropLast_append_of_ne_nil (List.ne_nil_of_mem hlast)]
  exact ⟨word, List.mem_append_left _ hword, hmem⟩

/-- So what is read then is not what the sections say. -/
theorem not_reads_of_line (hhead : '(' ∉ head) (hline : '\n' ∈ parameters) (tail : List Char) :
    ¬ Reads head parameters
      (ofSections false (trim (head ++ '(' :: (parameters ++ ')' :: tail))) []) := by
  intro hreads
  have hwords := congrArg (·.signature.words) (reads_iff.mp hreads)
  simp only [words_ofSections] at hwords
  obtain ⟨word, hword, hmem⟩ := exists_bracket_before head tail hline
  have hsame : word ∈ (words head).dropLast := by
    have h := List.mem_map_of_mem (f := String.ofList) hword
    rw [hwords] at h
    obtain ⟨w, hw, heq⟩ := List.mem_map.mp h
    rwa [← String.ofList_injective heq]
  exact hhead (mem_of_mem_words (List.dropLast_subset _ hsame) hmem).1

end LineEnd

/-! ## What is read of a text -/

/-- Every text has one head and one text of parameters, and what these say is read of it if and only
if the parameters are on one line. If they run over a line end the whole text is taken for a head,
as if its brackets did not pair up. -/
theorem parse_reads_sections (text : String) :
    ∃ head parameters, (∀ h p, Sectioned text.toList h p ↔ h = head ∧ p = parameters) ∧
      ('\n' ∉ parameters → ∀ q, Reads head parameters q ↔ q = parse text false) ∧
      ('\n' ∈ parameters → ¬ Reads head parameters (parse text false) ∧
        ∀ q, Reads (trim text.toList) [] q ↔ q = parse text false) := by
  obtain ⟨head, parameters, hsections⟩ := exists_sectioned text.toList
  refine ⟨head, parameters, fun h p => ⟨fun h' => h'.unique hsections, ?_⟩, ?_, ?_⟩
  · rintro ⟨rfl, rfl⟩
    exact hsections
  · intro hone q
    rw [parse_of_sectioned hsections, if_neg hone, reads_iff]
  · intro hline
    rw [parse_of_sectioned hsections, if_pos hline]
    refine ⟨?_, fun q => reads_iff⟩
    generalize text.toList = chars at hsections
    cases hsections with
    | bare _ => simp at hline
    | paired hhead _ _ => exact not_reads_of_line hhead hline _
    | unpaired _ _ => simp at hline

/-- A signature with a clause after its parameters. -/
def clauseText : String := "public void a.B.c(int) throws java.io.IOException"

theorem clauseText_sectioned :
    Sectioned clauseText.toList "public void a.B.c".toList "int".toList :=
  @Sectioned.paired "public void a.B.c".toList "int".toList " throws java.io.IOException".toList
    (by decide) (by decide) (by decide)

/-- A signature with its parameters on two lines. -/
def brokenText : String := "void a.A.f(int,\nlong)"

theorem brokenText_sectioned : Sectioned brokenText.toList "void a.A.f".toList "int,\nlong".toList :=
  @Sectioned.paired "void a.A.f".toList "int,\nlong".toList [] (by decide) (by decide) (by decide)

theorem clauseText_read :
    Reads "public void a.B.c".toList "int".toList (parse clauseText false) ∧
      ¬ Reads "void a.A.f".toList "int,\nlong".toList (parse brokenText false) ∧
      Reads (trim brokenText.toList) [] (parse brokenText false) := by
  obtain ⟨head, parameters, hsections, hread, _⟩ := parse_reads_sections clauseText
  obtain ⟨head', parameters', hsections', _, hbroken⟩ := parse_reads_sections brokenText
  obtain ⟨rfl, rfl⟩ := (hsections _ _).mp clauseText_sectioned
  obtain ⟨rfl, rfl⟩ := (hsections' _ _).mp brokenText_sectioned
  obtain ⟨hnot, hbare⟩ := hbroken (by decide)
  exact ⟨(hread (by decide) _).mpr rfl, hnot, (hbare _).mpr rfl⟩

/-- The second line is read as the name of an operation without parameters, and the first one but for
its first word as the return type. -/
theorem parameters_taken_for_name :
    Sectioned brokenText.toList "void a.A.f".toList "int,\nlong".toList ∧
      Reads "void a.A.f".toList "int,\nlong".toList
        ⟨"a.A", ⟨"f", [], some "void", ["int", "long"]⟩⟩ ∧
      parse brokenText false = ⟨"", ⟨"long)", ["void"], some "a.A.f(int,", []⟩⟩ := by
  refine ⟨brokenText_sectioned, reads_iff.mpr ?_, ?_⟩
  · decide +kernel
  · decide +kernel

end Retrace.QualifiedSignature
