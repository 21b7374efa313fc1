import Retrace.Proofs.Keys
import Retrace.Proofs.Words

/-! Normal forms. The signature that is read of a text with brackets in order has words without
blanks and opening brackets, a name without dots, and trimmed parameters without commas on one line.
Such a signature is read back from what is rendered for it. So what is rendered for a signature that
was read is a normal form: it is read as the same signature and rendered as it is. -/

namespace Retrace

open Text QualifiedSignature

/-- Does the signature survive being rendered and read? -/
structure Signature.Normal (isConstructor : Bool) (s : Signature) : Prop extends s.Tidy where
  isWord : ∀ w ∈ s.words ++ [s.name], IsWord w.toList
  undotted : '.' ∉ s.name.toList
  declared : returnTypeAndModifiers isConstructor s.words = (s.returnType, s.modifiers)
  oneLine : ∀ p ∈ s.parameters, '\n' ∉ p.toList

namespace QualifiedSignature

variable {isConstructor : Bool} {text : String} {name : List Char}

theorem not_mem_afterLast {sep : Char} {text : List Char} : sep ∉ afterLast sep text := by
  unfold afterLast
  split
  · rename_i hcut
    exact (cutLast_eq_some_iff.mp hcut).1
  · rename_i hcut
    exact cutLast_eq_none_iff.mp hcut

/-- The name of an operation has no dot. -/
theorem dot_not_mem_name : '.' ∉ (ownerAndName isConstructor name).2 := by
  cases isConstructor with
  | true => exact not_mem_afterLast
  | false =>
    simp only [ownerAndName, Bool.false_eq_true, if_false]
    cases hcut : cutLast '.' name with
    | none => exact cutLast_eq_none_iff.mp hcut
    | some cut => exact (cutLast_eq_some_iff.mp hcut).1

theorem ownerAndName_undotted (h : '.' ∉ name) :
    ownerAndName isConstructor name = (if isConstructor then name else [], name) := by
  have hcut := cutLast_eq_none_iff.mpr h
  cases isConstructor <;> simp [ownerAndName, constructorOwner, afterLast, hcut]

/-- The words of a signature that was read, and its name if it has one, are words. -/
theorem isWord_of_ofSections {head parameters : List Char} {w : String}
    (hname : (ofSections isConstructor head parameters).signature.name ≠ "")
    (hw : w ∈ (ofSections isConstructor head parameters).signature.words ++
      [(ofSections isConstructor head parameters).signature.name]) : IsWord w.toList := by
  have hwords : ∀ word ∈ words head, IsWord word := (spaced_words head).isWord
  rcases List.mem_append.mp hw with hw | hw
  · rw [words_ofSections] at hw
    obtain ⟨word, hword, rfl⟩ := List.mem_map.mp hw
    rw [String.toList_ofList]
    exact hwords word (List.dropLast_subset _ hword)
  · obtain rfl := List.mem_singleton.mp hw
    refine ⟨fun hnil => hname (String.toList_eq_nil_iff.mp hnil), fun c hc => ?_⟩
    obtain ⟨word, hword, hin⟩ := exists_word_of_mem_name hc
    exact (hwords word hword).unbroken c hin

/-- What is read of a matched text is normal if it has a name. -/
theorem normal_parse (h : Matches text) (hname : (parse text isConstructor).signature.name ≠ "") :
    (parse text isConstructor).signature.Normal isConstructor := by
  have htidy := tidy_parse (matches_iff.mp h) isConstructor
  obtain ⟨head, parameters, _, hone, hparse⟩ := Matches.exists_sections h
  rw [hparse isConstructor] at hname htidy ⊢
  refine { htidy with
    isWord := fun w => isWord_of_ofSections hname
    undotted := ?undotted
    declared := ?declared
    oneLine := ?oneLine }
  case undotted =>
    rw [ofSections_parts, String.toList_ofList]
    exact dot_not_mem_name
  case declared =>
    rw [words_ofSections, ofSections_parts]
  case oneLine =>
    intro p hp hline
    obtain ⟨piece, hpiece, heq, _⟩ := exists_piece_of_mem_parameters hp
    rw [heq] at hline
    exact hone (mem_of_mem_splitOnP hpiece (mem_of_mem_trim hline)).1

end QualifiedSignature

namespace Signature.Normal

variable {isConstructor : Bool} {s : Signature}

/-- The sections of what is rendered are the words with the name, and the parameters. -/
theorem sectioned_render (h : s.Normal isConstructor) : Sectioned s.render.toList
    ([' '].intercalate ((s.words ++ [s.name]).map String.toList))
    ([',', ' '].intercalate (s.parameters.map String.toList)) := by
  rw [toList_render]
  exact .paired h.unopened List.not_mem_nil List.not_mem_nil

theorem oneLine_render (h : s.Normal isConstructor) :
    '\n' ∉ [',', ' '].intercalate (s.parameters.map String.toList) := by
  intro hline
  obtain hsep | ⟨piece, hpiece, hin⟩ := mem_of_mem_intercalate hline
  · simp at hsep
  · obtain ⟨p, hp, rfl⟩ := List.mem_map.mp hpiece
    exact h.oneLine p hp hin

/-- A normal signature is read back from what is rendered for it. -/
theorem parse_render (h : s.Normal isConstructor) :
    parse s.render isConstructor = ⟨if isConstructor then s.name else "", s⟩ := by
  have hwords : Text.words ([' '].intercalate ((s.words ++ [s.name]).map String.toList)) =
      s.words.map String.toList ++ [s.name.toList] := by
    rw [words_intercalate (by decide), List.map_append, List.map_singleton]
    intro word hword
    obtain ⟨w, hw, rfl⟩ := List.mem_map.mp hword
    exact h.isWord w hw
  have hback : (s.words.map String.toList).map String.ofList = s.words := by
    rw [List.map_map]
    simp
  rw [parse_of_sectioned h.sectioned_render, if_neg h.oneLine_render,
    ofSections_of_words _ _ _ hwords, ownerAndName_undotted h.undotted, hback, h.declared,
    h.toTidy.parameterList_intercalate]
  cases isConstructor <;> simp

theorem matches_render (h : s.Normal isConstructor) : Matches s.render := by
  rw [matches_iff, toList_render, sections?_paired h.unopened List.not_mem_nil List.not_mem_nil,
    if_neg h.oneLine_render]
  rfl

end Signature.Normal

namespace QualifiedSignature

/-- The normal signatures are just those that are read of matched texts and have a name. -/
theorem normal_iff {isConstructor : Bool} {s : Signature} : s.Normal isConstructor ↔
    s.name ≠ "" ∧ ∃ text, Matches text ∧ (parse text isConstructor).signature = s := by
  constructor
  · intro h
    refine ⟨fun hname => (h.isWord s.name (by simp)).ne_nil (by rw [hname]; rfl), s.render,
      h.matches_render, by rw [h.parse_render]⟩
  · rintro ⟨hname, text, hmatch, rfl⟩
    exact normal_parse hmatch hname

/-- What is rendered for a signature with a name that was read of a matched text is matched in its
turn and read as the same signature. No other signature that was read in the same way is rendered
like it. -/
theorem rendered_read_back (text : String) (isConstructor : Bool) (h : Matches text)
    (hname : (parse text isConstructor).signature.name ≠ "") :
    let s := (parse text isConstructor).signature
    Matches s.render ∧ (parse s.render isConstructor).signature = s ∧
      ∀ other, Matches other → (parse other isConstructor).signature.render = s.render →
        (parse other isConstructor).signature = s := by
  intro s
  have hnormal : s.Normal isConstructor := normal_parse h hname
  refine ⟨hnormal.matches_render, by rw [hnormal.parse_render], fun other hother hrender => ?_⟩
  obtain ⟨hsame, hwords, hparameters⟩ :=
    (tidy_parse (matches_iff.mp hother) isConstructor).render_inj hnormal.toTidy hrender
  exact signature_parse_inj hsame hwords hparameters

/-- Odd blanks, words that are no modifiers, a bracket in the name and brackets and empty pieces among
the parameters. -/
def oddText : String := "strictfp\u00a0x)y  T[]\n a.B.c)d(f(int), ,\tlong [] ) throws E"

theorem oddText_read_back :
    let s : Signature := ⟨"c)d", ["strictfp", "x)y"], some "T[]", ["f(int)", "long []"]⟩
    s.render = "strictfp x)y T[] c)d(f(int), long [])" ∧ (parse oddText false).signature = s ∧
      (parse s.render false).signature = s := by
  have hread : (parse oddText false).signature =
      ⟨"c)d", ["strictfp", "x)y"], some "T[]", ["f(int)", "long []"]⟩ := by decide +kernel
  obtain ⟨_, hback, _⟩ := rendered_read_back oddText false (by decide +kernel) (by decide +kernel)
  rw [hread] at hback
  exact ⟨by decide +kernel, hread, hback⟩

end QualifiedSignature

end Retrace
