import Retrace.Proofs.Cuts

/-! Words. The words of a text are what is left when the blanks are taken out, whatever blanks there
are: a text has just the words that it is made of with blanks before, between and after them. -/

namespace Retrace.Text

/-- A text that is not empty and has no blank. -/
structure IsWord (word : List Char) : Prop where
  ne_nil : word ≠ []
  unbroken : ∀ c ∈ word, isBlank c = false

instance (word : List Char) : Decidable (IsWord word) :=
  decidable_of_iff (word ≠ [] ∧ word.all (!isBlank ·))
    ⟨fun ⟨hne, hblank⟩ => ⟨hne, by simpa using hblank⟩,
      fun h => ⟨h.ne_nil, by simpa using h.unbroken⟩⟩

/-- Is the text made of these words, with blanks before, between and after them? -/
inductive Spaced : List (List Char) → List Char → Prop
  | blank {gap : List Char} : (∀ c ∈ gap, isBlank c) → Spaced [] gap
  | word {gap word rest : List Char} {more : List (List Char)} : (∀ c ∈ gap, isBlank c) →
      IsWord word → (∀ c ∈ rest.head?, isBlank c) → Spaced more rest →
      Spaced (word :: more) (gap ++ (word ++ rest))

section Words

variable {text gap word rest : List Char} {c : Char} {more : List (List Char)}

/-- Words end at a blank. -/
theorem words_append_cons (hc : isBlank c) (before after : List Char) :
    words (before ++ c :: after) = words before ++ words after := by
  rw [words, List.splitOnP_append_cons before after hc, List.filter_append]
  rfl

theorem words_cons_of_isBlank (hc : isBlank c) (text : List Char) : words (c :: text) = words text :=
  words_append_cons hc [] text

theorem words_blank_append (hgap : ∀ c ∈ gap, isBlank c) (text : List Char) :
    words (gap ++ text) = words text := by
  induction gap with
  | nil => rfl
  | cons c gap ih =>
    obtain ⟨hc, hgap⟩ := List.forall_mem_cons.mp hgap
    rw [List.cons_append, words_cons_of_isBlank hc, ih hgap]

theorem words_of_blank (hgap : ∀ c ∈ gap, isBlank c) : words gap = [] := by
  have hnone := words_blank_append hgap []
  rwa [List.append_nil] at hnone

theorem words_append_blank (hgap : ∀ c ∈ gap, isBlank c) (text : List Char) :
    words (text ++ gap) = words text := by
  cases gap with
  | nil => rw [List.append_nil]
  | cons c gap =>
    obtain ⟨hc, hgap⟩ := List.forall_mem_cons.mp hgap
    rw [words_append_cons hc, words_of_blank hgap, List.append_nil]

theorem IsWord.words_eq (h : IsWord word) : words word = [word] := by
  rw [words, List.splitOnP_eq_singleton h.unbroken]
  simp [h.ne_nil]

theorem Spaced.words_eq {ws : List (List Char)} (h : Spaced ws text) : words text = ws := by
  induction h with
  | blank hgap => exact words_of_blank hgap
  | @word gap word rest more hgap hword hrest _ ih =>
    rw [words_blank_append hgap]
    cases rest with
    | nil => rw [← ih, List.append_nil, hword.words_eq]; rfl
    | cons c rest =>
      have hc : isBlank c := hrest c rfl
      rw [words_append_cons hc, hword.words_eq, ← ih, words_cons_of_isBlank hc]
      rfl

/-- A character before a text is one more blank, or it belongs to the first word or is one. -/
theorem Spaced.cons {ws : List (List Char)} (h : Spaced ws text) (c : Char) :
    ∃ ws, Spaced ws (c :: text) := by
  by_cases hc : isBlank c
  · cases h with
    | blank hgap => exact ⟨[], .blank (List.forall_mem_cons.mpr ⟨hc, hgap⟩)⟩
    | word hgap hword hrest hmore =>
      exact ⟨_, .word (List.forall_mem_cons.mpr ⟨hc, hgap⟩) hword hrest hmore⟩
  · have hone : IsWord [c] := ⟨by simp, by simpa using hc⟩
    have hapart : (∀ d ∈ text.head?, isBlank d) → ∃ ws, Spaced ws (c :: text) := fun hhead =>
      ⟨[c] :: ws, @Spaced.word [] _ _ _ (by simp) hone hhead h⟩
    cases h with
    | blank hgap =>
      refine hapart fun d hd => hgap d ?_
      exact List.mem_of_mem_head? hd
    | @word gap word rest more hgap hword hrest hmore =>
      cases gap with
      | cons d gap => exact hapart fun e he => by simpa [← Option.some.inj he] using hgap d (by simp)
      | nil =>
        have hlonger : IsWord (c :: word) :=
          ⟨by simp, List.forall_mem_cons.mpr ⟨by simpa using hc, hword.unbroken⟩⟩
        exact ⟨_, @Spaced.word [] _ _ _ (by simp) hlonger hrest hmore⟩

theorem spaced_words (text : List Char) : Spaced (words text) text := by
  have hsome : ∃ ws, Spaced ws text := by
    induction text with
    | nil => exact ⟨[], .blank (by simp)⟩
    | cons c text ih =>
      obtain ⟨ws, hws⟩ := ih
      exact hws.cons c
  obtain ⟨ws, hws⟩ := hsome
  rwa [hws.words_eq]

/-- A text has the words that it is made of. -/
theorem words_eq_iff {ws : List (List Char)} : words text = ws ↔ Spaced ws text :=
  ⟨fun h => h ▸ spaced_words text, Spaced.words_eq⟩

theorem Spaced.isWord {ws : List (List Char)} (h : Spaced ws text) : ∀ word ∈ ws, IsWord word := by
  induction h with
  | blank _ => simp
  | word _ hword _ _ ih => exact List.forall_mem_cons.mpr ⟨hword, ih⟩

/-- A character that is not blank stands in a word. -/
theorem exists_word_of_mem (hmem : c ∈ text) (hc : isBlank c = false) :
    ∃ word ∈ words text, c ∈ word := by
  have hspaced := spaced_words text
  generalize words text = ws at hspaced ⊢
  induction hspaced with
  | blank hgap => simp [hgap c hmem] at hc
  | @word gap word rest more hgap _ _ _ ih =>
    rcases List.mem_append.mp hmem with hgapped | hmem
    · simp [hgap c hgapped] at hc
    · rcases List.mem_append.mp hmem with hword | hrest
      · exact ⟨word, List.mem_cons_self, hword⟩
      · obtain ⟨later, hlater, hin⟩ := ih hrest
        exact ⟨later, List.mem_cons_of_mem word hlater, hin⟩

theorem words_trim (text : List Char) : words (trim text) = words text := by
  have hblank : ∀ text : List Char, ∀ c ∈ text.takeWhile isBlank, isBlank c := fun _ =>
    List.all_eq_true.mp List.all_takeWhile
  have hstart : words (trimStart text) = words text := by
    conv_rhs => rw [← List.takeWhile_append_dropWhile (p := isBlank) (l := text)]
    exact (words_blank_append (hblank text) _).symm
  have hend : ∀ text, words (trimEnd text) = words text := by
    intro text
    have hsplit : trimEnd text ++ (text.reverse.takeWhile isBlank).reverse = text := by
      rw [trimEnd, ← List.reverse_append, List.takeWhile_append_dropWhile, List.reverse_reverse]
    conv_rhs => rw [← hsplit]
    exact (words_append_blank (fun c hc => hblank _ c (List.mem_reverse.mp hc)) _).symm
  rw [trim, hend, hstart]

/-- Words that are joined by blanks are read back. -/
theorem words_intercalate {ws : List (List Char)} (hc : isBlank c) (h : ∀ word ∈ ws, IsWord word) :
    words ([c].intercalate ws) = ws := by
  induction ws with
  | nil => rfl
  | cons word more ih =>
    obtain ⟨hword, hmore⟩ := List.forall_mem_cons.mp h
    cases more with
    | nil => rw [List.intercalate_singleton, hword.words_eq]
    | cons next more =>
      rw [List.intercalate_cons_cons, List.append_assoc, List.singleton_append,
        words_append_cons hc, hword.words_eq, ih hmore]
      rfl

end Words

end Retrace.Text
