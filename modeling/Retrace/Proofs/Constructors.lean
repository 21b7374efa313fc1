import Retrace.Proofs.Sections
import Retrace.Proofs.Words
import Retrace.Tracker

/-! Constructors. A constructor is named by its class alone, or by the class and one of two last
segments, with any blanks around the words. All these spellings are read as one operation of the
class. So a call marker with one of them announces the beginning of the constructor with any other
one, if calls are guessed and constructors are normalised. -/

namespace Retrace

open Text QualifiedSignature

namespace Constructor

/-- What may follow the class in the name of a constructor. -/
def endings : List String :=
  ["", ".<init>", ".new"]

/-- Is the text a spelling of the constructor of a class, with these modifiers and parameters? -/
def Spells (modifiers : List String) (className parameters text : String) : Prop :=
  ∃ ending ∈ endings, ∃ head,
    Spaced (modifiers.map String.toList ++ [className.toList ++ ending.toList]) head ∧
      text.toList = head ++ '(' :: (parameters.toList ++ [')'])

/-- The spelling with a space between words. -/
def spelling (modifiers : List String) (className parameters ending : String) : String :=
  " ".intercalate (modifiers ++ [className ++ ending]) ++ "(" ++ parameters ++ ")"

/-- The constructor of a class as it is read. -/
def operation (modifiers : List String) (className parameters : String) : QualifiedSignature :=
  ⟨className, ⟨.ofList (afterLast '.' className.toList), modifiers, none,
    parameterList parameters.toList⟩⟩

/-- Can the modifiers and the class stand in a head, and is the class not written like a
constructor? -/
structure Plain (modifiers : List String) (className : String) : Prop where
  words : ∀ word ∈ modifiers ++ [className], IsWord word.toList ∧ '(' ∉ word.toList
  notInit : ¬ ".<init>".toList <:+ className.toList
  notNew : ¬ ".new".toList <:+ className.toList

/-! ## The class of a constructor -/

theorem constructorOwner_append {last : List Char}
    (hlast : last = "<init>".toList ∨ last = "new".toList) (owner : List Char) :
    constructorOwner (owner ++ '.' :: last) = owner := by
  have hdot : '.' ∉ last := by rcases hlast with rfl | rfl <;> decide
  rw [constructorOwner, cutLast_append hdot]
  exact if_pos hlast

theorem constructorOwner_eq_self {name : List Char} (hinit : ¬ ".<init>".toList <:+ name)
    (hnew : ¬ ".new".toList <:+ name) : constructorOwner name = name := by
  unfold constructorOwner
  split
  · rename_i owner last hcut
    obtain ⟨_, rfl⟩ := cutLast_eq_some_iff.mp hcut
    refine if_neg ?_
    rintro (rfl | rfl)
    · exact hinit ⟨owner, rfl⟩
    · exact hnew ⟨owner, rfl⟩
  · rfl

section Spells

variable {modifiers : List String} {className parameters ending text other : String}

/-- A class is the owner of its constructors, however they are named. -/
theorem Plain.constructorOwner_ending (h : Plain modifiers className) (hending : ending ∈ endings) :
    constructorOwner (className.toList ++ ending.toList) = className.toList := by
  simp only [endings, List.mem_cons, List.not_mem_nil, or_false] at hending
  rcases hending with rfl | rfl | rfl
  · rw [String.toList_empty, List.append_nil]
    exact constructorOwner_eq_self h.notInit h.notNew
  · exact constructorOwner_append (.inl rfl) className.toList
  · exact constructorOwner_append (.inr rfl) className.toList

/-! ## The head of a constructor -/

theorem Plain.headWords (h : Plain modifiers className) (hending : ending ∈ endings) :
    ∀ word ∈ modifiers.map String.toList ++ [className.toList ++ ending.toList],
      IsWord word ∧ '(' ∉ word := by
  have hplain : ∀ c ∈ ending.toList, isBlank c = false ∧ c ≠ '(' := by
    simp only [endings, List.mem_cons, List.not_mem_nil, or_false] at hending
    have hall : ending.toList.all fun c => !isBlank c && c != '(' := by
      rcases hending with rfl | rfl | rfl <;> decide
    simpa using hall
  obtain ⟨hclass, hunopened⟩ := h.words className (by simp)
  intro word hword
  rcases List.mem_append.mp hword with hword | hword
  · obtain ⟨modifier, hmodifier, rfl⟩ := List.mem_map.mp hword
    exact h.words modifier (List.mem_append_left _ hmodifier)
  · obtain rfl := List.mem_singleton.mp hword
    refine ⟨⟨by simp [hclass.ne_nil], fun c hc => ?_⟩, fun hc => ?_⟩
    · exact (List.mem_append.mp hc).elim (hclass.unbroken c) fun hc => (hplain c hc).1
    · exact (List.mem_append.mp hc).elim hunopened fun hc => (hplain _ hc).2 rfl

theorem Plain.unopened (h : Plain modifiers className) (hending : ending ∈ endings)
    {head : List Char}
    (hspaced : Spaced (modifiers.map String.toList ++ [className.toList ++ ending.toList]) head) :
    '(' ∉ head := by
  intro hmem
  obtain ⟨word, hword, hin⟩ := exists_word_of_mem hmem (by decide)
  rw [hspaced.words_eq] at hword
  exact (h.headWords hending word hword).2 hin

theorem returnTypeAndModifiers_constructor (words : List String) :
    returnTypeAndModifiers true words = (none, words) := by
  unfold returnTypeAndModifiers
  split
  · rename_i hlast
    rw [List.getLast?_eq_none_iff.mp hlast]
  · simp

/-! ## Spellings -/

theorem Plain.spells_spelling (h : Plain modifiers className) (parameters : String)
    (hending : ending ∈ endings) :
    Spells modifiers className parameters (spelling modifiers className parameters ending) := by
  have hspaced : Spaced _ ([' '].intercalate
      (modifiers.map String.toList ++ [className.toList ++ ending.toList])) :=
    words_eq_iff.mp (words_intercalate (by decide) fun word hword =>
      (h.headWords hending word hword).1)
  refine ⟨ending, hending, _, hspaced, ?_⟩
  simp [spelling, String.toList_intercalate]

/-- A spelling is matched if its parameters are on one line. -/
theorem Plain.matches_iff (h : Plain modifiers className)
    (hspells : Spells modifiers className parameters text) :
    Matches text ↔ '\n' ∉ parameters.toList := by
  obtain ⟨ending, hending, head, hspaced, htext⟩ := hspells
  rw [QualifiedSignature.matches_iff, htext,
    sections?_paired (h.unopened hending hspaced) List.not_mem_nil List.not_mem_nil]
  split <;> simp [*]

/-- All spellings are read as one operation. -/
theorem Plain.parse_eq (h : Plain modifiers className)
    (hspells : Spells modifiers className parameters text) (hmatch : Matches text) :
    parse text true = operation modifiers className parameters := by
  have hone := (h.matches_iff hspells).mp hmatch
  obtain ⟨ending, hending, head, hspaced, htext⟩ := hspells
  have hsections : Sectioned text.toList head parameters.toList :=
    htext ▸ .paired (h.unopened hending hspaced) List.not_mem_nil List.not_mem_nil
  rw [parse_of_sectioned hsections, if_neg hone, ofSections_of_words _ _ _ hspaced.words_eq,
    returnTypeAndModifiers_constructor, ownerAndName, if_pos rfl,
    h.constructorOwner_ending hending, operation]
  simp [List.map_map]

end Spells

/-- The three spellings of the constructor of a class, with any blanks, are read as one operation of
the class, whose name is the last segment of it. Whichever of them a call marker has, it announces
the next event if that begins the constructor in any of them. -/
theorem spellings_agree {modifiers : List String} {className : String}
    (h : Plain modifiers className) (parameters : String) :
    (∀ ending ∈ endings,
      Spells modifiers className parameters (spelling modifiers className parameters ending)) ∧
    (∀ text, Spells modifiers className parameters text →
      (Matches text ↔ '\n' ∉ parameters.toList) ∧
      (Matches text → parse text true = operation modifiers className parameters)) ∧
    ∀ text other, Spells modifiers className parameters text →
      Spells modifiers className parameters other → Matches text → Matches other →
      ∀ (m : Matching) (call stamp : Stamp) (caller : OperationRef) (owner : String),
        m.guessCalls → m.normaliseConstructors → stamp.orderIndex = call.orderIndex + 1 →
        (m.announces? (.call .constructor call caller ⟨text, owner⟩) .constructor stamp
          ⟨other, owner⟩).isSome := by
  refine ⟨fun ending => h.spells_spelling parameters,
    fun text htext => ⟨h.matches_iff htext, h.parse_eq htext⟩, ?_⟩
  intro text other htext hother hmatch hmatch' m call stamp caller owner hguess hnormalise hnext
  have hagree : signaturesAgree text owner other owner true := by
    simp [signaturesAgree, h.parse_eq htext hmatch, h.parse_eq hother hmatch']
  simp only [Matching.announces?, hnext, hguess, hnormalise, hagree, ne_eq, not_true, or_self,
    if_false, and_self, decide_true, if_true]
  split <;> rfl

/-- A call of a constructor by one name, and its beginning by another one between other blanks. -/
theorem cart_spellings_agree :
    let spaced := "\tpublic\n shop.Cart.<init>(int, List<T>)"
    parse "public shop.Cart(int, List<T>)" true = operation ["public"] "shop.Cart" "int, List<T>" ∧
      parse spaced true = operation ["public"] "shop.Cart" "int, List<T>" ∧
      (Matching.announces? {} (.call .constructor ⟨3, 1, 7⟩ ⟨"void a.A.run()", "a.A"⟩
        ⟨"public shop.Cart.new(int, List<T>)", "shop.Cart"⟩) .constructor ⟨4, 1, 8⟩
        ⟨spaced, "shop.Cart"⟩).isSome := by
  intro spaced
  have hplain : Plain ["public"] "shop.Cart" :=
    ⟨by decide +kernel, by decide +kernel, by decide +kernel⟩
  have hspaced : Spells ["public"] "shop.Cart" "int, List<T>" spaced :=
    ⟨".<init>", by decide, "\tpublic\n shop.Cart.<init>".toList,
      words_eq_iff.mp (by decide +kernel), by decide +kernel⟩
  obtain ⟨hspelling, hread, hannounced⟩ := spellings_agree hplain "int, List<T>"
  have hclass := hspelling "" (by decide)
  have hnew := hspelling ".new" (by decide)
  have hmatch : ∀ text, Spells ["public"] "shop.Cart" "int, List<T>" text → Matches text :=
    fun text htext => (hread text htext).1.mpr (by decide +kernel)
  refine ⟨?_, ?_, ?_⟩
  · exact (hread _ hclass).2 (hmatch _ hclass)
  · exact (hread _ hspaced).2 (hmatch _ hspaced)
  · exact hannounced _ _ hnew hspaced (hmatch _ hnew) (hmatch _ hspaced) {} _ _ _ _ rfl rfl rfl

end Constructor

end Retrace
