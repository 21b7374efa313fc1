import Retrace.Proofs.Requests
import Retrace.Proofs.Sections

/-! Keys. Deployments and operations are interned by texts that are put together from free text, and
two that are not the same may be written alike. A host and a context are written like others if and
only if the separator is found at another place. A class and a signature can be told from what is
written if the text that they were read from is legible; that a word is a return type and not a
modifier cannot, as it depends on whether the text was read as that of a constructor. -/

namespace Retrace

/-! ## Hosts and contexts -/

/-- Is the second place what is read of the first one if its host is taken to go on over the
separator, up to a later one or by a colon? -/
def Shifted (p q : String × String) : Prop :=
  (∃ part, q.1 = p.1 ++ "::" ++ part ∧ p.2 = part ++ "::" ++ q.2) ∨
    (q.1 = p.1 ++ ":" ∧ p.2 = ":" ++ q.2)

theorem Shifted.writtenPlace_eq {p q : String × String} (h : Shifted p q) :
    writtenPlace p = writtenPlace q := by
  obtain ⟨host, context⟩ := p
  obtain ⟨host', context'⟩ := q
  simp only [Shifted, writtenPlace] at h ⊢
  rcases h with ⟨part, rfl, rfl⟩ | ⟨rfl, rfl⟩
  · simp only [String.append_assoc]
  · apply String.toList_injective
    simp

theorem not_shifted_self (p : String × String) : ¬ Shifted p p := by
  rintro (⟨part, hhost, _⟩ | ⟨hhost, _⟩)
  · have hlength := congrArg String.length hhost
    rw [String.length_append, String.length_append, show "::".length = 2 from rfl] at hlength
    omega
  · have hlength := congrArg String.length hhost
    rw [String.length_append, show ":".length = 1 from rfl] at hlength
    omega

/-- A second separator is at the same place, after it, or overlaps it. -/
theorem colons_eq_append {context rest others : List Char}
    (h : ':' :: ':' :: context = rest ++ ':' :: ':' :: others) :
    (rest = [] ∧ context = others) ∨ (rest = [':'] ∧ context = ':' :: others) ∨
      ∃ part, rest = ':' :: ':' :: part ∧ context = part ++ ':' :: ':' :: others := by
  match rest with
  | [] => simpa using h
  | [c] =>
    simp only [List.cons_append, List.nil_append, List.cons.injEq] at h
    exact .inr (.inl ⟨by rw [← h.1], h.2.2⟩)
  | c :: d :: part =>
    simp only [List.cons_append, List.cons.injEq] at h
    obtain ⟨rfl, rfl, hpart⟩ := h
    exact .inr (.inr ⟨part, rfl, hpart⟩)

/-- Two hosts of which one goes on after the other, written with contexts in the same way. -/
theorem shifted_of_append {p q : String × String} {rest : List Char}
    (hhost : q.1.toList = p.1.toList ++ rest)
    (hcontext : ':' :: ':' :: p.2.toList = rest ++ ':' :: ':' :: q.2.toList) :
    p = q ∨ Shifted p q := by
  rcases colons_eq_append hcontext with ⟨rfl, hsame⟩ | ⟨rfl, hcolon⟩ | ⟨part, rfl, hpart⟩
  · refine .inl (Prod.ext ?_ (String.toList_injective hsame))
    exact String.toList_injective (by simpa using hhost.symm)
  · refine .inr (.inr ⟨String.toList_injective ?_, String.toList_injective ?_⟩)
    · simpa using hhost
    · simpa using hcolon
  · refine .inr (.inl ⟨.ofList part, String.toList_injective ?_, String.toList_injective ?_⟩)
    · simpa using hhost
    · simpa using hpart

/-- What is written for a host and a context does not tell where the host ends. -/
theorem writtenPlace_eq_iff {p q : String × String} :
    writtenPlace p = writtenPlace q ↔ p = q ∨ Shifted p q ∨ Shifted q p := by
  constructor
  · intro h
    have hlist := congrArg String.toList h
    simp only [writtenPlace, String.toList_append, List.append_assoc] at hlist
    rcases List.append_eq_append_iff.mp hlist with ⟨rest, hhost, hcontext⟩ | ⟨rest, hhost, hcontext⟩
    · exact (shifted_of_append hhost hcontext).imp_right .inl
    · exact (shifted_of_append hhost hcontext).imp Eq.symm .inr
  · rintro (rfl | h | h)
    · rfl
    · exact h.writtenPlace_eq
    · exact h.writtenPlace_eq.symm

/-- Is no separator found in the host or where it ends? -/
def PlainHost (host : String) : Prop :=
  ¬ [':', ':'] <:+: (host ++ ":").toList

instance (host : String) : Decidable (PlainHost host) :=
  inferInstanceAs (Decidable (¬ _))

theorem PlainHost.not_shifted {p q : String × String} (h : PlainHost q.1) : ¬ Shifted p q := by
  rintro (⟨part, hhost, _⟩ | ⟨hhost, _⟩)
  · refine h ⟨p.1.toList, part.toList ++ [':'], ?_⟩
    simp [hhost]
  · refine h ⟨p.1.toList, [], ?_⟩
    simp [hhost]

/-- Plain hosts can be told from what is written. -/
theorem writtenPlace_inj {p q : String × String} (hp : PlainHost p.1) (hq : PlainHost q.1)
    (h : writtenPlace p = writtenPlace q) : p = q :=
  (writtenPlace_eq_iff.mp h).resolve_right (not_or.mpr ⟨hq.not_shifted, hp.not_shifted⟩)

/-! ## Classes -/

namespace ComponentType

/-- A class name can be told from its type unless it is a dot before a name without dots. -/
theorem fullName_ofClassName {className : String}
    (h : ∀ name, '.' ∉ name → className.toList ≠ '.' :: name) (id : Nat) :
    (ofClassName className id).fullName = className := by
  unfold ofClassName
  split
  · rename_i package name hcut
    obtain ⟨hname, htext⟩ := Text.cutLast_eq_some_iff.mp hcut
    have hpackage : package ≠ [] := by
      rintro rfl
      exact h name hname htext
    rw [fullName, if_neg (by simpa using hpackage)]
    exact String.toList_injective (by simp [htext])
  · rfl

theorem fullName_unnumbered (t : ComponentType) : t.unnumbered.fullName = t.fullName := rfl

end ComponentType

/-! ## Signatures -/

theorem intercalate_snoc {α : Type} (sep : α) (words : List (List α)) (word : List α) :
    [sep].intercalate (words ++ [word]) = words.flatMap (· ++ [sep]) ++ word := by
  induction words with
  | nil => simp
  | cons first rest ih =>
    rw [List.cons_append, List.intercalate_cons_of_ne_nil (by simp), ih]
    simp

theorem intercalate_pair {α : Type} (sep gap : α) (first : List α) (rest : List (List α)) :
    [sep, gap].intercalate (first :: rest) = [sep].intercalate (first :: rest.map (gap :: ·)) := by
  induction rest generalizing first with
  | nil => simp
  | cons second rest ih =>
    rw [List.map_cons, List.intercalate_cons_cons, List.intercalate_cons_cons, ih]
    simp

namespace Signature

/-- The modifiers, and the return type after them. -/
def words (s : Signature) : List String :=
  s.modifiers ++ s.returnType.toList

/-- Can the words and the parameters be told from what is rendered? -/
structure Tidy (s : Signature) : Prop where
  words : ∀ w ∈ s.words ++ [s.name], ' ' ∉ w.toList ∧ '(' ∉ w.toList
  parameters : ∀ p ∈ s.parameters, ',' ∉ p.toList ∧ Text.trim p.toList = p.toList ∧ p.toList ≠ []

theorem toList_render (s : Signature) : s.render.toList =
    [' '].intercalate ((s.words ++ [s.name]).map String.toList) ++
      '(' :: ([',', ' '].intercalate (s.parameters.map String.toList) ++ [')']) := by
  rw [List.map_append, List.map_singleton, intercalate_snoc]
  cases hreturn : s.returnType <;>
    simp [render, words, hreturn, String.toList_intercalate, String.toList_join, List.flatMap_map]

/-- The parameters are read back from between the brackets. -/
theorem Tidy.parameterList_intercalate {s : Signature} (h : s.Tidy) :
    QualifiedSignature.parameterList ([',', ' '].intercalate (s.parameters.map String.toList)) =
      s.parameters := by
  have hgap : ∀ text, Text.trim (' ' :: text) = Text.trim text :=
    Text.trim_cons_of_isBlank (by decide)
  have hparameters := h.parameters
  unfold QualifiedSignature.parameterList
  cases hsplit : s.parameters with
  | nil => rfl
  | cons first rest =>
    rw [hsplit] at hparameters
    obtain ⟨hcomma, htrim, hne⟩ := hparameters first List.mem_cons_self
    have hcommas : ∀ piece ∈ first.toList :: (rest.map String.toList).map (' ' :: ·),
        ',' ∉ piece := by
      simp only [List.mem_cons, List.mem_map, forall_eq_or_imp]
      refine ⟨hcomma, ?_⟩
      rintro _ ⟨_, ⟨p, hp, rfl⟩, rfl⟩
      simpa using (hparameters p (List.mem_cons_of_mem first hp)).1
    rw [List.map_cons, intercalate_pair, List.splitOn_intercalate ',' hcommas (by simp)]
    have htrimmed : (first.toList :: (rest.map String.toList).map (' ' :: ·)).map Text.trim =
        (first :: rest).map String.toList := by
      simp only [List.map_cons, List.map_map, htrim]
      refine congrArg (first.toList :: ·) (List.map_congr_left fun p hp => ?_)
      exact (hgap p.toList).trans (hparameters p (List.mem_cons_of_mem first hp)).2.1
    have hfilled : ∀ piece ∈ (first :: rest).map String.toList, (!piece.isEmpty) = true := by
      intro piece hpiece
      obtain ⟨p, hp, rfl⟩ := List.mem_map.mp hpiece
      simpa using (hparameters p hp).2.2
    rw [htrimmed, List.filter_eq_self.mpr hfilled, List.map_map]
    simp [Function.comp_def]

/-- The bracket before the parameters is the first one. -/
theorem Tidy.unopened {s : Signature} (h : s.Tidy) :
    '(' ∉ [' '].intercalate ((s.words ++ [s.name]).map String.toList) := by
  intro hmem
  obtain hsep | ⟨piece, hpiece, hin⟩ := Text.mem_of_mem_intercalate hmem
  · simp at hsep
  · obtain ⟨w, hw, rfl⟩ := List.mem_map.mp hpiece
    exact (h.words w hw).2 hin

/-- What is rendered tells the name, the words before it and the parameters. -/
theorem Tidy.render_inj {s u : Signature} (hs : s.Tidy) (hu : u.Tidy) (h : s.render = u.render) :
    s.name = u.name ∧ s.words = u.words ∧ s.parameters = u.parameters := by
  have hspace : ∀ {s : Signature}, s.Tidy →
      ∀ piece ∈ (s.words ++ [s.name]).map String.toList, ' ' ∉ piece := by
    intro s hs piece hpiece
    obtain ⟨w, hw, rfl⟩ := List.mem_map.mp hpiece
    exact (hs.words w hw).1
  have hlist := congrArg String.toList h
  rw [toList_render, toList_render] at hlist
  obtain ⟨hhead, htail⟩ := Text.append_cons_inj hs.unopened hu.unopened hlist
  have hsplit := congrArg (List.splitOn ' ') hhead
  rw [List.splitOn_intercalate ' ' (hspace hs) (by simp),
    List.splitOn_intercalate ' ' (hspace hu) (by simp)] at hsplit
  have hparameters := congrArg QualifiedSignature.parameterList (List.append_cancel_right htail)
  rw [hs.parameterList_intercalate, hu.parameterList_intercalate] at hparameters
  obtain ⟨hwords, hname⟩ := List.append_inj'
    (List.map_injective_iff.mpr (fun _ _ => String.toList_injective) hsplit) rfl
  exact ⟨List.singleton_inj.mp hname, hwords, hparameters⟩

end Signature

namespace QualifiedSignature

theorem exists_parse_eq (text : String) (isConstructor : Bool) :
    ∃ head parameters, parse text isConstructor = ofSections isConstructor head parameters := by
  unfold parse
  split <;> exact ⟨_, _, rfl⟩

/-- The words before a name are its modifiers and the return type. -/
theorem words_returnTypeAndModifiers (isConstructor : Bool) (words : List String) :
    (returnTypeAndModifiers isConstructor words).2 ++
      (returnTypeAndModifiers isConstructor words).1.toList = words := by
  unfold returnTypeAndModifiers
  split
  · rename_i hlast
    exact (List.getLast?_eq_none_iff.mp hlast).symm
  · rename_i word hlast
    split
    · simp
    · exact List.dropLast_append_getLast? word hlast

theorem mem_of_mem_constructorOwner {name : List Char} {c : Char} (h : c ∈ constructorOwner name) :
    c ∈ name := by
  unfold constructorOwner at h
  split at h
  · rename_i hcut
    split at h
    · rw [(Text.cutLast_eq_some_iff.mp hcut).2]
      exact List.mem_append_left _ h
    · exact h
  · exact h

theorem mem_of_mem_name {isConstructor : Bool} {name : List Char} {c : Char}
    (h : c ∈ (ownerAndName isConstructor name).2) : c ∈ name := by
  have hlater : ∀ {text before after : List Char}, Text.cutLast '.' text = some (before, after) →
      c ∈ after → c ∈ text := by
    intro text before after hcut hc
    rw [(Text.cutLast_eq_some_iff.mp hcut).2]
    exact List.mem_append_right _ (List.mem_cons_of_mem _ hc)
  cases isConstructor with
  | true =>
    refine mem_of_mem_constructorOwner ?_
    simp only [ownerAndName, if_true, Text.afterLast] at h
    split at h
    · rename_i hcut
      exact hlater hcut h
    · exact h
  | false =>
    simp only [ownerAndName, Bool.false_eq_true, if_false] at h
    cases hcut : Text.cutLast '.' name with
    | none => simpa [hcut] using h
    | some found => exact hlater hcut (by simpa [hcut] using h)

section Parts

variable {isConstructor : Bool} {head parameters : List Char}

/-- The modifiers and the return type are the words before the last one. -/
theorem words_ofSections : (ofSections isConstructor head parameters).signature.words =
    (Text.words head).dropLast.map String.ofList := by
  rw [ofSections_parts, Signature.words, words_returnTypeAndModifiers]

/-- What stands in the name stands in a word. -/
theorem exists_word_of_mem_name {c : Char}
    (h : c ∈ (ofSections isConstructor head parameters).signature.name.toList) :
    ∃ word ∈ Text.words head, c ∈ word := by
  rw [ofSections_parts, String.toList_ofList] at h
  have hlast := mem_of_mem_name h
  cases hwords : (Text.words head).getLast? with
  | none => simp [hwords] at hlast
  | some last =>
    rw [hwords] at hlast
    exact ⟨last, List.mem_of_getLast? hwords, hlast⟩

/-- A parameter is a trimmed piece of the text between the brackets, and it is not empty. -/
theorem exists_piece_of_mem_parameters {p : String}
    (h : p ∈ (ofSections isConstructor head parameters).signature.parameters) :
    ∃ piece ∈ parameters.splitOn ',', p.toList = Text.trim piece ∧ p.toList ≠ [] := by
  obtain ⟨piece, hpiece, rfl⟩ := List.mem_map.mp h
  obtain ⟨htrimmed, hne⟩ := List.mem_filter.mp hpiece
  obtain ⟨raw, hraw, rfl⟩ := List.mem_map.mp htrimmed
  rw [String.toList_ofList]
  exact ⟨raw, hraw, rfl, by simpa using hne⟩

end Parts

/-- What is read off a legible text is tidy. -/
theorem tidy_parse {text : String} (h : (sections? text.toList).isSome) (isConstructor : Bool) :
    (parse text isConstructor).signature.Tidy := by
  obtain ⟨head, parameters, hbracket, _, hparse⟩ := Matches.exists_sections (matches_iff.mpr h)
  rw [hparse]
  have hclear : ∀ word ∈ Text.words head, ∀ c ∈ word, c ≠ ' ' ∧ c ≠ '(' := by
    intro word hword c hc
    obtain ⟨hin, hblank⟩ := Text.mem_of_mem_words hword hc
    exact ⟨fun heq => absurd (heq ▸ hblank) (by decide), fun heq => hbracket (heq ▸ hin)⟩
  have hunbroken : ∀ {w : List Char}, (∀ c ∈ w, c ≠ ' ' ∧ c ≠ '(') → ' ' ∉ w ∧ '(' ∉ w :=
    fun h => ⟨fun hc => (h _ hc).1 rfl, fun hc => (h _ hc).2 rfl⟩
  constructor
  · intro w hw
    refine hunbroken fun c hc => ?_
    rcases List.mem_append.mp hw with hw | hw
    · rw [words_ofSections] at hw
      obtain ⟨word, hword, rfl⟩ := List.mem_map.mp hw
      exact hclear word (List.dropLast_subset _ hword) c (by rwa [String.toList_ofList] at hc)
    · rw [List.mem_singleton.mp hw] at hc
      obtain ⟨word, hword, hin⟩ := exists_word_of_mem_name hc
      exact hclear word hword c hin
  · intro p hp
    obtain ⟨piece, hpiece, heq, hne⟩ := exists_piece_of_mem_parameters hp
    refine ⟨fun hc => ?_, by rw [heq, Text.trim_trim], hne⟩
    rw [heq] at hc
    have := (Text.mem_of_mem_splitOnP hpiece (Text.mem_of_mem_trim hc)).2
    simp at this

/-- What was read in one way is told by the name, the words before it and the parameters. -/
theorem signature_parse_inj {text other : String} {isConstructor : Bool}
    (hname : (parse text isConstructor).signature.name = (parse other isConstructor).signature.name)
    (hwords : (parse text isConstructor).signature.words =
      (parse other isConstructor).signature.words)
    (hparameters : (parse text isConstructor).signature.parameters =
      (parse other isConstructor).signature.parameters) :
    (parse text isConstructor).signature = (parse other isConstructor).signature := by
  obtain ⟨head, parameters, hparse⟩ := exists_parse_eq text isConstructor
  obtain ⟨head', parameters', hparse'⟩ := exists_parse_eq other isConstructor
  rw [hparse, hparse'] at hname hwords hparameters ⊢
  rw [words_ofSections, words_ofSections] at hwords
  simp only [ofSections_parts] at hname hparameters ⊢
  rw [hname, hwords, hparameters]

/-- How the operation is written when it is interned. -/
def written (q : QualifiedSignature) : String :=
  Model.operationKey (.ofClassName q.owner 0) q.signature

/-- Do the brackets of a text pair up, and can the class that is read off it be told from what is
written? -/
structure Legible (isConstructor : Bool) (text : String) : Prop where
  paired : (sections? text.toList).isSome
  unmarked : '#' ∉ (parse text isConstructor).owner.toList
  named : ∀ name, '.' ∉ name → (parse text isConstructor).owner.toList ≠ '.' :: name

theorem Legible.of_head? {isConstructor : Bool} {text : String}
    (hpaired : (sections? text.toList).isSome)
    (hunmarked : '#' ∉ (parse text isConstructor).owner.toList)
    (hhead : (parse text isConstructor).owner.toList.head? ≠ some '.') :
    Legible isConstructor text :=
  ⟨hpaired, hunmarked, fun _ _ howner => hhead (by rw [howner, List.head?_cons])⟩

/-- Are the class, the name, the words before it and the parameters the same? Which of the words is
the return type is left open. -/
structure Resembles (p q : QualifiedSignature) : Prop where
  owner : p.owner = q.owner
  name : p.signature.name = q.signature.name
  words : p.signature.words = q.signature.words
  parameters : p.signature.parameters = q.signature.parameters

/-- Legible operations are written alike if they differ in nothing but what is taken for a return
type. -/
theorem written_eq_iff {text other : String} {c d : Bool} (h : Legible c text)
    (h' : Legible d other) : (parse text c).written = (parse other d).written ↔
      (parse text c).Resembles (parse other d) := by
  simp only [written, Model.operationKey, ComponentType.fullName_ofClassName h.named,
    ComponentType.fullName_ofClassName h'.named]
  constructor
  · intro heq
    have hlist := congrArg String.toList heq
    simp only [String.toList_append, List.append_assoc] at hlist
    obtain ⟨howner, hrender⟩ := Text.append_cons_inj h.unmarked h'.unmarked hlist
    obtain ⟨hname, hwords, hparameters⟩ := (tidy_parse h.paired c).render_inj
      (tidy_parse h'.paired d) (String.toList_injective hrender)
    exact ⟨String.toList_injective howner, hname, hwords, hparameters⟩
  · rintro ⟨howner, hname, hwords, hparameters⟩
    have hrender : (parse text c).signature.render = (parse other d).signature.render := by
      refine String.toList_injective ?_
      rw [Signature.toList_render, Signature.toList_render, hname, hwords, hparameters]
    rw [howner, hrender]

/-- What was read in one way is told by its class, name, words and parameters. -/
theorem Resembles.eq {text other : String} {c : Bool}
    (h : (parse text c).Resembles (parse other c)) : parse text c = parse other c := by
  have hsignature := signature_parse_inj h.name h.words h.parameters
  calc parse text c = ⟨(parse text c).owner, (parse text c).signature⟩ := rfl
    _ = parse other c := by rw [h.owner, hsignature]

-- None of the three conditions can be left out.
example : (parse "p.C.f(x" false).written = (parse "p.C.f(x()" false).written ∧
    (parse "a.b#c()" false).written = (parse "a#b.c()" false).written ∧
    (parse ".a.f()" false).written = (parse "a.f()" false).written := by
  decide +kernel

end QualifiedSignature

end Retrace
