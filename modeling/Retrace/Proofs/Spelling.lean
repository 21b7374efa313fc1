import Retrace.Json.Printer
import Retrace.Json.Reader
import Retrace.Proofs.Literals

/-! Spellings. A value can be spelled with any blanks around its items and members; its words,
numbers and strings are spelled in one way. Both writers spell the values they write, one without
blanks and the other one with line ends and indentation, and the reader gets a value back from any
spelling of it. So what is written can be read, however it is laid out. -/

namespace Retrace.Json

def Spaces (text : List Char) : Prop :=
  ∀ c ∈ text, isSpace c = true

theorem spaces_nil : Spaces [] := by
  simp [Spaces]

theorem spaces_space : Spaces [' '] := by
  simp [Spaces, isSpace]

theorem spaces_newLine (depth : Nat) : Spaces (newLine depth) := by
  intro c hc
  rw [newLine, List.mem_cons] at hc
  rcases hc with rfl | hc
  · rfl
  · rw [List.eq_of_mem_replicate hc]
    rfl

mutual

/-- Is the text a spelling of the value? -/
inductive Spells : Json → List Char → Prop where
  | null : Spells .null "null".toList
  | bool (b : Bool) : Spells (.bool b) (toString b).toList
  | int {n : Int} : Fits64 n → Spells (.int n) (toString n).toList
  | fraction : Spells .fraction "0.0".toList
  | str (s : String) : Spells (.str s) (quote s.toList)
  | noItems : Spells (.array []) ['[', ']']
  | array {items : List Json} {text : List Char} :
      SpellsItems items text → Spells (.array items) ('[' :: text)
  | noMembers : Spells (.object []) ['{', '}']
  | object {members : List (String × Json)} {text : List Char} :
      SpellsMembers members text → Spells (.object members) ('{' :: text)

/-- Is the text a spelling of at least one item, up to the closing bracket? -/
inductive SpellsItems : List Json → List Char → Prop where
  | last {item : Json} {gap text gap' : List Char} :
      Spaces gap → Spells item text → Spaces gap' →
      SpellsItems [item] (gap ++ text ++ gap' ++ [']'])
  | more {item : Json} {rest : List Json} {gap text later : List Char} :
      Spaces gap → Spells item text → SpellsItems rest later →
      SpellsItems (item :: rest) (gap ++ text ++ ',' :: later)

/-- Is the text a spelling of at least one member, up to the closing bracket? -/
inductive SpellsMembers : List (String × Json) → List Char → Prop where
  | last {name : String} {value : Json} {gap gap' text gap'' : List Char} :
      Spaces gap → Spaces gap' → Spells value text → Spaces gap'' →
      SpellsMembers [(name, value)]
        (gap ++ quote name.toList ++ ':' :: gap' ++ text ++ gap'' ++ ['}'])
  | more {name : String} {value : Json} {rest : List (String × Json)}
      {gap gap' text later : List Char} :
      Spaces gap → Spaces gap' → Spells value text → SpellsMembers rest later →
      SpellsMembers ((name, value) :: rest)
        (gap ++ quote name.toList ++ ':' :: gap' ++ text ++ ',' :: later)

end

/-! ## Writing -/

mutual

/-- Do all integers in the value fit 64 bits? -/
def Fits : Json → Prop
  | int n => Fits64 n
  | array items => FitsItems items
  | object members => FitsMembers members
  | _ => True

def FitsItems : List Json → Prop
  | [] => True
  | item :: rest => item.Fits ∧ FitsItems rest

def FitsMembers : List (String × Json) → Prop
  | [] => True
  | (_, value) :: rest => value.Fits ∧ FitsMembers rest

end

theorem fitsItems_iff {items : List Json} : FitsItems items ↔ ∀ item ∈ items, item.Fits := by
  induction items with
  | nil => simp [FitsItems]
  | cons item rest ih => rw [FitsItems, ih, List.forall_mem_cons]

theorem fitsMembers_iff {members : List (String × Json)} :
    FitsMembers members ↔ ∀ m ∈ members, m.2.Fits := by
  induction members with
  | nil => simp [FitsMembers]
  | cons member rest ih => rw [FitsMembers, ih, List.forall_mem_cons]

mutual

theorem spells_compactChars : ∀ j : Json, j.Fits → Spells j j.compactChars
  | null, _ => .null
  | bool true, _ => .bool true
  | bool false, _ => .bool false
  | int _, h => .int h
  | fraction, _ => .fraction
  | str s, _ => .str s
  | array [], _ => .noItems
  | array (item :: rest), h =>
    .array (spellsItems_compactItems (item :: rest) (List.cons_ne_nil _ _) h)
  | object [], _ => .noMembers
  | object (member :: rest), h =>
    .object (spellsMembers_compactMembers (member :: rest) (List.cons_ne_nil _ _) h)

theorem spellsItems_compactItems : ∀ items : List Json, items ≠ [] → FitsItems items →
    SpellsItems items (compactItems items ++ [']'])
  | [], hne, _ => absurd rfl hne
  | [item], _, h => by
    simpa [compactItems] using
      SpellsItems.last spaces_nil (spells_compactChars item h.1) spaces_nil
  | item :: next :: rest, _, h => by
    simpa [compactItems] using SpellsItems.more spaces_nil (spells_compactChars item h.1)
      (spellsItems_compactItems (next :: rest) (List.cons_ne_nil _ _) h.2)

theorem spellsMembers_compactMembers : ∀ members : List (String × Json), members ≠ [] →
    FitsMembers members → SpellsMembers members (compactMembers members ++ ['}'])
  | [], hne, _ => absurd rfl hne
  | [(name, value)], _, h => by
    simpa [compactMembers] using
      SpellsMembers.last spaces_nil spaces_nil (spells_compactChars value h.1) spaces_nil
  | (name, value) :: next :: rest, _, h => by
    simpa [compactMembers] using SpellsMembers.more spaces_nil spaces_nil
      (spells_compactChars value h.1)
      (spellsMembers_compactMembers (next :: rest) (List.cons_ne_nil _ _) h.2)

end

mutual

theorem newline_not_mem_compactChars : ∀ j : Json, '\n' ∉ j.compactChars
  | null => by decide
  | bool b => by cases b <;> decide
  | int n => newline_not_mem_toString n
  | fraction => by decide
  | str s => newline_not_mem_quote s.toList
  | array items => by simpa [compactChars] using newline_not_mem_compactItems items
  | object members => by simpa [compactChars] using newline_not_mem_compactMembers members

theorem newline_not_mem_compactItems : ∀ items : List Json, '\n' ∉ compactItems items
  | [] => List.not_mem_nil
  | [item] => newline_not_mem_compactChars item
  | item :: next :: rest => by
    have hitem := newline_not_mem_compactChars item
    have hrest := newline_not_mem_compactItems (next :: rest)
    simp [compactItems, hitem, hrest]

theorem newline_not_mem_compactMembers : ∀ members : List (String × Json),
    '\n' ∉ compactMembers members
  | [] => List.not_mem_nil
  | [(name, value)] => by
    have hname := newline_not_mem_quote name.toList
    have hvalue := newline_not_mem_compactChars value
    simp [compactMembers, hname, hvalue]
  | (name, value) :: next :: rest => by
    have hname := newline_not_mem_quote name.toList
    have hvalue := newline_not_mem_compactChars value
    have hrest := newline_not_mem_compactMembers (next :: rest)
    simp [compactMembers, hname, hvalue, hrest]

end

mutual

theorem spells_prettyChars : ∀ (depth : Nat) (j : Json), j.Fits → Spells j (prettyChars depth j)
  | _, null, _ => by rw [prettyChars]; exact .null
  | _, bool true, _ => by rw [prettyChars]; exact .bool true
  | _, bool false, _ => by rw [prettyChars]; exact .bool false
  | _, int _, h => by rw [prettyChars]; exact .int h
  | _, fraction, _ => by rw [prettyChars]; exact .fraction
  | _, str s, _ => by rw [prettyChars]; exact .str s
  | _, array [], _ => by rw [prettyChars]; exact .noItems
  | depth, array (item :: rest), h => by
    simpa [prettyChars, prettyItems] using
      Spells.array (spellsItems_prettyItems depth (item :: rest) (List.cons_ne_nil _ _) h)
  | _, object [], _ => by rw [prettyChars]; exact .noMembers
  | depth, object ((name, value) :: rest), h => by
    simpa [prettyChars, prettyMembers] using
      Spells.object
        (spellsMembers_prettyMembers depth ((name, value) :: rest) (List.cons_ne_nil _ _) h)

/-- The items without the comma that would separate them from an item before. -/
theorem spellsItems_prettyItems : ∀ (depth : Nat) (items : List Json), items ≠ [] →
    FitsItems items →
    SpellsItems items ((prettyItems depth items).tail ++ newLine (depth - 1) ++ [']'])
  | _, [], hne, _ => absurd rfl hne
  | depth, [item], _, h => by
    simpa [prettyItems] using SpellsItems.last (spaces_newLine depth)
      (spells_prettyChars (depth + 1) item h.1) (spaces_newLine (depth - 1))
  | depth, item :: next :: rest, _, h => by
    simpa [prettyItems] using SpellsItems.more (spaces_newLine depth)
      (spells_prettyChars (depth + 1) item h.1)
      (spellsItems_prettyItems depth (next :: rest) (List.cons_ne_nil _ _) h.2)

/-- The members without the comma that would separate them from a member before. -/
theorem spellsMembers_prettyMembers : ∀ (depth : Nat) (members : List (String × Json)),
    members ≠ [] → FitsMembers members →
    SpellsMembers members ((prettyMembers depth members).tail ++ newLine (depth - 1) ++ ['}'])
  | _, [], hne, _ => absurd rfl hne
  | depth, [(name, value)], _, h => by
    simpa [prettyMembers] using SpellsMembers.last (spaces_newLine depth)
      spaces_space (spells_prettyChars (depth + 1) value h.1) (spaces_newLine (depth - 1))
  | depth, (name, value) :: next :: rest, _, h => by
    simpa [prettyMembers] using SpellsMembers.more (spaces_newLine depth)
      spaces_space (spells_prettyChars (depth + 1) value h.1)
      (spellsMembers_prettyMembers depth (next :: rest) (List.cons_ne_nil _ _) h.2)

end

theorem compactItems_eq (items : List Json) :
    compactItems items = [','].intercalate (items.map compactChars) := by
  induction items with
  | nil => rfl
  | cons item rest ih =>
    cases rest with
    | nil => simp [compactItems]
    | cons next rest =>
      rw [compactItems, ih, List.map_cons, List.map_cons, List.map_cons, List.intercalate_cons_cons]
      · simp
      · exact List.cons_ne_nil _ _

/-! ## Reading -/

theorem skipSpaces_append {gap : List Char} (hgap : Spaces gap) (text : List Char) :
    skipSpaces (gap ++ text) = skipSpaces text :=
  List.dropWhile_append_of_pos hgap

theorem skipSpaces_cons {c : Char} (hc : isSpace c = false) (text : List Char) :
    skipSpaces (c :: text) = c :: text :=
  List.dropWhile_cons_of_neg (by simp [hc])

/-- Blanks before a value do not count. -/
theorem readValue_append {gap : List Char} (hgap : Spaces gap) (fuel : Nat) (text : List Char) :
    readValue fuel (gap ++ text) = readValue fuel text := by
  cases fuel with
  | zero => rfl
  | succ fuel => simp only [readValue, skipSpaces_append hgap]

theorem endsNumber_append {gap text : List Char} (hgap : Spaces gap) (h : EndsNumber text) :
    EndsNumber (gap ++ text) := by
  cases gap with
  | nil => exact h
  | cons c gap =>
    have hc := hgap c List.mem_cons_self
    simp only [isSpace, Bool.or_eq_true, beq_iff_eq] at hc
    rw [List.cons_append, endsNumber_cons]
    rcases hc with ((rfl | rfl) | rfl) | rfl <;> decide

theorem ne_of_isDigit {c d : Char} (hc : c.isDigit = true) (hd : d.isDigit = false) : c ≠ d := by
  rintro rfl
  simp [hc] at hd

theorem isSpace_of_isDigit {c : Char} (h : c.isDigit = true) : isSpace c = false := by
  simp [isSpace, ne_of_isDigit h]

/-- A sign or a digit makes the reader read a number. -/
theorem readValue_numeral {c : Char} (h : c = '-' ∨ c.isDigit = true) (fuel : Nat)
    (text : List Char) : readValue (fuel + 1) (c :: text) = readNumeral (c :: text) := by
  rcases h with rfl | h
  · rfl
  · simp [readValue, skipSpaces_cons (isSpace_of_isDigit h), ne_of_isDigit h, h]

/-- A spelling begins with no blank and no closing bracket. -/
theorem Spells.head {j : Json} {text : List Char} (h : Spells j text) :
    ∃ c rest, text = c :: rest ∧ isSpace c = Bool.false ∧ c ≠ ']' := by
  cases h with
  | bool b => cases b <;> exact ⟨_, _, rfl, rfl, by decide⟩
  | @int n hfits =>
    obtain ⟨c, rest, htext, rfl | hdigit⟩ := exists_toString n
    · exact ⟨_, rest, htext, rfl, by decide⟩
    · exact ⟨c, rest, htext, isSpace_of_isDigit hdigit, ne_of_isDigit hdigit rfl⟩
  | _ => exact ⟨_, _, rfl, rfl, by decide⟩

theorem SpellsItems.head {items : List Json} {text : List Char} (h : SpellsItems items text) :
    ∃ gap c rest, text = gap ++ c :: rest ∧ Spaces gap ∧ isSpace c = false ∧ c ≠ ']' := by
  cases h with
  | @last item gap text gap' hgap hitem _ =>
    obtain ⟨c, rest, rfl, hspace, hclosing⟩ := hitem.head
    exact ⟨gap, c, rest ++ (gap' ++ [']']), by simp, hgap, hspace, hclosing⟩
  | @more item items gap text later hgap hitem _ =>
    obtain ⟨c, rest, rfl, hspace, hclosing⟩ := hitem.head
    exact ⟨gap, c, rest ++ ',' :: later, by simp, hgap, hspace, hclosing⟩

theorem quote_append (s : String) (text : List Char) :
    quote s.toList ++ text = '"' :: (s.toList.flatMap escapeChar ++ '"' :: text) := by
  simp [quote]

theorem SpellsMembers.head {members : List (String × Json)} {text : List Char}
    (h : SpellsMembers members text) : ∃ gap rest, text = gap ++ '"' :: rest ∧ Spaces gap := by
  cases h with
  | last hgap _ _ _ =>
    simp only [List.append_assoc, quote_append]
    exact ⟨_, _, rfl, hgap⟩
  | more hgap _ _ _ =>
    simp only [List.append_assoc, quote_append]
    exact ⟨_, _, rfl, hgap⟩

/-- An array or object that does not close at once is read on from its first item or member. -/
theorem readEnclosed_of_ne {α : Type} {closing c : Char} (readRest : List Char → Enclosed α)
    {gap : List Char} (hgap : Spaces gap) (hspace : isSpace c = false) (hne : c ≠ closing)
    (text : List Char) :
    readEnclosed closing readRest (gap ++ c :: text) = readRest (c :: text) := by
  simp only [readEnclosed, skipSpaces_append hgap, skipSpaces_cons hspace, hne, if_false]

theorem readItems_append {gap : List Char} (hgap : Spaces gap) (fuel : Nat) (text : List Char) :
    readItems fuel (gap ++ text) = readItems fuel text := by
  cases fuel with
  | zero => rfl
  | succ fuel => simp only [readItems, readValue_append hgap]

theorem readMembers_append {gap : List Char} (hgap : Spaces gap) (fuel : Nat) (text : List Char) :
    readMembers fuel (gap ++ text) = readMembers fuel text := by
  cases fuel with
  | zero => rfl
  | succ fuel => simp only [readMembers, skipSpaces_append hgap]

theorem readEnclosed_items {items : List Json} {text : List Char} (h : SpellsItems items text)
    (fuel : Nat) (rest : List Char) :
    readEnclosed ']' (readItems fuel) (text ++ rest) = readItems fuel (text ++ rest) := by
  obtain ⟨gap, c, later, rfl, hgap, hspace, hclosing⟩ := h.head
  rw [List.append_assoc, List.cons_append, readEnclosed_of_ne _ hgap hspace hclosing,
    readItems_append hgap]

theorem readEnclosed_members {members : List (String × Json)} {text : List Char}
    (h : SpellsMembers members text) (fuel : Nat) (rest : List Char) :
    readEnclosed '}' (readMembers fuel) (text ++ rest) = readMembers fuel (text ++ rest) := by
  obtain ⟨gap, later, rfl, hgap⟩ := h.head
  rw [List.append_assoc, List.cons_append, readEnclosed_of_ne _ hgap rfl (by decide),
    readMembers_append hgap]

section Separators

variable {fuel : Nat} {text after rest : List Char} {value : Draft} (name : String)
  {gap : List Char}

theorem readItems_last (hvalue : readValue fuel text = (value, some after))
    (hafter : skipSpaces after = ']' :: rest) :
    readItems (fuel + 1) text = ([value], none, some rest) := by
  simp [readItems, hvalue, hafter]

theorem readItems_more (hvalue : readValue fuel text = (value, some after))
    (hafter : skipSpaces after = ',' :: rest) :
    readItems (fuel + 1) text =
      (value :: (readItems fuel rest).1, (readItems fuel rest).2) := by
  simp [readItems, hvalue, hafter]

theorem readMembers_last (hgap : Spaces gap) (hvalue : readValue fuel text = (value, some after))
    (hafter : skipSpaces after = '}' :: rest) :
    readMembers (fuel + 1) (gap ++ (quote name.toList ++ ':' :: text)) =
      ([(some name, value)], none, some rest) := by
  rw [readMembers_append hgap, quote_append]
  simp [readMembers, skipSpaces_cons (show isSpace '"' = false from rfl), readQuoted_escape,
    skipSpaces_cons (show isSpace ':' = false from rfl), hvalue, hafter]

theorem readMembers_more (hgap : Spaces gap) (hvalue : readValue fuel text = (value, some after))
    (hafter : skipSpaces after = ',' :: rest) :
    readMembers (fuel + 1) (gap ++ (quote name.toList ++ ':' :: text)) =
      ((some name, value) :: (readMembers fuel rest).1, (readMembers fuel rest).2) := by
  rw [readMembers_append hgap, quote_append]
  simp [readMembers, skipSpaces_cons (show isSpace '"' = false from rfl), readQuoted_escape,
    skipSpaces_cons (show isSpace ':' = false from rfl), hvalue, hafter]

end Separators

mutual

/-- A value is read back from any spelling, if a number would end where the spelling does. Each
value takes a unit of fuel, and so does each item, but both take text as well. -/
theorem Spells.reads {j : Json} {text : List Char} (h : Spells j text) : ∀ (fuel : Nat)
    (rest : List Char), 2 * text.length + 1 ≤ fuel → EndsNumber rest →
    readValue fuel (text ++ rest) = (j.draft, some rest) := by
  intro fuel rest hfuel hrest
  obtain ⟨fuel, rfl⟩ := Nat.exists_eq_add_one_of_ne_zero (Nat.ne_zero_of_lt hfuel)
  cases h with
  | null => rfl
  | bool b => cases b <;> rfl
  | @int n hfits =>
    obtain ⟨c, digits, htext, hc⟩ := exists_toString n
    have hread := readNumber_toString hfits hrest
    rw [htext, List.cons_append] at hread ⊢
    rw [readValue_numeral hc, readNumeral, hread]
    rfl
  | fraction =>
    change readNumeral ('0' :: '.' :: '0' :: rest) = _
    rw [readNumeral, readNumber_fraction hrest]
    rfl
  | str s =>
    change readText (s.toList.flatMap escapeChar ++ ['"'] ++ rest) = _
    rw [List.append_assoc, List.singleton_append, readText, readQuoted_escape]
    rfl
  | noItems => rfl
  | @array items text hitems =>
    rw [List.length_cons] at hfuel
    have hread := hitems.reads fuel rest (by omega)
    rw [← readEnclosed_items hitems] at hread
    simp only [List.cons_append, readValue, skipSpaces_cons (show isSpace '[' = false from rfl)]
    simp [hread, draft]
  | noMembers => rfl
  | @object members text hmembers =>
    rw [List.length_cons] at hfuel
    have hread := hmembers.reads fuel rest (by omega)
    rw [← readEnclosed_members hmembers] at hread
    simp only [List.cons_append, readValue, skipSpaces_cons (show isSpace '{' = false from rfl)]
    simp [hread, draft]

theorem SpellsItems.reads {items : List Json} {text : List Char} (h : SpellsItems items text) :
    ∀ (fuel : Nat) (rest : List Char), 2 * text.length ≤ fuel →
    readItems fuel (text ++ rest) = (draftItems items, none, some rest) := by
  intro fuel rest hfuel
  cases h with
  | @last item gap text gap' hgap hitem hgap' =>
    simp only [List.length_append, List.length_cons, List.length_nil] at hfuel
    obtain ⟨fuel, rfl⟩ := Nat.exists_eq_add_one_of_ne_zero (show fuel ≠ 0 by omega)
    have hread := hitem.reads fuel (gap' ++ ']' :: rest) (by omega)
      (endsNumber_append hgap' (endsNumber_cons.mpr (by decide)))
    have hafter : skipSpaces (gap' ++ ']' :: rest) = ']' :: rest := skipSpaces_append hgap' _
    simp only [List.append_assoc, List.cons_append, List.nil_append]
    rw [readItems_append hgap, readItems_last hread hafter]
    rfl
  | @more item later gap text laterText hgap hitem hlater =>
    simp only [List.length_append, List.length_cons] at hfuel
    obtain ⟨fuel, rfl⟩ := Nat.exists_eq_add_one_of_ne_zero (show fuel ≠ 0 by omega)
    have hread := hitem.reads fuel (',' :: (laterText ++ rest)) (by omega)
      (endsNumber_cons.mpr (by decide))
    have hreads := hlater.reads fuel rest (by omega)
    simp only [List.append_assoc, List.cons_append]
    rw [readItems_append hgap, readItems_more hread rfl, hreads]
    rfl

theorem SpellsMembers.reads {members : List (String × Json)} {text : List Char}
    (h : SpellsMembers members text) :
    ∀ (fuel : Nat) (rest : List Char), 2 * text.length ≤ fuel →
    readMembers fuel (text ++ rest) = (draftMembers members, none, some rest) := by
  intro fuel rest hfuel
  cases h with
  | @last name value gap gap' text gap'' hgap hgap' hvalue hgap'' =>
    simp only [List.length_append, List.length_cons, List.length_nil] at hfuel
    obtain ⟨fuel, rfl⟩ := Nat.exists_eq_add_one_of_ne_zero (show fuel ≠ 0 by omega)
    have hread := hvalue.reads fuel (gap'' ++ '}' :: rest) (by omega)
      (endsNumber_append hgap'' (endsNumber_cons.mpr (by decide)))
    rw [← readValue_append hgap'] at hread
    have hafter : skipSpaces (gap'' ++ '}' :: rest) = '}' :: rest := skipSpaces_append hgap'' _
    simp only [List.append_assoc, List.cons_append, List.nil_append]
    rw [readMembers_last name hgap hread hafter]
    rfl
  | @more name value later gap gap' text laterText hgap hgap' hvalue hlater =>
    simp only [List.length_append, List.length_cons] at hfuel
    obtain ⟨fuel, rfl⟩ := Nat.exists_eq_add_one_of_ne_zero (show fuel ≠ 0 by omega)
    have hread := hvalue.reads fuel (',' :: (laterText ++ rest)) (by omega)
      (endsNumber_cons.mpr (by decide))
    rw [← readValue_append hgap'] at hread
    have hreads := hlater.reads fuel rest (by omega)
    simp only [List.append_assoc, List.cons_append]
    rw [readMembers_more name hgap hread rfl, hreads]
    rfl

end

/-- A text that holds one value, with blanks around it. -/
theorem readDocument_of_spells {j : Json} {gap text gap' : List Char} (hgap : Spaces gap)
    (h : Spells j text) (hgap' : Spaces gap') :
    readDocument (gap ++ text ++ gap') = (j.draft, true) := by
  have hends : EndsNumber gap' := List.append_nil gap' ▸ endsNumber_append hgap' endsNumber_nil
  have hafter : skipSpaces gap' = [] := List.append_nil gap' ▸ skipSpaces_append hgap' []
  have hread := h.reads (2 * (gap ++ text ++ gap').length + 1) gap'
    (by simp only [List.length_append]; omega) hends
  unfold readDocument
  rw [List.append_assoc gap, readValue_append hgap, ← List.append_assoc gap, hread]
  simp only [hafter, List.isEmpty_nil]

/-- Whoever gets something out of a value gets it out of every text that spells the value. -/
theorem decode_of_spells {α : Type} {read : Draft → Except JsonFault α} {j : Json} {a : α}
    {gap text gap' : List Char} (hgap : Spaces gap) (h : Spells j text) (hgap' : Spaces gap')
    (hread : read j.draft = .ok a) : decode read (gap ++ text ++ gap') = .ok a := by
  simp only [decode, readDocument_of_spells hgap h hgap', hread, if_true]

end Retrace.Json
