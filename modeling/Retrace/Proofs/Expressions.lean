import Mathlib.Data.List.Forall2
import Retrace.Proofs.Cuts
import Retrace.Proofs.Numerals
import Retrace.Selection

/-! Selection expressions. What an expression selects is said by a grammar for it: items between
commas, each a numeral or two of them with a minus sign between, and blanks around every numeral. The
reader accepts what this grammar spells, with items that are in range and not reversed, and `all`
with blanks around it, and nothing else. That a minus sign may also be the sign of a number leads to
no doubt: a sign is the first character of its item or of what follows the separator, and the reader
cuts at the first minus sign after the first character. -/

namespace Retrace

namespace Text

/-- The text is another one with blanks around it. -/
def Padded (inner text : List Char) : Prop :=
  ∃ before after, (∀ c ∈ before, isBlank c = true) ∧ (∀ c ∈ after, isBlank c = true) ∧
    text = before ++ inner ++ after

section Trimming

variable {inner text before after : List Char}

theorem padded_self (text : List Char) : Padded text text :=
  ⟨[], [], by simp, by simp, by simp⟩

theorem Padded.append (h : Padded inner text) (hafter : ∀ c ∈ after, isBlank c = true) :
    Padded inner (text ++ after) := by
  obtain ⟨front, back, hfront, hback, rfl⟩ := h
  refine ⟨front, back ++ after, hfront, ?_, by simp⟩
  exact fun c hc => (List.mem_append.mp hc).elim (hback c) (hafter c)

theorem Padded.prepend (hbefore : ∀ c ∈ before, isBlank c = true) (h : Padded inner text) :
    Padded inner (before ++ text) := by
  obtain ⟨front, back, hfront, hback, rfl⟩ := h
  refine ⟨before ++ front, back, ?_, hback, by simp⟩
  exact fun c hc => (List.mem_append.mp hc).elim (hbefore c) (hfront c)

/-- Trimming takes blanks away and nothing else. -/
theorem padded_trim (text : List Char) : Padded (trim text) text := by
  have hend : ∀ text, text = trimEnd text ++ (text.reverse.takeWhile isBlank).reverse := by
    intro text
    rw [trimEnd, ← List.reverse_append, List.takeWhile_append_dropWhile, List.reverse_reverse]
  refine ⟨text.takeWhile isBlank, ((trimStart text).reverse.takeWhile isBlank).reverse, ?_, ?_, ?_⟩
  · exact fun c hc => List.mem_takeWhile_imp hc
  · exact fun c hc => List.mem_takeWhile_imp (List.mem_reverse.mp hc)
  · rw [List.append_assoc, trim, ← hend, trimStart, List.takeWhile_append_dropWhile]

theorem trim_append_blank (hafter : ∀ c ∈ after, isBlank c = true) (text : List Char) :
    trim (text ++ after) = trim text := by
  have hend : ∀ text, trimEnd (text ++ after) = trimEnd text := by
    intro text
    rw [trimEnd, List.reverse_append,
      List.dropWhile_append_of_pos fun c hc => hafter c (List.mem_reverse.mp hc)]
    rfl
  have hnone : trimStart after = [] := List.dropWhile_eq_nil_iff.mpr hafter
  rw [trim, trimStart, List.dropWhile_append]
  split
  · rename_i hempty
    rw [trim, trimStart, List.isEmpty_iff.mp hempty]
    exact congrArg trimEnd hnone
  · exact hend _

theorem trim_blank_append (hbefore : ∀ c ∈ before, isBlank c = true) (text : List Char) :
    trim (before ++ text) = trim text := by
  rw [trim, trimStart, List.dropWhile_append_of_pos hbefore]
  rfl

theorem Padded.trim_eq (h : Padded inner text) : trim text = trim inner := by
  obtain ⟨before, after, hbefore, hafter, rfl⟩ := h
  rw [trim_append_blank hafter, trim_blank_append hbefore]

/-- Nothing is trimmed of a text that neither begins nor ends with a blank. -/
theorem trim_eq_self (hstart : ∀ c ∈ text.head?, isBlank c = false)
    (hend : ∀ c ∈ text.getLast?, isBlank c = false) : trim text = text := by
  have hreverse : trimStart text.reverse = text.reverse :=
    trimStart_eq_self_iff.mpr (by simpa using hend)
  rw [trim, trimStart_eq_self_iff.mpr hstart, trimEnd]
  exact (congrArg List.reverse hreverse).trans text.reverse_reverse

end Trimming

theorem dropStart?_eq_some_iff {start text rest : List Char} :
    dropStart? start text = some rest ↔ text = start ++ rest := by
  induction start generalizing text with
  | nil => simp [dropStart?]
  | cons c start ih =>
    cases text with
    | nil => simp [dropStart?]
    | cons d text =>
      rw [dropStart?, List.cons_append, List.cons.injEq]
      by_cases h : c = d
      · rw [if_pos h, ih]
        simp [h]
      · rw [if_neg h]
        simp [Ne.symm h]

end Text

namespace Selection

open Decimal Text

/-! ## The grammar -/

/-- The text is a numeral for the number, with blanks around it. -/
def Spells (text : List Char) (n : Int) : Prop :=
  ∃ numeral, Numeral numeral n ∧ Padded numeral text

/-- What an item of an expression stands for. -/
inductive Item where
  | one (id : Int)
  | range (first last : Int)
  deriving DecidableEq, Repr

namespace Item

/-- The ways to write an item. -/
inductive Written : Item → List Char → Prop
  | one {text : List Char} {id : Int} (h : Spells text id) : Written (one id) text
  | range {before after : List Char} {first last : Int} (hfirst : Spells before first)
      (hlast : Spells after last) : Written (range first last) (before ++ '-' :: after)

/-- Are the ids of 64 bits, and is there one in the range? -/
def Valid : Item → Prop
  | one id => FitsSigned 64 id
  | range first last => FitsSigned 64 first ∧ FitsSigned 64 last ∧ first ≤ last

instance : (item : Item) → Decidable item.Valid
  | one id => inferInstanceAs (Decidable (FitsSigned 64 id))
  | range first last =>
    inferInstanceAs (Decidable (FitsSigned 64 first ∧ FitsSigned 64 last ∧ first ≤ last))

/-- Is it the one id, or one of the range? -/
def Selects (item : Item) (id : Int) : Prop :=
  match item with
  | one selected => id = selected
  | range first last => first ≤ id ∧ id ≤ last

def span : Item → IdSpan
  | one id => ⟨id, id⟩
  | range first last => ⟨first, last⟩

end Item

/-- The ways in which an item can be wrong. -/
inductive Faulty : List Char → Prop
  | empty {text : List Char} (h : ∀ c ∈ text, isBlank c = true) : Faulty text
  | malformed {text : List Char} (h : ∀ item : Item, ¬ item.Written text) : Faulty text
  | outOfRange {text : List Char} {id : Int} (h : Item.Written (.one id) text)
      (hid : ¬ FitsSigned 64 id) : Faulty text
  | endOutOfRange {text : List Char} {first last : Int} (h : Item.Written (.range first last) text)
      (hends : ¬ (FitsSigned 64 first ∧ FitsSigned 64 last)) : Faulty text
  | reversed {text : List Char} {first last : Int} (h : Item.Written (.range first last) text)
      (hends : last < first) : Faulty text

/-! ## Numbers -/

section Numbers

variable {text : List Char} {n m : Int} {c : Char}

theorem trim_numeral (h : Numeral text n) : trim text = text :=
  trim_eq_self (fun _ hc => h.isBlank (List.mem_of_mem_head? hc))
    fun _ hc => h.isBlank (List.mem_of_mem_getLast? hc)

theorem spells_iff : Spells text n ↔ Numeral (trim text) n := by
  constructor
  · intro ⟨numeral, hnumeral, hpadded⟩
    rwa [hpadded.trim_eq, trim_numeral hnumeral]
  · intro h
    exact ⟨trim text, h, padded_trim text⟩

theorem Spells.unique (h : Spells text n) (h' : Spells text m) : n = m :=
  (spells_iff.mp h).unique (spells_iff.mp h')

theorem readId_eq_ok_iff : readId text = .ok n ↔ Spells text n ∧ FitsSigned 64 n := by
  rw [spells_iff, ← readSigned_eq_ok_iff, readId]
  cases readSigned 64 (trim text) with
  | ok id => simp only [Except.ok.injEq]
  | error cause => simp only [reduceCtorEq]

theorem Spells.chars (h : Spells text n) (hc : c ∈ text) :
    isBlank c = true ∨ c = '+' ∨ c = '-' ∨ c.isDigit = true := by
  obtain ⟨numeral, hnumeral, before, after, hbefore, hafter, rfl⟩ := h
  rcases List.mem_append.mp hc with hc | hc
  · rcases List.mem_append.mp hc with hc | hc
    · exact .inl (hbefore c hc)
    · exact .inr (hnumeral.sign_or_isDigit hc)
  · exact .inl (hafter c hc)

end Numbers

/-! ## Items -/

section Items

variable {text before after items : List Char} {item other : Item} {span : IdSpan} {c : Char}

theorem cutRange?_eq_some_iff :
    cutRange? text = some (before, after) ↔
      before ≠ [] ∧ '-' ∉ before.tail ∧ text = before ++ '-' :: after := by
  cases text with
  | nil =>
    refine iff_of_false (fun h => ?_) fun h => ?_
    · cases h
    · simpa using h.2.2
  | cons c rest =>
    rw [cutRange?, Option.map_eq_some_iff]
    constructor
    · intro h
      obtain ⟨⟨front, back⟩, hcut, heq⟩ := h
      obtain ⟨rfl, rfl⟩ := Prod.mk.inj heq
      obtain ⟨hfront, rfl⟩ := cutFirst_eq_some_iff.mp hcut
      exact ⟨List.cons_ne_nil c front, hfront, rfl⟩
    · intro h
      obtain ⟨hne, hbefore, htext⟩ := h
      obtain ⟨d, front, rfl⟩ := List.exists_cons_of_ne_nil hne
      obtain ⟨rfl, hrest⟩ := List.cons.inj htext
      exact ⟨(front, after), cutFirst_eq_some_iff.mpr ⟨hbefore, hrest⟩, rfl⟩

theorem cutRange?_eq_none_iff : cutRange? text = none ↔ '-' ∉ text.tail := by
  cases text with
  | nil => simp [cutRange?]
  | cons c rest => rw [cutRange?, Option.map_eq_none_iff, cutFirst_eq_none_iff, List.tail_cons]

/-- How the reader finds an item in a text without blanks around it. -/
def Item.Found (item : Item) (text : List Char) : Prop :=
  match item with
  | .one id => cutRange? text = none ∧ Spells text id
  | .range first last => ∃ before after, cutRange? text = some (before, after) ∧
      Spells before first ∧ Spells after last

/-- A numeral, and any blanks after it, have no minus sign after the first character. -/
theorem minus_not_mem_tail {numeral gap : List Char} {n : Int} (h : Numeral numeral n)
    (hgap : ∀ c ∈ gap, isBlank c = true) : '-' ∉ (numeral ++ gap).tail := by
  intro hmem
  rw [List.tail_append_of_ne_nil h.ne_nil] at hmem
  rcases List.mem_append.mp hmem with hmem | hmem
  · exact absurd (h.isDigit_of_mem_tail hmem) (by decide)
  · exact absurd (hgap _ hmem) (by decide)

/-- The reader finds an item exactly where it is written. -/
theorem written_iff_found : item.Written text ↔ item.Found (trim text) := by
  constructor
  · intro h
    cases h with
    | one h =>
      have hnumeral := spells_iff.mp h
      refine ⟨cutRange?_eq_none_iff.mpr ?_, trim text, hnumeral, padded_self _⟩
      have hminus := @minus_not_mem_tail (trim text) [] _ hnumeral (by simp)
      rwa [List.append_nil] at hminus
    | @range front back first last hfirst hlast =>
      -- Only the blanks before the first numeral and after the last one are trimmed.
      obtain ⟨lower, hlower, a, gap, ha, hgap, rfl⟩ := hfirst
      obtain ⟨upper, hupper, gap', b, hgap', hb, rfl⟩ := hlast
      have hinner : trim (a ++ lower ++ gap ++ '-' :: (gap' ++ upper ++ b)) =
          lower ++ gap ++ '-' :: (gap' ++ upper) := by
        have hpadded : Padded (lower ++ gap ++ '-' :: (gap' ++ upper))
            (a ++ lower ++ gap ++ '-' :: (gap' ++ upper ++ b)) :=
          ⟨a, b, ha, hb, by simp⟩
        refine hpadded.trim_eq.trans (trim_eq_self ?_ ?_)
        · intro c hc
          rw [List.append_assoc, List.head?_append_of_ne_nil _ hlower.ne_nil] at hc
          exact hlower.isBlank (List.mem_of_mem_head? hc)
        · intro c hc
          have htail : lower ++ gap ++ '-' :: (gap' ++ upper) =
              (lower ++ gap ++ '-' :: gap') ++ upper := by simp
          rw [htail, List.getLast?_append_of_ne_nil _ hupper.ne_nil] at hc
          exact hupper.isBlank (List.mem_of_mem_getLast? hc)
      refine ⟨lower ++ gap, gap' ++ upper, ?_, ?_, ?_⟩
      · rw [hinner]
        exact cutRange?_eq_some_iff.mpr
          ⟨List.append_ne_nil_of_left_ne_nil hlower.ne_nil _, minus_not_mem_tail hlower hgap, rfl⟩
      · exact ⟨lower, hlower, (padded_self lower).append hgap⟩
      · exact ⟨upper, hupper, (padded_self upper).prepend hgap'⟩
  · intro h
    cases item with
    | one id =>
      obtain ⟨_, hspells⟩ := h
      rw [spells_iff, trim_trim, ← spells_iff] at hspells
      exact .one hspells
    | range first last =>
      obtain ⟨front, back, hcut, ⟨lower, hlower, hfront⟩, upper, hupper, hback⟩ := h
      obtain ⟨_, _, htrim⟩ := cutRange?_eq_some_iff.mp hcut
      obtain ⟨a, b, ha, hb, htext⟩ := padded_trim text
      have hwhole : text = (a ++ front) ++ '-' :: (back ++ b) := by
        rw [htext, htrim]
        simp
      rw [hwhole]
      exact .range ⟨lower, hlower, hfront.prepend ha⟩ ⟨upper, hupper, hback.append hb⟩

/-- There is one way to understand an item. -/
theorem Item.Written.unique (h : item.Written text) (h' : other.Written text) : item = other := by
  have hfound := written_iff_found.mp h
  have hfound' := written_iff_found.mp h'
  cases item with
  | one id =>
    cases other with
    | one id' => rw [hfound.2.unique hfound'.2]
    | range first' last' =>
      obtain ⟨_, _, hcut, _⟩ := hfound'
      rw [hfound.1] at hcut
      cases hcut
  | range first last =>
    obtain ⟨front, back, hcut, hfirst, hlast⟩ := hfound
    cases other with
    | one id' =>
      rw [hfound'.1] at hcut
      cases hcut
    | range first' last' =>
      obtain ⟨front', back', hcut', hfirst', hlast'⟩ := hfound'
      rw [hcut] at hcut'
      obtain ⟨rfl, rfl⟩ := Prod.mk.inj (Option.some.inj hcut')
      rw [hfirst.unique hfirst', hlast.unique hlast']

theorem not_found_nil (item : Item) : ¬ item.Found [] := by
  intro h
  cases item with
  | one id => exact (spells_iff.mp h.2).ne_nil rfl
  | range first last =>
    obtain ⟨_, _, hcut, _⟩ := h
    cases hcut

/-- An item is read if and only if it is found and valid. -/
theorem readItem_eq_ok_iff :
    readItem items text = .ok span ↔
      ∃ item : Item, item.Found text ∧ item.Valid ∧ span = item.span := by
  by_cases hempty : text = []
  · subst hempty
    refine iff_of_false (fun hread => ?_) fun ⟨item, hfound, _⟩ => not_found_nil item hfound
    cases hread
  · rw [readItem, if_neg (by simpa using hempty)]
    constructor
    · intro hread
      cases hcut : cutRange? text with
      | none =>
        rw [hcut] at hread
        cases hid : readId text with
        | error e =>
          rw [hid] at hread
          cases hread
        | ok id =>
          rw [hid] at hread
          cases hread
          obtain ⟨hspells, hfits⟩ := readId_eq_ok_iff.mp hid
          exact ⟨.one id, ⟨hcut, hspells⟩, hfits, rfl⟩
      | some ends =>
        obtain ⟨before, after⟩ := ends
        rw [hcut] at hread
        cases hfirst : readId before with
        | error e => simp [hfirst] at hread
        | ok first =>
          cases hlast : readId after with
          | error e => simp [hfirst, hlast] at hread
          | ok last =>
            by_cases hle : first ≤ last
            · simp only [hfirst, hlast, if_pos hle, Except.ok.injEq] at hread
              obtain ⟨hbefore, hfits⟩ := readId_eq_ok_iff.mp hfirst
              obtain ⟨hafter, hfits'⟩ := readId_eq_ok_iff.mp hlast
              exact ⟨.range first last, ⟨before, after, hcut, hbefore, hafter⟩,
                ⟨hfits, hfits', hle⟩, hread.symm⟩
            · simp [hfirst, hlast, hle] at hread
    · intro ⟨item, hfound, hvalid, hspan⟩
      subst hspan
      cases item with
      | one id =>
        obtain ⟨hcut, hspells⟩ := hfound
        simp only [hcut, readId_eq_ok_iff.mpr ⟨hspells, hvalid⟩, Item.span]
      | range first last =>
        obtain ⟨before, after, hcut, hbefore, hafter⟩ := hfound
        obtain ⟨hfits, hfits', hle⟩ := hvalid
        simp only [hcut, readId_eq_ok_iff.mpr ⟨hbefore, hfits⟩,
          readId_eq_ok_iff.mpr ⟨hafter, hfits'⟩, if_pos hle, Item.span]

theorem Item.Written.chars (h : item.Written text) (hc : c ∈ text) :
    isBlank c = true ∨ c = '+' ∨ c = '-' ∨ c.isDigit = true := by
  cases h with
  | one h => exact h.chars hc
  | range hfirst hlast =>
    rcases List.mem_append.mp hc with hc | hc
    · exact hfirst.chars hc
    · rcases List.mem_cons.mp hc with rfl | hc
      · exact .inr (.inr (.inl rfl))
      · exact hlast.chars hc

end Items

/-! ## Lists of items -/

section Lists

variable {items spec : List Char} {texts : List (List Char)} {spans : List IdSpan} {s : Selection}

theorem readAll_eq_ok_iff :
    readAll items texts = .ok spans ↔
      ∃ list : List Item, List.Forall₂ Item.Written list texts ∧ (∀ item ∈ list, item.Valid) ∧
        spans = list.map Item.span := by
  induction texts generalizing spans with
  | nil =>
    simp only [readAll, Except.ok.injEq, List.forall₂_nil_right_iff]
    constructor
    · intro h
      exact ⟨[], rfl, by simp, h.symm⟩
    · intro ⟨list, hlist, _, hspans⟩
      rw [hspans, hlist]
      rfl
  | cons text rest ih =>
    rw [readAll]
    constructor
    · intro hread
      cases hitem : readItem items (trim text) with
      | error e => simp [hitem] at hread
      | ok span =>
        simp only [hitem, map_eq_ok_iff] at hread
        obtain ⟨later, hlater, rfl⟩ := hread
        obtain ⟨list, hwritten, hvalid, rfl⟩ := ih.mp hlater
        obtain ⟨item, hfound, hitemValid, rfl⟩ := readItem_eq_ok_iff.mp hitem
        exact ⟨item :: list, .cons (written_iff_found.mpr hfound) hwritten,
          List.forall_mem_cons.mpr ⟨hitemValid, hvalid⟩, rfl⟩
    · intro ⟨list, hwritten, hvalid, hspans⟩
      cases hwritten with
      | @cons item _ list _ hitem hrest =>
        obtain ⟨hitemValid, hlater⟩ := List.forall_mem_cons.mp hvalid
        have hread : readItem items (trim text) = .ok item.span :=
          readItem_eq_ok_iff.mpr ⟨item, written_iff_found.mp hitem, hitemValid, rfl⟩
        simp only [hread, ih.mpr ⟨list, hrest, hlater, rfl⟩, hspans]
        rfl

theorem exists_written {list : List Item} (h : List.Forall₂ Item.Written list texts)
    {text : List Char} (htext : text ∈ texts) : ∃ item ∈ list, item.Written text := by
  induction h with
  | nil => cases htext
  | @cons item first list rest hitem hrest ih =>
    rcases List.mem_cons.mp htext with rfl | htext
    · exact ⟨item, List.mem_cons_self, hitem⟩
    · obtain ⟨later, hlater, hwritten⟩ := ih htext
      exact ⟨later, List.mem_cons_of_mem item hlater, hwritten⟩

theorem comma_not_mem {item : Item} {text : List Char} (h : item.Written text) : ',' ∉ text := by
  intro hmem
  have hchars := h.chars hmem
  revert hchars
  decide

theorem splitOn_written {list : List Item} (hne : list ≠ [])
    (h : List.Forall₂ Item.Written list texts) :
    ([','].intercalate texts).splitOn ',' = texts := by
  refine List.splitOn_intercalate ',' ?_ ?_
  · intro text htext
    obtain ⟨item, _, hitem⟩ := exists_written h htext
    exact comma_not_mem hitem
  · intro hnil
    rw [hnil, List.forall₂_nil_right_iff] at h
    exact hne h

/-- A list of items is not mistaken for the word that selects everything. -/
theorem not_padded_all {list : List Item} (h : List.Forall₂ Item.Written list texts) :
    ¬ Padded "all".toList ([','].intercalate texts) := by
  intro ⟨before, after, _, _, hall⟩
  have hmem : 'a' ∈ [','].intercalate texts := by
    rw [hall]
    simp
  obtain hsep | ⟨text, htext, hchar⟩ := mem_of_mem_intercalate hmem
  · exact absurd hsep (by decide)
  · obtain ⟨item, _, hwritten⟩ := exists_written h htext
    have hchars := hwritten.chars hchar
    revert hchars
    decide

theorem readItems_eq_ok_iff :
    readItems spec = .ok s ↔
      (Padded "all".toList spec ∧ s = .all) ∨
      ∃ (list : List Item) (texts : List (List Char)), list ≠ [] ∧ (∀ item ∈ list, item.Valid) ∧
        List.Forall₂ Item.Written list texts ∧ spec = [','].intercalate texts ∧
        s = .only (list.map Item.span) := by
  have hall : trim "all".toList = "all".toList := by decide
  have hpadded : trim spec = "all".toList ↔ Padded "all".toList spec :=
    ⟨fun h => h ▸ padded_trim spec, fun h => h.trim_eq.trans hall⟩
  rw [readItems]
  by_cases h : trim spec = "all".toList
  · rw [if_pos h, Except.ok.injEq]
    constructor
    · intro hs
      exact .inl ⟨hpadded.mp h, hs.symm⟩
    · intro hs
      rcases hs with ⟨_, hs⟩ | ⟨list, texts, _, _, hwritten, hspec, _⟩
      · exact hs.symm
      · exact absurd (hspec ▸ hpadded.mp h) (not_padded_all hwritten)
  · rw [if_neg h, map_eq_ok_iff]
    constructor
    · intro ⟨spans, hread, hs⟩
      obtain ⟨list, hwritten, hvalid, rfl⟩ := readAll_eq_ok_iff.mp hread
      refine .inr ⟨list, spec.splitOn ',', ?_, hvalid, hwritten,
        (List.intercalate_splitOn ',').symm, hs⟩
      intro hlist
      rw [hlist, List.forall₂_nil_left_iff] at hwritten
      exact List.splitOn_ne_nil _ _ hwritten
    · intro hs
      rcases hs with ⟨hspec, _⟩ | ⟨list, texts, hne, hvalid, hwritten, hspec, hs⟩
      · exact absurd (hpadded.mpr hspec) h
      · have htexts : spec.splitOn ',' = texts := hspec ▸ splitOn_written hne hwritten
        exact ⟨_, readAll_eq_ok_iff.mpr ⟨list, htexts ▸ hwritten, hvalid, rfl⟩, hs⟩

theorem contains_iff (span : IdSpan) (id : Int) :
    span.contains id = true ↔ span.first ≤ id ∧ id ≤ span.last := by
  simp [IdSpan.contains]

theorem contains_spans (list : List Item) (id : Int) :
    (Selection.only (list.map Item.span)).contains id = true ↔ ∃ item ∈ list, item.Selects id := by
  have hspan : ∀ item : Item, item.span.contains id = true ↔ item.Selects id := by
    intro item
    rw [contains_iff]
    cases item with
    | one selected =>
      simp only [Item.span, Item.Selects]
      omega
    | range first last => rfl
  simp only [contains, List.any_map, List.any_eq_true, Function.comp_apply, hspan]

/-- An item that is wrong is not a valid item written in another way. -/
theorem Faulty.not_valid {text : List Char} (h : Faulty text) {item : Item}
    (hwritten : item.Written text) : ¬ item.Valid := by
  intro hvalid
  cases h with
  | empty hblank =>
    have hnil : trim text = [] := by
      have := @trim_append_blank text hblank []
      rwa [List.nil_append] at this
    exact not_found_nil item (hnil ▸ written_iff_found.mp hwritten)
  | malformed hnone => exact hnone item hwritten
  | outOfRange hone hid =>
    obtain rfl := hwritten.unique hone
    exact hid hvalid
  | endOutOfRange hrange hends =>
    obtain rfl := hwritten.unique hrange
    exact hends ⟨hvalid.1, hvalid.2.1⟩
  | reversed hrange hends =>
    obtain rfl := hwritten.unique hrange
    exact absurd hvalid.2.2 (by omega)

end Lists

/-- The expression with these texts between commas. -/
def expression (texts : List (List Char)) : String :=
  "select=" ++ String.ofList ([','].intercalate texts)

theorem parse_eq_readItems (spec : List Char) :
    parse ("select=" ++ String.ofList spec) = readItems spec := by
  have hstart : dropStart? "select=".toList ("select=" ++ String.ofList spec).toList = some spec :=
    dropStart?_eq_some_iff.mpr (by rw [String.toList_append, @String.toList_ofList spec])
  rw [parse, hstart]

theorem exists_of_parse {text : String} {s : Selection} (h : parse text = .ok s) :
    ∃ spec, text = "select=" ++ String.ofList spec ∧ readItems spec = .ok s := by
  rw [parse] at h
  split at h
  · rename_i spec hstart
    refine ⟨spec, String.toList_injective ?_, h⟩
    rw [String.toList_append, @String.toList_ofList spec]
    exact dropStart?_eq_some_iff.mp hstart
  · cases h

/-- An expression means what it says. Items that are in range and not reversed select the ids that
they name and no others, however their numbers are spelled and whatever blanks stand around them; any
integer may be written in decimal. Nothing else is accepted but `all`, with or without blanks around
it. One faulty item refuses the whole expression. -/
theorem parse_reads_what_is_written :
    (∀ (items : List Item) (texts : List (List Char)), items ≠ [] →
      (∀ item ∈ items, item.Valid) → List.Forall₂ Item.Written items texts →
        ∃ s, parse (expression texts) = .ok s ∧ s.isAll = false ∧
          ∀ id, s.contains id = true ↔ ∃ item ∈ items, item.Selects id) ∧
    (∀ (n : Int) (before after : List Char), (∀ c ∈ before, isBlank c = true) →
      (∀ c ∈ after, isBlank c = true) → Spells (before ++ (toString n).toList ++ after) n) ∧
    (∀ (text : String) (s : Selection), parse text = .ok s →
      (∃ spec, text = "select=" ++ String.ofList spec ∧ Padded "all".toList spec ∧ s = .all) ∨
      ∃ (items : List Item) (texts : List (List Char)), items ≠ [] ∧ (∀ item ∈ items, item.Valid) ∧
        List.Forall₂ Item.Written items texts ∧ text = expression texts ∧
        s = .only (items.map Item.span)) ∧
    (∀ texts : List (List Char), (∀ text ∈ texts, ',' ∉ text) →
      ¬ Padded "all".toList ([','].intercalate texts) → (∃ text ∈ texts, Faulty text) →
        ∃ e, parse (expression texts) = .error e) := by
  refine ⟨?_, ?_, ?_, ?_⟩
  · intro items texts hne hvalid hwritten
    refine ⟨.only (items.map Item.span), ?_, rfl, contains_spans items⟩
    rw [expression, parse_eq_readItems, readItems_eq_ok_iff]
    exact .inr ⟨items, texts, hne, hvalid, hwritten, rfl, rfl⟩
  · intro n before after hbefore hafter
    exact ⟨_, numeral_toString n, before, after, hbefore, hafter, rfl⟩
  · intro text s hparse
    obtain ⟨spec, htext, hread⟩ := exists_of_parse hparse
    rcases readItems_eq_ok_iff.mp hread with
      ⟨hall, hs⟩ | ⟨items, texts, hne, hvalid, hwritten, hspec, hs⟩
    · exact .inl ⟨spec, htext, hall, hs⟩
    · rw [hspec] at htext
      exact .inr ⟨items, texts, hne, hvalid, hwritten, htext, hs⟩
  · intro texts hcommas hnotAll ⟨text, htext, hfaulty⟩
    rw [expression, parse_eq_readItems]
    cases hread : readItems ([','].intercalate texts) with
    | error e => exact ⟨e, rfl⟩
    | ok s =>
      rcases readItems_eq_ok_iff.mp hread with
        ⟨hall, _⟩ | ⟨items, written, hne, hvalid, hwritten, hspec, _⟩
      · exact absurd hall hnotAll
      · have hsame : texts = written := by
          have hpieces := List.splitOn_intercalate ',' hcommas (List.ne_nil_of_mem htext)
          rw [hspec, splitOn_written hne hwritten] at hpieces
          exact hpieces.symm
        obtain ⟨item, hitem, hspelled⟩ := exists_written hwritten (hsame ▸ htext)
        exact absurd (hvalid item hitem) (hfaulty.not_valid hspelled)

/-- A range of negative ids from the first one of 64 bits on, a number with a sign and zeros, and the
last one. -/
def oddlyWritten : List (List Char) :=
  [" -9223372036854775808 - -5\t".toList, "\u2003+007".toList, "9223372036854775807".toList]

theorem oddlyWritten_read :
    (∃ s, parse (expression oddlyWritten) = .ok s ∧ s.isAll = false ∧ s.contains (-5) = true ∧
      s.contains (-4) = false ∧ s.contains 7 = true ∧
      s.contains (-9223372036854775808) = true) ∧
    ∃ e, parse (expression ["1".toList, "5-2".toList]) = .error e := by
  have hblank : ∀ {gap : List Char}, allBlank gap = true → ∀ c ∈ gap, isBlank c = true :=
    List.all_eq_true.mp
  have hfirst : Numeral "-9223372036854775808".toList (-9223372036854775808) :=
    .minus (digits_of_all rfl rfl)
  have hlast : Numeral "-5".toList (-5) := .minus (digits_of_all rfl rfl)
  have hseven : Numeral "+007".toList 7 := .plus (digits_of_all rfl rfl)
  have hmost : Numeral "9223372036854775807".toList 9223372036854775807 :=
    .plain (digits_of_all rfl rfl)
  have hwritten : List.Forall₂ Item.Written
      [.range (-9223372036854775808) (-5), .one 7, .one 9223372036854775807] oddlyWritten :=
    .cons (.range ⟨_, hfirst, [' '], [' '], hblank rfl, hblank rfl, rfl⟩
        ⟨_, hlast, [' '], ['\t'], hblank rfl, hblank rfl, rfl⟩)
      (.cons (.one ⟨_, hseven, ['\u2003'], [], hblank rfl, hblank rfl, rfl⟩)
        (.cons (.one ⟨_, hmost, padded_self _⟩) .nil))
  obtain ⟨s, hparse, hall, hcontains⟩ :=
    parse_reads_what_is_written.1 _ _ (List.cons_ne_nil _ _) (by decide) hwritten
  have hreversed : Item.Written (.range 5 2) "5-2".toList :=
    .range ⟨"5".toList, .plain (digits_of_all rfl rfl), padded_self _⟩
      ⟨"2".toList, .plain (digits_of_all rfl rfl), padded_self _⟩
  refine ⟨⟨s, hparse, hall, ?_, ?_, ?_, ?_⟩, ?_⟩
  · exact (hcontains _).mpr ⟨_, List.mem_cons_self, by decide, by decide⟩
  · rw [Bool.eq_false_iff, ne_eq, hcontains]
    simp [Item.Selects]
  · exact (hcontains _).mpr ⟨.one 7, by decide, rfl⟩
  · exact (hcontains _).mpr ⟨_, List.mem_cons_self, by decide, by decide⟩
  · refine parse_reads_what_is_written.2.2.2 ["1".toList, "5-2".toList] (by decide) ?_
      ⟨_, by decide, .reversed hreversed (by decide)⟩
    intro h
    exact absurd h.trim_eq (by decide)

end Selection

end Retrace
