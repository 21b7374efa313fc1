import Mathlib.Data.List.DropRight
import Retrace.Text.Cut

/-! Cutting and joining. What is cut at the first or the last occurrence of a separator is put
together again by it, and in one way only. Pieces hold no separator, words no blank, and trimmed text
is not trimmed again. -/

namespace Retrace.Text

section Cut

variable {sep : Char} {text before after : List Char}

theorem cutFirst_append (h : sep ∉ before) (after : List Char) :
    cutFirst sep (before ++ sep :: after) = some (before, after) := by
  induction before with
  | nil => simp [cutFirst]
  | cons c rest ih =>
    obtain ⟨hc, hrest⟩ := not_or.mp (fun hmem => h (List.mem_cons.mpr hmem))
    have hne : (c != sep) = true := bne_iff_ne.mpr (Ne.symm hc)
    have hih := ih hrest
    simp only [cutFirst, List.cons_append, List.dropWhile_cons, List.takeWhile_cons, hne, if_true]
      at hih ⊢
    split at hih <;> simp_all

theorem cutFirst_eq_some_iff :
    cutFirst sep text = some (before, after) ↔ sep ∉ before ∧ text = before ++ sep :: after := by
  refine ⟨fun h => ⟨?_, eq_append_of_cutFirst h⟩, fun ⟨hbefore, htext⟩ => ?_⟩
  · unfold cutFirst at h
    split at h
    · cases h
    · obtain ⟨rfl, _⟩ := Prod.mk.inj (Option.some.inj h)
      intro hmem
      simpa using List.all_eq_true.mp List.all_takeWhile sep hmem
  · rw [htext, cutFirst_append hbefore]

theorem cutLast_eq_some_iff :
    cutLast sep text = some (before, after) ↔ sep ∉ after ∧ text = before ++ sep :: after := by
  rw [cutLast, Option.map_eq_some_iff]
  constructor
  · rintro ⟨⟨after', before'⟩, hcut, heq⟩
    obtain ⟨rfl, rfl⟩ := Prod.mk.inj heq
    obtain ⟨hafter, htext⟩ := cutFirst_eq_some_iff.mp hcut
    refine ⟨by simpa using hafter, ?_⟩
    simpa using congrArg List.reverse htext
  · rintro ⟨hafter, rfl⟩
    refine ⟨(after.reverse, before.reverse), cutFirst_eq_some_iff.mpr ⟨by simpa using hafter, ?_⟩, ?_⟩
    · simp
    · simp

theorem cutLast_append (h : sep ∉ after) (before : List Char) :
    cutLast sep (before ++ sep :: after) = some (before, after) :=
  cutLast_eq_some_iff.mpr ⟨h, rfl⟩

theorem cutLast_eq_none_iff : cutLast sep text = none ↔ sep ∉ text := by
  rw [cutLast, Option.map_eq_none_iff, cutFirst_eq_none_iff, List.mem_reverse]

/-- A text that has a separator is cut in one way at the first one. -/
theorem append_cons_inj {before' after' : List Char} (h : sep ∉ before) (h' : sep ∉ before')
    (heq : before ++ sep :: after = before' ++ sep :: after') : before = before' ∧ after = after' := by
  have hcut := cutFirst_append h after
  rw [heq, cutFirst_append h'] at hcut
  exact (Prod.mk.inj (Option.some.inj hcut)).imp Eq.symm Eq.symm

end Cut

section Pieces

variable {text piece word : List Char} {c : Char}

theorem mem_of_mem_splitOnP {p : Char → Bool} (hpiece : piece ∈ text.splitOnP p) (hc : c ∈ piece) :
    c ∈ text ∧ p c = false := by
  induction text generalizing piece with
  | nil =>
    rw [List.splitOnP_nil, List.mem_singleton] at hpiece
    subst hpiece
    cases hc
  | cons d rest ih =>
    rw [List.splitOnP_cons_eq_if_modifyHead] at hpiece
    split at hpiece
    · rcases List.mem_cons.mp hpiece with rfl | hpiece
      · cases hc
      · exact (ih hpiece hc).imp_left (List.mem_cons_of_mem d)
    · rename_i hd
      cases hsplit : rest.splitOnP p with
      | nil => simp [hsplit] at hpiece
      | cons first others =>
        rw [hsplit, List.modifyHead_cons] at hpiece
        rcases List.mem_cons.mp hpiece with rfl | hpiece
        · rcases List.mem_cons.mp hc with rfl | hc
          · exact ⟨List.mem_cons_self, by simpa using hd⟩
          · exact (ih (hsplit ▸ List.mem_cons_self) hc).imp_left (List.mem_cons_of_mem d)
        · exact (ih (hsplit ▸ List.mem_cons_of_mem first hpiece) hc).imp_left
            (List.mem_cons_of_mem d)

/-- What stands in a joined text stands in the separator or in a piece. -/
theorem mem_of_mem_intercalate {sep : List Char} {pieces : List (List Char)}
    (h : c ∈ sep.intercalate pieces) : c ∈ sep ∨ ∃ piece ∈ pieces, c ∈ piece := by
  induction pieces with
  | nil => simp at h
  | cons piece more ih =>
    cases more with
    | nil =>
      rw [List.intercalate_singleton] at h
      exact .inr ⟨piece, List.mem_cons_self, h⟩
    | cons next more =>
      rw [List.intercalate_cons_cons] at h
      rcases List.mem_append.mp h with h | h
      · rcases List.mem_append.mp h with h | h
        · exact .inr ⟨piece, List.mem_cons_self, h⟩
        · exact .inl h
      · obtain hsep | ⟨later, hlater, hc⟩ := ih h
        · exact .inl hsep
        · exact .inr ⟨later, List.mem_cons_of_mem piece hlater, hc⟩

theorem mem_of_mem_words (hword : word ∈ words text) (hc : c ∈ word) :
    c ∈ text ∧ isBlank c = false :=
  mem_of_mem_splitOnP (List.mem_filter.mp hword).1 hc

end Pieces

section Trim

variable {text : List Char} {c : Char}

theorem mem_of_mem_trim (h : c ∈ trim text) : c ∈ text := by
  have hend := (List.dropWhile_suffix _).subset (List.mem_reverse.mp h)
  exact (List.dropWhile_suffix _).subset (List.mem_reverse.mp hend)

theorem trim_cons_of_isBlank (h : isBlank c = true) (text : List Char) :
    trim (c :: text) = trim text := by
  rw [trim, trimStart, List.dropWhile_cons_of_pos h]
  rfl

theorem trimStart_eq_self_iff : trimStart text = text ↔ ∀ c ∈ text.head?, isBlank c = false := by
  rw [trimStart, List.dropWhile_eq_self_iff]
  cases text <;> simp

theorem trimStart_trimStart (text : List Char) : trimStart (trimStart text) = trimStart text :=
  List.dropWhile_idempotent isBlank text

theorem trimEnd_trimEnd (text : List Char) : trimEnd (trimEnd text) = trimEnd text := by
  rw [trimEnd, trimEnd, List.reverse_reverse, List.dropWhile_idempotent]

/-- Text that begins with no blank begins with none when its end is trimmed. -/
theorem trimStart_trimEnd (h : trimStart text = text) : trimStart (trimEnd text) = trimEnd text := by
  have hstart : trimEnd text <+: text := by
    rw [← List.reverse_suffix, trimEnd, List.reverse_reverse]
    exact List.dropWhile_suffix _
  refine trimStart_eq_self_iff.mpr fun c hc => trimStart_eq_self_iff.mp h c ?_
  obtain ⟨rest, hrest⟩ := hstart
  rw [← hrest, List.head?_append, Option.mem_def.mp hc]
  rfl

theorem trim_trim (text : List Char) : trim (trim text) = trim text := by
  have hstart : trimStart (trim text) = trim text := trimStart_trimEnd (trimStart_trimStart text)
  rw [trim, hstart]
  exact trimEnd_trimEnd _

end Trim

end Retrace.Text
