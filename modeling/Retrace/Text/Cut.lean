import Retrace.Text.Blank

/-! Cutting text at a separator. `cutLast` cuts at the last occurrence of a character and
`cutFirst` at the first; both leave the separator out, and answer `none` if it does not occur.
`lines` are the lines of a file: a line ends with a line feed, a carriage return right before the
line feed belongs to the line end, and text after the last line feed is a line of its own. -/

namespace Retrace.Text

def cutFirst (sep : Char) (text : List Char) : Option (List Char × List Char) :=
  match text.dropWhile (· != sep) with
  | [] => none
  | _ :: after => some (text.takeWhile (· != sep), after)

def cutLast (sep : Char) (text : List Char) : Option (List Char × List Char) :=
  (cutFirst sep text.reverse).map fun (after, before) => (before.reverse, after.reverse)

/-- What follows the last separator, or the whole text without one. -/
def afterLast (sep : Char) (text : List Char) : List Char :=
  match cutLast sep text with
  | some (_, after) => after
  | none => text

/-- What follows the given start of the text, if the text starts that way. -/
def dropStart? : List Char → List Char → Option (List Char)
  | [], text => some text
  | c :: start, d :: text => if c = d then dropStart? start text else none
  | _ :: _, [] => none

def dropReturn (line : List Char) : List Char :=
  if line.getLast? = some '\r' then line.dropLast else line

def lines (text : List Char) : List (List Char) :=
  let pieces := text.splitOn '\n'
  pieces.dropLast.map dropReturn ++ (pieces.getLast?.toList.filter (!·.isEmpty))

theorem cutFirst_eq_none_iff {sep : Char} {text : List Char} :
    cutFirst sep text = none ↔ sep ∉ text := by
  induction text with
  | nil => simp [cutFirst]
  | cons c text ih =>
    by_cases h : c = sep
    · subst h; simp [cutFirst]
    · have hb : (c != sep) = true := by simpa using h
      have hs : sep ≠ c := fun e => h e.symm
      simp only [List.mem_cons, hs, false_or]
      rw [← ih]
      simp only [cutFirst, List.dropWhile_cons, hb, if_true, List.takeWhile_cons]
      cases List.dropWhile (· != sep) text <;> simp

theorem eq_append_of_cutFirst {sep : Char} {text before after : List Char}
    (h : cutFirst sep text = some (before, after)) : text = before ++ sep :: after := by
  unfold cutFirst at h
  split at h
  · simp at h
  · rename_i c rest hd
    simp only [Option.some.injEq, Prod.mk.injEq] at h
    obtain ⟨hb, rfl⟩ := h
    have hc : (c != sep) = false := by
      have hne : text.dropWhile (· != sep) ≠ [] := by simp [hd]
      have hh := List.head_dropWhile_not (fun x => x != sep) hne
      simpa [hd] using hh
    have hc' : c = sep := by simpa using hc
    have happ := List.takeWhile_append_dropWhile (p := fun x => x != sep) (l := text)
    rw [hd, hc', hb] at happ
    exact happ.symm

end Retrace.Text
