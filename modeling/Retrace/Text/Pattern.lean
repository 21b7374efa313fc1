/-! Patterns of characters, as in regular expressions, that capture parts of a text. A pattern may
match in several ways. Repetitions and options are greedy: a longer repetition comes before a
shorter one, and what is optional is left out last. `ways` lists how a pattern matches beginnings of
a text, the preferred way first, and `captures?` is what the first way to match the whole text
captures. `Accepts` says what a pattern matches without regard to the order. -/

namespace Retrace.Text

inductive Pattern where
  /-- One character of a class. -/
  | one (accepts : Char → Bool)
  /-- Any number of characters of a class. -/
  | many (accepts : Char → Bool)
  | andThen (first second : Pattern)
  | perhaps (p : Pattern)
  /-- What the pattern matches, under a name. -/
  | capture (name : String) (p : Pattern)

namespace Pattern

/-- Captured parts by name. -/
abbrev Captures := List (String × List Char)

/-- A way to match the beginning of a text. -/
structure Way where
  taken : List Char
  rest : List Char
  captured : Captures

/-- The ways to take characters of a class, with what they leave, the longest first. -/
def runs (accepts : Char → Bool) : List Char → List (List Char × List Char)
  | [] => [([], [])]
  | c :: text =>
    if accepts c then
      (runs accepts text).map (fun (taken, rest) => (c :: taken, rest)) ++ [([], c :: text)]
    else [([], c :: text)]

def ways : Pattern → List Char → List Way
  | one _, [] => []
  | one accepts, c :: text => if accepts c then [⟨[c], text, []⟩] else []
  | many accepts, text => (runs accepts text).map fun (taken, rest) => ⟨taken, rest, []⟩
  | andThen first second, text =>
    (first.ways text).flatMap fun way =>
      (second.ways way.rest).map fun next =>
        ⟨way.taken ++ next.taken, next.rest, way.captured ++ next.captured⟩
  | perhaps p, text => p.ways text ++ [⟨[], text, []⟩]
  | capture name p, text =>
    (p.ways text).map fun way => ⟨way.taken, way.rest, (name, way.taken) :: way.captured⟩

/-- What the pattern captures of a whole text. -/
def captures? (p : Pattern) (text : List Char) : Option Captures :=
  ((p.ways text).find? fun way => way.rest.isEmpty).map Way.captured

/-- Can the pattern match all of a text and capture these parts of it? -/
def Accepts : Pattern → List Char → Captures → Prop
  | one accepts, text, captured => ∃ c, accepts c ∧ text = [c] ∧ captured = []
  | many accepts, text, captured => (∀ c ∈ text, accepts c) ∧ captured = []
  | andThen first second, text, captured =>
    ∃ before after captured₁ captured₂, text = before ++ after ∧ captured = captured₁ ++ captured₂ ∧
      first.Accepts before captured₁ ∧ second.Accepts after captured₂
  | perhaps p, text, captured => p.Accepts text captured ∨ text = [] ∧ captured = []
  | capture name p, text, captured =>
    ∃ inner, captured = (name, text) :: inner ∧ p.Accepts text inner

section Ways

variable {accepts : Char → Bool} {text taken rest : List Char} {p : Pattern} {captured : Captures}

theorem mem_runs_iff :
    (taken, rest) ∈ runs accepts text ↔ text = taken ++ rest ∧ ∀ c ∈ taken, accepts c := by
  induction text generalizing taken with
  | nil =>
    rw [runs, List.mem_singleton, Prod.mk.injEq]
    constructor
    · rintro ⟨rfl, rfl⟩
      simp
    · rintro ⟨htext, _⟩
      exact List.append_eq_nil_iff.mp htext.symm
  | cons c text ih =>
    cases taken with
    | nil => by_cases hc : accepts c <;> simp [runs, hc, eq_comm (a := rest)]
    | cons d taken =>
      by_cases hc : accepts c
      · simp only [runs, hc, if_true, List.mem_append, List.mem_map, Prod.exists, Prod.mk.injEq,
          List.cons.injEq, List.mem_singleton, reduceCtorEq, false_and, or_false, List.cons_append,
          List.forall_mem_cons]
        constructor
        · rintro ⟨taken, rest, hmem, ⟨rfl, rfl⟩, rfl⟩
          obtain ⟨rfl, htaken⟩ := ih.mp hmem
          exact ⟨⟨rfl, rfl⟩, hc, htaken⟩
        · rintro ⟨⟨rfl, htext⟩, _, htaken⟩
          exact ⟨taken, rest, ih.mpr ⟨htext, htaken⟩, ⟨rfl, rfl⟩, rfl⟩
      · simp only [runs, hc, Bool.false_eq_true, if_false, List.mem_singleton, Prod.mk.injEq,
          reduceCtorEq, false_and, List.cons_append, List.cons.injEq, List.forall_mem_cons, false_iff]
        rintro ⟨⟨rfl, _⟩, hd, _⟩
        exact hc hd

/-- A text of one class is taken whole at first. -/
theorem runs_of_forall (h : ∀ c ∈ text, accepts c) :
    ∃ shorter, runs accepts text = (text, []) :: shorter := by
  induction text with
  | nil => exact ⟨[], rfl⟩
  | cons c text ih =>
    obtain ⟨hc, htext⟩ := List.forall_mem_cons.mp h
    obtain ⟨shorter, hruns⟩ := ih htext
    exact ⟨_, by rw [runs, if_pos hc, hruns, List.map_cons, List.cons_append]⟩

/-- The ways take the beginnings that the pattern accepts. -/
theorem mem_ways_iff :
    ⟨taken, rest, captured⟩ ∈ p.ways text ↔ text = taken ++ rest ∧ p.Accepts taken captured := by
  induction p generalizing text taken rest captured with
  | one accepts =>
    cases text with
    | nil =>
      simp only [ways, List.not_mem_nil, false_iff, Accepts]
      rintro ⟨htext, c, _, rfl, _⟩
      cases htext
    | cons c text =>
      by_cases hc : accepts c
      · simp only [ways, hc, if_true, List.mem_singleton, Way.mk.injEq, Accepts]
        constructor
        · rintro ⟨rfl, rfl, rfl⟩
          exact ⟨rfl, c, hc, rfl, rfl⟩
        · rintro ⟨htext, d, _, rfl, rfl⟩
          obtain ⟨rfl, rfl⟩ := List.cons.inj htext
          exact ⟨rfl, rfl, rfl⟩
      · simp only [ways, hc, Bool.false_eq_true, if_false, List.not_mem_nil, false_iff, Accepts]
        rintro ⟨htext, d, hd, rfl, rfl⟩
        obtain ⟨rfl, rfl⟩ := List.cons.inj htext
        exact hc hd
  | many accepts =>
    simp only [ways, List.mem_map, Prod.exists, Way.mk.injEq, Accepts]
    constructor
    · rintro ⟨taken, rest, hmem, rfl, rfl, rfl⟩
      obtain ⟨htext, htaken⟩ := mem_runs_iff.mp hmem
      exact ⟨htext, htaken, rfl⟩
    · rintro ⟨htext, htaken, rfl⟩
      exact ⟨taken, rest, mem_runs_iff.mpr ⟨htext, htaken⟩, rfl, rfl, rfl⟩
  | andThen first second ihFirst ihSecond =>
    simp only [ways, List.mem_flatMap, List.mem_map, Way.mk.injEq, Accepts]
    constructor
    · rintro ⟨way, hway, next, hnext, rfl, rfl, rfl⟩
      obtain ⟨rfl, hfirst⟩ := ihFirst.mp hway
      obtain ⟨hrest, hsecond⟩ := ihSecond.mp hnext
      exact ⟨by rw [hrest, List.append_assoc], _, _, _, _, rfl, rfl, hfirst, hsecond⟩
    · rintro ⟨rfl, before, after, captured₁, captured₂, rfl, rfl, hfirst, hsecond⟩
      exact ⟨_, ihFirst.mpr ⟨List.append_assoc _ _ _, hfirst⟩, _, ihSecond.mpr ⟨rfl, hsecond⟩, rfl,
        rfl, rfl⟩
  | perhaps p ih =>
    simp only [ways, List.mem_append, List.mem_singleton, Way.mk.injEq, ih, Accepts]
    constructor
    · rintro (⟨htext, hp⟩ | ⟨rfl, rfl, rfl⟩)
      · exact ⟨htext, .inl hp⟩
      · exact ⟨rfl, .inr ⟨rfl, rfl⟩⟩
    · rintro ⟨htext, hp | ⟨rfl, rfl⟩⟩
      · exact .inl ⟨htext, hp⟩
      · exact .inr ⟨rfl, htext.symm, rfl⟩
  | capture name p ih =>
    simp only [ways, List.mem_map, Way.mk.injEq, Accepts]
    constructor
    · rintro ⟨way, hway, rfl, rfl, rfl⟩
      obtain ⟨htext, hp⟩ := ih.mp hway
      exact ⟨htext, _, rfl, hp⟩
    · rintro ⟨htext, inner, rfl, hp⟩
      exact ⟨_, ih.mpr ⟨htext, hp⟩, rfl, rfl, rfl⟩

theorem accepts_of_captures? (h : p.captures? text = some captured) :
    p.Accepts text captured := by
  obtain ⟨⟨taken, rest, _⟩, hfind, rfl⟩ := Option.map_eq_some_iff.mp h
  have hrest : rest.isEmpty := List.find?_some (p := fun way : Way => way.rest.isEmpty) hfind
  obtain ⟨rfl, haccepts⟩ := mem_ways_iff.mp (List.mem_of_find?_eq_some hfind)
  rwa [List.isEmpty_iff.mp hrest, List.append_nil]

/-- A text is matched if and only if it is accepted. -/
theorem isSome_captures?_iff : (p.captures? text).isSome ↔ ∃ captured, p.Accepts text captured := by
  constructor
  · intro h
    obtain ⟨captured, hcaptured⟩ := Option.isSome_iff_exists.mp h
    exact ⟨captured, accepts_of_captures? hcaptured⟩
  · rintro ⟨captured, haccepts⟩
    rw [captures?, Option.isSome_map, List.find?_isSome]
    exact ⟨_, mem_ways_iff.mpr ⟨(List.append_nil text).symm, haccepts⟩, rfl⟩

end Ways

end Pattern

end Retrace.Text
