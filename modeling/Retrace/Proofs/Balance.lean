import Retrace.Proofs.Moves

/-! Balance. Without call markers, the events that say something about invocations are a word of
beginnings and ends. It is balanced if every end closes the innermost open beginning of its own
operation. What is open after a word is determined by the word, and the words that leave something
open are those that go on to a balanced one. -/

namespace Retrace

namespace Event

def begins : Event → Bool
  | before .. => true
  | _ => false

def ends (e : Event) : Bool :=
  e.ending?.isSome

/-- The events that say something about invocations. -/
def word (es : List Event) : List Event :=
  es.filter fun e => !e.isIgnored

@[simp] theorem word_nil : word [] = [] := rfl

@[simp] theorem word_append (ds es : List Event) : word (ds ++ es) = word ds ++ word es :=
  List.filter_append ds es

theorem word_singleton (e : Event) : word [e] = if e.isIgnored then [] else [e] := by
  rw [word, List.filter_singleton]
  cases e.isIgnored <;> rfl

theorem ends_of_ending {e : Event} {kind : OperationKind} {stamp : Stamp}
    {operation : OperationRef} (h : e.ending? = some (kind, stamp, operation)) :
    e.ends = true ∧ e.begins = false ∧ e.isIgnored = false := by
  cases e <;> simp_all [ends, begins, isIgnored, ending?]

/-- How many operations have begun in a word and not ended. -/
def depth (w : List Event) : Nat :=
  w.countP begins - w.countP ends

end Event

open Event

/-- Is every beginning in the word closed by an end of the same operation, and is what stands between
them closed in itself? -/
inductive Balanced : List Event → Prop where
  | nil : Balanced []
  | pair {kind : OperationKind} {begunAt endedAt : Stamp} {operation : OperationRef} {e : Event}
      {inner rest : List Event} : e.ending? = some (kind, endedAt, operation) → Balanced inner →
      Balanced rest → Balanced (.before kind begunAt operation :: (inner ++ e :: rest))

/-- The invocations that begin and end in a word. The place of an invocation is the number of
beginnings before its own, and its depth the number of those that are open there. -/
inductive ClosedIn (w : List Event) : Invocation → Prop where
  | pair {earlier inner later : List Event} {kind : OperationKind} {begunAt endedAt : Stamp}
      {operation : OperationRef} {e : Event} :
      w = earlier ++ .before kind begunAt operation :: (inner ++ e :: later) → Balanced inner →
      e.ending? = some (kind, endedAt, operation) →
      ClosedIn w ⟨kind, operation, ⟨earlier.countP begins, depth earlier⟩, begunAt.timestamp,
        endedAt.timestamp, decide (0 < depth earlier)⟩

/-- A beginning that is open, with the number of beginnings before it. -/
structure Opening where
  kind : OperationKind
  stamp : Stamp
  operation : OperationRef
  rank : Nat

namespace Opening

def event (o : Opening) : Event :=
  .before o.kind o.stamp o.operation

/-- The invocation that ends with the opening when so many are open below it. -/
def endedAt (o : Opening) (depth : Nat) (time : Int) : Invocation :=
  ⟨o.kind, o.operation, ⟨o.rank, depth⟩, o.stamp.timestamp, time, decide (0 < depth)⟩

end Opening

/-- The beginnings that a word leaves open, innermost first. -/
inductive Leaves : List Event → List Opening → Prop where
  | closed {w : List Event} : Balanced w → Leaves w []
  | opening {w inner : List Event} {o : Opening} {opened : List Opening} : Leaves w opened →
      o.rank = w.countP begins → Balanced inner → Leaves (w ++ o.event :: inner) (o :: opened)

theorem Balanced.append {v w : List Event} (hv : Balanced v) (hw : Balanced w) :
    Balanced (v ++ w) := by
  induction hv with
  | nil => exact hw
  | pair hend hinner _ _ ih =>
    simp only [List.cons_append, List.append_assoc]
    exact .pair hend hinner ih

/-- A balanced word ends with an end, and what it closes is the last invocation of the outermost
ones. -/
theorem Balanced.of_snoc {w : List Event} {e : Event} (h : Balanced (w ++ [e])) :
    ∃ v inner kind begunAt endedAt operation, w = v ++ .before kind begunAt operation :: inner ∧
      Balanced v ∧ Balanced inner ∧ e.ending? = some (kind, endedAt, operation) := by
  generalize hword : w ++ [e] = word at h
  induction h generalizing w with
  | nil => simp at hword
  | @pair kind begunAt endedAt operation d inner rest hend hinner hrest _ ih =>
    rcases List.eq_nil_or_concat' rest with rfl | ⟨rest', last, rfl⟩
    · have hlast : w ++ [e] = (.before kind begunAt operation :: inner) ++ [d] := by simp [hword]
      obtain ⟨rfl, hd⟩ := List.append_inj' hlast rfl
      obtain rfl := List.singleton_inj.mp hd
      exact ⟨[], inner, kind, begunAt, endedAt, operation, rfl, .nil, hinner, hend⟩
    · have hlast : w ++ [e] =
          (.before kind begunAt operation :: (inner ++ d :: rest')) ++ [last] := by simp [hword]
      obtain ⟨rfl, he⟩ := List.append_inj' hlast rfl
      obtain rfl := List.singleton_inj.mp he
      obtain ⟨v, inner', kind', begunAt', endedAt', operation', rfl, hv, hinner', hend'⟩ := ih rfl
      exact ⟨.before kind begunAt operation :: (inner ++ d :: v), inner', kind', begunAt', endedAt',
        operation', by simp, .pair hend hinner hv, hinner', hend'⟩

namespace Leaves

variable {w : List Event} {opened : List Opening} {o : Opening} {e : Event}

theorem append {v : List Event} (h : Leaves w opened) (hv : Balanced v) :
    Leaves (w ++ v) opened := by
  cases h with
  | closed hw => exact .closed (hw.append hv)
  | opening hleaves hrank hinner =>
    rw [List.append_assoc, List.cons_append]
    exact .opening hleaves hrank (hinner.append hv)

theorem begin (h : Leaves w opened) (hrank : o.rank = w.countP begins) :
    Leaves (w ++ [o.event]) (o :: opened) :=
  .opening h hrank .nil

theorem close {endedAt : Stamp} (h : Leaves w (o :: opened))
    (hend : e.ending? = some (o.kind, endedAt, o.operation)) : Leaves (w ++ [e]) opened := by
  cases h with
  | opening hleaves hrank hinner =>
    rw [List.append_assoc, List.cons_append]
    exact hleaves.append (.pair hend hinner .nil)

/-- The end of a balanced part closes what the part has opened last. -/
theorem of_balanced_snoc {inner : List Event} (h : Leaves w opened)
    (hinner : Balanced (inner ++ [e])) :
    ∃ o endedAt, Leaves (w ++ inner) (o :: opened) ∧
      e.ending? = some (o.kind, endedAt, o.operation) := by
  obtain ⟨v, inner', kind, begunAt, endedAt, operation, rfl, hv, hinner', hend⟩ := hinner.of_snoc
  let o : Opening := ⟨kind, begunAt, operation, (w ++ v).countP begins⟩
  refine ⟨o, endedAt, ?_, hend⟩
  rw [← List.append_assoc]
  exact (h.append hv).opening (o := o) rfl hinner'

/-- The last event of a word has opened or closed the innermost invocation. -/
theorem of_snoc (h : Leaves (w ++ [e]) opened) :
    (∃ o below, opened = o :: below ∧ e = o.event ∧ o.rank = w.countP begins ∧ Leaves w below) ∨
      ∃ o endedAt, Leaves w (o :: opened) ∧ e.ending? = some (o.kind, endedAt, o.operation) := by
  generalize hword : w ++ [e] = word at h
  cases h with
  | closed hw =>
    subst hword
    exact .inr (of_balanced_snoc (.closed .nil) hw)
  | @opening v inner o below hleaves hrank hinner =>
    rcases List.eq_nil_or_concat' inner with rfl | ⟨inner', last, rfl⟩
    · obtain ⟨rfl, he⟩ := List.append_inj' hword rfl
      exact .inl ⟨o, below, rfl, List.singleton_inj.mp he, hrank, hleaves⟩
    · have hlast : w ++ [e] = (v ++ [o.event] ++ inner') ++ [last] := by simp [hword]
      obtain ⟨rfl, he⟩ := List.append_inj' hlast rfl
      obtain rfl := List.singleton_inj.mp he
      exact .inr ((hleaves.begin hrank).of_balanced_snoc hinner)

theorem of_nil (h : Leaves [] opened) : opened = [] := by
  generalize hword : [] = word at h
  cases h with
  | closed _ => rfl
  | opening _ _ _ => simp at hword

/-- What a word leaves open is determined. -/
theorem unique {others : List Opening} (h : Leaves w opened) (h' : Leaves w others) :
    opened = others := by
  induction w using List.reverseRecOn generalizing opened others with
  | nil => rw [h.of_nil, h'.of_nil]
  | append_singleton w e ih =>
    rcases h.of_snoc with ⟨o, below, rfl, rfl, hrank, hw⟩ | ⟨o, _, hw, hend⟩ <;>
      rcases h'.of_snoc with ⟨o', below', rfl, he, hrank', hw'⟩ | ⟨o', _, hw', hend'⟩
    · obtain ⟨kind, stamp, operation, rank⟩ := o
      obtain ⟨kind', stamp', operation', rank'⟩ := o'
      obtain ⟨rfl, rfl, rfl⟩ := Event.before.inj he
      rw [ih hw hw', show rank = rank' from hrank.trans hrank'.symm]
    · cases hend'
    · rw [he] at hend
      cases hend
    · exact (List.cons.inj (ih hw hw')).2

/-- An end after which the word still goes on to a balanced one is that of the innermost operation
that is open. -/
theorem head_of_end {others : List Opening} {kind : OperationKind} {endedAt : Stamp}
    {operation : OperationRef} (h : Leaves w opened) (h' : Leaves (w ++ [e]) others)
    (hend : e.ending? = some (kind, endedAt, operation)) :
    ∃ begunAt, (opened.map Opening.event).head? = some (.before kind begunAt operation) := by
  rcases h'.of_snoc with ⟨o, _, _, rfl, _⟩ | ⟨o, _, hw, hend'⟩
  · cases hend
  · obtain ⟨rfl, _, rfl⟩ := Prod.mk.inj (Option.some.inj (hend.symm.trans hend'))
    rw [h.unique hw]
    exact ⟨o.stamp, rfl⟩

/-- What goes on to a word that leaves something open does so itself. -/
theorem of_append {v : List Event} (h : Leaves (w ++ v) opened) : ∃ opened', Leaves w opened' := by
  induction v using List.reverseRecOn generalizing opened with
  | nil => exact ⟨opened, by simpa using h⟩
  | append_singleton v e ih =>
    rw [← List.append_assoc] at h
    rcases h.of_snoc with ⟨_, _, _, _, _, hw⟩ | ⟨_, _, hw, _⟩ <;> exact ih hw

/-- Ends of what is open, from the innermost on, make a word balanced. -/
theorem exists_balanced (h : Leaves w opened) : ∃ rest, Balanced (w ++ rest) := by
  induction opened generalizing w with
  | nil => cases h with
    | closed hw => exact ⟨[], by simpa using hw⟩
  | cons o below ih =>
    obtain ⟨rest, hrest⟩ := ih (h.close (e := .after o.kind o.stamp o.operation) rfl)
    exact ⟨_, by rwa [List.append_assoc] at hrest⟩

end Leaves

/-- The words that go on to a balanced one are those that leave something open, or nothing. -/
theorem exists_balanced_iff {w : List Event} :
    (∃ rest, Balanced (w ++ rest)) ↔ ∃ opened, Leaves w opened :=
  ⟨fun ⟨_, h⟩ => (Leaves.closed h).of_append, fun ⟨_, h⟩ => h.exists_balanced⟩

/-! ## Counting -/

theorem Balanced.countP {w : List Event} (h : Balanced w) : w.countP begins = w.countP ends := by
  induction h with
  | nil => rfl
  | pair hend _ _ hinner hrest =>
    obtain ⟨hends, hbegins, _⟩ := ends_of_ending hend
    have hbefore : ∀ kind stamp operation, (before kind stamp operation).begins = true ∧
        (before kind stamp operation).ends = false := fun _ _ _ => ⟨rfl, rfl⟩
    simp only [List.countP_cons, List.countP_append, hbefore, hends, hbegins, hinner, hrest]
    simp only [if_true, Bool.false_eq_true, if_false]
    omega

theorem Leaves.countP {w : List Event} {opened : List Opening} (h : Leaves w opened) :
    w.countP begins = w.countP ends + opened.length := by
  induction h with
  | closed hw => simpa using hw.countP
  | @opening w inner o opened _ _ hinner ih =>
    have hevent : o.event.begins = true ∧ o.event.ends = false := ⟨rfl, rfl⟩
    simp only [List.countP_append, List.countP_cons, hevent, hinner.countP, ih, List.length_cons]
    simp only [if_true, Bool.false_eq_true, if_false]
    omega

theorem Leaves.depth_eq {w : List Event} {opened : List Opening} (h : Leaves w opened) :
    depth w = opened.length := by
  rw [depth, h.countP, Nat.add_sub_cancel_left]

/-! ## What is closed -/

section Closed

variable {w : List Event} {i : Invocation} {e : Event}

theorem ClosedIn.append (h : ClosedIn w i) (v : List Event) : ClosedIn (w ++ v) i := by
  cases h with
  | @pair earlier inner later kind begunAt endedAt operation e hsplit hinner hend =>
    have hlonger : w ++ v =
        earlier ++ .before kind begunAt operation :: (inner ++ e :: (later ++ v)) := by
      simp [hsplit]
    exact .pair hlonger hinner hend

theorem ClosedIn.of_snoc (h : ClosedIn (w ++ [e]) i) :
    ClosedIn w i ∨ ∃ (o : Opening) (earlier inner : List Event) (endedAt : Stamp),
      w = earlier ++ o.event :: inner ∧ o.rank = earlier.countP begins ∧ Balanced inner ∧
      e.ending? = some (o.kind, endedAt, o.operation) ∧
      i = o.endedAt (depth earlier) endedAt.timestamp := by
  cases h with
  | @pair earlier inner later kind begunAt endedAt operation d hsplit hinner hend =>
    rcases List.eq_nil_or_concat' later with rfl | ⟨later', last, rfl⟩
    · have hlast : w ++ [e] = (earlier ++ .before kind begunAt operation :: inner) ++ [d] := by
        simp [hsplit]
      obtain ⟨hw, hd⟩ := List.append_inj' hlast rfl
      obtain rfl := List.singleton_inj.mp hd
      exact .inr ⟨⟨kind, begunAt, operation, earlier.countP begins⟩, earlier, inner, endedAt, hw, rfl,
        hinner, hend, rfl⟩
    · have hlast : w ++ [e] =
          (earlier ++ .before kind begunAt operation :: (inner ++ d :: later')) ++ [last] := by
        simp [hsplit]
      exact .inl (.pair (List.append_inj' hlast rfl).1 hinner hend)

/-- A beginning closes nothing. -/
theorem closedIn_begin {kind : OperationKind} {stamp : Stamp} {operation : OperationRef} :
    ClosedIn (w ++ [.before kind stamp operation]) i ↔ ClosedIn w i := by
  refine ⟨fun h => h.of_snoc.resolve_right ?_, fun h => h.append _⟩
  rintro ⟨_, _, _, _, _, _, _, hend, _⟩
  cases hend

/-- The end of what is innermost closes that, and nothing else. -/
theorem Leaves.closedIn_close {o : Opening} {opened : List Opening} {endedAt : Stamp}
    (h : Leaves w (o :: opened)) (hend : e.ending? = some (o.kind, endedAt, o.operation)) :
    ClosedIn (w ++ [e]) i ↔ ClosedIn w i ∨ i = o.endedAt opened.length endedAt.timestamp := by
  constructor
  · intro hi
    refine hi.of_snoc.imp_right ?_
    rintro ⟨o', earlier, inner, endedAt', rfl, hrank, hinner, hend', rfl⟩
    obtain ⟨opened', hearlier⟩ := h.of_append
    obtain ⟨rfl, rfl⟩ := List.cons.inj (h.unique (hearlier.opening hrank hinner))
    obtain ⟨_, rfl, _⟩ := Prod.mk.inj (Option.some.inj (hend.symm.trans hend'))
    rw [hearlier.depth_eq]
  · rintro (hi | rfl)
    · exact hi.append _
    · cases h with
      | @opening earlier inner _ _ hearlier hrank hinner =>
        have hsplit : (earlier ++ o.event :: inner) ++ [e] =
            earlier ++ .before o.kind o.stamp o.operation :: (inner ++ e :: []) := by
          simp [Opening.event]
        rw [← hearlier.depth_eq, Opening.endedAt, hrank]
        exact .pair hsplit hinner hend

end Closed

end Retrace
