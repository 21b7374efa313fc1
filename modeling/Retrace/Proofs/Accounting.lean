import Mathlib.Data.List.Nodup
import Retrace.Proofs.Recording

/-! Accounting. Every place that was given out has an open slot or a recorded execution, and has
only one of them. That takes no order of the events. So what ends is never refused because its place
is taken. A refusal loses places, but those of the slots that are left stay free. -/

namespace Retrace.Tracker
open scoped List

/-- Do the open slots and the recorded executions share out the places? -/
structure Accounted (t : Tracker) : Prop where
  ids : t.executions.traceId = t.trace.traceId
  places : t.slots.map (fun s => (s.eoi : Int)) ++ t.intervals.map (·.eoi) ~
    (List.range t.nextEoi).map Int.ofNat

/-- The same with some slots that have been taken off, but whose executions are not recorded yet. -/
structure Owes (t : Tracker) (taken : List Slot) : Prop where
  ids : t.executions.traceId = t.trace.traceId
  places : (taken ++ t.slots).map (fun s => (s.eoi : Int)) ++ t.intervals.map (·.eoi) ~
    (List.range t.nextEoi).map Int.ofNat

/-- Are the places of the slots free, and is none of them given to two slots? -/
structure Vacant (t : Tracker) (slots : List Slot) : Prop where
  ids : t.executions.traceId = t.trace.traceId
  places : (slots.map (fun s => (s.eoi : Int)) ++ t.intervals.map (·.eoi)).Nodup

section Vacant

variable {t : Tracker} {slots left : List Slot}

theorem Owes.vacant {taken : List Slot} (h : t.Owes taken) : t.Vacant (taken ++ t.slots) :=
  ⟨h.ids, h.places.nodup_iff.mpr (List.nodup_range.map fun _ _ heq => Int.ofNat.inj heq)⟩

theorem Accounted.vacant (h : t.Accounted) : t.Vacant t.slots :=
  @Owes.vacant t [] ⟨h.ids, h.places⟩

theorem Vacant.sublist (h : t.Vacant slots) (hleft : left <+ slots) : t.Vacant left :=
  ⟨h.ids, h.places.sublist ((hleft.map _).append_right _)⟩

/-- What ends in a vacant slot is recorded if it does not end before it begins. The other slots stay
vacant, also if it is refused. -/
theorem Vacant.record {i : Invocation} (h : t.Vacant (i.slot :: left)) :
    (t.record i).tracker.Vacant left ∧
      (i.entryTime ≤ i.exitTime → t.record i = ⟨t.recorded i, none⟩) := by
  obtain ⟨hfree, hleft⟩ := List.nodup_cons.mp h.places
  constructor
  · rw [record_eq]
    split
    · rename_i hadd
      obtain ⟨_, _, _, rfl⟩ := ExecutionTrace.add_eq_ok hadd
      have hone : (t.recorded i).intervals ~ i.interval :: t.intervals :=
        intervals_recordedAll t [i]
      have hmoved := ((hone.map (·.eoi)).append_left (left.map fun s => (s.eoi : Int))).trans
        List.perm_middle
      exact ⟨h.ids, hmoved.nodup_iff.mpr h.places⟩
    · exact ⟨h.ids, hleft⟩
  · intro htime
    refine record_of_fresh h.ids htime fun x hx heoi => hfree ?_
    exact List.mem_append_right _ (List.mem_map.mpr ⟨x, hx, heoi⟩)

/-- Several invocations are recorded, unless something ends before it begins. -/
theorem Vacant.recordAll {is : List Invocation} (h : t.Vacant (is.map (·.slot) ++ left)) :
    (t.recordAll is).tracker.Vacant left ∧
      (t.recordAll is = ⟨t.recordedAll is, none⟩ ∨
        ∃ i ∈ is, ∃ x : Execution, i.exitTime < i.entryTime ∧ x.interval = i.interval ∧
          (t.recordAll is).fault = some (.rejected (.backwards x))) := by
  induction is generalizing t with
  | nil => exact ⟨h, .inl rfl⟩
  | cons i rest ih =>
    obtain ⟨hvacant, hrecord⟩ := Vacant.record h
    rcases Int.lt_or_le i.exitTime i.entryTime with hback | htime
    · obtain ⟨x, hx, hfault⟩ := record_of_backwards h.ids hback
      have hstop : t.recordAll (i :: rest) = t.record i := by
        rw [Tracker.recordAll, Step.andThen, hfault]
      rw [hstop]
      exact ⟨hvacant.sublist (List.sublist_append_right _ _),
        .inr ⟨i, List.mem_cons_self, x, hback, hx, hfault⟩⟩
    · have hnext : t.recordAll (i :: rest) = (t.recorded i).recordAll rest := by
        rw [Tracker.recordAll, hrecord htime, Step.andThen_ok]
      rw [hrecord htime] at hvacant
      rw [hnext]
      refine (ih hvacant).imp_right (.imp_right ?_)
      rintro ⟨j, hj, hbad⟩
      exact ⟨j, List.mem_cons_of_mem i hj, hbad⟩

end Vacant

theorem accounted_start (trace : TraceInfo) (matching : Matching) (model : Model) :
    (start trace matching model).Accounted :=
  ⟨rfl, List.Perm.refl _⟩

section Accounted

variable {t : Tracker}

theorem Accounted.nodup (h : t.Accounted) :
    (t.slots.map (fun s => (s.eoi : Int)) ++ t.intervals.map (·.eoi)).Nodup :=
  h.vacant.places

theorem Accounted.holding (h : t.Accounted) (openEvents : List Event) :
    (t.holding openEvents t.slots t.nextEoi).Accounted :=
  ⟨h.ids, h.places⟩

theorem Accounted.pushOpen (h : t.Accounted) (e : Event) : (t.pushOpen e).Accounted where
  ids := h.ids
  places := by
    change (t.nextEoi : Int) :: (_ ++ _) ~ (List.range (t.nextEoi + 1)).map Int.ofNat
    rw [List.range_succ, List.map_append]
    exact (h.places.cons _).trans (List.perm_append_singleton _ _).symm

/-- Slots that are taken off stay accounted for until they are recorded. -/
theorem Accounted.owes (h : t.Accounted) {taken below : List Slot}
    (hslots : t.slots ~ taken ++ below) (openEvents : List Event) :
    (t.holding openEvents below t.nextEoi).Owes taken :=
  ⟨h.ids, ((hslots.symm.map _).append_right _).trans h.places⟩

theorem Owes.accounted (h : t.Owes []) : t.Accounted :=
  ⟨h.ids, h.places⟩

theorem Owes.recorded {i : Invocation} {taken : List Slot} (h : t.Owes (i.slot :: taken)) :
    (t.recorded i).Owes taken := by
  have hone : (t.recorded i).intervals ~ i.interval :: t.intervals := intervals_recordedAll t [i]
  exact ⟨h.ids, ((hone.map _).append_left _).trans (List.perm_middle.trans h.places)⟩

theorem Owes.recordedAll {is : List Invocation} (h : t.Owes (is.map (·.slot))) :
    (t.recordedAll is).Accounted := by
  induction is generalizing t with
  | nil => exact h.accounted
  | cons i rest ih => exact ih (Owes.recorded h)

/-- Several slots that were taken off are recorded, unless something ends before it begins. -/
theorem Owes.recordAll {is : List Invocation} (h : t.Owes (is.map (·.slot))) :
    (t.recordAll is = ⟨t.recordedAll is, none⟩ ∧ (t.recordedAll is).Accounted) ∨
      ∃ i ∈ is, ∃ x : Execution, i.exitTime < i.entryTime ∧ x.interval = i.interval ∧
        (t.recordAll is).fault = some (.rejected (.backwards x)) :=
  h.vacant.recordAll.2.imp_left fun hrecord => ⟨hrecord, h.recordedAll⟩

/-- What ends in the innermost slot is recorded if it does not end before it begins. -/
theorem Accounted.record (h : t.Accounted) {slot : Slot} {below : List Slot} {i : Invocation}
    (hslots : t.slots = slot :: below) (hslot : i.slot = slot) (htime : i.entryTime ≤ i.exitTime)
    (openEvents : List Event) :
    (t.holding openEvents below t.nextEoi).record i =
        ⟨(t.recorded i).holding openEvents below t.nextEoi, none⟩ ∧
      ((t.recorded i).holding openEvents below t.nextEoi).Accounted := by
  subst hslot
  have howes : (t.holding openEvents below t.nextEoi).Owes [i.slot] :=
    h.owes (.of_eq hslots) openEvents
  exact ⟨(Vacant.record howes.vacant).2 htime, howes.recorded.accounted⟩

end Accounted

end Retrace.Tracker
